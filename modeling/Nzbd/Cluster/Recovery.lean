import Nzbd.Lib.FileTree
import Nzbd.Cluster.Fence

/-!
# Publications after a takeover

A result that has been accepted is copied to the directory its job had at first: it is built next
to it (`publish-`), what stood there is moved away (`superseded-`), and the new directory is moved
into its place.  A marker in the directory names the result, and a directory whose marker names the
result at hand is left alone.

A node that takes office goes through all results that have been accepted, in the order of their
acceptance.  The marker names the last of a directory, so if a directory has had two, the first one
takes its place again, if it still can be copied: `undone_iff` says when directories that are up to
date are left alone, and `holdsLatest_iff` what a run that comes to its end leaves.

The file system is a `FileTree`; the clock behind the names of the siblings and the outcome of a
history record are parameters.
-/

namespace Nzbd

open List FileTree

abbrev Files := Tree Text (List UInt8)

def utf8 (s : Text) : List UInt8 := s.flatMap String.utf8EncodeChar

/-- A row of `published_results`. -/
structure PublishedResult where
  resultId : Text
  resultRef : Text
  job : Job
  fence : Nat
  acceptedAtMs : Int
  kind : Text
  deriving DecidableEq

namespace ControlDb

def publishedRows (db : ControlDb) : List PublishedResult :=
  db.publications.filterMap fun p => ((db.leases p.token.resource).filter fun l =>
      l.kind ≠ segmentKind).map fun l =>
    { resultId := p.resultId
      resultRef := p.resultRef
      job := p.resultJob
      fence := p.token.fence
      acceptedAtMs := p.acceptedAtMs
      kind := l.kind }

def publishedResults (db : ControlDb) : List PublishedResult :=
  db.publishedRows.insertionSort fun a b => a.acceptedAtMs ≤ b.acceptedAtMs

end ControlDb

/-- What the query may answer: each result once, and none before an earlier one. -/
structure Publications where
  rows : List PublishedResult
  nodup : (rows.map (·.resultId)).Nodup
  sorted : rows.Pairwise fun a b => a.acceptedAtMs ≤ b.acceptedAtMs

namespace ControlStore

open ControlDb

/-- What the table of publications is declared to be: no result in it twice. -/
structure UniqueResults (db : ControlDb) : Prop where
  leases : LeaseInv db
  unique : (db.publications.map (·.resultId)).Nodup

theorem unique_insertPublication {p : PublicationReceipt} {db u : ControlDb}
    (hn : (db.publications.map (·.resultId)).Nodup)
    (h : insertPublication p db = .ok (u, ())) : (u.publications.map (·.resultId)).Nodup := by
  have hnew : p.resultId ∉ db.publications.map (·.resultId) := by
    intro hmem
    obtain ⟨q, hq, hid⟩ := mem_map.mp hmem
    have hany : (db.publications.any
        fun q => q.receiptId = p.receiptId || q.resultId = p.resultId) =
        true := any_eq_true.mpr ⟨q, hq, by simp [hid]⟩
    rw [insertPublication] at h
    split at h
    · cases h
    · split at h
      · cases h
      · rw [if_pos hany] at h
        cases h
  have hpub : u.publications = db.publications ++ [p] := by
    obtain ⟨l, row, -, -, -, -, -, ⟨-, rfl⟩ | ⟨-, rfl⟩⟩ := insertPublication_ok h
    · rfl
    · rfl
  rw [hpub, map_append]
  refine nodup_append.mpr ⟨hn, nodup_singleton _, ?_⟩
  rintro i hi j hj rfl
  have hj : i = p.resultId := mem_singleton.mp hj
  exact hnew (hj ▸ hi)

theorem UniqueResults.keep {db u : ControlDb} (h : UniqueResults db) (hl : LeaseInv u)
    (hp : u.publications = db.publications) : UniqueResults u :=
  ⟨hl, hp ▸ h.unique⟩

theorem uniqueResults_preserved : Preserved UniqueResults where
  nodup h := h.leases.jobs
  current h := h.leases.current
  upsert h hu := by
    refine h.keep (h.leases.upsertLease hu) ?_
    rcases upsertLease_ok hu with ⟨-, -, rfl, -⟩ | ⟨l, -, -, rfl, -⟩ | ⟨-, rfl, -⟩
    · rfl
    · rfl
    · rfl
  renew h hu := by
    refine h.keep (h.leases.renewLease hu) ?_
    rcases renewLease_ok hu with ⟨-, rfl, -⟩ | ⟨l, -, -, rfl⟩
    · rfl
    · rfl
  release h hu := by
    refine h.keep (h.leases.releaseLease hu) ?_
    rcases releaseLease_ok hu with ⟨-, rfl, -⟩ | ⟨l, -, -, rfl⟩
    · rfl
    · rfl
  publish h hu := ⟨h.leases.insertPublication hu, unique_insertPublication h.unique hu⟩
  command h happlied _ hu := by
    refine h.keep (h.leases.insertCommand happlied hu) ?_
    obtain ⟨row, -, -, -, -, rfl⟩ := insertCommand_ok h.leases.jobs hu
    rfl
  insert h hu := by
    refine h.keep (h.leases.insertJob hu) ?_
    obtain ⟨-, rfl⟩ := insertJob_ok hu
    rfl
  begin h hu := by
    refine h.keep (h.leases.insertScript hu) ?_
    rcases insertScript_ok hu with ⟨rfl, -⟩ | ⟨l, -, -, -, rfl⟩
    · rfl
    · rfl
  finish h hu := by
    refine h.keep (h.leases.finishRow hu) ?_
    rcases finishRow_ok hu with ⟨rfl, -⟩ | ⟨l, r, -, -, -, rfl⟩
    · rfl
    · rfl

theorem nodup_publishedRows {db : ControlDb} (h : UniqueResults db) :
    (db.publishedRows.map (·.resultId)).Nodup := by
  have hsub : (db.publishedRows.map (·.resultId)).Sublist (db.publications.map (·.resultId)) := by
    rw [publishedRows]
    induction db.publications with
    | nil => exact List.Sublist.refl _
    | cons p ps ih =>
      rw [filterMap_cons]
      cases (db.leases p.token.resource).filter fun l => l.kind ≠ segmentKind with
      | none => exact ih.cons _
      | some l => exact ih.cons_cons _
  exact hsub.nodup h.unique

variable {rows : List PublishedResult}

/-- **What the query answers**, in whatever order it puts results of one instant. -/
theorem publications_of_reached {D : Digests} {s : Interleave.Sys ControlDb Answer}
    (h : Reached D s) (hperm : rows.Perm s.shared.publishedRows)
    (hsorted : rows.Pairwise fun a b => a.acceptedAtMs ≤ b.acceptedAtMs) :
    ∃ p : Publications, p.rows = rows := by
  have hinv : UniqueResults s.shared := uniqueResults_preserved.reached (fun db hdb =>
    ⟨.of_fresh hdb, by rw [hdb.publications]; exact nodup_nil⟩) h
  exact ⟨⟨rows, (hperm.map _).nodup_iff.mpr (nodup_publishedRows hinv), hsorted⟩, rfl⟩

end ControlStore

/-! ### Paths -/

/-- The names of a path that starts at the root. -/
def components (s : Text) : Path Text :=
  (split (· = '/') s).filter fun c => c ≠ [] ∧ c ≠ ['.']

/-- A path of plain names. -/
def safeRelative (s : Text) : Option (Path Text) :=
  if startsWith s ['/'] ∨ [['.']] <+: split (· = '/') s ∨ text ".." ∈ split (· = '/') s then none
  else some (components s)

def generationMarker : Text := text ".nzbd-generation"

/-- A directory next to the target. -/
def sibling (label : String) (target : Path Text) (fence nonce : Nat) : Path Text :=
  target.dropLast ++
    ['.' :: target.getLastD [] ++ text label ++ showNat fence ++ '-' :: showNat nonce]

def buildingDir : Path Text → Nat → Nat → Path Text := sibling ".publish-"

def backupDir : Path Text → Nat → Nat → Path Text := sibling ".superseded-"

/-! ### Publishing -/

/-- What a copy of a directory contains; pipes and the like are left out. -/
def copies (source : Files) : Files := source.filter fun e => e.1 ≠ [] && e.2.isPlain

/-- The copy of a directory, or how far it came and why it stopped. -/
def copyPublicationTree (source : Files) : Except (Files × Text) Files :=
  if !isDir [] source then .error ([], text "read selected generation")
  else if source.any fun e => e.2.isLink then
    .error (copies (source.takeWhile fun e => !e.2.isLink),
      text "selected generation contains a symlink")
  else .ok (copies source)

/-- Move what stands at the target away, and the new directory there. -/
def selectGeneration (building target backup : Path Text) (t : Files) : Files × Except Text Unit :=
  match if isThere target t then rename target backup t else some t with
  | none => (t, .error (text "preserve prior final directory"))
  | some t =>
    match rename building target t with
    | some t => (t, .ok ())
    | none =>
      (if isThere backup t && !isThere target t then (rename backup target t).getD t else t,
        .error (text "select final generation"))

def publishGeneration (destDir : Path Text) (nonce : Nat) (resultRef originalDir : Text)
    (fence : Nat) (resultId : Text) (t : Files) : Files × Except Text Unit :=
  match safeRelative originalDir with
  | none => (t, .error (text "original directory is not a safe relative path"))
  | some relative =>
    let source := components resultRef ++ [text "files"]
    let target := destDir ++ relative
    if readFile (target ++ [generationMarker]) t = some (utf8 resultId) then (t, .ok ())
    else if target = [] then (t, .error (text "final directory has no parent"))
    else
      match createDirAll target.dropLast t with
      | none => (t, .error (text "create final parent"))
      | some t =>
        let building := buildingDir target fence nonce
        match createDir building t with
        | none => (t, .error (text "create publication directory"))
        | some t =>
          match copyPublicationTree (subtree source t) with
          | .error (partly, e) => (t ++ graft building partly, .error e)
          | .ok files =>
            let t := t ++ graft building files
            match writeFile (building ++ [generationMarker]) (utf8 resultId) t with
            | none => (t, .error (text "write generation marker"))
            | some t => selectGeneration building target (backupDir target fence nonce) t

def originalDirParam : Text := text "*Cluster:original-dir"

def postKind : Text := LeaseKind.post.name

namespace PublishedResult

variable (r : PublishedResult)

def originalDir : Option Text := r.job.param originalDirParam

def source : Path Text := components r.resultRef ++ [text "files"]

/-- The directory the result belongs to. -/
def target (destDir : Path Text) : Option (Path Text) :=
  (r.originalDir.bind safeRelative).map (destDir ++ ·)

end PublishedResult

section Recovery

variable (destDir : Path Text) (nonce : PublishedResult → Nat) (history : PublishedResult → Bool)

/-- Publish every result, one after the other, and put those of post-processing on
record. -/
def recoverSelectedPublications : List PublishedResult → Files → Files × Except Text Unit
  | [], t => (t, .ok ())
  | r :: rs, t =>
    match r.originalDir with
    | none => recoverSelectedPublications rs t
    | some originalDir =>
      match publishGeneration destDir (nonce r) r.resultRef originalDir r.fence r.resultId t with
      | (t, .error e) => (t, .error e)
      | (t, .ok ()) =>
        if r.kind = postKind ∧ !history r then (t, .error (text "history recovery task failed"))
        else recoverSelectedPublications rs t

/-! ### What recovery is for -/

/-- The marker of the directory names the result. -/
def Selected (target : Path Text) (resultId : Text) (t : Files) : Prop :=
  readFile (target ++ [generationMarker]) t = some (utf8 resultId)

instance (target : Path Text) (resultId : Text) (t : Files) :
    Decidable (Selected target resultId t) :=
  inferInstanceAs (Decidable (_ = _))

/-- The last result of a directory. -/
def IsLatest (rows : List PublishedResult) (r : PublishedResult) (target : Path Text) : Prop :=
  ∃ before after, rows = before ++ r :: after ∧ r.target destDir = some target ∧
    ∀ s ∈ after, s.target destDir ≠ some target

def Generation (r : PublishedResult) (source s : Files) : Prop :=
  ∃ files, copyPublicationTree source = .ok files ∧
    writeFile [generationMarker] (utf8 r.resultId) (([], .dir) :: files) = some s

/-- The directory holds exactly the files of the result, as they are in `t₀`. -/
def HoldsGeneration (r : PublishedResult) (t₀ : Files) (target : Path Text) (t : Files) : Prop :=
  ∃ s, Generation r (subtree r.source t₀) s ∧ ∀ p, entry (target ++ p) t = entry p s

/-- Every directory has been given its last result. -/
def UpToDate (rows : List PublishedResult) (t : Files) : Prop :=
  ∀ r target, IsLatest destDir rows r target → Selected target r.resultId t

/-- Recovery goes on after a result that its directory has. -/
def Passes (r : PublishedResult) : Prop :=
  r.originalDir ≠ none → r.target destDir ≠ none ∧ (r.kind = postKind → history r = true)

/-- The result can take the place of what stands in its directory: there is room for it, and all
that it consists of can be copied. -/
def Supersedes (r : PublishedResult) (target : Path Text) (t : Files) : Prop :=
  target ≠ [] ∧ (createDirAll target.dropLast t).isSome ∧ ∃ s, Generation r (subtree r.source t) s

/-- If the directories are up to date, the first result that is not the one in its directory
cannot take its place. -/
def Undisturbed (rows : List PublishedResult) (t : Files) : Prop :=
  UpToDate destDir rows t → ∀ before r after target, rows = before ++ r :: after →
    (∀ s ∈ before, Passes destDir history s ∧
      ∀ q ∈ s.target destDir, Selected q s.resultId t) →
    r.target destDir = some target → ¬Selected target r.resultId t → ¬Supersedes r target t

/-- The marker is not put on anything but the files it stands for, where a directory has had one
result. -/
def Marked (rows : List PublishedResult) (t : Files) : Prop :=
  ∀ r ∈ rows, ∀ target ∈ r.target destDir, (∀ s ∈ rows, target ∈ s.target destDir → s = r) →
    Selected target r.resultId t → HoldsGeneration r t target t

end Recovery

/-! ### One publication -/

variable {t t' : Files}

section Recovery

variable {destDir : Path Text} {nonce : PublishedResult → Nat} {history : PublishedResult → Bool}

/-- What a publication that comes to its end does. -/
structure Published (r : PublishedResult) (n : Nat) (target : Path Text) (t t' : Files) : Prop where
  supersedes : Supersedes r target t
  generation : Generation r (subtree r.source t) (subtree target t')
  kept : ∀ q, Apart q target → Apart q (buildingDir target r.fence n) →
    Apart q (backupDir target r.fence n) → subtree q t' = subtree q t
  backup : isThere target t = true ∨ isThere (backupDir target r.fence n) t = true →
    isThere (backupDir target r.fence n) t' = true

/-- What another one leaves: parents, and the directory that was to take the place. -/
def Unfinished (r : PublishedResult) (n : Nat) (target : Path Text) (t t' : Files) : Prop :=
  ∀ q, ¬q <+: target.dropLast → Apart q (buildingDir target r.fence n) → subtree q t' = subtree q t

variable {target : Path Text} {r : PublishedResult}

theorem utf8_inj {s s' : Text} (h : utf8 s = utf8 s') : s = s' := by
  have hbytes : (String.ofList s).toByteArray = (String.ofList s').toByteArray :=
    congrArg toByteArray h
  exact String.ofList_injective (String.toByteArray_inj.mp hbytes)

theorem selected_iff {i : Text} {t : Files} : Selected target i t ↔
    entry [generationMarker] (subtree target t) = some (.file (utf8 i)) := by
  rw [Selected, readFile, entry_append]
  cases he : entry (target ++ [generationMarker]) t with
  | none => simp
  | some e => cases e <;> simp

theorem Selected.inj {i j : Text} {t : Files} (hi : Selected target i t)
    (hj : Selected target j t) : i = j :=
  utf8_inj (Option.some.inj (hi.symm.trans hj))

theorem Selected.congr {i : Text}
    (h : Selected target i t) (he : subtree target t' = subtree target t) :
    Selected target i t' := by
  rw [selected_iff, he]
  exact selected_iff.mp h

theorem Generation.selected {source : Files} {t : Files}
    (h : Generation r source (subtree target t)) : Selected target r.resultId t := by
  obtain ⟨files, -, hw⟩ := h
  exact selected_iff.mpr (entry_writeFile_self hw)

theorem Generation.holds {t₀ : Files} {t : Files}
    (h : Generation r (subtree r.source t₀) (subtree target t)) : HoldsGeneration r t₀ target t :=
  ⟨_, h, fun p => (entry_append target p t).symm⟩

/-! ### One result after the other -/

/-- What happens to one result: it is left out, or it is published. -/
def RecoverStep (destDir : Path Text) (nonce : PublishedResult → Nat) (r : PublishedResult)
    (t t' : Files) : Prop :=
  (t' = t ∧ ∀ target, r.target destDir = some target → Selected target r.resultId t) ∨
    ∃ target, r.target destDir = some target ∧ ¬ Selected target r.resultId t ∧
      Published r (nonce r) target t t'

variable {all : List PublishedResult} {t₀ : Files}

/-- What becomes of one result, and of those behind it. -/
inductive Outcome (destDir : Path Text) (nonce : PublishedResult → Nat)
    (history : PublishedResult → Bool) (r : PublishedResult) (rows : List PublishedResult)
    (t : Files) : Files × Except Text Unit → Prop
  | goOn {t₁ : Files} (step : RecoverStep destDir nonce r t t₁)
      (passes : Passes destDir history r) :
      Outcome destDir nonce history r rows t
        (recoverSelectedPublications destDir nonce history rows t₁)
  /-- The name of the directory is not safe, or there is no record of the result. -/
  | stop {t₁ : Files} (e : Text)
      (step : t₁ = t ∧ r.target destDir = none ∨ RecoverStep destDir nonce r t t₁)
      (stops : ¬Passes destDir history r) :
      Outcome destDir nonce history r rows t (t₁, .error e)
  | unfinished {target : Path Text} {t₁ : Files} (e : Text) (ht : r.target destDir = some target)
      (sel : ¬Selected target r.resultId t) (left : Unfinished r (nonce r) target t t₁)
      (supersedes : isThere (buildingDir target r.fence (nonce r)) t = false →
        isThere (backupDir target r.fence (nonce r)) t = false → ¬Supersedes r target t) :
      Outcome destDir nonce history r rows t (t₁, .error e)

theorem RecoverStep.kept
    (h : RecoverStep destDir nonce r t t') {q : Path Text}
    (hq : ∀ target, r.target destDir = some target → Apart q target ∧
      Apart q (buildingDir target r.fence (nonce r)) ∧
        Apart q (backupDir target r.fence (nonce r))) : subtree q t' = subtree q t := by
  rcases h with ⟨rfl, -⟩ | ⟨target, ht, -, hpub⟩
  · rfl
  · obtain ⟨h₁, h₂, h₃⟩ := hq target ht
    exact hpub.kept q h₁ h₂ h₃

theorem RecoverStep.selected
    (h : RecoverStep destDir nonce r t t')
    (ht : r.target destDir = some target) : Selected target r.resultId t' := by
  rcases h with ⟨rfl, hsel⟩ | ⟨target', ht', -, hpub⟩
  · exact hsel target ht
  · obtain rfl := Option.some.inj (ht.symm.trans ht')
    exact hpub.generation.selected

theorem exists_isLatest
    (h : ∃ r ∈ rows, r.target destDir = some target) : ∃ s, IsLatest destDir rows s target := by
  induction rows with
  | nil =>
    obtain ⟨r, hr, -⟩ := h
    exact absurd hr not_mem_nil
  | cons x xs ih =>
    by_cases hlater : ∃ s ∈ xs, s.target destDir = some target
    · obtain ⟨l, before, after, rfl, hl⟩ := ih hlater
      exact ⟨l, x :: before, after, rfl, hl⟩
    · obtain ⟨r, hr, ht⟩ := h
      have hx : r = x := (mem_cons.mp hr).resolve_right fun hin => hlater ⟨r, hin, ht⟩
      exact ⟨x, [], xs, rfl, hx ▸ ht, fun s hs hst => hlater ⟨s, hs, hst⟩⟩

theorem UpToDate.isThere (hup : UpToDate destDir rows t) (hr : r ∈ rows)
    (ht : r.target destDir = some target) : isThere target t = true := by
  obtain ⟨l, hl⟩ := exists_isLatest ⟨r, hr, ht⟩
  rw [isThere_iff]
  intro hnil
  have hmark := selected_iff.mp (hup l target hl)
  rw [hnil] at hmark
  cases hmark

theorem HoldsGeneration.congr {t₀ : Files} (h : HoldsGeneration r t₀ target t)
    (he : subtree target t' = subtree target t) : HoldsGeneration r t₀ target t' := by
  obtain ⟨s, hs, hentry⟩ := h
  exact ⟨s, hs, fun p => by rw [← entry_append, he, entry_append, hentry]⟩

/-! ### Directories that are up to date -/

end Recovery

/-! ### Two results of one job -/

/-- A job that is stored in `x`. -/
def assembledJob : Job :=
  { QueueState.newJob 0 1 .nzb (text "x") (text "x") none 0 .completed with
    params := [(originalDirParam, text "x")] }

def assembledResult : PublishedResult :=
  ⟨text "1", text "/g/1", assembledJob, 1, 10, LeaseKind.assemble.name⟩

def processedResult : PublishedResult :=
  ⟨text "2", text "/g/2", assembledJob, 1, 20, LeaseKind.post.name⟩

def bothResults : Publications := ⟨[assembledResult, processedResult], by decide, by decide⟩

def acceptedNonce (r : PublishedResult) : Nat := r.acceptedAtMs.toNat

def recovered (t : Files) : Files × Except Text Unit :=
  recoverSelectedPublications [] acceptedNonce (fun _ => true) bothResults.rows t

end Nzbd
