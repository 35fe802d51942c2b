import Mathlib.Algebra.GroupWithZero.Nat
import Nzbd.Lib.Positions
import Nzbd.Torrent.Owner

/-!
# Restoring torrents

`planRestore` builds the only set of torrents the engine may restore: one request
for each record that is safe and alive, with the files to be selected.  The
adapter reads the metainfo of a request back from disk (`inspectMetainfo`) and
hands it to the engine together with the selection.

The files of a torrent are numbered three times.  The engine numbers every entry
of the metainfo, padding included (`computeOnlyFiles`, `projectContentFiles`); the
durable records stand for the content files alone; and the request carries
positions of records.  Progress goes back by path, so it finds the right record
(`foldsAlike`).  The selection goes out by position, so it means the
selected files only if no padding entry stands in front of one of them (`restore_selects_iff`).
-/

namespace Nzbd.Torrent

open List Positions

/-! ### The plan -/

structure ObservedResumeState where
  engineId : Nat
  verifiedBytes : Nat
  finished : Bool

structure RestoreRequest where
  job : JobId
  infoHashV1 : Text
  metadataFile : PathBuf
  selectedFiles : List Nat
  preferredEngineId : Option Nat
  startPaused : Bool
  resumeAfterRestore : Bool
  forceRecheck : Bool
  trustedDownloadedBytes : Nat
  deriving DecidableEq

inductive RestoreDiagnostic
  | missingTorrentRecord
  | invalidInfoHash
  | unsafeMetadataPath
  | duplicateInfoHash
  | duplicatePreferredIdentity
  | deletedRecord
  | removalIntent
  | unsafePayloadRoot

def maxRestoreDiagnostics : Nat := 64

structure RestorePlan where
  requests : List RestoreRequest
  diagnostics : List RestoreDiagnostic
  /-- The hashes and the engine ids met so far. -/
  hashes : List Text
  preferredIds : List Nat

def RestorePlan.empty : RestorePlan := ⟨[], [], [], []⟩

/-- Diagnostics are bounded. -/
def RestorePlan.diagnose (p : RestorePlan) (d : RestoreDiagnostic) : RestorePlan :=
  if p.diagnostics.length < maxRestoreDiagnostics then
    { p with diagnostics := p.diagnostics ++ [d] }
  else p

def isLowerHex (c : Char) : Bool := c.isDigit || ('a' ≤ c && c ≤ 'f')

def validHash (hash : Text) : Bool := hash.length = 40 && hash.all isLowerHex

def isNormal : Component → Bool
  | .normal _ => true
  | _ => false

def isAbsolute (path : PathBuf) : Bool := path.head? = some .rootDir

def safeRelativePath (path : PathBuf) : Bool :=
  path ≠ [] && !isAbsolute path && path.all isNormal

def selectedFiles (files : List TorrentFileRecord) : List Nat :=
  files.zipIdx.filterMap fun f => if f.1.selected then some f.2 else none

variable (w : World) (observed : Text → Option ObservedResumeState) (allowed : List JobId)

def restoreRequest (job : JobId) (t : TorrentRecord) : RestoreRequest where
  job := job
  infoHashV1 := t.infoHashV1
  metadataFile := t.metadataFile
  selectedFiles := selectedFiles t.files
  preferredEngineId := (observed t.infoHashV1).map (·.engineId)
  startPaused := true
  resumeAfterRestore := t.controlIntent = .running && t.phase ≠ .failed &&
    (t.phase = .seeding || t.phase = .pausedSeed || job ∈ allowed)
  forceRecheck := (observed t.infoHashV1).any fun state =>
    state.finished ≠ t.readyAtUnix.isSome || state.verifiedBytes ≠ t.downloadedBytes
  trustedDownloadedBytes := t.downloadedBytes

/-- What keeps a record out of the plan, whatever came before it. -/
def fences (roots : List PathBuf) (job : Job) (t : TorrentRecord) : Option RestoreDiagnostic :=
  if t.removalIntent.isSome then some .removalIntent
  else if job.status = .deleted then some .deletedRecord
  else if validHash t.infoHashV1 = false then some .invalidInfoHash
  else if safeRelativePath t.metadataFile = false then some .unsafeMetadataPath
  else if t.contentPath.any fun path => !roots.any (w.payloadIsWithinRoot path ·) then
    some .unsafePayloadRoot
  else none

def planJob (roots : List PathBuf) (p : RestorePlan) (job : Job) : RestorePlan :=
  if job.kind ≠ .torrent then p
  else
    match job.torrent with
    | none => p.diagnose .missingTorrentRecord
    | some t =>
      match fences w roots job t with
      | some d => p.diagnose d
      | none =>
        if t.infoHashV1 ∈ p.hashes then p.diagnose .duplicateInfoHash
        else
          let p := { p with hashes := t.infoHashV1 :: p.hashes }
          let r := restoreRequest observed allowed job.id t
          if r.preferredEngineId.any (· ∈ p.preferredIds) then
            p.diagnose .duplicatePreferredIdentity
          else
            { p with
              requests := p.requests ++ [r]
              preferredIds := r.preferredEngineId.toList ++ p.preferredIds }

/-- `plan_restore_with_roots`. -/
def planRestore (roots : List PathBuf) (jobs : List Job) : RestorePlan :=
  jobs.foldl (planJob w observed allowed roots) .empty

variable {p : RestorePlan}

@[simp] theorem requests_diagnose (d : RestoreDiagnostic) :
    (p.diagnose d).requests = p.requests := by
  simp only [RestorePlan.diagnose]
  split <;> rfl

@[simp] theorem hashes_diagnose (d : RestoreDiagnostic) : (p.diagnose d).hashes = p.hashes := by
  simp only [RestorePlan.diagnose]
  split <;> rfl

@[simp] theorem preferredIds_diagnose (d : RestoreDiagnostic) :
    (p.diagnose d).preferredIds = p.preferredIds := by
  simp only [RestorePlan.diagnose]
  split <;> rfl

/-- **What a job adds to the plan**: nothing, or one request with a new hash and,
where the engine has been observed, a new id. -/
theorem planJob_cases (roots : List PathBuf) (p : RestorePlan) (job : Job) :
    ((planJob w observed allowed roots p job).requests = p.requests ∧
      p.hashes ⊆ (planJob w observed allowed roots p job).hashes ∧
      (planJob w observed allowed roots p job).preferredIds = p.preferredIds) ∨
    ∃ t, job.kind = .torrent ∧ job.torrent = some t ∧ fences w roots job t = none ∧
      t.infoHashV1 ∉ p.hashes ∧
      (∀ id ∈ (restoreRequest observed allowed job.id t).preferredEngineId,
        id ∉ p.preferredIds) ∧
      planJob w observed allowed roots p job = { p with
        hashes := t.infoHashV1 :: p.hashes
        requests := p.requests ++ [restoreRequest observed allowed job.id t]
        preferredIds := (restoreRequest observed allowed job.id t).preferredEngineId.toList ++
          p.preferredIds } := by
  simp only [planJob]
  split
  · exact .inl ⟨rfl, fun _ h => h, rfl⟩
  · next hkind =>
    split
    · exact .inl ⟨by simp, by simp, by simp⟩
    · next t ht =>
      split
      · exact .inl ⟨by simp, by simp, by simp⟩
      · next hfences =>
        split
        · exact .inl ⟨by simp, by simp, by simp⟩
        · next hhash =>
          split
          · exact .inl ⟨by simp, by simp, by simp⟩
          · next hid =>
            refine .inr ⟨t, not_not.mp hkind, ht, hfences, hhash, ?_, rfl⟩
            intro id hsome hmem
            exact hid (by simp [Option.mem_def.mp hsome, hmem])

variable {w observed allowed} {roots : List PathBuf}

theorem mem_planRestore {r : RestoreRequest} (jobs : List Job)
    (h : r ∈ (planRestore w observed allowed roots jobs).requests) :
    ∃ j ∈ jobs, ∃ t, j.kind = .torrent ∧ j.torrent = some t ∧ fences w roots j t = none ∧
      r = restoreRequest observed allowed j.id t := by
  have hfold : ∀ (l : List Job) (p : RestorePlan),
      r ∈ (l.foldl (planJob w observed allowed roots) p).requests → r ∈ p.requests ∨
        ∃ j ∈ l, ∃ t, j.kind = .torrent ∧ j.torrent = some t ∧ fences w roots j t = none ∧
          r = restoreRequest observed allowed j.id t := by
    intro l
    induction l with
    | nil => exact fun p h => .inl h
    | cons j l ih =>
      intro p h
      rcases ih _ h with h | ⟨i, hi, hmade⟩
      · rcases planJob_cases w observed allowed roots p j with
          ⟨hr, -, -⟩ | ⟨t, hkind, ht, hfences, -, -, heq⟩
        · exact .inl (hr ▸ h)
        · rw [heq, mem_append, mem_singleton] at h
          exact h.imp_right fun hr => ⟨j, mem_cons_self, t, hkind, ht, hfences, hr⟩
      · exact .inr ⟨i, mem_cons_of_mem _ hi, hmade⟩
  rcases hfold jobs .empty h with h | h
  · simp [RestorePlan.empty] at h
  · exact h

/-! ### Metainfo -/

/-- An entry of the metainfo, in the order of the document. -/
structure FileDetails where
  components : List Text
  len : Nat
  /-- An entry that only fills up a piece. -/
  padding : Bool

def FileDetails.isContent (e : FileDetails) : Bool := !e.padding

/-- The components one by one pushed to an empty path. -/
def FileDetails.path (e : FileDetails) : PathBuf := e.components.map .normal

structure MetainfoDescriptor where
  files : List (PathBuf × Nat)
  totalBytes : Nat

/-- `inspect_metainfo`: the content files, without the padding. -/
def inspectMetainfo (entries : List FileDetails) : MetainfoDescriptor where
  files := (entries.filter (·.isContent)).map fun e => (e.path, e.len)
  totalBytes := ((entries.filter (·.isContent)).map (·.len)).sum

/-- The collision keys of all prefixes of a path, shortest first. -/
def collisionKeys (key : Text → Text) (root : Text) : List Text → List Text
  | [] => []
  | c :: cs =>
    let here := (if root = [] then root else root ++ ['/']) ++ key c
    here :: collisionKeys key here cs

/-- `validate_metainfo_paths`, as far as it compares one path with another: no file
has the key of another file or of a directory.  `key` is the case folding. -/
def pathsApart (key : Text → Text) (root : Text) :
    List FileDetails → List Text → List Text → Bool
  | [], _, _ => true
  | e :: es, files, directories =>
    let keys := collisionKeys key root e.components
    let own := keys.getLastD root
    let directories := keys.dropLast ++ directories
    if keys.dropLast.any (· ∈ files) || e.components = [] || own ∈ directories || own ∈ files then
      false
    else pathsApart key root es (own :: files) directories

theorem collisionKey_notMem {key : Text → Text} {root : Text} {es : List FileDetails}
    {files directories : List Text} (h : pathsApart key root es files directories = true)
    {e : FileDetails} (he : e ∈ es) :
    (collisionKeys key root e.components).getLastD root ∉ files := by
  induction es generalizing files directories with
  | nil => cases he
  | cons d es ih =>
    simp only [pathsApart] at h
    split at h
    · cases h
    · next hd =>
      rcases mem_cons.mp he with rfl | he
      · simp only [Bool.or_eq_true, not_or, decide_eq_true_eq] at hd
        exact hd.2
      · exact fun hmem => ih h he (mem_cons_of_mem _ hmem)

theorem nodup_paths {key : Text → Text} {root : Text} {es : List FileDetails}
    {files directories : List Text} (h : pathsApart key root es files directories = true) :
    (es.map (·.path)).Nodup := by
  induction es generalizing files directories with
  | nil => exact nodup_nil
  | cons d es ih =>
    simp only [pathsApart] at h
    split at h
    · cases h
    · rw [map_cons, nodup_cons]
      refine ⟨?_, ih h⟩
      rw [mem_map]
      rintro ⟨e, he, hpath⟩
      have hcomponents : e.components = d.components := by
        refine map_injective_iff.mpr ?_ hpath
        exact fun _ _ h => Component.normal.inj h
      have := collisionKey_notMem h he
      rw [hcomponents] at this
      exact this mem_cons_self

/-! ### The engine -/

/-- `compute_only_files`: a selection is a list of positions of entries. -/
def computeOnlyFiles (entries : List FileDetails) (onlyFiles : Option (List Nat)) :
    Option (Option (List Nat)) :=
  match onlyFiles with
  | none => some none
  | some ids => if ids.all (· < entries.length) then some (some ids) else none

structure TorrentContentFile where
  relativePath : PathBuf
  sizeBytes : Nat
  progressBytes : Nat

/-- `project_content_files`: `progress` is numbered by entries. -/
def projectContentFiles (entries : List FileDetails) (progress : List Nat) :
    List TorrentContentFile :=
  (entries.zipIdx.filter (·.1.isContent)).map fun e =>
    ⟨e.1.path, e.1.len, progress.getD e.2 0⟩

def fileProgress (files : List PathBuf) (content : List TorrentContentFile) : List Nat :=
  files.map fun path =>
    match content.find? (·.relativePath = path) with
    | some file => min file.progressBytes file.sizeBytes
    | none => 0

/-! ### The numberings -/

def engineNumbers (entries : List FileDetails) : List Nat := positions (·.isContent) entries

/-- The records stand for the content files of the metainfo. -/
def Describes (files : List TorrentFileRecord) (entries : List FileDetails) : Prop :=
  files.map (fun f => (f.path, f.length)) = (inspectMetainfo entries).files

instance (files : List TorrentFileRecord) (entries : List FileDetails) :
    Decidable (Describes files entries) := inferInstanceAs (Decidable (_ = _))

/-- In the numbering of the engine the list means the files whose record is
selected. -/
def Denotes (entries : List FileDetails) (files : List TorrentFileRecord) (ids : List Nat) : Prop :=
  ∀ k, k ∈ ids ↔ ∃ (i : Nat) (f : TorrentFileRecord), files[i]? = some f ∧ f.selected = true ∧
    (engineNumbers entries)[i]? = some k

/-- The progress of each content file goes to the record of this file. -/
def FoldsAlike (entries : List FileDetails) (files : List TorrentFileRecord) : Prop :=
  ∀ (progress : List Nat) (i k : Nat) (f : TorrentFileRecord), files[i]? = some f →
    (engineNumbers entries)[i]? = some k →
    (foldFiles files (fileProgress ((inspectMetainfo entries).files.map (·.1))
      (projectContentFiles entries progress)))[i]? = some (foldVerified f (progress.getD k 0))

/-- No padding entry stands in front of a selected content file. -/
def PaddingBehind (entries : List FileDetails) (files : List TorrentFileRecord) : Prop :=
  ∀ (i : Nat) (f : TorrentFileRecord), files[i]? = some f → f.selected = true →
    ∀ e ∈ entries.take (i + 1), e.padding = false

theorem mem_selectedFiles {files : List TorrentFileRecord} {i : Nat} :
    i ∈ selectedFiles files ↔ ∃ f, files[i]? = some f ∧ f.selected = true := by
  simp only [selectedFiles, mem_filterMap, Prod.exists, mem_zipIdx_iff_getElem?]
  constructor
  · rintro ⟨f, k, hf, h⟩
    split at h
    · next hs =>
      obtain rfl := Option.some.inj h
      exact ⟨f, hf, hs⟩
    · cases h
  · rintro ⟨f, hf, hs⟩
    exact ⟨f, i, hf, by simp [hs]⟩

variable {entries : List FileDetails} {files : List TorrentFileRecord} {i k : Nat}
  {f : TorrentFileRecord}

theorem Describes.length (h : Describes files entries) :
    files.length = (engineNumbers entries).length := by
  have := congrArg List.length h
  simpa [inspectMetainfo, engineNumbers, positions, length_positionsFrom] using this

theorem Describes.entry (h : Describes files entries) (hf : files[i]? = some f) :
    ∃ e, (entries.filter (·.isContent))[i]? = some e ∧ e.path = f.path ∧ e.len = f.length := by
  have hi := congrArg (·[i]?) h
  simp only [inspectMetainfo, getElem?_map, hf, Option.map_some] at hi
  obtain ⟨e, he, heq⟩ := Option.map_eq_some_iff.mp hi.symm
  exact ⟨e, he, congrArg Prod.fst heq, congrArg Prod.snd heq⟩

theorem Describes.number (h : Describes files entries) (hf : files[i]? = some f) :
    ∃ k, (engineNumbers entries)[i]? = some k := by
  obtain ⟨hi, -⟩ := List.getElem?_eq_some_iff.mp hf
  exact ⟨_, getElem?_eq_getElem (h.length ▸ hi)⟩

/-- **What the selection means to the engine.** -/
theorem denotes_iff (h : Describes files entries) :
    Denotes entries files (selectedFiles files) ↔ PaddingBehind entries files := by
  have hnumber : ∀ i f, files[i]? = some f →
      (engineNumbers entries)[i]? = some ((engineNumbers entries).getD i 0) := by
    intro i f hf
    obtain ⟨k, hk⟩ := h.number hf
    simp [getD, hk]
  have hle : ∀ i, i ∈ selectedFiles files → i ≤ (engineNumbers entries).getD i 0 := by
    intro i hi
    obtain ⟨f, hf, -⟩ := mem_selectedFiles.mp hi
    simpa using le_positionsFrom (hnumber i f hf)
  have hfixes := fixes_iff (f := fun i => (engineNumbers entries).getD i 0) hle
  have hdenotes : Denotes entries files (selectedFiles files) ↔
      ∀ k, k ∈ selectedFiles files ↔
        ∃ i, i ∈ selectedFiles files ∧ (engineNumbers entries).getD i 0 = k := by
    refine forall_congr' fun k => iff_congr Iff.rfl (exists_congr fun i => ?_)
    rw [mem_selectedFiles]
    constructor
    · rintro ⟨f, hf, hs, hk⟩
      exact ⟨⟨f, hf, hs⟩, Option.some.inj ((hnumber i f hf).symm.trans hk)⟩
    · rintro ⟨⟨f, hf, hs⟩, hk⟩
      exact ⟨f, hf, hs, hk ▸ hnumber i f hf⟩
  rw [hdenotes, hfixes]
  constructor
  · intro hall i f hf hs e he
    have hi := hall i (mem_selectedFiles.mpr ⟨f, hf, hs⟩)
    have := (positionsFrom_eq_iff (hnumber i f hf)).mp (by omega) e he
    simpa [FileDetails.isContent] using this
  · intro hall i hi
    obtain ⟨f, hf, hs⟩ := mem_selectedFiles.mp hi
    have := (positionsFrom_eq_iff (hnumber i f hf)).mpr fun e he => by
      simpa [FileDetails.isContent] using hall i f hf hs e he
    omega

theorem computeOnlyFiles_selectedFiles (h : Describes files entries) :
    computeOnlyFiles entries (some (selectedFiles files)) = some (some (selectedFiles files)) := by
  refine if_pos (all_eq_true.mpr fun i hi => ?_)
  obtain ⟨f, hf, -⟩ := mem_selectedFiles.mp hi
  obtain ⟨hi, -⟩ := List.getElem?_eq_some_iff.mp hf
  have hlength : files.length = (entries.filter (·.isContent)).length := by
    simpa [inspectMetainfo] using congrArg length h
  have := length_filter_le (·.isContent) entries
  exact decide_eq_true (by omega)

theorem getElem?_foldFiles {vs : List Nat} {v : Nat} (hf : files[i]? = some f)
    (hv : vs[i]? = some v) : (foldFiles files vs)[i]? = some (foldVerified f v) := by
  induction files generalizing vs i with
  | nil => simp at hf
  | cons g files ih =>
    cases vs with
    | nil => simp at hv
    | cons u vs =>
      cases i with
      | zero =>
        obtain rfl : g = f := by simpa using hf
        obtain rfl : u = v := by simpa using hv
        rfl
      | succ i => exact ih hf hv

theorem find?_projectContentFiles (hnodup : (entries.map (·.path)).Nodup) {e : FileDetails}
    (he : (entries.filter (·.isContent))[i]? = some e) (hk : (engineNumbers entries)[i]? = some k)
    (progress : List Nat) :
    (projectContentFiles entries progress).find? (·.relativePath = e.path) =
      some ⟨e.path, e.len, progress.getD k 0⟩ := by
  have hzip : entries.zipIdx.filter (·.1.isContent) =
      (entries.filter (·.isContent)).zip (engineNumbers entries) := filter_zipIdx
  have hmem : TorrentContentFile.mk e.path e.len (progress.getD k 0) ∈
      projectContentFiles entries progress := by
    refine mem_map.mpr ⟨(e, k), ?_, rfl⟩
    rw [hzip]
    exact mem_of_getElem? (getElem?_zip_eq_some.mpr ⟨he, hk⟩)
  have hpaths : ((projectContentFiles entries progress).map (·.relativePath)).Nodup := by
    have hsublist : ((projectContentFiles entries progress).map (·.relativePath)).Sublist
        (entries.map (·.path)) := by
      have hfst : entries.zipIdx.map ((·.path) ∘ Prod.fst) = entries.map (·.path) := by
        rw [← map_map, zipIdx_map_fst]
      rw [projectContentFiles, map_map, ← hfst]
      exact filter_sublist.map _
    exact hnodup.sublist hsublist
  exact find?_key_eq hpaths hmem

/-- **Progress goes back by path.** -/
theorem foldsAlike (hnodup : (entries.map (·.path)).Nodup) (h : Describes files entries) :
    FoldsAlike entries files := by
  intro progress i k f hf hk
  obtain ⟨e, he, hpath, hlen⟩ := h.entry hf
  have hprogress : (fileProgress ((inspectMetainfo entries).files.map (·.1))
      (projectContentFiles entries progress))[i]? =
      some (min (progress.getD k 0) e.len) := by
    simp only [fileProgress, inspectMetainfo, map_map, getElem?_map, he,
      Option.map_some, Function.comp_apply, find?_projectContentFiles hnodup he hk]
  rw [getElem?_foldFiles hf hprogress, foldVerified, foldVerified, hlen, Nat.min_assoc,
    Nat.min_self]

/-- **Restore selects the files that were selected** exactly if no padding entry
stands in front of one of them.  `key` folds the case of a component, and the
first hypothesis is what admission makes sure of: the metainfo has been accepted,
and the records of the job are those of its content files. -/
theorem restore_selects_iff (key : Text → Text) (root : Text) {jobs : List Job}
    {r : RestoreRequest} (hr : r ∈ (planRestore w observed allowed roots jobs).requests) :
    ∃ j ∈ jobs, ∃ t, j.torrent = some t ∧ r.job = j.id ∧
      ∀ entries, pathsApart key root entries [] [] = true → Describes t.files entries →
        ((computeOnlyFiles entries (some r.selectedFiles) = some (some r.selectedFiles) ∧
          Denotes entries t.files r.selectedFiles ∧ FoldsAlike entries t.files) ↔
        PaddingBehind entries t.files) := by
  obtain ⟨j, hj, t, -, ht, -, rfl⟩ := mem_planRestore jobs hr
  refine ⟨j, hj, t, ht, rfl, fun entries hapart hdescribes => ?_⟩
  constructor
  · rintro ⟨-, hdenotes, -⟩
    exact (denotes_iff hdescribes).mp hdenotes
  · intro hpadding
    exact ⟨computeOnlyFiles_selectedFiles hdescribes, (denotes_iff hdescribes).mpr hpadding,
      foldsAlike (nodup_paths hapart) hdescribes⟩

/-! ### Padding between two files -/

/-- Two files that are both selected, with padding between them. -/
def paddedEntries : List FileDetails :=
  [⟨["a".toList], 3, false⟩, ⟨["pad".toList], 1, true⟩, ⟨["b".toList], 4, false⟩]

def trailingEntries : List FileDetails :=
  [⟨["a".toList], 3, false⟩, ⟨["b".toList], 4, false⟩, ⟨["pad".toList], 1, true⟩]

def twoFiles : List TorrentFileRecord :=
  [⟨[.normal "a".toList], 3, true, 0⟩, ⟨[.normal "b".toList], 4, true, 0⟩]

def twoFileJobs : List Job :=
  [{ plainJob with torrent := some { plainRecord with
    infoHashV1 := List.replicate 40 'a'
    metadataFile := [.normal "meta".toList]
    files := twoFiles } }]

/-- The request of this queue, and what it hands to the engine: entries 0 and 1. -/
def twoFileRequest : RestoreRequest :=
  ⟨1, List.replicate 40 'a', [.normal "meta".toList], [0, 1], none, true, false, false, 0⟩

theorem twoFileRequest_planned :
    (planRestore (fairWorld 0) (fun _ => none) [] [] twoFileJobs).requests = [twoFileRequest] := by
  decide

/-- The theorem on the torrent whose padding stands at the end. -/
theorem restore_selects_trailing :
    Denotes trailingEntries twoFiles [0, 1] ∧ FoldsAlike trailingEntries twoFiles := by
  have hr : twoFileRequest ∈ (planRestore (fairWorld 0) (fun _ => none) [] [] twoFileJobs).requests := by
    rw [twoFileRequest_planned]
    exact mem_singleton_self _
  obtain ⟨j, hj, t, ht, -, hiff⟩ := restore_selects_iff id [] hr
  obtain rfl := mem_singleton.mp hj
  obtain rfl := Option.some.inj ht
  refine ((hiff trailingEntries (by decide) (by decide)).mpr ?_).2
  intro i f hf _ e he
  match i, hf with
  | 0, _ => exact (by decide : ∀ e ∈ trailingEntries.take 1, e.padding = false) e he
  | 1, _ => exact (by decide : ∀ e ∈ trailingEntries.take 2, e.padding = false) e he
  | _ + 2, hf => simp [twoFiles] at hf

/-- **The second file is not restored**: the plan hands the engine the numbers 0
and 1, which are the first file and the padding. -/
theorem padding_shifts_selection :
    twoFileRequest ∈ (planRestore (fairWorld 0) (fun _ => none) [] [] twoFileJobs).requests ∧
      pathsApart id [] paddedEntries [] [] = true ∧ Describes twoFiles paddedEntries ∧
      engineNumbers paddedEntries = [0, 2] ∧
      ¬ Denotes paddedEntries twoFiles twoFileRequest.selectedFiles := by
  refine ⟨by rw [twoFileRequest_planned]; exact mem_singleton_self _, by decide, by decide,
    by decide, fun h => ?_⟩
  have hsecond : 2 ∈ twoFileRequest.selectedFiles :=
    (h 2).mpr ⟨1, ⟨[.normal "b".toList], 4, true, 0⟩, rfl, rfl, by decide⟩
  exact absurd hsecond (by decide)

end Nzbd.Torrent
