import Nzbd.Engine.Naming
import Nzbd.Lib.FileTree

/-!
# Unpacking and cleanup

An archive is extracted into a staging directory inside the job directory, and what
it holds at the top is moved into the job directory one entry after the other
(`commitStaging`).  A directory that is in the way goes with all that is in it, a file
in the way of a file is replaced, and a file in the way of a directory is an error.
When all archives are out, `cleanupDir` takes every file at the top away whose name
looks like a part of an archive.

So the job directory has at a name what the last archive with that name at the top
has there (`Published`), and what an earlier archive had below it is gone.  `Kept` is
what unpacking should leave, `Disjoint` is the condition on the names at the top, and
`losesNothing_iff` says that it is exactly this.

A directory lists its entries in an order of its own, and so does a tree.  A symbolic
link is taken to lead to no directory.
-/

namespace Nzbd.Post

open List FileTree

variable {β : Type*}

/-- An archive, by its volumes in the job directory and by what the extractor makes
of it. -/
structure Extracted (β : Type*) where
  volumes : List Text
  tree : Tree Text β

/-- The entries at the top. -/
def topNames (t : Tree Text β) : List Text := (t.filterMap (·.1.head?)).dedup

/-- Into the staging directory, which has been cleared. -/
def extract (staging : Text) (a : Extracted β) (t : Tree Text β) : Option (Tree Text β) :=
  if isThere [staging] (removeDirAll [staging] t) then none
  else some (removeDirAll [staging] t ++ graft [staging] (([], .dir) :: a.tree))

/-- One entry, over what is in its way. -/
def publish (staging : Text) (t : Tree Text β) (n : Text) : Option (Tree Text β) :=
  rename [staging, n] [n] (removeDirAll [n] t)

def commitStaging (staging : Text) (t : Tree Text β) : Option (Tree Text β) :=
  (topNames (subtree [staging] t)).foldlM (publish staging) t

/-- One archive. -/
def unpack (staging : Text) (t : Tree Text β) (a : Extracted β) : Option (Tree Text β) :=
  ((extract staging a t).bind (commitStaging staging)).map (removeDirAll [staging])

/-- The archives in turn, up to an error. -/
def unpackStage (staging : Text) (dir : Tree Text β) (archives : List (Extracted β)) :
    Option (Tree Text β) :=
  archives.foldlM (unpack staging) dir

/-- To lower-case a name in full makes no other name end like these. -/
def junk (n : Text) : Bool :=
  let name := toAsciiLowercase n
  let ext := afterLast (· = '.') name
  endsWith name (text ".par2") || endsWith name (text ".rar") || endsWith name (text ".zip") ||
    endsWith name (text ".7z") || endsWith name (text ".sfv") ||
    ext.all Char.isDigit && ext.length = 3

/-- A directory cannot be removed as a file. -/
def spared (t : Tree Text β) : Path Text → Bool
  | [n] => !junk n || isDir [n] t
  | _ => true

def cleanupDir (t : Tree Text β) : Tree Text β := t.filter fun e => spared t e.1

/-- Recovery data, and the checksums that come with it. -/
def isRecoveryFile (n : Text) : Bool :=
  endsWith (toAsciiLowercase n) (text ".par2") || endsWith (toAsciiLowercase n) (text ".sfv")

/-- What is only there for the sake of the archives. -/
def IsScaffold (archives : List (Extracted β)) (p : Path Text) : Prop :=
  ∃ n, p = [n] ∧ (isRecoveryFile n = true ∨ ∃ a ∈ archives, n ∈ a.volumes)

/-- Nothing is lost: a file of an archive is there unless a later archive has
something at its path, and a file that has been downloaded is there unless it is
scaffolding. -/
structure Kept (dir : Tree Text β) (archives : List (Extracted β)) (t : Tree Text β) : Prop where
  extracted : ∀ before a after, archives = before ++ a :: after → ∀ n r data,
    readFile (n :: r) a.tree = some data → (∀ b ∈ after, isThere (n :: r) b.tree = false) →
    readFile (n :: r) t = some data
  downloaded : ∀ n r data, readFile (n :: r) dir = some data → ¬IsScaffold archives (n :: r) →
    readFile (n :: r) t = some data

def LosesNothing (staging : Text) (dir : Tree Text β) (archives : List (Extracted β)) : Prop :=
  ∃ t, unpackStage staging dir archives = some t ∧ Kept dir archives (cleanupDir t)

/-- The last archive with this name at the top, or else the job directory. -/
def holder (dir : Tree Text β) (archives : List (Extracted β)) (n : Text) : Tree Text β :=
  (archives.reverse.find? fun a => isThere [n] a.tree).elim dir (·.tree)

/-- **The condition on the names at the top.** -/
structure Disjoint (staging : Text) (dir : Tree Text β) (archives : List (Extracted β)) :
    Prop where
  /-- No file has the name of the staging directory, -/
  place : archives ≠ [] → isThere [staging] dir = true → isDir [staging] dir = true
  /-- and nothing that is extracted has. -/
  own : ∀ a ∈ archives, isThere [staging] a.tree = false
  /-- A directory does not meet a file. -/
  directories : ∀ before a after, archives = before ++ a :: after → ∀ n,
    isDir [n] a.tree = true → isThere [n] (holder dir before n) = true →
    isDir [n] (holder dir before n) = true
  /-- What no later archive has again is under a name that no later archive has. -/
  shared : ∀ before a after, archives = before ++ a :: after → ∀ n r data,
    readFile (n :: r) a.tree = some data → (∀ b ∈ after, isThere (n :: r) b.tree = false) →
    ∀ b ∈ after, isThere [n] b.tree = false
  /-- No file is named like a part of an archive. -/
  names : ∀ before a after, archives = before ++ a :: after → ∀ n data,
    readFile [n] a.tree = some data → (∀ b ∈ after, isThere [n] b.tree = false) → junk n = false
  /-- Nor is a download that is not one, and nothing else comes in its place. -/
  downloaded : ∀ n r data, readFile (n :: r) dir = some data → ¬IsScaffold archives (n :: r) →
    (archives ≠ [] → n ≠ staging) ∧ readFile (n :: r) (holder dir archives n) = some data ∧
      (r = [] → junk n = false)

/-! ### One archive -/

theorem apart_cons {m n : Text} (h : m ≠ n) (p q : Path Text) : Apart (m :: p) (n :: q) := by
  refine ⟨fun hpre => h ?_, fun hpre => h ?_⟩
  · exact (cons_prefix_cons.mp hpre).1
  · exact (cons_prefix_cons.mp hpre).1.symm

theorem apart_pair {m n : Text} (h : m ≠ n) (s : Text) : Apart [s, m] [s, n] := by
  refine ⟨fun hpre => h ?_, fun hpre => h ?_⟩
  · exact (cons_prefix_cons.mp (cons_prefix_cons.mp hpre).2).1
  · exact (cons_prefix_cons.mp (cons_prefix_cons.mp hpre).2).1.symm

variable {t : Tree Text β}

theorem publish_isSome {staging n : Text} (hne : n ≠ staging)
    (hsrc : isThere [staging, n] t = true) :
    (publish staging t n).isSome ↔
      (isDir [staging, n] t = true → isThere [n] t = true → isDir [n] t = true) := by
  have hsub : subtree [staging, n] (removeDirAll [n] t) = subtree [staging, n] t :=
    subtree_removeDirAll_apart (apart_cons hne [] [n]) t
  have hpre : ¬[staging, n] <+: [n] := (apart_cons hne.symm [n] []).1
  have hempty : isEmptyDir [n] (removeDirAll [n] t) = false := by
    rw [Bool.eq_false_iff]
    intro he
    obtain ⟨e, hentry, he⟩ := (Option.any_eq_true _ _).mp (Bool.and_eq_true_iff.mp he).1
    have hdir : isDir [n] (removeDirAll [n] t) = true := by
      cases e with
      | dir => exact isDir_of_entry hentry
      | _ => cases he
    rw [isDir_removeDirAll] at hdir
    cases hdir
  rw [publish, rename, mayRename, isThere_congr hsub, isDir_congr hsub, hsrc, hempty,
    isDir_removeDirAll, isThere_removeDirAll]
  cases isDir [staging, n] t <;> cases isThere [n] t <;> cases isDir [n] t <;> simp [hpre]

/-- Once `ns` have been published. -/
structure Published (staging : Text) (ns : List Text) (t t' : Tree Text β) : Prop where
  root : entry [staging] t' = some .dir
  done : ∀ n ∈ ns, subtree [n] t' = subtree [staging, n] t
  rest : ∀ n ∉ ns, n ≠ staging → subtree [n] t' = subtree [n] t
  ahead : ∀ n ∉ ns, subtree [staging, n] t' = subtree [staging, n] t

theorem published_singleton {staging n : Text} {t t' : Tree Text β}
    (hroot : entry [staging] t = some .dir) (hne : n ≠ staging)
    (h : publish staging t n = some t') : Published staging [n] t t' := by
  have hsrc : Apart [staging, n] [n] := apart_cons hne.symm [n] []
  refine ⟨?_, ?_, ?_, ?_⟩
  · have hpre : ¬[n] <+: [staging] := (apart_cons hne [] []).1
    have hlong : ¬[staging, n] <+: [staging] := fun hp => by
      have := hp.length_le
      simp at this
    unfold publish rename at h
    split_ifs at h
    obtain rfl := Option.some.inj h
    have hkeep : entry [staging] (prune [staging, n] (prune [n] (removeDirAll [n] t))) =
        some .dir := by
      rw [entry_prune hlong, entry_prune hpre, entry_removeDirAll hpre, hroot]
    obtain ⟨e, he, hdir⟩ := Option.map_eq_some_iff.mp hkeep
    rw [entry, find?_append, he, Option.some_or, Option.map_some, hdir]
  · intro m hm
    obtain rfl := mem_singleton.mp hm
    rw [subtree_rename_dst h hsrc]
    exact subtree_removeDirAll_apart hsrc.symm t
  · intro m hm hms
    have hnm : n ≠ m := fun heq => hm (heq ▸ mem_singleton_self m)
    rw [subtree_rename_apart h (apart_cons hms.symm [n] []) (apart_cons hnm [] [])]
    exact subtree_removeDirAll_apart (apart_cons hnm [] []) t
  · intro m hm
    have hnm : n ≠ m := fun heq => hm (heq ▸ mem_singleton_self m)
    rw [subtree_rename_apart h (apart_pair hnm staging) (apart_cons hne [] [m])]
    exact subtree_removeDirAll_apart (apart_cons hne [] [m]) t

theorem Published.cons {staging n : Text} {ns : List Text} {t t₁ t₂ : Tree Text β}
    (h : Published staging [n] t t₁) (h' : Published staging ns t₁ t₂) (hn : n ∉ ns)
    (hne : n ≠ staging) : Published staging (n :: ns) t t₂ where
  root := h'.root
  done := by
    intro m hm
    rcases mem_cons.mp hm with rfl | hm
    · rw [h'.rest m hn hne, h.done m (mem_singleton_self m)]
    · have hmn : m ∉ [n] := fun heq => hn (mem_singleton.mp heq ▸ hm)
      rw [h'.done m hm, h.ahead m hmn]
  rest := by
    intro m hm hms
    obtain ⟨hmn, hmns⟩ := not_or.mp fun h => hm (mem_cons.mpr h)
    rw [h'.rest m hmns hms, h.rest m (fun h => hmn (mem_singleton.mp h)) hms]
  ahead := by
    intro m hm
    obtain ⟨hmn, hmns⟩ := not_or.mp fun h => hm (mem_cons.mpr h)
    rw [h'.ahead m hmns, h.ahead m fun h => hmn (mem_singleton.mp h)]

variable {staging : Text}

theorem Published.nil (hroot : entry [staging] t = some .dir) :
    Published staging [] t t :=
  ⟨hroot, fun _ h => absurd h not_mem_nil, fun _ _ _ => rfl, fun _ _ => rfl⟩

theorem publish_self (hroot : entry [staging] t = some .dir) :
    publish staging t staging = none := by
  have hnil : isThere [staging, staging] (removeDirAll [staging] t) = false := by
    rw [removeDirAll, if_pos (isDir_of_entry hroot), Bool.eq_false_iff, ne_eq, isThere_iff, not_not]
    refine subtree_eq_nil fun e he hpre => ?_
    have hnot : ¬[staging] <+: e.1 := by simpa using (mem_filter.mp he).2
    exact hnot ((prefix_append [staging] [staging]).trans hpre)
  rw [publish, rename, mayRename, hnil]
  rfl

/-- **The loop over the entries.** -/
theorem foldlM_publish {ns : List Text} (hnodup : ns.Nodup)
    (hroot : entry [staging] t = some .dir) (hsrc : ∀ n ∈ ns, isThere [staging, n] t = true) :
    (∀ t', ns.foldlM (publish staging) t = some t' →
      staging ∉ ns ∧ Published staging ns t t') ∧
    ((ns.foldlM (publish staging) t).isSome ↔ staging ∉ ns ∧
      ∀ n ∈ ns, isDir [staging, n] t = true → isThere [n] t = true → isDir [n] t = true) := by
  induction ns generalizing t with
  | nil =>
    refine ⟨?_, by simp⟩
    rintro _ ⟨⟩
    exact ⟨not_mem_nil, .nil hroot⟩
  | cons n ns ih =>
    obtain ⟨hn, hnodup⟩ := nodup_cons.mp hnodup
    rw [foldlM_cons]
    by_cases hne : n = staging
    · subst hne
      rw [publish_self hroot]
      refine ⟨fun t' h => (by cases h), ?_⟩
      simp
    · have hthere := hsrc n mem_cons_self
      have hfree := publish_isSome hne hthere
      cases hpub : publish staging t n with
      | none =>
        rw [hpub] at hfree
        refine ⟨fun t' h => (by cases h), ⟨fun h => (by cases h), fun h => ?_⟩⟩
        exact absurd (hfree.mpr (h.2 n mem_cons_self)) (by simp)
      | some t₁ =>
        rw [hpub] at hfree
        have hfirst := published_singleton hroot hne hpub
        have hnot : ∀ m ∈ ns, m ∉ [n] := fun m hm heq => hn (mem_singleton.mp heq ▸ hm)
        obtain ⟨hall, hsome⟩ := ih hnodup hfirst.root fun m hm => by
          rw [isThere_congr (hfirst.ahead m (hnot m hm))]
          exact hsrc m (mem_cons_of_mem n hm)
        refine ⟨fun t' h => ?_, ?_⟩
        · obtain ⟨hstaging, hrest⟩ := hall t' h
          refine ⟨fun hm => ?_, hfirst.cons hrest hn hne⟩
          rcases mem_cons.mp hm with heq | hm
          · exact hne heq.symm
          · exact hstaging hm
        · change (ns.foldlM (publish staging) t₁).isSome ↔ _
          rw [hsome]
          constructor
          · rintro ⟨hstaging, hns⟩
            refine ⟨fun hm => ?_, fun m hm => ?_⟩
            · rcases mem_cons.mp hm with heq | hm
              · exact hne heq.symm
              · exact hstaging hm
            · rcases mem_cons.mp hm with rfl | hm
              · exact hfree.mp rfl
              · have hms : m ≠ staging := fun heq => hstaging (heq ▸ hm)
                have hcase := hns m hm
                rwa [isDir_congr (hfirst.ahead m (hnot m hm)),
                  isThere_congr (hfirst.rest m (hnot m hm) hms),
                  isDir_congr (hfirst.rest m (hnot m hm) hms)] at hcase
          · rintro ⟨hstaging, hns⟩
            refine ⟨fun hm => hstaging (mem_cons_of_mem n hm), fun m hm => ?_⟩
            have hms : m ≠ staging := fun heq => hstaging (heq ▸ mem_cons_of_mem n hm)
            rw [isDir_congr (hfirst.ahead m (hnot m hm)),
              isThere_congr (hfirst.rest m (hnot m hm) hms),
              isDir_congr (hfirst.rest m (hnot m hm) hms)]
            exact hns m (mem_cons_of_mem n hm)

theorem mem_topNames {n : Text} : n ∈ topNames t ↔ isThere [n] t = true := by
  rw [topNames, mem_dedup, mem_filterMap, isThere, any_eq_true]
  refine exists_congr fun e => and_congr_right fun _ => ?_
  cases he : e.1 with
  | nil => simp
  | cons m r => simp [cons_prefix_cons, eq_comm]

theorem extract_isSome {a : Extracted β} :
    (extract staging a t).isSome ↔ (isThere [staging] t = true → isDir [staging] t = true) := by
  rw [extract, isThere_removeDirAll]
  cases isThere [staging] t <;> cases isDir [staging] t <;> simp

theorem extract_eq_some {a : Extracted β} {t t' : Tree Text β}
    (h : extract staging a t = some t') :
    subtree [staging] t' = ([], .dir) :: a.tree ∧
      ∀ n ≠ staging, subtree [n] t' = subtree [n] t := by
  unfold extract at h
  split_ifs at h with hthere
  obtain rfl := Option.some.inj h
  rw [isThere_iff, not_not] at hthere
  refine ⟨?_, fun n hn => ?_⟩
  · rw [subtree_append, hthere, subtree_graft_self, nil_append]
  · rw [subtree_append, subtree_graft_apart (apart_cons hn.symm [] []), append_nil]
    exact subtree_removeDirAll_apart (apart_cons hn.symm [] []) t

/-- What an archive may meet in the job directory. -/
def Fits (staging : Text) (t : Tree Text β) (a : Extracted β) : Prop :=
  (isThere [staging] t = true → isDir [staging] t = true) ∧ isThere [staging] a.tree = false ∧
    ∀ n, isDir [n] a.tree = true → isThere [n] t = true → isDir [n] t = true

/-- What one archive leaves behind. -/
structure Unpacked (staging : Text) (t : Tree Text β) (a : Extracted β) (t' : Tree Text β) :
    Prop where
  cleared : isThere [staging] t' = false
  top : ∀ n ≠ staging, subtree [n] t' =
    if isThere [n] a.tree = true then subtree [n] a.tree else subtree [n] t

theorem isThere_of_isDir {p : Path Text} (h : isDir p t = true) :
    isThere p t = true :=
  (Bool.and_eq_true_iff.mp h).1

theorem commitStaging_spec {a : Extracted β} {t t₀ : Tree Text β}
    (h : extract staging a t = some t₀) :
    (∀ t', commitStaging staging t₀ = some t' → Unpacked staging t a (removeDirAll [staging] t')) ∧
    ((commitStaging staging t₀).isSome ↔ isThere [staging] a.tree = false ∧
      ∀ n, isDir [n] a.tree = true → isThere [n] t = true → isDir [n] t = true) := by
  obtain ⟨hin, hout⟩ := extract_eq_some h
  have hbelow : ∀ n, subtree [staging, n] t₀ = subtree [n] a.tree := by
    intro n
    have hsplit : subtree [staging, n] t₀ = subtree [n] (subtree [staging] t₀) :=
      subtree_subtree [staging] [n] t₀
    rw [hsplit, hin]
    exact subtree_append [n] [([], .dir)] a.tree
  have hroot : entry [staging] t₀ = some .dir := by
    have happ := entry_append [staging] [] t₀
    rw [append_nil] at happ
    rw [← happ, hin]
    rfl
  have hnames : ∀ n, n ∈ topNames (subtree [staging] t₀) ↔ isThere [n] a.tree = true := by
    intro n
    rw [mem_topNames, isThere_append, ← isThere_congr (hbelow n)]
    rfl
  have hsrc : ∀ n ∈ topNames (subtree [staging] t₀), isThere [staging, n] t₀ = true := by
    intro n hn
    rw [isThere_congr (hbelow n)]
    exact (hnames n).mp hn
  have hnodup : (topNames (subtree [staging] t₀)).Nodup := nodup_dedup _
  obtain ⟨hall, hsome⟩ := foldlM_publish hnodup hroot hsrc
  refine ⟨fun t' ht' => ?_, ?_⟩
  · obtain ⟨hstaging, hpub⟩ := hall t' ht'
    refine ⟨?_, fun n hn => ?_⟩
    · rw [isThere_removeDirAll, isDir_of_entry hpub.root, Bool.not_true, Bool.and_false]
    · rw [subtree_removeDirAll_apart (apart_cons hn.symm [] [])]
      split
      · next hthere => rw [hpub.done n ((hnames n).mpr hthere), hbelow]
      · next hthere =>
        rw [hpub.rest n (fun hm => hthere ((hnames n).mp hm)) hn, hout n hn]
  · rw [commitStaging, hsome, hnames, Bool.not_eq_true]
    refine and_congr_right fun hstaging => ⟨fun hns n hd => ?_, fun hns n hn hd => ?_⟩
    · have hthere := isThere_of_isDir hd
      have hne : n ≠ staging := fun heq => by rw [heq, hstaging] at hthere; cases hthere
      have hcase := hns n ((hnames n).mpr hthere)
      rw [isDir_congr (hbelow n), isThere_congr (hout n hne), isDir_congr (hout n hne)] at hcase
      exact hcase hd
    · have hthere := (hnames n).mp hn
      have hne : n ≠ staging := fun heq => by rw [heq, hstaging] at hthere; cases hthere
      rw [isDir_congr (hbelow n)] at hd
      rw [isThere_congr (hout n hne), isDir_congr (hout n hne)]
      exact hns n hd

/-- **One archive.** -/
theorem unpack_spec (staging : Text) (t : Tree Text β) (a : Extracted β) :
    (∀ t', unpack staging t a = some t' → Fits staging t a ∧ Unpacked staging t a t') ∧
      ((unpack staging t a).isSome ↔ Fits staging t a) := by
  unfold unpack
  have hext : (extract staging a t).isSome ↔
      (isThere [staging] t = true → isDir [staging] t = true) := extract_isSome
  cases h : extract staging a t with
  | none =>
    rw [h] at hext
    refine ⟨fun t' h' => (by cases h'), ⟨fun h' => (by cases h'), fun hfits => ?_⟩⟩
    exact absurd (hext.mpr hfits.1) (by simp)
  | some t₀ =>
    rw [h] at hext
    obtain ⟨hall, hsome⟩ := commitStaging_spec h
    rw [Option.bind_some, Option.isSome_map, hsome]
    refine ⟨fun t' h' => ?_, ?_⟩
    · obtain ⟨t₁, ht₁, rfl⟩ := Option.map_eq_some_iff.mp h'
      exact ⟨⟨hext.mp rfl, hsome.mp (Option.isSome_iff_exists.mpr ⟨t₁, ht₁⟩)⟩, hall t₁ ht₁⟩
    · exact ⟨fun hfits => ⟨hext.mp rfl, hfits⟩, fun hfits => hfits.2⟩

/-! ### All archives -/

theorem holder_concat (dir : Tree Text β) (archives : List (Extracted β)) (a : Extracted β)
    (n : Text) : holder dir (archives ++ [a]) n =
      if isThere [n] a.tree = true then a.tree else holder dir archives n := by
  rw [holder, reverse_append, reverse_singleton, singleton_append,
    find?_cons]
  cases isThere [n] a.tree <;> rfl

theorem holder_of_last (dir : Tree Text β) (before : List (Extracted β)) (a : Extracted β)
    {after : List (Extracted β)} {n : Text} (ha : isThere [n] a.tree = true)
    (hafter : ∀ b ∈ after, isThere [n] b.tree = false) :
    holder dir (before ++ a :: after) n = a.tree := by
  induction after using reverseRecOn with
  | nil => rw [holder_concat, if_pos ha]
  | append_singleton after b ih =>
    have hb : isThere [n] b.tree = false := hafter b (by simp)
    rw [← cons_append, ← append_assoc, holder_concat, hb, if_neg Bool.false_ne_true]
    exact ih fun c hc => hafter c (mem_append_left _ hc)

theorem holder_of_later (dir : Tree Text β) (before : List (Extracted β)) {after :
    List (Extracted β)} {n : Text} {b : Extracted β} (hb : b ∈ after)
    (hthere : isThere [n] b.tree = true) :
    ∃ c ∈ after, holder dir (before ++ after) n = c.tree := by
  induction after using reverseRecOn with
  | nil => cases hb
  | append_singleton after c ih =>
    rw [← append_assoc, holder_concat]
    split
    · exact ⟨c, by simp, rfl⟩
    · next hc =>
      have hmem : b ∈ after := by
        rcases mem_append.mp hb with hm | hm
        · exact hm
        · exact absurd (mem_singleton.mp hm ▸ hthere) hc
      obtain ⟨d, hd, heq⟩ := ih hmem
      exact ⟨d, mem_append_left _ hd, heq⟩

/-- **The stage succeeds when every archive fits, and then the last one with a name at
the top has its place.** -/
theorem unpackStage_spec (staging : Text) (dir : Tree Text β) (archives : List (Extracted β)) :
    (∀ t, unpackStage staging dir archives = some t →
      (archives ≠ [] → isThere [staging] t = false) ∧ (archives = [] → t = dir) ∧
      ∀ n ≠ staging, subtree [n] t = subtree [n] (holder dir archives n)) ∧
    ((unpackStage staging dir archives).isSome ↔
      (archives ≠ [] → isThere [staging] dir = true → isDir [staging] dir = true) ∧
      (∀ a ∈ archives, isThere [staging] a.tree = false) ∧
      ∀ before a after, archives = before ++ a :: after → ∀ n, isDir [n] a.tree = true →
        isThere [n] (holder dir before n) = true → isDir [n] (holder dir before n) = true) := by
  induction archives using reverseRecOn with
  | nil =>
    refine ⟨?_, by simp [unpackStage]⟩
    rintro _ ⟨⟩
    exact ⟨fun h => absurd rfl h, fun _ => rfl, fun _ _ => rfl⟩
  | append_singleton archives a ih =>
    obtain ⟨hall, hsome⟩ := ih
    have hstage : unpackStage staging dir (archives ++ [a]) =
        (unpackStage staging dir archives).bind fun t => unpack staging t a := by
      rw [unpackStage, foldlM_append]
      refine congrArg (Option.bind _) (funext fun t => ?_)
      exact bind_pure _
    rw [hstage]
    cases h : unpackStage staging dir archives with
    | none =>
      rw [h] at hsome
      refine ⟨fun t ht => (by cases ht), ⟨fun ht => (by cases ht), ?_⟩⟩
      rintro ⟨hplace, hown, hdirs⟩
      refine absurd (hsome.mpr ⟨fun _ => hplace (by simp), fun b hb => ?_, ?_⟩) (by simp)
      · exact hown b (mem_append_left _ hb)
      · rintro before b after rfl
        exact hdirs before b (after ++ [a]) (by simp)
    | some t =>
      rw [h] at hsome
      obtain ⟨hcleared, hnone, htop⟩ := hall t h
      obtain ⟨hplace, hown, hdirs⟩ := hsome.mp rfl
      obtain ⟨hunpack, hfits⟩ := unpack_spec staging t a
      rw [Option.bind_some]
      refine ⟨fun t' ht' => ?_, ?_⟩
      · obtain ⟨-, hdone⟩ := hunpack t' ht'
        refine ⟨fun _ => hdone.cleared, fun hnil => absurd hnil (by simp), fun n hn => ?_⟩
        rw [hdone.top n hn, holder_concat]
        split
        · rfl
        · exact htop n hn
      · have hmeet : ∀ n, isThere [staging] a.tree = false → isDir [n] a.tree = true →
            isThere [n] t = isThere [n] (holder dir archives n) ∧
              isDir [n] t = isDir [n] (holder dir archives n) := by
          intro n hstaging hd
          have hne : n ≠ staging := fun heq => by
            rw [heq] at hd
            rw [isThere_of_isDir hd] at hstaging
            cases hstaging
          exact ⟨isThere_congr (htop n hne), isDir_congr (htop n hne)⟩
        rw [hfits]
        constructor
        · rintro ⟨hfirst, hstaging, hmeets⟩
          refine ⟨fun _ => ?_, fun b hb => ?_, fun before b after heq n hd => ?_⟩
          · by_cases hnil : archives = []
            · rw [← hnone hnil]
              exact hfirst
            · exact hplace hnil
          · rcases mem_append.mp hb with hb | hb
            · exact hown b hb
            · exact mem_singleton.mp hb ▸ hstaging
          · rcases eq_nil_or_concat after with rfl | ⟨after, c, rfl⟩
            · obtain ⟨rfl, hab⟩ := append_inj' heq rfl
              obtain rfl := (cons.inj hab).1
              rw [← (hmeet n hstaging hd).1, ← (hmeet n hstaging hd).2]
              exact hmeets n hd
            · rw [concat_eq_append, ← cons_append, ← append_assoc] at heq
              exact hdirs before b after (append_inj' heq rfl).1 n hd
        · rintro ⟨hfirst, hstaging, hmeets⟩
          have ha := hstaging a (by simp)
          refine ⟨?_, ha, fun n hd => ?_⟩
          · by_cases hnil : archives = []
            · rw [hnone hnil]
              exact hfirst (by simp)
            · rw [hcleared hnil]
              exact fun hf => (by cases hf)
          · rw [(hmeet n ha hd).1, (hmeet n ha hd).2]
            exact hmeets archives a [] rfl n hd

/-! ### Cleanup -/

theorem readFile_cleanupDir {n : Text} {r : Path Text} {data : β} :
    readFile (n :: r) (cleanupDir t) = some data ↔
      readFile (n :: r) t = some data ∧ (r = [] → junk n = false) := by
  have hentry : entry (n :: r) (cleanupDir t) = if spared t (n :: r) then entry (n :: r) t else none :=
    entry_filter (spared t) (n :: r) t
  constructor
  · intro h
    have he := entry_of_readFile h
    rw [hentry] at he
    split at he
    · next hspared =>
      have hfile : readFile (n :: r) t = some data := by rw [readFile, he]
      refine ⟨hfile, fun hr => ?_⟩
      subst hr
      rw [spared, isDir_of_readFile hfile, Bool.or_false, Bool.not_eq_true'] at hspared
      exact hspared
    · cases he
  · rintro ⟨hfile, hname⟩
    have hspared : spared t (n :: r) = true := by
      cases r with
      | nil => rw [spared, hname rfl]; rfl
      | cons m r => rfl
    rw [readFile, hentry, if_pos hspared, entry_of_readFile hfile]

theorem isThere_of_readFile {n : Text} {r : Path Text} {data : β}
    (h : readFile (n :: r) t = some data) : isThere [n] t = true :=
  isThere_of_entry (p := [n]) (entry_of_readFile h)

theorem readFile_of_not_isThere {p : Path Text} {data : β}
    (h : isThere p t = false) : readFile p t ≠ some data := by
  have hnone := readFile_eq_none (q := []) h
  rw [append_nil] at hnone
  rw [hnone]
  exact nofun

theorem readFile_unpackStage {dir t : Tree Text β}
    {archives : List (Extracted β)} (h : unpackStage staging dir archives = some t) {n : Text}
    (hn : archives ≠ [] → n ≠ staging) (r : Path Text) :
    readFile (n :: r) t = readFile (n :: r) (holder dir archives n) := by
  obtain ⟨-, hnil, htop⟩ := (unpackStage_spec staging dir archives).1 t h
  by_cases harchives : archives = []
  · rw [hnil harchives, harchives]
    rfl
  · exact readFile_congr (htop n (hn harchives)) r

theorem Kept.disjoint {dir t : Tree Text β} {archives : List (Extracted β)}
    (ht : unpackStage staging dir archives = some t) (h : Kept dir archives (cleanupDir t)) :
    Disjoint staging dir archives := by
  obtain ⟨hall, hsome⟩ := unpackStage_spec staging dir archives
  obtain ⟨hcleared, -, -⟩ := hall t ht
  obtain ⟨hplace, hown, hdirs⟩ := hsome.mp (Option.isSome_iff_exists.mpr ⟨t, ht⟩)
  refine ⟨hplace, hown, hdirs, ?_, ?_, ?_⟩
  · rintro before a after rfl n r data hfile hlater b hb
    have hne : n ≠ staging := by
      rintro rfl
      have hno := hown a (by simp)
      rw [isThere_of_readFile hfile] at hno
      cases hno
    have hthere := (readFile_cleanupDir.mp (h.extracted before a after rfl n r data hfile hlater)).1
    by_contra hb'
    obtain ⟨c, hc, hholder⟩ := holder_of_later dir (before ++ [a]) hb (Bool.not_eq_false _ ▸ hb')
    rw [readFile_unpackStage ht (fun _ => hne), append_cons, hholder] at hthere
    exact readFile_of_not_isThere (hlater c hc) hthere
  · rintro before a after heq n data hfile hlast
    exact (readFile_cleanupDir.mp (h.extracted before a after heq n [] data hfile hlast)).2 rfl
  · intro n r data hfile hscaffold
    obtain ⟨hthere, hname⟩ := readFile_cleanupDir.mp (h.downloaded n r data hfile hscaffold)
    have hne : archives ≠ [] → n ≠ staging := by
      rintro harchives rfl
      have hno := hcleared harchives
      rw [isThere_of_readFile hthere] at hno
      cases hno
    exact ⟨hne, readFile_unpackStage ht hne r ▸ hthere, hname⟩

/-- **Unpacking and cleanup lose nothing exactly when the names at the top are
disjoint.** -/
theorem losesNothing_iff (staging : Text) (dir : Tree Text β) (archives : List (Extracted β)) :
    LosesNothing staging dir archives ↔ Disjoint staging dir archives := by
  constructor
  · rintro ⟨t, ht, hkept⟩
    exact hkept.disjoint ht
  · intro h
    obtain ⟨t, ht⟩ := Option.isSome_iff_exists.mp ((unpackStage_spec staging dir archives).2.mpr
      ⟨h.place, h.own, h.directories⟩)
    refine ⟨t, ht, ?_, ?_⟩
    · rintro before a after heq n r data hfile hlater
      have hlast := h.shared before a after heq n r data hfile hlater
      have hne : n ≠ staging := by
        rintro rfl
        have hno := h.own a (by simp [heq])
        rw [isThere_of_readFile hfile] at hno
        cases hno
      refine readFile_cleanupDir.mpr ⟨?_, fun hr => ?_⟩
      · rw [readFile_unpackStage ht (fun _ => hne), heq,
          holder_of_last dir before a (isThere_of_readFile hfile) hlast]
        exact hfile
      · subst hr
        exact h.names before a after heq n data hfile hlast
    · intro n r data hfile hscaffold
      obtain ⟨hne, hholder, hname⟩ := h.downloaded n r data hfile hscaffold
      exact readFile_cleanupDir.mpr ⟨(readFile_unpackStage ht hne r).trans hholder, hname⟩

def seriesArchives : List (Extracted Nat) :=
  [⟨[text "a.rar"], [([text "Subs"], .dir), ([text "Subs", text "1.srt"], .file 1)]⟩,
   ⟨[text "b.rar"], [([text "Subs"], .dir), ([text "Subs", text "2.srt"], .file 2)]⟩]

def nestedArchives : List (Extracted Nat) :=
  [⟨[text "a.rar"], [([text "fonts.zip"], .file 1)]⟩]

def archiveDir : Tree Text Nat := [([text "a.rar"], .file 10), ([text "b.rar"], .file 11)]

/-- The subtitles of the first part are gone, and so is the archive. -/
theorem loses_subtitles_and_archive :
    ¬LosesNothing (text ".pp.local") archiveDir seriesArchives ∧
      ¬LosesNothing (text ".pp.local") archiveDir nestedArchives := by
  constructor
  · rintro ⟨t, ht, hkept⟩
    have hfile := hkept.extracted [] _ _ rfl (text "Subs") [text "1.srt"] 1 (by decide) (by decide)
    obtain rfl := Option.some.inj ht
    exact absurd hfile (by decide +kernel)
  · rintro ⟨t, ht, hkept⟩
    have hfile := hkept.extracted [] _ _ rfl (text "fonts.zip") [] 1 (by decide) (by decide)
    obtain rfl := Option.some.inj ht
    exact absurd hfile (by decide +kernel)

end Nzbd.Post
