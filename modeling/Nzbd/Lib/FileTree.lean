import Mathlib.Data.List.Infix

/-!
# File trees

A tree is the list of what is in it: an entry is a directory, a file, or
something else that is not looked into, and its path is the list of the names
from the root.  Where two entries have one path, the first one counts.  A path is
there if an entry stands at it or below it.

`subtree p` is what stands at `p` and below, seen from `p`; `graft p` puts such a
tree at `p`, and `prune p` takes it away.  The operations of a file system are
made of these three, and what they do to the part of the tree that concerns a
reader is one equation on `subtree` each.  Two paths that are `Apart`, neither of
them below the other, do not concern each other.
-/

namespace FileTree

open List

variable {ν β : Type*}

inductive Entry (β : Type*)
  | dir
  | file (data : β)
  /-- A symbolic link. -/
  | link
  /-- A pipe, a socket or a device. -/
  | special

def Entry.isDir : Entry β → Bool
  | .dir => true
  | _ => false

/-- A directory or a file. -/
def Entry.isPlain : Entry β → Bool
  | .dir => true
  | .file _ => true
  | _ => false

def Entry.isLink : Entry β → Bool
  | .link => true
  | _ => false

abbrev Path (ν : Type*) := List ν

abbrev Tree (ν β : Type*) := List (Path ν × Entry β)

/-- Neither path is below the other. -/
def Apart (p q : Path ν) : Prop := ¬ p <+: q ∧ ¬ q <+: p

variable {p q : Path ν}

theorem Apart.symm (h : Apart p q) : Apart q p := ⟨h.2, h.1⟩

theorem Apart.not_prefix (h : Apart p q) (r : Path ν) : ¬ q <+: p ++ r := by
  intro hq
  rcases prefix_or_prefix_of_prefix hq (prefix_append p r) with h' | h'
  · exact h.2 h'
  · exact h.1 h'

theorem Apart.append (h : Apart p q) (r : Path ν) : Apart (p ++ r) q :=
  ⟨fun hp => h.1 ((prefix_append p r).trans hp), h.not_prefix r⟩

variable [DecidableEq ν]

instance (p q : Path ν) : Decidable (Apart p q) := inferInstanceAs (Decidable (_ ∧ _))

/-- The path as it is seen from `p`, if it is not outside. -/
def below (p q : Path ν) : Option (Path ν) :=
  if p <+: q then some (q.drop p.length) else none

def subtree (p : Path ν) (t : Tree ν β) : Tree ν β :=
  t.filterMap fun e => (below p e.1).map fun q => (q, e.2)

def graft (p : Path ν) (s : Tree ν β) : Tree ν β := s.map fun e => (p ++ e.1, e.2)

def prune (p : Path ν) (t : Tree ν β) : Tree ν β := t.filter fun e => ¬ p <+: e.1

def entry (p : Path ν) (t : Tree ν β) : Option (Entry β) := (t.find? (·.1 = p)).map (·.2)

def isThere (p : Path ν) (t : Tree ν β) : Bool := t.any fun e => p <+: e.1

/-- There, and not known to be anything but a directory. -/
def isDir (p : Path ν) (t : Tree ν β) : Bool :=
  isThere p t && (entry p t).all Entry.isDir

def isEmptyDir (p : Path ν) (t : Tree ν β) : Bool :=
  (entry p t).any Entry.isDir && t.all fun e => e.1 = p || ¬ p <+: e.1

/-! ### Operations -/

def readFile (p : Path ν) (t : Tree ν β) : Option β :=
  match entry p t with
  | some (.file data) => some data
  | _ => none

/-- One directory, whose parent is there. -/
def createDir (p : Path ν) (t : Tree ν β) : Option (Tree ν β) :=
  if isThere p t then none else some (t ++ [(p, .dir)])

/-- A directory and those above it, where they are missing. -/
def createDirAll (p : Path ν) (t : Tree ν β) : Option (Tree ν β) :=
  if p.inits.all fun q => q = [] || !isThere q t || isDir q t then
    some (t ++ (p.inits.filter fun q => !isThere q t).map fun q => (q, .dir))
  else none

def writeFile (p : Path ν) (data : β) (t : Tree ν β) : Option (Tree ν β) :=
  if isDir p t then none else some (prune p t ++ [(p, .file data)])

/-- A directory may be moved to a place that is free or an empty directory, and
not into itself; anything else not onto a directory. -/
def mayRename (src dst : Path ν) (t : Tree ν β) : Bool :=
  isThere src t && ¬ src <+: dst &&
    if isDir src t then !isThere dst t || isEmptyDir dst t else !isDir dst t

def rename (src dst : Path ν) (t : Tree ν β) : Option (Tree ν β) :=
  if mayRename src dst t then
    some (prune src (prune dst t) ++ graft dst (subtree src t))
  else none

/-! ### What stands at a path and below -/

theorem below_eq_some {p q r : Path ν} : below p q = some r ↔ q = p ++ r := by
  unfold below
  constructor
  · intro h
    split_ifs at h with hp
    obtain ⟨u, rfl⟩ := hp
    obtain rfl := Option.some.inj h
    rw [drop_left]
  · rintro rfl
    rw [if_pos (prefix_append p r), drop_left]

theorem below_append (p q : Path ν) : below p (p ++ q) = some q := below_eq_some.mpr rfl

theorem below_eq_none (h : ¬ p <+: q) : below p q = none := if_neg h

variable {t : Tree ν β}

theorem mem_subtree {e : Entry β} :
    (q, e) ∈ subtree p t ↔ (p ++ q, e) ∈ t := by
  rw [subtree, mem_filterMap]
  constructor
  · rintro ⟨⟨r, e'⟩, hm, h⟩
    obtain ⟨u, hu, he⟩ := Option.map_eq_some_iff.mp h
    obtain ⟨rfl, rfl⟩ := Prod.mk.inj he
    rwa [← below_eq_some.mp hu]
  · intro hm
    exact ⟨_, hm, by rw [below_append, Option.map_some]⟩

theorem subtree_append (p : Path ν) (s t : Tree ν β) :
    subtree p (s ++ t) = subtree p s ++ subtree p t :=
  filterMap_append

variable {p : Path ν}

theorem subtree_eq_nil (h : ∀ e ∈ t, ¬ p <+: e.1) :
    subtree p t = [] := by
  rw [subtree, filterMap_eq_nil_iff]
  intro e he
  rw [below_eq_none (h e he), Option.map_none]

theorem subtree_graft_self (p : Path ν) (s : Tree ν β) : subtree p (graft p s) = s := by
  induction s with
  | nil => rfl
  | cons e s ih =>
    rw [graft, map_cons, subtree, filterMap_cons, below_append]
    exact congrArg (e :: ·) ih

theorem subtree_graft_apart (h : Apart p q) (s : Tree ν β) :
    subtree q (graft p s) = [] := by
  refine subtree_eq_nil fun e he => ?_
  obtain ⟨x, -, rfl⟩ := mem_map.mp he
  exact h.not_prefix x.1

theorem subtree_prune_apart (h : Apart p q) (t : Tree ν β) :
    subtree q (prune p t) = subtree q t := by
  rw [subtree, prune, filterMap_filter]
  refine filterMap_congr fun e _ => ?_
  by_cases hp : p <+: e.1
  · obtain ⟨r, hr⟩ := hp
    rw [if_neg (by simpa using ⟨r, hr⟩), ← hr, below_eq_none (h.not_prefix r), Option.map_none]
  · rw [if_pos (by simpa using hp)]

theorem subtree_prune_self (p : Path ν) (t : Tree ν β) : subtree p (prune p t) = [] := by
  refine subtree_eq_nil fun e he => ?_
  simpa using (mem_filter.mp he).2

theorem entry_append (p q : Path ν) (t : Tree ν β) : entry q (subtree p t) = entry (p ++ q) t := by
  induction t with
  | nil => rfl
  | cons e t ih =>
    rw [subtree, filterMap_cons]
    cases hb : below p e.1 with
    | none =>
      have hne : e.1 ≠ p ++ q := by
        intro he
        rw [he, below_append] at hb
        cases hb
      rw [Option.map_none, entry, entry, find?_cons_of_neg (by simpa using hne)]
      exact ih
    | some r =>
      have he := below_eq_some.mp hb
      rw [Option.map_some, entry, entry]
      by_cases hq : r = q
      · rw [find?_cons_of_pos (by simpa using hq),
          find?_cons_of_pos (by simpa [hq] using he)]
        rfl
      · have hne : e.1 ≠ p ++ q := fun h => hq (append_cancel_left (he.symm.trans h))
        rw [find?_cons_of_neg (by simpa using hq), find?_cons_of_neg (by simpa using hne)]
        exact ih

theorem isThere_iff : isThere p t = true ↔ subtree p t ≠ [] := by
  rw [isThere, any_eq_true]
  constructor
  · rintro ⟨e, he, hp⟩ hnil
    obtain ⟨r, hr⟩ : p <+: e.1 := by simpa using hp
    have hm : (r, e.2) ∈ subtree p t := mem_subtree.mpr (hr ▸ he)
    rw [hnil] at hm
    exact not_mem_nil hm
  · intro hne
    obtain ⟨⟨r, e⟩, hm⟩ := exists_mem_of_ne_nil _ hne
    exact ⟨_, mem_subtree.mp hm, by simp⟩

theorem isThere_of_entry {e : Entry β}
    (h : entry (p ++ q) t = some e) : isThere p t = true := by
  rw [isThere_iff]
  intro hnil
  rw [← entry_append, hnil] at h
  cases h

/-! ### What the operations leave -/

variable {t t' : Tree ν β}

theorem isThere_append (p q : Path ν) (t : Tree ν β) :
    isThere q (subtree p t) = isThere (p ++ q) t := by
  rw [Bool.eq_iff_iff, isThere, isThere, any_eq_true, any_eq_true]
  constructor
  · rintro ⟨e, he, hq⟩
    obtain ⟨r, hr⟩ : q <+: e.1 := by simpa using hq
    exact ⟨_, mem_subtree.mp he, by simp [← hr]⟩
  · rintro ⟨e, he, hq⟩
    obtain ⟨r, hr⟩ : p ++ q <+: e.1 := by simpa using hq
    rw [append_assoc] at hr
    exact ⟨(q ++ r, e.2), mem_subtree.mpr (hr ▸ he), by simp⟩

theorem isDir_append (p q : Path ν) (t : Tree ν β) : isDir q (subtree p t) = isDir (p ++ q) t := by
  rw [isDir, isDir, isThere_append, entry_append]

theorem entry_writeFile_self {data : β}
    (h : writeFile p data t = some t') : entry p t' = some (.file data) := by
  unfold writeFile at h
  split_ifs at h
  obtain rfl := Option.some.inj h
  have hnone : (prune p t).find? (·.1 = p) = none := by
    rw [find?_eq_none]
    intro e he hep
    have hpre : ¬ p <+: e.1 := by simpa using (mem_filter.mp he).2
    exact hpre (by simpa using (of_decide_eq_true hep) ▸ prefix_rfl)
  rw [entry, find?_append, hnone]
  simp

theorem subtree_rename_dst {src dst : Path ν} (h : rename src dst t = some t')
    (ha : Apart src dst) : subtree dst t' = subtree src t := by
  unfold rename at h
  split_ifs at h
  obtain rfl := Option.some.inj h
  rw [subtree_append, subtree_prune_apart ha, subtree_prune_self, subtree_graft_self,
    nil_append]

theorem subtree_rename_apart {src dst q : Path ν}
    (h : rename src dst t = some t') (hs : Apart src q) (hd : Apart dst q) :
    subtree q t' = subtree q t := by
  unfold rename at h
  split_ifs at h
  obtain rfl := Option.some.inj h
  rw [subtree_append, subtree_prune_apart hs, subtree_prune_apart hd, subtree_graft_apart hd,
    append_nil]

theorem subtree_subtree (p q : Path ν) (t : Tree ν β) :
    subtree (p ++ q) t = subtree q (subtree p t) := by
  rw [subtree, subtree, subtree, filterMap_filterMap]
  refine filterMap_congr fun e _ => ?_
  cases hb : below p e.1 with
  | none =>
    have hno : ¬p ++ q <+: e.1 := fun h => by
      obtain ⟨r, hr⟩ := h
      rw [← hr, append_assoc, below_append] at hb
      cases hb
    rw [below_eq_none hno]
    rfl
  | some r =>
    rw [below_eq_some.mp hb]
    change _ = (below q r).map fun u => (u, e.2)
    cases hq : below q r with
    | none =>
      have hno : ¬p ++ q <+: p ++ r := fun h => by
        obtain ⟨u, hu⟩ := h
        rw [append_assoc] at hu
        rw [← append_cancel_left hu, below_append] at hq
        cases hq
      rw [below_eq_none hno]
    | some u => rw [below_eq_some.mp hq, ← append_assoc, below_append]

theorem isThere_congr {s t : Tree ν β} (h : subtree p s = subtree q t) :
    isThere p s = isThere q t := by
  have hp := isThere_append p [] s
  have hq := isThere_append q [] t
  rw [append_nil] at hp hq
  rw [← hp, ← hq, h]

theorem isDir_congr {s t : Tree ν β} (h : subtree p s = subtree q t) :
    isDir p s = isDir q t := by
  have hp := isDir_append p [] s
  have hq := isDir_append q [] t
  rw [append_nil] at hp hq
  rw [← hp, ← hq, h]

theorem readFile_append (p q : Path ν) (t : Tree ν β) :
    readFile q (subtree p t) = readFile (p ++ q) t := by
  rw [readFile, readFile, entry_append]

theorem readFile_congr {s t : Tree ν β} (h : subtree p s = subtree q t)
    (r : Path ν) : readFile (p ++ r) s = readFile (q ++ r) t := by
  rw [← readFile_append, h, readFile_append]

theorem entry_of_readFile {data : β} (h : readFile p t = some data) :
    entry p t = some (.file data) := by
  unfold readFile at h
  split at h
  · next d he => rw [he, Option.some.inj h]
  · cases h

theorem readFile_eq_none (h : isThere p t = false) :
    readFile (p ++ q) t = none := by
  by_contra hne
  obtain ⟨data, hdata⟩ := Option.ne_none_iff_exists'.mp hne
  rw [isThere_of_entry (entry_of_readFile hdata)] at h
  cases h

theorem isDir_of_readFile {data : β} (h : readFile p t = some data) :
    isDir p t = false := by
  rw [isDir, entry_of_readFile h]
  exact Bool.and_false _

theorem entry_filter (keep : Path ν → Bool) (p : Path ν) (t : Tree ν β) :
    entry p (t.filter fun e => keep e.1) = if keep p = true then entry p t else none := by
  rw [entry, entry, find?_filter]
  split
  · next hk =>
    refine congrArg (Option.map _) (congrArg (find? · t) (funext fun e => ?_))
    by_cases he : e.1 = p
    · simp [he, hk]
    · simp [he]
  · next hk =>
    rw [Option.map_eq_none_iff, find?_eq_none]
    intro e _ h
    obtain ⟨hkeep, he⟩ := of_decide_eq_true h
    exact hk (of_decide_eq_true he ▸ hkeep)

theorem entry_prune (h : ¬ p <+: q) (t : Tree ν β) :
    entry q (prune p t) = entry q t := by
  have hkeep := entry_filter (fun r => decide (¬p <+: r)) q t
  rwa [if_pos (by simpa using h)] at hkeep

theorem isDir_of_entry (h : entry p t = some .dir) :
    isDir p t = true := by
  have hthere : isThere p t = true := isThere_of_entry ((append_nil p).symm ▸ h)
  rw [isDir, h, hthere]
  rfl

/-! ### Directories that go -/

/-- A directory with what is below it; anything else stays. -/
def removeDirAll (p : Path ν) (t : Tree ν β) : Tree ν β := if isDir p t then prune p t else t

theorem subtree_removeDirAll_apart (h : Apart p q) (t : Tree ν β) :
    subtree q (removeDirAll p t) = subtree q t := by
  unfold removeDirAll
  split
  · exact subtree_prune_apart h t
  · rfl

theorem entry_removeDirAll (h : ¬ p <+: q) (t : Tree ν β) :
    entry q (removeDirAll p t) = entry q t := by
  unfold removeDirAll
  split
  · exact entry_prune h t
  · rfl

theorem isThere_removeDirAll (p : Path ν) (t : Tree ν β) :
    isThere p (removeDirAll p t) = (isThere p t && !isDir p t) := by
  unfold removeDirAll
  split
  · next hd =>
    rw [hd, Bool.not_true, Bool.and_false, Bool.eq_false_iff, ne_eq, isThere_iff, not_not]
    exact subtree_prune_self p t
  · next hd => simp [hd]

theorem isDir_removeDirAll (p : Path ν) (t : Tree ν β) : isDir p (removeDirAll p t) = false := by
  cases hd : isDir p t with
  | true => rw [isDir, isThere_removeDirAll, hd, Bool.not_true, Bool.and_false, Bool.false_and]
  | false => rwa [removeDirAll, if_neg (by simp [hd])]

end FileTree
