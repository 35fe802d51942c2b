import Mathlib.Data.List.Nodup
import Mathlib.Data.List.Infix

/-!
# Directories and the objects in them

A disk is a list of objects at paths.  Every object but the root is in a directory, and
no path has two objects; these are fields of `Disk`, so that an object is never without
the directories above it.

Objects are opened from the directory they are in, by name, and a link is not followed:
`openAt` refuses it, and `openDir` opens one directory after the other.  `unlinkAt` takes
away a file, or a directory that is empty, and nothing else (`object_unlinkAt`).
-/

namespace Inodes

open List

variable {ν ι : Type*}

inductive Kind
  | file
  | dir
  | link
  /-- A pipe, a socket or a device. -/
  | special
  deriving DecidableEq

structure Object (ι : Type*) where
  kind : Kind
  stat : ι

abbrev Path (ν : Type*) := List ν

structure Disk (ν ι : Type*) where
  entries : List (Path ν × Object ι)
  nodup : (entries.map (·.1)).Nodup
  root : ∃ o, ([], o) ∈ entries ∧ o.kind = .dir
  nested : ∀ p n o, (p ++ [n], o) ∈ entries → ∃ d, (p, d) ∈ entries ∧ d.kind = .dir

inductive Errno
  | notFound
  /-- A link, where none is followed. -/
  | loop
  | notDirectory
  | isDirectory
  | notEmpty
  | other
  deriving DecidableEq

namespace Disk

variable [DecidableEq ν]

def object (d : Disk ν ι) (p : Path ν) : Option (Object ι) :=
  (d.entries.find? fun e => e.1 = p).map (·.2)

/-- The names in a directory. -/
def names (d : Disk ν ι) (p : Path ν) : List ν :=
  d.entries.filterMap fun e => if e.1.dropLast = p then e.1.getLast? else none

variable {d : Disk ν ι} {o : Object ι} {p : Path ν}

theorem object_eq_some :
    d.object p = some o ↔ (p, o) ∈ d.entries := by
  unfold object
  constructor
  · intro h
    obtain ⟨⟨q, o'⟩, hfind, rfl⟩ := Option.map_eq_some_iff.mp h
    have hq : q = p := by simpa using find?_some hfind
    exact hq ▸ mem_of_find?_eq_some hfind
  · intro h
    cases hfind : d.entries.find? fun e => e.1 = p with
    | none => exact absurd (find?_eq_none.mp hfind (p, o) h) (by simp)
    | some e =>
      have he : e.1 = p := by simpa using find?_some hfind
      have hmem := mem_of_find?_eq_some hfind
      have heq : e = (p, o) := inj_on_of_nodup_map d.nodup hmem h he
      rw [heq]
      rfl

theorem mem_names {n : ν} :
    n ∈ d.names p ↔ ∃ o, d.object (p ++ [n]) = some o := by
  unfold names
  rw [mem_filterMap]
  constructor
  · rintro ⟨⟨q, o⟩, hmem, hq⟩
    split_ifs at hq with hp
    have hlast : q ≠ [] := by
      rintro rfl
      cases hq
    have hsplit : p ++ [n] = q := by
      rw [← hp, ← dropLast_append_getLast hlast, dropLast_concat]
      rw [getLast?_eq_some_getLast hlast] at hq
      rw [Option.some.inj hq]
    exact ⟨o, object_eq_some.mpr (hsplit ▸ hmem)⟩
  · rintro ⟨o, ho⟩
    refine ⟨(p ++ [n], o), object_eq_some.mp ho, ?_⟩
    rw [if_pos dropLast_concat, getLast?_concat]

def isDir (d : Disk ν ι) (p : Path ν) : Bool := (d.object p).any (·.kind = .dir)

theorem isDir_iff :
    d.isDir p = true ↔ ∃ o, d.object p = some o ∧ o.kind = .dir := by
  unfold isDir
  cases d.object p with
  | none => simp
  | some o => simp

theorem isDir_of_append {n : ν}
    (h : d.object (p ++ [n]) = some o) : d.isDir p = true := by
  obtain ⟨e, he, hdir⟩ := d.nested p n o (object_eq_some.mp h)
  exact isDir_iff.mpr ⟨e, object_eq_some.mpr he, hdir⟩

/-- **Only directories are on the way to an object.** -/
theorem isDir_of_prefix {p q : Path ν} (h : d.object q = some o)
    (hp : p <+: q) (hne : p ≠ q) : d.isDir p = true := by
  obtain ⟨r, rfl⟩ := hp
  induction r using reverseRecOn generalizing o with
  | nil => exact absurd (append_nil p).symm hne
  | append_singleton r n ih =>
    rw [← append_assoc] at h
    have hdir := isDir_of_append h
    by_cases hr : r = []
    · rw [hr, append_nil] at hdir
      exact hdir
    · obtain ⟨e, he, -⟩ := isDir_iff.mp hdir
      exact ih he (by simpa using hr)

theorem mem_names_of_object {p q : Path ν} {n : ν}
    (h : d.object (p ++ n :: q) = some o) : n ∈ d.names p := by
  rw [append_cons] at h
  by_cases hq : q = []
  · rw [hq, append_nil] at h
    exact mem_names.mpr ⟨o, h⟩
  · have hdir := isDir_of_prefix h (prefix_append _ _) (by simpa using hq)
    obtain ⟨e, he, -⟩ := isDir_iff.mp hdir
    exact mem_names.mpr ⟨e, he⟩

def ofEntries (entries : List (Path ν × Object ι)) (nodup : (entries.map (·.1)).Nodup)
    (root : ∃ e ∈ entries, e.1 = [] ∧ e.2.kind = .dir)
    (nested : ∀ e ∈ entries, e.1 = [] ∨ ∃ d ∈ entries, d.1 = e.1.dropLast ∧ d.2.kind = .dir) :
    Disk ν ι where
  entries := entries
  nodup := nodup
  root := by
    obtain ⟨⟨p, o⟩, he, rfl, hk⟩ := root
    exact ⟨o, he, hk⟩
  nested := by
    intro p n o hmem
    rcases nested _ hmem with hnil | ⟨⟨q, d⟩, hd, hq, hk⟩
    · exact absurd hnil (by simp)
    · rw [List.dropLast_concat] at hq
      subst hq
      exact ⟨d, hd, hk⟩

/-! ### Opening -/

/-- Open by name in a directory; `directory` : it is to be one. -/
def openAt (d : Disk ν ι) (p : Path ν) (n : ν) (directory : Bool) : Except Errno (Object ι) :=
  match d.object (p ++ [n]) with
  | none => .error .notFound
  | some o =>
    if o.kind = .link then .error .loop
    else if directory ∧ o.kind ≠ .dir then .error .notDirectory
    else .ok o

theorem openAt_eq_ok {n : ν} {directory : Bool}
    (h : d.openAt p n directory = .ok o) : d.object (p ++ [n]) = some o ∧ o.kind ≠ .link ∧
      (directory = true → o.kind = .dir) := by
  unfold openAt at h
  cases hobj : d.object (p ++ [n]) with
  | none => rw [hobj] at h; cases h
  | some o' =>
    rw [hobj] at h
    simp only at h
    split_ifs at h with hlink hdir
    obtain rfl := Except.ok.inj h
    refine ⟨rfl, hlink, fun hd => ?_⟩
    by_contra hne
    exact hdir ⟨hd, hne⟩

/-- One directory after the other, from `p` on. -/
def openDirs (d : Disk ν ι) (p : Path ν) : Path ν → Except Errno (Path ν)
  | [] => .ok p
  | n :: ns =>
    match d.openAt p n true with
    | .error e => .error e
    | .ok _ => d.openDirs (p ++ [n]) ns

theorem openDirs_eq_ok {p q r : Path ν} (h : d.openDirs p q = .ok r) :
    r = p ++ q ∧ (q ≠ [] → d.isDir r = true) := by
  induction q generalizing p with
  | nil =>
    obtain rfl := Except.ok.inj h
    exact ⟨(append_nil p).symm, fun hne => absurd rfl hne⟩
  | cons n ns ih =>
    rw [openDirs] at h
    cases hopen : d.openAt p n true with
    | error e => rw [hopen] at h; cases h
    | ok o =>
      rw [hopen] at h
      obtain ⟨rfl, hdir⟩ := ih h
      refine ⟨by simp, fun _ => ?_⟩
      by_cases hns : ns = []
      · obtain ⟨hobj, -, ho⟩ := openAt_eq_ok hopen
        rw [hns, append_nil]
        exact isDir_iff.mpr ⟨o, hobj, ho rfl⟩
      · exact hdir hns

/-- Open a directory, from the root on. -/
def openDir (d : Disk ν ι) (p : Path ν) : Except Errno (Path ν) := d.openDirs [] p

theorem openDir_eq_ok {p r : Path ν} (h : d.openDir p = .ok r) :
    r = p ∧ d.isDir p = true := by
  obtain ⟨hr, hdir⟩ := openDirs_eq_ok h
  rw [nil_append] at hr
  subst hr
  refine ⟨rfl, ?_⟩
  by_cases hne : r = []
  · obtain ⟨o, ho, hk⟩ := d.root
    exact isDir_iff.mpr ⟨o, hne ▸ object_eq_some.mpr ho, hk⟩
  · exact hdir hne

/-! ### Taking away -/

/-- An object in a directory, with nothing in it. -/
def erase (d : Disk ν ι) (p : Path ν) (n : ν) (h : d.names (p ++ [n]) = []) : Disk ν ι where
  entries := d.entries.filter fun e => e.1 ≠ p ++ [n]
  nodup := d.nodup.sublist (List.filter_sublist.map _)
  root := by
    obtain ⟨o, ho, hk⟩ := d.root
    exact ⟨o, List.mem_filter.mpr ⟨ho, by simp⟩, hk⟩
  nested := by
    intro q m o hmem
    obtain ⟨e, he, hk⟩ := d.nested q m o (List.mem_filter.mp hmem).1
    refine ⟨e, List.mem_filter.mpr ⟨he, ?_⟩, hk⟩
    have hne : q ≠ p ++ [n] := by
      rintro rfl
      have hin : m ∈ d.names (p ++ [n]) :=
        mem_names.mpr ⟨o, object_eq_some.mpr (List.mem_filter.mp hmem).1⟩
      rw [h] at hin
      cases hin
    simpa using hne

theorem object_erase {p q : Path ν} {n : ν} {h : d.names (p ++ [n]) = []} :
    (d.erase p n h).object q = if q = p ++ [n] then none else d.object q := by
  have hiff (o : Object ι) : (d.erase p n h).object q = some o ↔
      (if q = p ++ [n] then none else d.object q) = some o := by
    rw [object_eq_some]
    change (q, o) ∈ d.entries.filter _ ↔ _
    rw [mem_filter]
    split_ifs with hq
    · simp [hq]
    · rw [object_eq_some]
      simp [hq]
  exact Option.ext hiff

theorem names_eq_nil_of_kind (h : d.object p = some o)
    (hk : o.kind ≠ .dir) : d.names p = [] := by
  refine eq_nil_iff_forall_not_mem.mpr fun n hn => ?_
  obtain ⟨c, hc⟩ := mem_names.mp hn
  obtain ⟨e, he, hdir⟩ := isDir_iff.mp (isDir_of_append hc)
  rw [h] at he
  exact hk (Option.some.inj he ▸ hdir)

/-- Take away the object of that name; `directory` : it is to be a directory, and empty. -/
def unlinkAt (d : Disk ν ι) (p : Path ν) (n : ν) (directory : Bool) : Except Errno (Disk ν ι) :=
  match h : d.object (p ++ [n]) with
  | none => .error .notFound
  | some o =>
    if hk : o.kind = .dir then
      if directory then
        if hempty : d.names (p ++ [n]) = [] then .ok (d.erase p n hempty) else .error .notEmpty
      else .error .isDirectory
    else if directory then .error .notDirectory
    else .ok (d.erase p n (names_eq_nil_of_kind h hk))

/-- **One object goes, and no other.** -/
theorem object_unlinkAt {d d' : Disk ν ι} {n : ν} {directory : Bool}
    (h : d.unlinkAt p n directory = .ok d') (q : Path ν) :
    d'.object q = if q = p ++ [n] then none else d.object q := by
  unfold unlinkAt at h
  split at h
  · cases h
  · split_ifs at h
    · obtain rfl := Except.ok.inj h
      exact object_erase
    · obtain rfl := Except.ok.inj h
      exact object_erase

end Disk

/-! ### Objects that go -/

/-- What is at a path in the second disk was there before, and what has gone was one of
these. -/
def Shrinks [DecidableEq ν] (S : Path ν → Prop) (d d' : Disk ν ι) : Prop :=
  ∀ q, d'.object q = d.object q ∨ d'.object q = none ∧ S q

section Shrinks

variable [DecidableEq ν] {S : Path ν → Prop} {d d' d'' : Disk ν ι}

theorem Shrinks.refl (S : Path ν → Prop) (d : Disk ν ι) : Shrinks S d d := fun _ => .inl rfl

theorem Shrinks.trans (h : Shrinks S d d') (h' : Shrinks S d' d'') : Shrinks S d d'' := by
  intro q
  rcases h' q with hq | hq
  · rw [hq]
    exact h q
  · exact .inr hq

theorem Shrinks.mono {S' : Path ν → Prop} (h : Shrinks S d d') (hS : ∀ q, S q → S' q) :
    Shrinks S' d d' := fun q => (h q).imp id fun hq => ⟨hq.1, hS q hq.2⟩

theorem Shrinks.unlinkAt {n : ν} {directory : Bool}
    (h : d.unlinkAt p n directory = .ok d') (hS : S (p ++ [n])) : Shrinks S d d' := by
  intro q
  rw [Disk.object_unlinkAt h q]
  split_ifs with hq
  · exact .inr ⟨rfl, hq ▸ hS⟩
  · exact .inl rfl

theorem Shrinks.gone (h : Shrinks S d d') {q : Path ν} (ho : d.object q = some o)
    (hgone : d'.object q = none) : S q := by
  rcases h q with hq | hq
  · rw [hgone, ho] at hq
    cases hq
  · exact hq.2

theorem Shrinks.of_some (h : Shrinks S d d') {q : Path ν}
    (ho : d'.object q = some o) : d.object q = some o := by
  rcases h q with hq | hq
  · rw [← hq, ho]
  · rw [hq.1] at ho
    cases ho

end Shrinks

end Inodes
