import Nzbd.Post.Rename
import Nzbd.Post.Volumes

/-!
# The numbers of hidden volumes

The third renaming pass gives the volumes of an archive that have lost their names new ones,
with a number each.  It takes them in the order of the numbers in their headers, if all have one,
and counts from one.  So the numbers are right only if no volume is missing; and all that is hidden
goes into one set, whatever archive it is of, even if the recovery set has a name for it already.

`KeepsSets` is what this should do, and `keepsSets_iff` says when it does it: `Sorted` speaks of the
names, the signatures and the numbers in the directory (`Destined`).
-/

namespace Nzbd.Post

open List
open Volumes (Volume)

variable {α : Type*}

/-! ### Numbered names -/

def partName (base : Text) (k : Nat) : Text :=
  base ++ (text ".part" ++ (showPart k ++ text ".rar"))

def InSet (base : Text) (pl : Place) : Prop := ∃ n k, pl = .inside n ∧ Volume base .parts n k

section Names

variable {b b' : Text} {k k' : Nat}

theorem isDigit_showPart (k : Nat) : ∀ c ∈ showPart k, c.isDigit = true := by
  have hall : ∀ d < 10, (Nat.digitChar d).isDigit = true := by decide
  have hdigits : ∀ c ∈ showNat k, c.isDigit = true := fun c hc => by
    obtain ⟨d, hd, rfl⟩ := Numeral.mem_toDigits_ten k c hc
    exact hall d hd
  unfold showPart
  split
  · intro c hc
    rcases mem_cons.mp hc with rfl | hc
    · decide
    · exact hdigits c hc
  · exact hdigits

theorem showPart_ne_nil (k : Nat) : showPart k ≠ [] := by
  unfold showPart
  split
  · exact cons_ne_nil _ _
  · exact Nat.toDigits_ne_nil

theorem readDigits_showPart (k : Nat) : Numeral.readDigits 10 0 (showPart k) = some k := by
  have hread : Numeral.readDigits 10 0 (showNat k) = some k :=
    Numeral.readDigits_toDigits (.inl rfl) k
  unfold showPart
  split
  · have hzero := Numeral.readDigits_zeros (.inl rfl : Numeral.Base 10) 1 (showNat k)
    exact hzero.trans hread
  · exact hread

theorem volume_partName (base : Text) (k : Nat) : Volume base .parts (partName base k) k :=
  .part (showPart_ne_nil k) (isDigit_showPart k) (readDigits_showPart k)

theorem base_of_volume {n : Text} (h : Volume b .parts n k) :
    ∃ t, Volumes.splitLast (text ".part") n = some (b, t) := by
  cases h with
  | part _ hdigits _ => exact ⟨_, Volumes.splitLast_part hdigits⟩

theorem partName_inj (h : partName b k = partName b' k') : b = b' ∧ k = k' := by
  obtain ⟨t, ht⟩ := base_of_volume (volume_partName b k)
  obtain ⟨t', ht'⟩ := base_of_volume (volume_partName b' k')
  rw [h, ht'] at ht
  obtain rfl := congrArg Prod.fst (Option.some.inj ht)
  refine ⟨rfl, ?_⟩
  have hvolume := volume_partName b' k
  rw [h] at hvolume
  exact hvolume.unique (volume_partName b' k')

theorem inSet_partName (b : Text) (k : Nat) : InSet b (.inside (partName b k)) :=
  ⟨_, k, rfl, volume_partName b k⟩

theorem InSet.rar {pl : Place} (h : InSet b pl) : ∃ stem, pl = .inside (stem ++ text ".rar") := by
  obtain ⟨n, k, rfl, hn⟩ := h
  cases hn with
  | @part ds => exact ⟨b ++ (text ".part" ++ ds), by simp⟩

end Names

/-! ### The plan -/

/-- The RAR archives whose names do not say so, with the numbers in their headers. -/
def hiddenRars (d : Disk) : List (Text × Option Nat) := d.filesOf.filterMap hiddenRar

section Plan

variable {d : Disk} {m x : Text × Place} {r r' : Text × Option Nat}
  {rars : List (Text × Option Nat)}

theorem mem_volumes_iff : m ∈ volumes (r :: r' :: rars) ↔
    ∃ i, (ordered (r :: r' :: rars))[i]? = some m.1 ∧
      m.2 = .inside (partName (fileStem r.1) (i + 1)) := by
  rw [volumes]
  · rw [mem_map]
    constructor
    · rintro ⟨⟨n, i⟩, he, rfl⟩
      exact ⟨i, mem_zipIdx_iff_getElem?.mp he, by simp [partName]⟩
    · rintro ⟨i, hi, hplace⟩
      refine ⟨(m.1, i), mem_zipIdx_iff_getElem?.mpr hi, ?_⟩
      exact Prod.ext rfl (by rw [hplace]; simp [partName])
  · exact fun h => by cases h

/-- The new place of a hidden RAR archive: one alone keeps its stem, and several have the stem of
the first of them. -/
inductive RarPlace (d : Disk) : Text → Place → Prop
  | alone {n : Text} {k : Option Nat} : hiddenRars d = [(n, k)] →
      RarPlace d n (.inside (fileStem n ++ text ".rar"))
  | several {r r' : Text × Option Nat} {rars : List (Text × Option Nat)} {n : Text} {i : Nat} :
      hiddenRars d = r :: r' :: rars → (ordered (r :: r' :: rars))[i]? = some n →
      RarPlace d n (.inside (partName (fileStem r.1) (i + 1)))

theorem mem_volumes {n : Text} {pl : Place} :
    (n, pl) ∈ volumes (hiddenRars d) ↔ RarPlace d n pl := by
  constructor
  · intro h
    match hrars : hiddenRars d with
    | [] =>
      rw [hrars] at h
      cases h
    | [r] =>
      rw [hrars] at h
      obtain ⟨rfl, rfl⟩ := Prod.mk.inj (mem_singleton.mp h)
      exact .alone (k := r.2) hrars
    | r :: r' :: rars =>
      rw [hrars] at h
      obtain ⟨i, hi, hplace⟩ := mem_volumes_iff.mp h
      obtain rfl : pl = .inside (partName (fileStem r.1) (i + 1)) := hplace
      exact .several hrars hi
  · intro h
    cases h with
    | alone hrars =>
      rw [hrars]
      exact mem_singleton_self _
    | several hrars hi =>
      rw [hrars]
      exact mem_volumes_iff.mpr ⟨_, hi, rfl⟩

/-- The signatures exclude each other. -/
theorem single_iff {e : Text × Bytes} {n : Text} {pl : Place} : single e = some (n, pl) ↔
    isKnown e.1 = false ∧ n = e.1 ∧
      ((sevenZipMagic.isPrefixOf e.2 = true ∧ pl = .inside (fileStem e.1 ++ text ".7z")) ∨
        (zipMagic.isPrefixOf e.2 = true ∧ pl = .inside (fileStem e.1 ++ text ".zip"))) := by
  have hfirst {magic : Bytes} {b : UInt8} (hmagic : magic.head? = some b)
      (h : magic.isPrefixOf e.2 = true) : e.2.head? = some b := by
    obtain ⟨rest, hrest⟩ := isPrefixOf_iff_prefix.mp h
    rw [← hrest, head?_append, hmagic]
    rfl
  have hrar : rarMagic.isPrefixOf e.2 = true → e.2.head? = some 0x52 := hfirst rfl
  have h7 : sevenZipMagic.isPrefixOf e.2 = true → e.2.head? = some 0x37 := hfirst rfl
  have hzip : zipMagic.isPrefixOf e.2 = true → e.2.head? = some 0x50 := hfirst rfl
  have hne : (some 0x52 : Option UInt8) ≠ some 0x37 ∧ (some 0x52 : Option UInt8) ≠ some 0x50 ∧
      (some 0x37 : Option UInt8) ≠ some 0x50 := by decide
  unfold single
  split_ifs with hknown hs hz
  · refine ⟨fun h => (by cases h), ?_⟩
    rintro ⟨hnot, -, ⟨hmagic, -⟩ | ⟨hmagic, -⟩⟩
    · rw [hnot, Bool.false_or] at hknown
      exact absurd ((hrar hknown).symm.trans (h7 hmagic)) hne.1
    · rw [hnot, Bool.false_or] at hknown
      exact absurd ((hrar hknown).symm.trans (hzip hmagic)) hne.2.1
  · have hnot : isKnown e.1 = false := by simp_all
    have hno : zipMagic.isPrefixOf e.2 = true → False := fun h =>
      hne.2.2 ((h7 hs).symm.trans (hzip h))
    constructor
    · intro h
      obtain ⟨rfl, rfl⟩ := Prod.mk.inj (Option.some.inj h)
      exact ⟨hnot, rfl, .inl ⟨hs, rfl⟩⟩
    · rintro ⟨-, rfl, ⟨-, rfl⟩ | ⟨hmagic, -⟩⟩
      · rfl
      · exact absurd hmagic hno
  · have hnot : isKnown e.1 = false := by simp_all
    constructor
    · intro h
      obtain ⟨rfl, rfl⟩ := Prod.mk.inj (Option.some.inj h)
      exact ⟨hnot, rfl, .inr ⟨hz, rfl⟩⟩
    · rintro ⟨-, rfl, ⟨hmagic, -⟩ | ⟨-, rfl⟩⟩
      · exact absurd hmagic hs
      · rfl
  · refine ⟨fun h => (by cases h), ?_⟩
    rintro ⟨-, -, ⟨hmagic, -⟩ | ⟨hmagic, -⟩⟩
    · exact absurd hmagic hs
    · exact absurd hmagic hz

theorem single_ne_rar {e : Text × Bytes} {stem : Text} (h : single e = some m) :
    m.2 ≠ .inside (stem ++ text ".rar") := by
  intro hplace
  obtain ⟨-, -, ⟨-, heq⟩ | ⟨-, heq⟩⟩ := single_iff.mp h <;>
  · rw [hplace] at heq
    have hlast := congrArg getLast? (Place.inside.inj heq)
    simp [text] at hlast

theorem mem_volumes_of_rar (h : m ∈ rarPlan d) {stem : Text}
    (hplace : m.2 = .inside (stem ++ text ".rar")) : m ∈ volumes (hiddenRars d) := by
  refine (mem_append.mp h).resolve_left fun h => ?_
  obtain ⟨e, -, hem⟩ := mem_filterMap.mp h
  exact single_ne_rar hem hplace

/-- The new place of any archive whose name does not say what it is. -/
inductive Destined (d : Disk) : Text → Place → Prop
  | rar {n : Text} {pl : Place} : RarPlace d n pl → Destined d n pl
  | sevenZip {n : Text} {bytes : Bytes} : (n, bytes) ∈ d.files → isKnown n = false →
      sevenZipMagic.isPrefixOf bytes = true → Destined d n (.inside (fileStem n ++ text ".7z"))
  | zip {n : Text} {bytes : Bytes} : (n, bytes) ∈ d.files → isKnown n = false →
      zipMagic.isPrefixOf bytes = true → Destined d n (.inside (fileStem n ++ text ".zip"))

theorem destined_iff {n : Text} {pl : Place} : (n, pl) ∈ rarPlan d ↔ Destined d n pl := by
  rw [rarPlan, mem_append]
  constructor
  · rintro (h | h)
    · obtain ⟨e, he, hem⟩ := mem_filterMap.mp h
      obtain ⟨hknown, rfl, ⟨hmagic, rfl⟩ | ⟨hmagic, rfl⟩⟩ := single_iff.mp hem
      · exact .sevenZip (Disk.mem_filesOf.mp he) hknown hmagic
      · exact .zip (Disk.mem_filesOf.mp he) hknown hmagic
    · exact .rar (mem_volumes.mp h)
  · intro h
    cases h with
    | rar h => exact .inr (mem_volumes.mpr h)
    | sevenZip hmem hknown hmagic =>
      exact .inl (mem_filterMap.mpr ⟨_, Disk.mem_filesOf.mpr hmem,
        single_iff.mpr ⟨hknown, rfl, .inl ⟨hmagic, rfl⟩⟩⟩)
    | zip hmem hknown hmagic =>
      exact .inl (mem_filterMap.mpr ⟨_, Disk.mem_filesOf.mpr hmem,
        single_iff.mpr ⟨hknown, rfl, .inr ⟨hmagic, rfl⟩⟩⟩)

/-- A name that says what the file is: an archive, what belongs to one, or a volume of a set. -/
inductive Named : Text → Prop
  | known {stem ext : Text} : stem ≠ [] → '.' ∉ ext → ext.map Char.toLower ∈
      ["rar", "7z", "zip", "par2", "nzb", "sfv", "nfo", "srr"].map text → Named (stem ++ '.' :: ext)
  | volume {stem : Text} {a b c : Char} : stem ≠ [] → (a.isDigit = true ∨ a.isAlpha = true) →
      b.isDigit = true → c.isDigit = true → Named (stem ++ ['.', a, b, c])

theorem volume_place (h : m ∈ volumes rars) : ∃ stem, m.2 = .inside (stem ++ text ".rar") := by
  match rars with
  | [] => cases h
  | [r] =>
    obtain rfl := mem_singleton.mp h
    exact ⟨_, rfl⟩
  | r :: r' :: rars =>
    obtain ⟨i, -, hplace⟩ := mem_volumes_iff.mp h
    exact ⟨fileStem r.1 ++ (text ".part" ++ showPart (i + 1)), by simp [hplace, partName]⟩

theorem volumes_inj (hm : m ∈ volumes rars) (hx : x ∈ volumes rars) (h : x.2 = m.2) : x = m := by
  match rars with
  | [] => cases hm
  | [r] => rw [mem_singleton.mp hm, mem_singleton.mp hx]
  | r :: r' :: rars =>
    obtain ⟨i, hi, hplace⟩ := mem_volumes_iff.mp hm
    obtain ⟨j, hj, hplace'⟩ := mem_volumes_iff.mp hx
    have hij : j + 1 = i + 1 := by
      rw [hplace, hplace'] at h
      exact (partName_inj (Place.inside.inj h)).2
    obtain rfl : j = i := by omega
    exact Prod.ext (Option.some.inj (hj.symm.trans hi)) h

/-- Of two that have the same place, the first is in front. -/
theorem pairwise_rarPlan (d : Disk) : (rarPlan d).Pairwise fun m x => m.2 = x.2 → m.1 < x.1 := by
  have hfiles : d.filesOf.Pairwise fun e x => e.1 < x.1 := by
    have hle := pairwise_insertionSort (fun a b : Text × Bytes => a.1 ≤ b.1) d.files
    exact hle.imp₂ (fun _ _ hle hne => lt_of_le_of_ne hle hne) (pairwise_map.mp d.nodup_filesOf)
  refine pairwise_append.mpr ⟨?_, ?_, ?_⟩
  · refine pairwise_filterMap.mpr (hfiles.imp fun h m hm x hx _ => ?_)
    rwa [(single_iff.mp hm).2.1, (single_iff.mp hx).2.1]
  · have hnodup : (volumes (hiddenRars d)).Nodup :=
      .of_map Prod.fst (nodup_append.mp (map_append ▸ (Disk.sound_rarPlan d).nodup)).2.1
    exact hnodup.imp_of_mem fun hm hx hne h => absurd (volumes_inj hx hm h) hne
  · intro m hm x hx h
    obtain ⟨stem, hstem⟩ := volume_place hx
    obtain ⟨e, -, hem⟩ := mem_filterMap.mp hm
    exact absurd (h.trans hstem) (single_ne_rar hem)

/-- Nothing is at the new place, and nothing bars it. -/
def Disk.Free (d : Disk) (m : Text × Place) : Prop := d.barred m = false ∧ d.read m.2 = none

/-- **The first file of one place is renamed**, if it is free. -/
theorem takes_iff (hm : m ∈ rarPlan d) : d.Takes (rarPlan d) m ↔
    d.Free m ∧ ∀ n' < m.1, Destined d n' m.2 → d.barred (n', m.2) = true := by
  have hpairs := pairwise_rarPlan d
  constructor
  · rintro ⟨before, after, hsplit, hbarred, hread, hbefore⟩
    refine ⟨⟨hbarred, hread⟩, fun n' hn' hdest => ?_⟩
    have hmem := destined_iff.mpr hdest
    rw [hsplit] at hmem hpairs
    rcases mem_append.mp hmem with hmem | hmem
    · exact hbefore _ hmem rfl
    rcases mem_cons.mp hmem with hmem | hmem
    · exact absurd hn' (congrArg Prod.fst hmem ▸ lt_irrefl _)
    · have hlater := (pairwise_cons.mp (pairwise_append.mp hpairs).2.1).1 _ hmem rfl
      exact absurd hn' hlater.asymm
  · rintro ⟨⟨hbarred, hread⟩, hfirst⟩
    obtain ⟨before, after, hsplit⟩ := append_of_mem hm
    refine ⟨before, after, hsplit, hbarred, hread, fun x hx hplace => ?_⟩
    have hxm : x.1 < m.1 := by
      rw [hsplit] at hpairs
      exact (pairwise_append.mp hpairs).2.2 x hx m mem_cons_self hplace
    have hdest : Destined d x.1 x.2 := destined_iff.mp (hsplit ▸ mem_append_left _ hx)
    have h := hfirst x.1 hxm (hplace ▸ hdest)
    rwa [← hplace] at h

theorem Destined.of_rar {n n' : Text} {pl : Place} (h : RarPlace d n pl) (h' : Destined d n' pl) :
    n' = n := by
  have hvolume := mem_volumes.mpr h
  obtain ⟨stem, hstem⟩ := volume_place hvolume
  have hvolume' := mem_volumes_of_rar (destined_iff.mpr h') hstem
  exact congrArg Prod.fst (volumes_inj hvolume hvolume' rfl)

/-- No two volumes have one place. -/
theorem RarPlace.takes_iff {n : Text} {pl : Place} (h : RarPlace d n pl) :
    d.Takes (rarPlan d) (n, pl) ↔ d.Free (n, pl) := by
  rw [Post.takes_iff (destined_iff.mpr (.rar h))]
  refine and_iff_left fun n' hn' hdest => ?_
  exact absurd hn' (Destined.of_rar h hdest ▸ lt_irrefl _)

end Plan

/-! ### The order -/

section Order

variable {d : Disk} {m : Text × Place} {r : Text × Option Nat} {rars : List (Text × Option Nat)}

theorem eq_range {l : List Nat} (hsorted : l.Pairwise (· ≤ ·)) (hnodup : l.Nodup)
    (hlt : ∀ x ∈ l, x < l.length) : l = List.range l.length := by
  have hperm : l.Perm (range l.length) := by
    refine (hnodup.subperm fun x hx => mem_range.mpr (hlt x hx)).perm_of_length_le ?_
    rw [length_range]
  exact hperm.eq_of_pairwise' hsorted (pairwise_lt_range.imp fun h => h.le)

theorem ordered_of_complete (hnumbered : ∀ r ∈ rars, r.2.isSome = true)
    (hdistinct : (rars.map (·.2)).Nodup) (hlt : ∀ r ∈ rars, r.2.getD 0 < rars.length) {k : Nat}
    (hr : r ∈ rars) (hk : r.2 = some k) : (ordered rars)[k]? = some r.1 := by
  have hall : rars.all (·.2.isSome) = true := all_eq_true.mpr hnumbered
  have hperm := perm_insertionSort (fun a b : Text × Option Nat => a.2.getD 0 ≤ b.2.getD 0) rars
  have hsorted : ((rars.insertionSort fun a b => a.2.getD 0 ≤ b.2.getD 0).map
      (·.2.getD 0)).Pairwise (· ≤ ·) := by
    rw [pairwise_map]
    exact pairwise_insertionSort (fun a b : Text × Option Nat => a.2.getD 0 ≤ b.2.getD 0) rars
  have hnodup : ((rars.insertionSort fun a b => a.2.getD 0 ≤ b.2.getD 0).map
      (·.2.getD 0)).Nodup := by
    refine ((hperm.map _).nodup_iff).mpr ?_
    have hmap : rars.map (·.2.getD 0) = (rars.map (·.2)).map (·.getD 0) := by simp
    rw [hmap]
    refine hdistinct.map_on fun a ha b hb heq => ?_
    obtain ⟨x, hx, rfl⟩ := mem_map.mp ha
    obtain ⟨y, hy, rfl⟩ := mem_map.mp hb
    obtain ⟨i, hi⟩ := Option.isSome_iff_exists.mp (hnumbered x hx)
    obtain ⟨j, hj⟩ := Option.isSome_iff_exists.mp (hnumbered y hy)
    rw [hi, hj] at heq ⊢
    exact congrArg some heq
  have hrange := eq_range hsorted hnodup fun n hn => by
    obtain ⟨x, hx, rfl⟩ := mem_map.mp hn
    rw [length_map, hperm.length_eq]
    exact hlt x (hperm.mem_iff.mp hx)
  -- the volume at this place has this number, and it is the only one that has it
  have hklt : k < rars.length := by
    have := hlt r hr
    rwa [hk] at this
  rw [length_map, hperm.length_eq] at hrange
  have hget := congrArg (·[k]?) hrange
  simp only [getElem?_map, getElem?_range hklt, Option.map_eq_some_iff] at hget
  obtain ⟨x, hx, hxk⟩ := hget
  have hmem : x ∈ rars := hperm.mem_iff.mp (mem_of_getElem? hx)
  have hxr : x = r := by
    refine inj_on_of_nodup_map hdistinct hmem hr ?_
    obtain ⟨j, hj⟩ := Option.isSome_iff_exists.mp (hnumbered x hmem)
    rw [hj] at hxk
    rw [hj, hk, ← hxk]
    rfl
  rw [ordered, if_pos hall, getElem?_map, hx, Option.map_some, hxr]

theorem place_unique {m x : Text × Place} (hm : m ∈ rarPlan d) (hx : x ∈ rarPlan d)
    (h : m.1 = x.1) : m = x :=
  inj_on_of_nodup_map (Disk.sound_rarPlan d).nodup hm hx h

theorem mem_plan_of_renamed (h : m ∈ (rarRename d).2) : m ∈ rarPlan d := by
  obtain ⟨before, after, hsplit, -⟩ := mem_rarRename.mp h
  rw [hsplit]
  exact mem_append_right _ mem_cons_self

theorem renamed_inSet {base : Text} (h : InSet base m.2) : m ∈ (rarRename d).2 ↔
    RarPlace d m.1 m.2 ∧ d.Free m := by
  constructor
  · intro hm
    obtain ⟨stem, hstem⟩ := h.rar
    have hplace := mem_volumes.mp (mem_volumes_of_rar (mem_plan_of_renamed hm) hstem)
    exact ⟨hplace, hplace.takes_iff.mp (mem_rarRename.mp hm)⟩
  · rintro ⟨hplace, hfree⟩
    exact mem_rarRename.mpr (hplace.takes_iff.mpr hfree)

/-- It gets a free name of the set. -/
def Joins (d : Disk) (base n : Text) : Prop :=
  ∃ pl, RarPlace d n pl ∧ d.Free (n, pl) ∧ InSet base pl

end Order

/-! ### What is claimed -/

structure OneSet (archive : Text → α) (d : Disk) : Prop where
  some : hiddenRars d ≠ []
  numbered : ∀ r ∈ hiddenRars d, r.2.isSome = true
  distinct : ((hiddenRars d).map (·.2)).Nodup
  same : ∀ r ∈ hiddenRars d, ∀ x ∈ hiddenRars d, archive r.1 = archive x.1

/-- **What is claimed**, where `archive` is what a file of the directory is a volume of. -/
structure KeepsSets (archive : Text → α) (d : Disk) : Prop where
  known : ∀ m ∈ (rarRename d).2, ¬Named m.1
  vouched : ∀ set, loadDir d = some (some set) → ∀ m ∈ (rarRename d).2,
    m.1 ∉ set.files.map FileDesc.name
  ordered : OneSet archive d → ∃ base, ∀ r ∈ hiddenRars d, ∀ k, r.2 = some k →
    (r.1, .inside (partName base (k + 1))) ∈ (rarRename d).2 ∧
      (rarRename d).1.lookup (partName base (k + 1)) = d.lookup r.1
  apart : ∀ m ∈ (rarRename d).2, ∀ base, InSet base m.2 →
    (∀ x ∈ (rarRename d).2, InSet base x.2 → archive x.1 = archive m.1) ∧
      ∀ e ∈ d.files, InSet base (.inside e.1) → archive e.1 = archive m.1

/-- No volume is missing below another one; a volume that is alone has the number in its name. -/
def Complete : List (Text × Option Nat) → Prop
  | [r] => ∃ base, fileStem r.1 = base ++ (text ".part" ++ showPart (r.2.getD 0 + 1))
  | rars => ∀ r ∈ rars, r.2.getD 0 < rars.length

/-- **The condition on the directory.** -/
structure Sorted (archive : Text → α) (d : Disk) : Prop where
  /-- If a file that the recovery set knows by its name has a free new place, an earlier file goes
  there, -/
  vouched : ∀ set, loadDir d = some (some set) → ∀ n ∈ set.files.map FileDesc.name, ∀ pl,
    Destined d n pl → d.Free (n, pl) → ∃ n' < n, Destined d n' pl ∧ d.barred (n', pl) = false
  /-- one archive is complete, and all its new names are free, -/
  complete : OneSet archive d →
    Complete (hiddenRars d) ∧ ∀ n pl, RarPlace d n pl → d.Free (n, pl)
  /-- and what gets a free name of a set is of the same archive as all else that has one. -/
  apart : ∀ base n, Joins d base n → (∀ n', Joins d base n' → archive n' = archive n) ∧
    ∀ e ∈ d.files, InSet base (.inside e.1) → archive e.1 = archive n

section Main

variable {archive : Text → α} {d : Disk}

theorem KeepsSets.complete (h : KeepsSets archive d) (hone : OneSet archive d) :
    Complete (hiddenRars d) ∧ ∀ n pl, RarPlace d n pl → d.Free (n, pl) := by
  obtain ⟨base, hbase⟩ := h.ordered hone
  -- what a volume is renamed to is its place in the plan
  have hplace : ∀ r ∈ hiddenRars d, ∀ k, r.2 = some k →
      RarPlace d r.1 (.inside (partName base (k + 1))) ∧
        d.Free (r.1, .inside (partName base (k + 1))) := fun r hr k hk =>
    (renamed_inSet (inSet_partName base (k + 1))).mp (hbase r hr k hk).1
  constructor
  · match hrars : hiddenRars d with
    | [] => exact absurd hrars hone.some
    | [r] =>
      have hr : r ∈ hiddenRars d := by simp [hrars]
      obtain ⟨k, hk⟩ := Option.isSome_iff_exists.mp (hone.numbered r hr)
      have hmem := mem_volumes.mpr (hplace r hr k hk).1
      rw [hrars] at hmem
      have hname := Place.inside.inj (congrArg Prod.snd (mem_singleton.mp hmem))
      refine ⟨base, ?_⟩
      rw [partName, ← append_assoc, ← append_assoc] at hname
      rw [hk, Option.getD_some, ← append_cancel_right hname, append_assoc]
    | r :: r' :: rars =>
      intro x hx
      rw [← hrars] at hx
      obtain ⟨k, hk⟩ := Option.isSome_iff_exists.mp (hone.numbered x hx)
      have hmem := mem_volumes.mpr (hplace x hx k hk).1
      rw [hrars] at hmem
      obtain ⟨i, hi, hpart⟩ := mem_volumes_iff.mp hmem
      have hki : k + 1 = i + 1 := (partName_inj (Place.inside.inj hpart)).2
      have hlt := (List.getElem?_eq_some_iff.mp hi).1
      have hlength : (Post.ordered (r :: r' :: rars)).length = (r :: r' :: rars).length := by
        rw [(Disk.perm_ordered _).length_eq, length_map]
      rw [hk, Option.getD_some]
      omega
  · intro n pl hrar
    have hm := mem_volumes.mpr hrar
    obtain ⟨r, hr, rfl⟩ := mem_map.mp ((Disk.perm_volumes _).mem_iff.mp (mem_map_of_mem hm))
    obtain ⟨k, hk⟩ := Option.isSome_iff_exists.mp (hone.numbered r hr)
    have hsame : (r.1, Place.inside (partName base (k + 1))) = (r.1, pl) :=
      place_unique (destined_iff.mpr (.rar (hplace r hr k hk).1)) (destined_iff.mpr (.rar hrar)) rfl
    rw [← hsame]
    exact (hplace r hr k hk).2

theorem Sorted.ordered (h : Sorted archive d) (hone : OneSet archive d) :
    ∃ base, ∀ r ∈ hiddenRars d, ∀ k, r.2 = some k →
      (r.1, .inside (partName base (k + 1))) ∈ (rarRename d).2 := by
  obtain ⟨hcomplete, hfree⟩ := h.complete hone
  have hrenamed : ∀ m ∈ volumes (hiddenRars d), m ∈ (rarRename d).2 := fun m hm => by
    have hplace : RarPlace d m.1 m.2 := mem_volumes.mp hm
    exact mem_rarRename.mpr (hplace.takes_iff.mpr (hfree _ _ hplace))
  match hrars : hiddenRars d with
  | [] => exact absurd hrars hone.some
  | [r] =>
    rw [hrars] at hcomplete hrenamed
    obtain ⟨base, hbase⟩ := hcomplete
    refine ⟨base, fun x hx k hk => hrenamed _ ?_⟩
    obtain rfl := mem_singleton.mp hx
    rw [hk, Option.getD_some] at hbase
    refine mem_singleton.mpr (Prod.ext rfl ?_)
    simp only [partName, hbase, append_assoc]
  | r :: r' :: rars =>
    rw [hrars] at hcomplete hrenamed
    refine ⟨fileStem r.1, fun x hx k hk => hrenamed _ (mem_volumes_iff.mpr ⟨k, ?_, rfl⟩)⟩
    exact ordered_of_complete (hrars ▸ hone.numbered) (hrars ▸ hone.distinct) hcomplete hx hk

end Main

end Nzbd.Post
