import Nzbd.Engine.Naming
import Nzbd.Lib.Lowercase

/-!
# The volumes of an archive

An archive comes as `base.part1.rar`, `base.part2.rar` and so on, with zeros in front or without,
or as `base.rar`, `base.r00` up to `base.r99`, `base.s00` and so on.  Four functions take such
names apart: which archive to extract, which volumes there are, which are missing, and whether
what has been extracted is as much as there was in the volumes.

`Volume` says what the names of a set are, in lower case.  `Agree` is that the four functions
know the set for what it is, and `agree_iff` says when they do: a name of the old style must not
go past `.r99` nor have `.part` in it, and no other file may look like a volume.
-/

namespace Nzbd.Post.Volumes

open Option List
open Utf8 (fromUtf8Lossy)

/-! ### The last of a pattern -/

/-- What stands before and behind the last occurrence of a pattern. -/
def splitLast (pat n : Text) : Option (Text × Text) :=
  (rfind pat n).map fun i => (n.take i, n.drop (i + pat.length))

section SplitLast

variable {c : Char} {p s t b : Text}

theorem rfind_of_cons {d : Char} {pat : Text} (h : rfind pat (d :: s) = none) : rfind pat s = none := by
  rw [rfind] at h
  cases hs : rfind pat s with
  | none => rfl
  | some n => simp [hs] at h

theorem rfind_append_of_not_mem (hs : c ∉ s) (ht : rfind (c :: p) t = none) :
    rfind (c :: p) (s ++ t) = none := by
  induction s with
  | nil => exact ht
  | cons d s ih =>
    have hd : ¬c = d := fun h => hs (by simp [h])
    have htail := ih fun h => hs (mem_cons_of_mem _ h)
    rw [cons_append, rfind, htail]
    simp [startsWith, isPrefixOf, hd]

theorem rfind_append_self (hp : c ∉ p) (ht : rfind (c :: p) t = none) (b : Text) :
    rfind (c :: p) (b ++ (c :: p ++ t)) = some b.length := by
  induction b with
  | nil =>
    rw [nil_append, cons_append, rfind, rfind_append_of_not_mem hp ht]
    simp [startsWith, isPrefixOf]
  | cons d b ih => rw [cons_append, rfind, ih, length_cons]

theorem rfind_of_append (a : Text) {pat : Text} (h : rfind pat (a ++ s) = none) :
    rfind pat s = none := by
  induction a with
  | nil => exact h
  | cons d a ih => exact ih (rfind_of_cons h)

theorem rfind_eq_some {i : Nat} (h : rfind (c :: p) s = some i) :
    ∃ b t, s = b ++ (c :: p ++ t) ∧ b.length = i ∧ rfind (c :: p) t = none := by
  induction s generalizing i with
  | nil => simp [rfind] at h
  | cons d s ih =>
    rw [rfind] at h
    cases hs : rfind (c :: p) s with
    | some n =>
      obtain ⟨b, t, rfl, hb, ht⟩ := ih hs
      rw [hs] at h
      exact ⟨d :: b, t, rfl, by simpa [hb] using h, ht⟩
    | none =>
      simp only [hs] at h
      split at h
      · next hstart =>
        obtain ⟨t, ht⟩ := isPrefixOf_iff_prefix.mp hstart
        obtain ⟨rfl, rfl⟩ := cons.inj ht
        exact ⟨[], t, rfl, by simpa using h, rfind_of_append p hs⟩
      · cases h

theorem rfind_ne_none (b t : Text) : rfind (c :: p) (b ++ (c :: p ++ t)) ≠ none := by
  intro h
  have hhead := rfind_of_append b h
  have htail : rfind (c :: p) (p ++ t) = none := rfind_of_cons hhead
  rw [cons_append, rfind, htail] at hhead
  simp [startsWith, isPrefixOf] at hhead

theorem rfind_left_of_append (h : rfind (c :: p) (s ++ t) = none) : rfind (c :: p) s = none := by
  cases hs : rfind (c :: p) s with
  | none => rfl
  | some i =>
    obtain ⟨b, u, rfl, -, -⟩ := rfind_eq_some hs
    rw [append_assoc, append_assoc] at h
    exact absurd h (rfind_ne_none b _)

theorem splitLast_eq_some (hp : c ∉ p) {n : Text} :
    splitLast (c :: p) n = some (b, t) ↔ n = b ++ (c :: p ++ t) ∧ rfind (c :: p) t = none := by
  constructor
  · intro h
    obtain ⟨i, hi, heq⟩ := map_eq_some_iff.mp h
    obtain ⟨b', t', rfl, rfl, ht⟩ := rfind_eq_some hi
    simp only [Prod.mk.injEq] at heq
    obtain ⟨rfl, rfl⟩ := heq
    simp [ht]
  · rintro ⟨rfl, ht⟩
    rw [splitLast, rfind_append_self hp ht]
    simp

end SplitLast

/-! ### The code -/

def leadingNumber (s : Text) : Option Nat :=
  Numeral.fromStrRadix 10 (2 ^ 32) (s.takeWhile Char.isDigit)

/-- `name.part07.rar` is 7, `name.rar` is 1 and `name.r05` is 7. -/
def volumeNumber (name : Text) : Option Nat :=
  match splitLast (text ".part") name, endsWith name (text ".rar") with
  | some (_, rest), true => leadingNumber rest
  | none, true => some 1
  | _, false =>
    match splitLast (text ".") name with
    | some (_, ['r', c, d]) =>
      if c.isDigit && d.isDigit then (leadingNumber [c, d]).map (· + 2) else none
    | _ => none

/-- What is in front of `.partNN.rar`, `.rNN` or `.rar`. -/
def setBase (name : Text) : Option Text :=
  match splitLast (text ".part") name, endsWith name (text ".rar") with
  | some (b, _), true => some b
  | _, _ => (splitLast (text ".") name).map (·.1)

inductive ArchiveKind
  | rar
  | sevenZip
  | zip
  | split
  deriving DecidableEq

structure Entry where
  name : List UInt8
  isFile : Bool
  size : Nat
  deriving DecidableEq

/-- A directory, in the order it is read in. -/
structure Listing where
  entries : List Entry
  nodup : (entries.map Entry.name).Nodup

section Code

variable (T : CaseTable)

def Entry.lower (e : Entry) : Text := T.toLowercase (fromUtf8Lossy e.name)

def sortedByName (es : List Entry) : List Entry := es.insertionSort fun a b => a.name ≤ b.name

def Listing.filesOf (dir : Listing) : List Entry := sortedByName (dir.entries.filter (·.isFile))

/-- What a file has to have in front to be of the same set. -/
def baseOf (first : Entry) : Text := (setBase (first.lower T)).getD (first.lower T)

/-- The numbers of the volumes, as often as there are files with them. -/
def seenNumbers (dir : Listing) (first : Entry) : List Nat :=
  dir.filesOf.filterMap fun p =>
    if setBase (p.lower T) = some (baseOf T first) then volumeNumber (p.lower T) else none

def missingVolumes (dir : Listing) (first : Entry) : List Nat :=
  let seen := seenNumbers T dir first
  if seen.length < 2 then []
  else
    let seen := (seen.insertionSort (· ≤ ·)).dedup
    let highest := seen.getLast?.getD 1
    (List.range' 1 highest).filter (· ∉ seen)

/-- The files `volume_set` counts. -/
def volumeFiles (dir : Listing) (first : Entry) : List Entry :=
  dir.filesOf.filter fun p =>
    setBase (p.lower T) = some (baseOf T first) && (volumeNumber (p.lower T)).isSome

def volumeSet (dir : Listing) (first : Entry) : Nat × Nat :=
  ((volumeFiles T dir first).length, ((volumeFiles T dir first).map Entry.size).sum)

/-- Is less in `dest` than the volumes promise? -/
def unpackShortfall (dir : Listing) (first : Entry) (extracted : Nat) : Bool :=
  let (volumes, packed) := volumeSet T dir first
  if volumes < 2 ∨ packed = 0 then false else extracted < packed / 10 * 9

def archiveKind (name : Text) : Option ArchiveKind :=
  if endsWith name (text ".rar") then
    match splitLast (text ".part") name with
    | some (_, rest) => if (leadingNumber rest).any (· ≠ 1) then none else some .rar
    | none => some .rar
  else if endsWith name (text ".7z") then some .sevenZip
  else if endsWith name (text ".zip") then some .zip
  else if endsWith name (text ".001") then some .split
  else none

def detectArchives (dir : Listing) : List (Entry × ArchiveKind) :=
  (sortedByName dir.entries).filterMap fun p => (archiveKind (p.lower T)).map (p, ·)

structure ExtractOutcome where
  success : Bool
  passwordError : Bool
  diskSpaceError : Bool

inductive PostError
  | toolMissing (tool : Text)
  | subprocess (message : Text)
  | io

/-- One run of a tool, and the bytes in `dest` after it. -/
structure Attempt where
  outcome : Except PostError ExtractOutcome
  extracted : Nat

/-- What becomes of the directory `dest` and of the tools. -/
structure Tools where
  created : Bool
  first : Attempt
  recreated : Bool
  second : Attempt

def delivered (dir : Listing) (archive : Entry) (a : Attempt) : Bool :=
  match a.outcome with
  | .ok o => o.success && !unpackShortfall T dir archive a.extracted
  | .error _ => false

def Attempt.report (a : Attempt) : Except PostError (ExtractOutcome × Nat) :=
  match a.outcome with
  | .ok o => .ok (o, a.extracted)
  | .error e => .error e

/-- The outcome, and the bytes in `dest` then. -/
def extract (w : Tools) (dir : Listing) (archive : Entry) (kind : ArchiveKind) :
    Except PostError (ExtractOutcome × Nat) :=
  if w.created = false then .error .io
  else if kind ≠ .rar then w.first.report
  else if delivered T dir archive w.first then w.first.report
  else if w.first.outcome.toOption.any (·.passwordError) then w.first.report
  else if w.recreated = false then .error .io
  else if delivered T dir archive w.second then w.second.report
  else
    match w.first.outcome, w.second.outcome with
    | .ok o, _ => .ok ({ o with success := false }, w.second.extracted)
    | _, .ok o => .ok ({ o with success := false }, w.second.extracted)
    | _, .error e => .error e

end Code

/-! ### Sets of volumes -/

/-- `base.part1.rar`, or `base.rar` and `base.r00`. -/
inductive Style
  | parts
  | letters

/-- The names of a set in lower case, with their numbers. -/
inductive Volume (b : Text) : Style → Text → Nat → Prop
  | part {ds : Text} {n : Nat} : ds ≠ [] → (∀ c ∈ ds, c.isDigit = true) →
      Numeral.readDigits 10 0 ds = some n →
      Volume b .parts (b ++ (text ".part" ++ (ds ++ text ".rar"))) n
  | rar : Volume b .letters (b ++ text ".rar") 1
  | letter {l c d : Char} {n : Nat} : 'r' ≤ l → l ≤ 'z' → c.isDigit = true → d.isDigit = true →
      Numeral.readDigits 10 0 [c, d] = some n →
      Volume b .letters (b ++ ['.', l, c, d]) (100 * (l.toNat - 'r'.toNat) + n + 2)

/-- What the code can number: a machine word, and up to `.r99`. -/
def Style.limit : Style → Nat
  | .parts => 2 ^ 32
  | .letters => 102

/-- What is no volume of the set and is taken for one. -/
inductive Stray (b : Text) : Style → Text → Prop
  | behind {style : Style} {t : Text} {n : Nat} : rfind (text ".part") t = none →
      text ".rar" <:+ t → leadingNumber t = some n →
      (∀ n', ¬Volume b style (b ++ (text ".part" ++ t)) n') → Stray b style (b ++ (text ".part" ++ t))
  | rar : rfind (text ".part") b = none → Stray b .parts (b ++ text ".rar")
  | letter {c d : Char} : c.isDigit = true → d.isDigit = true → Stray b .parts (b ++ ['.', 'r', c, d])

variable {T : CaseTable} {dir : Listing}

/-- A set of which the first volume and another one are there. -/
structure VolumeSet (T : CaseTable) (dir : Listing) where
  base : Text
  style : Style
  first : Entry
  mem : first ∈ dir.entries
  isFile : first.isFile = true
  named : Volume base style (first.lower T) 1
  several : ∃ e ∈ dir.entries, e.isFile = true ∧ (∃ n, Volume base style (e.lower T) n) ∧ e ≠ first

namespace VolumeSet

variable (s : VolumeSet T dir)

/-- Is this the name of a volume? -/
def Has (e : Entry) : Prop := ∃ n, Volume s.base s.style (e.lower T) n

open scoped Classical in
noncomputable def volumes : List Entry := dir.entries.filter fun e => e.isFile = true ∧ s.Has e

noncomputable def bytes : Nat := (s.volumes.map Entry.size).sum

/-- **What is claimed.** -/
structure Agree (w : Tools) : Prop where
  detected : (detectArchives T dir).Nodup ∧
    ∀ p, p ∈ detectArchives T dir ∧ s.Has p.1 ↔ p = (s.first, .rar)
  counted : (∀ e, e ∈ volumeFiles T dir s.first ↔ e ∈ s.volumes) ∧
    volumeSet T dir s.first = (s.volumes.length, s.bytes)
  missing : (missingVolumes T dir s.first).Pairwise (· < ·) ∧
    ∀ n, n ∈ missingVolumes T dir s.first ↔ 1 ≤ n ∧
      (∀ e ∈ s.volumes, ¬Volume s.base s.style (e.lower T) n) ∧
      ∃ e ∈ s.volumes, ∃ m, n < m ∧ Volume s.base s.style (e.lower T) m
  extracted : ∀ o n, extract T w dir s.first .rar = .ok (o, n) → o.success = true →
    9 * s.bytes ≤ 10 * n

/-- **The condition on the names**: there is one first volume, the numbers are such that the code
knows them, a base of the old style has no `.part` in it, and nothing else looks like a volume. -/
structure Plain : Prop where
  only : ∀ e ∈ dir.entries, Volume s.base s.style (e.lower T) 1 → e = s.first
  numbers : ∀ e ∈ dir.entries, ∀ n, Volume s.base s.style (e.lower T) n →
    s.style = .parts ∨ e.isFile = true → n < s.style.limit
  clean : s.style = .letters → rfind (text ".part") s.base = none
  strays : ∀ e ∈ dir.entries, e.isFile = true → ¬Stray s.base s.style (e.lower T)

end VolumeSet

/-- Enough for the code and less than nine tenths. -/
def Rounded (bytes n : Nat) : Prop := bytes / 10 * 9 ≤ n ∧ 10 * n < 9 * bytes

/-- **The condition on the tools**: none that says that it was successful leaves what is only enough
because the bound is rounded, and none says that the password was wrong as well and leaves less. -/
structure Tools.Honest (w : Tools) (bytes : Nat) : Prop where
  first : w.created = true → ∀ o, w.first.outcome = .ok o → o.success = true →
    ¬Rounded bytes w.first.extracted ∧
      (o.passwordError = true → bytes / 10 * 9 ≤ w.first.extracted)
  second : w.created = true →
    (∀ o, w.first.outcome = .ok o → o.passwordError = false ∧
      ¬(o.success = true ∧ bytes / 10 * 9 ≤ w.first.extracted)) →
    w.recreated = true → ∀ o, w.second.outcome = .ok o → o.success = true →
    ¬Rounded bytes w.second.extracted

/-! ### How names are read -/

section Names

variable {b b' name t : Text} {n m : Nat} {style : Style}

theorem endsWith_iff {pat : Text} : endsWith name pat = true ↔ pat <:+ name :=
  isSuffixOf_iff_suffix

theorem endsWith_behind : endsWith (b ++ (text ".part" ++ t)) (text ".rar") = true ↔
    text ".rar" <:+ t := by
  rw [endsWith_iff]
  constructor
  · intro h
    have hsuffix : text ".rar" <:+ text ".part" ++ t := by
      rcases suffix_or_suffix_of_suffix h (suffix_append b _) with h | h
      · exact h
      · have hlen := h.length_le
        rw [length_append] at hlen
        exact absurd hlen (Nat.not_le.mpr (Nat.lt_add_right _ (by decide)))
    simpa [text, suffix_cons_iff] using hsuffix
  · exact fun h => h.trans ((suffix_append (text ".part") t).trans (suffix_append b _))

theorem rfind_append_rar : rfind (text ".part") (b ++ text ".rar") = none ↔
    rfind (text ".part") b = none := by
  refine ⟨rfind_left_of_append, fun h => ?_⟩
  cases hfind : rfind (text ".part") (b ++ text ".rar") with
  | none => rfl
  | some i =>
    obtain ⟨b', t, heq, -, -⟩ := rfind_eq_some hfind
    have hend : endsWith (b' ++ (text ".part" ++ t)) (text ".rar") = true :=
      endsWith_iff.mpr (heq ▸ suffix_append b _)
    obtain ⟨u, rfl⟩ := endsWith_behind.mp hend
    rw [← append_assoc, ← append_assoc, append_left_inj, append_assoc] at heq
    rw [heq] at h
    exact absurd h (rfind_ne_none b' u)

/-- What the code takes a name for. -/
def Reads (b name : Text) (n : Nat) : Prop := setBase name = some b ∧ volumeNumber name = some n

theorem leadingNumber_append (hne : name ≠ []) (hdigits : ∀ c ∈ name, c.isDigit = true)
    (ht : t.takeWhile Char.isDigit = []) :
    leadingNumber (name ++ t) = (Numeral.readDigits 10 0 name).filter (· < 2 ^ 32) := by
  have hplus : '+' ∉ name := fun h => by
    have := hdigits _ h
    revert this
    decide
  rw [leadingNumber, takeWhile_append_of_pos hdigits, ht, append_nil,
    Numeral.fromStrRadix_of_no_sign hne hplus]

theorem lt_of_two_digits {c d : Char} (h : Numeral.readDigits 10 0 [c, d] = some n) : n < 100 := by
  simp only [Numeral.readDigits, bind_eq_some_iff] at h
  obtain ⟨x, hx, y, hy, h⟩ := h
  have hx : x < 10 := by
    have := (filter_eq_some_iff.mp hx).2
    simpa using this
  have hy : y < 10 := by
    have := (filter_eq_some_iff.mp hy).2
    simpa using this
  have := some.inj h
  omega

theorem leadingNumber_two {c d : Char} (hc : c.isDigit = true) (hd : d.isDigit = true) :
    leadingNumber [c, d] = Numeral.readDigits 10 0 [c, d] := by
  have h := @leadingNumber_append [c, d] [] (by simp) (by simp [hc, hd]) rfl
  rw [append_nil] at h
  rw [h]
  cases hn : Numeral.readDigits 10 0 [c, d] with
  | none => rfl
  | some n =>
    have := lt_of_two_digits hn
    simp only [filter_some, decide_eq_true_eq, ite_eq_left_iff]
    omega

theorem splitLast_rar (b : Text) : splitLast (text ".") (b ++ text ".rar") = some (b, text "rar") :=
  (splitLast_eq_some (by simp)).mpr ⟨rfl, by decide⟩

theorem splitLast_letter (b : Text) {l c d : Char} (h : l ≠ '.') (hc : c.isDigit = true)
    (hd : d.isDigit = true) : splitLast (text ".") (b ++ ['.', l, c, d]) = some (b, [l, c, d]) := by
  have hcdot : '.' ≠ c := fun h => by
    rw [← h] at hc
    revert hc
    decide
  have hddot : '.' ≠ d := fun h => by
    rw [← h] at hd
    revert hd
    decide
  have hmem : '.' ∉ [l, c, d] := by simp [h.symm, hcdot, hddot]
  exact (splitLast_eq_some (by simp)).mpr ⟨rfl, rfind_append_of_not_mem hmem rfl⟩

theorem not_endsWith_letter (b : Text) {l c d : Char} (hd : d.isDigit = true) :
    endsWith (b ++ ['.', l, c, d]) (text ".rar") = false := by
  rw [Bool.eq_false_iff, ne_eq, endsWith_iff]
  rintro ⟨r, hr⟩
  have hlast := congrArg getLast? hr
  simp [text] at hlast
  rw [← hlast] at hd
  revert hd
  decide

theorem setBase_of_not_rar (h : endsWith name (text ".rar") = false) :
    setBase name = (splitLast (text ".") name).map (·.1) := by
  unfold setBase
  rw [h]
  cases splitLast (text ".part") name <;> rfl

theorem reads_letter {c d : Char} {k : Nat} (hc : c.isDigit = true) (hd : d.isDigit = true)
    (hk : Numeral.readDigits 10 0 [c, d] = some k) : Reads b (b ++ ['.', 'r', c, d]) (k + 2) := by
  have hsplit := splitLast_letter b (l := 'r') (by decide) hc hd
  have hend := not_endsWith_letter b (l := 'r') (c := c) hd
  refine ⟨by rw [setBase_of_not_rar hend, hsplit]; rfl, ?_⟩
  unfold volumeNumber
  rw [hend]
  cases splitLast (text ".part") (b ++ ['.', 'r', c, d]) <;>
    simp [hsplit, hc, hd, leadingNumber_two hc hd, hk]

theorem reads_of_not_rar (hend : endsWith name (text ".rar") = false) (h : Reads b name n) :
    ∃ c d k, c.isDigit = true ∧ d.isDigit = true ∧ Numeral.readDigits 10 0 [c, d] = some k ∧
      name = b ++ ['.', 'r', c, d] ∧ n = k + 2 := by
  obtain ⟨hbase, hnumber⟩ := h
  rw [setBase_of_not_rar hend] at hbase
  obtain ⟨⟨b', ext⟩, hsplit, rfl⟩ := map_eq_some_iff.mp hbase
  obtain ⟨hname, -⟩ := (splitLast_eq_some (c := '.') (p := []) (by simp)).mp hsplit
  have hext : (match some (b', ext) with
      | some (_, ['r', c, d]) =>
        if c.isDigit && d.isDigit then (leadingNumber [c, d]).map (· + 2) else none
      | _ => none) = some n := by
    rw [← hsplit]
    unfold volumeNumber at hnumber
    rw [hend] at hnumber
    cases hpart : splitLast (text ".part") name <;> simpa [hpart] using hnumber
  split at hext
  · next c d heq =>
    simp only [some.injEq, Prod.mk.injEq] at heq
    obtain ⟨-, rfl⟩ := heq
    split at hext
    · next hdigits =>
      rw [Bool.and_eq_true] at hdigits
      rw [leadingNumber_two hdigits.1 hdigits.2] at hext
      obtain ⟨k, hk, rfl⟩ := map_eq_some_iff.mp hext
      exact ⟨c, d, k, hdigits.1, hdigits.2, hk, hname, rfl⟩
    · cases hext
  · cases hext

/-- **The three kinds of names** that have a number for the code. -/
theorem reads_iff : Reads b name n ↔
    (∃ t, name = b ++ (text ".part" ++ t) ∧ rfind (text ".part") t = none ∧ text ".rar" <:+ t ∧
      leadingNumber t = some n) ∨
    (rfind (text ".part") b = none ∧ name = b ++ text ".rar" ∧ n = 1) ∨
    ∃ c d k, c.isDigit = true ∧ d.isDigit = true ∧ Numeral.readDigits 10 0 [c, d] = some k ∧
      name = b ++ ['.', 'r', c, d] ∧ n = k + 2 := by
  constructor
  · intro h
    cases hend : endsWith name (text ".rar") with
    | false => exact .inr (.inr (reads_of_not_rar hend h))
    | true =>
      obtain ⟨hbase, hnumber⟩ := h
      unfold setBase at hbase
      unfold volumeNumber at hnumber
      cases hpart : splitLast (text ".part") name with
      | some q =>
        obtain ⟨b', t⟩ := q
        obtain ⟨hname, ht⟩ := (splitLast_eq_some (by decide)).mp hpart
        simp only [hpart, hend, some.injEq] at hbase hnumber
        subst hbase
        refine .inl ⟨t, hname, ht, ?_, hnumber⟩
        rw [hname] at hend
        exact endsWith_behind.mp hend
      | none =>
        obtain ⟨u, rfl⟩ := endsWith_iff.mp hend
        simp only [hpart, hend, splitLast_rar, map_some, some.injEq] at hbase hnumber
        subst hbase hnumber
        exact .inr (.inl ⟨rfind_left_of_append (map_eq_none_iff.mp hpart), rfl, rfl⟩)
  · rintro (⟨t, rfl, ht, hrar, hnumber⟩ | ⟨hb, rfl, rfl⟩ | ⟨c, d, k, hc, hd, hk, rfl, rfl⟩)
    · have hsplit : splitLast (text ".part") (b ++ (text ".part" ++ t)) = some (b, t) :=
        (splitLast_eq_some (by decide)).mpr ⟨rfl, ht⟩
      have hend : endsWith (b ++ (text ".part" ++ t)) (text ".rar") = true := endsWith_behind.mpr hrar
      exact ⟨by simp [setBase, hsplit, hend], by simp [volumeNumber, hsplit, hend, hnumber]⟩
    · have hend : endsWith (b ++ text ".rar") (text ".rar") = true :=
        endsWith_iff.mpr (suffix_append b _)
      have hpart : splitLast (text ".part") (b ++ text ".rar") = none :=
        map_eq_none_iff.mpr (rfind_append_rar.mpr hb)
      exact ⟨by simp [setBase, hpart, hend, splitLast_rar], by simp [volumeNumber, hpart, hend]⟩
    · exact reads_letter hc hd hk

/-! ### How the names of a set are read -/

theorem part_ne_rar : b ++ (text ".part" ++ t) ≠ b ++ text ".rar" := by simp [text]

theorem part_ne_letter {l c d : Char} : b ++ (text ".part" ++ t) ≠ b ++ ['.', l, c, d] := by
  simp [text]

theorem rar_ne_letter {l c d : Char} (hc : c.isDigit = true) :
    b ++ text ".rar" ≠ b ++ ['.', l, c, d] := by
  intro h
  have hc' : 'a' = c := by
    simp [text] at h
    exact h.2.1
  rw [← hc'] at hc
  revert hc
  decide

theorem leadingNumber_rar (hne : name ≠ []) (hdigits : ∀ c ∈ name, c.isDigit = true) :
    leadingNumber (name ++ text ".rar") = (Numeral.readDigits 10 0 name).filter (· < 2 ^ 32) :=
  leadingNumber_append hne hdigits (by decide)

theorem Volume.reads (h : Volume b style name n) (hn : n < style.limit)
    (hclean : style = .letters → rfind (text ".part") b = none) : Reads b name n := by
  cases h with
  | @part ds _ hne hdigits hn' =>
    refine reads_iff.mpr (.inl ⟨_, rfl, ?_, suffix_append _ _, ?_⟩)
    · have hdot : '.' ∉ ds := fun h => by
        have := hdigits _ h
        revert this
        decide
      exact rfind_append_of_not_mem hdot (by decide)
    · rw [leadingNumber_rar hne hdigits, hn']
      simpa [Style.limit] using hn
  | rar => exact reads_iff.mpr (.inr (.inl ⟨hclean rfl, rfl, rfl⟩))
  | @letter l c d k hl _ hc hd hk =>
    obtain rfl : 'r' = l := by
      have hle : 'r'.toNat ≤ l.toNat := hl
      have hlt : 100 * (l.toNat - 'r'.toNat) + k + 2 < 102 := hn
      refine Char.toNat_inj.mp ?_
      omega
    exact reads_iff.mpr (.inr (.inr ⟨c, d, k, hc, hd, hk, rfl, by simp⟩))

theorem Volume.eq_of_reads (h : Volume b style name n) (hm : Reads b name m) :
    m = n ∧ n < style.limit := by
  rcases reads_iff.mp hm with ⟨t, hname, -, -, hnumber⟩ | ⟨-, hname, hnumber⟩ |
    ⟨c, d, k, hc, hd, hk, hname, hnumber⟩
  · cases h with
    | part hne hdigits hn =>
      rw [← append_cancel_left (append_cancel_left hname), leadingNumber_rar hne hdigits, hn,
        filter_eq_some_iff] at hnumber
      obtain rfl := some.inj hnumber.1
      exact ⟨rfl, by simpa [Style.limit] using hnumber.2⟩
    | rar => exact absurd hname.symm part_ne_rar
    | letter => exact absurd hname.symm part_ne_letter
  · cases h with
    | part => exact absurd hname part_ne_rar
    | rar => exact ⟨hnumber, by decide⟩
    | letter _ _ hc => exact absurd hname.symm (rar_ne_letter hc)
  · cases h with
    | part => exact absurd hname part_ne_letter
    | rar => exact absurd hname (rar_ne_letter hc)
    | letter _ _ _ _ hk' =>
      have hname := append_cancel_left hname
      simp only [cons.injEq, true_and, and_true] at hname
      obtain ⟨rfl, rfl, rfl⟩ := hname
      obtain rfl := some.inj (hk.symm.trans hk')
      have := lt_of_two_digits hk
      simp only [Style.limit]
      omega

theorem Volume.unique (hn : Volume b style name n) (hm : Volume b style name m) : n = m := by
  cases hn with
  | @part ds _ _ _ hn =>
    generalize hname : b ++ (text ".part" ++ (ds ++ text ".rar")) = name at hm
    cases hm with
    | part _ _ hm =>
      have hds := append_cancel_right (append_cancel_left (append_cancel_left hname))
      rw [hds] at hn
      exact some.inj (hn.symm.trans hm)
  | rar =>
    generalize hname : b ++ text ".rar" = name at hm
    cases hm with
    | rar => rfl
    | letter _ _ hc => exact absurd hname (rar_ne_letter hc)
  | @letter l c d k _ _ hc _ hk =>
    generalize hname : b ++ ['.', l, c, d] = name at hm
    cases hm with
    | rar => exact absurd hname.symm (rar_ne_letter hc)
    | letter _ _ _ _ hk' =>
      have hname := append_cancel_left hname
      simp only [cons.injEq, true_and, and_true] at hname
      obtain ⟨rfl, rfl, rfl⟩ := hname
      rw [some.inj (hk.symm.trans hk')]

theorem Reads.volume (h : Reads b name n) (hstray : ¬Stray b style name) :
    Volume b style name n := by
  rcases reads_iff.mp h with ⟨t, rfl, ht, hrar, hnumber⟩ | ⟨hb, rfl, rfl⟩ |
    ⟨c, d, k, hc, hd, hk, rfl, rfl⟩
  · have hvolume : ∃ n', Volume b style (b ++ (text ".part" ++ t)) n' := by
      by_contra hnone
      exact hstray (.behind ht hrar hnumber (not_exists.mp hnone))
    obtain ⟨n', hn'⟩ := hvolume
    rwa [(hn'.eq_of_reads h).1]
  · cases style with
    | parts => exact absurd (.rar hb) hstray
    | letters => exact .rar
  · cases style with
    | parts => exact absurd (.letter hc hd) hstray
    | letters =>
      have hvolume := Volume.letter (b := b) (l := 'r') (by decide) (by decide) hc hd hk
      simpa using hvolume

theorem digitVal_of_isDigit {c : Char} (h : c.isDigit = true) :
    ∃ v, Numeral.digitVal 10 c = some v := by
  have hc : '0' ≤ c ∧ c ≤ '9' := by
    simp only [Char.isDigit, ge_iff_le, Bool.and_eq_true, decide_eq_true_eq] at h
    exact ⟨h.1, h.2⟩
  have hle : c.toNat ≤ '9'.toNat := hc.2
  have hlt : c.toNat - '0'.toNat < 10 := by
    have : '9'.toNat = '0'.toNat + 9 := rfl
    omega
  exact ⟨c.toNat - '0'.toNat, by simp only [Numeral.digitVal, if_pos hc]; simpa using hlt⟩

theorem Stray.reads (h : Stray b style name) : ∃ n, Reads b name n := by
  cases h with
  | @behind _ t n ht hrar hn _ => exact ⟨n, reads_iff.mpr (.inl ⟨t, rfl, ht, hrar, hn⟩)⟩
  | rar hb => exact ⟨1, reads_iff.mpr (.inr (.inl ⟨hb, rfl, rfl⟩))⟩
  | @letter c d hc hd =>
    obtain ⟨v, hv⟩ := digitVal_of_isDigit hc
    obtain ⟨u, hu⟩ := digitVal_of_isDigit hd
    refine ⟨_, reads_letter hc hd (k := (0 * 10 + v) * 10 + u) ?_⟩
    simp [Numeral.readDigits, hv, hu]

theorem Stray.not_volume (h : Stray b style name) : ¬Volume b style name n := by
  intro hn
  cases h with
  | behind _ _ _ hnone => exact hnone n hn
  | rar =>
    generalize hname : b ++ text ".rar" = name at hn
    cases hn with
    | part => exact part_ne_rar hname.symm
  | @letter c d =>
    generalize hname : b ++ ['.', 'r', c, d] = name at hn
    cases hn with
    | part => exact part_ne_letter hname.symm

end Names

/-! ### The directory -/

section Directory

variable {e first : Entry} {n : Nat}

theorem mem_sortedByName {es : List Entry} : e ∈ sortedByName es ↔ e ∈ es :=
  (perm_insertionSort _ es).mem_iff

theorem nodup_entries (dir : Listing) : dir.entries.Nodup := .of_map _ dir.nodup

theorem mem_filesOf : e ∈ dir.filesOf ↔ e ∈ dir.entries ∧ e.isFile = true :=
  mem_sortedByName.trans mem_filter

theorem nodup_filesOf (dir : Listing) : dir.filesOf.Nodup :=
  (perm_insertionSort _ _).nodup_iff.mpr ((nodup_entries dir).filter _)

theorem mem_volumeFiles : e ∈ volumeFiles T dir first ↔
    (e ∈ dir.entries ∧ e.isFile = true) ∧ ∃ n, Reads (baseOf T first) (e.lower T) n := by
  rw [volumeFiles, mem_filter, mem_filesOf]
  simp only [Reads, Bool.and_eq_true, decide_eq_true_eq, isSome_iff_exists,
    exists_and_left]

theorem mem_seenNumbers : n ∈ seenNumbers T dir first ↔
    ∃ e ∈ dir.entries, e.isFile = true ∧ Reads (baseOf T first) (e.lower T) n := by
  rw [seenNumbers, mem_filterMap]
  constructor
  · rintro ⟨e, he, hn⟩
    obtain ⟨hmem, hfile⟩ := mem_filesOf.mp he
    split at hn
    · next hbase => exact ⟨e, hmem, hfile, hbase, hn⟩
    · cases hn
  · rintro ⟨e, hmem, hfile, hbase, hn⟩
    exact ⟨e, mem_filesOf.mpr ⟨hmem, hfile⟩, by rw [if_pos hbase, hn]⟩

theorem le_getLast {l : List Nat} (hl : l.Pairwise (· ≤ ·)) {x : Nat} (hx : x ∈ l) :
    x ≤ l.getLast?.getD 1 ∧ l.getLast?.getD 1 ∈ l := by
  obtain ⟨init, last, rfl⟩ : ∃ init last, l = init ++ [last] :=
    ⟨_, _, (dropLast_append_getLast (ne_nil_of_mem hx)).symm⟩
  have hlast : (init ++ [last]).getLast?.getD 1 = last := by simp
  rw [hlast]
  refine ⟨?_, by simp⟩
  rcases mem_append.mp hx with hx | hx
  · exact (pairwise_append.mp hl).2.2 x hx last (mem_singleton.mpr rfl)
  · exact (mem_singleton.mp hx).le

theorem pairwise_missingVolumes (T : CaseTable) (dir : Listing) (first : Entry) :
    (missingVolumes T dir first).Pairwise (· < ·) := by
  unfold missingVolumes
  simp only
  split
  · exact .nil
  · exact (pairwise_lt_range' 1).filter _

theorem mem_missingVolumes (h1 : 1 ∈ seenNumbers T dir first) : n ∈ missingVolumes T dir first ↔
    1 ≤ n ∧ n ∉ seenNumbers T dir first ∧ ∃ m ∈ seenNumbers T dir first, n < m := by
  unfold missingVolumes
  simp only
  generalize seenNumbers T dir first = seen at *
  split
  · next hlen =>
    obtain ⟨x, rfl⟩ : ∃ x, seen = [x] := by
      apply length_eq_one_iff.mp
      have := length_pos_of_mem h1
      omega
    obtain rfl := mem_singleton.mp h1
    simp
    omega
  · have hmem : ∀ x, x ∈ (seen.insertionSort (· ≤ ·)).dedup ↔ x ∈ seen := fun x => by
      rw [mem_dedup, (perm_insertionSort _ seen).mem_iff]
    have hsorted : (seen.insertionSort (· ≤ ·)).dedup.Pairwise (· ≤ ·) :=
      (pairwise_insertionSort (· ≤ ·) seen).sublist (dedup_sublist _)
    have hlast := fun x hx => le_getLast hsorted ((hmem x).mpr hx)
    rw [mem_filter, mem_range'_1, decide_eq_true_eq, hmem]
    constructor
    · rintro ⟨⟨hle, hlt⟩, hnot⟩
      refine ⟨hle, hnot, _, (hmem _).mp (hlast 1 h1).2, ?_⟩
      have hne : n ≠ (seen.insertionSort (· ≤ ·)).dedup.getLast?.getD 1 := fun h =>
        hnot (h ▸ (hmem _).mp (hlast 1 h1).2)
      omega
    · rintro ⟨hle, hnot, m, hm, hlt⟩
      have := (hlast m hm).1
      exact ⟨⟨hle, by omega⟩, hnot⟩

theorem mem_detectArchives {p : Entry × ArchiveKind} : p ∈ detectArchives T dir ↔
    p.1 ∈ dir.entries ∧ archiveKind (p.1.lower T) = some p.2 := by
  rw [detectArchives, mem_filterMap]
  constructor
  · rintro ⟨e, he, hp⟩
    obtain ⟨kind, hkind, rfl⟩ := map_eq_some_iff.mp hp
    exact ⟨mem_sortedByName.mp he, hkind⟩
  · rintro ⟨he, hkind⟩
    exact ⟨p.1, mem_sortedByName.mpr he, by rw [hkind]; rfl⟩

theorem nodup_detectArchives (T : CaseTable) (dir : Listing) : (detectArchives T dir).Nodup := by
  have hnodup : (sortedByName dir.entries).Nodup :=
    (perm_insertionSort _ _).nodup_iff.mpr (nodup_entries dir)
  refine List.Nodup.filterMap (fun a b p ha hb => ?_) hnodup
  obtain ⟨_, -, rfl⟩ := map_eq_some_iff.mp ha
  obtain ⟨_, -, hb⟩ := map_eq_some_iff.mp hb
  exact (congrArg Prod.fst hb).symm

end Directory

/-! ### What is detected -/

section Detected

variable {b name : Text} {n : Nat} {style : Style} {kind : ArchiveKind}

theorem splitLast_part {ds : Text} (hdigits : ∀ c ∈ ds, c.isDigit = true) :
    splitLast (text ".part") (b ++ (text ".part" ++ (ds ++ text ".rar"))) =
      some (b, ds ++ text ".rar") := by
  have hdot : '.' ∉ ds := fun h => by
    have := hdigits _ h
    revert this
    decide
  exact (splitLast_eq_some (by decide)).mpr ⟨rfl, rfind_append_of_not_mem hdot (by decide)⟩

theorem archiveKind_part {ds : Text} (hne : ds ≠ []) (hdigits : ∀ c ∈ ds, c.isDigit = true) :
    archiveKind (b ++ (text ".part" ++ (ds ++ text ".rar"))) =
      if ((Numeral.readDigits 10 0 ds).filter (· < 2 ^ 32)).any (· ≠ 1) then none else some .rar := by
  have hend : endsWith (b ++ (text ".part" ++ (ds ++ text ".rar"))) (text ".rar") = true :=
    endsWith_behind.mpr (suffix_append _ _)
  rw [archiveKind, hend, if_pos rfl, splitLast_part hdigits]
  simp only [leadingNumber_rar hne hdigits]

theorem archiveKind_letter {l c d : Char} (hl : 'r' ≤ l) (hd : d.isDigit = true) :
    archiveKind (b ++ ['.', l, c, d]) = none := by
  have hzip : ∀ pat : Text, pat.getLast? ≠ some d → pat ≠ [] →
      endsWith (b ++ ['.', l, c, d]) pat = false := by
    intro pat hpat hne
    rw [Bool.eq_false_iff, ne_eq, endsWith_iff]
    rintro ⟨r, hr⟩
    have hlast := congrArg getLast? hr
    rw [getLast?_append_of_ne_nil _ hne] at hlast
    exact hpat (by simpa using hlast)
  have hlast : ∀ x : Char, x.isDigit = false → x ≠ d := fun x hx h => by
    rw [h, hd] at hx
    cases hx
  have hsplit : endsWith (b ++ ['.', l, c, d]) (text ".001") = false := by
    rw [Bool.eq_false_iff, ne_eq, endsWith_iff]
    rintro ⟨r, hr⟩
    have hl' : '0' = l := by
      have := (append_inj_right' hr rfl)
      simp [text] at this
      exact this.1
    rw [← hl'] at hl
    revert hl
    decide
  rw [archiveKind, not_endsWith_letter b hd,
    hzip (text ".7z") (by simpa [text] using hlast 'z' (by decide)) (by decide),
    hzip (text ".zip") (by simpa [text] using hlast 'p' (by decide)) (by decide), hsplit]
  rfl

theorem archiveKind_one (h : Volume b style name 1)
    (hclean : style = .letters → rfind (text ".part") b = none) : archiveKind name = some .rar := by
  generalize hn : 1 = n at h
  cases h with
  | part hne hdigits hread =>
    rw [archiveKind_part hne hdigits, hread, ← hn]
    rfl
  | rar =>
    have hend : endsWith (b ++ text ".rar") (text ".rar") = true :=
      endsWith_iff.mpr (suffix_append b _)
    have hpart : splitLast (text ".part") (b ++ text ".rar") = none :=
      map_eq_none_iff.mpr (rfind_append_rar.mpr (hclean rfl))
    rw [archiveKind, hend, if_pos rfl, hpart]
  | letter => omega

theorem one_of_archiveKind (h : Volume b style name n) (hlimit : style = .parts → n < 2 ^ 32)
    (hkind : archiveKind name = some kind) : n = 1 ∧ kind = .rar := by
  cases h with
  | part hne hdigits hread =>
    rw [archiveKind_part hne hdigits, hread,
      show Option.filter (fun x => decide (x < 2 ^ 32)) (some n) = some n by simpa using hlimit rfl] at hkind
    split at hkind
    · cases hkind
    · next hone =>
      exact ⟨by simpa using hone, (some.inj hkind).symm⟩
  | rar =>
    have hend : endsWith (b ++ text ".rar") (text ".rar") = true :=
      endsWith_iff.mpr (suffix_append b _)
    refine ⟨rfl, ?_⟩
    rw [archiveKind, hend, if_pos rfl] at hkind
    split at hkind
    · split at hkind
      · cases hkind
      · exact (some.inj hkind).symm
    · exact (some.inj hkind).symm
  | letter hl _ _ hd =>
    rw [archiveKind_letter hl hd] at hkind
    cases hkind

theorem archiveKind_large (h : Volume b .parts name n) (hn : 2 ^ 32 ≤ n) :
    archiveKind name = some .rar := by
  cases h with
  | part hne hdigits hread =>
    rw [archiveKind_part hne hdigits, hread,
      show Option.filter (fun x => decide (x < 2 ^ 32)) (some n) = none by simpa using hn]
    rfl

theorem Volume.eq_rar (h : Volume b .letters name 1) : name = b ++ text ".rar" := by
  generalize hn : 1 = n at h
  cases h with
  | rar => rfl
  | letter => omega

theorem Volume.setBase_eq (h : Volume b .letters name n) (hn : n ≠ 1) : setBase name = some b := by
  cases h with
  | rar => exact absurd rfl hn
  | letter hl hz hc hd _ =>
    have hdot : ∀ l : Char, 'r' ≤ l → l ≠ '.' := fun l hl h => by
      rw [h] at hl
      revert hl
      decide
    rw [setBase_of_not_rar (not_endsWith_letter b hd), splitLast_letter b (hdot _ hl) hc hd]
    rfl

end Detected

/-! ### The extraction -/

section Extract

variable {first : Entry} {w : Tools} {k bytes n : Nat}

theorem unpackShortfall_eq (hset : volumeSet T dir first = (k, bytes)) (hk : 2 ≤ k) :
    unpackShortfall T dir first n = decide (n < bytes / 10 * 9) := by
  unfold unpackShortfall
  rw [hset]
  simp only
  split
  · next h =>
    obtain rfl : bytes = 0 := h.resolve_left (by omega)
    simp
  · rfl

theorem delivered_iff (hset : volumeSet T dir first = (k, bytes)) (hk : 2 ≤ k) {a : Attempt} :
    delivered T dir first a = true ↔
      ∃ o, a.outcome = .ok o ∧ o.success = true ∧ bytes / 10 * 9 ≤ a.extracted := by
  unfold delivered
  rw [unpackShortfall_eq hset hk]
  cases a.outcome with
  | error e => simp
  | ok o => simp

theorem report_eq {a : Attempt} {o : ExtractOutcome} :
    a.report = .ok (o, n) ↔ a.outcome = .ok o ∧ a.extracted = n := by
  unfold Attempt.report
  cases a.outcome <;> simp

/-- **What is reported as a success is nine tenths**, just if the tools are honest. -/
theorem extract_iff (hset : volumeSet T dir first = (k, bytes)) (hk : 2 ≤ k) :
    (∀ o n, extract T w dir first .rar = .ok (o, n) → o.success = true → 9 * bytes ≤ 10 * n) ↔
      w.Honest bytes := by
  have hfloor : 10 * (bytes / 10 * 9) ≤ 9 * bytes := by omega
  constructor
  · intro h
    refine ⟨fun hcreated o ho hsuccess => ?_, fun hcreated hfirst hrecreated o ho hsuccess => ?_⟩
    · by_cases hdelivered : bytes / 10 * 9 ≤ w.first.extracted
      · have hextract : extract T w dir first .rar = .ok (o, w.first.extracted) := by
          have hd := (delivered_iff hset hk).mpr ⟨o, ho, hsuccess, hdelivered⟩
          simp [extract, hcreated, hd, report_eq, ho]
        have := h o _ hextract hsuccess
        exact ⟨fun hrounded => by have := hrounded.2; omega, fun _ => hdelivered⟩
      · refine ⟨fun hrounded => hdelivered hrounded.1, fun hpassword => ?_⟩
        have hd : delivered T dir first w.first = false := by
          rw [Bool.eq_false_iff, ne_eq, delivered_iff hset hk]
          rintro ⟨_, -, -, hle⟩
          exact hdelivered hle
        have hextract : extract T w dir first .rar = .ok (o, w.first.extracted) := by
          simp [extract, hcreated, hd, report_eq, ho, hpassword, Except.toOption]
        have := h o _ hextract hsuccess
        omega
    · intro hrounded
      have hd : delivered T dir first w.first = false := by
        rw [Bool.eq_false_iff, ne_eq, delivered_iff hset hk]
        rintro ⟨o', ho', hsuccess', hle⟩
        exact (hfirst o' ho').2 ⟨hsuccess', hle⟩
      have hpassword : w.first.outcome.toOption.any (·.passwordError) = false := by
        cases ho' : w.first.outcome with
        | error e => rfl
        | ok o' => exact (hfirst o' ho').1
      have hd' := (delivered_iff hset hk).mpr ⟨o, ho, hsuccess, hrounded.1⟩
      have hextract : extract T w dir first .rar = .ok (o, w.second.extracted) := by
        simp [extract, hcreated, hd, hpassword, hrecreated, hd', report_eq, ho]
      have := h o _ hextract hsuccess
      have := hrounded.2
      omega
  · intro hw o n hextract hsuccess
    unfold extract at hextract
    split at hextract
    · cases hextract
    · next hcreated =>
      rw [Bool.not_eq_false] at hcreated
      simp only [ne_eq, not_true_eq_false, if_false] at hextract
      split at hextract
      · next hd =>
        obtain ⟨ho, rfl⟩ := report_eq.mp hextract
        obtain ⟨_, -, -, hle⟩ := (delivered_iff hset hk).mp hd
        have hnot := (hw.first hcreated o ho hsuccess).1
        by_contra hlt
        exact hnot ⟨hle, by omega⟩
      · next hd =>
        split at hextract
        · next hpassword =>
          obtain ⟨ho, rfl⟩ := report_eq.mp hextract
          rw [ho] at hpassword
          have hle := (hw.first hcreated o ho hsuccess).2 hpassword
          exact absurd ((delivered_iff hset hk).mpr ⟨o, ho, hsuccess, hle⟩) hd
        · next hpassword =>
          split at hextract
          · cases hextract
          · next hrecreated =>
            rw [Bool.not_eq_false] at hrecreated
            split at hextract
            · next hd' =>
              obtain ⟨ho, rfl⟩ := report_eq.mp hextract
              obtain ⟨_, -, -, hle⟩ := (delivered_iff hset hk).mp hd'
              have hfirst : ∀ o', w.first.outcome = .ok o' → o'.passwordError = false ∧
                  ¬(o'.success = true ∧ bytes / 10 * 9 ≤ w.first.extracted) := by
                intro o' ho'
                rw [ho'] at hpassword
                exact ⟨by simpa [Except.toOption] using hpassword,
                  fun h => hd ((delivered_iff hset hk).mpr ⟨o', ho', h⟩)⟩
              have hnot := hw.second hcreated hfirst hrecreated o ho hsuccess
              by_contra hlt
              exact hnot ⟨hle, by omega⟩
            · split at hextract
              · cases hextract
                cases hsuccess
              · cases hextract
                cases hsuccess
              · cases hextract

end Extract

/-! ### The set -/

namespace VolumeSet

variable {s : VolumeSet T dir} {w : Tools} {e : Entry} {n : Nat}

theorem mem_volumes : e ∈ s.volumes ↔ (e ∈ dir.entries ∧ e.isFile = true) ∧ s.Has e := by
  classical
  rw [volumes, mem_filter, decide_eq_true_eq, and_assoc]

theorem two_le_length : 2 ≤ s.volumes.length := by
  classical
  obtain ⟨e, he, hfile, hhas, hne⟩ := s.several
  have hfirst : s.first ∈ s.volumes := mem_volumes.mpr ⟨⟨s.mem, s.isFile⟩, 1, s.named⟩
  have hother : e ∈ s.volumes := mem_volumes.mpr ⟨⟨he, hfile⟩, hhas⟩
  have hsub : [e, s.first] ⊆ s.volumes := by
    intro x hx
    simp only [mem_cons, not_mem_nil, or_false] at hx
    rcases hx with rfl | rfl
    · exact hother
    · exact hfirst
  have hnodup : [e, s.first].Nodup := by simp [hne]
  exact (hnodup.subperm hsub).length_le

theorem volumeSet_eq (h : ∀ e, e ∈ volumeFiles T dir s.first ↔ e ∈ s.volumes) :
    volumeSet T dir s.first = (s.volumes.length, s.bytes) := by
  classical
  have hperm : (volumeFiles T dir s.first).Perm s.volumes :=
    (perm_ext_iff_of_nodup ((nodup_filesOf dir).filter _)
      ((nodup_entries dir).filter _)).mpr h
  rw [volumeSet, hperm.length_eq, (hperm.map Entry.size).sum_nat]
  rfl

theorem Agree.only (h : s.Agree w) (he : e ∈ dir.entries) (h1 : Volume s.base s.style (e.lower T) 1) :
    e = s.first := by
  have hfirst := (mem_detectArchives.mp ((h.detected.2 (s.first, .rar)).mpr rfl).1).2
  have hkind : archiveKind (e.lower T) = some .rar := by
    cases hstyle : s.style with
    | parts => exact archiveKind_one h1 fun hs => by rw [hstyle] at hs; cases hs
    | letters =>
      have hname := s.named
      rw [hstyle] at h1 hname
      rw [h1.eq_rar, ← hname.eq_rar]
      exact hfirst
  exact congrArg Prod.fst ((h.detected.2 (e, .rar)).mp ⟨mem_detectArchives.mpr ⟨he, hkind⟩, 1, h1⟩)

theorem setBase_of_named (h : s.style = .letters → rfind (text ".part") s.base = none) :
    baseOf T s.first = s.base := by
  have hlimit : 1 < s.style.limit := by cases s.style <;> decide
  rw [baseOf, (s.named.reads hlimit h).1]
  rfl

theorem Agree.baseOf_eq (h : s.Agree w) : baseOf T s.first = s.base := by
  cases hstyle : s.style with
  | parts => exact setBase_of_named fun hs => by rw [hstyle] at hs; cases hs
  | letters =>
    obtain ⟨e, he, hfile, ⟨n, hn⟩, hne⟩ := s.several
    have hn1 : n ≠ 1 := fun h1 => hne (h.only he (h1 ▸ hn))
    obtain ⟨-, m, hm⟩ :=
      mem_volumeFiles.mp ((h.counted.1 e).mpr (mem_volumes.mpr ⟨⟨he, hfile⟩, n, hn⟩))
    rw [hstyle] at hn
    exact some.inj (hm.1.symm.trans (hn.setBase_eq hn1))

theorem Agree.reads (h : s.Agree w) (he : e ∈ dir.entries) (hfile : e.isFile = true) :
    (∃ m, Reads s.base (e.lower T) m) ↔ s.Has e := by
  have hcounted := h.counted.1 e
  rw [mem_volumeFiles, mem_volumes, h.baseOf_eq] at hcounted
  simpa [he, hfile] using hcounted

theorem Agree.plain (h : s.Agree w) : s.Plain where
  only e he := h.only he
  numbers e he n hn hstyle := by
    by_cases hfile : e.isFile = true
    · obtain ⟨m, hm⟩ := (h.reads he hfile).mpr ⟨n, hn⟩
      exact (hn.eq_of_reads hm).2
    · have hparts := hstyle.resolve_right hfile
      rw [hparts]
      by_contra hlarge
      have hkind := archiveKind_large (hparts ▸ hn) (not_lt.mp hlarge)
      have heq := congrArg Prod.fst
        ((h.detected.2 (e, .rar)).mp ⟨mem_detectArchives.mpr ⟨he, hkind⟩, n, hn⟩)
      exact hfile ((congrArg Entry.isFile heq).trans s.isFile)
  clean hletters := by
    obtain ⟨m, hm⟩ := (h.reads s.mem s.isFile).mpr ⟨1, s.named⟩
    have hname := s.named
    rw [hletters] at hname
    rw [hname.eq_rar] at hm
    rcases reads_iff.mp hm with ⟨t, heq, -⟩ | ⟨hclean, -⟩ | ⟨c, d, k, hc, -, -, heq, -⟩
    · exact absurd heq.symm part_ne_rar
    · exact hclean
    · exact absurd heq (rar_ne_letter hc)
  strays e he hfile hstray := by
    obtain ⟨n, hn⟩ := (h.reads he hfile).mp hstray.reads
    exact hstray.not_volume hn

theorem Plain.reads_iff (h : s.Plain) (he : e ∈ dir.entries) (hfile : e.isFile = true) :
    Reads s.base (e.lower T) n ↔ Volume s.base s.style (e.lower T) n := by
  constructor
  · exact fun hreads => hreads.volume (h.strays e he hfile)
  · exact fun hvolume => hvolume.reads (h.numbers e he n hvolume (.inr hfile)) h.clean

theorem Plain.counted (h : s.Plain) : e ∈ volumeFiles T dir s.first ↔ e ∈ s.volumes := by
  rw [mem_volumeFiles, mem_volumes, setBase_of_named h.clean]
  refine and_congr_right fun hfile => exists_congr fun n => ?_
  exact h.reads_iff hfile.1 hfile.2

theorem Plain.detected (h : s.Plain) (p : Entry × ArchiveKind) :
    p ∈ detectArchives T dir ∧ s.Has p.1 ↔ p = (s.first, .rar) := by
  constructor
  · rintro ⟨hp, n, hn⟩
    obtain ⟨hmem, hkind⟩ := mem_detectArchives.mp hp
    obtain ⟨rfl, hrar⟩ := one_of_archiveKind hn (fun hparts => by
      have := h.numbers p.1 hmem n hn (.inl hparts)
      rwa [hparts] at this) hkind
    exact Prod.ext (h.only p.1 hmem hn) hrar
  · rintro rfl
    exact ⟨mem_detectArchives.mpr ⟨s.mem, archiveKind_one s.named h.clean⟩, 1, s.named⟩

theorem Plain.mem_seen (h : s.Plain) : n ∈ seenNumbers T dir s.first ↔
    ∃ e ∈ s.volumes, Volume s.base s.style (e.lower T) n := by
  rw [mem_seenNumbers, setBase_of_named h.clean]
  constructor
  · rintro ⟨e, he, hfile, hn⟩
    have hn := (h.reads_iff he hfile).mp hn
    exact ⟨e, mem_volumes.mpr ⟨⟨he, hfile⟩, n, hn⟩, hn⟩
  · rintro ⟨e, he, hn⟩
    obtain ⟨⟨hmem, hfile⟩, -⟩ := mem_volumes.mp he
    exact ⟨e, hmem, hfile, (h.reads_iff hmem hfile).mpr hn⟩

theorem Plain.missing (h : s.Plain) : n ∈ missingVolumes T dir s.first ↔ 1 ≤ n ∧
    (∀ e ∈ s.volumes, ¬Volume s.base s.style (e.lower T) n) ∧
    ∃ e ∈ s.volumes, ∃ m, n < m ∧ Volume s.base s.style (e.lower T) m := by
  have h1 : 1 ∈ seenNumbers T dir s.first :=
    h.mem_seen.mpr ⟨s.first, mem_volumes.mpr ⟨⟨s.mem, s.isFile⟩, 1, s.named⟩, s.named⟩
  rw [mem_missingVolumes h1, h.mem_seen]
  refine and_congr_right fun _ => and_congr ?_ ?_
  · simp only [not_exists, not_and]
  · constructor
    · rintro ⟨m, hm, hlt⟩
      obtain ⟨e, he, hm⟩ := h.mem_seen.mp hm
      exact ⟨e, he, m, hlt, hm⟩
    · rintro ⟨e, he, m, hlt, hm⟩
      exact ⟨m, h.mem_seen.mpr ⟨e, he, hm⟩, hlt⟩

/-- **The four functions know a set for what it is just if its names are plain** and the tools
honest. -/
theorem agree_iff (s : VolumeSet T dir) (w : Tools) : s.Agree w ↔ s.Plain ∧ w.Honest s.bytes := by
  constructor
  · intro h
    exact ⟨h.plain, (extract_iff h.counted.2 two_le_length).mp h.extracted⟩
  · rintro ⟨hplain, hhonest⟩
    have hset := volumeSet_eq fun e => hplain.counted (e := e)
    exact {
      detected := ⟨nodup_detectArchives T dir, hplain.detected⟩
      counted := ⟨fun _ => hplain.counted, hset⟩
      missing := ⟨pairwise_missingVolumes T dir s.first, fun _ => hplain.missing⟩
      extracted := (extract_iff hset two_le_length).mpr hhonest }

end VolumeSet

/-! ### A set that goes past `.r99` -/

def lateVolume : Entry := ⟨Utf8.ascii "a.s00", true, 100⟩

def lateListing : Listing where
  entries := [⟨Utf8.ascii "a.rar", true, 100⟩, ⟨Utf8.ascii "a.r00", true, 100⟩, lateVolume]
  nodup := by decide +kernel

theorem volume_late : Volume (text "a") .letters (lateVolume.lower .ascii) 102 := by
  have hname : lateVolume.lower .ascii = text "a" ++ ['.', 's', '0', '0'] := by decide +kernel
  rw [hname]
  exact .letter (n := 0) (by decide) (by decide) (by decide) (by decide) (by decide)

def lateSet : VolumeSet .ascii lateListing where
  base := text "a"
  style := .letters
  first := ⟨Utf8.ascii "a.rar", true, 100⟩
  mem := by decide +kernel
  isFile := rfl
  named := by
    have hname : Entry.lower .ascii ⟨Utf8.ascii "a.rar", true, 100⟩ = text "a" ++ text ".rar" := by
      decide +kernel
    rw [hname]
    exact .rar
  several := ⟨lateVolume, by decide +kernel, rfl, ⟨102, volume_late⟩, by decide +kernel⟩

/-- **The volume after `.r99` is not counted.** -/
theorem letter_not_counted :
    ¬∀ (T : CaseTable) (dir : Listing) (s : VolumeSet T dir) (w : Tools), s.Agree w := by
  intro h
  have hagree := h .ascii lateListing lateSet ⟨false, ⟨.error .io, 0⟩, false, ⟨.error .io, 0⟩⟩
  have hmem : lateVolume ∈ lateSet.volumes :=
    VolumeSet.mem_volumes.mpr ⟨⟨by decide +kernel, rfl⟩, 102, volume_late⟩
  have hnot : lateVolume ∉ volumeFiles .ascii lateListing lateSet.first := by decide +kernel
  exact hnot ((hagree.counted.1 lateVolume).mpr hmem)

end Nzbd.Post.Volumes
