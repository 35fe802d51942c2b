import Nzbd.Lib.Utf8

/-!
# Text by the offsets of its bytes

A `slice` of a text is taken from one byte to another.  There is none where an offset is behind the
end or inside of a character.  Between the parts of a text there always is one (`slice_append`).
-/

namespace Utf8

def byteLen (s : List Char) : Nat := (toUtf8 s).length

/-- What is left behind so many bytes. -/
def dropBytes : Nat → List Char → Option (List Char)
  | n, [] => if n = 0 then some [] else none
  | n, c :: s =>
    if n = 0 then some (c :: s)
    else if c.utf8Size ≤ n then dropBytes (n - c.utf8Size) s
    else none

/-- So many bytes. -/
def takeBytes : Nat → List Char → Option (List Char)
  | n, [] => if n = 0 then some [] else none
  | n, c :: s =>
    if n = 0 then some []
    else if c.utf8Size ≤ n then (takeBytes (n - c.utf8Size) s).map (c :: ·)
    else none

def slice (s : List Char) (i j : Nat) : Option (List Char) :=
  if i ≤ j then (takeBytes j s).bind (dropBytes i) else none

/-- Where the first such character starts. -/
def findByte (c : Char) : List Char → Option Nat
  | [] => none
  | d :: s => if d = c then some 0 else (findByte c s).map (d.utf8Size + ·)

variable {s t : List Char} {c : Char} {n : Nat}

@[simp] theorem byteLen_nil : byteLen [] = 0 := rfl

@[simp] theorem byteLen_cons (c : Char) (s : List Char) :
    byteLen (c :: s) = c.utf8Size + byteLen s := by
  rw [byteLen, toUtf8, List.flatMap_cons, List.length_append, String.length_utf8EncodeChar]
  rfl

@[simp] theorem byteLen_append (s t : List Char) : byteLen (s ++ t) = byteLen s + byteLen t := by
  rw [byteLen, toUtf8, List.flatMap_append, List.length_append]
  rfl

@[simp] theorem dropBytes_zero (s : List Char) : dropBytes 0 s = some s := by
  cases s with
  | nil => rfl
  | cons c s => rfl

@[simp] theorem takeBytes_zero (s : List Char) : takeBytes 0 s = some [] := by
  cases s with
  | nil => rfl
  | cons c s => rfl

theorem takeBytes_cons_size (c : Char) (s : List Char) (n : Nat) :
    takeBytes (c.utf8Size + n) (c :: s) = (takeBytes n s).map (c :: ·) := by
  have hpos := c.utf8Size_pos
  rw [takeBytes, if_neg (by omega), if_pos (by omega), Nat.add_sub_cancel_left]

theorem dropBytes_append (s t : List Char) : dropBytes (byteLen s) (s ++ t) = some t := by
  induction s with
  | nil => exact dropBytes_zero t
  | cons c s ih =>
    have hpos := c.utf8Size_pos
    rw [List.cons_append, byteLen_cons, dropBytes, if_neg (by omega), if_pos (by omega),
      Nat.add_sub_cancel_left, ih]

theorem takeBytes_append (s t : List Char) (n : Nat) :
    takeBytes (byteLen s + n) (s ++ t) = (takeBytes n t).map (s ++ ·) := by
  induction s with
  | nil =>
    rw [byteLen_nil, Nat.zero_add]
    exact (Option.map_id' ..).symm
  | cons c s ih =>
    rw [List.cons_append, byteLen_cons, Nat.add_assoc, takeBytes_cons_size, ih, Option.map_map]
    rfl

/-- **A slice from the end of a part** is what can be taken of the rest. -/
theorem slice_append (s t : List Char) (n : Nat) :
    slice (s ++ t) (byteLen s) (byteLen s + n) = takeBytes n t := by
  rw [slice, if_pos (by omega), takeBytes_append]
  cases takeBytes n t with
  | none => rfl
  | some u => exact dropBytes_append s u

theorem slice_middle (s t u : List Char) :
    slice (s ++ t ++ u) (byteLen s) (byteLen s + byteLen t) = some t := by
  have htake := takeBytes_append t u 0
  rw [takeBytes_zero, Nat.add_zero] at htake
  rw [List.append_assoc, slice_append, htake]
  simp

theorem findByte_eq_some (h : findByte c s = some n) :
    ∃ a b, s = a ++ c :: b ∧ c ∉ a ∧ n = byteLen a := by
  induction s generalizing n with
  | nil => cases h
  | cons d s ih =>
    rw [findByte] at h
    split_ifs at h with hd
    · exact ⟨[], s, by rw [hd]; rfl, List.not_mem_nil, (Option.some.inj h).symm⟩
    · obtain ⟨m, hm, rfl⟩ := Option.map_eq_some_iff.mp h
      obtain ⟨a, b, rfl, ha, rfl⟩ := ih hm
      refine ⟨d :: a, b, rfl, fun hmem => ?_, (byteLen_cons d a).symm⟩
      rcases List.mem_cons.mp hmem with heq | hmem
      · exact hd heq.symm
      · exact ha hmem

theorem findByte_eq_none (h : findByte c s = none) : c ∉ s := by
  induction s with
  | nil => exact List.not_mem_nil
  | cons d s ih =>
    rw [findByte] at h
    split_ifs at h with hd
    intro hmem
    rcases List.mem_cons.mp hmem with heq | hmem
    · exact hd heq.symm
    · exact ih (Option.map_eq_none_iff.mp h) hmem

theorem getElem?_toUtf8_append (s t : List Char) (k : Nat) :
    (toUtf8 (s ++ t))[byteLen s + k]? = (toUtf8 t)[k]? := by
  have hle : (toUtf8 s).length ≤ byteLen s + k := Nat.le_add_right _ _
  have happend : toUtf8 (s ++ t) = toUtf8 s ++ toUtf8 t := List.flatMap_append
  rw [happend, List.getElem?_append_right hle]
  exact congrArg _ (Nat.add_sub_cancel_left _ _)

theorem utf8Size_eq_one_iff : c.utf8Size = 1 ↔ c.toNat < 0x80 := by
  rw [Char.utf8Size_eq_one_iff, UInt32.le_iff_toNat_le]
  exact Nat.lt_succ_iff.symm

end Utf8
