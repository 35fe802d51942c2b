import Nzbd.Lib.Numeral
import Nzbd.Lib.Scanner

/-!
# Bencode

Values with their encoding: integers, byte strings with their length in front, lists and
dictionaries.  A reader that does not care for the canonical form takes more: zeros before a
length, any bytes in an integer, keys in any order.  `IsValue n` is for the texts such a reader
takes when there are `n` levels left, and the encoding of a value of no more levels is one of
them (`isValue_encode`).
-/

namespace Bencode

open Numeral (dec isDigit showInt)
open Scanner (Steps)

inductive Value
  | int (i : Int)
  | str (s : List UInt8)
  | list (l : List Value)
  | dict (d : List (List UInt8 × Value))

/-- A byte string: its length, a colon and the bytes. -/
def string (s : List UInt8) : List UInt8 := dec s.length ++ 0x3A :: s

namespace Value

mutual

def encode : Value → List UInt8
  | int i => 0x69 :: (Numeral.bytes (showInt i) ++ [0x65])
  | str s => string s
  | list l => 0x6C :: (encodeList l ++ [0x65])
  | dict d => 0x64 :: (encodeEntries d ++ [0x65])

def encodeList : List Value → List UInt8
  | [] => []
  | v :: l => encode v ++ encodeList l

def encodeEntries : List (List UInt8 × Value) → List UInt8
  | [] => []
  | (k, v) :: d => string k ++ encode v ++ encodeEntries d

end

mutual

/-- How many levels are below a value. -/
def height : Value → Nat
  | int _ => 0
  | str _ => 0
  | list l => heightList l
  | dict d => heightEntries d

def heightList : List Value → Nat
  | [] => 0
  | v :: l => max (height v + 1) (heightList l)

def heightEntries : List (List UInt8 × Value) → Nat
  | [] => 0
  | (_, v) :: d => max (height v + 1) (heightEntries d)

end

end Value

/-! ### What a reader takes -/

/-- Digits as a number. -/
def number (ds : List UInt8) : Nat := ds.foldl (fun n b => n * 10 + (b - 0x30).toNat) 0

def IsString (s t : List UInt8) : Prop :=
  ∃ ds, ds ≠ [] ∧ (∀ b ∈ ds, isDigit b = true) ∧ number ds = s.length ∧ t = ds ++ 0x3A :: s

def IsInt (t : List UInt8) : Prop := ∃ body, body ≠ [] ∧ (0x65 : UInt8) ∉ body ∧ t = 0x69 :: (body ++ [0x65])

/-- A key and what comes with it. -/
def IsEntry (s : List UInt8) (P : List UInt8 → Prop) (t : List UInt8) : Prop :=
  ∃ k u, t = k ++ u ∧ IsString s k ∧ P u

/-- A value with at most `n` levels. -/
def IsValue : Nat → List UInt8 → Prop
  | 0, _ => False
  | n + 1, t =>
    IsInt t ∨ (∃ s, IsString s t) ∨
    (∃ u, Steps (fun _ _ x => IsValue n x) () () u ∧ t = 0x6C :: (u ++ [0x65])) ∨
    ∃ u, Steps (fun _ _ x => ∃ s, IsEntry s (IsValue n) x) () () u ∧ t = 0x64 :: (u ++ [0x65])

theorem IsString.cons {s t : List UInt8} (h : IsString s t) : ∃ b r, t = b :: r ∧ isDigit b = true := by
  obtain ⟨ds, hne, hdigits, -, rfl⟩ := h
  obtain ⟨b, ds, rfl⟩ := List.exists_cons_of_ne_nil hne
  exact ⟨b, _, rfl, hdigits b List.mem_cons_self⟩

theorem IsEntry.ne_end {s t : List UInt8} {P : List UInt8 → Prop} (h : IsEntry s P t) :
    ∃ b r, t = b :: r ∧ b ≠ 0x65 := by
  obtain ⟨k, u, rfl, hk, -⟩ := h
  obtain ⟨b, r, rfl, hb⟩ := hk.cons
  refine ⟨b, r ++ u, rfl, ?_⟩
  rintro rfl
  cases hb

/-! The first byte tells the kinds apart. -/

theorem not_isValue_nil (n : Nat) : ¬IsValue n [] := by
  cases n with
  | zero => exact id
  | succ n =>
    rintro (⟨body, -, -, h⟩ | ⟨s, h⟩ | ⟨u, -, h⟩ | ⟨u, -, h⟩)
    · cases h
    · obtain ⟨b, r, h, -⟩ := h.cons
      cases h
    · cases h
    · cases h

theorem isValue_int {n : Nat} {t : List UInt8} : IsValue (n + 1) (0x69 :: t) ↔
    ∃ body, body ≠ [] ∧ (0x65 : UInt8) ∉ body ∧ t = body ++ [0x65] := by
  refine ⟨?_, fun ⟨body, hne, hend, h⟩ => .inl ⟨body, hne, hend, congrArg _ h⟩⟩
  rintro (⟨body, hne, hend, h⟩ | ⟨s, h⟩ | ⟨u, -, h⟩ | ⟨u, -, h⟩)
  · exact ⟨body, hne, hend, (List.cons.inj h).2⟩
  · obtain ⟨b, r, h, hb⟩ := h.cons
    cases h
    cases hb
  · cases h
  · cases h

theorem isValue_list {n : Nat} {t : List UInt8} : IsValue (n + 1) (0x6C :: t) ↔
    ∃ u, Steps (fun _ _ x => IsValue n x) () () u ∧ t = u ++ [0x65] := by
  refine ⟨?_, fun ⟨u, hu, h⟩ => .inr (.inr (.inl ⟨u, hu, congrArg _ h⟩))⟩
  rintro (⟨body, -, -, h⟩ | ⟨s, h⟩ | ⟨u, hu, h⟩ | ⟨u, -, h⟩)
  · cases h
  · obtain ⟨b, r, h, hb⟩ := h.cons
    cases h
    cases hb
  · exact ⟨u, hu, (List.cons.inj h).2⟩
  · cases h

theorem isValue_dict {n : Nat} {t : List UInt8} : IsValue (n + 1) (0x64 :: t) ↔
    ∃ u, Steps (fun _ _ x => ∃ s, IsEntry s (IsValue n) x) () () u ∧ t = u ++ [0x65] := by
  refine ⟨?_, fun ⟨u, hu, h⟩ => .inr (.inr (.inr ⟨u, hu, congrArg _ h⟩))⟩
  rintro (⟨body, -, -, h⟩ | ⟨s, h⟩ | ⟨u, -, h⟩ | ⟨u, hu, h⟩)
  · cases h
  · obtain ⟨b, r, h, hb⟩ := h.cons
    cases h
    cases hb
  · cases h
  · exact ⟨u, hu, (List.cons.inj h).2⟩

theorem isValue_string {n : Nat} {b : UInt8} {t : List UInt8} (hi : b ≠ 0x69) (hl : b ≠ 0x6C)
    (hd : b ≠ 0x64) : IsValue (n + 1) (b :: t) ↔ ∃ s, IsString s (b :: t) := by
  refine ⟨?_, fun h => .inr (.inl h)⟩
  rintro (⟨body, -, -, h⟩ | h | ⟨u, -, h⟩ | ⟨u, -, h⟩)
  · exact absurd (List.cons.inj h).1 hi
  · exact h
  · exact absurd (List.cons.inj h).1 hl
  · exact absurd (List.cons.inj h).1 hd

theorem IsValue.ne_end {n : Nat} {t : List UInt8} (h : IsValue n t) : ∃ b r, t = b :: r ∧ b ≠ 0x65 := by
  cases n with
  | zero => exact h.elim
  | succ n =>
    rcases h with ⟨body, -, -, rfl⟩ | ⟨s, h⟩ | ⟨u, -, rfl⟩ | ⟨u, -, rfl⟩
    · exact ⟨0x69, _, rfl, by decide⟩
    · obtain ⟨b, r, rfl, hb⟩ := h.cons
      exact ⟨b, r, rfl, by rintro rfl; cases hb⟩
    · exact ⟨0x6C, _, rfl, by decide⟩
    · exact ⟨0x64, _, rfl, by decide⟩

/-! ### Encodings -/

theorem digit_byte : ∀ d < 10, (UInt8.ofNat (Nat.digitChar d).toNat - 0x30).toNat = d := by decide

theorem number_dec (n : Nat) : number (dec n) = n := by
  induction n using Nat.strong_induction_on with
  | _ n ih =>
    unfold number dec Numeral.bytes at ih ⊢
    rcases Nat.lt_or_ge n 10 with hlt | hge
    · rw [Nat.toDigits_of_lt_base hlt, List.map_singleton, List.foldl_cons, List.foldl_nil, digit_byte n hlt]
      omega
    · have hmod : n % 10 < 10 := Nat.mod_lt n (by omega)
      rw [Nat.toDigits_of_base_le (by omega) hge, List.map_append, List.foldl_append,
        ih (n / 10) (Nat.div_lt_self (by omega) (by omega)), List.map_singleton, List.foldl_cons,
        List.foldl_nil, digit_byte _ hmod]
      omega

theorem isString_string (s : List UInt8) : IsString s (string s) :=
  ⟨dec s.length, by simp [dec, Numeral.bytes, Nat.toDigits_ne_nil], Numeral.isDigit_of_mem_dec,
    number_dec s.length, rfl⟩

theorem isInt_encode (i : Int) : IsInt (Value.int i).encode := by
  have h10 : ∀ d < 10, UInt8.ofNat (Nat.digitChar d).toNat ≠ 0x65 := by decide
  refine ⟨Numeral.bytes (showInt i), ?_, ?_, rfl⟩
  · cases i with
    | ofNat n => simp [Numeral.bytes, showInt, Nat.toDigits_ne_nil]
    | negSucc n => simp [Numeral.bytes, showInt]
  · intro hmem
    obtain ⟨c, hc, hb⟩ := List.mem_map.mp hmem
    cases i with
    | ofNat n =>
      obtain ⟨d, hd, rfl⟩ := Numeral.mem_toDigits_ten n c hc
      exact h10 d hd hb
    | negSucc n =>
      rcases List.mem_cons.mp hc with rfl | hc
      · revert hb
        decide
      · obtain ⟨d, hd, rfl⟩ := Numeral.mem_toDigits_ten (n + 1) c hc
        exact h10 d hd hb

mutual

/-- **The encoding of a value is taken.** -/
theorem isValue_encode : ∀ (v : Value) (n : Nat), v.height < n → IsValue n v.encode
  | _, 0, h => absurd h (Nat.not_lt_zero _)
  | .int i, _ + 1, _ => .inl (isInt_encode i)
  | .str s, _ + 1, _ => .inr (.inl ⟨s, isString_string s⟩)
  | .list l, n + 1, h => .inr (.inr (.inl ⟨_, steps_encodeList l n (Nat.le_of_lt_succ h), rfl⟩))
  | .dict d, n + 1, h => .inr (.inr (.inr ⟨_, steps_encodeEntries d n (Nat.le_of_lt_succ h), rfl⟩))

theorem steps_encodeList : ∀ (l : List Value) (n : Nat), Value.heightList l ≤ n →
    Steps (fun _ _ x => IsValue n x) () () (Value.encodeList l)
  | [], _, _ => .nil ()
  | v :: l, n, h =>
    .cons (isValue_encode v n (le_of_max_le_left h)) (steps_encodeList l n (le_of_max_le_right h))

theorem steps_encodeEntries : ∀ (d : List (List UInt8 × Value)) (n : Nat), Value.heightEntries d ≤ n →
    Steps (fun _ _ x => ∃ s, IsEntry s (IsValue n) x) () () (Value.encodeEntries d)
  | [], _, _ => .nil ()
  | (k, v) :: d, n, h =>
    .cons ⟨k, string k, v.encode, rfl, isString_string k, isValue_encode v n (le_of_max_le_left h)⟩
      (steps_encodeEntries d n (le_of_max_le_right h))

end

end Bencode
