import Mathlib.Tactic.Ring
import Nzbd.Lib.Utf8

/-!
# Numerals

Reading and writing a natural number in a base up to 16.  Writing is
`Nat.toDigits`, padded with zeros where a width is asked for; reading is
`fromStrRadix`, which takes an optional plus sign and at least one digit and
refuses a value outside the bound of the machine type it is read for.

`fromStrRadix_toDigits` and `fromStrRadix_padded` say that reading undoes
writing.
-/

namespace Numeral

open List

/-- The value of a digit in base `radix`. -/
def digitVal (radix : Nat) (c : Char) : Option Nat :=
  let v :=
    if '0' ≤ c ∧ c ≤ '9' then some (c.toNat - '0'.toNat)
    else if 'a' ≤ c ∧ c ≤ 'z' then some (c.toNat - 'a'.toNat + 10)
    else if 'A' ≤ c ∧ c ≤ 'Z' then some (c.toNat - 'A'.toNat + 10)
    else none
  v.filter (· < radix)

/-- Digits read onto a value. -/
def readDigits (radix : Nat) : Nat → List Char → Option Nat
  | acc, [] => some acc
  | acc, c :: cs => (digitVal radix c).bind fun d => readDigits radix (acc * radix + d) cs

/-- An unsigned number below `bound`, with an optional plus sign. -/
def fromStrRadix (radix bound : Nat) (s : List Char) : Option Nat :=
  let digits := match s with
    | '+' :: cs => cs
    | cs => cs
  if digits = [] then none else (readDigits radix 0 digits).filter (· < bound)

/-- A signed decimal number: up to `bound` below zero, and less than it above. -/
def fromStrSigned (bound : Nat) (s : List Char) : Option Int :=
  match s with
  | '-' :: cs =>
    if cs = [] then none
    else ((readDigits 10 0 cs).filter (· ≤ bound)).map fun n : Nat => -(n : Int)
  | cs => (fromStrRadix 10 bound cs).map fun n : Nat => (n : Int)

/-- An integer in decimal. -/
def showInt : Int → List Char
  | .ofNat n => Nat.toDigits 10 n
  | .negSucc n => '-' :: Nat.toDigits 10 (n + 1)

/-- `n` written in base `radix`, with zeros in front up to `width` digits. -/
def padded (radix width n : Nat) : List Char :=
  List.replicate (width - (Nat.toDigits radix n).length) '0' ++ Nat.toDigits radix n

/-! ### Digits -/

theorem digitVal_digitChar_all : ∀ d < 16, digitVal 16 (Nat.digitChar d) = some d := by decide

theorem digitVal_digitChar_ten : ∀ d < 10, digitVal 10 (Nat.digitChar d) = some d := by decide

/-- The bases in use. -/
def Base (radix : Nat) : Prop := radix = 10 ∨ radix = 16

variable {radix : Nat}

theorem Base.two_le (h : Base radix) : 1 < radix := by
  rcases h with rfl | rfl <;> decide

theorem digitVal_digitChar {radix d : Nat} (h : Base radix) (hd : d < radix) :
    digitVal radix (Nat.digitChar d) = some d := by
  rcases h with rfl | rfl
  · exact digitVal_digitChar_ten d hd
  · exact digitVal_digitChar_all d hd

theorem readDigits_append (radix : Nat) (ds es : List Char) (acc : Nat) :
    readDigits radix acc (ds ++ es) =
      (readDigits radix acc ds).bind fun v => readDigits radix v es := by
  induction ds generalizing acc with
  | nil => rfl
  | cons c ds ih =>
    rw [cons_append, readDigits, readDigits]
    cases digitVal radix c with
    | none => rfl
    | some d => exact ih _

theorem readDigits_zeros (h : Base radix) (k : Nat) (ds : List Char) :
    readDigits radix 0 (List.replicate k '0' ++ ds) = readDigits radix 0 ds := by
  have h0 : digitVal radix '0' = some 0 := by rcases h with rfl | rfl <;> decide
  induction k with
  | zero => rfl
  | succ k ih =>
    rw [replicate_succ, cons_append, readDigits, h0, Option.bind_some, Nat.zero_mul,
      Nat.zero_add, ih]

/-- **Reading undoes writing**, before the bound is looked at. -/
theorem readDigits_toDigits (h : Base radix) (n : Nat) :
    readDigits radix 0 (Nat.toDigits radix n) = some n := by
  induction n using Nat.strong_induction_on with
  | _ n ih =>
    rcases Nat.lt_or_ge n radix with hlt | hge
    · rw [Nat.toDigits_of_lt_base hlt, readDigits, digitVal_digitChar h hlt]
      simp [readDigits]
    · have hb := h.two_le
      rw [Nat.toDigits_of_base_le hb hge, readDigits_append,
        ih (n / radix) (Nat.div_lt_self (by omega) hb), Option.bind_some, readDigits,
        digitVal_digitChar h (Nat.mod_lt _ (by omega))]
      simp only [Option.bind_some, readDigits, Option.some.injEq]
      rw [Nat.mul_comm]
      exact Nat.div_add_mod n radix

theorem mem_toDigits (h : Base radix) (n : Nat) :
    ∀ c ∈ Nat.toDigits radix n, ∃ d < 16, c = Nat.digitChar d := by
  have hle : radix ≤ 16 := by rcases h with rfl | rfl <;> decide
  induction n using Nat.strong_induction_on with
  | _ n ih =>
    intro c hc
    rcases Nat.lt_or_ge n radix with hlt | hge
    · rw [Nat.toDigits_of_lt_base hlt, mem_singleton] at hc
      exact ⟨n, by omega, hc⟩
    · have hb := h.two_le
      rw [Nat.toDigits_of_base_le hb hge, mem_append, mem_singleton] at hc
      rcases hc with hc | hc
      · exact ih _ (Nat.div_lt_self (by omega) hb) c hc
      · exact ⟨n % radix, by have := Nat.mod_lt n (show 0 < radix by omega); omega, hc⟩

theorem length_toDigits_le (h : Base radix) {k n : Nat} (hn : n < radix ^ (k + 1)) :
    (Nat.toDigits radix n).length ≤ k + 1 := by
  have hb := h.two_le
  induction k generalizing n with
  | zero => rw [Nat.toDigits_of_lt_base (by simpa using hn)]; simp
  | succ k ih =>
    rcases Nat.lt_or_ge n radix with hlt | hge
    · rw [Nat.toDigits_of_lt_base hlt]; simp
    · rw [Nat.toDigits_of_base_le hb hge, length_append, length_singleton]
      have := ih (n := n / radix) (Nat.div_lt_of_lt_mul (by rw [← Nat.pow_succ']; exact hn))
      omega

theorem length_padded_le (h : Base radix) {k n : Nat} (hn : n < radix ^ (k + 1)) :
    (padded radix (k + 1) n).length ≤ k + 1 := by
  have := length_toDigits_le h hn
  rw [padded, length_append, length_replicate]
  omega

theorem mem_padded (h : Base radix) (width n : Nat) :
    ∀ c ∈ padded radix width n, ∃ d < 16, c = Nat.digitChar d := by
  intro c hc
  rcases mem_append.mp hc with hc | hc
  · exact ⟨0, by decide, eq_of_mem_replicate hc⟩
  · exact mem_toDigits h n c hc

theorem padded_ne_nil (radix width n : Nat) : padded radix width n ≠ [] := by
  intro h
  exact Nat.toDigits_ne_nil (append_eq_nil_iff.mp h).2

variable {s : List Char}

theorem fromStrRadix_of_no_sign {radix bound : Nat} (hne : s ≠ [])
    (hs : '+' ∉ s) : fromStrRadix radix bound s = (readDigits radix 0 s).filter (· < bound) := by
  cases s with
  | nil => exact absurd rfl hne
  | cons c cs =>
    have hc : c ≠ '+' := fun h => hs (by simp [h])
    unfold fromStrRadix
    split
    · rename_i h; exact absurd (cons.inj h).1 hc
    · simp

theorem fromStrRadix_padded {radix bound n : Nat} (h : Base radix) (hn : n < bound) (width : Nat) :
    fromStrRadix radix bound (padded radix width n) = some n := by
  have hs : '+' ∉ padded radix width n := by
    intro hm
    obtain ⟨d, hd, he⟩ := mem_padded h width n _ hm
    exact Nat.digitChar_ne '+' rfl he.symm
  rw [fromStrRadix_of_no_sign (padded_ne_nil radix width n) hs, padded, readDigits_zeros h,
    readDigits_toDigits h]
  simp [hn]

/-- **Reading undoes writing.** -/
theorem fromStrRadix_toDigits {radix bound n : Nat} (h : Base radix) (hn : n < bound) :
    fromStrRadix radix bound (Nat.toDigits radix n) = some n := by
  have := fromStrRadix_padded h hn 0
  rwa [padded, Nat.zero_sub, replicate_zero, nil_append] at this

theorem fromStrRadix_lt {radix bound n : Nat}
    (h : fromStrRadix radix bound s = some n) : n < bound := by
  unfold fromStrRadix at h
  simp only at h
  split_ifs at h
  simpa using (Option.filter_eq_some_iff.mp h).2

/-! ### Signed numbers -/

/-- The range of a signed machine type. -/
def Signed (bound : Nat) (i : Int) : Prop := -(bound : Int) ≤ i ∧ i < bound

theorem fromStrSigned_signed {bound : Nat} {i : Int} (hb : 0 < bound)
    (h : fromStrSigned bound s = some i) : Signed bound i := by
  unfold fromStrSigned at h
  split at h
  · split_ifs at h
    obtain ⟨n, hn, rfl⟩ := Option.map_eq_some_iff.mp h
    have hle : n ≤ bound := by simpa using (Option.filter_eq_some_iff.mp hn).2
    exact ⟨by omega, by omega⟩
  · obtain ⟨n, hn, rfl⟩ := Option.map_eq_some_iff.mp h
    have hlt := fromStrRadix_lt hn
    exact ⟨by omega, by omega⟩

/-- **Reading undoes writing**, with a sign. -/
theorem fromStrSigned_showInt {bound : Nat} {i : Int} (h : Signed bound i) :
    fromStrSigned bound (showInt i) = some i := by
  cases i with
  | ofNat n =>
    have hn : n < bound := by
      have := h.2
      simp only [Int.ofNat_eq_natCast] at this
      omega
    have hread : fromStrRadix 10 bound (Nat.toDigits 10 n) = some n :=
      fromStrRadix_toDigits (.inl rfl) hn
    rw [showInt]
    cases hd : Nat.toDigits 10 n with
    | nil => exact absurd hd Nat.toDigits_ne_nil
    | cons c cs =>
      obtain ⟨d, hlt, hc⟩ := mem_toDigits (.inl rfl) n c (by rw [hd]; simp)
      rw [hd] at hread
      rw [fromStrSigned, hread]
      · rfl
      · intro cs' he
        exact Nat.digitChar_ne '-' rfl (hc.symm.trans (cons.inj he).1)
  | negSucc n =>
    have hn : n + 1 ≤ bound := by
      have := h.1
      omega
    rw [showInt, fromStrSigned, if_neg Nat.toDigits_ne_nil, readDigits_toDigits (.inl rfl)]
    simp only [Option.filter_some, hn, decide_true, if_true, Option.map_some, Option.some.injEq]
    omega

/-! ### Numbers as ASCII bytes -/

def bytes (s : List Char) : List UInt8 := s.map fun c => UInt8.ofNat c.toNat

/-- A number in decimal. -/
def dec (n : Nat) : List UInt8 := bytes (Nat.toDigits 10 n)

/-- The characters numbers are written with. -/
def Digits (s : List Char) : Prop := ∀ c ∈ s, ∃ d < 16, c = Nat.digitChar d

theorem Digits.byte (h : Digits s) {P : UInt8 → Prop}
    (hP : ∀ d < 16, P (UInt8.ofNat (Nat.digitChar d).toNat)) : ∀ b ∈ bytes s, P b := by
  intro b hb
  obtain ⟨c, hc, rfl⟩ := mem_map.mp hb
  obtain ⟨d, hd, rfl⟩ := h c hc
  exact hP d hd

theorem Digits.fromUtf8 (h : Digits s) : Utf8.fromUtf8 (bytes s) = some s := by
  have hchar : ∀ d < 16, Char.ofNat (UInt8.ofNat (Nat.digitChar d).toNat).toNat =
      Nat.digitChar d := by decide
  rw [Utf8.fromUtf8_of_ascii (h.byte (by decide)), bytes, map_map]
  congr 1
  refine (map_congr_left fun c hc => ?_).trans (map_id s)
  obtain ⟨d, hd, rfl⟩ := h c hc
  exact hchar d hd

theorem Digits.trim (h : Digits s) : Utf8.trim s = s := by
  have hw : ∀ d < 16, Utf8.isWhitespace (Nat.digitChar d) = false := by decide
  have hs : ∀ c ∈ s, Utf8.isWhitespace c = false := by
    intro c hc
    obtain ⟨d, hd, rfl⟩ := h c hc
    exact hw d hd
  refine Utf8.trimMatches_eq_self (fun c hc => hs c ?_) (fun c hc => hs c ?_)
  · exact mem_of_head? hc
  · exact mem_of_getLast? hc

theorem trim_showInt (i : Int) : Utf8.trim (showInt i) = showInt i := by
  have hw : ∀ d < 16, Utf8.isWhitespace (Nat.digitChar d) = false := by decide
  have hs : ∀ c ∈ showInt i, Utf8.isWhitespace c = false := by
    intro c hc
    cases i with
    | ofNat n =>
      obtain ⟨d, hd, rfl⟩ := mem_toDigits (.inl rfl) n c hc
      exact hw d hd
    | negSucc n =>
      rcases mem_cons.mp hc with rfl | hc
      · decide
      · obtain ⟨d, hd, rfl⟩ := mem_toDigits (.inl rfl) (n + 1) c hc
        exact hw d hd
  exact Utf8.trimMatches_eq_self (fun c hc => hs c (mem_of_head? hc))
    fun c hc => hs c (mem_of_getLast? hc)

theorem digits_toDigits (n : Nat) : Digits (Nat.toDigits 10 n) := mem_toDigits (.inl rfl) n

theorem length_dec_le {n : Nat} (hn : n < 2 ^ 64) : (dec n).length ≤ 20 := by
  rw [dec, bytes, length_map]
  exact length_toDigits_le (k := 19) (.inl rfl) (by omega)

def isDigit (b : UInt8) : Bool := 0x30 ≤ b && b ≤ 0x39

def takeDec (s : List UInt8) : Option (Nat × List UInt8) :=
  (readDigits 10 0 ((s.takeWhile isDigit).map fun b => Char.ofNat b.toNat)).map
    (·, s.dropWhile isDigit)

theorem mem_toDigits_ten (n : Nat) : ∀ c ∈ Nat.toDigits 10 n, ∃ d < 10, c = Nat.digitChar d := by
  induction n using Nat.strong_induction_on with
  | _ n ih =>
    intro c hc
    rcases Nat.lt_or_ge n 10 with hlt | hge
    · rw [Nat.toDigits_of_lt_base hlt, mem_singleton] at hc
      exact ⟨n, hlt, hc⟩
    · rw [Nat.toDigits_of_base_le (by omega) hge, mem_append, mem_singleton] at hc
      rcases hc with hc | hc
      · exact ih _ (Nat.div_lt_self (by omega) (by omega)) c hc
      · exact ⟨n % 10, Nat.mod_lt n (by omega), hc⟩

theorem isDigit_of_mem_dec {n : Nat} : ∀ b ∈ dec n, isDigit b = true := by
  have h10 : ∀ d < 10, isDigit (UInt8.ofNat (Nat.digitChar d).toNat) = true := by decide
  intro b hb
  obtain ⟨c, hc, rfl⟩ := mem_map.mp hb
  obtain ⟨d, hd, rfl⟩ := mem_toDigits_ten n c hc
  exact h10 d hd

/-- **A decimal number is read back** up to the first byte that is no digit. -/
theorem takeDec_dec (n : Nat) {b : UInt8} (hb : isDigit b = false) (rest : List UInt8) :
    takeDec (dec n ++ b :: rest) = some (n, b :: rest) := by
  have hchar : ∀ d < 10, Char.ofNat (UInt8.ofNat (Nat.digitChar d).toNat).toNat =
      Nat.digitChar d := by decide
  have hback : (dec n).map (fun b => Char.ofNat b.toNat) = Nat.toDigits 10 n := by
    rw [dec, bytes, map_map]
    refine (map_congr_left fun c hc => ?_).trans (map_id _)
    obtain ⟨d, hd, rfl⟩ := mem_toDigits_ten n c hc
    exact hchar d hd
  rw [takeDec, takeWhile_append_of_pos isDigit_of_mem_dec,
    dropWhile_append_of_pos isDigit_of_mem_dec, takeWhile_cons, dropWhile_cons, hb,
    if_neg (by simp), if_neg (by simp), append_nil, hback, readDigits_toDigits (.inl rfl)]
  rfl

end Numeral
