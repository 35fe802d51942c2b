import Mathlib.Tactic.IntervalCases
import Nzbd.Lib.Crc32

/-!
# The checksum of a file from the checksums of its parts

The operator that shifts one zero bit through the register is a matrix over GF(2), a
table of 32 columns.  Squaring it gives the operator for twice as many bits, so
`crc32Combine` shifts by any length in as many turns as the length has bits.

A table represents a linear map if it holds the images of the 32 unit vectors
(`Represents`); then multiplying with it applies the map (`gf2MatrixTimes_eq`), and
squaring it squares the map.
-/

namespace Nzbd.Yenc

open Crc32

/-- The columns of a matrix, the first 32 places of it. -/
abbrev Gf2Matrix := Nat → BitVec 32

/-- The loop over the bits of the vector; it has none left after 32 turns. -/
def gf2Loop (mat : Gf2Matrix) : Nat → Nat → BitVec 32 → BitVec 32 → BitVec 32
  | 0, _, _, sum => sum
  | fuel + 1, i, vec, sum =>
    if vec = 0#32 then sum
    else gf2Loop mat fuel (i + 1) (vec >>> 1) (if vec.getLsbD 0 then sum ^^^ mat i else sum)

def gf2MatrixTimes (mat : Gf2Matrix) (vec : BitVec 32) : BitVec 32 := gf2Loop mat 32 0 vec 0#32

def gf2MatrixSquare (mat : Gf2Matrix) : Gf2Matrix := fun n => gf2MatrixTimes mat (mat n)

def oneZeroBit : Gf2Matrix
  | 0 => polynomial
  | n + 1 => 1#32 <<< n

/-- The turns of `crc32Combine`: the operator is squared, and applied if the length has
this bit.  The two tables of the source change places from turn to turn. -/
def combineLoop : Nat → Gf2Matrix → Nat → BitVec 32 → BitVec 32
  | 0, _, _, crc => crc
  | fuel + 1, mat, len, crc =>
    let mat := gf2MatrixSquare mat
    let crc := if len % 2 = 1 then gf2MatrixTimes mat crc else crc
    if len / 2 = 0 then crc else combineLoop fuel mat (len / 2) crc

/-- The checksum of two ranges from the checksum of each and the length of the second,
a number of 64 bits. -/
def crc32Combine (crc1 crc2 : BitVec 32) (len2 : Nat) : BitVec 32 :=
  if len2 = 0 then crc1
  else combineLoop 64 (gf2MatrixSquare (gf2MatrixSquare oneZeroBit)) len2 crc1 ^^^ crc2

/-! ### Tables and maps -/

/-- The table holds the images of the unit vectors. -/
structure Represents (mat : Gf2Matrix) (f : BitVec 32 → BitVec 32) : Prop where
  linear : Linear f
  column : ∀ n < 32, mat n = f (1#32 <<< n)

theorem shiftLeft_split (vec : BitVec 32) (i : Nat) :
    vec <<< i = (if vec.getLsbD 0 then 1#32 <<< i else 0#32) ^^^ ((vec >>> 1) <<< (i + 1)) := by
  refine BitVec.eq_of_getLsbD_eq fun k hk => ?_
  rw [BitVec.getLsbD_xor, BitVec.getLsbD_shiftLeft, BitVec.getLsbD_shiftLeft]
  rcases Nat.lt_trichotomy k i with h | h | h
  · cases vec.getLsbD 0 <;> simp [h, hk, Nat.lt_succ_of_lt h]
  · subst h
    cases h0 : vec.getLsbD 0 <;> simpa [hk] using h0
  · have hle : ¬ k < i + 1 := by omega
    have hsub : 1 + (k - (i + 1)) = k - i := by omega
    have hne : k - i ≠ 0 := by omega
    cases vec.getLsbD 0 <;> simp [hk, hle, hsub, hne, Nat.not_lt_of_lt h]

variable {f : BitVec 32 → BitVec 32}

theorem gf2Loop_eq {mat : Gf2Matrix} (h : Represents mat f)
    (fuel i : Nat) (vec sum : BitVec 32) (hi : i + fuel = 32) :
    gf2Loop mat fuel i vec sum = sum ^^^ f (vec <<< i) := by
  induction fuel generalizing i vec sum with
  | zero =>
    have hzero : vec <<< i = 0#32 := BitVec.shiftLeft_eq_zero (by omega)
    rw [hzero, h.linear.map_zero, BitVec.xor_zero]
    rfl
  | succ fuel ih =>
    rw [gf2Loop]
    split
    next hvec => rw [hvec, BitVec.zero_shiftLeft, h.linear.map_zero, BitVec.xor_zero]
    next =>
      rw [ih _ _ _ (by omega), shiftLeft_split vec i, h.linear, ← BitVec.xor_assoc]
      congr 1
      cases vec.getLsbD 0 with
      | false => simp [h.linear.map_zero]
      | true => simp [h.column i (by omega)]

/-- **Multiplying applies the map.** -/
theorem gf2MatrixTimes_eq {mat : Gf2Matrix} (h : Represents mat f)
    (vec : BitVec 32) : gf2MatrixTimes mat vec = f vec := by
  rw [gf2MatrixTimes, gf2Loop_eq h 32 0 vec 0#32 rfl, BitVec.shiftLeft_zero, BitVec.zero_xor]

theorem Represents.square {mat : Gf2Matrix} (h : Represents mat f) :
    Represents (gf2MatrixSquare mat) f^[2] where
  linear := h.linear.iterate 2
  column n hn := by
    rw [gf2MatrixSquare, gf2MatrixTimes_eq h, h.column n hn]
    rfl

theorem represents_oneZeroBit : Represents oneZeroBit bitStep where
  linear := bitStep_linear
  column n hn := by
    interval_cases n <;> decide

/-! ### The turns -/

theorem combineLoop_eq (fuel : Nat) {mat : Gf2Matrix}
    (h : Represents mat f) (len : Nat) (crc : BitVec 32) (hpos : 0 < len) (hlen : len < 2 ^ fuel) :
    combineLoop fuel mat len crc = (f^[2])^[len] crc := by
  induction fuel generalizing mat f len crc with
  | zero => omega
  | succ fuel ih =>
    have hturn : (if len % 2 = 1 then gf2MatrixTimes (gf2MatrixSquare mat) crc else crc) =
        (f^[2])^[len % 2] crc := by
      rcases Nat.mod_two_eq_zero_or_one len with h0 | h1
      · rw [h0, if_neg (by decide)]
        rfl
      · rw [h1, if_pos rfl, gf2MatrixTimes_eq h.square]
        rfl
    rw [combineLoop]
    simp only [hturn]
    split
    next hone =>
      have : len % 2 = len := by omega
      rw [this]
    next hmore =>
      rw [ih h.square _ _ (by omega) (by omega), ← Function.iterate_mul, ← Function.iterate_add_apply,
        Nat.div_add_mod]

theorem crc32Combine_eq (crc1 crc2 : BitVec 32) {len2 : Nat} (hpos : 0 < len2)
    (hlen : len2 < 2 ^ 64) : crc32Combine crc1 crc2 len2 = shiftBytes len2 crc1 ^^^ crc2 := by
  have hfour : Represents (gf2MatrixSquare (gf2MatrixSquare oneZeroBit)) (bitStep^[2])^[2] :=
    represents_oneZeroBit.square.square
  rw [crc32Combine, if_neg hpos.ne', combineLoop_eq 64 hfour _ _ hpos hlen]
  rfl

/-- **The combined checksum is the one of the concatenation.** -/
theorem crc32Combine_append (as bs : List UInt8) (hlen : bs.length < 2 ^ 64) :
    crc32Combine (crc32 as) (crc32 bs) bs.length = crc32 (as ++ bs) := by
  cases bs with
  | nil =>
    rw [List.append_nil]
    rfl
  | cons b bs =>
    have hpos : 0 < (b :: bs).length := Nat.succ_pos _
    rw [crc32Combine_eq _ _ hpos hlen, crc32_append]

/-! ### The two tables -/

/-- The loop as the source has it.  Each turn reads one table and fills the other, and looks at two
bits of the length. -/
def alternate : Nat → Gf2Matrix → Nat → BitVec 32 → BitVec 32
  | 0, _, _, crc => crc
  | fuel + 1, odd, len, crc =>
    let even := gf2MatrixSquare odd
    let crc := if len % 2 = 1 then gf2MatrixTimes even crc else crc
    let len := len / 2
    if len = 0 then crc
    else
      let odd := gf2MatrixSquare even
      let crc := if len % 2 = 1 then gf2MatrixTimes odd crc else crc
      let len := len / 2
      if len = 0 then crc else alternate fuel odd len crc

/-- `crc32Combine` with the tables `even` and `odd`. -/
def crc32CombineTables (crc1 crc2 : BitVec 32) (len2 : Nat) : BitVec 32 :=
  if len2 = 0 then crc1
  else
    let odd := oneZeroBit
    let even := gf2MatrixSquare odd
    let odd := gf2MatrixSquare even
    alternate 32 odd len2 crc1 ^^^ crc2

theorem alternate_eq (fuel : Nat) (mat : Gf2Matrix) (len : Nat) (crc : BitVec 32) :
    alternate fuel mat len crc = combineLoop (2 * fuel) mat len crc := by
  induction fuel generalizing mat len crc with
  | zero => rfl
  | succ fuel ih =>
    show alternate (fuel + 1) mat len crc = combineLoop (2 * fuel + 1 + 1) mat len crc
    rw [alternate, combineLoop]
    by_cases hfirst : len / 2 = 0
    · rw [if_pos hfirst, if_pos hfirst]
    · rw [if_neg hfirst, if_neg hfirst, combineLoop]
      simp only [ih]

theorem crc32CombineTables_eq (crc1 crc2 : BitVec 32) (len2 : Nat) :
    crc32CombineTables crc1 crc2 len2 = crc32Combine crc1 crc2 len2 := by
  unfold crc32CombineTables crc32Combine
  simp only [alternate_eq]

/-- **Combining is concatenation,** for every length that fits into 64 bits. -/
theorem combine_concatenates (as bs : List UInt8) (hlen : bs.length < 2 ^ 64) :
    crc32CombineTables (crc32 as) (crc32 bs) bs.length = crc32 (as ++ bs) := by
  rw [crc32CombineTables_eq, crc32Combine_append as bs hlen]

theorem combine_concatenates_digits :
    crc32CombineTables (crc32 [0x31, 0x32, 0x33, 0x34]) (crc32 [0x35, 0x36, 0x37, 0x38, 0x39]) 5 =
      0xCBF43926#32 :=
  (combine_concatenates [0x31, 0x32, 0x33, 0x34] [0x35, 0x36, 0x37, 0x38, 0x39] (by decide)).trans
    (by decide +kernel)

end Nzbd.Yenc
