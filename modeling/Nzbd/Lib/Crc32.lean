import Mathlib.Data.UInt

/-!
# CRC-32

The reflected CRC-32 with polynomial `0xEDB88320`, one bit at a time, over a
32-bit register that starts and ends complemented.  `update` folds a buffer
into the register, so a text may be hashed in pieces (`update_append`).

A shift is linear in exclusive or (`Linear`), so two pieces may also be hashed apart: the
checksum of the first is shifted by the length of the second, and the two are added
(`crc32_append`).
-/

namespace Crc32

def polynomial : BitVec 32 := 0xEDB88320#32

/-- Shift one bit out of the register. -/
def bitStep (crc : BitVec 32) : BitVec 32 :=
  if crc.getLsbD 0 then (crc >>> 1) ^^^ polynomial else crc >>> 1

/-- Fold one byte into the register. -/
def byteStep (crc : BitVec 32) (b : UInt8) : BitVec 32 :=
  bitStep^[8] (crc ^^^ b.toBitVec.setWidth 32)

/-- A running checksum. -/
structure Hasher where
  register : BitVec 32

namespace Hasher

def new : Hasher := ⟨BitVec.allOnes 32⟩

def update (h : Hasher) (bs : List UInt8) : Hasher := ⟨bs.foldl byteStep h.register⟩

def finalize (h : Hasher) : BitVec 32 := ~~~h.register

@[simp] theorem update_nil (h : Hasher) : h.update [] = h := rfl

/-- **A text may be hashed in pieces.** -/
theorem update_append (h : Hasher) (as bs : List UInt8) :
    h.update (as ++ bs) = (h.update as).update bs := by
  simp [update, List.foldl_append]

end Hasher

/-- The checksum of a whole text. -/
def crc32 (bs : List UInt8) : BitVec 32 := (Hasher.new.update bs).finalize

/-! ### Linearity -/

/-- Linear over exclusive or. -/
def Linear (f : BitVec 32 → BitVec 32) : Prop := ∀ a b, f (a ^^^ b) = f a ^^^ f b

theorem Linear.map_zero {f : BitVec 32 → BitVec 32} (h : Linear f) : f 0#32 = 0#32 := by
  have h0 := h 0#32 0#32
  rwa [BitVec.xor_self, BitVec.xor_self] at h0

theorem Linear.iterate {f : BitVec 32 → BitVec 32} (h : Linear f) (n : Nat) : Linear f^[n] := by
  induction n with
  | zero => exact fun _ _ => rfl
  | succ n ih =>
    intro a b
    rw [Function.iterate_succ_apply, h, ih]
    rfl

theorem bitStep_linear : Linear bitStep := by
  intro a b
  unfold bitStep
  rw [BitVec.getLsbD_xor, BitVec.ushiftRight_xor_distrib]
  have hcancel : ∀ x y p : BitVec 32, x ^^^ y = (x ^^^ p) ^^^ (y ^^^ p) := by
    intro x y p
    rw [BitVec.xor_assoc x p, BitVec.xor_comm p, BitVec.xor_assoc y, BitVec.xor_self,
      BitVec.xor_zero]
  cases a.getLsbD 0 <;> cases b.getLsbD 0
  · rfl
  · exact BitVec.xor_assoc _ _ _
  · show (a >>> 1 ^^^ b >>> 1) ^^^ polynomial = (a >>> 1 ^^^ polynomial) ^^^ b >>> 1
    rw [BitVec.xor_assoc, BitVec.xor_comm (b >>> 1), ← BitVec.xor_assoc]
  · exact hcancel _ _ _

/-- The register after as many zero bytes. -/
def shiftBytes (n : Nat) : BitVec 32 → BitVec 32 := (bitStep^[8])^[n]

theorem foldl_byteStep (bs : List UInt8) (a b : BitVec 32) :
    bs.foldl byteStep (a ^^^ b) = shiftBytes bs.length a ^^^ bs.foldl byteStep b := by
  induction bs generalizing a b with
  | nil => rfl
  | cons x bs ih =>
    have hstep : byteStep (a ^^^ b) x = bitStep^[8] a ^^^ byteStep b x := by
      rw [byteStep, byteStep, BitVec.xor_assoc]
      exact bitStep_linear.iterate 8 _ _
    rw [List.foldl_cons, hstep, ih]
    rfl

theorem crc32_eq (bs : List UInt8) :
    crc32 bs = bs.foldl byteStep (BitVec.allOnes 32) ^^^ BitVec.allOnes 32 := BitVec.xor_allOnes.symm

/-- **The checksum of two pieces from the checksums of each.** -/
theorem crc32_append (as bs : List UInt8) :
    crc32 (as ++ bs) = shiftBytes bs.length (crc32 as) ^^^ crc32 bs := by
  have hregister : crc32 as ^^^ BitVec.allOnes 32 = as.foldl byteStep (BitVec.allOnes 32) := by
    rw [crc32_eq, BitVec.xor_assoc, BitVec.xor_self, BitVec.xor_zero]
  have hfold := foldl_byteStep bs (crc32 as) (BitVec.allOnes 32)
  rw [hregister, ← List.foldl_append] at hfold
  rw [crc32_eq (as ++ bs), hfold, BitVec.xor_assoc, ← crc32_eq]

/-! ### Nothing is lost -/

theorem bitStep_eq_zero {a : BitVec 32} (h : bitStep a = 0#32) : a = 0#32 := by
  unfold bitStep at h
  split at h
  · have htop := congrArg (·.getLsbD 31) h
    simp [polynomial] at htop
  · next hlow =>
    refine BitVec.eq_of_getLsbD_eq fun i hi => ?_
    cases i with
    | zero => simpa using hlow
    | succ i =>
      have hbit := congrArg (·.getLsbD i) h
      simp only [BitVec.getLsbD_ushiftRight, BitVec.getLsbD_zero] at hbit
      rw [BitVec.getLsbD_zero, Nat.add_comm]
      exact hbit

theorem bitStep_injective : Function.Injective bitStep := by
  intro a b h
  have hzero : bitStep (a ^^^ b) = 0#32 := by
    rw [bitStep_linear, h, BitVec.xor_self]
  exact BitVec.xor_eq_zero_iff.mp (bitStep_eq_zero hzero)

theorem shiftBytes_injective (n : Nat) : Function.Injective (shiftBytes n) :=
  (bitStep_injective.iterate 8).iterate n

/-- **A byte put in for another changes the checksum**, whatever follows it. -/
theorem crc32_cons_injective (bs : List UInt8) : Function.Injective fun b => crc32 (b :: bs) := by
  intro a b h
  have hsplit (c : UInt8) : crc32 (c :: bs) = _ := crc32_append [c] bs
  simp only [hsplit, BitVec.xor_left_inj, (shiftBytes_injective _).eq_iff] at h
  have hbyte := (BitVec.xor_right_inj _).mp (bitStep_injective.iterate 8 (BitVec.not_inj.mp h))
  have hnat := congrArg BitVec.toNat hbyte
  have ha := a.toNat_lt
  have hb := b.toNat_lt
  simp only [BitVec.toNat_setWidth, UInt8.toNat_toBitVec] at hnat
  exact UInt8.toNat_inj.mp (by omega)

-- The check value of the catalogue: the digits one to nine.
example : crc32 [0x31, 0x32, 0x33, 0x34, 0x35, 0x36, 0x37, 0x38, 0x39] = 0xCBF43926#32 := by
  decide +kernel

end Crc32
