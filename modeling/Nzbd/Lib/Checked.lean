import Mathlib.Algebra.GroupWithZero.Nat
import Mathlib.Data.Option.Basic

/-!
# Arithmetic that may fail

The operations of unsigned integers of `w` bits, with `none` where the result does not fit: where a
machine would stop, or would go on with another number.  A computation that is `some` has met no
such place.

`sumFrom_eq` is about a sum that is built up from the left: it fits on the way if it fits at the
end.
-/

namespace Checked

variable {w a b c : Nat}

/-- A number of `w` bits. -/
def fit (w a : Nat) : Option Nat := if a < 2 ^ w then some a else none

def add (w a b : Nat) : Option Nat := fit w (a + b)

def sub (a b : Nat) : Option Nat := if b ≤ a then some (a - b) else none

def mul (w a b : Nat) : Option Nat := fit w (a * b)

def div (a b : Nat) : Option Nat := if b = 0 then none else some (a / b)

theorem fit_eq_some : fit w a = some c ↔ a < 2 ^ w ∧ a = c := by
  unfold fit
  split
  · next h => simp [h]
  · next h => simp [h]

theorem fit_of_lt (h : a < 2 ^ w) : fit w a = some a := if_pos h

theorem add_of_lt (h : a + b < 2 ^ w) : add w a b = some (a + b) := if_pos h

theorem sub_of_le (h : b ≤ a) : sub a b = some (a - b) := if_pos h

theorem mul_of_lt (h : a * b < 2 ^ w) : mul w a b = some (a * b) := if_pos h

theorem div_of_pos (h : 0 < b) : div a b = some (a / b) := if_neg (Nat.pos_iff_ne_zero.mp h)

theorem add_eq_none : add w a b = none ↔ 2 ^ w ≤ a + b := by
  unfold add fit
  split
  · next h => simp [h]
  · next h => simpa using h

/-! ### Sums -/

/-- What is added one after the other to `a`. -/
def sumFrom (w a : Nat) (l : List Nat) : Option Nat := l.foldlM (add w) a

@[simp] theorem sumFrom_nil : sumFrom w a [] = some a := rfl

theorem sumFrom_cons (l : List Nat) : sumFrom w a (b :: l) = (add w a b).bind (sumFrom w · l) := rfl

/-- **A sum fits on the way if it fits at the end.** -/
theorem sumFrom_eq (l : List Nat) (ha : a < 2 ^ w) : sumFrom w a l = fit w (a + l.sum) := by
  induction l generalizing a with
  | nil => rw [sumFrom_nil, List.sum_nil, Nat.add_zero, fit_of_lt ha]
  | cons b l ih =>
    rw [sumFrom_cons, List.sum_cons, ← Nat.add_assoc]
    by_cases hb : a + b < 2 ^ w
    · rw [add_of_lt hb, Option.bind_some, ih hb]
    · have hsum : ¬a + b + l.sum < 2 ^ w := by omega
      rw [add_eq_none.mpr (Nat.le_of_not_lt hb), Option.bind_none]
      exact (if_neg hsum).symm

end Checked
