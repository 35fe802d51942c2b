import Mathlib.Algebra.BigOperators.Group.List.Basic
import Mathlib.Algebra.GroupWithZero.Nat
import Mathlib.Algebra.Order.Group.Nat
import Mathlib.Data.List.Perm.Subperm
import Nzbd.Lib.Checked

/-!
# Covering a need, largest first

A need is to be covered by the sum of some weights, and as few as possible are to be taken.  With
the weights in descending order the first `k` of them are the best that `k` can do
(`sum_le_sum_take`), so the first ones that reach the need are as few as can be (`Reaches.least`).

`accumulate` takes them one after the other and keeps the sum in a number of `w` bits.  It fails
where that overflows, which `accumulate_isSome` says of the first sum above the need.
-/

namespace Greedy

open List

section Order

variable {M : Type*} [AddCommMonoid M] [PartialOrder M] [IsOrderedAddMonoid M]
  {l m : List M}

theorem sum_take_le_cons {a : M} (h : ∀ b ∈ l, b ≤ a) {n : Nat} (hn : n < l.length) :
    (l.take (n + 1)).sum ≤ ((a :: l).take (n + 1)).sum := by
  have hsplit : l.take (n + 1) = l.take n ++ [l[n]] := by simp
  rw [hsplit, sum_append, sum_singleton, take_succ_cons, sum_cons, add_comm]
  exact add_le_add_left (h _ (getElem_mem hn)) _

/-- **The first ones are the best.** -/
theorem sum_le_sum_take (hl : l.Pairwise (· ≥ ·)) (h : m.Sublist l) :
    m.sum ≤ (l.take m.length).sum := by
  induction h with
  | slnil => exact le_rfl
  | @cons m l a h ih =>
    obtain ⟨ha, hl⟩ := pairwise_cons.mp hl
    cases hm : m.length with
    | zero => simp [length_eq_zero_iff.mp hm]
    | succ n =>
      have hlength := h.length_le
      have hfirst := ih hl
      rw [hm] at hfirst
      exact hfirst.trans (sum_take_le_cons ha (by omega))
  | @cons_cons m l a h ih =>
    obtain ⟨-, hl⟩ := pairwise_cons.mp hl
    rw [length_cons, take_succ_cons, sum_cons, sum_cons]
    exact add_le_add_right (ih hl) a

theorem sum_le_of_subperm (hl : l.Pairwise (· ≥ ·)) (h : m.Subperm l) :
    m.sum ≤ (l.take m.length).sum := by
  obtain ⟨m', hperm, hsub⟩ := h
  rw [← hperm.sum_eq, ← hperm.length_eq]
  exact sum_le_sum_take hl hsub

end Order

/-! ### Reaching a need -/

variable {α : Type*} {weight : α → Nat} {needed w k n : Nat} {l : List α}

/-- The sum of the first `k`. -/
def top (weight : α → Nat) (l : List α) (k : Nat) : Nat := ((l.take k).map weight).sum

@[simp] theorem top_zero : top weight l 0 = 0 := by simp [top]

theorem top_cons_succ (x : α) (k : Nat) : top weight (x :: l) (k + 1) = weight x + top weight l k := by
  rw [top, take_succ_cons, map_cons, sum_cons]
  rfl

theorem top_of_length_le (h : l.length ≤ k) : top weight l k = (l.map weight).sum := by
  rw [top, take_of_length_le h]

theorem top_mono (h : k ≤ n) : top weight l k ≤ top weight l n := by
  induction l generalizing k n with
  | nil => simp [top]
  | cons x l ih =>
    cases k with
    | zero =>
      rw [top_zero]
      exact Nat.zero_le _
    | succ k =>
      obtain ⟨n, rfl⟩ : ∃ m, n = m + 1 := ⟨n - 1, by omega⟩
      rw [top_cons_succ, top_cons_succ]
      exact Nat.add_le_add_left (ih (by omega)) _

/-- The first `k` reach the need, or they are all there are, and fewer do not. -/
structure Reaches (weight : α → Nat) (needed : Nat) (l : List α) (k : Nat) : Prop where
  le : k ≤ l.length
  fewer : ∀ n < k, top weight l n < needed
  enough : needed ≤ top weight l k ∨ k = l.length

/-- **The first ones that reach the need are as few as can be.** -/
theorem Reaches.least (h : Reaches weight needed l k)
    (hl : l.Pairwise fun x y => weight y ≤ weight x) {other : List α} (hother : other.Subperm l)
    (hsum : needed ≤ (other.map weight).sum) : k ≤ other.length := by
  by_contra hlt
  have hfewer := h.fewer _ (Nat.lt_of_not_le hlt)
  have hdescending : (l.map weight).Pairwise (· ≥ ·) := pairwise_map.mpr hl
  obtain ⟨m, hperm, hsub⟩ := hother
  have hbest := sum_le_of_subperm hdescending ⟨m.map weight, hperm.map weight, hsub.map weight⟩
  rw [length_map, ← map_take] at hbest
  exact absurd (hsum.trans hbest) (Nat.not_le.mpr hfewer)

theorem Reaches.eq_length (h : Reaches weight needed l k) (hshort : (l.map weight).sum < needed) :
    k = l.length := by
  rcases h.enough with henough | hall
  · have hle : top weight l k ≤ top weight l l.length := top_mono h.le
    rw [top_of_length_le (Nat.le_refl _)] at hle
    omega
  · exact hall

/-- How many are taken. -/
def reach (weight : α → Nat) (needed : Nat) : Nat → List α → Nat
  | _, [] => 0
  | got, x :: l => if needed ≤ got then 0 else reach weight needed (got + weight x) l + 1

theorem reaches_reach (got : Nat) (l : List α) :
    reach weight needed got l ≤ l.length ∧
      (∀ n < reach weight needed got l, got + top weight l n < needed) ∧
      (needed ≤ got + top weight l (reach weight needed got l) ∨
        reach weight needed got l = l.length) := by
  induction l generalizing got with
  | nil => exact ⟨le_rfl, fun n hn => absurd hn (Nat.not_lt_zero n), .inr rfl⟩
  | cons x l ih =>
    unfold reach
    split
    · next h => exact ⟨Nat.zero_le _, fun n hn => absurd hn (Nat.not_lt_zero n), .inl (by simpa)⟩
    · next h =>
      obtain ⟨hle, hfewer, henough⟩ := ih (got + weight x)
      refine ⟨Nat.succ_le_succ hle, fun n hn => ?_, ?_⟩
      · cases n with
        | zero =>
          rw [top_zero]
          omega
        | succ n =>
          rw [top_cons_succ]
          have := hfewer n (by omega)
          omega
      · rw [top_cons_succ, length_cons]
        omega

/-- Take the weights one after the other until the need is reached. -/
def accumulate (w needed : Nat) (weight : α → Nat) : Nat → List α → Option (List α)
  | _, [] => some []
  | got, x :: l =>
    if needed ≤ got then some []
    else (Checked.add w got (weight x)).bind fun got =>
      (accumulate w needed weight got l).map (x :: ·)

/-- **No overflow, if the first sum that reaches the need fits.** -/
theorem accumulate_isSome (got : Nat) (l : List α) (hgot : got < 2 ^ w) :
    (accumulate w needed weight got l).isSome ↔
      ∀ k < l.length, got + top weight l k < needed → got + top weight l (k + 1) < 2 ^ w := by
  induction l generalizing got with
  | nil => simp [accumulate]
  | cons x l ih =>
    unfold accumulate
    split
    · next h =>
      refine iff_of_true rfl fun k _ hlt => ?_
      omega
    · next h =>
      by_cases hadd : got + weight x < 2 ^ w
      · rw [Checked.add_of_lt hadd, Option.bind_some, Option.isSome_map]
        refine (ih _ hadd).trans ?_
        constructor
        · intro hall k hk hlt
          cases k with
          | zero => simpa [top_cons_succ] using hadd
          | succ k =>
            rw [top_cons_succ] at hlt ⊢
            have := hall k (by simpa using hk) (by omega)
            omega
        · intro hall k hk hlt
          have := hall (k + 1) (by simpa using hk) (by rw [top_cons_succ]; omega)
          rw [top_cons_succ] at this
          omega
      · rw [Checked.add_eq_none.mpr (Nat.le_of_not_lt hadd), Option.bind_none]
        refine iff_of_false Bool.false_ne_true fun hall => ?_
        have := hall 0 (Nat.succ_pos _) (by rw [top_zero]; omega)
        rw [top_cons_succ, top_zero] at this
        omega

theorem accumulate_eq {got : Nat} {l out : List α} (h : accumulate w needed weight got l = some out) :
    out = l.take (reach weight needed got l) := by
  induction l generalizing got out with
  | nil =>
    obtain rfl : [] = out := Option.some.inj h
    rfl
  | cons x l ih =>
    unfold accumulate at h
    unfold reach
    split at h
    · next hle =>
      rw [if_pos hle]
      exact (Option.some.inj h).symm
    · next hle =>
      obtain ⟨got', hadd, h⟩ := Option.bind_eq_some_iff.mp h
      obtain ⟨rest, hrest, rfl⟩ := Option.map_eq_some_iff.mp h
      obtain ⟨-, rfl⟩ := Checked.fit_eq_some.mp hadd
      rw [if_neg hle, take_succ_cons, ← ih hrest]

theorem reaches_accumulate {out : List α} (h : accumulate w needed weight 0 l = some out) :
    ∃ k, out = l.take k ∧ Reaches weight needed l k := by
  have hreach : Reaches weight needed l (reach weight needed 0 l) := by
    obtain ⟨hle, hfewer, henough⟩ := reaches_reach 0 l
    simp only [Nat.zero_add] at hfewer henough
    exact ⟨hle, hfewer, henough⟩
  exact ⟨_, accumulate_eq h, hreach⟩

end Greedy
