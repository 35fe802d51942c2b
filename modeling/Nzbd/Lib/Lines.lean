import Mathlib.Algebra.GroupWithZero.Nat
import Mathlib.Data.List.Basic

/-!
# Lines

A text is its complete lines, each with a separator behind it, and a torn one at the
end, which may be empty (`joined_complete_append_torn`).  What is appended to a text
completes its torn line first (`complete_append`).
-/

namespace Lines

open List

variable {α : Type*} (s : α)

/-- Some lines with their separators. -/
def joined (ls : List (List α)) : List α := ls.flatMap (· ++ [s])

@[simp] theorem joined_nil : joined s [] = [] := rfl

theorem joined_cons (l : List α) (ls : List (List α)) :
    joined s (l :: ls) = l ++ s :: joined s ls := by
  rw [joined, flatMap_cons, append_assoc, singleton_append]
  rfl

theorem joined_append (ls ls' : List (List α)) :
    joined s (ls ++ ls') = joined s ls ++ joined s ls' := flatMap_append

theorem length_joined (ls : List (List α)) :
    (joined s ls).length = (ls.map fun l => l.length + 1).sum := by
  simp [joined, length_flatMap]

theorem joined_append_eq_intercalate (ls : List (List α)) (l : List α) :
    joined s ls ++ l = [s].intercalate (ls ++ [l]) := by
  induction ls with
  | nil => simp
  | cons a ls ih =>
    have hne : ls ++ [l] ≠ [] := by simp
    rw [joined_cons, append_assoc, cons_append, ih, cons_append,
      intercalate_cons_of_ne_nil hne, append_assoc, singleton_append]

variable [BEq α]

def complete (xs : List α) : List (List α) := (xs.splitOn s).dropLast

def torn (xs : List α) : List α := (xs.splitOn s).getLast (List.splitOn_ne_nil s xs)

theorem complete_append_torn (xs : List α) :
    complete s xs ++ [torn s xs] = xs.splitOn s := dropLast_append_getLast _

variable [LawfulBEq α] {s}

/-- **A text is its complete lines and a torn one.** -/
theorem joined_complete_append_torn (xs : List α) :
    joined s (complete s xs) ++ torn s xs = xs := by
  rw [joined_append_eq_intercalate, complete_append_torn, intercalate_splitOn]

theorem not_mem_of_mem_splitOn {xs l : List α} (h : l ∈ xs.splitOn s) : s ∉ l := by
  induction xs generalizing l with
  | nil =>
    obtain rfl : l = [] := by simpa using h
    exact not_mem_nil
  | cons x xs ih =>
    rw [splitOn_cons_eq_if_modifyHead] at h
    split at h
    next =>
      rcases mem_cons.mp h with rfl | h
      · exact not_mem_nil
      · exact ih h
    next hx =>
      cases hls : xs.splitOn s with
      | nil => exact absurd hls (splitOn_ne_nil s xs)
      | cons l' ls =>
        rw [hls] at h ih
        rcases mem_cons.mp h with rfl | h
        · intro hmem
          rcases mem_cons.mp hmem with rfl | hmem
          · simp at hx
          · exact ih mem_cons_self hmem
        · exact ih (mem_cons_of_mem _ h)

theorem not_mem_complete {xs l : List α} (h : l ∈ complete s xs) : s ∉ l :=
  not_mem_of_mem_splitOn (dropLast_subset _ h)

theorem not_mem_torn (xs : List α) : s ∉ torn s xs :=
  not_mem_of_mem_splitOn (getLast_mem _)

theorem splitOn_joined_append {ls : List (List α)} (h : ∀ l ∈ ls, s ∉ l) (xs : List α) :
    (joined s ls ++ xs).splitOn s = ls ++ xs.splitOn s := by
  induction ls with
  | nil => rfl
  | cons l ls ih =>
    rw [joined_cons, append_assoc, cons_append,
      splitOn_append_cons_self_of_not_mem (h l mem_cons_self),
      ih fun l hl => h l (mem_cons_of_mem _ hl)]
    rfl

theorem complete_joined_append {ls : List (List α)} (h : ∀ l ∈ ls, s ∉ l) (xs : List α) :
    complete s (joined s ls ++ xs) = ls ++ complete s xs := by
  rw [complete, splitOn_joined_append h,
    dropLast_append_of_ne_nil (splitOn_ne_nil s xs)]
  rfl

theorem complete_of_not_mem {xs : List α} (h : s ∉ xs) : complete s xs = [] := by
  rw [complete, splitOn_eq_singleton h]
  rfl

theorem complete_joined {ls : List (List α)} (h : ∀ l ∈ ls, s ∉ l) :
    complete s (joined s ls) = ls := by
  have hls := complete_joined_append h []
  rwa [append_nil, complete_of_not_mem not_mem_nil, append_nil] at hls

/-- **What is appended completes the torn line first.** -/
theorem complete_append (xs ys : List α) :
    complete s (xs ++ ys) = complete s xs ++ complete s (torn s xs ++ ys) := by
  have hxs : xs ++ ys = joined s (complete s xs) ++ (torn s xs ++ ys) := by
    rw [← append_assoc, joined_complete_append_torn]
  conv_lhs => rw [hxs]
  exact complete_joined_append (fun l hl => not_mem_complete hl) _

theorem drop_joined_complete (xs ys : List α) :
    (xs ++ ys).drop (joined s (complete s xs)).length = torn s xs ++ ys := by
  have hxs : xs ++ ys = joined s (complete s xs) ++ (torn s xs ++ ys) := by
    rw [← append_assoc, joined_complete_append_torn]
  conv_lhs => rw [hxs]
  exact drop_left

theorem torn_of_not_mem {xs : List α} (h : s ∉ xs) : torn s xs = xs := by
  have hcomplete := joined_complete_append_torn (s := s) xs
  rwa [complete_of_not_mem h] at hcomplete

theorem torn_joined_append {ls : List (List α)} (h : ∀ l ∈ ls, s ∉ l) (xs : List α) :
    torn s (joined s ls ++ xs) = torn s xs := by
  have hcomplete := joined_complete_append_torn (s := s) (joined s ls ++ xs)
  rw [complete_joined_append h, joined_append, append_assoc] at hcomplete
  have htail := append_cancel_left hcomplete
  have hxs := joined_complete_append_torn (s := s) xs
  exact append_cancel_left (htail.trans hxs.symm)

theorem torn_line {l : List α} (h : s ∉ l) : torn s (l ++ [s]) = [] := by
  have hline := torn_joined_append (s := s) (show ∀ l' ∈ [l], s ∉ l' by simpa using h) []
  rw [joined_cons, joined_nil, append_nil, torn_of_not_mem not_mem_nil] at hline
  exact hline

theorem append_joined (xs l : List α) (ls : List (List α)) :
    xs ++ joined s (l :: ls) = joined s (complete s xs ++ (torn s xs ++ l) :: ls) := by
  conv_lhs => rw [← joined_complete_append_torn (s := s) xs]
  rw [joined_append, joined_cons, joined_cons, append_assoc, append_assoc]

theorem complete_append_joined (xs : List α) {l : List α} {ls : List (List α)}
    (h : ∀ l' ∈ l :: ls, s ∉ l') : complete s (xs ++ joined s (l :: ls)) =
      complete s xs ++ (torn s xs ++ l) :: ls := by
  rw [append_joined, complete_joined]
  intro l' hl'
  rcases mem_append.mp hl' with hl' | hl'
  · exact not_mem_complete hl'
  · rcases mem_cons.mp hl' with rfl | hl'
    · rw [mem_append, not_or]
      exact ⟨not_mem_torn xs, h l mem_cons_self⟩
    · exact h l' (mem_cons_of_mem _ hl')

theorem torn_append_joined (xs : List α) {l : List α} {ls : List (List α)}
    (h : ∀ l' ∈ l :: ls, s ∉ l') : torn s (xs ++ joined s (l :: ls)) = [] := by
  have hsplit := joined_complete_append_torn (s := s) (xs ++ joined s (l :: ls))
  rw [complete_append_joined xs h, ← append_joined] at hsplit
  exact append_right_eq_self.mp hsplit

end Lines
