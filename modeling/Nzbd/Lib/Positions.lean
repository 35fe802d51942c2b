import Mathlib.Data.List.Basic

/-!
# Positions of what a filter keeps

`positions p l` are the positions in `l` of the elements with `p`, in order: the
`i`-th element of `l.filter p` stands at `(positions p l)[i]` in `l`.

The two numberings part ways at the first element without `p`.  `positionsFrom_eq_iff`
says how long they agree, and `fixes_iff` that a set of numbers means the same
elements in both numberings only if it lies in front of that point: the position
of the `i`-th element is at least `i`, so the smallest number that moves is no
position at all.
-/

namespace Positions

variable {α : Type*} {p : α → Bool} {l : List α} {a : α} {n i j k : Nat}

/-- The positions, counted from `n`. -/
def positionsFrom (p : α → Bool) : Nat → List α → List Nat
  | _, [] => []
  | n, a :: l => if p a then n :: positionsFrom p (n + 1) l else positionsFrom p (n + 1) l

def positions (p : α → Bool) (l : List α) : List Nat := positionsFrom p 0 l

theorem positionsFrom_pos (h : p a = true) :
    positionsFrom p n (a :: l) = n :: positionsFrom p (n + 1) l := if_pos h

theorem positionsFrom_neg (h : p a = false) :
    positionsFrom p n (a :: l) = positionsFrom p (n + 1) l := if_neg (by simp [h])

theorem length_positionsFrom : (positionsFrom p n l).length = (l.filter p).length := by
  induction l generalizing n with
  | nil => rfl
  | cons a l ih =>
    cases ha : p a with
    | true => rw [positionsFrom_pos ha, List.filter_cons_of_pos ha]; simp [ih]
    | false => rw [positionsFrom_neg ha, List.filter_cons_of_neg (by simp [ha]), ih]

theorem le_positionsFrom (h : (positionsFrom p n l)[i]? = some k) : n + i ≤ k := by
  induction l generalizing n i with
  | nil => simp [positionsFrom] at h
  | cons a l ih =>
    cases ha : p a with
    | true =>
      rw [positionsFrom_pos ha] at h
      cases i with
      | zero =>
        have : n = k := by simpa using h
        omega
      | succ i => have := ih h; omega
    | false => have := ih (positionsFrom_neg ha ▸ h); omega

theorem filter_zipIdx : (l.zipIdx n).filter (fun e => p e.1) =
    (l.filter p).zip (positionsFrom p n l) := by
  induction l generalizing n with
  | nil => rfl
  | cons a l ih =>
    rw [List.zipIdx_cons]
    cases ha : p a with
    | true =>
      rw [List.filter_cons_of_pos (by exact ha), ih, List.filter_cons_of_pos ha,
        positionsFrom_pos ha, List.zip_cons_cons]
    | false =>
      rw [List.filter_cons_of_neg (by simp [ha]), ih, List.filter_cons_of_neg (by simp [ha]),
        positionsFrom_neg ha]

theorem positionsFrom_eq_iff (h : (positionsFrom p n l)[i]? = some k) :
    k = n + i ↔ ∀ a ∈ l.take (i + 1), p a = true := by
  induction l generalizing n i with
  | nil => simp [positionsFrom] at h
  | cons a l ih =>
    cases ha : p a with
    | true =>
      rw [positionsFrom_pos ha] at h
      cases i with
      | zero => simpa [ha] using h.symm
      | succ i =>
        have := ih h
        rw [List.take_succ_cons, List.forall_mem_cons, ← this]
        constructor
        · exact fun hk => ⟨ha, by omega⟩
        · exact fun hk => by omega
    | false =>
      have hle := le_positionsFrom (positionsFrom_neg ha ▸ h)
      rw [List.take_succ_cons, List.forall_mem_cons]
      constructor
      · intro hk
        omega
      · intro hall
        simp [ha] at hall

theorem fixes_iff {f : Nat → Nat} {s : Nat → Prop} (hf : ∀ i, s i → i ≤ f i) :
    (∀ k, s k ↔ ∃ i, s i ∧ f i = k) ↔ ∀ i, s i → f i = i := by
  constructor
  · intro h i
    induction i using Nat.strongRecOn with
    | ind i ih =>
      intro hi
      obtain ⟨j, hj, hji⟩ := (h i).mp hi
      rcases Nat.lt_or_ge j i with hlt | hge
      · have := ih j hlt hj
        omega
      · have := hf j hj
        obtain rfl : j = i := by omega
        exact hji
  · intro h k
    constructor
    · exact fun hk => ⟨k, hk, h k hk⟩
    · rintro ⟨i, hi, rfl⟩
      exact (h i hi).symm ▸ hi

end Positions
