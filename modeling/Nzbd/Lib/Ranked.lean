import Mathlib.Data.List.Sort
import Mathlib.Data.Prod.Lex

/-!
# The first few in an order

A list is sorted by a key, ties keep their places, and the first `n` are taken.
`mem_take_insertionSort` says who they are without the sort: those with fewer than
`n` rows before them, by the key and then by their place.
-/

namespace Ranked

open List

variable {α κ : Type*} [LinearOrder κ]

/-- How many rows come before this one. -/
def rank (key : α → κ) (l : List α) (a : α) : Nat := l.countP fun b => key b < key a

theorem rank_perm {key : α → κ} {l l' : List α} (h : l.Perm l') (a : α) :
    rank key l a = rank key l' a := h.countP_eq _

theorem mem_take_iff_rank_lt {key : α → κ} {l : List α} (h : l.Pairwise fun a b => key a < key b)
    (n : Nat) (a : α) : a ∈ l.take n ↔ a ∈ l ∧ rank key l a < n := by
  induction l generalizing n with
  | nil => simp
  | cons b l ih =>
    obtain ⟨hb, hl⟩ := pairwise_cons.mp h
    cases n with
    | zero => simp
    | succ n =>
      rw [take_succ_cons, mem_cons, ih hl, mem_cons, rank, rank, countP_cons]
      constructor
      · rintro (rfl | ⟨ha, hrank⟩)
        · have hnone : l.countP (fun b => key b < key a) = 0 := by
            rw [countP_eq_zero]
            intro c hc
            simpa using (hb c hc).le
          refine ⟨.inl rfl, ?_⟩
          rw [hnone]
          simp
        · refine ⟨.inr ha, ?_⟩
          rw [if_pos (by simpa using hb a ha)]
          exact Nat.succ_lt_succ hrank
      · rintro ⟨rfl | ha, hrank⟩
        · exact .inl rfl
        · rw [if_pos (by simpa using hb a ha)] at hrank
          exact .inr ⟨ha, Nat.lt_of_succ_lt_succ hrank⟩

section Stable

variable {key : α → κ} {r : α → α → Prop} [DecidableRel r]

/-- Where a row stands: by the key, and then by its place. -/
def place (key : α → κ) (p : α × Nat) : κ ×ₗ Nat := toLex (key p.1, p.2)

theorem place_lt {p q : α × Nat} (hkey : key p.1 ≤ key q.1) (hpos : p.2 < q.2) :
    place key p < place key q := by
  refine (Prod.Lex.lt_iff ..).mpr ?_
  rcases hkey.lt_or_eq with h | h
  · exact .inl h
  · exact .inr ⟨h, hpos⟩

theorem key_le_of_place_lt {p q : α × Nat} (h : place key p < place key q) : key p.1 ≤ key q.1 := by
  rcases (Prod.Lex.lt_iff ..).mp h with h | ⟨h, -⟩
  · exact h.le
  · exact h.le

theorem pairwise_orderedInsert_place (hr : ∀ a b, r a b ↔ key a ≤ key b) {p : α × Nat}
    {l : List (α × Nat)} (hp : ∀ q ∈ l, p.2 < q.2)
    (hl : l.Pairwise fun a b => place key a < place key b) :
    (l.orderedInsert (fun a b => r a.1 b.1) p).Pairwise fun a b => place key a < place key b := by
  induction l with
  | nil => simp
  | cons q l ih =>
    obtain ⟨hq, hl'⟩ := pairwise_cons.mp hl
    rw [orderedInsert_cons]
    split
    next hle =>
      have hpq : key p.1 ≤ key q.1 := (hr _ _).mp hle
      refine pairwise_cons.mpr ⟨fun x hx => ?_, hl⟩
      rcases mem_cons.mp hx with rfl | hxl
      · exact place_lt hpq (hp _ hx)
      · exact place_lt (hpq.trans (key_le_of_place_lt (hq x hxl))) (hp x hx)
    next hlt =>
      have hqp : key q.1 < key p.1 := not_le.mp fun h => hlt ((hr _ _).mpr h)
      refine pairwise_cons.mpr ⟨fun x hx => ?_, ih (fun x hx => hp x (.tail _ hx)) hl'⟩
      rcases (mem_orderedInsert _).mp hx with rfl | hxl
      · exact (Prod.Lex.lt_iff ..).mpr (.inl hqp)
      · exact hq x hxl

/-- **The sort is stable.** -/
theorem pairwise_insertionSort_place (hr : ∀ a b, r a b ↔ key a ≤ key b) {l : List (α × Nat)}
    (hpos : l.Pairwise fun a b => a.2 < b.2) :
    (l.insertionSort fun a b => r a.1 b.1).Pairwise fun a b => place key a < place key b := by
  induction l with
  | nil => simp
  | cons p l ih =>
    obtain ⟨hp, hl⟩ := pairwise_cons.mp hpos
    rw [insertionSort_cons]
    exact pairwise_orderedInsert_place hr (fun q hq => hp q ((mem_insertionSort _).mp hq))
      (ih hl)

/-- **The first `n` of a sorted list are those of rank below `n`.** -/
theorem mem_take_insertionSort (hr : ∀ a b, r a b ↔ key a ≤ key b) {l : List (α × Nat)}
    (hpos : l.Pairwise fun a b => a.2 < b.2) (n : Nat) (a : α) :
    a ∈ ((l.map (·.1)).insertionSort r).take n ↔
      ∃ i, (a, i) ∈ l ∧ rank (place key) l (a, i) < n := by
  have hmap : (l.map (·.1)).insertionSort r =
      (l.insertionSort fun a b => r a.1 b.1).map (·.1) :=
    (map_insertionSort (fun a b : α × Nat => r a.1 b.1) r (·.1) l fun _ _ _ _ => Iff.rfl).symm
  have hperm := perm_insertionSort (fun a b : α × Nat => r a.1 b.1) l
  rw [hmap, ← map_take, mem_map]
  constructor
  · rintro ⟨⟨b, i⟩, hmem, rfl⟩
    obtain ⟨hin, hrank⟩ := (mem_take_iff_rank_lt (pairwise_insertionSort_place hr hpos) n _).mp hmem
    rw [rank_perm hperm] at hrank
    exact ⟨i, hperm.mem_iff.mp hin, hrank⟩
  · rintro ⟨i, hin, hrank⟩
    rw [← rank_perm hperm] at hrank
    refine ⟨(a, i), ?_, rfl⟩
    exact (mem_take_iff_rank_lt (pairwise_insertionSort_place hr hpos) n _).mpr
      ⟨hperm.mem_iff.mpr hin, hrank⟩

end Stable

end Ranked
