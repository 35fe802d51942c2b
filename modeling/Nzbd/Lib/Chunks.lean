import Mathlib.Data.List.Range

/-!
# A list in chunks

`chunks n l` cuts a list into pieces of `n` elements; the last piece is what is
left.  If a key goes up along the list, a chunk is what lies between the keys of
its ends (`filter_between`), so a chunk can be handed out as an interval of keys
and taken back from it.
-/

namespace Chunks

open List

variable {α : Type*}

def chunks (n : Nat) (l : List α) : List (List α) :=
  (List.range ((l.length + n - 1) / n)).map fun i => (l.drop (i * n)).take n

theorem flatten_take (n k : Nat) (l : List α) :
    ((List.range k).map fun i => (l.drop (i * n)).take n).flatten = l.take (k * n) := by
  induction k with
  | zero => simp
  | succ k ih =>
    rw [range_succ, map_append, flatten_append, ih, Nat.succ_mul, take_add]
    simp

/-- **The chunks are the list.** -/
theorem flatten_chunks {n : Nat} (hn : 0 < n) (l : List α) : (chunks n l).flatten = l := by
  rw [chunks, flatten_take]
  refine take_of_length_le ?_
  have hdiv := Nat.div_add_mod (l.length + n - 1) n
  have hmod := Nat.mod_lt (l.length + n - 1) hn
  rw [Nat.mul_comm] at hdiv
  omega

theorem ne_nil_of_mem {n : Nat} (hn : 0 < n) {l c : List α} (hc : c ∈ chunks n l) : c ≠ [] := by
  obtain ⟨i, hi, rfl⟩ := mem_map.mp hc
  have hi := mem_range.mp hi
  have hlt : i * n < l.length := by
    have hle := Nat.mul_le_of_le_div n (i + 1) (l.length + n - 1) hi
    rw [Nat.succ_mul] at hle
    omega
  intro hnil
  have hlen := congrArg length hnil
  rw [length_take, length_drop, length_nil] at hlen
  omega

theorem exists_split {n : Nat} {l c : List α} (hc : c ∈ chunks n l) :
    ∃ pre post, l = pre ++ c ++ post := by
  obtain ⟨i, -, rfl⟩ := mem_map.mp hc
  refine ⟨l.take (i * n), (l.drop (i * n)).drop n, ?_⟩
  rw [append_assoc, take_append_drop, take_append_drop]

theorem filter_between {key : α → Nat} {pre c post : List α}
    (h : (pre ++ c ++ post).Pairwise fun a b => key a < key b) (hne : c ≠ []) :
    (pre ++ c ++ post).filter (fun a => key (c.head hne) ≤ key a && key a ≤ key (c.getLast hne)) =
      c := by
  obtain ⟨hleft, -, hpost⟩ := pairwise_append.mp h
  obtain ⟨-, hc, hpre⟩ := pairwise_append.mp hleft
  have hhead : ∀ a ∈ c, key (c.head hne) ≤ key a := by
    intro a ha
    cases c with
    | nil => exact absurd rfl hne
    | cons x xs =>
      rcases mem_cons.mp ha with rfl | ha
      · exact Nat.le_refl _
      · exact Nat.le_of_lt (rel_of_pairwise_cons hc ha)
  have hlast : ∀ a ∈ c, key a ≤ key (c.getLast hne) := by
    intro a ha
    rw [← dropLast_append_getLast hne] at ha hc
    rcases mem_append.mp ha with ha | ha
    · exact Nat.le_of_lt ((pairwise_append.mp hc).2.2 a ha _ (mem_singleton_self _))
    · rw [mem_singleton.mp ha]
  rw [filter_append, filter_append]
  have h₁ : pre.filter (fun a => key (c.head hne) ≤ key a && key a ≤ key (c.getLast hne)) = [] := by
    refine filter_eq_nil_iff.mpr fun a ha => ?_
    have hlt := hpre a ha _ (head_mem hne)
    simp
    omega
  have h₂ : post.filter (fun a => key (c.head hne) ≤ key a && key a ≤ key (c.getLast hne)) = [] := by
    refine filter_eq_nil_iff.mpr fun a ha => ?_
    have hlt := hpost _ (mem_append_right _ (getLast_mem hne)) a ha
    simp
    omega
  have h₃ : c.filter (fun a => key (c.head hne) ≤ key a && key a ≤ key (c.getLast hne)) = c :=
    filter_eq_self.mpr fun a ha => by simp [hhead a ha, hlast a ha]
  rw [h₁, h₂, h₃, nil_append, append_nil]

theorem pairwise_chunks {key : α → Nat} {n : Nat} (hn : 0 < n) {l : List α}
    (h : l.Pairwise fun a b => key a < key b) :
    (chunks n l).Pairwise fun c d => ∀ a ∈ c, ∀ b ∈ d, key a < key b := by
  rw [← flatten_chunks hn l, pairwise_flatten] at h
  exact h.2

end Chunks
