import Mathlib.Order.Basic
import Mathlib.Order.Defs.LinearOrder
import Mathlib.Order.Lattice
import Nzbd.Lib.Table

/-!
# Sums of the latest period

A counter that holds one key and what has been added under it: another key begins at zero again.
In a table of such counters, whose keys never decrease, the sum under the latest key, or under a
later one, is what has been added under it, whichever counter it was added to (`total_put`).
-/

namespace Table

variable {α κ : Type*} [DecidableEq κ] {key : α → κ} (f : α → Nat)

theorem sum_map_replace {t : List α} {r a : α} (hnodup : (t.map key).Nodup)
    (ha : get key t (key r) = some a) :
    ((t.map fun r' => if key r' = key r then r else r').map f).sum + f a = (t.map f).sum + f r := by
  induction t with
  | nil => cases ha
  | cons b t ih =>
    rw [List.map_cons, List.nodup_cons] at hnodup
    unfold get at ha ih
    rw [List.map_cons, List.map_cons, List.map_cons, List.sum_cons, List.sum_cons]
    by_cases hb : key b = key r
    · rw [List.find?_cons_of_pos (by simpa using hb), Option.some_inj] at ha
      have hrest : (t.map fun r' => if key r' = key r then r else r') = t := by
        refine (List.map_congr_left fun c hc => if_neg fun hk => hnodup.1 ?_).trans (List.map_id t)
        rw [hb, ← hk]
        exact List.mem_map_of_mem hc
      rw [if_pos hb, hrest, ha]
      omega
    · rw [List.find?_cons_of_neg (by simpa using hb)] at ha
      have hsum := ih hnodup.2 ha
      rw [if_neg hb]
      omega

/-- **The sum over the rows** when a row takes the place of another one. -/
theorem sum_put {t : List α} (r : α) (hnodup : (t.map key).Nodup) :
    ((put key t r).map f).sum + (get key t (key r)).elim 0 f = (t.map f).sum + f r := by
  cases ha : get key t (key r) with
  | some a =>
    have hmem : (t.any fun r' => key r' = key r) = true :=
      List.any_eq_true.mpr ⟨a, mem_of_get ha, by simpa using key_of_get ha⟩
    rw [put, if_pos hmem]
    exact sum_map_replace f hnodup ha
  | none =>
    have hmem : ¬(t.any fun r' => key r' = key r) = true := fun hany => by
      obtain ⟨a, hat, hk⟩ := List.any_eq_true.mp hany
      exact List.find?_eq_none.mp ha a hat hk
    rw [put, if_neg hmem, List.map_append, List.sum_append, List.map_singleton, List.sum_singleton]
    rfl

end Table

namespace Rolling

variable {κ : Type*} [LinearOrder κ]

/-- Another key begins at zero. -/
def add (w : κ × Nat) (k : κ) (b : Nat) : κ × Nat := (k, (if w.1 = k then w.2 else 0) + b)

/-- The sum under a key. -/
def under (k : κ) (w : κ × Nat) : Nat := if w.1 = k then w.2 else 0

theorem under_add_self (w : κ × Nat) (k : κ) (b : Nat) : under k (add w k b) = under k w + b :=
  if_pos rfl

theorem under_add_of_lt (w : κ × Nat) {k k' : κ} (b : Nat) (h : k < k') : under k' (add w k b) = 0 :=
  if_neg h.ne

/-! ### A table of counters -/

variable {α ι : Type*} [DecidableEq ι] {key : α → ι} (count : α → κ × Nat)

def total (t : List α) (k : κ) : Nat := (t.map fun r => under k (count r)).sum

theorem total_eq (t : List α) (k : κ) :
    total count t k = ((t.filter fun r => (count r).1 = k).map fun r => (count r).2).sum := by
  unfold total
  induction t with
  | nil => rfl
  | cons r t ih =>
    rw [List.map_cons, List.sum_cons, ih, List.filter_cons, under]
    by_cases hr : (count r).1 = k
    · rw [if_pos hr, if_pos (by simpa using hr), List.map_cons, List.sum_cons]
    · rw [if_neg hr, if_neg (by simpa using hr), Nat.zero_add]

/-- **One counter is added to** under a key that is the latest: what counts under it goes up by
as much, and nothing counts under those to come. -/
theorem total_put {t : List α} {r : α} {w : κ × Nat} {k : κ} {b : Nat} {sum : κ → Nat}
    (hnodup : (t.map key).Nodup)
    (hw : ∀ k, (Table.get key t (key r)).elim 0 (fun r' => under k (count r')) = under k w)
    (hr : count r = add w k b) (hsum : ∀ k', k ≤ k' → total count t k' = sum k')
    (hlate : ∀ k', k < k' → sum k' = 0) {k' : κ} (hk : k ≤ k') :
    total count (Table.put key t r) k' = sum k' + if k = k' then b else 0 := by
  have hput := Table.sum_put (fun r' => under k' (count r')) r hnodup
  rw [hw, hr] at hput
  have hbefore : (t.map fun r' => under k' (count r')).sum = sum k' := hsum k' hk
  rw [total]
  rcases eq_or_lt_of_le hk with rfl | hlt
  · rw [under_add_self] at hput
    rw [if_pos rfl]
    omega
  · rw [under_add_of_lt w b hlt] at hput
    have hzero := hlate k' hlt
    rw [if_neg hlt.ne]
    omega

end Rolling
