import Mathlib.Algebra.GroupWithZero.Nat
import Mathlib.Data.List.Basic

/-!
# Tables

A table is a list of rows with a key each.  `put` replaces the row with the key of the new
one, or adds it; `get` is the first row with a key.  What a `put` does to `get` and to
membership is all that is said of tables.
-/

namespace Table

open List

variable {α κ : Type*} [DecidableEq κ] (key : α → κ)

def get (t : List α) (k : κ) : Option α := t.find? fun r => key r = k

def put (t : List α) (r : α) : List α :=
  if t.any fun r' => key r' = key r then t.map fun r' => if key r' = key r then r else r'
  else t ++ [r]

variable {key} {t : List α} {r : α}

theorem key_of_get {k : κ} (h : get key t k = some r) : key r = k := by
  simpa using find?_some h

theorem mem_of_get {k : κ} (h : get key t k = some r) : r ∈ t :=
  mem_of_find?_eq_some h

theorem get_map_of_ne {k : κ} (h : key r ≠ k) :
    get key (t.map fun r' => if key r' = key r then r else r') k = get key t k := by
  induction t with
  | nil => rfl
  | cons a t ih =>
    unfold get at ih ⊢
    rw [map_cons]
    by_cases ha : key a = k
    · have hne : key a ≠ key r := fun he => h (he.symm.trans ha)
      rw [if_neg hne, find?_cons_of_pos (by simpa using ha),
        find?_cons_of_pos (by simpa using ha)]
    · have hne : key (if key a = key r then r else a) ≠ k := by split_ifs <;> assumption
      rw [find?_cons_of_neg (by simpa using hne), find?_cons_of_neg (by simpa using ha)]
      exact ih

theorem get_map_self (h : ∃ a ∈ t, key a = key r) :
    get key (t.map fun r' => if key r' = key r then r else r') (key r) = some r := by
  induction t with
  | nil => obtain ⟨a, ha, -⟩ := h; cases ha
  | cons a t ih =>
    unfold get at ih ⊢
    rw [map_cons]
    by_cases ha : key a = key r
    · rw [if_pos ha, find?_cons_of_pos (by simp)]
    · rw [if_neg ha, find?_cons_of_neg (by simpa using ha)]
      refine ih ?_
      obtain ⟨b, hb, hk⟩ := h
      rcases mem_cons.mp hb with rfl | hb
      · exact absurd hk ha
      · exact ⟨b, hb, hk⟩

/-- **The row that has been put is the one that is got.** -/
theorem get_put_self (t : List α) (r : α) : get key (put key t r) (key r) = some r := by
  unfold put
  split_ifs with h
  · obtain ⟨a, ha, hk⟩ := any_eq_true.mp h
    exact get_map_self ⟨a, ha, by simpa using hk⟩
  · have hnone : t.find? (fun r' => key r' = key r) = none :=
      find?_eq_none.mpr fun a ha hk => h (any_eq_true.mpr ⟨a, ha, hk⟩)
    unfold get
    rw [find?_append, hnone, Option.none_or, find?_cons_of_pos (by simp)]

theorem get_put_of_ne {k : κ} (h : key r ≠ k) :
    get key (put key t r) k = get key t k := by
  unfold put
  split_ifs
  · exact get_map_of_ne h
  · unfold get
    rw [find?_append, find?_cons_of_neg (by simpa using h), find?_nil, Option.or_none]

theorem mem_put {r a : α} (h : a ∈ put key t r) : a = r ∨ a ∈ t ∧ key a ≠ key r := by
  unfold put at h
  split_ifs at h with hany
  · obtain ⟨b, hb, rfl⟩ := mem_map.mp h
    split_ifs with hk
    · exact .inl rfl
    · exact .inr ⟨hb, hk⟩
  · rcases mem_append.mp h with h | h
    · refine .inr ⟨h, fun hk => hany (any_eq_true.mpr ⟨a, h, by simpa using hk⟩)⟩
    · exact .inl (mem_singleton.mp h)

theorem keys_put_of_mem (h : key r ∈ t.map key) :
    (put key t r).map key = t.map key := by
  obtain ⟨a, ha, hk⟩ := mem_map.mp h
  rw [put, if_pos (any_eq_true.mpr ⟨a, ha, by simpa using hk⟩), map_map]
  refine map_congr_left fun b _ => ?_
  simp only [Function.comp_apply]
  split_ifs with hb
  · exact hb.symm
  · rfl

theorem keys_put_of_not_mem (h : key r ∉ t.map key) :
    (put key t r).map key = t.map key ++ [key r] := by
  have hany : ¬(t.any fun r' => key r' = key r) = true := fun hany => by
    obtain ⟨a, ha, hk⟩ := any_eq_true.mp hany
    exact h (mem_map.mpr ⟨a, ha, by simpa using hk⟩)
  rw [put, if_neg hany, map_append, map_singleton]

theorem nodup_put (h : (t.map key).Nodup) : ((put key t r).map key).Nodup := by
  by_cases hr : key r ∈ t.map key
  · rwa [keys_put_of_mem hr]
  · rw [keys_put_of_not_mem hr]
    exact nodup_append.mpr ⟨h, by simp, fun a ha b hb => by
      rw [mem_singleton.mp hb]
      exact fun he => hr (he ▸ ha)⟩

theorem get_of_mem (h : (t.map key).Nodup) (hr : r ∈ t) :
    get key t (key r) = some r := by
  induction t with
  | nil => cases hr
  | cons a t ih =>
    rw [map_cons, nodup_cons] at h
    unfold get
    rcases mem_cons.mp hr with rfl | hr
    · rw [find?_cons_of_pos (by simp)]
    · have hne : key a ≠ key r := fun he => h.1 (he ▸ mem_map_of_mem hr)
      rw [find?_cons_of_neg (by simpa using hne)]
      exact ih h.2 hr

end Table
