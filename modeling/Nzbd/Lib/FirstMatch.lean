import Mathlib.Data.List.Forall2

/-!
# Changing the first match

`modifyFirst p f l` applies `f` to the first entry of `l` that satisfies `p`:
what a mutable reference obtained by a linear search does.  A list is then a
record of rows with a key, and `modifyFirst` is the update of one row.

`modifyFirst_split` shows the row; the other lemmas say what a search, a
membership or a projection sees afterwards.
-/

namespace List

variable {α β : Type*} {p q : α → Bool} {f : α → α} {l : List α} {a b : α}

def modifyFirst (p : α → Bool) (f : α → α) : List α → List α
  | [] => []
  | a :: l => if p a then f a :: l else a :: modifyFirst p f l

theorem modifyFirst_cons_pos (h : p a = true) : modifyFirst p f (a :: l) = f a :: l := if_pos h

theorem modifyFirst_cons_neg (h : p a = false) :
    modifyFirst p f (a :: l) = a :: modifyFirst p f l := if_neg (by simp [h])

/-- **The row that changes**, with what stands before and behind it. -/
theorem modifyFirst_split (h : l.find? p = some a) :
    ∃ s t, l = s ++ a :: t ∧ modifyFirst p f l = s ++ f a :: t ∧ p a = true ∧
      ∀ b ∈ s, p b = false := by
  induction l with
  | nil => simp at h
  | cons b l ih =>
    cases hb : p b with
    | true =>
      rw [find?_cons_of_pos hb, Option.some.injEq] at h
      subst h
      exact ⟨[], l, rfl, modifyFirst_cons_pos hb, hb, by simp⟩
    | false =>
      rw [find?_cons_of_neg (by simp [hb])] at h
      obtain ⟨s, t, h1, h2, h3, h4⟩ := ih h
      refine ⟨b :: s, t, by rw [h1]; rfl, ?_, h3, ?_⟩
      · rw [modifyFirst_cons_neg hb, h2]; rfl
      · intro c hc
        rcases mem_cons.mp hc with rfl | hc
        · exact hb
        · exact h4 c hc

theorem modifyFirst_of_find?_eq_none (h : l.find? p = none) : modifyFirst p f l = l := by
  induction l with
  | nil => rfl
  | cons b l ih =>
    rw [find?_eq_none] at h
    rw [modifyFirst_cons_neg (by simpa using h b (by simp)),
      ih (find?_eq_none.mpr fun x hx => h x (by simp [hx]))]

theorem mem_modifyFirst (h : b ∈ modifyFirst p f l) :
    b ∈ l ∨ ∃ a, l.find? p = some a ∧ b = f a := by
  cases hf : l.find? p with
  | none => exact .inl (modifyFirst_of_find?_eq_none hf ▸ h)
  | some a =>
    obtain ⟨s, t, h1, h2, h3, h4⟩ := modifyFirst_split (f := f) hf
    rw [h2] at h
    simp only [mem_append, mem_cons] at h
    rcases h with h | h | h
    · exact .inl (by simp [h1, h])
    · exact .inr ⟨a, rfl, h⟩
    · exact .inl (by simp [h1, h])

theorem map_modifyFirst {g : α → β} (h : ∀ a, p a = true → g (f a) = g a) :
    (modifyFirst p f l).map g = l.map g := by
  induction l with
  | nil => rfl
  | cons b l ih =>
    cases hb : p b with
    | true => rw [modifyFirst_cons_pos hb, map_cons, map_cons, h b hb]
    | false => rw [modifyFirst_cons_neg hb, map_cons, map_cons, ih]

theorem find?_modifyFirst (h : ∀ a, p a = true → p (f a) = true) :
    (modifyFirst p f l).find? p = (l.find? p).map f := by
  induction l with
  | nil => rfl
  | cons b l ih =>
    cases hb : p b with
    | true => rw [modifyFirst_cons_pos hb, find?_cons_of_pos (h b hb), find?_cons_of_pos hb]; rfl
    | false =>
      rw [modifyFirst_cons_neg hb, find?_cons_of_neg (by simp [hb]),
        find?_cons_of_neg (by simp [hb]), ih]

theorem find?_modifyFirst_of_disjoint (h : ∀ a, p a = true → q a = false ∧ q (f a) = false) :
    (modifyFirst p f l).find? q = l.find? q := by
  induction l with
  | nil => rfl
  | cons b l ih =>
    cases hb : p b with
    | true =>
      obtain ⟨h1, h2⟩ := h b hb
      rw [modifyFirst_cons_pos hb, find?_cons_of_neg (by simp [h2]),
        find?_cons_of_neg (by simp [h1])]
    | false =>
      rw [modifyFirst_cons_neg hb]
      cases hq : q b with
      | true => rw [find?_cons_of_pos hq, find?_cons_of_pos hq]
      | false => rw [find?_cons_of_neg (by simp [hq]), find?_cons_of_neg (by simp [hq]), ih]

theorem forall₂_self_modifyFirst {R : α → α → Prop} (hrefl : ∀ a, R a a)
    (hf : ∀ a, l.find? p = some a → R a (f a)) : Forall₂ R l (modifyFirst p f l) := by
  cases hl : l.find? p with
  | none =>
    rw [modifyFirst_of_find?_eq_none hl]
    exact forall₂_same.mpr fun a _ => hrefl a
  | some a =>
    obtain ⟨s, t, h1, h2, -, -⟩ := modifyFirst_split (f := f) hl
    have hself : ∀ m : List α, Forall₂ R m m := fun m => forall₂_same.mpr fun b _ => hrefl b
    have hrows : ∀ u : List α, Forall₂ R (u ++ a :: t) (u ++ f a :: t) := by
      intro u
      induction u with
      | nil => exact .cons (hf a hl) (hself t)
      | cons b u ih => exact .cons (hrefl b) ih
    rw [h2]
    exact h1 ▸ hrows s

theorem forall₂_find? {R : α → β → Prop} {r : β → Bool} {m : List β}
    (hp : ∀ a b, R a b → p a = r b) (h : Forall₂ R l m) :
    (l.find? p = none ∧ m.find? r = none) ∨
      ∃ a b, l.find? p = some a ∧ m.find? r = some b ∧ R a b := by
  induction h with
  | nil => exact .inl ⟨rfl, rfl⟩
  | @cons a b l m hab _ ih =>
    cases ha : p a with
    | true =>
      exact .inr ⟨a, b, find?_cons_of_pos ha, find?_cons_of_pos (hp a b hab ▸ ha), hab⟩
    | false =>
      rw [find?_cons_of_neg (by simp [ha]), find?_cons_of_neg (by simp [← hp a b hab, ha])]
      exact ih

theorem exists_of_mem_forall₂ {R : α → β → Prop} {m : List β} (h : Forall₂ R l m) {b : β}
    (hb : b ∈ m) : ∃ a ∈ l, R a b := by
  induction h with
  | nil => simp at hb
  | @cons a c l m hac _ ih =>
    rcases mem_cons.mp hb with rfl | hb
    · exact ⟨a, mem_cons_self, hac⟩
    · obtain ⟨x, hx, hr⟩ := ih hb
      exact ⟨x, mem_cons_of_mem _ hx, hr⟩

theorem forall₂_modifyFirst {R : α → β → Prop} {r : β → Bool} {g : β → β} {m : List β}
    (hp : ∀ a b, R a b → p a = r b) (hf : ∀ a b, R a b → R (f a) (g b)) (h : Forall₂ R l m) :
    Forall₂ R (modifyFirst p f l) (modifyFirst r g m) := by
  induction h with
  | nil => exact .nil
  | @cons a b l m hab _ ih =>
    cases ha : p a with
    | true =>
      rw [modifyFirst_cons_pos ha, modifyFirst_cons_pos (hp a b hab ▸ ha)]
      exact .cons (hf a b hab) ‹_›
    | false =>
      rw [modifyFirst_cons_neg ha, modifyFirst_cons_neg (hp a b hab ▸ ha)]
      exact .cons hab ih

theorem find?_key_eq {κ : Type*} [DecidableEq κ] {key : α → κ} (h : (l.map key).Nodup)
    (ha : a ∈ l) : l.find? (fun b => key b = key a) = some a := by
  induction l with
  | nil => simp at ha
  | cons b l ih =>
    rw [map_cons, nodup_cons] at h
    rcases mem_cons.mp ha with rfl | ha
    · exact find?_cons_of_pos (by simp)
    · have hne : key b ≠ key a := fun he => h.1 (he ▸ mem_map_of_mem ha)
      rw [find?_cons_of_neg (by simpa using hne), ih h.2 ha]

theorem modifyFirst_eq_map {κ : Type*} [DecidableEq κ] {key : α → κ} {k : κ}
    (h : (l.map key).Nodup) :
    modifyFirst (fun a => key a = k) f l = l.map fun a => if key a = k then f a else a := by
  induction l with
  | nil => rfl
  | cons a l ih =>
    rw [map_cons, nodup_cons] at h
    by_cases ha : key a = k
    · have hrest : l.map (fun b => if key b = k then f b else b) = l := by
        refine (map_congr_left fun b hb => if_neg fun hbk => ?_).trans (map_id l)
        exact h.1 (ha.trans hbk.symm ▸ mem_map_of_mem hb)
      rw [modifyFirst_cons_pos (by simpa using ha), map_cons, if_pos ha, hrest]
    · rw [modifyFirst_cons_neg (by simpa using ha), map_cons, if_neg ha, ih h.2]

theorem key_ne_of_mem_eraseP {κ : Type*} [DecidableEq κ] {key : α → κ} {k : κ}
    (h : (l.map key).Nodup) (hb : b ∈ l.eraseP fun a => key a = k) : key b ≠ k := by
  induction l with
  | nil => simp at hb
  | cons a l ih =>
    rw [map_cons, nodup_cons] at h
    by_cases ha : key a = k
    · rw [eraseP_cons_of_pos (by simpa using ha)] at hb
      rintro rfl
      exact h.1 (ha ▸ mem_map_of_mem hb)
    · rw [eraseP_cons_of_neg (by simpa using ha)] at hb
      rcases mem_cons.mp hb with rfl | hb
      · exact ha
      · exact ih h.2 hb

theorem cons_perm_eraseP (h : l.find? p = some a) : (a :: l.eraseP p).Perm l := by
  induction l with
  | nil => simp at h
  | cons b l ih =>
    cases hb : p b with
    | true =>
      rw [find?_cons_of_pos hb, Option.some.injEq] at h
      rw [eraseP_cons_of_pos hb, h]
    | false =>
      rw [find?_cons_of_neg (by simp [hb])] at h
      rw [eraseP_cons_of_neg (by simp [hb])]
      exact (Perm.swap b a _).trans ((ih h).cons b)

/-! ### The last row -/

section Key

variable {κ : Type*} [DecidableEq κ] {key : α → κ} {k : κ}

end Key

end List
