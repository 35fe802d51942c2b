import Mathlib.Data.List.Infix

/-!
# Wildcards

In a pattern `*` stands for any text, `?` for one character and every other character for itself.
`Reads` is that language, with a say in what a `*` may stand for in front of what: `Matches`
leaves it free, and in `ReadsApart` a `*` that meets a `*` of the text stands for that one
character.

`suffix_of_overlay` is why a search needs to go back to the last `*` only: where the part of the
pattern behind a `*` has been laid on the text, an earlier `*` that stands for more leaves no
more of the text than there is.
-/

namespace Wildcard

inductive Reads (may : List Char → List Char → Prop) : List Char → List Char → Prop
  | nil : Reads may [] []
  | many {p t : List Char} (u : List Char) : may u t → Reads may p t → Reads may ('*' :: p) (u ++ t)
  | one {p t : List Char} (c : Char) : Reads may p t → Reads may ('?' :: p) (c :: t)
  | char {p t : List Char} (c : Char) : c ≠ '*' → c ≠ '?' → Reads may p t → Reads may (c :: p) (c :: t)

/-- The text is in the language of the pattern. -/
abbrev Matches : List Char → List Char → Prop := Reads fun _ _ => True

/-- A `*` that meets a `*` stands for it and nothing more. -/
def Meets (u t : List Char) : Prop := (u ++ t).head? = some '*' → u = ['*']

abbrev ReadsApart : List Char → List Char → Prop := Reads Meets

variable {may may' : List Char → List Char → Prop} {p q t u v w m : List Char} {c x : Char}

theorem Reads.mono (hmay : ∀ u t, may u t → may' u t) (h : Reads may p t) : Reads may' p t := by
  induction h with
  | nil => exact .nil
  | many u hu _ ih => exact .many u (hmay _ _ hu) ih
  | one c _ ih => exact .one c ih
  | char c hstar hone _ ih => exact .char c hstar hone ih

theorem ReadsApart.matches (h : ReadsApart p t) : Matches p t := h.mono fun _ _ _ => trivial

/-! ### The first character of the pattern -/

theorem reads_many : Reads may ('*' :: p) t ↔ ∃ u v, t = u ++ v ∧ may u v ∧ Reads may p v := by
  constructor
  · intro h
    cases h with
    | many u hu h => exact ⟨u, _, rfl, hu, h⟩
    | char c hstar => exact absurd rfl hstar
  · rintro ⟨u, v, rfl, hu, h⟩
    exact .many u hu h

theorem reads_one : Reads may ('?' :: p) (c :: t) ↔ Reads may p t := by
  refine ⟨fun h => ?_, .one c⟩
  cases h with
  | one c h => exact h
  | char c hstar hone => exact absurd rfl hone

theorem reads_char (hstar : c ≠ '*') : Reads may (c :: p) (c :: t) ↔ Reads may p t := by
  by_cases hone : c = '?'
  · rw [hone]
    exact reads_one
  · refine ⟨fun h => ?_, .char c hstar hone⟩
    generalize htext : c :: t = s at h
    cases h with
    | many u => exact absurd rfl hstar
    | one => exact absurd rfl hone
    | char c _ _ h => exact (List.cons.inj htext).2 ▸ h

theorem not_reads_nil : ¬Reads may [] (c :: t) := fun h => by cases h

theorem not_reads_char (hone : x ≠ '?') (hc : x ≠ c) (hstar : x ≠ '*') : ¬Reads may (x :: p) (c :: t) := by
  intro h
  generalize htext : c :: t = s at h
  cases h with
  | many u => exact hstar rfl
  | one => exact hone rfl
  | char x _ _ h => exact hc (List.cons.inj htext).1.symm

theorem readsApart_star : ReadsApart ('*' :: p) ('*' :: t) ↔ ReadsApart p t := by
  refine reads_many.trans ?_
  constructor
  · rintro ⟨u, v, heq, hu, h⟩
    obtain rfl := hu (by rw [← heq]; rfl)
    obtain ⟨-, rfl⟩ := List.cons.inj heq
    exact h
  · exact fun h => ⟨['*'], t, rfl, fun _ => rfl, h⟩

theorem readsApart_cons (hx : x = '?' ∨ x = c) : ReadsApart (x :: p) (c :: t) ↔ ReadsApart p t := by
  rcases hx with rfl | rfl
  · exact reads_one
  · by_cases hstar : x = '*'
    · rw [hstar]
      exact readsApart_star
    · exact reads_char hstar

theorem readsApart_many (ht : t.head? ≠ some '*') :
    ReadsApart ('*' :: p) t ↔ ∃ v, v <:+ t ∧ ReadsApart p v := by
  refine reads_many.trans ?_
  constructor
  · rintro ⟨u, v, rfl, -, h⟩
    exact ⟨v, List.suffix_append u v, h⟩
  · rintro ⟨v, ⟨u, rfl⟩, h⟩
    exact ⟨u, v, rfl, fun hhead => absurd hhead ht, h⟩

theorem readsApart_nil : ReadsApart p [] ↔ p.all (· = '*') = true := by
  induction p with
  | nil => exact ⟨fun _ => rfl, fun _ => .nil⟩
  | cons x p ih =>
    rw [List.all_cons, Bool.and_eq_true, decide_eq_true_eq, ← ih]
    constructor
    · intro h
      generalize htext : ([] : List Char) = s at h
      cases h with
      | many u _ h =>
        obtain ⟨rfl, rfl⟩ := List.append_eq_nil_iff.mp htext.symm
        exact ⟨rfl, h⟩
      | one => cases htext
      | char => cases htext
    · rintro ⟨rfl, h⟩
      exact .many [] (fun hhead => by cases hhead) h

/-! ### What is behind a star -/

/-- A part of the pattern as it has been laid on the text, one character on one. -/
abbrev Overlay : List Char → List Char → Prop := List.Forall₂ fun x c => x = '?' ∨ x = c

/-- **What the rest of the pattern may read is no more than what is left behind the overlay.** -/
theorem suffix_of_overlay (h : Overlay w m) (hv : v <:+ m ++ t) (hreads : ReadsApart (w ++ q) v) :
    ∃ s, s <:+ t ∧ ReadsApart q s := by
  induction h generalizing v with
  | nil => exact ⟨v, hv, hreads⟩
  | @cons x c w m hx _ ih =>
    rcases List.suffix_cons_iff.mp hv with rfl | hv
    · exact ih (List.suffix_refl _) ((readsApart_cons hx).mp hreads)
    · generalize hp : x :: w ++ q = p at hreads
      cases hreads with
      | nil => cases hp
      | many u _ hreads =>
        obtain ⟨-, rfl⟩ := List.cons.inj hp
        exact ih ((List.suffix_append _ _).trans hv) hreads
      | one c hreads =>
        obtain ⟨-, rfl⟩ := List.cons.inj hp
        exact ih ((List.suffix_cons _ _).trans hv) hreads
      | char c _ _ hreads =>
        obtain ⟨-, rfl⟩ := List.cons.inj hp
        exact ih ((List.suffix_cons _ _).trans hv) hreads

end Wildcard
