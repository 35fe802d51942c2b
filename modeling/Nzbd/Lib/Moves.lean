import Mathlib.Data.List.Pairwise

/-!
# Moves between places

Every place holds a value or is free, and a move takes the value of one place to a
place that is free.  `Moves f L g` says that the moves `L`, in their order, lead from
`f` to `g`, and `follow L` is where a value goes on the way.

Who wants to know where the value of `p` went may look up the last move from `p`
(`lookupLast`).  This is where it is if no value is moved on from a place it has been
moved to (`Once`), as it is when the sources are distinct and all hold a value in the
beginning.
-/

namespace Moving

open List

variable {π β : Type*}

/-- No move goes on from where an earlier one has led. -/
def Once (L : List (π × π)) : Prop := L.Pairwise fun a b => a.2 ≠ b.1

theorem once_append {L K : List (π × π)} :
    Once (L ++ K) ↔ Once L ∧ Once K ∧ ∀ a ∈ L, ∀ b ∈ K, a.2 ≠ b.1 :=
  pairwise_append

theorem ne_of_free {f : π → Option β} {s t : π} (hs : f s ≠ none) (ht : f t = none) : s ≠ t :=
  fun heq => hs (heq ▸ ht)

variable [DecidableEq π]

def move (f : π → Option β) (s t : π) : π → Option β := fun p =>
  if p = t then f s else if p = s then none else f p

/-- Where the value of a place goes. -/
def follow : List (π × π) → π → π
  | [], p => p
  | m :: L, p => follow L (if p = m.1 then m.2 else p)

/-- The last move from a place. -/
def lookupLast : List (π × π) → π → π
  | [], p => p
  | m :: L, p => if p = m.1 ∧ p ∉ L.map (·.1) then m.2 else lookupLast L p

inductive Moves : (π → Option β) → List (π × π) → (π → Option β) → Prop
  | nil (f : π → Option β) : Moves f [] f
  | cons {f g : π → Option β} {s t : π} {L : List (π × π)} (hs : f s ≠ none) (ht : f t = none)
      (h : Moves (move f s t) L g) : Moves f ((s, t) :: L) g

variable {f g h : π → Option β} {L K : List (π × π)} {s t p q : π} {x : β}

theorem move_dst (f : π → Option β) (s t : π) : move f s t t = f s := if_pos rfl

theorem move_src (hst : s ≠ t) : move f s t s = none := by
  rw [move, if_neg hst, if_pos rfl]

theorem move_other (ht : p ≠ t) (hs : p ≠ s) : move f s t p = f p := by
  rw [move, if_neg ht, if_neg hs]

theorem Moves.append (hf : Moves f L g) (hg : Moves g K h) : Moves f (L ++ K) h := by
  induction hf with
  | nil => exact hg
  | cons hs ht _ ih => exact .cons hs ht (ih hg)

theorem Moves.concat (hf : Moves f L g) (hs : g s ≠ none) (ht : g t = none) :
    Moves f (L ++ [(s, t)]) (move g s t) :=
  hf.append (.cons hs ht (.nil _))

/-- **A value is where its moves lead.** -/
theorem Moves.follow_eq (hf : Moves f L g) (hp : f p = some x) : g (follow L p) = some x := by
  induction hf generalizing p with
  | nil => exact hp
  | @cons f g s t L hs ht _ ih =>
    apply ih
    split
    · next heq =>
      have hps : p = s := heq
      rw [move_dst, ← hps, hp]
    · next hne =>
      have hpt : p ≠ t := ne_of_free (by simp [hp]) ht
      rw [move_other hpt hne, hp]

theorem Moves.exists_follow (hf : Moves f L g) (hq : g q = some x) :
    ∃ p, f p = some x ∧ follow L p = q := by
  induction hf with
  | nil => exact ⟨q, hq, rfl⟩
  | @cons f g s t L hs ht _ ih =>
    obtain ⟨p, hp, hfollow⟩ := ih hq
    by_cases hpt : p = t
    · subst hpt
      rw [move_dst] at hp
      exact ⟨s, hp, by rw [follow, if_pos rfl, hfollow]⟩
    · by_cases hps : p = s
      · rw [hps, move_src (ne_of_free hs ht)] at hp
        cases hp
      · rw [move_other hpt hps] at hp
        exact ⟨p, hp, by rw [follow, if_neg hps, hfollow]⟩

theorem follow_of_not_mem (hp : p ∉ L.map (·.1)) : follow L p = p := by
  induction L with
  | nil => rfl
  | cons m L ih =>
    obtain ⟨hpm, hpL⟩ := not_or.mp fun h => hp (mem_cons.mpr h)
    rw [follow, if_neg hpm, ih hpL]

theorem Moves.not_mem_of_once (hf : Moves f L g) (honce : Once L) (hp : f p = none) :
    p ∉ L.map (·.1) := by
  induction hf with
  | nil => exact not_mem_nil
  | @cons f g s t L hs ht _ ih =>
    obtain ⟨hfirst, hrest'⟩ := pairwise_cons.mp honce
    have hps : p ≠ s := fun heq => hs (heq ▸ hp)
    intro hmem
    rcases mem_cons.mp hmem with heq | hmem
    · exact hps heq
    · by_cases hpt : p = t
      · obtain ⟨m, hm, hmp⟩ := mem_map.mp hmem
        exact hfirst m hm (hpt ▸ hmp.symm)
      · exact ih hrest' (by rw [move_other hpt hps, hp]) hmem

/-- **The last move tells where a value is,** if no value is moved twice. -/
theorem Moves.lookupLast_eq (hf : Moves f L g) (honce : Once L) (hp : f p ≠ none) :
    lookupLast L p = follow L p := by
  induction hf generalizing p with
  | nil => rfl
  | @cons f g s t L hs ht hrest ih =>
    obtain ⟨hfirst, hrest'⟩ := pairwise_cons.mp honce
    by_cases hps : p = s
    · subst hps
      have hlast := hrest.not_mem_of_once hrest' (move_src (ne_of_free hs ht))
      have hstay : t ∉ L.map (·.1) := by
        intro hmem
        obtain ⟨m, hm, hmt⟩ := mem_map.mp hmem
        exact hfirst m hm hmt.symm
      rw [lookupLast, if_pos ⟨rfl, hlast⟩, follow, if_pos rfl, follow_of_not_mem hstay]
    · have hpt : p ≠ t := ne_of_free hp ht
      rw [lookupLast, if_neg (fun h => hps h.1), follow, if_neg hps]
      exact ih hrest' (by rwa [move_other hpt hps])

/-- **Distinct sources that hold a value in the beginning** are moved once. -/
theorem Moves.once (hf : Moves f L g) (hnodup : (L.map (·.1)).Nodup)
    (hsrc : ∀ m ∈ L, f m.1 ≠ none) : Once L := by
  induction hf with
  | nil => exact List.Pairwise.nil
  | @cons f g s t L hs ht _ ih =>
    obtain ⟨hfirst, hnodup⟩ := nodup_cons.mp hnodup
    refine pairwise_cons.mpr ⟨fun m hm heq => ?_, ih hnodup fun m hm => ?_⟩
    · have hocc := hsrc m (mem_cons_of_mem _ hm)
      exact hocc (heq ▸ ht)
    · have hms : m.1 ≠ s := fun heq => hfirst (heq ▸ mem_map.mpr ⟨m, hm, rfl⟩)
      have hocc := hsrc m (mem_cons_of_mem _ hm)
      have hmt : m.1 ≠ t := ne_of_free hocc ht
      rwa [move_other hmt hms]

theorem Moves.stays (hf : Moves f L g) (hp : f p = some x) (hL : p ∉ L.map (·.1)) :
    g p = some x := by
  have h := hf.follow_eq hp
  rwa [follow_of_not_mem hL] at h

theorem Moves.dst_filled (hf : Moves f L g) {m : π × π} (hm : m ∈ L) (hL : m.2 ∉ L.map (·.1)) :
    g m.2 ≠ none := by
  induction hf with
  | nil => cases hm
  | @cons f g s t L hs ht hrest ih =>
    have hL' : m.2 ∉ L.map (·.1) := fun h => hL (mem_cons_of_mem _ h)
    rcases mem_cons.mp hm with rfl | hm
    · obtain ⟨x, hx⟩ := Option.ne_none_iff_exists'.mp hs
      rw [hrest.stays ((move_dst f s t).trans hx) hL']
      exact Option.some_ne_none x
    · exact ih hm hL'

theorem Moves.filled (hf : Moves f L g) (hp : g p ≠ none) : f p ≠ none ∨ ∃ m ∈ L, m.2 = p := by
  induction hf with
  | nil => exact .inl hp
  | @cons f g s t L hs ht _ ih =>
    rcases ih hp with h | ⟨m, hm, hmp⟩
    · by_cases hpt : p = t
      · exact .inr ⟨(s, t), mem_cons_self, hpt.symm⟩
      · by_cases hps : p = s
        · exact .inl (hps ▸ hs)
        · exact .inl (by rwa [move_other hpt hps] at h)
    · exact .inr ⟨m, mem_cons_of_mem _ hm, hmp⟩

theorem Moves.src_ne_dst (hf : Moves f L g) {m : π × π} (hm : m ∈ L) : m.1 ≠ m.2 := by
  induction hf with
  | nil => cases hm
  | cons hs ht _ ih =>
    rcases mem_cons.mp hm with rfl | hm
    · exact ne_of_free hs ht
    · exact ih hm

theorem Moves.dst_mem_src (hf : Moves f L g) {m : π × π} (hm : m ∈ L) (hp : f m.2 ≠ none) :
    m.2 ∈ L.map (·.1) := by
  induction hf with
  | nil => cases hm
  | @cons f g s t L hs ht _ ih =>
    rcases mem_cons.mp hm with rfl | hm
    · exact absurd ht hp
    · by_cases hms : m.2 = s
      · exact hms ▸ mem_cons_self
      · have hmt : m.2 ≠ t := ne_of_free hp ht
        exact mem_cons_of_mem _ (ih hm (by rwa [move_other hmt hms]))

theorem Moves.follow_of_mem (hf : Moves f L g) (honce : Once L) {m : π × π} (hm : m ∈ L)
    (hp : f m.1 ≠ none) : follow L m.1 = m.2 := by
  induction hf with
  | nil => cases hm
  | @cons f g s t L hs ht hrest ih =>
    obtain ⟨hfirst, hrest'⟩ := pairwise_cons.mp honce
    rcases mem_cons.mp hm with rfl | hm
    · have hstay : t ∉ L.map (·.1) := by
        intro hmem
        obtain ⟨x, hx, hxt⟩ := mem_map.mp hmem
        exact hfirst x hx hxt.symm
      rw [follow, if_pos rfl, follow_of_not_mem hstay]
    · have hms : m.1 ≠ s := by
        intro heq
        have hno := hrest.not_mem_of_once hrest' (move_src (ne_of_free hs ht))
        exact hno (heq ▸ mem_map.mpr ⟨m, hm, rfl⟩)
      have hmt : m.1 ≠ t := (hfirst m hm).symm
      rw [follow, if_neg hms]
      exact ih hrest' hm (by rwa [move_other hmt hms])

theorem lookupLast_of_not_mem (hp : p ∉ L.map (·.1)) : lookupLast L p = p := by
  induction L with
  | nil => rfl
  | cons m L ih =>
    obtain ⟨hpm, hpL⟩ := not_or.mp fun h => hp (mem_cons.mpr h)
    have hno : ¬(p = m.1 ∧ p ∉ L.map (·.1)) := fun h => hpm h.1
    rw [lookupLast, if_neg hno, ih hpL]

theorem lookupLast_append (L K : List (π × π)) (p : π) : lookupLast (L ++ K) p =
    if p ∈ K.map (·.1) then lookupLast K p else lookupLast L p := by
  induction L with
  | nil =>
    split
    · rfl
    · next hp => exact lookupLast_of_not_mem hp
  | cons m L ih =>
    rw [cons_append, lookupLast, ih]
    by_cases hK : p ∈ K.map (·.1)
    · simp only [map_append, mem_append, hK, or_true, not_true, and_false, if_false,
        if_true]
    · simp only [map_append, mem_append, hK, or_false, if_false, lookupLast]

end Moving
