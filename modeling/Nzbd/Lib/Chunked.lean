import Mathlib.Data.List.Basic

/-!
# Byte machines fed in chunks

An incremental decoder is a step function on one symbol.  After a symbol it
wants another one, has accepted, or has failed.  `feed` runs the step over one
buffer, stops where the machine stops, and reports how much of it was taken.

The one fact everything rests on is `feed_append_of_more`: a buffer may be cut
anywhere, so a run over chunks is the run over their concatenation.
`feed_append_of_stopped` says that symbols behind the place where a machine
stopped are never looked at.
-/

namespace ByteMachine

variable {σ α ε τ : Type*}

/-- What a machine says after one symbol. -/
inductive Step (σ ε : Type*)
  | more (s : σ)
  | done (s : σ)
  | fail (e : ε) (s : σ)

namespace Step

/-- The state the machine is left in. -/
def state : Step σ ε → σ
  | more s => s
  | done s => s
  | fail _ s => s

def isMore : Step σ ε → Bool
  | more _ => true
  | _ => false

def map (f : σ → τ) : Step σ ε → Step τ ε
  | more s => more (f s)
  | done s => done (f s)
  | fail e s => fail e (f s)

@[simp] theorem map_more (f : σ → τ) (s : σ) : (more s : Step σ ε).map f = more (f s) := rfl

@[simp] theorem map_done (f : σ → τ) (s : σ) : (done s : Step σ ε).map f = done (f s) := rfl

@[simp] theorem map_fail (f : σ → τ) (e : ε) (s : σ) : (fail e s).map f = fail e (f s) := rfl

end Step

variable (step : σ → α → Step σ ε)

/-- Run the machine over one buffer: how many symbols it took, and what it
said after the last of them. -/
def feed (s : σ) : List α → Nat × Step σ ε
  | [] => (0, .more s)
  | a :: as =>
    match step s a with
    | .more s' => ((feed s' as).1 + 1, (feed s' as).2)
    | .done s' => (1, .done s')
    | .fail e s' => (1, .fail e s')

@[simp] theorem feed_nil (s : σ) : feed step s [] = (0, .more s) := rfl

variable {step}

theorem feed_cons_more {s s' : σ} {a : α} (h : step s a = .more s') (as : List α) :
    feed step s (a :: as) = ((feed step s' as).1 + 1, (feed step s' as).2) := by
  simp only [feed, h]

theorem feed_cons_done {s s' : σ} {a : α} (h : step s a = .done s') (as : List α) :
    feed step s (a :: as) = (1, .done s') := by
  simp only [feed, h]

theorem feed_cons_fail {s s' : σ} {a : α} {e : ε} (h : step s a = .fail e s') (as : List α) :
    feed step s (a :: as) = (1, .fail e s') := by
  simp only [feed, h]

theorem feed_more_length {s s' : σ} {n : Nat} : ∀ {as : List α},
    feed step s as = (n, .more s') → n = as.length := by
  intro as
  induction as generalizing s n with
  | nil => intro h; simp only [feed_nil, Prod.mk.injEq] at h; simp [← h.1]
  | cons a as ih =>
    intro h
    cases hs : step s a with
    | more t =>
      rw [feed_cons_more hs, Prod.mk.injEq] at h
      rw [← h.1, ih (n := (feed step t as).1) (by rw [← h.2])]
      rfl
    | done t => rw [feed_cons_done hs] at h; simp at h
    | fail e t => rw [feed_cons_fail hs] at h; simp at h

theorem feed_fst_le_length (s : σ) (as : List α) : (feed step s as).1 ≤ as.length := by
  induction as generalizing s with
  | nil => simp
  | cons a as ih =>
    cases hs : step s a with
    | more t =>
      rw [feed_cons_more hs]
      simpa using ih t
    | done t => rw [feed_cons_done hs]; simp
    | fail e t => rw [feed_cons_fail hs]; simp

/-- **A buffer may be cut anywhere.**  While the machine wants more, a run over
two buffers goes on in the second where the first left off. -/
theorem feed_append_of_more {s s' : σ} {n : Nat} {as : List α}
    (h : feed step s as = (n, .more s')) (bs : List α) :
    feed step s (as ++ bs) = (as.length + (feed step s' bs).1, (feed step s' bs).2) := by
  induction as generalizing s n with
  | nil =>
    simp only [feed_nil, Prod.mk.injEq, Step.more.injEq] at h
    obtain ⟨-, rfl⟩ := h
    simp
  | cons a as ih =>
    cases hs : step s a with
    | more t =>
      rw [feed_cons_more hs, Prod.mk.injEq] at h
      rw [List.cons_append, feed_cons_more hs, ih (n := (feed step t as).1) (by rw [← h.2])]
      simp only [List.length_cons, Prod.mk.injEq, and_true]
      omega
    | done t => rw [feed_cons_done hs] at h; simp at h
    | fail e t => rw [feed_cons_fail hs] at h; simp at h

theorem feed_append_of_stopped {s : σ} {as : List α}
    (h : (feed step s as).2.isMore = false) (bs : List α) :
    feed step s (as ++ bs) = feed step s as := by
  induction as generalizing s with
  | nil => simp [Step.isMore] at h
  | cons a as ih =>
    cases hs : step s a with
    | more t =>
      rw [feed_cons_more hs] at h
      rw [List.cons_append, feed_cons_more hs, feed_cons_more hs, ih h]
    | done t => rw [List.cons_append, feed_cons_done hs, feed_cons_done hs]
    | fail e t => rw [List.cons_append, feed_cons_fail hs, feed_cons_fail hs]

/-- Cutting the input in front of the place where the machine stops leaves it
wanting more. -/
theorem feed_take_more {s : σ} {as : List α} {k : Nat}
    (hk : k < (feed step s as).1 ∨ (feed step s as).2.isMore = true) :
    ∃ s', feed step s (as.take k) = ((as.take k).length, .more s') := by
  induction as generalizing s k with
  | nil => exact ⟨s, by simp⟩
  | cons a as ih =>
    cases k with
    | zero => exact ⟨s, by simp⟩
    | succ k =>
      cases hs : step s a with
      | more t =>
        rw [feed_cons_more hs] at hk
        obtain ⟨s', h'⟩ := ih (s := t) (k := k) (by simpa using hk)
        exact ⟨s', by rw [List.take_succ_cons, feed_cons_more hs, h']; rfl⟩
      | done t => rw [feed_cons_done hs] at hk; simp [Step.isMore] at hk
      | fail e t => rw [feed_cons_fail hs] at hk; simp [Step.isMore] at hk

theorem feed_more_split {s u : σ} {n : Nat} {as bs : List α}
    (h : feed step s (as ++ bs) = (n, .more u)) :
    ∃ t, feed step s as = (as.length, .more t) ∧ feed step t bs = (bs.length, .more u) := by
  rcases hf : feed step s as with ⟨m, r⟩
  cases r with
  | more t =>
    have hm := feed_more_length hf
    rw [feed_append_of_more hf, Prod.mk.injEq] at h
    have hb : (feed step t bs).1 = bs.length := feed_more_length (Prod.ext rfl h.2)
    exact ⟨t, by rw [hm], Prod.ext hb h.2⟩
  | done t => rw [feed_append_of_stopped (by rw [hf]; rfl), hf] at h; nomatch h
  | fail e t => rw [feed_append_of_stopped (by rw [hf]; rfl), hf] at h; nomatch h

theorem feed_concat_more {s s' : σ} {as : List α} {a : α} {n : Nat}
    (h : feed step s (as ++ [a]) = (n, .more s')) :
    ∃ t, feed step s as = (as.length, .more t) ∧ step t a = .more s' := by
  obtain ⟨t, ht, ha⟩ := feed_more_split h
  refine ⟨t, ht, ?_⟩
  cases hs : step t a with
  | more u => rw [feed_cons_more hs, Prod.mk.injEq] at ha; exact ha.2
  | done u => rw [feed_cons_done hs] at ha; nomatch ha
  | fail e u => rw [feed_cons_fail hs] at ha; nomatch ha

theorem feed_stopped_last {s : σ} {n : Nat} {r : Step σ ε} {as : List α}
    (h : feed step s as = (n, r)) (hr : r.isMore = false) :
    ∃ init a rest t, as = init ++ a :: rest ∧ n = init.length + 1 ∧
      feed step s init = (init.length, .more t) ∧ step t a = r := by
  induction as generalizing s n with
  | nil =>
    simp only [feed_nil, Prod.mk.injEq] at h
    rw [← h.2] at hr
    nomatch hr
  | cons b bs ih =>
    cases hs : step s b with
    | more u =>
      rw [feed_cons_more hs, Prod.mk.injEq] at h
      obtain ⟨init, a, rest, t, rfl, hn, hf, ht⟩ := ih (s := u) (Prod.ext rfl h.2)
      refine ⟨b :: init, a, rest, t, rfl, ?_, ?_, ht⟩
      · exact h.1.symm.trans (congrArg (· + 1) hn)
      · rw [feed_cons_more hs, hf]; rfl
    | done u =>
      rw [feed_cons_done hs, Prod.mk.injEq] at h
      exact ⟨[], b, bs, s, rfl, h.1.symm, rfl, hs.trans h.2⟩
    | fail e u =>
      rw [feed_cons_fail hs, Prod.mk.injEq] at h
      exact ⟨[], b, bs, s, rfl, h.1.symm, rfl, hs.trans h.2⟩

theorem feed_map {step' : τ → α → Step τ ε} (f : σ → τ)
    (hf : ∀ s a, step' (f s) a = (step s a).map f) (s : σ) (as : List α) :
    feed step' (f s) as = ((feed step s as).1, (feed step s as).2.map f) := by
  induction as generalizing s with
  | nil => rfl
  | cons a as ih =>
    have h := hf s a
    cases hs : step s a with
    | more t => rw [hs] at h; rw [feed_cons_more h, feed_cons_more hs, ih]
    | done t => rw [hs] at h; rw [feed_cons_done h, feed_cons_done hs]; rfl
    | fail e t => rw [hs] at h; rw [feed_cons_fail h, feed_cons_fail hs]; rfl

theorem feed_invariant {P : σ → Prop} (hP : ∀ s a, P s → P (step s a).state) {s : σ} (hs : P s)
    (as : List α) : P (feed step s as).2.state := by
  induction as generalizing s with
  | nil => exact hs
  | cons a as ih =>
    have h := hP s a hs
    cases hst : step s a with
    | more t => rw [feed_cons_more hst]; rw [hst] at h; exact ih h
    | done t => rw [feed_cons_done hst]; rw [hst] at h; exact h
    | fail e t => rw [feed_cons_fail hst]; rw [hst] at h; exact h

end ByteMachine
