import Mathlib.Data.List.Induction

/-!
# Windows and broadcast channels

A ring of `n` places holds the last `n` of what has been pushed into it, `window n l`.  A
broadcast channel keeps as many of the values sent; a receiver is the number of values it has
passed, and one that is behind the window is told how many it has lost and goes on at the
oldest value there is.

`push_window` is the step of the ring.  Where the values are numbered from one on
(`Numbered`), `filter_window` reads off the ring what comes after a number, and
`recv_eq_value` and `recv_eq_lagged` say what a receiver gets.
-/

namespace Broadcast

open List

variable {α : Type*} {n : Nat} {l : List α} {a : α}

def window (n : Nat) (l : List α) : List α := l.drop (l.length - n)

def push (n : Nat) (ring : List α) (a : α) : List α :=
  (if ring.length = n then ring.tail else ring) ++ [a]

inductive Received (α : Type*)
  | value (a : α)
  | lagged (skipped : Nat)

/-- What the receiver at `pos` gets of the values sent, and where it is afterwards. -/
def recv (n : Nat) (sent : List α) (pos : Nat) : Option (Received α × Nat) :=
  if pos < sent.length - n then
    some (.lagged (sent.length - n - pos), sent.length - n)
  else sent[pos]?.map fun a => (.value a, pos + 1)

/-! ### Windows -/

@[simp] theorem window_nil : window n ([] : List α) = [] := drop_nil

theorem length_window : (window n l).length = min n l.length := by
  rw [window, length_drop]
  omega

/-- **The ring is a window.** -/
theorem push_window (hn : 0 < n) : push n (window n l) a = window n (l ++ [a]) := by
  unfold push
  rw [length_window]
  split_ifs with h
  · have hcut : l.length + 1 - n = l.length - n + 1 := by omega
    rw [window, window, tail_drop, length_append, length_singleton, hcut,
      drop_append_of_le_length (by omega)]
  · have hcut : l.length + 1 - n = 0 ∧ l.length - n = 0 := by omega
    rw [window, window, length_append, length_singleton, hcut.1, hcut.2,
      drop_zero, drop_zero]

/-! ### Numbered values -/

variable {seq : α → Nat} {k pos : Nat}

/-- The values are numbered from one on. -/
def Numbered (seq : α → Nat) (l : List α) : Prop := ∀ i a, l[i]? = some a → seq a = i + 1

theorem numbered_nil : Numbered seq [] := fun i a h => by cases h

theorem Numbered.concat (h : Numbered seq l) (ha : seq a = l.length + 1) :
    Numbered seq (l ++ [a]) := by
  intro i b hb
  rcases Nat.lt_or_ge i l.length with hi | hi
  · exact h i b (by rwa [getElem?_append_left hi] at hb)
  · rw [getElem?_append_right hi] at hb
    obtain ⟨hlt, rfl⟩ := List.getElem?_eq_some_iff.mp hb
    rw [length_singleton] at hlt
    rw [getElem_singleton, ha]
    omega

theorem Numbered.of_append {m : List α} (h : Numbered seq (l ++ m)) : Numbered seq l := by
  intro i b hb
  obtain ⟨hi, -⟩ := List.getElem?_eq_some_iff.mp hb
  exact h i b (by rwa [getElem?_append_left hi])

theorem Numbered.mem (h : Numbered seq l) (ha : a ∈ l) : 1 ≤ seq a ∧ seq a ≤ l.length := by
  obtain ⟨i, hi, rfl⟩ := getElem_of_mem ha
  rw [h i _ (getElem?_eq_getElem hi)]
  omega

theorem Numbered.drop (h : Numbered seq l) {i : Nat} {b : α} (hb : (l.drop k)[i]? = some b) :
    seq b = k + i + 1 := by
  rw [getElem?_drop] at hb
  exact h _ _ hb

theorem Numbered.head (h : Numbered seq l) (ha : (window n l).head? = some a) :
    seq a = l.length - n + 1 := by
  rw [window, head?_drop] at ha
  exact h _ _ ha

theorem Numbered.filter (h : Numbered seq l) :
    (l.filter fun a => k < seq a) = l.drop k := by
  induction l using reverseRecOn with
  | nil => rw [drop_nil, filter_nil]
  | append_singleton l a ih =>
    have ha : seq a = l.length + 1 := h l.length a (by simp)
    rw [filter_append, ih h.of_append]
    rcases Nat.lt_or_ge l.length k with hk | hk
    · rw [filter_cons_of_neg (by simp only [decide_eq_true_eq]; omega), filter_nil,
        append_nil, drop_eq_nil_of_le (by omega), drop_eq_nil_of_le (by simp; omega)]
    · rw [filter_cons_of_pos (by simp only [decide_eq_true_eq]; omega), filter_nil,
        drop_append_of_le_length hk]

theorem Numbered.filter_window (h : Numbered seq l) (hk : l.length - n ≤ k) :
    ((window n l).filter fun a => k < seq a) = l.drop k := by
  have hold : (l.take (l.length - n)).filter (fun a => k < seq a) = [] := by
    refine filter_eq_nil_iff.mpr fun a ha => ?_
    have hl : Numbered seq (l.take (l.length - n)) := by
      refine Numbered.of_append (m := l.drop (l.length - n)) ?_
      rwa [take_append_drop]
    have := (hl.mem ha).2
    rw [length_take] at this
    simp only [decide_eq_true_eq]
    omega
  rw [← h.filter (k := k)]
  conv_rhs => rw [← take_append_drop (l.length - n) l, filter_append, hold]
  rfl

/-! ### Receivers -/

theorem recv_eq_value {pos' : Nat} (h : recv n l pos = some (.value a, pos')) :
    l[pos]? = some a ∧ pos' = pos + 1 ∧ l.length ≤ pos + n ∧ pos < l.length := by
  unfold recv at h
  split_ifs at h with hlag
  · cases h
  · obtain ⟨b, hb, heq⟩ := Option.map_eq_some_iff.mp h
    cases heq
    obtain ⟨hlt, -⟩ := List.getElem?_eq_some_iff.mp hb
    exact ⟨hb, rfl, by omega, hlt⟩

theorem recv_eq_lagged {skipped pos' : Nat} (h : recv n l pos = some (.lagged skipped, pos')) :
    pos < l.length - n ∧ pos' = l.length - n := by
  unfold recv at h
  split_ifs at h with hlag
  · cases h
    exact ⟨hlag, rfl⟩
  · obtain ⟨b, -, heq⟩ := Option.map_eq_some_iff.mp h
    cases heq

end Broadcast
