import Mathlib.Data.List.Basic
import Nzbd.Lib.Run

/-!
# Traces

`exec step is s` takes the inputs `is` one after the other, as long as all of them can
be taken.
-/

namespace Trace

variable {σ ι : Type*} {step : σ → ι → Option σ}

def exec (step : σ → ι → Option σ) : List ι → σ → Option σ
  | [], s => some s
  | i :: is, s => (step s i).bind (exec step is)

theorem exec_cons {i : ι} {is : List ι} {s t : σ} :
    exec step (i :: is) s = some t ↔ ∃ u, step s i = some u ∧ exec step is u = some t := by
  rw [exec, Option.bind_eq_some_iff]

theorem exec_append {is is' : List ι} {s t : σ} :
    exec step (is ++ is') s = some t ↔ ∃ u, exec step is s = some u ∧ exec step is' u = some t := by
  induction is generalizing s with
  | nil => simp [exec]
  | cons i is ih =>
    rw [List.cons_append, exec_cons]
    simp only [ih, exec_cons]
    constructor
    · rintro ⟨u, hu, v, hv, ht⟩
      exact ⟨v, ⟨u, hu, hv⟩, ht⟩
    · rintro ⟨v, ⟨u, hu, hv⟩, ht⟩
      exact ⟨u, hu, v, hv, ht⟩

theorem exec_singleton {i : ι} {s t : σ} : exec step [i] s = some t ↔ step s i = some t := by
  rw [exec_cons]
  simp [exec]

theorem exec_concat {is : List ι} {i : ι} {s t : σ} :
    exec step (is ++ [i]) s = some t ↔ ∃ u, exec step is s = some u ∧ step u i = some t := by
  rw [exec_append]
  simp only [exec_singleton]

/-- **The invariant rule for traces.** -/
theorem exec_invariant {P : σ → Prop} {is : List ι} {s t : σ}
    (hstep : ∀ u i v, i ∈ is → P u → step u i = some v → P v) (h : exec step is s = some t)
    (hs : P s) : P t := by
  induction is generalizing s with
  | nil => exact Option.some.inj h ▸ hs
  | cons i is ih =>
    obtain ⟨u, hu, ht⟩ := exec_cons.mp h
    exact ih (fun v j w hj => hstep v j w (List.mem_cons_of_mem _ hj)) ht
      (hstep s i u List.mem_cons_self hs hu)

theorem run_of_exec {init : σ → Prop} {is : List ι} {s t : σ} (hs : init s)
    (h : exec step is s = some t) :
    Runs.Run init (fun s i t => step s i = some t) (fun _ _ => True) t :=
  exec_invariant (P := Runs.Run init _ _) (fun _ _ _ _ hu hv => .step hu trivial hv) h (.start hs)

/-- A step that is taken only if the condition holds. -/
def guarded (ok : σ → ι → Prop) [∀ s i, Decidable (ok s i)] (step : σ → ι → Option σ) (s : σ)
    (i : ι) : Option σ :=
  if ok s i then step s i else none

theorem run_of_guarded {init : σ → Prop} {ok : σ → ι → Prop} [∀ s i, Decidable (ok s i)]
    {is : List ι} {s t : σ} (hs : init s) (h : exec (guarded ok step) is s = some t) :
    Runs.Run init (fun s i t => step s i = some t) ok t := by
  refine exec_invariant (P := Runs.Run init _ ok) (fun u i v _ hu hv => ?_) h (.start hs)
  by_cases hok : ok u i
  · rw [guarded, if_pos hok] at hv
    exact hu.step hok hv
  · rw [guarded, if_neg hok] at hv
    cases hv

end Trace
