import Mathlib.Logic.Basic

/-!
# Runs

A system takes one input at a time.  `Run init next ok s` says that `s` is
reached from an initial state by steps whose inputs all meet the condition `ok`
in the state they are taken in; with no condition it is plain reachability.

`Run.invariant` is the induction behind every safety result: what holds
initially and is kept by an admissible step holds in every state reached.
-/

namespace Runs

variable {σ ι : Type*} {init : σ → Prop} {next : σ → ι → σ → Prop} {ok : σ → ι → Prop}

inductive Run (init : σ → Prop) (next : σ → ι → σ → Prop) (ok : σ → ι → Prop) : σ → Prop
  | start {s : σ} : init s → Run init next ok s
  | step {s t : σ} {i : ι} : Run init next ok s → ok s i → next s i t → Run init next ok t

/-- **The invariant rule.** -/
theorem Run.invariant {P : σ → Prop} (h0 : ∀ s, init s → P s)
    (hstep : ∀ s i t, P s → ok s i → next s i t → P t) {s : σ} (h : Run init next ok s) : P s := by
  induction h with
  | start hs => exact h0 _ hs
  | step _ hok hn ih => exact hstep _ _ _ ih hok hn

/-! ### The runs of a function -/

variable {step : σ → ι → σ}

/-- Every input of the list meets the condition at its turn. -/
def Throughout (ok : σ → ι → Prop) (step : σ → ι → σ) : σ → List ι → Prop
  | _, [] => True
  | s, i :: is => ok s i ∧ Throughout ok step (step s i) is

instance decidableThroughout [∀ s i, Decidable (ok s i)] :
    (s : σ) → (is : List ι) → Decidable (Throughout ok step s is)
  | _, [] => isTrue trivial
  | s, i :: is => @instDecidableAnd _ _ _ (decidableThroughout (step s i) is)

theorem throughout_of_forall {is : List ι} (h : ∀ i ∈ is, ∀ s, ok s i) (s : σ) :
    Throughout ok step s is := by
  induction is generalizing s with
  | nil => trivial
  | cons i is ih =>
    exact ⟨h i List.mem_cons_self s, ih (fun j hj => h j (List.mem_cons_of_mem _ hj)) _⟩

theorem Run.foldl {s : σ} (h : Run init (fun s i t => t = step s i) ok s) {is : List ι}
    (hok : Throughout ok step s is) :
    Run init (fun s i t => t = step s i) ok (is.foldl step s) := by
  induction is generalizing s with
  | nil => exact h
  | cons i is ih => exact ih (h.step hok.1 rfl) hok.2

end Runs
