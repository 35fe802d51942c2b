import Nzbd.Lib.Run

/-!
# Programs that share a state

A program is a tree of atomic statements.  A statement reads and writes the
shared state in one go, and what comes after it may depend on what it has read.
Any number of programs run at once, statement by statement in any order; one that
is never run again has died.

`Safe I R p s` is rely and guarantee: whatever the others do to `s` along `R`,
each statement of `p` keeps the invariant `I` and is itself a step along `R`.
`Reached.safe` is the rule: if every program that may start is safe in every
state with the invariant, the invariant holds in every state reached, and the
programs that are still running stay safe.
-/

namespace Interleave

open Runs

variable {σ α β : Type*}

inductive Prog (σ α : Type*)
  | ret (answer : α)
  | stmt (write : σ → σ) (next : σ → Prog σ α)

namespace Prog

def query (read : σ → β) (next : β → Prog σ α) : Prog σ α := stmt id fun s => next (read s)

/-- A statement with a result. -/
def exec (f : σ → σ × β) (next : β → Prog σ α) : Prog σ α :=
  stmt (fun s => (f s).1) fun s => next (f s).2

/-- A statement that may fail, and then changes nothing. -/
def transact {ε : Type*} (f : σ → Except ε (σ × β)) (next : Except ε β → Prog σ α) : Prog σ α :=
  exec (fun s => match f s with
    | .ok r => (r.1, .ok r.2)
    | .error e => (s, .error e)) next

def answer : Prog σ α → Option α
  | ret a => some a
  | stmt _ _ => none

theorem eq_ret_of_answer {p : Prog σ α} {a : α} (h : p.answer = some a) : p = ret a := by
  cases p with
  | ret b => exact congrArg ret (Option.some.inj h)
  | stmt write next => nomatch h

/-- **Rely and guarantee.** -/
def Safe (I : σ → Prop) (R : σ → σ → Prop) : Prog σ α → σ → Prop
  | ret _, _ => True
  | stmt write next, s => ∀ t, R s t → I t → I (write t) ∧ R t (write t) ∧
      (next t).Safe I R (write t)

variable {I : σ → Prop} {R : σ → σ → Prop}

theorem Safe.mono (htrans : ∀ s t u, R s t → R t u → R s u) {p : Prog σ α} {s t : σ}
    (h : p.Safe I R s) (hst : R s t) : p.Safe I R t := by
  cases p with
  | ret a => trivial
  | stmt write next => exact fun u htu hu => h u (htrans s t u hst htu) hu

theorem safe_query (hrefl : ∀ s, R s s) {read : σ → β} {next : β → Prog σ α} {s : σ}
    (h : ∀ t, R s t → I t → (next (read t)).Safe I R t) : (query read next).Safe I R s :=
  fun t hst ht => ⟨ht, hrefl t, h t hst ht⟩

theorem safe_exec {f : σ → σ × β} {next : β → Prog σ α} {s : σ}
    (h : ∀ t, R s t → I t → I (f t).1 ∧ R t (f t).1 ∧ (next (f t).2).Safe I R (f t).1) :
    (exec f next).Safe I R s := h

theorem safe_transact {ε : Type*} (hrefl : ∀ s, R s s) {f : σ → Except ε (σ × β)}
    {next : Except ε β → Prog σ α} {s : σ}
    (hok : ∀ t u b, R s t → I t → f t = .ok (u, b) → I u ∧ R t u ∧ (next (.ok b)).Safe I R u)
    (herr : ∀ t e, R s t → I t → f t = .error e → (next (.error e)).Safe I R t) :
    (transact f next).Safe I R s := by
  refine safe_exec fun t hst ht => ?_
  cases hf : f t with
  | ok r => exact hok t r.1 r.2 hst ht hf
  | error e => exact ⟨ht, hrefl t, herr t e hst ht hf⟩

/-- Safe, and with an answer that is good in the state it is given in. -/
def Leads (I : σ → Prop) (R : σ → σ → Prop) (Q : σ → α → Prop) : Prog σ α → σ → Prop
  | ret a, s => Q s a
  | stmt write next, s => ∀ t, R s t → I t → I (write t) ∧ R t (write t) ∧
      (next t).Leads I R Q (write t)

variable {Q : σ → α → Prop}

theorem Leads.mono (htrans : ∀ s t u, R s t → R t u → R s u)
    (hQ : ∀ s t a, R s t → Q s a → Q t a) {p : Prog σ α} {s t : σ}
    (h : p.Leads I R Q s) (hst : R s t) : p.Leads I R Q t := by
  cases p with
  | ret a => exact hQ s t a hst h
  | stmt write next => exact fun u htu hu => h u (htrans s t u hst htu) hu

theorem leads_transact {ε : Type*} (hrefl : ∀ s, R s s) {f : σ → Except ε (σ × β)}
    {next : Except ε β → Prog σ α} {s : σ}
    (hok : ∀ t u b, I t → f t = .ok (u, b) → I u ∧ R t u ∧ (next (.ok b)).Leads I R Q u)
    (herr : ∀ t e, I t → (next (.error e)).Leads I R Q t) :
    (transact f next).Leads I R Q s := by
  intro t _ ht
  cases hf : f t with
  | ok r =>
    simp only [hf]
    exact hok t r.1 r.2 ht hf
  | error e =>
    simp only [hf]
    exact ⟨ht, hrefl t, herr t e ht⟩

end Prog

/-- The shared state, and the programs on their way. -/
structure Sys (σ α : Type*) where
  shared : σ
  running : List (Prog σ α)

inductive Act (σ α : Type*)
  | begin (p : Prog σ α)
  | run (i : Nat)

namespace Sys

/-- The first statement of the `i`-th program. -/
def advance (s : Sys σ α) (i : Nat) : Sys σ α :=
  match s.running[i]? with
  | some (.stmt write next) => ⟨write s.shared, s.running.set i (next s.shared)⟩
  | _ => s

def after (s : Sys σ α) : Act σ α → Sys σ α
  | .begin p => ⟨s.shared, s.running ++ [p]⟩
  | .run i => s.advance i

end Sys

/-- The states that programs of a kind reach together. -/
def Reached (init : σ → Prop) (calls : Prog σ α → Prop) : Sys σ α → Prop :=
  Run (fun s => init s.shared ∧ s.running = []) (fun s a t => t = s.after a)
    fun _ a => ∀ p, a = .begin p → calls p

section

variable {init : σ → Prop} {calls : Prog σ α → Prop} {s : Sys σ α}

theorem Reached.begin (h : Reached init calls s) {p : Prog σ α} (hp : calls p) :
    Reached init calls (s.after (.begin p)) :=
  .step h (fun q hq => by obtain rfl := Act.begin.inj hq; exact hp) rfl

theorem Reached.run (h : Reached init calls s) (i : Nat) :
    Reached init calls (s.after (.run i)) :=
  .step h (fun q hq => absurd hq (by simp)) rfl

end

/-- **The rule.** -/
theorem Reached.safe {init : σ → Prop} {calls : Prog σ α → Prop} {I : σ → Prop}
    {R : σ → σ → Prop} (hrefl : ∀ s, R s s) (htrans : ∀ s t u, R s t → R t u → R s u)
    (h0 : ∀ s, init s → I s) (hcalls : ∀ p, calls p → ∀ s, I s → p.Safe I R s) {s : Sys σ α}
    (h : Reached init calls s) : I s.shared ∧ ∀ p ∈ s.running, p.Safe I R s.shared := by
  refine Run.invariant (P := fun s : Sys σ α => I s.shared ∧ ∀ p ∈ s.running, p.Safe I R s.shared)
    ?_ ?_ h
  · rintro s ⟨hs, hnone⟩
    refine ⟨h0 _ hs, ?_⟩
    rw [hnone]
    exact fun p hp => absurd hp List.not_mem_nil
  · rintro s a t ⟨hI, hsafe⟩ hok rfl
    cases a with
    | begin p =>
      refine ⟨hI, fun q hq => ?_⟩
      rcases List.mem_append.mp hq with hq | hq
      · exact hsafe q hq
      · obtain rfl := List.mem_singleton.mp hq
        exact hcalls q (hok q rfl) _ hI
    | run i =>
      change I (s.advance i).shared ∧ ∀ p ∈ (s.advance i).running, p.Safe I R (s.advance i).shared
      rw [Sys.advance]
      split
      next write next hi =>
        obtain ⟨hI', hR, hnext⟩ := hsafe _ (List.mem_of_getElem? hi) _ (hrefl _) hI
        refine ⟨hI', fun q hq => ?_⟩
        rcases List.mem_or_eq_of_mem_set hq with hq | rfl
        · exact (hsafe q hq).mono htrans hR
        · exact hnext
      next => exact ⟨hI, hsafe⟩

theorem Reached.guarantee {init : σ → Prop} {calls : Prog σ α → Prop} {I : σ → Prop}
    {R : σ → σ → Prop} (hrefl : ∀ s, R s s) (htrans : ∀ s t u, R s t → R t u → R s u)
    (h0 : ∀ s, init s → I s) (hcalls : ∀ p, calls p → ∀ s, I s → p.Safe I R s) {s : Sys σ α}
    (h : Reached init calls s) (a : Act σ α) : R s.shared (s.after a).shared := by
  obtain ⟨hI, hsafe⟩ := h.safe hrefl htrans h0 hcalls
  cases a with
  | begin p => exact hrefl _
  | run i =>
    change R s.shared (s.advance i).shared
    rw [Sys.advance]
    split
    next write next hi =>
      obtain ⟨-, hR, -⟩ := hsafe _ (List.mem_of_getElem? hi) _ (hrefl _) hI
      exact hR
    next => exact hrefl _

end Interleave
