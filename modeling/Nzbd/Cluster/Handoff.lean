import Nzbd.Cluster.Budget
import Nzbd.Lib.Run

/-!
# The handoff of connections

The leader and its workers during one term.  A worker applies the commands that
reach it in their order, opens connections up to its allowance, and reports a
generation only when it has no more open than that; responses get lost, and a
report may reach the leader late, twice or never.

`Covered` is the invariant.  While nothing is pending a worker stays under its
grant.  While a target is pending, whoever is not waited for stays under its
command as well, and a command is no higher than the grant or the target.  So the
target can be applied as soon as nobody is waited for, and at every moment the
grants, which fit the accounts, bound what is in use.
-/

namespace Nzbd

open List Runs Function BudgetHandoff

/-- A worker: the generation and the allowance it applied last, and the
connections it has open. -/
structure Worker where
  generation : Nat
  allowance : Caps
  inUse : Text → Nat

/-- The leader, the workers, the responses on their way to a worker (the oldest
first), and the generations a worker has reported as drained. -/
structure BudgetNet where
  leader : LeaderShared
  /-- The targets there have been, with the nodes they are for. -/
  targets : List (List Text × ShareMap)
  workers : Text → Worker
  inbox : Text → List (Nat × Caps)
  reports : Text → List Nat

inductive BudgetEvent
  | insertLease (leaseId node : Text)
  | removeLease (leaseId : Text)
  /-- A grant (without a report) or a heartbeat. -/
  | request (node : Text) (ack : Option BudgetAck) (r : LeaseReads)
  | retire (node : Text)
  /-- The oldest response is applied. -/
  | apply (node : Text)
  /-- A response is lost. -/
  | lose (node : Text) (i : Nat)
  /-- The last local lease has run out. -/
  | expire (node : Text)
  | connect (node provider : Text)
  | disconnect (node provider : Text)
  /-- The worker finds itself drained. -/
  | report (node : Text)

namespace BudgetNet

variable (s : BudgetNet)

def setWorker (node : Text) (w : Worker) : BudgetNet :=
  { s with workers := Function.update s.workers node w }

def setInbox (node : Text) (l : List (Nat × Caps)) : BudgetNet :=
  { s with inbox := Function.update s.inbox node l }

def setReports (node : Text) (l : List Nat) : BudgetNet :=
  { s with reports := Function.update s.reports node l }

/-- The worker has no more open than it is allowed. -/
def Drained (node : Text) : Prop :=
  ∀ p, (s.workers node).inUse p ≤ capOf (s.workers node).allowance p

/-- The worker has nothing open and nothing allowed, and no command on its way. -/
def Gone (node : Text) : Prop :=
  (∀ p, (s.workers node).inUse p = 0 ∧ capOf (s.workers node).allowance p = 0) ∧ s.inbox node = []

def after : BudgetEvent → BudgetNet
  | .insertLease leaseId node => { s with leader := s.leader.insertLease leaseId node }
  | .removeLease leaseId => { s with leader := s.leader.removeLease leaseId }
  | .request node ack r =>
    let answer := s.leader.budgetCommand node ack r
    { s.setInbox node (s.inbox node ++ [answer.2]) with
      leader := answer.1
      targets := (s.leader.budgetNodes r.listed, s.leader.budgetTarget r) :: s.targets }
  | .retire node => { s with leader := s.leader.retireExpiredBudgetHolder node }
  | .apply node =>
    match s.inbox node with
    | [] => s
    | m :: ms => (s.setWorker node
        { s.workers node with generation := m.1, allowance := m.2 }).setInbox node ms
  | .lose node i => s.setInbox node ((s.inbox node).eraseIdx i)
  | .expire node => s.setWorker node { s.workers node with allowance := [] }
  | .connect node p =>
    let w := s.workers node
    s.setWorker node { w with inUse := Function.update w.inUse p (w.inUse p + 1) }
  | .disconnect node p =>
    let w := s.workers node
    s.setWorker node { w with inUse := Function.update w.inUse p (w.inUse p - 1) }
  | .report node => s.setReports node ((s.workers node).generation :: s.reports node)

/-- What the workers keep to: they open a connection only within the allowance,
report only when drained, and a holder without a lease is drained when it is
retired. -/
def Enabled : BudgetEvent → Prop
  | .request node ack _ => ∀ a, ack = some a → a.drained → a.clusterGeneration ∈ s.reports node
  | .retire node => s.leader.holdsLease node ∨ s.Gone node
  | .connect node p => (s.workers node).inUse p < capOf (s.workers node).allowance p
  | .report node => s.Drained node
  | _ => True

/-- No allowance is in force. -/
structure Idle : Prop where
  leases : s.leader.leases = []
  budgets : s.leader.budgets = .default
  targets : s.targets = []
  inUse : ∀ node p, (s.workers node).inUse p = 0
  allowance : ∀ node p, capOf (s.workers node).allowance p = 0
  generation : ∀ node, (s.workers node).generation = 0
  inbox : ∀ node, s.inbox node = []
  reports : ∀ node, s.reports node = []

/-- The lease table names the same nodes while a target is put together, and the integers
of the leader do not run over: the nodes are counted in sixteen bits, and the generation
goes up by at most three in a request. -/
structure InRange (e : BudgetEvent) : Prop where
  names : s.leader.DistinctNames
  steady : ∀ node ack r, e = .request node ack r → s.leader.Steady r
  generation : s.leader.budgets.generation + 3 < 2 ^ 64

end BudgetNet

/-- The states of a term in which every step meets a condition. -/
def BudgetRun (ok : BudgetNet → BudgetEvent → Prop) : BudgetNet → Prop :=
  Run BudgetNet.Idle (fun s e t => t = s.after e) fun s e => s.Enabled e ∧ ok s e

/-- Every connection is given out. -/
def Whole (servers : List (Text × Nat)) (nodes : List Text) (target : ShareMap) : Prop :=
  nodes ≠ [] → ∀ e ∈ servers, ∑ n ∈ nodes.toFinset, capIn target n e.1 = e.2

/-- The worker stays under a bound, whichever response reaches it. -/
structure Under (w : Worker) (q : List (Nat × Caps)) (f : Text → Nat) : Prop where
  inUse : ∀ p, w.inUse p ≤ f p
  allowance : ∀ p, capOf w.allowance p ≤ f p
  inbox : ∀ m ∈ q, ∀ p, capOf m.2 p ≤ f p

theorem Under.mono {w : Worker} {q : List (Nat × Caps)} {f g : Text → Nat}
    (h : Under w q f) (hfg : ∀ p, f p ≤ g p) : Under w q g :=
  ⟨fun p => (h.inUse p).trans (hfg p), fun p => (h.allowance p).trans (hfg p),
    fun m hm p => (h.inbox m hm p).trans (hfg p)⟩

structure NodeCovered (b : BudgetHandoff) (n : Text) (w : Worker) (q : List (Nat × Caps))
    (rs : List Nat) : Prop where
  under : Under w q (capIn b.grants n)
  released : b.pendingTarget.isSome → n ∉ b.awaitingShrink → Under w q (capIn b.commands n)
  ordered : (w.generation :: q.map (·.1)).Pairwise (· ≤ ·)
  bounded : ∀ g ∈ w.generation :: q.map (·.1), g ≤ b.generation
  allowance : w.generation = b.generation → ∀ p, capOf w.allowance p ≤ capIn b.commands n p
  inbox : ∀ m ∈ q, m.1 = b.generation → ∀ p, capOf m.2 p ≤ capIn b.commands n p
  reports : ∀ g ∈ rs, g ≤ b.generation
  reported : b.generation ∈ rs → Under w q (capIn b.commands n)

/-- What the budgets have to do with the accounts. -/
structure HandoffInv (servers : List (Text × Nat)) (b : BudgetHandoff) : Prop where
  grants : Fits servers b.grants
  pending : ∀ t, b.pendingTarget = some t → Fits servers t
  commandLe : ∀ n p, capIn b.commands n p ≤ capIn b.grants n p
  commandLeTarget : ∀ t, b.pendingTarget = some t → ∀ n p, capIn b.commands n p ≤ capIn t n p

structure Covered (servers : List (Text × Nat)) (b : BudgetHandoff) (s : BudgetNet) : Prop where
  handoff : HandoffInv servers b
  node : ∀ n, NodeCovered b n (s.workers n) (s.inbox n) (s.reports n)

section Budgets

variable {servers : List (Text × Nat)} {b b' : BudgetHandoff} {s : BudgetNet} {n : Text}
  {w : Worker} {q : List (Nat × Caps)} {rs : List Nat}

theorem NodeCovered.next (h : NodeCovered b n w q rs)
    (hgen : b.generation < b'.generation) (hunder : Under w q (capIn b'.grants n))
    (hreleased : b'.pendingTarget.isSome → n ∉ b'.awaitingShrink →
      Under w q (capIn b'.commands n)) : NodeCovered b' n w q rs where
  under := hunder
  released := hreleased
  ordered := h.ordered
  bounded g hg := (h.bounded g hg).trans hgen.le
  allowance he := by
    have hle := h.bounded _ mem_cons_self
    omega
  inbox m hm he := by
    have hle := h.bounded _ (mem_cons_of_mem _ (mem_map_of_mem hm))
    omega
  reports g hg := (h.reports g hg).trans hgen.le
  reported hg := absurd (h.reports _ hg) (Nat.not_le.mpr hgen)

theorem saturatingSucc_eq {g : Nat} (h : g + 1 < 2 ^ 64) : saturatingSucc g = g + 1 := by
  rw [saturatingSucc]
  omega

/-- **The target is applied** when every worker is under its command. -/
theorem Covered.applyPending (h : Covered servers b s) (hgen : b.generation + 1 < 2 ^ 64) :
    Covered servers b.applyPending s := by
  rw [BudgetHandoff.applyPending]
  split
  · exact h
  next t ht =>
    split
    next hnone =>
      refine ⟨⟨h.handoff.pending t ht, (fun _ hp => nomatch hp), fun _ _ => Nat.le_refl _,
        (fun _ hp => nomatch hp)⟩, fun n => ?_⟩
      refine (h.node n).next ?_ ?_ (fun hp => nomatch hp)
      · change b.generation < saturatingSucc b.generation
        rw [saturatingSucc_eq hgen]
        exact Nat.lt_succ_self _
      · have hfree : n ∉ b.awaitingShrink := hnone ▸ not_mem_nil
        have hunder := (h.node n).released (ht ▸ rfl) hfree
        exact hunder.mono (h.handoff.commandLeTarget t ht n)
    · exact h

theorem Covered.acknowledge {node : Text} {ack : Option BudgetAck} (h : Covered servers b s)
    (hack : ∀ a, ack = some a → a.drained → a.clusterGeneration ∈ s.reports node) :
    Covered servers (b.acknowledge node ack) s := by
  cases ack with
  | none => exact h
  | some a =>
    rw [acknowledge.eq_def]
    simp only
    split
    next ha =>
      refine ⟨{ h.handoff with }, fun n => ?_⟩
      have hn := h.node n
      refine ⟨hn.under, fun hp hfree => ?_, hn.ordered, hn.bounded, hn.allowance, hn.inbox,
        hn.reports, hn.reported⟩
      by_cases hsame : n = node
      · subst hsame
        exact hn.reported (ha.1 ▸ hack a rfl ha.2)
      · refine hn.released hp fun hmem => hfree ?_
        exact mem_filter.mpr ⟨hmem, by simpa using hsame⟩
    · exact h

theorem capIn_shrunkCommands (grants target : ShareMap) {zero : Caps}
    (hzero : ∀ p, capOf zero p = 0) (n p : Text) :
    capIn ((grants.map fun e => (e.1, BudgetHandoff.shrunk target e.1 e.2)) ++
      (target.filter fun e => (lookup grants e.1).isNone).map fun e => (e.1, zero)) n p =
      min (capIn target n p) (capIn grants n p) := by
  rw [capIn, lookup_append, lookup_map grants (shrunk target)]
  rw [capIn.eq_def grants n p]
  cases hn : lookup grants n with
  | some old => exact capOf_shrunk target n p old
  | none =>
    rw [Option.map_none, Option.none_or, Option.map_none, Option.getD_none, Nat.min_zero,
      lookup_map (target.filter fun e => (lookup grants e.1).isNone) fun _ _ => zero]
    cases lookup (target.filter fun e => (lookup grants e.1).isNone) n with
    | none => rfl
    | some _ => exact hzero p

theorem capIn_le_of_not_shrinks {grants target : ShareMap}
    (hfree : n ∉ (grants.filter fun e => BudgetHandoff.shrinks target e.1 e.2).map (·.1))
    (p : Text) : capIn grants n p ≤ capIn target n p := by
  rw [capIn, lookup]
  cases hf : grants.find? (·.1 = n) with
  | none => exact Nat.zero_le _
  | some e =>
    have hmem := mem_of_find?_eq_some hf
    have hkey : e.1 = n := by simpa using find?_some hf
    subst hkey
    change capOf e.2 p ≤ _
    rw [capOf, lookup]
    cases hc : e.2.find? (·.1 = p) with
    | none => exact Nat.zero_le _
    | some c =>
      have hprov : c.1 = p := by simpa using find?_some hc
      change c.2 ≤ _
      by_contra hlt
      refine hfree (mem_map.mpr ⟨e, mem_filter.mpr ⟨hmem, ?_⟩, rfl⟩)
      refine any_eq_true.mpr ⟨c, mem_of_find?_eq_some hc, decide_eq_true ?_⟩
      rw [hprov]
      omega

theorem Covered.retarget {zero : Caps} {target : ShareMap} (h : Covered servers b s)
    (hzero : ∀ p, capOf zero p = 0) (ht : Fits servers target)
    (hgen : b.generation + 2 < 2 ^ 64) : Covered servers (b.retarget zero target) s := by
  have hup : saturatingSucc b.generation = b.generation + 1 := saturatingSucc_eq (by omega)
  rw [BudgetHandoff.retarget]
  split
  · exact h
  next hfresh =>
    obtain ⟨hpend, -⟩ := not_or.mp hfresh
    split
    next hempty =>
      refine ⟨⟨ht, fun t hp => ?_, fun _ _ => Nat.le_refl _, fun t hp => ?_⟩, fun n => ?_⟩
      · exact absurd (by rw [hp]; rfl) hpend
      · exact absurd (by rw [hp]; rfl) hpend
      · refine (h.node n).next ?_ ?_ fun hp => absurd hp hpend
        · change b.generation < saturatingSucc b.generation
          omega
        · have hunder := (h.node n).under
          rw [hempty] at hunder
          exact hunder.mono fun p => Nat.zero_le _
    next =>
      have hcap := capIn_shrunkCommands b.grants target hzero
      refine Covered.applyPending (b := BudgetHandoff.mk ..) ⟨⟨h.handoff.grants, ?_, ?_, ?_⟩,
        fun n => ?_⟩ ?_
      · rintro t hp
        exact Option.some.inj hp ▸ ht
      · intro n p
        exact (hcap n p).trans_le (Nat.min_le_right _ _)
      · rintro t hp n p
        obtain rfl := Option.some.inj hp
        exact (hcap n p).trans_le (Nat.min_le_left _ _)
      · refine (h.node n).next ?_ (h.node n).under fun _ hfree => ?_
        · change b.generation < saturatingSucc b.generation
          omega
        · refine (h.node n).under.mono fun p => ?_
          refine (Nat.le_of_eq ?_).trans (hcap n p).symm.le
          exact (Nat.min_eq_right (capIn_le_of_not_shrinks hfree p)).symm
      · change saturatingSucc b.generation + 1 < 2 ^ 64
        omega

theorem Covered.forget {node : Text} (h : Covered servers b s) (hgone : s.Gone node) :
    Covered servers (b.forget node) s := by
  have hgrants : ∀ n p, capIn (b.forget node).grants n p =
      if n = node then 0 else capIn b.grants n p := capIn_filter_ne b.grants node
  have hcommands : ∀ n p, capIn (b.forget node).commands n p =
      if n = node then 0 else capIn b.commands n p := capIn_filter_ne b.commands node
  refine ⟨⟨fun e he nodes => ?_, h.handoff.pending, fun n p => ?_, fun t ht n p => ?_⟩,
    fun n => ?_⟩
  · refine (Finset.sum_le_sum fun n _ => ?_).trans (h.handoff.grants e he nodes)
    rw [hgrants]
    split
    · exact Nat.zero_le _
    · exact Nat.le_refl _
  · rw [hgrants, hcommands]
    split
    · exact Nat.le_refl _
    · exact h.handoff.commandLe n p
  · rw [hcommands]
    split
    · exact Nat.zero_le _
    · exact h.handoff.commandLeTarget t ht n p
  · have hn := h.node n
    by_cases hsame : n = node
    · subst hsame
      obtain ⟨hzero, hnone⟩ := hgone
      have hunder : ∀ f, Under (s.workers n) (s.inbox n) f := fun f =>
        ⟨fun p => (hzero p).1 ▸ Nat.zero_le _, fun p => (hzero p).2 ▸ Nat.zero_le _,
          fun m hm => absurd hm (hnone ▸ not_mem_nil)⟩
      exact ⟨hunder _, fun _ _ => hunder _, hn.ordered, hn.bounded, fun _ => (hunder _).allowance,
        fun m hm _ => (hunder _).inbox m hm, hn.reports, fun _ => hunder _⟩
    · have hg : capIn (b.forget node).grants n = capIn b.grants n :=
        funext fun p => (hgrants n p).trans (if_neg hsame)
      have hc : capIn (b.forget node).commands n = capIn b.commands n :=
        funext fun p => (hcommands n p).trans (if_neg hsame)
      refine ⟨hg ▸ hn.under, fun hp hfree => hc ▸ hn.released hp fun hmem => hfree ?_, hn.ordered,
        hn.bounded, hc ▸ hn.allowance, hc ▸ hn.inbox, hn.reports, hc ▸ hn.reported⟩
      exact mem_filter.mpr ⟨hmem, by simpa using hsame⟩

/-! ### One lemma an event -/

theorem NodeCovered.shrink (h : NodeCovered b n w q rs) {w' : Worker} {q' : List (Nat × Caps)}
    (hgen : w'.generation = w.generation) (huse : ∀ p, w'.inUse p ≤ w.inUse p)
    (hall : ∀ p, capOf w'.allowance p ≤ capOf w.allowance p) (hsub : q'.Sublist q) :
    NodeCovered b n w' q' rs := by
  have hunder : ∀ {f}, Under w q f → Under w' q' f := fun hf =>
    ⟨fun p => (huse p).trans (hf.inUse p), fun p => (hall p).trans (hf.allowance p),
      fun m hm p => hf.inbox m (hsub.subset hm) p⟩
  have hgens : (w'.generation :: q'.map (·.1)).Sublist (w.generation :: q.map (·.1)) := by
    rw [hgen]
    exact (hsub.map _).cons_cons _
  exact ⟨hunder h.under, fun hp hfree => hunder (h.released hp hfree), h.ordered.sublist hgens,
    fun g hg => h.bounded g (hgens.subset hg),
    fun he p => (hall p).trans (h.allowance (hgen ▸ he) p),
    fun m hm he p => h.inbox m (hsub.subset hm) he p, h.reports, fun hg => hunder (h.reported hg)⟩

theorem NodeCovered.apply {m : Nat × Caps} (h : NodeCovered b n w (m :: q) rs) :
    NodeCovered b n { w with generation := m.1, allowance := m.2 } q rs := by
  have hunder : ∀ {f}, Under w (m :: q) f →
      Under { w with generation := m.1, allowance := m.2 } q f := fun hf =>
    ⟨hf.inUse, hf.inbox m mem_cons_self, fun x hx => hf.inbox x (mem_cons_of_mem _ hx)⟩
  exact ⟨hunder h.under, fun hp hfree => hunder (h.released hp hfree),
    (pairwise_cons.mp h.ordered).2, fun g hg => h.bounded g (mem_cons_of_mem _ hg),
    fun he => h.inbox m mem_cons_self he,
    fun x hx => h.inbox x (mem_cons_of_mem _ hx), h.reports, fun hg => hunder (h.reported hg)⟩

theorem NodeCovered.send (h : NodeCovered b n w q rs)
    (hle : ∀ p, capIn b.commands n p ≤ capIn b.grants n p) {caps : Caps}
    (hcaps : ∀ p, capOf caps p = capIn b.commands n p) :
    NodeCovered b n w (q ++ [(b.generation, caps)]) rs := by
  have hunder : ∀ {f}, (∀ p, capIn b.commands n p ≤ f p) → Under w q f →
      Under w (q ++ [(b.generation, caps)]) f := by
    intro f hf hu
    refine ⟨hu.inUse, hu.allowance, fun m hm p => ?_⟩
    rcases mem_append.mp hm with hm | hm
    · exact hu.inbox m hm p
    · rw [mem_singleton.mp hm, hcaps]
      exact hf p
  have hgens : w.generation :: (q ++ [(b.generation, caps)]).map (·.1) =
      (w.generation :: q.map (·.1)) ++ [b.generation] := by simp
  refine ⟨hunder hle h.under,
    fun hp hfree => hunder (fun _ => Nat.le_refl _) (h.released hp hfree), ?_, ?_, h.allowance, ?_,
    h.reports, fun hg => hunder (fun _ => Nat.le_refl _) (h.reported hg)⟩
  · rw [hgens]
    refine pairwise_append.mpr ⟨h.ordered, pairwise_singleton _ _, fun g hg g' hg' => ?_⟩
    rw [mem_singleton.mp hg']
    exact h.bounded g hg
  · intro g hg
    rw [hgens] at hg
    rcases mem_append.mp hg with hg | hg
    · exact h.bounded g hg
    · exact (mem_singleton.mp hg).le
  · intro m hm he p
    rcases mem_append.mp hm with hm | hm
    · exact h.inbox m hm he p
    · rw [mem_singleton.mp hm, hcaps]

theorem NodeCovered.connect {p : Text} (h : NodeCovered b n w q rs)
    (hlt : w.inUse p < capOf w.allowance p) :
    NodeCovered b n { w with inUse := Function.update w.inUse p (w.inUse p + 1) } q rs := by
  have hunder : ∀ {f}, Under w q f →
      Under { w with inUse := update w.inUse p (w.inUse p + 1) } q f := by
    intro f hf
    refine ⟨fun p' => ?_, hf.allowance, hf.inbox⟩
    change update w.inUse p (w.inUse p + 1) p' ≤ f p'
    rw [update_apply]
    split
    next he =>
      subst he
      exact hlt.trans_le (hf.allowance p')
    next => exact hf.inUse p'
  exact ⟨hunder h.under, fun hp hfree => hunder (h.released hp hfree), h.ordered, h.bounded,
    h.allowance, h.inbox, h.reports, fun hg => hunder (h.reported hg)⟩

theorem NodeCovered.report (h : NodeCovered b n w q rs)
    (hd : ∀ p, w.inUse p ≤ capOf w.allowance p) :
    NodeCovered b n w q (w.generation :: rs) := by
  refine ⟨h.under, h.released, h.ordered, h.bounded, h.allowance, h.inbox, ?_, ?_⟩
  · intro g hg
    rcases mem_cons.mp hg with rfl | hg
    · exact h.bounded _ mem_cons_self
    · exact h.reports g hg
  · intro hg
    rcases mem_cons.mp hg with he | hg
    · -- whatever is still on its way comes from the generation that was reported
      have hall := h.allowance he.symm
      refine ⟨fun p => (hd p).trans (hall p), hall, fun m hm => h.inbox m hm ?_⟩
      have hmem : m.1 ∈ q.map (·.1) := mem_map_of_mem hm
      have hlo := (pairwise_cons.mp h.ordered).1 m.1 hmem
      have hhi := h.bounded m.1 (mem_cons_of_mem _ hmem)
      omega
    · exact h.reported hg

theorem Covered.update (h : Covered servers b s) {t : BudgetNet} (node : Text)
    (hother : ∀ n, n ≠ node → t.workers n = s.workers n ∧ t.inbox n = s.inbox n ∧
      t.reports n = s.reports n)
    (hnode : NodeCovered b node (t.workers node) (t.inbox node) (t.reports node)) :
    Covered servers b t := by
  refine ⟨h.handoff, fun n => ?_⟩
  by_cases hn : n = node
  · exact hn ▸ hnode
  · obtain ⟨hw, hi, hr⟩ := hother n hn
    rw [hw, hi, hr]
    exact h.node n

theorem Covered.revision (h : Covered servers b s) (r : Nat) :
    Covered servers { b with revision := r } s :=
  ⟨{ h.handoff with },
    fun n =>
      have hn := h.node n
      { hn with }⟩

end Budgets

namespace BudgetNet

variable {s : BudgetNet}

end BudgetNet

theorem BudgetRun.after {ok : BudgetNet → BudgetEvent → Prop} {s : BudgetNet}
    (h : BudgetRun ok s) (e : BudgetEvent) (he : s.Enabled e) (hok : ok s e) :
    BudgetRun ok (s.after e) :=
  .step h ⟨he, hok⟩ rfl

end Nzbd
