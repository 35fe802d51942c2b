import Nzbd.Cluster.Handoff

/-!
# Who is waited for

A handoff goes on when every node in `awaiting_shrink` has reported, or has lost
its last lease to the sweep.  A node that is waited for and holds no lease can do
neither if it is gone, and then no share goes up again.

The leases leave the table on other ways than the sweep, and the list also comes
back from the store when another node takes office.  `Unblockable` says that
whoever is waited for holds a lease; it is kept by the sweep, and by the other
steps if they meet `CanWait`.
-/

namespace Nzbd

open List Runs

/-- The node in office, what the other nodes have in memory from a term of their
own, and the state in the store. -/
structure BudgetOffice where
  leader : LeaderShared
  memory : Text → BudgetHandoff
  persisted : Option BudgetHandoff

inductive OfficeEvent
  | grant (leaseId node : Text) (r : LeaseReads) (saved : Bool)
  /-- A heartbeat; the leases the table has lost are adopted again. -/
  | heartbeat (node : Text) (ack : Option BudgetAck) (r : LeaseReads) (adopted : List Text)
    (saved : Bool)
  | complete (leaseId : Text) (saved : Bool)
  | reject (leaseId : Text) (saved : Bool)
  | sweep (expired : List Text) (saved : Bool)
  /-- A node takes office. -/
  | takeOffice (node : Text) (servers : List (Text × Nat)) (loaded : Bool)

namespace LeaderShared

variable (s : LeaderShared)

def hasLease (leaseId : Text) : Bool := s.leases.any (·.1 = leaseId)

/-- A lease of the node that the table does not have. -/
def adoptLease (node : Text) (s : LeaderShared) (leaseId : Text) : LeaderShared :=
  if s.hasLease leaseId then s else s.insertLease leaseId node

/-- The expired leases go, and then their holders one by one. -/
def sweepExpired (expired : List Text) : LeaderShared :=
  let dead := s.leases.filter fun e => decide (e.1 ∈ expired)
  let rest := { s with leases := s.leases.filter fun e => decide (e.1 ∉ expired) }
  dead.foldl (fun s e => s.retireExpiredBudgetHolder e.2) rest

end LeaderShared

namespace BudgetOffice

variable (s : BudgetOffice)

/-- Written unless the store has a later revision. -/
def persist (saved : Bool) : BudgetOffice :=
  let b := s.leader.budgets
  if saved ∧ 0 < b.revision ∧ b.revision < 2 ^ 63 ∧ s.persisted.all (·.revision < b.revision) then
    { s with persisted := some b }
  else s

def setLeader (l : LeaderShared) : BudgetOffice := { s with leader := l }

/-- What a node finds when it takes office. -/
def restored (node : Text) (loaded : Bool) : BudgetHandoff :=
  if loaded then s.persisted.getD (s.memory node) else s.memory node

def after : OfficeEvent → BudgetOffice
  | .grant leaseId node r saved =>
    (s.setLeader ((s.leader.insertLease leaseId node).budgetCommand node none r).1).persist saved
  | .heartbeat node ack r adopted saved =>
    let t := (s.setLeader (s.leader.budgetCommand node ack r).1).persist saved
    t.setLeader (adopted.foldl (LeaderShared.adoptLease node) t.leader)
  | .complete leaseId saved => (s.setLeader (s.leader.removeLease leaseId)).persist saved
  | .reject leaseId saved => (s.setLeader (s.leader.removeLease leaseId)).persist saved
  | .sweep expired saved => (s.setLeader (s.leader.sweepExpired expired)).persist saved
  | .takeOffice node servers loaded =>
    let memory := Function.update s.memory s.leader.nodeName s.leader.budgets
    let t := { s with memory := memory }
    t.setLeader ⟨node, servers, [], t.restored node loaded⟩

/-- A grant has a lease id of its own: a fence is given out once. -/
def Enabled : OfficeEvent → Prop
  | .grant leaseId _ _ _ => s.leader.hasLease leaseId = false
  | _ => True

/-- The first leader, with an empty store. -/
structure Opened : Prop where
  leases : s.leader.leases = []
  budgets : s.leader.budgets = .default
  memory : ∀ node, s.memory node = .default
  persisted : s.persisted = none

end BudgetOffice

/-- **Everyone who is waited for holds a lease**, and when all leases run out the
target is applied. -/
structure Unblockable (s : BudgetOffice) : Prop where
  holdsLease : ∀ n ∈ s.leader.budgets.awaitingShrink, s.leader.holdsLease n
  sweep : ∀ expired, (∀ e ∈ s.leader.leases, e.1 ∈ expired) →
    (s.leader.sweepExpired expired).budgets.awaitingShrink = [] ∧
      (s.leader.sweepExpired expired).budgets.pendingTarget = none

/-! ### The condition -/

namespace LeaderShared

/-- The grants a request goes on from, unless a target stays pending. -/
def grantsFor (s : LeaderShared) (node : Text) (ack : Option BudgetAck) : Option ShareMap :=
  match s.budgets.pendingTarget with
  | none => some s.budgets.grants
  | some target =>
    if (s.budgets.acknowledge node ack).awaitingShrink = [] then some target else none

/-- Every holder whose share gets smaller holds a lease. -/
def CanShrink (s : LeaderShared) (node : Text) (ack : Option BudgetAck) (r : LeaseReads) : Prop :=
  ∀ g, s.grantsFor node ack = some g → g ≠ s.budgetTarget r →
    ∀ e ∈ g, BudgetHandoff.shrinks (s.budgetTarget r) e.1 e.2 → s.holdsLease e.1

instance (s : LeaderShared) (node : Text) (ack : Option BudgetAck) (r : LeaseReads) :
    Decidable (s.CanShrink node ack r) :=
  match h : s.grantsFor node ack with
  | none => isTrue fun _ hg => nomatch h.symm.trans hg
  | some g => decidable_of_iff (g ≠ s.budgetTarget r → ∀ e ∈ g,
      BudgetHandoff.shrinks (s.budgetTarget r) e.1 e.2 → s.holdsLease e.1)
    ⟨fun hc _ hg => Option.some.inj (h.symm.trans hg) ▸ hc, fun hc => hc g h⟩

end LeaderShared

/-- The step puts nobody without a lease on the list, and takes the last lease of
nobody who is on it. -/
def BudgetOffice.CanWait (s : BudgetOffice) : OfficeEvent → Prop
  | .grant leaseId node r _ => (s.leader.insertLease leaseId node).CanShrink node none r
  | .heartbeat node ack r _ _ => s.leader.CanShrink node ack r
  | .complete leaseId _ => ∀ n ∈ s.leader.budgets.awaitingShrink,
      (s.leader.removeLease leaseId).holdsLease n
  | .reject leaseId _ => ∀ n ∈ s.leader.budgets.awaitingShrink,
      (s.leader.removeLease leaseId).holdsLease n
  | .sweep _ _ => True
  | .takeOffice node _ loaded =>
    ({ s with memory := Function.update s.memory s.leader.nodeName s.leader.budgets
      : BudgetOffice }.restored node loaded).awaitingShrink = []

/-- The states of a run in which every step meets a condition. -/
def OfficeRun (ok : BudgetOffice → OfficeEvent → Prop) : BudgetOffice → Prop :=
  Run BudgetOffice.Opened (fun s e t => t = s.after e) fun s e => s.Enabled e ∧ ok s e

/-! ### Who gets on the list -/

namespace BudgetHandoff

variable {b : BudgetHandoff} {n : Text}

/-- Without anyone to wait for nothing is pending. -/
def Resting (b : BudgetHandoff) : Prop := b.awaitingShrink = [] → b.pendingTarget = none

theorem awaitingShrink_applyPending (b : BudgetHandoff) :
    b.applyPending.awaitingShrink = b.awaitingShrink := by
  rw [applyPending]
  split
  · rfl
  · split <;> rfl

theorem resting_applyPending (b : BudgetHandoff) : b.applyPending.Resting := by
  intro hnone
  rw [awaitingShrink_applyPending] at hnone
  rw [applyPending]
  split
  next hp => exact hp
  next => rw [if_pos hnone]

theorem mem_acknowledge {node : Text} {ack : Option BudgetAck}
    (h : n ∈ (b.acknowledge node ack).awaitingShrink) : n ∈ b.awaitingShrink := by
  cases ack with
  | none => exact h
  | some a =>
    rw [acknowledge.eq_def] at h
    simp only at h
    split at h
    · exact (mem_filter.mp h).1
    · exact h

theorem pendingTarget_acknowledge (b : BudgetHandoff) (node : Text) (ack : Option BudgetAck) :
    (b.acknowledge node ack).pendingTarget = b.pendingTarget ∧
      (b.acknowledge node ack).grants = b.grants := by
  cases ack with
  | none => exact ⟨rfl, rfl⟩
  | some a =>
    rw [acknowledge.eq_def]
    simp only
    split <;> exact ⟨rfl, rfl⟩

theorem mem_retarget {zero : Caps} {target : ShareMap}
    (h : n ∈ (b.retarget zero target).awaitingShrink) :
    n ∈ b.awaitingShrink ∨ b.pendingTarget = none ∧ b.grants ≠ target ∧
      ∃ e ∈ b.grants, e.1 = n ∧ shrinks target e.1 e.2 := by
  rw [retarget] at h
  split at h
  · exact .inl h
  next hfresh =>
    obtain ⟨hp, hg⟩ := not_or.mp hfresh
    split at h
    · exact .inl h
    · rw [awaitingShrink_applyPending] at h
      obtain ⟨e, he, rfl⟩ := mem_map.mp h
      obtain ⟨hmem, hshrink⟩ := mem_filter.mp he
      exact .inr ⟨by simpa using hp, hg, e, hmem, rfl, hshrink⟩

theorem resting_retarget {zero : Caps} {target : ShareMap} (h : b.Resting) :
    (b.retarget zero target).Resting := by
  rw [retarget]
  split
  · exact h
  next hfresh =>
    have hp : b.pendingTarget = none := by simpa using (not_or.mp hfresh).1
    split
    · exact fun _ => hp
    · exact resting_applyPending _

end BudgetHandoff

namespace LeaderShared

variable {s : LeaderShared} {n : Text}

theorem resting_handOver (s : LeaderShared) (node : Text) (ack : Option BudgetAck)
    (r : LeaseReads) : (s.handOver node ack r).Resting :=
  BudgetHandoff.resting_retarget (BudgetHandoff.resting_applyPending _)

theorem grantsFor_eq {node : Text} {ack : Option BudgetAck}
    (h : (s.budgets.acknowledge node ack).applyPending.pendingTarget = none) :
    s.grantsFor node ack = some (s.budgets.acknowledge node ack).applyPending.grants := by
  obtain ⟨hp, hg⟩ := s.budgets.pendingTarget_acknowledge node ack
  rw [BudgetHandoff.applyPending, hp] at h
  rw [grantsFor, BudgetHandoff.applyPending, hp]
  cases ht : s.budgets.pendingTarget with
  | none => exact congrArg some hg.symm
  | some target =>
    rw [ht] at h
    simp only at h ⊢
    split at h
    next hnone => rw [if_pos hnone, if_pos hnone]
    next =>
      rw [hp, ht] at h
      cases h

theorem mem_handOver {node : Text} {ack : Option BudgetAck} {r : LeaseReads}
    (hc : s.CanShrink node ack r) (h : n ∈ (s.handOver node ack r).awaitingShrink) :
    n ∈ s.budgets.awaitingShrink ∨ s.holdsLease n := by
  rcases BudgetHandoff.mem_retarget h with hold | ⟨hp, hne, e, he, rfl, hshrink⟩
  · rw [BudgetHandoff.awaitingShrink_applyPending] at hold
    exact .inl (BudgetHandoff.mem_acknowledge hold)
  · exact .inr (hc _ (grantsFor_eq hp) hne e he hshrink)

theorem leases_retire (s : LeaderShared) (node : Text) :
    (s.retireExpiredBudgetHolder node).leases = s.leases := by
  rw [retireExpiredBudgetHolder]
  split <;> rfl

theorem holdsLease_congr {s t : LeaderShared} (h : t.leases = s.leases) (n : Text) :
    t.holdsLease n = s.holdsLease n := by
  rw [holdsLease, h, holdsLease]

theorem mem_retire {node : Text}
    (h : n ∈ (s.retireExpiredBudgetHolder node).budgets.awaitingShrink) :
    n ∈ s.budgets.awaitingShrink ∧ (n = node → s.holdsLease n) := by
  rw [retireExpiredBudgetHolder] at h
  split at h
  next hold =>
    refine ⟨h, ?_⟩
    rintro rfl
    exact hold
  next =>
    change n ∈ (s.budgets.forget node).applyPending.awaitingShrink at h
    rw [BudgetHandoff.awaitingShrink_applyPending] at h
    obtain ⟨hmem, hne⟩ := mem_filter.mp h
    exact ⟨hmem, fun he => absurd he (by simpa using hne)⟩

theorem resting_retire {node : Text} (h : s.budgets.Resting) :
    (s.retireExpiredBudgetHolder node).budgets.Resting := by
  rw [retireExpiredBudgetHolder]
  split
  · exact h
  · exact BudgetHandoff.resting_applyPending _

theorem foldl_retire (dead : List (Text × Text)) (s : LeaderShared) :
    let t := dead.foldl (fun s e => s.retireExpiredBudgetHolder e.2) s
    t.leases = s.leases ∧ (s.budgets.Resting → t.budgets.Resting) ∧
      ∀ n ∈ t.budgets.awaitingShrink, n ∈ s.budgets.awaitingShrink ∧
        ((∃ e ∈ dead, e.2 = n) → s.holdsLease n) := by
  induction dead generalizing s with
  | nil =>
    refine ⟨rfl, id, fun n hn => ⟨hn, ?_⟩⟩
    rintro ⟨e, he, -⟩
    exact absurd he not_mem_nil
  | cons d dead ih =>
    obtain ⟨hl, hr, hm⟩ := ih (s.retireExpiredBudgetHolder d.2)
    have hleases := s.leases_retire d.2
    refine ⟨hl.trans hleases, fun h => hr (resting_retire h), fun n hn => ?_⟩
    obtain ⟨hmid, hdead⟩ := hm n hn
    obtain ⟨hmem, hself⟩ := mem_retire hmid
    refine ⟨hmem, ?_⟩
    rintro ⟨e, he, hen⟩
    rcases mem_cons.mp he with rfl | he
    · exact hself hen.symm
    · rw [← holdsLease_congr hleases]
      exact hdead ⟨e, he, hen⟩

/-- **The sweep**: whoever stays on the list holds a lease that has not expired. -/
theorem sweepExpired_spec (s : LeaderShared) (expired : List Text) :
    (s.sweepExpired expired).leases = s.leases.filter (fun e => decide (e.1 ∉ expired)) ∧
      (s.budgets.Resting → (s.sweepExpired expired).budgets.Resting) ∧
      ∀ n ∈ (s.sweepExpired expired).budgets.awaitingShrink,
        n ∈ s.budgets.awaitingShrink ∧ (s.holdsLease n → (s.sweepExpired expired).holdsLease n) := by
  obtain ⟨hl, hr, hm⟩ := foldl_retire (s.leases.filter fun e => decide (e.1 ∈ expired))
    { s with leases := s.leases.filter fun e => decide (e.1 ∉ expired) }
  refine ⟨hl, hr, fun n hn => ?_⟩
  obtain ⟨hmem, hdead⟩ := hm n hn
  refine ⟨hmem, fun hold => ?_⟩
  rw [sweepExpired, holdsLease_congr hl]
  obtain ⟨e, he, hen⟩ := any_eq_true.mp hold
  by_cases hexp : e.1 ∈ expired
  · exact hdead ⟨e, mem_filter.mpr ⟨he, decide_eq_true hexp⟩, by simpa using hen⟩
  · exact any_eq_true.mpr ⟨e, mem_filter.mpr ⟨he, decide_eq_true hexp⟩, hen⟩

theorem holdsLease_insert {leaseId node : Text} (hnew : s.hasLease leaseId = false)
    (h : s.holdsLease n) : (s.insertLease leaseId node).holdsLease n := by
  obtain ⟨e, he, hen⟩ := any_eq_true.mp h
  refine any_eq_true.mpr ⟨e, mem_append_left _ (mem_filter.mpr ⟨he, ?_⟩), hen⟩
  refine decide_eq_true fun hid => ?_
  have hfound : s.hasLease leaseId = true :=
    any_eq_true.mpr ⟨e, he, decide_eq_true hid⟩
  rw [hnew] at hfound
  cases hfound

theorem foldl_adopt (node : Text) (ids : List Text) (s : LeaderShared) :
    let t := ids.foldl (adoptLease node) s
    t.budgets = s.budgets ∧ ∀ n, s.holdsLease n → t.holdsLease n := by
  induction ids generalizing s with
  | nil => exact ⟨rfl, fun _ h => h⟩
  | cons id ids ih =>
    obtain ⟨hb, hl⟩ := ih (adoptLease node s id)
    rw [foldl_cons]
    refine ⟨hb.trans ?_, fun n hn => hl n ?_⟩
    · rw [adoptLease]
      split <;> rfl
    · rw [adoptLease]
      split
      · exact hn
      next hnew => exact holdsLease_insert (by simpa using hnew) hn

end LeaderShared

/-! ### The run -/

/-- The invariant: no memory of the budgets is stuck by itself, and whoever is
waited for holds a lease. -/
structure OfficeInv (s : BudgetOffice) : Prop where
  holds : ∀ n ∈ s.leader.budgets.awaitingShrink, s.leader.holdsLease n
  resting : s.leader.budgets.Resting
  memory : ∀ node, (s.memory node).Resting
  persisted : ∀ b, s.persisted = some b → b.Resting

variable {s : BudgetOffice}

theorem OfficeInv.setLeader (h : OfficeInv s) {l : LeaderShared}
    (hl : ∀ n ∈ l.budgets.awaitingShrink, l.holdsLease n) (hr : l.budgets.Resting) :
    OfficeInv (s.setLeader l) := ⟨hl, hr, h.memory, h.persisted⟩

theorem OfficeInv.persist (h : OfficeInv s) (saved : Bool) : OfficeInv (s.persist saved) := by
  rw [BudgetOffice.persist]
  split
  · refine ⟨h.holds, h.resting, h.memory, fun b hb => ?_⟩
    exact Option.some.inj hb ▸ h.resting
  · exact h

theorem OfficeInv.remove (h : OfficeInv s) {leaseId : Text}
    (hw : ∀ n ∈ s.leader.budgets.awaitingShrink, (s.leader.removeLease leaseId).holdsLease n) :
    OfficeInv (s.setLeader (s.leader.removeLease leaseId)) :=
  h.setLeader hw h.resting

theorem OfficeInv.after {e : OfficeEvent} (h : OfficeInv s) (he : s.Enabled e)
    (hw : s.CanWait e) : OfficeInv (s.after e) := by
  cases e with
  | grant leaseId node r saved =>
    refine (h.setLeader (fun n hn => ?_) ?_).persist saved
    · rcases LeaderShared.mem_handOver hw hn with hold | hlease
      · exact LeaderShared.holdsLease_insert he (h.holds n hold)
      · exact hlease
    · exact LeaderShared.resting_handOver _ node none r
  | heartbeat node ack r adopted saved =>
    have hnext : OfficeInv ((s.setLeader (s.leader.budgetCommand node ack r).1).persist saved) := by
      refine (h.setLeader (fun n hn => ?_) ?_).persist saved
      · rcases LeaderShared.mem_handOver hw hn with hold | hlease
        · exact h.holds n hold
        · exact hlease
      · exact LeaderShared.resting_handOver _ node ack r
    obtain ⟨hb, hl⟩ := LeaderShared.foldl_adopt node adopted
      ((s.setLeader (s.leader.budgetCommand node ack r).1).persist saved).leader
    refine hnext.setLeader (fun n hn => ?_) (hb ▸ hnext.resting)
    exact hl n (hnext.holds n (hb ▸ hn))
  | complete leaseId saved => exact (h.remove hw).persist saved
  | reject leaseId saved => exact (h.remove hw).persist saved
  | sweep expired saved =>
    obtain ⟨-, hr, hm⟩ := s.leader.sweepExpired_spec expired
    refine (h.setLeader (fun n hn => ?_) (hr h.resting)).persist saved
    obtain ⟨hmem, hstill⟩ := hm n hn
    exact hstill (h.holds n hmem)
  | takeOffice node servers loaded =>
    have hmemory : ∀ n, (Function.update s.memory s.leader.nodeName s.leader.budgets n).Resting := by
      intro n
      rw [Function.update_apply]
      split
      · exact h.resting
      · exact h.memory n
    refine ⟨fun n hn => ?_, ?_, hmemory, h.persisted⟩
    · change n ∈ (BudgetOffice.restored _ node loaded).awaitingShrink at hn
      rw [hw] at hn
      exact absurd hn not_mem_nil
    · change (BudgetOffice.restored _ node loaded).Resting
      rw [BudgetOffice.restored]
      split
      · change (s.persisted.getD _).Resting
        cases hp : s.persisted with
        | none => exact hmemory node
        | some b => exact h.persisted b hp
      · exact hmemory node

theorem OfficeInv.of_run (h : OfficeRun (fun s e => s.CanWait e) s) : OfficeInv s := by
  refine Run.invariant (P := OfficeInv) ?_ ?_ h
  · intro s hs
    have hrest : BudgetHandoff.default.Resting := fun _ => rfl
    refine ⟨?_, hs.budgets ▸ hrest, fun node => hs.memory node ▸ hrest, ?_⟩
    · rw [hs.budgets]
      exact fun n hn => absurd hn not_mem_nil
    · intro b hb
      rw [hs.persisted] at hb
      nomatch hb
  · rintro s e t hs ⟨he, hw⟩ rfl
    exact hs.after he hw

/-- **A handoff can be unblocked** if no step leaves someone waited for without a
lease. -/
theorem unblockable_of_run (s : BudgetOffice) (h : OfficeRun (fun s e => s.CanWait e) s) :
    Unblockable s := by
  have hinv := OfficeInv.of_run h
  refine ⟨hinv.holds, fun expired hall => ?_⟩
  obtain ⟨hl, hr, hm⟩ := s.leader.sweepExpired_spec expired
  have hleases : (s.leader.sweepExpired expired).leases = [] := by
    rw [hl]
    refine filter_eq_nil_iff.mpr fun e he hkeep => ?_
    exact (of_decide_eq_true hkeep) (hall e he)
  have hnone : (s.leader.sweepExpired expired).budgets.awaitingShrink = [] := by
    refine eq_nil_iff_forall_not_mem.mpr fun n hn => ?_
    obtain ⟨hmem, hstill⟩ := hm n hn
    have hold := hstill (hinv.holds n hmem)
    rw [LeaderShared.holdsLease, hleases] at hold
    cases hold
  exact ⟨hnone, hr hinv.resting hnone⟩

/-! ### A worker that has finished -/

def newOffice : BudgetOffice where
  leader := ⟨text "leader", [(text "news", 2)], [], .default⟩
  memory := fun _ => .default
  persisted := none

theorem opened_newOffice : newOffice.Opened := ⟨rfl, rfl, fun _ => rfl, rfl⟩

theorem OfficeRun.after {ok : BudgetOffice → OfficeEvent → Prop} (h : OfficeRun ok s)
    (e : OfficeEvent) (he : s.Enabled e) (hok : ok s e) : OfficeRun ok (s.after e) :=
  .step h ⟨he, hok⟩ rfl

def alone : LeaseReads := .still [(text "1", text "a")]

def both : LeaseReads := .still [(text "1", text "a"), (text "2", text "b")]

def other : LeaseReads := .still [(text "2", text "b")]

/-- `b` joins while `a` is at work: `a` is waited for, and holds a lease. -/
theorem unblockable_join : Unblockable
    ((newOffice.after (.grant (text "1") (text "a") alone true)).after
      (.grant (text "2") (text "b") both true)) := by
  have h0 : OfficeRun (fun s e => s.CanWait e) newOffice := .start opened_newOffice
  have h1 := h0.after (.grant (text "1") (text "a") alone true) rfl
    (show LeaderShared.CanShrink _ _ _ _ by decide +kernel)
  have h2 := h1.after (.grant (text "2") (text "b") both true) rfl
    (show LeaderShared.CanShrink _ _ _ _ by decide +kernel)
  exact unblockable_of_run _ h2

/-- `a` finishes its only lease and `b` gets the next one: `a` is waited for,
and holds none. -/
theorem stuck_afterComplete :
    ¬ ∀ s, OfficeRun (fun _ _ => True) s → Unblockable s := by
  intro h
  have h0 : OfficeRun (fun _ _ => True) newOffice := .start opened_newOffice
  have h1 := h0.after (.grant (text "1") (text "a") alone true) rfl trivial
  have h2 := h1.after (.complete (text "1") true) trivial trivial
  have h3 := h2.after (.grant (text "2") (text "b") other true) rfl trivial
  have hwaits : text "a" ∈ (((newOffice.after (.grant (text "1") (text "a") alone true)).after
      (.complete (text "1") true)).after
      (.grant (text "2") (text "b") other true)).leader.budgets.awaitingShrink := by
    decide +kernel
  exact absurd ((h _ h3).holdsLease _ hwaits) (by decide +kernel)

end Nzbd
