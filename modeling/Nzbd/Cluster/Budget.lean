import Mathlib.Data.Char
import Nzbd.Engine.Naming
import Nzbd.Lib.FirstMatch
import Nzbd.Lib.Shares

/-!
# Provider budgets

A provider account allows `max_connections` connections, and the workers that
hold a lease share them.  When the workers change, the shares change in two
phases: first every share that gets smaller is commanded, and the nodes
concerned have to report that they have drained (`awaiting_shrink`); then the
target that was pending is applied as a whole.

The lease table is locked anew for the list of the nodes and for the share of each of
them, so a target may be put together from several tables (`LeaseReads`).  `Steady`
says that they name the same nodes.

A map is the list of its entries, in the order of the nodes or of the configured
servers.  Integers are those of the source: the number of nodes wraps at sixteen
bits, the counters saturate at sixty-four.
-/

namespace Nzbd

open List

abbrev Caps := List (Text × Nat)

/-- Connections, by node and provider. -/
abbrev ShareMap := List (Text × Caps)

section Maps

variable {β : Type*}

def lookup (m : List (Text × β)) (k : Text) : Option β := (m.find? (·.1 = k)).map (·.2)

/-- Entries as a map: the last one of a key stays. -/
def collect (entries : List (Text × β)) : List (Text × β) :=
  entries.foldl (fun m e => m.filter (·.1 ≠ e.1) ++ [e]) []

end Maps

def capOf (caps : Caps) (provider : Text) : Nat := (lookup caps provider).getD 0

/-- The connections of a node, none if it has no entry. -/
def capIn (shares : ShareMap) (node provider : Text) : Nat :=
  ((lookup shares node).map (capOf · provider)).getD 0

def saturatingSucc (n : Nat) : Nat := min (n + 1) (2 ^ 64 - 1)

structure BudgetAck where
  clusterGeneration : Nat
  drained : Bool

structure BudgetHandoff where
  revision : Nat
  generation : Nat
  grants : ShareMap
  commands : ShareMap
  pendingTarget : Option ShareMap
  awaitingShrink : List Text

def BudgetHandoff.default : BudgetHandoff := ⟨0, 0, [], [], none, []⟩

/-- Lease ids with their nodes. -/
abbrev Leases := List (Text × Text)

/-- The lease table as a target finds it: when the nodes are listed, and when the share
of a node is reckoned. -/
structure LeaseReads where
  listed : Leases
  again : Text → Leases

/-- Nobody touches the table in between. -/
def LeaseReads.still (leases : Leases) : LeaseReads := ⟨leases, fun _ => leases⟩

/-- What the leader knows: its name, the providers with their connections, the
lease ids with their nodes, and the budgets. -/
structure LeaderShared where
  nodeName : Text
  servers : List (Text × Nat)
  leases : Leases
  budgets : BudgetHandoff

/-! ### Targets -/

namespace LeaderShared

variable (s : LeaderShared)

def budgetNodes (leases : Leases) : List Text :=
  (((leases.map (·.2)).insertionSort (· ≤ ·)).dedup).filter (· ≠ s.nodeName)

def budgetsForNode (leases : Leases) (node : Text) : Caps :=
  let nodes := s.budgetNodes leases
  let count := nodes.length % 2 ^ 16
  collect (s.servers.map fun server => (server.1,
    if node ∈ nodes ∧ 0 < count then Shares.share server.2 count (nodes.idxOf node % 2 ^ 16)
    else 0))

def budgetTarget (r : LeaseReads) : ShareMap :=
  (s.budgetNodes r.listed).map fun node => (node, s.budgetsForNode (r.again node) node)

def zeroCaps : Caps := collect (s.servers.map fun server => (server.1, 0))

end LeaderShared

/-! ### Handing over -/

namespace BudgetHandoff

variable (b : BudgetHandoff)

/-- A node says that it has drained. -/
def acknowledge (node : Text) (ack : Option BudgetAck) : BudgetHandoff :=
  match ack with
  | none => b
  | some ack =>
    if ack.clusterGeneration = b.generation ∧ ack.drained then
      { b with awaitingShrink := b.awaitingShrink.filter (· ≠ node) }
    else b

/-- Apply the target that is pending, if nobody is waited for. -/
def applyPending : BudgetHandoff :=
  match b.pendingTarget with
  | none => b
  | some target =>
    if b.awaitingShrink = [] then
      { b with
        generation := saturatingSucc b.generation
        grants := target
        commands := target
        pendingTarget := none }
    else b

/-- What a holder is commanded on the way to a target: no cap goes up. -/
def shrunk (target : ShareMap) (holder : Text) (old : Caps) : Caps :=
  old.map fun e => (e.1, if capIn target holder e.1 < e.2 then capIn target holder e.1 else e.2)

/-- A cap of the holder goes down. -/
def shrinks (target : ShareMap) (holder : Text) (old : Caps) : Bool :=
  old.any fun e => capIn target holder e.1 < e.2

/-- Start towards another target. -/
def retarget (zero : Caps) (target : ShareMap) : BudgetHandoff :=
  if b.pendingTarget.isSome ∨ b.grants = target then b
  else if b.grants = [] then
    { b with
      generation := saturatingSucc b.generation
      grants := target
      commands := target }
  else
    let newcomers := target.filter fun e => (lookup b.grants e.1).isNone
    { b with
      generation := saturatingSucc b.generation
      commands := (b.grants.map fun e => (e.1, shrunk target e.1 e.2)) ++
        newcomers.map fun e => (e.1, zero)
      awaitingShrink := (b.grants.filter fun e => shrinks target e.1 e.2).map (·.1)
      pendingTarget := some target : BudgetHandoff }.applyPending

/-- A node that is gone. -/
def forget (node : Text) : BudgetHandoff :=
  { b with
    grants := b.grants.filter (·.1 ≠ node)
    commands := b.commands.filter (·.1 ≠ node)
    awaitingShrink := b.awaitingShrink.filter (· ≠ node) }

end BudgetHandoff

namespace LeaderShared

variable (s : LeaderShared)

/-- The handoff after a request: the report is taken, a target that is free to be
applied is, and if the workers have changed the next one is started. -/
def handOver (node : Text) (ack : Option BudgetAck) (r : LeaseReads) : BudgetHandoff :=
  let b := ((s.budgets.acknowledge node ack).applyPending).retarget s.zeroCaps (s.budgetTarget r)
  { b with revision := max (saturatingSucc b.revision) 1 }

def budgetCommand (node : Text) (ack : Option BudgetAck) (r : LeaseReads) :
    LeaderShared × Nat × Caps :=
  let b := s.handOver node ack r
  ({ s with budgets := b }, b.generation, (lookup b.commands node).getD s.zeroCaps)

def insertLease (leaseId node : Text) : LeaderShared :=
  { s with leases := s.leases.filter (·.1 ≠ leaseId) ++ [(leaseId, node)] }

def removeLease (leaseId : Text) : LeaderShared :=
  { s with leases := s.leases.filter (·.1 ≠ leaseId) }

def holdsLease (node : Text) : Bool := s.leases.any (·.2 = node)

def retireExpiredBudgetHolder (node : Text) : LeaderShared :=
  if s.holdsLease node then s
  else { s with budgets := (s.budgets.forget node).applyPending }

end LeaderShared

/-! ### What is in a map -/

section Maps

variable {β γ : Type*}

theorem lookup_nil (k : Text) : lookup ([] : List (Text × β)) k = none := rfl

theorem lookup_append (m n : List (Text × β)) (k : Text) :
    lookup (m ++ n) k = (lookup m k).or (lookup n k) := by
  rw [lookup, find?_append, lookup, lookup]
  cases m.find? (·.1 = k) <;> rfl

theorem lookup_map (m : List (Text × β)) (f : Text → β → γ) (k : Text) :
    lookup (m.map fun e => (e.1, f e.1 e.2)) k = (lookup m k).map (f k) := by
  induction m with
  | nil => rfl
  | cons e m ih =>
    rw [lookup, lookup, map_cons, find?_cons, find?_cons]
    by_cases he : e.1 = k
    · rw [decide_eq_true he]
      exact congrArg some (he ▸ rfl)
    · rw [decide_eq_false he]
      exact ih

theorem lookup_filter_ne (m : List (Text × β)) (node k : Text) :
    lookup (m.filter (·.1 ≠ node)) k = if k = node then none else lookup m k := by
  induction m with
  | nil =>
    rw [filter_nil, lookup_nil]
    split <;> rfl
  | cons e m ih =>
    by_cases hnode : e.1 = node
    · rw [filter_cons_of_neg (by simpa using hnode), ih]
      split
      · rfl
      next hk =>
        have hne : e.1 ≠ k := fun he => hk (he.symm.trans hnode)
        rw [lookup, lookup, find?_cons_of_neg (by simpa using hne)]
    · rw [filter_cons_of_pos (by simpa using hnode)]
      by_cases hk : e.1 = k
      · rw [lookup, find?_cons_of_pos (by simpa using hk), if_neg (hk ▸ hnode), lookup,
          find?_cons_of_pos (by simpa using hk)]
      · rw [lookup, find?_cons_of_neg (by simpa using hk), ← lookup, ih, lookup, lookup,
          find?_cons_of_neg (by simpa using hk)]

theorem lookup_eq_none {m : List (Text × β)} {k : Text} (h : ∀ e ∈ m, e.1 ≠ k) :
    lookup m k = none := by
  rw [lookup, find?_eq_none.mpr (by simpa using h)]
  rfl

theorem lookup_of_mem {m : List (Text × β)} (hn : (m.map (·.1)).Nodup) {k : Text} {b : β}
    (h : (k, b) ∈ m) : lookup m k = some b := by
  rw [lookup, show k = (k, b).1 from rfl, find?_key_eq hn h]
  rfl

end Maps

theorem capIn_filter_ne (m : ShareMap) (node k provider : Text) :
    capIn (m.filter (·.1 ≠ node)) k provider = if k = node then 0 else capIn m k provider := by
  rw [capIn, lookup_filter_ne, capIn]
  split <;> rfl

theorem capOf_shrunk (target : ShareMap) (holder provider : Text) (old : Caps) :
    capOf (BudgetHandoff.shrunk target holder old) provider =
      min (capIn target holder provider) (capOf old provider) := by
  rw [capOf, BudgetHandoff.shrunk, lookup_map old fun p cap =>
    if capIn target holder p < cap then capIn target holder p else cap, capOf]
  cases lookup old provider with
  | none => exact (Nat.min_zero _).symm
  | some cap =>
    change (if capIn target holder provider < cap then capIn target holder provider else cap) =
      min (capIn target holder provider) cap
    split <;> omega

/-! ### The shares of a target -/

/-- No name is configured twice. -/
def LeaderShared.DistinctNames (s : LeaderShared) : Prop := (s.servers.map (·.1)).Nodup

instance (s : LeaderShared) : Decidable s.DistinctNames :=
  inferInstanceAs (Decidable (List.Nodup _))

/-- Nobody gets more than there is. -/
def Fits (servers : List (Text × Nat)) (shares : ShareMap) : Prop :=
  ∀ e ∈ servers, ∀ nodes : Finset Text, ∑ n ∈ nodes, capIn shares n e.1 ≤ e.2

namespace LeaderShared

variable {s : LeaderShared} {r : LeaseReads}

/-- The nodes are the same at every look, and few enough to be counted. -/
structure Steady (s : LeaderShared) (r : LeaseReads) : Prop where
  same : ∀ node ∈ s.budgetNodes r.listed, s.budgetNodes (r.again node) = s.budgetNodes r.listed
  count : (s.budgetNodes r.listed).length < 2 ^ 16

instance (s : LeaderShared) (r : LeaseReads) : Decidable (s.Steady r) :=
  decidable_of_iff ((∀ node ∈ s.budgetNodes r.listed,
      s.budgetNodes (r.again node) = s.budgetNodes r.listed) ∧
    (s.budgetNodes r.listed).length < 2 ^ 16) ⟨fun h => ⟨h.1, h.2⟩, fun h => ⟨h.same, h.count⟩⟩

/-- The lease of `b` is gone while the share of `a` is reckoned, and there again: three
connections are given out of two. -/
example : (LeaderShared.mk (text "leader") [(text "news", 2)] [] .default).budgetTarget
    ⟨[(text "1", text "a"), (text "2", text "b")], fun node =>
      if node = text "a" then [(text "1", text "a")]
      else [(text "1", text "a"), (text "3", text "b")]⟩ =
    [(text "a", [(text "news", 2)]), (text "b", [(text "news", 1)])] := by decide +kernel

end LeaderShared

end Nzbd
