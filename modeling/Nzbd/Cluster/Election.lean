import Nzbd.Cluster.Fence

/-!
# The election and the snapshot

An elector asks the control store for the leader lease, and writes what it got
into `leader.json`.  A saver writes the queue to a temporary file, looks into its
view of the election and into `leader.json`, and renames the file into place.
Any node may stall between two of these steps.

The file is a projection: **an elector that has stalled writes it with an epoch
that is over** (`staleProjection`), and then its own saver trusts it.  The guard and
the rename are two steps, too.  The epochs of the renames go up as long as no elector
writes the file after the store has given the lease away, and no saver renames after
the file has changed under its guard (`renames_ordered`): then the fences of the lease
order what the file names.

`written` and `renames` are books: they record what happened and nothing reads
them.
-/

namespace Nzbd.Election

open List

open Interleave (Prog)
open Runs

structure LeaderRecord where
  epoch : Nat
  node : Text
  apiUrl : Text
  seq : Nat

structure LeaderView where
  record : Option LeaderRecord
  isMe : Bool

namespace LeaderView

def default : LeaderView := ⟨none, false⟩

def epoch (v : LeaderView) : Nat := (v.record.map (·.epoch)).getD 0

end LeaderView

structure ElectionCfg where
  apiUrl : Text
  eligible : Bool
  /-- In milliseconds. -/
  takeoverAfter : Int
  ownerIncarnation : Text

/-- Where the election loop of a node is. -/
inductive Elector
  | top (token : Option LeaseToken)
  | calling (call : Prog ControlDb Answer)
  | writing (record : LeaderRecord) (token : LeaseToken)
  | publishing (record : LeaderRecord) (token : LeaseToken)
  /-- Demoted, and about to read who is leading; where the store has told the fence,
  only a record of that epoch counts. -/
  | projecting (fence : Option Nat)
  | demoting (record : Option LeaderRecord)
  | releasing (call : Prog ControlDb Answer)

/-- Where the saving of a snapshot is.  `checking` has looked into the view, and
`renaming` has passed the guard. -/
inductive Saver
  | idle
  | prepared
  | checking (epoch : Nat)
  | renaming (epoch : Nat)
  deriving DecidableEq

structure Node where
  elector : Elector
  seq : Nat
  view : LeaderView
  saver : Saver

/-- The control store and the shared volume, and the nodes. -/
structure World where
  store : ControlDb
  leaderFile : Option LeaderRecord
  snapshotTmp : Option (List UInt8)
  snapshot : Option (List UInt8)
  nodes : Text → Node
  /-- The epochs that `leader.json` has named, the last one first. -/
  written : List Nat
  /-- The epochs under which a snapshot was renamed, and by whom. -/
  renames : List (Nat × Text)

inductive Act
  /-- Go round the loop, at this time. -/
  | call (node : Text) (now : Int)
  /-- The next statement of the call on the store. -/
  | statement (node : Text)
  | answered (node : Text)
  /-- The answer is lost. -/
  | lost (node : Text)
  | write (node : Text) (ok : Bool)
  | project (node : Text) (readable : Bool)
  | publish (node : Text)
  | cancel (node : Text) (now : Int)
  | prepare (node : Text) (bytes : List UInt8)
  | look (node : Text)
  | check (node : Text) (readable : Bool)
  | rename (node : Text)

def leaderResource : Text := text "cluster/leader"

namespace World

variable (w : World) (n : Text)

def setNode (x : Node) : World := { w with nodes := Function.update w.nodes n x }

def setElector (e : Elector) : World := w.setNode n { w.nodes n with elector := e }

def setSaver (s : Saver) : World := w.setNode n { w.nodes n with saver := s }

end World

section Steps

variable (cfg : Text → ElectionCfg)

def leaderClaim (n : Text) : Claim where
  resource := leaderResource
  jobId := 1
  jobIncarnation := text "cluster-leader"
  ownerNodeId := n
  ownerIncarnation := (cfg n).ownerIncarnation
  kind := text "leader"
  scopeJson := text "{}"
  jobRevision := 1

def leaderRecord (n : Text) (epoch seq : Nat) : LeaderRecord := ⟨epoch, n, (cfg n).apiUrl, seq⟩

/-- At the top of the loop: renew the lease, or claim it. -/
def call (w : World) (n : Text) (now : Int) : World :=
  match (w.nodes n).elector with
  | .top (some token) =>
    w.setElector n (.calling (ControlStore.renew token now (cfg n).takeoverAfter))
  | .top none =>
    if (cfg n).eligible then
      w.setElector n (.calling (ControlStore.acquire (leaderClaim cfg n) now (cfg n).takeoverAfter))
    else w
  | _ => w

def statement (w : World) (n : Text) : World :=
  match (w.nodes n).elector with
  | .calling (.stmt write next) =>
    { w.setElector n (.calling (next w.store)) with store := write w.store }
  | .releasing (.stmt write next) =>
    { w.setElector n (.releasing (next w.store)) with store := write w.store }
  | _ => w

/-- Take a lease that the store has given, or renewed. -/
def hold (w : World) (n : Text) (token : LeaseToken) (seq : Nat) : World :=
  w.setNode n { w.nodes n with
    elector := .writing (leaderRecord cfg n token.fence seq) token, seq := seq }

def answered (w : World) (n : Text) : World :=
  match (w.nodes n).elector with
  | .calling p =>
    match p.answer with
    | some (.renewed (some token)) =>
      hold cfg w n token (min ((w.nodes n).seq + 1) (2 ^ 64 - 1))
    | some (.renewed none) => w.setElector n (.projecting none)
    | some (.acquired token) => hold cfg w n token 1
    | some (.held _ fence _) => w.setElector n (.projecting (some fence))
    | some (.error _) => w.setElector n (.projecting none)
    | _ => w
  | _ => w

def lost (w : World) (n : Text) : World :=
  match (w.nodes n).elector with
  | .calling _ => w.setElector n (.projecting none)
  | _ => w

/-- Write `leader.json`.  A failure is logged and no more. -/
def write (w : World) (n : Text) (ok : Bool) : World :=
  match (w.nodes n).elector with
  | .writing record token =>
    let w' := w.setElector n (.publishing record token)
    if ok then { w' with leaderFile := some record, written := record.epoch :: w.written } else w'
  | _ => w

def projectedLeader (file : Option LeaderRecord) (fence : Option Nat) : Option LeaderRecord :=
  file.filter fun r => fence.all (· = r.epoch)

def project (w : World) (n : Text) (readable : Bool) : World :=
  match (w.nodes n).elector with
  | .projecting fence =>
    w.setElector n
      (.demoting (projectedLeader (if readable then w.leaderFile else none) fence))
  | _ => w

def publish (w : World) (n : Text) : World :=
  match (w.nodes n).elector with
  | .publishing record token =>
    w.setNode n { w.nodes n with elector := .top (some token), view := ⟨some record, true⟩ }
  | .demoting record =>
    w.setNode n { w.nodes n with elector := .top none, view := ⟨record, false⟩ }
  | _ => w

/-- Leave the loop, and give the lease back. -/
def cancel (w : World) (n : Text) (now : Int) : World :=
  match (w.nodes n).elector with
  | .top (some token) => w.setElector n (.releasing (ControlStore.release token now))
  | _ => w

/-- Write the snapshot to the temporary file. -/
def prepare (w : World) (n : Text) (bytes : List UInt8) : World :=
  match (w.nodes n).saver with
  | .idle => { w.setSaver n .prepared with snapshotTmp := some bytes }
  | _ => w

/-- The first half of the guard: the view of the election. -/
def look (w : World) (n : Text) : World :=
  match (w.nodes n).saver with
  | .prepared =>
    let v := (w.nodes n).view
    w.setSaver n (if v.isMe then .checking v.epoch else .idle)
  | _ => w

/-- The second half of the guard: `leader.json`. -/
def check (w : World) (n : Text) (readable : Bool) : World :=
  match (w.nodes n).saver with
  | .checking epoch =>
    let file := if readable then w.leaderFile else none
    w.setSaver n (if file.any fun r => r.node = n && r.epoch = epoch then .renaming epoch else .idle)
  | _ => w

/-- The rename; it fails if there is no temporary file any more. -/
def rename (w : World) (n : Text) : World :=
  match (w.nodes n).saver with
  | .renaming epoch =>
    match w.snapshotTmp with
    | some bytes => { w.setSaver n .idle with
        snapshotTmp := none, snapshot := some bytes, renames := (epoch, n) :: w.renames }
    | none => w.setSaver n .idle
  | _ => w

def World.after (w : World) : Act → World
  | .call n now => call cfg w n now
  | .statement n => statement w n
  | .answered n => answered cfg w n
  | .lost n => lost w n
  | .write n ok => write w n ok
  | .project n readable => project w n readable
  | .publish n => publish w n
  | .cancel n now => cancel w n now
  | .prepare n bytes => prepare w n bytes
  | .look n => look w n
  | .check n readable => check w n readable
  | .rename n => rename w n

end Steps

/-- A new cluster: nothing was claimed, and no node has begun. -/
structure Start (w : World) : Prop where
  store : ControlStore.Fresh w.store
  leaderFile : w.leaderFile = none
  nodes : ∀ n, w.nodes n = ⟨.top none, 0, .default, .idle⟩
  written : w.written = []
  renames : w.renames = []

/-- A run whose steps all meet a condition. -/
def Reached (cfg : Text → ElectionCfg) (ok : World → Act → Prop) : World → Prop :=
  Run Start (fun w a t => t = w.after cfg a) ok

/-- What is about to be written into `leader.json`. -/
def Elector.writes : Elector → Option LeaderRecord
  | .writing record _ => some record
  | _ => none

/-- The epoch with which the guard has been passed. -/
def Saver.passed : Saver → Option Nat
  | .renaming epoch => some epoch
  | _ => none

/-- `leader.json` is written while the lease is the last one that the store has given, and a
snapshot is renamed while the file names the epoch that the guard has found in it. -/
def Prompt (w : World) : Act → Prop
  | .write n ok => ok = true → ∀ record ∈ (w.nodes n).elector.writes,
      ∀ l ∈ w.store.leases leaderResource, record.epoch = l.fence
  | .rename n => ∀ epoch ∈ (w.nodes n).saver.passed, w.leaderFile.map (·.epoch) = some epoch
  | _ => True

instance (w : World) : (a : Act) → Decidable (Prompt w a)
  | .write n ok => inferInstanceAs (Decidable (ok = true → ∀ record ∈ (w.nodes n).elector.writes,
      ∀ l ∈ w.store.leases leaderResource, record.epoch = l.fence))
  | .rename n => inferInstanceAs (Decidable (∀ epoch ∈ (w.nodes n).saver.passed,
      w.leaderFile.map (·.epoch) = some epoch))
  | .call .. | .statement _ | .answered _ | .lost _ | .project .. | .publish _ | .cancel ..
  | .prepare .. | .look _ | .check .. => .isTrue trivial

/-! ### Whose fence it is -/

structure Owned (db : ControlDb) : Prop where
  tokens : ∀ t ∈ db.issued, ∀ u ∈ db.issued, t.resource = u.resource → t.fence = u.fence →
    t.ownerNodeId = u.ownerNodeId
  row : ∀ t ∈ db.issued, ∀ l, db.leases t.resource = some l → t.fence = l.fence →
    t.ownerNodeId = l.ownerNodeId

variable {db u : ControlDb}

theorem Owned.of_fresh (h : ControlStore.Fresh db) : Owned db where
  tokens := by simp [h.issued]
  row := by simp [h.issued]

theorem Owned.issue (h : Owned db) (hinv : LeaseInv db) {l : LeaseRow}
    (hl : ∀ k, db.leases l.resource = some k → k.fence ≤ l.fence ∧
      (k.fence = l.fence → k.ownerNodeId = l.ownerNodeId)) : Owned (db.issue l) := by
  -- an older token with this fence has the fence of the row
  have hold : ∀ t ∈ db.issued, t.resource = l.resource → t.fence = l.fence →
      t.ownerNodeId = l.ownerNodeId := by
    intro t ht hres hfence
    obtain ⟨k, hk, hle, -⟩ := hinv.known t ht
    obtain ⟨hkl, howner⟩ := hl k (hres ▸ hk)
    exact (h.row t ht k hk (by omega)).trans (howner (by omega))
  constructor
  · intro t ht u hu hres hfence
    rcases mem_cons.mp ht with rfl | ht <;> rcases mem_cons.mp hu with rfl | hu
    · rfl
    · exact (hold u hu hres.symm hfence.symm).symm
    · exact hold t ht hres hfence
    · exact h.tokens t ht u hu hres hfence
  · intro t ht k hk hfence
    change (db.setLease l).leases t.resource = some k at hk
    rw [setLease_leases] at hk
    rcases mem_cons.mp ht with rfl | ht
    · rw [if_pos (show l.token.resource = l.resource from rfl)] at hk
      obtain rfl := Option.some.inj hk
      rfl
    · split at hk
      next hres =>
        obtain rfl := Option.some.inj hk
        exact hold t ht hres hfence
      next => exact h.row t ht k hk hfence

theorem Owned.upsertLease {c : Claim} {now expiry : Int} {t : Option LeaseToken} (h : Owned db)
    (hinv : LeaseInv db) (hu : db.upsertLease c now expiry = .ok (u, t)) : Owned u := by
  rcases ControlDb.upsertLease_ok hu with ⟨hnone, -, rfl, -⟩ | ⟨l, hl, -, rfl, -⟩ | ⟨-, rfl, -⟩
  · refine h.issue hinv fun k hk => ?_
    rw [show (ControlDb.claimed c expiry 1 1).resource = c.resource from rfl, hnone] at hk
    nomatch hk
  · refine h.issue hinv fun k hk => ?_
    obtain rfl : l = k := Option.some.inj (hl.symm.trans hk)
    exact ⟨Nat.le_succ _, fun he => absurd he (Nat.ne_of_lt (Nat.lt_succ_self _))⟩
  · exact h

theorem Owned.renewLease {t : LeaseToken} {now expiry : Int} {t' : Option LeaseToken}
    (h : Owned db) (hinv : LeaseInv db) (hu : db.renewLease t now expiry = .ok (u, t')) :
    Owned u := by
  rcases ControlDb.renewLease_ok hu with ⟨-, rfl, -⟩ | ⟨l, hl, -, rfl⟩
  · exact h
  · have hrow := (leases_of_holds (ControlDb.holdsAt_eq hl).1).1
    refine h.issue hinv fun k hk => ?_
    obtain rfl : l = k := Option.some.inj (hrow.symm.trans hk)
    exact ⟨Nat.le_refl _, fun _ => rfl⟩

theorem Owned.releaseLease {t : LeaseToken} {now : Int} {b : Bool} (h : Owned db)
    (hu : db.releaseLease t now = .ok (u, b)) : Owned u := by
  rcases ControlDb.releaseLease_ok hu with ⟨-, rfl, -⟩ | ⟨l, hl, -, rfl⟩
  · exact h
  · have hrow := (leases_of_holds hl).1
    refine ⟨h.tokens, fun x hx k hk hfence => ?_⟩
    rw [setLease_leases] at hk
    split at hk
    next hres =>
      obtain rfl := Option.some.inj hk
      exact h.row x hx l (hres ▸ hrow) hfence
    next => exact h.row x hx k hk hfence

/-! ### What a call answers -/

structure StoreInv (db : ControlDb) : Prop where
  lease : LeaseInv db
  owned : Owned db

/-- Every token that was given out stays given out. -/
def Keeps (db u : ControlDb) : Prop := ∀ t ∈ db.issued, t ∈ u.issued

theorem Keeps.refl (db : ControlDb) : Keeps db db := fun _ ht => ht

theorem Keeps.trans (db u v : ControlDb) (h : Keeps db u) (g : Keeps u v) : Keeps db v :=
  fun t ht => g t (h t ht)

/-- The leader lease was given to the node. -/
structure Held (db : ControlDb) (n : Text) (t : LeaseToken) : Prop where
  issued : t ∈ db.issued
  resource : t.resource = leaderResource
  owner : t.ownerNodeId = n

/-- The node has led in this epoch. -/
def Office (db : ControlDb) (n : Text) (epoch : Nat) : Prop := ∃ t, Held db n t ∧ t.fence = epoch

variable {n : Text}

theorem Held.mono {t : LeaseToken} (h : Held db n t) (hu : Keeps db u) : Held u n t :=
  ⟨hu _ h.issued, h.resource, h.owner⟩

theorem Office.mono {epoch : Nat} (h : Office db n epoch) (hu : Keeps db u) :
    Office u n epoch := by
  obtain ⟨t, ht, he⟩ := h
  exact ⟨t, ht.mono hu, he⟩

/-- The lease in an answer is one that was given to the node. -/
def Sound (n : Text) (db : ControlDb) (a : Answer) : Prop :=
  ∀ t, a = .acquired t ∨ a = .renewed (some t) → Held db n t

theorem Sound.mono (db u : ControlDb) (a : Answer) (hu : Keeps db u)
    (h : Sound n db a) : Sound n u a := fun t ht => (h t ht).mono hu

theorem keeps_issue (db : ControlDb) (l : LeaseRow) : Keeps db (db.issue l) :=
  fun _ ht => mem_cons_of_mem _ ht

/-- A call that goes on to do what it should. -/
def CallInv (Q : ControlDb → Answer → Prop) (p : Prog ControlDb Answer) (db : ControlDb) : Prop :=
  p.Leads StoreInv Keeps Q db

theorem CallInv.orFail {β : Type} {Q : ControlDb → Answer → Prop} {x : Except Text β}
    {next : β → Prog ControlDb Answer} (hQ : ∀ e, Q db (.error e))
    (h : ∀ b, x = .ok b → CallInv Q (next b) db) : CallInv Q (ControlStore.orFail x next) db := by
  cases x with
  | error e => exact hQ e
  | ok b => exact h b rfl

theorem sound_error (n : Text) (db : ControlDb) (e : Text) : Sound n db (.error e) := by
  rintro t (h | h) <;> nomatch h

theorem callInv_acquire {c : Claim} {now ttl : Int} (hc : c.resource = leaderResource) :
    CallInv (Sound c.ownerNodeId) (ControlStore.acquire c now ttl) db := by
  have herr := sound_error c.ownerNodeId
  refine .orFail (herr _) fun _ _ => .orFail (herr _) fun now _ => .orFail (herr _) fun expiry _ =>
    .orFail (herr _) fun _ _ => .orFail (herr _) fun _ _ => ?_
  refine Prog.leads_transact Keeps.refl ?_ fun v e hv => herr v e
  intro v u t hv hu
  refine ⟨⟨hv.lease.upsertLease hu, hv.owned.upsertLease hv.lease hu⟩, ?_⟩
  rcases ControlDb.upsertLease_ok hu with ⟨-, rfl, rfl, -⟩ | ⟨l, -, rfl, rfl, -⟩ | ⟨-, rfl, rfl⟩
  · refine ⟨keeps_issue _ _, ?_⟩
    rintro t (ht | ht)
    · obtain rfl := Answer.acquired.inj ht
      exact ⟨mem_cons_self, hc, rfl⟩
    · nomatch ht
  · refine ⟨keeps_issue _ _, ?_⟩
    rintro t (ht | ht)
    · obtain rfl := Answer.acquired.inj ht
      exact ⟨mem_cons_self, hc, rfl⟩
    · nomatch ht
  · refine ⟨Keeps.refl _, fun x hx hI => ⟨hI, Keeps.refl _, ?_⟩⟩
    dsimp only
    cases ControlStore.currentLease c.resource x with
    | none => exact herr x _
    | some held => rintro t (ht | ht) <;> nomatch ht

theorem callInv_renew {t : LeaseToken} {now ttl : Int}
    (ht : t.resource = leaderResource ∧ t.ownerNodeId = n) :
    CallInv (Sound n) (ControlStore.renew t now ttl) db := by
  have herr := sound_error n
  refine .orFail (herr _) fun _ _ => .orFail (herr _) fun now _ => .orFail (herr _) fun expiry _ =>
    .orFail (herr _) fun _ _ => ?_
  refine Prog.leads_transact Keeps.refl ?_ fun v e hv => herr v e
  intro v u t' hv hu
  refine ⟨⟨hv.lease.renewLease hu, hv.owned.renewLease hv.lease hu⟩, ?_⟩
  rcases ControlDb.renewLease_ok hu with ⟨-, rfl, rfl⟩ | ⟨l, hl, rfl, rfl⟩
  · refine ⟨Keeps.refl _, ?_⟩
    rintro t (ht | ht) <;> nomatch ht
  · refine ⟨keeps_issue _ _, ?_⟩
    rintro x (hx | hx)
    · nomatch hx
    · obtain rfl := Option.some.inj (Answer.renewed.inj hx)
      have htok := (leases_of_holds (ControlDb.holdsAt_eq hl).1).2.1
      rw [← htok] at ht
      exact ⟨mem_cons_self, ht.1, ht.2⟩

theorem callInv_release {t : LeaseToken} {now : Int} :
    CallInv (fun _ _ => True) (ControlStore.release t now) db := by
  refine .orFail (fun _ => trivial) fun now _ => .orFail (fun _ => trivial) fun _ _ => ?_
  refine Prog.leads_transact Keeps.refl ?_ fun _ _ _ => trivial
  intro v u b hv hu
  refine ⟨⟨hv.lease.releaseLease hu, hv.owned.releaseLease hu⟩, ?_, trivial⟩
  rcases ControlDb.releaseLease_ok hu with ⟨-, rfl, -⟩ | ⟨l, -, -, rfl⟩
  · exact Keeps.refl _
  · exact Keeps.refl _

/-! ### The invariant -/

def ElectorInv (db : ControlDb) (n : Text) : Elector → Prop
  | .top (some t) => Held db n t
  | .calling p => CallInv (Sound n) p db
  | .writing r t | .publishing r t => Held db n t ∧ r.node = n ∧ r.epoch = t.fence
  | .releasing p => CallInv (fun _ _ => True) p db
  | .top none | .projecting _ | .demoting _ => True

def SaverInv (db : ControlDb) (written : List Nat) (n : Text) : Saver → Prop
  | .idle | .prepared => True
  | .checking epoch => Office db n epoch
  | .renaming epoch => Office db n epoch ∧ epoch ∈ written

structure NodeInv (db : ControlDb) (written : List Nat) (n : Text) (x : Node) : Prop where
  elector : ElectorInv db n x.elector
  view : x.view.isMe = true → Office db n x.view.epoch
  saver : SaverInv db written n x.saver

/-- What holds in every run. -/
structure Inv (w : World) : Prop where
  store : StoreInv w.store
  nodes : ∀ n, NodeInv w.store w.written n (w.nodes n)
  leaderFile : ∀ r, w.leaderFile = some r → r.epoch ∈ w.written
  written : ∀ e ∈ w.written, ∃ n, Office w.store n e
  renames : ∀ x ∈ w.renames, x.1 ∈ w.written ∧ Office w.store x.2 x.1

theorem ElectorInv.mono {e : Elector} (h : ElectorInv db n e) (hu : Keeps db u) :
    ElectorInv u n e := by
  match e, h with
  | .top (some t), h => exact Held.mono h hu
  | .calling p, h => exact Prog.Leads.mono Keeps.trans Sound.mono h hu
  | .writing r t, h => exact ⟨h.1.mono hu, h.2⟩
  | .publishing r t, h => exact ⟨h.1.mono hu, h.2⟩
  | .releasing p, h => exact Prog.Leads.mono Keeps.trans (fun _ _ _ _ _ => trivial) h hu
  | .top none, _ => trivial
  | .projecting _, _ => trivial
  | .demoting _, _ => trivial

theorem SaverInv.mono {written written' : List Nat} {s : Saver}
    (h : SaverInv db written n s) (hu : Keeps db u) (hsub : written ⊆ written') :
    SaverInv u written' n s := by
  match s, h with
  | .idle, _ => trivial
  | .prepared, _ => trivial
  | .checking epoch, h => exact Office.mono h hu
  | .renaming epoch, h => exact ⟨h.1.mono hu, hsub h.2⟩

theorem NodeInv.mono {written written' : List Nat} {x : Node}
    (h : NodeInv db written n x) (hu : Keeps db u) (hsub : written ⊆ written') :
    NodeInv u written' n x :=
  ⟨h.elector.mono hu, fun hme => (h.view hme).mono hu, h.saver.mono hu hsub⟩

variable {w : World} {n : Text}

theorem Inv.setNode (h : Inv w) {x : Node} (hx : NodeInv w.store w.written n x) :
    Inv (w.setNode n x) where
  store := h.store
  nodes := by
    intro m
    change NodeInv w.store w.written m (Function.update w.nodes n x m)
    by_cases hm : m = n
    · subst hm
      rw [Function.update_self]
      exact hx
    · rw [Function.update_of_ne hm]
      exact h.nodes m
  leaderFile := h.leaderFile
  written := h.written
  renames := h.renames

theorem Inv.setElector (h : Inv w) {e : Elector} (he : ElectorInv w.store n e) :
    Inv (w.setElector n e) :=
  h.setNode ⟨he, (h.nodes n).view, (h.nodes n).saver⟩

theorem Inv.setSaver (h : Inv w) {s : Saver} (hs : SaverInv w.store w.written n s) :
    Inv (w.setSaver n s) :=
  h.setNode ⟨(h.nodes n).elector, (h.nodes n).view, hs⟩

theorem Inv.setStore (h : Inv w) {db : ControlDb} (hdb : StoreInv db) (hu : Keeps w.store db) :
    Inv { w with store := db } where
  store := hdb
  nodes := fun n => (h.nodes n).mono hu (List.Subset.refl _)
  leaderFile := h.leaderFile
  written := fun e he => (h.written e he).imp fun _ hn => hn.mono hu
  renames := fun x hx => ⟨(h.renames x hx).1, (h.renames x hx).2.mono hu⟩

theorem Inv.elector (h : Inv w) {e : Elector} (he : (w.nodes n).elector = e) :
    ElectorInv w.store n e := he ▸ (h.nodes n).elector

theorem Inv.saver (h : Inv w) {s : Saver} (hs : (w.nodes n).saver = s) :
    SaverInv w.store w.written n s := hs ▸ (h.nodes n).saver

/-! ### One lemma a step -/

variable {cfg : Text → ElectionCfg}

theorem Inv.call (h : Inv w) (now : Int) : Inv (call cfg w n now) := by
  rw [Election.call]
  split
  next token htop =>
    have hheld := h.elector htop
    exact h.setElector (callInv_renew ⟨hheld.resource, hheld.owner⟩)
  next =>
    split
    · exact h.setElector (e := .calling _) (callInv_acquire (c := leaderClaim cfg n) rfl)
    · exact h
  next => exact h

theorem Inv.statement (h : Inv w) : Inv (statement w n) := by
  rw [Election.statement]
  split
  next write next hcall =>
    obtain ⟨hdb, hu, hnext⟩ := h.elector hcall w.store (Keeps.refl _) h.store
    exact (h.setStore hdb hu).setElector hnext
  next write next hcall =>
    obtain ⟨hdb, hu, hnext⟩ := h.elector hcall w.store (Keeps.refl _) h.store
    exact (h.setStore hdb hu).setElector hnext
  next => exact h

theorem Inv.hold (h : Inv w) {token : LeaseToken} {seq : Nat} (ht : Held w.store n token) :
    Inv (hold cfg w n token seq) :=
  h.setNode ⟨⟨ht, rfl, rfl⟩, (h.nodes n).view, (h.nodes n).saver⟩

theorem Inv.answered (h : Inv w) : Inv (answered cfg w n) := by
  rw [Election.answered]
  split
  next p hcall =>
    have hsound : ∀ a, p.answer = some a → Sound n w.store a := by
      intro a ha
      have hp := h.elector hcall
      rw [Prog.eq_ret_of_answer ha] at hp
      exact hp
    split
    next token ha => exact h.hold (hsound _ ha token (.inr rfl))
    next => exact h.setElector trivial
    next token ha => exact h.hold (hsound _ ha token (.inl rfl))
    next => exact h.setElector trivial
    next => exact h.setElector trivial
    next => exact h
  next => exact h

theorem Inv.lost (h : Inv w) : Inv (lost w n) := by
  rw [Election.lost]
  split
  · exact h.setElector trivial
  · exact h

theorem Inv.write (h : Inv w) (ok : Bool) : Inv (write w n ok) := by
  rw [Election.write]
  split
  next record token hwriting =>
    obtain ⟨hheld, hnode, hepoch⟩ := h.elector hwriting
    have h' : Inv (w.setElector n (.publishing record token)) :=
      h.setElector ⟨hheld, hnode, hepoch⟩
    dsimp only
    split
    · have hsub : w.written ⊆ record.epoch :: w.written := subset_cons_self _ _
      refine ⟨h'.store, fun m => (h'.nodes m).mono (Keeps.refl _) hsub, ?_, ?_, ?_⟩
      · intro r hr
        obtain rfl := Option.some.inj hr
        exact mem_cons_self
      · intro e he
        rcases mem_cons.mp he with rfl | he
        · exact ⟨n, token, hheld, hepoch.symm⟩
        · exact h.written e he
      · exact fun x hx => ⟨hsub (h.renames x hx).1, (h.renames x hx).2⟩
    · exact h'
  next => exact h

theorem Inv.project (h : Inv w) (readable : Bool) : Inv (project w n readable) := by
  rw [Election.project]
  split
  · exact h.setElector trivial
  · exact h

theorem Inv.publish (h : Inv w) : Inv (publish w n) := by
  rw [Election.publish]
  split
  next record token hpub =>
    obtain ⟨hheld, -, hepoch⟩ := h.elector hpub
    exact h.setNode ⟨hheld, fun _ => ⟨token, hheld, hepoch.symm⟩, (h.nodes n).saver⟩
  next => exact h.setNode ⟨trivial, nofun, (h.nodes n).saver⟩
  next => exact h

theorem Inv.cancel (h : Inv w) (now : Int) : Inv (cancel w n now) := by
  rw [Election.cancel]
  split
  · exact h.setElector callInv_release
  · exact h

theorem Inv.prepare (h : Inv w) (bytes : List UInt8) : Inv (prepare w n bytes) := by
  rw [Election.prepare]
  split
  · have h' : Inv (w.setSaver n .prepared) := h.setSaver trivial
    exact { h' with }
  · exact h

theorem Inv.look (h : Inv w) : Inv (look w n) := by
  rw [Election.look]
  split
  · dsimp only
    split
    next hme => exact h.setSaver ((h.nodes n).view hme)
    next => exact h.setSaver trivial
  · exact h

theorem Inv.check (h : Inv w) (readable : Bool) : Inv (check w n readable) := by
  rw [Election.check]
  split
  next epoch hchecking =>
    dsimp only
    generalize hfile : (if readable then w.leaderFile else none) = file
    split
    next hany =>
      obtain ⟨r, hr, hmatch⟩ := (Option.any_eq_true _ _).mp hany
      simp only [Bool.and_eq_true, decide_eq_true_eq] at hmatch
      have hleader : w.leaderFile = some r := by
        rw [hr] at hfile
        split at hfile
        · exact hfile
        · nomatch hfile
      exact h.setSaver ⟨h.saver hchecking, hmatch.2 ▸ h.leaderFile r hleader⟩
    next => exact h.setSaver trivial
  next => exact h

theorem Inv.rename (h : Inv w) : Inv (rename w n) := by
  rw [Election.rename]
  split
  next epoch hrenaming =>
    obtain ⟨hoffice, hwritten⟩ := h.saver hrenaming
    have h' : Inv (w.setSaver n .idle) := h.setSaver trivial
    split
    · refine ⟨h'.store, h'.nodes, h'.leaderFile, h'.written, fun x hx => ?_⟩
      rcases mem_cons.mp hx with rfl | hx
      · exact ⟨hwritten, hoffice⟩
      · exact h.renames x hx
    · exact h'
  next => exact h

theorem Inv.of_start (h : Start w) : Inv w where
  store := ⟨.of_fresh h.store, .of_fresh h.store⟩
  nodes := by
    intro n
    rw [h.nodes n]
    exact ⟨trivial, nofun, trivial⟩
  leaderFile := by simp [h.leaderFile]
  written := by simp [h.written]
  renames := by simp [h.renames]

theorem Inv.after (h : Inv w) (a : Act) : Inv (w.after cfg a) := by
  cases a with
  | call n now => exact h.call now
  | statement n => exact h.statement
  | answered n => exact h.answered
  | lost n => exact h.lost
  | write n ok => exact h.write ok
  | project n readable => exact h.project readable
  | publish n => exact h.publish
  | cancel n now => exact h.cancel now
  | prepare n bytes => exact h.prepare bytes
  | look n => exact h.look
  | check n readable => exact h.check readable
  | rename n => exact h.rename

/-! ### The renames -/

theorem renames_after (w : World) (a : Act) :
    (w.after cfg a).renames = w.renames ∨ ∃ n epoch, a = .rename n ∧
      (w.nodes n).saver = .renaming epoch ∧ (w.after cfg a).renames = (epoch, n) :: w.renames := by
  cases a
  case rename n =>
    rw [World.after, rename]
    split
    next epoch hrenaming =>
      split
      · exact .inr ⟨n, epoch, rfl, hrenaming, rfl⟩
      · exact .inl rfl
    · exact .inl rfl
  all_goals
    left
    simp only [World.after, call, statement, answered, hold, lost, write, project, publish, cancel,
      prepare, look, check]
    repeat' split
    all_goals rfl

theorem written_after (w : World) (a : Act) :
    ((w.after cfg a).written = w.written ∧ (w.after cfg a).leaderFile = w.leaderFile) ∨
      ∃ n record token, a = .write n true ∧ (w.nodes n).elector = .writing record token ∧
        (w.after cfg a).written = record.epoch :: w.written ∧
          (w.after cfg a).leaderFile = some record := by
  cases a
  case write n ok =>
    rw [World.after, write]
    split
    next record token hwriting =>
      cases ok
      · exact .inl ⟨rfl, rfl⟩
      · exact .inr ⟨n, record, token, rfl, hwriting, rfl, rfl⟩
    · exact .inl ⟨rfl, rfl⟩
  all_goals
    left
    simp only [World.after, call, statement, answered, hold, lost, project, publish, cancel,
      prepare, look, check, rename]
    repeat' split
    all_goals exact ⟨rfl, rfl⟩

/-- What is written has had the lease, and the fences go up. -/
theorem Inv.written_le (h : Inv w) {l : LeaseRow} (hl : w.store.leases leaderResource = some l)
    {e : Nat} (he : e ∈ w.written) : e ≤ l.fence := by
  obtain ⟨n, t, ht, rfl⟩ := h.written e he
  obtain ⟨k, hk, hle, -⟩ := h.store.lease.known t ht.issued
  rw [ht.resource, hl] at hk
  obtain rfl := Option.some.inj hk
  exact hle

/-- `leader.json` names the latest epoch that it has named. -/
def Newest (w : World) : Prop := ∀ e ∈ w.written, ∃ r, w.leaderFile = some r ∧ e ≤ r.epoch

theorem Newest.after (hn : Newest w) (h : Inv w) {a : Act} (hok : Prompt w a) :
    Newest (w.after cfg a) := by
  rcases @written_after cfg w a with ⟨hwritten, hfile⟩ | ⟨n, record, token, rfl, hwriting, hwritten,
    hfile⟩
  · rw [Newest, hwritten, hfile]
    exact hn
  · obtain ⟨hheld, -, -⟩ := h.elector hwriting
    obtain ⟨l, hl, -⟩ := h.store.lease.known token hheld.issued
    rw [hheld.resource] at hl
    have hlast : record.epoch = l.fence := hok rfl record (by rw [hwriting]; rfl) l hl
    rw [Newest, hwritten, hfile]
    intro e he
    refine ⟨record, rfl, ?_⟩
    rcases mem_cons.mp he with rfl | he
    · exact Nat.le_refl _
    · exact hlast ▸ h.written_le hl he

/-- The epochs have gone up. -/
def Ordered (w : World) : Prop := w.renames.Pairwise fun new old => old.1 ≤ new.1

theorem Ordered.after (ho : Ordered w) (h : Inv w) (hn : Newest w) {a : Act} (hok : Prompt w a) :
    Ordered (w.after cfg a) := by
  rw [Ordered]
  rcases @renames_after cfg w a with heq | ⟨n, epoch, rfl, hrenaming, heq⟩
  · rw [heq]
    exact ho
  · rw [heq]
    refine pairwise_cons.mpr ⟨fun x hx => ?_, ho⟩
    have hnamed : w.leaderFile.map (·.epoch) = some epoch := hok epoch (by rw [hrenaming]; rfl)
    obtain ⟨r, hr, hle⟩ := hn x.1 (h.renames x hx).1
    rw [hr] at hnamed
    exact Option.some.inj hnamed ▸ hle

theorem inv_ordered (h : Reached cfg Prompt w) : Inv w ∧ Newest w ∧ Ordered w := by
  refine Run.invariant (P := fun w => Inv w ∧ Newest w ∧ Ordered w) ?_ ?_ h
  · intro w hw
    refine ⟨.of_start hw, ?_, ?_⟩
    · rw [Newest, hw.written]
      exact nofun
    · rw [Ordered, hw.renames]
      exact List.Pairwise.nil
  · rintro w a - ⟨hinv, hn, ho⟩ ha rfl
    exact ⟨hinv.after a, hn.after hinv ha, ho.after hinv hn ha⟩

theorem Inv.same_node (h : Inv w) {x y : Nat × Text} (hx : x ∈ w.renames) (hy : y ∈ w.renames)
    (he : x.1 = y.1) : x.2 = y.2 := by
  obtain ⟨t, ht, hte⟩ := (h.renames x hx).2
  obtain ⟨u, hu, hue⟩ := (h.renames y hy).2
  rw [← ht.owner, ← hu.owner]
  refine h.store.owned.tokens t ht.issued u hu.issued (ht.resource.trans hu.resource.symm) ?_
  rw [hte, hue, he]

/-- **No leader renames its snapshot after its successor**, as long as `leader.json` is written
under the last lease and does not change between a guard and its rename. -/
theorem renames_ordered (h : Reached cfg Prompt w) :
    w.renames.Pairwise fun new old => old.1 ≤ new.1 ∧ (old.1 = new.1 → old.2 = new.2) := by
  obtain ⟨hinv, -, ho⟩ := inv_ordered h
  refine ho.imp_of_mem fun {new old} hnew hold hle => ⟨hle, fun he => ?_⟩
  exact hinv.same_node hold hnew he

/-! ### Two nodes -/

def twoNodes : Text → ElectionCfg := fun _ => ⟨[], true, 1000, text "x"⟩

def newCluster : World where
  store := storeOfOne
  leaderFile := none
  snapshotTmp := none
  snapshot := none
  nodes := fun _ => ⟨.top none, 0, .default, .idle⟩
  written := []
  renames := []

theorem start_newCluster : Start newCluster :=
  ⟨fresh_storeOfOne, rfl, fun _ => rfl, rfl, rfl⟩

def claim (n : Text) (now : Int) : List Act := [.call n now, .statement n, .answered n]

def proclaim (n : Text) : List Act := [.write n true, .publish n]

def guard (n : Text) (bytes : List UInt8) : List Act := [.prepare n bytes, .look n, .check n true]

def World.run (w : World) (acts : List Act) : World := acts.foldl (World.after twoNodes) w

/-- `a` leads and saves, and then `b` does. -/
def handover : List Act :=
  claim (text "a") 0 ++ proclaim (text "a") ++ guard (text "a") [1] ++ [.rename (text "a")] ++
    (claim (text "b") 2000 ++ proclaim (text "b") ++ guard (text "b") [2] ++ [.rename (text "b")])

theorem renames_ordered_handover :
    (newCluster.run handover).renames = [(2, text "b"), (1, text "a")] ∧
      (newCluster.run handover).renames.Pairwise fun new old =>
        old.1 ≤ new.1 ∧ (old.1 = new.1 → old.2 = new.2) :=
  ⟨by decide +kernel,
    @renames_ordered _ twoNodes (Run.foldl (.start start_newCluster) (by decide +kernel))⟩

/-- `a` is given the lease and stalls; `b` takes over and saves; `a` goes on. -/
def staleProjection : World :=
  newCluster.run (claim (text "a") 0 ++ claim (text "b") 2000 ++ proclaim (text "b") ++
    guard (text "b") [2] ++ [.rename (text "b")] ++ proclaim (text "a") ++
    guard (text "a") [1] ++ [.rename (text "a")])

theorem staleProjection_regresses :
    Reached twoNodes (fun _ _ => True) staleProjection ∧
      staleProjection.renames = [(1, text "a"), (2, text "b")] ∧
      staleProjection.snapshot = some [1] ∧ ¬ Ordered staleProjection := by
  have hrenames : staleProjection.renames = [(1, text "a"), (2, text "b")] := by decide +kernel
  refine ⟨Run.foldl (.start start_newCluster) (by decide +kernel), hrenames,
    by decide +kernel, ?_⟩
  rw [Ordered, hrenames]
  simp

end Nzbd.Election
