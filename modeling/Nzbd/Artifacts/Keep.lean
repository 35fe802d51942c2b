import Nzbd.Artifacts.Delete
import Nzbd.Artifacts.Rows
import Nzbd.Lib.Run

/-!
# Keep

An artifact that is kept is not deleted, and what was asked for before it was kept is not
done when it is not kept any more.  Keep cancels the operations that are queued; one that
has been tried and has failed it leaves alone, and later attempts do not look at the
revision.  So such an operation goes on once the artifact is let go again.

`barred` are the operations that were there as Keep was accepted for their artifact; it is
not in the code.  `Careful` is that none of them was in the middle of its attempts, and
`respected_of_run` is what then holds of every run.
-/

namespace Nzbd.Artifacts

open List Runs Inodes Inventory

/-! ### Steps -/

inductive RowStep
  | allocate (id generation : Text) (job : JobId) (root path : OsPath) (rootIdentity : Identity)
      (taken : Bool) (made : Option Identity) (now : Int)
  | discover (id generation : Text) (root path : OsPath) (active : Bool) (seen : Option Seen)
      (now : Int)
  | disown (job : JobId) (path : OsPath) (verified : Bool)
  | engage (job : JobId) (path : OsPath)
  | prepareForget (job : JobId) (now : Int)
  | finish (job : JobId) (path root : OsPath) (state : ArtifactState) (seen : Option Seen)
      (now : Int)
  | inspect (key : Text) (seen : Option (List FileEntry)) (now : Int)
  | adopt (key : Text) (revision : Nat) (seen : Option (List FileEntry))
  | retention (key : Text) (revision : Nat) (keep : Bool) (seconds : Option Nat) (now : Int)
  | releaseReview (key : Text) (revision : Nat) (seen : Option (List FileEntry)) (now : Int)
  | applyRetention (key : Text) (days : Nat) (rows : List (Text × Nat)) (now : Int)
  | previewRetention (key : Text) (days : Nat) (rows : Text)
  | requestDelete (key : Text) (revision : Nat) (requestId : Text) (undoSeconds : Nat) (now : Int)
  | cancelDelete (key : Text)
  | accrue (key : Text) (elapsed : Nat)
  | expire (key : Text) (now : Int)
  | relocate (job : JobId) (destination : OsPath) (destinationRoot : Identity) (taken : Bool)
      (seen : Option Seen)
  | relocateScratch (key generation : Text) (identity : Identity) (files : List FileEntry)
  | commitRelocation (key : Text) (seen : Option Seen) (now : Int)
  | failRelocation (key : Text) (error : Error) (there : Bool)
  | interruptRelocation (key : Text) (error : Error)
  | stageRecovery (key : Text) (revision : Nat) (requestId : Text) (paths : List OsPath)
      (root : OsPath) (id generation : Text) (seen : Option (List FileEntry))
  | publish (id : Text) (files : List RecoveryFile) (digest : Text) (seen : Seen) (now : Int)
  | endStaging (id : Text) (error : Option Error)
  | claimRecovery (key consumer importId manifest : Text)
  | recoveryReceipt (key consumer : Text) (receipt : Receipt) (now : Int)
  | cancelRecovery (key : Text) (consumer : Option Text) (ack : Bool)
  | pruneSource (key : Text) (remaining : Option (List FileEntry)) (now : Int)
  | submitTask (kind : OperationKind) (artifact id request : Text) (now : Int)
  | startTask (key : Text) (now : Int)
  | endTask (key : Text) (error : Option Error)
  | reconcileStartup (key : Text) (live : Bool) (there : Option Identity)
      (seen : Option (List FileEntry)) (now : Int)
  | reconcileMissing (key : Text) (now : Int)
  | compact (key : Text) (now : Int)
  | quarantineRestore
  | setSettings (s : Settings)
  | protectRoots (roots : List OsPath)

def RowStep.txs (inv : Inventory) : RowStep → List Tx
  | allocate id generation job root path rootIdentity taken made now =>
    inv.allocate id generation job root path rootIdentity taken made now
  | discover id generation root path active seen now =>
    inv.discover id generation root path active seen now
  | disown job path verified => inv.disown job path verified
  | engage job path => inv.engage job path
  | prepareForget job now => inv.prepareForget job now
  | finish job path root state seen now => inv.finish job path root state seen now
  | inspect key seen now => inv.inspect key seen now
  | adopt key revision seen => inv.adopt key revision seen
  | retention key revision keep seconds now => inv.retention key revision keep seconds now
  | releaseReview key revision seen now => inv.releaseReview key revision seen now
  | applyRetention key days rows now => inv.applyRetention key days rows now
  | previewRetention key days rows => Inventory.previewRetention key days rows
  | requestDelete key revision requestId undoSeconds now =>
    inv.requestDelete key revision requestId undoSeconds false now
  | cancelDelete key => inv.cancelDelete key
  | accrue key elapsed => inv.accrue key elapsed
  | expire key now => inv.expire key now
  | relocate job destination destinationRoot taken seen =>
    inv.relocate job destination destinationRoot taken seen
  | relocateScratch key generation identity files => inv.relocateScratch key generation identity files
  | commitRelocation key seen now => inv.commitRelocation key seen now
  | failRelocation key error there => inv.failRelocation key error there
  | interruptRelocation key error => inv.interruptRelocation key error
  | stageRecovery key revision requestId paths root id generation seen =>
    inv.stageRecovery key revision requestId paths root id generation seen
  | publish id files digest seen now => inv.publish id files digest seen now
  | endStaging id error => inv.endStaging id error
  | claimRecovery key consumer importId manifest => inv.claimRecovery key consumer importId manifest
  | recoveryReceipt key consumer receipt now => inv.recoveryReceipt key consumer receipt now
  | cancelRecovery key consumer ack => inv.cancelRecovery key consumer ack
  | pruneSource key remaining now => inv.pruneSource key remaining now
  | submitTask kind artifact id request now => inv.submitTask kind artifact id request now
  | startTask key now => inv.startTask key now
  | endTask key error => inv.endTask key error
  | reconcileStartup key live there seen now => inv.reconcileStartup key live there seen now
  | reconcileMissing key now => inv.reconcileMissing key now
  | compact key now => inv.compact key now
  | quarantineRestore => inv.quarantineRestore
  | setSettings s => if 3650 < s.failedRetentionDays then [] else [[.settings s]]
  | protectRoots roots => [[.protectedRoots roots]]

/-- An execution that has taken something away. -/
structure Removal where
  operation : Text
  keep : Bool
  held : Bool
  barred : Bool
  deriving DecidableEq

structure Custody where
  inventory : Inventory
  disk : Disk
  barred : List Text
  removals : List Removal

inductive CustodyStep
  /-- The first `n` transactions; the process may end after any of them. -/
  | rows (c : RowStep) (n : Nat)
  | executeDelete (key : Text) (w : Answers)
  /-- What others do to the disk. -/
  | outside (disk : Disk)

/-- The request is not one that is still to be carried out. -/
def OperationState.settled : OperationState → Bool
  | .succeeded => true
  | .cancelled => true
  | .review => true
  | _ => false

namespace Custody

/-- The delete operations an accepted Keep puts an end to. -/
def bars (inv : Inventory) (n : Nat) : RowStep → List Text
  | .retention key revision true seconds _ =>
    if n = 0 ∨ inv.retainable key revision seconds = none then []
    else (inv.operations.map (·.id)).filter fun id =>
      (inv.operation id).any fun op => op.artifact = key && op.kind = .delete
  | _ => []

/-- It asks for a deletion anew. -/
def requests (id : Text) : Write → Bool
  | .operation op => op.id = id && op.kind = .delete && op.state = .queued
  | _ => false

/-- What is on one disk and not on the other. -/
def gone (before after : Disk) : List OsPath :=
  (before.entries.map (·.1)).filter fun p => (after.object p).isNone

def step (s : Custody) : CustodyStep → Custody
  | .rows c n =>
    let writes := ((c.txs s.inventory).take n).flatten
    { s with
      inventory := commit n (c.txs s.inventory) s.inventory
      barred := (s.barred ++ bars s.inventory n c).filter fun id => !writes.any (requests id) }
  | .executeDelete key w =>
    let d := executeDelete w s.inventory s.disk key
    let a := (s.inventory.operation key).bind fun op => s.inventory.artifact op.artifact
    { s with
      inventory := d.inventory
      disk := d.disk
      removals := if gone s.disk d.disk = [] then s.removals
        else ⟨key, a.any (·.keep), a.any (·.hold.isSome), key ∈ s.barred⟩ :: s.removals }
  | .outside disk => { s with disk := disk }

/-- **What is claimed.** -/
def Respected (s : Custody) : Prop :=
  ∀ r ∈ s.removals, r.keep = false ∧ r.held = false ∧ r.barred = false

/-- The artifact that is to be kept from now on. -/
def keeps (s : Custody) : CustodyStep → Option Text
  | .rows (.retention key revision true seconds _) n =>
    if n = 0 ∨ s.inventory.retainable key revision seconds = none then none else some key
  | _ => none

/-- **The condition on a step.**  As Keep is switched on, no delete operation of the
artifact is between two attempts. -/
def Careful (s : Custody) (c : CustodyStep) : Prop :=
  ∀ key ∈ s.keeps c, ∀ op ∈ s.inventory.operations, op.artifact = key → op.kind = .delete →
    op.state = .queued ∨ op.state.settled = true

/-- Any inventory and any disk. -/
structure Fresh (s : Custody) : Prop where
  barred : s.barred = []
  removals : s.removals = []

def Reached : Custody → Prop := Run Fresh (fun s c s' => s' = s.step c) Careful

end Custody

/-! ### What is written -/

/-- No delete operation is taken up again. -/
def Write.Harmless : Write → Prop
  | .operation op => op.kind = .delete → op.state = .queued ∨ op.state.settled = true
  | _ => True

def Harmless (txs : List Tx) : Prop := ∀ tx ∈ txs, ∀ w ∈ tx, w.Harmless

section Writes

variable (inv : Inventory)

@[simp] theorem harmless_nil : Harmless [] := fun _ h => by cases h

@[simp] theorem harmless_cons {tx : Tx} {txs : List Tx} :
    Harmless (tx :: txs) ↔ (∀ w ∈ tx, w.Harmless) ∧ Harmless txs := forall_mem_cons

@[simp] theorem harmless_append {txs txs' : List Tx} :
    Harmless (txs ++ txs') ↔ Harmless txs ∧ Harmless txs' := forall_mem_append

@[simp] theorem harmless_ite {c : Prop} [Decidable c] {txs txs' : List Tx} :
    Harmless (if c then txs else txs') ↔ (c → Harmless txs) ∧ (¬c → Harmless txs') := by
  split_ifs with h <;> simp [h]

variable (now : Int)

theorem harmless_allocate (id generation : Text) (job : JobId) (root path : OsPath)
    (rootIdentity : Identity) (taken : Bool) (made : Option Identity) :
    Harmless (inv.allocate id generation job root path rootIdentity taken made now) := by
  unfold allocate
  cases made <;> simp [Write.Harmless]

theorem harmless_discover (id generation : Text) (root path : OsPath) (active : Bool)
    (seen : Option Seen) :
    Harmless (inv.discover id generation root path active seen now) := by
  unfold discover
  cases seen <;> simp [Write.Harmless]

theorem harmless_disown (job : JobId) (path : OsPath) (verified : Bool) :
    Harmless (inv.disown job path verified) := by
  unfold disown
  split <;> simp [Write.Harmless]

theorem harmless_engage (job : JobId) (path : OsPath) : Harmless (inv.engage job path) := by
  unfold engage
  split <;> simp [Write.Harmless]

theorem harmless_prepareForget (job : JobId) :
    Harmless (inv.prepareForget job now) := by
  unfold prepareForget
  split <;> simp [Write.Harmless]

theorem harmless_finish (job : JobId) (path root : OsPath) (state : ArtifactState)
    (seen : Option Seen) : Harmless (inv.finish job path root state seen now) := by
  unfold finish
  split <;> simp [Write.Harmless]

theorem harmless_inspect (key : Text) (seen : Option (List FileEntry)) :
    Harmless (inv.inspect key seen now) := by
  unfold inspect
  split <;> simp [Write.Harmless]

theorem harmless_adopt (key : Text) (revision : Nat) (seen : Option (List FileEntry)) :
    Harmless (inv.adopt key revision seen) := by
  unfold adopt
  split <;> simp [Write.Harmless]

theorem harmless_withdrawn (key : Text) : ∀ w ∈ inv.withdrawn key, w.Harmless := by
  intro w hw
  obtain ⟨op, -, rfl⟩ := mem_map.mp hw
  exact fun _ => .inr rfl

theorem harmless_retention (key : Text) (revision : Nat) (keep : Bool) (seconds : Option Nat)
    : Harmless (inv.retention key revision keep seconds now) := by
  unfold retention
  split
  · exact harmless_nil
  · refine harmless_cons.mpr ⟨fun w hw => ?_, harmless_nil⟩
    rcases mem_append.mp hw with hw | hw
    · cases keep with
      | false => cases hw
      | true => exact harmless_withdrawn inv key w hw
    · obtain rfl := mem_singleton.mp hw
      trivial

theorem harmless_releaseReview (key : Text) (revision : Nat) (seen : Option (List FileEntry))
    : Harmless (inv.releaseReview key revision seen now) := by
  unfold releaseReview
  split <;> simp [Write.Harmless]

theorem harmless_applyRetention (key : Text) (days : Nat) (rows : List (Text × Nat)) :
    Harmless (inv.applyRetention key days rows now) := by
  unfold applyRetention
  split
  · exact harmless_nil
  split
  · refine harmless_cons.mpr ⟨fun w hw => ?_, harmless_nil⟩
    rcases mem_append.mp hw with hw | hw
    · obtain ⟨row, -, hrow⟩ := mem_filterMap.mp hw
      obtain ⟨a, -, rfl⟩ := Option.map_eq_some_iff.mp hrow
      trivial
    · obtain rfl := mem_singleton.mp hw
      exact fun _ => .inr rfl
  · exact harmless_nil

theorem harmless_requestDelete (key : Text) (revision : Nat) (requestId : Text)
    (undoSeconds : Nat) (automatic : Bool) :
    Harmless (inv.requestDelete key revision requestId undoSeconds automatic now) := by
  unfold requestDelete
  cases inv.artifact key <;> simp [Write.Harmless, deleteOperation]

theorem harmless_cancelDelete (key : Text) : Harmless (inv.cancelDelete key) := by
  unfold cancelDelete
  split <;> simp [Write.Harmless, OperationState.settled]

theorem harmless_accrue (key : Text) (elapsed : Nat) : Harmless (inv.accrue key elapsed) := by
  unfold accrue
  split <;> simp [Write.Harmless]

theorem harmless_expire (key : Text) : Harmless (inv.expire key now) := by
  unfold expire
  split
  · exact harmless_nil
  split
  · exact harmless_requestDelete inv _ _ _ _ _ _
  · exact harmless_nil

theorem harmless_relocate (job : JobId) (destination : OsPath) (destinationRoot : Identity)
    (taken : Bool) (seen : Option Seen) :
    Harmless (inv.relocate job destination destinationRoot taken seen) := by
  unfold relocate
  split <;> simp [Write.Harmless]

theorem kind_of_movement {key : Text} {op : Operation} {m : Relocation}
    (h : inv.movement key = some (op, m)) : op.kind = .relocate := by
  unfold movement at h
  split at h
  · cases h
  · split at h
    · next hkind _ _ =>
      obtain ⟨rfl, -⟩ := Prod.mk.inj (Option.some.inj h)
      exact hkind
    · cases h

theorem harmless_relocateScratch (key generation : Text) (identity : Identity)
    (files : List FileEntry) : Harmless (inv.relocateScratch key generation identity files) := by
  unfold relocateScratch
  split
  · exact harmless_nil
  · next hm => simp [Write.Harmless, kind_of_movement inv hm]

theorem harmless_retirement (key : Text) (old : Artifact) :
    ∀ w ∈ Inventory.retirement key old now, w.Harmless := by
  unfold retirement
  split <;> simp [Write.Harmless, deleteOperation]

theorem harmless_commitRelocation (key : Text) (seen : Option Seen) :
    Harmless (inv.commitRelocation key seen now) := by
  unfold commitRelocation
  split
  · next op m _ seen hm =>
    have hkind := kind_of_movement inv hm
    split
    · exact harmless_nil
    · next a _ =>
      rw [harmless_ite]
      refine ⟨fun _ => harmless_nil, fun _ => harmless_cons.mpr ⟨by simp [Write.Harmless], ?_⟩⟩
      split
      · simp [Write.Harmless, hkind]
      · refine harmless_cons.mpr ⟨by simp [Write.Harmless], harmless_cons.mpr ⟨?_, harmless_nil⟩⟩
        intro w hw
        rcases mem_append.mp hw with hw | hw
        · rcases mem_append.mp hw with hw | hw
          · rcases mem_cons.mp hw with rfl | hw
            · trivial
            · obtain rfl := mem_singleton.mp hw
              trivial
          · exact harmless_retirement _ _ _ w hw
        · rcases mem_cons.mp hw with rfl | hw
          · trivial
          · obtain rfl := mem_singleton.mp hw
            intro hdelete
            rw [hkind] at hdelete
            cases hdelete
  · exact harmless_nil

theorem harmless_retainScratch (m : Relocation) : Harmless (inv.retainScratch m) := by
  unfold retainScratch
  split
  · exact harmless_nil
  · split <;> simp [Write.Harmless]

theorem harmless_failRelocation (key : Text) (error : Error) (there : Bool) :
    Harmless (inv.failRelocation key error there) := by
  unfold failRelocation
  split
  · exact harmless_nil
  · next hm =>
    refine harmless_append.mpr ⟨harmless_append.mpr ⟨?_, harmless_retainScratch inv _⟩, ?_⟩
    · simp [Write.Harmless, kind_of_movement inv hm]
    · split <;> simp [Write.Harmless]

theorem harmless_interruptRelocation (key : Text) (error : Error) :
    Harmless (inv.interruptRelocation key error) := by
  unfold interruptRelocation
  split
  · exact harmless_nil
  · next hm =>
    refine harmless_append.mpr ⟨harmless_append.mpr ⟨harmless_retainScratch inv _, ?_⟩, ?_⟩
    · simp [Write.Harmless, kind_of_movement inv hm]
    · split <;> simp [Write.Harmless]

theorem harmless_stageRecovery (key : Text) (revision : Nat) (requestId : Text)
    (paths : List OsPath) (root : OsPath) (id generation : Text)
    (seen : Option (List FileEntry)) :
    Harmless (inv.stageRecovery key revision requestId paths root id generation seen) := by
  unfold stageRecovery
  split <;> simp [Write.Harmless]

theorem harmless_publish (id : Text) (files : List RecoveryFile) (digest : Text) (seen : Seen)
    : Harmless (inv.publish id files digest seen now) := by
  unfold publish registerPublication
  split <;> simp [Write.Harmless]

theorem harmless_holdForReview (r : Recovery) : Harmless (inv.holdForReview r) := by
  unfold holdForReview
  rw [harmless_append]
  constructor <;> split <;> simp [Write.Harmless]

theorem harmless_endStaging (id : Text) (error : Option Error) :
    Harmless (inv.endStaging id error) := by
  unfold endStaging
  split <;> simp [Write.Harmless, harmless_holdForReview]

theorem harmless_claimRecovery (key consumer importId manifest : Text) :
    Harmless (inv.claimRecovery key consumer importId manifest) := by
  unfold claimRecovery
  split <;> simp [Write.Harmless]

theorem harmless_recoveryReceipt (key consumer : Text) (receipt : Receipt) :
    Harmless (inv.recoveryReceipt key consumer receipt now) := by
  unfold recoveryReceipt
  split
  · exact harmless_nil
  split
  · exact harmless_nil
  split
  · exact harmless_nil
  split
  · split <;> simp [Write.Harmless]
  · simp [Write.Harmless]

theorem harmless_cancelRecovery (key : Text) (consumer : Option Text) (ack : Bool) :
    Harmless (inv.cancelRecovery key consumer ack) := by
  unfold cancelRecovery
  split <;> simp [Write.Harmless, harmless_holdForReview]

theorem harmless_pruneSource (key : Text) (remaining : Option (List FileEntry)) :
    Harmless (inv.pruneSource key remaining now) := by
  unfold pruneSource
  split
  · exact harmless_nil
  split
  · exact harmless_nil
  split
  · exact harmless_nil
  split <;> simp [Write.Harmless]

theorem not_delete_of_isTask {kind : OperationKind} (h : kind.isTask = true) :
    kind ≠ .delete := by
  rintro rfl
  cases h

theorem harmless_submitTask (kind : OperationKind) (artifact id request : Text) :
    Harmless (inv.submitTask kind artifact id request now) := by
  unfold submitTask
  split
  · exact harmless_nil
  · exact harmless_cons.mpr ⟨by simp [Write.Harmless], harmless_nil⟩

theorem harmless_startTask (key : Text) : Harmless (inv.startTask key now) := by
  unfold startTask
  split
  · exact harmless_nil
  split
  · next htask =>
    refine harmless_cons.mpr ⟨fun w hw => ?_, harmless_nil⟩
    obtain rfl := mem_singleton.mp hw
    exact fun hd => absurd hd (not_delete_of_isTask htask.1)
  · exact harmless_nil

theorem harmless_endTask (key : Text) (error : Option Error) : Harmless (inv.endTask key error) := by
  unfold endTask
  split
  · exact harmless_nil
  split
  · next htask =>
    refine harmless_cons.mpr ⟨fun w hw => ?_, harmless_nil⟩
    obtain rfl := mem_singleton.mp hw
    exact fun hd => absurd hd (not_delete_of_isTask htask)
  · exact harmless_nil

theorem harmless_reconcileStartup (key : Text) (live : Bool) (there : Option Identity)
    (seen : Option (List FileEntry)) :
    Harmless (inv.reconcileStartup key live there seen now) := by
  unfold reconcileStartup
  split <;> simp [Write.Harmless]

theorem harmless_reconcileMissing (key : Text) :
    Harmless (inv.reconcileMissing key now) := by
  unfold reconcileMissing
  split <;> simp [Write.Harmless]

theorem harmless_compact (key : Text) : Harmless (inv.compact key now) := by
  unfold compact
  split <;> simp [Write.Harmless]

theorem harmless_quarantineRestore : Harmless inv.quarantineRestore := by
  refine harmless_cons.mpr ⟨fun w hw => ?_, harmless_nil⟩
  rcases mem_append.mp hw with hw | hw
  · rcases mem_append.mp hw with hw | hw
    · obtain ⟨a, -, rfl⟩ := mem_map.mp hw
      trivial
    · obtain ⟨r, -, rfl⟩ := mem_map.mp hw
      trivial
  · obtain ⟨op, -, rfl⟩ := mem_map.mp hw
    exact fun _ => .inr rfl

/-- **No step takes a delete operation up again,** the deletion itself apart. -/
theorem harmless_txs (c : RowStep) : Harmless (c.txs inv) := by
  cases c with
  | allocate => exact harmless_allocate inv _ _ _ _ _ _ _ _ _
  | discover => exact harmless_discover inv _ _ _ _ _ _ _
  | disown => exact harmless_disown inv _ _ _
  | engage => exact harmless_engage inv _ _
  | prepareForget => exact harmless_prepareForget inv _ _
  | finish => exact harmless_finish inv _ _ _ _ _ _
  | inspect => exact harmless_inspect inv _ _ _
  | adopt => exact harmless_adopt inv _ _ _
  | retention => exact harmless_retention inv _ _ _ _ _
  | releaseReview => exact harmless_releaseReview inv _ _ _ _
  | applyRetention => exact harmless_applyRetention inv _ _ _ _
  | previewRetention =>
    change Harmless (previewRetention _ _ _)
    simp [previewRetention, Write.Harmless]
  | requestDelete => exact harmless_requestDelete inv _ _ _ _ _ _
  | cancelDelete => exact harmless_cancelDelete inv _
  | accrue => exact harmless_accrue inv _ _
  | expire => exact harmless_expire inv _ _
  | relocate => exact harmless_relocate inv _ _ _ _ _
  | relocateScratch => exact harmless_relocateScratch inv _ _ _ _
  | commitRelocation => exact harmless_commitRelocation inv _ _ _
  | failRelocation => exact harmless_failRelocation inv _ _ _
  | interruptRelocation => exact harmless_interruptRelocation inv _ _
  | stageRecovery => exact harmless_stageRecovery inv _ _ _ _ _ _ _ _
  | publish => exact harmless_publish inv _ _ _ _ _
  | endStaging => exact harmless_endStaging inv _ _
  | claimRecovery => exact harmless_claimRecovery inv _ _ _ _
  | recoveryReceipt => exact harmless_recoveryReceipt inv _ _ _ _
  | cancelRecovery => exact harmless_cancelRecovery inv _ _ _
  | pruneSource => exact harmless_pruneSource inv _ _ _
  | submitTask => exact harmless_submitTask inv _ _ _ _ _
  | startTask => exact harmless_startTask inv _ _
  | endTask => exact harmless_endTask inv _ _
  | reconcileStartup => exact harmless_reconcileStartup inv _ _ _ _ _
  | reconcileMissing => exact harmless_reconcileMissing inv _ _
  | compact => exact harmless_compact inv _ _
  | quarantineRestore => exact harmless_quarantineRestore inv
  | setSettings s =>
    change Harmless (if 3650 < s.failedRetentionDays then [] else [[.settings s]])
    simp [Write.Harmless]
  | protectRoots roots =>
    change Harmless [[.protectedRoots roots]]
    simp [Write.Harmless]

end Writes

theorem operation_foldl (inv : Inventory) (ws : List Write) (id : Text) :
    ((ws.foldl Write.apply inv).operation id = inv.operation id ∧
      ∀ op, .operation op ∈ ws → op.id ≠ id) ∨
    ∃ op, .operation op ∈ ws ∧ op.id = id ∧ (ws.foldl Write.apply inv).operation id = some op := by
  induction ws generalizing inv with
  | nil => exact .inl ⟨rfl, fun op h => (by cases h)⟩
  | cons w ws ih =>
    rw [foldl_cons]
    rcases ih (w.apply inv) with ⟨hsame, hnone⟩ | ⟨op, hop, hid, hget⟩
    · cases w with
      | operation op =>
        by_cases hid : op.id = id
        · refine .inr ⟨op, mem_cons_self, hid, ?_⟩
          rw [hsame, ← hid]
          exact operation_saveOperation_self _ _
        · refine .inl ⟨hsame.trans (operation_saveOperation_of_ne _ hid), fun op' hop' => ?_⟩
          rcases mem_cons.mp hop' with heq | hop'
          · exact Write.operation.inj heq ▸ hid
          · exact hnone op' hop'
      | _ =>
        refine .inl ⟨hsame, fun op' hop' => ?_⟩
        rcases mem_cons.mp hop' with heq | hop'
        · cases heq
        · exact hnone op' hop'
    · exact .inr ⟨op, mem_cons_of_mem _ hop, hid, hget⟩

/-! ### What a deletion leaves alone -/

section Deletion

variable {w : Answers} {inv : Inventory} {disk : Disk} {key : Text}

theorem executeDelete_settled {op : Operation} (hop : inv.operation key = some op)
    (h : op.kind = .delete → op.state.settled = true) :
    (executeDelete w inv disk key).inventory = inv ∧ (executeDelete w inv disk key).disk = disk := by
  unfold executeDelete
  rw [hop]
  by_cases hkind : op.kind = .delete
  · have hdone : op.state = .succeeded ∨ op.state = .cancelled ∨ op.state = .review ∨
        w.now < op.notBefore ∨ w.now < op.nextRetry := by
      have hs := h hkind
      cases hst : op.state <;> rw [hst] at hs <;> simp_all [OperationState.settled]
    simp only [hkind, ne_eq, not_true_eq_false, if_false, hdone, if_true, and_self]
  · simp only [ne_eq, hkind, not_false_eq_true, if_true, and_self]

theorem operation_executeDelete_of_ne {id : Text} (hne : id ≠ key) :
    (executeDelete w inv disk key).inventory.operation id = inv.operation id := by
  unfold executeDelete
  split
  · rfl
  · next op hop =>
    have hid : op.id ≠ id := fun he => hne (he.symm.trans (Table.key_of_get hop))
    split
    · rfl
    split
    · rfl
    split
    · rfl
    · next a _ revision _ automatic ha _ =>
      split
      · split
        · exact operation_saveOperation_of_ne _ hid
        · rfl
      split
      · rfl
      · have hbegin : (inv.begin op a).operation id = inv.operation id :=
          operation_saveOperation_of_ne _ hid
        unfold attempt
        split
        · split
          · have hrows := conclude_id (w := w) op.begun a.deleting (removal w inv disk op a).2
            rw [operation_saveArtifact, operation_saveOperation_of_ne _
              (fun he => hid (hrows.1.symm.trans he)), hbegin]
          · exact hbegin
        · rfl
    · rfl

theorem gone_self (disk : Disk) : Custody.gone disk disk = [] := by
  refine filter_eq_nil_iff.mpr fun p hp => ?_
  obtain ⟨⟨q, o⟩, he, rfl⟩ := mem_map.mp hp
  rw [Disk.object_eq_some.mpr he]
  exact Bool.false_ne_true

theorem released_of_gone (h : Custody.gone disk (executeDelete w inv disk key).disk ≠ []) :
    ∃ op a, inv.operation key = some op ∧ inv.artifact op.artifact = some a ∧ a.keep = false ∧
      a.hold = none ∧ ¬(op.kind = .delete → op.state.settled = true) := by
  obtain ⟨p, hp⟩ := exists_mem_of_ne_nil _ h
  obtain ⟨hmem, hnone⟩ := mem_filter.mp hp
  obtain ⟨⟨q, o⟩, he, rfl⟩ := mem_map.mp hmem
  obtain ⟨op, a, hop, ha, hdel, -⟩ := (executeDelete_authorized w inv disk key).gone q o
    (Disk.object_eq_some.mpr he) (Option.isNone_iff_eq_none.mp hnone)
  refine ⟨op, a, hop, ha, hdel.keep, hdel.hold, fun hs => h ?_⟩
  rw [(executeDelete_settled hop hs).2]
  exact gone_self disk

end Deletion

namespace Custody

structure Inv (s : Custody) : Prop where
  barred : ∀ id ∈ s.barred, ∀ op, s.inventory.operation id = some op → op.kind = .delete →
    op.state.settled = true
  respected : s.Respected

theorem settled_of_bars {inv : Inventory} {n : Nat} {c : RowStep} {id : Text} {op : Operation}
    (hcareful : ∀ key revision seconds now, c = .retention key revision true seconds now →
      ¬(n = 0 ∨ inv.retainable key revision seconds = none) → ∀ op ∈ inv.operations,
        op.artifact = key → op.kind = .delete → op.state = .queued ∨ op.state.settled = true)
    (hid : id ∈ bars inv n c) (hop : inv.operation id = some op)
    (hunwritten : ∀ op', .operation op' ∈ ((c.txs inv).take n).flatten → op'.id ≠ id) :
    op.state.settled = true := by
  unfold bars at hid
  split at hid
  · next key revision seconds now =>
    split at hid
    · cases hid
    · next hgo =>
      obtain ⟨hn, hretain⟩ := not_or.mp hgo
      obtain ⟨-, hany⟩ := mem_filter.mp hid
      rw [hop, Option.any_some, Bool.and_eq_true, decide_eq_true_eq, decide_eq_true_eq] at hany
      have hmem := Table.mem_of_get hop
      rcases hcareful key revision seconds now rfl hgo op hmem hany.1 hany.2 with hqueued | hsettled
      · -- a queued one is cancelled by the step itself
        exfalso
        obtain ⟨a, ha⟩ := Option.ne_none_iff_exists'.mp hretain
        refine hunwritten { op with state := .cancelled } ?_ (show op.id = id from Table.key_of_get hop)
        obtain ⟨m, rfl⟩ := Nat.exists_eq_succ_of_ne_zero hn
        simp only [RowStep.txs, retention, ha, if_true, take_succ_cons,
          flatten_cons, mem_append]
        refine .inl (.inl (mem_map.mpr ⟨op, mem_filter.mpr ⟨hmem, ?_⟩, rfl⟩))
        simp [hany.1, hqueued]
      · exact hsettled
  · cases hid

theorem inv_rows {s : Custody} (h : s.Inv) (c : RowStep) (n : Nat)
    (hok : s.Careful (.rows c n)) : (s.step (.rows c n)).Inv where
  respected := h.respected
  barred := by
    intro id hid op hop hdelete
    obtain ⟨hmem, hfresh⟩ := mem_filter.mp hid
    change (((c.txs s.inventory).take n).flatten.foldl Write.apply s.inventory).operation id =
      some op at hop
    rcases operation_foldl s.inventory ((c.txs s.inventory).take n).flatten id with
      ⟨hsame, hunwritten⟩ | ⟨op', hop', hid', hget⟩
    · rw [hsame] at hop
      rcases mem_append.mp hmem with hold | hnew
      · exact h.barred id hold op hop hdelete
      · refine settled_of_bars (fun key revision seconds now hc hgo => ?_) hnew hop hunwritten
        subst hc
        exact hok key (if_neg hgo)
    · rw [hget] at hop
      obtain rfl := Option.some.inj hop
      obtain ⟨tx, htx, hw⟩ := mem_flatten.mp hop'
      rcases harmless_txs s.inventory c tx (mem_of_mem_take htx) _ hw hdelete with hqueued | hs
      · -- that one is asked for anew
        have hany : ((c.txs s.inventory).take n).flatten.any (requests id) = true := by
          refine any_eq_true.mpr ⟨_, hop', ?_⟩
          simp [requests, hid', hdelete, hqueued]
        rw [hany] at hfresh
        cases hfresh
      · exact hs

theorem inv_executeDelete {s : Custody} (h : s.Inv) (key : Text) (w : Answers) :
    (s.step (.executeDelete key w)).Inv where
  barred := by
    intro id hid op hop hdelete
    by_cases hne : id = key
    · subst hne
      change (executeDelete w s.inventory s.disk id).inventory.operation id = some op at hop
      cases hbefore : s.inventory.operation id with
      | none =>
        have hsame : (executeDelete w s.inventory s.disk id).inventory = s.inventory := by
          unfold executeDelete
          rw [hbefore]
        rw [hsame] at hop
        exact h.barred id hid op hop hdelete
      | some op' =>
        have hsettled := h.barred id hid op' hbefore
        rw [(executeDelete_settled hbefore hsettled).1] at hop
        exact h.barred id hid op hop hdelete
    · have hsame : (executeDelete w s.inventory s.disk key).inventory.operation id =
          s.inventory.operation id := operation_executeDelete_of_ne hne
      exact h.barred id hid op (hsame.symm.trans hop) hdelete
  respected := by
    intro r hr
    change r ∈ ite _ _ _ at hr
    split at hr
    · exact h.respected r hr
    · next hgone =>
      rcases mem_cons.mp hr with rfl | hr
      · obtain ⟨op, a, hop, ha, hkeep, hhold, hlive⟩ := released_of_gone hgone
        simp only [hop, Option.bind_some, ha, Option.any_some, hkeep, hhold, Option.isSome_none,
          decide_eq_false_iff_not, true_and]
        exact fun hmem => hlive (h.barred key hmem op hop)
      · exact h.respected r hr

end Custody

/-- **What is kept or held stays, and what was asked for before a Keep stays undone,** as
long as Keep does not meet a deletion between two attempts. -/
theorem respected_of_run {s : Custody} (h : s.Reached) : s.Respected := by
  refine (Run.invariant (P := Custody.Inv) (fun s hs => ⟨?_, ?_⟩) ?_ h).respected
  · rw [hs.barred]
    simp
  · intro r hr
    rw [hs.removals] at hr
    cases hr
  · rintro s c _ hinv hok rfl
    cases c with
    | rows c n => exact Custody.inv_rows hinv c n hok
    | executeDelete key w => exact Custody.inv_executeDelete hinv key w
    | outside disk => exact ⟨hinv.barred, hinv.respected⟩

/-! ### Two runs -/

namespace Custody

instance (s : Custody) (c : CustodyStep) : Decidable (s.Careful c) :=
  inferInstanceAs (Decidable (∀ key ∈ s.keeps c, _))

end Custody

def osName (s : String) : OsName := s.toList.map fun c => UInt8.ofNat c.toNat

def parkedPath : OsPath := [osName "d", osName "p"]

def parkedDisk : Disk :=
  .ofEntries
    [([], ⟨.dir, 1, 1, 0, []⟩), ([osName "d"], ⟨.dir, 1, 2, 0, []⟩),
      (parkedPath, ⟨.dir, 1, 3, 0, []⟩), (parkedPath ++ [osName "f"], ⟨.file, 1, 4, 10, []⟩)]
    (by decide +kernel) (by decide +kernel) (by decide +kernel)

def parkedArtifact : Artifact where
  id := text "a"
  generation := text "g"
  revision := 1
  job := none
  path := parkedPath
  root := [osName "d"]
  rootIdentity := ⟨1, 2, 0, [], true⟩
  identity := some ⟨1, 3, 0, [], true⟩
  state := .parkedFailed
  owned := true
  keep := false
  hold := none
  updatedAt := 0
  retentionSeconds := 0
  deadline := none
  eligibleSeconds := 0
  files := [⟨[osName "f"], ⟨1, 4, 10, [], false⟩⟩]
  error := none

def parked : Custody where
  inventory := {
    installation := text "i"
    settings := ⟨false, 0⟩
    protectedRoots := []
    artifacts := [parkedArtifact]
    operations := []
    recoveries := []
    sidecars := [⟨text "i", text "a", text "g", parkedPath, some ⟨1, 3, 0, [], true⟩⟩] }
  disk := parkedDisk
  barred := []
  removals := []

/-- Everything is answered as it should be, but for one call. -/
def answersAt (now : Int) (fault : Option Call) : Answers where
  now := now
  finished := now
  fault := fun c => fault = some c
  unsynced := fun _ => false
  through := fun _ => none
  started := true
  committed := true

/-- Keep cancels what is queued, and a fresh request is carried out. -/
def freshRequest : List CustodyStep :=
  [.rows (.requestDelete (text "a") 1 (text "r") 0 0) 1,
    .rows (.retention (text "a") 1 true none 1) 1,
    .executeDelete (text "r") (answersAt 2 none),
    .rows (.retention (text "a") 2 false none 3) 1,
    .executeDelete (text "r") (answersAt 4 none),
    .rows (.requestDelete (text "a") 3 (text "s") 0 5) 1,
    .executeDelete (text "s") (answersAt 6 none)]

theorem respected_of_run_freshRequest :
    let s := freshRequest.foldl Custody.step parked
    s.Reached ∧ s.barred = [text "r"] ∧ s.removals = [⟨text "s", false, false, false⟩] ∧
      s.Respected := by
  have hreached : (freshRequest.foldl Custody.step parked).Reached :=
    Run.foldl (.start ⟨rfl, rfl⟩) (by decide +kernel)
  exact ⟨hreached, by decide +kernel, by decide +kernel, respected_of_run hreached⟩

/-- The first attempt fails; then the artifact is kept, and let go again. -/
def oldRequest : List CustodyStep :=
  [.rows (.requestDelete (text "a") 1 (text "r") 0 0) 1,
    .executeDelete (text "r") (answersAt 1 (some .openPayload)),
    .rows (.retention (text "a") 2 true none 2) 1,
    .executeDelete (text "r") (answersAt 100 none),
    .rows (.retention (text "a") 3 false none 101) 1,
    .executeDelete (text "r") (answersAt 102 none)]

/-- **The old request removes the payload.** -/
theorem revived_request : parked.Fresh ∧
    let s := oldRequest.foldl Custody.step parked
    s.removals = [⟨text "r", false, false, true⟩] ∧ s.disk.object parkedPath = none ∧
      ¬s.Respected := by
  refine ⟨⟨rfl, rfl⟩, by decide +kernel, by decide +kernel, fun h => ?_⟩
  have hremovals : (oldRequest.foldl Custody.step parked).removals =
      [⟨text "r", false, false, true⟩] := by decide +kernel
  obtain ⟨-, -, hbarred⟩ := h ⟨text "r", false, false, true⟩ (by rw [hremovals]; exact .head _)
  cases hbarred

end Nzbd.Artifacts
