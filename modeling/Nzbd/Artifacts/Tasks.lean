import Nzbd.Artifacts.Keep
import Nzbd.Artifacts.Prune

/-!
# Calls side by side

The inventory is called from several threads.  What a call does under the mutation lock is one
`Action`, and so is a row that is read or written without it; between two actions of a call other
calls go on.  A deletion is one action.  A task is four: its row is read, written back as running,
the work is done, and the row is written back again, from the copy that was read.

So a cancellation can come after the row has been read, and then it is overwritten and the work is
done all the same.  `Undisturbed` is that none does, and `final_of_run` is that every
cancellation is final then.
-/

namespace Nzbd.Artifacts

open Option List Runs Inodes Inventory

/-! ### Actions -/

/-- The next thing a call does. -/
inductive Action
  | submitTask (kind : OperationKind) (artifact id request : Text)
  | requestDelete (key : Text) (revision : Nat) (requestId : Text) (undoSeconds : Nat)
  | cancelDelete (key : Text)
  | retention (key : Text) (revision : Nat) (keep : Bool) (seconds : Option Nat)
  | executeDelete (key : Text)
  | readTask (key : Text)
  | startTask (op : Operation)
  | work (op : Operation)
  | endTask (op : Operation) (error : Option Error)
  | listTasks
  | listDeletes
  | settings
  /-- `enabled` : what the settings have said. -/
  | accrue (enabled : Bool)
  | expire (key : Text) (revision : Nat)
  | discovery
  /-- Sections that write rows of artifacts and of recoveries. -/
  | others

inductive Invocation
  | submitTask (kind : OperationKind) (artifact id request : Text)
  | requestDelete (key : Text) (revision : Nat) (requestId : Text) (undoSeconds : Nat)
  | cancelDelete (key : Text)
  | retention (key : Text) (revision : Nat) (keep : Bool) (seconds : Option Nat)
  | executeTask (key : Text)
  | executeDelete (key : Text)
  | runTasks
  | tick

def Invocation.actions : Invocation → List Action
  | submitTask kind artifact id request => [.submitTask kind artifact id request]
  | requestDelete key revision requestId undoSeconds =>
    [.requestDelete key revision requestId undoSeconds]
  | cancelDelete key => [.cancelDelete key]
  | retention key revision keep seconds => [.retention key revision keep seconds]
  | executeTask key => [.readTask key]
  | executeDelete key => [.executeDelete key]
  | runTasks => [.listTasks]
  | tick =>
    -- recoveries are reconciled here, and after the tasks come missing artifacts and old manifests
    [.settings, .listDeletes, .others, .discovery, .listTasks, .others]

/-- What an action is told from outside. -/
structure Told where
  now : Int
  /-- So many transactions are committed; the call fails if none is. -/
  committed : Nat
  deletion : Answers
  prune : PruneAnswers
  /-- The uptime that a row is to be given. -/
  elapsed : Text → Nat
  /-- The rows of a query, in the order of their creation. -/
  keys : List Text
  /-- What a further section writes, if there is one. -/
  rows : Option (List Tx)
  /-- How the work of a task ends. -/
  error : Option Error
  /-- A scan that is due. -/
  scan : Option (Text × Text)

/-- What an action comes to; `next` : what its call does then, if it goes on. -/
structure Outcome where
  inventory : Inventory
  disk : Disk
  next : Option (List Action)

def Write.isOperation : Write → Bool
  | .operation _ => true
  | _ => false

/-- The rows of artifacts and of recoveries. -/
def apart (txs : List Tx) : List Tx := txs.map fun tx => tx.filter (!·.isOperation)

namespace Inventory

variable (inv : Inventory)

/-- Is the task one that the runner takes up? -/
def runnable (now : Int) (key : Text) : Bool :=
  (inv.operation key).any fun op =>
    (op.state = .queued || op.state = .running) && op.kind.isTask && op.notBefore ≤ now

def deletable (now : Int) (key : Text) : Bool :=
  (inv.operation key).any fun op =>
    (op.state = .queued || op.state = .running || op.state = .retry) && op.kind = .delete &&
      op.notBefore ≤ now && op.nextRetry ≤ now

/-- The rows that grow older in a tick. -/
def clocked : List Artifact :=
  inv.artifacts.filter fun a => a.state = .parkedFailed || a.state = .recoveryImported

def accrued (enabled : Bool) (elapsed : Text → Nat) : Tx :=
  let inv := { inv with settings := { inv.settings with enabled := enabled } }
  inv.clocked.flatMap fun a => (inv.accrue a.id (elapsed a.id)).flatten

/-- The rows whose retention is over, with their revisions. -/
def due (enabled : Bool) (now : Int) : List (Text × Nat) :=
  (inv.clocked.filter fun a => enabled && a.eligible && a.retentionSeconds ≤ a.eligibleSeconds &&
    a.deadline.any (· ≤ now)).map fun a => (a.id, a.revision)

/-- The operations that a cancellation is accepted for. -/
def withdraws : Action → List Text
  | .cancelDelete key => if inv.cancelDelete key = [] then [] else [key]
  | .retention key revision true seconds =>
    if inv.retainable key revision seconds = none then []
    else (inv.operations.map (·.id)).filter fun id => (inv.operation id).any fun op =>
      op.artifact = key && op.state = .queued && (op.kind = .delete || op.kind = .prune)
  | _ => []

end Inventory

/-- The transactions of a section, and what the call does then. -/
def Outcome.ofRows (inv : Inventory) (disk : Disk) (txs : List Tx) (t : Told) (next : List Action) :
    Outcome :=
  ⟨commit t.committed txs inv, disk, if t.committed = 0 then none else some next⟩

section Perform

-- The recovery that the request of a task names.
variable (recoveryOf : Text → Option Text)

/-- A prune reads its request after it has said that it runs. -/
def performPrune (inv : Inventory) (disk : Disk) (op : Operation) (t : Told) : Outcome :=
  match op.request with
  | .task json =>
    match recoveryOf json with
    | none => ⟨inv, disk, none⟩
    | some r =>
      let p := pruneReceiptedSource t.prune inv disk r
      ⟨p.inventory, p.disk, some [.endTask op (match p.result with
        | .ok () => none
        | .error e => some e)]⟩
  | _ => ⟨inv, disk, none⟩

def Action.perform (inv : Inventory) (disk : Disk) (t : Told) : Action → Outcome
  | .submitTask kind artifact id request =>
    .ofRows inv disk (inv.submitTask kind artifact id request t.now) t []
  | .requestDelete key revision requestId undoSeconds =>
    .ofRows inv disk (inv.requestDelete key revision requestId undoSeconds false t.now) t []
  | .cancelDelete key => .ofRows inv disk (inv.cancelDelete key) t []
  | .retention key revision keep seconds =>
    .ofRows inv disk (inv.retention key revision keep seconds t.now) t []
  | .executeDelete key =>
    let d := Artifacts.executeDelete t.deletion inv disk key
    ⟨d.inventory, d.disk, some []⟩
  | .readTask key =>
    match inv.operation key with
    | none => ⟨inv, disk, none⟩
    | some op =>
      if (op.state = .queued ∨ op.state = .running) ∧ op.notBefore ≤ t.now then
        ⟨inv, disk, some [.startTask op]⟩
      else ⟨inv, disk, some []⟩
  | .startTask op =>
    let op := { op with state := .running, attempts := op.attempts + 1 }
    .ofRows inv disk [[.operation op]] t [.work op]
  | .work op =>
    match op.kind with
    | .prune => performPrune recoveryOf inv disk op t
    | .inspect | .scan | .stage =>
      match t.rows with
      | none => ⟨inv, disk, some [.endTask op t.error]⟩
      | some txs => ⟨commit t.committed (apart txs) inv, disk, some [.work op]⟩
    | _ => ⟨inv, disk, some [.endTask op (some (.conflict (text "unknown task kind")))]⟩
  | .endTask op error =>
    .ofRows inv disk [[.operation { op with
      state := if error = none then .succeeded else .failed
      error := error }]] t []
  | .listTasks => ⟨inv, disk, some (((t.keys.filter (inv.runnable t.now)).take 5).map .readTask)⟩
  | .listDeletes =>
    ⟨inv, disk, some (((t.keys.filter (inv.deletable t.now)).take 25).map .executeDelete)⟩
  | .settings => ⟨inv, disk, some [.accrue inv.settings.enabled]⟩
  | .accrue enabled =>
    let aged := inv.accrued enabled t.elapsed
    .ofRows inv disk [aged] t
      (((commit 1 [aged] inv).due enabled t.now).map fun (key, revision) => .expire key revision)
  | .expire key revision =>
    ⟨commit t.committed (inv.requestDelete key revision
      (text "retention-" ++ key ++ text "-" ++ showNat revision) 0 true t.now) inv, disk, some []⟩
  | .discovery => ⟨inv, disk, some (t.scan.toList.map fun (id, request) =>
      .submitTask .scan (text "installation") id request)⟩
  | .others =>
    match t.rows with
    | none => ⟨inv, disk, some []⟩
    | some txs => .ofRows inv disk (apart txs) t [.others]

end Perform

/-! ### The system -/

/-- The operation whose files an action takes away. -/
def Action.removes : Action → Option Text
  | .executeDelete key => some key
  | .work op => some op.id
  | _ => none

/-- The task that an action goes on with, from a copy of its row. -/
def Action.task : Action → Option Text
  | .startTask op => some op.id
  | .work op => some op.id
  | .endTask op _ => some op.id
  | _ => none

/-- The task that an action has marked as running. -/
def Action.begun : Action → Option Text
  | .work op => some op.id
  | .endTask op _ => some op.id
  | _ => none

def Action.starts : Action → Option Text
  | .startTask op => some op.id
  | _ => none

/-- The calls that go on, each with what is left of it.  `cancelled` : the operations whose
cancellation has been accepted; `removals` : the operations that have taken something away, and
whether they had been cancelled. -/
structure Floor where
  inventory : Inventory
  disk : Disk
  calls : List (List Action)
  cancelled : List Text
  removals : List (Text × Bool)

inductive FloorStep
  | call (c : Invocation)
  /-- The next action of a call. -/
  | turn (k : Nat) (t : Told)
  /-- What others do to the disk. -/
  | outside (disk : Disk)

namespace Floor

variable (recoveryOf : Text → Option Text)

def act (s : Floor) (k : Nat) (t : Told) (a : Action) (rest : List Action) : Floor :=
  let o := a.perform recoveryOf s.inventory s.disk t
  { inventory := o.inventory
    disk := o.disk
    calls := s.calls.set k ((o.next.map (· ++ rest)).getD [])
    cancelled := s.cancelled ++ if t.committed = 0 then [] else s.inventory.withdraws a
    removals :=
      (if Custody.gone s.disk o.disk = [] then [] else a.removes.toList.map fun id =>
        (id, decide (id ∈ s.cancelled))) ++ s.removals }

def step (s : Floor) : FloorStep → Floor
  | .call c => { s with calls := s.calls ++ [c.actions] }
  | .turn k t =>
    match s.calls[k]? with
    | some (a :: rest) => s.act recoveryOf k t a rest
    | _ => s
  | .outside disk => { s with disk := disk }

/-- **What is claimed.** -/
structure Final (s : Floor) : Prop where
  stays : ∀ id ∈ s.cancelled, ∃ op, s.inventory.operation id = some op ∧ op.state = .cancelled
  removesNothing : ∀ r ∈ s.removals, r.2 = false

/-- **The condition on a step.**  No call has read the row of a task that is cancelled by it, and
has not marked it as running yet. -/
def Undisturbed (s : Floor) : FloorStep → Prop
  | .turn k t => t.committed ≠ 0 → ∀ a ∈ (s.calls[k]?).bind (·.head?),
      ∀ id ∈ s.inventory.withdraws a, ∀ c ∈ s.calls, ∀ b ∈ c, b.starts ≠ some id
  | _ => True

/-- Any inventory and any disk. -/
structure Start (s : Floor) : Prop where
  calls : s.calls = []
  cancelled : s.cancelled = []
  removals : s.removals = []

def Reached : Floor → Prop := Run Start (fun s i s' => s' = s.step recoveryOf i) Undisturbed

end Floor

/-! ### What an action writes -/

section Writes

variable {recoveryOf : Text → Option Text} {inv : Inventory} {disk : Disk} {w : Answers} {t : Told}
  {a b : Action} {id key : Text} {txs : List Tx} {n : Nat}

def Unwritten (txs : List Tx) : Prop := ∀ tx ∈ txs, ∀ op, Write.operation op ∉ tx

/-- What an action can do to the row of an operation. -/
inductive Change (inv inv' : Inventory) (id : Text) (a : Action) : Prop
  | same (h : inv'.operation id = inv.operation id)
  | fresh (h : inv.operation id = none)
  | cancelled (op : Operation) (h : inv'.operation id = some op) (hstate : op.state = .cancelled)
  /-- A deletion goes on, if it has not been cancelled. -/
  | deleted (old op : Operation) (hold : inv.operation id = some old) (hlive : old.state ≠ .cancelled)
      (h : inv'.operation id = some op) (hstate : op.state ≠ .queued)
  /-- A task writes back what it has read. -/
  | task (op : Operation) (htask : a.task = some id) (h : inv'.operation id = some op)
      (hstate : op.state ≠ .queued)

theorem operation_commit (n : Nat) (txs : List Tx) (inv : Inventory) (id : Text) :
    (commit n txs inv).operation id = inv.operation id ∨
      ∃ op, (∃ tx ∈ txs, .operation op ∈ tx) ∧ op.id = id ∧
        (commit n txs inv).operation id = some op := by
  rcases operation_foldl inv (txs.take n).flatten id with ⟨hsame, -⟩ | ⟨op, hop, hid, hget⟩
  · exact .inl hsame
  · obtain ⟨tx, htx, hmem⟩ := mem_flatten.mp hop
    exact .inr ⟨op, ⟨tx, mem_of_mem_take htx, hmem⟩, hid, hget⟩

theorem operation_of_unwritten (h : Unwritten txs) :
    (commit n txs inv).operation id = inv.operation id := by
  rcases operation_commit n txs inv id with hsame | ⟨op, ⟨tx, htx, hmem⟩, -, -⟩
  · exact hsame
  · exact absurd hmem (h tx htx op)

@[simp] theorem unwritten_nil : Unwritten [] := fun _ h => by cases h

@[simp] theorem unwritten_cons {tx : Tx} : Unwritten (tx :: txs) ↔
    (∀ op, Write.operation op ∉ tx) ∧ Unwritten txs := forall_mem_cons

theorem unwritten_apart (txs : List Tx) : Unwritten (apart txs) := by
  intro tx htx op hop
  obtain ⟨tx', -, rfl⟩ := mem_map.mp htx
  exact absurd (mem_filter.mp hop).2 (by simp [Write.isOperation])

theorem unwritten_pruneSource (key : Text) (remaining : Option (List FileEntry)) (now : Int) :
    Unwritten (inv.pruneSource key remaining now) := by
  unfold pruneSource
  split
  · simp
  split
  · simp
  split_ifs
  · simp
  · split <;> simp

theorem unwritten_accrue (inv : Inventory) (key : Text) (elapsed : Nat) :
    Unwritten (inv.accrue key elapsed) := by
  unfold accrue
  split
  · simp
  · split_ifs <;> simp

theorem unwritten_accrued (enabled : Bool) (elapsed : Text → Nat) :
    Unwritten [inv.accrued enabled elapsed] := by
  rw [unwritten_cons]
  refine ⟨fun op hop => ?_, unwritten_nil⟩
  obtain ⟨a, -, hmem⟩ := mem_flatMap.mp hop
  obtain ⟨tx, htx, hmem⟩ := mem_flatten.mp hmem
  exact unwritten_accrue _ _ _ tx htx op hmem

theorem operation_pruneReceiptedSource (w : PruneAnswers) (inv : Inventory) (disk : Disk)
    (key id : Text) :
    (pruneReceiptedSource w inv disk key).inventory.operation id = inv.operation id := by
  unfold pruneReceiptedSource
  split
  · rfl
  · rfl
  · split
    · rfl
    · split_ifs
      · exact operation_of_unwritten (unwritten_pruneSource _ _ _)
      · rfl

theorem change_requestDelete (key : Text) (revision : Nat) (requestId : Text) (undoSeconds : Nat)
    (automatic : Bool) (now : Int) (n : Nat) (id : Text) :
    Change inv (commit n (inv.requestDelete key revision requestId undoSeconds automatic now) inv) id
      a := by
  rcases operation_commit n (inv.requestDelete key revision requestId undoSeconds automatic now) inv
    id with hsame | ⟨op, ⟨tx, htx, hmem⟩, hid, -⟩
  · exact .same hsame
  · unfold requestDelete at htx
    split_ifs at htx with hguard
    · cases htx
    · split at htx
      · cases htx
      · split_ifs at htx
        · cases htx
        · rw [mem_singleton.mp htx, mem_singleton] at hmem
          obtain rfl := Write.operation.inj hmem
          refine .fresh ?_
          have hnone : ¬(inv.operation requestId).isSome = true := fun h =>
            hguard (.inr (.inr (.inr h)))
          rw [← hid]
          exact not_isSome_iff_eq_none.mp hnone

theorem change_submitTask (kind : OperationKind) (artifact key request : Text) (now : Int) (n : Nat)
    (id : Text) :
    Change inv (commit n (inv.submitTask kind artifact key request now) inv) id a := by
  rcases operation_commit n (inv.submitTask kind artifact key request now) inv id with
    hsame | ⟨op, ⟨tx, htx, hmem⟩, hid, -⟩
  · exact .same hsame
  · unfold submitTask at htx
    split at htx
    · cases htx
    · next hguard =>
      rw [mem_singleton.mp htx, mem_singleton] at hmem
      obtain rfl := Write.operation.inj hmem
      refine .fresh ?_
      rw [← hid]
      exact not_isSome_iff_eq_none.mp fun h => hguard (.inr h)

theorem change_cancelDelete (key : Text) (n : Nat) (id : Text) :
    Change inv (commit n (inv.cancelDelete key) inv) id a := by
  rcases operation_commit n (inv.cancelDelete key) inv id with
    hsame | ⟨op, ⟨tx, htx, hmem⟩, -, hget⟩
  · exact .same hsame
  · refine .cancelled op hget ?_
    unfold cancelDelete at htx
    split at htx
    · cases htx
    · split_ifs at htx
      · rw [mem_singleton.mp htx, mem_singleton] at hmem
        rw [Write.operation.inj hmem]
      · cases htx

theorem state_of_mem_retention {revision : Nat} {keep : Bool} {seconds : Option Nat} {now : Int}
    {tx : Tx} {op : Operation} (htx : tx ∈ inv.retention key revision keep seconds now)
    (hmem : .operation op ∈ tx) : op.state = .cancelled := by
  unfold retention at htx
  split at htx
  · cases htx
  · rw [mem_singleton.mp htx, mem_append] at hmem
    rcases hmem with hmem | hmem
    · split_ifs at hmem
      · obtain ⟨old, -, heq⟩ := mem_map.mp hmem
        rw [← Write.operation.inj heq]
      · cases hmem
    · cases mem_singleton.mp hmem

theorem change_retention (key : Text) (revision : Nat) (keep : Bool) (seconds : Option Nat)
    (now : Int) (n : Nat) (id : Text) :
    Change inv (commit n (inv.retention key revision keep seconds now) inv) id a := by
  rcases operation_commit n (inv.retention key revision keep seconds now) inv id with
    hsame | ⟨op, ⟨tx, htx, hmem⟩, -, hget⟩
  · exact .same hsame
  · exact .cancelled op hget (state_of_mem_retention htx hmem)

theorem conclude_state (w : Answers) (op : Operation) (a : Artifact) (e : Option Error) :
    (conclude w op a e).1.state ≠ .queued := by
  cases e with
  | none => exact OperationState.noConfusion
  | some e =>
    change (if e.isConflict then OperationState.review else .retry) ≠ .queued
    split_ifs <;> decide

/-- **A deletion that has been cancelled is not gone on with.** -/
theorem change_executeDelete (key id : Text) :
    Change inv (executeDelete w inv disk key).inventory id a := by
  by_cases hne : id = key
  · subst hne
    unfold executeDelete
    split
    · exact .same rfl
    · next op hop =>
      have hid : op.id = id := Table.key_of_get hop
      split
      · exact .same rfl
      split
      · exact .same rfl
      · next hstate =>
        have hlive : op.state ≠ .cancelled := fun h => hstate (.inr (.inl h))
        split
        · exact .same rfl
        · next row _ revision _ automatic ha _ =>
          split
          · split
            · refine .cancelled { op with state := .cancelled, error := some authorizationChanged }
                ?_ rfl
              rw [← hid]
              exact operation_saveOperation_self _ _
            · exact .same rfl
          split
          · exact .same rfl
          · have hbegin : (inv.begin op row).operation id = some op.begun := by
              rw [← hid]
              exact operation_saveOperation_self _ _
            unfold attempt
            split
            · split
              · have hrows := conclude_id (w := w) op.begun row.deleting
                  (removal w inv disk op row).2
                refine .deleted op _ hop hlive ?_ (conclude_state w op.begun row.deleting
                  (removal w inv disk op row).2)
                have hself := operation_saveOperation_self (inv.begin op row)
                  (conclude w op.begun row.deleting (removal w inv disk op row).2).1
                rw [hrows.1] at hself
                rw [← hid]
                exact hself
              · exact .deleted op op.begun hop hlive hbegin OperationState.noConfusion
            · exact .same rfl
        · exact .same rfl
  · exact .same (operation_executeDelete_of_ne hne)

theorem change_section (op : Operation) (id : Text) :
    Change inv (match t.rows with
      | none => (⟨inv, disk, some [.endTask op t.error]⟩ : Outcome)
      | some txs => ⟨commit t.committed (apart txs) inv, disk, some [.work op]⟩).inventory id a := by
  split
  · exact .same rfl
  · exact .same (operation_of_unwritten (unwritten_apart _))

theorem change_perform (a : Action) :
    Change inv (a.perform recoveryOf inv disk t).inventory id a := by
  cases a with
  | submitTask kind artifact key request => exact change_submitTask _ _ _ _ _ _ _
  | requestDelete key revision requestId undoSeconds => exact change_requestDelete _ _ _ _ _ _ _ _
  | cancelDelete key => exact change_cancelDelete _ _ _
  | retention key revision keep seconds => exact change_retention _ _ _ _ _ _ _
  | executeDelete key => exact change_executeDelete _ _
  | readTask key =>
    simp only [Action.perform]
    split
    · exact .same rfl
    · split
      · exact .same rfl
      · exact .same rfl
  | startTask op =>
    rcases operation_commit t.committed [[.operation { op with
        state := .running, attempts := op.attempts + 1 }]] inv id with
      hsame | ⟨op', ⟨tx, htx, hmem⟩, hid, hget⟩
    · exact .same hsame
    · rw [mem_singleton.mp htx, mem_singleton] at hmem
      obtain rfl := Write.operation.inj hmem
      exact .task _ (congrArg some hid) hget OperationState.noConfusion
  | work op =>
    simp only [Action.perform]
    split
    · unfold performPrune
      split
      · split
        · exact .same rfl
        · exact .same (operation_pruneReceiptedSource _ _ _ _ _)
      · exact .same rfl
    · exact change_section _ _
    · exact change_section _ _
    · exact change_section _ _
    · exact .same rfl
  | endTask op error =>
    rcases operation_commit t.committed [[.operation { op with
        state := if error = none then .succeeded else .failed, error := error }]] inv id with
      hsame | ⟨op', ⟨tx, htx, hmem⟩, hid, hget⟩
    · exact .same hsame
    · rw [mem_singleton.mp htx, mem_singleton] at hmem
      obtain rfl := Write.operation.inj hmem
      refine .task _ (congrArg some hid) hget ?_
      change (if error = none then OperationState.succeeded else .failed) ≠ .queued
      split_ifs <;> decide
  | listTasks => exact .same rfl
  | listDeletes => exact .same rfl
  | settings => exact .same rfl
  | accrue enabled => exact .same (operation_of_unwritten (unwritten_accrued _ _))
  | expire key revision => exact change_requestDelete _ _ _ _ _ _ _ _
  | discovery => exact .same rfl
  | others =>
    simp only [Action.perform]
    split
    · exact .same rfl
    · exact .same (operation_of_unwritten (unwritten_apart _))

/-! ### What an action leads to -/

theorem written_commit {tx : Tx} {op : Operation} (hn : n ≠ 0) (hop : .operation op ∈ tx) :
    ∃ op', .operation op' ∈ tx ∧ (commit n [tx] inv).operation op.id = some op' := by
  obtain ⟨m, rfl⟩ := Nat.exists_eq_succ_of_ne_zero hn
  have hflat : ([tx].take (m + 1)).flatten = tx := by simp
  rcases operation_foldl inv ([tx].take (m + 1)).flatten op.id with ⟨-, hnone⟩ | ⟨op', hop', -, hget⟩
  · exact absurd rfl (hnone op (hflat.symm ▸ hop))
  · exact ⟨op', hflat ▸ hop', hget⟩

/-- **Where the tasks of a call come from**: a row that is read, and is not cancelled; and a task
that the call has been at before. -/
theorem task_of_next {more : List Action} (hnext : (a.perform recoveryOf inv disk t).next = some more)
    (hb : b ∈ more) (hid : b.task = some id) :
    (b.begun = none ∧ ∃ op, inv.operation id = some op ∧ op.state ≠ .cancelled ∧
      (a.perform recoveryOf inv disk t).inventory = inv) ∨
    a.task = some id ∧ (a.begun = some id ∨
      ∃ op, (a.perform recoveryOf inv disk t).inventory.operation id = some op ∧
        op.state ≠ .queued) := by
  have hnil {txs : List Tx} (h : (Outcome.ofRows inv disk txs t []).next = some more) : False := by
    unfold Outcome.ofRows at h
    split_ifs at h
    rw [← some.inj h] at hb
    cases hb
  have hmap {α : Type} {f : α → Action} {l : List α} (hf : ∀ x, (f x).task = none)
      (h : l.map f = more) : False := by
    obtain ⟨x, -, rfl⟩ := mem_map.mp (h.symm ▸ hb)
    rw [hf] at hid
    cases hid
  cases a with
  | submitTask kind artifact key request => exact (hnil hnext).elim
  | requestDelete key revision requestId undoSeconds => exact (hnil hnext).elim
  | cancelDelete key => exact (hnil hnext).elim
  | retention key revision keep seconds => exact (hnil hnext).elim
  | executeDelete key =>
    rw [← some.inj hnext] at hb
    cases hb
  | readTask key =>
    simp only [Action.perform] at hnext ⊢
    split at hnext
    · cases hnext
    · next op hop =>
      have hkey : op.id = key := Table.key_of_get hop
      split at hnext
      · next hdue =>
        rw [← some.inj hnext, mem_singleton] at hb
        subst hb
        obtain rfl : op.id = id := some.inj hid
        refine .inl ⟨rfl, op, hkey ▸ hop, ?_, ?_⟩
        · rcases hdue.1 with h | h
          · rw [h]
            decide
          · rw [h]
            decide
        · rw [if_pos hdue]
      · rw [← some.inj hnext] at hb
        cases hb
  | startTask op =>
    simp only [Action.perform, Outcome.ofRows] at hnext ⊢
    split at hnext
    · cases hnext
    · next hn =>
      rw [← some.inj hnext, mem_singleton] at hb
      subst hb
      obtain rfl : op.id = id := some.inj hid
      refine .inr ⟨rfl, .inr ?_⟩
      obtain ⟨op', hop', hget⟩ := @written_commit inv _ _
        { op with state := .running, attempts := op.attempts + 1 } hn mem_cons_self
      rw [mem_singleton] at hop'
      obtain rfl := Write.operation.inj hop'
      exact ⟨_, hget, OperationState.noConfusion⟩
  | work op =>
    simp only [Action.perform] at hnext
    have hend {b' : Action} (hb' : b' = b) (h : b'.task = some op.id) :
        (b.begun = none ∧ ∃ op', inv.operation id = some op' ∧ op'.state ≠ .cancelled ∧
          ((Action.work op).perform recoveryOf inv disk t).inventory = inv) ∨
        (Action.work op).task = some id ∧ ((Action.work op).begun = some id ∨
          ∃ op', ((Action.work op).perform recoveryOf inv disk t).inventory.operation id = some op' ∧
            op'.state ≠ .queued) := by
      subst hb'
      exact .inr ⟨h.symm.trans hid, .inl (h.symm.trans hid)⟩
    have hsection (h : (match t.rows with
        | none => (⟨inv, disk, some [.endTask op t.error]⟩ : Outcome)
        | some txs => ⟨commit t.committed (apart txs) inv, disk, some [.work op]⟩).next = some more) :
        ∃ b', b' = b ∧ b'.task = some op.id := by
      split at h
      · rw [← some.inj h, mem_singleton] at hb
        exact ⟨_, hb.symm, rfl⟩
      · rw [← some.inj h, mem_singleton] at hb
        exact ⟨_, hb.symm, rfl⟩
    split at hnext
    · unfold performPrune at hnext
      split at hnext
      · split at hnext
        · cases hnext
        · rw [← some.inj hnext, mem_singleton] at hb
          exact hend hb.symm rfl
      · cases hnext
    · obtain ⟨b', hb', htask⟩ := hsection hnext
      exact hend hb' htask
    · obtain ⟨b', hb', htask⟩ := hsection hnext
      exact hend hb' htask
    · obtain ⟨b', hb', htask⟩ := hsection hnext
      exact hend hb' htask
    · rw [← some.inj hnext, mem_singleton] at hb
      exact hend hb.symm rfl
  | endTask op error => exact (hnil hnext).elim
  | listTasks => exact (hmap (fun _ => rfl) (some.inj hnext)).elim
  | listDeletes => exact (hmap (fun _ => rfl) (some.inj hnext)).elim
  | settings =>
    rw [← some.inj hnext, mem_singleton] at hb
    subst hb
    cases hid
  | accrue enabled =>
    simp only [Action.perform, Outcome.ofRows] at hnext
    split at hnext
    · cases hnext
    · exact (hmap (fun _ => rfl) (some.inj hnext)).elim
  | expire key revision =>
    rw [← some.inj hnext] at hb
    cases hb
  | discovery => exact (hmap (fun _ => rfl) (some.inj hnext)).elim
  | others =>
    simp only [Action.perform] at hnext
    split at hnext
    · rw [← some.inj hnext] at hb
      cases hb
    · simp only [Outcome.ofRows] at hnext
      split at hnext
      · cases hnext
      · rw [← some.inj hnext, mem_singleton] at hb
        subst hb
        cases hid

theorem queued_of_withdraws (h : id ∈ inv.withdraws a) :
    ∃ op, inv.operation id = some op ∧ op.state = .queued := by
  unfold withdraws at h
  split at h
  · next key =>
    split at h
    · cases h
    · next hne =>
      rw [mem_singleton.mp h]
      unfold cancelDelete at hne
      split at hne
      · exact absurd rfl hne
      · next op hop =>
        split at hne
        · next hstate => exact ⟨op, hop, hstate.1⟩
        · exact absurd rfl hne
  · split at h
    · cases h
    · have hfits := (mem_filter.mp h).2
      cases hop : inv.operation id with
      | none =>
        rw [hop] at hfits
        cases hfits
      | some op =>
        rw [hop, any_some] at hfits
        simp only [Bool.and_eq_true, decide_eq_true_eq] at hfits
        exact ⟨op, rfl, hfits.1.2⟩
  · cases h

/-- **A cancellation that is accepted is written.** -/
theorem cancelled_of_withdraws (hn : t.committed ≠ 0) (h : id ∈ inv.withdraws a) :
    ∃ op, (a.perform recoveryOf inv disk t).inventory.operation id = some op ∧
      op.state = .cancelled := by
  obtain ⟨old, hold, hqueued⟩ := queued_of_withdraws h
  have hid : old.id = id := Table.key_of_get hold
  unfold withdraws at h
  split at h
  · next key =>
    split at h
    · cases h
    · next hne =>
      obtain rfl := mem_singleton.mp h
      have htx : inv.cancelDelete id = [[.operation { old with state := .cancelled }]] := by
        unfold cancelDelete at hne ⊢
        rw [hold] at hne ⊢
        simp only at hne ⊢
        split at hne
        · next hfits => rw [if_pos hfits]
        · exact absurd rfl hne
      obtain ⟨op', hop', hget⟩ := @written_commit inv _ _ { old with state := .cancelled } hn
        mem_cons_self
      rw [mem_singleton] at hop'
      obtain rfl := Write.operation.inj hop'
      refine ⟨{ old with state := .cancelled }, ?_, rfl⟩
      change (commit t.committed (inv.cancelDelete id) inv).operation id = _
      rw [htx]
      exact hid ▸ hget
  · next key revision seconds =>
    split at h
    · cases h
    · next hne =>
      obtain ⟨row, hrow⟩ := ne_none_iff_exists'.mp hne
      have hfits := (mem_filter.mp h).2
      rw [hold, any_some] at hfits
      simp only [Bool.and_eq_true, decide_eq_true_eq] at hfits
      have hmem : .operation { old with state := .cancelled } ∈ inv.withdrawn key :=
        mem_map.mpr ⟨old, mem_filter.mpr ⟨Table.mem_of_get hold, by simp [hfits.1.1, hqueued]⟩,
          rfl⟩
      obtain ⟨tx, htx, hin⟩ : ∃ tx, inv.retention key revision true seconds t.now = [tx] ∧
          .operation { old with state := .cancelled } ∈ tx := by
        unfold retention
        rw [hrow]
        exact ⟨_, rfl, mem_append_left _ hmem⟩
      obtain ⟨op', hop', hget⟩ := @written_commit inv _ _ _ hn hin
      refine ⟨op', ?_, state_of_mem_retention (htx ▸ mem_cons_self) hop'⟩
      change (commit t.committed (inv.retention key revision true seconds t.now) inv).operation id = _
      rw [htx]
      exact hid ▸ hget
  · cases h

end Writes

/-! ### Cancellations stay -/

namespace Floor

variable {recoveryOf : Text → Option Text} {s : Floor} {k : Nat} {t : Told} {a : Action}
  {rest : List Action}

/-- What is cancelled is no task of a call, and what a call is at work at is not queued. -/
structure Inv (s : Floor) : Prop where
  stays : ∀ id ∈ s.cancelled, ∃ op, s.inventory.operation id = some op ∧ op.state = .cancelled
  idle : ∀ id ∈ s.cancelled, ∀ c ∈ s.calls, ∀ a ∈ c, a.task ≠ some id
  begun : ∀ c ∈ s.calls, ∀ a ∈ c, ∀ id, a.begun = some id →
    ∃ op, s.inventory.operation id = some op ∧ op.state ≠ .queued
  removals : ∀ r ∈ s.removals, r.2 = false

variable {id : Text}

theorem task_of_begun (h : a.begun = some id) : a.task = some id := by
  cases a with
  | work op => exact h
  | endTask op error => exact h
  | _ => cases h

theorem starts_of_task (h : a.task = some id) (hb : a.begun ≠ some id) :
    a.starts = some id := by
  cases a with
  | startTask op => exact h
  | work op => exact absurd h hb
  | endTask op error => exact absurd h hb
  | _ => cases h

theorem Inv.stays_perform (h : s.Inv) (hcall : a :: rest ∈ s.calls)
    (hid : id ∈ s.cancelled) :
    ∃ op, (a.perform recoveryOf s.inventory s.disk t).inventory.operation id = some op ∧
      op.state = .cancelled := by
  obtain ⟨stored, hstored, hcancelled⟩ := h.stays id hid
  have hchange : Change s.inventory (a.perform recoveryOf s.inventory s.disk t).inventory id a :=
    change_perform a
  cases hchange with
  | same heq => exact ⟨stored, heq.trans hstored, hcancelled⟩
  | fresh hnone =>
    rw [hstored] at hnone
    cases hnone
  | cancelled op hget hstate => exact ⟨op, hget, hstate⟩
  | deleted old op hold hlive =>
    rw [hstored] at hold
    exact absurd (some.inj hold ▸ hcancelled) hlive
  | task op htask => exact absurd htask (h.idle id hid _ hcall a mem_cons_self)

theorem begun_perform
    (h : ∃ op, s.inventory.operation id = some op ∧ op.state ≠ .queued) :
    ∃ op, (a.perform recoveryOf s.inventory s.disk t).inventory.operation id = some op ∧
      op.state ≠ .queued := by
  obtain ⟨stored, hstored, hbegun⟩ := h
  have hchange : Change s.inventory (a.perform recoveryOf s.inventory s.disk t).inventory id a :=
    change_perform a
  cases hchange with
  | same heq => exact ⟨stored, heq.trans hstored, hbegun⟩
  | fresh hnone =>
    rw [hstored] at hnone
    cases hnone
  | cancelled op hget hstate =>
    refine ⟨op, hget, ?_⟩
    rw [hstate]
    decide
  | deleted old op _ _ hget hstate => exact ⟨op, hget, hstate⟩
  | task op _ hget hstate => exact ⟨op, hget, hstate⟩

theorem mem_act {b : Action} {c : List Action} (hcall : a :: rest ∈ s.calls)
    (hc : c ∈ (s.act recoveryOf k t a rest).calls) (hb : b ∈ c) :
    (∃ c' ∈ s.calls, b ∈ c') ∨
      ∃ more, (a.perform recoveryOf s.inventory s.disk t).next = some more ∧ b ∈ more := by
  rcases mem_or_eq_of_mem_set hc with hc | rfl
  · exact .inl ⟨c, hc, hb⟩
  · cases hnext : (a.perform recoveryOf s.inventory s.disk t).next with
    | none =>
      rw [hnext] at hb
      cases hb
    | some more =>
      rw [hnext] at hb
      rcases mem_append.mp hb with hb | hb
      · exact .inr ⟨more, rfl, hb⟩
      · exact .inl ⟨_, hcall, mem_cons_of_mem _ hb⟩

theorem Inv.no_task (h : s.Inv)
    (hok : ∀ c ∈ s.calls, ∀ b ∈ c, b.starts ≠ some id)
    (hqueued : ∃ op, s.inventory.operation id = some op ∧ op.state = .queued) :
    ∀ c ∈ s.calls, ∀ b ∈ c, b.task ≠ some id := by
  intro c hc b hb htask
  by_cases hbegun : b.begun = some id
  · obtain ⟨op, hop, hstate⟩ := h.begun c hc b hb id hbegun
    obtain ⟨op', hop', hstate'⟩ := hqueued
    rw [hop] at hop'
    exact hstate (some.inj hop' ▸ hstate')
  · exact hok c hc b hb (starts_of_task htask hbegun)

theorem Inv.idle_act (h : s.Inv) (hcall : a :: rest ∈ s.calls)
    (hok : t.committed ≠ 0 → ∀ id ∈ s.inventory.withdraws a, ∀ c ∈ s.calls, ∀ b ∈ c,
      b.starts ≠ some id)
    (hid : id ∈ (s.act recoveryOf k t a rest).cancelled) :
    ∀ c ∈ (s.act recoveryOf k t a rest).calls, ∀ b ∈ c, b.task ≠ some id := by
  intro c hc b hb htask
  have hmine (hold : ∀ c ∈ s.calls, ∀ b ∈ c, b.task ≠ some id)
      (hread : ∀ op, s.inventory.operation id = some op → op.state ≠ .cancelled →
        (a.perform recoveryOf s.inventory s.disk t).inventory = s.inventory → False) : False := by
    rcases mem_act hcall hc hb with ⟨c', hc', hb'⟩ | ⟨more, hnext, hb'⟩
    · exact hold c' hc' b hb' htask
    · rcases task_of_next hnext hb' htask with ⟨-, op, hop, hlive, hsame⟩ | ⟨hsource, -⟩
      · exact hread op hop hlive hsame
      · exact hold _ hcall a mem_cons_self hsource
  rcases mem_append.mp hid with hold | hnew
  · refine hmine (h.idle id hold) fun op hop hlive _ => ?_
    obtain ⟨op', hop', hstate⟩ := h.stays id hold
    rw [hop] at hop'
    exact hlive (some.inj hop' ▸ hstate)
  · split at hnew
    · cases hnew
    · next hn =>
      have hqueued := queued_of_withdraws hnew
      refine hmine (h.no_task (hok hn id hnew) hqueued) fun op hop _ hsame => ?_
      obtain ⟨op', hop', hstate⟩ := hqueued
      have hwritten : ∃ op, (a.perform recoveryOf s.inventory s.disk t).inventory.operation id =
          some op ∧ op.state = .cancelled := cancelled_of_withdraws hn hnew
      obtain ⟨op'', hop'', hstate'⟩ := hwritten
      rw [hsame, hop'] at hop''
      rw [some.inj hop'', hstate'] at hstate
      cases hstate

/-- **What is cancelled takes nothing away.** -/
theorem Inv.removes (h : s.Inv) (hcall : a :: rest ∈ s.calls)
    (hremoves : a.removes = some id) (hid : id ∈ s.cancelled) :
    Custody.gone s.disk (a.perform recoveryOf s.inventory s.disk t).disk = [] := by
  cases a with
  | executeDelete key =>
    obtain rfl : key = id := some.inj hremoves
    obtain ⟨op, hop, hstate⟩ := h.stays key hid
    have hsame : (executeDelete t.deletion s.inventory s.disk key).disk = s.disk :=
      (executeDelete_settled hop fun _ => by rw [hstate]; rfl).2
    change Custody.gone s.disk (executeDelete t.deletion s.inventory s.disk key).disk = []
    rw [hsame]
    exact gone_self s.disk
  | work op => exact absurd hremoves (h.idle id hid _ hcall _ mem_cons_self)
  | _ => cases hremoves

theorem Inv.act (h : s.Inv) (hcall : a :: rest ∈ s.calls)
    (hok : t.committed ≠ 0 → ∀ id ∈ s.inventory.withdraws a, ∀ c ∈ s.calls, ∀ b ∈ c,
      b.starts ≠ some id) :
    (s.act recoveryOf k t a rest).Inv where
  stays id hid := by
    rcases mem_append.mp hid with hold | hnew
    · exact h.stays_perform hcall hold
    · split at hnew
      · cases hnew
      · next hn => exact cancelled_of_withdraws hn hnew
  idle id hid := h.idle_act hcall hok hid
  begun c hc b hb id hbegun := by
    rcases mem_act hcall hc hb with ⟨c', hc', hb'⟩ | ⟨more, hnext, hb'⟩
    · exact begun_perform (h.begun c' hc' b hb' id hbegun)
    · rcases task_of_next hnext hb' (task_of_begun hbegun) with ⟨hnone, -⟩ | ⟨-, hmine | hwritten⟩
      · rw [hbegun] at hnone
        cases hnone
      · exact begun_perform (h.begun _ hcall a mem_cons_self id hmine)
      · exact hwritten
  removals r hr := by
    rcases mem_append.mp hr with hnew | hold
    · split at hnew
      · cases hnew
      · next hgone =>
        obtain ⟨id, hid, rfl⟩ := mem_map.mp hnew
        refine decide_eq_false fun hmem => hgone ?_
        exact h.removes hcall (mem_toList.mp hid) hmem
    · exact h.removals r hold

theorem Inv.call (h : s.Inv) (c : Invocation) : (s.step recoveryOf (.call c)).Inv := by
  have hnone : ∀ a ∈ c.actions, a.task = none := by cases c <;> simp [Invocation.actions, Action.task]
  have hcalls {c' : List Action} (hc' : c' ∈ s.calls ++ [c.actions]) {a : Action} {id : Text}
      (ha : a ∈ c') (htask : a.task = some id) : c' ∈ s.calls := by
    rcases mem_append.mp hc' with hc' | hc'
    · exact hc'
    · rw [mem_singleton.mp hc'] at ha
      rw [hnone a ha] at htask
      cases htask
  refine ⟨h.stays, fun id hid c' hc' a ha htask => ?_, fun c' hc' a ha id hbegun => ?_, h.removals⟩
  · exact h.idle id hid c' (hcalls hc' ha htask) a ha htask
  · exact h.begun c' (hcalls hc' ha (task_of_begun hbegun)) a ha id hbegun

end Floor

/-- **An accepted cancellation is final,** as long as none comes between the reading of a task and
its start. -/
theorem final_of_run {recoveryOf : Text → Option Text} {s : Floor} (h : s.Reached recoveryOf) :
    s.Final := by
  have hinv : s.Inv := by
    refine Run.invariant (P := Floor.Inv) (fun s hs => ?_) ?_ h
    · constructor
      · simp [hs.cancelled]
      · simp [hs.cancelled]
      · simp [hs.calls]
      · simp [hs.removals]
    · rintro s i _ hinv hok rfl
      cases i with
      | call c => exact hinv.call c
      | turn k t =>
        simp only [Floor.step]
        split
        · next a rest hcall =>
          refine hinv.act (mem_of_getElem? hcall) fun hn => hok hn a ?_
          rw [hcall]
          rfl
        · exact hinv
      | outside disk => exact { hinv with }
  exact ⟨hinv.stays, hinv.removals⟩

/-! ### Two runs -/

namespace Floor

instance (s : Floor) (i : FloorStep) : Decidable (s.Undisturbed i) := by
  unfold Undisturbed
  split <;> infer_instance

end Floor

/-- A consumer has imported the one file of the payload. -/
def importedRecovery : Recovery where
  id := text "r"
  artifact := text "a"
  generation := text "g"
  requestId := text "q"
  request := (text "a", 1, [[osName "f"]], [osName "s"])
  state := .imported
  manifestDigest := []
  files := [⟨text "1", [osName "f"], 10, text "d"⟩]
  published := [osName "s", osName "r"]
  consumer := some (text "c")
  importId := some (text "i")
  receipt := some ⟨text "i", [], [⟨text "1", 10, text "d", .imported⟩]⟩
  error := none

def importedFloor : Floor where
  inventory := { parked.inventory with recoveries := [importedRecovery] }
  disk := parkedDisk
  calls := []
  cancelled := []
  removals := []

def toldAt (now : Int) : Told where
  now := now
  committed := 1
  deletion := answersAt now none
  prune := ⟨answersAt now none, answersAt now none, answersAt now none, fun _ => .ok (text "d")⟩
  elapsed := fun _ => 0
  keys := []
  rows := none
  error := none
  scan := none

/-- A prune is asked for, and cancelled before anybody looks at it. -/
def cancelledInTime : List FloorStep :=
  [.call (.submitTask .prune (text "a") (text "p") (text "r")), .turn 0 (toldAt 0),
    .call (.cancelDelete (text "p")), .turn 1 (toldAt 9), .call (.executeTask (text "p")),
    .turn 2 (toldAt 10)]

theorem final_of_run_inTime :
    let s := cancelledInTime.foldl (Floor.step some) importedFloor
    s.Reached some ∧ s.cancelled = [text "p"] ∧ s.removals = [] ∧ s.Final := by
  have hreached : (cancelledInTime.foldl (Floor.step some) importedFloor).Reached some :=
    Run.foldl (.start ⟨rfl, rfl, rfl⟩) (by decide +kernel)
  exact ⟨hreached, by decide +kernel, by decide +kernel, final_of_run hreached⟩

/-- The runner has read the row when the cancellation is accepted. -/
def cancelledBetween : List FloorStep :=
  [.call (.submitTask .prune (text "a") (text "p") (text "r")), .turn 0 (toldAt 0),
    .call (.executeTask (text "p")), .turn 1 (toldAt 10), .call (.cancelDelete (text "p")),
    .turn 2 (toldAt 10), .turn 1 (toldAt 10), .turn 1 (toldAt 10), .turn 1 (toldAt 10)]

/-- **The cancelled prune takes the file away**, and its row says that it has succeeded. -/
theorem pruned_after_cancel : importedFloor.Start ∧
    let s := cancelledBetween.foldl (Floor.step some) importedFloor
    s.cancelled = [text "p"] ∧ s.removals = [(text "p", true)] ∧
      (s.inventory.operation (text "p")).map (·.state) = some .succeeded ∧ ¬s.Final := by
  have hremovals : (cancelledBetween.foldl (Floor.step some) importedFloor).removals =
      [(text "p", true)] := by decide +kernel
  refine ⟨⟨rfl, rfl, rfl⟩, by decide +kernel, hremovals, by decide +kernel, fun h => ?_⟩
  have hnot := h.removesNothing (text "p", true) (by rw [hremovals]; exact .head _)
  cases hnot

end Nzbd.Artifacts
