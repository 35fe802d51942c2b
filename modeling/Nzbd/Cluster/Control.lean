import Nzbd.Cluster.Work
import Nzbd.Engine.Step

/-!
# The replicated queue

`control_jobs` has one row a job id, deleted jobs included: the id is the
primary key and no row is ever taken out.  A request is committed as the list of
rows it changes (`delta`), in one transaction of inserts and receipts; a receipt
names the revision it expects and raises it.

A new row gets its incarnation from the digest of its first intent and keeps it
for good, also when the row is deleted and written again.

`Committed` says what a commit may do to the table.  The digest is a parameter;
`incarnation` writes it in hexadecimal.
-/

namespace Nzbd

open List
open Engine (Owner World)

structure ControlRow where
  jobId : JobId
  incarnation : Text
  revision : Nat
  intent : Job
  deleted : Bool
  deriving DecidableEq

/-- A job and the row it should have; `none` deletes. -/
abbrev Change := JobId × Option Job

variable (digest : Job → Nat)

def hexDigest (j : Job) : Text := Numeral.padded 16 64 (digest j)

/-- The incarnation of a job admitted by a request. -/
def jobIncarnation (j : Job) : Text := text "job-" ++ hexDigest digest j

/-- The incarnation of a job of the queue the cluster started from. -/
def legacyIncarnation (j : Job) : Text := text "legacy-" ++ hexDigest digest j

def rowIds (rows : List ControlRow) : List JobId := rows.map (·.jobId)

def findRow (rows : List ControlRow) (id : JobId) : Option ControlRow :=
  rows.find? (·.jobId = id)

/-- A database integer: positive, and within 63 bits. -/
def i64Value (label : Text) (value : Nat) : Except Text Nat :=
  if value = 0 then .error (label ++ text " must be greater than zero")
  else if value < 2 ^ 63 then .ok value
  else .error (label ++ text " is too large: out of range integral type conversion attempted")

/-! ### Transactions -/

inductive Statement
  | insert (row : ControlRow)
  | receipt (jobId : JobId) (expected applied : Nat) (next : Job) (deleted : Bool)

/-- An insert into `command_receipts` runs the two triggers on it: the revision
is checked, and the row written. -/
def Statement.exec (rows : List ControlRow) : Statement → Except Text (List ControlRow)
  | .insert row =>
    if row.jobId ∈ rowIds rows then .error (text "UNIQUE constraint failed: control_jobs.job_id")
    else .ok (rows ++ [row])
  | .receipt id expected applied next deleted =>
    if rows.any (fun r => r.jobId = id && r.revision = expected) then
      .ok (rows.map fun r => if r.jobId = id ∧ r.revision = expected then
        { r with revision := applied, intent := next, deleted := deleted } else r)
    else .error (text "stale job revision")

/-- All of it or nothing. -/
def txn (rows : List ControlRow) : List Statement → Except Text (List ControlRow)
  | [] => .ok rows
  | s :: ss => (s.exec rows).bind fun rows => txn rows ss

/-! ### Reading the table -/

def loadJobs (rows : List ControlRow) : List Job :=
  ((rows.filter fun r => !r.deleted).insertionSort (·.jobId ≤ ·.jobId)).map (·.intent)

/-! ### Writing the table -/

/-- The queue of the time before the cluster becomes the first rows. -/
def migrateLegacySnapshot (doc : QueueSnapshotDoc) : Except Text (List ControlRow) :=
  txn [] <| doc.jobs.map fun j => .insert
    { jobId := j.id
      incarnation := legacyIncarnation digest j
      revision := 1
      intent := j
      deleted := false }

/-- What a change asks of the transaction; nothing if the row says so already. -/
def statementFor (rows : List ControlRow) (c : Change) : Except Text (List Statement) :=
  (i64Value (text "job id") c.1).bind fun id =>
    match findRow rows id, c.2 with
    | none, none => .error (text "request attempted to delete unknown job " ++ showNat id)
    | none, some intent => .ok [.insert
        { jobId := id
          incarnation := jobIncarnation digest intent
          revision := 1
          intent := intent
          deleted := false }]
    | some row, desired =>
      let deleted := desired.isNone
      let next := desired.getD row.intent
      if row.deleted = deleted ∧ (deleted = true ∨ next = row.intent) then .ok []
      else
        (i64Value (text "expected revision") row.revision).bind fun expected =>
          (i64Value (text "applied revision") (row.revision + 1)).bind fun applied =>
            .ok [.receipt id expected applied next deleted]

/-- Every row is read before any is written. -/
def statements (rows : List ControlRow) : List Change → Except Text (List Statement)
  | [] => .ok []
  | c :: cs => (statementFor digest rows c).bind fun s =>
    (statements rows cs).bind fun ss => .ok (s ++ ss)

def commitJobDelta (rows : List ControlRow) (changes : List Change) :
    Except Text (List ControlRow) :=
  (statements digest rows changes).bind (txn rows)

/-- One receipt on its own; `none` is a conflict.  A receipt is named after the
revision it expects, so the current revision has none yet. -/
def applyCommand (rows : List ControlRow) (id : JobId) (expected : Nat) (next : Job)
    (deleted : Bool) : Except Text (Option (List ControlRow)) :=
  (i64Value (text "job id") id).bind fun id =>
    (i64Value (text "expected revision") expected).bind fun expected =>
      (i64Value (text "applied revision") (expected + 1)).bind fun applied =>
        match (Statement.receipt id expected applied next deleted).exec rows with
        | .ok rows => .ok (some rows)
        | .error _ => .ok none

/-- Insert a row unless there is one. -/
def seedJob (rows : List ControlRow) (id : JobId) (incarnation : Text) (intent : Job) :
    List ControlRow :=
  if id ∈ rowIds rows then rows
  else rows ++ [{ jobId := id, incarnation := incarnation, revision := 1, intent := intent,
                  deleted := false }]

/-- Bring one row in line with the queue; the table it leaves behind. -/
def reconcileJob (id : JobId) (job : Option Job) : Nat → List ControlRow → List ControlRow
  | 0, rows => rows
  | attempts + 1, rows =>
    if (i64Value (text "job id") id).isOk = false then rows
    else
      match findRow rows id with
      | none =>
        match job with
        | none => rows
        | some intent =>
          reconcileJob id job attempts (seedJob rows id (jobIncarnation digest intent) intent)
      | some row =>
        let deleted := job.isNone
        if row.deleted = deleted ∧ job.all (· = row.intent) then rows
        else
          match applyCommand rows id row.revision (job.getD row.intent) deleted with
          | .error _ => rows
          | .ok (some rows) => rows
          | .ok none => reconcileJob id job attempts rows

def urlOf (j : Job) : Option (Text × Text) := j.params.find? (·.1 = urlParam)

/-- The fetched NZB of a URL job, over its placeholder. -/
def commitUrlResolution (rows : List ControlRow) (job : Job) : Except Text (List ControlRow) :=
  (i64Value (text "job id") job.id).bind fun id =>
    match findRow rows id with
    | none => .error (text "URL placeholder is not durable")
    | some row =>
      if row.deleted ∨ row.intent.status ≠ .fetching ∨ job.status = .fetching ∨
          row.intent.id ≠ job.id ∨ urlOf row.intent ≠ urlOf job then
        .error (text "URL resolution no longer matches its durable placeholder")
      else
        (applyCommand rows id row.revision job false).bind fun
          | some rows => .ok rows
          | none => .error (text "URL resolution lost a revision race")

/-- A published result replaces the intent of a live row, if incarnation and
revision are those of the lease. -/
def publishResult (rows : List ControlRow) (incarnation : Text) (expected : Nat) (result : Job) :
    Option (List ControlRow) :=
  if rows.any (fun r => r.jobId = result.id && r.incarnation = incarnation &&
      r.revision = expected && !r.deleted) then
    some (rows.map fun r => if r.jobId = result.id then
      { r with intent := result, revision := r.revision + 1 } else r)
  else none

/-! ### The queue of the authority -/

def delta (before after : QueueState) : List Change :=
  ((before.jobs ++ after.jobs).map (·.id)).dedup.filterMap fun id =>
    if before.job id = after.job id then none else some (id, after.job id)

/-- The queue made of the live rows: what is pending is forgotten, and the
counters start at the largest id there is. -/
def QueueState.adoptReplicated (s : QueueState) (jobs : List Job) : QueueState :=
  { s with
    jobs := jobs.map recomputeJobTotals
    pendingAdmissions := []
    nextJobId := (jobs.map (·.id)).foldl max 0
    nextFileId := (jobs.flatMap fun j => j.files.map (·.id)).foldl max 0 }

theorem adoptReplicatedAuthority_state {w : World} (o : Owner) (jobs : List Job) :
    (o.adoptReplicatedAuthority w jobs).state = o.state.adoptReplicated jobs :=
  Owner.saveSnapshot_state _

/-! ### The changes of a request -/

variable {id : JobId}

theorem mem_delta {a b : QueueState} {j : Job} (h : (id, some j) ∈ delta a b) :
    j.id = id ∧ id ∈ b.jobs.map (·.id) := by
  obtain ⟨i, -, hi⟩ := mem_filterMap.mp h
  rw [Option.ite_none_left_eq_some, Option.some.injEq, Prod.mk.injEq] at hi
  obtain ⟨-, rfl, hj⟩ := hi
  have hid : j.id = i := job_find hj
  exact ⟨hid, hid ▸ mem_map_of_mem (mem_of_find?_eq_some hj)⟩

theorem nodup_delta (a b : QueueState) : ((delta a b).map (·.1)).Nodup := by
  rw [delta, map_filterMap]
  refine List.Nodup.filterMap ?_ (nodup_dedup _)
  intro i i' b hi hi'
  simp only [Option.mem_def, Option.map_eq_some_iff, Option.ite_none_left_eq_some,
    Option.some.injEq] at hi hi'
  obtain ⟨-, ⟨-, rfl⟩, rfl⟩ := hi
  obtain ⟨-, ⟨-, rfl⟩, h⟩ := hi'
  exact h.symm

/-! ### What a commit does to identities -/

theorem ok_of_bind {ε α β : Type*} {x : Except ε α} {f : α → Except ε β} {b : β}
    (h : x.bind f = .ok b) : ∃ a, x = .ok a ∧ f a = .ok b := by
  cases x with
  | error e => exact absurd h (by simp [Except.bind])
  | ok a => exact ⟨a, rfl, h⟩

/-- The job ids and incarnations of the table. -/
def identities (rows : List ControlRow) : List (JobId × Text) :=
  rows.map fun r => (r.jobId, r.incarnation)

theorem rowIds_eq (rows : List ControlRow) : rowIds rows = (identities rows).map (·.1) := by
  simp [rowIds, identities, Function.comp_def]

/-- The identities a transaction asks for. -/
def inserted (ss : List Statement) : List (JobId × Text) :=
  ss.filterMap fun
    | .insert row => some (row.jobId, row.incarnation)
    | .receipt .. => none

variable {rows rows' : List ControlRow}

theorem identities_receipt {expected applied : Nat}
    {next : Job} {deleted : Bool}
    (h : (Statement.receipt id expected applied next deleted).exec rows = .ok rows') :
    identities rows' = identities rows := by
  rw [Statement.exec] at h
  split at h
  · obtain rfl := Except.ok.inj h
    rw [identities, identities, map_map]
    refine map_congr_left fun r _ => ?_
    simp only [Function.comp_apply]
    split <;> rfl
  · exact absurd h (by simp)

/-- **A transaction only adds identities, and never one that is there.** -/
theorem identities_txn {ss : List Statement}
    (h : txn rows ss = .ok rows') (hn : (rowIds rows).Nodup) :
    identities rows' = identities rows ++ inserted ss ∧ (rowIds rows').Nodup := by
  induction ss generalizing rows with
  | nil =>
    obtain rfl := Except.ok.inj h
    exact ⟨(append_nil _).symm, hn⟩
  | cons s ss ih =>
    obtain ⟨mid, hs, hrest⟩ := ok_of_bind h
    cases s with
    | insert row =>
      rw [Statement.exec] at hs
      split at hs
      · exact absurd hs (by simp)
      next hnew =>
      obtain rfl := Except.ok.inj hs
      have hmid : (rowIds (rows ++ [row])).Nodup := by
        rw [rowIds, map_append]
        exact List.Nodup.append hn (by simp) (by simpa [rowIds] using hnew)
      obtain ⟨hids, hn'⟩ := ih hrest hmid
      refine ⟨?_, hn'⟩
      rw [hids, identities, map_append, append_assoc]
      rfl
    | receipt id expected applied next deleted =>
      have hmid := identities_receipt hs
      obtain ⟨hids, hn'⟩ := ih hrest (by rw [rowIds_eq, hmid, ← rowIds_eq]; exact hn)
      refine ⟨?_, hn'⟩
      rw [hids, hmid]
      rfl

def MadeFrom (j : Job) (incarnation : Text) : Prop :=
  incarnation = jobIncarnation digest j ∨ incarnation = legacyIncarnation digest j

/-- What a commit of changes may do to the identities: new ones for changes that
had no row. -/
structure Committed (rows rows' : List ControlRow) (changes : List Change) : Prop where
  nodup : (rowIds rows').Nodup
  kept : ∀ p ∈ identities rows, p ∈ identities rows'
  origin : ∀ p ∈ identities rows', p ∈ identities rows ∨
    p.1 ∉ rowIds rows ∧ ∃ j, (p.1, some j) ∈ changes ∧ MadeFrom digest j p.2
  written : ∀ id j, (id, some j) ∈ changes → id ∈ rowIds rows'

variable {rows : List ControlRow}

theorem mem_rowIds :
    id ∈ rowIds rows ↔ ∃ p ∈ identities rows, p.1 = id := by
  rw [rowIds_eq, mem_map]

theorem findRow_isSome :
    (findRow rows id).isSome = true ↔ id ∈ rowIds rows := by
  simp [findRow, rowIds, find?_isSome]

theorem i64Value_ok {label : Text} {value v : Nat} (h : i64Value label value = .ok v) :
    v = value := by
  rw [i64Value] at h
  split at h
  · exact absurd h (by simp)
  · split at h
    · exact (Except.ok.inj h).symm
    · exact absurd h (by simp)

variable {changes : List Change}

/-- The transaction adds what it inserts, so it does what a commit may do if its
inserts come from changes and cover those without a row. -/
theorem committed_txn {ss : List Statement}
    (hn : (rowIds rows).Nodup) (h : txn rows ss = .ok rows')
    (hfrom : ∀ p ∈ inserted ss, p.1 ∉ rowIds rows ∧
      ∃ j, (p.1, some j) ∈ changes ∧ MadeFrom digest j p.2)
    (hall : ∀ id j, (id, some j) ∈ changes → id ∈ rowIds rows ∨ ∃ p ∈ inserted ss, p.1 = id) :
    Committed digest rows rows' changes := by
  obtain ⟨hids, hn'⟩ := identities_txn h hn
  refine ⟨hn', ?_, ?_, ?_⟩
  · intro p hp
    rw [hids]
    exact mem_append_left _ hp
  · intro p hp
    rw [hids] at hp
    rcases mem_append.mp hp with hp | hp
    · exact .inl hp
    · exact .inr (hfrom p hp)
  · intro id j hc
    rw [mem_rowIds, hids]
    rcases hall id j hc with hr | ⟨p, hp, rfl⟩
    · obtain ⟨p, hp, rfl⟩ := mem_rowIds.mp hr
      exact ⟨p, mem_append_left _ hp, rfl⟩
    · exact ⟨p, mem_append_right _ hp, rfl⟩

theorem inserted_statementFor {c : Change} {ss : List Statement}
    (h : statementFor digest rows c = .ok ss) :
    (∀ p ∈ inserted ss, p.1 ∉ rowIds rows ∧ ∃ j, c = (p.1, some j) ∧ MadeFrom digest j p.2) ∧
      (∀ j, c.2 = some j → c.1 ∈ rowIds rows ∨ ∃ p ∈ inserted ss, p.1 = c.1) := by
  obtain ⟨id, desired⟩ := c
  obtain ⟨v, hid, h⟩ := ok_of_bind h
  obtain rfl := i64Value_ok hid
  cases hrow : findRow rows v with
  | none =>
    have hnew : v ∉ rowIds rows := by
      rw [← findRow_isSome, hrow]
      simp
    cases desired with
    | none => rw [hrow] at h; exact absurd h (by simp)
    | some intent =>
      rw [hrow] at h
      obtain rfl := Except.ok.inj h
      refine ⟨?_, ?_⟩
      · intro p hp
        obtain rfl := mem_singleton.mp hp
        exact ⟨hnew, intent, rfl, .inl rfl⟩
      · intro j _
        exact .inr ⟨_, mem_singleton_self _, rfl⟩
  | some row =>
    have hold : v ∈ rowIds rows := findRow_isSome.mp (by rw [hrow]; rfl)
    have hnone : inserted ss = [] := by
      rw [hrow] at h
      simp only at h
      split at h
      · obtain rfl := Except.ok.inj h
        rfl
      · obtain ⟨expected, -, h⟩ := ok_of_bind h
        obtain ⟨applied, -, h⟩ := ok_of_bind h
        obtain rfl := Except.ok.inj h
        rfl
    rw [hnone]
    exact ⟨by simp, fun _ _ => .inl hold⟩

theorem inserted_append (ss ts : List Statement) :
    inserted (ss ++ ts) = inserted ss ++ inserted ts := filterMap_append

theorem inserted_statements
    {ss : List Statement} (h : statements digest rows changes = .ok ss) :
    (∀ p ∈ inserted ss, p.1 ∉ rowIds rows ∧
      ∃ j, (p.1, some j) ∈ changes ∧ MadeFrom digest j p.2) ∧
    (∀ id j, (id, some j) ∈ changes → id ∈ rowIds rows ∨ ∃ p ∈ inserted ss, p.1 = id) := by
  induction changes generalizing ss with
  | nil =>
    obtain rfl := Except.ok.inj h
    exact ⟨by simp [inserted], by simp⟩
  | cons c cs ih =>
    obtain ⟨s, hc, h⟩ := ok_of_bind h
    obtain ⟨t, hcs, h⟩ := ok_of_bind h
    obtain rfl := Except.ok.inj h
    obtain ⟨hfrom, hall⟩ := inserted_statementFor digest hc
    obtain ⟨hfrom', hall'⟩ := ih hcs
    rw [inserted_append]
    refine ⟨?_, ?_⟩
    · intro p hp
      rcases mem_append.mp hp with hp | hp
      · obtain ⟨hnew, j, rfl, hj⟩ := hfrom p hp
        exact ⟨hnew, j, mem_cons_self, hj⟩
      · obtain ⟨hnew, j, hmem, hj⟩ := hfrom' p hp
        exact ⟨hnew, j, mem_cons_of_mem _ hmem, hj⟩
    · intro id j hm
      rcases mem_cons.mp hm with rfl | hm
      · rcases hall j rfl with hr | ⟨p, hp, he⟩
        · exact .inl hr
        · exact .inr ⟨p, mem_append_left _ hp, he⟩
      · rcases hall' id j hm with hr | ⟨p, hp, he⟩
        · exact .inl hr
        · exact .inr ⟨p, mem_append_right _ hp, he⟩

/-- **A committed request.** -/
theorem committed_commitJobDelta
    (hn : (rowIds rows).Nodup) (h : commitJobDelta digest rows changes = .ok rows') :
    Committed digest rows rows' changes := by
  obtain ⟨ss, hss, h⟩ := ok_of_bind h
  obtain ⟨hfrom, hall⟩ := inserted_statements digest hss
  exact committed_txn digest hn h hfrom hall

theorem committed_migrate {doc : QueueSnapshotDoc}
    (h : migrateLegacySnapshot digest doc = .ok rows) :
    Committed digest [] rows (doc.jobs.map fun j => (j.id, some j)) := by
  refine committed_txn digest nodup_nil h ?_ ?_
  · intro p hp
    obtain ⟨s, hs, he⟩ := mem_filterMap.mp hp
    obtain ⟨j, hj, rfl⟩ := mem_map.mp hs
    obtain rfl := Option.some.inj he
    exact ⟨by simp [rowIds], j, mem_map_of_mem hj, .inr rfl⟩
  · intro id j hc
    obtain ⟨k, hk, he⟩ := mem_map.mp hc
    obtain ⟨rfl, rfl⟩ : k.id = id ∧ k = j := by simpa using he
    refine .inr ⟨(k.id, legacyIncarnation digest k), ?_, rfl⟩
    exact mem_filterMap.mpr ⟨_, mem_map_of_mem hk, rfl⟩

theorem committed_of_identities
    (hn : (rowIds rows).Nodup) (h : identities rows' = identities rows)
    (hall : ∀ id j, (id, some j) ∈ changes → id ∈ rowIds rows) :
    Committed digest rows rows' changes := by
  have hids : rowIds rows' = rowIds rows := by rw [rowIds_eq, h, ← rowIds_eq]
  refine ⟨hids ▸ hn, fun p hp => h ▸ hp, fun p hp => .inl (h ▸ hp), ?_⟩
  intro id j hc
  rw [hids]
  exact hall id j hc

theorem identities_applyCommand {expected : Nat}
    {next : Job} {deleted : Bool}
    (h : applyCommand rows id expected next deleted = .ok (some rows')) :
    identities rows' = identities rows := by
  obtain ⟨v, -, h⟩ := ok_of_bind h
  obtain ⟨e, -, h⟩ := ok_of_bind h
  obtain ⟨a, -, h⟩ := ok_of_bind h
  split at h
  next rows₁ hexec =>
    obtain rfl := Option.some.inj (Except.ok.inj h)
    exact identities_receipt hexec
  next => exact absurd h (by simp)

theorem committed_commitUrlResolution {job : Job}
    (hn : (rowIds rows).Nodup) (h : commitUrlResolution rows job = .ok rows') :
    Committed digest rows rows' [(job.id, some job)] := by
  obtain ⟨v, hv, h⟩ := ok_of_bind h
  obtain rfl := i64Value_ok hv
  split at h
  next => exact absurd h (by simp)
  next row hrow =>
    split at h
    · exact absurd h (by simp)
    · obtain ⟨r, happly, h⟩ := ok_of_bind h
      cases r with
      | none => exact absurd h (by simp)
      | some rows₁ =>
        obtain rfl := Except.ok.inj h
        refine committed_of_identities digest hn (identities_applyCommand happly) ?_
        intro id j hc
        obtain ⟨rfl, -⟩ := Prod.mk.inj (mem_singleton.mp hc)
        exact findRow_isSome.mp (by rw [hrow]; rfl)

theorem identities_publishResult {incarnation : Text}
    {expected : Nat} {result : Job}
    (h : publishResult rows incarnation expected result = some rows') :
    identities rows' = identities rows := by
  rw [publishResult, Option.ite_none_right_eq_some, Option.some.injEq] at h
  obtain ⟨-, rfl⟩ := h
  rw [identities, identities, map_map]
  refine map_congr_left fun r _ => ?_
  simp only [Function.comp_apply]
  split <;> rfl

def carries (rows : List ControlRow) (id : JobId) (job : Job) : Bool :=
  (findRow rows id).any fun r => !r.deleted && r.intent = job

theorem mem_of_carries {job : Job}
    (h : carries rows id job = true) : id ∈ rowIds rows := by
  refine findRow_isSome.mp ?_
  cases hrow : findRow rows id with
  | none => exact absurd h (by simp [carries, hrow])
  | some r => rfl

def reconciled (rows : List ControlRow) (id : JobId) : Option Job → List Change
  | none => []
  | some job => if carries rows id job then [(id, some job)] else []

theorem findRow_seedJob (h : id ∉ rowIds rows)
    (incarnation : Text) (intent : Job) :
    findRow (seedJob rows id incarnation intent) id =
      some { jobId := id, incarnation := incarnation, revision := 1, intent := intent,
             deleted := false } := by
  have hnone : findRow rows id = none := by
    rw [← Option.not_isSome_iff_eq_none, findRow_isSome]
    exact h
  rw [seedJob, if_neg h, findRow, find?_append, ← findRow, hnone]
  simp

theorem reconcileJob_identities (id : JobId) (job : Option Job) (attempts : Nat)
    (rows : List ControlRow) :
    identities (reconcileJob digest id job attempts rows) = identities rows ∨
      ∃ intent, job = some intent ∧ id ∉ rowIds rows ∧
        reconcileJob digest id job attempts rows =
          seedJob rows id (jobIncarnation digest intent) intent := by
  induction attempts with
  | zero => exact .inl rfl
  | succ attempts ih =>
    rw [reconcileJob.eq_def]
    simp only
    split
    · exact .inl rfl
    next hid =>
      split
      next hnone =>
        cases job with
        | none => exact .inl rfl
        | some intent =>
          have hnew : id ∉ rowIds rows := by rw [← findRow_isSome, hnone]; simp
          refine .inr ⟨intent, rfl, hnew, ?_⟩
          -- the row that has just been written says what it should
          cases attempts with
          | zero => rfl
          | succ attempts =>
            simp only
            rw [reconcileJob.eq_def]
            simp only
            rw [if_neg hid, findRow_seedJob hnew]
            simp
      next row hrow =>
        split
        · exact .inl rfl
        · split
          next => exact .inl rfl
          next rows' happly => exact .inl (identities_applyCommand happly)
          next => exact ih

theorem committed_reconcileJob {job : Option Job} (attempts : Nat) (hn : (rowIds rows).Nodup) :
    Committed digest rows (reconcileJob digest id job attempts rows)
      (reconciled (reconcileJob digest id job attempts rows) id job) := by
  have hwritten : ∀ i j,
      (i, some j) ∈ reconciled (reconcileJob digest id job attempts rows) id job →
        i ∈ rowIds (reconcileJob digest id job attempts rows) := by
    intro i j hc
    cases job with
    | none => exact absurd hc (by simp [reconciled])
    | some intent =>
      rw [reconciled, mem_ite_nil_right, mem_singleton, Prod.mk.injEq] at hc
      obtain ⟨hcarry, rfl, -⟩ := hc
      exact mem_of_carries hcarry
  rcases reconcileJob_identities digest id job attempts rows with hids | ⟨intent, rfl, hnew, heq⟩
  · have hsame : rowIds (reconcileJob digest id job attempts rows) = rowIds rows := by
      rw [rowIds_eq, hids, ← rowIds_eq]
    exact committed_of_identities digest hn hids fun i j hc => hsame ▸ hwritten i j hc
  · have hseed : identities (seedJob rows id (jobIncarnation digest intent) intent) =
        identities rows ++ [(id, jobIncarnation digest intent)] := by
      rw [seedJob, if_neg hnew, identities, map_append]
      rfl
    have hcarry : carries (seedJob rows id (jobIncarnation digest intent) intent) id intent =
        true := by
      rw [carries, findRow_seedJob hnew]
      simp
    rw [heq] at hwritten ⊢
    refine ⟨?_, ?_, ?_, hwritten⟩
    · rw [rowIds_eq, hseed, map_append, ← rowIds_eq]
      exact List.Nodup.append hn (by simp) (by simpa using hnew)
    · intro p hp
      exact hseed ▸ mem_append_left _ hp
    · intro p hp
      rw [hseed] at hp
      rcases mem_append.mp hp with hp | hp
      · exact .inl hp
      · obtain rfl := mem_singleton.mp hp
        exact .inr ⟨hnew, intent, by simp [reconciled, hcarry], .inl rfl⟩

end Nzbd
