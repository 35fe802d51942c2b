import Nzbd.Cluster.Control

/-!
# The identity of a job

A job of the replicated queue is known by its id and its incarnation, its files
by the id of the job and their own.  Whatever workers hand back is filed under
these names.

The authority draws ids from a counter of its own queue, and every committed
request puts that queue back to what the live rows say, the counter included.
When the job with the highest id has been deleted, the counter falls behind the
table: the next job gets the id of a row that is there, and with it the
incarnation of the deleted job (`idReused_afterDelete`).

`ControlEvent.Current` is the condition that keeps the names apart: a request
that draws an id finds the counter at the highest id of the table or beyond.
`neverReused_of_run` says that nothing else is needed.
-/

namespace Nzbd

open List Runs QueueState

/-! ### What the operations of the queue do to ids -/

def jobIds (s : QueueState) : List JobId := s.jobs.map (·.id)

/-- The operation draws an id from the counter. -/
def QueueOp.allocates : QueueOp → Bool
  | .admitNzb .. => true
  | .admitUrl .. => true
  | .reserveTorrentAdmission => true
  | _ => false

/-- The ids in use come from the counter, and a reserved one has no job yet. -/
structure Drawn (s : QueueState) : Prop where
  jobs_le : ∀ id : Nat, id ∈ jobIds s → id ≤ s.nextJobId
  pending_le : ∀ id : Nat, id ∈ s.pendingAdmissions → id ≤ s.nextJobId
  apart : ∀ id ∈ s.pendingAdmissions, id ∉ jobIds s

/-- Where the ids of a queue come from: they were there, or they were drawn. -/
structure Grown (s t : QueueState) : Prop where
  le : s.nextJobId ≤ t.nextJobId
  jobs : ∀ id : Nat, id ∈ jobIds t →
    id ∈ jobIds s ∨ id ∈ s.pendingAdmissions ∨ s.nextJobId < id ∧ id ≤ t.nextJobId
  pending : ∀ id : Nat, id ∈ t.pendingAdmissions →
    id ∈ s.pendingAdmissions ∨ s.nextJobId < id ∧ id ≤ t.nextJobId

theorem Grown.refl (s : QueueState) : Grown s s :=
  ⟨le_rfl, fun _ h => .inl h, fun _ h => .inl h⟩

theorem Grown.trans {s t u : QueueState} (h : Grown s t) (g : Grown t u) : Grown s u where
  le := h.le.trans g.le
  jobs := by
    intro id hid
    have hst := h.le
    have htu := g.le
    rcases g.jobs id hid with hid | hid | hid
    · rcases h.jobs id hid with h | h | h
      · exact .inl h
      · exact .inr (.inl h)
      · exact .inr (.inr ⟨h.1, by omega⟩)
    · rcases h.pending id hid with h | h
      · exact .inr (.inl h)
      · exact .inr (.inr ⟨h.1, by omega⟩)
    · exact .inr (.inr ⟨by omega, hid.2⟩)
  pending := by
    intro id hid
    have hst := h.le
    have htu := g.le
    rcases g.pending id hid with hid | hid
    · rcases h.pending id hid with h | h
      · exact .inl h
      · exact .inr ⟨h.1, by omega⟩
    · exact .inr ⟨by omega, hid.2⟩

theorem jobIds_updateJob {s : QueueState} {id : JobId} {f : Job → Job}
    (hf : ∀ j, (f j).id = j.id) : jobIds (s.updateJob id f) = jobIds s :=
  map_modifyFirst fun j _ => hf j

theorem jobIds_setJobName (s : QueueState) (id : JobId) (name : Text)
    (storageToo provisional : Bool) :
    jobIds (s.setJobName id name storageToo provisional) = jobIds s :=
  jobIds_updateJob (renamed_id _ _ _ _)

variable (lower : Text → Text)

theorem apply_of_not_allocates (s : QueueState) {op : QueueOp}
    (h : op.allocates = false) :
    (op.apply lower s).nextJobId = s.nextJobId ∧
      (∀ id ∈ jobIds (op.apply lower s), id ∈ jobIds s ∨
        id ∈ s.pendingAdmissions ∧ id ∉ (op.apply lower s).pendingAdmissions) ∧
      ∀ id ∈ (op.apply lower s).pendingAdmissions, id ∈ s.pendingAdmissions := by
  have hsame : ∀ t : QueueState, t.nextJobId = s.nextJobId → jobIds t = jobIds s →
      t.pendingAdmissions = s.pendingAdmissions →
      t.nextJobId = s.nextJobId ∧
        (∀ id ∈ jobIds t, id ∈ jobIds s ∨ id ∈ s.pendingAdmissions ∧ id ∉ t.pendingAdmissions) ∧
        ∀ id ∈ t.pendingAdmissions, id ∈ s.pendingAdmissions :=
    fun t hn hj hp => ⟨hn, fun id hid => .inl (hj ▸ hid), fun id hid => hp ▸ hid⟩
  cases op with
  | admitNzb => exact absurd h (by simp [QueueOp.allocates])
  | admitUrl => exact absurd h (by simp [QueueOp.allocates])
  | reserveTorrentAdmission => exact absurd h (by simp [QueueOp.allocates])
  | completeUrlFetch id parsed pause =>
    simp only [QueueOp.apply, completeUrlFetch]
    split
    · exact hsame _ rfl rfl rfl
    · split
      · exact hsame _ rfl rfl rfl
      · exact hsame _ rfl (jobIds_updateJob (fillFetched_id parsed _)) rfl
  | cancelTorrentAdmission id =>
    exact ⟨rfl, fun _ hid => .inl hid, fun _ hid => (mem_filter.mp hid).1⟩
  | commitTorrentAdmission now id commit =>
    simp only [QueueOp.apply, commitTorrentAdmission]
    split
    · exact hsame _ rfl rfl rfl
    next hpending =>
      split
      · refine ⟨rfl, fun i hi => .inl ?_, fun _ hi => (mem_filter.mp hi).1⟩
        have hids : (s.jobs.modifyFirst (isDuplicate commit) fun job =>
            { job with params := commit.params.foldl setParam job.params }).map (·.id) =
              jobIds s := map_modifyFirst fun _ _ => rfl
        exact hids ▸ hi
      · refine ⟨rfl, ?_, fun _ hi => (mem_filter.mp hi).1⟩
        intro i hi
        rw [jobIds, map_append] at hi
        rcases mem_append.mp hi with hi | hi
        · exact .inl hi
        · obtain rfl : i = id := mem_singleton.mp hi
          refine .inr ⟨by simpa using hpending, ?_⟩
          simp [cancelTorrentAdmission]
  | setJobName id name storageToo provisional =>
    exact hsame _ rfl (jobIds_setJobName ..) rfl
  | nameFromRequestor id storageToo =>
    simp only [QueueOp.apply, nameFromRequestor]
    split
    · exact hsame _ rfl rfl rfl
    · split
      · exact hsame _ rfl rfl rfl
      · split
        · exact hsame _ rfl rfl rfl
        · exact hsame _ rfl (jobIds_setJobName ..) rfl
  | adoptLearnedName id name =>
    simp only [QueueOp.apply, adoptLearnedName]
    split
    · exact hsame _ rfl rfl rfl
    · split
      · exact hsame _ rfl (jobIds_setJobName ..) rfl
      · exact hsame _ rfl rfl rfl
  | edit => exact hsame _ rfl (jobIds_updateJob fun _ => rfl) rfl
  | remove id =>
    refine ⟨rfl, fun i hi => .inl ?_, fun _ hi => hi⟩
    obtain ⟨j, hj, rfl⟩ := mem_map.mp hi
    exact mem_map_of_mem (mem_filter.mp hj).1
  | reload now =>
    refine hsame _ rfl ?_ rfl
    simp only [QueueOp.apply, jobIds, fromDoc, toDoc,
      repairNamesAndDirectories]
    rw [separateDirs_ids]
    simp [Function.comp_def]

/-- **One operation.**  A drawn id is the next value of the counter. -/
theorem Drawn.apply {s : QueueState} (h : Drawn s) (op : QueueOp)
    (hroom : op.allocates = true → s.nextJobId + 1 < 2 ^ 32) :
    Drawn (op.apply lower s) ∧ Grown s (op.apply lower s) ∧
      (op.apply lower s).nextJobId ≤ s.nextJobId + 1 := by
  -- what the three operations that draw an id have in common
  have hdraw : ∀ t : QueueState, succU32 s.nextJobId = s.nextJobId + 1 →
      t.nextJobId = succU32 s.nextJobId →
      (jobIds t = jobIds s ++ [succU32 s.nextJobId] ∧ t.pendingAdmissions = s.pendingAdmissions ∨
        jobIds t = jobIds s ∧
          t.pendingAdmissions = s.pendingAdmissions ++ [succU32 s.nextJobId]) →
      Drawn t ∧ Grown s t ∧ t.nextJobId ≤ s.nextJobId + 1 := by
    intro t hsucc hnext hcases
    rw [hsucc] at hnext hcases
    rcases hcases with ⟨hjobs, hpending⟩ | ⟨hjobs, hpending⟩
    · refine ⟨⟨?_, ?_, ?_⟩, ⟨by omega, ?_, ?_⟩, hnext.le⟩
      · intro id hid
        rw [hjobs, mem_append, mem_singleton] at hid
        rcases hid with hid | rfl
        · have := h.jobs_le id hid
          omega
        · omega
      · intro id hid
        have := h.pending_le id (hpending ▸ hid)
        omega
      · intro id hid hjob
        rw [hpending] at hid
        rw [hjobs, mem_append, mem_singleton] at hjob
        rcases hjob with hjob | rfl
        · exact h.apart id hid hjob
        · have := h.pending_le _ hid
          omega
      · intro id hid
        rw [hjobs, mem_append, mem_singleton] at hid
        rcases hid with hid | rfl
        · exact .inl hid
        · exact .inr (.inr ⟨by omega, by omega⟩)
      · exact fun id hid => .inl (hpending ▸ hid)
    · refine ⟨⟨?_, ?_, ?_⟩, ⟨by omega, ?_, ?_⟩, hnext.le⟩
      · intro id hid
        have := h.jobs_le id (hjobs ▸ hid)
        omega
      · intro id hid
        rw [hpending, mem_append, mem_singleton] at hid
        rcases hid with hid | rfl
        · have := h.pending_le id hid
          omega
        · omega
      · intro id hid hjob
        rw [hjobs] at hjob
        rw [hpending, mem_append, mem_singleton] at hid
        rcases hid with hid | rfl
        · exact h.apart id hid hjob
        · have := h.jobs_le _ hjob
          omega
      · exact fun id hid => .inl (hjobs ▸ hid)
      · intro id hid
        rw [hpending, mem_append, mem_singleton] at hid
        rcases hid with hid | rfl
        · exact .inl hid
        · exact .inr ⟨by omega, by omega⟩
  have hsucc : op.allocates = true → succU32 s.nextJobId = s.nextJobId + 1 :=
    fun ha => Nat.mod_eq_of_lt (hroom ha)
  cases ha : op.allocates with
  | false =>
    obtain ⟨hnext, hjobs, hpending⟩ := apply_of_not_allocates lower s ha
    refine ⟨⟨?_, ?_, ?_⟩, ⟨hnext.ge, ?_, fun id hid => .inl (hpending id hid)⟩, by omega⟩
    · intro id hid
      rw [hnext]
      rcases hjobs id hid with hid | ⟨hid, -⟩
      · exact h.jobs_le id hid
      · exact h.pending_le id hid
    · intro id hid
      rw [hnext]
      exact h.pending_le id (hpending id hid)
    · intro id hid hjob
      rcases hjobs id hjob with hjob | ⟨-, hgone⟩
      · exact h.apart id (hpending id hid) hjob
      · exact hgone hid
    · intro id hid
      rcases hjobs id hid with hid | ⟨hid, -⟩
      · exact .inl hid
      · exact .inr (.inl hid)
  | true =>
    cases op with
    | admitNzb now name parsed category priority pause =>
      refine hdraw _ (hsucc ha) rfl (.inl ⟨?_, rfl⟩)
      exact map_append
    | admitUrl now name url category priority =>
      refine hdraw _ (hsucc ha) rfl (.inl ⟨?_, rfl⟩)
      exact map_append
    | reserveTorrentAdmission => exact hdraw _ (hsucc ha) rfl (.inr ⟨rfl, rfl⟩)
    | _ => exact absurd ha (by simp [QueueOp.allocates])

/-- The operations of one request. -/
def applyAll (lower : Text → Text) (s : QueueState) (ops : List QueueOp) : QueueState :=
  ops.foldl (fun s op => op.apply lower s) s

/-- How many ids a request draws. -/
def draws (ops : List QueueOp) : Nat := ops.countP (·.allocates)

/-- **A whole request.** -/
theorem Drawn.applyAll {ops : List QueueOp} {s : QueueState} (h : Drawn s)
    (hroom : draws ops ≠ 0 → s.nextJobId + draws ops < 2 ^ 32) :
    Drawn (applyAll lower s ops) ∧ Grown s (applyAll lower s ops) := by
  induction ops generalizing s with
  | nil => exact ⟨h, .refl s⟩
  | cons op ops ih =>
    cases ha : op.allocates with
    | false =>
      have hdraws : draws (op :: ops) = draws ops := countP_cons_of_neg (by simp [ha])
      rw [hdraws] at hroom
      obtain ⟨hdrawn, hgrown, -⟩ := h.apply lower op (by simp [ha])
      obtain ⟨hdrawn', hgrown'⟩ := ih hdrawn (by
        rw [(apply_of_not_allocates lower s ha).1]
        exact hroom)
      exact ⟨hdrawn', hgrown.trans hgrown'⟩
    | true =>
      have hdraws : draws (op :: ops) = draws ops + 1 := countP_cons_of_pos ha
      rw [hdraws] at hroom
      have hlt := hroom (by omega)
      obtain ⟨hdrawn, hgrown, hle⟩ := h.apply lower op (by intro _; omega)
      obtain ⟨hdrawn', hgrown'⟩ := ih hdrawn (by intro _; omega)
      exact ⟨hdrawn', hgrown.trans hgrown'⟩

theorem nextJobId_applyAll {ops : List QueueOp} {s : QueueState}
    (h : draws ops = 0) : (applyAll lower s ops).nextJobId = s.nextJobId := by
  induction ops generalizing s with
  | nil => rfl
  | cons op ops ih =>
    rw [draws, countP_eq_zero] at h
    have hop := apply_of_not_allocates lower s
      (Bool.not_eq_true _ ▸ h op mem_cons_self)
    refine (ih ?_).trans hop.1
    rw [draws, countP_eq_zero]
    exact fun o ho => h o (mem_cons_of_mem _ ho)

/-! ### The authority -/

/-- A job the rows have been given, with the ids its files have had. -/
structure Admitted where
  jobId : JobId
  incarnation : Text
  files : List FileId

structure Authority where
  rows : List ControlRow
  queue : QueueState
  /-- The jobs that have joined the queue since it was last made of the rows,
  and are in no row yet. -/
  fresh : List JobId
  /-- Every job the rows have been given, the last one first. -/
  log : List Admitted

inductive ControlEvent
  /-- What the queue does for a request; its changes are committed if the request
  succeeds. -/
  | request (ops : List QueueOp) (committed : Bool)
  /-- The queue is made of the live rows again, as it is after each request. -/
  | restore
  /-- Another owner takes office, with a queue of its own. -/
  | takeover (queue : QueueState)
  /-- A finished job moves to the history. -/
  | retire (id : JobId)
  | resolveUrl (id : JobId)
  /-- A worker's result for a lease of this incarnation and revision. -/
  | publish (incarnation : Text) (expected : Nat) (result : Job) (imported : Bool)
  | reconcile (id : JobId)

namespace Authority

def incarnationOf (rows : List ControlRow) (id : JobId) : Text :=
  ((findRow rows id).map (·.incarnation)).getD []

def addFiles (log : List Admitted) (id : JobId) (j : Job) : List Admitted :=
  log.modifyFirst (·.jobId = id) fun e => { e with files := e.files ++ j.files.map (·.id) }

/-- A job that is new to the queue, or to the rows, is one more job; any other
change is about the last job of that id. -/
def note (s : Authority) (rows : List ControlRow) (log : List Admitted) : Change → List Admitted
  | (_, none) => log
  | (id, some j) =>
    if id ∈ s.fresh ∨ id ∉ rowIds s.rows then
      { jobId := id, incarnation := incarnationOf rows id, files := j.files.map (·.id) } :: log
    else addFiles log id j

def commit (s : Authority) (rows : List ControlRow) (changes : List Change) : Authority :=
  { s with
    rows := rows
    fresh := s.fresh.filter fun id => !changes.any fun c => c.1 = id && c.2.isSome
    log := changes.foldl (s.note rows) s.log }

/-- The queue does something on its own. -/
def speculate (lower : Text → Text) (s : Authority) (ops : List QueueOp) : Authority :=
  let queue := applyAll lower s.queue ops
  { s with queue := queue, fresh := s.fresh ++ (jobIds queue).filter (· ∉ jobIds s.queue) }

def restore (s : Authority) : Authority :=
  { s with queue := s.queue.adoptReplicated (loadJobs s.rows), fresh := [] }

/-- A copy from a worker in the place of the job. -/
def importCopy (s : QueueState) (job : Job) : QueueState :=
  let job := Engine.Owner.normalizeJob job
  let s := Engine.Owner.raiseIds s job
  { s with jobs := (s.eraseJob job.id).jobs ++ [recomputeJobTotals job] }

def next (digest : Job → Nat) (lower : Text → Text) (s : Authority) : ControlEvent → Authority
  | .request ops committed =>
    let t := s.speculate lower ops
    if committed then
      let changes := delta s.queue t.queue
      match commitJobDelta digest s.rows changes with
      | .ok rows => t.commit rows changes
      | .error _ => t
    else t
  | .restore => s.restore
  | .takeover queue => { s with queue := queue }.restore
  | .retire id =>
    match commitJobDelta digest s.rows [(id, none)] with
    | .ok rows =>
      let t := s.commit rows [(id, none)]
      { t with queue := t.queue.eraseJob id }
    | .error _ => s
  | .resolveUrl id =>
    match s.queue.job id with
    | none => s
    | some job =>
      match commitUrlResolution s.rows job with
      | .ok rows => s.commit rows [(job.id, some job)]
      | .error _ => s
  | .publish incarnation expected result imported =>
    match publishResult s.rows incarnation expected result with
    | none => s
    | some rows =>
      { s with
        rows := rows
        log := addFiles s.log result.id result
        queue := if imported then importCopy s.queue result else s.queue }
  | .reconcile id =>
    let rows := reconcileJob digest id (s.queue.job id) 4 s.rows
    s.commit rows (reconciled rows id (s.queue.job id))

/-- Nobody has taken office yet. -/
def vacant : Authority where
  rows := []
  queue := .default
  fresh := []
  log := []

/-- The rows are those of the queue the cluster started from. -/
def Migrated (digest : Job → Nat) (s : Authority) : Prop :=
  ∃ doc rows, migrateLegacySnapshot digest doc = .ok rows ∧
    s = vacant.commit rows (doc.jobs.map fun j => (j.id, some j))

end Authority

def ControlRun (digest : Job → Nat) (lower : Text → Text)
    (ok : Authority → ControlEvent → Prop) : Authority → Prop :=
  Run (Authority.Migrated digest) (fun s e t => t = s.next digest lower e) ok

/-- **The condition on an event.**  A request that draws an id finds the counter
at the highest id of the table or beyond, and does not exhaust it. -/
def ControlEvent.Current (s : Authority) : ControlEvent → Prop
  | .request ops _ => draws ops ≠ 0 →
    (∀ id ∈ rowIds s.rows, s.queue.nextJobId ≥ id) ∧ s.queue.nextJobId + draws ops < 2 ^ 32
  | _ => True

/-- Nothing filed under one job is found under the other. -/
structure Admitted.Apart (digest : Job → Nat) (a b : Admitted) : Prop where
  identity : (a.jobId, a.incarnation) ≠ (b.jobId, b.incarnation)
  files : ∀ f ∈ a.files, ∀ g ∈ b.files, (a.jobId, f) ≠ (b.jobId, g)
  resources : ∀ scope scope' kind kind' r r', scope.IsOf a.jobId → scope'.IsOf b.jobId →
    grantResource a.jobId scope kind = some r → grantResource b.jobId scope' kind' = some r' →
    r ≠ r' ∧ ∀ fence fence' result result',
      publicationReceipt r fence result ≠ publicationReceipt r' fence' result'
  /-- Script receipts meet only if the digest of two intents does. -/
  scripts : ∀ key key', scriptReceipt a.incarnation key = scriptReceipt b.incarnation key' →
    ∃ i j, i ≠ j ∧ digest i = digest j

/-- **The property.** -/
def NeverReused (digest : Job → Nat) (log : List Admitted) : Prop :=
  log.Pairwise (Admitted.Apart digest)

/-! ### The invariant -/

namespace Authority

variable {digest : Job → Nat} {lower : Text → Text}

/-- **The invariant.**  The admitted jobs have ids of their own, and an id that
is fresh or reserved has no row. -/
structure Distinct (digest : Job → Nat) (s : Authority) : Prop where
  rows : (rowIds s.rows).Nodup
  queue : Drawn s.queue
  log : (s.log.map (·.jobId)).Nodup
  logged : ∀ e ∈ s.log, e.jobId ∈ rowIds s.rows
  origin : ∀ e ∈ s.log, ∃ j, j.id = e.jobId ∧ MadeFrom digest j e.incarnation
  fresh : ∀ id ∈ s.fresh, id ∉ rowIds s.rows
  pending : ∀ id ∈ s.queue.pendingAdmissions, id ∉ rowIds s.rows

@[simp] theorem addFiles_ids (log : List Admitted) (id : JobId) (j : Job) :
    (addFiles log id j).map (·.jobId) = log.map (·.jobId) := map_modifyFirst fun _ _ => rfl

theorem mem_addFiles {log : List Admitted} {id : JobId} {j : Job} {e : Admitted}
    (h : e ∈ addFiles log id j) :
    ∃ a ∈ log, a.jobId = e.jobId ∧ a.incarnation = e.incarnation := by
  rcases mem_modifyFirst h with h | ⟨a, ha, rfl⟩
  · exact ⟨e, h, rfl, rfl⟩
  · exact ⟨a, mem_of_find?_eq_some ha, rfl, rfl⟩

variable {s : Authority}

/-- What noting changes does to the log: ids stay distinct if those without a row
are not logged, and an entry is an old one or of such a change. -/
theorem note_log (rows : List ControlRow)
    (hfresh : ∀ id ∈ s.fresh, id ∉ rowIds s.rows) {changes : List Change} {log : List Admitted}
    (hchanges : (changes.map (·.1)).Nodup) (hlog : (log.map (·.jobId)).Nodup)
    (hnew : ∀ c ∈ changes, c.1 ∉ rowIds s.rows → c.1 ∉ log.map (·.jobId)) :
    ((changes.foldl (s.note rows) log).map (·.jobId)).Nodup ∧
      ∀ e ∈ changes.foldl (s.note rows) log,
        (∃ a ∈ log, a.jobId = e.jobId ∧ a.incarnation = e.incarnation) ∨
          e.jobId ∉ rowIds s.rows ∧ (∃ j, (e.jobId, some j) ∈ changes) ∧
            e.incarnation = incarnationOf rows e.jobId := by
  induction changes generalizing log with
  | nil => exact ⟨hlog, fun e he => .inl ⟨e, he, rfl, rfl⟩⟩
  | cons c changes ih =>
    obtain ⟨id, job⟩ := c
    rw [map_cons, nodup_cons] at hchanges
    have hlater : ∀ c ∈ changes, c.1 ≠ id := by
      rintro c hc rfl
      exact hchanges.1 (mem_map.mpr ⟨c, hc, rfl⟩)
    -- the log after the first change
    have hfirst : ((s.note rows log (id, job)).map (·.jobId)).Nodup ∧
        (∀ i ∈ (s.note rows log (id, job)).map (·.jobId), i ∈ log.map (·.jobId) ∨ i = id) ∧
        ∀ e ∈ s.note rows log (id, job),
          (∃ a ∈ log, a.jobId = e.jobId ∧ a.incarnation = e.incarnation) ∨
            e.jobId ∉ rowIds s.rows ∧ (∃ j, (e.jobId, some j) ∈ (id, job) :: changes) ∧
              e.incarnation = incarnationOf rows e.jobId := by
      cases job with
      | none => exact ⟨hlog, fun i hi => .inl hi, fun e he => .inl ⟨e, he, rfl, rfl⟩⟩
      | some j =>
        rw [note]
        split
        next hid =>
          have hrow : id ∉ rowIds s.rows := hid.elim (hfresh id) fun h => h
          refine ⟨?_, ?_, ?_⟩
          · rw [map_cons, nodup_cons]
            exact ⟨hnew _ mem_cons_self hrow, hlog⟩
          · intro i hi
            rw [map_cons, mem_cons] at hi
            exact hi.symm
          · intro e he
            rcases mem_cons.mp he with rfl | he
            · exact .inr ⟨hrow, ⟨j, mem_cons_self⟩, rfl⟩
            · exact .inl ⟨e, he, rfl, rfl⟩
        next =>
          rw [addFiles_ids]
          exact ⟨hlog, fun i hi => .inl hi, fun e he => .inl (mem_addFiles he)⟩
    obtain ⟨hlog₁, hids₁, hfrom₁⟩ := hfirst
    obtain ⟨hnodup, hfrom⟩ := ih hchanges.2 hlog₁ (by
      intro c hc hrow hm
      rcases hids₁ _ hm with hm | he
      · exact hnew c (mem_cons_of_mem _ hc) hrow hm
      · exact hlater c hc he)
    refine ⟨hnodup, ?_⟩
    intro e he
    rcases hfrom e he with ⟨a, ha, hid, hinc⟩ | ⟨hrow, ⟨j, hj⟩, hinc⟩
    · rw [← hid, ← hinc]
      exact hfrom₁ a ha
    · exact .inr ⟨hrow, ⟨j, mem_cons_of_mem _ hj⟩, hinc⟩

/-- **A commit** of changes to rows, to jobs of the queue that are not merely
reserved. -/
theorem Distinct.commit (h : Distinct digest s) {rows : List ControlRow}
    {changes : List Change} (hc : Committed digest s.rows rows changes)
    (hnodup : (changes.map (·.1)).Nodup)
    (hjobs : ∀ id j, (id, some j) ∈ changes → j.id = id ∧ id ∉ s.queue.pendingAdmissions) :
    Distinct digest (s.commit rows changes) := by
  have hkept : ∀ id ∈ rowIds s.rows, id ∈ rowIds rows := by
    intro id hid
    obtain ⟨p, hp, rfl⟩ := mem_rowIds.mp hid
    exact mem_rowIds.mpr ⟨p, hc.kept p hp, rfl⟩
  have hadded : ∀ id ∈ rowIds rows, id ∈ rowIds s.rows ∨ ∃ j, (id, some j) ∈ changes := by
    intro id hid
    obtain ⟨p, hp, rfl⟩ := mem_rowIds.mp hid
    rcases hc.origin p hp with hp | ⟨-, j, hj, -⟩
    · exact .inl (mem_rowIds.mpr ⟨p, hp, rfl⟩)
    · exact .inr ⟨j, hj⟩
  obtain ⟨hlog, hfrom⟩ := note_log rows h.fresh hnodup h.log (by
    intro c _ hrow hm
    obtain ⟨e, he, heq⟩ := mem_map.mp hm
    exact hrow (heq ▸ h.logged e he))
  refine ⟨hc.nodup, h.queue, hlog, ?_, ?_, ?_, ?_⟩
  · intro e he
    rcases hfrom e he with ⟨a, ha, hid, -⟩ | ⟨-, ⟨j, hj⟩, -⟩
    · exact hid ▸ hkept _ (h.logged a ha)
    · exact hc.written _ j hj
  · intro e he
    rcases hfrom e he with ⟨a, ha, hid, hinc⟩ | ⟨hrow, ⟨j, hj⟩, hinc⟩
    · obtain ⟨i, hi, hmade⟩ := h.origin a ha
      exact ⟨i, hi.trans hid, hinc ▸ hmade⟩
    · -- the row is new, so its incarnation is made from the change
      obtain ⟨r, hr⟩ := Option.isSome_iff_exists.mp (findRow_isSome.mpr (hc.written _ j hj))
      have hrid : r.jobId = e.jobId := by simpa using find?_some hr
      have hmem : (r.jobId, r.incarnation) ∈ identities rows :=
        mem_map_of_mem (mem_of_find?_eq_some hr)
      rcases hc.origin _ hmem with hold | ⟨-, i, hi, hmade⟩
      · exact absurd (mem_rowIds.mpr ⟨_, hold, hrid⟩) hrow
      · refine ⟨i, (hjobs _ i hi).1.trans hrid, ?_⟩
        rw [hinc, incarnationOf, hr]
        exact hmade
  · intro id hid hrow
    obtain ⟨hid, hun⟩ := mem_filter.mp hid
    rcases hadded id hrow with hrow | ⟨j, hj⟩
    · exact h.fresh id hid hrow
    · simp only [Bool.not_eq_true', any_eq_false] at hun
      exact hun _ hj (by simp)
  · intro id hid hrow
    rcases hadded id hrow with hrow | ⟨j, hj⟩
    · exact h.pending id hid hrow
    · exact (hjobs id j hj).2 hid

/-- **What the queue does for a request.** -/
theorem Distinct.speculate (h : Distinct digest s) {ops : List QueueOp}
    {committed : Bool} (hok : (ControlEvent.request ops committed).Current s) :
    Distinct digest (s.speculate lower ops) := by
  obtain ⟨hdrawn, hgrown⟩ := h.queue.applyAll lower fun hd : draws ops ≠ 0 => (hok hd).2
  -- an id that was drawn has no row
  have hrow : ∀ id : Nat, s.queue.nextJobId < id ∧
      id ≤ (applyAll lower s.queue ops).nextJobId → id ∉ rowIds s.rows := by
    intro id hid hmem
    by_cases hd : draws ops = 0
    · rw [nextJobId_applyAll lower hd] at hid
      omega
    · have := (hok hd).1 id hmem
      omega
  refine ⟨h.rows, hdrawn, h.log, h.logged, h.origin, ?_, ?_⟩
  · intro id hid
    rcases mem_append.mp hid with hid | hid
    · exact h.fresh id hid
    · obtain ⟨hid, hnew⟩ := mem_filter.mp hid
      rcases hgrown.jobs id hid with hold | hpending | hdrew
      · exact absurd hold (by simpa using hnew)
      · exact h.pending id hpending
      · exact hrow id hdrew
  · intro id hid
    rcases hgrown.pending id hid with hpending | hdrew
    · exact h.pending id hpending
    · exact hrow id hdrew

theorem le_foldl_max {l : List Nat} {n : Nat} (a : Nat) (h : n ∈ l) : n ≤ l.foldl max a := by
  induction l generalizing a with
  | nil => exact absurd h (by simp)
  | cons b l ih =>
    rcases mem_cons.mp h with rfl | h
    · have hmono : ∀ (l : List Nat) (a : Nat), a ≤ l.foldl max a := by
        intro l
        induction l with
        | nil => exact fun a => le_rfl
        | cons c l ih => exact fun a => (le_max_left a c).trans (ih _)
      exact (le_max_right a n).trans (hmono l _)
    · exact ih _ h

theorem drawn_adoptReplicated (s : QueueState) (jobs : List Job) :
    Drawn (s.adoptReplicated jobs) := by
  refine ⟨?_, ?_, ?_⟩
  · intro id hid
    have hids : jobIds (s.adoptReplicated jobs) = jobs.map (·.id) := by
      simp [jobIds, adoptReplicated, recomputeJobTotals, Function.comp_def]
    rw [hids] at hid
    exact le_foldl_max 0 hid
  · exact fun id hid => absurd hid (by simp [adoptReplicated])
  · exact fun id hid => absurd hid (by simp [adoptReplicated])

theorem Distinct.restore (h : Distinct digest s) : Distinct digest s.restore where
  rows := h.rows
  queue := drawn_adoptReplicated _ _
  log := h.log
  logged := h.logged
  origin := h.origin
  fresh := fun id hid => absurd hid (by simp [Authority.restore])
  pending := fun id hid => absurd hid (by simp [Authority.restore, adoptReplicated])

theorem Distinct.publish (h : Distinct digest s) {incarnation : Text}
    {expected : Nat} {result : Job} (imported : Bool) {rows : List ControlRow}
    (hrows : publishResult s.rows incarnation expected result = some rows) :
    Distinct digest { s with
      rows := rows
      log := addFiles s.log result.id result
      queue := if imported then importCopy s.queue result else s.queue } := by
  have hids : rowIds rows = rowIds s.rows := by
    rw [rowIds_eq, identities_publishResult hrows, ← rowIds_eq]
  have hrow : result.id ∈ rowIds s.rows := by
    rw [publishResult, Option.ite_none_right_eq_some, any_eq_true] at hrows
    obtain ⟨⟨r, hr, hmatch⟩, -⟩ := hrows
    simp only [Bool.and_eq_true, decide_eq_true_eq] at hmatch
    exact hmatch.1.1.1 ▸ mem_map_of_mem hr
  have hpending : (if imported then importCopy s.queue result else s.queue).pendingAdmissions =
      s.queue.pendingAdmissions := by
    cases imported <;> rfl
  have hqueue : Drawn (if imported then importCopy s.queue result else s.queue) := by
    cases imported with
    | false => exact h.queue
    | true =>
      have hjobs : ∀ id ∈ jobIds (importCopy s.queue result), id ∈ jobIds s.queue ∨
          id = result.id := by
        intro id hid
        obtain ⟨j, hj, rfl⟩ := mem_map.mp hid
        rcases mem_append.mp hj with hj | hj
        · exact .inl (mem_map_of_mem (mem_of_mem_eraseP hj))
        · rw [mem_singleton.mp hj]
          exact .inr rfl
      have hnext : (importCopy s.queue result).nextJobId = max s.queue.nextJobId result.id := rfl
      refine ⟨?_, ?_, ?_⟩
      · intro id hid
        rw [if_pos rfl] at hid ⊢
        rw [hnext]
        rcases hjobs id hid with hid | rfl
        · exact (h.queue.jobs_le id hid).trans (le_max_left ..)
        · exact le_max_right ..
      · intro id hid
        rw [if_pos rfl] at hid ⊢
        rw [hnext]
        exact (h.queue.pending_le id hid).trans (le_max_left ..)
      · intro id hid hjob
        rcases hjobs id hjob with hjob | rfl
        · exact h.queue.apart id hid hjob
        · exact h.pending _ hid hrow
  refine ⟨hids ▸ h.rows, hqueue, ?_, ?_, ?_, ?_, ?_⟩
  · rw [addFiles_ids]
    exact h.log
  · intro e he
    obtain ⟨a, ha, hid, -⟩ := mem_addFiles he
    rw [hids, ← hid]
    exact h.logged a ha
  · intro e he
    obtain ⟨a, ha, hid, hinc⟩ := mem_addFiles he
    rw [← hid, ← hinc]
    exact h.origin a ha
  · exact fun id hid => hids ▸ h.fresh id hid
  · intro id hid
    rw [hpending] at hid
    rw [hids]
    exact h.pending id hid

/-! ### Runs -/

/-- **One event.** -/
theorem Distinct.next (h : Distinct digest s) {e : ControlEvent}
    (hok : e.Current s) : Distinct digest (s.next digest lower e) := by
  cases e with
  | request ops committed =>
    have ht : Distinct digest (s.speculate lower ops) := h.speculate hok
    simp only [Authority.next]
    split
    · split
      next rows hrows =>
        refine ht.commit (committed_commitJobDelta digest h.rows hrows) (nodup_delta _ _) ?_
        intro id j hc
        obtain ⟨hid, hjob⟩ := mem_delta hc
        exact ⟨hid, fun hp => ht.queue.apart id hp hjob⟩
      next => exact ht
    · exact ht
  | restore => exact h.restore
  | takeover queue =>
    refine ⟨h.rows, drawn_adoptReplicated _ _, h.log, h.logged, h.origin, ?_, ?_⟩
    · exact fun id hid => absurd hid not_mem_nil
    · exact fun id hid => absurd hid not_mem_nil
  | retire id =>
    simp only [Authority.next]
    split
    next rows hrows =>
      have ht := h.commit (committed_commitJobDelta digest h.rows hrows) (by simp)
        (by intro i j hc; exact absurd hc (by simp))
      refine ⟨ht.rows, ?_, ht.log, ht.logged, ht.origin, ht.fresh, ht.pending⟩
      have hsub : ∀ i ∈ jobIds (s.queue.eraseJob id), i ∈ jobIds s.queue := by
        intro i hi
        obtain ⟨j, hj, rfl⟩ := mem_map.mp hi
        exact mem_map_of_mem (mem_of_mem_eraseP hj)
      exact ⟨fun i hi => h.queue.jobs_le i (hsub i hi), h.queue.pending_le,
        fun i hi hjob => h.queue.apart i hi (hsub i hjob)⟩
    next => exact h
  | resolveUrl id =>
    simp only [Authority.next]
    split
    next => exact h
    next job hjob =>
      split
      next rows hrows =>
        refine h.commit (committed_commitUrlResolution digest h.rows hrows) (by simp) ?_
        intro i j hc
        obtain ⟨rfl, hj⟩ := Prod.mk.inj (mem_singleton.mp hc)
        obtain rfl := Option.some.inj hj
        refine ⟨rfl, fun hp => h.queue.apart _ hp ?_⟩
        exact mem_map_of_mem (mem_of_find?_eq_some hjob)
      next => exact h
  | publish incarnation expected result imported =>
    simp only [Authority.next]
    split
    next => exact h
    next rows hrows => exact h.publish imported hrows
  | reconcile id =>
    refine h.commit (committed_reconcileJob digest 4 h.rows) ?_ ?_
    · cases s.queue.job id with
      | none => exact nodup_nil
      | some job =>
        rw [reconciled]
        split <;> simp
    · intro i j hc
      cases hjob : s.queue.job id with
      | none => rw [hjob] at hc; exact absurd hc (by simp [reconciled])
      | some job =>
        rw [hjob, reconciled, mem_ite_nil_right, mem_singleton, Prod.mk.injEq,
          Option.some.injEq] at hc
        obtain ⟨-, rfl, rfl⟩ := hc
        refine ⟨job_find hjob, fun hp => h.queue.apart _ hp ?_⟩
        exact (job_find hjob) ▸ mem_map_of_mem (mem_of_find?_eq_some hjob)

theorem Distinct.migrated (h : Migrated digest s) : Distinct digest s := by
  obtain ⟨doc, rows, hrows, rfl⟩ := h
  have hvacant : Distinct digest vacant := by
    refine ⟨nodup_nil, ⟨?_, ?_, ?_⟩, nodup_nil, ?_, ?_, ?_, ?_⟩ <;>
      simp [vacant, QueueState.default, jobIds]
  have hc := committed_migrate digest hrows
  have hids : (doc.jobs.map fun j => (j.id, some j)).map (·.1) = rowIds rows := by
    have := (identities_txn hrows nodup_nil).1
    rw [rowIds_eq, this]
    simp [inserted, identities, filterMap_map, Function.comp_def]
  refine hvacant.commit hc (hids ▸ hc.nodup) ?_
  intro id j hm
  obtain ⟨k, -, hk⟩ := mem_map.mp hm
  obtain ⟨rfl, hkj⟩ := Prod.mk.inj hk
  obtain rfl := Option.some.inj hkj
  exact ⟨rfl, by simp [vacant, QueueState.default]⟩

theorem Distinct.of_run
    (h : ControlRun digest lower (fun s e => e.Current s) s) : Distinct digest s := by
  refine Run.invariant (P := Distinct digest) (fun _ h0 => Distinct.migrated h0) ?_ h
  rintro s e t hs hok rfl
  exact hs.next hok

end Authority

/-! ### Names of different jobs -/

theorem hexDigest_inj {digest : Job → Nat} {i j : Job} (h : hexDigest digest i = hexDigest digest j) :
    digest i = digest j := by
  have hread : ∀ n < digest i + digest j + 1,
      Numeral.fromStrRadix 16 (digest i + digest j + 1) (Numeral.padded 16 64 n) = some n :=
    fun n hn => Numeral.fromStrRadix_padded (.inr rfl) hn 64
  have hi := hread (digest i) (by omega)
  have hj := hread (digest j) (by omega)
  rw [hexDigest, hexDigest] at h
  rw [h, hj] at hi
  exact (Option.some.inj hi).symm

theorem colon_notMem_hexDigest (digest : Job → Nat) (j : Job) : ':' ∉ hexDigest digest j := by
  intro hm
  obtain ⟨d, hd, he⟩ := Numeral.mem_padded (.inr rfl) 64 (digest j) _ hm
  exact absurd he (by revert d; decide)

theorem colon_notMem_incarnation {digest : Job → Nat} {j : Job} {incarnation : Text}
    (h : MadeFrom digest j incarnation) : ':' ∉ incarnation := by
  rcases h with rfl | rfl
  · rw [jobIncarnation, mem_append, not_or]
    exact ⟨by decide, colon_notMem_hexDigest digest j⟩
  · rw [legacyIncarnation, mem_append, not_or]
    exact ⟨by decide, colon_notMem_hexDigest digest j⟩

theorem MadeFrom.digest_eq {digest : Job → Nat} {i j : Job} {incarnation : Text}
    (hi : MadeFrom digest i incarnation) (hj : MadeFrom digest j incarnation) :
    digest i = digest j := by
  rcases hi with rfl | rfl <;> rcases hj with h | h
  · exact hexDigest_inj (append_cancel_left h)
  · exact absurd (congrArg head? h) (by simp [jobIncarnation, legacyIncarnation, text])
  · exact absurd (congrArg head? h) (by simp [jobIncarnation, legacyIncarnation, text])
  · exact hexDigest_inj (append_cancel_left h)

theorem Admitted.apart_of_ne {digest : Job → Nat} {a b : Admitted} (h : a.jobId ≠ b.jobId)
    (ha : ∃ j, j.id = a.jobId ∧ MadeFrom digest j a.incarnation)
    (hb : ∃ j, j.id = b.jobId ∧ MadeFrom digest j b.incarnation) : a.Apart digest b where
  identity := fun he => h (Prod.mk.inj he).1
  files := fun _ _ _ _ he => h (Prod.mk.inj he).1
  resources := by
    intro scope scope' kind kind' r r' hscope hscope' hr hr'
    obtain ⟨rest, rfl⟩ := grantResource_workJob hr hscope
    obtain ⟨rest', rfl⟩ := grantResource_workJob hr' hscope'
    exact ⟨fun he => h (workJob_inj he),
      fun _ _ _ _ he => h (publicationReceipt_workJob he)⟩
  scripts := by
    intro key key' he
    obtain ⟨i, hi, hmade⟩ := ha
    obtain ⟨j, hj, hmade'⟩ := hb
    rw [scriptReceipt, scriptReceipt, append_assoc, append_assoc,
      append_cancel_left_eq] at he
    have hinc := (split_at (colon_notMem_incarnation hmade) (colon_notMem_incarnation hmade') he).1
    refine ⟨i, j, ?_, hmade.digest_eq (hinc ▸ hmade')⟩
    rintro rfl
    exact h (hi.symm.trans hj)

/-- **No identity is used twice** as long as the counter of the authority is not
behind the table when an id is drawn. -/
theorem neverReused_of_run (digest : Job → Nat) (lower : Text → Text) (s : Authority)
    (h : ControlRun digest lower (fun s e => e.Current s) s) : NeverReused digest s.log := by
  have hs := Authority.Distinct.of_run h
  have hne : s.log.Pairwise fun a b => a.jobId ≠ b.jobId := pairwise_map.mp hs.log
  refine hne.imp_of_mem ?_
  intro a b ha hb hab
  exact Admitted.apart_of_ne hab (hs.origin a ha) (hs.origin b hb)

def addUrl (name : String) : ControlEvent :=
  .request [.admitUrl 0 (text name) (text "http://nzb") none 0] true

def removeJob (id : JobId) : ControlEvent := .request [.remove id] true

def lengthDigest (j : Job) : Nat := j.name.length

/-- The authority after these events, from an empty table. -/
def afterEvents (events : List ControlEvent) : Authority :=
  events.foldl (Authority.next lengthDigest toAsciiLowercase) Authority.vacant

theorem controlRun_append {ok : Authority → ControlEvent → Prop} {events : List ControlEvent}
    {e : ControlEvent} (h : ControlRun lengthDigest toAsciiLowercase ok (afterEvents events))
    (hok : ok (afterEvents events) e) :
    ControlRun lengthDigest toAsciiLowercase ok (afterEvents (events ++ [e])) := by
  refine .step h hok ?_
  rw [afterEvents, foldl_append]
  rfl

theorem controlRun_nil (ok : Authority → ControlEvent → Prop) :
    ControlRun lengthDigest toAsciiLowercase ok (afterEvents []) :=
  .start ⟨default.toDoc, [], rfl, rfl⟩

/-- The first of two jobs is deleted; the third job gets a new id. -/
theorem neverReused_firstDeleted :
    NeverReused lengthDigest (afterEvents
      [addUrl "a", .restore, addUrl "b", .restore, removeJob 1, .restore, addUrl "c"]).log := by
  have h1 := controlRun_append (e := addUrl "a")
    (controlRun_nil fun s e => e.Current s) (fun _ => by decide +kernel)
  have h2 := controlRun_append (e := .restore) h1 trivial
  have h3 := controlRun_append (e := addUrl "b") h2 (fun _ => by decide +kernel)
  have h4 := controlRun_append (e := .restore) h3 trivial
  have h5 := controlRun_append (e := removeJob 1) h4 (fun _ => by decide +kernel)
  have h6 := controlRun_append (e := .restore) h5 trivial
  have h7 := controlRun_append (e := addUrl "c") h6 (fun _ => by decide +kernel)
  exact neverReused_of_run lengthDigest toAsciiLowercase _ h7

/-- The only job is deleted, and the next one gets its id and its incarnation. -/
theorem idReused_afterDelete :
    ¬ ∀ s, ControlRun lengthDigest toAsciiLowercase (fun _ _ => True) s →
      NeverReused lengthDigest s.log := by
  intro h
  have h1 := controlRun_append (e := addUrl "a") (controlRun_nil fun _ _ => True) trivial
  have h2 := controlRun_append (e := .restore) h1 trivial
  have h3 := controlRun_append (e := removeJob 1) h2 trivial
  have h4 := controlRun_append (e := .restore) h3 trivial
  have h5 := controlRun_append (e := addUrl "bb") h4 trivial
  have hlog : (afterEvents ([] ++ [addUrl "a"] ++ [.restore] ++ [removeJob 1] ++ [.restore] ++
      [addUrl "bb"])).log.map (fun e => (e.jobId, e.incarnation)) =
        [(1, text "job-" ++ Numeral.padded 16 64 1), (1, text "job-" ++ Numeral.padded 16 64 1)] := by
    decide +kernel
  have hpairs := pairwise_map.mpr ((h _ h5).imp fun hab => hab.identity)
  rw [hlog] at hpairs
  exact absurd (pairwise_cons.mp hpairs).1 (by decide +kernel)

end Nzbd
