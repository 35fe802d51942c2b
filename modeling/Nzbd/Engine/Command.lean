import Nzbd.Engine.Owner

/-!
# The commands of the queue owner

What clients, the post-processor, the torrent backend and the cluster ask of the
owner, the tick of its clock, and its start.  `Msg` is everything the owner can
be sent, `Owner.step` its reaction.

Commands that touch neither the queue nor the bookkeeping of downloads (limits,
connection budgets, exports, mirrored progress) are left out.  The inventory of
payloads, the pricing of recovery volumes and the torrent backend are outside;
their answers are part of the command or of the world.
-/

namespace Nzbd.Engine

open Nzbd.State (JournalRecord)

inductive MoveOp
  | top
  | up
  | down
  | bottom

namespace Owner

variable (w : World)

/-! ### Admission -/

def addPausedParam : Text := text "*AddPaused"

/-- What `AddParsed` gives a new job besides its NZB. -/
def dressJob (paused : Bool) (params : List (Text × Text)) (j : Job) : Job :=
  { j with status := if paused then .paused else j.status, params := j.params ++ params }

/-- A directory that is there already is not adopted. -/
def avoidDir (id : JobId) (j : Job) : Job :=
  match w.dirInUse with
  | none => j
  | some n =>
    { j with dirName := jobDirName j ++ text ".job-" ++ showNat id ++ '-' :: showNat n }

def addParsed (lower : Text → Text) (o : Owner) (name : Text) (parsed : ParsedNzb)
    (category : Option Text) (priority : Int) (paused : Bool) (params : List (Text × Text)) :
    Owner :=
  let s := o.state.admitNzb lower w.nowUnix name parsed category priority o.tuning.pauseExtraPars
  let id := s.nextJobId
  let s := ((s.updateJob id (dressJob paused params)).nameFromRequestor id true).updateJob id
    (avoidDir w id)
  match ensureAllocation w { o with state := s } id with
  | none => { o with state := s.removeJob id }
  | some o => o.saveSnapshot w

/-- The same URL is being fetched. -/
def isFetching (url : Text) (j : Job) : Bool :=
  j.status = .fetching && j.params.any (· = (urlParam, url))

def addUrl (o : Owner) (name url : Text) (category : Option Text) (priority : Int) (paused : Bool)
    (params : List (Text × Text)) : Owner :=
  match o.state.jobs.find? (isFetching url) with
  | some j =>
    if params = [] then o
    else saveSnapshot w <| o.updateJob j.id fun j =>
      { j with params := params.foldl QueueState.setParam j.params }
  | none =>
    let s := o.state.admitUrl w.nowUnix name url category priority
    let id := s.nextJobId
    let dress := fun j : Job => { j with
      params := j.params ++ (if paused then [(addPausedParam, text "yes")] else []) ++ params }
    saveSnapshot w { o with state := (s.updateJob id dress).nameFromRequestor id true }

/-- A URL job that was added paused. -/
def pauseFetched (j : Job) : Job :=
  if j.params.any (·.1 = addPausedParam) then
    { j with params := j.params.eraseP (·.1 = addPausedParam), status := .paused }
  else j

def completeUrlFetch (lower : Text → Text) (o : Owner) (id : JobId) (parsed : ParsedNzb) : Owner :=
  let s := o.state.completeUrlFetch lower id parsed o.tuning.pauseExtraPars
  if (o.state.job id).any (·.status = .fetching) then
    saveSnapshot w { o with state := (s.updateJob id pauseFetched).nameFromRequestor id true }
  else { o with state := s }

def failUrlFetch (o : Owner) (id : JobId) : Owner :=
  if (o.state.job id).any (·.status = .fetching) then
    (o.updateJob id fun j => { j with status := .failed }).saveSnapshot w
  else o

def commitTorrentAdmission (o : Owner) (id : JobId) (commit : TorrentAdmissionCommit) : Owner :=
  let o' := { o with state := o.state.commitTorrentAdmission w.nowUnix id commit }
  if id ∈ o.state.pendingAdmissions then o'.saveSnapshot w else o'

/-- The cancellation counts only once it is on disk. -/
def cancelTorrentAdmission (o : Owner) (id : JobId) : Owner :=
  if id ∈ o.state.pendingAdmissions then
    let r := saveSnapshotResult w { o with state := o.state.cancelTorrentAdmission id }
    if r.1 then r.2 else { r.2 with state := o.state }
  else o

/-! ### Files -/

def setFilePaused (o : Owner) (job : JobId) (file : FileId) (paused : Bool) : Owner :=
  let allowed : Bool := match o.postFetchFiles job with
    | none => true
    | some ids => paused || file ∈ ids
  if allowed ∧ (o.file job file).isSome then
    (Owner.recomputeTotals
      { o with state := o.state.updateFile job file fun f => { f with paused := paused } } job)
      |>.checkJobComplete w job
  else o

def deleteFile (o : Owner) (job : JobId) (file : FileId) : Owner :=
  if (o.file job file).isSome then
    let o := (o.updateJob job fun j => { j with files := j.files.filter (·.id ≠ file) })
      |>.recomputeTotals job
    checkJobComplete w { o with
      writers := o.writers.filter (· ≠ file)
      postFetchFiles := Function.update o.postFetchFiles job
        ((o.postFetchFiles job).map fun ids => ids.filter (· ≠ file)) } job
  else o

/-! ### Pausing -/

def isTorrent (j : Job) : Bool := j.kind = .torrent && j.torrent.isSome

def isActive : JobStatus → Bool
  | .queued => true
  | .downloading => true
  | _ => false

/-- Save first, then pass the command on. -/
def persistThenCommand (o : Owner) : Bool × Owner :=
  if w.backendRefuses then (false, o)
  else if o.persist then
    let r := o.saveSnapshotResult w
    (r.1 && !w.backendLoses, r.2)
  else (!w.backendLoses, o)

/-- A change of a torrent that is taken back if it cannot be passed on. -/
def tryTorrent (o : Owner) (id : JobId) (f : Job → Job) : Owner :=
  let r := (o.updateJob id f).persistThenCommand w
  if r.1 then r.2 else { r.2 with state := o.state }

def pauseTorrent (j : Job) : Job :=
  { j with
    status := .paused
    torrent := j.torrent.map fun t => { t with controlIntent := .paused } }

def pause (o : Owner) (id : JobId) : Owner :=
  match o.state.job id with
  | none => o
  | some j =>
    if isActive j.status = false then o
    else if isTorrent j then o.tryTorrent w id pauseTorrent
    else o.updateJob id fun j => { j with status := .paused }

def resumeRecord (t : TorrentRecord) : TorrentRecord :=
  let ready := if t.phase = .missingFiles then none else t.readyAtUnix
  { t with
    controlIntent := .running
    readyAtUnix := ready
    phase := if ready = none then .queued else t.phase
    lastActivityUnix := if ready = none then some w.nowUnix else t.lastActivityUnix }

def resumeTorrent (j : Job) : Job :=
  { j with status := .queued, torrent := j.torrent.map (resumeRecord w) }

/-- A torrent that has seeded enough is not resumed. -/
def seedingEnded (j : Job) : Bool :=
  j.torrent.any fun t =>
    (t.phase = .seeding || t.phase = .pausedSeed) && t.readyAtUnix.isSome && w.seedPolicyReached

def resume (o : Owner) (id : JobId) : Owner :=
  if id ∈ o.retiringWriters then o
  else
    match o.state.job id with
    | none => o
    | some j =>
      if seedingEnded w j ∨ j.status ≠ .paused then o
      else if isTorrent j then
        let r := (o.updateJob id (resumeTorrent w)).saveSnapshotResult w
        if o.persist = false ∨ r.1 = true then r.2 else { r.2 with state := o.state }
      else o.updateJob id fun j => { j with status := .queued }

/-! ### Removal -/

/-- Forget the writers, sizes and finalizations of the files of a job that
leaves. -/
def dropFiles (o : Owner) (job : Job) : Owner :=
  let ids := job.files.map (·.id)
  { o with
    writers := o.writers.filter (· ∉ ids)
    fileSizes := fun f => if f ∈ ids then none else o.fileSizes f
    finalizeSent := o.finalizeSent.filter (· ∉ ids) }

/-- Take a job out of the queue, with all that is kept for it. -/
def eraseJob (o : Owner) (job : Job) : Owner :=
  let o := (o.dropFiles job).dropAttempts job.id
  { o with
    state := o.state.eraseJob job.id
    pendingFinalize := o.pendingFinalize.filter (·.1 ≠ job.id)
    delegated := o.delegated.filter (· ≠ job.id)
    postFetchFiles := Function.update o.postFetchFiles job.id none }

def removeJobSilent (o : Owner) (id : JobId) : Owner :=
  match o.state.job id with
  | none => o
  | some job => o.eraseJob job

def deleteJob (o : Owner) (id : JobId) (deleteFiles : Bool) : Owner :=
  if deleteFiles then o
  else
    match o.state.job id with
    | none => o
    | some job =>
      if w.forgets id then
        let o := o.eraseJob job
        saveSnapshot w { o with
          retiringWriters := o.retiringWriters.filter (· ≠ id)
          allocatedJobs := o.allocatedJobs.filter (· ≠ id)
          log := if o.persist ∧ id ∉ w.stuckJournals then o.log ++ [.removeJournal id] else o.log }
      else o

def delete (o : Owner) (id : JobId) (deleteFiles : Bool) : Owner :=
  match o.state.job id with
  | none => o
  | some job =>
    if job.torrent.isSome then
      o.tryTorrent w id fun j =>
        { j with torrent := j.torrent.map fun t => { t with removalIntent := some deleteFiles } }
    else o.deleteJob w id deleteFiles

/-- Stop the writers of a job before its payload goes. -/
def quiescePayload (o : Owner) (id : JobId) : Owner :=
  match o.state.job id with
  | none => o
  | some job =>
    let inPost : Bool := match job.status with
      | .post _ => true
      | .postQueued => true
      | _ => false
    if id ∈ o.delegated ∨ job.torrent.isSome ∨ inPost ∨ w.forgets id = false then o
    else
      let o := (o.updateJob id fun j => { j with status := .paused }).dropAttempts id
      saveSnapshot w { o with
        allocatedJobs := o.allocatedJobs.filter (· ≠ id)
        retiringWriters := id :: o.retiringWriters
        writers := o.writers.filter (· ∉ job.files.map (·.id))
        pendingFinalize := o.pendingFinalize.filter (·.1 ≠ id) }

/-! ### Order, priority and status -/

def setPriority (o : Owner) (id : JobId) (priority : Int) : Owner :=
  match o.state.job id with
  | none => o
  | some j =>
    if j.kind = .torrent ∧ j.priority ≠ priority then
      o.tryTorrent w id fun j => { j with priority := priority }
    else o.updateJob id fun j => { j with priority := priority }

def setCategory (o : Owner) (id : JobId) (category : Option Text) : Owner :=
  if (o.state.job id).isSome then
    (o.updateJob id fun j => { j with category := category }).saveSnapshot w
  else o

/-- Where a job is moved to. -/
def moveTarget (len i : Nat) : MoveOp → Nat
  | .top => 0
  | .up => i - 1
  | .down => min (i + 1) (len - 1)
  | .bottom => len - 1

def moveJob (o : Owner) (id : JobId) (op : MoveOp) : Owner :=
  match o.state.jobs.findIdx? (·.id = id), o.state.job id with
  | some i, some j =>
    let rest := o.state.jobs.eraseIdx i
    let jobs := rest.insertIdx (moveTarget o.state.jobs.length i op) j
    { o with state := { o.state with jobs := jobs } }
  | _, _ => o

def settleDownloadLabels (o : Owner) : Owner :=
  (jobsToRequeue o.state (o.selectionCtx w)).foldl
    (fun o id => o.updateJob id fun j => { j with status := .queued }) o

def setMaxActiveDownloads (o : Owner) (n : Nat) : Owner :=
  settleDownloadLabels w
    { o with state := { o.state with maxActiveDownloads := clampActiveDownloads n } }

def isEnded : JobStatus → Bool
  | .completed => true
  | .failed => true
  | .deleted => true
  | _ => false

def setJobStatus (o : Owner) (id : JobId) (status : JobStatus) : Owner :=
  if id ∈ o.retiringWriters ∨ (o.state.job id).isNone then o
  else
    let o := o.updateJob id fun j => { j with status := status }
    if o.persist ∧ isEnded status then o.saveSnapshot w else o

/-- Close the open stage with its measured or its elapsed time. -/
def closeSpan (measured : Option Nat) (at' : Int) (stages : List StageSpan) : List StageSpan :=
  match stages.getLast? with
  | some last =>
    if last.ms = none then
      stages.dropLast ++
        [{ last with ms := some (measured.getD ((max (at' - last.startedAtUnix) 0).toNat * 1000)) }]
    else stages
  | none => stages

def enterPostStage (o : Owner) (id : JobId) (stage : PostStage) (at' : Int) (prev : Option Nat) :
    Owner :=
  o.updateJob id fun j => { j with
    stages := closeSpan prev at' j.stages ++ [⟨stage, at', none⟩]
    status := .post stage }

def closePostStage (o : Owner) (id : JobId) (at' : Int) (ms : Option Nat) : Owner :=
  o.updateJob id fun j => { j with stages := closeSpan ms at' j.stages }

/-- Completed or in post-processing: a further recovery download queues the job
again. -/
def requeuesForPars : JobStatus → Bool
  | .completed => true
  | .postQueued => true
  | .post _ => true
  | _ => false

def unpauseFiles (ids : List FileId) (j : Job) : Job :=
  { j with
    files := j.files.map fun f => if f.id ∈ ids then { f with paused := false } else f
    status := if requeuesForPars j.status then .queued else j.status }

/-- Unpause the recovery volumes that were picked, with their blocks. -/
def unpauseParBlocks (o : Owner) (id : JobId) (picked : List (FileId × Nat)) : Owner :=
  match o.state.job id with
  | none => o
  | some j =>
    let chosen := picked.filter fun p => j.files.any fun f => f.id = p.1 && f.paused && f.isPar2
    if (chosen.map (·.2)).sum = 0 then o
    else
      let ids := chosen.map (·.1)
      let o := (o.updateJob id (unpauseFiles ids)).recomputeTotals id
      let authorized := (o.postFetchFiles id).getD [] ++ ids
      { o with postFetchFiles := Function.update o.postFetchFiles id (some authorized) }

/-! ### Start -/

/-- Finish what completed before the owner was there to see it. -/
def startupPass (o : Owner) : Owner :=
  let active := o.state.jobs.filter fun j => isActive j.status
  let finished := active.flatMap fun j =>
    (j.files.filter fun f => f.isTerminal && f.hasAnyDone && !f.finalized).map fun f => (j.id, f.id)
  let o := finished.foldl (fun o p => o.sendFinalize w p.1 p.2) o
  (active.map (·.id)).foldl (fun o id => o.checkJobComplete w id) o

def recoveredPostFetchFiles (job : Job) : Option (List FileId) :=
  if inDownload job.status = false ∨ openPostStage job = none then none
  else
    let files := (job.files.filter fun f => f.isPar2 && !f.paused && !f.isTerminal).map (·.id)
    if files = [] then none else some files

def recoveredPostFetchMap (jobs : List Job) (id : JobId) : Option (List FileId) :=
  (jobs.reverse.find? fun j => j.id = id && (recoveredPostFetchFiles j).isSome).bind
    recoveredPostFetchFiles

/-- What the owner is configured with, and what the inventory of payloads says at
startup. -/
structure Config where
  servers : List ServerDef
  tuning : Tuning
  downloadEnabled : Bool
  speedLimit : Option Nat
  maxActive : Option Nat
  /-- The payload is about to go. -/
  retained : JobId → Bool
  /-- The payload is in use. -/
  active : JobId → Bool

/-- A job whose payload is retained does not come back by itself. -/
def holdRetained (cfg : Config) (j : Job) : Job :=
  if j.torrent = none ∧ cfg.retained j.id then { j with status := .paused } else j

def recovered (cfg : Config) (r : Recovered) : Owner where
  state := { r.state with
    jobs := r.state.jobs.map (holdRetained cfg)
    speedLimitBps := cfg.speedLimit.or r.state.speedLimitBps
    maxActiveDownloads := match cfg.maxActive with
      | some n => clampActiveDownloads n
      | none => r.state.maxActiveDownloads }
  attempts := fun _ => none
  blocked := fun _ => none
  writers := []
  retiringWriters := (r.state.jobs.filter fun j => j.torrent = none && cfg.retained j.id).map (·.id)
  allocatedJobs := (r.state.jobs.filter fun j => j.torrent = none && cfg.active j.id).map (·.id)
  finalizeSent := []
  pendingFinalize := []
  pendingNameInspections := fun _ => 0
  fileSizes := r.fileSizes
  writeFailures := []
  delegated := []
  postFetchFiles := recoveredPostFetchMap r.state.jobs
  persist := true
  servers := cfg.servers
  tuning := cfg.tuning
  downloadEnabled := cfg.downloadEnabled
  quotaReached := false
  diskLow := w.diskLow
  rotate := 0
  log := []

/-- Recovery, a fresh snapshot, and the pass over what had completed. -/
def start (cfg : Config) (doc : QueueSnapshotDoc) (records : List JournalRecord) : Owner :=
  ((recovered w cfg (recover w.nowUnix doc records)).saveSnapshot w).startupPass w

/-! ### The cluster -/

/-- One record of a job's journals; says whether it changed the segment. -/
def foldRecord (p : Owner × List FileId) (r : JournalRecord) : Owner × List FileId :=
  let o := { p.1 with fileSizes := recordSize p.1.fileSizes r }
  match o.state.segment r.segRef with
  | none => (o, p.2)
  | some seg =>
    if seg.state.isDone then (o, p.2)
    else
      ((o.setSegment r.segRef (.done r.offset r.len r.crc32)).dropAttempt r.segRef,
        if r.file ∈ p.2 then p.2 else p.2 ++ [r.file])

def foldJobJournals (o : Owner) (id : JobId) (records : List JournalRecord) : Owner :=
  let p := (records.filter (·.job = id)).foldl foldRecord (o, [])
  if p.2 = [] then p.1
  else p.2.foldl (fun o f => o.afterFileChange w id f) (p.1.recomputeTotals id)

/-- A job from the wire holds no leases. -/
def normalizeJob (j : Job) : Job :=
  { j with
    files := j.files.map FileEntry.releaseLeases
    status := if j.status = .downloading then .queued else j.status }

/-- Make room for the ids of a job. -/
def raiseIds (s : QueueState) (j : Job) : QueueState :=
  { s with
    nextJobId := max s.nextJobId j.id
    nextFileId := max s.nextFileId ((j.files.map (·.id)).foldl max 0) }

/-- Put a job in the place of its old copy. -/
def placeJob (o : Owner) (job : Job) : Owner :=
  let o := removeJobSilent { o with state := raiseIds o.state job } job.id
  { o with
    state := { o.state with jobs := o.state.jobs ++ [recomputeJobTotals job] }
    delegated := o.delegated.filter (· ≠ job.id) }

/-- The directory of a job that goes on is asked for again. -/
def forgetAllocation (o : Owner) (job : Job) : Owner :=
  if job.torrent = none ∧ isEnded job.status = false then
    { o with allocatedJobs := o.allocatedJobs.filter (· ≠ job.id) }
  else o

/-- Take over a job.  `records` are those of its journals, if they are to be
folded. -/
def importJob (o : Owner) (job : Job) (records : List JournalRecord) : Bool × Owner :=
  let job := normalizeJob job
  let o := o.forgetAllocation job
  if job.torrent = none ∧ w.allocates job.id = false then (false, o)
  else
    let o := (o.placeJob job).foldJobJournals w job.id records
    let fetch := (o.state.job job.id).bind recoveredPostFetchFiles
    saveSnapshotResult w { o with postFetchFiles := Function.update o.postFetchFiles job.id fetch }

/-- Take over a newer copy of a job the queue has; taken back if it cannot be
saved. -/
def importJobIfPresent (o : Owner) (job : Job) : Owner :=
  match o.state.job job.id with
  | none => o
  | some previous =>
    let r := o.importJob w job []
    if r.1 then r.2
    else
      let o' := r.2.removeJobSilent job.id
      { o' with
        state := { o'.state with jobs := o'.state.jobs ++ [previous] }
        delegated := if job.id ∈ o.delegated then job.id :: o'.delegated else o'.delegated
        postFetchFiles := Function.update o'.postFetchFiles job.id (o.postFetchFiles job.id) }

def setDelegated (o : Owner) (id : JobId) (delegated : Bool) : Owner :=
  if (o.state.job id).isNone then o
  else if delegated then { o with delegated := id :: o.delegated }
  else { o with
    delegated := o.delegated.filter (· ≠ id)
    postFetchFiles := Function.update o.postFetchFiles id none }

/-- Add the jobs of the shared snapshot that the queue does not have. -/
def mergeJobs (jobs new : List Job) : List Job :=
  new.foldl (fun jobs j => if jobs.any (·.id = j.id) then jobs else jobs ++ [j]) jobs

def adoptSnapshot (o : Owner) (s : QueueState) : Owner :=
  { o with
    state := { o.state with
      nextJobId := max o.state.nextJobId s.nextJobId
      nextFileId := max o.state.nextFileId s.nextFileId
      downloadPaused := s.downloadPaused
      speedLimitBps := o.state.speedLimitBps.or s.speedLimitBps
      jobs := mergeJobs o.state.jobs s.jobs }
    persist := true }

/-- Fold every journal and finish what completed before the takeover. -/
def finishAdoption (o : Owner) (records : List JournalRecord) : Owner :=
  let o := (o.state.jobs.map (·.id)).foldl (fun o id => o.foldJobJournals w id records) o
  (startupPass w { o with state := o.state.recomputeAllTotals }).saveSnapshot w

/-- Become the authority over the shared queue, unless its snapshot cannot be
read or holds torrents. -/
def adoptAuthority (o : Owner) (loaded : Option (Option QueueSnapshotDoc))
    (records : List JournalRecord) : Owner :=
  match loaded with
  | none => { o with persist := false }
  | some none => finishAdoption w { o with persist := true } records
  | some (some doc) =>
    if doc.jobs.any (·.kind = .torrent) then { o with persist := false }
    else (o.adoptSnapshot (.fromDoc w.nowUnix doc)).finishAdoption w records

/-- Start over from a replicated queue. -/
def adoptReplicatedAuthority (o : Owner) (jobs : List Job) : Owner :=
  saveSnapshot w { o with state := { o.state with
    jobs := jobs.map recomputeJobTotals
    pendingAdmissions := []
    nextJobId := (jobs.map (·.id)).foldl max 0
    nextFileId := (jobs.flatMap fun j => j.files.map (·.id)).foldl max 0 } }

def retainJobs (o : Owner) (keep : List JobId) : Owner :=
  let gone := (o.state.jobs.map (·.id)).filter (· ∉ keep)
  let o := gone.foldl (fun o id => o.removeJobSilent id) { o with persist := false }
  { o with delegated := [], postFetchFiles := fun _ => none }

/-! ### Torrents -/

/-- A fact of the torrent backend about one of its jobs. -/
def torrentFact (o : Owner) (id : JobId) (status : JobStatus) (record : TorrentRecord)
    (name : Text) : Owner :=
  o.updateJob id fun j =>
    if j.torrent.isSome then
      { renameJob j name true false with status := status, torrent := some record }
    else j

def torrentRemoved (o : Owner) (id : JobId) : Owner :=
  match o.state.job id with
  | none => o
  | some job => if job.torrent.isSome then (o.eraseJob job).saveSnapshot w else o

/-! ### The clock -/

def retryFinalize (o : Owner) : Owner :=
  o.pendingFinalize.foldl
    (fun o p => if p.2 ∈ o.finalizeSent then o else o.sendFinalize w p.1 p.2)
    { o with pendingFinalize := [] }

def onTick (o : Owner) : Owner :=
  let o := o.settleDownloadLabels w
  let o := retryFinalize w { o with
    diskLow := w.diskLow
    quotaReached := w.quotaReached
    blocked := fun s => (o.blocked s).filter (w.instant < ·) }
  if w.saveDue then o.saveSnapshot w else o

end Owner

/-! ### Messages -/

inductive Msg
  | workRequest (server : ServerId) (max : Nat)
  | segmentWritten (r : JournalRecord)
  | segmentFailed (r : SegRef) (server : ServerId) (outcome : AttemptOutcome)
  | connectFailed (server : ServerId)
  | writerFinalized (job : JobId) (file : FileId) (ok hasPath : Bool) (crc : Option (BitVec 32))
  | writerError (job : JobId) (file : FileId) (outOfSpace : Bool)
  | outOfSpace
  | jobNameInspected (job : JobId) (name : Option Text)
  | tick
  | addParsed (name : Text) (parsed : ParsedNzb) (category : Option Text) (priority : Int)
      (paused : Bool) (params : List (Text × Text))
  | addUrl (name url : Text) (category : Option Text) (priority : Int) (paused : Bool)
      (params : List (Text × Text))
  | completeUrlFetch (job : JobId) (parsed : ParsedNzb)
  | failUrlFetch (job : JobId)
  | reserveTorrentAdmission
  | commitTorrentAdmission (job : JobId) (commit : TorrentAdmissionCommit)
  | cancelTorrentAdmission (job : JobId)
  | torrentFact (job : JobId) (status : JobStatus) (record : TorrentRecord) (name : Text)
  | torrentRemoved (job : JobId)
  | setFilePaused (job : JobId) (file : FileId) (paused : Bool)
  | deleteFile (job : JobId) (file : FileId)
  | pause (job : JobId)
  | resume (job : JobId)
  | quiescePayload (job : JobId)
  | delete (job : JobId) (deleteFiles : Bool)
  | setPriority (job : JobId) (priority : Int)
  | setCategory (job : JobId) (category : Option Text)
  | move (job : JobId) (op : MoveOp)
  | pauseAll
  | resumeAll
  | setMaxActiveDownloads (n : Nat)
  | setJobStatus (job : JobId) (status : JobStatus)
  | enterPostStage (job : JobId) (stage : PostStage) (at' : Int) (prev : Option Nat)
  | closePostStage (job : JobId) (at' : Int) (ms : Option Nat)
  | unpauseParBlocks (job : JobId) (picked : List (FileId × Nat))
  | setDownloadEnabled (enabled : Bool)
  | importJob (job : Job) (records : List JournalRecord)
  | importJobIfPresent (job : Job)
  | removeJobSilent (job : JobId)
  | setDelegated (job : JobId) (delegated : Bool)
  | foldJobJournals (job : JobId) (records : List JournalRecord)
  | adoptAuthority (loaded : Option (Option QueueSnapshotDoc)) (records : List JournalRecord)
  | adoptReplicatedAuthority (jobs : List Job)
  | retainJobs (keep : List JobId)

/-- What the owner makes of a message. -/
def Owner.step (lower : Text → Text) (w : World) (o : Owner) : Msg → Owner
  | .workRequest server n => (o.grantWork w server (max n 1)).2
  | .segmentWritten r => o.onSegmentWritten w r
  | .segmentFailed r server outcome => o.onSegmentFailed w r server outcome
  | .connectFailed server => o.blockServer w server
  | .writerFinalized job file ok hasPath crc => o.onWriterFinalized w job file ok hasPath crc
  | .writerError job file full =>
    Owner.failWholeFile w { o with diskLow := o.diskLow || full } job file
  | .outOfSpace => { o with diskLow := true }
  | .jobNameInspected job name => o.onJobNameInspected w job name
  | .tick => o.onTick w
  | .addParsed name parsed category priority paused params =>
    o.addParsed w lower name parsed category priority paused params
  | .addUrl name url category priority paused params =>
    o.addUrl w name url category priority paused params
  | .completeUrlFetch job parsed => o.completeUrlFetch w lower job parsed
  | .failUrlFetch job => o.failUrlFetch w job
  | .reserveTorrentAdmission =>
    Owner.saveSnapshot w { o with state := o.state.reserveTorrentAdmission }
  | .commitTorrentAdmission job commit => o.commitTorrentAdmission w job commit
  | .cancelTorrentAdmission job => o.cancelTorrentAdmission w job
  | .torrentFact job status record name => o.torrentFact job status record name
  | .torrentRemoved job => o.torrentRemoved w job
  | .setFilePaused job file paused => o.setFilePaused w job file paused
  | .deleteFile job file => o.deleteFile w job file
  | .pause job => o.pause w job
  | .resume job => o.resume w job
  | .quiescePayload job => o.quiescePayload w job
  | .delete job deleteFiles => o.delete w job deleteFiles
  | .setPriority job priority => o.setPriority w job priority
  | .setCategory job category => o.setCategory w job category
  | .move job op => o.moveJob job op
  | .pauseAll => { o with state := { o.state with downloadPaused := true } }
  | .resumeAll =>
    { o with state := { o.state with downloadPaused := false }, diskLow := w.diskLow }
  | .setMaxActiveDownloads n => o.setMaxActiveDownloads w n
  | .setJobStatus job status => o.setJobStatus w job status
  | .enterPostStage job stage at' prev => o.enterPostStage job stage at' prev
  | .closePostStage job at' ms => o.closePostStage job at' ms
  | .unpauseParBlocks job picked => o.unpauseParBlocks job picked
  | .setDownloadEnabled enabled => { o with downloadEnabled := enabled }
  | .importJob job records => (o.importJob w job records).2
  | .importJobIfPresent job => o.importJobIfPresent w job
  | .removeJobSilent job => o.removeJobSilent job
  | .setDelegated job delegated => o.setDelegated job delegated
  | .foldJobJournals job records => o.foldJobJournals w job records
  | .adoptAuthority loaded records => o.adoptAuthority w loaded records
  | .adoptReplicatedAuthority jobs => o.adoptReplicatedAuthority w jobs
  | .retainJobs keep => o.retainJobs keep

end Nzbd.Engine
