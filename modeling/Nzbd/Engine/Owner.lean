import Nzbd.Engine.Recover
import Nzbd.Engine.Schedule

/-!
# The queue owner

One task owns the queue.  Connections ask it for work and report what became of
it, writers report finished files, clients and the cluster send commands, and a
clock ticks.  Every message is handled to its end before the next one.

A change of a file starts a cascade: `afterFileChange` asks the writer of a
finished file to put it in place, `checkJobComplete` ends a job whose files are
all finished, and `maybeAbortUnhealthy` gives a job up that repair cannot save.

What the owner does not decide is answered by a `World`: the clock, whether a
writer takes a command, whether the disk does.  What it writes to disk goes to
`log`, in order.  Events, metrics and the messages to writers and to the torrent
backend are left out.
-/

namespace Nzbd.Engine

open Nzbd.State (JournalRecord)

structure Tuning where
  articleRetries : Nat
  propagationDelaySecs : Int
  pauseExtraPars : Bool
  healthAbort : Bool
  retryInterval : Int

/-- What the channel of a writer says to a command. -/
inductive SendResult
  | ok
  | full
  | closed

inductive SaveResult
  | ok
  | ioError
  /-- Fenced, or not readable: the owner stops persisting. -/
  | corrupt

inductive DiskWrite
  | append (r : JournalRecord)
  /-- The snapshot, and then the end of every journal but those of these jobs. -/
  | save (doc : QueueSnapshotDoc) (keep : List JobId)
  | removeJournal (job : JobId)

/-- What the owner is told from outside during one message.  Answers that may
change within a message are indexed by a length that grows with each question. -/
structure World where
  nowUnix : Int
  /-- The monotonic clock. -/
  instant : Int
  send : FileId → Nat → SendResult
  writerClosed : FileId → Bool
  save : Nat → SaveResult
  /-- Jobs whose journals cannot be removed. -/
  stuckJournals : List JobId
  appends : Bool
  /-- The inventory of payloads grants the directory. -/
  allocates : JobId → Bool
  /-- The inventory lets go of the payload. -/
  forgets : JobId → Bool
  diskLow : Bool
  quotaReached : Bool
  /-- A save is due at this tick. -/
  saveDue : Bool
  /-- The download directory of a new job is there already; the first number that
  makes it new. -/
  dirInUse : Option Nat
  /-- The backend of torrents refuses a command, or loses it after the save. -/
  backendRefuses : Bool
  backendLoses : Bool
  /-- The share ratio or the seeding time of a torrent is reached. -/
  seedPolicyReached : Bool

structure Owner where
  state : QueueState
  attempts : Attempts
  blocked : ServerId → Option Int
  writers : List FileId
  retiringWriters : List JobId
  allocatedJobs : List JobId
  /-- Files whose writer has been told to finalize. -/
  finalizeSent : List FileId
  /-- Finalizations to be tried again at the next tick. -/
  pendingFinalize : List (JobId × FileId)
  /-- Reads of finished files that may still name their job. -/
  pendingNameInspections : JobId → Nat
  fileSizes : FileSizes
  /-- Jobs a file of which did not reach the disk. -/
  writeFailures : List JobId
  delegated : List JobId
  postFetchFiles : JobId → Option (List FileId)
  persist : Bool
  servers : List ServerDef
  tuning : Tuning
  downloadEnabled : Bool
  quotaReached : Bool
  diskLow : Bool
  rotate : Nat
  log : List DiskWrite

namespace Owner

variable (w : World)

/-! ### State -/

/-- Change the row of a job. -/
def updateJob (o : Owner) (id : JobId) (f : Job → Job) : Owner :=
  { o with state := o.state.updateJob id f }

def recomputeTotals (o : Owner) (id : JobId) : Owner := o.updateJob id recomputeJobTotals

def setSegment (o : Owner) (r : SegRef) (st : SegmentState) : Owner :=
  { o with state := o.state.updateSegment r fun s => { s with state := st } }

def dropAttempt (o : Owner) (r : SegRef) : Owner :=
  { o with attempts := Function.update o.attempts r none }

def dropAttempts (o : Owner) (job : JobId) : Owner :=
  { o with attempts := fun r => if r.job = job then none else o.attempts r }

/-- Save the snapshot and compact the journals; says whether it is on disk. -/
def saveSnapshotResult (o : Owner) : Bool × Owner :=
  if o.persist = false then (false, o)
  else
    match w.save o.log.length with
    | .ok =>
      (true, { o with log := o.log ++ [.save o.state.toDoc (o.delegated ++ w.stuckJournals)] })
    | .ioError => (false, o)
    | .corrupt => (false, { o with persist := false })

def saveSnapshot (o : Owner) : Owner := (o.saveSnapshotResult w).2

/-! ### Writers -/

/-- The inventory has granted the directory of the job. -/
def ensureAllocation (o : Owner) (job : JobId) : Option Owner :=
  if job ∈ o.retiringWriters then none
  else if job ∈ o.allocatedJobs then some o
  else
    match o.state.job job with
    | none => none
    | some _ =>
      if w.allocates job then some { o with allocatedJobs := job :: o.allocatedJobs } else none

def writerFor (o : Owner) (job : JobId) (file : FileId) : Owner :=
  if file ∈ o.writers ∧ w.writerClosed file = false then o
  else
    match o.ensureAllocation w job with
    | none => o
    | some o => { o with writers := file :: o.writers }

def file (o : Owner) (job : JobId) (file : FileId) : Option FileEntry :=
  (o.state.job job).bind (·.file file)

/-- Tell the writer of a finished file to put it in place. -/
def sendFinalize (o : Owner) (job : JobId) (file : FileId) : Owner :=
  match o.file job file with
  | none => o
  | some _ =>
    let o := o.writerFor w job file
    match w.send file o.pendingFinalize.length with
    | .ok => { o with finalizeSent := file :: o.finalizeSent }
    | .full => { o with pendingFinalize := o.pendingFinalize ++ [(job, file)] }
    | .closed => { o with
        writers := o.writers.filter (· ≠ file)
        pendingFinalize := o.pendingFinalize ++ [(job, file)] }

/-! ### The completion cascade -/

def ppDoneParam : Text := text "*PP:done"

/-- The stage of post-processing that waits for this download. -/
def openPostStage (job : Job) : Option PostStage :=
  if job.params.any (·.1 = ppDoneParam) then none
  else (job.stages.getLast?.filter (·.ms = none)).map (·.stage)

def inDownload : JobStatus → Bool
  | .queued => true
  | .downloading => true
  | .paused => true
  | _ => false

/-- Repair is hopeless. -/
def unhealthy (t : JobTotals) : Bool := Health.calcHealth t < Health.calcCritical t true

def finalStatus (job : Job) : JobStatus := if unhealthy job.totals then .failed else .completed

/-- Paused, or finished and in place. -/
def fileSettled (f : FileEntry) : Bool :=
  f.paused || (f.isTerminal && (!f.hasAnyDone || f.finalized))

def jobComplete (job : Job) : Bool := job.files ≠ [] && job.files.all fileSettled

/-- The status a job leaves the download phase with. -/
def endStatus (o : Owner) (job : Job) : JobStatus :=
  match openPostStage job with
  | some stage => .post stage
  | none => if job.id ∈ o.writeFailures then .failed else finalStatus job

/-- Forget what was kept for the download of a job. -/
def closeDownload (o : Owner) (job : Job) : Owner :=
  let ids := job.files.map (·.id)
  { o.dropAttempts job.id with
    writeFailures := o.writeFailures.filter (· ≠ job.id)
    postFetchFiles := Function.update o.postFetchFiles job.id none
    writers := o.writers.filter (· ∉ ids)
    fileSizes := fun f => if f ∈ ids then none else o.fileSizes f }

def checkJobComplete (o : Owner) (id : JobId) : Owner :=
  if id ∈ o.delegated ∨ 0 < o.pendingNameInspections id then o
  else
    match o.state.job id with
    | none => o
    | some job =>
      if inDownload job.status = true ∧ jobComplete job = true then
        let status := o.endStatus job
        ((o.updateJob id fun j => { j with status := status }).closeDownload job).saveSnapshot w
      else o

def finalizeTrivially (f : FileEntry) : FileEntry := { f with finalized := true }

def afterFileChange (o : Owner) (job : JobId) (file : FileId) : Owner :=
  match o.file job file with
  | none => o
  | some f =>
    if f.isTerminal = false ∨ f.finalized = true then o.checkJobComplete w job
    else if f.hasAnyDone then
      if file ∈ o.finalizeSent then o else o.sendFinalize w job file
    else
      -- nothing on disk
      Owner.checkJobComplete w { o with state := o.state.updateFile job file finalizeTrivially } job

def abortFile (o : Owner) (job : JobId) (p : FileId × List Nat) : Owner :=
  let o := p.2.foldl (fun o n => (o.setSegment ⟨job, p.1, n⟩ .failed).dropAttempt ⟨job, p.1, n⟩) o
  (o.recomputeTotals job).afterFileChange w job p.1

def pendingFiles (job : Job) : List (FileId × List Nat) :=
  (job.files.filter (!·.isTerminal)).map fun f =>
    (f.id, (f.segments.filter (·.state = .pending)).map (·.number))

/-- Below the critical health the rest is not worth its bandwidth. -/
def maybeAbortUnhealthy (o : Owner) (id : JobId) : Owner :=
  if o.tuning.healthAbort = false then o
  else
    match o.state.job id with
    | none => o
    | some job =>
      if inDownload job.status = true ∧ unhealthy job.totals = true then
        (pendingFiles job).foldl (fun o p => o.abortFile w id p) o
      else o

def failSegment (o : Owner) (r : SegRef) : Owner :=
  match o.state.segment r with
  | none => o
  | some seg =>
    if seg.state.isTerminal then o
    else
      let o := ((o.setSegment r .failed).dropAttempt r).recomputeTotals r.job
      (o.afterFileChange w r.job r.file).maybeAbortUnhealthy w r.job

/-- The writer has given up: fail what is not done. -/
def failWholeFile (o : Owner) (job : JobId) (file : FileId) : Owner :=
  match o.file job file with
  | none => o
  | some f =>
    ((f.segments.filter (!·.state.isDone)).map fun s => (⟨job, file, s.number⟩ : SegRef)).foldl
      (fun o r => o.failSegment w r) o

/-! ### Granting work -/

def selectionCtx (o : Owner) : SelectionCtx where
  servers := o.servers
  isBlocked := fun s => (o.blocked s).any (w.instant < ·)
  delegated := fun j => j ∈ o.delegated
  postFetchFiles := o.postFetchFiles
  regularDownloads := o.downloadEnabled
  articleRetries := o.tuning.articleRetries
  nowUnix := w.nowUnix
  propagationDelaySecs := o.tuning.propagationDelaySecs
  softHold := o.quotaReached
  rotate := o.rotate

/-- The result of one scan. -/
def nextLease (o : Owner) (server : ServerId) : SelectionResult :=
  nextForServer o.state server (o.selectionCtx w) o.attempts

/-- After the scan the exhausted segments are failed, and only then is the lease
applied. -/
def failExhausted (o : Owner) (server : ServerId) : Owner :=
  (o.nextLease w server).exhausted.foldl (fun o r => o.failSegment w r)
    { o with attempts := (o.nextLease w server).attempts }

def markDownloading (j : Job) : Job :=
  if j.status = .queued then { j with status := .downloading } else j

/-- Hand the segment out. -/
def applyLease (o : Owner) (server : ServerId) (r : SegRef) : Owner :=
  let o := ((o.setSegment r (.leased server)).writerFor w r.job r.file).updateJob r.job
    markDownloading
  { o with rotate := (o.rotate + 1) % 2 ^ 64 }

/-- The rounds of `grantWork`.  Each lease comes with the owner as it is when the
lease is applied. -/
def grantRounds (server : ServerId) : Nat → Owner → List (Owner × SegRef) × Owner
  | 0, o => ([], o)
  | n + 1, o =>
    let failed := o.failExhausted w server
    match (o.nextLease w server).lease with
    | none => ([], failed)
    | some r =>
      match failed.ensureAllocation w r.job with
      | none => ([], failed)
      | some granted =>
        if granted.state.segment r = none then ([], granted)
        else
          let rest := grantRounds server n (granted.applyLease w server r)
          ((granted, r) :: rest.1, rest.2)

/-- Answer a request for work. -/
def grantWork (o : Owner) (server : ServerId) (max : Nat) : List (Owner × SegRef) × Owner :=
  if o.diskLow ∨ (o.blocked server).any (w.instant < ·) ∨ (o.servers.all (·.id ≠ server)) then
    ([], o)
  else grantRounds w server max o

/-! ### Outcomes -/

/-- Journal a written segment. -/
def journal (o : Owner) (r : JournalRecord) : Owner :=
  if w.appends then { o with log := o.log ++ [.append r] } else o

def onSegmentWritten (o : Owner) (r : JournalRecord) : Owner :=
  let o := { o with fileSizes := recordSize o.fileSizes r }
  match o.state.segment r.segRef with
  | none => o
  | some seg =>
    if seg.state.isDone then o
    else
      let o := (o.setSegment r.segRef (.done r.offset r.len r.crc32)).journal w r
      ((o.dropAttempt r.segRef).recomputeTotals r.job).afterFileChange w r.job r.file

def blockServer (o : Owner) (server : ServerId) : Owner :=
  { o with blocked := Function.update o.blocked server (some (w.instant + o.tuning.retryInterval)) }

/-- A failed attempt: what becomes of the segment's ladder, and whether the
ladder has ended. -/
def bookAttempt (o : Owner) (r : SegRef) (server : ServerId) (outcome : AttemptOutcome) :
    Verdict × Bool × SegmentAttempt :=
  let att := (o.attempts r).getD (.new o.tuning.articleRetries)
  let v := Ladder.onOutcome att server outcome
  match v.1 with
  | .nextServer =>
    let age := (o.file r.job r.file).bind fun f => articleAgeDays w.nowUnix f.date
    let e := Ladder.isExhausted o.servers v.2 age
    (v.1, e.1, e.2)
  | .failed => (v.1, true, v.2)
  | _ => (v.1, false, v.2)

def onSegmentFailed (o : Owner) (r : SegRef) (server : ServerId) (outcome : AttemptOutcome) :
    Owner :=
  let b := o.bookAttempt w r server outcome
  let o := { o with
    attempts := Function.update o.attempts r (some b.2.2)
    state := o.state.updateSegment r Segment.releaseLease }
  let o := if b.1 = .retrySame true then o.blockServer w server else o
  if b.2.1 then o.failSegment w r else o

/-- Ask a finished file whether it names its job. -/
def maybeLearnNameFrom (o : Owner) (job : JobId) : Owner :=
  match o.state.job job with
  | none => o
  | some j =>
    let waiting := Function.update o.pendingNameInspections job (o.pendingNameInspections job + 1)
    if nameIsOpen j then { o with pendingNameInspections := waiting } else o

/-- The file is in place, or could not be put there. -/
def finalizedAs (ok : Bool) (crc : Option (BitVec 32)) (f : FileEntry) : FileEntry :=
  { f with finalized := true, crc32 := if ok then crc else f.crc32 }

def onWriterFinalized (o : Owner) (job : JobId) (file : FileId) (ok : Bool)
    (hasPath : Bool) (crc : Option (BitVec 32)) : Owner :=
  let o := { o with
    writers := o.writers.filter (· ≠ file)
    finalizeSent := o.finalizeSent.filter (· ≠ file)
    fileSizes := Function.update o.fileSizes file none }
  match o.file job file with
  | none => o
  | some _ =>
    let o := { o with
      state := o.state.updateFile job file (finalizedAs ok crc)
      writeFailures := if ok then o.writeFailures else job :: o.writeFailures }
    let o := if ok && hasPath then o.maybeLearnNameFrom job else o
    o.checkJobComplete w job

def onJobNameInspected (o : Owner) (job : JobId) (name : Option Text) : Owner :=
  let waiting := Function.update o.pendingNameInspections job (o.pendingNameInspections job - 1)
  let o := { o with pendingNameInspections := waiting }
  let o := match name with
    | some name => { o with state := o.state.adoptLearnedName job name }
    | none => o
  o.checkJobComplete w job

end Owner

end Nzbd.Engine
