import Mathlib.Algebra.Group.Int.Defs
import Nzbd.Lib.FirstMatch
import Nzbd.Torrent.Record

/-!
# The queue owner and its torrents

The part of the owner that controls torrents.  What it asks of the engine goes
through one bounded channel; what the channel does not take is kept in
`pendingBackendCommands`, and later commands wait behind it.  Operator and policy
requests are saved before their command is handed on (`persistThenCommand`), the
commands of the scheduler are not (`enqueueBackendCommand`).

Facts come back through a second channel and are folded at a tick, together with
the latest samples; a removal the engine has confirmed is saved, recorded in the
history and then forgotten.

`log` is what happened, in order.  It is no part of the source: the answers of
the world are indexed by its length, so that each question has an answer of its
own.  The order in which a hash set is walked is an input, like the set of jobs
that may download now and the limit that follows from the measured rates.
-/

namespace Nzbd.Torrent

def maxPendingBackendCommands : Nat := 64

inductive Event
  | saved (jobs : List Job)
  | saveFailed
  /-- The channel took the command. -/
  | sent (c : BackendCommand)
  | full (c : BackendCommand)
  /-- The command was accepted: sent, or kept to be sent. -/
  | accepted (c : BackendCommand)
  /-- The history was asked to keep this entry. -/
  | recorded (job : JobId) (completedAtUnix : Int) (result : RecordResult)
  deriving DecidableEq

structure Owner where
  jobs : List Job
  persist : Bool
  torrentPayloadRoots : List PathBuf
  pendingBackendCommands : List BackendCommand
  /-- Torrents whose start is on its way or has been confirmed. -/
  backendStarted : List JobId
  /-- The last sample of each torrent. -/
  torrentProgress : JobId → Option TransferProgress
  seedClockUnix : JobId → Option Int
  appliedTorrentLimit : Option (Option Nat)
  /-- Bytes charged to the quota of the torrents. -/
  charged : Nat
  /-- The channel to the engine, and the channel back. -/
  commands : List BackendCommand
  facts : List BackendFact
  /-- The jobs of the snapshot on disk. -/
  disk : List Job
  /-- The keys in the history. -/
  history : List (JobId × Int)
  log : List Event

namespace Owner

variable (w : World)

/-! ### State -/

def job (o : Owner) (id : JobId) : Option Job := o.jobs.find? (·.id = id)

/-- Write through the reference to a job. -/
def updateJob (o : Owner) (id : JobId) (f : Job → Job) : Owner :=
  { o with jobs := o.jobs.modifyFirst (·.id = id) f }

/-- Write through the reference to the record of a job. -/
def updateRecord (o : Owner) (id : JobId) (f : TorrentRecord → TorrentRecord) : Owner :=
  o.updateJob id fun j => { j with torrent := j.torrent.map f }

def note (o : Owner) (e : Event) : Owner := { o with log := o.log ++ [e] }

def saveSnapshot (o : Owner) : Bool × Owner :=
  if o.persist then
    match w.save o.log.length with
    | .ok => (true, { o with disk := o.jobs }.note (.saved o.jobs))
    | .ioError landed =>
      (false, { o with disk := if landed then o.jobs else o.disk }.note .saveFailed)
    | .corrupt => (false, { o with persist := false }.note .saveFailed)
  else (false, o)

def persistIfOwner (o : Owner) : Bool × Owner :=
  if o.persist then o.saveSnapshot w else (true, o)

/-! ### The channel to the engine -/

def tryCommand (o : Owner) (c : BackendCommand) : Bool × Owner :=
  if w.takes o.log.length then (true, { o with commands := o.commands ++ [c] }.note (.sent c))
  else (false, o.note (.full c))

/-- Keep a command behind the others. -/
def retain (o : Owner) (c : BackendCommand) : Owner :=
  { o with pendingBackendCommands := o.pendingBackendCommands ++ [c] }.note (.accepted c)

def flushFrom : List BackendCommand → Owner → Owner
  | [], o => { o with pendingBackendCommands := [] }
  | c :: cs, o =>
    let r := o.tryCommand w c
    if r.1 then flushFrom cs r.2 else { r.2 with pendingBackendCommands := c :: cs }

def flushBackendCommands (o : Owner) : Owner := flushFrom w o.pendingBackendCommands o

def enqueueBackendCommand (o : Owner) (c : BackendCommand) : Bool × Owner :=
  if o.pendingBackendCommands ≠ [] then
    if o.pendingBackendCommands.length = maxPendingBackendCommands then (false, o)
    else (true, o.retain c)
  else
    let r := o.tryCommand w c
    if r.1 then (true, r.2.note (.accepted c))
    else if r.2.pendingBackendCommands.length = maxPendingBackendCommands then (false, r.2)
    else (true, r.2.retain c)

/-- Save first, then pass the command on. -/
def persistThenCommand (o : Owner) (c : BackendCommand) : Bool × Owner :=
  if o.pendingBackendCommands ≠ [] then
    if o.pendingBackendCommands.length = maxPendingBackendCommands then (false, o)
    else
      let r := o.persistIfOwner w
      if r.1 then (true, r.2.retain c) else (false, r.2)
  else
    let r := o.persistIfOwner w
    if r.1 then r.2.enqueueBackendCommand w c else (false, r.2)

/-- A change of a job that is taken back unless its command is accepted. -/
def requestChange (o : Owner) (id : JobId) (f : Job → Job) (c : BackendCommand) : Bool × Owner :=
  let r := (o.updateJob id f).persistThenCommand w c
  if r.1 then r
  else
    match o.job id with
    | some before => (false, r.2.updateJob id fun _ => before)
    | none => (false, r.2)

/-! ### Requests of the operator -/

def isActive : JobStatus → Bool
  | .queued => true
  | .downloading => true
  | _ => false

def pausedJob (j : Job) : Job :=
  { j with
    status := .paused
    torrent := j.torrent.map fun t =>
      { t with controlIntent := .paused, stopReason := some .manual } }

def pause (o : Owner) (id : JobId) : Bool × Owner :=
  match o.job id with
  | none => (false, o)
  | some j =>
    if isActive j.status = false then (false, o)
    else if j.kind = .torrent ∧ j.torrent.isSome then o.requestChange w id pausedJob (.pause id)
    else (true, o.updateJob id fun j => { j with status := .paused })

def resumedRecord (t : TorrentRecord) : TorrentRecord :=
  let missing := t.phase = .missingFiles
  let ready := if missing then none else t.readyAtUnix
  { t with
    controlIntent := .running
    stopReason := none
    readyAtUnix := ready
    contentPath := if missing then none else t.contentPath
    phase := if ready = none then .queued else t.phase
    lastActivityUnix := if ready = none then some w.nowUnix else t.lastActivityUnix }

def resumedJob (j : Job) : Job :=
  { j with status := .queued, torrent := j.torrent.map (resumedRecord w) }

/-- A torrent that has seeded enough is not resumed. -/
def seedingEnded (j : Job) : Bool :=
  j.torrent.any fun t =>
    (t.phase = .seeding || t.phase = .pausedSeed) && t.readyAtUnix.isSome &&
      seedPolicyReached w t

/-- The engine is not told: the scheduler will start the torrent. -/
def resume (o : Owner) (id : JobId) : Bool × Owner :=
  match o.job id with
  | none => (false, o)
  | some j =>
    if seedingEnded w j ∨ j.status ≠ .paused then (false, o)
    else if j.kind = .torrent ∧ j.torrent.isSome then
      let r := (o.updateJob id (resumedJob w)).persistIfOwner w
      if r.1 then (true, r.2) else (false, r.2.updateJob id fun _ => j)
    else (true, o.updateJob id fun j => { j with status := .queued })

/-- Take a job out of the queue; its payload stays. -/
def deleteJob (o : Owner) (id : JobId) (deleteFiles : Bool) : Bool × Owner :=
  if deleteFiles then (false, o)
  else
    match o.job id with
    | none => (false, o)
    | some _ =>
      if w.forgets id then
        (true, ({ o with jobs := o.jobs.eraseP (·.id = id) }.saveSnapshot w).2)
      else (false, o)

def delete (o : Owner) (id : JobId) (deleteFiles : Bool) : Bool × Owner :=
  match (o.job id).bind (·.torrent) with
  | some t =>
    o.requestChange w id
      (fun j => { j with torrent := j.torrent.map fun t =>
        { t with removalIntent := some deleteFiles } })
      (.remove id deleteFiles t.contentPath t.files o.torrentPayloadRoots)
  | none => o.deleteJob w id deleteFiles

def setPriority (o : Owner) (id : JobId) (priority : Int) : Bool × Owner :=
  match o.job id with
  | none => (false, o)
  | some j =>
    if j.kind = .torrent ∧ j.priority ≠ priority then
      o.requestChange w id (fun j => { j with priority := priority }) (.setPriority id priority)
    else (true, o.updateJob id fun j => { j with priority := priority })

def setUploadLimit (o : Owner) (bytesPerSec : Option Nat) : Owner :=
  (o.enqueueBackendCommand w (.setUploadLimit bytesPerSec)).2

/-! ### The scheduler -/

/-- Verified torrents seed outside the limit on downloads. -/
def seeds (j : Job) : Bool :=
  j.torrent.any fun t =>
    t.readyAtUnix.isSome && t.controlIntent = .running && t.removalIntent.isNone

def runnable (j : Job) : Bool :=
  j.kind = .torrent && j.status ≠ .paused &&
    j.torrent.any fun t => t.controlIntent = .running && t.removalIntent.isNone

def startTorrent (o : Owner) (id : JobId) : Owner :=
  if (o.job id).any runnable = false ∨ id ∈ o.backendStarted then o
  else
    let r := o.enqueueBackendCommand w (.start id)
    if r.1 then { r.2 with backendStarted := id :: r.2.backendStarted } else r.2

def yieldTorrent (o : Owner) (id : JobId) : Owner :=
  let r := o.enqueueBackendCommand w (.pauseForScheduler id)
  if r.1 then { r.2 with backendStarted := r.2.backendStarted.filter (· ≠ id) } else r.2

/-- Started, not desired any more and not yet complete. -/
def yields (o : Owner) (desired : List JobId) (id : JobId) : Bool :=
  id ∈ o.backendStarted && id ∉ desired &&
    (o.job id).any fun j => j.torrent.any (·.readyAtUnix.isNone)

/-- `active` is the active set; `walk` orders the members of a hash set. -/
def scheduleTorrentStarts (active : List JobId) (walk : List JobId → List JobId) (o : Owner) :
    Owner :=
  let desired := active ++ (o.jobs.filter seeds).map (·.id)
  let o := (walk desired).foldl (startTorrent w) o
  (walk (o.backendStarted.filter (o.yields desired))).foldl (yieldTorrent w) o

def rebalanceDownloadBudget (o : Owner) (limit : Option Nat) : Owner :=
  if o.appliedTorrentLimit = some limit then o
  else
    let r := o.enqueueBackendCommand w (.setDownloadLimit limit)
    if r.1 then { r.2 with appliedTorrentLimit := some limit } else r.2

/-- A new limit is applied again in any case. -/
def setSpeedLimit (o : Owner) (limit : Option Nat) : Owner :=
  { o with appliedTorrentLimit := none }.rebalanceDownloadBudget w limit

/-- Jobs that no longer download are labelled so. -/
def settleDownloadLabels (o : Owner) (demoted : List JobId) : Owner :=
  demoted.foldl (fun o id => o.updateJob id fun j =>
    if j.status = .downloading then { j with status := .queued } else j) o

/-! ### Seeding -/

def isSeeding (j : Job) : Bool :=
  j.torrent.any fun t => t.phase = .seeding && t.controlIntent = .running

/-- A difference of 64-bit clocks, saturated and then read without its sign. -/
def elapsedSecs (last now : Int) : Nat :=
  (max (-2 ^ 63) (min (now - last) (2 ^ 63 - 1)) % 2 ^ 64).toNat

/-- The time a torrent has been seeding since the last tick. -/
def accrue (clock : JobId → Option Int) (j : Job) : Job :=
  if isSeeding j then
    { j with torrent := j.torrent.map fun t => { t with
      seedingSeconds := min (2 ^ 64 - 1)
        (t.seedingSeconds + elapsedSecs ((clock j.id).getD w.nowUnix) w.nowUnix) } }
  else j

def seedPolicyPaused (reason : TorrentStopReason) (j : Job) : Job :=
  { j with
    status := .paused
    torrent := j.torrent.map fun t =>
      { t with controlIntent := .paused, stopReason := some reason } }

def pauseForSeedPolicy (o : Owner) (id : JobId) (reason : TorrentStopReason) : Bool × Owner :=
  match o.job id with
  | none => (false, o)
  | some _ => o.requestChange w id (seedPolicyPaused reason) (.pauseForSeedPolicy id)

def reachedPolicies (jobs : List Job) : List (JobId × TorrentStopReason) :=
  (jobs.filter isSeeding).filterMap fun j =>
    j.torrent.bind fun t => (seedPolicyStopReason w t).map (j.id, ·)

def updateSeedPolicies (o : Owner) : Owner :=
  let live := (o.jobs.filter isSeeding).map (·.id)
  let o := { o with
    jobs := o.jobs.map (accrue w o.seedClockUnix)
    seedClockUnix := fun id => if id ∈ live then some w.nowUnix else none }
  (reachedPolicies w o.jobs).foldl (fun o r => (o.pauseForSeedPolicy w r.1 r.2).2) o

/-! ### Storage -/

def holdsForStorage (j : Job) : Bool :=
  j.kind = .torrent && j.torrent.any fun t =>
    t.readyAtUnix.isNone && t.removalIntent.isNone && t.controlIntent = .running

def pauseForStorage (o : Owner) (id : JobId) : Owner :=
  let r := o.enqueueBackendCommand w (.pauseForStorage id)
  if r.1 then { r.2 with backendStarted := r.2.backendStarted.filter (· ≠ id) } else r.2

def pauseIncompleteTorrentsForStorage (o : Owner) : Owner :=
  ((o.jobs.filter holdsForStorage).map (·.id)).foldl (pauseForStorage w) o

def releasedJob (j : Job) : Job :=
  match j.torrent with
  | none => j
  | some t =>
    if t.controlIntent = .running ∧ t.phase = .pausedDownload ∧
        t.lastError = some storageFullError then
      { j with
        status := .queued
        torrent := some { t with phase := .queued, lastError := none, stopReason := none } }
    else j

def releaseTorrentsAfterStorageRecovery (o : Owner) : Owner :=
  { o with jobs := o.jobs.map releasedJob }

/-! ### Samples and facts -/

def downloadedOf (j : Job) : Nat := (j.torrent.map (·.downloadedBytes)).getD 0

def foldSample (j : Job) (p : TransferProgress) : Job × Nat :=
  let after := (reconcileProgress j p).1
  (after, downloadedOf after - downloadedOf j)

def foldProgress (o : Owner) (s : JobId × TransferProgress) : Owner :=
  match o.job s.1 with
  | none => o
  | some j =>
    { o.updateJob s.1 fun j => (foldSample j s.2).1 with
      charged := o.charged + (foldSample j s.2).2
      torrentProgress := Function.update o.torrentProgress s.1 (some s.2) }

/-- `latest` is the last value of every torrent that has been sampled. -/
def foldBackendProgress (o : Owner) (latest : List (JobId × TransferProgress)) : Owner :=
  let o := latest.foldl foldProgress o
  { o with torrentProgress := fun id => if (o.job id).isSome then o.torrentProgress id else none }

/-- What a fact says about whether the torrent runs. -/
def factStarted (started : List JobId) : BackendFact → List JobId
  | .resumed job => if job ∈ started then started else job :: started
  | .stopped job _ => started.filter (· ≠ job)
  | .removed job _ => started.filter (· ≠ job)
  | .failed job _ => started.filter (· ≠ job)
  | .metadataReady .. => started
  | .ready .. => started

def disposition : RemovalOutcome → Option TorrentPayloadDisposition
  | .dataDeleted => some .deleted
  | .dataKept => some .retained
  | .refusedUnsafeRoot => none
  | .refusedInventoryMismatch => none

/-- The engine has confirmed the end of a torrent. -/
def confirm (d : TorrentPayloadDisposition) (t : TorrentRecord) : TorrentRecord :=
  { t with removalOutcome := some d, removalConfirmedAtUnix := some w.nowUnix }

def reconcile (o : Owner) (fact : BackendFact) : Owner :=
  o.updateJob (factJob fact) fun j =>
    (reconcileFact w o.torrentPayloadRoots j fact (o.torrentProgress (factJob fact))).1

def foldFact (o : Owner) (fact : BackendFact) : Owner :=
  let o := { o with backendStarted := factStarted o.backendStarted fact }
  match fact with
  | .removed id outcome =>
    match disposition outcome with
    | some d => o.updateRecord id (confirm w d)
    | none => o.reconcile w fact
  | .failed id _ => (o.reconcile w fact).updateRecord id (confirm w .retained)
  | _ => o.reconcile w fact

/-- Fold the `n` facts that have arrived. -/
def foldBackendStructural (o : Owner) (n : Nat) : Owner :=
  (o.facts.take n).foldl (foldFact w) { o with facts := o.facts.drop n }

/-! ### Confirmed removals -/

/-- Ask the history for the entry of this key. -/
def record (o : Owner) (id : JobId) (completedAtUnix : Int) : Bool × Owner :=
  let keys := if (id, completedAtUnix) ∈ o.history then o.history
    else (id, completedAtUnix) :: o.history
  match w.records o.log.length with
  | .ok => (true, { o with history := keys }.note (.recorded id completedAtUnix .ok))
  | .error landed =>
    (false, { o with history := if landed then keys else o.history }.note
      (.recorded id completedAtUnix (.error landed)))

/-- The entry first, then the job goes. -/
def finalizeRemoval (o : Owner) (j : Job) : Owner :=
  match j.torrent.bind (·.removalConfirmedAtUnix) with
  | none => o
  | some at' =>
    let r := o.record w j.id at'
    if r.1 then (r.2.deleteJob w j.id false).2 else r.2

def confirmed (j : Job) : Bool := j.torrent.any (·.removalOutcome.isSome)

def finalizeConfirmedTorrentRemovals (o : Owner) : Owner :=
  let pending := o.jobs.filter confirmed
  if pending = [] then o
  else
    let r := o.persistIfOwner w
    if r.1 then pending.foldl (finalizeRemoval w) r.2 else r.2

end Owner

/-! ### Messages and parts of a tick -/

inductive Input
  | pause (job : JobId)
  | resume (job : JobId)
  | delete (job : JobId) (deleteFiles : Bool)
  | setPriority (job : JobId) (priority : Int)
  | setUploadLimit (bytesPerSec : Option Nat)
  | setSpeedLimit (torrentLimit : Option Nat)
  | flush
  | foldProgress (latest : List (JobId × TransferProgress))
  | foldFacts (n : Nat)
  | finalizeRemovals
  | updateSeedPolicies
  | settleLabels (demoted : List JobId)
  | schedule (active : List JobId) (walk : List JobId → List JobId)
  | holdStorage
  | releaseStorage
  | rebalance (torrentLimit : Option Nat)
  | save

/-- A tick is a sequence of these; a message of the operator comes between two
ticks. -/
def Owner.step (w : World) (o : Owner) : Input → Owner
  | .pause job => (o.pause w job).2
  | .resume job => (o.resume w job).2
  | .delete job deleteFiles => (o.delete w job deleteFiles).2
  | .setPriority job priority => (o.setPriority w job priority).2
  | .setUploadLimit limit => o.setUploadLimit w limit
  | .setSpeedLimit limit => o.setSpeedLimit w limit
  | .flush => o.flushBackendCommands w
  | .foldProgress latest => o.foldBackendProgress latest
  | .foldFacts n => o.foldBackendStructural w n
  | .finalizeRemovals => o.finalizeConfirmedTorrentRemovals w
  | .updateSeedPolicies => o.updateSeedPolicies w
  | .settleLabels demoted => o.settleDownloadLabels demoted
  | .schedule active walk => o.scheduleTorrentStarts w active walk
  | .holdStorage => o.pauseIncompleteTorrentsForStorage w
  | .releaseStorage => o.releaseTorrentsAfterStorageRecovery
  | .rebalance limit => o.rebalanceDownloadBudget w limit
  | .save => (o.saveSnapshot w).2

/-! ### An owner that has not said anything yet -/

def plainRecord : TorrentRecord where
  infoHashV1 := []
  phase := .downloading
  controlIntent := .running
  removalIntent := none
  totalBytes := 10
  readyAtUnix := none
  lastActivityUnix := none
  metadataFile := []
  removalOutcome := none
  removalConfirmedAtUnix := none
  files := [⟨[], 10, true, 0⟩]
  selectedBytes := 10
  downloadedBytes := 0
  uploadedBytes := 0
  seedingSeconds := 0
  contentPath := none
  seedPolicy := ⟨false, none, none⟩
  stopReason := none
  lastError := none

def plainJob : Job := ⟨1, .torrent, .downloading, 0, some plainRecord⟩

/-- An owner of these jobs that has not said anything yet. -/
def newOwner (jobs : List Job) : Owner where
  jobs := jobs
  persist := true
  torrentPayloadRoots := []
  pendingBackendCommands := []
  backendStarted := []
  torrentProgress := fun _ => none
  seedClockUnix := fun _ => none
  appliedTorrentLimit := none
  charged := 0
  commands := []
  facts := []
  disk := jobs
  history := []
  log := []

def fairWorld (now : Int) : World where
  nowUnix := now
  payloadIsWithinRoot := fun _ _ => true
  ratioReached := fun _ _ _ => false
  save := fun _ => .ok
  takes := fun _ => true
  records := fun _ => .ok
  forgets := fun _ => true

end Nzbd.Torrent
