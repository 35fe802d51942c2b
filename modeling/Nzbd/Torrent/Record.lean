import Nzbd.Types

/-!
# Torrents

The record the queue keeps of a torrent, the commands that go to the engine and
the facts and samples that come back.  `reconcileProgress` folds a sample into
the record and `reconcileFact` a fact; nothing else the engine says reaches the
queue.

A job has here only what these functions read and write.  Its name is left out
    (the fact that brings the metadata of a magnet may also name the job, which is
`Engine.Owner.torrentFact`), and so are the articles and the totals.

What the file system, the clock and the floating-point unit decide is answered
by a `World`.
-/

namespace Nzbd.Torrent

/-- What `Path::components` yields. -/
inductive Component
  | rootDir
  | curDir
  | parentDir
  | normal (name : Text)
  deriving DecidableEq

abbrev PathBuf := List Component

inductive TorrentStopReason
  | manual
  | downloadComplete
  | ratioLimit
  | timeLimit
  | storageFull
  deriving DecidableEq

inductive TorrentPayloadDisposition
  | retained
  | deleted
  deriving DecidableEq

structure SeedPolicy where
  stopOnComplete : Bool
  /-- The bits of a floating-point number. -/
  ratioLimit : Option (BitVec 64)
  timeLimitSecs : Option Nat
  deriving DecidableEq

structure TorrentFileRecord where
  path : PathBuf
  length : Nat
  selected : Bool
  /-- Bytes of the file that have been verified. -/
  downloadedBytes : Nat
  deriving DecidableEq

/-- The record of `Nzbd.Types` with the fields the engine has a part in. -/
structure TorrentRecord extends Nzbd.TorrentRecord where
  /-- Relative to the root of the torrent state. -/
  metadataFile : PathBuf
  /-- The engine has confirmed the removal; only the history is missing. -/
  removalOutcome : Option TorrentPayloadDisposition
  /-- When it did, which is the key of the history entry. -/
  removalConfirmedAtUnix : Option Int
  files : List TorrentFileRecord
  selectedBytes : Nat
  downloadedBytes : Nat
  uploadedBytes : Nat
  seedingSeconds : Nat
  contentPath : Option PathBuf
  seedPolicy : SeedPolicy
  stopReason : Option TorrentStopReason
  lastError : Option Text
  deriving DecidableEq

structure Job where
  id : JobId
  kind : JobKind
  status : JobStatus
  priority : Int
  torrent : Option TorrentRecord
  deriving DecidableEq

/-! ### Commands and facts -/

inductive BackendCommand
  | start (job : JobId)
  | pause (job : JobId)
  | pauseForSeedPolicy (job : JobId)
  | pauseForStorage (job : JobId)
  | pauseForScheduler (job : JobId)
  | resume (job : JobId)
  | remove (job : JobId) (deleteData : Bool) (contentPath : Option PathBuf)
      (files : List TorrentFileRecord) (allowedRoots : List PathBuf)
  | setPriority (job : JobId) (priority : Int)
  | setDownloadLimit (bytesPerSec : Option Nat)
  | setUploadLimit (bytesPerSec : Option Nat)
  deriving DecidableEq

/-- The last value of what a transfer has done. -/
structure TransferProgress where
  verifiedBytes : Nat
  /-- In the order of the files of the record. -/
  fileProgressBytes : List Nat
  uploadedBytes : Nat
  lastActivityUnix : Option Int

structure TorrentMetadata where
  infoHashV1 : Text
  totalBytes : Nat
  selectedBytes : Nat
  deriving DecidableEq

inductive StopReason
  | paused
  | seedPolicyReached
  | removed
  | shutdown
  | storageFull
  | schedulerYield
  | missingContent
  | transient
  deriving DecidableEq

inductive RemovalOutcome
  | dataDeleted
  | dataKept
  | refusedUnsafeRoot
  | refusedInventoryMismatch
  deriving DecidableEq

inductive BackendFact
  | metadataReady (job : JobId) (torrent : TorrentMetadata)
  | ready (job : JobId) (contentPath : PathBuf)
  | stopped (job : JobId) (reason : StopReason)
  | resumed (job : JobId)
  | removed (job : JobId) (outcome : RemovalOutcome)
  | failed (job : JobId) (error : Text)
  deriving DecidableEq

def factJob : BackendFact → JobId
  | .metadataReady job _ => job
  | .ready job _ => job
  | .stopped job _ => job
  | .resumed job => job
  | .removed job _ => job
  | .failed job _ => job

/-! ### The world -/

inductive SaveResult
  | ok
  /-- An error of the disk; the new snapshot may be in place all the same. -/
  | ioError (landed : Bool)
  /-- Fenced, or not writable for its version: the owner stops persisting. -/
  | corrupt

/-- What the history says to an entry. -/
inductive RecordResult
  | ok
  /-- An error; the entry may have reached the log all the same. -/
  | error (landed : Bool)
  deriving DecidableEq

/-- What is answered from outside during one message.  Answers that may change
within a message are indexed by a length that grows with each question. -/
structure World where
  nowUnix : Int
  /-- `payload_is_within_root`, which asks the file system. -/
  payloadIsWithinRoot : PathBuf → PathBuf → Bool
  /-- The bytes sent have reached the limit times the bytes selected. -/
  ratioReached : BitVec 64 → Nat → Nat → Bool
  save : Nat → SaveResult
  /-- The channel to the engine has room. -/
  takes : Nat → Bool
  records : Nat → RecordResult
  /-- The inventory lets go of the payload. -/
  forgets : JobId → Bool

variable (w : World)

def seedPolicyStopReason (t : TorrentRecord) : Option TorrentStopReason :=
  if t.seedPolicy.stopOnComplete ∧ t.readyAtUnix.isSome then some .downloadComplete
  else if t.seedPolicy.ratioLimit.any fun limit =>
      0 < t.selectedBytes && w.ratioReached limit t.uploadedBytes t.selectedBytes then
    some .ratioLimit
  else if t.seedPolicy.timeLimitSecs.any (· ≤ t.seedingSeconds) then some .timeLimit
  else none

def seedPolicyReached (t : TorrentRecord) : Bool := (seedPolicyStopReason w t).isSome

/-! ### Samples -/

structure ReconcileOutcome where
  durableChanged : Bool
  storageHold : Bool

def ReconcileOutcome.none : ReconcileOutcome := ⟨false, false⟩

/-- The later of two times that may be missing. -/
def laterActivity : Option Int → Option Int → Option Int
  | some old, some new => some (max old new)
  | old, new => old.or new

def foldVerified (f : TorrentFileRecord) (verified : Nat) : TorrentFileRecord :=
  let verified := min verified f.length
  if f.downloadedBytes < verified then { f with downloadedBytes := verified } else f

/-- The files and the sample, as far as both go. -/
def foldFiles : List TorrentFileRecord → List Nat → List TorrentFileRecord
  | f :: fs, v :: vs => foldVerified f v :: foldFiles fs vs
  | fs, _ => fs

/-- Only verified bytes count, and a recheck that starts again at zero takes
nothing back. -/
def sampled (t : TorrentRecord) (p : TransferProgress) : TorrentRecord :=
  { t with
    downloadedBytes := max t.downloadedBytes (min p.verifiedBytes t.selectedBytes)
    uploadedBytes := max t.uploadedBytes p.uploadedBytes
    lastActivityUnix := laterActivity t.lastActivityUnix p.lastActivityUnix
    files := foldFiles t.files p.fileProgressBytes }

def reconcileProgress (job : Job) (p : TransferProgress) : Job × ReconcileOutcome :=
  match job.torrent with
  | none => (job, .none)
  | some t =>
    if job.kind = .torrent then
      ({ job with torrent := some (sampled t p) }, ⟨sampled t p ≠ t, false⟩)
    else (job, .none)

/-! ### Facts -/

def storageFullError : Text := "storage full".toList

def removalRefusedError : Text := "torrent removal refused unsafe payload".toList

def factStateChanged (before after : Job) : Bool :=
  before.status ≠ after.status || before.torrent ≠ after.torrent

def onMetadataReady (job : Job) (t : TorrentRecord) (m : TorrentMetadata) : Job :=
  { job with torrent := some { t with
    infoHashV1 := m.infoHashV1
    totalBytes := m.totalBytes
    selectedBytes := m.selectedBytes
    phase := if t.phase = .fetchingSource ∨ t.phase = .fetchingMetadata then .queued
      else t.phase } }

/-- Readiness is accepted only on the word of a sample that proves every
selected byte verified. -/
def acceptsReady (roots : List PathBuf) (t : TorrentRecord) (contentPath : PathBuf)
    (latest : Option TransferProgress) : Bool :=
  roots.any (w.payloadIsWithinRoot contentPath ·) &&
    t.selectedBytes ≤ (latest.map (·.verifiedBytes)).getD 0 && t.selectedBytes ≠ 0

def completed (f : TorrentFileRecord) : TorrentFileRecord :=
  if f.selected then { f with downloadedBytes := f.length } else f

def onReady (job : Job) (t : TorrentRecord) (contentPath : PathBuf) : Job :=
  { job with
    status := if job.status = .paused then .paused else .downloading
    torrent := some { t with
      downloadedBytes := t.selectedBytes
      files := t.files.map completed
      readyAtUnix := t.readyAtUnix.or (some w.nowUnix)
      contentPath := some contentPath
      phase := if job.status = .paused then .pausedSeed else .seeding
      lastError := none } }

/-- The backend is paused, by request or for want of space. -/
def halted (job : Job) (t : TorrentRecord) (full : Bool) : Job :=
  { job with
    status := .paused
    torrent := some { t with
      phase := if t.readyAtUnix.isSome then .pausedSeed else .pausedDownload
      lastError := if full then some storageFullError else none
      stopReason := if full then some .storageFull else t.stopReason } }

def onStopped (job : Job) (t : TorrentRecord) : StopReason → Job
  | .paused => halted job t false
  | .storageFull => halted job t true
  | .schedulerYield =>
    { job with
      status := .queued
      torrent := some { t with phase := .queued, lastError := none } }
  | .missingContent =>
    { job with status := .paused, torrent := some { t with phase := .missingFiles } }
  | .transient =>
    if job.status = .paused then job
    else if t.readyAtUnix.isSome then
      { job with status := .downloading, torrent := some { t with phase := .seeding } }
    else if t.phase = .queued ∨ t.phase = .downloading then
      { job with status := .downloading, torrent := some { t with phase := .downloading } }
    else job
  | .seedPolicyReached =>
    { job with
      status := .paused
      torrent := some { t with
        stopReason := t.stopReason.or (seedPolicyStopReason w t)
        phase := .pausedSeed } }
  | .removed => job
  | .shutdown => job

def onResumed (job : Job) (t : TorrentRecord) : Job :=
  if job.status = .paused then { job with torrent := some { t with lastError := none } }
  else
    { job with
      status := .downloading
      torrent := some { t with
        lastError := none
        stopReason := none
        lastActivityUnix := some w.nowUnix
        phase := if t.readyAtUnix.isSome then .seeding else .downloading } }

def onRemoved (job : Job) (t : TorrentRecord) : RemovalOutcome → Job
  | .refusedUnsafeRoot =>
    { job with torrent := some { t with lastError := some removalRefusedError } }
  | .refusedInventoryMismatch =>
    { job with torrent := some { t with lastError := some removalRefusedError } }
  | .dataDeleted => job
  | .dataKept => job

def onFailed (job : Job) (t : TorrentRecord) (error : Text) : Job :=
  { job with
    status := .failed
    torrent := some { t with phase := .failed, lastError := some error } }

/-- What a fact makes of the job it is about. -/
def folded (roots : List PathBuf) (job : Job) (t : TorrentRecord)
    (latest : Option TransferProgress) : BackendFact → Job
  | .metadataReady _ m => onMetadataReady job t m
  | .ready _ path => if acceptsReady w roots t path latest then onReady w job t path else job
  | .stopped _ reason => onStopped w job t reason
  | .resumed _ => onResumed w job t
  | .removed _ outcome => onRemoved job t outcome
  | .failed _ error => onFailed job t error

/-- `reconcile_fact_with_roots`. -/
def reconcileFact (roots : List PathBuf) (job : Job) (fact : BackendFact)
    (latest : Option TransferProgress) : Job × ReconcileOutcome :=
  match job.torrent with
  | none => (job, .none)
  | some t =>
    if factJob fact ≠ job.id ∨ job.kind ≠ .torrent ∨ job.status = .deleted then (job, .none)
    else
      let after := folded w roots job t latest fact
      (after, ⟨factStateChanged job after, fact = .stopped job.id .storageFull⟩)

end Nzbd.Torrent
