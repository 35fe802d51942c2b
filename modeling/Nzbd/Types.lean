import Mathlib.Algebra.Group.Nat.Defs
import Mathlib.Data.List.Basic

/-!
# Jobs, files and segments

The records of the queue.  A job is a list of files, a file a list of segments,
and a segment is one article: it is pending, leased to a server, done with the
place of its bytes in the output file, or failed.

Identifiers and sizes are natural numbers, text is a list of characters, clocks
are integers.  The totals of a job count its segments; `Health` measures in
per-mille how much of a job that is not recovery data has been lost, and how
much may be lost before repair is hopeless.
-/

namespace Nzbd

abbrev Text := List Char

abbrev JobId := Nat

-- by name, so that a membership test is the same term in every module
instance : LawfulBEq Text := inferInstance

instance : LawfulBEq (JobId × Int) := inferInstance

abbrev FileId := Nat

abbrev ServerId := Nat

/-- From this priority on a job ignores every pause. -/
def priorityForce : Int := 900

inductive JobKind
  | nzb
  | url
  | torrent
  deriving DecidableEq

inductive TorrentPhase
  | fetchingSource
  | fetchingMetadata
  | queued
  | checking
  | downloading
  | seeding
  | pausedDownload
  | pausedSeed
  | missingFiles
  | failed
  deriving DecidableEq

/-- The last pause or resume the queue owner has accepted. -/
inductive TorrentControlIntent
  | running
  | paused
  deriving DecidableEq

structure TorrentRecord where
  infoHashV1 : Text
  phase : TorrentPhase
  controlIntent : TorrentControlIntent
  /-- The queue has asked for the removal, with or without the data. -/
  removalIntent : Option Bool
  totalBytes : Nat
  readyAtUnix : Option Int
  lastActivityUnix : Option Int
  deriving DecidableEq

inductive DupeMode
  | score
  | all
  | force
  deriving DecidableEq

structure DupeInfo where
  key : Text
  score : Int
  mode : Option DupeMode

structure JobTotals where
  size : Nat
  parSize : Nat
  failedSize : Nat
  failedParSize : Nat
  successSize : Nat
  totalArticles : Nat
  successArticles : Nat
  failedArticles : Nat
  deriving DecidableEq

def JobTotals.default : JobTotals := ⟨0, 0, 0, 0, 0, 0, 0, 0⟩

inductive SegmentState
  | pending
  | leased (server : ServerId)
  /-- Decoded and written at `offset` of the output file. -/
  | done (offset len : Nat) (crc : BitVec 32)
  | failed
  deriving DecidableEq

def SegmentState.isDone : SegmentState → Bool
  | .done .. => true
  | _ => false

def SegmentState.isTerminal : SegmentState → Bool
  | .done .. => true
  | .failed => true
  | _ => false

/-- Out with a connection. -/
def SegmentState.isLeased : SegmentState → Bool
  | .leased _ => true
  | _ => false

structure Segment where
  messageId : Text
  number : Nat
  /-- Encoded size from the NZB. -/
  size : Nat
  state : SegmentState
  deriving DecidableEq

structure FileEntry where
  id : FileId
  subject : Text := []
  filename : Text
  isPar2 : Bool
  paused : Bool
  groups : List Text := []
  /-- Post date of the article, for retention and propagation. -/
  date : Option Int
  segments : List Segment
  crc32 : Option (BitVec 32)
  /-- Assembled and renamed into place. -/
  finalized : Bool
  deriving DecidableEq

namespace FileEntry

def isTerminal (f : FileEntry) : Bool := f.segments.all (·.state.isTerminal)

def hasAnyDone (f : FileEntry) : Bool := f.segments.any (·.state.isDone)

end FileEntry

inductive PostStage
  | parRename
  | parVerify
  | parRepair
  | rarRename
  | unpack
  | cleanup
  | move
  | postUnpackRename
  | script
  deriving DecidableEq

inductive JobStatus
  | queued
  | downloading
  | paused
  /-- A URL job whose NZB has not arrived. -/
  | fetching
  | postQueued
  | post (stage : PostStage)
  | completed
  | failed
  | deleted
  deriving DecidableEq

/-- A stretch of post-processing; it is open until its duration is known. -/
structure StageSpan where
  stage : PostStage
  startedAtUnix : Int
  ms : Option Nat
  deriving DecidableEq

structure Job where
  id : JobId
  kind : JobKind
  /-- The display name; it may change at any time. -/
  name : Text
  /-- The storage name; empty on a job older than the split of the two. -/
  dirName : Text
  /-- `name` stands in for one the job's own documents may still give. -/
  nameProvisional : Bool
  queuedAtUnix : Int
  /-- The name the job was admitted under, once it has changed. -/
  originalName : Text
  category : Option Text
  priority : Int
  params : List (Text × Text)
  files : List FileEntry
  totals : JobTotals
  status : JobStatus
  torrent : Option TorrentRecord
  stages : List StageSpan
  deriving DecidableEq

/-- Coordinates of one segment. -/
structure SegRef where
  job : JobId
  file : FileId
  segNumber : Nat
  deriving DecidableEq

def Job.forcePriority (j : Job) : Bool := priorityForce ≤ j.priority

/-! ### Totals -/

def JobTotals.addSegment (par : Bool) (t : JobTotals) (s : Segment) : JobTotals :=
  let t := { t with
    size := t.size + s.size
    totalArticles := t.totalArticles + 1
    parSize := if par then t.parSize + s.size else t.parSize }
  match s.state with
  | .done .. => { t with
      successSize := t.successSize + s.size
      successArticles := t.successArticles + 1 }
  | .failed => { t with
      failedSize := t.failedSize + s.size
      failedArticles := t.failedArticles + 1
      failedParSize := if par then t.failedParSize + s.size else t.failedParSize }
  | .pending => t
  | .leased _ => t

def jobTotals (files : List FileEntry) : JobTotals :=
  files.foldl (fun t f => f.segments.foldl (JobTotals.addSegment f.isPar2) t) .default

def recomputeJobTotals (job : Job) : Job := { job with totals := jobTotals job.files }

/-! ### Health -/

/-- Multiplication that stays at the largest 64-bit value. -/
def satMul (a b : Nat) : Nat := min (a * b) (2 ^ 64 - 1)

namespace Health

def perfect : Nat := 1000

/-- The part of the data that is not recovery data and is not lost, per-mille. -/
def calcHealth (t : JobTotals) : Nat :=
  let nonParFailed := t.failedSize - t.failedParSize
  if nonParFailed = 0 then perfect
  else
    let denom := t.size - t.parSize
    if denom = 0 then 0 else min (satMul (denom - nonParFailed) 1000 / denom) 999

/-- The health below which repair is hopeless. -/
def calcCritical (t : JobTotals) (allowEstimation : Bool) : Nat :=
  let goodPar := t.parSize - t.failedParSize
  if t.size = 0 ∨ t.size ≤ satMul goodPar 2 then 0
  else
    let raw := min (satMul (t.size - 2 * goodPar) 1000 / (t.size - goodPar)) 1000
    if raw = 1000 ∧ allowEstimation then 850 else raw

end Health

end Nzbd
