import Nzbd.Lib.FirstMatch
import Nzbd.Engine.Naming

/-!
# The queue

The jobs, the torrents waiting for their commit, and the two counters new ids
come from.  The operations are those of the queue owner: admission of an NZB, a
URL and a torrent, the arrival of the NZB of a URL job, renaming, and the way
into and out of the snapshot document.

`fromDoc` does more than read: it drops the leases, and it repairs the names and
directories of a queue that an older daemon admitted.

Counters are 32 bits wide and wrap.  The clock is a parameter, and so is
`lower`, the lower-case mapping of Unicode.
-/

namespace Nzbd

structure QueueState where
  jobs : List Job
  /-- The ids of the torrents whose admission has been reserved. -/
  pendingAdmissions : List JobId
  nextJobId : Nat
  nextFileId : Nat
  downloadPaused : Bool
  speedLimitBps : Option Nat
  maxActiveDownloads : Nat

structure QueueSnapshotDoc where
  jobs : List Job
  pendingAdmissions : List JobId
  nextJobId : Nat
  nextFileId : Nat
  downloadPaused : Bool
  speedLimitBps : Option Nat
  maxActiveDownloads : Nat

def minActiveDownloads : Nat := 1

def maxActiveDownloads : Nat := 100

def clampActiveDownloads (n : Nat) : Nat := max minActiveDownloads (min n maxActiveDownloads)

/-- The next value of a 32-bit counter. -/
def succU32 (n : Nat) : Nat := (n + 1) % 2 ^ 32

/-- What an owner knows about a torrent when it commits the admission. -/
structure TorrentAdmissionCommit where
  name : Text
  category : Option Text
  priority : Int
  paused : Bool
  params : List (Text × Text)
  record : TorrentRecord

/-! ### Out of the snapshot -/

def Segment.releaseLease (s : Segment) : Segment :=
  match s.state with
  | .leased _ => { s with state := .pending }
  | _ => s

def FileEntry.releaseLeases (f : FileEntry) : FileEntry :=
  { f with segments := f.segments.map Segment.releaseLease }

/-- The phases a running torrent starts again from. -/
def TorrentPhase.restarts : TorrentPhase → Bool
  | .queued => true
  | .downloading => true
  | .checking => true
  | .pausedDownload => true
  | _ => false

/-- A restored torrent is paused; the old activity must not keep it from being
started. -/
def restartTorrent (now : Int) (status : JobStatus) (t : TorrentRecord) : TorrentRecord :=
  if status = .queued ∧ t.controlIntent = .running ∧ t.readyAtUnix = none ∧
      t.removalIntent = none ∧ t.phase.restarts then
    { t with phase := .queued, lastActivityUnix := some now }
  else t

/-- Leases are transient: what was in flight is leased again. -/
def Job.restore (now : Int) (job : Job) : Job :=
  let status := if job.status = .downloading then .queued else job.status
  { job with
    files := job.files.map FileEntry.releaseLeases
    status := status
    torrent := job.torrent.map (restartTorrent now status) }

/-- Nothing of the job has been written, as far as its totals say. -/
def Job.untouched (job : Job) : Bool := job.totals.successArticles = 0

/-- A job with an open name gets the one its files imply. -/
def repairName (job : Job) : Job :=
  if nameIsOpen job then
    match nameFromFiles (job.files.map (·.filename)) with
    | some real => renameJob job real job.untouched false
    | none => job
  else job

/-- Does another job use this directory? -/
def dirTaken (jobs : List Job) (id : JobId) (want : Text) : Bool :=
  jobs.any fun j => j.id ≠ id && j.dirName = want

def suffixed (want : Text) (id : JobId) : Text := want ++ '.' :: showNat id

/-- The name, made distinct by the id if another job uses it. -/
def uniqueDirName (jobs : List Job) (id : JobId) (want : Text) : Text :=
  if dirTaken jobs id want then suffixed want id else want

/-- One turn of the loop that breaks shared directories apart, for a job that
has written nothing. -/
def separateDir (jobs : List Job) (j : Job) : Job :=
  if j.dirName = [] ∨ j.untouched = false then j
  else { j with dirName := uniqueDirName jobs j.id j.dirName }

/-- The loop, with the jobs it has visited in front. -/
def separateDirs (seen : List Job) : List Job → List Job
  | [] => seen
  | j :: rest => separateDirs (seen ++ [separateDir (seen ++ j :: rest) j]) rest

def repairNamesAndDirectories (jobs : List Job) : List Job :=
  separateDirs [] (jobs.map repairName)

def QueueState.fromDoc (now : Int) (doc : QueueSnapshotDoc) : QueueState where
  jobs := repairNamesAndDirectories (doc.jobs.map (Job.restore now))
  pendingAdmissions := doc.pendingAdmissions
  nextJobId := doc.nextJobId
  nextFileId := doc.nextFileId
  downloadPaused := doc.downloadPaused
  speedLimitBps := doc.speedLimitBps
  maxActiveDownloads := clampActiveDownloads doc.maxActiveDownloads

/-! ### Files of an NZB -/

/-- How often a name has been seen, lower case. -/
abbrev SeenNames := List (Text × Nat)

def SeenNames.count (seen : SeenNames) (name : Text) : Nat := (seen.lookup name).getD 0

/-- One file entry; a name seen before in this NZB is made distinct. -/
def buildFile (lower : Text → Text) (pauseExtraPars : Bool) (id : FileId) (seen : SeenNames)
    (pf : ParsedFile) : FileEntry × SeenNames :=
  let hint := sanitizeName pf.filenameHint
  let n := seen.count (lower hint) + 1
  let filename := if 1 < n then hint ++ text ".dup" ++ showNat (n - 1) else hint
  let isPar2 := endsWith (lower filename) (text ".par2")
  let isExtraPar := isPar2 && (rfind (text ".vol") (lower filename)).isSome
  ({ id := id
     subject := pf.subject
     filename := filename
     isPar2 := isPar2
     paused := pauseExtraPars && isExtraPar
     groups := pf.groups
     date := pf.date
     segments := pf.segments.map fun s =>
       { messageId := s.messageId
         number := s.number
         size := min s.bytes (2 ^ 32 - 1)
         state := .pending }
     crc32 := none
     finalized := false },
    (lower hint, n) :: seen)

def buildFiles (lower : Text → Text) (pauseExtraPars : Bool) :
    Nat → SeenNames → List ParsedFile → List FileEntry × Nat
  | next, _, [] => ([], next)
  | next, seen, pf :: pfs =>
    let e := buildFile lower pauseExtraPars (succU32 next) seen pf
    let rest := buildFiles lower pauseExtraPars (succU32 next) e.2 pfs
    (e.1 :: rest.1, rest.2)

/-! ### Rows of a job -/

def FileEntry.segment (f : FileEntry) (number : Nat) : Option Segment :=
  f.segments.find? (·.number = number)

def FileEntry.updateSegment (number : Nat) (g : Segment → Segment) (f : FileEntry) : FileEntry :=
  { f with segments := f.segments.modifyFirst (·.number = number) g }

def Job.file (j : Job) (id : FileId) : Option FileEntry := j.files.find? (·.id = id)

def Job.updateFile (id : FileId) (g : FileEntry → FileEntry) (j : Job) : Job :=
  { j with files := j.files.modifyFirst (·.id = id) g }

namespace QueueState

def default : QueueState where
  jobs := []
  pendingAdmissions := []
  nextJobId := 0
  nextFileId := 0
  downloadPaused := false
  speedLimitBps := none
  maxActiveDownloads := minActiveDownloads

def toDoc (s : QueueState) : QueueSnapshotDoc where
  jobs := s.jobs
  pendingAdmissions := s.pendingAdmissions
  nextJobId := s.nextJobId
  nextFileId := s.nextFileId
  downloadPaused := s.downloadPaused
  speedLimitBps := s.speedLimitBps
  maxActiveDownloads := s.maxActiveDownloads

/-! ### Lookup -/

def job (s : QueueState) (id : JobId) : Option Job := s.jobs.find? (·.id = id)

/-- Write through the reference to a job. -/
def updateJob (s : QueueState) (id : JobId) (f : Job → Job) : QueueState :=
  { s with jobs := s.jobs.modifyFirst (·.id = id) f }

def updateFile (s : QueueState) (job : JobId) (file : FileId) (g : FileEntry → FileEntry) :
    QueueState :=
  s.updateJob job (·.updateFile file g)

/-- Write through the reference to a segment. -/
def updateSegment (s : QueueState) (r : SegRef) (g : Segment → Segment) : QueueState :=
  s.updateFile r.job r.file (·.updateSegment r.segNumber g)

def segment (s : QueueState) (r : SegRef) : Option Segment :=
  (s.job r.job).bind fun j => (j.file r.file).bind fun f => f.segment r.segNumber

/-- Take a job out of the queue. -/
def eraseJob (s : QueueState) (id : JobId) : QueueState :=
  { s with jobs := s.jobs.eraseP (·.id = id) }

def removeJob (s : QueueState) (id : JobId) : QueueState :=
  { s with jobs := s.jobs.filter (·.id ≠ id) }

/-! ### Admission -/

/-- The row every admission starts from. -/
def newJob (now : Int) (id : JobId) (kind : JobKind) (name dirName : Text)
    (category : Option Text) (priority : Int) (status : JobStatus) : Job where
  id := id
  kind := kind
  name := name
  dirName := dirName
  nameProvisional := false
  queuedAtUnix := now
  originalName := []
  category := category
  priority := priority
  params := []
  files := []
  totals := .default
  status := status
  torrent := none
  stages := []

def admitNzb (lower : Text → Text) (now : Int) (s : QueueState) (name : Text) (parsed : ParsedNzb)
    (category : Option Text) (priority : Int) (pauseExtraPars : Bool) : QueueState :=
  let id := succU32 s.nextJobId
  let files := buildFiles lower pauseExtraPars s.nextFileId [] parsed.files
  let job := newJob now id .nzb name (uniqueDirName s.jobs id (sanitizeName name))
    (category.or parsed.category) priority .queued
  { s with
    jobs := s.jobs ++ [recomputeJobTotals { job with files := files.1 }]
    nextJobId := id
    nextFileId := files.2 }

def admitUrl (now : Int) (s : QueueState) (name url : Text) (category : Option Text)
    (priority : Int) : QueueState :=
  let id := succU32 s.nextJobId
  let job := newJob now id .url name (uniqueDirName s.jobs id (sanitizeName name))
    category priority .fetching
  { s with jobs := s.jobs ++ [{ job with params := [(urlParam, url)] }], nextJobId := id }

/-- The hint a URL job offers: a provisional name is none. -/
def urlHint (job : Job) : Text := if job.nameProvisional then [] else job.name

/-- The name and the directory the NZB of a URL job gives it.  Nothing has been
written, so the directory follows, and it is not made distinct. -/
def nameFetched (parsed : ParsedNzb) (job : Job) : Job :=
  match nameFromEvidence (urlHint job) parsed with
  | some real => renameJob job real true false
  | none =>
    if job.nameProvisional then job else { job with name := cleanJobName (urlHint job) parsed }

def fillFetched (parsed : ParsedNzb) (files : List FileEntry) (job : Job) : Job :=
  let job := { job with category := job.category.or parsed.category }
  recomputeJobTotals { nameFetched parsed job with files := files, status := .queued }

/-- The NZB of a URL job has arrived.  File ids are taken before the job is
looked at. -/
def completeUrlFetch (lower : Text → Text) (s : QueueState) (id : JobId) (parsed : ParsedNzb)
    (pauseExtraPars : Bool) : QueueState :=
  let files := buildFiles lower pauseExtraPars s.nextFileId [] parsed.files
  let s := { s with nextFileId := files.2 }
  match s.job id with
  | none => s
  | some job =>
    if job.status ≠ .fetching then s else s.updateJob id (fillFetched parsed files.1)

def reserveTorrentAdmission (s : QueueState) : QueueState :=
  { s with
    pendingAdmissions := s.pendingAdmissions ++ [succU32 s.nextJobId]
    nextJobId := succU32 s.nextJobId }

def cancelTorrentAdmission (s : QueueState) (id : JobId) : QueueState :=
  { s with pendingAdmissions := s.pendingAdmissions.filter (· ≠ id) }

/-- A live job for the same torrent. -/
def isDuplicate (commit : TorrentAdmissionCommit) (job : Job) : Bool :=
  (job.torrent.any fun t => t.infoHashV1 = commit.record.infoHashV1) &&
    job.status ≠ .failed && job.status ≠ .deleted

def setParam (params : List (Text × Text)) (kv : Text × Text) : List (Text × Text) :=
  if params.any (·.1 = kv.1) then params.modifyFirst (·.1 = kv.1) fun slot => (slot.1, kv.2)
  else params ++ [kv]

def commitTorrentAdmission (now : Int) (s : QueueState) (id : JobId)
    (commit : TorrentAdmissionCommit) : QueueState :=
  if id ∉ s.pendingAdmissions then s
  else if s.jobs.any (isDuplicate commit) then
    { s.cancelTorrentAdmission id with
      jobs := s.jobs.modifyFirst (isDuplicate commit) fun job =>
        { job with params := commit.params.foldl setParam job.params } }
  else
    let job := newJob now id .torrent commit.name
      (uniqueDirName s.jobs id (sanitizeName commit.name)) commit.category commit.priority
      (if commit.paused then .paused else .queued)
    { s.cancelTorrentAdmission id with
      jobs := s.jobs ++ [{ job with
        params := commit.params
        totals := { JobTotals.default with size := commit.record.totalBytes }
        torrent := some commit.record }] }

/-! ### Renaming -/

/-- `renameJob` with the directory made distinct. -/
def renamed (jobs : List Job) (name : Text) (storageToo provisional : Bool) (job : Job) : Job :=
  let job := renameJob job name storageToo provisional
  if storageToo then { job with dirName := uniqueDirName jobs job.id job.dirName } else job

def setJobName (s : QueueState) (id : JobId) (name : Text) (storageToo provisional : Bool) :
    QueueState :=
  s.updateJob id (renamed s.jobs name storageToo provisional)

/-- Name a job by who asked for it, if nothing has named it. -/
def nameFromRequestor (s : QueueState) (id : JobId) (storageToo : Bool) : QueueState :=
  match s.job id with
  | none => s
  | some j =>
    if nameIsOpen j = false then s
    else
      match requestorName j with
      | none => s
      | some better => s.setJobName id better storageToo true

/-- Adopt the name the recovery set gives; the files stay where they are. -/
def adoptLearnedName (s : QueueState) (id : JobId) (name : Text) : QueueState :=
  match s.job id with
  | none => s
  | some j => if nameIsOpen j then s.setJobName id name false false else s

def recomputeAllTotals (s : QueueState) : QueueState :=
  { s with jobs := s.jobs.map recomputeJobTotals }

end QueueState

end Nzbd
