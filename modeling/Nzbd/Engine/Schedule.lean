import Nzbd.Engine.Failover
import Nzbd.Engine.Queue

/-!
# Choosing the next segment

A connection asks for work, and `nextForServer` looks for a pending segment its
server may take.  The active set comes first: the jobs with work that may
download, by priority and then by their place in the queue, up to the limit on
concurrent downloads.  The scan starts at a job that changes from grant to grant
and passes through the files and segments in order.

On its way the scan climbs the ladder of every pending segment it looks at, and
it collects the segments that no server can serve any more.  It changes no
segment: the owner fails those and applies the lease.
-/

namespace Nzbd.Engine

abbrev Attempts := SegRef → Option SegmentAttempt

structure SelectionCtx where
  servers : List ServerDef
  isBlocked : ServerId → Bool
  /-- Jobs that another node executes. -/
  delegated : JobId → Bool
  /-- The files a verifier has authorized for delayed recovery downloads. -/
  postFetchFiles : JobId → Option (List FileId)
  regularDownloads : Bool
  articleRetries : Nat
  nowUnix : Int
  propagationDelaySecs : Int
  /-- Only jobs that ignore every pause run. -/
  softHold : Bool
  rotate : Nat

structure SelectionResult where
  lease : Option SegRef
  /-- Segments no server can serve, in the order of the scan. -/
  exhausted : List SegRef
  attempts : Attempts

/-! ### Who may download -/

def stalledSlotYieldSecs : Int := 60

def wantsDownloadSlot : TorrentPhase → Bool
  | .fetchingSource => true
  | .fetchingMetadata => true
  | .queued => true
  | .checking => true
  | .downloading => true
  | _ => false

def torrentWantsDownloadSlot (t : TorrentRecord) (queuedAtUnix now : Int) : Bool :=
  if !wantsDownloadSlot t.phase then false
  else if t.phase = .queued then true
  else if t.lastActivityUnix = none ∧ t.phase ≠ .downloading then true
  else now - t.lastActivityUnix.getD queuedAtUnix < stalledSlotYieldSecs

def jobSchedulable (job : Job) (downloadPaused : Bool) : Bool :=
  match job.status with
  | .queued => job.forcePriority || !downloadPaused
  | .downloading => job.forcePriority || !downloadPaused
  | .paused => job.forcePriority
  | _ => false

/-- Is the file outside what a verifier has authorized? -/
def outsideAllowed (allowed : Option (List FileId)) (f : FileEntry) : Bool :=
  match allowed with
  | some ids => f.id ∉ ids
  | none => false

/-- Can a segment of this job be handed out? -/
def hasBackendWork (job : Job) (now : Int) (allowed : Option (List FileId)) : Bool :=
  match job.kind with
  | .torrent => job.torrent.any fun t => torrentWantsDownloadSlot t job.queuedAtUnix now
  | _ => job.files.any fun f =>
      !f.paused && !f.isTerminal && !outsideAllowed allowed f &&
        f.segments.any (·.state = .pending)

def hasLeased (job : Job) : Bool :=
  job.files.any fun f => f.segments.any fun s => match s.state with
    | .leased _ => true
    | _ => false

def stalledRetry (job : Job) (now : Int) : Bool :=
  job.torrent.any fun t =>
    t.phase = .queued && t.lastActivityUnix.any fun last => stalledSlotYieldSecs ≤ now - last

/-- Stalled retries last, higher priority first. -/
def schedulesBefore (now : Int) (a b : Job) : Prop :=
  (stalledRetry a now = false ∧ stalledRetry b now = true) ∨
    (stalledRetry a now = stalledRetry b now ∧ b.priority ≤ a.priority)

instance (now : Int) : DecidableRel (schedulesBefore now) :=
  fun _ _ => inferInstanceAs (Decidable (_ ∨ _))

/-- The filter of the scheduler. -/
def eligible (state : QueueState) (ctx : SelectionCtx) (j : Job) : Bool :=
  (!ctx.delegated j.id || (ctx.postFetchFiles j.id).isSome) &&
    (ctx.regularDownloads || (ctx.postFetchFiles j.id).isSome) &&
    jobSchedulable j (state.downloadPaused || ctx.softHold) &&
    hasBackendWork j ctx.nowUnix (ctx.postFetchFiles j.id)

/-- The jobs that may download now, in the order they are served. -/
def activeJobs (state : QueueState) (ctx : SelectionCtx) : List Job :=
  ((state.jobs.filter (eligible state ctx)).insertionSort (schedulesBefore ctx.nowUnix)).take
    (clampActiveDownloads state.maxActiveDownloads)

def scanOrder (state : QueueState) (ctx : SelectionCtx) : List Job :=
  (activeJobs state ctx).rotate ctx.rotate

/-- Jobs that claim to download and are neither in the active set nor hold a
lease. -/
def jobsToRequeue (state : QueueState) (ctx : SelectionCtx) : List JobId :=
  let active := (activeJobs state ctx).map (·.id)
  (state.jobs.filter fun j => j.status = .downloading && j.id ∉ active && !hasLeased j).map (·.id)

/-! ### The scan -/

/-- Is the file passed over? -/
def skipsFile (ctx : SelectionCtx) (job : Job) (f : FileEntry) : Bool :=
  f.paused || f.isTerminal || outsideAllowed (ctx.postFetchFiles job.id) f ||
    (0 < ctx.propagationDelaySecs &&
      f.date.any fun date => ctx.nowUnix < date + ctx.propagationDelaySecs)

def articleAgeDays (now : Int) (date : Option Int) : Option Nat :=
  date.map fun d => (max (now - d) 0 / 86400).toNat % 2 ^ 32

def pendingOfFile (ctx : SelectionCtx) (job : Job) (f : FileEntry) : List (SegRef × Option Nat) :=
  (f.segments.filter (·.state = .pending)).map fun s =>
    (⟨job.id, f.id, s.number⟩, articleAgeDays ctx.nowUnix f.date)

def scanned (state : QueueState) (ctx : SelectionCtx) : List (SegRef × Option Nat) :=
  (scanOrder state ctx).flatMap fun job =>
    (job.files.filter (!skipsFile ctx job ·)).flatMap (pendingOfFile ctx job)

/-- The loop: stop at the first segment the server may take. -/
def scan (ctx : SelectionCtx) (server : ServerId) :
    List (SegRef × Option Nat) → List SegRef → Attempts → SelectionResult
  | [], exhausted, attempts => ⟨none, exhausted, attempts⟩
  | (r, age) :: rest, exhausted, attempts =>
    let att := (attempts r).getD (.new ctx.articleRetries)
    let c := Ladder.currentCandidates ctx.servers att ctx.isBlocked age
    let attempts := Function.update attempts r (some c.2)
    match c.1 with
    | .servers ids =>
      if server ∈ ids then ⟨some r, exhausted, attempts⟩ else scan ctx server rest exhausted attempts
    | .waitForBlocked => scan ctx server rest exhausted attempts
    | .exhausted => scan ctx server rest (exhausted ++ [r]) attempts

/-- The next pending segment the server may take. -/
def nextForServer (state : QueueState) (server : ServerId) (ctx : SelectionCtx)
    (attempts : Attempts) : SelectionResult :=
  scan ctx server (scanned state ctx) [] attempts

/-! ### What the scan finds -/

/-- **The lease comes from the list, and what was found exhausted stands before
it.** -/
theorem scan_lease {ctx : SelectionCtx} {server : ServerId} {r : SegRef} :
    ∀ (l : List (SegRef × Option Nat)) (ex : List SegRef) (attempts : Attempts),
      (scan ctx server l ex attempts).lease = some r →
        ∃ pre age post found, l = pre ++ (r, age) :: post ∧
          (scan ctx server l ex attempts).exhausted = ex ++ found ∧
          found.Sublist (pre.map (·.1)) := by
  intro l
  induction l with
  | nil => intro ex attempts h; simp [scan] at h
  | cons p l ih =>
    obtain ⟨q, age⟩ := p
    intro ex attempts h
    -- one segment further on, the lists grow in front
    have hskip : ∀ ex' attempts' add, add.Sublist [q] → ex' = ex ++ add →
        (scan ctx server l ex' attempts').lease = some r →
        ∃ pre a post found, (q, age) :: l = pre ++ (r, a) :: post ∧
          (scan ctx server l ex' attempts').exhausted = ex ++ found ∧
          found.Sublist (pre.map (·.1)) := by
      intro ex' attempts' add hadd hex' hl
      obtain ⟨pre, a, post, found, h1, h2, h3⟩ := ih ex' attempts' hl
      refine ⟨(q, age) :: pre, a, post, add ++ found, by rw [h1]; rfl, ?_, ?_⟩
      · rw [h2, hex', List.append_assoc]
      · exact List.Sublist.append hadd h3
    rw [scan] at h ⊢
    cases hc : (Ladder.currentCandidates ctx.servers ((attempts q).getD (.new ctx.articleRetries))
        ctx.isBlocked age).1 with
    | servers ids =>
      simp only [hc] at h ⊢
      split at h
      · next hs =>
        rw [if_pos hs]
        obtain rfl : q = r := Option.some.inj h
        exact ⟨[], age, l, [], rfl, (List.append_nil _).symm, List.Sublist.refl _⟩
      · next hs =>
        rw [if_neg hs]
        exact hskip ex _ [] (List.nil_sublist _) (List.append_nil _).symm h
    | waitForBlocked =>
      simp only [hc] at h ⊢
      exact hskip ex _ [] (List.nil_sublist _) (List.append_nil _).symm h
    | exhausted =>
      simp only [hc] at h ⊢
      exact hskip _ _ [q] (List.Sublist.refl _) rfl h

end Nzbd.Engine
