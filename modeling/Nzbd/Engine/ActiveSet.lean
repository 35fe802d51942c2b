import Nzbd.Engine.Lease
import Nzbd.Lib.Ranked

/-!
# The active set

The scheduler and the labels of the status each filter, sort and cut the queue.
`activeSetWithRecovery` is the second of the two, and it names the jobs of the first
(`activeSetWithRecovery_eq`).  Who is in the set can be said without a sort: an
eligible job is in it if fewer jobs than the limit come before it, by
`schedulingPriority` and then by their place in the queue (`mem_activeJobs_iff`).

The scan meets no segment twice, so what it asks of one segment is not changed by the
others it passes, and it leases the first one the server may take (`scan_lease_eq`).
A rotation reorders the jobs and so cannot change which of them can be served; and a job
that can be served is, when the rotation begins with it (`exists_rotate_serves`).
-/

namespace Nzbd.Engine

open List Ranked

/-! ### The other pipeline -/

/-- The jobs that may download now, for the labels. -/
def activeSetWithRecovery (state : QueueState) (delegated : JobId → Bool)
    (postFetchFiles : JobId → Option (List FileId)) (regularDownloads softHold : Bool)
    (now : Int) : List JobId :=
  let order := state.jobs.filter fun j => !delegated j.id || (postFetchFiles j.id).isSome
  let order := order.filter fun j => regularDownloads || (postFetchFiles j.id).isSome
  let order := order.filter fun j => jobSchedulable j (state.downloadPaused || softHold)
  let order := order.filter fun j => hasBackendWork j now (postFetchFiles j.id)
  let order := order.insertionSort (schedulesBefore now)
  (order.take (clampActiveDownloads state.maxActiveDownloads)).map (·.id)

def jobsToRequeueWithRecovery (state : QueueState) (delegated : JobId → Bool)
    (postFetchFiles : JobId → Option (List FileId)) (regularDownloads softHold : Bool)
    (now : Int) : List JobId :=
  let active := activeSetWithRecovery state delegated postFetchFiles regularDownloads softHold now
  let jobs := state.jobs.filter (·.status = .downloading)
  let jobs := jobs.filter (·.id ∉ active)
  let jobs := jobs.filter (!hasLeased ·)
  jobs.map (·.id)

variable {state : QueueState} {ctx : SelectionCtx} {server : ServerId} {attempts : Attempts}

/-- **Both pipelines name the same jobs.** -/
theorem activeSetWithRecovery_eq (state : QueueState) (ctx : SelectionCtx) :
    activeSetWithRecovery state ctx.delegated ctx.postFetchFiles ctx.regularDownloads ctx.softHold
      ctx.nowUnix = (activeJobs state ctx).map (·.id) := by
  simp only [activeSetWithRecovery, activeJobs, filter_filter]
  congr 4
  funext j
  simp only [eligible]
  cases jobSchedulable j (state.downloadPaused || ctx.softHold) <;>
    cases hasBackendWork j ctx.nowUnix (ctx.postFetchFiles j.id) <;> simp [Bool.and_comm]

theorem jobsToRequeueWithRecovery_eq (state : QueueState) (ctx : SelectionCtx) :
    jobsToRequeueWithRecovery state ctx.delegated ctx.postFetchFiles ctx.regularDownloads
      ctx.softHold ctx.nowUnix = jobsToRequeue state ctx := by
  simp only [jobsToRequeueWithRecovery, jobsToRequeue, activeSetWithRecovery_eq, filter_filter]
  congr 2
  funext j
  cases hasLeased j <;> simp [Bool.and_comm]

/-! ### Who is in the set -/

def schedulingPriority (job : Job) (now : Int) : Bool ×ₗ Intᵒᵈ :=
  toLex (stalledRetry job now, OrderDual.toDual job.priority)

theorem schedulesBefore_iff {now : Int} (a b : Job) :
    schedulesBefore now a b ↔ schedulingPriority a now ≤ schedulingPriority b now := by
  rw [schedulingPriority, schedulingPriority, Prod.Lex.le_iff]
  simp only [schedulesBefore, ofLex_toLex, OrderDual.toDual_le_toDual, Bool.lt_iff]

def candidateRows (state : QueueState) (ctx : SelectionCtx) : List (Job × Nat) :=
  state.jobs.zipIdx.filter fun p => eligible state ctx p.1

theorem candidateRows_map : (candidateRows state ctx).map (·.1) =
    state.jobs.filter (eligible state ctx) := by
  have h : (state.jobs.zipIdx.map (·.1)).filter (eligible state ctx) =
      state.jobs.filter (eligible state ctx) := by
    rw [zipIdx_map_fst]
  rw [← h, filter_map]
  rfl

theorem pairwise_zipIdx (l : List Job) (n : Nat) :
    (l.zipIdx n).Pairwise fun a b => a.2 < b.2 := by
  have h : ((l.zipIdx n).map (·.2)).Pairwise (· < ·) := by
    rw [zipIdx_map_snd]
    exact pairwise_lt_range'
  exact pairwise_map.mp h

/-- **A job is in the set if it is eligible and fewer jobs than the limit come before
it.** -/
theorem mem_activeJobs_iff {j : Job} : j ∈ activeJobs state ctx ↔
    ∃ i, (j, i) ∈ candidateRows state ctx ∧
      rank (place fun k => schedulingPriority k ctx.nowUnix) (candidateRows state ctx) (j, i) <
        clampActiveDownloads state.maxActiveDownloads := by
  rw [activeJobs, ← candidateRows_map]
  exact mem_take_insertionSort schedulesBefore_iff
    ((pairwise_zipIdx state.jobs 0).sublist filter_sublist) _ _

theorem activeJobs_length_le :
    (activeJobs state ctx).length ≤ clampActiveDownloads state.maxActiveDownloads :=
  length_take_le _ _

/-! ### What the scan leases -/

/-- May the server take this segment now? -/
def takes (ctx : SelectionCtx) (server : ServerId) (attempts : Attempts)
    (p : SegRef × Option Nat) : Bool :=
  match (Ladder.currentCandidates ctx.servers ((attempts p.1).getD (.new ctx.articleRetries))
      ctx.isBlocked p.2).1 with
  | .servers ids => server ∈ ids
  | _ => false

/-- **The scan leases the first segment the server may take.** -/
theorem scan_lease_eq (l : List (SegRef × Option Nat)) (ex : List SegRef) (attempts' : Attempts)
    (hnodup : (l.map (·.1)).Nodup) (hsame : ∀ p ∈ l, attempts' p.1 = attempts p.1) :
    (scan ctx server l ex attempts').lease = (l.find? (takes ctx server attempts)).map (·.1) := by
  induction l generalizing ex attempts' with
  | nil => rfl
  | cons p l ih =>
    obtain ⟨r, age⟩ := p
    obtain ⟨hr, hl⟩ := nodup_cons.mp hnodup
    -- the ladder of this segment is the only one that moves, and it is not met again
    have hnext : ∀ ex att, (scan ctx server l ex (Function.update attempts' r att)).lease =
        (l.find? (takes ctx server attempts)).map (·.1) := by
      intro ex att
      refine ih ex _ hl fun q hq => ?_
      have hne : q.1 ≠ r := by
        intro h
        rw [← h] at hr
        exact hr (mem_map.mpr ⟨q, hq, rfl⟩)
      rw [Function.update_of_ne hne]
      exact hsame q (.tail _ hq)
    have hatt : attempts' r = attempts r := hsame (r, age) mem_cons_self
    rw [scan, find?_cons, takes, hatt]
    cases (Ladder.currentCandidates ctx.servers ((attempts r).getD (.new ctx.articleRetries))
        ctx.isBlocked age).1 with
    | servers ids =>
      by_cases hs : server ∈ ids
      · simp [hs]
      · simp [hs, hnext]
    | waitForBlocked => simp [hnext]
    | exhausted => simp [hnext]

/-- The scan meets a segment of the job that the server may take. -/
def CanServe (state : QueueState) (server : ServerId) (ctx : SelectionCtx) (attempts : Attempts)
    (id : JobId) : Prop :=
  ∃ p ∈ scanned state ctx, p.1.job = id ∧ takes ctx server attempts p = true

theorem nextForServer_lease (hk : state.WellKeyed) :
    (nextForServer state server ctx attempts).lease =
      ((scanned state ctx).find? (takes ctx server attempts)).map (·.1) :=
  scan_lease_eq _ _ _ (scanned_nodup hk ctx) fun _ _ => rfl

/-! ### The rotation -/

/-- What the scan meets of one job. -/
def segmentsOfJob (ctx : SelectionCtx) (job : Job) : List (SegRef × Option Nat) :=
  (job.files.filter (!skipsFile ctx job ·)).flatMap (pendingOfFile ctx job)

theorem scanned_rotate (n : Nat) : scanned state { ctx with rotate := n } =
    ((activeJobs state ctx).rotate n).flatMap (segmentsOfJob ctx) := rfl

theorem segmentsOfJob_job {job : Job} {p : SegRef × Option Nat} (h : p ∈ segmentsOfJob ctx job) :
    p.1.job = job.id := by
  obtain ⟨f, -, hp⟩ := mem_flatMap.mp h
  obtain ⟨x, -, rfl⟩ := mem_map.mp hp
  rfl

theorem scanned_rotate_perm (n : Nat) :
    (scanned state { ctx with rotate := n }).Perm (scanned state ctx) := by
  rw [scanned_rotate, show ctx = { ctx with rotate := ctx.rotate } from rfl, scanned_rotate]
  refine List.Perm.flatMap_right _ ?_
  exact (rotate_perm _ n).trans (rotate_perm _ ctx.rotate).symm

/-- **A rotation changes nobody's chances.** -/
theorem canServe_rotate (n : Nat) (id : JobId) :
    CanServe state server { ctx with rotate := n } attempts id ↔
      CanServe state server ctx attempts id := by
  constructor
  · rintro ⟨p, hp, hjob, htake⟩
    exact ⟨p, (scanned_rotate_perm n).mem_iff.mp hp, hjob, htake⟩
  · rintro ⟨p, hp, hjob, htake⟩
    exact ⟨p, (scanned_rotate_perm n).mem_iff.mpr hp, hjob, htake⟩

theorem exists_rotate_serves (hk : state.WellKeyed) {id : JobId}
    (h : CanServe state server ctx attempts id) :
    ∃ n r, (nextForServer state server { ctx with rotate := n } attempts).lease = some r ∧
      r.job = id := by
  obtain ⟨p, hp, rfl, htake⟩ := h
  obtain ⟨j, hj, hpj⟩ := mem_flatMap.mp hp
  obtain ⟨pre, post, hsplit⟩ := append_of_mem (mem_rotate.mp hj)
  have hscan : scanned state { ctx with rotate := pre.length } =
      segmentsOfJob ctx j ++ (post ++ pre).flatMap (segmentsOfJob ctx) := by
    rw [scanned_rotate, hsplit, rotate_append_length_eq, cons_append, flatMap_cons]
  have hfind : ((segmentsOfJob ctx j).find?
      (takes { ctx with rotate := pre.length } server attempts)).isSome = true := by
    rw [find?_isSome]
    exact ⟨p, hpj, htake⟩
  obtain ⟨q, hq⟩ := Option.isSome_iff_exists.mp hfind
  have hlease : (nextForServer state server { ctx with rotate := pre.length } attempts).lease =
      ((scanned state { ctx with rotate := pre.length }).find?
        (takes { ctx with rotate := pre.length } server attempts)).map (·.1) :=
    nextForServer_lease hk
  rw [hscan, find?_append, hq] at hlease
  refine ⟨pre.length, q.1, hlease, ?_⟩
  rw [segmentsOfJob_job (mem_of_find?_eq_some hq), segmentsOfJob_job hpj]

theorem nextForServer_job {r : SegRef}
    (h : (nextForServer state server ctx attempts).lease = some r) :
    ∃ j ∈ activeJobs state ctx, j.id = r.job := by
  obtain ⟨pre, age, post, found, hl, -, -⟩ := scan_lease _ _ _ h
  have hmem : (r, age) ∈ scanned state ctx := by
    rw [hl]
    exact mem_append_right _ mem_cons_self
  obtain ⟨j, hj, hr⟩ := mem_flatMap.mp hmem
  exact ⟨j, mem_rotate.mp hj, (segmentsOfJob_job hr).symm⟩

/-! ### Agreement -/

/-- **Scheduler and status agree.** -/
theorem scheduler_agrees (state : QueueState) (ctx : SelectionCtx) (server : ServerId)
    (attempts : Attempts) :
    let active := activeSetWithRecovery state ctx.delegated ctx.postFetchFiles
      ctx.regularDownloads ctx.softHold ctx.nowUnix
    (∀ r, (nextForServer state server ctx attempts).lease = some r → r.job ∈ active) ∧
      active.length ≤ clampActiveDownloads state.maxActiveDownloads ∧
      (∀ id, id ∈ active ↔ ∃ j i, (j, i) ∈ candidateRows state ctx ∧ j.id = id ∧
        rank (place fun k => schedulingPriority k ctx.nowUnix) (candidateRows state ctx) (j, i) <
          clampActiveDownloads state.maxActiveDownloads) ∧
      (∀ n id, CanServe state server { ctx with rotate := n } attempts id ↔
        CanServe state server ctx attempts id) ∧
      (state.WellKeyed → ∀ id, CanServe state server ctx attempts id ↔ ∃ n r,
        (nextForServer state server { ctx with rotate := n } attempts).lease = some r ∧
          r.job = id) ∧
      ∀ id ∈ jobsToRequeueWithRecovery state ctx.delegated ctx.postFetchFiles
          ctx.regularDownloads ctx.softHold ctx.nowUnix,
        id ∉ active ∧ (∃ j ∈ state.jobs, j.id = id ∧ hasLeased j = false) ∧
          (state.WellKeyed → ∀ j ∈ state.jobs, j.id = id → hasLeased j = false) := by
  simp only [jobsToRequeueWithRecovery_eq, activeSetWithRecovery_eq]
  refine ⟨fun r h => ?_, ?_, fun id => ?_, canServe_rotate, fun hk id => ⟨?_, ?_⟩,
    fun id h => ?_⟩
  · obtain ⟨j, hj, hid⟩ := nextForServer_job h
    exact hid ▸ mem_map_of_mem hj
  · rw [length_map]
    exact activeJobs_length_le
  · rw [mem_map]
    constructor
    · rintro ⟨j, hj, rfl⟩
      obtain ⟨i, hrow, hrank⟩ := mem_activeJobs_iff.mp hj
      exact ⟨j, i, hrow, rfl, hrank⟩
    · rintro ⟨j, i, hrow, rfl, hrank⟩
      exact ⟨j, mem_activeJobs_iff.mpr ⟨i, hrow, hrank⟩, rfl⟩
  · exact exists_rotate_serves hk
  · rintro ⟨n, r, hlease, rfl⟩
    refine (canServe_rotate n r.job).mp ?_
    rw [nextForServer_lease hk] at hlease
    obtain ⟨p, hp, rfl⟩ := Option.map_eq_some_iff.mp hlease
    exact ⟨p, mem_of_find?_eq_some hp, rfl, find?_some hp⟩
  · obtain ⟨j, hj, rfl⟩ := mem_map.mp h
    obtain ⟨hj, hcond⟩ := mem_filter.mp hj
    simp only [Bool.and_eq_true, decide_eq_true_eq, Bool.not_eq_true'] at hcond
    refine ⟨hcond.1.2, ⟨j, hj, rfl, hcond.2⟩, fun hk k hkm hid => ?_⟩
    have heq : some k = some j := by rw [← hk.job_of_mem hkm, hid, hk.job_of_mem hj]
    obtain rfl := Option.some.inj heq
    exact hcond.2

end Nzbd.Engine
