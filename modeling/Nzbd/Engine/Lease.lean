import Mathlib.Data.List.Rotate
import Nzbd.Engine.Step

/-!
# Leases

`grantWork` scans the queue, fails the segments the scan found exhausted, and
then leases the segment the scan had chosen.  The choice is made before the
cascade of the failures runs, and the lease does not look at the segment again.

The scan chooses a pending segment of a job that may download, and not one that
it found exhausted (`nextLease_live`).  A failure leaves it so, unless it aborts
its job: then the segment has failed, and the lease takes it back.  `Spared` says
that no abort reaches the job of the lease; in a run that is spared at every scan
every lease is sound (`leases_sound_of_run`).
-/

namespace Nzbd.Engine

open List
open Nzbd.State (JournalRecord)

/-! ### What the scan passes -/

/-- Queued, downloading, or paused with a priority that ignores pauses. -/
def servable (j : Job) : Bool :=
  match j.status with
  | .queued => true
  | .downloading => true
  | .paused => j.forcePriority
  | _ => false

theorem servable_of_schedulable {j : Job} {downloadPaused : Bool}
    (h : jobSchedulable j downloadPaused = true) : servable j = true := by
  unfold jobSchedulable at h
  unfold servable
  split at h <;> simp_all

variable {s : QueueState}

theorem mem_activeJobs {ctx : SelectionCtx} {j : Job} (h : j ∈ activeJobs s ctx) :
    j ∈ s.jobs ∧ eligible s ctx j = true := by
  have hmem := mem_of_mem_take h
  rw [mem_insertionSort] at hmem
  exact mem_filter.mp hmem

theorem eligible_servable {ctx : SelectionCtx} {j : Job}
    (h : eligible s ctx j = true) : servable j = true := by
  simp only [eligible, Bool.and_eq_true] at h
  exact servable_of_schedulable h.1.2

/-- What the scan meets is a pending segment of an unpaused file of an active
job. -/
theorem mem_scanned {ctx : SelectionCtx} {r : SegRef} {age : Option Nat}
    (h : (r, age) ∈ scanned s ctx) :
    ∃ j ∈ s.jobs, ∃ f ∈ j.files, ∃ x ∈ f.segments, r = ⟨j.id, f.id, x.number⟩ ∧
      x.state = .pending ∧ f.paused = false ∧ servable j = true := by
  obtain ⟨j, hj, hr⟩ := mem_flatMap.mp h
  obtain ⟨f, hf, hr⟩ := mem_flatMap.mp hr
  obtain ⟨x, hx, hr⟩ := mem_map.mp hr
  obtain ⟨hj, he⟩ := mem_activeJobs (mem_rotate.mp hj)
  obtain ⟨hf, hskip⟩ := mem_filter.mp hf
  obtain ⟨hx, hpend⟩ := mem_filter.mp hx
  refine ⟨j, hj, f, hf, x, hx, (Prod.mk.inj hr).1.symm, by simpa using hpend, ?_, eligible_servable he⟩
  simp only [skipsFile, Bool.not_eq_true', Bool.or_eq_false_iff] at hskip
  exact hskip.1.1.1

theorem scanOrder_nodup (hk : s.WellKeyed) (ctx : SelectionCtx) :
    ((scanOrder s ctx).map (·.id)).Nodup := by
  have hsorted : (((s.jobs.filter (eligible s ctx)).insertionSort
      (schedulesBefore ctx.nowUnix)).map (·.id)).Nodup := by
    refine (((perm_insertionSort _ _).map _).nodup_iff).mpr ?_
    exact hk.ids.sublist (filter_sublist.map _)
  rw [scanOrder, map_rotate, nodup_rotate]
  exact hsorted.sublist ((take_sublist _ _).map _)

theorem nodup_flatMap_key {α β κ : Type*} (key : α → κ) (key' : β → κ) {g : α → List β} {l : List α}
    (hl : (l.map key).Nodup) (hg : ∀ a ∈ l, (g a).Nodup) (hkey : ∀ a ∈ l, ∀ b ∈ g a, key' b = key a) :
    (l.flatMap g).Nodup := by
  refine nodup_flatMap.mpr ⟨hg, ?_⟩
  rw [List.Nodup, pairwise_map] at hl
  refine hl.imp_of_mem fun {a b} ha hb hne => ?_
  intro c hca hcb
  exact hne ((hkey a ha c hca).symm.trans (hkey b hb c hcb))

/-- **The scan meets no segment twice.** -/
theorem scanned_nodup (hk : s.WellKeyed) (ctx : SelectionCtx) :
    ((scanned s ctx).map (·.1)).Nodup := by
  rw [scanned, map_flatMap]
  refine nodup_flatMap_key Job.id SegRef.job (scanOrder_nodup hk ctx) (fun j hj => ?_) ?_
  · have hjm : j ∈ s.jobs := (mem_activeJobs (mem_rotate.mp hj)).1
    rw [map_flatMap]
    refine nodup_flatMap_key FileEntry.id SegRef.file ?_ (fun f hf => ?_) ?_
    · exact (hk.fileIds_of_mem hjm).sublist (filter_sublist.map _)
    · have hnums : ((f.segments.filter (·.state = .pending)).map (·.number)).Nodup :=
        (hk.numbers_of_mem hjm (mem_filter.mp hf).1).sublist (filter_sublist.map _)
      rw [pendingOfFile, map_map]
      rw [List.Nodup, pairwise_map] at hnums ⊢
      exact hnums.imp fun hne he => hne (SegRef.mk.inj he).2.2
    · intro f _ r hr
      rw [pendingOfFile, map_map] at hr
      obtain ⟨x, -, rfl⟩ := mem_map.mp hr
      rfl
  · intro j _ r hr
    rw [map_flatMap] at hr
    obtain ⟨f, -, hr⟩ := mem_flatMap.mp hr
    rw [pendingOfFile, map_map] at hr
    obtain ⟨x, -, rfl⟩ := mem_map.mp hr
    rfl

/-! ### Segments that may be leased -/

/-- The segment is pending, its file is not paused, and its job may download. -/
def Live (s : QueueState) (r : SegRef) : Prop :=
  ∃ j f x, s.job r.job = some j ∧ j.file r.file = some f ∧ f.segment r.segNumber = some x ∧
    x.state = .pending ∧ f.paused = false ∧ servable j = true

theorem Live.segment {r : SegRef} (h : Live s r) :
    ∃ x, s.segment r = some x ∧ x.state = .pending := by
  obtain ⟨j, f, x, hj, hf, hx, hp, -, -⟩ := h
  exact ⟨x, segment_eq_some.mpr ⟨j, f, hj, hf, hx⟩, hp⟩

/-- Pending, in a job that may download. -/
def Leasable (s : QueueState) (r : SegRef) : Prop :=
  ∃ j x, s.job r.job = some j ∧ servable j = true ∧ s.segment r = some x ∧ x.state = .pending

theorem Live.leasable {r : SegRef} (h : Live s r) : Leasable s r := by
  obtain ⟨x, hx, hpend⟩ := h.segment
  obtain ⟨j, -, -, hj, -, -, -, -, hserv⟩ := h
  exact ⟨j, x, hj, hserv, hx, hpend⟩

section Live

variable {s : QueueState} {r : SegRef}

theorem Live.updateJob_ne (h : Live s r) {id : JobId} {g : Job → Job} (hne : id ≠ r.job)
    (hid : ∀ j, (g j).id = j.id) : Live (s.updateJob id g) r := by
  obtain ⟨j, f, x, hj, hrest⟩ := h
  exact ⟨j, f, x, by rw [job_updateJob_ne s (Ne.symm hne) hid]; exact hj, hrest⟩

theorem Live.updateJob (h : Live s r) {id : JobId} {g : Job → Job} (hid : ∀ j, (g j).id = j.id)
    (hfiles : ∀ j, (g j).files = j.files) (hserv : ∀ j, servable j = true → servable (g j) = true) :
    Live (s.updateJob id g) r := by
  by_cases hne : id = r.job
  · subst hne
    obtain ⟨j, f, x, hj, hf, hx, hp, hpause, hs⟩ := h
    refine ⟨g j, f, x, ?_, ?_, hx, hp, hpause, hserv j hs⟩
    · rw [job_updateJob_self s hid, hj]
      rfl
    · rw [Job.file, hfiles]
      exact hf
  · exact h.updateJob_ne hne hid

theorem Live.updateFile (h : Live s r) {job : JobId} {file : FileId} {g : FileEntry → FileEntry}
    (hid : ∀ f, (g f).id = f.id) (hpaused : ∀ f, (g f).paused = f.paused)
    (hsegs : ∀ f, (g f).segments = f.segments) : Live (s.updateFile job file g) r := by
  by_cases hne : job = r.job
  · subst hne
    obtain ⟨j, f, x, hj, hf, hx, hp, hpause, hs⟩ := h
    have hjob : (s.updateFile r.job file g).job r.job = some (j.updateFile file g) := by
      rw [job_updateFile_self, hj]
      rfl
    by_cases hfile : r.file = file
    · subst hfile
      refine ⟨_, g f, x, hjob, ?_, ?_, hp, ?_, hs⟩
      · rw [file_updateFile_self j hid, hf]
        rfl
      · rw [FileEntry.segment, hsegs]
        exact hx
      · rw [hpaused]
        exact hpause
    · exact ⟨_, f, x, hjob, by rw [file_updateFile_ne j hfile hid]; exact hf, hx, hp, hpause, hs⟩
  · exact h.updateJob_ne hne fun _ => rfl

theorem Live.updateSegment (h : Live s r) {e : SegRef} {g : Segment → Segment} (hne : e ≠ r)
    (hnum : ∀ x, (g x).number = x.number) : Live (s.updateSegment e g) r := by
  by_cases hjob : e.job = r.job
  · obtain ⟨j, f, x, hj, hf, hx, hp, hpause, hs⟩ := h
    have hj' : (s.updateSegment e g).job r.job =
        some (j.updateFile e.file (·.updateSegment e.segNumber g)) := by
      rw [QueueState.updateSegment, hjob, job_updateFile_self, hj]
      rfl
    by_cases hfile : r.file = e.file
    · refine ⟨_, f.updateSegment e.segNumber g, x, hj', ?_, ?_, hp, hpause, hs⟩
      · rw [hfile, file_updateFile_self j (g := FileEntry.updateSegment e.segNumber g) fun _ => rfl,
          ← hfile, hf]
        rfl
      · have hn : r.segNumber ≠ e.segNumber := by
          intro hn
          apply hne
          cases e; cases r
          simp_all
        rw [segment_updateSegment_ne' f hn hnum]
        exact hx
    · refine ⟨_, f, x, hj', ?_, hx, hp, hpause, hs⟩
      rw [file_updateFile_ne j hfile (g := FileEntry.updateSegment e.segNumber g) fun _ => rfl]
      exact hf
  · exact h.updateJob_ne hjob fun _ => rfl

theorem Live.not_complete {j : Job} (hj : s.job r.job = some j) (h : Live s r) :
    Owner.jobComplete j = false := by
  obtain ⟨k, f, x, hk, hf, hx, hp, hpause, -⟩ := h
  obtain rfl : j = k := Option.some.inj (hj.symm.trans hk)
  have hterm : f.isTerminal = false := by
    rw [FileEntry.isTerminal, all_eq_false]
    exact ⟨x, mem_of_find?_eq_some hx, by rw [hp]; simp [SegmentState.isTerminal]⟩
  have hsettled : Owner.fileSettled f = false := by
    simp [Owner.fileSettled, hpause, hterm]
  rw [Owner.jobComplete, Bool.and_eq_false_iff, all_eq_false]
  exact .inr ⟨f, mem_of_find?_eq_some hf, by simp [hsettled]⟩

end Live

/-! ### What a failure leaves alone -/

namespace Owner

variable {w : World} {o : Owner} {id job : JobId}

theorem updateJob_job_ne (o : Owner) {f : Job → Job} (hne : id ≠ job)
    (hf : ∀ j, (f j).id = j.id) : (o.updateJob job f).state.job id = o.state.job id :=
  job_updateJob_ne o.state hne hf

theorem recomputeTotals_job_ne (o : Owner) (hne : id ≠ job) :
    (o.recomputeTotals job).state.job id = o.state.job id := updateJob_job_ne o hne fun _ => rfl

theorem checkJobComplete_job_ne (o : Owner) (hne : id ≠ job) :
    (o.checkJobComplete w job).state.job id = o.state.job id := by
  unfold checkJobComplete
  split
  · rfl
  · split
    · rfl
    · split
      · rw [saveSnapshot_state]
        exact updateJob_job_ne o hne fun _ => rfl
      · rfl

theorem afterFileChange_job_ne (o : Owner) (hne : id ≠ job) (file : FileId) :
    (o.afterFileChange w job file).state.job id = o.state.job id := by
  unfold afterFileChange
  split
  · rfl
  · split
    · exact checkJobComplete_job_ne o hne
    · split
      · split
        · rfl
        · rw [sendFinalize_state]
      · rw [checkJobComplete_job_ne _ hne]
        exact job_updateJob_ne o.state hne fun _ => rfl

theorem setSegment_job_ne (o : Owner) {r : SegRef} (hne : id ≠ r.job) (st : SegmentState) :
    (o.setSegment r st).state.job id = o.state.job id := job_updateJob_ne o.state hne fun _ => rfl

theorem abortFile_job_ne (o : Owner) (hne : id ≠ job) (p : FileId × List Nat) :
    (o.abortFile w job p).state.job id = o.state.job id := by
  simp only [abortFile]
  rw [afterFileChange_job_ne _ hne, recomputeTotals_job_ne _ hne]
  refine foldlRecOn (motive := fun o' : Owner => o'.state.job id = o.state.job id) _ _ rfl ?_
  intro o' ho' n _
  exact (setSegment_job_ne o' hne .failed).trans ho'

theorem maybeAbortUnhealthy_job_ne (o : Owner) (hne : id ≠ job) :
    (o.maybeAbortUnhealthy w job).state.job id = o.state.job id := by
  unfold maybeAbortUnhealthy
  split
  · rfl
  · split
    · rfl
    · split
      · refine foldlRecOn (motive := fun o' : Owner => o'.state.job id = o.state.job id) _ _ rfl ?_
        intro o' ho' p _
        exact (abortFile_job_ne o' hne p).trans ho'
      · rfl

/-- **A failure touches no other job.** -/
theorem failSegment_job_ne (o : Owner) {e : SegRef} (hne : id ≠ e.job) :
    (o.failSegment w e).state.job id = o.state.job id := by
  unfold failSegment
  split
  · rfl
  · split
    · rfl
    · rw [maybeAbortUnhealthy_job_ne _ hne, afterFileChange_job_ne _ hne,
        recomputeTotals_job_ne _ hne]
      exact setSegment_job_ne o hne .failed

/-! The settings stay. -/

@[simp] theorem saveSnapshot_tuning (o : Owner) : (o.saveSnapshot w).tuning = o.tuning := by
  unfold saveSnapshot saveSnapshotResult
  split
  · rfl
  · split <;> rfl

@[simp] theorem sendFinalize_tuning (o : Owner) (file : FileId) :
    (o.sendFinalize w job file).tuning = o.tuning := by
  obtain ⟨jobs, files, sent, pending, h⟩ := sendFinalize_eq (w := w) o job file
  rw [h]

@[simp] theorem checkJobComplete_tuning (o : Owner) :
    (o.checkJobComplete w job).tuning = o.tuning := by
  unfold checkJobComplete
  split
  · rfl
  · split
    · rfl
    · split
      · exact saveSnapshot_tuning _
      · rfl

@[simp] theorem afterFileChange_tuning (o : Owner) (file : FileId) :
    (o.afterFileChange w job file).tuning = o.tuning := by
  unfold afterFileChange
  split
  · rfl
  · split
    · exact checkJobComplete_tuning o
    · split
      · split
        · rfl
        · exact sendFinalize_tuning o file
      · exact checkJobComplete_tuning _

theorem maybeAbortUnhealthy_tuning (o : Owner) : (o.maybeAbortUnhealthy w job).tuning = o.tuning := by
  have hfile : ∀ (o : Owner) p, (o.abortFile w job p).tuning = o.tuning := by
    intro o p
    simp only [abortFile]
    rw [afterFileChange_tuning]
    exact foldlRecOn (motive := fun o' : Owner => o'.tuning = o.tuning) _ _ rfl
      fun _ ho' _ _ => ho'
  unfold maybeAbortUnhealthy
  split
  · rfl
  · split
    · rfl
    · split
      · exact foldlRecOn (motive := fun o' : Owner => o'.tuning = o.tuning) _ _ rfl
          fun o' ho' p _ => (hfile o' p).trans ho'
      · rfl

theorem failSegment_tuning (o : Owner) (e : SegRef) : (o.failSegment w e).tuning = o.tuning := by
  unfold failSegment
  split
  · rfl
  · split
    · rfl
    · rw [maybeAbortUnhealthy_tuning, afterFileChange_tuning]
      rfl

end Owner

/-! ### A failure in the job of the lease -/

/-- The same segments. -/
structure FileSame (f g : FileEntry) : Prop where
  id : f.id = g.id
  isPar2 : f.isPar2 = g.isPar2
  segments : f.segments = g.segments

theorem FileSame.refl (f : FileEntry) : FileSame f f := ⟨rfl, rfl, rfl⟩

theorem FileSame.trans {f g h : FileEntry} (hfg : FileSame f g) (hgh : FileSame g h) : FileSame f h :=
  ⟨hfg.id.trans hgh.id, hfg.isPar2.trans hgh.isPar2, hfg.segments.trans hgh.segments⟩

theorem FileSame.updateSegment {f g : FileEntry} (h : FileSame f g) (n : Nat) (u : Segment → Segment) :
    FileSame (f.updateSegment n u) (g.updateSegment n u) :=
  ⟨h.id, h.isPar2, by rw [FileEntry.updateSegment, FileEntry.updateSegment, h.segments]⟩

theorem jobTotals_congr {fs gs : List FileEntry} (h : List.Forall₂ FileSame fs gs) :
    jobTotals fs = jobTotals gs := by
  unfold jobTotals
  generalize JobTotals.default = t
  induction h generalizing t with
  | nil => rfl
  | cons hfg _ ih => rw [foldl_cons, foldl_cons, hfg.isPar2, hfg.segments, ih]

def failed (x : Segment) : Segment := { x with state := .failed }

/-- The queue with these segments failed, and nothing else. -/
def failAll (s : QueueState) (es : List SegRef) : QueueState :=
  es.foldl (fun s e => s.updateSegment e failed) s

theorem failAll_concat (s : QueueState) (es : List SegRef) (e : SegRef) :
    failAll s (es ++ [e]) = (failAll s es).updateSegment e failed := by
  rw [failAll, foldl_append]
  rfl

theorem failAll_segment (s : QueueState) (es : List SegRef) {r : SegRef} (h : r ∉ es) :
    (failAll s es).segment r = s.segment r := by
  induction es using reverseRecOn with
  | nil => rfl
  | append_singleton es e ih =>
    rw [mem_append, not_or, mem_singleton] at h
    rw [failAll_concat, segment_updateSegment_ne _ (g := failed) h.2 fun _ => rfl, ih h.1]

/-- The job of the lease after some of the exhausted segments have failed: it has
the segments it would have if nothing else had happened, and the lease is live. -/
structure Spares (s : QueueState) (t : Tuning) (r : SegRef) (done : List SegRef) (o : Owner) : Prop where
  live : Live o.state r
  rows : ∃ j k, (failAll s done).job r.job = some j ∧ o.state.job r.job = some k ∧
    List.Forall₂ FileSame j.files k.files
  tuning : o.tuning = t

/-- The lease is not aborted: with each exhausted segment of its job, one after the
other, the job is not below its critical health. -/
def Unharmed (s : QueueState) (r : SegRef) (exhausted : List SegRef) : Prop :=
  ∀ es e, es ++ [e] <+: exhausted → e.job = r.job → ∀ j, (failAll s (es ++ [e])).job r.job = some j →
    Owner.unhealthy (jobTotals j.files) = false

namespace Owner

variable {w : World} {o : Owner} {s : QueueState} {t : Tuning} {r e : SegRef} {done : List SegRef}

theorem checkJobComplete_of_live (h : Live o.state r) : o.checkJobComplete w r.job = o := by
  unfold checkJobComplete
  split
  · rfl
  · split
    · rfl
    next j hj =>
      rw [if_neg]
      rw [h.not_complete hj]
      simp

theorem afterFileChange_of_live (h : Live o.state r) (file : FileId) :
    (o.afterFileChange w r.job file).state = o.state ∨
      (o.afterFileChange w r.job file).state = o.state.updateFile r.job file finalizeTrivially := by
  unfold afterFileChange
  split
  · exact .inl rfl
  · split
    · exact .inl (by rw [checkJobComplete_of_live h])
    · split
      · split
        · exact .inl rfl
        · exact .inl (sendFinalize_state ..)
      · have hlive : Live (o.state.updateFile r.job file finalizeTrivially) r :=
          h.updateFile (fun _ => rfl) (fun _ => rfl) fun _ => rfl
        have hsame := checkJobComplete_of_live (w := w)
          (o := { o with state := o.state.updateFile r.job file finalizeTrivially }) hlive
        exact .inr (by rw [hsame])

theorem markFailed_job {k : Job} (hk : o.state.job e.job = some k) :
    (o.markFailed e).state.job e.job =
      some (recomputeJobTotals (k.updateFile e.file (·.updateSegment e.segNumber failed))) := by
  show (QueueState.updateJob (o.state.updateSegment e failed) e.job recomputeJobTotals).job e.job = _
  rw [job_updateJob_self (f := recomputeJobTotals) _ fun _ => rfl, QueueState.updateSegment,
    job_updateFile_self, hk]
  rfl

theorem markFailed_live (h : Live o.state r) (hne : e ≠ r) : Live (o.markFailed e).state r := by
  have hset : Live (o.state.updateSegment e failed) r := h.updateSegment hne fun _ => rfl
  exact hset.updateJob (g := recomputeJobTotals) (fun _ => rfl) (fun _ => rfl)
    fun _ hs => hs

/-- The job of a live segment when one of its files has been looked at: its
segments and its totals are what they were. -/
theorem afterFileChange_job_of_live (h : Live o.state r) (file : FileId) {k : Job}
    (hk : o.state.job r.job = some k) (htot : k.totals = jobTotals k.files) :
    Live (o.afterFileChange w r.job file).state r ∧
      ∃ k', (o.afterFileChange w r.job file).state.job r.job = some k' ∧
        List.Forall₂ FileSame k.files k'.files ∧ k'.totals = jobTotals k'.files := by
  rcases afterFileChange_of_live (w := w) h file with hst | hst
  · rw [hst]
    exact ⟨h, k, hk, forall₂_same.mpr fun f _ => FileSame.refl f, htot⟩
  · have hflag : List.Forall₂ FileSame k.files (k.updateFile file finalizeTrivially).files :=
      forall₂_self_modifyFirst FileSame.refl fun f _ => ⟨rfl, rfl, rfl⟩
    rw [hst]
    refine ⟨h.updateFile (fun _ => rfl) (fun _ => rfl) fun _ => rfl, _, ?_, hflag, ?_⟩
    · rw [job_updateFile_self, hk]
      rfl
    · exact htot.trans (jobTotals_congr hflag)

theorem maybeAbortUnhealthy_of_healthy {k : Job} {id : JobId} (hk : o.state.job id = some k)
    (h : o.tuning.healthAbort = false ∨ unhealthy k.totals = false) :
    o.maybeAbortUnhealthy w id = o := by
  unfold maybeAbortUnhealthy
  split
  · rfl
  next hon =>
    rw [hk]
    simp only
    rw [if_neg]
    rintro ⟨-, hun⟩
    rcases h with hoff | hok
    · exact hon hoff
    · rw [hok] at hun
      cases hun

theorem segment_of_same {s' : QueueState} {j k : Job} (hj : s.job e.job = some j)
    (hk : s'.job e.job = some k) (hjk : List.Forall₂ FileSame j.files k.files) {x : Segment}
    (hx : s.segment e = some x) : s'.segment e = some x := by
  obtain ⟨j', f, hj', hf, hfx⟩ := segment_eq_some.mp hx
  obtain rfl : j = j' := Option.some.inj (hj.symm.trans hj')
  rcases forall₂_find? (p := (·.id = e.file)) (r := (·.id = e.file))
    (fun a b hab => by rw [hab.id]) hjk with ⟨hnone, -⟩ | ⟨f', g, hf', hg, hfg⟩
  · rw [Job.file, hnone] at hf; nomatch hf
  · obtain rfl : f' = f := Option.some.inj (hf'.symm.trans hf)
    refine segment_eq_some.mpr ⟨k, g, hk, hg, ?_⟩
    rw [FileEntry.segment, ← hfg.segments]
    exact hfx

theorem failSegment_of_pending {x : Segment} (hx : o.state.segment e = some x)
    (hpend : x.state = .pending) : o.failSegment w e =
      ((o.markFailed e).afterFileChange w e.job e.file).maybeAbortUnhealthy w e.job := by
  rw [failSegment, hx]
  simp only [hpend]
  rfl

end Owner

section Spares

open Owner

variable {w : World} {o : Owner} {s : QueueState} {t : Tuning} {r e : SegRef} {done : List SegRef}

theorem Spares.other (h : Spares s t r done o) (hne : e.job ≠ r.job) :
    Spares s t r (done ++ [e]) (o.failSegment w e) := by
  have hjob : (o.failSegment w e).state.job r.job = o.state.job r.job :=
    failSegment_job_ne o (Ne.symm hne)
  obtain ⟨j, k, hj, hk, hjk⟩ := h.rows
  refine ⟨?_, ⟨j, k, ?_, hjob.trans hk, hjk⟩, (failSegment_tuning o e).trans h.tuning⟩
  · obtain ⟨j', f, x, hj', hrest⟩ := h.live
    exact ⟨j', f, x, hjob.trans hj', hrest⟩
  · rw [failAll_concat, job_updateSegment_ne _ (Ne.symm hne)]
    exact hj

theorem Spares.same (h : Spares s t r done o) (hjob : e.job = r.job) (hne : e ≠ r) {x : Segment}
    (hx : (failAll s done).segment e = some x) (hpend : x.state = .pending)
    (hcond : t.healthAbort = false ∨ ∀ j, (failAll s (done ++ [e])).job r.job = some j →
      unhealthy (jobTotals j.files) = false) :
    Spares s t r (done ++ [e]) (o.failSegment w e) := by
  obtain ⟨j, k, hj, hk, hjk⟩ := h.rows
  have hseg : o.state.segment e = some x := segment_of_same (hjob ▸ hj) (hjob ▸ hk) hjk hx
  have hmark := markFailed_job (o := o) (e := e) (hjob ▸ hk)
  rw [hjob] at hmark
  have hpure : (failAll s (done ++ [e])).job r.job =
      some (j.updateFile e.file (·.updateSegment e.segNumber failed)) := by
    rw [failAll_concat, QueueState.updateSegment, hjob, job_updateFile_self, hj]
    rfl
  have hsame : List.Forall₂ FileSame (j.updateFile e.file (·.updateSegment e.segNumber failed)).files
      (k.updateFile e.file (·.updateSegment e.segNumber failed)).files :=
    forall₂_modifyFirst (fun a b hab => by rw [hab.id])
      (fun a b hab => hab.updateSegment e.segNumber failed) hjk
  obtain ⟨hlive, k', hk', hkk', htot⟩ := afterFileChange_job_of_live (w := w)
    (markFailed_live h.live hne) e.file hmark rfl
  have hfiles := forall₂_trans (Q := FileSame) (fun _ _ _ => FileSame.trans) hsame hkk'
  have htuning : ((o.markFailed e).afterFileChange w r.job e.file).tuning = t := by
    rw [afterFileChange_tuning]
    exact h.tuning
  have hhealthy : ((o.markFailed e).afterFileChange w r.job e.file).tuning.healthAbort = false ∨
      unhealthy k'.totals = false := by
    rw [htuning, htot, ← jobTotals_congr hfiles]
    exact hcond.imp_right fun hok => hok _ hpure
  rw [failSegment_of_pending hseg hpend, hjob, maybeAbortUnhealthy_of_healthy hk' hhealthy]
  exact ⟨hlive, ⟨_, k', hpure, hk', hfiles⟩, htuning⟩

/-- **The loop over the exhausted segments spares the lease.** -/
theorem Spares.foldl {es : List SegRef} (hlive : ∀ e ∈ done ++ es, ∃ x, s.segment e = some x ∧
      x.state = .pending) (hnodup : (done ++ es).Nodup) (hr : r ∉ done ++ es)
    (hcond : t.healthAbort = false ∨ Unharmed s r (done ++ es)) (h : Spares s t r done o) :
    Spares s t r (done ++ es) (es.foldl (fun o e => o.failSegment w e) o) := by
  induction es generalizing done o with
  | nil => rwa [append_nil]
  | cons e es ih =>
    have hassoc : done ++ e :: es = (done ++ [e]) ++ es := by rw [append_assoc]; rfl
    have hmem : e ∈ done ++ e :: es := by simp
    have hnext : Spares s t r (done ++ [e]) (o.failSegment w e) := by
      by_cases hjob : e.job = r.job
      · obtain ⟨x, hx, hpend⟩ := hlive e hmem
        refine h.same hjob (fun he => hr (he ▸ hmem)) ?_ hpend (hcond.imp_right fun hok => ?_)
        · rw [failAll_segment s done fun hd => ?_]
          · exact hx
          · exact (nodup_append.mp hnodup).2.2 e hd e mem_cons_self rfl
        · exact hok done e ⟨es, hassoc.symm⟩ hjob
      · exact h.other hjob
    rw [hassoc] at hlive hnodup hr hcond ⊢
    exact ih hlive hnodup hr hcond hnext

end Spares

/-! ### One scan -/

namespace Owner

variable {w : World} {o : Owner} {server : ServerId} {r : SegRef}

/-- **The scan chooses a live segment** that it has not given up on, and what it has
given up on is pending. -/
theorem nextLease_live (hk : o.state.WellKeyed) (h : (o.nextLease w server).lease = some r) :
    Live o.state r ∧ r ∉ (o.nextLease w server).exhausted ∧
      (o.nextLease w server).exhausted.Nodup ∧
      ∀ e ∈ (o.nextLease w server).exhausted, ∃ x, o.state.segment e = some x ∧
        x.state = .pending := by
  obtain ⟨pre, age, post, found, hl, hex, hfound⟩ := scan_lease _ _ _ h
  have hnodup := scanned_nodup hk (o.selectionCtx w)
  rw [hl, map_append, map_cons, nodup_middle, nodup_cons] at hnodup
  have hex : (o.nextLease w server).exhausted = found := hex.trans (nil_append _)
  rw [hex]
  refine ⟨?_, ?_, ?_, ?_⟩
  · have hmem : (r, age) ∈ scanned o.state (o.selectionCtx w) := by
      rw [hl]
      exact mem_append_right _ mem_cons_self
    obtain ⟨j, hj, f, hf, x, hx, rfl, hpend, hpause, hserv⟩ := mem_scanned hmem
    exact ⟨j, f, x, hk.job_of_mem hj, hk.file_of_mem hj hf,
      find?_key_eq (hk.numbers_of_mem hj hf) hx, hpend, hpause, hserv⟩
  · exact fun hmem => hnodup.1 (mem_append_left _ (hfound.subset hmem))
  · exact (nodup_append.mp hnodup.2).1.sublist hfound
  · intro e he
    obtain ⟨⟨q, a⟩, hq, rfl⟩ := mem_map.mp (hfound.subset he)
    have hmem : (q, a) ∈ scanned o.state (o.selectionCtx w) := by
      rw [hl]
      exact mem_append_left _ hq
    obtain ⟨j, hj, f, hf, x, hx, heq, hpend, -, -⟩ := mem_scanned hmem
    refine ⟨x, ?_, hpend⟩
    rw [heq]
    exact hk.segment_of_mem hj hf hx

/-- **The condition at a scan.**  Jobs are not aborted, or the job of the lease stays
above its critical health while the exhausted segments fail. -/
def Spared (w : World) (server : ServerId) (o : Owner) : Prop :=
  ∀ r, (o.nextLease w server).lease = some r →
    o.tuning.healthAbort = false ∨ Unharmed o.state r (o.nextLease w server).exhausted

theorem failExhausted_live (hk : o.state.WellKeyed) (hs : Spared w server o)
    (h : (o.nextLease w server).lease = some r) : Live (o.failExhausted w server).state r := by
  obtain ⟨hlive, hr, hnodup, hpend⟩ := nextLease_live hk h
  have hrows : ∃ j k, (failAll o.state []).job r.job = some j ∧ o.state.job r.job = some k ∧
      List.Forall₂ FileSame j.files k.files := by
    obtain ⟨j, -, -, hj, -⟩ := hlive
    exact ⟨j, j, hj, hj, forall₂_same.mpr fun f _ => FileSame.refl f⟩
  have hstart : Spares o.state o.tuning r [] { o with attempts := (o.nextLease w server).attempts } :=
    ⟨hlive, hrows, rfl⟩
  have hall : Spares o.state o.tuning r ([] ++ (o.nextLease w server).exhausted)
      (o.failExhausted w server) :=
    hstart.foldl hpend hnodup hr (hs r h)
  exact hall.live

theorem failExhausted_fades (hk : o.state.WellKeyed) :
    Holds (StateBy Fades o.state) o.log (o.failExhausted w server) :=
  foldl_failSegment_fades hk _ ⟨.refl chains_fades _, fun _ he => .inl he⟩

/-! ### The rounds of a request -/

/-- The owner at each scan of a request. -/
def scans (w : World) (server : ServerId) : Nat → Owner → List Owner
  | 0, _ => []
  | n + 1, o =>
    o :: match (o.nextLease w server).lease with
      | none => []
      | some r =>
        match (o.failExhausted w server).ensureAllocation w r.job with
        | none => []
        | some granted =>
          if granted.state.segment r = none then [] else scans w server n (granted.applyLease w server r)

variable {R : SegmentState → SegmentState → Prop} {s : QueueState} {l : List DiskWrite}

theorem applyLease_by (hR : Chains R) (h : Holds (StateBy R s) l o)
    (hx : ∀ x, o.state.segment r = some x → R x.state (.leased server)) :
    Holds (StateBy R s) l (o.applyLease w server r) := by
  have hset := setSegment_by hR h r hx
  have hwriter : Holds (StateBy R s) l
      ((o.setSegment r (.leased server)).writerFor w r.job r.file) := by
    obtain ⟨jobs, files, hw⟩ := writerFor_eq (w := w) (o.setSegment r (.leased server)) r.job r.file
    rw [hw]
    exact ⟨hset.state, hset.log⟩
  have hup := updateJob_by (editable_by hR) hwriter r.job (f := markDownloading)
    (fun j => by unfold markDownloading; split <;> rfl)
    (fun j => by unfold markDownloading; split <;> rfl)
  exact ⟨hup.state, hup.log⟩

theorem grantRounds_by (hR : Chains R) (hF : ∀ a b, Fades a b → R a b) (hk : s.WellKeyed) :
    ∀ (n : Nat) (o : Owner), Holds (StateBy R s) l o →
      (∀ o' ∈ scans w server n o, o'.state.WellKeyed → ∀ r, (o'.nextLease w server).lease = some r →
        ∀ x, (o'.failExhausted w server).state.segment r = some x → R x.state (.leased server)) →
      Holds (StateBy R s) l (grantRounds w server n o).2 := by
  intro n
  induction n with
  | zero => intro o h _; exact h
  | succ n ih =>
    intro o h hlease
    have hko := h.state.wellKeyed hk
    have hfail : Holds (StateBy R s) l (o.failExhausted w server) := by
      have hf : Holds (StateBy Fades o.state) o.log (o.failExhausted w server) :=
        failExhausted_fades hko
      refine ⟨h.state.trans hR (hf.state.mono hF), fun e he => ?_⟩
      rcases hf.log e he with he | ⟨t, keep, rfl, ht⟩
      · exact h.log e he
      · exact .inr ⟨t, keep, rfl, h.state.trans hR (ht.mono hF)⟩
    rw [scans] at hlease
    rw [grantRounds]
    cases hl : (o.nextLease w server).lease with
    | none => exact hfail
    | some r =>
      simp only [hl] at hlease ⊢
      cases ha : (o.failExhausted w server).ensureAllocation w r.job with
      | none => exact hfail
      | some granted =>
        simp only [ha] at hlease ⊢
        obtain ⟨jobs, hg⟩ := ensureAllocation_eq ha
        have hgranted : Holds (StateBy R s) l granted := by
          rw [hg]
          exact ⟨hfail.state, hfail.log⟩
        split
        · exact hgranted
        next hsome =>
          rw [if_neg hsome] at hlease
          refine ih _ (applyLease_by hR hgranted fun x hx => ?_) fun o' ho' =>
            hlease o' (mem_cons_of_mem _ ho')
          rw [hg] at hx
          exact hlease o mem_cons_self hko r hl x hx

theorem grantWork_by (hR : Chains R) (hF : ∀ a b, Fades a b → R a b) (hk : o.state.WellKeyed) (n : Nat)
    (hlease : ∀ o' ∈ scans w server n o, o'.state.WellKeyed → ∀ r,
      (o'.nextLease w server).lease = some r → ∀ x,
        (o'.failExhausted w server).state.segment r = some x → R x.state (.leased server)) :
    Holds (StateBy R o.state) o.log (o.grantWork w server n).2 := by
  unfold grantWork
  split
  · exact .start (.refl hR _)
  · exact grantRounds_by hR hF hk n o (.start (.refl hR _)) hlease

/-- **A request for work leaves what is done alone**, and does nothing itself. -/
theorem grantWork_still (hk : o.state.WellKeyed) (n : Nat) :
    Holds (StateBy Still o.state) o.log (o.grantWork w server n).2 := by
  refine grantWork_by chains_still (fun _ _ => Fades.still) hk n fun o' _ hk' r hl x hx => .inr ⟨?_, rfl⟩
  have hpend : NotDone o'.state r := by
    intro y hy
    obtain ⟨z, hz, hp⟩ := (nextLease_live hk' hl).1.segment
    obtain rfl : z = y := Option.some.inj (hz.symm.trans hy)
    rw [hp]
    rfl
  exact (hpend.fades (failExhausted_fades hk').state) x hx

/-- **If every scan is spared, failed and done segments outlast the request.** -/
theorem grantWork_lasts (hk : o.state.WellKeyed) (n : Nat)
    (hs : ∀ o' ∈ scans w server n o, Spared w server o') :
    Holds (StateBy Lasts o.state) o.log (o.grantWork w server n).2 := by
  refine grantWork_by chains_lasts (fun _ _ => Fades.lasts) hk n fun o' ho' hk' r hl x hx ht => ?_
  obtain ⟨y, hy, hp⟩ := (failExhausted_live hk' (hs o' ho') hl).segment
  obtain rfl : y = x := Option.some.inj (hy.symm.trans hx)
  rw [hp] at ht
  nomatch ht

/-- **If every scan is spared, every lease is sound** when it is applied. -/
theorem grantRounds_leasable :
    ∀ (n : Nat) (o : Owner), o.state.WellKeyed → (∀ o' ∈ scans w server n o, Spared w server o') →
      ∀ p ∈ (grantRounds w server n o).1, Leasable p.1.state p.2 := by
  intro n
  induction n with
  | zero => intro o _ _ p hp; nomatch hp
  | succ n ih =>
    intro o hk hs p hp
    rw [scans] at hs
    rw [grantRounds] at hp
    cases hl : (o.nextLease w server).lease with
    | none => simp only [hl] at hp; nomatch hp
    | some r =>
      simp only [hl] at hs hp
      have hlive := failExhausted_live hk (hs o mem_cons_self) hl
      cases ha : (o.failExhausted w server).ensureAllocation w r.job with
      | none => simp only [ha] at hp; nomatch hp
      | some granted =>
        simp only [ha] at hs hp
        obtain ⟨jobs, rfl⟩ := ensureAllocation_eq ha
        split at hp
        · nomatch hp
        next hsome =>
          rw [if_neg hsome] at hs
          rcases mem_cons.mp hp with rfl | hp
          · exact hlive.leasable
          · refine ih _ ?_ (fun o' ho' => hs o' (mem_cons_of_mem _ ho')) p hp
            have hfail : Holds (StateBy Fades o.state) o.log (o.failExhausted w server) :=
              failExhausted_fades hk
            have happly : Holds (StateBy (fun _ _ => True) (o.failExhausted w server).state)
                (o.failExhausted w server).log
                ({ o.failExhausted w server with allocatedJobs := jobs }.applyLease w server r) :=
              applyLease_by chains_true ⟨StateBy.refl chains_true _, fun _ he => .inl he⟩
                fun _ _ => trivial
            exact happly.state.wellKeyed (hfail.state.wellKeyed hk)

end Owner

end Nzbd.Engine
