import Nzbd.Engine.Command

/-!
# What the cascade does to segments

A segment `Fades` when nothing good happens to it: it stays as it is or, unless
it is done or failed, is given back or fails.  The whole cascade behind a failed
segment is of this kind, row by row, as long as the keys of the queue are
distinct (`failSegment_fades`): done segments stay done and failed ones failed,
and nothing is leased.

`StateBy` is `JobsBy` on queue states, and `Holds P` says that `P` holds of the
queue and of every snapshot saved on the way.  What leaves the segments alone keeps
every `P` that does not look at anything else of the rows (`Editable`).
-/

namespace Nzbd

/-- Rows in step, and the reserved ids the same. -/
structure StateBy (R : SegmentState → SegmentState → Prop) (s t : QueueState) : Prop where
  jobs : JobsBy R s.jobs t.jobs
  pending : t.pendingAdmissions = s.pendingAdmissions

/-- Changes that can be chained. -/
structure Chains (R : SegmentState → SegmentState → Prop) : Prop where
  refl : ∀ a, R a a
  trans : ∀ a b c, R a b → R b c → R a c

theorem chains_eq : Chains (· = ·) := ⟨fun _ => rfl, fun _ _ _ => Eq.trans⟩

theorem chains_true : Chains fun _ _ => True := ⟨fun _ => trivial, fun _ _ _ _ _ => trivial⟩

/-- Kept by every change that leaves the segments alone. -/
def Editable (P : QueueState → Prop) : Prop := ∀ s t, P s → StateBy (· = ·) s t → P t

namespace StateBy

variable {R S : SegmentState → SegmentState → Prop} {s t u : QueueState}

theorem refl (hR : Chains R) (s : QueueState) : StateBy R s s := ⟨.refl hR.refl _, rfl⟩

theorem trans (hR : Chains R) (h₁ : StateBy R s t) (h₂ : StateBy R t u) : StateBy R s u :=
  ⟨h₁.jobs.trans hR.trans h₂.jobs, h₂.pending.trans h₁.pending⟩

theorem mono (hRS : ∀ a b, R a b → S a b) (h : StateBy R s t) : StateBy S s t :=
  ⟨h.jobs.mono hRS, h.pending⟩

theorem wellKeyed (h : StateBy R s t) (hs : s.WellKeyed) : t.WellKeyed :=
  h.jobs.wellKeyed h.pending hs

theorem segment (h : StateBy R s t) (r : SegRef) :
    (s.segment r = none ∧ t.segment r = none) ∨
      ∃ a b, s.segment r = some a ∧ t.segment r = some b ∧ SegBy R a b := h.jobs.segment r

end StateBy

theorem editable_by {R : SegmentState → SegmentState → Prop} (hR : Chains R) {s : QueueState} :
    Editable (StateBy R s) := by
  intro t u h₁ h₂
  refine h₁.trans hR (h₂.mono ?_)
  rintro a _ rfl
  exact hR.refl a

/-! ### Fading -/

/-- The state stays, or an unfinished segment is given back or fails. -/
def Fades (a b : SegmentState) : Prop :=
  b = a ∨ (a.isTerminal = false ∧ b.isDone = false ∧ b.isLeased = false)

theorem Fades.refl (a : SegmentState) : Fades a a := .inl rfl

theorem Fades.trans (a b c : SegmentState) (h₁ : Fades a b) (h₂ : Fades b c) : Fades a c := by
  rcases h₁ with rfl | ⟨ha, hb⟩
  · exact h₂
  · rcases h₂ with rfl | ⟨-, hc⟩
    · exact .inr ⟨ha, hb⟩
    · exact .inr ⟨ha, hc⟩

theorem chains_fades : Chains Fades := ⟨Fades.refl, Fades.trans⟩

theorem Fades.failed {a : SegmentState} (h : a.isDone = false) : Fades a .failed := by
  cases a with
  | pending => exact .inr ⟨rfl, rfl, rfl⟩
  | leased server => exact .inr ⟨rfl, rfl, rfl⟩
  | done offset len crc => simp [SegmentState.isDone] at h
  | failed => exact .inl rfl

theorem Fades.isDone {a b : SegmentState} (h : Fades a b) (ha : a.isDone = false) :
    b.isDone = false := by
  rcases h with rfl | ⟨-, hb, -⟩
  · exact ha
  · exact hb

theorem Fades.of_eq {a b : SegmentState} (h : a = b) : Fades a b := .inl h.symm

def NotDone (s : QueueState) (r : SegRef) : Prop :=
  ∀ x, s.segment r = some x → x.state.isDone = false

theorem NotDone.fades {s t : QueueState} {r : SegRef} (hs : NotDone s r) (h : StateBy Fades s t) :
    NotDone t r := by
  intro y hy
  rcases h.segment r with ⟨-, ht⟩ | ⟨a, b, ha, hb, hab⟩
  · rw [ht] at hy; nomatch hy
  · obtain rfl : b = y := Option.some.inj (hb.symm.trans hy)
    exact hab.state.isDone (hs a ha)

namespace Engine.Owner

open Nzbd.State (JournalRecord)

/-- `P` holds of the queue, and what has been written besides `l` is snapshots
with `P`. -/
structure Holds (P : QueueState → Prop) (l : List DiskWrite) (o : Owner) : Prop where
  state : P o.state
  log : ∀ e ∈ o.log, e ∈ l ∨ ∃ t keep, e = .save t.toDoc keep ∧ P t

variable {w : World} {R : SegmentState → SegmentState → Prop} {P Q : QueueState → Prop}
  {l : List DiskWrite} {o : Owner}

namespace Holds

theorem start (h : P o.state) : Holds P o.log o := ⟨h, fun _ he => .inl he⟩

theorem mono {l' : List DiskWrite} (hPQ : ∀ t, P t → Q t) (hl : l ⊆ l') (h : Holds P l o) :
    Holds Q l' o := by
  refine ⟨hPQ _ h.state, fun e he => ?_⟩
  rcases h.log e he with he | ⟨t, keep, rfl, ht⟩
  · exact .inl (hl he)
  · exact .inr ⟨t, keep, rfl, hPQ t ht⟩

theorem saveSnapshotResult (h : Holds P l o) : Holds P l (o.saveSnapshotResult w).2 := by
  unfold Owner.saveSnapshotResult
  split
  · exact h
  · split
    · refine ⟨h.state, fun e he => ?_⟩
      rcases List.mem_append.mp he with he | he
      · exact h.log e he
      · exact .inr ⟨o.state, _, List.mem_singleton.mp he, h.state⟩
    · exact h
    · exact ⟨h.state, h.log⟩

theorem saveSnapshot (h : Holds P l o) : Holds P l (o.saveSnapshot w) := h.saveSnapshotResult

theorem congr {o' : Owner} (h : Holds P l o) (hs : o'.state = o.state) (hl : o'.log = o.log) :
    Holds P l o' := by
  refine ⟨hs ▸ h.state, ?_⟩
  rw [hl]
  exact h.log

end Holds

/-! ### What does not touch segments -/

@[simp] theorem saveSnapshotResult_state (o : Owner) : (o.saveSnapshotResult w).2.state = o.state := by
  unfold saveSnapshotResult
  split
  · rfl
  · split <;> rfl

@[simp] theorem saveSnapshot_state (o : Owner) : (o.saveSnapshot w).state = o.state :=
  saveSnapshotResult_state o

theorem ensureAllocation_eq {o o' : Owner} {job : JobId} (h : o.ensureAllocation w job = some o') :
    ∃ jobs, o' = { o with allocatedJobs := jobs } := by
  unfold ensureAllocation at h
  split at h
  · nomatch h
  · split at h
    · exact ⟨o.allocatedJobs, (Option.some.inj h).symm⟩
    · split at h
      · nomatch h
      · split at h
        · exact ⟨_, (Option.some.inj h).symm⟩
        · nomatch h

theorem writerFor_eq (o : Owner) (job : JobId) (file : FileId) :
    ∃ jobs files, o.writerFor w job file = { o with allocatedJobs := jobs, writers := files } := by
  unfold writerFor
  split
  · exact ⟨_, _, rfl⟩
  · split
    · exact ⟨_, _, rfl⟩
    next o' h =>
      obtain ⟨jobs, rfl⟩ := ensureAllocation_eq h
      exact ⟨_, _, rfl⟩

@[simp] theorem writerFor_state (o : Owner) (job : JobId) (file : FileId) :
    (o.writerFor w job file).state = o.state := by
  obtain ⟨jobs, files, h⟩ := writerFor_eq (w := w) o job file
  rw [h]

theorem sendFinalize_eq (o : Owner) (job : JobId) (file : FileId) :
    ∃ jobs writers sent pending, o.sendFinalize w job file = { o with
      allocatedJobs := jobs, writers := writers, finalizeSent := sent
      pendingFinalize := pending } := by
  simp only [sendFinalize]
  split
  · exact ⟨_, _, _, _, rfl⟩
  · obtain ⟨jobs, files, h⟩ := writerFor_eq (w := w) o job file
    rw [h]
    split <;> exact ⟨_, _, _, _, rfl⟩

@[simp] theorem sendFinalize_state (o : Owner) (job : JobId) (file : FileId) :
    (o.sendFinalize w job file).state = o.state := by
  obtain ⟨jobs, files, sent, pending, h⟩ := sendFinalize_eq (w := w) o job file
  rw [h]

theorem Holds.sendFinalize (h : Holds P l o) (job : JobId) (file : FileId) :
    Holds P l (o.sendFinalize w job file) := by
  obtain ⟨jobs, files, sent, pending, heq⟩ := sendFinalize_eq (w := w) o job file
  rw [heq]
  exact ⟨h.state, h.log⟩

section Rows

variable (hP : Editable P)
include hP

theorem updateJob_by (h : Holds P l o) (id : JobId) {f : Job → Job}
    (hid : ∀ j, (f j).id = j.id) (hfiles : ∀ j, (f j).files = j.files) :
    Holds P l (o.updateJob id f) :=
  ⟨hP _ _ h.state ⟨.editJob chains_eq.refl _ _ hid hfiles, rfl⟩, h.log⟩

theorem recomputeTotals_by (h : Holds P l o) (id : JobId) :
    Holds P l (o.recomputeTotals id) :=
  updateJob_by hP h id (fun _ => rfl) fun _ => rfl

theorem checkJobComplete_by (h : Holds P l o) (id : JobId) :
    Holds P l (o.checkJobComplete w id) := by
  unfold checkJobComplete
  split
  · exact h
  · split
    · exact h
    next job _ =>
      split
      · have hup := updateJob_by hP h id (f := fun j => { j with status := o.endStatus job })
          (fun _ => rfl) fun _ => rfl
        exact Holds.saveSnapshot ⟨hup.state, hup.log⟩
      · exact h

theorem updateFile_by {t : QueueState} (h : P t) (job : JobId) (file : FileId)
    {g : FileEntry → FileEntry} (hid : ∀ f, (g f).id = f.id)
    (hsegs : ∀ f, (g f).segments = f.segments) : P (t.updateFile job file g) :=
  hP _ _ h ⟨.updateFile chains_eq.refl fun _ f _ _ => .of_segments_eq chains_eq.refl (hid f)
    (hsegs f), rfl⟩

theorem afterFileChange_by (h : Holds P l o) (job : JobId) (file : FileId) :
    Holds P l (o.afterFileChange w job file) := by
  unfold afterFileChange
  split
  · exact h
  · split
    · exact checkJobComplete_by hP h job
    · split
      · split
        · exact h
        · exact h.sendFinalize job file
      · have hup := updateFile_by hP h.state job file (g := finalizeTrivially) (fun _ => rfl)
          fun _ => rfl
        refine checkJobComplete_by hP ?_ job
        exact ⟨hup, h.log⟩

end Rows

theorem setSegment_by (hR : Chains R) {s : QueueState} (h : Holds (StateBy R s) l o) (r : SegRef)
    {st : SegmentState}
    (hst : ∀ x, o.state.segment r = some x → R x.state st) :
    Holds (StateBy R s) l (o.setSegment r st) :=
  ⟨h.state.trans hR ⟨.updateSegment hR.refl fun x hx => ⟨rfl, hst x hx⟩, rfl⟩, h.log⟩

/-! ### What fails segments -/

variable {s : QueueState}

theorem foldl_fades {β : Type*} {step : Owner → β → Owner} (refs : β → List SegRef)
    (hstep : ∀ o b, Holds (StateBy Fades s) l o → (∀ r ∈ refs b, NotDone o.state r) →
      Holds (StateBy Fades s) l (step o b) ∧ StateBy Fades o.state (step o b).state) :
    ∀ (bs : List β) (o : Owner), Holds (StateBy Fades s) l o →
      (∀ b ∈ bs, ∀ r ∈ refs b, NotDone o.state r) →
        Holds (StateBy Fades s) l (bs.foldl step o) := by
  intro bs
  induction bs with
  | nil => intro o ho _; exact ho
  | cons b bs ih =>
    intro o ho h
    have hb := hstep o b ho (h b (by simp))
    refine ih _ hb.1 fun c hc r hr => ?_
    exact (h c (by simp [hc]) r hr).fades hb.2

theorem foldl_failed_fades {job : JobId} {file : FileId} (ns : List Nat)
    (h : Holds (StateBy Fades s) l o)
    (hn : ∀ r ∈ ns.map (fun n => (⟨job, file, n⟩ : SegRef)), NotDone o.state r) :
    Holds (StateBy Fades s) l (ns.foldl (fun o n =>
      (o.setSegment ⟨job, file, n⟩ .failed).dropAttempt ⟨job, file, n⟩) o) := by
  refine foldl_fades (fun n => [(⟨job, file, n⟩ : SegRef)]) (fun o n ho hn => ?_) ns o h ?_
  · have hfail : ∀ x, o.state.segment ⟨job, file, n⟩ = some x → Fades x.state .failed :=
      fun x hx => Fades.failed (hn _ (by simp) x hx)
    have hset := setSegment_by chains_fades ho _ hfail
    have hself := setSegment_by chains_fades (Holds.start (.refl chains_fades o.state)) _ hfail
    exact ⟨⟨hset.state, hset.log⟩, hself.state⟩
  · intro n hmem r hr
    rw [List.mem_singleton.mp hr]
    exact hn _ (List.mem_map_of_mem hmem)

theorem abortFile_fades (job : JobId) (h : Holds (StateBy Fades s) l o) (p : FileId × List Nat)
    (hp : ∀ r ∈ p.2.map (fun n => (⟨job, p.1, n⟩ : SegRef)), NotDone o.state r) :
    Holds (StateBy Fades s) l (o.abortFile w job p) :=
  afterFileChange_by (editable_by chains_fades)
    (recomputeTotals_by (editable_by chains_fades) (foldl_failed_fades p.2 h hp) job) job p.1

theorem notDone_pendingFiles (hk : o.state.WellKeyed) {id : JobId} {j : Job}
    (hj : o.state.job id = some j) {p : FileId × List Nat} (hp : p ∈ pendingFiles j) {r : SegRef}
    (hr : r ∈ p.2.map fun n => (⟨id, p.1, n⟩ : SegRef)) : NotDone o.state r := by
  obtain ⟨f, hf, rfl⟩ := List.mem_map.mp hp
  obtain ⟨n, hn, rfl⟩ := List.mem_map.mp hr
  obtain ⟨x, hx, rfl⟩ := List.mem_map.mp hn
  have hjm : j ∈ o.state.jobs := List.mem_of_find?_eq_some hj
  have hjid : j.id = id := job_find hj
  have hseg := hk.segment_of_mem hjm (List.mem_filter.mp hf).1 (List.mem_filter.mp hx).1
  rw [hjid] at hseg
  intro y hy
  obtain rfl : x = y := Option.some.inj (hseg.symm.trans hy)
  have hpend : x.state = .pending := by simpa using (List.mem_filter.mp hx).2
  rw [hpend]
  rfl

theorem maybeAbortUnhealthy_fades (hk : s.WellKeyed) (h : Holds (StateBy Fades s) l o)
    (id : JobId) : Holds (StateBy Fades s) l (o.maybeAbortUnhealthy w id) := by
  unfold maybeAbortUnhealthy
  split
  · exact h
  · split
    · exact h
    next j hj =>
      split
      · refine foldl_fades _ (fun o p ho hp => ⟨abortFile_fades id ho p hp, ?_⟩) (pendingFiles j) o h
          fun p hp r hr => notDone_pendingFiles (h.state.wellKeyed hk) hj hp hr
        exact (abortFile_fades id (Holds.start (.refl chains_fades o.state)) p hp).state
      · exact h

def markFailed (o : Owner) (r : SegRef) : Owner :=
  ((o.setSegment r .failed).dropAttempt r).recomputeTotals r.job

theorem markFailed_fades (h : Holds (StateBy Fades s) l o) (r : SegRef) {x : Segment}
    (hx : o.state.segment r = some x) (hd : x.state.isTerminal = false) :
    Holds (StateBy Fades s) l (o.markFailed r) := by
  have hset : Holds (StateBy Fades s) l (o.setSegment r .failed) := by
    refine setSegment_by chains_fades h r fun y hy => ?_
    obtain rfl : x = y := Option.some.inj (hx.symm.trans hy)
    exact .inr ⟨hd, rfl, rfl⟩
  exact recomputeTotals_by (editable_by chains_fades) (o := (o.setSegment r .failed).dropAttempt r)
    ⟨hset.state, hset.log⟩ r.job

/-- **The cascade of a failed segment fades segments.** -/
theorem failSegment_fades (hk : s.WellKeyed) (h : Holds (StateBy Fades s) l o) (r : SegRef) :
    Holds (StateBy Fades s) l (o.failSegment w r) := by
  unfold failSegment
  split
  · exact h
  next x hx =>
    split
    · exact h
    next hd =>
      have h₁ := markFailed_fades h r hx (by simpa using hd)
      exact maybeAbortUnhealthy_fades hk (afterFileChange_by (editable_by chains_fades) h₁ r.job r.file) r.job

theorem foldl_failSegment_fades (hk : s.WellKeyed) (rs : List SegRef)
    (h : Holds (StateBy Fades s) l o) :
    Holds (StateBy Fades s) l (rs.foldl (fun o r => o.failSegment w r) o) := by
  induction rs generalizing o with
  | nil => exact h
  | cons r rs ih => exact ih (failSegment_fades hk h r)

theorem failWholeFile_fades (hk : s.WellKeyed) (h : Holds (StateBy Fades s) l o) (job : JobId)
    (file : FileId) : Holds (StateBy Fades s) l (o.failWholeFile w job file) := by
  unfold failWholeFile
  split
  · exact h
  · exact foldl_failSegment_fades hk _ h

theorem releaseLease_fades (s : QueueState) (r : SegRef) :
    StateBy Fades s (s.updateSegment r Segment.releaseLease) := by
  refine ⟨.updateSegment Fades.refl fun x _ => ?_, rfl⟩
  unfold Segment.releaseLease
  split
  next hx => exact ⟨rfl, .inr (by rw [hx]; exact ⟨rfl, rfl, rfl⟩)⟩
  next => exact ⟨rfl, .inl rfl⟩

theorem onSegmentFailed_fades (hk : o.state.WellKeyed) (r : SegRef) (server : ServerId)
    (outcome : AttemptOutcome) :
    Holds (StateBy Fades o.state) o.log (o.onSegmentFailed w r server outcome) := by
  have hrel := releaseLease_fades o.state r
  have hlog := (Holds.start (.refl chains_fades o.state) : Holds (StateBy Fades o.state) o.log o).log
  simp only [onSegmentFailed]
  split
  · split
    · refine failSegment_fades hk ?_ r
      exact ⟨hrel, hlog⟩
    · refine failSegment_fades hk ?_ r
      exact ⟨hrel, hlog⟩
  · split
    · exact ⟨hrel, hlog⟩
    · exact ⟨hrel, hlog⟩

/-! ### Messages that leave the rows in place -/

section Commands

variable (hP : Editable P)
include hP

theorem tryTorrent_by (h : Holds P l o) (id : JobId) {f : Job → Job}
    (hid : ∀ j, (f j).id = j.id) (hfiles : ∀ j, (f j).files = j.files) :
    Holds P l (o.tryTorrent w id f) := by
  have hup := updateJob_by hP h id hid hfiles
  have hcmd : Holds P l ((o.updateJob id f).persistThenCommand w).2 := by
    unfold persistThenCommand
    split
    · exact hup
    · split
      · exact hup.saveSnapshotResult
      · exact hup
  simp only [tryTorrent]
  split
  · exact hcmd
  · exact ⟨h.state, hcmd.log⟩

theorem pause_by (h : Holds P l o) (id : JobId) :
    Holds P l (o.pause w id) := by
  unfold pause
  split
  · exact h
  · split
    · exact h
    · split
      · exact tryTorrent_by hP h id (fun _ => rfl) fun _ => rfl
      · exact updateJob_by hP h id (fun _ => rfl) fun _ => rfl

theorem resume_by (h : Holds P l o) (id : JobId) :
    Holds P l (o.resume w id) := by
  unfold resume
  split
  · exact h
  · split
    · exact h
    · split
      · exact h
      · split
        · have hup := updateJob_by hP h id (f := resumeTorrent w) (fun _ => rfl) fun _ => rfl
          simp only
          split
          · exact hup.saveSnapshotResult
          · exact ⟨h.state, hup.saveSnapshotResult.log⟩
        · exact updateJob_by hP h id (fun _ => rfl) fun _ => rfl

theorem settleDownloadLabels_by (h : Holds P l o) :
    Holds P l (o.settleDownloadLabels w) := by
  unfold settleDownloadLabels
  exact List.foldlRecOn (motive := Holds P l) _ _ h fun o ho id _ =>
    updateJob_by hP ho id (fun _ => rfl) fun _ => rfl

omit hP in
theorem retryFinalize_by (h : Holds P l o) : Holds P l (o.retryFinalize w) := by
  unfold retryFinalize
  refine List.foldlRecOn (motive := Holds P l) _ _ ⟨h.state, h.log⟩ fun o ho p _ => ?_
  split
  · exact ho
  · exact ho.sendFinalize p.1 p.2

theorem onTick_by (h : Holds P l o) : Holds P l (o.onTick w) := by
  have hlabels := settleDownloadLabels_by (w := w) hP h
  have hretry := retryFinalize_by (w := w) (o := { o.settleDownloadLabels w with
    diskLow := w.diskLow
    quotaReached := w.quotaReached
    blocked := fun s => ((o.settleDownloadLabels w).blocked s).filter (w.instant < ·) })
    ⟨hlabels.state, hlabels.log⟩
  simp only [onTick]
  split
  · exact hretry.saveSnapshot
  · exact hretry

theorem onWriterFinalized_by (h : Holds P l o) (job : JobId) (file : FileId)
    (ok hasPath : Bool) (crc : Option (BitVec 32)) :
    Holds P l (o.onWriterFinalized w job file ok hasPath crc) := by
  have hup := updateFile_by hP h.state job file (g := finalizedAs ok crc) (fun _ => rfl) fun _ => rfl
  simp only [onWriterFinalized]
  split
  · exact ⟨h.state, h.log⟩
  · refine checkJobComplete_by hP ?_ job
    split
    · unfold maybeLearnNameFrom
      split
      · exact ⟨hup, h.log⟩
      · simp only
        split
        · exact ⟨hup, h.log⟩
        · exact ⟨hup, h.log⟩
    · exact ⟨hup, h.log⟩

theorem onJobNameInspected_by (h : Holds P l o) (job : JobId) (name : Option Text) :
    Holds P l (o.onJobNameInspected w job name) := by
  simp only [onJobNameInspected]
  refine checkJobComplete_by hP ?_ job
  split
  next name =>
    refine ⟨?_, h.log⟩
    simp only [QueueState.adoptLearnedName]
    split
    · exact h.state
    · split
      · refine (updateJob_by hP h job (f := QueueState.renamed o.state.jobs name false false)
          (fun j => ?_) fun j => ?_).state
        · exact renamed_id ..
        · exact renameJob_files ..
      · exact h.state
  · exact ⟨h.state, h.log⟩

theorem failUrlFetch_by (h : Holds P l o) (id : JobId) :
    Holds P l (o.failUrlFetch w id) := by
  unfold failUrlFetch
  split
  · refine Holds.saveSnapshot ?_
    exact updateJob_by hP h id (fun _ => rfl) fun _ => rfl
  · exact h

theorem torrentFact_by (h : Holds P l o) (id : JobId) (status : JobStatus)
    (record : TorrentRecord) (name : Text) :
    Holds P l (o.torrentFact id status record name) := by
  refine updateJob_by hP h id (fun j => ?_) fun j => ?_
  · split
    · exact renameJob_id ..
    · rfl
  · split
    · exact renameJob_files ..
    · rfl

theorem setFilePaused_by (h : Holds P l o) (job : JobId) (file : FileId)
    (paused : Bool) : Holds P l (o.setFilePaused w job file paused) := by
  have hup := updateFile_by hP h.state job file (g := fun f => { f with paused := paused })
    (fun _ => rfl) fun _ => rfl
  simp only [setFilePaused]
  split_ifs
  · refine checkJobComplete_by hP (recomputeTotals_by hP ?_ job) job
    exact ⟨hup, h.log⟩
  · exact h

theorem quiescePayload_by (h : Holds P l o) (id : JobId) :
    Holds P l (o.quiescePayload w id) := by
  have hup := updateJob_by hP h id (f := fun j => { j with status := .paused }) (fun _ => rfl)
    fun _ => rfl
  unfold quiescePayload
  split
  · exact h
  · simp only
    split_ifs
    · exact h
    · exact Holds.saveSnapshot ⟨hup.state, hup.log⟩

theorem setPriority_by (h : Holds P l o) (id : JobId) (priority : Int) :
    Holds P l (o.setPriority w id priority) := by
  unfold setPriority
  split
  · exact h
  · split
    · exact tryTorrent_by hP h id (fun _ => rfl) fun _ => rfl
    · exact updateJob_by hP h id (fun _ => rfl) fun _ => rfl

theorem setCategory_by (h : Holds P l o) (id : JobId) (category : Option Text) :
    Holds P l (o.setCategory w id category) := by
  unfold setCategory
  split
  · refine Holds.saveSnapshot ?_
    exact updateJob_by hP h id (fun _ => rfl) fun _ => rfl
  · exact h

theorem setJobStatus_by (h : Holds P l o) (id : JobId) (status : JobStatus) :
    Holds P l (o.setJobStatus w id status) := by
  have hup := updateJob_by hP h id (f := fun j => { j with status := status }) (fun _ => rfl)
    fun _ => rfl
  unfold setJobStatus
  split
  · exact h
  · simp only
    split
    · exact hup.saveSnapshot
    · exact hup

theorem unpauseParBlocks_by (h : Holds P l o) (id : JobId)
    (picked : List (FileId × Nat)) : Holds P l (o.unpauseParBlocks id picked) := by
  have hjob : ∀ ids j, JobBy (· = ·) j (unpauseFiles ids j) := by
    intro ids j
    refine ⟨rfl, ?_⟩
    rw [unpauseFiles, List.forall₂_map_right_iff, List.forall₂_same]
    intro f _
    split
    · exact .of_segments_eq chains_eq.refl rfl rfl
    · exact .refl chains_eq.refl f
  have hup : ∀ ids, Holds P l ((o.updateJob id (unpauseFiles ids)).recomputeTotals id) :=
    fun ids => recomputeTotals_by hP (o := o.updateJob id (unpauseFiles ids))
      ⟨hP _ _ h.state ⟨.updateJob chains_eq.refl fun j _ => hjob ids j, rfl⟩, h.log⟩ id
  unfold unpauseParBlocks
  split
  · exact h
  · simp only
    split
    · exact h
    · exact ⟨(hup _).state, h.log⟩

end Commands

end Engine.Owner

end Nzbd
