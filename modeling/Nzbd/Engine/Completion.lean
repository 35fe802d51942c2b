import Nzbd.Engine.Finished

/-!
# What a completed job has

`checkJobComplete` is asked from many places: after a write, a failure, the end of a
writer, a pause or a deletion of a file, and at the start.  Whatever the state it is asked
in, a job it completes has all that it has not been told to leave out: a file that is not
paused is decided to its last segment, and what is on disk of it is in place, with no write
of the job known to have failed.

A pause is such an order, on any file and not only on recovery volumes: a paused file may
have segments out with a connection when its job completes, `not_completes_as_told`.
-/

namespace Nzbd.Engine

open Nzbd.State (Codec JournalRecord)

namespace Owner

variable {w : World} {o : Owner}

/-- This job has been completed in between, and is now this row. -/
def Completes (o o' : Owner) (id : JobId) (j' : Job) : Prop :=
  (∃ j, o.state.job id = some j ∧ j.status ≠ .completed) ∧
    o'.state.job id = some j' ∧ j'.status = .completed

/-- Nothing of the file is out, and what is on disk is in place. -/
structure Delivered (f : FileEntry) : Prop where
  decided : ∀ x ∈ f.segments, x.state.isTerminal = true ∧ x.state.isLeased = false
  placed : f.hasAnyDone = true → f.finalized = true

theorem delivered_of_settled {f : FileEntry} (h : fileSettled f = true) (hp : f.paused = false) :
    Delivered f := by
  simp only [fileSettled, hp, Bool.false_or, Bool.and_eq_true, Bool.or_eq_true,
    Bool.not_eq_true'] at h
  obtain ⟨hterm, hplaced⟩ := h
  refine ⟨fun x hx => ?_, fun hd => ?_⟩
  · have hx : x.state.isTerminal = true := List.all_eq_true.mp hterm x hx
    refine ⟨hx, ?_⟩
    cases hs : x.state with
    | leased server => rw [hs] at hx; cases hx
    | _ => rfl
  · rcases hplaced with hnone | hfin
    · rw [hd] at hnone
      cases hnone
    · exact hfin

theorem endStatus_completed {j : Job} (h : o.endStatus j = .completed) :
    openPostStage j = none ∧ j.id ∉ o.writeFailures ∧ unhealthy j.totals = false := by
  unfold endStatus finalStatus at h
  split at h
  · nomatch h
  next hstage =>
    split at h
    · nomatch h
    next hwrites =>
      split at h
      · nomatch h
      next hhealth => exact ⟨hstage, hwrites, by simpa using hhealth⟩

theorem checkJobComplete_cases (o : Owner) (id : JobId) :
    o.checkJobComplete w id = o ∨ ∃ j, o.state.job id = some j ∧ id ∉ o.delegated ∧
      o.pendingNameInspections id = 0 ∧ inDownload j.status = true ∧ jobComplete j = true ∧
      (o.checkJobComplete w id).state =
        o.state.updateJob id fun k => { k with status := o.endStatus j } := by
  unfold checkJobComplete
  split
  · exact .inl rfl
  next hlocal =>
    split
    · exact .inl rfl
    next j hj =>
      split
      next hcomplete =>
        have hcalm := not_or.mp hlocal
        refine .inr ⟨j, hj, hcalm.1, by omega, hcomplete.1, hcomplete.2, ?_⟩
        rw [saveSnapshot_state]
        rfl
      next => exact .inl rfl

/-- **Completion is honest**, in whatever state it is asked for: the job is the one asked
about, it downloads here, no write of it is known to have failed, its files are those it
had, and every one of them that is not paused has been delivered. -/
theorem completes_honestly (w : World) (o : Owner) (id k : JobId) (j' : Job)
    (h : Completes o (o.checkJobComplete w id) k j') :
    k = id ∧ k ∉ o.delegated ∧ o.pendingNameInspections k = 0 ∧ k ∉ o.writeFailures ∧
      (∃ j, o.state.job k = some j ∧ j.files = j'.files ∧ inDownload j.status = true) ∧
      j'.files ≠ [] ∧ ∀ f ∈ j'.files, f.paused = false → Delivered f := by
  obtain ⟨⟨j, hj, hbefore⟩, hj', hafter⟩ := h
  rcases checkJobComplete_cases (w := w) o id with hsame | ⟨i, hi, hlocal, hnames, hdown, hcomplete, hstate⟩
  · -- nothing has happened
    rw [hsame, hj] at hj'
    exact absurd (Option.some.inj hj' ▸ hafter) hbefore
  · rw [hstate] at hj'
    by_cases hk : k = id
    · subst hk
      rw [job_updateJob_self _ (f := fun j => { j with status := o.endStatus i }) fun _ => rfl, hj,
        Option.map_some] at hj'
      obtain rfl : i = j := Option.some.inj (hi.symm.trans hj)
      obtain rfl := Option.some.inj hj'
      have hid : i.id = k := job_find hi
      obtain ⟨-, hwrites, -⟩ := endStatus_completed hafter
      simp only [jobComplete, Bool.and_eq_true, decide_eq_true_eq] at hcomplete
      refine ⟨rfl, hlocal, hnames, hid ▸ hwrites, ⟨i, hi, rfl, hdown⟩, hcomplete.1, ?_⟩
      exact fun f hf hp => delivered_of_settled (List.all_eq_true.mp hcomplete.2 f hf) hp
    · rw [job_updateJob_ne _ (f := fun j => { j with status := o.endStatus i }) hk fun _ => rfl, hj]
        at hj'
      exact absurd (Option.some.inj hj' ▸ hafter) hbefore

/-- The same with nothing but recovery volumes left out. -/
def CompletesAsTold (o o' : Owner) : Prop :=
  ∀ k j', Completes o o' k j' →
    (∀ f ∈ j'.files, ¬ (f.paused = true ∧ f.isPar2 = true) → f.isTerminal = true) ∧
      (∀ f ∈ j'.files, ∀ x ∈ f.segments, x.state.isLeased = false) ∧
      ∀ f ∈ j'.files, f.hasAnyDone = true → f.finalized = true

end Owner

namespace Node

def twoNzb : ParsedNzb where
  title := none
  category := none
  files := [
    ⟨text "a.bin", none, none, [], [⟨text "a@b", 1, 100⟩], first_sorted⟩,
    ⟨text "b.bin", none, none, [], [⟨text "c@d", 1, 100⟩], second_sorted⟩]

/-- Both articles are out, and the second file is paused; the first one is written. -/
def halfPausedNode : Node :=
  ((((started calmWorld (dayConfig false)).told (.addParsed (text "two") twoNzb none 0 false [])).told
    (.workRequest 1 2)).told (.setFilePaused 1 2 true)).told (.segmentWritten ⟨1, 1, 1, 0, 90, 0, 90⟩)

def rows (n : Node) : Option (List (JobId × JobStatus × List (List SegmentState))) :=
  n.owner.map fun o => o.state.jobs.map fun j =>
    (j.id, j.status, j.files.map fun f => f.segments.map (·.state))

theorem halfPausedNode_reached :
    Reached State.canonicalCodec id (fun _ _ => True) halfPausedNode ∧
      halfPausedNode.owner.isSome = true := by
  have hstarted : Reached State.canonicalCodec id (fun _ _ => True)
      (started calmWorld (dayConfig false)) := started_reached _ _ trivial
  have hadded := told_reached hstarted (started_running ..)
    (.addParsed (text "two") twoNzb none 0 false []) trivial
  have hleased := told_reached hadded.1 hadded.2 (.workRequest 1 2) trivial
  have hpaused := told_reached hleased.1 hleased.2 (.setFilePaused 1 2 true) trivial
  exact told_reached hpaused.1 hpaused.2 _ trivial

/-- The message that the file is in place ends in the question whether the job is
complete. -/
theorem writerFinalized_asks {w : World} {o : Owner} {job : JobId} {file : FileId}
    (h : (o.file job file).isSome = true) : ∃ o₁ : Owner,
      o₁.state = o.state.updateFile job file (Owner.finalizedAs true none) ∧
        o.step id w (.writerFinalized job file true false none) = o₁.checkJobComplete w job := by
  obtain ⟨f, hf⟩ := Option.isSome_iff_exists.mp h
  refine ⟨{ o with
    state := o.state.updateFile job file (Owner.finalizedAs true none)
    writers := o.writers.filter (· ≠ file)
    finalizeSent := o.finalizeSent.filter (· ≠ file)
    fileSizes := Function.update o.fileSizes file none }, rfl, ?_⟩
  simp only [Owner.step, Owner.onWriterFinalized]
  have hfile : Owner.file { o with
      writers := o.writers.filter (· ≠ file)
      finalizeSent := o.finalizeSent.filter (· ≠ file)
      fileSizes := Function.update o.fileSizes file none } job file = some f := hf
  rw [hfile]
  rfl

theorem completes_of_rows {n : Node} {o : Owner} {segs : List (List SegmentState)}
    (ho : n.owner = some o) (hfile : (n.owner.bind fun o => o.file 1 1).isSome = true)
    (hbefore : n.rows = some [(1, .downloading, segs)])
    (hafter : (n.told (.writerFinalized 1 1 true false none)).rows = some [(1, .completed, segs)]) :
    ∃ o₁ j', o.step id savingWorld (.writerFinalized 1 1 true false none) =
        o₁.checkJobComplete savingWorld 1 ∧
      Owner.Completes o₁ (o₁.checkJobComplete savingWorld 1) 1 j' ∧
      (j'.files.map fun f => f.segments.map (·.state)) = segs := by
  rw [ho, Option.bind_some] at hfile
  obtain ⟨o₁, hstate, hasks⟩ := writerFinalized_asks (w := savingWorld) hfile
  have howner : (n.told (.writerFinalized 1 1 true false none)).owner =
      some { o.step id savingWorld (.writerFinalized 1 1 true false none) with log := [] } := by
    rw [told, after, Node.perform, ho]
    rfl
  rw [rows, ho, Option.map_some] at hbefore
  rw [rows, howner, Option.map_some] at hafter
  obtain ⟨j, hjobs, hj⟩ := List.map_eq_singleton_iff.mp (Option.some.inj hbefore)
  obtain ⟨j', hjobs', hj'⟩ := List.map_eq_singleton_iff.mp (Option.some.inj hafter)
  obtain ⟨hid, hstatus, -⟩ : j.id = 1 ∧ j.status = .downloading ∧ _ := by simpa using hj
  obtain ⟨hid', hstatus', hsegs⟩ : j'.id = 1 ∧ j'.status = .completed ∧
      (j'.files.map fun f => f.segments.map (·.state)) = segs := by
    simpa using hj'
  have hfind : o.state.job 1 = some j := by simp [QueueState.job, hjobs, hid]
  refine ⟨o₁, j', hasks, ⟨⟨j.updateFile 1 (Owner.finalizedAs true none), ?_, ?_⟩, ?_, hstatus'⟩, hsegs⟩
  · rw [hstate, job_updateFile_self, hfind]
    rfl
  · show j.status ≠ _
    rw [hstatus]
    decide
  · rw [← hasks]
    simp only at hjobs'
    simp [QueueState.job, hjobs', hid']

/-- A job with one file, in place now. -/
theorem completes_honestly_one : ∃ (o : Owner) (j' : Job),
    Owner.Completes o (o.checkJobComplete savingWorld 1) 1 j' ∧ 1 ∉ o.writeFailures ∧
      ∀ f ∈ j'.files, f.paused = false → Owner.Delivered f := by
  have hbefore : (leasedNode.told (.segmentWritten ⟨1, 1, 1, 0, 90, 0, 90⟩)).rows =
      some [(1, .downloading, [[.done 0 90 0]])] := by decide +kernel
  have hafter : ((leasedNode.told (.segmentWritten ⟨1, 1, 1, 0, 90, 0, 90⟩)).told
      (.writerFinalized 1 1 true false none)).rows =
      some [(1, .completed, [[.done 0 90 0]])] := by decide +kernel
  have hfile : ((leasedNode.told (.segmentWritten ⟨1, 1, 1, 0, 90, 0, 90⟩)).owner.bind
      fun o => o.file 1 1).isSome = true := by decide +kernel
  obtain ⟨hleased, hrun⟩ : Reached State.canonicalCodec id (fun _ _ => True) leasedNode ∧ _ :=
    leasedNode_reached trivial trivial fun _ => trivial
  have hwritten := told_reached hleased hrun (.segmentWritten ⟨1, 1, 1, 0, 90, 0, 90⟩) trivial
  obtain ⟨o, ho⟩ := Option.isSome_iff_exists.mp hwritten.2
  obtain ⟨o₁, j', -, hcompletes, -⟩ := completes_of_rows ho hfile hbefore hafter
  obtain ⟨-, -, -, hwrites, -, -, hfiles⟩ := Owner.completes_honestly savingWorld o₁ 1 1 j' hcompletes
  exact ⟨o₁, j', hcompletes, hwrites, hfiles⟩

/-- The job completes while the article of its paused file is out. -/
theorem not_completes_as_told : ¬ ∀ (n : Node) (o o₁ : Owner) (w : World) (m : Msg) (job : JobId),
    Reached State.canonicalCodec id (fun _ _ => True) n → n.owner = some o →
      o.step id w m = o₁.checkJobComplete w job →
        o₁.CompletesAsTold (o₁.checkJobComplete w job) := by
  intro h
  have hbefore : halfPausedNode.rows =
      some [(1, .downloading, [[.done 0 90 0], [.leased 1]])] := by decide +kernel
  have hafter : (halfPausedNode.told (.writerFinalized 1 1 true false none)).rows =
      some [(1, .completed, [[.done 0 90 0], [.leased 1]])] := by decide +kernel
  have hfile : (halfPausedNode.owner.bind fun o => o.file 1 1).isSome = true := by decide +kernel
  obtain ⟨hreached, hrun⟩ := halfPausedNode_reached
  obtain ⟨o, ho⟩ := Option.isSome_iff_exists.mp hrun
  obtain ⟨o₁, j', hasks, hcompletes, hsegs⟩ := completes_of_rows ho hfile hbefore hafter
  have htold := h _ o o₁ savingWorld _ 1 hreached ho hasks
  have hmem : [SegmentState.leased 1] ∈ j'.files.map fun f => f.segments.map (·.state) := by
    rw [hsegs]
    simp
  obtain ⟨f, hf, hfs⟩ := List.mem_map.mp hmem
  obtain ⟨x, hx, hxs⟩ := List.map_eq_singleton_iff.mp hfs
  have hidle := (htold 1 j' hcompletes).2.1 f hf x (by simp [hx])
  rw [hxs] at hidle
  nomatch hidle

end Node

end Nzbd.Engine
