import Nzbd.Engine.Completion

/-!
# What happens to a segment that is out

A segment that is out with a connection stays out or is decided, whatever the owner is
told, unless its own connection reports a failure or rows are brought in over it.  `Stays`
says so of one pair of coordinates; `step_stays` goes through the messages.

Rows are brought in by an NZB, by jobs that are taken over, and by a queue that is adopted.
They are `Clear` of what is out if none of their undecided segments is.
-/

namespace Nzbd

open List

open Nzbd.State (JournalRecord)

/-- The state stays, or the segment is decided. -/
def Settles (a b : SegmentState) : Prop := b = a ∨ b.isTerminal = true

theorem chains_settles : Chains Settles where
  refl := fun _ => .inl rfl
  trans := by
    rintro a b c (rfl | hb) (rfl | hc)
    · exact .inl rfl
    · exact .inr hc
    · exact .inr hb
    · exact .inr hc

/-- What the queue has under these coordinates is decided or was there before. -/
def Stays (s t : QueueState) (r : SegRef) : Prop :=
  ∀ y, t.Has r y → y.state.isTerminal = true ∨ ∃ x, s.Has r x ∧ x.state = y.state

namespace Stays

variable {s t u : QueueState} {r : SegRef}

theorem refl (s : QueueState) (r : SegRef) : Stays s s r := fun y hy => .inr ⟨y, hy, rfl⟩

theorem trans (h₁ : Stays s t r) (h₂ : Stays t u r) : Stays s u r := by
  intro z hz
  rcases h₂ z hz with hterm | ⟨y, hy, hyz⟩
  · exact .inl hterm
  · rcases h₁ y hy with hterm | ⟨x, hx, hxy⟩
    · exact .inl (hyz ▸ hterm)
    · exact .inr ⟨x, hx, hxy.trans hyz⟩

theorem of_by (h : StateBy Settles s t) (r : SegRef) : Stays s t r := by
  intro y hy
  obtain ⟨x, hx, hxy | hterm⟩ := h.jobs.has_right hy
  · exact .inr ⟨x, hx, hxy.symm⟩
  · exact .inl hterm

theorem of_edit (h : StateBy (· = ·) s t) (r : SegRef) : Stays s t r :=
  of_by (h.mono fun _ _ hab => .inl hab.symm) r

theorem of_subset (h : t.jobs ⊆ s.jobs) (r : SegRef) : Stays s t r :=
  fun y hy => .inr ⟨y, hy.of_subset h, rfl⟩

theorem append {j : Job} (ht : t.jobs = s.jobs ++ [j])
    (hj : ∀ f ∈ j.files, ∀ x ∈ f.segments, r = ⟨j.id, f.id, x.number⟩ → x.state.isTerminal = true) :
    Stays s t r := by
  rintro y ⟨k, hk, f, hf, hy, hr⟩
  rw [ht] at hk
  rcases mem_append.mp hk with hk | hk
  · exact .inr ⟨y, ⟨k, hk, f, hf, hy, hr⟩, rfl⟩
  · obtain rfl := mem_singleton.mp hk
    exact .inl (hj f hf y hy hr)

end Stays

namespace Engine

namespace Owner

variable {w : World} {lower : Text → Text} {l : List DiskWrite} {o : Owner} {s : QueueState}

/-! ### Failures decide -/

theorem setFailed_settles (h : Holds (StateBy Settles s) l o) (r : SegRef) :
    Holds (StateBy Settles s) l (o.setSegment r .failed) :=
  setSegment_by chains_settles h r fun _ _ => .inr rfl

theorem abortFile_settles (h : Holds (StateBy Settles s) l o) (job : JobId) (p : FileId × List Nat) :
    Holds (StateBy Settles s) l (o.abortFile w job p) := by
  have hfold : Holds (StateBy Settles s) l (p.2.foldl (fun o n =>
      (o.setSegment ⟨job, p.1, n⟩ .failed).dropAttempt ⟨job, p.1, n⟩) o) := by
    refine foldlRecOn (motive := Holds (StateBy Settles s) l) _ _ h fun o ho n _ => ?_
    have hset := setFailed_settles ho ⟨job, p.1, n⟩
    exact ⟨hset.state, hset.log⟩
  have hE : Editable (StateBy Settles s) := editable_by chains_settles
  exact afterFileChange_by hE (recomputeTotals_by hE hfold job) job p.1

theorem maybeAbortUnhealthy_settles (h : Holds (StateBy Settles s) l o) (id : JobId) :
    Holds (StateBy Settles s) l (o.maybeAbortUnhealthy w id) := by
  unfold maybeAbortUnhealthy
  split
  · exact h
  · split
    · exact h
    · split
      · exact foldlRecOn (motive := Holds (StateBy Settles s) l) _ _ h fun o ho p _ =>
          abortFile_settles ho id p
      · exact h

theorem failSegment_settles (h : Holds (StateBy Settles s) l o) (r : SegRef) :
    Holds (StateBy Settles s) l (o.failSegment w r) := by
  have hE : Editable (StateBy Settles s) := editable_by chains_settles
  unfold failSegment
  split
  · exact h
  · split
    · exact h
    · have hset := setFailed_settles h r
      have hdrop : Holds (StateBy Settles s) l ((o.setSegment r .failed).dropAttempt r) :=
        ⟨hset.state, hset.log⟩
      exact maybeAbortUnhealthy_settles
        (afterFileChange_by hE (recomputeTotals_by hE hdrop r.job) r.job r.file) r.job

theorem foldl_failSegment_settles (h : Holds (StateBy Settles s) l o) (rs : List SegRef) :
    Holds (StateBy Settles s) l (rs.foldl (fun o r => o.failSegment w r) o) :=
  List.foldlRecOn (motive := Holds (StateBy Settles s) l) _ _ h fun _ ho r _ =>
    failSegment_settles ho r

theorem failWholeFile_settles (h : Holds (StateBy Settles s) l o) (job : JobId) (file : FileId) :
    Holds (StateBy Settles s) l (o.failWholeFile w job file) := by
  unfold failWholeFile
  split
  · exact h
  · exact foldl_failSegment_settles h _

theorem failExhausted_settles (o : Owner) (server : ServerId) :
    StateBy Settles o.state (o.failExhausted w server).state := by
  have hstart : Holds (StateBy Settles o.state) o.log
      { o with attempts := (o.nextLease w server).attempts } :=
    ⟨.refl chains_settles _, fun _ he => .inl he⟩
  exact (foldl_failSegment_settles hstart _).state

theorem onSegmentWritten_settles (o : Owner) (r : JournalRecord) :
    StateBy Settles o.state (o.onSegmentWritten w r).state := by
  refine (onSegmentWritten_holds (w := w) (editable_by chains_settles) r (.refl chains_settles _)
    fun x hx _ => ⟨.updateSegment chains_settles.refl fun y _ => ⟨rfl, .inr rfl⟩, rfl⟩).state

theorem onSegmentFailed_stays (hk : o.state.WellKeyed) {r r' : SegRef} (hne : r' ≠ r)
    (server : ServerId) (outcome : AttemptOutcome) :
    Stays o.state (o.onSegmentFailed w r server outcome).state r' := by
  have hrelease : Stays o.state (o.state.updateSegment r Segment.releaseLease) r' := by
    intro y hy
    have hk' := (releaseLease_fades o.state r).wellKeyed hk
    have hseg := hk'.has_iff.mp hy
    rw [segment_updateSegment_ne _ hne releaseLease_number] at hseg
    exact .inr ⟨y, QueueState.has_of_segment hseg, rfl⟩
  have hrest : ∀ o' : Owner, o'.state = o.state.updateSegment r Segment.releaseLease →
      Stays o.state (o'.failSegment w r).state r' := by
    intro o' ho'
    have hfail := (failSegment_settles (w := w) (Holds.start (.refl chains_settles o'.state)) r).state
    rw [ho'] at hfail
    exact hrelease.trans (.of_by hfail r')
  simp only [onSegmentFailed]
  split
  · refine hrest _ ?_
    split <;> rfl
  · split
    · exact hrelease
    · exact hrelease

/-! ### Journals -/

theorem foldJobJournals_settles (o : Owner) (id : JobId) (records : List JournalRecord) :
    StateBy Settles o.state (o.foldJobJournals w id records).state := by
  have hE : Editable (StateBy Settles o.state) := editable_by chains_settles
  have hfold : Holds (StateBy Settles o.state) o.log
      ((records.filter (·.job = id)).foldl foldRecord (o, [])).1 := by
    refine foldlRecOn
      (motive := fun p : Owner × List FileId => Holds (StateBy Settles o.state) o.log p.1) _ _
      (.start (.refl chains_settles _)) fun p hp r _ => ?_
    simp only [foldRecord]
    split
    · exact ⟨hp.state, hp.log⟩
    · split
      · exact ⟨hp.state, hp.log⟩
      · have hsize : Holds (StateBy Settles o.state) o.log { p.1 with
            fileSizes := recordSize p.1.fileSizes r } := ⟨hp.state, hp.log⟩
        have hset : Holds (StateBy Settles o.state) o.log (setSegment { p.1 with
            fileSizes := recordSize p.1.fileSizes r } r.segRef (.done r.offset r.len r.crc32)) :=
          setSegment_by chains_settles hsize r.segRef fun _ _ => .inr rfl
        exact ⟨hset.state, hset.log⟩
  simp only [foldJobJournals]
  split
  · exact hfold.state
  · refine (foldlRecOn (motive := Holds (StateBy Settles o.state) o.log) _ _
      (recomputeTotals_by hE hfold id) fun o' ho' f _ => ?_).state
    exact afterFileChange_by hE ho' id f

theorem finishAdoption_settles (o : Owner) (records : List JournalRecord) :
    StateBy Settles o.state (o.finishAdoption w records).state := by
  have hE : Editable (StateBy Settles o.state) := editable_by chains_settles
  have hfold : StateBy Settles o.state ((o.state.jobs.map (·.id)).foldl
      (fun o id => o.foldJobJournals w id records) o).state :=
    foldlRecOn (motive := fun o' : Owner => StateBy Settles o.state o'.state) _ _
      (.refl chains_settles _) fun o' ho' id _ =>
        ho'.trans chains_settles (foldJobJournals_settles o' id records)
  simp only [finishAdoption]
  generalize (o.state.jobs.map (·.id)).foldl (fun o id => o.foldJobJournals w id records) o = q at hfold
  have htotals : Holds (StateBy Settles o.state) q.log
      { q with state := q.state.recomputeAllTotals } :=
    ⟨hE _ _ hfold (recomputeAllTotals_by _), fun _ he => .inl he⟩
  exact (startupPass_by hE htotals).saveSnapshot.state

end Owner

/-! ### Rows that are brought in -/

def Clear (out : List SegRef) (jobs : List Job) : Prop :=
  ∀ j ∈ jobs, ∀ f ∈ j.files, ∀ x ∈ f.segments, (⟨j.id, f.id, x.number⟩ : SegRef) ∈ out →
    x.state.isTerminal = true

/-- What a message brings into the queue is clear of what is out. -/
def Msg.Clear (lower : Text → Text) (w : World) (o : Owner) (out : List SegRef) : Msg → Prop
  | .addParsed .. => ∀ r ∈ out, r.job ≠ succU32 o.state.nextJobId
  | .completeUrlFetch job parsed => ∀ r ∈ out, r.job = job → r.file ∉ newFileIds lower o parsed
  | .importJob job _ => Engine.Clear out [job]
  | .importJobIfPresent job => Engine.Clear out [job]
  | .adoptAuthority (some (some doc)) _ => Engine.Clear out <|
      (QueueState.fromDoc w.nowUnix doc).jobs.filter fun j => o.state.jobs.all (·.id ≠ j.id)
  | .adoptReplicatedAuthority jobs => Engine.Clear out jobs
  | _ => True

namespace Owner

variable {w : World} {lower : Text → Text} {o : Owner} {s : QueueState} {r : SegRef}

theorem editable_stays : Editable fun t => Stays s t r :=
  fun _ _ h htu => h.trans (.of_edit htu r)

theorem addParsed_stays (name : Text) (parsed : ParsedNzb) (category : Option Text) (priority : Int)
    (paused : Bool) (params : List (Text × Text)) (hr : r.job ≠ succU32 o.state.nextJobId) :
    Stays o.state (o.addParsed w lower name parsed category priority paused params).state r := by
  have hplaced : Stays o.state (o.state.admitNzb lower w.nowUnix name parsed category priority
      o.tuning.pauseExtraPars) r := by
    refine .append rfl fun f _ x _ heq => ?_
    rw [heq] at hr
    exact absurd rfl hr
  simp only [addParsed]
  generalize o.state.admitNzb lower w.nowUnix name parsed category priority
    o.tuning.pauseExtraPars = t at hplaced ⊢
  have hdress := hplaced.trans (.of_edit (edit_by t t.nextJobId (f := dressJob paused params)
    (fun _ => rfl) fun _ => rfl) r)
  have hname := hdress.trans (.of_edit (nameFromRequestor_by _ t.nextJobId true) r)
  have hnew := hname.trans (.of_edit (edit_by _ t.nextJobId (f := avoidDir w t.nextJobId)
    (fun j => (avoidDir_edit _ j).1) fun j => (avoidDir_edit _ j).2) r)
  split
  · exact hnew.trans (.of_subset filter_sublist.subset r)
  next o' ho' =>
    obtain ⟨jobs, rfl⟩ := ensureAllocation_eq ho'
    rw [saveSnapshot_state]
    exact hnew

theorem addUrl_stays (o : Owner) (name url : Text) (category : Option Text) (priority : Int)
    (paused : Bool) (params : List (Text × Text)) (r : SegRef) :
    Stays o.state (o.addUrl w name url category priority paused params).state r := by
  unfold addUrl
  split
  · split
    · exact .refl _ r
    · rw [saveSnapshot_state]
      refine .of_edit ?_ r
      exact edit_by _ _ (fun _ => rfl) fun _ => rfl
  · have hplaced : Stays o.state (o.state.admitUrl w.nowUnix name url category priority) r :=
      .append rfl fun f hf => nomatch hf
    simp only [saveSnapshot_state]
    refine (hplaced.trans (.of_edit ?_ r)).trans (.of_edit (nameFromRequestor_by ..) r)
    exact edit_by _ _ (fun _ => rfl) fun _ => rfl

theorem completeUrlFetch_stays (id : JobId) (parsed : ParsedNzb)
    (hr : r.job = id → r.file ∉ newFileIds lower o parsed) :
    Stays o.state (o.completeUrlFetch w lower id parsed).state r := by
  have hstate : Stays o.state
      (o.state.completeUrlFetch lower id parsed o.tuning.pauseExtraPars) r := by
    simp only [QueueState.completeUrlFetch]
    split
    · exact .refl _ r
    · split
      · exact .refl _ r
      · rintro y ⟨k, hk, f, hf, hy, hcoords⟩
        rcases mem_modifyFirst hk with hk | ⟨j, hj, rfl⟩
        · exact .inr ⟨y, ⟨k, hk, f, hf, hy, hcoords⟩, rfl⟩
        · -- a file of the NZB has an id that is not out
          have hjid : j.id = id := by simpa using find?_some hj
          have hnew : f ∈ (buildFiles lower o.tuning.pauseExtraPars o.state.nextFileId []
              parsed.files).1 := hf
          have hjob := congrArg SegRef.job hcoords
          have hfile := congrArg SegRef.file hcoords
          dsimp only at hjob hfile
          rw [fillFetched_id] at hjob
          refine absurd ?_ (hr (hjob.trans hjid))
          rw [hfile, newFileIds]
          exact mem_map_of_mem hnew
  simp only [completeUrlFetch]
  split
  · rw [saveSnapshot_state]
    refine (hstate.trans (.of_edit (edit_by _ id (f := pauseFetched) (fun j => ?_) fun j => ?_) r)).trans
      (.of_edit (nameFromRequestor_by ..) r)
    · unfold pauseFetched; split <;> rfl
    · unfold pauseFetched; split <;> rfl
  · exact hstate

theorem commitTorrentAdmission_stays (o : Owner) (id : JobId) (commit : TorrentAdmissionCommit)
    (r : SegRef) : Stays o.state (o.commitTorrentAdmission w id commit).state r := by
  have hstate : Stays o.state (o.state.commitTorrentAdmission w.nowUnix id commit) r := by
    unfold QueueState.commitTorrentAdmission
    split
    · exact .refl _ r
    · split
      · rintro y ⟨k, hk, f, hf, hy, rfl⟩
        rcases mem_modifyFirst hk with hk | ⟨j, hj, rfl⟩
        · exact .inr ⟨y, ⟨k, hk, f, hf, hy, rfl⟩, rfl⟩
        · exact .inr ⟨y, ⟨j, mem_of_find?_eq_some hj, f, hf, hy, rfl⟩, rfl⟩
      · exact .append (s := o.state) rfl fun f hf => nomatch hf
  simp only [commitTorrentAdmission]
  split
  · rw [saveSnapshot_state]
    exact hstate
  · exact hstate

theorem cancelTorrentAdmission_stays (o : Owner) (id : JobId) (r : SegRef) :
    Stays o.state (o.cancelTorrentAdmission w id).state r := by
  unfold cancelTorrentAdmission
  split
  · simp only
    split
    · rw [saveSnapshotResult_state]
      exact .of_subset (List.Subset.refl _) r
    · exact .refl _ r
  · exact .refl _ r

theorem removeJobSilent_stays (o : Owner) (id : JobId) (r : SegRef) :
    Stays o.state (o.removeJobSilent id).state r := by
  rw [removeJobSilent_state]
  exact .of_subset eraseP_sublist.subset r

theorem torrentRemoved_stays (o : Owner) (id : JobId) (r : SegRef) :
    Stays o.state (o.torrentRemoved w id).state r := by
  unfold torrentRemoved
  split
  · exact .refl _ r
  · split
    · rw [saveSnapshot_state]
      exact .of_subset eraseP_sublist.subset r
    · exact .refl _ r

theorem delete_stays (o : Owner) (id : JobId) (deleteFiles : Bool) (r : SegRef) :
    Stays o.state (o.delete w id deleteFiles).state r := by
  unfold delete
  split
  · exact .refl _ r
  · split
    · refine (tryTorrent_by (P := fun t => Stays o.state t r) editable_stays
        (.start (.refl _ r)) id ?_ ?_).state
      · exact fun _ => rfl
      · exact fun _ => rfl
    · unfold deleteJob
      split
      · exact .refl _ r
      · split
        · exact .refl _ r
        · split
          · rw [saveSnapshot_state]
            exact .of_subset eraseP_sublist.subset r
          · exact .refl _ r

theorem deleteFile_stays (o : Owner) (job : JobId) (file : FileId) (r : SegRef) :
    Stays o.state (o.deleteFile w job file).state r := by
  unfold deleteFile
  split
  · simp only
    have hthin : Stays o.state
        (o.updateJob job fun j => { j with files := j.files.filter (·.id ≠ file) }).state r := by
      rintro y ⟨k, hk, f, hf, hy, rfl⟩
      rcases mem_modifyFirst hk with hk | ⟨j, hj, rfl⟩
      · exact .inr ⟨y, ⟨k, hk, f, hf, hy, rfl⟩, rfl⟩
      · exact .inr ⟨y, ⟨j, mem_of_find?_eq_some hj, f, (mem_filter.mp hf).1, hy, rfl⟩, rfl⟩
    have hcheck : ∀ q : Owner, Stays o.state q.state r →
        Stays o.state (q.checkJobComplete w job).state r := fun q hq =>
      (checkJobComplete_by (P := fun t => Stays o.state t r) editable_stays (.start hq) job).state
    refine hcheck _ ?_
    exact hthin.trans (.of_edit (edit_by _ job (f := recomputeJobTotals) (fun _ => rfl) fun _ => rfl) r)
  · exact .refl _ r

theorem retainJobs_stays (o : Owner) (keep : List JobId) (r : SegRef) :
    Stays o.state (o.retainJobs keep).state r := by
  refine foldlRecOn (motive := fun o' : Owner => Stays o.state o'.state r) _ _ ?_
    fun o' ho' id _ => ?_
  · exact .refl _ r
  · exact ho'.trans (removeJobSilent_stays o' id r)

variable {out : List SegRef}

theorem importJob_stays (job : Job) (records : List JournalRecord)
    (hr : r ∈ out) (hclear : Engine.Clear out [job]) :
    Stays o.state (o.importJob w job records).2.state r := by
  have hplace : Stays o.state
      ((o.forgetAllocation (normalizeJob job)).placeJob (normalizeJob job)).state r := by
    rw [placeJob_state, forgetAllocation_state]
    refine Stays.trans (t := o.state.eraseJob job.id)
      (.of_subset eraseP_sublist.subset r) (.append rfl fun f hf x hx heq => ?_)
    obtain ⟨g, hg, rfl⟩ := mem_map.mp hf
    obtain ⟨y, hy, rfl⟩ := mem_map.mp hx
    have hterm : y.state.isTerminal = true := by
      refine hclear job (mem_singleton_self _) g hg y hy ?_
      rw [← releaseLease_number y]
      exact heq ▸ hr
    unfold Segment.releaseLease
    split
    next hl => rw [hl] at hterm; nomatch hterm
    next => exact hterm
  simp only [importJob]
  split
  · rw [forgetAllocation_state]
    exact .refl _ r
  · rw [saveSnapshotResult_state]
    exact hplace.trans (.of_by (foldJobJournals_settles _ job.id records) r)

theorem importJobIfPresent_stays (job : Job)
    (hr : r ∈ out) (hclear : Engine.Clear out [job]) :
    Stays o.state (o.importJobIfPresent w job).state r := by
  have himport := importJob_stays (w := w) (o := o) job [] hr hclear
  unfold importJobIfPresent
  split
  · exact .refl _ r
  next previous hprev =>
    simp only
    split
    · exact himport
    · -- the old copy is back
      have hback : Stays (o.importJob w job []).2.state
          ((o.importJob w job []).2.removeJobSilent job.id).state r := removeJobSilent_stays _ _ r
      rintro y ⟨k, hkm, f, hf, hy, rfl⟩
      rcases mem_append.mp hkm with hkm | hkm
      · exact himport.trans hback y ⟨k, hkm, f, hf, hy, rfl⟩
      · obtain rfl := mem_singleton.mp hkm
        exact .inr ⟨y, ⟨k, mem_of_find?_eq_some hprev, f, hf, hy, rfl⟩, rfl⟩

theorem adoptAuthority_stays (loaded : Option (Option QueueSnapshotDoc))
    (records : List JournalRecord) (hr : r ∈ out)
    (hclear : Msg.Clear lower w o out (.adoptAuthority loaded records))
    (hfresh : Msg.Fresh lower w o (.adoptAuthority loaded records)) :
    Stays o.state (o.adoptAuthority w loaded records).state r := by
  unfold adoptAuthority
  split
  · exact .refl _ r
  · exact .of_by (finishAdoption_settles { o with persist := true } records) r
  next doc =>
    split
    · exact .refl _ r
    · refine Stays.trans (t := (o.adoptSnapshot (.fromDoc w.nowUnix doc)).state) ?_
        (.of_by (finishAdoption_settles _ records) r)
      rintro y ⟨j, hj, f, hf, hy, rfl⟩
      by_cases hnew : ∀ k ∈ o.state.jobs, k.id ≠ j.id
      · rcases mem_mergeJobs hj with hold | hmem
        · exact absurd rfl (hnew j hold)
        · refine .inl (hclear j (mem_filter.mpr ⟨hmem, ?_⟩) f hf y hy hr)
          simpa using hnew
      · push Not at hnew
        obtain ⟨k, hk, hid⟩ := hnew
        -- rows with one id are one row
        have hkey : (o.adoptSnapshot (.fromDoc w.nowUnix doc)).state.WellKeyed := hfresh
        have hjob := hkey.job_of_mem hj
        rw [← hid, hkey.job_of_mem (subset_mergeJobs _ _ hk)] at hjob
        obtain rfl := Option.some.inj hjob
        exact .inr ⟨y, ⟨k, hk, f, hf, hy, rfl⟩, rfl⟩

theorem adoptReplicatedAuthority_stays {jobs : List Job} (hr : r ∈ out)
    (hclear : Engine.Clear out jobs) :
    Stays o.state (o.adoptReplicatedAuthority w jobs).state r := by
  unfold adoptReplicatedAuthority
  rw [saveSnapshot_state]
  rintro y ⟨j, hj, f, hf, hy, rfl⟩
  obtain ⟨k, hk, rfl⟩ := mem_map.mp hj
  exact .inl (hclear k hk f hf y hy hr)

/-- **A segment that is out stays out or is decided**, unless its connection reports. -/
theorem step_stays {m : Msg} (hfresh : m.Fresh lower w o) (hclear : m.Clear lower w o out) (hr : r ∈ out)
    (hwork : ∀ server n, m ≠ .workRequest server n)
    (hfail : ∀ q server outcome, m ≠ .segmentFailed q server outcome) :
    Stays o.state (o.step lower w m).state r := by
  have hE : Editable fun t => Stays o.state t r := editable_stays
  have hself : Holds (fun t => Stays o.state t r) o.log o := .start (.refl _ r)
  cases m with
  | workRequest server n => exact absurd rfl (hwork server n)
  | segmentFailed q server outcome => exact absurd rfl (hfail q server outcome)
  | segmentWritten q => exact .of_by (onSegmentWritten_settles o q) r
  | connectFailed server => exact .refl _ r
  | writerFinalized job file ok hasPath crc =>
    exact (onWriterFinalized_by hE hself job file ok hasPath crc).state
  | writerError job file full =>
    refine .of_by (failWholeFile_settles (l := o.log) ?_ job file).state r
    exact ⟨.refl chains_settles _, fun _ he => .inl he⟩
  | outOfSpace => exact .refl _ r
  | jobNameInspected job name => exact (onJobNameInspected_by hE hself job name).state
  | tick => exact (onTick_by hE hself).state
  | addParsed name parsed category priority paused params =>
    exact addParsed_stays name parsed category priority paused params (hclear r hr)
  | addUrl name url category priority paused params =>
    exact addUrl_stays o name url category priority paused params r
  | completeUrlFetch job parsed => exact completeUrlFetch_stays job parsed (hclear r hr)
  | failUrlFetch job => exact (failUrlFetch_by hE hself job).state
  | reserveTorrentAdmission =>
    simp only [step, saveSnapshot_state]
    exact .of_subset (List.Subset.refl _) r
  | commitTorrentAdmission job commit => exact commitTorrentAdmission_stays o job commit r
  | cancelTorrentAdmission job => exact cancelTorrentAdmission_stays o job r
  | torrentFact job status record name => exact (torrentFact_by hE hself job status record name).state
  | torrentRemoved job => exact torrentRemoved_stays o job r
  | setFilePaused job file paused => exact (setFilePaused_by hE hself job file paused).state
  | deleteFile job file => exact deleteFile_stays o job file r
  | pause job => exact (pause_by hE hself job).state
  | resume job => exact (resume_by hE hself job).state
  | quiescePayload job => exact (quiescePayload_by hE hself job).state
  | delete job deleteFiles => exact delete_stays o job deleteFiles r
  | setPriority job priority => exact (setPriority_by hE hself job priority).state
  | setCategory job category => exact (setCategory_by hE hself job category).state
  | move job op => exact .of_subset (moveJob_perm o job op).subset r
  | pauseAll => exact .of_subset (List.Subset.refl _) r
  | resumeAll => exact .of_subset (List.Subset.refl _) r
  | setMaxActiveDownloads n =>
    refine (settleDownloadLabels_by (l := o.log) hE ?_).state
    exact ⟨.of_subset (List.Subset.refl _) r, hself.log⟩
  | setJobStatus job status => exact (setJobStatus_by hE hself job status).state
  | enterPostStage job stage at' prev =>
    refine .of_edit ?_ r
    exact edit_by _ job (fun _ => rfl) fun _ => rfl
  | closePostStage job at' ms =>
    refine .of_edit ?_ r
    exact edit_by _ job (fun _ => rfl) fun _ => rfl
  | unpauseParBlocks job picked => exact (unpauseParBlocks_by hE hself job picked).state
  | setDownloadEnabled enabled => exact .refl _ r
  | importJob job records => exact importJob_stays job records hr hclear
  | importJobIfPresent job => exact importJobIfPresent_stays job hr hclear
  | removeJobSilent job => exact removeJobSilent_stays o job r
  | setDelegated job delegated =>
    simp only [step, (setDelegated_state o job delegated).1]
    exact .refl _ r
  | foldJobJournals job records => exact .of_by (foldJobJournals_settles o job records) r
  | adoptAuthority loaded records => exact adoptAuthority_stays loaded records hr hclear hfresh
  | adoptReplicatedAuthority jobs => exact adoptReplicatedAuthority_stays hr hclear
  | retainJobs keep => exact retainJobs_stays o keep r

end Owner

end Engine

end Nzbd
