import Nzbd.Engine.Finalize

/-!
# Open files

Every message keeps the open files on the books, with a few conditions on what it
brings in (`Msg.Minded`): a writer reports for its own job, a job on its way out does not
come back, and a job that is taken over has no open file, unless the pass over what had
completed will find it.

The messages one by one, by `Keeps` where no file is an exception in between, and then all
of them, `Orderly.step`.
-/

namespace Nzbd.Engine

open List
open Nzbd.State (Codec JournalRecord)

namespace Owner

variable {w : World} {lower : Text → Text} {o o' : Owner} {E : List (JobId × FileId)}

/-! ### Jobs that come and go -/

theorem Keeps.of_jobs (hbooks : SameBooks o o')
    (h : ∀ j' ∈ o'.state.jobs, ∀ f' ∈ j'.files, isOpen f' = true →
      ∃ j ∈ o.state.jobs, ∃ f ∈ j.files, isOpen f = true ∧ j.id = j'.id ∧ f.id = f'.id ∧
        (j.id ∈ o.retiringWriters → isActive j.status = false → isActive j'.status = false)) :
    Keeps o o' := by
  intro j' hj' f' hf' ho'
  obtain ⟨j, hj, f, hf, ho, hjid, hfid, hs⟩ := h j' hj' f' hf' ho'
  exact ⟨j, hj, f, hf, ho, hjid, hfid, hbooks.tracks hjid hfid hs⟩

theorem Keeps.subset (hbooks : SameBooks o o') (h : o'.state.jobs ⊆ o.state.jobs) : Keeps o o' :=
  .of_jobs hbooks fun j hj f hf ho => ⟨j, h hj, f, hf, ho, rfl, rfl, fun _ hs => hs⟩

theorem Keeps.append (hbooks : SameBooks o o') {j : Job} (hjobs : o'.state.jobs = o.state.jobs ++ [j])
    (hj : ∀ f ∈ j.files, isOpen f = false) : Keeps o o' := by
  refine .of_jobs hbooks fun j' hj' f hf ho => ?_
  rw [hjobs] at hj'
  rcases mem_append.mp hj' with hj' | hj'
  · exact ⟨j', hj', f, hf, ho, rfl, rfl, fun _ hs => hs⟩
  · rw [mem_singleton.mp hj'] at hf
    rw [hj f hf] at ho
    cases ho

theorem isOpen_untried {f : FileEntry} (h : f.Untried) : isOpen f = false := by
  have hnone : f.hasAnyDone = false := by
    rw [FileEntry.hasAnyDone, any_eq_false]
    intro x hx
    simp [h.pending x hx, SegmentState.isDone]
  simp [isOpen, hnone]

theorem keeps_eraseJob (hk : o.state.WellKeyed) {job : Job} (hjob : job ∈ o.state.jobs) :
    Keeps o (o.eraseJob job) := by
  intro j hj f hf ho
  have hmem : j ∈ o.state.jobs := mem_of_mem_eraseP hj
  have hne : j.id ≠ job.id := key_ne_of_mem_eraseP hk.ids hj
  refine ⟨j, hmem, f, hf, ho, rfl, rfl, ?_⟩
  rintro (hsent | hpend | hret)
  · refine .inl (mem_filter.mpr ⟨hsent, ?_⟩)
    -- the file is of another job
    have hfile : f.id ∉ job.files.map (·.id) := by
      intro hfm
      obtain ⟨g, hg, hgid⟩ := mem_map.mp hfm
      exact hne (hk.job_eq_of_fileId hmem hjob hf hg hgid.symm)
    simpa using hfile
  · exact .inr (.inl (mem_filter.mpr ⟨hpend, by simpa using hne⟩))
  · exact .inr (.inr hret)

theorem keeps_removeJobSilent (hk : o.state.WellKeyed) (id : JobId) : Keeps o (o.removeJobSilent id) := by
  unfold removeJobSilent
  split
  · exact .refl o
  next job hjob => exact keeps_eraseJob hk (mem_of_find?_eq_some hjob)

theorem keeps_torrentRemoved (hk : o.state.WellKeyed) (id : JobId) :
    Keeps o (o.torrentRemoved w id) := by
  unfold torrentRemoved
  split
  · exact .refl o
  next job hjob =>
    split
    · exact (keeps_eraseJob hk (mem_of_find?_eq_some hjob)).trans (keeps_saveSnapshot _)
    · exact .refl o

theorem keeps_retainJobs (hk : o.state.WellKeyed) (keep : List JobId) : Keeps o (o.retainJobs keep) := by
  have hfold : ∀ (ids : List JobId) (o : Owner), o.state.WellKeyed →
      Keeps o (ids.foldl (fun o id => o.removeJobSilent id) o) := by
    intro ids
    induction ids with
    | nil => exact fun o _ => .refl o
    | cons id ids ih =>
      intro o hk
      exact (keeps_removeJobSilent hk id).trans (ih _ (removeJobSilent_rows hk id).state.keyed)
  have hstart : Keeps o { o with persist := false } := .beside rfl ⟨rfl, rfl, rfl⟩
  have hgone := hfold ((o.state.jobs.map (·.id)).filter (· ∉ keep)) { o with persist := false } hk
  exact (hstart.trans hgone).trans (.beside rfl ⟨rfl, rfl, rfl⟩)

/-! ### Names and admission -/

theorem renameJob_status (j : Job) (name : Text) (storageToo provisional : Bool) :
    (renameJob j name storageToo provisional).status = j.status := by
  unfold renameJob; split <;> rfl

theorem renamed_edit (jobs : List Job) (name : Text) (storageToo provisional : Bool) (j : Job) :
    (QueueState.renamed jobs name storageToo provisional j).files = j.files ∧
      (QueueState.renamed jobs name storageToo provisional j).status = j.status := by
  unfold QueueState.renamed
  simp only
  split
  · exact ⟨renameJob_files .., renameJob_status ..⟩
  · exact ⟨renameJob_files .., renameJob_status ..⟩

theorem keeps_setJobName (o : Owner) (id : JobId) (name : Text) (storageToo provisional : Bool) :
    Keeps o { o with state := o.state.setJobName id name storageToo provisional } :=
  .updateJob_same id (fun _ => renamed_id ..) (fun j => (renamed_edit _ _ _ _ j).1)
    fun j => (renamed_edit _ _ _ _ j).2

theorem keeps_nameFromRequestor (o : Owner) (id : JobId) (storageToo : Bool) :
    Keeps o { o with state := o.state.nameFromRequestor id storageToo } := by
  simp only [QueueState.nameFromRequestor]
  split
  · exact .refl o
  · split
    · exact .refl o
    · split
      · exact .refl o
      · exact keeps_setJobName o id _ _ _

theorem keeps_onJobNameInspected (o : Owner) (job : JobId) (name : Option Text) :
    Keeps o (o.onJobNameInspected w job name) := by
  simp only [onJobNameInspected]
  refine Keeps.trans ?_ (keeps_checkJobComplete _ job)
  split
  next name =>
    have hlearn : Keeps o { o with state := o.state.adoptLearnedName job name } := by
      simp only [QueueState.adoptLearnedName]
      split
      · exact .refl o
      · split
        · exact keeps_setJobName o job _ _ _
        · exact .refl o
    exact hlearn.trans (.beside rfl ⟨rfl, rfl, rfl⟩)
  · exact .beside rfl ⟨rfl, rfl, rfl⟩

theorem keeps_addParsed (o : Owner) (name : Text) (parsed : ParsedNzb) (category : Option Text)
    (priority : Int) (paused : Bool) (params : List (Text × Text)) :
    Keeps o (o.addParsed w lower name parsed category priority paused params) := by
  have hplaced : Keeps o { o with
      state := o.state.admitNzb lower w.nowUnix name parsed category priority
        o.tuning.pauseExtraPars } := by
    refine .append ⟨rfl, rfl, rfl⟩ rfl fun f hf => ?_
    exact isOpen_untried (buildFiles_untried lower _ parsed.files o.state.nextFileId [] f hf)
  simp only [addParsed]
  generalize o.state.admitNzb lower w.nowUnix name parsed category priority
    o.tuning.pauseExtraPars = s at hplaced ⊢
  have hdress : Keeps { o with state := s }
      { o with state := s.updateJob s.nextJobId (dressJob paused params) } := by
    refine .updateJob (o := { o with state := s }) _ (fun _ => rfl) (fun _ => rfl) fun j _ _ hs => ?_
    unfold dressJob
    dsimp only
    split
    · rfl
    · exact hs
  have hname := keeps_nameFromRequestor
    { o with state := s.updateJob s.nextJobId (dressJob paused params) } s.nextJobId true
  have havoid : ∀ t : QueueState, Keeps { o with state := t }
      { o with state := t.updateJob s.nextJobId (avoidDir w s.nextJobId) } := by
    intro t
    refine .updateJob_same (o := { o with state := t }) _ (fun j => (avoidDir_edit _ j).1)
      (fun j => (avoidDir_edit _ j).2) fun j => ?_
    unfold avoidDir
    split <;> rfl
  have hnew := ((hplaced.trans hdress).trans hname).trans (havoid _)
  split
  · exact hnew.trans (.subset ⟨rfl, rfl, rfl⟩ filter_sublist.subset)
  next o' ho' =>
    obtain ⟨jobs, rfl⟩ := ensureAllocation_eq ho'
    exact (hnew.trans (.beside rfl ⟨rfl, rfl, rfl⟩)).trans (keeps_saveSnapshot _)

theorem keeps_addUrl (o : Owner) (name url : Text) (category : Option Text) (priority : Int)
    (paused : Bool) (params : List (Text × Text)) :
    Keeps o (o.addUrl w name url category priority paused params) := by
  unfold addUrl
  split
  · split
    · exact .refl o
    next j _ _ =>
      have hup : Keeps o (o.updateJob j.id fun j =>
          { j with params := params.foldl QueueState.setParam j.params }) :=
        .updateJob_same j.id (fun _ => rfl) (fun _ => rfl) fun _ => rfl
      exact hup.trans (keeps_saveSnapshot _)
  · have hplaced : Keeps o { o with state := o.state.admitUrl w.nowUnix name url category priority } :=
      .append ⟨rfl, rfl, rfl⟩ rfl fun f hf => nomatch hf
    simp only
    generalize o.state.admitUrl w.nowUnix name url category priority = s at hplaced ⊢
    have hdress : ∀ g : Job → Job, (∀ j, (g j).id = j.id) → (∀ j, (g j).files = j.files) →
        (∀ j, (g j).status = j.status) →
          Keeps { o with state := s } { o with state := s.updateJob s.nextJobId g } :=
      fun g hid hfiles hstatus =>
        .updateJob_same (o := { o with state := s }) _ hid hfiles hstatus
    refine (hplaced.trans (hdress _ ?_ ?_ ?_)).trans ((keeps_nameFromRequestor _ _ true).trans
      (keeps_saveSnapshot _))
    · exact fun _ => rfl
    · exact fun _ => rfl
    · exact fun _ => rfl

theorem keeps_completeUrlFetch (o : Owner) (id : JobId) (parsed : ParsedNzb) :
    Keeps o (o.completeUrlFetch w lower id parsed) := by
  have hstate : Keeps o { o with
      state := o.state.completeUrlFetch lower id parsed o.tuning.pauseExtraPars } := by
    have huntried := buildFiles_untried lower o.tuning.pauseExtraPars parsed.files
      o.state.nextFileId []
    simp only [QueueState.completeUrlFetch]
    split
    · exact .beside rfl ⟨rfl, rfl, rfl⟩
    · split
      · exact .beside rfl ⟨rfl, rfl, rfl⟩
      · -- none of the new files is open
        refine .editJob ⟨rfl, rfl, rfl⟩ id rfl (fun _ => fillFetched_id ..) (fun j _ f hf ho => ?_)
          fun j _ hopen => ?_
        · rw [isOpen_untried (huntried f hf)] at ho
          cases ho
        · obtain ⟨f, hf, ho⟩ := hopen
          rw [isOpen_untried (huntried f hf)] at ho
          cases ho
  simp only [completeUrlFetch]
  generalize o.state.completeUrlFetch lower id parsed o.tuning.pauseExtraPars = s at hstate ⊢
  split
  · have hpause : Keeps { o with state := s } { o with state := s.updateJob id pauseFetched } := by
      refine .updateJob (o := { o with state := s }) id (fun j => ?_) (fun j => ?_) fun j _ _ hs => ?_
      · unfold pauseFetched; split <;> rfl
      · unfold pauseFetched; split <;> rfl
      · unfold pauseFetched
        split
        · rfl
        · exact hs
    exact (hstate.trans hpause).trans ((keeps_nameFromRequestor _ id true).trans
      (keeps_saveSnapshot _))
  · exact hstate

theorem keeps_failUrlFetch (o : Owner) (id : JobId) : Keeps o (o.failUrlFetch w id) := by
  unfold failUrlFetch
  split
  · have hup : Keeps o (o.updateJob id fun j => { j with status := .failed }) :=
      .updateJob id (fun _ => rfl) (fun _ => rfl) fun _ _ _ _ => rfl
    exact hup.trans (keeps_saveSnapshot _)
  · exact .refl o

theorem keeps_commitTorrentAdmission (o : Owner) (id : JobId) (commit : TorrentAdmissionCommit) :
    Keeps o (o.commitTorrentAdmission w id commit) := by
  have hstate : Keeps o { o with state := o.state.commitTorrentAdmission w.nowUnix id commit } := by
    simp only [QueueState.commitTorrentAdmission]
    split
    · exact .refl o
    · split
      · refine .of_jobs ⟨rfl, rfl, rfl⟩ fun j' hj' f hf ho => ?_
        rcases mem_modifyFirst hj' with hj | ⟨j, hj, rfl⟩
        · exact ⟨j', hj, f, hf, ho, rfl, rfl, fun _ hs => hs⟩
        · exact ⟨j, mem_of_find?_eq_some hj, f, hf, ho, rfl, rfl, fun _ hs => hs⟩
      · exact .append ⟨rfl, rfl, rfl⟩ rfl fun f hf => absurd hf not_mem_nil
  simp only [commitTorrentAdmission]
  split
  · exact hstate.trans (keeps_saveSnapshot _)
  · exact hstate

theorem saveSnapshotResult_books (o : Owner) : SameBooks o (o.saveSnapshotResult w).2 := by
  unfold saveSnapshotResult
  split
  · exact ⟨rfl, rfl, rfl⟩
  · split <;> exact ⟨rfl, rfl, rfl⟩

theorem keeps_cancelTorrentAdmission (o : Owner) (id : JobId) :
    Keeps o (o.cancelTorrentAdmission w id) := by
  have hbooks := saveSnapshotResult_books (w := w)
    { o with state := o.state.cancelTorrentAdmission id }
  unfold cancelTorrentAdmission
  split
  · simp only
    split
    · refine .beside ?_ hbooks
      rw [saveSnapshotResult_state]
      rfl
    · exact .beside rfl hbooks
  · exact .refl o

/-! ### Commands -/

theorem keeps_setFilePaused (o : Owner) (job : JobId) (file : FileId) (paused : Bool) :
    Keeps o (o.setFilePaused w job file paused) := by
  have hup : Keeps o { o with
      state := o.state.updateFile job file fun f => { f with paused := paused } } :=
    .updateFile job file (fun _ => rfl) fun _ _ ho => ho
  have htotals : ∀ o : Owner, Keeps o (o.recomputeTotals job) := fun o =>
    .updateJob_same job (fun _ => rfl) (fun _ => rfl) fun _ => rfl
  simp only [setFilePaused]
  split_ifs
  · exact (hup.trans (htotals _)).trans (keeps_checkJobComplete _ job)
  · exact .refl o

theorem keeps_deleteFile (o : Owner) (job : JobId) (file : FileId) :
    Keeps o (o.deleteFile w job file) := by
  have hup : Keeps o (o.updateJob job fun j => { j with files := j.files.filter (·.id ≠ file) }) := by
    refine .editJob ⟨rfl, rfl, rfl⟩ job rfl (fun _ => rfl) (fun j _ f hf ho => ?_) fun _ _ _ _ hs => hs
    exact ⟨f, (mem_filter.mp hf).1, ho, rfl⟩
  have htotals : ∀ o : Owner, Keeps o (o.recomputeTotals job) := fun o =>
    .updateJob_same job (fun _ => rfl) (fun _ => rfl) fun _ => rfl
  unfold deleteFile
  split
  · refine Keeps.trans ?_ (keeps_checkJobComplete _ job)
    exact (hup.trans (htotals _)).trans (.beside rfl ⟨rfl, rfl, rfl⟩)
  · exact .refl o

theorem keeps_tryTorrent (o : Owner) (id : JobId) {g : Job → Job} (hup : Keeps o (o.updateJob id g)) :
    Keeps o (o.tryTorrent w id g) := by
  have hbooks : SameBooks (o.updateJob id g) ((o.updateJob id g).persistThenCommand w).2 := by
    unfold persistThenCommand
    split
    · exact ⟨rfl, rfl, rfl⟩
    · split
      · exact saveSnapshotResult_books _
      · exact ⟨rfl, rfl, rfl⟩
  have hstate : ((o.updateJob id g).persistThenCommand w).2.state = (o.updateJob id g).state := by
    unfold persistThenCommand
    split
    · rfl
    · split
      · exact saveSnapshotResult_state _
      · rfl
  simp only [tryTorrent]
  split
  · exact hup.trans (.beside (by rw [hstate]) hbooks)
  · exact .beside rfl hbooks

theorem keeps_pause (o : Owner) (id : JobId) : Keeps o (o.pause w id) := by
  unfold pause
  split
  · exact .refl o
  · split
    · exact .refl o
    · split
      · refine keeps_tryTorrent o id (.updateJob id (fun _ => rfl) (fun _ => rfl) fun _ _ _ _ => rfl)
      · exact .updateJob id (fun _ => rfl) (fun _ => rfl) fun _ _ _ _ => rfl

theorem keeps_resume (o : Owner) (id : JobId) : Keeps o (o.resume w id) := by
  unfold resume
  split
  · exact .refl o
  next hret =>
    split
    · exact .refl o
    · split
      · exact .refl o
      · split
        · have hup : Keeps o (o.updateJob id (resumeTorrent w)) :=
            .updateJob id (fun _ => rfl) (fun _ => rfl) fun _ _ hr => absurd hr hret
          simp only
          split
          · exact hup.trans (keeps_saveSnapshotResult _)
          · exact .beside rfl (saveSnapshotResult_books (w := w) (o.updateJob id (resumeTorrent w)))
        · exact .updateJob id (fun _ => rfl) (fun _ => rfl) fun _ _ hr => absurd hr hret

theorem keeps_deleteJob (hk : o.state.WellKeyed) (id : JobId) (deleteFiles : Bool) :
    Keeps o (o.deleteJob w id deleteFiles) := by
  unfold deleteJob
  split
  · exact .refl o
  · split
    · exact .refl o
    next job hjob =>
      split
      · have hjid : job.id = id := job_find hjob
        have herase := keeps_eraseJob hk (mem_of_find?_eq_some hjob)
        refine (herase.trans ?_).trans (keeps_saveSnapshot _)
        -- no job of this id is left to be on its way out
        intro j hj f hf ho
        have hne : j.id ≠ id := hjid ▸ key_ne_of_mem_eraseP hk.ids hj
        refine ⟨j, hj, f, hf, ho, rfl, rfl, ?_⟩
        rintro (hsent | hpend | hret)
        · exact .inl hsent
        · exact .inr (.inl hpend)
        · exact .inr (.inr ⟨mem_filter.mpr ⟨hret.1, by simpa using hne⟩, hret.2⟩)
      · exact .refl o

theorem keeps_delete (hk : o.state.WellKeyed) (id : JobId) (deleteFiles : Bool) :
    Keeps o (o.delete w id deleteFiles) := by
  unfold delete
  split
  · exact .refl o
  · split
    · exact keeps_tryTorrent o id (.updateJob_same id (fun _ => rfl) (fun _ => rfl) fun _ => rfl)
    · exact keeps_deleteJob hk id deleteFiles

theorem keeps_quiescePayload (hk : o.state.WellKeyed) (id : JobId) :
    Keeps o (o.quiescePayload w id) := by
  unfold quiescePayload
  split
  · exact .refl o
  · simp only
    split_ifs
    · exact .refl o
    · refine Keeps.trans ?_ (keeps_saveSnapshot _)
      have hk' : (o.state.updateJob id fun j => { j with status := .paused }).WellKeyed :=
        (updateJob_by editable_keyed (.start hk) id (f := fun j => { j with status := .paused })
          (fun _ => rfl) fun _ => rfl).state
      intro j' hj' f hf ho
      obtain ⟨j, hj, hjid, hfiles, hs⟩ : ∃ j ∈ o.state.jobs, j.id = j'.id ∧ j'.files = j.files ∧
          (isActive j.status = false → isActive j'.status = false) := by
        rcases mem_modifyFirst hj' with hj | ⟨j, hj, rfl⟩
        · exact ⟨j', hj, rfl, rfl, fun h => h⟩
        · exact ⟨j, mem_of_find?_eq_some hj, rfl, rfl, fun _ => rfl⟩
      refine ⟨j, hj, f, hfiles ▸ hf, ho, hjid, rfl, ?_⟩
      rw [Tracks, hjid]
      rintro (hsent | hpend | hret)
      · exact .inl hsent
      · by_cases hid : j'.id = id
        · -- the finalization is dropped, and the job is paused
          have hmem := hk'.job_of_mem hj'
          rw [hid, job_updateJob_self o.state (f := fun j => { j with status := .paused })
            fun _ => rfl] at hmem
          obtain ⟨k, -, hk⟩ := Option.map_eq_some_iff.mp hmem
          refine .inr (.inr ⟨hid ▸ mem_cons_self, ?_⟩)
          rw [← hk]
          rfl
        · exact .inr (.inl (mem_filter.mpr ⟨hpend, by simpa using hid⟩))
      · exact .inr (.inr ⟨mem_cons_of_mem _ hret.1, hs hret.2⟩)

theorem keeps_setPriority (o : Owner) (id : JobId) (priority : Int) :
    Keeps o (o.setPriority w id priority) := by
  have hup : Keeps o (o.updateJob id fun j => { j with priority := priority }) :=
    .updateJob_same id (fun _ => rfl) (fun _ => rfl) fun _ => rfl
  unfold setPriority
  split
  · exact .refl o
  · split
    · exact keeps_tryTorrent o id hup
    · exact hup

theorem keeps_setCategory (o : Owner) (id : JobId) (category : Option Text) :
    Keeps o (o.setCategory w id category) := by
  unfold setCategory
  split
  · have hup : Keeps o (o.updateJob id fun j => { j with category := category }) :=
      .updateJob_same id (fun _ => rfl) (fun _ => rfl) fun _ => rfl
    exact hup.trans (keeps_saveSnapshot _)
  · exact .refl o

theorem keeps_moveJob (o : Owner) (id : JobId) (op : MoveOp) : Keeps o (o.moveJob id op) := by
  refine .subset ?_ (moveJob_perm o id op).subset
  unfold moveJob
  split <;> exact ⟨rfl, rfl, rfl⟩

theorem keeps_setJobStatus (o : Owner) (id : JobId) (status : JobStatus) :
    Keeps o (o.setJobStatus w id status) := by
  unfold setJobStatus
  split
  · exact .refl o
  next hret =>
    have hup : Keeps o (o.updateJob id fun j => { j with status := status }) :=
      .updateJob id (fun _ => rfl) (fun _ => rfl) fun _ _ hr => absurd hr fun h => hret (.inl h)
    simp only
    split
    · exact hup.trans (keeps_saveSnapshot _)
    · exact hup

theorem keeps_enterPostStage (o : Owner) (id : JobId) (stage : PostStage) (at' : Int)
    (prev : Option Nat) : Keeps o (o.enterPostStage id stage at' prev) :=
  .updateJob id (fun _ => rfl) (fun _ => rfl) fun _ _ _ _ => rfl

theorem keeps_unpauseParBlocks (o : Owner) {id : JobId}
    (hret : id ∈ o.retiringWriters → ∀ j, o.state.job id = some j → requeuesForPars j.status = false)
    (picked : List (FileId × Nat)) : Keeps o (o.unpauseParBlocks id picked) := by
  have hup : ∀ ids, Keeps o (o.updateJob id (unpauseFiles ids)) := by
    intro ids
    refine .editJob ⟨rfl, rfl, rfl⟩ id rfl (fun _ => rfl) (fun j _ f hf ho => ?_)
      fun j hj _ hr hs => ?_
    · obtain ⟨g, hg, rfl⟩ := mem_map.mp hf
      refine ⟨g, hg, ?_, ?_⟩
      · split at ho
        · exact ho
        · exact ho
      · split <;> rfl
    · rw [unpauseFiles, if_neg (by rw [hret hr j hj]; simp)]
      exact hs
  have htotals : ∀ o : Owner, Keeps o (o.recomputeTotals id) := fun o =>
    .updateJob_same id (fun _ => rfl) (fun _ => rfl) fun _ => rfl
  unfold unpauseParBlocks
  split
  · exact .refl o
  · simp only
    split
    · exact .refl o
    · exact ((hup _).trans (htotals _)).trans (.beside rfl ⟨rfl, rfl, rfl⟩)

theorem keeps_torrentFact (o : Owner) {id : JobId} {status : JobStatus}
    (hstatus : id ∈ o.retiringWriters → isActive status = false) (record : TorrentRecord)
    (name : Text) : Keeps o (o.torrentFact id status record name) := by
  refine .updateJob id (fun j => ?_) (fun j => ?_) fun j _ hr hs => ?_
  · split
    · exact renameJob_id ..
    · rfl
  · split
    · exact renameJob_files ..
    · rfl
  · split
    · exact hstatus hr
    · exact hs

theorem keeps_setDelegated (o : Owner) (id : JobId) (delegated : Bool) :
    Keeps o (o.setDelegated id delegated) := by
  refine .beside (by rw [(setDelegated_state o id delegated).1]) ?_
  unfold setDelegated
  split
  · exact ⟨rfl, rfl, rfl⟩
  · split <;> exact ⟨rfl, rfl, rfl⟩

/-! ### The clock -/

theorem keeps_settleDownloadLabels (hk : o.state.WellKeyed) : Keeps o (o.settleDownloadLabels w) := by
  have hfold : ∀ (ids : List JobId) (o : Owner),
      (∀ id ∈ ids, ∀ j, o.state.job id = some j → isActive j.status = true) →
        Keeps o (ids.foldl (fun o id => o.updateJob id fun j => { j with status := .queued }) o) := by
    intro ids
    induction ids with
    | nil => exact fun o _ => .refl o
    | cons id ids ih =>
      intro o hactive
      have hup : Keeps o (o.updateJob id fun j => { j with status := .queued }) := by
        refine .updateJob id (fun _ => rfl) (fun _ => rfl) fun j hj _ hs => ?_
        rw [hactive id mem_cons_self j hj] at hs
        nomatch hs
      refine hup.trans (ih _ fun id' hid' j' hj' => ?_)
      by_cases hne : id' = id
      · rw [hne, updateJob, job_updateJob_self o.state (f := fun j => { j with status := .queued })
          fun _ => rfl] at hj'
        obtain ⟨j, -, rfl⟩ := Option.map_eq_some_iff.mp hj'
        rfl
      · have hother := job_updateJob_ne o.state (f := fun j => { j with status := .queued }) hne
          fun _ => rfl
        exact hactive id' (mem_cons_of_mem _ hid') j' (hother.symm.trans hj')
  refine hfold _ o fun id hid j hj => ?_
  obtain ⟨k, hkm, rfl⟩ := mem_map.mp hid
  obtain ⟨hkm, hcond⟩ := mem_filter.mp hkm
  obtain rfl : k = j := Option.some.inj ((hk.job_of_mem hkm).symm.trans hj)
  simp only [Bool.and_eq_true, decide_eq_true_eq] at hcond
  rw [hcond.1.1]
  rfl

theorem Orderly.retryFinalize (h : Orderly [] o) : Orderly [] (o.retryFinalize w) := by
  have hfold : ∀ (ps : List (JobId × FileId)) (o : Owner), Orderly ps o →
      Orderly [] (ps.foldl
        (fun o p => if p.2 ∈ o.finalizeSent then o else o.sendFinalize w p.1 p.2) o) := by
    intro ps
    induction ps with
    | nil => exact fun o ho => ho
    | cons p ps ih =>
      intro o ho
      refine ih _ ?_
      dsimp only
      split
      next hsent =>
        exact ⟨ho.keyed, ho.tracked.discharge ho.keyed fun j f _ _ _ hfid _ => .inl (hfid ▸ hsent)⟩
      next =>
        have hafter := ho.sendFinalize (w := w) p.1 p.2
        refine ⟨hafter.keyed, hafter.tracked.discharge hafter.keyed fun j f _ hf hjid hfid _ => ?_⟩
        rw [file, sendFinalize_state] at hf
        rcases sendFinalize_books (w := w) (o := o) hf with hs | hp
        · exact .inl (hfid ▸ hs)
        · refine .inr (.inl ?_)
          rwa [hjid, hfid]
  refine hfold o.pendingFinalize { o with pendingFinalize := [] } ⟨h.keyed, ?_⟩
  intro j hj f hf ho hE
  rcases h.tracked j hj f hf ho not_mem_nil with hsent | hpend | hret
  · exact .inl hsent
  · exact absurd hpend hE
  · exact .inr (.inr hret)

theorem Orderly.onTick (h : Orderly [] o) : Orderly [] (o.onTick w) := by
  have hlabels : Orderly [] (o.settleDownloadLabels w) :=
    h.keeps (settleDownloadLabels_by editable_keyed (.start h.keyed)).state
      (keeps_settleDownloadLabels h.keyed)
  have hclock : Orderly [] { o.settleDownloadLabels w with
      diskLow := w.diskLow
      quotaReached := w.quotaReached
      blocked := fun s => ((o.settleDownloadLabels w).blocked s).filter (w.instant < ·) } :=
    hlabels.congr rfl ⟨rfl, rfl, rfl⟩
  simp only [Owner.onTick]
  split
  · exact hclock.retryFinalize.saveSnapshot
  · exact hclock.retryFinalize

/-! ### Journals and imports -/

theorem Orderly.foldRecord {id : JobId} {p : Owner × List FileId}
    (h : Orderly (p.2.map (id, ·) ++ E) p.1) {r : JournalRecord} (hr : r.job = id) :
    Orderly ((foldRecord p r).2.map (id, ·) ++ E) (foldRecord p r).1 := by
  have hsize : Orderly (p.2.map (id, ·) ++ E)
      { p.1 with fileSizes := recordSize p.1.fileSizes r } := h.congr rfl ⟨rfl, rfl, rfl⟩
  simp only [Owner.foldRecord]
  split
  · exact hsize
  · split
    · exact hsize
    · refine ((hsize.setSegment r.segRef _).dropAttempt r.segRef).mono fun q hq => ?_
      have hhead : (id, r.file) ∈ (if r.file ∈ p.2 then p.2 else p.2 ++ [r.file]).map (id, ·) := by
        refine mem_map_of_mem ?_
        split
        next hmem => exact hmem
        next => exact mem_append_right _ (mem_singleton_self _)
      rcases mem_cons.mp hq with rfl | hq
      · refine mem_append_left _ ?_
        rw [← hr] at hhead ⊢
        exact hhead
      · rcases mem_append.mp hq with hq | hq
        · refine mem_append_left _ ?_
          obtain ⟨f, hf, rfl⟩ := mem_map.mp hq
          refine mem_map_of_mem ?_
          split
          · exact hf
          · exact mem_append_left _ hf
        · exact mem_append_right _ hq

theorem Orderly.foldJobJournals (h : Orderly E o) (id : JobId) (records : List JournalRecord) :
    Orderly E (o.foldJobJournals w id records) := by
  have hfold : ∀ (rs : List JournalRecord) (p : Owner × List FileId), (∀ r ∈ rs, r.job = id) →
      Orderly (p.2.map (id, ·) ++ E) p.1 →
        Orderly ((rs.foldl Owner.foldRecord p).2.map (id, ·) ++ E) (rs.foldl Owner.foldRecord p).1 := by
    intro rs
    induction rs with
    | nil => exact fun p _ hp => hp
    | cons r rs ih =>
      intro p hrs hp
      exact ih _ (fun r' hr' => hrs r' (mem_cons_of_mem _ hr'))
        (hp.foldRecord (hrs r mem_cons_self))
  have hlooks : ∀ (fs : List FileId) (o : Owner), Orderly (fs.map (id, ·) ++ E) o →
      Orderly E (fs.foldl (fun o f => o.afterFileChange w id f) o) := by
    intro fs
    induction fs with
    | nil => exact fun o ho => ho
    | cons f fs ih => exact fun o ho => ih _ (Orderly.afterFileChange ho)
  have hrecords := hfold (records.filter (·.job = id)) (o, [])
    (fun r hr => by simpa using (mem_filter.mp hr).2) h
  simp only [Owner.foldJobJournals]
  split
  next hnil =>
    rw [hnil] at hrecords
    exact hrecords
  next => exact hlooks _ _ (hrecords.recomputeTotals id)

theorem isOpen_releaseLeases {f : FileEntry} (h : isOpen f.releaseLeases = true) : isOpen f = true := by
  have hstate : ∀ x : Segment, x.releaseLease.state.isTerminal = true → x.releaseLease = x := by
    intro x hx
    unfold Segment.releaseLease at hx ⊢
    split
    next hl => rw [hl] at hx; nomatch hx
    next => rfl
  simp only [isOpen, Bool.and_eq_true, FileEntry.isTerminal, FileEntry.releaseLeases] at h
  have hsame : f.segments.map Segment.releaseLease = f.segments := by
    refine (map_congr_left fun x hx => hstate x ?_).trans (map_id _)
    exact all_eq_true.mp h.1.1 _ (mem_map_of_mem hx)
  have hfile : f.releaseLeases = f := by rw [FileEntry.releaseLeases, hsame]
  have hopen : isOpen f.releaseLeases = true := by
    simpa [isOpen, FileEntry.isTerminal, FileEntry.releaseLeases] using h
  rwa [hfile] at hopen

theorem Orderly.placeJob (h : Orderly E o) {job : Job}
    (hfits : job.Fits (o.state.eraseJob job.id)) (hshut : ∀ f ∈ job.files, isOpen f = false) :
    Orderly E (o.placeJob (normalizeJob job)) := by
  have hraise : Orderly E { o with state := raiseIds o.state (normalizeJob job) } :=
    h.keeps (JobsBy.wellKeyed (.refl chains_eq.refl _) rfl h.keyed) (.beside rfl ⟨rfl, rfl, rfl⟩)
  refine h.keeps (placeJob_rows h.keyed hfits).state.keyed ?_
  have hraised : Keeps o { o with state := raiseIds o.state (normalizeJob job) } :=
    .beside rfl ⟨rfl, rfl, rfl⟩
  refine (hraised.trans (keeps_removeJobSilent hraise.keyed job.id)).trans ?_
  refine .append (j := recomputeJobTotals (normalizeJob job)) ⟨rfl, rfl, rfl⟩ rfl fun f hf => ?_
  obtain ⟨g, hg, rfl⟩ := mem_map.mp hf
  rw [Bool.eq_false_iff]
  intro ho
  exact absurd (isOpen_releaseLeases ho) (by simp [hshut g hg])

theorem forgetAllocation_books (o : Owner) (job : Job) : SameBooks o (o.forgetAllocation job) := by
  unfold forgetAllocation
  split <;> exact ⟨rfl, rfl, rfl⟩

theorem Orderly.importJob (h : Orderly E o) {job : Job} (records : List JournalRecord)
    (hfits : job.Fits (o.state.eraseJob job.id)) (hshut : ∀ f ∈ job.files, isOpen f = false) :
    Orderly E (o.importJob w job records).2 := by
  have hforget : Orderly E (o.forgetAllocation (normalizeJob job)) :=
    h.congr (forgetAllocation_state ..) (forgetAllocation_books ..)
  have hplace : Orderly E ((o.forgetAllocation (normalizeJob job)).placeJob (normalizeJob job)) :=
    hforget.placeJob (by rwa [forgetAllocation_state]) hshut
  simp only [Owner.importJob]
  split
  · exact hforget
  · refine Orderly.saveSnapshotResult ?_
    exact (hplace.foldJobJournals job.id records).congr rfl ⟨rfl, rfl, rfl⟩

/-- The disk and the inventory take the job. -/
def Takes (w : World) (o : Owner) (job : Job) : Prop :=
  (job.torrent = none → w.allocates job.id = true) ∧ o.persist = true ∧ w.save o.log.length = .ok

theorem importJob_saved {job : Job} (h : Takes w o job) : (o.importJob w job []).1 = true := by
  obtain ⟨halloc, hpersist, hsave⟩ := h
  have hpersist' : ∀ o : Owner, o.persist = true → w.save o.log.length = .ok →
      (o.saveSnapshotResult w).1 = true := by
    intro o hp hs
    rw [saveSnapshotResult, if_neg (by simp [hp]), hs]
  have hplaced : ∀ o : Owner, ((o.placeJob (normalizeJob job)).persist = o.persist) ∧
      (o.placeJob (normalizeJob job)).log = o.log := by
    intro o
    refine ⟨?_, placeJob_log ..⟩
    show (removeJobSilent _ _).persist = _
    unfold removeJobSilent
    split <;> rfl
  have hforget : (o.forgetAllocation (normalizeJob job)).persist = o.persist := by
    unfold forgetAllocation
    split <;> rfl
  simp only [importJob]
  rw [if_neg]
  · simp only [foldJobJournals, filter_nil, foldl_nil, if_true]
    refine hpersist' _ ?_ ?_
    · exact ((hplaced _).1.trans hforget).trans hpersist
    · show w.save (length (log (placeJob _ _))) = _
      rw [(hplaced _).2, forgetAllocation_log, hsave]
  · rintro ⟨htorrent, hrefused⟩
    exact absurd (halloc htorrent) (by rw [Bool.not_eq_true]; exact hrefused)

theorem Orderly.importJobIfPresent (h : Orderly E o) {job : Job}
    (hfits : job.Fits (o.state.eraseJob job.id)) (hshut : ∀ f ∈ job.files, isOpen f = false)
    (hold : Takes w o job ∨ ∀ j, o.state.job job.id = some j → ∀ f ∈ j.files, isOpen f = false) :
    Orderly E (o.importJobIfPresent w job) := by
  have himport := h.importJob (w := w) [] hfits hshut
  have hkeyed := (importJobIfPresent_rows (w := w) h.keyed job hfits).state.keyed
  unfold Owner.importJobIfPresent at hkeyed ⊢
  split at hkeyed
  · exact h
  next previous hprev =>
    simp only at hkeyed ⊢
    split at hkeyed
    next hok =>
      rw [if_pos hok]
      exact himport
    next hfail =>
      rw [if_neg hfail]
      refine ⟨hkeyed, ?_⟩
      have hremoved := himport.keeps (removeJobSilent_rows himport.keyed job.id).state.keyed
        (keeps_removeJobSilent himport.keyed job.id)
      refine hremoved.tracked.keeps (.append ⟨rfl, rfl, rfl⟩ rfl ?_)
      rcases hold with htakes | hold
      · exact absurd (importJob_saved htakes) hfail
      · exact hold previous hprev

/-! ### Taking over -/

/-- The exceptions in this job are open, nobody has paused them, and it downloads. -/
def JobReady (E : List (JobId × FileId)) (j : Job) : Prop :=
  ∀ f ∈ j.files, (j.id, f.id) ∈ E → isOpen f = true ∧ f.paused = false ∧ isActive j.status = true

def Ready (E : List (JobId × FileId)) (s : QueueState) : Prop := ∀ j ∈ s.jobs, JobReady E j

theorem Ready.updateJob {s : QueueState} (h : Ready E s) (id : JobId) {g : Job → Job}
    (hg : ∀ j, s.job id = some j → JobReady E j → JobReady E (g j)) : Ready E (s.updateJob id g) := by
  intro j' hj'
  rcases mem_modifyFirst hj' with hj | ⟨j, hj, rfl⟩
  · exact h j' hj
  · exact hg j hj (h j (mem_of_find?_eq_some hj))

theorem Ready.updateFile {s : QueueState} (h : Ready E s) (job : JobId) (file : FileId)
    {g : FileEntry → FileEntry} (hid : ∀ f, (g f).id = f.id)
    (hg : ∀ j f, s.job job = some j → j.file file = some f → (j.id, f.id) ∈ E →
      isOpen f = true → f.paused = false → isOpen (g f) = true ∧ (g f).paused = false) :
    Ready E (s.updateFile job file g) := by
  refine h.updateJob job fun j hj hready f' hf' hE => ?_
  rcases mem_modifyFirst hf' with hf | ⟨f, hf, rfl⟩
  · exact hready f' hf hE
  · have hmem : (j.id, f.id) ∈ E := hid f ▸ hE
    obtain ⟨ho, hp, hs⟩ := hready f (mem_of_find?_eq_some hf) hmem
    obtain ⟨ho', hp'⟩ := hg j f hj hf hmem ho hp
    exact ⟨ho', hp', hs⟩

theorem JobReady.incomplete {j : Job} (h : JobReady E j) {f : FileEntry} (hf : f ∈ j.files)
    (hE : (j.id, f.id) ∈ E) : jobComplete j = false := by
  obtain ⟨ho, hp, -⟩ := h f hf hE
  have hunsettled : fileSettled f = false := by
    simp only [isOpen, Bool.and_eq_true, Bool.not_eq_true'] at ho
    simp [fileSettled, hp, ho.1.2, ho.2]
  have hall : j.files.all fileSettled = false := by
    rw [all_eq_false]
    exact ⟨f, hf, by simp [hunsettled]⟩
  simp [jobComplete, hall]

theorem Ready.checkJobComplete (h : Ready E o.state) (id : JobId) :
    Ready E (o.checkJobComplete w id).state := by
  unfold Owner.checkJobComplete
  split
  · exact h
  · split
    · exact h
    next job hjob =>
      split
      next hcomplete =>
        rw [saveSnapshot_state]
        refine h.updateJob id fun j hj hready f hf hE => ?_
        obtain rfl : job = j := Option.some.inj (hjob.symm.trans hj)
        rw [hready.incomplete hf hE] at hcomplete
        cases hcomplete.2
      next => exact h

theorem Ready.afterFileChange (h : Ready E o.state) (job : JobId) (file : FileId) :
    Ready E (o.afterFileChange w job file).state := by
  unfold Owner.afterFileChange
  split
  · exact h
  next f hf =>
    split
    · exact h.checkJobComplete job
    · split
      · split
        · exact h
        · rwa [sendFinalize_state]
      next hnone =>
        -- a file with nothing on disk is not open
        refine Ready.checkJobComplete (h.updateFile job file (g := finalizeTrivially) (fun _ => rfl)
          fun j g hj hg _ ho => ?_) job
        rw [Owner.file, hj, Option.bind_some] at hf
        obtain rfl := Option.some.inj (hf.symm.trans hg)
        simp [isOpen, hnone] at ho

theorem isOpen_setDone {f : FileEntry} (h : isOpen f = true) (n offset len : Nat) (crc : BitVec 32) :
    isOpen (f.updateSegment n fun x => { x with state := .done offset len crc }) = true := by
  cases hx : f.segment n with
  | none =>
    rw [FileEntry.updateSegment, modifyFirst_of_find?_eq_none hx]
    exact h
  | some x =>
    obtain ⟨pre, post, hl, hmod, -, -⟩ := modifyFirst_split
      (f := fun x : Segment => { x with state := .done offset len crc }) hx
    simp only [isOpen, FileEntry.isTerminal, FileEntry.hasAnyDone, FileEntry.updateSegment, hmod]
    simp only [isOpen, FileEntry.isTerminal, FileEntry.hasAnyDone, hl] at h
    simp [SegmentState.isTerminal, SegmentState.isDone] at h ⊢
    tauto

theorem Ready.foldJobJournals (h : Ready E o.state) (id : JobId) (records : List JournalRecord) :
    Ready E (o.foldJobJournals w id records).state := by
  have hfold : Ready E ((records.filter (·.job = id)).foldl foldRecord (o, [])).1.state := by
    refine foldlRecOn (motive := fun p : Owner × List FileId => Ready E p.1.state) _ _ h
      fun p hp r _ => ?_
    simp only [foldRecord]
    split
    · exact hp
    · split
      · exact hp
      · refine Ready.updateFile hp _ _ (fun _ => rfl) fun j f _ _ _ ho hpause => ⟨?_, hpause⟩
        exact isOpen_setDone ho _ _ _ _
  simp only [Owner.foldJobJournals]
  split
  · exact hfold
  · have htotals : Ready E
        (((records.filter (·.job = id)).foldl foldRecord (o, [])).1.recomputeTotals id).state :=
      hfold.updateJob id fun j _ hj => hj
    exact foldlRecOn (motive := fun o : Owner => Ready E o.state) _ _ htotals
      fun o ho f _ => ho.afterFileChange id f

/-- **The pass over what had completed discharges the jobs that download.** -/
theorem Orderly.startupPass (h : Orderly E o)
    (hE : ∀ j ∈ o.state.jobs, ∀ f ∈ j.files, isOpen f = true → (j.id, f.id) ∈ E →
      isActive j.status = true) : Orderly [] (o.startupPass w) := by
  have hsends : ∀ (ps : List (JobId × FileId)) (o : Owner), Orderly ps o →
      Orderly [] (ps.foldl (fun o p => o.sendFinalize w p.1 p.2) o) := by
    intro ps
    induction ps with
    | nil => exact fun o ho => ho
    | cons p ps ih =>
      intro o ho
      have hafter := ho.sendFinalize (w := w) p.1 p.2
      refine ih _ ⟨hafter.keyed, hafter.tracked.discharge hafter.keyed fun j f _ hf hjid hfid _ => ?_⟩
      rw [file, sendFinalize_state] at hf
      rcases sendFinalize_books (w := w) (o := o) hf with hs | hp
      · exact .inl (hfid ▸ hs)
      · refine .inr (.inl ?_)
        rwa [hjid, hfid]
  simp only [Owner.startupPass]
  refine foldlRecOn (motive := Orderly []) _ _ (hsends _ _ ⟨h.keyed, ?_⟩)
    fun o ho id _ => ho.checkJobComplete id
  intro j hj f hf ho hfinished
  refine h.tracked j hj f hf ho fun hmem => hfinished ?_
  refine mem_flatMap.mpr ⟨j, mem_filter.mpr ⟨hj, hE j hj f hf ho hmem⟩, ?_⟩
  exact mem_map.mpr ⟨f, mem_filter.mpr ⟨hf, ho⟩, rfl⟩

def newcomers (jobs merged : List Job) : List (JobId × FileId) :=
  (merged.filter fun j => jobs.all (·.id ≠ j.id)).flatMap fun j =>
    (j.files.filter isOpen).map fun f => (j.id, f.id)

theorem mem_newcomers {jobs merged : List Job} {p : JobId × FileId} :
    p ∈ newcomers jobs merged ↔ ∃ j ∈ merged, (∀ k ∈ jobs, k.id ≠ j.id) ∧
      ∃ f ∈ j.files, isOpen f = true ∧ p = (j.id, f.id) := by
  simp only [newcomers, mem_flatMap, mem_filter, mem_map, all_eq_true,
    decide_eq_true_eq]
  constructor
  · rintro ⟨j, ⟨hj, hnew⟩, f, ⟨hf, ho⟩, rfl⟩
    exact ⟨j, hj, hnew, f, hf, ho, rfl⟩
  · rintro ⟨j, hj, hnew, f, hf, ho, rfl⟩
    exact ⟨j, ⟨hj, hnew⟩, f, ⟨hf, ho⟩, rfl⟩

theorem subset_mergeJobs (new : List Job) : ∀ jobs : List Job, jobs ⊆ mergeJobs jobs new := by
  unfold mergeJobs
  induction new with
  | nil => exact fun jobs => List.Subset.refl _
  | cons k new ih =>
    intro jobs
    refine List.Subset.trans ?_ (ih _)
    dsimp only
    split
    · exact List.Subset.refl _
    · exact subset_append_left _ _

/-- A job of the snapshot that the queue does not have is not on its way to be forgotten:
its open files are in jobs that download, and nobody has paused them. -/
def Adoptable (o : Owner) (s : QueueState) : Prop :=
  ∀ j ∈ s.jobs, (∀ k ∈ o.state.jobs, k.id ≠ j.id) →
    ∀ f ∈ j.files, isOpen f = true → f.paused = false ∧ isActive j.status = true

theorem Orderly.adoptSnapshot {s : QueueState} (h : Orderly [] o)
    (hk : (o.adoptSnapshot s).state.WellKeyed) (hs : Adoptable o s) :
    Orderly (newcomers o.state.jobs (o.adoptSnapshot s).state.jobs) (o.adoptSnapshot s) ∧
      Ready (newcomers o.state.jobs (o.adoptSnapshot s).state.jobs) (o.adoptSnapshot s).state := by
  have hsub : o.state.jobs ⊆ (o.adoptSnapshot s).state.jobs := subset_mergeJobs s.jobs o.state.jobs
  -- rows with one id are one row
  have huniq : ∀ j ∈ (o.adoptSnapshot s).state.jobs, ∀ k ∈ (o.adoptSnapshot s).state.jobs,
      j.id = k.id → j = k := by
    intro j hj k hkm hid
    have hjob := hk.job_of_mem hj
    rw [hid, hk.job_of_mem hkm] at hjob
    exact (Option.some.inj hjob).symm
  refine ⟨⟨hk, fun j hj f hf ho hE => ?_⟩, fun j hj f hf hE => ?_⟩
  · by_cases hnew : ∀ k ∈ o.state.jobs, k.id ≠ j.id
    · exact absurd (mem_newcomers.mpr ⟨j, hj, hnew, f, hf, ho, rfl⟩) hE
    · push Not at hnew
      obtain ⟨k, hkm, hid⟩ := hnew
      obtain rfl := huniq k (hsub hkm) j hj hid
      exact h.tracked k hkm f hf ho not_mem_nil
  · obtain ⟨k, hkm, hnew, g, hg, ho, hp⟩ := mem_newcomers.mp hE
    obtain ⟨hjid, hfid⟩ := Prod.mk.inj hp
    obtain rfl := huniq j hj k hkm hjid
    have hfg : f = g := by
      have hfile := hk.file_of_mem hj hf
      rw [hfid, hk.file_of_mem hj hg] at hfile
      exact (Option.some.inj hfile).symm
    subst hfg
    rcases mem_mergeJobs hj with hold | hmem
    · exact absurd rfl (hnew j hold)
    · exact ⟨ho, hs j hmem hnew f hf ho⟩

theorem Orderly.finishAdoption (h : Orderly E o) (hready : Ready E o.state)
    (records : List JournalRecord) : Orderly [] (o.finishAdoption w records) := by
  have hfold : Orderly E ((o.state.jobs.map (·.id)).foldl
      (fun o id => o.foldJobJournals w id records) o) ∧ Ready E ((o.state.jobs.map (·.id)).foldl
      (fun o id => o.foldJobJournals w id records) o).state :=
    foldlRecOn (motive := fun o : Owner => Orderly E o ∧ Ready E o.state) _ _ ⟨h, hready⟩
      fun o ho id _ => ⟨ho.1.foldJobJournals id records, ho.2.foldJobJournals id records⟩
  simp only [Owner.finishAdoption]
  generalize (o.state.jobs.map (·.id)).foldl (fun o id => o.foldJobJournals w id records) o = q at hfold
  have htotals : Orderly E { q with state := q.state.recomputeAllTotals } := by
    refine hfold.1.edit (recomputeAllTotals_by _) (.of_jobs ⟨rfl, rfl, rfl⟩ fun j hj f hf ho => ?_)
    obtain ⟨k, hkm, rfl⟩ := mem_map.mp hj
    exact ⟨k, hkm, f, hf, ho, rfl, rfl, fun _ hs => hs⟩
  refine Orderly.saveSnapshot (htotals.startupPass fun j hj f hf _ hE => ?_)
  obtain ⟨k, hkm, rfl⟩ := mem_map.mp hj
  exact (hfold.2 k hkm f hf hE).2.2

theorem Orderly.adoptAuthority (h : Orderly [] o) (loaded : Option (Option QueueSnapshotDoc))
    (records : List JournalRecord)
    (hfresh : Msg.Fresh lower w o (.adoptAuthority loaded records))
    (hs : ∀ doc, loaded = some (some doc) → Adoptable o (.fromDoc w.nowUnix doc)) :
    Orderly [] (o.adoptAuthority w loaded records) := by
  unfold Owner.adoptAuthority
  split
  · exact h.congr rfl ⟨rfl, rfl, rfl⟩
  · have hpersist : Orderly [] { o with persist := true } := h.congr rfl ⟨rfl, rfl, rfl⟩
    exact hpersist.finishAdoption (fun j _ f _ hE => nomatch hE) records
  next doc =>
    split
    · exact h.congr rfl ⟨rfl, rfl, rfl⟩
    · obtain ⟨hadopted, hready⟩ := h.adoptSnapshot (s := .fromDoc w.nowUnix doc) hfresh (hs doc rfl)
      exact hadopted.finishAdoption hready records

/-- Every open file of these jobs was open in the queue, and a job on its way out does not
come back. -/
def OpenFrom (o : Owner) (jobs : List Job) : Prop :=
  ∀ j' ∈ jobs, ∀ f' ∈ j'.files, isOpen f' = true →
    ∃ j ∈ o.state.jobs, ∃ f ∈ j.files, isOpen f = true ∧ j.id = j'.id ∧ f.id = f'.id ∧
      (j.id ∈ o.retiringWriters → isActive j.status = false → isActive j'.status = false)

theorem keeps_adoptReplicatedAuthority {jobs : List Job} (h : OpenFrom o jobs) :
    Keeps o (o.adoptReplicatedAuthority w jobs) := by
  unfold adoptReplicatedAuthority
  refine Keeps.trans (.of_jobs ?_ fun j hj f hf ho => ?_) (keeps_saveSnapshot _)
  · exact ⟨rfl, rfl, rfl⟩
  · obtain ⟨k, hkm, rfl⟩ := mem_map.mp hj
    exact h k hkm f hf ho

end Owner

/-! ### All messages -/

open Owner in
/-- What a message that brings rows into the queue, or takes a file off the books, has to
mind. -/
def Msg.Minded (w : World) (o : Owner) : Msg → Prop
  | .writerFinalized job file .. => ∀ j ∈ o.state.jobs, ∀ f ∈ j.files, f.id = file → j.id = job
  | .torrentFact job status .. => job ∈ o.retiringWriters → isActive status = false
  | .unpauseParBlocks job _ => job ∈ o.retiringWriters →
      ∀ j, o.state.job job = some j → requeuesForPars j.status = false
  | .importJob job _ => ∀ f ∈ job.files, isOpen f = false
  | .importJobIfPresent job => (∀ f ∈ job.files, isOpen f = false) ∧
      (Takes w o job ∨ ∀ j, o.state.job job.id = some j → ∀ f ∈ j.files, isOpen f = false)
  | .adoptAuthority (some (some doc)) _ => Adoptable o (.fromDoc w.nowUnix doc)
  | .adoptReplicatedAuthority jobs => OpenFrom o jobs
  | _ => True

namespace Owner

/-- **A message keeps the open files on the books.** -/
theorem Orderly.step (h : Orderly [] o) {m : Msg} (hfresh : m.Fresh lower w o)
    (hm : m.Minded w o) : Orderly [] (o.step lower w m) := by
  refine ⟨(step_keyed h.keyed hfresh).state, ?_⟩
  have hkeep : ∀ {o' : Owner}, Keeps o o' → Tracked [] o' := fun hk => h.tracked.keeps hk
  cases m with
  | workRequest server n => exact (h.grantWork server _).tracked
  | segmentWritten r => exact (h.onSegmentWritten r).tracked
  | segmentFailed r server outcome => exact (h.onSegmentFailed r server outcome).tracked
  | connectFailed server => exact hkeep (.beside rfl ⟨rfl, rfl, rfl⟩)
  | writerFinalized job file ok hasPath crc => exact h.onWriterFinalized hm ok hasPath crc
  | writerError job file full =>
    refine Orderly.tracked (Orderly.failWholeFile ?_ job file)
    exact h.congr rfl ⟨rfl, rfl, rfl⟩
  | outOfSpace => exact hkeep (.beside rfl ⟨rfl, rfl, rfl⟩)
  | jobNameInspected job name => exact hkeep (keeps_onJobNameInspected o job name)
  | tick => exact h.onTick.tracked
  | addParsed name parsed category priority paused params =>
    exact hkeep (keeps_addParsed o name parsed category priority paused params)
  | addUrl name url category priority paused params =>
    exact hkeep (keeps_addUrl o name url category priority paused params)
  | completeUrlFetch job parsed => exact hkeep (keeps_completeUrlFetch o job parsed)
  | failUrlFetch job => exact hkeep (keeps_failUrlFetch o job)
  | reserveTorrentAdmission =>
    have hreserved : Keeps o { o with state := o.state.reserveTorrentAdmission } :=
      .beside rfl ⟨rfl, rfl, rfl⟩
    exact hkeep (hreserved.trans (keeps_saveSnapshot _))
  | commitTorrentAdmission job commit => exact hkeep (keeps_commitTorrentAdmission o job commit)
  | cancelTorrentAdmission job => exact hkeep (keeps_cancelTorrentAdmission o job)
  | torrentFact job status record name => exact hkeep (keeps_torrentFact o hm record name)
  | torrentRemoved job => exact hkeep (keeps_torrentRemoved h.keyed job)
  | setFilePaused job file paused => exact hkeep (keeps_setFilePaused o job file paused)
  | deleteFile job file => exact hkeep (keeps_deleteFile o job file)
  | pause job => exact hkeep (keeps_pause o job)
  | resume job => exact hkeep (keeps_resume o job)
  | quiescePayload job => exact hkeep (keeps_quiescePayload h.keyed job)
  | delete job deleteFiles => exact hkeep (keeps_delete h.keyed job deleteFiles)
  | setPriority job priority => exact hkeep (keeps_setPriority o job priority)
  | setCategory job category => exact hkeep (keeps_setCategory o job category)
  | move job op => exact hkeep (keeps_moveJob o job op)
  | pauseAll => exact hkeep (.beside rfl ⟨rfl, rfl, rfl⟩)
  | resumeAll => exact hkeep (.beside rfl ⟨rfl, rfl, rfl⟩)
  | setMaxActiveDownloads n =>
    have hlimit : Keeps o { o with
        state := { o.state with maxActiveDownloads := clampActiveDownloads n } } :=
      .beside rfl ⟨rfl, rfl, rfl⟩
    refine hkeep (hlimit.trans (keeps_settleDownloadLabels ?_))
    exact JobsBy.wellKeyed (.refl chains_eq.refl _) rfl h.keyed
  | setJobStatus job status => exact hkeep (keeps_setJobStatus o job status)
  | enterPostStage job stage at' prev => exact hkeep (keeps_enterPostStage o job stage at' prev)
  | closePostStage job at' ms =>
    exact hkeep (.updateJob_same job (fun _ => rfl) (fun _ => rfl) fun _ => rfl)
  | unpauseParBlocks job picked => exact hkeep (keeps_unpauseParBlocks o hm picked)
  | setDownloadEnabled enabled => exact hkeep (.beside rfl ⟨rfl, rfl, rfl⟩)
  | importJob job records => exact (h.importJob records hfresh hm).tracked
  | importJobIfPresent job => exact (h.importJobIfPresent hfresh hm.1 hm.2).tracked
  | removeJobSilent job => exact hkeep (keeps_removeJobSilent h.keyed job)
  | setDelegated job delegated => exact hkeep (keeps_setDelegated o job delegated)
  | foldJobJournals job records => exact (h.foldJobJournals job records).tracked
  | adoptAuthority loaded records =>
    refine (h.adoptAuthority loaded records hfresh fun doc hdoc => ?_).tracked
    subst hdoc
    exact hm
  | adoptReplicatedAuthority jobs => exact hkeep (keeps_adoptReplicatedAuthority hm)
  | retainJobs keep => exact hkeep (keeps_retainJobs h.keyed keep)

end Owner

end Nzbd.Engine
