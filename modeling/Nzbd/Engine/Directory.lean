import Nzbd.Lib.Run
import Nzbd.Engine.Queue

/-!
# One storage directory for each job

Two jobs that share a directory write into each other's files.  `uniqueDirName`
keeps them apart by the id of the job, but it looks only at the wanted name: the
suffixed one may be the directory of a job that was called so to begin with, and
`completeUrlFetch` does not ask at all.

`QueueOp` lists what can happen to the queue, and `QueueOp.Fresh` the condition
under which a step keeps the directories apart: a suffixed name is not in use.
`oneDirectoryEach_of_run` says that a run of such steps never shares a
directory.

The second half is about recovery.  The repair of a snapshot decides from the
snapshot's totals whether a job has written anything, and the journal is folded
in afterwards.
-/

namespace Nzbd

open List Runs QueueState

def OneDirectoryEach (s : QueueState) : Prop := (s.jobs.map jobDirName).Nodup

instance (s : QueueState) : Decidable (OneDirectoryEach s) :=
  inferInstanceAs (Decidable (s.jobs.map jobDirName).Nodup)

/-! ### What can happen to the queue -/

inductive QueueOp
  | admitNzb (now : Int) (name : Text) (parsed : ParsedNzb) (category : Option Text)
      (priority : Int) (pauseExtraPars : Bool)
  | admitUrl (now : Int) (name url : Text) (category : Option Text) (priority : Int)
  | completeUrlFetch (id : JobId) (parsed : ParsedNzb) (pauseExtraPars : Bool)
  | reserveTorrentAdmission
  | cancelTorrentAdmission (id : JobId)
  | commitTorrentAdmission (now : Int) (id : JobId) (commit : TorrentAdmissionCommit)
  | setJobName (id : JobId) (name : Text) (storageToo provisional : Bool)
  | nameFromRequestor (id : JobId) (storageToo : Bool)
  | adoptLearnedName (id : JobId) (name : Text)
  /-- Whatever else happens to a job: downloads, pauses, edits. -/
  | edit (id : JobId) (files : List FileEntry) (status : JobStatus) (category : Option Text)
      (priority : Int) (params : List (Text × Text))
  | remove (id : JobId)
  /-- Through the snapshot and back. -/
  | reload (now : Int)

def QueueOp.apply (lower : Text → Text) (s : QueueState) : QueueOp → QueueState
  | .admitNzb now name parsed category priority pause =>
    s.admitNzb lower now name parsed category priority pause
  | .admitUrl now name url category priority => s.admitUrl now name url category priority
  | .completeUrlFetch id parsed pause => s.completeUrlFetch lower id parsed pause
  | .reserveTorrentAdmission => s.reserveTorrentAdmission
  | .cancelTorrentAdmission id => s.cancelTorrentAdmission id
  | .commitTorrentAdmission now id commit => s.commitTorrentAdmission now id commit
  | .setJobName id name storageToo provisional => s.setJobName id name storageToo provisional
  | .nameFromRequestor id storageToo => s.nameFromRequestor id storageToo
  | .adoptLearnedName id name => s.adoptLearnedName id name
  | .edit id files status category priority params =>
    s.updateJob id fun job => recomputeJobTotals { job with
      files := files, status := status, category := category, priority := priority
      params := params }
  | .remove id => s.removeJob id
  | .reload now => .fromDoc now s.toDoc

/-- The id a new job would get is not in use. -/
def FreshId (s : QueueState) : Prop :=
  succU32 s.nextJobId ∉ s.jobs.map (·.id) ++ s.pendingAdmissions

instance (s : QueueState) : Decidable (FreshId s) :=
  inferInstanceAs (Decidable (_ ∉ s.jobs.map (·.id) ++ s.pendingAdmissions))

def SuffixFree (jobs : List Job) (id : JobId) (want : Text) : Prop :=
  dirTaken jobs id want = true → dirTaken jobs id (suffixed want id) = false

/-- The same along the loop of the repair: a suffixed name is not that of a job
already visited, or of one that may not move. -/
def Separable (seen : List Job) : List Job → Prop
  | [] => True
  | j :: rest =>
    (j.untouched = true → dirTaken (seen ++ j :: rest) j.id j.dirName = true →
      ∀ k ∈ seen ++ rest.filter (!·.untouched), k.dirName ≠ suffixed j.dirName j.id) ∧
    Separable (seen ++ [separateDir (seen ++ j :: rest) j]) rest

/-- A rename moves the directory to a name that can be made distinct. -/
def RenameFree (s : QueueState) (id : JobId) (name : Text) : Prop :=
  ∀ job, s.job id = some job → name ≠ [] → name ≠ job.name →
    SuffixFree s.jobs id (sanitizeName name)

/-- **The condition on a step.** -/
def QueueOp.Fresh (s : QueueState) : QueueOp → Prop
  | .admitNzb _ name .. => FreshId s ∧ SuffixFree s.jobs (succU32 s.nextJobId) (sanitizeName name)
  | .admitUrl _ name .. => FreshId s ∧ SuffixFree s.jobs (succU32 s.nextJobId) (sanitizeName name)
  | .completeUrlFetch id parsed _ =>
    ∀ job real, s.job id = some job → job.status = .fetching →
      nameFromEvidence (QueueState.urlHint job) parsed = some real → real ≠ job.name →
      dirTaken s.jobs id (sanitizeName real) = false
  | .reserveTorrentAdmission => FreshId s
  | .commitTorrentAdmission _ id commit =>
    id ∈ s.pendingAdmissions → s.jobs.any (QueueState.isDuplicate commit) = false →
      SuffixFree s.jobs id (sanitizeName commit.name)
  | .setJobName id name storageToo _ => storageToo = true → RenameFree s id name
  | .nameFromRequestor id storageToo =>
    storageToo = true → ∀ job better, s.job id = some job → nameIsOpen job = true →
      requestorName job = some better → RenameFree s id better
  | .reload now => Separable [] ((s.jobs.map (Job.restore now)).map repairName)
  | .cancelTorrentAdmission _ => True
  | .adoptLearnedName .. => True
  | .edit .. => True
  | .remove _ => True

/-! ### The invariant -/

/-- Ids are distinct, and directories are set and distinct. -/
structure Sound (jobs : List Job) (pending : List JobId) : Prop where
  ids : (jobs.map (·.id) ++ pending).Nodup
  named : ∀ j ∈ jobs, j.dirName ≠ []
  dirs : (jobs.map (·.dirName)).Nodup

variable {jobs : List Job} {id : JobId}

theorem dirTaken_eq_false {want : Text} :
    dirTaken jobs id want = false ↔ ∀ j ∈ jobs, j.id ≠ id → j.dirName ≠ want := by
  simp [dirTaken]

theorem uniqueDirName_free {want : Text}
    (h : SuffixFree jobs id want) : dirTaken jobs id (uniqueDirName jobs id want) = false := by
  unfold uniqueDirName
  split
  · exact h ‹_›
  · simp_all

theorem uniqueDirName_ne_nil {want : Text} (h : want ≠ []) :
    uniqueDirName jobs id want ≠ [] := by
  unfold uniqueDirName
  split
  · simp [suffixed]
  · exact h

namespace Sound

variable {jobs : List Job} {pending : List JobId}

theorem oneDirectoryEach {s : QueueState} (h : Sound s.jobs s.pendingAdmissions) :
    OneDirectoryEach s := by
  have heq : s.jobs.map jobDirName = s.jobs.map (·.dirName) :=
    map_congr_left fun j hj => if_neg (h.named j hj)
  rw [OneDirectoryEach, heq]
  exact h.dirs

variable {j : Job}

theorem push (h : Sound jobs pending) (hid : j.id ∉ jobs.map (·.id) ++ pending)
    (hne : j.dirName ≠ []) (hd : dirTaken jobs j.id j.dirName = false) :
    Sound (jobs ++ [j]) pending where
  ids := by
    have hperm : ((jobs ++ [j]).map (·.id) ++ pending).Perm
        (j.id :: (jobs.map (·.id) ++ pending)) := by
      rw [map_append, append_assoc]
      exact perm_middle
    rw [hperm.nodup_iff]
    exact nodup_cons.mpr ⟨hid, h.ids⟩
  named := by
    intro k hk
    rcases mem_append.mp hk with hk | hk
    · exact h.named k hk
    · rw [mem_singleton.mp hk]; exact hne
  dirs := by
    rw [map_append]
    refine List.Nodup.append h.dirs (by simp) ?_
    intro d hd1 hd2
    obtain ⟨k, hk, rfl⟩ := mem_map.mp hd1
    have hkid : k.id ≠ j.id := by
      intro he
      exact hid (mem_append_left _ (he ▸ mem_map_of_mem hk))
    exact dirTaken_eq_false.mp hd k hk hkid (by simpa using hd2)

theorem modify (h : Sound jobs pending) {p : Job → Bool} {f : Job → Job}
    (hid : ∀ j, (f j).id = j.id)
    (hd : ∀ j, jobs.find? p = some j →
      (f j).dirName ≠ [] ∧ dirTaken jobs j.id (f j).dirName = false) :
    Sound (jobs.modifyFirst p f) pending := by
  cases hf : jobs.find? p with
  | none => rw [modifyFirst_of_find?_eq_none hf]; exact h
  | some a =>
    obtain ⟨hne, hfree⟩ := hd a hf
    obtain ⟨s, t, h1, h2, -, -⟩ := modifyFirst_split (f := f) hf
    refine ⟨?_, ?_, ?_⟩
    · rw [map_modifyFirst fun j _ => hid j]
      exact h.ids
    · intro j hj
      rcases mem_modifyFirst hj with hj | ⟨b, hb, rfl⟩
      · exact h.named j hj
      · exact (hd b hb).1
    · have hids := (nodup_append.mp h.ids).1
      have hdirs := h.dirs
      rw [h1, map_append, map_cons] at hids hdirs
      rw [h2, map_append, map_cons, nodup_middle, nodup_cons]
      rw [nodup_middle, nodup_cons] at hids hdirs
      refine ⟨?_, hdirs.2⟩
      intro hm
      rw [← map_append] at hm
      obtain ⟨k, hk, hkd⟩ := mem_map.mp hm
      have hkid : k.id ≠ a.id := by
        intro he
        rw [← map_append] at hids
        exact hids.1 (he ▸ mem_map_of_mem hk)
      have hkj : k ∈ jobs := by
        rw [h1]
        rcases mem_append.mp hk with hk | hk <;> simp [hk]
      exact dirTaken_eq_false.mp hfree k hkj hkid hkd

theorem own (h : Sound jobs pending) (hj : j ∈ jobs) :
    j.dirName ≠ [] ∧ dirTaken jobs j.id j.dirName = false := by
  refine ⟨h.named j hj, dirTaken_eq_false.mpr ?_⟩
  intro k hk hkid hkd
  have := inj_on_of_nodup_map h.dirs hk hj hkd
  exact hkid (this ▸ rfl)

theorem keep (h : Sound jobs pending) {p : Job → Bool} {f : Job → Job}
    (hid : ∀ j, (f j).id = j.id) (hdir : ∀ j, (f j).dirName = j.dirName) :
    Sound (jobs.modifyFirst p f) pending := by
  refine h.modify hid ?_
  intro j hj
  rw [hdir j]
  exact h.own (mem_of_find?_eq_some hj)

theorem sublist (h : Sound jobs pending) {jobs' : List Job} {pending' : List JobId}
    (hj : jobs'.Sublist jobs) (hp : pending'.Sublist pending) : Sound jobs' pending' where
  ids := h.ids.sublist ((hj.map _).append hp)
  named := fun j hm => h.named j (hj.subset hm)
  dirs := h.dirs.sublist (hj.map _)

theorem reserve (h : Sound jobs pending) (hid : id ∉ jobs.map (·.id) ++ pending) :
    Sound jobs (pending ++ [id]) where
  ids := by
    rw [← append_assoc]
    exact List.Nodup.append h.ids (by simp) (by simpa using hid)
  named := h.named
  dirs := h.dirs

end Sound

/-! ### The repair -/

@[simp] theorem restore_id (now : Int) (j : Job) : (j.restore now).id = j.id := rfl

@[simp] theorem restore_untouched (now : Int) (j : Job) :
    (j.restore now).untouched = j.untouched := rfl

@[simp] theorem renameJob_id (j : Job) (name : Text) (storageToo provisional : Bool) :
    (renameJob j name storageToo provisional).id = j.id := by
  unfold renameJob; split <;> rfl

@[simp] theorem renameJob_untouched (j : Job) (name : Text) (storageToo provisional : Bool) :
    (renameJob j name storageToo provisional).untouched = j.untouched := by
  unfold renameJob; split <;> rfl

theorem renameJob_dirName_keep (j : Job) (name : Text) (provisional : Bool) :
    (renameJob j name false provisional).dirName = j.dirName := by
  unfold renameJob; split <;> rfl

theorem renameJob_dirName_move {name : Text} (provisional : Bool) (hne : name ≠ [])
    (hj : name ≠ j.name) : (renameJob j name true provisional).dirName = sanitizeName name := by
  rw [renameJob, if_neg (by simp [hne, hj])]
  rfl

theorem renameJob_ne_nil (h : j.dirName ≠ []) (name : Text)
    (storageToo provisional : Bool) : (renameJob j name storageToo provisional).dirName ≠ [] := by
  unfold renameJob
  split
  · exact h
  · cases storageToo
    · exact h
    · exact sanitizeName_ne_nil name

@[simp] theorem repairName_id (j : Job) : (repairName j).id = j.id := by
  unfold repairName
  split
  · split
    · exact renameJob_id ..
    · rfl
  · rfl

@[simp] theorem repairName_untouched (j : Job) : (repairName j).untouched = j.untouched := by
  unfold repairName
  split
  · split
    · exact renameJob_untouched ..
    · rfl
  · rfl

theorem repairName_ne_nil (h : j.dirName ≠ []) : (repairName j).dirName ≠ [] := by
  unfold repairName
  split
  · split
    · exact renameJob_ne_nil h _ _ _
    · exact h
  · exact h

theorem repairName_dirName (h : j.untouched = false) :
    (repairName j).dirName = j.dirName := by
  unfold repairName
  split
  · split
    · rw [h]; exact renameJob_dirName_keep ..
    · rfl
  · rfl

@[simp] theorem separateDir_id (jobs : List Job) (j : Job) : (separateDir jobs j).id = j.id := by
  unfold separateDir; split <;> rfl

theorem separateDir_ne_nil (h : j.dirName ≠ []) :
    (separateDir jobs j).dirName ≠ [] := by
  unfold separateDir
  split
  · exact h
  · exact uniqueDirName_ne_nil h

theorem separateDir_of_touched (h : j.untouched = false) :
    separateDir jobs j = j := if_pos (.inr h)

theorem separateDirs_ids (rest seen : List Job) :
    (separateDirs seen rest).map (·.id) = (seen ++ rest).map (·.id) := by
  induction rest generalizing seen with
  | nil => rw [separateDirs, append_nil]
  | cons j rest ih => rw [separateDirs, ih]; simp

/-- **The loop keeps directories apart.**  What it has visited and what may not
move are apart at each turn; the job it visits joins them. -/
theorem separateDirs_dirs (rest seen : List Job) (hsep : Separable seen rest)
    (hids : ((seen ++ rest).map (·.id)).Nodup) (hne : ∀ j ∈ seen ++ rest, j.dirName ≠ [])
    (hdirs : ((seen ++ rest.filter (!·.untouched)).map (·.dirName)).Nodup) :
    (∀ j ∈ separateDirs seen rest, j.dirName ≠ []) ∧
      ((separateDirs seen rest).map (·.dirName)).Nodup := by
  induction rest generalizing seen with
  | nil =>
    rw [separateDirs]
    exact ⟨by simpa using hne, by simpa using hdirs⟩
  | cons j rest ih =>
    obtain ⟨hj, hrest⟩ := hsep
    rw [separateDirs]
    refine ih _ hrest (by simpa using hids) ?_ ?_
    · intro k hk
      simp only [mem_append, mem_singleton] at hk
      rcases hk with (hk | rfl) | hk
      · exact hne k (by simp [hk])
      · exact separateDir_ne_nil (hne j (by simp))
      · exact hne k (by simp [hk])
    · cases hu : j.untouched with
      | false =>
        rw [separateDir_of_touched hu, append_assoc]
        rwa [filter_cons_of_pos (by simp [hu])] at hdirs
      | true =>
        rw [filter_cons_of_neg (by simp [hu])] at hdirs
        rw [append_assoc, map_append, singleton_append, map_cons,
          nodup_middle, nodup_cons, ← map_append]
        refine ⟨?_, hdirs⟩
        intro hm
        obtain ⟨k, hk, hkd⟩ := mem_map.mp hm
        rw [separateDir, if_neg (by simp [hu, hne j])] at hkd
        simp only [uniqueDirName] at hkd
        split at hkd
        · exact hj hu ‹_› k hk hkd
        · -- the directory is not taken, and every other job has another id
          have hfree : dirTaken (seen ++ j :: rest) j.id j.dirName = false := by simp_all
          have hkmem : k ∈ seen ++ rest := by
            rcases mem_append.mp hk with hk | hk
            · exact mem_append_left _ hk
            · exact mem_append_right _ (mem_filter.mp hk).1
          have hkid : k.id ≠ j.id := by
            rw [map_append, map_cons, nodup_middle, nodup_cons,
              ← map_append] at hids
            intro he
            exact hids.1 (he ▸ mem_map_of_mem hkmem)
          refine dirTaken_eq_false.mp hfree k ?_ hkid hkd
          rcases mem_append.mp hkmem with h | h <;> simp [h]

theorem Sound.repair {pending : List JobId} (h : Sound jobs pending) (now : Int)
    (hsep : Separable [] ((jobs.map (Job.restore now)).map repairName)) :
    Sound (repairNamesAndDirectories (jobs.map (Job.restore now))) pending := by
  have hids : ((jobs.map (Job.restore now)).map repairName).map (·.id) = jobs.map (·.id) := by
    simp [Function.comp_def]
  have hfilter : (((jobs.map (Job.restore now)).map repairName).filter (!·.untouched)).map
      (·.dirName) = (jobs.filter (!·.untouched)).map (·.dirName) := by
    rw [map_map, filter_map, map_map]
    have hp : ((fun j : Job => !j.untouched) ∘ (repairName ∘ Job.restore now)) =
        fun j => !j.untouched := by
      funext j; simp
    rw [hp]
    refine map_congr_left fun j hj => ?_
    have hu : j.untouched = false := by simpa using (mem_filter.mp hj).2
    exact repairName_dirName (j := j.restore now) hu
  obtain ⟨hne, hdirs⟩ := separateDirs_dirs _ [] hsep
    (by rw [nil_append, hids]; exact (nodup_append.mp h.ids).1)
    (by
      intro j hj
      simp only [nil_append, mem_map] at hj
      obtain ⟨k, ⟨i, hi, rfl⟩, rfl⟩ := hj
      exact repairName_ne_nil (h.named i hi))
    (by
      rw [nil_append, hfilter]
      exact h.dirs.sublist (filter_sublist.map _))
  refine ⟨?_, hne, hdirs⟩
  rw [repairNamesAndDirectories, separateDirs_ids, nil_append, hids]
  exact h.ids

/-! ### Runs -/

theorem job_find {s : QueueState} (h : s.job id = some j) : j.id = id := by
  simpa using find?_some h

theorem renamed_id (jobs : List Job) (name : Text) (storageToo provisional : Bool) (j : Job) :
    (QueueState.renamed jobs name storageToo provisional j).id = j.id := by
  unfold renamed
  split
  · exact renameJob_id ..
  · exact renameJob_id ..

theorem Sound.setJobName {s : QueueState} (h : Sound s.jobs s.pendingAdmissions)
    {name : Text} {storageToo : Bool} (provisional : Bool)
    (hfree : storageToo = true → RenameFree s id name) :
    Sound (s.setJobName id name storageToo provisional).jobs s.pendingAdmissions := by
  refine h.modify (renamed_id _ _ _ _) ?_
  intro j hj
  have hjid : j.id = id := job_find hj
  have hown := h.own (mem_of_find?_eq_some hj)
  cases hst : storageToo with
  | false =>
    have hd : (renamed s.jobs name false provisional j).dirName = j.dirName :=
      renameJob_dirName_keep ..
    rw [hd]
    exact hown
  | true =>
    have hd : (renamed s.jobs name true provisional j).dirName =
        uniqueDirName s.jobs j.id (renameJob j name true provisional).dirName := by
      simp [renamed]
    rw [hd]
    refine ⟨uniqueDirName_ne_nil (renameJob_ne_nil hown.1 _ _ _), uniqueDirName_free ?_⟩
    by_cases hname : name = [] ∨ name = j.name
    · -- nothing changes, and the job's own directory is free
      rw [renameJob, if_pos hname]
      intro ht
      rw [hown.2] at ht
      exact absurd ht (by simp)
    · rw [not_or] at hname
      rw [renameJob_dirName_move provisional hname.1 hname.2, hjid]
      exact hfree hst j hj hname.1 hname.2

theorem nameFetched_id (parsed : ParsedNzb) (j : Job) :
    (QueueState.nameFetched parsed j).id = j.id := by
  unfold nameFetched
  split
  · exact renameJob_id ..
  · split <;> rfl

theorem informative_ne_nil {c real : Text} (h : informative c = some real) : real ≠ [] := by
  simp only [informative] at h
  split at h
  · simp_all
  · simp at h

theorem nameFromEvidence_ne_nil {raw real : Text} {nzb : ParsedNzb}
    (h : nameFromEvidence raw nzb = some real) : real ≠ [] := by
  rw [nameFromEvidence, Option.or_eq_some_iff] at h
  rcases h with h | ⟨-, h⟩
  · exact informative_ne_nil h
  · obtain ⟨c, -, hc⟩ := exists_of_findSome?_eq_some h
    obtain ⟨d, -, hd⟩ := Option.bind_eq_some_iff.mp hc
    exact informative_ne_nil hd

/-- The NZB of a URL job moves the directory to the sanitized evidence, or leaves
it. -/
theorem nameFetched_dirName (parsed : ParsedNzb) (j : Job) :
    (QueueState.nameFetched parsed j).dirName = j.dirName ∨
      ∃ real, nameFromEvidence (QueueState.urlHint j) parsed = some real ∧ real ≠ j.name ∧
        (QueueState.nameFetched parsed j).dirName = sanitizeName real := by
  unfold nameFetched
  split
  next real hreal =>
    by_cases hname : real = j.name
    · left
      rw [renameJob, if_pos (.inr hname)]
    · right
      exact ⟨real, hreal, hname, renameJob_dirName_move _ (nameFromEvidence_ne_nil hreal) hname⟩
  next => left; split <;> rfl

theorem fillFetched_id (parsed : ParsedNzb) (files : List FileEntry) (j : Job) :
    (QueueState.fillFetched parsed files j).id = j.id := by
  simp only [fillFetched, recomputeJobTotals, nameFetched_id]

theorem fillFetched_dirName (parsed : ParsedNzb) (files : List FileEntry) (j : Job) :
    (QueueState.fillFetched parsed files j).dirName =
      (QueueState.nameFetched parsed
        { j with category := j.category.or parsed.category }).dirName := by
  simp only [fillFetched, recomputeJobTotals]

theorem Sound.completeUrlFetch {s : QueueState} (h : Sound s.jobs s.pendingAdmissions)
    {lower : Text → Text} {parsed : ParsedNzb} {pause : Bool}
    (hfree : (QueueOp.completeUrlFetch id parsed pause).Fresh s) :
    Sound (s.completeUrlFetch lower id parsed pause).jobs s.pendingAdmissions := by
  simp only [QueueState.completeUrlFetch]
  split
  · exact h
  next j hj =>
    split
    · exact h
    next hst =>
    refine h.modify (fillFetched_id parsed _) ?_
    intro k hk
    rw [fillFetched_dirName]
    obtain rfl : k = j := Option.some.inj (hk.symm.trans hj)
    rcases nameFetched_dirName parsed { k with category := k.category.or parsed.category } with
      hd | ⟨real, hreal, hname, hd⟩
    · have hown := h.own (mem_of_find?_eq_some hk)
      rw [hd]
      exact hown
    · rw [hd, job_find hk]
      exact ⟨sanitizeName_ne_nil real, hfree k real hk (by simpa using hst) hreal hname⟩

/-- **One step.** -/
theorem Sound.apply {lower : Text → Text} {s : QueueState} {op : QueueOp}
    (h : Sound s.jobs s.pendingAdmissions) (hok : op.Fresh s) :
    Sound (op.apply lower s).jobs (op.apply lower s).pendingAdmissions := by
  cases op with
  | admitNzb now name parsed category priority pause =>
    exact h.push hok.1 (uniqueDirName_ne_nil (sanitizeName_ne_nil name)) (uniqueDirName_free hok.2)
  | admitUrl now name url category priority =>
    exact h.push hok.1 (uniqueDirName_ne_nil (sanitizeName_ne_nil name)) (uniqueDirName_free hok.2)
  | completeUrlFetch id parsed pause =>
    have hp : (s.completeUrlFetch lower id parsed pause).pendingAdmissions =
        s.pendingAdmissions := by
      simp only [QueueState.completeUrlFetch]
      split
      · rfl
      · split <;> rfl
    simp only [QueueOp.apply]
    rw [hp]
    exact h.completeUrlFetch hok
  | reserveTorrentAdmission => exact h.reserve hok
  | cancelTorrentAdmission id => exact h.sublist (List.Sublist.refl _) filter_sublist
  | commitTorrentAdmission now id commit =>
    simp only [QueueOp.apply, commitTorrentAdmission]
    split
    · exact h
    · split
      · refine Sound.sublist ?_ (List.Sublist.refl _) filter_sublist
        exact h.keep (fun _ => rfl) (fun _ => rfl)
      next hin hdup =>
      have hin : id ∈ s.pendingAdmissions := by simpa using hin
      have hsub := h.sublist (List.Sublist.refl _) (filter_sublist (p := (· ≠ id)))
      refine hsub.push ?_ (uniqueDirName_ne_nil (sanitizeName_ne_nil _))
        (uniqueDirName_free (hok hin (by simpa using hdup)))
      -- a reserved id is not that of a job
      intro hm
      rcases mem_append.mp hm with hm | hm
      · exact (nodup_append.mp h.ids).2.2 _ hm _ hin rfl
      · exact absurd (mem_filter.mp hm).2 (by simp [newJob])
  | setJobName id name storageToo provisional => exact h.setJobName provisional hok
  | nameFromRequestor id storageToo =>
    simp only [QueueOp.apply, nameFromRequestor]
    split
    · exact h
    · split
      · exact h
      · split
        · exact h
        next j hj hopen _ better hb =>
        exact h.setJobName true fun hst => hok hst j better hj (by simpa using hopen) hb
  | adoptLearnedName id name =>
    simp only [QueueOp.apply, adoptLearnedName]
    split
    · exact h
    · split
      · exact h.setJobName false (by simp)
      · exact h
  | edit id files status category priority params => exact h.keep (fun _ => rfl) (fun _ => rfl)
  | remove id => exact h.sublist filter_sublist (List.Sublist.refl _)
  | reload now => exact h.repair now hok

/-- The states a run from the empty queue reaches by steps that meet a
condition. -/
def QueueRun (lower : Text → Text) (ok : QueueState → QueueOp → Prop) : QueueState → Prop :=
  Run (· = .default) (fun s op t => t = op.apply lower s) ok

theorem sound_default : Sound QueueState.default.jobs QueueState.default.pendingAdmissions :=
  ⟨nodup_nil, fun _ h => absurd h (by simp [QueueState.default]), nodup_nil⟩

/-- **One directory for each job.**  As long as no step suffixes a name into one
that is in use, and the NZB of a URL job does not name another job's directory,
no two jobs share a directory. -/
theorem oneDirectoryEach_of_run (lower : Text → Text) (s : QueueState)
    (h : QueueRun lower (fun s op => op.Fresh s) s) : OneDirectoryEach s := by
  have hs : Sound s.jobs s.pendingAdmissions := by
    apply Run.invariant (P := fun s => Sound s.jobs s.pendingAdmissions) _ _ h
    · rintro s rfl
      exact sound_default
    · rintro s op t hs hok rfl
      exact hs.apply hok
  exact hs.oneDirectoryEach

def addNamed (name : String) : QueueOp := .admitNzb 0 (text name) ⟨none, none, none, []⟩ none 0 true

/-- The second job called `x` gets the directory `x.2`. -/
theorem oneDirectoryEach_sameName :
    OneDirectoryEach ((addNamed "x").apply toAsciiLowercase
      ((addNamed "x").apply toAsciiLowercase .default)) := by
  have h1 : (addNamed "x").Fresh .default := by
    refine ⟨by decide +kernel, ?_⟩
    intro ht
    exact absurd ht (by decide +kernel)
  have h2 : (addNamed "x").Fresh ((addNamed "x").apply toAsciiLowercase .default) :=
    ⟨by decide +kernel, fun _ => by decide +kernel⟩
  exact oneDirectoryEach_of_run toAsciiLowercase _
    (.step (.step (.start rfl) h1 rfl) h2 rfl)

/-- After `x` and `x.3`, the third job wants `x` and is sent to `x.3`. -/
theorem not_oneDirectoryEach_suffixInUse :
    ¬ ∀ s, QueueRun toAsciiLowercase (fun _ _ => True) s → OneDirectoryEach s := by
  intro h
  have hrun := h _ (.step (i := addNamed "x") (.step (i := addNamed "x.3")
    (.step (i := addNamed "x") (.start rfl) trivial rfl) trivial rfl) trivial rfl)
  exact absurd hrun (by decide +kernel)

end Nzbd
