import Nzbd.Engine.Directory
import Nzbd.Engine.Rows
import Nzbd.State.Journal

/-!
# Recovery

At startup the owner reads the snapshot and folds the journal into it.  A record
marks its segment done, unless it is done already; then the totals are counted
anew.

The snapshot is repaired before the journal is read.  So the repair takes a job
whose only written segments are in the journal for one that has written nothing,
and may move its directory: `keepsDirectories_iff_staysPut` says when it does
not.
-/

namespace Nzbd

open List
open Nzbd.State (JournalRecord)

/-! ### Folding the journal -/

/-- Done, unless it is done already. -/
def Segment.markDone (r : JournalRecord) (s : Segment) : Segment :=
  if s.state.isDone then s else { s with state := .done r.offset r.len r.crc32 }

def Job.replay (r : JournalRecord) (j : Job) : Job :=
  j.updateFile r.file (·.updateSegment r.segmentNumber (Segment.markDone r))

def replayRecord (jobs : List Job) (r : JournalRecord) : List Job :=
  jobs.modifyFirst (·.id = r.job) (Job.replay r)

/-- The size of the output file of each file, as far as it is known. -/
abbrev FileSizes := FileId → Option Nat

def recordSize (sizes : FileSizes) (r : JournalRecord) : FileSizes :=
  if 0 < r.fileSize then Function.update sizes r.file (some r.fileSize) else sizes

/-- What the owner starts from. -/
structure Recovered where
  state : QueueState
  fileSizes : FileSizes

def QueueState.replayAll (s : QueueState) (records : List JournalRecord) : QueueState :=
  { s with jobs := records.foldl replayRecord s.jobs }

def recover (now : Int) (doc : QueueSnapshotDoc) (records : List JournalRecord) : Recovered where
  state := ((QueueState.fromDoc now doc).replayAll records).recomputeAllTotals
  fileSizes := records.foldl recordSize fun _ => none

def Job.hasAnyDone (j : Job) : Bool := j.files.any FileEntry.hasAnyDone

/-! ### What the journal changes -/

variable (r : JournalRecord)

theorem replay_dirName (j : Job) : jobDirName (j.replay r) = jobDirName j := rfl

theorem foldl_replay_jobDirName (records : List JournalRecord) (jobs : List Job) :
    (records.foldl replayRecord jobs).map jobDirName = jobs.map jobDirName := by
  induction records generalizing jobs with
  | nil => rfl
  | cons r records ih =>
    rw [foldl_cons, ih, replayRecord, map_modifyFirst fun j _ => replay_dirName r j]

/-- Both are done, or neither is. -/
def SameDone (a b : SegmentState) : Prop := a.isDone = b.isDone

theorem markDone_isDone (s : Segment) : (s.markDone r).state.isDone = true := by
  unfold Segment.markDone
  split
  · assumption
  · rfl

theorem markDone_number (s : Segment) : (s.markDone r).number = s.number := by
  unfold Segment.markDone
  split <;> rfl

theorem SegBy.markDone {s t : Segment} (h : SegBy SameDone s t) :
    SegBy SameDone (s.markDone r) (t.markDone r) where
  number := by rw [markDone_number, markDone_number, h.number]
  state := by rw [SameDone, markDone_isDone, markDone_isDone]

theorem FileBy.replay {f g : FileEntry} (h : FileBy SameDone f g) :
    FileBy SameDone (f.updateSegment r.segmentNumber (Segment.markDone r))
      (g.updateSegment r.segmentNumber (Segment.markDone r)) where
  id := h.id
  segments := forall₂_modifyFirst (fun _ _ ha => by rw [ha.number])
    (fun _ _ ha => ha.markDone r) h.segments

theorem JobBy.replay {j k : Job} (h : JobBy SameDone j k) :
    JobBy SameDone (j.replay r) (k.replay r) where
  id := h.id
  files := forall₂_modifyFirst (fun _ _ ha => by rw [ha.id]) (fun _ _ ha => ha.replay r) h.files

theorem JobsBy.foldl_replay {jobs jobs' : List Job} (records : List JournalRecord)
    (h : JobsBy SameDone jobs jobs') :
    JobsBy SameDone (records.foldl replayRecord jobs) (records.foldl replayRecord jobs') := by
  induction records generalizing jobs jobs' with
  | nil => exact h
  | cons r records ih =>
    exact ih (forall₂_modifyFirst (fun _ _ ha => by rw [ha.id]) (fun _ _ ha => ha.replay r) h)

theorem any_of_forall₂ {α β : Type*} {P : α → β → Prop} {p : α → Bool} {q : β → Bool}
    {l : List α} {m : List β} (h : List.Forall₂ P l m) (hp : ∀ a b, P a b → p a = q b) :
    l.any p = m.any q := by
  induction h with
  | nil => rfl
  | cons hab _ ih => rw [any_cons, any_cons, hp _ _ hab, ih]

theorem JobBy.hasAnyDone {j k : Job} (h : JobBy SameDone j k) : j.hasAnyDone = k.hasAnyDone :=
  any_of_forall₂ h.files fun _ _ hf => any_of_forall₂ hf.segments fun _ _ hs => hs.state

/-- What `restore` makes of the state of a segment. -/
def Restores (a b : SegmentState) : Prop :=
  (b = a ∧ a.isLeased = false) ∨ (a.isLeased = true ∧ b = .pending)

theorem Restores.sameDone {a b : SegmentState} (h : Restores a b) : SameDone a b := by
  rcases h with ⟨rfl, -⟩ | ⟨ha, rfl⟩
  · rfl
  · cases a with
    | leased server => rfl
    | _ => simp [SegmentState.isLeased] at ha

theorem releaseLease_restores (x : Segment) : Restores x.state x.releaseLease.state := by
  unfold Segment.releaseLease
  split
  next server hx => exact .inr ⟨by rw [hx]; rfl, rfl⟩
  next hx =>
    refine .inl ⟨rfl, ?_⟩
    cases h : x.state with
    | leased server => exact absurd h (hx server)
    | _ => rfl

theorem releaseLease_number (x : Segment) : x.releaseLease.number = x.number := by
  unfold Segment.releaseLease
  split <;> rfl

theorem FileBy.releaseLeases (f : FileEntry) : FileBy Restores f f.releaseLeases := by
  refine ⟨rfl, ?_⟩
  rw [FileEntry.releaseLeases, forall₂_map_right_iff, forall₂_same]
  exact fun s _ => ⟨(releaseLease_number s).symm, releaseLease_restores s⟩

theorem JobBy.restore (now : Int) (j : Job) : JobBy Restores j (j.restore now) where
  id := rfl
  files := by
    rw [Job.restore, forall₂_map_right_iff, forall₂_same]
    exact fun f _ => .releaseLeases f

theorem renameJob_files (j : Job) (name : Text) (storageToo provisional : Bool) :
    (renameJob j name storageToo provisional).files = j.files := by
  unfold renameJob; split <;> rfl

theorem repairName_files (j : Job) : (repairName j).files = j.files := by
  unfold repairName
  split
  · split
    · exact renameJob_files ..
    · rfl
  · rfl

/-! ### The repair on the snapshot -/

/-- The name that the files of a job imply, if its own is open and another one. -/
def impliedName (d : Job) : Option Text :=
  (nameFromFiles (d.files.map (·.filename))).filter fun real =>
    nameIsOpen d ∧ real ≠ [] ∧ real ≠ d.name

/-- The directory of a job goes with its name as long as the totals count no success. -/
def storedDir (d : Job) : Text :=
  if d.untouched then ((impliedName d).map sanitizeName).getD d.dirName else d.dirName

def usedDir (x : Job × Text) : Text :=
  if x.2 = [] then sanitizeName ((impliedName x.1).getD x.1.name) else x.2

def askedDir (d : Job) : Text := usedDir (d, storedDir d)

/-- Does another job of the snapshot have the directory? -/
def hasAnother (dirs : List (Job × Text)) (d : Job) (dir : Text) : Bool :=
  dirs.any fun x => x.1.id ≠ d.id && x.2 = dir

/-- The id goes behind a directory that another job has, as long as the totals
count no success. -/
def ownDir (dirs : List (Job × Text)) (x : Job × Text) : Job × Text :=
  if x.1.untouched ∧ x.2 ≠ [] ∧ hasAnother dirs x.1 x.2 then (x.1, suffixed x.2 x.1.id) else x

/-- The directories before the `i`-th job gets its own. -/
def dirsAt (jobs : List Job) : Nat → List (Job × Text)
  | 0 => jobs.map fun d => (d, storedDir d)
  | i + 1 => (dirsAt jobs i).modify i (ownDir (dirsAt jobs i))

theorem getElem?_dirsAt (jobs : List Job) (n i : Nat) :
    (dirsAt jobs n)[i]? = (jobs[i]?).map fun d =>
      if i < n then ownDir (dirsAt jobs i) (d, storedDir d) else (d, storedDir d) := by
  induction n with
  | zero => simp [dirsAt]
  | succ n ih =>
    rw [dirsAt, getElem?_modify, ih]
    rcases Nat.lt_trichotomy i n with h | rfl | h
    · simp [h, Nat.ne_of_gt h, Nat.lt_succ_of_lt h]
    · simp [Function.comp_def]
    · simp [Nat.ne_of_lt h, Nat.not_lt_of_gt h, Nat.not_lt_of_ge (Nat.succ_le_of_lt h)]

theorem map_fst_dirsAt (jobs : List Job) (n : Nat) : (dirsAt jobs n).map (·.1) = jobs := by
  refine ext_getElem? fun i => ?_
  rw [getElem?_map, getElem?_dirsAt]
  cases jobs[i]? with
  | none => rfl
  | some d =>
    simp only [Option.map_some, ownDir]
    split_ifs <;> rfl

theorem repairName_restore (now : Int) (d : Job) :
    (repairName (d.restore now)).name = (impliedName d).getD d.name ∧
      (repairName (d.restore now)).dirName = storedDir d := by
  have hfiles : (d.restore now).files.map (·.filename) = d.files.map (·.filename) := by
    rw [Job.restore, map_map]
    rfl
  have hopen : nameIsOpen (d.restore now) = nameIsOpen d := rfl
  unfold storedDir impliedName repairName
  rw [hfiles, hopen, restore_untouched]
  cases nameFromFiles (d.files.map (·.filename)) with
  | none => cases nameIsOpen d <;> simp [Job.restore]
  | some real =>
    by_cases hnew : nameIsOpen d = true ∧ real ≠ [] ∧ real ≠ d.name
    · have hrename : ¬ (real = [] ∨ real = (d.restore now).name) := not_or.mpr hnew.2
      rw [if_pos hnew.1, Option.filter_some, if_pos (decide_eq_true hnew)]
      simp only [renameJob, if_neg hrename]
      exact ⟨rfl, rfl⟩
    · have hsame : nameIsOpen d = true → real = [] ∨ real = (d.restore now).name :=
        fun ho => not_not.mp fun hne => hnew ⟨ho, not_or.mp hne⟩
      rw [Option.filter_some, if_neg fun h => hnew (of_decide_eq_true h)]
      split
      next ho =>
        simp only [renameJob, if_pos (hsame ho)]
        simp [Job.restore]
      next => simp [Job.restore]

/-- A job in the loop of the repair, and what the snapshot has in its place. -/
structure Stands (j : Job) (x : Job × Text) : Prop where
  job : JobBy Restores x.1 j
  untouched : j.untouched = x.1.untouched
  name : j.name = (impliedName x.1).getD x.1.name
  dirName : j.dirName = x.2

theorem Stands.separateDir {jobs : List Job} {dirs : List (Job × Text)}
    (hall : List.Forall₂ Stands jobs dirs) {j : Job} {x : Job × Text} (h : Stands j x) :
    Stands (separateDir jobs j) (ownDir dirs x) := by
  have htaken : dirTaken jobs x.1.id x.2 = hasAnother dirs x.1 x.2 :=
    any_of_forall₂ hall fun _ _ hx => by rw [← hx.job.id, hx.dirName]
  unfold Nzbd.separateDir ownDir uniqueDirName
  rw [h.untouched, h.dirName, ← h.job.id, htaken]
  by_cases hskip : x.2 = [] ∨ x.1.untouched = false
  · rw [if_pos hskip, if_neg fun ⟨hu, hne, _⟩ => hskip.elim hne (by simp [hu])]
    exact h
  · obtain ⟨hne, hu⟩ := not_or.mp hskip
    rw [Bool.not_eq_false] at hu
    rw [if_neg hskip]
    by_cases hother : hasAnother dirs x.1 x.2 = true
    · rw [if_pos hother, if_pos ⟨hu, hne, hother⟩]
      exact ⟨⟨rfl, h.job.files⟩, h.untouched, h.name, rfl⟩
    · rw [if_neg hother, if_neg fun ho => hother ho.2.2]
      exact ⟨⟨rfl, h.job.files⟩, h.untouched, h.name, rfl⟩

theorem forall₂_modify {α β : Type*} {R : α → β → Prop} {f : α → α} {g : β → β} {l : List α}
    {m : List β} (h : List.Forall₂ R l m) (hfg : ∀ a b, R a b → R (f a) (g b)) (i : Nat) :
    List.Forall₂ R (l.modify i f) (m.modify i g) := by
  induction h generalizing i with
  | nil => cases i <;> exact .nil
  | cons hab hrest ih =>
    cases i with
    | zero => exact .cons (hfg _ _ hab) hrest
    | succ i => exact .cons hab (ih i)

theorem modify_length_append (seen : List Job) (j : Job) (rest : List Job) (f : Job → Job) :
    (seen ++ j :: rest).modify seen.length f = seen ++ f j :: rest := by
  induction seen with
  | nil => rfl
  | cons a seen ih => rw [length_cons, cons_append, modify_succ_cons, ih]; rfl

/-- **The loop of the repair** gives the jobs what it gives them on the snapshot. -/
theorem Stands.separateDirs {jobs : List Job} (rest seen : List Job)
    (h : List.Forall₂ Stands (seen ++ rest) (dirsAt jobs seen.length)) :
    List.Forall₂ Stands (separateDirs seen rest) (dirsAt jobs jobs.length) := by
  induction rest generalizing seen with
  | nil =>
    have hlen := congrArg length (map_fst_dirsAt jobs seen.length)
    rw [length_map, ← h.length_eq, append_nil] at hlen
    rwa [append_nil, hlen] at h
  | cons j rest ih =>
    rw [Nzbd.separateDirs]
    refine ih _ ?_
    have hnext := forall₂_modify h (fun _ _ hx => hx.separateDir h) seen.length
    rw [modify_length_append] at hnext
    rw [append_assoc, singleton_append, length_append, length_singleton]
    exact hnext

theorem stands_fromDoc (now : Int) (doc : QueueSnapshotDoc) :
    List.Forall₂ Stands (QueueState.fromDoc now doc).jobs (dirsAt doc.jobs doc.jobs.length) := by
  refine Stands.separateDirs _ [] ?_
  rw [nil_append, length_nil, dirsAt, map_map, forall₂_map_left_iff, forall₂_map_right_iff,
    forall₂_same]
  intro d _
  obtain ⟨hname, hdir⟩ := repairName_restore now d
  rw [Function.comp_apply]
  refine ⟨⟨?_, ?_⟩, ?_, hname, hdir⟩
  · rw [repairName_id, restore_id]
  · rw [repairName_files]
    exact (JobBy.restore now d).files
  · rw [repairName_untouched, restore_untouched]

/-- **The repair leaves the rows alone**, but for the leases. -/
theorem JobsBy.fromDoc (now : Int) (doc : QueueSnapshotDoc) :
    JobsBy Restores doc.jobs (QueueState.fromDoc now doc).jobs := by
  have h : List.Forall₂ (fun j d => JobBy Restores d j) (QueueState.fromDoc now doc).jobs
      ((dirsAt doc.jobs doc.jobs.length).map (·.1)) :=
    forall₂_map_right_iff.mpr ((stands_fromDoc now doc).imp fun _ _ hx => hx.job)
  rw [map_fst_dirsAt] at h
  exact h.flip

theorem map_jobDirName_fromDoc (now : Int) (doc : QueueSnapshotDoc) :
    (QueueState.fromDoc now doc).jobs.map jobDirName =
      (dirsAt doc.jobs doc.jobs.length).map usedDir := by
  rw [← forall₂_eq_eq_eq, forall₂_map_left_iff, forall₂_map_right_iff]
  exact (stands_fromDoc now doc).imp fun _ _ hx => by rw [jobDirName, hx.dirName, hx.name, usedDir]

/-! ### Directories through recovery -/

/-- Every job with a written segment has the directory it had in the
snapshot. -/
def KeepsDirectories (now : Int) (doc : QueueSnapshotDoc) (records : List JournalRecord) : Prop :=
  ∀ (i : Nat) (d r : Job), doc.jobs[i]? = some d →
    (recover now doc records).state.jobs[i]? = some r →
    r.hasAnyDone = true → jobDirName r = jobDirName d

/-- A segment of the job is done in the snapshot, or a record says so. -/
def WrittenAt (doc : QueueSnapshotDoc) (records : List JournalRecord) (i : Nat) : Prop :=
  ∃ w, (records.foldl replayRecord doc.jobs)[i]? = some w ∧ w.hasAnyDone = true

/-- The totals count no success for the job, and another one has its directory. -/
def Evicted (doc : QueueSnapshotDoc) (i : Nat) (d : Job) : Prop :=
  d.untouched = true ∧ storedDir d ≠ [] ∧ hasAnother (dirsAt doc.jobs i) d (storedDir d) = true

instance (doc : QueueSnapshotDoc) (i : Nat) (d : Job) : Decidable (Evicted doc i d) :=
  inferInstanceAs (Decidable (_ ∧ _ ∧ _))

/-- **The condition.**  A job with a written segment asks for the directory it has,
and nobody else has it. -/
def StaysPut (doc : QueueSnapshotDoc) (records : List JournalRecord) : Prop :=
  ∀ (i : Nat) (d : Job), doc.jobs[i]? = some d → WrittenAt doc records i →
    if Evicted doc i d then suffixed (storedDir d) d.id = jobDirName d
    else askedDir d = jobDirName d

theorem usedDir_ownDir (doc : QueueSnapshotDoc) (i : Nat) (d : Job) :
    usedDir (ownDir (dirsAt doc.jobs i) (d, storedDir d)) =
      if Evicted doc i d then suffixed (storedDir d) d.id else askedDir d := by
  by_cases hev : Evicted doc i d
  · have hown : ownDir (dirsAt doc.jobs i) (d, storedDir d) = (d, suffixed (storedDir d) d.id) :=
      if_pos hev
    rw [if_pos hev, hown]
    exact if_neg (by simp [suffixed])
  · have hown : ownDir (dirsAt doc.jobs i) (d, storedDir d) = (d, storedDir d) := if_neg hev
    rw [if_neg hev, hown, askedDir]

theorem recompute_jobDirName (j : Job) : jobDirName (recomputeJobTotals j) = jobDirName j := rfl

theorem recompute_hasAnyDone (j : Job) : (recomputeJobTotals j).hasAnyDone = j.hasAnyDone := rfl

/-- **Recovery moves no directory with bytes in it, exactly if the repair leaves
the written jobs where they are.** -/
theorem keepsDirectories_iff_staysPut (now : Int) (doc : QueueSnapshotDoc)
    (records : List JournalRecord) :
    KeepsDirectories now doc records ↔ StaysPut doc records := by
  have halike := JobsBy.foldl_replay records
    ((JobsBy.fromDoc now doc).mono fun _ _ => Restores.sameDone)
  -- the job at a place of the recovered queue, and where it is stored
  have hrec : ∀ i d, doc.jobs[i]? = some d →
      ∃ w r, (records.foldl replayRecord doc.jobs)[i]? = some w ∧
        (recover now doc records).state.jobs[i]? = some r ∧ r.hasAnyDone = w.hasAnyDone ∧
        jobDirName r =
          if Evicted doc i d then suffixed (storedDir d) d.id else askedDir d := by
    intro i d hd
    have hdirs :=
      congrArg (·[i]?) (foldl_replay_jobDirName records (QueueState.fromDoc now doc).jobs)
    simp only [map_jobDirName_fromDoc, getElem?_map, getElem?_dirsAt, hd, Option.map_some,
      if_pos (List.getElem?_eq_some_iff.mp hd).1, usedDir_ownDir] at hdirs
    obtain ⟨r, hr, hrd⟩ := Option.map_eq_some_iff.mp hdirs
    have hi := (List.getElem?_eq_some_iff.mp hr).1
    have hi' := halike.length_eq ▸ hi
    refine ⟨_, recomputeJobTotals r, getElem?_eq_getElem hi', ?_, ?_, ?_⟩
    · simp only [recover, QueueState.recomputeAllTotals, QueueState.replayAll, getElem?_map, hr,
        Option.map_some]
    · have hget := halike.get hi' hi
      simp only [get_eq_getElem] at hget
      rw [recompute_hasAnyDone, hget.hasAnyDone, (List.getElem?_eq_some_iff.mp hr).2]
    · rw [recompute_jobDirName, hrd]
  constructor
  · intro h i d hd ⟨w, hw, hdone⟩
    obtain ⟨w', r, hw', hr, hrw, hdir⟩ := hrec i d hd
    obtain rfl : w = w' := Option.some.inj (hw.symm.trans hw')
    have := h i d r hd hr (hrw.trans hdone)
    rw [hdir] at this
    split <;> simp_all
  · intro h i d r hd hr hdone
    obtain ⟨w, r', hw, hr', hrw, hdir⟩ := hrec i d hd
    obtain rfl : r = r' := Option.some.inj (hr.symm.trans hr')
    have := h i d hd ⟨w, hw, hrw ▸ hdone⟩
    rw [hdir]
    split <;> simp_all

/-- A job that still carries a provisional name.  Its one article has been
written, after the snapshot was taken. -/
def provisionalJob : Job :=
  { QueueState.newJob 0 1 .nzb (text "monarr") (text "monarr") none 0 .queued with
    nameProvisional := true
    files := [{
      id := 1, filename := text "Some.Movie.2024.mkv", isPar2 := false, paused := false
      date := none, segments := [⟨text "a@b", 1, 100, .pending⟩], crc32 := none
      finalized := false }] }

/-- The file list names the job, and the directory moves away from the bytes. -/
theorem not_keepsDirectories_journalOnly :
    ¬ KeepsDirectories 0 ⟨[provisionalJob], [], 1, 1, false, none, 1⟩
      [⟨1, 1, 1, 0, 90, 0, 90⟩] := by
  intro h
  have hmoved := h 0 provisionalJob _ rfl rfl (by decide +kernel)
  exact absurd hmoved (by decide +kernel)

end Nzbd
