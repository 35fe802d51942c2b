import Nzbd.Engine.Completion

/-!
# The timeline of post-processing

Each stage a job enters is a span of its timeline, and the span is open until the next one is
entered or until it is closed.  The commands come from attempts one after the other; each command
of an attempt is before all commands of the next one.

The timeline is on disk as of the last save, and a restart goes back to that.  So a span that is
closed stays as it is while the daemon runs (`Keeps`), and for good once it has been saved
closed.
-/

namespace Nzbd.Engine

open List
open Nzbd.State (JournalRecord)

/-- The queue owner and its snapshot, and for each span of one job the attempt that has entered
it, in the queue and in the snapshot. -/
structure Timeline where
  owner : Owner
  disk : QueueSnapshotDoc
  entered : List Nat
  saved : List Nat

namespace Timeline

inductive Event
  | enter (attempt : Nat) (stage : PostStage) (at' : Int) (prev : Option Nat)
  | close (attempt : Nat) (at' : Int) (ms : Option Nat)
  /-- The snapshot is due. -/
  | save (w : World)
  /-- The daemon stops in whatever state it is, and starts again. -/
  | restart (w : World) (cfg : Owner.Config) (records : List JournalRecord)

def lastSaved (disk : QueueSnapshotDoc) (log : List DiskWrite) : QueueSnapshotDoc :=
  log.foldl (fun disk e => match e with
    | .save doc _ => doc
    | _ => disk) disk

/-- The timeline of a job in a queue that may have it. -/
def spans (jobs : List Job) (id : JobId) : List StageSpan :=
  ((jobs.find? (·.id = id)).map (·.stages)).getD []

variable (id : JobId)

def next (t : Timeline) : Event → Timeline
  | .enter attempt stage at' prev =>
    { t with
      owner := t.owner.enterPostStage id stage at' prev
      entered := if (t.owner.state.job id).isSome then t.entered ++ [attempt] else t.entered }
  | .close _ at' ms => { t with owner := t.owner.closePostStage id at' ms }
  | .save w =>
    let r := t.owner.saveSnapshotResult w
    { t with
      owner := { r.2 with log := [] }
      disk := if r.1 then t.owner.state.toDoc else t.disk
      saved := if r.1 then t.entered else t.saved }
  | .restart w cfg records =>
    let o := Owner.start w cfg t.disk records
    { owner := { o with log := [] }, disk := lastSaved t.disk o.log, entered := t.saved, saved := t.saved }

def run (t : Timeline) (events : List Event) : Timeline := events.foldl (next id) t

def Event.attempt : Event → Option Nat
  | .enter attempt .. => some attempt
  | .close attempt .. => some attempt
  | _ => none

/-- Each command of an attempt comes before all commands of the next one. -/
def InOrder (events : List Event) : Prop := (events.filterMap Event.attempt).Pairwise (· ≤ ·)

def Event.isRestart : Event → Bool
  | .restart .. => true
  | _ => false

/-- At a restart, the payload of the job is about to be removed. -/
def Event.retires : Event → Bool
  | .restart _ cfg _ => cfg.retained id
  | _ => false

/-- Nothing has been entered. -/
def Init (t : Timeline) : Prop :=
  spans t.owner.state.jobs id = [] ∧ spans t.disk.jobs id = [] ∧ t.entered = [] ∧ t.saved = []

/-- At most the last span is open, and then the job is in its stage, unless it has been retired. -/
structure Sound (retired : Bool) (j : Job) : Prop where
  closed : ∀ s ∈ j.stages.dropLast, s.ms ≠ none
  status : retired = false → ∀ s, j.stages.getLast? = some s → s.ms = none → j.status = .post s.stage

/-- The spans that are closed are still there, as they were. -/
def Keeps (l l' : List StageSpan) : Prop := ∀ (i : Nat) (s : StageSpan), l[i]? = some s →
    s.ms ≠ none → l'[i]? = some s

theorem Keeps.refl (l : List StageSpan) : Keeps l l := fun _ _ h _ => h

theorem Keeps.trans {l l' l'' : List StageSpan} (h : Keeps l l') (h' : Keeps l' l'') : Keeps l l'' :=
  fun i s hi hs => h' i s (h i s hi hs) hs

/-! ### Closing -/

section

open Owner (closeSpan)

variable (measured : Option Nat) (at' : Int)

theorem closeSpan_concat (l : List StageSpan) (s : StageSpan) : closeSpan measured at' (l ++ [s]) =
    l ++ [if s.ms = none then
      { s with ms := some (measured.getD ((max (at' - s.startedAtUnix) 0).toNat * 1000)) } else s] := by
  unfold closeSpan
  rw [getLast?_concat]
  simp only
  split
  · rw [dropLast_concat]
  · rfl

theorem keeps_closeSpan (l : List StageSpan) : Keeps l (closeSpan measured at' l) := by
  intro i s hi hs
  induction l using reverseRecOn with
  | nil => cases hi
  | append_singleton l last _ =>
    rw [closeSpan_concat]
    rcases Nat.lt_or_ge i l.length with hlt | hge
    · rw [getElem?_append_left hlt] at hi ⊢
      exact hi
    · rw [getElem?_append_right hge] at hi ⊢
      obtain ⟨hzero, hlast⟩ := List.getElem?_eq_some_iff.mp hi
      have hindex : i - l.length = 0 := by simpa using hzero
      rw [hindex] at hi ⊢
      obtain rfl : last = s := by simpa using hi
      rw [if_neg hs]
      rfl

theorem length_closeSpan (l : List StageSpan) : (closeSpan measured at' l).length = l.length := by
  induction l using reverseRecOn with
  | nil => rfl
  | append_singleton l last _ => rw [closeSpan_concat, length_append, length_append]; rfl

/-- **No span is open** after a close. -/
theorem closed_closeSpan {l : List StageSpan} (h : ∀ s ∈ l.dropLast, s.ms ≠ none) :
    ∀ s ∈ closeSpan measured at' l, s.ms ≠ none := by
  induction l using reverseRecOn with
  | nil => exact fun s hs => by cases hs
  | append_singleton l last _ =>
    rw [dropLast_concat] at h
    rw [closeSpan_concat]
    intro s hs
    rcases mem_append.mp hs with hs | hs
    · exact h s hs
    · rw [mem_singleton.mp hs]
      split
      · exact Option.some_ne_none _
      · next hclosed => exact hclosed

end

/-! ### A restart -/

/-- The same timeline, and the same stage unless the payload is about to be removed. -/
structure Same (cfg : Owner.Config) (a b : Job) : Prop where
  id : b.id = a.id
  stages : b.stages = a.stages
  post : cfg.retained a.id = false → ∀ stage, a.status = .post stage → b.status = .post stage

theorem Same.refl (cfg : Owner.Config) (a : Job) : Same cfg a a := ⟨rfl, rfl, fun _ _ h => h⟩

theorem Same.trans {cfg : Owner.Config} {a b c : Job} (h : Same cfg a b) (h' : Same cfg b c) : Same cfg a c :=
  ⟨h'.id.trans h.id, h'.stages.trans h.stages, fun hr stage hs =>
    h'.post (h.id.symm ▸ hr) stage (h.post hr stage hs)⟩

variable {cfg : Owner.Config} {w : World}

abbrev SameJobs (cfg : Owner.Config) (l l' : List Job) : Prop := List.Forall₂ (Same cfg) l l'

theorem sameJobs_refl (l : List Job) : SameJobs cfg l l := forall₂_same.mpr fun a _ => Same.refl cfg a

theorem SameJobs.trans {l l' l'' : List Job} (h : SameJobs cfg l l') (h' : SameJobs cfg l' l'') :
    SameJobs cfg l l'' := by
  induction h generalizing l'' with
  | nil => exact h'
  | cons hab _ ih =>
    cases h' with
    | cons hbc hrest => exact .cons (hab.trans hbc) (ih hrest)

theorem sameJobs_map {f : Job → Job} (hf : ∀ j, Same cfg j (f j)) (l : List Job) : SameJobs cfg l (l.map f) := by
  induction l with
  | nil => exact .nil
  | cons j l ih => exact .cons (hf j) ih

theorem sameJobs_modifyFirst {p : Job → Bool} {f : Job → Job} {l : List Job}
    (hf : ∀ j, l.find? p = some j → Same cfg j (f j)) : SameJobs cfg l (l.modifyFirst p f) := by
  induction l with
  | nil => exact .nil
  | cons j l ih =>
    cases hp : p j with
    | true =>
      rw [modifyFirst_cons_pos hp]
      exact .cons (hf j (find?_cons_of_pos hp)) (sameJobs_refl l)
    | false =>
      rw [modifyFirst_cons_neg hp]
      refine .cons (Same.refl cfg j) (ih fun k hk => hf k ?_)
      rw [find?_cons_of_neg (by simp [hp]), hk]

theorem sameJobs_separateDirs (rest seen : List Job) : SameJobs cfg (seen ++ rest) (separateDirs seen rest) := by
  induction rest generalizing seen with
  | nil =>
    rw [append_nil]
    exact sameJobs_refl seen
  | cons j rest ih =>
    have hsame : Same cfg j (separateDir (seen ++ j :: rest) j) := by
      unfold separateDir
      split
      · exact Same.refl cfg j
      · exact ⟨rfl, rfl, fun _ _ h => h⟩
    have hfirst : SameJobs cfg (seen ++ j :: rest) (seen ++ [separateDir (seen ++ j :: rest) j] ++ rest) := by
      rw [append_assoc]
      exact rel_append (sameJobs_refl seen) (.cons hsame (sameJobs_refl rest))
    exact hfirst.trans (ih _)

theorem sameJobs_recover (cfg : Owner.Config) (now : Int) (doc : QueueSnapshotDoc)
    (records : List JournalRecord) :
    SameJobs cfg doc.jobs (recover now doc records).state.jobs := by
  have hrestore : SameJobs cfg doc.jobs (doc.jobs.map (Job.restore now)) := by
    refine sameJobs_map (f := Job.restore now) (fun j => ⟨rfl, rfl, fun _ stage hs => ?_⟩) _
    simp only [Job.restore]
    rw [if_neg (by rw [hs]; exact JobStatus.noConfusion), hs]
  have hname : ∀ j, Same cfg j (repairName j) := by
    intro j
    unfold repairName renameJob
    split
    · split
      · split
        · exact Same.refl cfg j
        · exact ⟨rfl, rfl, fun _ _ h => h⟩
      · exact Same.refl cfg j
    · exact Same.refl cfg j
  have hreplay : ∀ jobs, SameJobs cfg jobs (records.foldl replayRecord jobs) := by
    induction records with
    | nil => exact fun jobs => sameJobs_refl jobs
    | cons r records ih =>
      intro jobs
      have hfirst : SameJobs cfg jobs (replayRecord jobs r) :=
        sameJobs_modifyFirst (f := Job.replay r) fun _ _ => ⟨rfl, rfl, fun _ _ h => h⟩
      exact hfirst.trans (ih _)
  refine hrestore.trans ((sameJobs_map hname _).trans ((sameJobs_separateDirs _ []).trans ?_))
  exact (hreplay _).trans (sameJobs_map (f := recomputeJobTotals) (fun _ => ⟨rfl, rfl, fun _ _ h => h⟩) _)

/-- The queue and all that has been saved come from these jobs. -/
abbrev From (cfg : Owner.Config) (jobs : List Job) (s : QueueState) : Prop := SameJobs cfg jobs s.jobs

theorem holds_checkJobComplete {jobs : List Job} {l : List DiskWrite} {o : Owner}
    (h : Owner.Holds (From cfg jobs) l o) (id : JobId) :
    Owner.Holds (From cfg jobs) l (o.checkJobComplete w id) := by
  unfold Owner.checkJobComplete
  split
  · exact h
  · split
    · exact h
    · next j hj =>
      split
      · next hdone =>
        refine Owner.Holds.saveSnapshot ⟨?_, h.log⟩
        refine SameJobs.trans h.state (sameJobs_modifyFirst fun k hk => ⟨rfl, rfl, fun _ stage hs => ?_⟩)
        -- a job in a stage does not download
        obtain rfl : j = k := Option.some.inj (hj.symm.trans hk)
        rw [hs] at hdone
        cases hdone.1
      · exact h

theorem holds_start (cfg : Owner.Config) (doc : QueueSnapshotDoc) (records : List JournalRecord) :
    Owner.Holds (From cfg doc.jobs) [] (Owner.start w cfg doc records) := by
  have hrecovered : Owner.Holds (From cfg doc.jobs) []
      (Owner.recovered w cfg (recover w.nowUnix doc records)) := by
    refine ⟨(sameJobs_recover cfg w.nowUnix doc records).trans (sameJobs_map (fun j => ?_) _),
      fun e he => by cases he⟩
    unfold Owner.holdRetained
    split
    · next hret => exact ⟨rfl, rfl, fun h => absurd (hret.2.symm.trans h) (by decide)⟩
    · exact Same.refl cfg j
  unfold Owner.start Owner.startupPass
  simp only
  refine foldlRecOn (motive := Owner.Holds (From cfg doc.jobs) []) _ _ ?_ fun o ho id _ =>
    holds_checkJobComplete ho id
  exact foldlRecOn (motive := Owner.Holds (From cfg doc.jobs) []) _ _ hrecovered.saveSnapshot
    fun o ho p _ => ho.sendFinalize p.1 p.2

theorem lastSaved_from {cfg : Owner.Config} {disk : QueueSnapshotDoc} {jobs : List Job} {log : List DiskWrite}
    (hdisk : SameJobs cfg jobs disk.jobs)
    (h : ∀ e ∈ log, ∃ t keep, e = .save (QueueState.toDoc t) keep ∧ From cfg jobs t) :
    SameJobs cfg jobs (lastSaved disk log).jobs := by
  unfold lastSaved
  refine foldlRecOn (motive := fun d : QueueSnapshotDoc => SameJobs cfg jobs d.jobs) _ _ hdisk
    fun d hd e he => ?_
  obtain ⟨t, keep, rfl, ht⟩ := h e he
  exact ht

theorem SameJobs.find {l l' : List Job} (h : SameJobs cfg l l') (id : JobId) :
    spans l' id = spans l id ∧ ∀ b, l'.find? (·.id = id) = some b →
      ∃ a, l.find? (·.id = id) = some a ∧ Same cfg a b := by
  unfold spans
  induction h with
  | nil => exact ⟨rfl, fun b hb => by cases hb⟩
  | @cons a b l l' hab _ ih =>
    by_cases ha : a.id = id
    · have hb : b.id = id := hab.id.trans ha
      rw [find?_cons_of_pos (by simpa using hb), find?_cons_of_pos (by simpa using ha)]
      refine ⟨congrArg (fun l => (some l).getD []) hab.stages, fun c hc => ⟨a, rfl, ?_⟩⟩
      obtain rfl := Option.some.inj hc
      exact hab
    · have hb : b.id ≠ id := fun hb => ha (hab.id.symm.trans hb)
      rw [find?_cons_of_neg (by simpa using hb), find?_cons_of_neg (by simpa using ha)]
      exact ih

variable {retired : Bool}

theorem Same.sound {a b : Job} (h : Same cfg a b) (ha : Sound retired a) :
    Sound (retired || cfg.retained a.id) b := by
  refine ⟨h.stages ▸ ha.closed, fun hret s hs hopen => ?_⟩
  obtain ⟨hretired, hretained⟩ := Bool.or_eq_false_iff.mp hret
  refine h.post hretained s.stage (ha.status hretired s ?_ hopen)
  rw [← h.stages]
  exact hs

/-! ### The invariant -/

structure Inv (id : JobId) (retired : Bool) (t : Timeline) : Prop where
  sound : ∀ j, t.owner.state.job id = some j → Sound retired j
  diskSound : ∀ j, t.disk.jobs.find? (·.id = id) = some j → Sound retired j
  keeps : Keeps (spans t.disk.jobs id) (spans t.owner.state.jobs id)
  entered : t.entered.length = (spans t.owner.state.jobs id).length
  saved : t.saved.length = (spans t.disk.jobs id).length

theorem spans_eq {s : QueueState} {id : JobId} {j : Job} (h : s.job id = some j) :
    spans s.jobs id = j.stages := by
  unfold spans
  exact congrArg (fun o => (o.map Job.stages).getD []) h

theorem sound_of_nil {j : Job} (h : j.stages = []) : Sound retired j := by
  refine ⟨fun s hs => ?_, fun _ s hs => ?_⟩
  · rw [h] at hs
    cases hs
  · rw [h] at hs
    cases hs

variable {t : Timeline}

theorem inv_init {id : JobId} (h : Init id t) : Inv id false t := by
  obtain ⟨howner, hdisk, hentered, hsaved⟩ := h
  refine ⟨fun j hj => sound_of_nil ?_, fun j hj => sound_of_nil ?_, ?_, ?_, ?_⟩
  · rw [← spans_eq hj, howner]
  · unfold spans at hdisk
    rw [hj] at hdisk
    exact hdisk
  · rw [hdisk, howner]
    exact Keeps.refl []
  · rw [hentered, howner]
    rfl
  · rw [hsaved, hdisk]
    rfl

theorem updateJob_cases {o : Owner} {id : JobId} {f : Job → Job} (hf : ∀ j, (f j).id = j.id) :
    (o.state.job id = none ∧ (o.updateJob id f).state.job id = none) ∨
      ∃ j, o.state.job id = some j ∧ (o.updateJob id f).state.job id = some (f j) := by
  have h : (o.updateJob id f).state.job id = (o.state.job id).map f := job_updateJob_self o.state hf
  cases hj : o.state.job id with
  | none => exact .inl ⟨rfl, by rw [h, hj]; rfl⟩
  | some j => exact .inr ⟨j, rfl, by rw [h, hj]; rfl⟩

theorem spans_of_none {s : QueueState} {id : JobId} (h : s.job id = none) : spans s.jobs id = [] := by
  unfold spans
  exact congrArg (fun o => (o.map Job.stages).getD []) h

theorem keeps_append (l l' : List StageSpan) : Keeps l (l ++ l') := fun i s hi _ => by
  rw [List.getElem?_append_left (List.getElem?_eq_some_iff.mp hi).1]
  exact hi

/-- **A command** keeps what is closed, and leaves the job sound. -/
theorem inv_command {id : JobId} (h : Inv id retired t) {e : Event}
    (he : e.attempt.isSome) :
    Inv id retired (t.next id e) ∧
      Keeps (spans t.owner.state.jobs id) (spans (t.next id e).owner.state.jobs id) := by
  cases e with
  | enter attempt stage at' prev =>
    rcases @updateJob_cases t.owner id (fun j => { j with
        stages := Owner.closeSpan prev at' j.stages ++ [⟨stage, at', none⟩]
        status := .post stage }) (fun _ => rfl) with ⟨hj, hj'⟩ | ⟨j, hj, hj'⟩
    · have hspans : spans (t.next id (.enter attempt stage at' prev)).owner.state.jobs id =
          spans t.owner.state.jobs id := (spans_of_none hj').trans (spans_of_none hj).symm
      refine ⟨⟨fun k hk => ?_, h.diskSound, hspans ▸ h.keeps, ?_, h.saved⟩, hspans ▸ Keeps.refl _⟩
      · cases hj'.symm.trans hk
      · rw [hspans, ← h.entered, next]
        simp only [hj, Option.isSome_none]
        rfl
    · have hkeep : Keeps j.stages (Owner.closeSpan prev at' j.stages ++ [⟨stage, at', none⟩]) :=
        (keeps_closeSpan prev at' j.stages).trans (keeps_append _ _)
      have hspans : spans (t.next id (.enter attempt stage at' prev)).owner.state.jobs id =
          Owner.closeSpan prev at' j.stages ++ [⟨stage, at', none⟩] := spans_eq hj'
      refine ⟨⟨fun k hk => ?_, h.diskSound, ?_, ?_, h.saved⟩, ?_⟩
      · obtain rfl := Option.some.inj (hj'.symm.trans hk)
        refine ⟨?_, fun _ s hs _ => ?_⟩
        · simp only [dropLast_concat]
          exact closed_closeSpan prev at' (h.sound j hj).closed
        · simp only [getLast?_concat] at hs
          obtain rfl := Option.some.inj hs
          rfl
      · rw [hspans]
        exact (spans_eq hj ▸ h.keeps).trans hkeep
      · rw [hspans, length_append, length_closeSpan, ← spans_eq hj, ← h.entered, next]
        simp only [hj, Option.isSome_some, if_true, length_append]
        rfl
      · rw [hspans, spans_eq hj]
        exact hkeep
  | close attempt at' ms =>
    rcases @updateJob_cases t.owner id (fun j => { j with stages := Owner.closeSpan ms at' j.stages })
        (fun _ => rfl) with ⟨hj, hj'⟩ | ⟨j, hj, hj'⟩
    · have hspans : spans (t.next id (.close attempt at' ms)).owner.state.jobs id =
          spans t.owner.state.jobs id := (spans_of_none hj').trans (spans_of_none hj).symm
      refine ⟨⟨fun k hk => ?_, h.diskSound, hspans ▸ h.keeps, ?_, h.saved⟩, hspans ▸ Keeps.refl _⟩
      · cases hj'.symm.trans hk
      · rw [hspans, ← h.entered]
        rfl
    · have hclosed := closed_closeSpan ms at' (h.sound j hj).closed
      have hspans : spans (t.next id (.close attempt at' ms)).owner.state.jobs id =
          Owner.closeSpan ms at' j.stages := spans_eq hj'
      refine ⟨⟨fun k hk => ?_, h.diskSound, ?_, ?_, h.saved⟩, ?_⟩
      · obtain rfl := Option.some.inj (hj'.symm.trans hk)
        refine ⟨fun s hs => hclosed s (dropLast_subset _ hs), fun _ s hs hopen => ?_⟩
        exact absurd hopen (hclosed s (mem_of_getLast? hs))
      · rw [hspans]
        exact (spans_eq hj ▸ h.keeps).trans (keeps_closeSpan ms at' _)
      · rw [hspans, length_closeSpan, ← spans_eq hj, ← h.entered]
        rfl
      · rw [hspans, spans_eq hj]
        exact keeps_closeSpan ms at' _
  | save w => cases he
  | restart w cfg records => cases he

theorem inv_save {id : JobId} (h : Inv id retired t) (w : World) :
    Inv id retired (t.next id (.save w)) ∧
    spans (t.next id (.save w)).owner.state.jobs id = spans t.owner.state.jobs id ∧
    Keeps (spans t.disk.jobs id) (spans (t.next id (.save w)).disk.jobs id) := by
  have hstate : (t.next id (.save w)).owner.state = t.owner.state := Owner.saveSnapshotResult_state _
  have hsound : ∀ j, (t.next id (.save w)).owner.state.job id = some j → Sound retired j := by
    rw [hstate]
    exact h.sound
  cases hok : (t.owner.saveSnapshotResult w).1 with
  | true =>
    have hdisk : (t.next id (.save w)).disk = t.owner.state.toDoc := if_pos hok
    have hsaved : (t.next id (.save w)).saved = t.entered := if_pos hok
    refine ⟨⟨hsound, ?_, ?_, ?_, ?_⟩, by rw [hstate], ?_⟩
    · rw [hdisk]
      exact h.sound
    · rw [hdisk, hstate]
      exact Keeps.refl _
    · rw [hstate]
      exact h.entered
    · rw [hdisk, hsaved]
      exact h.entered
    · rw [hdisk]
      exact h.keeps
  | false =>
    have hno : ¬(t.owner.saveSnapshotResult w).1 = true := by rw [hok]; exact Bool.false_ne_true
    have hdisk : (t.next id (.save w)).disk = t.disk := if_neg hno
    have hsaved : (t.next id (.save w)).saved = t.saved := if_neg hno
    refine ⟨⟨hsound, ?_, ?_, ?_, ?_⟩, by rw [hstate], ?_⟩
    · rw [hdisk]
      exact h.diskSound
    · rw [hdisk, hstate]
      exact h.keeps
    · rw [hstate]
      exact h.entered
    · rw [hdisk, hsaved]
      exact h.saved
    · rw [hdisk]
      exact Keeps.refl _

/-- **A restart** goes back to the snapshot. -/
theorem inv_restart {id : JobId} (h : Inv id retired t) (w : World)
    (cfg : Owner.Config) (records : List JournalRecord) :
    Inv id (retired || cfg.retained id) (t.next id (.restart w cfg records)) ∧
    spans (t.next id (.restart w cfg records)).owner.state.jobs id = spans t.disk.jobs id ∧
    spans (t.next id (.restart w cfg records)).disk.jobs id = spans t.disk.jobs id := by
  have hstart := holds_start (w := w) cfg t.disk records
  have hqueue : SameJobs cfg t.disk.jobs (t.next id (.restart w cfg records)).owner.state.jobs := hstart.state
  have hdisk : SameJobs cfg t.disk.jobs (t.next id (.restart w cfg records)).disk.jobs :=
    lastSaved_from (sameJobs_refl _) fun e he => (hstart.log e he).resolve_left not_mem_nil
  have hsound : ∀ jobs, SameJobs cfg t.disk.jobs jobs → ∀ j, jobs.find? (·.id = id) = some j →
      Sound (retired || cfg.retained id) j := by
    intro jobs hjobs j hj
    obtain ⟨a, ha, hab⟩ := (hjobs.find id).2 j hj
    have haid : a.id = id := by simpa using find?_some ha
    have hsound := hab.sound (h.diskSound a ha)
    rw [haid] at hsound
    exact hsound
  refine ⟨⟨hsound _ hqueue, hsound _ hdisk, ?_, ?_, ?_⟩, (hqueue.find id).1, (hdisk.find id).1⟩
  · rw [(hqueue.find id).1, (hdisk.find id).1]
    exact Keeps.refl _
  · rw [(hqueue.find id).1]
    exact h.saved
  · rw [(hdisk.find id).1]
    exact h.saved

/-! ### A run -/

/-- **One event**. -/
theorem inv_next {id : JobId} (h : Inv id retired t) (e : Event) :
    Inv id (retired || e.retires id) (t.next id e) ∧
      Keeps (spans t.disk.jobs id) (spans (t.next id e).disk.jobs id) ∧
      (e.isRestart = false → Keeps (spans t.owner.state.jobs id) (spans (t.next id e).owner.state.jobs id)) := by
  cases e with
  | enter attempt stage at' prev =>
    obtain ⟨hinv, hkeeps⟩ := inv_command h (e := .enter attempt stage at' prev) rfl
    exact ⟨(Bool.or_false retired).symm ▸ hinv, Keeps.refl _, fun _ => hkeeps⟩
  | close attempt at' ms =>
    obtain ⟨hinv, hkeeps⟩ := inv_command h (e := .close attempt at' ms) rfl
    exact ⟨(Bool.or_false retired).symm ▸ hinv, Keeps.refl _, fun _ => hkeeps⟩
  | save w =>
    obtain ⟨hinv, hqueue, hdisk⟩ := inv_save h w
    refine ⟨(Bool.or_false retired).symm ▸ hinv, hdisk, fun _ => ?_⟩
    rw [hqueue]
    exact Keeps.refl _
  | restart w cfg records =>
    obtain ⟨hinv, _, hdisk⟩ := inv_restart h w cfg records
    refine ⟨hinv, ?_, fun hrun => by cases hrun⟩
    rw [hdisk]
    exact Keeps.refl _

theorem run_append (t : Timeline) (before after : List Event) :
    t.run id (before ++ after) = (t.run id before).run id after := foldl_append

/-- **A whole run**: the job stays sound, what is closed in the snapshot stays there, and what is
closed in the queue stays there up to the next restart. -/
theorem inv_run {id : JobId} (h : Inv id retired t) (events : List Event) :
    Inv id (retired || events.any (·.retires id)) (t.run id events) ∧
      Keeps (spans t.disk.jobs id) (spans (t.run id events).disk.jobs id) ∧
      ((∀ e ∈ events, e.isRestart = false) →
        Keeps (spans t.owner.state.jobs id) (spans (t.run id events).owner.state.jobs id)) := by
  induction events generalizing retired t with
  | nil => exact ⟨(Bool.or_false retired).symm ▸ h, Keeps.refl _, fun _ => Keeps.refl _⟩
  | cons e rest ih =>
    obtain ⟨hinv, hdisk, hqueue⟩ := inv_next h e
    obtain ⟨hinv', hdisk', hqueue'⟩ := ih hinv
    rw [any_cons, ← Bool.or_assoc]
    refine ⟨hinv', hdisk.trans hdisk', fun hrun => ?_⟩
    exact (hqueue (hrun e mem_cons_self)).trans (hqueue' fun e' he' => hrun e' (mem_cons_of_mem _ he'))

theorem entered_run (t : Timeline) (events : List Event) :
    ∀ b ∈ (t.run id events).entered ++ (t.run id events).saved,
      b ∈ t.entered ++ t.saved ∨ b ∈ events.filterMap Event.attempt := by
  induction events generalizing t with
  | nil => exact fun b hb => .inl hb
  | cons e rest ih =>
    intro b hb
    have hstep : ∀ b ∈ (t.next id e).entered ++ (t.next id e).saved,
        b ∈ t.entered ++ t.saved ∨ e.attempt = some b := by
      intro b hb
      cases e with
      | enter attempt stage at' prev =>
        simp only [next] at hb
        split at hb
        · simp only [mem_append, mem_singleton] at hb ⊢
          rcases hb with (hb | rfl) | hb
          · exact .inl (.inl hb)
          · exact .inr rfl
          · exact .inl (.inr hb)
        · exact .inl hb
      | close attempt at' ms => exact .inl hb
      | save w =>
        simp only [next] at hb
        split at hb
        · exact .inl (mem_append_left _ ((mem_append.mp hb).elim (fun h => h) fun h => h))
        · exact .inl hb
      | restart w cfg records =>
        exact .inl (mem_append_right _ ((mem_append.mp hb).elim (fun h => h) fun h => h))
    rcases ih (t.next id e) b hb with hb | hb
    · rcases hstep b hb with hb | hb
      · exact .inl hb
      · exact .inr (mem_filterMap.mpr ⟨e, mem_cons_self, hb⟩)
    · obtain ⟨e', he', hb⟩ := mem_filterMap.mp hb
      exact .inr (mem_filterMap.mpr ⟨e', mem_cons_of_mem _ he', hb⟩)

structure Kept (t : Timeline) (before after : List Event) : Prop where
  sound : ∀ j, (t.run id (before ++ after)).owner.state.job id = some j →
    Sound ((before ++ after).any (·.retires id)) j
  /-- Each span has the attempt that has entered it. -/
  attempts : (t.run id before).entered.length = (spans (t.run id before).owner.state.jobs id).length
  running : (∀ e ∈ after, e.isRestart = false) → Keeps (spans (t.run id before).owner.state.jobs id)
    (spans (t.run id (before ++ after)).owner.state.jobs id)
  durable : Keeps (spans (t.run id before).disk.jobs id) (spans (t.run id (before ++ after)).owner.state.jobs id)
  /-- A restart goes back to the snapshot. -/
  restart : ∀ w cfg records rest, after = .restart w cfg records :: rest →
    spans ((t.run id before).next id (.restart w cfg records)).owner.state.jobs id =
      spans (t.run id before).disk.jobs id
  /-- A close changes no span of a later attempt. -/
  apart : ∀ a at' ms rest, after = .close a at' ms :: rest → ∀ (i : Nat) (s : StageSpan),
    (spans (t.run id before).owner.state.jobs id)[i]? = some s →
    (spans ((t.run id before).next id (.close a at' ms)).owner.state.jobs id)[i]? ≠ some s →
    ∃ b, (t.run id before).entered[i]? = some b ∧ b ≤ a

/-- **The timeline is kept** over any run of commands, saves and restarts. -/
theorem timeline_kept (t : Timeline) (before after : List Event) (hinit : Init id t)
    (horder : InOrder (before ++ after)) : Kept id t before after := by
  have hbefore := inv_run (inv_init hinit) before
  have hafter := inv_run hbefore.1 after
  rw [← run_append, Bool.or_assoc, ← any_append, Bool.false_or] at hafter
  obtain ⟨hinv, hdisk, hqueue⟩ := hafter
  refine ⟨hinv.sound, hbefore.1.entered, hqueue, hdisk.trans hinv.keeps,
    fun w cfg records _ _ => (inv_restart hbefore.1 w cfg records).2.1, ?_⟩
  rintro a at' ms rest rfl i s hi _
  have hlt : i < (t.run id before).entered.length := by
    rw [hbefore.1.entered]
    exact (List.getElem?_eq_some_iff.mp hi).1
  refine ⟨(t.run id before).entered[i], List.getElem?_eq_getElem hlt, ?_⟩
  have hmem := entered_run id t before _ (mem_append_left _ (getElem_mem hlt))
  rw [hinit.2.2.1, hinit.2.2.2] at hmem
  unfold InOrder at horder
  rw [filterMap_append] at horder
  exact (pairwise_append.mp horder).2.2 _ (hmem.resolve_left not_mem_nil) a mem_cons_self

/-- A job that has been saved before its post-processing. -/
def waiting : Timeline :=
  let o := (Owner.start Node.calmWorld (Node.dayConfig false) QueueState.default.toDoc [])
  let state := { o.state with jobs := [QueueState.newJob 0 1 .nzb (text "a") (text "a") none 0 .fetching] }
  { owner := { o with state := state, log := [] }, disk := state.toDoc, entered := [], saved := [] }

def verified : List Event :=
  [.enter 0 .parVerify 100 none, .save Node.calmWorld, .close 0 110 (some 9500)]

/-- The daemon stops before the next snapshot, and the next attempt goes on. -/
def replaced : List Event :=
  [.restart Node.calmWorld (Node.dayConfig false) [], .enter 1 .unpack 200 none]

theorem timeline_kept_replaced : Init 1 waiting ∧ InOrder (verified ++ replaced) ∧
    Kept 1 waiting verified replaced := by
  have hinit : Init 1 waiting := by
    unfold Init
    decide +kernel
  have horder : InOrder (verified ++ replaced) := by
    unfold InOrder
    decide
  exact ⟨hinit, horder, timeline_kept 1 waiting verified replaced hinit horder⟩

/-- A restart at which the payload is about to be removed. -/
def retiring : List Event :=
  [.restart Node.calmWorld { Node.dayConfig false with retained := fun _ => true } []]

/-- What has been measured is lost when the daemon stops before the next snapshot, and a job
whose payload is about to be removed leaves its stage. -/
theorem lost_at_restart :
    (¬∀ (id : JobId) (t : Timeline) (before after : List Event), Init id t → InOrder (before ++ after) →
      Keeps (spans (t.run id before).owner.state.jobs id)
        (spans (t.run id (before ++ after)).owner.state.jobs id)) ∧
    ¬∀ (id : JobId) (t : Timeline) (events : List Event), Init id t → InOrder events →
      ∀ j, (t.run id events).owner.state.job id = some j → Sound false j := by
  refine ⟨fun h => ?_, fun h => ?_⟩
  · have hkeeps := h 1 waiting verified replaced (by unfold Init; decide +kernel) (by unfold InOrder; decide)
    have hbefore : (spans (waiting.run 1 verified).owner.state.jobs 1)[0]? =
      some ⟨.parVerify, 100, some 9500⟩ := by
      decide +kernel
    have hafter : (spans (waiting.run 1 (verified ++ replaced)).owner.state.jobs 1)[0]? =
        some ⟨.parVerify, 100, some 100000⟩ := by
      decide +kernel
    have heq := (hkeeps 0 _ hbefore (Option.some_ne_none _)).symm.trans hafter
    revert heq
    decide
  · obtain ⟨j, hj⟩ := Option.isSome_iff_exists.mp
      (by decide +kernel : ((waiting.run 1 (verified ++ retiring)).owner.state.job 1).isSome = true)
    have hsound := h 1 waiting (verified ++ retiring) (by unfold Init; decide +kernel)
      (by unfold InOrder; decide) j hj
    have hspan : ((waiting.run 1 (verified ++ retiring)).owner.state.job 1).map (·.stages.getLast?) =
        some (some ⟨.parVerify, 100, none⟩) := by
      decide +kernel
    have hstatus : ((waiting.run 1 (verified ++ retiring)).owner.state.job 1).map (·.status) = some .paused := by
      decide +kernel
    rw [hj] at hspan hstatus
    have hpost := hsound.status rfl _ (Option.some.inj hspan) rfl
    cases hpost.symm.trans (Option.some.inj hstatus)

end Timeline

end Nzbd.Engine
