import Nzbd.Post.Manager

/-!
# The end of post-processing

An attempt that comes to its end reads the row of the job, appends an entry to the
history, puts the row back with a stamp, says so and takes the row out of the queue.
Each of these can fail, the attempt can be cancelled between any two of them, and so
can the process end; then the row comes back as the last snapshot has it, and a row
without a stamp is processed again.

The time of the entry is the time of the attempt, and whether the append went well is
not looked at.  `Careful` leaves out an append that fails and an attempt that is
broken off between the append and the stamp.  `recorded_of_run` is what the rest keeps.
-/

namespace Nzbd.Post

open Runs
open Engine.Owner (ppDoneParam)

/-- Where an attempt is. -/
inductive Phase
  /-- It waits for a slot, or its stages run. -/
  | running
  /-- The stages are over. -/
  | ending (outcome : PpFinal)
  /-- The row has been read and the append is under way. -/
  | recording (fin : Job) (completedAt : Int)
  | recorded (fin : Job)
  /-- The row has been put back. -/
  | stamped
  /-- Nothing but to leave the queue. -/
  | announced
  deriving DecidableEq

/-- The append is behind the attempt. -/
def Phase.past : Phase → Bool
  | .recorded _ => true
  | .stamped => true
  | .announced => true
  | _ => false

/-- One job: its row in the queue and on disk, the completion times the history has
of it, the attempt, appends that outlive their attempt, and what has been said. -/
structure Finalizing where
  row : Option Job
  disk : Option Job
  history : List Int
  attempt : Option Phase
  floating : List Int
  announced : Bool
  retired : Bool

/-- The last row of a job: its parameters, a stamp and its status. -/
def finalized (outcome : PpFinal) (extra : List (Text × Text)) (j : Job) : Job :=
  { j with
    params := j.params ++ (ppDoneParam, outcome.asStr) :: extra
    status := if outcome = .success then .completed else .failed }

inductive FinalStep
  /-- A new attempt, for a scan, an event or a restart. -/
  | spawn
  /-- The stages have come to an outcome, or to an error. -/
  | finish (outcome : Option PpFinal)
  /-- The row is read; `fails` : the inventory does not take the directory. -/
  | read (now : Int) (extra : List (Text × Text)) (fails : Bool)
  | record (result : RecordResult)
  /-- An append goes on without its attempt. -/
  | land (completedAt : Int) (result : RecordResult)
  /-- `accepted` : the queue takes the row; `saved` : and its snapshot. -/
  | importJob (accepted saved : Bool)
  | announce
  | retire
  /-- A restart, a deletion or the end of the manager cancels the attempt. -/
  | cancel
  /-- A scan takes a stamped row out of the queue. -/
  | sweep
  /-- The queue is saved for another reason. -/
  | save
  /-- The status of the row changes, as it does at every stage. -/
  | setStatus (status : JobStatus)
  /-- The process ends and starts again; `landed` : with the append under way. -/
  | crash (landed : Bool)

namespace Finalizing

def store (s : Finalizing) (completedAt : Int) (result : RecordResult) : Finalizing :=
  if result.stored then { s with history := completedAt :: s.history } else s

def leaveQueue (s : Finalizing) : Finalizing :=
  { s with row := none, retired := s.retired || s.row.isSome }

/-- Processed, or never downloaded. -/
def swept (j : Job) : Bool := ppDone j && (j.status = .completed || j.status = .failed)

/-- The appends that have not come back. -/
def pending (s : Finalizing) : List Int :=
  match s.attempt with
  | some (.recording _ completedAt) => completedAt :: s.floating
  | _ => s.floating

def step (s : Finalizing) : FinalStep → Finalizing
  | .spawn =>
    if s.attempt = none ∧ s.row.any (fun j => needsPp j.status && !ppDone j) then
      { s with attempt := some .running }
    else s
  | .finish outcome =>
    if s.attempt = some .running then { s with attempt := outcome.map .ending } else s
  | .read now extra fails =>
    match s.attempt with
    | some (.ending outcome) =>
      match s.row with
      | none => { s with attempt := some .announced }
      | some j =>
        if fails then { s with attempt := none }
        else { s with attempt := some (.recording (finalized outcome extra j) now) }
    | _ => s
  | .record result =>
    match s.attempt with
    | some (.recording fin completedAt) =>
      { s.store completedAt result with attempt := some (.recorded fin) }
    | _ => s
  | .land completedAt result =>
    if completedAt ∈ s.floating then
      { s.store completedAt result with floating := s.floating.erase completedAt }
    else s
  | .importJob accepted saved =>
    match s.attempt with
    | some (.recorded fin) =>
      if accepted then
        { s with row := some fin, disk := if saved then some fin else s.disk,
                 attempt := some .stamped }
      else { s with attempt := some .stamped }
    | _ => s
  | .announce =>
    if s.attempt = some .stamped then { s with attempt := some .announced, announced := true }
    else s
  | .retire =>
    if s.attempt = some .announced then { s.leaveQueue with attempt := none } else s
  | .cancel => { s with attempt := none, floating := s.pending }
  | .sweep =>
    if s.row.any swept then { s.leaveQueue with attempt := none, floating := s.pending } else s
  | .save => { s with disk := s.row }
  | .setStatus status => { s with row := s.row.map fun j => { j with status := status } }
  | .crash landed =>
    { s with
      row := s.disk
      history := (if landed then s.pending else []) ++ s.history
      attempt := none
      floating := [] }

/-- What a job that is stamped, announced or out of the queue must have. -/
structure Recorded (s : Finalizing) : Prop where
  stamped : ∀ j, s.row = some j ∨ s.disk = some j → ppDone j = true → s.history ≠ []
  announced : s.announced = true → s.history ≠ []
  retired : s.retired = true → s.history ≠ []
  /-- One completion. -/
  once : ∀ a ∈ s.history, ∀ b ∈ s.history, a = b

/-- A job that has not been processed, and nobody who does. -/
structure Start (s : Finalizing) : Prop where
  row : ∀ j, s.row = some j ∨ s.disk = some j → ppDone j = false
  history : s.history = []
  attempt : s.attempt = none
  floating : s.floating = []
  announced : s.announced = false
  retired : s.retired = false

/-- An append is under way, or it has been made. -/
def Appended (s : Finalizing) : Prop := s.history ≠ [] ∨ s.pending ≠ []

/-- **The condition on a step.**  An append stores its entry, and nothing breaks the
attempt off behind it: no cancellation before the row has its stamp, no end of the
process before the disk has it. -/
def Careful (s : Finalizing) : FinalStep → Prop
  | .record result => result.stored = true
  | .cancel => s.Appended → s.pending = [] ∧ ∀ j, s.row = some j → ppDone j = true
  | .crash _ => s.Appended → s.pending = [] ∧ ∀ j, s.disk = some j → ppDone j = true
  | _ => True

def Reached : Finalizing → Prop := Run Start (fun s c s' => s' = s.step c) Careful

/-- What the entry of a job and its attempt have to do with each other. -/
structure Inv (s : Finalizing) : Prop where
  recorded : s.Recorded
  floating : s.floating = []
  /-- Before its append an attempt is the first to get there. -/
  first : ∀ p, s.attempt = some p → p.past = false → s.history = []
  /-- Nobody begins again behind an append. -/
  last : s.history ≠ [] → (∀ j, s.row = some j → ppDone j = true) ∨
    ∃ p, s.attempt = some p ∧ p.past = true
  past : ∀ p, s.attempt = some p → p.past = true → s.history ≠ [] ∨ s.row = none
  appended : ∀ p, s.attempt = some p → p.past = true → p ≠ .announced → s.history ≠ []
  stamps : ∀ fin, (∃ t, s.attempt = some (.recording fin t)) ∨ s.attempt = some (.recorded fin) →
    ppDone fin = true

theorem ppDone_finalized (outcome : PpFinal) (extra : List (Text × Text)) (j : Job) :
    ppDone (finalized outcome extra j) = true := by
  simp [ppDone, finalized]

theorem Inv.pending_eq {s : Finalizing} (h : s.Inv) (hpast : ∀ p, s.attempt = some p →
    p.past = true) : s.pending = [] := by
  rw [pending]
  split
  · next fin t hattempt => exact absurd (hpast _ hattempt) (by simp [Phase.past])
  · exact h.floating

theorem Inv.over {s t : Finalizing} (h : s.Inv) (hhistory : t.history = s.history)
    (hfloating : t.floating = []) (hattempt : t.attempt = none)
    (hrow : ∀ j, t.row = some j ∨ t.disk = some j →
      s.row = some j ∨ s.disk = some j)
    (hdone : s.history ≠ [] → ∀ j, t.row = some j → ppDone j = true)
    (hannounced : t.announced = s.announced)
    (hretired : t.retired = true → s.history ≠ []) : t.Inv where
  recorded :=
    { stamped := fun j hj hd => hhistory ▸ h.recorded.stamped j (hrow j hj) hd
      announced := fun ha => hhistory ▸ h.recorded.announced (hannounced ▸ ha)
      retired := fun hr => hhistory ▸ hretired hr
      once := hhistory ▸ h.recorded.once }
  floating := hfloating
  first := fun p hp => by rw [hattempt] at hp; cases hp
  last := fun hne => .inl (hdone (hhistory ▸ hne))
  past := fun p hp => by rw [hattempt] at hp; cases hp
  appended := fun p hp => by rw [hattempt] at hp; cases hp
  stamps := fun fin hfin => by
    rw [hattempt] at hfin
    rcases hfin with ⟨t, ht⟩ | ht <;> cases ht

theorem Inv.before {s : Finalizing} (h : s.Inv) (hnil : s.history = []) {p : Phase}
    (hp : p.past = false) (hstamps : ∀ fin t, p = .recording fin t → ppDone fin = true) :
    Inv { s with attempt := some p } where
  recorded := { h.recorded with }
  floating := h.floating
  first := fun _ _ _ => hnil
  last := fun hne => absurd hnil hne
  past := by
    rintro _ ⟨⟩ hpast
    rw [hp] at hpast
    cases hpast
  appended := by
    rintro _ ⟨⟩ hpast
    rw [hp] at hpast
    cases hpast
  stamps := by
    rintro fin (⟨t, ht⟩ | ht)
    · exact hstamps fin t (Option.some.inj ht)
    · rw [Option.some.inj ht] at hp
      cases hp

theorem inv_step {s : Finalizing} (h : s.Inv) (c : FinalStep) (hok : s.Careful c) :
    (s.step c).Inv := by
  cases c with
  | spawn =>
    rw [step]
    split
    · next hspawn =>
      obtain ⟨hnone, hrow⟩ := hspawn
      obtain ⟨j, hj, hneeds⟩ := (Option.any_eq_true _ _).mp hrow
      have hnil : s.history = [] := by
        by_contra hne
        rcases h.last hne with hdone | ⟨p, hp, -⟩
        · simp [hdone j hj] at hneeds
        · rw [hnone] at hp
          cases hp
      exact h.before hnil rfl (fun _ _ heq => by cases heq)
    · exact h
  | finish outcome =>
    rw [step]
    split
    · next hrunning =>
      have hnil := h.first _ hrunning rfl
      cases outcome with
      | none =>
        exact h.over rfl h.floating rfl (fun _ hj => hj) (fun hne => absurd hnil hne) rfl
          h.recorded.retired
      | some outcome => exact h.before hnil rfl (fun _ _ heq => by cases heq)
    · exact h
  | read now extra fails =>
    rw [step]
    split
    · next outcome hending =>
      have hnil := h.first _ hending rfl
      split
      · next hrow =>
        refine ⟨{ h.recorded with },
          h.floating, fun _ _ _ => hnil, fun hne => absurd hnil hne, fun _ _ _ => .inr hrow, ?_, ?_⟩
        · rintro _ ⟨⟩ _ hne
          exact absurd rfl hne
        · rintro fin (⟨t, ht⟩ | ht) <;> cases ht
      · next j hrow =>
        split
        · exact h.over rfl h.floating rfl (fun _ hj => hj) (fun hne => absurd hnil hne) rfl
            h.recorded.retired
        · refine h.before hnil rfl ?_
          rintro fin t ⟨⟩
          exact ppDone_finalized outcome extra j
    · exact h
  | record result =>
    rw [step]
    split
    · next fin t hrecording =>
      have hnil := h.first _ hrecording rfl
      have hstored : result.stored = true := hok
      have hdone := h.stamps fin (.inl ⟨t, hrecording⟩)
      rw [store, if_pos hstored]
      refine ⟨⟨fun _ _ _ => List.cons_ne_nil _ _, fun _ => List.cons_ne_nil _ _,
        fun _ => List.cons_ne_nil _ _, ?_⟩, h.floating, ?_, fun _ => .inr ⟨_, rfl, rfl⟩,
        fun _ _ _ => .inl (List.cons_ne_nil _ _), fun _ _ _ _ => List.cons_ne_nil _ _, ?_⟩
      · intro a ha b hb
        change a ∈ t :: s.history at ha
        change b ∈ t :: s.history at hb
        rw [hnil, List.mem_singleton] at ha hb
        rw [ha, hb]
      · rintro _ ⟨⟩ hpast
        cases hpast
      · rintro fin' (⟨t', ht'⟩ | ht')
        · cases ht'
        · cases ht'
          exact hdone
    · exact h
  | land t result =>
    rw [step, h.floating, if_neg List.not_mem_nil]
    exact h
  | importJob accepted saved =>
    rw [step]
    split
    · next fin hrecorded =>
      have hdone := h.stamps fin (.inr hrecorded)
      have hne := h.appended _ hrecorded rfl (by simp)
      have hkeep : ∀ t : Finalizing, t.history = s.history → t.floating = s.floating →
          t.attempt = some .stamped → t.announced = s.announced → t.retired = s.retired →
          t.Inv := by
        intro t hh hf ha hann hret
        have hne' : t.history ≠ [] := hh ▸ hne
        refine ⟨⟨fun _ _ _ => hne', fun _ => hne', fun _ => hne', hh ▸ h.recorded.once⟩,
          hf.trans h.floating, ?_, fun _ => .inr ⟨_, ha, rfl⟩, fun _ _ _ => .inl hne',
          fun _ _ _ _ => hne', ?_⟩
        · intro p hp hpast
          rw [ha] at hp
          cases hp
          cases hpast
        · intro fin' hfin
          rw [ha] at hfin
          rcases hfin with ⟨t, ht⟩ | ht <;> cases ht
      split
      · exact hkeep _ rfl rfl rfl rfl rfl
      · exact hkeep _ rfl rfl rfl rfl rfl
    · exact h
  | announce =>
    rw [step]
    split
    · next hstamped =>
      have hne := h.appended _ hstamped rfl (by simp)
      refine ⟨⟨h.recorded.stamped, fun _ => hne, h.recorded.retired, h.recorded.once⟩, h.floating,
        ?_, fun _ => .inr ⟨_, rfl, rfl⟩, fun _ _ _ => .inl hne, fun _ _ _ _ => hne, ?_⟩
      · rintro _ ⟨⟩ hpast
        cases hpast
      · rintro fin (⟨t, ht⟩ | ht) <;> cases ht
    · exact h
  | retire =>
    rw [step]
    split
    · next hannounced =>
      refine h.over rfl h.floating rfl (fun j hj => hj.elim (fun hj => by cases hj) .inr)
        (fun _ j hj => by cases hj) rfl ?_
      intro hretired
      rcases Bool.or_eq_true _ _ ▸ hretired with hretired | hrow
      · exact h.recorded.retired hretired
      · rcases h.past _ hannounced rfl with hne | hnone
        · exact hne
        · rw [hnone] at hrow
          cases hrow
    · exact h
  | cancel =>
    have hpending : s.pending = [] := by
      by_contra hne
      exact hne (hok (.inr hne)).1
    exact h.over rfl hpending rfl (fun _ hj => hj) (fun hne => (hok (.inl hne)).2) rfl
      h.recorded.retired
  | sweep =>
    rw [step]
    split
    · next hswept =>
      obtain ⟨j, hj, hdone⟩ := (Option.any_eq_true _ _).mp hswept
      have hne : s.history ≠ [] :=
        h.recorded.stamped j (.inl hj) (Bool.and_eq_true_iff.mp hdone).1
      have hpending : s.pending = [] := by
        refine h.pending_eq fun p hp => ?_
        by_contra hpast
        exact hne (h.first p hp (Bool.eq_false_iff.mpr hpast))
      exact h.over rfl hpending rfl (fun j hj => hj.elim (fun hj => by cases hj) .inr)
        (fun _ j hj => by cases hj) rfl (fun _ => hne)
    · exact h
  | save =>
    exact ⟨⟨fun j hj => h.recorded.stamped j (.inl (hj.elim id id)), h.recorded.announced,
      h.recorded.retired, h.recorded.once⟩, h.floating, h.first, h.last, h.past, h.appended,
      h.stamps⟩
  | setStatus status =>
    have hrow : ∀ j, (s.step (.setStatus status)).row = some j →
        ∃ i, s.row = some i ∧ ppDone j = ppDone i := by
      intro j hj
      obtain ⟨i, hi, rfl⟩ := Option.map_eq_some_iff.mp hj
      exact ⟨i, hi, rfl⟩
    refine ⟨⟨?_, h.recorded.announced, h.recorded.retired, h.recorded.once⟩, h.floating, h.first,
      ?_, ?_, h.appended, h.stamps⟩
    · rintro j (hj | hj) hd
      · obtain ⟨i, hi, heq⟩ := hrow j hj
        exact h.recorded.stamped i (.inl hi) (heq ▸ hd)
      · exact h.recorded.stamped j (.inr hj) hd
    · intro hne
      refine (h.last hne).imp_left fun hdone j hj => ?_
      obtain ⟨i, hi, heq⟩ := hrow j hj
      exact heq ▸ hdone i hi
    · exact fun p hp hpast => (h.past p hp hpast).imp_right fun hnone => by
        rw [step, hnone]
        rfl
  | crash landed =>
    have hpending : s.pending = [] := by
      by_contra hne
      exact hne (hok (.inr hne)).1
    have hhistory : (s.step (.crash landed)).history = s.history := by
      rw [step, hpending, ite_self]
      rfl
    exact h.over hhistory rfl rfl (fun j hj => .inr (hj.elim id id))
      (fun hne => (hok (.inl hne)).2) rfl h.recorded.retired

theorem Start.inv {s : Finalizing} (h : s.Start) : s.Inv where
  recorded :=
    { stamped := fun j hj hd => by rw [h.row j hj] at hd; cases hd
      announced := fun ha => by rw [h.announced] at ha; cases ha
      retired := fun hr => by rw [h.retired] at hr; cases hr
      once := fun a ha => by rw [h.history] at ha; cases ha }
  floating := h.floating
  first := fun p hp => by rw [h.attempt] at hp; cases hp
  last := fun hne => absurd h.history hne
  past := fun p hp => by rw [h.attempt] at hp; cases hp
  appended := fun p hp => by rw [h.attempt] at hp; cases hp
  stamps := fun fin hfin => by
    rw [h.attempt] at hfin
    rcases hfin with ⟨t, ht⟩ | ht <;> cases ht

end Finalizing

/-- **A run of careful steps records a job once, and before anybody sees it done.** -/
theorem recorded_of_run {s : Finalizing} (h : Finalizing.Reached s) : s.Recorded := by
  refine (Run.invariant (P := Finalizing.Inv) (fun s hs => hs.inv) ?_ h).recorded
  rintro s c _ hinv hok rfl
  exact Finalizing.inv_step hinv c hok

def plainJob : Job := QueueState.newJob 0 1 .nzb [] [] none 0 .completed

def unprocessed : Finalizing := ⟨some plainJob, some plainJob, [], none, [], false, false⟩

theorem start_unprocessed : unprocessed.Start := by
  refine ⟨?_, rfl, rfl, rfl, rfl, rfl⟩
  rintro j (hj | hj) <;> obtain rfl := Option.some.inj hj <;> rfl

def attemptAt (now : Int) (result : RecordResult) : List FinalStep :=
  [.spawn, .finish (some .success), .read now [] false, .record result, .importJob true true,
    .announce, .retire]

theorem recorded_of_run_attempt :
    ((attemptAt 5 .ok).foldl Finalizing.step unprocessed).Reached ∧
      ((attemptAt 5 .ok).foldl Finalizing.step unprocessed).history = [5] ∧
      ((attemptAt 5 .ok).foldl Finalizing.step unprocessed).Recorded := by
  have hreached : ((attemptAt 5 .ok).foldl Finalizing.step unprocessed).Reached := by
    refine Run.foldl (.start start_unprocessed) (throughout_of_forall (fun c hc s => ?_) _)
    simp only [attemptAt, List.mem_cons, List.not_mem_nil, or_false] at hc
    rcases hc with rfl | rfl | rfl | rfl | rfl | rfl | rfl <;> trivial
  exact ⟨hreached, rfl, recorded_of_run hreached⟩

/-- The history is full, and the job is done, announced and gone; or the process ends
behind the append, and the job is completed twice. -/
theorem unrecorded_and_twice :
    let lost := (attemptAt 5 (.error false)).foldl Finalizing.step unprocessed
    let twice := ((attemptAt 5 .ok).take 4 ++ .crash false :: (attemptAt 9 .ok).take 4).foldl
      Finalizing.step unprocessed
    (lost.announced = true ∧ lost.retired = true ∧ lost.history = [] ∧ ¬lost.Recorded) ∧
      (twice.history = [9, 5] ∧ ¬twice.Recorded) := by
  refine ⟨⟨rfl, rfl, rfl, fun h => h.announced rfl rfl⟩, rfl, fun h => ?_⟩
  exact absurd (h.once 9 (by decide) 5 (by decide)) (by decide)

end Nzbd.Post
