import Nzbd.Engine.Cascade

/-!
# The admission of a torrent

A torrent comes in by a task of its own, which talks to the owner of the queue
three times: it reserves an id, it commits the record, and if it has failed it
cancels.  Between these it fetches the source, writes the descriptor to disk and
adds the torrent to the engine, and each of them can fail.

`admit_source` cancels whatever error its attempt ends with; `admit_raw` calls the
attempt itself and cancels nothing.  So a descriptor that cannot be written, or a
caller that is gone, leaves a reservation that no task holds.  `Careful` leaves
these steps out, with a cancellation that cannot be saved and a counter that starts
again, and `transaction_of_run` is what then holds of all tasks together.
-/

namespace Nzbd.Admission

open List Runs QueueState Function Option

/-- How far a task is. -/
inductive Stage
  /-- The bytes, or the form of the source, are looked at. -/
  | preparing
  | reserving
  /-- The source is fetched, and what has come is looked at. -/
  | fetching (id : JobId)
  /-- `persist_descriptor` -/
  | persisting (id : JobId)
  | committing (id : JobId)
  /-- `add_committed` -/
  | adding (id : JobId)
  | cancelling (id : JobId)

structure Task where
  /-- `admit_source`, and not `admit_raw`. -/
  source : Bool
  /-- What the metainfo comes to, once it is there. -/
  commit : TorrentAdmissionCommit
  stage : Stage

def Task.id (task : Task) : Option JobId :=
  match task.stage with
  | .preparing => none
  | .reserving => none
  | .fetching id => some id
  | .persisting id => some id
  | .committing id => some id
  | .adding id => some id
  | .cancelling id => some id

/-- The reservation a task has to see to; the one of a committed job is gone. -/
def Task.holds (task : Task) : Option JobId :=
  match task.stage with
  | .adding _ => none
  | _ => task.id

/-- The queue and the tasks; `drawn` are all ids there have been, `reserved` those
of the tasks, and `committed` those that were replaced by a commit. -/
structure Site where
  queue : QueueState
  tasks : Nat → Option Task
  drawn : List JobId
  reserved : List JobId
  committed : List JobId

inductive Turn
  | arrive (t : Nat) (source : Bool) (commit : TorrentAdmissionCommit)
  | prepare (t : Nat) (ok : Bool)
  /-- `written` : the secret of the source has reached the disk. -/
  | reserve (t : Nat) (written : Bool)
  | fetch (t : Nat) (ok : Bool)
  | persist (t : Nat) (ok : Bool)
  | commit (t : Nat) (now : Int)
  | add (t : Nat) (ok : Bool)
  /-- `saved` : the queue without the reservation has reached the disk. -/
  | cancel (t : Nat) (saved : Bool)
  /-- Whoever waited for the task is gone, and the task with them; one that waits
  for the owner goes when it has been answered. -/
  | drop (t : Nat)
  | addUrl (now : Int) (name url : Text) (category : Option Text) (priority : Int)
  | remove (id : JobId)
  /-- Whatever happens to a job that is still live. -/
  | setStatus (id : JobId) (status : JobStatus)

namespace Site

def setTask (s : Site) (t : Nat) (task : Option Task) : Site :=
  { s with tasks := Function.update s.tasks t task }

/-- An attempt that ends with an error. -/
def failed (s : Site) (t : Nat) (task : Task) (id : JobId) : Site :=
  s.setTask t (if task.source then some { task with stage := .cancelling id } else none)

def goTo (s : Site) (t : Nat) (task : Task) (stage : Stage) : Site :=
  s.setTask t (some { task with stage := stage })

/-- The id is drawn in any case; a secret that cannot be written takes the
reservation back. -/
def reserve (s : Site) (t : Nat) (task : Task) (written : Bool) : Site :=
  let q := s.queue.reserveTorrentAdmission
  let s := { s with drawn := q.nextJobId :: s.drawn }
  if written then
    { s with queue := q, reserved := q.nextJobId :: s.reserved }.goTo t task
      (if task.source then .fetching q.nextJobId else .persisting q.nextJobId)
  else { s with queue := q.cancelTorrentAdmission q.nextJobId }.setTask t none

/-- A reservation that is not there any more is an error; a torrent that is there
already is none. -/
def commit (s : Site) (t : Nat) (task : Task) (id : JobId) (now : Int) : Site :=
  if id ∉ s.queue.pendingAdmissions then s.failed t task id
  else
    let s' := { s with
      queue := s.queue.commitTorrentAdmission now id task.commit
      committed := id :: s.committed }
    if s.queue.jobs.any (QueueState.isDuplicate task.commit) then s'.setTask t none
    else s'.goTo t task (.adding id)

/-- Only a reservation that is there is cancelled, and only with the disk. -/
def cancel (s : Site) (id : JobId) (saved : Bool) : Site :=
  if id ∈ s.queue.pendingAdmissions ∧ saved then
    { s with queue := s.queue.cancelTorrentAdmission id }
  else s

/-- Failed and deleted jobs do not come back. -/
def Live (j : Job) : Prop := j.status ≠ .failed ∧ j.status ≠ .deleted

instance (j : Job) : Decidable (Live j) := inferInstanceAs (Decidable (_ ∧ _))

def withStatus (status : JobStatus) (j : Job) : Job :=
  if Live j then { j with status := status } else j

/-- A turn that is not that of its task changes nothing. -/
def step (s : Site) : Turn → Site
  | .arrive t source commit =>
    if s.tasks t = none then s.setTask t (some ⟨source, commit, .preparing⟩) else s
  | .prepare t ok =>
    match s.tasks t with
    | some ⟨source, commit, .preparing⟩ =>
      if ok then s.goTo t ⟨source, commit, .preparing⟩ .reserving else s.setTask t none
    | _ => s
  | .reserve t written =>
    match s.tasks t with
    | some ⟨source, commit, .reserving⟩ => s.reserve t ⟨source, commit, .reserving⟩ written
    | _ => s
  | .fetch t ok =>
    match s.tasks t with
    | some ⟨source, commit, .fetching id⟩ =>
      if ok then s.goTo t ⟨source, commit, .fetching id⟩ (.persisting id)
      else s.failed t ⟨source, commit, .fetching id⟩ id
    | _ => s
  | .persist t ok =>
    match s.tasks t with
    | some ⟨source, commit, .persisting id⟩ =>
      if ok then s.goTo t ⟨source, commit, .persisting id⟩ (.committing id)
      else s.failed t ⟨source, commit, .persisting id⟩ id
    | _ => s
  | .commit t now =>
    match s.tasks t with
    | some ⟨source, commit, .committing id⟩ =>
      s.commit t ⟨source, commit, .committing id⟩ id now
    | _ => s
  | .add t ok =>
    match s.tasks t with
    | some ⟨source, commit, .adding id⟩ =>
      if ok then s.setTask t none else s.failed t ⟨source, commit, .adding id⟩ id
    | _ => s
  | .cancel t saved =>
    match s.tasks t with
    | some ⟨_, _, .cancelling id⟩ => (s.cancel id saved).setTask t none
    | _ => s
  | .drop t => s.setTask t none
  | .addUrl now name url category priority =>
    { s with
      queue := s.queue.admitUrl now name url category priority
      drawn := succU32 s.queue.nextJobId :: s.drawn }
  | .remove id => { s with queue := s.queue.removeJob id }
  | .setStatus id status => { s with queue := s.queue.updateJob id (withStatus status) }

/-! ### What the tasks are to keep -/

def SameTorrent (i j : Job) : Prop :=
  ∃ a b, i.torrent = some a ∧ j.torrent = some b ∧ a.infoHashV1 = b.infoHashV1

/-- Every id is drawn once, and an id is that of a job, of a reservation, or gone. -/
structure Ids (s : Site) : Prop where
  drawn : s.drawn.Nodup
  apart : (s.queue.jobs.map (·.id) ++ s.queue.pendingAdmissions).Nodup
  known : ∀ id ∈ s.queue.jobs.map (·.id) ++ s.queue.pendingAdmissions, id ∈ s.drawn
  reserved : s.reserved ⊆ s.drawn

structure Once (s : Site) : Prop where
  committed : s.committed.Nodup
  replaced : ∀ id ∈ s.committed, id ∉ s.queue.pendingAdmissions
  known : s.committed ⊆ s.drawn

/-- **What the admissions together keep.** -/
structure Transaction (s : Site) : Prop where
  /-- A reservation that is there is one that a task still sees to. -/
  released : ∀ id ∈ s.reserved, id ∈ s.queue.pendingAdmissions →
    ∃ t task, s.tasks t = some task ∧ task.holds = some id
  /-- A torrent that no live job has can be admitted. -/
  again : ∀ now (c : TorrentAdmissionCommit),
    s.queue.jobs.any (QueueState.isDuplicate c) = false →
    ∃ j ∈ (s.queue.reserveTorrentAdmission.commitTorrentAdmission now
      (succU32 s.queue.nextJobId) c).jobs, j.id = succU32 s.queue.nextJobId ∧
      j.torrent = some c.record ∧ Live j
  once : s.Once
  /-- Two live jobs of one torrent are one job. -/
  unique : ∀ i ∈ s.queue.jobs, ∀ j ∈ s.queue.jobs, Live i → Live j → SameTorrent i j →
    i.id = j.id
  ids : s.Ids

structure Start (s : Site) : Prop where
  tasks : s.tasks = fun _ => none
  drawn : s.drawn = s.queue.jobs.map (·.id) ++ s.queue.pendingAdmissions
  apart : s.drawn.Nodup
  counted : ∀ id ∈ s.drawn, id ≤ s.queue.nextJobId
  counter : s.queue.nextJobId < 2 ^ 32
  unique : ∀ i ∈ s.queue.jobs, ∀ j ∈ s.queue.jobs, Live i → Live j → SameTorrent i j →
    i.id = j.id
  reserved : s.reserved = []
  committed : s.committed = []

/-- **The condition on a turn.**  `admit_raw` does not fail between its reservation
and the commit, no task is dropped that has a reservation to see to, a cancellation
reaches the disk, and the counter does not start again. -/
def Careful (s : Site) : Turn → Prop
  | .persist t ok =>
    ∀ task, s.tasks t = some task → task.holds.isSome → task.source = true ∨ ok = true
  | .drop t =>
    ∀ task id, s.tasks t = some task → task.holds = some id → id ∉ s.queue.pendingAdmissions
  | .cancel _ saved => saved = true
  | .reserve .. => s.queue.nextJobId + 1 < 2 ^ 32
  | .addUrl .. => s.queue.nextJobId + 1 < 2 ^ 32
  | _ => True

/-- The states that are reached by such turns. -/
def Reached : Site → Prop := Run Start (fun s turn s' => s' = s.step turn) Careful

/-! ### The tasks -/

structure Held (s : Site) : Prop where
  held : ∀ id ∈ s.reserved, id ∈ s.queue.pendingAdmissions →
    ∃ t task, s.tasks t = some task ∧ task.holds = some id
  mine : ∀ t task id, s.tasks t = some task → task.id = some id → id ∈ s.reserved
  /-- Only `admit_source` fetches. -/
  source : ∀ t task id, s.tasks t = some task → task.stage = .fetching id → task.source = true

theorem Task.id_of_holds {task : Task} {id : JobId} (h : task.holds = some id) :
    task.id = some id := by
  cases task with
  | mk source commit stage => cases stage <;> first | exact h | cases h

variable {s : Site}

theorem Held.setTask (h : s.Held) (t : Nat) (new : Option Task)
    (hkeep : ∀ task id, s.tasks t = some task → task.holds = some id →
      id ∈ s.queue.pendingAdmissions → ∃ task', new = some task' ∧ task'.holds = some id)
    (hmine : ∀ task id, new = some task → task.id = some id → id ∈ s.reserved)
    (hsource : ∀ task id, new = some task → task.stage = .fetching id → task.source = true) :
    (s.setTask t new).Held where
  held := by
    intro id hid hpending
    obtain ⟨u, task, hu, hholds⟩ := h.held id hid hpending
    by_cases hut : u = t
    · subst hut
      obtain ⟨task', rfl, hholds'⟩ := hkeep task id hu hholds hpending
      exact ⟨u, task', update_self .., hholds'⟩
    · exact ⟨u, task, (update_of_ne hut _ _).trans hu, hholds⟩
  mine := by
    intro u task id hu hid
    change update s.tasks t new u = some task at hu
    by_cases hut : u = t
    · subst hut
      rw [update_self] at hu
      exact hmine task id hu hid
    · rw [update_of_ne hut] at hu
      exact h.mine u task id hu hid
  source := by
    intro u task id hu hstage
    change update s.tasks t new u = some task at hu
    by_cases hut : u = t
    · subst hut
      rw [update_self] at hu
      exact hsource task id hu hstage
    · rw [update_of_ne hut] at hu
      exact h.source u task id hu hstage

theorem Held.queue {s s' : Site} (h : s.Held) (htasks : s'.tasks = s.tasks)
    (hreserved : s'.reserved = s.reserved)
    (hsub : s'.queue.pendingAdmissions ⊆ s.queue.pendingAdmissions) : s'.Held where
  held := by
    intro id hid hpending
    rw [htasks]
    exact h.held id (hreserved ▸ hid) (hsub hpending)
  mine := by
    rw [htasks, hreserved]
    exact h.mine
  source := by
    rw [htasks]
    exact h.source

theorem Held.goTo (h : s.Held) {t : Nat} {task : Task} (ht : s.tasks t = some task)
    (stage : Stage) (hid : ∀ id, Task.id { task with stage := stage } = some id →
      task.id = some id)
    (hholds : ∀ id, task.holds = some id → id ∈ s.queue.pendingAdmissions →
      Task.holds { task with stage := stage } = some id)
    (hsource : ∀ id, stage = .fetching id → task.source = true) : (s.goTo t task stage).Held := by
  refine h.setTask t _ ?_ ?_ ?_
  · intro task' id ht' hh hpending
    obtain rfl := some.inj (ht.symm.trans ht')
    exact ⟨_, rfl, hholds id hh hpending⟩
  · rintro _ id ⟨⟩ hnew
    exact h.mine t task id ht (hid id hnew)
  · rintro _ id ⟨⟩ hstage
    exact hsource id hstage

theorem Held.done (h : s.Held) {t : Nat}
    (hfree : ∀ task id, s.tasks t = some task → task.holds = some id →
      id ∉ s.queue.pendingAdmissions) : (s.setTask t none).Held :=
  h.setTask t none (fun task id ht hh hp => absurd hp (hfree task id ht hh))
    (fun _ _ hnew => by cases hnew) (fun _ _ hnew => by cases hnew)

theorem Held.failed (h : s.Held) {t : Nat} {task : Task} {id : JobId}
    (ht : s.tasks t = some task) (hid : task.id = some id)
    (hraw : task.source = false → task.holds = some id → id ∉ s.queue.pendingAdmissions) :
    (s.failed t task id).Held := by
  rw [Site.failed]
  by_cases hsource : task.source = true
  · rw [if_pos hsource]
    refine h.goTo ht (.cancelling id) (fun id' h' => hid.trans h') ?_
      (fun _ h' => by cases h')
    exact fun id' hh _ => hid.symm.trans (Task.id_of_holds hh)
  · rw [if_neg hsource]
    refine h.done fun task' id' ht' hh => ?_
    obtain rfl := some.inj (ht.symm.trans ht')
    obtain rfl := some.inj (hid.symm.trans (Task.id_of_holds hh))
    exact hraw (Bool.eq_false_iff.mpr hsource) hh

theorem pending_commitTorrentAdmission (now : Int) (q : QueueState) (id : JobId)
    (c : TorrentAdmissionCommit) :
    (q.commitTorrentAdmission now id c).pendingAdmissions =
      q.pendingAdmissions.filter (· ≠ id) := by
  rw [commitTorrentAdmission]
  split
  · next hnot =>
    rw [eq_comm, filter_eq_self]
    intro k hk
    exact decide_eq_true fun heq => hnot (heq ▸ hk)
  · split <;> rfl

theorem Held.reserve (h : s.Held) {t : Nat} {task : Task}
    (ht : s.tasks t = some task) (hnone : task.id = none) (written : Bool) :
    (s.reserve t task written).Held := by
  have hothers : ∀ id ∈ s.reserved, id ∈ s.queue.pendingAdmissions →
      ∃ u u', s.tasks u = some u' ∧ u'.holds = some id ∧ u ≠ t := by
    intro id hid hp
    obtain ⟨u, u', hu, hh⟩ := h.held id hid hp
    refine ⟨u, u', hu, hh, ?_⟩
    rintro rfl
    obtain rfl := some.inj (ht.symm.trans hu)
    rw [Task.id_of_holds hh] at hnone
    cases hnone
  rw [Site.reserve]
  by_cases hwritten : written = true
  · rw [if_pos hwritten]
    constructor
    · intro id hid hp
      change id ∈ succU32 s.queue.nextJobId :: s.reserved at hid
      change id ∈ s.queue.pendingAdmissions ++ [succU32 s.queue.nextJobId] at hp
      by_cases hnew : id = succU32 s.queue.nextJobId
      · refine ⟨t, _, update_self .., ?_⟩
        rw [hnew]
        cases hsource : task.source <;> simp [Task.holds, Task.id, reserveTorrentAdmission]
      · have hold := (mem_cons.mp hid).resolve_left hnew
        have hp' := (mem_append.mp hp).resolve_right (by simpa using hnew)
        obtain ⟨u, u', hu, hh, hut⟩ := hothers id hold hp'
        exact ⟨u, u', (update_of_ne hut _ _).trans hu, hh⟩
    · intro u u' id hu hid
      change update s.tasks t _ u = some u' at hu
      change id ∈ succU32 s.queue.nextJobId :: s.reserved
      by_cases hut : u = t
      · subst hut
        rw [update_self] at hu
        obtain rfl := some.inj hu
        have : id = succU32 s.queue.nextJobId := by
          revert hid
          cases hsource : task.source <;>
            simp [Task.id, reserveTorrentAdmission, eq_comm]
        exact this ▸ mem_cons_self
      · rw [update_of_ne hut] at hu
        exact mem_cons_of_mem _ (h.mine u u' id hu hid)
    · intro u u' id hu hstage
      change update s.tasks t _ u = some u' at hu
      by_cases hut : u = t
      · subst hut
        rw [update_self] at hu
        obtain rfl := some.inj hu
        by_contra hraw
        simp [hraw] at hstage
      · rw [update_of_ne hut] at hu
        exact h.source u u' id hu hstage
  · rw [if_neg hwritten]
    have hpending : (s.queue.reserveTorrentAdmission.cancelTorrentAdmission
        (succU32 s.queue.nextJobId)).pendingAdmissions ⊆ s.queue.pendingAdmissions := by
      intro id hid
      obtain ⟨hmem, hne⟩ := mem_filter.mp hid
      exact (mem_append.mp hmem).resolve_right
        (fun hlast => of_decide_eq_true hne (mem_singleton.mp hlast))
    have hq : Held { s with
        drawn := succU32 s.queue.nextJobId :: s.drawn
        queue := s.queue.reserveTorrentAdmission.cancelTorrentAdmission
          (succU32 s.queue.nextJobId) } := h.queue rfl rfl hpending
    refine hq.done fun u id hu hh => ?_
    obtain rfl := some.inj (ht.symm.trans hu)
    rw [Task.id_of_holds hh] at hnone
    cases hnone

theorem Held.commit (h : s.Held) {t : Nat} {task : Task} {id : JobId}
    (ht : s.tasks t = some task) (hstage : task.stage = .committing id) (now : Int) :
    (s.commit t task id now).Held := by
  have hid : task.id = some id := by simp [Task.id, hstage]
  rw [Site.commit]
  split
  · next hnot => exact h.failed ht hid fun _ _ => hnot
  · have hq : Held { s with
        queue := s.queue.commitTorrentAdmission now id task.commit
        committed := id :: s.committed } := h.queue rfl rfl
      (by rw [pending_commitTorrentAdmission]; exact filter_sublist.subset)
    have hgone : id ∉ (s.queue.commitTorrentAdmission now id task.commit).pendingAdmissions := by
      rw [pending_commitTorrentAdmission]
      simp
    simp only
    split
    · refine hq.done fun task' id' ht' hh => ?_
      obtain rfl := some.inj (ht.symm.trans ht')
      obtain rfl := some.inj (hid.symm.trans (Task.id_of_holds hh))
      exact hgone
    · refine hq.goTo ht (.adding id) (fun id' h' => hid.trans h') ?_ (fun _ h' => by cases h')
      intro id' hh hp
      obtain rfl := some.inj (hid.symm.trans (Task.id_of_holds hh))
      exact absurd hp hgone

theorem Held.cancel (h : s.Held) {t : Nat} {task : Task} {id : JobId}
    (ht : s.tasks t = some task) (hid : task.id = some id) :
    ((s.cancel id true).setTask t none).Held := by
  rw [Site.cancel]
  split
  · have hq : Held { s with queue := s.queue.cancelTorrentAdmission id } := h.queue rfl rfl
      filter_sublist.subset
    refine hq.done fun task' id' ht' hh => ?_
    obtain rfl := some.inj (ht.symm.trans ht')
    obtain rfl := some.inj (hid.symm.trans (Task.id_of_holds hh))
    simp [cancelTorrentAdmission]
  · next hnot =>
    refine h.done fun task' id' ht' hh hp => ?_
    obtain rfl := some.inj (ht.symm.trans ht')
    obtain rfl := some.inj (hid.symm.trans (Task.id_of_holds hh))
    exact hnot ⟨hp, rfl⟩

/-! ### The queue -/

structure Counted (s : Site) : Prop where
  ids : s.Ids
  once : s.Once
  bound : ∀ id ∈ s.drawn, id ≤ s.queue.nextJobId
  counter : s.queue.nextJobId < 2 ^ 32
  unique : ∀ i ∈ s.queue.jobs, ∀ j ∈ s.queue.jobs, Live i → Live j → SameTorrent i j →
    i.id = j.id

theorem Counted.tasks (h : s.Counted) (tasks : Nat → Option Task) :
    Counted { s with tasks := tasks } :=
  ⟨{ h.ids with },
    { h.once with }, h.bound, h.counter, h.unique⟩

theorem Counted.fresh (h : s.Counted) (hnext : s.queue.nextJobId + 1 < 2 ^ 32) :
    succU32 s.queue.nextJobId ∉ s.drawn ∧ succU32 s.queue.nextJobId < 2 ^ 32 ∧
      ∀ id ∈ succU32 s.queue.nextJobId :: s.drawn, id ≤ succU32 s.queue.nextJobId := by
  have hsucc : succU32 s.queue.nextJobId = s.queue.nextJobId + 1 := Nat.mod_eq_of_lt hnext
  rw [hsucc]
  refine ⟨fun hmem => ?_, hnext, fun id hid => ?_⟩
  · exact absurd (h.bound _ hmem) (Nat.not_succ_le_self _)
  · rcases mem_cons.mp hid with rfl | hid
    · exact le_rfl
    · exact (h.bound id hid).trans (Nat.le_succ _)

theorem Counted.shrink {s s' : Site} (h : s.Counted) (hdrawn : s'.drawn = s.drawn)
    (hreserved : s'.reserved = s.reserved) (hcommitted : s'.committed = s.committed)
    (hnext : s'.queue.nextJobId = s.queue.nextJobId)
    (hpending : s'.queue.pendingAdmissions.Sublist s.queue.pendingAdmissions)
    (hjobs : (s'.queue.jobs.map (·.id)).Sublist (s.queue.jobs.map (·.id)))
    (hlive : ∀ i ∈ s'.queue.jobs, Live i → ∃ j ∈ s.queue.jobs, Live j ∧ j.id = i.id ∧
      j.torrent = i.torrent) : s'.Counted where
  ids :=
    { drawn := hdrawn ▸ h.ids.drawn
      apart := h.ids.apart.sublist (hjobs.append hpending)
      known := fun id hid => hdrawn ▸ h.ids.known id ((hjobs.append hpending).subset hid)
      reserved := by rw [hreserved, hdrawn]; exact h.ids.reserved }
  once :=
    { committed := hcommitted ▸ h.once.committed
      replaced := fun id hid hp => h.once.replaced id (hcommitted ▸ hid) (hpending.subset hp)
      known := by rw [hcommitted, hdrawn]; exact h.once.known }
  bound := by rw [hdrawn, hnext]; exact h.bound
  counter := hnext ▸ h.counter
  unique := by
    rintro i hi j hj hli hlj ⟨a, b, ha, hb, hab⟩
    obtain ⟨i', hi', hli', hidi, hti⟩ := hlive i hi hli
    obtain ⟨j', hj', hlj', hidj, htj⟩ := hlive j hj hlj
    rw [← hidi, ← hidj]
    exact h.unique i' hi' j' hj' hli' hlj' ⟨a, b, hti.trans ha, htj.trans hb, hab⟩

theorem Counted.cancel (h : s.Counted) (id : JobId) (saved : Bool) :
    (s.cancel id saved).Counted := by
  rw [Site.cancel]
  split
  · exact h.shrink rfl rfl rfl rfl filter_sublist (List.Sublist.refl _)
      (fun i hi hl => ⟨i, hi, hl, rfl, rfl⟩)
  · exact h

theorem Counted.remove (h : s.Counted) (id : JobId) :
    Counted { s with queue := s.queue.removeJob id } :=
  h.shrink rfl rfl rfl rfl (List.Sublist.refl _) (filter_sublist.map _)
    (fun i hi hl => ⟨i, mem_of_mem_filter hi, hl, rfl, rfl⟩)

theorem withStatus_spec (status : JobStatus) (j : Job) :
    (withStatus status j).id = j.id ∧ (withStatus status j).torrent = j.torrent ∧
      (Live (withStatus status j) → Live j) := by
  rw [withStatus]
  split
  · next hlive => exact ⟨rfl, rfl, fun _ => hlive⟩
  · exact ⟨rfl, rfl, fun hlive => hlive⟩

theorem Counted.setStatus (h : s.Counted) (id : JobId) (status : JobStatus) :
    Counted { s with queue := s.queue.updateJob id (withStatus status) } := by
  refine h.shrink rfl rfl rfl rfl (List.Sublist.refl _) ?_ ?_
  · rw [updateJob, map_modifyFirst fun j _ => (withStatus_spec status j).1]
  · intro i hi hl
    rcases mem_modifyFirst hi with hi | ⟨j, hj, rfl⟩
    · exact ⟨i, hi, hl, rfl, rfl⟩
    · obtain ⟨hid, ht, hlive⟩ := withStatus_spec status j
      exact ⟨j, mem_of_find?_eq_some hj, hlive hl, hid.symm, ht.symm⟩

theorem Counted.draw (h : s.Counted) (hnext : s.queue.nextJobId + 1 < 2 ^ 32) :
    Counted { s with
      queue := s.queue.reserveTorrentAdmission
      drawn := succU32 s.queue.nextJobId :: s.drawn
      reserved := succU32 s.queue.nextJobId :: s.reserved } := by
  obtain ⟨hfresh, hcounter, hbound⟩ := h.fresh hnext
  have hnew : succU32 s.queue.nextJobId ∉
      s.queue.jobs.map (·.id) ++ s.queue.pendingAdmissions :=
    fun hmem => hfresh (h.ids.known _ hmem)
  constructor
  · refine ⟨nodup_cons.mpr ⟨hfresh, h.ids.drawn⟩, ?_, ?_, ?_⟩
    · change (s.queue.jobs.map (·.id) ++
        (s.queue.pendingAdmissions ++ [succU32 s.queue.nextJobId])).Nodup
      rw [← append_assoc]
      exact concat_eq_append ▸ h.ids.apart.concat hnew
    · intro id hid
      change id ∈ s.queue.jobs.map (·.id) ++
        (s.queue.pendingAdmissions ++ [succU32 s.queue.nextJobId]) at hid
      rw [← append_assoc] at hid
      rcases mem_append.mp hid with hid | hid
      · exact mem_cons_of_mem _ (h.ids.known id hid)
      · rw [mem_singleton.mp hid]
        exact mem_cons_self
    · exact cons_subset_cons _ h.ids.reserved
  · refine ⟨h.once.committed, ?_, List.Subset.trans h.once.known (subset_cons_self _ _)⟩
    intro id hid hp
    rcases mem_append.mp hp with hp | hp
    · exact h.once.replaced id hid hp
    · rw [mem_singleton.mp hp] at hid
      exact hfresh (h.once.known hid)
  · exact hbound
  · exact hcounter
  · exact h.unique

theorem Counted.addUrl (h : s.Counted) (hnext : s.queue.nextJobId + 1 < 2 ^ 32)
    (now : Int) (name url : Text) (category : Option Text) (priority : Int) :
    Counted { s with
      queue := s.queue.admitUrl now name url category priority
      drawn := succU32 s.queue.nextJobId :: s.drawn } := by
  obtain ⟨hfresh, hcounter, hbound⟩ := h.fresh hnext
  have hnew : succU32 s.queue.nextJobId ∉
      s.queue.jobs.map (·.id) ++ s.queue.pendingAdmissions :=
    fun hmem => hfresh (h.ids.known _ hmem)
  have hids : (s.queue.admitUrl now name url category priority).jobs.map (·.id) =
      s.queue.jobs.map (·.id) ++ [succU32 s.queue.nextJobId] := by
    simp [admitUrl, newJob]
  have hperm : (s.queue.jobs.map (·.id) ++ [succU32 s.queue.nextJobId] ++
      s.queue.pendingAdmissions).Perm
      (succU32 s.queue.nextJobId :: (s.queue.jobs.map (·.id) ++ s.queue.pendingAdmissions)) := by
    rw [append_assoc]
    exact perm_middle
  constructor
  · refine ⟨nodup_cons.mpr ⟨hfresh, h.ids.drawn⟩, ?_, ?_,
      List.Subset.trans h.ids.reserved (subset_cons_self _ _)⟩
    · rw [hids]
      exact hperm.nodup_iff.mpr (nodup_cons.mpr ⟨hnew, h.ids.apart⟩)
    · intro id hid
      rw [hids] at hid
      rcases mem_cons.mp (hperm.subset hid) with rfl | hid
      · exact mem_cons_self
      · exact mem_cons_of_mem _ (h.ids.known id hid)
  · exact ⟨h.once.committed, h.once.replaced, List.Subset.trans h.once.known (subset_cons_self _ _)⟩
  · exact hbound
  · exact hcounter
  · -- a job that is no torrent has none in common with another
    rintro i hi j hj hli hlj ⟨a, b, ha, hb, hab⟩
    have hold : ∀ k ∈ (s.queue.admitUrl now name url category priority).jobs, ∀ c,
        k.torrent = some c → k ∈ s.queue.jobs := by
      intro k hk c hc
      rcases mem_append.mp hk with hk | hk
      · exact hk
      · rw [mem_singleton.mp hk] at hc
        cases hc
    exact h.unique i (hold i hi a ha) j (hold j hj b hb) hli hlj ⟨a, b, ha, hb, hab⟩

theorem isDuplicate_iff {c : TorrentAdmissionCommit} {j : Job} :
    QueueState.isDuplicate c j = true ↔
      (∃ t, j.torrent = some t ∧ t.infoHashV1 = c.record.infoHashV1) ∧ Live j := by
  cases ht : j.torrent <;> simp [isDuplicate, Live, ht, and_assoc]

theorem Counted.commit (h : s.Counted) {id : JobId} (now : Int)
    (c : TorrentAdmissionCommit) (hid : id ∈ s.queue.pendingAdmissions) :
    Counted { s with
      queue := s.queue.commitTorrentAdmission now id c
      committed := id :: s.committed } := by
  have hpending := pending_commitTorrentAdmission now s.queue id c
  have hknown : id ∈ s.drawn := h.ids.known id (mem_append_right _ hid)
  have honce : Once { s with
      queue := s.queue.commitTorrentAdmission now id c
      committed := id :: s.committed } := by
    refine ⟨nodup_cons.mpr ⟨fun hmem => h.once.replaced id hmem hid, h.once.committed⟩, ?_,
      cons_subset.mpr ⟨hknown, h.once.known⟩⟩
    intro k hk hp
    change k ∈ (s.queue.commitTorrentAdmission now id c).pendingAdmissions at hp
    rw [hpending] at hp
    obtain ⟨hp, hne⟩ := mem_filter.mp hp
    rcases mem_cons.mp hk with rfl | hk
    · simp at hne
    · exact h.once.replaced k hk hp
  by_cases hdup : s.queue.jobs.any (isDuplicate c) = true
  · -- the job that is there takes the parameters
    have hq : s.queue.commitTorrentAdmission now id c = { s.queue.cancelTorrentAdmission id with
        jobs := s.queue.jobs.modifyFirst (isDuplicate c) fun job =>
          { job with params := c.params.foldl setParam job.params } } := by
      rw [commitTorrentAdmission, if_neg (not_not.mpr hid), if_pos hdup]
    have hshrink : Counted { s with queue := s.queue.commitTorrentAdmission now id c } := by
      rw [hq]
      refine h.shrink rfl rfl rfl rfl filter_sublist ?_ ?_
      · change ((s.queue.jobs.modifyFirst _ _).map (·.id)).Sublist _
        rw [map_modifyFirst (g := (·.id)) (f := fun job : Job =>
          { job with params := c.params.foldl setParam job.params }) fun _ _ => rfl]
      · intro i hi hl
        rcases mem_modifyFirst hi with hi | ⟨j, hj, rfl⟩
        · exact ⟨i, hi, hl, rfl, rfl⟩
        · exact ⟨j, mem_of_find?_eq_some hj, hl, rfl, rfl⟩
    exact ⟨{ hshrink.ids with }, honce,
      hshrink.bound, hshrink.counter, hshrink.unique⟩
  · obtain ⟨job, hjob, hjobid, hjobt, -⟩ : ∃ job, (s.queue.commitTorrentAdmission now id c).jobs =
        s.queue.jobs ++ [job] ∧ job.id = id ∧ job.torrent = some c.record ∧ Live job := by
      rw [commitTorrentAdmission, if_neg (not_not.mpr hid), if_neg hdup]
      refine ⟨_, rfl, rfl, rfl, ?_⟩
      cases hp : c.paused <;> simp [Live, newJob]
    have hnext : (s.queue.commitTorrentAdmission now id c).nextJobId = s.queue.nextJobId := by
      rw [commitTorrentAdmission, if_neg (not_not.mpr hid), if_neg hdup]
      rfl
    have hsub : ∀ k ∈ (s.queue.commitTorrentAdmission now id c).jobs.map (·.id) ++
        (s.queue.commitTorrentAdmission now id c).pendingAdmissions,
        k ∈ s.queue.jobs.map (·.id) ++ s.queue.pendingAdmissions := by
      intro k hk
      rw [hjob, hpending, map_append, append_assoc] at hk
      rcases mem_append.mp hk with hk | hk
      · exact mem_append_left _ hk
      · rcases mem_append.mp hk with hk | hk
        · rw [map_singleton, hjobid, mem_singleton] at hk
          exact hk ▸ mem_append_right _ hid
        · exact mem_append_right _ (mem_of_mem_filter hk)
    refine ⟨⟨h.ids.drawn, ?_, fun k hk => h.ids.known k (hsub k hk), h.ids.reserved⟩, honce,
      fun k hk => (h.bound k hk).trans hnext.ge, hnext ▸ h.counter, ?_⟩
    · change ((s.queue.commitTorrentAdmission now id c).jobs.map (·.id) ++
        (s.queue.commitTorrentAdmission now id c).pendingAdmissions).Nodup
      rw [hjob, hpending, map_append, map_singleton, hjobid, append_assoc]
      have hperm : ([id] ++ s.queue.pendingAdmissions.filter (· ≠ id)).Nodup :=
        nodup_cons.mpr ⟨by simp, (List.Nodup.of_append_right h.ids.apart).filter _⟩
      refine nodup_append.mpr ⟨List.Nodup.of_append_left h.ids.apart, hperm, ?_⟩
      intro a ha b hb
      rcases mem_append.mp hb with hb | hb
      · rw [mem_singleton.mp hb]
        exact (nodup_append.mp h.ids.apart).2.2 a ha id hid
      · exact (nodup_append.mp h.ids.apart).2.2 a ha b (mem_of_mem_filter hb)
    · -- a live job of the torrent would have been found
      have hnone : ∀ i ∈ s.queue.jobs, Live i → ¬SameTorrent i job := by
        rintro i hi hl ⟨a, b, ha, hb, hab⟩
        obtain rfl := some.inj (hjobt.symm.trans hb)
        exact hdup (any_eq_true.mpr ⟨i, hi, isDuplicate_iff.mpr ⟨⟨a, ha, hab⟩, hl⟩⟩)
      change ∀ i ∈ (s.queue.commitTorrentAdmission now id c).jobs,
        ∀ j ∈ (s.queue.commitTorrentAdmission now id c).jobs, _
      rw [hjob]
      rintro i hi j hj hli hlj hsame
      rcases mem_append.mp hi with hi | hi <;> rcases mem_append.mp hj with hj | hj
      · exact h.unique i hi j hj hli hlj hsame
      · rw [mem_singleton.mp hj] at hsame
        exact absurd hsame (hnone i hi hli)
      · rw [mem_singleton.mp hi] at hsame
        obtain ⟨a, b, ha, hb, hab⟩ := hsame
        exact absurd ⟨b, a, hb, ha, hab.symm⟩ (hnone j hj hlj)
      · rw [mem_singleton.mp hi, mem_singleton.mp hj]

/-! ### One turn and a run -/

theorem held_step (h : s.Held) (turn : Turn) (hok : s.Careful turn) :
    (s.step turn).Held := by
  cases turn with
  | arrive t source commit =>
    rw [step]
    split
    · next hnone =>
      refine h.setTask t _ (fun task id ht => by rw [hnone] at ht; cases ht) ?_ ?_
      · rintro _ id ⟨⟩ hid
        cases hid
      · rintro _ id ⟨⟩ hstage
        cases hstage
    · exact h
  | prepare t ok =>
    rw [step]
    split
    · next source commit ht =>
      split
      · exact h.goTo ht (.reserving) (fun id hid => hid) (fun id hh _ => hh)
          (fun id hs => by cases hs)
      · refine h.done fun task id ht' hh => ?_
        obtain rfl := some.inj (ht.symm.trans ht')
        cases hh
    · exact h
  | reserve t written =>
    rw [step]
    split
    · next source commit ht => exact h.reserve ht rfl written
    · exact h
  | fetch t ok =>
    rw [step]
    split
    · next source commit id ht =>
      split
      · exact h.goTo ht (.persisting id) (fun id hid => hid) (fun id hh _ => hh)
          (fun id hs => by cases hs)
      · refine h.failed ht rfl fun hraw => ?_
        rw [h.source t _ id ht rfl] at hraw
        cases hraw
    · exact h
  | persist t ok =>
    rw [step]
    split
    · next source commit id ht =>
      split
      · exact h.goTo ht (.committing id) (fun id hid => hid) (fun id hh _ => hh)
          (fun id hs => by cases hs)
      · next hfail =>
        refine h.failed ht rfl fun hraw => ?_
        rcases hok _ ht rfl with hsource | hwent
        · rw [hsource] at hraw
          cases hraw
        · exact absurd hwent hfail
    · exact h
  | commit t now =>
    rw [step]
    split
    · next source commit id ht => exact h.commit ht rfl now
    · exact h
  | add t ok =>
    rw [step]
    split
    · next source commit id ht =>
      split
      · refine h.done fun task id ht' hh => ?_
        obtain rfl := some.inj (ht.symm.trans ht')
        cases hh
      · exact h.failed ht rfl fun _ hh => by cases hh
    · exact h
  | cancel t saved =>
    rw [step]
    split
    · next source commit id ht =>
      obtain rfl : saved = true := hok
      exact h.cancel ht rfl
    · exact h
  | drop t => exact h.done fun task id ht hh => hok task id ht hh
  | addUrl now name url category priority => exact h.queue rfl rfl (List.Subset.refl _)
  | remove id => exact h.queue rfl rfl (List.Subset.refl _)
  | setStatus id status => exact h.queue rfl rfl (List.Subset.refl _)

theorem counted_step (h : s.Counted) (turn : Turn) (hok : s.Careful turn) :
    (s.step turn).Counted := by
  cases turn with
  | reserve t written =>
    rw [step]
    split
    · next source commit ht =>
      have hdraw := h.draw hok
      rw [reserve]
      simp only
      split
      · exact hdraw.tasks _
      · -- the reservation is taken back, and its id is spent
        obtain ⟨hfresh, -⟩ := h.fresh hok
        have hpending : (s.queue.reserveTorrentAdmission.cancelTorrentAdmission
            (succU32 s.queue.nextJobId)).pendingAdmissions.Sublist
            s.queue.pendingAdmissions := by
          change ((s.queue.pendingAdmissions ++ [succU32 s.queue.nextJobId]).filter _).Sublist _
          rw [filter_append, filter_cons_of_neg (by simp), filter_nil,
            append_nil]
          exact filter_sublist
        refine Counted.tasks (s := { s with
          drawn := succU32 s.queue.nextJobId :: s.drawn
          queue := s.queue.reserveTorrentAdmission.cancelTorrentAdmission
            (succU32 s.queue.nextJobId) })
          ⟨⟨hdraw.ids.drawn, ?_, ?_, ?_⟩, ⟨hdraw.once.committed, ?_, hdraw.once.known⟩,
            hdraw.bound, hdraw.counter, h.unique⟩ _
        · exact h.ids.apart.sublist ((List.Sublist.refl _).append hpending)
        · intro id hid
          exact mem_cons_of_mem _
            (h.ids.known id (((List.Sublist.refl _).append hpending).subset hid))
        · exact List.Subset.trans h.ids.reserved (subset_cons_self _ _)
        · exact fun id hid hp => h.once.replaced id hid (hpending.subset hp)
    · exact h
  | commit t now =>
    rw [step]
    split
    · next source commit id ht =>
      rw [Site.commit]
      split
      · exact h.tasks _
      · next hid =>
        have hcommit := h.commit now commit (not_not.mp hid)
        simp only
        split
        · exact hcommit.tasks _
        · exact hcommit.tasks _
    · exact h
  | cancel t saved =>
    rw [step]
    split
    · exact (h.cancel _ _).tasks _
    · exact h
  | addUrl now name url category priority => exact h.addUrl hok now name url category priority
  | remove id => exact h.remove id
  | setStatus id status => exact h.setStatus id status
  | arrive t source commit =>
    rw [step]
    split
    · exact h.tasks _
    · exact h
  | prepare t ok =>
    rw [step]
    split
    · split <;> exact h.tasks _
    · exact h
  | fetch t ok =>
    rw [step]
    split
    · split <;> exact h.tasks _
    · exact h
  | persist t ok =>
    rw [step]
    split
    · split <;> exact h.tasks _
    · exact h
  | add t ok =>
    rw [step]
    split
    · split <;> exact h.tasks _
    · exact h
  | drop t => exact h.tasks _

theorem Start.kept (h : s.Start) : s.Held ∧ s.Counted := by
  constructor
  · refine ⟨fun id hid => ?_, fun t task id ht => ?_, fun t task id ht => ?_⟩
    · rw [h.reserved] at hid
      cases hid
    · rw [h.tasks] at ht
      cases ht
    · rw [h.tasks] at ht
      cases ht
  · refine ⟨⟨h.apart, h.drawn ▸ h.apart, fun id hid => h.drawn ▸ hid, ?_⟩, ⟨?_, ?_, ?_⟩,
      h.counted, h.counter, h.unique⟩
    · rw [h.reserved]
      exact nil_subset _
    · rw [h.committed]
      exact nodup_nil
    · intro id hid
      rw [h.committed] at hid
      cases hid
    · rw [h.committed]
      exact nil_subset _

theorem admits_again (now : Int) (q : QueueState) (c : TorrentAdmissionCommit)
    (hnone : q.jobs.any (QueueState.isDuplicate c) = false) :
    ∃ j ∈ (q.reserveTorrentAdmission.commitTorrentAdmission now (succU32 q.nextJobId) c).jobs,
      j.id = succU32 q.nextJobId ∧ j.torrent = some c.record ∧ Live j := by
  have hid : succU32 q.nextJobId ∈ q.reserveTorrentAdmission.pendingAdmissions :=
    mem_append_right _ (mem_singleton_self _)
  have hdup : ¬q.reserveTorrentAdmission.jobs.any (isDuplicate c) = true := by
    change ¬q.jobs.any (isDuplicate c) = true
    simp [hnone]
  rw [commitTorrentAdmission, if_neg (not_not.mpr hid), if_neg hdup]
  refine ⟨_, mem_append_right _ (mem_singleton_self _), rfl, rfl, ?_⟩
  cases c.paused <;> simp [Live, newJob]

end Site

/-- **The admissions of a run of careful turns keep to the transaction.** -/
theorem transaction_of_run {s : Site} (h : Site.Reached s) : s.Transaction := by
  have hkept : s.Held ∧ s.Counted := by
    refine Run.invariant (P := fun s => s.Held ∧ s.Counted) (fun s hs => hs.kept) ?_ h
    rintro s turn _ ⟨hheld, hcounted⟩ hok rfl
    exact ⟨Site.held_step hheld turn hok, Site.counted_step hcounted turn hok⟩
  exact ⟨hkept.1.held, fun now c => Site.admits_again now s.queue c, hkept.2.once,
    hkept.2.unique, hkept.2.ids⟩

/-! ### The owner of the queue -/

def plainCommit : TorrentAdmissionCommit where
  name := []
  category := none
  priority := 0
  paused := false
  params := []
  record := ⟨[], .queued, .running, none, 10, none, none⟩

def idleSite : Site := ⟨.default, fun _ => none, [], [], []⟩

theorem start_idleSite : idleSite.Start :=
  ⟨rfl, rfl, nodup_nil, fun _ h => (by cases h), by decide, fun _ h => (by cases h), rfl, rfl⟩

/-- Two tasks with one torrent: the first is admitted, the second fails to. -/
def twice : List Turn :=
  [.arrive 0 false plainCommit, .arrive 1 true plainCommit, .prepare 0 true, .prepare 1 true,
    .reserve 1 true, .reserve 0 true, .persist 0 true, .fetch 1 false, .commit 0 0,
    .cancel 1 true, .add 0 false]

theorem transaction_of_run_twice :
    (twice.foldl Site.step idleSite).Reached ∧
      (twice.foldl Site.step idleSite).queue.jobs.map (·.id) = [2] ∧
      (twice.foldl Site.step idleSite).Transaction := by
  have hcareful : Throughout Site.Careful Site.step idleSite twice := by
    refine ⟨trivial, trivial, trivial, trivial, ?_, ?_, fun _ _ _ => .inr rfl, trivial, trivial,
      rfl, trivial, trivial⟩
    · change _ < _
      decide
    · change _ < _
      decide
  have hreached : (twice.foldl Site.step idleSite).Reached :=
    Run.foldl (.start start_idleSite) hcareful
  exact ⟨hreached, by decide, transaction_of_run hreached⟩

/-- The descriptor cannot be written, the attempt ends, and its reservation stays. -/
theorem reservation_left :
    let s := [Turn.arrive 0 false plainCommit, .prepare 0 true, .reserve 0 true,
      .persist 0 false].foldl Site.step idleSite
    s.reserved = [1] ∧ s.queue.pendingAdmissions = [1] ∧ s.tasks 0 = none ∧ ¬s.Transaction := by
  refine ⟨by decide, by decide, by decide, fun h => ?_⟩
  obtain ⟨t, task, ht, -⟩ := h.released 1 (by decide) (by decide)
  by_cases h0 : t = 0
  · subst h0
    cases ht
  · simp [Site.step, Site.setTask, Site.goTo, Site.failed, Site.reserve, idleSite] at ht

end Nzbd.Admission
