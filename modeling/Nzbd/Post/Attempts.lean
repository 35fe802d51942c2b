import Nzbd.Post.Manager

/-!
# Attempts under way

The manager keeps a claim for every job it has begun an attempt at.  It begins one in a
scan of the queue, for an event, for a restart, and when an attempt has ended and a
restart is waiting; an attempt waits for a slot, runs, and says in a message that it is
over.  A restart of a job with a claim cancels the attempt and waits for the message.

A cancelled attempt is dropped where it stands.  What it has handed to another thread
goes on, without a slot and without a claim.  A scan that takes a stamped row out of the
queue takes the claim away before the attempt is over, and the message of such an
attempt is read as that of the next one.

`requested` is the restart a job still waits for, `broken` are the jobs that have been
denied it, and `astray` those that have lost a claim in one of these ways; none of them is
in the code.  `Careful` keeps an attempt from being dropped while it has an operation under
way, and a job gone astray from being begun while an attempt at it is still there;
`orderly_of_run` is what is left.
-/

namespace Nzbd.Post

open List Runs Function

structure QueueRow where
  status : JobStatus
  ppDone : Bool

def QueueRow.unprocessed (r : QueueRow) : Bool := !r.ppDone && needsPp r.status

/-- An attempt that has been spawned; a running one has a slot. -/
structure Task where
  id : Nat
  job : JobId
  start : RestartPoint
  running : Bool

structure Manager where
  /-- In a cluster the leader takes rows out of the queue. -/
  gated : Bool
  rows : JobId → Option QueueRow
  active : JobId → Option Nat
  pendingRestarts : JobId → Option RestartPoint
  /-- What a scan has still to look at. -/
  scanning : List (JobId × QueueRow)
  nextId : Nat
  tasks : List Task
  cancelled : List Nat
  /-- Operations on other threads, by their tasks. -/
  blocking : List Task
  finished : List (Nat × JobId)
  stopping : Bool
  requested : JobId → Option RestartPoint
  broken : List JobId
  astray : List JobId

inductive ManagerStep
  /-- The queue shows something else, whoever has changed it. -/
  | queue (j : JobId) (row : Option QueueRow)
  | rescan (jobs : List JobId)
  /-- The scan goes on; `claim` : the gate is open. -/
  | visit (claim : Bool)
  /-- A download has ended; `exported` : whether the row has its stamp. -/
  | jobFinished (j : JobId) (claim : Bool) (exported : Option Bool)
  | jobDeleted (j : JobId)
  /-- The message of an attempt. -/
  | finished (claim : Bool)
  | restart (j : JobId) (point : RestartPoint) (claim : Bool)
  | acquire (id : Nat) (claim : Bool)
  | block (id : Nat)
  | unblock (id : Nat)
  | complete (id : Nat)
  /-- A cancelled attempt is dropped. -/
  | abandon (id : Nat)
  | stop

namespace Manager

/-- Nobody but the scan is served while it goes on. -/
def idle (s : Manager) : Bool := s.scanning = []

def spawn (s : Manager) (j : JobId) (start : RestartPoint) : Manager :=
  { s with
    nextId := s.nextId + 1
    tasks := s.tasks ++ [⟨s.nextId, j, start, false⟩]
    active := Function.update s.active j (some s.nextId)
    requested := Function.update s.requested j none
    broken := if (s.requested j).all (· = start) then s.broken else j :: s.broken }

/-- Without its claim, and without the attempt that was to follow. -/
def deny (s : Manager) (j : JobId) : Manager :=
  { s with
    requested := Function.update s.requested j none
    broken := if s.requested j = none then s.broken else j :: s.broken }

def release (s : Manager) (j : JobId) : Manager :=
  { s with
    active := Function.update s.active j none
    cancelled := (s.active j).toList ++ s.cancelled
    astray := j :: s.astray }

/-- An attempt is over, and says so. -/
def endTask (s : Manager) (t : Task) : Manager :=
  { s with
    tasks := s.tasks.filter (·.id ≠ t.id)
    finished := s.finished ++ [(t.id, t.job)] }

def find (s : Manager) (id : Nat) : Option Task := s.tasks.find? (·.id = id)

def isBlocked (s : Manager) (id : Nat) : Bool := s.blocking.any (·.id = id)

/-- One row of a scan. -/
def look (s : Manager) (j : JobId) (r : QueueRow) (claim : Bool) : Manager :=
  if !s.gated ∧ r.ppDone ∧ (r.status = .completed ∨ r.status = .failed) then s.release j
  else if r.unprocessed ∧ claim ∧ s.active j = none then s.spawn j .beginning
  else s

/-- A message that is not that of the claim comes late. -/
def heed (s : Manager) (id : Nat) (j : JobId) : Manager :=
  { s with astray := if s.active j = some id then s.astray else j :: s.astray }

def unclaim (s : Manager) (j : JobId) (rest : List (Nat × JobId)) : Manager :=
  { s with
    finished := rest
    active := Function.update s.active j none
    pendingRestarts := Function.update s.pendingRestarts j none }

/-- The claim goes, and a restart that has been waiting gets its attempt. -/
def handle (s : Manager) (j : JobId) (rest : List (Nat × JobId)) (claim : Bool) : Manager :=
  match s.pendingRestarts j with
  | none => (s.unclaim j rest).deny j
  | some point =>
    if (s.rows j).any QueueRow.unprocessed ∧ claim then (s.unclaim j rest).spawn j point
    else (s.unclaim j rest).deny j

/-- There is at least one. -/
def permits (slots : Nat) : Nat := max slots 1

variable (slots : Nat)

def step (s : Manager) : ManagerStep → Manager
  | .queue j row =>
    { s with
      rows := Function.update s.rows j row
      -- a job that is processed or gone does not wait any more
      requested := if row.any QueueRow.unprocessed then s.requested
        else Function.update s.requested j none }
  | .rescan jobs =>
    if s.idle then
      { s with scanning := jobs.filterMap fun j => (s.rows j).map fun r => (j, r) }
    else s
  | .visit claim =>
    match s.scanning with
    | [] => s
    | (j, r) :: rest => { s with scanning := rest }.look j r claim
  | .jobFinished j claim exported =>
    if s.idle ∧ claim ∧ exported = some false ∧ s.active j = none then s.spawn j .beginning else s
  | .jobDeleted j =>
    if s.idle then
      { s with
        pendingRestarts := Function.update s.pendingRestarts j none
        cancelled := (s.active j).toList ++ s.cancelled }
    else s
  | .finished claim =>
    if s.idle then
      match s.finished with
      | [] => s
      | (id, j) :: rest => (s.heed id j).handle j rest claim
    else s
  | .restart j point claim =>
    if s.idle ∧ claim ∧
        (s.rows j).any (fun r => r.unprocessed && (restartLimit r.status).any point.includes) then
      if s.active j = none then s.spawn j point
      else
        { s with
          pendingRestarts := Function.update s.pendingRestarts j (some point)
          requested := Function.update s.requested j (some point)
          cancelled := (s.active j).toList ++ s.cancelled }
    else s
  | .acquire id claim =>
    match s.find id with
    | none => s
    | some t =>
      if !t.running ∧ (s.tasks.filter (·.running)).length < permits slots then
        if claim then
          { s with tasks := s.tasks.map fun u => if u.id = id then { u with running := true } else u }
        else s.endTask t
      else s
  | .block id =>
    match s.find id with
    | none => s
    | some t =>
      if t.running ∧ !s.isBlocked id then { s with blocking := t :: s.blocking } else s
  | .unblock id => { s with blocking := s.blocking.filter (·.id ≠ id) }
  | .complete id =>
    match s.find id with
    | none => s
    | some t => if t.running ∧ !s.isBlocked id then s.endTask t else s
  | .abandon id =>
    match s.find id with
    | none => s
    | some t => if id ∈ s.cancelled ∨ s.stopping then s.endTask t else s
  | .stop => { s with stopping := true }

/-- Whoever works on a job at the moment, be it only with an operation. -/
def executing (s : Manager) : List Task := s.tasks.filter (·.running) ++ s.blocking

/-- **What is claimed.** -/
structure Orderly (s : Manager) : Prop where
  one : ∀ t ∈ s.executing, ∀ u ∈ s.executing, t.job = u.job → t.id = u.id
  bounded : (s.executing.map (·.id)).dedup.length ≤ permits slots
  /-- Every restart has had its attempt. -/
  followed : s.broken = []

/-- No attempt at a job gone astray is there. -/
def Clear (s : Manager) (j : JobId) : Prop := j ∈ s.astray → ∀ t ∈ s.tasks, t.job ≠ j

instance (s : Manager) (j : JobId) : Decidable (s.Clear j) :=
  inferInstanceAs (Decidable (_ → ∀ t ∈ s.tasks, t.job ≠ j))

/-- **The condition on a step.**  A job gone astray has no attempt when it is to be begun,
by a message with a restart behind it as well, and the gate is open for that; an event of a
deletion does not meet a restart; and an attempt is not dropped with an operation under way. -/
def Careful (s : Manager) : ManagerStep → Prop
  | .visit _ => s.scanning.head?.all fun e => !e.2.unprocessed || (s.active e.1).isSome || s.Clear e.1
  | .jobFinished j _ exported => exported = some false → s.active j = none → s.Clear j
  | .restart j _ _ => s.active j = none → s.Clear j
  | .finished claim => s.finished.head?.all fun e =>
      s.pendingRestarts e.2 = none ||
        ((s.heed e.1 e.2).Clear e.2 && (s.requested e.2 = none || claim))
  | .jobDeleted j => s.requested j = none
  | .abandon id => s.isBlocked id = false
  | _ => True

/-- Nothing has begun. -/
structure Fresh (s : Manager) : Prop where
  active : ∀ j, s.active j = none
  scanning : s.scanning = []
  tasks : s.tasks = []
  blocking : s.blocking = []
  finished : s.finished = []
  requested : ∀ j, s.requested j = none
  broken : s.broken = []

def Reached : Manager → Prop := Run Fresh (fun s c s' => s' = s.step slots c) Careful

/-- The attempts that are there. -/
structure Sound (s : Manager) : Prop where
  ids : (s.tasks.map (·.id)).Nodup
  fresh : ∀ t ∈ s.tasks, t.id < s.nextId
  one : ∀ t ∈ s.tasks, ∀ u ∈ s.tasks, t.job = u.job → t = u
  blocking : ∀ t ∈ s.blocking, t ∈ s.tasks ∧ t.running = true
  bounded : (s.tasks.filter (·.running)).length ≤ permits slots
  claimed : ∀ t ∈ s.tasks, t.job ∈ s.astray ∨ s.active t.job = some t.id
  done : ∀ e ∈ s.finished, e.1 < s.nextId ∧ ∀ t ∈ s.tasks, t.id ≠ e.1

structure Waits (s : Manager) : Prop where
  /-- The job is claimed, and the manager knows the restart. -/
  waiting : ∀ j p, s.requested j = some p → s.pendingRestarts j = some p ∧ s.active j ≠ none ∧
    (s.rows j).any QueueRow.unprocessed = true
  scanned : ∀ e ∈ s.scanning, e.2.unprocessed = false → s.requested e.1 = none
  followed : s.broken = []

structure Inv (s : Manager) : Prop extends Sound slots s, Waits s

variable {slots} {s : Manager} {j : JobId}

/-- **Without a claim there is no attempt**, unless the job has gone astray. -/
theorem Sound.none_of_unclaimed (h : s.Sound slots) (hactive : s.active j = none)
    (hclear : s.Clear j) : ∀ t ∈ s.tasks, t.job ≠ j := by
  rintro t ht rfl
  rcases h.claimed t ht with hastray | hclaim
  · exact hclear hastray t ht rfl
  · rw [hactive] at hclaim
    cases hclaim

theorem sound_spawn (h : s.Sound slots) (start : RestartPoint) (hactive : s.active j = none)
    (hclear : s.Clear j) : (s.spawn j start).Sound slots where
  ids := by
    have hnew : s.nextId ∉ s.tasks.map (·.id) := by
      intro hmem
      obtain ⟨t, ht, heq⟩ := mem_map.mp hmem
      exact absurd (h.fresh t ht) (by omega)
    change ((s.tasks ++ [_]).map _).Nodup
    rw [map_append, nodup_append]
    refine ⟨h.ids, by simp, fun a ha b hb heq => ?_⟩
    obtain rfl : b = s.nextId := by simpa using hb
    exact hnew (heq ▸ ha)
  fresh := by
    intro t ht
    change t.id < s.nextId + 1
    rcases mem_append.mp ht with ht | ht
    · have := h.fresh t ht
      omega
    · rw [mem_singleton.mp ht]
      exact Nat.lt_succ_self _
  one := by
    intro t ht u hu hjob
    rcases mem_append.mp ht with ht | ht <;> rcases mem_append.mp hu with hu | hu
    · exact h.one t ht u hu hjob
    · rw [mem_singleton.mp hu] at hjob
      exact absurd hjob (h.none_of_unclaimed hactive hclear t ht)
    · rw [mem_singleton.mp ht] at hjob
      exact absurd hjob.symm (h.none_of_unclaimed hactive hclear u hu)
    · rw [mem_singleton.mp ht, mem_singleton.mp hu]
  blocking := fun t ht => ⟨mem_append_left _ (h.blocking t ht).1, (h.blocking t ht).2⟩
  bounded := by
    change ((s.tasks ++ [_]).filter _).length ≤ _
    rw [filter_append]
    simpa using h.bounded
  claimed := by
    intro t ht
    rcases mem_append.mp ht with ht | ht
    · refine (h.claimed t ht).imp_right fun hclaim => ?_
      exact (update_of_ne (h.none_of_unclaimed hactive hclear t ht) _ _).trans hclaim
    · rw [mem_singleton.mp ht]
      exact .inr (update_self ..)
  done := by
    intro e he
    obtain ⟨hlt, hdone⟩ := h.done e he
    refine ⟨Nat.lt_succ_of_lt hlt, fun t ht => ?_⟩
    rcases mem_append.mp ht with ht | ht
    · exact hdone t ht
    · rw [mem_singleton.mp ht]
      exact hlt.ne'

theorem Waits.settle {s t : Manager} (h : s.Waits)
    (hreq : t.requested = Function.update s.requested j none)
    (hpending : ∀ i ≠ j, t.pendingRestarts i = s.pendingRestarts i)
    (hactive : ∀ i ≠ j, t.active i = s.active i) (hrows : ∀ i ≠ j, t.rows i = s.rows i)
    (hscanning : t.scanning = s.scanning) (hbroken : t.broken = []) : t.Waits where
  waiting := by
    intro i p hi
    rw [hreq] at hi
    by_cases hij : i = j
    · rw [hij, update_self] at hi
      cases hi
    · rw [update_of_ne hij] at hi
      obtain ⟨hp, ha, hr⟩ := h.waiting i p hi
      exact ⟨(hpending i hij).trans hp, (hactive i hij) ▸ ha, (hrows i hij) ▸ hr⟩
  scanned := by
    intro e he hdone
    rw [hreq]
    by_cases hej : e.1 = j
    · rw [hej, update_self]
    · rw [update_of_ne hej]
      exact h.scanned e (hscanning ▸ he) hdone
  followed := hbroken

theorem inv_spawn (h : s.Inv slots) {start : RestartPoint}
    (hactive : s.active j = none) (hclear : s.Clear j) (hreq : s.requested j = none) :
    (s.spawn j start).Inv slots where
  toSound := sound_spawn h.toSound start hactive hclear
  toWaits := by
    refine h.toWaits.settle rfl (fun _ _ => rfl) (fun i hi => update_of_ne hi _ _)
      (fun _ _ => rfl) rfl ?_
    change (if _ then _ else _) = _
    rw [hreq, if_pos (by rfl)]
    exact h.followed

theorem Inv.requested_of_unclaimed (h : s.Inv slots)
    (hactive : s.active j = none) : s.requested j = none := by
  by_contra hne
  obtain ⟨p, hp⟩ := Option.ne_none_iff_exists'.mp hne
  exact (h.waiting j p hp).2.1 hactive

theorem Inv.requested_of_processed (h : s.Inv slots)
    (hrow : (s.rows j).any QueueRow.unprocessed = false) : s.requested j = none := by
  by_contra hne
  obtain ⟨p, hp⟩ := Option.ne_none_iff_exists'.mp hne
  rw [(h.waiting j p hp).2.2] at hrow
  cases hrow

theorem inv_endTask (h : s.Inv slots) {t : Task} (ht : t ∈ s.tasks)
    (hfree : s.isBlocked t.id = false) : (s.endTask t).Inv slots := by
  have hsub : (s.endTask t).tasks.Sublist s.tasks := filter_sublist
  refine ⟨⟨h.ids.sublist (hsub.map _), fun u hu => h.fresh u (hsub.subset hu),
    fun u hu v hv => h.one u (hsub.subset hu) v (hsub.subset hv), fun u hu => ?_,
    ((hsub.filter _).length_le).trans h.bounded, fun u hu => h.claimed u (hsub.subset hu),
    fun e he => ?_⟩, h.waiting, h.scanned, h.followed⟩
  · have hne : u.id ≠ t.id := by
      intro heq
      have hany : s.isBlocked t.id = true := any_eq_true.mpr ⟨u, hu, by simpa using heq⟩
      rw [hfree] at hany
      cases hany
    exact ⟨mem_filter.mpr ⟨(h.blocking u hu).1, by simpa using hne⟩, (h.blocking u hu).2⟩
  · rcases mem_append.mp he with he | he
    · exact (h.done e he).imp_right fun hdone u hu => hdone u (hsub.subset hu)
    · rw [mem_singleton.mp he]
      exact ⟨h.fresh t ht, fun u hu => by simpa using (mem_filter.mp hu).2⟩

theorem inv_release (h : s.Inv slots) (hreq : s.requested j = none) :
    (s.release j).Inv slots where
  toSound :=
    { h.toSound with
      claimed := fun t ht => by
        by_cases hj : t.job = j
        · exact .inl (hj ▸ mem_cons_self)
        · refine (h.claimed t ht).imp (mem_cons_of_mem j) fun hclaim => ?_
          exact (update_of_ne hj _ _).trans hclaim }
  waiting := by
    intro i p hi
    obtain ⟨hp, ha, hr⟩ := h.waiting i p hi
    have hij : i ≠ j := by
      rintro rfl
      exact absurd hi (by simp [release, hreq])
    refine ⟨hp, ?_, hr⟩
    change update s.active j none i ≠ none
    rwa [update_of_ne hij]
  scanned := h.scanned
  followed := h.followed

theorem find_eq_some {id : Nat} {t : Task} (h : s.find id = some t) :
    t ∈ s.tasks ∧ t.id = id :=
  ⟨mem_of_find?_eq_some h, by simpa using find?_some h⟩

theorem Inv.rest (h : s.Inv slots) {e : JobId × QueueRow} {rest : List (JobId × QueueRow)}
    (hs : s.scanning = e :: rest) : { s with scanning := rest }.Inv slots :=
  ⟨{ h.toSound with }, h.waiting,
    fun x hx => h.scanned x (hs ▸ mem_cons_of_mem e hx), h.followed⟩

theorem inv_visit (h : s.Inv slots) {r : QueueRow} (claim : Bool)
    (hscanned : r.unprocessed = false → s.requested j = none)
    (hclear : r.unprocessed = true → s.active j = none → s.Clear j) :
    (s.look j r claim).Inv slots := by
  unfold look
  split
  · next hretire => exact inv_release h (hscanned (by simp [QueueRow.unprocessed, hretire.2.1]))
  · split
    · next hspawn =>
      obtain ⟨hneeds, -, hactive⟩ := hspawn
      exact inv_spawn h hactive (hclear hneeds hactive) (h.requested_of_unclaimed hactive)
    · exact h

theorem Sound.eq_of_id (h : s.Sound slots) {t u : Task} (ht : t ∈ s.tasks)
    (hu : u ∈ s.tasks) (hid : t.id = u.id) : t = u :=
  inj_on_of_nodup_map h.ids ht hu hid

theorem countP_or_le {α : Type*} (p q : α → Bool) (l : List α) :
    l.countP (fun x => p x || q x) ≤ l.countP p + l.countP q := by
  induction l with
  | nil => exact Nat.le_refl _
  | cons a l ih =>
    rw [countP_cons, countP_cons, countP_cons]
    cases p a <;> cases q a <;> simp <;> omega

theorem sound_acquire (h : s.Sound slots) {t : Task} {id : Nat} (ht : t ∈ s.tasks)
    (hid : t.id = id) (hwaiting : t.running = false)
    (hslot : (s.tasks.filter (·.running)).length < permits slots) :
    Sound slots { s with
      tasks := s.tasks.map fun u => if u.id = id then { u with running := true } else u } := by
  have hid' : ∀ u : Task, (if u.id = id then { u with running := true } else u).id = u.id := by
    intro u
    split <;> rfl
  have hjob : ∀ u : Task, (if u.id = id then { u with running := true } else u).job = u.job := by
    intro u
    split <;> rfl
  refine ⟨?_, ?_, ?_, ?_, ?_, forall_mem_map.mpr fun u hu => ?_, fun e he =>
    (h.done e he).imp_right fun hdone => forall_mem_map.mpr fun u hu => ?_⟩
  · have hids : (s.tasks.map fun u => if u.id = id then { u with running := true } else u).map
        (·.id) = s.tasks.map (·.id) := by
      rw [map_map]
      exact map_congr_left fun u _ => hid' u
    exact hids ▸ h.ids
  · intro u hu
    obtain ⟨v, hv, rfl⟩ := mem_map.mp hu
    rw [hid']
    exact h.fresh v hv
  · intro u hu v hv huv
    obtain ⟨x, hx, rfl⟩ := mem_map.mp hu
    obtain ⟨y, hy, rfl⟩ := mem_map.mp hv
    rw [hjob, hjob] at huv
    rw [h.one x hx y hy huv]
  · intro u hu
    obtain ⟨hmem, hrunning⟩ := h.blocking u hu
    have hne : u.id ≠ id := by
      intro heq
      rw [h.eq_of_id hmem ht (heq.trans hid.symm), hwaiting] at hrunning
      cases hrunning
    exact ⟨mem_map.mpr ⟨u, hmem, if_neg hne⟩, hrunning⟩
  · have hone : s.tasks.countP (fun u => decide (u.id = id)) ≤ 1 := by
      have hcount := nodup_iff_count_le_one.mp h.ids id
      rw [count, countP_map] at hcount
      refine le_of_eq_of_le (countP_congr fun u _ => ?_) hcount
      simp
    have hmap : ((s.tasks.map fun u => if u.id = id then { u with running := true } else u).filter
        (·.running)).length = s.tasks.countP fun u => u.running || decide (u.id = id) := by
      rw [← countP_eq_length_filter, countP_map]
      refine countP_congr fun u _ => ?_
      by_cases hu : u.id = id <;> simp [hu]
    have hor := countP_or_le (·.running) (fun u => decide (u.id = id)) s.tasks
    have hrunning : s.tasks.countP (·.running) = (s.tasks.filter (·.running)).length :=
      countP_eq_length_filter
    refine hmap.trans_le ?_
    omega
  · rw [hid', hjob]
    exact h.claimed u hu
  · rw [hid']
    exact hdone u hu

theorem sound_unclaim (h : s.Sound slots) {id : Nat} {rest : List (Nat × JobId)}
    (hf : s.finished = (id, j) :: rest) : ((s.heed id j).unclaim j rest).Sound slots :=
  { h with
    claimed := fun t ht => by
      by_cases hj : t.job = j
      · refine .inl ?_
        change t.job ∈ if s.active j = some id then s.astray else j :: s.astray
        split
        · next hclaim =>
          -- an attempt with this claim is over
          refine (h.claimed t ht).resolve_right fun hother => ?_
          rw [hj, hclaim] at hother
          exact (h.done (id, j) (hf ▸ mem_cons_self)).2 t ht (Option.some.inj hother).symm
        · exact hj ▸ mem_cons_self
      · refine (h.claimed t ht).imp (fun hastray => ?_) (update_of_ne hj _ _).trans
        change t.job ∈ if s.active j = some id then s.astray else j :: s.astray
        split
        · exact hastray
        · exact mem_cons_of_mem j hastray
    done := fun e he => h.done e (hf ▸ mem_cons_of_mem _ he) }

theorem inv_handle (h : s.Inv slots) {id : Nat} {rest : List (Nat × JobId)}
    (hf : s.finished = (id, j) :: rest) (claim : Bool) (hok : s.pendingRestarts j = none ∨
      (s.heed id j).Clear j ∧ (s.requested j = none ∨ claim = true)) :
    ((s.heed id j).handle j rest claim).Inv slots := by
  have hsettle : ∀ t : Manager, t.requested = update s.requested j none →
      t.pendingRestarts = update s.pendingRestarts j none →
      (∀ i ≠ j, t.active i = s.active i) → t.rows = s.rows → t.scanning = s.scanning →
      t.broken = [] → t.Waits := fun t hreq hpending hactive hrows hscanning hbroken =>
    h.toWaits.settle hreq (fun i hi => by rw [hpending, update_of_ne hi]) hactive
      (fun i _ => by rw [hrows]) hscanning hbroken
  have hother : ∀ v, ∀ i ≠ j, update (update s.active j none) j v i =
      s.active i := fun v i hi => by rw [update_of_ne hi, update_of_ne hi]
  have hdeny : s.requested j = none → (((s.heed id j).unclaim j rest).deny j).broken = [] :=
    fun hreq => (if_pos hreq).trans h.followed
  have hsound := sound_unclaim h.toSound hf
  unfold handle
  split
  · next hnone =>
    have hreq : s.requested j = none := by
      by_contra hne
      obtain ⟨p, hp⟩ := Option.ne_none_iff_exists'.mp hne
      exact absurd ((h.waiting j p hp).1.symm.trans hnone) (by simp)
    refine ⟨{ hsound with }, ?_⟩
    exact hsettle _ rfl rfl (fun i hi => update_of_ne hi _ _) rfl rfl (hdeny hreq)
  · next point hsome =>
    have hsome : s.pendingRestarts j = some point := hsome
    obtain ⟨hclear, hclaim⟩ := hok.resolve_left (by simp [hsome])
    split
    · refine ⟨sound_spawn hsound point (update_self ..) hclear, ?_⟩
      refine hsettle _ rfl rfl (hother _) rfl rfl ?_
      have hall : (s.requested j).all (· = point) = true := by
        cases hreq : s.requested j with
        | none => rfl
        | some p =>
          have hp := (h.waiting j p hreq).1
          rw [hsome] at hp
          simp [Option.some.inj hp]
      exact (if_pos hall).trans h.followed
    · next hno =>
      have hreq : s.requested j = none := by
        by_contra hne
        obtain ⟨p, hp⟩ := Option.ne_none_iff_exists'.mp hne
        exact hno ⟨(h.waiting j p hp).2.2, hclaim.resolve_left hne⟩
      refine ⟨{ hsound with }, ?_⟩
      exact hsettle _ rfl rfl (fun i hi => update_of_ne hi _ _) rfl rfl (hdeny hreq)

theorem inv_step (h : s.Inv slots) (c : ManagerStep) (hok : s.Careful c) :
    (s.step slots c).Inv slots := by
  cases c with
  | queue j row =>
    by_cases hrow : row.any QueueRow.unprocessed = true
    · refine ⟨{ h.toSound with }, ?_, ?_, h.followed⟩
      · intro i p hi
        rw [step, hrow] at hi
        obtain ⟨hp, ha, hr⟩ := h.waiting i p hi
        refine ⟨hp, ha, ?_⟩
        change (update s.rows j row i).any _ = true
        by_cases hij : i = j
        · rwa [hij, update_self]
        · rwa [update_of_ne hij]
      · intro e he hdone
        rw [step, hrow]
        exact h.scanned e he hdone
    · have hreq : (s.step slots (.queue j row)).requested = update s.requested j none :=
        if_neg hrow
      exact ⟨{ h.toSound with },
        h.toWaits.settle hreq (fun _ _ => rfl) (fun _ _ => rfl)
          (fun i hi => update_of_ne hi _ _) rfl h.followed⟩
  | rescan jobs =>
    rw [step]
    split
    · refine ⟨{ h.toSound with }, h.waiting, ?_, h.followed⟩
      intro e he hdone
      obtain ⟨j, -, hj⟩ := mem_filterMap.mp he
      obtain ⟨r, hr, rfl⟩ := Option.map_eq_some_iff.mp hj
      exact h.requested_of_processed (by rw [hr]; exact hdone)
    · exact h
  | visit claim =>
    rw [step]
    split
    · exact h
    · next j r rest hscanning =>
      have hcareful : (!r.unprocessed || (s.active j).isSome || decide (s.Clear j)) = true := by
        have := hok
        rw [Careful, hscanning] at this
        exact this
      refine inv_visit (h.rest hscanning) claim (h.scanned (j, r) (by simp [hscanning])) ?_
      intro hneeds hactive
      have hnone : s.active j = none := hactive
      have hclear : s.Clear j := by simpa [hneeds, hnone] using hcareful
      exact hclear
  | jobFinished j claim exported =>
    rw [step]
    split
    · next hspawn =>
      obtain ⟨-, -, hexported, hactive⟩ := hspawn
      exact inv_spawn h hactive (hok hexported hactive) (h.requested_of_unclaimed hactive)
    · exact h
  | jobDeleted j =>
    rw [step]
    split
    · refine ⟨{ h.toSound with }, ?_, h.scanned, h.followed⟩
      intro i p hi
      obtain ⟨hp, ha, hr⟩ := h.waiting i p hi
      have hij : i ≠ j := by
        rintro rfl
        rw [show s.requested i = none from hok] at hi
        cases hi
      refine ⟨?_, ha, hr⟩
      change update s.pendingRestarts j none i = some p
      rwa [update_of_ne hij]
    · exact h
  | finished claim =>
    rw [step]
    split
    · split
      · exact h
      · next i j rest hfinished =>
        refine inv_handle h hfinished claim ?_
        have hcareful := hok
        rw [Careful, hfinished] at hcareful
        simpa using hcareful
    · exact h
  | restart j point claim =>
    rw [step]
    split
    · next haccepted =>
      obtain ⟨hidle, -, hrow⟩ := haccepted
      split
      · next hactive =>
        exact inv_spawn h hactive (hok hactive) (h.requested_of_unclaimed hactive)
      · next hactive =>
        refine ⟨{ h.toSound with }, ?_, ?_, h.followed⟩
        · intro i p hi
          change update s.requested j (some point) i = some p at hi
          by_cases hij : i = j
          · rw [hij, update_self] at hi
            refine ⟨?_, hij ▸ hactive, ?_⟩
            · change update s.pendingRestarts j (some point) i = some p
              rw [hij, update_self, hi]
            · obtain ⟨r, hr, hneeds⟩ := (Option.any_eq_true _ _).mp hrow
              change (s.rows i).any _ = true
              rw [hij, hr]
              exact (Bool.and_eq_true_iff.mp hneeds).1
          · rw [update_of_ne hij] at hi
            obtain ⟨hp, ha, hr⟩ := h.waiting i p hi
            refine ⟨?_, ha, hr⟩
            change update s.pendingRestarts j (some point) i = some p
            rwa [update_of_ne hij]
        · intro e he
          rw [of_decide_eq_true hidle] at he
          cases he
    · exact h
  | acquire id claim =>
    rw [step]
    split
    · exact h
    · next t hfind =>
      obtain ⟨ht, hid⟩ := find_eq_some hfind
      split
      · next hslot =>
        have hwaiting : t.running = false := by simpa using hslot.1
        split
        · exact ⟨sound_acquire h.toSound ht hid hwaiting hslot.2, h.waiting, h.scanned, h.followed⟩
        · refine inv_endTask h ht ?_
          rw [Bool.eq_false_iff]
          intro hblocked
          obtain ⟨u, hu, hut⟩ := any_eq_true.mp hblocked
          obtain ⟨hmem, hrunning⟩ := h.blocking u hu
          rw [h.eq_of_id hmem ht (by simpa using hut), hwaiting] at hrunning
          cases hrunning
      · exact h
  | block id =>
    rw [step]
    split
    · exact h
    · next t hfind =>
      obtain ⟨ht, -⟩ := find_eq_some hfind
      split
      · next hblock =>
        refine ⟨{ h.toSound with blocking := fun u hu => ?_ }, h.waiting, h.scanned, h.followed⟩
        rcases mem_cons.mp hu with rfl | hu
        · exact ⟨ht, hblock.1⟩
        · exact h.blocking u hu
      · exact h
  | unblock id =>
    exact ⟨{ h.toSound with blocking := fun u hu => h.blocking u (mem_filter.mp hu).1 },
      h.waiting, h.scanned, h.followed⟩
  | complete id =>
    rw [step]
    split
    · exact h
    · next t hfind =>
      obtain ⟨ht, hid⟩ := find_eq_some hfind
      split
      · next hdone => exact inv_endTask h ht (by simpa [hid] using hdone.2)
      · exact h
  | abandon id =>
    rw [step]
    split
    · exact h
    · next t hfind =>
      obtain ⟨ht, hid⟩ := find_eq_some hfind
      split
      · exact inv_endTask h ht (hid ▸ hok)
      · exact h
  | stop =>
    exact ⟨{ h.toSound with }, h.waiting, h.scanned, h.followed⟩

theorem Fresh.inv (h : s.Fresh) : s.Inv slots where
  ids := by rw [h.tasks]; exact nodup_nil
  fresh := fun t ht => by rw [h.tasks] at ht; cases ht
  one := fun t ht => by rw [h.tasks] at ht; cases ht
  blocking := fun t ht => by rw [h.blocking] at ht; cases ht
  bounded := by rw [h.tasks]; exact Nat.zero_le _
  claimed := fun t ht => by rw [h.tasks] at ht; cases ht
  done := fun e he => by rw [h.finished] at he; cases he
  waiting := fun j p hp => by rw [h.requested j] at hp; cases hp
  scanned := fun e he => by rw [h.scanning] at he; cases he
  followed := h.broken

theorem Inv.orderly (h : s.Inv slots) : s.Orderly slots := by
  have hsub : ∀ t ∈ s.executing, t ∈ s.tasks.filter (·.running) := by
    intro t ht
    rcases mem_append.mp ht with ht | ht
    · exact ht
    · exact mem_filter.mpr ⟨(h.blocking t ht).1, (h.blocking t ht).2⟩
  refine ⟨fun t ht u hu hjob => ?_, ?_, h.followed⟩
  · have ht' := (mem_filter.mp (hsub t ht)).1
    have hu' := (mem_filter.mp (hsub u hu)).1
    rw [h.one t ht' u hu' hjob]
  · have hids : (s.executing.map (·.id)).dedup ⊆ (s.tasks.filter (·.running)).map (·.id) := by
      intro i hi
      obtain ⟨t, ht, rfl⟩ := mem_map.mp (mem_dedup.mp hi)
      exact mem_map_of_mem (hsub t ht)
    have hle := ((nodup_dedup _).subperm hids).length_le
    rw [length_map] at hle
    exact hle.trans h.bounded

end Manager

/-- **One attempt at a job at a time, no more than there are slots, and every restart
has its attempt,** as long as the steps are careful. -/
theorem orderly_of_run {slots : Nat} {s : Manager} (h : Manager.Reached slots s) :
    s.Orderly slots := by
  refine (Run.invariant (P := Manager.Inv slots) (fun s hs => hs.inv) ?_ h).orderly
  rintro s c _ hinv hok rfl
  exact Manager.inv_step hinv c hok

/-- A single node with a job that is waiting to be processed. -/
def waitingJob : Manager where
  gated := false
  rows := fun j => if j = 1 then some ⟨.completed, false⟩ else none
  active := fun _ => none
  pendingRestarts := fun _ => none
  scanning := []
  nextId := 0
  tasks := []
  cancelled := []
  blocking := []
  finished := []
  stopping := false
  requested := fun _ => none
  broken := []
  astray := []

theorem fresh_waitingJob : waitingJob.Fresh :=
  ⟨fun _ => rfl, rfl, rfl, rfl, rfl, fun _ => rfl, rfl⟩

/-- A scan begins an attempt, and it is restarted while it moves the files; `ends` : the
move has ended before the attempt is dropped. -/
def restartedMove (ends : Bool) : List ManagerStep :=
  [.rescan [1], .visit true, .acquire 0 true, .block 0, .restart 1 .beginning true] ++
    (if ends then [.unblock 0] else []) ++ [.abandon 0, .finished true, .acquire 1 true]

theorem orderly_of_run_restarted :
    let s := (restartedMove true).foldl (Manager.step 1) waitingJob
    s.Reached 1 ∧ s.executing.map (·.id) = [1] ∧ s.Orderly 1 := by
  have hreached : ((restartedMove true).foldl (Manager.step 1) waitingJob).Reached 1 := by
    refine Run.foldl (.start fresh_waitingJob) ?_
    exact ⟨trivial, rfl, trivial, trivial, fun h => (by cases h), trivial, rfl, rfl, trivial,
      trivial⟩
  exact ⟨hreached, by decide, orderly_of_run hreached⟩

/-- The move goes on without the attempt, and the next one begins: two at one job, with
one slot. -/
theorem two_attempts :
    let s := (restartedMove false).foldl (Manager.step 1) waitingJob
    s.executing.map (·.id) = [1, 0] ∧ ¬s.Orderly 1 := by
  refine ⟨by decide, fun h => ?_⟩
  exact absurd h.bounded (by decide)

end Nzbd.Post
