import Nzbd.Engine.Naming
import Nzbd.History.Local
import Nzbd.Lib.Trace

/-!
# Duplicates

`append` hands a download to the queue unless it is a duplicate.  It asks the published
snapshot of the queue for a live job with its key, then the first page of the history for a
success with its key, and then the owner of the queue to add the job: three statements, between
which other calls, the queue and the history go on.

A download whose URL is being fetched already is not queued again: the owner answers with the job
that fetches it, and the key of the call is lost.

`Right` is what an answer should be: a call that is admitted has no live job of its key in the
queue, no earlier call of its key that was answered with a job that is live, and no success in the
history, hidden or old as it may be; and a call in mode `force` is never taken for a duplicate.
`Careful` is what a run has to avoid, and `right_of_run` that nothing else goes wrong.
-/

namespace Nzbd.Compat

open Option

open History (Index HistoryEntry Row)
open Runs (Run)

/-! ### The check -/

/-- A job as the published snapshot has it. -/
structure JobSummary where
  id : JobId
  status : JobStatus
  dupeKey : Text
  dupeScore : Int
  /-- Its parameter `*URL`. -/
  url : Option Text
  deriving DecidableEq

def parseDupe (key : Text) (score : Int64) (mode : Text) : Option DupeInfo :=
  if key = [] then none
  else
    let upper := mode.map Char.toUpper
    let mode := if upper = text "ALL" then .all else if upper = text "FORCE" then .force else .score
    some ⟨key, score.toInt32.toInt, some mode⟩

/-- A job or an entry of this score blocks the call. -/
def reaches (d : DupeInfo) (score : Int) : Bool := d.mode = some .all || d.score ≤ score

def live (j : JobSummary) : Bool :=
  match j.status with
  | .failed => false
  | .deleted => false
  | _ => true

def queueHit (d : DupeInfo) (jobs : List JobSummary) : Bool :=
  jobs.any fun j => j.dupeKey = d.key && live j && reaches d j.dupeScore

def historyHit (d : DupeInfo) (entries : List HistoryEntry) : Bool :=
  entries.any fun e => e.payload.dupeKey = d.key && (text "SUCCESS").isPrefixOf e.payload.status &&
    reaches d e.payload.dupeScore

def entries (db : Index) : List HistoryEntry := db.rows.map (·.entry)

/-- The newest entries that are not hidden. -/
def list (db : Index) (limit : Nat) : List HistoryEntry :=
  ((db.newestFirst.filter fun r => !r.entry.hidden).take limit).map (·.entry)

def trimEndNzb (name : Text) : Text :=
  if h : name ≠ [] ∧ (text ".nzb").isSuffixOf name then trimEndNzb (name.take (name.length - 4))
  else name
termination_by name.length
decreasing_by
  have := List.length_pos_iff.mpr h.1
  simp only [List.length_take]
  omega

def dupeReject (filename : Text) (d : DupeInfo) (now : Int) : HistoryEntry where
  job := 0
  completedAtUnix := now
  payload :=
    { name := trimEndNzb filename
      category := none
      finalDir := none
      status := text "DELETED/DUPE"
      size := 0
      health := 1000
      params := []
      dupeKey := d.key
      dupeScore := d.score
      stages := [] }
  hidden := false
  removedAtUnix := none
  pickedUpBy := none
  record := none

/-! ### Calls -/

inductive Stage
  | received
  | queueChecked
  /-- Not a duplicate. -/
  | cleared
  /-- A duplicate. -/
  | refused
  deriving DecidableEq

structure Call where
  filename : Text
  /-- The content, if it is a URL. -/
  url : Option Text
  addPaused : Bool
  dupe : Option DupeInfo
  stage : Stage

namespace Call

/-- What is asked about; nothing without a key, and nothing in mode `force`. -/
def asks (c : Call) : Option DupeInfo := c.dupe.filter fun d => d.mode ≠ some .force

/-- The job as it enters the queue. -/
def job (c : Call) (id : JobId) : JobSummary where
  id := id
  status := if c.url.isSome then .fetching else if c.addPaused then .paused else .queued
  dupeKey := (c.dupe.map (·.key)).getD []
  dupeScore := (c.dupe.map (·.score)).getD 0
  url := c.url

/-- The job that fetches the URL of the call already. -/
def fetched (c : Call) (queue : List JobSummary) : Option JobSummary :=
  c.url.bind fun url => queue.find? fun j => j.status = .fetching && j.url = some url

end Call

/-- The keys of calls that were admitted, and the jobs these were answered with. -/
abbrev Taken := List (DupeInfo × JobId)

inductive Event
  /-- Admitted, with the queue, the history and the earlier calls at that moment. -/
  | admitted (dupe : Option DupeInfo) (queue : List JobSummary) (history : Index) (taken : Taken)
  | failed (dupe : Option DupeInfo)
  | rejected (dupe : Option DupeInfo)

section Desk

variable {ι : Type*}

structure Desk (ι : Type*) where
  queue : List JobSummary
  nextJobId : JobId
  taken : Taken
  snapshot : List JobSummary
  history : Index
  calls : ι → Option Call
  log : List Event

inductive Input (ι : Type*)
  | append (c : ι) (filename : Text) (url : Option Text) (addPaused : Bool)
    (dupe : Option DupeInfo)
  | checkQueue (c : ι)
  /-- `read`: there is a history, and the page could be read. -/
  | checkHistory (c : ι) (read : Bool)
  /-- `ok` is what the owner of the queue says. -/
  | add (c : ι) (ok : Bool)
  | reject (c : ι) (recorded : Bool) (now : Int)
  | publish
  /-- Whatever else happens to the jobs, and to the history. -/
  | queue (jobs : List JobSummary) (nextJobId : JobId)
  | history (db : Index)

namespace Desk

def setCall [DecidableEq ι] (s : Desk ι) (c : ι) (k : Option Call) : Desk ι :=
  { s with calls := Function.update s.calls c k }

def note (s : Desk ι) (e : Event) : Desk ι := { s with log := e :: s.log }

/-- A call that is asked about goes on from here; another one is cleared at once. -/
def received (k : Call) : Call :=
  { k with stage := if k.asks.isSome then .received else .cleared }

/-- The call is answered with the job. -/
def answer (s : Desk ι) (k : Call) (id : JobId) : Desk ι :=
  { s with taken := (k.dupe.map (·, id)).toList ++ s.taken }

/-- Any queue and any history, and no call on its way. -/
def Start (s : Desk ι) : Prop :=
  (∀ c, s.calls c = none) ∧ (∀ j ∈ s.queue, j.id < s.nextJobId) ∧ s.taken = [] ∧ s.log = []

/-- The owner of the queue is asked to add the job. -/
def add (s : Desk ι) (k : Call) : Desk ι :=
  match k.fetched s.queue with
  | some j => s.answer k j.id
  | none => { s with
      queue := s.queue ++ [k.job s.nextJobId]
      nextJobId := s.nextJobId + 1 }.answer k s.nextJobId

variable [DecidableEq ι]

def step (s : Desk ι) : Input ι → Option (Desk ι)
  | .append c filename url addPaused dupe =>
    match s.calls c with
    | some _ => none
    | none => some (s.setCall c (some (received ⟨filename, url, addPaused, dupe, .received⟩)))
  | .checkQueue c =>
    match s.calls c with
    | some k =>
      if k.stage = .received then
        let hit := k.asks.any (queueHit · s.snapshot)
        some (s.setCall c (some { k with stage := if hit then .refused else .queueChecked }))
      else none
    | none => none
  | .checkHistory c read =>
    match s.calls c with
    | some k =>
      if k.stage = .queueChecked then
        let hit := read && k.asks.any (historyHit · (list s.history 1000))
        some (s.setCall c (some { k with stage := if hit then .refused else .cleared }))
      else none
    | none => none
  | .add c ok =>
    match s.calls c with
    | some k =>
      if k.stage = .cleared then
        let t := s.setCall c none
        if ok then some ((t.add k).note (.admitted k.dupe s.queue s.history s.taken))
        else some (t.note (.failed k.dupe))
      else none
    | none => none
  | .reject c recorded now =>
    match s.calls c with
    | some k =>
      if k.stage = .refused then
        let t := s.setCall c none
        let entry := (k.dupe.map fun d => dupeReject k.filename d now).filter fun _ => recorded
        some ({ t with history := (entry.map s.history.insertSeq).getD s.history }.note
          (.rejected k.dupe))
      else none
    | none => none
  | .publish => some { s with snapshot := s.queue }
  -- ids are given in order
  | .queue jobs nextJobId =>
    if s.nextJobId ≤ nextJobId ∧ ∀ j ∈ jobs, j.id < nextJobId then
      some { s with queue := jobs, nextJobId := nextJobId }
    else none
  | .history db => some { s with history := db }

def Next (s : Desk ι) (i : Input ι) (t : Desk ι) : Prop := s.step i = some t

end Desk

/-! ### What is to hold -/

/-- A call that was admitted and whose job is live blocks the call. -/
def takenHit (d : DupeInfo) (taken : Taken) (jobs : List JobSummary) : Bool :=
  taken.any fun a => a.1.key = d.key && reaches d a.1.score &&
    jobs.any fun j => j.id = a.2 && live j

/-- An answer as it should be. -/
def Right : Event → Prop
  | .admitted dupe queue db taken => ∀ d ∈ dupe, d.mode ≠ some .force →
      queueHit d queue = false ∧ takenHit d taken queue = false ∧
        historyHit d (entries db) = false
  | .failed _ => True
  | .rejected dupe => ∃ d ∈ dupe, d.mode ≠ some .force

/-- The job blocks whatever the call would. -/
def Carries (d : DupeInfo) (j : JobSummary) : Prop := j.dupeKey = d.key ∧ d.score ≤ j.dupeScore

instance (d : DupeInfo) (j : JobSummary) : Decidable (Carries d j) :=
  inferInstanceAs (Decidable (_ ∧ _))

/-- A call is not answered with a job that does not carry its key, and its own job blocks no other
call on its way. -/
def CarefulAdd (s : Desk ι) (c : ι) (k : Call) : Prop :=
  (∀ j ∈ k.fetched s.queue, ∀ d ∈ k.dupe, ∀ j' ∈ s.queue, j'.id = j.id → Carries d j') ∧
    (k.fetched s.queue = none → ∀ c', c' ≠ c → ∀ k' ∈ s.calls c',
      (k'.stage = .queueChecked ∨ k'.stage = .cleared) →
        ∀ d ∈ k'.asks, queueHit d [k.job s.nextJobId] = false)

/-- What a run has to avoid.  The snapshot shows a live job that the queue has; the first page
shows a success that the history has; while a call is on its way, no job of its key enters
the queue or comes to life there, and no success of its key comes up in the history; and no job
that is live has lost the key of a call that it answers. -/
def Careful (s : Desk ι) : Input ι → Prop
  | .checkQueue c => ∀ k ∈ s.calls c, ∀ d ∈ k.asks,
      queueHit d s.queue = true → queueHit d s.snapshot = true
  | .checkHistory c read => ∀ k ∈ s.calls c, ∀ d ∈ k.asks,
      historyHit d (entries s.history) = true →
        read = true ∧ historyHit d (list s.history 1000) = true
  | .add c ok => ok = true → ∀ k ∈ s.calls c, CarefulAdd s c k
  | .queue jobs _ => (∀ c, ∀ k ∈ s.calls c, (k.stage = .queueChecked ∨ k.stage = .cleared) →
      ∀ d ∈ k.asks, queueHit d jobs = false) ∧
      ∀ a ∈ s.taken, ∀ j ∈ jobs, j.id = a.2 → live j = true → Carries a.1 j
  | .history db => ∀ c, ∀ k ∈ s.calls c, k.stage = .cleared →
      ∀ d ∈ k.asks, historyHit d (entries db) = false
  | .append .. => True
  | .reject .. => True
  | .publish => True

/-- What is known of the calls on their way. -/
structure Inv (s : Desk ι) : Prop where
  queue : ∀ c k, s.calls c = some k → (k.stage = .queueChecked ∨ k.stage = .cleared) →
    ∀ d ∈ k.asks, queueHit d s.queue = false
  history : ∀ c k, s.calls c = some k → k.stage = .cleared →
    ∀ d ∈ k.asks, historyHit d (entries s.history) = false
  refused : ∀ c k, s.calls c = some k → k.stage = .refused → k.asks.isSome
  ids : (∀ j ∈ s.queue, j.id < s.nextJobId) ∧ ∀ a ∈ s.taken, a.2 < s.nextJobId
  carried : ∀ a ∈ s.taken, ∀ j ∈ s.queue, j.id = a.2 → live j = true → Carries a.1 j
  right : ∀ e ∈ s.log, Right e

/-! ### Steps -/

theorem historyHit_append (d : DupeInfo) (es es' : List HistoryEntry) :
    historyHit d (es ++ es') = (historyHit d es || historyHit d es') := List.any_append

theorem historyHit_insertSeq {d : DupeInfo} {e : HistoryEntry} (he : historyHit d [e] = false)
    (db : Index) : historyHit d (entries (db.insertSeq e)) = historyHit d (entries db) := by
  simp only [Index.insertSeq]
  split_ifs
  · rfl
  · simp only [historyHit, entries, Index.updateRow, List.map_map, List.any_map]
    refine congrArg (List.any db.rows) (funext fun r => ?_)
    simp only [Function.comp_apply]
    split_ifs <;> rfl
  · simp only [entries, Index.insertRow, List.map_append, List.map_cons, List.map_nil,
      historyHit_append, he, Bool.or_false]

theorem historyHit_dupeReject (d d' : DupeInfo) (filename : Text) (now : Int) :
    historyHit d [dupeReject filename d' now] = false := by
  have hstatus : (text "SUCCESS").isPrefixOf (text "DELETED/DUPE") = false := by decide
  simp [historyHit, dupeReject, hstatus]

theorem mode_of_asks {k : Call} {d : DupeInfo} (hd : d ∈ k.asks) :
    d ∈ k.dupe ∧ d.mode ≠ some .force := by
  obtain ⟨hdupe, hmode⟩ := filter_eq_some_iff.mp hd
  exact ⟨hdupe, of_decide_eq_true hmode⟩

theorem asks_of_mode {k : Call} {d : DupeInfo} (hd : d ∈ k.dupe) (hmode : d.mode ≠ some .force) :
    d ∈ k.asks := filter_eq_some_iff.mpr ⟨hd, decide_eq_true hmode⟩

variable {s t : Desk ι} {c : ι} {k : Call}

theorem Inv.note (h : Inv s) {e : Event} (he : Right e) : Inv (s.note e) :=
  ⟨h.queue, h.history, h.refused, h.ids, h.carried, fun a ha => by
    rcases List.mem_cons.mp ha with rfl | ha
    · exact he
    · exact h.right a ha⟩

variable [DecidableEq ι]

theorem calls_setCall {c' : ι} {o : Option Call} (h : (s.setCall c o).calls c' = some k) :
    (c' = c ∧ o = some k) ∨ (c' ≠ c ∧ s.calls c' = some k) := by
  by_cases hc : c' = c
  · subst hc
    exact .inl ⟨rfl, by simpa [Desk.setCall] using h⟩
  · exact .inr ⟨hc, by simpa [Desk.setCall, Function.update_of_ne hc] using h⟩

theorem Inv.setCall (h : Inv s) {o : Option Call}
    (hqueue : ∀ k ∈ o, (k.stage = .queueChecked ∨ k.stage = .cleared) →
      ∀ d ∈ k.asks, queueHit d s.queue = false)
    (hhistory : ∀ k ∈ o, k.stage = .cleared →
      ∀ d ∈ k.asks, historyHit d (entries s.history) = false)
    (hrefused : ∀ k ∈ o, k.stage = .refused → k.asks.isSome) : Inv (s.setCall c o) where
  queue c' k hk := by
    rcases calls_setCall hk with ⟨-, hk⟩ | ⟨-, hk⟩
    · exact hqueue k hk
    · exact h.queue c' k hk
  history c' k hk := by
    rcases calls_setCall hk with ⟨-, hk⟩ | ⟨-, hk⟩
    · exact hhistory k hk
    · exact h.history c' k hk
  refused c' k hk := by
    rcases calls_setCall hk with ⟨-, hk⟩ | ⟨-, hk⟩
    · exact hrefused k hk
    · exact h.refused c' k hk
  ids := h.ids
  carried := h.carried
  right := h.right

theorem Inv.gone (h : Inv s) (c : ι) : Inv (s.setCall c none) :=
  h.setCall (fun _ hk => by cases hk) (fun _ hk => by cases hk) (fun _ hk => by cases hk)

theorem Inv.stay (h : Inv s)
    (hqueue : (k.stage = .queueChecked ∨ k.stage = .cleared) →
      ∀ d ∈ k.asks, queueHit d s.queue = false)
    (hhistory : k.stage = .cleared → ∀ d ∈ k.asks, historyHit d (entries s.history) = false)
    (hrefused : k.stage = .refused → k.asks.isSome) : Inv (s.setCall c (some k)) :=
  h.setCall (fun _ hk => some.inj hk ▸ hqueue) (fun _ hk => some.inj hk ▸ hhistory)
    fun _ hk => some.inj hk ▸ hrefused

theorem inv_append (h : Inv s) (filename : Text) (url : Option Text) (addPaused : Bool)
    (dupe : Option DupeInfo) :
    Inv (s.setCall c (some (Desk.received ⟨filename, url, addPaused, dupe, .received⟩))) := by
  generalize hk : (⟨filename, url, addPaused, dupe, .received⟩ : Call) = k
  have hstage : (Desk.received k).stage = if k.asks.isSome then .received else .cleared := rfl
  have hnone (hs : (Desk.received k).stage ≠ .received) : (Desk.received k).asks = none := by
    change k.asks = none
    rw [hstage] at hs
    cases ha : k.asks with
    | none => rfl
    | some d => simp [ha] at hs
  refine h.stay (fun hs d hd => ?_) (fun hs d hd => ?_) (fun hs => ?_)
  · rw [hnone (by rcases hs with hs | hs <;> rw [hs] <;> simp)] at hd
    cases hd
  · rw [hnone (by rw [hs]; simp)] at hd
    cases hd
  · rw [hstage] at hs
    split at hs <;> cases hs

theorem inv_checkQueue (h : Inv s) (hk : s.calls c = some k)
    (hok : Careful s (.checkQueue c)) :
    Inv (s.setCall c (some { k with
      stage := if k.asks.any (queueHit · s.snapshot) then .refused else .queueChecked })) := by
  cases hhit : k.asks.any (queueHit · s.snapshot) with
  | true => exact h.stay (by simp) (by simp) fun _ => isSome_of_any hhit
  | false =>
    refine h.stay (fun _ d hd => ?_) (by simp) (by simp)
    have hd : k.asks = some d := hd
    rw [hd] at hhit
    rw [← Bool.not_eq_true]
    intro hq
    have := hok k hk d hd hq
    simp [this] at hhit

theorem inv_checkHistory (h : Inv s) {read : Bool} (hk : s.calls c = some k)
    (hstage : k.stage = .queueChecked) (hok : Careful s (.checkHistory c read)) :
    Inv (s.setCall c (some { k with
      stage := if read && k.asks.any (historyHit · (list s.history 1000)) then .refused
        else .cleared })) := by
  cases hhit : read && k.asks.any (historyHit · (list s.history 1000)) with
  | true =>
    exact h.stay (by simp) (by simp) fun _ => isSome_of_any (Bool.and_eq_true_iff.mp hhit).2
  | false =>
    refine h.stay (fun _ d hd => h.queue c k hk (.inl hstage) d hd) (fun _ d hd => ?_) (by simp)
    have hd : k.asks = some d := hd
    rw [hd] at hhit
    rw [← Bool.not_eq_true]
    intro hq
    obtain ⟨hread, hpage⟩ := hok k hk d hd hq
    simp [hread, hpage] at hhit

omit [DecidableEq ι] in
/-- What an admitted call would block is blocked by its job. -/
theorem Inv.takenHit (h : Inv s) {d : DupeInfo} (hd : queueHit d s.queue = false) :
    takenHit d s.taken s.queue = false := by
  rw [← Bool.not_eq_true] at hd ⊢
  intro hhit
  obtain ⟨a, ha, hhit⟩ := List.any_eq_true.mp hhit
  simp only [Bool.and_eq_true, decide_eq_true_eq, List.any_eq_true] at hhit
  obtain ⟨⟨hkey, hreaches⟩, j, hj, hid, hlive⟩ := hhit
  obtain ⟨hcarried, hscore⟩ := h.carried a ha j hj hid hlive
  have hblocks : reaches d j.dupeScore = true := by
    simp only [reaches, Bool.or_eq_true, decide_eq_true_eq] at hreaches ⊢
    exact hreaches.imp_right hscore.trans'
  refine hd (List.any_eq_true.mpr ⟨j, hj, ?_⟩)
  rw [hcarried, hkey, hlive, hblocks, decide_eq_true rfl]
  rfl

omit [DecidableEq ι] in
theorem Inv.answer (h : Inv s) {id : JobId} (hid : id < s.nextJobId)
    (hcarried : ∀ d ∈ k.dupe, ∀ j ∈ s.queue, j.id = id → live j = true → Carries d j) :
    Inv (s.answer k id) := by
  have hmem {a : DupeInfo × JobId} (ha : a ∈ (s.answer k id).taken) :
      (a.1 ∈ k.dupe ∧ a.2 = id) ∨ a ∈ s.taken := by
    refine (List.mem_append.mp ha).imp_left fun ha => ?_
    obtain ⟨d, hd, rfl⟩ := map_eq_some_iff.mp (mem_toList.mp ha)
    exact ⟨hd, rfl⟩
  refine ⟨h.queue, h.history, h.refused, ⟨h.ids.1, fun a ha => ?_⟩, fun a ha j hj hj' hlive => ?_,
    h.right⟩
  · rcases hmem ha with ⟨-, he⟩ | ha
    · exact he ▸ hid
    · exact h.ids.2 a ha
  · rcases hmem ha with ⟨hd, he⟩ | ha
    · exact hcarried a.1 hd j hj (hj'.trans he) hlive
    · exact h.carried a ha j hj hj' hlive

/-- The job of a new id carries what its call asked for. -/
theorem inv_admit (h : Inv s) (c : ι)
    (hok : ∀ c', c' ≠ c → ∀ k' ∈ s.calls c', (k'.stage = .queueChecked ∨ k'.stage = .cleared) →
      ∀ d ∈ k'.asks, queueHit d [k.job s.nextJobId] = false) :
    Inv ({ s.setCall c none with
      queue := s.queue ++ [k.job s.nextJobId]
      nextJobId := s.nextJobId + 1 }.answer k s.nextJobId) := by
  have hgone := h.gone c
  have hadded : Inv { s.setCall c none with
      queue := s.queue ++ [k.job s.nextJobId], nextJobId := s.nextJobId + 1 } := by
    refine ⟨fun c' k' hk' hs d hd => ?_, hgone.history, hgone.refused,
      ⟨fun j hj => ?_, fun a ha => Nat.lt_succ_of_lt (h.ids.2 a ha)⟩,
      fun a ha j hj hid hlive => ?_, hgone.right⟩
    · rw [queueHit, List.any_append, Bool.or_eq_false_iff]
      refine ⟨hgone.queue c' k' hk' hs d hd, ?_⟩
      rcases calls_setCall hk' with ⟨-, hk'⟩ | ⟨hne, hk'⟩
      · cases hk'
      · exact hok c' hne k' hk' hs d hd
    · rcases List.mem_append.mp hj with hj | hj
      · exact Nat.lt_succ_of_lt (h.ids.1 j hj)
      · obtain rfl := List.mem_singleton.mp hj
        exact Nat.lt_succ_self _
    · rcases List.mem_append.mp hj with hj | hj
      · exact h.carried a ha j hj hid hlive
      · obtain rfl := List.mem_singleton.mp hj
        exact absurd hid (h.ids.2 a ha).ne'
  refine hadded.answer (Nat.lt_succ_self _) fun d hd j hj hid _ => ?_
  rcases List.mem_append.mp hj with hj | hj
  · exact absurd hid (h.ids.1 j hj).ne
  · obtain rfl := List.mem_singleton.mp hj
    obtain hd : k.dupe = some d := hd
    simp [Carries, Call.job, hd]

theorem inv_add (h : Inv s) (hk : s.calls c = some k) (hstage : k.stage = .cleared)
    (hok : Careful s (.add c true)) :
    Inv (((s.setCall c none).add k).note (.admitted k.dupe s.queue s.history s.taken)) := by
  have hok := hok rfl k hk
  have hadded : Inv ((s.setCall c none).add k) := by
    change Inv (match k.fetched s.queue with | some j => _ | none => _)
    cases hj : k.fetched s.queue with
    | some j =>
      obtain ⟨url, -, hfind⟩ := bind_eq_some_iff.mp hj
      exact (h.gone c).answer (h.ids.1 j (List.mem_of_find?_eq_some hfind))
        fun d hd j' hj' hid _ => hok.1 j hj d hd j' hj' hid
    | none => exact inv_admit h c (hok.2 hj)
  refine hadded.note fun d hd hmode => ?_
  have hd := asks_of_mode hd hmode
  have hqueue := h.queue c k hk (.inr hstage) d hd
  exact ⟨hqueue, h.takenHit hqueue, h.history c k hk hstage d hd⟩

theorem inv_reject (h : Inv s) (hk : s.calls c = some k) (hstage : k.stage = .refused)
    (recorded : Bool) (now : Int) :
    let entry := (k.dupe.map fun d => dupeReject k.filename d now).filter fun _ => recorded
    Inv ({ s.setCall c none with
      history := (entry.map s.history.insertSeq).getD s.history }.note (.rejected k.dupe)) := by
  intro entry
  have hgone := h.gone c
  have hsame (d : DupeInfo) : historyHit d (entries ((entry.map s.history.insertSeq).getD
      s.history)) = historyHit d (entries s.history) := by
    cases hentry : entry with
    | none => rfl
    | some e =>
      obtain ⟨he, -⟩ := filter_eq_some_iff.mp hentry
      obtain ⟨d', -, rfl⟩ := map_eq_some_iff.mp he
      exact historyHit_insertSeq (historyHit_dupeReject d d' _ _) s.history
  have hrecorded : Inv { s.setCall c none with
      history := (entry.map s.history.insertSeq).getD s.history } := by
    refine ⟨hgone.queue, fun c' k' hk' hs d hd => ?_, hgone.refused, hgone.ids, hgone.carried,
      hgone.right⟩
    rw [hsame d]
    exact hgone.history c' k' hk' hs d hd
  obtain ⟨d, hd⟩ := isSome_iff_exists.mp (h.refused c k hk hstage)
  exact hrecorded.note ⟨d, mode_of_asks hd⟩

omit [DecidableEq ι] in
/-- A call is looked at only at its own stage. -/
theorem stage_of_step {stage : Stage} {f : Call → Desk ι}
    (h : (match s.calls c with
      | some k => if k.stage = stage then some (f k) else none
      | none => none) = some t) : ∃ k, s.calls c = some k ∧ k.stage = stage ∧ f k = t := by
  split at h
  · next k hc =>
    obtain ⟨hstage, ht⟩ := ite_none_right_eq_some.mp h
    exact ⟨k, hc, hstage, some.inj ht⟩
  · cases h

/-- **A careful step keeps the invariant.** -/
theorem Inv.step (h : Inv s) {i : Input ι} (hok : Careful s i) (hnext : s.Next i t) : Inv t := by
  simp only [Desk.Next] at hnext
  cases i with
  | append c filename url addPaused dupe =>
    cases hc : s.calls c with
    | some k => simp [Desk.step, hc] at hnext
    | none =>
      simp only [Desk.step, hc, some_inj] at hnext
      exact hnext ▸ inv_append h filename url addPaused dupe
  | checkQueue c =>
    obtain ⟨k, hc, -, rfl⟩ := stage_of_step hnext
    exact inv_checkQueue h hc hok
  | checkHistory c read =>
    obtain ⟨k, hc, hstage, rfl⟩ := stage_of_step hnext
    exact inv_checkHistory h hc hstage hok
  | add c ok =>
    cases ok with
    | true =>
      obtain ⟨k, hc, hstage, rfl⟩ := stage_of_step hnext
      exact inv_add h hc hstage hok
    | false =>
      obtain ⟨k, -, -, rfl⟩ := stage_of_step hnext
      exact (h.gone c).note trivial
  | reject c recorded now =>
    obtain ⟨k, hc, hstage, rfl⟩ := stage_of_step hnext
    exact inv_reject h hc hstage recorded now
  | publish =>
    obtain rfl := some.inj hnext
    exact { h with }
  | queue jobs nextJobId =>
    simp only [Desk.step] at hnext
    split at hnext
    · next hids =>
      obtain rfl := some.inj hnext
      exact ⟨hok.1, h.history, h.refused, ⟨hids.2, fun a ha => (h.ids.2 a ha).trans_le hids.1⟩,
        hok.2, h.right⟩
    · cases hnext
  | history db =>
    obtain rfl := some.inj hnext
    exact ⟨h.queue, hok, h.refused, h.ids, h.carried, h.right⟩

/-- **At most one**: in a run that avoids what `Careful` says, every answer is as it should be. -/
theorem right_of_run (h : Run Desk.Start Desk.Next Careful s) : ∀ e ∈ s.log, Right e := by
  refine (h.invariant (P := Inv) (fun s hs => ?_) fun _ _ _ hi hok hn => hi.step hok hn).right
  obtain ⟨hcalls, hids, htaken, hlog⟩ := hs
  have hnone (c : ι) (k : Call) : s.calls c ≠ some k := by simp [hcalls c]
  exact ⟨fun c k hk => absurd hk (hnone c k), fun c k hk => absurd hk (hnone c k),
    fun c k hk => absurd hk (hnone c k), ⟨hids, by simp [htaken]⟩, by simp [htaken], by simp [hlog]⟩

end Desk

/-! ### Several calls -/

def allMode : DupeInfo := ⟨text "k", 0, some .all⟩

def emptyDesk : Desk Bool := ⟨[], 1, [], [], .empty, fun _ => none, []⟩

theorem emptyDesk_start : emptyDesk.Start := ⟨fun _ => rfl, fun _ h => absurd h List.not_mem_nil, rfl, rfl⟩

/-- A call that is no duplicate, up to the answer of the owner. -/
def oneCall (c : Bool) (url : Option Text) (dupe : Option DupeInfo) : List (Input Bool) :=
  .append c (text "a.nzb") url false dupe ::
    (if dupe.isSome then [.checkQueue c, .checkHistory c true] else []) ++ [.add c true]

def indexer : Text := text "http://a.example/a.nzb"

instance : ∀ (s : Desk Bool) (i : Input Bool), Decidable (Careful s i)
  | s, .checkQueue c => inferInstanceAs (Decidable (∀ k ∈ s.calls c, ∀ d ∈ k.asks, _ → _))
  | s, .checkHistory c _ => inferInstanceAs (Decidable (∀ k ∈ s.calls c, ∀ d ∈ k.asks, _ → _))
  | s, .add c ok =>
    have (k : Call) : Decidable (CarefulAdd s c k) := inferInstanceAs (Decidable (_ ∧ _))
    inferInstanceAs (Decidable (ok = true → ∀ k ∈ s.calls c, _))
  | _, .queue .. => inferInstanceAs (Decidable (_ ∧ _))
  | s, .history _ => inferInstanceAs (Decidable (∀ c, ∀ k ∈ s.calls c, _ → _))
  | _, .append .. | _, .reject .. | _, .publish => isTrue trivial

/-- A call for a URL is admitted; the snapshot is published; the same call again is a duplicate, and
one without a key is answered with the job that is fetched. -/
def retried : List (Input Bool) :=
  oneCall false (some indexer) (some allMode) ++ [.publish,
    .append true (text "a.nzb") (some indexer) false (some allMode), .checkQueue true,
    .reject true true 5] ++ oneCall true (some indexer) none

theorem right_of_run_retried : ∃ s : Desk Bool, Run Desk.Start Desk.Next Careful s ∧
    s.queue.map (·.dupeKey) = [text "k"] ∧ s.log.length = 3 ∧ ∀ e ∈ s.log, Right e := by
  have hexec : (Trace.exec (Trace.guarded Careful Desk.step) retried emptyDesk).map
      (fun s => (s.queue.map (·.dupeKey), s.log.length)) = some ([text "k"], 3) := by decide +kernel
  obtain ⟨s, hs, heq⟩ := map_eq_some_iff.mp hexec
  obtain ⟨hqueue, hlength⟩ := Prod.mk.inj heq
  have hrun := Trace.run_of_guarded emptyDesk_start hs
  exact ⟨s, hrun, hqueue, hlength, right_of_run hrun⟩

/-- A success that a client has removed from its list. -/
def hiddenSuccess : HistoryEntry :=
  { dupeReject (text "a") allMode 50 with
    job := 90
    payload := { (dupeReject (text "a") allMode 50).payload with status := text "SUCCESS" }
    hidden := true }

def bothAsk : List (Input Bool) :=
  (oneCall false none (some allMode)).take 3 ++ (oneCall true none (some allMode)).take 3 ++
    [.add false true, .add true true]

/-- A URL without a key, the same with the key, and another one with the key. -/
def keyLost : List (Input Bool) :=
  oneCall false (some indexer) none ++ [.publish] ++ oneCall false (some indexer) (some allMode) ++
    [.publish] ++ oneCall false none (some allMode)

/-- **Admitted twice**: two calls of one key in mode `all` that overlap; one although the history
has a success, which is hidden; and two of which the first is answered with a job that was there. -/
theorem admitted_twice :
    (∃ s : Desk Bool, Run Desk.Start Desk.Next (fun _ _ => True) s ∧
      s.queue.map (·.dupeKey) = [text "k", text "k"] ∧ ¬∀ e ∈ s.log, Right e) ∧
    (∃ s : Desk Bool, Run Desk.Start Desk.Next (fun _ _ => True) s ∧
      entries s.history = [hiddenSuccess] ∧ s.queue.map (·.dupeKey) = [text "k"] ∧
      ¬∀ e ∈ s.log, Right e) ∧
    ∃ s : Desk Bool, Run Desk.Start Desk.Next (fun _ _ => True) s ∧
      s.taken = [(allMode, 2), (allMode, 1)] ∧ s.queue.map (·.status) = [.fetching, .queued] ∧
      ¬∀ e ∈ s.log, Right e := by
  refine ⟨?_, ?_, ?_⟩
  · have hexec : (Trace.exec Desk.step bothAsk emptyDesk).map (fun s => (s.queue, s.log)) =
        some ([⟨1, .queued, text "k", 0, none⟩, ⟨2, .queued, text "k", 0, none⟩],
          [.admitted (some allMode) [⟨1, .queued, text "k", 0, none⟩] .empty [(allMode, 1)],
            .admitted (some allMode) [] .empty []]) := rfl
    obtain ⟨s, hs, heq⟩ := map_eq_some_iff.mp hexec
    obtain ⟨hqueue, hlog⟩ := Prod.mk.inj heq
    refine ⟨s, Trace.run_of_exec emptyDesk_start hs, by rw [hqueue]; rfl, fun h => ?_⟩
    rw [hlog] at h
    obtain ⟨hhit, -⟩ := h _ List.mem_cons_self allMode rfl (by decide)
    exact absurd hhit (by decide)
  · have hexec : (Trace.exec Desk.step (oneCall false none (some allMode))
        { emptyDesk with history := Index.empty.insertSeq hiddenSuccess }).map
          (fun s => (s.history, s.queue, s.log)) =
        some (Index.empty.insertSeq hiddenSuccess, [⟨1, .queued, text "k", 0, none⟩],
          [.admitted (some allMode) [] (Index.empty.insertSeq hiddenSuccess) []]) := rfl
    obtain ⟨s, hs, heq⟩ := map_eq_some_iff.mp hexec
    obtain ⟨hhistory, hrest⟩ := Prod.mk.inj heq
    obtain ⟨hqueue, hlog⟩ := Prod.mk.inj hrest
    refine ⟨s, Trace.run_of_exec ⟨fun _ => rfl, fun _ h => absurd h List.not_mem_nil, rfl, rfl⟩ hs,
      by rw [hhistory]; rfl, by rw [hqueue]; rfl, fun h => ?_⟩
    rw [hlog] at h
    obtain ⟨-, -, hhit⟩ := h _ List.mem_cons_self allMode rfl (by decide)
    exact absurd hhit (by decide)
  · have hexec : (Trace.exec Desk.step keyLost emptyDesk).map
        (fun s => (s.taken, s.queue.map (·.status), s.log.head?)) =
        some ([(allMode, 2), (allMode, 1)], [.fetching, .queued],
          some (.admitted (some allMode) [⟨1, .fetching, [], 0, some indexer⟩] .empty
            [(allMode, 1)])) := rfl
    obtain ⟨s, hs, heq⟩ := map_eq_some_iff.mp hexec
    obtain ⟨htaken, hrest⟩ := Prod.mk.inj heq
    obtain ⟨hstatus, hhead⟩ := Prod.mk.inj hrest
    refine ⟨s, Trace.run_of_exec emptyDesk_start hs, htaken, hstatus, fun h => ?_⟩
    obtain ⟨-, hhit, -⟩ := h _ (List.mem_of_mem_head? hhead) allMode rfl (by decide)
    exact absurd hhit (by decide)

end Nzbd.Compat
