import Nzbd.Post.Manager

/-!
# Jobs that have failed

A job whose download has failed goes through no stages.  The manager puts the time of
its completion on the row, parks or deletes its files, appends an entry under that time
to the history, stamps the row and says that it is finished.  It works on a copy of the
row, which it asks the queue for, and it gives up at the first thing that goes wrong;
the next event or scan finds the row without its stamp and begins again.

Files that will not go are tried three times, and the tries are counted on the row.  When
the last try was is in memory only.

A row the queue does not have is taken for a job that is finished without a row: its
entry is appended all the same, under the time of the day.  `Admits` says which answers
of the disk do no harm, and `failsOnce_of_run` what they keep.
-/

namespace Nzbd.Post

open List Runs Numeral
open Engine.Owner (ppDoneParam)

/-! ### Parameters -/

def param (ps : List (Text × Text)) (k : Text) : Option Text :=
  (ps.find? fun p => p.1 = k).map (·.2)

/-- The value of the first parameter of that name, or a new one. -/
def setParam (k v : Text) : List (Text × Text) → List (Text × Text)
  | [] => [(k, v)]
  | p :: ps => if p.1 = k then (k, v) :: ps else p :: setParam k v ps

theorem param_isSome (ps : List (Text × Text)) (k : Text) :
    (param ps k).isSome = ps.any fun p => p.1 = k := by
  rw [param, Option.isSome_map, Bool.eq_iff_iff, find?_isSome, any_eq_true]

theorem param_append (ps qs : List (Text × Text)) (k : Text) :
    param (ps ++ qs) k = (param ps k).or (param qs k) := by
  rw [param, find?_append, Option.map_or, param, param]

theorem param_append_of_ne (ps : List (Text × Text)) {k k' : Text} (v : Text) (h : k' ≠ k) :
    param (ps ++ [(k', v)]) k = param ps k := by
  have hnone : param [(k', v)] k = none := by simp [param, h]
  rw [param_append, hnone, Option.or_none]

theorem param_setParam_self (k v : Text) (ps : List (Text × Text)) :
    param (setParam k v ps) k = some v := by
  induction ps with
  | nil => simp [setParam, param]
  | cons p ps ih =>
    rw [setParam]
    by_cases hp : p.1 = k
    · rw [if_pos hp]
      simp [param]
    · rw [if_neg hp, param, find?_cons_of_neg (by simpa using hp)]
      exact ih

theorem param_setParam_of_ne {k k' : Text} (v : Text) (ps : List (Text × Text)) (h : k' ≠ k) :
    param (setParam k' v ps) k = param ps k := by
  induction ps with
  | nil => simp [setParam, param, h]
  | cons p ps ih =>
    rw [setParam]
    by_cases hp : p.1 = k'
    · rw [if_pos hp, param, param, find?_cons_of_neg (by simpa using h),
        find?_cons_of_neg (by simpa [hp] using h)]
    · rw [if_neg hp]
      by_cases hk : p.1 = k
      · rw [param, param, find?_cons_of_pos (by simpa using hk),
          find?_cons_of_pos (by simpa using hk)]
      · rw [param, param, find?_cons_of_neg (by simpa using hk),
          find?_cons_of_neg (by simpa using hk)]
        exact ih

/-! ### The row -/

def ppFailureAtParam : Text := text "*PP:failure-at"

def ppFailureDispositionAttemptsParam : Text := text "*PP:failure-disposition-attempts"

def failureDispositionAttemptLimit : Nat := 3

/-- In milliseconds. -/
def rescanInterval : Nat := 30000

/-- A time of the day. -/
abbrev UnixTime : Type := { t : Int // Signed (2 ^ 63) t }

def failureAt (j : Job) : Option Int :=
  (param j.params ppFailureAtParam).bind (fromStrSigned (2 ^ 63))

def hasFailureAt (j : Job) : Bool := j.params.any fun p => p.1 = ppFailureAtParam

def dispositionAttempts (j : Job) : Nat :=
  ((param j.params ppFailureDispositionAttemptsParam).bind (fromStrRadix 10 (2 ^ 32))).getD 0

def withFailureAt (t : Int) (j : Job) : Job :=
  { j with params := j.params ++ [(ppFailureAtParam, showInt t)] }

/-- One more attempt, up to the limit. -/
def spendAttempt (j : Job) : Job :=
  { j with
    params := setParam ppFailureDispositionAttemptsParam
      (Nat.toDigits 10 (min (dispositionAttempts j + 1) failureDispositionAttemptLimit)) j.params }

def failStatus (j : Job) : Text :=
  if j.kind = .url ∧ j.files = [] then text "FAILURE/FETCH" else text "FAILURE/HEALTH"

/-- The last row of a failed job; `note` : what became of its files. -/
def failStamped (note : Option Text) (j : Job) : Job :=
  { j with
    params := j.params ++ (note.map fun n => (text "Failure:Files", n)).toList ++
      [(ppDoneParam, failStatus j)] }

variable (j : Job)

theorem hasFailureAt_eq :
    hasFailureAt j = (param j.params ppFailureAtParam).isSome :=
  (param_isSome _ _).symm

theorem ppDone_eq : ppDone j = (param j.params ppDoneParam).isSome :=
  (param_isSome _ _).symm

theorem ppFailureAtParam_ne_done : ppFailureAtParam ≠ ppDoneParam := by decide

theorem ppFailureAtParam_ne_attempts : ppFailureAtParam ≠ ppFailureDispositionAttemptsParam := by
  decide

theorem ppAttemptsParam_ne_done : ppFailureDispositionAttemptsParam ≠ ppDoneParam := by decide

theorem failureAt_eq_none {j : Job} (h : hasFailureAt j = false) : failureAt j = none := by
  rw [hasFailureAt_eq, Option.isSome_eq_false_iff, Option.isNone_iff_eq_none] at h
  rw [failureAt, h, Option.bind_none]

theorem hasFailureAt_of_eq_some {j : Job} {t : Int} (h : failureAt j = some t) :
    hasFailureAt j = true := by
  cases hh : hasFailureAt j with
  | true => rfl
  | false => rw [failureAt_eq_none hh] at h; cases h

/-- **The time is read back.** -/
theorem failureAt_withFailureAt {j : Job} {t : Int} (ht : Signed (2 ^ 63) t)
    (h : hasFailureAt j = false) : failureAt (withFailureAt t j) = some t := by
  rw [hasFailureAt_eq, Option.isSome_eq_false_iff, Option.isNone_iff_eq_none] at h
  have hself : param [(ppFailureAtParam, showInt t)] ppFailureAtParam = some (showInt t) := by
    simp [param]
  rw [failureAt, withFailureAt, param_append, h, Option.none_or, hself, Option.bind_some,
    fromStrSigned_showInt ht]

theorem dispositionAttempts_withFailureAt (t : Int) :
    dispositionAttempts (withFailureAt t j) = dispositionAttempts j := by
  rw [dispositionAttempts, withFailureAt, param_append_of_ne _ _ ppFailureAtParam_ne_attempts,
    dispositionAttempts]

theorem ppDone_withFailureAt (t : Int) : ppDone (withFailureAt t j) = ppDone j := by
  rw [ppDone_eq, withFailureAt, param_append_of_ne _ _ ppFailureAtParam_ne_done, ppDone_eq]

theorem failureAt_spendAttempt : failureAt (spendAttempt j) = failureAt j := by
  rw [failureAt, spendAttempt, param_setParam_of_ne _ _ ppFailureAtParam_ne_attempts.symm, failureAt]

theorem ppDone_spendAttempt : ppDone (spendAttempt j) = ppDone j := by
  rw [ppDone_eq, spendAttempt, param_setParam_of_ne _ _ ppAttemptsParam_ne_done, ppDone_eq]

/-- **The counter is read back.** -/
theorem dispositionAttempts_spendAttempt : dispositionAttempts (spendAttempt j) =
    min (dispositionAttempts j + 1) failureDispositionAttemptLimit := by
  have hlt : min (dispositionAttempts j + 1) failureDispositionAttemptLimit < 2 ^ 32 :=
    lt_of_le_of_lt (min_le_right _ _) (by decide)
  rw [dispositionAttempts, spendAttempt, param_setParam_self, Option.bind_some,
    fromStrRadix_toDigits (.inl rfl) hlt, Option.getD_some]

theorem param_failStamped (note : Option Text) {k : Text} (hk : ppDoneParam ≠ k)
    (hnote : text "Failure:Files" ≠ k) : param (failStamped note j).params k = param j.params k := by
  rw [failStamped, param_append_of_ne _ _ hk]
  cases note with
  | none => rw [Option.map_none, Option.toList_none, append_nil]
  | some n => exact param_append_of_ne _ _ hnote

theorem failureAt_failStamped (note : Option Text) :
    failureAt (failStamped note j) = failureAt j := by
  rw [failureAt, param_failStamped _ _ ppFailureAtParam_ne_done.symm (by decide), failureAt]

theorem dispositionAttempts_failStamped (note : Option Text) :
    dispositionAttempts (failStamped note j) = dispositionAttempts j := by
  rw [dispositionAttempts, param_failStamped _ _ ppAttemptsParam_ne_done.symm (by decide),
    dispositionAttempts]

/-! ### The manager -/

/-- What a new row is put back for. -/
inductive Purpose
  | failureAt
  /-- An attempt at the files has failed. -/
  | attempt (note : Text) (outOfSpace : Bool)
  | stamp (note : Option Text)

inductive FailPhase
  | idle
  /-- The queue is asked for the row. -/
  | exporting
  | exported (job : Option Job)
  /-- The queue is asked to replace the row. -/
  | importing (purpose : Purpose) (job : Job) (completedAt : Int)
  | imported (purpose : Purpose) (job : Job) (completedAt : Int) (committed : Bool)
  /-- The files are parked or deleted. -/
  | disposing (job : Job) (completedAt : Int)
  | recording (job : Option Job) (completedAt : Int) (note : Option Text)
  | recorded (job : Option Job) (completedAt : Int) (note : Option Text) (ok : Bool)

/-- An attempt that is counted. -/
structure Spent where
  time : Nat
  gate : Bool
  outOfSpace : Bool

/-- A failed job: its row in the queue and in the snapshot, the manager at work on it,
and the keys the history has for it.  The rest is not in the code: the completion times
the snapshot has had, those files were disposed of under, those that were announced,
the attempts, the last first, and the entries of a job without a row. -/
structure Failing where
  row : Option Job
  disk : Option Job
  gate : Bool
  clock : Nat
  lastDisposition : Option Nat
  phase : FailPhase
  history : List Int
  durable : List Int
  disposed : List Int
  announced : List Int
  spent : List Spent
  strays : List Int

inductive Disposed
  /-- The files are where they are to be, as anyone can see. -/
  | resolved (note : Text)
  | failed (note : Text) (outOfSpace : Bool)

inductive FailStep
  /-- An event or a scan. -/
  | observe
  /-- `answers` : the queue can be asked. -/
  | exportJob (answers : Bool)
  | look (now : UnixTime)
  /-- The disk answers to what has been asked of it. -/
  | io (result : RecordResult)
  | proceed
  | dispose (outcome : Disposed)
  /-- The inventory does not take the files. -/
  | hold
  | conclude
  | setGate (claim : Bool)
  | tick (elapsed : Nat)
  /-- A scan forgets old attempts. -/
  | forget
  /-- The row leaves the queue. -/
  | remove
  /-- The queue is saved for another reason. -/
  | save
  /-- The process ends and starts again; `landed` : what was asked of the disk is there. -/
  | crash (landed : Bool)

namespace Failing

/-- Nothing more until the next event or scan. -/
def settle (s : Failing) : Failing := { s with phase := .idle }

def importing (s : Failing) (purpose : Purpose) (j : Job) (t : Int) : Failing :=
  { s with phase := .importing purpose j t }

def toRecord (s : Failing) (j : Option Job) (t : Int) (note : Option Text) : Failing :=
  if s.gate then { s with phase := .recording j t note } else s.settle

/-- The completion time is on the row. -/
def toDispose (s : Failing) (j : Job) (t : Int) : Failing :=
  if s.gate then
    if j.files = [] then s.toRecord (some j) t none
    else { s with phase := .disposing j t, disposed := t :: s.disposed }
  else s.settle

def look (s : Failing) (now : UnixTime) : Option Job → Failing
  | none => s.toRecord none now none
  | some j =>
    if ppDone j ∨ s.gate = false then s.settle
    else
      let t := (failureAt j).getD now
      if hasFailureAt j then s.toDispose j t else s.importing .failureAt (withFailureAt t j) t

def replaced (s : Failing) (purpose : Purpose) (j : Job) (t : Int) : Failing :=
  { s with
    row := some j
    disk := some j
    phase := .imported purpose j t true
    durable := t :: s.durable
    spent := match purpose with
      | .attempt _ outOfSpace => ⟨s.clock, s.gate, outOfSpace⟩ :: s.spent
      | _ => s.spent }

/-- The old row is put back; the new one may be on disk all the same. -/
def refused (s : Failing) (purpose : Purpose) (j : Job) (t : Int) (landed : Bool) : Failing :=
  { s with
    disk := if landed then some j else s.disk
    phase := .imported purpose j t false
    durable := if landed then t :: s.durable else s.durable }

def importJobIfPresent (s : Failing) (purpose : Purpose) (j : Job) (t : Int) :
    RecordResult → Failing
  | .ok => if s.row.isSome then s.replaced purpose j t else s.refused purpose j t false
  | .error landed => s.refused purpose j t (landed && s.row.isSome)

def append (s : Failing) (j : Option Job) (t : Int) (note : Option Text) (result : RecordResult) :
    Failing :=
  { s with
    history := if result.stored then t :: s.history else s.history
    strays := if result.stored && s.row.isNone then t :: s.strays else s.strays
    phase := .recorded j t note (result = .ok) }

def io (s : Failing) (result : RecordResult) : Failing :=
  match s.phase with
  | .importing purpose j t => s.importJobIfPresent purpose j t result
  | .recording j t note => s.append j t note result
  | _ => s

/-- The queue has taken the row. -/
def committed (s : Failing) (j : Job) (t : Int) : Purpose → Failing
  | .failureAt => s.toDispose j t
  | .attempt note _ =>
    if dispositionAttempts j < failureDispositionAttemptLimit then
      { s with phase := .idle, lastDisposition := some s.clock }
    else { s with lastDisposition := some s.clock }.toRecord (some j) t (some note)
  | .stamp _ => { s with phase := .idle, announced := t :: s.announced }

def recent (s : Failing) : Bool :=
  s.lastDisposition.any fun t => s.clock - t < rescanInterval / 2

def dispose (s : Failing) (j : Job) (t : Int) : Disposed → Failing
  | .resolved note => s.toRecord (some j) t (some note)
  | .failed note outOfSpace =>
    if s.gate = false ∨ outOfSpace ∨ s.recent then s.settle
    else s.importing (.attempt note outOfSpace) (spendAttempt j) t

def conclude (s : Failing) (t : Int) (note : Option Text) : Option Job → Failing
  | some j => if s.gate then s.importing (.stamp note) (failStamped note j) t else s.settle
  | none => if s.gate then { s with phase := .idle, announced := t :: s.announced } else s.settle

def restart (s : Failing) : Failing :=
  { s with row := s.disk, phase := .idle, lastDisposition := none }

def landing (landed : Bool) : RecordResult := if landed then .ok else .error false

def step (s : Failing) : FailStep → Failing
  | .observe =>
    match s.phase with
    | .idle => if s.gate then { s with phase := .exporting } else s
    | _ => s
  | .exportJob answers =>
    match s.phase with
    | .exporting => { s with phase := .exported (if answers then s.row else none) }
    | _ => s
  | .look now =>
    match s.phase with
    | .exported j => s.look now j
    | _ => s
  | .io result => s.io result
  | .proceed =>
    match s.phase with
    | .imported purpose j t true => s.committed j t purpose
    | .imported _ _ _ false => s.settle
    | _ => s
  | .dispose outcome =>
    match s.phase with
    | .disposing j t => s.dispose j t outcome
    | _ => s
  | .hold =>
    match s.phase with
    | .recording .. => s.settle
    | _ => s
  | .conclude =>
    match s.phase with
    | .recorded j t note true => s.conclude t note j
    | .recorded _ _ _ false => s.settle
    | _ => s
  | .setGate claim => { s with gate := claim }
  | .tick elapsed => { s with clock := s.clock + elapsed }
  | .forget =>
    match s.phase with
    | .idle =>
      { s with lastDisposition := s.lastDisposition.filter fun t => s.clock - t < rescanInterval }
    | _ => s
  | .remove => { s with row := none }
  | .save => { s with disk := s.row }
  | .crash landed => (s.io (landing landed)).restart

/-- **What is claimed.** -/
structure FailsOnce (s : Failing) : Prop where
  once : ∀ a ∈ s.history, ∀ b ∈ s.history, a = b
  present : s.strays = []
  disposed : ∀ t ∈ s.disposed, t ∈ s.durable
  history : ∀ t ∈ s.history, t ∈ s.durable
  stamped : ∀ j, s.row = some j ∨ s.disk = some j → ppDone j = true →
    ∃ t ∈ s.history, failureAt j = some t
  announced : ∀ t ∈ s.announced, t ∈ s.history
  counted : ∀ j, s.disk = some j →
    dispositionAttempts j = min s.spent.length failureDispositionAttemptLimit
  spaced : s.spent.Pairwise fun later earlier => earlier.time + rescanInterval / 2 ≤ later.time
  allowed : ∀ e ∈ s.spent, e.gate = true ∧ e.outOfSpace = false

/-- The last attempts are half a period ago. -/
def Rested (s : Failing) : Prop := ∀ e ∈ s.spent, e.time + rescanInterval / 2 ≤ s.clock

instance (s : Failing) : Decidable s.Rested :=
  inferInstanceAs (Decidable (∀ e ∈ s.spent, _ ≤ _))

/-- **The condition on an answer of the disk.**  An entry is appended for a row that was
there and still is; a row that counts an attempt is not on disk without the queue's
knowledge, the gate is still open for it, and a manager that remembers no attempt is not
within half a period of one. -/
def Admits (s : Failing) (result : RecordResult) : FailPhase → Prop
  | .recording j _ _ => result.stored → j.isSome ∧ s.row.isSome
  | .importing (.attempt ..) _ _ => result.stored → s.row.isSome →
      result = .ok ∧ s.gate = true ∧ (s.lastDisposition = none → s.Rested)
  | _ => True

def Careful (s : Failing) : FailStep → Prop
  | .io result => s.Admits result s.phase
  | .crash landed => s.Admits (landing landed) s.phase
  | _ => True

/-- A job that has just failed. -/
structure Fresh (s : Failing) : Prop where
  rows : ∀ j, s.row = some j ∨ s.disk = some j →
    hasFailureAt j = false ∧ dispositionAttempts j = 0 ∧ ppDone j = false
  lastDisposition : s.lastDisposition = none
  phase : s.phase = .idle
  history : s.history = []
  disposed : s.disposed = []
  announced : s.announced = []
  spent : s.spent = []
  strays : s.strays = []

def Reached : Failing → Prop := Run Fresh (fun s c s' => s' = s.step c) Careful

/-! ### The invariant -/

/-- A row the queue or the snapshot has. -/
structure Fits (s : Failing) (j : Job) : Prop where
  known : hasFailureAt j = true → ∃ t ∈ s.durable, failureAt j = some t
  counted : dispositionAttempts j = min s.spent.length failureDispositionAttemptLimit
  stamped : ppDone j = true → ∃ t ∈ s.history, failureAt j = some t

/-- No completion time has been settled. -/
structure Open (s : Failing) : Prop where
  row : ∀ j, s.row = some j → failureAt j = none
  history : s.history = []

/-- The completion time is `t`. -/
structure Settled (s : Failing) (t : Int) : Prop where
  durable : t ∈ s.durable
  row : ∀ j, s.row = some j → failureAt j = some t
  disk : ∀ j, s.disk = some j → failureAt j = some t
  history : ∀ a ∈ s.history, a = t

/-- A copy of the row, with the completion time. -/
structure Copy (s : Failing) (j : Job) (t : Int) : Prop extends s.Settled t where
  time : failureAt j = some t
  counted : dispositionAttempts j = min s.spent.length failureDispositionAttemptLimit

/-- What the manager has in its hands. -/
def Holds (s : Failing) : FailPhase → Prop
  | .idle => True
  | .exporting => True
  | .exported none => True
  | .exported (some j) => s.Fits j ∧ (failureAt j = none ∧ s.Open ∨ ∃ t, s.Copy j t)
  | .importing .failureAt j t => s.Open ∧ failureAt j = some t ∧ ppDone j = false ∧
      dispositionAttempts j = min s.spent.length failureDispositionAttemptLimit
  | .importing (.attempt _ outOfSpace) j t => s.Settled t ∧ failureAt j = some t ∧
      ppDone j = false ∧ outOfSpace = false ∧ (s.lastDisposition ≠ none → s.Rested) ∧
      dispositionAttempts j = min (s.spent.length + 1) failureDispositionAttemptLimit
  | .importing (.stamp _) j t => s.Copy j t ∧ t ∈ s.history
  | .imported (.stamp _) j t true => s.Copy j t ∧ t ∈ s.history
  | .imported _ j t true => s.Copy j t ∧ ppDone j = false
  | .imported _ _ _ false => True
  | .disposing j t => s.Copy j t ∧ ppDone j = false
  | .recording none _ _ => True
  | .recording (some j) t _ => s.Copy j t
  | .recorded (some j) t _ true => s.Copy j t ∧ t ∈ s.history
  | .recorded none _ _ true => False
  | .recorded _ _ _ false => True

/-- The last attempt is not yet remembered. -/
def unremembered : FailPhase → Bool
  | .imported (.attempt ..) _ _ true => true
  | _ => false

structure Inv (s : Failing) : Prop where
  rows : ∀ j, s.row = some j ∨ s.disk = some j → s.Fits j
  time : s.Open ∨ ∃ t, s.Settled t
  present : s.strays = []
  disposed : ∀ t ∈ s.disposed, t ∈ s.durable
  history : ∀ t ∈ s.history, t ∈ s.durable
  announced : ∀ t ∈ s.announced, t ∈ s.history
  spaced : s.spent.Pairwise fun later earlier => earlier.time + rescanInterval / 2 ≤ later.time
  allowed : ∀ e ∈ s.spent, e.gate = true ∧ e.outOfSpace = false
  past : ∀ e ∈ s.spent, e.time ≤ s.clock
  remembered : unremembered s.phase = false →
    ∀ m, s.lastDisposition = some m → ∀ e ∈ s.spent, e.time ≤ m
  phase : s.Holds s.phase

theorem Inv.failsOnce {s : Failing} (h : s.Inv) : s.FailsOnce where
  once := by
    intro a ha b hb
    rcases h.time with hopen | ⟨t, ht⟩
    · rw [hopen.history] at ha
      cases ha
    · rw [ht.history a ha, ht.history b hb]
  present := h.present
  disposed := h.disposed
  history := h.history
  stamped := fun j hj => (h.rows j hj).stamped
  announced := h.announced
  counted := fun j hj => (h.rows j (.inr hj)).counted
  spaced := h.spaced
  allowed := h.allowed

/-! ### What leaves the history alone -/

/-- The rows of `s'` are those of `s`, as far as they are still there. -/
structure Leaves (s s' : Failing) : Prop where
  row : ∀ j, s'.row = some j → s.row = some j
  disk : ∀ j, s'.disk = some j → s.row = some j ∨ s.disk = some j
  durable : s'.durable = s.durable
  history : s'.history = s.history
  spent : s'.spent = s.spent
  strays : s'.strays = s.strays
  clock : s.clock ≤ s'.clock

section Leaves

variable {s s' : Failing}

theorem Leaves.fits (hl : Leaves s s') {j : Job} (h : s.Fits j) : s'.Fits j where
  known := by rw [hl.durable]; exact h.known
  counted := by rw [hl.spent]; exact h.counted
  stamped := by rw [hl.history]; exact h.stamped

theorem Leaves.open (hl : Leaves s s') (h : s.Open) : s'.Open :=
  ⟨fun j hj => h.row j (hl.row j hj), hl.history.trans h.history⟩

theorem Leaves.settled (hl : Leaves s s') {t : Int} (h : s.Settled t) : s'.Settled t where
  durable := hl.durable ▸ h.durable
  row := fun j hj => h.row j (hl.row j hj)
  disk := fun j hj => (hl.disk j hj).elim (h.row j) (h.disk j)
  history := hl.history ▸ h.history

theorem Leaves.copy (hl : Leaves s s') {j : Job} {t : Int} (h : s.Copy j t) : s'.Copy j t :=
  ⟨hl.settled h.toSettled, h.time, by rw [hl.spent]; exact h.counted⟩

theorem Leaves.rested (hl : Leaves s s') (h : s.Rested) : s'.Rested := by
  intro e he
  rw [hl.spent] at he
  exact (h e he).trans hl.clock

theorem Leaves.holds (hl : Leaves s s') (hlast : s'.lastDisposition ≠ none → s.lastDisposition ≠ none)
    {p : FailPhase} (h : s.Holds p) : s'.Holds p := by
  cases p with
  | idle => trivial
  | exporting => trivial
  | exported j =>
    cases j with
    | none => trivial
    | some j =>
      refine ⟨hl.fits h.1, h.2.imp (fun ho => ⟨ho.1, hl.open ho.2⟩) ?_⟩
      rintro ⟨t, ht⟩
      exact ⟨t, hl.copy ht⟩
  | importing purpose j t =>
    cases purpose with
    | failureAt =>
      obtain ⟨ho, ht, hdone, hcount⟩ := h
      exact ⟨hl.open ho, ht, hdone, by rw [hl.spent]; exact hcount⟩
    | attempt note outOfSpace =>
      obtain ⟨hs, ht, hdone, hspace, hrested, hcount⟩ := h
      exact ⟨hl.settled hs, ht, hdone, hspace, fun hm => hl.rested (hrested (hlast hm)),
        by rw [hl.spent]; exact hcount⟩
    | stamp note => exact ⟨hl.copy h.1, by rw [hl.history]; exact h.2⟩
  | imported purpose j t committed =>
    cases committed with
    | false => cases purpose <;> trivial
    | true =>
      cases purpose with
      | failureAt => exact ⟨hl.copy h.1, h.2⟩
      | attempt note outOfSpace => exact ⟨hl.copy h.1, h.2⟩
      | stamp note => exact ⟨hl.copy h.1, by rw [hl.history]; exact h.2⟩
  | disposing j t => exact ⟨hl.copy h.1, h.2⟩
  | recording j t note =>
    cases j with
    | none => trivial
    | some j => exact hl.copy h
  | recorded j t note ok =>
    cases ok with
    | false => cases j <;> trivial
    | true =>
      cases j with
      | none => exact h
      | some j => exact ⟨hl.copy h.1, by rw [hl.history]; exact h.2⟩

theorem Leaves.inv (hl : Leaves s s') (h : s.Inv) (hdisposed : ∀ t ∈ s'.disposed, t ∈ s.durable)
    (hannounced : ∀ t ∈ s'.announced, t ∈ s.history)
    (hrem : unremembered s'.phase = false →
      ∀ m, s'.lastDisposition = some m → ∀ e ∈ s.spent, e.time ≤ m)
    (hphase : s'.Holds s'.phase) : s'.Inv where
  rows := by
    rintro j (hj | hj)
    · exact hl.fits (h.rows j (.inl (hl.row j hj)))
    · exact hl.fits (h.rows j (hl.disk j hj))
  time := h.time.imp hl.open fun ⟨t, ht⟩ => ⟨t, hl.settled ht⟩
  present := hl.strays.trans h.present
  disposed := by rw [hl.durable]; exact hdisposed
  history := by rw [hl.durable, hl.history]; exact h.history
  announced := by rw [hl.history]; exact hannounced
  spaced := by rw [hl.spent]; exact h.spaced
  allowed := by rw [hl.spent]; exact h.allowed
  past := by
    intro e he
    rw [hl.spent] at he
    exact (h.past e he).trans hl.clock
  remembered := by rw [hl.spent]; exact hrem
  phase := hphase

end Leaves

/-! ### The manager's turn -/

/-- What is noted touches no file and no row. -/
theorem leaves_notes (s : Failing) (p : FailPhase) (d a : List _) (l : Option _) :
    Leaves s { s with phase := p, disposed := d, announced := a, lastDisposition := l } :=
  ⟨fun _ h => h, fun _ h => .inr h, rfl, rfl, rfl, rfl, le_rfl⟩

theorem leaves_phase (s : Failing) (p : FailPhase) : Leaves s { s with phase := p } :=
  leaves_notes ..

section Turn

variable {s : Failing} {j : Job} {t : Int} {p : FailPhase}

theorem Inv.turn (h : s.Inv) (hrem : unremembered s.phase = false) (hp : s.Holds p) :
    Inv { s with phase := p } :=
  (leaves_phase s p).inv h h.disposed h.announced (fun _ => h.remembered hrem)
    ((leaves_phase s p).holds id hp)

theorem Inv.settle (h : s.Inv) (hrem : unremembered s.phase = false) : s.settle.Inv :=
  h.turn hrem trivial

theorem Inv.toRecord (h : s.Inv) (hrem : unremembered s.phase = false) {j : Option Job}
    {note : Option Text} (hp : s.Holds (.recording j t note)) : (s.toRecord j t note).Inv := by
  rw [Failing.toRecord]
  split
  · exact h.turn hrem hp
  · exact h.settle hrem

theorem Inv.toDispose (h : s.Inv) (hrem : unremembered s.phase = false) (hc : s.Copy j t)
    (hdone : ppDone j = false) : (s.toDispose j t).Inv := by
  rw [Failing.toDispose]
  split
  · split
    · exact h.toRecord hrem hc
    · have hl : Leaves s { s with phase := .disposing j t, disposed := t :: s.disposed } :=
        leaves_notes ..
      refine hl.inv h ?_ h.announced (fun _ => h.remembered hrem) ⟨hl.copy hc, hdone⟩
      intro a ha
      rcases mem_cons.mp ha with rfl | ha
      · exact hc.durable
      · exact h.disposed a ha
  · exact h.settle hrem

theorem Inv.announce (h : s.Inv) (hrem : unremembered s.phase = false) (ht : t ∈ s.history) :
    Inv { s with phase := .idle, announced := t :: s.announced } := by
  have hl : Leaves s { s with phase := .idle, announced := t :: s.announced } :=
    leaves_notes ..
  refine hl.inv h h.disposed ?_ (fun _ => h.remembered hrem) trivial
  intro a ha
  rcases mem_cons.mp ha with rfl | ha
  · exact ht
  · exact h.announced a ha

theorem inv_look (h : s.Inv) (now : UnixTime) {c : Option Job} (hphase : s.phase = .exported c) :
    (s.look now c).Inv := by
  have hrem : unremembered s.phase = false := by rw [hphase]; rfl
  have hholds := h.phase
  rw [hphase] at hholds
  cases c with
  | none => exact h.toRecord hrem trivial
  | some j =>
    obtain ⟨hfits, hcase⟩ := hholds
    rw [look]
    split
    · exact h.settle hrem
    · next hgo =>
      have hdone : ppDone j = false := by
        cases hd : ppDone j with
        | false => rfl
        | true => exact absurd (Or.inl hd) hgo
      rcases hcase with ⟨hnone, hopen⟩ | ⟨t, hcopy⟩
      · have hhas : hasFailureAt j = false := by
          cases hh : hasFailureAt j with
          | false => rfl
          | true =>
            obtain ⟨t, -, ht⟩ := hfits.known hh
            rw [hnone] at ht
            cases ht
        rw [hnone, Option.getD_none, if_neg (by rw [hhas]; decide)]
        refine h.turn hrem ⟨hopen, failureAt_withFailureAt now.2 hhas, ?_, ?_⟩
        · rw [ppDone_withFailureAt, hdone]
        · rw [dispositionAttempts_withFailureAt, hfits.counted]
      · rw [hcopy.time, Option.getD_some, if_pos (hasFailureAt_of_eq_some hcopy.time)]
        exact h.toDispose hrem hcopy hdone

theorem inv_committed (h : s.Inv) {purpose : Purpose}
    (hphase : s.phase = .imported purpose j t true) : (s.committed j t purpose).Inv := by
  have hholds := h.phase
  rw [hphase] at hholds
  cases purpose with
  | failureAt => exact h.toDispose (by rw [hphase]; rfl) hholds.1 hholds.2
  | stamp note => exact h.announce (by rw [hphase]; rfl) hholds.2
  | attempt note outOfSpace =>
    have hremember (p : FailPhase) (hp : Holds { s with lastDisposition := some s.clock } p) :
        Inv { s with phase := p, lastDisposition := some s.clock } := by
      have hl : Leaves { s with lastDisposition := some s.clock }
          { s with phase := p, lastDisposition := some s.clock } :=
        leaves_notes ..
      have hl' : Leaves s { s with phase := p, lastDisposition := some s.clock } :=
        leaves_notes ..
      refine hl'.inv h h.disposed h.announced (fun _ m hm => ?_) (hl.holds id hp)
      obtain rfl := Option.some.inj hm
      exact h.past
    rw [committed]
    split
    · exact hremember _ trivial
    · have hl : Leaves s { s with lastDisposition := some s.clock } :=
        leaves_notes ..
      rw [toRecord]
      split
      · exact hremember _ (hl.copy hholds.1)
      · exact hremember _ trivial

theorem inv_dispose (h : s.Inv) (hphase : s.phase = .disposing j t) (outcome : Disposed) :
    (s.dispose j t outcome).Inv := by
  have hrem : unremembered s.phase = false := by rw [hphase]; rfl
  have hholds := h.phase
  rw [hphase] at hholds
  obtain ⟨hcopy, hdone⟩ := hholds
  cases outcome with
  | resolved note => exact h.toRecord hrem hcopy
  | failed note outOfSpace =>
    rw [dispose]
    split
    · exact h.settle hrem
    · next hgo =>
      simp only [not_or, Bool.not_eq_true] at hgo
      obtain ⟨-, hspace, hrecent⟩ := hgo
      refine h.turn hrem ⟨hcopy.toSettled, ?_, ?_, hspace, ?_, ?_⟩
      · rw [failureAt_spendAttempt, hcopy.time]
      · rw [ppDone_spendAttempt, hdone]
      · intro hm e he
        obtain ⟨m, hm⟩ := Option.ne_none_iff_exists'.mp hm
        have hlast := h.remembered hrem m hm e he
        have hage : ¬s.clock - m < rescanInterval / 2 := by
          rw [recent, hm] at hrecent
          simpa using hrecent
        have hpos : 0 < rescanInterval / 2 := by decide
        omega
      · rw [dispositionAttempts_spendAttempt, hcopy.counted]
        omega

theorem inv_conclude (h : s.Inv) {c : Option Job} {note : Option Text}
    (hphase : s.phase = .recorded c t note true) : (s.conclude t note c).Inv := by
  have hrem : unremembered s.phase = false := by rw [hphase]; rfl
  have hholds := h.phase
  rw [hphase] at hholds
  cases c with
  | none => exact hholds.elim
  | some j =>
    obtain ⟨hcopy, ht⟩ := hholds
    rw [conclude]
    split
    · refine h.turn hrem ⟨⟨hcopy.toSettled, ?_, ?_⟩, ht⟩
      · rw [failureAt_failStamped, hcopy.time]
      · rw [dispositionAttempts_failStamped, hcopy.counted]
    · exact h.settle hrem

end Turn

/-! ### The disk's turn -/

section Disk

variable {s : Failing} {j : Job} {t : Int}

theorem inv_replaced (h : s.Inv) {purpose : Purpose} (ht : failureAt j = some t)
    (hhistory : ∀ a ∈ s.history, a = t) (hdone : ppDone j = true → t ∈ s.history)
    (hcount : dispositionAttempts j =
      min (s.replaced purpose j t).spent.length failureDispositionAttemptLimit)
    (hspaced : (s.replaced purpose j t).spent.Pairwise fun later earlier =>
      earlier.time + rescanInterval / 2 ≤ later.time)
    (hspent : ∀ e ∈ (s.replaced purpose j t).spent,
      e.gate = true ∧ e.outOfSpace = false ∧ e.time ≤ s.clock)
    (hrem : unremembered (.imported purpose j t true) = false →
      (s.replaced purpose j t).spent = s.spent ∧ unremembered s.phase = false)
    (hphase : (s.replaced purpose j t).Copy j t →
      (s.replaced purpose j t).Holds (.imported purpose j t true)) :
    (s.replaced purpose j t).Inv := by
  have hrow : ∀ i, some j = some i ∨ some j = some i → i = j := by
    rintro i (hi | hi) <;> exact (Option.some.inj hi).symm
  have hsettled : (s.replaced purpose j t).Settled t := by
    refine ⟨mem_cons_self, fun i hi => ?_, fun i hi => ?_, hhistory⟩
    · rw [hrow i (.inl hi), ht]
    · rw [hrow i (.inr hi), ht]
  exact
    { rows := fun i hi => by
        obtain rfl := hrow i hi
        exact ⟨fun _ => ⟨t, mem_cons_self, ht⟩, hcount, fun hd => ⟨t, hdone hd, ht⟩⟩
      time := .inr ⟨t, hsettled⟩
      present := h.present
      disposed := fun a ha => mem_cons_of_mem _ (h.disposed a ha)
      history := fun a ha => mem_cons_of_mem _ (h.history a ha)
      announced := h.announced
      spaced := hspaced
      allowed := fun e he => ⟨(hspent e he).1, (hspent e he).2.1⟩
      past := fun e he => (hspent e he).2.2
      remembered := fun hr m hm e he => by
        obtain ⟨hsame, hold⟩ := hrem hr
        rw [hsame] at he
        exact h.remembered hold m hm e he
      phase := hphase ⟨hsettled, ht, hcount⟩ }

theorem inv_refused (h : s.Inv) (hrem : unremembered s.phase = false) {purpose : Purpose}
    (landed : Bool)
    (hlanded : landed = true → failureAt j = some t ∧ (ppDone j = true → t ∈ s.history) ∧
      dispositionAttempts j = min s.spent.length failureDispositionAttemptLimit ∧
      (s.Open ∨ s.Settled t)) : (s.refused purpose j t landed).Inv := by
  cases landed with
  | false => exact h.turn hrem (p := .imported purpose j t false) (by cases purpose <;> trivial)
  | true =>
    obtain ⟨ht, hdone, hcount, htime⟩ := hlanded rfl
    exact
      { rows := by
          rintro i (hi | hi)
          · have hfits := h.rows i (.inl hi)
            refine ⟨fun hk => ?_, hfits.counted, hfits.stamped⟩
            obtain ⟨a, ha, hat⟩ := hfits.known hk
            exact ⟨a, mem_cons_of_mem _ ha, hat⟩
          · obtain rfl := Option.some.inj hi
            exact ⟨fun _ => ⟨t, mem_cons_self, ht⟩, hcount, fun hd => ⟨t, hdone hd, ht⟩⟩
        time := by
          refine htime.imp (fun ho => ⟨ho.row, ho.history⟩) fun hs => ⟨t, ?_⟩
          refine ⟨mem_cons_self, hs.row, fun i hi => ?_, hs.history⟩
          rw [← Option.some.inj hi, ht]
        present := h.present
        disposed := fun a ha => mem_cons_of_mem _ (h.disposed a ha)
        history := fun a ha => mem_cons_of_mem _ (h.history a ha)
        announced := h.announced
        spaced := h.spaced
        allowed := h.allowed
        past := h.past
        remembered := fun _ => h.remembered hrem
        phase := by cases purpose <;> trivial }

theorem inv_importJobIfPresent (h : s.Inv) {purpose : Purpose}
    (hphase : s.phase = .importing purpose j t) {result : RecordResult} (hok : s.Admits result s.phase) :
    (s.importJobIfPresent purpose j t result).Inv := by
  have hrem : unremembered s.phase = false := by rw [hphase]; rfl
  have hholds := h.phase
  rw [hphase] at hholds
  rw [hphase] at hok
  have hspent : ∀ e ∈ s.spent, e.gate = true ∧ e.outOfSpace = false ∧ e.time ≤ s.clock :=
    fun e he => ⟨(h.allowed e he).1, (h.allowed e he).2, h.past e he⟩
  cases purpose with
  | failureAt =>
    obtain ⟨hopen, ht, hdone, hcount⟩ := hholds
    have hnone : ∀ a ∈ s.history, a = t := by rw [hopen.history]; simp
    have hundone : ppDone j = true → t ∈ s.history := by rw [hdone]; simp
    have hrefused (landed : Bool) : (s.refused .failureAt j t landed).Inv :=
      inv_refused h hrem landed fun _ => ⟨ht, hundone, hcount, .inl hopen⟩
    cases result with
    | error landed => exact hrefused _
    | ok =>
      rw [importJobIfPresent]
      split
      · exact inv_replaced h ht hnone hundone hcount h.spaced hspent (fun _ => ⟨rfl, hrem⟩)
          fun hc => ⟨hc, hdone⟩
      · exact hrefused _
  | stamp note =>
    obtain ⟨hcopy, ht⟩ := hholds
    have hrefused (landed : Bool) : (s.refused (.stamp note) j t landed).Inv :=
      inv_refused h hrem landed fun _ =>
        ⟨hcopy.time, fun _ => ht, hcopy.counted, .inr hcopy.toSettled⟩
    cases result with
    | error landed => exact hrefused _
    | ok =>
      rw [importJobIfPresent]
      split
      · exact inv_replaced h hcopy.time hcopy.history (fun _ => ht) hcopy.counted h.spaced hspent
          (fun _ => ⟨rfl, hrem⟩) fun hc => ⟨hc, ht⟩
      · exact hrefused _
  | attempt note outOfSpace =>
    obtain ⟨hsettled, ht, hdone, hspace, hrested, hcount⟩ := hholds
    have hundone : ppDone j = true → t ∈ s.history := by rw [hdone]; simp
    have hrefused : (s.refused (.attempt note outOfSpace) j t false).Inv :=
      inv_refused h hrem false fun hf => (by cases hf)
    cases result with
    | error landed =>
      -- a row that landed without the queue's knowledge is not admitted
      have hland : (landed && s.row.isSome) = false := by
        cases landed with
        | false => rfl
        | true =>
          cases hr : s.row.isSome with
          | false => rfl
          | true => exact absurd (hok rfl hr).1 (by simp)
      rw [importJobIfPresent, hland]
      exact hrefused
    | ok =>
      rw [importJobIfPresent]
      split
      · next hr =>
        obtain ⟨-, hgate, hnew⟩ := hok rfl hr
        have hrest : s.Rested := by
          by_cases hm : s.lastDisposition = none
          · exact hnew hm
          · exact hrested hm
        refine inv_replaced h ht hsettled.history hundone hcount ?_ ?_ (fun hc => (by cases hc))
          fun hc => ⟨hc, hdone⟩
        · exact pairwise_cons.mpr ⟨hrest, h.spaced⟩
        · intro e he
          rcases mem_cons.mp he with rfl | he
          · exact ⟨hgate, hspace, le_rfl⟩
          · exact hspent e he
      · exact hrefused

theorem inv_append (h : s.Inv) {c : Option Job} {note : Option Text}
    (hphase : s.phase = .recording c t note) {result : RecordResult} (hok : s.Admits result s.phase) :
    (s.append c t note result).Inv := by
  have hrem : unremembered s.phase = false := by rw [hphase]; rfl
  have hholds := h.phase
  rw [hphase] at hholds
  rw [hphase] at hok
  cases hstored : result.stored with
  | false =>
    have hfalse : result ≠ .ok := by rintro rfl; cases hstored
    have hturn : s.append c t note result = { s with phase := .recorded c t note false } := by
      rw [append, hstored, decide_eq_false hfalse]
      rfl
    rw [hturn]
    exact h.turn hrem (by cases c <;> trivial)
  | true =>
    obtain ⟨hc, hrow⟩ := hok hstored
    obtain ⟨j, rfl⟩ := Option.isSome_iff_exists.mp hc
    have hcopy : s.Copy j t := hholds
    have hall : ∀ a ∈ t :: s.history, a = t := by
      intro a ha
      rcases mem_cons.mp ha with rfl | ha
      · rfl
      · exact hcopy.history a ha
    have heq : s.append (some j) t note result =
        { s with
          history := t :: s.history
          phase := .recorded (some j) t note (result = .ok) } := by
      rw [append, hstored, Option.isNone_eq_false_iff.mpr hrow]
      rfl
    rw [heq]
    have hsettled : Settled { s with
        history := t :: s.history
        phase := .recorded (some j) t note (result = .ok) } t :=
      ⟨hcopy.durable, hcopy.row, hcopy.disk, hall⟩
    exact
      { rows := fun i hi => by
          have hfits := h.rows i hi
          refine ⟨hfits.known, hfits.counted, fun hd => ?_⟩
          obtain ⟨a, ha, hat⟩ := hfits.stamped hd
          exact ⟨a, mem_cons_of_mem _ ha, hat⟩
        time := .inr ⟨t, hsettled⟩
        present := h.present
        disposed := h.disposed
        history := fun a ha => by rw [hall a ha]; exact hcopy.durable
        announced := fun a ha => mem_cons_of_mem _ (h.announced a ha)
        spaced := h.spaced
        allowed := h.allowed
        past := h.past
        remembered := fun _ => h.remembered hrem
        phase := by
          change Holds _ (.recorded (some j) t note (decide (result = .ok)))
          cases decide (result = .ok) with
          | false => trivial
          | true =>
            exact ⟨⟨⟨hcopy.durable, hcopy.row, hcopy.disk, hall⟩, hcopy.time, hcopy.counted⟩,
              mem_cons_self⟩ }

theorem inv_io (h : s.Inv) {result : RecordResult} (hok : s.Admits result s.phase) : (s.io result).Inv := by
  rw [io]
  split
  · next hphase => exact inv_importJobIfPresent h hphase hok
  · next hphase => exact inv_append h hphase hok
  · exact h

theorem inv_restart (h : s.Inv) : s.restart.Inv where
  rows := by
    have hfits : ∀ j, s.disk = some j → s.restart.Fits j := fun j hj =>
      ⟨(h.rows j (.inr hj)).known, (h.rows j (.inr hj)).counted, (h.rows j (.inr hj)).stamped⟩
    rintro j (hj | hj) <;> exact hfits j hj
  time := by
    rcases h.time with hopen | ⟨t, ht⟩
    · by_cases hnone : ∀ j, s.disk = some j → failureAt j = none
      · exact .inl ⟨hnone, hopen.history⟩
      · obtain ⟨j, hj, hsome⟩ := not_forall₂.mp hnone
        obtain ⟨t, ht⟩ := Option.ne_none_iff_exists'.mp hsome
        obtain ⟨a, ha, hat⟩ := (h.rows j (.inr hj)).known (hasFailureAt_of_eq_some ht)
        obtain rfl : a = t := Option.some.inj (hat.symm.trans ht)
        have hdisk : ∀ i, s.disk = some i → failureAt i = some a := by
          intro i hi
          rw [hj] at hi
          exact Option.some.inj hi ▸ ht
        refine .inr ⟨a, ha, hdisk, hdisk, fun b hb => ?_⟩
        change b ∈ s.history at hb
        rw [hopen.history] at hb
        cases hb
    · exact .inr ⟨t, ht.durable, ht.disk, ht.disk, ht.history⟩
  present := h.present
  disposed := h.disposed
  history := h.history
  announced := h.announced
  spaced := h.spaced
  allowed := h.allowed
  past := h.past
  remembered := fun _ m hm => (by cases hm)
  phase := trivial

end Disk

theorem inv_step {s : Failing} (h : s.Inv) (c : FailStep) (hok : s.Careful c) : (s.step c).Inv := by
  cases c with
  | observe =>
    rw [step]
    split
    · next hphase =>
      split
      · exact h.turn (by rw [hphase]; rfl) trivial
      · exact h
    · exact h
  | exportJob answers =>
    rw [step]
    split
    · next hphase =>
      refine h.turn (by rw [hphase]; rfl) ?_
      cases answers with
      | false => trivial
      | true =>
        cases hrow : s.row with
        | none => trivial
        | some j =>
          have hfits := h.rows j (.inl hrow)
          refine ⟨hfits, h.time.imp (fun ho => ⟨ho.row j hrow, ho⟩) ?_⟩
          rintro ⟨t, ht⟩
          exact ⟨t, ht, ht.row j hrow, hfits.counted⟩
    · exact h
  | look now =>
    rw [step]
    split
    · next hphase => exact inv_look h now hphase
    · exact h
  | io result => exact inv_io h hok
  | proceed =>
    rw [step]
    split
    · next hphase => exact inv_committed h hphase
    · next purpose _ _ hphase => exact h.settle (by rw [hphase]; cases purpose <;> rfl)
    · exact h
  | dispose outcome =>
    rw [step]
    split
    · next hphase => exact inv_dispose h hphase outcome
    · exact h
  | hold =>
    rw [step]
    split
    · next hphase => exact h.settle (by rw [hphase]; rfl)
    · exact h
  | conclude =>
    rw [step]
    split
    · next hphase => exact inv_conclude h hphase
    · next hphase => exact h.settle (by rw [hphase]; rfl)
    · exact h
  | setGate claim =>
    have hl : Leaves s (s.step (.setGate claim)) :=
      ⟨fun _ h => h, fun _ h => .inr h, rfl, rfl, rfl, rfl, le_rfl⟩
    exact hl.inv h h.disposed h.announced h.remembered (hl.holds id h.phase)
  | tick elapsed =>
    have hl : Leaves s (s.step (.tick elapsed)) :=
      ⟨fun _ h => h, fun _ h => .inr h, rfl, rfl, rfl, rfl, Nat.le_add_right _ _⟩
    exact hl.inv h h.disposed h.announced h.remembered (hl.holds id h.phase)
  | forget =>
    rw [step]
    split
    · next hphase =>
      have hl : Leaves s { s with
          lastDisposition := s.lastDisposition.filter fun t => s.clock - t < rescanInterval } :=
        leaves_notes ..
      refine hl.inv h h.disposed h.announced (fun hr m hm => ?_) ?_
      · exact h.remembered hr m (Option.filter_eq_some_iff.mp hm).1
      · rw [hphase]; trivial
    · exact h
  | remove =>
    have hl : Leaves s (s.step .remove) :=
      ⟨fun _ h => (by cases h), fun _ h => .inr h, rfl, rfl, rfl, rfl, le_rfl⟩
    exact hl.inv h h.disposed h.announced h.remembered (hl.holds id h.phase)
  | save =>
    have hl : Leaves s (s.step .save) :=
      ⟨fun _ h => h, fun _ h => .inl h, rfl, rfl, rfl, rfl, le_rfl⟩
    exact hl.inv h h.disposed h.announced h.remembered (hl.holds id h.phase)
  | crash landed => exact inv_restart (inv_io h hok)

theorem Fresh.inv {s : Failing} (h : s.Fresh) : s.Inv where
  rows := by
    intro j hj
    obtain ⟨hhas, hcount, hdone⟩ := h.rows j hj
    refine ⟨fun hk => ?_, ?_, fun hd => ?_⟩
    · rw [hhas] at hk; cases hk
    · rw [hcount, h.spent]; rfl
    · rw [hdone] at hd; cases hd
  time := .inl ⟨fun j hj => failureAt_eq_none (h.rows j (.inl hj)).1, h.history⟩
  present := h.strays
  disposed := by rw [h.disposed]; simp
  history := by rw [h.history]; simp
  announced := by rw [h.announced]; simp
  spaced := by rw [h.spent]; exact .nil
  allowed := by rw [h.spent]; simp
  past := by rw [h.spent]; simp
  remembered := by rw [h.spent]; simp
  phase := by rw [h.phase]; trivial

end Failing

/-- **One completion, none without its row, nothing before its time is on disk, and the
tries counted,** as long as the disk answers as it may. -/
theorem failsOnce_of_run {s : Failing} (h : Failing.Reached s) : s.FailsOnce := by
  refine (Run.invariant (P := Failing.Inv) (fun s hs => hs.inv) ?_ h).failsOnce
  rintro s c _ hinv hok rfl
  exact Failing.inv_step hinv c hok

instance (s : Failing) (result : RecordResult) : (p : FailPhase) → Decidable (s.Admits result p)
  | .recording j _ _ => inferInstanceAs (Decidable (_ → j.isSome ∧ s.row.isSome))
  | .importing (.attempt ..) _ _ => inferInstanceAs (Decidable (_ → _ → _ ∧ _ ∧ (_ → s.Rested)))
  | .importing .failureAt _ _ | .importing (.stamp _) _ _ | .idle | .exporting
  | .exported _ | .imported .. | .disposing .. | .recorded .. => isTrue trivial

instance (s : Failing) : (c : FailStep) → Decidable (s.Careful c)
  | .io result => inferInstanceAs (Decidable (s.Admits result s.phase))
  | .crash landed => inferInstanceAs (Decidable (s.Admits (Failing.landing landed) s.phase))
  | .observe | .exportJob _ | .look _ | .proceed | .dispose _ | .hold | .conclude
  | .setGate _ | .tick _ | .forget | .remove | .save => isTrue trivial

/-- A job with one file, of which too much is missing. -/
def brokenJob : Job :=
  { QueueState.newJob 0 1 .nzb [] [] none 0 .failed with
    files := [⟨1, [], [], false, false, [], none, [], none, false⟩] }

def justFailed : Failing where
  row := some brokenJob
  disk := some brokenJob
  gate := true
  clock := 0
  lastDisposition := none
  phase := .idle
  history := []
  durable := []
  disposed := []
  announced := []
  spent := []
  strays := []

theorem fresh_justFailed : justFailed.Fresh := by
  refine ⟨?_, rfl, rfl, rfl, rfl, rfl, rfl, rfl⟩
  rintro j (hj | hj) <;> obtain rfl := Option.some.inj hj <;> decide +kernel

def timeOfDay (n : Nat) (h : n < 2 ^ 63) : UnixTime := ⟨n, by unfold Signed; omega⟩

/-- The files will not go: a try on the row, which has its time already. -/
def failedTry : List FailStep :=
  [.observe, .exportJob true, .look (timeOfDay 300 (by decide)), .dispose (.failed [] false),
    .io .ok, .proceed]

/-- Three tries, a restart long after the second, and the entry. -/
def threeTries : List FailStep :=
  [.observe, .exportJob true, .look (timeOfDay 100 (by decide)), .io .ok, .hold, .proceed,
    .dispose (.failed [] false), .io .ok, .proceed, .tick 15000] ++
  failedTry ++ [.tick 30000, .crash true] ++ failedTry ++
  [.io (.error true), .conclude, .observe, .exportJob true, .look (timeOfDay 400 (by decide)),
    .dispose (.resolved []), .io .ok, .conclude, .io .ok, .proceed]

theorem failsOnce_of_run_threeTries :
    let s := threeTries.foldl Failing.step justFailed
    s.Reached ∧ s.history = [100, 100] ∧ s.announced = [100] ∧ s.spent.length = 3 ∧
      s.FailsOnce := by
  have hreached : (threeTries.foldl Failing.step justFailed).Reached :=
    Run.foldl (.start fresh_justFailed) (by decide +kernel)
  exact ⟨hreached, by decide +kernel, by decide +kernel, by decide +kernel,
    failsOnce_of_run hreached⟩

/-- The row has left the queue when an event of the failure is read. -/
def lateEvent : List FailStep :=
  [.observe, .exportJob true, .look (timeOfDay 100 (by decide)), .io .ok, .proceed,
    .dispose (.resolved []), .io .ok, .conclude, .io .ok, .proceed, .remove,
    .observe, .exportJob true, .look (timeOfDay 200 (by decide)), .io .ok, .conclude]

/-- **The history has a second completion**, for a job that is not there any more. -/
theorem second_completion : justFailed.Fresh ∧
    let s := lateEvent.foldl Failing.step justFailed
    s.history = [200, 100] ∧ s.strays = [200] ∧ s.announced = [200, 100] ∧ ¬s.FailsOnce := by
  refine ⟨fresh_justFailed, by decide +kernel, by decide +kernel, by decide +kernel, fun h => ?_⟩
  have hstrays : (lateEvent.foldl Failing.step justFailed).strays = [200] := by decide +kernel
  have hnone := h.present
  rw [hstrays] at hnone
  cases hnone

end Nzbd.Post
