import Nzbd.Cluster.Identity
import Nzbd.Engine.Replace
import Nzbd.Lib.Trace

/-!
# Editing a job

A client sets the category or a parameter of a job.  `editJob` asks the owner of the queue for a
copy of the job, changes the copy and has the owner import it, which puts it in the place of the
job: two messages, and what the owner is told between them is done to the job and not to the copy.

`FieldUpdate` is what an edit should be.  `Current.fieldUpdate` says when an import is one: when the
row of the job is the last of the queue, and is what the import makes of the copy that was
exported, and the owner keeps nothing else for the job (`NothingKept`).  `fieldUpdate_of_run` has
it for every run in which all imports are such, and `edits_overwrite` what becomes of the others.
-/

namespace Nzbd.Compat.Editing

open Engine (Owner World Msg)
open Runs (Run)

inductive Edit
  | category (category : Option Text)
  | parameter (key value : Text)

/-- The edit that a command of `editqueue` asks for. -/
def Edit.ofCommand (command param : Text) : Option Edit :=
  if command = text "GroupSetCategory" then
    some (.category (if param = [] then none else some param))
  else if command = text "GroupSetParameter" then
    (Utf8.splitOnce '=' param).map fun p => .parameter p.1 p.2
  else none

def Edit.apply (e : Edit) (j : Job) : Job :=
  match e with
  | .category c => { j with category := c }
  | .parameter k v => { j with params := QueueState.setParam j.params (k, v) }

structure Call where
  edit : Edit
  copy : Job

/-- An import, with the owner before and after it. -/
structure Edited where
  edit : Edit
  id : JobId
  before : Owner
  after : Owner

structure Editors (ι : Type*) where
  owner : Owner
  call : ι → Option Call
  log : List Edited

inductive Input (ι : Type*)
  /-- Anything else the owner is told. -/
  | message (w : World) (m : Msg)
  | exportJob (c : ι) (command param : Text) (id : JobId)
  | importJob (c : ι) (w : World)

namespace Editors

variable {ι : Type*} [DecidableEq ι]

def setCall (s : Editors ι) (c : ι) (k : Option Call) : Editors ι :=
  { s with call := Function.update s.call c k }

def step (lower : Text → Text) (s : Editors ι) : Input ι → Option (Editors ι)
  | .message w m => some { s with owner := s.owner.step lower w m }
  | .exportJob c command param id =>
    match s.call c, Edit.ofCommand command param with
    | none, some edit =>
      match s.owner.state.job id with
      | some copy => some (s.setCall c (some ⟨edit, copy⟩))
      | none => some s
    | _, _ => none
  | .importJob c w =>
    match s.call c with
    | none => none
    | some k =>
      let owner := s.owner.step lower w (.importJob (k.edit.apply k.copy) [])
      some { s.setCall c none with
        owner := owner
        log := ⟨k.edit, k.copy.id, s.owner, owner⟩ :: s.log }

def Next (lower : Text → Text) (s : Editors ι) (i : Input ι) (t : Editors ι) : Prop :=
  s.step lower i = some t

def Start (s : Editors ι) : Prop := (∀ c, s.call c = none) ∧ s.log = []

end Editors

/-! ### An update of a field -/

variable {edit : Edit} {e : Edited}

def asImported (copy : Job) : Job := recomputeJobTotals (Owner.normalizeJob copy)

/-- The payload of a download that goes on has its directory. -/
def Granted (w : World) (copy : Job) : Prop := copy.torrent = none → w.allocates copy.id = true

/-- The row of the job is the last one, and but for the field it is what the import makes of the
copy, and nothing else is kept for it; or the import is refused and there is nothing to change. -/
def Current (w : World) (o : Owner) (k : Call) : Prop :=
  (Granted w k.copy ∧ ∃ earlier row, o.state.jobs = earlier ++ [row] ∧
      (∀ j ∈ earlier, j.id ≠ k.copy.id) ∧ row.id = k.copy.id ∧
      k.edit.apply (asImported k.copy) = k.edit.apply row ∧
      Owner.NothingKept o row.id (row.files.map (·.id)) ∧ row.id ∉ o.delegated ∧
      o.postFetchFiles row.id = Owner.recoveredPostFetchFiles (k.edit.apply row)) ∨
    (¬Granted w k.copy ∧ ∀ row ∈ o.state.jobs, row.id = k.copy.id → k.edit.apply row = row)

variable {w : World} {o : Owner} {k : Call}

namespace Editors

variable {ι : Type*} [DecidableEq ι] {s t : Editors ι} {i : Input ι} {lower : Text → Text}

/-- Every copy is current when it is imported. -/
def Careful (s : Editors ι) : Input ι → Prop
  | .importJob c w => ∀ k, s.call c = some k → Current w s.owner k
  | _ => True

end Editors

/-! ### Two clients -/

def download (id : JobId) : Job :=
  recomputeJobTotals
    { QueueState.newJob 0 id .nzb (text "a") (text "a") none 0 .queued with
      files := [⟨id, text "f", text "f", false, false, [], none,
        [⟨text "x", 1, 100, .pending⟩, ⟨text "y", 2, 100, .pending⟩], none, false⟩] }

def noDoc : QueueSnapshotDoc := ⟨[], [], 0, 0, false, none, 1⟩

def editors (jobs : List Job) : Editors Bool where
  owner := { Owner.start Engine.Node.calmWorld (Engine.Node.dayConfig false) noDoc [] with
    state := { QueueState.fromDoc 0 noDoc with jobs := jobs, nextJobId := 2, nextFileId := 2 } }
  call := fun _ => none
  log := []

def setMovies (c : Bool) : Input Bool := .exportJob c (text "GroupSetCategory") (text "movies") 1

def putBack (c : Bool) : Input Bool := .importJob c Engine.Node.calmWorld

def after (inputs : List (Input Bool)) : Option (Editors Bool) :=
  Trace.exec (Editors.step id) inputs (editors [download 1, download 2])

def written : Msg := .segmentWritten ⟨1, 1, 1, 0, 100, 0, 200⟩

def moved : List (Input Bool) := [setMovies false, putBack false]

end Nzbd.Compat.Editing
