import Nzbd.Lib.Interleave
import Nzbd.Cluster.Control

/-!
# The control store

The tables of the replicated database and the calls on them.  A statement of SQL
is atomic, and so is a transaction; what a call does between two of them is not:
a call is a program of `Interleave`, and any number of callers run at once.

`work_leases` has one row a resource, and the row is never taken out.  Its fence
counts the acquisitions, its revision the writes.  A token is a copy of a row; it
is good for a step as long as the row is still the one it was copied from.

A receipt of a command or of a publication runs triggers: they check the revision
of the job, write its row and close the lease.

The database keeps books besides (`issued`, `accepted`, `ran`, `versions`,
`changes`): they record what happened and nothing reads them.  Clocks are
parameters of the calls, so no two of them need agree.
-/

namespace Nzbd

open Interleave (Prog)

structure LeaseToken where
  resource : Text
  ownerNodeId : Text
  ownerIncarnation : Text
  fence : Nat
  revision : Nat
  expiresAtUnixMs : Int
  deriving DecidableEq

structure LeaseRow where
  resource : Text
  jobId : JobId
  jobIncarnation : Text
  ownerNodeId : Text
  ownerIncarnation : Text
  kind : Text
  scopeJson : Text
  fence : Nat
  revision : Nat
  jobRevision : Nat
  expiresAtMs : Int
  terminal : Bool

def LeaseRow.token (l : LeaseRow) : LeaseToken where
  resource := l.resource
  ownerNodeId := l.ownerNodeId
  ownerIncarnation := l.ownerIncarnation
  fence := l.fence
  revision := l.revision
  expiresAtUnixMs := l.expiresAtMs

structure CommandReceipt where
  jobId : JobId
  expectedRevision : Nat
  appliedRevision : Nat
  deriving DecidableEq

structure PublicationReceipt where
  receiptId : Text
  token : LeaseToken
  expectedJobRevision : Nat
  resultId : Text
  resultRef : Text
  resultJob : Job
  acceptedAtMs : Int

structure RangeResult where
  resource : Text
  jobId : JobId
  scopeJson : Text
  resultId : Text
  resultRef : Text

inductive ScriptState
  | started
  | done
  deriving DecidableEq

structure ScriptReceipt where
  resource : Text
  jobId : JobId
  state : ScriptState

structure Accepted where
  receipt : PublicationReceipt
  jobId : JobId
  kind : Text

/-- A change to a row of `control_jobs`.  `basis` is the row the caller had
read, if it was one of the calls that read it. -/
structure Applied where
  expected : Nat
  basis : Option ControlRow
  before : ControlRow
  after : ControlRow

/-- The tables, and the books. -/
structure ControlDb where
  jobs : List ControlRow
  leases : Text → Option LeaseRow
  commands : Text → Option CommandReceipt
  publications : List PublicationReceipt
  ranges : List RangeResult
  scripts : Text → Option ScriptReceipt
  /-- Every token given out, the last one first. -/
  issued : List LeaseToken
  accepted : List Accepted
  /-- The script receipts `Run` was answered for. -/
  ran : List Text
  /-- Every row there has been. -/
  versions : List ControlRow
  changes : List Applied

/-! ### Statements about leases -/

/-- The largest integer of the database. -/
def maxI64 : Nat := 2 ^ 63 - 1

/-- What `acquire` is told. -/
structure Claim where
  resource : Text
  jobId : JobId
  jobIncarnation : Text
  ownerNodeId : Text
  ownerIncarnation : Text
  kind : Text
  scopeJson : Text
  jobRevision : Nat

/-- A statement of a request.  A receipt has its name and the row it was made
from, and goes one revision up. -/
inductive RequestStatement
  | insert (row : ControlRow)
  | receipt (commandId : Text) (jobId : JobId) (expected : Nat) (next : Job) (deleted : Bool)
    (basis : Option ControlRow)

def segmentKind : Text := LeaseKind.segment.name

namespace ControlDb

def setLease (db : ControlDb) (l : LeaseRow) : ControlDb :=
  { db with leases := Function.update db.leases l.resource (some l) }

/-- Give the row out as a token. -/
def issue (db : ControlDb) (l : LeaseRow) : ControlDb :=
  { db.setLease l with issued := l.token :: db.issued }

/-- The last token given out for a resource. -/
def newest (db : ControlDb) (resource : Text) : Option LeaseToken :=
  db.issued.find? (·.resource = resource)

def holds (db : ControlDb) (t : LeaseToken) : Option LeaseRow :=
  (db.leases t.resource).filter fun l => l.token = t && !l.terminal

/-- The same, and not expired by this clock. -/
def holdsAt (db : ControlDb) (t : LeaseToken) (now : Int) : Option LeaseRow :=
  (db.holds t).filter fun l => now < l.expiresAtMs

/-- Insert a lease, or take over an expired one. -/
def upsertLease (c : Claim) (now expiry : Int) (db : ControlDb) :
    Except Text (ControlDb × Option LeaseToken) :=
  let row : Nat → Nat → LeaseRow := fun fence revision =>
    { resource := c.resource
      jobId := c.jobId
      jobIncarnation := c.jobIncarnation
      ownerNodeId := c.ownerNodeId
      ownerIncarnation := c.ownerIncarnation
      kind := c.kind
      scopeJson := c.scopeJson
      fence := fence
      revision := revision
      jobRevision := c.jobRevision
      expiresAtMs := expiry
      terminal := false }
  if c.jobRevision = 0 then .error (text "CHECK constraint failed: job_revision > 0")
  else match db.leases c.resource with
  | none => .ok (db.issue (row 1 1), some (row 1 1).token)
  | some l =>
    if l.expiresAtMs ≤ now ∧ l.fence < maxI64 ∧ l.revision < maxI64 then
      let l := row (l.fence + 1) (l.revision + 1)
      .ok (db.issue l, some l.token)
    else .ok (db, none)

/-- An integer does not overflow into a table of integers. -/
def nextI64 (label : Text) (n : Nat) : Except Text Nat :=
  if n < maxI64 then .ok (n + 1) else .error label

def renewLease (t : LeaseToken) (now expiry : Int) (db : ControlDb) :
    Except Text (ControlDb × Option LeaseToken) :=
  match db.holdsAt t now with
  | none => .ok (db, none)
  | some l => (nextI64 (text "renew lease") l.revision).bind fun revision =>
    let l := { l with revision := revision, expiresAtMs := expiry }
    .ok (db.issue l, some l.token)

def releaseLease (t : LeaseToken) (now : Int) (db : ControlDb) : Except Text (ControlDb × Bool) :=
  match db.holds t with
  | none => .ok (db, false)
  | some l => (nextI64 (text "release lease") l.revision).bind fun revision =>
    .ok (db.setLease { l with revision := revision, expiresAtMs := now, terminal := true }, true)

/-! ### Statements about jobs -/

/-- The row of a job has been written. -/
def noteChange (db : ControlDb) (expected : Nat) (basis : Option ControlRow)
    (before after : ControlRow) : ControlDb :=
  { db with
    versions := after :: db.versions
    changes := ⟨expected, basis, before, after⟩ :: db.changes }

/-- A publication: its triggers check the lease and the job, file a range or
write the job, and close the lease. -/
def insertPublication (p : PublicationReceipt) (db : ControlDb) :
    Except Text (ControlDb × Unit) :=
  match db.holdsAt p.token p.acceptedAtMs with
  | none => .error (text "stale lease token")
  | some l =>
    match db.jobs.find? fun r => r.jobId = l.jobId && r.incarnation = l.jobIncarnation &&
        r.revision = p.expectedJobRevision && !r.deleted with
    | none => .error (text "stale job revision")
    | some row =>
      if db.publications.any fun q => q.receiptId = p.receiptId || q.resultId = p.resultId then
        .error (text "UNIQUE constraint failed: publication_receipts")
      else
        (nextI64 (text "publish result") l.revision).bind fun revision =>
          let db := { db with
            publications := db.publications ++ [p]
            accepted := ⟨p, l.jobId, l.kind⟩ :: db.accepted }
          let db := db.setLease { l with revision := revision, terminal := true }
          if l.kind = segmentKind then
            if db.ranges.any fun q => q.resource = l.resource || q.resultId = p.resultId then
              .error (text "UNIQUE constraint failed: range_results")
            else .ok ({ db with ranges := db.ranges ++
              [⟨l.resource, l.jobId, l.scopeJson, p.resultId, p.resultRef⟩] }, ())
          else
            (nextI64 (text "publish result") row.revision).bind fun next =>
              let after := { row with intent := p.resultJob, revision := next }
              let db := db.noteChange p.expectedJobRevision none row after
              .ok ({ db with jobs := db.jobs.map fun r =>
                if r.jobId = l.jobId then
                  { r with intent := p.resultJob, revision := r.revision + 1 }
                else r }, ())

/-- A command: its triggers check the revision of the job and write the row. -/
def insertCommand (commandId : Text) (id : JobId) (expected applied : Nat) (next : Job)
    (deleted : Bool) (basis : Option ControlRow) (db : ControlDb) :
    Except Text (ControlDb × Unit) :=
  ((Statement.receipt id expected applied next deleted).exec db.jobs).bind fun jobs =>
    if (db.commands commandId).isSome then
      .error (text "UNIQUE constraint failed: command_receipts.command_id")
    else
      let db := { db with
        commands := Function.update db.commands commandId (some ⟨id, expected, applied⟩) }
      match findRow db.jobs id with
      | none => .ok ({ db with jobs := jobs }, ())
      | some row =>
        let after := { row with revision := applied, intent := next, deleted := deleted }
        .ok ({ db.noteChange expected basis row after with jobs := jobs }, ())

def insertJob (row : ControlRow) (db : ControlDb) : Except Text (ControlDb × Unit) :=
  ((Statement.insert row).exec db.jobs).map fun jobs =>
    ({ db with jobs := jobs, versions := row :: db.versions }, ())

def seedRow (row : ControlRow) (db : ControlDb) : Except Text (ControlDb × Unit) :=
  if row.jobId ∈ rowIds db.jobs then .ok (db, ()) else db.insertJob row

def runRequest (db : ControlDb) : RequestStatement → Except Text ControlDb
  | .insert row => (db.insertJob row).map (·.1)
  | .receipt commandId id expected next deleted basis =>
    (db.insertCommand commandId id expected (expected + 1) next deleted basis).map (·.1)

/-- All of them or none. -/
def runRequests : List RequestStatement → ControlDb → Except Text (ControlDb × Unit)
  | [], db => .ok (db, ())
  | s :: ss, db => (db.runRequest s).bind fun db => runRequests ss db

/-! ### Statements about scripts -/

def insertScript (receiptId : Text) (t : LeaseToken) (now : Int) (db : ControlDb) :
    Except Text (ControlDb × Bool) :=
  match db.holdsAt t now, db.scripts receiptId with
  | some l, none => .ok ({ db with
      scripts := Function.update db.scripts receiptId (some ⟨l.resource, l.jobId, .started⟩)
      ran := receiptId :: db.ran }, true)
  | _, _ => .ok (db, false)

def finishRow (receiptId : Text) (t : LeaseToken) (now : Int) (db : ControlDb) :
    Except Text (ControlDb × Bool) :=
  match db.holdsAt t now, db.scripts receiptId with
  | some _, some r =>
    if r.resource = t.resource ∧ r.state = .started then
      .ok ({ db with
        scripts := Function.update db.scripts receiptId (some { r with state := .done }) }, true)
    else .ok (db, false)
  | _, _ => .ok (db, false)

end ControlDb

/-! ### Calls -/

inductive MutationOutcome
  | applied (revision : Nat)
  | duplicate (revision : Nat)
  | conflict
  deriving DecidableEq

inductive ScriptReceiptOutcome
  | run
  | alreadyDone
  | ambiguous
  | conflict
  deriving DecidableEq

inductive Answer
  | acquired (t : LeaseToken)
  | held (ownerNodeId : Text) (fence : Nat) (expiresAtUnixMs : Int)
  | renewed (t : Option LeaseToken)
  | released (done : Bool)
  | mutation (outcome : MutationOutcome)
  | script (outcome : ScriptReceiptOutcome)
  | reconciled (row : Option (Text × Nat × Bool))
  | done
  | error (message : Text)
  deriving DecidableEq

/-- The hash function, on the texts the store hashes. -/
structure Digests where
  /-- The intent of a job. -/
  intent : Job → Nat
  /-- Job, expected revision, deletion and next intent of a command. -/
  command : JobId → Nat → Bool → Job → Nat
  /-- Job, expected revision and next intent of a URL resolution. -/
  resolution : JobId → Nat → Job → Nat

def hexId (label : String) (digest : Nat) : Text := text label ++ Numeral.padded 16 64 digest

namespace ControlStore

variable (D : Digests)

/-- Go on with a value, or answer with the error. -/
def orFail {β : Type} (x : Except Text β) (next : β → Prog ControlDb Answer) :
    Prog ControlDb Answer :=
  match x with
  | .ok b => next b
  | .error e => .ret (.error e)

/-- A clock reading in milliseconds. -/
def unixMs (now : Int) : Except Text Int :=
  if now < 0 then .error (text "system clock precedes unix epoch")
  else if now < 2 ^ 63 then .ok now
  else .error (text "unix millisecond overflow")

/-- Between one second and five minutes from now. -/
def expiry (now ttl : Int) : Except Text Int :=
  let at' := now + max 1000 (min ttl 300000)
  if at' < 2 ^ 63 then .ok at' else .error (text "lease expiry overflow")

def byteLength (t : Text) : Nat := (String.ofList t).utf8ByteSize

def validateIdentity (resource node incarnation : Text) : Except Text Unit :=
  if byteLength resource = 0 ∨ 256 < byteLength resource then
    .error (text "resource must contain 1..=256 bytes")
  else if byteLength node = 0 ∨ 128 < byteLength node then
    .error (text "owner node must contain 1..=128 bytes")
  else if byteLength incarnation = 0 ∨ 128 < byteLength incarnation then
    .error (text "owner incarnation must contain 1..=128 bytes")
  else .ok ()

/-- The numbers of a token fit the database. -/
def tokenValues (t : LeaseToken) : Except Text Unit :=
  (i64Value (text "fence") t.fence).bind fun _ =>
    (i64Value (text "lease revision") t.revision).map fun _ => ()

def currentLease (resource : Text) (db : ControlDb) : Option LeaseToken :=
  ((db.leases resource).filter fun l => !l.terminal).map (·.token)

def acquire (c : Claim) (now ttl : Int) : Prog ControlDb Answer :=
  orFail (validateIdentity c.resource c.ownerNodeId c.ownerIncarnation) fun _ =>
  orFail (unixMs now) fun now =>
  orFail (expiry now ttl) fun expiry =>
  orFail (i64Value (text "job id") c.jobId) fun _ =>
  orFail (i64Value (text "job revision") c.jobRevision) fun _ =>
  .transact (ControlDb.upsertLease c now expiry) fun r => orFail r fun
    | some t => .ret (.acquired t)
    | none => .query (currentLease c.resource) fun
      | some held => .ret (.held held.ownerNodeId held.fence held.expiresAtUnixMs)
      | none => .ret (.error
        (text "lease acquire changed no row and the resource disappeared"))

def renew (t : LeaseToken) (now ttl : Int) : Prog ControlDb Answer :=
  orFail (validateIdentity t.resource t.ownerNodeId t.ownerIncarnation) fun _ =>
  orFail (unixMs now) fun now =>
  orFail (expiry now ttl) fun expiry =>
  orFail (tokenValues t) fun _ =>
  .transact (ControlDb.renewLease t now expiry) fun r => orFail r fun t => .ret (.renewed t)

def release (t : LeaseToken) (now : Int) : Prog ControlDb Answer :=
  orFail (unixMs now) fun now =>
  orFail (tokenValues t) fun _ =>
  .transact (ControlDb.releaseLease t now) fun r => orFail r fun b => .ret (.released b)

/-- The message of an error mentions that something was stale. -/
def isStale (e : Text) : Bool := decide (text "stale" <:+: e)

def publicationReceipt (receiptId : Text) (db : ControlDb) : Option Nat :=
  (db.publications.find? (·.receiptId = receiptId)).map (·.expectedJobRevision + 1)

def publishResult (p : PublicationReceipt) : Prog ControlDb Answer :=
  .query (publicationReceipt p.receiptId) fun
    | some revision => .ret (.mutation (.duplicate revision))
    | none =>
      orFail (unixMs p.acceptedAtMs) fun _ =>
      orFail (tokenValues p.token) fun _ =>
      orFail (i64Value (text "expected job revision") p.expectedJobRevision) fun _ =>
      .transact (ControlDb.insertPublication p) fun
        | .ok _ => .ret (.mutation (.applied (p.expectedJobRevision + 1)))
        | .error e =>
          if isStale e then .ret (.mutation .conflict)
          else .ret (.error (text "publish result: " ++ e))

def scriptState (receiptId : Text) (db : ControlDb) : Option ScriptState :=
  (db.scripts receiptId).map (·.state)

def beginScript (receiptId : Text) (t : LeaseToken) (now : Int) : Prog ControlDb Answer :=
  orFail (unixMs now) fun now =>
  orFail (tokenValues t) fun _ =>
  .transact (ControlDb.insertScript receiptId t now) fun r => orFail r fun
    | true => .ret (.script .run)
    | false => .query (scriptState receiptId) fun
      | some .done => .ret (.script .alreadyDone)
      | some .started => .ret (.script .ambiguous)
      | none => .ret (.script .conflict)

def finishScript (receiptId : Text) (t : LeaseToken) (now : Int) : Prog ControlDb Answer :=
  orFail (unixMs now) fun now =>
  orFail (tokenValues t) fun _ =>
  .transact (ControlDb.finishRow receiptId t now) fun r => orFail r fun
    | true => .ret (.script .alreadyDone)
    | false => .query (scriptState receiptId) fun state =>
      if state = some .done then .ret (.script .alreadyDone) else .ret (.script .conflict)

/-! ### Commands -/

/-- One more than a revision, as an unsigned integer. -/
def nextRevision (n : Nat) : Except Text Nat :=
  if n + 1 < 2 ^ 64 then .ok (n + 1) else .error (text "job revision exhausted")

/-- A command, and what the caller makes of its outcome. -/
def applyCommandThen (commandId : Text) (id : JobId) (expected : Nat) (nextIntent : Job)
    (deleted : Bool) (basis : Option ControlRow) (now : Int)
    (next : MutationOutcome → Prog ControlDb Answer) : Prog ControlDb Answer :=
  .query (fun db => db.commands commandId) fun
    | some r => next (.duplicate r.appliedRevision)
    | none =>
      orFail (unixMs now) fun _ =>
      orFail (nextRevision expected) fun applied =>
      orFail (i64Value (text "job id") id) fun _ =>
      orFail (i64Value (text "expected revision") expected) fun _ =>
      orFail (i64Value (text "applied revision") applied) fun _ =>
      .transact (ControlDb.insertCommand commandId id expected applied nextIntent deleted basis) fun
        | .ok _ => next (.applied applied)
        | .error e =>
          if isStale e then next .conflict
          else .ret (.error (text "apply command transaction: " ++ e))

def applyCommand (commandId : Text) (id : JobId) (expected : Nat) (nextIntent : Job)
    (deleted : Bool) (now : Int) : Prog ControlDb Answer :=
  applyCommandThen commandId id expected nextIntent deleted none now fun o => .ret (.mutation o)

/-- The attempts of a reconciliation, each from a row of its own. -/
def reconcileAttempts (id : JobId) (job : Option Job) (now : Int) : Nat → Prog ControlDb Answer
  | 0 => .ret (.error (text "replicated job reconciliation remained conflicted"))
  | attempts + 1 =>
    orFail (i64Value (text "job id") id) fun _ =>
    .query (fun db => findRow db.jobs id) fun
      | none =>
        match job with
        | none => .ret (.reconciled none)
        | some intent =>
          orFail (unixMs now) fun _ =>
          .transact (ControlDb.seedRow
            { jobId := id
              incarnation := jobIncarnation D.intent intent
              revision := 1
              intent := intent
              deleted := false }) fun r => orFail r fun _ =>
            reconcileAttempts id job now attempts
      | some row =>
        let deleted := job.isNone
        if row.deleted = deleted ∧ job.all (· = row.intent) then
          .ret (.reconciled (some (row.incarnation, row.revision, row.deleted)))
        else
          let intent := job.getD row.intent
          applyCommandThen (hexId "reconcile:" (D.command id row.revision deleted intent)) id
            row.revision intent deleted (some row) now fun
            | .applied revision => .ret (.reconciled (some (row.incarnation, revision, deleted)))
            | .duplicate revision => .ret (.reconciled (some (row.incarnation, revision, deleted)))
            | .conflict => reconcileAttempts id job now attempts

def reconcileJob (id : JobId) (job : Option Job) (now : Int) : Prog ControlDb Answer :=
  reconcileAttempts D id job now 4

/-- A statement, made from the row that was read. -/
def requestStatement (basis : Option ControlRow) : Statement → RequestStatement
  | .insert row => .insert row
  | .receipt id expected _ next deleted =>
    .receipt (hexId "request:" (D.command id expected deleted next)) id expected next deleted basis

/-- Read the rows of the changes one after the other, and write what they ask
for in one transaction. -/
def readChanges : List Change → List RequestStatement → Prog ControlDb Answer
  | [], ss =>
    if ss = [] then .ret .done
    else .transact (ControlDb.runRequests ss) fun
      | .ok _ => .ret .done
      | .error e => .ret (.error (text "commit replicated request delta: " ++ e))
  | c :: cs, ss =>
    .query (fun db => (findRow db.jobs c.1, statementFor D.intent db.jobs c)) fun r =>
    orFail r.2 fun asked => readChanges cs (ss ++ asked.map (requestStatement D r.1))

def commitJobDelta (changes : List Change) (now : Int) : Prog ControlDb Answer :=
  if changes = [] then .ret .done
  else orFail (unixMs now) fun _ => readChanges D changes []

def commitUrlResolution (job : Job) (now : Int) : Prog ControlDb Answer :=
  orFail (i64Value (text "job id") job.id) fun id =>
  .query (fun db => findRow db.jobs id) fun
    | none => .ret (.error (text "URL placeholder is not durable"))
    | some row =>
      if row.deleted ∨ row.intent.status ≠ .fetching ∨ job.status = .fetching ∨
          row.intent.id ≠ job.id ∨ urlOf row.intent ≠ urlOf job then
        .ret (.error (text "URL resolution no longer matches its durable placeholder"))
      else
        applyCommandThen (hexId "url-resolution:" (D.resolution job.id row.revision job)) id
          row.revision job false (some row) now fun
          | .applied _ => .ret .done
          | .duplicate _ => .ret .done
          | .conflict => .ret (.error (text "URL resolution lost a revision race"))

/-- The calls on the store. -/
inductive IsCall : Prog ControlDb Answer → Prop
  | acquire (c : Claim) (now ttl : Int) : IsCall (acquire c now ttl)
  | renew (t : LeaseToken) (now ttl : Int) : IsCall (renew t now ttl)
  | release (t : LeaseToken) (now : Int) : IsCall (release t now)
  | publishResult (p : PublicationReceipt) : IsCall (publishResult p)
  | beginScript (receiptId : Text) (t : LeaseToken) (now : Int) : IsCall (beginScript receiptId t now)
  | finishScript (receiptId : Text) (t : LeaseToken) (now : Int) :
      IsCall (finishScript receiptId t now)
  | applyCommand (commandId : Text) (id : JobId) (expected : Nat) (nextIntent : Job)
      (deleted : Bool) (now : Int) :
      IsCall (applyCommand commandId id expected nextIntent deleted now)
  | reconcileJob (id : JobId) (job : Option Job) (now : Int) : IsCall (reconcileJob D id job now)
  | commitJobDelta (changes : List Change) (now : Int) : IsCall (commitJobDelta D changes now)
  | commitUrlResolution (job : Job) (now : Int) : IsCall (commitUrlResolution D job now)

/-- A store with these jobs, that has answered no call yet. -/
structure Fresh (db : ControlDb) : Prop where
  jobs : (rowIds db.jobs).Nodup
  leases : ∀ resource, db.leases resource = none
  commands : ∀ commandId, db.commands commandId = none
  scripts : ∀ receiptId, db.scripts receiptId = none
  publications : db.publications = []
  ranges : db.ranges = []
  issued : db.issued = []
  accepted : db.accepted = []
  ran : db.ran = []
  versions : db.versions = db.jobs
  changes : db.changes = []

/-- What any number of callers make of a store. -/
def Reached : Interleave.Sys ControlDb Answer → Prop := Interleave.Reached Fresh (IsCall D)

end ControlStore

end Nzbd
