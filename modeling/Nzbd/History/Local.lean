import Nzbd.History.Sync

/-!
# What a node does to its history

A node writes to its tables and to its own log: it records an entry, hides or restores
the entries of a job, deletes them, and prunes what is too old or too much.  `LocalOp.writes`
is the list of what an operation writes, in the order in which it is written.

`LogFormat` is the writing of lines, with what is known of their reading.
-/

namespace Nzbd.History

open State (lf)
open Lines

/-- The lines that are written, and how they are read. -/
structure LogFormat extends LogCodec where
  entryLine : HistoryEntry → List UInt8
  tombstoneLine : Key → List UInt8
  coherent : toLogCodec.Coherent
  lf_notMem_entryLine : ∀ e, lf ∉ entryLine e
  probe_entryLine : ∀ e, probe (entryLine e) = false
  tombstone_entryLine : ∀ e, tombstone (entryLine e) = none
  entry_entryLine : ∀ e, entry (entryLine e) = some e
  lf_notMem_tombstoneLine : ∀ k, lf ∉ tombstoneLine k
  probe_tombstoneLine : ∀ k, probe (tombstoneLine k) = true
  tombstone_tombstoneLine : ∀ k, tombstone (tombstoneLine k) = some k
  tombstone_nil : tombstone [] = none
  entry_nil : entry [] = none

/-! ### The tables -/

/-- A row that is not older, and if it is as old was not taken in before. -/
def Row.Newer (a b : Row) : Prop :=
  b.entry.completedAtUnix < a.entry.completedAtUnix ∨
    b.entry.completedAtUnix = a.entry.completedAtUnix ∧ b.id ≤ a.id

instance : DecidableRel Row.Newer := fun a b => inferInstanceAs (Decidable
  (b.entry.completedAtUnix < a.entry.completedAtUnix ∨
    b.entry.completedAtUnix = a.entry.completedAtUnix ∧ b.id ≤ a.id))

namespace Index

/-- A new row, or an update of the row that is there, which takes an id as well.
A key with a tombstone gets nothing. -/
def insertSeq (db : Index) (e : HistoryEntry) : Index :=
  if e.key ∈ db.tombstones then db
  else if (db.row e.key).isSome then { db.updateRow e with lastId := db.lastId + 1 }
  else db.insertRow e

def markSynced (db : Index) (k : Key) : Index := { db with
  rows := db.rows.map fun r => if r.key = k then { r with portableSynced := true } else r }

/-- The order of the pages: the newest first. -/
def newestFirst (db : Index) : List Row := db.rows.insertionSort Row.Newer

def hasJob (db : Index) (job : JobId) : Bool := db.rows.any fun r => r.entry.job = job

/-- Hide all rows of a job, or restore them. -/
def updateHidden (db : Index) (job : JobId) (hidden : Bool) (byClient : Option Text)
    (removedAt : Option Int) : Index := { db with
  rows := db.rows.map fun r => if r.entry.job = job then { r with entry := { r.entry with
    hidden := hidden
    removedAtUnix := if hidden then removedAt else none
    pickedUpBy := byClient.or r.entry.pickedUpBy } } else r }

def listed (db : Index) (job : JobId) : Option HistoryEntry :=
  ((db.newestFirst.take 10000).find? fun r => r.entry.job = job).map (·.entry)

def keysOf (db : Index) (job : JobId) : List Key :=
  (db.rows.filter fun r => r.entry.job = job).map Row.key

/-- Without what is too old. -/
def dropAged (db : Index) (r : Retention) (now : Int) : Index :=
  match r.ageCutoff now with
  | some cutoff => { db with rows := db.rows.filter fun x => cutoff ≤ x.entry.completedAtUnix }
  | none => db

/-- Without what is too much. -/
def dropExcess (db : Index) (r : Retention) : Index :=
  if 0 < r.keepMax then { db with
    rows := db.rows.filter fun x => x.id ∈ (db.newestFirst.take r.keepMax).map (·.id) }
  else db

/-- What a prune leaves. -/
def trimmed (db : Index) (r : Retention) (now : Int) : Index := (db.dropAged r now).dropExcess r

/-- The time of the oldest row. -/
def oldest (db : Index) : Option Int := (db.rows.map (·.entry.completedAtUnix)).min?

/-- The floor only rises. -/
def raiseFloor (db : Index) (floor : Int) : Index := { db with
  retentionFloor := some ((db.retentionFloor.elim floor) (max floor)) }

def raisedFloor (db : Index) (r : Retention) (now : Int) : Index :=
  match db.oldest.or (r.ageCutoff now) with
  | some floor => db.raiseFloor floor
  | none => db

end Index

/-! ### The logs -/

section Logs

variable (c : LogCodec)

def entryOf (line : List UInt8) : Option HistoryEntry :=
  if (c.tombstone line).isSome then none else c.entry line

/-- The first line of a key over all logs. -/
def portableEntry (dir : LogDir) (k : Key) : Option HistoryEntry :=
  ((logPaths dir).flatMap fun f => splitLines f.2.bytes).findSome? fun line =>
    (entryOf c line).filter fun e => e.key = k

def dropped (live : List Key) (line : List UInt8) : Bool :=
  (entryOf c line).any fun e => e.key ∉ live

/-- A log without the lines that are dropped; all others are kept, and the last one is
completed.  If none is dropped nothing is written. -/
def compacted (live : List Key) (bytes : List UInt8) : Option (List UInt8) :=
  let lines := (splitLines bytes).filter (· ≠ [])
  if lines.any (dropped c live) then some (joined lf (lines.filter fun l => !dropped c live l))
  else none

/-- What a log is, that may not be there yet. -/
def logBytes (dir : LogDir) (own : Text) : List UInt8 :=
  ((dir.find? fun f => f.1 = own).map (·.2.bytes)).getD []

end Logs

/-! ### Operations -/

/-- A single write: the tables as a whole, some bytes behind the log, a new log. -/
inductive Write
  | index (db : Index)
  | append (bytes : List UInt8)
  | rewrite (bytes : List UInt8)

def Write.onTables (db : Index) : Write → Index
  | index db' => db'
  | append _ => db
  | rewrite _ => db

inductive LocalOp
  | record (e : HistoryEntry)
  | recordSeqDurable (e : HistoryEntry)
  | setHidden (job : JobId) (hidden : Bool) (byClient : Option Text) (removedAt : Option Int)
  | delete (job : JobId)
  | prune (now : Int)

namespace LocalOp

def hide (job : JobId) (byClient : Option Text) (now : Int) : LocalOp :=
  .setHidden job true byClient (some now)

def restore (job : JobId) : LocalOp := .setHidden job false none none

/-- Whether the operation repairs what it leaves undone. -/
def guarded : LocalOp → Bool
  | prune _ => false
  | _ => true

variable (c : LogFormat)

def line (e : HistoryEntry) : List UInt8 := c.entryLine e ++ [lf]

def tombstoneLines (ks : List Key) : List UInt8 := joined lf (ks.map c.tombstoneLine)

/-- The payload that the logs have already, if they have one. -/
def canonical (dir : LogDir) (e : HistoryEntry) : HistoryEntry :=
  (portableEntry c.toLogCodec dir e.key).getD e

variable {c} in
theorem key_canonical (dir : LogDir) (e : HistoryEntry) : (canonical c dir e).key = e.key := by
  rw [canonical]
  cases h : portableEntry c.toLogCodec dir e.key with
  | none => rfl
  | some x =>
    obtain ⟨line, -, hline⟩ := List.exists_of_findSome?_eq_some h
    exact of_decide_eq_true (Option.filter_eq_some_iff.mp hline).2

def writes (r : Retention) (dir : LogDir) (own : Text) (db : Index) : LocalOp → List Write
  | record e =>
    .index (db.insertSeq e) :: if e.key ∈ db.tombstones then [] else [.append (line c e)]
  | recordSeqDurable e =>
    let e' := canonical c dir e
    if (db.row e'.key).any (·.portableSynced) then []
    else [.append (line c e'), .index (db.insertSeq e'),
      .index ((db.insertSeq e').markSynced e'.key)]
  | setHidden job hidden byClient removedAt =>
    let db' := db.updateHidden job hidden byClient removedAt
    .index db' :: if db.hasJob job then
      ((db'.listed job).map fun e => Write.append (line c e)).toList else []
  | delete job =>
    let ks := db.keysOf job
    (if ks = [] then [] else [.append (tombstoneLines c ks)]) ++
      [.index (ks.dedup.foldl Index.replayTombstone db)]
  | prune now =>
    let db' := db.trimmed r now
    if r.isUnlimited then []
    else [.index (db.dropAged r now), .index db'] ++
      if db'.rows.length = db.rows.length then []
      else .index (db'.raisedFloor r now) ::
        ((compacted c.toLogCodec (db'.rows.map Row.key) (logBytes dir own)).map Write.rewrite).toList

/-- The tables after an operation. -/
def tables (r : Retention) (dir : LogDir) (own : Text) (db : Index) (op : LocalOp) : Index :=
  (op.writes c r dir own db).foldl Write.onTables db

variable {c} {r : Retention} {dir : LogDir} {own : Text} {db : Index} in
theorem tables_setHidden {job : JobId} {hidden : Bool} {byClient : Option Text}
    {removedAt : Option Int} : tables c r dir own db (.setHidden job hidden byClient removedAt) =
      db.updateHidden job hidden byClient removedAt := by
  rw [tables, writes]
  split
  · cases (db.updateHidden job hidden byClient removedAt).listed job <;> rfl
  · rfl

variable {c} {r : Retention} {dir : LogDir} {own : Text} {db : Index} in
theorem tables_delete {job : JobId} : tables c r dir own db (.delete job) =
    (db.keysOf job).dedup.foldl Index.replayTombstone db := by
  rw [tables, writes]
  split <;> rfl

/-- What a caller is told: whether the job has entries. -/
def answer (db : Index) : LocalOp → Bool
  | setHidden job _ _ _ => db.hasJob job
  | delete job => db.keysOf job ≠ []
  | _ => true

end LocalOp

def Write.change (own : Text) (dir : LogDir) (ino modified : Nat) : Write → Option LogChange
  | index _ => none
  | append bytes =>
    if own ∈ dir.map (·.1) then some (.append own bytes modified) else some (.put own ino modified bytes)
  | rewrite bytes => some (.put own ino modified bytes)

end Nzbd.History
