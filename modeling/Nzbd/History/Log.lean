import Mathlib.Data.Char
import Mathlib.Data.List.Lex
import Mathlib.Data.Prod.Lex
import Nzbd.History.Index
import Nzbd.State.Journal

/-!
# The history logs, and how they are read

A log is a file of lines, each an entry or a tombstone.  A directory has one log for
each node, and the logs are read in the order of their names.

`fullReplayLogs` replays every line.  `replayLogs` keeps for each file how far it was
read and what it says of each key (`FileState`).  A file that was only appended to is
read from there on, and the keys that are touched are merged anew over all files.

What a line is made of is outside the repository: `LogCodec` reads it.
-/

namespace Nzbd.History

open State (lf)

/-- The reading of a line: the tag of a tombstone, a whole tombstone, an entry. -/
structure LogCodec where
  probe : List UInt8 → Bool
  tombstone : List UInt8 → Option Key
  entry : List UInt8 → Option HistoryEntry

/-- A tagged line that has the fields of an entry has those of a tombstone, the same. -/
def LogCodec.Coherent (c : LogCodec) : Prop :=
  ∀ line e, c.probe line = true → c.entry line = some e → c.tombstone line = some e.key

structure LogFile where
  /-- Device and inode. -/
  ino : Nat
  modified : Nat
  bytes : List UInt8
  deriving DecidableEq

abbrev LogDir := List (Text × LogFile)

def isHistoryLog (name : Text) : Bool :=
  "history".toList.isPrefixOf name && ".jsonl".toList.isSuffixOf name

/-- The logs of a directory, by name. -/
def logPaths (dir : LogDir) : List (Text × LogFile) :=
  (dir.filter fun f => isHistoryLog f.1).insertionSort fun a b => a.1 ≤ b.1

structure Fingerprint where
  path : Text
  len : Nat
  modified : Nat
  ino : Nat
  deriving DecidableEq

def fingerprint (f : Text × LogFile) : Fingerprint :=
  ⟨f.1, f.2.bytes.length, f.2.modified, f.2.ino⟩

/-- How much history to keep; zero is no bound. -/
structure Retention where
  keepMax : Nat
  keepDays : Nat

namespace Retention

def unlimited : Retention := ⟨0, 0⟩

def isUnlimited (r : Retention) : Bool := r.keepMax = 0 && r.keepDays = 0

def ageCutoff (r : Retention) (now : Int) : Option Int :=
  if 0 < r.keepDays then some (now - r.keepDays * 86400) else none

end Retention

/-- Nothing that was completed before is taken in. -/
def ingestFloor (db : Index) (r : Retention) (now : Int) : Int :=
  max (db.retentionFloor.getD 0) ((r.ageCutoff now).getD 0)

section Replay

variable (c : LogCodec)

/-! ### The full replay -/

def splitLines (bytes : List UInt8) : List (List UInt8) :=
  let lines := bytes.splitOn lf
  if lines.getLast? = some [] then lines.dropLast else lines

def tombstoneOf (line : List UInt8) : Option Key := if c.probe line then c.tombstone line else none

/-- The tombstones first, and then every entry. -/
def fullReplay (db : Index) (files : List (Text × LogFile)) (floor : Int) : Index :=
  let lines := files.flatMap fun f => splitLines f.2.bytes
  let tombstones := lines.filterMap (tombstoneOf c)
  let entries := (lines.filterMap c.entry).filter fun e =>
    floor ≤ e.completedAtUnix && e.key ∉ tombstones
  entries.foldl Index.replayEntry (tombstones.foldl Index.replayTombstone db)

/-! ### The incremental replay -/

/-- An entry and the offset of its first line. -/
abbrev Contribution := Nat × HistoryEntry

/-- Contributions are merged like entries. -/
abbrev contributions : Merging Key Contribution Index := merging.located Nat

structure FileState where
  fingerprint : Fingerprint
  offset : Nat
  anchor : List UInt8
  entries : List Contribution

def readAnchor (bytes : List UInt8) (offset : Nat) : List UInt8 :=
  let start := offset - 128
  (bytes.drop start).take (offset - start)

def completeLines (bytes : List UInt8) : List (List UInt8) := (bytes.splitOn lf).dropLast

/-- Lines with the offsets they begin at. -/
def numbered : Nat → List (List UInt8) → List (Nat × List UInt8)
  | _, [] => []
  | at', line :: lines => (at', line) :: numbered (at' + line.length + 1) lines

structure Scan where
  tombstones : List Key
  affected : List Key
  entries : List Contribution

def scanLine (floor : Int) (before : List Contribution) (st : Scan) (line : Nat × List UInt8) :
    Scan :=
  if c.probe line.2 then
    match c.tombstone line.2 with
    | some k => { st with tombstones := st.tombstones ++ [k] }
    | none => st
  else match c.entry line.2 with
    | some e =>
      if floor ≤ e.completedAtUnix then { st with
        affected := st.affected ++ [e.key]
        entries := contributions.insertInto before st.entries (line.1, e) }
      else st
    | none => st

/-- What was read of a file. -/
structure Delta where
  path : Text
  fingerprint : Fingerprint
  offset : Nat
  anchor : List UInt8
  reset : Bool
  scan : Scan

/-- Two looks at one file. -/
def sameFile (a b : Fingerprint) : Bool := a.ino = b.ino

/-- The file was not only appended to: it is another one, or shorter, or it has the
length that it had, or what was before the end is no longer there. -/
def rewritten (o : FileState) (f : Text × LogFile) : Bool :=
  !sameFile o.fingerprint (fingerprint f) || f.2.bytes.length < o.fingerprint.len ||
    f.2.bytes.length = o.fingerprint.len || readAnchor f.2.bytes o.offset ≠ o.anchor

def readFrom (floor : Int) (reset : Bool) (start : Nat) (before : List Contribution)
    (f : Text × LogFile) : Delta :=
  let lines := completeLines (f.2.bytes.drop start)
  let committed := start + (lines.map fun l => l.length + 1).sum
  { path := f.1
    fingerprint := fingerprint f
    offset := committed
    anchor := readAnchor f.2.bytes committed
    reset := reset
    scan := (numbered start lines).foldl (scanLine c floor before) ⟨[], [], []⟩ }

/-- Read what is new in a file; nothing, if it looks the same. -/
def scanFile (full : Bool) (floor : Int) (old : Option FileState) (f : Text × LogFile) :
    Option Delta :=
  match old with
  | none => some (readFrom c floor true 0 [] f)
  | some o =>
    if !full && o.fingerprint = fingerprint f then none
    else if full || rewritten o f then some (readFrom c floor true 0 [] f)
    else some (readFrom c floor false o.offset o.entries f)

/-- The state of a file after what was read of it is taken over. -/
def FileState.next (old : Option FileState) : Option Delta → Option FileState
  | none => old
  | some d => some
    { fingerprint := d.fingerprint
      offset := d.offset
      anchor := d.anchor
      entries := if d.reset then d.scan.entries
        else contributions.extend ((old.map (·.entries)).getD []) d.scan.entries }

/-- What a file says of a key: what was read now, or else what was read before. -/
def contribution (old : Option FileState) (delta : Option Delta) (k : Key) : Option Contribution :=
  (delta.bind fun d => contributions.lookup k d.scan.entries).or
    (if delta.any (·.reset) then none else old.bind fun o => contributions.lookup k o.entries)

structure HistorySync where
  db : Index
  /-- What was read of the files, by path. -/
  files : List (Text × FileState)
  initialized : Bool
  fingerprints : List Fingerprint
  /-- A local change has not been completed. -/
  dirty : Bool

def HistorySync.file (s : HistorySync) (path : Text) : Option FileState :=
  (s.files.find? fun f => f.1 = path).map (·.2)

/-- A place in the logs. -/
abbrev Place := Text ×ₗ Nat

def place (path : Text) (x : Contribution) : Place × HistoryEntry := (toLex (path, x.1), x.2)

def mergedValue (s : HistorySync) (full : Bool) (floor : Int) (files : List (Text × LogFile))
    (k : Key) : Option (Place × HistoryEntry) :=
  (merging.located Place).summary (files.filterMap fun f =>
    (contribution (s.file f.1) (scanFile c full floor (s.file f.1) f) k).map (place f.1))

/-- The keys that have to be merged anew because of a file. -/
def touched (old : Option FileState) (d : Delta) : List Key :=
  d.scan.affected ++ if d.reset then (old.map (·.entries.map (·.2.key))).getD [] else []

def readDeltas (s : HistorySync) (full : Bool) (floor : Int) (files : List (Text × LogFile)) :
    List Delta :=
  files.filterMap fun f => scanFile c full floor (s.file f.1) f

/-- The keys that have to be merged anew: those of files that are gone, and those that
are touched. -/
def affected (s : HistorySync) (full : Bool) (floor : Int) (files : List (Text × LogFile)) :
    List Key :=
  ((s.files.filter fun f => f.1 ∉ files.map (·.1)).flatMap fun f => f.2.entries.map (·.2.key)) ++
    (readDeltas c s full floor files).flatMap fun d => touched (s.file d.path) d

/-- Read the files and bring the index up to date. -/
def reconcile (s : HistorySync) (full : Bool) (files : List (Text × LogFile)) (floor : Int) :
    HistorySync :=
  let tombstones := (readDeltas c s full floor files).flatMap (·.scan.tombstones)
  let keys := (affected c s full floor files).filter fun k => floor ≤ k.2 && k ∉ tombstones
  let merged := (keys.dedup.filterMap (mergedValue c s full floor files)).insertionSort
    fun a b => a.1 ≤ b.1
  { db := (merged.map (·.2)).foldl Index.replayEntry (tombstones.foldl Index.replayTombstone s.db)
    files := files.filterMap fun f =>
      (FileState.next (s.file f.1) (scanFile c full floor (s.file f.1) f)).map (f.1, ·)
    initialized := true
    fingerprints := files.map fingerprint
    dirty := false }

/-- A pass.  It is full at first, after a local change that failed, and from time to
time; otherwise logs that look the same are not read. -/
def replayLogs (s : HistorySync) (r : Retention) (dir : LogDir) (quiet elapsed : Bool)
    (now : Int) : HistorySync :=
  let files := logPaths dir
  let full := !quiet || !s.initialized || s.dirty || elapsed
  if !full && s.fingerprints = files.map fingerprint then s
  else reconcile c s full files (ingestFloor s.db r now)

/-- A pass that replays everything, unless the logs look the same. -/
def fullReplayLogs (s : HistorySync) (r : Retention) (dir : LogDir) (quiet elapsed : Bool)
    (now : Int) : HistorySync :=
  let files := logPaths dir
  if quiet && !s.dirty && s.fingerprints = files.map fingerprint && s.initialized && !elapsed then s
  else { s with
    db := fullReplay c s.db files (ingestFloor s.db r now)
    initialized := true
    fingerprints := files.map fingerprint
    dirty := false }

end Replay

end Nzbd.History
