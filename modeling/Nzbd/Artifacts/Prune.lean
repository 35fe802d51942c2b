import Nzbd.Artifacts.Delete
import Nzbd.Artifacts.Rows

/-!
# Taking away what has been imported

Once a consumer has confirmed file by file what it has imported, these files may be taken away at
their source.  Every one of them is looked at before the first goes, directories that are empty then
go too, and so does the payload directory when nothing is left.
-/

namespace Nzbd.Artifacts

open Inodes

/-- What the clock, the system calls and the database answer: while the files are looked at, while
they are taken away, and afterwards. -/
structure PruneAnswers where
  before : Answers
  during : Answers
  after : Answers
  /-- The digest of a file that is open. -/
  digest : OsPath → Except Error Text

structure Pruning where
  inventory : Inventory
  disk : Disk
  result : Except Error Unit

/-- Whether there is something at a path; a link is followed. -/
def tryExists (w : Answers) (disk : Disk) (p : OsPath) : Except Error Bool :=
  match if (disk.object p).any (·.kind = .link) then w.through p else lstat w disk p with
  | none => .ok true
  | some .notFound => .ok false
  | some e => .error (.io e)

/-- Open below a directory. -/
def openRelative (w : Answers) (disk : Disk) (dir p : OsPath) : Except Error (Object Stat) := do
  w.check (.child p)
  match p.getLast? with
  | none =>
    match disk.object dir with
    | none => .error (.io .notFound)
    | some o => .ok o
  | some n =>
    let parent ← io (disk.openDirs dir p.dropLast)
    io (disk.openAt parent n false)

/-- The rows a prune is about; there may be nothing to do. -/
def prunable (inv : Inventory) (key : Text) : Except Error (Option (Recovery × Receipt × Artifact)) :=
  match inv.recovery key with
  | none => .error .notFound
  | some r =>
    if r.state ≠ .imported ∧ r.state ≠ .partly then
      .error (.conflict (text "a final per-file receipt is required"))
    else
      match r.receipt with
      | none => .error (.conflict (text "no final receipt"))
      | some receipt =>
        match inv.artifact r.artifact with
        | none => .error .notFound
        | some a =>
          if a.terminal then .ok none
          else if a.owned = false ∨ a.keep then
            .error (.conflict (text "source is unowned or kept"))
          else if a.hold.any fun h =>
              h ≠ text "recovery:" ++ r.id ∧ h ≠ text "review: unselected source files remain" ∧
              h ≠ text "review: unselected source files remain after receipt cleanup" then
            .error (.conflict (text "source has an unrelated hold"))
          else .ok (some (r, receipt, a))

/-- The entry of the source that an imported file has been copied from, if it is still there. -/
def selectRemoval (w : PruneAnswers) (disk : Disk) (dir : OsPath) (r : Recovery) (a : Artifact)
    (imported : ReceiptFile) : Except Error (Option FileEntry) :=
  match r.files.find? (·.id = imported.id) with
  | none => .error (.conflict (text "receipt file missing from manifest"))
  | some selected =>
    match a.files.find? fun f => f.path = selected.path && !f.identity.directory with
    | none => .ok none
    | some entry =>
      match openRelative w.before disk dir entry.path with
      | .error (.io .notFound) => .ok none
      | .error e => .error e
      | .ok file => do
        let sha256 ← if Identity.ofObject file = entry.identity then w.digest entry.path
          else .error (.conflict (text "source file changed after recovery staging"))
        require (sha256 = selected.sha256)
          (.conflict (text "source file changed after recovery staging"))
        return some entry

def selectRemovals (w : PruneAnswers) (disk : Disk) (dir : OsPath) (r : Recovery) (a : Artifact) :
    List ReceiptFile → Except Error (List FileEntry)
  | [] => .ok []
  | imported :: files => do
    let entry ← selectRemoval w disk dir r a imported
    let rest ← selectRemovals w disk dir r a files
    return entry.toList ++ rest

/-- Directories that are empty go, the deepest first. -/
def removeEmpty (w : Answers) (dir : OsPath) : Disk → List FileEntry → Disk × Option Error
  | disk, [] => (disk, none)
  | disk, f :: fs =>
    match openRelative w disk dir f.path with
    | .error (.io .notFound) => removeEmpty w dir disk fs
    | .error e => (disk, some e)
    | .ok _ =>
      if w.fault (.list f.path) then (disk, some (.io .other))
      else if (disk.names (dir ++ f.path)).isEmpty then
        match removeEntry w dir disk f with
        | (disk', none) => removeEmpty w dir disk' fs
        | (disk', some e) => (disk', some e)
      else removeEmpty w dir disk fs

/-- Nothing is left, and the payload directory goes. -/
def removeSource (w : Answers) (inv : Inventory) (disk : Disk) (a : Artifact) : Disk × Option Error :=
  match (do
    let root ← verifyRoot w inv disk a
    w.check .reopen
    let current ← io (disk.openAt root (a.path.getLast?.getD []) true)
    require (a.identity.any (Identity.sameObject · (.ofObject current)))
      (.conflict (text "source directory changed"))
    w.check .rmdir
    io (disk.unlinkAt root (a.path.getLast?.getD []) true)) with
  | .error e => (disk, some e)
  | .ok disk' => (disk', if w.unsynced [] then some (.io .other) else none)

/-- What is left, once the files have been taken away; nothing at all if there is no directory. -/
def removeImported (w : PruneAnswers) (inv : Inventory) (disk : Disk) (r : Recovery)
    (receipt : Receipt) (a : Artifact) : Disk × Except Error (Option (List FileEntry)) :=
  match (do
    let _ ← verifyRoot w.before inv disk a
    if ← tryExists w.before disk a.path then
      let dir ← verify w.before inv disk a
      let removals ← selectRemovals w disk dir r a (receipt.files.filter (·.result.done))
      return some (dir, removals)
    else return none) with
  | .error e => (disk, .error e)
  | .ok none => (disk, .ok none)
  | .ok (some (dir, removals)) =>
    match removeEntries w.during dir disk removals with
    | (disk, some e) => (disk, .error e)
    | (disk, none) =>
      match removeEmpty w.during dir disk (byDepth (a.files.filter (·.identity.directory))) with
      | (disk, some e) => (disk, .error e)
      | (disk, none) =>
        match manifest w.after disk dir 100000 with
        | .error e => (disk, .error e)
        | .ok [] =>
          match removeSource w.after inv disk a with
          | (disk, some e) => (disk, .error e)
          | (disk, none) => (disk, .ok (some []))
        | .ok remaining => (disk, .ok (some remaining))

def pruneReceiptedSource (w : PruneAnswers) (inv : Inventory) (disk : Disk) (key : Text) : Pruning :=
  match prunable inv key with
  | .error e => ⟨inv, disk, .error e⟩
  | .ok none => ⟨inv, disk, .ok ()⟩
  | .ok (some (r, receipt, a)) =>
    match removeImported w inv disk r receipt a with
    | (disk, .error e) => ⟨inv, disk, .error e⟩
    | (disk, .ok remaining) =>
      if w.after.committed then
        ⟨commit 1 (inv.pruneSource key remaining w.after.finished) inv, disk, .ok ()⟩
      else ⟨inv, disk, .error .sql⟩

end Nzbd.Artifacts
