import Nzbd.Engine.Naming
import Nzbd.Lib.Inodes
import Nzbd.Lib.Table

/-!
# The payload inventory

The inventory keeps a row for every directory the daemon has allocated or come across: an
*artifact*.  The row says where the directory is, which object it was and which files were
in it, whether the daemon owns it, and whether it is kept or held; a file outside the
payload, the sidecar, says the same of an artifact that is owned.

What is to be done to an artifact is an *operation*, and an operation outlives the process.
A *recovery* is a copy of some files of an artifact for a consumer to import.

Paths are absolute and without dot components; nothing else is let into the inventory.
-/

namespace Nzbd.Artifacts

abbrev OsName := List UInt8

abbrev OsPath := Inodes.Path OsName

/-- What a file system says of an object. -/
structure Stat where
  device : Nat
  inode : Nat
  bytes : Nat
  modified : Text

abbrev Disk := Inodes.Disk OsName Stat

structure Identity where
  device : Nat
  inode : Nat
  bytes : Nat
  modified : Text
  directory : Bool
  deriving DecidableEq

namespace Identity

def sameObject (i j : Identity) : Bool :=
  i.device = j.device && i.inode = j.inode && i.directory = j.directory

def ofObject (o : Inodes.Object Stat) : Identity :=
  ⟨o.stat.device, o.stat.inode, o.stat.bytes, o.stat.modified, o.kind = .dir⟩

@[simp] theorem directory_ofObject (o : Inodes.Object Stat) :
    (ofObject o).directory = decide (o.kind = .dir) := rfl

end Identity

/-- An entry of a manifest; the path is that below the payload directory. -/
structure FileEntry where
  path : OsPath
  identity : Identity
  deriving DecidableEq

inductive ArtifactState
  | allocating
  | active
  | activeUnverified
  | transitioning
  | retiring
  | retained
  | completed
  | parkedFailed
  | unknown
  | deleting
  | deleteFailed
  | deleted
  | sourceGone
  | recoveryStaged
  | recoveryImported
  deriving DecidableEq

inductive Error
  | sql
  | io (errno : Inodes.Errno)
  | json
  | conflict (text : Text)
  | notFound
  deriving DecidableEq

def Error.isConflict : Error → Bool
  | .conflict _ => true
  | _ => false

structure Artifact where
  id : Text
  generation : Text
  revision : Nat
  job : Option JobId
  path : OsPath
  root : OsPath
  rootIdentity : Identity
  identity : Option Identity
  state : ArtifactState
  owned : Bool
  keep : Bool
  hold : Option Text
  updatedAt : Int
  retentionSeconds : Nat
  deadline : Option Int
  eligibleSeconds : Nat
  files : List FileEntry
  error : Option Error

namespace Artifact

def terminal (a : Artifact) : Bool := a.state = .deleted || a.state = .sourceGone

/-- It expires of itself. -/
def eligible (a : Artifact) : Bool :=
  a.owned && (a.state = .parkedFailed || a.state = .recoveryImported) && !a.keep &&
    a.hold.isNone && 0 < a.retentionSeconds

end Artifact

/-- Move the payload of an artifact to another directory. -/
structure Relocation where
  source : Artifact
  destination : OsPath
  destinationRoot : Identity
  /-- The copy, where the files cannot be moved. -/
  scratch : Option Artifact

inductive OperationKind
  | delete
  | relocate
  | prune
  | inspect
  | scan
  | stage
  | retentionPreview
  deriving DecidableEq

inductive OperationState
  | queued
  | running
  | retry
  | succeeded
  | cancelled
  | review
  | failed
  | preview
  deriving DecidableEq

inductive Request
  | delete (artifact : Text) (revision undoSeconds : Nat) (automatic : Bool)
  | relocate (movement : Relocation)
  /-- A task, in its own words. -/
  | task (json : Text)

structure Operation where
  id : Text
  artifact : Text
  kind : OperationKind
  state : OperationState
  request : Request
  notBefore : Int
  attempts : Nat
  nextRetry : Int
  error : Option Error

structure RecoveryFile where
  id : Text
  path : OsPath
  bytes : Nat
  sha256 : Text

inductive FileResult
  | imported
  | alreadyPresent
  | failed
  | skipped

structure ReceiptFile where
  id : Text
  bytes : Nat
  sha256 : Text
  result : FileResult

structure Receipt where
  importId : Text
  manifestDigest : Text
  files : List ReceiptFile

inductive RecoveryState
  | staging
  | publishing
  | published
  | claimed
  | imported
  | partly
  | cancelPending
  | cancelled
  | failed
  | review
  deriving DecidableEq

structure Recovery where
  id : Text
  artifact : Text
  generation : Text
  requestId : Text
  /-- The artifact, its revision, the files and the place that were asked for. -/
  request : Text × Nat × List OsPath × OsPath
  state : RecoveryState
  manifestDigest : Text
  files : List RecoveryFile
  published : OsPath
  consumer : Option Text
  importId : Option Text
  receipt : Option Receipt
  error : Option Error

/-- What a sidecar says. -/
structure Sidecar where
  installation : Text
  artifact : Text
  generation : Text
  path : OsPath
  identity : Option Identity

structure Settings where
  enabled : Bool
  failedRetentionDays : Nat

structure Inventory where
  installation : Text
  settings : Settings
  protectedRoots : List OsPath
  artifacts : List Artifact
  operations : List Operation
  recoveries : List Recovery
  sidecars : List Sidecar

namespace Inventory

def artifact (inv : Inventory) (key : Text) : Option Artifact :=
  Table.get Artifact.id inv.artifacts key

def operation (inv : Inventory) (key : Text) : Option Operation :=
  Table.get Operation.id inv.operations key

def recovery (inv : Inventory) (key : Text) : Option Recovery :=
  Table.get Recovery.id inv.recoveries key

def saveArtifact (inv : Inventory) (a : Artifact) : Inventory :=
  { inv with artifacts := Table.put Artifact.id inv.artifacts a }

def saveOperation (inv : Inventory) (op : Operation) : Inventory :=
  { inv with operations := Table.put Operation.id inv.operations op }

def saveRecovery (inv : Inventory) (r : Recovery) : Inventory :=
  { inv with recoveries := Table.put Recovery.id inv.recoveries r }

section Tables

variable (inv : Inventory)

@[simp] theorem operation_saveArtifact (a : Artifact) (key : Text) :
    (inv.saveArtifact a).operation key = inv.operation key := rfl

@[simp] theorem artifact_saveOperation (op : Operation) (key : Text) :
    (inv.saveOperation op).artifact key = inv.artifact key := rfl

@[simp] theorem operation_saveOperation_self (op : Operation) :
    (inv.saveOperation op).operation op.id = some op := Table.get_put_self _ _

theorem operation_saveOperation_of_ne {op : Operation} {key : Text} (h : op.id ≠ key) :
    (inv.saveOperation op).operation key = inv.operation key := Table.get_put_of_ne h

@[simp] theorem artifact_saveArtifact_self (a : Artifact) :
    (inv.saveArtifact a).artifact a.id = some a := Table.get_put_self _ _

theorem artifact_saveArtifact_of_ne {a : Artifact} {key : Text} (h : a.id ≠ key) :
    (inv.saveArtifact a).artifact key = inv.artifact key := Table.get_put_of_ne h

end Tables

end Inventory

end Nzbd.Artifacts
