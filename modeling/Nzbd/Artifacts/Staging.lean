import Nzbd.Artifacts.Rows

/-!
# Staging a recovery

A call that stages a recovery holds the lock of the inventory three times: as it reserves the
artifact, as it publishes the copy and as it ends.  In between it makes its scratch directory and
copies, with a copy of the row of its own, while others resume, cancel, claim and acknowledge.
What has the lock is one step here, and so is each write of the copying in between.

The files themselves are not here: what the file system has answered comes with each step.
-/

namespace Nzbd.Artifacts

/-- A scratch directory that has been come across, with identifiers that have been drawn. -/
structure Stray where
  id : Text
  generation : Text
  seen : Seen

/-- What the file system answers as a publication is resumed: whether what is there is what the
row speaks of, has been put in its place and been registered, and whether the scratch directory is
still there. -/
structure Answer where
  publication : Except Error Seen
  scratch : Except Error (Option Stray)

def stagingCancelled : Error := .conflict (text "staging cancelled")

def copyInterrupted : Error := .conflict (text
  "copy interrupted before its complete manifest was durable; inspect retained staging")

def Recovery.paths (r : Recovery) : List OsPath := r.request.2.2.1

/-- The scratch directory, below the directory for all of them. -/
def Recovery.scratch (r : Recovery) : OsPath × OsPath :=
  let staging := r.published.dropLast.dropLast ++ [(text ".staging").map (UInt8.ofNat ·.toNat)]
  (staging, staging ++ [r.id.map (UInt8.ofNat ·.toNat)])

namespace Inventory

variable (inv : Inventory)

/-- All transactions. -/
def perform (txs : List Tx) : Inventory := commit txs.length txs inv

/-- Has somebody asked for it to be cancelled? -/
def cancelling (id : Text) : Bool := (inv.recovery id).any (·.state = .cancelPending)

/-! ### The sections of others -/

/-- The scratch directory is left for a review; `false` : that has failed. -/
def discoverScratch (r : Recovery) (scratch : Except Error (Option Stray)) (now : Int) :
    Inventory × Bool :=
  match scratch with
  | .error _ => (inv, false)
  | .ok none => (inv, true)
  | .ok (some f) =>
    (inv.perform (inv.discover f.id f.generation r.scratch.1 r.scratch.2 false (some f.seen) now),
      true)

/-- Only a row that is being published may be published here. -/
def resumable (r : Recovery) (w : Answer) : Except Error Seen :=
  if r.state = .publishing then w.publication else .error copyInterrupted

def resumePublication (r : Recovery) (w : Answer) (now : Int) : Inventory × Bool :=
  if r.state = .cancelPending ∧ r.consumer = none then
    match inv.artifact r.artifact with
    | none => (inv, false)
    | some a =>
      (inv.perform
        [[.artifact { a with
            hold := some (text "review: cancelled recovery")
            revision := a.revision + 1 }],
          [.recovery { r with state := .cancelled }]]).discoverScratch r w.scratch now
  else if r.state ≠ .staging ∧ r.state ≠ .publishing then (inv, true)
  else
    match resumable r w with
    | .ok seen =>
      ((inv.perform (inv.registerPublication r seen now)).perform
        [[.recovery { r with state := .published, error := none }]], true)
    | .error e =>
      let found := inv.discoverScratch r w.scratch now
      if found.2 then
        (found.1.perform [[.recovery { r with state := .failed, error := some e }]], true)
      else found

def pending : List Recovery :=
  (inv.recoveries.filter fun r => r.state = .staging || r.state = .publishing ||
    r.state = .cancelPending && r.consumer.isNone).take 10

/-- One after the other, up to one that fails. -/
def resumeAll (answers : Text → Answer) (now : Int) : List Recovery → Inventory → Inventory
  | [], inv => inv
  | r :: rs, inv =>
    let next := inv.resumePublication r (answers r.id) now
    if next.2 then resumeAll answers now rs next.1 else next.1

def reconcileRecoveries (answers : Text → Answer) (now : Int) : Inventory :=
  resumeAll answers now inv.pending inv

end Inventory

/-! ### The call -/

inductive Phase
  /-- The artifact is held, and nothing has been made. -/
  | reserved
  | copying
  /-- The copy is in its place, or has failed. -/
  | ended (error : Option Error)
  deriving DecidableEq

/-- A call between its sections. -/
structure Staging where
  r : Recovery
  /-- What is still to be copied. -/
  selected : List FileEntry
  phase : Phase

structure Handover where
  inventory : Inventory
  /-- The calls that are under way, by their recoveries. -/
  running : Text → Option Staging

inductive HandoverStep
  /-- The first section; `apart` : the place overlaps neither source nor state. -/
  | stage (key : Text) (revision : Nat) (requestId : Text) (paths : List OsPath) (root : OsPath)
      (apart : Bool) (id generation : Text) (seen : Option (List FileEntry)) (w : Answer) (now : Int)
  | makeScratch (id : Text)
  | copy (id sha256 : Text)
  | fail (id : Text) (error : Error)
  | publish (id digest : Text) (placed : Except Error Seen) (now : Int)
  | finish (id : Text) (scratch : Except Error (Option Stray)) (now : Int)
  /-- The process has ended, or the last section of the call has failed. -/
  | stop (id : Text)
  | reconcile (answers : Text → Answer) (now : Int)
  | claim (key consumer importId manifest : Text)
  | receipt (key consumer : Text) (receipt : Receipt) (now : Int)
  | cancel (key : Text) (consumer : Option Text) (ack : Bool)

namespace Handover

def call (s : Handover) (id : Text) (c : Option Staging) : Handover :=
  { s with running := Function.update s.running id c }

/-- The entries that have been asked for. -/
def chosen (a : Artifact) (paths : List OsPath) : List FileEntry :=
  paths.filterMap fun p => a.files.find? fun f => f.path = p && !f.identity.directory

/-- A request that is known is resumed, and a new one begun. -/
def stage (s : Handover) (key : Text) (revision : Nat) (requestId : Text) (paths : List OsPath)
    (root : OsPath) (apart : Bool) (id generation : Text) (seen : Option (List FileEntry))
    (w : Answer) (now : Int) : Handover :=
  if paths = [] ∨ 1000 < paths.length ∨ requestId = [] ∨ 128 < requestId.length then s
  else
    match s.inventory.recoveries.find? (·.requestId = requestId) with
    | some existing =>
      if existing.request = (key, revision, paths, root) then
        { s with inventory := (s.inventory.resumePublication existing w now).1 }
      else s
    | none =>
      if apart = false then s
      else
        let txs := s.inventory.stageRecovery key revision requestId paths root id generation seen
        let inv := s.inventory.perform txs
        match inv.recovery id, s.inventory.artifact key with
        | some r, some a =>
          if txs = [] then s
          else
            ({ s with inventory := inv } : Handover).call id
              (some ⟨r, chosen a paths, .reserved⟩)
        | _, _ => s

section Call

-- The digest of a path.
variable (pathId : OsPath → Text) (s : Handover)

/-- The next file is there and is the same as its source. -/
def copyNext (id sha256 : Text) (c : Staging) (f : FileEntry) (rest : List FileEntry) : Staging :=
  if s.inventory.cancelling id then { c with phase := .ended (some stagingCancelled) }
  else
    { c with
      r := { c.r with
        files := c.r.files ++ [⟨pathId f.path, f.path, f.identity.bytes, sha256⟩] }
      selected := rest }

def publish (id digest : Text) (placed : Except Error Seen) (now : Int) (c : Staging) : Handover :=
  let r := { c.r with manifestDigest := digest }
  if s.inventory.cancelling id then
    s.call id (some { c with r := r, phase := .ended (some stagingCancelled) })
  else
    let r := { r with state := .publishing }
    let inv := s.inventory.perform [[.recovery r]]
    match placed with
    | .error e =>
      ({ s with inventory := inv } : Handover).call id
        (some { c with r := r, phase := .ended (some e) })
    | .ok seen =>
      ({ s with inventory := inv.perform (inv.registerPublication r seen now) } : Handover).call id
        (some { c with r := r, phase := .ended none })

/-- The row of a call that has ended. -/
def outcome (r : Recovery) (error : Option Error) (cancelled : Bool) : Recovery :=
  { r with
    state := if cancelled then .cancelled else if error = none then .published else .failed
    error := if error = none then r.error else error }

def finish (id : Text) (scratch : Except Error (Option Stray)) (now : Int) (r : Recovery)
    (error : Option Error) : Handover :=
  let found := if error = none then (s.inventory, true)
    else s.inventory.discoverScratch r scratch now
  let cancelled := s.inventory.cancelling id
  if found.2 = false ∨ cancelled ∧ found.1.artifact r.artifact = none then
    ({ s with inventory := found.1 } : Handover).call id none
  else
    let inv := if cancelled then found.1.perform (found.1.holdForReview r) else found.1
    ({ s with inventory := inv.perform [[.recovery (outcome r error cancelled)]] } : Handover).call
      id none

def step : HandoverStep → Option Handover
  | .stage key revision requestId paths root apart id generation seen w now =>
    some (s.stage key revision requestId paths root apart id generation seen w now)
  | .makeScratch id => (s.running id).bind fun c =>
    if c.phase = .reserved then
      some (({ s with inventory := s.inventory.perform [[.recovery c.r]] } : Handover).call id
        (some { c with phase := .copying }))
    else none
  | .copy id sha256 => (s.running id).bind fun c =>
    match c.phase, c.selected with
    | .copying, f :: rest => some (s.call id (some (s.copyNext pathId id sha256 c f rest)))
    | _, _ => none
  | .fail id error => (s.running id).bind fun c =>
    match c.phase with
    | .ended _ => none
    | _ => some (s.call id (some { c with phase := .ended (some error) }))
  | .publish id digest placed now => (s.running id).bind fun c =>
    if c.phase = .copying ∧ c.selected = [] then some (s.publish id digest placed now c) else none
  | .finish id scratch now => (s.running id).bind fun c =>
    match c.phase with
    | .ended error => some (s.finish id scratch now c.r error)
    | _ => none
  | .stop id => (s.running id).map fun _ => s.call id none
  | .reconcile answers now =>
    some { s with inventory := s.inventory.reconcileRecoveries answers now }
  | .claim key consumer importId manifest =>
    some { s with
      inventory := s.inventory.perform (s.inventory.claimRecovery key consumer importId manifest) }
  | .receipt key consumer receipt now =>
    some { s with
      inventory := s.inventory.perform (s.inventory.recoveryReceipt key consumer receipt now) }
  | .cancel key consumer ack =>
    some { s with inventory := s.inventory.perform (s.inventory.cancelRecovery key consumer ack) }

end Call

end Handover

end Nzbd.Artifacts
