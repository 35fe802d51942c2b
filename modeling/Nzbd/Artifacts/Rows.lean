import Nzbd.Artifacts.Inventory

/-!
# What the inventory writes

Everything the inventory does but the deletion itself: allocation, finalization,
inspection and adoption, retention, requests to delete, relocation, recovery, and what is
put right at a start.  Each function looks at the rows, and at what the file system has
answered, and gives the transactions it commits, in their order; a function that refuses
gives none.  `commit n` carries the first `n` of them out, as many as there are before the
process ends.
-/

namespace Nzbd.Artifacts

inductive Write
  | artifact (a : Artifact)
  | operation (op : Operation)
  | recovery (r : Recovery)
  | sidecar (s : Sidecar)
  | settings (s : Settings)
  | protectedRoots (roots : List OsPath)

/-- The changes of one transaction. -/
abbrev Tx := List Write

/-- A cancellation is not taken back by the copy that is under way. -/
def keepCancelled (inv : Inventory) (r : Recovery) : Recovery :=
  if (inv.recovery r.id).any (·.state = .cancelPending) ∧
      (r.state = .staging ∨ r.state = .publishing) then { r with state := .cancelPending }
  else r

def Write.apply (inv : Inventory) : Write → Inventory
  | .artifact a => inv.saveArtifact a
  | .operation op => inv.saveOperation op
  | .recovery r => inv.saveRecovery (keepCancelled inv r)
  | .sidecar s =>
    { inv with
      sidecars := s :: inv.sidecars.filter fun t =>
        ¬(t.artifact = s.artifact ∧ t.generation = s.generation) }
  | .settings s => { inv with settings := s }
  | .protectedRoots roots => { inv with protectedRoots := roots }

def commit (n : Nat) (txs : List Tx) (inv : Inventory) : Inventory :=
  (txs.take n).flatten.foldl Write.apply inv

/-- What verification has seen of a payload directory. -/
structure Seen where
  rootIdentity : Identity
  identity : Identity
  files : List FileEntry

def review : Option Text := some (text "review")

def day : Nat := 86400

def Artifact.sidecar (a : Artifact) (inv : Inventory) : Sidecar :=
  ⟨inv.installation, a.id, a.generation, a.path, a.identity⟩

def OperationKind.isTask : OperationKind → Bool
  | .inspect => true
  | .scan => true
  | .stage => true
  | .prune => true
  | _ => false

def FileResult.done : FileResult → Bool
  | .imported => true
  | .alreadyPresent => true
  | _ => false

namespace Inventory

variable (inv : Inventory)

/-- The row of a job that was changed last. -/
def forJob (job : JobId) : Option Artifact :=
  (inv.artifacts.filter (·.job = some job)).foldl (fun best a =>
    match best with
    | none => some a
    | some b => if b.updatedAt < a.updatedAt then some a else some b) none

/-! ### Directories that come -/

def newRow (id generation : Text) (job : Option JobId) (root path : OsPath) (rootIdentity : Identity)
    (identity : Option Identity) (state : ArtifactState) (owned keep : Bool) (hold : Option Text)
    (now : Int) : Artifact :=
  { id, generation, revision := 1, job, path, root, rootIdentity, identity, state, owned, keep, hold,
    updatedAt := now, retentionSeconds := 0, deadline := none, eligibleSeconds := 0, files := [],
    error := none }

/-- The row is there before the directory; `made` : the directory, if it could be made. -/
def allocate (id generation : Text) (job : JobId) (root path : OsPath) (rootIdentity : Identity)
    (taken : Bool) (made : Option Identity) (now : Int) : List Tx :=
  if (inv.forJob job).isSome ∨ path = [] ∨ path.dropLast ≠ root ∨ taken then []
  else
    let a := newRow id generation (some job) root path rootIdentity none .allocating true false none now
    [.artifact a] :: match made with
      | none => []
      | some identity =>
        let a := { a with identity := some identity, state := .active }
        [[.sidecar (a.sidecar inv)], [.artifact a]]

/-- A directory nobody knows of gives no authority. -/
def discover (id generation : Text) (root path : OsPath) (active : Bool) (seen : Option Seen)
    (now : Int) : List Tx :=
  if path = [] ∨ path.dropLast ≠ root ∨
      inv.artifacts.any (fun a => a.path = path && !a.terminal) then []
  else
    match seen with
    | none => []
    | some seen =>
      [[.artifact (newRow id generation none root path seen.rootIdentity (some seen.identity)
        (if active then .activeUnverified else .unknown) false true review now)]]

/-- The row a job of an older version had is put aside. -/
def disown (job : JobId) (path : OsPath) (verified : Bool) : List Tx :=
  match inv.forJob job with
  | none => []
  | some a =>
    if a.path = path ∧ verified then []
    else
      [[.artifact { a with
        job := none
        state := if a.path = path then .sourceGone else .retained
        keep := true
        hold := some (text "review: previous external job generation")
        revision := a.revision + 1 }]]

def engage (job : JobId) (path : OsPath) : List Tx :=
  match inv.artifacts.find? fun a => a.path = path && !a.terminal with
  | none => []
  | some a => [[.artifact { a with job := some job, state := .active }]]

def prepareForget (job : JobId) (now : Int) : List Tx :=
  match inv.forJob job with
  | none => []
  | some a =>
    if a.state ≠ .active then []
    else
      [[.artifact { a with
        state := .retiring
        hold := some (text "waiting for writer stop")
        revision := a.revision + 1
        updatedAt := now }]]

/-- The writers have stopped. -/
def finish (job : JobId) (path root : OsPath) (state : ArtifactState) (seen : Option Seen)
    (now : Int) : List Tx :=
  match inv.forJob job, seen with
  | some a, some seen =>
    if (a.state = .deleting ∨ a.state = .deleteFailed) ∧ state = .retained ∧ a.path = path ∧
        a.root = root then []
    else if a.path = path ∧ a.state = state then []
    else if a.state ∉ [.active, .transitioning, .retiring, .retained] then []
    else if a.path ≠ path ∨ a.root ≠ root then []
    else
      let seconds := if state = .parkedFailed ∧ a.owned then inv.settings.failedRetentionDays * day
        else a.retentionSeconds
      let a := { a with
        rootIdentity := seen.rootIdentity
        identity := some seen.identity
        files := seen.files
        hold := if a.state = .retiring then (if a.owned then none else review) else a.hold
        state := state
        revision := a.revision + 1
        updatedAt := now
        retentionSeconds := seconds
        deadline := if state = .parkedFailed ∧ a.owned then some (now + seconds) else a.deadline
        eligibleSeconds := if state = .parkedFailed ∧ a.owned then 0 else a.eligibleSeconds }
      [[.sidecar (a.sidecar inv)], [.artifact a]]
  | _, _ => []

/-! ### Ownership, retention and holds -/

def inspect (key : Text) (seen : Option (List FileEntry)) (now : Int) : List Tx :=
  match inv.artifact key, seen with
  | some a, some files =>
    if a.state ∈ [.active, .activeUnverified, .transitioning, .retiring, .deleting] then []
    else
      let changed := a.owned && files ≠ a.files
      [[.artifact { a with
        owned := a.owned && !changed
        keep := a.keep || changed
        hold := if changed then some (text "review: files changed; adoption required") else a.hold
        files := files
        updatedAt := now
        revision := a.revision + 1 }]]
  | _, _ => []

def adopt (key : Text) (revision : Nat) (seen : Option (List FileEntry)) : List Tx :=
  match inv.artifact key with
  | none => []
  | some a =>
    if a.revision ≠ revision ∨ a.owned ∨
        a.state ∉ [.unknown, .retained, .parkedFailed, .completed] ∨ seen ≠ some a.files then []
    else
      let a := { a with
        owned := true
        keep := true
        hold := none
        state := .retained
        revision := a.revision + 1 }
      [[.sidecar (a.sidecar inv)], [.artifact a]]

/-- Keep takes back what has been asked for and has not begun. -/
def withdrawn (key : Text) : Tx :=
  (inv.operations.filter fun op => op.artifact = key && op.state = .queued).map fun op =>
    .operation { op with state := .cancelled }

/-- Is the row one whose retention may be set? -/
def retainable (key : Text) (revision : Nat) (seconds : Option Nat) : Option Artifact :=
  (inv.artifact key).filter fun a =>
    a.revision = revision && a.state ≠ .deleting && a.state ≠ .deleted &&
      seconds.all (· ≤ 315360000)

def retention (key : Text) (revision : Nat) (keep : Bool) (seconds : Option Nat) (now : Int) :
    List Tx :=
  match inv.retainable key revision seconds with
  | none => []
  | some a =>
    let seconds := seconds.getD a.retentionSeconds
    [(if keep then inv.withdrawn key else []) ++ [.artifact { a with
      keep := keep
      retentionSeconds := seconds
      eligibleSeconds := 0
      deadline := some (now + seconds)
      revision := a.revision + 1
      updatedAt := now }]]

def releaseReview (key : Text) (revision : Nat) (seen : Option (List FileEntry)) (now : Int) :
    List Tx :=
  match inv.artifact key with
  | none => []
  | some a =>
    if a.revision = revision ∧
        a.hold.any (fun h => text "review" <+: h || text "restored backup" <+: h) ∧
        seen = some a.files ∧
        inv.recoveries.all (fun r => r.artifact ≠ key ||
          r.state ∈ [.imported, .cancelled, .partly]) then
      [[.artifact { a with
        hold := none
        eligibleSeconds := 0
        deadline := some (now + a.retentionSeconds)
        revision := a.revision + 1 }]]
    else []

/-- One policy for all rows it was shown for. -/
def applyRetention (key : Text) (days : Nat) (rows : List (Text × Nat)) (now : Int) : List Tx :=
  match inv.operation key with
  | none => []
  | some op =>
    if op.kind = .retentionPreview ∧ op.state = .preview ∧ rows.all (fun (id, revision) =>
        (inv.artifact id).any fun a => a.revision = revision && !a.keep && a.hold.isNone &&
          a.owned && a.state = .parkedFailed) then
      [(rows.filterMap fun (id, _) => (inv.artifact id).map fun a => .artifact { a with
        retentionSeconds := days * day
        deadline := some (now + days * day)
        eligibleSeconds := 0
        revision := a.revision + 1
        updatedAt := now }) ++ [.operation { op with state := .succeeded }]]
    else []

def previewRetention (key : Text) (days : Nat) (rows : Text) : List Tx :=
  if 3650 < days then []
  else [[.operation ⟨key, text "policy", .retentionPreview, .preview, .task rows, 0, 0, 0, none⟩]]

/-! ### Requests to delete -/

def pendingDelete (key : Text) : Bool :=
  inv.operations.any fun op => op.artifact = key && op.kind = .delete &&
    op.state ∈ [.queued, .running, .retry]

def deleteOperation (id key : Text) (revision undoSeconds : Nat) (automatic : Bool) (now : Int) :
    Operation :=
  ⟨id, key, .delete, .queued, .delete key revision undoSeconds automatic, now + undoSeconds, 0, 0, none⟩

def requestDelete (key : Text) (revision : Nat) (requestId : Text) (undoSeconds : Nat)
    (automatic : Bool) (now : Int) : List Tx :=
  if requestId = [] ∨ 128 < requestId.length ∨ 60 < undoSeconds ∨
      (inv.operation requestId).isSome then []
  else
    match inv.artifact key with
    | none => []
    | some a =>
      if a.revision ≠ revision ∨ a.owned = false ∨ a.keep ∨ a.hold.isSome ∨
          a.state ∉ [.parkedFailed, .retained, .completed, .recoveryImported, .recoveryStaged] ∨
          inv.pendingDelete key then []
      else [[.operation (deleteOperation requestId key revision undoSeconds automatic now)]]

def cancelDelete (key : Text) : List Tx :=
  match inv.operation key with
  | none => []
  | some op =>
    if op.state = .queued ∧ (op.kind = .delete ∨ op.kind = .prune) then
      [[.operation { op with state := .cancelled }]]
    else []

/-- A row of a tick grows older. -/
def accrue (key : Text) (elapsed : Nat) : List Tx :=
  match inv.artifact key with
  | none => []
  | some a =>
    if inv.settings.enabled ∧ a.eligible then
      [[.artifact { a with eligibleSeconds := min (a.eligibleSeconds + elapsed) a.retentionSeconds }]]
    else []

/-- A row that is due asks for its own deletion. -/
def expire (key : Text) (now : Int) : List Tx :=
  match inv.artifact key with
  | none => []
  | some a =>
    if a.retentionSeconds ≤ a.eligibleSeconds ∧ a.deadline.any (· ≤ now) then
      inv.requestDelete key a.revision
        (text "retention-" ++ key ++ text "-" ++ Nat.toDigits 10 a.revision) 0 true now
    else []

/-! ### Relocation -/

def moveKey (a : Artifact) : Text :=
  text "move-" ++ a.id ++ text "-" ++ Nat.toDigits 10 a.revision

/-- The move is written down before anything is moved; `taken` : the destination. -/
def relocate (job : JobId) (destination : OsPath) (destinationRoot : Identity) (taken : Bool)
    (seen : Option Seen) : List Tx :=
  match inv.forJob job, seen with
  | some a, some seen =>
    if a.path = destination ∨ a.state ≠ .active ∨ a.hold.any (· ≠ text "review") ∨ taken then []
    else
      let source := { a with files := seen.files }
      [[.artifact { source with state := .transitioning, revision := a.revision + 1 },
        .operation ⟨moveKey a, a.id, .relocate, .running,
          .relocate ⟨source, destination, destinationRoot, none⟩, 0, 1, 0, none⟩]]
  | _, _ => []

/-- The movement of an operation that is under way. -/
def movement (key : Text) : Option (Operation × Relocation) :=
  match inv.operation key with
  | none => none
  | some op =>
    match op.kind, op.state, op.request with
    | .relocate, .running, .relocate m => some (op, m)
    | _, _, _ => none

/-- The files are copied, where they cannot be moved; `files` : once they are there. -/
def relocateScratch (key generation : Text) (identity : Identity) (files : List FileEntry) :
    List Tx :=
  match inv.movement key with
  | none => []
  | some (op, m) =>
    let root := m.destination.dropLast
    let scratch : Artifact :=
      { m.source with
        id := text "scratch-" ++ key
        revision := m.source.revision + 1
        job := none
        generation := generation
        path := root ++ [((text ".runner-" ++ key).map fun c => UInt8.ofNat c.toNat)]
        root := root
        rootIdentity := m.destinationRoot
        identity := some identity
        files := files
        state := .active
        owned := true
        keep := true
        hold := some (text "review: relocation staging") }
    [[.sidecar (scratch.sidecar inv)], [.artifact scratch],
      [.operation { op with request := .relocate { m with scratch := some scratch } }]]

def retireKey (key : Text) : Text := text "retire-" ++ key

/-- The row of the files that have been copied, at their old place. -/
def retired (key : Text) (m : Relocation) (keep : Bool) : Artifact :=
  { m.source with
    id := text "source-" ++ key
    job := none
    state := .retained
    hold := if m.source.owned then none else review
    keep := keep
    retentionSeconds := 0
    deadline := none }

/-- The old files may go. -/
def retirement (key : Text) (old : Artifact) (now : Int) : Tx :=
  if old.owned ∧ old.keep = false ∧ old.hold = none then
    [.operation (deleteOperation (retireKey key) old.id old.revision 0 false now)]
  else []

/-- The files are where they are to be. -/
def commitRelocation (key : Text) (seen : Option Seen) (now : Int) : List Tx :=
  match inv.movement key, seen with
  | some (op, m), some seen =>
    match inv.artifact m.source.id with
    | none => []
    | some a =>
      if (m.scratch.getD m.source).files ≠ seen.files then []
      else
        let current := { a with
          path := m.destination
          root := m.destination.dropLast
          rootIdentity := m.destinationRoot
          identity := some seen.identity
          files := seen.files
          state := .active
          revision := a.revision + 2 }
        let old := retired key m current.keep
        [.sidecar (current.sidecar inv)] :: match m.scratch with
          | none => [[.artifact current, .operation { op with state := .succeeded, error := none }]]
          | some scratch =>
            [[.sidecar (old.sidecar inv)],
              [.artifact { scratch with state := .sourceGone, updatedAt := now }, .artifact old] ++
                retirement key old now ++
                [.artifact current, .operation { op with state := .succeeded, error := none }]]
  | _, _ => []

def retainScratch (m : Relocation) : List Tx :=
  match m.scratch with
  | none => []
  | some scratch =>
    match inv.artifact scratch.id with
    | none => []
    | some row => [[.artifact { row with state := .retained }]]

/-- The move has failed; `there` : the files are still where they were. -/
def failRelocation (key : Text) (error : Error) (there : Bool) : List Tx :=
  match inv.movement key with
  | none => []
  | some (op, m) =>
    [[.operation { op with state := .review, error := some error }]] ++ inv.retainScratch m ++
      match inv.artifact m.source.id with
      | none => []
      | some a => if there then [[.artifact { a with state := .active, error := some error }]] else []

/-- A move that was under way as the process ended, and that has not come to its end. -/
def interruptRelocation (key : Text) (error : Error) : List Tx :=
  match inv.movement key with
  | none => []
  | some (op, m) =>
    inv.retainScratch m ++ [[.operation { op with state := .review, error := some error }]] ++
      match inv.artifact op.artifact with
      | none => []
      | some a =>
        [[.artifact { a with
          hold := some (text "review: interrupted move")
          state := .retained
          revision := a.revision + 1 }]]

/-! ### Recovery -/

/-- Neither parity nor an archive, and not a file that is not complete. -/
def isMedia (path : OsPath) : Bool :=
  let name := ((path.flatMap (0x2f :: ·)).map fun b : UInt8 => Char.ofNat b.toNat).map Char.toLower
  [".tmp", ".part", ".par2", ".rar", ".7z"].all fun ending => ¬ text ending <:+ name

/-- The artifact is held before anything is copied. -/
def stageRecovery (key : Text) (revision : Nat) (requestId : Text) (paths : List OsPath)
    (root : OsPath) (id generation : Text) (seen : Option (List FileEntry)) : List Tx :=
  match inv.artifact key with
  | none => []
  | some a =>
    if paths = [] ∨ 1000 < paths.length ∨ requestId = [] ∨ 128 < requestId.length ∨
        inv.recoveries.any (·.requestId = requestId) ∨ a.revision ≠ revision ∨ a.owned = false ∨
        a.hold.isSome ∨ a.state ∉ [.parkedFailed, .retained, .completed] ∨ a.path <+: root ∨
        root <+: a.path ∨ seen ≠ some a.files ∨ ¬paths.Nodup ∨
        ¬paths.all (fun p => isMedia p && a.files.any fun f => f.path = p && !f.identity.directory)
    then []
    else
      [[.artifact { a with
          hold := some (text "recovery:" ++ id)
          revision := a.revision + 1 },
        .recovery ⟨id, key, generation, requestId, (key, revision, paths, root), .staging, [], [],
          root ++ [(text "published").map (UInt8.ofNat ·.toNat), id.map (UInt8.ofNat ·.toNat)],
          none, none, none, none⟩]]

def stagedKey (r : Recovery) : Text := text "recovery-" ++ r.id

/-- The row of the copy. -/
def registerPublication (r : Recovery) (seen : Seen) (now : Int) : List Tx :=
  if (inv.artifact (stagedKey r)).isSome then []
  else
    let a : Artifact :=
      { newRow (stagedKey r) r.generation none r.published.dropLast r.published seen.rootIdentity
          (some seen.identity) .recoveryStaged true false
          (some (text "awaiting complete import receipt")) now with
        retentionSeconds := day
        files := seen.files }
    [[.sidecar (a.sidecar inv)], [.artifact a]]

/-- The copy is complete, and put in its place. -/
def publish (id : Text) (files : List RecoveryFile) (digest : Text) (seen : Seen) (now : Int) :
    List Tx :=
  match inv.recovery id with
  | none => []
  | some r =>
    if r.state ≠ .staging ∧ r.state ≠ .publishing then []
    else
      let r := { r with state := .publishing, files := files, manifestDigest := digest }
      [.recovery r] :: inv.registerPublication r seen now

/-- The artifact, and the copy if there is one, wait for a review. -/
def holdForReview (r : Recovery) : List Tx :=
  (match inv.artifact r.artifact with
    | none => []
    | some a => [[.artifact { a with
        hold := some (text "review: cancelled recovery")
        revision := a.revision + 1 }]]) ++
  match inv.artifact (stagedKey r) with
  | none => []
  | some a => [[.artifact { a with
      hold := some (text "review: cancelled recovery staging")
      revision := a.revision + 1 }]]

/-- The end of a copy, and of one that is resumed. -/
def endStaging (id : Text) (error : Option Error) : List Tx :=
  match inv.recovery id with
  | none => []
  | some r =>
    if r.state = .cancelPending then
      inv.holdForReview r ++ [[.recovery { r with state := .cancelled, error := error }]]
    else if r.state = .staging ∨ r.state = .publishing then
      [[.recovery { r with state := if error = none then .published else .failed, error := error }]]
    else []

def claimRecovery (key consumer importId manifest : Text) : List Tx :=
  match inv.recovery key with
  | none => []
  | some r =>
    if r.manifestDigest ≠ manifest ∨ importId = [] then []
    else if r.consumer = some consumer ∧ r.importId = some importId ∧
        (r.state = .claimed ∨ r.state = .imported) then [[.recovery r]]
    else if r.state ≠ .published ∨ r.consumer.isSome then []
    else
      [[.recovery { r with consumer := some consumer, importId := some importId, state := .claimed }]]

/-- Every file of the receipt is one of the recovery, and no file is there twice. -/
def receiptFits (r : Recovery) (receipt : Receipt) : Bool :=
  receipt.files.all (fun f => r.files.any fun x =>
    x.id = f.id && x.bytes = f.bytes && x.sha256 = f.sha256) &&
  (receipt.files.map (·.id)).Nodup

def receiptComplete (r : Recovery) (receipt : Receipt) : Bool :=
  receipt.files.length = r.files.length && receipt.files.all (FileResult.done ·.result)

/-- The consumer has all there is to have; files nobody has asked for stay held. -/
def receivedSource (r : Recovery) (a : Artifact) (now : Int) : Artifact :=
  { a with
    hold := if (a.files.filter (!·.identity.directory)).length = r.files.length then none
      else some (text "review: unselected source files remain")
    eligibleSeconds := 0
    deadline := some (now + a.retentionSeconds)
    revision := a.revision + 1 }

def recoveryReceipt (key consumer : Text) (receipt : Receipt) (now : Int) : List Tx :=
  match inv.recovery key with
  | none => []
  | some r =>
    match inv.artifact r.artifact with
    | none => []
    | some a =>
      if r.consumer ≠ some consumer ∨ r.importId ≠ some receipt.importId ∨
          r.manifestDigest ≠ receipt.manifestDigest ∨ r.receipt.isSome ∨ r.state ≠ .claimed ∨
          receiptFits r receipt = false then []
      else if receiptComplete r receipt then
        match inv.artifact (stagedKey r) with
        | none => []
        | some staged =>
          [[.artifact { staged with
              state := .recoveryImported
              hold := none
              deadline := some (now + day)
              eligibleSeconds := 0
              revision := staged.revision + 1 },
            .recovery { r with state := .imported, receipt := some receipt },
            .artifact (receivedSource r a now)]]
      else [[.recovery { r with state := .partly, receipt := some receipt }, .artifact a]]

def cancelRecovery (key : Text) (consumer : Option Text) (ack : Bool) : List Tx :=
  match inv.recovery key with
  | none => []
  | some r =>
    let finalPartial := r.state = .partly && r.receipt.isSome
    if r.state = .staging ∨ r.state = .publishing ∨ r.state = .cancelPending ∧ r.consumer = none then
      [[.recovery { r with state := .cancelPending }]]
    else if r.state = .imported then []
    else if r.consumer.isSome ∧ ack = false ∧ finalPartial = false then
      [[.recovery { r with state := .cancelPending }]]
    else if r.consumer.isSome ∧ finalPartial = false ∧
        (consumer ≠ r.consumer ∨ r.state ≠ .cancelPending) then []
    else inv.holdForReview r ++ [[.recovery { r with state := .cancelled }]]

/-- Files the consumer has are taken away at their source; `remaining` : what is left, if
the directory is there. -/
def pruneSource (key : Text) (remaining : Option (List FileEntry)) (now : Int) : List Tx :=
  match inv.recovery key with
  | none => []
  | some r =>
    match inv.artifact r.artifact with
    | none => []
    | some a =>
      if (r.state ≠ .imported ∧ r.state ≠ .partly) ∨ r.receipt = none ∨ a.terminal ∨
          a.owned = false ∨ a.keep ∨ a.hold.any (fun h =>
            h ≠ text "recovery:" ++ r.id ∧ h ≠ text "review: unselected source files remain" ∧
            h ≠ text "review: unselected source files remain after receipt cleanup") then []
      else
        match remaining with
        | none =>
          [[.artifact { a with
            state := .sourceGone
            hold := none
            updatedAt := now
            revision := a.revision + 1 }]]
        | some [] =>
          [[.artifact { a with
            state := .deleted
            hold := none
            files := []
            updatedAt := now
            revision := a.revision + 1 }]]
        | some files =>
          let foreign := files.any fun f => !a.files.any fun old =>
            old.path = f.path && old.identity.sameObject f.identity &&
              (f.identity.directory || old.identity = f.identity)
          [[.artifact { a with
            owned := a.owned && !foreign
            keep := a.keep || foreign
            hold := some (text "review: unselected source files remain after receipt cleanup")
            files := files
            updatedAt := now
            revision := a.revision + 1 }]]

/-! ### Tasks -/

def submitTask (kind : OperationKind) (artifact id request : Text) (now : Int) : List Tx :=
  if kind.isTask = false ∨ (inv.operation id).isSome then []
  else
    [[.operation ⟨id, artifact, kind, .queued, .task request, if kind = .prune then now + 8 else now,
      0, 0, none⟩]]

def startTask (key : Text) (now : Int) : List Tx :=
  match inv.operation key with
  | none => []
  | some op =>
    if op.kind.isTask ∧ (op.state = .queued ∨ op.state = .running) ∧ op.notBefore ≤ now then
      [[.operation { op with state := .running, attempts := op.attempts + 1 }]]
    else []

def endTask (key : Text) (error : Option Error) : List Tx :=
  match inv.operation key with
  | none => []
  | some op =>
    if op.kind.isTask then
      [[.operation { op with state := if error = none then .succeeded else .failed, error := error }]]
    else []

/-! ### A start -/

/-- One row that was in use; `live` : its job is still there, `there` : its directory, and
`seen` : the directory is the one of the row. -/
def reconcileStartup (key : Text) (live : Bool) (there : Option Identity)
    (seen : Option (List FileEntry)) (now : Int) : List Tx :=
  match inv.artifact key with
  | none => []
  | some a =>
    if a.state ∉ [.allocating, .retiring, .active] ∨ a.state = .active ∧ live then []
    else
      let a := if a.state = .allocating then
          match there with
          | none => { a with state := .sourceGone }
          | some identity =>
            { a with
              identity := some identity
              owned := false
              keep := true
              hold := review
              state := if live then .active else .retained }
        else match seen with
          | some files =>
            { a with
              files := files
              state := .retained
              hold := if a.owned then none else review }
          | none => { a with hold := some (text "review: interrupted writer retirement") }
      let a := if live then a
        else { a with
          job := none
          keep := true
          hold := some (text "review: allocation has no recovered job") }
      [[.artifact { a with revision := a.revision + 1, updatedAt := now }]]

def reconcileMissing (key : Text) (now : Int) : List Tx :=
  match inv.artifact key with
  | none => []
  | some a =>
    if a.state ∈ [.completed, .retained, .unknown, .retiring] then
      [[.artifact { a with state := .sourceGone, updatedAt := now, revision := a.revision + 1 }]]
    else []

/-- The manifest of a directory that has been away for long is not kept. -/
def compact (key : Text) (now : Int) : List Tx :=
  match inv.artifact key with
  | none => []
  | some a =>
    if a.terminal ∧ a.updatedAt < now - 90 * day then [[.artifact { a with files := [] }]] else []

/-- A backup has been restored: nothing that was under way goes on. -/
def quarantineRestore : List Tx :=
  [(inv.artifacts.filter (!·.terminal)).map (fun a => .artifact { a with
      hold := some (text "restored backup: review required")
      keep := true
      eligibleSeconds := 0
      deadline := none
      revision := a.revision + 1 }) ++
    (inv.recoveries.filter fun r => r.state ∉ [.imported, .cancelled]).map (fun r =>
      .recovery { r with
        state := .review
        error := some (.conflict (text
          "Restored backup: reconcile consumer and create a fresh handoff")) }) ++
    (inv.operations.filter fun op => op.state ∈ [.queued, .running, .retry]).map fun op =>
      .operation { op with
        state := .review
        error := some (.conflict (text "restored backup; old deletion invalidated")) }]

end Inventory

end Nzbd.Artifacts
