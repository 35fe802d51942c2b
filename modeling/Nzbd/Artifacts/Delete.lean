import Nzbd.Artifacts.Inventory

/-!
# Deleting a payload

`executeDelete` carries a deletion out.  It looks at the row of the artifact, opens the
root and the payload directory one component at a time, compares them with what the row
says they were, lists what is in the payload, and stops if any of it is not in the
manifest of the row.  Only then does it take the files away, and after them the
directories, the deepest first; each is opened and compared once more.

What a system call answers, and the clock, come from outside: any of them may fail, and a
deletion that fails leaves the rest of the payload to the next attempt.

`executeDelete_authorized` says what has gone afterwards, whatever the inventory and the
disk were; so it says it of an attempt that finds what another has left.
-/

namespace Nzbd.Artifacts

open List Inodes

/-! ### What is in a directory -/

inductive Call
  | roots
  | openRoot
  | openPayload
  | marker
  | lstat
  /-- The names in a directory of the payload. -/
  | list (p : OsPath)
  /-- An entry of the payload is opened. -/
  | child (p : OsPath)
  | remove (p : OsPath)
  | names
  | reopen
  | rmdir
  deriving DecidableEq

/-- What the clock, the system calls and the database answer. -/
structure Answers where
  now : Int
  /-- The time at the end. -/
  finished : Int
  /-- The call fails. -/
  fault : Call → Bool
  /-- The entry is away, but its directory could not be synced. -/
  unsynced : OsPath → Bool
  /-- What there is behind a link. -/
  through : OsPath → Option Errno
  started : Bool
  committed : Bool

def require (c : Bool) (e : Error) : Except Error Unit := if c then .ok () else .error e

theorem require_eq_ok {c : Bool} {e : Error} {u : Unit} (h : require c e = .ok u) : c = true := by
  cases c with
  | true => rfl
  | false => cases h

def Answers.check (w : Answers) (c : Call) : Except Error Unit := require (!w.fault c) (.io .other)

def io {α : Type} : Except Errno α → Except Error α
  | .ok a => .ok a
  | .error e => .error (.io e)

theorem io_eq_ok {α : Type} {x : Except Errno α} {a : α} (h : io x = .ok a) : x = .ok a := by
  cases x with
  | error e => cases h
  | ok b => exact congrArg Except.ok (Except.ok.inj h)

theorem bind_eq_ok {ε α β : Type} {x : Except ε α} {f : α → Except ε β} {b : β}
    (h : (x >>= f) = .ok b) : ∃ a, x = .ok a ∧ f a = .ok b := by
  cases x with
  | error e => cases h
  | ok a => exact ⟨a, rfl, h⟩

/-- The path as one text. -/
def joined : OsPath → List UInt8
  | [] => []
  | [n] => n
  | n :: ns => n ++ 0x2f :: joined ns

def shown (p : OsPath) : Text := Utf8.fromUtf8Lossy (joined p)

/-- Down into a directory. -/
def enter (child : Object Stat)
    (walk : OsPath → OsPath → List FileEntry → Except Error (List FileEntry)) (dir pre : OsPath)
    (out : List FileEntry) : Except Error (List FileEntry) :=
  if child.kind = .dir then walk dir pre out else .ok out

/-- The names of a directory, one after the other, onto `out`; `walk` goes down. -/
def visit (w : Answers) (disk : Disk) (limit : Nat)
    (walk : OsPath → OsPath → List FileEntry → Except Error (List FileEntry)) (dir pre : OsPath) :
    List OsName → List FileEntry → Except Error (List FileEntry)
  | [], out => .ok out
  | n :: ns, out => do
    require (out.length < limit)
      (.conflict (text "file inventory limit reached; no changes made"))
    require (Utf8.fromUtf8 n).isSome
      (.conflict (text "non-UTF8 filename requires manual review"))
    w.check (.child (pre ++ [n]))
    let child ← io (disk.openAt dir n false)
    require (child.kind = .file || child.kind = .dir)
      (.conflict (text "special file: " ++ shown (pre ++ [n])))
    let out' ← enter child walk (dir ++ [n]) (pre ++ [n]) (out ++ [⟨pre ++ [n], .ofObject child⟩])
    visit w disk limit walk dir pre ns out'

/-- Everything below a directory, down to a depth. -/
def walk (w : Answers) (disk : Disk) (limit : Nat) :
    Nat → OsPath → OsPath → List FileEntry → Except Error (List FileEntry)
  | 0, _, _, _ => .error (.conflict (text "directory depth exceeds 64; inspect manually"))
  | fuel + 1, dir, pre, out => do
    w.check (.list pre)
    visit w disk limit (walk w disk limit fuel) dir pre (disk.names dir) out

def manifest (w : Answers) (disk : Disk) (dir : OsPath) (limit : Nat) :
    Except Error (List FileEntry) := do
  let out ← walk w disk limit 65 dir [] []
  return out.insertionSort fun a b => joined a.path ≤ joined b.path

/-! ### Who may be deleted -/

def verifyRoot (w : Answers) (inv : Inventory) (disk : Disk) (a : Artifact) : Except Error OsPath := do
  w.check .roots
  require (!inv.protectedRoots.any fun root => a.path <+: root)
    (.conflict (text "payload overlaps a configured directory role"))
  w.check .openRoot
  let root ← io (disk.openDir a.root)
  require ((disk.object root).any fun o => a.rootIdentity.sameObject (.ofObject o))
    (.conflict (text "configured root identity changed or volume is unavailable"))
  return root

def sidecarMatches (inv : Inventory) (a : Artifact) : Bool :=
  inv.sidecars.any fun s =>
    s.installation = inv.installation && s.artifact = a.id && s.generation = a.generation &&
      s.path = a.path && s.identity = a.identity

def verifyMarker (w : Answers) (inv : Inventory) (a : Artifact) : Except Error Unit :=
  if a.owned then do
    w.check .marker
    require (sidecarMatches inv a)
      (.conflict (text "external allocation identity does not match inventory"))
  else .ok ()

def verify (w : Answers) (inv : Inventory) (disk : Disk) (a : Artifact) : Except Error OsPath := do
  let _ ← verifyRoot w inv disk a
  w.check .openPayload
  let dir ← io (disk.openDir a.path)
  require ((disk.object dir).any fun o => a.identity.any (·.sameObject (.ofObject o)))
    (.conflict (text "payload identity changed; review required"))
  verifyMarker w inv a
  return dir

/-- The manifest of the row has this entry. -/
def Artifact.lists (a : Artifact) (f : FileEntry) : Bool :=
  a.files.any fun own => own.path = f.path && own.identity.sameObject f.identity &&
    (f.identity.directory || own.identity = f.identity)

/-- Nothing that is not in the manifest of the row. -/
def requireListed (a : Artifact) (observed : List FileEntry) : Except Error Unit :=
  match observed.find? (!a.lists ·) with
  | none => .ok ()
  | some f => .error (.conflict (text "unowned or changed entry: " ++ shown f.path))

/-! ### Taking away -/

def openForRemoval (disk : Disk) (dir : OsPath) (f : FileEntry) : Except Error (OsPath × OsName) :=
  match f.path.getLast? with
  | none => .error (.conflict (text "empty file path"))
  | some n => do
    let parent ← io (disk.openDirs dir f.path.dropLast)
    let child ← io (disk.openAt parent n f.identity.directory)
    let observed := Identity.ofObject child
    require (f.identity.sameObject observed && (observed.directory || observed = f.identity))
      (.conflict (text "identity changed: " ++ shown f.path))
    return (parent, n)

def removeEntry (w : Answers) (dir : OsPath) (disk : Disk) (f : FileEntry) : Disk × Option Error :=
  if w.fault (.remove f.path) then (disk, some (.io .other))
  else
    match openForRemoval disk dir f with
    | .error e => (disk, some e)
    | .ok (parent, n) =>
      match disk.unlinkAt parent n f.identity.directory with
      | .error e => (disk, some (.io e))
      | .ok disk' => (disk', if w.unsynced f.path then some (.io .other) else none)

/-- One after the other, up to the first that fails. -/
def removeEntries (w : Answers) (dir : OsPath) : Disk → List FileEntry → Disk × Option Error
  | disk, [] => (disk, none)
  | disk, f :: fs =>
    match removeEntry w dir disk f with
    | (disk', none) => removeEntries w dir disk' fs
    | (disk', some e) => (disk', some e)

/-- The deepest first. -/
def byDepth (files : List FileEntry) : List FileEntry :=
  files.insertionSort fun a b => b.path.length ≤ a.path.length

/-- The directory is empty, and still that of the row. -/
def reopen (w : Answers) (disk : Disk) (root dir : OsPath) (a : Artifact) : Except Error OsName := do
  w.check .names
  require ((disk.names dir).isEmpty) (.conflict (text "new files appeared during deletion"))
  require (a.path ≠ [] && a.path.dropLast = a.root)
    (.conflict (text "payload no longer an immediate child of root"))
  w.check .reopen
  let current ← io (disk.openAt root (a.path.getLast?.getD []) true)
  require (a.identity.any ((Identity.ofObject current).sameObject ·))
    (.conflict (text "payload directory replaced"))
  return a.path.getLast?.getD []

def removePayload (w : Answers) (disk : Disk) (root dir : OsPath) (a : Artifact) :
    Disk × Option Error :=
  match reopen w disk root dir a with
  | .error e => (disk, some e)
  | .ok n =>
    if w.fault .rmdir then (disk, some (.io .other))
    else
      match disk.unlinkAt root n true with
      | .error e => (disk, some (.io e))
      | .ok disk' => (disk', if w.unsynced [] then some (.io .other) else none)

/-- What there is at a path; a link on the way is followed. -/
def lstat (w : Answers) (disk : Disk) (p : OsPath) : Option Errno :=
  if w.fault .lstat then some .other
  else if (disk.object p).isSome then none
  else if p.inits.any fun q => (disk.object q).any (·.kind = .link) then w.through p
  else if p.inits.any fun q => (disk.object q).any (·.kind ≠ .dir) then some .notDirectory
  else some .notFound

/-- A later attempt may find that the payload is away. -/
def alreadyGone (w : Answers) (disk : Disk) (attempts : Nat) (p : OsPath) : Except Error Bool :=
  if attempts ≤ 1 then .ok false
  else
    match lstat w disk p with
    | some .notFound => .ok true
    | some e => .error (.io e)
    | none => .ok false

/-- The entries of the payload, all of them in the manifest of the row. -/
def survey (w : Answers) (inv : Inventory) (disk : Disk) (a : Artifact) :
    Except Error (OsPath × List FileEntry) := do
  let dir ← verify w inv disk a
  let observed ← manifest w disk dir 100000
  requireListed a observed
  return (dir, observed)

/-- What an attempt finds, if the payload is not away. -/
def prepare (w : Answers) (inv : Inventory) (disk : Disk) (attempts : Nat) (a : Artifact) :
    Except Error (Option (OsPath × OsPath × List FileEntry)) := do
  let root ← verifyRoot w inv disk a
  let gone ← alreadyGone w disk attempts a.path
  if gone then .ok none else do
    let (dir, observed) ← survey w inv disk a
    return some (root, dir, byDepth observed)

def removeTree (w : Answers) (inv : Inventory) (disk : Disk) (attempts : Nat) (a : Artifact) :
    Disk × Option Error :=
  match prepare w inv disk attempts a with
  | .error e => (disk, some e)
  | .ok none => (disk, none)
  | .ok (some (root, dir, files)) =>
    match removeEntries w dir disk
        (files.filter (!·.identity.directory) ++ files.filter (·.identity.directory)) with
    | (disk', some e) => (disk', some e)
    | (disk', none) => removePayload w disk' root dir a

/-! ### The operation -/

structure Deletion where
  inventory : Inventory
  disk : Disk
  result : Except Error Operation

def retryAfter (attempts : Nat) : Int :=
  [60, 300, 1800, 21600].getD (min (attempts - 1) 3) 0

def authorizationChanged : Error :=
  .conflict (text "deletion authorization changed; a fresh request is required")

/-- The first attempt is for the row as it was when it was asked for. -/
def stillAuthorized (w : Answers) (inv : Inventory) (a : Artifact) (revision : Nat)
    (automatic : Bool) : Bool :=
  a.revision = revision &&
    (!automatic || inv.settings.enabled && a.eligible && a.retentionSeconds ≤ a.eligibleSeconds &&
      a.deadline.any (· ≤ w.now))

/-- What the rows say after an attempt. -/
def conclude (w : Answers) (op : Operation) (a : Artifact) : Option Error → Operation × Artifact
  | none =>
    ({ op with state := .succeeded, error := none },
      { a with state := .deleted, error := none, updatedAt := w.finished, revision := a.revision + 1 })
  | some e =>
    ({ op with
        state := if e.isConflict then .review else .retry
        error := some e
        nextRetry := w.finished + retryAfter op.attempts },
      { a with
        state := .deleteFailed
        error := some e
        hold := if e.isConflict then some (text "review") else a.hold
        updatedAt := w.finished
        revision := a.revision + 1 })

def Operation.begun (op : Operation) : Operation :=
  { op with state := .running, attempts := op.attempts + 1 }

def Artifact.deleting (a : Artifact) : Artifact := { a with state := .deleting }

/-- An attempt is under way. -/
def Inventory.begin (inv : Inventory) (op : Operation) (a : Artifact) : Inventory :=
  (inv.saveOperation op.begun).saveArtifact a.deleting

def removal (w : Answers) (inv : Inventory) (disk : Disk) (op : Operation) (a : Artifact) :
    Disk × Option Error :=
  removeTree w (inv.begin op a) disk op.begun.attempts a.deleting

/-- The attempt itself, once it is let go ahead. -/
def attempt (w : Answers) (inv : Inventory) (disk : Disk) (op : Operation) (a : Artifact) :
    Deletion :=
  if w.started then
    let removed := removal w inv disk op a
    let rows := conclude w op.begun a.deleting removed.2
    if w.committed then
      ⟨((inv.begin op a).saveOperation rows.1).saveArtifact rows.2, removed.1, .ok rows.1⟩
    else ⟨inv.begin op a, removed.1, .error .sql⟩
  else ⟨inv, disk, .error .sql⟩

def executeDelete (w : Answers) (inv : Inventory) (disk : Disk) (key : Text) : Deletion :=
  match inv.operation key with
  | none => ⟨inv, disk, .error .notFound⟩
  | some op =>
    if op.kind ≠ .delete then ⟨inv, disk, .error (.conflict (text "not a deletion operation"))⟩
    else if op.state = .succeeded ∨ op.state = .cancelled ∨ op.state = .review ∨
        w.now < op.notBefore ∨ w.now < op.nextRetry then ⟨inv, disk, .ok op⟩
    else
      match inv.artifact op.artifact, op.request with
      | none, _ => ⟨inv, disk, .error .notFound⟩
      | some a, .delete _ revision _ automatic =>
        if op.attempts = 0 ∧ stillAuthorized w inv a revision automatic = false then
          if w.started then
            let op := { op with state := .cancelled, error := some authorizationChanged }
            ⟨inv.saveOperation op, disk, .ok op⟩
          else ⟨inv, disk, .error .sql⟩
        else if a.keep ∨ a.hold.isSome ∨ a.owned = false then
          ⟨inv, disk, .error (.conflict (text "payload acquired a hold"))⟩
        else attempt w inv disk op a
      | some _, _ => ⟨inv, disk, .error .json⟩

/-! ### What a manifest has -/

/-- `out'` is `out` and all there is below these names of a directory. -/
structure Found (disk : Disk) (dir pre : OsPath) (ns : List OsName) (out out' : List FileEntry) :
    Prop where
  old : ∀ f ∈ out, f ∈ out'
  real : ∀ f ∈ out', f ∈ out ∨ ∃ n ∈ ns, ∃ q o, disk.object (dir ++ n :: q) = some o ∧
    f = ⟨pre ++ n :: q, .ofObject o⟩ ∧ (o.kind = .file ∨ o.kind = .dir)
  all : ∀ n ∈ ns, ∀ q o, disk.object (dir ++ n :: q) = some o →
    ⟨pre ++ n :: q, .ofObject o⟩ ∈ out'

section Manifest

variable {w : Answers} {disk : Disk} {limit : Nat}

theorem found_child {dir pre : OsPath} {n : OsName} {out out' : List FileEntry}
    {child : Object Stat} (hchild : disk.object (dir ++ [n]) = some child)
    (hkind : child.kind = .file ∨ child.kind = .dir)
    (hbelow : if child.kind = .dir then
      Found disk (dir ++ [n]) (pre ++ [n]) (disk.names (dir ++ [n]))
        (out ++ [⟨pre ++ [n], .ofObject child⟩]) out'
      else out' = out ++ [⟨pre ++ [n], .ofObject child⟩]) :
    Found disk dir pre [n] out out' := by
  have hself : ∀ f ∈ out ++ [⟨pre ++ [n], .ofObject child⟩], f ∈ out ∨ ∃ m ∈ [n], ∃ q o,
      disk.object (dir ++ m :: q) = some o ∧ f = ⟨pre ++ m :: q, .ofObject o⟩ ∧
      (o.kind = .file ∨ o.kind = .dir) := by
    intro f hf
    rcases mem_append.mp hf with hf | hf
    · exact .inl hf
    · exact .inr ⟨n, mem_singleton_self n, [], child, hchild, mem_singleton.mp hf, hkind⟩
  split_ifs at hbelow with hdir
  · refine ⟨fun f hf => hbelow.old f (mem_append_left _ hf), fun f hf => ?_, ?_⟩
    · rcases hbelow.real f hf with hold | ⟨m, hm, q, o, ho, rfl, hk⟩
      · exact hself f hold
      · refine .inr ⟨n, mem_singleton_self n, m :: q, o, ?_, by simp, hk⟩
        simpa using ho
    · intro m hm q o ho
      obtain rfl := mem_singleton.mp hm
      cases q with
      | nil =>
        rw [hchild] at ho
        obtain rfl := Option.some.inj ho
        exact hbelow.old _ (mem_append_right _ (mem_singleton_self _))
      | cons m' q =>
        rw [append_cons] at ho ⊢
        exact hbelow.all m' (Disk.mem_names_of_object ho) q o ho
  · subst hbelow
    refine ⟨fun f hf => mem_append_left _ hf, hself, fun m hm q o ho => ?_⟩
    obtain rfl := mem_singleton.mp hm
    cases q with
    | nil =>
      rw [hchild] at ho
      obtain rfl := Option.some.inj ho
      exact mem_append_right _ (mem_singleton_self _)
    | cons m' q =>
      -- nothing is below a file
      rw [append_cons] at ho
      have hmem := Disk.mem_names_of_object ho
      rw [Disk.names_eq_nil_of_kind hchild hdir] at hmem
      cases hmem

theorem Found.cons {dir pre : OsPath} {n : OsName} {ns : List OsName}
    {out out' out'' : List FileEntry} (h : Found disk dir pre [n] out out')
    (h' : Found disk dir pre ns out' out'') : Found disk dir pre (n :: ns) out out'' := by
  refine ⟨fun f hf => h'.old f (h.old f hf), fun f hf => ?_, fun m hm q o ho => ?_⟩
  · rcases h'.real f hf with hold | ⟨m, hm, hrest⟩
    · rcases h.real f hold with hold | ⟨m, hm, hrest⟩
      · exact .inl hold
      · exact .inr ⟨m, mem_cons.mpr (.inl (mem_singleton.mp hm)), hrest⟩
    · exact .inr ⟨m, mem_cons_of_mem _ hm, hrest⟩
  · rcases mem_cons.mp hm with rfl | hm
    · exact h'.old _ (h.all m (mem_singleton_self m) q o ho)
    · exact h'.all m hm q o ho

theorem found_visit
    {down : OsPath → OsPath → List FileEntry → Except Error (List FileEntry)}
    (hdown : ∀ dir pre out out', down dir pre out = .ok out' →
      Found disk dir pre (disk.names dir) out out')
    {dir pre : OsPath} {ns : List OsName} {out out' : List FileEntry}
    (h : visit w disk limit down dir pre ns out = .ok out') : Found disk dir pre ns out out' := by
  induction ns generalizing out with
  | nil =>
    obtain rfl := Except.ok.inj h
    exact ⟨fun _ hf => hf, fun _ hf => .inl hf, fun _ hm => (by cases hm)⟩
  | cons n ns ih =>
    rw [visit] at h
    obtain ⟨-, -, h⟩ := bind_eq_ok h
    obtain ⟨-, -, h⟩ := bind_eq_ok h
    obtain ⟨-, -, h⟩ := bind_eq_ok h
    obtain ⟨child, hopen, h⟩ := bind_eq_ok h
    obtain ⟨_, hkind, h⟩ := bind_eq_ok h
    obtain ⟨mid, hmid, h⟩ := bind_eq_ok h
    have hobj := (Disk.openAt_eq_ok (io_eq_ok hopen)).1
    have hk : child.kind = .file ∨ child.kind = .dir := by
      simpa using require_eq_ok hkind
    refine (found_child hobj hk ?_).cons (ih h)
    unfold enter at hmid
    split_ifs at hmid ⊢ with hdir
    · exact hdown _ _ _ _ hmid
    · exact (Except.ok.inj hmid).symm

theorem found_walk {fuel : Nat} {dir pre : OsPath} {out out' : List FileEntry}
    (h : walk w disk limit fuel dir pre out = .ok out') :
    Found disk dir pre (disk.names dir) out out' := by
  induction fuel generalizing dir pre out out' with
  | zero => cases h
  | succ fuel ih =>
    rw [walk] at h
    obtain ⟨-, -, h⟩ := bind_eq_ok h
    exact found_visit (fun _ _ _ _ => ih) h

/-- **A manifest has what is below its directory,** and nothing else. -/
theorem manifest_ok {dir : OsPath} {files : List FileEntry}
    (h : manifest w disk dir limit = .ok files) :
    (∀ f ∈ files, ∃ o, f.path ≠ [] ∧ disk.object (dir ++ f.path) = some o ∧
      f.identity = .ofObject o ∧ (o.kind = .file ∨ o.kind = .dir)) ∧
    ∀ q o, q ≠ [] → disk.object (dir ++ q) = some o → ⟨q, .ofObject o⟩ ∈ files := by
  obtain ⟨out, hout, h⟩ := bind_eq_ok h
  obtain rfl := Except.ok.inj h
  have hfound := found_walk hout
  refine ⟨fun f hf => ?_, fun q o hq ho => (mem_insertionSort _).mpr ?_⟩
  · rcases hfound.real f ((mem_insertionSort _).mp hf) with hnil | ⟨n, -, q, o, ho, rfl, hk⟩
    · cases hnil
    · exact ⟨o, by simp, ho, rfl, hk⟩
  · cases q with
    | nil => exact absurd rfl hq
    | cons n q => exact hfound.all n (Disk.mem_names_of_object ho) q o ho

end Manifest

/-! ### What goes -/

section Remove

variable {w : Answers} {dir : OsPath} {disk : Disk}

theorem openForRemoval_ok {f : FileEntry} {parent : OsPath} {n : OsName}
    (h : openForRemoval disk dir f = .ok (parent, n)) : parent ++ [n] = dir ++ f.path := by
  unfold openForRemoval at h
  split at h
  · cases h
  · next m hlast =>
    obtain ⟨r, hopen, h⟩ := bind_eq_ok h
    obtain ⟨child, -, h⟩ := bind_eq_ok h
    obtain ⟨-, -, h⟩ := bind_eq_ok h
    obtain ⟨rfl, rfl⟩ := Prod.mk.inj (Except.ok.inj h)
    obtain ⟨rfl, -⟩ := Disk.openDirs_eq_ok (io_eq_ok hopen)
    have hne : f.path ≠ [] := by
      rintro he
      rw [he] at hlast
      cases hlast
    rw [getLast?_eq_some_getLast hne] at hlast
    rw [← Option.some.inj hlast, append_assoc, dropLast_append_getLast hne]

theorem shrinks_removeEntry (f : FileEntry) :
    Shrinks (fun p => p = dir ++ f.path) disk (removeEntry w dir disk f).1 := by
  unfold removeEntry
  split
  · exact .refl _ _
  · cases hopen : openForRemoval disk dir f with
    | error e => exact .refl _ _
    | ok r =>
      obtain ⟨parent, n⟩ := r
      simp only
      split
      · exact .refl _ _
      · next disk' hunlink => exact Shrinks.unlinkAt hunlink (openForRemoval_ok hopen)

theorem shrinks_removeEntries (fs : List FileEntry) :
    Shrinks (fun p => ∃ f ∈ fs, p = dir ++ f.path) disk (removeEntries w dir disk fs).1 := by
  induction fs generalizing disk with
  | nil => exact .refl _ _
  | cons f fs ih =>
    have hone : Shrinks (fun p => ∃ g ∈ f :: fs, p = dir ++ g.path) disk
        (removeEntry w dir disk f).1 :=
      (shrinks_removeEntry f).mono fun p hp => ⟨f, mem_cons_self, hp⟩
    rw [removeEntries]
    cases hr : removeEntry w dir disk f with
    | mk disk' error =>
      rw [hr] at hone
      cases error with
      | some e => exact hone
      | none =>
        refine hone.trans (ih.mono ?_)
        rintro p ⟨g, hg, hp⟩
        exact ⟨g, mem_cons_of_mem _ hg, hp⟩

theorem removePayload_spec {root : OsPath} {a : Artifact} (hroot : root = a.root) :
    Shrinks (· = a.path) disk (removePayload w disk root dir a).1 ∧
    ((removePayload w disk root dir a).2 = none →
      (removePayload w disk root dir a).1.object a.path = none) := by
  unfold removePayload
  cases hopen : reopen w disk root dir a with
  | error e => exact ⟨.refl _ _, fun h => (by cases h)⟩
  | ok n =>
    have hpath : root ++ [n] = a.path := by
      obtain ⟨-, -, h⟩ := bind_eq_ok hopen
      obtain ⟨-, -, h⟩ := bind_eq_ok h
      obtain ⟨_, hchild, h⟩ := bind_eq_ok h
      obtain ⟨-, -, h⟩ := bind_eq_ok h
      obtain ⟨_, -, h⟩ := bind_eq_ok h
      obtain ⟨-, -, h⟩ := bind_eq_ok h
      obtain ⟨hne, hparent⟩ : a.path ≠ [] ∧ a.path.dropLast = a.root := by
        simpa using require_eq_ok hchild
      rw [← Except.ok.inj h, getLast?_eq_some_getLast hne, Option.getD_some, hroot, ← hparent,
        dropLast_append_getLast hne]
    simp only
    split
    · exact ⟨.refl _ _, fun h => (by cases h)⟩
    · cases hunlink : disk.unlinkAt root n true with
      | error e => exact ⟨.refl _ _, fun h => (by cases h)⟩
      | ok disk' =>
        refine ⟨Shrinks.unlinkAt hunlink hpath, fun _ => ?_⟩
        change disk'.object a.path = none
        rw [Disk.object_unlinkAt hunlink, if_pos hpath.symm]

end Remove

/-! ### What a deletion may do -/

/-- The row lets the payload go, and root and directory are those of the row. -/
structure Deletable (disk : Disk) (a : Artifact) : Prop where
  owned : a.owned = true
  keep : a.keep = false
  hold : a.hold = none
  root : ∃ o, disk.object a.root = some o ∧ o.kind = .dir ∧
    a.rootIdentity.sameObject (.ofObject o) = true
  payload : ∃ o i, disk.object a.path = some o ∧ o.kind = .dir ∧ a.identity = some i ∧
    i.sameObject (.ofObject o) = true

/-- The manifest of the row has this object at this path: a directory as an object, a file
with all that is known of it. -/
def Listed (a : Artifact) (q : OsPath) (o : Object Stat) : Prop :=
  ∃ own ∈ a.files, own.path = q ∧ own.identity.sameObject (.ofObject o) = true ∧
    (o.kind = .dir ∨ own.identity = .ofObject o)

theorem lists_iff {a : Artifact} {q : OsPath} {o : Object Stat} :
    a.lists ⟨q, .ofObject o⟩ = true ↔ Listed a q o := by
  simp [Artifact.lists, Listed, and_assoc]

/-- **What is claimed** of a deletion. -/
structure Authorized (inv : Inventory) (disk : Disk) (key : Text) (d : Deletion) : Prop where
  /-- What has gone is the payload directory, or a file or a directory of its manifest. -/
  gone : ∀ p o, disk.object p = some o → d.disk.object p = none →
    ∃ op a, inv.operation key = some op ∧ inv.artifact op.artifact = some a ∧ Deletable disk a ∧
      (p = a.path ∨ ∃ q, q ≠ [] ∧ p = a.path ++ q ∧ (o.kind = .file ∨ o.kind = .dir) ∧ Listed a q o)
  /-- With one entry that is not in the manifest nothing goes. -/
  nothing : ∀ op a q o, inv.operation key = some op → inv.artifact op.artifact = some a →
    q ≠ [] → disk.object (a.path ++ q) = some o → ¬Listed a q o → d.disk = disk
  rest : ∀ p o, d.disk.object p = some o → disk.object p = some o
  deleted : ∀ k a', d.inventory.artifact k = some a' → a'.state = .deleted →
    inv.artifact k = some a' ∨ d.disk.object a'.path = none

section Authorized

variable {w : Answers} {inv : Inventory} {disk : Disk}

theorem verifyRoot_ok {a : Artifact} {root : OsPath} (h : verifyRoot w inv disk a = .ok root) :
    root = a.root ∧ ∃ o, disk.object a.root = some o ∧ o.kind = .dir ∧
      a.rootIdentity.sameObject (.ofObject o) = true := by
  obtain ⟨-, -, h⟩ := bind_eq_ok h
  obtain ⟨-, -, h⟩ := bind_eq_ok h
  obtain ⟨-, -, h⟩ := bind_eq_ok h
  obtain ⟨r, hopen, h⟩ := bind_eq_ok h
  obtain ⟨_, hsame, h⟩ := bind_eq_ok h
  obtain rfl := Except.ok.inj h
  obtain ⟨rfl, hdir⟩ := Disk.openDir_eq_ok (io_eq_ok hopen)
  obtain ⟨o, ho, hk⟩ := Disk.isDir_iff.mp hdir
  have hs := require_eq_ok hsame
  rw [ho] at hs
  exact ⟨rfl, o, ho, hk, hs⟩

theorem verify_ok {a : Artifact} {dir : OsPath} (h : verify w inv disk a = .ok dir) :
    dir = a.path ∧ ∃ o i, disk.object a.path = some o ∧ o.kind = .dir ∧ a.identity = some i ∧
      i.sameObject (.ofObject o) = true := by
  obtain ⟨_, -, h⟩ := bind_eq_ok h
  obtain ⟨-, -, h⟩ := bind_eq_ok h
  obtain ⟨r, hopen, h⟩ := bind_eq_ok h
  obtain ⟨_, hsame, h⟩ := bind_eq_ok h
  obtain ⟨_, -, h⟩ := bind_eq_ok h
  obtain rfl := Except.ok.inj h
  obtain ⟨rfl, hdir⟩ := Disk.openDir_eq_ok (io_eq_ok hopen)
  obtain ⟨o, ho, hk⟩ := Disk.isDir_iff.mp hdir
  have hs := require_eq_ok hsame
  rw [ho, Option.any_some] at hs
  cases hi : a.identity with
  | none => rw [hi] at hs; cases hs
  | some i =>
    rw [hi] at hs
    exact ⟨rfl, o, i, ho, hk, rfl, hs⟩

theorem requireListed_ok {a : Artifact} {observed : List FileEntry} {u : Unit}
    (h : requireListed a observed = .ok u) : ∀ f ∈ observed, a.lists f = true := by
  unfold requireListed at h
  split at h
  · next hnone =>
    intro f hf
    simpa using find?_eq_none.mp hnone f hf
  · cases h

/-- **A survey that goes through** has found all there is in the payload, all of it in the
manifest of the row. -/
theorem survey_ok {a : Artifact} {dir : OsPath} {observed : List FileEntry}
    (h : survey w inv disk a = .ok (dir, observed)) :
    dir = a.path ∧
    (∃ o i, disk.object a.path = some o ∧ o.kind = .dir ∧ a.identity = some i ∧
      i.sameObject (.ofObject o) = true) ∧
    (∀ f ∈ observed, ∃ o, f.path ≠ [] ∧ disk.object (a.path ++ f.path) = some o ∧
      (o.kind = .file ∨ o.kind = .dir) ∧ Listed a f.path o) ∧
    ∀ q o, q ≠ [] → disk.object (a.path ++ q) = some o → Listed a q o := by
  obtain ⟨d, hverify, h⟩ := bind_eq_ok h
  obtain ⟨files, hfiles, h⟩ := bind_eq_ok h
  obtain ⟨_, hlisted, h⟩ := bind_eq_ok h
  obtain ⟨rfl, rfl⟩ := Prod.mk.inj (Except.ok.inj h)
  obtain ⟨rfl, hpayload⟩ := verify_ok hverify
  obtain ⟨hreal, hall⟩ := manifest_ok hfiles
  have hlists := requireListed_ok hlisted
  refine ⟨rfl, hpayload, fun f hf => ?_, fun q o hq ho => lists_iff.mp (hlists _ (hall q o hq ho))⟩
  obtain ⟨o, hne, ho, hid, hk⟩ := hreal f hf
  have hl := hlists f hf
  obtain ⟨path, identity⟩ := f
  simp only at hid
  subst hid
  exact ⟨o, hne, ho, hk, lists_iff.mp hl⟩

/-- What a removal may take away. -/
def Removable (disk : Disk) (a : Artifact) (p : OsPath) : Prop :=
  p = a.path ∨ ∃ q o, q ≠ [] ∧ p = a.path ++ q ∧ disk.object p = some o ∧
    (o.kind = .file ∨ o.kind = .dir) ∧ Listed a q o

/-- **A removal.**  It shrinks the payload, if root and directory are those of the row and
everything in it is listed; else it does nothing.  Without an error the directory is away. -/
theorem removeTree_spec {attempts : Nat} {a : Artifact} :
    ((removeTree w inv disk attempts a).1 = disk ∨
      (∃ o, disk.object a.root = some o ∧ o.kind = .dir ∧
        a.rootIdentity.sameObject (.ofObject o) = true) ∧
      (∃ o i, disk.object a.path = some o ∧ o.kind = .dir ∧ a.identity = some i ∧
        i.sameObject (.ofObject o) = true) ∧
      (∀ q o, q ≠ [] → disk.object (a.path ++ q) = some o → Listed a q o) ∧
      Shrinks (Removable disk a) disk (removeTree w inv disk attempts a).1) ∧
    ((removeTree w inv disk attempts a).2 = none →
      (removeTree w inv disk attempts a).1.object a.path = none) := by
  unfold removeTree
  cases hprepare : prepare w inv disk attempts a with
  | error e => exact ⟨.inl rfl, fun h => (by cases h)⟩
  | ok found =>
    obtain ⟨root, hroot, h⟩ := bind_eq_ok hprepare
    obtain ⟨gone, hgone, h⟩ := bind_eq_ok h
    obtain ⟨rfl, hrootId⟩ := verifyRoot_ok hroot
    cases gone with
    | true =>
      obtain rfl := Except.ok.inj h
      refine ⟨.inl rfl, fun _ => ?_⟩
      change disk.object a.path = none
      unfold alreadyGone lstat at hgone
      split_ifs at hgone <;> simp_all
    | false =>
      obtain ⟨⟨dir, observed⟩, hsurvey, h⟩ := bind_eq_ok h
      obtain rfl := Except.ok.inj h
      obtain ⟨rfl, hpayload, hreal, hall⟩ := survey_ok hsurvey
      have hremovable : Shrinks (Removable disk a) disk (removeEntries w a.path disk
          ((byDepth observed).filter (!·.identity.directory) ++
            (byDepth observed).filter (·.identity.directory))).1 := by
        refine (shrinks_removeEntries _).mono ?_
        rintro p ⟨f, hf, rfl⟩
        have hmem : f ∈ observed := by
          rcases mem_append.mp hf with hf | hf <;>
            exact (mem_insertionSort _).mp (mem_filter.mp hf).1
        obtain ⟨o, hne, ho, hk, hl⟩ := hreal f hmem
        exact .inr ⟨f.path, o, hne, rfl, ho, hk, hl⟩
      simp only
      cases hr : removeEntries w a.path disk ((byDepth observed).filter (!·.identity.directory) ++
          (byDepth observed).filter (·.identity.directory)) with
      | mk disk' error =>
        rw [hr] at hremovable
        cases error with
        | some e => exact ⟨.inr ⟨hrootId, hpayload, hall, hremovable⟩, fun h => (by cases h)⟩
        | none =>
          obtain ⟨hshrinks, hempty⟩ :
              Shrinks (· = a.path) disk' (removePayload w disk' a.root a.path a).1 ∧ _ :=
            removePayload_spec rfl
          exact ⟨.inr ⟨hrootId, hpayload, hall, hremovable.trans (hshrinks.mono fun p hp => .inl hp)⟩,
            hempty⟩

variable {key : Text}

theorem authorized_of_unchanged {d : Deletion} (hdisk : d.disk = disk)
    (hinv : ∀ k, d.inventory.artifact k = inv.artifact k) : Authorized inv disk key d where
  gone := fun p o ho hgone => by
    rw [hdisk, ho] at hgone
    cases hgone
  nothing := fun _ _ _ _ _ _ _ _ _ => hdisk
  rest := fun p o ho => hdisk ▸ ho
  deleted := fun k a' ha' _ => .inl (hinv k ▸ ha')

theorem conclude_id (op : Operation) (a : Artifact) (e : Option Error) :
    (conclude w op a e).1.id = op.id ∧ (conclude w op a e).2.id = a.id := by
  cases e <;> exact ⟨rfl, rfl⟩

theorem conclude_deleted {op : Operation} {a : Artifact} {e : Option Error}
    (h : (conclude w op a e).2.state = .deleted) : e = none ∧ (conclude w op a e).2.path = a.path := by
  cases e with
  | none => exact ⟨rfl, rfl⟩
  | some e => cases h

theorem artifact_begin_of_ne {op : Operation} {a : Artifact} {k : Text} (hk : a.id ≠ k) :
    (inv.begin op a).artifact k = inv.artifact k := by
  rw [Inventory.begin, Inventory.artifact_saveArtifact_of_ne _ (show a.deleting.id ≠ k from hk),
    Inventory.artifact_saveOperation]

/-- A row that says `deleted` after an attempt said so before, or the payload has been
removed. -/
theorem artifact_attempt {op : Operation} {a a' : Artifact} {k : Text} (hs : w.started = true)
    (h : (attempt w inv disk op a).inventory.artifact k = some a') (hstate : a'.state = .deleted) :
    inv.artifact k = some a' ∨ a'.path = a.path ∧ (removal w inv disk op a).2 = none := by
  unfold attempt at h
  rw [if_pos hs] at h
  by_cases hk : a.id = k
  · subst hk
    right
    split at h
    · obtain ⟨-, hid⟩ := conclude_id (w := w) op.begun a.deleting (removal w inv disk op a).2
      rw [show a.id = _ from hid.symm, Inventory.artifact_saveArtifact_self] at h
      rw [← Option.some.inj h] at hstate ⊢
      obtain ⟨hnone, hpath⟩ := conclude_deleted hstate
      exact ⟨hpath, hnone⟩
    · have hself : (inv.begin op a).artifact a.id = some a.deleting :=
        Inventory.artifact_saveArtifact_self _ _
      rw [hself] at h
      rw [← Option.some.inj h] at hstate
      cases hstate
  · left
    split at h
    · obtain ⟨-, hid⟩ := conclude_id (w := w) op.begun a.deleting (removal w inv disk op a).2
      rw [Inventory.artifact_saveArtifact_of_ne _ (fun he => hk (hid.symm.trans he)),
        Inventory.artifact_saveOperation, artifact_begin_of_ne hk] at h
      exact h
    · rw [artifact_begin_of_ne hk] at h
      exact h

theorem disk_attempt {op : Operation} {a : Artifact} (hs : w.started = true) :
    (attempt w inv disk op a).disk = (removal w inv disk op a).1 := by
  unfold attempt
  rw [if_pos hs]
  split <;> rfl

theorem authorized_attempt {op : Operation} {a : Artifact} (hop : inv.operation key = some op)
    (ha : inv.artifact op.artifact = some a) (hkeep : a.keep = false) (hhold : a.hold = none)
    (howned : a.owned = true) : Authorized inv disk key (attempt w inv disk op a) := by
  cases hs : w.started with
  | false =>
    have heq : attempt w inv disk op a = ⟨inv, disk, .error .sql⟩ := by
      rw [attempt, if_neg (by rw [hs]; decide)]
    rw [heq]
    exact authorized_of_unchanged rfl fun _ => rfl
  | true =>
    obtain ⟨hcase, haway⟩ := @removeTree_spec w (inv.begin op a) disk op.begun.attempts a.deleting
    have hdisk : (attempt w inv disk op a).disk = (removal w inv disk op a).1 := disk_attempt hs
    refine ⟨fun p o ho hgone => ?_, fun op' b q o hop' hb hq ho hl => ?_, fun p o ho => ?_,
      fun k a' ha' hstate => ?_⟩
    · rw [hdisk] at hgone
      rcases hcase with hsame | ⟨hroot, hpayload, -, hshrinks⟩
      · rw [removal, hsame, ho] at hgone
        cases hgone
      · refine ⟨op, a, hop, ha, ⟨howned, hkeep, hhold, hroot, hpayload⟩, ?_⟩
        rcases hshrinks.gone ho hgone with hp | ⟨q, o', hq, hp, ho', hk, hl⟩
        · exact .inl hp
        · rw [ho] at ho'
          obtain rfl := Option.some.inj ho'
          exact .inr ⟨q, hq, hp, hk, hl⟩
    · obtain rfl := Option.some.inj (hop.symm.trans hop')
      obtain rfl := Option.some.inj (ha.symm.trans hb)
      rw [hdisk]
      rcases hcase with hsame | ⟨-, -, hall, -⟩
      · exact hsame
      · exact absurd (hall q o hq ho) hl
    · rw [hdisk] at ho
      rcases hcase with hsame | ⟨-, -, -, hshrinks⟩
      · rw [removal, hsame] at ho
        exact ho
      · exact hshrinks.of_some ho
    · rcases artifact_attempt hs ha' hstate with hsame | ⟨hpath, hnone⟩
      · exact .inl hsame
      · right
        rw [hdisk, hpath]
        exact haway hnone

end Authorized

/-- **A deletion removes what it has the authority for,** whatever the rows say and
whatever there is on the disk: an attempt that finds what another has left included. -/
theorem executeDelete_authorized (w : Answers) (inv : Inventory) (disk : Disk) (key : Text) :
    Authorized inv disk key (executeDelete w inv disk key) := by
  unfold executeDelete
  split
  · exact authorized_of_unchanged rfl fun _ => rfl
  · next op hop =>
    split
    · exact authorized_of_unchanged rfl fun _ => rfl
    split
    · exact authorized_of_unchanged rfl fun _ => rfl
    split
    · exact authorized_of_unchanged rfl fun _ => rfl
    · next a _ revision _ automatic ha _ =>
      split
      · split
        · exact authorized_of_unchanged rfl fun k => Inventory.artifact_saveOperation _ _ _
        · exact authorized_of_unchanged rfl fun _ => rfl
      split
      · exact authorized_of_unchanged rfl fun _ => rfl
      · next hfree =>
        simp only [not_or, Bool.not_eq_true, Option.isSome_eq_false_iff, Option.isNone_iff_eq_none,
          Bool.not_eq_false] at hfree
        exact authorized_attempt hop ha hfree.1 hfree.2.1 hfree.2.2
    · exact authorized_of_unchanged rfl fun _ => rfl

end Nzbd.Artifacts
