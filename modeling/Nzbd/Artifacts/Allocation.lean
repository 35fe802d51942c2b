import Nzbd.Artifacts.Policy

/-!
# Allocation

A row is written before the directory it is for is made, and once more after the directory has its
sidecar.  If anything fails in between, the row stays as it is, and the same call is refused from
then on: the job has an allocation already.

Whether a path is free is asked of the disk and not of the rows, but when a directory is discovered;
and the old row of a job is put aside even when the payload is gone, which brings it back.
`Careful` is that none of this happens.  `unambiguous_of_run` is that there is one row for a path
and one for a job then, and that no allocation is refused that was not refused before.
-/

namespace Nzbd.Artifacts

open List Runs Inventory Table

/-! ### The calls -/

structure AllocationAnswers where
  /-- What verification has against the row that is there already. -/
  verified : Option Error
  absolute : Bool
  root : Option Identity
  taken : Bool
  /-- The row is written. -/
  saved : Bool
  made : Bool
  synced : Bool
  opened : Option Identity
  sidecar : Bool
  /-- The row is written again. -/
  activated : Bool

/-- From the row on. -/
def AllocationAnswers.bind (w : AllocationAnswers) (inv : Inventory) (a : Artifact) :
    Inventory × Except Error Artifact :=
  if w.made = false ∨ w.synced = false then (inv, .error (.io .other))
  else
    match w.opened with
    | none => (inv, .error (.io .other))
    | some identity =>
      let a := { a with identity := some identity }
      if w.sidecar = false then (inv, .error (.io .other))
      else
        let inv := (Write.sidecar (a.sidecar inv)).apply inv
        let a := { a with state := .active }
        if w.activated = false then (inv, .error .sql) else (inv.saveArtifact a, .ok a)

def allocate (w : AllocationAnswers) (inv : Inventory) (id generation : Text) (job : JobId)
    (root path : OsPath) (now : Int) : Inventory × Except Error Artifact :=
  match inv.forJob job with
  | some a =>
    if a.path = path ∧ a.state = .active then
      (inv, match w.verified with
        | none => .ok a
        | some e => .error e)
    else
      (inv, .error (.conflict (text "job already owns a different or terminal allocation")))
  | none =>
    if w.absolute = false then
      (inv, .error (.conflict (text "an absolute path without dot components is required")))
    else if path = [] ∨ path.dropLast ≠ root then
      (inv, .error (.conflict (text "allocation must be an immediate child of its root")))
    else
      match w.root with
      | none => (inv, .error (.io .other))
      | some rootIdentity =>
        if w.taken then
          (inv, .error (.conflict (text "existing payload needs explicit ownership review")))
        else if w.saved = false then (inv, .error .sql)
        else
          let a := Inventory.newRow id generation (some job) root path rootIdentity none .allocating
            true false none now
          w.bind (inv.saveArtifact a) a

structure LegacyAnswers where
  there : Bool
  verified : Bool
  /-- The old row is put aside. -/
  disowned : Bool
  seen : Option Seen
  /-- The new row is written. -/
  discovered : Bool
  attached : Bool

/-- The row at the path becomes that of the job; if there is none it is made. -/
def LegacyAnswers.attach (w : LegacyAnswers) (inv : Inventory) (id generation : Text) (job : JobId)
    (root path : OsPath) (now : Int) : Inventory :=
  if path = [] ∨ path.dropLast ≠ root then inv
  else
    let inv := commit (if w.discovered then 1 else 0)
      (inv.discover id generation root path true w.seen now) inv
    commit (if w.attached then 1 else 0) (inv.engage job path) inv

def registerLegacyActive (w : LegacyAnswers) (inv : Inventory) (id generation : Text) (job : JobId)
    (root path : OsPath) (now : Int) : Inventory :=
  if w.there = false then inv
  else
    match inv.forJob job with
    | none => w.attach inv id generation job root path now
    | some a =>
      if a.path = path ∧ w.verified then inv
      else if w.disowned then
        w.attach (commit 1 (inv.disown job path w.verified) inv) id generation job root path now
      else inv

/-- A call with these can succeed, if nothing fails. -/
def grantable (inv : Inventory) (job : JobId) (root path : OsPath) : Bool :=
  match inv.forJob job with
  | some a => a.path = path && a.state = .active
  | none => path ≠ [] && path.dropLast = root

namespace AllocationAnswers

variable (w : AllocationAnswers)

/-- The row is written. -/
def reaches (inv : Inventory) (job : JobId) (root path : OsPath) : Bool :=
  (inv.forJob job).isNone && w.absolute && path ≠ [] && path.dropLast = root && w.root.isSome &&
    !w.taken && w.saved

/-- And so is all that comes after it. -/
def completes : Bool := w.made && w.synced && w.opened.isSome && w.sidecar && w.activated

end AllocationAnswers

/-! ### The system -/

/-- An allocation that has failed: could it succeed before, and can it after? -/
structure Failure where
  before : Bool
  after : Bool
  deriving DecidableEq

structure Registry where
  inventory : Inventory
  disk : Disk
  failures : List Failure

inductive RegistryStep
  | allocate (w : AllocationAnswers) (id generation : Text) (job : JobId) (root path : OsPath)
      (now : Int)
  | registerLegacyActive (w : LegacyAnswers) (id generation : Text) (job : JobId)
      (root path : OsPath) (now : Int)
  /-- The first `n` transactions. -/
  | rows (c : RowStep) (n : Nat)
  | executeDelete (key : Text) (w : Answers)
  | outside (disk : Disk)

/-- Discovery, finalization, relocation and deletion. -/
def RowStep.listed : RowStep → Bool
  | .discover .. => true
  | .finish .. => true
  | .relocate .. => true
  | .relocateScratch .. => true
  | .commitRelocation .. => true
  | .failRelocation .. => true
  | .requestDelete .. => true
  | .cancelDelete .. => true
  | _ => false

/-- No row at the path is live, but for that with this id. -/
def Inventory.Alone (inv : Inventory) (path : OsPath) (own : Text) : Prop :=
  ∀ b ∈ inv.artifacts, b.terminal = false → b.path = path → b.id = own

def scratchPath (key : Text) (m : Relocation) : OsPath :=
  m.destination.dropLast ++ [((text ".runner-" ++ key).map fun c => UInt8.ofNat c.toNat)]

/-- A movement goes somewhere else, and no job has its copy. -/
def Request.Planned : Request → Prop
  | .relocate m => m.source.path ≠ m.destination ∧
    ∀ scratch, m.scratch = some scratch → scratch.job = none
  | _ => True

namespace Registry

def step (s : Registry) : RegistryStep → Registry
  | .allocate w id generation job root path now =>
    let r := Artifacts.allocate w s.inventory id generation job root path now
    { s with
      inventory := r.1
      failures := (match r.2 with
        | .ok _ => []
        | .error _ => [⟨grantable s.inventory job root path, grantable r.1 job root path⟩]) ++
          s.failures }
  | .registerLegacyActive w id generation job root path now =>
    { s with
      inventory := Artifacts.registerLegacyActive w s.inventory id generation job root path now }
  | .rows c n => { s with inventory := commit n (c.txs s.inventory) s.inventory }
  | .executeDelete key w =>
    let d := Artifacts.executeDelete w s.inventory s.disk key
    { s with inventory := d.inventory, disk := d.disk }
  | .outside disk => { s with disk := disk }

def Listed (_ : Registry) : RegistryStep → Prop
  | .rows c _ => c.listed = true
  | _ => True

/-- **The condition on a step.**  What comes after the row of an allocation does not fail; no other
live row has the path that is allocated, moved to or copied to; and no row that is terminal comes
back where another is live. -/
def Careful (s : Registry) : RegistryStep → Prop
  | .allocate w id _ job root path _ => w.reaches s.inventory job root path = true →
    w.completes = true ∧ s.inventory.Alone path id
  | .registerLegacyActive w _ _ job _ path _ => w.there = true → w.disowned = true →
    ∀ a, s.inventory.forJob job = some a → a.path ≠ path → a.terminal = true →
      s.inventory.Alone a.path a.id
  | .rows (.relocateScratch key ..) _ => ∀ op m, s.inventory.movement key = some (op, m) →
    s.inventory.Alone (scratchPath key m) (text "scratch-" ++ key)
  | .rows (.commitRelocation key ..) _ => ∀ op m, s.inventory.movement key = some (op, m) →
    s.inventory.Alone m.destination m.source.id ∧ (m.scratch.isSome = true →
      ∀ b ∈ s.inventory.artifacts, b.terminal = false → b.path = m.source.path →
        b.id = m.source.id ∨ b.id = text "source-" ++ key)
  | .rows (.failRelocation key ..) _ => ∀ op m, s.inventory.movement key = some (op, m) →
    (∀ scratch row, m.scratch = some scratch → s.inventory.artifact scratch.id = some row →
      row.terminal = false) ∧
    ∀ a, s.inventory.artifact m.source.id = some a → a.terminal = false
  | .executeDelete key _ => ∀ op a, s.inventory.operation key = some op →
    s.inventory.artifact op.artifact = some a → a.terminal = true → s.inventory.Alone a.path a.id
  | _ => True

/-- **What is claimed.** -/
structure Unambiguous (s : Registry) : Prop where
  retryable : ∀ f ∈ s.failures, f.before = true → f.after = true
  paths : ∀ a ∈ s.inventory.artifacts, ∀ b ∈ s.inventory.artifacts, a.terminal = false →
    b.terminal = false → a.path = b.path → a = b
  jobs : ∀ a ∈ s.inventory.artifacts, ∀ b ∈ s.inventory.artifacts, a.terminal = false →
    b.terminal = false → a.job.isSome = true → a.job = b.job → a = b

/-- The tables as the operations leave them. -/
structure Clear (inv : Inventory) : Prop where
  keys : (inv.artifacts.map Artifact.id).Nodup
  /-- A job has one row, live or not. -/
  jobs : ∀ a ∈ inv.artifacts, ∀ b ∈ inv.artifacts, ∀ j, a.job = some j → b.job = some j → a.id = b.id
  paths : ∀ a ∈ inv.artifacts, ∀ b ∈ inv.artifacts, a.terminal = false → b.terminal = false →
    a.path = b.path → a.id = b.id
  requests : ∀ op ∈ inv.operations, op.request.Planned

/-- Nothing has failed yet. -/
structure Start (s : Registry) : Prop where
  clear : Clear s.inventory
  failures : s.failures = []

/-- The runs of the operations whose steps meet a condition. -/
def Reached (ok : Registry → RegistryStep → Prop) : Registry → Prop :=
  Run Start (fun s i s' => s' = s.step i) fun s i => s.Listed i ∧ ok s i

end Registry

/-! ### An allocation -/

section Allocate

variable {w : AllocationAnswers} {inv : Inventory} {id generation : Text} {job : JobId}
  {root path : OsPath} {now : Int}

theorem forJob_eq_none (h : inv.forJob job = none) : ∀ a ∈ inv.artifacts, a.job ≠ some job := by
  have hlast : ∀ (rows : List Artifact) (best : Option Artifact), best.isSome ∨ rows ≠ [] →
      (rows.foldl (fun best a => match best with
        | none => some a
        | some b => if b.updatedAt < a.updatedAt then some a else some b) best).isSome := by
    intro rows
    induction rows with
    | nil => exact fun best h => h.resolve_right fun hne => hne rfl
    | cons r rows ih =>
      intro best _
      refine ih _ (.inl ?_)
      cases best with
      | none => rfl
      | some b =>
        simp only
        split <;> rfl
  intro a ha hjob
  have hmem : a ∈ inv.artifacts.filter (·.job = some job) := mem_filter.mpr ⟨ha, by simp [hjob]⟩
  have hsome : (inv.forJob job).isSome = true := hlast _ none (.inr (ne_nil_of_mem hmem))
  rw [h] at hsome
  cases hsome

variable {a : Artifact}

theorem forJob_of_unique (ha : a ∈ inv.artifacts) (hjob : a.job = some job)
    (hunique : ∀ b ∈ inv.artifacts, b.job = some job → b = a) : inv.forJob job = some a := by
  cases h : inv.forJob job with
  | none => exact absurd hjob (forJob_eq_none h a ha)
  | some b =>
    obtain ⟨hb, hbjob⟩ := mem_of_forJob h
    rw [hunique b hb hbjob]

/-- The row as it is written first. -/
def allocating (id generation : Text) (job : JobId) (root path : OsPath) (rootIdentity : Identity)
    (now : Int) : Artifact :=
  Inventory.newRow id generation (some job) root path rootIdentity none .allocating true false none now

theorem allocate_of_not_reaches (h : w.reaches inv job root path = false) :
    (allocate w inv id generation job root path now).1 = inv := by
  unfold allocate
  unfold AllocationAnswers.reaches at h
  cases hjob : inv.forJob job with
  | some a => simp only; split <;> rfl
  | none =>
    by_cases hpath : path = [] ∨ path.dropLast ≠ root
    · simp only [hpath, if_true]
      split <;> rfl
    · obtain ⟨hne, hroot⟩ := not_or.mp hpath
      rw [Decidable.not_not] at hroot
      cases habsolute : w.absolute <;> cases hdir : w.root <;> cases htaken : w.taken <;>
        cases hsaved : w.saved <;> simp_all

theorem allocate_of_reaches (h : w.reaches inv job root path = true) : ∃ rootIdentity,
    allocate w inv id generation job root path now =
      w.bind (inv.saveArtifact (allocating id generation job root path rootIdentity now))
        (allocating id generation job root path rootIdentity now) := by
  simp only [AllocationAnswers.reaches, Bool.and_eq_true, Option.isNone_iff_eq_none,
    decide_eq_true_eq, Bool.not_eq_true', Option.isSome_iff_exists] at h
  obtain ⟨⟨⟨⟨⟨⟨hjob, habsolute⟩, hne⟩, hroot⟩, rootIdentity, hdir⟩, htaken⟩, hsaved⟩ := h
  refine ⟨rootIdentity, ?_⟩
  simp [allocate, hjob, habsolute, hne, hroot, hdir, htaken, hsaved, allocating]

theorem bind_eq (w : AllocationAnswers) (inv : Inventory) (a : Artifact) :
    ∃ ws : List Write, (w.bind inv a).1 = ws.foldl Write.apply inv ∧
    (∀ op, .operation op ∉ ws) ∧
    (∀ b, .artifact b ∈ ws → b.id = a.id ∧ b.job = a.job ∧ b.path = a.path) ∧
    (w.completes = true ∧ (∃ b, (w.bind inv a).2 = .ok b) ∨
      w.completes = false ∧ (∃ e, (w.bind inv a).2 = .error e) ∧ ∀ b, .artifact b ∉ ws) := by
  unfold AllocationAnswers.bind AllocationAnswers.completes
  by_cases hmade : w.made = false ∨ w.synced = false
  · refine ⟨[], by rw [if_pos hmade]; rfl, fun _ h => (by cases h), fun _ h => (by cases h), .inr ?_⟩
    rw [if_pos hmade]
    refine ⟨?_, ⟨_, rfl⟩, fun _ h => by cases h⟩
    rcases hmade with h | h <;> simp [h]
  · rw [if_neg hmade]
    obtain ⟨hmade, hsynced⟩ := not_or.mp hmade
    rw [Bool.not_eq_false] at hmade hsynced
    cases hopened : w.opened with
    | none =>
      exact ⟨[], rfl, fun _ h => (by cases h), fun _ h => (by cases h),
        .inr ⟨by simp, ⟨_, rfl⟩, fun _ h => by cases h⟩⟩
    | some identity =>
      cases hsidecar : w.sidecar with
      | false =>
        exact ⟨[], rfl, fun _ h => (by cases h), fun _ h => (by cases h),
          .inr ⟨by simp, ⟨_, rfl⟩, fun _ h => by cases h⟩⟩
      | true =>
        cases hactivated : w.activated with
        | false =>
          refine ⟨[.sidecar _], rfl, fun _ h => ?_, fun _ h => ?_,
            .inr ⟨by simp, ⟨_, rfl⟩, fun _ h => ?_⟩⟩ <;> cases mem_singleton.mp h
        | true =>
          refine ⟨[.sidecar _, .artifact _], rfl, fun _ h => ?_, fun b h => ?_,
            .inl ⟨by simp [hmade, hsynced], _, rfl⟩⟩
          · simp at h
          · rcases mem_cons.mp h with h | h
            · cases h
            · rw [Write.artifact.inj (mem_singleton.mp h)]
              exact ⟨rfl, rfl, rfl⟩

theorem artifacts_of_no_rows {ws : List Write} (h : ∀ a, .artifact a ∉ ws) (inv : Inventory) :
    (ws.foldl Write.apply inv).artifacts = inv.artifacts := by
  induction ws generalizing inv with
  | nil => rfl
  | cons w ws ih =>
    refine (ih (fun a ha => h a (mem_cons_of_mem _ ha)) (w.apply inv)).trans ?_
    cases w with
    | artifact a => exact absurd mem_cons_self (h a)
    | _ => rfl

/-- **A failed call can be made again just if its row has not been written.** -/
theorem retry_iff {e : Error} (h : (allocate w inv id generation job root path now).2 = .error e) :
    (grantable inv job root path = true →
      grantable (allocate w inv id generation job root path now).1 job root path = true) ↔
    w.reaches inv job root path = false := by
  constructor
  · intro hretry
    by_contra hreaches
    rw [Bool.not_eq_false] at hreaches
    obtain ⟨rootIdentity, heq⟩ : ∃ rootIdentity, allocate w inv id generation job root path now = _ :=
      allocate_of_reaches hreaches
    rw [heq] at h hretry
    obtain ⟨ws, hws, -, -, ⟨-, b, hok⟩ | ⟨-, -, hnone⟩⟩ := bind_eq w
      (inv.saveArtifact (allocating id generation job root path rootIdentity now))
      (allocating id generation job root path rootIdentity now)
    · rw [hok] at h
      cases h
    · simp only [AllocationAnswers.reaches, Bool.and_eq_true, Option.isNone_iff_eq_none,
        decide_eq_true_eq] at hreaches
      obtain ⟨⟨⟨⟨⟨⟨hjob, -⟩, hne⟩, hroot⟩, -⟩, -⟩, -⟩ := hreaches
      have hrows := (congrArg artifacts hws).trans (artifacts_of_no_rows hnone _)
      have hfound : (w.bind (inv.saveArtifact (allocating id generation job root path rootIdentity
          now)) (allocating id generation job root path rootIdentity now)).1.forJob job =
          some (allocating id generation job root path rootIdentity now) := by
        refine forJob_of_unique ?_ rfl fun b hb hbjob => ?_
        · rw [hrows]
          exact mem_of_get (artifact_saveArtifact_self _ _)
        · rw [hrows] at hb
          rcases mem_put hb with heq | ⟨hold, -⟩
          · exact heq
          · exact absurd hbjob (forJob_eq_none hjob b hold)
      have hbefore : grantable inv job root path = true := by simp [grantable, hjob, hne, hroot]
      have hafter := hretry hbefore
      rw [grantable, hfound] at hafter
      simp [allocating, newRow] at hafter
  · intro hreaches hgrantable
    rw [allocate_of_not_reaches hreaches]
    exact hgrantable

end Allocate

/-! ### What is written -/

section Clear

variable {inv : Inventory} {ws : List Write}

/-- What is written is in the way of nothing, and of nothing else that is written. -/
structure Distinct (inv : Inventory) (ws : List Write) : Prop where
  jobs : ∀ a, .artifact a ∈ ws → ∀ j, a.job = some j →
    (∀ b ∈ inv.artifacts, b.job = some j → b.id = a.id) ∧
    ∀ b, .artifact b ∈ ws → b.job = some j → b.id = a.id
  paths : ∀ a, .artifact a ∈ ws → a.terminal = false →
    (∀ b ∈ inv.artifacts, b.terminal = false → b.path = a.path →
      b.id = a.id ∨ ∃ c, .artifact c ∈ ws ∧ c.id = b.id) ∧
    ∀ b, .artifact b ∈ ws → b.terminal = false → b.path = a.path → b.id = a.id
  requests : ∀ op, .operation op ∈ ws → op.request.Planned ∨
    ∃ old ∈ inv.operations, old.request = op.request

theorem clear_foldl (h : Registry.Clear inv) (hw : Distinct inv ws) :
    Registry.Clear (ws.foldl Write.apply inv) where
  keys := keys_foldl h.keys
  jobs a ha b hb j haj hbj := by
    rcases mem_artifacts_foldl ha with ha | ⟨ha, -⟩
    · rcases mem_artifacts_foldl hb with hb | ⟨hb, -⟩
      · exact ((hw.jobs a ha j haj).2 b hb hbj).symm
      · exact ((hw.jobs a ha j haj).1 b hb hbj).symm
    · rcases mem_artifacts_foldl hb with hb | ⟨hb, -⟩
      · exact (hw.jobs b hb j hbj).1 a ha haj
      · exact h.jobs a ha b hb j haj hbj
  paths a ha b hb halive hblive hpath := by
    rcases mem_artifacts_foldl ha with ha | ⟨ha, hakept⟩
    · rcases mem_artifacts_foldl hb with hb | ⟨hb, hbkept⟩
      · exact ((hw.paths a ha halive).2 b hb hblive hpath.symm).symm
      · rcases (hw.paths a ha halive).1 b hb hblive hpath.symm with hid | ⟨c, hc, hid⟩
        · exact hid.symm
        · exact absurd hid (hbkept c hc)
    · rcases mem_artifacts_foldl hb with hb | ⟨hb, -⟩
      · rcases (hw.paths b hb hblive).1 a ha halive hpath with hid | ⟨c, hc, hid⟩
        · exact hid
        · exact absurd hid (hakept c hc)
      · exact h.paths a ha b hb halive hblive hpath
  requests op hop := by
    rcases mem_operations_foldl hop with hold | hnew
    · exact h.requests op hold
    · rcases hw.requests op hnew with hplanned | ⟨old, hold, hrequest⟩
      · exact hplanned
      · exact hrequest ▸ h.requests old hold

/-- A row that is in the way of none of the rows there are. -/
structure Modest (inv : Inventory) (a : Artifact) : Prop where
  job : ∀ j, a.job = some j → ∀ b ∈ inv.artifacts, b.job = some j → b.id = a.id
  path : a.terminal = false → inv.Alone a.path a.id

theorem Modest.of_row (h : Registry.Clear inv) {a a' : Artifact}
    (ha : inv.artifact a'.id = some a) (hjob : a'.job = none ∨ a'.job = a.job)
    (hpath : a'.path = a.path)
    (hlive : a'.terminal = true ∨ (a.terminal = true → inv.Alone a.path a.id)) : Modest inv a' where
  job j hj b hb hbj := by
    rcases hjob with hnone | hsame
    · rw [hnone] at hj
      cases hj
    · exact (h.jobs b hb a (mem_of_get ha) j hbj (hsame.symm.trans hj)).trans
        (key_of_get ha)
  path hterminal b hb hblive hbpath := by
    have hid : a.id = a'.id := key_of_get ha
    rw [hpath] at hbpath
    rcases hlive with hgone | hback
    · rw [hgone] at hterminal
      cases hterminal
    · cases hal : a.terminal with
      | true => exact (hback hal b hb hblive hbpath).trans hid
      | false => exact (h.paths b hb a (mem_of_get ha) hblive hal hbpath).trans hid

theorem modest_of_live (h : Registry.Clear inv) (ha : inv.artifact a.id = some a)
    (hlive : a.terminal = false) {a' : Artifact} (hid : a'.id = a.id) (hjob : a'.job = a.job)
    (hpath : a'.path = a.path) : Modest inv a' :=
  .of_row h (hid ▸ ha) (.inr hjob) hpath (.inr fun hterminal => by
    rw [hlive] at hterminal
    cases hterminal)

theorem Distinct.one (key : Text) (hrows : ∀ a, .artifact a ∈ ws → a.id = key ∧ Modest inv a)
    (hrequests : ∀ op, .operation op ∈ ws → op.request.Planned ∨
      ∃ old ∈ inv.operations, old.request = op.request) : Distinct inv ws where
  jobs a ha j hj := ⟨(hrows a ha).2.job j hj, fun b hb _ => (hrows b hb).1.trans (hrows a ha).1.symm⟩
  paths a ha hlive := ⟨fun b hb hblive hpath => .inl ((hrows a ha).2.path hlive b hb hblive hpath),
    fun b hb _ _ => (hrows b hb).1.trans (hrows a ha).1.symm⟩
  requests := hrequests

theorem Distinct.moved (h : Registry.Clear inv)
    (hrows : ∀ a', .artifact a' ∈ ws → ∃ a, inv.artifact a'.id = some a ∧ a'.job = a.job ∧
      a'.path = a.path ∧ a.terminal = false)
    (hrequests : ∀ op, .operation op ∈ ws → op.request.Planned ∨
      ∃ old ∈ inv.operations, old.request = op.request) : Distinct inv ws where
  jobs a' ha' j hj := by
    obtain ⟨a, ha, hjob, -, -⟩ := hrows a' ha'
    have hid : a.id = a'.id := key_of_get ha
    refine ⟨fun b hb hbj => ?_, fun b' hb' hbj => ?_⟩
    · exact (h.jobs b hb a (mem_of_get ha) j hbj (hjob.symm.trans hj)).trans hid
    · obtain ⟨b, hb, hbjob, -, -⟩ := hrows b' hb'
      have hbid : b.id = b'.id := key_of_get hb
      exact hbid.symm.trans ((h.jobs b (mem_of_get hb) a (mem_of_get ha) j
        (hbjob.symm.trans hbj) (hjob.symm.trans hj)).trans hid)
  paths a' ha' _ := by
    obtain ⟨a, ha, -, hpath, hlive⟩ := hrows a' ha'
    have hid : a.id = a'.id := key_of_get ha
    refine ⟨fun b hb hblive hbpath => .inl ?_, fun b' hb' _ hbpath => ?_⟩
    · exact (h.paths b hb a (mem_of_get ha) hblive hlive (hbpath.trans hpath)).trans hid
    · obtain ⟨b, hb, -, hpath', hblive⟩ := hrows b' hb'
      have hbid : b.id = b'.id := key_of_get hb
      exact hbid.symm.trans ((h.paths b (mem_of_get hb) a (mem_of_get ha) hblive hlive
        (hpath'.symm.trans (hbpath.trans hpath))).trans hid)
  requests := hrequests

/-- All that is written is for one row. -/
def OnRow (inv : Inventory) (key : Text) (txs : List Tx) : Prop :=
  ∀ tx ∈ txs, ∀ w ∈ tx, match w with
    | .artifact a => a.id = key ∧ Modest inv a
    | .operation op => op.request.Planned ∨ ∃ old ∈ inv.operations, old.request = op.request
    | _ => True

theorem onRow_nil (key : Text) : OnRow inv key [] := fun _ h => by cases h

variable {key : Text}

theorem onRow_cons {tx : Tx} {txs : List Tx} :
    OnRow inv key (tx :: txs) ↔ OnRow inv key [tx] ∧ OnRow inv key txs := by
  simp only [OnRow, forall_mem_cons, not_mem_nil, false_implies, implies_true, and_true]

theorem onRow_artifact (h : Modest inv a) : OnRow inv a.id [[.artifact a]] := by
  intro tx htx w hw
  rw [mem_singleton.mp htx] at hw
  rw [mem_singleton.mp hw]
  exact ⟨rfl, h⟩

theorem clear_commit (key : Text) (h : Registry.Clear inv) {txs : List Tx}
    (hrow : OnRow inv key txs) (n : Nat) : Registry.Clear (commit n txs inv) := by
  have hmem : ∀ w ∈ (txs.take n).flatten, ∃ tx ∈ txs, w ∈ tx := fun w hw => by
    obtain ⟨tx, htx, hw⟩ := mem_flatten.mp hw
    exact ⟨tx, mem_of_mem_take htx, hw⟩
  refine clear_foldl h (.one key (fun a ha => ?_) fun op hop => ?_)
  · obtain ⟨tx, htx, hw⟩ := hmem _ ha
    exact hrow tx htx _ hw
  · obtain ⟨tx, htx, hw⟩ := hmem _ hop
    exact hrow tx htx _ hw

theorem clear_marked (h : Registry.Clear inv) {m : Sidecar} (ha : Modest inv a)
    (n : Nat) : Registry.Clear (commit n [[.sidecar m], [.artifact a]] inv) := by
  refine clear_commit _ h (onRow_cons.mpr ⟨fun tx htx w hw => ?_, onRow_artifact ha⟩) n
  rw [mem_singleton.mp htx] at hw
  rw [mem_singleton.mp hw]
  trivial

theorem modest_of_fresh (hjob : a.job = none)
    (hpath : a.terminal = false → inv.Alone a.path a.id) : Modest inv a where
  job j hj := by
    rw [hjob] at hj
    cases hj
  path := hpath

variable {seen : Option Seen}

theorem clear_discover (h : Registry.Clear inv) {id generation : Text} {root path : OsPath}
    {active : Bool} {now : Int} (n : Nat) :
    Registry.Clear (commit n (inv.discover id generation root path active seen now) inv) := by
  unfold discover
  split
  · exact clear_commit id h (onRow_nil _) n
  · next hfree =>
    cases seen with
    | none => exact clear_commit id h (onRow_nil _) n
    | some seen =>
      refine clear_commit _ h (onRow_artifact (modest_of_fresh rfl fun _ b hb hlive hpath => ?_)) n
      -- the rows have been looked through
      have hpath : b.path = path := hpath
      exact absurd (any_eq_true.mpr ⟨b, hb, by simp [hlive, hpath]⟩)
        (not_or.mp (not_or.mp hfree).2).2

variable {job : JobId}

theorem clear_finish (h : Registry.Clear inv) {path root : OsPath}
    {state : ArtifactState} {now : Int} (n : Nat) :
    Registry.Clear (commit n (inv.finish job path root state seen now) inv) := by
  unfold finish
  split
  · next a seen ha =>
    have hget := get_of_mem h.keys (mem_of_forJob ha).1
    split
    · exact clear_commit a.id h (onRow_nil _) n
    split
    · exact clear_commit a.id h (onRow_nil _) n
    split
    · exact clear_commit a.id h (onRow_nil _) n
    · next hstate =>
      split
      · exact clear_commit a.id h (onRow_nil _) n
      · have hlive : a.terminal = false := by
          rw [Decidable.not_not] at hstate
          simp only [mem_cons, not_mem_nil, or_false] at hstate
          rcases hstate with hs | hs | hs | hs <;> simp [Artifact.terminal, hs]
        refine clear_marked h ?_ n
        exact modest_of_live h hget hlive rfl rfl rfl
  · exact clear_commit [] h (onRow_nil _) n

theorem clear_requests (h : Registry.Clear inv) {op : Operation}
    (hrequest : op.request.Planned ∨ ∃ old ∈ inv.operations, old.request = op.request) (n : Nat) :
    Registry.Clear (commit n [[.operation op]] inv) := by
  refine clear_commit op.artifact h (fun tx htx w hw => ?_) n
  rw [mem_singleton.mp htx] at hw
  rw [mem_singleton.mp hw]
  exact hrequest

theorem clear_requestDelete (h : Registry.Clear inv) {revision : Nat}
    {requestId : Text} {undoSeconds : Nat} {now : Int} (n : Nat) : Registry.Clear
      (commit n (inv.requestDelete key revision requestId undoSeconds false now) inv) := by
  unfold requestDelete
  split
  · exact clear_commit key h (onRow_nil _) n
  split
  · exact clear_commit key h (onRow_nil _) n
  split
  · exact clear_commit key h (onRow_nil _) n
  · refine clear_requests h ?_ n
    exact .inl trivial

theorem clear_cancelDelete (h : Registry.Clear inv) (n : Nat) :
    Registry.Clear (commit n (inv.cancelDelete key) inv) := by
  unfold cancelDelete
  split
  · exact clear_commit key h (onRow_nil _) n
  · next op hop =>
    split
    · refine clear_requests h ?_ n
      exact .inr ⟨op, mem_of_get hop, rfl⟩
    · exact clear_commit key h (onRow_nil _) n

theorem clear_relocate (h : Registry.Clear inv) {destination : OsPath}
    {destinationRoot : Identity} {taken : Bool} (n : Nat) : Registry.Clear
      (commit n (inv.relocate job destination destinationRoot taken seen) inv) := by
  unfold relocate
  split
  · next a seen ha =>
    have hget := get_of_mem h.keys (mem_of_forJob ha).1
    split
    · exact clear_commit a.id h (onRow_nil _) n
    · next hgo =>
      simp only [not_or, Decidable.not_not] at hgo
      obtain ⟨hne, hstate, -, -⟩ := hgo
      have hlive : a.terminal = false := by simp [Artifact.terminal, hstate]
      refine clear_commit a.id h (fun tx htx w hw => ?_) n
      rw [mem_singleton.mp htx] at hw
      rcases mem_cons.mp hw with rfl | hw
      · exact ⟨rfl, modest_of_live h hget hlive rfl rfl rfl⟩
      · rw [mem_singleton.mp hw]
        exact .inl ⟨hne, fun _ hs => by cases hs⟩
  · exact clear_commit [] h (onRow_nil _) n

theorem planned_of_movement (h : Registry.Clear inv) {op : Operation} {m : Relocation}
    (hm : inv.movement key = some (op, m)) : (Request.relocate m).Planned ∧
      ∃ old ∈ inv.operations, old.request = op.request := by
  obtain ⟨hop, hrequest⟩ := movement_eq_some hm
  have hmem := mem_of_get hop
  exact ⟨hrequest ▸ h.requests op hmem, op, hmem, rfl⟩

theorem clear_relocateScratch (h : Registry.Clear inv) {key generation : Text}
    {identity : Identity} {files : List FileEntry} (n : Nat)
    (halone : ∀ op m, inv.movement key = some (op, m) →
      inv.Alone (scratchPath key m) (text "scratch-" ++ key)) :
    Registry.Clear (commit n (inv.relocateScratch key generation identity files) inv) := by
  unfold relocateScratch
  split
  · exact clear_commit key h (onRow_nil _) n
  · next op m hm =>
    refine clear_commit (text "scratch-" ++ key) h (fun tx htx w hw => ?_) n
    simp only [mem_cons, not_mem_nil, or_false] at htx
    rcases htx with rfl | rfl | rfl
    · rw [mem_singleton.mp hw]
      trivial
    · rw [mem_singleton.mp hw]
      exact ⟨rfl, modest_of_fresh rfl fun _ => halone op m hm⟩
    · rw [mem_singleton.mp hw]
      refine .inl ⟨(planned_of_movement h hm).1.1, fun scratch hscratch => ?_⟩
      rw [← Option.some.inj hscratch]

theorem clear_failRelocation (h : Registry.Clear inv) {error : Error} {there : Bool}
    (n : Nat) (hlive : ∀ op m, inv.movement key = some (op, m) →
      (∀ scratch row, m.scratch = some scratch → inv.artifact scratch.id = some row →
        row.terminal = false) ∧
      ∀ a, inv.artifact m.source.id = some a → a.terminal = false) :
    Registry.Clear (commit n (inv.failRelocation key error there) inv) := by
  unfold failRelocation
  split
  · exact clear_commit key h (onRow_nil _) n
  · next op m hm =>
    obtain ⟨hcopy, hsource⟩ := hlive op m hm
    have hold := (planned_of_movement h hm).2
    refine clear_foldl h (.moved h (fun a' ha' => ?_) fun op' hop' => ?_)
    · obtain ⟨tx, htx, hw⟩ := mem_flatten.mp ha'
      have htx := mem_of_mem_take htx
      rcases mem_append.mp htx with htx | htx
      · rcases mem_append.mp htx with htx | htx
        · rw [mem_singleton.mp htx] at hw
          cases mem_singleton.mp hw
        · unfold retainScratch at htx
          split at htx
          · cases htx
          · next scratch hscratch =>
            split at htx
            · cases htx
            · next row hrow =>
              rw [mem_singleton.mp htx] at hw
              rw [Write.artifact.inj (mem_singleton.mp hw)]
              exact ⟨row, artifact_id hrow, rfl, rfl, hcopy scratch row hscratch hrow⟩
      · split at htx
        · cases htx
        · next a ha =>
          split at htx
          · rw [mem_singleton.mp htx] at hw
            rw [Write.artifact.inj (mem_singleton.mp hw)]
            exact ⟨a, artifact_id ha, rfl, rfl, hsource a ha⟩
          · cases htx
    · obtain ⟨tx, htx, hw⟩ := mem_flatten.mp hop'
      have htx := mem_of_mem_take htx
      rcases mem_append.mp htx with htx | htx
      · rcases mem_append.mp htx with htx | htx
        · rw [mem_singleton.mp htx] at hw
          rw [Write.operation.inj (mem_singleton.mp hw)]
          exact .inr hold
        · unfold retainScratch at htx
          split at htx
          · cases htx
          · split at htx
            · cases htx
            · rw [mem_singleton.mp htx] at hw
              cases mem_singleton.mp hw
      · split at htx
        · cases htx
        · split at htx
          · rw [mem_singleton.mp htx] at hw
            cases mem_singleton.mp hw
          · cases htx

/-- The row of the payload at its destination. -/
def settled (m : Relocation) (seen : Seen) (a : Artifact) : Artifact :=
  { a with
    path := m.destination
    root := m.destination.dropLast
    rootIdentity := m.destinationRoot
    identity := some seen.identity
    files := seen.files
    state := .active
    revision := a.revision + 2 }

/-- The rows of a movement that is committed: the payload at its destination, and if it has been
copied what was the copy and what is left at the source. -/
theorem clear_committed (now : Int) (current : Artifact) (h : Registry.Clear inv)
    {m : Relocation} (hplanned : (Request.relocate m).Planned)
    (hdestination : inv.Alone m.destination m.source.id)
    (hsource : m.scratch.isSome = true → ∀ b ∈ inv.artifacts, b.terminal = false →
      b.path = m.source.path → b.id = m.source.id ∨ b.id = text "source-" ++ key)
    (ha : inv.artifact m.source.id = some a) (hid : current.id = m.source.id)
    (hjob : current.job = a.job) (hpath : current.path = m.destination)
    (hrows : ∀ x, .artifact x ∈ ws → .artifact current ∈ ws ∧ (x = current ∨ ∃ scratch,
      m.scratch = some scratch ∧ (x = { scratch with state := .sourceGone, updatedAt := now } ∨
        x = Inventory.retired key m current.keep)))
    (hops : ∀ op, .operation op ∈ ws → op.request.Planned ∨
      ∃ old ∈ inv.operations, old.request = op.request) :
    Registry.Clear (ws.foldl Write.apply inv) := by
  obtain ⟨hmoved, hjobless⟩ := hplanned
  refine clear_foldl h ⟨fun x hx j hj => ?_, fun x hx hlive => ?_, hops⟩
  · have honly : ∀ y, .artifact y ∈ ws → y.job = some j → y = current := by
      intro y hy hyj
      rcases (hrows y hy).2 with hcur | ⟨scratch, hscratch, rfl | rfl⟩
      · exact hcur
      · have hnone : scratch.job = some j := hyj
        rw [hjobless scratch hscratch] at hnone
        cases hnone
      · cases hyj
    obtain rfl := honly x hx hj
    refine ⟨fun b hb hbj => ?_, fun y hy hyj => congrArg Artifact.id (honly y hy hyj)⟩
    have haid : a.id = m.source.id := key_of_get ha
    exact (h.jobs b hb a (mem_of_get ha) j hbj (hjob.symm.trans hj)).trans (haid.trans hid.symm)
  · rcases (hrows x hx).2 with rfl | ⟨scratch, hscratch, rfl | rfl⟩
    · refine ⟨fun b hb hblive hbpath => .inl ?_, fun y hy hylive hypath => ?_⟩
      · exact (hdestination b hb hblive (hbpath.trans hpath)).trans hid.symm
      · rcases (hrows y hy).2 with rfl | ⟨_, _, rfl | rfl⟩
        · rfl
        · cases hylive
        · exact absurd (hypath.trans hpath) hmoved
    · cases hlive
    · refine ⟨fun b hb hblive hbpath => ?_, fun y hy hylive hypath => ?_⟩
      · rcases hsource (by rw [hscratch]; rfl) b hb hblive hbpath with hb | hb
        · -- the row of the payload leaves this place with the same transaction
          exact .inr ⟨current, (hrows _ hx).1, hid.trans hb.symm⟩
        · exact .inl hb
      · rcases (hrows y hy).2 with rfl | ⟨_, _, rfl | rfl⟩
        · exact absurd (hypath.symm.trans hpath) hmoved
        · cases hylive
        · rfl

theorem clear_nothing (h : Registry.Clear inv) (hrows : ∀ x, .artifact x ∉ ws)
    (hops : ∀ op, .operation op ∉ ws) : Registry.Clear (ws.foldl Write.apply inv) :=
  clear_foldl h ⟨fun x hx => absurd hx (hrows x), fun x hx => absurd hx (hrows x),
    fun op hop => absurd hop (hops op)⟩

theorem clear_commitRelocation (h : Registry.Clear inv)
    {now : Int} (n : Nat) (hfree : ∀ op m, inv.movement key = some (op, m) →
      inv.Alone m.destination m.source.id ∧ (m.scratch.isSome = true →
        ∀ b ∈ inv.artifacts, b.terminal = false → b.path = m.source.path →
          b.id = m.source.id ∨ b.id = text "source-" ++ key)) :
    Registry.Clear (commit n (inv.commitRelocation key seen now) inv) := by
  unfold commitRelocation
  split
  · next op m seen hm =>
    obtain ⟨hdestination, hsource⟩ := hfree op m hm
    obtain ⟨hplanned, hold⟩ := planned_of_movement h hm
    split
    · exact clear_commit key h (onRow_nil _) n
    · next a ha =>
      have haid : a.id = m.source.id := key_of_get ha
      split
      · exact clear_commit key h (onRow_nil _) n
      · unfold commit
        cases hscratch : m.scratch with
        | none =>
          rcases n with - | - | n
          · exact clear_nothing h (fun _ hx => by cases hx) fun _ hx => by cases hx
          · refine clear_nothing h (fun x hx => ?_) fun op' hx => ?_ <;>
              cases mem_singleton.mp hx
          · simp only [take_succ_cons, take_nil, flatten_cons, flatten_nil,
              append_nil, singleton_append]
            refine clear_committed now (settled m seen a) h hplanned hdestination hsource ha haid rfl
              rfl (fun x hx => ?_) fun op' hx => ?_
            · simp only [mem_cons, reduceCtorEq, Write.artifact.injEq, not_mem_nil, or_false,
                false_or] at hx
              exact ⟨.tail _ (.head _), .inl hx⟩
            · simp only [mem_cons, reduceCtorEq, Write.operation.injEq, not_mem_nil,
                or_false, false_or] at hx
              rw [hx]
              exact .inr hold
        | some scratch =>
          rcases n with - | - | - | n
          · exact clear_nothing h (fun _ hx => by cases hx) fun _ hx => by cases hx
          · refine clear_nothing h (fun x hx => ?_) fun op' hx => ?_ <;>
              cases mem_singleton.mp hx
          · refine clear_nothing h (fun x hx => ?_) fun op' hx => ?_ <;> simp at hx
          · simp only [take_succ_cons, take_nil, flatten_cons, flatten_nil,
              append_nil, singleton_append]
            refine clear_committed now (settled m seen a) h hplanned hdestination hsource ha haid rfl
              rfl (fun x hx => ?_) fun op' hx => ?_
            · have hretire : Write.artifact x ∉ retirement key
                  (retired key m a.keep) now := by
                unfold retirement
                split <;> simp
              simp only [mem_cons, mem_append, reduceCtorEq, Write.artifact.injEq,
                not_mem_nil, or_false, false_or, hretire] at hx
              refine ⟨by simp [settled], ?_⟩
              rcases hx with (hx | hx) | hx
              · exact .inr ⟨scratch, hscratch, .inl hx⟩
              · exact .inr ⟨scratch, hscratch, .inr hx⟩
              · exact .inl hx
            · simp only [mem_cons, mem_append, reduceCtorEq, Write.operation.injEq,
                not_mem_nil, or_false, false_or] at hx
              rcases hx with hx | hx
              · unfold retirement at hx
                split at hx
                · rw [Write.operation.inj (mem_singleton.mp hx)]
                  exact .inl trivial
                · cases hx
              · rw [hx]
                exact .inr hold
  · exact clear_commit key h (onRow_nil _) n

/-! ### A job of an older version -/

/-- No row is that of the job. -/
def Jobless (inv : Inventory) (job : JobId) : Prop := ∀ a ∈ inv.artifacts, a.job ≠ some job

theorem jobless_discover (h : Jobless inv job) {id generation : Text}
    {root path : OsPath} {active : Bool} {now : Int} (n : Nat) :
    Jobless (commit n (inv.discover id generation root path active seen now) inv) job := by
  intro a ha
  rcases mem_artifacts_foldl ha with hnew | ⟨hold, -⟩
  · obtain ⟨tx, htx, hw⟩ := mem_flatten.mp hnew
    have htx := mem_of_mem_take htx
    unfold discover at htx
    split at htx
    · cases htx
    · cases seen with
      | none => cases htx
      | some seen =>
        rw [mem_singleton.mp htx] at hw
        rw [Write.artifact.inj (mem_singleton.mp hw)]
        exact fun hjob => by cases hjob
  · exact h a hold

theorem clear_engage (h : Registry.Clear inv) (hjobless : Jobless inv job)
    {path : OsPath} (n : Nat) : Registry.Clear (commit n (inv.engage job path) inv) := by
  unfold engage
  split
  · exact clear_commit [] h (onRow_nil _) n
  · next a ha =>
    have hmem := mem_of_find?_eq_some ha
    have hlive : a.terminal = false := by
      have := find?_some ha
      simp only [Bool.and_eq_true, Bool.not_eq_true'] at this
      exact this.2
    refine clear_commit a.id h (onRow_artifact (a := { a with job := some job, state := .active })
      ⟨fun j hj b hb hbj => ?_, fun _ b hb hblive hbpath => ?_⟩) n
    · exact absurd (hbj.trans hj.symm) (hjobless b hb)
    · exact h.paths b hb a hmem hblive hlive hbpath

theorem clear_attach (h : Registry.Clear inv) (hjobless : Jobless inv job)
    (w : LegacyAnswers) (id generation : Text) (root path : OsPath) (now : Int) :
    Registry.Clear (w.attach inv id generation job root path now) := by
  unfold LegacyAnswers.attach
  split
  · exact h
  · exact clear_engage (clear_discover h _) (jobless_discover hjobless _) _

theorem clear_disown (h : Registry.Clear inv) {path : OsPath} {verified : Bool}
    (n : Nat) (halone : ∀ a, inv.forJob job = some a → a.path ≠ path → a.terminal = true →
      inv.Alone a.path a.id) : Registry.Clear (commit n (inv.disown job path verified) inv) := by
  unfold disown
  split
  · exact clear_commit [] h (onRow_nil _) n
  · next a ha =>
    have hget := get_of_mem h.keys (mem_of_forJob ha).1
    split
    · exact clear_commit [] h (onRow_nil _) n
    · refine clear_commit a.id h (onRow_artifact (a := { a with
        job := none
        state := if a.path = path then .sourceGone else .retained
        keep := true
        hold := some (text "review: previous external job generation")
        revision := a.revision + 1 }) (.of_row h hget (.inl rfl) rfl ?_)) n
      by_cases hpath : a.path = path
      · exact .inl (by simp [Artifact.terminal, hpath])
      · exact .inr (halone a ha hpath)

theorem jobless_disown (h : Registry.Clear inv) {path : OsPath} {verified : Bool}
    (ha : inv.forJob job = some a) (hother : ¬(a.path = path ∧ verified = true)) :
    Jobless (commit 1 (inv.disown job path verified) inv) job := by
  obtain ⟨hmem, hjob⟩ := mem_of_forJob ha
  simp only [disown, ha, if_neg hother]
  intro b hb hbjob
  rcases mem_artifacts_foldl hb with hnew | ⟨hold, hkept⟩
  · rw [Write.artifact.inj (mem_singleton.mp hnew)] at hbjob
    cases hbjob
  · exact hkept _ (mem_singleton.mpr rfl) (h.jobs a hmem b hold job hjob hbjob)

theorem clear_registerLegacyActive (h : Registry.Clear inv) (w : LegacyAnswers)
    (id generation : Text) (job : JobId) (root path : OsPath) (now : Int)
    (halone : w.there = true → w.disowned = true → ∀ a, inv.forJob job = some a → a.path ≠ path →
      a.terminal = true → inv.Alone a.path a.id) :
    Registry.Clear (registerLegacyActive w inv id generation job root path now) := by
  unfold registerLegacyActive
  split
  · exact h
  · next hthere =>
    rw [Bool.not_eq_false] at hthere
    cases hjob : inv.forJob job with
    | none => exact clear_attach h (forJob_eq_none hjob) w id generation root path now
    | some a =>
      simp only
      split
      · exact h
      · next hother =>
        split
        · next hdisowned =>
          exact clear_attach (clear_disown h 1 (halone hthere hdisowned))
            (jobless_disown h hjob hother) w id generation root path now
        · exact h

/-! ### A deletion and an allocation -/

theorem modest_of_deleted (h : Registry.Clear inv) {w : Answers} {a a' : Artifact}
    (ha : inv.artifact key = some a) (hdeleted : Deleted w a a')
    (halone : a.terminal = true → inv.Alone a.path a.id) : a'.id = key ∧ Modest inv a' := by
  have hget := artifact_id ha
  have hid : a.id = key := key_of_get ha
  cases hdeleted with
  | begun => exact ⟨hid, .of_row h hget (.inr rfl) rfl (.inr halone)⟩
  | ended op e =>
    cases e with
    | none => exact ⟨hid, .of_row h hget (.inr rfl) rfl (.inr halone)⟩
    | some e => exact ⟨hid, .of_row h hget (.inr rfl) rfl (.inr halone)⟩

theorem clear_executeDelete (h : Registry.Clear inv) (w : Answers) (disk : Disk) (key : Text)
    (halone : ∀ op a, inv.operation key = some op → inv.artifact op.artifact = some a →
      a.terminal = true → inv.Alone a.path a.id) :
    Registry.Clear (executeDelete w inv disk key).inventory := by
  obtain ⟨ws, hws, hwritten⟩ := executeDelete_writes w inv disk key
  rw [hws]
  cases hop : inv.operation key with
  | none =>
    have hnothing : ∀ x, x ∉ ws := fun x hx => by
      obtain ⟨op, hsome, -⟩ := hwritten x hx
      rw [hop] at hsome
      cases hsome
    exact clear_nothing h (fun x => hnothing _) fun op => hnothing _
  | some op =>
    refine clear_foldl h (.one op.artifact (fun x hx => ?_) fun op' hx => ?_)
    · obtain ⟨o, ho, ⟨_, hx, -⟩ | ⟨a, a', ha, hx, hdeleted⟩⟩ := hwritten _ hx
      · cases hx
      · obtain rfl := Option.some.inj (hop.symm.trans ho)
        rw [Write.artifact.inj hx]
        exact modest_of_deleted h ha hdeleted (halone op a hop ha)
    · obtain ⟨o, ho, ⟨o', hx, hrequest⟩ | ⟨_, _, -, hx, -⟩⟩ := hwritten _ hx
      · rw [Write.operation.inj hx]
        exact .inr ⟨o, mem_of_get ho, hrequest⟩
      · cases hx

theorem clear_allocate (h : Registry.Clear inv) (w : AllocationAnswers) (id generation : Text)
    (job : JobId) (root path : OsPath) (now : Int)
    (hok : w.reaches inv job root path = true → inv.Alone path id) :
    Registry.Clear (allocate w inv id generation job root path now).1 := by
  cases hreaches : w.reaches inv job root path with
  | false => rwa [allocate_of_not_reaches hreaches]
  | true =>
    obtain ⟨rootIdentity, heq⟩ : ∃ r, allocate w inv id generation job root path now = _ :=
      allocate_of_reaches hreaches
    obtain ⟨ws, hws, hops, hrows, -⟩ := bind_eq w
      (inv.saveArtifact (allocating id generation job root path rootIdentity now))
      (allocating id generation job root path rootIdentity now)
    have hjob : inv.forJob job = none := by
      simp only [AllocationAnswers.reaches, Bool.and_eq_true, Option.isNone_iff_eq_none] at hreaches
      exact hreaches.1.1.1.1.1.1
    have hall : ∀ x, .artifact x ∈ .artifact (allocating id generation job root path rootIdentity
        now) :: ws → x.id = id ∧ x.job = some job ∧ x.path = path := by
      intro x hx
      rcases mem_cons.mp hx with hx | hx
      · rw [Write.artifact.inj hx]
        exact ⟨rfl, rfl, rfl⟩
      · exact hrows x hx
    rw [heq, hws]
    show Registry.Clear ((.artifact (allocating id generation job root path rootIdentity now) ::
      ws).foldl Write.apply inv)
    refine clear_foldl h (.one id (fun x hx => ?_) fun op hx => ?_)
    · obtain ⟨hid, hxjob, hpath⟩ := hall x hx
      refine ⟨hid, fun j hj b hb hbj => ?_, fun _ => ?_⟩
      · exact absurd (hbj.trans (hj.symm.trans hxjob)) (forJob_eq_none hjob b hb)
      · rw [hid, hpath]
        exact hok hreaches
    · rcases mem_cons.mp hx with hx | hx
      · cases hx
      · exact absurd hx (hops op)

end Clear

/-! ### The runs -/

namespace Registry

variable {s : Registry} {i : RegistryStep}

theorem clear_step (h : Clear s.inventory) (hlisted : s.Listed i) (hok : s.Careful i) :
    Clear (s.step i).inventory := by
  cases i with
  | allocate w id generation job root path now =>
    exact clear_allocate h w id generation job root path now fun hreaches => (hok hreaches).2
  | registerLegacyActive w id generation job root path now =>
    exact clear_registerLegacyActive h w id generation job root path now hok
  | rows c n =>
    cases c with
    | discover => exact clear_discover h n
    | finish => exact clear_finish h n
    | relocate => exact clear_relocate h n
    | relocateScratch => exact clear_relocateScratch h n hok
    | commitRelocation => exact clear_commitRelocation h n hok
    | failRelocation => exact clear_failRelocation h n hok
    | requestDelete => exact clear_requestDelete h n
    | cancelDelete => exact clear_cancelDelete h n
    | _ => cases hlisted
  | executeDelete key w => exact clear_executeDelete h w s.disk key hok
  | outside disk => exact h

/-- The failures so far could be called again. -/
def Retryable (s : Registry) : Prop := ∀ f ∈ s.failures, f.before = true → f.after = true

theorem retryable_step (h : s.Retryable) (hok : s.Careful i) : (s.step i).Retryable := by
  cases i with
  | allocate w id generation job root path now =>
    intro f hf
    rcases mem_append.mp hf with hf | hf
    · cases hresult : (Artifacts.allocate w s.inventory id generation job root path now).2 with
      | ok a =>
        rw [hresult] at hf
        cases hf
      | error e =>
        rw [hresult] at hf
        rw [mem_singleton.mp hf]
        refine (retry_iff hresult).mpr ?_
        by_contra hreaches
        rw [Bool.not_eq_false] at hreaches
        -- an allocation that writes its row goes through to the end
        obtain ⟨rootIdentity, heq⟩ : ∃ r,
            Artifacts.allocate w s.inventory id generation job root path now = _ :=
          allocate_of_reaches hreaches
        obtain ⟨_, -, -, -, ⟨-, b, hb⟩ | ⟨hfails, -⟩⟩ := bind_eq w
          (s.inventory.saveArtifact (allocating id generation job root path rootIdentity now))
          (allocating id generation job root path rootIdentity now)
        · rw [heq, hb] at hresult
          cases hresult
        · rw [(hok hreaches).1] at hfails
          cases hfails
    · exact h f hf
  | _ => exact h

theorem Clear.eq_of_id {inv : Inventory} (h : Clear inv) {a b : Artifact} (ha : a ∈ inv.artifacts)
    (hb : b ∈ inv.artifacts) (hid : a.id = b.id) : a = b :=
  Option.some.inj ((get_of_mem h.keys ha).symm.trans
    ((congrArg inv.artifact hid).trans (get_of_mem h.keys hb)))

end Registry

/-- **One row for a path and one for a job, and no failure that stays**, in the runs whose steps are
careful. -/
theorem unambiguous_of_run {s : Registry} (h : s.Reached Registry.Careful) : s.Unambiguous := by
  have hinv : Registry.Clear s.inventory ∧ s.Retryable := by
    refine Run.invariant (P := fun s : Registry => Registry.Clear s.inventory ∧ s.Retryable) ?_ ?_ h
    · intro s hs
      refine ⟨hs.clear, fun f hf => ?_⟩
      rw [hs.failures] at hf
      cases hf
    · rintro s i _ ⟨hclear, hretryable⟩ ⟨hlisted, hok⟩ rfl
      exact ⟨Registry.clear_step hclear hlisted hok, Registry.retryable_step hretryable hok⟩
  obtain ⟨hclear, hretryable⟩ := hinv
  exact {
    retryable := hretryable
    paths := fun a ha b hb halive hblive hpath =>
      hclear.eq_of_id ha hb (hclear.paths a ha b hb halive hblive hpath)
    jobs := fun a ha b hb _ _ hjob heq => by
      obtain ⟨j, hj⟩ := Option.isSome_iff_exists.mp hjob
      exact hclear.eq_of_id ha hb (hclear.jobs a ha b hb j hj (heq.symm.trans hj)) }

/-! ### Two runs -/

/-- There is no row, and `/d` has one directory. -/
def unlisted : Registry where
  inventory := { parked.inventory with artifacts := [], sidecars := [] }
  disk := parkedDisk
  failures := []

theorem start_unlisted : unlisted.Start where
  clear := {
    keys := nodup_nil
    jobs := fun _ h => by cases h
    paths := fun _ h => by cases h
    requests := fun _ h => by cases h }
  failures := rfl

/-- The directory is new, and what follows goes well. -/
def goesWell : AllocationAnswers where
  verified := none
  absolute := true
  root := some ⟨1, 2, 0, [], true⟩
  taken := false
  saved := true
  made := true
  synced := true
  opened := some ⟨1, 5, 0, [], true⟩
  sidecar := true
  activated := true

def allocateAs (w : AllocationAnswers) (name : String) : RegistryStep :=
  .allocate w (text "a") (text "g") 1 [osName "d"] [osName "d", osName name] 10

theorem unambiguous_of_run_taken :
    let s := [allocateAs { goesWell with taken := true } "p", allocateAs goesWell "q",
      allocateAs goesWell "q"].foldl Registry.step unlisted
    s.inventory.artifacts.map (fun a => (a.state, a.path)) =
        [(.active, [osName "d", osName "q"])] ∧
      s.failures = [⟨true, true⟩] ∧ s.Unambiguous := by
  have hempty : (unlisted.step (allocateAs { goesWell with taken := true } "p")).inventory.artifacts =
      [] := by decide +kernel
  have hfirst : unlisted.Careful (allocateAs { goesWell with taken := true } "p") := fun h => by
    exact absurd h (by decide +kernel)
  have hsecond : (unlisted.step (allocateAs { goesWell with taken := true } "p")).Careful
      (allocateAs goesWell "q") := fun _ => by
    refine ⟨by decide, fun b hb => ?_⟩
    rw [hempty] at hb
    cases hb
  have hthird : ((unlisted.step (allocateAs { goesWell with taken := true } "p")).step
      (allocateAs goesWell "q")).Careful (allocateAs goesWell "q") := fun h => by
    exact absurd h (by decide +kernel)
  refine ⟨by decide +kernel, by decide +kernel, unambiguous_of_run (Run.foldl
    (.start start_unlisted) ⟨⟨trivial, hfirst⟩, ⟨trivial, hsecond⟩, ⟨trivial, hthird⟩, trivial⟩)⟩

/-- **The directory could not be made, and now the job has a row.** -/
theorem refused_after_failure : ¬∀ s : Registry, s.Reached (fun _ _ => True) → s.Unambiguous := by
  intro h
  have hreached : (unlisted.step (allocateAs { goesWell with made := false } "q")).Reached
      fun _ _ => True :=
    Run.step (i := allocateAs _ _) (.start start_unlisted) ⟨trivial, trivial⟩ rfl
  have hfailure : (⟨true, false⟩ : Failure) ∈
      (unlisted.step (allocateAs { goesWell with made := false } "q")).failures := by decide +kernel
  exact absurd ((h _ hreached).retryable _ hfailure rfl) (by decide)

end Nzbd.Artifacts
