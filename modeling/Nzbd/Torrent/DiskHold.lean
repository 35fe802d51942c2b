import Nzbd.Engine.DiskProbe
import Nzbd.Torrent.Fifo

/-!
# Holds for want of disk space

The queue is held while a reading of the volumes is below the floor, or after a write
has failed for want of space (the latch).  A hold stops the torrents that are not
complete; the engine answers later, with a fact.  `updateDiskGuard` is the only way out
that lets the torrents go, `clearEnospcLatch` is another one.

`byWrite`, the kind of event the hold began with, is no part of the source.
-/

namespace Nzbd

/-- A complete reading of so many bytes. -/
def DiskGuardReading.proves (r : DiskGuardReading) (bytes : Nat) : Bool :=
  r.allRootsKnown && r.availableBytes.any (bytes ≤ ·)

def DiskGuardReading.below (r : DiskGuardReading) (floor : Nat) : Bool :=
  0 < floor && r.availableBytes.any (· < floor)

namespace Torrent

open Runs

/-- The latch and the hold, from the hold and the latch before. -/
def diskGuardDecision (wasHeld writeLatched : Bool) (r : DiskGuardReading) (floor : Nat) :
    Bool × Bool :=
  let clearAt := min (2 * floor) (2 ^ 64 - 1)
  let writeLatched := writeLatched && !(0 < clearAt && r.proves clearAt)
  (writeLatched, writeLatched || r.below floor || wasHeld && !r.allRootsKnown)

structure DiskHold where
  owner : Owner
  diskGuard : DiskGuardReading
  diskLow : Bool
  enospcLatched : Bool
  byWrite : Bool

namespace DiskHold

def observeOutOfSpace (w : World) (s : DiskHold) : DiskHold :=
  if s.diskLow then { s with enospcLatched := true }
  else { s with
    owner := s.owner.pauseIncompleteTorrentsForStorage w
    diskLow := true
    enospcLatched := true
    byWrite := true }

def updateDiskGuard (w : World) (floor : Nat) (s : DiskHold) : DiskHold :=
  let d := diskGuardDecision s.diskLow s.enospcLatched s.diskGuard floor
  let s := { s with enospcLatched := d.1 }
  if d.2 = s.diskLow then s
  else if d.2 then { s with
    owner := s.owner.pauseIncompleteTorrentsForStorage w
    diskLow := true
    byWrite := false }
  else { s with owner := s.owner.releaseTorrentsAfterStorageRecovery, diskLow := false }

def clearEnospcLatch (w : World) (floor : Nat) (s : DiskHold) : DiskHold :=
  if s.enospcLatched then
    { s with enospcLatched := false, diskLow := false }.updateDiskGuard w floor
  else s

/-- The fact is a stop for want of space, of a torrent of the queue. -/
def storageHold (w : World) (o : Owner) (fact : BackendFact) : Bool :=
  (o.job (factJob fact)).any fun j =>
    (reconcileFact w o.torrentPayloadRoots j fact (o.torrentProgress (factJob fact))).2.storageHold

/-- One round of the loop over the facts that have arrived. -/
def foldBackendStructural (w : World) (s : DiskHold) : DiskHold :=
  match s.owner.facts with
  | [] => s
  | fact :: facts =>
    let o := { s.owner with facts := facts }
    let s := { s with owner := o.foldFact w fact }
    if storageHold w o fact then s.observeOutOfSpace w else s

def admitted (id : JobId) (paused : Bool) (priority : Int) (t : TorrentRecord) : Job where
  id := id
  kind := .torrent
  status := if paused then .paused else .queued
  priority := priority
  torrent := some { t with lastError := none, stopReason := none }

end DiskHold

/-- A part of the tick that is told here with the guard. -/
def Input.guarded : Input → Bool
  | .foldFacts _ => true
  | .holdStorage => true
  | .releaseStorage => true
  | _ => false

namespace DiskHold

inductive Step
  /-- The probe has stored a reading. -/
  | probe (r : DiskGuardReading)
  /-- A write has failed. -/
  | outOfSpace
  | resumeAll
  | updateDiskGuard
  | foldFact
  | owner (i : Input) (h : i.guarded = false)
  | admitTorrent (id : JobId) (paused : Bool) (priority : Int) (t : TorrentRecord)
  | report (fact : BackendFact)
  /-- The engine takes the next command. -/
  | receive

def step (floor : Nat) (s : DiskHold) (i : World × Step) : DiskHold :=
  match i.2 with
  | .probe r => { s with diskGuard := r }
  | .outOfSpace => s.observeOutOfSpace i.1
  | .resumeAll => s.clearEnospcLatch i.1 floor
  | .updateDiskGuard => s.updateDiskGuard i.1 floor
  | .foldFact => s.foldBackendStructural i.1
  | .owner r _ => { s with owner := s.owner.step i.1 r }
  | .admitTorrent id paused priority t =>
    { s with owner := { s.owner with jobs := s.owner.jobs ++ [admitted id paused priority t] } }
  | .report fact => { s with owner := { s.owner with facts := s.owner.facts ++ [fact] } }
  | .receive => { s with owner := { s.owner with commands := s.owner.commands.tail } }

end DiskHold

/-! ### Torrents that are stopped -/

/-- To be downloaded, and stopped for want of space. -/
def stoppedForStorage (j : Job) : Bool :=
  j.kind = .torrent && j.status = .paused && j.torrent.any fun t =>
    t.readyAtUnix.isNone && t.removalIntent.isNone && t.controlIntent = .running &&
      t.phase = .pausedDownload && t.lastError = some storageFullError

/-- What the end of a hold makes of a job. -/
structure Freed (j j' : Job) : Prop where
  started : stoppedForStorage j = true → Owner.runnable j' = true ∧
    j'.torrent.any (·.phase = .queued) = true
  paused : j.torrent.any (·.controlIntent = .paused) = true → j' = j

namespace DiskHold

/-- The end of a hold has its reason, and the torrents are let go. -/
structure EndsRight (floor : Nat) (i : Step) (s s' : DiskHold) : Prop where
  write : s.byWrite = true → i = .resumeAll ∨ s.diskGuard.proves (2 * floor) = true
  reading : s.byWrite = false → s.diskGuard.proves floor = true
  freed : List.Forall₂ Freed s.owner.jobs s'.owner.jobs

/-- The operator clears no latch, or the reading keeps the hold, or nothing is stopped
and a hold that a reading began has a complete one. -/
def ClearsWell (floor : Nat) (s : DiskHold) : Prop :=
  s.enospcLatched = false ∨ s.diskGuard.below floor = true ∨
    (∀ j ∈ s.owner.jobs, stoppedForStorage j = false) ∧
      (s.byWrite = false → s.diskGuard.allRootsKnown = true)

def Careful (floor : Nat) (s : DiskHold) (i : World × Step) : Prop :=
  i.2 = .resumeAll → s.ClearsWell floor

/-- A floor holds the queue until the first probe is complete. -/
structure Start (floor : Nat) (s : DiskHold) : Prop where
  guard : s.diskGuard = .default
  diskLow : s.diskLow = decide (0 < floor)
  latched : s.enospcLatched = false
  byWrite : s.byWrite = false
  stopped : s.diskLow = false → ∀ j ∈ s.owner.jobs, stoppedForStorage j = false

/-- The states that runs of such steps reach. -/
def Reached (floor : Nat) (ok : DiskHold → World × Step → Prop) : DiskHold → Prop :=
  Run (Start floor) (fun s i s' => s' = s.step floor i) ok

end DiskHold

/-! ### Steps of the owner -/

/-- A torrent that is stopped afterwards was stopped. -/
def Unstopped (j j' : Job) : Prop := stoppedForStorage j' = true → stoppedForStorage j = true

theorem OnlyCommands.jobs {o o' : Owner} (h : OnlyCommands o o') : o'.jobs = o.jobs := by
  obtain ⟨_, _, _, rfl⟩ := h
  rfl

theorem respects_unstopped (w : World) :
    Respects w Unstopped (fun _ => True) fun o o' => From Unstopped o.jobs o'.jobs := by
  have heq : ∀ {jobs jobs' : List Job}, jobs' = jobs → From Unstopped jobs jobs' :=
    fun h => from_subset (fun _ => id) fun _ hj => h ▸ hj
  exact {
    same := fun _ => id
    refl := fun _ => heq rfl
    trans := fun h h' j hj => by
      obtain ⟨i, hi, hij⟩ := h' j hj
      obtain ⟨k, hk, hki⟩ := h i hi
      exact ⟨k, hk, hki ∘ hij⟩
    beside := fun _ h => h
    putBack := fun h hj j' hj' => by
      rcases List.mem_modifyFirst hj' with hj' | ⟨_, -, rfl⟩
      · exact h j' hj'
      · exact ⟨_, List.mem_of_find?_eq_some hj, id⟩
    enqueue := fun o c _ => heq (onlyCommands_enqueueBackendCommand w o c).jobs
    persistThen := fun o c _ => heq (jobs_persistThenCommand w o c)
    flush := fun o => heq (onlyCommands_flushFrom w _ o).jobs
    save := fun o => heq (jobs_saveSnapshot w o)
    record := fun o id at' => by
      simp only [Owner.record]
      split <;> exact heq rfl }

theorem unstopped_releasedJob (j : Job) : stoppedForStorage (Owner.releasedJob j) = false := by
  unfold Owner.releasedJob
  cases ht : j.torrent with
  | none => simp [stoppedForStorage, ht]
  | some t =>
    by_cases h : t.controlIntent = .running ∧ t.phase = .pausedDownload ∧
      t.lastError = some storageFullError
    · simp [h, stoppedForStorage]
    · simp only [h, if_false]
      simp only [stoppedForStorage, ht, Option.any_some, Bool.and_eq_false_iff,
        decide_eq_false_iff_not]
      tauto

/-- **No request and no other part of a tick stops a torrent for want of space.** -/
theorem unstopped_step (w : World) (o : Owner) {i : Input} (hi : i.guarded = false) :
    From Unstopped o.jobs (o.step w i).jobs := by
  refine (respects_unstopped w).step o ?_
  have hstatus : ∀ (j : Job) (s : JobStatus), s ≠ .paused → Unstopped j { j with status := s } := by
    intro j s hs h
    simp [stoppedForStorage, hs] at h
  cases i with
  | pause =>
    refine ⟨trivial, fun j h => ?_, fun j hj h => ?_⟩
    · cases ht : j.torrent <;> simp [stoppedForStorage, Owner.pausedJob, ht] at h
    · refine absurd ⟨?_, ?_⟩ hj
      · simp only [stoppedForStorage, Bool.and_eq_true, decide_eq_true_eq] at h
        exact h.1.1
      · cases ht : j.torrent <;> simp [stoppedForStorage, ht] at h ⊢
  | resume =>
    exact ⟨fun j h => by simp [stoppedForStorage, Owner.resumedJob] at h,
      fun j => hstatus j _ (by decide)⟩
  | delete =>
    refine ⟨fun _ _ _ => trivial, fun j h => ?_⟩
    cases ht : j.torrent <;> simp [stoppedForStorage, ht] at h
  | setPriority => exact ⟨trivial, fun _ h => h⟩
  | setSpeedLimit => exact ⟨trivial, fun _ _ => from_subset (fun _ => id) fun _ h => h⟩
  | rebalance => exact ⟨trivial, fun _ _ => from_subset (fun _ => id) fun _ h => h⟩
  | foldProgress =>
    intro j p h
    simp only [Owner.foldSample, reconcileProgress] at h
    split at h
    · exact h
    · next t ht =>
      split at h
      · simpa [stoppedForStorage, ht, sampled] using h
      · exact h
  | foldFacts => cases hi
  | updateSeedPolicies =>
    refine ⟨fun _ => trivial, fun _ j h => ?_, fun clock j h => ?_, fun _ _ _ h => h⟩
    · cases ht : j.torrent <;> simp [stoppedForStorage, Owner.seedPolicyPaused, ht] at h
    · unfold Owner.accrue at h
      split at h
      · cases ht : j.torrent with
        | none => simp [stoppedForStorage, ht] at h
        | some t => simpa [stoppedForStorage, ht] using h
      · exact h
  | settleLabels => exact fun j => hstatus j _ (by decide)
  | holdStorage => cases hi
  | releaseStorage => cases hi
  | _ => simp [Allows]

/-- **A fact stops a torrent for want of space only if it says so.** -/
theorem unstopped_reconcileFact (w : World) (roots : List PathBuf) (j : Job) {fact : BackendFact}
    (latest : Option TransferProgress)
    (h : (reconcileFact w roots j fact latest).2.storageHold = false) :
    Unstopped j (reconcileFact w roots j fact latest).1 := by
  intro hs
  cases ht : j.torrent with
  | none => simpa [reconcileFact, ht] using hs
  | some t =>
    by_cases hskip : factJob fact ≠ j.id ∨ j.kind ≠ .torrent ∨ j.status = .deleted
    · simpa only [reconcileFact, ht, if_pos hskip] using hs
    · simp only [reconcileFact, ht, if_neg hskip] at h hs
      have hid : factJob fact = j.id := by
        by_contra hne
        exact hskip (.inl hne)
      cases fact with
      | metadataReady id m =>
        simp only [stoppedForStorage, folded, onMetadataReady, ht, Option.any_some] at hs ⊢
        split at hs
        · simp at hs
        · exact hs
      | ready id path =>
        simp only [folded] at hs
        split at hs
        · simp [stoppedForStorage, onReady] at hs
        · exact hs
      | stopped id reason =>
        cases reason with
        | storageFull =>
          exact absurd (congrArg (BackendFact.stopped · .storageFull) hid)
            (decide_eq_false_iff_not.mp h)
        | transient =>
          simp only [folded, onStopped] at hs
          split at hs
          · exact hs
          · next hne => split_ifs at hs <;> simp [stoppedForStorage, hne] at hs
        | _ => first | exact hs | simp [stoppedForStorage, folded, onStopped, halted] at hs
      | resumed id =>
        simp only [folded, onResumed] at hs
        split at hs <;> simp [stoppedForStorage] at hs
      | removed id outcome =>
        have hrefused : removalRefusedError ≠ storageFullError := by decide
        cases outcome <;>
          first | exact hs | simp [stoppedForStorage, folded, onRemoved, hrefused] at hs
      | failed id error => simp [stoppedForStorage, folded, onFailed] at hs

/-! ### The guard -/

variable {floor : Nat}

theorem proves_of_not_below {r : DiskGuardReading} (hknown : r.allRootsKnown = true)
    (hbelow : r.below floor = false) : r.proves floor = true := by
  obtain ⟨n, hn⟩ := Option.isSome_iff_exists.mp (r.counted hknown)
  simp only [DiskGuardReading.below, DiskGuardReading.proves, hn, hknown, Option.any_some,
    Bool.true_and, Bool.and_eq_false_iff, decide_eq_false_iff_not, decide_eq_true_eq] at hbelow ⊢
  omega

theorem not_below_of_proves {r : DiskGuardReading} {floor bytes : Nat} (h : r.proves bytes = true)
    (hle : floor ≤ bytes) : r.below floor = false := by
  obtain ⟨-, h⟩ := (Bool.and_eq_true _ _).mp h
  cases hn : r.availableBytes with
  | none => simp [DiskGuardReading.below, hn]
  | some n =>
    simp only [hn, Option.any_some, decide_eq_true_eq] at h
    simp only [DiskGuardReading.below, hn, Option.any_some, Bool.and_eq_false_iff,
      decide_eq_false_iff_not]
    omega

/-- No hold is left: the latch was not set or is cleared,
  and the reading is complete if there was one. -/
theorem released_of_decision {held latched : Bool} {r : DiskGuardReading} (hfloor : floor < 2 ^ 63)
    (h : (diskGuardDecision held latched r floor).2 = false) :
    (diskGuardDecision held latched r floor).1 = false ∧
      (latched = true → r.proves (2 * floor) = true) ∧
      r.below floor = false ∧ (held = true → r.allRootsKnown = true) := by
  have hclear : min (2 * floor) (2 ^ 64 - 1) = 2 * floor := by omega
  simp only [diskGuardDecision, hclear, Bool.or_eq_false_iff] at h ⊢
  obtain ⟨⟨hlatch, hbelow⟩, hknown⟩ := h
  refine ⟨hlatch, fun hl => ?_, hbelow, fun hh => ?_⟩
  · simp only [hl, Bool.true_and, Bool.not_eq_false', Bool.and_eq_true] at hlatch
    exact hlatch.2
  · simpa [hh] using hknown

theorem latched_of_decision {held : Bool} {r : DiskGuardReading} (hfloor : floor < 2 ^ 63)
    (h : (diskGuardDecision held true r floor).2 = true) :
    (diskGuardDecision held true r floor).1 = true := by
  have hclear : min (2 * floor) (2 ^ 64 - 1) = 2 * floor := by omega
  by_contra hne
  simp only [diskGuardDecision, hclear, Bool.true_and, Bool.not_eq_true, Bool.not_eq_false',
    Bool.and_eq_true] at h hne
  have hbelow : r.below floor = false := not_below_of_proves hne.2 (by omega)
  have hknown : r.allRootsKnown = true := ((Bool.and_eq_true _ _).mp hne.2).1
  simp [hne.2, hbelow, hknown, of_decide_eq_true hne.1] at h

namespace DiskHold

/-- Outside of a hold no torrent is stopped, and the latch holds the queue. -/
structure Inv (s : DiskHold) : Prop where
  low : s.enospcLatched = true → s.diskLow = true
  latched : s.diskLow = true → s.byWrite = true → s.enospcLatched = true
  stopped : s.diskLow = false → ∀ j ∈ s.owner.jobs, stoppedForStorage j = false

theorem inv_observe (w : World) (s : DiskHold) : (s.observeOutOfSpace w).Inv := by
  unfold observeOutOfSpace
  split
  · next h => exact ⟨fun _ => h, fun _ _ => rfl, fun hlow => absurd hlow (by simp [h])⟩
  · exact ⟨fun _ => rfl, fun _ _ => rfl, nofun⟩

theorem inv_update {w : World} (hfloor : floor < 2 ^ 63) {s : DiskHold}
    (hlatched : s.diskLow = true → s.byWrite = true → s.enospcLatched = true)
    (hstopped : s.diskLow = false →
      (diskGuardDecision s.diskLow s.enospcLatched s.diskGuard floor).2 = false →
      ∀ j ∈ s.owner.jobs, stoppedForStorage j = false) : (s.updateDiskGuard w floor).Inv := by
  have hlow : (diskGuardDecision s.diskLow s.enospcLatched s.diskGuard floor).1 = true →
      (diskGuardDecision s.diskLow s.enospcLatched s.diskGuard floor).2 = true := by
    intro h
    by_contra hne
    have hreleased := (released_of_decision hfloor (Bool.not_eq_true _ ▸ hne)).1
    exact absurd (hreleased.symm.trans h) Bool.false_ne_true
  unfold updateDiskGuard
  simp only []
  split
  · next hsame =>
    refine ⟨fun h => hsame ▸ hlow h, fun hheld hwrite => ?_,
      fun hfree => hstopped hfree (hsame.trans hfree)⟩
    have hheld : s.diskLow = true := hheld
    have hl := hlatched hheld hwrite
    rw [hl, hheld] at hsame
    show (diskGuardDecision s.diskLow s.enospcLatched s.diskGuard floor).1 = true
    rw [hl, hheld]
    exact latched_of_decision hfloor hsame
  · split
    · exact ⟨fun _ => rfl, fun _ => nofun, nofun⟩
    · next hend =>
      refine ⟨fun h => absurd (hlow h) hend, nofun, fun _ j hj => ?_⟩
      obtain ⟨i, -, rfl⟩ := List.mem_map.mp hj
      exact unstopped_releasedJob i

theorem clear_decision (r : DiskGuardReading) (floor : Nat) :
    diskGuardDecision false false r floor = (false, r.below floor) := by simp [diskGuardDecision]

theorem Inv.step (hfloor : floor < 2 ^ 63) {s : DiskHold} (h : s.Inv) {i : World × Step}
    (hi : s.Careful floor i) : (s.step floor i).Inv := by
  obtain ⟨w, i⟩ := i
  -- a step that leaves the flags alone and stops no torrent
  have hkeep : ∀ o : Owner, From Unstopped s.owner.jobs o.jobs →
      ({ s with owner := o } : DiskHold).Inv := by
    refine fun o ho => ⟨h.low, h.latched, fun hlow j hj => ?_⟩
    obtain ⟨i, hi, hij⟩ := ho j hj
    by_contra hne
    exact absurd (hij (Bool.not_eq_false _ ▸ hne)) (by simp [h.stopped hlow i hi])
  have hsame : From Unstopped s.owner.jobs s.owner.jobs := from_subset (fun _ => id) fun _ hj => hj
  cases i with
  | probe r => exact { h with }
  | outOfSpace => exact inv_observe w s
  | resumeAll =>
    show (s.clearEnospcLatch w floor).Inv
    unfold clearEnospcLatch
    split
    · next hlatch =>
      refine inv_update hfloor nofun fun _ hbelow => ?_
      rw [clear_decision] at hbelow
      rcases hi rfl with hno | hb | ⟨hnone, -⟩
      · exact absurd hno (by simp [hlatch])
      · exact absurd hbelow (by simp [hb])
      · exact hnone
    · exact h
  | updateDiskGuard => exact inv_update hfloor h.latched fun hlow _ => h.stopped hlow
  | foldFact =>
    show (s.foldBackendStructural w).Inv
    unfold foldBackendStructural
    split
    · exact h
    · next fact facts hfacts =>
      simp only []
      split
      · exact inv_observe w _
      · next hno =>
        refine hkeep _ ((respects_unstopped w).foldFact { s.owner with facts := facts } fact
          (fun j hj => ?_) ?_)
        · have hhold := hno
          simp only [storageHold, hj, Option.any_some, Bool.not_eq_true] at hhold
          exact unstopped_reconcileFact w _ j _ hhold
        · intro j d hs
          cases ht : j.torrent with
          | none => simp [stoppedForStorage, ht] at hs
          | some t => simpa [stoppedForStorage, ht, Owner.confirm] using hs
  | owner r hr => exact hkeep _ (unstopped_step w s.owner hr)
  | admitTorrent id paused priority t =>
    refine ⟨h.low, h.latched, fun hlow j hj => ?_⟩
    rcases List.mem_append.mp hj with hj | hj
    · exact h.stopped hlow j hj
    · obtain rfl := List.mem_singleton.mp hj
      simp [stoppedForStorage, admitted]
  | report fact => exact hkeep _ hsame
  | receive => exact hkeep _ hsame

theorem freed_releasedJob (j : Job) : Freed j (Owner.releasedJob j) := by
  refine ⟨fun h => ?_, fun h => ?_⟩
  · cases ht : j.torrent with
    | none => simp [stoppedForStorage, ht] at h
    | some t =>
      simp only [stoppedForStorage, ht, Option.any_some, Bool.and_eq_true, decide_eq_true_eq,
        Option.isNone_iff_eq_none] at h
      simp [Owner.releasedJob, Owner.runnable, ht, h]
  · cases ht : j.torrent with
    | none => simp [ht] at h
    | some t =>
      simp only [ht, Option.any_some, decide_eq_true_eq] at h
      simp [Owner.releasedJob, ht, h]

theorem not_runnable_of_stopped {j : Job} (h : stoppedForStorage j = true) :
    Owner.runnable j = false := by
  simp only [stoppedForStorage, Bool.and_eq_true, decide_eq_true_eq] at h
  simp [Owner.runnable, h.1.2]

theorem forall_freed_iff {jobs : List Job} :
    List.Forall₂ Freed jobs jobs ↔ ∀ j ∈ jobs, stoppedForStorage j = false := by
  rw [List.forall₂_same]
  refine forall₂_congr fun j _ => ⟨fun h => ?_, fun h => ⟨fun hs => ?_, fun _ => rfl⟩⟩
  · by_contra hne
    have hs := Bool.not_eq_false _ ▸ hne
    exact absurd (h.started hs).1 (by simp [not_runnable_of_stopped hs])
  · exact absurd (h.symm.trans hs) Bool.false_ne_true

def Symmetric (floor : Nat) (s : DiskHold) (i : World × Step) : Prop :=
  s.diskLow = true → (s.step floor i).diskLow = false → EndsRight floor i.2 s (s.step floor i)

theorem update_ends {w : World} (hfloor : floor < 2 ^ 63) {s : DiskHold} (h : s.Inv)
    (hheld : s.diskLow = true) (hend : (s.updateDiskGuard w floor).diskLow = false) :
    EndsRight floor .updateDiskGuard s (s.updateDiskGuard w floor) := by
  have hd : (diskGuardDecision s.diskLow s.enospcLatched s.diskGuard floor).2 = false := by
    by_contra hne
    rw [Bool.not_eq_false, hheld] at hne
    simp [updateDiskGuard, hne, hheld] at hend
  obtain ⟨-, hlatch, hbelow, hknown⟩ := released_of_decision hfloor hd
  refine ⟨fun hwrite => .inr (hlatch (h.latched hheld hwrite)),
    fun _ => proves_of_not_below (hknown hheld) hbelow, ?_⟩
  have howner : (s.updateDiskGuard w floor).owner =
      s.owner.releaseTorrentsAfterStorageRecovery := by
    rw [hheld] at hd
    simp [updateDiskGuard, hd, hheld]
  rw [howner]
  exact List.forall₂_map_right_iff.mpr (List.forall₂_same.mpr fun j _ => freed_releasedJob j)

theorem clear_ends_iff {w : World} {s : DiskHold} (h : s.Inv) :
    s.Symmetric floor (w, .resumeAll) ↔ s.ClearsWell floor := by
  have hstep : s.step floor (w, .resumeAll) = s.clearEnospcLatch w floor := rfl
  unfold Symmetric ClearsWell
  rw [hstep]
  by_cases hlatch : s.enospcLatched = true
  · have hheld := h.low hlatch
    by_cases hbelow : s.diskGuard.below floor = true
    · have hlow : (s.clearEnospcLatch w floor).diskLow = true := by
        simp [clearEnospcLatch, hlatch, updateDiskGuard, clear_decision, hbelow]
      exact iff_of_true (fun _ hend => absurd (hend.symm.trans hlow) Bool.false_ne_true)
        (.inr (.inl hbelow))
    · rw [Bool.not_eq_true] at hbelow
      have hclear : s.clearEnospcLatch w floor =
          { s with enospcLatched := false, diskLow := false } := by
        simp [clearEnospcLatch, hlatch, updateDiskGuard, clear_decision, hbelow]
      rw [hclear]
      constructor
      · intro hends
        have hright := hends hheld rfl
        refine .inr (.inr ⟨forall_freed_iff.mp hright.freed, fun hread => ?_⟩)
        exact ((Bool.and_eq_true _ _).mp (hright.reading hread)).1
      · rintro (hno | hb | ⟨hnone, hknown⟩) - -
        · exact absurd (hno.symm.trans hlatch) Bool.false_ne_true
        · exact absurd (hbelow.symm.trans hb) Bool.false_ne_true
        · exact ⟨fun _ => .inl rfl, fun hread => proves_of_not_below (hknown hread) hbelow,
            forall_freed_iff.mpr hnone⟩
  · rw [Bool.not_eq_true] at hlatch
    have hclear : s.clearEnospcLatch w floor = s := by simp [clearEnospcLatch, hlatch]
    rw [hclear]
    exact iff_of_true (fun hheld hend => absurd (hend.symm.trans hheld) Bool.false_ne_true)
      (.inl hlatch)

theorem low_observe (w : World) (s : DiskHold) : (s.observeOutOfSpace w).diskLow = true := by
  unfold observeOutOfSpace
  split
  · next h => exact h
  · rfl

/-- **A hold ends only for a reason, and lets its torrents go**, exactly if no operator clears a
latch that torrents are stopped under, or a hold that a reading began and no complete reading has
ended. -/
theorem symmetric_iff {floor : Nat} (hfloor : floor < 2 ^ 63) {s : DiskHold}
    (h : Reached floor (Careful floor) s) :
    (s.diskLow = false → ∀ j ∈ s.owner.jobs, stoppedForStorage j = false) ∧
      ∀ i, s.Symmetric floor i ↔ s.Careful floor i := by
  have hinv : s.Inv := by
    refine Run.invariant (fun s hs => ?_) (fun s i t hs hi ht => ht ▸ hs.step hfloor hi) h
    exact ⟨fun hl => absurd (hs.latched.symm.trans hl) Bool.false_ne_true,
      fun _ hw => absurd (hs.byWrite.symm.trans hw) Bool.false_ne_true, hs.stopped⟩
  refine ⟨hinv.stopped, fun ⟨w, i⟩ => ?_⟩
  have hother (hi : i ≠ .resumeAll) (hends : s.Symmetric floor (w, i)) :
      s.Symmetric floor (w, i) ↔ s.Careful floor (w, i) := iff_of_true hends fun h => absurd h hi
  -- a hold that goes on does not end
  have hheld (hi : i ≠ .resumeAll)
      (hlow : s.diskLow = true → (s.step floor (w, i)).diskLow = true) :
      s.Symmetric floor (w, i) ↔ s.Careful floor (w, i) :=
    hother hi fun hl hend => absurd (hend.symm.trans (hlow hl)) Bool.false_ne_true
  cases i with
  | resumeAll => exact (clear_ends_iff hinv).trans ⟨fun h _ => h, fun h => h rfl⟩
  | updateDiskGuard => exact hother nofun fun hl hend => update_ends hfloor hinv hl hend
  | outOfSpace => exact hheld nofun fun _ => low_observe w s
  | foldFact =>
    refine hheld nofun fun hl => ?_
    show (s.foldBackendStructural w).diskLow = true
    unfold foldBackendStructural
    split
    · exact hl
    · simp only []
      split
      · exact low_observe w _
      · exact hl
  | _ => exact hheld nofun id

/-! ### One torrent that downloads -/

def oneTorrent (floor : Nat) : DiskHold :=
  ⟨newOwner [plainJob], .default, decide (0 < floor), false, false⟩

theorem start_oneTorrent (floor : Nat) : Start floor (oneTorrent floor) :=
  ⟨rfl, rfl, rfl, rfl, fun _ => (by decide : ∀ j ∈ [plainJob], stoppedForStorage j = false)⟩

def full : List Step := [.outOfSpace, .report (.stopped 1 .storageFull), .foldFact]

def after (floor : Nat) (l : List Step) : DiskHold :=
  (l.map (fairWorld 0, ·)).foldl (step floor) (oneTorrent floor)

theorem reached_after {ok : DiskHold → World × Step → Prop} {l : List Step}
    (hl : ∀ s, ∀ i ∈ l, ok s (fairWorld 0, i)) : Reached floor ok (after floor l) := by
  refine Run.foldl (.start (start_oneTorrent floor)) (throughout_of_forall (fun i hi s => ?_) _)
  obtain ⟨j, hj, rfl⟩ := List.mem_map.mp hi
  exact hl s j hj

def plenty : DiskGuardReading :=
  selectLimitingVolume [storageVolumeReading ⟨"data", ["/", "data"]⟩ (some ⟨200, 1000⟩) none]

theorem symmetric_iff_plenty :
    EndsRight 100 .updateDiskGuard (after 100 (full ++ [.probe plenty]))
        (after 100 (full ++ [.probe plenty, .updateDiskGuard])) ∧
      (after 100 (full ++ [.probe plenty, .updateDiskGuard])).owner.jobs.all Owner.runnable
        = true := by
  have hreached : Reached 100 (Careful 100) (after 100 (full ++ [.probe plenty])) := by
    refine reached_after fun s i hi => ?_
    rintro rfl
    simp [full] at hi
  have hends := ((symmetric_iff (by decide) hreached).2 (fairWorld 0, .updateDiskGuard)).mpr nofun
  exact ⟨hends rfl rfl, by decide⟩

/-- **The operator ends the hold, and the torrent stays stopped.** -/
theorem left_stopped : Reached 0 (fun _ _ => True) (after 0 full) ∧
    ¬(after 0 full).Symmetric 0 (fairWorld 0, .resumeAll) ∧
    (after 0 (full ++ [.resumeAll])).diskLow = false ∧
    (after 0 (full ++ [.resumeAll])).owner.jobs.map stoppedForStorage = [true] := by
  refine ⟨reached_after fun _ _ _ => trivial, fun h => ?_, by decide, by decide⟩
  have hfreed := (h rfl rfl).freed
  have hnone := forall_freed_iff.mp hfreed
  exact absurd (hnone _ (List.mem_singleton_self _)) (by decide)

end DiskHold

end Torrent

end Nzbd
