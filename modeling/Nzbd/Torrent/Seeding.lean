import Nzbd.Torrent.Accounting
import Nzbd.Torrent.Fifo

/-!
# The time a torrent has been seeding

A tick adds to each torrent that seeds what has passed since the tick before, if that one has
seen it seeding too (`accrue`).  `readings` is what these ticks have read off the clock, and
`seedSeconds` what has passed between two of them that come one after the other; a difference
below zero counts for nothing there.

The owner reads a difference below zero without its sign (`elapsedSecs`): one clock that is set
back is taken for more seconds than there are, and the time limit of the torrent is reached at
once (`stopped_by_clock`).  As long as the clock is not set back between two such ticks,
`neverEarly_of_run` holds, over pauses, restarts and saves that fail.
-/

namespace Nzbd.Torrent

open Runs (Run)

/-! ### Readings -/

/-- The seconds between readings that come one after the other; the last one comes first, and
`none` is a tick at which there was nothing to read. -/
def seedSeconds : List (Option Int) → Nat
  | some now :: some last :: l => (now - last).toNat + seedSeconds (some last :: l)
  | _ :: l => seedSeconds l
  | [] => 0

theorem seedSeconds_none (l : List (Option Int)) : seedSeconds (none :: l) = seedSeconds l := by
  cases l <;> rfl

theorem seedSeconds_some {now : Int} {l : List (Option Int)} (h : l.head?.join = none) :
    seedSeconds (some now :: l) = seedSeconds l := by
  match l, h with
  | [], _ => rfl
  | none :: l, _ => rfl

theorem seedSeconds_some_some {now last : Int} {l : List (Option Int)}
    (h : l.head?.join = some last) :
    seedSeconds (some now :: l) = (now - last).toNat + seedSeconds l := by
  match l, h with
  | some _ :: l, rfl => rfl

theorem seedSeconds_le (r : Option Int) (l : List (Option Int)) :
    seedSeconds l ≤ seedSeconds (r :: l) := by
  cases r with
  | none => exact (seedSeconds_none l).ge
  | some now =>
    cases h : l.head?.join with
    | none => exact (seedSeconds_some h).ge
    | some last =>
      rw [seedSeconds_some_some h]
      omega

theorem elapsedSecs_le {last now : Int} (h : last ≤ now) :
    Owner.elapsedSecs last now ≤ (now - last).toNat := by
  unfold Owner.elapsedSecs
  omega

/-! ### The owner and what it has read -/

def Job.seeded (j : Job) : Nat := (j.torrent.map (·.seedingSeconds)).getD 0

/-- The time limit of a torrent was found to be reached. -/
structure Stop where
  job : JobId
  limit : Nat
  /-- What the readings come to. -/
  observed : Nat
  deriving DecidableEq

structure Seeding where
  owner : Owner
  readings : JobId → List (Option Int)
  stops : List Stop

inductive SeedInput
  | tick
  | request (i : Input)
  | setSeedPolicy (job : JobId) (policy : SeedPolicy)
  /-- Another job; ids are not given out again. -/
  | addJob (j : Job)
  /-- The process ends, and the next one starts from the snapshot. -/
  | restart

/-- What may not be a policy. -/
def SeedPolicy.refused (finite : BitVec 64 → Bool) (p : SeedPolicy) : Bool :=
  p.ratioLimit.any (!finite ·) || p.timeLimitSecs = some 0

namespace Seeding

def timeStops (w : World) (readings : JobId → List (Option Int)) (jobs : List Job) : List Stop :=
  (jobs.filter Owner.isSeeding).filterMap fun j =>
    j.torrent.bind fun t =>
      if seedPolicyStopReason w t = some .timeLimit then
        t.seedPolicy.timeLimitSecs.map fun limit => ⟨j.id, limit, seedSeconds (readings j.id)⟩
      else none

/-- What a tick reads of each torrent. -/
def read (w : World) (s : Seeding) (id : JobId) : List (Option Int) :=
  (if id ∈ (s.owner.jobs.filter Owner.isSeeding).map (·.id) then some w.nowUnix else none) ::
    s.readings id

def tick (w : World) (s : Seeding) : Seeding where
  owner := s.owner.updateSeedPolicies w
  readings := s.read w
  stops := s.stops ++
    timeStops w (s.read w) (s.owner.jobs.map (Owner.accrue w s.owner.seedClockUnix))

def withPolicy (policy : SeedPolicy) (j : Job) : Job :=
  { j with torrent := j.torrent.map fun t => { t with seedPolicy := policy } }

/-- The policy is saved, or it is taken back. -/
def savePolicy (w : World) (finite : BitVec 64 → Bool) (s : Seeding) (id : JobId)
    (policy : SeedPolicy) : Bool × Seeding :=
  if policy.refused finite then (false, s)
  else
    match s.owner.job id with
    | none => (false, s)
    | some before =>
      if before.torrent.isNone then (false, s)
      else
        let r := (s.owner.updateJob id (withPolicy policy)).persistIfOwner w
        if r.1 then (true, { s with owner := r.2 })
        else (false, { s with owner := r.2.updateJob id fun _ => before })

/-- A policy that has been saved is looked at. -/
def setSeedPolicy (w : World) (finite : BitVec 64 → Bool) (s : Seeding) (id : JobId)
    (policy : SeedPolicy) : Seeding :=
  let r := s.savePolicy w finite id policy
  if r.1 then r.2.tick w else r.2

def addJob (s : Seeding) (j : Job) : Seeding :=
  if j.id ∈ (s.owner.jobs ++ s.owner.disk).map (·.id) ∨ j.seeded ≠ 0 then s
  else { s with owner := { s.owner with jobs := s.owner.jobs ++ [j] } }

/-- Nothing but the snapshot is left. -/
def restarted (w : World) (o : Owner) : Owner :=
  { newOwner (o.disk.map (Job.restored w.nowUnix)) with
    torrentPayloadRoots := o.torrentPayloadRoots
    disk := o.disk
    history := o.history
    log := o.log }

def restart (w : World) (s : Seeding) : Seeding where
  owner := restarted w s.owner
  readings := fun id => none :: s.readings id
  stops := s.stops

def step (finite : BitVec 64 → Bool) (s : Seeding) (i : World × SeedInput) : Seeding :=
  match i.2 with
  | .tick => s.tick i.1
  | .request .updateSeedPolicies => s.tick i.1
  | .request r => { s with owner := s.owner.step i.1 r }
  | .setSeedPolicy id policy => s.setSeedPolicy i.1 finite id policy
  | .addJob j => s.addJob j
  | .restart => s.restart i.1

/-- **What is claimed.** -/
structure NeverEarly (s : Seeding) : Prop where
  counted : ∀ j ∈ s.owner.jobs, j.seeded ≤ seedSeconds (s.readings j.id)
  /-- After a crash it is what has been saved that counts. -/
  saved : ∀ j ∈ s.owner.disk, j.seeded ≤ seedSeconds (s.readings j.id)
  stopped : ∀ stop ∈ s.stops, stop.limit ≤ stop.observed

/-- No torrent that seeds was last seen seeding at a later time. -/
def NotSetBack (s : Seeding) (now : Int) : Prop :=
  ∀ j ∈ s.owner.jobs, Owner.isSeeding j = true → ∀ last ∈ s.owner.seedClockUnix j.id, last ≤ now

instance (s : Seeding) (now : Int) : Decidable (s.NotSetBack now) :=
  inferInstanceAs (Decidable (∀ j ∈ s.owner.jobs, Owner.isSeeding j = true →
    ∀ last ∈ s.owner.seedClockUnix j.id, last ≤ now))

/-- **The condition on a step**: a tick finds the clock where it was or later. -/
def Forward (finite : BitVec 64 → Bool) (s : Seeding) (i : World × SeedInput) : Prop :=
  match i.2 with
  | .tick => s.NotSetBack i.1.nowUnix
  | .request .updateSeedPolicies => s.NotSetBack i.1.nowUnix
  | .setSeedPolicy id policy =>
    (s.savePolicy i.1 finite id policy).1 = true →
      (s.savePolicy i.1 finite id policy).2.NotSetBack i.1.nowUnix
  | _ => True

/-- A queue that has not seeded anything, as a snapshot has it. -/
structure Start (s : Seeding) : Prop where
  jobs : ∀ j ∈ s.owner.jobs, j.seeded = 0
  disk : ∀ j ∈ s.owner.disk, j.seeded = 0
  clock : ∀ id, s.owner.seedClockUnix id = none
  readings : ∀ id, s.readings id = []
  stops : s.stops = []

def Reached (finite : BitVec 64 → Bool) : Seeding → Prop :=
  Run Start (fun s i s' => s' = s.step finite i) (Forward finite)

end Seeding

/-! ### Steps that count no seconds -/

/-- No job has been seeding for longer than this. -/
structure Within (b : JobId → Nat) (o : Owner) : Prop where
  jobs : ∀ j ∈ o.jobs, j.seeded ≤ b j.id
  disk : ∀ j ∈ o.disk, j.seeded ≤ b j.id

/-- A step that lets no job seed. -/
structure Idle (o o' : Owner) : Prop where
  clock : o'.seedClockUnix = o.seedClockUnix
  within : ∀ b, Within b o → Within b o'

namespace Idle

variable {o o' : Owner}

theorem refl (o : Owner) : Idle o o := ⟨rfl, fun _ h => h⟩

theorem trans {o'' : Owner} (h : Idle o o') (h' : Idle o' o'') : Idle o o'' :=
  ⟨h'.clock.trans h.clock, fun b hb => h'.within b (h.within b hb)⟩

theorem still (hjobs : o'.jobs = o.jobs) (hdisk : o'.disk = o.disk)
    (hclock : o'.seedClockUnix = o.seedClockUnix) : Idle o o' :=
  ⟨hclock, fun _ h => ⟨hjobs ▸ h.jobs, hdisk ▸ h.disk⟩⟩

theorem of_onlyCommands (h : OnlyCommands o o') : Idle o o' := by
  obtain ⟨_, _, _, rfl⟩ := h
  exact .still rfl rfl rfl

theorem of_jobs (hdisk : o'.disk = o.disk) (hclock : o'.seedClockUnix = o.seedClockUnix)
    (h : ∀ j ∈ o'.jobs, ∃ i ∈ o.jobs, i.id = j.id ∧ i.seeded = j.seeded) : Idle o o' := by
  refine ⟨hclock, fun b hb => ⟨fun j hj => ?_, hdisk ▸ hb.disk⟩⟩
  obtain ⟨i, hi, hid, hseeded⟩ := h j hj
  rw [← hid, ← hseeded]
  exact hb.jobs i hi

end Idle

theorem within_putBack {b : JobId → Nat} {o : Owner} (h : Within b o) (id : JobId) {before : Job}
    (hbefore : before.seeded ≤ b before.id) : Within b (o.updateJob id fun _ => before) := by
  refine ⟨fun j hj => ?_, h.disk⟩
  rcases List.mem_modifyFirst hj with hj | ⟨_, -, rfl⟩
  · exact h.jobs j hj
  · exact hbefore

variable (w : World)

theorem idle_saveSnapshot (o : Owner) : Idle o (o.saveSnapshot w).2 := by
  simp only [Owner.saveSnapshot]
  split
  · split
    · exact ⟨rfl, fun b h => ⟨h.jobs, h.jobs⟩⟩
    · next landed _ =>
      refine ⟨rfl, fun b h => ⟨h.jobs, ?_⟩⟩
      change ∀ j ∈ (if landed then o.jobs else o.disk), j.seeded ≤ b j.id
      split
      · exact h.jobs
      · exact h.disk
    · exact .still rfl rfl rfl
  · exact .refl o

theorem idle_persistIfOwner (o : Owner) : Idle o (o.persistIfOwner w).2 := by
  simp only [Owner.persistIfOwner]
  split
  · exact idle_saveSnapshot w o
  · exact .refl o

theorem idle_persistThenCommand (o : Owner) (c : BackendCommand) :
    Idle o (o.persistThenCommand w c).2 := by
  rcases onlyCommands_persistThenCommand w o c with h | h
  · exact .of_onlyCommands h
  · exact (idle_persistIfOwner w o).trans (.of_onlyCommands h)

theorem seeded_map {i j : Job} {f : TorrentRecord → TorrentRecord}
    (hi : i.torrent = j.torrent.map f) (hf : ∀ t, (f t).seedingSeconds = t.seedingSeconds) :
    i.seeded = j.seeded := by
  unfold Job.seeded
  rw [hi]
  cases j.torrent with
  | none => rfl
  | some t => exact hf t

/-! ### Samples and facts -/

theorem seeded_some {i j : Job} {t u : TorrentRecord} (ht : j.torrent = some t)
    (hi : i.torrent = some u) (h : u.seedingSeconds = t.seedingSeconds) : i.seeded = j.seeded := by
  simp only [Job.seeded, hi, ht, Option.map_some, Option.getD_some, h]

theorem foldSample_seeded (j : Job) (p : TransferProgress) :
    (Owner.foldSample j p).1.id = j.id ∧ (Owner.foldSample j p).1.seeded = j.seeded := by
  simp only [Owner.foldSample, reconcileProgress]
  split
  · exact ⟨rfl, rfl⟩
  · next t ht =>
    split
    · exact ⟨rfl, seeded_some ht rfl rfl⟩
    · exact ⟨rfl, rfl⟩

theorem onStopped_seeded (j : Job) {t : TorrentRecord} (ht : j.torrent = some t)
    (reason : StopReason) :
    (onStopped w j t reason).id = j.id ∧ (onStopped w j t reason).seeded = j.seeded := by
  cases reason with
  | paused => exact ⟨rfl, seeded_some ht rfl rfl⟩
  | storageFull => exact ⟨rfl, seeded_some ht rfl rfl⟩
  | schedulerYield => exact ⟨rfl, seeded_some ht rfl rfl⟩
  | missingContent => exact ⟨rfl, seeded_some ht rfl rfl⟩
  | transient =>
    simp only [onStopped]
    split
    · exact ⟨rfl, rfl⟩
    · split
      · exact ⟨rfl, seeded_some ht rfl rfl⟩
      · split
        · exact ⟨rfl, seeded_some ht rfl rfl⟩
        · exact ⟨rfl, rfl⟩
  | seedPolicyReached => exact ⟨rfl, seeded_some ht rfl rfl⟩
  | removed => exact ⟨rfl, rfl⟩
  | shutdown => exact ⟨rfl, rfl⟩

theorem folded_seeded (roots : List PathBuf) (j : Job) {t : TorrentRecord}
    (ht : j.torrent = some t) (latest : Option TransferProgress) (fact : BackendFact) :
    (folded w roots j t latest fact).id = j.id ∧
      (folded w roots j t latest fact).seeded = j.seeded := by
  cases fact with
  | metadataReady => exact ⟨rfl, seeded_some ht rfl rfl⟩
  | ready id path =>
    simp only [folded]
    split
    · exact ⟨rfl, seeded_some ht rfl rfl⟩
    · exact ⟨rfl, rfl⟩
  | stopped id reason => exact onStopped_seeded w j ht reason
  | resumed id =>
    simp only [folded, onResumed]
    split
    · exact ⟨rfl, seeded_some ht rfl rfl⟩
    · exact ⟨rfl, seeded_some ht rfl rfl⟩
  | removed id outcome =>
    cases outcome with
    | dataDeleted => exact ⟨rfl, rfl⟩
    | dataKept => exact ⟨rfl, rfl⟩
    | refusedUnsafeRoot => exact ⟨rfl, seeded_some ht rfl rfl⟩
    | refusedInventoryMismatch => exact ⟨rfl, seeded_some ht rfl rfl⟩
  | failed id error => exact ⟨rfl, seeded_some ht rfl rfl⟩

theorem reconcileFact_seeded (roots : List PathBuf) (j : Job) (fact : BackendFact)
    (latest : Option TransferProgress) :
    (reconcileFact w roots j fact latest).1.id = j.id ∧
      (reconcileFact w roots j fact latest).1.seeded = j.seeded := by
  simp only [reconcileFact]
  split
  · exact ⟨rfl, rfl⟩
  · next t ht =>
    split
    · exact ⟨rfl, rfl⟩
    · exact folded_seeded w roots j ht latest fact

/-! ### Steps -/

def SameSeconds (j j' : Job) : Prop := j'.id = j.id ∧ j'.seeded = j.seeded

theorem respects_idle : Respects w SameSeconds (fun _ => True) Idle where
  same _ := ⟨rfl, rfl⟩
  refl := .refl
  trans := .trans
  beside h hfrom := by
    obtain ⟨_, _, _, _, _, rfl⟩ := h
    refine .of_jobs rfl rfl fun j hj => ?_
    obtain ⟨i, hi, hid, hseeded⟩ := hfrom j hj
    exact ⟨i, hi, hid.symm, hseeded.symm⟩
  putBack h hj :=
    ⟨h.clock, fun b hb => within_putBack (h.within b hb) _ (hb.jobs _ (List.mem_of_find?_eq_some hj))⟩
  enqueue o c _ := .of_onlyCommands (onlyCommands_enqueueBackendCommand w o c)
  persistThen o c _ := idle_persistThenCommand w o c
  flush o := .of_onlyCommands (onlyCommands_flushFrom w _ o)
  save o := idle_saveSnapshot w o
  record o id at' := by
    simp only [Owner.record]
    split <;> exact .still rfl rfl rfl

theorem sameSeconds_releasedJob (j : Job) : SameSeconds j (Owner.releasedJob j) := by
  unfold Owner.releasedJob
  split
  · exact ⟨rfl, rfl⟩
  · next t ht =>
    split
    · exact ⟨rfl, seeded_some ht rfl rfl⟩
    · exact ⟨rfl, rfl⟩

/-- **Only a look at the policies counts seconds.** -/
theorem idle_step (o : Owner) {i : Input} (hi : i ≠ .updateSeedPolicies) :
    Idle o (o.step w i) := by
  have hlimit : ∀ (o : Owner) l, Idle o { o with appliedTorrentLimit := l } := fun _ _ => .still rfl rfl rfl
  refine (respects_idle w).step o ?_
  cases i with
  | pause => exact ⟨trivial, fun _ => ⟨rfl, seeded_map rfl fun _ => rfl⟩, fun _ _ => ⟨rfl, rfl⟩⟩
  | resume => exact ⟨fun _ => ⟨rfl, seeded_map rfl fun _ => rfl⟩, fun _ => ⟨rfl, rfl⟩⟩
  | delete => exact ⟨fun _ _ _ => trivial, fun _ => ⟨rfl, seeded_map rfl fun _ => rfl⟩⟩
  | setPriority => exact ⟨trivial, fun _ => ⟨rfl, rfl⟩⟩
  | setSpeedLimit => exact ⟨trivial, hlimit⟩
  | rebalance => exact ⟨trivial, hlimit⟩
  | foldProgress => exact foldSample_seeded
  | foldFacts => exact ⟨reconcileFact_seeded w, fun _ _ => ⟨rfl, seeded_map rfl fun _ => rfl⟩⟩
  | updateSeedPolicies => exact absurd rfl hi
  | settleLabels => exact fun _ => ⟨rfl, rfl⟩
  | releaseStorage => exact sameSeconds_releasedJob
  | _ => simp [Allows]

/-! ### Ticks -/

theorem accrue_id (clock : JobId → Option Int) (j : Job) :
    (Owner.accrue w clock j).id = j.id := by
  unfold Owner.accrue
  split <;> rfl

theorem timeLimit_reached {w : World} {t : TorrentRecord} {limit : Nat}
    (h : seedPolicyStopReason w t = some .timeLimit) (hlimit : t.seedPolicy.timeLimitSecs = some limit) :
    limit ≤ t.seedingSeconds := by
  unfold seedPolicyStopReason at h
  split at h
  · cases h
  · split at h
    · cases h
    · split at h
      · next hany => simpa [hlimit] using hany
      · cases h

namespace Seeding

/-- What keeps a run going: the clock of the owner is the last reading. -/
structure Sound (s : Seeding) : Prop extends NeverEarly s where
  clock : ∀ id, s.owner.seedClockUnix id = (s.readings id).head?.join

variable {s : Seeding}

theorem Sound.within (h : s.Sound) :
    Within (fun id => seedSeconds (s.readings id)) s.owner := ⟨h.counted, h.saved⟩

theorem Sound.of_idle (h : s.Sound) {o : Owner} (hi : Idle s.owner o) :
    Sound { s with owner := o } :=
  have hw := hi.within _ h.within
  ⟨⟨hw.jobs, hw.disk, h.stopped⟩, fun id => (congrFun hi.clock id).trans (h.clock id)⟩

theorem read_of_seeding {w : World} {j : Job} (hj : j ∈ s.owner.jobs)
    (hseeding : Owner.isSeeding j = true) :
    s.read w j.id = some w.nowUnix :: s.readings j.id := by
  have hmem : j.id ∈ (s.owner.jobs.filter Owner.isSeeding).map (·.id) :=
    List.mem_map_of_mem (List.mem_filter.mpr ⟨hj, hseeding⟩)
  unfold read
  rw [if_pos hmem]

/-- **A tick counts what it has read.** -/
theorem accrued_le {w : World} (h : s.Sound) (hback : s.NotSetBack w.nowUnix)
    {j : Job} (hj : j ∈ s.owner.jobs) :
    (Owner.accrue w s.owner.seedClockUnix j).seeded ≤ seedSeconds (s.read w j.id) := by
  have hbefore := h.counted j hj
  cases hseeding : Owner.isSeeding j with
  | false =>
    have hsame : Owner.accrue w s.owner.seedClockUnix j = j := by
      unfold Owner.accrue
      rw [if_neg (by simp [hseeding])]
    rw [hsame]
    exact hbefore.trans (seedSeconds_le _ _)
  | true =>
    obtain ⟨t, ht, -⟩ := Option.any_eq_true .. |>.mp hseeding
    have hold : j.seeded = t.seedingSeconds := by simp [Job.seeded, ht]
    have hnew : (Owner.accrue w s.owner.seedClockUnix j).seeded ≤ t.seedingSeconds +
        Owner.elapsedSecs ((s.owner.seedClockUnix j.id).getD w.nowUnix) w.nowUnix := by
      unfold Owner.accrue
      rw [if_pos hseeding]
      simp only [Job.seeded, ht, Option.map_some, Option.getD_some]
      exact min_le_right _ _
    rw [read_of_seeding hj hseeding]
    have hclock := h.clock j.id
    cases hlast : s.owner.seedClockUnix j.id with
    | none =>
      rw [hlast] at hnew hclock
      have hzero := elapsedSecs_le (le_refl w.nowUnix)
      rw [seedSeconds_some hclock.symm]
      simp only [Option.getD_none] at hnew
      omega
    | some last =>
      rw [hlast] at hnew hclock
      have helapsed := elapsedSecs_le (hback j hj hseeding last hlast)
      rw [seedSeconds_some_some hclock.symm]
      simp only [Option.getD_some] at hnew
      omega

theorem sound_tick {w : World} (h : s.Sound) (hback : s.NotSetBack w.nowUnix) :
    (s.tick w).Sound := by
  have hcounted : ∀ j ∈ s.owner.jobs.map (Owner.accrue w s.owner.seedClockUnix),
      j.seeded ≤ seedSeconds (s.read w j.id) := by
    intro i hi
    obtain ⟨j, hj, rfl⟩ := List.mem_map.mp hi
    rw [accrue_id]
    exact accrued_le h hback hj
  -- the owner once the seconds are counted, before the policies are looked at
  let live := (s.owner.jobs.filter Owner.isSeeding).map (·.id)
  let o : Owner := { s.owner with
    jobs := s.owner.jobs.map (Owner.accrue w s.owner.seedClockUnix)
    seedClockUnix := fun id => if id ∈ live then some w.nowUnix else none }
  have hstep : ∀ (o : Owner) (r : JobId × TorrentStopReason), Idle o (o.pauseForSeedPolicy w r.1 r.2).2 := by
    intro o r
    simp only [Owner.pauseForSeedPolicy]
    split
    · exact .refl o
    · refine (respects_idle w).requestChange o r.1 (fun _ => ?_) trivial
      exact ⟨rfl, seeded_map rfl fun _ => rfl⟩
  have hpause : Idle o (s.owner.updateSeedPolicies w) :=
    (respects_idle w).foldl hstep (Owner.reachedPolicies w o.jobs) o
  have hwithin : Within (fun id => seedSeconds (s.read w id)) o :=
    ⟨hcounted, fun j hj => (h.saved j hj).trans (seedSeconds_le _ _)⟩
  have hafter := hpause.within _ hwithin
  refine ⟨⟨hafter.jobs, hafter.disk, fun stop hstop => ?_⟩, fun id => ?_⟩
  · rcases List.mem_append.mp hstop with hold | hnew
    · exact h.stopped stop hold
    · obtain ⟨j, hj, hbind⟩ := List.mem_filterMap.mp hnew
      obtain ⟨t, ht, hreached⟩ := Option.bind_eq_some_iff.mp hbind
      split at hreached
      · next hreason =>
        obtain ⟨limit, hlimit, rfl⟩ := Option.map_eq_some_iff.mp hreached
        have hle : limit ≤ t.seedingSeconds := timeLimit_reached hreason hlimit
        have hseeded : j.seeded = t.seedingSeconds := by simp [Job.seeded, ht]
        have := hcounted j (List.mem_filter.mp hj).1
        change limit ≤ seedSeconds (s.read w j.id)
        omega
      · cases hreached
  · rw [show (s.tick w).owner.seedClockUnix = o.seedClockUnix from hpause.clock]
    change (if id ∈ live then some w.nowUnix else none) = (List.head? (_ :: _)).join
    rfl

theorem idle_savePolicy (finite : BitVec 64 → Bool) (s : Seeding) (id : JobId)
    (policy : SeedPolicy) :
    ∃ o, (s.savePolicy w finite id policy).2 = { s with owner := o } ∧ Idle s.owner o := by
  have hfield : ∀ j, SameSeconds j (withPolicy policy j) := fun _ => ⟨rfl, seeded_map rfl fun _ => rfl⟩
  have hpolicy : Idle s.owner ((s.owner.updateJob id (withPolicy policy)).persistIfOwner w).2 :=
    ((respects_idle w).updateJob s.owner id fun j _ => hfield j).trans (idle_persistIfOwner w _)
  simp only [savePolicy]
  split
  · exact ⟨s.owner, rfl, .refl _⟩
  · split
    · exact ⟨s.owner, rfl, .refl _⟩
    · next before hbefore =>
      split
      · exact ⟨s.owner, rfl, .refl _⟩
      · split
        · exact ⟨_, rfl, hpolicy⟩
        · refine ⟨_, rfl, hpolicy.clock, fun b hb => within_putBack (hpolicy.within b hb) id ?_⟩
          exact hb.jobs before (List.mem_of_find?_eq_some hbefore)

theorem sound_addJob (h : s.Sound) (j : Job) : (s.addJob j).Sound := by
  unfold addJob
  split
  · exact h
  · next hnew =>
    rw [not_or, not_not] at hnew
    refine ⟨⟨fun i hi => ?_, h.saved, h.stopped⟩, h.clock⟩
    rcases List.mem_append.mp hi with hi | hi
    · exact h.counted i hi
    · rw [List.mem_singleton.mp hi, hnew.2]
      exact Nat.zero_le _

theorem sound_restart {w : World} (h : s.Sound) : (s.restart w).Sound := by
  refine ⟨⟨fun i hi => ?_, fun j hj => ?_, h.stopped⟩, fun id => rfl⟩
  · obtain ⟨j, hj, rfl⟩ := List.mem_map.mp hi
    have hseeded : (Job.restored w.nowUnix j).seeded = j.seeded := seeded_map rfl fun _ => rfl
    rw [hseeded]
    change j.seeded ≤ seedSeconds (none :: s.readings j.id)
    rw [seedSeconds_none]
    exact h.saved j hj
  · change j.seeded ≤ seedSeconds (none :: s.readings j.id)
    rw [seedSeconds_none]
    exact h.saved j hj

theorem sound_step {finite : BitVec 64 → Bool} {i : World × SeedInput}
    (h : s.Sound) (hi : s.Forward finite i) : (s.step finite i).Sound := by
  obtain ⟨w, i⟩ := i
  cases i with
  | tick => exact sound_tick h hi
  | request r =>
    by_cases hr : r = .updateSeedPolicies
    · subst hr
      exact sound_tick h hi
    · have hidle := h.of_idle (idle_step w s.owner hr)
      cases r with
      | updateSeedPolicies => exact absurd rfl hr
      | _ => exact hidle
  | setSeedPolicy id policy =>
    obtain ⟨o, ho, hidle⟩ := idle_savePolicy w finite s id policy
    have hsaved : (s.savePolicy w finite id policy).2.Sound := ho ▸ h.of_idle hidle
    change (if _ then _ else _ : Seeding).Sound
    simp only []
    split
    · next htrue => exact sound_tick hsaved (hi htrue)
    · exact hsaved
  | addJob j => exact sound_addJob h j
  | restart => exact sound_restart h

theorem sound_of_start (h : s.Start) : s.Sound where
  counted j hj := (h.jobs j hj).le.trans (Nat.zero_le _)
  saved j hj := (h.disk j hj).le.trans (Nat.zero_le _)
  stopped stop hstop := by simp [h.stops] at hstop
  clock id := by rw [h.clock, h.readings]; rfl

/-- **A seed limit is never early** while the clock is not set back between two ticks. -/
theorem neverEarly_of_run {finite : BitVec 64 → Bool} {s : Seeding} (h : Reached finite s) :
    s.NeverEarly :=
  have hsound : s.Sound := Run.invariant (P := Sound) (fun _ => sound_of_start)
    (fun s i t hs hi ht => by rw [ht]; exact sound_step hs hi) h
  hsound.toNeverEarly

def seedingOne : Seeding where
  owner := newOwner [{ plainJob with torrent := some { plainRecord with
    phase := .seeding
    readyAtUnix := some 900
    seedPolicy := ⟨false, none, some 60⟩ } }]
  readings := fun _ => []
  stops := []

theorem start_seedingOne : seedingOne.Start :=
  ⟨by decide, by decide, fun _ => rfl, fun _ => rfl, rfl⟩

def ticked (s : Seeding) (first second : Int) : Seeding :=
  (s.step (fun _ => true) (fairWorld first, .tick)).step (fun _ => true) (fairWorld second, .tick)

theorem neverEarly_ticked : (ticked seedingOne 1000 1060).NeverEarly ∧
    (ticked seedingOne 1000 1060).stops = [⟨1, 60, 60⟩] :=
  have hfirst : seedingOne.NotSetBack 1000 := by decide
  have hsecond : (seedingOne.step (fun _ => true) (fairWorld 1000, .tick)).NotSetBack 1060 := by
    decide
  ⟨neverEarly_of_run (.step (i := (fairWorld 1060, .tick))
      (.step (i := (fairWorld 1000, .tick)) (.start start_seedingOne) hfirst rfl) hsecond rfl),
    by decide⟩

/-- **A second back is enough**: the torrent is stopped at once. -/
theorem stopped_by_clock : seedingOne.Start ∧
    (ticked seedingOne 1000 999).stops = [⟨1, 60, 0⟩] ∧
    (ticked seedingOne 1000 999).owner.jobs.map Job.seeded = [2 ^ 64 - 1] ∧
    ¬(ticked seedingOne 1000 999).NeverEarly := by
  have hstops : (ticked seedingOne 1000 999).stops = [⟨1, 60, 0⟩] := by decide
  refine ⟨start_seedingOne, hstops, by decide, fun h => ?_⟩
  have hstop := h.stopped ⟨1, 60, 0⟩ (by rw [hstops]; exact List.mem_singleton_self _)
  exact absurd hstop (by decide)

end Seeding

end Nzbd.Torrent
