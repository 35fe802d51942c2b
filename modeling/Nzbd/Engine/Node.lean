import Nzbd.Engine.Lease

/-!
# A node

A daemon and its state directory: the snapshot of the queue and the journals of its
jobs.  The owner is there or not.  It starts from the directory, takes messages one
after the other, and may die at any moment, also in the middle of what it is doing.

A write is not undone by a crash, but it may be unfinished: of a save the snapshot is
in place and only some of the journals have been removed; and every journal may have
lost a part of its last record.

`keyed_of_run` is the invariant everything else rests on: in a run whose messages bring
in fresh ids the keys of the queue and of the snapshot are distinct.
-/

namespace Nzbd.Engine

open Nzbd.State (Codec JournalRecord)

/-! ### The state directory -/

structure JournalFile where
  job : JobId
  /-- What the executor puts behind the name: the id of its lease, or `local`. -/
  suffix : Text
  pieces : State.Disk

def localSuffix : Text := text "local"

structure StateDir where
  snapshot : Option QueueSnapshotDoc
  journals : List JournalFile

namespace StateDir

variable (c : Codec)

def isLocal (job : JobId) (f : JournalFile) : Bool := f.job = job && f.suffix = localSuffix

def appendPiece (r : JournalRecord) (f : JournalFile) : JournalFile :=
  { f with pieces := f.pieces.apply c (.append r) }

def append (d : StateDir) (r : JournalRecord) : StateDir :=
  if d.journals.any (isLocal r.job) then
    { d with journals := d.journals.modifyFirst (isLocal r.job) (appendPiece c r) }
  else { d with journals := d.journals ++ [appendPiece c r ⟨r.job, localSuffix, []⟩] }

def apply (d : StateDir) : DiskWrite → StateDir
  | .append r => d.append c r
  | .save doc keep => { snapshot := some doc, journals := d.journals.filter (·.job ∈ keep) }
  | .removeJournal job => { d with journals := d.journals.filter (·.job ≠ job) }

def applyAll (d : StateDir) (log : List DiskWrite) : StateDir := log.foldl (apply c) d

/-- The snapshot recovery starts from. -/
def doc (d : StateDir) : QueueSnapshotDoc := d.snapshot.getD QueueState.default.toDoc

/-- What a replay of every journal returns. -/
def records (d : StateDir) : List JournalRecord :=
  d.journals.flatMap fun f => c.replayFile (f.pieces.file c)

/-- The writes of a log up to some point, the last of them perhaps unfinished. -/
inductive Interrupted : StateDir → List DiskWrite → StateDir → Prop
  | stop (d : StateDir) (log : List DiskWrite) : Interrupted d log d
  | write {d d' : StateDir} {e : DiskWrite} {log : List DiskWrite} :
      Interrupted (d.apply c e) log d' → Interrupted d (e :: log) d'
  /-- The snapshot is in place; some of the journals are still there. -/
  | compacting {d : StateDir} (doc : QueueSnapshotDoc) (keep : List JobId) (log : List DiskWrite)
      {left : List JournalFile} : left.Sublist d.journals →
      Interrupted d (.save doc keep :: log) ⟨some doc, left⟩
  | removing {d : StateDir} (job : JobId) (log : List DiskWrite) {left : List JournalFile} :
      left.Sublist d.journals → Interrupted d (.removeJournal job :: log) { d with journals := left }

/-- A journal has lost a part of its last record. -/
def Torn (f g : JournalFile) : Prop :=
  ∃ k, g = { f with pieces := f.pieces.apply c (.tear k) }

/-- What a crash makes of the directory. -/
def Crashed (d : StateDir) (log : List DiskWrite) (d' : StateDir) : Prop :=
  ∃ left : StateDir, Interrupted c d log left ∧ d'.snapshot = left.snapshot ∧
    List.Forall₂ (Torn c) left.journals d'.journals

end StateDir

/-! ### The node -/

structure Node where
  disk : StateDir
  /-- The owner, with an empty log, if the daemon runs. -/
  owner : Option Owner
  /-- Every report of a written segment so far. -/
  written : List JournalRecord

/-- What the daemon is doing. -/
inductive Task
  | idle
  | start (w : World) (cfg : Owner.Config)
  | message (w : World) (m : Msg)

inductive Event
  /-- The daemon does something to its end. -/
  | run (t : Task)
  /-- It dies on the way. -/
  | crash (t : Task)

def Event.task : Event → Task
  | .run t => t
  | .crash t => t

namespace Node

variable (c : Codec) (lower : Text → Text)

/-- The owner at the end of a task, with what it has written. -/
def perform (n : Node) : Task → Option Owner
  | .idle => n.owner
  | .start w cfg =>
    match n.owner with
    | none => some (Owner.start w cfg n.disk.doc (n.disk.records c))
    | some _ => none
  | .message w m => n.owner.map fun o => o.step lower w m

def reports : Task → List JournalRecord
  | .message _ (.segmentWritten r) => [r]
  | _ => []

inductive Next : Node → Event → Node → Prop
  | run {n : Node} {t : Task} {o : Owner} : n.perform c lower t = some o →
      Next n (.run t)
        ⟨n.disk.applyAll c o.log, some { o with log := [] }, reports t ++ n.written⟩
  | crash {n : Node} {t : Task} {o : Owner} {d : StateDir} : n.perform c lower t = some o →
      StateDir.Crashed c n.disk o.log d → Next n (.crash t) ⟨d, none, reports t ++ n.written⟩

/-- An empty state directory, and no daemon. -/
def Init (n : Node) : Prop := n = ⟨⟨none, []⟩, none, []⟩

/-- Reached by events that meet a condition. -/
abbrev Reached (ok : Node → Event → Prop) : Node → Prop := Runs.Run Init (Next c lower) ok

/-- The ids a message brings in are not in use. -/
def Fresh (n : Node) (e : Event) : Prop :=
  ∀ w m o, e.task = .message w m → n.owner = some o → m.Fresh lower w o

end Node

/-! ### Keys -/

namespace Owner

variable {w : World} {lower : Text → Text} {o : Owner}

theorem step_keyed (hk : o.state.WellKeyed) {m : Msg} (hm : m.Fresh lower w o) :
    Holds QueueState.WellKeyed (m.writes ++ o.log) (o.step lower w m) := by
  by_cases hwork : ∀ server n, m ≠ .workRequest server n
  · exact (step_calm hk hm hwork).mono (fun _ ht => ht.keyed) (List.Subset.refl _)
  · push Not at hwork
    obtain ⟨server, n, rfl⟩ := hwork
    exact (grantWork_still hk _).mono (fun _ ht => ht.wellKeyed hk) (List.Subset.refl _)

theorem replayAll_keyed {s : QueueState} (hk : s.WellKeyed) (records : List JournalRecord) :
    (s.replayAll records).WellKeyed := by
  have hrow : ∀ (t : QueueState) r, JobsBy (fun _ _ => True) t.jobs (replayRecord t.jobs r) := by
    intro t r
    refine JobsBy.updateJob chains_true.refl fun j _ => JobBy.updateFile chains_true.refl
      fun f _ => FileBy.updateSegment chains_true.refl fun x _ => ⟨?_, trivial⟩
    rw [markDone_number]
  have hall : JobsBy (fun _ _ => True) s.jobs (records.foldl replayRecord s.jobs) := by
    refine List.foldlRecOn (motive := fun jobs => JobsBy (fun _ _ => True) s.jobs jobs) _ _
      (.refl chains_true.refl _) fun jobs hjobs r _ => ?_
    exact hjobs.trans chains_true.trans (hrow { s with jobs := jobs } r)
  exact hall.wellKeyed (s := s) (t := s.replayAll records) rfl hk

theorem recover_keyed {s : QueueState} (hk : s.WellKeyed) (now : Int)
    (records : List JournalRecord) : (recover now s.toDoc records).state.WellKeyed := by
  have hdoc : (QueueState.fromDoc now s.toDoc).WellKeyed :=
    JobsBy.wellKeyed (s := s) (JobsBy.fromDoc now s.toDoc) rfl hk
  exact (recomputeAllTotals_by _).wellKeyed (replayAll_keyed hdoc records)

theorem recovered_by (cfg : Config) (r : Recovered) :
    StateBy (· = ·) r.state (recovered w cfg r).state := by
  refine ⟨?_, rfl⟩
  show JobsBy _ _ (r.state.jobs.map (holdRetained cfg))
  rw [JobsBy, List.forall₂_map_right_iff, List.forall₂_same]
  intro j _
  unfold holdRetained
  split
  · exact .of_files_eq chains_eq.refl rfl rfl
  · exact .refl chains_eq.refl j

theorem start_holds {P : QueueState → Prop} (hP : Editable P) (cfg : Config)
    (doc : QueueSnapshotDoc) (records : List JournalRecord)
    (h : P (recover w.nowUnix doc records).state) : Holds P [] (start w cfg doc records) := by
  refine startupPass_by hP (Holds.saveSnapshot ?_)
  exact ⟨hP _ _ h (recovered_by cfg _), fun _ he => .inl he⟩

end Owner

namespace Node

variable {c : Codec} {lower : Text → Text}

/-- The snapshot of a queue with distinct keys, or none. -/
def SnapshotKeyed (d : StateDir) : Prop :=
  ∃ s : QueueState, d.doc = s.toDoc ∧ s.WellKeyed

/-- The keys of the queue and of the snapshot are distinct. -/
structure Keyed (n : Node) : Prop where
  owner : ∀ o, n.owner = some o → o.log = [] ∧ o.state.WellKeyed
  disk : SnapshotKeyed n.disk

theorem keyed_init : Keyed ⟨⟨none, []⟩, none, []⟩ := by
  refine ⟨fun o ho => (nomatch ho), QueueState.default, rfl, ?_⟩
  exact QueueState.wellKeyed_iff.mpr ⟨List.nodup_nil, List.nodup_nil, fun j hj => nomatch hj⟩

/-- A task with fresh ids ends in an owner with distinct keys that has saved nothing
else. -/
theorem Keyed.perform {n : Node} (h : n.Keyed) {t : Task} {o : Owner}
    (hfresh : ∀ w m o, t = .message w m → n.owner = some o → m.Fresh lower w o)
    (ho : n.perform c lower t = some o) :
    o.state.WellKeyed ∧
      ∀ doc keep, .save doc keep ∈ o.log → ∃ s : QueueState, doc = s.toDoc ∧ s.WellKeyed := by
  cases t with
  | idle =>
    obtain ⟨hlog, hk⟩ := h.owner o ho
    exact ⟨hk, fun doc keep hmem => by rw [hlog] at hmem; nomatch hmem⟩
  | start w cfg =>
    rw [Node.perform] at ho
    split at ho
    · obtain rfl := Option.some.inj ho
      obtain ⟨s, hs, hk⟩ := h.disk
      rw [hs]
      have hstart := Owner.start_holds (w := w) (fun _ _ ht hst => hst.wellKeyed ht) cfg s.toDoc
        (n.disk.records c) (Owner.recover_keyed hk w.nowUnix (n.disk.records c))
      refine ⟨hstart.state, fun doc keep hmem => ?_⟩
      rcases hstart.log _ hmem with hmem | ⟨t, k, heq, ht⟩
      · nomatch hmem
      · exact ⟨t, (DiskWrite.save.inj heq).1, ht⟩
    · nomatch ho
  | message w m =>
    obtain ⟨o', ho', rfl⟩ := Option.map_eq_some_iff.mp ho
    obtain ⟨hlog, hk⟩ := h.owner o' ho'
    have hstep := Owner.step_keyed hk (hfresh w m o' rfl ho')
    refine ⟨hstep.state, fun doc keep hmem => ?_⟩
    rcases hstep.log _ hmem with hmem | ⟨t, k, heq, ht⟩
    · rw [hlog, List.append_nil] at hmem
      cases m <;> simp [Msg.writes] at hmem
    · exact ⟨t, (DiskWrite.save.inj heq).1, ht⟩

theorem SnapshotKeyed.apply {d : StateDir} (h : SnapshotKeyed d) {e : DiskWrite}
    (he : ∀ doc keep, e = .save doc keep → ∃ s : QueueState, doc = s.toDoc ∧ s.WellKeyed) :
    SnapshotKeyed (d.apply c e) := by
  cases e with
  | append r =>
    show SnapshotKeyed (d.append c r)
    unfold StateDir.append
    split <;> exact h
  | save doc keep => exact he doc keep rfl
  | removeJournal job => exact h

theorem SnapshotKeyed.applyAll {log : List DiskWrite} {d : StateDir} (h : SnapshotKeyed d)
    (hlog : ∀ doc keep, .save doc keep ∈ log → ∃ s : QueueState, doc = s.toDoc ∧ s.WellKeyed) :
    SnapshotKeyed (d.applyAll c log) :=
  List.foldlRecOn (motive := SnapshotKeyed) _ _ h fun _ hd _ he =>
    hd.apply fun doc keep heq => hlog doc keep (heq ▸ he)

theorem SnapshotKeyed.interrupted {d d' : StateDir} {log : List DiskWrite}
    (hd : StateDir.Interrupted c d log d') (h : SnapshotKeyed d)
    (hlog : ∀ doc keep, .save doc keep ∈ log → ∃ s : QueueState, doc = s.toDoc ∧ s.WellKeyed) :
    SnapshotKeyed d' := by
  induction hd with
  | stop d log => exact h
  | @write d d' e log _ ih =>
    refine ih (h.apply fun doc keep heq => ?_) fun doc keep hmem => ?_
    · exact hlog doc keep (heq ▸ List.mem_cons_self)
    · exact hlog doc keep (List.mem_cons_of_mem _ hmem)
  | compacting doc keep log _ => exact hlog doc keep List.mem_cons_self
  | removing job log _ => exact h

variable {ok : Node → Event → Prop}

/-- **Keys stay distinct** in a run whose messages bring in fresh ids. -/
theorem keyed_of_run (hok : ∀ n e, ok n e → Fresh lower n e) {n : Node}
    (h : Reached c lower ok n) : n.Keyed := by
  refine Runs.Run.invariant (P := Keyed) ?_ ?_ h
  · rintro _ rfl
    exact keyed_init
  · intro n e n' hn he hnext
    have hfresh := hok n e he
    cases hnext with
    | run ho =>
      obtain ⟨hk, hlog⟩ := hn.perform (fun w m o' ht => hfresh w m o' ht) ho
      exact ⟨fun o' ho' => (by obtain rfl := Option.some.inj ho'; exact ⟨rfl, hk⟩),
        hn.disk.applyAll hlog⟩
    | crash ho hd =>
      obtain ⟨-, hlog⟩ := hn.perform (fun w m o' ht => hfresh w m o' ht) ho
      obtain ⟨left, hleft, hsnap, -⟩ := hd
      have hkeyed := hn.disk.interrupted hleft hlog
      refine ⟨fun o' ho' => (nomatch ho'), ?_⟩
      rw [SnapshotKeyed, StateDir.doc, hsnap]
      exact hkeyed

def after (c : Codec) (lower : Text → Text) (n : Node) (t : Task) : Node :=
  match n.perform c lower t with
  | none => n
  | some o => ⟨n.disk.applyAll c o.log, some { o with log := [] }, reports t ++ n.written⟩

theorem Reached.after {n : Node} (h : Reached c lower ok n) (t : Task)
    (ht : (n.perform c lower t).isSome = true) (hok : ok n (.run t)) :
    Reached c lower ok (n.after c lower t) := by
  obtain ⟨o, ho⟩ := Option.isSome_iff_exists.mp ht
  refine Runs.Run.step h hok ?_
  rw [Node.after, ho]
  exact .run ho

theorem after_running {n : Node} {t : Task} (ht : (n.perform c lower t).isSome = true) :
    (n.after c lower t).owner.isSome = true := by
  obtain ⟨o, ho⟩ := Option.isSome_iff_exists.mp ht
  rw [Node.after, ho]
  rfl

theorem perform_message {n : Node} (h : n.owner.isSome = true) (w : World) (m : Msg) :
    (n.perform c lower (.message w m)).isSome = true := by
  rw [Node.perform, Option.isSome_map]
  exact h

def started (w : World) (cfg : Owner.Config) : Node :=
  (⟨⟨none, []⟩, none, []⟩ : Node).after State.canonicalCodec id (.start w cfg)

theorem started_running (w : World) (cfg : Owner.Config) : (started w cfg).owner.isSome = true := rfl

theorem started_reached (w : World) (cfg : Owner.Config)
    (hok : ok ⟨⟨none, []⟩, none, []⟩ (.run (.start w cfg))) :
    Reached State.canonicalCodec id ok (started w cfg) :=
  Reached.after (.start rfl) _ rfl hok

/-! ### Leases in a run -/

/-- Every lease a message grants is sound when it is applied, and no segment that has
failed or is done is leased. -/
def LeasesSound (lower : Text → Text) (o : Owner) (w : World) (m : Msg) : Prop :=
  (∀ server k, m = .workRequest server k →
    ∀ p ∈ (o.grantWork w server (max k 1)).1, Leasable p.1.state p.2) ∧
  ∀ r x y, o.state.segment r = some x → x.state.isTerminal = true →
    (o.step lower w m).state.segment r = some y → y.state.isLeased = false

def SparedScans (n : Node) (e : Event) : Prop :=
  ∀ w server k o, e.task = .message w (.workRequest server k) → n.owner = some o →
    ∀ o' ∈ Owner.scans w server (max k 1) o, Owner.Spared w server o'

/-- **The leases of a run are sound**, if its scans are spared and its ids fresh. -/
theorem leases_sound_of_run {n : Node} {o : Owner}
    (h : Reached c lower (fun n e => Fresh lower n e ∧ SparedScans n e) n) (ho : n.owner = some o)
    (w : World) (m : Msg) (hfresh : Fresh lower n (.run (.message w m)))
    (hspared : SparedScans n (.run (.message w m))) : LeasesSound lower o w m := by
  have hk : o.state.WellKeyed := ((keyed_of_run (fun _ _ h => h.1) h).owner o ho).2
  by_cases hwork : ∀ server k, m ≠ .workRequest server k
  · refine ⟨fun server k hm => absurd hm (hwork server k), fun r x y hx ht hy => ?_⟩
    have hrows := (Owner.step_calm hk (hfresh w m o rfl ho) hwork).state
    rcases hrows.source r y (QueueState.has_of_segment hy) with ⟨z, hz, hcalm⟩ | hidle
    · obtain rfl : x = z := Option.some.inj (hx.symm.trans (hk.has_iff.mp hz))
      rcases hcalm with hy | ⟨-, hy⟩
      · rw [hy]
        cases hxs : x.state <;> simp_all [SegmentState.isTerminal, SegmentState.isLeased]
      · exact hy
    · exact hidle
  · push Not at hwork
    obtain ⟨server, k, rfl⟩ := hwork
    have hscans := hspared w server k o rfl ho
    refine ⟨fun server' k' hm => ?_, fun r x y hx ht hy => ?_⟩
    · obtain ⟨rfl, rfl⟩ := Msg.workRequest.inj hm
      intro p hp
      unfold Owner.grantWork at hp
      split at hp
      · cases hp
      · exact Owner.grantRounds_leasable _ o hk hscans p hp
    · rcases (Owner.grantWork_lasts hk _ hscans).state.segment r with ⟨hnone, -⟩ | ⟨a, b, ha, hb, hab⟩
      · rw [hnone] at hx; cases hx
      · obtain rfl : a = x := Option.some.inj (ha.symm.trans hx)
        obtain rfl : b = y := Option.some.inj (hb.symm.trans hy)
        rw [hab.state ht]
        cases hxs : a.state <;> simp_all [SegmentState.isTerminal, SegmentState.isLeased]

/-- A world in which everything works, ten days after the epoch. -/
def calmWorld : World where
  nowUnix := 864000
  instant := 0
  send := fun _ _ => .ok
  writerClosed := fun _ => false
  save := fun _ => .ok
  stuckJournals := []
  appends := true
  allocates := fun _ => true
  forgets := fun _ => true
  diskLow := false
  quotaReached := false
  saveDue := false
  dirInUse := none
  backendRefuses := false
  backendLoses := false
  seedPolicyReached := false

def dayConfig (healthAbort : Bool) : Owner.Config where
  servers := [⟨1, true, 0, 0, false, 1⟩]
  tuning := ⟨3, 0, false, healthAbort, 10⟩
  downloadEnabled := true
  speedLimit := none
  maxActive := none
  retained := fun _ => false
  active := fun _ => false

theorem first_sorted :
    ([⟨text "a@b", 1, 100⟩] : List ParsedSegment).map (·.number) |>.Pairwise (· < ·) := by decide

theorem second_sorted :
    ([⟨text "c@d", 1, 100⟩] : List ParsedSegment).map (·.number) |>.Pairwise (· < ·) := by decide

/-- Two articles of one size: one is ten days old, of the other the date is not
known. -/
def agedNzb : ParsedNzb where
  title := none
  category := none
  files := [
    ⟨text "old.bin", none, some 0, [], [⟨text "a@b", 1, 100⟩], first_sorted⟩,
    ⟨text "new.bin", none, none, [], [⟨text "c@d", 1, 100⟩], second_sorted⟩]

def agedNode (healthAbort : Bool) : Node :=
  (started calmWorld (dayConfig healthAbort)).after State.canonicalCodec id
    (.message calmWorld (.addParsed (text "aged") agedNzb none 0 false []))

def firstLeases (n : Node) : List (SegRef × Option SegmentState) :=
  match n.owner with
  | none => []
  | some o => (o.grantWork calmWorld 1 1).1.map fun p => (p.2, (p.1.state.segment p.2).map (·.state))

theorem agedNode_reached (healthAbort : Bool)
    (hstart : ok ⟨⟨none, []⟩, none, []⟩ (.run (.start calmWorld (dayConfig healthAbort))))
    (hadd : ok (started calmWorld (dayConfig healthAbort))
      (.run (.message calmWorld (.addParsed (text "aged") agedNzb none 0 false [])))) :
    Reached State.canonicalCodec id ok (agedNode healthAbort) :=
  (started_reached calmWorld _ hstart).after _ (perform_message (started_running ..) ..) hadd

theorem mem_scans_one {w : World} {server : ServerId} {o o' : Owner}
    (h : o' ∈ Owner.scans w server 1 o) : o' = o := by
  rw [Owner.scans] at h
  rcases List.mem_cons.mp h with h | h
  · exact h
  · simp only [Owner.scans] at h
    split at h
    · cases h
    · split at h
      · cases h
      · split at h <;> cases h

/-- With no abort the other article is leased while it is pending. -/
theorem leases_sound_aged :
    firstLeases (agedNode false) = [(⟨1, 2, 1⟩, some .pending)] ∧
      ∀ o, (agedNode false).owner = some o → LeasesSound id o calmWorld (.workRequest 1 1) := by
  refine ⟨by decide +kernel, fun o ho => ?_⟩
  have hadd : Fresh id (started calmWorld (dayConfig false))
      (.run (.message calmWorld (.addParsed (text "aged") agedNzb none 0 false []))) := by
    intro w m o ht ho
    obtain ⟨rfl, rfl⟩ := Task.message.inj ht
    obtain rfl := Option.some.inj ho
    refine ⟨List.not_mem_nil, by decide +kernel, fun i _ => List.not_mem_nil⟩
  refine leases_sound_of_run (c := State.canonicalCodec) (agedNode_reached false ?_ ?_) ho _ _ ?_ ?_
  · exact ⟨fun _ _ _ ht => (nomatch ht), fun _ _ _ _ ht => nomatch ht⟩
  · exact ⟨hadd, fun _ _ _ _ ht => nomatch ht⟩
  · intro w m o' ht _
    obtain ⟨-, rfl⟩ := Task.message.inj ht
    trivial
  · intro w server k o' ht ho' o'' hmem r hl
    obtain ⟨rfl, hm⟩ := Task.message.inj ht
    obtain ⟨rfl, rfl⟩ := Msg.workRequest.inj hm
    obtain rfl := mem_scans_one hmem
    have habort : (agedNode false).owner.map (·.tuning.healthAbort) = some false := by decide +kernel
    rw [ho', Option.map_some] at habort
    exact .inl (Option.some.inj habort)

/-- The old article is out of the retention of the only server.  Its failure aborts the
job, and the other one is leased all the same. -/
theorem not_leases_sound_aged : ¬ ∀ (n : Node) (o : Owner),
    Reached State.canonicalCodec id (fun _ _ => True) n → n.owner = some o →
      ∀ w m, LeasesSound id o w m := by
  intro h
  have hleases : firstLeases (agedNode true) = [(⟨1, 2, 1⟩, some .failed)] := by decide +kernel
  have howner : (agedNode true).owner.isSome = true :=
    after_running (perform_message (started_running ..) ..)
  obtain ⟨o, ho⟩ := Option.isSome_iff_exists.mp howner
  have hsound := (h _ o (agedNode_reached true trivial trivial) ho calmWorld
    (.workRequest 1 1)).1 1 1 rfl
  simp only [firstLeases, ho] at hleases
  have hmem : ((⟨1, 2, 1⟩ : SegRef), some SegmentState.failed) ∈ (o.grantWork calmWorld 1 1).1.map
      fun p => (p.2, (p.1.state.segment p.2).map (·.state)) := by
    rw [hleases]
    exact List.mem_singleton_self _
  obtain ⟨p, hp, heq⟩ := List.mem_map.mp hmem
  obtain ⟨j, x, -, -, hx, hpend⟩ := hsound p hp
  have hstate := (Prod.mk.inj heq).2
  rw [hx, Option.map_some, hpend] at hstate
  nomatch hstate

end Node

end Nzbd.Engine
