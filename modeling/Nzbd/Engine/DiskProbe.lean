import Mathlib.Data.List.Forall2
import Mathlib.Data.List.MinMax
import Mathlib.Logic.Function.Basic
import Mathlib.Order.Lattice

/-!
# The probe of the disks

Every configured root is measured by a thread of its own.  One that does not answer in time keeps
its last reading, which is not current; one whose thread of an earlier cycle still runs is not
asked again.  The readings of one filesystem are then merged, and the lowest of what remains
guards the downloads.

`lastMeasured` says what the guard should know of a root after some cycles, and `Measured` is
that knowledge in the state of the probe.  A cycle keeps it for the next one
(`Measured.probeWith`), whichever order the answers come in.
-/

namespace Nzbd

open List

/-- The names of the directories, `/` first when the path is absolute. -/
abbrev DiskPath := List String

structure DiskGuardRoot where
  label : String
  path : DiskPath

structure DiskSpace where
  available : Nat
  total : Nat

/-- One filesystem.  If it is read now, its bytes are counted. -/
structure StorageVolumeReading where
  label : String
  path : DiskPath
  availableBytes : Option Nat
  totalBytes : Option Nat
  deviceId : Option Nat
  current : Bool
  counted : current = true → availableBytes.isSome

/-- A complete reading has a number of bytes. -/
structure DiskGuardReading where
  availableBytes : Option Nat
  limitingLabel : Option String
  limitingPath : Option DiskPath
  allRootsKnown : Bool
  volumes : List StorageVolumeReading
  counted : allRootsKnown = true → availableBytes.isSome

/-- Before the first probe. -/
def DiskGuardReading.default : DiskGuardReading := ⟨none, none, none, false, [], nofun⟩

def unknownStorageVolume (root : DiskGuardRoot) : StorageVolumeReading :=
  ⟨root.label, root.path, none, none, none, false, nofun⟩

/-- `storage_volume_readings` of a single root. -/
def storageVolumeReading (root : DiskGuardRoot) (space : Option DiskSpace) (device : Option Nat) :
    StorageVolumeReading where
  label := root.label
  path := if root.path = [] then ["."] else root.path
  availableBytes := space.map (·.available)
  totalBytes := space.map (·.total)
  deviceId := device
  current := space.isSome
  counted := by simp

/-- A reading that is kept after its cycle. -/
def StorageVolumeReading.stale (r : StorageVolumeReading) : StorageVolumeReading :=
  { r with current := false, counted := nofun }

/-- `PathBuf::pop` fails on `/` alone, and every path starts with the empty one. -/
def commonPathPair (left right : DiskPath) : DiskPath :=
  if left.isPrefixOf right then left
  else if left = ["/"] then ["."]
  else commonPathPair left.dropLast right
termination_by left.length
decreasing_by
  cases left with
  | nil => exact absurd rfl ‹¬List.isPrefixOf [] right = true›
  | cons name names => simp

/-- The lower number, where a volume that has none does not count. -/
def lowerBytes : Option Nat → Option Nat → Bool
  | some available, some groupAvailable => available < groupAvailable
  | some _, none => true
  | none, _ => false

/-- A further reading of the filesystem of `group`. -/
def StorageVolumeReading.merge (group reading : StorageVolumeReading) : StorageVolumeReading where
  label := group.label ++ " · " ++ reading.label
  path := commonPathPair group.path reading.path
  availableBytes := if lowerBytes reading.availableBytes group.availableBytes then reading.availableBytes
    else group.availableBytes
  totalBytes := if lowerBytes reading.availableBytes group.availableBytes then reading.totalBytes
    else group.totalBytes
  deviceId := group.deviceId
  current := group.current && reading.current
  counted h := by
    obtain ⟨hg, hr⟩ := (Bool.and_eq_true _ _).mp h
    split
    · exact reading.counted hr
    · exact group.counted hg

/-- Merged into the first group of its device. -/
def coalesceInto (reading : StorageVolumeReading) : List StorageVolumeReading → List StorageVolumeReading
  | [] => [reading]
  | group :: groups =>
    if reading.deviceId.isSome ∧ group.deviceId = reading.deviceId then group.merge reading :: groups
    else group :: coalesceInto reading groups

def coalesceStorageVolumes (readings : List StorageVolumeReading) : List StorageVolumeReading :=
  readings.foldl (fun groups reading => coalesceInto reading groups) []

/-- The first of the lowest volumes. -/
def limitingVolume (volumes : List StorageVolumeReading) : Option StorageVolumeReading :=
  (volumes.filter (·.availableBytes.isSome)).argmin (·.availableBytes.getD 0)

variable {volumes : List StorageVolumeReading}

theorem limitingVolume_eq_none :
    limitingVolume volumes = none ↔ ∀ v ∈ volumes, v.availableBytes = none := by
  simp [limitingVolume, argmin_eq_none, filter_eq_nil_iff]

theorem limitingVolume_spec {v : StorageVolumeReading}
    (h : limitingVolume volumes = some v) :
    v ∈ volumes ∧ ∃ n, v.availableBytes = some n ∧
      ∀ u ∈ volumes, ∀ m, u.availableBytes = some m → n ≤ m := by
  have hmem := argmin_mem h
  obtain ⟨hv, hsome⟩ := mem_filter.mp hmem
  obtain ⟨n, hn⟩ := Option.isSome_iff_exists.mp hsome
  refine ⟨hv, n, hn, fun u hu m hm => ?_⟩
  have hle := le_of_mem_argmin (mem_filter.mpr ⟨hu, by simp [hm]⟩) h
  simpa [hn, hm] using hle

theorem limitingVolume_isSome
    (h : (volumes ≠ [] && volumes.all (·.current)) = true) :
    ((limitingVolume volumes).bind (·.availableBytes)).isSome := by
  obtain ⟨hne, hall⟩ := (Bool.and_eq_true _ _).mp h
  obtain ⟨v, hv⟩ := exists_mem_of_ne_nil volumes (of_decide_eq_true hne)
  have hcounted := v.counted (all_eq_true.mp hall v hv)
  cases hlimit : limitingVolume volumes with
  | none => simp [limitingVolume_eq_none.mp hlimit v hv] at hcounted
  | some u =>
    obtain ⟨-, n, hn, -⟩ := limitingVolume_spec hlimit
    simp [hn]

def selectLimitingVolume (volumes : List StorageVolumeReading) : DiskGuardReading where
  availableBytes := (limitingVolume volumes).bind (·.availableBytes)
  limitingLabel := (limitingVolume volumes).map (·.label)
  limitingPath := (limitingVolume volumes).map (·.path)
  allRootsKnown := volumes ≠ [] && volumes.all (·.current)
  volumes := volumes
  counted := limitingVolume_isSome

/-- What becomes of a root in one cycle. -/
inductive ProbeOutcome where
  /-- The thread of an earlier cycle has not come back. -/
  | inFlight
  /-- No thread is to be had, or its answer is late. -/
  | silent
  | answered (space : Option DiskSpace) (device : Option Nat)

namespace ProbeOutcome

def queued : ProbeOutcome → Bool
  | inFlight => false
  | _ => true

def measured : ProbeOutcome → Option Nat
  | answered space _ => space.map (·.available)
  | _ => none

def reading (root : DiskGuardRoot) : ProbeOutcome → StorageVolumeReading
  | answered space device => storageVolumeReading root space device
  | _ => unknownStorageVolume root

end ProbeOutcome

/-- One cycle: what becomes of each root, and the order in which the tasks of the queued
ones end. -/
structure ProbeCycle (roots : List DiskGuardRoot) where
  outcome : DiskGuardRoot → ProbeOutcome
  arrivals : List DiskGuardRoot
  arrives : arrivals.Perm (roots.filter fun root => (outcome root).queued)

structure DiskGuardProbe where
  lastKnown : DiskPath → Option StorageVolumeReading

namespace DiskGuardProbe

def start : DiskGuardProbe := ⟨fun _ => none⟩

/-- One turn of the loop over the answers. -/
def settle (probe : DiskGuardProbe) (path : DiskPath) (reading : StorageVolumeReading) :
    DiskGuardProbe × StorageVolumeReading :=
  if reading.current then (⟨Function.update probe.lastKnown path (some reading)⟩, reading)
  else match probe.lastKnown path with
    | some previous => (probe, previous.stale)
    | none => (probe, reading)

def settleAll (probe : DiskGuardProbe) :
    List (DiskPath × StorageVolumeReading) → DiskGuardProbe × List StorageVolumeReading
  | [] => (probe, [])
  | (path, reading) :: measured =>
    let (probe, reading) := probe.settle path reading
    let (probe, readings) := probe.settleAll measured
    (probe, reading :: readings)

/-- The answers, those that are not waited for in front. -/
def answers {roots : List DiskGuardRoot} (c : ProbeCycle roots) : List (DiskPath × StorageVolumeReading) :=
  ((roots.filter fun root => !(c.outcome root).queued) ++ c.arrivals).map fun root =>
    (root.path, (c.outcome root).reading root)

def probeWith {roots : List DiskGuardRoot} (probe : DiskGuardProbe) (c : ProbeCycle roots) :
    DiskGuardProbe × DiskGuardReading :=
  let (probe, readings) := probe.settleAll (answers c)
  (probe, selectLimitingVolume (coalesceStorageVolumes readings))

def run {roots : List DiskGuardRoot} (cycles : List (ProbeCycle roots)) : DiskGuardProbe :=
  cycles.foldl (fun probe c => (probe.probeWith c).1) start

end DiskGuardProbe

namespace DiskGuardProbe

/-! ### The lowest number -/

/-- Below each number of one list there is one of the other. -/
structure SameLow (l l' : List Nat) : Prop where
  left : ∀ n ∈ l, ∃ m ∈ l', m ≤ n
  right : ∀ n ∈ l', ∃ m ∈ l, m ≤ n

namespace SameLow

variable {l l' l'' : List Nat}

theorem of_mem_iff (h : ∀ n, n ∈ l ↔ n ∈ l') : SameLow l l' :=
  ⟨fun n hn => ⟨n, (h n).mp hn, le_rfl⟩, fun n hn => ⟨n, (h n).mpr hn, le_rfl⟩⟩

theorem trans (h : SameLow l l') (h' : SameLow l' l'') : SameLow l l'' := by
  refine ⟨fun n hn => ?_, fun n hn => ?_⟩
  · obtain ⟨m, hm, hmn⟩ := h.left n hn
    obtain ⟨k, hk, hkm⟩ := h'.left m hm
    exact ⟨k, hk, hkm.trans hmn⟩
  · obtain ⟨m, hm, hmn⟩ := h'.right n hn
    obtain ⟨k, hk, hkm⟩ := h.right m hm
    exact ⟨k, hk, hkm.trans hmn⟩

theorem append_right (h : SameLow l l') (k : List Nat) : SameLow (l ++ k) (l' ++ k) := by
  refine ⟨fun n hn => ?_, fun n hn => ?_⟩ <;> rcases mem_append.mp hn with hn | hn
  · obtain ⟨m, hm, hmn⟩ := h.left n hn
    exact ⟨m, mem_append_left _ hm, hmn⟩
  · exact ⟨n, mem_append_right _ hn, le_rfl⟩
  · obtain ⟨m, hm, hmn⟩ := h.right n hn
    exact ⟨m, mem_append_left _ hm, hmn⟩
  · exact ⟨n, mem_append_right _ hn, le_rfl⟩

theorem min?_eq (h : SameLow l l') : l.min? = l'.min? := by
  cases hl : l'.min? with
  | none =>
    rw [min?_eq_none_iff] at hl ⊢
    refine eq_nil_iff_forall_not_mem.mpr fun n hn => ?_
    obtain ⟨m, hm, -⟩ := h.left n hn
    exact absurd hm (hl ▸ not_mem_nil)
  | some a =>
    obtain ⟨ha, hlow⟩ := min?_eq_some_iff.mp hl
    obtain ⟨b, hb, hba⟩ := h.right a ha
    have hab : ∀ n ∈ l, a ≤ n := by
      intro n hn
      obtain ⟨m, hm, hmn⟩ := h.left n hn
      exact (hlow m hm).trans hmn
    have heq : b = a := Nat.le_antisymm hba (hab b hb)
    exact min?_eq_some_iff.mpr ⟨heq ▸ hb, hab⟩

end SameLow

/-- The numbers of bytes that some readings have. -/
def bytes (readings : List StorageVolumeReading) : List Nat :=
  readings.filterMap (·.availableBytes)

theorem mem_bytes {readings : List StorageVolumeReading} {n : Nat} :
    n ∈ bytes readings ↔ ∃ r ∈ readings, r.availableBytes = some n := mem_filterMap

@[simp] theorem bytes_append (l l' : List StorageVolumeReading) : bytes (l ++ l') = bytes l ++ bytes l' :=
  filterMap_append

theorem selectLimitingVolume_availableBytes (volumes : List StorageVolumeReading) :
    (selectLimitingVolume volumes).availableBytes = (bytes volumes).min? := by
  change (limitingVolume volumes).bind (·.availableBytes) = _
  cases hlimit : limitingVolume volumes with
  | none =>
    refine (min?_eq_none_iff.mpr (filterMap_eq_nil_iff.mpr ?_)).symm
    exact limitingVolume_eq_none.mp hlimit
  | some v =>
    obtain ⟨hv, n, hn, hlow⟩ := limitingVolume_spec hlimit
    refine hn.trans (min?_eq_some_iff.mpr ⟨mem_bytes.mpr ⟨v, hv, hn⟩, fun m hm => ?_⟩).symm
    obtain ⟨u, hu, hum⟩ := mem_bytes.mp hm
    exact hlow u hu m hum

/-! ### The merged readings -/

theorem merge_availableBytes (g r : StorageVolumeReading) :
    SameLow (bytes [g.merge r]) (bytes [r, g]) := by
  have hmerge : (g.merge r).availableBytes =
      if lowerBytes r.availableBytes g.availableBytes then r.availableBytes else g.availableBytes := rfl
  cases hr : r.availableBytes with
  | none =>
    refine .of_mem_iff fun n => ?_
    simp [mem_bytes, hmerge, hr, lowerBytes]
  | some a =>
    cases hg : g.availableBytes with
    | none =>
      refine .of_mem_iff fun n => ?_
      simp [mem_bytes, hmerge, hr, hg, lowerBytes]
    | some b =>
      have hmin : (g.merge r).availableBytes = some (min a b) := by
        rw [hmerge, hr, hg]
        simp only [lowerBytes, decide_eq_true_eq]
        split <;> simp <;> omega
      have hl : bytes [g.merge r] = [min a b] := by simp [bytes, hmin]
      have hl' : bytes [r, g] = [a, b] := by simp [bytes, hr, hg]
      rw [hl, hl']
      constructor
      · simpa using le_total a b
      · simp

theorem bytes_coalesceInto (r : StorageVolumeReading) (groups : List StorageVolumeReading) :
    SameLow (bytes (coalesceInto r groups)) (bytes (r :: groups)) := by
  induction groups with
  | nil => exact .of_mem_iff fun n => Iff.rfl
  | cons g groups ih =>
    unfold coalesceInto
    split
    · have h := (merge_availableBytes g r).append_right (bytes groups)
      simpa only [← bytes_append, cons_append, nil_append] using h
    · have h := ih.append_right (bytes [g])
      refine (SameLow.of_mem_iff fun n => ?_).trans (h.trans (.of_mem_iff fun n => ?_)) <;>
        simp only [← bytes_append, mem_bytes, mem_append, mem_cons, not_mem_nil, or_false] <;> grind

theorem all_coalesceInto (r : StorageVolumeReading) (groups : List StorageVolumeReading) :
    coalesceInto r groups ≠ [] ∧
      (coalesceInto r groups).all (·.current) = (r.current && groups.all (·.current)) := by
  induction groups with
  | nil => simp [coalesceInto]
  | cons g groups ih =>
    unfold coalesceInto
    split
    · exact ⟨cons_ne_nil _ _, by simp [StorageVolumeReading.merge]; grind⟩
    · exact ⟨cons_ne_nil _ _, by simp [ih.2]; grind⟩

/-- Merging loses no low number, and no reading that is not current. -/
theorem foldl_coalesceInto (readings groups : List StorageVolumeReading) :
    let merged := readings.foldl (fun groups reading => coalesceInto reading groups) groups
    SameLow (bytes merged) (bytes (readings ++ groups)) ∧
      (merged = [] ↔ readings ++ groups = []) ∧
      merged.all (·.current) = (readings ++ groups).all (·.current) := by
  induction readings generalizing groups with
  | nil => exact ⟨.of_mem_iff fun n => Iff.rfl, Iff.rfl, rfl⟩
  | cons r readings ih =>
    obtain ⟨hlow, hnil, hall⟩ := ih (coalesceInto r groups)
    obtain ⟨hne, hcurrent⟩ := all_coalesceInto r groups
    refine ⟨hlow.trans ?_, ?_, ?_⟩
    · have h := (bytes_coalesceInto r groups).append_right (bytes readings)
      refine (SameLow.of_mem_iff fun n => ?_).trans (h.trans (.of_mem_iff fun n => ?_)) <;>
        simp only [← bytes_append, mem_bytes, mem_append, mem_cons, cons_append] <;> grind
    · simpa [hne] using hnil
    · rw [foldl_cons, hall, all_append, hcurrent]
      simp only [cons_append, all_cons, all_append]
      grind

/-! ### What is known of a root -/

variable {roots : List DiskGuardRoot}

def lastMeasured (cycles : List (ProbeCycle roots)) (root : DiskGuardRoot) : Option Nat :=
  cycles.reverse.findSome? fun c => (c.outcome root).measured

@[simp] theorem lastMeasured_append (cycles : List (ProbeCycle roots)) (c : ProbeCycle roots)
    (root : DiskGuardRoot) :
    lastMeasured (cycles ++ [c]) root = ((c.outcome root).measured <|> lastMeasured cycles root) := by
  simp only [lastMeasured, reverse_append, reverse_singleton, singleton_append, findSome?_cons]
  cases (c.outcome root).measured <;> rfl

def Measured (probe : DiskGuardProbe) (cycles : List (ProbeCycle roots)) : Prop :=
  ∀ root ∈ roots, (probe.lastKnown root.path).bind (·.availableBytes) = lastMeasured cycles root

theorem reading_current (root : DiskGuardRoot) (o : ProbeOutcome) :
    (o.reading root).current = o.measured.isSome := by
  rcases o with _ | _ | ⟨_ | space, device⟩ <;> rfl

theorem reading_availableBytes (root : DiskGuardRoot) (o : ProbeOutcome) :
    (o.reading root).availableBytes = o.measured := by
  rcases o with _ | _ | ⟨_ | space, device⟩ <;> rfl

/-- The state and the reading that a root leaves. -/
theorem settle_spec (probe : DiskGuardProbe) (root : DiskGuardRoot) (o : ProbeOutcome) :
    let s := probe.settle root.path (o.reading root)
    s.2.availableBytes = (o.measured <|> (probe.lastKnown root.path).bind (·.availableBytes)) ∧
      s.2.current = o.measured.isSome ∧
      (s.1.lastKnown root.path).bind (·.availableBytes) = s.2.availableBytes ∧
      ∀ path, path ≠ root.path → s.1.lastKnown path = probe.lastKnown path := by
  have hcurrent := reading_current root o
  have hbytes := reading_availableBytes root o
  cases ho : o.measured with
  | some n =>
    rw [ho] at hcurrent hbytes
    refine ⟨by simp [settle, hcurrent, hbytes], by simp [settle, hcurrent], ?_, fun path hne => ?_⟩
    · simp [settle, hcurrent]
    · simp [settle, hcurrent, hne]
  | none =>
    rw [ho] at hcurrent hbytes
    cases hk : probe.lastKnown root.path with
    | none => simp [settle, hcurrent, hk, hbytes]
    | some previous => simp [settle, hcurrent, hk, StorageVolumeReading.stale]

/-- The roots have different paths, so no answer reads what another one has stored. -/
theorem settleAll_spec {answered : List DiskGuardRoot} (hpaths : (answered.map (·.path)).Nodup)
    (outcome : DiskGuardRoot → ProbeOutcome) (probe : DiskGuardProbe) :
    let known root := (outcome root).measured <|> (probe.lastKnown root.path).bind (·.availableBytes)
    let s := probe.settleAll (answered.map fun root => (root.path, (outcome root).reading root))
    s.2.map (fun r => (r.availableBytes, r.current)) =
        answered.map (fun root => (known root, (outcome root).measured.isSome)) ∧
      (∀ root ∈ answered, (s.1.lastKnown root.path).bind (·.availableBytes) = known root) ∧
      ∀ path, path ∉ answered.map (·.path) → s.1.lastKnown path = probe.lastKnown path := by
  induction answered generalizing probe with
  | nil => exact ⟨rfl, nofun, fun _ _ => rfl⟩
  | cons root answered ih =>
    obtain ⟨hroot, hpaths⟩ := nodup_cons.mp hpaths
    obtain ⟨hbytes, hcurrent, hstored, hother⟩ := settle_spec probe root (outcome root)
    obtain ⟨hreadings, hknown, hkept⟩ := ih hpaths (probe.settle root.path ((outcome root).reading root)).1
    have hne : ∀ r ∈ answered, r.path ≠ root.path := by
      intro r hr heq
      exact hroot (mem_map.mpr ⟨r, hr, heq⟩)
    refine ⟨?_, ?_, ?_⟩
    · simp only [map_cons, settleAll, hbytes, hcurrent, hreadings, cons.injEq, true_and]
      exact map_congr_left fun r hr => by rw [hother _ (hne r hr)]
    · intro r hr
      rcases mem_cons.mp hr with rfl | hr
      · simp only [map_cons, settleAll, hkept _ hroot, hstored, hbytes]
      · simp only [map_cons, settleAll, hknown r hr, hother _ (hne r hr)]
    · intro path hpath
      obtain ⟨hhead, htail⟩ := ne_and_not_mem_of_not_mem_cons hpath
      simp only [map_cons, settleAll, hkept path htail, hother path hhead]

/-- The roots in the order in which their answers are taken. -/
def answered (c : ProbeCycle roots) : List DiskGuardRoot :=
  (roots.filter fun root => !(c.outcome root).queued) ++ c.arrivals

theorem answered_perm (c : ProbeCycle roots) : (answered c).Perm roots := by
  have hqueued := perm_append_comm.trans (filter_append_perm (fun root => (c.outcome root).queued) roots)
  exact (c.arrives.append_left _).trans hqueued

theorem start_measured : Measured start ([] : List (ProbeCycle roots)) := fun _ _ => rfl

/-- **One cycle.**  The readings are those of the roots, and the probe knows them afterwards. -/
theorem Measured.probeWith {probe : DiskGuardProbe} {cycles : List (ProbeCycle roots)}
    (hpaths : (roots.map (·.path)).Nodup) (h : Measured probe cycles) (c : ProbeCycle roots) :
    Measured (probe.probeWith c).1 (cycles ++ [c]) ∧
      (probe.probeWith c).2.availableBytes = (roots.filterMap (lastMeasured (cycles ++ [c]))).min? ∧
      ((probe.probeWith c).2.allRootsKnown = true ↔
        roots ≠ [] ∧ ∀ root ∈ roots, (c.outcome root).measured.isSome) := by
  have hperm := answered_perm c
  obtain ⟨hreadings, hknown, -⟩ :=
    settleAll_spec ((hperm.map _).nodup_iff.mpr hpaths) c.outcome probe
  generalize hs : probe.settleAll _ = s at hreadings hknown
  have hprobe : probe.probeWith c = (s.1, selectLimitingVolume (coalesceStorageVolumes s.2)) := by
    rw [← hs]
    rfl
  obtain ⟨hlow, hnil, hall⟩ := foldl_coalesceInto s.2 []
  rw [append_nil] at hlow hnil hall
  have hlast : ∀ root ∈ roots, ((c.outcome root).measured <|>
      (probe.lastKnown root.path).bind (·.availableBytes)) = lastMeasured (cycles ++ [c]) root := by
    intro root hroot
    rw [lastMeasured_append, h root hroot]
  have hbytes : bytes s.2 = (answered c).filterMap (lastMeasured (cycles ++ [c])) := by
    have hfst := congrArg (map Prod.fst) hreadings
    simp only [map_map, Function.comp_def] at hfst
    have hmap := congrArg (filterMap id) hfst
    simp only [filterMap_map, Function.comp_def, id_eq] at hmap
    refine hmap.trans (filterMap_congr fun root hroot => ?_)
    exact hlast root (hperm.mem_iff.mp hroot)
  have hcurrent : s.2.map (·.current) = (answered c).map fun root => (c.outcome root).measured.isSome := by
    have hsnd := congrArg (map Prod.snd) hreadings
    simpa only [map_map, Function.comp_def] using hsnd
  rw [hprobe]
  refine ⟨fun root hroot => ?_, ?_, ?_⟩
  · exact (hknown root (hperm.mem_iff.mpr hroot)).trans (hlast root hroot)
  · rw [selectLimitingVolume_availableBytes]
    refine (hlow.trans ?_).min?_eq
    rw [hbytes]
    exact .of_mem_iff fun n => (hperm.filterMap _).mem_iff
  · change (coalesceStorageVolumes s.2 ≠ [] && (coalesceStorageVolumes s.2).all (·.current)) = true ↔ _
    have hroots : s.2 = [] ↔ roots = [] := by
      rw [← map_eq_nil_iff (f := (·.current)), hcurrent, map_eq_nil_iff, ← length_eq_zero_iff,
        hperm.length_eq, length_eq_zero_iff]
    have hevery : s.2.all (·.current) = (answered c).all fun root => (c.outcome root).measured.isSome := by
      have hand := congrArg (all · id) hcurrent
      simpa only [all_map, Function.comp_def, id_eq] using hand
    rw [Bool.and_eq_true, decide_eq_true_eq, coalesceStorageVolumes, hall, hevery, ne_eq, hnil, hroots,
      all_eq_true]
    exact and_congr_right fun _ => forall_congr' fun root => imp_congr_left hperm.mem_iff

theorem run_measured (hpaths : (roots.map (·.path)).Nodup) (cycles : List (ProbeCycle roots)) :
    Measured (run cycles) cycles := by
  induction cycles using reverseRecOn with
  | nil => exact start_measured
  | append_singleton cycles c ih =>
    have hstep := (ih.probeWith hpaths c).1
    simpa only [run, foldl_append, foldl_cons, foldl_nil] using hstep

/-- Two cycles that may differ in the order of the answers. -/
def SameOutcomes (c c' : ProbeCycle roots) : Prop := c.outcome = c'.outcome

theorem lastMeasured_congr {cycles cycles' : List (ProbeCycle roots)}
    (h : List.Forall₂ SameOutcomes cycles cycles') : lastMeasured cycles = lastMeasured cycles' := by
  funext root
  have hmap : cycles.map (·.outcome) = cycles'.map (·.outcome) := by
    induction h with
    | nil => rfl
    | cons hc _ ih => rw [map_cons, map_cons, hc, ih]
  have hfind : ∀ l : List (ProbeCycle roots), lastMeasured l root =
      (l.map (·.outcome)).reverse.findSome? fun outcome => (outcome root).measured := by
    intro l
    rw [lastMeasured, ← map_reverse, findSome?_map]
    rfl
  rw [hfind, hfind, hmap]

/-- **The guard is never optimistic.**  It has the lowest of what was measured last of each root,
it is complete exactly when the cycle has measured them all, and the order of the answers does
not count. -/
theorem probeWith_reading {roots : List DiskGuardRoot} (hpaths : (roots.map (·.path)).Nodup)
    (cycles : List (ProbeCycle roots)) (c : ProbeCycle roots) :
    ((run cycles).probeWith c).2.availableBytes = (roots.filterMap (lastMeasured (cycles ++ [c]))).min? ∧
    (((run cycles).probeWith c).2.allRootsKnown = true ↔
      roots ≠ [] ∧ ∀ root ∈ roots, (c.outcome root).measured.isSome) ∧
    ∀ cycles' c', List.Forall₂ SameOutcomes cycles cycles' → SameOutcomes c c' →
      ((run cycles').probeWith c').2.availableBytes = ((run cycles).probeWith c).2.availableBytes ∧
      ((run cycles').probeWith c').2.allRootsKnown = ((run cycles).probeWith c).2.allRootsKnown := by
  have hreading := fun cycles c => ((run_measured hpaths cycles).probeWith hpaths c).2
  obtain ⟨hbytes, hknown⟩ := hreading cycles c
  refine ⟨hbytes, hknown, fun cycles' c' hcycles hc => ?_⟩
  obtain ⟨hbytes', hknown'⟩ := hreading cycles' c'
  have hsame : List.Forall₂ SameOutcomes (cycles ++ [c]) (cycles' ++ [c']) :=
    rel_append hcycles (.cons hc .nil)
  refine ⟨by rw [hbytes, hbytes', lastMeasured_congr hsame], ?_⟩
  rw [Bool.eq_iff_iff, hknown, hknown', show c.outcome = c'.outcome from hc]

def twoRoots : List DiskGuardRoot :=
  [⟨"incomplete", ["/", "data", "incomplete"]⟩, ⟨"complete", ["/", "data", "complete"]⟩]

def both : ProbeCycle twoRoots where
  outcome root := .answered (some ⟨if root.label = "complete" then 900 else 10, 1000⟩) (some 7)
  arrivals := twoRoots.reverse
  arrives := List.reverse_perm _

def late : ProbeCycle twoRoots where
  outcome root := if root.label = "complete" then .answered (some ⟨800, 1000⟩) (some 7) else .inFlight
  arrivals := twoRoots.drop 1
  arrives := .refl _

theorem probeWith_reading_late : ((run [both]).probeWith late).2.availableBytes = some 10 ∧
    ((run [both]).probeWith late).2.allRootsKnown = false := by
  obtain ⟨hbytes, hknown, -⟩ := probeWith_reading (show (twoRoots.map (·.path)).Nodup by decide) [both] late
  refine ⟨hbytes.trans (by decide), Bool.eq_false_iff.mpr fun h => ?_⟩
  exact absurd ((hknown.mp h).2 _ mem_cons_self) (by decide)

end DiskGuardProbe

end Nzbd
