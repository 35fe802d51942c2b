import Nzbd.Lib.Checked
import Nzbd.Engine.Owner

/-!
# Health and its verdict

A job has failed if its health is below the critical one.  Both are per-mille and rounded down, but
of different wholes: the health counts what is left of the payload, and the critical health what
could be spared of everything but the recovery data that is still there.  As long as no recovery
data has failed the two wholes are the same one, and no job fails that could be repaired
(`not_misjudged_of_no_lostPar`).  With recovery data that has failed the second whole is larger,
and a job can fail with more recovery data than it has lost (`discarded_though_repairable`).

`bytes` counts the segments of a job, and `counts_jobTotals` says that its totals are such counts;
`Misjudged` is which jobs are given up that should not be.
-/

namespace Nzbd.Health

open Checked Engine

/-! ### Totals as counts of bytes -/

/-- A segment, and whether it is recovery data. -/
abbrev Share := Bool × Segment

/-- The segments of a job. -/
def shares (files : List FileEntry) : List Share :=
  files.flatMap fun f => f.segments.map (f.isPar2, ·)

/-- The bytes of the segments that are meant. -/
def bytes (p : Share → Bool) (l : List Share) : Nat := ((l.filter p).map (·.2.size)).sum

def hasFailed (x : Share) : Bool := x.2.state = .failed

/-- Everything but recovery data. -/
def payload (files : List FileEntry) : Nat := bytes (fun x => !x.1) (shares files)

/-- What has failed of it. -/
def lost (files : List FileEntry) : Nat := bytes (fun x => !x.1 && hasFailed x) (shares files)

def repair (files : List FileEntry) : Nat := bytes (fun x => x.1 && !hasFailed x) (shares files)

/-- The recovery data that has. -/
def lostPar (files : List FileEntry) : Nat := bytes (fun x => x.1 && hasFailed x) (shares files)

variable {p q r : Share → Bool} {x : Share} {l : List Share} {files files' : List FileEntry}

@[simp] theorem bytes_nil (p : Share → Bool) : bytes p [] = 0 := rfl

theorem bytes_cons (p : Share → Bool) (x : Share) (l : List Share) :
    bytes p (x :: l) = (if p x then x.2.size else 0) + bytes p l := by
  unfold bytes
  by_cases h : p x
  · rw [List.filter_cons_of_pos h, List.map_cons, List.sum_cons, if_pos h]
  · rw [List.filter_cons_of_neg h, if_neg h, Nat.zero_add]

theorem bytes_append (p : Share → Bool) (l m : List Share) :
    bytes p (l ++ m) = bytes p l + bytes p m := by
  unfold bytes
  rw [List.filter_append, List.map_append, List.sum_append]

theorem bytes_add (h : ∀ x, r x = (p x || q x)) (hdisjoint : ∀ x, (p x && q x) = false)
    (l : List Share) : bytes r l = bytes p l + bytes q l := by
  induction l with
  | nil => rfl
  | cons x l ih =>
    have hr := h x
    have hd := hdisjoint x
    rw [bytes_cons, bytes_cons, bytes_cons, ih, hr]
    cases hp : p x with
    | false =>
      simp only [Bool.false_or, Bool.false_eq_true, if_false]
      omega
    | true =>
      rw [hp, Bool.true_and] at hd
      simp only [hd, Bool.or_false, Bool.false_eq_true, if_true, if_false]
      omega

structure Counts (t : JobTotals) (l : List Share) : Prop where
  size : t.size = bytes (fun _ => true) l
  parSize : t.parSize = bytes (·.1) l
  failedSize : t.failedSize = bytes hasFailed l
  failedParSize : t.failedParSize = bytes (fun x => x.1 && hasFailed x) l

theorem Counts.addSegment {t : JobTotals} (h : Counts t l) (x : Share) :
    Counts (t.addSegment x.1 x.2) (l ++ [x]) := by
  have hone : ∀ p, bytes p (l ++ [x]) = bytes p l + if p x then x.2.size else 0 := by
    intro p
    rw [bytes_append, bytes_cons, bytes_nil, Nat.add_zero]
  obtain ⟨hsize, hpar, hfailed, hfailedPar⟩ := h
  obtain ⟨par, s⟩ := x
  cases hs : s.state <;> cases par <;>
    constructor <;> rw [hone] <;> simp_all [JobTotals.addSegment, hasFailed]

theorem counts_jobTotals (files : List FileEntry) : Counts (jobTotals files) (shares files) := by
  have hfile : ∀ (par : Bool) (segments : List Segment) (t : JobTotals) (l : List Share),
      Counts t l → Counts (segments.foldl (JobTotals.addSegment par) t)
        (l ++ segments.map (par, ·)) := by
    intro par segments
    induction segments with
    | nil => intro t l h; simpa using h
    | cons s segments ih =>
      intro t l h
      have hnext := ih _ _ (h.addSegment (par, s))
      rwa [List.append_assoc] at hnext
  have hfiles : ∀ (t : JobTotals) (l : List Share), Counts t l →
      Counts (files.foldl (fun t f => f.segments.foldl (JobTotals.addSegment f.isPar2) t) t)
        (l ++ shares files) := by
    induction files with
    | nil => intro t l h; simpa [shares] using h
    | cons f files ih =>
      intro t l h
      have hnext := ih _ _ (hfile f.isPar2 f.segments t l h)
      rwa [List.append_assoc] at hnext
  exact hfiles .default [] ⟨rfl, rfl, rfl, rfl⟩

/-- The four parts a job is made of. -/
structure Parts (t : JobTotals) (files : List FileEntry) : Prop where
  size : t.size = payload files + repair files + lostPar files
  parSize : t.parSize = repair files + lostPar files
  failedSize : t.failedSize = lost files + lostPar files
  failedParSize : t.failedParSize = lostPar files
  lost : lost files ≤ payload files

/-- **The totals of a job are its parts.** -/
theorem parts_jobTotals (files : List FileEntry) : Parts (jobTotals files) files := by
  obtain ⟨hsize, hpar, hfailed, hfailedPar⟩ := counts_jobTotals files
  have hbool : ∀ x : Share, (!x.1 && hasFailed x || x.1 && hasFailed x) = hasFailed x := by
    intro x
    cases x.1 <;> simp
  have hwhole : bytes (fun _ => true) (shares files) = payload files + bytes (·.1) (shares files) :=
    bytes_add (fun x => by cases x.1 <;> rfl) (fun x => by cases x.1 <;> rfl) _
  have hrecovery : bytes (·.1) (shares files) = repair files + lostPar files :=
    bytes_add (fun x => by cases x.1 <;> cases hasFailed x <;> rfl)
      (fun x => by cases x.1 <;> cases hasFailed x <;> rfl) _
  have hlost : bytes hasFailed (shares files) = lost files + lostPar files :=
    bytes_add (fun x => (hbool x).symm) (fun x => by cases x.1 <;> cases hasFailed x <;> rfl) _
  have hpayload : payload files =
      lost files + bytes (fun x => !x.1 && !hasFailed x) (shares files) :=
    bytes_add (fun x => by cases x.1 <;> cases hasFailed x <;> rfl)
      (fun x => by cases x.1 <;> cases hasFailed x <;> rfl) _
  have hpart : bytes (fun x => x.1 && hasFailed x) (shares files) = lostPar files := rfl
  constructor <;> omega

/-! ### Machine arithmetic -/

/-- `calc`, with the operations of the machine. -/
def calcChecked (t : JobTotals) : Option Nat :=
  let nonParFailed := t.failedSize - t.failedParSize
  if nonParFailed = 0 then some perfect
  else
    let denom := t.size - t.parSize
    if denom = 0 then some 0
    else do
      let raw ← div (satMul (denom - nonParFailed) 1000) denom
      fit 16 (min raw 999)

/-- `calc_critical`, with the operations of the machine. -/
def calcCriticalChecked (t : JobTotals) (allowEstimation : Bool) : Option Nat :=
  let goodPar := t.parSize - t.failedParSize
  if t.size = 0 ∨ t.size ≤ satMul goodPar 2 then some 0
  else do
    let denom ← sub t.size goodPar
    let twice ← mul 64 2 goodPar
    let spared ← sub t.size twice
    let raw ← div (satMul spared 1000) denom
    let raw ← fit 16 (min raw 1000)
    if raw = 1000 ∧ allowEstimation then some 850 else some raw

theorem calcChecked_eq (t : JobTotals) : calcChecked t = some (calcHealth t) := by
  unfold calcChecked calcHealth
  simp only []
  split
  · rfl
  · split
    · rfl
    · next hdenom =>
      rw [div_of_pos (Nat.pos_of_ne_zero hdenom)]
      exact fit_of_lt (lt_of_le_of_lt (min_le_right _ _) (by decide))

theorem twice_lt {t : JobTotals} (hfits : t.size < 2 ^ 64) {goodPar : Nat}
    (h : ¬(t.size = 0 ∨ t.size ≤ satMul goodPar 2)) : 2 * goodPar < t.size := by
  unfold satMul at h
  omega

theorem calcCriticalChecked_eq {t : JobTotals} (hfits : t.size < 2 ^ 64) (allowEstimation : Bool) :
    calcCriticalChecked t allowEstimation =
      some (calcCritical t allowEstimation) := by
  unfold calcCriticalChecked calcCritical
  simp only []
  split
  · rfl
  · next hhalf =>
    have htwice := twice_lt hfits hhalf
    have hraw : ∀ raw : Nat, min raw 1000 < 2 ^ 16 := fun raw =>
      lt_of_le_of_lt (min_le_right _ _) (by decide)
    simp only [Option.bind_eq_bind, Option.bind_some, sub_of_le htwice.le,
      sub_of_le (show t.parSize - t.failedParSize ≤ t.size by omega),
      mul_of_lt (htwice.trans hfits), div_of_pos (Nat.sub_pos_of_lt (show
        t.parSize - t.failedParSize < t.size by omega)), fit_of_lt (hraw _)]
    split <;> rfl

/-! ### Health -/

def healthOf (payload lost : Nat) : Nat :=
  if lost = 0 then 1000
  else if payload = 0 then 0 else min (satMul (payload - lost) 1000 / payload) 999

theorem calcHealth_eq {t : JobTotals} (h : Parts t files) :
    calcHealth t = healthOf (payload files) (lost files) := by
  have hlost : t.failedSize - t.failedParSize = lost files := by
    rw [h.failedSize, h.failedParSize]
    omega
  have hpayload : t.size - t.parSize = payload files := by
    rw [h.size, h.parSize]
    omega
  simp only [calcHealth, perfect, healthOf, hlost, hpayload]

theorem healthOf_le (payload lost : Nat) : healthOf payload lost ≤ 1000 := by
  unfold healthOf
  split
  · exact le_rfl
  · split
    · exact Nat.zero_le _
    · exact (min_le_right _ _).trans (by decide)

theorem healthOf_eq_iff (payload lost : Nat) : healthOf payload lost = 1000 ↔ lost = 0 := by
  unfold healthOf
  split
  · next h => exact iff_of_true rfl h
  · next h =>
    refine iff_of_false ?_ h
    split
    · decide
    · omega

theorem healthOf_anti {payload lost lost' : Nat} (h : lost ≤ lost') :
    healthOf payload lost' ≤ healthOf payload lost := by
  by_cases hzero : lost = 0
  · rw [(healthOf_eq_iff payload lost).mpr hzero]
    exact healthOf_le payload lost'
  · have hzero' : lost' ≠ 0 := by omega
    unfold healthOf
    rw [if_neg hzero, if_neg hzero']
    split
    · exact le_rfl
    · have hleft : satMul (payload - lost') 1000 ≤ satMul (payload - lost) 1000 := by
        unfold satMul
        omega
      have hdiv := Nat.div_le_div_right (c := payload) hleft
      omega

theorem calcCritical_le (t : JobTotals) (allowEstimation : Bool) :
    calcCritical t allowEstimation ≤ 1000 := by
  unfold calcCritical
  simp only []
  split
  · exact Nat.zero_le _
  · split
    · decide
    · exact min_le_right _ _

/-! ### One more segment -/

def OneMoreFails (files files' : List FileEntry) : Prop :=
  ∃ before f behind xs s ys, files = before ++ f :: behind ∧ f.segments = xs ++ s :: ys ∧
    s.state ≠ .failed ∧
    files' = before ++ { f with segments := xs ++ { s with state := .failed } :: ys } :: behind

theorem shares_append (fs gs : List FileEntry) : shares (fs ++ gs) = shares fs ++ shares gs :=
  List.flatMap_append

theorem shares_cons (f : FileEntry) (fs : List FileEntry) :
    shares (f :: fs) = f.segments.map (f.isPar2, ·) ++ shares fs := List.flatMap_cons

theorem OneMoreFails.shares_eq (h : OneMoreFails files files') :
    ∃ l par s m, s.state ≠ .failed ∧ shares files = l ++ (par, s) :: m ∧
      shares files' = l ++ (par, { s with state := .failed }) :: m := by
  obtain ⟨before, f, behind, xs, s, ys, rfl, hsegments, hs, rfl⟩ := h
  refine ⟨shares before ++ xs.map (f.isPar2, ·), f.isPar2, s,
    ys.map (f.isPar2, ·) ++ shares behind, hs, ?_, ?_⟩
  · simp [shares_append, shares_cons, hsegments]
  · simp [shares_append, shares_cons]

theorem OneMoreFails.lost_le (h : OneMoreFails files files') :
    payload files' = payload files ∧ lost files ≤ lost files' := by
  obtain ⟨l, par, s, m, hs, hshares, hshares'⟩ := h.shares_eq
  unfold payload lost
  rw [hshares, hshares']
  simp only [bytes_append, bytes_cons, hasFailed, hs, decide_false, Bool.and_false,
    Bool.false_eq_true, if_false, true_and]
  omega

/-! ### The verdict -/

/-- The job is given up with as much recovery data as it has lost: of `k` per-mille there is less
left of the payload than that, and as much could be spared of what is not good recovery data. -/
def Misjudged (files : List FileEntry) : Prop :=
  lost files ≤ repair files ∧
    ∃ k, satMul (payload files - lost files) 1000 < k * payload files ∧
      k * (payload files + lostPar files) ≤
        satMul (payload files + lostPar files - repair files) 1000

theorem satMul_le (a b : Nat) : satMul a b ≤ a * b := min_le_left _ _

theorem calcCritical_eq {t : JobTotals} (h : Parts t files) :
    calcCritical t true =
      if t.size = 0 ∨ t.size ≤ satMul (repair files) 2 then 0
      else
        let raw := min (satMul (payload files + lostPar files - repair files) 1000 /
          (payload files + lostPar files)) 1000
        if raw = 1000 then 850 else raw := by
  have hgood : t.parSize - t.failedParSize = repair files := by
    rw [h.parSize, h.failedParSize]
    omega
  have hspared : t.size - 2 * repair files = payload files + lostPar files - repair files := by
    rw [h.size]
    omega
  have hdenom : t.size - repair files = payload files + lostPar files := by
    rw [h.size]
    omega
  simp only [calcCritical, hgood, hspared, hdenom, and_true]

section Misjudged

variable {t : JobTotals} {k : Nat}

theorem spared_lt (h : 0 < repair files) (hwhole : 0 < payload files + lostPar files) :
    satMul (payload files + lostPar files - repair files) 1000 /
      (payload files + lostPar files) < 1000 := by
  refine (Nat.div_lt_iff_lt_mul hwhole).mpr ?_
  have := satMul_le (payload files + lostPar files - repair files) 1000
  omega

/-- **The critical health, as far as `k` per-mille.** -/
theorem le_calcCritical (h : Parts t files) (hrepair : 0 < repair files)
    (hwhole : 0 < payload files + lostPar files) :
    k ≤ calcCritical t true ↔ k * (payload files + lostPar files) ≤
      satMul (payload files + lostPar files - repair files) 1000 := by
  have hlt := spared_lt hrepair hwhole
  have hle : k ≤ satMul (payload files + lostPar files - repair files) 1000 /
      (payload files + lostPar files) ↔ k * (payload files + lostPar files) ≤
        satMul (payload files + lostPar files - repair files) 1000 :=
    Nat.le_div_iff_mul_le hwhole
  rw [calcCritical_eq h, ← hle]
  split
  · next hhalf =>
    -- the recovery data is half of the job, and nothing could be spared
    have htwice := satMul_le (repair files) 2
    have hspared : payload files + lostPar files - repair files = 0 := by
      have := h.size
      omega
    rw [hspared]
    simp only [satMul, Nat.zero_mul, Nat.zero_min, Nat.zero_div]
  · simp only []
    rw [min_eq_left hlt.le, if_neg hlt.ne]

/-- **A health below `k` per-mille.** -/
theorem healthOf_lt (hlost : 0 < lost files) (hpayload : 0 < payload files) (hk : k ≤ 999) :
    healthOf (payload files) (lost files) < k ↔
      satMul (payload files - lost files) 1000 < k * payload files := by
  rw [← Nat.div_lt_iff_lt_mul hpayload, healthOf, if_neg hlost.ne', if_neg hpayload.ne']
  omega

theorem lost_of_misjudged (hleft : satMul (payload files - lost files) 1000 < k * payload files)
    (hspared : k * (payload files + lostPar files) ≤
      satMul (payload files + lostPar files - repair files) 1000) : 0 < lost files := by
  by_contra hzero
  have hnone : lost files = 0 := by omega
  have hpayload : 0 < payload files := by
    by_contra hpayload
    have hempty : payload files = 0 := by omega
    simp [hempty] at hleft
  have hsum : k * (payload files + lostPar files) = k * payload files + k * lostPar files :=
    Nat.mul_add ..
  rw [hnone, Nat.sub_zero] at hleft
  have hk : 1000 < k := by
    by_contra hk
    have hmul : k * payload files ≤ 1000 * payload files := Nat.mul_le_mul_right _ (by omega)
    unfold satMul at hleft hspared
    omega
  have hmul : 1001 * (payload files + lostPar files) ≤ k * (payload files + lostPar files) :=
    Nat.mul_le_mul_right _ hk
  have hle := satMul_le (payload files + lostPar files - repair files) 1000
  omega

/-- **Which jobs are given up though they could be repaired.** -/
theorem misjudged_iff (h : Parts t files) :
    (Owner.unhealthy t = true ∧ lost files ≤ repair files) ↔ Misjudged files := by
  have hunhealthy : Owner.unhealthy t = true ↔
      healthOf (payload files) (lost files) < calcCritical t true := by
    rw [← calcHealth_eq h]
    exact decide_eq_true_iff
  rw [hunhealthy, and_comm]
  refine and_congr_right fun hle => ?_
  constructor
  · intro hlt
    have hlost : 0 < lost files := by
      refine Nat.pos_of_ne_zero fun hzero => ?_
      have hfull := (healthOf_eq_iff (payload files) (lost files)).mpr hzero
      have hcritical := calcCritical_le t true
      omega
    have hpayload : 0 < payload files := by
      have := h.lost
      omega
    have hspared := (le_calcCritical h (hlost.trans_le hle) (by omega)).mp
      le_rfl
    refine ⟨_, ?_, hspared⟩
    refine (healthOf_lt hlost hpayload ?_).mp hlt
    have hlt' := spared_lt (hlost.trans_le hle) (show 0 < payload files + lostPar files by omega)
    have := (Nat.le_div_iff_mul_le (show 0 < payload files + lostPar files by omega)).mpr hspared
    omega
  · rintro ⟨k, hleft, hspared⟩
    have hlost := lost_of_misjudged hleft hspared
    have hpayload : 0 < payload files := by
      have := h.lost
      omega
    have hwhole : 0 < payload files + lostPar files := by omega
    have hcritical := (le_calcCritical h (hlost.trans_le hle) hwhole).mpr hspared
    have hlt := spared_lt (hlost.trans_le hle) hwhole
    have hk999 := (Nat.le_div_iff_mul_le hwhole).mpr hspared
    exact ((healthOf_lt hlost hpayload (by omega)).mpr hleft).trans_le hcritical

/-- **No job is misjudged whose recovery data is all there.** -/
theorem not_misjudged_of_no_lostPar (h : lostPar files = 0) : ¬Misjudged files := by
  rintro ⟨hle, k, hleft, hspared⟩
  rw [h, Nat.add_zero] at hspared
  unfold satMul at hleft hspared
  omega

end Misjudged

/-! ### The claim and its condition -/

structure Verdicts (job : Job) : Prop where
  /-- No operation overflows or divides by zero. -/
  health : calcChecked (recomputeJobTotals job).totals =
    some (calcHealth (recomputeJobTotals job).totals)
  critical : ∀ allowEstimation,
    calcCriticalChecked (recomputeJobTotals job).totals allowEstimation =
      some (calcCritical (recomputeJobTotals job).totals allowEstimation)
  health_le : calcHealth (recomputeJobTotals job).totals ≤ 1000
  critical_le : ∀ allowEstimation,
    calcCritical (recomputeJobTotals job).totals allowEstimation ≤ 1000
  falls : ∀ job', OneMoreFails job.files job'.files →
    calcHealth (recomputeJobTotals job').totals ≤
      calcHealth (recomputeJobTotals job).totals
  perfect : calcHealth (recomputeJobTotals job).totals = 1000 ↔ lost job.files = 0
  /-- Neither at the end nor on the way is a job given up that could be repaired. -/
  failed : Owner.finalStatus (recomputeJobTotals job) = .failed → repair job.files < lost job.files
  aborted : Owner.unhealthy (recomputeJobTotals job).totals = true → repair job.files < lost job.files

/-- **The verdicts are exact unless the job is misjudged.** -/
theorem verdicts_iff {job : Job} (h : (recomputeJobTotals job).totals.size < 2 ^ 64) :
    Verdicts job ↔ ¬Misjudged job.files := by
  have hparts : Parts (recomputeJobTotals job).totals job.files := parts_jobTotals job.files
  have hfair : (Owner.unhealthy (recomputeJobTotals job).totals = true →
      repair job.files < lost job.files) ↔ ¬Misjudged job.files := by
    rw [← misjudged_iff hparts, not_and, not_le]
  refine ⟨fun hv => hfair.mp hv.aborted, fun hfine => ?_⟩
  have haborted := hfair.mpr hfine
  exact {
    health := calcChecked_eq _
    critical := calcCriticalChecked_eq h
    health_le := by
      rw [calcHealth_eq hparts]
      exact healthOf_le _ _
    critical_le := calcCritical_le _
    falls := by
      intro job' hfails
      have hparts' : Parts (recomputeJobTotals job').totals job'.files := parts_jobTotals job'.files
      obtain ⟨hpayload, hlost⟩ := hfails.lost_le
      rw [calcHealth_eq hparts, calcHealth_eq hparts', hpayload]
      exact healthOf_anti hlost
    perfect := by
      rw [calcHealth_eq hparts]
      exact healthOf_eq_iff _ _
    failed := by
      intro hfailed
      refine haborted ?_
      unfold Owner.finalStatus at hfailed
      split at hfailed
      · next hunhealthy => exact hunhealthy
      · cases hfailed
    aborted := haborted }

/-! ### Three jobs -/

/-- A job of a file and its recovery data, with what has failed of each. -/
def jobOf (good failed goodPar failedPar : Nat) : Job :=
  { QueueState.newJob 0 1 .nzb [] [] none 0 .downloading with
    files := [fileOf 1 false good failed, fileOf 2 true goodPar failedPar] }
where
  fileOf (id : FileId) (isPar2 : Bool) (good failed : Nat) : FileEntry :=
    { id, filename := [], isPar2, paused := false, date := none, crc32 := none, finalized := false
      segments := [⟨[], 1, good, .done 0 good 0⟩, ⟨[], 2, failed, .failed⟩] }

/-- Less is lost than there is recovery data, and none of that has failed. -/
theorem verdicts_repairable : (recomputeJobTotals (jobOf 940 60 100 0)).totals.size < 2 ^ 64 ∧
    Owner.finalStatus (recomputeJobTotals (jobOf 940 60 100 0)) = .completed ∧
    Verdicts (jobOf 940 60 100 0) :=
  ⟨by decide, by decide, (verdicts_iff (by decide)).mpr (not_misjudged_of_no_lostPar (by decide))⟩

/-- **The same job is given up** once most of a larger set of recovery data has failed. -/
theorem discarded_though_repairable :
    Owner.finalStatus (recomputeJobTotals (jobOf 940 60 100 1000)) = .failed ∧
      lost (jobOf 940 60 100 1000).files = 60 ∧ repair (jobOf 940 60 100 1000).files = 100 ∧
      ¬Verdicts (jobOf 940 60 100 1000) := by
  have hfailed : Owner.finalStatus (recomputeJobTotals (jobOf 940 60 100 1000)) = .failed := by
    decide
  exact ⟨hfailed, by decide, by decide, fun h => absurd (h.failed hfailed) (by decide)⟩

end Nzbd.Health
