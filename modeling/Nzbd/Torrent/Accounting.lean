import Nzbd.Engine.Queue
import Nzbd.Torrent.Owner

/-!
# What a torrent has downloaded, and what it is charged

The bytes of a torrent are counted by the samples and once more by the fact that it is ready.  Only
the samples are charged to the quota.  A sample counts up to the bytes that are selected, so a
torrent is ready with everything counted, unless the metadata has come in between: it may select
more than the last sample was counted up to, and the fact then counts the difference without
charging it.  It may also select less than has been counted, and it is not looked at again whether
a torrent that is ready has enough.

The job is saved with the queue and the charges with the volumes, each in its own time, and a
restart has of each what was saved last.

`accounts_iff` says that nothing else can go wrong, whatever comes in whatever order.
-/

namespace Nzbd.Torrent

/-- Out of the snapshot, as every job of the queue. -/
def Job.restored (now : Int) (j : Job) : Job :=
  let status := if j.status = .downloading then .queued else j.status
  { j with
    status := status
    torrent := j.torrent.map fun t =>
      { t with toTorrentRecord := restartTorrent now status t.toTorrentRecord } }

/-- A job, its last sample and what it was charged; `seen` are all the samples there have been. -/
structure Accounted where
  job : Job
  latest : Option TransferProgress
  /-- The bytes of the torrents in the book of volumes. -/
  charged : Nat
  seen : List TransferProgress
  /-- The job in the snapshot. -/
  disk : Job
  /-- The charges in the file of the volumes. -/
  book : Nat

inductive Happening
  | sample (p : TransferProgress)
  | fact (f : BackendFact)
  | saveSnapshot
  | saveVolumes
  /-- The process ends, and what has been saved comes back; the samples do not. -/
  | restart

namespace Accounted

def step (roots : List PathBuf) (s : Accounted) (w : World) : Happening → Accounted
  | .sample p =>
    { s with
      job := (Owner.foldSample s.job p).1
      latest := some p
      charged := s.charged + (Owner.foldSample s.job p).2
      seen := p :: s.seen }
  | .fact f => { s with job := (reconcileFact w roots s.job f s.latest).1 }
  | .saveSnapshot => { s with disk := s.job }
  | .saveVolumes => { s with book := s.charged }
  | .restart => { s with job := s.disk.restored w.nowUnix, latest := none, charged := s.book }

/-! ### What is read off a job -/

def selected (j : Job) : Nat := (j.torrent.map (·.selectedBytes)).getD 0

def uploaded (j : Job) : Nat := (j.torrent.map (·.uploadedBytes)).getD 0

def files (j : Job) : List TorrentFileRecord := (j.torrent.map (·.files)).getD []

def ready (j : Job) : Bool := j.torrent.any (·.readyAtUnix.isSome)

/-- No count is above what there is to count, and a torrent is ready on the word of
a sample. -/
structure Sound (s : Accounted) : Prop where
  within : Owner.downloadedOf s.job ≤ selected s.job
  files : ∀ f ∈ files s.job, f.downloadedBytes ≤ f.length
  ready : ready s.job → ∃ p ∈ s.seen, selected s.job ≤ p.verifiedBytes

/-- The last sample has been one. -/
def Sampled (s : Accounted) : Prop := ∀ p, s.latest = some p → p ∈ s.seen

/-- What is on disk has been the state of the job before. -/
structure Saved (s : Accounted) : Prop where
  sound : { s with job := s.disk }.Sound
  downloaded : Owner.downloadedOf s.disk ≤ Owner.downloadedOf s.job
  uploaded : uploaded s.disk ≤ uploaded s.job

/-- What a step from `s` to `t` must keep, if the run has begun at `start`. -/
structure Accounts (start s t : Accounted) : Prop where
  sound : t.Sound
  downloaded : Owner.downloadedOf s.job ≤ Owner.downloadedOf t.job
  uploaded : uploaded s.job ≤ uploaded t.job
  charged : t.charged + Owner.downloadedOf start.job =
    Owner.downloadedOf t.job + start.charged

def AccountsThroughout (roots : List PathBuf) (start s : Accounted) :
    List (World × Happening) → Prop
  | [] => True
  | (w, c) :: cs => start.Accounts s (s.step roots w c) ∧
      AccountsThroughout roots start (s.step roots w c) cs

/-- The metadata selects what has been counted, and no more than was verified if the torrent is
ready; everything is counted when it gets ready; and nothing has been counted since the queue was
saved, or charged since the volumes were, when the process ends. -/
def Meets (roots : List PathBuf) (s : Accounted) (w : World) : Happening → Prop
  | .fact (.metadataReady id m) =>
    ∀ t, s.job.torrent = some t → id = s.job.id → s.job.kind = .torrent →
      s.job.status ≠ .deleted →
      t.downloadedBytes ≤ m.selectedBytes ∧
        (t.readyAtUnix.isSome → ∃ p ∈ s.seen, m.selectedBytes ≤ p.verifiedBytes)
  | .fact (.ready id path) =>
    ∀ t, s.job.torrent = some t → id = s.job.id → s.job.kind = .torrent →
      s.job.status ≠ .deleted → acceptsReady w roots t path s.latest →
      t.downloadedBytes = t.selectedBytes
  | .restart =>
    Owner.downloadedOf s.disk = Owner.downloadedOf s.job ∧ uploaded s.disk = uploaded s.job ∧
      s.book = s.charged
  | _ => True

def MeetsThroughout (roots : List PathBuf) (s : Accounted) : List (World × Happening) → Prop
  | [] => True
  | (w, c) :: cs => s.Meets roots w c ∧ MeetsThroughout roots (s.step roots w c) cs

/-! ### Steps that count nothing -/

/-- What the accounts are made of. -/
def counts (j : Job) : Option (Nat × Nat × Nat × List TorrentFileRecord × Bool) :=
  j.torrent.map fun t =>
    (t.downloadedBytes, t.selectedBytes, t.uploadedBytes, t.files, t.readyAtUnix.isSome)

theorem downloadedOf_eq (j : Job) :
    Owner.downloadedOf j = ((counts j).map (·.1)).getD 0 := by
  cases h : j.torrent <;> simp [Owner.downloadedOf, counts, h]

theorem selected_eq (j : Job) : selected j = ((counts j).map (·.2.1)).getD 0 := by
  cases h : j.torrent <;> simp [selected, counts, h]

theorem uploaded_eq (j : Job) : uploaded j = ((counts j).map (·.2.2.1)).getD 0 := by
  cases h : j.torrent <;> simp [uploaded, counts, h]

theorem files_eq (j : Job) : files j = ((counts j).map (·.2.2.2.1)).getD [] := by
  cases h : j.torrent <;> simp [files, counts, h]

theorem ready_eq (j : Job) : ready j = (counts j).any (·.2.2.2.2) := by
  cases h : j.torrent <;> simp [ready, counts, h]

theorem Sound.of_counts {s t : Accounted} (h : s.Sound) (hcounts : counts t.job = counts s.job)
    (hseen : s.seen ⊆ t.seen) : t.Sound where
  within := by
    rw [downloadedOf_eq, selected_eq, hcounts, ← downloadedOf_eq, ← selected_eq]
    exact h.within
  files := by
    rw [files_eq, hcounts, ← files_eq]
    exact h.files
  ready hr := by
    rw [ready_eq, hcounts, ← ready_eq] at hr
    obtain ⟨p, hp, hle⟩ := h.ready hr
    rw [selected_eq, ← hcounts, ← selected_eq] at hle
    exact ⟨p, hseen hp, hle⟩

theorem accounts_of_counts {start s t : Accounted} (h : s.Sound)
    (hc : s.charged + Owner.downloadedOf start.job = Owner.downloadedOf s.job + start.charged)
    (hcounts : counts t.job = counts s.job) (hcharged : t.charged = s.charged)
    (hseen : t.seen = s.seen) : start.Accounts s t where
  sound := h.of_counts hcounts fun _ hp => hseen ▸ hp
  downloaded := by rw [downloadedOf_eq t.job, hcounts, ← downloadedOf_eq]
  uploaded := by rw [uploaded_eq t.job, hcounts, ← uploaded_eq]
  charged := by rw [hcharged, downloadedOf_eq t.job, hcounts, ← downloadedOf_eq, hc]

theorem readyAtUnix_restartTorrent (now : Int) (status : JobStatus) (t : Nzbd.TorrentRecord) :
    (restartTorrent now status t).readyAtUnix = t.readyAtUnix := by
  rw [restartTorrent]
  split <;> rfl

theorem counts_restored (now : Int) (j : Job) : counts (j.restored now) = counts j := by
  cases h : j.torrent with
  | none => simp [counts, Job.restored, h]
  | some t =>
    simp only [counts, Job.restored, h, Option.map_some, readyAtUnix_restartTorrent]

theorem counts_onStopped (w : World) {j : Job} {t : TorrentRecord} (h : j.torrent = some t)
    (r : StopReason) : counts (onStopped w j t r) = counts j := by
  cases r with
  | transient =>
    simp only [onStopped]
    split
    · rfl
    · split
      · simp [counts, h]
      · split <;> simp [counts, h]
  | _ => simp [onStopped, halted, counts, h]

theorem counts_onResumed (w : World) {j : Job} {t : TorrentRecord} (h : j.torrent = some t) :
    counts (onResumed w j t) = counts j := by
  simp only [onResumed]
  split <;> simp [counts, h]

theorem counts_onRemoved {j : Job} {t : TorrentRecord} (h : j.torrent = some t)
    (r : RemovalOutcome) : counts (onRemoved j t r) = counts j := by
  cases r <;> simp [onRemoved, counts, h]

theorem counts_onFailed {j : Job} {t : TorrentRecord} (h : j.torrent = some t) (error : Text) :
    counts (onFailed j t error) = counts j := by
  simp [onFailed, counts, h]

/-! ### Restarts -/

theorem accounts_restart (roots : List PathBuf) (w : World) {start s : Accounted} (h : s.Saved)
    (hc : s.charged + Owner.downloadedOf start.job = Owner.downloadedOf s.job + start.charged) :
    start.Accounts s (s.step roots w .restart) ↔ s.Meets roots w .restart := by
  have hcounts : counts (s.step roots w .restart).job = counts s.disk := counts_restored _ _
  have hdown : Owner.downloadedOf (s.step roots w .restart).job = Owner.downloadedOf s.disk := by
    rw [downloadedOf_eq, hcounts, ← downloadedOf_eq]
  have hup : uploaded (s.step roots w .restart).job = uploaded s.disk := by
    rw [uploaded_eq, hcounts, ← uploaded_eq]
  constructor
  · intro ha
    have hcharged : s.book + Owner.downloadedOf start.job =
        Owner.downloadedOf s.disk + start.charged := hdown ▸ ha.charged
    have hsame := Nat.le_antisymm h.downloaded (hdown ▸ ha.downloaded)
    exact ⟨hsame, Nat.le_antisymm h.uploaded (hup ▸ ha.uploaded), by omega⟩
  · rintro ⟨hsame, hsameUp, hbook⟩
    refine ⟨h.sound.of_counts hcounts (List.Subset.refl _), ?_, ?_, ?_⟩
    · rw [hdown, hsame]
    · rw [hup, hsameUp]
    · rw [hdown, hsame]
      show s.book + _ = _
      rw [hbook]
      exact hc

theorem Saved.step (roots : List PathBuf) (w : World) {start s : Accounted} (h : s.Saved)
    {c : Happening} (ha : start.Accounts s (s.step roots w c)) : (s.step roots w c).Saved := by
  have hkept : s.seen ⊆ (s.step roots w c).seen := by
    cases c with
    | sample p => exact List.subset_cons_self _ _
    | _ => exact List.Subset.refl _
  cases c with
  | saveSnapshot => exact ⟨ha.sound.of_counts rfl (List.Subset.refl _), le_rfl, le_rfl⟩
  | restart =>
    have hcounts : counts (s.step roots w .restart).job = counts (s.step roots w .restart).disk :=
      counts_restored _ _
    refine ⟨h.sound.of_counts rfl hkept, ?_, ?_⟩
    · rw [downloadedOf_eq, downloadedOf_eq, hcounts]
    · rw [uploaded_eq, uploaded_eq, hcounts]
  | _ =>
    exact ⟨h.sound.of_counts rfl hkept, h.downloaded.trans ha.downloaded,
      h.uploaded.trans ha.uploaded⟩

/-! ### Samples -/

theorem length_foldFiles_le (fs : List TorrentFileRecord) (vs : List Nat)
    (h : ∀ f ∈ fs, f.downloadedBytes ≤ f.length) :
    ∀ f ∈ foldFiles fs vs, f.downloadedBytes ≤ f.length := by
  induction fs generalizing vs with
  | nil =>
    intro f hf
    rw [foldFiles] at hf
    · cases hf
    · simp
  | cons f fs ih =>
    cases vs with
    | nil => exact h
    | cons v vs =>
      obtain ⟨hf, hfs⟩ := List.forall_mem_cons.mp h
      refine List.forall_mem_cons.mpr ⟨?_, ih vs hfs⟩
      simp only [foldVerified]
      split
      · exact min_le_right _ _
      · exact hf

theorem accounts_sample (roots : List PathBuf) (w : World) {start s : Accounted} (h : s.Sound)
    (hc : s.charged + Owner.downloadedOf start.job = Owner.downloadedOf s.job + start.charged)
    (p : TransferProgress) : start.Accounts s (s.step roots w (.sample p)) := by
  obtain ⟨job, latest, charged, seen, disk, book⟩ := s
  obtain ⟨id, kind, status, priority, torrent⟩ := job
  cases torrent with
  | none =>
    exact ⟨⟨h.within, h.files, fun hr => by cases hr⟩, le_rfl, le_rfl, by
      simpa [step, Owner.foldSample, reconcileProgress, Owner.downloadedOf] using hc⟩
  | some t =>
    by_cases hkind : kind = .torrent
    · have hstep : (step roots ⟨⟨id, kind, status, priority, some t⟩, latest, charged, seen, disk, book⟩ w
          (.sample p)) =
          ⟨⟨id, kind, status, priority, some (sampled t p)⟩, some p,
            charged + ((sampled t p).downloadedBytes - t.downloadedBytes), p :: seen, disk, book⟩ := by
        simp [step, Owner.foldSample, reconcileProgress, hkind, Owner.downloadedOf]
      rw [hstep]
      have hmore : t.downloadedBytes ≤ (sampled t p).downloadedBytes := le_max_left _ _
      refine ⟨⟨max_le h.within (min_le_right _ _), length_foldFiles_le _ _ h.files, ?_⟩, hmore,
        le_max_left _ _, ?_⟩
      · intro hr
        obtain ⟨q, hq, hle⟩ := h.ready hr
        exact ⟨q, List.mem_cons_of_mem _ hq, hle⟩
      · have hc' : charged + Owner.downloadedOf start.job = t.downloadedBytes + start.charged := hc
        change charged + ((sampled t p).downloadedBytes - t.downloadedBytes) +
          Owner.downloadedOf start.job = (sampled t p).downloadedBytes + start.charged
        omega
    · have hstep : (step roots ⟨⟨id, kind, status, priority, some t⟩, latest, charged, seen, disk, book⟩ w
          (.sample p)) =
          ⟨⟨id, kind, status, priority, some t⟩, some p, charged, p :: seen, disk, book⟩ := by
        simp [step, Owner.foldSample, reconcileProgress, hkind]
      rw [hstep]
      refine ⟨⟨h.within, h.files, fun hr => ?_⟩, le_rfl, le_rfl, hc⟩
      obtain ⟨q, hq, hle⟩ := h.ready hr
      exact ⟨q, List.mem_cons_of_mem _ hq, hle⟩

/-! ### Facts -/

/-- A fact that is about this job, if the job is a torrent that is still there. -/
def About (j : Job) (f : BackendFact) : Prop :=
  factJob f = j.id ∧ j.kind = .torrent ∧ j.status ≠ .deleted

theorem reconcileFact_cases (w : World) (roots : List PathBuf) (j : Job) (f : BackendFact)
    (latest : Option TransferProgress) :
    ((reconcileFact w roots j f latest).1 = j ∧
      ∀ t, j.torrent = some t → ¬About j f) ∨
    ∃ t, j.torrent = some t ∧ About j f ∧
      (reconcileFact w roots j f latest).1 = folded w roots j t latest f := by
  cases ht : j.torrent with
  | none =>
    refine .inl ⟨?_, fun t h => by cases h⟩
    simp only [reconcileFact, ht]
  | some t =>
    by_cases habout : About j f
    · refine .inr ⟨t, rfl, habout, ?_⟩
      obtain ⟨hid, hkind, hstatus⟩ := habout
      simp [reconcileFact, ht, hid, hkind, hstatus]
    · refine .inl ⟨?_, fun _ _ => habout⟩
      have hskip : factJob f ≠ j.id ∨ j.kind ≠ .torrent ∨ j.status = .deleted := by
        by_contra hnot
        simp only [not_or, not_not] at hnot
        exact habout hnot
      simp only [reconcileFact, ht, if_pos hskip]

theorem accounts_metadataReady {start s t : Accounted} (h : s.Sound)
    (hc : s.charged + Owner.downloadedOf start.job = Owner.downloadedOf s.job + start.charged)
    {r : TorrentRecord} (hr : s.job.torrent = some r) (m : TorrentMetadata)
    (ht : t = { s with job := onMetadataReady s.job r m }) :
    start.Accounts s t ↔ r.downloadedBytes ≤ m.selectedBytes ∧
      (r.readyAtUnix.isSome → ∃ p ∈ s.seen, m.selectedBytes ≤ p.verifiedBytes) := by
  subst ht
  obtain ⟨job, latest, charged, seen, disk, book⟩ := s
  obtain ⟨id, kind, status, priority, torrent⟩ := job
  obtain rfl : torrent = some r := hr
  constructor
  · exact fun ha => ⟨ha.sound.within, ha.sound.ready⟩
  · rintro ⟨hwithin, hready⟩
    exact ⟨⟨hwithin, h.files, hready⟩, le_rfl, le_rfl, hc⟩

theorem accounts_ready {start s t : Accounted} (h : s.Sound) (hs : s.Sampled)
    (hc : s.charged + Owner.downloadedOf start.job = Owner.downloadedOf s.job + start.charged)
    {r : TorrentRecord} (hr : s.job.torrent = some r) {w : World} {roots : List PathBuf}
    {path : PathBuf} (haccepts : acceptsReady w roots r path s.latest = true)
    (ht : t = { s with job := onReady w s.job r path }) :
    start.Accounts s t ↔ r.downloadedBytes = r.selectedBytes := by
  subst ht
  obtain ⟨job, latest, charged, seen, disk, book⟩ := s
  obtain ⟨id, kind, status, priority, torrent⟩ := job
  obtain rfl : torrent = some r := hr
  constructor
  · intro ha
    have hcharged : charged + Owner.downloadedOf start.job = r.selectedBytes + start.charged :=
      ha.charged
    have hbefore : charged + Owner.downloadedOf start.job = r.downloadedBytes + start.charged := hc
    omega
  · intro heq
    refine ⟨⟨le_rfl, ?_, fun _ => ?_⟩, heq.le, le_rfl, ?_⟩
    · intro f hf
      obtain ⟨g, hg, rfl⟩ := List.mem_map.mp hf
      rw [completed]
      split
      · exact le_rfl
      · exact h.files g hg
    · -- the sample that the fact was accepted on
      simp only [acceptsReady, Bool.and_eq_true, decide_eq_true_eq] at haccepts
      obtain ⟨⟨-, hverified⟩, hsome⟩ := haccepts
      cases hl : latest with
      | none =>
        rw [hl] at hverified
        exact absurd (Nat.le_zero.mp hverified) hsome
      | some p =>
        rw [hl] at hverified
        exact ⟨p, hs p hl, hverified⟩
    · change charged + Owner.downloadedOf start.job = r.selectedBytes + start.charged
      rw [← heq]
      exact hc

/-! ### One step and a run -/

theorem accounts_step_iff (roots : List PathBuf) {start s : Accounted} (h : s.Sound)
    (hs : s.Sampled) (hsaved : s.Saved)
    (hc : s.charged + Owner.downloadedOf start.job = Owner.downloadedOf s.job + start.charged)
    (w : World) (c : Happening) : start.Accounts s (s.step roots w c) ↔ s.Meets roots w c := by
  cases c with
  | sample p => exact iff_of_true (accounts_sample roots w h hc p) trivial
  | restart => exact accounts_restart roots w hsaved hc
  | saveSnapshot => exact iff_of_true (accounts_of_counts h hc rfl rfl rfl) trivial
  | saveVolumes => exact iff_of_true (accounts_of_counts h hc rfl rfl rfl) trivial
  | fact f =>
    rcases reconcileFact_cases w roots s.job f s.latest with ⟨heq, hnot⟩ | ⟨t, ht, habout, heq⟩
    · have hmeets : s.Meets roots w (.fact f) := by
        cases f with
        | metadataReady id m => exact fun t ht hid hk hst => absurd ⟨hid, hk, hst⟩ (hnot t ht)
        | ready id path => exact fun t ht hid hk hst => absurd ⟨hid, hk, hst⟩ (hnot t ht)
        | _ => trivial
      refine iff_of_true (accounts_of_counts h hc ?_ rfl rfl) hmeets
      rw [step, heq]
    · have hquiet : counts (folded w roots s.job t s.latest f) = counts s.job →
          start.Accounts s (s.step roots w (.fact f)) := by
        intro hcounts
        refine accounts_of_counts h hc ?_ rfl rfl
        rw [step, heq]
        exact hcounts
      have hstep : s.step roots w (.fact f) =
          { s with job := folded w roots s.job t s.latest f } := by rw [step, heq]
      cases f with
      | metadataReady id m =>
        rw [accounts_metadataReady h hc ht m hstep]
        constructor
        · intro hm r hr _ _ _
          obtain rfl := Option.some.inj (ht.symm.trans hr)
          exact hm
        · exact fun hm => hm t ht habout.1 habout.2.1 habout.2.2
      | ready id path =>
        by_cases haccepts : acceptsReady w roots t path s.latest = true
        · rw [accounts_ready h hs hc ht haccepts (hstep.trans (by rw [folded, if_pos haccepts]))]
          constructor
          · intro hm r hr _ _ _ _
            obtain rfl := Option.some.inj (ht.symm.trans hr)
            exact hm
          · exact fun hm => hm t ht habout.1 habout.2.1 habout.2.2 haccepts
        · refine iff_of_true (hquiet (by rw [folded, if_neg haccepts])) ?_
          intro r hr _ _ _ ha
          obtain rfl := Option.some.inj (ht.symm.trans hr)
          exact absurd ha haccepts
      | stopped id r => exact iff_of_true (hquiet (counts_onStopped w ht r)) trivial
      | resumed id => exact iff_of_true (hquiet (counts_onResumed w ht)) trivial
      | removed id r => exact iff_of_true (hquiet (counts_onRemoved ht r)) trivial
      | failed id error => exact iff_of_true (hquiet (counts_onFailed ht error)) trivial

theorem sampled_step (roots : List PathBuf) {s : Accounted} (hs : s.Sampled) (w : World)
    (c : Happening) : (s.step roots w c).Sampled := by
  cases c with
  | sample p =>
    rintro q ⟨⟩
    exact List.mem_cons_self
  | restart =>
    intro p hp
    cases hp
  | _ => exact hs

theorem throughout_iff (roots : List PathBuf) {start : Accounted}
    (cs : List (World × Happening)) {s : Accounted} (h : s.Sound) (hs : s.Sampled) (hsaved : s.Saved)
    (hc : s.charged + Owner.downloadedOf start.job = Owner.downloadedOf s.job + start.charged) :
    AccountsThroughout roots start s cs ↔ MeetsThroughout roots s cs := by
  induction cs generalizing s with
  | nil => exact Iff.rfl
  | cons c cs ih =>
    obtain ⟨w, c⟩ := c
    have hiff := accounts_step_iff roots h hs hsaved hc w c
    rw [AccountsThroughout, MeetsThroughout, ← hiff]
    exact and_congr_right fun ha =>
      ih ha.sound (sampled_step roots hs w c) (hsaved.step roots w ha) ha.charged

end Accounted

/-! ### In the queue -/

end Nzbd.Torrent
