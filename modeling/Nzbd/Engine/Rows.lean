import Mathlib.Data.List.Pairwise
import Nzbd.Engine.Queue

/-!
# Row by row

Most of what happens to the queue leaves its shape alone: the same jobs, files
and segments, in the same order, and only the states of segments move.
`JobsBy R` says so, for a relation `R` on the states, and says nothing about the
other fields of a row.

A lookup sees related segments (`JobsBy.segment`), the keys are the same
(`JobsBy.keys`), and a change of one row is row by row (`JobsBy.updateJob`,
`JobsBy.setSegment`).
-/

namespace Nzbd

open List

variable {R S : SegmentState → SegmentState → Prop}

structure SegBy (R : SegmentState → SegmentState → Prop) (s t : Segment) : Prop where
  number : s.number = t.number
  state : R s.state t.state

structure FileBy (R : SegmentState → SegmentState → Prop) (f g : FileEntry) : Prop where
  id : f.id = g.id
  segments : List.Forall₂ (SegBy R) f.segments g.segments

structure JobBy (R : SegmentState → SegmentState → Prop) (j k : Job) : Prop where
  id : j.id = k.id
  files : List.Forall₂ (FileBy R) j.files k.files

def JobsBy (R : SegmentState → SegmentState → Prop) : List Job → List Job → Prop :=
  List.Forall₂ (JobBy R)

/-! ### A relation on states, lifted -/

theorem forall₂_trans {α : Type*} {P Q : α → α → Prop} (h : ∀ a b c, P a b → P b c → Q a c) :
    ∀ {l m n : List α}, List.Forall₂ P l m → List.Forall₂ P m n → List.Forall₂ Q l n
  | _, _, _, .nil, .nil => .nil
  | _, _, _, .cons hab h₁, .cons hbc h₂ => .cons (h _ _ _ hab hbc) (forall₂_trans h h₁ h₂)

section Lift

variable (hrefl : ∀ a, R a a)
include hrefl

theorem SegBy.refl (s : Segment) : SegBy R s s := ⟨rfl, hrefl _⟩

theorem FileBy.refl (f : FileEntry) : FileBy R f f :=
  ⟨rfl, forall₂_same.mpr fun s _ => SegBy.refl hrefl s⟩

theorem JobBy.refl (j : Job) : JobBy R j j :=
  ⟨rfl, forall₂_same.mpr fun f _ => FileBy.refl hrefl f⟩

theorem JobsBy.refl (l : List Job) : JobsBy R l l :=
  forall₂_same.mpr fun j _ => JobBy.refl hrefl j

theorem JobBy.of_files_eq {j k : Job} (hid : k.id = j.id) (hfiles : k.files = j.files) :
    JobBy R j k := ⟨hid.symm, hfiles ▸ (JobBy.refl hrefl j).files⟩

theorem FileBy.of_segments_eq {f g : FileEntry} (hid : g.id = f.id)
    (hsegs : g.segments = f.segments) : FileBy R f g := ⟨hid.symm, hsegs ▸ (FileBy.refl hrefl f).segments⟩

end Lift

theorem JobsBy.trans (htrans : ∀ a b c, R a b → R b c → R a c) {l m n : List Job}
    (h₁ : JobsBy R l m) (h₂ : JobsBy R m n) : JobsBy R l n := by
  have hseg : ∀ a b c, SegBy R a b → SegBy R b c → SegBy R a c := by
    intro a b c hab hbc
    exact ⟨hab.number.trans hbc.number, htrans _ _ _ hab.state hbc.state⟩
  have hfile : ∀ a b c, FileBy R a b → FileBy R b c → FileBy R a c := by
    intro a b c hab hbc
    exact ⟨hab.id.trans hbc.id, forall₂_trans hseg hab.segments hbc.segments⟩
  refine forall₂_trans (fun a b c hab hbc => ?_) h₁ h₂
  exact ⟨hab.id.trans hbc.id, forall₂_trans hfile hab.files hbc.files⟩

theorem JobsBy.mono (hRS : ∀ a b, R a b → S a b) {l m : List Job} (h : JobsBy R l m) :
    JobsBy S l m := by
  refine List.Forall₂.imp (fun j k hjk => ⟨hjk.id, ?_⟩) h
  refine List.Forall₂.imp (fun f g hfg => ⟨hfg.id, ?_⟩) hjk.files
  exact List.Forall₂.imp (fun s t hst => ⟨hst.number, hRS _ _ hst.state⟩) hfg.segments

/-! ### Changes of one row -/

theorem JobBy.updateFile (hrefl : ∀ a, R a a) {j : Job} {id : FileId}
    {g : FileEntry → FileEntry} (hg : ∀ f, j.file id = some f → FileBy R f (g f)) :
    JobBy R j (j.updateFile id g) :=
  ⟨rfl, forall₂_self_modifyFirst (FileBy.refl hrefl) hg⟩

variable {g : Segment → Segment}

theorem FileBy.updateSegment (hrefl : ∀ a, R a a) {f : FileEntry} {n : Nat}
    (hg : ∀ s, f.segment n = some s → SegBy R s (g s)) :
    FileBy R f (f.updateSegment n g) :=
  ⟨rfl, forall₂_self_modifyFirst (SegBy.refl hrefl) hg⟩

variable {s : QueueState}

theorem JobsBy.updateJob (hrefl : ∀ a, R a a) {id : JobId} {f : Job → Job}
    (hf : ∀ j, s.job id = some j → JobBy R j (f j)) : JobsBy R s.jobs (s.updateJob id f).jobs :=
  forall₂_self_modifyFirst (JobBy.refl hrefl) hf

theorem JobsBy.editJob (hrefl : ∀ a, R a a) (s : QueueState) (id : JobId) {f : Job → Job}
    (hid : ∀ j, (f j).id = j.id) (hfiles : ∀ j, (f j).files = j.files) :
    JobsBy R s.jobs (s.updateJob id f).jobs :=
  JobsBy.updateJob hrefl fun j _ => .of_files_eq hrefl (hid j) (hfiles j)

theorem JobsBy.updateFile (hrefl : ∀ a, R a a) {job : JobId} {id : FileId}
    {g : FileEntry → FileEntry}
    (hg : ∀ j f, s.job job = some j → j.file id = some f → FileBy R f (g f)) :
    JobsBy R s.jobs (s.updateFile job id g).jobs :=
  JobsBy.updateJob hrefl fun j hj => JobBy.updateFile hrefl fun f hf => hg j f hj hf

variable {r : SegRef}

theorem segment_eq_some {seg : Segment} :
    s.segment r = some seg ↔
      ∃ j f, s.job r.job = some j ∧ j.file r.file = some f ∧ f.segment r.segNumber = some seg := by
  simp only [QueueState.segment, Option.bind_eq_some_iff]
  constructor
  · rintro ⟨j, hj, f, hf, hs⟩
    exact ⟨j, f, hj, hf, hs⟩
  · rintro ⟨j, f, hj, hf, hs⟩
    exact ⟨j, hj, f, hf, hs⟩

theorem JobsBy.updateSegment (hrefl : ∀ a, R a a) (hg : ∀ seg, s.segment r = some seg → SegBy R seg (g seg)) :
    JobsBy R s.jobs (s.updateSegment r g).jobs :=
  JobsBy.updateFile hrefl fun j f hj hf => FileBy.updateSegment hrefl fun seg hseg =>
    hg seg (segment_eq_some.mpr ⟨j, f, hj, hf, hseg⟩)

/-! ### Lookups -/

theorem JobsBy.job {s t : QueueState} (h : JobsBy R s.jobs t.jobs) (id : JobId) :
    (s.job id = none ∧ t.job id = none) ∨
      ∃ j k, s.job id = some j ∧ t.job id = some k ∧ JobBy R j k :=
  forall₂_find? (fun a b hab => by rw [hab.id]) h

theorem JobBy.file {j k : Job} (h : JobBy R j k) (id : FileId) :
    (j.file id = none ∧ k.file id = none) ∨
      ∃ f g, j.file id = some f ∧ k.file id = some g ∧ FileBy R f g :=
  forall₂_find? (fun a b hab => by rw [hab.id]) h.files

theorem FileBy.segment {f g : FileEntry} (h : FileBy R f g) (n : Nat) :
    (f.segment n = none ∧ g.segment n = none) ∨
      ∃ s t, f.segment n = some s ∧ g.segment n = some t ∧ SegBy R s t :=
  forall₂_find? (fun a b hab => by rw [hab.number]) h.segments

/-- **The same lookup finds related segments.** -/
theorem JobsBy.segment {s t : QueueState} (h : JobsBy R s.jobs t.jobs) (r : SegRef) :
    (s.segment r = none ∧ t.segment r = none) ∨
      ∃ a b, s.segment r = some a ∧ t.segment r = some b ∧ SegBy R a b := by
  simp only [QueueState.segment]
  rcases h.job r.job with ⟨h₁, h₂⟩ | ⟨j, k, h₁, h₂, hjk⟩
  · exact .inl (by simp [h₁, h₂])
  · rcases hjk.file r.file with ⟨h₃, h₄⟩ | ⟨f, g, h₃, h₄, hfg⟩
    · exact .inl (by simp [h₁, h₂, h₃, h₄])
    · rcases hfg.segment r.segNumber with ⟨h₅, h₆⟩ | ⟨a, b, h₅, h₆, hab⟩
      · exact .inl (by simp [h₁, h₂, h₃, h₄, h₅, h₆])
      · exact .inr ⟨a, b, by simp [h₁, h₃, h₅], by simp [h₂, h₄, h₆], hab⟩

/-! ### What a change leaves alone -/

theorem job_updateJob_ne (s : QueueState) {id id' : JobId} {f : Job → Job} (hne : id' ≠ id)
    (hf : ∀ j, (f j).id = j.id) : (s.updateJob id f).job id' = s.job id' := by
  refine find?_modifyFirst_of_disjoint fun j hj => ?_
  have hj : j.id = id := by simpa using hj
  simp [hf, hj, Ne.symm hne]

theorem job_updateJob_self (s : QueueState) {id : JobId} {f : Job → Job}
    (hf : ∀ j, (f j).id = j.id) : (s.updateJob id f).job id = (s.job id).map f :=
  find?_modifyFirst fun j hj => by simpa [hf] using hj

theorem job_updateFile_self (s : QueueState) (id : JobId) (file : FileId)
    (g : FileEntry → FileEntry) :
    (s.updateFile id file g).job id = (s.job id).map (·.updateFile file g) :=
  job_updateJob_self s fun _ => rfl

theorem job_updateSegment_ne (s : QueueState) {id : JobId} (hne : id ≠ r.job)
    (g : Segment → Segment) : (s.updateSegment r g).job id = s.job id :=
  job_updateJob_ne s hne fun _ => rfl

theorem file_updateFile_self (j : Job) {id : FileId} {g : FileEntry → FileEntry}
    (hg : ∀ f, (g f).id = f.id) : (j.updateFile id g).file id = (j.file id).map g :=
  find?_modifyFirst fun f hf => by simpa [hg] using hf

theorem file_updateFile_ne (j : Job) {id id' : FileId} {g : FileEntry → FileEntry} (hne : id' ≠ id)
    (hg : ∀ f, (g f).id = f.id) : (j.updateFile id g).file id' = j.file id' := by
  refine find?_modifyFirst_of_disjoint fun f hf => ?_
  have hf : f.id = id := by simpa using hf
  simp [hg, hf, Ne.symm hne]

theorem segment_updateSegment_self' (f : FileEntry) {n : Nat}
    (hg : ∀ s, (g s).number = s.number) : (f.updateSegment n g).segment n = (f.segment n).map g :=
  find?_modifyFirst fun s hs => by simpa [hg] using hs

theorem segment_updateSegment_ne' (f : FileEntry) {n n' : Nat}
    (hne : n' ≠ n) (hg : ∀ s, (g s).number = s.number) :
    (f.updateSegment n g).segment n' = f.segment n' := by
  refine find?_modifyFirst_of_disjoint fun s hs => ?_
  have hs : s.number = n := by simpa using hs
  simp [hg, hs, Ne.symm hne]

theorem segment_updateSegment_self (s : QueueState)
    (hg : ∀ x, (g x).number = x.number) :
    (s.updateSegment r g).segment r = (s.segment r).map g := by
  have hjob : (s.updateSegment r g).job r.job =
      (s.job r.job).map (·.updateFile r.file (·.updateSegment r.segNumber g)) :=
    job_updateJob_self s fun _ => rfl
  rw [QueueState.segment, QueueState.segment, hjob]
  cases s.job r.job with
  | none => rfl
  | some j =>
    simp only [Option.map_some, Option.bind_some]
    rw [file_updateFile_self j (g := FileEntry.updateSegment r.segNumber g) fun _ => rfl]
    cases j.file r.file with
    | none => rfl
    | some f => exact segment_updateSegment_self' f hg

theorem segment_updateSegment_ne (s : QueueState) {r r' : SegRef}
    (hne : r' ≠ r) (hg : ∀ x, (g x).number = x.number) :
    (s.updateSegment r g).segment r' = s.segment r' := by
  by_cases hjob : r'.job = r.job
  · have hself : (s.updateSegment r g).job r.job =
        (s.job r.job).map (·.updateFile r.file (·.updateSegment r.segNumber g)) :=
      job_updateJob_self s fun _ => rfl
    rw [QueueState.segment, QueueState.segment, hjob, hself]
    cases s.job r.job with
    | none => rfl
    | some j =>
      simp only [Option.map_some, Option.bind_some]
      by_cases hfile : r'.file = r.file
      · rw [hfile, file_updateFile_self j (g := FileEntry.updateSegment r.segNumber g) fun _ => rfl]
        cases j.file r.file with
        | none => rfl
        | some f =>
          have hn : r'.segNumber ≠ r.segNumber := by
            intro hn
            apply hne
            cases r; cases r'
            simp_all
          exact segment_updateSegment_ne' f hn hg
      · rw [file_updateFile_ne j hfile (g := FileEntry.updateSegment r.segNumber g) fun _ => rfl]
  · have hother : (s.updateSegment r g).job r'.job = s.job r'.job :=
      job_updateJob_ne s hjob fun _ => rfl
    rw [QueueState.segment, QueueState.segment, hother]

/-! ### Keys -/

/-- The ids and numbers a job is looked up by. -/
def Job.keys (j : Job) : JobId × List (FileId × List Nat) :=
  (j.id, j.files.map fun f => (f.id, f.segments.map (·.number)))

theorem JobsBy.keys {l m : List Job} (h : JobsBy R l m) : l.map Job.keys = m.map Job.keys := by
  have hmap : ∀ {α β : Type _} {P : α → α → Prop} {g : α → β} {l m : List α},
      (∀ a b, P a b → g a = g b) → List.Forall₂ P l m → l.map g = m.map g := by
    intro α β P g l m hg hlm
    induction hlm with
    | nil => rfl
    | cons hab _ ih => rw [map_cons, map_cons, hg _ _ hab, ih]
  refine hmap (fun j k hjk => ?_) h
  rw [Job.keys, Job.keys, hjk.id]
  congr 1
  refine hmap (fun f g hfg => ?_) hjk.files
  rw [hfg.id]
  congr 1
  exact hmap (fun s t hst => hst.number) hfg.segments

/-- Job ids are distinct, also from the reserved ones; file ids are distinct in
the whole queue, and numbers in each file. -/
structure WellKeyed (keys : List (JobId × List (FileId × List Nat))) (pending : List JobId) :
    Prop where
  jobs : (keys.map (·.1) ++ pending).Nodup
  files : (keys.flatMap fun k => k.2.map (·.1)).Nodup
  numbers : ∀ k ∈ keys, ∀ f ∈ k.2, f.2.Nodup

def QueueState.WellKeyed (s : QueueState) : Prop :=
  Nzbd.WellKeyed (s.jobs.map Job.keys) s.pendingAdmissions

theorem JobsBy.wellKeyed {s t : QueueState} (h : JobsBy R s.jobs t.jobs)
    (hp : t.pendingAdmissions = s.pendingAdmissions) (hs : s.WellKeyed) : t.WellKeyed := by
  rw [QueueState.WellKeyed, ← h.keys, hp]
  exact hs

namespace QueueState.WellKeyed

variable {s : QueueState} (h : s.WellKeyed)
include h

theorem ids : (s.jobs.map (·.id)).Nodup := by
  have hids := (nodup_append.mp h.jobs).1
  rwa [map_map] at hids

theorem fileIds : (s.jobs.flatMap fun j => j.files.map (·.id)).Nodup := by
  have hfiles := h.files
  rw [flatMap_map] at hfiles
  simpa [Job.keys, Function.comp_def] using hfiles

theorem fileIds_of_mem {j : Job} (hj : j ∈ s.jobs) : (j.files.map (·.id)).Nodup :=
  (nodup_flatMap.mp h.fileIds).1 j hj

theorem numbers_of_mem {j : Job} {f : FileEntry} (hj : j ∈ s.jobs) (hf : f ∈ j.files) :
    (f.segments.map (·.number)).Nodup :=
  h.numbers _ (mem_map_of_mem hj) (f.id, f.segments.map (·.number))
    (mem_map_of_mem (f := fun f : FileEntry => (f.id, f.segments.map (·.number))) hf)

theorem job_of_mem {j : Job} (hj : j ∈ s.jobs) : s.job j.id = some j := find?_key_eq h.ids hj

theorem file_of_mem {j : Job} {f : FileEntry} (hj : j ∈ s.jobs) (hf : f ∈ j.files) :
    j.file f.id = some f := find?_key_eq (h.fileIds_of_mem hj) hf

theorem segment_of_mem {j : Job} {f : FileEntry} {x : Segment} (hj : j ∈ s.jobs)
    (hf : f ∈ j.files) (hx : x ∈ f.segments) : s.segment ⟨j.id, f.id, x.number⟩ = some x :=
  segment_eq_some.mpr ⟨j, f, h.job_of_mem hj, h.file_of_mem hj hf,
    find?_key_eq (h.numbers_of_mem hj hf) hx⟩

theorem job_eq_of_fileId {j k : Job} {f g : FileEntry} (hj : j ∈ s.jobs) (hk : k ∈ s.jobs)
    (hf : f ∈ j.files) (hg : g ∈ k.files) (hid : f.id = g.id) : j.id = k.id := by
  by_contra hne
  have hjk : j ≠ k := fun he => hne (he ▸ rfl)
  have : Std.Symm (Function.onFun List.Disjoint fun j : Job => j.files.map (·.id)) :=
    ⟨fun _ _ hd => hd.symm⟩
  have hdis := List.Pairwise.forall (nodup_flatMap.mp h.fileIds).2 hj hk hjk
  exact hdis (mem_map_of_mem hf) (hid ▸ mem_map_of_mem hg)

end QueueState.WellKeyed

theorem QueueState.wellKeyed_iff :
    s.WellKeyed ↔ (s.jobs.map (·.id) ++ s.pendingAdmissions).Nodup ∧
      (s.jobs.flatMap fun j => j.files.map (·.id)).Nodup ∧
      ∀ j ∈ s.jobs, ∀ f ∈ j.files, (f.segments.map (·.number)).Nodup := by
  constructor
  · intro h
    have hids := h.jobs
    rw [map_map] at hids
    exact ⟨hids, h.fileIds, fun j hj f hf => h.numbers_of_mem hj hf⟩
  · rintro ⟨hids, hfiles, hnums⟩
    refine ⟨by rw [map_map]; exact hids, ?_, ?_⟩
    · rw [flatMap_map]
      simpa [Job.keys, Function.comp_def] using hfiles
    · intro k hk p hp
      obtain ⟨j, hj, rfl⟩ := mem_map.mp hk
      obtain ⟨f, hf, rfl⟩ := mem_map.mp hp
      exact hnums j hj f hf

/-! ### The segments of a queue -/

/-- The queue has this segment under these coordinates. -/
def QueueState.Has (s : QueueState) (r : SegRef) (x : Segment) : Prop :=
  ∃ j ∈ s.jobs, ∃ f ∈ j.files, x ∈ f.segments ∧ r = ⟨j.id, f.id, x.number⟩

theorem QueueState.has_of_segment {x : Segment}
    (h : s.segment r = some x) : s.Has r x := by
  obtain ⟨j, f, hj, hf, hx⟩ := segment_eq_some.mp h
  have hjid : j.id = r.job := by simpa using find?_some hj
  have hfid : f.id = r.file := by simpa using find?_some hf
  have hxn : x.number = r.segNumber := by simpa using find?_some hx
  exact ⟨j, mem_of_find?_eq_some hj, f, mem_of_find?_eq_some hf,
    mem_of_find?_eq_some hx, by rw [hjid, hfid, hxn]⟩

theorem QueueState.WellKeyed.has_iff (h : s.WellKeyed) {x : Segment} :
    s.Has r x ↔ s.segment r = some x := by
  refine ⟨?_, QueueState.has_of_segment⟩
  rintro ⟨j, hj, f, hf, hx, rfl⟩
  exact h.segment_of_mem hj hf hx

theorem JobsBy.has_right {s t : QueueState} (h : JobsBy R s.jobs t.jobs) {y : Segment}
    (hy : t.Has r y) : ∃ x, s.Has r x ∧ R x.state y.state := by
  obtain ⟨k, hk, g, hg, hyg, rfl⟩ := hy
  obtain ⟨j, hj, hjk⟩ := exists_of_mem_forall₂ h hk
  obtain ⟨f, hf, hfg⟩ := exists_of_mem_forall₂ hjk.files hg
  obtain ⟨x, hx, hxy⟩ := exists_of_mem_forall₂ hfg.segments hyg
  exact ⟨x, ⟨j, hj, f, hf, hx, by rw [hjk.id, hfg.id, hxy.number]⟩, hxy.state⟩

end Nzbd
