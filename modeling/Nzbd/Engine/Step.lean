import Mathlib.Data.List.Flatten
import Nzbd.Engine.Cascade

/-!
# What a message does to the rows

A message leaves every segment alone or takes it on, adds new ones, or removes
some.  `Rows R N s t` says what the segments of `t` are: each comes from a segment
of `s` by `R`, or it is new and `N` holds of it; and the keys of `t` are distinct.

`step_calm` goes through all messages but the request for work: no segment is
leased, and done segments stay as they are.  It asks that the ids a message brings
into the queue are not in use there, `Msg.Fresh`.  Counters of 32 bits give no more
than that.
-/

namespace Nzbd

open List QueueState
open Nzbd.State (JournalRecord)

def Calm (a b : SegmentState) : Prop := b = a ∨ (a.isDone = false ∧ b.isLeased = false)

theorem chains_calm : Chains Calm where
  refl := fun _ => .inl rfl
  trans := by
    rintro a b c (rfl | ⟨ha, hb⟩) h
    · exact h
    · rcases h with rfl | ⟨-, hc⟩
      · exact .inr ⟨ha, hb⟩
      · exact .inr ⟨ha, hc⟩

theorem Fades.calm {a b : SegmentState} (h : Fades a b) : Calm a b := by
  rcases h with rfl | ⟨ha, -, hb⟩
  · exact .inl rfl
  · refine .inr ⟨?_, hb⟩
    cases a with
    | done offset len crc => simp [SegmentState.isTerminal] at ha
    | _ => rfl

/-- Done stays as it is, and nothing is done. -/
def Still (a b : SegmentState) : Prop := b = a ∨ (a.isDone = false ∧ b.isDone = false)

theorem chains_still : Chains Still where
  refl := fun _ => .inl rfl
  trans := by
    rintro a b c (rfl | ⟨ha, hb⟩) h
    · exact h
    · rcases h with rfl | ⟨-, hc⟩
      · exact .inr ⟨ha, hb⟩
      · exact .inr ⟨ha, hc⟩

theorem Fades.still {a b : SegmentState} (h : Fades a b) : Still a b := by
  rcases h with rfl | ⟨ha, hb, -⟩
  · exact .inl rfl
  · refine .inr ⟨?_, hb⟩
    cases a with
    | done offset len crc => simp [SegmentState.isTerminal] at ha
    | _ => rfl

/-- Failed and done stay as they are. -/
def Lasts (a b : SegmentState) : Prop := a.isTerminal = true → b = a

theorem chains_lasts : Chains Lasts where
  refl := fun _ _ => rfl
  trans := by
    intro a b c hab hbc ha
    obtain rfl := hab ha
    exact hbc ha

theorem Fades.lasts {a b : SegmentState} (h : Fades a b) : Lasts a b := by
  rcases h with rfl | ⟨ha, -⟩
  · exact fun _ => rfl
  · intro ht
    rw [ha] at ht
    cases ht

/-- Not out with a connection. -/
def Idle (a : SegmentState) : Prop := a.isLeased = false

structure Rows (R : SegmentState → SegmentState → Prop) (N : SegmentState → Prop)
    (s t : QueueState) : Prop where
  keyed : t.WellKeyed
  source : ∀ r y, t.Has r y → (∃ x, s.Has r x ∧ R x.state y.state) ∨ N y.state

variable {R S : SegmentState → SegmentState → Prop} {N : SegmentState → Prop} {s t u : QueueState}

theorem StateBy.rows (h : StateBy R s t) (hk : s.WellKeyed) : Rows R N s t :=
  ⟨h.wellKeyed hk, fun _ _ hy => .inl (h.jobs.has_right hy)⟩

theorem Rows.mono {N' : SegmentState → Prop} (hRS : ∀ a b, R a b → S a b) (hN : ∀ a, N a → N' a)
    (h : Rows R N s t) : Rows S N' s t := by
  refine ⟨h.keyed, fun r y hy => ?_⟩
  rcases h.source r y hy with ⟨x, hx, hxy⟩ | hn
  · exact .inl ⟨x, hx, hRS _ _ hxy⟩
  · exact .inr (hN _ hn)

theorem Rows.by (h : Rows R N s t) (htu : StateBy S t u) (hRS : ∀ a b c, R a b → S b c → R a c)
    (hN : ∀ a b, N a → S a b → N b) : Rows R N s u := by
  refine ⟨htu.wellKeyed h.keyed, fun r z hz => ?_⟩
  obtain ⟨y, hy, hyz⟩ := htu.jobs.has_right hz
  rcases h.source r y hy with ⟨x, hx, hxy⟩ | hn
  · exact .inl ⟨x, hx, hRS _ _ _ hxy hyz⟩
  · exact .inr (hN _ _ hn hyz)

theorem Rows.edit (h : Rows R N s t) (htu : StateBy (· = ·) t u) : Rows R N s u :=
  h.by htu (fun _ _ _ hab hbc => hbc ▸ hab) fun _ _ ha hab => hab ▸ ha

theorem editable_rows : Editable (Rows R N s) := fun _ _ => Rows.edit

theorem Rows.widen (h : Rows R N u t) (hsub : u.jobs ⊆ s.jobs) : Rows R N s t := by
  refine ⟨h.keyed, fun r y hy => ?_⟩
  rcases h.source r y hy with ⟨x, ⟨j, hj, f, hf, hx, rfl⟩, hxy⟩ | hn
  · exact .inl ⟨x, ⟨j, hsub hj, f, hf, hx, rfl⟩, hxy⟩
  · exact .inr hn

theorem Rows.of_subset (hR : ∀ a, R a a) (hk : t.WellKeyed) (h : ∀ r y, t.Has r y → s.Has r y) :
    Rows R N s t := ⟨hk, fun r y hy => .inl ⟨y, h r y hy, hR _⟩⟩

/-! ### New jobs -/

/-- A job whose ids are not in use. -/
structure Job.Fits (s : QueueState) (j : Job) : Prop where
  id : j.id ∉ s.jobs.map (·.id) ++ s.pendingAdmissions
  nodup : (j.files.map (·.id)).Nodup
  fresh : ∀ f ∈ j.files, f.id ∉ s.jobs.flatMap fun k => k.files.map (·.id)
  numbers : ∀ f ∈ j.files, (f.segments.map (·.number)).Nodup

theorem Job.Fits.of_no_files {j : Job} (hid : j.id ∉ s.jobs.map (·.id) ++ s.pendingAdmissions)
    (hfiles : j.files = []) : j.Fits s where
  id := hid
  nodup := by rw [hfiles]; exact nodup_nil
  fresh := by rw [hfiles]; simp
  numbers := by rw [hfiles]; simp

theorem QueueState.WellKeyed.append (h : s.WellKeyed) {j : Job} (hj : j.Fits s)
    (ht : t.jobs = s.jobs ++ [j]) (hp : t.pendingAdmissions = s.pendingAdmissions) :
    t.WellKeyed := by
  obtain ⟨hids, hfiles, hnums⟩ := wellKeyed_iff.mp h
  refine wellKeyed_iff.mpr ⟨?_, ?_, ?_⟩
  · rw [ht, hp, map_append, append_assoc]
    exact nodup_middle.mpr (nodup_cons.mpr ⟨hj.id, hids⟩)
  · rw [ht, flatMap_append, flatMap_singleton]
    refine nodup_append.mpr ⟨hfiles, hj.nodup, ?_⟩
    intro a ha b hb hab
    obtain ⟨f, hf, rfl⟩ := mem_map.mp hb
    exact hj.fresh f hf (hab ▸ ha)
  · intro k hk f hf
    rw [ht] at hk
    rcases mem_append.mp hk with hk | hk
    · exact hnums k hk f hf
    · rw [mem_singleton.mp hk] at hf
      exact hj.numbers f hf

theorem QueueState.has_append {j : Job} (ht : t.jobs = s.jobs ++ [j]) {r : SegRef} {y : Segment}
    (hy : t.Has r y) : s.Has r y ∨ ∃ f ∈ j.files, y ∈ f.segments := by
  obtain ⟨k, hk, f, hf, hyf, rfl⟩ := hy
  rw [ht] at hk
  rcases mem_append.mp hk with hk | hk
  · exact .inl ⟨k, hk, f, hf, hyf, rfl⟩
  · rw [mem_singleton.mp hk] at hf
    exact .inr ⟨f, hf, hyf⟩

theorem Rows.append (hR : ∀ a, R a a) (hk : s.WellKeyed) {j : Job} (hj : j.Fits s)
    (hN : ∀ f ∈ j.files, ∀ x ∈ f.segments, N x.state) (ht : t.jobs = s.jobs ++ [j])
    (hp : t.pendingAdmissions = s.pendingAdmissions) : Rows R N s t := by
  refine ⟨hk.append hj ht hp, fun r y hy => ?_⟩
  rcases has_append ht hy with h | ⟨f, hf, hy⟩
  · exact .inl ⟨y, h, hR _⟩
  · exact .inr (hN f hf y hy)

/-! ### Fewer rows -/

theorem QueueState.WellKeyed.sublist (h : s.WellKeyed) (hj : t.jobs.Sublist s.jobs)
    (hp : t.pendingAdmissions.Sublist s.pendingAdmissions) : t.WellKeyed := by
  obtain ⟨hids, hfiles, hnums⟩ := wellKeyed_iff.mp h
  refine wellKeyed_iff.mpr ⟨?_, ?_, ?_⟩
  · exact hids.sublist ((hj.map _).append hp)
  · exact hfiles.sublist (hj.flatMap _)
  · exact fun j hmem => hnums j (hj.subset hmem)

theorem QueueState.Has.of_subset (hj : t.jobs ⊆ s.jobs) {r : SegRef} {y : Segment}
    (h : t.Has r y) : s.Has r y := by
  obtain ⟨j, hmem, f, hf, hy, rfl⟩ := h
  exact ⟨j, hj hmem, f, hf, hy, rfl⟩

theorem Rows.sublist (hR : ∀ a, R a a) (hk : s.WellKeyed) (hj : t.jobs.Sublist s.jobs)
    (hp : t.pendingAdmissions.Sublist s.pendingAdmissions) : Rows R N s t :=
  .of_subset hR (hk.sublist hj hp) fun _ _ => QueueState.Has.of_subset hj.subset

theorem Rows.shrink (h : Rows R N s t) (hj : u.jobs.Sublist t.jobs)
    (hp : u.pendingAdmissions.Sublist t.pendingAdmissions) : Rows R N s u :=
  ⟨h.keyed.sublist hj hp, fun r y hy => h.source r y (hy.of_subset hj.subset)⟩

theorem QueueState.WellKeyed.perm (h : s.WellKeyed) (hj : t.jobs.Perm s.jobs)
    (hp : t.pendingAdmissions = s.pendingAdmissions) : t.WellKeyed := by
  obtain ⟨hids, hfiles, hnums⟩ := wellKeyed_iff.mp h
  refine wellKeyed_iff.mpr ⟨?_, ?_, ?_⟩
  · rw [hp]
    exact (((hj.map _).append_right _).nodup_iff).mpr hids
  · exact ((hj.flatMap_right _).nodup_iff).mpr hfiles
  · exact fun j hmem => hnums j (hj.subset hmem)

theorem QueueState.WellKeyed.thin (h : s.WellKeyed) (id : JobId) {f : Job → Job}
    (hid : ∀ j, (f j).id = j.id) (hfiles : ∀ j, (f j).files.Sublist j.files) :
    (s.updateJob id f).WellKeyed := by
  cases hj : s.job id with
  | none =>
    have : s.updateJob id f = s := by
      rw [updateJob, modifyFirst_of_find?_eq_none hj]
    rwa [this]
  | some j =>
    obtain ⟨hids, hfs, hnums⟩ := wellKeyed_iff.mp h
    obtain ⟨pre, post, hs, hf, -, -⟩ := modifyFirst_split (f := f) hj
    refine wellKeyed_iff.mpr ⟨?_, hfs.sublist ?_, fun k hk g hg => ?_⟩
    · show ((s.jobs.modifyFirst _ f).map _ ++ _).Nodup
      rwa [map_modifyFirst fun a _ => hid a]
    · show (flatMap _ (s.jobs.modifyFirst _ f)).Sublist _
      rw [hf, hs, flatMap_append, flatMap_append, flatMap_cons, flatMap_cons]
      exact .append (.refl _) (.append ((hfiles j).map _) (.refl _))
    · rcases mem_modifyFirst hk with hk | ⟨k', hk', rfl⟩
      · exact hnums k hk g hg
      · exact hnums k' (mem_of_find?_eq_some hk') g ((hfiles k').subset hg)

theorem QueueState.WellKeyed.replace (h : s.WellKeyed) {id : JobId} {j : Job} {f : Job → Job}
    (hj : s.job id = some j) (hid : (f j).id = j.id) (hnodup : ((f j).files.map (·.id)).Nodup)
    (hfresh : ∀ g ∈ (f j).files, g.id ∉ s.jobs.flatMap fun k => k.files.map (·.id))
    (hnums : ∀ g ∈ (f j).files, (g.segments.map (·.number)).Nodup) :
    (s.updateJob id f).WellKeyed := by
  obtain ⟨pre, post, hs, hf, -, -⟩ := modifyFirst_split (f := f) hj
  have hids := (wellKeyed_iff.mp h).1
  rw [hs, map_append, map_cons, append_assoc, cons_append,
    nodup_middle, nodup_cons] at hids
  -- the queue without the job
  have hrest : QueueState.WellKeyed { s with jobs := pre ++ post } := by
    refine h.sublist ?_ (List.Sublist.refl _)
    rw [hs]
    exact List.Sublist.append (List.Sublist.refl _) (sublist_cons_self _ _)
  have hfits : (f j).Fits { s with jobs := pre ++ post } := by
    refine ⟨?_, hnodup, fun g hg hmem => hfresh g hg ?_, hnums⟩
    · rw [hid, map_append, append_assoc]
      exact hids.1
    · rw [hs]
      simp only [flatMap_append, flatMap_cons, mem_append] at hmem ⊢
      tauto
  refine QueueState.WellKeyed.perm (s := { s with jobs := (pre ++ post) ++ [f j] })
    (hrest.append hfits rfl rfl) ?_ rfl
  show (s.jobs.modifyFirst _ f).Perm _
  rw [hf]
  exact perm_middle.trans (perm_append_singleton _ _).symm

/-! ### The files of an NZB -/

/-- A file nothing of which has been asked for. -/
structure FileEntry.Untried (f : FileEntry) : Prop where
  pending : ∀ x ∈ f.segments, x.state = .pending
  numbers : (f.segments.map (·.number)).Nodup
  finalized : f.finalized = false

theorem buildFiles_untried (lower : Text → Text) (pauseExtraPars : Bool) (pfs : List ParsedFile) :
    ∀ (next : Nat) (seen : SeenNames), ∀ f ∈ (buildFiles lower pauseExtraPars next seen pfs).1,
      f.Untried := by
  induction pfs with
  | nil => intro next seen f hf; simp [buildFiles] at hf
  | cons pf pfs ih =>
    intro next seen f hf
    rcases mem_cons.mp hf with rfl | hf
    · refine ⟨fun x hx => ?_, ?_, rfl⟩
      · obtain ⟨y, -, rfl⟩ := mem_map.mp hx
        rfl
      · have hnums : (pf.segments.map (·.number)).Nodup :=
          pf.sorted.imp fun hlt => Nat.ne_of_lt hlt
        simp only [buildFile, map_map]
        exact hnums
    · exact ih _ _ f hf

namespace Engine

def newFileIds (lower : Text → Text) (o : Owner) (parsed : ParsedNzb) : List FileId :=
  (buildFiles lower o.tuning.pauseExtraPars o.state.nextFileId [] parsed.files).1.map (·.id)

def FreshJob (s : QueueState) (id : JobId) : Prop := id ∉ s.jobs.map (·.id) ++ s.pendingAdmissions

/-- No file has one of these ids. -/
def FreshFiles (s : QueueState) (ids : List FileId) : Prop :=
  ids.Nodup ∧ ∀ i ∈ ids, i ∉ s.jobs.flatMap fun k => k.files.map (·.id)

/-- What a message brings into the queue has ids that are not in use, and is out
with nobody. -/
def Msg.Fresh (lower : Text → Text) (w : World) (o : Owner) : Msg → Prop
  | .addParsed _ parsed .. =>
    FreshJob o.state (succU32 o.state.nextJobId) ∧ FreshFiles o.state (newFileIds lower o parsed)
  | .addUrl _ url .. =>
    o.state.jobs.find? (Owner.isFetching url) = none → FreshJob o.state (succU32 o.state.nextJobId)
  | .completeUrlFetch _ parsed => FreshFiles o.state (newFileIds lower o parsed)
  | .reserveTorrentAdmission => FreshJob o.state (succU32 o.state.nextJobId)
  | .importJob job _ => job.Fits (o.state.eraseJob job.id)
  | .importJobIfPresent job => job.Fits (o.state.eraseJob job.id)
  | .adoptAuthority (some (some doc)) _ => (o.adoptSnapshot (.fromDoc w.nowUnix doc)).state.WellKeyed
  | .adoptReplicatedAuthority jobs =>
    WellKeyed (jobs.map Job.keys) [] ∧
      ∀ j ∈ jobs, ∀ f ∈ j.files, ∀ x ∈ f.segments, Idle x.state
  | _ => True

namespace Owner

variable {w : World} {lower : Text → Text} {P : QueueState → Prop} {l : List DiskWrite} {o : Owner}

/-! ### Admission -/

theorem nameFromRequestor_by (s : QueueState) (id : JobId) (storageToo : Bool) :
    StateBy (· = ·) s (s.nameFromRequestor id storageToo) := by
  unfold nameFromRequestor
  split
  · exact .refl chains_eq s
  · split
    · exact .refl chains_eq s
    · split
      · exact .refl chains_eq s
      · refine ⟨.editJob chains_eq.refl _ _ (fun j => renamed_id ..) fun j => ?_, rfl⟩
        unfold renamed
        simp only
        split
        · exact renameJob_files ..
        · exact renameJob_files ..

theorem edit_by (s : QueueState) (id : JobId) {f : Job → Job} (hid : ∀ j, (f j).id = j.id)
    (hfiles : ∀ j, (f j).files = j.files) : StateBy (· = ·) s (s.updateJob id f) :=
  ⟨.editJob chains_eq.refl _ _ hid hfiles, rfl⟩

theorem admitNzb_rows (hk : o.state.WellKeyed) (name : Text) (parsed : ParsedNzb)
    (category : Option Text) (priority : Int)
    (hjob : FreshJob o.state (succU32 o.state.nextJobId))
    (hfiles : FreshFiles o.state (newFileIds lower o parsed)) :
    Rows (· = ·) (· = .pending) o.state (o.state.admitNzb lower w.nowUnix name parsed category
      priority o.tuning.pauseExtraPars) := by
  have huntried := buildFiles_untried lower o.tuning.pauseExtraPars parsed.files
    o.state.nextFileId []
  refine .append (fun _ => rfl) hk ?_ ?_ rfl rfl
  · refine ⟨hjob, hfiles.1, fun f hf => ?_, fun f hf => (huntried f hf).numbers⟩
    exact hfiles.2 _ (mem_map_of_mem hf)
  · exact fun f hf x hx => (huntried f hf).pending x hx

theorem avoidDir_edit (id : JobId) (j : Job) :
    (avoidDir w id j).id = j.id ∧ (avoidDir w id j).files = j.files := by
  unfold avoidDir
  split
  · exact ⟨rfl, rfl⟩
  · exact ⟨rfl, rfl⟩

theorem addParsed_rows (hk : o.state.WellKeyed) (name : Text) (parsed : ParsedNzb)
    (category : Option Text) (priority : Int) (paused : Bool) (params : List (Text × Text))
    (hjob : FreshJob o.state (succU32 o.state.nextJobId))
    (hfiles : FreshFiles o.state (newFileIds lower o parsed)) :
    Holds (Rows (· = ·) (· = .pending) o.state) o.log
      (o.addParsed w lower name parsed category priority paused params) := by
  have hplaced := admitNzb_rows (w := w) hk name parsed category priority hjob hfiles
  simp only [addParsed]
  generalize o.state.admitNzb lower w.nowUnix name parsed category priority
    o.tuning.pauseExtraPars = s at hplaced ⊢
  have hnew := ((hplaced.edit (edit_by s s.nextJobId (f := dressJob paused params) (fun _ => rfl)
    fun _ => rfl)).edit (nameFromRequestor_by _ s.nextJobId true)).edit
    (edit_by _ s.nextJobId (f := avoidDir w s.nextJobId) (fun j => (avoidDir_edit _ j).1)
      fun j => (avoidDir_edit _ j).2)
  split
  · refine ⟨hnew.shrink filter_sublist (List.Sublist.refl _), fun _ he => .inl he⟩
  next o' ho' =>
    obtain ⟨jobs, rfl⟩ := ensureAllocation_eq ho'
    exact Holds.saveSnapshot ⟨hnew, fun _ he => .inl he⟩

theorem addUrl_rows (hk : o.state.WellKeyed) (name url : Text) (category : Option Text)
    (priority : Int) (paused : Bool) (params : List (Text × Text))
    (hjob : o.state.jobs.find? (isFetching url) = none →
      FreshJob o.state (succU32 o.state.nextJobId)) :
    Holds (Rows (· = ·) (· = .pending) o.state) o.log
      (o.addUrl w name url category priority paused params) := by
  have hself : Rows (· = ·) (· = .pending) o.state o.state := (StateBy.refl chains_eq _).rows hk
  unfold addUrl
  split
  · split
    · exact .start hself
    next j _ _ =>
      refine Holds.saveSnapshot ⟨hself.edit ?_, fun _ he => .inl he⟩
      exact edit_by _ j.id (fun _ => rfl) fun _ => rfl
  next hnone =>
    have hplaced : Rows (· = ·) (· = .pending) o.state
        (o.state.admitUrl w.nowUnix name url category priority) := by
      refine .append (fun _ => rfl) hk ?_ ?_ rfl rfl
      · exact .of_no_files (hjob hnone) rfl
      · intro f hf; nomatch hf
    simp only
    refine Holds.saveSnapshot ⟨?_, fun _ he => .inl he⟩
    refine Rows.edit (hplaced.edit ?_) (nameFromRequestor_by ..)
    exact edit_by _ _ (fun _ => rfl) fun _ => rfl

theorem completeUrlFetch_state_rows (lower : Text → Text) (hk : o.state.WellKeyed) (id : JobId)
    (parsed : ParsedNzb)
    (hfiles : FreshFiles o.state (newFileIds lower o parsed)) :
    Rows (· = ·) (· = .pending) o.state
      (o.state.completeUrlFetch lower id parsed o.tuning.pauseExtraPars) := by
  have huntried := buildFiles_untried lower o.tuning.pauseExtraPars parsed.files
    o.state.nextFileId []
  have hself : ∀ n, Rows (· = ·) (· = .pending) o.state { o.state with nextFileId := n } :=
    fun n => StateBy.rows (t := { o.state with nextFileId := n }) ⟨.refl chains_eq.refl _, rfl⟩ hk
  simp only [QueueState.completeUrlFetch]
  split
  · exact hself _
  next j hj =>
    split
    · exact hself _
    · refine ⟨?_, fun r y hy => ?_⟩
      · refine QueueState.WellKeyed.replace (hself _).keyed hj (fillFetched_id ..) hfiles.1
          (fun f hf => ?_) fun f hf => (huntried f hf).numbers
        exact hfiles.2 _ (mem_map_of_mem hf)
      · obtain ⟨k, hkm, f, hf, hyf, rfl⟩ := hy
        rcases mem_modifyFirst hkm with hkm | ⟨j', -, rfl⟩
        · exact .inl ⟨y, ⟨k, hkm, f, hf, hyf, rfl⟩, rfl⟩
        · exact .inr ((huntried f hf).pending y hyf)

theorem completeUrlFetch_rows (hk : o.state.WellKeyed) (id : JobId) (parsed : ParsedNzb)
    (hfiles : FreshFiles o.state (newFileIds lower o parsed)) :
    Holds (Rows (· = ·) (· = .pending) o.state) o.log (o.completeUrlFetch w lower id parsed) := by
  have hstate := completeUrlFetch_state_rows lower hk id parsed hfiles
  simp only [completeUrlFetch]
  split
  · refine Holds.saveSnapshot ⟨?_, fun _ he => .inl he⟩
    refine (hstate.edit (edit_by _ id (f := pauseFetched) (fun j => ?_) fun j => ?_)).edit
      (nameFromRequestor_by ..)
    · unfold pauseFetched; split <;> rfl
    · unfold pauseFetched; split <;> rfl
  · exact ⟨hstate, fun _ he => .inl he⟩

theorem reserveTorrentAdmission_rows (hk : o.state.WellKeyed)
    (hjob : FreshJob o.state (succU32 o.state.nextJobId)) :
    Rows (· = ·) (· = .pending) o.state o.state.reserveTorrentAdmission := by
  obtain ⟨hids, hfiles, hnums⟩ := wellKeyed_iff.mp hk
  refine ⟨wellKeyed_iff.mpr ⟨?_, hfiles, hnums⟩, fun r y hy => .inl ⟨y, hy, rfl⟩⟩
  show (_ ++ (o.state.pendingAdmissions ++ [_])).Nodup
  rw [← append_assoc]
  refine nodup_append.mpr ⟨hids, nodup_singleton _, fun a ha b hb => ?_⟩
  rw [mem_singleton.mp hb]
  rintro rfl
  exact hjob ha

theorem cancel_sublist (s : QueueState) (id : JobId) :
    (s.cancelTorrentAdmission id).pendingAdmissions.Sublist s.pendingAdmissions := filter_sublist

theorem commitTorrentAdmission_state_rows (hk : o.state.WellKeyed) (id : JobId)
    (commit : TorrentAdmissionCommit) :
    Rows (· = ·) (· = .pending) o.state (o.state.commitTorrentAdmission w.nowUnix id commit) := by
  have hcancel : Rows (· = ·) (· = .pending) o.state (o.state.cancelTorrentAdmission id) :=
    .sublist (fun _ => rfl) hk (List.Sublist.refl _) (cancel_sublist ..)
  unfold QueueState.commitTorrentAdmission
  split
  · exact (StateBy.refl chains_eq _).rows hk
  next hmem =>
    split
    · refine hcancel.edit ⟨?_, rfl⟩
      exact forall₂_self_modifyFirst (JobBy.refl chains_eq.refl) fun j _ =>
        .of_files_eq chains_eq.refl rfl rfl
    · refine Rows.widen (u := o.state.cancelTorrentAdmission id)
        (.append (fun _ => rfl) hcancel.keyed ?_ ?_ rfl rfl) (List.Subset.refl _)
      · refine .of_no_files ?_ rfl
        have hdis := (nodup_append.mp (wellKeyed_iff.mp hk).1).2.2
        intro hid
        rcases mem_append.mp hid with hid | hid
        · exact hdis _ hid _ (not_not.mp hmem) rfl
        · simpa [newJob] using (mem_filter.mp hid).2
      · intro f hf; cases hf

theorem commitTorrentAdmission_rows (hk : o.state.WellKeyed) (id : JobId)
    (commit : TorrentAdmissionCommit) :
    Holds (Rows (· = ·) (· = .pending) o.state) o.log (o.commitTorrentAdmission w id commit) := by
  have hstate := commitTorrentAdmission_state_rows (w := w) hk id commit
  simp only [commitTorrentAdmission]
  split
  · exact Holds.saveSnapshot ⟨hstate, fun _ he => .inl he⟩
  · exact ⟨hstate, fun _ he => .inl he⟩

theorem cancelTorrentAdmission_rows (hk : o.state.WellKeyed) (id : JobId) :
    Holds (Rows (· = ·) (· = .pending) o.state) o.log (o.cancelTorrentAdmission w id) := by
  have hself : Rows (· = ·) (· = .pending) o.state o.state := (StateBy.refl chains_eq _).rows hk
  have hcancel : Holds (Rows (· = ·) (· = .pending) o.state) o.log
      { o with state := o.state.cancelTorrentAdmission id } :=
    ⟨.sublist (fun _ => rfl) hk (List.Sublist.refl _) (cancel_sublist ..), fun _ he => .inl he⟩
  unfold cancelTorrentAdmission
  split
  · simp only
    split
    · exact hcancel.saveSnapshotResult
    · exact ⟨hself, hcancel.saveSnapshotResult.log⟩
  · exact .start hself

/-! ### Removal and order -/

theorem eraseJob_rows (hk : o.state.WellKeyed) (job : Job) :
    Rows (· = ·) (· = .pending) o.state (o.eraseJob job).state :=
  .sublist (fun _ => rfl) hk eraseP_sublist (List.Sublist.refl _)

theorem removeJobSilent_rows (hk : o.state.WellKeyed) (id : JobId) :
    Holds (Rows (· = ·) (· = .pending) o.state) o.log (o.removeJobSilent id) := by
  unfold removeJobSilent
  split
  · exact .start ((StateBy.refl chains_eq _).rows hk)
  next job _ => exact ⟨eraseJob_rows hk job, fun _ he => .inl he⟩

theorem deleteJob_rows (hk : o.state.WellKeyed) (id : JobId) (deleteFiles : Bool) :
    Holds (Rows (· = ·) (· = .pending) o.state) (.removeJournal id :: o.log)
      (o.deleteJob w id deleteFiles) := by
  have hself : Rows (· = ·) (· = .pending) o.state o.state := (StateBy.refl chains_eq _).rows hk
  have hstart : Holds (Rows (· = ·) (· = .pending) o.state) (.removeJournal id :: o.log) o :=
    ⟨hself, fun _ he => .inl (mem_cons_of_mem _ he)⟩
  unfold deleteJob
  split
  · exact hstart
  · split
    · exact hstart
    next job _ =>
      split
      · refine Holds.saveSnapshot ⟨eraseJob_rows hk job, fun e he => .inl ?_⟩
        simp only at he
        split at he
        · rcases mem_append.mp he with he | he
          · exact mem_cons_of_mem _ he
          · rw [mem_singleton.mp he]
            exact mem_cons_self
        · exact mem_cons_of_mem _ he
      · exact hstart

theorem delete_rows (hk : o.state.WellKeyed) (id : JobId) (deleteFiles : Bool) :
    Holds (Rows (· = ·) (· = .pending) o.state) (.removeJournal id :: o.log)
      (o.delete w id deleteFiles) := by
  have hself : Holds (StateBy (· = ·) o.state) o.log o := .start (.refl chains_eq _)
  have hweak : ∀ {o' : Owner}, Holds (StateBy (· = ·) o.state) o.log o' →
      Holds (Rows (· = ·) (· = .pending) o.state) (.removeJournal id :: o.log) o' :=
    fun h => h.mono (fun t ht => ht.rows hk) (subset_cons_self _ _)
  unfold delete
  split
  · exact hweak hself
  · split
    · exact hweak (tryTorrent_by (editable_by chains_eq) hself id (fun _ => rfl) fun _ => rfl)
    · exact deleteJob_rows hk id deleteFiles

theorem torrentRemoved_rows (hk : o.state.WellKeyed) (id : JobId) :
    Holds (Rows (· = ·) (· = .pending) o.state) o.log (o.torrentRemoved w id) := by
  have hself : Rows (· = ·) (· = .pending) o.state o.state := (StateBy.refl chains_eq _).rows hk
  unfold torrentRemoved
  split
  · exact .start hself
  next job _ =>
    split
    · exact Holds.saveSnapshot ⟨eraseJob_rows hk job, fun _ he => .inl he⟩
    · exact .start hself

theorem deleteFile_rows (hk : o.state.WellKeyed) (job : JobId) (file : FileId) :
    Holds (Rows (· = ·) (· = .pending) o.state) o.log (o.deleteFile w job file) := by
  have hthin : Rows (· = ·) (· = .pending) o.state
      (o.updateJob job fun j => { j with files := j.files.filter (·.id ≠ file) }).state := by
    refine .of_subset (fun _ => rfl) (hk.thin job (fun _ => rfl) fun j => filter_sublist) ?_
    rintro r y ⟨k, hkm, f, hf, hy, rfl⟩
    rcases mem_modifyFirst hkm with hkm | ⟨k', hk', rfl⟩
    · exact ⟨k, hkm, f, hf, hy, rfl⟩
    · exact ⟨k', mem_of_find?_eq_some hk', f, (mem_filter.mp hf).1, hy, rfl⟩
  unfold deleteFile
  split
  · simp only
    refine checkJobComplete_by editable_rows ?_ job
    exact ⟨hthin.edit (edit_by _ job (f := recomputeJobTotals) (fun _ => rfl) fun _ => rfl),
      fun _ he => .inl he⟩
  · exact .start ((StateBy.refl chains_eq _).rows hk)

theorem moveTarget_le {len i : Nat} (hi : i < len) (op : MoveOp) : moveTarget len i op ≤ len - 1 := by
  cases op <;> simp only [moveTarget] <;> omega

theorem moveJob_perm (o : Owner) (id : JobId) (op : MoveOp) :
    (o.moveJob id op).state.jobs.Perm o.state.jobs := by
  unfold moveJob
  split
  next i j hi hj =>
    obtain ⟨hlt, hp, -⟩ := findIdx?_eq_some_iff_getElem.mp hi
    have hget : o.state.jobs[i] = j := by
      rw [job, find?_eq_bind_findIdx?_getElem?, hi, Option.bind_some,
        getElem?_eq_getElem hlt] at hj
      exact Option.some.inj hj
    have hle : moveTarget o.state.jobs.length i op ≤ (o.state.jobs.eraseIdx i).length := by
      rw [length_eraseIdx_of_lt hlt]
      exact moveTarget_le hlt op
    refine (perm_insertIdx _ _ hle).trans ?_
    rw [← hget]
    exact getElem_cons_eraseIdx_perm hlt
  · exact .refl _

theorem moveJob_rows (hk : o.state.WellKeyed) (id : JobId) (op : MoveOp) :
    Rows (· = ·) (· = .pending) o.state (o.moveJob id op).state := by
  have hperm := moveJob_perm o id op
  have hpending : (o.moveJob id op).state.pendingAdmissions = o.state.pendingAdmissions := by
    unfold moveJob
    split <;> rfl
  exact .of_subset (fun _ => rfl) (hk.perm hperm hpending) fun _ _ hy => hy.of_subset hperm.subset

/-! ### Written segments -/

theorem setDone_by {s t : QueueState} (h : StateBy Calm s t) (r : SegRef) {x : Segment}
    (hx : t.segment r = some x) (hd : x.state.isDone = false) (offset len : Nat) (crc : BitVec 32) :
    StateBy Calm s (t.updateSegment r fun y => { y with state := .done offset len crc }) := by
  refine h.trans chains_calm ⟨.updateSegment chains_calm.refl fun y hy => ⟨rfl, .inr ⟨?_, rfl⟩⟩, rfl⟩
  obtain rfl : x = y := Option.some.inj (hx.symm.trans hy)
  exact hd

theorem onSegmentWritten_holds (hP : Editable P) (r : JournalRecord) (h : P o.state)
    (hset : ∀ x, o.state.segment r.segRef = some x → x.state.isDone = false →
      P (o.state.updateSegment r.segRef fun y => { y with state := .done r.offset r.len r.crc32 })) :
    Holds P (.append r :: o.log) (o.onSegmentWritten w r) := by
  have hlog : ∀ e ∈ o.log, e ∈ DiskWrite.append r :: o.log ∨
      ∃ t keep, e = .save t.toDoc keep ∧ P t := fun _ he => .inl (mem_cons_of_mem _ he)
  simp only [onSegmentWritten]
  split
  · exact ⟨h, hlog⟩
  next x hx =>
    split
    · exact ⟨h, hlog⟩
    next hd =>
      refine afterFileChange_by hP (recomputeTotals_by hP ?_ r.job) r.job r.file
      unfold journal
      split
      · refine ⟨hset x hx (by simpa using hd), fun e he => ?_⟩
        rcases mem_append.mp he with he | he
        · exact hlog e he
        · exact .inl (mem_singleton.mp he ▸ mem_cons_self)
      · exact ⟨hset x hx (by simpa using hd), hlog⟩

/-- Kept by what leaves done segments alone and leases nothing. -/
def CalmClosed (P : QueueState → Prop) : Prop := ∀ s t, P s → StateBy Calm s t → P t

theorem CalmClosed.editable (hP : CalmClosed P) : Editable P := by
  intro s t h hst
  refine hP s t h (hst.mono ?_)
  rintro a _ rfl
  exact chains_calm.refl a

theorem calmClosed_rows {s : QueueState} : CalmClosed (Rows Calm Idle s) := by
  intro t u h htu
  refine h.by htu chains_calm.trans fun a b ha hab => ?_
  rcases hab with rfl | ⟨-, hb⟩
  · exact ha
  · exact hb

theorem foldRecord_holds (hP : CalmClosed P) {p : Owner × List FileId} (h : Holds P l p.1)
    (r : JournalRecord) : Holds P l (foldRecord p r).1 := by
  simp only [foldRecord]
  split
  · exact ⟨h.state, h.log⟩
  next x hx =>
    split
    · exact ⟨h.state, h.log⟩
    next hd =>
      have hdone := setDone_by (.refl chains_calm p.1.state) r.segRef hx (by simpa using hd)
        r.offset r.len r.crc32
      exact ⟨hP _ _ h.state hdone, h.log⟩

theorem foldJobJournals_holds (hP : CalmClosed P) (h : Holds P l o) (id : JobId)
    (records : List JournalRecord) : Holds P l (o.foldJobJournals w id records) := by
  have hfold : Holds P l ((records.filter (·.job = id)).foldl foldRecord (o, [])).1 :=
    foldlRecOn (motive := fun p : Owner × List FileId => Holds P l p.1) _ _ h
      fun p hp r _ => foldRecord_holds hP hp r
  simp only [foldJobJournals]
  split
  · exact hfold
  · refine foldlRecOn (motive := Holds P l) _ _ (recomputeTotals_by hP.editable hfold id) ?_
    exact fun o ho f _ => afterFileChange_by hP.editable ho id f

/-! ### The cluster -/

theorem removeJobSilent_state (o : Owner) (id : JobId) :
    (o.removeJobSilent id).state = o.state.eraseJob id := by
  unfold removeJobSilent
  split
  next hnone =>
    have : o.state.jobs.eraseP (·.id = id) = o.state.jobs :=
      eraseP_of_forall_not fun j hj => by simpa using find?_eq_none.mp hnone j hj
    rw [QueueState.eraseJob, this]
  next job hjob => rw [eraseJob, job_find hjob]; rfl

theorem removeJobSilent_log (o : Owner) (id : JobId) : (o.removeJobSilent id).log = o.log := by
  unfold removeJobSilent
  split <;> rfl

theorem normalizeJob_fits {s : QueueState} {j : Job} (h : j.Fits s) :
    (recomputeJobTotals (normalizeJob j)).Fits s := by
  have hids : (normalizeJob j).files.map (·.id) = j.files.map (·.id) := by
    rw [normalizeJob, map_map]
    rfl
  refine ⟨h.id, ?_, fun f hf => ?_, fun f hf => ?_⟩
  · exact hids ▸ h.nodup
  · obtain ⟨g, hg, rfl⟩ := mem_map.mp hf
    exact h.fresh g hg
  · obtain ⟨g, hg, rfl⟩ := mem_map.mp hf
    rw [FileEntry.releaseLeases, map_map]
    have hnum : (fun x : Segment => x.number) ∘ Segment.releaseLease = fun x => x.number :=
      funext releaseLease_number
    rw [hnum]
    exact h.numbers g hg

theorem normalizeJob_idle {j : Job} {f : FileEntry} (hf : f ∈ (normalizeJob j).files) {x : Segment}
    (hx : x ∈ f.segments) : Idle x.state := by
  obtain ⟨g, -, rfl⟩ := mem_map.mp hf
  obtain ⟨y, -, rfl⟩ := mem_map.mp hx
  rcases releaseLease_restores y with ⟨hy, hl⟩ | ⟨-, hy⟩
  · exact hy ▸ hl
  · rw [hy]
    rfl

theorem placeJob_state (o : Owner) (job : Job) : (o.placeJob job).state =
    { (raiseIds o.state job).eraseJob job.id with
      jobs := (o.state.eraseJob job.id).jobs ++ [recomputeJobTotals job] } := by
  rw [placeJob, removeJobSilent_state]
  rfl

theorem placeJob_log (o : Owner) (job : Job) : (o.placeJob job).log = o.log := removeJobSilent_log ..

theorem placeJob_rows (hk : o.state.WellKeyed) {job : Job}
    (hfits : job.Fits (o.state.eraseJob job.id)) :
    Holds (Rows Calm Idle o.state) o.log (o.placeJob (normalizeJob job)) := by
  have herase : (o.state.eraseJob job.id).WellKeyed :=
    hk.sublist eraseP_sublist (List.Sublist.refl _)
  refine ⟨?_, fun e he => .inl (placeJob_log o _ ▸ he)⟩
  rw [placeJob_state]
  refine Rows.widen (u := o.state.eraseJob job.id) ?_ eraseP_sublist.subset
  refine .append chains_calm.refl herase (normalizeJob_fits hfits) ?_ rfl rfl
  exact fun f hf x hx => normalizeJob_idle hf hx

@[simp] theorem forgetAllocation_state (o : Owner) (job : Job) :
    (o.forgetAllocation job).state = o.state := by
  unfold forgetAllocation
  split <;> rfl

@[simp] theorem forgetAllocation_log (o : Owner) (job : Job) :
    (o.forgetAllocation job).log = o.log := by
  unfold forgetAllocation
  split <;> rfl

theorem importJob_rows (hk : o.state.WellKeyed) (job : Job) (records : List JournalRecord)
    (hfits : job.Fits (o.state.eraseJob job.id)) :
    Holds (Rows Calm Idle o.state) o.log (o.importJob w job records).2 := by
  have hplace : Holds (Rows Calm Idle o.state) o.log
      ((o.forgetAllocation (normalizeJob job)).placeJob (normalizeJob job)) := by
    have hforget : (o.forgetAllocation (normalizeJob job)).state = o.state :=
      forgetAllocation_state ..
    have h : Holds (Rows Calm Idle (o.forgetAllocation (normalizeJob job)).state)
        (o.forgetAllocation (normalizeJob job)).log
        ((o.forgetAllocation (normalizeJob job)).placeJob (normalizeJob job)) :=
      placeJob_rows (hforget ▸ hk) (hforget ▸ hfits)
    rwa [forgetAllocation_state, forgetAllocation_log] at h
  simp only [importJob]
  split
  · refine ⟨?_, fun e he => .inl ?_⟩
    · rw [forgetAllocation_state]
      exact (StateBy.refl chains_calm _).rows hk
    · rwa [forgetAllocation_log] at he
  · have hfold := foldJobJournals_holds (w := w) calmClosed_rows hplace job.id records
    exact Holds.saveSnapshotResult ⟨hfold.state, hfold.log⟩

theorem importJob_nil_jobs (o : Owner) (job : Job) :
    (o.importJob w job []).2.state.pendingAdmissions = o.state.pendingAdmissions ∧
      ((o.importJob w job []).2.state.jobs = o.state.jobs ∨
        (o.importJob w job []).2.state.jobs =
          (o.state.eraseJob job.id).jobs ++ [recomputeJobTotals (normalizeJob job)]) := by
  simp only [importJob]
  split
  · rw [forgetAllocation_state]
    exact ⟨rfl, .inl rfl⟩
  · rw [saveSnapshotResult_state]
    simp only [foldJobJournals, filter_nil, foldl_nil, if_true, placeJob_state,
      forgetAllocation_state]
    exact ⟨rfl, .inr rfl⟩

theorem eraseJob_importJob (hids : (o.state.jobs.map (·.id)).Nodup) (job : Job) :
    ((o.importJob w job []).2.state.eraseJob job.id).jobs = (o.state.eraseJob job.id).jobs := by
  rcases (importJob_nil_jobs (w := w) o job).2 with h | h
  · rw [QueueState.eraseJob, h]
    rfl
  · have hne : ∀ k ∈ (o.state.eraseJob job.id).jobs, k.id ≠ job.id := fun k hkm =>
      key_ne_of_mem_eraseP hids hkm
    rw [QueueState.eraseJob, h, eraseP_append_right _ fun k hkm => by simpa using hne k hkm,
      eraseP_cons_of_pos (by simp [recomputeJobTotals, normalizeJob]), append_nil]

theorem restored_perm {id : JobId} {previous : Job}
    (hprev : o.state.job id = some previous) :
    ((o.state.eraseJob id).jobs ++ [previous]).Perm o.state.jobs := by
  refine (perm_append_singleton _ _).trans ?_
  exact cons_perm_eraseP hprev

theorem importJobIfPresent_rows (hk : o.state.WellKeyed) (job : Job)
    (hfits : job.Fits (o.state.eraseJob job.id)) :
    Holds (Rows Calm Idle o.state) o.log (o.importJobIfPresent w job) := by
  have himport := importJob_rows (w := w) hk job [] hfits
  unfold importJobIfPresent
  split
  · exact .start ((StateBy.refl chains_calm _).rows hk)
  next previous hprev =>
    simp only
    split
    · exact himport
    · refine ⟨?_, fun e he => ?_⟩
      · obtain ⟨hpending, -⟩ := importJob_nil_jobs (w := w) o job
        have hperm : (((o.importJob w job []).2.removeJobSilent job.id).state.jobs ++
            [previous]).Perm o.state.jobs := by
          rw [removeJobSilent_state, eraseJob_importJob hk.ids]
          exact restored_perm hprev
        refine .of_subset chains_calm.refl (hk.perm hperm ?_) fun r y hy => hy.of_subset hperm.subset
        show ((o.importJob w job []).2.removeJobSilent job.id).state.pendingAdmissions = _
        rw [removeJobSilent_state]
        exact hpending
      · exact himport.log e (removeJobSilent_log _ _ ▸ he)

theorem startupPass_by (hP : Editable P) (h : Holds P l o) : Holds P l (o.startupPass w) := by
  simp only [startupPass]
  refine foldlRecOn (motive := Holds P l) _ _ ?_ fun o ho id _ => checkJobComplete_by hP ho id
  exact foldlRecOn (motive := Holds P l) _ _ h fun o ho p _ => ho.sendFinalize p.1 p.2

theorem recomputeAllTotals_by (s : QueueState) : StateBy (· = ·) s s.recomputeAllTotals := by
  refine ⟨?_, rfl⟩
  rw [JobsBy, recomputeAllTotals, forall₂_map_right_iff, forall₂_same]
  exact fun j _ => .of_files_eq chains_eq.refl rfl rfl

theorem finishAdoption_holds (hP : CalmClosed P) (h : Holds P l o) (records : List JournalRecord) :
    Holds P l (o.finishAdoption w records) := by
  have hfold : Holds P l ((o.state.jobs.map (·.id)).foldl
      (fun o id => o.foldJobJournals w id records) o) :=
    foldlRecOn (motive := Holds P l) _ _ h fun o ho id _ => foldJobJournals_holds hP ho id records
  simp only [finishAdoption]
  refine Holds.saveSnapshot (startupPass_by hP.editable ?_)
  exact ⟨hP.editable _ _ hfold.state (recomputeAllTotals_by _), hfold.log⟩

theorem mem_mergeJobs {new : List Job} {j : Job} :
    ∀ {jobs : List Job}, j ∈ mergeJobs jobs new → j ∈ jobs ∨ j ∈ new := by
  unfold mergeJobs
  induction new with
  | nil => intro jobs h; exact .inl h
  | cons k new ih =>
    intro jobs h
    rcases ih h with h | h
    · simp only at h
      split at h
      · exact .inl h
      · rcases mem_append.mp h with h | h
        · exact .inl h
        · exact .inr (mem_singleton.mp h ▸ mem_cons_self)
    · exact .inr (mem_cons_of_mem _ h)

theorem fromDoc_idle {now : Int} {doc : QueueSnapshotDoc} {r : SegRef} {y : Segment}
    (h : (QueueState.fromDoc now doc).Has r y) : Idle y.state := by
  have hrows : JobsBy Restores (jobs { fromDoc now doc with jobs := doc.jobs })
      (fromDoc now doc).jobs := JobsBy.fromDoc now doc
  obtain ⟨x, -, ⟨hy, hl⟩ | ⟨-, hy⟩⟩ := hrows.has_right h
  · exact hy ▸ hl
  · rw [hy]
    rfl

theorem adoptSnapshot_rows {now : Int} {doc : QueueSnapshotDoc}
    (hk : (o.adoptSnapshot (.fromDoc now doc)).state.WellKeyed) :
    Rows Calm Idle o.state (o.adoptSnapshot (.fromDoc now doc)).state := by
  refine ⟨hk, ?_⟩
  rintro r y ⟨j, hj, f, hf, hy, rfl⟩
  rcases mem_mergeJobs hj with hj | hj
  · exact .inl ⟨y, ⟨j, hj, f, hf, hy, rfl⟩, chains_calm.refl _⟩
  · exact .inr (fromDoc_idle ⟨j, hj, f, hf, hy, rfl⟩)

theorem adoptAuthority_rows (hk : o.state.WellKeyed) (loaded : Option (Option QueueSnapshotDoc))
    (records : List JournalRecord)
    (hfresh : Msg.Fresh lower w o (.adoptAuthority loaded records)) :
    Holds (Rows Calm Idle o.state) o.log (o.adoptAuthority w loaded records) := by
  have hself : Rows Calm Idle o.state o.state := (StateBy.refl chains_calm _).rows hk
  unfold adoptAuthority
  split
  · exact ⟨hself, fun _ he => .inl he⟩
  · refine finishAdoption_holds calmClosed_rows ?_ records
    exact ⟨hself, fun _ he => .inl he⟩
  next doc =>
    split
    · exact ⟨hself, fun _ he => .inl he⟩
    · exact finishAdoption_holds calmClosed_rows
        ⟨adoptSnapshot_rows hfresh, fun _ he => .inl he⟩ records

theorem adoptReplicatedAuthority_rows (jobs : List Job) (hk : Nzbd.WellKeyed (jobs.map Job.keys) [])
    (hidle : ∀ j ∈ jobs, ∀ f ∈ j.files, ∀ x ∈ f.segments, Idle x.state) :
    Holds (Rows Calm Idle o.state) o.log (o.adoptReplicatedAuthority w jobs) := by
  refine Holds.saveSnapshot ⟨⟨?_, ?_⟩, fun _ he => .inl he⟩
  · show Nzbd.WellKeyed ((jobs.map recomputeJobTotals).map Job.keys) []
    rw [map_map]
    exact hk
  · rintro r y ⟨j, hj, f, hf, hy, rfl⟩
    obtain ⟨k, hkm, rfl⟩ := mem_map.mp hj
    exact .inr (hidle k hkm f hf y hy)

theorem retainJobs_rows (hk : o.state.WellKeyed) (keep : List JobId) :
    Holds (Rows (· = ·) (· = .pending) o.state) o.log (o.retainJobs keep) := by
  have hself : Rows (· = ·) (· = .pending) o.state o.state := (StateBy.refl chains_eq _).rows hk
  have hfold : Holds (Rows (· = ·) (· = .pending) o.state) o.log
      (((o.state.jobs.map (·.id)).filter (· ∉ keep)).foldl (fun o id => o.removeJobSilent id)
        { o with persist := false }) := by
    refine foldlRecOn (motive := Holds (Rows (· = ·) (· = .pending) o.state) o.log) _ _
      ⟨hself, fun _ he => .inl he⟩ fun o' ho' id _ => ⟨?_, fun e he => ?_⟩
    · rw [removeJobSilent_state]
      exact ho'.state.shrink eraseP_sublist (List.Sublist.refl _)
    · exact ho'.log e (removeJobSilent_log _ _ ▸ he)
  exact ⟨hfold.state, hfold.log⟩

theorem setDelegated_state (o : Owner) (id : JobId) (delegated : Bool) :
    (o.setDelegated id delegated).state = o.state ∧ (o.setDelegated id delegated).log = o.log := by
  unfold setDelegated
  split
  · exact ⟨rfl, rfl⟩
  · split <;> exact ⟨rfl, rfl⟩

end Owner

/-! ### All messages -/

/-- Messages of the cluster. -/
def Msg.isCluster : Msg → Bool
  | .importJob .. => true
  | .importJobIfPresent .. => true
  | .removeJobSilent .. => true
  | .setDelegated .. => true
  | .foldJobJournals .. => true
  | .adoptAuthority .. => true
  | .adoptReplicatedAuthority .. => true
  | .retainJobs .. => true
  | _ => false

/-- What a message may write besides snapshots. -/
def Msg.writes : Msg → List DiskWrite
  | .segmentWritten r => [.append r]
  | .delete job _ => [.removeJournal job]
  | _ => []

namespace Owner

variable {w : World} {lower : Text → Text} {o : Owner}

/-- **A message of the node itself** that is neither a request for work nor the
report of a written segment fades the segments it leaves, and new ones are
pending. -/
theorem step_fades (hk : o.state.WellKeyed) {m : Msg} (hm : m.Fresh lower w o)
    (hcluster : m.isCluster = false) (hwork : ∀ server n, m ≠ .workRequest server n)
    (hwrite : ∀ r, m ≠ .segmentWritten r) :
    Holds (Rows Fades (· = .pending) o.state) (m.writes ++ o.log) (o.step lower w m) := by
  have hself : Holds (StateBy Fades o.state) o.log o := .start (.refl chains_fades _)
  have hE : Editable (StateBy Fades o.state) := editable_by chains_fades
  have hby : ∀ {o' : Owner}, Holds (StateBy Fades o.state) o.log o' →
      Holds (Rows Fades (· = .pending) o.state) o.log o' :=
    fun h => h.mono (fun t ht => ht.rows hk) (List.Subset.refl _)
  have hrows : ∀ {l : List DiskWrite} {o' : Owner},
      Holds (Rows (· = ·) (· = .pending) o.state) l o' →
      Holds (Rows Fades (· = .pending) o.state) l o' :=
    fun h => h.mono (fun t ht => ht.mono (fun _ _ => .of_eq) fun _ hn => hn) (List.Subset.refl _)
  cases m with
  | workRequest server n => exact absurd rfl (hwork server n)
  | segmentWritten r => exact absurd rfl (hwrite r)
  | segmentFailed r server outcome => exact hby (onSegmentFailed_fades hk r server outcome)
  | connectFailed server => exact hby ⟨hself.state, hself.log⟩
  | writerFinalized job file ok hasPath crc =>
    exact hby (onWriterFinalized_by hE hself job file ok hasPath crc)
  | writerError job file full =>
    refine hby (failWholeFile_fades hk ?_ job file)
    exact ⟨hself.state, hself.log⟩
  | outOfSpace => exact hby ⟨hself.state, hself.log⟩
  | jobNameInspected job name => exact hby (onJobNameInspected_by hE hself job name)
  | tick => exact hby (onTick_by hE hself)
  | addParsed name parsed category priority paused params =>
    exact hrows (addParsed_rows hk name parsed category priority paused params hm.1 hm.2)
  | addUrl name url category priority paused params =>
    exact hrows (addUrl_rows hk name url category priority paused params hm)
  | completeUrlFetch job parsed => exact hrows (completeUrlFetch_rows hk job parsed hm)
  | failUrlFetch job => exact hby (failUrlFetch_by hE hself job)
  | reserveTorrentAdmission =>
    refine hrows (Holds.saveSnapshot ?_)
    exact ⟨reserveTorrentAdmission_rows hk hm, fun _ he => .inl he⟩
  | commitTorrentAdmission job commit => exact hrows (commitTorrentAdmission_rows hk job commit)
  | cancelTorrentAdmission job => exact hrows (cancelTorrentAdmission_rows hk job)
  | torrentFact job status record name => exact hby (torrentFact_by hE hself job status record name)
  | torrentRemoved job => exact hrows (torrentRemoved_rows hk job)
  | setFilePaused job file paused => exact hby (setFilePaused_by hE hself job file paused)
  | deleteFile job file => exact hrows (deleteFile_rows hk job file)
  | pause job => exact hby (pause_by hE hself job)
  | resume job => exact hby (resume_by hE hself job)
  | quiescePayload job => exact hby (quiescePayload_by hE hself job)
  | delete job deleteFiles => exact hrows (delete_rows hk job deleteFiles)
  | setPriority job priority => exact hby (setPriority_by hE hself job priority)
  | setCategory job category => exact hby (setCategory_by hE hself job category)
  | move job op =>
    refine hrows ⟨moveJob_rows hk job op, fun e he => .inl ?_⟩
    simp only [step, moveJob] at he
    split at he <;> exact he
  | pauseAll => exact hby ⟨⟨hself.state.jobs, rfl⟩, hself.log⟩
  | resumeAll => exact hby ⟨⟨hself.state.jobs, rfl⟩, hself.log⟩
  | setMaxActiveDownloads n =>
    refine hby (settleDownloadLabels_by hE ?_)
    exact ⟨⟨hself.state.jobs, rfl⟩, hself.log⟩
  | setJobStatus job status => exact hby (setJobStatus_by hE hself job status)
  | enterPostStage job stage at' prev =>
    exact hby (updateJob_by hE hself job (fun _ => rfl) fun _ => rfl)
  | closePostStage job at' ms =>
    exact hby (updateJob_by hE hself job (fun _ => rfl) fun _ => rfl)
  | unpauseParBlocks job picked => exact hby (unpauseParBlocks_by hE hself job picked)
  | setDownloadEnabled enabled => exact hby ⟨hself.state, hself.log⟩
  | _ => simp [Msg.isCluster] at hcluster

/-- **No message but a request for work leases a segment**, and none takes back
what is done. -/
theorem step_calm (hk : o.state.WellKeyed) {m : Msg} (hm : m.Fresh lower w o)
    (hwork : ∀ server n, m ≠ .workRequest server n) :
    Holds (Rows Calm Idle o.state) (m.writes ++ o.log) (o.step lower w m) := by
  have hidle : ∀ a : SegmentState, a = .pending → Idle a := by
    rintro _ rfl
    rfl
  have hrows : ∀ {o' : Owner}, Holds (Rows (· = ·) (· = .pending) o.state) o.log o' →
      Holds (Rows Calm Idle o.state) o.log o' := by
    refine fun h => h.mono (fun t ht => ht.mono ?_ hidle) (List.Subset.refl _)
    rintro a _ rfl
    exact chains_calm.refl a
  have hself : Rows Calm Idle o.state o.state := (StateBy.refl chains_calm _).rows hk
  cases m with
  | segmentWritten r =>
    refine onSegmentWritten_holds editable_rows r hself fun x hx hd => ?_
    exact (setDone_by (.refl chains_calm _) r.segRef hx hd r.offset r.len r.crc32).rows hk
  | importJob job records => exact importJob_rows hk job records hm
  | importJobIfPresent job => exact importJobIfPresent_rows hk job hm
  | removeJobSilent job => exact hrows (removeJobSilent_rows hk job)
  | setDelegated job delegated =>
    obtain ⟨hs, hl⟩ := setDelegated_state o job delegated
    exact (Holds.start hself).congr hs hl
  | foldJobJournals job records =>
    exact foldJobJournals_holds calmClosed_rows (.start hself) job records
  | adoptAuthority loaded records => exact adoptAuthority_rows hk loaded records hm
  | adoptReplicatedAuthority jobs => exact adoptReplicatedAuthority_rows jobs hm.1 hm.2
  | retainJobs keep => exact hrows (retainJobs_rows hk keep)
  | _ =>
    refine (step_fades hk hm rfl hwork (by simp)).mono (fun t ht => ht.mono ?_ hidle)
      (List.Subset.refl _)
    exact fun _ _ => Fades.calm

end Owner

end Engine

end Nzbd
