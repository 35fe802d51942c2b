import Nzbd.Engine.Node

/-!
# A replacement that fails

`importJobIfPresent` takes the old copy of a job out, puts the new one in and, when that cannot
be saved, puts the old copy back by hand.  The row comes back as it was, but behind all others;
and what was kept for its files and its attempts does not come back (`Dropped`).  So nothing has
changed just if the job was the last one and there was nothing to lose (`unchanged_iff`).
-/

namespace Nzbd.Engine.Owner

open List

variable {w : World} {o : Owner}

/-- The answer to the command. -/
def replaced (w : World) (o : Owner) (job : Job) : Bool :=
  (o.state.job job.id).isSome && (o.importJob w job []).1

/-- All that an import or a removal touches is as before. -/
structure Unchanged (o o' : Owner) : Prop where
  jobs : o'.state.jobs = o.state.jobs
  attempts : o'.attempts = o.attempts
  writers : o'.writers = o.writers
  finalizeSent : o'.finalizeSent = o.finalizeSent
  pendingFinalize : o'.pendingFinalize = o.pendingFinalize
  fileSizes : o'.fileSizes = o.fileSizes
  delegated : ∀ id, id ∈ o'.delegated ↔ id ∈ o.delegated
  postFetchFiles : o'.postFetchFiles = o.postFetchFiles

/-- The directory of the job is refused, or its inventory. -/
def Refused (w : World) (job : Job) : Prop := job.torrent = none ∧ w.allocates job.id = false

instance (w : World) (job : Job) : Decidable (Refused w job) := inferInstanceAs (Decidable (_ ∧ _))

/-- The files that are forgotten: those of the old copy, and of the new one if it has been put
in. -/
def forgotten (w : World) (job previous : Job) : List FileId :=
  if Refused w job then previous.files.map (·.id) else previous.files.map (·.id) ++ job.files.map (·.id)

structure NothingKept (o : Owner) (id : JobId) (files : List FileId) : Prop where
  attempts : ∀ r, r.job = id → o.attempts r = none
  writers : ∀ f ∈ files, f ∉ o.writers
  finalizeSent : ∀ f ∈ files, f ∉ o.finalizeSent
  pendingFinalize : ∀ x ∈ o.pendingFinalize, x.1 ≠ id
  fileSizes : ∀ f ∈ files, o.fileSizes f = none

variable {id : JobId}

theorem removeJobSilent_eq {job : Job} (h : o.state.job id = some job) :
    o.removeJobSilent id = o.eraseJob job := by
  rw [removeJobSilent, h]

theorem mem_restored {l l' : List JobId} (h : ∀ k, k ∈ l' ↔ k ∈ l ∧ k ≠ id) (k : JobId) :
    (k ∈ if id ∈ l then id :: l' else l') ↔ k ∈ l := by
  by_cases hid : id ∈ l
  · rw [if_pos hid, mem_cons, h]
    constructor
    · rintro (rfl | ⟨hk, -⟩)
      · exact hid
      · exact hk
    · intro hk
      by_cases hkid : k = id
      · exact .inl hkid
      · exact .inr ⟨hk, hkid⟩
  · rw [if_neg hid, h]
    exact ⟨And.left, fun hk => ⟨hk, fun h => hid (h ▸ hk)⟩⟩

/-- What taking a job out leaves, apart from its row. -/
structure Dropped (o : Owner) (id : JobId) (files : List FileId) (o' : Owner) : Prop where
  attempts : o'.attempts = fun r => if r.job = id then none else o.attempts r
  writers : o'.writers = o.writers.filter (· ∉ files)
  finalizeSent : o'.finalizeSent = o.finalizeSent.filter (· ∉ files)
  pendingFinalize : o'.pendingFinalize = o.pendingFinalize.filter (·.1 ≠ id)
  fileSizes : o'.fileSizes = fun f => if f ∈ files then none else o.fileSizes f
  delegated : ∀ k, k ∈ o'.delegated ↔ k ∈ o.delegated ∧ k ≠ id
  postFetchFiles : ∀ k, k ≠ id → o'.postFetchFiles k = o.postFetchFiles k

theorem dropped_eraseJob (o : Owner) (job : Job) :
    Dropped o job.id (job.files.map (·.id)) (o.eraseJob job) := by
  refine ⟨rfl, rfl, rfl, rfl, rfl, fun k => ?_, fun k hk => Function.update_of_ne hk _ _⟩
  show k ∈ o.delegated.filter (· ≠ job.id) ↔ _
  simp

theorem filter_not_mem_append {α : Type*} [DecidableEq α] (l a b : List α) :
    (l.filter (· ∉ a)).filter (· ∉ b) = l.filter (· ∉ a ++ b) := by
  rw [filter_filter]
  refine filter_congr fun x _ => ?_
  simp only [mem_append, not_or, Bool.decide_and, Bool.and_comm]

theorem Dropped.trans {o₁ o₂ o₃ : Owner} {a b : List FileId} (h : Dropped o₁ id a o₂)
    (h' : Dropped o₂ id b o₃) : Dropped o₁ id (a ++ b) o₃ where
  attempts := by
    rw [h'.attempts, h.attempts]
    funext r
    by_cases hr : r.job = id
    · rw [if_pos hr, if_pos hr]
    · simp only [if_neg hr]
  writers := by rw [h'.writers, h.writers, filter_not_mem_append]
  finalizeSent := by rw [h'.finalizeSent, h.finalizeSent, filter_not_mem_append]
  pendingFinalize := by
    rw [h'.pendingFinalize, h.pendingFinalize, filter_filter]
    exact filter_congr fun x _ => Bool.and_self _
  fileSizes := by
    rw [h'.fileSizes, h.fileSizes]
    funext f
    simp only [mem_append]
    by_cases hb : f ∈ b
    · rw [if_pos hb, if_pos (.inr hb)]
    · rw [if_neg hb]
      simp only [hb, or_false]
  delegated k := by
    rw [h'.delegated, h.delegated]
    exact ⟨And.left, fun hk => ⟨hk, hk.2⟩⟩
  postFetchFiles k hk := (h'.postFetchFiles k hk).trans (h.postFetchFiles k hk)

/-! ### The command -/

theorem dropped_forgetAllocation {files : List FileId} {job : Job} {o' : Owner}
    (h : Dropped (o.forgetAllocation job) id files o') : Dropped o id files o' := by
  unfold forgetAllocation at h
  split at h
  · exact { h with }
  · exact h

theorem Dropped.saveSnapshotResult {files : List FileId} {o' : Owner} (h : Dropped o id files o') :
    Dropped o id files (o'.saveSnapshotResult w).2 := by
  unfold Owner.saveSnapshotResult
  split
  · exact h
  · split
    · exact { h with }
    · exact h
    · exact { h with }

theorem Dropped.again {files : List FileId} {o' : Owner} {job : Job} (h : Dropped o id files o')
    (hjob : o'.state.job id = some job) (hid : job.id = id) :
    Dropped o id (files ++ job.files.map (·.id)) (o'.removeJobSilent id) := by
  subst hid
  rw [removeJobSilent_eq hjob]
  exact h.trans (dropped_eraseJob o' job)

theorem dropped_placeJob {job previous : Job} (hprev : o.state.job job.id = some previous) :
    Dropped o job.id (previous.files.map (·.id)) (o.placeJob job) := by
  have hid : previous.id = job.id := job_find hprev
  have hremove : removeJobSilent { o with state := raiseIds o.state job } job.id =
      eraseJob { o with state := raiseIds o.state job } previous := removeJobSilent_eq hprev
  have h := dropped_eraseJob { o with state := raiseIds o.state job } previous
  rw [hid] at h
  unfold placeJob
  rw [hremove]
  refine ⟨h.attempts, h.writers, h.finalizeSent, h.pendingFinalize, h.fileSizes, fun k => ?_, h.postFetchFiles⟩
  rw [mem_filter, h.delegated]
  simp

/-- An import that is not refused takes the old copy out and looks through the new one. -/
theorem dropped_import {job previous : Job} (hprev : o.state.job job.id = some previous)
    (hgoes : ¬Refused w job) :
    Dropped o job.id (previous.files.map (·.id)) (o.importJob w job []).2 ∧
      (o.importJob w job []).2.state.jobs =
        (o.state.eraseJob job.id).jobs ++ [recomputeJobTotals (normalizeJob job)] ∧
      (o.importJob w job []).2.postFetchFiles job.id =
        ((o.importJob w job []).2.state.job job.id).bind recoveredPostFetchFiles := by
  have hforget : (o.forgetAllocation (normalizeJob job)).state.job (normalizeJob job).id =
      some previous := by
    rwa [forgetAllocation_state]
  have hplaced := dropped_forgetAllocation (dropped_placeJob hforget)
  have hfold : ((o.forgetAllocation (normalizeJob job)).placeJob (normalizeJob job)).foldJobJournals w
      (normalizeJob job).id [] = (o.forgetAllocation (normalizeJob job)).placeJob (normalizeJob job) := by
    simp only [foldJobJournals, filter_nil, foldl_nil, if_true]
  have hjobs : ((o.forgetAllocation (normalizeJob job)).placeJob (normalizeJob job)).state.jobs =
      (o.state.eraseJob job.id).jobs ++ [recomputeJobTotals (normalizeJob job)] := by
    rw [placeJob_state, forgetAllocation_state]
    rfl
  have himport : (o.importJob w job []).2 = ({ (o.forgetAllocation (normalizeJob job)).placeJob
      (normalizeJob job) with
        postFetchFiles := Function.update ((o.forgetAllocation (normalizeJob job)).placeJob
          (normalizeJob job)).postFetchFiles (normalizeJob job).id
          ((((o.forgetAllocation (normalizeJob job)).placeJob (normalizeJob job)).state.job
            (normalizeJob job).id).bind recoveredPostFetchFiles) }.saveSnapshotResult w).2 := by
    have hallocates : ¬((normalizeJob job).torrent = none ∧ w.allocates (normalizeJob job).id = false) :=
      hgoes
    unfold importJob
    simp only
    rw [if_neg hallocates, hfold]
  rw [himport]
  generalize (o.forgetAllocation (normalizeJob job)).placeJob (normalizeJob job) = p at hplaced hjobs ⊢
  refine ⟨Dropped.saveSnapshotResult ⟨hplaced.attempts, hplaced.writers, hplaced.finalizeSent,
    hplaced.pendingFinalize, hplaced.fileSizes, hplaced.delegated,
    fun k hk => (Function.update_of_ne hk _ _).trans (hplaced.postFetchFiles k hk)⟩, ?_, ?_⟩
  · rw [saveSnapshotResult_state]
    exact hjobs
  · rw [saveSnapshotResult_state]
    unfold saveSnapshotResult
    split
    · exact Function.update_self ..
    · split <;> exact Function.update_self ..

/-- **A replacement that fails** takes the job out, once or with its new copy again. -/
theorem dropped_importJob {job previous : Job} (hids : (o.state.jobs.map (·.id)).Nodup)
    (hprev : o.state.job job.id = some previous) :
    Dropped o job.id (forgotten w job previous) ((o.importJob w job []).2.removeJobSilent job.id) := by
  have hid : previous.id = job.id := job_find hprev
  unfold forgotten
  by_cases hrefused : Refused w job
  · have hearly : (normalizeJob job).torrent = none ∧ w.allocates (normalizeJob job).id = false := hrefused
    unfold importJob
    simp only
    rw [if_pos hearly, if_pos hrefused]
    have hjob : (o.forgetAllocation (normalizeJob job)).state.job job.id = some previous := by
      rwa [forgetAllocation_state]
    rw [removeJobSilent_eq hjob]
    have h := dropped_eraseJob (o.forgetAllocation (normalizeJob job)) previous
    rw [hid] at h
    exact dropped_forgetAllocation h
  · obtain ⟨hdropped, hjobs, -⟩ := dropped_import hprev hrefused
    have hfiles : (recomputeJobTotals (normalizeJob job)).files.map (·.id) = job.files.map (·.id) := by
      show ((job.files.map FileEntry.releaseLeases).map (·.id)) = _
      rw [map_map]
      rfl
    -- the new copy is the only one with its id
    have hjob : (o.importJob w job []).2.state.job job.id =
        some (recomputeJobTotals (normalizeJob job)) := by
      rw [QueueState.job, hjobs, find?_append, find?_eq_none.mpr, Option.none_or]
      · exact find?_cons_of_pos (by simp [recomputeJobTotals, normalizeJob])
      · exact fun k hk => by simpa using key_ne_of_mem_eraseP hids hk
    have hagain := hdropped.again hjob rfl
    rw [if_neg hrefused]
    rwa [hfiles] at hagain

theorem failed_of_not_replaced {job previous : Job} (hprev : o.state.job job.id = some previous)
    (hfail : replaced w o job = false) : (o.importJob w job []).1 = false := by
  rw [replaced, hprev] at hfail
  exact hfail

/-- **What is left** when a replacement fails. -/
theorem importJobIfPresent_failed {job previous : Job} (hprev : o.state.job job.id = some previous)
    (hfail : replaced w o job = false) :
    o.importJobIfPresent w job =
      let o' := (o.importJob w job []).2.removeJobSilent job.id
      { o' with
        state := { o'.state with jobs := o'.state.jobs ++ [previous] }
        delegated := if job.id ∈ o.delegated then job.id :: o'.delegated else o'.delegated
        postFetchFiles := Function.update o'.postFetchFiles job.id (o.postFetchFiles job.id) } := by
  unfold importJobIfPresent
  rw [hprev]
  simp only
  rw [if_neg (by rw [failed_of_not_replaced hprev hfail]; exact Bool.false_ne_true)]

theorem erase_concat_iff {previous : Job} (hids : (o.state.jobs.map (·.id)).Nodup)
    (hprev : o.state.job id = some previous) :
    (o.state.eraseJob id).jobs ++ [previous] = o.state.jobs ↔ o.state.jobs.getLast? = some previous := by
  have hid : previous.id = id := job_find hprev
  constructor
  · intro h
    rw [← h, getLast?_concat]
  · intro hlast
    obtain ⟨l, hl⟩ := getLast?_eq_some_iff.mp hlast
    have hnot : ∀ k ∈ l, ¬(k.id = id) := by
      intro k hk hkid
      rw [hl, map_append, nodup_append] at hids
      exact hids.2.2 k.id (mem_map_of_mem hk) previous.id (by simp) (hkid.trans hid.symm)
    rw [QueueState.eraseJob, hl, eraseP_append_right _ fun k hk => by simpa using hnot k hk,
      eraseP_cons_of_pos (by simpa using hid), append_nil]

theorem filter_not_mem_eq_self {α β : Type*} [DecidableEq β] {l : List α} {f : α → β} {a : List β} :
    l.filter (fun x => f x ∉ a) = l ↔ ∀ b ∈ a, ∀ x ∈ l, f x ≠ b := by
  rw [filter_eq_self]
  constructor
  · exact fun h b hb x hx hxb => by simpa [hxb, hb] using h x hx
  · exact fun h x hx => by simpa using fun hmem => h _ hmem x hx rfl

/-- Where nothing is kept, nothing is lost. -/
theorem Dropped.kept {files : List FileId} {o' : Owner} (h : Dropped o id files o')
    (hn : NothingKept o id files) : o'.attempts = o.attempts ∧ o'.writers = o.writers ∧
      o'.finalizeSent = o.finalizeSent ∧ o'.pendingFinalize = o.pendingFinalize ∧
        o'.fileSizes = o.fileSizes := by
  obtain ⟨hattempts, hwriters, hsent, hpending, hsizes⟩ := hn
  refine ⟨?_, ?_, ?_, ?_, ?_⟩
  · rw [h.attempts]
    funext r
    split
    · next hr => exact (hattempts r hr).symm
    · rfl
  · rw [h.writers]
    exact filter_eq_self.mpr fun x hx => decide_eq_true fun hmem => hwriters x hmem hx
  · rw [h.finalizeSent]
    exact filter_eq_self.mpr fun x hx => decide_eq_true fun hmem => hsent x hmem hx
  · rw [h.pendingFinalize]
    exact filter_eq_self.mpr fun x hx => by simpa using hpending x hx
  · rw [h.fileSizes]
    funext f
    split
    · next hf => exact (hsizes f hf).symm
    · rfl

/-- **A failed replacement changes nothing** just if the job is the last one and nothing is kept
for what is forgotten. -/
theorem unchanged_iff (w : World) (o : Owner) (job : Job) (hids : (o.state.jobs.map (·.id)).Nodup)
    (hfail : replaced w o job = false) : Unchanged o (o.importJobIfPresent w job) ↔
      ∀ previous, o.state.job job.id = some previous →
        o.state.jobs.getLast? = some previous ∧ NothingKept o job.id (forgotten w job previous) := by
  cases hprev : o.state.job job.id with
  | none =>
    have hsame : o.importJobIfPresent w job = o := by
      unfold importJobIfPresent
      rw [hprev]
    rw [hsame]
    exact iff_of_true ⟨rfl, rfl, rfl, rfl, rfl, rfl, fun _ => Iff.rfl, rfl⟩ fun _ h => by cases h
  | some previous =>
    have hdropped := dropped_importJob (w := w) hids hprev
    have hjobs : ((o.importJob w job []).2.removeJobSilent job.id).state.jobs =
        (o.state.eraseJob job.id).jobs := by
      rw [removeJobSilent_state, eraseJob_importJob hids]
    rw [importJobIfPresent_failed hprev hfail]
    generalize (o.importJob w job []).2.removeJobSilent job.id = o' at hdropped hjobs ⊢
    constructor
    · rintro ⟨h1, h2, h3, h4, h5, h6, -, -⟩ p hp
      obtain rfl := Option.some.inj hp
      simp only at h1 h2 h3 h4 h5 h6
      rw [hjobs] at h1
      rw [hdropped.attempts] at h2
      rw [hdropped.writers] at h3
      rw [hdropped.finalizeSent] at h4
      rw [hdropped.pendingFinalize] at h5
      rw [hdropped.fileSizes] at h6
      refine ⟨(erase_concat_iff hids hprev).mp h1, ?_, ?_, ?_, ?_, ?_⟩
      · intro r hr
        rw [← congrFun h2 r]
        exact if_pos hr
      · exact fun f hf hmem => (filter_not_mem_eq_self (f := id)).mp h3 f hf f hmem rfl
      · exact fun f hf hmem => (filter_not_mem_eq_self (f := id)).mp h4 f hf f hmem rfl
      · exact fun x hx => by simpa using filter_eq_self.mp h5 x hx
      · intro f hf
        rw [← congrFun h6 f]
        exact if_pos hf
    · intro h
      obtain ⟨hlast, hnothing⟩ := h previous rfl
      obtain ⟨hattempts, hwriters, hsent, hpending, hsizes⟩ := hdropped.kept hnothing
      refine ⟨?_, hattempts, hwriters, hsent, hpending, hsizes, ?_, ?_⟩
      · simp only
        rw [hjobs]
        exact (erase_concat_iff hids hprev).mpr hlast
      · exact mem_restored hdropped.delegated
      · funext k
        simp only
        by_cases hk : k = job.id
        · rw [hk, Function.update_self]
        · rw [Function.update_of_ne hk]
          exact hdropped.postFetchFiles k hk

/-! ### A full disk -/

def fullDisk : World := { Node.calmWorld with save := fun _ => .ioError }

def waitingUrl (id : JobId) (name : String) : Job :=
  QueueState.newJob 0 id .url (text name) (text name) none 0 .fetching

def twoWaiting : Owner :=
  { Owner.start Node.calmWorld (Node.dayConfig false) QueueState.default.toDoc [] with
    state := { QueueState.default with jobs := [waitingUrl 1 "a", waitingUrl 2 "b"] } }

theorem unchanged_iff_last :
    Unchanged twoWaiting (twoWaiting.importJobIfPresent fullDisk (waitingUrl 2 "c")) := by
  refine (unchanged_iff fullDisk twoWaiting (waitingUrl 2 "c") (by decide) (by decide +kernel)).mpr
    fun previous h => ?_
  obtain rfl : waitingUrl 2 "b" = previous := Option.some.inj h
  refine ⟨by decide +kernel, fun _ _ => rfl, ?_, ?_, ?_, ?_⟩
  · exact fun f hf => by cases hf
  · exact fun f hf => by cases hf
  · exact fun x hx => by cases hx
  · exact fun f hf => by cases hf

/-- The first of two jobs is behind the other one when its new copy could not be saved. -/
theorem first_falls_behind : replaced fullDisk twoWaiting (waitingUrl 1 "c") = false ∧
    ¬Unchanged twoWaiting (twoWaiting.importJobIfPresent fullDisk (waitingUrl 1 "c")) := by
  refine ⟨by decide +kernel, fun h => ?_⟩
  have hids : (twoWaiting.importJobIfPresent fullDisk (waitingUrl 1 "c")).state.jobs.map (·.id) = [2, 1] := by
    decide +kernel
  rw [h.jobs] at hids
  revert hids
  decide

end Nzbd.Engine.Owner
