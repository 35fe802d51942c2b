import Nzbd.Engine.Node

/-!
# Finished files

A file is open when its last segment is decided, at least one of them is on disk, and it
has not been put in place.  The owner then owes its writer a `Finalize`: it has been sent,
or it waits for the next tick, or the job is on its way out.

`Keeps` says that a change leaves no open file behind: each one was open before, and what
was owed to it is still.  Between the booking of a segment and the look at its file
(`afterFileChange`) the file is an exception; the look discharges it.
-/

namespace Nzbd.Engine

open List
open Nzbd.State (Codec JournalRecord)

/-- Decided and in part on disk, but not in place. -/
def isOpen (f : FileEntry) : Bool := f.isTerminal && f.hasAnyDone && !f.finalized

namespace Owner

/-- The file is on the books. -/
def Tracks (o : Owner) (j : Job) (f : FileEntry) : Prop :=
  f.id ∈ o.finalizeSent ∨ (j.id, f.id) ∈ o.pendingFinalize ∨
    (j.id ∈ o.retiringWriters ∧ isActive j.status = false)

/-- Every open file is, some apart. -/
def Tracked (except : List (JobId × FileId)) (o : Owner) : Prop :=
  ∀ j ∈ o.state.jobs, ∀ f ∈ j.files, isOpen f = true → (j.id, f.id) ∉ except → o.Tracks j f

def Keeps (o o' : Owner) : Prop :=
  ∀ j' ∈ o'.state.jobs, ∀ f' ∈ j'.files, isOpen f' = true →
    ∃ j ∈ o.state.jobs, ∃ f ∈ j.files, isOpen f = true ∧ j.id = j'.id ∧ f.id = f'.id ∧
      (o.Tracks j f → o'.Tracks j' f')

variable {w : World} {o o' o'' : Owner} {E : List (JobId × FileId)}

theorem Keeps.refl (o : Owner) : Keeps o o :=
  fun j hj f hf ho => ⟨j, hj, f, hf, ho, rfl, rfl, fun h => h⟩

theorem Keeps.trans (h₁ : Keeps o o') (h₂ : Keeps o' o'') : Keeps o o'' := by
  intro j'' hj'' f'' hf'' ho''
  obtain ⟨j', hj', f', hf', ho', hjid', hfid', ht'⟩ := h₂ j'' hj'' f'' hf'' ho''
  obtain ⟨j, hj, f, hf, ho, hjid, hfid, ht⟩ := h₁ j' hj' f' hf' ho'
  exact ⟨j, hj, f, hf, ho, hjid.trans hjid', hfid.trans hfid', fun h => ht' (ht h)⟩

theorem Tracked.keeps (h : Tracked E o) (hk : Keeps o o') : Tracked E o' := by
  intro j' hj' f' hf' ho' hE
  obtain ⟨j, hj, f, hf, ho, hjid, hfid, ht⟩ := hk j' hj' f' hf' ho'
  refine ht (h j hj f hf ho ?_)
  rwa [hjid, hfid]

theorem Tracked.mono {E' : List (JobId × FileId)} (h : Tracked E o) (hsub : E ⊆ E') :
    Tracked E' o := fun j hj f hf ho hE => h j hj f hf ho fun hmem => hE (hsub hmem)

/-! ### Elementary changes -/

theorem Keeps.same (hjobs : o'.state.jobs = o.state.jobs) (hsent : o.finalizeSent ⊆ o'.finalizeSent)
    (hpend : o.pendingFinalize ⊆ o'.pendingFinalize)
    (hret : o.retiringWriters ⊆ o'.retiringWriters) : Keeps o o' := by
  intro j hj f hf ho
  refine ⟨j, hjobs ▸ hj, f, hf, ho, rfl, rfl, ?_⟩
  rintro (h | h | h)
  · exact .inl (hsent h)
  · exact .inr (.inl (hpend h))
  · exact .inr (.inr ⟨hret h.1, h.2⟩)

def SameBooks (o o' : Owner) : Prop :=
  o'.finalizeSent = o.finalizeSent ∧ o'.pendingFinalize = o.pendingFinalize ∧
    o'.retiringWriters = o.retiringWriters

theorem SameBooks.tracks (h : SameBooks o o') {j j' : Job} {f f' : FileEntry}
    (hj : j.id = j'.id) (hf : f.id = f'.id)
    (hs : j.id ∈ o.retiringWriters → isActive j.status = false → isActive j'.status = false)
    (ht : o.Tracks j f) : o'.Tracks j' f' := by
  obtain ⟨hsent, hpend, hret⟩ := h
  rw [Tracks, hsent, hpend, hret, ← hj, ← hf]
  exact ht.imp_right (Or.imp_right fun h => ⟨h.1, hs h.1 h.2⟩)

theorem Keeps.beside (hjobs : o'.state.jobs = o.state.jobs) (h : SameBooks o o') : Keeps o o' := by
  refine .same hjobs ?_ ?_ ?_
  · rw [h.1]; exact fun _ h => h
  · rw [h.2.1]; exact fun _ h => h
  · rw [h.2.2]; exact fun _ h => h

/-- A change of one job.  Its open files were open, and a job on its way out does not come
back. -/
theorem Keeps.editJob (hbooks : SameBooks o o') (id : JobId) {g : Job → Job}
    (hjobs : o'.state.jobs = (o.state.updateJob id g).jobs) (hid : ∀ j, (g j).id = j.id)
    (hfiles : ∀ j, o.state.job id = some j → ∀ f' ∈ (g j).files, isOpen f' = true →
      ∃ f ∈ j.files, isOpen f = true ∧ f.id = f'.id)
    (hstatus : ∀ j, o.state.job id = some j → (∃ f ∈ (g j).files, isOpen f = true) →
      id ∈ o.retiringWriters → isActive j.status = false → isActive (g j).status = false) :
    Keeps o o' := by
  intro j' hj' f' hf' ho'
  rw [hjobs] at hj'
  rcases mem_modifyFirst hj' with hj | ⟨j, hj, rfl⟩
  · exact ⟨j', hj, f', hf', ho', rfl, rfl, hbooks.tracks rfl rfl fun _ h => h⟩
  · obtain ⟨f, hf, ho, hfid⟩ := hfiles j hj f' hf' ho'
    have hjid : j.id = id := by simpa using find?_some hj
    refine ⟨j, mem_of_find?_eq_some hj, f, hf, ho, (hid j).symm, hfid, ?_⟩
    exact hbooks.tracks (hid j).symm hfid fun hr hs => hstatus j hj ⟨f', hf', ho'⟩ (hjid ▸ hr) hs

theorem Keeps.updateJob (id : JobId) {g : Job → Job} (hid : ∀ j, (g j).id = j.id)
    (hfiles : ∀ j, (g j).files = j.files)
    (hstatus : ∀ j, o.state.job id = some j → id ∈ o.retiringWriters →
      isActive j.status = false → isActive (g j).status = false) : Keeps o (o.updateJob id g) :=
  .editJob ⟨rfl, rfl, rfl⟩ id rfl hid (fun j _ f hf ho => ⟨f, hfiles j ▸ hf, ho, rfl⟩)
    fun j hj _ => hstatus j hj

theorem Keeps.updateJob_same (id : JobId) {g : Job → Job} (hid : ∀ j, (g j).id = j.id)
    (hfiles : ∀ j, (g j).files = j.files) (hstatus : ∀ j, (g j).status = j.status) :
    Keeps o (o.updateJob id g) :=
  .updateJob id hid hfiles fun j _ _ h => by rwa [hstatus]

theorem Keeps.updateFile (job : JobId) (file : FileId) {g : FileEntry → FileEntry}
    (hid : ∀ f, (g f).id = f.id)
    (hopen : ∀ f, o.file job file = some f → isOpen (g f) = true → isOpen f = true) :
    Keeps o { o with state := o.state.updateFile job file g } := by
  refine .editJob ⟨rfl, rfl, rfl⟩ job rfl (fun _ => rfl) (fun j hj f' hf' ho' => ?_)
    fun _ _ _ _ h => h
  rcases mem_modifyFirst hf' with hf | ⟨f, hf, rfl⟩
  · exact ⟨f', hf, ho', rfl⟩
  · refine ⟨f, mem_of_find?_eq_some hf, hopen f ?_ ho', (hid f).symm⟩
    rw [Owner.file, hj, Option.bind_some]
    exact hf

theorem Tracked.updateSegment (h : Tracked E o) (r : SegRef) (g : Segment → Segment) :
    Tracked ((r.job, r.file) :: E) { o with state := o.state.updateSegment r g } := by
  intro j' hj' f' hf' ho' hE
  obtain ⟨hne, hE⟩ := not_or.mp (mem_cons.not.mp hE)
  rcases mem_modifyFirst hj' with hj | ⟨j, hj, rfl⟩
  · exact h j' hj f' hf' ho' hE
  · have hjid : j.id = r.job := by simpa using find?_some hj
    rcases mem_modifyFirst hf' with hf | ⟨f, hf, rfl⟩
    · exact h j (mem_of_find?_eq_some hj) f' hf ho' hE
    · have hfid : f.id = r.file := by simpa using find?_some hf
      exact absurd (Prod.ext hjid hfid) hne

variable {file : FileId} {job : JobId}

theorem Tracked.discharge (hk : o.state.WellKeyed)
    (h : Tracked ((job, file) :: E) o)
    (hfile : ∀ j f, j ∈ o.state.jobs → o.file job file = some f → j.id = job → f.id = file →
      isOpen f = true → o.Tracks j f) : Tracked E o := by
  intro j hj f hf ho hE
  by_cases hne : (j.id, f.id) = (job, file)
  · obtain ⟨hjid, hfid⟩ := Prod.mk.inj hne
    refine hfile j f hj ?_ hjid hfid ho
    rw [Owner.file, ← hjid, hk.job_of_mem hj, Option.bind_some, ← hfid]
    exact hk.file_of_mem hj hf
  · exact h j hj f hf ho (not_or.mpr ⟨hne, hE⟩ ∘ mem_cons.mp)

/-! ### Saves and writers -/

theorem keeps_saveSnapshotResult (o : Owner) : Keeps o (o.saveSnapshotResult w).2 := by
  unfold saveSnapshotResult
  split
  · exact .refl o
  · split
    · exact .beside rfl ⟨rfl, rfl, rfl⟩
    · exact .refl o
    · exact .beside rfl ⟨rfl, rfl, rfl⟩

theorem keeps_saveSnapshot (o : Owner) : Keeps o (o.saveSnapshot w) := keeps_saveSnapshotResult o

theorem writerFor_books (o : Owner) (job : JobId) (file : FileId) :
    SameBooks o (o.writerFor w job file) := by
  obtain ⟨jobs, files, h⟩ := writerFor_eq (w := w) o job file
  rw [h]
  exact ⟨rfl, rfl, rfl⟩

theorem keeps_sendFinalize (o : Owner) (job : JobId) (file : FileId) :
    Keeps o (o.sendFinalize w job file) := by
  have hstate := sendFinalize_state (w := w) o job file
  obtain ⟨hsent, hpend, hret⟩ := writerFor_books (w := w) o job file
  refine .same (by rw [hstate]) ?_ ?_ ?_
  · intro f hf
    unfold sendFinalize
    split
    · exact hf
    · dsimp only
      split
      · exact mem_cons_of_mem _ (hsent ▸ hf)
      · exact hsent ▸ hf
      · exact hsent ▸ hf
  · intro p hp
    unfold sendFinalize
    split
    · exact hp
    · dsimp only
      split
      · exact hpend ▸ hp
      · exact mem_append_left _ (hpend ▸ hp)
      · exact mem_append_left _ (hpend ▸ hp)
  · intro j hj
    unfold sendFinalize
    split
    · exact hj
    · dsimp only
      split <;> exact hret ▸ hj

theorem sendFinalize_books {f : FileEntry}
    (h : o.file job file = some f) : file ∈ (o.sendFinalize w job file).finalizeSent ∨
      (job, file) ∈ (o.sendFinalize w job file).pendingFinalize := by
  unfold sendFinalize
  rw [h]
  dsimp only
  split
  · exact .inl mem_cons_self
  · exact .inr (mem_append_right _ (mem_singleton_self _))
  · exact .inr (mem_append_right _ (mem_singleton_self _))

/-! ### The cascade -/

theorem endStatus_inactive (o : Owner) (job : Job) : isActive (o.endStatus job) = false := by
  unfold endStatus finalStatus
  split
  · rfl
  · split
    · rfl
    · split <;> rfl

theorem keeps_checkJobComplete (o : Owner) (id : JobId) : Keeps o (o.checkJobComplete w id) := by
  unfold checkJobComplete
  split
  · exact .refl o
  · split
    · exact .refl o
    next job _ =>
      split
      · have hup : Keeps o (o.updateJob id fun j => { j with status := o.endStatus job }) :=
          .updateJob id (fun _ => rfl) (fun _ => rfl) fun _ _ _ _ => endStatus_inactive o job
        have hclose : Keeps (o.updateJob id fun j => { j with status := o.endStatus job })
            ((o.updateJob id fun j => { j with status := o.endStatus job }).closeDownload job) :=
          .beside rfl ⟨rfl, rfl, rfl⟩
        exact (hup.trans hclose).trans (keeps_saveSnapshot _)
      · exact .refl o

theorem editable_keyed : Editable QueueState.WellKeyed := fun _ _ hs h => h.wellKeyed hs

theorem isOpen_trivially (f : FileEntry) : isOpen (finalizeTrivially f) = false := by
  simp [isOpen, finalizeTrivially]

theorem file_of_updateFile {g : FileEntry → FileEntry}
    (hid : ∀ f, (g f).id = f.id) :
    Owner.file { o with state := o.state.updateFile job file g } job file =
      (o.file job file).map g := by
  rw [Owner.file, Owner.file, job_updateFile_self]
  cases o.state.job job with
  | none => rfl
  | some j => exact file_updateFile_self j hid

/-- **The look at a file discharges it.** -/
theorem Tracked.afterFileChange (hk : o.state.WellKeyed)
    (h : Tracked ((job, file) :: E) o) : Tracked E (o.afterFileChange w job file) := by
  unfold Owner.afterFileChange
  split
  next hnone => exact h.discharge hk fun j f _ hf => absurd hf (by simp [hnone])
  next f hf =>
    split
    next hshut =>
      refine Tracked.keeps (h.discharge hk fun j f' _ hf' _ _ ho => ?_) (keeps_checkJobComplete _ _)
      obtain rfl := Option.some.inj (hf.symm.trans hf')
      rcases hshut with hshut | hshut <;> simp [isOpen, hshut] at ho
    next =>
      split
      next hdone =>
        split
        next hsent =>
          exact h.discharge hk fun j f' _ _ _ hfid _ => .inl (hfid ▸ hsent)
        next =>
          have hafter := h.keeps (keeps_sendFinalize (w := w) o job file)
          have hstate := sendFinalize_state (w := w) o job file
          refine hafter.discharge (hstate ▸ hk) fun j f' _ _ hjid hfid _ => ?_
          rcases sendFinalize_books (w := w) hf with hs | hp
          · exact .inl (hfid ▸ hs)
          · refine .inr (.inl ?_)
            rwa [hjid, hfid]
      next =>
        have hkeep : Keeps o { o with state := o.state.updateFile job file finalizeTrivially } :=
          .updateFile job file (fun _ => rfl) fun f _ ho => by simp [isOpen_trivially] at ho
        have hk' : (o.state.updateFile job file finalizeTrivially).WellKeyed :=
          updateFile_by editable_keyed hk job file (fun _ => rfl) fun _ => rfl
        refine Tracked.keeps ((h.keeps hkeep).discharge hk' fun j f' hj hf' hjid hfid ho => ?_)
          (keeps_checkJobComplete _ _)
        -- the file is in place now
        have hfile : (Owner.file { o with state := o.state.updateFile job file finalizeTrivially }
            job file) = some (finalizeTrivially f) := by
          refine (file_of_updateFile (g := finalizeTrivially) fun _ => rfl).trans ?_
          rw [hf]
          rfl
        obtain rfl := Option.some.inj (hfile.symm.trans hf')
        simp [isOpen_trivially] at ho

/-- Keys are distinct and open files are on the books, some apart. -/
structure Orderly (E : List (JobId × FileId)) (o : Owner) : Prop where
  keyed : o.state.WellKeyed
  tracked : Tracked E o

namespace Orderly

theorem keeps (h : Orderly E o) (hk : o'.state.WellKeyed) (hkeep : Keeps o o') : Orderly E o' :=
  ⟨hk, h.tracked.keeps hkeep⟩

theorem edit (h : Orderly E o) (hs : StateBy (· = ·) o.state o'.state) (hkeep : Keeps o o') :
    Orderly E o' := h.keeps (hs.wellKeyed h.keyed) hkeep

theorem congr (h : Orderly E o) (hs : o'.state = o.state) (hb : SameBooks o o') : Orderly E o' :=
  h.keeps (hs ▸ h.keyed) (.beside (by rw [hs]) hb)

theorem mono {E' : List (JobId × FileId)} (h : Orderly E o) (hsub : E ⊆ E') : Orderly E' o :=
  ⟨h.keyed, h.tracked.mono hsub⟩

theorem saveSnapshot (h : Orderly E o) : Orderly E (o.saveSnapshot w) :=
  h.keeps (saveSnapshot_state (w := w) o ▸ h.keyed) (keeps_saveSnapshot o)

theorem saveSnapshotResult (h : Orderly E o) : Orderly E (o.saveSnapshotResult w).2 := h.saveSnapshot

theorem recomputeTotals (h : Orderly E o) (id : JobId) : Orderly E (o.recomputeTotals id) :=
  h.keeps (recomputeTotals_by editable_keyed (.start h.keyed) id).state
    (.updateJob_same id (fun _ => rfl) (fun _ => rfl) fun _ => rfl)

theorem dropAttempt (h : Orderly E o) (r : SegRef) : Orderly E (o.dropAttempt r) :=
  h.congr rfl ⟨rfl, rfl, rfl⟩

theorem sendFinalize (h : Orderly E o) (job : JobId) (file : FileId) :
    Orderly E (o.sendFinalize w job file) :=
  h.keeps (sendFinalize_state (w := w) o job file ▸ h.keyed) (keeps_sendFinalize o job file)

theorem checkJobComplete (h : Orderly E o) (id : JobId) : Orderly E (o.checkJobComplete w id) :=
  h.keeps (checkJobComplete_by editable_keyed (.start h.keyed) id).state (keeps_checkJobComplete o id)

theorem setSegment (h : Orderly E o) (r : SegRef) (st : SegmentState) :
    Orderly ((r.job, r.file) :: E) (o.setSegment r st) := by
  have hset : Holds (StateBy (fun _ _ => True) o.state) o.log (o.setSegment r st) :=
    setSegment_by chains_true (.start (.refl chains_true o.state)) r fun _ _ => trivial
  exact ⟨hset.state.wellKeyed h.keyed, h.tracked.updateSegment r _⟩

theorem afterFileChange (h : Orderly ((job, file) :: E) o) :
    Orderly E (o.afterFileChange w job file) :=
  ⟨(afterFileChange_by editable_keyed (.start h.keyed) job file).state,
    h.tracked.afterFileChange h.keyed⟩

theorem failAll (ns : List Nat) (h : Orderly ((job, file) :: E) o) :
    Orderly ((job, file) :: E) (ns.foldl (fun o n =>
      (o.setSegment ⟨job, file, n⟩ .failed).dropAttempt ⟨job, file, n⟩) o) := by
  refine foldlRecOn (motive := Orderly ((job, file) :: E)) _ _ h fun o ho n _ => ?_
  refine ((ho.setSegment ⟨job, file, n⟩ .failed).dropAttempt _).mono fun p hp => ?_
  rcases mem_cons.mp hp with rfl | hp
  · exact mem_cons_self
  · exact hp

theorem abortFile (h : Orderly E o) (job : JobId) (p : FileId × List Nat) :
    Orderly E (o.abortFile w job p) :=
  ((failAll p.2 (h.mono (subset_cons_self _ _))).recomputeTotals job).afterFileChange

theorem maybeAbortUnhealthy (h : Orderly E o) (id : JobId) :
    Orderly E (o.maybeAbortUnhealthy w id) := by
  unfold Owner.maybeAbortUnhealthy
  split
  · exact h
  · split
    · exact h
    · split
      · exact foldlRecOn (motive := Orderly E) _ _ h fun o ho p _ => ho.abortFile id p
      · exact h

theorem failSegment (h : Orderly E o) (r : SegRef) : Orderly E (o.failSegment w r) := by
  unfold Owner.failSegment
  split
  · exact h
  · split
    · exact h
    · have hfailed := ((h.setSegment r .failed).dropAttempt r).recomputeTotals r.job
      exact hfailed.afterFileChange.maybeAbortUnhealthy r.job

theorem failWholeFile (h : Orderly E o) (job : JobId) (file : FileId) :
    Orderly E (o.failWholeFile w job file) := by
  unfold Owner.failWholeFile
  split
  · exact h
  · exact foldlRecOn (motive := Orderly E) _ _ h fun o ho r _ => ho.failSegment r

end Orderly

/-! ### Work and its outcomes -/

theorem isOpen_updateSegment {f : FileEntry} {n : Nat} {g : Segment → Segment}
    (hg : ∀ x, f.segment n = some x → (g x).state.isTerminal = false ∨ g x = x)
    (h : isOpen (f.updateSegment n g) = true) : isOpen f = true := by
  cases hx : f.segment n with
  | none =>
    have hsame : f.updateSegment n g = f := by
      rw [FileEntry.updateSegment, modifyFirst_of_find?_eq_none hx]
    rwa [hsame] at h
  | some x =>
    obtain ⟨pre, post, hl, hmod, -, -⟩ := modifyFirst_split (f := g) hx
    rcases hg x hx with hterm | hsame
    · have hno : (f.updateSegment n g).isTerminal = false := by
        rw [FileEntry.isTerminal, FileEntry.updateSegment, hmod]
        simp [hterm]
      simp [isOpen, hno] at h
    · have heq : f.updateSegment n g = f := by
        rw [FileEntry.updateSegment, hmod, hsame, ← hl]
      rwa [heq] at h

theorem keeps_updateSegment {r : SegRef} {g : Segment → Segment}
    (hg : ∀ x, (g x).state.isTerminal = false ∨ g x = x) :
    Keeps o { o with state := o.state.updateSegment r g } :=
  .updateFile r.job r.file (fun _ => rfl) fun _ _ => isOpen_updateSegment fun x _ => hg x

variable (server : ServerId)

theorem Orderly.applyLease (h : Orderly E o) (r : SegRef) :
    Orderly E (o.applyLease w server r) := by
  have hset : Holds (StateBy (fun _ _ => True) o.state) o.log (o.applyLease w server r) :=
    applyLease_by chains_true (.start (.refl chains_true o.state)) fun _ _ => trivial
  refine h.keeps (hset.state.wellKeyed h.keyed) ?_
  have hlease : Keeps o (o.setSegment r (.leased server)) := keeps_updateSegment fun _ => .inl rfl
  have hwriter : Keeps (o.setSegment r (.leased server))
      ((o.setSegment r (.leased server)).writerFor w r.job r.file) :=
    .beside (by rw [writerFor_state]) (writerFor_books _ r.job r.file)
  have hmark : ∀ o : Owner, Keeps o (o.updateJob r.job markDownloading) := by
    intro o
    refine .updateJob r.job (fun j => ?_) (fun j => ?_) fun j _ _ hs => ?_
    · unfold markDownloading; split <;> rfl
    · unfold markDownloading; split <;> rfl
    · unfold markDownloading
      split
      next hq => rw [hq] at hs; nomatch hs
      next => exact hs
  exact ((hlease.trans hwriter).trans (hmark _)).trans
    (.beside rfl ⟨rfl, rfl, rfl⟩)

theorem Orderly.failExhausted (h : Orderly E o) :
    Orderly E (o.failExhausted w server) :=
  List.foldlRecOn (motive := Orderly E) _ _ (h.congr rfl ⟨rfl, rfl, rfl⟩) fun _ ho r _ =>
    ho.failSegment r

theorem Orderly.grantRounds (n : Nat) (h : Orderly E o) :
    Orderly E (grantRounds w server n o).2 := by
  induction n generalizing o with
  | zero => exact h
  | succ n ih =>
    have hfail := h.failExhausted (w := w) server
    rw [grantRounds]
    dsimp only
    split
    · exact hfail
    next r _ =>
      split
      · exact hfail
      next granted hg =>
        obtain ⟨jobs, rfl⟩ := ensureAllocation_eq hg
        have hgranted : Orderly E { o.failExhausted w server with allocatedJobs := jobs } :=
          hfail.congr rfl ⟨rfl, rfl, rfl⟩
        split
        · exact hgranted
        · exact ih (hgranted.applyLease server r)

theorem Orderly.grantWork (h : Orderly E o) (n : Nat) :
    Orderly E (o.grantWork w server n).2 := by
  unfold Owner.grantWork
  split
  · exact h
  · exact h.grantRounds server n

theorem Orderly.onSegmentWritten (h : Orderly E o) (r : JournalRecord) :
    Orderly E (o.onSegmentWritten w r) := by
  have hsize : Orderly E { o with fileSizes := recordSize o.fileSizes r } :=
    h.congr rfl ⟨rfl, rfl, rfl⟩
  simp only [Owner.onSegmentWritten]
  split
  · exact hsize
  · split
    · exact hsize
    · have hset := hsize.setSegment r.segRef (.done r.offset r.len r.crc32)
      have hjournal : Orderly ((r.job, r.file) :: E) ((Owner.setSegment
          { o with fileSizes := recordSize o.fileSizes r } r.segRef
            (.done r.offset r.len r.crc32)).journal w r) := by
        unfold Owner.journal
        split
        · exact hset.congr rfl ⟨rfl, rfl, rfl⟩
        · exact hset
      exact ((hjournal.dropAttempt r.segRef).recomputeTotals r.job).afterFileChange

theorem Orderly.onSegmentFailed (h : Orderly E o) (r : SegRef) (server : ServerId)
    (outcome : AttemptOutcome) : Orderly E (o.onSegmentFailed w r server outcome) := by
  have hrelease : ∀ x : Segment, x.releaseLease.state.isTerminal = false ∨ x.releaseLease = x := by
    intro x
    unfold Segment.releaseLease
    split
    · exact .inl rfl
    · exact .inr rfl
  have hreleased : Orderly E { o with state := o.state.updateSegment r Segment.releaseLease } :=
    h.keeps ((releaseLease_fades o.state r).wellKeyed h.keyed) (keeps_updateSegment hrelease)
  simp only [Owner.onSegmentFailed]
  have hblocked : ∀ o' : Owner, o'.state = o.state.updateSegment r Segment.releaseLease →
      SameBooks o o' → Orderly E o' := fun o' hs hb => hreleased.congr hs hb
  split
  · refine Orderly.failSegment (hblocked _ ?_ ?_) r
    · split <;> rfl
    · split <;> exact ⟨rfl, rfl, rfl⟩
  · refine hblocked _ ?_ ?_
    · split <;> rfl
    · split <;> exact ⟨rfl, rfl, rfl⟩

theorem isOpen_finalizedAs (ok : Bool) (crc : Option (BitVec 32)) (f : FileEntry) :
    isOpen (finalizedAs ok crc f) = false := by
  simp [isOpen, finalizedAs]

theorem keeps_maybeLearnNameFrom (o : Owner) (job : JobId) : Keeps o (o.maybeLearnNameFrom job) := by
  simp only [maybeLearnNameFrom]
  split
  · exact .refl o
  · split
    · exact .beside rfl ⟨rfl, rfl, rfl⟩
    · exact .refl o

theorem Orderly.onWriterFinalized (h : Orderly [] o)
    (hown : ∀ j ∈ o.state.jobs, ∀ f ∈ j.files, f.id = file → j.id = job) (ok hasPath : Bool)
    (crc : Option (BitVec 32)) : Tracked [] (o.onWriterFinalized w job file ok hasPath crc) := by
  let off : Owner := { o with
    writers := o.writers.filter (· ≠ file)
    finalizeSent := o.finalizeSent.filter (· ≠ file)
    fileSizes := Function.update o.fileSizes file none }
  -- the file is off the books
  have hoff : Tracked [(job, file)] off := by
    intro j hj f hf ho hE
    have hne : f.id ≠ file := by
      intro hfid
      exact hE (mem_singleton.mpr (Prod.ext (hown j hj f hf hfid) hfid))
    rcases h.tracked j hj f hf ho not_mem_nil with hsent | hrest
    · exact .inl (mem_filter.mpr ⟨hsent, by simpa using hne⟩)
    · exact .inr hrest
  have hk := h.keyed
  simp only [Owner.onWriterFinalized]
  split
  next hnone => exact hoff.discharge hk fun j f _ hf => absurd (hnone.symm.trans hf) (by simp)
  next f hf =>
    have hkeep := Keeps.updateFile (o := off) job file (g := finalizedAs ok crc) (fun _ => rfl)
      fun f _ ho => by
        simp [isOpen_finalizedAs] at ho
    have hk' : (o.state.updateFile job file (finalizedAs ok crc)).WellKeyed :=
      updateFile_by editable_keyed hk job file (fun _ => rfl) fun _ => rfl
    -- and in place
    have hplaced := (hoff.keeps hkeep).discharge hk' fun j f' _ hf' _ _ ho => by
      rw [file_of_updateFile (o := off) (g := finalizedAs ok crc) fun _ => rfl,
        Option.map_eq_some_iff] at hf'
      obtain ⟨g, -, rfl⟩ := hf'
      simp [isOpen_finalizedAs] at ho
    refine Tracked.keeps ?_ (keeps_checkJobComplete _ job)
    split
    · refine Tracked.keeps (hplaced.keeps ?_) (keeps_maybeLearnNameFrom _ job)
      exact .beside rfl ⟨rfl, rfl, rfl⟩
    · exact hplaced.keeps (.beside rfl ⟨rfl, rfl, rfl⟩)

end Owner

end Nzbd.Engine
