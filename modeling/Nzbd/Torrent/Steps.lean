import Nzbd.Torrent.Owner

/-!
# What the steps of the owner are made of

A relation between two states of the owner holds of a step if it holds of the few
effects the step is made of (`Respects`): a command is offered, a snapshot is saved,
an entry is recorded, jobs are changed.  How a job may change is said by `T`, and
which commands may be asked for by `C`; what a step needs of the two is `Allows`.
-/

namespace Nzbd.Torrent

variable {w : World} {T : Job → Job → Prop} {C : BackendCommand → Prop} {R : Owner → Owner → Prop}
  {o o' : Owner}

/-- Beside the jobs, only what is known of the engine differs. -/
def Beside (o o' : Owner) : Prop :=
  ∃ jobs started progress charged facts, o' = { o with
    jobs := jobs, backendStarted := started, torrentProgress := progress
    charged := charged, facts := facts }

/-- Every job is one that was there, changed as `T` says. -/
def From (T : Job → Job → Prop) (jobs jobs' : List Job) : Prop := ∀ j' ∈ jobs', ∃ j ∈ jobs, T j j'

/-- The effects of a step are in the relation. -/
structure Respects (w : World) (T : Job → Job → Prop) (C : BackendCommand → Prop)
    (R : Owner → Owner → Prop) : Prop where
  same : ∀ j, T j j
  refl : ∀ o, R o o
  trans : ∀ {o o' o''}, R o o' → R o' o'' → R o o''
  beside : ∀ {o o'}, Beside o o' → From T o.jobs o'.jobs → R o o'
  /-- A job may be what it was. -/
  putBack : ∀ {o o' id j}, R o o' → o.job id = some j → R o (o'.updateJob id fun _ => j)
  enqueue : ∀ o {c}, C c → R o (o.enqueueBackendCommand w c).2
  persistThen : ∀ o {c}, C c → R o (o.persistThenCommand w c).2
  flush : ∀ o, R o (o.flushBackendCommands w)
  save : ∀ o, R o (o.saveSnapshot w).2
  record : ∀ o id at', R o (o.record w id at').2

/-- What a step needs of the relation, beside its effects. -/
def Allows (w : World) (T : Job → Job → Prop) (C : BackendCommand → Prop) (R : Owner → Owner → Prop) :
    Input → Prop
  | .pause id => C (.pause id) ∧ (∀ j, T j (Owner.pausedJob j)) ∧
      ∀ j : Job, ¬(j.kind = .torrent ∧ j.torrent.isSome) → T j { j with status := .paused }
  | .resume _ => (∀ j, T j (Owner.resumedJob w j)) ∧ ∀ j : Job, T j { j with status := .queued }
  | .delete id deleteFiles => (∀ path files roots, C (.remove id deleteFiles path files roots)) ∧
      ∀ j : Job, T j { j with torrent := j.torrent.map fun t =>
        { t with removalIntent := some deleteFiles } }
  | .setPriority id priority => C (.setPriority id priority) ∧ ∀ j : Job, T j { j with priority := priority }
  | .setUploadLimit limit => C (.setUploadLimit limit)
  | .setSpeedLimit limit => C (.setDownloadLimit limit) ∧ ∀ o l, R o { o with appliedTorrentLimit := l }
  | .flush => True
  | .foldProgress _ => ∀ j p, T j (Owner.foldSample j p).1
  | .foldFacts _ => (∀ roots j fact latest, T j (reconcileFact w roots j fact latest).1) ∧
      ∀ (j : Job) d, T j { j with torrent := j.torrent.map (Owner.confirm w d) }
  | .finalizeRemovals => True
  | .updateSeedPolicies => (∀ id, C (.pauseForSeedPolicy id)) ∧
      (∀ reason j, T j (Owner.seedPolicyPaused reason j)) ∧ (∀ clock j, T j (Owner.accrue w clock j)) ∧
      ∀ o jobs clock, From T o.jobs jobs → R o { o with jobs := jobs, seedClockUnix := clock }
  | .settleLabels _ => ∀ j : Job, T j { j with status := .queued }
  | .schedule _ _ => ∀ id, C (.start id) ∧ C (.pauseForScheduler id)
  | .holdStorage => ∀ id, C (.pauseForStorage id)
  | .releaseStorage => ∀ j, T j (Owner.releasedJob j)
  | .rebalance limit => C (.setDownloadLimit limit) ∧ ∀ o l, R o { o with appliedTorrentLimit := l }
  | .save => True

theorem from_modifyFirst (hT : ∀ j, T j j) {p : Job → Prop} [DecidablePred p] {f : Job → Job} {jobs : List Job}
    (hf : ∀ j, jobs.find? p = some j → T j (f j)) : From T jobs (jobs.modifyFirst p f) := by
  intro j' hj'
  rcases List.mem_modifyFirst hj' with hj' | ⟨j, hj, rfl⟩
  · exact ⟨j', hj', hT j'⟩
  · exact ⟨j, List.mem_of_find?_eq_some hj, hf j hj⟩

theorem from_subset (hT : ∀ j, T j j) {jobs jobs' : List Job} (h : ∀ j ∈ jobs', j ∈ jobs) : From T jobs jobs' :=
  fun j hj => ⟨j, h j hj, hT j⟩

theorem from_map {f : Job → Job} (hf : ∀ j, T j (f j)) (jobs : List Job) : From T jobs (jobs.map f) := by
  intro j' hj'
  obtain ⟨j, hj, rfl⟩ := List.mem_map.mp hj'
  exact ⟨j, hj, hf j⟩

namespace Respects

theorem foldl {β : Type*} (h : Respects w T C R) {f : Owner → β → Owner} (hf : ∀ o b, R o (f o b)) (l : List β)
    (o : Owner) : R o (l.foldl f o) := by
  induction l generalizing o with
  | nil => exact h.refl o
  | cons b l ih => exact h.trans (hf o b) (ih (f o b))

theorem still (h : Respects w T C R) (hb : Beside o o') (hjobs : o'.jobs = o.jobs) : R o o' :=
  h.beside hb (from_subset h.same fun _ hj => hjobs ▸ hj)

theorem updateJob (h : Respects w T C R) (o : Owner) (id : JobId) {f : Job → Job}
    (hf : ∀ j, o.job id = some j → T j (f j)) : R o (o.updateJob id f) :=
  h.beside ⟨_, _, _, _, _, rfl⟩ (from_modifyFirst h.same hf)

theorem persistIfOwner (h : Respects w T C R) (o : Owner) : R o (o.persistIfOwner w).2 := by
  simp only [Owner.persistIfOwner]
  split
  · exact h.save o
  · exact h.refl o

theorem requestChange (h : Respects w T C R) (o : Owner) (id : JobId) {f : Job → Job} (hf : ∀ j, T j (f j))
    {c : BackendCommand} (hc : C c) : R o (o.requestChange w id f c).2 := by
  have hcommand : R o ((o.updateJob id f).persistThenCommand w c).2 :=
    h.trans (h.updateJob o id fun j _ => hf j) (h.persistThen _ hc)
  simp only [Owner.requestChange]
  split
  · exact hcommand
  · split
    · next before hbefore => exact h.putBack hcommand hbefore
    · exact hcommand

theorem started (h : Respects w T C R) (o : Owner) {c : BackendCommand} (hc : C c)
    (f : List JobId → List JobId) :
    let r := o.enqueueBackendCommand w c
    R o (if r.1 then { r.2 with backendStarted := f r.2.backendStarted } else r.2) := by
  have henqueue := h.enqueue o hc
  intro r
  split
  · exact h.trans henqueue (h.still ⟨_, _, _, _, _, rfl⟩ rfl)
  · exact henqueue

theorem rebalance (h : Respects w T C R) (o : Owner) {limit : Option Nat} (hc : C (.setDownloadLimit limit))
    (hlimit : ∀ o l, R o { o with appliedTorrentLimit := l }) : R o (o.rebalanceDownloadBudget w limit) := by
  have henqueue := h.enqueue o hc
  simp only [Owner.rebalanceDownloadBudget]
  split
  · exact h.refl o
  · split
    · exact h.trans henqueue (hlimit _ _)
    · exact henqueue

theorem deleteJob (h : Respects w T C R) (o : Owner) (id : JobId) (deleteFiles : Bool) :
    R o (o.deleteJob w id deleteFiles).2 := by
  simp only [Owner.deleteJob]
  split
  · exact h.refl o
  · split
    · exact h.refl o
    · split
      · exact h.trans (h.beside ⟨_, _, _, _, _, rfl⟩ (from_subset h.same fun _ => List.mem_of_mem_eraseP))
          (h.save _)
      · exact h.refl o

theorem pause (h : Respects w T C R) (o : Owner) (id : JobId) (hi : Allows w T C R (.pause id)) :
    R o (o.pause w id).2 := by
  obtain ⟨hc, htorrent, hother⟩ := hi
  simp only [Owner.pause]
  split
  · exact h.refl o
  · next j hj =>
    split
    · exact h.refl o
    · split
      · exact h.requestChange o id htorrent hc
      · next hkind =>
        refine h.updateJob o id fun j' hj' => ?_
        obtain rfl := Option.some.inj (hj.symm.trans hj')
        exact hother j hkind

theorem resume (h : Respects w T C R) (o : Owner) (id : JobId) (hi : Allows w T C R (.resume id)) :
    R o (o.resume w id).2 := by
  obtain ⟨hresumed, hqueued⟩ := hi
  simp only [Owner.resume]
  split
  · exact h.refl o
  · next j hj =>
    have hsave : R o ((o.updateJob id (Owner.resumedJob w)).persistIfOwner w).2 :=
      h.trans (h.updateJob o id fun j _ => hresumed j) (h.persistIfOwner _)
    split
    · exact h.refl o
    · split
      · split
        · exact hsave
        · exact h.putBack hsave hj
      · exact h.updateJob o id fun j _ => hqueued j

theorem updateSeedPolicies (h : Respects w T C R) (o : Owner) (hi : Allows w T C R .updateSeedPolicies) :
    R o (o.updateSeedPolicies w) := by
  obtain ⟨hc, hpaused, haccrue, hclock⟩ := hi
  have hstep : ∀ (o : Owner) (r : JobId × TorrentStopReason), R o (o.pauseForSeedPolicy w r.1 r.2).2 := by
    intro o r
    simp only [Owner.pauseForSeedPolicy]
    split
    · exact h.refl o
    · exact h.requestChange o r.1 (hpaused r.2) (hc r.1)
  exact h.trans (hclock o _ _ (from_map (haccrue _) _)) (h.foldl hstep _ _)

theorem foldBackendProgress (h : Respects w T C R) (o : Owner) (hT : ∀ j p, T j (Owner.foldSample j p).1)
    (latest : List (JobId × TransferProgress)) : R o (o.foldBackendProgress latest) := by
  have hstep : ∀ (o : Owner) (s : JobId × TransferProgress), R o (o.foldProgress s) := by
    intro o s
    simp only [Owner.foldProgress]
    split
    · exact h.refl o
    · exact h.beside ⟨_, _, _, _, _, rfl⟩ (from_modifyFirst h.same fun j _ => hT j s.2)
  exact h.trans (h.foldl hstep latest o) (h.still ⟨_, _, _, _, _, rfl⟩ rfl)

theorem foldFact (h : Respects w T C R) (o : Owner) (fact : BackendFact)
    (hfact : ∀ j, o.job (factJob fact) = some j →
      T j (reconcileFact w o.torrentPayloadRoots j fact (o.torrentProgress (factJob fact))).1)
    (hconfirm : ∀ (j : Job) d, T j { j with torrent := j.torrent.map (Owner.confirm w d) }) :
    R o (o.foldFact w fact) := by
  have hstarted : R o { o with backendStarted := Owner.factStarted o.backendStarted fact } :=
    h.still ⟨_, _, _, _, _, rfl⟩ rfl
  have hreconcile : R { o with backendStarted := Owner.factStarted o.backendStarted fact }
      ({ o with backendStarted := Owner.factStarted o.backendStarted fact }.reconcile w fact) :=
    h.updateJob _ _ hfact
  have hconfirmed : ∀ (o : Owner) id d, R o (o.updateRecord id (Owner.confirm w d)) :=
    fun o id d => h.updateJob o id fun j _ => hconfirm j d
  refine h.trans hstarted ?_
  cases fact with
  | removed id outcome =>
    cases outcome with
    | dataDeleted => exact hconfirmed _ id .deleted
    | dataKept => exact hconfirmed _ id .retained
    | refusedUnsafeRoot => exact hreconcile
    | refusedInventoryMismatch => exact hreconcile
  | failed id error => exact h.trans (hreconcile) (hconfirmed _ id .retained)
  | metadataReady => exact hreconcile
  | ready => exact hreconcile
  | stopped => exact hreconcile
  | resumed => exact hreconcile

theorem finalizeRemovals (h : Respects w T C R) (o : Owner) : R o (o.finalizeConfirmedTorrentRemovals w) := by
  have hremoval : ∀ (o : Owner) (j : Job), R o (o.finalizeRemoval w j) := by
    intro o j
    simp only [Owner.finalizeRemoval]
    split
    · exact h.refl o
    · split
      · exact h.trans (h.record o _ _) (h.deleteJob _ _ _)
      · exact h.record o _ _
  simp only [Owner.finalizeConfirmedTorrentRemovals]
  split
  · exact h.refl o
  · split
    · exact h.trans (h.persistIfOwner o) (h.foldl hremoval _ _)
    · exact h.persistIfOwner o

/-- **What the effects respect, a step respects.** -/
theorem step (h : Respects w T C R) (o : Owner) {i : Input} (hi : Allows w T C R i) : R o (o.step w i) := by
  cases i with
  | pause id => exact h.pause o id hi
  | resume id => exact h.resume o id hi
  | delete id deleteFiles =>
    simp only [Owner.step, Owner.delete]
    split
    · exact h.requestChange o id hi.2 (hi.1 _ _ _)
    · exact h.deleteJob o id deleteFiles
  | setPriority id priority =>
    simp only [Owner.step, Owner.setPriority]
    split
    · exact h.refl o
    · split
      · exact h.requestChange o id hi.2 hi.1
      · exact h.updateJob o id fun j _ => hi.2 j
  | setUploadLimit limit => exact h.enqueue o hi
  | setSpeedLimit limit => exact h.trans (hi.2 o none) (h.rebalance _ hi.1 hi.2)
  | flush => exact h.flush o
  | foldProgress latest => exact h.foldBackendProgress o hi latest
  | foldFacts n =>
    have hdrop : R o { o with facts := o.facts.drop n } := h.still ⟨_, _, _, _, _, rfl⟩ rfl
    exact h.trans hdrop (h.foldl (fun o fact => h.foldFact o fact (fun j _ => hi.1 _ j fact _) hi.2) _ _)
  | finalizeRemovals => exact h.finalizeRemovals o
  | updateSeedPolicies => exact h.updateSeedPolicies o hi
  | settleLabels demoted =>
    refine h.foldl (fun o id => h.updateJob o id fun j _ => ?_) demoted o
    split
    · exact hi j
    · exact h.same j
  | schedule active walk =>
    have hstart : ∀ (o : Owner) (id : JobId), R o (o.startTorrent w id) := by
      intro o id
      simp only [Owner.startTorrent]
      split
      · exact h.refl o
      · exact h.started o (hi id).1 (id :: ·)
    exact h.trans (h.foldl hstart _ o) (h.foldl (fun o id => h.started o (hi id).2 (List.filter (· ≠ id))) _ _)
  | holdStorage => exact h.foldl (fun o id => h.started o (hi id) (List.filter (· ≠ id))) _ o
  | releaseStorage => exact h.beside ⟨_, _, _, _, _, rfl⟩ (from_map hi _)
  | rebalance limit => exact h.rebalance o hi.1 hi.2
  | save => exact h.save o

end Respects

end Nzbd.Torrent
