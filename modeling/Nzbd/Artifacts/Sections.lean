import Nzbd.Artifacts.Staging

/-!
# What a section writes

A section writes rows of artifacts and at most one row of a recovery (`Section`).  The rows of
artifacts keep their files, and their holds too unless it is a receipt that is taken.  The row of
the recovery follows the one that was there (`Stays`) and is a row that there can be (`Sound`).
There is one such statement for each section (`Writes`).
-/

namespace Nzbd.Artifacts

/-! ### Rows of recoveries -/

/-- Cancelled, or claimed and to be cancelled again. -/
def Recovery.Closed (r : Recovery) : Prop :=
  r.state = .cancelled ∨ r.state = .cancelPending ∧ r.consumer.isSome

/-- What may become of a row. -/
structure Recovery.Stays (r r' : Recovery) : Prop where
  closed : r.Closed → r'.Closed
  claim : ∀ c, r.consumer = some c → r'.consumer = some c ∧ r'.importId = r.importId
  receipt : ∀ x, r.receipt = some x → r'.receipt = some x
  artifact : r'.artifact = r.artifact
  request : r'.request = r.request

/-! ### Rows of artifacts -/

/-- The row of a copy is that of a copy. -/
def Inventory.CopiesOnly (inv : Inventory) : Prop :=
  ∀ key a, inv.artifact key = some a → text "recovery-" <+: key →
    a.state = .recoveryStaged ∨ a.state = .recoveryImported

/-- The rows in `P` keep their files, and those in `Q` their holds. -/
structure Inventory.Keeps (P Q : Text → Prop) (inv inv' : Inventory) : Prop where
  rows : ∀ key a, P key → inv.artifact key = some a → ∃ a', inv'.artifact key = some a' ∧
    a'.files = a.files ∧ (Q key → a.hold.isSome → a'.hold.isSome)
  copies : inv.CopiesOnly → inv'.CopiesOnly

/-- One row of a recovery is written at most. -/
structure Inventory.Section (P Q : Text → Prop) (inv inv' : Inventory) (ro : Option Recovery) :
    Prop extends Inventory.Keeps P Q inv inv' where
  table : inv'.recoveries = ro.elim inv.recoveries (Table.put Recovery.id inv.recoveries)

namespace Inventory

variable {P Q : Text → Prop} {inv inv' inv'' : Inventory} {ro : Option Recovery} {a : Artifact}
  {r : Recovery}

@[simp] theorem perform_nil : inv.perform [] = inv := rfl

theorem perform_append (txs txs' : List Tx) :
    inv.perform (txs ++ txs') = (inv.perform txs).perform txs' := by
  simp only [perform, commit, List.take_length, List.flatten_append, List.foldl_append]

theorem perform_cons (tx : Tx) (txs : List Tx) :
    inv.perform (tx :: txs) = (inv.perform [tx]).perform txs := perform_append [tx] txs

@[simp] theorem perform_artifact : inv.perform [[.artifact a]] = inv.saveArtifact a := rfl

theorem perform_recovery : inv.perform [[.recovery r]] = inv.saveRecovery (keepCancelled inv r) :=
  rfl

theorem Keeps.refl : Keeps P Q inv inv :=
  ⟨fun _ a _ ha => ⟨a, ha, rfl, fun _ h => h⟩, id⟩

theorem Keeps.trans (h : Keeps P Q inv inv') (h' : Keeps P Q inv' inv'') :
    Keeps P Q inv inv'' where
  rows key a hP ha := by
    obtain ⟨a', ha', hfiles, hhold⟩ := h.rows key a hP ha
    obtain ⟨a'', ha'', hfiles', hhold'⟩ := h'.rows key a' hP ha'
    exact ⟨a'', ha'', hfiles'.trans hfiles, fun hQ h => hhold' hQ (hhold hQ h)⟩
  copies hc := h'.copies (h.copies hc)

theorem keeps_saveArtifact
    (hrow : ∀ b, P a.id → inv.artifact a.id = some b →
      a.files = b.files ∧ (Q a.id → b.hold.isSome → a.hold.isSome))
    (hcopy : inv.CopiesOnly → text "recovery-" <+: a.id →
      a.state = .recoveryStaged ∨ a.state = .recoveryImported) :
    Keeps P Q inv (inv.saveArtifact a) where
  rows key b hP hb := by
    by_cases hkey : a.id = key
    · subst hkey
      exact ⟨a, artifact_saveArtifact_self inv a, hrow b hP hb⟩
    · exact ⟨b, (artifact_saveArtifact_of_ne inv hkey).trans hb, rfl, fun _ h => h⟩
  copies hc key b hb hstart := by
    by_cases hkey : a.id = key
    · subst hkey
      rw [artifact_saveArtifact_self] at hb
      obtain rfl := Option.some.inj hb
      exact hcopy hc hstart
    · rw [artifact_saveArtifact_of_ne inv hkey] at hb
      exact hc key b hb hstart

theorem keeps_held {key : Text} {b : Artifact} (hb : inv.artifact key = some b) (hid : a.id = key)
    (hfiles : a.files = b.files) (hstate : a.state = b.state) (hhold : a.hold.isSome) :
    Keeps P Q inv (inv.saveArtifact a) := by
  subst hid
  refine keeps_saveArtifact (fun c _ hc => ?_) fun hcopies hstart => ?_
  · obtain rfl := Option.some.inj (hc.symm.trans hb)
    exact ⟨hfiles, fun _ _ => hhold⟩
  · rw [hstate]
    exact hcopies a.id b hb hstart

theorem Section.refl : Section P Q inv inv none := ⟨.refl, rfl⟩

theorem Section.artifact (h : Keeps P Q inv (inv.saveArtifact a)) :
    Section P Q inv (inv.perform [[.artifact a]]) none := ⟨h, rfl⟩

theorem Section.trans (h : Section P Q inv inv' none) (h' : Section P Q inv' inv'' ro) :
    Section P Q inv inv'' ro where
  toKeeps := h.toKeeps.trans h'.toKeeps
  table := by
    rw [h'.table, h.table]
    rfl

theorem Section.trans_same (h : Section P Q inv inv' ro) (h' : Section P Q inv' inv'' none) :
    Section P Q inv inv'' ro where
  toKeeps := h.toKeeps.trans h'.toKeeps
  table := h'.table.trans h.table

theorem Section.recovery : Section P Q inv (inv.saveRecovery r) (some r) where
  rows _ a _ ha := ⟨a, ha, rfl, fun _ h => h⟩
  copies h := h
  table := rfl

theorem Section.recovery_eq (h : Section P Q inv inv' ro) (id : Text) :
    inv'.recovery id = if ro.any (·.id = id) then ro else inv.recovery id := by
  rw [Inventory.recovery, h.table]
  cases ro with
  | none => rfl
  | some r =>
    by_cases hid : r.id = id
    · subst hid
      simpa using Table.get_put_self _ _
    · rw [if_neg (by simpa using hid)]
      exact Table.get_put_of_ne hid

theorem Section.same (h : Section P Q inv inv' none) : inv'.recovery = inv.recovery := by
  funext id
  simpa using h.recovery_eq id

/-! ### The sections -/

/-- The identifier of a directory that is registered is nobody's. -/
def Unknown (P : Text → Prop) (scratch : Except Error (Option Stray)) : Prop :=
  ∀ f, scratch = .ok (some f) → ¬P f.id ∧ ¬text "recovery-" <+: f.id

theorem section_discoverScratch {scratch : Except Error (Option Stray)} {now : Int}
    (h : Unknown P scratch) : Section P Q inv (inv.discoverScratch r scratch now).1 none := by
  unfold discoverScratch
  split
  · exact .refl
  · exact .refl
  · next f =>
    obtain ⟨hP, hstart⟩ := h f rfl
    simp only [discover]
    split_ifs with _ hactive
    · exact .refl
    · cases hactive
    · exact .artifact (keeps_saveArtifact (fun _ hp => absurd hp hP) fun _ hp => absurd hp hstart)

theorem section_holdForReview : Section P Q inv (inv.perform (inv.holdForReview r)) none := by
  have hone {inv : Inventory} {key hold : Text} {a : Artifact} (ha : inv.artifact key = some a) :
      Keeps P Q inv (inv.saveArtifact { a with hold := some hold, revision := a.revision + 1 }) := by
    have hid : a.id = key := Table.key_of_get ha
    exact keeps_held ha hid rfl rfl rfl
  unfold holdForReview
  cases ha : inv.artifact r.artifact with
  | none =>
    cases hb : inv.artifact (stagedKey r) with
    | none => exact .refl
    | some b => exact .artifact (hone hb)
  | some a =>
    cases hb : inv.artifact (stagedKey r) with
    | none => exact .artifact (hone ha)
    | some b =>
      rw [List.singleton_append, perform_cons]
      refine (Section.artifact (hone ha)).trans (.artifact ?_)
      rw [perform_artifact]
      have hbid : b.id = stagedKey r := Table.key_of_get hb
      by_cases hkey : a.id = stagedKey r
      · -- an artifact that is its own copy is held twice
        have hab : b = a := by
          rw [← hkey, Table.key_of_get ha, ha] at hb
          exact (Option.some.inj hb).symm
        subst hab
        exact keeps_held (artifact_saveArtifact_self inv _) rfl rfl rfl rfl
      · have hne : ({ a with
            hold := some (text "review: cancelled recovery")
            revision := a.revision + 1 } : Artifact).id ≠ stagedKey r := hkey
        exact keeps_held ((artifact_saveArtifact_of_ne inv hne).trans hb) hbid rfl rfl rfl

theorem section_registerPublication {seen : Seen} {now : Int}
    (hP : ∀ key, P key → ¬text "recovery-" <+: key) :
    Section P Q inv (inv.perform (inv.registerPublication r seen now)) none := by
  unfold registerPublication
  split_ifs
  · exact .refl
  · have hstart : text "recovery-" <+: stagedKey r := List.prefix_append _ _
    have hsidecar (sidecar : Sidecar) : Section P Q inv (inv.perform [[.sidecar sidecar]]) none :=
      ⟨⟨fun _ a _ ha => ⟨a, ha, rfl, fun _ h => h⟩, id⟩, rfl⟩
    rw [perform_cons]
    exact (hsidecar _).trans
      (.artifact (keeps_saveArtifact (fun _ hp => absurd hstart (hP _ hp)) fun _ _ => .inl rfl))

end Inventory

/-! ### What a row can be -/

namespace Recovery

/-- Nobody has claimed it while it is on its way; a receipt is the last word; and what is
published has all files that were selected. -/
structure Sound (r : Recovery) : Prop where
  unclaimed : r.consumer = none → r.receipt = none
  free : r.state ∈ [.staging, .publishing, .published, .failed] → r.consumer = none
  received : r.receipt.isSome → r.state ∈ [.imported, .partly, .cancelPending, .cancelled]
  whole : r.state ∈ [.publishing, .published, .claimed] → r.files.map (·.path) = r.paths

/-- The row of a call. -/
def Open (r : Recovery) : Prop :=
  r.state ∈ [.staging, .publishing, .cancelPending] ∧ r.consumer = none

variable {r r' r'' : Recovery}

theorem Stays.refl (r : Recovery) : r.Stays r :=
  ⟨fun h => h, fun _ h => ⟨h, rfl⟩, fun _ h => h, rfl, rfl⟩

theorem Stays.trans (h : r.Stays r') (h' : r'.Stays r'') : r.Stays r'' where
  closed hc := h'.closed (h.closed hc)
  claim c hc := by
    obtain ⟨hc', hi⟩ := h.claim c hc
    obtain ⟨hc'', hi'⟩ := h'.claim c hc'
    exact ⟨hc'', hi'.trans hi⟩
  receipt x hx := h'.receipt x (h.receipt x hx)
  artifact := h'.artifact.trans h.artifact
  request := h'.request.trans h.request

theorem stays_of_unclaimed (hsound : r.Sound) (hclosed : r.state ≠ .cancelled)
    (hconsumer : r.consumer = none) (hartifact : r'.artifact = r.artifact)
    (hrequest : r'.request = r.request) : r.Stays r' where
  closed hc := by
    rcases hc with hc | ⟨-, hc⟩
    · exact absurd hc hclosed
    · rw [hconsumer] at hc
      cases hc
  claim _ hc := by
    rw [hconsumer] at hc
    cases hc
  receipt _ hx := by
    rw [hsound.unclaimed hconsumer] at hx
    cases hx
  artifact := hartifact
  request := hrequest

theorem Open.not_cancelled (h : r.Open) : r.state ≠ .cancelled := by
  intro hc
  simp [Open, hc] at h

theorem stays_of_closed (hstate : r'.state = .cancelled ∨ r'.state = .cancelPending ∧
    r.consumer.isSome) (hconsumer : r'.consumer = r.consumer) (himport : r'.importId = r.importId)
    (hreceipt : r'.receipt = r.receipt) (hartifact : r'.artifact = r.artifact)
    (hrequest : r'.request = r.request) : r.Stays r' where
  closed _ := hstate.imp_right fun h => ⟨h.1, hconsumer ▸ h.2⟩
  claim _ hc := ⟨hconsumer.trans hc, himport⟩
  receipt _ hx := hreceipt.trans hx
  artifact := hartifact
  request := hrequest

end Recovery

namespace Inventory

variable {P Q : Text → Prop} {inv inv' inv'' : Inventory} {a : Artifact} {r : Recovery} {key : Text}

theorem id_of_recovery (h : inv.recovery key = some r) : r.id = key := Table.key_of_get h

theorem keepCancelled_of_state (h : r.state ≠ .staging) (h' : r.state ≠ .publishing) :
    keepCancelled inv r = r := if_neg fun hc => hc.2.elim h h'

theorem section_save (h : r.state ≠ .staging) (h' : r.state ≠ .publishing) :
    Section P Q inv (inv.perform [[.recovery r]]) (some r) := by
  rw [perform_recovery, keepCancelled_of_state h h']
  exact .recovery

/-- What a section does to the one row it may write; `ok` : what a row that is open becomes. -/
def Writes (P Q : Text → Prop) (inv inv' : Inventory) (r : Recovery) (ok : Recovery → Prop) :
    Prop :=
  ∃ ro, Section P Q inv inv' ro ∧
    ∀ r' ∈ ro, r'.id = r.id ∧ r'.Sound ∧ r.Stays r' ∧ (r.Open → ok r')

theorem writes_none {ok : Recovery → Prop} : Writes P Q inv inv r ok := ⟨none, .refl, fun _ h => by cases h⟩

theorem Writes.trans_same {ok : Recovery → Prop} (h : Writes P Q inv inv' r ok)
    (h' : Section P Q inv' inv'' none) : Writes P Q inv inv'' r ok := by
  obtain ⟨ro, hs, hro⟩ := h
  exact ⟨ro, hs.trans_same h', hro⟩

theorem Writes.keeps {ok : Recovery → Prop} (h : Writes P Q inv inv' r ok) : Keeps P Q inv inv' := by
  obtain ⟨_, hs, -⟩ := h
  exact hs.toKeeps

theorem writes_claim (hrow : inv.recovery key = some r) (hr : r.Sound)
    (consumer importId manifest : Text) :
    Writes P Q inv (inv.perform (inv.claimRecovery key consumer importId manifest)) r
      Recovery.Open := by
  simp only [claimRecovery, hrow]
  split_ifs with hmanifest hagain hstate
  · exact writes_none
  · obtain ⟨hconsumer, -, hstate⟩ := hagain
    have hne : r.state ≠ .staging ∧ r.state ≠ .publishing := by
      rcases hstate with h | h <;> simp [h]
    refine ⟨some r, section_save hne.1 hne.2, ?_⟩
    rintro r' ⟨⟩
    refine ⟨rfl, hr, .refl r, fun hopen => ?_⟩
    rw [hopen.2] at hconsumer
    cases hconsumer
  · exact writes_none
  · simp only [not_or, ne_eq, not_not, Option.not_isSome_iff_eq_none] at hstate
    obtain ⟨hstate, hconsumer⟩ := hstate
    refine ⟨_, section_save (by simp) (by simp), ?_⟩
    rintro r' ⟨⟩
    refine ⟨rfl, ⟨by simp, by simp, ?_, fun _ => hr.whole (by simp [hstate])⟩, ?_, ?_⟩
    · simp [hr.unclaimed hconsumer]
    · exact Recovery.stays_of_unclaimed hr (by simp [hstate]) hconsumer rfl rfl
    · exact fun h => by simp [Recovery.Open, hstate] at h

theorem sound_of_cancel (hr : r.Sound) (state : RecoveryState)
    (hstate : state ∈ [.cancelPending, .cancelled]) : ({ r with state := state } : Recovery).Sound where
  unclaimed := hr.unclaimed
  free h := by
    simp only [List.mem_cons, List.not_mem_nil, or_false] at hstate h
    rcases hstate with rfl | rfl <;> simp at h
  received _ := by
    simp only [List.mem_cons, List.not_mem_nil, or_false] at hstate ⊢
    exact .inr (.inr hstate)
  whole h := by
    simp only [List.mem_cons, List.not_mem_nil, or_false] at hstate h
    rcases hstate with rfl | rfl <;> simp at h

theorem writes_cancel (hrow : inv.recovery key = some r) (hr : r.Sound) (consumer : Option Text)
    (ack : Bool) :
    Writes P Q inv (inv.perform (inv.cancelRecovery key consumer ack)) r Recovery.Open := by
  simp only [cancelRecovery, hrow]
  split_ifs with hopen himported hclaimed hrefused
  · have hconsumer : r.consumer = none := by
      rcases hopen with h | h | h
      · exact hr.free (by simp [h])
      · exact hr.free (by simp [h])
      · exact h.2
    have hne : r.state ≠ .cancelled := by
      rcases hopen with h | h | h <;> simp [h]
    refine ⟨_, section_save (by simp) (by simp), ?_⟩
    rintro r' ⟨⟩
    exact ⟨rfl, sound_of_cancel hr _ (by simp),
      Recovery.stays_of_unclaimed hr hne hconsumer rfl rfl, fun _ => ⟨by simp, hconsumer⟩⟩
  · exact writes_none
  · refine ⟨_, section_save (by simp) (by simp), ?_⟩
    rintro r' ⟨⟩
    refine ⟨rfl, sound_of_cancel hr _ (by simp),
      Recovery.stays_of_closed (.inr ⟨rfl, hclaimed.1⟩) rfl rfl rfl rfl rfl, fun h => ?_⟩
    rw [h.2] at hclaimed
    simp at hclaimed
  · exact writes_none
  · rw [perform_append]
    refine ⟨_, section_holdForReview.trans (section_save (by simp) (by simp)), ?_⟩
    rintro r' ⟨⟩
    refine ⟨rfl, sound_of_cancel hr _ (by simp), Recovery.stays_of_closed (.inl rfl) rfl rfl rfl rfl rfl,
      fun h => absurd ?_ hopen⟩
    simpa [Recovery.Open, or_assoc, h.2] using h.1

theorem writes_resume (hr : r.Sound) {w : Answer} {now : Int}
    (hP : ∀ key, P key → ¬text "recovery-" <+: key) (hw : Unknown P w.scratch) :
    Writes P Q inv (inv.resumePublication r w now).1 r fun _ => True := by
  unfold resumePublication
  split_ifs with hpending hother
  · split
    · exact writes_none
    next a ha =>
    have haid : a.id = r.artifact := Table.key_of_get ha
    have hheld : Section P Q inv (inv.perform [[.artifact { a with
        hold := some (text "review: cancelled recovery")
        revision := a.revision + 1 }]]) none := .artifact (keeps_held ha haid rfl rfl rfl)
    rw [perform_cons]
    refine ⟨_, (hheld.trans (section_save ?_ ?_)).trans_same (section_discoverScratch hw), ?_⟩
    · simp
    · simp
    · rintro r' ⟨⟩
      exact ⟨rfl, sound_of_cancel hr _ (by simp),
        Recovery.stays_of_closed (.inl rfl) rfl rfl rfl rfl rfl, fun _ => trivial⟩
  · exact writes_none
  · have hstate : r.state = .staging ∨ r.state = .publishing := by tauto
    have hconsumer : r.consumer = none := hr.free (by rcases hstate with h | h <;> simp [h])
    have hstays (r' : Recovery) (hartifact : r'.artifact = r.artifact)
        (hrequest : r'.request = r.request) : r.Stays r' :=
      Recovery.stays_of_unclaimed hr (by rcases hstate with h | h <;> simp [h]) hconsumer hartifact
        hrequest
    have hreceipt : r.receipt = none := hr.unclaimed hconsumer
    cases hresumable : resumable r w with
    | ok seen =>
      have hpublishing : r.state = .publishing := by
        by_contra hne
        simp [resumable, hne] at hresumable
      refine ⟨_, (section_registerPublication hP).trans (section_save (by simp) (by simp)), ?_⟩
      rintro r' ⟨⟩
      refine ⟨rfl, ⟨hr.unclaimed, fun _ => hconsumer, fun h => ?_, fun _ => ?_⟩, hstays _ rfl rfl,
        fun _ => trivial⟩
      · rw [show r.receipt = none from hreceipt] at h
        cases h
      · exact hr.whole (by simp [hpublishing])
    | error e =>
      have hfound : Section P Q inv (inv.discoverScratch r w.scratch now).1 none :=
        section_discoverScratch hw
      simp only
      split_ifs
      · refine ⟨_, hfound.trans (section_save (by simp) (by simp)), ?_⟩
        rintro r' ⟨⟩
        refine ⟨rfl, ⟨hr.unclaimed, fun _ => hconsumer, fun h => ?_, by simp⟩, hstays _ rfl rfl,
          fun _ => trivial⟩
        rw [show r.receipt = none from hreceipt] at h
        cases h
      · exact ⟨none, hfound, fun _ h => by cases h⟩

theorem section_acknowledged {a b c : Artifact} (h : r.state ≠ .staging) (h' : r.state ≠ .publishing)
    (hcopy : text "recovery-" <+: a.id) (hstate : a.state = .recoveryImported)
    (hsource : ¬text "recovery-" <+: key) (hkey : b.id = key) (hc : inv.artifact key = some c)
    (hfiles : b.files = c.files) (hP : ∀ key, P key → ¬text "recovery-" <+: key) :
    Section P (· ≠ key) inv (inv.perform [[.artifact a, .recovery r, .artifact b]]) (some r) := by
  subst hkey
  have hsplit : inv.perform [[.artifact a, .recovery r, .artifact b]] =
      ((inv.perform [[.artifact a]]).perform [[.recovery r]]).perform [[.artifact b]] := rfl
  have hne : a.id ≠ b.id := fun he => hsource (he ▸ hcopy)
  rw [hsplit]
  refine ((Section.artifact (keeps_saveArtifact (fun _ hp => absurd hcopy (hP _ hp)) fun _ _ =>
    .inr hstate)).trans (section_save h h')).trans_same (.artifact (keeps_saveArtifact ?_ ?_))
  · intro d _ hd
    have hd : inv.artifact b.id = some d := (artifact_saveArtifact_of_ne inv hne).symm.trans hd
    obtain rfl := Option.some.inj (hc.symm.trans hd)
    exact ⟨hfiles, fun hq => absurd rfl hq⟩
  · exact fun _ hp => absurd hp hsource

theorem writes_receipt (hrow : inv.recovery key = some r)
    (hsource : ¬text "recovery-" <+: r.artifact) {consumer : Text} {x : Receipt} {now : Int}
    (hP : ∀ key, P key → ¬text "recovery-" <+: key) :
    Writes P (· ≠ r.artifact) inv (inv.perform (inv.recoveryReceipt key consumer x now)) r
      Recovery.Open := by
  simp only [recoveryReceipt, hrow]
  split
  · exact writes_none
  next a ha =>
  have haid : a.id = r.artifact := Table.key_of_get ha
  split_ifs with hrefused hcomplete
  · exact writes_none
  all_goals
    simp only [not_or, ne_eq, not_not, Option.not_isSome_iff_eq_none] at hrefused
    obtain ⟨hconsumer, -, -, hnone, hclaimed, -⟩ := hrefused
    have hlawful (state : RecoveryState) (hstate : state = .imported ∨ state = .partly) :
        ({ r with state := state, receipt := some x } : Recovery).Sound ∧
          r.Stays { r with state := state, receipt := some x } ∧
          (r.Open → ({ r with state := state, receipt := some x } : Recovery).Open) := by
      refine ⟨⟨fun h => ?_, fun h => ?_, fun _ => ?_, fun h => ?_⟩,
        ⟨fun hc => ?_, fun c hc => ⟨hc, rfl⟩, fun y hy => ?_, rfl, rfl⟩, fun h => ?_⟩
      · rw [show r.consumer = none from h] at hconsumer
        cases hconsumer
      · rcases hstate with rfl | rfl <;> simp at h
      · rcases hstate with rfl | rfl <;> simp
      · rcases hstate with rfl | rfl <;> simp at h
      · simp [Recovery.Closed, hclaimed] at hc
      · rw [hnone] at hy
        cases hy
      · simp [Recovery.Open, hclaimed] at h
  · split
    · exact writes_none
    next staged hstaged =>
    have hid : staged.id = stagedKey r := Table.key_of_get hstaged
    have hcopy : text "recovery-" <+: staged.id := hid ▸ List.prefix_append _ _
    have hbid : (receivedSource r a now).id = r.artifact := haid
    refine ⟨_, section_acknowledged ?_ ?_ ?_ rfl hsource hbid ha rfl hP, ?_⟩
    · simp
    · simp
    · exact hcopy
    · rintro r' ⟨⟩
      exact ⟨rfl, hlawful _ (.inl rfl)⟩
  · have hsplit : inv.perform [[.recovery { r with state := .partly, receipt := some x },
        .artifact a]] = (inv.perform [[.recovery { r with state := .partly, receipt := some x }]]).perform
          [[.artifact a]] := rfl
    rw [hsplit]
    refine ⟨_, (section_save (by simp) (by simp)).trans_same
      (.artifact (keeps_saveArtifact (fun b _ hb => ?_) fun _ hp => absurd hp (haid ▸ hsource))), ?_⟩
    · have hb : inv.artifact a.id = some b := hb
      rw [haid] at hb
      obtain rfl := Option.some.inj (ha.symm.trans hb)
      exact ⟨rfl, fun _ h => h⟩
    · rintro r' ⟨⟩
      exact ⟨rfl, hlawful _ (.inr rfl)⟩

end Inventory

end Nzbd.Artifacts
