import Nzbd.Artifacts.Sections

/-!
# The invariant of a recovery

What is to hold of a recovery, whatever the order of the sections: what may become of its row
(`Preserves`) and what one step may do (`Exact`).  A run is `Careful` if nobody resumes the
publication of a recovery whose own call is under way.

* `Rows`: each row is sound, and its source is there with the files that were selected.
* `CallOk`: the row of a call is staging, publishing or to be cancelled, and unclaimed.

Every step but a receipt keeps that, and the holds of all sources: `after_step`.
-/

namespace Nzbd.Artifacts

open List Inventory

/-! ### What is to hold -/

def Inventory.Preserves (inv inv' : Inventory) : Prop :=
  ∀ id r, inv.recovery id = some r → ∃ r', inv'.recovery id = some r' ∧ r.Stays r'

/-- Every selected file has been imported, or was there. -/
def Receipt.Covers (x : Receipt) (r : Recovery) : Prop :=
  ∀ p ∈ r.paths, ∃ f ∈ r.files, f.path = p ∧ ∃ g ∈ x.files, g.id = f.id ∧ g.result.done = true

namespace Handover

/-- **What one step may do.** -/
structure Exact (s : Handover) (e : HandoverStep) (t : Handover) : Prop where
  /-- Only the call itself reports that it has failed. -/
  copying : ∀ id c r, s.running id = some c → t.inventory.recovery id = some r →
    r.state = .failed → ∃ scratch now, e = .finish id scratch now
  /-- A receipt is taken once. -/
  repeated : ∀ key consumer x now r, e = .receipt key consumer x now →
    s.inventory.recovery key = some r → r.receipt.isSome → t.inventory = s.inventory
  /-- A source is let go by a receipt for all that was selected. -/
  released : ∀ r ∈ s.inventory.recoveries, ∀ a a', s.inventory.artifact r.artifact = some a →
    t.inventory.artifact r.artifact = some a' → a.hold.isSome → a'.hold = none →
      ∃ key consumer x now row, e = .receipt key consumer x now ∧
        s.inventory.recovery key = some row ∧ row.artifact = r.artifact ∧ x.Covers row
  /-- No receipt makes a source expire that has files nobody has selected. -/
  unselected : ∀ key consumer x now r a a', e = .receipt key consumer x now →
    s.inventory.recovery key = some r → s.inventory.artifact r.artifact = some a →
    t.inventory.artifact r.artifact = some a' →
    (∃ f ∈ a.files, f.identity.directory = false ∧ f.path ∉ r.paths) →
    a'.eligible = true → a.eligible = true

structure Start (s : Handover) : Prop where
  recoveries : s.inventory.recoveries = []
  staged : ∀ a ∈ s.inventory.artifacts, ¬text "recovery-" <+: a.id
  running : ∀ id, s.running id = none

/-- The identifiers that are drawn have not been drawn before. -/
def Drawn (s : Handover) : HandoverStep → Prop
  | .stage _ _ _ _ _ _ id _ _ w _ =>
    s.inventory.recovery id = none ∧ ∀ f, w.scratch = .ok (some f) → New s.inventory f.id
  | .finish _ scratch _ => ∀ f, scratch = .ok (some f) → New s.inventory f.id
  | .reconcile answers _ =>
    ∀ r ∈ s.inventory.pending, ∀ f, (answers r.id).scratch = .ok (some f) → New s.inventory f.id
  | _ => True
where
  New (inv : Inventory) (id : Text) : Prop := ¬text "recovery-" <+: id ∧ inv.artifact id = none

def next (pathId : OsPath → Text) (s : Handover) (e : HandoverStep) (t : Handover) : Prop :=
  s.Drawn e ∧ s.step pathId e = some t

/-- **The condition on a step.**  What is resumed is not the recovery of a call that is under
way. -/
def Careful (s : Handover) : HandoverStep → Prop
  | .stage key revision requestId paths root _ _ _ _ _ _ =>
    ∀ r, s.inventory.recoveries.find? (·.requestId = requestId) = some r →
      r.request = (key, revision, paths, root) → s.running r.id = none
  | .reconcile _ _ => ∀ r ∈ s.inventory.pending, s.running r.id = none
  | _ => True

end Handover

/-! ### The invariant -/

/-- What has been selected is there, each file once. -/
def Selected (files : List FileEntry) (paths : List OsPath) : Prop :=
  paths.Nodup ∧ ∀ p ∈ paths, ∃ f ∈ files, f.path = p ∧ f.identity.directory = false

namespace Inventory

/-- Every row is sound, and its source is in `P`. -/
structure Rows (P : Text → Prop) (inv : Inventory) : Prop where
  keys : (inv.recoveries.map Recovery.id).Nodup
  copies : inv.CopiesOnly
  sound : ∀ id r, inv.recovery id = some r → r.Sound
  source : ∀ id r, inv.recovery id = some r → P r.artifact ∧
    ∃ a, inv.artifact r.artifact = some a ∧ Selected a.files r.paths

variable {P P' Q : Text → Prop} {inv inv' inv'' : Inventory} {ro : Option Recovery} {r : Recovery}
  {key : Text}

theorem Rows.mono (h : Rows P inv) (hP : ∀ id r, inv.recovery id = some r → P r.artifact →
    P' r.artifact) : Rows P' inv where
  keys := h.keys
  copies := h.copies
  sound := h.sound
  source id r hr := (h.source id r hr).imp_left (hP id r hr)

theorem Preserves.refl (inv : Inventory) : inv.Preserves inv := fun _ r hr => ⟨r, hr, .refl r⟩

theorem Preserves.trans (h : inv.Preserves inv') (h' : inv'.Preserves inv'') :
    inv.Preserves inv'' := by
  intro id r hr
  obtain ⟨r', hr', hstays⟩ := h id r hr
  obtain ⟨r'', hr'', hstays'⟩ := h' id r' hr'
  exact ⟨r'', hr'', hstays.trans hstays'⟩

/-- A row that is written is sound, has its source, and follows the one that was there. -/
structure Lawful (P : Text → Prop) (inv inv' : Inventory) (r' : Recovery) : Prop where
  sound : r'.Sound
  source : P r'.artifact ∧ ∃ a, inv'.artifact r'.artifact = some a ∧ Selected a.files r'.paths
  follows : ∀ r, inv.recovery r'.id = some r → r.Stays r'

theorem Section.row (h : Section P Q inv inv' ro) {id : Text} {r' : Recovery}
    (hr' : inv'.recovery id = some r') : (r' ∈ ro ∧ r'.id = id) ∨ inv.recovery id = some r' := by
  have hid : r'.id = id := id_of_recovery hr'
  rw [h.recovery_eq id] at hr'
  split_ifs at hr'
  · exact .inl ⟨hr', hid⟩
  · exact .inr hr'

theorem Rows.section (h : Rows P inv) (hs : Section P Q inv inv' ro)
    (hro : ∀ r' ∈ ro, Lawful P inv inv' r') : Rows P inv' ∧ inv.Preserves inv' := by
  have hsource : ∀ id r, inv.recovery id = some r → P r.artifact ∧
      ∃ a, inv'.artifact r.artifact = some a ∧ Selected a.files r.paths := by
    intro id r hr
    obtain ⟨hP, a, ha, hselected⟩ := h.source id r hr
    obtain ⟨a', ha', hfiles, -⟩ := hs.rows _ a hP ha
    exact ⟨hP, a', ha', hfiles ▸ hselected⟩
  refine ⟨⟨?_, hs.copies h.copies, fun id r' hr' => ?_, fun id r' hr' => ?_⟩, fun id r hr => ?_⟩
  · rw [hs.table]
    cases ro with
    | none => exact h.keys
    | some r' => exact Table.nodup_put h.keys
  · rcases hs.row hr' with ⟨hmem, -⟩ | hr
    · exact (hro r' hmem).sound
    · exact h.sound id r' hr
  · rcases hs.row hr' with ⟨hmem, -⟩ | hr
    · exact (hro r' hmem).source
    · exact hsource id r' hr
  · rw [hs.recovery_eq id]
    cases ro with
    | none => exact ⟨r, hr, .refl r⟩
    | some r' =>
      by_cases hid : r'.id = id
      · subst hid
        exact ⟨r', by simp, (hro r' rfl).follows r hr⟩
      · exact ⟨r, by simpa [hid] using hr, .refl r⟩

theorem Rows.writes (h : Rows P inv) (hrow : inv.recovery key = some r) {ok : Recovery → Prop}
    (hw : Writes P Q inv inv' r ok) : Rows P inv' ∧ inv.Preserves inv' := by
  obtain ⟨ro, hs, hro⟩ := hw
  have hid := id_of_recovery hrow
  refine h.section hs fun r' hr' => ?_
  obtain ⟨hid', hsound, hstays, -⟩ := hro r' hr'
  obtain ⟨hP, a, ha, hselected⟩ := h.source key r hrow
  obtain ⟨a', ha', hfiles, -⟩ := hs.rows _ a hP ha
  refine ⟨hsound, ?_, fun r₀ hr₀ => ?_⟩
  · rw [Recovery.paths, hstays.request, hstays.artifact]
    exact ⟨hP, a', ha', hfiles ▸ hselected⟩
  · rw [hid', hid, hrow] at hr₀
    exact Option.some.inj hr₀ ▸ hstays

theorem Rows.resumeAll (h : Rows P inv) (hP : ∀ key, P key → ¬text "recovery-" <+: key)
    {answers : Text → Answer} {now : Int} {rs : List Recovery}
    (hrs : ∀ r ∈ rs, inv.recovery r.id = some r) (hkeys : (rs.map Recovery.id).Nodup)
    (hw : ∀ r ∈ rs, Unknown P (answers r.id).scratch) :
    Rows P (inv.resumeAll answers now rs) ∧
      Keeps P (fun _ => True) inv (inv.resumeAll answers now rs) ∧
      inv.Preserves (inv.resumeAll answers now rs) ∧
      ∀ id ∉ rs.map Recovery.id, (inv.resumeAll answers now rs).recovery id = inv.recovery id := by
  induction rs generalizing inv with
  | nil => exact ⟨h, .refl, .refl inv, fun _ _ => rfl⟩
  | cons r rs ih =>
    have hrow := hrs r mem_cons_self
    have hone : Writes P (fun _ => True) inv (inv.resumePublication r (answers r.id) now).1 r
        fun _ => True := writes_resume (h.sound _ r hrow) hP (hw r mem_cons_self)
    obtain ⟨hrows, hpreserves⟩ := h.writes hrow hone
    obtain ⟨ro, hs, hro⟩ := hone
    have hothers : ∀ id ≠ r.id,
        (inv.resumePublication r (answers r.id) now).1.recovery id = inv.recovery id := by
      intro id hne
      rw [hs.recovery_eq id]
      refine if_neg fun hany => ?_
      obtain ⟨r', hr', hid⟩ := Option.any_eq_true _ _ |>.mp hany
      exact hne ((of_decide_eq_true hid).symm.trans (hro r' hr').1)
    rw [map_cons, nodup_cons] at hkeys
    simp only [resumeAll]
    split_ifs
    · have hrest : ∀ r' ∈ rs,
          (inv.resumePublication r (answers r.id) now).1.recovery r'.id = some r' := by
        intro r' hr'
        rw [hothers _ fun he => hkeys.1 (he ▸ mem_map_of_mem hr')]
        exact hrs r' (mem_cons_of_mem r hr')
      obtain ⟨hrows, hkeeps, hpreserves', hsame⟩ := ih hrows hrest hkeys.2
        fun r' hr' => hw r' (mem_cons_of_mem r hr')
      refine ⟨hrows, hs.toKeeps.trans hkeeps, hpreserves.trans hpreserves', fun id hid => ?_⟩
      rw [map_cons, mem_cons, not_or] at hid
      exact (hsame id hid.2).trans (hothers id hid.1)
    · refine ⟨hrows, hs.toKeeps, hpreserves, fun id hid => hothers id fun he => hid ?_⟩
      exact he ▸ mem_cons_self

end Inventory

namespace Handover

/-- A call between its sections, and its row. -/
structure CallOk (inv : Inventory) (id : Text) (c : Staging) : Prop where
  row : ∃ row, inv.recovery id = some row ∧ row.Open ∧ row.artifact = c.r.artifact ∧
    row.request = c.r.request
  key : c.r.id = id
  consumer : c.r.consumer = none
  receipt : c.r.receipt = none
  phase : match c.phase with
    | .ended none => c.r.files.map (·.path) = c.r.paths
    | .ended (some _) => True
    | _ => c.r.state = .staging ∧ c.r.files.map (·.path) ++ c.selected.map (·.path) = c.r.paths

structure Inv (s : Handover) : Prop where
  rows : s.inventory.Rows fun key => ¬text "recovery-" <+: key
  calls : ∀ id c, s.running id = some c → CallOk s.inventory id c

/-- Sources there may be. -/
def Known (inv : Inventory) (key : Text) : Prop :=
  ¬text "recovery-" <+: key ∧ (inv.artifact key).isSome

theorem Inv.known {s : Handover} (h : s.Inv) : s.inventory.Rows (Known s.inventory) :=
  h.rows.mono fun id r hr hstart => by
    obtain ⟨-, a, ha, -⟩ := h.rows.source id r hr
    exact ⟨hstart, ha ▸ rfl⟩

variable {inv : Inventory}

theorem unknown_of_new {scratch : Except Error (Option Stray)}
    (h : ∀ f, scratch = .ok (some f) → Drawn.New inv f.id) :
    Inventory.Unknown (Known inv) scratch := by
  intro f hf
  obtain ⟨hstart, hnone⟩ := h f hf
  refine ⟨fun hk => ?_, hstart⟩
  have := hk.2
  rw [hnone] at this
  cases this

variable {P Q : Text → Prop} {pathId : OsPath → Text} {s t : Handover} {inv' : Inventory}
  {id key : Text} {c : Staging} {r : Recovery} {e : HandoverStep}

@[simp] theorem running_call (co : Option Staging) : (s.call id co).running id = co :=
  Function.update_self ..

theorem running_call_of_ne {id' : Text} (h : id' ≠ id) (co : Option Staging) :
    (s.call id co).running id' = s.running id' := Function.update_of_ne h ..

theorem CallOk.of_same (h : CallOk inv id c)
    (hsame : inv'.recovery id = inv.recovery id) : CallOk inv' id c :=
  { h with row := hsame ▸ h.row }

theorem CallOk.of_writes (h : CallOk inv id c) (hrow : inv.recovery key = some r)
    (hw : Inventory.Writes P Q inv inv' r Recovery.Open) : CallOk inv' id c := by
  obtain ⟨ro, hs, hro⟩ := hw
  have hkey : r.id = key := id_of_recovery hrow
  cases ro with
  | none => exact h.of_same (congrFun hs.same id)
  | some r' =>
    obtain ⟨hid, -, hstays, hopen⟩ := hro r' rfl
    by_cases hk : r'.id = id
    · obtain ⟨row, hrow', hrowOpen, hartifact, hrequest⟩ := h.row
      rw [← hk, hid, hkey, hrow] at hrow'
      obtain rfl := Option.some.inj hrow'
      refine { h with row := ⟨r', ?_, hopen hrowOpen, hstays.artifact.trans hartifact,
        hstays.request.trans hrequest⟩ }
      rw [hs.recovery_eq id]
      simp [hk]
    · refine h.of_same ?_
      rw [hs.recovery_eq id]
      simp [hk]

theorem Inv.others (h : s.Inv) (hrow : s.inventory.recovery key = some r)
    (hw : Inventory.Writes (Known s.inventory) Q s.inventory inv' r Recovery.Open) :
    ({ s with inventory := inv' } : Handover).Inv ∧ s.inventory.Preserves inv' := by
  obtain ⟨hrows, hpreserves⟩ := h.known.writes hrow hw
  refine ⟨⟨hrows.mono fun _ _ _ hk => hk.1, fun id c hc => ?_⟩, hpreserves⟩
  exact (h.calls id c hc).of_writes hrow hw

theorem Inv.own (h : s.Inv) (hrow : s.inventory.recovery id = some r) {ok : Recovery → Prop}
    (hw : Inventory.Writes (Known s.inventory) Q s.inventory inv' r ok) {co : Option Staging}
    (hco : ∀ c ∈ co, CallOk inv' id c) :
    (({ s with inventory := inv' } : Handover).call id co).Inv ∧ s.inventory.Preserves inv' := by
  obtain ⟨hrows, hpreserves⟩ := h.known.writes hrow hw
  refine ⟨⟨hrows.mono fun _ _ _ hk => hk.1, fun id' c hc => ?_⟩, hpreserves⟩
  by_cases hid : id' = id
  · subst hid
    rw [running_call] at hc
    exact hco c hc
  · rw [running_call_of_ne hid] at hc
    refine (h.calls id' c hc).of_same ?_
    obtain ⟨ro, hs, hro⟩ := hw
    refine (hs.recovery_eq id').trans (if_neg fun hany => ?_)
    obtain ⟨r', hr', hk⟩ := (Option.any_eq_true _ _).mp hany
    exact hid ((of_decide_eq_true hk).symm.trans
      ((hro r' hr').1.trans (id_of_recovery hrow)))

theorem Inv.call (h : s.Inv) {co : Option Staging} (hco : ∀ c ∈ co, CallOk s.inventory id c) :
    (s.call id co).Inv where
  rows := h.rows
  calls id' c hc := by
    by_cases hid : id' = id
    · subst hid
      rw [running_call] at hc
      exact hco c hc
    · rw [running_call_of_ne hid] at hc
      exact h.calls id' c hc

theorem CallOk.writes (h : CallOk inv id c) {row r' : Recovery}
    (hsound : row.Sound) (hrow : inv.recovery id = some row) (hid : r'.id = c.r.id)
    (hartifact : r'.artifact = c.r.artifact) (hrequest : r'.request = c.r.request)
    (hconsumer : r'.consumer = none) (hreceipt : r'.receipt = none)
    (hstate : r'.state = .staging ∨ r'.state = .publishing ∧ r'.files.map (·.path) = r'.paths) :
    Inventory.Writes P Q inv (inv.perform [[.recovery r']]) row Recovery.Open := by
  obtain ⟨row₀, hrow₀, hopen, hrowArtifact, hrowRequest⟩ := h.row
  obtain rfl := Option.some.inj (hrow.symm.trans hrow₀)
  have hlawful (r'' : Recovery) (hsame : r''.id = r'.id ∧ r''.artifact = r'.artifact ∧
      r''.request = r'.request ∧ r''.consumer = r'.consumer ∧ r''.receipt = r'.receipt ∧
      r''.files = r'.files) (hstate : r''.state = .staging ∨ r''.state = .cancelPending ∨
        r''.state = .publishing ∧ r''.files.map (·.path) = r''.paths) :
      r''.id = row.id ∧ r''.Sound ∧ row.Stays r'' ∧ (row.Open → r''.Open) := by
    obtain ⟨hid', hartifact', hrequest', hconsumer', hreceipt', -⟩ := hsame
    have hnone : r''.consumer = none := hconsumer'.trans hconsumer
    refine ⟨?_, ⟨fun _ => hreceipt'.trans hreceipt, fun _ => hnone, fun hx => ?_, fun hw => ?_⟩,
      ?_, fun _ => ⟨?_, hnone⟩⟩
    · rw [hid', hid, h.key, id_of_recovery hrow]
    · rw [hreceipt'.trans hreceipt] at hx
      cases hx
    · rcases hstate with hst | hst | ⟨-, hfiles⟩
      · simp [hst] at hw
      · simp [hst] at hw
      · exact hfiles
    · exact Recovery.stays_of_unclaimed hsound hopen.not_cancelled hopen.2
        (hartifact'.trans (hartifact.trans hrowArtifact.symm))
        (hrequest'.trans (hrequest.trans hrowRequest.symm))
    · rcases hstate with hst | hst | ⟨hst, -⟩ <;> simp [hst]
  refine ⟨_, perform_recovery ▸ Inventory.Section.recovery, ?_⟩
  rintro r'' ⟨⟩
  unfold keepCancelled
  split_ifs
  · exact hlawful _ ⟨rfl, rfl, rfl, rfl, rfl, rfl⟩ (.inr (.inl rfl))
  · exact hlawful _ ⟨rfl, rfl, rfl, rfl, rfl, rfl⟩ (hstate.imp_right .inr)

/-! ### Steps -/

/-- The invariant, the rows of recoveries and those of sources after a step. -/
structure After (s t : Handover) : Prop where
  inv : t.Inv
  preserves : s.inventory.Preserves t.inventory
  keeps : Inventory.Keeps (Known s.inventory) (fun _ => True) s.inventory t.inventory

theorem After.call (h : s.Inv) {co : Option Staging}
    (hco : ∀ c ∈ co, CallOk s.inventory id c) : After s (s.call id co) :=
  ⟨h.call hco, .refl _, .refl⟩

theorem after_reconcile (h : s.Inv) {answers : Text → Answer} {now : Int}
    (hdrawn : s.Drawn (.reconcile answers now)) (hok : s.Careful (.reconcile answers now)) :
    After s { s with inventory := s.inventory.reconcileRecoveries answers now } := by
  have hsub : s.inventory.pending.Sublist s.inventory.recoveries :=
    (take_sublist _ _).trans filter_sublist
  have hrow : ∀ r ∈ s.inventory.pending, s.inventory.recovery r.id = some r := fun r hr =>
    Table.get_of_mem h.rows.keys (hsub.subset hr)
  obtain ⟨hrows, hkeeps, hpreserves, hsame⟩ := h.known.resumeAll (fun _ hk => hk.1) hrow
    (h.rows.keys.sublist (hsub.map _)) fun r hr => unknown_of_new (hdrawn r hr)
  refine ⟨⟨hrows.mono fun _ _ _ hk => hk.1, fun id c hc => ?_⟩, hpreserves, hkeeps⟩
  refine (h.calls id c hc).of_same (hsame id fun hmem => ?_)
  obtain ⟨r, hr, rfl⟩ := mem_map.mp hmem
  have hnone := hok r hr
  rw [show s.running r.id = some c from hc] at hnone
  cases hnone

theorem after_makeScratch (h : s.Inv) (hc : s.running id = some c) (hphase : c.phase = .reserved) :
    After s (({ s with inventory := s.inventory.perform [[.recovery c.r]] } : Handover).call id
      (some { c with phase := .copying })) := by
  have hcall := h.calls id c hc
  obtain ⟨row, hrow, -⟩ := hcall.row
  have hphase' := hcall.phase
  simp only [hphase] at hphase'
  have hw : Inventory.Writes (Known s.inventory) (fun _ => True) s.inventory
      (s.inventory.perform [[.recovery c.r]]) row Recovery.Open :=
    hcall.writes (h.rows.sound _ row hrow) hrow rfl rfl rfl hcall.consumer hcall.receipt
      (.inl hphase'.1)
  have hco : ∀ c' ∈ some ({ c with phase := .copying } : Staging),
      CallOk (s.inventory.perform [[.recovery c.r]]) id c' := by
    rintro c' ⟨⟩
    exact { hcall.of_writes hrow hw with phase := hphase' }
  obtain ⟨hinv, hpreserves⟩ := h.own hrow hw hco
  exact ⟨hinv, hpreserves, hw.keeps⟩

theorem inv_copy (h : s.Inv) (hc : s.running id = some c) (hphase : c.phase = .copying)
    {f : FileEntry} {rest : List FileEntry} (hselected : c.selected = f :: rest) (sha256 : Text) :
    (s.call id (some (s.copyNext pathId id sha256 c f rest))).Inv := by
  have hcall := h.calls id c hc
  refine h.call fun c' hc' => ?_
  obtain rfl := Option.some.inj hc'
  unfold copyNext
  split_ifs
  · exact { hcall with phase := trivial }
  · have hphase' := hcall.phase
    simp only [hphase] at hphase'
    refine ⟨hcall.row, hcall.key, hcall.consumer, hcall.receipt, ?_⟩
    simp only [hphase]
    refine ⟨hphase'.1, ?_⟩
    have hpaths := hphase'.2
    rw [hselected] at hpaths
    simpa [Recovery.paths] using hpaths

theorem after_publish (h : s.Inv) (hc : s.running id = some c) (hphase : c.phase = .copying)
    (hselected : c.selected = []) (digest : Text) (placed : Except Error Seen) (now : Int) :
    After s (s.publish id digest placed now c) := by
  have hcall := h.calls id c hc
  obtain ⟨row, hrow, hopen, -⟩ := hcall.row
  have hphase' := hcall.phase
  simp only [hphase, hselected, map_nil, append_nil] at hphase'
  unfold publish
  split_ifs
  · refine .call h fun c' hc' => ?_
    obtain rfl := Option.some.inj hc'
    exact ⟨hcall.row, hcall.key, hcall.consumer, hcall.receipt, trivial⟩
  · have hw : Inventory.Writes (Known s.inventory) (fun _ => True) s.inventory
        (s.inventory.perform [[.recovery { c.r with
          manifestDigest := digest
          state := .publishing }]]) row Recovery.Open :=
      hcall.writes (h.rows.sound _ row hrow) hrow rfl rfl rfl hcall.consumer hcall.receipt
        (.inr ⟨rfl, hphase'.2⟩)
    have hend {inv' : Inventory} {error : Option Error}
        (hw : Inventory.Writes (Known s.inventory) (fun _ => True) s.inventory inv' row
          Recovery.Open) : After s (({ s with inventory := inv' } : Handover).call id (some { c with
            r := { c.r with manifestDigest := digest, state := .publishing }
            phase := .ended error })) := by
      have hnext := hcall.of_writes hrow hw
      have hco : ∀ c' ∈ some ({ c with
          r := { c.r with manifestDigest := digest, state := .publishing }
          phase := .ended error } : Staging), CallOk inv' id c' := by
        rintro c' ⟨⟩
        refine ⟨hnext.row, hnext.key, hnext.consumer, hnext.receipt, ?_⟩
        cases error with
        | none => exact hphase'.2
        | some e => trivial
      obtain ⟨hinv, hpreserves⟩ := h.own hrow hw hco
      exact ⟨hinv, hpreserves, hw.keeps⟩
    cases placed with
    | error e => exact hend hw
    | ok seen => exact hend (hw.trans_same (section_registerPublication fun _ hk => hk.1))

theorem CallOk.outcome (h : CallOk inv id c) {row : Recovery}
    (hsound : row.Sound) (hrow : inv.recovery id = some row) {error : Option Error}
    (hphase : c.phase = .ended error) (cancelled : Bool) :
    (outcome c.r error cancelled).id = row.id ∧ (outcome c.r error cancelled).Sound ∧
      row.Stays (outcome c.r error cancelled) := by
  obtain ⟨row₀, hrow₀, hopen, hartifact, hrequest⟩ := h.row
  obtain rfl := Option.some.inj (hrow.symm.trans hrow₀)
  refine ⟨h.key.trans (id_of_recovery hrow).symm,
    ⟨fun _ => h.receipt, fun _ => h.consumer, fun hx => ?_, fun hwhole => ?_⟩,
    Recovery.stays_of_unclaimed hsound hopen.not_cancelled hopen.2 hartifact.symm hrequest.symm⟩
  · rw [show (Handover.outcome c.r error cancelled).receipt = none from h.receipt] at hx
    cases hx
  · have hpaths := h.phase
    rw [hphase] at hpaths
    cases error with
    | none => exact hpaths
    | some e => cases cancelled <;> simp [Handover.outcome] at hwhole

theorem after_finish (h : s.Inv) (hc : s.running id = some c) {error : Option Error}
    (hphase : c.phase = .ended error) {scratch : Except Error (Option Stray)} {now : Int}
    (hdrawn : s.Drawn (.finish id scratch now)) :
    After s (s.finish id scratch now c.r error) := by
  have hcall := h.calls id c hc
  obtain ⟨row, hrow, -⟩ := hcall.row
  have hfound : Inventory.Section (Known s.inventory) (fun _ => True) s.inventory
      (if error = none then (s.inventory, true)
        else s.inventory.discoverScratch c.r scratch now).1 none := by
    split_ifs
    · exact .refl
    · exact section_discoverScratch (unknown_of_new hdrawn)
  -- Nothing but the row may be written after what has been found.
  have hend {inv' : Inventory} {ro : Option Recovery}
      (hs : Inventory.Section (Known s.inventory) (fun _ => True) s.inventory inv' ro)
      (hro : ∀ r' ∈ ro, r' = outcome c.r error (s.inventory.cancelling id)) :
      After s (({ s with inventory := inv' } : Handover).call id none) := by
    have hw : Inventory.Writes (Known s.inventory) (fun _ => True) s.inventory inv' row
        fun _ => True := by
      refine ⟨ro, hs, fun r' hr' => ?_⟩
      obtain ⟨hid, hsound, hstays⟩ := hcall.outcome (h.rows.sound _ row hrow) hrow hphase
        (s.inventory.cancelling id)
      rw [hro r' hr']
      exact ⟨hid, hsound, hstays, fun _ => trivial⟩
    have hnone : ∀ c' ∈ (none : Option Staging), CallOk inv' id c' := fun _ hc' => by cases hc'
    obtain ⟨hinv, hpreserves⟩ := h.own hrow hw hnone
    exact ⟨hinv, hpreserves, hw.keeps⟩
  have hsave {inv : Inventory} : Inventory.Section (Known s.inventory) (fun _ => True) inv
      (inv.perform [[.recovery (outcome c.r error (s.inventory.cancelling id))]])
      (some (outcome c.r error (s.inventory.cancelling id))) := by
    refine section_save ?_ ?_
    all_goals
      unfold outcome
      dsimp only
      split_ifs <;> simp
  unfold finish
  simp only
  generalize (if error = none then (s.inventory, true)
    else s.inventory.discoverScratch c.r scratch now) = found at hfound ⊢
  split_ifs
  · exact hend hfound fun _ h => by cases h
  · exact hend ((hfound.trans section_holdForReview).trans hsave)
      fun _ h => (Option.some.inj h).symm
  · exact hend (hfound.trans hsave) fun _ h => (Option.some.inj h).symm

theorem paths_chosen {a : Artifact} {paths : List OsPath}
    (h : ∀ p ∈ paths, ∃ f ∈ a.files, f.path = p ∧ f.identity.directory = false) :
    (chosen a paths).map (·.path) = paths := by
  induction paths with
  | nil => rfl
  | cons p ps ih =>
    have ih := ih fun q hq => h q (mem_cons_of_mem p hq)
    unfold chosen at ih ⊢
    cases hfind : a.files.find? fun f => f.path = p && !f.identity.directory with
    | none =>
      obtain ⟨f, hf, hpath, hdir⟩ := h p mem_cons_self
      have := find?_eq_none.mp hfind f hf
      simp [hpath, hdir] at this
    | some f =>
      have hpath : f.path = p := by
        have := find?_some hfind
        simp only [Bool.and_eq_true, decide_eq_true_eq] at this
        exact this.1
      simp only [filterMap_cons, hfind, map_cons, ih, hpath]

structure Reserved (a : Artifact) (key id : Text) (paths : List OsPath) (a' : Artifact)
    (r : Recovery) : Prop where
  source : a'.id = a.id ∧ a'.files = a.files ∧ a'.state = a.state ∧ a'.hold.isSome
  state : a.state ∈ [.parkedFailed, .retained, .completed]
  selected : Selected a.files paths
  row : r.id = id ∧ r.artifact = key ∧ r.paths = paths ∧ r.state = .staging ∧ r.files = []
  unclaimed : r.consumer = none ∧ r.receipt = none

theorem stageRecovery_cases {a : Artifact} (ha : inv.artifact key = some a)
    {revision : Nat} {requestId : Text} {paths : List OsPath} {root : OsPath} {generation : Text}
    {seen : Option (List FileEntry)} :
    inv.stageRecovery key revision requestId paths root id generation seen = [] ∨
      ∃ a' r, inv.stageRecovery key revision requestId paths root id generation seen =
        [[.artifact a', .recovery r]] ∧ Reserved a key id paths a' r := by
  simp only [stageRecovery, ha]
  split_ifs with hrefused
  · exact .inl rfl
  simp only [not_or, not_not, all_eq_true, Bool.and_eq_true, any_eq_true,
    decide_eq_true_eq, Bool.not_eq_true'] at hrefused
  obtain ⟨-, -, -, -, -, -, -, -, hstate, -, -, -, hnodup, hall⟩ := hrefused
  refine .inr ⟨_, _, rfl, ⟨rfl, rfl, rfl, rfl⟩, hstate, ⟨hnodup, fun p hp => ?_⟩,
    ⟨rfl, rfl, rfl, rfl, rfl⟩, rfl, rfl⟩
  exact (hall p hp).2

theorem after_reserve (h : s.Inv) {a a' : Artifact} {r : Recovery} {paths : List OsPath}
    (ha : s.inventory.artifact key = some a) (hnew : s.inventory.recovery id = none)
    (hr : Reserved a key id paths a' r) :
    (s.inventory.perform [[.artifact a', .recovery r]]).recovery id = some r ∧
      After s (({ s with inventory := s.inventory.perform [[.artifact a', .recovery r]] } :
        Handover).call id (some ⟨r, chosen a paths, .reserved⟩)) := by
  have haid : a.id = key := Table.key_of_get ha
  obtain ⟨hid, hartifact, hpaths, hstate, hfiles⟩ := hr.row
  obtain ⟨haid', hafiles, hastate, hahold⟩ := hr.source
  have hstart : ¬text "recovery-" <+: key := by
    intro hp
    have hmem := hr.state
    rcases h.rows.copies key a ha hp with hst | hst <;> simp [hst] at hmem
  have hsection : Inventory.Section (Known s.inventory) (fun _ => True) s.inventory
      (s.inventory.perform [[.artifact a', .recovery r]]) (some r) := by
    have hsplit : s.inventory.perform [[.artifact a', .recovery r]] =
        (s.inventory.perform [[.artifact a']]).perform [[.recovery r]] := rfl
    have hkept : keepCancelled (s.inventory.perform [[.artifact a']]) r = r := by
      refine if_neg fun hc => ?_
      rw [show (s.inventory.perform [[.artifact a']]).recovery r.id = none from hid ▸ hnew] at hc
      simp at hc
    rw [hsplit, perform_recovery, hkept]
    exact (Inventory.Section.artifact (keeps_held ha (haid'.trans haid) hafiles hastate
      hahold)).trans .recovery
  have hrow : (s.inventory.perform [[.artifact a', .recovery r]]).recovery id = some r := by
    rw [hsection.recovery_eq id]
    simp [hid]
  have hlawful : Inventory.Lawful (Known s.inventory) s.inventory
      (s.inventory.perform [[.artifact a', .recovery r]]) r := by
    refine ⟨⟨fun _ => hr.unclaimed.2, fun _ => hr.unclaimed.1, fun hx => ?_, fun hw => ?_⟩, ?_,
      fun r₀ hr₀ => ?_⟩
    · rw [hr.unclaimed.2] at hx
      cases hx
    · simp [hstate] at hw
    · obtain ⟨b, hb, hbfiles, -⟩ := hsection.rows key a ⟨hstart, ha ▸ rfl⟩ ha
      rw [hartifact, hpaths]
      exact ⟨⟨hstart, ha ▸ rfl⟩, b, hb, hbfiles ▸ hr.selected⟩
    · rw [hid, hnew] at hr₀
      cases hr₀
  obtain ⟨hrows, hpreserves⟩ := h.known.section hsection fun r' hr' => by
    obtain rfl := Option.some.inj hr'
    exact hlawful
  refine ⟨hrow, ⟨hrows.mono fun _ _ _ hk => hk.1, fun id' c hc => ?_⟩, hpreserves, hsection.toKeeps⟩
  by_cases hne : id' = id
  · subst hne
    rw [running_call] at hc
    obtain rfl := Option.some.inj hc
    refine ⟨⟨r, hrow, ⟨by simp [hstate], hr.unclaimed.1⟩, rfl, rfl⟩, hid, hr.unclaimed.1,
      hr.unclaimed.2, hstate, ?_⟩
    rw [hfiles, paths_chosen hr.selected.2, hpaths]
    rfl
  · rw [running_call_of_ne hne] at hc
    refine (h.calls id' c hc).of_same ((hsection.recovery_eq id').trans (if_neg ?_))
    simpa [hid] using fun he => hne he.symm

theorem call_none (h : s.running id = none) : s.call id none = s := by
  have hrunning : Function.update s.running id none = s.running := by
    rw [← h]
    exact Function.update_eq_self id s.running
  rw [call, hrunning]

theorem after_stage (h : s.Inv) {revision : Nat} {requestId : Text} {paths : List OsPath}
    {root : OsPath} {apart : Bool} {generation : Text} {seen : Option (List FileEntry)} {w : Answer}
    {now : Int}
    (hdrawn : s.Drawn (.stage key revision requestId paths root apart id generation seen w now))
    (hok : s.Careful (.stage key revision requestId paths root apart id generation seen w now)) :
    After s (s.stage key revision requestId paths root apart id generation seen w now) := by
  have hsame : After s s := ⟨h, .refl _, .refl⟩
  by_cases hbad : paths = [] ∨ 1000 < paths.length ∨ requestId = [] ∨ 128 < requestId.length
  · rw [stage, if_pos hbad]
    exact hsame
  rw [stage, if_neg hbad]
  cases hfind : s.inventory.recoveries.find? (·.requestId = requestId) with
  | some r =>
    simp only
    split_ifs with hrequest
    · have hrow : s.inventory.recovery r.id = some r :=
        Table.get_of_mem h.rows.keys (mem_of_find?_eq_some hfind)
      have hw : Inventory.Writes (Known s.inventory) (fun _ => True) s.inventory
          (s.inventory.resumePublication r w now).1 r fun _ => True :=
        writes_resume (h.rows.sound _ r hrow) (fun _ hk => hk.1)
          (unknown_of_new hdrawn.2)
      have hidle : s.running r.id = none := hok r hfind hrequest
      have hnone : ∀ c' ∈ (none : Option Staging),
          CallOk (s.inventory.resumePublication r w now).1 r.id c' := fun _ hc' => by cases hc'
      obtain ⟨hinv, hpreserves⟩ := h.own hrow hw hnone
      rw [call_none (by exact hidle)] at hinv
      exact ⟨hinv, hpreserves, hw.keeps⟩
    · exact hsame
  | none =>
    cases apart with
    | false => exact hsame
    | true =>
      cases ha : s.inventory.artifact key with
      | none =>
        simp only [Bool.true_eq_false, if_false]
        split
        · next heq => cases heq
        · exact hsame
      | some a =>
        have hcases : s.inventory.stageRecovery key revision requestId paths root id generation
            seen = [] ∨ ∃ a' r, s.inventory.stageRecovery key revision requestId paths root id
              generation seen = [[.artifact a', .recovery r]] ∧ Reserved a key id paths a' r :=
          stageRecovery_cases ha
        rcases hcases with hnil | ⟨a', r, htxs, hreserved⟩
        · simp only [hnil, Bool.true_eq_false, if_false, if_true]
          split
          · exact hsame
          · exact hsame
        · obtain ⟨hrow, hafter⟩ := after_reserve h ha hdrawn.1 hreserved
          simp only [htxs, hrow, Bool.true_eq_false, if_false, cons_ne_nil]
          exact hafter

theorem after_others (h : s.Inv) {txs : List Tx} (hnil : s.inventory.recovery key = none → txs = [])
    (hw : ∀ r, s.inventory.recovery key = some r → Inventory.Writes (Known s.inventory)
      (fun _ => True) s.inventory (s.inventory.perform txs) r Recovery.Open) :
    After s { s with inventory := s.inventory.perform txs } := by
  cases hrow : s.inventory.recovery key with
  | none =>
    rw [hnil hrow]
    exact ⟨h, .refl _, .refl⟩
  | some r =>
    obtain ⟨hinv, hpreserves⟩ := h.others hrow (hw r hrow)
    exact ⟨hinv, hpreserves, (hw r hrow).keeps⟩

/-- **Every step but a receipt** keeps the invariant, and the hold of every source. -/
theorem after_step (h : s.Inv) (hdrawn : s.Drawn e) (hok : s.Careful e)
    (hstep : s.step pathId e = some t) (he : ∀ k consumer x now, e ≠ .receipt k consumer x now) :
    After s t := by
  cases e with
  | stage key revision requestId paths root apart id generation seen w now =>
    obtain rfl := Option.some.inj hstep
    exact after_stage h hdrawn hok
  | makeScratch id =>
    obtain ⟨c, hc, hstep⟩ := Option.bind_eq_some_iff.mp hstep
    split_ifs at hstep with hphase
    obtain rfl := Option.some.inj hstep
    exact after_makeScratch h hc hphase
  | copy id sha256 =>
    obtain ⟨c, hc, hstep⟩ := Option.bind_eq_some_iff.mp hstep
    split at hstep
    · next f rest hphase hselected =>
      obtain rfl := Option.some.inj hstep
      exact ⟨inv_copy h hc hphase hselected sha256, .refl _, .refl⟩
    · cases hstep
  | fail id error =>
    obtain ⟨c, hc, hstep⟩ := Option.bind_eq_some_iff.mp hstep
    split at hstep
    · cases hstep
    · obtain rfl := Option.some.inj hstep
      refine .call h ?_
      rintro c' ⟨⟩
      exact { h.calls id c hc with phase := trivial }
  | publish id digest placed now =>
    obtain ⟨c, hc, hstep⟩ := Option.bind_eq_some_iff.mp hstep
    split_ifs at hstep with hphase
    obtain rfl := Option.some.inj hstep
    exact after_publish h hc hphase.1 hphase.2 digest placed now
  | finish id scratch now =>
    obtain ⟨c, hc, hstep⟩ := Option.bind_eq_some_iff.mp hstep
    split at hstep
    · next error hphase =>
      obtain rfl := Option.some.inj hstep
      exact after_finish h hc hphase hdrawn
    · cases hstep
  | stop id =>
    obtain ⟨c, -, rfl⟩ := Option.map_eq_some_iff.mp hstep
    exact .call h fun c' hc' => by cases hc'
  | reconcile answers now =>
    obtain rfl := Option.some.inj hstep
    exact after_reconcile h hdrawn hok
  | claim key consumer importId manifest =>
    obtain rfl := Option.some.inj hstep
    refine after_others h (fun hnone => ?_) fun r hr =>
      writes_claim hr (h.rows.sound key r hr) consumer importId manifest
    simp only [claimRecovery, hnone]
  | receipt k consumer x now => exact absurd rfl (he k consumer x now)
  | cancel key consumer ack =>
    obtain rfl := Option.some.inj hstep
    refine after_others h (fun hnone => ?_) fun r hr =>
      writes_cancel hr (h.rows.sound key r hr) consumer ack
    simp only [cancelRecovery, hnone]

end Handover

end Nzbd.Artifacts
