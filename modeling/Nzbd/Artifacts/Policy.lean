import Nzbd.Artifacts.Keep

/-!
# What a write does to retention

A row expires of itself while it is owned, let go, and parked or imported, and it has a period and
a deadline: its *policy*.  The seconds it has been seen so are counted in the row.

`sound_txs` is what every operation keeps to.  It raises the revision of a row, or else it leaves
the policy alone, or leaves a row whose deletion cannot be requested; and where the row can
expire afterwards, the count starts again or the policy is what it was.  The row of the copy that
a movement makes is written from memory, so its revision may go back, but such a row never
expires.  A tick, which counts, and the deletion it requests come in `Retention`.
-/

namespace Nzbd.Artifacts

open List Inventory

/-- What the retention of a row rests on. -/
structure Policy where
  owned : Bool
  state : ArtifactState
  keep : Bool
  hold : Option Text
  retentionSeconds : Nat
  deadline : Option Int
  deriving DecidableEq

namespace Artifact

variable {a a' : Artifact}

def policy (a : Artifact) : Policy :=
  ⟨a.owned, a.state, a.keep, a.hold, a.retentionSeconds, a.deadline⟩

/-- Its deletion can be requested. -/
def requestable (a : Artifact) : Bool :=
  a.owned && !a.keep && a.hold.isNone &&
    decide (a.state ∈ [.parkedFailed, .retained, .completed, .recoveryImported, .recoveryStaged])

theorem eligible_congr (h : a'.policy = a.policy) : a'.eligible = a.eligible := by
  obtain ⟨howned, hstate, hkeep, hhold, hseconds, -⟩ := Policy.mk.inj h
  rw [eligible, eligible, howned, hstate, hkeep, hhold, hseconds]

theorem requestable_congr (h : a'.policy = a.policy) : a'.requestable = a.requestable := by
  obtain ⟨howned, hstate, hkeep, hhold, -, -⟩ := Policy.mk.inj h
  rw [requestable, requestable, howned, hstate, hkeep, hhold]

theorem requestable_of_eligible (h : a.eligible = true) : a.requestable = true := by
  simp only [eligible, Bool.and_eq_true, Bool.or_eq_true, decide_eq_true_eq] at h
  obtain ⟨⟨⟨⟨howned, hstate⟩, hkeep⟩, hhold⟩, -⟩ := h
  simp only [requestable, Bool.and_eq_true, decide_eq_true_eq]
  refine ⟨⟨⟨howned, hkeep⟩, hhold⟩, ?_⟩
  rcases hstate with hstate | hstate <;> simp [hstate]

end Artifact

/-! ### What is written -/

/-- The row of a copy that a movement makes. -/
def isCopy (key : Text) : Bool := text "scratch-" <+: key

/-- No job has it, and it has not come to its retention. -/
structure Artifact.Shelved (a : Artifact) : Prop where
  job : a.job = none
  parked : a.state ≠ .parkedFailed
  imported : a.state ≠ .recoveryImported

/-- The rows of a movement have periods that a cast to `i64` leaves alone. -/
def Request.Fits : Request → Prop
  | .relocate m => m.source.retentionSeconds < 2 ^ 63 ∧ ∀ scratch, m.scratch = some scratch →
    isCopy scratch.id = true ∧ scratch.job = none ∧ scratch.retentionSeconds < 2 ^ 63
  | _ => True

def Request.automatic : Request → Option (Text × Nat)
  | .delete key revision _ true => some (key, revision)
  | _ => none

/-- What a row becomes. -/
structure Follows (inv : Inventory) (a' : Artifact) : Prop where
  /-- A movement writes the row of its copy as it has it in memory. -/
  later : isCopy a'.id = false → ∀ a, inv.artifact a'.id = some a → a.revision < a'.revision ∨
    a.revision = a'.revision ∧ (a'.policy = a.policy ∨ a'.requestable = false)
  count : a'.eligible = true → ∃ a, inv.artifact a'.id = some a ∧
    (a.revision < a'.revision ∧ a'.eligibleSeconds = 0 ∨
      a'.policy = a.policy ∧ a'.eligibleSeconds = a.eligibleSeconds)
  period : a'.retentionSeconds < 2 ^ 63
  shelved : isCopy a'.id = true → a'.Shelved

structure Tidy (inv : Inventory) : Prop where
  keys : (inv.artifacts.map Artifact.id).Nodup
  periods : ∀ a ∈ inv.artifacts, a.retentionSeconds < 2 ^ 63
  copies : ∀ a ∈ inv.artifacts, isCopy a.id = true → a.Shelved
  requests : ∀ op ∈ inv.operations, op.request.Fits
  days : inv.settings.failedRetentionDays < 2 ^ 32

/-- No deletion is requested of itself. -/
def Write.Sound (inv : Inventory) : Write → Prop
  | .artifact a => Follows inv a
  | .operation op => (op.request.Fits ∧ op.request.automatic = none) ∨
    ∃ old ∈ inv.operations, old.request = op.request
  | .settings s => s.failedRetentionDays < 2 ^ 32
  | _ => True

def Sound (inv : Inventory) (txs : List Tx) : Prop := ∀ tx ∈ txs, ∀ w ∈ tx, w.Sound inv

/-- **What the callers see to.**  The ids that are given are new; a job has no directory of a copy,
whose name begins with a dot; and `finish` parks, retains or completes.  What a tick does is not
among these. -/
def RowStep.Undisturbed (inv : Inventory) : RowStep → Prop
  | .allocate id .. => inv.artifact id = none ∧ isCopy id = false
  | .discover id .. => inv.artifact id = none ∧ isCopy id = false
  | .engage _ path => ∀ a, inv.artifacts.find? (fun a => a.path = path && !a.terminal) = some a →
    isCopy a.id = false
  | .finish _ _ _ state _ _ => state = .parkedFailed ∨ state = .retained ∨ state = .completed
  -- the days are a `u32`
  | .applyRetention _ days _ _ => days < 2 ^ 32
  | .commitRelocation key .. => inv.artifact (text "source-" ++ key) = none
  | .accrue .. => False
  | .expire .. => False
  | _ => True

section Sound

variable {inv : Inventory} {a a' : Artifact} {key : Text}

theorem Tidy.shelved (hinv : Tidy inv) (h : inv.artifact a'.id = some a)
    (hshelved : isCopy a'.id = true → a.Shelved → a'.Shelved) (hcopy : isCopy a'.id = true) :
    a'.Shelved := by
  refine hshelved hcopy (hinv.copies a (Table.mem_of_get h) ?_)
  rwa [show a.id = a'.id from Table.key_of_get h]

theorem Follows.bumped (hinv : Tidy inv) (h : inv.artifact a'.id = some a)
    (hrev : a.revision < a'.revision) (hidle : a'.eligible = false)
    (hperiod : a'.retentionSeconds = a.retentionSeconds)
    (hshelved : isCopy a'.id = true → a.Shelved → a'.Shelved) : Follows inv a' where
  later _ b hb := by
    obtain rfl := Option.some.inj (h.symm.trans hb)
    exact .inl hrev
  count he := by
    rw [hidle] at he
    cases he
  period := hperiod ▸ hinv.periods a (Table.mem_of_get h)
  shelved := hinv.shelved h hshelved

theorem Follows.idle (hinv : Tidy inv) (h : inv.artifact a'.id = some a)
    (hrev : a'.revision = a.revision) (hidle : a'.requestable = false)
    (hperiod : a'.retentionSeconds = a.retentionSeconds)
    (hshelved : isCopy a'.id = true → a.Shelved → a'.Shelved) : Follows inv a' where
  later _ b hb := by
    obtain rfl := Option.some.inj (h.symm.trans hb)
    exact .inr ⟨hrev.symm, .inr hidle⟩
  count he := by
    rw [Artifact.requestable_of_eligible he] at hidle
    cases hidle
  period := hperiod ▸ hinv.periods a (Table.mem_of_get h)
  shelved := hinv.shelved h hshelved

theorem Follows.reset (hinv : Tidy inv) (h : inv.artifact a'.id = some a)
    (hrev : a.revision < a'.revision) (hzero : a'.eligibleSeconds = 0)
    (hperiod : a'.retentionSeconds < 2 ^ 63)
    (hshelved : isCopy a'.id = true → a.Shelved → a'.Shelved) : Follows inv a' where
  later _ b hb := by
    obtain rfl := Option.some.inj (h.symm.trans hb)
    exact .inl hrev
  count _ := ⟨a, h, .inl ⟨hrev, hzero⟩⟩
  period := hperiod
  shelved := hinv.shelved h hshelved

theorem Follows.same (hinv : Tidy inv) (h : inv.artifact a'.id = some a)
    (hrev : a.revision ≤ a'.revision) (hpolicy : a'.policy = a.policy)
    (hseconds : a'.eligibleSeconds = a.eligibleSeconds)
    (hshelved : isCopy a'.id = true → a.Shelved → a'.Shelved) : Follows inv a' where
  later _ b hb := by
    obtain rfl := Option.some.inj (h.symm.trans hb)
    rcases Nat.lt_or_eq_of_le hrev with hlt | heq
    · exact .inl hlt
    · exact .inr ⟨heq, .inl hpolicy⟩
  count _ := ⟨a, h, .inr ⟨hpolicy, hseconds⟩⟩
  period := by
    rw [show a'.retentionSeconds = a.retentionSeconds from (Policy.mk.inj hpolicy).2.2.2.2.1]
    exact hinv.periods a (Table.mem_of_get h)
  shelved := hinv.shelved h hshelved

theorem Follows.fresh (h : inv.artifact a'.id = none) (hidle : a'.eligible = false)
    (hperiod : a'.retentionSeconds < 2 ^ 63) (hcopy : isCopy a'.id = false) : Follows inv a' where
  later _ b hb := by
    rw [h] at hb
    cases hb
  count he := by
    rw [hidle] at he
    cases he
  period := hperiod
  shelved hc := by
    rw [hcopy] at hc
    cases hc

theorem Follows.copied (hcopy : isCopy a'.id = true) (hidle : a'.eligible = false)
    (hperiod : a'.retentionSeconds < 2 ^ 63) (hshelved : a'.Shelved) : Follows inv a' where
  later hc := by
    rw [hcopy] at hc
    cases hc
  count he := by
    rw [hidle] at he
    cases he
  period := hperiod
  shelved _ := hshelved

theorem Artifact.Shelved.move (h : a.Shelved) (hjob : a'.job = a.job ∨ a'.job = none)
    (hstate : a'.state = a.state ∨ a'.state ∉ [.parkedFailed, .recoveryImported]) :
    a'.Shelved where
  job := hjob.elim (·.trans h.job) fun hnone => hnone
  parked hs := by
    rcases hstate with heq | hno
    · exact h.parked (heq.symm.trans hs)
    · exact hno (by simp [hs])
  imported hs := by
    rcases hstate with heq | hno
    · exact h.imported (heq.symm.trans hs)
    · exact hno (by simp [hs])

@[simp] theorem sound_nil : Sound inv [] := fun _ h => by cases h

@[simp] theorem sound_cons {tx : Tx} {txs : List Tx} :
    Sound inv (tx :: txs) ↔ (∀ w ∈ tx, w.Sound inv) ∧ Sound inv txs := forall_mem_cons

@[simp] theorem sound_append {txs txs' : List Tx} :
    Sound inv (txs ++ txs') ↔ Sound inv txs ∧ Sound inv txs' := forall_mem_append

@[simp] theorem sound_ite {c : Prop} [Decidable c] {txs txs' : List Tx} :
    Sound inv (if c then txs else txs') ↔ (c → Sound inv txs) ∧ (¬c → Sound inv txs') := by
  split_ifs with h <;> simp [h]

theorem sound_artifact (h : Follows inv a) : Sound inv [[.artifact a]] :=
  sound_cons.mpr ⟨fun w hw => by rw [mem_singleton.mp hw]; exact h, sound_nil⟩

theorem sound_operation {op : Operation} (h : (Write.operation op).Sound inv) :
    Sound inv [[.operation op]] :=
  sound_cons.mpr ⟨fun w hw => by rw [mem_singleton.mp hw]; exact h, sound_nil⟩

theorem sound_sidecar {s : Sidecar} {txs : List Tx} (h : Sound inv txs) :
    Sound inv ([.sidecar s] :: txs) :=
  sound_cons.mpr ⟨fun w hw => by rw [mem_singleton.mp hw]; trivial, h⟩

@[simp] theorem artifact_sound : (Write.artifact a).Sound inv ↔ Follows inv a := .rfl

@[simp] theorem sidecar_sound {s : Sidecar} : (Write.sidecar s).Sound inv := trivial

@[simp] theorem recovery_sound {r : Recovery} : (Write.recovery r).Sound inv := trivial

theorem operation_sound {op op' : Operation} (h : inv.operation key = some op)
    (hrequest : op.request = op'.request) : (Write.operation op').Sound inv :=
  .inr ⟨op, Table.mem_of_get h, hrequest⟩

theorem artifact_id (h : inv.artifact key = some a) : inv.artifact a.id = some a := by
  rwa [show a.id = key from Table.key_of_get h]

theorem Tidy.period (hinv : Tidy inv) (h : inv.artifact key = some a) :
    a.retentionSeconds < 2 ^ 63 := hinv.periods a (Table.mem_of_get h)

theorem Tidy.artifact_of_mem (hinv : Tidy inv) (h : a ∈ inv.artifacts) :
    inv.artifact a.id = some a := Table.get_of_mem hinv.keys h

variable {job : JobId}

theorem mem_of_forJob (h : inv.forJob job = some a) :
    a ∈ inv.artifacts ∧ a.job = some job := by
  -- a fold that keeps the best row so far or takes the new one ends in one of the rows
  have hlast : ∀ f : Option Artifact → Artifact → Option Artifact,
      (∀ best r, f best r = best ∨ f best r = some r) → ∀ rows best,
        foldl f best rows = some a → best = some a ∨ a ∈ rows := by
    intro f hf rows
    induction rows with
    | nil => exact fun best h => .inl h
    | cons r rows ih =>
      intro best h
      rcases ih _ h with hbest | hmem
      · rcases hf best r with hkept | htaken
        · exact .inl (hkept.symm.trans hbest)
        · exact .inr (Option.some.inj (htaken.symm.trans hbest) ▸ mem_cons_self)
      · exact .inr (mem_cons_of_mem _ hmem)
  have hstep := hlast _ (by
    rintro (_ | b) r
    · exact .inr rfl
    · exact (ite_eq_or_eq ..).symm) _ none h
  rcases hstep with hnone | hmem
  · cases hnone
  · exact ⟨(mem_filter.mp hmem).1, by simpa using (mem_filter.mp hmem).2⟩

theorem Tidy.artifact_of_forJob (hinv : Tidy inv) (h : inv.forJob job = some a) :
    inv.artifact a.id = some a := hinv.artifact_of_mem (mem_of_forJob h).1

theorem Tidy.not_copy (hinv : Tidy inv) (h : inv.artifact key = some a) (he : a.eligible = true) :
    isCopy key = false := by
  refine Bool.eq_false_iff.mpr fun hcopy => ?_
  obtain ⟨-, hparked, himported⟩ := hinv.copies a (Table.mem_of_get h)
    (by rwa [show a.id = key from Table.key_of_get h])
  simp only [Artifact.eligible, Bool.and_eq_true, Bool.or_eq_true, decide_eq_true_eq] at he
  rcases he.1.1.1.2 with hstate | hstate
  · exact hparked hstate
  · exact himported hstate

theorem isCopy_stagedKey (r : Recovery) : isCopy (Inventory.stagedKey r) = false := by
  simp [isCopy, stagedKey, text]

theorem isCopy_retired (key : Text) : isCopy (text "source-" ++ key) = false := by
  simp [isCopy, text]

theorem isCopy_scratch (key : Text) : isCopy (text "scratch-" ++ key) = true := by
  simp [isCopy]

end Sound

section Operations

variable {inv : Inventory} {now : Int}

theorem sound_allocate {id generation : Text} {root path : OsPath}
    {rootIdentity : Identity} {taken : Bool} {made : Option Identity}
    (hnew : inv.artifact id = none ∧ isCopy id = false) :
    Sound inv (inv.allocate id generation job root path rootIdentity taken made now) := by
  have hrow : ∀ (identity : Option Identity) (state : ArtifactState),
      state = .allocating ∨ state = .active → Follows inv
        { newRow id generation (some job) root path rootIdentity none .allocating true
            false none now with identity := identity, state := state } := by
    rintro identity state (rfl | rfl)
    · exact .fresh hnew.1 rfl (by simp [newRow]) hnew.2
    · exact .fresh hnew.1 rfl (by simp [newRow]) hnew.2
  unfold allocate
  refine sound_ite.mpr ⟨fun _ => sound_nil, fun _ => ?_⟩
  cases made with
  | none => exact sound_artifact (hrow none .allocating (.inl rfl))
  | some identity =>
    exact sound_append.mpr ⟨sound_artifact (hrow none .allocating (.inl rfl)),
      sound_sidecar (sound_artifact (hrow (some identity) .active (.inr rfl)))⟩

theorem sound_discover {id generation : Text} {root path : OsPath} {active : Bool}
    {seen : Option Seen} (hnew : inv.artifact id = none ∧ isCopy id = false) :
    Sound inv (inv.discover id generation root path active seen now) := by
  unfold discover
  cases seen with
  | none => simp
  | some seen =>
    exact sound_ite.mpr ⟨fun _ => sound_nil, fun _ =>
      sound_artifact (.fresh hnew.1 rfl (by simp [newRow]) hnew.2)⟩

theorem sound_disown (hinv : Tidy inv) {path : OsPath} {verified : Bool} :
    Sound inv (inv.disown job path verified) := by
  unfold disown
  split
  · exact sound_nil
  · next a ha =>
    have hget := hinv.artifact_of_forJob ha
    exact sound_ite.mpr ⟨fun _ => sound_nil, fun _ => sound_artifact
      (.bumped hinv hget (Nat.lt_succ_self _) (by simp [Artifact.eligible]) rfl
        fun _ h => h.move (.inr rfl) (.inr (by split_ifs <;> simp)))⟩

theorem sound_engage (hinv : Tidy inv) {path : OsPath}
    (hjob : ∀ a, inv.artifacts.find? (fun a => a.path = path && !a.terminal) = some a →
      isCopy a.id = false) :
    Sound inv (inv.engage job path) := by
  unfold engage
  split
  · exact sound_nil
  · next a ha =>
    have hget := hinv.artifact_of_mem (mem_of_find?_eq_some ha)
    exact sound_artifact (.idle hinv hget rfl (by simp [Artifact.requestable]) rfl
      fun hc => absurd hc (by simp [hjob a ha]))

theorem sound_prepareForget (hinv : Tidy inv) :
    Sound inv (inv.prepareForget job now) := by
  unfold prepareForget
  split
  · exact sound_nil
  · next a ha =>
    have hget := hinv.artifact_of_forJob ha
    exact sound_ite.mpr ⟨fun _ => sound_nil, fun _ => sound_artifact
      (.bumped hinv hget (Nat.lt_succ_self _) (by simp [Artifact.eligible]) rfl
        fun _ h => h.move (.inl rfl) (.inr (by simp)))⟩

theorem sound_finish (hinv : Tidy inv) {path root : OsPath} {state : ArtifactState}
    {seen : Option Seen} (hstate : state = .parkedFailed ∨ state = .retained ∨ state = .completed) :
    Sound inv (inv.finish job path root state seen now) := by
  unfold finish
  split
  · next a seen ha =>
    have hget := hinv.artifact_of_forJob ha
    have hjob := (mem_of_forJob ha).2
    have hdays := hinv.days
    have hperiod : (if state = .parkedFailed ∧ a.owned then
        inv.settings.failedRetentionDays * day else a.retentionSeconds) < 2 ^ 63 := by
      split_ifs
      · simp only [day]
        omega
      · exact hinv.period hget
    simp only [sound_ite, sound_nil, sound_cons, forall_mem_singleton, sidecar_sound,
      artifact_sound, and_true, true_and, imp_true_iff]
    intro _ _ _ _
    by_cases hparked : state = .parkedFailed ∧ a.owned
    · exact .reset hinv hget (Nat.lt_succ_self _) (if_pos hparked) hperiod
        fun _ h => absurd h.job (by simp [hjob])
    · refine .bumped hinv hget (Nat.lt_succ_self _) ?_ (if_neg hparked) fun _ h =>
        absurd h.job (by simp [hjob])
      rcases hstate with rfl | rfl | rfl
      · simp [Artifact.eligible, Bool.eq_false_iff.mpr fun ho => hparked ⟨rfl, ho⟩]
      · simp [Artifact.eligible]
      · simp [Artifact.eligible]
  · exact sound_nil

variable {key : Text}

theorem sound_inspect (hinv : Tidy inv) {seen : Option (List FileEntry)} :
    Sound inv (inv.inspect key seen now) := by
  unfold inspect
  split
  · next a files ha =>
    have hget := artifact_id ha
    simp only [sound_ite, sound_nil, sound_cons, forall_mem_singleton, artifact_sound, and_true,
      imp_true_iff, true_and]
    intro _
    generalize (a.owned && decide (files ≠ a.files)) = changed
    cases changed with
    | true =>
      exact .bumped hinv hget (Nat.lt_succ_self _) (by simp [Artifact.eligible]) rfl
        fun _ h => h.move (.inl rfl) (.inl rfl)
    | false =>
      -- an inspection that finds what it knows changes the revision only
      exact .same hinv hget (Nat.le_succ _) (by simp [Artifact.policy]) rfl
        fun _ h => h.move (.inl rfl) (.inl rfl)
  · exact sound_nil

variable {revision : Nat}

theorem sound_adopt (hinv : Tidy inv)
    {seen : Option (List FileEntry)} : Sound inv (inv.adopt key revision seen) := by
  unfold adopt
  split
  · exact sound_nil
  · next a ha =>
    have hget := artifact_id ha
    exact sound_ite.mpr ⟨fun _ => sound_nil, fun _ => sound_sidecar (sound_artifact
      (.bumped hinv hget (Nat.lt_succ_self _) (by simp [Artifact.eligible]) rfl
        fun _ h => h.move (.inl rfl) (.inr (by simp))))⟩

theorem retainable_eq_some {seconds : Option Nat} {a : Artifact}
    (h : inv.retainable key revision seconds = some a) :
    inv.artifact key = some a ∧ ∀ n, seconds = some n → n ≤ 315360000 := by
  obtain ⟨ha, hok⟩ := Option.filter_eq_some_iff.mp h
  refine ⟨ha, ?_⟩
  rintro n rfl
  simp only [Bool.and_eq_true, Option.all_some, decide_eq_true_eq] at hok
  exact hok.2

theorem sound_withdrawn : ∀ w ∈ inv.withdrawn key, w.Sound inv := by
  intro w hw
  obtain ⟨op, hop, rfl⟩ := mem_map.mp hw
  exact .inr ⟨op, (mem_filter.mp hop).1, rfl⟩

theorem sound_retention (hinv : Tidy inv) {keep : Bool}
    {seconds : Option Nat} :
    Sound inv (inv.retention key revision keep seconds now) := by
  unfold retention
  split
  · exact sound_nil
  · next a ha =>
    obtain ⟨ha, hseconds⟩ := retainable_eq_some ha
    have hget := artifact_id ha
    refine sound_cons.mpr ⟨fun w hw => ?_, sound_nil⟩
    rcases mem_append.mp hw with hw | hw
    · split at hw
      · exact sound_withdrawn w hw
      · cases hw
    · obtain rfl := mem_singleton.mp hw
      refine artifact_sound.mpr (.reset hinv hget (Nat.lt_succ_self _) rfl ?_
        fun _ h => h.move (.inl rfl) (.inl rfl))
      change seconds.getD a.retentionSeconds < 2 ^ 63
      cases seconds with
      | none => exact hinv.period hget
      | some n =>
        have := hseconds n rfl
        rw [Option.getD_some]
        omega

theorem sound_releaseReview (hinv : Tidy inv)
    {seen : Option (List FileEntry)} :
    Sound inv (inv.releaseReview key revision seen now) := by
  unfold releaseReview
  split
  · exact sound_nil
  · next a ha =>
    have hget := artifact_id ha
    have hperiod := hinv.period ha
    exact sound_ite.mpr ⟨fun _ => sound_artifact (.reset hinv hget (Nat.lt_succ_self _) rfl hperiod
      fun _ h => h.move (.inl rfl) (.inl rfl)),
      fun _ => sound_nil⟩

theorem sound_applyRetention (hinv : Tidy inv) {days : Nat} {rows : List (Text × Nat)}
    (hdays : days < 2 ^ 32) : Sound inv (inv.applyRetention key days rows now) := by
  unfold applyRetention
  split
  · exact sound_nil
  · next op hop =>
    rw [sound_ite]
    refine ⟨fun _ => sound_cons.mpr ⟨fun w hw => ?_, sound_nil⟩, fun _ => sound_nil⟩
    rcases mem_append.mp hw with hw | hw
    · obtain ⟨row, -, hrow⟩ := mem_filterMap.mp hw
      obtain ⟨a, ha, rfl⟩ := Option.map_eq_some_iff.mp hrow
      have hget := artifact_id ha
      refine artifact_sound.mpr (.reset hinv hget (Nat.lt_succ_self _) rfl ?_
        fun _ h => h.move (.inl rfl) (.inl rfl))
      change days * day < 2 ^ 63
      simp only [day]
      omega
    · obtain rfl := mem_singleton.mp hw
      exact operation_sound hop rfl

theorem sound_requestDelete {requestId : Text} {undoSeconds : Nat}
    : Sound inv (inv.requestDelete key revision requestId undoSeconds false now) := by
  have hop : (Write.operation (deleteOperation requestId key revision undoSeconds false
      now)).Sound inv := .inl ⟨trivial, rfl⟩
  unfold requestDelete
  cases inv.artifact key <;> simp [hop]

theorem sound_cancelDelete : Sound inv (inv.cancelDelete key) := by
  unfold cancelDelete
  split
  · exact sound_nil
  · next op hop =>
    exact sound_ite.mpr ⟨fun _ => sound_operation (operation_sound hop rfl), fun _ => sound_nil⟩

/-! ### Movements -/

theorem sound_relocate (hinv : Tidy inv) {destination : OsPath}
    {destinationRoot : Identity} {taken : Bool} {seen : Option Seen} :
    Sound inv (inv.relocate job destination destinationRoot taken seen) := by
  unfold relocate
  split
  · next a seen ha =>
    have hget := hinv.artifact_of_forJob ha
    have hrow : Follows inv { a with
        files := seen.files, state := .transitioning, revision := a.revision + 1 } :=
      .bumped hinv hget (Nat.lt_succ_self _) (by simp [Artifact.eligible]) rfl
        fun _ h => h.move (.inl rfl) (.inr (by simp))
    have hperiod : a.retentionSeconds < 2 ^ 63 := hinv.period hget
    refine sound_ite.mpr ⟨fun _ => sound_nil, fun _ => sound_cons.mpr ⟨fun w hw => ?_, sound_nil⟩⟩
    rcases mem_cons.mp hw with rfl | hw
    · exact hrow
    · rw [mem_singleton.mp hw]
      exact .inl ⟨⟨hperiod, fun _ h => by cases h⟩, rfl⟩
  · exact sound_nil

theorem movement_eq_some {op : Operation} {m : Relocation}
    (h : inv.movement key = some (op, m)) :
    inv.operation key = some op ∧ op.request = .relocate m := by
  unfold movement at h
  split at h
  · cases h
  · next op' hop =>
    split at h
    · next m' _ _ hrequest =>
      obtain ⟨rfl, rfl⟩ := Prod.mk.inj (Option.some.inj h)
      exact ⟨hop, hrequest⟩
    · cases h

theorem Tidy.fits (hinv : Tidy inv) {op : Operation} {m : Relocation}
    (h : inv.movement key = some (op, m)) : (Request.relocate m).Fits := by
  obtain ⟨hop, hrequest⟩ := movement_eq_some h
  exact hrequest ▸ hinv.requests op (Table.mem_of_get hop)

theorem sound_relocateScratch (hinv : Tidy inv) {key generation : Text} {identity : Identity}
    {files : List FileEntry} : Sound inv (inv.relocateScratch key generation identity files) := by
  unfold relocateScratch
  split
  · exact sound_nil
  · next op m hm =>
    have hsource := (hinv.fits hm).1
    refine sound_sidecar (sound_append.mpr ⟨sound_artifact (.copied (isCopy_scratch key) ?_ ?_ ?_),
      sound_cons.mpr ⟨fun w hw => ?_, sound_nil⟩⟩)
    · simp [Artifact.eligible]
    · exact hsource
    · exact ⟨rfl, by simp, by simp⟩
    · rw [mem_singleton.mp hw]
      refine .inl ⟨⟨hsource, fun scratch hscratch => ?_⟩, rfl⟩
      rw [← Option.some.inj hscratch]
      exact ⟨isCopy_scratch key, rfl, hsource⟩

theorem sound_retirement {old : Artifact} :
    ∀ w ∈ Inventory.retirement key old now, w.Sound inv := by
  intro w hw
  unfold retirement at hw
  split at hw
  · rw [mem_singleton.mp hw]
    exact .inl ⟨trivial, rfl⟩
  · cases hw

theorem sound_commitRelocation (hinv : Tidy inv) {seen : Option Seen}
    (hnew : inv.artifact (text "source-" ++ key) = none) :
    Sound inv (inv.commitRelocation key seen now) := by
  unfold commitRelocation
  split
  · next op m seen hm =>
    have hop := (movement_eq_some hm).1
    split
    · exact sound_nil
    · next a ha =>
      have hget := artifact_id ha
      have hcurrent : Follows inv { a with
          path := m.destination
          root := m.destination.dropLast
          rootIdentity := m.destinationRoot
          identity := some seen.identity
          files := seen.files
          state := .active
          revision := a.revision + 2 } :=
        .bumped hinv hget (Nat.lt_add_of_pos_right Nat.two_pos) (by simp [Artifact.eligible]) rfl
          fun _ h => h.move (.inl rfl) (.inr (by simp))
      refine sound_ite.mpr ⟨fun _ => sound_nil, fun _ => sound_sidecar ?_⟩
      split
      · refine sound_cons.mpr ⟨fun w hw => ?_, sound_nil⟩
        rcases mem_cons.mp hw with rfl | hw
        · exact hcurrent
        · rw [mem_singleton.mp hw]
          exact operation_sound hop rfl
      · next scratch hscratch =>
        refine sound_sidecar (sound_cons.mpr ⟨fun w hw => ?_, sound_nil⟩)
        rcases mem_append.mp hw with hw | hw
        · rcases mem_append.mp hw with hw | hw
          · rcases mem_cons.mp hw with rfl | hw
            · -- the copy has become the payload
              obtain ⟨hcopy, hjob, hperiod⟩ := (hinv.fits hm).2 scratch hscratch
              exact .copied hcopy (by simp [Artifact.eligible]) hperiod ⟨hjob, by simp, by simp⟩
            · rw [mem_singleton.mp hw]
              exact .fresh hnew (by simp [retired, Artifact.eligible])
                (by simp [retired]) (isCopy_retired key)
          · exact sound_retirement w hw
        · rcases mem_cons.mp hw with rfl | hw
          · exact hcurrent
          · rw [mem_singleton.mp hw]
            exact operation_sound hop rfl
  · exact sound_nil

theorem sound_retainScratch (hinv : Tidy inv) {op : Operation} {m : Relocation}
    (hm : inv.movement key = some (op, m)) : Sound inv (inv.retainScratch m) := by
  unfold retainScratch
  split
  · exact sound_nil
  · next scratch hscratch =>
    split
    · exact sound_nil
    · next row hrow =>
      have hcopy : isCopy row.id = true := by
        rw [show row.id = scratch.id from Table.key_of_get hrow]
        exact ((hinv.fits hm).2 scratch hscratch).1
      have hshelved := hinv.copies row (Table.mem_of_get hrow) hcopy
      have hperiod := hinv.period hrow
      exact sound_artifact (.copied hcopy (by simp [Artifact.eligible]) hperiod
        (hshelved.move (.inl rfl) (.inr (by simp))))

theorem sound_failRelocation (hinv : Tidy inv) {error : Error} {there : Bool} :
    Sound inv (inv.failRelocation key error there) := by
  unfold failRelocation
  split
  · exact sound_nil
  · next op m hm =>
    refine sound_append.mpr ⟨sound_append.mpr ⟨sound_operation
      (operation_sound (movement_eq_some hm).1 rfl), sound_retainScratch hinv hm⟩, ?_⟩
    split
    · exact sound_nil
    · next a ha =>
      have hget := artifact_id ha
      exact sound_ite.mpr ⟨fun _ => sound_artifact
        (.idle hinv hget rfl (by simp [Artifact.requestable]) rfl
          fun _ h => h.move (.inl rfl) (.inr (by simp))), fun _ => sound_nil⟩

theorem sound_interruptRelocation (hinv : Tidy inv) {error : Error} :
    Sound inv (inv.interruptRelocation key error) := by
  unfold interruptRelocation
  split
  · exact sound_nil
  · next op m hm =>
    refine sound_append.mpr ⟨sound_append.mpr ⟨sound_retainScratch hinv hm,
      sound_operation (operation_sound (movement_eq_some hm).1 rfl)⟩, ?_⟩
    split
    · exact sound_nil
    · next a ha =>
      have hget := artifact_id ha
      exact sound_artifact
        (.bumped hinv hget (Nat.lt_succ_self _) (by simp [Artifact.eligible]) rfl
          fun _ h => h.move (.inl rfl) (.inr (by simp)))

/-! ### Recovery -/

theorem sound_stageRecovery (hinv : Tidy inv) {requestId : Text}
    {paths : List OsPath} {root : OsPath} {id generation : Text}
    {seen : Option (List FileEntry)} :
    Sound inv (inv.stageRecovery key revision requestId paths root id generation seen) := by
  unfold stageRecovery
  split
  · exact sound_nil
  · next a ha =>
    have hget := artifact_id ha
    have hrow : Follows inv { a with
        hold := some (text "recovery:" ++ id), revision := a.revision + 1 } :=
      .bumped hinv hget (Nat.lt_succ_self _) (by simp [Artifact.eligible]) rfl
        fun _ h => h.move (.inl rfl) (.inl rfl)
    refine sound_ite.mpr ⟨fun _ => sound_nil, fun _ => ?_⟩
    simpa using hrow

theorem sound_publish {id : Text} {files : List RecoveryFile} {digest : Text}
    {seen : Seen} : Sound inv (inv.publish id files digest seen now) := by
  unfold publish
  split
  · exact sound_nil
  · next r hr =>
    refine sound_ite.mpr ⟨fun _ => sound_nil, fun _ => sound_cons.mpr ⟨by simp, ?_⟩⟩
    unfold registerPublication
    refine sound_ite.mpr ⟨fun _ => sound_nil, fun hnew => sound_sidecar (sound_artifact ?_)⟩
    exact .fresh (Option.not_isSome_iff_eq_none.mp hnew) (by simp [newRow, Artifact.eligible])
      (by simp [day]) (isCopy_stagedKey r)

theorem sound_held (hinv : Tidy inv) {key hold : Text} :
    Sound inv (match inv.artifact key with
      | none => []
      | some a => [[.artifact { a with hold := some hold, revision := a.revision + 1 }]]) := by
  split
  · exact sound_nil
  · next a ha =>
    have hget := artifact_id ha
    exact sound_artifact (.bumped hinv hget (Nat.lt_succ_self _) (by simp [Artifact.eligible]) rfl
      fun _ h => h.move (.inl rfl) (.inl rfl))

theorem sound_holdForReview (hinv : Tidy inv) (r : Recovery) : Sound inv (inv.holdForReview r) :=
  sound_append.mpr ⟨sound_held hinv, sound_held hinv⟩

theorem sound_endStaging (hinv : Tidy inv) {id : Text} {error : Option Error} :
    Sound inv (inv.endStaging id error) := by
  unfold endStaging
  split
  · exact sound_nil
  · simp [sound_holdForReview hinv]

theorem sound_claimRecovery {key consumer importId manifest : Text} :
    Sound inv (inv.claimRecovery key consumer importId manifest) := by
  unfold claimRecovery
  split <;> simp

theorem sound_recoveryReceipt (hinv : Tidy inv) {key consumer : Text} {receipt : Receipt}
    : Sound inv (inv.recoveryReceipt key consumer receipt now) := by
  unfold recoveryReceipt
  cases hr : inv.recovery key with
  | none => exact sound_nil
  | some r =>
    cases ha : inv.artifact r.artifact with
    | none =>
      simp only [ha]
      exact sound_nil
    | some a =>
      have hget := artifact_id ha
      have hperiod := hinv.period ha
      have hsource : Follows inv (receivedSource r a now) :=
        .reset hinv hget (Nat.lt_succ_self _) rfl hperiod fun _ h => h.move (.inl rfl) (.inl rfl)
      have hsame : Follows inv a := .same hinv hget le_rfl rfl rfl
        fun _ h => h
      simp only [ha]
      refine sound_ite.mpr ⟨fun _ => sound_nil, fun _ => sound_ite.mpr ⟨fun _ => ?_, fun _ => ?_⟩⟩
      · cases hs : inv.artifact (stagedKey r) with
        | none => exact sound_nil
        | some staged =>
          have hgets := artifact_id hs
          have hperiods := hinv.period hs
          have hstaged : Follows inv { staged with
              state := .recoveryImported
              hold := none
              deadline := some (now + day)
              eligibleSeconds := 0
              revision := staged.revision + 1 } :=
            .reset hinv hgets (Nat.lt_succ_self _) rfl hperiods fun hc => absurd hc (by
              rw [show staged.id = stagedKey r from Table.key_of_get hs, isCopy_stagedKey]
              exact Bool.false_ne_true)
          simpa using ⟨hstaged, hsource⟩
      · simpa using hsame

theorem sound_cancelRecovery (hinv : Tidy inv) {consumer : Option Text} {ack : Bool} :
    Sound inv (inv.cancelRecovery key consumer ack) := by
  unfold cancelRecovery
  split
  · exact sound_nil
  · simp [sound_holdForReview hinv]

theorem sound_pruneSource (hinv : Tidy inv) {remaining : Option (List FileEntry)}
    : Sound inv (inv.pruneSource key remaining now) := by
  unfold pruneSource
  split
  · exact sound_nil
  split
  · exact sound_nil
  · next a ha =>
    have hget := artifact_id ha
    refine sound_ite.mpr ⟨fun _ => sound_nil, fun _ => ?_⟩
    split
    · exact sound_artifact (.bumped hinv hget (Nat.lt_succ_self _) (by simp [Artifact.eligible]) rfl
        fun _ h => h.move (.inl rfl) (.inr (by simp)))
    · exact sound_artifact (.bumped hinv hget (Nat.lt_succ_self _) (by simp [Artifact.eligible]) rfl
        fun _ h => h.move (.inl rfl) (.inr (by simp)))
    · exact sound_artifact (.bumped hinv hget (Nat.lt_succ_self _) (by simp [Artifact.eligible]) rfl
        fun _ h => h.move (.inl rfl) (.inl rfl))

/-! ### Tasks, and a start -/

theorem sound_submitTask {kind : OperationKind} {artifact id request : Text} :
    Sound inv (inv.submitTask kind artifact id request now) :=
  sound_ite.mpr ⟨fun _ => sound_nil, fun _ => sound_operation (.inl ⟨trivial, rfl⟩)⟩

theorem sound_startTask : Sound inv (inv.startTask key now) := by
  unfold startTask
  split
  · exact sound_nil
  · next op hop =>
    exact sound_ite.mpr ⟨fun _ => sound_operation (operation_sound hop rfl), fun _ => sound_nil⟩

theorem sound_endTask {error : Option Error} : Sound inv (inv.endTask key error) := by
  unfold endTask
  split
  · exact sound_nil
  · next op hop =>
    exact sound_ite.mpr ⟨fun _ => sound_operation (operation_sound hop rfl), fun _ => sound_nil⟩

theorem sound_reconcileStartup (hinv : Tidy inv) {live : Bool}
    {there : Option Identity} {seen : Option (List FileEntry)} :
    Sound inv (inv.reconcileStartup key live there seen now) := by
  unfold reconcileStartup
  split
  · exact sound_nil
  · next a ha =>
    have hget := artifact_id ha
    refine sound_ite.mpr ⟨fun _ => sound_nil, fun _ => ?_⟩
    -- the job is there or not, the row was being allocated or not, and its directory is there or not
    cases live <;> by_cases hallocating : a.state = .allocating <;> cases there <;> cases seen <;>
      simp only [hallocating, if_true, if_false, Bool.false_eq_true] <;>
      exact sound_artifact (.bumped hinv hget (Nat.lt_succ_self _) (by simp [Artifact.eligible]) rfl
        fun _ h => h.move (by simp) (by simp [hallocating]))

theorem sound_reconcileMissing (hinv : Tidy inv) :
    Sound inv (inv.reconcileMissing key now) := by
  unfold reconcileMissing
  split
  · exact sound_nil
  · next a ha =>
    have hget := artifact_id ha
    exact sound_ite.mpr ⟨fun _ => sound_artifact
      (.bumped hinv hget (Nat.lt_succ_self _) (by simp [Artifact.eligible]) rfl
        fun _ h => h.move (.inl rfl) (.inr (by simp))), fun _ => sound_nil⟩

theorem sound_compact (hinv : Tidy inv) :
    Sound inv (inv.compact key now) := by
  unfold compact
  split
  · exact sound_nil
  · next a ha =>
    have hget := artifact_id ha
    exact sound_ite.mpr ⟨fun _ => sound_artifact (.same hinv hget le_rfl rfl rfl
      fun _ h => h.move (.inl rfl) (.inl rfl)),
      fun _ => sound_nil⟩

theorem sound_quarantineRestore (hinv : Tidy inv) : Sound inv inv.quarantineRestore := by
  refine sound_cons.mpr ⟨fun w hw => ?_, sound_nil⟩
  rcases mem_append.mp hw with hw | hw
  · rcases mem_append.mp hw with hw | hw
    · obtain ⟨a, ha, rfl⟩ := mem_map.mp hw
      have hget := hinv.artifact_of_mem (mem_filter.mp ha).1
      exact artifact_sound.mpr
        (.bumped hinv hget (Nat.lt_succ_self _) (by simp [Artifact.eligible]) rfl
          fun _ h => h.move (.inl rfl) (.inl rfl))
    · obtain ⟨r, -, rfl⟩ := mem_map.mp hw
      trivial
  · obtain ⟨op, hop, rfl⟩ := mem_map.mp hw
    exact .inr ⟨op, (mem_filter.mp hop).1, rfl⟩

/-- **What every operation keeps to.** -/
theorem sound_txs (hinv : Tidy inv) {c : RowStep} (h : c.Undisturbed inv) : Sound inv (c.txs inv) := by
  cases c with
  | allocate => exact sound_allocate h
  | discover => exact sound_discover h
  | disown => exact sound_disown hinv
  | engage => exact sound_engage hinv h
  | prepareForget => exact sound_prepareForget hinv
  | finish => exact sound_finish hinv h
  | inspect => exact sound_inspect hinv
  | adopt => exact sound_adopt hinv
  | retention => exact sound_retention hinv
  | releaseReview => exact sound_releaseReview hinv
  | applyRetention => exact sound_applyRetention hinv h
  | previewRetention =>
    exact sound_ite.mpr ⟨fun _ => sound_nil, fun _ => sound_operation (.inl ⟨trivial, rfl⟩)⟩
  | requestDelete => exact sound_requestDelete
  | cancelDelete => exact sound_cancelDelete
  | accrue => exact h.elim
  | expire => exact h.elim
  | relocate => exact sound_relocate hinv
  | relocateScratch => exact sound_relocateScratch hinv
  | commitRelocation => exact sound_commitRelocation hinv h
  | failRelocation => exact sound_failRelocation hinv
  | interruptRelocation => exact sound_interruptRelocation hinv
  | stageRecovery => exact sound_stageRecovery hinv
  | publish => exact sound_publish
  | endStaging => exact sound_endStaging hinv
  | claimRecovery => exact sound_claimRecovery
  | recoveryReceipt => exact sound_recoveryReceipt hinv
  | cancelRecovery => exact sound_cancelRecovery hinv
  | pruneSource => exact sound_pruneSource hinv
  | submitTask => exact sound_submitTask
  | startTask => exact sound_startTask
  | endTask => exact sound_endTask
  | reconcileStartup => exact sound_reconcileStartup hinv
  | reconcileMissing => exact sound_reconcileMissing hinv
  | compact => exact sound_compact hinv
  | quarantineRestore => exact sound_quarantineRestore hinv
  | setSettings s =>
    refine sound_ite.mpr ⟨fun _ => sound_nil, fun hdays => sound_cons.mpr ⟨fun w hw => ?_, sound_nil⟩⟩
    rw [mem_singleton.mp hw]
    change s.failedRetentionDays < 2 ^ 32
    omega
  | protectRoots roots =>
    exact sound_cons.mpr ⟨fun w hw => by rw [mem_singleton.mp hw]; trivial, sound_nil⟩

end Operations

/-! ### What comes of it -/

section Turned

variable {inv : Inventory} {ws : List Write}

/-- What an operation has made of the tables. -/
structure Turned (inv inv' : Inventory) : Prop where
  rows : ∀ key, inv'.artifact key = inv.artifact key ∨ ∃ a, inv'.artifact key = some a ∧
    a.id = key ∧ Follows inv a
  tidy : Tidy inv'
  requests : ∀ op ∈ inv'.operations, op.request.automatic = none ∨
    ∃ old ∈ inv.operations, old.request = op.request

theorem artifact_foldl (inv : Inventory) (ws : List Write) (key : Text) :
    (ws.foldl Write.apply inv).artifact key = inv.artifact key ∨
      ∃ a, .artifact a ∈ ws ∧ a.id = key ∧ (ws.foldl Write.apply inv).artifact key = some a := by
  induction ws generalizing inv with
  | nil => exact .inl rfl
  | cons w ws ih =>
    rw [foldl_cons]
    rcases ih (w.apply inv) with hsame | ⟨a, ha, hid, hget⟩
    · cases w with
      | artifact a =>
        by_cases hid : a.id = key
        · refine .inr ⟨a, mem_cons_self, hid, hsame.trans ?_⟩
          rw [← hid]
          exact artifact_saveArtifact_self _ _
        · exact .inl (hsame.trans (artifact_saveArtifact_of_ne _ hid))
      | _ => exact .inl hsame
    · exact .inr ⟨a, mem_cons_of_mem _ ha, hid, hget⟩

theorem mem_artifacts_foldl {a : Artifact} (h : a ∈ (ws.foldl Write.apply inv).artifacts) :
    .artifact a ∈ ws ∨ a ∈ inv.artifacts ∧ ∀ b, .artifact b ∈ ws → b.id ≠ a.id := by
  induction ws generalizing inv with
  | nil => exact .inr ⟨h, fun _ hb => by cases hb⟩
  | cons w ws ih =>
    rcases ih h with hmem | ⟨hmem, hlater⟩
    · exact .inl (mem_cons_of_mem _ hmem)
    · cases w with
      | artifact c =>
        rcases Table.mem_put hmem with rfl | ⟨hmem, hne⟩
        · exact .inl mem_cons_self
        · refine .inr ⟨hmem, fun b hb => ?_⟩
          rcases mem_cons.mp hb with heq | hb
          · exact fun hid => hne (hid.symm.trans (congrArg Artifact.id (Write.artifact.inj heq)))
          · exact hlater b hb
      | _ =>
        refine .inr ⟨hmem, fun b hb => ?_⟩
        rcases mem_cons.mp hb with heq | hb
        · cases heq
        · exact hlater b hb

theorem mem_operations_foldl {op : Operation}
    (h : op ∈ (ws.foldl Write.apply inv).operations) :
    op ∈ inv.operations ∨ .operation op ∈ ws := by
  induction ws generalizing inv with
  | nil => exact .inl h
  | cons w ws ih =>
    rcases ih h with hmem | hmem
    · cases w with
      | operation op' =>
        rcases Table.mem_put hmem with rfl | ⟨hmem, -⟩
        · exact .inr mem_cons_self
        · exact .inl hmem
      | _ => exact .inl hmem
    · exact .inr (mem_cons_of_mem _ hmem)

theorem settings_foldl (inv : Inventory) (ws : List Write) :
    (ws.foldl Write.apply inv).settings = inv.settings ∨
      .settings (ws.foldl Write.apply inv).settings ∈ ws := by
  induction ws generalizing inv with
  | nil => exact .inl rfl
  | cons w ws ih =>
    rw [foldl_cons]
    rcases ih (w.apply inv) with hsame | hmem
    · cases w with
      | settings s =>
        rw [hsame]
        exact .inr mem_cons_self
      | _ => exact .inl hsame
    · exact .inr (mem_cons_of_mem _ hmem)

theorem keys_foldl (h : (inv.artifacts.map Artifact.id).Nodup) :
    ((ws.foldl Write.apply inv).artifacts.map Artifact.id).Nodup := by
  induction ws generalizing inv with
  | nil => exact h
  | cons w ws ih =>
    refine ih ?_
    cases w with
    | artifact a => exact Table.nodup_put h
    | _ => exact h

theorem turned_foldl (hinv : Tidy inv) (ws : List Write) (h : ∀ w ∈ ws, w.Sound inv) :
    Turned inv (ws.foldl Write.apply inv) where
  rows key := by
    rcases artifact_foldl inv ws key with hsame | ⟨a, ha, hid, hget⟩
    · exact .inl hsame
    · exact .inr ⟨a, hget, hid, h _ ha⟩
  requests op hop := by
    rcases mem_operations_foldl hop with hold | hnew
    · exact .inr ⟨op, hold, rfl⟩
    · exact (h _ hnew).imp_left And.right
  tidy :=
    { keys := keys_foldl hinv.keys
      periods := fun a ha => (mem_artifacts_foldl ha).elim (fun hnew => (h _ hnew).period)
        fun hold => hinv.periods a hold.1
      copies := fun a ha => (mem_artifacts_foldl ha).elim (fun hnew => (h _ hnew).shelved)
        fun hold => hinv.copies a hold.1
      requests := fun op hop => by
        rcases mem_operations_foldl hop with hold | hnew
        · exact hinv.requests op hold
        · rcases h _ hnew with ⟨hfits, -⟩ | ⟨old, hold, hrequest⟩
          · exact hfits
          · rw [← hrequest]
            exact hinv.requests old hold
      days := by
        rcases settings_foldl inv ws with hsame | hnew
        · rw [hsame]
          exact hinv.days
        · exact h _ hnew }

theorem turned_commit (hinv : Tidy inv) {txs : List Tx} (h : Sound inv txs) (n : Nat) :
    Turned inv (commit n txs inv) := by
  refine turned_foldl hinv _ fun w hw => ?_
  obtain ⟨tx, htx, hw⟩ := mem_flatten.mp hw
  exact h tx (mem_of_mem_take htx) w hw

/-- What an attempt makes of the row of its artifact. -/
inductive Deleted (w : Answers) (a : Artifact) : Artifact → Prop
  | begun : Deleted w a a.deleting
  | ended (op : Operation) (e : Option Error) : Deleted w a (conclude w op a.deleting e).2

theorem executeDelete_writes (w : Answers) (inv : Inventory) (disk : Disk) (key : Text) :
    ∃ ws : List Write, (executeDelete w inv disk key).inventory = ws.foldl Write.apply inv ∧
      ∀ x ∈ ws, ∃ op, inv.operation key = some op ∧
        ((∃ op', x = .operation op' ∧ op.request = op'.request) ∨
          ∃ a a', inv.artifact op.artifact = some a ∧ x = .artifact a' ∧ Deleted w a a') := by
  unfold executeDelete
  split
  · exact ⟨[], rfl, fun _ h => by cases h⟩
  · next op hop =>
    split
    · exact ⟨[], rfl, fun _ h => by cases h⟩
    split
    · exact ⟨[], rfl, fun _ h => by cases h⟩
    split
    · exact ⟨[], rfl, fun _ h => by cases h⟩
    · next a _ revision _ automatic ha _ =>
      have hrow : ∀ a', Deleted w a a' → ∃ op, inv.operation key = some op ∧
          ((∃ op', Write.artifact a' = .operation op' ∧ op.request = op'.request) ∨
            ∃ b b', inv.artifact op.artifact = some b ∧ Write.artifact a' = .artifact b' ∧
              Deleted w b b') := fun a' h => ⟨op, hop, .inr ⟨a, a', ha, rfl, h⟩⟩
      have hwritten : ∀ op', op.request = op'.request → ∃ op, inv.operation key = some op ∧
          ((∃ op'', Write.operation op' = .operation op'' ∧ op.request = op''.request) ∨
            ∃ b b', inv.artifact op.artifact = some b ∧ Write.operation op' = .artifact b' ∧
              Deleted w b b') := fun op' h => ⟨op, hop, .inl ⟨op', rfl, h⟩⟩
      split
      · split
        · refine ⟨[.operation _], rfl, fun x hx => ?_⟩
          rw [mem_singleton.mp hx]
          exact hwritten _ rfl
        · exact ⟨[], rfl, fun _ h => by cases h⟩
      split
      · exact ⟨[], rfl, fun _ h => by cases h⟩
      · unfold attempt
        split
        · split
          · refine ⟨[.operation op.begun, .artifact a.deleting, .operation _, .artifact _], rfl, ?_⟩
            simp only [mem_cons, not_mem_nil, or_false, forall_eq_or_imp, forall_eq]
            refine ⟨hwritten _ rfl, hrow _ .begun, hwritten _ ?_, hrow _ (.ended _ _)⟩
            cases (removal w inv disk op a).2 <;> rfl
          · refine ⟨[.operation op.begun, .artifact a.deleting], rfl, ?_⟩
            simp only [mem_cons, not_mem_nil, or_false, forall_eq_or_imp, forall_eq]
            exact ⟨hwritten _ rfl, hrow _ .begun⟩
        · exact ⟨[], rfl, fun _ h => by cases h⟩
    · exact ⟨[], rfl, fun _ h => by cases h⟩

/-- **A deletion takes a row out of retention for good.** -/
theorem turned_executeDelete (hinv : Tidy inv) (w : Answers) (disk : Disk) (key : Text) :
    Turned inv (executeDelete w inv disk key).inventory := by
  obtain ⟨ws, hws, hwritten⟩ := executeDelete_writes w inv disk key
  rw [hws]
  refine turned_foldl hinv ws fun x hx => ?_
  obtain ⟨op, hop, ⟨op', rfl, hrequest⟩ | ⟨a, a', ha, rfl, hdeleted⟩⟩ := hwritten x hx
  · exact operation_sound hop hrequest
  · have hget := artifact_id ha
    cases hdeleted with
    | begun =>
      exact .idle hinv hget rfl (by simp [Artifact.deleting, Artifact.requestable]) rfl
        fun _ h => h.move (.inl rfl) (.inr (by simp [Artifact.deleting]))
    | ended op e =>
      cases e <;> exact .bumped hinv hget (Nat.lt_succ_self _)
        (by simp [conclude, Artifact.eligible]) rfl
        fun _ h => h.move (.inl rfl) (.inr (by simp [conclude]))

end Turned

end Nzbd.Artifacts
