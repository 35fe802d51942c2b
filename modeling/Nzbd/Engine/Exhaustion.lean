import Nzbd.Engine.Failover
import Nzbd.Lib.Run

/-!
# When an article is given up

The tier of a segment only rises, also when the reason was a passing one: a fill server
that is blocked now is passed over for good.  What holds is that nothing else is.  Every
server below the tier that is not a fill server is ruled out: it has failed the article,
stands in for one that has, or does not keep articles that long (`Passed`).  Failures
are not taken back and articles do not get younger, so it stays ruled out.

A segment is exhausted only on the highest tier, and so only if every such server is
ruled out (`exhaustion_sound_of_run`): no block of a server that is not a fill server
fails an article.
-/

namespace Nzbd.Engine.Ladder

variable {servers : List ServerDef} {att att' : SegmentAttempt} {age known : Option Nat}
  {isBlocked : ServerId → Bool}

/-- The server cannot have the article. -/
def RuledOut (servers : List ServerDef) (att : SegmentAttempt) (age : Option Nat) (s : ServerDef) :
    Prop :=
  isGroupFailed servers att s = true ∨ retentionExceeded s age = true

/-- Every server below the tier is ruled out, fill servers apart. -/
def Passed (servers : List ServerDef) (att : SegmentAttempt) (age : Option Nat) : Prop :=
  ∀ s ∈ servers, s.active = true → s.fill = false → s.tier < att.tier → RuledOut servers att age s

def Spent (servers : List ServerDef) (att : SegmentAttempt) (age : Option Nat) : Prop :=
  ∀ s ∈ servers, s.active = true → s.fill = false → RuledOut servers att age s

/-- What is known of the age of the article after it has been given once more. -/
def learn (age known : Option Nat) : Option Nat := age.or known

/-- The article is not younger than it was. -/
def NotYounger (age known : Option Nat) : Prop := ∀ a k, age = some a → known = some k → k ≤ a

variable {s : ServerDef}

theorem retentionExceeded_learn (h : retentionExceeded s age = true) :
    retentionExceeded s (learn age known) = true := by
  cases age with
  | none => simp [retentionExceeded] at h
  | some a => exact h

theorem retentionExceeded_mono (hage : NotYounger age known)
    (h : retentionExceeded s known = true) : retentionExceeded s (learn age known) = true := by
  cases age with
  | none => exact h
  | some a =>
    cases known with
    | none => simp [retentionExceeded] at h
    | some k =>
      have hle := hage a k rfl rfl
      simp only [retentionExceeded, learn, Option.or, Bool.and_eq_true, decide_eq_true_eq] at h ⊢
      omega

theorem isGroupFailed_mono (hsub : att.failed ⊆ att'.failed)
    (h : isGroupFailed servers att s = true) : isGroupFailed servers att' s = true := by
  simp only [isGroupFailed, Bool.or_eq_true, Bool.and_eq_true, List.any_eq_true,
    decide_eq_true_eq] at h ⊢
  rcases h with h | ⟨hg, other, ho, hsame, hf⟩
  · exact .inl (hsub h)
  · exact .inr ⟨hg, other, ho, hsame, hsub hf⟩

theorem RuledOut.mono (hsub : att.failed ⊆ att'.failed) (hage : NotYounger age known)
    (h : RuledOut servers att known s) : RuledOut servers att' (learn age known) s :=
  h.imp (isGroupFailed_mono hsub) (retentionExceeded_mono hage)

theorem Passed.mono (hsub : att.failed ⊆ att'.failed) (htier : att'.tier = att.tier)
    (hage : NotYounger age known) (h : Passed servers att known) :
    Passed servers att' (learn age known) :=
  fun s hs ha hf ht => (h s hs ha hf (htier ▸ ht)).mono hsub hage

/-! ### The climb -/

theorem tier_le_maxTier (hs : s ∈ servers) (ha : s.active = true) :
    s.tier ≤ maxTier servers := by
  have hmem : s.tier ∈ (servers.filter (·.active)).map (·.tier) :=
    List.mem_map_of_mem (List.mem_filter.mpr ⟨hs, ha⟩)
  have hfold : ∀ (l : List Nat) (m : Nat), (∀ a ∈ l, a ≤ l.foldl max m) ∧ m ≤ l.foldl max m := by
    intro l
    induction l with
    | nil => intro m; exact ⟨fun a ha => (nomatch ha), Nat.le_refl m⟩
    | cons b l ih =>
      intro m
      obtain ⟨h1, h2⟩ := ih (max m b)
      refine ⟨fun a ha => ?_, le_trans (Nat.le_max_left m b) h2⟩
      rcases List.mem_cons.mp ha with rfl | ha
      · exact le_trans (Nat.le_max_right m a) h2
      · exact h1 a ha
  exact (hfold _ 0).1 _ hmem

theorem ruledOut_of_not_candidate (hs : s ∈ servers) (ha : s.active = true)
    (ht : s.tier = att.tier) (h : s ∉ candidates servers att age) :
    RuledOut servers att (learn age known) s := by
  have hc : ¬ (isGroupFailed servers att s = false ∧ retentionExceeded s age = false) := by
    rintro ⟨hg, hr⟩
    exact h (List.mem_filter.mpr ⟨hs, by simp [ha, ht, hg, hr]⟩)
  cases hg : isGroupFailed servers att s with
  | true => exact .inl hg
  | false =>
    cases hr : retentionExceeded s age with
    | true => exact .inr (retentionExceeded_learn hr)
    | false => exact absurd ⟨hg, hr⟩ hc

theorem ruledOut_of_fill (hs : s ∈ servers) (ha : s.active = true)
    (hf : s.fill = false) (ht : s.tier = att.tier)
    (h : ∀ s ∈ candidates servers att age, s.fill = true) :
    RuledOut servers att (learn age known) s := by
  refine ruledOut_of_not_candidate hs ha ht fun hmem => ?_
  rw [h s hmem] at hf
  nomatch hf

theorem Passed.climb (h : Passed servers att (learn age known))
    (hfill : ∀ s ∈ candidates servers att age, s.fill = true) :
    Passed servers { att with tier := att.tier + 1 } (learn age known) := by
  intro s hs ha hf ht
  rcases Nat.lt_succ_iff_lt_or_eq.mp ht with ht | ht
  · exact h s hs ha hf ht
  · have hout : RuledOut servers att (learn age known) s := ruledOut_of_fill hs ha hf ht hfill
    exact hout

theorem Passed.spent (h : Passed servers att (learn age known)) (htop : maxTier servers ≤ att.tier)
    (hfill : ∀ s ∈ candidates servers att age, s.fill = true) :
    Spent servers att (learn age known) := by
  intro s hs ha hf
  rcases Nat.lt_or_eq_of_le ((tier_le_maxTier hs ha).trans htop) with ht | ht
  · exact h s hs ha hf ht
  · exact ruledOut_of_fill hs ha hf ht hfill

/-- What an answer promises, with the segment as it is afterwards. -/
structure Sound (servers : List ServerDef) (isBlocked : ServerId → Bool) (age known : Option Nat)
    (answer : Candidates × SegmentAttempt) : Prop where
  passed : Passed servers answer.2 known
  exhausted : answer.1 = .exhausted → Spent servers answer.2 known
  servers : ∀ ids, answer.1 = .servers ids → ids ≠ [] ∧ ∀ id ∈ ids, isBlocked id = false ∧
    ∃ s ∈ servers, s.id = id ∧ s.active = true ∧ s.tier = answer.2.tier ∧
      isGroupFailed servers answer.2 s = false ∧ retentionExceeded s age = false

theorem climb_tier {fuel : Nat} (h : Passed servers att (learn age known))
    (hnext : (∀ s ∈ candidates servers att age, s.fill = true) →
      Sound servers isBlocked age (learn age known) (match fuel with
        | 0 => (.exhausted, att)
        | fuel + 1 => climb servers isBlocked age fuel { att with tier := att.tier + 1 })) :
    Sound servers isBlocked age (learn age known) (climb servers isBlocked age fuel att) := by
  rw [climb.eq_def]
  simp only
  split
  next hnil =>
    refine hnext fun s hs => ?_
    rw [hnil] at hs
    nomatch hs
  next =>
    split
    next husable =>
      refine ⟨h, fun he => (nomatch he), ?_⟩
      intro ids hids
      obtain rfl := Candidates.servers.inj hids
      refine ⟨husable, fun id hid => ?_⟩
      obtain ⟨s, hs, rfl⟩ := List.mem_map.mp hid
      obtain ⟨hs, hb⟩ := List.mem_filter.mp hs
      obtain ⟨hs, hc⟩ := List.mem_filter.mp hs
      simp only [Bool.and_eq_true, Bool.not_eq_true', beq_iff_eq] at hc
      exact ⟨by simpa using hb, s, hs, rfl, hc.1.1.1, hc.1.1.2, hc.1.2, hc.2⟩
    next =>
      split
      next hall => exact hnext (List.all_eq_true.mp hall)
      next => exact ⟨h, fun he => (nomatch he), fun _ he => (nomatch he)⟩

/-- **The climb is sound**, tier by tier. -/
theorem climb_sound (fuel : Nat) (att : SegmentAttempt) (hfuel : fuel = maxTier servers - att.tier)
    (h : Passed servers att (learn age known)) :
    Sound servers isBlocked age (learn age known) (climb servers isBlocked age fuel att) := by
  induction fuel generalizing att with
  | zero =>
    refine climb_tier h fun hfill => ⟨h, fun _ => h.spent (by omega) hfill, fun _ he => (nomatch he)⟩
  | succ fuel ih => exact climb_tier h fun hfill => ih _ (by simp only; omega) (h.climb hfill)

theorem currentCandidates_sound (h : Passed servers att known) (hage : NotYounger age known) :
    Sound servers isBlocked age (learn age known) (currentCandidates servers att isBlocked age) :=
  climb_sound _ att rfl (h.mono (Finset.Subset.refl _) rfl hage)

/-! ### Runs -/

/-- A segment's ladder, with what is known of the age of the article. -/
structure Climber where
  att : SegmentAttempt
  known : Option Nat

/-- What can be asked and told. -/
inductive Call
  | currentCandidates (isBlocked : ServerId → Bool) (age : Option Nat)
  | select (isBlocked : ServerId → Bool)
  | isExhausted (age : Option Nat)
  | onOutcome (server : ServerId) (outcome : AttemptOutcome)

namespace Climber

def step (servers : List ServerDef) (k : Climber) : Call → Climber
  | .currentCandidates isBlocked age =>
    ⟨(Ladder.currentCandidates servers k.att isBlocked age).2, learn age k.known⟩
  | .select isBlocked => ⟨(Ladder.select servers k.att isBlocked).2, k.known⟩
  | .isExhausted age => ⟨(Ladder.isExhausted servers k.att age).2, learn age k.known⟩
  | .onOutcome server outcome => ⟨(Ladder.onOutcome k.att server outcome).2, k.known⟩

/-- Ages do not decrease. -/
def Ages (k : Climber) : Call → Prop
  | .currentCandidates _ age => NotYounger age k.known
  | .isExhausted age => NotYounger age k.known
  | _ => True

/-- Reached from a fresh segment by calls with ages that do not decrease. -/
abbrev Reached (servers : List ServerDef) (retries : Nat) : Climber → Prop :=
  Runs.Run (fun k => k = ⟨.new retries, none⟩) (fun k call k' => k' = k.step servers call) Ages

end Climber

theorem select_att : (select servers att isBlocked).2 =
    (currentCandidates servers att isBlocked none).2 := by
  unfold select
  simp only
  split <;> rfl

theorem onOutcome_failed (att : SegmentAttempt) (server : ServerId) (outcome : AttemptOutcome) :
    att.failed ⊆ (onOutcome att server outcome).2.failed ∧
      (onOutcome att server outcome).2.tier = att.tier := by
  cases outcome with
  | success => exact ⟨Finset.Subset.refl _, rfl⟩
  | connectionFailed => exact ⟨Finset.Subset.refl _, rfl⟩
  | articleMissing => exact ⟨Finset.subset_insert _ _, rfl⟩
  | crcError => exact ⟨Finset.subset_insert _ _, rfl⟩
  | retentionExceeded => exact ⟨Finset.subset_insert _ _, rfl⟩
  | other =>
    simp only [onOutcome]
    split
    · exact ⟨Finset.Subset.refl _, rfl⟩
    · exact ⟨Finset.subset_insert _ _, rfl⟩

theorem notYounger_none (known : Option Nat) : NotYounger none known := fun _ _ h => nomatch h

theorem Passed.step {k : Climber} (h : Passed servers k.att k.known) (call : Call)
    (hage : k.Ages call) : Passed servers (k.step servers call).att (k.step servers call).known := by
  cases call with
  | currentCandidates isBlocked age => exact (currentCandidates_sound h hage).passed
  | select isBlocked =>
    have hs : Passed servers (currentCandidates servers k.att isBlocked none).2 k.known :=
      (currentCandidates_sound h (notYounger_none _)).passed
    rwa [← select_att] at hs
  | isExhausted age => exact (currentCandidates_sound h hage).passed
  | onOutcome server outcome =>
    obtain ⟨hsub, htier⟩ := onOutcome_failed k.att server outcome
    exact h.mono hsub htier (notYounger_none k.known)

theorem passed_of_run {retries : Nat} {k : Climber} (h : Climber.Reached servers retries k) :
    Passed servers k.att k.known := by
  refine Runs.Run.invariant (P := fun k : Climber => Passed servers k.att k.known) ?_ ?_ h
  · rintro _ rfl s _ _ _ ht
    exact absurd ht (Nat.not_lt_zero _)
  · rintro k call _ hk hage rfl
    exact hk.step call hage

/-- **An article is given up only when every server that is not a fill server is ruled
out**, whatever has been blocked in the meantime, and only servers that may have it are
named. -/
theorem exhaustion_sound_of_run {retries : Nat} {k : Climber}
    (h : Climber.Reached servers retries k) (isBlocked : ServerId → Bool) (age : Option Nat)
    (hage : NotYounger age k.known) :
    Sound servers isBlocked age (learn age k.known)
        (currentCandidates servers k.att isBlocked age) ∧
      ((isExhausted servers k.att age).1 = true →
        Spent servers (isExhausted servers k.att age).2 (learn age k.known)) ∧
      ((select servers k.att isBlocked).1 = .exhausted →
        Spent servers (select servers k.att isBlocked).2 k.known) ∧
      (∀ id, (select servers k.att isBlocked).1 = .server id → isBlocked id = false ∧
        ∃ s ∈ servers, s.id = id ∧ s.active = true ∧
          s.tier = (select servers k.att isBlocked).2.tier ∧
          isGroupFailed servers (select servers k.att isBlocked).2 s = false) := by
  have hpassed := passed_of_run h
  have hsel : Sound servers isBlocked none k.known
      (currentCandidates servers k.att isBlocked none) :=
    currentCandidates_sound hpassed (notYounger_none _)
  refine ⟨currentCandidates_sound hpassed hage, fun he => ?_, fun he => ?_, fun id he => ?_⟩
  · refine (currentCandidates_sound hpassed hage).exhausted ?_
    simpa [isExhausted] using he
  · rw [select_att]
    refine hsel.exhausted ?_
    unfold select at he
    simp only at he
    split at he
    · nomatch he
    next hnil => exact absurd rfl (hsel.servers [] hnil).1
    · nomatch he
    next hex => exact hex
  · rw [select_att]
    unfold select at he
    simp only at he
    split at he
    next id' ids hids =>
      obtain rfl := Selection.server.inj he
      obtain ⟨hb, s, hs, hid, ha, ht, hg, -⟩ := (hsel.servers _ hids).2 id' List.mem_cons_self
      exact ⟨hb, s, hs, hid, ha, ht, hg⟩
    · nomatch he
    · nomatch he
    · nomatch he

/-- Both servers have failed the article, and it is given up. -/
theorem exhaustion_sound_missing :
    let servers : List ServerDef := [⟨1, true, 0, 0, false, 0⟩, ⟨2, true, 1, 0, false, 0⟩]
    let att : SegmentAttempt := ⟨0, {2, 1}, 3, 3⟩
    (isExhausted servers att (some 10)).1 = true ∧
      Spent servers (isExhausted servers att (some 10)).2 (some 10) := by
  intro servers att
  have hrun : Climber.Reached servers 3 ⟨att, none⟩ :=
    .step (i := .onOutcome 2 .articleMissing)
      (.step (i := .onOutcome 1 .articleMissing) (.start rfl) trivial rfl) trivial rfl
  have hex : (isExhausted servers att (some 10)).1 = true := by decide
  have hage : NotYounger (some 10) (none : Option Nat) := fun _ _ _ h => (nomatch h)
  exact ⟨hex, (exhaustion_sound_of_run hrun (fun _ => false) (some 10) hage).2.1 hex⟩

end Nzbd.Engine.Ladder
