import Nzbd.Artifacts.Handover
import Nzbd.Lib.Trace

/-!
# What a recovery goes through

Whatever the order of the sections, a recovery that has been cancelled is not published or
imported, it is claimed by one consumer for one import, one receipt counts, and its source is let
go only by a receipt that leaves nothing out.  That is so in every careful run: `handover_of_run`.

In others it is not: a call goes on with its own copy of the row, and the only thing it looks for in
the table is that somebody has asked it to cancel.
-/

namespace Nzbd.Artifacts

open List

open Runs (Run)

/-! ### Receipts -/

namespace Inventory

variable {inv : Inventory} {key : Text} {r : Recovery} {a : Artifact} {x : Receipt}

theorem source_receipt (hrow : inv.recovery key = some r) (ha : inv.artifact r.artifact = some a)
    (consumer : Text) (x : Receipt) (now : Int) :
    (inv.perform (inv.recoveryReceipt key consumer x now)).artifact r.artifact = some a ∨
      r.state = .claimed ∧ receiptFits r x = true ∧ receiptComplete r x = true ∧
        (inv.perform (inv.recoveryReceipt key consumer x now)).artifact r.artifact =
          some (receivedSource r a now) := by
  have haid : a.id = r.artifact := Table.key_of_get ha
  simp only [recoveryReceipt, hrow, ha]
  split_ifs with hrefused hcomplete
  · exact .inl ha
  · simp only [not_or, not_not, ne_eq, Bool.not_eq_false] at hrefused
    obtain ⟨-, -, -, -, hclaimed, hfits⟩ := hrefused
    split
    · exact .inl ha
    next staged hstaged =>
    refine .inr ⟨hclaimed, hfits, hcomplete, ?_⟩
    have hid : (receivedSource r a now).id = r.artifact := haid
    rw [← hid]
    exact artifact_saveArtifact_self _ _
  · left
    rw [← haid]
    exact artifact_saveArtifact_self _ _

theorem covers_of_complete (hfits : receiptFits r x = true) (hcomplete : receiptComplete r x = true)
    (hwhole : r.files.map (·.path) = r.paths) : x.Covers r := by
  simp only [receiptFits, Bool.and_eq_true, all_eq_true, any_eq_true,
    decide_eq_true_eq] at hfits
  simp only [receiptComplete, Bool.and_eq_true, decide_eq_true_eq, all_eq_true] at hcomplete
  obtain ⟨hlength, hdone⟩ := hcomplete
  have hsub : x.files.map (·.id) ⊆ r.files.map (·.id) := by
    intro id hid
    obtain ⟨g, hg, rfl⟩ := mem_map.mp hid
    obtain ⟨f, hf, ⟨hfid, -⟩, -⟩ := hfits.1 g hg
    exact hfid ▸ mem_map_of_mem hf
  have hperm : (x.files.map (·.id)).Perm (r.files.map (·.id)) :=
    (subperm_of_subset hfits.2 hsub).perm_of_length_le (by simp [hlength])
  intro p hp
  rw [← hwhole] at hp
  obtain ⟨f, hf, rfl⟩ := mem_map.mp hp
  obtain ⟨g, hg, hid⟩ := mem_map.mp (hperm.mem_iff.mpr (mem_map_of_mem hf))
  exact ⟨f, hf, rfl, g, hg, hid, hdone g hg⟩

theorem hold_receivedSource (hwhole : r.files.map (·.path) = r.paths)
    (hselected : Selected a.files r.paths)
    (hother : ∃ f ∈ a.files, f.identity.directory = false ∧ f.path ∉ r.paths) (now : Int) :
    (receivedSource r a now).hold.isSome := by
  obtain ⟨f, hf, hdir, hpath⟩ := hother
  have hsub : f.path :: r.paths ⊆ (a.files.filter (!·.identity.directory)).map (·.path) := by
    intro p hp
    rcases mem_cons.mp hp with rfl | hp
    · exact mem_map_of_mem (mem_filter.mpr ⟨hf, by simp [hdir]⟩)
    · obtain ⟨g, hg, rfl, hgdir⟩ := hselected.2 p hp
      exact mem_map_of_mem (mem_filter.mpr ⟨hg, by simp [hgdir]⟩)
  have hlength := (subperm_of_subset (nodup_cons.mpr ⟨hpath, hselected.1⟩) hsub).length_le
  have hfiles := congrArg length hwhole
  simp only [length_cons, length_map] at hlength hfiles
  have hne : (a.files.filter (!·.identity.directory)).length ≠ r.files.length := by omega
  simp only [receivedSource, if_neg hne, Option.isSome_some]

end Inventory

namespace Handover

variable {pathId : OsPath → Text} {s t : Handover} {id key consumer : Text} {c : Staging}
  {e : HandoverStep} {x : Receipt} {now : Int} {r : Recovery}

theorem after_receipt (h : s.Inv) (hstep : s.step pathId (.receipt key consumer x now) = some t) :
    t.Inv ∧ s.inventory.Preserves t.inventory ∧
      Inventory.Keeps (Known s.inventory)
        (fun k => ∀ r, s.inventory.recovery key = some r → k ≠ r.artifact)
        s.inventory t.inventory := by
  obtain rfl := Option.some.inj hstep
  cases hrow : s.inventory.recovery key with
  | none =>
    have hnil : s.inventory.recoveryReceipt key consumer x now = [] := by
      simp only [Inventory.recoveryReceipt, hrow]
    rw [hnil]
    exact ⟨h, .refl _, .refl⟩
  | some r =>
    have hw : Inventory.Writes (Known s.inventory) (· ≠ r.artifact) s.inventory
        (s.inventory.perform (s.inventory.recoveryReceipt key consumer x now)) r Recovery.Open :=
      Inventory.writes_receipt hrow (h.rows.source key r hrow).1 fun _ hk => hk.1
    obtain ⟨hinv, hpreserves⟩ := h.others hrow hw
    refine ⟨hinv, hpreserves, ?_⟩
    obtain ⟨hrows, hcopies⟩ := hw.keeps
    refine ⟨fun k a hP ha => ?_, hcopies⟩
    obtain ⟨a', ha', hfiles, hhold⟩ := hrows k a hP ha
    exact ⟨a', ha', hfiles, fun hQ => hhold (hQ r rfl)⟩

/-! ### Runs -/

theorem running_step (hstep : s.step pathId e = some t) (hc : s.running id = some c) :
    (∃ c', t.running id = some c') ∨ t.inventory = s.inventory ∨
      ∃ scratch now, e = .finish id scratch now := by
  have hcall {s : Handover} (hc : s.running id = some c) (id' : Text) (c' : Staging) :
      ∃ c'', (s.call id' (some c')).running id = some c'' := by
    by_cases hid : id = id'
    · exact ⟨c', hid ▸ running_call _⟩
    · exact ⟨c, (running_call_of_ne hid _).trans hc⟩
  cases e with
  | stage key revision requestId paths root apart id' generation seen w now =>
    obtain rfl := Option.some.inj hstep
    left
    by_cases hbad : paths = [] ∨ 1000 < paths.length ∨ requestId = [] ∨ 128 < requestId.length
    · rw [stage, if_pos hbad]
      exact ⟨c, hc⟩
    rw [stage, if_neg hbad]
    cases s.inventory.recoveries.find? (·.requestId = requestId) with
    | some existing =>
      simp only
      split_ifs
      all_goals exact ⟨c, hc⟩
    | none =>
      cases apart with
      | false => exact ⟨c, hc⟩
      | true =>
        simp only [Bool.true_eq_false, if_false]
        split
        · split_ifs
          · exact ⟨c, hc⟩
          · exact hcall hc id' _
        · exact ⟨c, hc⟩
  | makeScratch id' =>
    obtain ⟨c', -, hstep⟩ := Option.bind_eq_some_iff.mp hstep
    split_ifs at hstep
    obtain rfl := Option.some.inj hstep
    exact .inl (hcall hc id' _)
  | copy id' sha256 =>
    obtain ⟨c', -, hstep⟩ := Option.bind_eq_some_iff.mp hstep
    split at hstep
    · obtain rfl := Option.some.inj hstep
      exact .inl (hcall hc id' _)
    · cases hstep
  | fail id' error =>
    obtain ⟨c', -, hstep⟩ := Option.bind_eq_some_iff.mp hstep
    split at hstep
    · cases hstep
    · obtain rfl := Option.some.inj hstep
      exact .inl (hcall hc id' _)
  | publish id' digest placed now =>
    obtain ⟨c', -, hstep⟩ := Option.bind_eq_some_iff.mp hstep
    split_ifs at hstep
    obtain rfl := Option.some.inj hstep
    left
    unfold publish
    split_ifs
    · exact hcall hc id' _
    · cases placed with
      | error _ => exact hcall hc id' _
      | ok _ => exact hcall hc id' _
  | finish id' scratch now =>
    obtain ⟨c', -, hstep⟩ := Option.bind_eq_some_iff.mp hstep
    split at hstep
    · obtain rfl := Option.some.inj hstep
      by_cases hid : id = id'
      · exact .inr (.inr ⟨scratch, now, hid ▸ rfl⟩)
      · left
        unfold finish
        simp only
        split_ifs
        all_goals exact ⟨c, (running_call_of_ne hid _).trans hc⟩
    · cases hstep
  | stop id' =>
    obtain ⟨c', -, rfl⟩ := Option.map_eq_some_iff.mp hstep
    exact .inr (.inl rfl)
  | _ =>
    obtain rfl := Option.some.inj hstep
    exact .inl ⟨c, hc⟩

theorem inv_start (h : s.Start) : s.Inv := by
  have hnone (id : Text) : s.inventory.recovery id = none := by
    rw [Inventory.recovery, h.recoveries]
    rfl
  refine ⟨⟨?_, fun key a ha hprefix => ?_, fun id r hr => ?_, fun id r hr => ?_⟩, fun id c hc => ?_⟩
  · rw [h.recoveries]
    exact nodup_nil
  · obtain rfl := Table.key_of_get ha
    exact absurd hprefix (h.staged a (Table.mem_of_get ha))
  · rw [hnone] at hr
    cases hr
  · rw [hnone] at hr
    cases hr
  · rw [h.running] at hc
    cases hc

theorem inv_step (h : s.Inv) (hok : s.Careful e) (hnext : next pathId s e t) :
    t.Inv ∧ s.inventory.Preserves t.inventory := by
  by_cases he : ∃ k consumer x now, e = .receipt k consumer x now
  · obtain ⟨k, consumer, x, now, rfl⟩ := he
    obtain ⟨hinv, hpreserves, -⟩ := after_receipt h hnext.2
    exact ⟨hinv, hpreserves⟩
  · have hafter := after_step h hnext.1 hok hnext.2 fun k consumer x now heq =>
      he ⟨k, consumer, x, now, heq⟩
    exact ⟨hafter.inv, hafter.preserves⟩

theorem open_of_running (h : s.Inv) (ht : t.Inv) (hstep : s.step pathId e = some t)
    (hc : s.running id = some c) :
    (∃ r, t.inventory.recovery id = some r ∧ r.Open) ∨ ∃ scratch now, e =
      .finish id scratch now := by
  rcases running_step hstep hc with ⟨c', hc'⟩ | hsame | hfinish
  · obtain ⟨row, hrow, hopen, -⟩ := (ht.calls id c' hc').row
    exact .inl ⟨row, hrow, hopen⟩
  · obtain ⟨row, hrow, hopen, -⟩ := (h.calls id c hc).row
    exact .inl ⟨row, hsame ▸ hrow, hopen⟩
  · exact .inr hfinish

theorem exact_step (h : s.Inv) (hok : s.Careful e) (hnext : next pathId s e t) : Exact s e t where
  copying id c r hc hr hfailed := by
    rcases open_of_running h (inv_step h hok hnext).1 hnext.2 hc with ⟨row, hrow, hopen⟩ | hfinish
    · obtain rfl := Option.some.inj (hr.symm.trans hrow)
      simp [Recovery.Open, hfailed] at hopen
    · exact hfinish
  repeated key consumer x now r he hrow hreceipt := by
    subst he
    obtain rfl := Option.some.inj hnext.2
    have hnil : s.inventory.recoveryReceipt key consumer x now = [] := by
      simp only [Inventory.recoveryReceipt, hrow]
      split
      · rfl
      · exact if_pos (by simp [hreceipt])
    simp only [hnil, Inventory.perform_nil]
  released r hr a a' ha ha' hheld hlet := by
    have hrow : s.inventory.recovery r.id = some r := Table.get_of_mem h.rows.keys hr
    have hknown : Known s.inventory r.artifact := ⟨(h.rows.source _ r hrow).1, ha ▸ rfl⟩
    by_cases he : ∃ k consumer x now, e = .receipt k consumer x now
    · obtain ⟨k, consumer, x, now, rfl⟩ := he
      have hstep := hnext.2
      obtain ⟨-, -, hkeeps⟩ := after_receipt h hstep
      obtain ⟨b, hb, -, hhold⟩ := hkeeps.rows _ a hknown ha
      obtain rfl := Option.some.inj (ha'.symm.trans hb)
      by_cases hown : ∃ row, s.inventory.recovery k = some row ∧ r.artifact = row.artifact
      · obtain ⟨row, hk, hartifact⟩ := hown
        obtain rfl := Option.some.inj hstep
        rw [hartifact] at ha ha'
        rcases Inventory.source_receipt hk ha consumer x now with
          hsame | ⟨hclaimed, hfits, hcomplete, -⟩
        · obtain rfl := Option.some.inj (hsame.symm.trans ha')
          rw [hlet] at hheld
          cases hheld
        · refine ⟨k, consumer, x, now, row, rfl, hk, hartifact.symm, ?_⟩
          exact Inventory.covers_of_complete hfits hcomplete
            ((h.rows.sound k row hk).whole (by simp [hclaimed]))
      · have := hhold (fun row hk hartifact => hown ⟨row, hk, hartifact⟩) hheld
        rw [hlet] at this
        cases this
    · have hafter := after_step h hnext.1 hok hnext.2 fun k consumer x now heq =>
        he ⟨k, consumer, x, now, heq⟩
      obtain ⟨b, hb, -, hhold⟩ := hafter.keeps.rows _ a hknown ha
      obtain rfl := Option.some.inj (ha'.symm.trans hb)
      have := hhold trivial hheld
      rw [hlet] at this
      cases this
  unselected key consumer x now r a a' he hrow ha ha' hother heligible := by
    subst he
    obtain rfl := Option.some.inj hnext.2
    rcases Inventory.source_receipt hrow ha consumer x now with
      hsame | ⟨hclaimed, -, -, hreceived⟩
    · obtain rfl := Option.some.inj (hsame.symm.trans ha')
      exact heligible
    · obtain rfl := Option.some.inj (hreceived.symm.trans ha')
      obtain ⟨-, b, hb, hselected⟩ := h.rows.source key r hrow
      obtain rfl := Option.some.inj (hb.symm.trans ha)
      have hheld := Inventory.hold_receivedSource
        ((h.rows.sound key r hrow).whole (by simp [hclaimed])) hselected hother now
      obtain ⟨hold, hhold⟩ := Option.isSome_iff_exists.mp hheld
      simp [Artifact.eligible, hhold] at heligible

/-- **The protocol.**  In a run in which no publication is resumed whose call is under way, what
becomes of a recovery preserves it, and every step is exact. -/
theorem handover_of_run (hs : Run Start (next pathId) Careful s) :
    (∀ t, Run (· = s) (next pathId) Careful t → s.inventory.Preserves t.inventory) ∧
      ∀ e t, s.Careful e → next pathId s e t → Exact s e t := by
  have hinv : s.Inv := hs.invariant (P := Inv) (fun _ h => inv_start h) fun _ _ _ h hok hnext =>
    (inv_step h hok hnext).1
  refine ⟨fun t ht => ?_, fun e t hok hnext => exact_step hinv hok hnext⟩
  have hboth : t.Inv ∧ s.inventory.Preserves t.inventory := by
    refine ht.invariant (P := fun u => u.Inv ∧ s.inventory.Preserves u.inventory) ?_ ?_
    · rintro u rfl
      exact ⟨hinv, .refl _⟩
    · intro u e v hu hok hnext
      obtain ⟨hv, hpreserves⟩ := inv_step hu.1 hok hnext
      exact ⟨hv, hu.2.trans hpreserves⟩
  exact hboth.2

/-! ### Runs that are computed -/

section Decide

instance (scratch : Except Error (Option Stray)) (p : Stray → Prop) [DecidablePred p] :
    Decidable (∀ f, scratch = .ok (some f) → p f) :=
  match scratch with
  | .error _ => isTrue fun _ h => by cases h
  | .ok none => isTrue fun _ h => by cases h
  | .ok (some f) =>
    decidable_of_iff (p f) ⟨fun hp _ h => by cases h; exact hp, fun h => h f rfl⟩

instance (inv : Inventory) (id : Text) : Decidable (Drawn.New inv id) :=
  inferInstanceAs (Decidable (¬text "recovery-" <+: id ∧ inv.artifact id = none))

instance (s : Handover) (e : HandoverStep) : Decidable (s.Drawn e) :=
  match e with
  | .stage _ _ _ _ _ _ id _ _ w _ => inferInstanceAs (Decidable (s.inventory.recovery id = none ∧
      ∀ f, w.scratch = .ok (some f) → Drawn.New s.inventory f.id))
  | .finish _ scratch _ =>
    inferInstanceAs (Decidable (∀ f, scratch = .ok (some f) → Drawn.New s.inventory f.id))
  | .reconcile answers _ => inferInstanceAs (Decidable (∀ r ∈ s.inventory.pending,
      ∀ f, (answers r.id).scratch = .ok (some f) → Drawn.New s.inventory f.id))
  | .makeScratch _ | .copy _ _ | .fail _ _ | .publish _ _ _ _ | .stop _ | .claim _ _ _ _
  | .receipt _ _ _ _ | .cancel _ _ _ => isTrue trivial

instance (s : Handover) (e : HandoverStep) : Decidable (s.Careful e) :=
  match e with
  | .stage key revision requestId paths root _ _ _ _ _ _ =>
    match h : s.inventory.recoveries.find? (·.requestId = requestId) with
    | none => isTrue fun r hr => by rw [h] at hr; cases hr
    | some r =>
      decidable_of_iff (r.request = (key, revision, paths, root) → s.running r.id = none)
        ⟨fun hp r' hr' => by rw [h] at hr'; cases hr'; exact hp, fun hp => hp r h⟩
  | .reconcile _ _ => inferInstanceAs (Decidable (∀ r ∈ s.inventory.pending, s.running r.id = none))
  | .finish _ _ _ | .makeScratch _ | .copy _ _ | .fail _ _ | .publish _ _ _ _ | .stop _
  | .claim _ _ _ _ | .receipt _ _ _ _ | .cancel _ _ _ => isTrue trivial

end Decide

/-- A step that may be taken; `careful` : and that is careful. -/
def attempt (pathId : OsPath → Text) (careful : Bool) (s : Handover) (e : HandoverStep) :
    Option Handover :=
  if s.Drawn e ∧ (careful = true → s.Careful e) then s.step pathId e else none

theorem next_of_attempt {pathId : OsPath → Text} {careful : Bool} {s t : Handover}
    {e : HandoverStep} (h : attempt pathId careful s e = some t) :
    (careful = true → s.Careful e) ∧ next pathId s e t := by
  unfold attempt at h
  by_cases hlawful : s.Drawn e ∧ (careful = true → s.Careful e)
  · rw [if_pos hlawful] at h
    exact ⟨hlawful.2, hlawful.1, h⟩
  · rw [if_neg hlawful] at h
    cases h

theorem run_of_attempt {pathId : OsPath → Text} {careful : Bool} {init : Handover → Prop}
    {ok : Handover → HandoverStep → Prop} {es : List HandoverStep} {s t : Handover} (hs : init s)
    (hok : ∀ u e, (careful = true → u.Careful e) → ok u e)
    (h : Trace.exec (attempt pathId careful) es s = some t) : Run init (next pathId) ok t := by
  refine Trace.exec_invariant (P := Run init (next pathId) ok) (fun u e v _ hu huv => ?_) h (.start hs)
  obtain ⟨hcareful, hnext⟩ := next_of_attempt huv
  exact hu.step (hok u e hcareful) hnext

end Handover

def movie : FileEntry := ⟨[(text "m.mkv").map (UInt8.ofNat ·.toNat)], ⟨1, 4, 10, [], false⟩⟩

def recoverable : Handover where
  inventory := {
    installation := text "i"
    settings := ⟨false, 0⟩
    protectedRoots := []
    artifacts := [{
      id := text "a"
      generation := text "g"
      revision := 1
      job := none
      path := [[100], [112]]
      root := [[100]]
      rootIdentity := ⟨1, 2, 0, [], true⟩
      identity := some ⟨1, 3, 0, [], true⟩
      state := .parkedFailed
      owned := true
      keep := false
      hold := none
      updatedAt := 0
      retentionSeconds := 604800
      deadline := some 604800
      eligibleSeconds := 0
      files := [movie]
      error := none }]
    operations := []
    recoveries := []
    sidecars := [] }
  running := fun _ => none

def movieId : OsPath → Text := fun _ =>
  text "319543a78db39b02b31b00605f8a8dc53b7bd5174e1709e81db9a34e366b2b14"

def movieDigest : Text := text "0c156436ad4a7c3c817dc1de7857740d6b5e00c4afdbaf678c099ff843c07344"

/-- A scratch directory with nothing in it. -/
def emptyScratch : Answer :=
  ⟨.error copyInterrupted,
    .ok (some ⟨text "s", text "n", ⟨1, 7, 0, [], true⟩, ⟨1, 8, 0, [], true⟩, []⟩)⟩

def staging (id : Text) : HandoverStep :=
  .stage (text "a") 1 (text "q") [movie.path] [[114]] true id (text "n") (some [movie])
    emptyScratch 0

/-- What is left of the call once its scratch directory is there. -/
def copying : List HandoverStep :=
  [.copy (text "r") movieDigest,
    .publish (text "r") (text "d") (.ok ⟨⟨1, 5, 0, [], true⟩, ⟨1, 6, 0, [], true⟩, [movie]⟩) 1,
    .finish (text "r") (.ok none) 2,
    .claim (text "r") (text "c") (text "m") (text "d")]

def acknowledgement : HandoverStep :=
  .receipt (text "r") (text "c")
    ⟨text "m", text "d", [⟨movieId movie.path, 10, movieDigest, .imported⟩]⟩ 3

namespace Handover

def stateOf (s : Handover) : Option RecoveryState := (s.inventory.recovery (text "r")).map (·.state)

theorem start_recoverable : Start recoverable := ⟨rfl, by decide, fun _ => rfl⟩

theorem handover_of_run_claimed : ∃ s, Run Start (next movieId) Careful s ∧
    s.stateOf = some .claimed ∧
    (∀ t, Run (· = s) (next movieId) Careful t → s.inventory.Preserves t.inventory) ∧
    ∀ e t, s.Careful e → next movieId s e t → Exact s e t := by
  have hexec : (Trace.exec (attempt movieId true)
      (staging (text "r") :: .makeScratch (text "r") :: copying) recoverable).map stateOf =
        some (some .claimed) := by decide +kernel
  obtain ⟨s, hs, hstate⟩ := Option.map_eq_some_iff.mp hexec
  have hrun : Run Start (next movieId) Careful s :=
    run_of_attempt start_recoverable (fun _ _ h => h rfl) hs
  exact ⟨s, hrun, hstate, handover_of_run hrun⟩

/-- **A call that is resumed.**  The same request, made again while the first is copying, reports
that it has failed; and once a reconciliation has cancelled it, the first goes on, and its copy is
published, claimed and imported. -/
theorem resumed_while_copying :
    (∃ s e t, Run Start (next movieId) (fun _ _ => True) s ∧ next movieId s e t ∧
      (s.running (text "r")).isSome ∧ t.stateOf = some .failed ∧
      (∀ scratch now, e ≠ .finish (text "r") scratch now)) ∧
    ∃ s t, Run Start (next movieId) (fun _ _ => True) s ∧ s.stateOf = some .cancelled ∧
      Run (· = s) (next movieId) (fun _ _ => True) t ∧ t.stateOf = some .imported := by
  constructor
  · have hexec : ((Trace.exec (attempt movieId false) [staging (text "r"), .makeScratch (text "r")]
        recoverable).bind fun s => (attempt movieId false s (staging (text "x"))).map fun t =>
          ((s.running (text "r")).isSome, t.stateOf)) = some (true, some .failed) := by
      decide +kernel
    obtain ⟨s, hs, hexec⟩ := Option.bind_eq_some_iff.mp hexec
    obtain ⟨t, ht, hfacts⟩ := Option.map_eq_some_iff.mp hexec
    obtain ⟨hrunning, hfailed⟩ := Prod.mk.inj hfacts
    exact ⟨s, staging (text "x"), t, run_of_attempt start_recoverable (fun _ _ _ => trivial) hs,
      (next_of_attempt ht).2, hrunning, hfailed, fun _ _ h => by cases h⟩
  · have hexec : ((Trace.exec (attempt movieId false)
        [staging (text "r"), .makeScratch (text "r"), .cancel (text "r") none false,
          .reconcile (fun _ => emptyScratch) 1] recoverable).bind fun s =>
        (Trace.exec (attempt movieId false) (copying ++ [acknowledgement]) s).map fun t =>
          (s.stateOf, t.stateOf)) = some (some .cancelled, some .imported) := by
      decide +kernel
    obtain ⟨s, hs, hexec⟩ := Option.bind_eq_some_iff.mp hexec
    obtain ⟨t, ht, hfacts⟩ := Option.map_eq_some_iff.mp hexec
    obtain ⟨hcancelled, himported⟩ := Prod.mk.inj hfacts
    exact ⟨s, t, run_of_attempt start_recoverable (fun _ _ _ => trivial) hs, hcancelled,
      run_of_attempt rfl (fun _ _ _ => trivial) ht, himported⟩

end Handover

end Nzbd.Artifacts
