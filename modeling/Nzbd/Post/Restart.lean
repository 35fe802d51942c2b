import Mathlib.Tactic.IntervalCases
import Nzbd.Post.Manager

/-!
# Attempts and restarts

An attempt goes through its stages with five marks, and every attempt starts with
good ones.  A stage that an attempt leaves out does not touch its mark, so a restart
behind a verification or an extraction that has failed begins as if it had not, and
so does an attempt that does not find the recovery set or the archive any more.  A
repair that a script asks for has no mark at all.

`lastVerification` and `lastExtraction` remember what the files last went through.
`Careful` keeps an attempt from starting behind a failure, and `success_of_run` is
what a job that has succeeded then has behind it.

What a tool, a directory or a script answers is an `Answer`; an attempt that ends
without an outcome, on an error or on request, is stopped.
-/

namespace Nzbd.Post

open Runs

abbrev Archive := Nat

/-- The `[post]` settings a stage asks. -/
structure Settings where
  cleanup : Bool
  deobfuscateFinal : Bool

/-- What an attempt does next. -/
inductive Step
  | rename
  /-- `par2::load_dir` and the quick verification -/
  | loading
  /-- `repair_loop` -/
  | verifying
  /-- `detect_archives` -/
  | listing
  | extracting (a : Archive) (rest : List Archive)
  /-- The repair behind an extraction that has failed. -/
  | forcing (a : Archive) (rest : List Archive)
  | again (a : Archive) (rest : List Archive)
  | cleaning
  | deobfuscating
  | moving
  | selecting
  /-- A script, and this many behind it. -/
  | scripting (left : Nat)
  | finalizing
  deriving DecidableEq

structure Attempt where
  start : RestartPoint
  unpackEnabled : Bool
  next : Step
  parOk : Bool
  parDidRepair : Bool
  unpackOk : Bool
  unpackedAny : Bool
  scriptOk : Bool

inductive ScriptExit
  | success
  /-- The repair the script asks for, if there is a set for it. -/
  | parCheck (repair : Option Bool)
  | failed
  deriving DecidableEq

inductive Answer
  | done
  /-- No recovery set. -/
  | noSet
  /-- A set; `intact` : the quick verification is enough. -/
  | set (intact hasMain : Bool)
  /-- `repairs` : the set had something to repair. -/
  | repaired (ok repairs : Bool)
  | archives (l : List Archive)
  /-- `short` : it claims success and has not read the volumes. -/
  | extracted (success short hasMain : Bool)
  | moved (moves : Bool)
  | scripts (n : Nat)
  | script (exit : ScriptExit)
  deriving DecidableEq

/-- A job and the attempts at it. -/
structure Processing where
  status : JobStatus
  entered : List PostStage
  attempt : Option Attempt
  pendingRestart : Option RestartPoint
  lastVerification : Option Bool
  lastExtraction : Archive → Option Bool
  outcome : Option PpFinal

inductive Turn
  /-- A scan or an event; `unpack` : the setting for the category of the job. -/
  | scan (unpack : Bool)
  | restart (point : RestartPoint) (unpack : Bool)
  | answer (a : Answer)
  /-- The attempt ends without an outcome. -/
  | stop (unpack : Bool)
  /-- The process ends; `status` and `entered` : what was saved last of the job. -/
  | crash (status : JobStatus) (entered : List PostStage)

namespace Processing

def enter (s : Processing) (stage : PostStage) : Processing :=
  { s with status := .post stage, entered := s.entered ++ [stage] }

/-- What a new attempt takes for granted of the stages it leaves out. -/
def spawn (s : Processing) (start : RestartPoint) (unpack : Bool) : Processing :=
  { s with
    status := .postQueued
    attempt := some
      { start := start
        unpackEnabled := unpack
        next := .rename
        parOk := true
        parDidRepair := !start.includes .verify && .parRepair ∈ s.entered
        unpackOk := true
        unpackedAny := !start.includes .unpack && .unpack ∈ s.entered
        scriptOk := true } }

def goOn (s : Processing) (a : Attempt) (next : Step) : Processing :=
  { s with attempt := some { a with next := next } }

def nextArchive : List Archive → Step
  | [] => .cleaning
  | a :: rest => .extracting a rest

def nextScript : Nat → Step
  | 0 => .finalizing
  | n + 1 => .scripting n

def verified (s : Processing) (ok : Bool) : Processing := { s with lastVerification := some ok }

def extracted (s : Processing) (a : Archive) (ok : Bool) : Processing :=
  { s with lastExtraction := Function.update s.lastExtraction a (some ok) }

def finalOutcome (a : Attempt) : PpFinal :=
  if !a.parOk then .parFailure
  else if !a.unpackOk then .unpackFailure
  else if !a.scriptOk then .scriptFailure
  else .success

variable (cfg : Settings)

/-- One step of an attempt; an answer to another question changes nothing. -/
def work (s : Processing) (a : Attempt) (ans : Answer) : Processing :=
  match a.next, ans with
  | .rename, .done =>
    if a.start = .beginning then
      let s := s.enter .parRename
      (if a.unpackEnabled then s.enter .rarRename else s).goOn a .loading
    else s.goOn a .loading
  | .loading, .done => if a.start.includes .cleanup then s else s.goOn a .listing
  | .loading, .noSet => if a.start.includes .cleanup then s.goOn a .listing else s
  | .loading, .set intact hasMain =>
    if a.start.includes .verify then
      let s := s.enter .parVerify
      if intact then (s.verified true).goOn a .listing
      else if hasMain then s.goOn a .verifying
      else (s.verified false).goOn { a with parOk := false } .listing
    else if a.start.includes .cleanup then s.goOn a .listing
    else s
  | .verifying, .repaired ok repairs =>
    ((if repairs then s.enter .parRepair else s).verified ok).goOn
      { a with parOk := ok, parDidRepair := ok } .listing
  | .listing, .done =>
    if a.unpackEnabled ∧ a.start.includes .unpack then s else s.goOn a .cleaning
  | .listing, .archives l =>
    if a.unpackEnabled ∧ a.start.includes .unpack then
      match l with
      | [] => s.goOn a .cleaning
      | b :: rest => (s.enter .unpack).goOn a (.extracting b rest)
    else s
  | .extracting b rest, .extracted success short hasMain =>
    if success ∧ ¬short then
      (s.extracted b true).goOn { a with unpackedAny := true } (nextArchive rest)
    else if ¬success ∧ ¬a.parDidRepair ∧ a.parOk ∧ hasMain then
      ((s.extracted b false).enter .parRepair).goOn a (.forcing b rest)
    else (s.extracted b false).goOn { a with unpackOk := false } (nextArchive rest)
  | .forcing b rest, .repaired ok _ =>
    if ok then ((s.verified true).enter .unpack).goOn { a with parDidRepair := true } (.again b rest)
    else (s.verified false).goOn { a with unpackOk := false } (nextArchive rest)
  | .again b rest, .extracted success short _ =>
    if success ∧ ¬short then
      (s.extracted b true).goOn { a with unpackedAny := true } (nextArchive rest)
    else (s.extracted b false).goOn { a with unpackOk := false } (nextArchive rest)
  | .cleaning, .done =>
    (if a.start.includes .cleanup ∧ cfg.cleanup ∧ a.parOk ∧ a.unpackOk ∧ a.unpackedAny then
      s.enter .cleanup else s).goOn a .deobfuscating
  | .deobfuscating, .done =>
    (if a.start.includes .cleanup ∧ cfg.deobfuscateFinal ∧ a.parOk ∧ a.unpackOk then
      s.enter .postUnpackRename else s).goOn a .moving
  | .moving, .moved moves =>
    (if a.start.includes .move ∧ moves then s.enter .move else s).goOn a .selecting
  | .selecting, .scripts n => (if n = 0 then s else s.enter .script).goOn a (nextScript n)
  | .scripting left, .script .success => s.goOn a (nextScript left)
  | .scripting left, .script (.parCheck none) => s.goOn a (nextScript left)
  | .scripting left, .script (.parCheck (some ok)) => (s.verified ok).goOn a (nextScript left)
  | .scripting left, .script .failed =>
    s.goOn { a with scriptOk := false } (nextScript left)
  | .finalizing, .done =>
    { s with
      attempt := none
      outcome := some (finalOutcome a)
      status := if finalOutcome a = .success then .completed else .failed }
  | _, _ => s

/-- Still to be processed. -/
def restartable (s : Processing) : Bool := s.outcome.isNone && needsPp s.status

def step (s : Processing) : Turn → Processing
  | .scan unpack =>
    if s.attempt = none ∧ s.restartable then s.spawn .beginning unpack else s
  | .restart point unpack =>
    if s.restartable ∧ (restartLimit s.status).any point.includes then
      if s.attempt = none then s.spawn point unpack else { s with pendingRestart := some point }
    else s
  | .answer ans =>
    match s.attempt with
    | some a => s.work cfg a ans
    | none => s
  | .stop unpack =>
    if s.attempt = none then s
    else
      let s' := { s with attempt := none, pendingRestart := none }
      match s.pendingRestart with
      | some point => if s.restartable then s'.spawn point unpack else s'
      | none => s'
  | .crash status entered =>
    { s with status := status, entered := entered, attempt := none, pendingRestart := none }

/-- Nothing the files last went through has failed. -/
def Clean (s : Processing) : Prop :=
  s.lastVerification ≠ some false ∧ ∀ a, s.lastExtraction a ≠ some false

/-- An attempt from here leaves out no stage that has failed. -/
def Safe (s : Processing) (point : RestartPoint) : Prop :=
  (point.includes .verify = false → s.lastVerification ≠ some false) ∧
    (point.includes .unpack = false → ∀ a, s.lastExtraction a ≠ some false)

/-- What a stage is told does not hide a failure: the set that has failed is found
again, and so is the archive; a repair for a script does not fail. -/
def CarefulAnswer (s : Processing) (a : Attempt) : Answer → Prop
  | .noSet => a.next = .loading → a.start.includes .verify → s.lastVerification ≠ some false
  | .done => a.next = .listing → a.start.includes .unpack →
    ∀ b, s.lastExtraction b ≠ some false
  | .archives l => a.next = .listing → ∀ b, s.lastExtraction b = some false → b ∈ l
  | .script (.parCheck (some false)) => finalOutcome a ≠ .success
  | _ => True

/-- **The condition on a turn.** -/
def Careful (s : Processing) : Turn → Prop
  | .restart point _ => s.attempt = none → s.Safe point
  | .stop _ => ∀ point, s.pendingRestart = some point → s.Safe point
  | .answer ans => ∀ a, s.attempt = some a → s.CarefulAnswer a ans
  | _ => True

/-- A job that nobody has processed. -/
structure Unprocessed (s : Processing) : Prop where
  attempt : s.attempt = none
  lastVerification : s.lastVerification = none
  lastExtraction : ∀ a, s.lastExtraction a = none
  outcome : s.outcome = none

def Reached : Processing → Prop :=
  Run Unprocessed (fun s turn s' => s' = s.step cfg turn) Careful

/-! ### What an attempt carries -/

/-- The marks speak for the verification, and for the extractions but those ahead. -/
structure Marked (s : Processing) (a : Attempt) (ahead : List Archive) : Prop where
  verification : finalOutcome a = .success → s.lastVerification ≠ some false
  extraction : a.unpackOk = true → ∀ b, s.lastExtraction b = some false → b ∈ ahead

/-- What a step may rely on. -/
def Fits (s : Processing) (a : Attempt) : Step → Prop
  | .rename => s.Safe a.start
  | .loading => s.Safe a.start
  | .verifying => s.Safe a.start
  | .listing => (finalOutcome a = .success → s.lastVerification ≠ some false) ∧
    (a.start.includes .unpack = false → ∀ b, s.lastExtraction b ≠ some false)
  | .extracting b rest => s.Marked a (b :: rest)
  | .forcing b rest => s.Marked a (b :: rest)
  | .again b rest => s.Marked a (b :: rest)
  | _ => s.Marked a []

structure Inv (s : Processing) : Prop where
  outcome : s.outcome = some .success → s.Clean
  attempt : ∀ a, s.attempt = some a → s.Fits a a.next

variable {a : Attempt}

theorem finalOutcome_eq_success :
    finalOutcome a = .success ↔ a.parOk = true ∧ a.unpackOk = true ∧ a.scriptOk = true := by
  cases hp : a.parOk <;> cases hu : a.unpackOk <;> cases hs : a.scriptOk <;>
    simp [finalOutcome, hp, hu, hs]

theorem inv_goOn {s t : Processing} (houtcome : s.outcome ≠ some .success)
    (ht : t.outcome = s.outcome) {next : Step} (hfits : t.Fits a next) :
    (t.goOn a next).Inv := by
  refine ⟨fun hsuccess => absurd (ht ▸ hsuccess) houtcome, ?_⟩
  rintro _ ⟨⟩
  cases next with
  | rename => exact hfits
  | loading => exact hfits
  | verifying => exact hfits
  | listing => exact hfits
  | _ => exact ⟨hfits.verification, hfits.extraction⟩

theorem Marked.extracted {s : Processing} {b : Archive} {rest : List Archive}
    (h : s.Marked a (b :: rest)) (ok : Bool) {a' : Attempt}
    (hsuccess : finalOutcome a' = .success → finalOutcome a = .success)
    (hunpack : a'.unpackOk = true → a.unpackOk = true ∧ ok = true) :
    (s.extracted b ok).Marked a' rest where
  verification := fun ha => h.verification (hsuccess ha)
  extraction := by
    intro ha c hc
    obtain ⟨hold, rfl⟩ := hunpack ha
    change Function.update s.lastExtraction b (some true) c = some false at hc
    by_cases hcb : c = b
    · rw [hcb, Function.update_self] at hc
      cases hc
    · rw [Function.update_of_ne hcb] at hc
      exact (List.mem_cons.mp (h.extraction hold c hc)).resolve_left hcb

theorem fits_nextArchive {s : Processing} {rest : List Archive}
    (h : s.Marked a rest) : s.Fits a (nextArchive rest) := by
  cases rest <;> exact h

theorem fits_nextScript {s : Processing} (h : s.Marked a []) (left : Nat) :
    s.Fits a (nextScript left) := by
  cases left <;> exact h

theorem Marked.of_eq {s t : Processing} {ahead : List Archive}
    (h : s.Marked a ahead) (hv : t.lastVerification = s.lastVerification)
    (he : t.lastExtraction = s.lastExtraction) : t.Marked a ahead :=
  ⟨fun hs => hv ▸ h.verification hs, fun hu b hb => h.extraction hu b (he ▸ hb)⟩

theorem Fits.of_eq {s t : Processing} {next : Step} (h : s.Fits a next)
    (hv : t.lastVerification = s.lastVerification)
    (he : t.lastExtraction = s.lastExtraction) : t.Fits a next := by
  have hsafe : s.Safe a.start → t.Safe a.start := fun hs =>
    ⟨fun hskip => hv ▸ hs.1 hskip, fun hskip => he ▸ hs.2 hskip⟩
  cases next with
  | rename => exact hsafe h
  | loading => exact hsafe h
  | verifying => exact hsafe h
  | listing => exact ⟨fun hs => hv ▸ h.1 hs, fun hskip => he ▸ h.2 hskip⟩
  | _ => exact Marked.of_eq h hv he

theorem finalOutcome_of_not_unpackOk (h : a.unpackOk = false) :
    finalOutcome a ≠ .success := by
  rw [ne_eq, finalOutcome_eq_success, h]
  simp

theorem Marked.fits_opened {s : Processing} {b : Archive} {rest : List Archive}
    (h : s.Marked a (b :: rest)) :
    (s.extracted b true).Fits { a with unpackedAny := true } (nextArchive rest) :=
  fits_nextArchive (h.extracted true
    (fun hs => finalOutcome_eq_success.mpr (finalOutcome_eq_success.mp hs)) fun hu => ⟨hu, rfl⟩)

theorem Marked.fits_failed {s : Processing} {b : Archive} {rest : List Archive}
    (h : s.Marked a (b :: rest)) :
    (s.extracted b false).Fits { a with unpackOk := false } (nextArchive rest) :=
  fits_nextArchive (h.extracted false
    (fun hs => absurd hs (finalOutcome_of_not_unpackOk rfl)) fun hu => by cases hu)

theorem inv_work (cfg : Settings) {s : Processing} (h : s.Inv)
    (houtcome : s.outcome ≠ some .success) (ha : s.attempt = some a) (ans : Answer)
    (hok : s.CarefulAnswer a ans) : (s.work cfg a ans).Inv := by
  have hfits := h.attempt a ha
  unfold work
  split
  · next hnext =>
    rw [hnext] at hfits
    split
    · refine inv_goOn houtcome ?_ ?_
      · split <;> rfl
      · split <;> exact hfits
    · exact inv_goOn houtcome (by rfl) hfits
  · next hnext =>
    rw [hnext] at hfits
    split
    · exact h
    · next hskip =>
      have hstart : a.start.includes .verify = false := by
        by_contra hincl
        exact hskip (RestartPoint.includes_trans (Bool.not_eq_false _ ▸ hincl) rfl)
      exact inv_goOn houtcome (by rfl) ⟨fun _ => hfits.1 hstart, hfits.2⟩
  · next hnext =>
    rw [hnext] at hfits
    split
    · refine inv_goOn houtcome (by rfl) ⟨fun _ => ?_, hfits.2⟩
      cases hincl : a.start.includes .verify with
      | false => exact hfits.1 hincl
      | true => exact hok hnext hincl
    · exact h
  · next intact hasMain hnext =>
    rw [hnext] at hfits
    split
    · split
      · exact inv_goOn houtcome (by rfl) ⟨fun _ => by simp [verified], hfits.2⟩
      · split
        · exact inv_goOn houtcome (by rfl) hfits
        · refine inv_goOn houtcome (by rfl) ⟨fun hs => ?_, hfits.2⟩
          have := (finalOutcome_eq_success.mp hs).1
          cases this
    · next hskip =>
      split
      · exact inv_goOn houtcome (by rfl)
          ⟨fun _ => hfits.1 (Bool.eq_false_iff.mpr hskip), hfits.2⟩
      · exact h
  · next ok repairs hnext =>
    rw [hnext] at hfits
    refine inv_goOn houtcome ?_ ⟨fun hs => ?_, ?_⟩
    · split <;> rfl
    · have hparOk : ok = true := (finalOutcome_eq_success.mp hs).1
      rw [hparOk]
      split <;> simp [verified]
    · split <;> exact hfits.2
  · next hnext =>
    rw [hnext] at hfits
    split
    · exact h
    · refine inv_goOn houtcome (by rfl) ⟨hfits.1, fun _ b hb => ?_⟩
      cases hincl : a.start.includes .unpack with
      | false => exact absurd hb (hfits.2 hincl b)
      | true => exact absurd hb (hok hnext hincl b)
  · next l hnext =>
    rw [hnext] at hfits
    split
    · cases l with
      | nil => exact inv_goOn houtcome (by rfl) ⟨hfits.1, fun _ b hb => hok hnext b hb⟩
      | cons b rest =>
        exact inv_goOn houtcome (by rfl) ⟨hfits.1, fun _ c hc => hok hnext c hc⟩
    · exact h
  · next b rest success short hasMain hnext =>
    rw [hnext] at hfits
    split
    · exact inv_goOn houtcome (by rfl) hfits.fits_opened
    · split
      · -- the archive is still ahead, for the second time
        refine inv_goOn houtcome (by rfl) ⟨hfits.verification, fun hu c hc => ?_⟩
        by_cases hcb : c = b
        · exact hcb ▸ List.mem_cons_self
        · refine hfits.extraction hu c ?_
          change Function.update s.lastExtraction b (some false) c = some false at hc
          rwa [Function.update_of_ne hcb] at hc
      · exact inv_goOn houtcome (by rfl) hfits.fits_failed
  · next b rest ok repairs hnext =>
    rw [hnext] at hfits
    split
    · exact inv_goOn houtcome (by rfl) ⟨fun _ => by simp [verified, enter], hfits.extraction⟩
    · refine inv_goOn houtcome (by rfl) (fits_nextArchive ⟨?_, ?_⟩)
      · exact fun hs => absurd hs (finalOutcome_of_not_unpackOk rfl)
      · intro hu
        cases hu
  · next b rest success short hasMain hnext =>
    rw [hnext] at hfits
    split
    · exact inv_goOn houtcome (by rfl) hfits.fits_opened
    · exact inv_goOn houtcome (by rfl) hfits.fits_failed
  · next hnext =>
    rw [hnext] at hfits
    refine inv_goOn houtcome ?_ (Marked.of_eq hfits ?_ ?_) <;> split <;> rfl
  · next hnext =>
    rw [hnext] at hfits
    refine inv_goOn houtcome ?_ (Marked.of_eq hfits ?_ ?_) <;> split <;> rfl
  · next moves hnext =>
    rw [hnext] at hfits
    refine inv_goOn houtcome ?_ (Marked.of_eq hfits ?_ ?_) <;> split <;> rfl
  · next n hnext =>
    rw [hnext] at hfits
    refine inv_goOn houtcome ?_ (fits_nextScript (Marked.of_eq hfits ?_ ?_) n) <;> split <;> rfl
  · next left hnext =>
    rw [hnext] at hfits
    exact inv_goOn houtcome (by rfl) (fits_nextScript hfits left)
  · next left hnext =>
    rw [hnext] at hfits
    exact inv_goOn houtcome (by rfl) (fits_nextScript hfits left)
  · next left ok hnext =>
    rw [hnext] at hfits
    have hmarked : (s.verified ok).Marked a [] := by
      refine ⟨fun hs => ?_, hfits.extraction⟩
      cases ok with
      | true => simp [verified]
      | false => exact absurd hs hok
    exact inv_goOn houtcome (by rfl) (fits_nextScript hmarked left)
  · next left hnext =>
    rw [hnext] at hfits
    have hmarked : s.Marked { a with scriptOk := false } [] := by
      refine ⟨fun hs => ?_, hfits.extraction⟩
      have := (finalOutcome_eq_success.mp hs).2.2
      cases this
    exact inv_goOn houtcome (by rfl) (fits_nextScript hmarked left)
  · next hnext =>
    rw [hnext] at hfits
    refine ⟨fun hs => ?_, fun _ hnone => by cases hnone⟩
    have hsuccess : finalOutcome a = .success := Option.some.inj hs
    refine ⟨hfits.verification hsuccess, fun b hb => ?_⟩
    cases hfits.extraction (finalOutcome_eq_success.mp hsuccess).2.1 b hb
  · exact h

theorem fits_spawn {s : Processing} {point : RestartPoint} (h : s.Safe point) (unpack : Bool)
    (hout : s.outcome ≠ some .success) : (s.spawn point unpack).Inv := by
  refine ⟨fun hs => absurd hs hout, ?_⟩
  rintro _ ⟨⟩
  exact h

theorem safe_beginning (s : Processing) : s.Safe .beginning :=
  ⟨fun h => (by cases h), fun h => (by cases h)⟩

structure Live (s : Processing) : Prop extends Inv s where
  ended : s.outcome ≠ none → s.attempt = none

theorem outcome_of_restartable {s : Processing} (h : s.restartable = true) : s.outcome = none := by
  simp only [restartable, Bool.and_eq_true, Option.isNone_iff_eq_none] at h
  exact h.1

theorem work_outcome (cfg : Settings) (s : Processing) (a : Attempt) (ans : Answer) :
    (s.work cfg a ans).outcome = s.outcome ∨ (s.work cfg a ans).attempt = none := by
  unfold work
  split
  case h_19 => exact .inr rfl
  all_goals
    refine .inl ?_
    repeat' split
    all_goals rfl

theorem Live.spawn {s : Processing} (hout : s.outcome = none) {point : RestartPoint}
    (h : s.Safe point) (unpack : Bool) : (s.spawn point unpack).Live :=
  ⟨fits_spawn h unpack (by simp [hout]), fun hne => absurd hout hne⟩

theorem Live.idle {s : Processing} (h : s.Live) :
    { s with attempt := none, pendingRestart := none }.Live :=
  ⟨⟨h.outcome, fun a ha => by cases ha⟩, fun _ => rfl⟩

theorem live_step (cfg : Settings) {s : Processing} (h : s.Live) (turn : Turn)
    (hok : s.Careful turn) : (s.step cfg turn).Live := by
  cases turn with
  | scan unpack =>
    rw [step]
    split
    · next hscan => exact .spawn (outcome_of_restartable hscan.2) (safe_beginning s) unpack
    · exact h
  | restart point unpack =>
    rw [step]
    split
    · next haccepted =>
      split
      · next hnone => exact .spawn (outcome_of_restartable haccepted.1) (hok hnone) unpack
      · exact ⟨⟨h.outcome, fun a ha => (h.attempt a ha).of_eq rfl rfl⟩, h.ended⟩
    · exact h
  | answer ans =>
    rw [step]
    split
    · next a ha =>
      have hout : s.outcome = none := by
        by_contra hne
        rw [h.ended hne] at ha
        cases ha
      refine ⟨inv_work cfg h.toInv (by simp [hout]) ha ans (hok a ha), fun hne => ?_⟩
      exact (work_outcome cfg s a ans).resolve_left fun heq => hne (heq.trans hout)
    · exact h
  | stop unpack =>
    rw [step]
    split
    · exact h
    · split
      · next point hpending =>
        split
        · next hrestartable =>
          have hsafe : { s with attempt := none, pendingRestart := none }.Safe point :=
            hok point hpending
          refine .spawn ?_ hsafe unpack
          exact outcome_of_restartable hrestartable
        · exact h.idle
      · exact h.idle
  | crash status entered => exact { h.idle with attempt := fun a ha => by cases ha }

theorem Unprocessed.live {s : Processing} (h : s.Unprocessed) : s.Live where
  outcome := fun hsuccess => by rw [h.outcome] at hsuccess; cases hsuccess
  attempt := fun a ha => by rw [h.attempt] at ha; cases ha
  ended := fun _ => h.attempt

end Processing

/-- **A job that careful attempts have brought to `SUCCESS` has no failure behind it
that nothing has made good.** -/
theorem success_of_run {cfg : Settings} {s : Processing} (h : s.Reached cfg)
    (hsuccess : s.outcome = some .success) : s.Clean := by
  refine (Run.invariant (P := Processing.Live) (fun s hs => hs.live) ?_ h).outcome hsuccess
  rintro s turn _ hlive hok rfl
  exact Processing.live_step cfg hlive turn hok

def downloaded : Processing := ⟨.completed, [], none, none, none, fun _ => none, none⟩

theorem unprocessed_downloaded : downloaded.Unprocessed := ⟨rfl, rfl, fun _ => rfl, rfl⟩

def plainSettings : Settings := ⟨true, true⟩

def Processing.run (s : Processing) (turns : List Turn) : Processing :=
  turns.foldl (Processing.step plainSettings) s

theorem Processing.Clean.careful {s : Processing} (h : s.Clean) {turn : Turn}
    (hscript : turn ≠ .answer (.script (.parCheck (some false)))) : s.Careful turn := by
  have hsafe : ∀ point, s.Safe point := fun point => ⟨fun _ => h.1, fun _ => h.2⟩
  cases turn with
  | scan unpack => trivial
  | restart point unpack => exact fun _ => hsafe point
  | stop unpack => exact fun point _ => hsafe point
  | crash status entered => trivial
  | answer ans =>
    intro a ha
    cases ans with
    | noSet => exact fun _ _ => h.1
    | done => exact fun _ _ => h.2
    | archives l => exact fun _ b hb => absurd hb (h.2 b)
    | script exit =>
      cases exit with
      | parCheck repair =>
        match repair, hscript with
        | none, _ => trivial
        | some true, _ => trivial
        | some false, hne => exact absurd rfl hne
      | _ => trivial
    | _ => trivial

theorem reached_run (turns : List Turn) {s : Processing} (hs : s.Reached plainSettings)
    (hclean : ∀ n < turns.length, (s.run (turns.take n)).Clean)
    (hturns : ∀ turn ∈ turns, turn ≠ .answer (.script (.parCheck (some false)))) :
    (s.run turns).Reached plainSettings := by
  induction turns generalizing s with
  | nil => exact hs
  | cons turn turns ih =>
    have hcareful : s.Careful turn :=
      Processing.Clean.careful (hclean 0 (Nat.succ_pos _)) (hturns turn List.mem_cons_self)
    refine ih (hs.step hcareful rfl) (fun n hn => ?_) fun t ht => hturns t (List.mem_cons_of_mem _ ht)
    exact hclean (n + 1) (Nat.succ_lt_succ hn)

def toTheEnd : List Turn :=
  [.answer (.extracted true false true), .answer .done, .answer .done, .answer (.moved false),
    .answer (.scripts 0), .answer .done]

def repaired (ok : Bool) : Processing :=
  downloaded.run [.scan true, .answer .done, .answer (.set false true),
    .answer (.repaired ok true), .answer (.archives [0])]

theorem reached_repaired : (repaired true).Reached plainSettings := by
  refine reached_run _ (.start unprocessed_downloaded) (fun n hn => ?_) (by simp)
  simp only [List.length_cons, List.length_nil] at hn
  have hnone : ∀ a, downloaded.lastExtraction a ≠ some false := fun a => by simp [downloaded]
  interval_cases n <;> exact ⟨by decide, hnone⟩

theorem success_of_run_repaired :
    ((repaired true).run toTheEnd).Reached plainSettings ∧
      ((repaired true).run toTheEnd).outcome = some .success ∧
      ((repaired true).run toTheEnd).Clean := by
  have hreached : ((repaired true).run toTheEnd).Reached plainSettings := by
    refine reached_run _ reached_repaired (fun n hn => ?_) (by simp [toTheEnd])
    have hnone : ∀ a, downloaded.lastExtraction a ≠ some false := fun a => by simp [downloaded]
    have hafter : ∀ a, (downloaded.extracted 0 true).lastExtraction a ≠ some false := by
      intro a
      by_cases ha : a = 0 <;> simp [downloaded, Processing.extracted, ha]
    simp only [toTheEnd, List.length_cons, List.length_nil] at hn
    interval_cases n
    · exact ⟨by decide, hnone⟩
    all_goals exact ⟨by decide, hafter⟩
  exact ⟨hreached, rfl, success_of_run hreached rfl⟩

/-- The repair has failed, and the attempt from the extraction on knows nothing of it. -/
theorem success_behind_failure :
    let s := (repaired false).run ([.restart .unpack true, .stop true, .answer .done,
      .answer (.set false true), .answer (.archives [0])] ++ toTheEnd)
    s.outcome = some .success ∧ s.lastVerification = some false ∧ ¬s.Clean := by
  refine ⟨by rfl, by rfl, fun h => h.1 (by rfl)⟩

end Nzbd.Post
