import Nzbd.Engine.Holders

/-!
# Who holds a segment

The owner gives segments out and forgets to whom: a report of failure names the segment and
the server, and it releases whatever lease there is.  Here every lease is written down as it
is given, and struck out when its connection reports.

As long as nothing is brought in over what is out (`Undisturbed`) that is enough:
`one_holder_of_run` says that no segment is out twice, and that a report which finds its
segment leased comes from the one who holds it.

A job that is taken over again while it has segments out is given out again.  The report
of the earlier holder then takes the segment away from the later one,
`not_one_holder_regranted`.
-/

namespace Nzbd.Engine

open List

open Nzbd.State (JournalRecord)

/-- A lease, as it is given. -/
structure Grant where
  serial : Nat
  ref : SegRef
  server : ServerId
  deriving DecidableEq

structure Ledger where
  /-- Every lease given so far, the last one first. -/
  grants : List Grant
  /-- Those whose connection has not reported. -/
  out : List Grant

namespace Ledger

def issue (server : ServerId) (l : Ledger) (r : SegRef) : Ledger :=
  let g : Grant := ⟨l.grants.length, r, server⟩
  ⟨g :: l.grants, g :: l.out⟩

def settle (l : Ledger) (g : Grant) : Ledger := { l with out := l.out.erase g }

/-- The last lease of a segment. -/
def latest (l : Ledger) (r : SegRef) : Option Grant := l.grants.find? (·.ref = r)

/-- The segments that are out. -/
def refs (l : Ledger) : List SegRef := l.out.map (·.ref)

end Ledger

/-- The owner and the leases it has given. -/
structure Dispatch where
  owner : Owner
  ledger : Ledger

namespace Dispatch

inductive Event
  /-- A connection asks for work. -/
  | request (w : World) (server : ServerId) (n : Nat)
  /-- What a connection had out has been written. -/
  | written (w : World) (g : Grant) (r : JournalRecord)
  /-- A connection could not get it. -/
  | failed (w : World) (g : Grant) (outcome : AttemptOutcome)
  /-- Any other message. -/
  | message (w : World) (m : Msg)

variable (lower : Text → Text)

def after (d : Dispatch) : Event → Dispatch
  | .request w server n =>
    let granted := d.owner.grantWork w server (max n 1)
    ⟨granted.2, (granted.1.map (·.2)).foldl (Ledger.issue server) d.ledger⟩
  | .written w g r => ⟨d.owner.step lower w (.segmentWritten r), d.ledger.settle g⟩
  | .failed w g outcome =>
    ⟨d.owner.step lower w (.segmentFailed g.ref g.server outcome), d.ledger.settle g⟩
  | .message w m => ⟨d.owner.step lower w m, d.ledger⟩

/-- A connection reports once on what it has out. -/
def Enabled (d : Dispatch) : Event → Prop
  | .request .. => True
  | .written _ g r => g ∈ d.ledger.out ∧ r.segRef = g.ref
  | .failed _ g _ => g ∈ d.ledger.out
  | .message _ m => (∀ server n, m ≠ .workRequest server n) ∧ (∀ r, m ≠ .segmentWritten r) ∧
      ∀ r server outcome, m ≠ .segmentFailed r server outcome

def Next (d : Dispatch) (e : Event) (d' : Dispatch) : Prop := d.Enabled e ∧ d' = d.after lower e

/-- A daemon that has just started: nothing is out. -/
def Init (d : Dispatch) : Prop := d.ledger = ⟨[], []⟩ ∧ d.owner.state.WellKeyed

abbrev Reached (ok : Dispatch → Event → Prop) : Dispatch → Prop := Runs.Run Init (Next lower) ok

/-- The ids a message brings in are fresh, and nothing is brought in over what is out. -/
def Undisturbed (d : Dispatch) : Event → Prop
  | .message w m => m.Fresh lower w d.owner ∧ m.Clear lower w d.owner d.ledger.refs
  | _ => True

/-- **At most one holder.**  No segment is out twice; a segment that is out and leased is
leased to the one who has it out, by the last lease of it; and the report of an earlier
lease leaves it leased. -/
def OneHolder (d : Dispatch) : Prop :=
  (∀ g ∈ d.ledger.out, ∀ h ∈ d.ledger.out, g.ref = h.ref → g = h) ∧
  (∀ g ∈ d.ledger.out, ∀ x server, d.owner.state.segment g.ref = some x →
    x.state = .leased server → d.ledger.latest g.ref = some g ∧ g.server = server) ∧
  ∀ g ∈ d.ledger.out, ∀ w outcome x server, d.owner.state.segment g.ref = some x →
    x.state = .leased server → d.ledger.latest g.ref ≠ some g →
      ∃ y, (d.owner.step lower w (.segmentFailed g.ref g.server outcome)).state.segment g.ref =
        some y ∧ y.state = .leased server

/-! ### The invariant -/

structure Agree (o : Owner) (l : Ledger) : Prop where
  keyed : o.state.WellKeyed
  nodup : l.refs.Nodup
  held : ∀ g ∈ l.out, ∀ x, o.state.segment g.ref = some x →
    x.state = .leased g.server ∨ x.state.isTerminal = true
  latest : ∀ g ∈ l.out, l.latest g.ref = some g

variable {lower} {w : World} {o o' : Owner} {l : Ledger} {d : Dispatch}

theorem Agree.stays (h : Agree o l) (hk : o'.state.WellKeyed)
    (hs : ∀ r ∈ l.refs, Stays o.state o'.state r) : Agree o' l := by
  refine ⟨hk, h.nodup, fun g hg y hy => ?_, h.latest⟩
  rcases hs g.ref (mem_map_of_mem hg) y (QueueState.has_of_segment hy) with hterm | ⟨x, hx, hxy⟩
  · exact .inr hterm
  · rw [← hxy]
    exact h.held g hg x (h.keyed.has_iff.mp hx)

theorem Agree.not_out (h : Agree o l) {r : SegRef} {x : Segment} (hx : o.state.segment r = some x)
    (hp : x.state = .pending) : r ∉ l.refs := by
  intro hr
  obtain ⟨g, hg, rfl⟩ := mem_map.mp hr
  rcases h.held g hg x hx with hl | hterm
  · rw [hp] at hl
    nomatch hl
  · rw [hp] at hterm
    nomatch hterm

theorem Agree.issue (h : Agree o l) {server : ServerId} {r : SegRef} (hr : r ∉ l.refs)
    (hk : o'.state.WellKeyed) (hs : ∀ r ∈ l.refs, Stays o.state o'.state r)
    (hleased : ∀ x, o'.state.segment r = some x → x.state = .leased server) :
    Agree o' (l.issue server r) := by
  have hrest := h.stays hk hs
  refine ⟨hk, nodup_cons.mpr ⟨hr, h.nodup⟩, fun g hg x hx => ?_, fun g hg => ?_⟩
  · rcases mem_cons.mp hg with rfl | hg
    · exact .inl (hleased x hx)
    · exact hrest.held g hg x hx
  · rcases mem_cons.mp hg with rfl | hg
    · simp [Ledger.latest, Ledger.issue]
    · have hne : r ≠ g.ref := fun heq => hr (heq ▸ mem_map_of_mem hg)
      have hlatest := h.latest g hg
      rw [Ledger.latest] at hlatest
      rw [Ledger.latest, Ledger.issue, find?_cons_of_neg (by simpa using hne)]
      exact hlatest

theorem applyLease_by_edit (o : Owner) (server : ServerId) (r : SegRef) :
    StateBy (· = ·) (o.state.updateSegment r fun x => { x with state := .leased server })
      (o.applyLease w server r).state := by
  have hstate : (o.applyLease w server r).state =
      (o.state.updateSegment r fun x => { x with state := .leased server }).updateJob r.job
        Owner.markDownloading := by
    simp [Owner.applyLease, Owner.updateJob, Owner.setSegment]
  rw [hstate]
  refine Owner.edit_by _ _ (fun j => ?_) fun j => ?_
  · unfold Owner.markDownloading; split <;> rfl
  · unfold Owner.markDownloading; split <;> rfl

theorem Agree.applyLease (h : Agree o l) {server : ServerId} {r : SegRef} (hr : r ∉ l.refs) :
    Agree (o.applyLease w server r) (l.issue server r) := by
  have hedit := applyLease_by_edit (w := w) o server r
  have hset : StateBy (fun _ _ => True) o.state
      (o.state.updateSegment r fun x => { x with state := .leased server }) :=
    ⟨.updateSegment (fun _ => trivial) fun _ _ => ⟨rfl, trivial⟩, rfl⟩
  have hk := hset.wellKeyed h.keyed
  refine h.issue hr (hedit.wellKeyed hk) (fun q hq => ?_) fun y hy => ?_
  · refine Stays.trans (t := o.state.updateSegment r fun x => { x with state := .leased server })
      (fun y hy => ?_) (.of_edit hedit q)
    have hne : q ≠ r := fun heq => hr (heq ▸ hq)
    have hseg := hk.has_iff.mp hy
    rw [segment_updateSegment_ne o.state (g := fun x => { x with state := .leased server }) hne
      fun _ => rfl] at hseg
    exact .inr ⟨y, QueueState.has_of_segment hseg, rfl⟩
  · obtain ⟨x, hx, hxy⟩ := hedit.jobs.has_right (QueueState.has_of_segment hy)
    have hseg := hk.has_iff.mp hx
    rw [segment_updateSegment_self o.state (g := fun x => { x with state := .leased server })
      fun _ => rfl, Option.map_eq_some_iff] at hseg
    obtain ⟨z, -, rfl⟩ := hseg
    exact hxy.symm

theorem Agree.grantRounds (server : ServerId) (n : Nat) (h : Agree o l) :
    Agree (Owner.grantRounds w server n o).2
      (((Owner.grantRounds w server n o).1.map (·.2)).foldl (Ledger.issue server) l) := by
  induction n generalizing o l with
  | zero => exact h
  | succ n ih =>
    have hfail : Agree (o.failExhausted w server) l :=
      h.stays ((Owner.failExhausted_settles o server).wellKeyed h.keyed) fun r _ =>
        .of_by (Owner.failExhausted_settles o server) r
    rw [Owner.grantRounds]
    cases hl : (o.nextLease w server).lease with
    | none => exact hfail
    | some r =>
      simp only
      cases ha : (o.failExhausted w server).ensureAllocation w r.job with
      | none => exact hfail
      | some granted =>
        obtain ⟨jobs, rfl⟩ := Owner.ensureAllocation_eq ha
        simp only
        split
        · exact { hfail with }
        · -- the segment was pending at the scan, so it was not out
          obtain ⟨x, hx, hp⟩ := (Owner.nextLease_live h.keyed hl).1.segment
          have hout : r ∉ l.refs := h.not_out hx hp
          rw [map_cons, foldl_cons]
          have hgranted : Agree { o.failExhausted w server with allocatedJobs := jobs } l :=
            { hfail with }
          exact ih (hgranted.applyLease hout)

theorem Agree.settle (h : Agree o l) {g : Grant} (hk : o'.state.WellKeyed)
    (hs : ∀ r ∈ l.refs, r ≠ g.ref → Stays o.state o'.state r) (hg : g ∈ l.out) :
    Agree o' (l.settle g) := by
  have hout : l.out.Nodup := h.nodup.of_map _
  have hmem : ∀ q ∈ (l.settle g).out, q ∈ l.out ∧ q.ref ≠ g.ref := by
    intro q hq
    obtain ⟨hne, hq⟩ := hout.mem_erase_iff.mp hq
    exact ⟨hq, fun heq => hne (inj_on_of_nodup_map h.nodup hq hg heq)⟩
  refine ⟨hk, ?_, fun q hq y hy => ?_, fun q hq => h.latest q (hmem q hq).1⟩
  · exact h.nodup.sublist (erase_sublist.map _)
  · obtain ⟨hq, hne⟩ := hmem q hq
    rcases hs q.ref (mem_map_of_mem hq) hne y (QueueState.has_of_segment hy) with
      hterm | ⟨x, hx, hxy⟩
    · exact .inr hterm
    · rw [← hxy]
      exact h.held q hq x (h.keyed.has_iff.mp hx)

theorem Agree.after {e : Event} (h : Agree d.owner d.ledger) (hen : d.Enabled e)
    (hok : d.Undisturbed lower e) : Agree (d.after lower e).owner (d.after lower e).ledger := by
  cases e with
  | request w server n =>
    simp only [Dispatch.after, Owner.grantWork]
    split
    · exact h
    · exact h.grantRounds server (max n 1)
  | written w g r =>
    have hk : (d.owner.step lower w (.segmentWritten r)).state.WellKeyed :=
      (Owner.step_keyed h.keyed (m := .segmentWritten r) trivial).state
    exact h.settle hk (fun q _ _ => .of_by (Owner.onSegmentWritten_settles d.owner r) q) hen.1
  | failed w g outcome =>
    have hk : (d.owner.step lower w (.segmentFailed g.ref g.server outcome)).state.WellKeyed :=
      (Owner.step_keyed h.keyed (m := .segmentFailed g.ref g.server outcome) trivial).state
    exact h.settle hk (fun q _ hne => Owner.onSegmentFailed_stays h.keyed hne g.server outcome) hen
  | message w m =>
    obtain ⟨hfresh, hclear⟩ := hok
    obtain ⟨hwork, -, hfail⟩ := hen
    refine h.stays (Owner.step_keyed h.keyed hfresh).state fun q hq => ?_
    exact Owner.step_stays hfresh hclear hq hwork hfail

theorem Agree.oneHolder (h : Agree d.owner d.ledger) : OneHolder lower d := by
  refine ⟨fun g hg k hk heq => ?_, fun g hg x server hx hl => ⟨h.latest g hg, ?_⟩,
    fun g hg w outcome x server hx hl hne => absurd (h.latest g hg) hne⟩
  · exact inj_on_of_nodup_map h.nodup hg hk heq
  · rcases h.held g hg x hx with hs | hterm
    · rw [hl] at hs
      exact (SegmentState.leased.inj hs).symm
    · rw [hl] at hterm
      nomatch hterm

/-- **No segment has two holders** in a run that brings nothing in over what is out. -/
theorem one_holder_of_run (h : Reached lower (Undisturbed lower) d) : OneHolder lower d := by
  refine Agree.oneHolder (Runs.Run.invariant (P := fun d => Agree d.owner d.ledger) ?_ ?_ h)
  · rintro d ⟨hledger, hk⟩
    rw [hledger]
    exact ⟨hk, nodup_nil, fun g hg => (nomatch hg), fun g hg => nomatch hg⟩
  · rintro d e _ hd hok ⟨hen, rfl⟩
    exact hd.after hen hok

/-! ### A job that is given out again -/

def fresh : Dispatch :=
  ⟨Owner.start Node.calmWorld (Node.dayConfig false) QueueState.default.toDoc [], ⟨[], []⟩⟩

def oneOut : Dispatch :=
  (fresh.after id (.message Node.calmWorld
    (.addParsed (text "one") Node.oneNzb none 0 false []))).after id (.request Node.calmWorld 1 1)

def regrantedJob : Job :=
  { QueueState.newJob 864000 1 .nzb (text "one") (text "one") none 0 .queued with
    files := [⟨1, text "one.bin", text "one.bin", false, false, [], none,
      [⟨text "a@b", 1, 100, .pending⟩], none, false⟩] }

/-- The job is taken over again while its article is out, and the article is given out
again. -/
def regranted : Dispatch :=
  (oneOut.after id (.message Node.calmWorld (.importJob regrantedJob []))).after id
    (.request Node.calmWorld 1 1)

theorem reached_after {ok : Dispatch → Event → Prop} (h : Reached id ok d) (e : Event)
    (hen : d.Enabled e) (hok : ok d e) : Reached id ok (d.after id e) :=
  Runs.Run.step h hok ⟨hen, rfl⟩

theorem oneOut_reached {ok : Dispatch → Event → Prop}
    (hadd : ok fresh (.message Node.calmWorld (.addParsed (text "one") Node.oneNzb none 0 false [])))
    (hrequest : ∀ d, ok d (.request Node.calmWorld 1 1)) : Reached id ok oneOut := by
  have hstart : Reached id ok fresh := by
    refine .start ⟨rfl, QueueState.wellKeyed_iff.mpr ⟨nodup_nil, nodup_nil, ?_⟩⟩
    exact fun j hj => nomatch hj
  have hadded := reached_after hstart (.message Node.calmWorld
    (.addParsed (text "one") Node.oneNzb none 0 false []))
    ⟨fun _ _ hm => (nomatch hm), fun _ hm => (nomatch hm), fun _ _ _ hm => (nomatch hm)⟩
    hadd
  exact reached_after hadded (.request Node.calmWorld 1 1) trivial (hrequest _)

def article (d : Dispatch) : Option SegmentState × List Grant :=
  ((d.owner.state.segment ⟨1, 1, 1⟩).map (·.state), d.ledger.out)

/-- The first holder fails, and the article is given out again. -/
def retaken : Dispatch :=
  (oneOut.after id (.failed Node.calmWorld ⟨0, ⟨1, 1, 1⟩, 1⟩ .other)).after id
    (.request Node.calmWorld 1 1)

/-- The article is out once. -/
theorem one_holder_once :
    retaken.article = (some (.leased 1), [⟨1, ⟨1, 1, 1⟩, 1⟩]) ∧ OneHolder id retaken := by
  have hout : Reached id (Undisturbed id) oneOut := by
    refine oneOut_reached ⟨⟨?_, ?_, ?_⟩, ?_⟩ fun _ => trivial
    · exact not_mem_nil
    · decide +kernel
    · exact fun i _ => not_mem_nil
    · exact fun r hr => nomatch hr
  have hmem : ⟨0, ⟨1, 1, 1⟩, 1⟩ ∈ oneOut.ledger.out := by decide +kernel
  have hfailed := reached_after hout (.failed Node.calmWorld ⟨0, ⟨1, 1, 1⟩, 1⟩ .other)
    hmem trivial
  exact ⟨by decide +kernel,
    one_holder_of_run (reached_after hfailed (.request Node.calmWorld 1 1) trivial trivial)⟩

/-- The report of the first holder takes the article away from the second. -/
theorem not_one_holder_regranted :
    ¬ ∀ d, Reached id (fun _ _ => True) d → OneHolder id d := by
  intro h
  have hbefore : regranted.article =
      (some (.leased 1), [⟨1, ⟨1, 1, 1⟩, 1⟩, ⟨0, ⟨1, 1, 1⟩, 1⟩]) := by decide +kernel
  have hlatest : regranted.ledger.latest ⟨1, 1, 1⟩ = some ⟨1, ⟨1, 1, 1⟩, 1⟩ := by decide +kernel
  have hafter : ((regranted.owner.step id Node.calmWorld
      (.segmentFailed ⟨1, 1, 1⟩ 1 .connectionFailed)).state.segment ⟨1, 1, 1⟩).map (·.state) =
      some .pending := by decide +kernel
  have hout : Reached id (fun _ _ => True) oneOut := oneOut_reached trivial fun _ => trivial
  have himport := reached_after hout (.message Node.calmWorld (.importJob regrantedJob []))
    ⟨fun _ _ hm => (nomatch hm), fun _ hm => (nomatch hm), fun _ _ _ hm => (nomatch hm)⟩ trivial
  have hagain := reached_after himport (.request Node.calmWorld 1 1) trivial trivial
  obtain ⟨hstate, hledger⟩ := Prod.mk.inj hbefore
  obtain ⟨x, hx, hleased⟩ := Option.map_eq_some_iff.mp hstate
  have hmem : (⟨0, ⟨1, 1, 1⟩, 1⟩ : Grant) ∈ regranted.ledger.out := by simp [hledger]
  have hstale : regranted.ledger.latest ⟨1, 1, 1⟩ ≠ some ⟨0, ⟨1, 1, 1⟩, 1⟩ := by
    rw [hlatest]
    decide
  obtain ⟨y, hy, hyl⟩ := (h regranted hagain).2.2 _ hmem Node.calmWorld .connectionFailed x 1 hx
    hleased hstale
  rw [hy, Option.map_some, hyl] at hafter
  nomatch hafter

end Dispatch

end Nzbd.Engine
