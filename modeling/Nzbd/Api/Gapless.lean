import Nzbd.Api.Sse

/-!
# No silent gap

A log is looked at one entry after another: `Follows` says what an entry may be after the log
before it, and `noSilentGap_of_follows` that this is all a client may rely on.  `Client.Ok` is
the invariant: it is about everything that has been written to a client, read or not, and says
of a live stream where its receiver is (`Live`): behind the last id written as far as the
stream drops frames by their number, and not further ahead than that id.

`gapless_of_run` has `NoSilentGap` for the log of every client in every run that is `Careful`,
and `received_twice` is a run that is not.
-/

namespace Nzbd.Api

open Option List
open Broadcast (Received)
open Log (Always)
open Runs (Run)

/-! ### One entry after another -/

/-- The number after which a stream goes on, as long as nothing has been signalled. -/
def expects : List Entry → Option Nat
  | [] => none
  | .opened _ :: log => (lastId log).map (·.seq)
  | .got (.event id _ _) :: _ => some id.seq
  | .got _ :: _ => none

/-- A stream has just been opened with an id of another boot. -/
def Foreign (boot : Nat) (log : List Entry) : Prop :=
  ∃ id, log.head? = some (.opened (some id)) ∧ id.boot ≠ boot

def Follows (boot : Nat) : Entry → List Entry → Prop
  | .opened lastEventId, log => ∀ n ∈ lastId log, lastEventId = some n
  | .got .reset, log => ∃ lastEventId, log.head? = some (.opened lastEventId)
  | .got (.lagged _), log => ¬Foreign boot log
  | .got (.event id _ _), log =>
    ¬Foreign boot log ∧ id.boot = boot ∧ 0 < id.seq ∧ (∀ n ∈ lastId log, n.seq < id.seq) ∧
      ∀ n ∈ expects log, id.seq = n + 1

variable {boot : Nat} {log mid base earlier later : List Entry} {id n m : EventId}
  {name data : Text} {e : SseEvent}

theorem got_cons_event : Got (.got (.event id name data) :: log) n ↔ n = id ∨ Got log n := by
  simp only [Got, mem_cons]
  constructor
  · rintro ⟨name', data', heq | hmem⟩
    · cases heq
      exact .inl rfl
    · exact .inr ⟨name', data', hmem⟩
  · rintro (rfl | ⟨name', data', hmem⟩)
    · exact ⟨name, data, .inl rfl⟩
    · exact ⟨name', data', .inr hmem⟩

theorem Got.mono (h : Got log id) (hsub : log ⊆ base) : Got base id := by
  obtain ⟨name, data, hmem⟩ := h
  exact ⟨name, data, hsub hmem⟩

theorem got_of_lastId (h : lastId log = some n) : Got log n := by
  induction log with
  | nil => cases h
  | cons a log ih =>
    match a with
    | .got (.event id name data) =>
      obtain rfl := some.inj h
      exact ⟨name, data, mem_cons_self⟩
    | .got .reset => exact (ih h).mono (subset_cons_self _ _)
    | .got (.lagged _) => exact (ih h).mono (subset_cons_self _ _)
    | .opened _ => exact (ih h).mono (subset_cons_self _ _)

theorem lastId_of_expects {k : Nat} (h : expects log = some k) :
    ∃ n, lastId log = some n ∧ n.seq = k := by
  match log with
  | .opened _ :: _ => exact map_eq_some_iff.mp h
  | .got (.event id _ _) :: _ => exact ⟨id, rfl, some.inj h⟩

/-- **The last id is the highest.** -/
theorem le_lastId (h : Always (Follows boot) log) (hgot : Got log id) :
    ∃ n, lastId log = some n ∧ id.seq ≤ n.seq := by
  induction log with
  | nil =>
    obtain ⟨_, _, hmem⟩ := hgot
    cases hmem
  | cons a log ih =>
    obtain ⟨ha, hlog⟩ := h
    match a with
    | .got (.event n name data) =>
      refine ⟨n, rfl, ?_⟩
      rcases got_cons_event.mp hgot with rfl | hgot
      · exact Nat.le_refl _
      · obtain ⟨k, hk, hle⟩ := ih hlog hgot
        obtain ⟨-, -, -, hlt, -⟩ := ha
        exact hle.trans (hlt k hk).le
    | .got .reset =>
      obtain ⟨name, data, hmem⟩ := hgot
      exact ih hlog ⟨name, data, (mem_cons.mp hmem).resolve_left (by simp)⟩
    | .got (.lagged _) =>
      obtain ⟨name, data, hmem⟩ := hgot
      exact ih hlog ⟨name, data, (mem_cons.mp hmem).resolve_left (by simp)⟩
    | .opened _ =>
      obtain ⟨name, data, hmem⟩ := hgot
      exact ih hlog ⟨name, data, (mem_cons.mp hmem).resolve_left (by simp)⟩

theorem pos_of_got (h : Always (Follows boot) log) (hgot : Got log id) : 0 < id.seq := by
  obtain ⟨name, data, hmem⟩ := hgot
  obtain ⟨after, before, rfl⟩ := append_of_mem hmem
  exact h.of_append.1.2.2.1

theorem lt_of_got (h : Always (Follows boot) (.got (.event m name data) :: log))
    (hgot : Got log n) : n.seq < m.seq := by
  obtain ⟨⟨-, -, -, hlt, -⟩, hlog⟩ := h
  obtain ⟨k, hk, hle⟩ := le_lastId hlog hgot
  exact hle.trans_lt (hlt k hk)

/-- **No gap while nothing is signalled.** -/
theorem covered (h : Always (Follows boot) (mid ++ base)) (hlast : lastId base = some n)
    (hbase : expects base = some n.seq) (hmid : ∀ e ∈ mid, ¬e.Signal) :
    ∃ m, lastId (mid ++ base) = some m ∧ expects (mid ++ base) = some m.seq ∧ n.seq ≤ m.seq ∧
      ∀ k, n.seq < k → k ≤ m.seq → Got mid ⟨boot, k⟩ := by
  induction mid with
  | nil => exact ⟨n, hlast, hbase, Nat.le_refl _, fun k hk hkm => absurd hk (by omega)⟩
  | cons a mid ih =>
    obtain ⟨ha, hlog⟩ := h
    have hsub : mid ⊆ a :: mid := subset_cons_self a mid
    obtain ⟨m, hm, hexpects, hle, hgot⟩ := ih hlog fun e he => hmid e (hsub he)
    match a with
    | .got (.event id name data) =>
      obtain ⟨-, hboot, -, -, hnext⟩ := ha
      have hseq : id.seq = m.seq + 1 := hnext _ hexpects
      refine ⟨id, rfl, rfl, by omega, fun k hk hkm => ?_⟩
      rcases Nat.lt_or_ge m.seq k with hlt | hge
      · obtain rfl : k = id.seq := by omega
        exact got_cons_event.mpr (.inl (by rw [← hboot]))
      · exact (hgot k hk hge).mono hsub
    | .opened _ =>
      refine ⟨m, hm, congrArg (Option.map _) hm, hle, fun k hk hkm => (hgot k hk hkm).mono hsub⟩
    | .got .reset => exact absurd trivial (hmid _ mem_cons_self)
    | .got (.lagged _) => exact absurd trivial (hmid _ mem_cons_self)

theorem resetFirst_of_mem (h : Always (Follows boot) (mid ++ base)) (hone : OneStream mid)
    (hmem : .got .reset ∈ mid) : ResetFirst mid := by
  obtain ⟨after, before, rfl⟩ := append_of_mem hmem
  have hreset : Follows boot (.got .reset) (before ++ base) := by
    rw [append_assoc, cons_append] at h
    exact h.of_append.1
  obtain ⟨lastEventId, hhead⟩ := hreset
  cases before with
  | nil => exact getLast?_concat
  | cons a before =>
    obtain rfl := some.inj hhead
    exact absurd (mem_append_right _ (mem_cons_of_mem _ mem_cons_self))
      (hone lastEventId)

theorem signalled_on (h : Always (Follows boot) (mid ++ base)) (hone : OneStream mid)
    {P : Prop} (hquiet : (∀ e ∈ mid, ¬e.Signal) → P) :
    P ∨ ResetFirst mid ∨ ∃ skipped, .got (.lagged skipped) ∈ mid := by
  by_cases hsignal : ∃ e ∈ mid, e.Signal
  · obtain ⟨e, he, hs⟩ := hsignal
    match e with
    | .got .reset => exact .inr (.inl (resetFirst_of_mem h hone he))
    | .got (.lagged skipped) => exact .inr (.inr ⟨skipped, he⟩)
    | .got (.event _ _ _) => exact absurd hs id
    | .opened _ => exact absurd hs id
  · exact .inl (hquiet fun e he hs => hsignal ⟨e, he, hs⟩)

/-- **What follows from one entry to the next** is all a client may rely on. -/
theorem noSilentGap_of_follows (h : Always (Follows boot) log) : NoSilentGap boot log where
  sameBoot id hgot := by
    obtain ⟨name, data, hmem⟩ := hgot
    obtain ⟨after, before, rfl⟩ := append_of_mem hmem
    obtain ⟨⟨-, hboot, -⟩, -⟩ := h.of_append
    exact hboot
  increasing later mid earlier m name data n name' data' heq := by
    subst heq
    exact lt_of_got h.of_append ⟨name', data', by simp⟩
  signalled later mid earlier m name data n name' data' heq := by
    subst heq
    obtain ⟨⟨-, -, -, -, hnext⟩, hlog⟩ := h.of_append
    by_cases hsignal : ∃ e ∈ mid, e.Signal
    · exact .inr hsignal
    · obtain ⟨p, -, hexpects, -, hgot⟩ :=
        covered hlog rfl rfl fun e he hs => hsignal ⟨e, he, hs⟩
      have hseq : m.seq = p.seq + 1 := hnext _ hexpects
      exact .inl fun k hk hkm => hgot k hk (by omega)
  resumed later mid earlier m name data lastEventId n heq hone hlast := by
    subst heq
    have hm := h.of_append
    obtain ⟨-, -, -, -, hnext⟩ := hm.1
    have hlog := hm.2
    obtain ⟨hopened, -⟩ := hlog.of_append
    refine ⟨hopened n hlast, lt_of_got hm ((got_of_lastId hlast).mono ?_), ?_⟩
    · exact fun e he => mem_append_right _ (mem_cons_of_mem _ he)
    · refine signalled_on hlog hone fun hquiet k hk hkm => ?_
      obtain ⟨p, -, hexpects, -, hgot⟩ :=
        covered hlog hlast (congrArg (Option.map _) hlast) hquiet
      have hseq : m.seq = p.seq + 1 := hnext _ hexpects
      exact hgot k hk (by omega)
  foreign later e mid earlier id heq hone hforeign := by
    subst heq
    have hlog := h.of_append
    -- The first entry of the stream is the reset: it is the only one that may follow.
    have hfirst (first : Entry) (l : List Entry) (hl : .got e :: mid = l ++ [first]) :
        first = .got .reset := by
      have hcut : Always (Follows boot) (first :: .opened (some id) :: earlier) := by
        rw [← cons_append, hl, append_assoc, singleton_append] at hlog
        exact hlog.of_append
      have hmem : first ∈ .got e :: mid := hl ▸ mem_append_right _ (mem_singleton_self _)
      have hnative : Foreign boot (.opened (some id) :: earlier) := ⟨id, rfl, hforeign⟩
      match first with
      | .got .reset => rfl
      | .got (.lagged _) => exact absurd hnative hcut.1
      | .got (.event _ _ _) => exact absurd hnative hcut.1.1
      | .opened r =>
        rcases mem_cons.mp hmem with heq | hmem
        · cases heq
        · exact absurd hmem (hone r)
    rcases eq_nil_or_concat (.got e :: mid) with hnil | ⟨l, first, hl⟩
    · cases hnil
    · rw [concat_eq_append] at hl
      rw [ResetFirst, hl, getLast?_concat, hfirst first l hl]

/-! ### What has been written -/

def Stream.written (st : Stream) (log : List Entry) : List Entry :=
  (st.pipe.map Entry.got).reverse ++ log

/-- What the client has read, and what it reads next. -/
def Client.written (c : Client) : List Entry :=
  match c.stream with
  | some st => st.written c.log
  | none => c.log

theorem Stream.written_concat {st st' : Stream} (h : st'.pipe = st.pipe ++ [e]) :
    st'.written log = .got e :: st.written log := by
  simp [Stream.written, h]

theorem Stream.written_of_pipe {st st' : Stream} (h : st'.pipe = st.pipe) :
    st'.written log = st.written log := by
  rw [Stream.written, h, Stream.written]

variable {k : Nat} {f : SeqFrame} {fs : List SeqFrame}

/-- A log that goes on with the frame after `k`. -/
structure UpTo (boot k : Nat) (log : List Entry) : Prop where
  follows : Always (Follows boot) log
  native : ¬Foreign boot log
  last : ∀ n ∈ lastId log, n.seq ≤ k
  expects : ∀ n ∈ expects log, n = k

theorem UpTo.event (h : UpTo boot k log) (hf : f.seq = k + 1) :
    UpTo boot (k + 1) (.got (f.sse boot) :: log) where
  follows := by
    refine ⟨⟨h.native, rfl, ?_, fun n hn => ?_, fun n hn => ?_⟩, h.follows⟩
    · show 0 < f.seq
      omega
    · have := h.last n hn
      show n.seq < f.seq
      omega
    · show f.seq = n + 1
      rw [hf, h.expects n hn]
  native := fun ⟨_, hhead, _⟩ => by cases hhead
  last n hn := by
    obtain rfl := some.inj hn
    exact hf.le
  expects n hn := by
    obtain rfl := some.inj hn
    exact hf

/-- **Replayed frames follow one another.** -/
theorem UpTo.frames {st : Stream} {sentSeq : Nat} (h : UpTo boot k (st.written log))
    (hk : sentSeq ≤ k) (hfs : ∀ i f, fs[i]? = some f → f.seq = k + i + 1) (hne : fs ≠ []) :
    let r := fs.foldl (Stream.replayFrame boot) (st, sentSeq)
    UpTo boot (k + fs.length) (r.1.written log) ∧ r.2 = k + fs.length ∧ r.1.pos = st.pos ∧
      ∃ n, lastId (r.1.written log) = some n ∧ n.seq = k + fs.length := by
  induction fs generalizing st sentSeq k with
  | nil => exact absurd rfl hne
  | cons f fs ih =>
    have hf : f.seq = k + 1 := hfs 0 f rfl
    have hwritten : (Stream.replayFrame boot (st, sentSeq) f).1.written log =
        .got (f.sse boot) :: st.written log := Stream.written_concat rfl
    have hmax : (Stream.replayFrame boot (st, sentSeq) f).2 = k + 1 := by
      show max sentSeq f.seq = k + 1
      omega
    have hone := hwritten ▸ h.event hf
    rw [foldl_cons]
    cases fs with
    | nil =>
      refine ⟨hone, hmax, rfl, ?_⟩
      rw [foldl_nil, hwritten]
      exact ⟨_, rfl, hf⟩
    | cons g gs =>
      have hlength : k + (f :: g :: gs).length = k + 1 + (g :: gs).length := by
        rw [length_cons]
        omega
      rw [hlength]
      refine ih hone hmax.le (fun i x hx => ?_)
        (cons_ne_nil g gs)
      have := hfs (i + 1) x hx
      omega

/-! ### The invariant -/

variable {hub hub' : EventHub} {st : Stream} {c c' : Client} {sentSeq : Nat}

/-- A stream that forwards, with what has been written. -/
structure Live (hub : EventHub) (log : List Entry) (pos sentSeq : Nat) : Prop where
  passed : pos ≤ hub.tx.length
  native : ¬Foreign hub.boot log
  last : ∀ n ∈ lastId log, n.seq ≤ max sentSeq (max pos (hub.tx.length - ringSize))
  expects : ∀ n ∈ expects log, pos ≤ n ∧ n ≤ max sentSeq pos
  sent : sentSeq = 0 ∨ ∃ n, lastId log = some n ∧ n.seq = sentSeq

/-- A stream that has not written yet. -/
structure Opened (hub : EventHub) (log : List Entry) (st : Stream) : Prop where
  passed : st.pos ≤ hub.tx.length
  pipe : st.pipe = []
  opened : ∃ earlier, log = .opened st.lastEventId :: earlier

structure Client.Ok (hub : EventHub) (c : Client) : Prop where
  follows : Always (Follows hub.boot) c.written
  pushed : ∀ n ∈ lastId c.written, n.seq ≤ hub.everPushed.length
  opened : ∀ st ∈ c.stream, (∀ sentSeq, st.stage ≠ .live sentSeq) → Opened hub c.log st
  loaded : ∀ st ∈ c.stream, ∀ highest, st.stage = .loaded highest →
    ∀ n ∈ lastId c.log, n.seq ≤ highest
  live : ∀ st ∈ c.stream, ∀ sentSeq, st.stage = .live sentSeq →
    Live hub c.written st.pos sentSeq

theorem Client.Ok.mono (h : c.Ok hub) (hboot : hub'.boot = hub.boot)
    (htx : hub.tx.length ≤ hub'.tx.length)
    (hpushed : hub.everPushed.length ≤ hub'.everPushed.length) : c.Ok hub' where
  follows := hboot ▸ h.follows
  pushed n hn := (h.pushed n hn).trans hpushed
  opened st hst hstage :=
    let ho := h.opened st hst hstage
    ⟨ho.passed.trans htx, ho.pipe, ho.opened⟩
  loaded := h.loaded
  live st hst sentSeq hstage := by
    have hl := h.live st hst sentSeq hstage
    refine ⟨hl.passed.trans htx, hboot ▸ hl.native, fun n hn => ?_, hl.expects, hl.sent⟩
    have := hl.last n hn
    omega

theorem Opened.written (h : Opened hub log st) : st.written log = log := by
  rw [Stream.written, h.pipe]
  rfl

theorem Client.Ok.connect {header : Option Text} (h : c.Ok hub) (hhub : hub.Ok)
    (hstep : c.connect hub header = some c') : c'.Ok hub := by
  unfold Client.connect at hstep
  cases hstream : c.stream with
  | some st =>
    rw [hstream] at hstep
    cases hstep
  | none =>
    rw [hstream] at hstep
    simp only at hstep
    split_ifs at hstep with hheader
    obtain rfl := some.inj hstep
    have hwritten : c.written = c.log := by rw [Client.written, hstream]
    have hfollows := hwritten ▸ h.follows
    have hpushed := hwritten ▸ h.pushed
    -- The header is the last id that has been received, and is read as such.
    have hopened : Follows hub.boot (.opened (header.bind EventId.parse)) c.log := by
      intro n hn
      obtain ⟨name, data, hmem⟩ := got_of_lastId hn
      have hboot := (noSilentGap_of_follows hfollows).sameBoot n ⟨name, data, hmem⟩
      have hlt := hpushed n hn
      have hnext := hhub.lt_next
      have := hhub.next
      rw [hheader n hn, bind_some]
      exact EventId.parse_display (hboot ▸ hhub.boot) (by omega)
    refine ⟨⟨hopened, hfollows⟩, hpushed, fun st hst hstage => ?_, fun st hst highest hstage => ?_,
      fun st hst sentSeq hstage => ?_⟩
    · obtain rfl := some.inj hst
      exact ⟨Nat.le_refl _, rfl, c.log, rfl⟩
    · obtain rfl := some.inj hst
      cases hstage
    · obtain rfl := some.inj hst
      cases hstage

theorem Client.Ok.load (h : c.Ok hub) (hhub : hub.Ok) (hstep : c.load hub = some c') :
    c'.Ok hub := by
  unfold Client.load at hstep
  obtain ⟨st, hst, hstep⟩ := bind_eq_some_iff.mp hstep
  have hwritten : c.written = st.written c.log := by rw [Client.written, hst]
  cases hstage : st.stage with
  | subscribed =>
    rw [hstage] at hstep
    obtain rfl := some.inj hstep
    have ho := h.opened st hst fun sentSeq hs => by rw [hstage] at hs; cases hs
    have hlog : c.written = c.log := hwritten.trans ho.written
    have hfollows := h.follows
    have hpushed := h.pushed
    rw [hwritten] at hfollows hpushed
    refine ⟨hfollows, hpushed, fun st' hst' _ => ?_,
      fun st' hst' highest hs n hn => ?_, fun st' hst' sentSeq hs => ?_⟩
    · obtain rfl := some.inj hst'
      exact { ho with }
    · obtain rfl := some.inj hst'
      obtain rfl := Stage.loaded.inj hs
      have := h.pushed n (hlog ▸ hn)
      have := hhub.lt_next
      omega
    · obtain rfl := some.inj hst'
      cases hs
  | _ =>
    rw [hstage] at hstep
    cases hstep

theorem ok_of_live (hstage : st.stage = .live sentSeq)
    (hfollows : Always (Follows hub.boot) (st.written log))
    (hpushed : ∀ n ∈ lastId (st.written log), n.seq ≤ hub.everPushed.length)
    (hlive : Live hub (st.written log) st.pos sentSeq) : Client.Ok hub ⟨log, some st⟩ where
  follows := hfollows
  pushed := hpushed
  opened st' hst' hs := by
    obtain rfl := some.inj hst'
    exact absurd hstage (hs sentSeq)
  loaded st' hst' highest hs := by
    obtain rfl := some.inj hst'
    rw [hstage] at hs
    cases hs
  live st' hst' sentSeq' hs := by
    obtain rfl := some.inj hst'
    obtain rfl := Stage.live.inj (hstage.symm.trans hs)
    exact hlive

/-- **Where a stream goes on**: after the reset, behind the last frame replayed, or at the newest
frame, which its receiver has passed then. -/
theorem Client.Ok.replay (h : c.Ok hub) (hhub : hub.Ok)
    (hcareful : ∀ st ∈ c.stream, ∀ n ∈ lastId c.log,
      n.seq ≤ st.pos ∨ ∃ f ∈ hub.ring, n.seq < f.seq)
    (hstep : c.replay hub = some c') : c'.Ok hub := by
  unfold Client.replay at hstep
  obtain ⟨st, hst, hstep⟩ := bind_eq_some_iff.mp hstep
  cases hstage : st.stage with
  | loaded highest =>
    rw [hstage] at hstep
    obtain rfl := some.inj hstep
    have ho := h.opened st hst fun sentSeq hs => by rw [hstage] at hs; cases hs
    have hwritten : c.written = c.log := by
      rw [Client.written, hst]
      exact ho.written
    have hfollows := h.follows
    have hpushed := h.pushed
    rw [hwritten] at hfollows hpushed
    have hloaded := h.loaded st hst highest hstage
    obtain ⟨earlier, hearlier⟩ := ho.opened
    have hlength := hub.length_tx
    -- A client that has received an id goes on from it.
    have hresume : ∀ n, lastId c.log = some n → st.lastEventId = some n ∧ n.boot = hub.boot ∧
        0 < hub.everPushed.length := by
      intro n hn
      have hboot := (noSilentGap_of_follows hfollows).sameBoot n (got_of_lastId hn)
      have hseq := pos_of_got hfollows (got_of_lastId hn)
      have hle := hpushed n hn
      rw [hearlier] at hfollows hn
      exact ⟨hfollows.1 n hn, hboot, by omega⟩
    have hanswer : ∀ n, lastId c.log = some n →
        Api.replay hub.boot highest hub.ring st.lastEventId =
          if n.seq < hub.everPushed.length - ringSize then .reset
          else if hub.everPushed.length ≤ n.seq then .live
          else .frames (hub.everPushed.drop n.seq) := by
      intro n hn
      obtain ⟨hid, hboot, hpos⟩ := hresume n hn
      have := hhub.replay_eq (hloaded n hn) hpos
      rwa [hid, ← hboot] at *
    cases hreplay : Api.replay hub.boot highest hub.ring st.lastEventId with
    | reset =>
      have hlog : (st.resume hub.boot .reset).written c.log = .got .reset :: c.log :=
        (Stream.written_concat rfl).trans (congrArg _ ho.written)
      have hhead : Follows hub.boot (.got .reset) c.log :=
        ⟨st.lastEventId, congrArg head? hearlier⟩
      have hlive : Live hub (.got .reset :: c.log) st.pos 0 := by
        refine ⟨ho.passed, fun ⟨_, hhead, _⟩ => (by cases hhead), fun n hn => ?_,
          fun n hn => (by cases hn), .inl rfl⟩
        have hgone := (hanswer n hn).symm.trans hreplay
        split_ifs at hgone with hlt
        omega
      exact ok_of_live rfl (hlog ▸ ⟨hhead, hfollows⟩) (hlog ▸ hpushed) (hlog ▸ hlive)
    | live =>
      have hlog : (st.resume hub.boot .live).written c.log = c.log :=
        (Stream.written_of_pipe rfl).trans ho.written
      have hlast : ∀ n, lastId c.log = some n → n.seq = st.pos := by
        intro n hn
        have hnone := (hanswer n hn).symm.trans hreplay
        split_ifs at hnone with hlt hle
        have hnewest := hpushed n hn
        have hpassed := ho.passed
        rcases hcareful st hst n hn with hsent | ⟨f, hf, hlater⟩
        · omega
        · rw [hhub.ring] at hf
          have := (hhub.numbered.mem (mem_of_mem_drop hf)).2
          omega
      have hlive : Live hub c.log st.pos 0 := by
        refine ⟨ho.passed, ?_, fun n hn => ?_, fun n hn => ?_, .inl rfl⟩
        · rintro ⟨id, hhead, hboot⟩
          rw [hearlier] at hhead
          have hid : st.lastEventId = some id := Entry.opened.inj (some.inj hhead)
          rw [hid, replay_of_boot_ne hboot] at hreplay
          cases hreplay
        · have := hlast n hn
          omega
        · obtain ⟨id, hid, rfl⟩ := lastId_of_expects hn
          have := hlast id hid
          omega
      exact ok_of_live rfl (hlog.symm ▸ hfollows) (hlog.symm ▸ hpushed) (hlog.symm ▸ hlive)
    | frames frames =>
      obtain ⟨k, hid, hk, hring⟩ := replay_eq_frames hreplay
      have hpos : 0 < hub.everPushed.length :=
        length_pos_iff.mpr fun hnil => hring (by rw [hhub.ring, hnil, Broadcast.window_nil])
      have hframes : frames = hub.everPushed.drop k ∧ k < hub.everPushed.length := by
        have hdrop := (hhub.replay_eq hk hpos).symm.trans (hid ▸ hreplay)
        split_ifs at hdrop with hgone hnone
        exact ⟨(Replay.frames.inj hdrop).symm, by omega⟩
      obtain ⟨rfl, hlt⟩ := hframes
      have hlast : ∀ n, lastId c.log = some n → n.seq = k := fun n hn => by
        obtain ⟨hn, -⟩ := hresume n hn
        obtain rfl := some.inj (hn.symm.trans hid)
        rfl
      have hupto : UpTo hub.boot k (st.written c.log) := by
        rw [ho.written]
        refine ⟨hfollows, ?_, fun n hn => (hlast n hn).le, fun n hn => ?_⟩
        · rintro ⟨id, hhead, hboot⟩
          rw [hearlier, hid] at hhead
          obtain rfl := some.inj (Entry.opened.inj (some.inj hhead))
          exact hboot rfl
        · obtain ⟨id, hid, rfl⟩ := lastId_of_expects hn
          exact hlast id hid
      have hne : hub.everPushed.drop k ≠ [] := fun hnil => by
        rw [drop_eq_nil_iff] at hnil
        omega
      have hnumber := fun i f hf => hhub.numbered.drop (k := k) (i := i) (b := f) hf
      obtain ⟨hnext, hsent, hstay, n, hn, hseq⟩ := hupto.frames (Nat.zero_le k) hnumber hne
      rw [length_drop] at hnext hsent hseq
      have hpassed : (st.resume hub.boot (.frames (hub.everPushed.drop k))).pos = st.pos := hstay
      refine ok_of_live rfl ?_ ?_ ?_
      · exact hnext.follows
      · intro m hm
        have := hnext.last m hm
        omega
      · rw [hpassed]
        refine ⟨ho.passed, hnext.native, fun m hm => ?_, fun m hm => ?_,
          .inr ⟨n, hn, hseq.trans hsent.symm⟩⟩
        · have := hnext.last m hm
          omega
        · have := hnext.expects m hm
          have := ho.passed
          omega
  | _ =>
    rw [hstage] at hstep
    cases hstep

theorem Client.Ok.deliver (h : c.Ok hub) (hhub : hub.Ok) (hstep : c.deliver hub = some c') :
    c'.Ok hub := by
  unfold Client.deliver at hstep
  obtain ⟨st, hst, hstep⟩ := bind_eq_some_iff.mp hstep
  cases hstage : st.stage with
  | live sentSeq =>
    rw [hstage] at hstep
    obtain ⟨⟨received, pos⟩, hrecv, heq⟩ := bind_eq_some_iff.mp hstep
    obtain rfl := some.inj heq
    have hl := h.live st hst sentSeq hstage
    have hfollows := h.follows
    have hpushed := h.pushed
    have hwritten : c.written = st.written c.log := by rw [Client.written, hst]
    rw [hwritten] at hl hfollows hpushed
    cases received with
    | lagged skipped =>
      obtain ⟨hbehind, hpos⟩ := Broadcast.recv_eq_lagged hrecv
      have hlog : (st.forward hub.boot sentSeq (.lagged skipped, pos)).written c.log =
          .got (.lagged skipped) :: st.written c.log := Stream.written_concat rfl
      have hlive : Live hub (.got (.lagged skipped) :: st.written c.log) pos sentSeq := by
        refine ⟨by omega, fun ⟨_, hhead, _⟩ => (by cases hhead), fun n hn => ?_,
          fun n hn => (by cases hn), hl.sent⟩
        have := hl.last n hn
        omega
      exact ok_of_live hstage (hlog ▸ ⟨hl.native, hfollows⟩) (hlog ▸ hpushed) (hlog ▸ hlive)
    | value f =>
      obtain ⟨hget, hpos, hnear, hlt⟩ := Broadcast.recv_eq_value hrecv
      obtain ⟨hever, hseq⟩ := hhub.tx hget
      by_cases hsent : f.seq ≤ sentSeq
      · -- The frame has been replayed, and nothing was sent after it.
        have hforward : st.forward hub.boot sentSeq (.value f, pos) = { st with pos := pos } :=
          if_pos hsent
        have hlive : Live hub (st.written c.log) pos sentSeq := by
          refine ⟨by omega, hl.native, fun n hn => ?_, fun n hn => ?_, hl.sent⟩
          · have := hl.last n hn
            omega
          · obtain ⟨hle, hmax⟩ := hl.expects n hn
            obtain ⟨id, hid, rfl⟩ := lastId_of_expects hn
            obtain ⟨last, hlast, hlastSeq⟩ := hl.sent.resolve_left (by omega)
            obtain rfl := some.inj (hid.symm.trans hlast)
            omega
        rw [hforward]
        exact ok_of_live hstage hfollows hpushed hlive
      · have hforward : st.forward hub.boot sentSeq (.value f, pos) =
            { st with pos := pos, stage := .live f.seq, pipe := st.pipe ++ [f.sse hub.boot] } :=
          if_neg hsent
        have hupto : UpTo hub.boot st.pos (st.written c.log) := by
          refine ⟨hfollows, hl.native, fun n hn => ?_, fun n hn => ?_⟩
          · have := hl.last n hn
            omega
          · have := hl.expects n hn
            omega
        have hnext := hupto.event hseq
        obtain ⟨hltEver, -⟩ := List.getElem?_eq_some_iff.mp hever
        rw [hforward]
        refine ok_of_live rfl ?_ ?_ ?_ <;> rw [Stream.written_concat rfl]
        · exact hnext.follows
        · intro n hn
          have := hnext.last n hn
          omega
        · refine ⟨by show pos ≤ _; omega, hnext.native, fun n hn => ?_, fun n hn => ?_,
            .inr ⟨_, rfl, rfl⟩⟩
          · have := hnext.last n hn
            omega
          · have := hnext.expects n hn
            show pos ≤ n ∧ n ≤ max f.seq pos
            omega
  | _ =>
    rw [hstage] at hstep
    cases hstep

theorem Client.Ok.read (h : c.Ok hub) (hstep : c.read = some c') : c'.Ok hub := by
  unfold Client.read at hstep
  obtain ⟨st, hst, hstep⟩ := bind_eq_some_iff.mp hstep
  cases hpipe : st.pipe with
  | nil =>
    rw [hpipe] at hstep
    cases hstep
  | cons e pipe =>
    rw [hpipe] at hstep
    obtain rfl := some.inj hstep
    have hwritten : c.written = Stream.written { st with pipe := pipe } (.got e :: c.log) := by
      rw [Client.written, hst]
      simp [Stream.written, hpipe]
    have hfollows := h.follows
    have hpushed := h.pushed
    have hlive := fun sentSeq => h.live st hst sentSeq
    rw [hwritten] at hfollows hpushed hlive
    -- A stream that is not live has written nothing.
    have hstage : ∃ sentSeq, st.stage = .live sentSeq := by
      by_contra hnot
      have ho := h.opened st hst fun sentSeq hs => hnot ⟨sentSeq, hs⟩
      rw [ho.pipe] at hpipe
      cases hpipe
    obtain ⟨sentSeq, hstage⟩ := hstage
    exact ok_of_live hstage hfollows hpushed (hlive sentSeq hstage)

theorem Client.Ok.disconnect (h : c.Ok hub) (hstep : c.disconnect = some c') : c'.Ok hub := by
  obtain ⟨st, hst, rfl⟩ := map_eq_some_iff.mp hstep
  have hwritten : c.written = st.written c.log := by rw [Client.written, hst]
  have hfollows := h.follows
  have hpushed := h.pushed
  rw [hwritten] at hfollows hpushed
  refine ⟨hfollows.of_append, fun n hn => ?_, fun _ hno => (by cases hno),
    fun _ hno => (by cases hno), fun _ hno => (by cases hno)⟩
  obtain ⟨m, hm, hle⟩ := le_lastId hfollows
    ((got_of_lastId hn).mono fun e he => mem_append_right _ he)
  exact hle.trans (hpushed m hm)

namespace Service

variable {ι : Type*} {s t : Service ι} {i : Input ι}

structure Inv (s : Service ι) : Prop where
  hub : s.hub.Ok
  client : ∀ c, (s.client c).Ok s.hub

theorem Start.inv (h : s.Start) : Inv s := by
  obtain ⟨boot, hboot, hhub, hclient⟩ := h
  refine ⟨hhub ▸ EventHub.ok_new hboot, fun c => ?_⟩
  rw [hclient c]
  exact ⟨trivial, fun _ hno => (by cases hno), fun _ hno => (by cases hno),
    fun _ hno => (by cases hno), fun _ hno => (by cases hno)⟩

theorem Inv.setHub (h : Inv s) {hub : EventHub} (hok : hub.Ok) (hboot : hub.boot = s.hub.boot)
    (htx : s.hub.tx.length ≤ hub.tx.length)
    (hpushed : s.hub.everPushed.length ≤ hub.everPushed.length) : Inv { s with hub := hub } :=
  ⟨hok, fun c => (h.client c).mono hboot htx hpushed⟩

variable [DecidableEq ι]

theorem Inv.setClient (h : Inv s) {c : ι} {k : Client} (hk : k.Ok s.hub) :
    Inv (s.setClient c k) := by
  refine ⟨h.hub, fun c' => ?_⟩
  show Client.Ok s.hub (Function.update s.client c k c')
  by_cases heq : c' = c
  · subst heq
    rw [Function.update_self]
    exact hk
  · rw [Function.update_of_ne heq]
    exact h.client c'

theorem Inv.step (h : Inv s) (hok : s.Careful i) (hnext : s.Next i t) : Inv t := by
  cases i with
  | number name body =>
    obtain ⟨hub, hstep, rfl⟩ := map_eq_some_iff.mp hnext
    obtain ⟨hhub, hboot, htx, hpushed⟩ := h.hub.number hok hstep
    exact h.setHub hhub hboot (htx ▸ Nat.le_refl _) (hpushed ▸ Nat.le_refl _)
  | push =>
    obtain ⟨hub, hstep, rfl⟩ := map_eq_some_iff.mp hnext
    obtain ⟨hhub, hboot, htx, f, hpushed⟩ := h.hub.push hstep
    refine h.setHub hhub hboot (htx ▸ Nat.le_refl _) ?_
    rw [hpushed, length_append]
    exact Nat.le_add_right _ _
  | broadcast =>
    obtain ⟨hub, hstep, rfl⟩ := map_eq_some_iff.mp hnext
    obtain ⟨hhub, hboot, hpushed, f, htx⟩ := h.hub.broadcast hstep
    refine h.setHub hhub hboot ?_ (hpushed ▸ Nat.le_refl _)
    rw [htx, length_append]
    exact Nat.le_add_right _ _
  | connect c header =>
    obtain ⟨k, hstep, rfl⟩ := map_eq_some_iff.mp hnext
    exact h.setClient ((h.client c).connect h.hub hstep)
  | load c =>
    obtain ⟨k, hstep, rfl⟩ := map_eq_some_iff.mp hnext
    exact h.setClient ((h.client c).load h.hub hstep)
  | replay c =>
    obtain ⟨k, hstep, rfl⟩ := map_eq_some_iff.mp hnext
    exact h.setClient ((h.client c).replay h.hub hok hstep)
  | deliver c =>
    obtain ⟨k, hstep, rfl⟩ := map_eq_some_iff.mp hnext
    exact h.setClient ((h.client c).deliver h.hub hstep)
  | read c =>
    obtain ⟨k, hstep, rfl⟩ := map_eq_some_iff.mp hnext
    exact h.setClient ((h.client c).read hstep)
  | disconnect c =>
    obtain ⟨k, hstep, rfl⟩ := map_eq_some_iff.mp hnext
    exact h.setClient ((h.client c).disconnect hstep)

end Service

theorem Client.Ok.caughtUp (h : c.Ok hub) : CaughtUp hub c := by
  intro st sentSeq mid lastEventId earlier n hst hstage hpipe hpos hlog hone hlast
  have hwritten : c.written = mid ++ .opened lastEventId :: earlier := by
    rw [Client.written, hst, ← hlog]
    simp [Stream.written, hpipe]
  have hfollows := h.follows
  have hlive := h.live st hst sentSeq hstage
  rw [hwritten] at hfollows hlive
  refine signalled_on hfollows hone fun hquiet k hk hkm => ?_
  obtain ⟨p, -, hexpects, -, hgot⟩ :=
    covered hfollows hlast (congrArg (Option.map _) hlast) hquiet
  have := hlive.expects _ hexpects
  exact hgot k hk (by omega)

/-- **No silent gap**: a client knows of everything it has missed, and gets nothing twice. -/
theorem gapless_of_run {ι : Type*} [DecidableEq ι] {s : Service ι}
    (h : Run Service.Start Service.Next Service.Careful s) (c : ι) :
    NoSilentGap s.hub.boot (s.client c).log ∧ CaughtUp s.hub (s.client c) := by
  have hinv : Service.Inv s := h.invariant (fun s hs => hs.inv) fun _ _ _ hi hok hn => hi.step hok hn
  have hok := hinv.client c
  refine ⟨noSilentGap_of_follows ?_, hok.caughtUp⟩
  have hfollows := hok.follows
  unfold Client.written at hfollows
  cases hst : (s.client c).stream with
  | none => rwa [hst] at hfollows
  | some st =>
    rw [hst] at hfollows
    exact hfollows.of_append

/-! ### One client -/

def start : Service Unit := ⟨.new 7, fun _ => ⟨[], none⟩⟩

theorem start_start : start.Start := ⟨7, by decide, rfl, fun _ => rfl⟩

instance (s : Service Unit) (i : Input Unit) : Decidable (s.Careful i) := by
  unfold Service.Careful
  split <;> infer_instance

/-- The client loses its connection after the frame `1`, and is back when the pump has broadcast
two more. -/
def lateReturn : List (Input Unit) :=
  [.connect () none, .load (), .replay (), .number (text "a") showNat, .push, .broadcast,
    .deliver (), .read (), .disconnect (), .number (text "b") showNat, .push, .broadcast,
    .number (text "c") showNat, .push, .broadcast, .connect () (some (text "7-1")), .load (),
    .replay (), .read (), .read ()]

def lateReturnLog : List Entry :=
  [.got (.event ⟨7, 3⟩ (text "c") (text "3")), .got (.event ⟨7, 2⟩ (text "b") (text "2")),
    .opened (some ⟨7, 1⟩), .got (.event ⟨7, 1⟩ (text "a") (text "1")), .opened none]

theorem gapless_of_run_one : ∃ s : Service Unit,
    Run Service.Start Service.Next Service.Careful s ∧ (s.client ()).log = lateReturnLog ∧
      NoSilentGap s.hub.boot (s.client ()).log ∧ CaughtUp s.hub (s.client ()) := by
  have hexec : (Trace.exec (Trace.guarded Service.Careful Service.step) lateReturn start).map
      (fun s => (s.client ()).log) = some lateReturnLog := by decide +kernel
  obtain ⟨s, hs, hlog⟩ := map_eq_some_iff.mp hexec
  have hrun := Trace.run_of_guarded start_start hs
  exact ⟨s, hrun, hlog, gapless_of_run hrun ()⟩

/-- The client loses its second connection as soon as it has read the frame `2`, and is back
before the pump has broadcast it. -/
def quickReturn : List (Input Unit) :=
  [.connect () none, .load (), .replay (), .number (text "a") showNat, .push, .broadcast,
    .deliver (), .read (), .disconnect (), .number (text "b") showNat, .push,
    .connect () (some (text "7-1")), .load (), .replay (), .read (), .disconnect (),
    .connect () (some (text "7-2")), .load (), .replay (), .broadcast, .deliver (), .read ()]

def quickReturnLog : List Entry :=
  let second := Entry.got (.event ⟨7, 2⟩ (text "b") (text "2"))
  [second, .opened (some ⟨7, 2⟩), second, .opened (some ⟨7, 1⟩),
    .got (.event ⟨7, 1⟩ (text "a") (text "1")), .opened none]

/-- **Received twice**: the stream that goes on after `2` is live at once, with `2` still to
come. -/
theorem received_twice : ∃ s : Service Unit,
    Run Service.Start Service.Next (fun _ _ => True) s ∧ s.hub.boot = 7 ∧
      (s.client ()).log = quickReturnLog ∧ ¬NoSilentGap s.hub.boot (s.client ()).log := by
  have hexec : (Trace.exec Service.step quickReturn start).map
      (fun s => (s.hub.boot, (s.client ()).log)) = some (7, quickReturnLog) := by decide +kernel
  obtain ⟨s, hs, heq⟩ := map_eq_some_iff.mp hexec
  obtain ⟨hboot, hlog⟩ := Prod.mk.inj heq
  refine ⟨s, Trace.run_of_exec start_start hs, hboot, hlog, fun h => ?_⟩
  have hlt := h.increasing [] [.opened (some ⟨7, 2⟩)] _ _ _ _ _ _ _ hlog
  exact Nat.lt_irrefl 2 hlt

end Nzbd.Api
