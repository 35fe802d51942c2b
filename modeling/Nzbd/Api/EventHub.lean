import Nzbd.Engine.Naming
import Nzbd.Lib.Broadcast

/-!
# The event hub

The hub numbers the events of the engine, keeps the last `ringSize` of them for replay and
broadcasts them to the streams that are open.  The pump does so in three steps, `number`,
`push` and `broadcast`; between them other threads see a number without its frame, or a frame
in the ring that no receiver has got.

`replay_eq` says what a client is told that asks to go on after an id: the frames from there
on if the ring has them, nothing if there are none, and a reset if they are gone.
`EventId.parse_display` is the round trip of an id over the wire.
-/

namespace Nzbd.Api

open Broadcast (window Numbered)

/-- `RING`, which is the capacity of the broadcast channel too. -/
def ringSize : Nat := 1024

structure SeqFrame where
  seq : Nat
  name : Text
  data : Text

/-! ### Ids -/

structure EventId where
  boot : Nat
  seq : Nat
  deriving DecidableEq

def EventId.parse (raw : Text) : Option EventId := do
  let (boot, seq) ← Utf8.splitOnce '-' (Utf8.trim raw)
  let boot ← Numeral.fromStrRadix 10 (2 ^ 64) boot
  let seq ← Numeral.fromStrRadix 10 (2 ^ 64) seq
  return ⟨boot, seq⟩

def EventId.display (id : EventId) : Text := showNat id.boot ++ '-' :: showNat id.seq

theorem minus_not_mem_showNat (n : Nat) : '-' ∉ showNat n := by
  intro h
  obtain ⟨d, hd, heq⟩ := Numeral.mem_toDigits_ten n _ h
  exact Nat.digitChar_ne '-' rfl heq.symm

theorem EventId.trim_display (id : EventId) : Utf8.trim id.display = id.display := by
  have hdigit : ∀ d < 16, Utf8.isWhitespace (Nat.digitChar d) = false := by decide
  have hshow (n : Nat) : ∀ c ∈ showNat n, Utf8.isWhitespace c = false := by
    intro c hc
    obtain ⟨d, hd, rfl⟩ := Numeral.digits_toDigits n c hc
    exact hdigit d hd
  have hall : ∀ c ∈ id.display, Utf8.isWhitespace c = false := by
    intro c hc
    rcases List.mem_append.mp hc with hc | hc
    · exact hshow _ c hc
    rcases List.mem_cons.mp hc with rfl | hc
    · decide
    · exact hshow _ c hc
  exact Utf8.trimMatches_eq_self (fun c hc => hall c (List.mem_of_head? hc))
    fun c hc => hall c (List.mem_of_getLast? hc)

/-- **An id is read as it was written.** -/
theorem EventId.parse_display {id : EventId} (hboot : id.boot < 2 ^ 64) (hseq : id.seq < 2 ^ 64) :
    EventId.parse id.display = some id := by
  have hread {n : Nat} (h : n < 2 ^ 64) :
      Numeral.fromStrRadix 10 (2 ^ 64) (showNat n) = some n :=
    Numeral.fromStrRadix_toDigits (.inl rfl) h
  rw [EventId.parse, id.trim_display, EventId.display, Utf8.splitOnce_append (minus_not_mem_showNat _)]
  simp only [Option.bind_eq_bind, Option.bind_some, hread hboot, hread hseq]
  rfl

/-! ### The hub -/

/-- What the pump has in its hands. -/
inductive Pump
  | idle
  /-- Numbered, and not in the ring. -/
  | numbered (f : SeqFrame)
  /-- In the ring, and not broadcast. -/
  | pushed (f : SeqFrame)

structure EventHub where
  boot : Nat
  next : Nat
  ring : List SeqFrame
  /-- Every frame that has been broadcast; receivers get at the last `ringSize` of them. -/
  tx : List SeqFrame
  pump : Pump

namespace EventHub

def new (boot : Nat) : EventHub := ⟨boot, 1, [], [], .idle⟩

/-- `body` is the event with its number in it. -/
def number (h : EventHub) (name : Text) (body : Nat → Text) : Option EventHub :=
  match h.pump with
  | .idle =>
    some { h with next := (h.next + 1) % 2 ^ 64, pump := .numbered ⟨h.next, name, body h.next⟩ }
  | _ => none

def push (h : EventHub) : Option EventHub :=
  match h.pump with
  | .numbered f => some { h with ring := Broadcast.push ringSize h.ring f, pump := .pushed f }
  | _ => none

def broadcast (h : EventHub) : Option EventHub :=
  match h.pump with
  | .pushed f => some { h with tx := h.tx ++ [f], pump := .idle }
  | _ => none

end EventHub

inductive Replay
  | live
  | frames (frames : List SeqFrame)
  | reset

/-- `highest` is the last number that had been taken when `next` was read, which is before the
ring is. -/
def replay (boot highest : Nat) (ring : List SeqFrame) : Option EventId → Replay
  | none => .live
  | some id =>
    if id.boot ≠ boot then .reset
    else if highest < id.seq then .reset
    else
      match ring.head? with
      | none => if id.seq = highest then .live else .reset
      | some oldest =>
        if id.seq + 1 < oldest.seq then .reset
        else
          let frames := ring.filter fun f => id.seq < f.seq
          if frames = [] then .live else .frames frames

theorem replay_of_boot_ne {boot highest : Nat} {ring : List SeqFrame} {id : EventId}
    (h : id.boot ≠ boot) : replay boot highest ring (some id) = .reset := if_pos h

theorem replay_eq_frames {boot highest : Nat} {ring frames : List SeqFrame} {id : Option EventId}
    (h : replay boot highest ring id = .frames frames) :
    ∃ n, id = some ⟨boot, n⟩ ∧ n ≤ highest ∧ ring ≠ [] := by
  cases id with
  | none => cases h
  | some id =>
    have hboot : id.boot = boot := by
      by_contra hne
      rw [replay_of_boot_ne hne] at h
      cases h
    subst hboot
    simp only [replay, ne_eq, not_true_eq_false, if_false] at h
    by_cases hhighest : highest < id.seq
    · rw [if_pos hhighest] at h
      cases h
    · rw [if_neg hhighest] at h
      refine ⟨id.seq, rfl, Nat.not_lt.mp hhighest, ?_⟩
      rintro rfl
      simp only [List.head?_nil] at h
      split_ifs at h

/-! ### Numbers -/

namespace EventHub

variable {h h' : EventHub}

/-- Every frame that has been in the ring. -/
def everPushed (h : EventHub) : List SeqFrame :=
  match h.pump with
  | .pushed f => h.tx ++ [f]
  | _ => h.tx

/-- `next` is where the numbers go on. -/
def Counts (h : EventHub) : Prop :=
  match h.pump with
  | .idle => h.next = h.tx.length + 1
  | .numbered f => f.seq = h.tx.length + 1 ∧ h.next = h.tx.length + 2
  | .pushed _ => h.next = h.tx.length + 2

structure Ok (h : EventHub) : Prop where
  boot : h.boot < 2 ^ 64
  next : h.next < 2 ^ 64
  numbered : Numbered SeqFrame.seq h.everPushed
  ring : h.ring = window ringSize h.everPushed
  counts : h.Counts

theorem length_tx (h : EventHub) :
    h.tx.length ≤ h.everPushed.length ∧ h.everPushed.length ≤ h.tx.length + 1 := by
  unfold everPushed
  cases h.pump with
  | pushed f =>
    simp only [List.length_append, List.length_singleton]
    omega
  | _ => exact ⟨Nat.le_refl _, Nat.le_succ _⟩

theorem Ok.tx (hok : h.Ok) {i : Nat} {f : SeqFrame} (hf : h.tx[i]? = some f) :
    h.everPushed[i]? = some f ∧ f.seq = i + 1 := by
  have hpushed : h.everPushed[i]? = some f := by
    obtain ⟨hi, -⟩ := List.getElem?_eq_some_iff.mp hf
    unfold everPushed
    cases h.pump with
    | pushed g => exact (List.getElem?_append_left hi).trans hf
    | _ => exact hf
  exact ⟨hpushed, hok.numbered i f hpushed⟩

theorem Ok.lt_next (hok : h.Ok) : h.everPushed.length < h.next := by
  have hcounts := hok.counts
  unfold Counts at hcounts
  unfold everPushed
  cases hpump : h.pump with
  | idle =>
    rw [hpump] at hcounts
    simp only at hcounts ⊢
    omega
  | numbered f =>
    rw [hpump] at hcounts
    simp only at hcounts ⊢
    omega
  | pushed f =>
    rw [hpump] at hcounts
    simp only [List.length_append, List.length_singleton] at hcounts ⊢
    omega

theorem ok_new {boot : Nat} (hboot : boot < 2 ^ 64) : (new boot).Ok where
  boot := hboot
  next := show 1 < 2 ^ 64 by norm_num
  numbered := Broadcast.numbered_nil
  ring := Broadcast.window_nil.symm
  counts := rfl

theorem Ok.number (hok : h.Ok) {name : Text} {body : Nat → Text} (hlt : h.next + 1 < 2 ^ 64)
    (hstep : h.number name body = some h') :
    h'.Ok ∧ h'.boot = h.boot ∧ h'.tx = h.tx ∧ h'.everPushed = h.everPushed := by
  have hcounts := hok.counts
  unfold EventHub.number at hstep
  unfold Counts at hcounts
  cases hpump : h.pump with
  | idle =>
    rw [hpump] at hstep hcounts
    obtain rfl := Option.some.inj hstep
    have hpushed : h.everPushed = h.tx := by rw [everPushed, hpump]
    have hmod : (h.next + 1) % 2 ^ 64 = h.next + 1 := Nat.mod_eq_of_lt hlt
    refine ⟨⟨hok.boot, ?_, hpushed ▸ hok.numbered, hpushed ▸ hok.ring, hcounts, ?_⟩, rfl, rfl,
      hpushed.symm⟩
    · exact Nat.mod_lt _ (Nat.two_pow_pos 64)
    · exact hmod.trans (congrArg (· + 1) hcounts)
  | _ =>
    rw [hpump] at hstep
    cases hstep

theorem Ok.push (hok : h.Ok) (hstep : h.push = some h') :
    h'.Ok ∧ h'.boot = h.boot ∧ h'.tx = h.tx ∧ ∃ f, h'.everPushed = h.everPushed ++ [f] := by
  have hcounts := hok.counts
  unfold EventHub.push at hstep
  unfold Counts at hcounts
  cases hpump : h.pump with
  | numbered f =>
    rw [hpump] at hstep hcounts
    obtain rfl := Option.some.inj hstep
    have hpushed : h.everPushed = h.tx := by rw [everPushed, hpump]
    have hnumbered := hok.numbered
    have hring := hok.ring
    rw [hpushed] at hnumbered hring
    refine ⟨⟨hok.boot, hok.next, hnumbered.concat hcounts.1, ?_, hcounts.2⟩, rfl, rfl, f,
      by rw [hpushed, everPushed]⟩
    show Broadcast.push ringSize h.ring f = window ringSize (h.tx ++ [f])
    rw [hring, Broadcast.push_window (by decide)]
  | _ =>
    rw [hpump] at hstep
    cases hstep

theorem Ok.broadcast (hok : h.Ok) (hstep : h.broadcast = some h') :
    h'.Ok ∧ h'.boot = h.boot ∧ h'.everPushed = h.everPushed ∧ ∃ f, h'.tx = h.tx ++ [f] := by
  have hcounts := hok.counts
  unfold EventHub.broadcast at hstep
  unfold Counts at hcounts
  cases hpump : h.pump with
  | pushed f =>
    rw [hpump] at hstep hcounts
    obtain rfl := Option.some.inj hstep
    have hpushed : h.everPushed = h.tx ++ [f] := by rw [everPushed, hpump]
    refine ⟨⟨hok.boot, hok.next, hpushed ▸ hok.numbered, hpushed ▸ hok.ring, ?_⟩, rfl,
      hpushed.symm, f, rfl⟩
    show h.next = (h.tx ++ [f]).length + 1
    rw [List.length_append, List.length_singleton]
    exact hcounts
  | _ =>
    rw [hpump] at hstep
    cases hstep

/-! ### Replay -/

/-- **What a client is told** that goes on after the frame `n`. -/
theorem Ok.replay_eq (hok : h.Ok) {highest n : Nat} (hn : n ≤ highest)
    (hpos : 0 < h.everPushed.length) :
    replay h.boot highest h.ring (some ⟨h.boot, n⟩) =
      if n < h.everPushed.length - ringSize then .reset
      else if h.everPushed.length ≤ n then .live
      else .frames (h.everPushed.drop n) := by
  obtain ⟨oldest, holdest⟩ : ∃ f, h.ring.head? = some f := by
    cases hring : h.ring with
    | nil =>
      have hlength := Broadcast.length_window (n := ringSize) (l := h.everPushed)
      rw [← hok.ring, hring, List.length_nil] at hlength
      have : 0 < ringSize := by decide
      omega
    | cons f fs => exact ⟨f, rfl⟩
  have hseq : oldest.seq = h.everPushed.length - ringSize + 1 :=
    hok.numbered.head (hok.ring ▸ holdest)
  simp only [replay, ne_eq, not_true_eq_false, if_false, if_neg (Nat.not_lt.mpr hn), holdest, hseq,
    Nat.add_lt_add_iff_right]
  split_ifs with hgone hnone hlast hlast
  · rfl
  · rfl
  · rw [hok.ring, hok.numbered.filter_window (by omega), List.drop_eq_nil_iff] at hnone
    omega
  · rw [hok.ring, hok.numbered.filter_window (by omega), List.drop_eq_nil_iff] at hnone
    omega
  · rw [hok.ring, hok.numbered.filter_window (by omega)]

end EventHub

end Nzbd.Api
