import Nzbd.Yenc.Decoder

/-!
# The end of an article

Two byte automata look for the line that holds a single dot.  The scanner
`TerminatorScanner` knows nothing but lines and is the reference: it decides
where a multiline block ends.  The decoder of `Nzbd.Yenc.Decoder` finds the same
place while it decodes.

`Sim` relates the states the two are in after the same bytes, `Sim.step` carries
it over one byte, and `decoder_at_terminator` says what the decoder does on the
line where the scanner stops: it finishes or fails there, unless an escape has
been left open at the end of the last data line.  The escape is not closed by
the line break, takes the dot for its own, and the decoder runs on.
-/

namespace Nzbd.Nntp

open List ByteMachine Utf8 Nzbd.Yenc

structure TerminatorScanner where
  atLineStart : Bool
  dot : Dot

namespace TerminatorScanner

def new : TerminatorScanner where
  atLineStart := true
  dot := .none

/-- One turn of the loop in `feed`. -/
def scanByte (t : TerminatorScanner) (b : UInt8) : Step TerminatorScanner Empty :=
  match t.dot with
  | .seen =>
    if b = cr then .more { t with dot := .seenCr }
    else if b = lf then .done { t with dot := .none }
    else .more ⟨b = lf, .none⟩
  | .seenCr =>
    if b = lf then .done { t with dot := .none }
    else .more ⟨false, .none⟩
  | .none =>
    if t.atLineStart ∧ b = period then .more ⟨false, .seen⟩
    else .more { t with atLineStart := b = lf }

/-- How many bytes were taken, whether the terminator is among them, and the
scanner afterwards. -/
def feed (t : TerminatorScanner) (buf : List UInt8) : Nat × Bool × TerminatorScanner :=
  let r := ByteMachine.feed scanByte t buf
  (r.1, !r.2.isMore, r.2.state)

/-- Where the scanner ends a stream: behind the terminator, or not at all. -/
def endOf (s : List UInt8) : Option Nat :=
  match new.feed s with
  | (n, true, _) => some n
  | (_, false, _) => none

/-! ### Where it stops -/

/-- The two spellings of the terminator line. -/
def Terminator (l : List UInt8) : Prop := l = [period, lf] ∨ l = [period, cr, lf]

theorem Terminator.line {term : List UInt8} (h : Terminator term) :
    ∃ l, term = l ++ [lf] ∧ lf ∉ l ∧ l.length ≤ maxLine ∧ chomp l = [period] := by
  rcases h with rfl | rfl
  · exact ⟨[period], rfl, by decide, by decide, rfl⟩
  · exact ⟨[period, cr], rfl, by decide, by decide, rfl⟩

/-- The scanner has read `s`, found no terminator and is at the start of a
line. -/
def LineStart (s : List UInt8) : Prop :=
  ByteMachine.feed scanByte new s = (s.length, .more new)

variable {t : TerminatorScanner}

theorem dot_of_feed_more {as : List UInt8} {n : Nat}
    (h : ByteMachine.feed scanByte new as = (n, .more t)) :
    (t.dot = .seen → ∃ init, as = init ++ [period] ∧ LineStart init) ∧
      (t.dot = .seenCr → ∃ init, as = init ++ [period, cr] ∧ LineStart init) := by
  induction as using reverseRecOn generalizing n t with
  | nil =>
    simp only [feed_nil, Prod.mk.injEq, Step.more.injEq] at h
    rw [← h.2]
    exact ⟨fun h => (nomatch h), fun h => (nomatch h)⟩
  | append_singleton as b ih =>
    obtain ⟨u, hu, hb⟩ := feed_concat_more h
    have hu' := ih hu
    obtain ⟨l, d⟩ := u
    cases d with
    | none =>
      simp only [scanByte] at hb
      split_ifs at hb with hdot
      · cases hb
        refine ⟨fun _ => ⟨as, by rw [hdot.2], ?_⟩, fun h => (nomatch h)⟩
        rw [LineStart, hu, hdot.1]
        rfl
      · cases hb
        exact ⟨fun h => (nomatch h), fun h => (nomatch h)⟩
    | seen =>
      simp only [scanByte] at hb
      split_ifs at hb with hcr
      · cases hb
        obtain ⟨init, rfl, hi⟩ := hu'.1 rfl
        exact ⟨fun h => (nomatch h), fun _ => ⟨init, by simp [hcr], hi⟩⟩
      · cases hb
        exact ⟨fun h => (nomatch h), fun h => (nomatch h)⟩
    | seenCr =>
      simp only [scanByte] at hb
      split_ifs at hb
      cases hb
      exact ⟨fun h => (nomatch h), fun h => (nomatch h)⟩

variable {s : List UInt8}

theorem endOf_eq_some {n : Nat} (h : endOf s = some n) :
    ∃ t, ByteMachine.feed scanByte new s = (n, .done t) := by
  unfold endOf feed at h
  rcases hf : ByteMachine.feed scanByte new s with ⟨m, r⟩
  rw [hf] at h
  cases r with
  | more t => simp [Step.isMore] at h
  | done t => simp [Step.isMore] at h; exact ⟨t, by rw [h]⟩
  | fail e t => exact e.elim

theorem endOf_of_done {n : Nat}
    (h : ByteMachine.feed scanByte new s = (n, .done t)) : endOf s = some n := by
  simp [endOf, feed, h, Step.isMore]

/-- **The scanner stops behind a terminator line**, and was at the start of a
line in front of it. -/
theorem endOf_split {n : Nat} (h : endOf s = some n) :
    ∃ body term rest, s = body ++ term ++ rest ∧ n = (body ++ term).length ∧ Terminator term ∧
      LineStart body := by
  obtain ⟨t, ht⟩ := endOf_eq_some h
  obtain ⟨init, b, rest, u, rfl, rfl, hu, hb⟩ := feed_stopped_last ht rfl
  have hdot := dot_of_feed_more hu
  obtain ⟨l, d⟩ := u
  cases d with
  | none => simp only [scanByte] at hb; split_ifs at hb
  | seen =>
    simp only [scanByte] at hb
    split_ifs at hb with _ hlf
    obtain ⟨body, rfl, hbody⟩ := hdot.1 rfl
    exact ⟨body, [period, lf], rest, by simp [hlf], by simp, .inl rfl, hbody⟩
  | seenCr =>
    simp only [scanByte] at hb
    split_ifs at hb with hlf
    obtain ⟨body, rfl, hbody⟩ := hdot.2 rfl
    exact ⟨body, [period, cr, lf], rest, by simp [hlf], by simp, .inr rfl, hbody⟩

theorem feed_terminator {term : List UInt8} (h : Terminator term) (rest : List UInt8) :
    ∃ t, ByteMachine.feed scanByte new (term ++ rest) = (term.length, .done t) := by
  rcases h with rfl | rfl
  · exact ⟨⟨false, .none⟩, rfl⟩
  · exact ⟨⟨false, .none⟩, rfl⟩

theorem endOf_append {body term : List UInt8} (hbody : LineStart body) (hterm : Terminator term)
    (rest : List UInt8) :
    endOf (body ++ term ++ rest) = some (body ++ term).length := by
  obtain ⟨t, ht⟩ := feed_terminator hterm rest
  refine endOf_of_done (t := t) ?_
  rw [append_assoc, feed_append_of_more hbody, ht, length_append]

/-- Where the scanner stands inside a line it has read `l` of. -/
def inLine (l : List UInt8) : TerminatorScanner :=
  if l = [] then new
  else if l = [period] then ⟨false, .seen⟩
  else if l = [period, cr] then ⟨false, .seenCr⟩
  else ⟨false, .none⟩

variable {b : UInt8}

theorem scanByte_inLine (hb : b ≠ lf) (l : List UInt8) :
    scanByte (inLine l) b = .more (inLine (l ++ [b])) := by
  rcases l with _ | ⟨x, _ | ⟨y, _ | ⟨z, l⟩⟩⟩
  · by_cases hp : b = period
    · subst hp; rfl
    · simp [inLine, new, scanByte, hp, hb]
  · by_cases hx : x = period
    · subst hx
      by_cases hc : b = cr
      · subst hc; rfl
      · simp [inLine, scanByte, hc, hb]
    · simp [inLine, scanByte, hx, hb]
  · by_cases hxy : x = period ∧ y = cr
    · obtain ⟨rfl, rfl⟩ := hxy
      simp [inLine, scanByte, hb]
    · simp [inLine, scanByte, hxy, hb]
  · simp [inLine, scanByte, hb]

theorem scanByte_inLine_lf (l : List UInt8) :
    scanByte (inLine l) lf =
      if chomp l = [period] then .done ⟨false, .none⟩ else .more new := by
  have hp : ¬ (lf = period) := by decide
  have hc : ¬ (lf = cr) := by decide
  rcases l with _ | ⟨x, _ | ⟨y, _ | ⟨z, l⟩⟩⟩
  · rfl
  · by_cases hx : x = period
    · subst hx; rfl
    · have : chomp [x] ≠ [period] := by
        unfold chomp
        split_ifs <;> simp [hx]
      simp [inLine, scanByte, hx, this, new]
  · by_cases hxy : x = period ∧ y = cr
    · obtain ⟨rfl, rfl⟩ := hxy; rfl
    · have : chomp [x, y] ≠ [period] := by
        unfold chomp
        split_ifs with h
        · simp at h ⊢; exact fun hx => hxy ⟨hx, h⟩
        · simp
      simp [inLine, scanByte, hxy, this, new]
  · have : chomp (x :: y :: z :: l) ≠ [period] := by
      unfold chomp
      split_ifs <;> simp
    simp [inLine, scanByte, this, new]

end TerminatorScanner

/-! ### The two automata side by side -/

open TerminatorScanner

/-- At most one of the three things a body byte can wait for is pending. -/
structure Flags (d : ByteState) : Prop where
  esc : d.esc = true → d.dot = .none ∧ d.pendingEq = false
  pendingEq : d.pendingEq = true → d.dot = .none

/-- The decoder and the scanner after the same bytes.  Outside the body the
buffered line says where the scanner is.  Inside the body only line starts are
tied together: a carriage return does not end a line start for the decoder, so
it may see a dot where the scanner sees none. -/
structure Sim (d : ByteState) (t : TerminatorScanner) : Prop where
  flags : Flags d
  line : d.state ≠ .body → t = inLine d.lineBuf
  control : d.state = .control → ascii "=y" <+: d.lineBuf
  body : d.state = .body → t = new →
    d.atLineStart = true ∧ d.dot = .none ∧ d.pendingEq = false

theorem Sim.init : Sim .new .new where
  flags := ⟨fun h => (nomatch h), fun h => (nomatch h)⟩
  line _ := rfl
  control h := nomatch h
  body h := nomatch h

theorem Sim.enterBody (d : ByteState) : Sim d.enterBody .new where
  flags := ⟨fun h => (nomatch h), fun h => (nomatch h)⟩
  line h := absurd rfl h
  control h := nomatch h
  body _ _ := ⟨rfl, rfl, rfl⟩

theorem Sim.of_flags {d e : ByteState} (hf : Flags d) (hesc : e.esc = d.esc)
    (heq : e.pendingEq = d.pendingEq) (hdot : e.dot = d.dot) (hs : e.state ≠ .body)
    (hc : e.state = .control → ascii "=y" <+: e.lineBuf) : Sim e (inLine e.lineBuf) where
  flags := ⟨by rw [hesc, heq, hdot]; exact hf.esc, by rw [heq, hdot]; exact hf.pendingEq⟩
  line _ := rfl
  control := hc
  body h := absurd h hs

theorem chomp_eq_period {l : List UInt8} (h : chomp l = [period]) :
    l = [period] ∨ l = [period, cr] := by
  unfold chomp at h
  split_ifs at h with hl
  · right
    obtain ⟨hne, hlast⟩ := getLast?_eq_some_iff.mp hl
    rw [hlast] at h ⊢
    rw [dropLast_concat] at h
    rw [h]
    rfl
  · exact .inl h

theorem Sim.nextLine {d d' : ByteState} (h : Sim d t)
    (hs : d.state ≠ .body) (ht : takeLine d = .more d') : Sim d' new := by
  have hline : ∀ e : ByteState, e.esc = d.esc → e.pendingEq = d.pendingEq → e.dot = d.dot →
      e.state ≠ .body → e.state ≠ .control → e.lineBuf = [] → Sim e new := by
    intro e h1 h2 h3 h4 h5 h6
    have := Sim.of_flags h.flags h1 h2 h3 h4 (fun hc => absurd hc h5)
    rwa [h6] at this
  unfold takeLine at ht
  cases hst : d.state <;> rw [hst] at ht <;> dsimp only at ht
  case body => exact absurd hst hs
  all_goals
    repeat' split at ht
  all_goals
    cases ht <;>
    first
    | exact Sim.enterBody _
    | exact hline _ rfl rfl rfl (by simp) (by simp) rfl

variable {d : ByteState}

theorem Sim.takeLine_period (h : Sim d t)
    (hs : d.state ≠ .body) (hl : chomp d.lineBuf = [period]) :
    (d.state = .drain ∧ ∃ d', takeLine d = .done d') ∨
      (d.state ≠ .drain ∧ ∃ e d', takeLine d = .fail e d') := by
  have hcontrol : d.state ≠ .control := by
    intro hst
    have hp := h.control hst
    rcases chomp_eq_period hl with hb | hb <;> rw [hb] at hp <;> exact absurd hp (by decide)
  cases hst : d.state with
  | pre =>
    refine .inr ⟨by simp, .notYenc "article ended before =ybegin", { d with lineBuf := [] }, ?_⟩
    unfold takeLine
    rw [hst, hl]
    rfl
  | expectPart =>
    refine .inr ⟨by simp, .malformed "expected =ypart after =ybegin part=…",
      { d with lineBuf := [] }, ?_⟩
    unfold takeLine
    rw [hst, hl]
    rfl
  | body => exact absurd hst hs
  | control => exact absurd hst hcontrol
  | drain =>
    refine .inl ⟨rfl, { d with lineBuf := [], finished := true }, ?_⟩
    unfold takeLine
    rw [hst, hl]
    rfl

theorem takeLine_done {d d' : ByteState} (ht : takeLine d = .done d') :
    chomp d.lineBuf = [period] := by
  unfold takeLine at ht
  cases hst : d.state <;> rw [hst] at ht <;> dsimp only at ht
  case drain =>
    split_ifs at ht with hl
    exact hl
  all_goals
    repeat' split at ht
  all_goals cases ht

/-! ### A byte of the body -/

theorem Flags.of_escByte (h : Flags d) (he : d.esc = true) (b : UInt8)
    (o : List UInt8) : Flags (escByte d b o).1 := by
  obtain ⟨hdot, hpe⟩ := h.esc he
  unfold escByte
  split_ifs
  · exact h
  · exact ⟨h.esc, h.pendingEq⟩
  · exact ⟨fun h => (nomatch h), h.pendingEq⟩

theorem Flags.of_pendingEqByte (h : Flags d) (he : d.pendingEq = true) (b : UInt8)
    (o : List UInt8) : Flags (pendingEqByte d b o).1 := by
  have hdot := h.pendingEq he
  unfold pendingEqByte
  split_ifs <;> exact ⟨fun _ => ⟨hdot, rfl⟩, fun h => (nomatch h)⟩

theorem Flags.of_plainByte (he : d.esc = false) (hp : d.pendingEq = false)
    (hdot : d.dot = .none) (b : UInt8) (o : List UInt8) : Flags (plainByte d b o).1 := by
  unfold plainByte
  split_ifs <;> exact ⟨by simp [he, hp, hdot], by simp [hp, hdot]⟩

theorem Flags.of_dotByte (he : d.esc = false) (hp : d.pendingEq = false) (b : UInt8)
    (o : List UInt8) {s : Scan} (hs : dotByte d b o = .more s) : Flags s.1 := by
  unfold dotByte loneDot at hs
  cases hdot : d.dot <;> rw [hdot] at hs <;> dsimp only at hs
  case none => cases hs; exact Flags.of_plainByte he hp hdot b o
  case seen =>
    split_ifs at hs
    · cases hs; exact ⟨by simp [he], by simp [hp]⟩
    · cases hs; exact ⟨by simp [he], by simp [hp]⟩
    · cases hs; exact Flags.of_plainByte (d := { d with dot := .none, atLineStart := false }) he hp rfl b _
  case seenCr =>
    split_ifs at hs
    cases hs
    exact Flags.of_plainByte (d := { d with dot := .none, atLineStart := false }) he hp rfl b _

theorem Flags.of_bodyByte (h : Flags d) (b : UInt8) (o : List UInt8) {s : Scan}
    (hs : bodyByte d b o = .more s) : Flags s.1 := by
  unfold bodyByte at hs
  split_ifs at hs with he hp
  · cases hs; exact h.of_escByte he b o
  · cases hs; exact h.of_pendingEqByte hp b o
  · exact Flags.of_dotByte (by simpa using he) (by simpa using hp) b o hs

theorem bodyByte_lf (h : Flags d) (o : List UInt8) {s : Scan}
    (hs : bodyByte d lf o = .more s) :
    s.1.atLineStart = true ∧ s.1.dot = .none ∧ s.1.pendingEq = false := by
  unfold bodyByte at hs
  split_ifs at hs with he hp
  · cases hs
    exact ⟨rfl, (h.esc he).1, (h.esc he).2⟩
  · cases hs
    exact ⟨rfl, h.pendingEq hp, rfl⟩
  · have hpe : d.pendingEq = false := by simpa using hp
    unfold dotByte at hs
    cases hdot : d.dot <;> rw [hdot] at hs
    case none =>
      have hl : plainByte d lf o = ({ d with atLineStart := true }, o) := by
        unfold plainByte
        rw [if_neg (fun h => absurd h.2 (by decide)), if_neg (fun h => absurd h.2 (by decide)),
          if_neg (by decide), if_neg (by decide), if_pos rfl]
      dsimp only at hs
      rw [hl] at hs
      cases hs
      exact ⟨rfl, hdot, hpe⟩
    case seen => nomatch hs
    case seenCr => nomatch hs

theorem bodyByte_state (hd : d.state = .body) (b : UInt8) (o : List UInt8)
    {s : Scan} (hs : bodyByte d b o = .more s) :
    s.1.state = .body ∨ (s.1.state = .control ∧ s.1.lineBuf = ascii "=y" ∧ b = 0x79) := by
  have hplain : ∀ (e : ByteState) (q : List UInt8), e.state = .body →
      (plainByte e b q).1.state = .body := by
    intro e q he
    unfold plainByte
    split_ifs <;> exact he
  unfold bodyByte at hs
  split_ifs at hs with he hp
  · cases hs
    left
    unfold escByte
    split_ifs <;> exact hd
  · cases hs
    unfold pendingEqByte
    split_ifs with hy
    · exact .inr ⟨rfl, rfl, hy⟩
    all_goals exact .inl hd
  · left
    unfold dotByte loneDot at hs
    cases hdot : d.dot <;> rw [hdot] at hs <;> dsimp only at hs
    case none => cases hs; exact hplain d o hd
    case seen =>
      split_ifs at hs
      · cases hs; exact hd
      · cases hs; exact hd
      · cases hs; exact hplain _ _ hd
    case seenCr =>
      split_ifs at hs
      cases hs
      exact hplain _ _ hd

/-! ### One byte of both -/

theorem scanByte_more_new (h : scanByte t b = .more new) :
    b = lf := by
  unfold scanByte at h
  cases hdot : t.dot <;> rw [hdot] at h <;> dsimp only at h <;> split_ifs at h <;>
    simp_all [new]

theorem scanByte_plain (hl : b ≠ lf) (hp : b ≠ period) (hc : b ≠ cr)
    (t : TerminatorScanner) : scanByte t b = .more ⟨false, .none⟩ := by
  unfold scanByte
  cases t.dot <;> simp [hl, hp, hc]

/-- **One byte keeps the two automata together** while both want more. -/
theorem Sim.step {t t' : TerminatorScanner} {o : List UInt8}
    {s : Scan} (h : Sim d t) (hd : byteStep (d, o) b = .more s) (ht : scanByte t b = .more t') :
    Sim s.1 t' := by
  by_cases hs : d.state = .body
  · rw [byteStep_body hs] at hd
    refine ⟨h.flags.of_bodyByte b o hd, fun hn => ?_, fun hc => ?_, fun _ hnew => ?_⟩
    · rcases bodyByte_state hs b o hd with hb | ⟨-, hl, rfl⟩
      · exact absurd hb hn
      · rw [scanByte_plain (by decide) (by decide) (by decide)] at ht
        cases ht
        rw [hl]
        rfl
    · rcases bodyByte_state hs b o hd with hb | ⟨-, hl, -⟩
      · rw [hb] at hc; nomatch hc
      · rw [hl]
    · rw [hnew] at ht
      obtain rfl := scanByte_more_new ht
      exact bodyByte_lf h.flags o hd
  · rw [byteStep_line hs] at hd
    rw [h.line hs] at ht
    split_ifs at hd with hlf hmax
    · cases htl : takeLine d with
      | more d' =>
        rw [htl] at hd
        cases hd
        rw [hlf, scanByte_inLine_lf] at ht
        split_ifs at ht
        cases ht
        exact h.nextLine hs htl
      | done d' => rw [htl] at hd; nomatch hd
      | fail e d' => rw [htl] at hd; nomatch hd
    · cases hd
      rw [scanByte_inLine hlf] at ht
      cases ht
      refine Sim.of_flags h.flags rfl rfl rfl hs (fun hc => ?_)
      exact (h.control hc).trans (prefix_append _ _)

theorem Sim.done {o : List UInt8} {s : Scan}
    (h : Sim d t) (hd : byteStep (d, o) b = .done s) : ∃ t', scanByte t b = .done t' := by
  by_cases hs : d.state = .body
  · rw [byteStep_body hs] at hd
    exact absurd hd ((bodyByte_finished d b o).1 s)
  · rw [byteStep_line hs] at hd
    rw [h.line hs]
    split_ifs at hd with hlf
    cases htl : takeLine d with
    | more d' => rw [htl] at hd; nomatch hd
    | done d' =>
      exact ⟨_, by rw [hlf, scanByte_inLine_lf, if_pos (takeLine_done htl)]⟩
    | fail e d' => rw [htl] at hd; nomatch hd

/-! ### Whole runs -/

/-- The byte state of a fresh decoder that has read `s` and wants more. -/
def Reads (s : List UInt8) (d : ByteState) : Prop :=
  ∃ o, ByteMachine.feed byteStep (.new, []) s = (s.length, .more (d, o))

/-- **After the same bytes the two automata are together.** -/
theorem Sim.run (hd : Reads s d)
    (ht : ByteMachine.feed scanByte new s = (s.length, .more t)) : Sim d t := by
  obtain ⟨o, hd⟩ := hd
  induction s using reverseRecOn generalizing d t o with
  | nil =>
    simp only [feed_nil, Prod.mk.injEq, Step.more.injEq, length_nil, true_and] at hd ht
    rw [← hd.1, ← ht]
    exact Sim.init
  | append_singleton s b ih =>
    obtain ⟨⟨d₁, o₁⟩, hd₁, hdb⟩ := feed_concat_more hd
    obtain ⟨t₁, ht₁, htb⟩ := feed_concat_more ht
    exact (ih ht₁ o₁ hd₁).step hdb htb

def EscapeOpen (d : ByteState) : Prop := d.state = .body ∧ d.esc = true

instance (d : ByteState) : Decidable (EscapeOpen d) := inferInstanceAs (Decidable (_ ∧ _))

theorem feed_terminator_open (hf : Flags d) (h : EscapeOpen d) (o : List UInt8)
    {term : List UInt8} (hterm : Terminator term) :
    ByteMachine.feed byteStep (d, o) term =
      (term.length, .more ({ d with esc := false, atLineStart := true }, o ++ [period - 106])) := by
  obtain ⟨hs, he⟩ := h
  obtain ⟨hdot, hpe⟩ := hf.esc he
  obtain ⟨st, buf, hdr, trl, esc, als, pe, dot, fin⟩ := d
  dsimp only at hs he hdot hpe
  subst hs he hdot hpe
  rcases hterm with rfl | rfl <;> rfl

theorem inLine_eq_new {l : List UInt8} (h : inLine l = new) : l = [] := by
  unfold inLine new at h
  split_ifs at h with h1 h2 h3
  · exact h1
  all_goals simp at h

/-- At the start of a line and with no escape open, the decoder stops on the
terminator: it finishes behind the trailer, and fails anywhere else. -/
theorem feed_terminator_closed (hsim : Sim d new) (h : ¬ EscapeOpen d)
    (o : List UInt8) {term : List UInt8} (hterm : Terminator term) :
    (∃ s, ByteMachine.feed byteStep (d, o) term = (term.length, .done s)) ∨
      ∃ e s, ByteMachine.feed byteStep (d, o) term = (term.length, .fail e s) := by
  by_cases hs : d.state = .body
  · right
    have he : d.esc = false := by
      cases he : d.esc with
      | false => rfl
      | true => exact absurd ⟨hs, he⟩ h
    obtain ⟨hals, hdot, hpe⟩ := hsim.body hs rfl
    obtain ⟨st, buf, hdr, trl, esc, als, pe, dot, fin⟩ := d
    dsimp only at hs he hals hdot hpe
    subst hs he hals hdot hpe
    rcases hterm with rfl | rfl <;> exact ⟨_, _, rfl⟩
  · have hb := inLine_eq_new (hsim.line hs).symm
    obtain ⟨l, rfl, hlf, hlen, hl⟩ := hterm.line
    rw [feed_line hs o hlf (by rw [hb]; simpa using hlen), hb, nil_append]
    have hsim' : Sim { d with lineBuf := l } (inLine l) := by
      refine Sim.of_flags hsim.flags rfl rfl rfl hs (fun hc => ?_)
      -- a control line is never empty, so none is being collected here
      have := hsim.control hc
      rw [hb] at this
      exact absurd this (by decide)
    rcases hsim'.takeLine_period hs hl with ⟨-, d', ht⟩ | ⟨-, e, d', ht⟩
    · exact .inl ⟨(d', o), by rw [ht, length_append]; rfl⟩
    · exact .inr ⟨e, (d', o), by rw [ht, length_append]; rfl⟩

/-! ### Open escapes, read off the bytes -/

/-- Whether an escape is open behind a byte.  A line break neither opens nor
closes one, and an escaped `=` does not open the next. -/
def escapeStep (pending : Bool) (b : UInt8) : Bool :=
  if b = equals then !pending
  else if b = cr ∨ b = lf then pending
  else false

/-- Line breaks aside, the bytes end in an odd number of `=`. -/
def openEscape (w : List UInt8) : Bool := w.foldl escapeStep false

@[simp] theorem escapeStep_cr (p : Bool) : escapeStep p cr = p := rfl

@[simp] theorem escapeStep_lf (p : Bool) : escapeStep p lf = p := rfl

theorem escapeStep_true (hc : b ≠ cr) (hl : b ≠ lf) : escapeStep true b = false := by
  simp [escapeStep, hc, hl]

theorem escapeStep_false (he : b ≠ equals) : escapeStep false b = false := by
  simp [escapeStep, he]

theorem plainByte_pending (he : d.esc = false) (hp : d.pendingEq = false)
    (b : UInt8) (o : List UInt8) :
    ((plainByte d b o).1.esc || (plainByte d b o).1.pendingEq) = escapeStep false b := by
  by_cases hb : b = equals
  · subst hb
    unfold plainByte
    rw [if_neg (fun h => absurd h.2 (by decide)), if_pos rfl]
    split_ifs <;> simp [escapeStep]
  · rw [escapeStep_false hb]
    unfold plainByte
    split_ifs <;> simp_all

theorem dotByte_pending (he : d.esc = false) (hp : d.pendingEq = false)
    (b : UInt8) (o : List UInt8) {s : Scan} (hs : dotByte d b o = .more s) :
    (s.1.esc || s.1.pendingEq) = escapeStep false b := by
  have hlone := plainByte_pending (d := { d with dot := .none, atLineStart := false }) he hp b
    (o ++ [period - 42])
  unfold dotByte loneDot at hs
  cases hdot : d.dot <;> rw [hdot] at hs <;> dsimp only at hs
  case none => cases hs; exact plainByte_pending he hp b o
  case seen =>
    split_ifs at hs with hper hcr
    · cases hs; rw [hper, he, hp]; rfl
    · cases hs; rw [hcr, he, hp]; rfl
    · cases hs; exact hlone
  case seenCr =>
    split_ifs at hs
    cases hs
    exact hlone

/-- Inside the body the decoder has an escape open exactly when the bytes say
so. -/
theorem bodyByte_pending (hf : Flags d) (b : UInt8) (o : List UInt8) {s : Scan}
    (hs : bodyByte d b o = .more s) (hbody : s.1.state = .body) :
    (s.1.esc || s.1.pendingEq) = escapeStep (d.esc || d.pendingEq) b := by
  unfold bodyByte at hs
  split_ifs at hs with he hp
  · cases hs
    obtain ⟨-, hpe⟩ := hf.esc he
    unfold escByte
    split_ifs with hcr hlf
    · simp [he, hcr]
    · simp [he, hlf]
    · simp [he, hpe, escapeStep_true hcr hlf]
  · cases hs
    have he' : d.esc = false := by simpa using he
    revert hbody
    unfold pendingEqByte
    split_ifs with hy hcr hlf
    · intro h; nomatch h
    · simp [hp, hcr]
    · simp [hp, hlf]
    · simp [he', hp, escapeStep_true hcr hlf]
  · have he' : d.esc = false := by simpa using he
    have hp' : d.pendingEq = false := by simpa using hp
    rw [he', hp']
    exact dotByte_pending he' hp' b o hs

/-- The decoder has read `s`, is inside the body, and `w` is the end of `s` from
a line start of the body on at which nothing was pending. -/
def BodyReads (s w : List UInt8) (d : ByteState) : Prop :=
  ∃ hdr d₀ o₀ o, s = hdr ++ w ∧ d₀.enterBody = d₀ ∧ d.state = .body ∧
    ByteMachine.feed byteStep (.new, []) hdr = (hdr.length, .more (d₀, o₀)) ∧
    ByteMachine.feed byteStep (d₀, o₀) w = (w.length, .more (d, o))

theorem BodyReads.reads {s w : List UInt8} (h : BodyReads s w d) : Reads s d := by
  obtain ⟨hdr, d₀, o₀, o, rfl, -, -, hh, hw⟩ := h
  exact ⟨o, by rw [feed_append_of_more hh, hw, length_append]⟩

/-- The body is entered from a header line, with nothing pending, and never
again once it was left. -/
theorem byteStep_state (b : UInt8) (o : List UInt8) {s : Scan}
    (hs : byteStep (d, o) b = .more s) :
    (s.1.state = .body → d.state = .body ∨ s.1.enterBody = s.1) ∧
      (d.state ∉ [State.pre, .expectPart] → s.1.state ∉ [State.pre, .expectPart]) ∧
      (d.state ∉ [State.pre, .expectPart] → s.1.state = .body → d.state = .body) := by
  by_cases hd : d.state = .body
  · rw [byteStep_body hd] at hs
    refine ⟨fun _ => .inl hd, fun _ => ?_, fun _ _ => hd⟩
    rcases bodyByte_state hd b o hs with h | ⟨h, -⟩ <;> simp [h]
  · rw [byteStep_line hd] at hs
    split_ifs at hs with hlf
    · cases ht : takeLine d with
      | more e =>
        rw [ht] at hs
        cases hs
        unfold takeLine at ht
        cases hst : d.state <;> rw [hst] at ht <;> dsimp only at ht
        case body => exact absurd hst hd
        all_goals
          repeat' split at ht
        all_goals
          cases ht <;> simp [ByteState.enterBody]
      | done e => rw [ht] at hs; nomatch hs
      | fail x e => rw [ht] at hs; nomatch hs
    · cases hs
      exact ⟨fun h => absurd h hd, fun h => h, fun _ h => absurd h hd⟩

theorem flags_of_enterBody (h : d.enterBody = d) : Flags d := by
  rw [← h]
  exact (Sim.enterBody d).flags

/-- From a clean line start of the body on, the decoder has an escape open
exactly when the bytes say so. -/
theorem feed_body_pending {d₀ d : ByteState} (h₀ : d₀.enterBody = d₀) {o₀ o w : List UInt8}
    {n : Nat} (hw : ByteMachine.feed byteStep (d₀, o₀) w = (n, .more (d, o))) :
    d.state ∉ [State.pre, .expectPart] ∧
      (d.state = .body → Flags d ∧ (d.esc || d.pendingEq) = openEscape w) := by
  induction w using reverseRecOn generalizing d o n with
  | nil =>
    simp only [feed_nil, Prod.mk.injEq, Step.more.injEq] at hw
    rw [← hw.2.1]
    refine ⟨by rw [← h₀]; simp [ByteState.enterBody], fun _ => ⟨flags_of_enterBody h₀, ?_⟩⟩
    rw [← h₀]
    rfl
  | append_singleton w b ih =>
    obtain ⟨⟨e, q⟩, he, hb⟩ := feed_concat_more hw
    obtain ⟨hpre, hpend⟩ := ih he
    obtain ⟨-, hkeep, hback⟩ := byteStep_state b q hb
    refine ⟨hkeep hpre, fun hd => ?_⟩
    have hebody := hback hpre hd
    obtain ⟨hf, hp⟩ := hpend hebody
    rw [byteStep_body hebody] at hb
    refine ⟨hf.of_bodyByte b q hb, ?_⟩
    rw [bodyByte_pending hf b q hb hd, hp, openEscape, openEscape, foldl_append]
    rfl

theorem Reads.body (h : Reads s d) (hd : d.state = .body) :
    ∃ w, BodyReads s w d := by
  obtain ⟨o, h⟩ := h
  induction s using reverseRecOn generalizing d o with
  | nil =>
    simp only [feed_nil, Prod.mk.injEq, Step.more.injEq] at h
    rw [← h.2.1] at hd
    nomatch hd
  | append_singleton s b ih =>
    obtain ⟨⟨e, q⟩, he, hb⟩ := feed_concat_more h
    rcases (byteStep_state b q hb).1 hd with hbody | hnew
    · obtain ⟨w, hdr, d₀, o₀, o', rfl, h₀, -, hh, hw⟩ := ih hbody q he
      rw [feed_append_of_more hh, hw] at he
      simp only [Prod.mk.injEq, Step.more.injEq] at he
      obtain ⟨-, -, rfl⟩ := he
      refine ⟨w ++ [b], hdr, d₀, o₀, o, by simp, h₀, hd, hh, ?_⟩
      rw [feed_append_of_more hw, feed_cons_more hb]
      simp
    · exact ⟨[], s ++ [b], d, o, o, by simp, hnew, hd, h, rfl⟩

theorem escapeOpen_iff (h : Reads s d) (hsim : Sim d new) :
    EscapeOpen d ↔ ∃ w, BodyReads s w d ∧ openEscape w = true := by
  constructor
  · rintro ⟨hbody, hesc⟩
    obtain ⟨w, hw⟩ := h.body hbody
    refine ⟨w, hw, ?_⟩
    obtain ⟨hdr, d₀, o₀, o, -, h₀, -, -, hf⟩ := hw
    rw [← ((feed_body_pending h₀ hf).2 hbody).2, hesc]
    rfl
  · rintro ⟨w, ⟨hdr, d₀, o₀, o, -, h₀, hbody, -, hf⟩, ho⟩
    refine ⟨hbody, ?_⟩
    have hp := ((feed_body_pending h₀ hf).2 hbody).2
    rwa [(hsim.body hbody rfl).2.2, Bool.or_false, ho] at hp

/-! ### Agreement -/

theorem scan_done_of_done {k : Nat} {x : Scan}
    (hd : ByteMachine.feed byteStep (.new, []) s = (k, .done x)) :
    ∃ n, endOf s = some n ∧ n ≤ k := by
  obtain ⟨init, b, rest, ⟨d, o⟩, rfl, rfl, hi, hb⟩ := feed_stopped_last hd rfl
  rcases hf : feed scanByte new init with ⟨m, r⟩
  have hm : m ≤ init.length := by
    have hle : (feed scanByte new init).1 ≤ init.length := feed_fst_le_length _ _
    rwa [hf] at hle
  cases r with
  | fail e t => exact e.elim
  | done t =>
    refine ⟨m, endOf_of_done (t := t) ?_, by omega⟩
    rw [feed_append_of_stopped (by rw [hf]; rfl), hf]
  | more t =>
    obtain rfl := feed_more_length hf
    obtain ⟨t', ht'⟩ := (Sim.run ⟨o, hi⟩ hf).done hb
    refine ⟨init.length + 1, endOf_of_done (t := t') ?_, le_refl _⟩
    rw [feed_append_of_more hf, feed_cons_done ht']

/-- **What the decoder does on the terminator.**  It has stopped when the
terminator is read, and finished exactly there if at all, unless the terminator
found an escape open. -/
theorem decoder_at_terminator {body term : List UInt8} (hbody : LineStart body)
    (hterm : Terminator term) :
    (∃ d, Reads body d ∧ EscapeOpen d) ∨
      ∃ k r, ByteMachine.feed byteStep (.new, []) (body ++ term) = (k, r) ∧ r.isMore = false ∧
        ∀ x, r = .done x → k = (body ++ term).length := by
  rcases hf : feed byteStep (.new, []) body with ⟨m, r⟩
  cases r with
  | more x =>
    obtain ⟨d, o⟩ := x
    obtain rfl := feed_more_length hf
    by_cases hesc : EscapeOpen d
    · exact .inl ⟨d, ⟨o, hf⟩, hesc⟩
    · right
      rw [feed_append_of_more hf]
      rcases feed_terminator_closed (Sim.run ⟨o, hf⟩ hbody) hesc o hterm with
        ⟨x, hx⟩ | ⟨e, x, hx⟩
      · exact ⟨_, _, by rw [hx], rfl, fun _ _ => by rw [length_append]⟩
      · exact ⟨_, .fail e x, by rw [hx], rfl, fun _ h => (nomatch h)⟩
  | done x =>
    -- the scanner would have stopped inside the body
    obtain ⟨n, hn, -⟩ := scan_done_of_done hf
    obtain ⟨t, ht⟩ := endOf_eq_some hn
    rw [LineStart, ht] at hbody
    nomatch hbody
  | fail e x =>
    right
    rw [feed_append_of_stopped (by rw [hf]; rfl), hf]
    exact ⟨m, _, rfl, rfl, fun _ h => (nomatch h)⟩

/-- The decoder and the scanner agree on the end of the stream `s`: fed any
beginning of it in any chunks, the decoder never reports more bytes than the
scanner takes, and finishes only where the scanner stops. -/
def Agrees (s : List UInt8) : Prop :=
  ∀ cs : List (List UInt8), cs.flatten <+: s → ∀ st k,
    (YencDecoder.new.pushAll [] cs).res = .ok (st, k) →
      (∀ n, endOf s = some n → k ≤ n) ∧ (st = .finished → endOf s = some k)

/-- Wherever the stream goes on behind its terminator, the body in front of the
terminator does not end in an open escape. -/
def EscapesClosed (s : List UInt8) : Prop :=
  ∀ body term b rest, s = body ++ term ++ b :: rest → LineStart body → Terminator term →
    ∀ w d, BodyReads body w d → openEscape w = false

theorem pushAll_res_ok {cs : List (List UInt8)} {st : Status} {k : Nat}
    (h : (YencDecoder.new.pushAll [] cs).res = .ok (st, k)) :
    (st = .needMore ∧ ∃ x, ByteMachine.feed byteStep (.new, []) cs.flatten = (k, .more x)) ∨
      (st = .finished ∧ ∃ x, ByteMachine.feed byteStep (.new, []) cs.flatten = (k, .done x)) := by
  have hobs := congrArg Prod.fst (YencDecoder.pushAll_observe (d := .new) rfl [] cs)
  have hres : (YencDecoder.new.push cs.flatten []).res = .ok (st, k) := hobs.symm.trans h
  rw [YencDecoder.push_eq rfl, show YencDecoder.new.toByteState = ByteState.new from rfl] at hres
  rcases hf : feed byteStep (ByteState.new, []) cs.flatten with ⟨n, r⟩
  rw [hf] at hres
  cases r with
  | more x => cases hres; exact .inl ⟨rfl, x, rfl⟩
  | done x => cases hres; exact .inr ⟨rfl, x, rfl⟩
  | fail e x => nomatch hres

theorem pushAll_res_more {n : Nat} {x : Scan}
    (h : ByteMachine.feed byteStep (.new, []) s = (n, .more x)) :
    (YencDecoder.new.pushAll [] [s]).res = .ok (.needMore, n) := by
  have hobs := congrArg Prod.fst (YencDecoder.pushAll_observe (d := .new) rfl [] [s])
  rw [flatten_singleton] at hobs
  refine hobs.trans ?_
  show (YencDecoder.new.push s []).res = _
  rw [YencDecoder.push_eq rfl, show YencDecoder.new.toByteState = ByteState.new from rfl, h]

/-- With the escapes closed the decoder has stopped at the terminator, unless
nothing follows it. -/
theorem stopped_of_escapesClosed (hs : EscapesClosed s) {n : Nat}
    (hn : endOf s = some n) (hlt : n < s.length) :
    ∃ k r, ByteMachine.feed byteStep (.new, []) (s.take n) = (k, r) ∧ r.isMore = false ∧
      ∀ x, r = .done x → k = n := by
  obtain ⟨body, term, rest, rfl, rfl, hterm, hbody⟩ := endOf_split hn
  cases rest with
  | nil => simp at hlt
  | cons b rest =>
    rw [take_left]
    rcases decoder_at_terminator hbody hterm with ⟨d, hd, hopen⟩ | hstop
    · obtain ⟨w, hw, ho⟩ := (escapeOpen_iff hd (Sim.run hd hbody)).mp hopen
      rw [hs body term b rest rfl hbody hterm w d hw] at ho
      cases ho
    · exact hstop

theorem endOf_append_of_some {u : List UInt8} {n : Nat} (h : endOf u = some n)
    (tail : List UInt8) : endOf (u ++ tail) = some n := by
  obtain ⟨t, ht⟩ := endOf_eq_some h
  refine endOf_of_done (t := t) ?_
  rw [feed_append_of_stopped (by rw [ht]; rfl), ht]

/-- A decoder that is not stopped by the first `n` bytes has no terminator end
there. -/
theorem le_of_escapesClosed {u tail : List UInt8} (hs : EscapesClosed (u ++ tail)) {n k : Nat}
    {r : Step Scan YencError} (hn : endOf (u ++ tail) = some n)
    (hf : ByteMachine.feed byteStep (.new, []) u = (k, r)) : k ≤ n := by
  by_contra hlt
  have hk : k ≤ u.length := by
    have hle : (feed byteStep (.new, []) u).1 ≤ u.length := feed_fst_le_length _ _
    rwa [hf] at hle
  obtain ⟨j, q, hq, hstop, -⟩ := stopped_of_escapesClosed hs hn (by
    rw [length_append]; omega)
  obtain ⟨x, hx⟩ : ∃ x, feed byteStep (.new, []) (u.take n) =
      ((u.take n).length, .more x) := feed_take_more (.inl (by rw [hf]; omega))
  rw [take_append_of_le_length (by omega), hx] at hq
  cases hq
  nomatch hstop

theorem agrees_of_escapesClosed (hs : EscapesClosed s) : Agrees s := by
  intro cs hcs st k hres
  obtain ⟨tail, rfl⟩ := hcs
  rcases pushAll_res_ok hres with ⟨rfl, x, hx⟩ | ⟨rfl, x, hx⟩
  · exact ⟨fun n hn => le_of_escapesClosed hs hn hx, fun h => (nomatch h)⟩
  · refine ⟨fun n hn => le_of_escapesClosed hs hn hx, fun _ => ?_⟩
    obtain ⟨n, hn, hnk⟩ := scan_done_of_done hx
    have hend := endOf_append_of_some hn tail
    have hkn := le_of_escapesClosed hs hend hx
    rw [hend, Nat.le_antisymm hnk hkn]

theorem escapesClosed_of_agrees (hs : Agrees s) : EscapesClosed s := by
  intro body term b rest hsplit hbody hterm w d hw
  by_contra ho
  have hreads := hw.reads
  have hsim := Sim.run hreads hbody
  obtain ⟨hst, hesc⟩ := (escapeOpen_iff hreads hsim).mpr ⟨w, hw, by simpa using ho⟩
  obtain ⟨o, hd⟩ := hreads
  have hterm' := feed_terminator_open hsim.flags ⟨hst, hesc⟩ o hterm
  obtain ⟨hdot, hpe⟩ := hsim.flags.esc hesc
  -- behind the terminator the decoder is at a line start and takes any byte
  obtain ⟨x, hx⟩ : ∃ x, byteStep ({ d with esc := false, atLineStart := true },
      o ++ [period - 106]) b = .more x := by
    rw [byteStep_body (d := { d with esc := false, atLineStart := true }) hst]
    simp [bodyByte, hpe, dotByte, hdot]
  have hfeed : feed byteStep (.new, []) (body ++ term ++ [b]) =
      ((body ++ term).length + 1, .more x) := by
    rw [append_assoc, feed_append_of_more hd, feed_append_of_more hterm', feed_cons_more hx]
    simp [Nat.add_assoc]
  have hle := (hs [body ++ term ++ [b]] ⟨rest, by simp [hsplit]⟩ _ _ (pushAll_res_more hfeed)).1
    _ (by rw [hsplit]; exact endOf_append hbody hterm _)
  omega

/-- **The decoder and the scanner agree exactly on the streams whose body leaves
no escape open in front of the terminator.** -/
theorem agrees_iff_escapesClosed (s : List UInt8) : Agrees s ↔ EscapesClosed s :=
  ⟨escapesClosed_of_agrees, agrees_of_escapesClosed⟩

/-- A data line that ends in `=`, the terminator, and one byte of the next
response. -/
theorem not_agrees_trailing_equals :
    ¬ Agrees (ascii "=ybegin size=1 name=x\r\n=\r\n.\r\n2") := by
  intro h
  have hres : (YencDecoder.new.pushAll [] [ascii "=ybegin size=1 name=x\r\n=\r\n.\r\n2"]).res =
      .ok (.needMore, 30) := by decide
  have := (h _ (by simp) _ _ hres).1 29 (by decide)
  omega

end Nzbd.Nntp
