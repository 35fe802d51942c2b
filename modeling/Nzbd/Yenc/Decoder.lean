import Nzbd.Lib.Chunked
import Nzbd.Yenc.Header

/-!
# The incremental yEnc decoder

`YencDecoder.push` takes a chunk of the raw body of an article, decodes what it
can and says how many bytes of the chunk belong to the article.  One byte at a
time it is the machine `byteStep`: outside the body it collects a line and
`takeLine` acts on it, inside the body `bodyByte` undoes the escapes and the
dot-stuffing.  The running checksum and the length are brought up to date once
at the end of a call, on the bytes the call has decoded.

`ByteState` holds what one byte can change, `YencDecoder` adds the two running
totals.  `push_eq` reads a call off the machine's run, `pushAll_observe` reads a
run over chunks off one call on their concatenation, and
`pushAll_observe_congr` is chunk invariance: how the stream is cut into calls
cannot be seen from the outside.
-/

namespace Nzbd.Yenc

open List ByteMachine Utf8

def cr : UInt8 := 0x0D

def lf : UInt8 := 0x0A

def period : UInt8 := 0x2E

inductive Status
  | needMore
  | finished
  deriving DecidableEq

inductive State
  /-- Before the body: waiting for `=ybegin`. -/
  | pre
  /-- `=ybegin` had `part=`: the next line must be `=ypart`. -/
  | expectPart
  | body
  /-- Line-start `=y` seen in the body: accumulating a control line. -/
  | control
  /-- Trailer parsed: swallowing lines until the `.` line. -/
  | drain
  deriving DecidableEq

/-- What has been seen of a line that may be the terminator. -/
inductive Dot
  | none
  /-- A `.` at the start of the line. -/
  | seen
  /-- `.` and then a carriage return. -/
  | seenCr
  deriving DecidableEq

def maxLine : Nat := 8192

/-- The part of the decoder one byte of input can change. -/
structure ByteState where
  state : State
  lineBuf : List UInt8
  header : YencHeader
  trailer : YencTrailer
  esc : Bool
  atLineStart : Bool
  pendingEq : Bool
  dot : Dot
  finished : Bool

structure YencDecoder extends ByteState where
  hasher : Crc32.Hasher
  decodedLen : Nat

def ByteState.new : ByteState where
  state := .pre
  lineBuf := []
  header := .default
  trailer := .default
  esc := false
  atLineStart := true
  pendingEq := false
  dot := .none
  finished := false

def YencDecoder.new : YencDecoder where
  toByteState := .new
  hasher := .new
  decodedLen := 0

structure DecodeResult where
  header : YencHeader
  trailer : YencTrailer
  /-- Byte offset of the part within the output file. -/
  offset : Nat
  decodedLen : Nat
  /-- CRC32 of the decoded bytes of the part. -/
  crc32 : BitVec 32
  /-- `none` if the trailer carried no checksum to compare against. -/
  crcOk : Option Bool
  lenOk : Bool

def ByteState.enterBody (d : ByteState) : ByteState :=
  { d with state := .body, esc := false, pendingEq := false, dot := .none, atLineStart := true }

/-! ### Lines -/

/-- The collected line without one trailing carriage return. -/
def chomp (line : List UInt8) : List UInt8 :=
  if line.getLast? = some cr then line.dropLast else line

/-- A line has ended.  The buffer is taken before the line is looked at, so it
is empty on every way out. -/
def takeLine (d : ByteState) : Step ByteState YencError :=
  let line := chomp d.lineBuf
  let d := { d with lineBuf := [] }
  match d.state with
  | .pre =>
    if (ascii "=ybegin ").isPrefixOf line then
      match parseBegin line with
      | .error e => .fail e d
      | .ok h =>
        if h.part.isSome then .more { d with header := h, state := .expectPart }
        else .more { d with header := h }.enterBody
    else if line = ascii "." then .fail (.notYenc "article ended before =ybegin") d
    else .more d
  | .expectPart =>
    if (ascii "=ypart ").isPrefixOf line then
      match parsePart line with
      | .error e => .fail e d
      | .ok (b, e) =>
        .more { d with header := { d.header with partBegin := some b, partEnd := some e } }.enterBody
    else if line = [] then .more d
    else .fail (.malformed "expected =ypart after =ybegin part=…") d
  | .control =>
    if (ascii "=yend").isPrefixOf line then
      match parseEnd line with
      | .error e => .fail e d
      | .ok t => .more { d with trailer := t, state := .drain }
    else .fail (.malformed "unexpected =y control line in body") d
  | .drain => if line = ascii "." then .done { d with finished := true } else .more d
  | .body => .more d

/-! ### The body -/

/-- What is carried through a run: the byte state and the decoded bytes. -/
abbrev Scan := ByteState × List UInt8

/-- A pending escape consumes the next byte, leniently across a line break. -/
def escByte (d : ByteState) (b : UInt8) (out : List UInt8) : Scan :=
  if b = cr then (d, out)
  else if b = lf then ({ d with atLineStart := true }, out)
  else ({ d with esc := false, atLineStart := false }, out ++ [b - 106])

/-- A line-start `=` was waiting to see whether a `=y` control line begins. -/
def pendingEqByte (d : ByteState) (b : UInt8) (out : List UInt8) : Scan :=
  let d := { d with pendingEq := false }
  if b = 0x79 then ({ d with lineBuf := ascii "=y", state := .control }, out)
  else if b = cr then ({ d with esc := true }, out)
  else if b = lf then ({ d with esc := true, atLineStart := true }, out)
  else ({ d with atLineStart := false }, out ++ [b - 106])

/-- A byte with no escape, no `=` and no dot waiting for it. -/
def plainByte (d : ByteState) (b : UInt8) (out : List UInt8) : Scan :=
  if d.atLineStart ∧ b = period then ({ d with dot := .seen }, out)
  else if d.atLineStart ∧ b = equals then ({ d with pendingEq := true, atLineStart := false }, out)
  else if b = equals then ({ d with esc := true }, out)
  else if b = cr then (d, out)
  else if b = lf then ({ d with atLineStart := true }, out)
  else ({ d with atLineStart := false }, out ++ [b - 42])

/-- A lone leading dot turned out to be data: it is emitted, and the byte is
looked at again.  Neither an escape, nor `=`, nor a dot is waiting then, so the
second look is `plainByte`. -/
def loneDot (d : ByteState) (b : UInt8) (out : List UInt8) : Scan :=
  plainByte { d with dot := .none, atLineStart := false } b (out ++ [period - 42])

/-- Dot-unstuffing and the end of the article at a line start. -/
def dotByte (d : ByteState) (b : UInt8) (out : List UInt8) : Step Scan YencError :=
  match d.dot with
  | .none => .more (plainByte d b out)
  | .seen =>
    if b = period then .more ({ d with dot := .none, atLineStart := false }, out ++ [period - 42])
    else if b = cr then .more ({ d with dot := .seenCr }, out)
    else if b = lf then .fail .prematureEnd ({ d with dot := .none }, out)
    else .more (loneDot d b out)
  | .seenCr =>
    if b = lf then .fail .prematureEnd ({ d with dot := .none }, out)
    else .more (loneDot d b out)

def bodyByte (d : ByteState) (b : UInt8) (out : List UInt8) : Step Scan YencError :=
  if d.esc then .more (escByte d b out)
  else if d.pendingEq then .more (pendingEqByte d b out)
  else dotByte d b out

/-- One turn of the loop in `push`. -/
def byteStep (s : Scan) (b : UInt8) : Step Scan YencError :=
  if s.1.state = .body then bodyByte s.1 b s.2
  else if b = lf then (takeLine s.1).map (·, s.2)
  else if maxLine ≤ s.1.lineBuf.length then .fail (.malformed "line too long") s
  else .more ({ s.1 with lineBuf := s.1.lineBuf ++ [b] }, s.2)

theorem byteStep_body {d : ByteState} (h : d.state = .body) (o : List UInt8) (b : UInt8) :
    byteStep (d, o) b = bodyByte d b o := if_pos h

theorem byteStep_line {d : ByteState} (h : d.state ≠ .body) (o : List UInt8) (b : UInt8) :
    byteStep (d, o) b =
      if b = lf then (takeLine d).map (·, o)
      else if maxLine ≤ d.lineBuf.length then .fail (.malformed "line too long") (d, o)
      else .more ({ d with lineBuf := d.lineBuf ++ [b] }, o) := if_neg h

/-! ### Calls -/

/-- What a call gives back: its result, the decoder and the output buffer. -/
structure Pushed where
  res : Except YencError (Status × Nat)
  dec : YencDecoder
  out : List UInt8

/-- Count `n` bytes of earlier calls in. -/
def Pushed.shift (n : Nat) (p : Pushed) : Pushed :=
  { p with res := p.res.map fun r => (r.1, n + r.2) }

namespace YencDecoder

/-- Bring the running totals up to date with the newly decoded bytes. -/
def absorb (d : YencDecoder) (b : ByteState) (newly : List UInt8) : YencDecoder where
  toByteState := b
  hasher := d.hasher.update newly
  decodedLen := d.decodedLen + newly.length

/-- Feed a chunk.  An error leaves the call before the totals are updated. -/
def push (d : YencDecoder) (buf out : List UInt8) : Pushed :=
  let r := if d.finished then (0, .done (d.toByteState, out))
    else feed byteStep (d.toByteState, out) buf
  match r with
  | (n, .more (b, o)) => ⟨.ok (.needMore, n), d.absorb b (o.drop out.length), o⟩
  | (n, .done (b, o)) => ⟨.ok (.finished, n), d.absorb b (o.drop out.length), o⟩
  | (_, .fail e (b, o)) => ⟨.error e, { d with toByteState := b }, o⟩

/-- The length the header promises: the range of the part, else the file. -/
def expectedLen (d : YencDecoder) : Nat :=
  match d.header.partBegin, d.header.partEnd with
  | some b, some e => if b ≤ e then e - b + 1 else d.header.size
  | _, _ => d.header.size

def takeResult (d : YencDecoder) : Option DecodeResult :=
  if d.finished then
    some {
      header := d.header
      trailer := d.trailer
      offset := (d.header.partBegin.map (· - 1)).getD 0
      decodedLen := d.decodedLen
      crc32 := d.hasher.finalize
      crcOk := (d.trailer.pcrc32.or d.trailer.crc32).map (· == d.hasher.finalize)
      lenOk := d.decodedLen == d.trailer.size && d.decodedLen == d.expectedLen }
  else none

/-- Consecutive calls on consecutive chunks, up to the first one that finishes
or fails.  The count is over all calls. -/
def pushAll (d : YencDecoder) (out : List UInt8) : List (List UInt8) → Pushed
  | [] => ⟨.ok (.needMore, 0), d, out⟩
  | c :: cs =>
    let p := d.push c out
    match p.res with
    | .ok (.needMore, n) => (pushAll p.dec p.out cs).shift n
    | .ok (.finished, _) => p
    | .error _ => p

end YencDecoder

/-! ### Whole lines -/

theorem feed_collect {d : ByteState} (hs : d.state ≠ .body) (o : List UInt8) {l : List UInt8}
    (hl : lf ∉ l) (hlen : d.lineBuf.length + l.length ≤ maxLine) :
    feed byteStep (d, o) l = (l.length, .more ({ d with lineBuf := d.lineBuf ++ l }, o)) := by
  induction l generalizing d with
  | nil => simp
  | cons b l ih =>
    have hb : b ≠ lf := fun h => hl (by simp [h])
    have hstep : byteStep (d, o) b = .more ({ d with lineBuf := d.lineBuf ++ [b] }, o) := by
      rw [byteStep_line hs, if_neg hb, if_neg (by simp only [length_cons] at hlen; omega)]
    rw [feed_cons_more hstep, ih (d := { d with lineBuf := d.lineBuf ++ [b] }) hs
      (fun h => hl (by simp [h]))
      (by simp only [length_append, length_cons, length_nil] at hlen ⊢; omega)]
    simp

theorem feed_line {d : ByteState} (hs : d.state ≠ .body) (o : List UInt8) {l : List UInt8}
    (hl : lf ∉ l) (hlen : d.lineBuf.length + l.length ≤ maxLine) :
    feed byteStep (d, o) (l ++ [lf]) =
      (l.length + 1, (takeLine { d with lineBuf := d.lineBuf ++ l }).map (·, o)) := by
  have hstep : byteStep ({ d with lineBuf := d.lineBuf ++ l }, o) lf =
      (takeLine { d with lineBuf := d.lineBuf ++ l }).map (·, o) := by
    rw [byteStep_line (d := { d with lineBuf := d.lineBuf ++ l }) hs, if_pos rfl]
  rw [feed_append_of_more (feed_collect hs o hl hlen)]
  cases ht : takeLine { d with lineBuf := d.lineBuf ++ l } with
  | more e => rw [ht] at hstep; rw [feed_cons_more hstep]; rfl
  | done e => rw [ht] at hstep; rw [feed_cons_done hstep]; rfl
  | fail x e => rw [ht] at hstep; rw [feed_cons_fail hstep]; rfl

theorem feed_too_long {d : ByteState} (hs : d.state ≠ .body) (o : List UInt8) {l : List UInt8}
    (hl : lf ∉ l) (hbuf : d.lineBuf.length ≤ maxLine)
    (hlen : maxLine < d.lineBuf.length + l.length) (rest : List UInt8) :
    ∃ n s, feed byteStep (d, o) (l ++ rest) = (n, .fail (.malformed "line too long") s) := by
  let k := maxLine - d.lineBuf.length
  have hk : k < l.length := by omega
  have hne : l[k] ≠ lf := fun h => hl (h ▸ getElem_mem hk)
  have hsplit : l = l.take k ++ l[k] :: l.drop (k + 1) := by
    rw [cons_getElem_drop_succ, take_append_drop]
  have hfill := feed_collect hs o (l := l.take k) (fun h => hl (mem_of_mem_take h))
    (by rw [length_take]; omega)
  have hstep : byteStep ({ d with lineBuf := d.lineBuf ++ l.take k }, o) l[k] =
      .fail (.malformed "line too long") ({ d with lineBuf := d.lineBuf ++ l.take k }, o) := by
    rw [byteStep_line (d := { d with lineBuf := d.lineBuf ++ l.take k }) hs,
      if_neg hne, if_pos]
    rw [length_append, length_take]
    omega
  rw [hsplit, append_assoc, feed_append_of_more hfill, cons_append, feed_cons_fail hstep]
  exact ⟨_, _, rfl⟩

/-! ### The output is only appended to -/

/-- Put decoded bytes in front of the ones a run has produced. -/
def Scan.after (out : List UInt8) (s : Scan) : Scan := (s.1, out ++ s.2)

theorem plainByte_after (out : List UInt8) (d : ByteState) (b : UInt8) (o : List UInt8) :
    plainByte d b (out ++ o) = (plainByte d b o).after out := by
  unfold plainByte Scan.after
  split_ifs <;> simp

theorem dotByte_after (out : List UInt8) (d : ByteState) (b : UInt8) (o : List UInt8) :
    dotByte d b (out ++ o) = (dotByte d b o).map (Scan.after out) := by
  unfold dotByte
  cases d.dot with
  | none => simp only [plainByte_after, Step.map_more]
  | seen =>
    simp only [loneDot, append_assoc, plainByte_after]
    split_ifs <;> simp [Scan.after]
  | seenCr =>
    simp only [loneDot, append_assoc, plainByte_after]
    split_ifs <;> simp [Scan.after]

theorem bodyByte_after (out : List UInt8) (d : ByteState) (b : UInt8) (o : List UInt8) :
    bodyByte d b (out ++ o) = (bodyByte d b o).map (Scan.after out) := by
  unfold bodyByte
  split_ifs
  · unfold escByte Scan.after
    split_ifs <;> simp
  · unfold pendingEqByte Scan.after
    split_ifs <;> simp
  · exact dotByte_after out d b o

theorem byteStep_after (out : List UInt8) (s : Scan) (b : UInt8) :
    byteStep (s.after out) b = (byteStep s b).map (Scan.after out) := by
  obtain ⟨d, o⟩ := s
  show byteStep (d, out ++ o) b = _
  by_cases hbody : d.state = .body
  · rw [byteStep_body hbody, byteStep_body hbody, bodyByte_after]
  · rw [byteStep_line hbody, byteStep_line hbody]
    split_ifs
    · cases takeLine d <;> rfl
    · rfl
    · rfl

/-- A run from a buffer that already holds bytes is the run from an empty one
with these bytes in front. -/
theorem feed_byteStep (d : ByteState) (out buf : List UInt8) :
    feed byteStep (d, out) buf =
      ((feed byteStep (d, []) buf).1, (feed byteStep (d, []) buf).2.map (Scan.after out)) := by
  have h := feed_map (Scan.after out) (byteStep_after out) (d, []) buf
  rwa [show Scan.after out (d, []) = (d, out) by simp [Scan.after]] at h

/-! ### The finished flag -/

theorem takeLine_finished (d : ByteState) :
    (∃ t, takeLine d = .done t ∧ t.finished = true) ∨
      ((∀ t, takeLine d ≠ .done t) ∧ (takeLine d).state.finished = d.finished) := by
  unfold takeLine
  cases d.state <;> dsimp only <;> (repeat' split) <;>
    first
    | exact .inr ⟨fun _ h => (nomatch h), rfl⟩
    | exact .inl ⟨_, rfl, rfl⟩

theorem plainByte_finished (d : ByteState) (b : UInt8) (out : List UInt8) :
    (plainByte d b out).1.finished = d.finished := by
  unfold plainByte
  split_ifs <;> rfl

theorem dotByte_finished (d : ByteState) (b : UInt8) (out : List UInt8) :
    (∀ t, dotByte d b out ≠ .done t) ∧ (dotByte d b out).state.1.finished = d.finished := by
  unfold dotByte loneDot
  cases d.dot with
  | none => exact ⟨fun _ h => (nomatch h), plainByte_finished d b out⟩
  | seen =>
    dsimp only
    split_ifs
    · exact ⟨fun _ h => (nomatch h), rfl⟩
    · exact ⟨fun _ h => (nomatch h), rfl⟩
    · exact ⟨fun _ h => (nomatch h), rfl⟩
    · exact ⟨fun _ h => (nomatch h), plainByte_finished _ b _⟩
  | seenCr =>
    dsimp only
    split_ifs
    · exact ⟨fun _ h => (nomatch h), rfl⟩
    · exact ⟨fun _ h => (nomatch h), plainByte_finished _ b _⟩

theorem bodyByte_finished (d : ByteState) (b : UInt8) (out : List UInt8) :
    (∀ t, bodyByte d b out ≠ .done t) ∧ (bodyByte d b out).state.1.finished = d.finished := by
  unfold bodyByte
  split_ifs
  · refine ⟨fun _ h => (nomatch h), ?_⟩
    show (escByte d b out).1.finished = d.finished
    unfold escByte
    split_ifs <;> rfl
  · refine ⟨fun _ h => (nomatch h), ?_⟩
    show (pendingEqByte d b out).1.finished = d.finished
    unfold pendingEqByte
    split_ifs <;> rfl
  · exact dotByte_finished d b out

theorem byteStep_finished (s : Scan) (b : UInt8) :
    (∃ t, byteStep s b = .done t ∧ t.1.finished = true) ∨
      ((∀ t, byteStep s b ≠ .done t) ∧ (byteStep s b).state.1.finished = s.1.finished) := by
  unfold byteStep
  split_ifs
  · exact .inr (bodyByte_finished s.1 b s.2)
  · rcases takeLine_finished s.1 with ⟨t, ht, hf⟩ | ⟨hn, hf⟩
    · exact .inl ⟨(t, s.2), by rw [ht]; rfl, hf⟩
    · refine .inr ⟨fun t h => ?_, ?_⟩
      · cases ht : takeLine s.1 with
        | done u => exact hn u ht
        | more u => rw [ht] at h; nomatch h
        | fail e u => rw [ht] at h; nomatch h
      · cases ht : takeLine s.1 <;> rw [ht] at hf <;> exact hf
  · exact .inr ⟨fun _ h => (nomatch h), rfl⟩
  · exact .inr ⟨fun _ h => (nomatch h), rfl⟩

theorem feed_finished {s : Scan} (hs : s.1.finished = false) (buf : List UInt8) :
    (∃ t, (feed byteStep s buf).2 = .done t ∧ t.1.finished = true) ∨
      ((∀ t, (feed byteStep s buf).2 ≠ .done t) ∧
        (feed byteStep s buf).2.state.1.finished = false) := by
  induction buf generalizing s with
  | nil => exact .inr ⟨fun _ h => (nomatch h), hs⟩
  | cons b bs ih =>
    have hb := byteStep_finished s b
    cases h : byteStep s b with
    | more t =>
      rw [feed_cons_more h]
      rcases hb with ⟨u, hu, _⟩ | ⟨_, hf⟩
      · rw [h] at hu; nomatch hu
      · rw [h] at hf; exact ih (hf.trans hs)
    | done t =>
      rw [feed_cons_done h]
      rcases hb with ⟨u, hu, hf⟩ | ⟨hn, _⟩
      · rw [h] at hu; exact .inl ⟨u, hu, hf⟩
      · exact absurd h (hn t)
    | fail e t =>
      rw [feed_cons_fail h]
      rcases hb with ⟨u, hu, _⟩ | ⟨_, hf⟩
      · rw [h] at hu; nomatch hu
      · rw [h] at hf; exact .inr ⟨fun _ h => (nomatch h), hf.trans hs⟩

/-! ### Chunk invariance -/

/-- What a caller can see after a run: the status and the bytes taken, or the
error; the decoded bytes; the result. -/
def Pushed.observe (p : Pushed) :
    Except YencError (Status × Nat) × List UInt8 × Option DecodeResult :=
  (p.res, p.out, p.dec.takeResult)

namespace YencDecoder

variable {d : YencDecoder}

theorem takeResult_eq_none (h : d.finished = false) : d.takeResult = none := by
  simp [takeResult, h]

theorem absorb_absorb (d : YencDecoder) (b c : ByteState) (o q : List UInt8) :
    (d.absorb b o).absorb c q = d.absorb c (o ++ q) := by
  simp [absorb, Crc32.Hasher.update_append, Nat.add_assoc]

theorem push_eq (hd : d.finished = false) (buf out : List UInt8) :
    d.push buf out =
      match feed byteStep (d.toByteState, []) buf with
      | (n, .more (b, o)) => ⟨.ok (.needMore, n), d.absorb b o, out ++ o⟩
      | (n, .done (b, o)) => ⟨.ok (.finished, n), d.absorb b o, out ++ o⟩
      | (_, .fail e (b, o)) => ⟨.error e, { d with toByteState := b }, out ++ o⟩ := by
  unfold push
  rw [hd, if_neg (by simp), feed_byteStep]
  rcases feed byteStep (d.toByteState, []) buf with ⟨n, r⟩
  cases r <;> simp [Scan.after]

theorem push_append (hd : d.finished = false) {c out : List UInt8} {n : Nat}
    {p : Pushed} (hp : d.push c out = p) (hres : p.res = .ok (.needMore, n)) (rest : List UInt8) :
    p.dec.finished = false ∧
      (d.push (c ++ rest) out).observe = ((p.dec.push rest p.out).shift n).observe := by
  have hfin := feed_finished (s := (d.toByteState, [])) hd c
  rw [push_eq hd] at hp
  rcases hf : feed byteStep (d.toByteState, []) c with ⟨m, r⟩
  rw [hf] at hp hfin
  cases r with
  | done t => rw [← hp] at hres; nomatch hres
  | fail e t => rw [← hp] at hres; nomatch hres
  | more t =>
    obtain ⟨b, o⟩ := t
    rcases hfin with ⟨u, hu, -⟩ | ⟨-, hb⟩
    · nomatch hu
    subst hp
    simp only [Except.ok.injEq, Prod.mk.injEq, true_and] at hres
    subst hres
    have hb' : (d.absorb b o).finished = false := hb
    refine ⟨hb', ?_⟩
    have hrest := feed_finished (s := (b, [])) hb rest
    rw [push_eq hd, push_eq hb', feed_append_of_more hf, feed_more_length hf, feed_byteStep b o,
      show (d.absorb b o).toByteState = b from rfl]
    rcases hq : feed byteStep (b, []) rest with ⟨k, q⟩
    rw [hq] at hrest
    cases q with
    | more u =>
      simp only [Step.map_more, Scan.after, absorb_absorb, append_assoc, Pushed.observe]
      rfl
    | done u =>
      simp only [Step.map_done, Scan.after, absorb_absorb, append_assoc, Pushed.observe]
      rfl
    | fail e u =>
      -- the totals differ, but nothing reads them on a decoder that failed
      rcases hrest with ⟨v, hv, -⟩ | ⟨-, hu⟩
      · nomatch hv
      have hu' : u.1.finished = false := hu
      simp only [Step.map_fail, Scan.after, append_assoc, Pushed.observe, Pushed.shift,
        takeResult, hu']
      rfl

/-- A call that finished or failed does not look behind the place where it
did. -/
theorem push_append_of_stopped (hd : d.finished = false) {c out : List UInt8}
    (h : ∀ n, (d.push c out).res ≠ .ok (.needMore, n)) (rest : List UInt8) :
    (d.push (c ++ rest) out).observe = (d.push c out).observe := by
  rw [push_eq hd] at h
  rw [push_eq hd, push_eq hd]
  rcases hf : feed byteStep (d.toByteState, []) c with ⟨n, r⟩
  rw [hf] at h
  cases r with
  | more t => exact absurd rfl (h n)
  | done t => rw [feed_append_of_stopped (by rw [hf]; rfl), hf]
  | fail e t => rw [feed_append_of_stopped (by rw [hf]; rfl), hf]

/-- **A run over chunks looks like one call on the whole stream.** -/
theorem pushAll_observe (hd : d.finished = false) (out : List UInt8)
    (cs : List (List UInt8)) : (d.pushAll out cs).observe = (d.push cs.flatten out).observe := by
  induction cs generalizing d out with
  | nil => simp [pushAll, push_eq hd, Pushed.observe, takeResult_eq_none hd, absorb]
  | cons c cs ih =>
    rw [flatten_cons, pushAll]
    rcases hres : (d.push c out).res with e | ⟨st, n⟩
    · exact (push_append_of_stopped hd (by simp [hres]) cs.flatten).symm
    cases st with
    | finished => exact (push_append_of_stopped hd (by simp [hres]) cs.flatten).symm
    | needMore =>
      obtain ⟨hfin, hobs⟩ := push_append hd rfl hres cs.flatten
      have h := ih hfin (d.push c out).out
      rw [hobs]
      simp only [Pushed.observe, Pushed.shift, Prod.mk.injEq] at h ⊢
      rw [h.1, h.2.1, h.2.2]
      exact ⟨rfl, rfl, rfl⟩

/-- **Chunk invariance.**  Two ways of cutting one stream end in the same status
and count, or the same error, with the same output and the same result. -/
theorem pushAll_observe_congr {cs ds : List (List UInt8)} (h : cs.flatten = ds.flatten)
    (out : List UInt8) : (new.pushAll out cs).observe = (new.pushAll out ds).observe := by
  rw [pushAll_observe rfl, pushAll_observe rfl, h]

/-- Cut next to an escape, and not cut at all. -/
theorem pushAll_observe_escape :
    [ascii "=ybegin size=1 name=x\r\n=", ascii "n\r\n=yend size=1\r\n.\r\n"].flatten =
        [ascii "=ybegin size=1 name=x\r\n=n\r\n=yend size=1\r\n.\r\n"].flatten ∧
      (new.pushAll [] [ascii "=ybegin size=1 name=x\r\n=",
          ascii "n\r\n=yend size=1\r\n.\r\n"]).observe =
        (new.pushAll []
          [ascii "=ybegin size=1 name=x\r\n=n\r\n=yend size=1\r\n.\r\n"]).observe :=
  ⟨by decide, pushAll_observe_congr (by decide) []⟩

end YencDecoder

end Nzbd.Yenc
