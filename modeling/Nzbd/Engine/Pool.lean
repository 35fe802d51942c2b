import Nzbd.Engine.Failover
import Nzbd.Nntp.Connection

/-!
# Pipelined article requests

A connection sends `BODY` for every lease of a batch in one write and then reads
the answers in order.  `handleOne` reads one answer; `streamBody` feeds the body
of a 222 to a decoder chunk by chunk.  When the decoder rejects the article the
rest of its body has to be swallowed, so that the next answer is read for the
next lease: `streamBody` drops the chunk the decoder choked on and drains.

An `Answer` is what the server sends for one command.  `handleOne_synced` says
when reading it leaves the connection exactly behind it, and `handled_synced`
carries that over a batch.
-/

namespace Nzbd.Engine

open List ByteMachine Utf8 Nzbd.Yenc Nzbd.Nntp TerminatorScanner NntpConnection

/-- What the connection task passes on for a lease. -/
inductive Report
  | segmentFailed (outcome : AttemptOutcome)
  /-- The decoded part, handed to the writer of the file. -/
  | segment (offset : Nat) (data : List UInt8) (crc : BitVec 32) (fileSize : Nat)
  deriving DecidableEq

/-- What becomes of a body that was read to its end. -/
def articleReport (result : Option DecodeResult) (out : List UInt8) : Report :=
  match result with
  | none => .segmentFailed .other
  | some r =>
    if r.crcOk = some false then .segmentFailed .crcError
    else if r.lenOk = false then .segmentFailed .other
    else .segment r.offset out r.crc32 r.header.size

/-- The loop of `streamBody`.  A call that wants more has taken the whole
chunk. -/
def stream (eof : Bool) (dec : YencDecoder) (out : List UInt8) :
    List Chunk → Except TransportError (Report × List Chunk)
  | [] => .error (atEnd eof "body")
  | c :: cs =>
    let p := dec.push c.1 out
    match p.res with
    | .ok (.needMore, _) => stream eof p.dec p.out cs
    | .ok (.finished, n) => .ok (articleReport p.dec.takeResult p.out, consume n (c :: cs))
    | .error _ =>
      -- broken article: the chunk is dropped and the rest drained
      match drain eof .new cs with
      | .ok rest => .ok (.segmentFailed .other, rest)
      | .error e => .error e

def streamBody (conn : NntpConnection) : Except TransportError (Report × NntpConnection) :=
  match stream conn.eof .new [] conn.chunks with
  | .ok (r, cs) => .ok (r, { conn with chunks := cs })
  | .error e => .error e

/-- Process a single answer.  An error is a failure of the connection. -/
def handleOne (conn : NntpConnection) : Except TransportError (Report × NntpConnection) :=
  match conn.readResponse with
  | .error e => .error e
  | .ok (resp, conn) =>
    if resp.code = bodyFollows then streamBody conn
    else if resp.isArticleMissing then .ok (.segmentFailed .articleMissing, conn)
    else if resp.code = authRequired then .error (.authRejected resp.code resp.text)
    else .ok (.segmentFailed .other, conn)

/-- Read the answers of a batch in order.  When the connection dies, this lease
and the ones behind it are reported as `connectionFailed`. -/
def readAnswers (conn : NntpConnection) : List SegRef → List (SegRef × Report) × Option NntpConnection
  | [] => ([], some conn)
  | l :: ls =>
    match handleOne conn with
    | .ok (r, conn) =>
      let rest := readAnswers conn ls
      ((l, r) :: rest.1, rest.2)
    | .error _ => ((l :: ls).map (·, .segmentFailed .connectionFailed), none)

/-- `sent` is whether the pipelined write went through. -/
def runLeases (sent : Bool) (conn : NntpConnection) (leases : List SegRef) :
    List (SegRef × Report) × Option NntpConnection :=
  if sent then readAnswers conn leases
  else (leases.map (·, .segmentFailed .connectionFailed), none)

/-! ### Where a chunk ends -/

/-- The end of the chunk that holds the `k`-th byte. -/
def chunkEnd : List Chunk → Nat → Nat
  | [], _ => 0
  | c :: cs, k => if k ≤ c.1.length then c.1.length else c.1.length + chunkEnd cs (k - c.1.length)

theorem chunkEnd_of_le {c : Chunk} {cs : List Chunk} {k : Nat} (hk : k ≤ c.1.length) :
    chunkEnd (c :: cs) k = c.1.length := if_pos hk

theorem chunkEnd_add {c : Chunk} {cs : List Chunk} {k : Nat} (hk : 0 < k) :
    chunkEnd (c :: cs) (c.1.length + k) = c.1.length + chunkEnd cs k := by
  rw [chunkEnd, if_neg (by omega), Nat.add_sub_cancel_left]

theorem feed_after {d b : ByteState} {o c : List UInt8} {n : Nat}
    (h : feed byteStep (d, []) c = (n, .more (b, o))) (s : List UInt8) :
    feed byteStep (d, []) (c ++ s) =
      (c.length + (feed byteStep (b, []) s).1,
        (feed byteStep (b, []) s).2.map (Scan.after o)) := by
  rw [feed_append_of_more h, feed_byteStep]

/-- **The loop read off the decoder and the scanner.**  It returns when the
decoder finishes, or when the decoder fails and the scanner, started behind the
chunk in which it did, finds a terminator. -/
theorem stream_ok {eof : Bool} {dec : YencDecoder} (hd : dec.finished = false)
    {out : List UInt8} {cs rest : List Chunk} {r : Report}
    (h : stream eof dec out cs = .ok (r, rest)) :
    (∃ n x, feed byteStep (dec.toByteState, []) (bytes cs) = (n, .done x) ∧
        bytes rest = (bytes cs).drop n) ∨
      ∃ n e x m t, feed byteStep (dec.toByteState, []) (bytes cs) = (n, .fail e x) ∧
        ByteMachine.feed scanByte new ((bytes cs).drop (chunkEnd cs n)) = (m, .done t) ∧
        bytes rest = (bytes cs).drop (chunkEnd cs n + m) := by
  induction cs generalizing dec out with
  | nil => cases h
  | cons c cs ih =>
    have hle : (feed byteStep (dec.toByteState, []) c.1).1 ≤ c.1.length := feed_fst_le_length _ _
    have hfin := feed_finished (s := (dec.toByteState, [])) hd c.1
    rw [stream, YencDecoder.push_eq hd] at h
    rw [bytes_cons]
    rcases hf : feed byteStep (dec.toByteState, []) c.1 with ⟨k, q⟩
    rw [hf] at h hle hfin
    cases q with
    | done x =>
      cases h
      refine .inl ⟨k, x, ?_, ?_⟩
      · rw [feed_append_of_stopped (by rw [hf]; rfl), hf]
      · rw [consume, bytes_unread, drop_append_of_le_length hle]
    | fail e x =>
      dsimp only at h
      cases hdr : drain eof .new cs with
      | error e' => rw [hdr] at h; cases h
      | ok rest' =>
        rw [hdr] at h
        cases h
        obtain ⟨m, t, hm, hrest⟩ := drain_ok hdr
        refine .inr ⟨k, e, x, m, t, ?_, ?_, ?_⟩
        · rw [feed_append_of_stopped (by rw [hf]; rfl), hf]
        · rw [chunkEnd_of_le hle, drop_left, hm]
        · rw [chunkEnd_of_le hle, hrest, drop_length_add_append]
    | more x =>
      obtain ⟨b, o⟩ := x
      have hb : (dec.absorb b o).finished = false := by
        rcases hfin with ⟨y, hy, -⟩ | ⟨-, hb⟩
        · cases hy
        · exact hb
      rcases ih hb h with ⟨n, x, hn, hrest⟩ | ⟨n, e, x, m, t, hn, hm, hrest⟩
      · refine .inl ⟨c.1.length + n, x.after o, ?_, ?_⟩
        · rw [feed_after hf, show feed byteStep (b, []) (bytes cs) = (n, .done x) from hn]
          rfl
        · rw [hrest, drop_length_add_append]
      · -- a decoder that failed has taken a byte of the chunks behind this one
        have hpos : 0 < n := by
          obtain ⟨init, -, -, -, -, hn', -⟩ := feed_stopped_last hn rfl
          omega
        refine .inr ⟨c.1.length + n, e, x.after o, m, t, ?_, ?_, ?_⟩
        · rw [feed_after hf, show feed byteStep (b, []) (bytes cs) = (n, .fail e x) from hn]
          rfl
        · rw [chunkEnd_add hpos, drop_length_add_append, hm]
        · rw [chunkEnd_add hpos, Nat.add_assoc, drop_length_add_append, hrest]

/-- **A body that is decoded to its end** is taken to there, whatever follows it. -/
theorem stream_of_done (eof : Bool) {dec : YencDecoder} (hd : dec.finished = false)
    (out : List UInt8) {cs : List Chunk} {n : Nat} {x : Scan}
    (h : feed byteStep (dec.toByteState, []) (bytes cs) = (n, .done x)) :
    ∃ rest, stream eof dec out cs =
        .ok (articleReport (dec.absorb x.1 x.2).takeResult (out ++ x.2), rest) ∧
      bytes rest = (bytes cs).drop n := by
  induction cs generalizing dec out n x with
  | nil => cases h
  | cons c cs ih =>
    have hle : (feed byteStep (dec.toByteState, []) c.1).1 ≤ c.1.length := feed_fst_le_length _ _
    have hfin := feed_finished (s := (dec.toByteState, [])) hd c.1
    rw [bytes_cons] at h ⊢
    rw [stream, YencDecoder.push_eq hd]
    rcases hf : feed byteStep (dec.toByteState, []) c.1 with ⟨k, q⟩
    rw [hf] at hle hfin
    cases q with
    | fail e y =>
      rw [feed_append_of_stopped (by rw [hf]; rfl), hf] at h
      cases h
    | done y =>
      rw [feed_append_of_stopped (by rw [hf]; rfl), hf] at h
      cases h
      exact ⟨_, rfl, by rw [consume, bytes_unread, drop_append_of_le_length hle]⟩
    | more y =>
      have hb : (dec.absorb y.1 y.2).finished = false := by
        rcases hfin with ⟨z, hz, -⟩ | ⟨-, hb⟩
        · cases hz
        · exact hb
      rw [feed_after hf] at h
      rcases hg : feed byteStep (y.1, []) (bytes cs) with ⟨m, q⟩
      rw [hg] at h
      cases q with
      | more z => cases h
      | fail e z => cases h
      | done z =>
        cases h
        obtain ⟨rest, hs, hr⟩ := ih hb (out ++ y.2) hg
        rw [YencDecoder.absorb_absorb, append_assoc] at hs
        exact ⟨rest, hs, by rw [hr, drop_length_add_append]⟩

/-! ### One answer -/

/-- What the server sends for one `BODY`: a status line, and for a 222 a
dot-stuffed body and its terminator. -/
structure Answer where
  status : List UInt8
  status_line : lf ∉ status
  body : List UInt8
  body_block : LineStart body
  term : List UInt8
  term_line : Terminator term

namespace Answer

def hasBody (a : Answer) : Bool :=
  match Response.parse (a.status ++ [lf]) with
  | .ok r => r.code == bodyFollows
  | .error _ => false

def wire (a : Answer) : List UInt8 :=
  a.status ++ lf :: (if a.hasBody then a.body ++ a.term else [])

/-- The body of an answer that arrives in the chunks `cs` leaves the connection
in step.  No escape is open at its terminator; and if the decoder rejects it, the
chunk with the byte it choked on ends in front of the terminator, and not inside
a line whose rest is a single dot. -/
structure Clean (a : Answer) (cs : List Chunk) : Prop where
  escapes : ∀ w d, BodyReads a.body w d → openEscape w = false
  cut : ∀ k e x, feed byteStep (.new, []) (a.body ++ a.term) = (k, .fail e x) →
    chunkEnd cs k ≤ a.body.length ∧
      (LineStart (a.body.take (chunkEnd cs k)) ∨
        ∀ t, Terminator t → ¬ t <+: a.body.drop (chunkEnd cs k))

def CleanAt (a : Answer) (conn : NntpConnection) : Prop :=
  ∀ line cs, readUntil conn.eof conn.chunks = .ok (line, cs) → a.hasBody → a.Clean cs

end Answer

/-- **A body is consumed exactly**, terminator included and nothing behind it. -/
theorem stream_synced {a : Answer} {cs rest : List Chunk} (hclean : a.Clean cs)
    {after : List UInt8} (hcs : bytes cs = a.body ++ a.term ++ after) {eof : Bool} {r : Report}
    (h : stream eof .new [] cs = .ok (r, rest)) : bytes rest = after := by
  -- the decoder stops on the body, so what follows does not matter to it
  have hstop : ∃ k q, feed byteStep (.new, []) (a.body ++ a.term) = (k, q) ∧ q.isMore = false ∧
      ∀ x, q = .done x → k = (a.body ++ a.term).length := by
    rcases decoder_at_terminator a.body_block a.term_line with ⟨d, hd, hopen⟩ | hstop
    · obtain ⟨w, hw, ho⟩ := (escapeOpen_iff hd (Sim.run hd a.body_block)).mp hopen
      rw [hclean.escapes w d hw] at ho
      cases ho
    · exact hstop
  obtain ⟨k, q, hq, hmore, hdone⟩ := hstop
  have hall : feed byteStep (.new, []) (bytes cs) = (k, q) := by
    rw [hcs, feed_append_of_stopped (by rw [hq]; exact hmore), hq]
  rcases stream_ok rfl h with ⟨n, x, hn, hrest⟩ | ⟨n, e, x, m, t, hn, hm, hrest⟩
  · have heq := hall.symm.trans hn
    simp only [Prod.mk.injEq] at heq
    rw [hrest, ← heq.1, hdone x heq.2, hcs, drop_left]
  · have heq := hall.symm.trans hn
    simp only [Prod.mk.injEq] at heq
    obtain ⟨rfl, rfl⟩ := heq
    obtain ⟨hle, hcut⟩ := hclean.cut k e x hq
    -- the drain starts inside the body and is in step from the next line on
    have hline : LineStart (a.body.drop (chunkEnd cs k)) := by
      apply lineStart_resume (p := a.body.take (chunkEnd cs k))
      · rw [take_append_drop]
        exact a.body_block
      · exact hcut
    have hdrop : (bytes cs).drop (chunkEnd cs k) =
        a.body.drop (chunkEnd cs k) ++ a.term ++ after := by
      rw [hcs, append_assoc, drop_append_of_le_length hle, append_assoc]
    have hend := endOf_append hline a.term_line after
    rw [← hdrop] at hend
    obtain ⟨t', ht'⟩ := endOf_eq_some hend
    rw [ht'] at hm
    simp only [Prod.mk.injEq] at hm
    rw [hrest, ← drop_drop, hdrop, ← hm.1, drop_left]

/-- **One answer is read exactly.** -/
theorem handleOne_synced {a : Answer} {conn conn' : NntpConnection} {after : List UInt8}
    (hconn : bytes conn.chunks = a.wire ++ after) (hclean : a.CleanAt conn) {r : Report}
    (h : handleOne conn = .ok (r, conn')) : bytes conn'.chunks = after := by
  rw [Answer.wire, append_assoc, cons_append] at hconn
  obtain ⟨cs, hread, hcs⟩ := readUntil_line conn.eof a.status_line hconn
  rw [handleOne, readResponse, hread] at h
  dsimp only at h
  cases hutf : fromUtf8 (a.status ++ [lf]) with
  | none => rw [hutf] at h; nomatch h
  | some text =>
    rw [hutf] at h
    dsimp only at h
    rw [if_neg (by simp)] at h
    cases hparse : Response.parse (a.status ++ [lf]) with
    | error e => rw [hparse] at h; nomatch h
    | ok resp =>
      rw [hparse] at h
      dsimp only at h
      by_cases hcode : resp.code = bodyFollows
      · have hbody : a.hasBody = true := by simp [Answer.hasBody, hparse, hcode]
        rw [if_pos hcode, streamBody] at h
        rw [if_pos hbody] at hcs
        cases hstream : stream conn.eof .new [] cs with
        | error e => rw [hstream] at h; nomatch h
        | ok p =>
          obtain ⟨r', rest⟩ := p
          rw [hstream] at h
          cases h
          exact stream_synced (hclean _ cs hread hbody) hcs hstream
      · have hbody : a.hasBody = false := by simp [Answer.hasBody, hparse, hcode]
        rw [if_neg hcode] at h
        rw [hbody, if_neg (by simp), nil_append] at hcs
        split_ifs at h
        · cases h; exact hcs
        · cases h; exact hcs

/-! ### A batch -/

/-- `handleOne` has returned `Ok` for each of `n` leases in turn. -/
inductive Handled : NntpConnection → Nat → NntpConnection → Prop
  | zero (conn : NntpConnection) : Handled conn 0 conn
  | succ {conn conn₁ conn₂ : NntpConnection} {r : Report} {n : Nat}
      (one : handleOne conn = .ok (r, conn₁)) (rest : Handled conn₁ n conn₂) :
      Handled conn (n + 1) conn₂

/-- Every answer of the batch meets the condition at the connection that is
about to read it. -/
def CleanBatch : NntpConnection → List Answer → Prop
  | _, [] => True
  | conn, a :: as =>
    a.CleanAt conn ∧ ∀ r conn', handleOne conn = .ok (r, conn') → CleanBatch conn' as

/-- **Pipelined answers stay matched to their leases.**  Once `n` leases have been
handled, exactly the first `n` answers have been consumed, and the next answer is
read for the next lease. -/
theorem handled_synced {conn conn' : NntpConnection} {answers : List Answer}
    {after : List UInt8} (hconn : bytes conn.chunks = answers.flatMap Answer.wire ++ after)
    (hclean : CleanBatch conn answers) {n : Nat} (hn : n ≤ answers.length)
    (h : Handled conn n conn') :
    bytes conn'.chunks = (answers.drop n).flatMap Answer.wire ++ after := by
  induction h generalizing answers with
  | zero conn => exact hconn
  | succ one rest ih =>
    cases answers with
    | nil => simp at hn
    | cons a as =>
      rw [flatMap_cons, append_assoc] at hconn
      have hone := handleOne_synced hconn hclean.1 one
      exact ih hone (hclean.2 _ _ one) (by simpa using hn)

def rejectedAnswer : Answer where
  status := ascii "222 0 <a>\r"
  status_line := by decide
  body := ascii "=ybegin size=x\r\nabc\r\n"
  body_block := rfl
  term := [period, cr, lf]
  term_line := .inr rfl

def missingAnswer : Answer where
  status := ascii "430 no\r"
  status_line := by decide
  body := []
  body_block := rfl
  term := [period, cr, lf]
  term_line := .inr rfl

/-- The rejected article arrives cut inside its second line. -/
def cutInside : NntpConnection where
  chunks := [⟨ascii "222 0 <a>\r\n=ybegin size=x\r\na", by decide⟩,
    ⟨ascii "bc\r\n.\r\n430 no\r\n", by decide⟩]
  eof := false

theorem rejectedAnswer_clean : rejectedAnswer.Clean
    [⟨ascii "=ybegin size=x\r\na", by decide⟩,
      ⟨ascii "bc\r\n.\r\n430 no\r\n", by decide⟩] where
  escapes := by
    intro w d hw
    obtain ⟨o, ho⟩ := hw.reads
    nomatch ho
  cut := by
    intro k e x hk
    have hk' : k = 16 := (congrArg Prod.fst hk).symm
    subst hk'
    refine ⟨by decide, .inr ?_⟩
    rintro t (rfl | rfl)
    · decide
    · decide

/-- Both answers are read, each for its own lease. -/
theorem handled_synced_cutInside :
    ∃ conn', Handled cutInside 2 conn' ∧
      bytes conn'.chunks = ([rejectedAnswer, missingAnswer].drop 2).flatMap Answer.wire ++ [] := by
  have h1 : handleOne cutInside = .ok (.segmentFailed .other,
      ⟨[⟨ascii "430 no\r\n", by decide⟩], false⟩) := rfl
  have h2 : handleOne ⟨[⟨ascii "430 no\r\n", by decide⟩], false⟩ =
      .ok (.segmentFailed .articleMissing, ⟨[], false⟩) := rfl
  have hrun : Handled cutInside 2 ⟨[], false⟩ := .succ h1 (.succ h2 (.zero _))
  have hclean : CleanBatch cutInside [rejectedAnswer, missingAnswer] := by
    refine ⟨?_, fun r conn' _ => ⟨?_, fun _ _ _ => trivial⟩⟩
    · intro line cs hread _
      cases hread
      exact rejectedAnswer_clean
    · intro line cs _ hbody
      nomatch hbody
  exact ⟨_, hrun, handled_synced (by decide) hclean (by decide) hrun⟩

/-- The rejected article and the next answer arrive in one chunk. -/
def cutBehind : NntpConnection where
  chunks := [⟨ascii "222 0 <a>\r\n=ybegin size=x\r\nabc\r\n.\r\n430 no\r\n", by decide⟩,
    ⟨ascii "222 0 <a>\r\n=ybegin size=x\r\nabc\r\n.\r\n", by decide⟩]
  eof := false

/-- Rejecting the first article swallows the two answers behind it, and
`handleOne` returns `Ok`. -/
theorem handleOne_cutBehind :
    bytes cutBehind.chunks =
        [rejectedAnswer, missingAnswer, rejectedAnswer].flatMap Answer.wire ∧
      handleOne cutBehind = .ok (.segmentFailed .other, ⟨[], false⟩) ∧
      bytes [] ≠ [missingAnswer, rejectedAnswer].flatMap Answer.wire :=
  ⟨by decide, rfl, by decide⟩

end Nzbd.Engine
