import Nzbd.Nntp.Terminator

/-!
# A connection as the chunks it will deliver

A connection is read through a buffer that shows the bytes that are there;
`consume` drops some of them, and a new chunk is fetched when the buffer has
become empty.  What a reader can see of the peer is therefore a list of
non-empty chunks and what comes behind the last of them, the end of the stream
or a read that fails.

`drainBody` swallows a data block from wherever the connection stands, with a
scanner that starts out at the beginning of a line.  `drain_ok` reads it off the
scanner, and `lineStart_resume` says when starting the scanner in the middle
of a block does no harm.
-/

namespace Nzbd.Nntp

open ByteMachine Utf8 Nzbd.Yenc TerminatorScanner

inductive TransportError
  | closed
  | timeout (what : String)
  | malformedResponse
  /-- A response line that is not UTF-8. -/
  | invalidData
  | authRejected (code : Nat) (text : List Char)

/-- A read that delivered something. -/
abbrev Chunk := { c : List UInt8 // c ≠ [] }

structure NntpConnection where
  chunks : List Chunk
  /-- Behind the last chunk the peer closes the stream; else nothing arrives
  within the read timeout. -/
  eof : Bool

namespace NntpConnection

/-- Everything the connection will deliver. -/
def bytes (cs : List Chunk) : List UInt8 := (cs.map Subtype.val).flatten

@[simp] theorem bytes_nil : bytes [] = [] := rfl

@[simp] theorem bytes_cons (c : Chunk) (cs : List Chunk) : bytes (c :: cs) = c.1 ++ bytes cs := rfl

/-- Put bytes that were not consumed back in front. -/
def unread (rest : List UInt8) (cs : List Chunk) : List Chunk :=
  if h : rest ≠ [] then ⟨rest, h⟩ :: cs else cs

@[simp] theorem bytes_unread (rest : List UInt8) (cs : List Chunk) :
    bytes (unread rest cs) = rest ++ bytes cs := by
  unfold unread
  split_ifs with h
  · rfl
  · rw [not_not.mp h]
    rfl

def consume (n : Nat) : List Chunk → List Chunk
  | [] => []
  | c :: cs => unread (c.1.drop n) cs

/-- What a read says when no chunk is left: an empty one at the end of the
stream, or an error. -/
def atEnd (eof : Bool) (what : String) : TransportError :=
  if eof then .closed else .timeout what

/-! ### Response lines -/

/-- Read up to and including a line feed, or to the end of the stream. -/
def readUntil (eof : Bool) : List Chunk → Except TransportError (List UInt8 × List Chunk)
  | [] => if eof then .ok ([], []) else .error (.timeout "response")
  | c :: cs =>
    if lf ∈ c.1 then
      .ok (c.1.takeWhile (· != lf) ++ [lf], unread ((c.1.dropWhile (· != lf)).drop 1) cs)
    else
      match readUntil eof cs with
      | .ok (l, rest) => .ok (c.1 ++ l, rest)
      | .error e => .error e

end NntpConnection

structure Response where
  code : Nat
  text : List Char

def stripCrlf (line : List UInt8) : List UInt8 := 
  (line.reverse.dropWhile fun b => b == cr || b == lf).reverse

def isAsciiDigit (b : UInt8) : Bool := 0x30 ≤ b && b ≤ 0x39

/-- A response line: three digits, a separator and a text. -/
def Response.parse (line : List UInt8) : Except TransportError Response :=
  let line := stripCrlf line
  match line with
  | a :: b :: c :: rest =>
    if isAsciiDigit a && isAsciiDigit b && isAsciiDigit c then
      .ok {
        code := (a.toNat - 48) * 100 + (b.toNat - 48) * 10 + (c.toNat - 48)
        text := fromUtf8Lossy (rest.drop 1) }
    else .error .malformedResponse
  | _ => .error .malformedResponse

def bodyFollows : Nat := 222

def authRequired : Nat := 480

/-- The article does not exist on this server. -/
def Response.isArticleMissing (r : Response) : Bool := r.code ∈ [430, 420, 423, 421, 422]

namespace NntpConnection

def readResponse (conn : NntpConnection) : Except TransportError (Response × NntpConnection) :=
  match readUntil conn.eof conn.chunks with
  | .error e => .error e
  | .ok (line, rest) =>
    match fromUtf8 line with
    | none => .error .invalidData
    | some _ =>
      if line = [] then .error .closed
      else
        match Response.parse line with
        | .error e => .error e
        | .ok r => .ok (r, { conn with chunks := rest })

/-! ### Draining a data block -/

/-- The loop of `drainBody`.  A scanner that is not done has taken the whole
chunk. -/
def drain (eof : Bool) (t : TerminatorScanner) : List Chunk → Except TransportError (List Chunk)
  | [] => .error (atEnd eof "body")
  | c :: cs =>
    match t.feed c.1 with
    | (n, true, _) => .ok (consume n (c :: cs))
    | (_, false, t') => drain eof t' cs

def drainBody (conn : NntpConnection) : Except TransportError NntpConnection :=
  match drain conn.eof .new conn.chunks with
  | .ok cs => .ok { conn with chunks := cs }
  | .error e => .error e

/-! ### Lines -/

theorem line_unique {l x rest y : List UInt8} (hl : lf ∉ l) (hx : lf ∉ x)
    (h : l ++ lf :: rest = x ++ lf :: y) : l = x ∧ rest = y := by
  have htake : ∀ (u v : List UInt8), lf ∉ u → (u ++ lf :: v).takeWhile (· != lf) = u := by
    intro u v hu
    have hpos : ∀ b ∈ u, (b != lf) = true := fun b hb =>
      bne_iff_ne.mpr fun hb' => hu (hb' ▸ hb)
    rw [List.takeWhile_append_of_pos hpos]
    simp
  have hlx : l = x := by
    rw [← htake l rest hl, h, htake x y hx]
  subst hlx
  exact ⟨rfl, (List.cons.inj (List.append_cancel_left h)).2⟩

/-- **A status line is read exactly**, however it is cut. -/
theorem readUntil_line (eof : Bool) {l rest : List UInt8} (hl : lf ∉ l) {cs : List Chunk}
    (hcs : bytes cs = l ++ lf :: rest) :
    ∃ cs', readUntil eof cs = .ok (l ++ [lf], cs') ∧ bytes cs' = rest := by
  induction cs generalizing l with
  | nil => simp at hcs
  | cons c cs ih =>
    rw [bytes_cons] at hcs
    by_cases hc : lf ∈ c.1
    · -- the line ends in this chunk
      obtain ⟨x, y, hxy, hx⟩ := List.eq_append_cons_of_mem hc
      have hpos : ∀ b ∈ x, (b != lf) = true := fun b hb =>
        bne_iff_ne.mpr fun hb' => hx (hb' ▸ hb)
      obtain ⟨rfl, rfl⟩ := line_unique (y := y ++ bytes cs) hl hx (by rw [← hcs, hxy]; simp)
      refine ⟨unread y cs, ?_, bytes_unread y cs⟩
      rw [readUntil, if_pos hc, hxy, List.takeWhile_append_of_pos hpos,
        List.dropWhile_append_of_pos hpos]
      simp
    · rcases List.append_eq_append_iff.mp hcs with ⟨l', rfl, hrest⟩ | ⟨c', hc', hrest⟩
      · obtain ⟨cs', hread, hbytes⟩ := ih (fun h => hl (by simp [h])) hrest
        refine ⟨cs', ?_, hbytes⟩
        rw [readUntil, if_neg hc, hread]
        simp
      · cases c' with
        | nil =>
          rw [List.append_nil] at hc'
          obtain ⟨cs', hread, hbytes⟩ := ih (l := []) (by simp) hrest.symm
          refine ⟨cs', ?_, hbytes⟩
          rw [readUntil, if_neg hc, hread, hc']
          simp
        | cons b c' =>
          have hb : b = lf := (List.cons.inj hrest).1.symm
          exact absurd (by rw [hc', hb]; simp) hc

/-! ### The drain read off the scanner -/

theorem drain_ok {eof : Bool} {t : TerminatorScanner} {cs rest : List Chunk}
    (h : drain eof t cs = .ok rest) :
    ∃ n t', ByteMachine.feed scanByte t (bytes cs) = (n, .done t') ∧
      bytes rest = (bytes cs).drop n := by
  induction cs generalizing t with
  | nil => nomatch h
  | cons c cs ih =>
    rw [drain, TerminatorScanner.feed] at h
    rw [bytes_cons]
    rcases hf : feed scanByte t c.1 with ⟨n, r⟩
    rw [hf] at h
    cases r with
    | fail e u => exact e.elim
    | done u =>
      have hle : n ≤ c.1.length := by
        have : (feed scanByte t c.1).1 ≤ c.1.length := feed_fst_le_length _ _
        rwa [hf] at this
      cases h
      refine ⟨n, u, ?_, ?_⟩
      · rw [feed_append_of_stopped (by rw [hf]; rfl), hf]
      · rw [consume, bytes_unread, List.drop_append_of_le_length hle]
    | more u =>
      obtain ⟨m, t', hm, hrest⟩ := ih (t := u) h
      refine ⟨c.1.length + m, t', ?_, ?_⟩
      · rw [feed_append_of_more hf, hm]
      · rw [hrest, List.drop_length_add_append]

end NntpConnection

/-! ### Starting in the middle of a block -/

theorem scanByte_lf_more {t t' : TerminatorScanner} (h : scanByte t lf = .more t') : t' = new := by
  unfold scanByte at h
  cases hdot : t.dot <;> rw [hdot] at h
  case none =>
    dsimp only at h
    rw [if_neg (fun h => absurd h.2 (by decide))] at h
    cases h
    rfl
  case seen => nomatch h
  case seenCr => nomatch h

theorem feed_inLine {l : List UInt8} (hl : lf ∉ l) :
    ByteMachine.feed scanByte new l = (l.length, .more (inLine l)) := by
  induction l using List.reverseRecOn with
  | nil => rfl
  | append_singleton l b ih =>
    have hb : b ≠ lf := fun h => hl (by simp [h])
    rw [feed_append_of_more (ih fun h => hl (by simp [h])), feed_cons_more (scanByte_inLine hb l)]
    simp

/-- **A fresh scanner may start in the middle of a block**, unless what is left
of the line it starts in looks like a terminator. -/
theorem lineStart_resume {p q : List UInt8} (h : LineStart (p ++ q))
    (hcut : LineStart p ∨ ∀ t, Terminator t → ¬ t <+: q) : LineStart q := by
  obtain ⟨t, hp, hq⟩ := feed_more_split h
  rcases hcut with hline | hcut
  · rw [LineStart, hp] at hline
    cases hline
    exact hq
  by_cases hne : q = []
  · subst hne
    rfl
  -- the rest of the line that was cut, and the lines behind it
  have hmem : lf ∈ q := by
    obtain ⟨s', b, rfl⟩ := (List.eq_nil_or_concat q).resolve_left hne
    rw [List.concat_eq_append] at hq ⊢
    obtain ⟨u, -, hb⟩ := feed_concat_more hq
    rw [scanByte_more_new hb]
    simp
  obtain ⟨l, q', rfl, hl⟩ := List.eq_append_cons_of_mem hmem
  have hchomp : chomp l ≠ [period] := by
    intro hc
    have hterm : Terminator (l ++ [lf]) := by
      rcases chomp_eq_period hc with rfl | rfl
      · exact .inl rfl
      · exact .inr rfl
    exact hcut _ hterm ⟨q', by simp⟩
  rw [← List.singleton_append, ← List.append_assoc] at hq ⊢
  obtain ⟨u, hu, hq'⟩ := feed_more_split hq
  obtain ⟨v, -, hv⟩ := feed_concat_more hu
  obtain rfl := scanByte_lf_more hv
  have hfresh : feed scanByte new (l ++ [lf]) = ((l ++ [lf]).length, .more new) := by
    have hstep : scanByte (inLine l) lf = .more new := by
      rw [scanByte_inLine_lf, if_neg hchomp]
    rw [feed_append_of_more (feed_inLine hl), feed_cons_more hstep]
    simp
  rw [LineStart, feed_append_of_more hfresh, hq', ← List.length_append]

end Nzbd.Nntp
