import Nzbd.Nntp.Connection

/-!
# Multiline blocks as text

`MultilineReader` keeps the lines of a block, without the dots that were put in front of theirs.
It ends where the scanner ends (`completion_eq`), however the bytes have been cut: seen through
`scanner` the two are one automaton.

Lines that are written to a block with their dots doubled are read from it again, the empty ones
apart (`reads_block`).
-/

namespace Nzbd.Nntp

open List ByteMachine Utf8 Nzbd.Yenc TerminatorScanner

structure MultilineReader where
  content : List UInt8
  atLineStart : Bool
  dot : Dot
  done : Bool

namespace MultilineReader

def new : MultilineReader := ⟨[], true, .none, false⟩

/-- One turn of the loop in `push`. -/
def pushByte (r : MultilineReader) (b : UInt8) : Step MultilineReader Empty :=
  match r.dot with
  | .seen =>
    let r := { r with dot := .none }
    if b = period then .more { r with content := r.content ++ [period], atLineStart := false }
    else if b = cr then .more { r with dot := .seenCr }
    else if b = lf then .done { r with done := true }
    else .more { r with content := r.content ++ [period, b], atLineStart := false }
  | .seenCr =>
    let r := { r with dot := .none }
    if b = lf then .done { r with done := true }
    else .more { r with content := r.content ++ [period, cr] ++ [b], atLineStart := b = lf }
  | .none =>
    if r.atLineStart ∧ b = period then .more { r with dot := .seen }
    else .more { r with content := r.content ++ [b], atLineStart := b = lf }

/-- How many bytes were taken, whether the block is complete, and the reader afterwards. -/
def push (r : MultilineReader) (buf : List UInt8) : Nat × Bool × MultilineReader :=
  if r.done then (0, true, r)
  else
    let f := ByteMachine.feed pushByte r buf
    (f.1, f.2.state.done, f.2.state)

def intoLines (r : MultilineReader) : List (List Char) :=
  ((r.content.splitOn lf).map fun l => fromUtf8Lossy (stripCrlf l)).filter (· ≠ [])

end MultilineReader

/-- Chunks are given to a reader until it says that the block is complete: how many bytes it has
taken, whether it is complete, and the reader afterwards. -/
def pushChunks {σ : Type} (push : σ → List UInt8 → Nat × Bool × σ) :
    σ → List (List UInt8) → Nat × Bool × σ
  | s, [] => (0, false, s)
  | s, c :: cs =>
    match push s c with
    | (n, true, s') => (n, true, s')
    | (n, false, s') =>
      let r := pushChunks push s' cs
      (n + r.1, r.2)

/-- How many bytes were taken as completion was reported. -/
def completion {σ : Type} (push : σ → List UInt8 → Nat × Bool × σ) (s : σ)
    (cs : List (List UInt8)) : Option Nat :=
  let r := pushChunks push s cs
  if r.2.1 then some r.1 else none

/-! ### Chunks -/

section Chunks

variable {σ : Type} {step : σ → UInt8 → Step σ Empty} {push : σ → List UInt8 → Nat × Bool × σ}

theorem pushChunks_eq {P : σ → Prop}
    (hpush : ∀ s buf, P s → push s buf =
      ((feed step s buf).1, !(feed step s buf).2.isMore, (feed step s buf).2.state))
    (hstep : ∀ s b s', P s → step s b = .more s' → P s') {s : σ} (hs : P s)
    (cs : List (List UInt8)) :
    pushChunks push s cs = ((feed step s cs.flatten).1, !(feed step s cs.flatten).2.isMore,
      (feed step s cs.flatten).2.state) := by
  induction cs generalizing s with
  | nil => rfl
  | cons c cs ih =>
    have hkeeps : ∀ {as : List UInt8} {t t' : σ} {n : Nat}, P t → feed step t as = (n, .more t') →
        P t' := by
      intro as
      induction as with
      | nil =>
        intro t t' n ht h
        obtain ⟨-, h⟩ := Prod.mk.inj h
        cases h
        exact ht
      | cons b as ih =>
        intro t t' n ht h
        cases hb : step t b with
        | more u =>
          rw [feed_cons_more hb] at h
          obtain ⟨-, h⟩ := Prod.mk.inj h
          exact ih (hstep t b u ht hb) (Prod.ext rfl h)
        | done u =>
          rw [feed_cons_done hb] at h
          cases h
        | fail e u => exact e.elim
    rw [pushChunks, hpush s c hs, flatten_cons]
    rcases hf : feed step s c with ⟨n, r⟩
    cases r with
    | more t =>
      rw [feed_append_of_more hf, feed_more_length hf]
      simp only [Step.isMore, Bool.not_true, Step.state]
      rw [ih (hkeeps hs hf)]
      rfl
    | done t =>
      rw [feed_append_of_stopped (by rw [hf]; rfl), hf]
      rfl
    | fail e t => exact e.elim

end Chunks

/-! ### The scanner in the reader -/

namespace MultilineReader

def scanner (r : MultilineReader) : TerminatorScanner where
  atLineStart := r.dot = .none && r.atLineStart && !r.done
  dot := r.dot

theorem scanByte_scanner (r : MultilineReader) (hr : r.done = false) (b : UInt8) :
    scanByte r.scanner b = (pushByte r b).map scanner := by
  obtain ⟨content, start, dot, done⟩ := r
  obtain rfl : done = false := hr
  have hcr : ¬lf = cr := by decide
  have hperiod : ¬lf = period := by decide
  cases dot with
  | none =>
    by_cases hdot : start = true ∧ b = period
    · obtain ⟨rfl, rfl⟩ := hdot
      rfl
    · simp [scanByte, pushByte, scanner, hdot]
  | seen =>
    by_cases hp : b = period
    · subst hp
      rfl
    · by_cases hc : b = cr
      · subst hc
        rfl
      · by_cases hl : b = lf
        · subst hl
          simp [scanByte, pushByte, scanner, hcr, hperiod]
        · simp [scanByte, pushByte, scanner, hp, hc, hl]
  | seenCr =>
    by_cases hl : b = lf
    · subst hl
      simp [scanByte, pushByte, scanner]
    · simp [scanByte, pushByte, scanner, hl]

theorem done_pushByte {r : MultilineReader} (hr : r.done = false) (b : UInt8) :
    (pushByte r b).state.done = !(pushByte r b).isMore := by
  unfold pushByte
  cases r.dot with
  | none =>
    simp only
    split_ifs
    · exact hr
    · exact hr
  | seen =>
    simp only
    split_ifs
    · exact hr
    · exact hr
    · rfl
    · exact hr
  | seenCr =>
    simp only
    split_ifs
    · rfl
    · exact hr

theorem done_of_more {r r' : MultilineReader} {b : UInt8} (hr : r.done = false)
    (h : pushByte r b = .more r') : r'.done = false := by
  have hdone := done_pushByte hr b
  rw [h] at hdone
  exact hdone

theorem done_feed {r : MultilineReader} (hr : r.done = false) (buf : List UInt8) :
    (ByteMachine.feed pushByte r buf).2.state.done =
      !(ByteMachine.feed pushByte r buf).2.isMore := by
  induction buf generalizing r with
  | nil => exact hr
  | cons b buf ih =>
    have hdone := done_pushByte hr b
    cases hb : pushByte r b with
    | more r' =>
      rw [feed_cons_more hb]
      exact ih (done_of_more hr hb)
    | done r' =>
      rw [feed_cons_done hb]
      rwa [hb] at hdone
    | fail e r' => exact e.elim

/-- **The scanner takes what the reader takes.** -/
theorem feed_scanner {r : MultilineReader} (hr : r.done = false) (buf : List UInt8) :
    ByteMachine.feed scanByte r.scanner buf =
      ((ByteMachine.feed pushByte r buf).1, (ByteMachine.feed pushByte r buf).2.map scanner) := by
  induction buf generalizing r with
  | nil => rfl
  | cons b buf ih =>
    have hstep := scanByte_scanner r hr b
    cases hb : pushByte r b with
    | more r' =>
      rw [hb] at hstep
      rw [feed_cons_more hstep, feed_cons_more hb, ih (done_of_more hr hb)]
    | done r' =>
      rw [hb] at hstep
      rw [feed_cons_done hstep, feed_cons_done hb]
      rfl
    | fail e r' => exact e.elim

theorem pushChunks_push {r : MultilineReader} (hr : r.done = false) (cs : List (List UInt8)) :
    pushChunks push r cs = ((ByteMachine.feed pushByte r cs.flatten).1,
      !(ByteMachine.feed pushByte r cs.flatten).2.isMore,
      (ByteMachine.feed pushByte r cs.flatten).2.state) := by
  refine pushChunks_eq (P := fun r => r.done = false) (fun r buf hr => ?_)
    (fun r b r' hr hb => done_of_more hr hb) hr cs
  rw [push, if_neg (by simp [hr])]
  simp only [done_feed hr]

end MultilineReader

theorem pushChunks_feed (t : TerminatorScanner) (cs : List (List UInt8)) :
    pushChunks TerminatorScanner.feed t cs = ((ByteMachine.feed scanByte t cs.flatten).1,
      !(ByteMachine.feed scanByte t cs.flatten).2.isMore,
      (ByteMachine.feed scanByte t cs.flatten).2.state) :=
  pushChunks_eq (P := fun _ => True) (fun _ _ _ => rfl) (fun _ _ _ _ _ => trivial) trivial cs

theorem endOf_eq (s : List UInt8) :
    endOf s = if !(ByteMachine.feed scanByte new s).2.isMore then
      some (ByteMachine.feed scanByte new s).1 else none := by
  unfold endOf TerminatorScanner.feed
  simp only
  cases (feed scanByte new s).2.isMore with
  | true => rfl
  | false => rfl

/-- **Both report completion behind the same byte,** however the stream is cut. -/
theorem completion_eq (cs : List (List UInt8)) :
    completion MultilineReader.push .new cs = endOf cs.flatten ∧
      completion TerminatorScanner.feed .new cs = endOf cs.flatten := by
  have hnew : MultilineReader.new.scanner = new := rfl
  have hscan := MultilineReader.feed_scanner (r := .new) rfl cs.flatten
  rw [hnew] at hscan
  constructor
  · unfold completion
    rw [MultilineReader.pushChunks_push rfl, endOf_eq, hscan]
    cases (feed MultilineReader.pushByte .new cs.flatten).2 with
    | more r => rfl
    | done r => rfl
    | fail e r => rfl
  · unfold completion
    rw [pushChunks_feed, endOf_eq]

/-! ### Blocks of text -/

namespace MultilineReader

def crlf : List UInt8 := [cr, lf]

/-- A dot at the start of a line is doubled. -/
def stuffed (l : List UInt8) : List UInt8 := if l.head? = some period then period :: l else l

/-- The lines of a block, up to its end. -/
def block (lines : List (List Char)) : List UInt8 :=
  (lines.flatMap fun l => stuffed (toUtf8 l) ++ crlf) ++ [period] ++ crlf

/-- No byte of a line ends it. -/
def Inside (l : List UInt8) : Prop := cr ∉ l ∧ lf ∉ l

/-- The content up to the start of a line. -/
def atStart (content : List UInt8) : MultilineReader := ⟨content, true, .none, false⟩

theorem feed_plain {l : List UInt8} (hl : lf ∉ l) (content : List UInt8) :
    ByteMachine.feed pushByte ⟨content, false, .none, false⟩ l =
      (l.length, .more ⟨content ++ l, false, .none, false⟩) := by
  induction l generalizing content with
  | nil => simp
  | cons b l ih =>
    have hb : b ≠ lf := fun h => hl (h ▸ mem_cons_self)
    have hstep : pushByte ⟨content, false, .none, false⟩ b =
        .more ⟨content ++ [b], false, .none, false⟩ := by
      simp [pushByte, hb]
    rw [feed_cons_more hstep, ih (fun h => hl (mem_cons_of_mem _ h)), append_assoc]
    rfl

/-- **A line is read as it was written.** -/
theorem feed_stuffed {l : List UInt8} (hl : Inside l) (content : List UInt8) :
    ByteMachine.feed pushByte (atStart content) (stuffed l ++ crlf) =
      ((stuffed l ++ crlf).length, .more (atStart (content ++ l ++ crlf))) := by
  have hend (content : List UInt8) (start : Bool) :
      feed pushByte ⟨content, start, .none, false⟩ crlf =
        (2, .more (atStart (content ++ crlf))) := by
    have hcr : pushByte ⟨content, start, .none, false⟩ cr =
        .more ⟨content ++ [cr], false, .none, false⟩ := by
      have hne : ¬cr = period := by decide
      simp [pushByte, hne]
      decide
    have hlf : pushByte ⟨content ++ [cr], false, .none, false⟩ lf =
        .more ⟨content ++ [cr] ++ [lf], true, .none, false⟩ := rfl
    rw [crlf, feed_cons_more hcr, feed_cons_more hlf, append_assoc]
    rfl
  cases l with
  | nil => exact (hend content true).trans (by rw [append_nil]; rfl)
  | cons b l =>
    have hin : lf ∉ l := fun h => hl.2 (mem_cons_of_mem _ h)
    have hbody : feed pushByte (atStart content) (stuffed (b :: l)) =
        ((stuffed (b :: l)).length, .more ⟨content ++ b :: l, false, .none, false⟩) := by
      by_cases hb : b = period
      · subst hb
        have hfirst : pushByte (atStart content) period = .more ⟨content, true, .seen, false⟩ := rfl
        have hsecond : pushByte ⟨content, true, .seen, false⟩ period =
            .more ⟨content ++ [period], false, .none, false⟩ := rfl
        have hstuffed : stuffed (period :: l) = period :: period :: l := if_pos rfl
        rw [hstuffed, feed_cons_more hfirst, feed_cons_more hsecond, feed_plain hin,
          append_assoc]
        rfl
      · have hfirst : pushByte (atStart content) b =
            .more ⟨content ++ [b], false, .none, false⟩ := by
          have hlf : b ≠ lf := fun h => hl.2 (h ▸ mem_cons_self)
          simp [pushByte, atStart, hb, hlf]
        rw [stuffed, if_neg (by simpa using hb), feed_cons_more hfirst, feed_plain hin,
          append_assoc]
        rfl
    rw [feed_append_of_more hbody, hend, length_append]
    rfl

theorem feed_lines (lines : List (List Char)) (hlines : ∀ l ∈ lines, Inside (toUtf8 l))
    (content : List UInt8) :
    ByteMachine.feed pushByte (atStart content)
        (lines.flatMap fun l => stuffed (toUtf8 l) ++ crlf) =
      ((lines.flatMap fun l => stuffed (toUtf8 l) ++ crlf).length,
        .more (atStart (content ++ lines.flatMap fun l => toUtf8 l ++ crlf))) := by
  induction lines generalizing content with
  | nil => simp
  | cons l lines ih =>
    rw [flatMap_cons, flatMap_cons,
      feed_append_of_more (feed_stuffed (hlines l mem_cons_self) content),
      ih (fun l' h => hlines l' (mem_cons_of_mem _ h))]
    simp only [append_assoc, length_append, Nat.add_assoc]

/-- **The block is read up to its end.** -/
theorem feed_block (lines : List (List Char)) (hlines : ∀ l ∈ lines, Inside (toUtf8 l))
    (rest : List UInt8) :
    ∃ r, ByteMachine.feed pushByte new (block lines ++ rest) = ((block lines).length, .done r) ∧
      r.content = lines.flatMap fun l => toUtf8 l ++ crlf := by
  have hread := feed_lines lines hlines []
  rw [nil_append] at hread
  have hend (content : List UInt8) :
      feed pushByte (atStart content) ([period] ++ crlf ++ rest) =
        (3, .done ⟨content, true, .none, true⟩) := by
    have hfirst : pushByte (atStart content) period = .more ⟨content, true, .seen, false⟩ := rfl
    have hsecond : pushByte ⟨content, true, .seen, false⟩ cr =
        .more ⟨content, true, .seenCr, false⟩ := rfl
    have hthird : pushByte ⟨content, true, .seenCr, false⟩ lf =
        .done ⟨content, true, .none, true⟩ := rfl
    show feed pushByte (atStart content) (period :: cr :: lf :: rest) = _
    rw [feed_cons_more hfirst, feed_cons_more hsecond, feed_cons_done hthird]
  refine ⟨⟨lines.flatMap fun l => toUtf8 l ++ crlf, true, .none, true⟩, ?_, rfl⟩
  have hblock : block lines ++ rest =
      (lines.flatMap fun l => stuffed (toUtf8 l) ++ crlf) ++ ([period] ++ crlf ++ rest) := by
    rw [block, append_assoc, append_assoc, append_assoc]
  rw [hblock, show new = atStart [] from rfl, feed_append_of_more hread, hend, block,
    append_assoc, length_append]
  rfl

/-! ### Lines of the content -/

theorem inside_toUtf8 {l : List Char} (h : '\r' ∉ l ∧ '\n' ∉ l) : Inside (toUtf8 l) :=
  ⟨fun hmem => h.1 (mem_of_mem_toUtf8 hmem (by decide) rfl),
    fun hmem => h.2 (mem_of_mem_toUtf8 hmem (by decide) rfl)⟩

theorem stripCrlf_line {l : List UInt8} (hl : Inside l) : stripCrlf (l ++ [cr]) = l := by
  unfold stripCrlf
  rw [reverse_append, reverse_singleton, singleton_append,
    dropWhile_cons_of_pos (by decide)]
  cases hr : l.reverse with
  | nil => rw [reverse_eq_nil_iff.mp hr]; rfl
  | cons b t =>
    have hmem : b ∈ l := mem_reverse.mp (hr ▸ mem_cons_self)
    have hcr : b ≠ cr := fun h => hl.1 (h ▸ hmem)
    have hlf : b ≠ lf := fun h => hl.2 (h ▸ hmem)
    rw [dropWhile_cons_of_neg (by simp [hcr, hlf]), ← hr, reverse_reverse]

theorem splitOn_lines (lines : List (List Char)) (hlines : ∀ l ∈ lines, Inside (toUtf8 l)) :
    (lines.flatMap fun l => toUtf8 l ++ crlf).splitOn lf =
      (lines.map fun l => toUtf8 l ++ [cr]) ++ [[]] := by
  induction lines with
  | nil => rfl
  | cons l lines ih =>
    have hfirst : ∀ b ∈ toUtf8 l ++ [cr], (b == lf) = false := by
      intro b hb
      rcases mem_append.mp hb with hb | hb
      · have hne : b ≠ lf := fun h => (hlines l mem_cons_self).2 (h ▸ hb)
        simpa using hne
      · rw [mem_singleton.mp hb]
        decide
    have hcons : ((l :: lines).flatMap fun l => toUtf8 l ++ crlf) =
        (toUtf8 l ++ [cr]) ++ lf :: lines.flatMap fun l => toUtf8 l ++ crlf := by
      rw [flatMap_cons, crlf, append_assoc, append_assoc]
      rfl
    rw [hcons, splitOn_eq_splitOnP,
      splitOnP_append_cons_of_forall_mem hfirst lf (by decide), ← splitOn_eq_splitOnP,
      ih fun l' h => hlines l' (mem_cons_of_mem _ h)]
    rfl

theorem intoLines_block {lines : List (List Char)} (hlines : ∀ l ∈ lines, Inside (toUtf8 l))
    {r : MultilineReader} (hr : r.content = lines.flatMap fun l => toUtf8 l ++ crlf) :
    r.intoLines = lines.filter (· ≠ []) := by
  have hpieces : (lines.map fun l => fromUtf8Lossy (stripCrlf (toUtf8 l ++ [cr]))) = lines := by
    refine (map_congr_left fun l hl => ?_).trans lines.map_id'
    rw [stripCrlf_line (hlines l hl), fromUtf8Lossy_toUtf8]
  have hlast : fromUtf8Lossy (stripCrlf []) = [] := by decide
  unfold intoLines
  rw [hr, splitOn_lines lines hlines, map_append, map_map]
  simp only [Function.comp_def, hpieces, filter_append, map_cons, map_nil, hlast]
  simp

/-- **The reader ends where the scanner does, and reads the lines that were written.** -/
theorem reads_block :
    (∀ cs, completion push new cs = endOf cs.flatten ∧
      completion TerminatorScanner.feed .new cs = endOf cs.flatten) ∧
    ∀ lines : List (List Char), (∀ l ∈ lines, '\r' ∉ l ∧ '\n' ∉ l) → ∀ rest cs,
      cs.flatten = block lines ++ rest → ∃ r,
        pushChunks push new cs = ((block lines).length, true, r) ∧
        r.content = (lines.flatMap fun l => toUtf8 l ++ crlf) ∧
        r.intoLines = lines.filter (· ≠ []) := by
  refine ⟨completion_eq, fun lines hlines rest cs hcs => ?_⟩
  have hin : ∀ l ∈ lines, Inside (toUtf8 l) := fun l hl => inside_toUtf8 (hlines l hl)
  obtain ⟨r, hfeed, hcontent⟩ := feed_block lines hin rest
  refine ⟨r, ?_, hcontent, intoLines_block hin hcontent⟩
  rw [pushChunks_push rfl, hcs, hfeed]
  rfl

/-- A line that is one dot, and one that is empty, in one piece with what follows. -/
theorem reads_block_dot : ∃ r,
    pushChunks push new [block [['.'], [], ['a']] ++ [0x32]] = (12, true, r) ∧
      r.intoLines = [['.'], ['a']] := by
  obtain ⟨r, hr, -, hlines⟩ := reads_block.2 [['.'], [], ['a']] (by decide) [0x32]
    [block [['.'], [], ['a']] ++ [0x32]] flatten_singleton
  exact ⟨r, hr, hlines⟩

/-- An empty line is not given back. -/
theorem empty_line_dropped :
    ((pushChunks push new [block [[]]]).2.1 = true) ∧
      (pushChunks push new [block [[]]]).2.2.intoLines ≠ [[]] := by
  decide

end MultilineReader

end Nzbd.Nntp
