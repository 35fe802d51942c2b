import Nzbd.Nzb.Reader

/-!
# Can every admitted article be requested?

The parser cleans a message-id and the client refuses a bad one, each by rules
of its own.  `elements` reads off a document what the two have to agree on: the
segment elements of every file, with their text as it stands in the document.
Of those the parser keeps one for each number (`kept`), and what it stores is
the kept text without white space and brackets around it (`Outlines.files`).

The parser does not look inside: a line feed, a carriage return or a zero byte
in the middle of an id is stored, and so is white space between the brackets.
The first is refused by `Command.encode`, and with it the whole batch; the second
is stripped, and another id is asked for.  `requestable_iff` says that this is
all that goes wrong.
-/

namespace Nzbd.Nzb

open List Utf8 Nntp
open scoped Xml

/-! ### Segment elements -/

/-- What has been read of the segment elements. -/
structure Outline where
  files : List (List ParsedSegment)
  file : Option (List ParsedSegment)
  segment : Option ParsedSegment
  inSegment : Bool

namespace Outline

def default : Outline where
  files := []
  file := none
  segment := none
  inSegment := false

def addText (o : Outline) (value : Text) : Outline :=
  if o.inSegment then
    { o with segment := o.segment.map fun s => { s with messageId := s.messageId ++ value } }
  else o

def step (o : Outline) : Event → Outline
  | .start name attributes =>
    if name = Nzbd.text "file" then { o with file := some [] }
    else if name = Nzbd.text "segment" then
      { o with segment := some (attributes.foldl segmentAttribute ⟨[], 0, 0⟩), inSegment := true }
    else if name = Nzbd.text "group" ∨ name = Nzbd.text "meta" then { o with inSegment := false }
    else o
  | .text content => o.addText (trim (content.getD []))
  | .stop name =>
    if name = Nzbd.text "file" then { o with files := o.files ++ o.file.toList, file := none }
    else if name = Nzbd.text "segment" then
      { o with file := o.file.map (· ++ o.segment.toList), segment := none, inSegment := false }
    else if name = Nzbd.text "group" ∨ name = Nzbd.text "meta" then { o with inSegment := false }
    else o
  | .generalRef _ => o
  | .other => o

end Outline

/-- The segment elements of every closed file, with the text of each before it is
cleaned. -/
def elements (events : List Event) : List (List ParsedSegment) :=
  (events.foldl Outline.step .default).files

def hasId (e : ParsedSegment) : Bool := bareId e.messageId ≠ []

/-- Of the elements of a file those that are kept: the first of each number that
has an id. -/
def kept (elements : List ParsedSegment) : List ParsedSegment := sortDedup (elements.filter hasId)

/-! ### What the parser stores -/

def pushed (elements : List ParsedSegment) : List ParsedSegment :=
  (elements.filter hasId).map Parser.cleanSegment

theorem sortDedup_pushed (elements : List ParsedSegment) :
    sortDedup (pushed elements) = (kept elements).map Parser.cleanSegment :=
  sortDedup_map (f := Parser.cleanSegment) (fun _ => rfl) _

/-- The parser against the outline of what it has read. -/
structure Outlines (p : Parser) (o : Outline) : Prop where
  files : p.files.map (·.segments) =
    (o.files.map fun els => (kept els).map Parser.cleanSegment).filter (· ≠ [])
  file : p.curFile.map (·.segments) = o.file.map pushed
  segment : p.curSegment = o.segment
  target : p.textTarget = some .segment ↔ o.inSegment = true

theorem segments_foldl_attribute (attributes : List Attribute) (f : OpenFile) :
    (attributes.foldl OpenFile.attribute f).segments = f.segments := by
  induction attributes generalizing f with
  | nil => rfl
  | cons a attributes ih =>
    rw [foldl_cons, ih, OpenFile.attribute]
    split_ifs <;> rfl

theorem Outlines.onStart {p : Parser} {o : Outline} (h : Outlines p o) (lower : Text → Text)
    (name : Text) (attributes : List Attribute) :
    Outlines (p.onStart lower name attributes) (o.step (.start name attributes)) := by
  obtain ⟨hfiles, hfile, hseg, htarget⟩ := h
  rw [Parser.onStart, Outline.step]
  by_cases hnzb : name = text "nzb"
  · subst hnzb
    exact ⟨hfiles, hfile, hseg, htarget⟩
  rw [if_neg hnzb]
  by_cases hf : name = text "file"
  · rw [if_pos hf, if_pos hf]
    refine ⟨hfiles, ?_, hseg, htarget⟩
    exact congrArg some (segments_foldl_attribute attributes .default)
  rw [if_neg hf, if_neg hf]
  by_cases hg : name = text "group"
  · subst hg
    exact ⟨hfiles, hfile, hseg, by simp [text]⟩
  rw [if_neg hg]
  by_cases hs : name = text "segment"
  · rw [if_pos hs, if_pos hs]
    exact ⟨hfiles, hfile, rfl, by simp⟩
  rw [if_neg hs, if_neg hs]
  by_cases hm : name = text "meta"
  · rw [if_pos hm, if_pos (.inr hm)]
    exact ⟨hfiles, hfile, hseg, by simp⟩
  rw [if_neg hm, if_neg (by simp [hg, hm])]
  exact ⟨hfiles, hfile, hseg, htarget⟩

theorem Outlines.onText {p : Parser} {o : Outline} (h : Outlines p o) (content : Option Text) :
    Outlines (p.onText content) (o.addText (trim (content.getD []))) := by
  obtain ⟨hfiles, hfile, hseg, htarget⟩ := h
  rw [Parser.onText]
  generalize trim (content.getD []) = value
  by_cases hv : value = []
  · rw [if_pos hv, Outline.addText, hv]
    refine ⟨?_, ?_, ?_, ?_⟩
    all_goals split_ifs <;> simp [*]
  rw [if_neg hv, Parser.accept]
  cases ht : p.textTarget with
  | none =>
    have ho : ¬ o.inSegment = true := fun hi => (by cases ht.symm.trans (htarget.mpr hi))
    rw [Outline.addText, if_neg ho]
    exact ⟨hfiles, hfile, hseg, by simp [ht, ho]⟩
  | some target =>
    cases target with
    | segment =>
      rw [Outline.addText, if_pos (htarget.mp ht)]
      exact ⟨hfiles, hfile, by rw [← hseg], by simp [htarget.mp ht]⟩
    | group =>
      have ho : ¬ o.inSegment = true := fun hi => (by cases ht.symm.trans (htarget.mpr hi))
      rw [Outline.addText, if_neg ho]
      refine ⟨hfiles, ?_, hseg, by simp [ho]⟩
      rw [← hfile, Option.map_map]
      rfl
    | metadata =>
      have ho : ¬ o.inSegment = true := fun hi => (by cases ht.symm.trans (htarget.mpr hi))
      rw [Outline.addText, if_neg ho, Parser.onMeta]
      split_ifs <;> exact ⟨hfiles, hfile, hseg, by simp [ht, ho]⟩

theorem segments_push (s : ParsedSegment) (f : OpenFile) (els : List ParsedSegment)
    (h : f.segments = pushed els) : (Parser.push s f).segments = pushed (els ++ [s]) := by
  rw [Parser.push, pushed, filter_append, map_append, ← pushed, ← h]
  by_cases hid : bareId s.messageId = []
  · rw [if_pos (show (Parser.cleanSegment s).messageId = [] from hid), filter_cons,
      if_neg (by simpa [hasId] using hid)]
    simp
  · rw [if_neg (show ¬ (Parser.cleanSegment s).messageId = [] from hid), filter_cons,
      if_pos (by simpa [hasId] using hid)]
    rfl

theorem Outlines.onFileEnd {p : Parser} {o : Outline} (h : Outlines p o) :
    Outlines p.onFileEnd { o with files := o.files ++ o.file.toList, file := none } := by
  obtain ⟨hfiles, hfile, hseg, htarget⟩ := h
  rw [Parser.onFileEnd]
  cases hc : p.curFile with
  | none =>
    have ho : o.file = none := by simpa [hc] using hfile.symm
    exact ⟨by simpa [ho] using hfiles, by simp [hc], hseg, htarget⟩
  | some f =>
    obtain ⟨els, ho, hels⟩ : ∃ els, o.file = some els ∧ f.segments = pushed els := by
      rw [hc] at hfile
      obtain ⟨els, ho, he⟩ := Option.map_eq_some_iff.mp hfile.symm
      exact ⟨els, ho, he.symm⟩
    have hclose : f.close.segments = (kept els).map Parser.cleanSegment := by
      rw [← sortDedup_pushed, ← hels]
      rfl
    by_cases hn : f.close.segments = []
    · simp only [hn, if_true]
      refine ⟨?_, rfl, hseg, htarget⟩
      simp [ho, ← hclose, hn, hfiles]
    · simp only [hn, if_false]
      refine ⟨?_, rfl, hseg, htarget⟩
      simp [ho, ← hclose, hn, hfiles]

theorem Outlines.onSegmentEnd {p : Parser} {o : Outline} (h : Outlines p o) :
    Outlines p.onSegmentEnd
      { o with file := o.file.map (· ++ o.segment.toList), segment := none, inSegment := false } := by
  obtain ⟨hfiles, hfile, hseg, htarget⟩ := h
  rw [Parser.onSegmentEnd]
  cases hs : p.curSegment with
  | none =>
    have ho : o.segment = none := by rw [← hseg, hs]
    exact ⟨hfiles, by simpa [ho] using hfile, rfl, by simp⟩
  | some s =>
    have ho : o.segment = some s := by rw [← hseg, hs]
    refine ⟨hfiles, ?_, rfl, by simp⟩
    cases hc : p.curFile with
    | none =>
      have hof : o.file = none := by simpa [hc] using hfile.symm
      simp [hof]
    | some f =>
      rw [hc] at hfile
      obtain ⟨els, hof, he⟩ := Option.map_eq_some_iff.mp hfile.symm
      simp [hof, ho, segments_push s f els he.symm]

theorem Outlines.step {p : Parser} {o : Outline} (h : Outlines p o) (lower : Text → Text)
    (e : Event) : Outlines (p.step lower e) (o.step e) := by
  cases e with
  | start name attributes => exact h.onStart lower name attributes
  | text content => exact h.onText content
  | generalRef name => exact h
  | other => exact h
  | stop name =>
    rw [Parser.step, Parser.onEnd, Outline.step]
    split_ifs
    · exact h.onFileEnd
    · exact h.onSegmentEnd
    · exact ⟨h.files, h.file, h.segment, by simp⟩
    · exact h

theorem outlines_run (lower : Text → Text) (events : List Event) {p : Parser} {o : Outline}
    (h : Outlines p o) : Outlines (events.foldl (Parser.step lower) p) (events.foldl Outline.step o) := by
  induction events generalizing p o with
  | nil => exact h
  | cons e events ih => exact ih (h.step lower e)

theorem outlines_default : Outlines .default .default :=
  ⟨rfl, rfl, rfl, by simp [Parser.default, Outline.default]⟩

/-- **What is stored** is what the kept elements say. -/
theorem mem_stored {ε : Type} {lower : Text → Text} {reader : Reader ε} {input : ByteArray}
    {nzb : ParsedNzb} (h : parse lower reader input = .ok nzb) (id : Text) :
    (∃ f ∈ nzb.files, ∃ s ∈ f.segments, s.messageId = id) ↔
      ∃ els ∈ elements (reader input).1, ∃ e ∈ kept els, bareId e.messageId = id := by
  have hrun := (outlines_run lower (reader input).1 outlines_default).files
  obtain ⟨-, -, rfl⟩ := parse_eq_ok h
  constructor
  · rintro ⟨f, hf, s, hs, rfl⟩
    have hmem : f.segments ∈
        (((reader input).1.foldl (Parser.step lower) .default).files).map (·.segments) :=
      mem_map_of_mem (f := fun f : ParsedFile => f.segments) hf
    rw [hrun, mem_filter] at hmem
    obtain ⟨els, hels, hfs⟩ := mem_map.mp hmem.1
    rw [← hfs] at hs
    obtain ⟨e, he, rfl⟩ := mem_map.mp hs
    exact ⟨els, hels, e, he, rfl⟩
  · rintro ⟨els, hels, e, he, rfl⟩
    have hmem : (kept els).map Parser.cleanSegment ∈
        (((reader input).1.foldl (Parser.step lower) .default).files).map (·.segments) := by
      rw [hrun, mem_filter]
      refine ⟨mem_map_of_mem (f := fun els => (kept els).map Parser.cleanSegment) hels, ?_⟩
      simpa using ne_nil_of_mem he
    obtain ⟨f, hf, hfs⟩ := mem_map.mp hmem
    exact ⟨f, hf, Parser.cleanSegment e, by rw [hfs]; exact mem_map_of_mem he, rfl⟩

/-! ### Requests -/

/-- Every article of an NZB can be asked for, alone and in a batch. -/
structure Requestable (nzb : ParsedNzb) : Prop where
  /-- The request is the line `BODY <id>`. -/
  exact_line : ∀ f ∈ nzb.files, ∀ s ∈ f.segments,
    (Command.body s.messageId).encode = .ok (bodyLine s.messageId)
  /-- Nothing breaks the line before its end. -/
  unbroken : ∀ f ∈ nzb.files, ∀ s ∈ f.segments,
    (Nzbd.text "BODY <" ++ s.messageId ++ Nzbd.text ">").any isBreak = false
  /-- A batch is sent whole. -/
  batch : ∀ segments : List ParsedSegment, (∀ s ∈ segments, ∃ f ∈ nzb.files, s ∈ f.segments) →
    sendPipelined (segments.map fun s => .body s.messageId) =
      .ok (segments.flatMap fun s => bodyLine s.messageId)

/-- The text of a segment element names an article: between the brackets nothing
breaks a line, and no white space stands at either end. -/
def NamesArticle (content : Text) : Prop :=
  (bareId content).any isBreak = false ∧ trim (bareId content) = bareId content

instance (content : Text) : Decidable (NamesArticle content) := instDecidableAnd

theorem bareId_ne_nil_of_mem_kept {els : List ParsedSegment} {e : ParsedSegment}
    (h : e ∈ kept els) : bareId e.messageId ≠ [] := by
  have := (mem_filter.mp (mem_of_mem_sortDedup h)).2
  simpa [hasId] using this

theorem bareId_bareId {content : Text} :
    bareId (bareId content) = bareId content ↔ trim (bareId content) = bareId content := by
  constructor
  · intro h
    have hsub : (bareId content).Sublist (trim (bareId content)) := by
      conv_lhs => rw [← h]
      exact stripBrackets_sublist _
    exact (trim_sublist _).antisymm hsub
  · intro h
    rw [bareId, h]
    exact stripBrackets_idem _

theorem encode_bareId {content : Text} (h : bareId content ≠ []) :
    (Command.body (bareId content)).encode = .ok (bodyLine (bareId content)) ↔
      NamesArticle content := by
  rw [encode_body_exact, bareId_bareId, NamesArticle]
  exact ⟨fun hc => ⟨hc.1, hc.2.2⟩, fun hc => ⟨hc.1, h, hc.2⟩⟩

theorem requestable_of_encode {nzb : ParsedNzb} (h : ∀ f ∈ nzb.files, ∀ s ∈ f.segments,
    (Command.body s.messageId).encode = .ok (bodyLine s.messageId)) : Requestable nzb where
  exact_line := h
  unbroken f hf s hs := bodyLine_unbroken (encode_body_exact.mp (h f hf s hs)).1
  batch segments hsegs := by
    rw [sendPipelined_eq_ok (f := fun c => match c with | .body id => bodyLine id | _ => [])]
    · rw [flatMap_map]
    · intro c hc
      obtain ⟨s, hs, rfl⟩ := mem_map.mp hc
      obtain ⟨f, hf, hsf⟩ := hsegs s hs
      exact h f hf s hsf

/-- **Every admitted article can be requested** exactly when the text of every kept
segment element names one. -/
theorem requestable_iff {ε : Type} {lower : Text → Text} {reader : Reader ε} {input : ByteArray}
    {nzb : ParsedNzb} (h : parse lower reader input = .ok nzb) :
    Requestable nzb ↔
      ∀ els ∈ elements (reader input).1, ∀ e ∈ kept els, NamesArticle e.messageId := by
  constructor
  · intro hr els hels e he
    obtain ⟨f, hf, s, hs, hid⟩ := (mem_stored h (bareId e.messageId)).mpr ⟨els, hels, e, he, rfl⟩
    have henc := hr.exact_line f hf s hs
    rw [hid] at henc
    exact (encode_bareId (bareId_ne_nil_of_mem_kept he)).mp henc
  · intro hn
    refine requestable_of_encode fun f hf s hs => ?_
    obtain ⟨els, hels, e, he, hid⟩ := (mem_stored h s.messageId).mp ⟨f, hf, s, hs, rfl⟩
    rw [← hid]
    exact (encode_bareId (bareId_ne_nil_of_mem_kept he)).mpr (hn els hels e he)

/-! ### Two documents -/

def oneArticle (content : Text) : List Xml.Token :=
  Xml.element (text "nzb") [] <|
    Xml.element (text "file") [(text "subject", text "one.bin")] <|
      Xml.element (text "segment") [(text "bytes", text "100"), (text "number", text "1")]
        [.text content]

theorem oneArticle_content {content : Text} (hne : content ≠ [])
    (h : ∀ c ∈ content, Xml.isRun c = true) : Xml.Content (oneArticle content) := by
  have hattribute : ∀ a ∈ [(text "subject", text "one.bin"), (text "bytes", text "100"),
      (text "number", text "1")], Xml.IsAttribute a := by
    intro a ha
    simp only [mem_cons, not_mem_nil, or_false] at ha
    rcases ha with rfl | rfl | rfl <;> exact ⟨by decide, by decide, by decide⟩
  refine ((((Xml.Content.text hne h).element (by decide)
    ⟨fun a ha => hattribute a ?_, by decide⟩).element (by decide)
    ⟨fun a ha => hattribute a ?_, by decide⟩).element (by decide) (by simp)).toContent
  · exact mem_cons_of_mem _ ha
  · obtain rfl := mem_singleton.mp ha
    exact mem_cons_self

def oneArticleNzb (id : Text) : ParsedNzb where
  title := none
  category := none
  files := [{
    subject := text "one.bin"
    date := none
    segments := [⟨id, 1, 100⟩]
    sorted := by simp }]

theorem parse_oneArticle_good :
    parse toAsciiLowercase xmlReader (List.utf8Encode (Xml.render (oneArticle (text "a@b")))) =
      .ok (oneArticleNzb (text "a@b")) := by
  rw [parse, xmlReader_reads _ (oneArticle_content (by decide) (by decide)).wellFormed]
  rfl

theorem requestable_oneArticle : Requestable (oneArticleNzb (text "a@b")) := by
  refine (requestable_iff parse_oneArticle_good).mpr ?_
  rw [xmlReader_reads _ (oneArticle_content (by decide) (by decide)).wellFormed]
  decide

/-- **A line feed inside an id** is stored, and its request is refused. -/
theorem brokenId_refused :
    ¬ ∀ input nzb, parse toAsciiLowercase xmlReader input = .ok nzb → Requestable nzb := by
  intro h
  have hparse : parse toAsciiLowercase xmlReader
      (List.utf8Encode (Xml.render (oneArticle (text "a\nb")))) =
        .ok (oneArticleNzb (text "a\nb")) := by
    rw [parse, xmlReader_reads _ (oneArticle_content (by decide) (by decide)).wellFormed]
    rfl
  have hline := (h _ _ hparse).exact_line _ (mem_singleton_self _) _
    (mem_singleton_self _)
  have hrefused : (Command.body (text "a\nb")).encode = .error .illegalArgument := by decide
  cases hrefused.symm.trans hline

end Nzbd.Nzb
