import Nzbd.Nntp.Command
import Mathlib.Data.List.Destutter

/-!
# Reading an NZB

The parser takes the events of an XML reader one by one.  A start tag opens a
file, a segment or a target for text; text goes to the open target, trimmed, and
blank text is dropped; an end tag closes.  Entity references in text are events
of their own, and the parser has no case for them.

The XML reader is a parameter: for every input the events it delivers, and the
error that ended them if one did.  Element and attribute names are local names,
attribute values are normalised and text is decoded, each by the reader; a value
the reader could not produce is `none`.

A closed file has its segments sorted by number, one for each number
(`sortDedup_sorted`), and never none of them.  `Stored` says what else holds of
the articles an accepted document leaves behind.
-/

namespace Nzbd.Nzb

open List Utf8 Nntp

/-! ### Events -/

structure Attribute where
  key : Text
  value : Option Text

def Attribute.val (a : Attribute) : Text := a.value.getD []

inductive Event
  | start (name : Text) (attributes : List Attribute)
  | stop (name : Text)
  | text (content : Option Text)
  /-- `&name;` in text. -/
  | generalRef (name : Text)
  /-- Empty elements, comments, declarations and the rest. -/
  | other

inductive NzbError (ε : Type)
  | xml (error : ε)
  | notNzb
  | empty

/-! ### Segments -/

def sortByNumber (segments : List ParsedSegment) : List ParsedSegment :=
  segments.insertionSort fun a b => a.number ≤ b.number

/-- Of neighbours with one number the first stays. -/
def dedupByNumber (segments : List ParsedSegment) : List ParsedSegment :=
  segments.destutter fun a b => a.number ≠ b.number

def sortDedup (segments : List ParsedSegment) : List ParsedSegment :=
  dedupByNumber (sortByNumber segments)

theorem sortByNumber_pairwise (segments : List ParsedSegment) :
    (sortByNumber segments).Pairwise fun a b => a.number ≤ b.number := by
  have : Std.Total fun a b : ParsedSegment => a.number ≤ b.number :=
    ⟨fun a b => Nat.le_total a.number b.number⟩
  have : IsTrans ParsedSegment fun a b => a.number ≤ b.number :=
    ⟨fun _ _ _ h h' => Nat.le_trans h h'⟩
  exact pairwise_insertionSort _ segments

theorem sortDedup_sorted (segments : List ParsedSegment) :
    ((sortDedup segments).map (·.number)).Pairwise (· < ·) := by
  rw [pairwise_map]
  have hle : (sortDedup segments).Pairwise fun a b => a.number ≤ b.number :=
    (sortByNumber_pairwise segments).sublist (destutter_sublist _ _)
  have hne : (sortDedup segments).IsChain fun a b => a.number ≠ b.number :=
    isChain_destutter _ _
  have : IsTrans ParsedSegment fun a b => a.number < b.number :=
    ⟨fun _ _ _ h h' => Nat.lt_trans h h'⟩
  refine isChain_iff_pairwise.mp (isChain_iff_getElem.mpr fun i hi => ?_)
  exact Nat.lt_of_le_of_ne (isChain_iff_getElem.mp hle.isChain i hi)
    (isChain_iff_getElem.mp hne i hi)

theorem sortDedup_eq_self {segments : List ParsedSegment}
    (h : (segments.map (·.number)).Pairwise (· < ·)) : sortDedup segments = segments := by
  rw [pairwise_map] at h
  rw [sortDedup, sortByNumber,
    List.Pairwise.insertionSort_eq (h.imp fun hlt => Nat.le_of_lt hlt)]
  exact destutter_of_isChain _ _ (h.imp fun hlt => Nat.ne_of_lt hlt).isChain

theorem mem_of_mem_sortDedup {segments : List ParsedSegment} {s : ParsedSegment}
    (h : s ∈ sortDedup segments) : s ∈ segments :=
  (mem_insertionSort _).mp ((destutter_sublist _ _).subset h)

theorem sortDedup_map {f : ParsedSegment → ParsedSegment} (hf : ∀ s, (f s).number = s.number)
    (segments : List ParsedSegment) : sortDedup (segments.map f) = (sortDedup segments).map f := by
  have hsort : (sortByNumber segments).map f = sortByNumber (segments.map f) := by
    refine map_insertionSort _ _ f segments fun a _ b _ => ?_
    rw [hf, hf]
  have hdedup : (dedupByNumber (sortByNumber segments)).map f =
      dedupByNumber ((sortByNumber segments).map f) := by
    refine map_destutter fun a _ b _ => ?_
    rw [hf, hf]
  rw [sortDedup, sortDedup, hdedup, hsort]

/-! ### The state of the parser -/

inductive TextTarget
  | group
  | segment
  | metadata

/-- A file whose end tag has not been read. -/
structure OpenFile where
  subject : Text
  poster : Option Text
  date : Option Int
  groups : List Text
  segments : List ParsedSegment

def OpenFile.default : OpenFile where
  subject := []
  poster := none
  date := none
  groups := []
  segments := []

def OpenFile.close (f : OpenFile) : ParsedFile where
  subject := f.subject
  poster := f.poster
  date := f.date
  groups := f.groups
  segments := sortDedup f.segments
  sorted := sortDedup_sorted f.segments

structure Parser where
  title : Option Text
  password : Option Text
  category : Option Text
  files : List ParsedFile
  sawRoot : Bool
  curFile : Option OpenFile
  curSegment : Option ParsedSegment
  textTarget : Option TextTarget
  metaType : Option Text

def Parser.default : Parser where
  title := none
  password := none
  category := none
  files := []
  sawRoot := false
  curFile := none
  curSegment := none
  textTarget := none
  metaType := none

/-! ### Start tags -/

def OpenFile.attribute (f : OpenFile) (a : Attribute) : OpenFile :=
  if a.key = Nzbd.text "subject" then { f with subject := a.val }
  else if a.key = Nzbd.text "poster" then { f with poster := some a.val }
  else if a.key = Nzbd.text "date" then
    { f with date := Numeral.fromStrSigned (2 ^ 63) (trim a.val) }
  else f

def segmentAttribute (s : ParsedSegment) (a : Attribute) : ParsedSegment :=
  if a.key = Nzbd.text "bytes" then
    { s with bytes := (Numeral.fromStrRadix 10 (2 ^ 64) (trim a.val)).getD 0 }
  else if a.key = Nzbd.text "number" then
    { s with number := (Numeral.fromStrRadix 10 (2 ^ 32) (trim a.val)).getD 0 }
  else s

namespace Parser

def onStart (lower : Text → Text) (p : Parser) (name : Text) (attributes : List Attribute) :
    Parser :=
  if name = Nzbd.text "nzb" then { p with sawRoot := true }
  else if name = Nzbd.text "file" then
    { p with curFile := some (attributes.foldl OpenFile.attribute .default) }
  else if name = Nzbd.text "group" then { p with textTarget := some .group }
  else if name = Nzbd.text "segment" then
    { p with
      curSegment := some (attributes.foldl segmentAttribute ⟨[], 0, 0⟩)
      textTarget := some .segment }
  else if name = Nzbd.text "meta" then
    { p with
      metaType := (attributes.find? (·.key = Nzbd.text "type")).map fun a => lower a.val
      textTarget := some .metadata }
  else p

/-! ### Text -/

def onMeta (p : Parser) (value : Text) : Parser :=
  if p.metaType = some (Nzbd.text "password") then { p with password := some value }
  else if p.metaType = some (Nzbd.text "category") then { p with category := some value }
  else if p.metaType = some (Nzbd.text "title") ∨ p.metaType = some (Nzbd.text "name") then
    { p with title := some value }
  else p

/-- Text that is not blank, at the target that is open. -/
def accept (p : Parser) (value : Text) : Parser :=
  match p.textTarget with
  | none => p
  | some .group =>
    { p with curFile := p.curFile.map fun f => { f with groups := f.groups ++ [value] } }
  | some .segment =>
    { p with curSegment := p.curSegment.map fun s => { s with messageId := s.messageId ++ value } }
  | some .metadata => p.onMeta value

def onText (p : Parser) (content : Option Text) : Parser :=
  if trim (content.getD []) = [] then p else p.accept (trim (content.getD []))

/-! ### End tags -/

def onFileEnd (p : Parser) : Parser :=
  match p.curFile with
  | none => p
  | some f =>
    if f.close.segments = [] then { p with curFile := none }
    else { p with curFile := none, files := p.files ++ [f.close] }

/-- An id without white space and brackets around it. -/
def cleanSegment (s : ParsedSegment) : ParsedSegment := { s with messageId := bareId s.messageId }

def push (s : ParsedSegment) (f : OpenFile) : OpenFile :=
  if (cleanSegment s).messageId = [] then f
  else { f with segments := f.segments ++ [cleanSegment s] }

def onSegmentEnd (p : Parser) : Parser :=
  match p.curSegment with
  | none => { p with textTarget := none }
  | some s =>
    { p with curSegment := none, textTarget := none, curFile := p.curFile.map (push s) }

def onEnd (p : Parser) (name : Text) : Parser :=
  if name = Nzbd.text "file" then p.onFileEnd
  else if name = Nzbd.text "segment" then p.onSegmentEnd
  else if name = Nzbd.text "group" ∨ name = Nzbd.text "meta" then { p with textTarget := none }
  else p

/-! ### The loop -/

def step (lower : Text → Text) (p : Parser) : Event → Parser
  | .start name attributes => p.onStart lower name attributes
  | .stop name => p.onEnd name
  | .text content => p.onText content
  | .generalRef _ => p
  | .other => p

def nzb (p : Parser) : ParsedNzb where
  title := p.title
  password := p.password
  category := p.category
  files := p.files

end Parser

/-- An XML reader: the events of an input, and the error that ended them. -/
abbrev Reader (ε : Type) := ByteArray → List Event × Option ε

def parse {ε : Type} (lower : Text → Text) (reader : Reader ε) (input : ByteArray) :
    Except (NzbError ε) ParsedNzb :=
  match (reader input).2 with
  | some e => .error (.xml e)
  | none =>
    let p := (reader input).1.foldl (Parser.step lower) .default
    if p.sawRoot = false then .error .notNzb
    else if p.files = [] then .error .empty
    else .ok p.nzb

theorem parse_eq_ok {ε : Type} {lower : Text → Text} {reader : Reader ε} {input : ByteArray}
    {nzb : ParsedNzb} (h : parse lower reader input = .ok nzb) :
    (reader input).2 = none ∧ nzb.files ≠ [] ∧
      nzb = ((reader input).1.foldl (Parser.step lower) .default).nzb := by
  rw [parse] at h
  cases he : (reader input).2 with
  | some e => simp [he] at h
  | none =>
    simp only [he] at h
    split_ifs at h with hr hf
    obtain rfl := Except.ok.inj h
    exact ⟨rfl, hf, rfl⟩

/-! ### What is stored -/

/-- The ranges of the machine types an article and its file are kept in. -/
structure InRange (date : Option Int) (segments : List ParsedSegment) : Prop where
  numbers : ∀ s ∈ segments, s.number < 2 ^ 32
  date : ∀ d, date = some d → Numeral.Signed (2 ^ 63) d

/-- What holds of every file the parser lets through. -/
structure Stored (f : ParsedFile) : Prop extends InRange f.date f.segments where
  ne_nil : f.segments ≠ []

/-- What holds of the parser at every event. -/
structure Parser.Sound (p : Parser) : Prop where
  files : ∀ f ∈ p.files, Stored f
  curFile : ∀ f, p.curFile = some f → InRange f.date f.segments
  curSegment : ∀ s, p.curSegment = some s → s.number < 2 ^ 32

theorem foldl_segmentAttribute_lt (attributes : List Attribute) {s : ParsedSegment}
    (h : s.number < 2 ^ 32) : (attributes.foldl segmentAttribute s).number < 2 ^ 32 := by
  induction attributes generalizing s with
  | nil => exact h
  | cons a attributes ih =>
    refine ih ?_
    rw [segmentAttribute]
    split_ifs
    · exact h
    · cases hn : Numeral.fromStrRadix 10 (2 ^ 32) (trim a.val) with
      | none => simp
      | some n => exact Numeral.fromStrRadix_lt hn
    · exact h

theorem foldl_attribute_inRange (attributes : List Attribute) {f : OpenFile}
    (h : InRange f.date f.segments) :
    InRange (attributes.foldl OpenFile.attribute f).date
      (attributes.foldl OpenFile.attribute f).segments := by
  induction attributes generalizing f with
  | nil => exact h
  | cons a attributes ih =>
    refine ih ?_
    rw [OpenFile.attribute]
    split_ifs
    · exact h
    · exact h
    · exact ⟨h.numbers, fun d hd => Numeral.fromStrSigned_signed (by decide) hd⟩
    · exact h

namespace Parser

theorem Sound.onStart {p : Parser} (h : p.Sound) (lower : Text → Text) (name : Text)
    (attributes : List Attribute) : (p.onStart lower name attributes).Sound := by
  have hnew : InRange OpenFile.default.date OpenFile.default.segments :=
    ⟨fun s hs => (nomatch hs), fun d hd => (nomatch hd)⟩
  rw [Parser.onStart]
  split_ifs
  · exact { h with }
  · refine ⟨h.files, fun f hf => ?_, h.curSegment⟩
    obtain rfl := Option.some.inj hf
    exact foldl_attribute_inRange attributes hnew
  · exact { h with }
  · refine ⟨h.files, h.curFile, fun s hs => ?_⟩
    obtain rfl := Option.some.inj hs
    exact foldl_segmentAttribute_lt attributes (by decide)
  · exact { h with }
  · exact h

theorem Sound.accept {p : Parser} (h : p.Sound) (value : Text) : (p.accept value).Sound := by
  rw [Parser.accept]
  split
  · exact h
  · refine ⟨h.files, fun f hf => ?_, h.curSegment⟩
    obtain ⟨g, hg, rfl⟩ := Option.map_eq_some_iff.mp hf
    exact h.curFile g hg
  · refine ⟨h.files, h.curFile, fun s hs => ?_⟩
    obtain ⟨g, hg, rfl⟩ := Option.map_eq_some_iff.mp hs
    exact h.curSegment g hg
  · rw [onMeta]
    split_ifs <;> exact { h with }

theorem Sound.onFileEnd {p : Parser} (h : p.Sound) : p.onFileEnd.Sound := by
  rw [Parser.onFileEnd]
  cases hc : p.curFile with
  | none => exact h
  | some f =>
    have hf := h.curFile f hc
    by_cases hn : f.close.segments = []
    · simp only [hn, if_true]
      exact ⟨h.files, fun g hg => (nomatch hg), h.curSegment⟩
    · simp only [hn, if_false]
      refine ⟨fun g hg => ?_, fun g hg => (nomatch hg), h.curSegment⟩
      rcases mem_append.mp hg with hg | hg
      · exact h.files g hg
      · obtain rfl := mem_singleton.mp hg
        exact ⟨⟨fun s hs => hf.numbers s (mem_of_mem_sortDedup hs), hf.date⟩, hn⟩

theorem push_inRange {s : ParsedSegment} {f : OpenFile} (hs : s.number < 2 ^ 32)
    (h : InRange f.date f.segments) : InRange (push s f).date (push s f).segments := by
  rw [push]
  split_ifs
  · exact h
  · refine ⟨fun t ht => ?_, h.date⟩
    rcases mem_append.mp ht with ht | ht
    · exact h.numbers t ht
    · obtain rfl := mem_singleton.mp ht
      exact hs

theorem Sound.onSegmentEnd {p : Parser} (h : p.Sound) : p.onSegmentEnd.Sound := by
  rw [Parser.onSegmentEnd]
  cases hc : p.curSegment with
  | none => exact ⟨h.files, h.curFile, fun s hs => (nomatch hs)⟩
  | some s =>
    refine ⟨h.files, fun f hf => ?_, fun s hs => (nomatch hs)⟩
    obtain ⟨g, hg, rfl⟩ := Option.map_eq_some_iff.mp hf
    exact push_inRange (h.curSegment s hc) (h.curFile g hg)

theorem Sound.step {p : Parser} (h : p.Sound) (lower : Text → Text) (e : Event) :
    (p.step lower e).Sound := by
  cases e with
  | start name attributes => exact h.onStart lower name attributes
  | text content =>
    rw [Parser.step, Parser.onText]
    split_ifs
    · exact h
    · exact h.accept _
  | generalRef name => exact h
  | other => exact h
  | stop name =>
    rw [Parser.step, Parser.onEnd]
    split_ifs
    · exact h.onFileEnd
    · exact h.onSegmentEnd
    · exact { h with }
    · exact h

theorem sound_run (lower : Text → Text) (events : List Event) {p : Parser} (h : p.Sound) :
    (events.foldl (Parser.step lower) p).Sound := by
  induction events generalizing p with
  | nil => exact h
  | cons e events ih => exact ih (h.step lower e)

end Parser

/-- **Every file of an accepted document** is in range and has an article. -/
theorem stored_of_parse {ε : Type} {lower : Text → Text} {reader : Reader ε} {input : ByteArray}
    {nzb : ParsedNzb} (h : parse lower reader input = .ok nzb) : ∀ f ∈ nzb.files, Stored f := by
  obtain ⟨-, -, rfl⟩ := parse_eq_ok h
  have hdefault : Parser.Sound .default :=
    ⟨fun f hf => (nomatch hf), fun f hf => (nomatch hf), fun s hs => (nomatch hs)⟩
  exact (Parser.sound_run lower _ hdefault).files

end Nzbd.Nzb
