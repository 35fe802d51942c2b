import Nzbd.Nzb.Articles
import Nzbd.Nzb.Regenerate

/-!
# Does a regenerated NZB come back?

A job is written as an NZB and read again.  Attribute values come back, apart
from tabs and line breaks, which turn into blanks.  Text does not come back when
it has one of the escaped characters in it: they are references, which are events
the parser drops, and what is left of the text arrives in `pieces`.  A group
falls apart into its pieces, a message-id is glued together from them, and of a
title the last one stays.  Blank pieces are dropped, and white space around a
piece is.  A date that is not known is written as `0`, and is known afterwards.

`parse_jobToNzb` is what is read, whatever the job; `round_trip_iff` compares it
with the job.
-/

namespace Nzbd.Nzb

open List Utf8 Nntp Xml

/-! ### Pieces of text -/

/-- What the parser takes of a token in content. -/
def pieceOf : Token → Option Text
  | .text run => if trim (eol run) = [] then none else some (trim (eol run))
  | _ => none

/-- What the parser takes of escaped text. -/
def pieces (s : Text) : List Text := (escapeTokens s).filterMap pieceOf

/-- Text that comes back as it was: something, without white space around it,
without the four escaped characters, and without a carriage return. -/
structure Plain (s : Text) : Prop where
  ne_nil : s ≠ []
  trimmed : trim s = s
  unescaped : ∀ c ∈ s, entity c = none
  no_cr : '\r' ∉ s

instance (s : Text) : Decidable (Plain s) :=
  decidable_of_iff (s ≠ [] ∧ trim s = s ∧ (∀ c ∈ s, entity c = none) ∧ '\r' ∉ s)
    ⟨fun h => ⟨h.1, h.2.1, h.2.2.1, h.2.2.2⟩, fun h => ⟨h.1, h.2, h.3, h.4⟩⟩

theorem plain_of_mem_pieces {s t : Text} (h : t ∈ pieces s) : Plain t := by
  obtain ⟨tok, htok, hp⟩ := mem_filterMap.mp h
  cases tok with
  | text run =>
    rw [pieceOf] at hp
    split_ifs at hp with hblank
    obtain rfl := Option.some.inj hp
    have hsub := trim_sublist (eol run)
    refine ⟨hblank, trim_idem _, fun c hc => ?_, fun hc => ?_⟩
    · exact entity_eol (entity_of_mem_escapeTokens htok) c (hsub.subset hc)
    · exact no_cr_eol run (hsub.subset hc)
  | decl content | tag name attributes | close name | ref name => exact nomatch hp

theorem pieces_of_unescaped {s : Text} (hne : s ≠ []) (h : ∀ c ∈ s, entity c = none) :
    pieces s = if trim (eol s) = [] then [] else [trim (eol s)] := by
  rw [pieces, escapeTokens_of_plain hne h, filterMap_cons, pieceOf]
  split_ifs <;> rfl

theorem Plain.pieces {s : Text} (h : Plain s) : pieces s = [s] := by
  have heol : eol s = s := eol_eq_self.mpr h.no_cr
  rw [pieces_of_unescaped h.ne_nil h.unescaped, heol, h.trimmed, if_neg h.ne_nil]

theorem getLast_pieces_eq {s : Text} : (pieces s).getLast? = some s ↔ Plain s := by
  constructor
  · intro h
    exact plain_of_mem_pieces (mem_of_getLast? h)
  · intro h
    rw [h.pieces]
    rfl

theorem flatMap_pieces_eq {groups : List Text} :
    groups.flatMap pieces = groups ↔ ∀ g ∈ groups, Plain g := by
  constructor
  · intro h g hg
    rw [← h] at hg
    obtain ⟨s, -, hs⟩ := mem_flatMap.mp hg
    exact plain_of_mem_pieces hs
  · intro h
    induction groups with
    | nil => rfl
    | cons g groups ih =>
      rw [flatMap_cons, (h g (by simp)).pieces, ih fun x hx => h x (by simp [hx])]
      rfl

theorem stripBrackets_of_unescaped {s : Text} (h : ∀ c ∈ s, entity c = none) :
    stripBrackets s = s := by
  have hlt : ∀ c ∈ s, c ≠ '<' := by
    rintro c hc rfl
    exact absurd (h _ hc) (by decide)
  have hgt : ∀ c ∈ s, c ≠ '>' := by
    rintro c hc rfl
    exact absurd (h _ hc) (by decide)
  have hfront : s.dropWhile (· = '<') = s := by
    cases s with
    | nil => rfl
    | cons c r => rw [dropWhile_cons, if_neg (by simpa using hlt c (by simp))]
  show (s.dropWhile (· = '<')).rdropWhile (· = '>') = s
  rw [hfront, rdropWhile_eq_self_iff]
  intro hne
  simpa using hgt _ (getLast_mem hne)

def glued (s : Text) : Text := bareId (pieces s).flatten

theorem glued_eq {s : Text} : glued s ≠ [] ∧ glued s = s ↔ Plain s := by
  constructor
  · rintro ⟨hne, he⟩
    rw [he] at hne
    have hsub : s.Sublist (pieces s).flatten := by
      conv_lhs => rw [← he]
      exact (stripBrackets_sublist _).trans (trim_sublist _)
    have hpiece : ∀ c ∈ s, ∃ t ∈ pieces s, c ∈ t := fun c hc =>
      mem_flatten.mp (hsub.subset hc)
    have hun : ∀ c ∈ s, entity c = none := by
      intro c hc
      obtain ⟨t, ht, hct⟩ := hpiece c hc
      exact (plain_of_mem_pieces ht).unescaped c hct
    have hcr : '\r' ∉ s := by
      intro hc
      obtain ⟨t, ht, hct⟩ := hpiece _ hc
      exact (plain_of_mem_pieces ht).no_cr hct
    -- One run, then; what is cut off it is white space.
    have htrim : (pieces s).flatten = trim s := by
      rw [pieces_of_unescaped hne hun, eol_eq_self.mpr hcr]
      split_ifs with hb
      · rw [hb]
        rfl
      · simp
    rw [htrim] at hsub
    exact ⟨hne, (trim_sublist s).antisymm hsub, hun, hcr⟩
  · intro h
    have hg : glued s = s := by
      rw [glued, h.pieces, flatten_singleton, bareId, h.trimmed,
        stripBrackets_of_unescaped h.unescaped]
    rw [hg]
    exact ⟨h.ne_nil, rfl⟩

/-! ### The parser on tokens -/

section Run

variable (lower : Text → Text)

def run (p : Parser) (ts : List Token) : Parser :=
  (ts.map Event.ofToken).foldl (Parser.step lower) p

variable {lower}

theorem run_cons (p : Parser) (t : Token) (ts : List Token) :
    run lower p (t :: ts) = run lower (p.step lower (Event.ofToken t)) ts := rfl

theorem run_append (p : Parser) (ts us : List Token) :
    run lower p (ts ++ us) = run lower (run lower p ts) us := by
  rw [run, map_append, foldl_append]
  rfl

theorem step_text (p : Parser) (s : Text) :
    p.step lower (Event.ofToken (.text s)) = (pieceOf (.text s)).toList.foldl Parser.accept p := by
  show p.onText (some (eol s)) = _
  rw [Parser.onText, pieceOf]
  show (if trim (eol s) = [] then p else p.accept (trim (eol s))) = _
  split_ifs <;> rfl

theorem run_inline {ts : List Token} (h : ∀ t ∈ ts, t.isInline = true) (p : Parser) :
    run lower p ts = (ts.filterMap pieceOf).foldl Parser.accept p := by
  induction ts generalizing p with
  | nil => rfl
  | cons t ts ih =>
    rw [run_cons, ih fun x hx => h x (by simp [hx])]
    cases t with
    | ref name => rfl
    | text r =>
      rw [step_text, filterMap_cons]
      cases pieceOf (.text r) <;> rfl
    | decl content | tag name attributes | close name =>
      exact nomatch h _ (mem_cons_self)

theorem run_escapeTokens (p : Parser) (s : Text) :
    run lower p (escapeTokens s) = (pieces s).foldl Parser.accept p :=
  run_inline (inline_escapeTokens s) p

theorem step_blank (p : Parser) {s : Text} (h : trim (eol s) = []) :
    p.step lower (Event.ofToken (.text s)) = p := by
  rw [step_text, pieceOf, if_pos h]
  rfl

/-! ### Pieces at their targets -/

theorem onMeta_onMeta (p : Parser) (v w : Text) : (p.onMeta v).onMeta w = p.onMeta w := by
  simp only [Parser.onMeta]
  split_ifs <;> simp_all

theorem onMeta_target (p : Parser) (v : Text) :
    (p.onMeta v).textTarget = p.textTarget ∧ (p.onMeta v).metaType = p.metaType := by
  rw [Parser.onMeta]
  split_ifs <;> exact ⟨rfl, rfl⟩

variable {p : Parser}

theorem foldl_accept_meta (h : p.textTarget = some .metadata) (ps : List Text) :
    ps.foldl Parser.accept p = ps.getLast?.elim p p.onMeta := by
  induction ps generalizing p with
  | nil => rfl
  | cons v ps ih =>
    have hv : p.accept v = p.onMeta v := by rw [Parser.accept, h]
    rw [foldl_cons, hv, ih ((onMeta_target p v).1.trans h), getLast?_cons]
    cases ps.getLast? with
    | none => rfl
    | some w => exact onMeta_onMeta p v w

variable {f : OpenFile}

theorem foldl_accept_group (h : p.textTarget = some .group)
    (hf : p.curFile = some f) (ps : List Text) :
    ps.foldl Parser.accept p = { p with curFile := some { f with groups := f.groups ++ ps } } := by
  induction ps generalizing p f with
  | nil =>
    rw [append_nil, ← hf]
    rfl
  | cons v ps ih =>
    have hv : p.accept v = { p with curFile := some { f with groups := f.groups ++ [v] } } := by
      rw [Parser.accept, h, hf]
      rfl
    rw [foldl_cons, hv]
    refine (ih ?_ rfl).trans ?_
    · exact h
    · simp

theorem foldl_accept_segment {s : ParsedSegment} (h : p.textTarget = some .segment)
    (hs : p.curSegment = some s) (ps : List Text) :
    ps.foldl Parser.accept p =
      { p with curSegment := some { s with messageId := s.messageId ++ ps.flatten } } := by
  induction ps generalizing p s with
  | nil =>
    rw [flatten_nil, append_nil, ← hs]
    rfl
  | cons v ps ih =>
    have hv : p.accept v =
        { p with curSegment := some { s with messageId := s.messageId ++ v } } := by
      rw [Parser.accept, h, hs]
      rfl
    rw [foldl_cons, hv]
    refine (ih ?_ rfl).trans ?_
    · exact h
    · simp

/-! ### Elements -/

theorem run_line (p : Parser) {s name : Text} {attributes : List (Text × Text)}
    {content : List Token} (h : trim (eol s) = []) :
    run lower p (.text s :: element name attributes content) =
      (run lower (p.step lower (Event.ofToken (.tag name attributes))) content).step lower
        (.stop name) := by
  rw [run_cons, step_blank p h, element, run_append, run_cons]
  rfl

theorem run_group (ht : p.textTarget = none)
    (hf : p.curFile = some f) (group : Text) :
    run lower p (groupTokens group) =
      { p with curFile := some { f with groups := f.groups ++ pieces group } } := by
  have hstart : p.step lower (Event.ofToken (.tag (text "group") [])) =
      { p with textTarget := some .group } := rfl
  have hpieces := foldl_accept_group (p := { p with textTarget := some .group }) rfl hf
    (pieces group)
  rw [groupTokens, run_line p (by decide), hstart, run_escapeTokens, hpieces, ht]
  rfl

theorem run_flatMap_group (ht : p.textTarget = none)
    (hf : p.curFile = some f) (groups : List Text) :
    run lower p (groups.flatMap groupTokens) =
      { p with curFile := some { f with groups := f.groups ++ groups.flatMap pieces } } := by
  induction groups generalizing p f with
  | nil =>
    rw [flatMap_nil, flatMap_nil, append_nil, ← hf]
    rfl
  | cons g groups ih =>
    rw [flatMap_cons, run_append, run_group ht hf]
    refine (ih ?_ rfl).trans ?_
    · exact ht
    · simp

theorem run_groups (ht : p.textTarget = none)
    (hf : p.curFile = some f) (groups : List Text) :
    run lower p (groupsTokens groups) =
      { p with curFile := some { f with groups := f.groups ++ groups.flatMap pieces } } := by
  have hstart : p.step lower (Event.ofToken (.tag (text "groups") [])) = p := rfl
  rw [groupsTokens, run_line p (by decide), hstart, run_append, run_flatMap_group ht hf,
    run_cons, step_blank _ (by decide)]
  rfl

def rawSegment (s : Segment) : ParsedSegment := ⟨(pieces s.messageId).flatten, s.number, s.size⟩

theorem read_showNat {n bound : Nat} (h : n < bound) :
    Numeral.fromStrRadix 10 bound (trim (showNat n)) = some n := by
  rw [showNat, (Numeral.digits_toDigits n).trim]
  exact Numeral.fromStrRadix_toDigits (.inl rfl) h

theorem start_segment (p : Parser) {s : Segment} (hn : s.number < 2 ^ 32) (hs : s.size < 2 ^ 64) :
    p.step lower (Event.ofToken (.tag (text "segment")
        [(text "bytes", showNat s.size), (text "number", showNat s.number)])) =
      { p with curSegment := some ⟨[], s.number, s.size⟩, textTarget := some .segment } := by
  have hattributes : ([⟨text "bytes", attValue (showNat s.size)⟩,
      ⟨text "number", attValue (showNat s.number)⟩] : List Attribute).foldl segmentAttribute
        ⟨[], 0, 0⟩ = ⟨[], s.number, s.size⟩ := by
    rw [(literal_showNat s.size).attValue, (literal_showNat s.number).attValue]
    show (⟨[], (Numeral.fromStrRadix 10 (2 ^ 32) (trim (showNat s.number))).getD 0,
      (Numeral.fromStrRadix 10 (2 ^ 64) (trim (showNat s.size))).getD 0⟩ : ParsedSegment) = _
    rw [read_showNat hn, read_showNat hs]
    rfl
  show ({ p with
    curSegment := some (([⟨text "bytes", attValue (showNat s.size)⟩,
      ⟨text "number", attValue (showNat s.number)⟩] : List Attribute).foldl segmentAttribute
        ⟨[], 0, 0⟩)
    textTarget := some .segment } : Parser) = _
  rw [hattributes]

theorem run_segment (ht : p.textTarget = none)
    (hc : p.curSegment = none) (hf : p.curFile = some f) {s : Segment} (hn : s.number < 2 ^ 32)
    (hs : s.size < 2 ^ 64) :
    run lower p (segmentTokens s) = { p with curFile := some (Parser.push (rawSegment s) f) } := by
  have hpieces := foldl_accept_segment
    (p := { p with curSegment := some ⟨[], s.number, s.size⟩, textTarget := some .segment }) rfl rfl
    (pieces s.messageId)
  rw [segmentTokens, run_line p (by decide), start_segment p hn hs, run_escapeTokens, hpieces, ht,
    hc]
  show ({ p with
    curFile := p.curFile.map (Parser.push (rawSegment s))
    curSegment := none
    textTarget := none } : Parser) = _
  rw [hf]
  rfl

theorem run_flatMap_segment {els : List ParsedSegment}
    (ht : p.textTarget = none) (hc : p.curSegment = none) (hf : p.curFile = some f)
    (hels : f.segments = pushed els) (segments : List Segment)
    (hr : ∀ s ∈ segments, s.number < 2 ^ 32 ∧ s.size < 2 ^ 64) :
    run lower p (segments.flatMap segmentTokens) =
      { p with
        curFile := some { f with segments := pushed (els ++ segments.map rawSegment) } } := by
  induction segments generalizing p f els with
  | nil =>
    rw [flatMap_nil, map_nil, append_nil, ← hels, ← hf]
    rfl
  | cons s segments ih =>
    have hs := hr s (by simp)
    rw [flatMap_cons, run_append, run_segment ht hc hf hs.1 hs.2]
    refine (ih ?_ ?_ rfl (segments_push _ _ _ hels) ?_).trans ?_
    · exact ht
    · exact hc
    · exact fun x hx => hr x (by simp [hx])
    · have hpush : { Parser.push (rawSegment s) f with
          segments := pushed (els ++ [rawSegment s] ++ segments.map rawSegment) } =
          { f with segments := pushed (els ++ (s :: segments).map rawSegment) } := by
        rw [Parser.push]
        split_ifs <;> simp
      rw [hpush]

theorem run_segments (ht : p.textTarget = none)
    (hc : p.curSegment = none) (hf : p.curFile = some f) (hnew : f.segments = [])
    (segments : List Segment) (hr : ∀ s ∈ segments, s.number < 2 ^ 32 ∧ s.size < 2 ^ 64) :
    run lower p (segmentsTokens segments) =
      { p with curFile := some { f with segments := pushed (segments.map rawSegment) } } := by
  have hstart : p.step lower (Event.ofToken (.tag (text "segments") [])) = p := rfl
  rw [segmentsTokens, run_line p (by decide), hstart, run_append,
    run_flatMap_segment ht hc hf (show f.segments = pushed [] from hnew) segments hr, run_cons,
      step_blank _ (by decide)]
  rfl

/-- What is in the range of the machine types can be read again. -/
structure Writable (f : FileEntry) : Prop where
  segments : ∀ s ∈ f.segments, s.number < 2 ^ 32 ∧ s.size < 2 ^ 64
  date : Numeral.Signed (2 ^ 63) (f.date.getD 0)

/-- A file as it is read, before its end tag. -/
def rereadOpen (f : FileEntry) : OpenFile where
  subject := blanks f.writtenSubject
  poster := some (text "nzbd")
  date := some (f.date.getD 0)
  groups := f.groups.flatMap pieces
  segments := pushed (f.segments.map rawSegment)

/-- The file that is read, unless none of its articles is left. -/
def reread (f : FileEntry) : Option ParsedFile :=
  if (rereadOpen f).close.segments = [] then none else some (rereadOpen f).close

variable {f : FileEntry}

theorem start_file (p : Parser) (h : Writable f) :
    p.step lower (Event.ofToken (.tag (text "file") f.attributes)) =
      { p with curFile := some { rereadOpen f with groups := [], segments := [] } } := by
  have hdate : Numeral.fromStrSigned (2 ^ 63) (trim (Numeral.showInt (f.date.getD 0))) =
      some (f.date.getD 0) := by
    rw [Numeral.trim_showInt]
    exact Numeral.fromStrSigned_showInt h.date
  have hattributes : ([⟨text "poster", attValue (text "nzbd")⟩,
      ⟨text "date", attValue (Numeral.showInt (f.date.getD 0))⟩,
      ⟨text "subject", attValue (escape f.writtenSubject)⟩] : List Attribute).foldl
        OpenFile.attribute .default = { rereadOpen f with groups := [], segments := [] } := by
    rw [(literal_showInt _).attValue, attValue_escape]
    show (⟨blanks f.writtenSubject, some (text "nzbd"),
      Numeral.fromStrSigned (2 ^ 63) (trim (Numeral.showInt (f.date.getD 0))), [], []⟩ :
        OpenFile) = _
    rw [hdate]
    rfl
  rw [← hattributes]
  rfl

theorem run_file (ht : p.textTarget = none) (hc : p.curSegment = none) (h : Writable f) :
    run lower p (fileTokens f) =
      { p with curFile := none, files := p.files ++ (reread f).toList } := by
  have hgroups : run lower { p with
      curFile := some { rereadOpen f with groups := [], segments := [] } } (groupsTokens f.groups) =
        { p with curFile := some { rereadOpen f with segments := [] } } := by
    refine (run_groups ?_ rfl f.groups).trans rfl
    exact ht
  have hsegments : run lower { p with curFile := some { rereadOpen f with segments := [] } }
      (segmentsTokens f.segments) = { p with curFile := some (rereadOpen f) } := by
    refine (run_segments ?_ ?_ rfl rfl f.segments h.segments).trans rfl
    · exact ht
    · exact hc
  rw [fileTokens, run_line p (by decide), start_file p h, run_append, hgroups, run_append,
    hsegments, run_cons, step_blank _ (by decide)]
  show Parser.onFileEnd { p with curFile := some (rereadOpen f) } = _
  rw [Parser.onFileEnd, reread]
  show (if (rereadOpen f).close.segments = [] then _ else _) = _
  split_ifs <;> simp

theorem run_files (ht : p.textTarget = none) (hc : p.curSegment = none)
    (hf : p.curFile = none) {files : List FileEntry} (h : ∀ f ∈ files, Writable f) :
    run lower p (files.flatMap fileTokens) =
      { p with files := p.files ++ files.filterMap reread } := by
  induction files generalizing p with
  | nil =>
    rw [flatMap_nil, filterMap_nil, append_nil]
    rfl
  | cons f files ih =>
    rw [flatMap_cons, run_append, run_file ht hc (h f (by simp))]
    refine (ih ?_ ?_ rfl fun x hx => h x (by simp [hx])).trans ?_
    · exact ht
    · exact hc
    · rw [filterMap_cons, ← hf]
      cases reread f <;> simp

/-! ### The whole document -/

theorem run_metaTokens (p : Parser) {type : String} (h : Literal (text type))
    (hl : lower (text type) = text type) (value : Text) :
    run lower p (metaTokens type value) =
      { ((pieces value).getLast?.elim
          { p with metaType := some (text type), textTarget := some .metadata }
          ({ p with metaType := some (text type), textTarget := some .metadata } :
            Parser).onMeta) with textTarget := none } := by
  have hstart : p.step lower (Event.ofToken (.tag (text "meta") [(text "type", text type)])) =
      { p with metaType := some (text type), textTarget := some .metadata } := by
    show ({ p with
      metaType := some (lower (Option.getD (attValue (text type)) []))
      textTarget := some .metadata } : Parser) = _
    rw [h.attValue, Option.getD_some, hl]
  rw [metaTokens, run_line p (by decide), hstart, run_escapeTokens, foldl_accept_meta rfl]
  rfl

theorem run_head (ht : p.textTarget = none)
    (hl : ∀ s : String, s = "title" ∨ s = "category" → lower (text s) = text s) (job : Job) :
    ∃ m, run lower p (headTokens job) =
      { p with
        title := (pieces job.name).getLast?.or p.title
        category := (job.category.bind fun c => (pieces c).getLast?).or p.category
        metaType := m } := by
  have hstart : p.step lower (Event.ofToken (.tag (text "head") [])) = p := rfl
  have hcategory : ∀ q : Parser, q.textTarget = none → ∃ m,
      run lower q (categoryTokens job.category) =
        { q with
          category := (job.category.bind fun c => (pieces c).getLast?).or q.category
          metaType := m } := by
    intro q hq
    cases hc : job.category with
    | none => exact ⟨q.metaType, by rw [categoryTokens]; rfl⟩
    | some c =>
      refine ⟨some (text "category"), ?_⟩
      rw [categoryTokens, run_metaTokens q (by decide) (hl _ (.inr rfl)), Option.bind_some]
      cases (pieces c).getLast? with
      | none => rw [← hq]; rfl
      | some v => rw [← hq]; rfl
  have htitle : run lower p (metaTokens "title" job.name) =
      { p with
        title := (pieces job.name).getLast?.or p.title
        metaType := some (text "title") } := by
    rw [run_metaTokens p (by decide) (hl _ (.inl rfl))]
    cases (pieces job.name).getLast? with
    | none => rw [← ht]; rfl
    | some v => rw [← ht]; rfl
  obtain ⟨m, hm⟩ := hcategory _ (show ({ p with
    title := (pieces job.name).getLast?.or p.title
    metaType := some (text "title") } : Parser).textTarget = none from ht)
  refine ⟨m, ?_⟩
  rw [headTokens, run_line p (by decide), hstart, run_append, htitle, run_append, hm, run_cons,
    step_blank _ (by decide)]
  rfl

end Run

def LowersAscii (lower : Text → Text) : Prop :=
  ∀ s : Text, (∀ c ∈ s, c.toNat < 128) → lower s = toAsciiLowercase s

/-- What is read of a job. -/
def rereadNzb (job : Job) : ParsedNzb where
  title := (pieces job.name).getLast?
  category := job.category.bind fun c => (pieces c).getLast?
  files := job.files.filterMap reread

/-- Inside the root, with nothing else open. -/
def inRoot (title category metaType : Option Text) (files : List ParsedFile) : Parser where
  title := title
  password := none
  category := category
  files := files
  sawRoot := true
  curFile := none
  curSegment := none
  textTarget := none
  metaType := metaType

/-- **What is read**, whatever the job. -/
theorem parse_jobToNzb {ε : Type} {lower : Text → Text} {reader : Reader ε}
    (hlower : LowersAscii lower) (hreader : Reads reader) {job : Job}
    (h : ∀ f ∈ job.files, Writable f) :
    parse lower reader (List.utf8Encode (jobToNzb job)) =
      if (rereadNzb job).files = [] then .error .empty else .ok (rereadNzb job) := by
  have hl : ∀ s : String, s = "title" ∨ s = "category" → lower (text s) = text s := by
    rintro s (rfl | rfl)
    · exact (hlower _ (by decide)).trans (by decide)
    · exact (hlower _ (by decide)).trans (by decide)
  have hroot : run lower .default [.decl (text "xml version=\"1.0\" encoding=\"UTF-8\""),
      .text (text "\n"), .tag (text "nzb") rootAttributes] = inRoot none none none [] := by
    rw [run_cons, run_cons, step_blank _ (by decide)]
    rfl
  obtain ⟨m, hhead⟩ : ∃ m, run lower (inRoot none none none []) (headTokens job) =
      inRoot (rereadNzb job).title (rereadNzb job).category m [] := by
    obtain ⟨m, hm⟩ := run_head (p := inRoot none none none []) rfl hl job
    refine ⟨m, hm.trans ?_⟩
    show inRoot ((rereadNzb job).title.or none) ((rereadNzb job).category.or none) m [] = _
    rw [Option.or_none, Option.or_none]
  have hshape : jobTokens job =
      [.decl (text "xml version=\"1.0\" encoding=\"UTF-8\""), .text (text "\n"),
        .tag (text "nzb") rootAttributes] ++ (headTokens job ++ (job.files.flatMap fileTokens ++
          [.text (text "\n"), .close (text "nzb"), .text (text "\n")])) := by
    simp [jobTokens, element]
  have hrun : run lower .default (jobTokens job) =
      inRoot (rereadNzb job).title (rereadNzb job).category m (rereadNzb job).files := by
    rw [hshape, run_append, hroot, run_append, hhead, run_append, run_files rfl rfl rfl h, run_cons,
      step_blank _ (by decide), run_cons, run_cons, step_blank _ (by decide)]
    rfl
  rw [parse, ← render_jobTokens, hreader _ (jobTokens_wellFormed job)]
  show (if (run lower .default (jobTokens job)).sawRoot = false then .error .notNzb
    else if (run lower .default (jobTokens job)).files = [] then .error .empty
    else .ok (run lower .default (jobTokens job)).nzb : Except (NzbError ε) ParsedNzb) = _
  rw [hrun]
  rfl

/-! ### Against the job -/

structure SameSegment (s : Segment) (t : ParsedSegment) : Prop where
  number : t.number = s.number
  size : t.bytes = s.size
  messageId : t.messageId = s.messageId

structure SameFile (f : FileEntry) (g : ParsedFile) : Prop where
  subject : g.subject = f.writtenSubject
  date : g.date = f.date
  groups : g.groups = f.groups
  segments : List.Forall₂ SameSegment f.segments g.segments

/-- The document has the files of the job, in their order, and its title and
category. -/
structure SameDocument (job : Job) (nzb : ParsedNzb) : Prop where
  title : nzb.title = some job.name
  category : nzb.category = job.category
  files : List.Forall₂ SameFile job.files nzb.files

/-- A file comes back: its date is known, its subject has no tab and no line break,
and its groups and message-ids are plain. -/
structure FileReturns (f : FileEntry) : Prop where
  date : f.date ≠ none
  subject : f.writtenSubject.any isBreakOrTab = false
  groups : ∀ g ∈ f.groups, Plain g
  segments : ∀ s ∈ f.segments, Plain s.messageId

/-- A job comes back. -/
structure JobReturns (job : Job) : Prop where
  name : Plain job.name
  category : ∀ c, job.category = some c → Plain c
  files : ∀ f ∈ job.files, FileReturns f

theorem forall₂_filterMap {α β : Type} {R : α → β → Prop} {g : α → Option β} {xs : List α} :
    List.Forall₂ R xs (xs.filterMap g) ↔ ∀ x ∈ xs, ∃ y, g x = some y ∧ R x y := by
  induction xs with
  | nil => simp
  | cons x xs ih =>
    rw [filterMap_cons, forall_mem_cons, ← ih]
    cases hg : g x with
    | none =>
      constructor
      · intro h
        have hlen := h.length_eq
        have := length_filterMap_le g xs
        simp only [length_cons] at hlen
        omega
      · rintro ⟨⟨y, hy, -⟩, -⟩
        exact nomatch hy
    | some y =>
      rw [forall₂_cons]
      simp

theorem pushed_map_raw (segments : List Segment) :
    pushed (segments.map rawSegment) = segments.filterMap fun s =>
      if glued s.messageId = [] then none else some ⟨glued s.messageId, s.number, s.size⟩ := by
  induction segments with
  | nil => rfl
  | cons s segments ih =>
    rw [filterMap_cons, ← ih, pushed, map_cons, filter_cons]
    by_cases hg : glued s.messageId = []
    · have hid : hasId (rawSegment s) = false := decide_eq_false fun hn => hn hg
      simp [hid, hg, pushed]
    · have hid : hasId (rawSegment s) = true := decide_eq_true hg
      simp [hid, hg, pushed]
      rfl

theorem segments_close (h : (f.segments.map (·.number)).Pairwise (· < ·)) :
    (rereadOpen f).close.segments = pushed (f.segments.map rawSegment) := by
  refine sortDedup_eq_self ?_
  have hsub : ((rereadOpen f).segments.map (·.number)).Sublist (f.segments.map (·.number)) := by
    have hmap : f.segments.map (·.number) =
        ((f.segments.map rawSegment).map Parser.cleanSegment).map (·.number) := by
      rw [map_map, map_map]
      rfl
    rw [hmap]
    exact (filter_sublist.map _).map _
  exact h.sublist hsub

theorem sameSegments_iff (h : (f.segments.map (·.number)).Pairwise (· < ·)) :
    List.Forall₂ SameSegment f.segments (rereadOpen f).close.segments ↔
      ∀ s ∈ f.segments, Plain s.messageId := by
  rw [segments_close h, pushed_map_raw, forall₂_filterMap]
  refine forall₂_congr fun s _ => ?_
  rw [← glued_eq]
  constructor
  · rintro ⟨t, ht, hsame⟩
    split_ifs at ht with hg
    obtain rfl := Option.some.inj ht
    exact ⟨hg, hsame.messageId⟩
  · rintro ⟨hg, hid⟩
    exact ⟨⟨glued s.messageId, s.number, s.size⟩, if_neg hg, rfl, rfl, hid⟩

theorem sameFile_iff (h : (f.segments.map (·.number)).Pairwise (· < ·))
    (hne : f.segments ≠ []) :
    (∃ g, reread f = some g ∧ SameFile f g) ↔ FileReturns f := by
  constructor
  · rintro ⟨g, hg, hsame⟩
    rw [reread] at hg
    split_ifs at hg
    obtain rfl := Option.some.inj hg
    refine ⟨?_, ?_, ?_, ?_⟩
    · rw [← hsame.date]
      exact Option.some_ne_none _
    · exact blanks_eq_self.mp hsame.subject
    · exact flatMap_pieces_eq.mp hsame.groups
    · exact (sameSegments_iff h).mp hsame.segments
  · intro hr
    have hsegs := (sameSegments_iff h).mpr hr.segments
    refine ⟨(rereadOpen f).close, if_neg ?_, ?_, ?_, ?_, hsegs⟩
    · intro hnil
      rw [hnil] at hsegs
      exact hne (forall₂_nil_right_iff.mp hsegs)
    · exact blanks_eq_self.mpr hr.subject
    · obtain ⟨d, hd⟩ := Option.ne_none_iff_exists'.mp hr.date
      show some (f.date.getD 0) = f.date
      rw [hd]
      rfl
    · exact flatMap_pieces_eq.mpr hr.groups

/-! ### Admitted jobs -/

/-- A queue row that came from a file of an NZB: the name, the state of the
segments and the flags are the queue's own. -/
structure Carries (f : FileEntry) (g : ParsedFile) : Prop where
  subject : f.subject = g.subject
  date : f.date = g.date
  groups : f.groups = g.groups
  segments : f.segments.map (fun s => (s.messageId, s.number, s.size)) =
    g.segments.map fun s => (s.messageId, s.number, min s.bytes (2 ^ 32 - 1))

def AdmittedFrom (nzb : ParsedNzb) (job : Job) : Prop := List.Forall₂ Carries job.files nzb.files

theorem buildFiles_carries (lower : Text → Text) (pauseExtraPars : Bool) (pfs : List ParsedFile)
    (next : Nat) (seen : SeenNames) :
    List.Forall₂ Carries (buildFiles lower pauseExtraPars next seen pfs).1 pfs := by
  induction pfs generalizing next seen with
  | nil => exact .nil
  | cons pf pfs ih =>
    refine .cons ⟨rfl, rfl, rfl, ?_⟩ (ih _ _)
    simp only [buildFile, map_map]
    rfl

theorem Carries.numbers {g : ParsedFile} (h : Carries f g) :
    f.segments.map (·.number) = g.segments.map (·.number) := by
  have := congrArg (map fun t : Text × Nat × Nat => t.2.1) h.segments
  rwa [map_map, map_map] at this

theorem Carries.sorted {g : ParsedFile} (h : Carries f g) :
    (f.segments.map (·.number)).Pairwise (· < ·) := by
  rw [h.numbers]
  exact g.sorted

theorem Carries.ne_nil {g : ParsedFile} (h : Carries f g) (hg : Stored g) :
    f.segments ≠ [] := by
  intro hnil
  have := h.numbers
  rw [hnil] at this
  exact hg.ne_nil (map_eq_nil_iff.mp this.symm)

theorem Carries.writable {g : ParsedFile} (h : Carries f g) (hg : Stored g) :
    Writable f where
  segments s hs := by
    have hm : (s.messageId, s.number, s.size) ∈
        g.segments.map fun t => (t.messageId, t.number, min t.bytes (2 ^ 32 - 1)) := by
      rw [← h.segments]
      exact mem_map_of_mem (f := fun s : Segment => (s.messageId, s.number, s.size)) hs
    obtain ⟨t, ht, he⟩ := mem_map.mp hm
    have hnum : s.number = t.number := (congrArg (·.2.1) he).symm
    have hsize : s.size = min t.bytes (2 ^ 32 - 1) := (congrArg (·.2.2) he).symm
    have := hg.numbers t ht
    omega
  date := by
    rw [h.date]
    cases hd : g.date with
    | none => exact ⟨by decide, by decide⟩
    | some d => exact hg.date d hd

theorem forall₂_left {α β : Type} {R : α → β → Prop} {P : β → Prop} {Q : α → Prop} {xs : List α}
    {ys : List β} (h : List.Forall₂ R xs ys) (hys : ∀ y ∈ ys, P y)
    (hpq : ∀ x y, R x y → P y → Q x) : ∀ x ∈ xs, Q x := by
  induction h with
  | nil => simp
  | cons hr _ ih =>
    rw [forall_mem_cons] at hys ⊢
    exact ⟨hpq _ _ hr hys.1, ih hys.2⟩

/-- **A regenerated NZB is the job again** exactly when the texts of the job are plain,
its dates are known and its subjects are on one line. -/
theorem round_trip_iff {ε : Type} {lower : Text → Text} {reader : Reader ε}
    (hlower : LowersAscii lower) (hreader : Reads reader) {input : ByteArray} {nzb : ParsedNzb}
    (hparse : parse lower reader input = .ok nzb) {job : Job} (hjob : AdmittedFrom nzb job) :
    (∃ again, parse lower reader (List.utf8Encode (jobToNzb job)) = .ok again ∧
      SameDocument job again) ↔ JobReturns job := by
  have hstored := stored_of_parse hparse
  have hwritable : ∀ f ∈ job.files, Writable f :=
    forall₂_left hjob hstored fun f g hc hg => hc.writable hg
  have hfile : ∀ f ∈ job.files, (∃ g, reread f = some g ∧ SameFile f g) ↔ FileReturns f :=
    forall₂_left hjob hstored fun f g hc hg => sameFile_iff hc.sorted (hc.ne_nil hg)
  have hne : job.files ≠ [] := by
    intro hnil
    rw [AdmittedFrom, hnil] at hjob
    exact (parse_eq_ok hparse).2.1 (List.forall₂_nil_left_iff.mp hjob)
  have hcategory : (rereadNzb job).category = job.category ↔
      ∀ c, job.category = some c → Plain c := by
    cases hc : job.category with
    | none => simp [rereadNzb, hc]
    | some c => simp [rereadNzb, hc, getLast_pieces_eq]
  rw [parse_jobToNzb hlower hreader hwritable]
  constructor
  · rintro ⟨again, hagain, hsame⟩
    split_ifs at hagain
    obtain rfl := Except.ok.inj hagain
    refine ⟨getLast_pieces_eq.mp hsame.title, hcategory.mp hsame.category, fun f hf => ?_⟩
    exact (hfile f hf).mp (forall₂_filterMap.mp hsame.files f hf)
  · intro hr
    have hfiles : List.Forall₂ SameFile job.files (rereadNzb job).files :=
      forall₂_filterMap.mpr fun f hf => (hfile f hf).mpr (hr.files f hf)
    have hsome : (rereadNzb job).files ≠ [] := by
      intro hnil
      rw [hnil] at hfiles
      exact hne (List.forall₂_nil_right_iff.mp hfiles)
    exact ⟨rereadNzb job, if_neg hsome, getLast_pieces_eq.mpr hr.name, hcategory.mpr hr.category,
      hfiles⟩

/-! ### Two jobs -/

def datedArticle : List Token :=
  element (text "nzb") [] <|
    element (text "file") [(text "subject", text "one.bin"), (text "date", text "1700000000")] <|
      element (text "segment") [(text "bytes", text "100"), (text "number", text "1")]
        [.text (text "a@b")]

theorem datedArticle_wellFormed : WellFormed datedArticle := by
  have hsegment : Block (element (text "segment")
      [(text "bytes", text "100"), (text "number", text "1")] [.text (text "a@b")]) := by
    refine (Content.text (by decide) (by decide)).element (by decide) ⟨fun a ha => ?_, by decide⟩
    simp only [mem_cons, not_mem_nil, or_false] at ha
    rcases ha with rfl | rfl <;> exact Literal.isAttribute (by decide) (by decide)
  have hfile : ∀ content, Content content → Block (element (text "file")
      [(text "subject", text "one.bin"), (text "date", text "1700000000")] content) := by
    refine fun content hc => hc.element (by decide) ⟨fun a ha => ?_, by decide⟩
    simp only [mem_cons, not_mem_nil, or_false] at ha
    rcases ha with rfl | rfl <;> exact Literal.isAttribute (by decide) (by decide)
  exact ((hfile _ hsegment.toContent).element (by decide) (by simp)).wellFormed

def datedNzb : ParsedNzb where
  title := none
  category := none
  files := [{
    subject := text "one.bin"
    date := some 1700000000
    segments := [⟨text "a@b", 1, 100⟩]
    sorted := by simp }]

theorem parse_datedArticle :
    parse toAsciiLowercase xmlReader (List.utf8Encode (render datedArticle)) = .ok datedNzb := by
  rw [parse, xmlReader_reads _ datedArticle_wellFormed]
  rfl

def datedJob (name : String) : Job :=
  { QueueState.newJob 0 1 .nzb (text name) (text name) none 0 .queued with
    files := (buildFiles toAsciiLowercase false 0 [] datedNzb.files).1 }

theorem datedJob_admittedFrom (name : String) : AdmittedFrom datedNzb (datedJob name) :=
  buildFiles_carries toAsciiLowercase false datedNzb.files 0 []

theorem round_trip_dated : ∃ again,
    parse toAsciiLowercase xmlReader (List.utf8Encode (jobToNzb (datedJob "one"))) = .ok again ∧
      SameDocument (datedJob "one") again := by
  refine (round_trip_iff (fun s _ => rfl) xmlReader_reads parse_datedArticle
    (datedJob_admittedFrom "one")).mpr ⟨by decide, fun c hc => (nomatch hc), fun f hf => ?_⟩
  obtain rfl := mem_singleton.mp hf
  exact ⟨by decide, by decide, by decide, by decide⟩

/-- **A name with an ampersand** comes back as what stands behind it. -/
theorem ampersand_lost :
    ¬ ∀ (input : ByteArray) (nzb : ParsedNzb) (job : Job),
      parse toAsciiLowercase xmlReader input = .ok nzb → AdmittedFrom nzb job →
        ∃ again, parse toAsciiLowercase xmlReader (List.utf8Encode (jobToNzb job)) = .ok again ∧
          SameDocument job again := by
  intro h
  obtain ⟨again, hagain, hsame⟩ := h _ _ _ parse_datedArticle (datedJob_admittedFrom "Tom & Jerry")
  have hwritable : ∀ f ∈ (datedJob "Tom & Jerry").files, Writable f :=
    forall₂_left (datedJob_admittedFrom "Tom & Jerry") (stored_of_parse parse_datedArticle)
      fun f g hc hg => hc.writable hg
  rw [parse_jobToNzb (fun s _ => rfl) xmlReader_reads hwritable] at hagain
  split_ifs at hagain
  obtain rfl := Except.ok.inj hagain
  have hplain : Plain (text "Tom & Jerry") := getLast_pieces_eq.mp hsame.title
  exact absurd hplain (by decide)

end Nzbd.Nzb
