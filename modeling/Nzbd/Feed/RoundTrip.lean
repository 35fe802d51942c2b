import Nzbd.Feed.Parse
import Nzbd.Lib.XmlPieces

/-!
# Feeds that are read back

A feed of items is written as RSS or as Atom: the texts escaped or as literal sections, the
attribute values escaped.  What is relied on in the XML reader is that it delivers a document piece
by piece (`Reads`); it makes the line breaks of a text line feeds.

The parser takes attribute values as they are written, so a value with a reference in it keeps the
reference: `parseFeed_iff` says which feeds come back.
-/

namespace Nzbd.Feed.Parse

open List
open Xml (Piece Token IsName DocumentOf escape escapeTokens eol renderPieces)
open scoped Xml

/-! ### The XML reader -/

def eventAttributes (attributes : List (Text × Text)) : List Attribute :=
  attributes.map fun a => ⟨a.1, a.2⟩

/-- The names have no prefix here, and no reference is a number. -/
def Event.ofPiece : Piece → Event
  | .token (.decl _) => .other
  | .token (.tag name attributes) => .start name (eventAttributes attributes)
  | .token (.close name) => .stop name
  | .token (.text run) => .text (some (eol run))
  | .token (.ref name) => .generalRef name none
  | .empty name attributes => .empty name (eventAttributes attributes)
  | .cdata content => .cdata content

/-- A well-formed document is delivered piece by piece. -/
def Reads (reader : Text → List Event) : Prop :=
  ∀ ps, DocumentOf ps → reader (renderPieces ps) = ps.map Event.ofPiece

def pieceReader (xml : Text) : List Event := ((Xml.readPieces xml).getD []).map Event.ofPiece

theorem pieceReader_reads : Reads pieceReader := by
  intro ps h
  rw [pieceReader, Xml.readPieces_renderPieces h, Option.getD_some]

/-! ### Writing a feed -/

/-- A text of an element. -/
inductive Written
  | escaped (value : Text)
  | cdata (value : Text)

def Written.value : Written → Text
  | .escaped value => value
  | .cdata value => value

def Written.pieces : Written → List Piece
  | .escaped value => (escapeTokens value).map Piece.token
  | .cdata value => [.cdata value]

/-- A literal section ends where it should. -/
def Written.Ok : Written → Prop
  | .escaped _ => True
  | .cdata value => Xml.uptoClose value = none

inductive Link
  /-- `<link>value</link>` -/
  | text (value : Written)
  /-- `<link href="value"/>` -/
  | href (value : Text)

inductive Extra
  | none
  /-- `<enclosure url="url" length="size"/>` -/
  | enclosure (url : Text) (size : Nat)
  /-- `<attr name="size" value="size"/>` -/
  | size (size : Nat)
  /-- `<attr name="category" value="category"/>` -/
  | category (category : Text)

structure Entry where
  title : Written
  link : Link
  guid : Option Written
  category : Option Written
  extra : Extra

inductive Format
  | rss
  | atom

structure Source where
  format : Format
  title : Written
  entries : List Entry

def element (name : String) (content : List Piece) : List Piece :=
  .token (.tag (text name) []) :: (content ++ [.token (.close (text name))])

def keyValue (key : String) (value : Text) : Text × Text := (text key, escape value)

def Link.pieces : Link → List Piece
  | .text value => element "link" value.pieces
  | .href value => [.empty (Nzbd.text "link") [keyValue "href" value]]

def Extra.pieces : Extra → List Piece
  | .none => []
  | .enclosure url n =>
    [.empty (Nzbd.text "enclosure") [keyValue "url" url, keyValue "length" (showNat n)]]
  | .size n =>
    [.empty (Nzbd.text "attr") [keyValue "name" (Nzbd.text "size"), keyValue "value" (showNat n)]]
  | .category value => [.empty (Nzbd.text "attr")
    [keyValue "name" (Nzbd.text "category"), keyValue "value" value]]

def optional (name : String) (value : Option Written) : List Piece :=
  (value.map fun value => element name value.pieces).getD []

def Format.itemName : Format → String
  | .rss => "item"
  | .atom => "entry"

def Format.guidName : Format → String
  | .rss => "guid"
  | .atom => "id"

def Entry.pieces (format : Format) (e : Entry) : List Piece :=
  element format.itemName (element "title" e.title.pieces ++
    (e.link.pieces ++ (optional format.guidName e.guid ++
    (optional "category" e.category ++ e.extra.pieces))))

def Source.pieces (feed : Source) : List Piece :=
  let content := element "title" feed.title.pieces ++ feed.entries.flatMap (·.pieces feed.format)
  match feed.format with
  | .rss => element "rss" (element "channel" content)
  | .atom => element "feed" content

def Source.render (feed : Source) : Text := renderPieces feed.pieces

/-! ### What the feed says -/

def Link.value : Link → Text
  | .text value => Utf8.trim value.value
  | .href value => value

def trimmed (content : Written → Text) (value : Option Written) : Text :=
  Utf8.trim ((value.map content).getD [])

def textOr (content : Written → Text) (value : Option Written) (other : Text) : Text :=
  if trimmed content value = [] then other else trimmed content value

def Entry.url (e : Entry) : Text :=
  match e.extra with
  | .enclosure url _ => url
  | _ => e.link.value

/-- The item of an entry; white space around a text is not part of it. -/
def Entry.item (e : Entry) : FeedItem where
  title := Utf8.trim e.title.value
  url := e.url
  guid := textOr Written.value e.guid e.url
  category := textOr Written.value e.category (match e.extra with
    | .category category => category
    | _ => [])
  size := match e.extra with
    | .enclosure _ size => size
    | .size size => size
    | _ => 0
  ageDays := 0

/-- A title and a URL, and texts and sizes that can be written. -/
structure Entry.Ok (e : Entry) : Prop where
  title : Utf8.trim e.title.value ≠ [] ∧ e.title.Ok
  url : e.url ≠ []
  link : ∀ value, e.link = .text value → value.Ok
  guid : ∀ value, e.guid = some value → value.Ok
  category : ∀ value, e.category = some value → value.Ok
  size : e.item.size < 2 ^ 64

structure Source.Ok (feed : Source) : Prop where
  title : feed.title.Ok
  entries : ∀ e ∈ feed.entries, e.Ok

def Plain (value : Text) : Prop := ∀ c ∈ value, Xml.entity c = none

/-- No line of it ends in a carriage return; a literal section may hold anything. -/
def Written.Faithful : Written → Prop
  | .escaped value => '\r' ∉ Utf8.trim value
  | .cdata _ => True

/-- The texts have line feeds only, and the attribute values that are used nothing to escape. -/
structure Entry.Verbatim (e : Entry) : Prop where
  title : e.title.Faithful
  url : match e.extra, e.link with
    | .enclosure url _, _ => Plain url
    | _, .href value => Plain value
    | _, .text value => value.Faithful
  guid : ∀ value, e.guid = some value → value.Faithful
  category : ∀ value, e.category = some value → value.Faithful
  extra : ∀ category, e.extra = .category category →
    trimmed Written.value e.category = [] → Plain category

/-! ### What the parser takes -/

/-- Line breaks of every kind are line feeds, except in a literal section. -/
def Written.shown : Written → Text
  | .escaped value => eol value
  | .cdata value => value

def Link.taken : Link → Text
  | .text value => Utf8.trim value.shown
  | .href value => escape value

def Entry.takenUrl (e : Entry) : Text :=
  match e.extra with
  | .enclosure url _ => escape url
  | _ => e.link.taken

/-- The item with the texts as they are shown and the attribute values as they are written. -/
def Entry.taken (e : Entry) : FeedItem where
  title := Utf8.trim e.title.shown
  url := e.takenUrl
  guid := textOr Written.shown e.guid e.takenUrl
  category := textOr Written.shown e.category (match e.extra with
    | .category category => escape category
    | _ => [])
  size := e.item.size
  ageDays := 0

theorem eol_cons (c : Char) (s : Text) : eol (c :: s) =
    if c = '\r' ∧ s.head? = some '\n' then eol s else (if c = '\r' then '\n' else c) :: eol s := by
  split
  · next h =>
    obtain ⟨rfl, hs⟩ := h
    obtain ⟨s, rfl⟩ := head?_eq_some_iff.mp hs
    rw [eol, eol, if_neg (by decide)]
    exact fun _ h => absurd h (by decide)
  · next h =>
    rw [eol]
    rintro s rfl rfl
    exact h ⟨rfl, rfl⟩

theorem eol_eq_nil {s : Text} : eol s = [] ↔ s = [] := by
  unfold eol
  split <;> simp

theorem dropWhile_eol (s : Text) :
    (eol s).dropWhile Utf8.isWhitespace = eol (s.dropWhile Utf8.isWhitespace) := by
  induction s with
  | nil => rfl
  | cons c s ih =>
    rw [eol_cons]
    by_cases hc : Utf8.isWhitespace c = true
    · rw [dropWhile_cons_of_pos hc]
      split
      · exact ih
      · rw [dropWhile_cons_of_pos, ih]
        split
        · decide
        · exact hc
    · have hr : c ≠ '\r' := by
        rintro rfl
        exact hc (by decide)
      rw [if_neg fun h => hr h.1, if_neg hr, dropWhile_cons_of_neg hc, dropWhile_cons_of_neg hc,
        eol_cons, if_neg fun h => hr h.1, if_neg hr]

theorem rdropWhile_cons (p : Char → Bool) (c : Char) (s : Text) : (c :: s).rdropWhile p =
    if s.rdropWhile p = [] ∧ p c = true then [] else c :: s.rdropWhile p := by
  unfold rdropWhile
  rw [reverse_cons, dropWhile_append]
  cases hs : dropWhile p s.reverse with
  | nil => by_cases hc : p c = true <;> simp [hc]
  | cons d t => simp

theorem rdropWhile_eol (s : Text) :
    (eol s).rdropWhile Utf8.isWhitespace = eol (s.rdropWhile Utf8.isWhitespace) := by
  induction s with
  | nil => rfl
  | cons c s ih =>
    -- what is left of `s` begins as `s` does
    have hhead (hne : s.rdropWhile Utf8.isWhitespace ≠ []) :
        (s.rdropWhile Utf8.isWhitespace).head? = s.head? := by
      obtain ⟨t, ht⟩ := rdropWhile_prefix Utf8.isWhitespace s
      have happend : (s.rdropWhile Utf8.isWhitespace ++ t).head? = _ := head?_append_of_ne_nil _ hne
      rwa [ht, eq_comm] at happend
    have hspace : Utf8.isWhitespace (if c = '\r' then '\n' else c) = Utf8.isWhitespace c := by
      split
      · next h => rw [h]; decide
      · rfl
    rw [eol_cons, rdropWhile_cons]
    by_cases hnil : s.rdropWhile Utf8.isWhitespace = []
    · have ih' : (eol s).rdropWhile Utf8.isWhitespace = [] :=
        ih.trans (eol_eq_nil.mpr hnil)
      split
      · next h =>
        obtain ⟨rfl, -⟩ := h
        rw [ih', if_pos ⟨hnil, by decide⟩]
        rfl
      · rw [rdropWhile_cons, hspace]
        by_cases hc : Utf8.isWhitespace c = true
        · rw [if_pos ⟨ih', hc⟩, if_pos ⟨hnil, hc⟩]
          rfl
        · simp [hc, ih', hnil, eol_cons, eol]
    · have hkeep : ¬(s.rdropWhile Utf8.isWhitespace = [] ∧ Utf8.isWhitespace c = true) :=
        fun h => hnil h.1
      rw [if_neg hkeep, eol_cons, hhead hnil]
      split
      · exact ih
      · rw [rdropWhile_cons, ih, if_neg fun h => hnil (eol_eq_nil.mp h.1)]

theorem trim_eol (s : Text) : Utf8.trim (eol s) = eol (Utf8.trim s) := by
  unfold Utf8.trim
  rw [Utf8.trimMatches_eq, Utf8.trimMatches_eq, dropWhile_eol, rdropWhile_eol]

theorem Written.trim_shown_eq_iff (w : Written) :
    Utf8.trim w.shown = Utf8.trim w.value ↔ w.Faithful := by
  cases w with
  | escaped value =>
    show Utf8.trim (eol value) = _ ↔ _
    rw [trim_eol]
    exact Xml.eol_eq_self
  | cdata value => exact iff_of_true rfl trivial

theorem Written.trim_shown_eq_nil (w : Written) :
    Utf8.trim w.shown = [] ↔ Utf8.trim w.value = [] := by
  cases w with
  | escaped value =>
    show Utf8.trim (eol value) = [] ↔ _
    rw [trim_eol]
    exact eol_eq_nil
  | cdata value => exact Iff.rfl

theorem textOr_eq_iff {value : Option Written} {other other' : Text} :
    textOr Written.shown value other' = textOr Written.value value other ↔
      (∀ w, value = some w → w.Faithful) ∧
        (trimmed Written.value value = [] → other' = other) := by
  have hnil : trimmed Written.shown value = [] ↔ trimmed Written.value value = [] := by
    cases value with
    | none => exact Iff.rfl
    | some w => exact w.trim_shown_eq_nil
  have hsame : trimmed Written.shown value = trimmed Written.value value ↔
      ∀ w, value = some w → w.Faithful := by
    cases value with
    | none => exact iff_of_true rfl fun _ h => by cases h
    | some w =>
      refine w.trim_shown_eq_iff.trans ⟨fun h _ hw => ?_, fun h => h w rfl⟩
      exact Option.some.inj hw ▸ h
  unfold textOr
  rw [← hsame]
  by_cases hempty : trimmed Written.value value = []
  · rw [if_pos hempty, if_pos (hnil.mpr hempty)]
    exact ⟨fun h => ⟨(hnil.mpr hempty).trans hempty.symm, fun _ => h⟩, fun h => h.2 hempty⟩
  · rw [if_neg hempty, if_neg (mt hnil.mp hempty)]
    exact ⟨fun h => ⟨h, fun h' => absurd h' hempty⟩, And.left⟩

theorem length_le_escape (value : Text) : value.length ≤ (escape value).length := by
  induction value with
  | nil => exact Nat.le_refl _
  | cons c value ih =>
    have hone : 1 ≤ (Xml.escapeChar c).length := by
      unfold Xml.escapeChar
      split <;> simp
    rw [escape, flatMap_cons, length_append, length_cons]
    unfold escape at ih
    omega

theorem escape_eq_self_iff (value : Text) : escape value = value ↔ Plain value := by
  unfold Plain
  induction value with
  | nil => exact iff_of_true rfl fun _ h => by cases h
  | cons c value ih =>
    have hcons : escape (c :: value) = Xml.escapeChar c ++ escape value := flatMap_cons
    rw [forall_mem_cons, ← ih, hcons, Xml.escapeChar]
    cases Xml.entity c with
    | some name =>
      -- a reference is longer than its character
      refine iff_of_false (fun h => ?_) fun h => by cases h.1
      have hlength := length_le_escape value
      have hsum := congrArg length h
      simp at hsum
      omega
    | none => simp

theorem Entry.takenUrl_eq_url_iff (e : Entry) : e.takenUrl = e.url ↔ match e.extra, e.link with
    | .enclosure url _, _ => Plain url
    | _, .href value => Plain value
    | _, .text value => value.Faithful := by
  obtain ⟨title, link, guid, category, extra⟩ := e
  unfold Entry.takenUrl Entry.url
  cases extra <;> cases link <;>
    simp [Link.taken, Link.value, escape_eq_self_iff, Written.trim_shown_eq_iff]

/-- **An item is taken as it is** exactly if nothing in it is changed or escaped. -/
theorem Entry.taken_eq_item_iff (e : Entry) : e.taken = e.item ↔ e.Verbatim := by
  unfold Entry.taken Entry.item
  simp only [Filter.FeedItem.mk.injEq, Written.trim_shown_eq_iff, textOr_eq_iff, and_true]
  constructor
  · rintro ⟨htitle, hurl, ⟨hguid, -⟩, hcategory, hother⟩
    refine ⟨htitle, e.takenUrl_eq_url_iff.mp hurl, hguid, hcategory,
      fun category hextra hempty => ?_⟩
    have hescape := hother hempty
    simp only [hextra] at hescape
    exact (escape_eq_self_iff category).mp hescape
  · intro h
    have hurl := e.takenUrl_eq_url_iff.mpr h.url
    refine ⟨h.title, hurl, ⟨h.guid, fun _ => hurl⟩, h.category, fun hempty => ?_⟩
    cases hextra : e.extra with
    | category category => exact (escape_eq_self_iff category).mpr (h.extra category hextra hempty)
    | _ => rfl

/-! ### Running over the pieces -/

/-- The pieces lead from one cursor to another, and no item ends in them. -/
def Goes (s : Cursor) (ps : List Piece) (s' : Cursor) : Prop :=
  ∀ rest, ended s (ps.map Event.ofPiece ++ rest) = ended s' rest

theorem Goes.refl (s : Cursor) : Goes s [] s := fun _ => rfl

theorem Goes.trans {s s' s'' : Cursor} {ps qs : List Piece} (h : Goes s ps s')
    (h' : Goes s' qs s'') :
    Goes s (ps ++ qs) s'' := by
  intro rest
  rw [map_append, append_assoc, h, h']

variable {s : Cursor}

theorem goes_one {s' : Cursor} {p : Piece} (h : onEvent s (Event.ofPiece p) = (s', none)) :
    Goes s [p] s' := by
  intro rest
  rw [map_singleton, singleton_append, ended, h, Option.toList_none, nil_append]

def shown : List Token → Text
  | [] => []
  | .text run :: ts => eol run ++ shown ts
  | .ref name :: ts => resolveRef name none ++ shown ts
  | _ :: ts => shown ts

theorem goes_tokens {ts : List Token} (hts : ∀ t ∈ ts, t.isInline = true)
    (h : s.textTarget.isSome) :
    Goes s (ts.map Piece.token) { s with text := s.text ++ shown ts } := by
  induction ts generalizing s with
  | nil =>
    intro rest
    rw [shown, append_nil]
    rfl
  | cons t ts ih =>
    have hrest := fun u hu => hts u (mem_cons_of_mem _ hu)
    have hstep (chunk : Text)
        (hevent : onEvent s (Event.ofPiece (.token t)) =
          ({ s with text := s.text ++ chunk }, none))
        (hshown : shown (t :: ts) = chunk ++ shown ts) :
        Goes s ((t :: ts).map Piece.token) { s with text := s.text ++ shown (t :: ts) } := by
      rw [hshown, ← append_assoc]
      exact (goes_one hevent).trans (ih hrest (s := { s with text := s.text ++ chunk }) h)
    cases t with
    | text run => exact hstep (eol run) (by simp [Event.ofPiece, onEvent, h]) rfl
    | ref name => exact hstep (resolveRef name none) (by simp [Event.ofPiece, onEvent, h]) rfl
    | _ => cases hts _ mem_cons_self

/-- **A text is shown** with line feeds. -/
theorem shown_escapeTokens (value : Text) : shown (escapeTokens value) = eol value := by
  induction value with
  | nil => rfl
  | cons c value ih =>
    rw [escapeTokens]
    cases hentity : Xml.entity c with
    | some name =>
      have hresolve : resolveRef name none = [c] ∧ c ≠ '\r' := by
        unfold Xml.entity at hentity
        split_ifs at hentity with hamp hlt hgt hquot
        all_goals
          obtain rfl := Option.some.inj hentity
          subst_vars
          decide
      show resolveRef name none ++ shown (escapeTokens value) = _
      rw [hresolve.1, ih, eol_cons, if_neg fun h => hresolve.2 h.1, if_neg hresolve.2]
      rfl
    | none =>
      have hone (h : value.head? ≠ some '\n') :
          eol [c] ++ shown (escapeTokens value) = eol (c :: value) := by
        rw [eol_cons c value, if_neg fun h' => h h'.2, ih, eol_cons, if_neg fun h => by cases h.2]
        rfl
      show shown (Xml.consText c (escapeTokens value)) = _
      cases value with
      | nil => exact hone (by simp)
      | cons d value =>
        rw [escapeTokens] at ih hone ⊢
        cases hd : Xml.entity d with
        | some name =>
          rw [hd] at hone
          refine hone fun h => ?_
          rw [Option.some.inj h] at hd
          cases hd
        | none =>
          -- the two characters are in one run
          obtain ⟨run, ts, hrun⟩ : ∃ run ts, Xml.consText d (escapeTokens value) =
              .text (d :: run) :: ts := by
            unfold Xml.consText
            split
            · exact ⟨_, _, rfl⟩
            · exact ⟨_, _, rfl⟩
          rw [hd] at ih
          simp only [hrun] at ih ⊢
          show eol (c :: d :: run) ++ shown ts = _
          rw [eol_cons, eol_cons c (d :: value), ← ih]
          show (if c = '\r' ∧ some d = some '\n' then _ else _) ++ _ =
            if c = '\r' ∧ some d = some '\n' then _ else _
          split <;> rfl

theorem goes_written (w : Written) (h : s.textTarget.isSome) :
    Goes s w.pieces { s with text := s.text ++ w.shown } := by
  cases w with
  | escaped value =>
    have hgoes := goes_tokens (Xml.inline_escapeTokens value) h
    rw [shown_escapeTokens] at hgoes
    exact hgoes
  | cdata value => exact goes_one (by simp [Event.ofPiece, onEvent, h, Written.shown])

/-- Inside of an item, between its elements. -/
structure At (item : FeedItem) (s : Cursor) : Prop where
  cur : s.cur = some item
  pubDate : s.pubDate = []
  target : s.textTarget = none

variable {item : FeedItem}

/-- **An element with a text** sets its field. -/
theorem goes_element (name : String) (target : TextTarget) (h : At item s)
    (hstart : ∀ s : Cursor, s.cur = some item →
      onStart s (text name) [] = { s with textTarget := some target, text := [] })
    (hname : isItem (text name) = false) (hdate : target ≠ .date) (w : Written) :
    ∃ s', At (setTarget target (Utf8.trim w.shown) item) s' ∧
      Goes s (element name w.pieces) s' := by
  let opened : Cursor := { s with textTarget := some target, text := [] }
  have hopen : Goes s [.token (.tag (text name) [])] opened :=
    goes_one (congrArg (·, none) (hstart s h.cur))
  have hcontent : Goes opened w.pieces { opened with text := w.shown } := goes_written w rfl
  have hclose : Goes { opened with text := w.shown } [.token (.close (text name))]
      { s with
        textTarget := none, text := w.shown
        cur := some (setTarget target (Utf8.trim w.shown) item) } := by
    refine goes_one ?_
    rw [Event.ofPiece, onEvent, closeTarget, hname]
    simp only [opened, h.cur, if_neg hdate]
    rfl
  refine ⟨_, ?_, hopen.trans (hcontent.trans hclose)⟩
  exact ⟨rfl, h.pubDate, rfl⟩

theorem goes_optional (name : String) (target : TextTarget) (h : At item s)
    (hstart : ∀ s : Cursor, s.cur = some item →
      onStart s (text name) [] = { s with textTarget := some target, text := [] })
    (hname : isItem (text name) = false) (hdate : target ≠ .date) (value : Option Written) :
    ∃ s', At ((value.map fun w =>
      setTarget target (Utf8.trim w.shown) item).getD item) s' ∧
        Goes s (optional name value) s' := by
  cases value with
  | none => exact ⟨s, h, Goes.refl s⟩
  | some w => exact goes_element name target h hstart hname hdate w

theorem goes_empty (h : At item s) {name : Text} {attributes : List (Text × Text)}
    {item' : FeedItem} (happly : onEmpty item name (eventAttributes attributes) = item') :
    ∃ s', At item' s' ∧ Goes s [.empty name attributes] s' := by
  refine ⟨{ s with cur := s.cur.map (onEmpty · name (eventAttributes attributes)) },
    ⟨?_, h.pubDate, h.target⟩, goes_one rfl⟩
  show s.cur.map _ = _
  rw [h.cur, ← happly]
  rfl

/-! ### An entry -/

theorem escape_showNat (n : Nat) : escape (showNat n) = showNat n := by
  have hdigit : ∀ d < 10, Xml.entity (Nat.digitChar d) = none := by decide
  refine (escape_eq_self_iff _).mpr fun c hc => ?_
  obtain ⟨d, hd, rfl⟩ := Numeral.mem_toDigits_ten n c hc
  exact hdigit d hd

theorem sizeOr_showNat {n : Nat} (h : n < 2 ^ 64) (size : Nat) : sizeOr (showNat n) size = n := by
  unfold sizeOr showNat
  rw [Numeral.fromStrRadix_toDigits (.inl rfl) h, Option.getD_some]

/-- What the last element of an entry says. -/
def Extra.applied (extra : Extra) (item : FeedItem) : FeedItem :=
  match extra with
  | .none => item
  | .enclosure url n => { item with url := escape url, size := n }
  | .size n => { item with size := n }
  | .category value => if item.category = [] then { item with category := escape value } else item

theorem goes_extra (h : At item s) {extra : Extra}
    (hsize : ∀ n, (∃ url, extra = .enclosure url n) ∨ extra = .size n → n < 2 ^ 64) :
    ∃ s', At (extra.applied item) s' ∧ Goes s extra.pieces s' := by
  cases extra with
  | none => exact ⟨s, h, Goes.refl s⟩
  | enclosure url n =>
    refine goes_empty h ?_
    unfold keyValue
    rw [escape_showNat]
    show { item with url := escape url, size := sizeOr (showNat n) item.size } = _
    rw [sizeOr_showNat (hsize n (.inl ⟨url, rfl⟩))]
    rfl
  | size n =>
    refine goes_empty h ?_
    unfold keyValue
    rw [escape_showNat]
    show { item with size := sizeOr (showNat n) item.size } = _
    rw [sizeOr_showNat (hsize n (.inr rfl))]
    rfl
  | category value =>
    refine goes_empty h ?_
    show (if (true && decide (item.category = [])) = true then
      { item with category := escape value } else item) = _
    rw [Bool.true_and]
    simp only [decide_eq_true_eq]
    rfl

theorem goes_link (h : At item s) (hurl : item.url = []) (link : Link) :
    ∃ s', At { item with url := link.taken } s' ∧ Goes s link.pieces s' := by
  cases link with
  | text value =>
    have hstart : ∀ s : Cursor, s.cur = some item →
        onStart s (text "link") [] = { s with textTarget := some .link, text := [] } := by
      intro s hs
      unfold onStart
      rw [hs]
      rfl
    obtain ⟨s', hs', hgoes⟩ := goes_element "link" .link h hstart (by decide) (by decide) value
    have happly : setTarget .link (Utf8.trim value.shown) item =
      { item with url := Utf8.trim value.shown } :=
      if_pos hurl
    exact ⟨s', happly ▸ hs', hgoes⟩
  | href value =>
    refine goes_empty h ?_
    show setUrl (escape value) item = _
    exact if_pos hurl

/-- Between two items. -/
structure Idle (s : Cursor) : Prop where
  cur : s.cur = none
  target : s.textTarget = none

theorem onStart_of_target (name : String) (target : TextTarget) (hname : isItem (text name) = false)
    (hlink : text name ≠ text "link") (htarget : targetOf (text name) = some target)
    (hs : s.cur = some item) :
    onStart s (text name) [] = { s with textTarget := some target, text := [] } := by
  unfold onStart
  rw [hname, hs, htarget, decide_eq_false hlink]
  rfl

/-- The item that is open when its end tag comes. -/
def Entry.before (e : Entry) : FeedItem :=
  e.extra.applied {
    title := Utf8.trim e.title.shown
    url := e.link.taken
    guid := trimmed Written.shown e.guid
    category := trimmed Written.shown e.category
    size := 0
    ageDays := 0 }

theorem withGuid_before (e : Entry) : withGuid e.before = e.taken := by
  unfold Entry.before Entry.taken Entry.takenUrl Entry.item withGuid textOr Extra.applied
  cases e.extra with
  | category value =>
    simp only
    split_ifs <;> rfl
  | _ =>
    simp only
    split_ifs <;> simp_all

/-- **An entry** ends as its item. -/
theorem ended_entry {e : Entry} (he : e.Ok) (format : Format) (hs : Idle s) :
    ∃ s', Idle s' ∧ ∀ rest, ended s ((e.pieces format).map Event.ofPiece ++ rest) =
      (e.taken, []) :: ended s' rest := by
  have hitem : isItem (text format.itemName) = true := by cases format <;> decide
  have hguid : isItem (text format.guidName) = false ∧ text format.guidName ≠ text "link" ∧
      targetOf (text format.guidName) = some .guid := by
    cases format <;> decide
  have hsize : ∀ n, (∃ url, e.extra = .enclosure url n) ∨ e.extra = .size n → n < 2 ^ 64 := by
    intro n hn
    have hlt := he.size
    unfold Entry.item at hlt
    rcases hn with ⟨url, hn⟩ | hn
    · rwa [hn] at hlt
    · rwa [hn] at hlt
  have hopen : At emptyItem { s with cur := some emptyItem, pubDate := [], text := [] } :=
    ⟨rfl, rfl, hs.target⟩
  obtain ⟨s₁, hs₁, htitle⟩ := goes_element "title" .title hopen
    (fun s hs => onStart_of_target "title" .title (by decide) (by decide) (by decide) hs)
    (by decide) (by decide)
    e.title
  obtain ⟨s₂, hs₂, hlink⟩ := goes_link hs₁ rfl e.link
  obtain ⟨s₃, hs₃, hguid'⟩ := goes_optional format.guidName .guid hs₂
    (fun s hs => onStart_of_target format.guidName .guid hguid.1 hguid.2.1 hguid.2.2 hs) hguid.1
    (by decide) e.guid
  obtain ⟨s₄, hs₄, hcategory⟩ := goes_optional "category" .category hs₃
    (fun s hs => onStart_of_target "category" .category (by decide) (by decide) (by decide) hs)
    (by decide) (by decide) e.category
  obtain ⟨s₅, hs₅, hextra⟩ := goes_extra hs₄ hsize
  have hinside := htitle.trans (hlink.trans (hguid'.trans (hcategory.trans hextra)))
  have hfinal : At e.before s₅ := by
    refine ⟨hs₅.cur.trans (congrArg some ?_), hs₅.pubDate, hs₅.target⟩
    unfold Entry.before
    congr 1
    cases e.guid <;> cases e.category <;> rfl
  have hclosed : onEvent s₅ (.stop (text format.itemName)) =
      ({ s₅ with cur := none }, some (e.taken, [])) := by
    have hsame : closeTarget s₅ = s₅ := by
      unfold closeTarget
      rw [hfinal.target]
      exact congrArg (Cursor.mk s₅.cur s₅.pubDate · s₅.text) hfinal.target.symm
    simp only [onEvent, hsame, hitem, if_true, hfinal.cur, hfinal.pubDate, Option.map_some,
      withGuid_before]
  refine ⟨{ s₅ with cur := none }, ⟨rfl, hfinal.target⟩, fun rest => ?_⟩
  have hstart : onEvent s (.start (text format.itemName) []) =
      ({ s with cur := some emptyItem, pubDate := [], text := [] }, none) := by
    rw [onEvent, onStart, if_pos hitem]
  unfold Entry.pieces element
  rw [map_cons, map_append, map_singleton, cons_append, append_assoc]
  show ended s (.start (text format.itemName) [] :: _) = _
  rw [ended, hstart, Option.toList_none, nil_append]
  refine (hinside _).trans ?_
  show ended s₅ (.stop (text format.itemName) :: rest) = _
  rw [ended, hclosed]
  rfl

/-! ### A feed -/

/-- No item starts there. -/
def Outside (p : Piece) : Prop :=
  ∀ name attributes, p = .token (.tag name attributes) → isItem name = false

theorem idle_onEvent (hs : Idle s) {p : Piece} (hp : Outside p) :
    Idle (onEvent s (Event.ofPiece p)).1 ∧ (onEvent s (Event.ofPiece p)).2 = none := by
  have hclose : closeTarget s = { s with textTarget := none } := by
    unfold closeTarget
    rw [hs.target]
  cases p with
  | token t =>
    cases t with
    | decl content => exact ⟨hs, rfl⟩
    | tag name attributes =>
      have hname := hp name attributes rfl
      have hstart : onStart s name (eventAttributes attributes) = { s with text := [] } := by
        unfold onStart
        rw [hname, hs.cur, Option.isSome_none, Bool.and_false]
        rfl
      refine ⟨?_, rfl⟩
      show Idle (onStart s name (eventAttributes attributes))
      rw [hstart]
      exact ⟨hs.cur, hs.target⟩
    | close name =>
      simp only [Event.ofPiece, onEvent, hclose]
      split
      · exact ⟨⟨rfl, rfl⟩, by rw [hs.cur]; rfl⟩
      · exact ⟨⟨hs.cur, rfl⟩, rfl⟩
    | text run =>
      simp only [Event.ofPiece, onEvent, hs.target, Option.isSome_none]
      exact ⟨hs, trivial⟩
    | ref name =>
      simp only [Event.ofPiece, onEvent, hs.target, Option.isSome_none]
      exact ⟨hs, trivial⟩
  | empty name attributes => exact ⟨⟨by show s.cur.map _ = none; rw [hs.cur]; rfl, hs.target⟩, rfl⟩
  | cdata content =>
    simp only [Event.ofPiece, onEvent, hs.target, Option.isSome_none]
    exact ⟨hs, trivial⟩

theorem goes_outside {ps : List Piece} (hps : ∀ p ∈ ps, Outside p) (hs : Idle s) :
    ∃ s', Idle s' ∧ Goes s ps s' := by
  induction ps generalizing s with
  | nil => exact ⟨s, hs, Goes.refl s⟩
  | cons p ps ih =>
    obtain ⟨hidle, hnone⟩ := idle_onEvent hs (hps p mem_cons_self)
    obtain ⟨s', hs', hgoes⟩ := ih (fun q hq => hps q (mem_cons_of_mem _ hq)) hidle
    exact ⟨s', hs', (goes_one (Prod.ext rfl hnone)).trans hgoes⟩

theorem outside_written (w : Written) : ∀ p ∈ w.pieces, Outside p := by
  intro p hp name attributes heq
  cases w with
  | escaped value =>
    obtain ⟨t, ht, rfl⟩ := mem_map.mp hp
    obtain rfl := Piece.token.inj heq
    cases Xml.inline_escapeTokens value _ ht
  | cdata value => cases (mem_singleton.mp hp).symm.trans heq

theorem ended_entries {entries : List Entry} (h : ∀ e ∈ entries, e.Ok) (format : Format)
    (hs : Idle s) :
    ∃ s', Idle s' ∧ ∀ rest,
      ended s ((entries.flatMap (·.pieces format)).map Event.ofPiece ++ rest) =
      entries.map (fun e => (e.taken, [])) ++ ended s' rest := by
  induction entries generalizing s with
  | nil => exact ⟨s, hs, fun _ => rfl⟩
  | cons e entries ih =>
    obtain ⟨s₁, hs₁, hfirst⟩ := ended_entry (h e mem_cons_self) format hs
    obtain ⟨s₂, hs₂, hrest⟩ := ih (fun e he => h e (mem_cons_of_mem _ he)) hs₁
    refine ⟨s₂, hs₂, fun rest => ?_⟩
    rw [flatMap_cons, map_append, append_assoc, hfirst, hrest]
    rfl

/-- What stands before the entries of a feed, and behind them. -/
def Format.frame (format : Format) (title : Written) : List Piece × List Piece :=
  match format with
  | .rss => (.token (.tag (text "rss") []) :: .token (.tag (text "channel") []) ::
      element "title" title.pieces,
      [.token (.close (text "channel")), .token (.close (text "rss"))])
  | .atom => (.token (.tag (text "feed") []) :: element "title" title.pieces,
    [.token (.close (text "feed"))])

theorem Source.pieces_eq (feed : Source) : feed.pieces = (feed.format.frame feed.title).1 ++
    (feed.entries.flatMap (·.pieces feed.format) ++ (feed.format.frame feed.title).2) := by
  unfold Source.pieces Format.frame
  cases feed.format <;> simp [element]

theorem outside_tag {name : String} (h : isItem (text name) = false) :
    Outside (.token (.tag (text name) [])) := by
  intro name' attributes heq
  obtain ⟨rfl, _⟩ := Token.tag.inj (Piece.token.inj heq)
  exact h

theorem outside_frame (format : Format) (title : Written) :
    (∀ p ∈ (format.frame title).1, Outside p) ∧ ∀ p ∈ (format.frame title).2, Outside p := by
  have hclose (name : String) : Outside (.token (.close (text name))) := fun _ _ heq => by
    cases Piece.token.inj heq
  have htitle : ∀ p ∈ element "title" title.pieces, Outside p := by
    unfold element
    rw [forall_mem_cons, forall_mem_append, forall_mem_singleton]
    exact ⟨outside_tag (by decide), outside_written title, hclose _⟩
  unfold Format.frame
  cases format with
  | rss =>
    simp only [forall_mem_cons]
    exact ⟨⟨outside_tag (by decide), outside_tag (by decide), htitle⟩, hclose _, hclose _,
      fun _ h => by cases h⟩
  | atom =>
    simp only [forall_mem_cons]
    exact ⟨⟨outside_tag (by decide), htitle⟩, hclose _, fun _ h => by cases h⟩

/-- **The items of a feed** end one after the other. -/
theorem ended_source {feed : Source} (h : feed.Ok) : ended .init (feed.pieces.map Event.ofPiece) =
    feed.entries.map fun e => (e.taken, []) := by
  obtain ⟨hbefore, hbehind⟩ := outside_frame feed.format feed.title
  obtain ⟨s₁, hs₁, hfirst⟩ := goes_outside hbefore (s := .init) ⟨rfl, rfl⟩
  obtain ⟨s₂, hs₂, hentries⟩ := ended_entries h.entries feed.format hs₁
  obtain ⟨s₃, hs₃, hlast⟩ := goes_outside hbehind hs₂
  rw [feed.pieces_eq, map_append, hfirst, map_append, hentries]
  have hend := hlast []
  rw [append_nil] at hend
  rw [hend]
  exact append_nil _

/-! ### The document of a feed -/

/-- Pieces that may stand between two tags. -/
structure Inside (ps : List Piece) : Prop where
  content : Xml.Content (ps.flatMap Piece.expand)
  legible : ∀ p ∈ ps, p.Legible

/-- Pieces that text may follow. -/
structure Whole (ps : List Piece) : Prop where
  block : Xml.Block (ps.flatMap Piece.expand)
  legible : ∀ p ∈ ps, p.Legible

theorem Whole.inside {ps : List Piece} (h : Whole ps) : Inside ps := ⟨h.block.toContent, h.legible⟩

theorem whole_nil : Whole [] := ⟨.nil, fun _ h => by cases h⟩

theorem Whole.append {ps qs : List Piece} (h : Whole ps) (h' : Whole qs) : Whole (ps ++ qs) := by
  refine ⟨?_, fun p hp => (mem_append.mp hp).elim (h.legible p) (h'.legible p)⟩
  rw [flatMap_append]
  exact h.block.append_block h'.block

theorem whole_element (name : String) {content : List Piece} (hname : IsName (text name))
    (h : Inside content) :
    Whole (element name content) := by
  refine ⟨?_, fun p hp => ?_⟩
  · have hblock := @Xml.Content.element _ [] _ h.content hname (by simp)
    unfold element
    rw [flatMap_cons, flatMap_append]
    exact hblock
  · rcases mem_cons.mp hp with rfl | hp
    · trivial
    · rcases mem_append.mp hp with hp | hp
      · exact h.legible p hp
      · obtain rfl := mem_singleton.mp hp
        trivial

theorem whole_empty {name : String} {attributes : List (Text × Text)} (hname : IsName (text name))
    (h : ∀ a ∈ attributes, Xml.IsAttribute a) (hkeys : (attributes.map (·.1)).Nodup) :
    Whole [.empty (text name) attributes] := by
  refine ⟨Xml.Content.nil.element hname ⟨h, hkeys⟩, fun p hp => ?_⟩
  obtain rfl := mem_singleton.mp hp
  trivial

theorem inside_written {w : Written} (hw : w.Ok) : Inside w.pieces := by
  cases w with
  | escaped value =>
    refine ⟨?_, fun p hp => ?_⟩
    · show Xml.Content (((escapeTokens value).map Piece.token).flatMap Piece.expand)
      rw [flatMap_map]
      show Xml.Content ((escapeTokens value).flatMap fun t => [t])
      rw [flatMap_singleton']
      exact Xml.content_escapeTokens value
    · obtain ⟨t, ht, rfl⟩ := mem_map.mp hp
      have hinline := Xml.inline_escapeTokens value t ht
      cases t with
      | decl content => cases hinline
      | _ => trivial
  | cdata value =>
    refine ⟨(Xml.Block.decl not_mem_nil).toContent, fun p hp => ?_⟩
    obtain rfl := mem_singleton.mp hp
    exact hw

theorem isAttribute_keyValue {key : String} (h : IsName (text key)) (value : Text) :
    Xml.IsAttribute (keyValue key value) := Xml.isAttribute_escape h value

theorem whole_link {link : Link} (h : ∀ value, link = .text value → value.Ok) :
    Whole link.pieces := by
  cases link with
  | text value => exact whole_element "link" (by decide) (inside_written (h value rfl))
  | href value =>
    refine whole_empty (by decide) ?_ (nodup_singleton _)
    rw [forall_mem_singleton]
    exact isAttribute_keyValue (by decide) value

theorem whole_optional {name : String} (hname : IsName (text name)) {value : Option Written}
    (h : ∀ w, value = some w → w.Ok) : Whole (optional name value) := by
  cases value with
  | none => exact whole_nil
  | some w => exact whole_element name hname (inside_written (h w rfl))

theorem whole_extra (extra : Extra) : Whole extra.pieces := by
  have hpair {name key key' : String} (hname : IsName (text name)) (hkey : IsName (text key))
      (hkey' : IsName (text key')) (hne : text key ≠ text key') (value value' : Text) :
      Whole [.empty (text name) [keyValue key value, keyValue key' value']] := by
    refine whole_empty hname ?_ (by simpa [keyValue] using hne)
    rw [forall_mem_cons, forall_mem_singleton]
    exact ⟨isAttribute_keyValue hkey value, isAttribute_keyValue hkey' value'⟩
  cases extra with
  | none => exact whole_nil
  | enclosure url n => exact hpair (by decide) (by decide) (by decide) (by decide) _ _
  | size n => exact hpair (by decide) (by decide) (by decide) (by decide) _ _
  | category value => exact hpair (by decide) (by decide) (by decide) (by decide) _ _

theorem whole_entry {e : Entry} (he : e.Ok) (format : Format) : Whole (e.pieces format) := by
  refine whole_element format.itemName (by cases format <;> decide) (Whole.inside ?_)
  refine (whole_element "title" (by decide) (inside_written he.title.2)).append
    ((whole_link he.link).append ?_)
  refine (whole_optional (by cases format <;> decide) he.guid).append ?_
  exact (whole_optional (by decide) he.category).append (whole_extra e.extra)

theorem documentOf_pieces {feed : Source} (h : feed.Ok) : DocumentOf feed.pieces := by
  have hentries : ∀ {entries : List Entry}, (∀ e ∈ entries, e.Ok) →
      Whole (entries.flatMap (·.pieces feed.format)) := by
    intro entries hentries
    induction entries with
    | nil => exact whole_nil
    | cons e entries ih =>
      rw [flatMap_cons]
      exact (whole_entry (hentries e mem_cons_self) feed.format).append
        (ih fun e he => hentries e (mem_cons_of_mem _ he))
  have hcontent :=
    (whole_element "title" (by decide) (inside_written h.title)).append (hentries h.entries)
  have hwhole : Whole feed.pieces := by
    unfold Source.pieces
    cases hformat : feed.format with
    | rss =>
      rw [hformat] at hcontent
      exact whole_element "rss" (by decide)
        (whole_element "channel" (by decide) hcontent.inside).inside
    | atom =>
      rw [hformat] at hcontent
      exact whole_element "feed" (by decide) hcontent.inside
  exact ⟨hwhole.block.toContent.wellFormed, hwhole.legible⟩

/-! ### What comes back -/

/-- **The items of a feed**, with the attribute values as they are written. -/
theorem parseFeed_render {reader : Text → List Event} (hreads : Reads reader) {feed : Source}
    (h : feed.Ok)
    (now : Int) : parseFeed reader feed.render now = some (feed.entries.map Entry.taken) := by
  have hpush : ∀ (entries : List Entry) (items : List FeedItem), (∀ e ∈ entries, e.Ok) →
      (entries.map fun e => (e.taken, ([] : Text))).foldlM
        (fun items p => push now items (some p)) items =
        some (items ++ entries.map Entry.taken) := by
    intro entries
    induction entries with
    | nil => exact fun items _ => congrArg some (append_nil items).symm
    | cons e entries ih =>
      intro items hentries
      have he := hentries e mem_cons_self
      have hurl : e.taken.url ≠ [] := by
        have hescape (value : Text) (hvalue : value ≠ []) : escape value ≠ [] := by
          obtain ⟨c, cs, rfl⟩ := exists_cons_of_ne_nil hvalue
          intro hnil
          have hc : Xml.escapeChar c = [] := (append_eq_nil_iff.mp (flatMap_cons.symm.trans hnil)).1
          unfold Xml.escapeChar at hc
          split at hc <;> cases hc
        have hne := he.url
        show e.takenUrl ≠ []
        unfold Entry.url at hne
        unfold Entry.takenUrl
        cases hextra : e.extra with
        | enclosure url n => exact hescape url (by rwa [hextra] at hne)
        | _ =>
          rw [hextra] at hne
          cases hlink : e.link with
          | text value =>
            rw [hlink] at hne
            exact mt value.trim_shown_eq_nil.mp hne
          | href value => exact hescape value (by rwa [hlink] at hne)
      have hlisted : listed e.taken 0 = [e.taken] :=
        if_pos ⟨mt e.title.trim_shown_eq_nil.mp he.title.1, hurl⟩
      have hage : ageDays [] now = some 0 := rfl
      rw [map_cons, foldlM_cons, push_some, hage]
      refine (ih (items ++ listed e.taken 0) fun e he => hentries e (mem_cons_of_mem _ he)).trans ?_
      rw [hlisted, append_assoc, map_cons]
      rfl
  rw [parseFeed, Source.render, hreads _ (documentOf_pieces h), walk_eq, ended_source h]
  exact hpush feed.entries [] h.entries

/-- **A feed comes back** exactly if its entries have line feeds only and no attribute value that is
used has anything to escape, and **no number is too large** exactly if the dates of the items of a
text can be counted. -/
theorem parseFeed_iff (reader : Text → List Event) (hreads : Reads reader) (feed : Source)
    (h : feed.Ok)
    (xml : Text) (now : Int) :
    (parseFeed reader feed.render now = some (feed.entries.map Entry.item) ↔
      ∀ e ∈ feed.entries, e.Verbatim) ∧
    ((parseFeed reader xml now).isSome ↔ ∀ p ∈ ended .init (reader xml), DateFits p.2 now) := by
  refine ⟨?_, walk_isSome_iff now .init [] (reader xml)⟩
  rw [parseFeed_render hreads h now]
  have hmap : feed.entries.map Entry.taken = feed.entries.map Entry.item ↔
      ∀ e ∈ feed.entries, e.taken = e.item := by
    exact map_inj_left
  refine (Option.some_inj.trans hmap).trans ?_
  exact forall_congr' fun e => imp_congr_right fun _ => e.taken_eq_item_iff

def download (url : String) : Entry where
  title := .escaped (text "TV > HD")
  link := .text (.cdata (text "https://i/d/1"))
  guid := some (.escaped (text "1"))
  category := none
  extra := .enclosure (text url) 7

def oneItem (url : String) : Source := ⟨.rss, .escaped (text "i"), [download url]⟩

theorem ok_oneItem {url : String} (h : text url ≠ []) : (oneItem url).Ok where
  title := trivial
  entries e he := by
    obtain rfl := mem_singleton.mp he
    refine ⟨⟨?_, trivial⟩, h, fun value hvalue => ?_, fun value hvalue => ?_,
      fun value hvalue => (by cases hvalue), ?_⟩
    · show Utf8.trim (text "TV > HD") ≠ []
      decide
    · obtain rfl : Written.cdata (text "https://i/d/1") = value := Link.text.inj hvalue
      show Xml.uptoClose (text "https://i/d/1") = none
      decide
    · obtain rfl : Written.escaped (text "1") = value := Option.some.inj hvalue
      trivial
    · show 7 < 2 ^ 64
      decide

def absurdYear : Text := text "<item><pubDate>1 Jan 9000000000000000000</pubDate></item>"

def leapDay : Text := text "<item><pubDate>Thu, 29 Feb 2024 08:00:00 +0000</pubDate></item>"

theorem parseFeed_iff_oneItem :
    parseFeed pieceReader (oneItem "https://i/1.nzb").render 1709251200 =
        some ((oneItem "https://i/1.nzb").entries.map Entry.item) ∧
      parseFeed pieceReader leapDay 1709251200 ≠ none := by
  have hiff := parseFeed_iff pieceReader pieceReader_reads (oneItem "https://i/1.nzb")
    (ok_oneItem (by decide)) leapDay 1709251200
  refine ⟨hiff.1.mpr fun e he => ?_, Option.isSome_iff_ne_none.mp (hiff.2.mpr fun p hp d hd => ?_)⟩
  · obtain rfl := mem_singleton.mp he
    refine ⟨?_, ?_, fun value h => ?_, fun value h => (by cases h), fun category h => (by cases h)⟩
    · show '\r' ∉ Utf8.trim (text "TV > HD")
      decide
    · show Plain (text "https://i/1.nzb")
      unfold Plain
      decide
    · obtain rfl : Written.escaped (text "1") = value := Option.some.inj h
      show '\r' ∉ Utf8.trim (text "1")
      decide
  · have hdates : ∀ p ∈ ended .init (pieceReader leapDay), dateIn p.2 = some ⟨29, 2, 2024⟩ := by
      decide +kernel
    obtain rfl : PubDate.mk 29 2 2024 = d := Option.some.inj ((hdates p hp).symm.trans hd)
    refine ⟨by decide, by decide, by decide, ?_⟩
    unfold InI64
    decide

/-- A `&` in a URL comes back as `&amp;`, and an absurd year is too large to be counted. -/
theorem ampersand_kept : (oneItem "https://i/1?a=b&c=d").Ok ∧
    parseFeed pieceReader (oneItem "https://i/1?a=b&c=d").render 0 ≠
      some ((oneItem "https://i/1?a=b&c=d").entries.map Entry.item) ∧
    parseFeed pieceReader absurdYear 0 = none := by
  have hok : (oneItem "https://i/1?a=b&c=d").Ok := ok_oneItem (by decide)
  refine ⟨hok, ?_, by decide +kernel⟩
  rw [parseFeed_render pieceReader_reads hok 0]
  decide

end Nzbd.Feed.Parse
