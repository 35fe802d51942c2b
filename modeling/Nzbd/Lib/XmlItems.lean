import Nzbd.Lib.Utf8
import Nzbd.Lib.Xml

/-!
# XML with empty elements, and a reader that trims

An item is a token or an empty element, `<name/>`, which is well formed where the element written
out would be (`Document`).  `readItems_renderItems` is the round trip of items.

A trimming reader delivers a document event by event: the white space at the ends of every run of
text is dropped, and the run with it if nothing else is left; a reference is an event of its own,
so the runs around it are trimmed where they touch it.  `Trims` is what a program relies on in its
reader, and `trimmingReader` such a reader.
-/

namespace Xml

open List

inductive Item
  | token (t : Token)
  /-- `<name/>` -/
  | empty (name : Chars)

def Item.raw : Item → Token
  | .token t => t
  | .empty name => .tag (name ++ ['/']) []

/-- The element written out. -/
def Item.expand : Item → List Token
  | .token t => [t]
  | .empty name => [.tag name [], .close name]

def Item.ofRaw (t : Token) : Item :=
  match t with
  | .tag name [] => if name.getLast? = some '/' then .empty name.dropLast else .token t
  | _ => .token t

def renderItems (is : List Item) : Chars := render (is.map Item.raw)

def readItems (cs : Chars) : Option (List Item) := (tokenize cs).map (·.map Item.ofRaw)

def Document (is : List Item) : Prop := WellFormed (is.flatMap Item.expand)

theorem renderItems_append (is js : List Item) :
    renderItems (is ++ js) = renderItems is ++ renderItems js := by
  rw [renderItems, map_append, render, flatMap_append]
  rfl

variable {is : List Item} {i : Item}

theorem Item.legible (h : ∀ t ∈ i.expand, t.WellFormed) : i.raw.Legible := by
  cases i with
  | token t => exact (h t (mem_singleton_self t)).legible
  | empty name =>
    have hname : IsName name := (h (.tag name []) mem_cons_self).1
    have htag := hname.isTagName
    refine ⟨⟨by simp, fun c hc => ?_, fun c hc => ?_⟩, by simp⟩
    · rcases mem_append.mp hc with hc | hc
      · exact htag.chars c hc
      · obtain rfl := mem_singleton.mp hc
        decide
    · rw [head?_append_of_ne_nil _ htag.ne_nil] at hc
      exact htag.head c hc

theorem Item.ofRaw_raw (h : ∀ t ∈ i.expand, t.WellFormed) : Item.ofRaw i.raw = i := by
  cases i with
  | empty name =>
    show (if (name ++ ['/']).getLast? = some '/' then _ else _) = Item.empty name
    rw [getLast?_concat, if_pos rfl, dropLast_concat]
  | token t =>
    cases t with
    | tag name attributes =>
      cases attributes with
      | cons a as => rfl
      | nil =>
        have hname : IsName name := (h (.tag name []) mem_cons_self).1
        refine if_neg fun hlast => ?_
        exact hname.not_mem (d := '/') (by decide) (mem_of_getLast? hlast)
    | _ => rfl

theorem isChain_raw (h : (is.flatMap Item.expand).IsChain fun a b => ¬ (a.isText ∧ b.isText)) :
    (is.map Item.raw).IsChain fun a b => ¬ (a.isText ∧ b.isText) := by
  induction is with
  | nil => exact .nil
  | cons i is ih =>
    rw [flatMap_cons] at h
    obtain ⟨-, hrest, hjoin⟩ := isChain_append.mp h
    rw [map_cons]
    refine isChain_cons.mpr ⟨fun t ht => ?_, ih hrest⟩
    cases i with
    | empty name => simp [Item.raw, Token.isText]
    | token a =>
      cases is with
      | nil => cases ht
      | cons j js =>
        obtain rfl := Option.some.inj ht
        cases j with
        | empty name => simp [Item.raw, Token.isText]
        | token b => exact hjoin a rfl b rfl

/-- **Reading undoes writing**, with empty elements. -/
theorem readItems_renderItems (h : Document is) : readItems (renderItems is) = some is := by
  have hitem : ∀ i ∈ is, ∀ t ∈ i.expand, t.WellFormed := fun i hi t ht =>
    h.tokens t (mem_flatMap.mpr ⟨i, hi, ht⟩)
  have hlegible : ∀ t ∈ is.map Item.raw, t.Legible := by
    intro t ht
    obtain ⟨i, hi, rfl⟩ := mem_map.mp ht
    exact Item.legible (hitem i hi)
  rw [readItems, renderItems, tokenize_render_of_legible hlegible (isChain_raw h.apart),
    Option.map_some, map_map]
  congr 1
  refine (map_congr_left fun i hi => ?_).trans (map_id is)
  exact Item.ofRaw_raw (hitem i hi)

/-! ### Elements -/

def elementItems (name : Chars) (content : List Item) : List Item :=
  .token (.tag name []) :: (content ++ [.token (.close name)])

theorem renderItems_element (name : Chars) (content : List Item) :
    renderItems (elementItems name content) =
      '<' :: name ++ '>' :: (renderItems content ++ '<' :: '/' :: name ++ ['>']) := by
  simp [renderItems, elementItems, render, Item.raw, Token.render]

theorem Content.elementItems {name : Chars} {content : List Item}
    (h : Content (content.flatMap Item.expand)) (hname : IsName name) :
    Block ((elementItems name content).flatMap Item.expand) := by
  have hblock : Block (.tag name [] :: (content.flatMap Item.expand ++ [.close name])) :=
    h.element hname (by simp)
  rwa [Xml.elementItems, flatMap_cons, flatMap_append]

theorem Block.append_items {js : List Item} (hi : Block (is.flatMap Item.expand))
    (hj : Block (js.flatMap Item.expand)) : Block ((is ++ js).flatMap Item.expand) := by
  rw [flatMap_append]
  exact hi.append_block hj

theorem content_tokens {ts : List Token} (h : Content ts) :
    Content ((ts.map Item.token).flatMap Item.expand) := by
  rw [flatMap_map]
  show Content (ts.flatMap fun t => [t])
  rwa [flatMap_singleton']

theorem content_empty {name : Chars} (h : IsName name) :
    Content ([Item.empty name].flatMap Item.expand) :=
  (Content.nil.element h (by simp)).toContent

theorem Content.ref {name : Chars} {ts : List Token} (h : Content ts) (hname : IsName name) :
    Content (.ref name :: ts) := by
  refine ⟨fun t ht => ?_, isChain_cons.mpr ⟨fun y _ => by simp [Token.isText], h.apart⟩,
    fun stack rest => ?_⟩
  · rcases mem_cons.mp ht with rfl | ht
    · exact hname
    · exact h.tokens t ht
  · rw [cons_append, nested, h.balanced]
    all_goals simp

theorem Content.text_cons {run : Chars} {ts : List Token} (h : Content ts) (hne : run ≠ [])
    (hrun : ∀ c ∈ run, isRun c = true) (hts : ∀ t ∈ ts.head?, t.isText = false) :
    Content (.text run :: ts) := by
  refine ⟨fun t ht => ?_, isChain_cons.mpr ⟨fun y hy => by simp [hts y hy], h.apart⟩,
    fun stack rest => ?_⟩
  · rcases mem_cons.mp ht with rfl | ht
    · exact ⟨hne, hrun⟩
    · exact h.tokens t ht
  · rw [cons_append, nested, h.balanced]
    all_goals simp

/-! ### A reader that trims -/

def isSpace (c : Char) : Bool := c = ' ' || c = '\t' || c = '\n' || c = '\r'

def delivered (run : Chars) : Chars := eol (Utf8.trimMatches isSpace run)

inductive Event
  | decl
  | start (name : Chars)
  | stop (name : Chars)
  | empty (name : Chars)
  | text (content : Chars)
  | ref (name : Chars)

def Item.event : Item → Option Event
  | .token (.decl _) => some .decl
  | .token (.tag name _) => some (.start name)
  | .token (.close name) => some (.stop name)
  | .token (.text run) =>
    if Utf8.trimMatches isSpace run = [] then none else some (.text (delivered run))
  | .token (.ref name) => some (.ref name)
  | .empty name => some (.empty name)

def events (is : List Item) : List Event := is.filterMap Item.event

/-- A well-formed document is delivered item by item. -/
def Trims (reader : Chars → Option (List Event)) : Prop :=
  ∀ is, Document is → reader (renderItems is) = some (events is)

def trimmingReader (cs : Chars) : Option (List Event) := (readItems cs).map events

theorem trimmingReader_trims : Trims trimmingReader := fun is h => by
  rw [trimmingReader, readItems_renderItems h, Option.map_some]

theorem events_append (is js : List Item) : events (is ++ js) = events is ++ events js :=
  filterMap_append

theorem events_element (name : Chars) (content : List Item) :
    events (elementItems name content) = .start name :: (events content ++ [.stop name]) := by
  simp [events, elementItems, Item.event]

/-! ### What is delivered as it is -/

/-- A run without carriage returns, and without white space at its ends. -/
structure RunKept (run : Chars) : Prop where
  noReturn : '\r' ∉ run
  head : ∀ c ∈ run.head?, isSpace c = false
  last : ∀ c ∈ run.getLast?, isSpace c = false

instance (run : Chars) : Decidable (RunKept run) :=
  letI (o : Option Char) : Decidable (∀ c ∈ o, isSpace c = false) := o.decidableForallMem
  decidable_of_iff ('\r' ∉ run ∧ (∀ c ∈ run.head?, isSpace c = false) ∧
      ∀ c ∈ run.getLast?, isSpace c = false)
    ⟨fun h => ⟨h.1, h.2.1, h.2.2⟩, fun h => ⟨h.noReturn, h.head, h.last⟩⟩

theorem length_eol_le (s : Chars) : (eol s).length ≤ s.length := by
  induction s using eol.induct with
  | case1 => exact Nat.le_refl _
  | case2 cs ih =>
    rw [eol]
    simp only [length_cons]
    omega
  | case3 c cs hne ih =>
    rw [eol]
    · simp only [length_cons]
      omega
    · exact hne

theorem length_delivered_le (run : Chars) : (delivered run).length ≤ run.length :=
  (length_eol_le _).trans (Utf8.trimBoth_sublist isSpace isSpace run).length_le

theorem getLast?_eol {s : Chars} {c : Char} (h : s.getLast? = some c) (hc : isSpace c = false) :
    (eol s).getLast? = some c := by
  induction s using eol.induct with
  | case1 => cases h
  | case2 cs ih =>
    have hcs : cs ≠ [] := by
      rintro rfl
      obtain rfl := Option.some.inj h
      exact absurd hc (by decide)
    rw [getLast?_cons_of_ne_nil (cons_ne_nil _ _),
      getLast?_cons_of_ne_nil hcs] at h
    have hlast := ih h
    rw [eol, getLast?_cons_of_ne_nil (by rintro hnil; rw [hnil] at hlast; cases hlast)]
    exact hlast
  | case3 d cs hne ih =>
    rw [eol]
    · cases cs with
      | nil =>
        obtain rfl := Option.some.inj h
        have hr : d ≠ '\r' := by
          rintro rfl
          exact absurd hc (by decide)
        rw [if_neg hr]
        rfl
      | cons b bs =>
        rw [getLast?_cons_of_ne_nil (cons_ne_nil _ _)] at h
        have hlast := ih h
        rw [getLast?_cons_of_ne_nil (by rintro hnil; rw [hnil] at hlast; cases hlast)]
        exact hlast
    · exact hne

theorem runKept_delivered (run : Chars) : RunKept (delivered run) := by
  obtain ⟨hhead, hlast⟩ := Utf8.ends_trimMatches isSpace run
  unfold delivered
  cases htrim : Utf8.trimMatches isSpace run with
  | nil => exact ⟨by simp [eol], by simp [eol], by simp [eol]⟩
  | cons c cs =>
    rw [htrim] at hhead hlast
    have hc : isSpace c = false := hhead c rfl
    have hr : c ≠ '\r' := by
      rintro rfl
      exact absurd hc (by decide)
    refine ⟨no_cr_eol _, fun d hd => ?_, fun d hd => ?_⟩
    · rw [eol] at hd
      · rw [head?_cons, if_neg hr] at hd
        obtain rfl := Option.some.inj hd
        exact hc
      · exact fun _ h => absurd h hr
    · obtain ⟨e, he⟩ : ∃ e, (c :: cs).getLast? = some e :=
        ⟨_, getLast?_eq_some_getLast (cons_ne_nil c cs)⟩
      rw [getLast?_eol he (hlast e he)] at hd
      obtain rfl := Option.some.inj hd
      exact hlast e he

/-- **What is delivered as it is.** -/
theorem delivered_eq_self {run : Chars} : delivered run = run ↔ RunKept run := by
  constructor
  · intro h
    rw [← h]
    exact runKept_delivered run
  · intro h
    rw [delivered, Utf8.trimMatches_eq_self h.head h.last, eol_eq_self.mpr h.noReturn]

theorem trim_of_runKept {run : Chars} (h : RunKept run) : Utf8.trimMatches isSpace run = run :=
  Utf8.trimMatches_eq_self h.head h.last

end Xml
