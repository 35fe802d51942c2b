import Mathlib.Data.List.Chain

/-!
# XML as tokens

A document is a list of tokens: declarations, start tags, end tags, runs of text
and entity references, which break text up.  `render` writes it down.
`tokenize` reads it back, one token to a unit of fuel, and `tokenize_render`
says that it reads what was written, for tokens that can be told apart
(`WellFormed`): markup without its own delimiters inside, and no two runs of text
side by side.

`escape` writes text so that it can stand in either place, and is read
differently in the two: an attribute value gets its characters back
(`attValue_escape`), apart from white space, which becomes blanks; in content the
escaped characters are references between the runs (`escapeTokens`).
-/

namespace Xml

open List

abbrev Chars := List Char

inductive Token
  /-- `<?content?>` -/
  | decl (content : Chars)
  /-- A start tag, with the attribute values as written. -/
  | tag (name : Chars) (attributes : List (Chars × Chars))
  | close (name : Chars)
  | text (run : Chars)
  /-- `&name;` -/
  | ref (name : Chars)
  deriving DecidableEq

/-! ### Writing -/

def renderAttribute (a : Chars × Chars) : Chars := ' ' :: a.1 ++ '=' :: '"' :: a.2 ++ ['"']

def Token.render : Token → Chars
  | .decl content => '<' :: '?' :: content ++ ['?', '>']
  | .tag name attributes => '<' :: name ++ attributes.flatMap renderAttribute ++ ['>']
  | .close name => '<' :: '/' :: name ++ ['>']
  | .text run => run
  | .ref name => '&' :: name ++ [';']

def render (ts : List Token) : Chars := ts.flatMap Token.render

/-! ### Reading -/

/-- What stands before the first `d`, and behind it. -/
def upto (d : Char) : Chars → Option (Chars × Chars)
  | [] => none
  | c :: cs => if c = d then some ([], cs) else (upto d cs).map fun r => (c :: r.1, r.2)

def readAttributes : Nat → Chars → Option (List (Chars × Chars))
  | _, [] => some []
  | fuel + 1, ' ' :: cs =>
    (upto '=' cs).bind fun key =>
      match key.2 with
      | '"' :: cs =>
        (upto '"' cs).bind fun value =>
          (readAttributes fuel value.2).map ((key.1, value.1) :: ·)
      | _ => none
  | _, _ => none

def readTag (inside : Chars) : Option Token :=
  (readAttributes inside.length (inside.dropWhile (· ≠ ' '))).map
    (.tag (inside.takeWhile (· ≠ ' ')) ·)

def isRun (c : Char) : Bool := c ≠ '<' && c ≠ '&'

def next : Chars → Option (Token × Chars)
  | [] => none
  | '<' :: '?' :: cs =>
    (upto '?' cs).bind fun r =>
      match r.2 with
      | '>' :: rest => some (.decl r.1, rest)
      | _ => none
  | '<' :: '/' :: cs => (upto '>' cs).map fun r => (.close r.1, r.2)
  | '<' :: cs => (upto '>' cs).bind fun r => (readTag r.1).map (·, r.2)
  | '&' :: cs => (upto ';' cs).map fun r => (.ref r.1, r.2)
  | c :: cs => some (.text (c :: cs.takeWhile isRun), cs.dropWhile isRun)

def tokenizeFuel : Nat → Chars → Option (List Token)
  | _, [] => some []
  | 0, _ :: _ => none
  | fuel + 1, cs => (next cs).bind fun r => (tokenizeFuel fuel r.2).map (r.1 :: ·)

/-- Every token takes at least a character, so the length is fuel enough. -/
def tokenize (cs : Chars) : Option (List Token) := tokenizeFuel cs.length cs

/-! ### Well-formed documents -/

def isNameChar (c : Char) : Bool := c.isAlphanum || c = '-' || c = '_' || c = '.'

/-- A text is decided by its characters, not by all there are. -/
scoped instance (priority := high) decidableChars (p : Char → Prop) [DecidablePred p] (s : Chars) :
    Decidable (∀ c ∈ s, p c) :=
  List.decidableBAll p s

structure IsName (name : Chars) : Prop where
  ne_nil : name ≠ []
  chars : ∀ c ∈ name, isNameChar c = true

instance (name : Chars) : Decidable (IsName name) :=
  decidable_of_iff (name ≠ [] ∧ name.all isNameChar = true)
    ⟨fun h => ⟨h.1, List.all_eq_true.mp h.2⟩, fun h => ⟨h.1, List.all_eq_true.mpr h.2⟩⟩

/-- What may stand between quotes here. -/
def isValueChar (c : Char) : Bool := c ≠ '"' && c ≠ '<' && c ≠ '>'

/-- A value has its entity references resolved, and white space made blanks; a
line break counts once.  A reference to anything but the five predefined entities
is not read. -/
def attValue : Chars → Option Chars
  | [] => some []
  | '&' :: 'a' :: 'm' :: 'p' :: ';' :: cs => (attValue cs).map ('&' :: ·)
  | '&' :: 'l' :: 't' :: ';' :: cs => (attValue cs).map ('<' :: ·)
  | '&' :: 'g' :: 't' :: ';' :: cs => (attValue cs).map ('>' :: ·)
  | '&' :: 'q' :: 'u' :: 'o' :: 't' :: ';' :: cs => (attValue cs).map ('"' :: ·)
  | '&' :: 'a' :: 'p' :: 'o' :: 's' :: ';' :: cs => (attValue cs).map ('\'' :: ·)
  | '&' :: _ => none
  | '\r' :: '\n' :: cs => (attValue cs).map (' ' :: ·)
  | c :: cs => (attValue cs).map ((if c = '\t' ∨ c = '\n' ∨ c = '\r' then ' ' else c) :: ·)

/-- Line breaks of every kind are line feeds. -/
def eol : Chars → Chars
  | [] => []
  | '\r' :: '\n' :: cs => '\n' :: eol cs
  | c :: cs => (if c = '\r' then '\n' else c) :: eol cs

structure IsAttribute (a : Chars × Chars) : Prop where
  key : IsName a.1
  chars : ∀ c ∈ a.2, isValueChar c = true
  value : (attValue a.2).isSome

def Token.WellFormed : Token → Prop
  | .decl content => '?' ∉ content
  | .tag name attributes =>
    IsName name ∧ (∀ a ∈ attributes, IsAttribute a) ∧ (attributes.map (·.1)).Nodup
  | .close name => IsName name
  | .text run => run ≠ [] ∧ ∀ c ∈ run, isRun c = true
  | .ref name => IsName name

def Token.isText : Token → Bool
  | .text _ => true
  | _ => false

/-- Start tags and end tags match. -/
def nested : List Chars → List Token → Bool
  | stack, [] => stack = []
  | stack, .tag name _ :: ts => nested (name :: stack) ts
  | name :: stack, .close name' :: ts => name = name' && nested stack ts
  | [], .close _ :: _ => false
  | stack, _ :: ts => nested stack ts

/-- Tokens that can be told apart. -/
structure WellFormed (ts : List Token) : Prop where
  tokens : ∀ t ∈ ts, t.WellFormed
  apart : ts.IsChain fun a b => ¬ (a.isText ∧ b.isText)
  nested : nested [] ts

/-! ### Reading undoes writing -/

variable {s : Chars}

theorem upto_append {d : Char} (h : d ∉ s) (rest : Chars) :
    upto d (s ++ d :: rest) = some (s, rest) := by
  induction s with
  | nil => simp [upto]
  | cons c s ih =>
    have hc : c ≠ d := fun he => h (by simp [he])
    rw [cons_append, upto, if_neg hc, ih fun hm => h (by simp [hm])]
    rfl

theorem IsName.not_mem {name : Chars} (h : IsName name) {d : Char} (hd : isNameChar d = false) :
    d ∉ name := by
  intro hm
  rw [h.chars d hm] at hd
  exact absurd hd (by decide)

/-- What a start tag may begin with, so that it is read as one. -/
structure IsTagName (name : Chars) : Prop where
  ne_nil : name ≠ []
  chars : ∀ c ∈ name, c ≠ '>' ∧ c ≠ ' '
  head : ∀ c ∈ name.head?, c ≠ '?' ∧ c ≠ '/'

theorem IsName.isTagName {name : Chars} (h : IsName name) : IsTagName name where
  ne_nil := h.ne_nil
  chars c hc := by
    constructor
    · rintro rfl
      exact h.not_mem (d := '>') (by decide) hc
    · rintro rfl
      exact h.not_mem (d := ' ') (by decide) hc
  head c hc := by
    constructor
    · rintro rfl
      exact h.not_mem (d := '?') (by decide) (mem_of_head? hc)
    · rintro rfl
      exact h.not_mem (d := '/') (by decide) (mem_of_head? hc)

def Token.Legible : Token → Prop
  | .tag name attributes => IsTagName name ∧ ∀ a ∈ attributes, IsAttribute a
  | t => t.WellFormed

theorem Token.WellFormed.legible {t : Token} (h : t.WellFormed) : t.Legible := by
  cases t with
  | tag name attributes => exact ⟨IsName.isTagName h.1, h.2.1⟩
  | _ => exact h

theorem IsAttribute.not_mem {a : Chars × Chars} (h : IsAttribute a) {d : Char}
    (hd : isValueChar d = false) : d ∉ a.2 := by
  intro hm
  rw [h.chars d hm] at hd
  exact absurd hd (by decide)

theorem readAttributes_render {attributes : List (Chars × Chars)}
    (h : ∀ a ∈ attributes, IsAttribute a) {fuel : Nat} (hf : attributes.length ≤ fuel) :
    readAttributes fuel (attributes.flatMap renderAttribute) = some attributes := by
  induction attributes generalizing fuel with
  | nil => cases fuel <;> rfl
  | cons a attributes ih =>
    cases fuel with
    | zero => simp at hf
    | succ fuel =>
      have ha := h a (by simp)
      have hkey : '=' ∉ a.1 := ha.key.not_mem (by decide)
      have hval : '"' ∉ a.2 := ha.not_mem (by decide)
      have hshape : (a :: attributes).flatMap renderAttribute =
          ' ' :: (a.1 ++ '=' :: '"' :: (a.2 ++ '"' :: attributes.flatMap renderAttribute)) := by
        simp [renderAttribute]
      rw [hshape, readAttributes, upto_append hkey, Option.bind_some]
      simp only [upto_append hval, Option.bind_some]
      rw [ih (fun b hb => h b (by simp [hb])) (by simpa using hf)]
      rfl

theorem length_le_render_attributes (attributes : List (Chars × Chars)) :
    attributes.length ≤ (attributes.flatMap renderAttribute).length := by
  induction attributes with
  | nil => exact Nat.le_refl _
  | cons a attributes ih =>
    rw [flatMap_cons, length_append, length_cons]
    have : 1 ≤ (renderAttribute a).length := by simp [renderAttribute]
    omega

theorem takeWhile_name {name rest : Chars} (h : IsTagName name)
    (hr : ∀ c, rest.head? = some c → c = ' ') :
    (name ++ rest).takeWhile (· ≠ ' ') = name ∧ (name ++ rest).dropWhile (· ≠ ' ') = rest := by
  have hall : ∀ c ∈ name, (decide (c ≠ ' ')) = true := by
    intro c hc
    exact decide_eq_true (h.chars c hc).2
  rw [takeWhile_append_of_pos hall, dropWhile_append_of_pos hall]
  cases rest with
  | nil => simp
  | cons c rest => simp [hr c rfl]

theorem readTag_render {name : Chars} {attributes : List (Chars × Chars)} (hn : IsTagName name)
    (h : ∀ a ∈ attributes, IsAttribute a) :
    readTag (name ++ attributes.flatMap renderAttribute) = some (.tag name attributes) := by
  have hr : ∀ c, (attributes.flatMap renderAttribute).head? = some c → c = ' ' := by
    intro c hc
    cases attributes with
    | nil => exact nomatch hc
    | cons a attributes => simpa [renderAttribute] using hc.symm
  obtain ⟨htake, hdrop⟩ := takeWhile_name hn hr
  rw [readTag, htake, hdrop, readAttributes_render h]
  · rfl
  · rw [length_append]
    have := length_le_render_attributes attributes
    omega

theorem not_mem_attributes {attributes : List (Chars × Chars)}
    (h : ∀ a ∈ attributes, IsAttribute a) : '>' ∉ attributes.flatMap renderAttribute := by
  intro hm
  obtain ⟨a, ha, hc⟩ := mem_flatMap.mp hm
  have hkey : '>' ∉ a.1 := (h a ha).key.not_mem (by decide)
  have hval : '>' ∉ a.2 := (h a ha).not_mem (by decide)
  simp [renderAttribute, hkey, hval] at hc

theorem next_render {t : Token} (h : t.Legible) {rest : Chars}
    (hr : t.isText → ∀ c, rest.head? = some c → isRun c = false) :
    next (t.render ++ rest) = some (t, rest) := by
  cases t with
  | decl content =>
    have hd : '?' ∉ content := h
    have hshape : (Token.decl content).render ++ rest =
        '<' :: '?' :: (content ++ '?' :: '>' :: rest) := by simp [Token.render]
    rw [hshape, next, upto_append hd]
    rfl
  | close name =>
    have hd : '>' ∉ name := IsName.not_mem h (by decide)
    have hshape : (Token.close name).render ++ rest = '<' :: '/' :: (name ++ '>' :: rest) := by
      simp [Token.render]
    rw [hshape, next, upto_append hd]
    rfl
  | ref name =>
    have hd : ';' ∉ name := IsName.not_mem h (by decide)
    have hshape : (Token.ref name).render ++ rest = '&' :: (name ++ ';' :: rest) := by
      simp [Token.render]
    rw [hshape, next, upto_append hd]
    rfl
  | tag name attributes =>
    obtain ⟨hn, ha⟩ := h
    have hd : '>' ∉ name ++ attributes.flatMap renderAttribute := by
      rw [mem_append, not_or]
      exact ⟨fun hc => (hn.chars _ hc).1 rfl, not_mem_attributes ha⟩
    have hshape : (Token.tag name attributes).render ++ rest =
        '<' :: ((name ++ attributes.flatMap renderAttribute) ++ '>' :: rest) := by
      simp [Token.render]
    obtain ⟨c, cs, rfl⟩ := exists_cons_of_ne_nil hn.ne_nil
    obtain ⟨hq, hs⟩ := hn.head c rfl
    rw [hshape]
    have hnext : ∀ r : Chars, next ('<' :: c :: r) =
        (upto '>' (c :: r)).bind fun r => (readTag r.1).map (·, r.2) := by
      intro r
      rw [next]
      · intro cs he
        exact hq (cons.inj he).1
      · intro cs he
        exact hs (cons.inj he).1
    rw [cons_append, cons_append, hnext, ← cons_append, ← cons_append,
      upto_append hd, Option.bind_some, readTag_render hn ha]
    rfl
  | text run =>
    obtain ⟨hne, hrun⟩ := h
    obtain ⟨c, cs, rfl⟩ := exists_cons_of_ne_nil hne
    have hc : isRun c = true := hrun c (by simp)
    have hlt : c ≠ '<' := fun he => absurd hc (by rw [he]; decide)
    have hamp : c ≠ '&' := fun he => absurd hc (by rw [he]; decide)
    have hcs : ∀ x ∈ cs, isRun x = true := fun x hx => hrun x (by simp [hx])
    have hstop : rest.takeWhile isRun = [] ∧ rest.dropWhile isRun = rest := by
      cases rest with
      | nil => simp
      | cons x rest => simp [hr rfl x rfl]
    show next (c :: (cs ++ rest)) = _
    rw [next]
    · rw [takeWhile_append_of_pos hcs, dropWhile_append_of_pos hcs, hstop.1, hstop.2,
        append_nil]
    all_goals simp_all

theorem Token.render_ne_nil {t : Token} (h : t.Legible) : t.render ≠ [] := by
  cases t with
  | text run => exact h.1
  | decl content => simp [Token.render]
  | tag name attributes => simp [Token.render]
  | close name => simp [Token.render]
  | ref name => simp [Token.render]

theorem head_render_of_not_text {t : Token} (h : t.isText = false) (rest : Chars) :
    ∀ c, (t.render ++ rest).head? = some c → isRun c = false := by
  intro c hc
  cases t with
  | text run => exact nomatch h
  | ref name =>
    obtain rfl : '&' = c := Option.some.inj hc
    rfl
  | decl content | tag name attributes | close name =>
    obtain rfl : '<' = c := Option.some.inj hc
    rfl

theorem tokenizeFuel_of_ne_nil {cs : Chars} (h : cs ≠ []) (fuel : Nat) :
    tokenizeFuel (fuel + 1) cs =
      (next cs).bind fun r => (tokenizeFuel fuel r.2).map (r.1 :: ·) := by
  cases cs with
  | nil => exact absurd rfl h
  | cons c cs => rfl

variable {ts : List Token}

theorem tokenizeFuel_render (h : ∀ t ∈ ts, t.Legible)
    (ha : ts.IsChain fun a b => ¬ (a.isText ∧ b.isText)) {fuel : Nat} (hf : ts.length ≤ fuel) :
    tokenizeFuel fuel (render ts) = some ts := by
  induction ts generalizing fuel with
  | nil => cases fuel <;> rfl
  | cons t ts ih =>
    cases fuel with
    | zero => simp at hf
    | succ fuel =>
      have hstop : t.isText → ∀ c, (render ts).head? = some c → isRun c = false := by
        intro ht c hc
        cases ts with
        | nil => exact nomatch hc
        | cons t' ts =>
          have ht' : t'.isText = false := by
            have := (isChain_cons_cons.mp ha).1
            simpa [ht] using this
          exact head_render_of_not_text ht' _ c hc
      have hne : t.render ++ render ts ≠ [] := by
        intro he
        exact Token.render_ne_nil (h t (by simp)) (append_eq_nil_iff.mp he).1
      show tokenizeFuel (fuel + 1) (t.render ++ render ts) = _
      rw [tokenizeFuel_of_ne_nil hne, next_render (h t (by simp)) hstop, Option.bind_some,
        ih (fun t ht => h t (by simp [ht])) ha.tail (by simpa using hf)]
      rfl

theorem length_le_render (h : ∀ t ∈ ts, t.Legible) :
    ts.length ≤ (render ts).length := by
  induction ts with
  | nil => exact Nat.le_refl _
  | cons t ts ih =>
    have h1 : 1 ≤ t.render.length :=
      length_pos_of_ne_nil (Token.render_ne_nil (h t (by simp)))
    have h2 := ih fun t ht => h t (by simp [ht])
    rw [render, flatMap_cons, length_append, length_cons]
    rw [render] at h2
    omega

theorem tokenize_render_of_legible (h : ∀ t ∈ ts, t.Legible)
    (ha : ts.IsChain fun a b => ¬ (a.isText ∧ b.isText)) : tokenize (render ts) = some ts :=
  tokenizeFuel_render h ha (length_le_render h)

/-- **Reading undoes writing.** -/
theorem tokenize_render (h : WellFormed ts) : tokenize (render ts) = some ts :=
  tokenize_render_of_legible (fun t ht => (h.tokens t ht).legible) h.apart

/-! ### Line breaks -/

theorem no_cr_eol (s : Chars) : '\r' ∉ eol s := by
  induction s using eol.induct with
  | case1 => simp [eol]
  | case2 cs ih => simp [eol, ih]
  | case3 c cs hne ih =>
    rw [eol]
    · intro hm
      rcases mem_cons.mp hm with he | hm
      · split_ifs at he with hc
        · exact absurd he (by decide)
        · exact hc he.symm
      · exact ih hm
    · exact hne

theorem eol_eq_self : eol s = s ↔ '\r' ∉ s := by
  constructor
  · intro h
    rw [← h]
    exact no_cr_eol s
  · intro h
    induction s with
    | nil => rfl
    | cons c cs ih =>
      have hc : c ≠ '\r' := fun he => h (by simp [he])
      rw [eol]
      · rw [if_neg hc, ih fun hm => h (by simp [hm])]
      · intro cs' he
        exact absurd he hc

/-- White space as an attribute value shows it. -/
def blanks : Chars → Chars
  | [] => []
  | '\r' :: '\n' :: cs => ' ' :: blanks cs
  | c :: cs => (if c = '\t' ∨ c = '\n' ∨ c = '\r' then ' ' else c) :: blanks cs

def isBreakOrTab (c : Char) : Bool := c = '\t' || (c = '\n' || c = '\r')

theorem not_mem_blanks (s : Chars) : (blanks s).any isBreakOrTab = false := by
  induction s using blanks.induct with
  | case1 => rfl
  | case2 cs ih =>
    rw [blanks, any_cons, ih]
    rfl
  | case3 c cs hne ih =>
    rw [blanks, any_cons, ih, Bool.or_false]
    · split_ifs with hc
      · rfl
      · simpa [isBreakOrTab, not_or] using hc
    · exact hne

theorem blanks_eq_self : blanks s = s ↔ s.any isBreakOrTab = false := by
  constructor
  · intro h
    rw [← h]
    exact not_mem_blanks s
  · intro h
    induction s with
    | nil => rfl
    | cons c cs ih =>
      rw [any_cons, Bool.or_eq_false_iff] at h
      have hc : ¬ (c = '\t' ∨ c = '\n' ∨ c = '\r') := by simpa [isBreakOrTab, not_or] using h.1
      rw [blanks]
      · rw [if_neg hc, ih h.2]
      · intro cs' he
        exact absurd (.inr (.inr he)) hc

/-! ### Escaping -/

/-- The entity that stands for a character with a meaning of its own. -/
def entity (c : Char) : Option Chars :=
  if c = '&' then some ['a', 'm', 'p']
  else if c = '<' then some ['l', 't']
  else if c = '>' then some ['g', 't']
  else if c = '"' then some ['q', 'u', 'o', 't']
  else none

def escapeChar (c : Char) : Chars :=
  match entity c with
  | some name => '&' :: name ++ [';']
  | none => [c]

def escape (s : Chars) : Chars := s.flatMap escapeChar

/-- Put a character in front of content. -/
def consText (c : Char) : List Token → List Token
  | .text run :: ts => .text (c :: run) :: ts
  | ts => .text [c] :: ts

/-- Escaped text as the tokens it is read as. -/
def escapeTokens : Chars → List Token
  | [] => []
  | c :: cs =>
    match entity c with
    | some name => .ref name :: escapeTokens cs
    | none => consText c (escapeTokens cs)

theorem render_consText (c : Char) (ts : List Token) : render (consText c ts) = c :: render ts := by
  unfold consText
  split
  · rfl
  · rfl

theorem render_escapeTokens (s : Chars) : render (escapeTokens s) = escape s := by
  induction s with
  | nil => rfl
  | cons c cs ih =>
    rw [escapeTokens, escape, flatMap_cons, escapeChar]
    cases entity c with
    | some name =>
      show (Token.ref name).render ++ render (escapeTokens cs) = _
      rw [ih]
      rfl
    | none =>
      show render (consText c (escapeTokens cs)) = _
      rw [render_consText, ih]
      rfl

theorem isName_entity {c : Char} {name : Chars} (h : entity c = some name) : IsName name := by
  unfold entity at h
  split_ifs at h
  all_goals
    obtain rfl := Option.some.inj h
    decide

theorem isRun_of_entity {c : Char} (h : entity c = none) : isRun c = true := by
  unfold entity at h
  split_ifs at h with h1 h2
  simp [isRun, h1, h2]

theorem escape_eq_lf_cons {cs rest : Chars} (h : escape cs = '\n' :: rest) :
    ∃ cs', cs = '\n' :: cs' := by
  cases cs with
  | nil => exact nomatch h
  | cons c cs =>
    rw [escape, flatMap_cons, escapeChar] at h
    cases he : entity c with
    | some name =>
      rw [he] at h
      exact absurd (cons.inj h).1 (by decide)
    | none =>
      rw [he] at h
      exact ⟨cs, by rw [(cons.inj h).1]⟩

/-- **An escaped value is read back**, apart from its white space. -/
theorem attValue_escape (s : Chars) : attValue (escape s) = some (blanks s) := by
  induction s using blanks.induct with
  | case1 => rfl
  | case2 cs ih =>
    show attValue ('\r' :: '\n' :: escape cs) = _
    rw [attValue, ih]
    rfl
  | case3 c cs hne ih =>
    have hblanks : blanks (c :: cs) =
        (if c = '\t' ∨ c = '\n' ∨ c = '\r' then ' ' else c) :: blanks cs := by
      rw [blanks]
      exact hne
    rw [hblanks, escape, flatMap_cons, ← escape, escapeChar]
    cases he : entity c with
    | some name =>
      unfold entity at he
      split_ifs at he with h1 h2 h3 h4
      all_goals
        obtain rfl := Option.some.inj he
        subst c
        simp only [cons_append, nil_append]
        rw [attValue, ih]
        rfl
    | none =>
      have hamp : c ≠ '&' := by
        rintro rfl
        exact absurd he (by decide)
      show attValue (c :: escape cs) = _
      rw [attValue, ih]
      · rfl
      -- None of the other shapes: no reference, and no line break of two characters.
      iterate 5 exact fun _ h => absurd h hamp
      · exact hamp
      · rintro cs' rfl h
        obtain ⟨cs'', rfl⟩ := escape_eq_lf_cons h
        exact hne cs'' rfl rfl

/-- Characters that stand for themselves in a value. -/
def Literal (s : Chars) : Prop := ∀ c ∈ s, entity c = none ∧ isBreakOrTab c = false

instance (s : Chars) : Decidable (Literal s) :=
  List.decidableBAll (fun c => entity c = none ∧ isBreakOrTab c = false) s

theorem Literal.escape (h : Literal s) : Xml.escape s = s := by
  induction s with
  | nil => rfl
  | cons c s ih =>
    have hc : escapeChar c = [c] := by rw [escapeChar, (h c (by simp)).1]
    rw [Xml.escape, flatMap_cons, hc, ← Xml.escape, ih fun x hx => h x (by simp [hx])]
    rfl

theorem Literal.attValue (h : Literal s) : Xml.attValue s = some s := by
  have hb : s.any isBreakOrTab = false := by
    rw [any_eq_false]
    intro c hc
    simp [(h c hc).2]
  have := attValue_escape s
  rwa [h.escape, blanks_eq_self.mpr hb] at this

theorem isValueChar_escape (s : Chars) : ∀ c ∈ escape s, isValueChar c = true := by
  intro c hc
  obtain ⟨x, -, hx⟩ := mem_flatMap.mp hc
  rw [escapeChar] at hx
  cases he : entity x with
  | some name =>
    replace hx : c ∈ '&' :: name ++ [';'] := by simpa only [he] using hx
    unfold entity at he
    split_ifs at he
    all_goals
      obtain rfl := Option.some.inj he
      clear hc he
      revert c
      decide
  | none =>
    rw [he] at hx
    obtain rfl := mem_singleton.mp hx
    unfold entity at he
    split_ifs at he with h1 h2 h3 h4
    simp [isValueChar, h2, h3, h4]

theorem isAttribute_escape {key : Chars} (hk : IsName key) (s : Chars) :
    IsAttribute (key, escape s) where
  key := hk
  chars := isValueChar_escape s
  value := by
    show (attValue (escape s)).isSome = true
    rw [attValue_escape]
    rfl

theorem Literal.isAttribute {key s : Chars} (hk : IsName key) (h : Literal s) :
    IsAttribute (key, s) := by
  have := isAttribute_escape hk s
  rwa [h.escape] at this

theorem entity_eol (h : ∀ c ∈ s, entity c = none) : ∀ c ∈ eol s, entity c = none := by
  induction s using eol.induct with
  | case1 => exact fun c hc => nomatch hc
  | case2 cs ih =>
    intro c hc
    rw [eol] at hc
    rcases mem_cons.mp hc with rfl | hc
    · decide
    · exact ih (fun x hx => h x (by simp [hx])) c hc
  | case3 c cs hne ih =>
    intro x hx
    rw [eol] at hx
    · rcases mem_cons.mp hx with rfl | hx
      · split_ifs
        · decide
        · exact h c (by simp)
      · exact ih (fun x hx => h x (by simp [hx])) x hx
    · exact hne

/-! ### Content -/

/-- Tokens that may stand between two tags. -/
structure Content (ts : List Token) : Prop where
  tokens : ∀ t ∈ ts, t.WellFormed
  apart : ts.IsChain fun a b => ¬ (a.isText ∧ b.isText)
  balanced : ∀ stack rest, Xml.nested stack (ts ++ rest) = Xml.nested stack rest

/-- Content that does not end in text, so that text may follow. -/
structure Block (ts : List Token) : Prop extends Content ts where
  last : ∀ t ∈ ts.getLast?, t.isText = false

theorem Content.nil : Content [] := ⟨by simp, .nil, fun _ _ => rfl⟩

theorem Block.nil : Block [] := ⟨.nil, by simp⟩

theorem Block.append {ts us : List Token} (ht : Block ts) (hu : Content us) :
    Content (ts ++ us) where
  tokens t h := by
    rcases mem_append.mp h with h | h
    · exact ht.tokens t h
    · exact hu.tokens t h
  apart := by
    refine isChain_append.mpr ⟨ht.apart, hu.apart, fun x hx y _ => ?_⟩
    rw [ht.last x hx]
    simp
  balanced stack rest := by rw [append_assoc, ht.balanced, hu.balanced]

theorem Block.append_block {ts us : List Token} (ht : Block ts) (hu : Block us) :
    Block (ts ++ us) where
  toContent := ht.append hu.toContent
  last t h := by
    rw [getLast?_append] at h
    cases hl : us.getLast? with
    | none => exact ht.last t (by simpa [hl] using h)
    | some u => exact hu.last t (by simpa [hl] using h)

theorem Block.flatMap {α : Type} {xs : List α} {f : α → List Token} (h : ∀ x ∈ xs, Block (f x)) :
    Block (xs.flatMap f) := by
  induction xs with
  | nil => exact .nil
  | cons x xs ih =>
    rw [flatMap_cons]
    exact (h x (by simp)).append_block (ih fun y hy => h y (by simp [hy]))

theorem Content.text {run : Chars} (hne : run ≠ []) (h : ∀ c ∈ run, isRun c = true) :
    Content [.text run] :=
  ⟨by simpa [Token.WellFormed] using ⟨hne, h⟩, .singleton _, fun _ _ => rfl⟩

theorem Block.decl {content : Chars} (h : '?' ∉ content) : Block [.decl content] where
  tokens t ht := by
    obtain rfl := mem_singleton.mp ht
    exact h
  apart := .singleton _
  balanced _ _ := rfl
  last t ht := by
    obtain rfl : Token.decl content = t := Option.some.inj ht
    rfl

def element (name : Chars) (attributes : List (Chars × Chars)) (content : List Token) :
    List Token :=
  .tag name attributes :: content ++ [.close name]

theorem Content.element {name : Chars} {attributes : List (Chars × Chars)} {content : List Token}
    (h : Content content) (hn : IsName name)
    (ha : (∀ a ∈ attributes, IsAttribute a) ∧ (attributes.map (·.1)).Nodup) :
    Block (element name attributes content) where
  tokens t ht := by
    rw [Xml.element, cons_append, mem_cons, mem_append, mem_singleton] at ht
    rcases ht with rfl | ht | rfl
    · exact ⟨hn, ha⟩
    · exact h.tokens t ht
    · exact hn
  apart := by
    rw [Xml.element, cons_append]
    refine isChain_cons.mpr ⟨fun y _ => by simp [Token.isText], ?_⟩
    refine isChain_append.mpr ⟨h.apart, .singleton _, fun x _ y hy => ?_⟩
    obtain rfl : Token.close name = y := Option.some.inj hy
    simp [Token.isText]
  balanced stack rest := by
    rw [Xml.element, cons_append, cons_append, Xml.nested, append_assoc, h.balanced]
    simp [nested]
  last t ht := by
    rw [Xml.element, getLast?_concat] at ht
    obtain rfl : Token.close name = t := Option.some.inj ht
    rfl

theorem Content.line {name run : Chars} {attributes : List (Chars × Chars)} {content : List Token}
    (h : Content content) (hn : IsName name)
    (ha : (∀ a ∈ attributes, IsAttribute a) ∧ (attributes.map (·.1)).Nodup)
    (hne : run ≠ []) (hr : ∀ c ∈ run, isRun c = true) :
    Block (.text run :: Xml.element name attributes content) where
  tokens t ht := by
    rcases mem_cons.mp ht with rfl | ht
    · exact ⟨hne, hr⟩
    · exact (h.element hn ha).tokens t ht
  apart := by
    refine isChain_cons.mpr ⟨fun y hy => ?_, (h.element hn ha).apart⟩
    obtain rfl : Token.tag name attributes = y := Option.some.inj hy
    simp [Token.isText]
  balanced stack rest := by
    rw [cons_append, nested, (h.element hn ha).balanced]
    all_goals simp
  last t ht := by
    have hshape : Token.text run :: Xml.element name attributes content =
        (.text run :: .tag name attributes :: content) ++ [.close name] := rfl
    rw [hshape, getLast?_concat] at ht
    obtain rfl : Token.close name = t := Option.some.inj ht
    rfl

theorem Content.wellFormed (h : Content ts) : WellFormed ts where
  tokens := h.tokens
  apart := h.apart
  nested := by
    have := h.balanced [] []
    rw [append_nil] at this
    rw [this]
    rfl

theorem content_consText {c : Char} (hc : isRun c = true) (h : Content ts) :
    Content (consText c ts) := by
  unfold consText
  split
  · rename_i run ts
    refine ⟨fun t ht => ?_, ?_, fun stack rest => ?_⟩
    · rcases mem_cons.mp ht with rfl | ht
      · have := h.tokens (.text run) (by simp)
        refine ⟨by simp, fun x hx => ?_⟩
        rcases mem_cons.mp hx with rfl | hx
        · exact hc
        · exact this.2 x hx
      · exact h.tokens t (by simp [ht])
    · have := isChain_cons.mp h.apart
      exact isChain_cons.mpr ⟨fun y hy => this.1 y hy, this.2⟩
    · exact h.balanced stack rest
  · rename_i hts
    refine ⟨fun t ht => ?_, ?_, fun stack rest => ?_⟩
    · rcases mem_cons.mp ht with rfl | ht
      · exact ⟨by simp, by simpa using hc⟩
      · exact h.tokens t ht
    · refine isChain_cons.mpr ⟨fun y hy => ?_, h.apart⟩
      cases y with
      | text run =>
        obtain ⟨us, rfl⟩ : ∃ us, ts = .text run :: us := head?_eq_some_iff.mp hy
        exact (hts run us rfl).elim
      | decl content | tag name attributes | close name | ref name => simp [Token.isText]
    · rw [cons_append, nested, h.balanced]
      all_goals simp

theorem content_escapeTokens (s : Chars) : Content (escapeTokens s) := by
  induction s with
  | nil => exact .nil
  | cons c cs ih =>
    rw [escapeTokens]
    cases he : entity c with
    | none => exact content_consText (isRun_of_entity he) ih
    | some name =>
      refine ⟨fun t ht => ?_, ?_, fun stack rest => ?_⟩
      · rcases mem_cons.mp ht with rfl | ht
        · exact isName_entity he
        · exact ih.tokens t ht
      · exact isChain_cons.mpr ⟨fun y _ => by simp [Token.isText], ih.apart⟩
      · rw [cons_append, nested, ih.balanced]
        all_goals simp

theorem entity_of_mem_escapeTokens {s run : Chars} (h : .text run ∈ escapeTokens s) :
    ∀ c ∈ run, entity c = none := by
  induction s generalizing run with
  | nil => exact nomatch h
  | cons c cs ih =>
    rw [escapeTokens] at h
    cases he : entity c with
    | some name => exact ih (by simpa [he] using h)
    | none =>
      simp only [he] at h
      unfold consText at h
      split at h
      · rename_i run' ts hts
        rcases mem_cons.mp h with h | h
        · obtain rfl : run = c :: run' := Token.text.inj h
          intro x hx
          rcases mem_cons.mp hx with rfl | hx
          · exact he
          · exact ih (by rw [hts]; simp) x hx
        · exact ih (by rw [hts]; simp [h])
      · rcases mem_cons.mp h with h | h
        · obtain rfl : run = [c] := Token.text.inj h
          simpa using he
        · exact ih h

def Token.isInline : Token → Bool
  | .text _ => true
  | .ref _ => true
  | _ => false

theorem inline_escapeTokens (s : Chars) : ∀ t ∈ escapeTokens s, t.isInline = true := by
  induction s with
  | nil => exact fun t ht => nomatch ht
  | cons c cs ih =>
    rw [escapeTokens]
    cases entity c with
    | some name =>
      intro t ht
      rcases mem_cons.mp ht with rfl | ht
      · rfl
      · exact ih t ht
    | none =>
      intro t ht
      simp only at ht
      unfold consText at ht
      split at ht
      · rename_i run ts hts
        rcases mem_cons.mp ht with rfl | ht
        · rfl
        · exact ih t (by rw [hts]; simp [ht])
      · rcases mem_cons.mp ht with rfl | ht
        · rfl
        · exact ih t ht

theorem escapeTokens_of_plain (hne : s ≠ []) (h : ∀ c ∈ s, entity c = none) :
    escapeTokens s = [.text s] := by
  induction s with
  | nil => exact absurd rfl hne
  | cons c cs ih =>
    rw [escapeTokens, h c (by simp)]
    cases cs with
    | nil => rfl
    | cons d ds =>
      show consText c (escapeTokens (d :: ds)) = _
      rw [ih (by simp) fun x hx => h x (by simp [hx])]
      rfl

end Xml
