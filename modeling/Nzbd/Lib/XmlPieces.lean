import Nzbd.Lib.Xml

/-!
# XML with empty elements and literal sections

A piece is a token, an empty element with its attributes, `<name key="value"/>`, or a
literal section, `<![CDATA[content]]>`, which ends at the first `]]>`.
`readPieces_renderPieces` is the round trip of documents made of pieces.
-/

namespace Xml

open List

inductive Piece
  | token (t : Token)
  | empty (name : Chars) (attributes : List (Chars × Chars))
  | cdata (content : Chars)
  deriving DecidableEq

def cdataOpen : Chars := "<![CDATA[".toList

def cdataClose : Chars := "]]>".toList

def Piece.render : Piece → Chars
  | .token t => t.render
  | .empty name attributes => '<' :: name ++ attributes.flatMap renderAttribute ++ ['/', '>']
  | .cdata content => cdataOpen ++ content ++ cdataClose

def renderPieces (ps : List Piece) : Chars := ps.flatMap Piece.render

/-! ### Reading -/

/-- What stands before the first `]]>`, and behind it. -/
def uptoClose : Chars → Option (Chars × Chars)
  | [] => none
  | c :: cs => if cdataClose.isPrefixOf (c :: cs) then some ([], cs.drop 2)
    else (uptoClose cs).map fun r => (c :: r.1, r.2)

def readCdata (cs : Chars) : Option (Piece × Chars) :=
  if cdataOpen.isPrefixOf cs then
    (uptoClose (cs.drop cdataOpen.length)).map fun r => (.cdata r.1, r.2)
  else none

def readEmpty : Chars → Option (Piece × Chars)
  | '<' :: cs => (upto '>' cs).bind fun r =>
    if r.1.getLast? = some '/' then
      match readTag r.1.dropLast with
      | some (.tag name attributes) => some (.empty name attributes, r.2)
      | _ => none
    else none
  | _ => none

def nextPiece (cs : Chars) : Option (Piece × Chars) :=
  match readCdata cs with
  | some r => some r
  | none =>
    match readEmpty cs with
    | some r => some r
    | none => (next cs).map fun r => (.token r.1, r.2)

def readPiecesFuel : Nat → Chars → Option (List Piece)
  | _, [] => some []
  | 0, _ :: _ => none
  | fuel + 1, cs => (nextPiece cs).bind fun r => (readPiecesFuel fuel r.2).map (r.1 :: ·)

def readPieces (cs : Chars) : Option (List Piece) := readPiecesFuel cs.length cs

/-! ### Documents -/

/-- The tokens of a piece; a literal section is neither text nor a tag. -/
def Piece.expand : Piece → List Token
  | .token t => [t]
  | .empty name attributes => [.tag name attributes, .close name]
  | .cdata _ => [.decl []]

/-- What can be told apart from the rest. -/
def Piece.Legible : Piece → Prop
  | .token (.decl content) => '>' ∉ content
  | .cdata content => uptoClose content = none
  | _ => True

structure DocumentOf (ps : List Piece) : Prop where
  wellFormed : WellFormed (ps.flatMap Piece.expand)
  legible : ∀ p ∈ ps, p.Legible

def Piece.isText : Piece → Bool
  | .token t => t.isText
  | _ => false

/-! ### Reading undoes writing -/

theorem isPrefixOf_cons_iff {c : Char} {cs : Chars} : cdataClose.isPrefixOf (c :: cs) = true ↔
    ∃ rest, c :: cs = cdataClose ++ rest := by
  rw [List.isPrefixOf_iff_prefix]
  exact ⟨fun ⟨rest, h⟩ => ⟨rest, h.symm⟩, fun ⟨rest, h⟩ => ⟨rest, h.symm⟩⟩

theorem uptoClose_append {content : Chars} (h : uptoClose content = none) (rest : Chars) :
    uptoClose (content ++ cdataClose ++ rest) = some (content, rest) := by
  induction content with
  | nil => rfl
  | cons c cs ih =>
    rw [uptoClose] at h
    split at h
    · cases h
    · next hclose =>
      have hcs : uptoClose cs = none := Option.map_eq_none_iff.mp h
      have hopen : ¬cdataClose.isPrefixOf (c :: (cs ++ cdataClose ++ rest)) = true := by
        rw [isPrefixOf_cons_iff] at hclose ⊢
        rintro ⟨tail, heq⟩
        -- the section has at least three characters, or its end overlaps the mark
        match cs, heq with
        | [], heq => simp [cdataClose] at heq
        | [d], heq => simp [cdataClose] at heq
        | d :: e :: cs, heq =>
          refine hclose ⟨cs, ?_⟩
          simp only [cdataClose] at heq ⊢
          obtain ⟨rfl, rfl, rfl, _⟩ : c = ']' ∧ d = ']' ∧ e = '>' ∧ _ := by simpa using heq
          rfl
      rw [cons_append, cons_append, uptoClose, if_neg hopen, ih hcs]
      rfl

theorem readCdata_none {cs : Chars} (h : ∀ rest, cs ≠ '<' :: '!' :: rest) :
    readCdata cs = none := by
  refine if_neg fun hopen => ?_
  obtain ⟨rest, hrest⟩ := isPrefixOf_iff_prefix.mp hopen
  exact h _ hrest.symm

theorem readEmpty_none {inside : Chars} (h : '>' ∉ inside) (hlast : inside.getLast? ≠ some '/')
    (rest : Chars) :
    readEmpty ('<' :: (inside ++ '>' :: rest)) = none := by
  rw [readEmpty, upto_append h, Option.bind_some]
  exact if_neg hlast

theorem readEmpty_render {name : Chars} {attributes : List (Chars × Chars)} (hname : IsTagName name)
    (h : ∀ a ∈ attributes, IsAttribute a) (rest : Chars) :
    readEmpty ((Piece.empty name attributes).render ++ rest) =
      some (.empty name attributes, rest) := by
  have hshape : (Piece.empty name attributes).render ++ rest =
      '<' :: ((name ++ attributes.flatMap renderAttribute ++ ['/']) ++ '>' :: rest) := by
    simp [Piece.render]
  have hinside : '>' ∉ name ++ attributes.flatMap renderAttribute ++ ['/'] := by
    rw [mem_append, mem_append, not_or, not_or]
    exact ⟨⟨fun hc => (hname.chars _ hc).1 rfl, not_mem_attributes h⟩, by decide⟩
  rw [hshape, readEmpty, upto_append hinside, Option.bind_some]
  simp only [getLast?_concat, dropLast_concat, if_true]
  rw [readTag_render hname h]

theorem IsName.getLast?_ne_slash {name : Chars} (h : IsName name) :
    name.getLast? ≠ some '/' := fun hlast =>
  h.not_mem (d := '/') (by decide) (mem_of_getLast? hlast)

theorem getLast?_attributes {name : Chars} (hname : IsName name)
    (attributes : List (Chars × Chars)) :
    (name ++ attributes.flatMap renderAttribute).getLast? ≠ some '/' := by
  induction attributes using reverseRecOn with
  | nil =>
    rw [flatMap_nil, append_nil]
    exact hname.getLast?_ne_slash
  | append_singleton attributes a _ =>
    have hshape : name ++ (attributes ++ [a]).flatMap renderAttribute =
          (name ++ attributes.flatMap renderAttribute ++ (' ' :: a.1 ++ '=' :: '"' :: a.2)) ++
            ['"'] := by
      simp [renderAttribute]
    rw [hshape, getLast?_concat]
    decide

theorem readCdata_name {name : Chars} (h : IsName name) (rest : Chars) :
    readCdata ('<' :: (name ++ rest)) = none := by
  refine readCdata_none fun tail heq => ?_
  obtain ⟨c, cs, rfl⟩ := exists_cons_of_ne_nil h.ne_nil
  obtain rfl : c = '!' := by simpa using (cons.inj (cons.inj heq).2).1
  exact h.not_mem (d := '!') (by decide) mem_cons_self

theorem nextPiece_token {t : Token} (h : t.WellFormed) (hlegible : (Piece.token t).Legible)
    {rest : Chars}
    (hr : t.isText → ∀ c, rest.head? = some c → isRun c = false) :
    nextPiece (t.render ++ rest) = some (.token t, rest) := by
  have hnone : readCdata (t.render ++ rest) = none ∧ readEmpty (t.render ++ rest) = none := by
    cases t with
    | decl content =>
      have hcontent : '>' ∉ content := hlegible
      have hinside : '>' ∉ '?' :: content ++ ['?'] := by simpa using hcontent
      refine ⟨readCdata_none fun _ => by simp [Token.render], ?_⟩
      have hshape : (Token.decl content).render ++ rest =
          '<' :: ('?' :: content ++ ['?'] ++ '>' :: rest) := by
        simp [Token.render]
      rw [hshape]
      exact readEmpty_none hinside (by rw [getLast?_concat]; decide) rest
    | tag name attributes =>
      obtain ⟨hname, ha, -⟩ := h
      have hinside : '>' ∉ name ++ attributes.flatMap renderAttribute := by
        rw [mem_append, not_or]
        exact ⟨hname.not_mem (by decide), not_mem_attributes ha⟩
      have hshape : (Token.tag name attributes).render ++ rest =
          '<' :: (name ++ attributes.flatMap renderAttribute ++ '>' :: rest) := by
        simp [Token.render]
      rw [hshape]
      refine ⟨?_, readEmpty_none hinside (getLast?_attributes hname attributes) rest⟩
      rw [append_assoc]
      exact readCdata_name hname _
    | close name =>
      have hname : IsName name := h
      have hinside : '>' ∉ '/' :: name := by
        rw [mem_cons, not_or]
        exact ⟨by decide, hname.not_mem (by decide)⟩
      have hshape : (Token.close name).render ++ rest = '<' :: ('/' :: name ++ '>' :: rest) := by
        simp [Token.render]
      rw [hshape]
      refine ⟨readCdata_none fun _ => by simp, readEmpty_none hinside ?_ rest⟩
      rw [getLast?_cons_of_ne_nil hname.ne_nil]
      exact hname.getLast?_ne_slash
    | text run =>
      obtain ⟨c, cs, rfl⟩ := exists_cons_of_ne_nil h.1
      have hc : c ≠ '<' := fun heq => absurd (h.2 c mem_cons_self) (by rw [heq]; decide)
      refine ⟨readCdata_none fun _ heq => hc (cons.inj heq).1, ?_⟩
      unfold readEmpty
      split
      · next heq => exact absurd (cons.inj heq).1 hc
      · rfl
    | ref name => exact ⟨readCdata_none fun _ => by simp [Token.render], rfl⟩
  rw [nextPiece, hnone.1, hnone.2]
  simp only [next_render h.legible hr, Option.map_some]

theorem nextPiece_render {p : Piece} (h : ∀ t ∈ p.expand, t.WellFormed) (hlegible : p.Legible)
    {rest : Chars}
    (hr : p.isText → ∀ c, rest.head? = some c → isRun c = false) :
    nextPiece (p.render ++ rest) = some (p, rest) := by
  cases p with
  | token t => exact nextPiece_token (h t (mem_singleton_self t)) hlegible hr
  | empty name attributes =>
    obtain ⟨hname, ha, -⟩ : (Token.tag name attributes).WellFormed := h _ mem_cons_self
    have hnone : readCdata ((Piece.empty name attributes).render ++ rest) = none := by
      simpa [Piece.render] using readCdata_name hname _
    rw [nextPiece, hnone, readEmpty_render hname.isTagName ha]
  | cdata content =>
    have hopen : cdataOpen.isPrefixOf ((Piece.cdata content).render ++ rest) = true := by
      rw [List.isPrefixOf_iff_prefix]
      exact ⟨content ++ cdataClose ++ rest, by simp [Piece.render]⟩
    have hdrop : ((Piece.cdata content).render ++ rest).drop cdataOpen.length =
        content ++ cdataClose ++ rest := by
      have hshape : (Piece.cdata content).render ++ rest =
          cdataOpen ++ (content ++ cdataClose ++ rest) := by
        simp [Piece.render]
      rw [hshape, drop_left]
    rw [nextPiece, readCdata, if_pos hopen, hdrop, uptoClose_append hlegible, Option.map_some]

theorem Piece.render_ne_nil {p : Piece} (h : ∀ t ∈ p.expand, t.WellFormed) : p.render ≠ [] := by
  cases p with
  | token t => exact Token.render_ne_nil (h t (mem_singleton_self t)).legible
  | empty name attributes => exact cons_ne_nil _ _
  | cdata content => exact cons_ne_nil _ _

theorem head_renderPiece {p : Piece} (h : p.isText = false) (rest : Chars) :
    ∀ c, (p.render ++ rest).head? = some c → isRun c = false := by
  intro c hc
  cases p with
  | token t => exact head_render_of_not_text h rest c hc
  | empty name attributes | cdata content =>
    obtain rfl : '<' = c := Option.some.inj hc
    rfl

theorem isChain_pieces {ps : List Piece}
    (h : (ps.flatMap Piece.expand).IsChain fun a b => ¬ (a.isText ∧ b.isText)) :
    ps.IsChain fun a b => ¬ (a.isText ∧ b.isText) := by
  induction ps with
  | nil => exact .nil
  | cons p ps ih =>
    rw [flatMap_cons] at h
    obtain ⟨-, hrest, hjoin⟩ := isChain_append.mp h
    refine isChain_cons.mpr ⟨fun q hq => ?_, ih hrest⟩
    rintro ⟨hp, hq'⟩
    cases ps with
    | nil => cases hq
    | cons r ps =>
      obtain rfl := Option.some.inj hq
      cases p with
      | token a =>
        cases r with
        | token b => exact hjoin a rfl b rfl ⟨hp, hq'⟩
        | _ => cases hq'
      | _ => cases hp

/-- **Reading undoes writing.** -/
theorem readPieces_renderPieces {ps : List Piece} (h : DocumentOf ps) :
    readPieces (renderPieces ps) = some ps := by
  have hpiece : ∀ p ∈ ps, ∀ t ∈ p.expand, t.WellFormed := fun p hp t ht =>
    h.wellFormed.tokens t (mem_flatMap.mpr ⟨p, hp, ht⟩)
  have hfuel : ∀ (ps : List Piece), (∀ p ∈ ps, ∀ t ∈ p.expand, t.WellFormed) →
      (∀ p ∈ ps, p.Legible) →
      ps.IsChain (fun a b => ¬ (a.isText ∧ b.isText)) → ∀ fuel, (renderPieces ps).length ≤ fuel →
      readPiecesFuel fuel (renderPieces ps) = some ps := by
    intro ps hpiece hlegible hapart
    induction ps with
    | nil =>
      intro fuel _
      cases fuel <;> rfl
    | cons p ps ih =>
      intro fuel hf
      have hp := hpiece p mem_cons_self
      have hstop : p.isText → ∀ c, (renderPieces ps).head? = some c → isRun c = false := by
        intro ht c hc
        cases ps with
        | nil => cases hc
        | cons q ps =>
          have hq : q.isText = false := by
            have hne := (isChain_cons_cons.mp hapart).1
            simpa [ht] using hne
          exact head_renderPiece hq _ c hc
      obtain ⟨c, cs, hcons⟩ := exists_cons_of_ne_nil (Piece.render_ne_nil hp)
      have hshape : renderPieces (p :: ps) = p.render ++ renderPieces ps := flatMap_cons
      rw [hshape] at hf ⊢
      rw [length_append] at hf
      have hpos : 0 < p.render.length := by rw [hcons]; exact Nat.succ_pos _
      cases fuel with
      | zero => omega
      | succ fuel =>
        have hnext := nextPiece_render hp (hlegible p mem_cons_self) hstop
        have hstep : readPiecesFuel (fuel + 1) (p.render ++ renderPieces ps) =
            (nextPiece (p.render ++ renderPieces ps)).bind fun r =>
              (readPiecesFuel fuel r.2).map (r.1 :: ·) := by
          rw [hcons]
          rfl
        rw [hstep, hnext, Option.bind_some, ih (fun q hq => hpiece q (mem_cons_of_mem _ hq))
          (fun q hq => hlegible q (mem_cons_of_mem _ hq)) hapart.tail fuel (by omega)]
        rfl
  exact hfuel ps hpiece h.legible (isChain_pieces h.wellFormed.apart) _ (Nat.le_refl _)

end Xml
