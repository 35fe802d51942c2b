import Nzbd.Compat.XmlRpc

/-!
# The round trip of an XML-RPC value

`readBack` is what the parser makes of a written value: null is an empty string, an unsigned
integer above the signed range a floating-point number, and a string has lost the white space at
its ends and next to every `&`, `<` and `>`, with its carriage returns made line feeds; of a key
only the first run of text is left.  `parseCall_callOf` says so, for any reader that delivers a
document run by run, trimmed.

`roundTrip_iff` says exactly which values come back: those of which nothing of that holds
(`Value.Kept`).
-/

namespace Nzbd.Compat.XmlRpc

open List
open Xml (Item Token Event Content Block RunKept delivered elementItems)

variable {φ : Type}

/-! ### Text -/

/-- The characters that are written as references, with the names of these. -/
def reference (c : Char) : Option Text :=
  if c = '&' then some (text "amp")
  else if c = '<' then some (text "lt")
  else if c = '>' then some (text "gt")
  else none

def isMarkup (c : Char) : Bool := (reference c).isSome

def flush (run : Text) : List Token := if run = [] then [] else [.text run]

/-- Escaped text as it is read, with a run that has begun. -/
def pieces (run : Text) : Text → List Token
  | [] => flush run
  | c :: cs =>
    match reference c with
    | some name => flush run ++ .ref name :: pieces [] cs
    | none => pieces (run ++ [c]) cs

def escapeChar (c : Char) : Text :=
  match reference c with
  | some name => '&' :: name ++ [';']
  | none => [c]

theorem replaceChar_append (c : Char) (by' s t : Text) :
    replaceChar c by' (s ++ t) = replaceChar c by' s ++ replaceChar c by' t := flatMap_append

theorem xmlEscape_cons (c : Char) (s : Text) : xmlEscape (c :: s) = escapeChar c ++ xmlEscape s := by
  have hone : xmlEscape [c] = escapeChar c := by
    by_cases hamp : c = '&'
    · subst hamp
      decide
    by_cases hlt : c = '<'
    · subst hlt
      decide
    by_cases hgt : c = '>'
    · subst hgt
      decide
    · simp [xmlEscape, replaceChar, escapeChar, reference, hamp, hlt, hgt]
  rw [← hone, xmlEscape, ← singleton_append, replaceChar_append, replaceChar_append,
    replaceChar_append]
  rfl

theorem isRun_of_reference {c : Char} (h : reference c = none) : Xml.isRun c = true := by
  unfold reference at h
  split_ifs at h with hamp hlt
  simp [Xml.isRun, hamp, hlt]

theorem isName_reference {c : Char} {name : Text} (h : reference c = some name) :
    Xml.IsName name := by
  unfold reference at h
  split_ifs at h
  all_goals
    obtain rfl := Option.some.inj h
    decide

theorem resolveRef_reference {c : Char} {name : Text} (h : reference c = some name) :
    resolveRef name = [c] := by
  unfold reference at h
  split_ifs at h with hamp hlt hgt
  all_goals
    obtain rfl := Option.some.inj h
    subst c
    decide

variable (run s : Text)

theorem render_pieces : Xml.render (pieces run s) = run ++ xmlEscape s := by
  have hflush (run : Text) : Xml.render (flush run) = run := by
    cases run with
    | nil => rfl
    | cons c cs => simp [flush, Xml.render, Token.render]
  induction s generalizing run with
  | nil => exact (hflush run).trans (append_nil run).symm
  | cons c cs ih =>
    rw [pieces, xmlEscape_cons, escapeChar]
    cases reference c with
    | none =>
      show Xml.render (pieces (run ++ [c]) cs) = run ++ ([c] ++ xmlEscape cs)
      rw [ih, append_assoc]
    | some name =>
      show Xml.render (flush run ++ .ref name :: pieces [] cs) = _
      rw [Xml.render, flatMap_append, ← Xml.render, hflush, flatMap_cons, ← Xml.render, ih]
      simp [Token.render]

theorem content_pieces (hrun : ∀ c ∈ run, reference c = none) :
    Content (pieces run s) := by
  have hflush (run : Text) (hrun : ∀ c ∈ run, reference c = none) (ts : List Token)
      (h : Content ts) (hts : ∀ t ∈ ts.head?, t.isText = false) : Content (flush run ++ ts) := by
    unfold flush
    split_ifs with hnil
    · exact h
    · exact h.text_cons hnil (fun c hc => isRun_of_reference (hrun c hc)) hts
  induction s generalizing run with
  | nil =>
    have := hflush run hrun [] .nil (by simp)
    rwa [append_nil] at this
  | cons c cs ih =>
    rw [pieces]
    cases hc : reference c with
    | none =>
      refine ih (run ++ [c]) fun d hd => ?_
      rcases mem_append.mp hd with hd | hd
      · exact hrun d hd
      · obtain rfl := mem_singleton.mp hd
        exact hc
    | some name =>
      refine hflush run hrun _ ((ih [] (by simp)).ref (isName_reference hc)) fun t ht => ?_
      obtain rfl := Option.some.inj ht
      rfl

def pieceText : Token → Text
  | .text run => delivered run
  | .ref name => resolveRef name
  | _ => []

def readString (s : Text) : Text := (pieces [] s).flatMap pieceText

/-- A string none of whose runs loses anything. -/
def StringKept (s : Text) : Prop := ∀ run ∈ s.splitOnP isMarkup, RunKept run

instance (s : Text) : Decidable (StringKept s) :=
  inferInstanceAs (Decidable (∀ run ∈ s.splitOnP isMarkup, RunKept run))

theorem pieceText_flush (run : Text) : (flush run).flatMap pieceText = delivered run := by
  cases run with
  | nil => rfl
  | cons c cs => simp [flush, pieceText]

theorem length_readPieces_le :
    ((pieces run s).flatMap pieceText).length ≤ run.length + s.length := by
  induction s generalizing run with
  | nil =>
    rw [pieces, pieceText_flush]
    exact Xml.length_delivered_le run
  | cons c cs ih =>
    rw [pieces]
    cases hc : reference c with
    | none =>
      have := ih (run ++ [c])
      simp only [length_append, length_cons, length_nil] at this ⊢
      omega
    | some name =>
      have := ih []
      have hrun := Xml.length_delivered_le run
      simp only [flatMap_append, pieceText_flush, flatMap_cons, length_append,
        pieceText, resolveRef_reference hc, length_cons, length_nil] at this ⊢
      omega

theorem readPieces_eq_iff :
    (pieces run s).flatMap pieceText = run ++ s ↔
      ∀ r ∈ (s.splitOnP isMarkup).modifyHead (run ++ ·), RunKept r := by
  induction s generalizing run with
  | nil =>
    rw [pieces, pieceText_flush, append_nil, Xml.delivered_eq_self]
    simp
  | cons c cs ih =>
    rw [pieces, splitOnP_cons_eq_if_modifyHead]
    cases hc : reference c with
    | none =>
      have hmarkup : isMarkup c = false := by rw [isMarkup, hc, Option.isSome_none]
      have happend : run ++ c :: cs = (run ++ [c]) ++ cs := by simp
      rw [happend, hmarkup]
      simp only [Bool.false_eq_true, if_false]
      rw [ih, modifyHead_modifyHead]
      simp [Function.comp_def]
    | some name =>
      have hmarkup : isMarkup c = true := by rw [isMarkup, hc, Option.isSome_some]
      rw [hmarkup, if_pos rfl]
      have hlength := length_readPieces_le [] cs
      have hrun := Xml.length_delivered_le run
      have hnil : (cs.splitOnP isMarkup).modifyHead (([] : Text) ++ ·) = cs.splitOnP isMarkup := by
        cases cs.splitOnP isMarkup <;> rfl
      simp only [flatMap_append, pieceText_flush, flatMap_cons, pieceText,
        resolveRef_reference hc, modifyHead_cons, append_nil, forall_mem_cons,
        ← Xml.delivered_eq_self]
      have ih' := ih []
      rw [hnil, nil_append] at ih'
      constructor
      · intro h
        have hlen : (delivered run).length = run.length := by
          have := congrArg length h
          simp only [length_append, length_cons, length_nil] at this hlength
          omega
        obtain ⟨hhead, htail⟩ := append_inj h hlen
        refine ⟨hhead, ?_⟩
        simp only [Xml.delivered_eq_self]
        exact ih'.mp (cons.inj htail).2
      · rintro ⟨hhead, htail⟩
        simp only [Xml.delivered_eq_self] at htail
        rw [hhead, ih'.mpr htail]
        rfl

theorem readString_eq_self {s : Text} : readString s = s ↔ StringKept s := by
  have h := readPieces_eq_iff [] s
  have hnil : (s.splitOnP isMarkup).modifyHead (([] : Text) ++ ·) = s.splitOnP isMarkup := by
    cases s.splitOnP isMarkup <;> rfl
  rwa [hnil, nil_append] at h

/-! ### Keys -/

/-- What the events inside a name make of the key, and whether they still may. -/
def nameStep (st : Text × Bool) : Event → Text × Bool
  | .text t => if st.2 then (t, false) else st
  | _ => st

def nameEvents (k : Text) : List Event := Xml.events ((pieces [] k).map .token)

def readKey (k : Text) : Text := ((nameEvents k).foldl nameStep ([], true)).1

/-- A key of one run that loses nothing. -/
def KeyKept (k : Text) : Prop := RunKept k ∧ ∀ c ∈ k, isMarkup c = false

instance (k : Text) : Decidable (KeyKept k) :=
  letI : Decidable (∀ c ∈ k, isMarkup c = false) := List.decidableBAll _ k
  inferInstanceAs (Decidable (RunKept k ∧ ∀ c ∈ k, isMarkup c = false))

theorem reference_of_markup {c : Char} (h : isMarkup c = false) : reference c = none := by
  rwa [isMarkup, Option.isSome_eq_false_iff, Option.isNone_iff_eq_none] at h

theorem pieces_of_plain (h : ∀ c ∈ s, isMarkup c = false) :
    pieces run s = flush (run ++ s) := by
  induction s generalizing run with
  | nil => rw [pieces, append_nil]
  | cons c cs ih =>
    rw [pieces, reference_of_markup (h c mem_cons_self)]
    simp only
    rw [ih _ fun d hd => h d (mem_cons_of_mem c hd), append_assoc, singleton_append]

theorem event_of_kept {run : Text} (hne : run ≠ []) (h : RunKept run) :
    (Item.token (.text run)).event = some (.text run) := by
  have htrim := Xml.trim_of_runKept h
  rw [Item.event, htrim, if_neg hne, Xml.delivered_eq_self.mpr h]

theorem nameEvents_of_kept {k : Text} (hne : k ≠ []) (h : KeyKept k) : nameEvents k = [.text k] := by
  rw [nameEvents, pieces_of_plain [] k h.2, nil_append, flush, if_neg hne, map_singleton,
    Xml.events, filterMap_cons_some (event_of_kept hne h.1), filterMap_nil]

theorem readKey_of_kept {k : Text} (h : KeyKept k) : readKey k = k := by
  by_cases hne : k = []
  · subst hne
    rfl
  · rw [readKey, nameEvents_of_kept hne h]
    rfl

theorem plain_of_mem_pieces {run s : Text} (hrun : ∀ c ∈ run, isMarkup c = false) {r : Text}
    (h : .text r ∈ pieces run s) : ∀ c ∈ r, isMarkup c = false := by
  have hflush {run : Text} (hrun : ∀ c ∈ run, isMarkup c = false) (h : .text r ∈ flush run) :
      ∀ c ∈ r, isMarkup c = false := by
    unfold flush at h
    split_ifs at h with hnil
    · cases h
    · obtain rfl := Token.text.inj (mem_singleton.mp h)
      exact hrun
  induction s generalizing run with
  | nil => exact hflush hrun h
  | cons c cs ih =>
    rw [pieces] at h
    cases hc : reference c with
    | none =>
      simp only [hc] at h
      refine ih (fun d hd => ?_) h
      rcases mem_append.mp hd with hd | hd
      · exact hrun d hd
      · obtain rfl := mem_singleton.mp hd
        rw [isMarkup, hc, Option.isSome_none]
    | some name =>
      simp only [hc] at h
      rcases mem_append.mp h with h | h
      · exact hflush hrun h
      · exact ih (by simp) ((mem_cons.mp h).resolve_left (by simp))

theorem mem_eol {s : Text} {c : Char} (h : c ∈ Xml.eol s) : c ∈ s ∨ c = '\n' := by
  induction s using Xml.eol.induct with
  | case1 => cases h
  | case2 cs ih =>
    rw [Xml.eol] at h
    rcases mem_cons.mp h with rfl | h
    · exact .inr rfl
    · exact (ih h).imp_left fun hm => mem_cons_of_mem _ (mem_cons_of_mem _ hm)
  | case3 d cs hne ih =>
    rw [Xml.eol] at h
    · rcases mem_cons.mp h with rfl | h
      · split_ifs
        · exact .inr rfl
        · exact .inl mem_cons_self
      · exact (ih h).imp_left (mem_cons_of_mem d)
    · exact hne

theorem keyKept_delivered {r : Text} (h : ∀ c ∈ r, isMarkup c = false) : KeyKept (delivered r) := by
  refine ⟨Xml.runKept_delivered r, fun c hc => ?_⟩
  rcases mem_eol hc with hc | rfl
  · exact h c ((Utf8.trimBoth_sublist _ _ r).subset hc)
  · decide

/-- **A key that has been read** is read as it is. -/
theorem keyKept_readKey (k : Text) : KeyKept (readKey k) := by
  have hempty : KeyKept [] := ⟨⟨by simp, by simp, by simp⟩, by simp⟩
  have hevents : ∀ es : List Event, (∀ t, .text t ∈ es → KeyKept t) → ∀ st : Text × Bool,
      KeyKept st.1 → KeyKept (es.foldl nameStep st).1 := by
    intro es
    induction es with
    | nil => exact fun _ st hst => hst
    | cons e es ih =>
      intro hes st hst
      rw [foldl_cons]
      refine ih (fun t ht => hes t (mem_cons_of_mem e ht)) _ ?_
      cases e with
      | text t =>
        show KeyKept (if st.2 then (t, false) else st).1
        split_ifs
        · exact hes t mem_cons_self
        · exact hst
      | _ => exact hst
  refine hevents _ (fun t ht => ?_) _ hempty
  obtain ⟨i, hi, hevent⟩ := mem_filterMap.mp ht
  obtain ⟨a, ha, rfl⟩ := mem_map.mp hi
  cases a with
  | text run =>
    simp only [Item.event] at hevent
    split_ifs at hevent
    obtain rfl := Event.text.inj (Option.some.inj hevent)
    exact keyKept_delivered (plain_of_mem_pieces (by simp) ha)
  | _ => cases hevent

/-! ### Members -/

section Members

variable {ms : List (Text × Value φ)} {k : Text} {v : Value φ}

theorem keyLt_irrefl (k : Text) : keyLt k k = false := by
  induction k with
  | nil => rfl
  | cons c cs ih => simp [keyLt, ih]

theorem keyLt_asymm {k k' : Text} (h : keyLt k k' = true) : keyLt k' k = false := by
  induction k generalizing k' with
  | nil => cases k' <;> rfl
  | cons c cs ih =>
    cases k' with
    | nil => cases h
    | cons d ds =>
      simp only [keyLt, Bool.or_eq_true, Bool.and_eq_true, decide_eq_true_eq] at h
      simp only [keyLt, Bool.or_eq_false_iff, Bool.and_eq_false_iff, decide_eq_false_iff_not]
      rcases h with hlt | ⟨rfl, h⟩
      · exact ⟨by omega, .inl (by rintro rfl; exact Nat.lt_irrefl _ hlt)⟩
      · exact ⟨Nat.lt_irrefl _, .inr (ih h)⟩

/-- In the order of the keys. -/
def Sorted (ms : List (Text × Value φ)) : Prop :=
  (ms.map Prod.fst).Pairwise fun a b => keyLt a b = true

instance (ms : List (Text × Value φ)) : Decidable (Sorted ms) :=
  inferInstanceAs (Decidable ((ms.map Prod.fst).Pairwise fun a b => keyLt a b = true))

theorem insertMember_last (h : ∀ k' ∈ ms.map Prod.fst, keyLt k' k = true) :
    insertMember k v ms = ms ++ [(k, v)] := by
  induction ms with
  | nil => rfl
  | cons m ms ih =>
    obtain ⟨k', v'⟩ := m
    have hlt : keyLt k' k = true := h k' mem_cons_self
    have hne : k ≠ k' := by
      rintro rfl
      rw [keyLt_irrefl] at hlt
      cases hlt
    rw [insertMember, if_neg (by rw [keyLt_asymm hlt]; exact Bool.false_ne_true), if_neg hne,
      ih fun k'' hk => h k'' (mem_cons_of_mem _ hk), cons_append]

theorem key_insertMember {k' : Text} (h : k' ∈ (insertMember k v ms).map Prod.fst) :
    k' = k ∨ k' ∈ ms.map Prod.fst := by
  induction ms with
  | nil => exact .inl (by simpa [insertMember] using h)
  | cons m ms ih =>
    obtain ⟨k₀, v₀⟩ := m
    rw [insertMember] at h
    split_ifs at h with hlt heq
    · simpa using h
    · rw [map_cons, mem_cons] at h
      exact h.imp_right (mem_cons_of_mem _)
    · rw [map_cons, mem_cons] at h
      rcases h with rfl | h
      · exact .inr mem_cons_self
      · exact (ih h).imp_right (mem_cons_of_mem _)

def collect (ms : List (Text × Value φ)) : List (Text × Value φ) :=
  ms.foldl (fun map m => insertMember m.1 m.2 map) []

theorem foldl_insert_sorted (acc ms : List (Text × Value φ))
    (h : Sorted (acc ++ ms)) :
    ms.foldl (fun map m => insertMember m.1 m.2 map) acc = acc ++ ms := by
  induction ms generalizing acc with
  | nil => exact (append_nil acc).symm
  | cons m ms ih =>
    have hlast : ∀ k' ∈ acc.map Prod.fst, keyLt k' m.1 = true := by
      intro k' hk
      rw [Sorted, map_append, pairwise_append] at h
      exact h.2.2 k' hk m.1 mem_cons_self
    rw [foldl_cons, insertMember_last hlast, ih]
    · simp
    · simpa [Sorted] using h

theorem key_collect (acc ms : List (Text × Value φ)) {k : Text}
    (h : k ∈ (ms.foldl (fun map m => insertMember m.1 m.2 map) acc).map Prod.fst) :
    k ∈ acc.map Prod.fst ∨ k ∈ ms.map Prod.fst := by
  induction ms generalizing acc with
  | nil => exact .inl h
  | cons m ms ih =>
    rw [foldl_cons] at h
    rcases ih _ h with h | h
    · rcases key_insertMember h with rfl | h
      · exact .inr mem_cons_self
      · exact .inl h
    · exact .inr (mem_cons_of_mem _ h)

/-- **Members come back** exactly if each does: a key that has been changed is in nobody's place. -/
theorem collect_eq_iff (g : Value φ → Value φ) (h : Sorted ms) :
    collect (ms.map fun m => (readKey m.1, g m.2)) = ms ↔
      ∀ m ∈ ms, KeyKept m.1 ∧ g m.2 = m.2 := by
  have hsame : (∀ m ∈ ms, KeyKept m.1) → collect (ms.map fun m => (readKey m.1, g m.2)) =
      ms.map fun m => (m.1, g m.2) := by
    intro hkeys
    have hmap : (ms.map fun m => (readKey m.1, g m.2)) = ms.map fun m => (m.1, g m.2) :=
      map_congr_left fun m hm => by rw [readKey_of_kept (hkeys m hm)]
    rw [hmap]
    refine foldl_insert_sorted [] _ ?_
    rw [nil_append, Sorted, map_map]
    exact h
  constructor
  · intro heq
    have hkeys : ∀ m ∈ ms, KeyKept m.1 := by
      intro m hm
      have hmem : m.1 ∈ (collect (ms.map fun m => (readKey m.1, g m.2))).map Prod.fst := by
        rw [heq]
        exact mem_map_of_mem hm
      rcases key_collect [] _ hmem with hno | hread
      · cases hno
      · rw [map_map] at hread
        obtain ⟨m', -, hm'⟩ := mem_map.mp hread
        exact hm' ▸ keyKept_readKey m'.1
    refine fun m hm => ⟨hkeys m hm, ?_⟩
    rw [hsame hkeys] at heq
    have hid : (ms.map fun m => (m.1, g m.2)) = ms.map id := heq.trans (map_id ms).symm
    exact congrArg Prod.snd (map_inj_left.mp hid m hm)
  · intro hall
    rw [hsame fun m hm => (hall m hm).1]
    refine (map_congr_left fun m hm => ?_).trans (map_id ms)
    exact Prod.ext rfl (hall m hm).2

end Members

/-! ### A value as it is written -/

mutual

/-- What stands between the tags of a value; a floating-point number is not looked at here. -/
def body : Value φ → List Item
  | .null => [.empty (text "nil")]
  | .bool b => elementItems (text "boolean") [.token (.text [if b then '1' else '0'])]
  | .integer n =>
    elementItems (if n.val < 2 ^ 63 then text "int" else text "double")
      [.token (.text (Numeral.showInt n.val))]
  | .double _ => []
  | .string s => elementItems (text "string") ((pieces [] s).map .token)
  | .array items => elementItems (text "array") (elementItems (text "data") (itemBodies items))
  | .object members => elementItems (text "struct") (memberBodies members)

def itemBodies : List (Value φ) → List Item
  | [] => []
  | v :: vs => elementItems (text "value") (body v) ++ itemBodies vs

def memberBodies : List (Text × Value φ) → List Item
  | [] => []
  | (k, v) :: ms =>
    elementItems (text "member")
        (elementItems (text "name") ((pieces [] k).map .token) ++
          elementItems (text "value") (body v)) ++
      memberBodies ms

end

mutual

/-- No floating-point numbers, and the members of every object in the order of their keys. -/
def Value.Plain : Value φ → Prop
  | .double _ => False
  | .array items => ItemsPlain items
  | .object members => Sorted members ∧ MembersPlain members
  | _ => True

def ItemsPlain : List (Value φ) → Prop
  | [] => True
  | v :: vs => v.Plain ∧ ItemsPlain vs

def MembersPlain : List (Text × Value φ) → Prop
  | [] => True
  | (_, v) :: ms => v.Plain ∧ MembersPlain ms

end

theorem renderItems_tags {name o c : Text} (ho : o = '<' :: name ++ ['>'])
    (hc : c = '<' :: '/' :: name ++ ['>']) (content : List Item) :
    Xml.renderItems (elementItems name content) = o ++ Xml.renderItems content ++ c := by
  rw [Xml.renderItems_element, ho, hc]
  simp

theorem renderItems_pieces (s : Text) :
    Xml.renderItems ((pieces [] s).map .token) = xmlEscape s := by
  have hraw : ((pieces [] s).map Item.token).map Item.raw = pieces [] s := by
    rw [map_map]
    exact map_id _
  rw [Xml.renderItems, hraw, render_pieces, nil_append]

theorem renderItems_run (run : Text) : Xml.renderItems [.token (.text run)] = run := by
  simp [Xml.renderItems, Xml.render, Item.raw, Token.render]

theorem renderItems_value (content : List Item) :
    Xml.renderItems (elementItems (text "value") content) =
      text "<value>" ++ Xml.renderItems content ++ text "</value>" :=
  renderItems_tags (by decide) (by decide) content

section Render

variable (showF64 : φ → Text)

mutual

theorem renderItems_body : ∀ v : Value φ, v.Plain →
    Xml.renderItems (elementItems (text "value") (body v)) = toXml showF64 v
  | .null, _ => by
    rw [renderItems_value, toXml, body]
    rfl
  | .bool b, _ => by
    rw [renderItems_value, toXml, body,
      renderItems_tags (o := text "<boolean>") (c := text "</boolean>") (by decide) (by decide),
      renderItems_run]
  | .integer n, _ => by
    rw [renderItems_value, toXml, body]
    split_ifs
    · rw [renderItems_tags (o := text "<int>") (c := text "</int>") (by decide) (by decide),
        renderItems_run]
    · rw [renderItems_tags (o := text "<double>") (c := text "</double>") (by decide) (by decide),
        renderItems_run]
  | .double _, h => h.elim
  | .string s, _ => by
    rw [renderItems_value, toXml, body,
      renderItems_tags (o := text "<string>") (c := text "</string>") (by decide) (by decide),
      renderItems_pieces]
  | .array items, h => by
    have hdata : text "<array><data>" = text "<array>" ++ text "<data>" ∧
        text "</data></array>" = text "</data>" ++ text "</array>" := by decide
    rw [renderItems_value, toXml, body,
      renderItems_tags (o := text "<array>") (c := text "</array>") (by decide) (by decide),
      renderItems_tags (o := text "<data>") (c := text "</data>") (by decide) (by decide),
      renderItems_items items h, hdata.1, hdata.2]
    simp
  | .object members, h => by
    rw [renderItems_value, toXml, body,
      renderItems_tags (o := text "<struct>") (c := text "</struct>") (by decide) (by decide),
      renderItems_members members h.2]

theorem renderItems_items : ∀ vs : List (Value φ), ItemsPlain vs →
    Xml.renderItems (itemBodies vs) = itemsToXml showF64 vs
  | [], _ => rfl
  | v :: vs, h => by
    rw [itemBodies, itemsToXml, Xml.renderItems_append, renderItems_body v h.1,
      renderItems_items vs h.2]

theorem renderItems_members : ∀ ms : List (Text × Value φ), MembersPlain ms →
    Xml.renderItems (memberBodies ms) = membersToXml showF64 ms
  | [], _ => rfl
  | (k, v) :: ms, h => by
    have hopen : text "<member><name>" = text "<member>" ++ text "<name>" := by decide
    rw [memberBodies, membersToXml, Xml.renderItems_append,
      renderItems_tags (o := text "<member>") (c := text "</member>") (by decide) (by decide),
      Xml.renderItems_append,
      renderItems_tags (o := text "<name>") (c := text "</name>") (by decide) (by decide),
      renderItems_pieces, renderItems_body v h.1, renderItems_members ms h.2, hopen]
    simp

end

end Render

/-! ### It is well formed -/

theorem content_text (s : Text) :
    Content (((pieces [] s).map Item.token).flatMap Item.expand) :=
  Xml.content_tokens (content_pieces [] s (by simp))

theorem content_run {run : Text} (hne : run ≠ []) (h : ∀ c ∈ run, isMarkup c = false) :
    Content ([Item.token (.text run)].flatMap Item.expand) :=
  Content.text hne fun c hc => isRun_of_reference (reference_of_markup (h c hc))

theorem plain_showInt (i : Int) : ∀ c ∈ Numeral.showInt i, isMarkup c = false ∧
    Xml.isSpace c = false := by
  have hdigit : ∀ d < 16, isMarkup (Nat.digitChar d) = false ∧
      Xml.isSpace (Nat.digitChar d) = false := by decide
  intro c hc
  cases i with
  | ofNat n =>
    obtain ⟨d, hd, rfl⟩ := Numeral.digits_toDigits n c hc
    exact hdigit d hd
  | negSucc n =>
    rcases mem_cons.mp hc with rfl | hc
    · decide
    · obtain ⟨d, hd, rfl⟩ := Numeral.digits_toDigits (n + 1) c hc
      exact hdigit d hd

theorem showInt_ne_nil (i : Int) : Numeral.showInt i ≠ [] := by
  cases i with
  | ofNat n => exact Nat.toDigits_ne_nil
  | negSucc n => exact cons_ne_nil _ _

mutual

theorem content_body : ∀ v : Value φ, Content ((body v).flatMap Item.expand)
  | .null => Xml.content_empty (by decide)
  | .bool b => by
    refine (Content.elementItems (content_run (List.cons_ne_nil _ _) ?_) (by decide)).toContent
    exact List.forall_mem_singleton.mpr (by cases b <;> rfl)
  | .integer n => by
    have hrun := content_run (showInt_ne_nil n.val) fun c hc => (plain_showInt n.val c hc).1
    rw [body]
    split_ifs
    · exact (hrun.elementItems (by decide)).toContent
    · exact (hrun.elementItems (by decide)).toContent
  | .double _ => Content.nil
  | .string s => ((content_text s).elementItems (by decide)).toContent
  | .array items =>
    (((block_items items).toContent.elementItems (by decide)).toContent.elementItems
      (by decide)).toContent
  | .object members => ((block_members members).toContent.elementItems (by decide)).toContent

theorem block_items : ∀ vs : List (Value φ), Block ((itemBodies vs).flatMap Item.expand)
  | [] => Block.nil
  | v :: vs => ((content_body v).elementItems (by decide)).append_items (block_items vs)

theorem block_members : ∀ ms : List (Text × Value φ), Block ((memberBodies ms).flatMap Item.expand)
  | [] => Block.nil
  | (k, v) :: ms =>
    ((((content_text k).elementItems (by decide)).append_items
      ((content_body v).elementItems (by decide))).toContent.elementItems
        (by decide)).append_items (block_members ms)

end

/-! ### A value as it is read -/

section Read

variable (parseF64 : Text → Option φ)

mutual

/-- What the parser makes of a written value. -/
def readBack : Value φ → Value φ
  | .null => .string []
  | .bool b => .bool b
  | .integer n =>
    if n.val < 2 ^ 63 then .integer n
    else match parseF64 (Numeral.showInt n.val) with
      | some x => .double x
      | none => .null
  | .double _ => .string []
  | .string s => .string (readString s)
  | .array items => .array (itemsBack items)
  | .object members => .object (collect (membersBack members))

def itemsBack : List (Value φ) → List (Value φ)
  | [] => []
  | v :: vs => readBack v :: itemsBack vs

def membersBack : List (Text × Value φ) → List (Text × Value φ)
  | [] => []
  | (k, v) :: ms => (readKey k, readBack v) :: membersBack ms

end

/-- Text and references, as they stand inside an element. -/
def Inline (es : List Event) : Prop := ∀ e ∈ es, (∃ t, e = .text t) ∨ ∃ r, e = .ref r

def eventText : Event → Text
  | .text t => t
  | .ref r => resolveRef r
  | _ => []

theorem inline_pieces : ∀ t ∈ pieces run s, (∃ r, t = .text r) ∨ ∃ n, t = .ref n := by
  have hflush (run : Text) : ∀ t ∈ flush run, (∃ r, t = Token.text r) ∨ ∃ n, t = .ref n := by
    intro t ht
    unfold flush at ht
    split_ifs at ht
    · cases ht
    · exact .inl ⟨run, mem_singleton.mp ht⟩
  induction s generalizing run with
  | nil => exact hflush run
  | cons c cs ih =>
    intro t ht
    rw [pieces] at ht
    cases hc : reference c with
    | none => exact ih _ t (by simpa only [hc] using ht)
    | some name =>
      simp only [hc] at ht
      rcases mem_append.mp ht with ht | ht
      · exact hflush run t ht
      · rcases mem_cons.mp ht with rfl | ht
        · exact .inr ⟨name, rfl⟩
        · exact ih [] t ht

theorem inline_nameEvents (k : Text) : Inline (nameEvents k) := by
  intro e he
  obtain ⟨i, hi, hevent⟩ := mem_filterMap.mp he
  obtain ⟨t, ht, rfl⟩ := mem_map.mp hi
  rcases inline_pieces [] k t ht with ⟨r, rfl⟩ | ⟨n, rfl⟩
  · simp only [Item.event] at hevent
    split_ifs at hevent
    exact .inl ⟨_, (Option.some.inj hevent).symm⟩
  · exact .inr ⟨n, (Option.some.inj hevent).symm⟩

theorem eventText_nameEvents (s : Text) : (nameEvents s).flatMap eventText = readString s := by
  have hpieces (ts : List Token) (h : ∀ t ∈ ts, (∃ r, t = Token.text r) ∨ ∃ n, t = .ref n) :
      (Xml.events (ts.map .token)).flatMap eventText = ts.flatMap pieceText := by
    induction ts with
    | nil => rfl
    | cons t ts ih =>
      have ih := ih fun t ht => h t (mem_cons_of_mem _ ht)
      rw [map_cons, ← singleton_append, Xml.events_append, flatMap_append, ih,
        flatMap_cons]
      congr 1
      rcases h t mem_cons_self with ⟨r, rfl⟩ | ⟨n, rfl⟩
      · by_cases htrim : Utf8.trimMatches Xml.isSpace r = []
        · simp [Xml.events, Item.event, htrim, pieceText, delivered, Xml.eol]
        · simp [Xml.events, Item.event, htrim, pieceText, eventText]
      · simp [Xml.events, Item.event, pieceText, eventText]
  exact hpieces _ (inline_pieces [] s)

theorem readText_inline (stop out : Text) (es rest : List Event) (h : Inline es) :
    readText stop out (es ++ .stop stop :: rest) = some (out ++ es.flatMap eventText, rest) := by
  induction es generalizing out with
  | nil =>
    rw [nil_append, readText, if_pos rfl, flatMap_nil, append_nil]
  | cons e es ih =>
    have ih := fun out => ih out fun e he => h e (mem_cons_of_mem _ he)
    rw [flatMap_cons, ← append_assoc]
    rcases h e mem_cons_self with ⟨t, rfl⟩ | ⟨r, rfl⟩
    · exact ih _
    · exact ih _

theorem readText_run {run stop : Text} (rest : List Event) (hne : run ≠ []) (h : RunKept run) :
    readText stop [] (Xml.events [.token (.text run)] ++ .stop stop :: rest) =
      some (run, rest) := by
  have hevents : Xml.events [.token (.text run)] = [.text run] := by
    rw [Xml.events, filterMap_cons_some (event_of_kept hne h), filterMap_nil]
  rw [hevents, readText_inline stop [] _ rest fun e he => .inl ⟨run, mem_singleton.mp he⟩]
  simp [eventText]

theorem runKept_of_plain {run : Text} (h : ∀ c ∈ run, Xml.isSpace c = false) : RunKept run where
  noReturn hr := absurd (h _ hr) (by decide)
  head c hc := h c (mem_of_head? hc)
  last c hc := h c (mem_of_getLast? hc)

theorem parseI64_showInt {n : Integer} (h : n.val < 2 ^ 63) :
    parseI64 (Numeral.showInt n.val) = n := by
  have hread : Numeral.fromStrSigned (2 ^ 63) (Utf8.trim (Numeral.showInt n.val)) = some n.val := by
    rw [Numeral.trim_showInt]
    exact Numeral.fromStrSigned_showInt ⟨n.lower, h⟩
  unfold parseI64
  split
  · next i hi =>
    obtain rfl := Option.some.inj (hi.symm.trans hread)
    rfl
  · next hnone =>
    rw [hread] at hnone
    cases hnone

theorem parseValue_stop (fuel : Nat) (v : Value φ) (rest : List Event) :
    parseValue parseF64 (fuel + 1) (some v) none (.stop (text "value") :: rest) = some (v, rest) := rfl

theorem parseStruct_inline (fuel : Nat) (map : List (Text × Value φ)) (st : Text × Bool)
    (es rest : List Event) (h : Inline es) :
    parseStruct parseF64 (fuel + es.length) map st.1 st.2 (es ++ rest) =
      parseStruct parseF64 fuel map (es.foldl nameStep st).1 (es.foldl nameStep st).2 rest := by
  induction es generalizing st with
  | nil => rfl
  | cons e es ih =>
    have ih := fun st => ih st fun e he => h e (mem_cons_of_mem _ he)
    rw [length_cons, ← Nat.add_assoc, cons_append, foldl_cons, ← ih]
    rcases h e mem_cons_self with ⟨t, rfl⟩ | ⟨r, rfl⟩
    · obtain ⟨key, inName⟩ := st
      cases inName with
      | true => simp [parseStruct, nameStep]
      | false => simp [parseStruct, nameStep]
    · simp [parseStruct, nameStep]

section Steps

variable (fuel : Nat) (result : Option (Value φ)) (bare : Option Text) (es : List Event)

theorem parseValue_string :
    parseValue parseF64 (fuel + 1) result bare (.start (text "string") :: es) =
      (readText (text "string") [] es).bind fun r =>
        parseValue parseF64 fuel (some (.string r.1)) bare r.2 := rfl

theorem parseValue_int :
    parseValue parseF64 (fuel + 1) result bare (.start (text "int") :: es) =
      (readText (text "int") [] es).bind fun r =>
        parseValue parseF64 fuel (some (.integer (parseI64 r.1))) bare r.2 := rfl

theorem parseValue_boolean :
    parseValue parseF64 (fuel + 1) result bare (.start (text "boolean") :: es) =
      (readText (text "boolean") [] es).bind fun r =>
        parseValue parseF64 fuel (some (.bool (Utf8.trim r.1 = ['1']))) bare r.2 := rfl

theorem parseValue_double :
    parseValue parseF64 (fuel + 1) result bare (.start (text "double") :: es) =
      (readText (text "double") [] es).bind fun r =>
        parseValue parseF64 fuel
          (some (match parseF64 (Utf8.trim r.1) with
            | some x => .double x
            | none => .null)) bare r.2 := rfl

theorem parseValue_array :
    parseValue parseF64 (fuel + 1) result bare (.start (text "array") :: es) =
      (parseArray parseF64 fuel [] es).bind fun r =>
        parseValue parseF64 fuel (some (.array r.1)) bare r.2 := rfl

theorem parseValue_struct :
    parseValue parseF64 (fuel + 1) result bare (.start (text "struct") :: es) =
      (parseStruct parseF64 fuel [] [] false es).bind fun r =>
        parseValue parseF64 fuel (some (.object r.1)) bare r.2 := rfl

/-! Arrays and structures go from one tag to the next. -/

variable (acc : List (Value φ)) (map : List (Text × Value φ)) (key : Text) (inName : Bool)

theorem parseArray_data :
    parseArray parseF64 (fuel + 1) acc (.start (text "data") :: es) =
      parseArray parseF64 fuel acc es := rfl

theorem parseArray_value :
    parseArray parseF64 (fuel + 1) acc (.start (text "value") :: es) =
      (parseValue parseF64 fuel none none es).bind fun r =>
        parseArray parseF64 fuel (acc ++ [r.1]) r.2 := rfl

theorem parseArray_stop :
    parseArray parseF64 (fuel + 1 + 1) acc (.stop (text "data") :: .stop (text "array") :: es) =
      some (acc, es) := rfl

theorem parseStruct_name :
    parseStruct parseF64 (fuel + 1 + 1) map key inName
        (.start (text "member") :: .start (text "name") :: es) =
      parseStruct parseF64 fuel map key true es := rfl

theorem parseStruct_value :
    parseStruct parseF64 (fuel + 1 + 1) map key inName
        (.stop (text "name") :: .start (text "value") :: es) =
      (parseValue parseF64 fuel none none es).bind fun r =>
        parseStruct parseF64 fuel (insertMember key r.1 map) [] inName r.2 := rfl

theorem parseStruct_next :
    parseStruct parseF64 (fuel + 1) map key inName (.stop (text "member") :: es) =
      parseStruct parseF64 fuel map key inName es := rfl

theorem parseStruct_stop :
    parseStruct parseF64 (fuel + 1) map key inName (.stop (text "struct") :: es) =
      some (map, es) := rfl

end Steps

section Values

variable {fuel : Nat} {rest : List Event}

theorem parseValue_null (hfuel : (Xml.events (body (.null : Value φ))).length < fuel) :
    parseValue parseF64 fuel none none
        (Xml.events (body (.null : Value φ)) ++ .stop (text "value") :: rest) =
      some (.string [], rest) := by
  obtain ⟨f, rfl⟩ : ∃ f, fuel = f + 1 + 1 := ⟨fuel - 2, by
    have : 1 < fuel := hfuel
    omega⟩
  rfl

theorem parseValue_bool {b : Bool} (hfuel : (Xml.events (body (.bool b : Value φ))).length < fuel) :
    parseValue parseF64 fuel none none
        (Xml.events (body (.bool b : Value φ)) ++ .stop (text "value") :: rest) =
      some (.bool b, rest) := by
  rw [body, Xml.events_element] at hfuel ⊢
  obtain ⟨f, rfl⟩ : ∃ f, fuel = f + 1 + 1 := ⟨fuel - 2, by simp at hfuel; omega⟩
  have hkept : RunKept [if b then '1' else '0'] :=
    runKept_of_plain (forall_mem_singleton.mpr (by cases b <;> rfl))
  rw [cons_append, append_assoc, singleton_append, parseValue_boolean,
    readText_run _ (cons_ne_nil _ _) hkept, Option.bind_some, parseValue_stop]
  cases b <;> rfl

theorem parseValue_integer {n : Integer}
    (hfuel : (Xml.events (body (.integer n : Value φ))).length < fuel) :
    parseValue parseF64 fuel none none
        (Xml.events (body (.integer n : Value φ)) ++ .stop (text "value") :: rest) =
      some (readBack parseF64 (.integer n), rest) := by
  have hkept : RunKept (Numeral.showInt n.val) :=
    runKept_of_plain fun c hc => (plain_showInt n.val c hc).2
  rw [body, Xml.events_element] at hfuel ⊢
  obtain ⟨f, rfl⟩ : ∃ f, fuel = f + 1 + 1 := ⟨fuel - 2, by simp at hfuel; omega⟩
  rw [cons_append, append_assoc, singleton_append, readBack]
  by_cases h : n.val < 2 ^ 63
  · rw [if_pos h, if_pos h, parseValue_int, readText_run _ (showInt_ne_nil _) hkept,
      Option.bind_some, parseValue_stop, parseI64_showInt h]
  · rw [if_neg h, if_neg h, parseValue_double, readText_run _ (showInt_ne_nil _) hkept,
      Option.bind_some, parseValue_stop, Numeral.trim_showInt]

theorem parseValue_text {s : Text}
    (hfuel : (Xml.events (body (.string s : Value φ))).length < fuel) :
    parseValue parseF64 fuel none none
        (Xml.events (body (.string s : Value φ)) ++ .stop (text "value") :: rest) =
      some (.string (readString s), rest) := by
  rw [body, Xml.events_element, ← nameEvents] at hfuel ⊢
  obtain ⟨f, rfl⟩ : ∃ f, fuel = f + 1 + 1 := ⟨fuel - 2, by simp at hfuel; omega⟩
  rw [cons_append, append_assoc, singleton_append, parseValue_string,
    readText_inline _ _ _ _ (inline_nameEvents s), Option.bind_some, eventText_nameEvents,
    parseValue_stop, nil_append]

end Values

mutual

/-- **A value is read up to its end.** -/
theorem parseValue_body : ∀ (v : Value φ) (fuel : Nat) (rest : List Event), v.Plain →
    (Xml.events (body v)).length < fuel →
    parseValue parseF64 fuel none none (Xml.events (body v) ++ .stop (text "value") :: rest) =
      some (readBack parseF64 v, rest)
  | .null, _, _, _, hfuel => parseValue_null parseF64 hfuel
  | .bool _, _, _, _, hfuel => parseValue_bool parseF64 hfuel
  | .integer _, _, _, _, hfuel => parseValue_integer parseF64 hfuel
  | .double _, _, _, h, _ => h.elim
  | .string _, _, _, _, hfuel => parseValue_text parseF64 hfuel
  | .array items, fuel, rest, h, hfuel => by
    rw [body, Xml.events_element, Xml.events_element] at hfuel ⊢
    simp only [List.length_cons, List.length_append, List.length_nil] at hfuel
    obtain ⟨f, rfl⟩ : ∃ f, fuel = f + 1 + 1 := ⟨fuel - 2, by omega⟩
    have hitems := parseArray_items items [] f (.stop (text "value") :: rest) h (by omega)
    simp only [cons_append, append_assoc, nil_append]
    rw [parseValue_array, parseArray_data, hitems, Option.bind_some, parseValue_stop,
      nil_append, readBack]
  | .object members, fuel, rest, h, hfuel => by
    rw [body, Xml.events_element] at hfuel ⊢
    simp only [length_cons, length_append, length_nil] at hfuel
    obtain ⟨f, rfl⟩ : ∃ f, fuel = f + 1 + 1 := ⟨fuel - 2, by omega⟩
    have hmembers := parseStruct_members members [] (f + 1) false (.stop (text "value") :: rest)
      h.2 (by omega)
    rw [cons_append, append_assoc, singleton_append, parseValue_struct, hmembers,
      Option.bind_some, parseValue_stop, readBack, collect]

theorem parseArray_items : ∀ (vs acc : List (Value φ)) (fuel : Nat) (rest : List Event),
    ItemsPlain vs → (Xml.events (itemBodies vs)).length + 2 ≤ fuel →
    parseArray parseF64 fuel acc
        (Xml.events (itemBodies vs) ++ .stop (text "data") :: .stop (text "array") :: rest) =
      some (acc ++ itemsBack parseF64 vs, rest)
  | [], acc, fuel, rest, _, hfuel => by
    obtain ⟨f, rfl⟩ : ∃ f, fuel = f + 1 + 1 := ⟨fuel - 2, by omega⟩
    rw [itemsBack, append_nil]
    exact parseArray_stop parseF64 f rest acc
  | v :: vs, acc, fuel, rest, h, hfuel => by
    rw [itemBodies, Xml.events_append, Xml.events_element] at hfuel ⊢
    simp only [length_cons, length_append, length_nil] at hfuel
    obtain ⟨f, rfl⟩ : ∃ f, fuel = f + 1 := ⟨fuel - 1, by omega⟩
    simp only [cons_append, append_assoc, nil_append]
    rw [parseArray_value, parseValue_body v f _ h.1 (by omega), Option.bind_some,
      parseArray_items vs _ f rest h.2 (by omega), itemsBack, append_assoc,
      singleton_append]

theorem parseStruct_members : ∀ (ms map : List (Text × Value φ)) (fuel : Nat) (inName : Bool)
    (rest : List Event), MembersPlain ms → (Xml.events (memberBodies ms)).length < fuel →
    parseStruct parseF64 fuel map [] inName
        (Xml.events (memberBodies ms) ++ .stop (text "struct") :: rest) =
      some ((membersBack parseF64 ms).foldl (fun map m => insertMember m.1 m.2 map) map, rest)
  | [], map, fuel, inName, rest, _, hfuel => by
    obtain ⟨f, rfl⟩ : ∃ f, fuel = f + 1 := ⟨fuel - 1, by omega⟩
    exact parseStruct_stop parseF64 f rest map [] inName
  | (k, v) :: ms, map, fuel, inName, rest, h, hfuel => by
    rw [memberBodies, Xml.events_append, Xml.events_element, Xml.events_append,
      Xml.events_element, Xml.events_element, ← nameEvents] at hfuel ⊢
    simp only [length_cons, length_append, length_nil] at hfuel
    obtain ⟨f, rfl⟩ : ∃ f, fuel = f + 1 + 1 + 1 + (nameEvents k).length + 1 + 1 :=
      ⟨fuel - (nameEvents k).length - 5, by omega⟩
    simp only [cons_append, append_assoc, nil_append]
    rw [parseStruct_name, parseStruct_inline parseF64 _ map ([], true) _ _ (inline_nameEvents k),
      parseStruct_value, parseValue_body v _ _ h.1 (by omega), Option.bind_some, parseStruct_next,
      parseStruct_members ms _ _ _ rest h.2 (by omega)]
    rfl

end

end Read

/-! ### The call -/

def callItems (name : Text) (v : Value φ) : List Item :=
  elementItems (text "methodCall")
    (elementItems (text "methodName") [.token (.text name)] ++
      elementItems (text "params") (elementItems (text "param")
        (elementItems (text "value") (body v))))

theorem renderItems_call (showF64 : φ → Text) (name : Text) {v : Value φ} (h : v.Plain) :
    Xml.renderItems (callItems name v) = callOf showF64 name v := by
  have hopen : text "<methodCall><methodName>" = text "<methodCall>" ++ text "<methodName>" ∧
      text "</methodName><params><param>" =
        text "</methodName>" ++ text "<params>" ++ text "<param>" ∧
      text "</param></params></methodCall>" =
        text "</param>" ++ text "</params>" ++ text "</methodCall>" := by decide
  rw [callItems, callOf,
    renderItems_tags (o := text "<methodCall>") (c := text "</methodCall>") (by decide) (by decide),
    Xml.renderItems_append,
    renderItems_tags (o := text "<methodName>") (c := text "</methodName>") (by decide) (by decide),
    renderItems_run,
    renderItems_tags (o := text "<params>") (c := text "</params>") (by decide) (by decide),
    renderItems_tags (o := text "<param>") (c := text "</param>") (by decide) (by decide),
    renderItems_body showF64 v h, hopen.1, hopen.2.1, hopen.2.2]
  simp only [append_assoc]

theorem document_call {name : Text} (hname : KeyKept name) (hne : name ≠ []) (v : Value φ) :
    Xml.Document (callItems name v) :=
  ((((content_run hne hname.2).elementItems (by decide)).append_items
    ((((content_body v).elementItems (by decide)).toContent.elementItems
      (by decide)).toContent.elementItems (by decide))).toContent.elementItems
        (by decide)).toContent.wellFormed

/-- **What the parser makes of a call** whose parameter is a written value. -/
theorem parseCall_callOf (showF64 : φ → Text) (parseF64 : Text → Option φ)
    {reader : Text → Option (List Event)} (hreader : Xml.Trims reader) {name : Text}
    (hname : KeyKept name) (hne : name ≠ []) {v : Value φ} (hv : v.Plain) :
    parseCall parseF64 reader (callOf showF64 name v) =
      some ⟨name, [readBack parseF64 v]⟩ := by
  have hrun : Xml.events [.token (.text name)] = [.text name] := by
    rw [Xml.events, filterMap_cons_some (event_of_kept hne hname.1), filterMap_nil]
  have hevents : Xml.events (callItems name v) =
      .start (text "methodCall") :: .start (text "methodName") :: .text name ::
        .stop (text "methodName") :: .start (text "params") :: .start (text "param") ::
        .start (text "value") :: (Xml.events (body v) ++ .stop (text "value") ::
          [.stop (text "param"), .stop (text "params"), .stop (text "methodCall")]) := by
    simp only [callItems, Xml.events_element, Xml.events_append, hrun, cons_append,
      append_assoc, nil_append]
  have hlength : (Xml.events (callItems name v)).length = (Xml.events (body v)).length + 11 := by
    rw [hevents]
    simp
  have hhead (f : Nat) (es : List Event) :
      parseEvents parseF64 (f + 7) [] [] false
          (.start (text "methodCall") :: .start (text "methodName") :: .text name ::
            .stop (text "methodName") :: .start (text "params") :: .start (text "param") ::
            .start (text "value") :: es) =
        (parseValue parseF64 f none none es).bind fun r =>
          parseEvents parseF64 f name ([] ++ [r.1]) false r.2 := by
    simp only [parseEvents]
    rfl
  rw [← renderItems_call showF64 name hv, parseCall, hreader _ (document_call hname hne v),
    Option.bind_some, hlength, hevents, hhead, parseValue_body parseF64 v _ _ hv (by omega),
    Option.bind_some]
  simp only [parseEvents]
  exact if_neg hne

/-! ### What comes back -/

mutual

/-- No null, no integer above the signed range, no string or key that loses anything. -/
def Value.Kept : Value φ → Prop
  | .null => False
  | .bool _ => True
  | .integer n => n.val < 2 ^ 63
  | .double _ => False
  | .string s => StringKept s
  | .array items => ItemsKept items
  | .object members => MembersKept members

def ItemsKept : List (Value φ) → Prop
  | [] => True
  | v :: vs => v.Kept ∧ ItemsKept vs

def MembersKept : List (Text × Value φ) → Prop
  | [] => True
  | (k, v) :: ms => (KeyKept k ∧ v.Kept) ∧ MembersKept ms

end

section Kept

variable (parseF64 : Text → Option φ)

theorem membersBack_eq_map (ms : List (Text × Value φ)) :
    membersBack parseF64 ms = ms.map fun m => (readKey m.1, readBack parseF64 m.2) := by
  induction ms with
  | nil => rfl
  | cons m ms ih => rw [membersBack, ih, map_cons]

mutual

/-- **A value comes back** exactly if every part of it does. -/
theorem readBack_eq_self : ∀ v : Value φ, v.Plain → (readBack parseF64 v = v ↔ v.Kept)
  | .null, _ => iff_of_false (by simp [readBack]) id
  | .bool _, _ => iff_of_true rfl trivial
  | .integer n, _ => by
    rw [readBack, Value.Kept]
    by_cases h : n.val < 2 ^ 63
    · exact iff_of_true (if_pos h) h
    · rw [if_neg h]
      refine iff_of_false ?_ h
      cases parseF64 (Numeral.showInt n.val) <;> simp
  | .double _, h => h.elim
  | .string s, _ => by
    rw [readBack, Value.Kept, Value.string.injEq]
    exact readString_eq_self
  | .array items, h => by
    rw [readBack, Value.Kept, Value.array.injEq]
    exact itemsBack_eq_self items h
  | .object members, h => by
    rw [readBack, Value.Kept, Value.object.injEq, membersBack_eq_map, collect_eq_iff _ h.1]
    exact membersBack_eq_self members h.2

theorem itemsBack_eq_self : ∀ vs : List (Value φ), ItemsPlain vs →
    (itemsBack parseF64 vs = vs ↔ ItemsKept vs)
  | [], _ => iff_of_true rfl trivial
  | v :: vs, h => by
    rw [itemsBack, ItemsKept, List.cons.injEq, readBack_eq_self v h.1, itemsBack_eq_self vs h.2]

theorem membersBack_eq_self : ∀ ms : List (Text × Value φ), MembersPlain ms →
    ((∀ m ∈ ms, KeyKept m.1 ∧ readBack parseF64 m.2 = m.2) ↔ MembersKept ms)
  | [], _ => iff_of_true (by simp) trivial
  | (k, v) :: ms, h => by
    rw [List.forall_mem_cons, MembersKept, membersBack_eq_self ms h.2, readBack_eq_self v h.1]

end

end Kept

/-- **The round trip**: the parameter of a call comes back exactly if nothing in it is null, an
integer above the signed range, or text that is not read as it is. -/
theorem roundTrip_iff (showF64 : φ → Text) (parseF64 : Text → Option φ)
    {reader : Text → Option (List Event)} (hreader : Xml.Trims reader) {name : Text}
    (hname : KeyKept name) (hne : name ≠ []) {v : Value φ} (hv : v.Plain) :
    parseCall parseF64 reader (callOf showF64 name v) = some ⟨name, [v]⟩ ↔ v.Kept := by
  rw [parseCall_callOf showF64 parseF64 hreader hname hne hv, Option.some.injEq,
    MethodCall.mk.injEq, List.cons.injEq]
  simp only [true_and, and_true]
  exact readBack_eq_self parseF64 v hv

/-- The bounds of the signed range, and a struct with a list and with references in a string. -/
def sample : Value Unit :=
  .array [.integer ⟨2 ^ 63 - 1, by decide, by decide⟩, .integer ⟨-(2 ^ 63), by decide, by decide⟩,
    .object [(text "List", .array [.bool true, .string []]), (text "Name", .string (text "a<b&c"))]]

theorem roundTrip_sample :
    parseCall (fun _ => none) Xml.trimmingReader (callOf (fun _ => []) (text "t") sample) =
      some ⟨text "t", [sample]⟩ := by
  have hplain : sample.Plain :=
    ⟨trivial, trivial, ⟨by decide, ⟨trivial, trivial, trivial⟩, trivial, trivial⟩, trivial⟩
  have hstrings : StringKept [] ∧ StringKept (text "a<b&c") := by decide
  have hkeys : KeyKept (text "List") ∧ KeyKept (text "Name") := by decide
  have hsigned : (2 ^ 63 - 1 : Int) < 2 ^ 63 ∧ (-(2 ^ 63) : Int) < 2 ^ 63 := by decide
  have hmembers : MembersKept [(text "List", .array [.bool true, .string []]),
      (text "Name", (.string (text "a<b&c") : Value Unit))] :=
    ⟨⟨hkeys.1, trivial, hstrings.1, trivial⟩, ⟨hkeys.2, hstrings.2⟩, trivial⟩
  exact (roundTrip_iff (fun _ => []) (fun _ => none) Xml.trimmingReader_trims (by decide)
    (by decide) hplain).mpr ⟨hsigned.1, hsigned.2, hmembers, trivial⟩

/-- White space next to a reference, a key with a reference in it, and null. -/
def lossy : Value Unit := .array [.string (text "a & b"), .object [(text "a&b", .null)]]

theorem roundTrip_lossy :
    parseCall (fun _ => none) Xml.trimmingReader (callOf (fun _ => []) (text "t") lossy) ≠
      some ⟨text "t", [lossy]⟩ := by
  have hplain : lossy.Plain := ⟨trivial, ⟨by decide, trivial, trivial⟩, trivial⟩
  have hname : KeyKept (text "t") := by decide
  have hread := parseCall_callOf (fun _ => []) (fun _ => none) Xml.trimmingReader_trims hname
    (by decide) hplain
  have hback : readBack (fun _ => none) lossy =
      .array [.string (text "a&b"), .object [(text "a", .string [])]] := rfl
  rw [hread, hback]
  simp [lossy]

end Nzbd.Compat.XmlRpc
