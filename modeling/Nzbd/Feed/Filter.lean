import Nzbd.Feed.Poll
import Nzbd.Lib.Wildcard

/-!
# The filter of a feed

A filter is a list of rules, and a rule a list of terms that all have to match.  Every `Require`
has to match, and then the first `Accept` or `Reject` that does has the say.

`wildMatch` is a loop with two places, one in the pattern and one in the text, that goes back to the
last `*` it has passed.  It compares characters before it looks for a `*`, and so a `*` of the
pattern that meets one of the text is taken for a character like any other.  `filter_meaning`
says what that comes to: it is right unless the text is in the language of the pattern only with
a `*` that stands for another thing there.
-/

namespace Nzbd.Feed.Filter

open Wildcard

/-! ### Wildcards -/

/-- The rest of the pattern and of the text, and the same behind the last `*`.  `none` if the
loop has not ended. -/
def wildLoop : Nat → Text → Text → Option (Text × Text) → Option Bool
  | 0, _, _, _ => none
  | _ + 1, p, [], _ => some (p.all (· = '*'))
  | n + 1, p, c :: t, star =>
    if p.head?.any fun x => x = '?' || x = c then wildLoop n p.tail t star
    else if p.head? = some '*' then wildLoop n p.tail (c :: t) (some (p.tail, c :: t))
    else
      match star with
      | some (q, mark) => wildLoop n q mark.tail (some (q, mark.tail))
      | none => some false

/-- As many turns as the loop can take. -/
def turns (p t : Text) : Nat := t.length * (p.length + 1) + p.length + 1

/-- `lower` is the text in lower case. -/
def wildMatch (lower : Text → Text) (pattern s : Text) : Bool :=
  (wildLoop (turns (lower pattern) (lower s)) (lower pattern) (lower s) none).getD false

/-! ### Rules -/

structure FeedItem where
  title : Text
  url : Text
  guid : Text
  category : Text
  size : Nat
  ageDays : Nat
  deriving DecidableEq

inductive Verb
  | accept (options : MatchOptions)
  | reject
  | require
  deriving DecidableEq

inductive Field
  | title
  | category
  | url

inductive Term
  | text (field : Field) (pattern : Text) (negate : Bool)
  | size (min max : Nat) (negate : Bool)
  | age (min max : Nat) (negate : Bool)

structure Rule where
  verb : Verb
  terms : List Term

def Field.of (item : FeedItem) : Field → Text
  | .title => item.title
  | .category => item.category
  | .url => item.url

def MatchOptions.default : MatchOptions := ⟨none, none, none, none, none⟩

section Rules

variable (lower : Text → Text) (item : FeedItem)

def termMatches : Term → Bool
  | .text field pattern negate => xor (wildMatch lower pattern (field.of item)) negate
  | .size min max negate => xor (min ≤ item.size && item.size ≤ max) negate
  | .age min max negate => xor (min ≤ item.ageDays && item.ageDays ≤ max) negate

def termsMatch (terms : List Term) : Bool := terms.all (termMatches lower item)

/-- What the first `Accept` or `Reject` that matches says. -/
def firstVerdict : List Rule → Option (Option MatchOptions)
  | [] => none
  | r :: rules =>
    match r.verb with
    | .accept options =>
      if termsMatch lower item r.terms then some (some options) else firstVerdict rules
    | .reject => if termsMatch lower item r.terms then some none else firstVerdict rules
    | .require => firstVerdict rules

def isAccept : Verb → Bool
  | .accept _ => true
  | _ => false

def evaluate (rules : List Rule) : Option MatchOptions :=
  if rules.any fun r => r.verb = .require && !termsMatch lower item r.terms then none
  else
    match firstVerdict lower item rules with
    | some verdict => verdict
    | none => if rules.any (isAccept ·.verb) then none else some MatchOptions.default

/-- The first rule that matches, a `Require` apart, is an `Accept`. -/
def FirstAccepts (rules : List Rule) : Prop :=
  ∃ pre r post, rules = pre ++ r :: post ∧ isAccept r.verb = true ∧
    termsMatch lower item r.terms = true ∧
    ∀ q ∈ pre, q.verb ≠ .require → termsMatch lower item q.terms = false

/-- **What a filter means.** -/
def Accepts (rules : List Rule) : Prop :=
  (∀ r ∈ rules, r.verb = .require → termsMatch lower item r.terms = true) ∧
    (FirstAccepts lower item rules ∨
      (∀ r ∈ rules, isAccept r.verb = false) ∧
        ∀ r ∈ rules, r.verb = .reject → termsMatch lower item r.terms = false)

end Rules

/-! ### The loop -/

section Loop

variable {p q t mark v : Text} {c x : Char} {star : Option (Text × Text)} {n N : Nat}

/-- The pattern behind the last `*` lies on the text up to here. -/
def Laid (p t : Text) (star : Option (Text × Text)) : Prop :=
  ∀ q mark, star = some (q, mark) → ∃ w m, q = w ++ p ∧ mark = m ++ t ∧ Overlay w m

/-- The last `*` may stand for more. -/
def Later (star : Option (Text × Text)) : Prop :=
  ∃ q mark v, star = some (q, mark) ∧ v <:+ mark.tail ∧ ReadsApart q v

/-- How much of the text is left behind the last `*`. -/
def behind (t : Text) (star : Option (Text × Text)) : Nat := (star.map (·.2.length)).getD t.length

theorem suffix_iff_tail : v <:+ t ↔ v = t ∨ v <:+ t.tail := by
  cases t with
  | nil => simp
  | cons c t => exact List.suffix_cons_iff

theorem exists_suffix_cons {P : Text → Prop} : (∃ v, v <:+ t ∧ P v) ↔
    P t ∨ ∃ v, v <:+ t.tail ∧ P v := by
  constructor
  · rintro ⟨v, hv, h⟩
    rcases suffix_iff_tail.mp hv with rfl | hv
    · exact .inl h
    · exact .inr ⟨v, hv, h⟩
  · rintro (h | ⟨v, hv, h⟩)
    · exact ⟨t, List.suffix_refl t, h⟩
    · exact ⟨v, suffix_iff_tail.mpr (.inr hv), h⟩

theorem later_some : Later (some (q, mark)) ↔ ∃ v, v <:+ mark.tail ∧ ReadsApart q v := by
  constructor
  · rintro ⟨_, _, v, heq, hv, h⟩
    obtain ⟨rfl, rfl⟩ := Prod.mk.inj (Option.some.inj heq)
    exact ⟨v, hv, h⟩
  · rintro ⟨v, hv, h⟩
    exact ⟨q, mark, v, rfl, hv, h⟩

theorem Later.suffix (hlaid : Laid p t star) (h : Later star) : ∃ s, s <:+ t ∧ ReadsApart p s := by
  obtain ⟨q, mark, v, rfl, hv, hreads⟩ := h
  obtain ⟨w, m, rfl, rfl, hoverlay⟩ := hlaid q mark rfl
  exact suffix_of_overlay hoverlay (suffix_iff_tail.mpr (.inr hv)) hreads

theorem Laid.length_le (h : Laid p t star) : t.length ≤ behind t star := by
  cases star with
  | none => exact le_rfl
  | some s =>
    obtain ⟨w, m, -, hmark, -⟩ := h s.1 s.2 rfl
    simp [behind, hmark]

theorem behind_le : behind t star ≤ behind (c :: t) star := by
  cases star <;> simp [behind]

theorem Laid.next (h : Laid (x :: p) (c :: t) star) (hx : x = '?' ∨ x = c) : Laid p t star := by
  intro q mark heq
  obtain ⟨w, m, rfl, rfl, hoverlay⟩ := h q mark heq
  exact ⟨w ++ [x], m ++ [c], by simp, by simp, List.rel_append hoverlay (.cons hx .nil)⟩

theorem laid_self : Laid p t (some (p, t)) := by
  intro q mark heq
  obtain ⟨rfl, rfl⟩ := Prod.mk.inj (Option.some.inj heq)
  exact ⟨[], [], rfl, rfl, .nil⟩

theorem wildLoop_cons (hx : x = '?' ∨ x = c) :
    wildLoop (n + 1) (x :: p) (c :: t) star = wildLoop n p t star := by
  simp [wildLoop, hx]

theorem wildLoop_star (hc : c ≠ '*') :
    wildLoop (n + 1) ('*' :: p) (c :: t) star = wildLoop n p (c :: t) (some (p, c :: t)) := by
  simp [wildLoop, Ne.symm hc]

/-- Neither the character nor a `*`. -/
def Stuck (p : Text) (c : Char) : Prop := ∀ x, p.head? = some x → x ≠ '?' ∧ x ≠ c ∧ x ≠ '*'

theorem wildLoop_stuck (h : Stuck p c) : wildLoop (n + 1) p (c :: t) star =
    match star with
    | some (q, mark) => wildLoop n q mark.tail (some (q, mark.tail))
    | none => some false := by
  cases p with
  | nil => simp [wildLoop]
  | cons x p =>
    obtain ⟨hone, hc, hstar⟩ := h x rfl
    simp [wildLoop, hone, hc, hstar]

theorem Stuck.not_reads (h : Stuck p c) : ¬ReadsApart p (c :: t) := by
  cases p with
  | nil => exact not_reads_nil
  | cons x p =>
    obtain ⟨hone, hc, hstar⟩ := h x rfl
    exact not_reads_char hone hc hstar

theorem wildLoop_spec (hlaid : Laid p t star) (hp : p.length ≤ N)
    (hq : ∀ q mark, star = some (q, mark) → q.length ≤ N)
    (hn : behind t star * (N + 1) + p.length < n) :
    ∃ b, wildLoop n p t star = some b ∧ (b = true ↔ ReadsApart p t ∨ Later star) := by
  induction n generalizing p t star with
  | zero => exact absurd hn (Nat.not_lt_zero _)
  | succ n ih =>
    cases t with
    | nil =>
      refine ⟨_, by rw [wildLoop], ?_⟩
      rw [← readsApart_nil]
      refine ⟨.inl, fun h => h.elim id fun h => ?_⟩
      obtain ⟨s, hs, hreads⟩ := h.suffix hlaid
      rwa [List.suffix_nil.mp hs] at hreads
    | cons c t =>
      by_cases hstuck : Stuck p c
      · -- back to the last `*`, if there is one
        rw [wildLoop_stuck hstuck, or_iff_right hstuck.not_reads]
        cases star with
        | none => exact ⟨false, rfl, by simp [Later]⟩
        | some s =>
          obtain ⟨q, mark⟩ := s
          have hlong : 0 < mark.length := Nat.lt_of_lt_of_le (Nat.succ_pos _) hlaid.length_le
          have hshort : mark.tail.length + 1 = mark.length := by
            rw [List.length_tail]
            omega
          have hqN := hq q mark rfl
          obtain ⟨b, hb, hspec⟩ := @ih q mark.tail (some (q, mark.tail)) laid_self
            hqN (fun q' mark' heq => by
              obtain ⟨rfl, -⟩ := Prod.mk.inj (Option.some.inj heq)
              exact hqN) (by
              simp only [behind, Option.map_some, Option.getD_some, ← hshort, Nat.succ_mul] at hn ⊢
              omega)
          refine ⟨b, hb, hspec.trans ?_⟩
          rw [later_some, later_some]
          exact exists_suffix_cons.symm
      · obtain ⟨x, hx, hmatch⟩ := not_forall.mp hstuck |>.imp fun _ h => Classical.not_imp.mp h
        obtain ⟨p, rfl⟩ := List.head?_eq_some_iff.mp hx
        rw [List.length_cons] at hp hn
        by_cases hxc : x = '?' ∨ x = c
        · rw [wildLoop_cons hxc, readsApart_cons hxc]
          refine ih (hlaid.next hxc) (Nat.le_of_succ_le hp) hq ?_
          have hless : behind t star ≤ behind (c :: t) star := behind_le
          have := Nat.mul_le_mul_right (N + 1) hless
          omega
        · -- the `*` is remembered; it may do what one before it could
          obtain ⟨hone, hne⟩ := not_or.mp hxc
          obtain rfl : x = '*' := by
            by_contra hstar
            exact hmatch ⟨hone, hne, hstar⟩
          have hc : c ≠ '*' := Ne.symm hne
          have hless : behind (c :: t) (some (p, c :: t)) ≤ behind (c :: t) star := hlaid.length_le
          have := Nat.mul_le_mul_right (N + 1) hless
          obtain ⟨b, hb, hspec⟩ := @ih p (c :: t) (some (p, c :: t)) laid_self
            (Nat.le_of_succ_le hp) (fun q mark heq => by
              obtain ⟨rfl, -⟩ := Prod.mk.inj (Option.some.inj heq)
              exact Nat.le_of_succ_le hp) (by omega)
          refine ⟨b, (wildLoop_star hc).trans hb, hspec.trans ?_⟩
          have hmany : ReadsApart ('*' :: p) (c :: t) ↔ ∃ v, v <:+ c :: t ∧ ReadsApart p v :=
            readsApart_many (by simpa using hc)
          rw [later_some, ← exists_suffix_cons, hmany]
          refine ⟨.inl, fun h => h.elim id fun h => ?_⟩
          obtain ⟨s, hs, hreads⟩ := h.suffix hlaid
          obtain ⟨u, v, rfl, -, hreads⟩ := reads_many.mp hreads
          exact ⟨v, (List.suffix_append u v).trans hs, hreads⟩

/-- **The matcher reads the pattern,** with a `*` that meets a `*` for that alone. -/
theorem wildMatch_spec (lower : Text → Text) (pattern s : Text) :
    (wildLoop (turns (lower pattern) (lower s)) (lower pattern) (lower s) none).isSome = true ∧
      (wildMatch lower pattern s = true ↔ ReadsApart (lower pattern) (lower s)) := by
  obtain ⟨b, hb, hspec⟩ := @wildLoop_spec (lower pattern) (lower s) none
    (turns (lower pattern) (lower s)) (lower pattern).length (fun _ _ heq => by cases heq) le_rfl
    (fun _ _ heq => by cases heq) (Nat.lt_succ_self _)
  rw [wildMatch, hb]
  refine ⟨rfl, hspec.trans (or_iff_left ?_)⟩
  rintro ⟨_, _, _, heq, -⟩
  cases heq

end Loop

/-! ### The rules -/

section Meaning

variable {lower : Text → Text} {item : FeedItem} {rules : List Rule} {r : Rule}

def decides (lower : Text → Text) (item : FeedItem) (r : Rule) : Bool :=
  r.verb ≠ .require && termsMatch lower item r.terms

def Verb.verdict : Verb → Option MatchOptions
  | .accept options => some options
  | _ => none

theorem firstVerdict_eq :
    firstVerdict lower item rules = (rules.find? (decides lower item)).map (·.verb.verdict) := by
  induction rules with
  | nil => rfl
  | cons r rules ih =>
    rw [firstVerdict, List.find?_cons, ih, decides]
    cases hverb : r.verb with
    | require => simp
    | accept options => cases termsMatch lower item r.terms <;> simp [hverb, Verb.verdict]
    | reject => cases termsMatch lower item r.terms <;> simp [hverb, Verb.verdict]

theorem isSome_verdict (v : Verb) : v.verdict.isSome = isAccept v := by
  cases v <;> rfl

theorem firstAccepts_iff : FirstAccepts lower item rules ↔
    ∃ r, rules.find? (decides lower item) = some r ∧ isAccept r.verb = true := by
  constructor
  · rintro ⟨pre, r, post, rfl, haccept, hmatch, hpre⟩
    refine ⟨r, List.find?_eq_some_iff_append.mpr ⟨?_, pre, post, rfl, fun q hq => ?_⟩, haccept⟩
    · have hverb : r.verb ≠ .require := fun h => by simp [h, isAccept] at haccept
      simp [decides, hverb, hmatch]
    · have := hpre q hq
      by_cases hverb : q.verb = .require <;> simp_all [decides]
  · rintro ⟨r, hfind, haccept⟩
    obtain ⟨hdecides, pre, post, heq, hpre⟩ := List.find?_eq_some_iff_append.mp hfind
    refine ⟨pre, r, post, heq, haccept, ?_, fun q hq hverb => ?_⟩
    · exact (Bool.and_eq_true _ _ ▸ hdecides).2
    · have := hpre q hq
      simpa [decides, hverb] using this

/-- **An item is accepted as the rules say.** -/
theorem evaluate_isSome : (evaluate lower item rules).isSome = true ↔ Accepts lower item rules := by
  rw [evaluate, Accepts]
  split
  · next h =>
    obtain ⟨r, hr, hrequire⟩ := List.any_eq_true.mp h
    rw [Bool.and_eq_true, decide_eq_true_eq, Bool.not_eq_true'] at hrequire
    refine iff_of_false (by simp) fun hall => ?_
    have := hall.1 r hr hrequire.1
    rw [hrequire.2] at this
    cases this
  · next h =>
    have hall : ∀ r ∈ rules, r.verb = .require → termsMatch lower item r.terms = true := by
      simpa using h
    rw [firstVerdict_eq, and_iff_right hall, firstAccepts_iff]
    cases hfind : rules.find? (decides lower item) with
    | none =>
      have hnone : ∀ r ∈ rules, r.verb ≠ .require → termsMatch lower item r.terms = false := by
        simpa [decides] using hfind
      have hreject : ∀ r ∈ rules, r.verb = .reject → termsMatch lower item r.terms = false :=
        fun r hr hverb => hnone r hr (by simp [hverb])
      by_cases haccept : rules.any (isAccept ·.verb) = true
      · obtain ⟨r, hr, htrue⟩ := List.any_eq_true.mp haccept
        simp only [Option.map_none, haccept, if_true, Option.isSome_none, reduceCtorEq, false_and,
          exists_false, false_or, false_iff, not_and]
        intro hno
        rw [hno r hr] at htrue
        cases htrue
      · rw [Option.map_none, if_neg haccept]
        exact iff_of_true rfl (.inr ⟨by simpa using haccept, hreject⟩)
    | some r =>
      obtain ⟨hdecides, hmem⟩ := And.intro (List.find?_some hfind) (List.mem_of_find?_eq_some hfind)
      rw [decides, Bool.and_eq_true, decide_eq_true_eq] at hdecides
      have hsome : (r.verb.verdict).isSome = true ↔
          (∃ q, some r = some q ∧ isAccept q.verb = true) := by
        rw [isSome_verdict]
        exact ⟨fun h => ⟨r, rfl, h⟩, fun ⟨q, heq, h⟩ => Option.some.inj heq ▸ h⟩
      refine hsome.trans (or_iff_left ?_).symm
      rintro ⟨hno, hreject⟩
      have hverb := hno r hmem
      cases hcase : r.verb with
      | accept options => simp [hcase, isAccept] at hverb
      | require => exact hdecides.1 hcase
      | reject =>
        have := hreject r hmem hcase
        rw [hdecides.2] at this
        cases this

end Meaning

/-- **What a filter means.**  The matcher ends.  It is right about a text exactly if the text is
not in the language of the pattern only by a `*` that meets a `*` and stands for another thing;
and the rules have the say that they should have. -/
theorem filter_meaning (lower : Text → Text) (pattern s : Text) (rules : List Rule)
    (item : FeedItem) :
    (wildLoop (turns (lower pattern) (lower s)) (lower pattern) (lower s) none).isSome = true ∧
    ((wildMatch lower pattern s = true ↔ Matches (lower pattern) (lower s)) ↔
      (Matches (lower pattern) (lower s) → ReadsApart (lower pattern) (lower s))) ∧
    ((evaluate lower item rules).isSome = true ↔ Accepts lower item rules) := by
  obtain ⟨hends, hspec⟩ := wildMatch_spec lower pattern s
  refine ⟨hends, ?_, evaluate_isSome⟩
  rw [hspec]
  exact ⟨fun h => h.mpr, fun h => ⟨ReadsApart.matches, h⟩⟩

/-- A `*` takes a `*` of the text for a character, and does not stand for what comes behind it. -/
theorem star_meets_star :
    wildMatch id (text "*") (text "*a") = false ∧ Matches (text "*") (text "*a") :=
  ⟨by decide, .many (text "*a") trivial .nil⟩

end Nzbd.Feed.Filter
