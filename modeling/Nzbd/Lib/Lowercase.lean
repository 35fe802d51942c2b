import Mathlib.Data.List.Basic

/-!
# Text in lower case

Unicode's lower case is one character at a time but for the capital sigma, which has another form at
the end of a word.  What Unicode says of single characters is a `CaseTable`; only its part in ASCII
is fixed here.

So text that goes on with a word may have another lower case than the text alone (`insideWord`), and
that is the only thing that what follows can change (`toLowercase_append`).
-/

/-- What Unicode says of single characters. -/
structure CaseTable where
  lower : Char → List Char
  cased : Char → Bool
  caseIgnorable : Char → Bool
  lower_ascii : ∀ c, c.toNat < 0x80 → lower c = [c.toLower]
  cased_ascii : ∀ c, c.toNat < 0x80 → cased c = c.isAlpha
  ignorable_ascii : ∀ c, c.toNat < 0x80 →
    caseIgnorable c = decide (c.toNat ∈ [0x27, 0x2e, 0x3a, 0x5e, 0x60])

namespace CaseTable

def ascii : CaseTable where
  lower c := [c.toLower]
  cased c := c.isAlpha
  caseIgnorable c := decide (c.toNat ∈ [0x27, 0x2e, 0x3a, 0x5e, 0x60])
  lower_ascii _ _ := rfl
  cased_ascii _ _ := rfl
  ignorable_ascii _ _ := rfl

variable (T : CaseTable)

def caseIgnorableThenCased (s : List Char) : Bool :=
  (s.dropWhile T.caseIgnorable).head?.any T.cased

/-- `before` : what stands before the sigma, last first. -/
def mapUppercaseSigma (before after : List Char) : Char :=
  if T.caseIgnorableThenCased before && !T.caseIgnorableThenCased after then 'ς' else 'σ'

/-- Text that stands behind `before` and in front of `after`. -/
def lowerFrom (after : List Char) : List Char → List Char → List Char
  | _, [] => []
  | before, c :: s =>
    (if c = 'Σ' then [T.mapUppercaseSigma before (s ++ after)] else T.lower c) ++
      lowerFrom after (c :: before) s

def toLowercase (s : List Char) : List Char := T.lowerFrom [] [] s

/-- The lower case of text with a letter behind it. -/
def insideWord (s : List Char) : List Char := T.lowerFrom ['a'] [] s

variable {T} {a b s t : List Char}

theorem ignorableThenCased_append (s : List Char) (ht : T.caseIgnorableThenCased t = true) :
    T.caseIgnorableThenCased (s ++ t) =
      (s.all T.caseIgnorable || T.caseIgnorableThenCased s) := by
  induction s with
  | nil => simpa using ht
  | cons c s ih =>
    cases hc : T.caseIgnorable c with
    | true =>
      have hskip (u : List Char) :
          T.caseIgnorableThenCased (c :: u) = T.caseIgnorableThenCased u := by
        rw [caseIgnorableThenCased, List.dropWhile_cons_of_pos hc]
        rfl
      rw [List.cons_append, hskip, hskip, ih]
      simp [hc]
    | false =>
      have hstop (u : List Char) : T.caseIgnorableThenCased (c :: u) = T.cased c := by
        rw [caseIgnorableThenCased, List.dropWhile_cons_of_neg (by simp [hc])]
        rfl
      rw [List.cons_append, hstop, hstop]
      simp [hc]

theorem lowerFrom_append (after before s t : List Char) :
    T.lowerFrom after before (s ++ t) =
      T.lowerFrom (t ++ after) before s ++ T.lowerFrom after (s.reverse ++ before) t := by
  induction s generalizing before with
  | nil => rfl
  | cons c s ih =>
    rw [List.cons_append, lowerFrom, lowerFrom, ih, List.append_assoc, List.append_assoc,
      List.reverse_cons, List.append_assoc]
    rfl

theorem lowerFrom_plain {after before : List Char}
    (h : ∀ c ∈ s, T.lower c = [c] ∧ c ≠ 'Σ') : T.lowerFrom after before s = s := by
  induction s generalizing before with
  | nil => rfl
  | cons c s ih =>
    obtain ⟨hc, hsigma⟩ := h c List.mem_cons_self
    rw [lowerFrom, if_neg hsigma, hc, ih fun d hd => h d (List.mem_cons_of_mem _ hd)]
    rfl

theorem lowerFrom_congr {before : List Char} (ha : T.caseIgnorableThenCased a = true)
    (hb : T.caseIgnorableThenCased b = true) : T.lowerFrom a before s = T.lowerFrom b before s := by
  induction s generalizing before with
  | nil => rfl
  | cons c s ih =>
    rw [lowerFrom, lowerFrom, ih, mapUppercaseSigma, mapUppercaseSigma,
      ignorableThenCased_append s ha, ignorableThenCased_append s hb]

/-- **Text in front of a word** in lower case is as it is inside of a word, and the word is kept. -/
theorem toLowercase_append (hword : T.caseIgnorableThenCased t = true)
    (hplain : ∀ c ∈ t, T.lower c = [c] ∧ c ≠ 'Σ') :
    T.toLowercase (s ++ t) = T.insideWord s ++ t := by
  have hletter : T.caseIgnorableThenCased ['a'] = true := by
    have hstop : T.caseIgnorable 'a' = false := T.ignorable_ascii 'a' (by decide)
    have hcased : T.cased 'a' = true := T.cased_ascii 'a' (by decide)
    rw [caseIgnorableThenCased, List.dropWhile_cons_of_neg (by simp [hstop])]
    simpa using hcased
  rw [toLowercase, lowerFrom_append, List.append_nil, lowerFrom_plain hplain, insideWord,
    lowerFrom_congr hword hletter]

end CaseTable
