import Nzbd.Engine.Naming

/-!
# Safe names

`sanitizeName` takes blanks, dots and blanks again off both ends of a name, each of them once, and
then cuts it.  A second run of dots behind a blank is still there, and so is a dot that the cut
leaves at the end: `. .. .` becomes `..`.

A name is one safe component of a path exactly if it `SettlesAtOnce`: what stands outside of its
`core`, the part between the outermost characters that are neither dots nor blanks, is gone after
that, and the cut does not fall behind a dot or a blank (`safe_iff_settles`).
-/

namespace Nzbd

open List Utf8

def dot (c : Char) : Bool := c = '.'

/-- What no name starts or ends with. -/
def outer (c : Char) : Bool := dot c || isWhitespace c

def cleaned (name : Text) : Text := name.map sanitizeChar

/-- A name without path separators, reserved and control characters. -/
def Plain (s : Text) : Prop := ∀ c ∈ s, c ∉ text "/\\:*?\"<>|\x00" ∧ isControl c = false

/-- One safe component of a path, which is not changed by sanitizing it again. -/
structure Safe (s : Text) : Prop where
  nonempty : s ≠ []
  plain : Plain s
  component : s ≠ text "." ∧ s ≠ text ".."
  ends : (∀ c ∈ s.head?, outer c = false) ∧ ∀ c ∈ s.getLast?, outer c = false
  settled : sanitizeName s = s

/-- The part between the outermost characters that are neither dots nor blanks. -/
def core (name : Text) : Text := trimMatches outer (cleaned name)

/-- The dots and blanks before it. -/
def lead (name : Text) : Text := (cleaned name).takeWhile outer

/-- The dots and blanks behind it. -/
def trail (name : Text) : Text := (cleaned name).rtakeWhile outer

/-- The dots are next to each other. -/
def OneRun (s : Text) : Prop := (trim s).all dot = true

/-- There is a run of dots at either end, and only blanks are in between. -/
def TwoRuns (s : Text) : Prop := (trimMatches dot (trim s)).all isWhitespace = true

/-- The blanks and dots around the name are gone after they have been taken off once. -/
def SettlesAtOnce (name : Text) : Prop :=
  if core name = [] then TwoRuns (cleaned name)
  else OneRun (lead name) ∧
    if 200 ≤ (core name).length then ∀ c ∈ ((core name).take 200).getLast?, outer c = false
    else OneRun (trail name)

instance (s : Text) : Decidable (Plain s) := List.decidableBAll _ s

variable {p : Char → Bool} {a b s : Text} {c : Char}

/-! ### Characters -/

theorem sanitizeChar_plain (c : Char) : sanitizeChar c ∉ text "/\\:*?\"<>|\x00" ∧
    isControl (sanitizeChar c) = false := by
  unfold sanitizeChar
  split_ifs with h
  · decide
  · simp only [Bool.or_eq_true, decide_eq_true_eq, not_or, Bool.not_eq_true] at h
    exact h

theorem sanitizeChar_eq_self (h : c ∉ text "/\\:*?\"<>|\x00" ∧ isControl c = false) :
    sanitizeChar c = c := by
  unfold sanitizeChar
  rw [if_neg]
  simp [h.1, h.2]

theorem plain_cleaned (name : Text) : Plain (cleaned name) := by
  intro c hc
  obtain ⟨d, -, rfl⟩ := mem_map.mp hc
  exact sanitizeChar_plain d

theorem Plain.cleaned_eq (h : Plain s) : cleaned s = s := by
  refine (map_congr_left fun c hc => ?_).trans (map_id s)
  exact sanitizeChar_eq_self (h c hc)

theorem Plain.sublist (h : Plain s) (hsub : a.Sublist s) : Plain a := fun c hc => h c (hsub.subset hc)

/-! ### Taking off -/

theorem dropWhile_append_of_head (h : ∀ c ∈ s.head?, p c = false) (a : Text) :
    (a ++ s).dropWhile p = a.dropWhile p ++ s := by
  induction a with
  | nil =>
    cases s with
    | nil => rfl
    | cons c s => rw [nil_append, dropWhile_cons_of_neg (by simp [h c rfl])]; rfl
  | cons x a ih =>
    rw [cons_append, dropWhile_cons, dropWhile_cons, ih]
    split_ifs
    · rfl
    · rfl

theorem rdropWhile_append_of_last (h : ∀ c ∈ s.getLast?, p c = false) (b : Text) :
    (s ++ b).rdropWhile p = s ++ b.rdropWhile p := by
  have hhead : ∀ c ∈ s.reverse.head?, p c = false := by
    rw [head?_reverse]
    exact h
  rw [rdropWhile, reverse_append, dropWhile_append_of_head hhead, reverse_append,
    reverse_reverse]
  rfl

theorem trimMatches_around (hne : s ≠ []) (hh : ∀ c ∈ s.head?, p c = false)
    (hl : ∀ c ∈ s.getLast?, p c = false) (a b : Text) :
    trimMatches p (a ++ s ++ b) = a.dropWhile p ++ s ++ b.rdropWhile p := by
  have hhead : ∀ c ∈ (s ++ b).head?, p c = false := by
    intro c hc
    rw [head?_append_of_ne_nil _ hne] at hc
    exact hh c hc
  have hlast : ∀ c ∈ (a.dropWhile p ++ s).getLast?, p c = false := by
    intro c hc
    rw [getLast?_append_of_ne_nil _ hne] at hc
    exact hl c hc
  rw [trimMatches_eq, append_assoc, dropWhile_append_of_head hhead, ← append_assoc,
    rdropWhile_append_of_last hlast]

theorem trimMatches_eq_nil_iff : trimMatches p s = [] ↔ s.all p = true := by
  rw [trimMatches_eq, rdropWhile_eq_nil_iff, all_eq_true]
  constructor
  · intro h
    have hnil : s.dropWhile p = [] := by
      cases hd : s.dropWhile p with
      | nil => rfl
      | cons c r =>
        have hfalse := head?_dropWhile (p := p) (s := s) (c := c) (by rw [hd]; rfl)
        rw [h c (by rw [hd]; exact mem_cons_self)] at hfalse
        cases hfalse
    exact dropWhile_eq_nil_iff.mp hnil
  · intro h c hc
    exact h c ((dropWhile_sublist p).subset hc)

theorem taken_eq_nil_iff (h : s.all outer = true) :
    ((s.dropWhile isWhitespace).dropWhile dot).dropWhile isWhitespace = [] ↔ OneRun s := by
  rw [all_eq_true] at h
  unfold OneRun trim
  rw [trimMatches_eq, dropWhile_eq_nil_iff, all_eq_true]
  have hinner : ∀ c ∈ s.dropWhile isWhitespace, outer c = true := fun c hc =>
    h c ((dropWhile_sublist _).subset hc)
  generalize s.dropWhile isWhitespace = l at hinner
  constructor
  · intro hblank c hc
    -- the dots, and then nothing but blanks
    have hsplit : l = l.takeWhile dot ++ l.dropWhile dot := takeWhile_append_dropWhile.symm
    have hdots : ∀ c ∈ (l.takeWhile dot).getLast?, isWhitespace c = false := by
      intro c hc
      have hdot : dot c = true := mem_takeWhile_imp (mem_of_mem_getLast? hc)
      have heq : c = '.' := by simpa [dot] using hdot
      rw [heq]
      decide
    have hgone : (l.dropWhile dot).rdropWhile isWhitespace = [] :=
      rdropWhile_eq_nil_iff.mpr hblank
    rw [hsplit, rdropWhile_append_of_last hdots, hgone, append_nil] at hc
    exact mem_takeWhile_imp hc
  · intro hdots c hc
    have hsplit : l.rdropWhile isWhitespace ++ l.rtakeWhile isWhitespace = l :=
      rdropWhile_append_rtakeWhile
    rw [← hsplit, dropWhile_append_of_pos hdots] at hc
    exact mem_rtakeWhile_imp ((dropWhile_sublist _).subset hc)

theorem rdropWhile_dropWhile_comm (p : Char → Bool) (s : Text) :
    (s.rdropWhile p).dropWhile p = (s.dropWhile p).rdropWhile p := by
  have hsplit : s = s.takeWhile p ++ s.dropWhile p := takeWhile_append_dropWhile.symm
  cases hk : s.dropWhile p with
  | nil =>
    have hall : ∀ c ∈ s, p c = true := dropWhile_eq_nil_iff.mp hk
    rw [rdropWhile_eq_nil_iff.mpr hall]
    rfl
  | cons c r =>
    have hc : p c = false := head?_dropWhile (s := s) (by rw [hk]; rfl)
    have hkeep : (c :: r).reverse.dropWhile p ≠ [] := fun hnil => by
      have htrue := dropWhile_eq_nil_iff.mp hnil c (mem_reverse.mpr mem_cons_self)
      rw [hc] at htrue
      cases htrue
    have hright : s.rdropWhile p = s.takeWhile p ++ (c :: r).rdropWhile p := by
      conv_lhs => rw [hsplit, hk]
      rw [rdropWhile, reverse_append, dropWhile_append,
        if_neg (by simpa using hkeep), reverse_append, reverse_reverse]
      rfl
    have hhead : ∀ d ∈ ((c :: r).rdropWhile p).head?, p d = false := by
      intro d hd
      obtain ⟨t, ht⟩ := rdropWhile_prefix p (c :: r)
      cases hkept : (c :: r).rdropWhile p with
      | nil => rw [hkept] at hd; cases hd
      | cons e u =>
        rw [hkept] at hd ht
        obtain rfl := Option.some.inj hd
        obtain rfl := (cons.inj ht).1
        exact hc
    rw [hright, dropWhile_append_of_head hhead,
      dropWhile_eq_nil_iff.mpr fun c hc => mem_takeWhile_imp hc]
    rfl

theorem trimMatches_reverse (p : Char → Bool) (s : Text) :
    trimMatches p s.reverse = (trimMatches p s).reverse := by
  rw [trimMatches_eq, trimMatches_eq, ← rdropWhile_dropWhile_comm p s]
  rfl

theorem oneRun_reverse : OneRun s.reverse ↔ OneRun s := by
  unfold OneRun trim
  rw [trimMatches_reverse, all_reverse]

theorem rtaken_eq_nil_iff (h : s.all outer = true) :
    ((s.rdropWhile isWhitespace).rdropWhile dot).rdropWhile isWhitespace = [] ↔ OneRun s := by
  rw [← oneRun_reverse, ← taken_eq_nil_iff (by rw [all_reverse]; exact h)]
  simp [rdropWhile]

/-! ### What is left -/

/-- What has been taken off once, and not been cut. -/
def trimmedName (name : Text) : Text := trim (trimMatches (· = '.') (trim (cleaned name)))

theorem sanitizeName_eq (name : Text) : sanitizeName name =
    (if trimmedName name = [] then text "unnamed" else trimmedName name).take 200 := rfl

theorem safe_unnamed : Safe (text "unnamed") := by
  have hplain : Plain (text "unnamed") := by decide
  have hhead : ∀ c ∈ (text "unnamed").head?, outer c = false := by
    rintro c ⟨rfl⟩
    decide
  have hlast : ∀ c ∈ (text "unnamed").getLast?, outer c = false := by
    rintro c ⟨rfl⟩
    decide
  exact ⟨by decide, hplain, by decide, ⟨hhead, hlast⟩, by decide⟩

theorem all_lead (name : Text) : (lead name).all outer = true :=
  all_eq_true.mpr fun _ hc => mem_takeWhile_imp hc

theorem all_trail (name : Text) : (trail name).all outer = true :=
  all_eq_true.mpr fun _ hc => mem_rtakeWhile_imp hc

theorem ends_core (name : Text) : (∀ c ∈ (core name).head?, outer c = false) ∧
    ∀ c ∈ (core name).getLast?, outer c = false := ends_trimMatches outer (cleaned name)

theorem cleaned_eq_around {name : Text} (h : core name ≠ []) :
    cleaned name = lead name ++ core name ++ trail name := by
  have hright : cleaned name = (cleaned name).rdropWhile outer ++ trail name :=
    rdropWhile_append_rtakeWhile.symm
  have hleft : (cleaned name).rdropWhile outer =
      ((cleaned name).rdropWhile outer).takeWhile outer ++ core name := by
    rw [core, trimMatches_eq, ← rdropWhile_dropWhile_comm]
    exact takeWhile_append_dropWhile.symm
  have hlead : lead name = ((cleaned name).rdropWhile outer).takeWhile outer := by
    obtain ⟨c, r, hc⟩ := exists_cons_of_ne_nil h
    have hne : ¬outer c = true := by
      rw [(ends_core name).1 c (by rw [hc]; rfl)]
      decide
    rw [lead]
    conv_lhs => rw [hright, hleft, hc, append_assoc]
    rw [takeWhile_append_of_pos fun _ hd => mem_takeWhile_imp hd, cons_append,
      takeWhile_cons_of_neg hne, append_nil]
  rw [hlead, ← hleft, ← hright]

theorem not_outer_iff : outer c = false ↔ dot c = false ∧ isWhitespace c = false := by
  rw [outer, Bool.or_eq_false_iff]

/-- Blanks, dots and blanks are taken off what stands before the core, and off what stands behind
it. -/
theorem trimmedName_eq {name : Text} (h : core name ≠ []) : trimmedName name =
    (((lead name).dropWhile isWhitespace).dropWhile dot).dropWhile isWhitespace ++ core name ++
      (((trail name).rdropWhile isWhitespace).rdropWhile dot).rdropWhile isWhitespace := by
  obtain ⟨hh, hl⟩ := ends_core name
  have hblank (a b : Text) : trim (a ++ core name ++ b) =
      a.dropWhile isWhitespace ++ core name ++ b.rdropWhile isWhitespace :=
    trimMatches_around h (fun c hc => (not_outer_iff.mp (hh c hc)).2)
      (fun c hc => (not_outer_iff.mp (hl c hc)).2) a b
  have hdot (a b : Text) : trimMatches (· = '.') (a ++ core name ++ b) =
      a.dropWhile dot ++ core name ++ b.rdropWhile dot :=
    trimMatches_around h (fun c hc => (not_outer_iff.mp (hh c hc)).1)
      (fun c hc => (not_outer_iff.mp (hl c hc)).1) a b
  rw [trimmedName, cleaned_eq_around h, hblank, hdot, hblank]

theorem safe_of_ends {s : Text} (hne : s ≠ []) (hplain : Plain s) (hlen : s.length ≤ 200)
    (hends : (∀ c ∈ s.head?, outer c = false) ∧ ∀ c ∈ s.getLast?, outer c = false) : Safe s := by
  have hblank : trim s = s := trimMatches_eq_self (fun c hc => (not_outer_iff.mp (hends.1 c hc)).2)
    fun c hc => (not_outer_iff.mp (hends.2 c hc)).2
  have hdot : trimMatches (· = '.') s = s :=
    trimMatches_eq_self (fun c hc => (not_outer_iff.mp (hends.1 c hc)).1)
      fun c hc => (not_outer_iff.mp (hends.2 c hc)).1
  refine ⟨hne, hplain, ⟨?_, ?_⟩, hends, ?_⟩
  · rintro rfl
    exact absurd (hends.1 '.' rfl) (by decide)
  · rintro rfl
    exact absurd (hends.1 '.' rfl) (by decide)
  · have htrimmed : trimmedName s = s := by
      rw [trimmedName, hplain.cleaned_eq, hblank, hdot, hblank]
    rw [sanitizeName_eq, htrimmed, if_neg hne, take_of_length_le hlen]

/-! ### Safe names -/

theorem safe_iff_of_core_nil {name : Text} (h : core name = []) :
    Safe (sanitizeName name) ↔ TwoRuns (cleaned name) := by
  have hnil : trimmedName name = [] ↔ TwoRuns (cleaned name) := trimMatches_eq_nil_iff
  rw [← hnil]
  constructor
  · intro hsafe
    by_contra hne
    obtain ⟨c, r, hc⟩ := exists_cons_of_ne_nil hne
    have hall : ∀ d ∈ cleaned name, outer d = true :=
      all_eq_true.mp (trimMatches_eq_nil_iff.mp h)
    have hsub : (trimmedName name).Sublist (cleaned name) :=
      (trim_sublist _).trans ((trimBoth_sublist _ _ _).trans (trim_sublist _))
    have houter : outer c = true := hall c (hsub.subset (by rw [hc]; exact mem_cons_self))
    have hhead := hsafe.ends.1 c (by rw [sanitizeName_eq, if_neg hne, hc]; rfl)
    rw [houter] at hhead
    cases hhead
  · intro hnil
    rw [sanitizeName_eq, if_pos hnil]
    exact safe_unnamed

theorem plain_trimmedName (name : Text) : Plain (trimmedName name) :=
  (plain_cleaned name).sublist
    ((trim_sublist _).trans ((trimBoth_sublist _ _ _).trans (trim_sublist _)))

theorem head?_outer {l : Text} (hl : l.all outer = true) (hne : l ≠ []) (s : Text) (n : Nat) :
    ∃ c ∈ ((l ++ s).take (n + 1)).head?, outer c = true := by
  obtain ⟨c, r, rfl⟩ := exists_cons_of_ne_nil hne
  exact ⟨c, rfl, all_eq_true.mp hl c mem_cons_self⟩

theorem all_sublist {l : Text} (hl : l.all outer = true) (hsub : a.Sublist l) : a.all outer = true :=
  all_eq_true.mpr fun c hc => all_eq_true.mp hl c (hsub.subset hc)

theorem safe_iff_of_core {name : Text} (h : core name ≠ []) :
    Safe (sanitizeName name) ↔ OneRun (lead name) ∧
      if 200 ≤ (core name).length then ∀ c ∈ ((core name).take 200).getLast?, outer c = false
      else OneRun (trail name) := by
  rw [← taken_eq_nil_iff (all_lead name), ← rtaken_eq_nil_iff (all_trail name)]
  have hname := trimmedName_eq h
  have hbefore : (((lead name).dropWhile isWhitespace).dropWhile dot).dropWhile isWhitespace
      |>.all outer := all_sublist (all_lead name) ((dropWhile_sublist _).trans
    ((dropWhile_sublist _).trans (dropWhile_sublist _)))
  have hbehind : (((trail name).rdropWhile isWhitespace).rdropWhile dot).rdropWhile isWhitespace
      |>.all outer := all_sublist (all_trail name) ((List.rdropWhile_prefix _ _).sublist.trans
    ((List.rdropWhile_prefix _ _).sublist.trans (List.rdropWhile_prefix _ _).sublist))
  have hplain := plain_trimmedName name
  generalize (((lead name).dropWhile isWhitespace).dropWhile dot).dropWhile isWhitespace = before
    at hname hbefore
  generalize (((trail name).rdropWhile isWhitespace).rdropWhile dot).rdropWhile isWhitespace = behind
    at hname hbehind
  obtain ⟨hh, hl⟩ := ends_core name
  have hne : trimmedName name ≠ [] := by
    rw [hname]
    simp [h]
  rw [sanitizeName_eq, if_neg hne]
  constructor
  · intro hsafe
    have hnil : before = [] := by
      by_contra hkept
      obtain ⟨c, hc, houter⟩ := head?_outer hbefore hkept (core name ++ behind) 199
      rw [hname, append_assoc] at hsafe
      rw [hsafe.ends.1 c hc] at houter
      cases houter
    refine ⟨hnil, ?_⟩
    rw [hname, hnil, nil_append] at hsafe
    split_ifs with hlong
    · have hlast := hsafe.ends.2
      rwa [take_append_of_le_length hlong] at hlast
    · by_contra hkept
      rw [take_append, take_of_length_le (by omega)] at hsafe
      have htake : behind.take (200 - (core name).length) ≠ [] := by
        rw [ne_eq, take_eq_nil_iff, not_or]
        exact ⟨by omega, hkept⟩
      have hlast := hsafe.ends.2 _ (getLast?_eq_some_getLast (by simp [htake]))
      rw [getLast_append_of_ne_nil _ htake] at hlast
      have houter := all_eq_true.mp hbehind _ (mem_of_mem_take (getLast_mem htake))
      rw [houter] at hlast
      cases hlast
  · rintro ⟨hnil, hend⟩
    have hout : (trimmedName name).take 200 = (core name).take 200 := by
      rw [hname, hnil, nil_append]
      split_ifs at hend with hlong
      · rw [take_append_of_le_length hlong]
      · rw [hend, append_nil]
    refine safe_of_ends ?_ (hplain.sublist (take_sublist _ _))
      (length_take_le _ _) ⟨?_, ?_⟩
    · rw [hout, ne_eq, take_eq_nil_iff, not_or]
      exact ⟨by decide, h⟩
    · intro c hc
      rw [hout, head?_take, if_neg (by decide)] at hc
      exact hh c hc
    · rw [hout]
      split_ifs at hend with hlong
      · exact hend
      · rwa [take_of_length_le (by omega)]

/-- **Sanitizing makes a name safe exactly if the name settles.** -/
theorem safe_iff_settles (name : Text) : Safe (sanitizeName name) ↔ SettlesAtOnce name := by
  unfold SettlesAtOnce
  split_ifs with h
  · exact safe_iff_of_core_nil h
  · have hcore := safe_iff_of_core h
    rwa [if_pos ‹_›] at hcore
  · have hcore := safe_iff_of_core h
    rwa [if_neg ‹_›] at hcore

/-- Two dots with a blank on either side, and a dot outside of each. -/
theorem parent_directory : sanitizeName (text ". .. .") = text ".." ∧
    ¬Safe (sanitizeName (text ". .. .")) := by
  have hparent : sanitizeName (text ". .. .") = text ".." := by decide
  refine ⟨hparent, fun hsafe => ?_⟩
  exact hsafe.component.2 hparent

end Nzbd
