import Mathlib.Data.List.Pairwise
import Nzbd.Engine.Queue
import Nzbd.Lib.Lowercase

/-!
# The names of a job's files

A name that an NZB has had before, case aside, gets a `.dup` with a number, which counts the earlier
ones.  It is the name in the NZB that is counted, and not the one the file gets.  So a new name can
still be that of another file (`Unambiguous`): the NZB may have a name with `.dup` or with
`.part` of its own, and two names that differ in their last sigma alone are the same in front of
a `.dup`.

Nothing else makes two files one: `distinct_iff`.
-/

namespace Nzbd

open List Utf8

/-! ### Names with their numbers -/

/-- Every name, and how many of those before it are the same case aside. -/
def numberedFrom (lower : Text → Text) (before : List Text) : List Text → List (Text × Nat)
  | [] => []
  | h :: hints =>
    (h, before.countP fun g => lower g = lower h) :: numberedFrom lower (h :: before) hints

def numbered (lower : Text → Text) (hints : List Text) : List (Text × Nat) :=
  numberedFrom lower [] hints

/-- The name the file gets. -/
def dupName (p : Text × Nat) : Text :=
  if 0 < p.2 then p.1 ++ text ".dup" ++ showNat p.2 else p.1

def hintsOf (pfs : List ParsedFile) : List Text := pfs.map fun pf => sanitizeName pf.filenameHint

/-- No name of the NZB is taken for one that is made, and no two that are made are the same. -/
structure Unambiguous (T : CaseTable) (hints : List Text) : Prop where
  first_ne_dup : ∀ p ∈ numbered T.toLowercase hints, ∀ q ∈ numbered T.toLowercase hints,
    p.2 = 0 → 0 < q.2 →
      T.toLowercase p.1 ≠ T.toLowercase (q.1 ++ text ".dup" ++ showNat q.2)
  dup_ne_dup : ∀ p ∈ numbered T.toLowercase hints, ∀ q ∈ numbered T.toLowercase hints,
    0 < p.2 → p.2 = q.2 → T.toLowercase p.1 ≠ T.toLowercase q.1 →
      T.insideWord p.1 ≠ T.insideWord q.1
  first_ne_part : ∀ p ∈ numbered T.toLowercase hints, ∀ q ∈ numbered T.toLowercase hints,
    p.2 = 0 → p.1 ≠ dupName q ++ text ".part"

/-- Two names that share no path. -/
structure Distinct (T : CaseTable) (a b : Text) : Prop where
  names : T.toLowercase a ≠ T.toLowercase b
  part : a ++ text ".part" ≠ b
  part' : b ++ text ".part" ≠ a

instance (T : CaseTable) (a b : Text) : Decidable (Distinct T a b) :=
  decidable_of_iff (T.toLowercase a ≠ T.toLowercase b ∧ a ++ text ".part" ≠ b ∧
    b ++ text ".part" ≠ a) ⟨fun h => ⟨h.1, h.2.1, h.2.2⟩, fun h => ⟨h.names, h.part, h.part'⟩⟩

section Numbered

variable {lower : Text → Text} {before hints : List Text} {p : Text × Nat}

theorem count_le_numberedFrom {h : Text} (hp : p ∈ numberedFrom lower before hints)
    (hsame : lower h = lower p.1) :
    (before.countP fun g => lower g = lower h) ≤ p.2 := by
  induction hints generalizing before with
  | nil => exact absurd hp not_mem_nil
  | cons g hints ih =>
    rw [numberedFrom, mem_cons] at hp
    rcases hp with rfl | hp
    · rw [hsame]
    · refine le_trans ?_ (ih hp)
      rw [countP_cons]
      exact Nat.le_add_right _ _

/-- **A name that comes again has a greater number.** -/
theorem pairwise_numberedFrom (lower : Text → Text) (before hints : List Text) :
    (numberedFrom lower before hints).Pairwise fun p q => lower p.1 = lower q.1 → p.2 < q.2 := by
  induction hints generalizing before with
  | nil => exact List.Pairwise.nil
  | cons h hints ih =>
    refine pairwise_cons.mpr ⟨fun q hq hsame => ?_, ih _⟩
    have hle := count_le_numberedFrom hq hsame
    rw [countP_cons_of_pos (by simp)] at hle
    exact Nat.lt_of_succ_le hle

theorem count_cons (seen : SeenNames) (a b : Text) (n : Nat) :
    SeenNames.count ((a, n) :: seen) b = if b = a then n else seen.count b := by
  rw [SeenNames.count, lookup_cons]
  by_cases hab : b = a
  · rw [if_pos hab, hab, beq_self_eq_true]
    rfl
  · rw [if_neg hab, beq_eq_false_iff_ne.mpr hab]
    rfl

/-- **The files get the names that have been counted.** -/
theorem filenames_buildFiles (lower : Text → Text) (pause : Bool) (pfs : List ParsedFile) (next : Nat)
    (seen : SeenNames) (before : List Text)
    (hseen : ∀ h, seen.count (lower h) = before.countP fun g => lower g = lower h) :
    (buildFiles lower pause next seen pfs).1.map (·.filename) =
      (numberedFrom lower before (hintsOf pfs)).map dupName := by
  induction pfs generalizing next seen before with
  | nil => rfl
  | cons pf pfs ih =>
    have hcount := hseen (sanitizeName pf.filenameHint)
    rw [buildFiles, map_cons, hintsOf, map_cons, numberedFrom, map_cons, ← hcount]
    refine congrArg₂ cons ?_ (ih _ _ _ fun h => ?_)
    · simp [buildFile, dupName, Nat.pos_iff_ne_zero]
    · simp only [buildFile]
      rw [count_cons, countP_cons, hcount, hseen]
      by_cases hsame : lower h = lower (sanitizeName pf.filenameHint)
      · simp [hsame]
      · simp [hsame, Ne.symm hsame]

end Numbered

/-! ### Suffixes -/

section Suffixes

variable {T : CaseTable} {a b x y h : Text} {c : Char} {m n : Nat} {p q : Text × Nat}

theorem append_cons_inj (hx : c ∉ x) (hy : c ∉ y) (heq : a ++ c :: x = b ++ c :: y) :
    a = b ∧ x = y := by
  have hsplit {u v : Text} (hv : c ∉ v) :
      splitOnce c (u ++ c :: v).reverse = some (v.reverse, u.reverse) := by
    rw [reverse_append, reverse_cons, append_assoc]
    exact splitOnce_append (by simpa using hv)
  have hboth := (hsplit hx).symm.trans ((congrArg (fun u => splitOnce c u.reverse) heq).trans
    (hsplit hy))
  obtain ⟨hxy, hab⟩ := Prod.mk.inj (Option.some.inj hboth)
  exact ⟨reverse_inj.mp hab, reverse_inj.mp hxy⟩

theorem plain_dup (T : CaseTable) (n : Nat) :
    ∀ c ∈ text ".dup" ++ showNat n, T.lower c = [c] ∧ c ≠ 'Σ' := by
  have hascii {c : Char} (hc : c.toNat < 0x80) (hlower : c.toLower = c) :
      T.lower c = [c] ∧ c ≠ 'Σ' := by
    refine ⟨by rw [T.lower_ascii c hc, hlower], ?_⟩
    rintro rfl
    exact absurd hc (by decide)
  have hword : ∀ c ∈ text ".dup", c.toNat < 0x80 ∧ c.toLower = c := by
    have hall : (text ".dup").all (fun c => c.toNat < 0x80 ∧ c.toLower = c) = true := by decide
    exact fun c hc => of_decide_eq_true (all_eq_true.mp hall c hc)
  have hdigit : ∀ d < 10, (Nat.digitChar d).toNat < 0x80 ∧
      (Nat.digitChar d).toLower = Nat.digitChar d := by decide
  intro c hc
  rcases mem_append.mp hc with hc | hc
  · exact hascii (hword c hc).1 (hword c hc).2
  · obtain ⟨d, hd, rfl⟩ := Numeral.mem_toDigits_ten n c hc
    exact hascii (hdigit d hd).1 (hdigit d hd).2

theorem word_dup (T : CaseTable) (n : Nat) :
    T.caseIgnorableThenCased (text ".dup" ++ showNat n) = true := by
  have hdot : T.caseIgnorable '.' = true := T.ignorable_ascii '.' (by decide)
  have hstop : T.caseIgnorable 'd' = false := T.ignorable_ascii 'd' (by decide)
  have hcased : T.cased 'd' = true := T.cased_ascii 'd' (by decide)
  have htext : text ".dup" ++ showNat n = '.' :: 'd' :: 'u' :: 'p' :: showNat n := rfl
  rw [htext, CaseTable.caseIgnorableThenCased, dropWhile_cons_of_pos hdot,
    dropWhile_cons_of_neg (by simp [hstop])]
  simpa using hcased

theorem toLowercase_dup (T : CaseTable) (h : Text) (n : Nat) :
    T.toLowercase (h ++ text ".dup" ++ showNat n) =
      T.insideWord h ++ (text ".dup" ++ showNat n) := by
  rw [append_assoc, CaseTable.toLowercase_append (word_dup T n) (plain_dup T n)]

theorem dot_not_mem_showNat (n : Nat) : '.' ∉ showNat n := by
  have hdigit : ∀ d < 10, '.' ≠ Nat.digitChar d := by decide
  intro hc
  obtain ⟨d, hd, heq⟩ := Numeral.mem_toDigits_ten n '.' hc
  exact hdigit d hd heq

theorem dup_inj (heq : a ++ (text ".dup" ++ showNat m) = b ++ (text ".dup" ++ showNat n)) :
    a = b ∧ m = n := by
  have hno (k : Nat) : '.' ∉ text "dup" ++ showNat k := fun hmem =>
    (mem_append.mp hmem).elim (by decide) (dot_not_mem_showNat k)
  obtain ⟨hab, htail⟩ := append_cons_inj (hno m) (hno n) heq
  exact ⟨hab, showNat_inj (append_cancel_left htail)⟩

theorem part_ne_dup (a b : Text) (n : Nat) : a ++ text ".part" ≠ b ++ text ".dup" ++ showNat n := by
  have hno : '.' ∉ text "dup" ++ showNat n := fun hmem =>
    (mem_append.mp hmem).elim (by decide) (dot_not_mem_showNat n)
  intro heq
  rw [append_assoc] at heq
  have htail := (append_cons_inj (show '.' ∉ text "part" by decide) hno heq).2
  exact absurd (cons.inj htail).1 (by decide)

theorem dupName_first (hp : p.2 = 0) : dupName p = p.1 := by
  rw [dupName, if_neg (by omega)]

theorem dupName_again (hp : 0 < p.2) : dupName p = p.1 ++ text ".dup" ++ showNat p.2 := if_pos hp

end Suffixes

/-! ### Files apart -/

section Apart

variable {T : CaseTable} {hints : List Text} {p q : Text × Nat}

theorem Distinct.symm {a b : Text} (h : Distinct T a b) : Distinct T b a :=
  ⟨h.names.symm, h.part', h.part⟩

theorem Unambiguous.part (h : Unambiguous T hints) (hp : p ∈ numbered T.toLowercase hints)
    (hq : q ∈ numbered T.toLowercase hints) : dupName p ++ text ".part" ≠ dupName q := by
  rcases Nat.eq_zero_or_pos q.2 with hzero | hpos
  · rw [dupName_first hzero]
    exact (h.first_ne_part q hq p hp hzero).symm
  · rw [dupName_again hpos]
    exact part_ne_dup _ _ _

theorem Unambiguous.distinct (h : Unambiguous T hints) (hp : p ∈ numbered T.toLowercase hints)
    (hq : q ∈ numbered T.toLowercase hints)
    (hgrow : T.toLowercase p.1 = T.toLowercase q.1 → p.2 < q.2) :
    Distinct T (dupName p) (dupName q) := by
  refine ⟨fun heq => ?_, h.part hp hq, h.part hq hp⟩
  rcases Nat.eq_zero_or_pos p.2 with hp0 | hp0
  · rcases Nat.eq_zero_or_pos q.2 with hq0 | hq0
    · rw [dupName_first hp0, dupName_first hq0] at heq
      have hlt := hgrow heq
      omega
    · rw [dupName_first hp0, dupName_again hq0] at heq
      exact h.first_ne_dup p hp q hq hp0 hq0 heq
  · rcases Nat.eq_zero_or_pos q.2 with hq0 | hq0
    · rw [dupName_again hp0, dupName_first hq0] at heq
      exact h.first_ne_dup q hq p hp hq0 hp0 heq.symm
    · rw [dupName_again hp0, dupName_again hq0, toLowercase_dup, toLowercase_dup] at heq
      obtain ⟨hinside, hnumber⟩ := dup_inj heq
      refine h.dup_ne_dup p hp q hq hp0 hnumber (fun hsame => ?_) hinside
      have hlt := hgrow hsame
      omega

theorem unambiguous_of_distinct
    (h : (numbered T.toLowercase hints).Pairwise fun p q => Distinct T (dupName p) (dupName q)) :
    Unambiguous T hints := by
  have hsymm : Std.Symm fun p q : Text × Nat => Distinct T (dupName p) (dupName q) :=
    ⟨fun _ _ hd => hd.symm⟩
  have hapart : ∀ p ∈ numbered T.toLowercase hints, ∀ q ∈ numbered T.toLowercase hints, p ≠ q →
      Distinct T (dupName p) (dupName q) := fun p hp q hq hne => h.forall hp hq hne
  constructor
  · intro p hp q hq hp0 hq0 heq
    have hne : p ≠ q := fun hpq => by
      rw [hpq] at hp0
      omega
    have hd := hapart p hp q hq hne
    rw [dupName_first hp0, dupName_again hq0] at hd
    exact hd.names heq
  · intro p hp q hq hp0 hnumber hne hinside
    have hd := hapart p hp q hq fun hpq => hne (congrArg (T.toLowercase ·.1) hpq)
    rw [dupName_again hp0, dupName_again (hnumber ▸ hp0)] at hd
    refine hd.names ?_
    rw [toLowercase_dup, toLowercase_dup, hinside, hnumber]
  · intro p hp q hq hp0 heq
    by_cases hpq : p = q
    · rw [← hpq, dupName_first hp0] at heq
      have hlength := congrArg length heq
      rw [length_append] at hlength
      exact absurd (show (text ".part").length = 5 by decide) (by omega)
    · have hd := hapart p hp q hq hpq
      rw [dupName_first hp0] at hd
      exact hd.part' heq.symm

end Apart

/-- **The files of a job share no path**, a temporary name included, exactly if the names of the NZB
are unambiguous. -/
theorem distinct_iff (T : CaseTable) (pause : Bool) (next : Nat) (pfs : List ParsedFile) :
    ((buildFiles T.toLowercase pause next [] pfs).1.Pairwise fun f g =>
        Distinct T f.filename g.filename) ↔
      Unambiguous T (hintsOf pfs) := by
  have hnames := filenames_buildFiles T.toLowercase pause pfs next [] [] fun _ => rfl
  have hfiles : ((buildFiles T.toLowercase pause next [] pfs).1.Pairwise fun f g =>
      Distinct T f.filename g.filename) ↔
        (numbered T.toLowercase (hintsOf pfs)).Pairwise fun p q =>
          Distinct T (dupName p) (dupName q) := by
    rw [← pairwise_map, hnames, pairwise_map]
    rfl
  rw [hfiles]
  refine ⟨unambiguous_of_distinct, fun h => ?_⟩
  exact (pairwise_numberedFrom T.toLowercase [] (hintsOf pfs)).imp_of_mem
    fun hp hq hgrow => h.distinct hp hq hgrow

def namedFile (name : Text) : ParsedFile where
  subject := name
  date := none
  segments := []
  sorted := List.Pairwise.nil

/-- The NZB has a name with `.dup1` of its own, or one with `.part`. -/
theorem not_distinct :
    (¬(buildFiles CaseTable.ascii.toLowercase false 0 []
        ([text "a", text "a", text "a.dup1"].map namedFile)).1.Pairwise
      fun f g => Distinct CaseTable.ascii f.filename g.filename) ∧
    ¬(buildFiles CaseTable.ascii.toLowercase false 0 []
        ([text "a", text "a.part"].map namedFile)).1.Pairwise
      fun f g => Distinct CaseTable.ascii f.filename g.filename := by
  decide +kernel

end Nzbd
