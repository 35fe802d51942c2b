import Nzbd.Engine.Failover

/-!
# The retry budget of a segment

All servers draw on one counter.  It is filled up again only as it runs out, so it counts the
`other` outcomes of all servers together: `retriesLeft_reported`.  The server that draws the last
retry is failed, whoever has drawn the ones before, and an article that is missing leaves the next
server what is left of the budget.

Each server has a budget of its own exactly in the reports that are `Apart`: whoever draws the last
retry has drawn as many as there are, and nobody gives up in the middle of a budget.
-/

namespace Nzbd.Engine

/-- The server is failed without a retry. -/
def AttemptOutcome.final : AttemptOutcome → Bool
  | .articleMissing | .crcError | .retentionExceeded => true
  | _ => false

namespace Ladder

abbrev Report := ServerId × AttemptOutcome

/-- The segment after all of it. -/
def reported (retries : Nat) (l : List Report) : SegmentAttempt :=
  l.foldl (fun att r => (onOutcome att r.1 r.2).2) (.new retries)

/-- How many retries have been drawn. -/
def drawn (l : List Report) : Nat := l.countP (·.2 = .other)

def drawnBy (server : ServerId) (l : List Report) : Nat := l.count (server, .other)

def gaveUp (server : ServerId) (l : List Report) : Bool := l.any fun r => r.1 = server && r.2.final

/-- Each server gets its own full budget. -/
structure FullBudget (retries : Nat) (l : List Report) : Prop where
  own : ∀ i, ∀ h : i < l.length, l[i].2 = .other →
    l[i].1 ∉ (reported retries (l.take i)).failed →
    l[i].1 ∈ (reported retries (l.take (i + 1))).failed → retries ≤ drawnBy l[i].1 (l.take (i + 1))
  full : ∀ i, ∀ h : i < l.length,
    (onOutcome (reported retries (l.take i)) l[i].1 l[i].2).1 = .nextServer →
    (reported retries (l.take (i + 1))).retriesLeft = retries

/-- Budgets do not overlap. -/
structure Apart (retries : Nat) (l : List Report) : Prop where
  last : ∀ i, ∀ h : i < l.length, l[i].2 = .other → retries ∣ drawn (l.take (i + 1)) →
    gaveUp l[i].1 (l.take i) ∨ retries ≤ drawnBy l[i].1 (l.take (i + 1))
  between : ∀ i, ∀ h : i < l.length, l[i].2.final → retries ∣ drawn (l.take i)

instance (retries : Nat) (l : List Report) : Decidable (Apart retries l) :=
  decidable_of_iff
    ((∀ i, ∀ h : i < l.length, l[i].2 = .other → retries ∣ drawn (l.take (i + 1)) →
      gaveUp l[i].1 (l.take i) ∨ retries ≤ drawnBy l[i].1 (l.take (i + 1))) ∧
      ∀ i, ∀ h : i < l.length, l[i].2.final → retries ∣ drawn (l.take i))
    ⟨fun h => ⟨h.1, h.2⟩, fun h => ⟨h.last, h.between⟩⟩

variable {retries i : Nat} {l : List Report} {server : ServerId}

/-! ### One report more -/

theorem reported_concat (retries : Nat) (l : List Report) (r : Report) :
    reported retries (l ++ [r]) = (onOutcome (reported retries l) r.1 r.2).2 := by
  rw [reported, List.foldl_append]
  rfl

theorem drawn_concat (l : List Report) (r : Report) :
    drawn (l ++ [r]) = drawn l + if r.2 = .other then 1 else 0 := by
  rw [drawn, List.countP_append, List.countP_singleton]
  simp [drawn]

theorem drawnBy_concat_le (server : ServerId) (l : List Report) (r : Report) :
    drawnBy server l ≤ drawnBy server (l ++ [r]) := by
  rw [drawnBy, drawnBy, List.count_append]
  omega

theorem gaveUp_concat (server : ServerId) (l : List Report) (r : Report) :
    gaveUp server (l ++ [r]) = (gaveUp server l || (r.1 = server && r.2.final)) := by
  simp [gaveUp]

theorem take_succ_eq (h : i < l.length) : l.take (i + 1) = l.take i ++ [l[i]] :=
  (List.take_append_getElem h).symm

/-! ### The counter -/

/-- **The counter counts the retries of all servers,** from the last time it was filled up. -/
theorem retriesLeft_reported (hpos : 1 ≤ retries) (l : List Report) :
    (reported retries l).retriesLeft = retries - drawn l % retries ∧
      (reported retries l).initialRetries = retries := by
  induction l using List.reverseRecOn with
  | nil => simp [reported, drawn, SegmentAttempt.new]
  | append_singleton l r ih =>
    obtain ⟨hleft, hinit⟩ := ih
    have hmod := Nat.mod_lt (drawn l) hpos
    rw [reported_concat, drawn_concat]
    cases hr : r.2 with
    | other =>
      rw [if_pos rfl]
      simp only [onOutcome]
      split_ifs with hmore
      · have hnext : (drawn l + 1) % retries = drawn l % retries + 1 := by
          rw [Nat.add_mod, Nat.mod_eq_of_lt (show 1 < retries by omega), Nat.mod_eq_of_lt (by omega)]
        refine ⟨?_, hinit⟩
        show (reported retries l).retriesLeft - 1 = _
        omega
      · have hnext : (drawn l + 1) % retries = 0 := by
          rw [← Nat.mod_add_mod, show drawn l % retries + 1 = retries by omega, Nat.mod_self]
        refine ⟨?_, hinit⟩
        show (reported retries l).initialRetries = _
        omega
    | success => exact ⟨hleft, hinit⟩
    | connectionFailed => exact ⟨hleft, hinit⟩
    | articleMissing => exact ⟨hleft, hinit⟩
    | crcError => exact ⟨hleft, hinit⟩
    | retentionExceeded => exact ⟨hleft, hinit⟩

theorem retriesLeft_eq_iff (hpos : 1 ≤ retries) (l : List Report) :
    (reported retries l).retriesLeft = retries ↔ retries ∣ drawn l := by
  have hleft := (retriesLeft_reported hpos l).1
  have hmod := Nat.mod_lt (drawn l) hpos
  rw [Nat.dvd_iff_mod_eq_zero, hleft]
  omega

theorem one_lt_retriesLeft_iff (hpos : 1 ≤ retries) (l : List Report) :
    1 < (reported retries l).retriesLeft ↔ ¬retries ∣ drawn l + 1 := by
  have hleft := (retriesLeft_reported hpos l).1
  have hmod := Nat.mod_lt (drawn l) hpos
  have hnext : (drawn l + 1) % retries = (drawn l % retries + 1) % retries :=
    (Nat.mod_add_mod _ _ _).symm
  rw [Nat.dvd_iff_mod_eq_zero, hnext, hleft]
  rcases Nat.lt_or_ge (drawn l % retries + 1) retries with hlt | hge
  · rw [Nat.mod_eq_of_lt hlt]
    omega
  · rw [show drawn l % retries + 1 = retries by omega, Nat.mod_self]
    omega

/-! ### Servers that have failed -/

theorem mem_failed_concat (hpos : 1 ≤ retries) (l : List Report) (r : Report) :
    server ∈ (reported retries (l ++ [r])).failed ↔ server ∈ (reported retries l).failed ∨
      r.1 = server ∧ (r.2.final ∨ r.2 = .other ∧ retries ∣ drawn l + 1) := by
  rw [reported_concat]
  cases hr : r.2 with
  | success => simp [onOutcome, AttemptOutcome.final]
  | connectionFailed => simp [onOutcome, AttemptOutcome.final]
  | articleMissing => simp [onOutcome, AttemptOutcome.final, eq_comm, or_comm]
  | crcError => simp [onOutcome, AttemptOutcome.final, eq_comm, or_comm]
  | retentionExceeded => simp [onOutcome, AttemptOutcome.final, eq_comm, or_comm]
  | other =>
    have hlast := one_lt_retriesLeft_iff hpos l
    simp only [onOutcome]
    split_ifs with hmore
    · simp [AttemptOutcome.final, hlast.mp hmore]
    · have hdvd : retries ∣ drawn l + 1 := not_not.mp fun h => hmore (hlast.mpr h)
      simp [AttemptOutcome.final, hdvd, eq_comm, or_comm]

theorem gaveUp_failed (hpos : 1 ≤ retries) (l : List Report) (h : gaveUp server l) :
    server ∈ (reported retries l).failed := by
  induction l using List.reverseRecOn with
  | nil => cases h
  | append_singleton l r ih =>
    rw [gaveUp_concat, Bool.or_eq_true, Bool.and_eq_true, decide_eq_true_eq] at h
    rw [mem_failed_concat hpos]
    rcases h with h | ⟨hserver, hfinal⟩
    · exact .inl (ih h)
    · exact .inr ⟨hserver, .inl hfinal⟩

theorem failed_of_fullBudget (hpos : 1 ≤ retries) (h : FullBudget retries l) :
    ∀ n ≤ l.length, server ∈ (reported retries (l.take n)).failed →
      gaveUp server (l.take n) ∨ retries ≤ drawnBy server (l.take n) := by
  intro n
  induction n with
  | zero => exact fun _ hmem => absurd hmem (Finset.notMem_empty _)
  | succ n ih =>
    intro hn hmem
    have hlt : n < l.length := hn
    by_cases hbefore : server ∈ (reported retries (l.take n)).failed
    · rw [take_succ_eq hlt, gaveUp_concat]
      rcases ih (Nat.le_of_lt hlt) hbefore with hgave | hdrawn
      · exact .inl (by simp [hgave])
      · exact .inr (hdrawn.trans (drawnBy_concat_le _ _ _))
    · have hnew := hmem
      rw [take_succ_eq hlt, mem_failed_concat hpos] at hnew
      rcases hnew with hold | ⟨rfl, hfinal | ⟨hother, -⟩⟩
      · exact absurd hold hbefore
      · refine .inl ?_
        rw [take_succ_eq hlt, gaveUp_concat]
        simp [hfinal]
      · exact .inr (h.own n hlt hother hbefore hmem)

/-! ### Budgets -/

theorem apart_of_fullBudget (hpos : 1 ≤ retries) (h : FullBudget retries l) : Apart retries l where
  last i hi hother hdvd := by
    have hdrawn : drawn (l.take (i + 1)) = drawn (l.take i) + 1 := by
      rw [take_succ_eq hi, drawn_concat, if_pos hother]
    by_cases hbefore : l[i].1 ∈ (reported retries (l.take i)).failed
    · rcases failed_of_fullBudget hpos h i (Nat.le_of_lt hi) hbefore with hgave | hown
      · exact .inl hgave
      · right
        rw [take_succ_eq hi]
        exact hown.trans (drawnBy_concat_le _ _ _)
    · refine .inr (h.own i hi hother hbefore ?_)
      rw [take_succ_eq hi, mem_failed_concat hpos]
      exact .inr ⟨rfl, .inr ⟨hother, hdrawn ▸ hdvd⟩⟩
  between i hi hfinal := by
    have hnext : (onOutcome (reported retries (l.take i)) l[i].1 l[i].2).1 = .nextServer := by
      revert hfinal
      cases l[i].2 <;> simp [onOutcome, AttemptOutcome.final]
    have hfull := h.full i hi hnext
    rw [retriesLeft_eq_iff hpos, take_succ_eq hi, drawn_concat, if_neg fun hother => ?_] at hfull
    · exact hfull
    · rw [hother] at hfinal
      cases hfinal

theorem fullBudget_of_apart (hpos : 1 ≤ retries) (h : Apart retries l) : FullBudget retries l where
  own i hi hother hbefore hafter := by
    have hdrawn : drawn (l.take (i + 1)) = drawn (l.take i) + 1 := by
      rw [take_succ_eq hi, drawn_concat, if_pos hother]
    rw [take_succ_eq hi, mem_failed_concat hpos] at hafter
    rcases hafter with hold | ⟨-, hfinal | ⟨-, hdvd⟩⟩
    · exact absurd hold hbefore
    · rw [hother] at hfinal
      cases hfinal
    · rcases h.last i hi hother (hdrawn ▸ hdvd) with hgave | hown
      · exact absurd (gaveUp_failed hpos _ hgave) hbefore
      · exact hown
  full i hi hnext := by
    rw [retriesLeft_eq_iff hpos, take_succ_eq hi, drawn_concat]
    cases hr : l[i].2 with
    | success => rw [hr] at hnext; cases hnext
    | connectionFailed => rw [hr] at hnext; cases hnext
    | other =>
      rw [hr] at hnext
      rw [if_pos rfl]
      simp only [onOutcome] at hnext
      split_ifs at hnext with hmore
      exact not_not.mp fun hdvd => hmore ((one_lt_retriesLeft_iff hpos _).mpr hdvd)
    | articleMissing => exact h.between i hi (by rw [hr]; rfl)
    | crcError => exact h.between i hi (by rw [hr]; rfl)
    | retentionExceeded => exact h.between i hi (by rw [hr]; rfl)

/-- **Each server gets its own full budget exactly if budgets do not overlap.** -/
theorem fullBudget_iff (retries : Nat) (hpos : 1 ≤ retries) (l : List Report) :
    FullBudget retries l ↔ Apart retries l :=
  ⟨apart_of_fullBudget hpos, fullBudget_of_apart hpos⟩

/-- One server after the other. -/
theorem fullBudget_inTurn : FullBudget 2
    [(1, .other), (1, .connectionFailed), (1, .other), (2, .crcError), (3, .other), (3, .success)] :=
  (fullBudget_iff 2 (by decide) _).mpr (by decide)

/-- A server that has failed once is out, with the retries that another has drawn. -/
theorem not_fullBudget_shared : ¬FullBudget 3 [(1, .other), (1, .other), (2, .other)] := by
  intro h
  have hown := h.own 2 (by decide) rfl (by decide) (by decide)
  exact absurd hown (by decide)

end Ladder

end Nzbd.Engine
