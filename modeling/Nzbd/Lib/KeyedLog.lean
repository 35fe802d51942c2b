import Mathlib.Data.List.Dedup
import Mathlib.Data.List.Sort

/-!
# Logs that are merged by key

An entry is written under a key.  Of several entries under one key the first gives
what never changes and the later ones update the rest (`absorb`).  A state takes the
entries one after the other (`apply`).

* `Settled d e`: the state has taken `e` and nothing of it is new.
  `Merging.settled_replay`: after a replay its entries are settled, and
  `Merging.replay_filter`: settled entries may be left out.
* `Merging.replay_merged`: the entries of each key may be merged beforehand, each at
  the place of its first one.
* `Merging.pick`: the merged entries of some keys, in the order of their places;
  `Merging.pick_eq` says that this is what is left of all merged entries.
-/

/-- Entries with keys, and a state that takes them. -/
structure Merging (K E D : Type*) where
  key : E → K
  absorb : E → E → E
  apply : D → E → D
  /-- The state has a place for the key. -/
  Known : D → K → Prop
  key_absorb : ∀ a b, key (absorb a b) = key a
  absorb_assoc : ∀ a b c, absorb (absorb a b) c = absorb a (absorb b c)
  absorb_self : ∀ a, absorb a a = a
  apply_apply : ∀ d a b, key a = key b → apply (apply d a) b = apply d (absorb a b)
  known_apply : ∀ d a, Known (apply d a) (key a)
  known_mono : ∀ d a k, Known d k → Known (apply d a) k
  apply_comm : ∀ d a b, key a ≠ key b → Known d (key b) →
    apply (apply d a) b = apply (apply d b) a

namespace Merging

open List

variable {K E D : Type*} (M : Merging K E D)

/-- All entries of a list in one. -/
def summary : List E → Option E
  | [] => none
  | e :: l => some (l.foldl M.absorb e)

def replay (d : D) (l : List E) : D := l.foldl M.apply d

def Settled (d : D) (e : E) : Prop := M.apply d e = d ∧ M.Known d (M.key e)

variable {M}

theorem foldl_absorb_absorb (a b : E) (l : List E) :
    l.foldl M.absorb (M.absorb a b) = M.absorb a (l.foldl M.absorb b) := by
  induction l generalizing b with
  | nil => rfl
  | cons c l ih => rw [foldl_cons, foldl_cons, M.absorb_assoc, ih]

theorem key_foldl_absorb (e : E) (l : List E) : M.key (l.foldl M.absorb e) = M.key e := by
  induction l generalizing e with
  | nil => rfl
  | cons a l ih => rw [foldl_cons, ih, M.key_absorb]

theorem summary_append (l l' : List E) :
    M.summary (l ++ l') = (M.summary l).merge M.absorb (M.summary l') := by
  cases l with
  | nil => cases l' <;> rfl
  | cons e l =>
    cases l' with
    | nil => rw [append_nil]; rfl
    | cons e' l' =>
      rw [cons_append, summary, foldl_append, foldl_cons, foldl_absorb_absorb]
      rfl

theorem summary_cons (e : E) (l : List E) :
    M.summary (e :: l) = (some e).merge M.absorb (M.summary l) := summary_append [e] l

theorem merge_absorb (x e : E) (o : Option E) :
    (some x).merge M.absorb ((some e).merge M.absorb o) =
      (some (M.absorb x e)).merge M.absorb o := by
  cases o with
  | none => rfl
  | some y => exact congrArg some (M.absorb_assoc x e y).symm

theorem summary_flatMap {α : Type*} (g : α → List E) (xs : List α) :
    M.summary (xs.flatMap g) = M.summary (xs.filterMap fun x => M.summary (g x)) := by
  induction xs with
  | nil => rfl
  | cons x xs ih =>
    rw [flatMap_cons, summary_append, ih, filterMap_cons]
    cases M.summary (g x) with
    | none => cases M.summary (xs.filterMap fun x => M.summary (g x)) <;> rfl
    | some y => rw [summary_cons]

variable {l : List E}

theorem replay_apply {d : D} {k : K} {a : E} (ha : M.key a ≠ k)
    (hl : ∀ e ∈ l, M.key e = k) (hk : M.Known d k) :
    M.replay (M.apply d a) l = M.apply (M.replay d l) a := by
  induction l generalizing d with
  | nil => rfl
  | cons e l ih =>
    have he := hl e mem_cons_self
    have hcomm := M.apply_comm d a e (he ▸ ha) (he.symm ▸ hk)
    rw [replay, foldl_cons, hcomm]
    exact ih (fun x hx => hl x (mem_cons_of_mem _ hx)) (M.known_mono d e k hk)

theorem replay_same {d : D} {e : E} (hl : ∀ x ∈ l, M.key x = M.key e) :
    M.replay (M.apply d e) l = M.apply d (l.foldl M.absorb e) := by
  induction l generalizing e with
  | nil => rfl
  | cons x l ih =>
    have hx := hl x mem_cons_self
    rw [replay, foldl_cons, M.apply_apply d e x hx.symm, foldl_cons]
    refine ih fun y hy => ?_
    rw [M.key_absorb]
    exact hl y (mem_cons_of_mem _ hy)

/-! ### Settled entries -/

theorem Settled.apply {d : D} {a e : E} (h : M.Settled d e) (hne : M.key a ≠ M.key e) :
    M.Settled (M.apply d a) e := by
  refine ⟨?_, M.known_mono d a _ h.2⟩
  rw [M.apply_comm d a e hne h.2, h.1]

theorem Settled.replay {d : D} {e : E} (h : M.Settled d e)
    (hne : ∀ a ∈ l, M.key a ≠ M.key e) : M.Settled (M.replay d l) e := by
  induction l generalizing d with
  | nil => exact h
  | cons a l ih =>
    exact ih (h.apply (hne a mem_cons_self)) fun x hx => hne x (mem_cons_of_mem _ hx)

theorem settled_apply (d : D) (e : E) : M.Settled (M.apply d e) e := by
  refine ⟨?_, M.known_apply d e⟩
  rw [M.apply_apply d e e rfl, M.absorb_self]

/-- **After a replay its entries are settled.** -/
theorem settled_replay {d : D} (hl : (l.map M.key).Nodup) {e : E} (he : e ∈ l) :
    M.Settled (M.replay d l) e := by
  induction l generalizing d with
  | nil => exact absurd he not_mem_nil
  | cons a l ih =>
    obtain ⟨ha, hl⟩ := nodup_cons.mp hl
    rcases mem_cons.mp he with rfl | he
    · refine (settled_apply d e).replay fun x hx hkey => ?_
      exact ha (mem_map.mpr ⟨x, hx, hkey⟩)
    · exact ih hl he

/-- **Settled entries may be left out.** -/
theorem replay_filter {d : D} {p : E → Bool} (hl : (l.map M.key).Nodup)
    (hs : ∀ e ∈ l, p e = false → M.Settled d e) : M.replay d (l.filter p) = M.replay d l := by
  induction l generalizing d with
  | nil => rfl
  | cons a l ih =>
    obtain ⟨ha, hl⟩ := nodup_cons.mp hl
    cases hp : p a with
    | true =>
      rw [filter_cons_of_pos hp]
      refine ih hl fun e he hpe => (hs e (mem_cons_of_mem _ he) hpe).apply fun hkey => ?_
      exact ha (mem_map.mpr ⟨e, he, hkey.symm⟩)
    | false =>
      have hset := hs a mem_cons_self hp
      rw [filter_cons_of_neg (by simp [hp]),
        ih hl fun e he hpe => hs e (mem_cons_of_mem _ he) hpe]
      change _ = M.replay (M.apply d a) l
      rw [hset.1]

/-! ### Places -/

variable (M) (P : Type*)

/-- Entries with the places they stand at.  What is merged stands at the first place. -/
def located : Merging K (P × E) D where
  key e := M.key e.2
  absorb a b := (a.1, M.absorb a.2 b.2)
  apply d e := M.apply d e.2
  Known := M.Known
  key_absorb a b := M.key_absorb a.2 b.2
  absorb_assoc a b c := by rw [M.absorb_assoc]
  absorb_self a := by rw [M.absorb_self]
  apply_apply d a b h := M.apply_apply d a.2 b.2 h
  known_apply d a := M.known_apply d a.2
  known_mono d a k h := M.known_mono d a.2 k h
  apply_comm d a b h hk := M.apply_comm d a.2 b.2 h hk

variable {M P}

theorem located_foldl (e : P × E) (l : List (P × E)) :
    l.foldl (M.located P).absorb e = (e.1, (l.map Prod.snd).foldl M.absorb e.2) := by
  induction l generalizing e with
  | nil => rfl
  | cons a l ih =>
    rw [foldl_cons, ih]
    rfl

theorem summary_map_place {Q : Type*} (t : P → Q) (l : List (P × E)) :
    (M.located Q).summary (l.map fun x => (t x.1, x.2)) =
      ((M.located P).summary l).map fun x => (t x.1, x.2) := by
  cases l with
  | nil => rfl
  | cons x l =>
    rw [map_cons, summary, located_foldl, summary, located_foldl, map_map]
    rfl

theorem located_summary (l : List (P × E)) :
    ((M.located P).summary l).map Prod.snd = M.summary (l.map Prod.snd) := by
  cases l with
  | nil => rfl
  | cons e l =>
    rw [summary, located_foldl]
    rfl

theorem located_replay (d : D) (l : List (P × E)) :
    (M.located P).replay d l = M.replay d (l.map Prod.snd) := by
  rw [replay, replay, foldl_map]
  rfl

/-! ### Merging beforehand -/

variable [DecidableEq K] (M)

def under (k : K) (l : List E) : List E := l.filter fun e => M.key e = k

/-- The entries under other keys. -/
def apart (k : K) (l : List E) : List E := l.filter fun e => M.key e ≠ k

/-- One entry for each key, at the place of its first one. -/
def merged : List E → List E
  | [] => []
  | e :: l => (M.under (M.key e) l).foldl M.absorb e :: merged (M.apart (M.key e) l)
termination_by l => l.length
decreasing_by exact Nat.lt_succ_of_le (List.length_filter_le _ _)

variable {M}

theorem located_under {P : Type*} (k : K) (l : List (P × E)) :
    ((M.located P).under k l).map Prod.snd = M.under k (l.map Prod.snd) := by
  rw [under, under, filter_map]
  rfl

theorem mem_under {k : K} {e : E} : e ∈ M.under k l ↔ e ∈ l ∧ M.key e = k := by
  simp [under]

theorem mem_apart {k : K} {e : E} : e ∈ M.apart k l ↔ e ∈ l ∧ M.key e ≠ k := by
  simp [apart]

theorem under_append (k : K) (l l' : List E) :
    M.under k (l ++ l') = M.under k l ++ M.under k l' := filter_append _ _

theorem under_apart {k k' : K} (h : k' ≠ k) (l : List E) :
    M.under k' (M.apart k l) = M.under k' l := by
  rw [under, apart, filter_filter]
  refine filter_congr fun e _ => ?_
  by_cases he : M.key e = k'
  · simp [he, h]
  · simp [he]

theorem under_apart_self (k : K) (l : List E) : M.under k (M.apart k l) = [] := by
  refine filter_eq_nil_iff.mpr fun e he => ?_
  simpa using (mem_apart.mp he).2

theorem key_summary {k : K} {x : E} (h : M.summary (M.under k l) = some x) :
    M.key x = k := by
  cases hl : M.under k l with
  | nil =>
    rw [hl] at h
    nomatch h
  | cons e es =>
    rw [hl] at h
    obtain rfl := Option.some.inj h
    rw [key_foldl_absorb]
    exact (mem_under.mp (hl ▸ mem_cons_self)).2

theorem replay_split {d : D} {k : K} (hk : M.Known d k) (l : List E) :
    M.replay d l = M.replay (M.replay d (M.under k l)) (M.apart k l) := by
  induction l generalizing d with
  | nil => rfl
  | cons e l ih =>
    have hih := ih (M.known_mono d e k hk)
    by_cases he : M.key e = k
    · have hu : M.under k (e :: l) = e :: M.under k l := filter_cons_of_pos (by simpa using he)
      have ha : M.apart k (e :: l) = M.apart k l := filter_cons_of_neg (by simpa using he)
      rw [hu, ha]
      exact hih
    · have hu : M.under k (e :: l) = M.under k l := filter_cons_of_neg (by simpa using he)
      have ha : M.apart k (e :: l) = e :: M.apart k l :=
        filter_cons_of_pos (by simpa using he)
      rw [hu, ha, replay, foldl_cons]
      refine hih.trans ?_
      rw [replay_apply he (fun x hx => (mem_under.mp hx).2) hk]
      rfl

/-- **Entries may be merged beforehand.** -/
theorem replay_merged (d : D) (l : List E) : M.replay d (M.merged l) = M.replay d l := by
  fun_induction M.merged l generalizing d with
  | case1 => rfl
  | case2 e l ih =>
    have hsame := replay_same (d := d) (e := e) (l := M.under (M.key e) l)
      fun x hx => (mem_under.mp hx).2
    have hsplit := replay_split (M.known_apply d e) l
    calc M.replay d (_ :: M.merged (M.apart (M.key e) l))
        = M.replay (M.apply d _) (M.apart (M.key e) l) := ih _
      _ = M.replay (M.replay (M.apply d e) (M.under (M.key e) l)) (M.apart (M.key e) l) := by
          rw [hsame]
      _ = M.replay (M.apply d e) l := hsplit.symm

theorem mem_merged {x : E} :
    x ∈ M.merged l ↔ ∃ k, M.summary (M.under k l) = some x := by
  fun_induction M.merged l with
  | case1 => simp [under, summary]
  | case2 e l ih =>
    have hself : M.under (M.key e) (e :: l) = e :: M.under (M.key e) l :=
      filter_cons_of_pos (by simp)
    have hother : ∀ k, k ≠ M.key e → M.under k (e :: l) = M.under k (M.apart (M.key e) l) := by
      intro k hk
      rw [under_apart hk]
      exact filter_cons_of_neg (by simpa using fun h => hk h.symm)
    rw [mem_cons, ih]
    constructor
    · rintro (rfl | ⟨k, hk⟩)
      · exact ⟨M.key e, by rw [hself]; rfl⟩
      · refine ⟨k, ?_⟩
        rw [hother k, hk]
        rintro rfl
        rw [under_apart_self] at hk
        nomatch hk
    · rintro ⟨k, hk⟩
      by_cases hke : k = M.key e
      · subst hke
        rw [hself] at hk
        exact .inl (Option.some.inj hk).symm
      · exact .inr ⟨k, by rwa [← hother k hke]⟩

theorem nodup_merged (l : List E) : ((M.merged l).map M.key).Nodup := by
  fun_induction M.merged l with
  | case1 => exact nodup_nil
  | case2 e l ih =>
    refine nodup_cons.mpr ⟨fun hmem => ?_, ih⟩
    obtain ⟨x, hx, hkey⟩ := mem_map.mp hmem
    obtain ⟨k, hk⟩ := mem_merged.mp hx
    have hke : k = M.key e := by rw [← key_summary hk, hkey, key_foldl_absorb]
    rw [hke, under_apart_self] at hk
    nomatch hk

/-! ### The order of the places -/

theorem places_merged (l : List (P × E)) :
    (((M.located P).merged l).map Prod.fst).Sublist (l.map Prod.fst) := by
  fun_induction (M.located P).merged l with
  | case1 => exact .slnil
  | case2 e l ih =>
    rw [map_cons, map_cons, located_foldl]
    exact (ih.trans (filter_sublist.map _)).cons_cons _

variable [LinearOrder P] (M)

/-- What is merged under some keys, in the order of the places. -/
def pick (ks : List K) (l : List (P × E)) : List (P × E) :=
  (ks.dedup.filterMap fun k => (M.located P).summary ((M.located P).under k l)).insertionSort
    fun a b => a.1 ≤ b.1

variable {M}

/-- **Merging under some keys is merging, and leaving the other keys out.** -/
theorem pick_eq (ks : List K) {l : List (P × E)} (hl : l.Pairwise fun a b => a.1 < b.1) :
    M.pick ks l = ((M.located P).merged l).filter fun e => M.key e.2 ∈ ks := by
  have hplaces : ((M.located P).merged l).Pairwise fun a b => a.1 < b.1 := by
    rw [← pairwise_map (f := Prod.fst) (R := (· < ·))] at hl ⊢
    exact hl.sublist (places_merged l)
  have hperm : (M.pick ks l).Perm (((M.located P).merged l).filter fun e => M.key e.2 ∈ ks) := by
    refine (perm_insertionSort _ _).trans ((perm_ext_iff_of_nodup ?_ ?_).mpr ?_)
    · refine (nodup_dedup ks).filterMap fun k k' x hx hx' => ?_
      exact (key_summary hx).symm.trans (key_summary hx')
    · exact .filter _ (.of_map _ (nodup_merged l))
    · intro x
      rw [mem_filterMap, mem_filter, mem_merged, decide_eq_true_eq]
      constructor
      · rintro ⟨k, hk, hx⟩
        exact ⟨⟨k, hx⟩, (key_summary hx).symm ▸ mem_dedup.mp hk⟩
      · rintro ⟨⟨k, hx⟩, hk⟩
        exact ⟨k, mem_dedup.mpr ((key_summary hx) ▸ hk), hx⟩
  refine @List.Perm.eq_of_pairwise _ (fun a b : P × E => a.1 ≤ b.1) _ _ ?_
    (pairwise_insertionSort _ _) ((hplaces.filter _).imp fun hlt => le_of_lt hlt) hperm
  intro a b ha hb hab hba
  have ha := mem_of_mem_filter (hperm.mem_iff.mp ha)
  have hb := mem_of_mem_filter hb
  have hnodup : (((M.located P).merged l).map Prod.fst).Nodup :=
    pairwise_map.mpr (hplaces.imp fun hlt => ne_of_lt hlt)
  exact inj_on_of_nodup_map hnodup ha hb (le_antisymm hab hba)

/-! ### Tables -/

section Table

variable (M)

def lookup (k : K) (es : List E) : Option E := es.find? fun e => M.key e = k

/-- Take an entry into a table.  A key that is not in it yet starts from what was
there before. -/
def insertInto (before : List E) (es : List E) (e : E) : List E :=
  if (M.lookup (M.key e) es).isSome then
    es.map fun x => if M.key x = M.key e then M.absorb x e else x
  else es ++ [((M.lookup (M.key e) before).map fun x => M.absorb x e).getD e]

/-- A table over another one. -/
def extend (es es' : List E) : List E :=
  es' ++ es.filter fun e => (M.lookup (M.key e) es').isNone

variable {M}

theorem key_of_lookup {k : K} {es : List E} {x : E} (h : M.lookup k es = some x) : M.key x = k := by
  simpa using find?_some h

theorem lookup_map {k k' : K} {f : E → E} (hf : ∀ x, M.key (f x) = M.key x) (es : List E) :
    M.lookup k (es.map fun x => if M.key x = k' then f x else x) =
      if k = k' then (M.lookup k es).map f else M.lookup k es := by
  induction es with
  | nil => simp [lookup]
  | cons x xs ih =>
    have hkey : M.key (if M.key x = k' then f x else x) = M.key x := by
      split
      · exact hf x
      · rfl
    rw [map_cons, lookup, find?_cons, hkey, lookup, find?_cons]
    by_cases hx : M.key x = k
    · by_cases hk : k = k'
      · simp [hx, hk]
      · simp [hx, hk]
    · simp only [hx, decide_false]
      exact ih

theorem lookup_append (k : K) (es es' : List E) :
    M.lookup k (es ++ es') = (M.lookup k es).or (M.lookup k es') := find?_append

theorem lookup_singleton (k : K) (x : E) :
    M.lookup k [x] = if M.key x = k then some x else none := by
  by_cases h : M.key x = k <;> simp [lookup, h]

theorem lookup_insertInto (k : K) (before es : List E) (e : E) :
    M.lookup k (M.insertInto before es e) =
      if M.key e = k then
        some (((M.lookup k es).or (M.lookup k before)).elim e fun x => M.absorb x e)
      else M.lookup k es := by
  have hstart : M.key (((M.lookup (M.key e) before).map fun x => M.absorb x e).getD e) =
      M.key e := by
    cases hb : M.lookup (M.key e) before with
    | none => rfl
    | some x => exact (M.key_absorb x e).trans (key_of_lookup hb)
  rw [insertInto]
  split
  next hsome =>
    rw [lookup_map (fun x => M.key_absorb x e)]
    by_cases hk : M.key e = k
    · subst hk
      obtain ⟨y, hy⟩ := Option.isSome_iff_exists.mp hsome
      simp [hy]
    · rw [if_neg fun h => hk h.symm, if_neg hk]
  next hnone =>
    rw [lookup_append, lookup_singleton, hstart]
    by_cases hk : M.key e = k
    · subst hk
      have hes : M.lookup (M.key e) es = none := by simpa using hnone
      rw [if_pos rfl, if_pos rfl, hes]
      cases M.lookup (M.key e) before <;> rfl
    · rw [if_neg hk, if_neg hk, Option.or_none]

theorem lookup_foldl (k : K) (before es l : List E) :
    M.lookup k (l.foldl (M.insertInto before) es) =
      if M.under k l = [] then M.lookup k es
      else ((M.lookup k es).or (M.lookup k before)).merge M.absorb (M.summary (M.under k l)) := by
  induction l generalizing es with
  | nil => rfl
  | cons e l ih =>
    rw [foldl_cons, ih, lookup_insertInto]
    by_cases hk : M.key e = k
    · have hunder : M.under k (e :: l) = e :: M.under k l :=
        filter_cons_of_pos (by simpa using hk)
      have hlater : ∀ y : E, (if M.under k l = [] then some y else
          (some y).merge M.absorb (M.summary (M.under k l))) =
            (some y).merge M.absorb (M.summary (M.under k l)) := by
        intro y
        split
        next hl => rw [hl]; rfl
        next => rfl
      rw [hunder, if_pos hk, if_neg (cons_ne_nil _ _), Option.some_or, hlater,
        summary_cons]
      cases (M.lookup k es).or (M.lookup k before) with
      | none => cases M.summary (M.under k l) <;> rfl
      | some x => exact (merge_absorb x e _).symm
    · have hunder : M.under k (e :: l) = M.under k l :=
        filter_cons_of_neg (by simpa using hk)
      rw [hunder, if_neg hk]

theorem lookup_extend (k : K) (es es' : List E) :
    M.lookup k (M.extend es es') = (M.lookup k es').or (M.lookup k es) := by
  rw [extend, lookup_append]
  cases h : M.lookup k es' with
  | some x => rfl
  | none =>
    rw [Option.none_or, Option.none_or, lookup, lookup, find?_filter]
    congr 1
    funext x
    by_cases hx : M.key x = k
    · simp [hx, h]
    · simp [hx]

end Table

end Merging
