import Mathlib.Data.List.Perm.Basic

/-!
# Names that do not collide

An entry has a name of its own and the names above it, those of the directories it is in.  In a
tree no two entries have the same name, and no entry has the name of a directory.

Entries are added one after the other.  Each new one is compared with those before it
(`clear_concat`), and yet the order they come in does not matter (`clear_perm`).
-/

namespace Collisions

open List

structure Entry (α : Type*) where
  own : α
  above : List α

variable {α : Type*}

/-- No two names collide. -/
structure Clear (l : List (Entry α)) : Prop where
  distinct : l.Pairwise fun e f => e.own ≠ f.own
  apart : ∀ e ∈ l, ∀ f ∈ l, e.own ∉ f.above

theorem clear_nil : Clear ([] : List (Entry α)) := ⟨.nil, fun _ h => by cases h⟩

/-- A new entry, against the ones before. -/
structure Fits (own above : List α) (e : Entry α) : Prop where
  above_own : ∀ d ∈ e.above, d ∉ own
  own_above : e.own ∉ e.above ∧ e.own ∉ above
  own_own : e.own ∉ own

/-- **One more entry.** -/
theorem clear_concat {l : List (Entry α)} {e : Entry α} :
    Clear (l ++ [e]) ↔ Clear l ∧ Fits (l.map (·.own)) (l.flatMap (·.above)) e := by
  constructor
  · intro h
    obtain ⟨hl, _, hcross⟩ := pairwise_append.mp h.distinct
    have he : e ∈ l ++ [e] := mem_append_right _ (mem_singleton_self e)
    have hold : ∀ f ∈ l, f ∈ l ++ [e] := fun f hf => mem_append_left _ hf
    refine ⟨⟨hl, fun f hf g hg => h.apart f (hold f hf) g (hold g hg)⟩, ?_, ⟨h.apart e he e he, ?_⟩, ?_⟩
    · intro d hd hown
      obtain ⟨f, hf, rfl⟩ := mem_map.mp hown
      exact h.apart f (hold f hf) e he hd
    · intro habove
      obtain ⟨f, hf, hd⟩ := mem_flatMap.mp habove
      exact h.apart e he f (hold f hf) hd
    · intro hown
      obtain ⟨f, hf, heq⟩ := mem_map.mp hown
      exact hcross f hf e (mem_singleton_self e) heq
  · rintro ⟨hl, hfits⟩
    refine ⟨pairwise_append.mpr ⟨hl.distinct, pairwise_singleton _ _, ?_⟩, ?_⟩
    · intro f hf g hg heq
      obtain rfl := mem_singleton.mp hg
      exact hfits.own_own (mem_map.mpr ⟨f, hf, heq⟩)
    · intro f hf g hg hd
      rcases mem_append.mp hf with hold | hnew
      · rcases mem_append.mp hg with hold' | hnew'
        · exact hl.apart f hold g hold' hd
        · obtain rfl := mem_singleton.mp hnew'
          exact hfits.above_own _ hd (mem_map_of_mem hold)
      · obtain rfl := mem_singleton.mp hnew
        rcases mem_append.mp hg with hold' | hnew'
        · exact hfits.own_above.2 (mem_flatMap.mpr ⟨g, hold', hd⟩)
        · obtain rfl := mem_singleton.mp hnew'
          exact hfits.own_above.1 hd

/-- **In any order.** -/
theorem clear_perm {l l' : List (Entry α)} (h : l.Perm l') : Clear l ↔ Clear l' := by
  have hforward : ∀ {l l' : List (Entry α)}, l.Perm l' → Clear l → Clear l' := fun h hl =>
    ⟨(h.pairwise_iff fun hne => hne.symm).mp hl.distinct, fun e he f hf =>
      hl.apart e (h.mem_iff.mpr he) f (h.mem_iff.mpr hf)⟩
  exact ⟨hforward h, hforward h.symm⟩

end Collisions
