import Mathlib.Data.List.Basic

/-!
# A queue in front of a channel

A sender hands items to a channel that may have no room.  What the channel does
not take is kept, and as long as something is kept, new items wait behind it.
At most `bound` items are kept; beyond that an item is refused.

`items` is everything that was accepted, in order: first what the channel has
taken, then what is kept.  `offer` adds the new item at the end or refuses it,
and `flush` changes nothing but the point where the two parts meet.  So the
channel sees the accepted items in the order in which they were accepted, each
of them once.
-/

structure Outbox (α : Type*) where
  taken : List α
  kept : List α

namespace Outbox

variable {α : Type*} {bound : Nat} {b c : Outbox α} {a : α}

def items (b : Outbox α) : List α := b.taken ++ b.kept

/-- Put an item behind the others. -/
def push (b : Outbox α) (a : α) : Outbox α := { b with kept := b.kept ++ [a] }

/-- `takes` is what the channel says, if it is asked. -/
def offer (bound : Nat) (takes : Bool) (b : Outbox α) (a : α) : Option (Outbox α) :=
  if b.kept = [] ∧ takes = true then some { b with taken := b.taken ++ [a] }
  else if b.kept.length = bound then none
  else some (b.push a)

/-- Offer the channel what is kept, up to the first item it does not take; its
`n`-th answer is `takes n`. -/
def flushFrom (takes : Nat → Bool) : Nat → List α → List α → Outbox α
  | _, taken, [] => ⟨taken, []⟩
  | n, taken, a :: kept =>
    if takes n then flushFrom takes (n + 1) (taken ++ [a]) kept else ⟨taken, a :: kept⟩

def flush (takes : Nat → Bool) (b : Outbox α) : Outbox α := flushFrom takes 0 b.taken b.kept

@[simp] theorem items_push : (b.push a).items = b.items ++ [a] := by simp [items, push]

@[simp] theorem length_kept_push : (b.push a).kept.length = b.kept.length + 1 := by simp [push]

theorem items_offer {takes : Bool} (h : b.offer bound takes a = some c) :
    c.items = b.items ++ [a] := by
  simp only [offer] at h
  split at h
  · next hb =>
    obtain rfl := Option.some.inj h
    simp [items, hb.1]
  · split at h
    · cases h
    · obtain rfl := Option.some.inj h
      exact items_push

theorem length_kept_offer {takes : Bool} (hb : b.kept.length ≤ bound)
    (h : b.offer bound takes a = some c) : c.kept.length ≤ bound := by
  simp only [offer] at h
  split at h
  · obtain rfl := Option.some.inj h
    exact hb
  · split at h
    · cases h
    · next hne =>
      obtain rfl := Option.some.inj h
      rw [length_kept_push]
      omega

theorem flushFrom_spec (takes : Nat → Bool) (n : Nat) (taken kept : List α) :
    (flushFrom takes n taken kept).items = taken ++ kept ∧
      (flushFrom takes n taken kept).kept.length ≤ kept.length := by
  induction kept generalizing n taken with
  | nil => simp [flushFrom, items]
  | cons a kept ih =>
    rw [flushFrom]
    split
    · obtain ⟨h1, h2⟩ := ih (n + 1) (taken ++ [a])
      exact ⟨by simpa using h1, Nat.le_trans h2 (Nat.le_succ _)⟩
    · exact ⟨rfl, Nat.le_refl _⟩

theorem items_flush (takes : Nat → Bool) : (b.flush takes).items = b.items :=
  (flushFrom_spec takes 0 b.taken b.kept).1

theorem length_kept_flush (takes : Nat → Bool) (hb : b.kept.length ≤ bound) :
    (b.flush takes).kept.length ≤ bound :=
  Nat.le_trans (flushFrom_spec takes 0 b.taken b.kept).2 hb

end Outbox
