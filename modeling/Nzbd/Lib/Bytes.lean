import Mathlib.Data.List.GetD
import Mathlib.Data.UInt

/-!
# A file as its bytes

`setLen` cuts a file or fills it up with zeros, `writeAt` writes at a position, behind the
end too.  Every byte of the result is known from the bytes before (`getD_setLen`,
`getD_writeAt`), a byte behind the end being zero.

Pieces that lie end to end give the same file in whatever order they are written
(`foldl_overlay_of_perm`): no two of them share a position.
-/

namespace Bytes

open List

def setLen (n : Nat) (c : List UInt8) : List UInt8 := c.take n ++ List.replicate (n - c.length) 0

/-- Nothing is written where there is nothing to write, not even zeros before it. -/
def writeAt (c : List UInt8) (offset : Nat) (data : List UInt8) : List UInt8 :=
  if data = [] then c else setLen offset c ++ data ++ c.drop (offset + data.length)

@[simp] theorem length_setLen (n : Nat) (c : List UInt8) : (setLen n c).length = n := by
  simp only [setLen, length_append, length_take, length_replicate]
  omega

theorem getD_setLen (n : Nat) (c : List UInt8) (i : Nat) :
    (setLen n c).getD i 0 = if i < n then c.getD i 0 else 0 := by
  split
  next h =>
    by_cases hc : i < c.length
    · rw [setLen, getD_append _ _ _ _ (by simp [hc, h]), getD_eq_getElem?_getD,
        getElem?_take_of_lt h, ← getD_eq_getElem?_getD]
    · rw [setLen, getD_append_right _ _ _ _ (by simp; omega),
        getD_eq_default _ _ (Nat.le_of_not_lt hc), getD_eq_getElem?_getD,
        getElem?_replicate]
      split <;> rfl
  next h => exact getD_eq_default _ _ (by simp; omega)

theorem getD_writeAt (c : List UInt8) (offset : Nat) (data : List UInt8) (i : Nat) :
    (writeAt c offset data).getD i 0 =
      if offset ≤ i ∧ i < offset + data.length then data.getD (i - offset) 0 else c.getD i 0 := by
  unfold writeAt
  split
  next hnil => simp [hnil]
  next =>
    rw [append_assoc]
    by_cases hlow : i < offset
    · rw [getD_append _ _ _ _ (by simpa using hlow), getD_setLen, if_pos hlow,
        if_neg (by omega)]
    · rw [getD_append_right _ _ _ _ (by simpa using Nat.le_of_not_lt hlow), length_setLen]
      by_cases hin : i < offset + data.length
      · rw [getD_append _ _ _ _ (by omega), if_pos ⟨Nat.le_of_not_lt hlow, hin⟩]
      · rw [getD_append_right _ _ _ _ (by omega), if_neg (fun h => hin h.2),
          getD_eq_getElem?_getD, getElem?_drop, ← getD_eq_getElem?_getD]
        congr 1
        omega

theorem length_writeAt {data : List UInt8} (h : data ≠ []) (c : List UInt8) (offset : Nat) :
    (writeAt c offset data).length = max c.length (offset + data.length) := by
  rw [writeAt, if_neg h, length_append, length_append, length_setLen, length_drop]
  omega

theorem ext_getD {c d : List UInt8} (hlen : c.length = d.length)
    (h : ∀ i < c.length, c.getD i 0 = d.getD i 0) : c = d := by
  refine ext_getElem hlen fun i hc hd => ?_
  have hi := h i hc
  rwa [getD_eq_getElem _ _ hc, getD_eq_getElem _ _ hd] at hi

/-! ### Pieces -/

/-- A piece of a file: where it goes, and its bytes. -/
abbrev Piece := Nat × List UInt8

/-- The position is one of the piece. -/
def Piece.Covers (p : Piece) (i : Nat) : Prop := p.1 ≤ i ∧ i < p.1 + p.2.length

instance (p : Piece) (i : Nat) : Decidable (p.Covers i) := inferInstanceAs (Decidable (_ ∧ _))

/-- No position is of both pieces. -/
def Apart (p q : Piece) : Prop := ∀ i, p.Covers i → ¬ q.Covers i

theorem Apart.symm {p q : Piece} (h : Apart p q) : Apart q p := fun i hq hp => h i hp hq

/-- Each piece starts where the one before it ends. -/
def EndToEnd : Nat → List Piece → Prop
  | _, [] => True
  | start, p :: l => p.1 = start ∧ EndToEnd (start + p.2.length) l

def joined (l : List Piece) : List UInt8 := l.flatMap (·.2)

theorem EndToEnd.le {start : Nat} {l : List Piece} (h : EndToEnd start l) {p : Piece} (hp : p ∈ l) :
    start ≤ p.1 := by
  induction l generalizing start with
  | nil => nomatch hp
  | cons q l ih =>
    rcases mem_cons.mp hp with rfl | hp
    · exact h.1.ge
    · exact le_trans (Nat.le_add_right _ _) (ih h.2 hp)

theorem EndToEnd.end_le {start : Nat} {l : List Piece} (h : EndToEnd start l) {p : Piece}
    (hp : p ∈ l) : p.1 + p.2.length ≤ start + (joined l).length := by
  induction l generalizing start with
  | nil => nomatch hp
  | cons q l ih =>
    have hcons : joined (q :: l) = q.2 ++ joined l := flatMap_cons
    rw [hcons, length_append]
    rcases mem_cons.mp hp with rfl | hp
    · have hstart := h.1
      omega
    · have hrest := ih h.2 hp
      omega

theorem EndToEnd.pairwise {start : Nat} {l : List Piece} (h : EndToEnd start l) :
    l.Pairwise fun p q => p.1 + p.2.length ≤ q.1 := by
  induction l generalizing start with
  | nil => exact .nil
  | cons p l ih =>
    obtain ⟨hp, hl⟩ := h
    exact .cons (fun q hq => hp ▸ hl.le hq) (ih hl)

theorem EndToEnd.apart {start : Nat} {l : List Piece} (h : EndToEnd start l) :
    l.Pairwise Apart :=
  h.pairwise.imp fun hle i hp hq => by
    have h1 := hp.2
    have h2 := hq.1
    omega

theorem EndToEnd.exists_covers {start : Nat} {l : List Piece} (h : EndToEnd start l) {i : Nat}
    (hi : i < (joined l).length) :
    ∃ p ∈ l, ∃ k < p.2.length, start + i = p.1 + k ∧ (joined l).getD i 0 = p.2.getD k 0 := by
  induction l generalizing start i with
  | nil => nomatch hi
  | cons p l ih =>
    obtain ⟨hp, hl⟩ := h
    have hcons : joined (p :: l) = p.2 ++ joined l := flatMap_cons
    rw [hcons] at hi ⊢
    by_cases hin : i < p.2.length
    · exact ⟨p, mem_cons_self, i, hin, by rw [hp], getD_append _ _ _ _ hin⟩
    · have hsub : i - p.2.length < (joined l).length := by
        rw [length_append] at hi
        omega
      obtain ⟨q, hq, k, hk, hpos, hbyte⟩ := ih hl hsub
      refine ⟨q, mem_cons_of_mem _ hq, k, hk, by omega, ?_⟩
      rw [getD_append_right _ _ _ _ (by omega), hbyte]

/-! ### Writing the pieces -/

/-- The bytes of a file with a piece written over them. -/
def overlay (b : Nat → UInt8) (p : Piece) : Nat → UInt8 := fun i =>
  if p.Covers i then p.2.getD (i - p.1) 0 else b i

theorem writeAt_overlay (c : List UInt8) (p : Piece) :
    (fun i => (writeAt c p.1 p.2).getD i 0) = overlay (fun i => c.getD i 0) p := by
  funext i
  rw [getD_writeAt, overlay]
  by_cases h : p.Covers i
  · rw [if_pos h, if_pos ⟨h.1, h.2⟩]
  · rw [if_neg h]
    exact if_neg h

theorem foldl_writeAt_overlay (l : List Piece) (c : List UInt8) :
    (fun i => (l.foldl (fun c p => writeAt c p.1 p.2) c).getD i 0) =
      l.foldl overlay fun i => c.getD i 0 := by
  induction l generalizing c with
  | nil => rfl
  | cons p l ih => rw [foldl_cons, ih, foldl_cons, writeAt_overlay]

theorem foldl_overlay_of_not_covers (l : List Piece) (b : Nat → UInt8) {i : Nat}
    (h : ∀ p ∈ l, ¬ p.Covers i) : l.foldl overlay b i = b i := by
  induction l generalizing b with
  | nil => rfl
  | cons p l ih =>
    rw [foldl_cons, ih _ fun q hq => h q (mem_cons_of_mem _ hq)]
    exact if_neg (h p mem_cons_self)

theorem foldl_overlay_of_covers (l : List Piece) (b : Nat → UInt8) (hl : l.Pairwise Apart)
    {p : Piece} (hp : p ∈ l) {k : Nat} (hk : k < p.2.length) :
    l.foldl overlay b (p.1 + k) = p.2.getD k 0 := by
  induction l generalizing b with
  | nil => nomatch hp
  | cons q l ih =>
    obtain ⟨hq, hl⟩ := pairwise_cons.mp hl
    have hcov : p.Covers (p.1 + k) := ⟨Nat.le_add_right _ _, by omega⟩
    rcases mem_cons.mp hp with rfl | hp
    · rw [foldl_cons, foldl_overlay_of_not_covers l _ fun r hr => hq r hr _ hcov, overlay,
        if_pos hcov, Nat.add_sub_cancel_left]
    · exact ih _ hl hp

/-- **The order of the writes does not matter.** -/
theorem foldl_overlay_of_perm {l m : List Piece} (hm : m.Perm l) (hl : EndToEnd 0 l)
    (b : Nat → UInt8) {i : Nat} (hi : i < (joined l).length) :
    m.foldl overlay b i = (joined l).getD i 0 := by
  obtain ⟨p, hp, k, hk, hpos, hbyte⟩ := hl.exists_covers hi
  have hapart : m.Pairwise Apart := (hm.pairwise_iff fun h => h.symm).mpr hl.apart
  rw [hbyte, ← Nat.zero_add i, hpos]
  exact foldl_overlay_of_covers m b hapart (hm.mem_iff.mpr hp) hk

end Bytes
