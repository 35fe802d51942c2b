import Mathlib.Algebra.Order.BigOperators.Group.List
import Mathlib.Data.List.MinMax
import Nzbd.Lib.Greedy
import Nzbd.Engine.Command

/-!
# Recovery volumes that are fetched later

The recovery volumes of a job are paused until repair asks for so many blocks.  A volume is priced
by its name, or by its size and the size of a block; the smallest volume that covers the need is
taken, or else the largest ones until they do.

The counts are numbers of 32 bits, and every addition may overflow: in a name that says
`vol0-4294967295`, where the sum of the volumes taken goes past the need by more than there is room
for, and where the blocks that have been freed are added up once more.  `none` stands for that, and
`delayedPar_iff` says when nothing of it happens; then the choice is as small as can be, and every
call that is answered with blocks has freed a volume.
-/

namespace Nzbd.DelayedPar

open List Greedy Engine

/-! ### Prices -/

/-- The number a text starts with. -/
def digits (s : Text) : Option Nat :=
  Numeral.fromStrRadix 10 (2 ^ 32) (s.takeWhile Char.isDigit)

/-- What stands behind the last `.vol`, in lower case. -/
def behindVol (filename : Text) : Option Text :=
  let lower := toAsciiLowercase filename
  (rfind (text ".vol") lower).map fun vol => lower.drop (vol + 4)

/-- From the first sign on. -/
def fromSign (rest : Text) : Text := rest.dropWhile fun c => c ≠ '+' && c ≠ '-'

/-- The blocks a name speaks of, if it does. -/
def volParBlocks (filename : Text) : Option (Option Nat) :=
  match behindVol filename with
  | none => some none
  | some rest =>
    match fromSign rest with
    | [] => some none
    | sign :: behind =>
      match digits behind with
      | none => some none
      | some count =>
        if sign = '+' then some (some count)
        else
          -- the first number is the starting block
          match digits rest with
          | none => some none
          | some start =>
            match Checked.sub count start with
            | none => some none
            | some n => (Checked.add 32 n 1).map some

structure ParCandidate where
  id : FileId
  blocks : Nat
  bytes : Nat
  /-- Priced by its size. -/
  estimated : Bool
  deriving DecidableEq

def isPausedPar (f : FileEntry) : Bool := f.paused && f.isPar2

def pausedPars (job : Job) : List FileEntry := job.files.filter isPausedPar

def fileBytes (f : FileEntry) : Nat := (f.segments.map (·.size)).sum

/-- The price of a volume, if it has one. -/
def priceOf (blockSize : Option Nat) (f : FileEntry) : Option (ParCandidate ⊕ FileId) :=
  (volParBlocks f.filename).map fun
    | some blocks => .inl ⟨f.id, max blocks 1, fileBytes f, false⟩
    | none =>
      match blockSize.filter (0 < ·) with
      | some size => .inl ⟨f.id, min (max (fileBytes f / size) 1) (2 ^ 32 - 1), fileBytes f, true⟩
      | none => .inr f.id

/-- The volumes that have a price, and those that do not. -/
def pricePausedPars (job : Job) (blockSize : Option Nat) :
    Option (List ParCandidate × List FileId) :=
  ((pausedPars job).mapM (priceOf blockSize)).map fun prices =>
    (prices.filterMap Sum.getLeft?, prices.filterMap Sum.getRight?)

def smallestPausedPar (job : Job) : Option FileId :=
  ((pausedPars job).argmin fileBytes).map (·.id)

/-! ### The choice -/

def ascending (candidates : List (FileId × Nat)) : List (FileId × Nat) :=
  candidates.insertionSort fun c d => c.2 ≤ d.2

def pickParFiles (candidates : List (FileId × Nat)) (needed : Nat) : Option (List FileId) :=
  match (ascending candidates).find? fun c => needed ≤ c.2 with
  | some c => some [c.1]
  | none =>
    (accumulate 32 needed Prod.snd 0 (ascending candidates).reverse).map fun out => out.map Prod.fst

structure Unpaused where
  freed : Nat
  /-- The volumes that go on, with their blocks. -/
  picked : List (FileId × Nat)

def unpauseParBlocks (job : Job) (blocks : Nat) (blockSize : Option Nat) : Option Unpaused :=
  if pausedPars job = [] then some ⟨0, []⟩
  else
    (pricePausedPars job blockSize).bind fun (priced, _) =>
      if priced = [] then
        -- nothing can be priced, and the smallest one is a probe
        some ⟨1, (smallestPausedPar job).toList.map fun id => (id, 1)⟩
      else
        (pickParFiles (priced.map fun c => (c.id, c.blocks)) (max blocks 1)).bind fun out =>
          let chosen := priced.filter (·.id ∈ out)
          (Checked.sumFrom 32 0 (chosen.map (·.blocks))).map fun freed =>
            ⟨freed, chosen.map fun c => (c.id, c.blocks)⟩

def unpaused (job : Job) (u : Unpaused) : Job :=
  if u.freed = 0 then job else recomputeJobTotals (Owner.unpauseFiles (u.picked.map (·.1)) job)

/-! ### Names -/

/-- The name says `0-4294967295`. -/
def FullRange (filename : Text) : Prop :=
  ∃ rest behind, behindVol filename = some rest ∧ fromSign rest = '-' :: behind ∧
    digits rest = some 0 ∧ digits behind = some (2 ^ 32 - 1)

theorem digits_lt {s : Text} {n : Nat} (h : digits s = some n) : n < 2 ^ 32 := by
  have hread : ∀ l : List Char, (if l = [] then none
      else (Numeral.readDigits 10 0 l).filter (· < 2 ^ 32)) = some n → n < 2 ^ 32 := by
    intro l hl
    split at hl
    · cases hl
    · exact of_decide_eq_true (Option.filter_eq_some_iff.mp hl).2
  exact hread _ h

theorem sign_of_fromSign {rest behind : Text} {sign : Char} (h : fromSign rest = sign :: behind) :
    sign = '+' ∨ sign = '-' := by
  have hhead := head?_dropWhile_not (fun c => c ≠ '+' && c ≠ '-') rest
  rw [show rest.dropWhile (fun c => c ≠ '+' && c ≠ '-') = sign :: behind from h] at hhead
  simp only [head?_cons] at hhead
  by_cases hplus : sign = '+'
  · exact .inl hplus
  · refine .inr ?_
    simpa [hplus] using hhead

/-- **What a name says overflows in one case.** -/
theorem volParBlocks_eq_none {filename : Text} :
    volParBlocks filename = none ↔ FullRange filename := by
  constructor
  · intro h
    unfold volParBlocks at h
    split at h
    · cases h
    · next rest hvol =>
      split at h
      · cases h
      · next sign behind hsign =>
        split at h
        · cases h
        · next count hcount =>
          split at h
          · cases h
          · next hplus =>
            split at h
            · cases h
            · next start hstart =>
              split at h
              · cases h
              · next n hsub =>
                have hadd := Checked.add_eq_none.mp (Option.map_eq_none_iff.mp h)
                have hlt := digits_lt hcount
                obtain ⟨hle, rfl⟩ : start ≤ count ∧ count - start = n := by
                  unfold Checked.sub at hsub
                  split at hsub
                  · next hle => exact ⟨hle, Option.some.inj hsub⟩
                  · cases hsub
                obtain rfl : sign = '-' := (sign_of_fromSign hsign).resolve_left hplus
                obtain rfl : start = 0 := by omega
                obtain rfl : count = 2 ^ 32 - 1 := by omega
                exact ⟨rest, behind, hvol, hsign, hstart, hcount⟩
  · rintro ⟨rest, behind, hvol, hsign, hstart, hcount⟩
    unfold volParBlocks
    simp only [hvol, hsign, hcount, hstart]
    rfl

theorem volParBlocks_lt {filename : Text} {n : Nat} (h : volParBlocks filename = some (some n)) :
    n < 2 ^ 32 := by
  unfold volParBlocks at h
  repeat' split at h
  all_goals try cases h
  · next hcount => exact digits_lt hcount
  · obtain ⟨m, hadd, hm⟩ := Option.map_eq_some_iff.mp h
    obtain ⟨hlt, rfl⟩ := Checked.fit_eq_some.mp hadd
    rw [← Option.some.inj hm]
    exact hlt

/-! ### The choice -/

variable {candidates picked other : List (FileId × Nat)} {needed k : Nat}

/-- The largest first. -/
def descending (candidates : List (FileId × Nat)) : List (FileId × Nat) :=
  (ascending candidates).reverse

theorem descending_perm (candidates : List (FileId × Nat)) :
    (descending candidates).Perm candidates :=
  (reverse_perm _).trans (perm_insertionSort _ _)

theorem pairwise_descending (candidates : List (FileId × Nat)) :
    (descending candidates).Pairwise fun c d => d.2 ≤ c.2 := by
  refine pairwise_reverse.mpr ?_
  have : Std.Total fun c d : FileId × Nat => c.2 ≤ d.2 := ⟨fun c d => Nat.le_total c.2 d.2⟩
  have : IsTrans (FileId × Nat) fun c d => c.2 ≤ d.2 := ⟨fun _ _ _ => Nat.le_trans⟩
  exact pairwise_insertionSort _ candidates

/-- **The condition**: the first sum of the largest counts that reaches the need is a number of 32
bits. -/
def Fits (candidates : List (FileId × Nat)) (needed : Nat) : Prop :=
  ∀ k, top Prod.snd (descending candidates) k < needed →
    top Prod.snd (descending candidates) (k + 1) < 2 ^ 32

/-- As few as can be are chosen, if there are enough, and else all. -/
def Covers (candidates : List (FileId × Nat)) (needed : Nat) : Prop :=
  ∃ picked : List (FileId × Nat), pickParFiles candidates needed = some (picked.map Prod.fst) ∧
    picked.Subperm candidates ∧
    (needed ≤ (candidates.map Prod.snd).sum → needed ≤ (picked.map Prod.snd).sum ∧
      ∀ other : List (FileId × Nat), other.Subperm candidates →
        needed ≤ (other.map Prod.snd).sum → picked.length ≤ other.length) ∧
    ((candidates.map Prod.snd).sum < needed → picked.Perm candidates)

theorem covers_of_find {c : FileId × Nat} (hneeded : 1 ≤ needed)
    (h : (ascending candidates).find? (fun c => needed ≤ c.2) = some c) :
    c ∈ candidates ∧ needed ≤ c.2 ∧ Covers candidates needed := by
  have hmem : c ∈ candidates := (perm_insertionSort _ _).mem_iff.mp (mem_of_find?_eq_some h)
  have hle : needed ≤ c.2 := by simpa using find?_some h
  refine ⟨hmem, hle, [c], ?_, singleton_subperm_iff.mpr hmem, fun _ => ⟨?_, ?_⟩, fun hshort => ?_⟩
  · unfold pickParFiles
    rw [h]
    rfl
  · simpa using hle
  · intro other _ hsum
    cases other with
    | nil => simp at hsum; omega
    | cons x other => simp
  · have := le_sum_of_mem (mem_map_of_mem (f := Prod.snd) hmem)
    omega

theorem fits_of_find {c : FileId × Nat} (hblocks : ∀ c ∈ candidates, c.2 < 2 ^ 32)
    (hmem : c ∈ candidates) (hle : needed ≤ c.2) : Fits candidates needed := by
  intro k hk
  have hmem' : c ∈ descending candidates := (descending_perm candidates).mem_iff.mpr hmem
  have hsorted := pairwise_descending candidates
  cases hd : descending candidates with
  | nil =>
    rw [hd] at hmem'
    cases hmem'
  | cons x l =>
    rw [hd] at hmem' hsorted hk
    have hx : x ∈ candidates := (descending_perm candidates).mem_iff.mp (hd ▸ mem_cons_self)
    have hlargest : c.2 ≤ x.2 := by
      rcases mem_cons.mp hmem' with rfl | hc
      · exact le_rfl
      · exact (pairwise_cons.mp hsorted).1 c hc
    cases k with
    | zero =>
      rw [top_cons_succ, top_zero]
      exact hblocks x hx
    | succ k =>
      rw [top_cons_succ] at hk
      omega

theorem sum_descending (candidates : List (FileId × Nat)) :
    ((descending candidates).map Prod.snd).sum = (candidates.map Prod.snd).sum :=
  ((descending_perm candidates).map Prod.snd).sum_eq

/-- **The largest ones, until they cover the need.** -/
theorem covers_of_accumulate {out : List (FileId × Nat)}
    (hnone : (ascending candidates).find? (fun c => needed ≤ c.2) = none)
    (h : accumulate 32 needed Prod.snd 0 (descending candidates) = some out) :
    Covers candidates needed := by
  obtain ⟨k, rfl, hreaches⟩ := reaches_accumulate h
  have hperm := descending_perm candidates
  have hsub : ((descending candidates).take k).Subperm candidates :=
    (take_sublist k _).subperm.trans hperm.subperm
  refine ⟨_, ?_, hsub, fun hsum => ⟨?_, fun other hother hcovers => ?_⟩, fun hshort => ?_⟩
  · unfold pickParFiles
    rw [hnone]
    exact congrArg (Option.map _) h
  · rcases hreaches.enough with henough | hall
    · exact henough
    · rw [hall, take_length, sum_descending]
      exact hsum
  · have hleast := hreaches.least (pairwise_descending candidates) (hother.trans hperm.symm.subperm)
      hcovers
    exact (length_take_le _ _).trans hleast
  · have hall := hreaches.eq_length (by rw [sum_descending]; exact hshort)
    rw [hall, take_length]
    exact hperm

theorem accumulate_isSome_iff (hneeded : needed < 2 ^ 32) :
    (accumulate 32 needed Prod.snd 0 (descending candidates)).isSome ↔ Fits candidates needed := by
  rw [accumulate_isSome 0 _ (by decide)]
  simp only [Nat.zero_add]
  constructor
  · intro h k hk
    by_cases hlength : k < (descending candidates).length
    · exact h k hlength hk
    · rw [top_of_length_le (by omega)]
      rw [top_of_length_le (by omega)] at hk
      omega
  · exact fun h k _ hk => h k hk

theorem fits_of_pick {out : List FileId} (hblocks : ∀ c ∈ candidates, c.2 < 2 ^ 32)
    (hneeded : 1 ≤ needed) (hlt : needed < 2 ^ 32) (h : pickParFiles candidates needed = some out) :
    Fits candidates needed := by
  cases hfind : (ascending candidates).find? (fun c => needed ≤ c.2) with
  | some c =>
    obtain ⟨hmem, hle, -⟩ := covers_of_find hneeded hfind
    exact fits_of_find hblocks hmem hle
  | none =>
    unfold pickParFiles at h
    rw [hfind] at h
    obtain ⟨l, hl, -⟩ := Option.map_eq_some_iff.mp h
    rw [← accumulate_isSome_iff hlt, descending, hl]
    rfl

/-- **The choice is exact where the sum fits.** -/
theorem covers_iff (hblocks : ∀ c ∈ candidates, c.2 < 2 ^ 32) (hneeded : 1 ≤ needed)
    (hlt : needed < 2 ^ 32) : Covers candidates needed ↔ Fits candidates needed := by
  constructor
  · rintro ⟨picked, hpick, -⟩
    exact fits_of_pick hblocks hneeded hlt hpick
  · intro h
    cases hfind : (ascending candidates).find? (fun c => needed ≤ c.2) with
    | some c => exact (covers_of_find hneeded hfind).2.2
    | none =>
      obtain ⟨out, hout⟩ := Option.isSome_iff_exists.mp ((accumulate_isSome_iff hlt).mpr h)
      exact covers_of_accumulate hfind hout

theorem picked_of_fits (hblocks : ∀ c ∈ candidates, c.2 < 2 ^ 32) (hneeded : 1 ≤ needed)
    (hlt : needed < 2 ^ 32) (h : Fits candidates needed) :
    ∃ picked : List (FileId × Nat), pickParFiles candidates needed = some (picked.map Prod.fst) ∧
      picked.Subperm candidates ∧ (picked.map Prod.snd).sum < 2 ^ 32 ∧
      (candidates ≠ [] → picked ≠ []) := by
  unfold pickParFiles
  cases hfind : (ascending candidates).find? (fun c => needed ≤ c.2) with
  | some c =>
    obtain ⟨hmem, -, -⟩ := covers_of_find hneeded hfind
    refine ⟨[c], rfl, singleton_subperm_iff.mpr hmem, ?_, fun _ => cons_ne_nil _ _⟩
    simpa using hblocks c hmem
  | none =>
    obtain ⟨out, hout⟩ := Option.isSome_iff_exists.mp ((accumulate_isSome_iff hlt).mpr h)
    obtain ⟨k, rfl, hreaches⟩ := reaches_accumulate hout
    refine ⟨_, congrArg (Option.map _) hout,
      (take_sublist k _).subperm.trans (descending_perm candidates).subperm, ?_, ?_⟩
    · cases k with
      | zero => simp
      | succ k => exact h k (hreaches.fewer k (Nat.lt_succ_self k))
    · intro hne hempty
      have hlength : 0 < (descending candidates).length := by
        rw [(descending_perm candidates).length_eq]
        exact length_pos_iff.mpr hne
      have hk : k = 0 := by
        rcases take_eq_nil_iff.mp hempty with hk | hnil
        · exact hk
        · rw [hnil] at hlength
          exact absurd hlength (Nat.lt_irrefl 0)
      subst hk
      have henough := hreaches.enough
      rw [top_zero] at henough
      omega

/-! ### The prices of a job -/

section Unpause

variable {job : Job} {blockSize : Option Nat} {blocks : Nat} {priced : List ParCandidate}
  {unpriceable : List FileId} {f : FileEntry} {c : ParCandidate}

/-- The candidates as the choice sees them. -/
def pairs (priced : List ParCandidate) : List (FileId × Nat) := priced.map fun c => (c.id, c.blocks)

theorem priceOf_eq_none (blockSize : Option Nat) (f : FileEntry) :
    priceOf blockSize f = none ↔ FullRange f.filename := by
  rw [← volParBlocks_eq_none]
  exact Option.map_eq_none_iff

theorem pricePausedPars_isSome : (pricePausedPars job blockSize).isSome ↔
    ∀ f ∈ pausedPars job, ¬FullRange f.filename := by
  have hlist : ∀ l : List FileEntry,
      (l.mapM (priceOf blockSize)).isSome ↔ ∀ f ∈ l, ¬FullRange f.filename := by
    intro l
    induction l with
    | nil => simp
    | cons f l ih =>
      rw [forall_mem_cons, ← ih, ← priceOf_eq_none blockSize f, mapM_cons]
      cases priceOf blockSize f <;> cases l.mapM (priceOf blockSize) <;> simp
  unfold pricePausedPars
  rw [Option.isSome_map]
  exact hlist _

theorem priceOf_left (h : priceOf blockSize f = some (.inl c)) :
    c.id = f.id ∧ 1 ≤ c.blocks ∧ c.blocks < 2 ^ 32 := by
  obtain ⟨count, hcount, hprice⟩ := Option.map_eq_some_iff.mp h
  cases count with
  | some blocks =>
    obtain rfl := Sum.inl.inj hprice
    have hlt := volParBlocks_lt hcount
    refine ⟨rfl, le_max_right _ _, ?_⟩
    change max blocks 1 < 2 ^ 32
    omega
  | none =>
    cases hsize : blockSize.filter (0 < ·) with
    | none => simp [hsize] at hprice
    | some size =>
      simp only [hsize] at hprice
      obtain rfl := Sum.inl.inj hprice
      refine ⟨rfl, ?_, ?_⟩
      · change 1 ≤ min (max _ 1) (2 ^ 32 - 1)
        omega
      · change min (max _ 1) (2 ^ 32 - 1) < 2 ^ 32
        omega

theorem priced_spec (h : pricePausedPars job blockSize = some (priced, unpriceable)) :
    (priced.map (·.id)).Sublist ((pausedPars job).map (·.id)) ∧
      ∀ c ∈ priced, 1 ≤ c.blocks ∧ c.blocks < 2 ^ 32 := by
  have hlist : ∀ (l : List FileEntry) prices, l.mapM (priceOf blockSize) = some prices →
      ((prices.filterMap Sum.getLeft?).map (·.id)).Sublist (l.map (·.id)) ∧
        ∀ c ∈ prices.filterMap Sum.getLeft?, 1 ≤ c.blocks ∧ c.blocks < 2 ^ 32 := by
    intro l
    induction l with
    | nil =>
      rintro prices hprices
      obtain rfl : [] = prices := by simpa using hprices
      simp
    | cons f l ih =>
      intro prices hprices
      rw [mapM_cons] at hprices
      obtain ⟨price, hprice, hprices⟩ := Option.bind_eq_some_iff.mp hprices
      obtain ⟨rest, hrest, hprices⟩ := Option.bind_eq_some_iff.mp hprices
      obtain rfl : price :: rest = prices := Option.some.inj hprices
      obtain ⟨hsub, hblocks⟩ := ih rest hrest
      cases price with
      | inl c =>
        obtain ⟨hid, hc⟩ := priceOf_left hprice
        simp only [filterMap_cons, Sum.getLeft?_inl, map_cons, hid,
          forall_mem_cons]
        exact ⟨hsub.cons_cons _, hc, hblocks⟩
      | inr id =>
        simp only [filterMap_cons, Sum.getLeft?_inr, map_cons]
        exact ⟨hsub.cons _, hblocks⟩
  obtain ⟨prices, hprices, heq⟩ := Option.map_eq_some_iff.mp h
  obtain rfl := (Prod.mk.inj heq).1
  exact hlist _ prices hprices

theorem pairs_lt (h : pricePausedPars job blockSize = some (priced, unpriceable)) :
    ∀ p ∈ pairs priced, p.2 < 2 ^ 32 := by
  intro p hp
  obtain ⟨c, hc, rfl⟩ := mem_map.mp hp
  exact ((priced_spec h).2 c hc).2

theorem chosen_perm (hnodup : (priced.map (·.id)).Nodup) {picked : List (FileId × Nat)}
    (h : picked.Subperm (pairs priced)) :
    (pairs (priced.filter (·.id ∈ picked.map Prod.fst))).Perm picked := by
  have hkeys : ((pairs priced).map Prod.fst).Nodup := by
    rwa [pairs, map_map]
  have hfilter : pairs (priced.filter (·.id ∈ picked.map Prod.fst)) =
      (pairs priced).filter fun c => c.1 ∈ picked.map Prod.fst := by
    rw [pairs, pairs, filter_map]
    rfl
  have hpairs : (pairs priced).Nodup := hkeys.of_map _
  have hpicked : picked.Nodup := by
    obtain ⟨m, hperm, hsub⟩ := h
    exact hperm.nodup_iff.mp (hpairs.sublist hsub)
  rw [hfilter]
  refine (perm_ext_iff_of_nodup (hpairs.filter _) hpicked).mpr fun c => ?_
  rw [mem_filter, decide_eq_true_iff]
  constructor
  · rintro ⟨hc, hid⟩
    obtain ⟨d, hd, heq⟩ := mem_map.mp hid
    exact inj_on_of_nodup_map hkeys (h.subset hd) hc heq ▸ hd
  · exact fun hc => ⟨h.subset hc, mem_map_of_mem hc⟩

/-! ### Unpausing -/

/-- Nothing overflows, the answer is positive as long as there is a paused volume, and then one of
them goes on. -/
def Unpauses (job : Job) (blocks : Nat) (blockSize : Option Nat) : Prop :=
  ∃ u, unpauseParBlocks job blocks blockSize = some u ∧ u.freed < 2 ^ 32 ∧
    (0 < u.freed ↔ pausedPars job ≠ []) ∧
    (0 < u.freed → (pausedPars (unpaused job u)).length < (pausedPars job).length)

/-- **The condition**: no name says `0-4294967295`, and the choice among the prices fits. -/
def Priceable (job : Job) (blocks : Nat) (blockSize : Option Nat) : Prop :=
  (∀ f ∈ pausedPars job, ¬FullRange f.filename) ∧
    ∀ priced unpriceable, pricePausedPars job blockSize = some (priced, unpriceable) →
      Fits (pairs priced) (max blocks 1)

theorem pausedPars_unpauseFiles (ids : List FileId) (job : Job) :
    pausedPars (Owner.unpauseFiles ids job) = (pausedPars job).filter (·.id ∉ ids) := by
  unfold pausedPars Owner.unpauseFiles
  simp only []
  induction job.files with
  | nil => rfl
  | cons f files ih =>
    rw [map_cons]
    by_cases hf : f.id ∈ ids
    · rw [if_pos hf, filter_cons_of_neg (by simp [isPausedPar]), ih]
      cases hp : isPausedPar f with
      | false => rw [filter_cons_of_neg (by simp [hp])]
      | true => rw [filter_cons_of_pos hp, filter_cons_of_neg (by simp [hf])]
    · rw [if_neg hf]
      cases hp : isPausedPar f with
      | false => rw [filter_cons_of_neg (by simp [hp]), filter_cons_of_neg (by simp [hp]), ih]
      | true =>
        rw [filter_cons_of_pos hp, filter_cons_of_pos hp,
          filter_cons_of_pos (by simp [hf]), ih]

/-- **A volume that is picked goes on.** -/
theorem length_unpaused {u : Unpaused} (hfreed : 0 < u.freed)
    (h : ∃ f ∈ pausedPars job, f.id ∈ u.picked.map (·.1)) :
    (pausedPars (unpaused job u)).length < (pausedPars job).length := by
  have hfiles : pausedPars (unpaused job u) =
      pausedPars (Owner.unpauseFiles (u.picked.map (·.1)) job) := by
    unfold unpaused
    rw [if_neg hfreed.ne']
    rfl
  rw [hfiles, pausedPars_unpauseFiles]
  obtain ⟨f, hf, hid⟩ := h
  exact length_filter_lt_length_iff_exists.mpr ⟨f, hf, by simpa using hid⟩

theorem smallestPausedPar_mem {id : FileId} (h : smallestPausedPar job = some id) :
    ∃ f ∈ pausedPars job, f.id = id := by
  obtain ⟨f, hf, rfl⟩ := Option.map_eq_some_iff.mp h
  exact ⟨f, argmin_mem hf, rfl⟩

theorem unpauses_of_priceable (hids : (job.files.map (·.id)).Nodup) (hblocks : blocks < 2 ^ 32)
    (h : Priceable job blocks blockSize) : Unpauses job blocks blockSize := by
  unfold Unpauses unpauseParBlocks
  by_cases hnone : pausedPars job = []
  · rw [if_pos hnone]
    exact ⟨⟨0, []⟩, rfl, by decide, iff_of_false (Nat.lt_irrefl 0) (not_not_intro hnone),
      fun hlt => absurd hlt (Nat.lt_irrefl 0)⟩
  rw [if_neg hnone]
  obtain ⟨⟨priced, unpriceable⟩, hpriced⟩ :=
    Option.isSome_iff_exists.mp (pricePausedPars_isSome.mpr h.1)
  obtain ⟨hsub, hprices⟩ := priced_spec hpriced
  rw [hpriced, Option.bind_some]
  by_cases hempty : priced = []
  · -- nothing is priced, and the smallest volume is the probe
    simp only [if_pos hempty]
    refine ⟨_, rfl, show 1 < 2 ^ 32 by decide, iff_of_true (Nat.succ_pos 0) hnone, fun _ => ?_⟩
    cases hsmallest : smallestPausedPar job with
    | none =>
      have hargmin := argmin_eq_none.mp (Option.map_eq_none_iff.mp hsmallest)
      exact absurd hargmin hnone
    | some id =>
      obtain ⟨f, hf, rfl⟩ := smallestPausedPar_mem hsmallest
      exact length_unpaused (Nat.succ_pos 0) ⟨f, hf, by simp⟩
  · simp only [if_neg hempty]
    have hnodup : (priced.map (·.id)).Nodup := by
      have hpaused : ((pausedPars job).map (·.id)).Nodup :=
        hids.sublist (filter_sublist.map _)
      exact hpaused.sublist hsub
    have hneeded : max blocks 1 < 2 ^ 32 := by omega
    have hcandidates := pairs_lt hpriced
    obtain ⟨picked, hpick, hsubperm, hsum, hsome⟩ :=
      picked_of_fits hcandidates (le_max_right _ _) hneeded (h.2 priced unpriceable hpriced)
    have hperm := chosen_perm hnodup hsubperm
    rw [show pickParFiles (priced.map fun c => (c.id, c.blocks)) (max blocks 1) =
      some (picked.map Prod.fst) from hpick, Option.bind_some]
    have hfreed : ((priced.filter (·.id ∈ picked.map Prod.fst)).map (·.blocks)).sum =
        (picked.map Prod.snd).sum := by
      rw [← (hperm.map Prod.snd).sum_eq, pairs, map_map]
      rfl
    rw [Checked.sumFrom_eq _ (by decide), Nat.zero_add, hfreed, Checked.fit_of_lt hsum,
      Option.map_some]
    obtain ⟨c, hc⟩ := exists_mem_of_ne_nil _ (hsome (by simpa [pairs] using hempty))
    obtain ⟨d, hd, hdc⟩ := mem_map.mp (hsubperm.subset hc)
    have hpositive : 0 < (picked.map Prod.snd).sum := by
      have hone := (hprices d hd).1
      have hle := le_sum_of_mem (mem_map_of_mem (f := Prod.snd) hc)
      rw [← hdc] at hle
      exact Nat.lt_of_lt_of_le hone hle
    refine ⟨_, rfl, hsum, iff_of_true hpositive hnone, fun _ => length_unpaused hpositive ?_⟩
    obtain ⟨f, hf, hfd⟩ := mem_map.mp (hsub.subset (mem_map_of_mem hd))
    refine ⟨f, hf, ?_⟩
    have hchosen : d ∈ priced.filter (·.id ∈ picked.map Prod.fst) := by
      rw [mem_filter, decide_eq_true_iff]
      exact ⟨hd, mem_map.mpr ⟨c, hc, by rw [← hdc]⟩⟩
    rw [hfd]
    exact mem_map.mpr ⟨(d.id, d.blocks), mem_map_of_mem hchosen, rfl⟩

theorem priceable_of_answer {u : Unpaused} (hblocks : blocks < 2 ^ 32)
    (hu : unpauseParBlocks job blocks blockSize = some u) : Priceable job blocks blockSize := by
  unfold unpauseParBlocks at hu
  have hneeded : max blocks 1 < 2 ^ 32 := by omega
  have hnil : Fits (pairs []) (max blocks 1) := by
    intro k _
    rw [show descending (pairs []) = [] by simp [descending, ascending, pairs],
      top_of_length_le (Nat.zero_le _)]
    decide
  split at hu
  · next hnone =>
    refine ⟨by simp [hnone], fun priced unpriceable hpriced => ?_⟩
    obtain ⟨hsub, -⟩ := priced_spec hpriced
    rw [hnone, map_nil, sublist_nil, map_eq_nil_iff] at hsub
    rw [hsub]
    exact hnil
  · obtain ⟨⟨priced, unpriceable⟩, hpriced, hu⟩ := Option.bind_eq_some_iff.mp hu
    refine ⟨pricePausedPars_isSome.mp (by rw [hpriced]; rfl), ?_⟩
    intro priced' unpriceable' hpriced'
    obtain ⟨rfl, rfl⟩ := Prod.mk.inj (Option.some.inj (hpriced.symm.trans hpriced'))
    simp only [] at hu
    split at hu
    · next hempty =>
      rw [hempty]
      exact hnil
    · obtain ⟨out, hout, -⟩ := Option.bind_eq_some_iff.mp hu
      exact fits_of_pick (pairs_lt hpriced) (le_max_right _ _) hneeded hout

/-- **Blocks are freed exactly as they should be where nothing overflows.** -/
theorem unpauses_iff (hids : (job.files.map (·.id)).Nodup) (hblocks : blocks < 2 ^ 32) :
    Unpauses job blocks blockSize ↔ Priceable job blocks blockSize :=
  ⟨fun ⟨_, hu, _⟩ => priceable_of_answer hblocks hu, unpauses_of_priceable hids hblocks⟩

/-! ### Rounds of repair -/

/-- So many calls in a row are answered with blocks. -/
inductive Rounds : Job → Nat → Prop
  | done (job : Job) : Rounds job 0
  | more {job : Job} {n : Nat} (blocks : Nat) (blockSize : Option Nat) {u : Unpaused}
      (hanswer : unpauseParBlocks job blocks blockSize = some u) (hblocks : blocks < 2 ^ 32)
      (hfreed : 0 < u.freed) (rest : Rounds (unpaused job u) n) : Rounds job (n + 1)

theorem ids_unpaused (job : Job) (u : Unpaused) :
    (unpaused job u).files.map (·.id) = job.files.map (·.id) := by
  unfold unpaused
  split
  · rfl
  · change (job.files.map fun f => if f.id ∈ u.picked.map (·.1) then { f with paused := false }
      else f).map (fun f : FileEntry => f.id) = _
    rw [map_map]
    refine map_congr_left fun f _ => ?_
    simp only [Function.comp_apply]
    split <;> rfl

/-- **Repeated calls end.** -/
theorem rounds_le {n : Nat} (hids : (job.files.map (·.id)).Nodup) (h : Rounds job n) :
    n ≤ (pausedPars job).length := by
  induction h with
  | done job => exact Nat.zero_le _
  | @more job n blocks blockSize u hanswer hblocks hfreed rest ih =>
    obtain ⟨u', hanswer', -, -, hless⟩ :=
      unpauses_of_priceable hids hblocks (priceable_of_answer hblocks hanswer)
    obtain rfl : u = u' := Option.some.inj (hanswer.symm.trans hanswer')
    have hrest := ih (by rw [ids_unpaused]; exact hids)
    have := hless hfreed
    omega

end Unpause

/-! ### The claim and its conditions -/

/-- **Delayed recovery volumes are chosen and freed as they should be,** except where an addition
overflows: in a name that says `0-4294967295`, or in the first sum that reaches the need. -/
theorem delayedPar_iff (filename : Text) (candidates : List (FileId × Nat)) (needed : Nat) (job : Job)
    (blocks : Nat) (blockSize : Option Nat) (n : Nat) :
    ((volParBlocks filename).isSome ↔ ¬FullRange filename) ∧
    ((∀ c ∈ candidates, c.2 < 2 ^ 32) → 1 ≤ needed → needed < 2 ^ 32 →
      (Covers candidates needed ↔ Fits candidates needed)) ∧
    ((job.files.map (·.id)).Nodup → blocks < 2 ^ 32 →
      (Unpauses job blocks blockSize ↔ Priceable job blocks blockSize)) ∧
    ((job.files.map (·.id)).Nodup → Rounds job n → n ≤ (pausedPars job).length) := by
  refine ⟨?_, covers_iff, unpauses_iff, rounds_le⟩
  rw [← volParBlocks_eq_none, Option.isSome_iff_ne_none]

/-! ### A choice that fits, and two that do not -/

def pausedJob (names : List Text) : Job :=
  { QueueState.newJob 0 1 .nzb [] [] none 0 .completed with
    files := names.zipIdx.map fun (name, id) =>
      { id, filename := name, isPar2 := true, paused := true, date := none, segments := [],
        crc32 := none, finalized := false } }

theorem fits_small : Fits [(0, 3), (1, 3)] 4 := by
  have hd : descending [(0, 3), (1, 3)] = [(1, 3), (0, 3)] := rfl
  intro k _
  rw [hd]
  match k with
  | 0 => decide
  | k + 1 =>
    rw [top_of_length_le (by simp)]
    decide

/-- Two volumes of three blocks each are both needed for four. -/
theorem delayedPar_small :
    Covers [(0, 3), (1, 3)] 4 ∧
      Unpauses (pausedJob [text "a.vol0+3.par2", text "a.vol3+3.par2"]) 4 none := by
  obtain ⟨-, hcovers, hunpauses, -⟩ := delayedPar_iff [] [(0, 3), (1, 3)] 4
    (pausedJob [text "a.vol0+3.par2", text "a.vol3+3.par2"]) 4 none 0
  refine ⟨(hcovers (by decide) (by decide) (by decide)).mpr fits_small, ?_⟩
  have hpriced : pricePausedPars (pausedJob [text "a.vol0+3.par2", text "a.vol3+3.par2"]) none =
      some ([⟨0, 3, 0, false⟩, ⟨1, 3, 0, false⟩], []) := by decide
  refine (hunpauses (by decide) (by decide)).mpr ⟨?_, ?_⟩
  · exact pricePausedPars_isSome.mp (by rw [hpriced]; rfl)
  · intro priced unpriceable h
    obtain ⟨rfl, -⟩ := Prod.mk.inj (Option.some.inj (hpriced.symm.trans h))
    exact fits_small

/-- **Both volumes are needed, and the sum of their blocks is not a number of 32 bits.** -/
theorem overflow_in_sum :
    pickParFiles [(0, 3000000000), (1, 3000000000)] 4000000000 = none ∧
      ¬Covers [(0, 3000000000), (1, 3000000000)] 4000000000 ∧
      volParBlocks (text "a.vol0-4294967295.par2") = none ∧
      ¬Unpauses (pausedJob [text "a.vol0-4294967295.par2"]) 1 none := by
  have hpick : pickParFiles [(0, 3000000000), (1, 3000000000)] 4000000000 = none := by decide
  have hname : volParBlocks (text "a.vol0-4294967295.par2") = none := by decide
  refine ⟨hpick, ?_, hname, ?_⟩
  · rintro ⟨picked, hpicked, -⟩
    rw [hpick] at hpicked
    cases hpicked
  · rintro ⟨u, hu, -⟩
    have hanswer : unpauseParBlocks (pausedJob [text "a.vol0-4294967295.par2"]) 1 none = none := by
      decide
    rw [hanswer] at hu
    cases hu

end Nzbd.DelayedPar
