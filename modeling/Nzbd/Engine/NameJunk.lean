import Nzbd.Engine.Naming
import Nzbd.Lib.Slices

/-!
# Names by the offsets of their bytes

`stripNameJunk` as the source has it, with the slices it takes: where a slice would cut a character
the process stops (`none`).

The slices of the query always exist, since they lie next to a `&` (`cutFrom_eq`).  The two bytes
behind a `%` may be the start of a character, and then the process stops; and a number may start
with a plus sign, so `%+5` is taken for an escape.  Nothing else goes wrong: `stripped_iff`.
-/

namespace Nzbd

open Option List Utf8

/-! ### The source's offsets -/

/-- The loop that looks for a `&` that starts a parameter; where the name is cut. -/
def cutFrom (name : Text) : Nat → Nat → Nat → Option Nat
  | 0, _, cut => some cut
  | fuel + 1, search, cut => do
    let window ← slice name search cut
    match findByte '&' window with
    | none => some cut
    | some a =>
      let at' := search + a
      let rest ← slice name (at' + 1) (min cut (byteLen name))
      if paramLike rest then some at' else cutFrom name fuel (at' + 1) cut

/-- The loop over the bytes; `i` : the next one. -/
def percentFrom (s : Text) : Nat → Nat → Option (List UInt8)
  | 0, _ => some []
  | fuel + 1, i =>
    match (toUtf8 s)[i]? with
    | none => some []
    | some b =>
      if b = 0x25 ∧ i + 2 < (toUtf8 s).length then do
        let digits ← slice s (i + 1) (i + 3)
        match Numeral.fromStrRadix 16 256 digits with
        | some v => (percentFrom s fuel (i + 3)).map (UInt8.ofNat v :: ·)
        | none => (percentFrom s fuel (i + 1)).map (b :: ·)
      else (percentFrom s fuel (i + 1)).map (b :: ·)

def percentOut (s : Text) : Option (List UInt8) := percentFrom s (byteLen s) 0

def percentDecodeSliced (s : Text) : Option Text :=
  if '%' ∈ s then (percentOut s).map fromUtf8Lossy else some s

/-- The name in a URL. -/
def lastSegment (raw : Text) : Text :=
  let name := trim raw
  if startsWith name (text "http://") || startsWith name (text "https://") then
    afterLast (· = '/') (name.takeWhile fun c => c ≠ '?' && c ≠ '#')
  else name

def stripNameJunkSliced (raw : Text) : Option Text := do
  let name := lastSegment raw
  let cut ← cutFrom name (byteLen name + 1) 0 ((findByte '?' name).getD (byteLen name))
  let head ← slice name 0 cut
  let decoded ← percentDecodeSliced (trim head)
  let name := [text ".nzb", text ".NZB", text ".Nzb"].foldl stripSuffix decoded
  some (trim (trimMatches (· = '.') (trim name)))

/-! ### What is to be decoded -/

/-- The text that is decoded: the name without its query. -/
def escapedName (raw : Text) : Text := trim (cutParams ((lastSegment raw).takeWhile (· ≠ '?')))

/-- The value of two hexadecimal digits. -/
def hexPair (c d : Char) : Option Nat :=
  (Numeral.digitVal 16 c).bind fun h => (Numeral.digitVal 16 d).map fun l => 16 * h + l

/-- A `%` and two hexadecimal digits are a byte, and everything else is what it is. -/
def unescaped : Text → List UInt8
  | [] => []
  | [c] => String.utf8EncodeChar c
  | [c, d] => String.utf8EncodeChar c ++ String.utf8EncodeChar d
  | c :: d :: e :: s =>
    match if c = '%' then hexPair d e else none with
    | some v => UInt8.ofNat v :: unescaped s
    | none => String.utf8EncodeChar c ++ unescaped (d :: e :: s)

/-- The two bytes at the start of this text end inside of a character. -/
def cutsCharacter : Text → Bool
  | [] => false
  | [c] => 2 < c.utf8Size
  | c :: d :: _ => 2 < c.utf8Size || (c.utf8Size = 1 && 1 < d.utf8Size)

def signed : Text → Bool
  | c :: d :: _ => c = '+' && isHexDigit d
  | _ => false

/-- No `%` stands before this. -/
def NoneBehindPercent (p : Text → Bool) (s : Text) : Prop := ∀ t ∈ s.tails, t.head? = some '%' → p t.tail = false

instance (p : Text → Bool) (s : Text) : Decidable (NoneBehindPercent p s) := by
  unfold NoneBehindPercent
  infer_instance

/-! ### The query -/

theorem cutParams_append {m : Text} (hm : '&' ∉ m) (rest : Text) :
    cutParams (m ++ rest) = m ++ cutParams rest := by
  induction m with
  | nil => rfl
  | cons c m ih =>
    have hc : c ≠ '&' := fun h => hm (h ▸ mem_cons_self)
    rw [cons_append, cutParams, if_neg fun h => hc h.1,
      ih fun h => hm (mem_cons_of_mem _ h)]
    rfl

/-- **No slice of the query cuts a character.** -/
theorem cutFrom_eq {fuel : Nat} {a mid b : Text} (hfuel : mid.length < fuel) :
    cutFrom (a ++ mid ++ b) fuel (byteLen a) (byteLen a + byteLen mid) =
      some (byteLen (a ++ cutParams mid)) := by
  induction fuel generalizing a mid with
  | zero => omega
  | succ fuel ih =>
    rw [cutFrom, slice_middle]
    simp only [bind_eq_bind, bind_some]
    cases hfind : findByte '&' mid with
    | none =>
      have hall : cutParams mid = mid := by
        have happend := cutParams_append (findByte_eq_none hfind) []
        rwa [append_nil, cutParams, append_nil] at happend
      simp only
      rw [hall, byteLen_append]
    | some n =>
      obtain ⟨m, rest, rfl, hm, rfl⟩ := findByte_eq_some hfind
      have hamp : byteLen ['&'] = 1 := by decide
      have hsplit : a ++ (m ++ '&' :: rest) ++ b = (a ++ m ++ ['&']) ++ rest ++ b := by simp
      have hat : byteLen (a ++ m ++ ['&']) = byteLen a + byteLen m + 1 := by
        rw [byteLen_append, byteLen_append, hamp]
      have hcut : byteLen a + byteLen (m ++ '&' :: rest) =
          byteLen (a ++ m ++ ['&']) + byteLen rest := by
        rw [hat, byteLen_append, show ('&' :: rest : Text) = ['&'] ++ rest from rfl, byteLen_append,
          hamp]
        omega
      have hmin : min (byteLen a + byteLen (m ++ '&' :: rest))
          (byteLen (a ++ (m ++ '&' :: rest) ++ b)) = byteLen (a ++ m ++ ['&']) + byteLen rest := by
        rw [hcut, hsplit]
        simp only [byteLen_append]
        omega
      simp only
      rw [hmin, hsplit, ← hat, slice_middle, bind_some, cutParams_append hm]
      split_ifs with hparam
      · rw [cutParams, if_pos ⟨rfl, hparam⟩, append_nil, byteLen_append]
      · rw [hcut, ih (by simp only [length_append, length_cons] at hfuel; omega),
          cutParams, if_neg fun h => hparam h.2]
        simp

theorem takeWhile_append_find {name : Text} :
    (findByte '?' name).getD (byteLen name) = byteLen (name.takeWhile (· ≠ '?')) ∧
      ∃ rest, name = name.takeWhile (· ≠ '?') ++ rest := by
  refine ⟨?_, name.dropWhile (· ≠ '?'), takeWhile_append_dropWhile.symm⟩
  cases hfind : findByte '?' name with
  | none =>
    have hnone := findByte_eq_none hfind
    rw [getD_none, takeWhile_eq_self_iff.mpr]
    intro c hc
    exact decide_eq_true fun h => hnone (h ▸ hc)
  | some n =>
    obtain ⟨a, b, rfl, ha, rfl⟩ := findByte_eq_some hfind
    have hall : ∀ c ∈ a, decide (c ≠ '?') = true := fun c hc =>
      decide_eq_true fun h => ha (h ▸ hc)
    rw [getD_some, takeWhile_append_of_pos hall, takeWhile_cons_of_neg (by simp),
      append_nil]

theorem cutParams_prefix (s : Text) : cutParams s <+: s := by
  induction s with
  | nil => exact prefix_rfl
  | cons c s ih =>
    rw [cutParams]
    split_ifs
    · exact nil_prefix
    · exact cons_prefix_cons.mpr ⟨rfl, ih⟩

theorem stripNameJunkSliced_eq (raw : Text) :
    stripNameJunkSliced raw = (percentDecodeSliced (escapedName raw)).map fun decoded =>
      trim (trimMatches (· = '.')
        (trim ([text ".nzb", text ".NZB", text ".Nzb"].foldl stripSuffix decoded))) := by
  have hlength : ∀ t : Text, t.length ≤ byteLen t := by
    intro t
    induction t with
    | nil => exact Nat.le_refl _
    | cons c t ih =>
      have hpos := c.utf8Size_pos
      rw [length_cons, byteLen_cons]
      omega
  obtain ⟨hcut, rest, hrest⟩ := @takeWhile_append_find (lastSegment raw)
  unfold stripNameJunkSliced escapedName
  simp only [hcut]
  generalize hmid : (lastSegment raw).takeWhile (· ≠ '?') = mid at hrest
  obtain ⟨tail, htail⟩ := cutParams_prefix mid
  have hshort : mid.length < byteLen (lastSegment raw) + 1 := by
    rw [hrest, byteLen_append]
    exact Nat.lt_succ_of_le ((hlength mid).trans (Nat.le_add_right _ _))
  have hloop := cutFrom_eq (a := []) (b := rest) hshort
  rw [nil_append, ← hrest, byteLen_nil, Nat.zero_add, nil_append] at hloop
  have hslice := slice_middle [] (cutParams mid) (tail ++ rest)
  rw [nil_append, ← append_assoc, htail, ← hrest, byteLen_nil, Nat.zero_add] at hslice
  rw [hloop]
  simp only [bind_eq_bind, bind_some]
  rw [hslice, bind_some]
  cases percentDecodeSliced (trim (cutParams mid)) with
  | none => rfl
  | some decoded => rfl

/-! ### Escapes -/

/-- What the loop over the bytes comes to, character by character. -/
def decodeText : Text → List UInt8
  | [] => []
  | [c] => String.utf8EncodeChar c
  | [c, d] => String.utf8EncodeChar c ++ String.utf8EncodeChar d
  | c :: d :: e :: s =>
    match if c = '%' then Numeral.fromStrRadix 16 256 [d, e] else none with
    | some v => UInt8.ofNat v :: decodeText s
    | none => String.utf8EncodeChar c ++ decodeText (d :: e :: s)

section Escapes

variable {a s t : Text} {c d e : Char} {v : Nat} {p : Text → Bool}

theorem decodeText_cons (h : ∀ d e t v, c = '%' → s = d :: e :: t →
    Numeral.fromStrRadix 16 256 [d, e] ≠ some v) :
    decodeText (c :: s) = String.utf8EncodeChar c ++ decodeText s := by
  match s with
  | [] => exact (append_nil _).symm
  | [d] => rfl
  | d :: e :: t =>
    have hnone : (if c = '%' then Numeral.fromStrRadix 16 256 [d, e] else none) = none := by
      split_ifs with hc
      · cases hv : Numeral.fromStrRadix 16 256 [d, e] with
        | none => rfl
        | some v => exact absurd hv (h d e t v hc rfl)
      · rfl
    rw [decodeText, hnone]

theorem unescaped_cons (h : ∀ d e t v, c = '%' → s = d :: e :: t → hexPair d e ≠ some v) :
    unescaped (c :: s) = String.utf8EncodeChar c ++ unescaped s := by
  match s with
  | [] => exact (append_nil _).symm
  | [d] => rfl
  | d :: e :: t =>
    have hnone : (if c = '%' then hexPair d e else none) = none := by
      split_ifs with hc
      · cases hv : hexPair d e with
        | none => rfl
        | some v => exact absurd hv (h d e t v hc rfl)
      · rfl
    rw [unescaped, hnone]

theorem noneBehindPercent_cons : NoneBehindPercent p (c :: s) ↔
    (c = '%' → p s = false) ∧ NoneBehindPercent p s := by
  unfold NoneBehindPercent
  rw [tails_cons, forall_mem_cons]
  simp

theorem digitVal_ascii (h : Numeral.digitVal 16 c = some v) :
    c.toNat < 0x80 ∧ c ≠ '%' ∧ c ≠ '+' := by
  unfold Numeral.digitVal at h
  have hle {x y : Char} : x ≤ y ↔ x.toNat ≤ y.toNat := Iff.rfl
  obtain ⟨hv, -⟩ := filter_eq_some_iff.mp h
  have hrange : c.toNat < 0x80 ∧ 0x30 ≤ c.toNat := by
    simp only [hle] at hv
    split_ifs at hv with h0 ha hA
    · exact ⟨lt_of_le_of_lt h0.2 (by decide), h0.1⟩
    · exact ⟨lt_of_le_of_lt ha.2 (by decide), le_trans (by decide) ha.1⟩
    · exact ⟨lt_of_le_of_lt hA.2 (by decide), le_trans (by decide) hA.1⟩
  refine ⟨hrange.1, ?_, ?_⟩
  · rintro rfl
    exact absurd hrange.2 (by decide)
  · rintro rfl
    exact absurd hrange.2 (by decide)

theorem digitVal_lt (h : Numeral.digitVal 16 c = some v) : v < 16 := by
  unfold Numeral.digitVal at h
  obtain ⟨-, hv⟩ := filter_eq_some_iff.mp h
  simpa using hv

theorem fromStrRadix_unsigned (h : d ≠ '+') (s : Text) : Numeral.fromStrRadix 16 256 (d :: s) =
    (Numeral.readDigits 16 0 (d :: s)).filter (· < 256) := by
  have hfirst : ∀ t, d :: s ≠ '+' :: t := fun t heq => h (cons.inj heq).1
  simp only [Numeral.fromStrRadix, cons_ne_nil, if_false]

theorem fromStrRadix_pair (d e : Char) : Numeral.fromStrRadix 16 256 [d, e] =
    if d = '+' then Numeral.digitVal 16 e else hexPair d e := by
  split_ifs with hd
  · subst hd
    unfold Numeral.fromStrRadix
    simp only [cons_ne_nil, if_false, Numeral.readDigits]
    cases he : Numeral.digitVal 16 e with
    | none => rfl
    | some v =>
      have hlt := digitVal_lt he
      simp [show v < 256 by omega]
  · rw [fromStrRadix_unsigned hd, hexPair]
    simp only [Numeral.readDigits]
    cases hd' : Numeral.digitVal 16 d with
    | none => rfl
    | some h =>
      cases he : Numeral.digitVal 16 e with
      | none => rfl
      | some l =>
        have hh := digitVal_lt hd'
        have hl := digitVal_lt he
        have hsmall : h * 16 + l < 256 := by omega
        simp [hsmall, Nat.mul_comm]

theorem fromStrRadix_ascii (h : Numeral.fromStrRadix 16 256 [d, e] = some v) :
    (d.toNat < 0x80 ∧ d ≠ '%') ∧ e.toNat < 0x80 ∧ e ≠ '%' := by
  rw [fromStrRadix_pair] at h
  split_ifs at h with hd
  · obtain ⟨he, hpercent, -⟩ := digitVal_ascii h
    exact ⟨⟨by rw [hd]; decide, by rw [hd]; decide⟩, he, hpercent⟩
  · obtain ⟨x, hx, hy⟩ := bind_eq_some_iff.mp h
    obtain ⟨y, hy, -⟩ := map_eq_some_iff.mp hy
    obtain ⟨hd', hpercent, -⟩ := digitVal_ascii hx
    obtain ⟨he, hpercent', -⟩ := digitVal_ascii hy
    exact ⟨⟨hd', hpercent⟩, he, hpercent'⟩

theorem fromStrRadix_wide (h : c.utf8Size ≠ 1) : Numeral.fromStrRadix 16 256 [c] = none := by
  have hplus : c ≠ '+' := fun heq => h (heq ▸ by decide)
  have hdigit : Numeral.digitVal 16 c = none := by
    cases hv : Numeral.digitVal 16 c with
    | none => rfl
    | some v => exact absurd (utf8Size_eq_one_iff.mpr (digitVal_ascii hv).1) h
  rw [fromStrRadix_unsigned hplus, Numeral.readDigits, hdigit]
  rfl

theorem cutsCharacter_of_short (h : byteLen s < 2) : cutsCharacter s = false := by
  match s with
  | [] => rfl
  | [c] =>
    rw [byteLen_cons, byteLen_nil] at h
    exact decide_eq_false (by omega)
  | c :: d :: s =>
    have hc := c.utf8Size_pos
    have hd := d.utf8Size_pos
    rw [byteLen_cons, byteLen_cons] at h
    omega

/-- **Two bytes** are a part of a character, one character, or two. -/
theorem takeBytes_two (h : 2 ≤ byteLen s) :
    (cutsCharacter s = true ∧ takeBytes 2 s = none) ∨
    cutsCharacter s = false ∧
      ((∃ c t, s = c :: t ∧ c.utf8Size = 2 ∧ takeBytes 2 s = some [c]) ∨
        ∃ c d t, s = c :: d :: t ∧ c.utf8Size = 1 ∧ d.utf8Size = 1 ∧
          takeBytes 2 s = some [c, d]) := by
  match s with
  | [] => exact absurd h (by decide)
  | [c] =>
    rw [byteLen_cons, byteLen_nil] at h
    rcases Nat.eq_or_lt_of_le h with htwo | hbig
    · have hsize : c.utf8Size = 2 := by omega
      exact .inr ⟨decide_eq_false (by omega), .inl ⟨c, [], rfl, hsize, by simp [takeBytes, hsize]⟩⟩
    · exact .inl ⟨decide_eq_true hbig, by simp [takeBytes, show ¬c.utf8Size ≤ 2 by omega]⟩
  | c :: d :: t =>
    have hc := c.utf8Size_pos
    have hd := d.utf8Size_pos
    by_cases hbig : 2 < c.utf8Size
    · exact .inl ⟨by simp [cutsCharacter, hbig], by
        simp [takeBytes, show ¬c.utf8Size ≤ 2 by omega]⟩
    · by_cases htwo : c.utf8Size = 2
      · exact .inr ⟨by simp [cutsCharacter, htwo],
          .inl ⟨c, d :: t, rfl, htwo, by simp [takeBytes, htwo]⟩⟩
      · have hone : c.utf8Size = 1 := by omega
        by_cases hd1 : d.utf8Size = 1
        · exact .inr ⟨by simp [cutsCharacter, hone, hd1],
            .inr ⟨c, d, t, rfl, hone, hd1, by simp [takeBytes, hone, hd1]⟩⟩
        · exact .inl ⟨by simp [cutsCharacter, hone, show 1 < d.utf8Size by omega], by
            simp [takeBytes, hone, show ¬d.utf8Size ≤ 1 by omega]⟩

theorem percentFrom_plain {bs rest : List UInt8} {i : Nat} (hbs : ∀ b ∈ bs, b ≠ 0x25)
    (hsplit : (toUtf8 s).drop i = bs ++ rest) (fuel : Nat) :
    percentFrom s (bs.length + fuel) i =
      (percentFrom s fuel (i + bs.length)).map (bs ++ ·) := by
  induction bs generalizing i with
  | nil =>
    rw [length_nil, Nat.zero_add, Nat.add_zero]
    exact (Option.map_id' ..).symm
  | cons b bs ih =>
    have hb : (toUtf8 s)[i]? = some b := by
      rw [← head?_drop, hsplit]
      rfl
    have hnext : (toUtf8 s).drop (i + 1) = bs ++ rest := by
      rw [← drop_drop, hsplit]
      rfl
    have hplain : ¬(b = 0x25 ∧ i + 2 < (toUtf8 s).length) := fun h =>
      hbs b mem_cons_self h.1
    rw [length_cons, show bs.length + 1 + fuel = bs.length + fuel + 1 by omega, percentFrom,
      hb]
    simp only [hplain, if_false]
    rw [ih (fun x hx => hbs x (mem_cons_of_mem _ hx)) hnext, Option.map_map,
      Nat.add_comm bs.length 1, Nat.add_assoc]
    rfl

theorem percentFrom_char (a s : Text) (fuel : Nat) (h : c ≠ '%') :
    percentFrom (a ++ c :: s) (c.utf8Size + fuel) (byteLen a) =
      (percentFrom (a ++ c :: s) fuel (byteLen (a ++ [c]))).map (String.utf8EncodeChar c ++ ·) := by
  have hplain : ∀ b ∈ String.utf8EncodeChar c, b ≠ 0x25 := by
    rintro b hb rfl
    exact h (Char.toNat_inj.mp (toNat_of_mem_encodeChar hb (by decide)).symm)
  have hsplit : (toUtf8 (a ++ c :: s)).drop (byteLen a) = String.utf8EncodeChar c ++ toUtf8 s := by
    have happend : toUtf8 (a ++ c :: s) = toUtf8 a ++ toUtf8 (c :: s) := flatMap_append
    rw [happend, byteLen, drop_left]
    rfl
  have hcopy := percentFrom_plain hplain hsplit fuel
  rwa [String.length_utf8EncodeChar, show byteLen a + c.utf8Size = byteLen (a ++ [c]) by simp]
    at hcopy

theorem percentFrom_percent (a s : Text) (fuel : Nat) :
    percentFrom (a ++ '%' :: s) (fuel + 1) (byteLen a) =
      if 2 ≤ byteLen s then (takeBytes 2 s).bind fun digits =>
        match Numeral.fromStrRadix 16 256 digits with
        | some v =>
          (percentFrom (a ++ '%' :: s) fuel (byteLen (a ++ ['%']) + 2)).map (UInt8.ofNat v :: ·)
        | none =>
          (percentFrom (a ++ '%' :: s) fuel (byteLen (a ++ ['%']))).map
            (String.utf8EncodeChar '%' ++ ·)
      else
        (percentFrom (a ++ '%' :: s) fuel (byteLen (a ++ ['%']))).map
          (String.utf8EncodeChar '%' ++ ·) := by
  have hone : byteLen ['%'] = 1 := by decide
  have hat : byteLen (a ++ ['%']) = byteLen a + 1 := by rw [byteLen_append, hone]
  have hbyte : (toUtf8 (a ++ '%' :: s))[byteLen a]? = some 0x25 := by
    have hget := getElem?_toUtf8_append a ('%' :: s) 0
    rwa [Nat.add_zero] at hget
  have hlen : (toUtf8 (a ++ '%' :: s)).length = byteLen a + (1 + byteLen s) := by
    have happend := byteLen_append a ('%' :: s)
    rwa [byteLen_cons] at happend
  have hslice : slice (a ++ '%' :: s) (byteLen a + 1) (byteLen a + 3) = takeBytes 2 s := by
    have hrest := slice_append (a ++ ['%']) s 2
    rwa [hat, append_assoc] at hrest
  rw [percentFrom, hbyte, hlen, hat]
  simp only [hslice, true_and]
  by_cases h2 : 2 ≤ byteLen s
  · rw [if_pos h2, if_pos (by omega)]
    rfl
  · rw [if_neg h2, if_neg (by omega)]
    rfl

theorem decoded_cons (hcut : c = '%' → cutsCharacter s = false)
    (h : ∀ d e t v, c = '%' → s = d :: e :: t → Numeral.fromStrRadix 16 256 [d, e] ≠ some v) :
    (if NoneBehindPercent cutsCharacter s then some (decodeText s) else none).map
        (String.utf8EncodeChar c ++ ·) =
      if NoneBehindPercent cutsCharacter (c :: s) then some (decodeText (c :: s)) else none := by
  have hiff : NoneBehindPercent cutsCharacter (c :: s) ↔ NoneBehindPercent cutsCharacter s := by
    rw [noneBehindPercent_cons]
    exact and_iff_right hcut
  rw [decodeText_cons h]
  simp only [hiff]
  split_ifs
  · rfl
  · rfl

/-- **The process stops where a slice cuts a character**, and else the text is decoded. -/
theorem percentFrom_eq (a s : Text) (fuel : Nat) :
    percentFrom (a ++ s) (byteLen s + fuel) (byteLen a) =
      if NoneBehindPercent cutsCharacter s then some (decodeText s) else none := by
  match s with
  | [] =>
    have hend : (toUtf8 (a ++ []))[byteLen a]? = none := getElem?_toUtf8_append a [] 0
    have hnone : NoneBehindPercent cutsCharacter [] := by decide
    rw [if_pos hnone]
    cases byteLen [] + fuel with
    | zero => rfl
    | succ fuel =>
      rw [percentFrom, hend]
      rfl
  | c :: s =>
    have hnext := percentFrom_eq (a ++ [c]) s fuel
    rw [append_assoc, singleton_append] at hnext
    by_cases hc : c = '%'
    · subst hc
      have hfuel : byteLen ('%' :: s) + fuel = byteLen s + fuel + 1 := by
        rw [byteLen_cons, show ('%' : Char).utf8Size = 1 from rfl]
        omega
      rw [hfuel, percentFrom_percent]
      by_cases h2 : 2 ≤ byteLen s
      · rw [if_pos h2]
        obtain ⟨hcut, htake⟩ | ⟨hcut, ⟨d, t, rfl, hd, htake⟩ | ⟨d, e, t, rfl, hd, he, htake⟩⟩ :=
          takeBytes_two h2
        · have hstop : ¬NoneBehindPercent cutsCharacter ('%' :: s) := fun h =>
            absurd ((noneBehindPercent_cons.mp h).1 rfl) (by simp [hcut])
          rw [htake, if_neg hstop]
          rfl
        · have hwide : d.utf8Size ≠ 1 := by omega
          rw [htake, bind_some, fromStrRadix_wide hwide]
          simp only
          rw [hnext]
          refine decoded_cons (fun _ => hcut) fun d' e t' v _ heq hv => ?_
          rw [← (cons.inj heq).1] at hv
          exact hwide (utf8Size_eq_one_iff.mpr (fromStrRadix_ascii hv).1.1)
        · rw [htake, bind_some]
          cases hv : Numeral.fromStrRadix 16 256 [d, e] with
          | none =>
            simp only
            rw [hnext]
            refine decoded_cons (fun _ => hcut) fun d' e' t' v _ heq hv' => ?_
            obtain ⟨hd', htail⟩ := cons.inj heq
            rw [← hd', ← (cons.inj htail).1, hv] at hv'
            cases hv'
          | some v =>
            obtain ⟨⟨-, hd'⟩, -, he'⟩ := fromStrRadix_ascii hv
            have hat : byteLen (a ++ ['%']) + 2 = byteLen (a ++ ['%', d, e]) := by
              simp [hd, he, Nat.add_assoc]
            have hrest : a ++ '%' :: d :: e :: t = a ++ ['%', d, e] ++ t := by simp
            have hbytes : byteLen (d :: e :: t) + fuel = byteLen t + (fuel + 2) := by
              rw [byteLen_cons, byteLen_cons, hd, he]
              omega
            have hiff : NoneBehindPercent cutsCharacter ('%' :: d :: e :: t) ↔
                NoneBehindPercent cutsCharacter t := by
              rw [noneBehindPercent_cons, noneBehindPercent_cons, noneBehindPercent_cons]
              simp [hcut, hd', he']
            simp only
            rw [hat, hrest, hbytes, percentFrom_eq (a ++ ['%', d, e]) t (fuel + 2)]
            simp only [hiff, decodeText, if_true, hv]
            split_ifs
            · rfl
            · rfl
      · have hcut : cutsCharacter s = false := cutsCharacter_of_short (by omega)
        rw [if_neg h2, hnext]
        refine decoded_cons (fun _ => hcut) fun d e t v _ heq _ => h2 ?_
        have hd := d.utf8Size_pos
        have he := e.utf8Size_pos
        rw [heq, byteLen_cons, byteLen_cons]
        omega
    · rw [byteLen_cons, Nat.add_assoc, percentFrom_char a s _ hc, hnext]
      exact decoded_cons (fun h => absurd h hc) fun _ _ _ _ h => absurd h hc
termination_by s.length

theorem percentOut_eq (s : Text) : percentOut s =
    if NoneBehindPercent cutsCharacter s then some (decodeText s) else none :=
  percentFrom_eq [] s 0

theorem unescaped_digit {v : Nat} (h : Numeral.digitVal 16 c = some v) (s : Text) :
    (unescaped (c :: s)).length = (unescaped s).length + 1 := by
  obtain ⟨hascii, hpercent, -⟩ := digitVal_ascii h
  rw [unescaped_cons fun _ _ _ _ heq => absurd heq hpercent, length_append,
    String.length_utf8EncodeChar, utf8Size_eq_one_iff.mpr hascii, Nat.add_comm]

/-- **A signed digit is the one thing that is wrongly taken for an escape**, and every other byte is
what it was. -/
theorem decodeText_spec (s : Text) :
    if NoneBehindPercent signed s then decodeText s = unescaped s
    else (decodeText s).length < (unescaped s).length := by
  match s with
  | [] => rfl
  | c :: s =>
    have hnext := decodeText_spec s
    have hkeep (hiff : NoneBehindPercent signed (c :: s) ↔ NoneBehindPercent signed s)
        (hd : decodeText (c :: s) = String.utf8EncodeChar c ++ decodeText s)
        (hu : unescaped (c :: s) = String.utf8EncodeChar c ++ unescaped s) :
        if NoneBehindPercent signed (c :: s) then decodeText (c :: s) = unescaped (c :: s)
        else (decodeText (c :: s)).length < (unescaped (c :: s)).length := by
      rw [hd, hu, length_append, length_append]
      simp only [hiff]
      split_ifs at hnext ⊢ with hs
      · rw [hnext]
      · omega
    by_cases hc : c = '%'
    · subst hc
      match s with
      | [] => exact hkeep (by decide) rfl rfl
      | [d] =>
        have hsigned : signed [d] = false := rfl
        refine hkeep ?_ rfl rfl
        rw [noneBehindPercent_cons]
        exact and_iff_right fun _ => hsigned
      | d :: e :: t =>
        have hrest := decodeText_spec t
        have hrefused (hsigned : signed (d :: e :: t) = false)
            (hread : Numeral.fromStrRadix 16 256 [d, e] = none) (hpair : hexPair d e = none) :=
          hkeep (noneBehindPercent_cons.trans (and_iff_right fun _ => hsigned))
            (decodeText_cons fun d' e' t' v _ heq hv => by
              obtain ⟨hd', htail⟩ := cons.inj heq
              rw [← hd', ← (cons.inj htail).1, hread] at hv
              cases hv)
            (unescaped_cons fun d' e' t' v _ heq hv => by
              obtain ⟨hd', htail⟩ := cons.inj heq
              rw [← hd', ← (cons.inj htail).1, hpair] at hv
              cases hv)
        have hread := fromStrRadix_pair d e
        by_cases hplus : d = '+'
        · subst hplus
          have hpair : hexPair '+' e = none := rfl
          rw [if_pos rfl] at hread
          cases he : Numeral.digitVal 16 e with
          | none => exact hrefused (by simp [signed, isHexDigit, he]) (hread.trans he) hpair
          | some v =>
            have hsigned : ¬NoneBehindPercent signed ('%' :: '+' :: e :: t) := fun h =>
              absurd ((noneBehindPercent_cons.mp h).1 rfl) (by simp [signed, isHexDigit, he])
            have hplain : unescaped ('%' :: '+' :: e :: t) =
                [0x25, 0x2b] ++ unescaped (e :: t) := by
              rw [unescaped_cons, unescaped_cons fun _ _ _ _ h => absurd h (by decide)]
              · rfl
              · intro d' e' t' v' _ heq hv
                obtain ⟨hd', htail⟩ := cons.inj heq
                rw [← hd', ← (cons.inj htail).1, hpair] at hv
                cases hv
            have hdecoded : decodeText ('%' :: '+' :: e :: t) = UInt8.ofNat v :: decodeText t := by
              simp only [decodeText, if_true, hread, he]
            rw [if_neg hsigned, hplain, hdecoded, length_append, unescaped_digit he,
              length_cons, length_cons, length_cons, length_nil]
            split_ifs at hrest with hs
            · rw [hrest]
              omega
            · omega
        · have hsigned : signed (d :: e :: t) = false := by simp [signed, hplus]
          rw [if_neg hplus] at hread
          cases hpair : hexPair d e with
          | none => exact hrefused hsigned (hread.trans hpair) hpair
          | some v =>
            obtain ⟨⟨-, hd⟩, -, he⟩ := fromStrRadix_ascii (hread.trans hpair)
            have hiff : NoneBehindPercent signed ('%' :: d :: e :: t) ↔
                NoneBehindPercent signed t := by
              rw [noneBehindPercent_cons, noneBehindPercent_cons, noneBehindPercent_cons]
              simp [hsigned, hd, he]
            simp only [hiff, decodeText, unescaped, if_true, hread, hpair]
            split_ifs at hrest ⊢ with hs
            · rw [hrest]
            · rw [length_cons, length_cons]
              omega
    · refine hkeep ?_ (decodeText_cons fun _ _ _ _ h => absurd h hc)
        (unescaped_cons fun _ _ _ _ h => absurd h hc)
      rw [noneBehindPercent_cons]
      exact and_iff_right fun h => absurd h hc
termination_by s.length

/-! ### The names of the queue -/

end Escapes

/-- **A name is cleaned, and exactly its escapes are decoded**, when no `%` stands before two bytes
that cut a character, or before a plus sign and a digit. -/
theorem stripped_iff (raw : Text) :
    ((stripNameJunkSliced raw).isSome ∧
        percentOut (escapedName raw) = some (unescaped (escapedName raw))) ↔
      NoneBehindPercent cutsCharacter (escapedName raw) ∧
        NoneBehindPercent signed (escapedName raw) := by
  have hspec := decodeText_spec (escapedName raw)
  rw [stripNameJunkSliced_eq, percentDecodeSliced, percentOut_eq]
  constructor
  · rintro ⟨-, hout⟩
    split_ifs at hout with hcut
    split_ifs at hspec with hsigned
    · exact ⟨hcut, hsigned⟩
    · exact absurd (congrArg List.length (Option.some.inj hout)) (Nat.ne_of_lt hspec)
  · rintro ⟨hcut, hsigned⟩
    rw [if_pos hsigned] at hspec
    rw [if_pos hcut, hspec]
    refine ⟨?_, rfl⟩
    split_ifs
    · rfl
    · rfl

/-- Both things go wrong: a currency sign behind a percent sign, and a signed digit. -/
theorem not_stripped : stripNameJunkSliced (text "100 %€") = none ∧
    ¬((stripNameJunkSliced (text "100 %+5")).isSome ∧
      percentOut (escapedName (text "100 %+5")) = some (unescaped (escapedName (text "100 %+5")))) := by
  decide +kernel

end Nzbd
