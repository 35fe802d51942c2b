import Mathlib.Data.List.DropRight
import Mathlib.Data.UInt

/-!
# Reading bytes as text

Text is a list of characters.  `decode` reads UTF-8 one well-formed sequence at
a time and marks what is not one: an entry is a character, or `none` for a
maximal ill-formed run, the piece a lossy reader replaces by `U+FFFD`.  The
strict reader `fromUtf8` accepts when nothing was marked.  What has been written as UTF-8 is read
again (`decode_toUtf8`).

`isWhitespace` is the Unicode `White_Space` property, which `trim` strips on
both sides, and `isControl` the general category `Cc`.
-/

namespace Utf8

open List

def ascii (s : String) : List UInt8 := s.toList.map fun c => UInt8.ofNat c.toNat

/-- The second bytes a first byte allows, and how many bytes follow it. -/
def leads (b : UInt8) : Option (Nat × UInt8 × UInt8) :=
  if 0xC2 ≤ b ∧ b ≤ 0xDF then some (1, 0x80, 0xBF)
  else if b = 0xE0 then some (2, 0xA0, 0xBF)
  else if b = 0xED then some (2, 0x80, 0x9F)
  else if 0xE1 ≤ b ∧ b ≤ 0xEF then some (2, 0x80, 0xBF)
  else if b = 0xF0 then some (3, 0x90, 0xBF)
  else if 0xF1 ≤ b ∧ b ≤ 0xF3 then some (3, 0x80, 0xBF)
  else if b = 0xF4 then some (3, 0x80, 0x8F)
  else none

/-- Read `n` continuation bytes, the first of them between `lo` and `hi`, onto
the bits read so far.  An ill-formed or missing byte is left in the input. -/
def tail : Nat → UInt8 → UInt8 → Nat → List UInt8 → Option Char × List UInt8
  | 0, _, _, acc, bs => (some (Char.ofNat acc), bs)
  | _ + 1, _, _, _, [] => (none, [])
  | n + 1, lo, hi, acc, b :: bs =>
    if lo ≤ b ∧ b ≤ hi then tail n 0x80 0xBF (acc * 64 + (b.toNat - 0x80)) bs
    else (none, b :: bs)

/-- The bits a first byte contributes when `n` bytes follow. -/
def leadBits (n : Nat) (b : UInt8) : Nat := b.toNat % 2 ^ (6 - n)

/-- One character, or one ill-formed run, off the front. -/
def next (b : UInt8) (bs : List UInt8) : Option Char × List UInt8 :=
  if b < 0x80 then (some (Char.ofNat b.toNat), bs)
  else
    match leads b with
    | some (n, lo, hi) => tail n lo hi (leadBits n b) bs
    | none => (none, bs)

/-- Read at most `fuel` characters. -/
def decodeFuel : Nat → List UInt8 → List (Option Char)
  | _, [] => []
  | 0, _ :: _ => []
  | fuel + 1, b :: bs => (next b bs).1 :: decodeFuel fuel (next b bs).2

/-- Every character takes at least a byte, so the length is fuel enough. -/
def decode (bs : List UInt8) : List (Option Char) := decodeFuel bs.length bs

/-- The strict reader. -/
def fromUtf8 (bs : List UInt8) : Option (List Char) :=
  if (decode bs).all Option.isSome then some ((decode bs).filterMap id) else none

/-- The lossy reader. -/
def fromUtf8Lossy (bs : List UInt8) : List Char := (decode bs).map (Option.getD · '\uFFFD')

/-- `White_Space`. -/
def isWhitespace (c : Char) : Bool :=
  let n := c.toNat
  (9 ≤ n && n ≤ 13) || n == 0x20 || n == 0x85 || n == 0xA0 || n == 0x1680 ||
    (0x2000 ≤ n && n ≤ 0x200A) || n == 0x2028 || n == 0x2029 || n == 0x202F || n == 0x205F ||
    n == 0x3000

/-- General category `Cc`. -/
def isControl (c : Char) : Bool :=
  let n := c.toNat
  n < 0x20 || (0x7F ≤ n && n < 0xA0)

/-- Strip the characters of a class off both ends. -/
def trimMatches (p : Char → Bool) (s : List Char) : List Char :=
  ((s.dropWhile p).reverse.dropWhile p).reverse

def trim (s : List Char) : List Char := trimMatches isWhitespace s

/-- The text before and behind the first such character. -/
def splitOnce (c : Char) (s : List Char) : Option (List Char × List Char) :=
  if c ∈ s then some (s.takeWhile (· ≠ c), (s.dropWhile (· ≠ c)).tail) else none

/-! ### ASCII -/

theorem next_of_ascii {b : UInt8} (h : b < 0x80) (bs : List UInt8) :
    next b bs = (some (Char.ofNat b.toNat), bs) := if_pos h

theorem decodeFuel_of_ascii : ∀ (bs : List UInt8) (fuel : Nat), bs.length ≤ fuel →
    (∀ b ∈ bs, b < 0x80) → decodeFuel fuel bs = bs.map fun b => some (Char.ofNat b.toNat) := by
  intro bs
  induction bs with
  | nil => intro fuel _ _; cases fuel <;> rfl
  | cons b bs ih =>
    intro fuel hf hb
    cases fuel with
    | zero => simp at hf
    | succ fuel =>
      rw [decodeFuel, next_of_ascii (hb b (by simp)),
        ih fuel (by simpa using hf) fun x hx => hb x (by simp [hx])]
      rfl

/-- **ASCII is read byte for byte.** -/
theorem fromUtf8_of_ascii {bs : List UInt8} (h : ∀ b ∈ bs, b < 0x80) :
    fromUtf8 bs = some (bs.map fun b => Char.ofNat b.toNat) := by
  have hd : decode bs = bs.map fun b => some (Char.ofNat b.toNat) :=
    decodeFuel_of_ascii bs bs.length (Nat.le_refl _) h
  have hall : (decode bs).all Option.isSome = true := by
    rw [hd, all_map]
    simp
  rw [fromUtf8, if_pos hall, hd, filterMap_map]
  simp

theorem trimMatches_eq_self {p : Char → Bool} {s : List Char}
    (hh : ∀ c, s.head? = some c → p c = false) (hl : ∀ c, s.getLast? = some c → p c = false) :
    trimMatches p s = s := by
  have h1 : s.dropWhile p = s := by
    cases s with
    | nil => rfl
    | cons c r => rw [dropWhile_cons, if_neg (by simp [hh c rfl])]
  have h2 : s.reverse.dropWhile p = s.reverse := by
    cases hr : s.reverse with
    | nil => rfl
    | cons c r =>
      have : s.getLast? = some c := by rw [← head?_reverse, hr]; rfl
      rw [dropWhile_cons, if_neg (by simp [hl c this])]
  rw [trimMatches, h1, h2, reverse_reverse]

/-! ### Splitting -/

theorem splitOnce_append {c : Char} {s t : List Char} (h : c ∉ s) :
    splitOnce c (s ++ c :: t) = some (s, t) := by
  have hne : ∀ x ∈ s, decide (x ≠ c) = true := fun x hx =>
    decide_eq_true (ne_of_mem_of_not_mem hx h)
  rw [splitOnce, if_pos (by simp), takeWhile_append_of_pos hne,
    dropWhile_append_of_pos hne, takeWhile_cons_of_neg (by simp),
    dropWhile_cons_of_neg (by simp), append_nil, tail_cons]

/-! ### Trimming -/

theorem trimMatches_eq (p : Char → Bool) (s : List Char) :
    trimMatches p s = (s.dropWhile p).rdropWhile p := rfl

theorem dropWhile_rdropWhile {p q : Char → Bool} {s : List Char}
    (h : ∀ c, s.head? = some c → p c = false) : (s.rdropWhile q).dropWhile p = s.rdropWhile q := by
  cases hk : s.rdropWhile q with
  | nil => rfl
  | cons c r =>
    obtain ⟨t, ht⟩ := rdropWhile_prefix q s
    have hc : s.head? = some c := by
      rw [← ht, hk]
      rfl
    rw [dropWhile_cons, if_neg (by simp [h c hc])]

theorem head?_dropWhile {p : Char → Bool} {s : List Char} {c : Char}
    (h : (s.dropWhile p).head? = some c) : p c = false := by
  have := head?_dropWhile_not p s
  rw [h] at this
  simpa using this

theorem trimBoth_idem (p q : Char → Bool) (s : List Char) :
    (((s.dropWhile p).rdropWhile q).dropWhile p).rdropWhile q = (s.dropWhile p).rdropWhile q := by
  rw [dropWhile_rdropWhile fun c h => head?_dropWhile h, rdropWhile_idempotent]

theorem trimBoth_sublist (p q : Char → Bool) (s : List Char) :
    ((s.dropWhile p).rdropWhile q).Sublist s :=
  (List.rdropWhile_prefix q _).sublist.trans (dropWhile_sublist p)

theorem ends_trimMatches (p : Char → Bool) (s : List Char) :
    (∀ c ∈ (trimMatches p s).head?, p c = false) ∧
      ∀ c ∈ (trimMatches p s).getLast?, p c = false := by
  constructor
  · intro c hc
    rw [trimMatches_eq, ← dropWhile_rdropWhile fun d hd => head?_dropWhile hd] at hc
    exact head?_dropWhile hc
  · intro c hc
    rw [trimMatches, getLast?_reverse] at hc
    exact head?_dropWhile hc

theorem trim_idem (s : List Char) : trim (trim s) = trim s :=
  trimBoth_idem isWhitespace isWhitespace s

theorem trim_sublist (s : List Char) : (trim s).Sublist s :=
  trimBoth_sublist isWhitespace isWhitespace s

/-! ### Writing text as bytes -/

def toUtf8 (s : List Char) : List UInt8 := s.flatMap String.utf8EncodeChar

theorem toNat_ofNat_lt {n : Nat} (h : n < 256) : (UInt8.ofNat n).toNat = n := by
  rw [UInt8.toNat_ofNat', Nat.mod_eq_of_lt (by simpa using h)]

theorem tail_cons {n acc k : Nat} {lo hi : UInt8} {bs : List UInt8} (hk : k < 256)
    (hlo : lo.toNat ≤ k) (hhi : k ≤ hi.toNat) :
    tail (n + 1) lo hi acc (UInt8.ofNat k :: bs) = tail n 0x80 0xBF (acc * 64 + (k - 0x80)) bs := by
  rw [tail, if_pos, toNat_ofNat_lt hk]
  rw [UInt8.le_iff_toNat_le, UInt8.le_iff_toNat_le, toNat_ofNat_lt hk]
  exact ⟨hlo, hhi⟩

theorem leads_ofNat {k : Nat} (hk : k < 256) :
    leads (UInt8.ofNat k) =
      if 0xC2 ≤ k ∧ k ≤ 0xDF then some (1, 0x80, 0xBF)
      else if k = 0xE0 then some (2, 0xA0, 0xBF)
      else if k = 0xED then some (2, 0x80, 0x9F)
      else if 0xE1 ≤ k ∧ k ≤ 0xEF then some (2, 0x80, 0xBF)
      else if k = 0xF0 then some (3, 0x90, 0xBF)
      else if 0xF1 ≤ k ∧ k ≤ 0xF3 then some (3, 0x80, 0xBF)
      else if k = 0xF4 then some (3, 0x80, 0x8F)
      else none := by
  unfold leads
  simp only [UInt8.le_iff_toNat_le, ← UInt8.toNat_inj, toNat_ofNat_lt hk]
  rfl

theorem next_ofNat {k : Nat} (hk : k < 256) (h : 0x80 ≤ k) {n : Nat} {lo hi : UInt8}
    (hleads : leads (UInt8.ofNat k) = some (n, lo, hi)) (bs : List UInt8) :
    next (UInt8.ofNat k) bs = tail n lo hi (k % 2 ^ (6 - n)) bs := by
  have hbig : ¬UInt8.ofNat k < 0x80 := by
    rw [UInt8.lt_iff_toNat_lt, toNat_ofNat_lt hk]
    exact Nat.not_lt.mpr h
  rw [next, if_neg hbig, hleads]
  simp only
  rw [leadBits, toNat_ofNat_lt hk]

/-- **The bytes of a character are read as this character.** -/
theorem next_encode (c : Char) (bs : List UInt8) : ∃ b rest, String.utf8EncodeChar c = b :: rest ∧
    next b (rest ++ bs) = (some c, bs) := by
  have hv : c.toNat < 0xD800 ∨ 0xDFFF < c.toNat ∧ c.toNat < 0x110000 := c.valid
  have hofNat : Char.ofNat c.toNat = c := Char.ofNat_toNat c
  unfold String.utf8EncodeChar
  simp only
  change ∃ b rest, (ite (c.toNat ≤ 0x7f) _ _) = b :: rest ∧ _
  generalize hn : c.toNat = v at hv hofNat
  have hval : c.val.toNat = v := hn
  simp only [hval]
  split_ifs with h1 h2 h3
  · refine ⟨_, _, rfl, ?_⟩
    rw [nil_append, next_of_ascii, toNat_ofNat_lt (by omega), hofNat]
    rw [UInt8.lt_iff_toNat_lt, toNat_ofNat_lt (by omega)]
    exact Nat.lt_succ_of_le h1
  · refine ⟨_, _, rfl, ?_⟩
    have hl := leads_ofNat (k := v / 64 % 0x20 + 0xc0) (by omega)
    rw [if_pos (by omega)] at hl
    rw [next_ofNat (by omega) (by omega) hl, cons_append, nil_append,
      tail_cons (by omega) (by simp) (by simp; omega), tail]
    rw [show (v / 64 % 0x20 + 0xc0) % 2 ^ (6 - 1) * 64 + (v % 0x40 + 0x80 - 0x80) = v by omega,
      hofNat]
  · refine ⟨_, _, rfl, ?_⟩
    have hlead : v / 4096 % 0x10 + 0xe0 < 256 := by omega
    -- the second byte tells an overlong sequence and a surrogate
    have hl : ∃ lo hi, leads (UInt8.ofNat (v / 4096 % 0x10 + 0xe0)) = some (2, lo, hi) ∧
        lo.toNat ≤ v / 64 % 0x40 + 0x80 ∧ v / 64 % 0x40 + 0x80 ≤ hi.toNat := by
      rw [leads_ofNat hlead, if_neg (by omega)]
      split_ifs with he0 hed he1
      · exact ⟨_, _, rfl, by simp; omega, by simp; omega⟩
      · exact ⟨_, _, rfl, by simp, by simp; omega⟩
      · exact ⟨_, _, rfl, by simp, by simp; omega⟩
      all_goals omega
    obtain ⟨lo, hi, hl, hlo, hhi⟩ := hl
    rw [next_ofNat hlead (by omega) hl, cons_append, cons_append, nil_append,
      tail_cons (by omega) hlo hhi, tail_cons (by omega) (by simp) (by simp; omega), tail]
    rw [show ((v / 4096 % 0x10 + 0xe0) % 2 ^ (6 - 2) * 64 + (v / 64 % 0x40 + 0x80 - 0x80)) * 64 +
      (v % 0x40 + 0x80 - 0x80) = v by omega, hofNat]
  · refine ⟨_, _, rfl, ?_⟩
    have hlead : v / 262144 % 0x08 + 0xf0 < 256 := by omega
    have hl : ∃ lo hi, leads (UInt8.ofNat (v / 262144 % 0x08 + 0xf0)) = some (3, lo, hi) ∧
        lo.toNat ≤ v / 4096 % 0x40 + 0x80 ∧ v / 4096 % 0x40 + 0x80 ≤ hi.toNat := by
      rw [leads_ofNat hlead, if_neg (by omega), if_neg (by omega), if_neg (by omega),
        if_neg (by omega)]
      split_ifs with hf0 hf1 hf4
      · exact ⟨_, _, rfl, by simp; omega, by simp; omega⟩
      · exact ⟨_, _, rfl, by simp, by simp; omega⟩
      · exact ⟨_, _, rfl, by simp, by simp; omega⟩
      · omega
    obtain ⟨lo, hi, hl, hlo, hhi⟩ := hl
    rw [next_ofNat hlead (by omega) hl, cons_append, cons_append, cons_append,
      nil_append, tail_cons (by omega) hlo hhi, tail_cons (by omega) (by simp) (by simp; omega),
      tail_cons (by omega) (by simp) (by simp; omega), tail]
    rw [show (((v / 262144 % 0x08 + 0xf0) % 2 ^ (6 - 3) * 64 + (v / 4096 % 0x40 + 0x80 - 0x80)) * 64 +
      (v / 64 % 0x40 + 0x80 - 0x80)) * 64 + (v % 0x40 + 0x80 - 0x80) = v by omega, hofNat]

/-- **What is written as UTF-8 is read again.** -/
theorem decode_toUtf8 (s : List Char) : decode (toUtf8 s) = s.map some := by
  have hfuel : ∀ fuel, (toUtf8 s).length ≤ fuel → decodeFuel fuel (toUtf8 s) = s.map some := by
    induction s with
    | nil =>
      intro fuel _
      cases fuel <;> rfl
    | cons c s ih =>
      intro fuel hle
      obtain ⟨b, rest, heq, hnext⟩ := next_encode c (toUtf8 s)
      have hcons : toUtf8 (c :: s) = b :: (rest ++ toUtf8 s) := by
        rw [toUtf8, flatMap_cons, heq, cons_append]
        rfl
      rw [hcons, length_cons, length_append] at hle
      cases fuel with
      | zero => omega
      | succ fuel =>
        rw [hcons, decodeFuel, hnext, ih fuel (by omega)]
        rfl
  exact hfuel _ (Nat.le_refl _)

theorem fromUtf8Lossy_toUtf8 (s : List Char) : fromUtf8Lossy (toUtf8 s) = s := by
  rw [fromUtf8Lossy, decode_toUtf8, map_map]
  exact map_id'' (fun _ => rfl) s

theorem toNat_of_mem_encodeChar {c : Char} {b : UInt8} (h : b ∈ String.utf8EncodeChar c)
    (hb : b.toNat < 0x80) : b.toNat = c.toNat := by
  unfold String.utf8EncodeChar at h
  change b ∈ (ite (c.toNat ≤ 0x7f) _ _) at h
  have hval : c.val.toNat = c.toNat := rfl
  simp only [hval] at h
  have hlow {n : Nat} (hn : n < 256) (heq : b = UInt8.ofNat n) : b.toNat = n := by
    rw [heq, toNat_ofNat_lt hn]
  -- the bytes of a longer encoding are large
  have hhigh {n : Nat} (hlarge : 0x80 ≤ n) (hn : n < 256) (heq : b = UInt8.ofNat n) :
      b.toNat = c.toNat := by
    have hlow := hlow hn heq
    omega
  split_ifs at h with h1 h2 h3
  · exact hlow (by omega) (mem_singleton.mp h)
  all_goals simp only [mem_cons, not_mem_nil, or_false] at h
  · rcases h with h | h <;> exact hhigh (by omega) (by omega) h
  · rcases h with h | h | h <;> exact hhigh (by omega) (by omega) h
  · rcases h with h | h | h | h <;> exact hhigh (by omega) (by omega) h

theorem mem_of_mem_toUtf8 {s : List Char} {c : Char} {b : UInt8} (h : b ∈ toUtf8 s)
    (hb : b.toNat < 0x80) (hc : c.toNat = b.toNat) : c ∈ s := by
  obtain ⟨d, hd, hmem⟩ := mem_flatMap.mp h
  have heq : d = c := Char.toNat_inj.mp ((toNat_of_mem_encodeChar hmem hb).symm.trans hc.symm)
  exact heq ▸ hd

end Utf8
