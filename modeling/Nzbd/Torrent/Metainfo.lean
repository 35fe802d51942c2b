import Nzbd.Lib.Bencode
import Nzbd.Lib.Checked

/-!
# The version of a torrent

Whether the `info` dictionary of a torrent has the keys of version 1 and of version 2.  The
values of the other keys are skipped by their length, so that nothing inside a byte string is
taken for a key.

The texts that the scanner takes are those of `Bencode.IsValue`, with at most `maxDepth` levels
below each value (`scansAt_skipValue`).
-/

namespace Nzbd.Torrent.Metainfo

open List Bencode Scanner ScansAt
open Numeral (isDigit)

/-- A byte slice is never longer. -/
structure Slice where
  bytes : List UInt8
  fits : bytes.length < 2 ^ 63

def maxDepth : Nat := 128

def infoKey : List UInt8 := Numeral.bytes "info".toList

def pieces : List UInt8 := Numeral.bytes "pieces".toList

def metaVersion : List UInt8 := Numeral.bytes "meta version".toList

section

variable (bytes : List UInt8)

def peek : Scanner UInt8 := Scanner.peek bytes "metainfo is truncated"

def expect (expected : UInt8) (message : String) : Scanner Unit := do
  if (← peek bytes) ≠ expected then fail message else advance

/-- The loop of `byte_string`. -/
def readLength : Nat → Nat → Bool → Scanner Nat
  | 0, _, _ => fun _ => .error .unfinished
  | fuel + 1, len, sawDigit => do
    let byte ← peek bytes
    if byte = 0x3A then
      if sawDigit then advance >>= fun _ => pure len else fail "metainfo byte string has no length"
    else if isDigit byte then
      match (Checked.mul 64 len 10).bind (Checked.add 64 · (byte - 0x30).toNat) with
      | some len => advance >>= fun _ => readLength fuel len true
      | none => fail "metainfo byte string length overflows"
    else fail "metainfo byte string has an invalid length"

/-- An index out of range stops the program. -/
def slice (start stop : Nat) : Option (List UInt8) :=
  if start ≤ stop ∧ stop ≤ bytes.length then some ((bytes.drop start).take (stop - start)) else none

/-- As many bytes as the length says. -/
def takeBytes (len : Nat) : Scanner (List UInt8) := fun position =>
  match (Checked.add 64 position len).filter (· ≤ bytes.length) with
  | some stop =>
    match slice bytes position stop with
    | some value => .ok (value, stop)
    | none => .error .panic
  | none => .error (.malformed "metainfo byte string is truncated")

def byteString : Scanner (List UInt8) := do
  let len ← readLength bytes (bytes.length + 1) 0 false
  takeBytes bytes len

/-- A loop up to the `e`, which is passed. -/
def untilEnd {σ : Type} (body : σ → Scanner σ) (s : σ) : Scanner σ := do
  let s ← whileNot (peek bytes) 0x65 body (bytes.length + 1) s
  advance
  pure s

/-- The loop of an integer, whose start is known. -/
def skipInteger : Scanner Unit := do
  let integerStart ← get
  whileNot (peek bytes) 0x65 (fun _ => advance) (bytes.length + 1) ()
  let position ← get
  if position = integerStart then fail "metainfo contains an empty integer" else advance

/-- With the levels that are left of `MAX_DEPTH + 1`. -/
def skipValue : Nat → Scanner Unit
  | 0 => fail "metainfo nesting is too deep"
  | left + 1 => do
    let byte ← peek bytes
    if byte = 0x69 then advance >>= fun _ => skipInteger bytes
    else if byte = 0x6C then advance >>= fun _ => untilEnd bytes (fun _ => skipValue left) ()
    else if byte = 0x64 then
      advance >>= fun _ => untilEnd bytes (fun _ => byteString bytes >>= fun _ => skipValue left) ()
    else if isDigit byte then byteString bytes >>= fun _ => pure ()
    else fail "metainfo contains invalid bencode"

def scanInfoEntry (has : Bool × Bool) : Scanner (Bool × Bool) := do
  let key ← byteString bytes
  let has := (has.1 || key = pieces, has.2 || key = metaVersion)
  skipValue bytes (maxDepth + 1)
  pure has

def scanInfoDictionary : Scanner (Bool × Bool) := do
  expect bytes 0x64 "metainfo info value must be a dictionary"
  untilEnd bytes (scanInfoEntry bytes) (false, false)

/-- One key of the root. -/
def scanEntry (version : Option (Bool × Bool)) : Scanner (Option (Bool × Bool)) := do
  let key ← byteString bytes
  if key = infoKey then
    if version.isSome then fail "metainfo has duplicate info dictionaries"
    else scanInfoDictionary bytes >>= fun has => pure (some has)
  else skipValue bytes (maxDepth + 1) >>= fun _ => pure version

def scanRoot : Scanner (Option (Bool × Bool)) := do
  expect bytes 0x64 "metainfo root must be a dictionary"
  untilEnd bytes (scanEntry bytes) none

/-- Where a scan ends: with the keys that the info dictionary has. -/
def scan : Except Stop (Bool × Bool) :=
  match scanRoot bytes 0 with
  | .error stop => .error stop
  | .ok (version, position) =>
    if position ≠ bytes.length then .error (.malformed "metainfo has trailing bytes")
    else match version with
      | some has => .ok has
      | none => .error (.malformed "metainfo has no info dictionary")

inductive TorrentError
  | engine (stop : Stop)
  | unsupportedHybridMetainfo
  | unsupportedV2Metainfo

def validateMetainfoVersion : Except TorrentError Unit :=
  match scan bytes with
  | .error stop => .error (.engine stop)
  | .ok (true, true) => .error .unsupportedHybridMetainfo
  | .ok (false, true) => .error .unsupportedV2Metainfo
  | .ok _ => .ok ()

end

/-! ### Byte strings -/

section

variable {bytes : List UInt8}

def digit (n : Nat) (b : UInt8) : Nat := n * 10 + (b - 0x30).toNat

theorem le_foldl_digit (ds : List UInt8) (n : Nat) : n ≤ ds.foldl digit n := by
  induction ds generalizing n with
  | nil => exact Nat.le_refl n
  | cons b ds ih =>
    have hstep : n ≤ digit n b := by
      unfold digit
      omega
    exact hstep.trans (ih (digit n b))

/-- Digits that are read on from a number, and the colon. -/
def IsLength (len : Nat) (sawDigit : Bool) (n : Nat) (t : List UInt8) : Prop :=
  ∃ ds, (sawDigit = true ∨ ds ≠ []) ∧ (∀ b ∈ ds, isDigit b = true) ∧ ds.foldl digit len = n ∧ n < 2 ^ 64 ∧
    t = ds ++ [0x3A]

theorem isLength_cons {len n : Nat} {sawDigit : Bool} {b : UInt8} {t : List UInt8} (hb : b ≠ 0x3A) :
    IsLength len sawDigit n (b :: t) ↔ isDigit b = true ∧ IsLength (digit len b) true n t := by
  constructor
  · rintro ⟨ds, -, hdigits, hn, hfits, ht⟩
    cases ds with
    | nil => exact absurd (cons.inj ht).1 hb
    | cons c ds =>
      obtain ⟨rfl, rfl⟩ := cons.inj ht
      exact ⟨hdigits b mem_cons_self,
        ds, .inl rfl, fun c hc => hdigits c (mem_cons_of_mem b hc), hn, hfits, rfl⟩
  · rintro ⟨hb, ds, -, hdigits, hn, hfits, rfl⟩
    exact ⟨b :: ds, .inr (cons_ne_nil b ds), forall_mem_cons.mpr ⟨hb, hdigits⟩, hn, hfits, rfl⟩

theorem digit_eq (len : Nat) (b : UInt8) :
    (Checked.mul 64 len 10).bind (Checked.add 64 · (b - 0x30).toNat) =
      if digit len b < 2 ^ 64 then some (digit len b) else none := by
  unfold Checked.mul Checked.add Checked.fit digit
  by_cases h : len * 10 < 2 ^ 64
  · rw [if_pos h, Option.bind_some]
  · have hsum : ¬len * 10 + (b - 0x30).toNat < 2 ^ 64 := by omega
    rw [if_neg h, Option.bind_none, if_neg hsum]

theorem scansAt_readLength (hlen : bytes.length < 2 ^ 64) (fuel len : Nat) (sawDigit : Bool) (p : Nat)
    (hlt : len < 2 ^ 64) (hfuel : bytes.length < p + fuel) (hpos : 0 < fuel) :
    ScansAt bytes p (readLength bytes fuel len sawDigit) fun n t _ => IsLength len sawDigit n t := by
  induction fuel generalizing len sawDigit p with
  | zero => exact absurd hpos (Nat.lt_irrefl 0)
  | succ fuel ih =>
    have hne : ∀ n, ¬IsLength len sawDigit n [] := by
      rintro n ⟨ds, -, -, -, -, ht⟩
      exact absurd ht.symm (by simp)
    refine peek_bind (fun b r hb => ?_) fun n => hne n
    have hp := lt_length_of_drop hb
    by_cases hcolon : b = 0x3A
    · subst hcolon
      rw [if_pos rfl]
      cases sawDigit with
      | false =>
        rw [if_neg Bool.false_ne_true]
        refine (ScansAt.fail _).congr fun n t rest hdrop => ⟨False.elim, ?_⟩
        rintro ⟨ds, hds, hdigits, -, -, rfl⟩
        cases ds with
        | nil => exact hds.elim Bool.false_ne_true (fun h => h rfl)
        | cons c ds =>
          rw [hb, cons_append, cons_append, cons.injEq] at hdrop
          have hc := hdigits c mem_cons_self
          rw [← hdrop.1] at hc
          cases hc
      | true =>
        rw [if_pos rfl]
        refine ScansAt.advance_bind hlen hb ((ScansAt.pure len).congr fun n t rest hdrop => ⟨?_, ?_⟩)
          fun n _ => hne n
        · rintro ⟨rfl, rfl⟩
          exact ⟨[], .inl rfl, forall_mem_nil _, rfl, hlt, rfl⟩
        · rintro ⟨ds, -, hdigits, hn, -, ht⟩
          cases ds with
          | nil => exact ⟨(cons.inj ht).2, hn.symm⟩
          | cons c ds =>
            have hc := hdigits c mem_cons_self
            rw [← (cons.inj ht).1] at hc
            cases hc
    · rw [if_neg hcolon]
      by_cases hdigit : isDigit b = true
      · rw [if_pos hdigit, digit_eq]
        by_cases hfits : digit len b < 2 ^ 64
        · rw [if_pos hfits]
          refine advance_bind hlen hb
            ((ih (digit len b) true (p + 1) hfits (by omega) (by omega)).congr fun n t rest hdrop => ?_)
            fun n _ => hne n
          rw [isLength_cons hcolon]
          exact ⟨fun h => ⟨hdigit, h⟩, And.right⟩
        · rw [if_neg hfits]
          refine (ScansAt.fail _).congr fun n t rest hdrop => ⟨False.elim, fun h => hfits ?_⟩
          cases t with
          | nil => exact absurd h (hne n)
          | cons c t =>
            rw [hb, cons_append, cons.injEq] at hdrop
            obtain ⟨rfl, -⟩ := hdrop
            obtain ⟨-, ds, -, -, hn, hlast, -⟩ := (isLength_cons hcolon).mp h
            exact (hn ▸ le_foldl_digit ds (digit len b)).trans_lt hlast
      · rw [if_neg hdigit]
        refine (ScansAt.fail _).congr fun n t rest hdrop => ⟨False.elim, fun h => hdigit ?_⟩
        cases t with
        | nil => exact absurd h (hne n)
        | cons c t =>
          rw [hb, cons_append, cons.injEq] at hdrop
          obtain ⟨rfl, -⟩ := hdrop
          exact ((isLength_cons hcolon).mp h).1

theorem scansAt_takeBytes (hlen : bytes.length < 2 ^ 64) {p : Nat} (hp : p ≤ bytes.length) (len : Nat) :
    ScansAt bytes p (takeBytes bytes len) fun s t _ => t = s ∧ s.length = len := by
  by_cases hle : p + len ≤ bytes.length
  · have hstop : (Checked.add 64 p len).filter (· ≤ bytes.length) = some (p + len) := by
      rw [Checked.add_of_lt (by omega), Option.filter_some, if_pos (by simpa using hle)]
    have hslice : slice bytes p (p + len) = some ((bytes.drop p).take len) := by
      rw [slice, if_pos ⟨Nat.le_add_right p len, hle⟩, Nat.add_sub_cancel_left]
    have hok : takeBytes bytes len p = .ok ((bytes.drop p).take len, p + len) := by
      unfold takeBytes
      rw [hstop]
      simp only [hslice]
    have htake : ((bytes.drop p).take len).length = len := by
      rw [length_take, length_drop]
      omega
    refine ⟨?_, fun s p' h => ?_, fun stop h => ?_⟩
    · rintro s t rest ⟨rfl, rfl⟩ hdrop
      rw [hok, hdrop, take_left]
    · rw [hok] at h
      cases h
      refine ⟨_, (bytes.drop p).drop len, ⟨rfl, htake⟩, (take_append_drop len _).symm, ?_⟩
      rw [htake]
    · rw [hok] at h
      cases h
  · have hstop : (Checked.add 64 p len).filter (· ≤ bytes.length) = none := by
      unfold Checked.add Checked.fit
      split
      · rw [Option.filter_some, if_neg (by simpa using hle)]
      · rfl
    have herror : takeBytes bytes len p = .error (.malformed "metainfo byte string is truncated") := by
      unfold takeBytes
      rw [hstop]
    refine ⟨?_, fun s p' h => ?_, fun stop h => ?_⟩
    · rintro s t rest ⟨rfl, rfl⟩ hdrop
      exact absurd (add_length_le hdrop hp) hle
    · rw [herror] at h
      cases h
    · rw [herror] at h
      cases h
      exact ⟨_, rfl⟩

/-- **A byte string** is read with its length, whatever bytes are in it. -/
theorem scansAt_byteString (hlen : bytes.length < 2 ^ 64) (p : Nat) :
    ScansAt bytes p (byteString bytes) fun s t _ => IsString s t := by
  have hread := scansAt_readLength hlen (bytes.length + 1) 0 false p (by decide) (by omega) (by omega)
  have htake : ∀ n t rest, IsLength 0 false n t → bytes.drop p = t ++ rest →
      ScansAt bytes (p + t.length) (takeBytes bytes n) fun s t _ => t = s ∧ s.length = n := by
    intro n t rest h hdrop
    refine scansAt_takeBytes hlen (add_length_le hdrop ?_) n
    obtain ⟨ds, -, -, -, -, rfl⟩ := h
    by_contra hge
    rw [drop_eq_nil_of_le (by omega)] at hdrop
    exact absurd hdrop.symm (by simp)
  refine (hread.bind (Q := fun n _ s t _ => t = s ∧ s.length = n) htake).congr fun s u rest hdrop => ⟨?_, ?_⟩
  · rintro ⟨n, t, t', rfl, ⟨ds, hds, hdigits, hn, -, rfl⟩, rfl, rfl⟩
    exact ⟨ds, hds.resolve_left Bool.false_ne_true, hdigits, hn, by simp⟩
  · rintro ⟨ds, hds, hdigits, hn, rfl⟩
    have hs : s.length < 2 ^ 64 := by
      have hall := congrArg length hdrop
      rw [length_drop, length_append, length_append, length_cons] at hall
      omega
    exact ⟨s.length, ds ++ [0x3A], s, by simp, ⟨ds, .inr hds, hdigits, hn, hs, rfl⟩, rfl, rfl⟩

end

/-! ### Values -/

section

variable {bytes : List UInt8}

theorem scansAt_untilEnd {σ : Type} (hlen : bytes.length < 2 ^ 64) {body : σ → Scanner σ}
    {Q : σ → σ → List UInt8 → Prop} (hbody : ∀ s p, ScansAt bytes p (body s) fun s' t _ => Q s s' t)
    (hne : ∀ s s' t, Q s s' t → ∃ b r, t = b :: r ∧ b ≠ 0x65) (s : σ) (p : Nat) :
    ScansAt bytes p (untilEnd bytes body s) fun s' t _ => ∃ u, Steps Q s s' u ∧ t = u ++ [0x65] := by
  have hloop := @ScansAt.whileNot _ bytes "metainfo is truncated" 0x65 body Q
    (fun s p _ _ _ _ => hbody s p) hne (bytes.length + 1) s p (by omega) (by omega)
  have hclose : ∀ s' t rest, Steps Q s s' t ∧ rest.head? = some 0x65 → bytes.drop p = t ++ rest →
      ScansAt bytes (p + t.length) (advance >>= fun _ => pure s') fun s'' u _ => u = [0x65] ∧ s'' = s' := by
    rintro s' t rest ⟨-, hhead⟩ hdrop
    obtain ⟨r, hr⟩ := head?_eq_some_iff.mp hhead
    refine advance_bind hlen ((drop_add hdrop).trans hr) ((pure s').congr ?_) ?_
    · exact fun s'' u rest _ => ⟨fun h => ⟨by rw [h.1], h.2⟩, fun h => ⟨(cons.inj h.1).2, h.2⟩⟩
    · rintro s'' rest ⟨h, -⟩
      cases h
  refine (hloop.bind (Q := fun s' _ s'' u _ => u = [0x65] ∧ s'' = s') hclose).congr
    fun s'' u rest _ => ⟨?_, ?_⟩
  · rintro ⟨s', t, t', rfl, ⟨hsteps, -⟩, rfl, rfl⟩
    exact ⟨t, hsteps, rfl⟩
  · rintro ⟨t, hsteps, rfl⟩
    exact ⟨s'', t, [0x65], rfl, ⟨hsteps, rfl⟩, rfl, rfl⟩

theorem steps_bytes {last : UInt8} {s s' : Unit} {t : List UInt8} :
    Steps (fun _ _ x => ∃ b, b ≠ last ∧ x = [b]) s s' t ↔ last ∉ t := by
  constructor
  · intro h
    induction h with
    | nil => exact not_mem_nil
    | cons hb hu ih =>
      obtain ⟨b, hb, rfl⟩ := hb
      exact fun hmem => (mem_cons.mp hmem).elim (fun h => hb h.symm) ih
  · intro h
    induction t with
    | nil => exact .nil ()
    | cons b t ih =>
      exact @Steps.cons _ _ () () () _ _ ⟨b, fun hb => h (hb ▸ mem_cons_self), rfl⟩
        (ih fun hmem => h (mem_cons_of_mem b hmem))

theorem scansAt_skipInteger (hlen : bytes.length < 2 ^ 64) (p : Nat) :
    ScansAt bytes p (skipInteger bytes) fun _ t _ =>
      ∃ body, body ≠ [] ∧ (0x65 : UInt8) ∉ body ∧ t = body ++ [0x65] := by
  have hstep : ∀ (s : Unit) p b r, bytes.drop p = b :: r → b ≠ 0x65 →
      ScansAt bytes p advance fun _ t _ => ∃ b, b ≠ 0x65 ∧ t = [b] := by
    intro _ p b r hb hne
    refine (advance hlen hb).congr fun _ t rest hdrop => ⟨fun h => ⟨b, hne, h⟩, ?_⟩
    rintro ⟨c, -, rfl⟩
    rw [hb] at hdrop
    rw [(cons.inj hdrop).1]
  have hloop := @ScansAt.whileNot _ bytes "metainfo is truncated" 0x65 (fun _ => advance) _ hstep
    (fun _ _ t h => ⟨h.choose, [], h.choose_spec.2, h.choose_spec.1⟩) (bytes.length + 1) () p (by omega)
    (by omega)
  have hclose : ∀ (s : Unit) t rest, Steps (fun _ _ x => ∃ b, b ≠ 0x65 ∧ x = [b]) () s t ∧
      rest.head? = some 0x65 → bytes.drop p = t ++ rest →
      ScansAt bytes (p + t.length) (get >>= fun position =>
        if position = p then fail "metainfo contains an empty integer" else advance)
        fun _ u _ => t ≠ [] ∧ u = [0x65] := by
    rintro _ t rest ⟨-, hhead⟩ hdrop
    obtain ⟨r, hr⟩ := head?_eq_some_iff.mp hhead
    refine get_bind ?_
    by_cases ht : t = []
    · subst ht
      rw [length_nil, Nat.add_zero, if_pos rfl]
      exact (ScansAt.fail _).congr fun _ _ _ _ => ⟨False.elim, fun h => h.1 rfl⟩
    · have hlength := length_pos_iff.mpr ht
      rw [if_neg (by omega)]
      exact (advance hlen ((drop_add hdrop).trans hr)).congr
        fun _ _ _ _ => ⟨fun h => ⟨ht, h⟩, And.right⟩
  refine get_bind ((hloop.bind (Q := fun _ t _ u _ => t ≠ [] ∧ u = [0x65]) hclose).congr
    fun s'' u rest _ => ⟨?_, ?_⟩)
  · rintro ⟨s', t, t', rfl, ⟨hsteps, -⟩, hne, rfl⟩
    exact ⟨t, hne, steps_bytes.mp hsteps, rfl⟩
  · rintro ⟨t, hne, hend, rfl⟩
    exact ⟨(), t, [0x65], rfl, ⟨steps_bytes.mpr hend, rfl⟩, hne, rfl⟩

end

/-! ### Skipping -/

section

variable {bytes : List UInt8}

theorem scansAt_key {β : Type} (hlen : bytes.length < 2 ^ 64) {g : List UInt8 → Scanner β}
    {Q : List UInt8 → β → List UInt8 → Prop}
    (hg : ∀ s p, ScansAt bytes p (g s) fun b t _ => Q s b t) (p : Nat) :
    ScansAt bytes p (byteString bytes >>= g) fun b t _ => ∃ s, IsEntry s (Q s b) t := by
  refine ((scansAt_byteString hlen p).bind (Q := fun s _ b t _ => Q s b t) fun s _ _ _ _ => hg s _).congr
    fun b t rest _ => ⟨?_, ?_⟩
  · rintro ⟨s, k, u, rfl, hs, hb⟩
    exact ⟨s, k, u, rfl, hs, hb⟩
  · rintro ⟨s, k, u, rfl, hs, hb⟩
    exact ⟨s, k, u, rfl, hs, hb⟩

/-- **What is skipped** with some levels left. -/
theorem scansAt_skipValue (hlen : bytes.length < 2 ^ 64) (left p : Nat) :
    ScansAt bytes p (skipValue bytes left) fun _ t _ => IsValue left t := by
  induction left generalizing p with
  | zero => exact fail _
  | succ left ih =>
    have hne : ∀ _ : Unit, ¬IsValue (left + 1) [] := fun _ => not_isValue_nil _
    refine peek_bind (fun b r hb => ?_) hne
    by_cases hint : b = 0x69
    · subst hint
      refine advance_bind hlen hb ((scansAt_skipInteger hlen _).congr fun _ t _ _ => ?_) fun _ _ => hne ()
      rw [isValue_int]
    rw [if_neg hint]
    by_cases hlist : b = 0x6C
    · subst hlist
      refine advance_bind hlen hb ((scansAt_untilEnd hlen (fun _ p => ih p)
        (fun _ _ _ h => h.ne_end) () _).congr fun _ t _ _ => ?_) fun _ _ => hne ()
      rw [isValue_list]
    rw [if_neg hlist]
    by_cases hdict : b = 0x64
    · subst hdict
      refine advance_bind hlen hb ((scansAt_untilEnd hlen
        (fun _ p => scansAt_key hlen (fun _ p => ih p) p) ?_ () _).congr fun _ t _ _ => ?_) fun _ _ => hne ()
      · rintro _ _ t ⟨s, hs⟩
        exact hs.ne_end
      · rw [isValue_dict]
    rw [if_neg hdict]
    have hstring : ∀ t rest, bytes.drop p = t ++ rest → (IsValue (left + 1) t ↔ ∃ s, IsString s t) := by
      intro t rest hdrop
      cases t with
      | nil =>
        refine iff_of_false (hne ()) fun ⟨s, h⟩ => ?_
        obtain ⟨c, r, h, -⟩ := h.cons
        cases h
      | cons c t =>
        rw [hb] at hdrop
        obtain ⟨rfl, -⟩ := cons.inj hdrop
        exact isValue_string hint hlist hdict
    by_cases hdigit : isDigit b = true
    · rw [if_pos hdigit]
      refine ((scansAt_byteString hlen p).bind (Q := fun _ _ _ t _ => t = []) fun _ _ _ _ _ =>
        (pure ()).congr fun _ _ _ _ => ⟨And.left, fun h => ⟨h, rfl⟩⟩).congr fun _ t rest hdrop => ?_
      rw [hstring t rest hdrop]
      constructor
      · rintro ⟨s, k, _, rfl, hs, rfl⟩
        exact ⟨s, by rwa [append_nil]⟩
      · exact fun ⟨s, hs⟩ => ⟨s, t, [], (append_nil t).symm, hs, rfl⟩
    · rw [if_neg hdigit]
      refine (ScansAt.fail _).congr fun _ t rest hdrop => ⟨False.elim, fun h => hdigit ?_⟩
      obtain ⟨s, hs⟩ := (hstring t rest hdrop).mp h
      obtain ⟨c, r, rfl, hc⟩ := hs.cons
      rw [hb] at hdrop
      rwa [(cons.inj hdrop).1]

/-! ### The dictionaries -/

theorem scansAt_expect (hlen : bytes.length < 2 ^ 64) {message : String} {β : Type} {g : Unit → Scanner β}
    {Q : β → List UInt8 → Prop} {b : UInt8} (hg : ∀ p, ScansAt bytes p (g ()) fun c t _ => Q c t) (p : Nat) :
    ScansAt bytes p (expect bytes b message >>= g) fun c u _ => ∃ t, u = b :: t ∧ Q c t := by
  have hexpect : ScansAt bytes p (expect bytes b message) fun _ t _ => t = [b] := by
    refine peek_bind (fun c r hc => ?_) fun _ h => by cases h
    by_cases hcb : c = b
    · subst hcb
      rw [if_neg (not_not_intro rfl)]
      exact advance hlen hc
    · rw [if_pos hcb]
      refine (ScansAt.fail _).congr fun _ t rest hdrop => ⟨False.elim, ?_⟩
      rintro rfl
      rw [hc] at hdrop
      exact hcb (cons.inj hdrop).1
  refine (hexpect.bind (Q := fun _ _ c t _ => Q c t) fun _ _ _ _ _ => hg _).congr fun c u rest _ => ⟨?_, ?_⟩
  · rintro ⟨-, t, t', rfl, rfl, hc⟩
    exact ⟨t', rfl, hc⟩
  · rintro ⟨t, rfl, hc⟩
    exact ⟨(), [b], t, rfl, rfl, hc⟩

/-- A key of the info dictionary, and what it says. -/
def InfoStep (has has' : Bool × Bool) (t : List UInt8) : Prop :=
  ∃ key, IsEntry key (IsValue (maxDepth + 1)) t ∧
    has' = (has.1 || key = pieces, has.2 || key = metaVersion)

/-- The text of an info dictionary. -/
def IsInfo (has : Bool × Bool) (t : List UInt8) : Prop :=
  ∃ u, t = 0x64 :: (u ++ [0x65]) ∧ Steps InfoStep (false, false) has u

def RootStep (version version' : Option (Bool × Bool)) (t : List UInt8) : Prop :=
  ∃ key, IsEntry key (fun u =>
    if key = infoKey then version = none ∧ ∃ has, IsInfo has u ∧ version' = some has
    else IsValue (maxDepth + 1) u ∧ version' = version) t

theorem scansAt_skip (hlen : bytes.length < 2 ^ 64) {β : Type} (b : β) (p : Nat) :
    ScansAt bytes p (skipValue bytes (maxDepth + 1) >>= fun _ => pure b) fun c t _ =>
      IsValue (maxDepth + 1) t ∧ c = b := by
  refine ((scansAt_skipValue hlen _ p).bind (Q := fun _ _ c t _ => t = [] ∧ c = b) fun _ _ _ _ _ =>
    pure b).congr fun c u rest _ => ⟨?_, ?_⟩
  · rintro ⟨-, t, _, rfl, h, rfl, hc⟩
    exact ⟨by rwa [append_nil], hc⟩
  · rintro ⟨h, hc⟩
    exact ⟨(), u, [], (append_nil u).symm, h, rfl, hc⟩

theorem scansAt_scanInfoDictionary (hlen : bytes.length < 2 ^ 64) (p : Nat) :
    ScansAt bytes p (scanInfoDictionary bytes) fun has t _ => IsInfo has t := by
  have hentry : ∀ has p, ScansAt bytes p (scanInfoEntry bytes has) fun has' t _ => InfoStep has has' t := by
    intro has p
    refine (scansAt_key hlen (fun key p => scansAt_skip hlen
      (has.1 || key = pieces, has.2 || key = metaVersion) p) p).congr fun has' t rest _ => ⟨?_, ?_⟩
    · rintro ⟨key, k, u, rfl, hk, hu, rfl⟩
      exact ⟨key, ⟨k, u, rfl, hk, hu⟩, rfl⟩
    · rintro ⟨key, ⟨k, u, rfl, hk, hu⟩, rfl⟩
      exact ⟨key, k, u, rfl, hk, hu, rfl⟩
  have hne : ∀ has has' t, InfoStep has has' t → ∃ b r, t = b :: r ∧ b ≠ 0x65 :=
    fun _ _ _ ⟨_, h, _⟩ => h.ne_end
  refine (scansAt_expect hlen (scansAt_untilEnd hlen hentry hne (false, false)) p).congr
    fun has t rest _ => ⟨?_, ?_⟩
  · rintro ⟨t, rfl, u, hu, rfl⟩
    exact ⟨u, rfl, hu⟩
  · rintro ⟨u, rfl, hu⟩
    exact ⟨_, rfl, u, hu, rfl⟩

theorem scansAt_scanEntry (hlen : bytes.length < 2 ^ 64) (version : Option (Bool × Bool)) (p : Nat) :
    ScansAt bytes p (scanEntry bytes version) fun version' t _ => RootStep version version' t := by
  refine scansAt_key hlen (fun key p => ?_) p
  by_cases hkey : key = infoKey
  · simp only [if_pos hkey]
    cases version with
    | some has =>
      rw [if_pos (Option.isSome_some)]
      exact (ScansAt.fail _).congr fun _ _ _ _ => ⟨False.elim, fun h => by cases h.1⟩
    | none =>
      rw [if_neg (by decide)]
      refine ((scansAt_scanInfoDictionary hlen p).bind (Q := fun has _ v t _ => t = [] ∧ v = some has)
        fun has _ _ _ _ => pure (some has)).congr fun v u rest _ => ⟨?_, ?_⟩
      · rintro ⟨has, t, _, rfl, h, rfl, hv⟩
        exact ⟨rfl, has, by rwa [append_nil], hv⟩
      · rintro ⟨-, has, h, hv⟩
        exact ⟨has, u, [], (append_nil u).symm, h, rfl, hv⟩
  · simp only [if_neg hkey]
    exact scansAt_skip hlen version p

/-- **The root** is read key by key. -/
theorem scansAt_scanRoot (hlen : bytes.length < 2 ^ 64) (p : Nat) :
    ScansAt bytes p (scanRoot bytes) fun version t _ =>
      ∃ u, t = 0x64 :: (u ++ [0x65]) ∧ Steps RootStep none version u := by
  have hne : ∀ version version' t, RootStep version version' t → ∃ b r, t = b :: r ∧ b ≠ 0x65 :=
    fun _ _ _ ⟨_, h⟩ => h.ne_end
  refine (scansAt_expect hlen (scansAt_untilEnd hlen (scansAt_scanEntry hlen) hne none) p).congr
    fun version t rest _ => ⟨?_, ?_⟩
  · rintro ⟨t, rfl, u, hu, rfl⟩
    exact ⟨u, rfl, hu⟩
  · rintro ⟨u, rfl, hu⟩
    exact ⟨_, rfl, u, hu, rfl⟩

end

/-! ### What is accepted -/

section

variable {bytes : List UInt8}

theorem scan_eq_ok (hlen : bytes.length < 2 ^ 64) {has : Bool × Bool} : scan bytes = .ok has ↔
    ∃ u, bytes = 0x64 :: (u ++ [0x65]) ∧ Steps RootStep none (some has) u := by
  have hroot := scansAt_scanRoot hlen 0
  unfold scan
  constructor
  · intro h
    cases hscan : scanRoot bytes 0 with
    | error stop =>
      rw [hscan] at h
      cases h
    | ok x =>
      obtain ⟨version, position⟩ := x
      obtain ⟨t, rest, ⟨u, ht, hu⟩, hdrop, hposition⟩ := hroot.sound version position hscan
      rw [hscan] at h
      simp only at h
      split at h
      · cases h
      · next hend =>
        have hbytes : bytes = t := by
          rw [drop_zero] at hdrop
          have hlength := congrArg length hdrop
          rw [length_append] at hlength
          have hrest : rest = [] := eq_nil_of_length_eq_zero (by omega)
          rw [hdrop, hrest, append_nil]
        cases version with
        | none => cases h
        | some has' =>
          cases h
          exact ⟨u, hbytes.trans ht, hu⟩
  · rintro ⟨u, ht, hu⟩
    have hok := hroot.complete (some has) bytes [] ⟨u, ht, hu⟩ (append_nil bytes).symm
    rw [hok, Nat.zero_add]
    simp only [ne_eq, not_true_eq_false, if_false]

theorem scan_safe (hlen : bytes.length < 2 ^ 64) {stop : Stop} (h : scan bytes = .error stop) :
    ∃ message, stop = .malformed message := by
  unfold scan at h
  cases hscan : scanRoot bytes 0 with
  | error stop' =>
    rw [hscan] at h
    cases h
    exact (scansAt_scanRoot hlen 0).safe stop hscan
  | ok x =>
    obtain ⟨version, position⟩ := x
    rw [hscan] at h
    simp only at h
    split at h
    · cases h
      exact ⟨_, rfl⟩
    · cases version with
      | none =>
        cases h
        exact ⟨_, rfl⟩
      | some has => cases h

/-- **Bytes behind the root** are seen. -/
theorem scan_trailing {t : List UInt8} (ht : t ≠ []) (hlen : (bytes ++ t).length < 2 ^ 64) {has : Bool × Bool}
    (h : scan bytes = .ok has) : scan (bytes ++ t) = .error (.malformed "metainfo has trailing bytes") := by
  have hshort : bytes.length < 2 ^ 64 := by
    rw [length_append] at hlen
    omega
  obtain ⟨u, hbytes, hu⟩ := (scan_eq_ok hshort).mp h
  have hok := (scansAt_scanRoot hlen 0).complete (some has) bytes t ⟨u, hbytes, hu⟩ rfl
  have hne : 0 + bytes.length ≠ (bytes ++ t).length := by
    have hpos := length_pos_iff.mpr ht
    rw [length_append]
    omega
  unfold scan
  rw [hok]
  exact if_pos hne

def IsRootEntry (x : List UInt8 × List UInt8) : Prop :=
  IsEntry x.1 (fun u => if x.1 = infoKey then ∃ has, IsInfo has u else IsValue (maxDepth + 1) u) x.2

/-- One dictionary among the keys is told from none. -/
def Found (version version' : Option (Bool × Bool)) (found : List (List UInt8 × List UInt8)) : Prop :=
  found = [] ∧ version' = version ∨
    version = none ∧ ∃ x has, found = [x] ∧ IsEntry x.1 (IsInfo has) x.2 ∧ version' = some has

theorem entries_of_steps {version version' : Option (Bool × Bool)} {u : List UInt8}
    (h : Steps RootStep version version' u) : ∃ entries : List (List UInt8 × List UInt8),
    u = entries.flatMap Prod.snd ∧ (∀ x ∈ entries, IsRootEntry x) ∧
      Found version version' (entries.filter fun x => x.1 = infoKey) := by
  induction h with
  | nil version => exact ⟨[], rfl, forall_mem_nil _, .inl ⟨rfl, rfl⟩⟩
  | @cons version middle version' t u h hu ih =>
    obtain ⟨entries, rfl, hall, hfound⟩ := ih
    obtain ⟨key, k, v, rfl, hk, hv⟩ := h
    refine ⟨(key, k ++ v) :: entries, by rw [flatMap_cons], ?_, ?_⟩
    · refine forall_mem_cons.mpr ⟨⟨k, v, rfl, hk, ?_⟩, hall⟩
      by_cases hkey : key = infoKey
      · rw [if_pos hkey] at hv
        obtain ⟨-, has, hinfo, -⟩ := hv
        simp only [if_pos hkey]
        exact ⟨has, hinfo⟩
      · rw [if_neg hkey] at hv
        simp only [if_neg hkey]
        exact hv.1
    · by_cases hkey : key = infoKey
      · rw [if_pos hkey] at hv
        obtain ⟨rfl, has, hinfo, rfl⟩ := hv
        rcases hfound with ⟨hnil, rfl⟩ | ⟨hnone, -⟩
        · rw [filter_cons_of_pos (by simpa using hkey), hnil]
          exact .inr ⟨rfl, _, has, rfl, ⟨k, v, rfl, hk, hinfo⟩, rfl⟩
        · cases hnone
      · rw [if_neg hkey] at hv
        rw [filter_cons_of_neg (by simpa using hkey)]
        exact hv.2 ▸ hfound

theorem rootStep_info {k u : List UInt8} {has : Bool × Bool} (hk : IsString infoKey k) (hu : IsInfo has u) :
    RootStep none (some has) (k ++ u) := by
  refine ⟨infoKey, k, u, rfl, hk, ?_⟩
  simp only [if_true]
  exact ⟨trivial, has, hu, rfl⟩

theorem rootStep_other {key k u : List UInt8} (version : Option (Bool × Bool)) (hkey : key ≠ infoKey)
    (hk : IsString key k) (hu : IsValue (maxDepth + 1) u) : RootStep version version (k ++ u) := by
  refine ⟨key, k, u, rfl, hk, ?_⟩
  simp only [if_neg hkey]
  exact ⟨hu, trivial⟩

theorem scanEntry_duplicate (hlen : bytes.length < 2 ^ 64) {k rest : List UInt8} (hk : IsString infoKey k)
    {p : Nat} (hdrop : bytes.drop p = k ++ rest) (has : Bool × Bool) :
    scanEntry bytes (some has) p = .error (.malformed "metainfo has duplicate info dictionaries") := by
  have hkey := (scansAt_byteString hlen p).complete infoKey k rest hk hdrop
  unfold scanEntry
  rw [bind_ok hkey]
  rfl

/-- **A second info key ends the scan.** -/
theorem whileNot_duplicate (hlen : bytes.length < 2 ^ 64) {k rest : List UInt8} (hk : IsString infoKey k)
    {entries : List (List UInt8 × List UInt8)} (hall : ∀ x ∈ entries, IsRootEntry x) (fuel : Nat)
    (version : Option (Bool × Bool)) (p : Nat) (hfuel : bytes.length < p + fuel) (hp : p ≤ bytes.length)
    (hdup : version.isSome ∨ infoKey ∈ entries.map Prod.fst)
    (hdrop : bytes.drop p = entries.flatMap Prod.snd ++ (k ++ rest)) :
    whileNot (peek bytes) 0x65 (scanEntry bytes) fuel version p =
      .error (.malformed "metainfo has duplicate info dictionaries") := by
  obtain ⟨fuel, rfl⟩ : ∃ n, fuel = n + 1 := ⟨fuel - 1, by omega⟩
  induction entries generalizing fuel version p with
  | nil =>
    obtain ⟨has, rfl⟩ := Option.isSome_iff_exists.mp (hdup.resolve_right not_mem_nil)
    obtain ⟨b, r, rfl, hb⟩ := hk.cons
    have hne : b ≠ 0x65 := by
      rintro rfl
      cases hb
    exact whileNot_error hdrop hne (scanEntry_duplicate hlen hk hdrop has) fuel
  | cons x entries ih =>
    rw [flatMap_cons, append_assoc] at hdrop
    have hx := hall x mem_cons_self
    obtain ⟨b, r, hbr, hne⟩ := hx.ne_end
    have hb : bytes.drop p = b :: (r ++ (entries.flatMap Prod.snd ++ (k ++ rest))) := by
      rw [hdrop, hbr]
      rfl
    have hlength : 0 < x.2.length := by
      rw [hbr]
      exact Nat.succ_pos _
    have hle := add_length_le hdrop hp
    -- what the entry says when it is not the second one
    have hgo : ∀ version', RootStep version version' x.2 →
        (version'.isSome ∨ infoKey ∈ entries.map Prod.fst) →
        whileNot (peek bytes) 0x65 (scanEntry bytes) (fuel + 1) version p =
          .error (.malformed "metainfo has duplicate info dictionaries") := by
      intro version' hstep hdup'
      have hok := (scansAt_scanEntry hlen version p).complete version' x.2 _ hstep hdrop
      obtain ⟨n, hn⟩ : ∃ n, fuel = n + 1 := ⟨fuel - 1, by omega⟩
      refine (whileNot_ok hb hne hok fuel).trans ?_
      rw [hn]
      exact ih (fun y hy => hall y (mem_cons_of_mem x hy)) version' _ hle hdup' (drop_add hdrop) n
        (by omega)
    by_cases hkey : x.1 = infoKey
    · obtain ⟨k', u, htext, hk', hinfo⟩ := hx
      simp only [if_pos hkey] at hinfo
      obtain ⟨has, hinfo⟩ := hinfo
      cases version with
      | some has' =>
        rw [htext, append_assoc] at hdrop
        exact whileNot_error hb hne (scanEntry_duplicate hlen (hkey ▸ hk') hdrop has') fuel
      | none =>
        rw [htext] at hgo
        exact hgo (some has) (rootStep_info (hkey ▸ hk') hinfo) (.inl rfl)
    · obtain ⟨k', u, htext, hk', hvalue⟩ := hx
      simp only [if_neg hkey] at hvalue
      rw [htext] at hgo
      refine hgo version (rootStep_other version hkey hk' hvalue) (hdup.imp_right fun hmem => ?_)
      exact (mem_cons.mp hmem).resolve_left fun h => hkey h.symm

theorem scan_duplicate (hlen : bytes.length < 2 ^ 64) {k rest : List UInt8} (hk : IsString infoKey k)
    {entries : List (List UInt8 × List UInt8)} (hall : ∀ x ∈ entries, IsRootEntry x)
    (hmem : infoKey ∈ entries.map Prod.fst)
    (hbytes : bytes = 0x64 :: (entries.flatMap Prod.snd ++ (k ++ rest))) :
    scan bytes = .error (.malformed "metainfo has duplicate info dictionaries") := by
  have hdrop : bytes.drop 0 = 0x64 :: (entries.flatMap Prod.snd ++ (k ++ rest)) := hbytes
  have hpos : 0 < bytes.length := by
    rw [hbytes]
    exact Nat.succ_pos _
  have hadvance : advance 0 = .ok ((), 1) := rfl
  have hexpect : expect bytes 0x64 "metainfo root must be a dictionary" 0 = .ok ((), 1) := by
    unfold expect
    rw [peek, bind_ok (peek_ok hdrop), if_neg (not_not_intro rfl)]
    exact hadvance
  have hloop := whileNot_duplicate hlen hk hall (bytes.length + 1) none 1 (by omega) hpos (.inr hmem)
    (by rw [hbytes]; rfl)
  have hroot : scanRoot bytes 0 = .error (.malformed "metainfo has duplicate info dictionaries") := by
    unfold scanRoot
    rw [bind_ok hexpect]
    exact bind_error hloop
  unfold scan
  rw [hroot]

/-! ### Encodings -/

theorem steps_others {d : List (List UInt8 × Value)} (version : Option (Bool × Bool))
    (hkey : ∀ x ∈ d, x.1 ≠ infoKey) (hheight : ∀ x ∈ d, x.1 ≠ infoKey → x.2.height ≤ maxDepth) :
    Steps RootStep version version (Value.encodeEntries d) := by
  induction d with
  | nil => exact .nil version
  | cons x d ih =>
    rw [forall_mem_cons] at hkey hheight
    have hvalue := isValue_encode x.2 _ (Nat.lt_succ_of_le (hheight.1 hkey.1))
    exact .cons (rootStep_other version hkey.1 (isString_string x.1) hvalue) (ih hkey.2 hheight.2)

theorem steps_info {es : List (List UInt8 × Value)} (has : Bool × Bool)
    (hheight : ∀ x ∈ es, x.2.height ≤ maxDepth) :
    Steps InfoStep has (has.1 || pieces ∈ es.map Prod.fst, has.2 || metaVersion ∈ es.map Prod.fst)
      (Value.encodeEntries es) := by
  induction es generalizing has with
  | nil =>
    have hnone : ∀ key : List UInt8, decide (key ∈ ([] : List (List UInt8 × Value)).map Prod.fst) = false :=
      fun _ => decide_eq_false not_mem_nil
    rw [hnone, hnone, Bool.or_false, Bool.or_false]
    exact .nil has
  | cons x es ih =>
    rw [forall_mem_cons] at hheight
    have hrest := ih (has.1 || x.1 = pieces, has.2 || x.1 = metaVersion) hheight.2
    have hstep : InfoStep has (has.1 || x.1 = pieces, has.2 || x.1 = metaVersion) (string x.1 ++ x.2.encode) :=
      ⟨x.1, ⟨string x.1, x.2.encode, rfl, isString_string x.1,
        isValue_encode x.2 _ (Nat.lt_succ_of_le hheight.1)⟩, rfl⟩
    have hsum := Steps.cons hstep hrest
    have heq : ∀ (a : Bool) (key : List UInt8), (a || decide (key ∈ (x :: es).map Prod.fst)) =
        (a || decide (x.1 = key) || decide (key ∈ es.map Prod.fst)) := by
      intro a key
      rw [map_cons, Bool.or_assoc]
      simp only [mem_cons, Bool.decide_or, eq_comm]
    rw [heq, heq]
    exact hsum

theorem steps_root {d es : List (List UInt8 × Value)}
    (hinfo : d.filter (fun x => x.1 = infoKey) = [(infoKey, .dict es)])
    (hheight : ∀ x ∈ d, x.1 ≠ infoKey → x.2.height ≤ maxDepth) (hes : ∀ x ∈ es, x.2.height ≤ maxDepth) :
    Steps RootStep none (some (decide (pieces ∈ es.map Prod.fst), decide (metaVersion ∈ es.map Prod.fst)))
      (Value.encodeEntries d) := by
  induction d with
  | nil => cases hinfo
  | cons x d ih =>
    rw [forall_mem_cons] at hheight
    by_cases hkey : x.1 = infoKey
    · rw [filter_cons_of_pos (by simpa using hkey)] at hinfo
      obtain ⟨rfl, hnone⟩ := cons.inj hinfo
      have hothers : ∀ y ∈ d, y.1 ≠ infoKey := fun y hy h =>
        filter_eq_nil_iff.mp hnone y hy (by simpa using h)
      have hall := steps_info (false, false) hes
      simp only [Bool.false_or] at hall
      exact .cons (rootStep_info (isString_string infoKey) ⟨_, rfl, hall⟩)
        (steps_others _ hothers hheight.2)
    · rw [filter_cons_of_neg (by simpa using hkey)] at hinfo
      have hvalue := isValue_encode x.2 _ (Nat.lt_succ_of_le (hheight.1 hkey))
      exact .cons (rootStep_other none hkey (isString_string x.1) hvalue) (ih hinfo hheight.2)

end

theorem validate_of_scan {bytes : List UInt8} {v1 : Bool} {P : Prop} [Decidable P]
    (h : scan bytes = .ok (v1, decide P)) : validateMetainfoVersion bytes = .ok () ↔ ¬P := by
  unfold validateMetainfoVersion
  rw [h]
  by_cases hP : P
  · rw [decide_eq_true hP]
    cases v1 <;> exact iff_of_false (fun h => by cases h) (not_not_intro hP)
  · rw [decide_eq_false hP]
    cases v1 <;> exact iff_of_true rfl hP

/-- **What is claimed** of a scan. -/
structure ReadsVersion (s : Slice) : Prop where
  encoding : ∀ d es, s.bytes = (Value.dict d).encode →
    d.filter (fun x => x.1 = infoKey) = [(infoKey, .dict es)] →
    (∀ x ∈ d, x.1 ≠ infoKey → x.2.height ≤ maxDepth) → (∀ x ∈ es, x.2.height ≤ maxDepth) →
    scan s.bytes = .ok (decide (pieces ∈ es.map Prod.fst), decide (metaVersion ∈ es.map Prod.fst)) ∧
    (validateMetainfoVersion s.bytes = .ok () ↔ metaVersion ∉ es.map Prod.fst)
  /-- It ends, and looks at nothing outside. -/
  total : (∃ has, scan s.bytes = .ok has) ∨ ∃ message, scan s.bytes = .error (.malformed message)
  /-- One info dictionary and nothing behind the root. -/
  accepted : ∀ has, scan s.bytes = .ok has → ∃ entries : List (List UInt8 × List UInt8),
    s.bytes = 0x64 :: (entries.flatMap Prod.snd ++ [0x65]) ∧ (∀ x ∈ entries, IsRootEntry x) ∧
    ∃ x, entries.filter (fun x => x.1 = infoKey) = [x] ∧ IsEntry x.1 (IsInfo has) x.2
  trailing : ∀ (s' : Slice) t has, t ≠ [] → s'.bytes = s.bytes ++ t → scan s.bytes = .ok has →
    scan s'.bytes = .error (.malformed "metainfo has trailing bytes")
  duplicate : ∀ (entries : List (List UInt8 × List UInt8)) k rest, (∀ x ∈ entries, IsRootEntry x) →
    infoKey ∈ entries.map Prod.fst → IsString infoKey k →
    s.bytes = 0x64 :: (entries.flatMap Prod.snd ++ (k ++ rest)) →
    scan s.bytes = .error (.malformed "metainfo has duplicate info dictionaries")

theorem reads_version (s : Slice) : ReadsVersion s := by
  have hlen : s.bytes.length < 2 ^ 64 := s.fits.trans (by decide)
  refine ⟨?_, ?_, ?_, ?_, ?_⟩
  · intro d es hbytes hinfo hheight hes
    have hscan := (scan_eq_ok hlen).mpr ⟨_, hbytes, steps_root hinfo hheight hes⟩
    exact ⟨hscan, validate_of_scan hscan⟩
  · cases h : scan s.bytes with
    | ok has => exact .inl ⟨has, rfl⟩
    | error stop =>
      obtain ⟨message, rfl⟩ := scan_safe hlen h
      exact .inr ⟨message, rfl⟩
  · intro has h
    obtain ⟨u, hbytes, hu⟩ := (scan_eq_ok hlen).mp h
    obtain ⟨entries, rfl, hall, hfound⟩ := entries_of_steps hu
    refine ⟨entries, hbytes, hall, ?_⟩
    rcases hfound with ⟨-, hnone⟩ | ⟨-, x, has', hone, hx, heq⟩
    · cases hnone
    · cases heq
      exact ⟨x, hone, hx⟩
  · intro s' t has ht hbytes h
    have hlen' : (s.bytes ++ t).length < 2 ^ 64 := hbytes ▸ s'.fits.trans (by decide)
    rw [hbytes]
    exact scan_trailing ht hlen' h
  · intro entries k rest hall hmem hk hbytes
    exact scan_duplicate hlen hk hall hmem hbytes

end Nzbd.Torrent.Metainfo
