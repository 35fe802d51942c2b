import Nzbd.Yenc.Decoder

/-!
# Articles on the wire

`yencWire` is the encoder of the test server: the three control lines, the data
escaped at 128 characters a line, dot-stuffing and the terminator.  It shares no
code with the decoder of `Nzbd.Yenc.Decoder`, and `pushAll_yencWire` says that
the two cancel out.

The proof follows the article.  `feed_stuff_encode` runs the decoder over the
body: between two encoded bytes it has nothing pending, and it is at a line start
exactly when the dot-stuffing is.  The control lines go through `feed_line` and
the three parsers, which read back what was written into each field.
-/

namespace Nzbd.Nserv

open List ByteMachine Utf8 Nzbd.Yenc
open Numeral (dec)

/-! ### The encoder -/

/-- A checksum in eight hexadecimal digits. -/
def hex (c : BitVec 32) : List UInt8 := Numeral.bytes (Numeral.padded 16 8 c.toNat)

def lineLen : Nat := 128

/-- The encoded form of one byte; the critical characters are escaped. -/
def encodeByte (b : UInt8) : List UInt8 :=
  let enc := b + 42
  if enc = 0x00 ∨ enc = 0x0A ∨ enc = 0x0D ∨ enc = 0x3D then [equals, enc + 64] else [enc]

/-- The encoded data from column `col` on.  A line is broken behind the byte
that fills it, and the last one is ended unless it has just been. -/
def encode (col : Nat) : List UInt8 → List UInt8
  | [] => if 0 < col then [cr, lf] else []
  | b :: bs =>
    let col := col + (encodeByte b).length
    if lineLen ≤ col then encodeByte b ++ [cr, lf] ++ encode 0 bs
    else encodeByte b ++ encode col bs

/-- Double the dot at the start of a line. -/
def stuff (lineStart : Bool) : List UInt8 → List UInt8
  | [] => []
  | b :: bs =>
    if lineStart ∧ b = period then period :: b :: stuff (b = lf) bs
    else b :: stuff (b = lf) bs

/-- The `=ybegin` line up to its line feed. -/
def beginLine (name : List UInt8) (fileSize : UInt64) (part total : UInt32) : List UInt8 :=
  ascii "=ybegin part=" ++ dec part.toNat ++ ascii " total=" ++ dec total.toNat ++
    ascii " line=" ++ dec lineLen ++ ascii " size=" ++ dec fileSize.toNat ++ ascii " name=" ++
    name ++ [cr]

def partLine (first last : UInt64) : List UInt8 :=
  ascii "=ypart begin=" ++ dec first.toNat ++ ascii " end=" ++ dec last.toNat ++ [cr]

def endLine (len : Nat) (part : UInt32) (crc : BitVec 32) : List UInt8 :=
  ascii "=yend size=" ++ dec len ++ ascii " part=" ++ dec part.toNat ++ ascii " pcrc32=" ++
    hex crc ++ [cr]

def yencWire (name data : List UInt8) (fileSize : UInt64) (part total : UInt32)
    (first last : UInt64) (crcOverride : Option (BitVec 32)) : List UInt8 :=
  let body := encode 0 data
  let crc := crcOverride.getD (Crc32.crc32 data)
  let art := beginLine name fileSize part total ++ [lf] ++ (partLine first last ++ [lf]) ++ body ++
    (endLine data.length part crc ++ [lf])
  stuff true art ++ [period, cr, lf]

/-! ### Dot-stuffing -/

/-- Whether a text that starts at `lineStart` ends at a line start. -/
def lineStartAfter (lineStart : Bool) (s : List UInt8) : Bool := s.foldl (fun _ b => b = lf) lineStart

@[simp] theorem lineStartAfter_concat (a : Bool) (s : List UInt8) (b : UInt8) :
    lineStartAfter a (s ++ [b]) = (b = lf : Bool) := by
  simp [lineStartAfter]

theorem stuff_append (a : Bool) (s t : List UInt8) :
    stuff a (s ++ t) = stuff a s ++ stuff (lineStartAfter a s) t := by
  induction s generalizing a with
  | nil => rfl
  | cons b s ih =>
    rw [cons_append, stuff, stuff, ih]
    split_ifs <;> rfl

theorem stuff_false {s : List UInt8} (hs : lf ∉ s) : stuff false s = s := by
  induction s with
  | nil => rfl
  | cons b s ih =>
    have hb : b ≠ lf := fun h => hs (by simp [h])
    rw [stuff, if_neg (by simp), decide_eq_false hb, ih (fun h => hs (by simp [h]))]

theorem stuff_break : stuff false [cr, lf] = [cr, lf] := rfl

theorem stuff_line {l : List UInt8} (hl : lf ∉ l) (hne : l.head? = some equals)
    (rest : List UInt8) : stuff true (l ++ [lf] ++ rest) = l ++ [lf] ++ stuff true rest := by
  cases l with
  | nil => nomatch hne
  | cons b l =>
    have hb : b = equals := by simpa using hne
    subst hb
    have hrest := stuff_false (s := l) (fun h => hl (by simp [h]))
    have hline : stuff true (equals :: l ++ [lf]) = equals :: l ++ [lf] := by
      rw [cons_append, stuff, if_neg (by decide), show decide (equals = lf) = false from rfl,
        stuff_append, hrest, stuff, if_neg (fun h => absurd h.2 (by decide))]
      rfl
    rw [stuff_append, hline, lineStartAfter_concat]
    rfl

/-! ### The body -/

/-- Between two encoded bytes: inside the body with nothing pending. -/
structure Clean (d : ByteState) : Prop where
  state : d.state = .body
  esc : d.esc = false
  pendingEq : d.pendingEq = false
  dot : d.dot = .none

variable {d : ByteState}

theorem Clean.lineStart (h : Clean d) (a : Bool) :
    Clean { d with atLineStart := a } := { h with }

theorem decode_escaped (b : UInt8) : b + 42 + 64 - 106 = b := by
  rw [UInt8.add_assoc]
  exact UInt8.add_sub_cancel b 106

theorem decode_plain (b : UInt8) : b + 42 - 42 = b := UInt8.add_sub_cancel b 42

theorem byteStep_clean (h : Clean d) (o : List UInt8) (b : UInt8) :
    byteStep (d, o) b = .more (plainByte d b o) := by
  rw [byteStep_body h.state, bodyByte, if_neg (by simp [h.esc]), if_neg (by simp [h.pendingEq]),
    dotByte, h.dot]

theorem feed_escaped (h : Clean d) (o : List UInt8) {e : UInt8} (hy : e ≠ 0x79)
    (hc : e ≠ cr) (hl : e ≠ lf) :
    feed byteStep (d, o) [equals, e] =
      (2, .more ({ d with atLineStart := false }, o ++ [e - 106])) := by
  cases hals : d.atLineStart with
  | true =>
    have h1 : byteStep (d, o) equals =
        .more ({ d with pendingEq := true, atLineStart := false }, o) := by
      rw [byteStep_clean h, plainByte, if_neg (fun h => absurd h.2 (by decide)),
        if_pos ⟨hals, rfl⟩]
    have h2 : byteStep ({ d with pendingEq := true, atLineStart := false }, o) e =
        .more ({ d with atLineStart := false }, o ++ [e - 106]) := by
      rw [byteStep_body (d := { d with pendingEq := true, atLineStart := false }) h.state, bodyByte,
        if_neg (by simp [h.esc]), if_pos rfl, pendingEqByte, if_neg hy, if_neg hc, if_neg hl,
        ← h.pendingEq]
    rw [feed_cons_more h1, feed_cons_more h2]
    rfl
  | false =>
    have h1 : byteStep (d, o) equals = .more ({ d with esc := true }, o) := by
      rw [byteStep_clean h, plainByte, if_neg (fun h => absurd h.2 (by decide)),
        if_neg (by simp [hals]), if_pos rfl]
    have h2 : byteStep ({ d with esc := true }, o) e =
        .more ({ d with atLineStart := false }, o ++ [e - 106]) := by
      rw [byteStep_body (d := { d with esc := true }) h.state, bodyByte, if_pos rfl, escByte,
        if_neg hc, if_neg hl, ← h.esc]
    rw [feed_cons_more h1, feed_cons_more h2]
    rfl

theorem feed_plain (h : Clean d) (o : List UInt8) {e : UInt8} (he : e ≠ equals)
    (hc : e ≠ cr) (hl : e ≠ lf) (hp : ¬ (d.atLineStart ∧ e = period)) :
    feed byteStep (d, o) [e] = (1, .more ({ d with atLineStart := false }, o ++ [e - 42])) := by
  have h1 : byteStep (d, o) e = .more ({ d with atLineStart := false }, o ++ [e - 42]) := by
    rw [byteStep_clean h, plainByte, if_neg hp, if_neg (fun h => he h.2), if_neg he, if_neg hc,
      if_neg hl]
  rw [feed_cons_more h1]
  rfl

theorem feed_dot (h : Clean d) (ha : d.atLineStart = true) (o : List UInt8) :
    feed byteStep (d, o) [period, period] =
      (2, .more ({ d with atLineStart := false }, o ++ [period - 42])) := by
  have h1 : byteStep (d, o) period = .more ({ d with dot := .seen }, o) := by
    rw [byteStep_clean h, plainByte, if_pos ⟨ha, rfl⟩]
  have h2 : byteStep ({ d with dot := .seen }, o) period =
      .more ({ d with atLineStart := false }, o ++ [period - 42]) := by
    rw [byteStep_body (d := { d with dot := .seen }) h.state, bodyByte, if_neg (by simp [h.esc]),
      if_neg (by simp [h.pendingEq]), dotByte, ← h.dot]
    rfl
  rw [feed_cons_more h1, feed_cons_more h2]
  rfl

/-- **One encoded byte is decoded**, at a line start and inside a line. -/
theorem feed_encodeByte (h : Clean d) (o : List UInt8) (b : UInt8) :
    feed byteStep (d, o) (stuff d.atLineStart (encodeByte b)) =
      ((stuff d.atLineStart (encodeByte b)).length,
        .more ({ d with atLineStart := false }, o ++ [b])) := by
  unfold encodeByte
  dsimp only
  split_ifs with hcrit
  · have hne : b + 42 + 64 ≠ 0x79 ∧ b + 42 + 64 ≠ cr ∧ b + 42 + 64 ≠ lf := by
      rcases hcrit with h | h | h | h <;> rw [h] <;> decide
    have hstuff : stuff d.atLineStart [equals, b + 42 + 64] = [equals, b + 42 + 64] := by
      rw [stuff, if_neg (fun h => absurd h.2 (by decide)), show decide (equals = lf) = false from rfl,
        stuff_false (by simpa using Ne.symm hne.2.2)]
    rw [hstuff, feed_escaped h o hne.1 hne.2.1 hne.2.2, decode_escaped]
    rfl
  · simp only [not_or] at hcrit
    by_cases hp : d.atLineStart ∧ b + 42 = period
    · have hstuff : stuff d.atLineStart [b + 42] = [period, period] := by
        rw [stuff, if_pos hp, hp.2]
        rfl
      rw [hstuff, feed_dot h hp.1, ← hp.2, decode_plain]
      rfl
    · have hstuff : stuff d.atLineStart [b + 42] = [b + 42] := by
        rw [stuff, if_neg hp]
        rfl
      rw [hstuff, feed_plain h o hcrit.2.2.2 hcrit.2.2.1 hcrit.2.1 hp, decode_plain]
      rfl

theorem feed_break (h : Clean d) (o : List UInt8) :
    feed byteStep (d, o) [cr, lf] = (2, .more ({ d with atLineStart := true }, o)) := by
  have h1 : byteStep (d, o) cr = .more (d, o) := by
    rw [byteStep_clean h, plainByte, if_neg (fun h => absurd h.2 (by decide)),
      if_neg (fun h => absurd h.2 (by decide)), if_neg (by decide), if_pos rfl]
  have h2 : byteStep (d, o) lf = .more ({ d with atLineStart := true }, o) := by
    rw [byteStep_clean h, plainByte, if_neg (fun h => absurd h.2 (by decide)),
      if_neg (fun h => absurd h.2 (by decide)), if_neg (by decide), if_neg (by decide), if_pos rfl]
  rw [feed_cons_more h1, feed_cons_more h2]
  rfl

theorem lf_not_mem_encodeByte (b : UInt8) : lf ∉ encodeByte b := by
  unfold encodeByte
  dsimp only
  split_ifs with hcrit
  · rcases hcrit with h | h | h | h <;> rw [h] <;> decide
  · simp only [not_or] at hcrit
    rw [mem_singleton]
    exact Ne.symm hcrit.2.1

theorem encodeByte_ne_nil (b : UInt8) : encodeByte b ≠ [] := by
  unfold encodeByte
  dsimp only
  split_ifs <;> simp

theorem lineStartAfter_encodeByte (a : Bool) (b : UInt8) :
    lineStartAfter a (encodeByte b) = false := by
  have hl := lf_not_mem_encodeByte b
  rcases eq_nil_or_concat (encodeByte b) with h | ⟨s, c, h⟩
  · exact absurd h (encodeByte_ne_nil b)
  · rw [h] at hl ⊢
    rw [concat_eq_append, lineStartAfter_concat]
    simp only [concat_eq_append, mem_append, mem_singleton, not_or] at hl
    simpa using Ne.symm hl.2

/-- **The decoder undoes the encoder on the body.**  At a line start of the one
both the other and the dot-stuffing are at one. -/
theorem feed_stuff_encode (h : Clean d) {col : Nat}
    (hcol : d.atLineStart = decide (col = 0)) (o data : List UInt8) :
    feed byteStep (d, o) (stuff d.atLineStart (encode col data)) =
      ((stuff d.atLineStart (encode col data)).length,
        .more ({ d with atLineStart := true }, o ++ data)) := by
  induction data generalizing d col o with
  | nil =>
    unfold encode
    split_ifs with hpos
    · have hals : d.atLineStart = false := by rw [hcol]; simp; omega
      rw [hals]
      exact (feed_break h o).trans (by rw [stuff_break]; simp)
    · have hals : d.atLineStart = true := by rw [hcol]; simp; omega
      obtain ⟨st, buf, hdr, trl, esc, als, pe, dot, fin⟩ := d
      dsimp only at hals
      subst hals
      simp [stuff]
  | cons b data ih =>
    have hb := feed_encodeByte h o b
    have hclean := h.lineStart false
    have hlen : 0 < (encodeByte b).length := length_pos_iff.mpr (encodeByte_ne_nil b)
    unfold encode
    dsimp only
    split_ifs with hfull
    · have hbr := feed_break hclean (o ++ [b])
      have hrest := ih (h.lineStart true) (decide_eq_true rfl).symm (o ++ [b])
      dsimp only at hbr hrest
      rw [append_assoc, stuff_append, lineStartAfter_encodeByte, stuff_append, stuff_break,
        show lineStartAfter false [cr, lf] = true from rfl, feed_append_of_more hb,
        feed_append_of_more hbr, hrest]
      simp
      omega
    · have hcol' : col + (encodeByte b).length ≠ 0 := by omega
      have hrest := ih hclean (decide_eq_false hcol').symm (o ++ [b])
      rw [stuff_append, lineStartAfter_encodeByte, feed_append_of_more hb, hrest]
      simp

/-! ### Numbers in the control lines -/

theorem parseU64_dec {n : Nat} (hn : n < 2 ^ 64) : parseU64 (dec n) = some n := by
  have hd := Numeral.digits_toDigits n
  rw [parseU64, dec, hd.fromUtf8, Option.bind_some, hd.trim,
    Numeral.fromStrRadix_toDigits (.inl rfl) hn]

theorem digits_hex (c : BitVec 32) : Numeral.Digits (Numeral.padded 16 8 c.toNat) :=
  Numeral.mem_padded (.inr rfl) 8 c.toNat

theorem parseHex32_hex (c : BitVec 32) : parseHex32 (hex c) = some c := by
  have hd := digits_hex c
  rw [parseHex32, hex, hd.fromUtf8, Option.bind_some, hd.trim,
    Numeral.fromStrRadix_padded (.inr rfl) c.isLt]
  simp

/-- A byte the control lines give a meaning to. -/
def Structural (b : UInt8) : Prop := b = lf ∨ b = blank ∨ b = equals

theorem not_mem_dec {b : UInt8} (hb : Structural b) (n : Nat) : b ∉ dec n := by
  intro h
  refine (Numeral.digits_toDigits n).byte (P := fun c => ¬ Structural c) (fun d hd => ?_) b h hb
  unfold Structural
  revert d
  decide

theorem not_mem_hex {b : UInt8} (hb : Structural b) (c : BitVec 32) : b ∉ hex c := by
  intro h
  refine (digits_hex c).byte (P := fun c => ¬ Structural c) (fun d hd => ?_) b h hb
  unfold Structural
  revert d
  decide

theorem length_hex_le (c : BitVec 32) : (hex c).length ≤ 8 := by
  rw [hex, Numeral.bytes, length_map]
  exact Numeral.length_padded_le (k := 7) (.inr rfl) c.isLt

/-! ### The control lines read back -/

theorem kvFields_token {x : List UInt8} (hx : blank ∉ x) : kvFields x = (kvField x).toList := by
  rw [kvFields, splitOn_eq_singleton hx]
  cases h : kvField x <;> simp [h]

theorem kvFields_cons {x : List UInt8} (hx : blank ∉ x) (rest : List UInt8) :
    kvFields (x ++ blank :: rest) = (kvField x).toList ++ kvFields rest := by
  rw [kvFields, splitOn_append_cons_self_of_not_mem hx, filterMap_cons]
  cases h : kvField x <;> rfl

/-- The attributes of a `=ybegin` line, without the name. -/
def beginAttrs (fileSize : UInt64) (part total : UInt32) : List UInt8 :=
  ascii "=ybegin" ++ blank :: (ascii "part=" ++ dec part.toNat ++ blank ::
    (ascii "total=" ++ dec total.toNat ++ blank :: (ascii "line=" ++ dec lineLen ++ blank ::
      (ascii "size=" ++ dec fileSize.toNat))))

theorem beginLine_eq (name : List UInt8) (fileSize : UInt64) (part total : UInt32) :
    beginLine name fileSize part total =
      beginAttrs fileSize part total ++ ascii " name=" ++ name ++ [cr] := by
  simp [beginLine, beginAttrs, ascii, blank]

theorem not_mem_field {b : UInt8} (hb : Structural b) {k : List UInt8} (hk : b ∉ k) (n : Nat) :
    b ∉ k ++ dec n := by
  simp [hk, not_mem_dec hb n]

theorem kvFields_beginAttrs (fileSize : UInt64) (part total : UInt32) :
    kvFields (beginAttrs fileSize part total) =
      [([], ascii "ybegin"), (ascii "part", dec part.toNat), (ascii "total", dec total.toNat),
        (ascii "line", dec lineLen), (ascii "size", dec fileSize.toNat)] := by
  have hb : Structural blank := .inr (.inl rfl)
  rw [beginAttrs, kvFields_cons (by decide), kvFields_cons (not_mem_field hb (by decide) _),
    kvFields_cons (not_mem_field hb (by decide) _), kvFields_cons (not_mem_field hb (by decide) _),
    kvFields_token (not_mem_field hb (by decide) _)]
  rfl

/-- No occurrence of `needle` starts inside `x`, whatever follows. -/
def Skips (needle x : List UInt8) : Prop :=
  ∀ rest, findSubslice needle (x ++ rest) = (findSubslice needle rest).map (· + x.length)

theorem Skips.append {needle x y : List UInt8} (hx : Skips needle x) (hy : Skips needle y) :
    Skips needle (x ++ y) := by
  intro rest
  rw [append_assoc, hx, hy, Option.map_map, length_append]
  congr 1
  funext n
  simp only [Function.comp_apply]
  omega

theorem Skips.cons {needle x : List UInt8} {b : UInt8}
    (hb : ∀ rest, needle.isPrefixOf (b :: (x ++ rest)) = false) (hx : Skips needle x) :
    Skips needle (b :: x) := by
  intro rest
  rw [cons_append, findSubslice, hb, if_neg (by simp), hx, Option.map_map]
  rfl

theorem skips_token {x : List UInt8} (hx : blank ∉ x) : Skips (ascii " name=") x := by
  induction x with
  | nil => intro rest; simp
  | cons b x ih =>
    refine Skips.cons (fun rest => ?_) (ih fun h => hx (by simp [h]))
    have hb : (blank == b) = false := by simpa using fun h => hx (by simp [h])
    show ((blank == b) && _) = false
    rw [hb, Bool.false_and]

theorem skips_field {c : UInt8} (hc : c ≠ 0x6E) {x : List UInt8} (hx : blank ∉ c :: x) :
    Skips (ascii " name=") (blank :: (c :: x)) := by
  refine Skips.cons (fun rest => ?_) (skips_token hx)
  have hb : (0x6E == c) = false := by simpa using Ne.symm hc
  show ((blank == blank) && ((0x6E == c) && _)) = false
  rw [hb, Bool.false_and, Bool.and_false]

theorem skips_beginAttrs (fileSize : UInt64) (part total : UInt32) :
    Skips (ascii " name=") (beginAttrs fileSize part total) := by
  have hfield : ∀ (c : UInt8) (k : List UInt8) (n : Nat), c ≠ 0x6E → blank ∉ c :: k →
      Skips (ascii " name=") (blank :: (c :: k ++ dec n)) := fun c k n hc hk =>
    skips_field hc (not_mem_field (.inr (.inl rfl)) hk n)
  have h := (skips_token (x := ascii "=ybegin") (by decide)).append
    (((hfield 0x70 (ascii "art=") part.toNat (by decide) (by decide)).append
      (hfield 0x74 (ascii "otal=") total.toNat (by decide) (by decide))).append
    ((hfield 0x6C (ascii "ine=") lineLen (by decide) (by decide)).append
      (hfield 0x73 (ascii "ize=") fileSize.toNat (by decide) (by decide))))
  simpa [beginAttrs, ascii] using h

theorem splitName_beginAttrs (fileSize : UInt64) (part total : UInt32) (name : List UInt8) :
    splitName (beginAttrs fileSize part total ++ ascii " name=" ++ name) =
      (beginAttrs fileSize part total, name) := by
  have hfind : findSubslice (ascii " name=") (ascii " name=" ++ name) = some 0 := rfl
  rw [splitName, append_assoc, skips_beginAttrs, hfind, Option.map_some]
  dsimp only
  rw [Nat.zero_add, take_left, ← drop_drop, drop_left]
  rfl

theorem ok_bind {ε α β : Type} (a : α) (f : α → Except ε β) :
    ((Except.ok a : Except ε α) >>= f) = f a := rfl

/-! Each field of a line sets the value it names. -/

theorem beginField_part (h : YencHeader) (n : UInt32) :
    beginField h (ascii "part", dec n.toNat) = .ok { h with part := some n.toNat } := by
  rw [beginField, if_neg (show ascii "part" ≠ ascii "size" by decide), if_pos rfl,
    parseU64_dec (by have := n.toNat_lt; omega)]
  simp only [orMalformed, Except.map, Nat.mod_eq_of_lt n.toNat_lt]

theorem beginField_total (h : YencHeader) (n : UInt32) :
    beginField h (ascii "total", dec n.toNat) = .ok { h with total := some n.toNat } := by
  rw [beginField, if_neg (show ascii "total" ≠ ascii "size" by decide),
    if_neg (show ascii "total" ≠ ascii "part" by decide), if_pos rfl,
    parseU64_dec (by have := n.toNat_lt; omega)]
  simp only [Option.map_some, Nat.mod_eq_of_lt n.toNat_lt]

theorem beginField_size (h : YencHeader) (n : UInt64) :
    beginField h (ascii "size", dec n.toNat) = .ok { h with size := n.toNat } := by
  rw [beginField, if_pos rfl, parseU64_dec n.toNat_lt]
  rfl

/-- **The `=ybegin` line is read back.** -/
theorem parseBegin_beginAttrs {fileSize : UInt64} (hsize : fileSize ≠ 0) (part total : UInt32)
    (name : List UInt8) :
    parseBegin (beginAttrs fileSize part total ++ ascii " name=" ++ name) =
      .ok {
        name := trim (fromUtf8Lossy name)
        size := fileSize.toNat
        part := some part.toNat
        total := some total.toNat
        partBegin := none
        partEnd := none } := by
  have hne : fileSize.toNat ≠ 0 := fun h => hsize (UInt64.toNat_inj.mp h)
  have hother : ∀ (h : YencHeader) (k v : List UInt8), k ≠ ascii "size" → k ≠ ascii "part" →
      k ≠ ascii "total" → beginField h (k, v) = .ok h := by
    intro h k v h1 h2 h3
    rw [beginField, if_neg h1, if_neg h2, if_neg h3]
  rw [parseBegin, splitName_beginAttrs]
  dsimp only
  rw [kvFields_beginAttrs, foldlM_cons, hother _ _ _ (by decide) (by decide) (by decide),
    ok_bind, foldlM_cons, beginField_part, ok_bind, foldlM_cons,
    beginField_total, ok_bind, foldlM_cons,
    hother _ _ _ (by decide) (by decide) (by decide), ok_bind, foldlM_cons,
    beginField_size, ok_bind, foldlM_nil]
  exact if_neg hne

/-- The `=ypart` line without its carriage return. -/
def partText (first last : UInt64) : List UInt8 :=
  ascii "=ypart" ++ blank :: (ascii "begin=" ++ dec first.toNat ++ blank ::
    (ascii "end=" ++ dec last.toNat))

theorem partLine_eq (first last : UInt64) : partLine first last = partText first last ++ [cr] := by
  simp [partLine, partText, ascii, blank]

/-- **The `=ypart` line is read back.** -/
theorem parsePart_partText {first last : UInt64} (h1 : 1 ≤ first.toNat)
    (h2 : first.toNat ≤ last.toNat) :
    parsePart (partText first last) = .ok (first.toNat, last.toNat) := by
  have hb : Structural blank := .inr (.inl rfl)
  have hkv : kvFields (partText first last) =
      [([], ascii "ypart"), (ascii "begin", dec first.toNat), (ascii "end", dec last.toNat)] := by
    rw [partText, kvFields_cons (by decide), kvFields_cons (not_mem_field hb (by decide) _),
      kvFields_token (not_mem_field hb (by decide) _)]
    rfl
  have hfold : (kvFields (partText first last)).foldl partField (none, none) =
      (some first.toNat, some last.toNat) := by
    rw [hkv]
    simp only [foldl_cons, foldl_nil, partField, parseU64_dec first.toNat_lt,
      parseU64_dec last.toNat_lt]
    rfl
  rw [parsePart, hfold]
  dsimp only
  rw [if_pos ⟨h1, h2⟩]

/-- The `=yend` line without its carriage return. -/
def endText (len : Nat) (part : UInt32) (crc : BitVec 32) : List UInt8 :=
  ascii "=yend" ++ blank :: (ascii "size=" ++ dec len ++ blank ::
    (ascii "part=" ++ dec part.toNat ++ blank :: (ascii "pcrc32=" ++ hex crc)))

theorem endLine_eq (len : Nat) (part : UInt32) (crc : BitVec 32) :
    endLine len part crc = endText len part crc ++ [cr] := by
  simp [endLine, endText, ascii, blank]

/-- **The `=yend` line is read back.** -/
theorem parseEnd_endText {len : Nat} (hlen : len < 2 ^ 64) (part : UInt32) (crc : BitVec 32) :
    parseEnd (endText len part crc) =
      .ok { size := len, part := some part.toNat, pcrc32 := some crc, crc32 := none } := by
  have hb : Structural blank := .inr (.inl rfl)
  have hkv : kvFields (endText len part crc) =
      [([], ascii "yend"), (ascii "size", dec len), (ascii "part", dec part.toNat),
        (ascii "pcrc32", hex crc)] := by
    rw [endText, kvFields_cons (by decide), kvFields_cons (not_mem_field hb (by decide) _),
      kvFields_cons (not_mem_field hb (by decide) _),
      kvFields_token (by simp [not_mem_hex hb crc]; decide)]
    rfl
  have hpart : parseU64 (dec part.toNat) = some part.toNat :=
    parseU64_dec (by have := part.toNat_lt; omega)
  have hmod : part.toNat % 2 ^ 32 = part.toNat := Nat.mod_eq_of_lt part.toNat_lt
  have h0 : endField YencTrailer.default ([], ascii "yend") = .ok YencTrailer.default := by
    rw [endField, if_neg (by decide), if_neg (by decide), if_neg (by decide), if_neg (by decide)]
  have h1 : ∀ t, endField t (ascii "size", dec len) = .ok { t with size := len } := by
    intro t
    rw [endField, if_pos rfl, parseU64_dec hlen]
    rfl
  have h2 : ∀ t, endField t (ascii "part", dec part.toNat) =
      .ok { t with part := some part.toNat } := by
    intro t
    rw [endField, if_neg (show ascii "part" ≠ ascii "size" by decide), if_pos rfl, hpart,
      Option.map_some, hmod]
  have h3 : ∀ t, endField t (ascii "pcrc32", hex crc) = .ok { t with pcrc32 := some crc } := by
    intro t
    rw [endField, if_neg (show ascii "pcrc32" ≠ ascii "size" by decide),
      if_neg (show ascii "pcrc32" ≠ ascii "part" by decide), if_pos rfl, parseHex32_hex]
  rw [parseEnd, hkv, foldlM_cons, h0, ok_bind, foldlM_cons, h1, ok_bind,
    foldlM_cons, h2, ok_bind, foldlM_cons, h3, ok_bind, foldlM_nil]
  rfl

/-! ### The run over an article -/

theorem lineStartAfter_encode (data : List UInt8) (col : Nat) :
    lineStartAfter (decide (col = 0)) (encode col data) = true := by
  have happ : ∀ (a : Bool) (x y : List UInt8),
      lineStartAfter a (x ++ y) = lineStartAfter (lineStartAfter a x) y := by
    intro a x y
    simp [lineStartAfter]
  induction data generalizing col with
  | nil =>
    unfold encode
    split_ifs with h
    · rfl
    · exact decide_eq_true (by omega)
  | cons b data ih =>
    have hlen : 0 < (encodeByte b).length := length_pos_iff.mpr (encodeByte_ne_nil b)
    unfold encode
    dsimp only
    split_ifs
    · rw [happ, happ]
      exact ih 0
    · rw [happ, lineStartAfter_encodeByte]
      have h := ih (col + (encodeByte b).length)
      rwa [decide_eq_false (by omega)] at h

theorem chomp_concat_cr (l : List UInt8) : chomp (l ++ [cr]) = l := by
  simp [chomp]

/-- The header an article announces in its first line. -/
def wireHeader (name : List UInt8) (fileSize : UInt64) (part total : UInt32) : YencHeader where
  name := trim (fromUtf8Lossy name)
  size := fileSize.toNat
  part := some part.toNat
  total := some total.toNat
  partBegin := none
  partEnd := none

/-- The decoder behind the `=ybegin` line, and behind the `=ypart` line. -/
def afterBegin (h : YencHeader) : ByteState :=
  { ByteState.new with header := h, state := .expectPart }

def afterPart (h : YencHeader) (first last : UInt64) : ByteState :=
  { afterBegin h with
    header := { h with partBegin := some first.toNat, partEnd := some last.toNat } }.enterBody

variable {name : List UInt8}

theorem lf_not_mem_beginLine (hname : lf ∉ name) (fileSize : UInt64)
    (part total : UInt32) : lf ∉ beginLine name fileSize part total := by
  have hd := fun n => not_mem_dec (.inl rfl : Structural lf) n
  simp only [beginLine, mem_append, hd, hname, or_false, not_or]
  decide

theorem lf_not_mem_partLine (first last : UInt64) : lf ∉ partLine first last := by
  have hd := fun n => not_mem_dec (.inl rfl : Structural lf) n
  simp only [partLine, mem_append, hd, or_false, not_or]
  decide

theorem lf_not_mem_endLine (len : Nat) (part : UInt32) (crc : BitVec 32) :
    lf ∉ endLine len part crc := by
  have hd := fun n => not_mem_dec (.inl rfl : Structural lf) n
  have hh := not_mem_hex (.inl rfl : Structural lf) crc
  simp only [endLine, mem_append, hd, hh, or_false, not_or]
  decide

theorem feed_beginLine (hname : lf ∉ name) {fileSize : UInt64}
    (hsize : fileSize ≠ 0) {part total : UInt32}
    (hlen : (beginLine name fileSize part total).length ≤ maxLine) :
    feed byteStep (.new, []) (beginLine name fileSize part total ++ [lf]) =
      ((beginLine name fileSize part total).length + 1,
        .more (afterBegin (wireHeader name fileSize part total), [])) := by
  have hlf := lf_not_mem_beginLine hname fileSize part total
  have hpre : (ascii "=ybegin ").isPrefixOf
      (beginAttrs fileSize part total ++ ascii " name=" ++ name) = true := rfl
  rw [feed_line (by decide) [] hlf (by simpa [ByteState.new] using hlen)]
  have ht : takeLine { ByteState.new with lineBuf := beginLine name fileSize part total } =
      .more (afterBegin (wireHeader name fileSize part total)) := by
    unfold takeLine
    dsimp only [ByteState.new]
    rw [beginLine_eq, chomp_concat_cr, if_pos hpre, parseBegin_beginAttrs hsize]
    rfl
  rw [show ByteState.new.lineBuf ++ beginLine name fileSize part total =
    beginLine name fileSize part total from rfl, ht]
  rfl

theorem feed_partLine (h : YencHeader) {first last : UInt64} (h1 : 1 ≤ first.toNat)
    (h2 : first.toNat ≤ last.toNat) :
    feed byteStep (afterBegin h, []) (partLine first last ++ [lf]) =
      ((partLine first last).length + 1, .more (afterPart h first last, [])) := by
  have hlf := lf_not_mem_partLine first last
  have hlen : (partLine first last).length ≤ maxLine := by
    have hf := Numeral.length_dec_le first.toNat_lt
    have hl := Numeral.length_dec_le last.toNat_lt
    simp only [partLine, length_append]
    have : (ascii "=ypart begin=").length + (ascii " end=").length + [cr].length + 40 ≤ maxLine := by
      decide
    omega
  have hpre : (ascii "=ypart ").isPrefixOf (partText first last) = true := rfl
  have hstate : (afterBegin h).state ≠ .body := fun h => (nomatch h)
  rw [feed_line hstate [] hlf (by simpa [afterBegin, ByteState.new] using hlen)]
  have ht : takeLine { afterBegin h with lineBuf := partLine first last } =
      .more (afterPart h first last) := by
    unfold takeLine
    dsimp only [afterBegin, ByteState.new]
    rw [partLine_eq, chomp_concat_cr, if_pos hpre, parsePart_partText h1 h2]
    rfl
  rw [show (afterBegin h).lineBuf ++ partLine first last = partLine first last from rfl, ht]
  rfl

theorem clean_afterPart (h : YencHeader) (first last : UInt64) : Clean (afterPart h first last) :=
  ⟨rfl, rfl, rfl, rfl⟩

/-- The decoder behind the `=yend` line. -/
def afterEnd (d : ByteState) (t : YencTrailer) : ByteState :=
  { d with trailer := t, state := .drain, lineBuf := [], pendingEq := false, atLineStart := false }

theorem feed_endLine (hd : Clean d) (ha : d.atLineStart = true) (o : List UInt8)
    {len : Nat} (hlen : len < 2 ^ 64) (part : UInt32) (crc : BitVec 32) :
    feed byteStep (d, o) (endLine len part crc ++ [lf]) =
      ((endLine len part crc).length + 1,
        .more (afterEnd d ⟨len, some part.toNat, some crc, none⟩, o)) := by
  let rest : List UInt8 := ascii "end size=" ++ dec len ++ ascii " part=" ++ dec part.toNat ++
    ascii " pcrc32=" ++ hex crc ++ [cr]
  have hsplit : endLine len part crc = equals :: 0x79 :: rest := rfl
  have hlf : lf ∉ rest := by
    have hn := fun n => not_mem_dec (.inl rfl : Structural lf) n
    have hh := not_mem_hex (.inl rfl : Structural lf) crc
    simp only [rest, mem_append, hn, hh, or_false, not_or]
    decide
  have hmax : 2 + rest.length ≤ maxLine := by
    have h1 := Numeral.length_dec_le hlen
    have h2 := Numeral.length_dec_le (n := part.toNat) (by have := part.toNat_lt; omega)
    have h3 := length_hex_le crc
    simp only [rest, length_append]
    have : 2 + (ascii "end size=").length + (ascii " part=").length + (ascii " pcrc32=").length +
      [cr].length + 48 ≤ maxLine := by decide
    omega
  let d₁ : ByteState := { d with pendingEq := true, atLineStart := false }
  let d₂ : ByteState := { d with
    pendingEq := false, atLineStart := false, lineBuf := ascii "=y", state := .control }
  have h1 : byteStep (d, o) equals = .more (d₁, o) := by
    rw [byteStep_clean hd, plainByte, if_neg (fun h => absurd h.2 (by decide)), if_pos ⟨ha, rfl⟩]
  have h2 : byteStep (d₁, o) 0x79 = .more (d₂, o) := by
    rw [byteStep_body (d := d₁) hd.state, bodyByte, if_neg (by simp [d₁, hd.esc]), if_pos rfl,
      pendingEqByte, if_pos rfl]
  have h3 : feed byteStep (d₂, o) (rest ++ [lf]) = (rest.length + 1,
      .more (afterEnd d ⟨len, some part.toNat, some crc, none⟩, o)) := by
    have hpre : (ascii "=yend").isPrefixOf (endText len part crc) = true := rfl
    have ht : takeLine { d₂ with lineBuf := endLine len part crc } =
        .more (afterEnd d ⟨len, some part.toNat, some crc, none⟩) := by
      unfold takeLine
      dsimp only [d₂]
      rw [endLine_eq, chomp_concat_cr, if_pos hpre, parseEnd_endText hlen]
      rfl
    have hstate : d₂.state ≠ .body := fun h => (nomatch h)
    rw [feed_line hstate o hlf hmax, show d₂.lineBuf ++ rest = endLine len part crc from rfl,
      ht]
    rfl
  rw [hsplit, cons_append, cons_append, feed_cons_more h1, feed_cons_more h2, h3]
  rfl

theorem feed_end (hs : d.state = .drain) (hb : d.lineBuf = []) (o : List UInt8) :
    feed byteStep (d, o) [period, cr, lf] = (3, .done ({ d with finished := true }, o)) := by
  have hstate : d.state ≠ .body := by rw [hs]; simp
  have hline := feed_line hstate o (l := [period, cr]) (by decide) (by rw [hb]; decide)
  refine hline.trans ?_
  have ht : takeLine { d with lineBuf := d.lineBuf ++ [period, cr] } =
      .done { d with finished := true } := by
    unfold takeLine
    dsimp only
    rw [hs, show chomp (d.lineBuf ++ [period, cr]) = ascii "." by rw [hb]; rfl]
    dsimp only
    rw [if_pos rfl, ← hb, ← hs]
  rw [ht]
  rfl

theorem yencWire_eq (hname : lf ∉ name) (data : List UInt8)
    (fileSize : UInt64) (part total : UInt32) (first last : UInt64) (crc : Option (BitVec 32)) :
    yencWire name data fileSize part total first last crc =
      (beginLine name fileSize part total ++ [lf]) ++ ((partLine first last ++ [lf]) ++
        (stuff true (encode 0 data) ++
          ((endLine data.length part (crc.getD (Crc32.crc32 data)) ++ [lf]) ++
            [period, cr, lf]))) := by
  have hend := stuff_line (lf_not_mem_endLine data.length part (crc.getD (Crc32.crc32 data))) rfl []
  have hbody : lineStartAfter true (encode 0 data) = true := lineStartAfter_encode data 0
  rw [append_nil] at hend
  unfold yencWire
  dsimp only
  rw [append_assoc, append_assoc, stuff_line (lf_not_mem_beginLine hname _ _ _) rfl,
    stuff_line (lf_not_mem_partLine first last) rfl, stuff_append, hbody, hend]
  simp [stuff]

/-- The decoder that has read a whole article. -/
def afterWire (name data : List UInt8) (fileSize : UInt64) (part total : UInt32)
    (first last : UInt64) : ByteState :=
  { afterEnd { afterPart (wireHeader name fileSize part total) first last with atLineStart := true }
      ⟨data.length, some part.toNat, some (Crc32.crc32 data), none⟩ with
    finished := true }

/-- **The run over an article**, whatever checksum it carries and whatever follows it. -/
theorem feed_yencWire (hname : lf ∉ name) {data : List UInt8}
    {fileSize : UInt64} (hsize : fileSize ≠ 0) (part total : UInt32) {first last : UInt64}
    (h1 : 1 ≤ first.toNat) (h2 : first.toNat ≤ last.toNat) (hdata : data.length < 2 ^ 64)
    (hlen : (beginLine name fileSize part total).length ≤ maxLine) (rest : List UInt8)
    (crc : Option (BitVec 32) := none) :
    feed byteStep (.new, []) (yencWire name data fileSize part total first last crc ++ rest) =
      ((yencWire name data fileSize part total first last crc).length,
        .done ({ afterWire name data fileSize part total first last with
          trailer.pcrc32 := some (crc.getD (Crc32.crc32 data)) }, data)) := by
  have hb := feed_beginLine hname hsize hlen
  have hp := feed_partLine (wireHeader name fileSize part total) h1 h2
  have hclean := clean_afterPart (wireHeader name fileSize part total) first last
  have hd := feed_stuff_encode hclean (decide_eq_true rfl).symm [] data
  have he := feed_endLine (hclean.lineStart true) rfl data hdata part (crc.getD (Crc32.crc32 data))
  have ht := feed_end (d := afterEnd
    { afterPart (wireHeader name fileSize part total) first last with atLineStart := true }
    ⟨data.length, some part.toNat, some (crc.getD (Crc32.crc32 data)), none⟩) rfl rfl data
  have hals : (afterPart (wireHeader name fileSize part total) first last).atLineStart = true := rfl
  rw [hals, nil_append] at hd
  have hrun : feed byteStep (.new, [])
      (yencWire name data fileSize part total first last crc) =
        ((yencWire name data fileSize part total first last crc).length,
          .done ({ afterWire name data fileSize part total first last with
            trailer.pcrc32 := some (crc.getD (Crc32.crc32 data)) }, data)) := by
    rw [yencWire_eq hname, feed_append_of_more hb, feed_append_of_more hp, feed_append_of_more hd,
      feed_append_of_more he, ht]
    simp only [length_append, length_cons, length_nil, Nat.add_assoc]
    rfl
  rw [feed_append_of_stopped (by rw [hrun]; rfl), hrun]

/-- **Round trip.**  An article of the encoder, cut into any chunks and followed
by anything, is decoded to its data; exactly its own bytes are taken, checksum
and length hold, and the part lies where it was cut from the file. -/
theorem pushAll_yencWire {name data : List UInt8} {fileSize : UInt64} {part total : UInt32}
    {first last : UInt64} (hname : lf ∉ name) (hdata : data ≠ []) (hsize : fileSize ≠ 0)
    (hfirst : 1 ≤ first.toNat) (hlast : last.toNat = first.toNat + data.length - 1)
    (hline : (beginLine name fileSize part total).length ≤ maxLine)
    {rest : List UInt8} {cs : List (List UInt8)}
    (hcs : cs.flatten = yencWire name data fileSize part total first last none ++ rest) :
    let p := YencDecoder.new.pushAll [] cs
    p.res = .ok (.finished, (yencWire name data fileSize part total first last none).length) ∧
      p.out = data ∧
      ∃ r, p.dec.takeResult = some r ∧ r.crcOk = some true ∧ r.lenOk = true ∧
        r.offset = first.toNat - 1 := by
  have hpos : 0 < data.length := length_pos_iff.mpr hdata
  have hlen : data.length < 2 ^ 64 := by have := last.toNat_lt; omega
  have hle : first.toNat ≤ last.toNat := by omega
  have hrun := feed_yencWire hname hsize part total hfirst hle hlen hline rest
  have hpush : YencDecoder.new.push cs.flatten [] =
      ⟨.ok (.finished, (yencWire name data fileSize part total first last none).length),
        YencDecoder.new.absorb (afterWire name data fileSize part total first last) data, data⟩ := by
    rw [YencDecoder.push_eq rfl, hcs, show YencDecoder.new.toByteState = .new from rfl, hrun]
    rfl
  have hobs := YencDecoder.pushAll_observe (d := .new) rfl [] cs
  rw [hpush] at hobs
  simp only [Pushed.observe, Prod.mk.injEq] at hobs
  dsimp only
  rw [hobs.1, hobs.2.1, hobs.2.2]
  refine ⟨rfl, rfl, _, rfl, ?_, ?_, rfl⟩
  · exact congrArg some (beq_self_eq_true _)
  · have hexp : last.toNat - first.toNat + 1 = data.length := by omega
    simp only [YencDecoder.expectedLen, YencDecoder.absorb, afterWire, afterEnd, afterPart,
      ByteState.enterBody, YencDecoder.new, Nat.zero_add, beq_self_eq_true, Bool.true_and,
      if_pos hle, hexp]

/-- A part of one byte, cut inside the header and followed by the next response. -/
theorem pushAll_yencWire_byte :
    let wire := yencWire (ascii "a b.bin") [0x04] 9 2 9 2 2 none
    let p := YencDecoder.new.pushAll [] [wire.take 20, wire.drop 20 ++ ascii "222 next"]
    p.res = .ok (.finished, wire.length) ∧ p.out = [0x04] ∧
      ∃ r, p.dec.takeResult = some r ∧ r.crcOk = some true ∧ r.lenOk = true ∧
        r.offset = (2 : UInt64).toNat - 1 :=
  pushAll_yencWire (by decide) (by decide) (by decide) (by decide) (by decide) (by decide)
    (by rw [flatten_cons, flatten_singleton, ← append_assoc, take_append_drop])

/-- **A name too long for the decoder's line buffer** is the one thing the two
disagree on: the article is rejected at its first line. -/
theorem pushAll_yencWire_too_long (hname : lf ∉ name) (data : List UInt8)
    {fileSize : UInt64} {part total : UInt32} (first last : UInt64)
    (hline : maxLine < (beginLine name fileSize part total).length)
    {rest : List UInt8} {cs : List (List UInt8)}
    (hcs : cs.flatten = yencWire name data fileSize part total first last none ++ rest) :
    (YencDecoder.new.pushAll [] cs).res = .error (.malformed "line too long") := by
  have hobs := congrArg Prod.fst (YencDecoder.pushAll_observe (d := .new) rfl [] cs)
  refine hobs.trans ?_
  have hlf := lf_not_mem_beginLine hname fileSize part total
  obtain ⟨n, s, hfail⟩ := feed_too_long (d := .new) (by decide) [] hlf (by decide)
    (by simpa [ByteState.new] using hline)
    ([lf] ++ ((partLine first last ++ [lf]) ++ (stuff true (encode 0 data) ++
      ((endLine data.length part (Crc32.crc32 data) ++ [lf]) ++ [period, cr, lf]))) ++ rest)
  have hsplit : cs.flatten = beginLine name fileSize part total ++
      ([lf] ++ ((partLine first last ++ [lf]) ++ (stuff true (encode 0 data) ++
        ((endLine data.length part (Crc32.crc32 data) ++ [lf]) ++ [period, cr, lf]))) ++ rest) := by
    rw [hcs, yencWire_eq hname]
    simp
  show (YencDecoder.new.push cs.flatten []).res = _
  rw [YencDecoder.push_eq rfl, hsplit, show YencDecoder.new.toByteState = .new from rfl, hfail]

/-- A name of 8192 letters. -/
theorem pushAll_yencWire_long_name :
    lf ∉ List.replicate 8192 0x61 ∧
      (YencDecoder.new.pushAll []
        [yencWire (List.replicate 8192 0x61) [0] 1 1 1 1 1 none]).res =
          .error (.malformed "line too long") := by
  have hname : lf ∉ List.replicate 8192 0x61 := by
    rw [mem_replicate]
    decide
  refine ⟨hname, pushAll_yencWire_too_long hname [0] 1 1 ?_
    (by rw [flatten_singleton, append_nil])⟩
  rw [beginLine_eq]
  simp only [length_append, length_replicate, maxLine, length_singleton]
  omega

end Nzbd.Nserv
