import Nzbd.Lib.Chunks
import Nzbd.Post.Rename

/-!
# The packets of a recovery file

`scan` walks a file packet by packet and takes down what each has to say.  Every part of the file is
a `slice`, and where there is none the process stops.  A packet that ends behind the file ends the
walk, so a file that has been cut says what it still holds and nothing else.

A length is added to a position without a check.  Where the sum leaves the machine word, the packet
ends before it begins, and there is no slice (`Overlong`).  Nothing else stops the process, and what
the parts of a file say then are the first parts of what the file says: `tolerant_iff`.
-/

namespace Nzbd.Par2

open List Option

open Utf8 (ascii fromUtf8Lossy)
open Post (Bytes par2Magic packetMain packetFileDesc fromLeBytes)

/-! ### The walk -/

def packetIfsc : Bytes := ascii "PAR 2.0" ++ 0 :: (ascii "IFSC" ++ [0, 0, 0, 0])

def packetRecvSlic : Bytes := ascii "PAR 2.0" ++ 0 :: ascii "RecvSlic"

/-- One source file, as the recovery set describes it. -/
structure FileDesc where
  id : Bytes
  name : Text
  length : Nat
  md5_16k : Bytes

/-- What one file has to say. -/
structure Scan where
  sliceSize : Nat
  descs : List FileDesc
  crcs : List (Bytes × List Nat)
  exponents : List Nat

/-- The bytes from `i` to `j`. -/
def slice (bs : Bytes) (i j : Nat) : Option Bytes :=
  if i ≤ j ∧ j ≤ bs.length then some ((bs.drop i).take (j - i)) else none

/-- The chunks in full; what is left over is not one. -/
def chunksExact (n : Nat) (bs : Bytes) : List Bytes :=
  (Chunks.chunks n bs).filter fun c => c.length = n

/-- One packet; the ids that have been seen are those of the descriptions. -/
def Scan.packet (out : Scan) (ptype body : Bytes) : Option Scan :=
  if ptype = packetMain ∧ 12 ≤ body.length then do
    let size ← slice body 0 8
    some { out with sliceSize := fromLeBytes size }
  else if ptype = packetFileDesc ∧ 56 ≤ body.length then do
    let id ← slice body 0 16
    if out.descs.any (·.id = id) then some out
    else do
      let md5_16k ← slice body 32 48
      let name ← slice body 56 body.length
      let length ← slice body 48 56
      some { out with
        descs := out.descs ++
          [{ id := id
             name := trimEndMatches (· = '\x00') (fromUtf8Lossy name)
             length := fromLeBytes length
             md5_16k := md5_16k }] }
  else if ptype = packetIfsc ∧ 16 ≤ body.length then do
    let id ← slice body 0 16
    if out.crcs.any (·.1 = id) then some out
    else do
      let rest ← slice body 16 body.length
      let v ← (chunksExact 20 rest).mapM fun chunk => (slice chunk 16 20).map fromLeBytes
      some { out with crcs := out.crcs ++ [(id, v)] }
  else if ptype = packetRecvSlic ∧ 4 ≤ body.length then do
    let e ← slice body 0 4
    let e := fromLeBytes e
    if e ∈ out.exponents then some out
    else some { out with exponents := out.exponents ++ [e] }
  else some out

/-- The packets from `pos` on; where one ends is a machine word. -/
def scanFrom : Nat → Nat → Bytes → Scan → Option Scan
  | 0, _, _, _ => none
  | fuel + 1, pos, bytes, out =>
    if bytes.length < pos + 64 then some out
    else do
      let magic ← slice bytes pos (pos + 8)
      if magic ≠ par2Magic then scanFrom fuel (pos + 4) bytes out
      else do
        let len := fromLeBytes (← slice bytes (pos + 8) (pos + 16))
        let last := (pos + len) % 2 ^ 64
        if len < 64 ∨ bytes.length < last then some out
        else do
          let ptype ← slice bytes (pos + 48) (pos + 64)
          let body ← slice bytes (pos + 64) last
          scanFrom fuel (pos + len) bytes (← out.packet ptype body)

def scan (bytes : Bytes) : Option Scan := scanFrom (bytes.length + 1) 0 bytes ⟨0, [], [], []⟩

/-! ### Where the walk goes -/

/-- A packet starts here. -/
def MagicAt (bytes : Bytes) (pos : Nat) : Prop := (bytes.drop pos).take 8 = par2Magic

/-- How long it says it is. -/
def lenAt (bytes : Bytes) (pos : Nat) : Nat := fromLeBytes ((bytes.drop (pos + 8)).take 8)

/-- The positions of the walk: by words up to a packet, and by packets. -/
inductive Reached (bytes : Bytes) : Nat → Prop
  | start : Reached bytes 0
  | junk {pos : Nat} (hpos : Reached bytes pos) (hroom : pos + 64 ≤ bytes.length)
      (hmagic : ¬MagicAt bytes pos) : Reached bytes (pos + 4)
  | packet {pos : Nat} (hpos : Reached bytes pos) (hroom : pos + 64 ≤ bytes.length)
      (hmagic : MagicAt bytes pos) (hlen : 64 ≤ lenAt bytes pos)
      (hin : pos + lenAt bytes pos ≤ bytes.length) : Reached bytes (pos + lenAt bytes pos)

/-- The packet ends where no machine word points. -/
def Overlong (bytes : Bytes) (pos : Nat) : Prop :=
  pos + 64 ≤ bytes.length ∧ MagicAt bytes pos ∧ 64 ≤ lenAt bytes pos ∧
    2 ^ 64 ≤ pos + lenAt bytes pos

def NoOverlong (bytes : Bytes) : Prop := ∀ pos, Reached bytes pos → ¬Overlong bytes pos

/-- What is said first stays. -/
structure Extends (a b : Scan) : Prop where
  descs : a.descs <+: b.descs
  crcs : a.crcs <+: b.crcs
  exponents : a.exponents <+: b.exponents

section Packet

variable {a b c out : Scan} {bs ptype body : Bytes} {i j : Nat}

theorem Extends.refl (a : Scan) : Extends a a :=
  ⟨prefix_rfl, prefix_rfl, prefix_rfl⟩

theorem Extends.trans (hab : Extends a b) (hbc : Extends b c) : Extends a c :=
  ⟨hab.descs.trans hbc.descs, hab.crcs.trans hbc.crcs, hab.exponents.trans hbc.exponents⟩

theorem slice_of_le (hij : i ≤ j) (hj : j ≤ bs.length) :
    slice bs i j = some ((bs.drop i).take (j - i)) := if_pos ⟨hij, hj⟩

theorem mapM_chunks (rest : Bytes) :
    ∃ v, (chunksExact 20 rest).mapM (fun chunk => (slice chunk 16 20).map fromLeBytes) = some v := by
  have hlength : ∀ chunk ∈ chunksExact 20 rest, chunk.length = 20 := fun chunk h =>
    of_decide_eq_true (mem_filter.mp h).2
  generalize chunksExact 20 rest = chunks at hlength
  induction chunks with
  | nil => exact ⟨[], rfl⟩
  | cons chunk chunks ih =>
    obtain ⟨v, hv⟩ := ih fun x hx => hlength x (mem_cons_of_mem _ hx)
    have hchunk : 20 ≤ chunk.length := (hlength chunk mem_cons_self).ge
    exact ⟨_, by rw [mapM_cons, hv, slice_of_le (by omega) hchunk]; rfl⟩

/-- **Every packet is read**, whatever it holds, and adds to what has been said. -/
theorem packet_spec (out : Scan) (ptype body : Bytes) :
    ∃ out', out.packet ptype body = some out' ∧ Extends out out' := by
  unfold Scan.packet
  split_ifs with hmain hdesc hifsc hrecv
  · rw [slice_of_le (by omega) (by omega)]
    exact ⟨_, rfl, ⟨prefix_rfl, prefix_rfl, prefix_rfl⟩⟩
  · rw [slice_of_le (by omega) (by omega), slice_of_le (by omega) (by omega),
      slice_of_le (by omega) (by omega), slice_of_le (by omega) (by omega)]
    simp only [bind_eq_bind, bind_some]
    split_ifs
    · exact ⟨out, rfl, .refl out⟩
    · exact ⟨_, rfl, ⟨prefix_append _ _, prefix_rfl, prefix_rfl⟩⟩
  · obtain ⟨v, hv⟩ := mapM_chunks ((body.drop 16).take (body.length - 16))
    rw [slice_of_le (by omega) (by omega), slice_of_le (by omega) (by omega)]
    simp only [bind_eq_bind, bind_some]
    split_ifs
    · exact ⟨out, rfl, .refl out⟩
    · rw [hv]
      exact ⟨_, rfl, ⟨prefix_rfl, prefix_append _ _, prefix_rfl⟩⟩
  · rw [slice_of_le (by omega) (by omega)]
    simp only [bind_eq_bind, bind_some]
    split_ifs
    · exact ⟨out, rfl, .refl out⟩
    · exact ⟨_, rfl, ⟨prefix_rfl, prefix_rfl, prefix_append _ _⟩⟩
  · exact ⟨out, rfl, .refl out⟩

end Packet

/-! ### One turn -/

section Turn

variable {bytes p : Bytes} {pos fuel : Nat} {out : Scan}

theorem fromLeBytes_lt (bs : Bytes) : fromLeBytes bs < 256 ^ bs.length := by
  induction bs with
  | nil => exact Nat.one_pos
  | cons b bs ih =>
    have hb := b.toNat_lt
    rw [fromLeBytes, foldr_cons, length_cons, Nat.pow_succ]
    change b.toNat + 256 * fromLeBytes bs < _
    omega

theorem lenAt_lt (bytes : Bytes) (pos : Nat) : lenAt bytes pos < 2 ^ 64 := by
  refine (fromLeBytes_lt _).trans_le ?_
  rw [show (2 : Nat) ^ 64 = 256 ^ 8 from rfl]
  exact Nat.pow_le_pow_right (by decide) (length_take_le _ _)

theorem scanFrom_end (h : bytes.length < pos + 64) :
    scanFrom (fuel + 1) pos bytes out = some out := by
  rw [scanFrom, if_pos h]

theorem scanFrom_junk (hroom : pos + 64 ≤ bytes.length) (hmagic : ¬MagicAt bytes pos) :
    scanFrom (fuel + 1) pos bytes out = scanFrom fuel (pos + 4) bytes out := by
  rw [scanFrom, if_neg (by omega), slice_of_le (by omega) (by omega), Nat.add_sub_cancel_left,
    bind_eq_bind, bind_some]
  exact if_pos hmagic

theorem scanFrom_magic (hroom : pos + 64 ≤ bytes.length) (hmagic : MagicAt bytes pos) :
    scanFrom (fuel + 1) pos bytes out =
      let last := (pos + lenAt bytes pos) % 2 ^ 64
      if lenAt bytes pos < 64 ∨ bytes.length < last then some out
      else (slice bytes (pos + 64) last).bind fun body =>
        (out.packet ((bytes.drop (pos + 48)).take 16) body).bind
          (scanFrom fuel (pos + lenAt bytes pos) bytes) := by
  have hfirst : slice bytes pos (pos + 8) = some par2Magic := by
    rw [slice_of_le (by omega) (by omega), Nat.add_sub_cancel_left, hmagic]
  have hsecond : slice bytes (pos + 8) (pos + 16) = some ((bytes.drop (pos + 8)).take 8) := by
    rw [slice_of_le (by omega) (by omega), show pos + 16 - (pos + 8) = 8 by omega]
  have htype : slice bytes (pos + 48) (pos + 64) = some ((bytes.drop (pos + 48)).take 16) := by
    rw [slice_of_le (by omega) (by omega), show pos + 64 - (pos + 48) = 16 by omega]
  rw [scanFrom, if_neg (by omega), hfirst, hsecond, htype]
  simp only [bind_eq_bind, bind_some, ne_eq, not_true_eq_false, if_false]
  rfl

theorem scanFrom_short (hroom : pos + 64 ≤ bytes.length) (hmagic : MagicAt bytes pos)
    (hlen : lenAt bytes pos < 64) : scanFrom (fuel + 1) pos bytes out = some out := by
  rw [scanFrom_magic hroom hmagic]
  exact if_pos (.inl hlen)

theorem scanFrom_torn (hroom : pos + 64 ≤ bytes.length) (hmagic : MagicAt bytes pos)
    (hword : pos + lenAt bytes pos < 2 ^ 64) (htorn : bytes.length < pos + lenAt bytes pos) :
    scanFrom (fuel + 1) pos bytes out = some out := by
  rw [scanFrom_magic hroom hmagic, Nat.mod_eq_of_lt hword]
  exact if_pos (.inr htorn)

theorem scanFrom_overlong (h : Overlong bytes pos) : scanFrom (fuel + 1) pos bytes out = none := by
  obtain ⟨hroom, hmagic, hlen, hover⟩ := h
  have hlt := lenAt_lt bytes pos
  have hlast : (pos + lenAt bytes pos) % 2 ^ 64 < pos + 64 := by
    by_cases hpos : pos < 2 ^ 64
    · rw [Nat.mod_eq_sub_mod hover, Nat.mod_eq_of_lt (by omega)]
      omega
    · have hmod := Nat.mod_lt (pos + lenAt bytes pos) (show 0 < 2 ^ 64 by decide)
      omega
  have hnone : slice bytes (pos + 64) ((pos + lenAt bytes pos) % 2 ^ 64) = none :=
    if_neg fun h => absurd h.1 (by omega)
  rw [scanFrom_magic hroom hmagic]
  simp only [hnone, bind_none]
  exact if_neg (by omega)

theorem scanFrom_packet (hroom : pos + 64 ≤ bytes.length) (hmagic : MagicAt bytes pos)
    (hlen : 64 ≤ lenAt bytes pos) (hword : pos + lenAt bytes pos < 2 ^ 64)
    (hin : pos + lenAt bytes pos ≤ bytes.length) :
    scanFrom (fuel + 1) pos bytes out =
      (out.packet ((bytes.drop (pos + 48)).take 16)
        ((bytes.drop (pos + 64)).take (lenAt bytes pos - 64))).bind
          (scanFrom fuel (pos + lenAt bytes pos) bytes) := by
  have hbody : slice bytes (pos + 64) (pos + lenAt bytes pos) =
      some ((bytes.drop (pos + 64)).take (lenAt bytes pos - 64)) := by
    rw [slice_of_le (by omega) hin, Nat.add_sub_add_left]
  rw [scanFrom_magic hroom hmagic, Nat.mod_eq_of_lt hword]
  simp only [hbody, bind_some]
  exact if_neg (by omega)

/-- **The walk comes to an end** where no packet is overlong, and what has been said stays. -/
theorem scanFrom_total (h : NoOverlong bytes) (hpos : Reached bytes pos)
    (hfuel : bytes.length ≤ pos + fuel) (out : Scan) :
    ∃ b, scanFrom (fuel + 1) pos bytes out = some b ∧ Extends out b := by
  induction fuel generalizing pos out with
  | zero => exact ⟨out, scanFrom_end (by omega), .refl out⟩
  | succ fuel ih =>
    by_cases hroom : pos + 64 ≤ bytes.length
    · by_cases hmagic : MagicAt bytes pos
      · have hclear := h pos hpos
        by_cases hlen : 64 ≤ lenAt bytes pos
        · have hword : pos + lenAt bytes pos < 2 ^ 64 := by
            by_contra hover
            exact hclear ⟨hroom, hmagic, hlen, by omega⟩
          by_cases hin : pos + lenAt bytes pos ≤ bytes.length
          · obtain ⟨out', hout, hext⟩ := packet_spec out ((bytes.drop (pos + 48)).take 16)
              ((bytes.drop (pos + 64)).take (lenAt bytes pos - 64))
            rw [scanFrom_packet hroom hmagic hlen hword hin, hout, bind_some]
            obtain ⟨b, hb, hrest⟩ := ih (hpos.packet hroom hmagic hlen hin) (by omega) out'
            exact ⟨b, hb, hext.trans hrest⟩
          · exact ⟨out, scanFrom_torn hroom hmagic hword (by omega), .refl out⟩
        · exact ⟨out, scanFrom_short hroom hmagic (by omega), .refl out⟩
      · rw [scanFrom_junk hroom hmagic]
        exact ih (hpos.junk hroom hmagic) (by omega) out
    · exact ⟨out, scanFrom_end (by omega), .refl out⟩

theorem scan_reached (h : Reached bytes pos) (hscan : scan bytes ≠ none) :
    ∃ fuel out, bytes.length ≤ pos + fuel ∧ scan bytes = scanFrom (fuel + 1) pos bytes out := by
  induction h with
  | start => exact ⟨bytes.length, ⟨0, [], [], []⟩, by omega, rfl⟩
  | @junk pos hpos hroom hmagic ih =>
    obtain ⟨fuel, out, hfuel, heq⟩ := ih
    obtain ⟨n, rfl⟩ : ∃ n, fuel = n + 1 := ⟨fuel - 1, by omega⟩
    exact ⟨n, out, by omega, heq.trans (scanFrom_junk hroom hmagic)⟩
  | @packet pos hpos hroom hmagic hlen hin ih =>
    obtain ⟨fuel, out, hfuel, heq⟩ := ih
    obtain ⟨n, rfl⟩ : ∃ n, fuel = n + 1 := ⟨fuel - 1, by omega⟩
    have hword : pos + lenAt bytes pos < 2 ^ 64 := by
      by_contra hover
      exact hscan (heq.trans (scanFrom_overlong ⟨hroom, hmagic, hlen, by omega⟩))
    obtain ⟨out', hout, -⟩ := packet_spec out ((bytes.drop (pos + 48)).take 16)
      ((bytes.drop (pos + 64)).take (lenAt bytes pos - 64))
    refine ⟨n, out', by omega, heq.trans ?_⟩
    rw [scanFrom_packet hroom hmagic hlen hword hin, hout, bind_some]

theorem noOverlong_of_scan (hscan : scan bytes ≠ none) : NoOverlong bytes := by
  intro pos hpos hover
  obtain ⟨fuel, out, -, heq⟩ := scan_reached hpos hscan
  exact hscan (heq.trans (scanFrom_overlong hover))

/-! ### Parts of a file -/

theorem take_drop_part (h : p <+: bytes) {i n : Nat} (hin : i + n ≤ p.length) :
    (p.drop i).take n = (bytes.drop i).take n := by
  obtain ⟨t, rfl⟩ := h
  rw [drop_append_of_le_length (by omega), take_append_of_le_length]
  rw [length_drop]
  omega

theorem exists_of_stopped (h : NoOverlong bytes) (hpos : Reached bytes pos) {fuel' : Nat}
    (hfuel' : bytes.length ≤ pos + fuel') (hp : scanFrom (fuel + 1) pos p out = some out) :
    ∃ a b, scanFrom (fuel + 1) pos p out = some a ∧
      scanFrom (fuel' + 1) pos bytes out = some b ∧ Extends a b := by
  obtain ⟨b, hb, hext⟩ := scanFrom_total h hpos hfuel' out
  exact ⟨out, b, hp, hb, hext⟩

/-- **A part of a file says a part of what the file says.** -/
theorem scanFrom_part (h : NoOverlong bytes) (hpart : p <+: bytes) (hpos : Reached bytes pos)
    {fuel' : Nat} (hfuel : p.length ≤ pos + fuel) (hfuel' : bytes.length ≤ pos + fuel')
    (out : Scan) :
    ∃ a b, scanFrom (fuel + 1) pos p out = some a ∧
      scanFrom (fuel' + 1) pos bytes out = some b ∧ Extends a b := by
  have hle := hpart.length_le
  induction fuel generalizing pos fuel' out with
  | zero => exact exists_of_stopped h hpos hfuel' (scanFrom_end (by omega))
  | succ fuel ih =>
    by_cases hroom : pos + 64 ≤ p.length
    · have hroom' : pos + 64 ≤ bytes.length := by omega
      obtain ⟨n, rfl⟩ : ∃ n, fuel' = n + 1 := ⟨fuel' - 1, by omega⟩
      have hsame : MagicAt p pos ↔ MagicAt bytes pos := by
        unfold MagicAt
        rw [take_drop_part hpart (by omega)]
      have hlens : lenAt p pos = lenAt bytes pos :=
        congrArg fromLeBytes (take_drop_part hpart (by omega))
      by_cases hmagic : MagicAt p pos
      · have hmagic' := hsame.mp hmagic
        by_cases hlen : 64 ≤ lenAt p pos
        · have hlen' : 64 ≤ lenAt bytes pos := hlens ▸ hlen
          have hword : pos + lenAt bytes pos < 2 ^ 64 := by
            by_contra hover
            exact h pos hpos ⟨hroom', hmagic', hlen', by omega⟩
          by_cases hin : pos + lenAt p pos ≤ p.length
          · have hin' : pos + lenAt bytes pos ≤ bytes.length := by omega
            have htype : (p.drop (pos + 48)).take 16 = (bytes.drop (pos + 48)).take 16 :=
              take_drop_part hpart (by omega)
            have hbody : (p.drop (pos + 64)).take (lenAt p pos - 64) =
                (bytes.drop (pos + 64)).take (lenAt bytes pos - 64) := by
              rw [take_drop_part hpart (by omega), hlens]
            obtain ⟨out', hout, -⟩ := packet_spec out ((bytes.drop (pos + 48)).take 16)
              ((bytes.drop (pos + 64)).take (lenAt bytes pos - 64))
            rw [scanFrom_packet hroom hmagic hlen (by omega) hin, htype, hbody,
              scanFrom_packet hroom' hmagic' hlen' hword hin', hout, bind_some,
              bind_some, hlens]
            exact ih (hpos.packet hroom' hmagic' hlen' hin') (by omega) (by omega) out'
          · exact exists_of_stopped h hpos hfuel'
              (scanFrom_torn hroom hmagic (by omega) (by omega))
        · exact exists_of_stopped h hpos hfuel' (scanFrom_short hroom hmagic (by omega))
      · rw [scanFrom_junk hroom hmagic, scanFrom_junk hroom' fun h => hmagic (hsame.mpr h)]
        exact ih (hpos.junk hroom' fun h => hmagic (hsame.mpr h)) (by omega) (by omega) out
    · exact exists_of_stopped h hpos hfuel' (scanFrom_end (by omega))

end Turn

/-- **The scanner is total, and a part of a file says a part of what it says**, if no packet that
the walk comes to is overlong. -/
theorem tolerant_iff (bytes : Bytes) :
    ((scan bytes).isSome ∧ ∀ p, p <+: bytes →
        ∃ a b, scan p = some a ∧ scan bytes = some b ∧ Extends a b) ↔
      NoOverlong bytes := by
  constructor
  · rintro ⟨hsome, -⟩
    refine noOverlong_of_scan fun hnone => ?_
    rw [hnone] at hsome
    cases hsome
  · intro h
    have hwhole := scanFrom_total h .start (Nat.le_add_left bytes.length 0) ⟨0, [], [], []⟩
    obtain ⟨b, hb, -⟩ := hwhole
    refine ⟨isSome_of_eq_some hb, fun p hpart => ?_⟩
    exact scanFrom_part h hpart .start (by omega) (by omega) _

/-- An empty packet, and one of the greatest length. -/
theorem not_tolerant :
    scan (par2Magic ++ 64 :: List.replicate 55 0 ++
      (par2Magic ++ List.replicate 8 0xff ++ List.replicate 48 0)) = none := by
  decide +kernel

end Nzbd.Par2
