import Nzbd.Lib.Crc32
import Nzbd.Lib.Numeral

/-!
# The control lines of a yEnc article

`=ybegin`, `=ypart` and `=yend` carry `key=value` fields separated by blanks.
`kvFields` cuts a line into them and the three parsers fold over the fields in
order, so a repeated key keeps its last value.  The file name is the rest of
the `=ybegin` line behind ` name=`, blanks and equals signs included.

Bytes are `UInt8`, text is a list of characters, and the `u64` and `u32` of the
fields are natural numbers; a part number is cut to 32 bits where the code
casts it.
-/

namespace Nzbd.Yenc

open Utf8 (ascii fromUtf8 fromUtf8Lossy trim)

inductive YencError
  | notYenc (msg : String)
  | malformed (msg : String)
  | prematureEnd
  deriving DecidableEq

structure YencHeader where
  name : List Char
  /-- Total file size from `=ybegin size=`. -/
  size : Nat
  part : Option Nat
  total : Option Nat
  /-- From `=ypart`: the 1-based inclusive byte range of the part. -/
  partBegin : Option Nat
  partEnd : Option Nat

def YencHeader.default : YencHeader := ⟨[], 0, none, none, none, none⟩

structure YencTrailer where
  /-- Decoded size of the part per `=yend size=`. -/
  size : Nat
  part : Option Nat
  /-- CRC of the part. -/
  pcrc32 : Option (BitVec 32)
  /-- CRC of the whole file. -/
  crc32 : Option (BitVec 32)

def YencTrailer.default : YencTrailer := ⟨0, none, none, none⟩

/-! ### Fields -/

def blank : UInt8 := 0x20

def equals : UInt8 := 0x3D

/-- A token with an equals sign is a field; the value may hold further ones. -/
def kvField (tok : List UInt8) : Option (List UInt8 × List UInt8) :=
  match tok.dropWhile (· != equals) with
  | [] => none
  | _ :: v => some (tok.takeWhile (· != equals), v)

def kvFields (line : List UInt8) : List (List UInt8 × List UInt8) :=
  (line.splitOn blank).filterMap kvField

def parseU64 (v : List UInt8) : Option Nat :=
  (fromUtf8 v).bind fun s => Numeral.fromStrRadix 10 (2 ^ 64) (trim s)

def parseHex32 (v : List UInt8) : Option (BitVec 32) :=
  (fromUtf8 v).bind fun s =>
    (Numeral.fromStrRadix 16 (2 ^ 32) (trim s)).map (BitVec.ofNat 32)

/-- The offset of the first occurrence of `needle`. -/
def findSubslice (needle : List UInt8) : List UInt8 → Option Nat
  | [] => none
  | b :: bs =>
    if needle.isPrefixOf (b :: bs) then some 0 else (findSubslice needle bs).map (· + 1)

/-! ### The three parsers -/

def orMalformed {α : Type} (o : Option α) (msg : String) : Except YencError α :=
  match o with
  | some a => .ok a
  | none => .error (.malformed msg)

def beginField (h : YencHeader) (kv : List UInt8 × List UInt8) : Except YencError YencHeader :=
  if kv.1 = ascii "size" then
    (orMalformed (parseU64 kv.2) "bad size").map fun n => { h with size := n }
  else if kv.1 = ascii "part" then
    (orMalformed (parseU64 kv.2) "bad part").map fun n => { h with part := some (n % 2 ^ 32) }
  else if kv.1 = ascii "total" then
    .ok { h with total := (parseU64 kv.2).map (· % 2 ^ 32) }
  else .ok h

/-- `name=` is always last and may contain blanks and `=`: it is split off
first. -/
def splitName (line : List UInt8) : List UInt8 × List UInt8 :=
  match findSubslice (ascii " name=") line with
  | some pos => (line.take pos, line.drop (pos + 6))
  | none => (line, [])

def parseBegin (line : List UInt8) : Except YencError YencHeader :=
  let h := { YencHeader.default with name := trim (fromUtf8Lossy (splitName line).2) }
  match (kvFields (splitName line).1).foldlM beginField h with
  | .error e => .error e
  | .ok h => if h.size = 0 then .error (.malformed "=ybegin without size") else .ok h

def partField (r : Option Nat × Option Nat) (kv : List UInt8 × List UInt8) :
    Option Nat × Option Nat :=
  if kv.1 = ascii "begin" then (parseU64 kv.2, r.2)
  else if kv.1 = ascii "end" then (r.1, parseU64 kv.2)
  else r

def parsePart (line : List UInt8) : Except YencError (Nat × Nat) :=
  match (kvFields line).foldl partField (none, none) with
  | (some b, some e) =>
    if 1 ≤ b ∧ b ≤ e then .ok (b, e) else .error (.malformed "bad =ypart range")
  | _ => .error (.malformed "bad =ypart range")

def endField (t : YencTrailer) (kv : List UInt8 × List UInt8) : Except YencError YencTrailer :=
  if kv.1 = ascii "size" then
    (orMalformed (parseU64 kv.2) "bad =yend size").map fun n => { t with size := n }
  else if kv.1 = ascii "part" then .ok { t with part := (parseU64 kv.2).map (· % 2 ^ 32) }
  else if kv.1 = ascii "pcrc32" then .ok { t with pcrc32 := parseHex32 kv.2 }
  else if kv.1 = ascii "crc32" then .ok { t with crc32 := parseHex32 kv.2 }
  else .ok t

def parseEnd (line : List UInt8) : Except YencError YencTrailer :=
  (kvFields line).foldlM endField YencTrailer.default

end Nzbd.Yenc
