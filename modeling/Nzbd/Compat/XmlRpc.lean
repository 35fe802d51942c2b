import Nzbd.Engine.Naming
import Nzbd.Lib.XmlItems

/-!
# XML-RPC

Calls come in and answers go out as XML.  `toXml` writes a JSON value, `parseCall` reads a call
off the events of a trimming reader.  The recursion of the parser is on a bound on the events to
come, which every call counts down; `parseCall` starts with their number.

What a floating-point number is written as and read as is left to the environment.
-/

namespace Nzbd.Compat.XmlRpc

open Xml (Event)

/-- An integer of 64 bits, signed or not. -/
structure Integer where
  val : Int
  lower : -(2 ^ 63) ≤ val
  upper : val < 2 ^ 64

/-- A JSON value.  The members of an object are in the order of their keys. -/
inductive Value (φ : Type)
  | null
  | bool (b : Bool)
  | integer (n : Integer)
  | double (x : φ)
  | string (s : Text)
  | array (items : List (Value φ))
  | object (members : List (Text × Value φ))

variable {φ : Type}

/-! ### Reading -/

def resolveCharRef (name : Text) : Option Char :=
  let digits := match name with
    | '#' :: 'x' :: hex => some (16, hex)
    | '#' :: dec => some (10, dec)
    | _ => none
  digits.bind fun p =>
    if p.2.head? = some '+' then none
    else (Numeral.fromStrRadix p.1 (2 ^ 32) p.2).bind fun code =>
      if code = 0 ∨ ¬code.isValidChar then none else some (Char.ofNat code)

def resolveRef (name : Text) : Text :=
  match resolveCharRef name with
  | some c => [c]
  | none =>
    if name = text "lt" then text "<"
    else if name = text "gt" then text ">"
    else if name = text "amp" then text "&"
    else if name = text "apos" then text "'"
    else if name = text "quot" then text "\""
    else '&' :: name ++ [';']

def readText (stop out : Text) : List Event → Option (Text × List Event)
  | [] => none
  | .text t :: es => readText stop (out ++ t) es
  | .ref r :: es => readText stop (out ++ resolveRef r) es
  | .stop name :: es => if name = stop then some (out, es) else readText stop out es
  | _ :: es => readText stop out es

def parseI64 (t : Text) : Integer :=
  match h : Numeral.fromStrSigned (2 ^ 63) (Utf8.trim t) with
  | some i =>
    have hsigned := Numeral.fromStrSigned_signed (by decide) h
    ⟨i, hsigned.1, hsigned.2.trans (by decide)⟩
  | none => ⟨0, by decide, by decide⟩

/-- Keys are compared character by character. -/
def keyLt : Text → Text → Bool
  | _, [] => false
  | [], _ :: _ => true
  | a :: as, b :: bs => a.toNat < b.toNat || (a = b && keyLt as bs)

/-- A new member goes where its key belongs, or in the place of the one that has it. -/
def insertMember (k : Text) (v : Value φ) : List (Text × Value φ) → List (Text × Value φ)
  | [] => [(k, v)]
  | (k', v') :: ms =>
    if keyLt k k' then (k, v) :: (k', v') :: ms
    else if k = k' then (k, v) :: ms
    else (k', v') :: insertMember k v ms

section Parse

-- The number that a text is read as: zero if it is none, and nothing if it is not finite.
variable (parseF64 : Text → Option φ)

mutual

def parseValue : Nat → Option (Value φ) → Option Text → List Event →
    Option (Value φ × List Event)
  | 0, _, _, _ => none
  | _, _, _, [] => none
  | fuel + 1, result, bare, e :: es =>
    match e with
    | .start name =>
      if name = text "string" then
        (readText name [] es).bind fun r => parseValue fuel (some (.string r.1)) bare r.2
      else if name = text "int" ∨ name = text "i4" ∨ name = text "i8" then
        (readText name [] es).bind fun r =>
          parseValue fuel (some (.integer (parseI64 r.1))) bare r.2
      else if name = text "boolean" then
        (readText name [] es).bind fun r =>
          parseValue fuel (some (.bool (Utf8.trim r.1 = ['1']))) bare r.2
      else if name = text "double" then
        (readText name [] es).bind fun r =>
          let v := match parseF64 (Utf8.trim r.1) with
            | some x => .double x
            | none => .null
          parseValue fuel (some v) bare r.2
      else if name = text "base64" then
        (readText name [] es).bind fun r =>
          parseValue fuel (some (.string (r.1.filter fun c => !Utf8.isWhitespace c))) bare r.2
      else if name = text "nil" then parseValue fuel (some .null) bare es
      else if name = text "array" then
        (parseArray fuel [] es).bind fun r => parseValue fuel (some (.array r.1)) bare r.2
      else if name = text "struct" then
        (parseStruct fuel [] [] false es).bind fun r =>
          parseValue fuel (some (.object r.1)) bare r.2
      else parseValue fuel result bare es
    | .text t => parseValue fuel result (some (bare.getD [] ++ t)) es
    | .ref r => parseValue fuel result (some (bare.getD [] ++ resolveRef r)) es
    | .stop name =>
      if name = text "value" then some (result.getD (.string (bare.getD [])), es)
      else parseValue fuel result bare es
    | _ => parseValue fuel result bare es

def parseArray : Nat → List (Value φ) → List Event → Option (List (Value φ) × List Event)
  | 0, _, _ => none
  | _, _, [] => none
  | fuel + 1, items, e :: es =>
    match e with
    | .start name =>
      if name = text "value" then
        (parseValue fuel none none es).bind fun r => parseArray fuel (items ++ [r.1]) r.2
      else parseArray fuel items es
    | .stop name => if name = text "array" then some (items, es) else parseArray fuel items es
    | _ => parseArray fuel items es

def parseStruct : Nat → List (Text × Value φ) → Text → Bool → List Event →
    Option (List (Text × Value φ) × List Event)
  | 0, _, _, _, _ => none
  | _, _, _, _, [] => none
  | fuel + 1, map, key, inName, e :: es =>
    match e with
    | .start name =>
      if name = text "name" then parseStruct fuel map key true es
      else if name = text "value" then
        (parseValue fuel none none es).bind fun r =>
          parseStruct fuel (insertMember key r.1 map) [] inName r.2
      else parseStruct fuel map key inName es
    | .text t =>
      if inName then parseStruct fuel map t false es else parseStruct fuel map key inName es
    | .stop name =>
      if name = text "struct" then some (map, es) else parseStruct fuel map key inName es
    | _ => parseStruct fuel map key inName es

end

structure MethodCall (φ : Type) where
  name : Text
  params : List (Value φ)

def parseEvents : Nat → Text → List (Value φ) → Bool → List Event → Option (MethodCall φ)
  | _, name, params, _, [] => if name = [] then none else some ⟨name, params⟩
  | 0, _, _, _, _ => none
  | fuel + 1, name, params, inName, e :: es =>
    match e with
    | .start n =>
      if n = text "methodName" then parseEvents fuel name params true es
      else if n = text "value" then
        (parseValue parseF64 fuel none none es).bind fun r =>
          parseEvents fuel name (params ++ [r.1]) inName r.2
      else parseEvents fuel name params inName es
    | .text t =>
      if inName then parseEvents fuel t params false es else parseEvents fuel name params inName es
    | _ => parseEvents fuel name params inName es

def parseCall (reader : Text → Option (List Event)) (xml : Text) : Option (MethodCall φ) :=
  (reader xml).bind fun es => parseEvents parseF64 es.length [] [] false es

end Parse

/-! ### Writing -/

/-- Put a text in the place of every such character. -/
def replaceChar (c : Char) (by' s : Text) : Text := s.flatMap fun x => if x = c then by' else [x]

def xmlEscape (s : Text) : Text :=
  replaceChar '>' (text "&gt;") (replaceChar '<' (text "&lt;") (replaceChar '&' (text "&amp;") s))

section Write

variable (showF64 : φ → Text)

mutual

def toXml : Value φ → Text
  | .null => text "<value>" ++ text "<nil/>" ++ text "</value>"
  | .bool b =>
    text "<value>" ++ (text "<boolean>" ++ [if b then '1' else '0'] ++ text "</boolean>") ++
      text "</value>"
  | .integer n =>
    text "<value>" ++
      (if n.val < 2 ^ 63 then text "<int>" ++ Numeral.showInt n.val ++ text "</int>"
        else text "<double>" ++ Numeral.showInt n.val ++ text "</double>") ++
      text "</value>"
  | .double x =>
    text "<value>" ++ (text "<double>" ++ showF64 x ++ text "</double>") ++ text "</value>"
  | .string s =>
    text "<value>" ++ (text "<string>" ++ xmlEscape s ++ text "</string>") ++ text "</value>"
  | .array items =>
    text "<value>" ++ (text "<array><data>" ++ itemsToXml items ++ text "</data></array>") ++
      text "</value>"
  | .object members =>
    text "<value>" ++ (text "<struct>" ++ membersToXml members ++ text "</struct>") ++
      text "</value>"

def itemsToXml : List (Value φ) → Text
  | [] => []
  | v :: vs => toXml v ++ itemsToXml vs

def membersToXml : List (Text × Value φ) → Text
  | [] => []
  | (k, v) :: ms =>
    text "<member><name>" ++ xmlEscape k ++ text "</name>" ++ toXml v ++ text "</member>" ++
      membersToXml ms

end

def callOf (name : Text) (v : Value φ) : Text :=
  text "<methodCall><methodName>" ++ name ++ text "</methodName><params><param>" ++
    toXml showF64 v ++ text "</param></params></methodCall>"

end Write

end Nzbd.Compat.XmlRpc
