import Nzbd.Lib.Xml
import Nzbd.Nzb.Parser

/-!
# The XML reader

What the parser relies on in its XML reader: a well-formed document, written in
UTF-8, is delivered token by token (`Reads`).  A start tag comes with its
attribute values normalised, a run of text with its line breaks normalised, and a
reference in text comes as an event of its own.

`xmlReader` is such a reader.
-/

namespace Nzbd.Nzb

def Event.ofToken : Xml.Token → Event
  | .decl _ => .other
  | .tag name attributes => .start name (attributes.map fun a => ⟨a.1, Xml.attValue a.2⟩)
  | .close name => .stop name
  | .text run => .text (some (Xml.eol run))
  | .ref name => .generalRef name

def Reads {ε : Type} (reader : Reader ε) : Prop :=
  ∀ ts, Xml.WellFormed ts →
    reader (List.utf8Encode (Xml.render ts)) = (ts.map Event.ofToken, none)

def xmlReader : Reader Unit := fun input =>
  match input.utf8Decode? with
  | none => ([], some ())
  | some cs =>
    match Xml.tokenize cs.toList with
    | none => ([], some ())
    | some ts => (ts.map Event.ofToken, none)

theorem xmlReader_reads : Reads xmlReader := by
  intro ts h
  rw [xmlReader, List.utf8Decode?_utf8Encode]
  simp only [Xml.tokenize_render h]

end Nzbd.Nzb
