/-
  WsdlCatalog.Catalog.Transport — catalogs as text, and as what a transport makes of them.

  A text is printed on one line or with every item on its own, unless a number in the
  catalog has too many digits; reading tells texts that are no data from data that are no
  catalog. How a transport sends data is its own affair. It follows a standard if it sends
  plain data as the standard does: data without fractions in which no text has the mark
  that sets a value apart from its type.
-/

import WsdlCatalog.Catalog.Reading
import WsdlCatalog.Json.Printer
import WsdlCatalog.Json.Reader
import WsdlCatalog.MessagePack

namespace WsdlCatalog

/-! ## Transports -/

structure Transport (Carried : Type) where
  write : Json → Option Carried
  read : Carried → Option Json

namespace Transport

def compactText : Transport String where
  write j := (j.print .compact).toOption
  read text := (Json.parse text).toOption

def messagePack : Transport (List UInt8) := ⟨MessagePack.encode?, MessagePack.decode?⟩

/-- What stands between a value and its type where a text names both. -/
def typeMark : List Char := [':', ':']

/-- No text in the data can be taken for a value with its type, and no number is a fraction. -/
structure IsPlain (j : Json) : Prop where
  unmarked : ∀ s, .str s ∈ j.atoms → ¬ typeMark <:+: s.toList
  whole : ∀ x, .real x ∉ j.atoms

/-- On plain data the transport does what the standard does, both ways. -/
structure Follows {Carried : Type} (transport standard : Transport Carried) : Prop where
  write : ∀ j, IsPlain j → transport.write j = standard.write j
  read : ∀ j carried, IsPlain j → standard.write j = some carried →
    transport.read carried = standard.read carried

end Transport

namespace Catalog

def carry {Carried : Type} (transport : Transport Carried) (catalog : Catalog) : Option Carried :=
  transport.write catalog.toJson

def ofCarried {Carried : Type} (transport : Transport Carried) (carried : Carried) :
    Reading Catalog :=
  match transport.read carried with
  | some j => Catalog.ofJson j
  | none => .error .malformedText

/-! ## Texts -/

/-- The catalog as text: on one line, or with every item on its own line set in by `indent`. -/
def toText (indent : Option Nat) (catalog : Catalog) : Except Json.PrintError String :=
  let layout := match indent with
    | none => Json.Layout.spaced
    | some n => Json.Layout.indented n
  catalog.toJson.print layout

def ofParsed : Except Json.ParseError Json → Reading Catalog
  | .ok j => Catalog.ofJson j
  | .error .undecodable => .error .undecodableText
  | .error .malformed => .error .malformedText
  | .error (.overlong digits) => .error (.overlongNumber digits)

def ofText (text : String) : Reading Catalog := ofParsed (Json.parse text)

def ofOctets (octets : List UInt8) : Reading Catalog := ofParsed (Json.parseOctets octets)

end Catalog

end WsdlCatalog
