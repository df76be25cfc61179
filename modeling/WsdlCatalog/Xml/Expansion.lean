/-
  WsdlCatalog.Xml.Expansion — reading that includes the texts of entities, and how much
  text they may stand for.

  An entity is read anew at every reference to it, so a short document can stand for a
  text of any length. The document so has an allowance: what its entities stand for may
  have a hundred times the octets of the document itself, or some millions if that is
  more. Every reference spends the octets of the text that is read for it, and reading
  fails once the allowance is spent.
-/

import WsdlCatalog.Xml.Cursor

namespace WsdlCatalog.Xml

/-- Reading with the number of octets that entities may still stand for. -/
abbrev Expansion := StateT Nat (Except ReadError)

namespace Expansion

/-- The octets of document and entities together that are never too many. -/
def harmless : Nat := 8388607

/-- What the entities of a document of so many octets may stand for. -/
def allowance (octets : Nat) : Nat := max harmless (100 * octets) - octets

def octets (text : List Char) : Nat := (text.map Char.utf8Size).foldr (· + ·) 0

/-- A text is read for an entity that is referred to on line `line`. -/
def spend (line : Nat) (text : List Char) : Expansion Unit := do
  let left ← get
  if left < octets text then throw (.malformed .amplification line)
  else set (left - octets text)

/-- Reading whose faults are reported on the line `line`. -/
def relocate {α : Type} (line : Nat) (act : Expansion α) : Expansion α :=
  fun left => (act left).mapError (·.at line)

end Expansion

end WsdlCatalog.Xml
