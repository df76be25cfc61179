/-
  WsdlCatalog.Xml.Form — how the characters of a text are written, and what follows the
  last of them.

  Markup is told apart unit by unit: an octet, or two where all characters take two.
  Which characters may begin a name, and what a token means that runs out of
  characters, so depends on the form of the text and on the octets that are left.
-/

import WsdlCatalog.Text.Encoding
import WsdlCatalog.Xml.Character

namespace WsdlCatalog.Xml

inductive Form where
  | utf8
  /-- One octet a character, the number of the character. -/
  | latin1
  /-- One octet a character, by a table. -/
  | table
  | utf16
  /-- The text that an entity stands for. Its line ends are not normalized. -/
  | replacement
  deriving DecidableEq, Repr

namespace Form

def units (form : Form) (c : Char) : Nat :=
  match form with
  | utf8 | replacement => c.utf8Size
  | latin1 | table => 1
  | utf16 => if c.toNat < 0x10000 then 1 else 2

def isWide (form : Form) (c : Char) : Bool :=
  match form with
  | utf8 | replacement => 0x80 ≤ c.toNat
  | utf16 => 0x100 ≤ c.toNat
  | latin1 | table => false

/-- Three signs count as letters where a character is known by the number of its octet. -/
def isLetterSign (form : Form) (c : Char) : Bool :=
  (form == latin1 || form == utf16) && (c == 'ª' || c == 'µ' || c == 'º')

def isNameStart (form : Form) (c : Char) : Bool := Xml.isNameStart c || form.isLetterSign c

def isNameChar (form : Form) (c : Char) : Bool := Xml.isNameChar c || form.isLetterSign c

end Form

inductive Ending where
  | complete
  /-- Half of a unit of two octets. -/
  | strayOctet
  /-- The beginning of a character. -/
  | truncated (units : Nat)
  /-- Units of which the first make no character, though `leads` tells that they begin as one. -/
  | malformed (leads : Bool) (units : Nat)
  deriving DecidableEq, Repr

namespace Ending

def isEnd : Ending → Bool
  | complete | strayOctet => true
  | _ => false

def units : Ending → Nat
  | complete | strayOctet => 0
  | truncated units => units
  | malformed _ units => units

def leads : Ending → Bool
  | complete | strayOctet => false
  | truncated _ => true
  | malformed leads _ => leads

/-- A stray octet is lost with the token before it, where that may be the last of a text. -/
def settled : Ending → Ending
  | strayOctet => complete
  | ending => ending

end Ending

/-! ## Decoded text -/

/-- Two code points are no characters of a document. -/
def isNoncharacter (c : Char) : Bool := c.toNat == 0xFFFE || c.toNat == 0xFFFF

def Form.width : Form → Nat
  | utf16 => 2
  | _ => 1

def Form.ending (form : Form) : Text.Ending → Ending
  | .complete => .complete
  | .truncated left =>
    if left.length < form.width then .strayOctet else .truncated (left.length / form.width)
  | .malformed left =>
    let leads := form == utf8 && left.head?.any fun b => 0xC0 ≤ b.toNat && b.toNat < 0xF5
    .malformed leads (left.length / form.width)

/-- The characters of a text up to the first that no document has, and what follows them. -/
def Form.characters (form : Form) (decoded : Text.Decoded) : List Char × Ending :=
  let ending := form.ending decoded.ending
  match decoded.chars.span (!isNoncharacter ·) with
  | (chars, []) => (chars, ending)
  | (chars, rest) =>
    (chars, .malformed (form == utf8) ((rest.map form.units).foldr (· + ·) ending.units))

end WsdlCatalog.Xml
