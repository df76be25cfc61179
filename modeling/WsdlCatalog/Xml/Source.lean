/-
  WsdlCatalog.Xml.Source — the characters of a document from its octets.

  The first octets tell whether characters take one octet or two. The declaration at
  the beginning may then name the encoding of all that follows it. A name that every
  reader knows has to fit that width; any other is looked up among the encodings of one
  octet a character.
-/

import WsdlCatalog.Text.Codec
import WsdlCatalog.Xml.Markup

namespace WsdlCatalog.Xml

inductive Charset where
  | utf8
  | latin1
  | ascii
  | utf16 (order : Text.ByteOrder)
  | coded (codec : Text.Codec)
  deriving DecidableEq, Repr

namespace Charset

def form : Charset → Form
  | utf8 => .utf8
  | latin1 => .latin1
  | ascii | coded _ => .table
  | utf16 _ => .utf16

def decode : Charset → List UInt8 → Text.Decoded
  | utf8 => Text.utf8 .refused
  | latin1 => Text.single Text.latin1Char
  | ascii => Text.single Text.asciiChar
  | utf16 order => Text.utf16 .joined order
  | coded codec => Text.single codec.charOf?

/-- The encoding told from the first octets, and the octets without a byte order mark. It cannot be
told while these octets may be part of a mark or of a unit. -/
def detect : List UInt8 → Option (Charset × List UInt8)
  | [0x00] | [0x3C] | [0xEF] | [0xFE] | [0xFF] | [0xEF, 0xBB] => none
  | 0xFE :: 0xFF :: rest => some (.utf16 .big, rest)
  | 0xFF :: 0xFE :: rest => some (.utf16 .little, rest)
  | 0xEF :: 0xBB :: 0xBF :: rest => some (.utf8, rest)
  | 0x00 :: b :: rest => some (.utf16 .big, 0x00 :: b :: rest)
  | a :: 0x00 :: rest => some (.utf16 .little, a :: 0x00 :: rest)
  | octets => some (.utf8, octets)

/-- What an encoding name on line `line` means for a document already read as `current`. -/
def named (current : Charset) (name : String) (line : Nat) : Except ReadError Charset :=
  let known (charset : Charset) : Except ReadError Charset :=
    let fits := match charset, current with
      | .utf16 _, _ => charset == current
      | _, .utf16 _ => false
      | _, _ => true
    if fits then .ok charset else .error (.malformed .wrongEncoding line)
  match name.map Char.toUpper, current with
  | "UTF-8", _ => known .utf8
  | "ISO-8859-1", _ => known .latin1
  | "US-ASCII", _ => known .ascii
  | "UTF-16", .utf16 order => known (.utf16 order)
  | "UTF-16", _ => known (.utf16 .big)
  | "UTF-16BE", _ => known (.utf16 .big)
  | "UTF-16LE", _ => known (.utf16 .little)
  | _, _ =>
    match Text.Codec.named? name with
    | none => .error (.noEncoding name)
    | some .wide => .error .wideEncoding
    | some .foreign => .error (.malformed .unknownEncoding line)
    | some .strict => .error .strictEncoding
    | some .unreadable => .error .unreadableEncoding
    | some codec => .ok (.coded codec)

def read (charset : Charset) (octets : List UInt8) : Cursor :=
  let (chars, ending) := charset.form.characters (charset.decode octets)
  ⟨normalizeLineEnds ending [] chars, 1, ending, charset.form⟩

end Charset

/-! ## The declaration at the beginning -/

structure PseudoAttribute where
  name : String
  nameLine : Nat
  value : String
  valueLine : Nat
  deriving DecidableEq, Repr

namespace PseudoAttribute

def isNamePart (c : Char) : Bool := c != '=' && !isSpace c && c.toNat < 0x80

def isValuePart (c : Char) : Bool := c.isAlphanum || c == '.' || c == '-' || c == '_'

/-- A name, an equals sign and a value between quotes, after at least one space; nothing at the
end of the text. A failure tells the line of what does not fit. -/
def read (cur : Cursor) : Except Nat (Option (PseudoAttribute × Cursor)) :=
  let here := cur.skipSpace
  let name := here.chars.takeWhile isNamePart
  if cur.chars.isEmpty || (cur.beginsWithSpace && here.chars.isEmpty) then .ok none
  else if !cur.beginsWithSpace then .error cur.line
  else if name.isEmpty then .error here.line
  else
    let equals := Cursor.skipSpace { here with chars := here.chars.dropWhile isNamePart }
    match equals.chars with
    | '=' :: rest =>
      let quoted := Cursor.skipSpace { equals with chars := rest }
      match quoted.chars with
      | q :: rest =>
        let closing := rest.dropWhile isValuePart
        if (q == '"' || q == '\'') && closing.head? == some q then
          .ok (some (⟨String.ofList name, here.line, String.ofList (rest.takeWhile isValuePart),
            quoted.line⟩, { quoted with chars := closing.tail }))
        else .error quoted.line
      | [] => .error quoted.line
    | _ => .error equals.line

end PseudoAttribute

structure XmlDeclaration where
  /-- The name of the encoding and its line. -/
  encoding : Option (String × Nat)
  standalone : Option Bool
  deriving DecidableEq, Repr

namespace XmlDeclaration

/-- The end of a declaration, from the attribute that says whether the document stands alone. -/
def close (encoding : Option (String × Nat)) (last : PseudoAttribute) (cur : Cursor) :
    Except Nat XmlDeclaration := do
  if last.name != "standalone" then throw last.nameLine
  if last.value != "yes" && last.value != "no" then throw last.valueLine
  if !cur.skipSpace.chars.isEmpty then throw cur.skipSpace.line
  return ⟨encoding, some (last.value == "yes")⟩

/-- A version, then an encoding, then whether the document stands alone; the last two may miss. -/
def parse (cur : Cursor) : Except Nat XmlDeclaration := do
  match ← PseudoAttribute.read cur with
  | none => throw cur.line
  | some (version, cur) =>
    if version.name != "version" then throw version.nameLine
    match ← PseudoAttribute.read cur with
    | none => return ⟨none, none⟩
    | some (next, cur) =>
      if next.name != "encoding" then close none next cur
      else
        if !next.value.toList.head?.any Char.isAlpha then throw next.valueLine
        let encoding := some (next.value, next.valueLine)
        match ← PseudoAttribute.read cur with
        | none => return ⟨encoding, none⟩
        | some (last, cur) => close encoding last cur

end XmlDeclaration

/-- The declaration a text begins with, if it does, and the place after it. -/
def declaration? (cur : Cursor) : Except ReadError (Option (XmlDeclaration × Cursor)) :=
  match cur.chars with
  | '<' :: '?' :: rest =>
    match Markup.instruction cur.line { cur with chars := rest } with
    | .ok (.declaration text, after) =>
      match XmlDeclaration.parse (cur.resume cur.line text) with
      | .ok declaration => .ok (some (declaration, after))
      | .error line => .error (.malformed .malformedDeclaration line)
    | _ => .ok none
  | _ => .ok none

/-- How many characters there are up to the end of the instruction that a text begins with. -/
def instructionLength : List Char → Nat
  | '?' :: '>' :: _ => 2
  | _ :: rest => instructionLength rest + 1
  | [] => 0

/-- The text of a document, and whether it says that it stands alone. What follows the declaration
is read anew in the encoding that it names. -/
def source (octets : List UInt8) : Except ReadError (Cursor × Bool) := do
  match Charset.detect octets with
  | none => throw (.malformed .unclosedToken 1)
  | some (charset, octets) =>
    let cur := charset.read octets
    match ← declaration? cur with
    | none => return (cur, false)
    | some (declaration, after) =>
      let standalone := declaration.standalone == some true
      match declaration.encoding with
      | none => return (cur, standalone)
      | some (name, line) =>
        let named ← charset.named name line
        let length := instructionLength (charset.decode octets).chars * charset.form.width
        let rest := named.read (octets.drop length)
        let before := cur.chars.take (cur.chars.length - after.chars.length)
        return ({ rest with chars := before ++ rest.chars }, standalone)

end WsdlCatalog.Xml
