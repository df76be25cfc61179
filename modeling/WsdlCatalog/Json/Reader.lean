/-
  WsdlCatalog.Json.Reader — a data value from its text.

  The grammar is that of JSON, with the three words for numbers that are not finite.
  Blanks are spaces, tabs and line ends. An integer has no more digits than numbers are
  read with; one that is longer is refused where it stands. A text of octets is decoded
  as UTF-8, UTF-16 or UTF-32, told apart by a byte order mark or by where the zero octets
  stand; octets that are no characters are a fault of their own.
-/

import WsdlCatalog.Json
import WsdlCatalog.Text.Digit
import WsdlCatalog.Text.Encoding

namespace WsdlCatalog.Json

inductive ParseError where
  /-- The octets are no characters. -/
  | undecodable
  | malformed
  /-- An integer has more digits than a number is read with. -/
  | overlong (digits : Nat)
  deriving DecidableEq, Repr

def isSpace (c : Char) : Bool := c == ' ' || c == '\t' || c == '\n' || c == '\r'

def skipSpace (cs : List Char) : List Char := cs.dropWhile isSpace

/-! ## Texts -/

def hexValue? (c : Char) : Option Nat :=
  if '0' ≤ c && c ≤ '9' then some (c.toNat - 48)
  else if 'a' ≤ c && c ≤ 'f' then some (c.toNat - 87)
  else if 'A' ≤ c && c ≤ 'F' then some (c.toNat - 55)
  else none

def hex4? (a b c d : Char) : Option Nat := do
  return (← hexValue? a) * 0x1000 + (← hexValue? b) * 0x100 + (← hexValue? c) * 0x10 + (← hexValue? d)

def escaped? (c : Char) : Option Char :=
  if c == '"' || c == '\\' || c == '/' then some c
  else if c == 'n' then some '\n'
  else if c == 'r' then some '\r'
  else if c == 't' then some '\t'
  else if c == 'f' then some '\x0c'
  else if c == 'b' then some '\x08'
  else none

/-- The character of a unit that no other unit completes. -/
def unitChar (n : Nat) : Char := if Text.isScalar n then Char.ofNat n else '\ufffd'

/-- A text after its opening quotation mark, read up to the closing one. `high` is a high
surrogate whose low one may follow. -/
def readString (high : Option Nat) (acc : List Char) : List Char → Option (String × List Char)
  | [] => none
  | '"' :: rest => some (String.ofList (flush acc).reverse, rest)
  | '\\' :: 'u' :: a :: b :: c :: d :: rest =>
    match hex4? a b c d with
    | none => none
    | some n =>
      match high with
      | some h =>
        if 0xDC00 ≤ n && n < 0xE000 then
          readString none (Char.ofNat (0x10000 + (h - 0xD800) * 0x400 + (n - 0xDC00)) :: acc) rest
        else if 0xD800 ≤ n && n < 0xDC00 then readString (some n) ('\ufffd' :: acc) rest
        else readString none (unitChar n :: '\ufffd' :: acc) rest
      | none =>
        if 0xD800 ≤ n && n < 0xDC00 then readString (some n) acc rest
        else readString none (unitChar n :: acc) rest
  | '\\' :: e :: rest =>
    match escaped? e with
    | some c => readString none (c :: flush acc) rest
    | none => none
  | c :: rest => if c.toNat < 32 then none else readString none (c :: flush acc) rest
where
  flush (acc : List Char) : List Char := if high.isSome then '\ufffd' :: acc else acc

/-! ## Numbers -/

def isDigit (c : Char) : Bool := '0' ≤ c && c ≤ '9'

def natOf (digits : List Char) : Nat := digits.foldl (fun n c => n * 10 + (c.toNat - 48)) 0

/-- The digits after a mark, if there is at least one. -/
def digitsAfter (cs : List Char) : Option (List Char × List Char) :=
  match cs.span isDigit with
  | ([], _) => none
  | (ds, rest) => some (ds, rest)

/-- The digits of a fraction, if one stands here, and the rest. -/
def fraction? : List Char → Option (List Char × List Char)
  | '.' :: rest => digitsAfter rest
  | _ => none

/-- An exponent, if one stands here, and the rest. -/
def exponent? : List Char → Option (Int × List Char)
  | e :: s :: rest =>
    if e != 'e' && e != 'E' then none
    else if s == '-' then (digitsAfter rest).map fun (ds, rest) => (-(natOf ds : Int), rest)
    else
      (digitsAfter (if s == '+' then rest else s :: rest)).map fun (ds, rest) => (natOf ds, rest)
  | _ => none

def readNumber (negative : Bool) (cs : List Char) : Except ParseError (Json × List Char) :=
  let whole := match cs with
    | '0' :: rest => some (['0'], rest)
    | cs => digitsAfter cs
  match whole with
  | none => .error .malformed
  | some (ds, rest) =>
    let (decimals, rest) := (fraction? rest).getD ([], rest)
    match exponent? rest with
    | some (power, rest) =>
      .ok (real (.ofDecimal negative (natOf (ds ++ decimals)) (power - decimals.length)), rest)
    | none =>
      if !decimals.isEmpty then
        .ok (real (.ofDecimal negative (natOf (ds ++ decimals)) (-(decimals.length : Int))), rest)
      else if Text.digitLimit < ds.length then .error (.overlong ds.length)
      else .ok (int (if negative then -(natOf ds : Int) else natOf ds), rest)

/-! ## Values -/

/-- What a word means that stands at the beginning of the text, and the rest after it. -/
def readWord (word : String) (value : Json) (cs : List Char) : Except ParseError (Json × List Char) :=
  if word.toList.isPrefixOf cs then .ok (value, cs.drop word.length) else .error .malformed

def readAtom (cs : List Char) : Except ParseError (Json × List Char) :=
  match cs with
  | 'n' :: _ => readWord "null" null cs
  | 't' :: _ => readWord "true" (bool true) cs
  | 'f' :: _ => readWord "false" (bool false) cs
  | 'N' :: _ => readWord "NaN" (real .nan) cs
  | 'I' :: _ => readWord "Infinity" (real (.infinite false)) cs
  | '-' :: 'I' :: _ => readWord "-Infinity" (real (.infinite true)) cs
  | '-' :: rest => readNumber true rest
  | _ => readNumber false cs

mutual

/-- The value at the beginning of the text; each step into or along a container costs one unit
of the first argument. -/
def readValue : Nat → List Char → Except ParseError (Json × List Char)
  | 0, _ => .error .malformed
  | _ + 1, '"' :: rest =>
    match readString none [] rest with
    | some (s, rest) => .ok (str s, rest)
    | none => .error .malformed
  | n + 1, '[' :: rest =>
    match skipSpace rest with
    | ']' :: rest => .ok (arr [], rest)
    | rest => (readItems n [] rest).map fun (items, rest) => (arr items, rest)
  | n + 1, '\x7b' :: rest =>
    match skipSpace rest with
    | '\x7d' :: rest => .ok (obj [], rest)
    | rest => (readMembers n [] rest).map fun (members, rest) => (obj (putAll members), rest)
  | _ + 1, cs => readAtom cs

/-- Items from the beginning of one to the closing bracket; `acc` holds those before, backwards. -/
def readItems : Nat → List Json → List Char → Except ParseError (List Json × List Char)
  | 0, _, _ => .error .malformed
  | n + 1, acc, cs =>
    match readValue n cs with
    | .error e => .error e
    | .ok (j, rest) =>
      match skipSpace rest with
      | ']' :: rest => .ok ((j :: acc).reverse, rest)
      | ',' :: rest => readItems n (j :: acc) (skipSpace rest)
      | _ => .error .malformed

def readMembers : Nat → List (String × Json) → List Char →
    Except ParseError (List (String × Json) × List Char)
  | 0, _, _ => .error .malformed
  | n + 1, acc, '"' :: rest =>
    match readString none [] rest with
    | none => .error .malformed
    | some (k, rest) =>
      match skipSpace rest with
      | ':' :: rest =>
        match readValue n (skipSpace rest) with
        | .error e => .error e
        | .ok (j, rest) =>
          match skipSpace rest with
          | '\x7d' :: rest => .ok (((k, j) :: acc).reverse, rest)
          | ',' :: rest => readMembers n ((k, j) :: acc) (skipSpace rest)
          | _ => .error .malformed
      | _ => .error .malformed
  | _ + 1, _, _ => .error .malformed

end

def parseChars (cs : List Char) : Except ParseError Json :=
  match readValue (2 * cs.length + 2) (skipSpace cs) with
  | .error e => .error e
  | .ok (j, rest) => if (skipSpace rest).isEmpty then .ok j else .error .malformed

def parse (text : String) : Except ParseError Json := parseChars text.toList

/-! ## Octets -/

/-- The characters of a text of octets. Half of a surrogate pair counts as a character. -/
def decode (octets : List UInt8) : Text.Decoded :=
  match octets with
  | 0x00 :: 0x00 :: 0xFE :: 0xFF :: rest => Text.utf32 .alone .big rest
  | 0xFF :: 0xFE :: 0x00 :: 0x00 :: rest => Text.utf32 .alone .little rest
  | 0xFE :: 0xFF :: rest => Text.utf16 .alone .big rest
  | 0xFF :: 0xFE :: rest => Text.utf16 .alone .little rest
  | 0xEF :: 0xBB :: 0xBF :: rest => Text.utf8 .alone rest
  | 0x00 :: 0x00 :: _ :: _ :: _ => Text.utf32 .alone .big octets
  | 0x00 :: _ :: _ :: _ :: _ => Text.utf16 .alone .big octets
  | _ :: 0x00 :: 0x00 :: 0x00 :: _ => Text.utf32 .alone .little octets
  | _ :: 0x00 :: _ :: _ :: _ => Text.utf16 .alone .little octets
  | [0x00, _] => Text.utf16 .alone .big octets
  | [_, 0x00] => Text.utf16 .alone .little octets
  | _ => Text.utf8 .alone octets

def parseOctets (octets : List UInt8) : Except ParseError Json :=
  let decoded := decode octets
  if decoded.ending != .complete then .error .undecodable else parseChars decoded.chars

end WsdlCatalog.Json
