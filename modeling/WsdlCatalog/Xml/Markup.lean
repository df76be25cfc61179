/-
  WsdlCatalog.Xml.Markup — the tokens of element content.

  A tag is read whole before anything is made of its attributes. Their values are
  kept as pieces, because what a reference stands for depends on declarations.
-/

import WsdlCatalog.Xml.Cursor

namespace WsdlCatalog.Xml

structure RawAttribute where
  name : String
  line : Nat
  value : List Piece
  deriving Repr

inductive Markup where
  | startTag (name : String) (attributes : List RawAttribute) (isEmpty : Bool)
  | endTag (name : String)
  | text (chars : List Char)
  | reference (piece : Piece)
  /-- A comment or a processing instruction. -/
  | aside
  /-- A declaration that may only begin a document, with its text. -/
  | declaration (text : List Char)
  deriving Repr

namespace Markup

/-! ## Values -/

/-- The part of a value that begins here, in a token begun on line `start`. -/
def pieceAt (start : Nat) (cur : Cursor) : Except ReadError (Piece × Cursor) :=
  match cur.chars with
  | [] => cur.short start
  | '&' :: rest => Cursor.reference start { cur with chars := rest }
  | c :: rest =>
    if c == '<' || !isXmlChar c then cur.invalid
    else .ok (.char c, cur.resume (Cursor.advance cur.line c) rest)

/-- The pieces of a value up to its closing quote; `acc` holds those before, backwards. -/
def valueFrom (start : Nat) (quote : Char) :
    (fuel : Nat) → List Piece → Cursor → Except ReadError (List Piece × Cursor)
  | 0, _, cur => cur.short start
  | fuel + 1, acc, cur =>
    if cur.chars.head? == some quote then
      .ok (acc.reverse, { cur with chars := cur.chars.tail })
    else
      match pieceAt start cur with
      | .ok (piece, cur) => valueFrom start quote fuel (piece :: acc) cur
      | .error e => .error e

/-- The pieces of a text that is all value, as far as it can be read. -/
def piecesFrom : (fuel : Nat) → List Piece → Cursor → List Piece
  | 0, acc, _ => acc.reverse
  | fuel + 1, acc, cur =>
    if cur.chars.isEmpty then acc.reverse
    else
      match pieceAt cur.line cur with
      | .ok (piece, cur) => piecesFrom fuel (piece :: acc) cur
      | .error e => (.fault e.asToken :: acc).reverse

def pieces (cur : Cursor) : List Piece := piecesFrom cur.chars.length [] cur

/-! ## Tags -/

def attributeAt (start fuel : Nat) (cur : Cursor) : Except ReadError (RawAttribute × Cursor) := do
  let line := cur.line
  let (name, cur) ← cur.qualifiedName start
  let spaced := cur.beginsWithSpace
  let cur := cur.skipSpace
  match cur.chars with
  | '=' :: rest =>
    let cur := Cursor.skipSpace { cur with chars := rest }
    match cur.chars with
    | q :: rest =>
      if q == '"' || q == '\'' then
        let (pieces, cur) ← valueFrom start q fuel [] { cur with chars := rest }
        return (⟨name, line, pieces⟩, cur)
      else cur.invalid
    | [] => cur.unfit start
  | _ => if spaced then cur.unfit start else cur.broken start

/-- The attributes and the end of a start tag, after its name or after an attribute. -/
def attributesFrom (start : Nat) :
    (fuel : Nat) → List RawAttribute → Cursor →
      Except ReadError (List RawAttribute × Bool × Cursor)
  | 0, _, cur => cur.short start
  | fuel + 1, acc, cur =>
    let spaced := cur.beginsWithSpace
    let cur := cur.skipSpace
    match cur.chars with
    | '>' :: rest => .ok (acc.reverse, false, { cur with chars := rest })
    | '/' :: '>' :: rest => .ok (acc.reverse, true, { cur with chars := rest })
    | '/' :: rest => Cursor.unfit { cur with chars := rest } start
    | c :: _ =>
      if spaced && cur.form.isNameStart c then
        match attributeAt start fuel cur with
        | .ok (a, cur) => attributesFrom start fuel (a :: acc) cur
        | .error e => .error e
      else cur.invalid
    | [] => if spaced || acc.isEmpty then cur.short start else cur.unfit start

def startTagAt (start fuel : Nat) (cur : Cursor) : Except ReadError (Markup × Cursor) := do
  let (name, cur) ← cur.qualifiedName start
  let (attributes, isEmpty, cur) ← attributesFrom start fuel [] cur
  return (.startTag name attributes isEmpty, cur)

/-- The name of an end tag has to be that of a start tag, so its colons are not counted. -/
def endTagAt (start : Nat) (cur : Cursor) : Except ReadError (Markup × Cursor) := do
  let (_, _) ← cur.name start
  let (name, rest) := cur.chars.span fun c => cur.form.isNameChar c || c == ':'
  let cur := { cur with chars := rest }
  let spaced := cur.beginsWithSpace
  let cur := cur.skipSpace
  match cur.chars with
  | '>' :: rest => return (.endTag (String.ofList name), { cur with chars := rest })
  | _ => if spaced then cur.unfit start else cur.broken start

/-! ## Comments, instructions and character data -/

/-- The place after a comment, from a place on line `line` inside it. -/
def comment (cur : Cursor) (start line : Nat) : List Char → Except ReadError Cursor
  | '-' :: '-' :: '>' :: rest => .ok (cur.resume line rest)
  | '-' :: '-' :: rest => (cur.resume line rest).unfit start
  | c :: rest =>
    if isXmlChar c then comment cur start (Cursor.advance line c) rest
    else (cur.resume line (c :: rest)).invalid
  | [] => (cur.resume line []).short start

/-- The place after an instruction, from a place inside it, and the text in between. -/
def instructionEnd (cur : Cursor) (start line : Nat) (acc : List Char) :
    List Char → Except ReadError (List Char × Cursor)
  | '?' :: '>' :: rest => .ok (acc.reverse, cur.resume line rest)
  | c :: rest =>
    if isXmlChar c then instructionEnd cur start (Cursor.advance line c) (c :: acc) rest
    else (cur.resume line (c :: rest)).invalid
  | [] => (cur.resume line []).short start

def isXmlTarget (target : List Char) : Bool := target.map Char.toLower == ['x', 'm', 'l']

/-- An instruction after its question mark. Its target is no spelling of `xml` but the one in
small letters, which makes it a declaration. -/
def instruction (start : Nat) (cur : Cursor) : Except ReadError (Markup × Cursor) := do
  let (target, cur) ← cur.name start
  let reserved := isXmlTarget target
  match cur.chars with
  | [] => cur.short start
  | c :: rest =>
    if reserved && target != ['x', 'm', 'l'] then cur.invalid
    else if isSpace c then
      let (content, cur) ← instructionEnd cur start (Cursor.advance cur.line c) [c] rest
      return (if reserved then .declaration content else .aside, cur)
    else if c == '?' then
      match rest with
      | '>' :: rest =>
        return (if reserved then .declaration [] else .aside, { cur with chars := rest })
      | _ => Cursor.unfit { cur with chars := rest } start
    else cur.invalid

/-- The text of a section of character data, from a place on line `line` inside it. It may only
end with its closing. -/
def cdata (cur : Cursor) (line : Nat) (acc : List Char) :
    List Char → Except ReadError (Markup × Cursor)
  | ']' :: ']' :: '>' :: rest => .ok (.text acc.reverse, cur.resume line rest)
  | ['\r'] => .error (.malformed .unclosedCdata line)
  | c :: rest =>
    if isXmlChar c then cdata cur (Cursor.advance line c) (c :: acc) rest
    else (cur.resume line (c :: rest)).invalid
  | [] =>
    if cur.ending.isEnd then .error (.malformed .unclosedCdata line)
    else (cur.resume line []).short line

/-- Six units open a section of character data after `<![`. -/
def cdataAt (start : Nat) (cur : Cursor) : Except ReadError (Markup × Cursor) :=
  let opening := "CDATA[".toList
  if ((cur.chars.take 6).map cur.form.units).foldr (· + ·) cur.ending.units < 6 then
    .error (.malformed .unclosedToken start)
  else if opening.isPrefixOf cur.chars then cdata cur cur.line [] (cur.chars.drop opening.length)
  else cur.invalid

/-- Character data up to the next tag or reference; the closing of a section must not stand in
it. Neither a carriage return nor a bracket that a document ends with is read on. -/
def textFrom (cur : Cursor) (line : Nat) (acc : List Char) :
    List Char → Except ReadError (Markup × Cursor)
  | ']' :: ']' :: '>' :: _ => (cur.resume line []).invalid
  | ['\r'] =>
    if cur.form == .replacement then .ok (.text ('\r' :: acc).reverse, cur.resume line [])
    else .ok (.text acc.reverse, (cur.resume line []).settled)
  | c :: rest =>
    if c == '<' || c == '&' then .ok (.text acc.reverse, cur.resume line (c :: rest))
    else if isXmlChar c then textFrom cur (Cursor.advance line c) (c :: acc) rest
    else (cur.resume line (c :: rest)).invalid
  | [] =>
    let after := cur.resume line []
    .ok (.text acc.reverse, if acc.head? == some ']' then after.settled else after)

/-! ## Content -/

def scan : Scanner Markup := fun fuel cur =>
  let start := cur.line
  match cur.chars with
  | '<' :: '/' :: rest => endTagAt start { cur with chars := rest }
  | '<' :: '?' :: rest => instruction start { cur with chars := rest }
  | '<' :: '!' :: '-' :: '-' :: rest => do
    return (.aside, ← comment cur start cur.line rest)
  | '<' :: '!' :: '-' :: rest => Cursor.unfit { cur with chars := rest } start
  | '<' :: '!' :: '[' :: rest => cdataAt start { cur with chars := rest }
  | '<' :: '!' :: rest => Cursor.unfit { cur with chars := rest } start
  | '<' :: rest => startTagAt start fuel { cur with chars := rest }
  | '&' :: rest => do
    let (piece, cur) ← Cursor.reference start { cur with chars := rest }
    return (.reference piece, cur)
  | chars => textFrom cur cur.line [] chars

end Markup

end WsdlCatalog.Xml
