/-
  WsdlCatalog.Xml.Prolog.Literal — what the literals of declarations stand for.

  A literal is a text of its own. As the value of an entity it has its references by
  number resolved and keeps those by name; inside the text of a parameter entity it may
  refer to parameter entities, whose texts are read as part of the value. As a default
  it is the value of an attribute, and as a public identifier it has few characters.
-/

import WsdlCatalog.Xml.Entity
import WsdlCatalog.Xml.Prolog.Mark

namespace WsdlCatalog.Xml

/-! ## Values of entities -/

/-- What has been read of the value of an entity, backwards, and whether later declarations
count. -/
structure EntityValue where
  chars : List Char
  counting : Bool
  deriving Repr

def EntityValue.push (value : EntityValue) (chars : List Char) : EntityValue :=
  { value with chars := chars.reverse ++ value.chars }

/-- The value with what stands from a place on; `expand` continues with what a reference on a line
to a parameter entity stands for. -/
def EntityValue.read (expand : Nat → String → EntityValue → Expansion EntityValue) :
    (fuel : Nat) → Cursor → EntityValue → Expansion EntityValue
  | 0, _, value => pure value
  | fuel + 1, cur, value =>
    let line := cur.line
    match cur.chars with
    | [] => pure value
    | '&' :: rest =>
      match Cursor.reference line { cur with chars := rest } with
      | .ok (.number n _, after) =>
        match charOfNumber? n with
        | some c => read expand fuel after (value.push [c])
        | none => throw (.malformed .invalidCharacterNumber line)
      | .ok (_, after) =>
        read expand fuel after
          (value.push (cur.chars.take (cur.chars.length - after.chars.length)))
      | .error e => throw e.asToken
    | '%' :: rest =>
      match Mark.percentAt line { cur with chars := rest } with
      | .ok (.parameter name, after) => do
        let value ← expand line name value
        read expand fuel after value
      | .ok _ => throw (.malformed .invalidToken line)
      | .error e => throw e.asToken
    | c :: rest => read expand fuel (cur.resume (Cursor.advance line c) rest) (value.push [c])

/-- The value with what a parameter entity stands for, none of those that are being read and not
the one being declared; `depth` bounds how deep they nest. -/
def EntityValue.expand (doctype : Doctype) (declared : Option String) :
    (depth : Nat) → (openNames : List String) → Nat → String → EntityValue → Expansion EntityValue
  | 0, _, line, _, _ => throw (.malformed .recursiveEntity line)
  | depth + 1, openNames, line, name, value =>
    if openNames.contains name || declared == some name then
      throw (.malformed .recursiveEntity line)
    else
      match doctype.parameters.lookup name with
      | some (some text) => do
        Expansion.spend line text
        EntityValue.read (expand doctype declared depth (name :: openNames)) text.length
          (.ofReplacement text line) value
      | _ => pure { value with counting := doctype.standalone }

/-- The value that a literal gives to an entity, inside the texts of the parameter entities
`openNames`; without any, it refers to none. -/
def EntityValue.ofLiteral (doctype : Doctype) (openNames : List String) (declared : Option String)
    (literal : Cursor) : Expansion EntityValue :=
  let expand := if openNames.isEmpty then
      fun line _ _ => throw (.malformed .illegalParameterReference line)
    else EntityValue.expand doctype declared (doctype.parameters.length + 1) openNames
  EntityValue.read expand literal.chars.length literal ⟨[], doctype.counting⟩

def EntityValue.text (value : EntityValue) : List Char := value.chars.reverse

/-! ## Defaults and public identifiers -/

def defaultValue (doctype : Doctype) (isText : Bool) (literal : Cursor) : Expansion (List Char) :=
  attributeValue doctype isText literal.line [] (Markup.pieces literal)

def isPublicChar (c : Char) : Bool :=
  c.isAlphanum || c == ' ' || c == '\n' || c == '\r' || "-'()+,./:=?;!*#@$_%".toList.contains c

def checkPublic (literal : Cursor) : Except ReadError Unit :=
  match literal.chars.span isPublicChar with
  | (_, []) => .ok ()
  | (before, _) =>
    .error (.malformed .illegalPublicIdentifier (before.foldl Cursor.advance literal.line))

end WsdlCatalog.Xml
