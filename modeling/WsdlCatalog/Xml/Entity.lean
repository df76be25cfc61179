/-
  WsdlCatalog.Xml.Entity — what a document type declares, and attribute values made
  with it.

  The first declaration of an entity, and of an attribute of an element, is the one
  that counts. An entity inside an attribute value is replaced by its text, whose
  references are followed in turn; an entity that is being replaced must not be met
  again.
-/

import WsdlCatalog.Xml.Expansion
import WsdlCatalog.Xml.Markup

namespace WsdlCatalog.Xml

structure Entity where
  name : String
  /-- The replacement text; an entity kept elsewhere has none here. -/
  replacement : Option (List Char)
  /-- It is no markup but data of some notation. -/
  unparsed : Bool
  deriving Repr

/-- What is known of an attribute of an element before the element is read. -/
structure AttributeRule where
  element : String
  name : String
  /-- Its value is free text; any other value is a list of words. -/
  isText : Bool
  default : Option (List Char)
  deriving Repr

structure Doctype where
  entities : List Entity
  /-- Replacement texts of parameter entities. -/
  parameters : List (String × Option (List Char))
  rules : List AttributeRule
  /-- Some declarations may be kept elsewhere. -/
  hasOutside : Bool
  standalone : Bool
  /-- Declarations after one that could not be read do not count. -/
  counting : Bool
  deriving Repr

namespace Doctype

def empty (standalone : Bool) : Doctype := ⟨[], [], [], false, standalone, true⟩

def predefined? (name : String) : Option Char :=
  [("amp", '&'), ("lt", '<'), ("gt", '>'), ("quot", '"'), ("apos", '\'')].lookup name

def entity? (doctype : Doctype) (name : String) : Option Entity :=
  doctype.entities.find? (·.name == name)

def isComplete (doctype : Doctype) : Bool := !doctype.hasOutside || doctype.standalone

def rule? (doctype : Doctype) (element name : String) : Option AttributeRule :=
  doctype.rules.find? fun rule => rule.element == element && rule.name == name

def defaults (doctype : Doctype) (element : String) : List (AttributeRule × List Char) :=
  doctype.rules.filterMap fun rule =>
    if rule.element == element then rule.default.map (rule, ·) else none

end Doctype

/-! ## Attribute values -/

/-- One more character of a list of words, which is held backwards: a space neither begins the
list nor follows a space. -/
def pushWordChar (acc : List Char) (c : Char) : List Char :=
  if c == ' ' && (acc.isEmpty || acc.head? == some ' ') then acc else c :: acc

/-- One more character of a value, which is held backwards. -/
def pushChar (isText : Bool) (acc : List Char) (c : Char) : List Char :=
  if isText then c :: acc else pushWordChar acc c

/-- The text that a reference in a value stands for: none where it stands for nothing. `line` is
the line of what holds the value, and `own` that of the reference. -/
def valueText? (doctype : Doctype) (openNames : List String) (line own : Nat) (name : String) :
    Except ReadError (Option (List Char)) :=
  match doctype.entity? name with
  | none => if doctype.isComplete then .error (.malformed .undefinedEntity line) else .ok none
  | some entity =>
    if openNames.contains name then .error (.malformed .recursiveEntity own)
    else if entity.unparsed then .error (.malformed .unparsedEntity own)
    else
      match entity.replacement with
      | some text => .ok (some text)
      | none => .error (.malformed .externalEntityInAttribute own)

/-- The value so far with more pieces, backwards; `expand` continues with what a reference on a
line stands for. -/
def pushPieces (isText : Bool) (expand : Nat → String → List Char → Expansion (List Char)) :
    List Piece → List Char → Expansion (List Char)
  | [], acc => pure acc
  | .char c :: rest, acc =>
    pushPieces isText expand rest (pushChar isText acc (if isSpace c then ' ' else c))
  | .number n own :: rest, acc =>
    match charOfNumber? n with
    | some c => pushPieces isText expand rest (pushChar isText acc c)
    | none => throw (.malformed .invalidCharacterNumber own)
  | .entity name own :: rest, acc =>
    match Doctype.predefined? name with
    | some c => pushPieces isText expand rest (c :: acc)
    | none => do
      let acc ← expand own name acc
      pushPieces isText expand rest acc
  | .fault e :: _, _ => throw e

/-- The value so far with what an entity stands for; `depth` bounds how deep entities nest. -/
def pushEntity (doctype : Doctype) (isText : Bool) (line : Nat) :
    (depth : Nat) → (openNames : List String) → Nat → String → List Char → Expansion (List Char)
  | 0, _, own, _, _ => throw (.malformed .recursiveEntity own)
  | depth + 1, openNames, own, name, acc => do
    match ← valueText? doctype openNames line own name with
    | none => return acc
    | some text =>
      Expansion.spend line text
      Expansion.relocate line
        (pushPieces isText (pushEntity doctype isText line depth (name :: openNames))
          (Markup.pieces (.ofReplacement text line)) acc)

/-- The value of an attribute from its pieces: line ends and tabs are spaces, and a list of words
has single spaces between them. What holds the value, on line `line`, may itself stand in entities
that are being replaced. -/
def attributeValue (doctype : Doctype) (isText : Bool) (line : Nat) (openNames : List String)
    (pieces : List Piece) : Expansion (List Char) := do
  let depth := doctype.entities.length + 1
  let acc ← pushPieces isText (pushEntity doctype isText line depth openNames) pieces []
  let acc := if !isText && acc.head? == some ' ' then acc.tail else acc
  return acc.reverse

end WsdlCatalog.Xml
