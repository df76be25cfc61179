/-
  WsdlCatalog.Xml.Prolog — what stands before the root element: the document type and
  its declarations.

  Reading goes from token to token. What may come next (`Expect`) follows from what
  came before, and declarations are collected on the way. A parameter entity between
  declarations is replaced by its text, which holds whole declarations.
-/

import WsdlCatalog.Xml.Prolog.Literal

namespace WsdlCatalog.Xml

inductive Expect where
  /-- Anything that begins a document. -/
  | beginning
  | doctypeOrRoot
  | root
  | doctypeName
  | doctypeIdentifier
  | doctypePublic
  | doctypeSystem
  | subsetOrEnd
  | doctypeEnd
  /-- A declaration of the internal subset. -/
  | declaration
  /-- The end of a declaration whose parts are all there. -/
  | declarationEnd
  | entityName
  | parameterName
  | entityBody (isParameter : Bool) (name : String)
  | entityPublic (isParameter : Bool) (name : String)
  | entitySystem (isParameter : Bool) (name : String)
  | entityEnd (isParameter : Bool) (name : String)
  | entityNotation (name : String)
  | ruleElement
  | ruleName (element : String)
  | ruleType (element name : String)
  | notationParen (element name : String)
  | choiceWord (isNotation : Bool) (element name : String)
  | choiceNext (isNotation : Bool) (element name : String)
  | ruleDefault (isText : Bool) (element name : String)
  | fixedDefault (isText : Bool) (element name : String)
  | modelElement
  | model
  /-- The first thing in the outermost group of a content model. -/
  | groupFirst
  | mixedNext
  | mixedName
  | mixedMore
  /-- A thing in a group; for each group that is open, innermost first, what stands between its
  things. -/
  | particle (connectors : List (Option Mark))
  | particleNext (connectors : List (Option Mark))
  | notationName
  | notationIdentifier
  | notationPublic
  | notationSystem
  | notationEnd
  deriving DecidableEq, Repr

namespace Prolog

/-- The rules of the document type after a declaration of an entity. -/
def declareEntity (doctype : Doctype) (entity : Entity) : Doctype :=
  if !doctype.counting || (Doctype.predefined? entity.name).isSome
      || (doctype.entity? entity.name).isSome then doctype
  else { doctype with entities := doctype.entities ++ [entity] }

def declareParameter (doctype : Doctype) (name : String) (text : Option (List Char)) : Doctype :=
  if !doctype.counting || (doctype.parameters.lookup name).isSome then doctype
  else { doctype with parameters := doctype.parameters ++ [(name, text)] }

/-- The declarations with an entity whose value is a literal. A value that does not count is not
read, and one that comes too late is read and lost. -/
def declareValue (openNames : List String) (doctype : Doctype) (isParameter : Bool) (name : String)
    (literal : Cursor) : Expansion Doctype := do
  if !doctype.counting then return doctype
  let isNew := isParameter && (doctype.parameters.lookup name).isNone
  let value ← EntityValue.ofLiteral doctype openNames (if isNew then some name else none) literal
  let doctype := if isParameter then declareParameter doctype name (some value.text)
    else declareEntity doctype ⟨name, some value.text, false⟩
  return { doctype with counting := value.counting }

def declareRule (doctype : Doctype) (rule : AttributeRule) : Doctype :=
  if !doctype.counting || (doctype.rule? rule.element rule.name).isSome then doctype
  else { doctype with rules := doctype.rules ++ [rule] }

/-- The declarations with an attribute that has a default, which is read if it counts. -/
def declareDefault (doctype : Doctype) (element name : String) (isText : Bool) (literal : Cursor) :
    Expansion Doctype := do
  if !doctype.counting then return doctype
  let value ← defaultValue doctype isText literal
  return declareRule doctype ⟨element, name, isText, some value⟩

/-! ## One token -/

def textTypes : List String :=
  ["ID", "IDREF", "IDREFS", "ENTITY", "ENTITIES", "NMTOKEN", "NMTOKENS"]

/-- What is expected after a group of a content model was closed. -/
def closeGroup : List (Option Mark) → Expect
  | _ :: outer :: rest => .particleNext (outer :: rest)
  | _ => .declarationEnd

/-- What is expected after a token, and the declarations with what it completes, inside the texts
of the parameter entities `openNames`. -/
def step (openNames : List String) (doctype : Doctype) (line : Nat) :
    Expect → Mark → Expansion (Expect × Doctype)
  | .beginning, .space => pure (.doctypeOrRoot, doctype)
  | .beginning, .aside => pure (.doctypeOrRoot, doctype)
  | .beginning, .declaration => pure (.doctypeOrRoot, doctype)
  | expect, .space => pure (expect, doctype)
  | .doctypeOrRoot, .aside => pure (.doctypeOrRoot, doctype)
  | .root, .aside => pure (.root, doctype)
  | .beginning, .opening "DOCTYPE" => pure (.doctypeName, doctype)
  | .doctypeOrRoot, .opening "DOCTYPE" => pure (.doctypeName, doctype)
  | .doctypeName, .name _ => pure (.doctypeIdentifier, doctype)
  | .doctypeName, .qualified _ => pure (.doctypeIdentifier, doctype)
  | .doctypeIdentifier, .leftBracket => pure (.declaration, doctype)
  | .doctypeIdentifier, .closing => pure (.root, doctype)
  | .doctypeIdentifier, .name "SYSTEM" => pure (.doctypeSystem, doctype)
  | .doctypeIdentifier, .name "PUBLIC" => pure (.doctypePublic, doctype)
  | .doctypePublic, .literal text => do
    checkPublic text
    return (.doctypeSystem, doctype)
  | .doctypeSystem, .literal _ => pure (.subsetOrEnd, { doctype with hasOutside := true })
  | .subsetOrEnd, .leftBracket => pure (.declaration, doctype)
  | .subsetOrEnd, .closing => pure (.root, doctype)
  | .doctypeEnd, .closing =>
    if openNames.isEmpty then pure (.root, doctype) else throw (.malformed .invalidToken line)
  -- the internal subset
  | .declaration, .aside => pure (.declaration, doctype)
  | .declaration, .rightBracket => pure (.doctypeEnd, doctype)
  | .declaration, .opening "ENTITY" => pure (.entityName, doctype)
  | .declaration, .opening "ATTLIST" => pure (.ruleElement, doctype)
  | .declaration, .opening "ELEMENT" => pure (.modelElement, doctype)
  | .declaration, .opening "NOTATION" => pure (.notationName, doctype)
  | .declarationEnd, .closing => pure (.declaration, doctype)
  -- entities
  | .entityName, .percent => pure (.parameterName, doctype)
  | .entityName, .name name => pure (.entityBody false name, doctype)
  | .parameterName, .name name => pure (.entityBody true name, doctype)
  | .entityBody isParameter name, .literal text => do
    return (.declarationEnd, ← declareValue openNames doctype isParameter name text)
  | .entityBody isParameter name, .name "SYSTEM" => pure (.entitySystem isParameter name, doctype)
  | .entityBody isParameter name, .name "PUBLIC" => pure (.entityPublic isParameter name, doctype)
  | .entityPublic isParameter name, .literal text => do
    checkPublic text
    return (.entitySystem isParameter name, doctype)
  | .entitySystem isParameter name, .literal _ => pure (.entityEnd isParameter name, doctype)
  | .entityEnd isParameter name, .closing =>
    pure (.declaration,
      if isParameter then declareParameter doctype name none
      else declareEntity doctype ⟨name, none, false⟩)
  | .entityEnd false name, .name "NDATA" => pure (.entityNotation name, doctype)
  | .entityNotation name, .name _ =>
    pure (.declarationEnd, declareEntity doctype ⟨name, none, true⟩)
  -- attributes
  | .ruleElement, .name element => pure (.ruleName element, doctype)
  | .ruleElement, .qualified element => pure (.ruleName element, doctype)
  | .ruleName _, .closing => pure (.declaration, doctype)
  | .ruleName element, .name name => pure (.ruleType element name, doctype)
  | .ruleName element, .qualified name => pure (.ruleType element name, doctype)
  | .ruleType element name, .name "CDATA" => pure (.ruleDefault true element name, doctype)
  | .ruleType element name, .name "NOTATION" => pure (.notationParen element name, doctype)
  | .ruleType element name, .name type =>
    if textTypes.contains type then pure (.ruleDefault false element name, doctype)
    else throw (.malformed .unexpectedMarkup line)
  | .ruleType element name, .leftParen => pure (.choiceWord false element name, doctype)
  | .notationParen element name, .leftParen => pure (.choiceWord true element name, doctype)
  | .choiceWord isNotation element name, .name _ =>
    pure (.choiceNext isNotation element name, doctype)
  | .choiceWord false element name, .qualified _ => pure (.choiceNext false element name, doctype)
  | .choiceWord false element name, .word _ => pure (.choiceNext false element name, doctype)
  | .choiceNext isNotation element name, .bar => pure (.choiceWord isNotation element name, doctype)
  | .choiceNext _ element name, .rightParen => pure (.ruleDefault false element name, doctype)
  | .ruleDefault isText element name, .keyword "IMPLIED" =>
    pure (.ruleName element, declareRule doctype ⟨element, name, isText, none⟩)
  | .ruleDefault isText element name, .keyword "REQUIRED" =>
    pure (.ruleName element, declareRule doctype ⟨element, name, isText, none⟩)
  | .ruleDefault isText element name, .keyword "FIXED" =>
    pure (.fixedDefault isText element name, doctype)
  | .ruleDefault isText element name, .literal text => do
    return (.ruleName element, ← declareDefault doctype element name isText text)
  | .fixedDefault isText element name, .literal text => do
    return (.ruleName element, ← declareDefault doctype element name isText text)
  -- content models
  | .modelElement, .name _ => pure (.model, doctype)
  | .modelElement, .qualified _ => pure (.model, doctype)
  | .model, .name "EMPTY" => pure (.declarationEnd, doctype)
  | .model, .name "ANY" => pure (.declarationEnd, doctype)
  | .model, .leftParen => pure (.groupFirst, doctype)
  | .groupFirst, .keyword "PCDATA" => pure (.mixedNext, doctype)
  | .groupFirst, .leftParen => pure (.particle [none, none], doctype)
  | .groupFirst, .name _ => pure (.particleNext [none], doctype)
  | .groupFirst, .qualified _ => pure (.particleNext [none], doctype)
  | .groupFirst, .repeated _ => pure (.particleNext [none], doctype)
  | .mixedNext, .rightParen => pure (.declarationEnd, doctype)
  | .mixedNext, .rightParenRepeated '*' => pure (.declarationEnd, doctype)
  | .mixedNext, .bar => pure (.mixedName, doctype)
  | .mixedName, .name _ => pure (.mixedMore, doctype)
  | .mixedName, .qualified _ => pure (.mixedMore, doctype)
  | .mixedMore, .rightParenRepeated '*' => pure (.declarationEnd, doctype)
  | .mixedMore, .bar => pure (.mixedName, doctype)
  | .particle connectors, .leftParen => pure (.particle (none :: connectors), doctype)
  | .particle connectors, .name _ => pure (.particleNext connectors, doctype)
  | .particle connectors, .qualified _ => pure (.particleNext connectors, doctype)
  | .particle connectors, .repeated _ => pure (.particleNext connectors, doctype)
  | .particleNext connectors, .rightParen => pure (closeGroup connectors, doctype)
  | .particleNext connectors, .rightParenRepeated _ => pure (closeGroup connectors, doctype)
  | .particleNext (connector :: outer), .comma =>
    if connector == some .bar then throw (.malformed .unexpectedMarkup line)
    else pure (.particle (some .comma :: outer), doctype)
  | .particleNext (connector :: outer), .bar =>
    if connector == some .comma then throw (.malformed .unexpectedMarkup line)
    else pure (.particle (some .bar :: outer), doctype)
  -- notations
  | .notationName, .name _ => pure (.notationIdentifier, doctype)
  | .notationIdentifier, .name "SYSTEM" => pure (.notationSystem, doctype)
  | .notationIdentifier, .name "PUBLIC" => pure (.notationPublic, doctype)
  | .notationPublic, .literal text => do
    checkPublic text
    return (.notationEnd, doctype)
  | .notationSystem, .literal _ => pure (.declarationEnd, doctype)
  | .notationEnd, .literal _ => pure (.declarationEnd, doctype)
  | .notationEnd, .closing => pure (.declaration, doctype)
  | _, .declaration => throw (.malformed .misplacedDeclaration line)
  | _, .parameter _ => throw (.malformed .illegalParameterReference line)
  | _, _ => throw (.malformed .unexpectedMarkup line)

/-! ## All tokens -/

/-- How the text of a parameter entity is read: from its name and the line of the reference. -/
abbrev ParameterReader := Nat → String → List Char → Doctype → Expansion Doctype

/-- The declarations after a reference to a parameter entity. -/
def includeParameter (expand : ParameterReader) (line : Nat) (doctype : Doctype) (name : String) :
    Expansion Doctype :=
  let doctype := { doctype with hasOutside := true }
  if doctype.standalone then pure doctype
  else
    match doctype.parameters.lookup name with
    | some (some text) => expand line name text doctype
    | _ => pure { doctype with counting := false }

/-- What is expected at the root element or at the end of the tokens, the declarations, and the
place of the root element if it was reached. -/
def run (openNames : List String) (expand : ParameterReader) :
    Expect → Doctype → Cursor → Flow Mark → Expansion (Expect × Doctype × Option Cursor × Nat)
  | expect, doctype, _, .finished line => pure (expect, doctype, none, line)
  | _, _, _, .broken e => throw e
  | expect, doctype, here, .token line mark after next => do
    match expect, mark with
    | .beginning, .element => return (expect, doctype, some here, line)
    | .doctypeOrRoot, .element => return (expect, doctype, some here, line)
    | .root, .element => return (expect, doctype, some here, line)
    | .declaration, .parameter name =>
      let doctype ← includeParameter expand line doctype name
      run openNames expand .declaration doctype after next
    | expect, mark =>
      let (expect, doctype) ← step openNames doctype line expect mark
      run openNames expand expect doctype after next

/-- The declarations with those of a parameter entity; `depth` bounds how deep they nest. -/
def expandParameter : (depth : Nat) → List String → ParameterReader
  | 0, _, line, _, _, _ => throw (.malformed .recursiveEntity line)
  | depth + 1, openNames, line, name, text, doctype =>
    if openNames.contains name then throw (.malformed .recursiveEntity line)
    else do
      Expansion.spend line text
      let names := name :: openNames
      let cur := Cursor.ofReplacement text line
      match ← Expansion.relocate line
          (run names (expandParameter depth names) .declaration doctype cur
            (Flow.of Mark.scan cur)) with
      | (.declaration, doctype, none, _) => return doctype
      | _ => throw (.malformed .incompleteParameter line)

def read (standalone : Bool) (cur : Cursor) : Expansion (Doctype × Cursor) := do
  let depth := cur.chars.length + 1
  match ← run [] (expandParameter depth []) .beginning (.empty standalone) cur
      (Flow.of Mark.scan cur) with
  | (_, doctype, some root, _) => return (doctype, root)
  | (_, _, none, line) => throw (.malformed .noElement line)

end Prolog

end WsdlCatalog.Xml
