/-
  WsdlCatalog.Xml.Document — the root element of a document, from its octets.

  Content is read token by token. A start tag opens an element inside the current
  one and its end tag closes it. A reference to an entity is replaced by the text of
  the entity, read as content of the current element: it has to close what it opens
  and may not close what it did not open.
-/

import WsdlCatalog.Xml.Namespace
import WsdlCatalog.Xml.Prolog
import WsdlCatalog.Xml.Source

namespace WsdlCatalog.Xml

/-- An element whose end tag has not come yet. Its children and its text are held backwards. -/
structure OpenElement where
  name : String
  node : Node
  text : List Char
  deriving Repr

namespace OpenElement

def push (element : OpenElement) (chars : List Char) : OpenElement :=
  { element with text := chars.reverse ++ element.text }

def pushChild (element : OpenElement) (child : Node) : OpenElement :=
  { element with node := { element.node with children := child :: element.node.children } }

def close (element : OpenElement) : Node :=
  { element.node with
    children := element.node.children.reverse
    text := String.ofList (Text.trimChars element.text.reverse) }

end OpenElement

inductive Content where
  /-- The outermost element was closed, before the given place. -/
  | closed (root : Node) (after : Cursor)
  /-- The tokens came to an end on the given line inside an element, with those around it that
  were opened by them. -/
  | inside (current : OpenElement) (outer : List OpenElement) (line : Nat)

/-- What a reference to an entity in content stands for: none where it stands for nothing. -/
def contentEntity? (doctype : Doctype) (openNames : List String) (name : String) :
    Except Cause (Option (List Char)) :=
  match doctype.entity? name with
  | none => if doctype.isComplete then .error .undefinedEntity else .ok none
  | some entity =>
    if openNames.contains name then .error .recursiveEntity
    else if entity.unparsed then .error .unparsedEntity
    else .ok entity.replacement

/-- What content is read with: the declarations, the entities being replaced, the line of the
outermost reference when there are any, and how to read the text of one more, given the line of the
reference to it. -/
structure ContentRule where
  doctype : Doctype
  openNames : List String
  at_ : Option Nat
  expand : Nat → String → List Char → OpenElement → Expansion OpenElement

/-- The current element with what a reference on line `line` stands for. `settled` tells that
either more tokens follow, or all elements are closed that these tokens opened: what an entity
stands for is balanced up to a reference that ends it. -/
def ContentRule.reference (rule : ContentRule) (line : Nat) (settled : Bool)
    (current : OpenElement) : Piece → Expansion OpenElement
  | .char c => pure (current.push [c])
  | .fault e => throw e
  | .number n _ =>
    match charOfNumber? n with
    | some c => pure (current.push [c])
    | none => throw (.malformed .invalidCharacterNumber line)
  | .entity name _ =>
    match Doctype.predefined? name with
    | some c => pure (current.push [c])
    | none =>
      match contentEntity? rule.doctype rule.openNames name with
      | .error cause => throw (.malformed cause line)
      | .ok none => pure current
      | .ok (some text) =>
        if rule.at_.isSome && !settled then throw (.malformed .asynchronousEntity line)
        else rule.expand line name text current

/-- The content of the current element and of those around it, innermost first, that the tokens
opened themselves. -/
def ContentRule.read (rule : ContentRule) (current : OpenElement) (outer : List OpenElement) :
    Flow Markup → Expansion Content
  | .finished line => pure (.inside current outer line)
  | .broken e => throw e
  | .token line markup after next => do
    let line := rule.at_.getD line
    match markup with
    | .text chars => rule.read (current.push chars) outer next
    | .aside => rule.read current outer next
    | .declaration _ => throw (.malformed .misplacedDeclaration line)
    | .reference piece =>
      let current ← rule.reference line (!next.isFinished || outer.isEmpty) current piece
      rule.read current outer next
    | .startTag name attributes isEmpty =>
      let node ← Node.ofStartTag rule.doctype rule.openNames current.node.bindings line name
        attributes
      if isEmpty then rule.read (current.pushChild node) outer next
      else rule.read ⟨name, node, []⟩ (current :: outer) next
    | .endTag name =>
      match outer with
      | [] =>
        if rule.at_.isSome then throw (.malformed .asynchronousEntity line)
        else if name != current.name then throw (.malformed .mismatchedTag line)
        else return .closed current.close after
      | around :: outer =>
        if name != current.name then throw (.malformed .mismatchedTag line)
        else rule.read (around.pushChild current.close) outer next

/-- The current element with the text of an entity as content; `depth` bounds how deep entities
nest. -/
def expandEntity (doctype : Doctype) :
    (depth : Nat) → (openNames : List String) → Nat → String → List Char → OpenElement →
      Expansion OpenElement
  | 0, _, line, _, _, _ => throw (.malformed .recursiveEntity line)
  | depth + 1, openNames, line, name, text, current => do
    Expansion.spend line text
    let names := name :: openNames
    let rule : ContentRule := ⟨doctype, names, some line, expandEntity doctype depth names⟩
    let read := rule.read current [] (Flow.of Markup.scan (.ofReplacement text line))
    match ← Expansion.relocate line read with
    | .inside current [] _ => return current
    | _ => throw (.malformed .asynchronousEntity line)

/-- Only comments and instructions may follow the root element. -/
def checkEpilog : Flow Mark → Except ReadError Unit
  | .finished _ => .ok ()
  | .broken e => .error e
  | .token line mark _ next =>
    match mark with
    | .space | .aside => checkEpilog next
    | _ => .error (.malformed .junkAfterRoot line)

/-- The root element that begins at a place, up to the end of the document. -/
def Node.atRoot (doctype : Doctype) (cur : Cursor) : Expansion Node := do
  match ← Markup.scan (cur.chars.length + 1) cur with
  | (.startTag name attributes isEmpty, after) =>
    let node ← Node.ofStartTag doctype [] [] cur.line name attributes
    if isEmpty then
      checkEpilog (Flow.of Mark.scan after)
      return node
    else
      let rule : ContentRule :=
        ⟨doctype, [], none, expandEntity doctype (doctype.entities.length + 1) []⟩
      match ← rule.read ⟨name, node, []⟩ [] (Flow.of Markup.scan after) with
      | .closed root after =>
        checkEpilog (Flow.of Mark.scan after)
        return root
      | .inside _ _ line => throw (.malformed .noElement line)
  | _ => throw (.malformed .unexpectedMarkup cur.line)

def Node.parse (octets : List UInt8) : Except ReadError Node := do
  let (cur, standalone) ← source octets
  let read : Expansion Node := do
    let (doctype, cur) ← Prolog.read standalone cur
    Node.atRoot doctype cur
  read.run' (Expansion.allowance octets.length)

end WsdlCatalog.Xml
