/-
  WsdlCatalog.Xml.Namespace — start tags with their prefixes resolved.

  A tag first binds the prefixes it declares, whatever their place among its
  attributes; then the prefixes of its attributes and its own are looked up. A name
  is told from its namespace by blanks: a namespace that has blanks itself shifts
  the parts of the name, and too many of them are a fault.
-/

import WsdlCatalog.Json
import WsdlCatalog.Text.Cut
import WsdlCatalog.Xml.Entity
import WsdlCatalog.Xml.Node

namespace WsdlCatalog.Xml

/-! ## Prefixes -/

/-- A name as its prefix, empty for a name without one, and its local part. -/
def dividePrefix (name : String) : String × String :=
  match Text.cut? ':' name.toList with
  | some (before, after) => (String.ofList before, String.ofList after)
  | none => ("", name)

def declaredPrefix? (name : String) : Option String :=
  match dividePrefix name with
  | ("", "xmlns") => some ""
  | ("xmlns", pfx) => some pfx
  | _ => none

/-- Only the default namespace can be undeclared, `xmlns` cannot be bound, and `xml` goes with
its own namespace and no other. -/
def checkBinding (pfx uri : String) : Except Cause Unit :=
  if pfx != "" && uri == "" then .error .undeclaredPrefix
  else if pfx == "xmlns" then .error .reservedXmlns
  else if uri.toList.contains ' ' then .error .unexpectedMarkup
  else if pfx == "xml" && uri != Vocabulary.xml then .error .reservedXml
  else if pfx != "xml" && uri == Vocabulary.xml then .error .reservedNamespace
  else if uri == Vocabulary.xmlns then .error .reservedNamespace
  else .ok ()

/-- The namespace of a prefix that is in scope; `xml` always is. -/
def Bindings.namespace? (bindings : Bindings) (pfx : String) : Option String :=
  if pfx == "xml" then some Vocabulary.xml else (bindings.lookup pfx).join

/-! ## Names -/

structure BoundName where
  pfx : String
  uri : Option String
  localPart : String
  deriving DecidableEq, Repr

/-- The namespace, empty if there is none, and the local name by which an element or attribute
goes: the first two words of namespace, local part and prefix written one after another. -/
def BoundName.expanded (name : BoundName) : Except ReadError (String × String) :=
  let whole := match name.uri with
    | none => name.localPart
    | some uri =>
      uri ++ " " ++ name.localPart ++ (if name.pfx == "" then "" else " " ++ name.pfx)
  match Text.words whole with
  | [uri, localPart] => .ok (uri, localPart)
  | [uri, localPart, _] => .ok (uri, localPart)
  | [] | [_] => .ok ("", whole)
  | _ => .error .dividedName

/-! ## Tags -/

/-- What has been read of a start tag: the bindings in scope, and the attributes that declare no
prefix, under their names as written. -/
structure OpenTag where
  bindings : Bindings
  attributes : List (String × String)
  deriving Repr

/-- The tag with one more attribute, whatever it is for. -/
def OpenTag.add (line : Nat) (tag : OpenTag) (name value : String) : Except ReadError OpenTag :=
  match declaredPrefix? name with
  | some pfx =>
    match checkBinding pfx value with
    | .ok () =>
      let uri := if value == "" then none else some value
      .ok { tag with bindings := put pfx uri tag.bindings }
    | .error cause => .error (.malformed cause line)
  | none => .ok { tag with attributes := tag.attributes ++ [(name, value)] }

/-- The attributes as given, of which no two have one name; `seen` holds the names before. -/
def OpenTag.given (doctype : Doctype) (openNames : List String) (element : String) (line : Nat) :
    (seen : List String) → OpenTag → List RawAttribute → Expansion OpenTag
  | _, tag, [] => pure tag
  | seen, tag, a :: rest =>
    if seen.contains a.name then throw (.malformed .duplicateAttribute a.line)
    else do
      let isText := ((doctype.rule? element a.name).map (·.isText)).getD true
      let value ← attributeValue doctype isText line openNames a.value
      let tag ← tag.add line a.name (String.ofList value)
      OpenTag.given doctype openNames element line (a.name :: seen) tag rest

/-- The tag with the declared defaults of the attributes that are not among `given`. -/
def OpenTag.withDefaults (doctype : Doctype) (element : String) (line : Nat)
    (given : List String) (tag : OpenTag) : Except ReadError OpenTag :=
  (doctype.defaults element).foldlM (fun tag (rule, value) =>
    if given.contains rule.name then .ok tag
    else tag.add line rule.name (String.ofList value)) tag

/-- The names of attributes in their namespaces. An attribute without a prefix has no namespace,
and no two with a prefix are one name; `seen` holds those before. -/
def boundNames (bindings : Bindings) (line : Nat) :
    (seen : List (String × String)) → List (String × String) →
      Except ReadError (List (BoundName × String))
  | _, [] => .ok []
  | seen, (name, value) :: rest =>
    match dividePrefix name with
    | ("", localPart) => do
      return (⟨"", none, localPart⟩, value) :: (← boundNames bindings line seen rest)
    | (pfx, localPart) =>
      match bindings.namespace? pfx with
      | none => .error (.malformed .unboundPrefix line)
      | some uri =>
        if seen.contains (uri, localPart) then .error (.malformed .duplicateAttribute line)
        else do
          let names ← boundNames bindings line ((uri, localPart) :: seen) rest
          return (⟨pfx, some uri, localPart⟩, value) :: names

def boundElement (bindings : Bindings) (line : Nat) (name : String) : Except ReadError BoundName :=
  match dividePrefix name with
  | ("", localPart) => .ok ⟨"", (bindings.lookup "").join, localPart⟩
  | (pfx, localPart) =>
    match bindings.namespace? pfx with
    | some uri => .ok ⟨pfx, some uri, localPart⟩
    | none => .error (.malformed .unboundPrefix line)

/-- The key of an attribute: its local name, or its Clark name if it has a namespace. -/
def BoundName.key (name : BoundName) : Except ReadError String := do
  let (uri, localPart) ← name.expanded
  return if uri == "" then localPart else Vocabulary.clark uri localPart

/-- An element without content, from its start tag on line `line` inside a scope. -/
def Node.ofStartTag (doctype : Doctype) (openNames : List String) (scope : Bindings) (line : Nat)
    (name : String) (attributes : List RawAttribute) : Expansion Node := do
  let tag ← OpenTag.given doctype openNames name line [] ⟨scope, []⟩ attributes
  let tag ← tag.withDefaults doctype name line (attributes.map (·.name))
  let names ← boundNames tag.bindings line [] tag.attributes
  let (uri, localPart) ← (← boundElement tag.bindings line name).expanded
  let entries ← names.mapM fun (name, value) => do return (← name.key, value)
  return ⟨uri, localPart, putAll entries, tag.bindings, [], "", line⟩

end WsdlCatalog.Xml
