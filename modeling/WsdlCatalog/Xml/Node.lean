/-
  WsdlCatalog.Xml.Node — elements of a document, with the prefix bindings in scope.

  References to declarations are qualified names written inside attribute values, so
  every element keeps the bindings by which such a name is read. An attribute without
  a namespace goes by its local name, one with a namespace by its Clark name.
-/

import WsdlCatalog.QName

namespace WsdlCatalog.Xml

/-- The namespace of each prefix in scope. The empty prefix is the default namespace; it has no
namespace where it was undeclared. -/
abbrev Bindings := List (String × Option String)

structure Node where
  /-- The namespace, empty for an element without one. -/
  uri : String
  tag : String
  attributes : List (String × String)
  bindings : Bindings
  children : List Node
  /-- The character data directly inside, without the blanks around it. -/
  text : String
  /-- The line of the start tag. -/
  line : Nat
  deriving Repr, Inhabited

namespace Node

def isA (node : Node) (uri tag : String) : Bool := node.tag == tag && node.uri == uri

def attribute? (node : Node) (name : String) : Option String := node.attributes.lookup name

/-- The value of an attribute that is there and not empty. -/
def filled? (node : Node) (name : String) : Option String :=
  (node.attribute? name).filter (· != "")

/-- The children in a namespace, with one of the tags if any are given. -/
def childrenIn (node : Node) (uri : String) (tags : List String) : List Node :=
  node.children.filter fun child => child.uri == uri && (tags.isEmpty || tags.contains child.tag)

def childrenOf (node : Node) (uri tag : String) : List Node := node.childrenIn uri [tag]

def child? (node : Node) (uri tag : String) : Option Node := (node.childrenOf uri tag).head?

mutual

/-- The element and all below it, in the order of their start tags. -/
def walk : Node → List Node
  | ⟨uri, tag, attributes, bindings, children, text, line⟩ =>
    ⟨uri, tag, attributes, bindings, children, text, line⟩ :: walkAll children

def walkAll : List Node → List Node
  | [] => []
  | node :: rest => node.walk ++ walkAll rest

end

def descendants (node : Node) : List Node := walkAll node.children

def at? (node : Node) : List Nat → Option Node
  | [] => some node
  | i :: path =>
    match node.children[i]? with
    | some child => at? child path
    | none => none

/-- What an element says about itself: the documentation of its annotations, then its own. -/
def documentation? (node : Node) : Option String :=
  let annotated := (node.childrenOf Vocabulary.xsd "annotation").flatMap
    (·.childrenOf Vocabulary.xsd "documentation")
  let own := node.childrenOf Vocabulary.wsdl "documentation"
  let texts := ((annotated ++ own).map (·.text)).filter (· != "")
  if texts.isEmpty then none else some ("\n".intercalate texts)

/-- The children in any namespace or one, with one of the tags if any are given. -/
def selectChildren (node : Node) (uri : Option String) (tags : List String) : List Node :=
  node.children.filter fun child =>
    uri.all (· == child.uri) && (tags.isEmpty || tags.contains child.tag)

def summary (node : Node) : String :=
  "<XmlNode " ++ Vocabulary.clark node.uri node.tag ++ " children="
    ++ toString node.children.length ++ ">"

theorem walkAll_eq (nodes : List Node) : walkAll nodes = nodes.flatMap walk := by
  induction nodes with
  | nil => rfl
  | cons node rest ih => rw [walkAll, List.flatMap_cons, ih]

theorem walk_eq (node : Node) : node.walk = node :: node.children.flatMap walk := by
  rw [← walkAll_eq]
  cases node
  rfl

end Node

end WsdlCatalog.Xml
