/-
  WsdlCatalog.Schema.Declarations — the global declarations of a schema set by name.

  Simple and complex types share one space of names. Within a space a name is
  declared once.
-/

import WsdlCatalog.Schema.Document

namespace WsdlCatalog

structure Declaration where
  name : QName
  site : Site
  deriving Repr

namespace Declaration

def isSimpleType (d : Declaration) : Bool := d.site.node.tag == "simpleType"

end Declaration

def Space.ofTag : String → Option Space
  | "simpleType" | "complexType" => some .type
  | "element" => some .element
  | "attribute" => some .attributes
  | "group" => some .group
  | "attributeGroup" => some .attributeGroup
  | _ => none

structure Declarations where
  entries : List (Space × Declaration)
  deriving Repr

namespace Declarations

def inSpace (declarations : Declarations) (space : Space) : List Declaration :=
  declarations.entries.filterMap fun (s, d) => if s == space then some d else none

def lookup (declarations : Declarations) (space : Space) (name : QName) : Option Declaration :=
  (declarations.entries.find? fun (s, d) => s == space && d.name == name).map (·.2)

def ofNode? (document : SchemaDocument) (node : Xml.Node) : Option (Space × Declaration) :=
  if node.uri == Vocabulary.xsd then
    match Space.ofTag node.tag, node.filled? "name" with
    | some space, some name =>
      some (space, ⟨⟨some document.targetNamespace, name⟩, ⟨node, document⟩⟩)
    | _, _ => none
  else none

def add (declarations : Declarations) (space : Space) (d : Declaration) :
    Except Fault Declarations :=
  match declarations.lookup space d.name with
  | some earlier =>
    .error (.duplicateDeclaration space d.name earlier.site.document.location
      d.site.document.location)
  | none => .ok ⟨declarations.entries ++ [(space, d)]⟩

def ofSchemaSet (set : SchemaSet) : Except Fault Declarations :=
  let entries := set.documents.flatMap fun document =>
    document.root.children.filterMap (ofNode? document)
  entries.foldlM (fun declarations (space, d) => declarations.add space d) ⟨[]⟩

end Declarations

end WsdlCatalog
