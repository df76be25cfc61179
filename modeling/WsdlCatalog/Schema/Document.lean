/-
  WsdlCatalog.Schema.Document — the schema documents that are compiled together, and
  what references in them mean.

  A reference is a local name, or a prefix and a local name, written in an attribute.
  What its prefix means follows from the bindings in scope where it is written.
-/

import WsdlCatalog.Fault
import WsdlCatalog.Text.Cut
import WsdlCatalog.Xml.Node

namespace WsdlCatalog

/-- A schema and where it is. A schema inside a service description has the location of the
description and a number. -/
structure SchemaDocument where
  location : String
  targetNamespace : String
  root : Xml.Node
  deriving Repr

/-- The schemas in the order in which they were found, and the service description that leads to
them, if one does. -/
structure SchemaSet where
  location : String
  documents : List SchemaDocument
  definitions : Option Xml.Node
  deriving Repr

namespace SchemaSet

/-- The target namespace of the service description, else of the first schema. -/
def targetNamespace (set : SchemaSet) : String :=
  match set.definitions with
  | some definitions => (definitions.attribute? "targetNamespace").getD ""
  | none => (set.documents.head?.map (·.targetNamespace)).getD ""

end SchemaSet

structure Site where
  node : Xml.Node
  document : SchemaDocument
  deriving Repr

namespace Site

def atNode (site : Site) (node : Xml.Node) : Site := { site with node }

def modelFault (site : Site) (owner : Owner) (fault : ModelFault) : Fault :=
  let label := ((site.node.filled? "name").or (site.node.filled? "ref")).getD
    ("xs:" ++ site.node.tag)
  .model fault
    ⟨label, site.node.line, owner, site.document.targetNamespace, site.document.location⟩

end Site

namespace Reference

/-- The prefix of a reference, if it has one, and its local part. -/
def divide (reference : String) : Option String × String :=
  match Text.cut? ':' reference.toList with
  | some (pfx, localPart) => (some (String.ofList pfx), String.ofList localPart)
  | none => (none, reference)

def localPart (reference : String) : String := (divide reference).2

/-- The name that a reference means at an element, or the prefix that is not bound there. Without
a prefix it is in the default namespace, or in the target namespace of the document where no
default is in scope. -/
def meaning (reference : String) (site : Site) : Except String QName :=
  match divide (Text.trim reference) with
  | (none, localPart) =>
    match site.node.bindings.lookup "" with
    | some uri => .ok ⟨uri, localPart⟩
    | none => .ok ⟨some site.document.targetNamespace, localPart⟩
  | (some "xml", localPart) => .ok ⟨some Vocabulary.xml, localPart⟩
  | (some pfx, localPart) =>
    match (site.node.bindings.lookup pfx).join with
    | some uri => .ok ⟨some uri, localPart⟩
    | none => .error pfx

/-- The name that a reference means, or the fault of an unbound prefix. -/
def qualify (reference : String) (site : Site) (referencedBy : Option String) :
    Except Fault QName :=
  (meaning reference site).mapError fun pfx =>
    .unboundPrefix pfx reference referencedBy site.document.location

end Reference

end WsdlCatalog
