/-
  WsdlCatalog.Compile.SimpleType — what the values of a simple type look like.

  A simple type restricts another one, lists values of another one, or is text. Types
  without a name are followed inwards until a named type or none at all is left
  (`SimpleDerivation.ofNode`); what was met on the way is then applied to the shape
  of that type, from the inside out (`SimpleDerivation.shape`). The named type is
  found by whoever asks for the shape.
-/

import WsdlCatalog.Catalog.TypeRef
import WsdlCatalog.Xml.Node

namespace WsdlCatalog

structure SimpleShape where
  scalar : ScalarKind
  /-- The label of the type that the derivation began with. -/
  base : String
  enumeration : Option (List String)
  isList : Bool
  deriving DecidableEq, Repr

namespace SimpleShape

def text : SimpleShape := ⟨.text, "xs:string", none, false⟩

def ofRef (ref : TypeRef) : SimpleShape := ⟨ref.scalar, ref.declared, ref.enumeration, ref.isList⟩

/-- A named simple type stands for itself in what is derived from it. -/
def ofAlias (a : ScalarAlias) : SimpleShape :=
  ⟨a.scalar, (a.qname.map QName.label).getD "None", a.enumeration, a.isList⟩

def toRef (shape : SimpleShape) : TypeRef :=
  ⟨.scalar, shape.base, shape.scalar, none, shape.enumeration, shape.isList⟩

end SimpleShape

inductive SimpleStep where
  /-- Only these values. -/
  | values (values : List String)
  /-- Lists of what was described so far. -/
  | list
  deriving DecidableEq, Repr

def SimpleStep.apply (shape : SimpleShape) : SimpleStep → SimpleShape
  | values vs => { shape with enumeration := some vs }
  | list => { shape with isList := true }

inductive SimpleOrigin where
  | text
  /-- The type that a reference written at an element means. -/
  | named (reference : String) (node : Xml.Node)
  deriving Repr

structure SimpleDerivation where
  origin : SimpleOrigin
  /-- What is done to the shape of the origin, in order. -/
  steps : List SimpleStep
  deriving Repr

namespace SimpleDerivation

def ofText : SimpleDerivation := ⟨.text, []⟩

def andThen (d : SimpleDerivation) (step : SimpleStep) : SimpleDerivation :=
  { d with steps := d.steps ++ [step] }

theorem sizeOf_child_lt {node child : Xml.Node} {uri tag : String}
    (h : node.child? uri tag = some child) : sizeOf child < sizeOf node := by
  have hm : child ∈ node.children := by
    have := List.mem_of_mem_head? h
    simp only [Xml.Node.childrenOf, Xml.Node.childrenIn, List.mem_filter] at this
    exact this.1
  have hl := List.sizeOf_lt_of_mem hm
  cases node
  simp only [Xml.Node.mk.sizeOf_spec] at hl ⊢
  omega

def valuesOf (restriction : Xml.Node) : List String :=
  (restriction.childrenOf Vocabulary.xsd "enumeration").map fun facet =>
    (facet.attribute? "value").getD ""

def ofNode (node : Xml.Node) : SimpleDerivation :=
  match _hr : node.child? Vocabulary.xsd "restriction" with
  | some restriction =>
    let base : SimpleDerivation := match restriction.filled? "base" with
      | some reference => ⟨.named reference restriction, []⟩
      | none =>
        match _hs : restriction.child? Vocabulary.xsd "simpleType" with
        | some inner => ofNode inner
        | none => ofText
    let values := valuesOf restriction
    if values.isEmpty then base else base.andThen (.values values)
  | none =>
    match _hl : node.child? Vocabulary.xsd "list" with
    | some list =>
      let item : SimpleDerivation := match list.filled? "itemType" with
        | some reference => ⟨.named reference list, []⟩
        | none =>
          match _hs : list.child? Vocabulary.xsd "simpleType" with
          | some inner => ofNode inner
          | none => ofText
      item.andThen .list
    | none => ofText
termination_by sizeOf node
decreasing_by
  · exact Nat.lt_trans (sizeOf_child_lt _hs) (sizeOf_child_lt _hr)
  · exact Nat.lt_trans (sizeOf_child_lt _hs) (sizeOf_child_lt _hl)

def shape (d : SimpleDerivation) (origin : SimpleShape) : SimpleShape :=
  d.steps.foldl SimpleStep.apply origin

end SimpleDerivation

end WsdlCatalog
