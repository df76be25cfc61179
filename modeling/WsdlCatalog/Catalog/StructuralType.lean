/-
  WsdlCatalog.Catalog.StructuralType — complex types with their members.

  A type lists all its members, the inherited ones first, and those that it declares
  itself. An element is repeated when its maximum is above one or missing. Simple or
  mixed content is a member too, in the text slot.

  Members are emitted inherited ones before those of the type itself, required before
  optional ones, then by name. The text slot comes last.
-/

import WsdlCatalog.Catalog.TypeRef
import WsdlCatalog.Json.Loose

namespace WsdlCatalog

inductive AttributeUse where
  | required
  | optional
  | prohibited
  | other (name : String)
  deriving DecidableEq, Repr

namespace AttributeUse

def name : AttributeUse → String
  | required => "required"
  | optional => "optional"
  | prohibited => "prohibited"
  | other s => s

def ofName : String → AttributeUse
  | "required" => required
  | "optional" => optional
  | "prohibited" => prohibited
  | s => other s

theorem name_ofName (s : String) : (ofName s).name = s := by
  unfold ofName
  split <;> rfl

end AttributeUse

structure Attribute where
  name : String
  declaredType : String
  typeRef : TypeRef
  use : AttributeUse
  deriving DecidableEq, Repr

def Attribute.isRequired (a : Attribute) : Bool := a.use == .required

structure ChoiceMember where
  group : Int
  branch : Int
  deriving DecidableEq, Repr

structure ChoiceGroup where
  index : Int
  min : Int
  max : Option Int
  branches : List (List String)
  deriving DecidableEq, Repr

def textSlotName : String := "$value"

structure Element where
  name : String
  declaredType : String
  typeRef : TypeRef
  min : Loose Int
  /-- No maximum: any number of times. -/
  max : Option Int
  nillable : Loose Bool
  optional : Loose Bool
  choice : Option ChoiceMember
  deriving Repr, BEq

namespace Element

def isArray (e : Element) : Bool := e.max.all (1 < ·)
def isRequired (e : Element) : Bool := !e.optional.holds
def isText (e : Element) : Bool := e.name == textSlotName

end Element

structure StructuralType where
  /-- The canonical name; there is none before names are reserved. -/
  name : Option String
  qname : Option QName
  attributes : List Attribute
  elements : List Element
  localAttributes : List Attribute
  localElements : List Element
  /-- The canonical name of the type it extends. -/
  base : Option String
  mixed : Bool
  simpleContent : Bool
  choices : List ChoiceGroup
  documentation : Option String
  /-- The type has no name of its own; it is named after where it is declared. -/
  anonymous : Bool
  deriving Repr, BEq

namespace StructuralType

def attributeNames (t : StructuralType) : List String := t.attributes.map (·.name)
def elementNames (t : StructuralType) : List String := t.elements.map (·.name)

def textSlot? (t : StructuralType) : Option Element := t.elements.find? (·.isText)

/-- The repeated element of a type that has nothing else. -/
def wrapped? (t : StructuralType) : Option Element :=
  match t.attributes, t.elements with
  | [], [e] => if e.isArray then some e else none
  | _, _ => none

def isArrayWrapper (t : StructuralType) : Bool := t.wrapped?.isSome

def isInherited (t : StructuralType) (member : String) : Bool :=
  !(t.localAttributes.any (·.name == member) || t.localElements.any (·.name == member))
    && (t.attributeNames.contains member || t.elementNames.contains member)

/-! ## The order of emission -/

def elementKey (t : StructuralType) (e : Element) : List Nat × String :=
  ([e.isText.toNat, (!t.isInherited e.name).toNat, (!e.isRequired).toNat], e.name)

def attributeKey (t : StructuralType) (a : Attribute) : List Nat × String :=
  ([(!t.isInherited a.name).toNat, (!a.isRequired).toNat], a.name)

def keyLe (a b : List Nat × String) : Bool :=
  if a.1 == b.1 then a.2 ≤ b.2 else !b.1.lex a.1 (· < ·)

def orderedElements (t : StructuralType) : List Element :=
  t.elements.mergeSort fun a b => keyLe (t.elementKey a) (t.elementKey b)

def orderedAttributes (t : StructuralType) : List Attribute :=
  t.attributes.mergeSort fun a b => keyLe (t.attributeKey a) (t.attributeKey b)

theorem orderedElements_perm (t : StructuralType) : t.orderedElements.Perm t.elements :=
  List.mergeSort_perm _ _

theorem orderedAttributes_perm (t : StructuralType) : t.orderedAttributes.Perm t.attributes :=
  List.mergeSort_perm _ _

end StructuralType

end WsdlCatalog
