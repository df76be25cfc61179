/-
  WsdlCatalog.Content.Members — the properties of a type: its elements and attributes,
  each under one name.

  Elements of one name and type become one property, which occurs as often as the
  smallest range around all of theirs says. Elements of one name and different types
  cannot share a property. The text slot is no name for an element.
-/

import WsdlCatalog.Catalog.StructuralType
import WsdlCatalog.Content.Outline

namespace WsdlCatalog

structure Leaf where
  name : String
  declared : String
  typeRef : TypeRef
  range : Range
  nillable : Bool
  branch : Option Branch
  deriving DecidableEq, Repr

structure Members where
  leaves : List Leaf
  /-- Every element that was met, with the branches it was met in. -/
  met : List (String × List Branch)
  attributes : List Attribute
  deriving DecidableEq, Repr

namespace Leaf

/-- An element is optional when it need not occur, or as the option for nillable elements says. -/
def optional (nillableAsOptional : Loose Bool) (leaf : Leaf) : Loose Bool :=
  if leaf.range.lower == 0 then .own true
  else if leaf.nillable then nillableAsOptional
  else .own false

def toElement (nillableAsOptional : Loose Bool) (leaf : Leaf) : Element where
  name := leaf.name
  declaredType := leaf.declared
  typeRef := leaf.typeRef
  min := .own leaf.range.lower
  max := leaf.range.upper.map Int.ofNat
  nillable := .own leaf.nillable
  optional := leaf.optional nillableAsOptional
  choice := leaf.branch.map fun b => ⟨b.choice, b.index⟩

end Leaf

namespace Members

def empty : Members := ⟨[], [], []⟩

/-! ## Elements -/

def fold (leaf other : Leaf) : Leaf :=
  { leaf with range := leaf.range.join other.range, nillable := leaf.nillable || other.nillable }

def insert (leaf : Leaf) : List Leaf → Except ModelFault (List Leaf)
  | [] => .ok [leaf]
  | first :: rest =>
    if first.name == leaf.name then
      if first.declared == leaf.declared then .ok (fold first leaf :: rest)
      else .error (.elementTypes leaf.name first.declared leaf.declared)
    else (insert leaf rest).map (first :: ·)

def addElement (members : Members) (leaf : Leaf) (branches : List Branch) :
    Except ModelFault Members := do
  return { members with
    leaves := ← insert { leaf with branch := branches.getLast? } members.leaves
    met := members.met ++ [(leaf.name, branches)] }

/-! ## Attributes -/

/-- The members with one more attribute. The first of a name is kept. -/
def addAttribute (members : Members) (a : Attribute) : Except ModelFault Members :=
  match members.attributes.find? (·.name == a.name) with
  | none => .ok { members with attributes := members.attributes ++ [a] }
  | some first =>
    if first.declaredType == a.declaredType then .ok members
    else .error (.attributeTypes a.name)

/-! ## Properties -/

def textSlot (ref : TypeRef) : Element where
  name := textSlotName
  declaredType := ref.declared
  typeRef := ref
  min := .own 0
  max := some 1
  nillable := .own false
  optional := .own true
  choice := none

/-- The elements, and the text slot if there is content of type `text`. -/
def elements (members : Members) (nillableAsOptional : Loose Bool) (text : Option TypeRef) :
    List Element :=
  (members.leaves.filter fun leaf => leaf.name != textSlotName).map
    (Leaf.toElement nillableAsOptional) ++ (text.map textSlot).toList

def inBranch (members : Members) (branch : Branch) : List String :=
  (members.met.filterMap fun (name, branches) =>
    if branches.contains branch then some name else none).foldl
    (fun names name => if names.contains name then names else names ++ [name]) []

/-- The choices whose branches are told apart, numbered from `index`. -/
def choicesFrom (members : Members) (index : Nat) : List ChoiceFrame → List ChoiceGroup
  | [] => []
  | frame :: rest =>
    { index, min := frame.range.lower, max := frame.range.upper.map Int.ofNat
      branches := (List.range frame.branchCount).map fun i => members.inBranch ⟨index, i⟩ }
      :: choicesFrom members (index + 1) rest

def choices (members : Members) (frames : List ChoiceFrame) : List ChoiceGroup :=
  members.choicesFrom 0 frames

end Members

end WsdlCatalog
