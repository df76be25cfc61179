/-
  WsdlCatalog.Compile.Extension — all members of types that extend others.

  A type that extends another one is compiled with its own members only. Afterwards
  it gets those of its base, which come first; the text slot comes last. A member
  that repeats an inherited one of the same type is folded into it and is no longer
  the type's own; one of another type is a fault.
-/

import WsdlCatalog.Catalog.StructuralType
import WsdlCatalog.Content.Range

namespace WsdlCatalog

namespace StructuralType

def namespace? (t : StructuralType) : Except Refusal (Option String) :=
  match t.qname with
  | some name => .ok name.uri
  | none => .error .missingDeclaration

/-- A member that repeats an inherited one must have its type. -/
def checkRedeclared (derived base : StructuralType) (member inherited declared : String) :
    Except Refusal Unit := do
  if inherited == declared then return ()
  throw (.fault (.redeclared member derived.name base.name inherited declared
    (← derived.namespace?)))

/-! ## Attributes -/

structure AttributeView where
  all : List (String × Attribute)
  own : List Attribute

/-- The view with one more attribute of the derived type, which decides how it is used. -/
def AttributeView.add (derived base : StructuralType) (view : AttributeView) (a : Attribute) :
    Except Refusal AttributeView :=
  match view.all.lookup a.name with
  | none => .ok ⟨put a.name a view.all, view.own ++ [a]⟩
  | some inherited => do
    checkRedeclared derived base a.name inherited.declaredType a.declaredType
    return { view with all := put a.name { inherited with use := a.use } view.all }

/-! ## Elements -/

structure ElementView where
  inherited : List (String × Element)
  own : List Element

def joinMin : Loose Int → Loose Int → Loose Int
  | .own a, .own b => .own (min a b)
  | a, _ => a

def either (a b : Loose Bool) : Loose Bool := if a.holds then a else b

def fold (inherited e : Element) : Element :=
  { inherited with
    min := joinMin inherited.min e.min
    max := Bounds.joinMax inherited.max e.max
    nillable := either inherited.nillable e.nillable
    optional := either inherited.optional e.optional }

/-- The element with the numbers of its choice counted from `shift`. -/
def shiftChoice (shift : Int) (e : Element) : Element :=
  { e with choice := e.choice.map fun m => { m with group := m.group + shift } }

/-- The view with one more element of the derived type. The text slot is never folded. -/
def ElementView.add (derived base : StructuralType) (view : ElementView) (e : Element) :
    Except Refusal ElementView :=
  match if e.isText then none else view.inherited.lookup e.name with
  | none => .ok { view with own := view.own ++ [e] }
  | some inherited => do
    checkRedeclared derived base e.name inherited.declaredType e.declaredType
    return { view with inherited := put e.name (fold inherited e) view.inherited }

/-! ## Types -/

/-- The derived type with the members of its base, which has all of its own. -/
def compose (derived base : StructuralType) : Except Refusal StructuralType := do
  let attributes ← derived.localAttributes.foldlM (AttributeView.add derived base)
    ⟨putAll (base.attributes.map fun a => (a.name, a)), []⟩
  let shift : Int := base.choices.length
  let elements ← (derived.localElements.map (shiftChoice shift)).foldlM
    (ElementView.add derived base)
    ⟨putAll ((base.elements.filter fun e => !e.isText).map fun e => (e.name, e)), []⟩
  let text := (elements.own.find? (·.isText)).or base.textSlot?
  return { derived with
    attributes := attributes.all.map (·.2)
    elements := elements.inherited.map (·.2) ++ elements.own.filter (fun e => !e.isText)
      ++ text.toList
    localAttributes := attributes.own
    localElements := elements.own
    choices := base.choices
      ++ derived.choices.map fun g => { g with index := g.index + shift }
    mixed := derived.mixed || base.mixed }

end StructuralType

namespace Extension

abbrev Table := List (Owner × StructuralType)

/-- The refusal of a type that extends itself through the types of a chain. -/
def circular (chain : List Owner) (name : Owner) (t : StructuralType) : Refusal :=
  match chain.mapM id, t.namespace? with
  | none, _ => .missingName
  | _, .error e => e
  | some names, .ok uri => .fault (.circularDerivation (names ++ [name.text]) name.text uri)

/-- A type with all its members, and the finished types with it. `chain` holds the types that led
to it by extending one another, and `depth` bounds how many more there may be. -/
def finish (types : Table) : (depth : Nat) → (chain : List Owner) → (finished : Table) → Owner →
    Except Refusal (Table × StructuralType)
  | 0, _, _, name => .error (.missingType name.text)
  | depth + 1, chain, finished, name =>
    match finished.lookup name with
    | some t => .ok (finished, t)
    | none =>
      match types.lookup name with
      | none => .error (.missingType name.text)
      | some t =>
        match t.base with
        | none => .ok (put name t finished, t)
        | some base =>
          if chain.contains name then .error (circular chain name t)
          else do
            let (finished, base) ← finish types depth (chain ++ [name]) finished (some base)
            let t ← t.compose base
            return (put name t finished, t)

/-- All types with all their members, a base before the types that extend it. -/
def expand (types : Table) : Except Refusal Table :=
  types.foldlM (fun finished (name, _) => do
    return (← finish types (types.length + 2) [] finished name).1) []

end Extension

end WsdlCatalog
