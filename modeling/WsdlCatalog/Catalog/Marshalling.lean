/-
  WsdlCatalog.Catalog.Marshalling — tables for the conversion of data without types.

  For each type the tables tell which properties are attributes, which type governs
  the value of an element, and how often an element occurs. They follow from the
  types alone. Of two types of one name the later counts.

  An array wrapper is a type that only holds a repeated element; wrappers can be
  taken out of data (`unwrap`).
-/

import WsdlCatalog.Catalog.StructuralType

namespace WsdlCatalog

structure PropertyInfo where
  declaredType : String
  min : Loose Int
  max : Option Int
  nillable : Loose Bool
  deriving Repr, BEq

abbrev Routes := List (String × List (String × Option String))

/-- Names of wrappers with the names of the elements that they repeat. -/
abbrev Wrappers := List (String × String)

structure Marshalling where
  attributes : List (String × List String)
  children : Routes
  properties : List (String × List (String × PropertyInfo))
  deriving Repr, BEq

def StructuralType.tableName (t : StructuralType) : String := t.name.getD "null"

namespace Marshalling

def propertyInfo (e : Element) : PropertyInfo := ⟨e.declaredType, e.min, e.max, e.nillable⟩

/-- The elements of a type that have a type with an entry in the catalog. -/
def routesOf (t : StructuralType) : List (String × Option String) :=
  putAll (t.elements.filterMap fun e =>
    if e.typeRef.isNamed then some (e.name, e.typeRef.name) else none)

def ofTypes (types : List StructuralType) : Marshalling where
  attributes := putAll (types.map fun t => (t.tableName, t.attributeNames))
  children := putAll (types.map fun t => (t.tableName, routesOf t))
  properties := putAll (types.map fun t =>
    (t.tableName, putAll (t.elements.map fun e => (e.name, propertyInfo e))))

end Marshalling

def Wrappers.ofTypes (types : List StructuralType) : Wrappers :=
  putAll (types.filterMap fun t => t.wrapped?.map fun e => (t.tableName, e.name))

/-- The routes of the types that are no wrappers. -/
def Routes.withoutWrappers (routes : Routes) (wrappers : Wrappers) : Routes :=
  routes.filter fun (name, _) => (wrappers.lookup name).isNone

/-! ## Taking wrappers out of data -/

def Routes.target? (routes : Routes) (type element : String) : Option String :=
  ((routes.lookup type).bind (·.lookup element)).join

mutual

/-- A value of the given type. A wrapper becomes the list that it holds. -/
def unwrapValue (routes : Routes) (wrappers : Wrappers) (type : String) : Json → Json
  | .obj members =>
    match wrappers.lookup type with
    | none => .obj (unwrapMembers routes wrappers type members)
    | some inner => .arr (unwrapHeld routes wrappers inner (routes.target? type inner) members)
  | value => value

def unwrapItems (routes : Routes) (wrappers : Wrappers) (type : String) : List Json → List Json
  | [] => []
  | item :: rest =>
    unwrapValue routes wrappers type item :: unwrapItems routes wrappers type rest

/-- The members of an object of the given type. A list under a key is a list of values of the
type that governs the key. -/
def unwrapMembers (routes : Routes) (wrappers : Wrappers) (type : String) :
    List (String × Json) → List (String × Json)
  | [] => []
  | (key, value) :: rest =>
    let unwrapped := match routes.target? type key with
      | none => value
      | some target =>
        match value with
        | .arr values => .arr (unwrapItems routes wrappers target values)
        | value => unwrapValue routes wrappers target value
    (key, unwrapped) :: unwrapMembers routes wrappers type rest

/-- The items that a wrapper holds under `inner`, which are of type `item?` if that is known. -/
def unwrapHeld (routes : Routes) (wrappers : Wrappers) (inner : String) (item? : Option String) :
    List (String × Json) → List Json
  | [] => []
  | (key, value) :: rest =>
    if key == inner then
      match item?, value with
      | _, .null => []
      | none, .arr values => values
      | some item, .arr values => unwrapItems routes wrappers item values
      | none, value => [value]
      | some item, value => [unwrapValue routes wrappers item value]
    else unwrapHeld routes wrappers inner item? rest

end

/-- The members of an object of the given type with the lists that wrappers hold in their
places. -/
def unwrap (routes : Routes) (wrappers : Wrappers) (type : String)
    (members : List (String × Json)) : List (String × Json) :=
  unwrapMembers routes wrappers type members

end WsdlCatalog
