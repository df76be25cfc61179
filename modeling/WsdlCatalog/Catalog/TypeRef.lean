/-
  WsdlCatalog.Catalog.TypeRef — what a catalog says about the type of a value.

  Types are referred to by canonical name, never embedded, so types that contain
  themselves need no special care. Kinds of types and values are read back from
  catalogs as any text; the kinds that this library knows have constructors.

  Proved: a kind keeps the name it is read from (`RefKind.name_ofName`,
  `ScalarKind.name_ofName`).
-/

import WsdlCatalog.QName

namespace WsdlCatalog

inductive RefKind where
  /-- A built-in type, or a simple type without a name. -/
  | scalar
  /-- A simple type with a name. -/
  | alias
  /-- A complex type. -/
  | structural
  /-- The reference was left unresolved. -/
  | unknown
  | other (name : String)
  deriving DecidableEq, Repr

namespace RefKind

def name : RefKind → String
  | scalar => "scalar"
  | .alias => "alias"
  | structural => "structure"
  | unknown => "unknown"
  | other s => s

def ofName : String → RefKind
  | "scalar" => scalar
  | "alias" => .alias
  | "structure" => structural
  | "unknown" => unknown
  | s => other s

theorem name_ofName (s : String) : (ofName s).name = s := by
  unfold ofName
  split <;> rfl

end RefKind

inductive ScalarKind where
  | text
  | numeric
  | boolean
  /-- Nothing is known of the value. -/
  | untyped
  | other (name : String)
  deriving DecidableEq, Repr

namespace ScalarKind

def name : ScalarKind → String
  | text => "text"
  | numeric => "numeric"
  | boolean => "boolean"
  | untyped => "opaque"
  | other s => s

def ofName : String → ScalarKind
  | "text" => text
  | "numeric" => numeric
  | "boolean" => boolean
  | "opaque" => untyped
  | s => other s

theorem name_ofName (s : String) : (ofName s).name = s := by
  unfold ofName
  split <;> rfl

end ScalarKind

structure TypeRef where
  kind : RefKind
  /-- The label of the type in its schema. -/
  declared : String
  scalar : ScalarKind
  /-- The canonical name of an alias or a structural type. -/
  name : Option String
  /-- The values that a simple type without a name lists. -/
  enumeration : Option (List String)
  isList : Bool
  deriving DecidableEq, Repr

structure ScalarAlias where
  /-- The canonical name; there is none before names are reserved. -/
  name : Option String
  qname : Option QName
  scalar : ScalarKind
  base : String
  enumeration : Option (List String)
  isList : Bool
  documentation : Option String
  deriving DecidableEq, Repr

namespace TypeRef

def isUnresolved (ref : TypeRef) : Bool := ref.kind == .unknown

def isNamed (ref : TypeRef) : Bool := ref.kind == .alias || ref.kind == .structural

def ofAlias (a : ScalarAlias) : TypeRef :=
  ⟨.alias, ((a.qname.map QName.label).getD "None"), a.scalar, a.name, none, a.isList⟩

def ofStructure (name declared : String) : TypeRef :=
  ⟨.structural, declared, .untyped, some name, none, false⟩

def unresolved (declared : String) : TypeRef := ⟨.unknown, declared, .untyped, none, none, false⟩

end TypeRef

end WsdlCatalog
