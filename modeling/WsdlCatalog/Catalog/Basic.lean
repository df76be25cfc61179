/-
  WsdlCatalog.Catalog.Basic — the catalog of a service: its types, its operations and
  what was noticed on the way.
-/

import WsdlCatalog.Catalog.Marshalling
import WsdlCatalog.Diagnostic
import WsdlCatalog.Options

namespace WsdlCatalog

structure Operation where
  name : String
  action : String
  inputElement : Option QName
  outputElement : Option QName
  inputType : Option String
  outputType : Option String
  securityHints : List String
  style : String
  documentation : Option String
  deriving DecidableEq, Repr

structure Catalog where
  aliases : List ScalarAlias
  types : List StructuralType
  operations : List Operation
  marshalling : Marshalling
  options : Options
  /-- The location of the entry document. -/
  source : Loose String
  serviceName : Option (Loose String)
  displayName : Loose String
  targetNamespace : Loose String
  diagnostics : List Diagnostic
  /-- The keys of unresolved references. -/
  unresolved : List String
  deriving Repr, BEq

namespace Catalog

def type? (catalog : Catalog) (name : String) : Option StructuralType :=
  catalog.types.find? (·.name == some name)

def alias? (catalog : Catalog) (name : String) : Option ScalarAlias :=
  catalog.aliases.find? (·.name == some name)

def operation? (catalog : Catalog) (name : String) : Option Operation :=
  catalog.operations.find? (·.name == name)

def typeNames (catalog : Catalog) : List (Option String) := catalog.types.map (·.name)
def aliasNames (catalog : Catalog) : List (Option String) := catalog.aliases.map (·.name)

end Catalog

end WsdlCatalog
