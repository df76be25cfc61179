/-
  WsdlCatalog.Compile.Progress — what a compilation knows and what it has done so far.

  A step of a compilation may fail, and what it did before it failed stays done: the
  entries it made and the conditions it reported can still be seen.
-/

import WsdlCatalog.Compile.Inventory
import WsdlCatalog.Schema.Declarations

namespace WsdlCatalog

/-- What does not change during a compilation. -/
structure Setting where
  options : Options
  declarations : Declarations
  /-- More than there are complex types. -/
  nesting : Nat
  deriving Repr

structure Progress where
  inventory : Inventory
  /-- The reports in the order of discovery. -/
  diagnostics : List Diagnostic
  /-- The keys of unresolved references in the order of discovery. -/
  unresolved : List String
  deriving Repr

def Progress.start : Progress := ⟨.empty, [], []⟩

/-- A step of a compilation: a result or a refusal, and the progress either way. -/
abbrev Compile (α : Type) := ExceptT Refusal (StateM Progress) α

namespace Setting

def isComplexType (node : Xml.Node) : Bool :=
  node.uri == Vocabulary.xsd && node.tag == "complexType"

def ofSchemaSet (set : SchemaSet) (options : Options) : Except Fault Setting := do
  let complexTypes := set.documents.flatMap fun document =>
    document.root.walk.filter isComplexType
  return ⟨options, ← Declarations.ofSchemaSet set, complexTypes.length + 1⟩

end Setting

namespace Compile

def fail {α : Type} (fault : Fault) : Compile α := throw (.fault fault)

def ofExcept {α : Type} : Except Fault α → Compile α
  | .ok a => pure a
  | .error fault => fail fault

def inventory : Compile Inventory := do return (← get).inventory

def reserve (owner canonical : String) (name : QName) : Compile String := do
  let (inventory, canonical) ← ofExcept ((← inventory).reserve owner canonical name)
  modify fun p => { p with inventory }
  return canonical

def addAlias (a : ScalarAlias) : Compile Unit :=
  modify fun p => { p with inventory := p.inventory.addAlias a }

def addType (t : StructuralType) : Compile Unit :=
  modify fun p => { p with inventory := p.inventory.addType t }

def addDiagnostic (d : Diagnostic) : Compile Unit :=
  modify fun p => { p with diagnostics := p.diagnostics ++ [d] }

def addUnresolved (key : String) : Compile Unit :=
  modify fun p =>
    if p.unresolved.contains key then p else { p with unresolved := p.unresolved ++ [key] }

/-- A reference that means nothing is a fault, or is reported under its key. -/
def report (setting : Setting) (fault : Fault) (key : String) : Compile Unit :=
  if setting.options.failOnUnresolved.holds then fail fault
  else do
    addDiagnostic fault.diagnostic
    addUnresolved key

end Compile

end WsdlCatalog
