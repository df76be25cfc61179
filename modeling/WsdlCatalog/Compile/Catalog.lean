/-
  WsdlCatalog.Compile.Catalog — the catalog of a schema set.

  First every type with an entry gets its canonical name, then the types are
  compiled, then those that extend others get the members of their bases, and last
  the service description is read.
-/

import WsdlCatalog.Compile.ComplexType
import WsdlCatalog.Compile.Extension
import WsdlCatalog.Compile.Interface

namespace WsdlCatalog

namespace Compile

def elementsWithTypes (setting : Setting) : List Declaration :=
  (setting.declarations.inSpace .element).filter fun d => hasOwnType d.site.node

/-- Reserves the canonical names of all types and of elements with types of their own. -/
def reserveAll (setting : Setting) : Compile Unit := do
  for d in setting.declarations.inSpace .type do
    let _ ← reserve (ownerOfType d.name) (Text.pascal d.name.localPart) d.name
  for d in elementsWithTypes setting do
    let _ ← reserve (ownerOfElement d.name) (Text.pascal d.name.localPart) d.name

def compileOnce (setting : Setting) (anonymous : Bool) (owner : String) (name : QName)
    (site : Site) : Compile Unit := do
  let canonical := (← inventory).canonical? owner
  if !(← inventory).isCompiled canonical then
    complexType setting anonymous canonical name site

def compileType (setting : Setting) (d : Declaration) : Compile Unit := do
  if d.isSimpleType then
    let _ ← compileAlias setting d
  else compileOnce setting false (ownerOfType d.name) d.name d.site

def compileElement (setting : Setting) (d : Declaration) : Compile Unit :=
  match d.site.node.child? Vocabulary.xsd "complexType" with
  | some complex =>
    compileOnce setting true (ownerOfElement d.name) d.name (d.site.atNode complex)
  | none => pure ()

def compileAll (setting : Setting) : Compile Unit := do
  (setting.declarations.inSpace .type).forM (compileType setting)
  (elementsWithTypes setting).forM (compileElement setting)

def extendAll : Compile Unit := do
  match Extension.expand (← inventory).types with
  | .ok types => modify fun p => { p with inventory := { p.inventory with types } }
  | .error e => throw e

/-- The name that a service is shown by: the one the caller asks for, its own, or one made from
its location. -/
def displayName (options : Options) (serviceName : Option String) (location : String) :
    Except LocationError (Loose String) :=
  match options.clientName.filter (fun name => (name.toJson .str).truthy),
      serviceName.filter (· != "") with
  | some name, _ => .ok name
  | none, some name => .ok (.own name)
  | none, none => (Location.stem location).map .own

def frozen : Compile (List ScalarAlias × List StructuralType) := do
  let inventory ← inventory
  match inventory.sortedAliases?, inventory.sortedTypes? with
  | some aliases, some types => return (aliases, types)
  | _, _ => throw .missingName

def catalog (setting : Setting) (set : SchemaSet) : Compile Catalog := do
  reserveAll setting
  compileAll setting
  extendAll
  let (operations, serviceName) ← interface setting set
  match displayName setting.options serviceName set.location with
  | .error e => throw (.location e)
  | .ok displayName =>
    let progress ← get
    let (aliases, types) ← frozen
    return {
      aliases, types, operations
      marshalling := .ofTypes types
      options := setting.options
      source := .own set.location
      serviceName := serviceName.map .own
      displayName
      targetNamespace := .own set.targetNamespace
      diagnostics := progress.diagnostics.mergeSort Diagnostic.le
      unresolved := progress.unresolved.mergeSort fun a b => a ≤ b }

end Compile

def Catalog.compiledMessage (catalog : Catalog) (location : String) : String :=
  "Compiled " ++ location ++ ": " ++ toString catalog.aliases.length ++ " aliases, "
    ++ toString catalog.types.length ++ " types, " ++ toString catalog.operations.length
    ++ " operations, " ++ toString catalog.diagnostics.length ++ " diagnostics"

end WsdlCatalog
