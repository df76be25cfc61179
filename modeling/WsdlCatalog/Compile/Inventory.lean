/-
  WsdlCatalog.Compile.Inventory — the entries of a catalog that is being compiled.

  Whatever becomes an entry first reserves its canonical name for its owner, a key
  that tells where it is declared. A name has one owner and an owner one name.
  Entries refer to each other by these names only. What is compiled without a
  reservation is entered without a name.
-/

import WsdlCatalog.Catalog.StructuralType
import WsdlCatalog.Fault
import WsdlCatalog.Json

namespace WsdlCatalog

def ownerOfType (name : QName) : String := "type:" ++ name.key

def ownerOfElement (name : QName) : String := "element:" ++ name.key

/-- Who owns the canonical name of the type inside an element of another type. -/
def ownerOfNested (owner element : String) : String := "anon:" ++ owner ++ "/" ++ element

structure Reservation where
  owner : String
  canonical : String
  name : QName
  deriving DecidableEq, Repr

structure Inventory where
  reservations : List Reservation
  aliases : List (Option String × ScalarAlias)
  types : List (Option String × StructuralType)
  deriving Repr

namespace Inventory

def empty : Inventory := ⟨[], [], []⟩

def canonical? (inventory : Inventory) (owner : String) : Option String :=
  (inventory.reservations.find? (·.owner == owner)).map (·.canonical)

def holder? (inventory : Inventory) (canonical : String) : Option Reservation :=
  inventory.reservations.find? (·.canonical == canonical)

/-- The canonical name of an owner after it asked for one; it keeps a name that it has. -/
def reserve (inventory : Inventory) (owner canonical : String) (name : QName) :
    Except Fault (Inventory × String) :=
  match inventory.canonical? owner with
  | some current => .ok (inventory, current)
  | none =>
    match inventory.holder? canonical with
    | some held => .error (.nameClash canonical held.owner held.name name)
    | none =>
      .ok ({ inventory with
        reservations := inventory.reservations ++ [⟨owner, canonical, name⟩] }, canonical)

def alias? (inventory : Inventory) (name : Option String) : Option ScalarAlias :=
  inventory.aliases.lookup name

def type? (inventory : Inventory) (name : Option String) : Option StructuralType :=
  inventory.types.lookup name

def isCompiled (inventory : Inventory) (name : Option String) : Bool :=
  (inventory.alias? name).isSome || (inventory.type? name).isSome

def addAlias (inventory : Inventory) (a : ScalarAlias) : Inventory :=
  { inventory with aliases := put a.name a inventory.aliases }

def addType (inventory : Inventory) (t : StructuralType) : Inventory :=
  { inventory with types := put t.name t inventory.types }

def size (inventory : Inventory) : Nat := inventory.reservations.length

def byName {α : Type} (entries : List (String × α)) : List α :=
  (entries.mergeSort fun a b => a.1 ≤ b.1).map (·.2)

/-- Entries in the order of their canonical names. An entry without one has no place among
others. -/
def byCanonical? {α : Type} (entries : List (Option String × α)) : Option (List α) :=
  if entries.length ≤ 1 then some (entries.map (·.2))
  else byName <$> entries.mapM fun (name, entry) => name.map fun name => (name, entry)

def sortedAliases? (inventory : Inventory) : Option (List ScalarAlias) :=
  byCanonical? inventory.aliases

def sortedTypes? (inventory : Inventory) : Option (List StructuralType) :=
  byCanonical? inventory.types

end Inventory

end WsdlCatalog
