/-
  WsdlCatalog.Options — the choices a compilation leaves to its caller.

  Options come as named data, under their names or under the names of configuration
  files, and may be gathered in a group of their own (`primitive`). A later value of
  an option wins. Unknown names are refused before any value is looked at.
-/

import WsdlCatalog.Json.Loose

namespace WsdlCatalog

/-- How a value that may not fit a machine number is carried. -/
inductive Strategy where
  /-- As the text it was written in. -/
  | text
  deriving DecidableEq, Repr

def Strategy.name : Strategy → String
  | text => "text"

inductive ChoicePolicy where
  /-- The members of a choice are optional properties. -/
  | allOptional
  /-- The members of a choice know their branch. -/
  | union
  deriving DecidableEq, Repr

def ChoicePolicy.name : ChoicePolicy → String
  | allOptional => "all-optional"
  | union => "union"

structure Options where
  int64 : Strategy := .text
  bigInteger : Strategy := .text
  decimal : Strategy := .text
  date : Strategy := .text
  choice : ChoicePolicy := .allOptional
  failOnUnresolved : Loose Bool := .own false
  nillableAsOptional : Loose Bool := .own false
  attributesKey : Loose String := .own "$attributes"
  clientName : Option (Loose String) := none
  deriving Repr, BEq

inductive OptionsError where
  | unknownNames (names : List String)
  | invalidStrategy (name : String) (value : Json)
  /-- A list or an object stands where a strategy is named. -/
  | compoundStrategy (name : String)
  | invalidChoice (value : Json)
  | emptyAttributesKey
  deriving Repr

def OptionsError.message : OptionsError → String
  | unknownNames names => "Unknown compiler options: " ++ ", ".intercalate names
  | invalidStrategy name value =>
    value.messageAbout ("Invalid " ++ name ++ " strategy '") "': expected one of text"
  | compoundStrategy name => "Invalid " ++ name ++ " strategy: a list or an object"
  | invalidChoice value =>
    value.messageAbout "Invalid choice policy '" "': expected one of all-optional, union"
  | emptyAttributesKey => "attributes_key must be a non-empty string"

namespace Options

/-! ## Names -/

def names : List String :=
  ["int64", "big_integer", "decimal", "date", "choice", "fail_on_unresolved",
    "nillable_as_optional", "attributes_key", "client_name"]

def configurationNames : List (String × String) :=
  [("int64As", "int64"), ("bigIntegerAs", "big_integer"), ("decimalAs", "decimal"),
    ("dateAs", "date"), ("failOnUnresolved", "fail_on_unresolved"),
    ("nillableAsOptional", "nillable_as_optional"), ("attributesKey", "attributes_key"),
    ("clientName", "client_name")]

mutual

def entry (key : String) : Json → List (String × Json)
  | .obj members =>
    if key == "primitive" then entries members
    else [((configurationNames.lookup key).getD key, .obj members)]
  | value => [((configurationNames.lookup key).getD key, value)]

def entries : List (String × Json) → List (String × Json)
  | [] => []
  | (key, value) :: rest => entry key value ++ entries rest

end

/-! ## Values -/

def strategy (given : List (String × Json)) (name : String) : Except OptionsError Strategy :=
  match given.lookup name with
  | none => .ok .text
  | some (.str "text") => .ok .text
  | some (.arr _) | some (.obj _) => .error (.compoundStrategy name)
  | some value => .error (.invalidStrategy name value)

def choicePolicy (given : List (String × Json)) : Except OptionsError ChoicePolicy :=
  match given.lookup "choice" with
  | none => .ok .allOptional
  | some (.str "all-optional") => .ok .allOptional
  | some (.str "union") => .ok .union
  | some value => .error (.invalidChoice value)

def switch (given : List (String × Json)) (name : String) : Loose Bool :=
  match given.lookup name with
  | none => .own false
  | some value => .ofJson Json.bool? value

def attributesKeyOf (given : List (String × Json)) : Except OptionsError (Loose String) :=
  match given.lookup "attributes_key" with
  | none => .ok (.own "$attributes")
  | some value => if value.truthy then .ok (.ofJson Json.str? value) else .error .emptyAttributesKey

def clientNameOf (given : List (String × Json)) : Option (Loose String) :=
  match given.lookup "client_name" with
  | none | some .null => none
  | some value => some (.ofJson Json.str? value)

def ofEntries (given : List (String × Json)) : Except OptionsError Options := do
  let given := putAll given
  let unknown := (given.map (·.1)).filter fun name => !names.contains name
  if !unknown.isEmpty then
    throw (.unknownNames (unknown.mergeSort fun a b => a ≤ b))
  return {
    int64 := ← strategy given "int64"
    bigInteger := ← strategy given "big_integer"
    decimal := ← strategy given "decimal"
    date := ← strategy given "date"
    choice := ← choicePolicy given
    failOnUnresolved := switch given "fail_on_unresolved"
    nillableAsOptional := switch given "nillable_as_optional"
    attributesKey := ← attributesKeyOf given
    clientName := clientNameOf given }

def resolve (given overrides : List (String × Json)) : Except OptionsError Options :=
  ofEntries (entries given ++ entries overrides)

/-! ## As data -/

def toEntries (options : Options) : List (String × Json) :=
  [("int64", .str options.int64.name),
    ("big_integer", .str options.bigInteger.name),
    ("decimal", .str options.decimal.name),
    ("date", .str options.date.name),
    ("choice", .str options.choice.name),
    ("fail_on_unresolved", options.failOnUnresolved.toJson .bool),
    ("nillable_as_optional", options.nillableAsOptional.toJson .bool),
    ("attributes_key", options.attributesKey.toJson .str),
    ("client_name", Json.optional (·.toJson .str) options.clientName)]

def toJson (options : Options) : Json := .obj options.toEntries

def override (options : Options) (overrides : List (String × Json)) :
    Except OptionsError Options :=
  ofEntries (options.toEntries ++ entries overrides)

end Options

end WsdlCatalog
