/-
  WsdlCatalog.Catalog.Reading — catalogs from data.

  Fields that may be missing have defaults; of the others the first that is missing is
  named. A maximum may be a text that reads as an integer. The members that a type
  declares itself are looked up by name among all its members, of which the last of
  a name counts.
-/

import WsdlCatalog.Catalog.Written
import WsdlCatalog.Text.Digit

namespace WsdlCatalog

inductive ReadingError where
  | missingKey (key : String)
  | unsupportedVersion (version : Json)
  | invalidInteger (written : String)
  /-- An integer with too many digits. -/
  | overlongNumber (digits : Nat)
  | options (error : OptionsError)
  /-- Data of a form that no field of the kind has. -/
  | wrongForm
  /-- Data that are no object where an optional field is looked for. -/
  | noObject
  /-- A maximum that is infinite. -/
  | infiniteMaximum
  /-- A maximum that is no number. -/
  | undefinedMaximum
  /-- The text is no data at all. -/
  | malformedText
  /-- The octets are no text. -/
  | undecodableText
  deriving Repr

/-- At most this many characters of a text that is no integer are shown. -/
def shownLimit : Nat := 200

def ReadingError.message : ReadingError → String
  | missingKey key => key
  | unsupportedVersion version => version.messageAbout "Unsupported catalog format version " ""
  | invalidInteger written =>
    "invalid literal for int() with base 10: "
      ++ String.ofList ((Text.quoted written).toList.take shownLimit)
  | overlongNumber digits => Text.overlongMessage (some digits)
  | options e => e.message
  | wrongForm => "data of another form"
  | noObject => "data without fields"
  | infiniteMaximum => "cannot convert float infinity to integer"
  | undefinedMaximum => "cannot convert float NaN to integer"
  | malformedText => "malformed text"
  | undecodableText => "undecodable text"

abbrev Reading (α : Type) := Except ReadingError α

namespace Json

/-! ## Fields -/

def ofForm {α : Type} : Option α → Reading α
  | some a => .ok a
  | none => .error .wrongForm

def readText (j : Json) : Reading String := ofForm j.str?
def readBool (j : Json) : Reading Bool := ofForm j.bool?
def readInt (j : Json) : Reading Int := ofForm j.int?

/-- Null reads as nothing. -/
def readOptional {α : Type} (read : Json → Reading α) : Json → Reading (Option α)
  | null => .ok none
  | j => do return some (← read j)

/-- The items of a list. A text is the list of its characters, an object that of its keys. -/
def items? : Json → Option (List Json)
  | arr items => some items
  | str s => some (s.toList.map fun c => str (String.ofList [c]))
  | obj members => some (members.map fun (key, _) => str key)
  | _ => none

def readList {α : Type} (read : Json → Reading α) (j : Json) : Reading (List α) := do
  (← ofForm j.items?).mapM read

def readTexts : Json → Reading (List String) := readList readText

def readTable {α : Type} (read : Json → Reading α) : Json → Reading (List (String × α))
  | obj members => members.mapM fun (key, value) => do return (key, ← read value)
  | _ => .error .noObject

/-- A field that must be there. -/
def required (j : Json) (key : String) : Reading Json :=
  match j with
  | obj members =>
    match members.lookup key with
    | some value => .ok value
    | none => .error (.missingKey key)
  | _ => .error .wrongForm

/-- A field that may be missing. -/
def fieldOr {α : Type} (j : Json) (key : String) (default : α) (read : Json → Reading α) :
    Reading α :=
  match j with
  | obj members =>
    match members.lookup key with
    | some value => read value
    | none => .ok default
  | _ => .error .noObject

def fieldOptional {α : Type} (j : Json) (key : String) (read : Json → Reading α) :
    Reading (Option α) :=
  j.fieldOr key none (readOptional read)

/-- A maximum, in words or as what reads as an integer; a fraction is dropped. -/
def readMax : Json → Reading (Option Int)
  | str s =>
    if s == unboundedWord then .ok none
    else
      match Text.integer s with
      | .ok n => .ok (some n)
      | .error .malformed => .error (.invalidInteger s)
      | .error (.overlong digits) => .error (.overlongNumber digits)
  | int n => .ok (some n)
  | bool b => .ok (some b.toInt)
  | real x =>
    match x with
    | .nan => .error .undefinedMaximum
    | x =>
      match x.truncated? with
      | some n => .ok (some n)
      | none => .error .infiniteMaximum
  | _ => .error .wrongForm

def readLooseInt (j : Json) : Loose Int := .ofJson int? j
def readLooseBool (j : Json) : Loose Bool := .ofJson bool? j
def readLooseText (j : Json) : Loose String := .ofJson str? j

end Json

/-! ## Entries -/

def QName.ofJson (j : Json) : Reading QName := do
  let uri ← (← j.required "namespace").readOptional Json.readText
  return ⟨uri, ← (← j.required "local").readText⟩

def TypeRef.ofJson (j : Json) : Reading TypeRef := do
  return {
    kind := .ofName (← (← j.required "kind").readText)
    declared := ← (← j.required "declared").readText
    scalar := .ofName (← j.fieldOr "scalar" "opaque" Json.readText)
    name := ← j.fieldOptional "name" Json.readText
    enumeration := ← j.fieldOptional "enumeration" Json.readTexts
    isList := ← j.fieldOr "is_list" false Json.readBool }

def Attribute.ofJson (j : Json) : Reading Attribute := do
  return {
    name := ← (← j.required "name").readText
    declaredType := ← (← j.required "declared_type").readText
    typeRef := ← TypeRef.ofJson (← j.required "type_ref")
    use := .ofName (← j.fieldOr "use" "optional" Json.readText) }

def ChoiceMember.ofJson (j : Json) : Reading ChoiceMember := do
  return ⟨← (← j.required "group").readInt, ← (← j.required "branch").readInt⟩

def ChoiceGroup.ofJson (j : Json) : Reading ChoiceGroup := do
  return {
    index := ← (← j.required "index").readInt
    min := ← (← j.required "min").readInt
    max := ← (← j.required "max").readMax
    branches := ← (← j.required "branches").readList Json.readTexts }

/-- Empty data give no choice. -/
def readChoice (j : Json) : Reading (Option ChoiceMember) :=
  if j.truthy then do return some (← ChoiceMember.ofJson j) else .ok none

def Element.ofJson (j : Json) : Reading Element := do
  let choice ← j.fieldOr "choice" .null .ok
  return {
    name := ← (← j.required "name").readText
    declaredType := ← (← j.required "declared_type").readText
    typeRef := ← TypeRef.ofJson (← j.required "type_ref")
    min := (← j.required "min").readLooseInt
    max := ← (← j.required "max").readMax
    nillable := ((j.field? "nillable").map Json.readLooseBool).getD (.own false)
    optional := ((j.field? "optional").map Json.readLooseBool).getD (.own false)
    choice := ← readChoice choice }

def lastNamed {α : Type} (nameOf : α → String) (members : List α) (name : String) : Reading α :=
  match members.reverse.find? fun member => nameOf member == name with
  | some member => .ok member
  | none => .error (.missingKey name)

def StructuralType.ofJson (j : Json) : Reading StructuralType := do
  let attributes ← (← j.required "attributes").readList Attribute.ofJson
  let elements ← (← j.required "elements").readList Element.ofJson
  return {
    name := ← (← j.required "name").readOptional Json.readText
    qname := ← (← j.required "qname").readOptional QName.ofJson
    attributes, elements
    localAttributes :=
      ← (← (← j.required "local_attributes").readTexts).mapM (lastNamed (·.name) attributes)
    localElements :=
      ← (← (← j.required "local_elements").readTexts).mapM (lastNamed (·.name) elements)
    base := ← j.fieldOptional "base" Json.readText
    mixed := ← j.fieldOr "mixed" false Json.readBool
    simpleContent := ← j.fieldOr "simple_content" false Json.readBool
    choices := ← j.fieldOr "choices" [] (Json.readList ChoiceGroup.ofJson)
    documentation := ← j.fieldOptional "documentation" Json.readText
    anonymous := ← j.fieldOr "anonymous" false Json.readBool }

def ScalarAlias.ofJson (j : Json) : Reading ScalarAlias := do
  return {
    name := ← (← j.required "name").readOptional Json.readText
    qname := ← (← j.required "qname").readOptional QName.ofJson
    scalar := .ofName (← (← j.required "scalar").readText)
    base := ← (← j.required "base").readText
    enumeration := ← j.fieldOptional "enumeration" Json.readTexts
    isList := ← j.fieldOr "is_list" false Json.readBool
    documentation := ← j.fieldOptional "documentation" Json.readText }

def Operation.ofJson (j : Json) : Reading Operation := do
  return {
    name := ← (← j.required "name").readText
    action := ← j.fieldOr "action" "" Json.readText
    inputElement := ← j.fieldOptional "input_element" QName.ofJson
    outputElement := ← j.fieldOptional "output_element" QName.ofJson
    inputType := ← j.fieldOptional "input_type" Json.readText
    outputType := ← j.fieldOptional "output_type" Json.readText
    securityHints := ← j.fieldOr "security_hints" [] Json.readTexts
    style := ← j.fieldOr "style" "document" Json.readText
    documentation := ← j.fieldOptional "documentation" Json.readText }

def PropertyInfo.ofJson (j : Json) : Reading PropertyInfo := do
  return {
    declaredType := ← (← j.required "declared_type").readText
    min := (← j.required "min").readLooseInt
    max := ← (← j.required "max").readMax
    nillable := (← j.required "nillable").readLooseBool }

def Routes.ofJson (j : Json) : Reading Routes :=
  j.readTable (Json.readTable (Json.readOptional Json.readText))

def Marshalling.ofJson (j : Json) : Reading Marshalling := do
  return {
    attributes := ← j.fieldOr "attributes" [] (Json.readTable Json.readTexts)
    children := ← j.fieldOr "children" [] Routes.ofJson
    properties := ← j.fieldOr "properties" [] (Json.readTable (Json.readTable PropertyInfo.ofJson)) }

/-- The keys of a context; no others are allowed. -/
def Context.keys : List String := ["element", "namespace", "referenced_by", "file", "suggestion"]

def Context.ofJson (j : Json) : Reading Context := do
  match j with
  | .obj members => if members.any fun (key, _) => !Context.keys.contains key then throw .wrongForm
  | _ => throw .wrongForm
  return {
    element := ← j.fieldOptional "element" Json.readText
    uri := ← j.fieldOptional "namespace" Json.readText
    referencedBy := ← j.fieldOptional "referenced_by" Json.readText
    file := ← j.fieldOptional "file" Json.readText
    suggestion := ← j.fieldOptional "suggestion" Json.readText }

def Diagnostic.ofJson (j : Json) : Reading Diagnostic := do
  return {
    kind := ← (← j.required "kind").readText
    message := ← (← j.required "message").readText
    context := ← j.fieldOr "context" {} Context.ofJson }

/-! ## The catalog -/

/-- The options of a catalog; empty data give the defaults. -/
def Options.ofJson (j : Json) : Reading Options :=
  match j with
  | .obj members => (Options.resolve members []).mapError .options
  | j => if j.truthy then .error .noObject else .ok {}

def isFormatVersion : Json → Bool
  | .int n => n == formatVersion
  | .bool b => b
  | .real x => x == .ofDecimal false formatVersion.toNat 0
  | _ => false

def Catalog.ofJson (j : Json) : Reading Catalog := do
  let version ← j.fieldOr "format_version" (.int formatVersion) .ok
  if !isFormatVersion version then throw (.unsupportedVersion version)
  let aliases ← j.fieldOr "aliases" [] (Json.readList ScalarAlias.ofJson)
  let types ← j.fieldOr "types" [] (Json.readList StructuralType.ofJson)
  let operations ← j.fieldOr "operations" [] (Json.readList Operation.ofJson)
  let marshalling ← j.fieldOr "metadata" ⟨[], [], []⟩ Marshalling.ofJson
  let options ← j.fieldOr "options" {} Options.ofJson
  let source := (← j.required "source").readLooseText
  let displayName := (← j.required "display_name").readLooseText
  return {
    aliases, types, operations, marshalling, options, source
    serviceName := ← j.fieldOptional "service_name" fun j => .ok j.readLooseText
    displayName
    targetNamespace := ((j.field? "target_namespace").map Json.readLooseText).getD (.own "")
    diagnostics := ← j.fieldOr "diagnostics" [] (Json.readList Diagnostic.ofJson)
    unresolved := ← j.fieldOr "unresolved" [] Json.readTexts }

end WsdlCatalog
