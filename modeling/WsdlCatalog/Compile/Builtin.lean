/-
  WsdlCatalog.Compile.Builtin — the built-in types and how their values are carried.

  Values that a machine number may not hold, and dates, are carried as an option
  says. Types that are not built in count as text.
-/

import WsdlCatalog.Catalog.TypeRef
import WsdlCatalog.Options

namespace WsdlCatalog

def Strategy.scalar : Strategy → ScalarKind
  | text => .text

namespace Builtin

inductive Carrier where
  | fixed (kind : ScalarKind)
  | int64
  | bigInteger
  | decimal
  | date
  deriving DecidableEq, Repr

def Carrier.scalar (options : Options) : Carrier → ScalarKind
  | fixed kind => kind
  | int64 => options.int64.scalar
  | bigInteger => options.bigInteger.scalar
  | decimal => options.decimal.scalar
  | date => options.date.scalar

def textTypes : List String :=
  ["string", "normalizedString", "token", "language", "Name", "NCName", "NMTOKEN", "NMTOKENS",
    "ID", "IDREF", "IDREFS", "ENTITY", "ENTITIES", "anyURI", "QName", "NOTATION", "hexBinary",
    "base64Binary"]

def numericTypes : List String :=
  ["byte", "unsignedByte", "short", "unsignedShort", "int", "unsignedInt", "float", "double"]

def bigIntegerTypes : List String :=
  ["integer", "nonPositiveInteger", "negativeInteger", "nonNegativeInteger", "positiveInteger"]

def dateTypes : List String :=
  ["date", "dateTime", "dateTimeStamp", "time", "gYear", "gYearMonth", "gMonth", "gMonthDay",
    "gDay", "duration", "dayTimeDuration", "yearMonthDuration"]

def carrier? (name : String) : Option Carrier :=
  if textTypes.contains name then some (.fixed .text)
  else if numericTypes.contains name then some (.fixed .numeric)
  else if bigIntegerTypes.contains name then some .bigInteger
  else if dateTypes.contains name then some .date
  else
    match name with
    | "boolean" => some (.fixed .boolean)
    | "long" | "unsignedLong" => some .int64
    | "decimal" => some .decimal
    | "anyType" | "anySimpleType" => some (.fixed .untyped)
    | _ => none

def isBuiltin (name : String) : Bool := (carrier? name).isSome

def scalar (options : Options) (name : String) : ScalarKind :=
  ((carrier? name).getD (.fixed .text)).scalar options

def ref (options : Options) (name : QName) : TypeRef :=
  ⟨.scalar, name.label, scalar options name.localPart, none, none, false⟩

end Builtin

end WsdlCatalog
