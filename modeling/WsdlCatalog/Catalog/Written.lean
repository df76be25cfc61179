/-
  WsdlCatalog.Catalog.Written — catalogs as data.

  Keys are written in a fixed order. A missing maximum is written as a word, and the
  members that a type declares itself are written as names: their values stand among
  all its members.
-/

import WsdlCatalog.Catalog.Basic

namespace WsdlCatalog

def formatVersion : Int := 1

def unboundedWord : String := "unbounded"

namespace Json

def ofMax : Option Int → Json
  | none => str unboundedWord
  | some n => int n

def ofList {α : Type} (f : α → Json) (xs : List α) : Json := arr (xs.map f)

def ofTexts (xs : List String) : Json := ofList str xs

def ofTable {α : Type} (f : α → Json) (entries : List (String × α)) : Json :=
  obj (entries.map fun (key, value) => (key, f value))

end Json

def QName.toJson (name : QName) : Json :=
  .obj [("namespace", Json.optional .str name.uri), ("local", .str name.localPart)]

def TypeRef.toJson (ref : TypeRef) : Json :=
  .obj [("kind", .str ref.kind.name), ("declared", .str ref.declared),
    ("scalar", .str ref.scalar.name), ("name", Json.optional .str ref.name),
    ("enumeration", Json.optional .ofTexts ref.enumeration), ("is_list", .bool ref.isList)]

def Attribute.toJson (a : Attribute) : Json :=
  .obj [("name", .str a.name), ("declared_type", .str a.declaredType), ("use", .str a.use.name),
    ("type_ref", a.typeRef.toJson)]

def ChoiceMember.toJson (m : ChoiceMember) : Json :=
  .obj [("group", .int m.group), ("branch", .int m.branch)]

def ChoiceGroup.toJson (g : ChoiceGroup) : Json :=
  .obj [("index", .int g.index), ("min", .int g.min), ("max", .ofMax g.max),
    ("branches", .ofList .ofTexts g.branches)]

def Element.toJson (e : Element) : Json :=
  .obj [("name", .str e.name), ("declared_type", .str e.declaredType),
    ("type_ref", e.typeRef.toJson), ("min", e.min.toJson .int), ("max", .ofMax e.max),
    ("nillable", e.nillable.toJson .bool), ("optional", e.optional.toJson .bool),
    ("choice", Json.optional ChoiceMember.toJson e.choice)]

def StructuralType.toJson (t : StructuralType) : Json :=
  .obj [("name", Json.optional .str t.name), ("qname", Json.optional QName.toJson t.qname),
    ("base", Json.optional .str t.base), ("mixed", .bool t.mixed),
    ("simple_content", .bool t.simpleContent), ("anonymous", .bool t.anonymous),
    ("documentation", Json.optional .str t.documentation),
    ("attributes", .ofList Attribute.toJson t.attributes),
    ("elements", .ofList Element.toJson t.elements),
    ("local_attributes", .ofTexts (t.localAttributes.map (·.name))),
    ("local_elements", .ofTexts (t.localElements.map (·.name))),
    ("choices", .ofList ChoiceGroup.toJson t.choices)]

def ScalarAlias.toJson (a : ScalarAlias) : Json :=
  .obj [("name", Json.optional .str a.name), ("qname", Json.optional QName.toJson a.qname),
    ("scalar", .str a.scalar.name), ("base", .str a.base),
    ("enumeration", Json.optional .ofTexts a.enumeration), ("is_list", .bool a.isList),
    ("documentation", Json.optional .str a.documentation)]

def Operation.toJson (o : Operation) : Json :=
  .obj [("name", .str o.name), ("action", .str o.action),
    ("input_element", Json.optional QName.toJson o.inputElement),
    ("output_element", Json.optional QName.toJson o.outputElement),
    ("input_type", Json.optional .str o.inputType),
    ("output_type", Json.optional .str o.outputType),
    ("security_hints", .ofTexts o.securityHints), ("style", .str o.style),
    ("documentation", Json.optional .str o.documentation)]

def PropertyInfo.toJson (p : PropertyInfo) : Json :=
  .obj [("declared_type", .str p.declaredType), ("min", p.min.toJson .int),
    ("max", .ofMax p.max), ("nillable", p.nillable.toJson .bool)]

def Routes.toJson (routes : Routes) : Json := .ofTable (.ofTable (Json.optional .str)) routes

def Marshalling.toJson (m : Marshalling) : Json :=
  .obj [("attributes", .ofTable .ofTexts m.attributes), ("children", m.children.toJson),
    ("properties", .ofTable (.ofTable PropertyInfo.toJson) m.properties)]

def Catalog.toJson (c : Catalog) : Json :=
  .obj [("format_version", .int formatVersion), ("source", c.source.toJson .str),
    ("service_name", Json.optional (·.toJson .str) c.serviceName),
    ("display_name", c.displayName.toJson .str),
    ("target_namespace", c.targetNamespace.toJson .str),
    ("options", c.options.toJson), ("aliases", .ofList ScalarAlias.toJson c.aliases),
    ("types", .ofList StructuralType.toJson c.types),
    ("operations", .ofList Operation.toJson c.operations),
    ("metadata", c.marshalling.toJson), ("diagnostics", .ofList Diagnostic.toJson c.diagnostics),
    ("unresolved", .ofTexts c.unresolved)]

end WsdlCatalog
