/-
  WsdlCatalog.Proofs.Written — catalogs read back from their texts.

  The data that a catalog is written as are data that a text can hold: no object of them
  has two members of one key. So their text reads as the same data, and these restore the
  catalog.

  Proved: a canonical catalog is read from its text, however it is set in
  (`Catalog.ofText_toText`).
-/

import WsdlCatalog.Proofs.Restoring

namespace WsdlCatalog

open Json (Formed)

variable {R : Binary64 → Prop}

/-! ## What is written can be held -/

namespace Json

theorem formed_obj {members : List (String × Json)} (keys : List String)
    (hk : members.map Prod.fst = keys) (hn : keys.Nodup) (each : ∀ j ∈ members.map Prod.snd, j.Formed R) :
    (obj members).Formed R :=
  .obj (hk ▸ hn) fun _ hm => each _ (List.mem_map_of_mem hm)

theorem formed_optional {α : Type} {write : α → Json} {x : Option α}
    (h : ∀ a ∈ x, (write a).Formed R) : (optional write x).Formed R := by
  cases x with
  | none => exact .null
  | some a => exact h a rfl

theorem formed_optional_str (x : Option String) : (optional str x).Formed R :=
  formed_optional fun s _ => .str s

theorem formed_ofList {α : Type} {write : α → Json} {xs : List α} (h : ∀ x ∈ xs, (write x).Formed R) :
    (ofList write xs).Formed R := by
  apply Formed.arr
  intro j hj
  obtain ⟨x, hx, rfl⟩ := List.mem_map.mp hj
  exact h x hx

theorem formed_ofTexts (xs : List String) : (ofTexts xs).Formed R := formed_ofList fun s _ => .str s

theorem formed_ofMax (max : Option Int) : (ofMax max).Formed R := by
  cases max with
  | none => exact .str _
  | some n => exact .int n

theorem formed_ofTable {α : Type} {write : α → Json} {entries : List (String × α)}
    (distinct : (entries.map Prod.fst).Nodup) (h : ∀ x ∈ entries, (write x.2).Formed R) :
    (ofTable write entries).Formed R := by
  apply Formed.obj
  · show ((entries.map fun e => (e.1, write e.2)).map Prod.fst).Nodup
    rw [List.map_map]
    exact distinct
  · intro m hm
    obtain ⟨x, hx, rfl⟩ := List.mem_map.mp hm
    exact h x hx

end Json

open Json

theorem QName.formed_toJson (name : QName) : name.toJson.Formed R := by
  apply formed_obj ["namespace", "local"] rfl (by decide)
  simp [formed_optional_str, Formed.str]

theorem QName.formed_optional (name : Option QName) : (Json.optional toJson name).Formed R :=
  Json.formed_optional fun name _ => name.formed_toJson

theorem TypeRef.formed_toJson (ref : TypeRef) : ref.toJson.Formed R := by
  apply formed_obj ["kind", "declared", "scalar", "name", "enumeration", "is_list"] rfl (by decide)
  have enumeration : (Json.optional ofTexts ref.enumeration).Formed R :=
    Json.formed_optional fun xs _ => formed_ofTexts xs
  simp [formed_optional_str, Formed.str, Formed.bool, enumeration]

theorem Attribute.formed_toJson (a : Attribute) : a.toJson.Formed R := by
  apply formed_obj ["name", "declared_type", "use", "type_ref"] rfl (by decide)
  simp [Formed.str, TypeRef.formed_toJson]

theorem ChoiceMember.formed_toJson (m : ChoiceMember) : m.toJson.Formed R := by
  apply formed_obj ["group", "branch"] rfl (by decide)
  simp [Formed.int]

theorem ChoiceGroup.formed_toJson (g : ChoiceGroup) : g.toJson.Formed R := by
  apply formed_obj ["index", "min", "max", "branches"] rfl (by decide)
  have branches : (ofList ofTexts g.branches).Formed R := formed_ofList fun xs _ => formed_ofTexts xs
  simp [Formed.int, formed_ofMax, branches]

theorem Element.formed_toJson {e : Element} (h : e.Canonical R) : e.toJson.Formed R := by
  apply formed_obj ["name", "declared_type", "type_ref", "min", "max", "nillable", "optional",
    "choice"] rfl (by decide)
  have min := Loose.formed_toJson h.min Formed.int
  have nillable := Loose.formed_toJson h.nillable Formed.bool
  have optional := Loose.formed_toJson h.optional Formed.bool
  have choice : (Json.optional ChoiceMember.toJson e.choice).Formed R :=
    Json.formed_optional fun m _ => m.formed_toJson
  simp [Formed.str, TypeRef.formed_toJson, formed_ofMax, min, nillable, optional, choice]

theorem StructuralType.formed_toJson {t : StructuralType} (h : t.Canonical R) : t.toJson.Formed R := by
  apply formed_obj ["name", "qname", "base", "mixed", "simple_content", "anonymous", "documentation",
    "attributes", "elements", "local_attributes", "local_elements", "choices"] rfl (by decide)
  have attributes : (ofList Attribute.toJson t.attributes).Formed R :=
    formed_ofList fun a _ => a.formed_toJson
  have elements : (ofList Element.toJson t.elements).Formed R :=
    formed_ofList fun e he => Element.formed_toJson (h.eachElement e he)
  have choices : (ofList ChoiceGroup.toJson t.choices).Formed R :=
    formed_ofList fun g _ => g.formed_toJson
  simp [formed_optional_str, QName.formed_optional, Formed.bool, formed_ofTexts, attributes,
    elements, choices]

theorem ScalarAlias.formed_toJson (a : ScalarAlias) : a.toJson.Formed R := by
  apply formed_obj ["name", "qname", "scalar", "base", "enumeration", "is_list", "documentation"] rfl
    (by decide)
  have enumeration : (Json.optional ofTexts a.enumeration).Formed R :=
    Json.formed_optional fun xs _ => formed_ofTexts xs
  simp [formed_optional_str, QName.formed_optional, Formed.bool, Formed.str, enumeration]

theorem Operation.formed_toJson (o : Operation) : o.toJson.Formed R := by
  apply formed_obj ["name", "action", "input_element", "output_element", "input_type", "output_type",
    "security_hints", "style", "documentation"] rfl (by decide)
  simp [formed_optional_str, QName.formed_optional, Formed.str, formed_ofTexts]

theorem keys_present (fields : List (String × Option String)) :
    ((fields.filterMap fun (name, value) => value.map (name, ·)).map Prod.fst).Sublist
      (fields.map Prod.fst) := by
  induction fields with
  | nil => exact .slnil
  | cons field rest ih =>
    obtain ⟨name, value⟩ := field
    cases value with
    | none => exact ih.cons name
    | some value => exact ih.cons_cons name

theorem Context.formed_toJson (context : Context) : context.toJson.Formed R := by
  have distinct : (context.entries.map Prod.fst).Nodup := (keys_present _).nodup (by decide : keys.Nodup)
  exact formed_ofTable distinct fun x _ => .str x.2

theorem Diagnostic.formed_toJson (d : Diagnostic) : d.toJson.Formed R := by
  apply formed_obj ["kind", "message", "context"] rfl (by decide)
  simp [Formed.str, Context.formed_toJson]

theorem PropertyInfo.formed_toJson {e : Element} (h : e.Canonical R) :
    (Marshalling.propertyInfo e).toJson.Formed R := by
  apply formed_obj ["declared_type", "min", "max", "nillable"] rfl (by decide)
  have min : ((Marshalling.propertyInfo e).min.toJson .int).Formed R :=
    Loose.formed_toJson h.min Formed.int
  have nillable : ((Marshalling.propertyInfo e).nillable.toJson .bool).Formed R :=
    Loose.formed_toJson h.nillable Formed.bool
  simp [Formed.str, formed_ofMax, min, nillable]

theorem Marshalling.formed_toJson {types : List StructuralType} (h : ∀ t ∈ types, t.Canonical R) :
    (ofTypes types).toJson.Formed R := by
  have attributes : (ofTable ofTexts (ofTypes types).attributes).Formed R :=
    formed_ofTable (nodup_putAll _) fun x _ => formed_ofTexts x.2
  have children : (ofTypes types).children.toJson.Formed R := by
    apply formed_ofTable (nodup_putAll _)
    intro x hx
    obtain ⟨t, -, rfl⟩ := List.mem_map.mp (mem_putAll hx)
    exact formed_ofTable (nodup_putAll _) fun y _ => formed_optional_str y.2
  have properties : (ofTable (ofTable PropertyInfo.toJson) (ofTypes types).properties).Formed R := by
    apply formed_ofTable (nodup_putAll _)
    intro x hx
    obtain ⟨t, ht, rfl⟩ := List.mem_map.mp (mem_putAll hx)
    apply formed_ofTable (nodup_putAll _)
    intro y hy
    obtain ⟨e, he, rfl⟩ := List.mem_map.mp (mem_putAll hy)
    exact PropertyInfo.formed_toJson ((h t ht).eachElement e he)
  apply formed_obj ["attributes", "children", "properties"] rfl (by decide)
  simp [attributes, children, properties]

theorem Options.formed_toJson {options : Options} (h : options.Canonical R) : options.toJson.Formed R := by
  apply formed_obj names rfl (by decide)
  have failOnUnresolved := Loose.formed_toJson h.failOnUnresolved Formed.bool
  have nillableAsOptional := Loose.formed_toJson h.nillableAsOptional Formed.bool
  have attributesKey := Loose.formed_toJson h.attributesKey Formed.str
  have clientName : (Json.optional (·.toJson .str) options.clientName).Formed R :=
    formed_optional fun name hname => Loose.formed_toJson (h.clientName name hname).1 Formed.str
  simp [toEntries, Formed.str, failOnUnresolved, nillableAsOptional, attributesKey, clientName]

theorem Catalog.formed_toJson {c : Catalog} (h : c.Canonical R) : c.toJson.Formed R := by
  have source := Loose.formed_toJson h.source Formed.str
  have serviceName : (Json.optional (·.toJson .str) c.serviceName).Formed R :=
    formed_optional fun name hname => Loose.formed_toJson (h.serviceName name hname).1 Formed.str
  have displayName := Loose.formed_toJson h.displayName Formed.str
  have targetNamespace := Loose.formed_toJson h.targetNamespace Formed.str
  have options := Options.formed_toJson h.options
  have aliases : (ofList ScalarAlias.toJson c.aliases).Formed R :=
    formed_ofList fun a _ => a.formed_toJson
  have types : (ofList StructuralType.toJson c.types).Formed R :=
    formed_ofList fun t ht => StructuralType.formed_toJson (h.type t ht)
  have operations : (ofList Operation.toJson c.operations).Formed R :=
    formed_ofList fun o _ => o.formed_toJson
  have marshalling : c.marshalling.toJson.Formed R := by
    rw [h.marshalling]
    exact Marshalling.formed_toJson h.type
  have diagnostics : (ofList Diagnostic.toJson c.diagnostics).Formed R :=
    formed_ofList fun d _ => d.formed_toJson
  apply formed_obj ["format_version", "source", "service_name", "display_name", "target_namespace",
    "options", "aliases", "types", "operations", "metadata", "diagnostics", "unresolved"] rfl
    (by decide)
  simp [Formed.int, formed_ofTexts, source, serviceName, displayName, targetNamespace, options,
    aliases, types, operations, marshalling, diagnostics]

/-- A catalog is read from the text that it is written as. -/
theorem Catalog.ofText_toText {c : Catalog} (h : c.Canonical Binary64.Canonical) {indent : Option Nat}
    {text : String} (ht : c.toText indent = .ok text) : ofText text = .ok c := by
  have parsed : parse text = .ok c.toJson := by
    cases indent with
    | none => exact parse_print Layout.blank_spaced (Catalog.formed_toJson h) ht
    | some n => exact parse_print (Layout.blank_indented n) (Catalog.formed_toJson h) ht
  rw [ofText, parsed]
  exact Catalog.restores h

end WsdlCatalog
