/-
  WsdlCatalog.Proofs.Restoring — entries read back from their data.

  Each entry is written as an object whose members its reader looks up by key, so most
  entries come back as they are. Some values could be written alike: a kind called by the
  name of another, data of another form that have the form after all, two members of one
  name. An entry without such values is canonical. What condition the numbers that are not
  integers satisfy is left open.

  Proved: canonical entries and catalogs are restored from their data
  (`Catalog.restores`); options are restored from their entries
  (`Options.ofEntries_toEntries`).
-/

import WsdlCatalog.Catalog.Transport
import WsdlCatalog.Proofs.Printing

namespace WsdlCatalog

open Json (Formed)

variable {R : Binary64 → Prop}

/-! ## Fields -/

def Restores {α : Type} (read : Json → Reading α) (write : α → Json) (a : α) : Prop :=
  read (write a) = .ok a

namespace Json

theorem readOptional_optional {α : Type} {read : Json → Reading α} {write : α → Json} {x : Option α}
    (h : ∀ a ∈ x, Restores read write a ∧ write a ≠ null) :
    readOptional read (optional write x) = .ok x := by
  cases x with
  | none => rfl
  | some a =>
    obtain ⟨restored, notNull⟩ := h a rfl
    show readOptional read (write a) = _
    unfold readOptional
    split
    · exact absurd (by assumption) notNull
    · rw [restored]
      rfl

theorem readOptional_str (x : Option String) : readOptional readText (optional str x) = .ok x :=
  readOptional_optional fun _ _ => ⟨rfl, nofun⟩

theorem mapM_restores {α : Type} {read : Json → Reading α} {write : α → Json} {xs : List α}
    (h : ∀ x ∈ xs, Restores read write x) : (xs.map write).mapM read = .ok xs := by
  induction xs with
  | nil => rfl
  | cons x rest ih =>
    rw [List.map_cons, List.mapM_cons, h x List.mem_cons_self,
      ih fun y hy => h y (List.mem_cons_of_mem _ hy)]
    rfl

theorem readList_ofList {α : Type} {read : Json → Reading α} {write : α → Json} {xs : List α}
    (h : ∀ x ∈ xs, Restores read write x) : readList read (ofList write xs) = .ok xs :=
  mapM_restores h

theorem readTexts_ofTexts (xs : List String) : readTexts (ofTexts xs) = .ok xs :=
  readList_ofList fun _ _ => rfl

theorem readOptional_texts (x : Option (List String)) :
    readOptional readTexts (optional ofTexts x) = .ok x :=
  readOptional_optional fun xs _ => ⟨readTexts_ofTexts xs, nofun⟩

theorem readMax_ofMax (max : Option Int) : readMax (ofMax max) = .ok max := by
  cases max <;> rfl

theorem readTable_ofTable {α : Type} {read : Json → Reading α} {write : α → Json}
    {entries : List (String × α)} (h : ∀ x ∈ entries, Restores read write x.2) :
    readTable read (ofTable write entries) = .ok entries := by
  induction entries with
  | nil => rfl
  | cons x rest ih =>
    have rest' := ih fun y hy => h y (List.mem_cons_of_mem _ hy)
    simp only [readTable, ofTable] at rest' ⊢
    rw [List.map_cons, List.mapM_cons, rest', h x List.mem_cons_self]
    rfl

end Json

/-! ## Entries -/

section

variable {α β : Type}

@[simp] theorem Reading.ok_bind (a : α) (f : α → Reading β) : (Except.ok a : Reading α) >>= f = f a := rfl

@[simp] theorem Reading.map_ok (f : α → β) (a : α) : f <$> (Except.ok a : Reading α) = .ok (f a) := rfl

@[simp] theorem Reading.pure_eq (a : α) : (pure a : Reading α) = .ok a := rfl

end

namespace Json

@[simp] theorem readText_str (s : String) : readText (str s) = .ok s := rfl
@[simp] theorem readBool_bool (b : Bool) : readBool (bool b) = .ok b := rfl
@[simp] theorem readInt_int (n : Int) : readInt (int n) = .ok n := rfl

end Json

/-! ## What can be read back

The kinds and the values that the library knows have one form each: a kind is never the name
of another one, and a value of the form that is asked for is never held as other data. -/

namespace Loose

variable {α : Type} {read? : Json → Option α} {write : α → Json}

/-- Data come back in the same hold: of the form that is asked for, or of another. -/
def Faithful (read? : Json → Option α) (write : α → Json) (x : Loose α) : Prop :=
  ofJson read? (x.toJson write) = x

/-- What is held of another form is not of the form that is asked for. -/
def Canonical (R : Binary64 → Prop) (read? : Json → Option α) : Loose α → Prop
  | own _ => True
  | other j => read? j = none ∧ j.Formed R

theorem Canonical.faithful {x : Loose α} (h : x.Canonical R read?)
    (hw : ∀ a, read? (write a) = some a) : x.Faithful read? write := by
  cases x with
  | own a =>
    show ofJson read? (write a) = _
    rw [ofJson, hw]
  | other j =>
    show ofJson read? j = _
    rw [ofJson, h.1]

theorem canonical_ofJson {j : Json} (h : j.Formed R) : (ofJson read? j).Canonical R read? := by
  unfold ofJson
  split
  · trivial
  · exact ⟨by assumption, h⟩

theorem formed_toJson {x : Loose α} (h : x.Canonical R read?) (hw : ∀ a, (write a).Formed R) :
    (x.toJson write).Formed R := by
  cases x with
  | own a => exact hw a
  | other j => exact h.2

end Loose

def TypeRef.Canonical (ref : TypeRef) : Prop :=
  RefKind.ofName ref.kind.name = ref.kind ∧ ScalarKind.ofName ref.scalar.name = ref.scalar

def Attribute.Canonical (a : Attribute) : Prop :=
  a.typeRef.Canonical ∧ AttributeUse.ofName a.use.name = a.use

structure Element.Canonical (R : Binary64 → Prop) (e : Element) : Prop where
  ref : e.typeRef.Canonical
  min : e.min.Canonical R Json.int?
  nillable : e.nillable.Canonical R Json.bool?
  optional : e.optional.Canonical R Json.bool?

/-- The members of a type are told apart by their names, and those that it declares itself are
among all its members just as they are. -/
structure StructuralType.Canonical (R : Binary64 → Prop) (t : StructuralType) : Prop where
  eachAttribute : ∀ a ∈ t.attributes, a.Canonical
  eachElement : ∀ e ∈ t.elements, e.Canonical R
  attributeNames : t.attributeNames.Nodup
  elementNames : t.elementNames.Nodup
  localAttributes : ∀ a ∈ t.localAttributes, a ∈ t.attributes
  localElements : ∀ e ∈ t.localElements, e ∈ t.elements

def ScalarAlias.Canonical (a : ScalarAlias) : Prop := ScalarKind.ofName a.scalar.name = a.scalar

structure Options.Canonical (R : Binary64 → Prop) (options : Options) : Prop where
  failOnUnresolved : options.failOnUnresolved.Canonical R Json.bool?
  nillableAsOptional : options.nillableAsOptional.Canonical R Json.bool?
  attributesKey : options.attributesKey.Canonical R Json.str?
  attributesKeyHolds : (options.attributesKey.toJson .str).truthy = true
  clientName : ∀ name ∈ options.clientName, name.Canonical R Json.str? ∧ name ≠ .other .null

/-- Each value of the options shows in what is written whether it has the form that is asked for,
and none would be read as missing. -/
structure Options.Faithful (options : Options) : Prop where
  failOnUnresolved : options.failOnUnresolved.Faithful Json.bool? .bool
  nillableAsOptional : options.nillableAsOptional.Faithful Json.bool? .bool
  attributesKey : options.attributesKey.Faithful Json.str? .str
  attributesKeyHolds : (options.attributesKey.toJson .str).truthy = true
  clientName : ∀ name ∈ options.clientName, name.Faithful Json.str? .str ∧ name.toJson .str ≠ .null

structure Catalog.Canonical (R : Binary64 → Prop) (c : Catalog) : Prop where
  scalar : ∀ a ∈ c.aliases, a.Canonical
  type : ∀ t ∈ c.types, t.Canonical R
  marshalling : c.marshalling = .ofTypes c.types
  options : c.options.Canonical R
  source : c.source.Canonical R Json.str?
  serviceName : ∀ name ∈ c.serviceName, name.Canonical R Json.str? ∧ name ≠ .other .null
  displayName : c.displayName.Canonical R Json.str?
  targetNamespace : c.targetNamespace.Canonical R Json.str?

/-! ## Entries -/

theorem QName.restores (name : QName) : Restores ofJson toJson name := by
  simp [Restores, ofJson, toJson, Json.required, List.lookup_cons, Json.readOptional_str]

theorem QName.optional_restores (name : Option QName) :
    (Json.optional toJson name).readOptional ofJson = .ok name :=
  Json.readOptional_optional fun name _ => ⟨name.restores, nofun⟩

theorem TypeRef.restores {ref : TypeRef} (h : ref.Canonical) : Restores ofJson toJson ref := by
  obtain ⟨kind, scalar⟩ := h
  simp [Restores, ofJson, toJson, Json.required, Json.fieldOr, Json.fieldOptional, List.lookup_cons,
    Json.readOptional_str, Json.readOptional_texts, kind, scalar]

theorem Attribute.restores {a : Attribute} (h : a.Canonical) : Restores ofJson toJson a := by
  obtain ⟨ref, use⟩ := h
  have ref' : TypeRef.ofJson a.typeRef.toJson = .ok a.typeRef := TypeRef.restores ref
  simp [Restores, ofJson, toJson, Json.required, Json.fieldOr, List.lookup_cons, ref', use]

theorem ChoiceMember.restores (m : ChoiceMember) : Restores ofJson toJson m := by
  simp [Restores, ofJson, toJson, Json.required, List.lookup_cons]

theorem ChoiceGroup.restores (g : ChoiceGroup) : Restores ofJson toJson g := by
  have branches : Json.readList Json.readTexts (.ofList .ofTexts g.branches) = .ok g.branches :=
    Json.readList_ofList fun xs _ => Json.readTexts_ofTexts xs
  simp [Restores, ofJson, toJson, Json.required, List.lookup_cons, Json.readMax_ofMax, branches]

theorem readChoice_optional (choice : Option ChoiceMember) :
    readChoice (Json.optional ChoiceMember.toJson choice) = .ok choice := by
  cases choice with
  | none => rfl
  | some m =>
    have truthy : m.toJson.truthy = true := rfl
    have restored : ChoiceMember.ofJson m.toJson = .ok m := m.restores
    simp [readChoice, Json.optional, truthy, restored]

theorem Element.restores_of {e : Element} (ref : e.typeRef.Canonical)
    (min : e.min.Faithful Json.int? .int) (nillable : e.nillable.Faithful Json.bool? .bool)
    (optional : e.optional.Faithful Json.bool? .bool) : Restores ofJson toJson e := by
  have ref : TypeRef.ofJson e.typeRef.toJson = .ok e.typeRef := TypeRef.restores ref
  have min : (e.min.toJson .int).readLooseInt = e.min := min
  have nillable : (e.nillable.toJson .bool).readLooseBool = e.nillable := nillable
  have optional : (e.optional.toJson .bool).readLooseBool = e.optional := optional
  simp [Restores, ofJson, toJson, Json.required, Json.fieldOr, Json.field?, List.lookup_cons,
    Json.readMax_ofMax, readChoice_optional, ref, min, nillable, optional]

theorem Element.restores {e : Element} (h : e.Canonical R) : Restores ofJson toJson e :=
  restores_of h.ref (h.min.faithful fun _ => rfl) (h.nillable.faithful fun _ => rfl)
    (h.optional.faithful fun _ => rfl)

theorem lastNamed_of_mem {α : Type} {nameOf : α → String} {members : List α}
    (distinct : (members.map nameOf).Nodup) {x : α} (h : x ∈ members) :
    lastNamed nameOf members (nameOf x) = .ok x := by
  unfold lastNamed
  split
  · rename_i y hy
    have member : y ∈ members := List.mem_reverse.mp (List.mem_of_find?_eq_some hy)
    have named : nameOf y = nameOf x := by simpa using List.find?_some hy
    rw [List.inj_on_of_nodup_map distinct member h named]
  · rename_i hnone
    have := List.find?_eq_none.mp hnone x (List.mem_reverse.mpr h)
    simp at this

/-- Members of distinct names are found again by their names. -/
theorem mapM_lastNamed {α : Type} {nameOf : α → String} {members : List α}
    (distinct : (members.map nameOf).Nodup) {own : List α} (h : ∀ x ∈ own, x ∈ members) :
    (own.map nameOf).mapM (lastNamed nameOf members) = .ok own := by
  induction own with
  | nil => rfl
  | cons x rest ih =>
    have found := lastNamed_of_mem distinct (h x List.mem_cons_self)
    rw [List.map_cons, List.mapM_cons, found, ih fun y hy => h y (List.mem_cons_of_mem _ hy)]
    rfl

theorem StructuralType.restores_of {t : StructuralType} (eachAttribute : ∀ a ∈ t.attributes, a.Canonical)
    (eachElement : ∀ e ∈ t.elements, Restores Element.ofJson Element.toJson e)
    (localAttributes : (t.localAttributes.map (·.name)).mapM (lastNamed (·.name) t.attributes)
      = .ok t.localAttributes)
    (localElements : (t.localElements.map (·.name)).mapM (lastNamed (·.name) t.elements)
      = .ok t.localElements) : Restores ofJson toJson t := by
  have attributes : Json.readList Attribute.ofJson (.ofList Attribute.toJson t.attributes)
      = .ok t.attributes := Json.readList_ofList fun a ha => Attribute.restores (eachAttribute a ha)
  have elements : Json.readList Element.ofJson (.ofList Element.toJson t.elements)
      = .ok t.elements := Json.readList_ofList eachElement
  have choices : Json.readList ChoiceGroup.ofJson (.ofList ChoiceGroup.toJson t.choices)
      = .ok t.choices := Json.readList_ofList fun g _ => g.restores
  simp [Restores, ofJson, toJson, Json.required, Json.fieldOr, Json.fieldOptional, List.lookup_cons,
    Json.readOptional_str, QName.optional_restores, Json.readTexts_ofTexts, attributes, elements,
    choices, localAttributes, localElements, -List.mapM_map]

theorem StructuralType.restores {t : StructuralType} (h : t.Canonical R) :
    Restores ofJson toJson t :=
  restores_of h.eachAttribute (fun e he => Element.restores (h.eachElement e he))
    (mapM_lastNamed h.attributeNames h.localAttributes) (mapM_lastNamed h.elementNames h.localElements)

theorem ScalarAlias.restores {a : ScalarAlias} (h : a.Canonical) : Restores ofJson toJson a := by
  have scalar : ScalarKind.ofName a.scalar.name = a.scalar := h
  simp [Restores, ofJson, toJson, Json.required, Json.fieldOr, Json.fieldOptional, List.lookup_cons,
    Json.readOptional_str, QName.optional_restores, Json.readOptional_texts, scalar]

theorem Operation.restores (o : Operation) : Restores ofJson toJson o := by
  simp [Restores, ofJson, toJson, Json.required, Json.fieldOr, Json.fieldOptional, List.lookup_cons,
    Json.readOptional_str, QName.optional_restores, Json.readTexts_ofTexts]

theorem Context.restores (context : Context) : Restores ofJson toJson context := by
  obtain ⟨element, uri, referencedBy, file, suggestion⟩ := context
  cases element <;> cases uri <;> cases referencedBy <;> cases file <;> cases suggestion <;> rfl

theorem Diagnostic.restores (d : Diagnostic) : Restores ofJson toJson d := by
  have context : Context.ofJson d.context.toJson = .ok d.context := d.context.restores
  simp [Restores, ofJson, toJson, Json.required, Json.fieldOr, List.lookup_cons, context]

theorem PropertyInfo.restores {p : PropertyInfo} (min : p.min.Faithful Json.int? .int)
    (nillable : p.nillable.Faithful Json.bool? .bool) : Restores ofJson toJson p := by
  have min : (p.min.toJson .int).readLooseInt = p.min := min
  have nillable : (p.nillable.toJson .bool).readLooseBool = p.nillable := nillable
  simp [Restores, ofJson, toJson, Json.required, List.lookup_cons, Json.readMax_ofMax, min, nillable]

theorem Routes.restores (routes : Routes) : Restores ofJson toJson routes :=
  Json.readTable_ofTable fun _ _ => Json.readTable_ofTable fun _ _ => Json.readOptional_str _

theorem Marshalling.restores_of {m : Marshalling} (each : ∀ x ∈ m.properties, ∀ y ∈ x.2,
    Restores PropertyInfo.ofJson PropertyInfo.toJson y.2) : Restores ofJson toJson m := by
  have attributes : Json.readTable Json.readTexts (.ofTable .ofTexts m.attributes)
      = .ok m.attributes := Json.readTable_ofTable fun x _ => Json.readTexts_ofTexts x.2
  have children : Routes.ofJson (Routes.toJson m.children) = .ok m.children := Routes.restores _
  have properties : Json.readTable (Json.readTable PropertyInfo.ofJson)
        (.ofTable (.ofTable PropertyInfo.toJson) m.properties) = .ok m.properties :=
    Json.readTable_ofTable fun x hx => Json.readTable_ofTable (each x hx)
  simp [Restores, ofJson, toJson, Json.fieldOr, List.lookup_cons, attributes, children, properties]

theorem Marshalling.restores {types : List StructuralType} (h : ∀ t ∈ types, t.Canonical R) :
    Restores ofJson toJson (ofTypes types) := by
  apply restores_of
  intro x hx y hy
  obtain ⟨t, ht, rfl⟩ := List.mem_map.mp (mem_putAll hx)
  obtain ⟨e, he, rfl⟩ := List.mem_map.mp (mem_putAll hy)
  have canonical := (h t ht).eachElement e he
  exact PropertyInfo.restores (canonical.min.faithful fun _ => rfl)
    (canonical.nillable.faithful fun _ => rfl)

/-! ## Options -/

/-- A name that is held is not read as missing. -/
theorem Loose.Canonical.named {name : Loose String} (h : name.Canonical R Json.str?)
    (notNull : name ≠ .other .null) : name.Faithful Json.str? .str ∧ name.toJson .str ≠ .null := by
  refine ⟨h.faithful fun _ => rfl, ?_⟩
  cases name with
  | own s => exact nofun
  | other j => exact fun e => notNull (congrArg _ e)

namespace Options

theorem Canonical.faithful {options : Options} (h : options.Canonical R) : options.Faithful where
  failOnUnresolved := h.failOnUnresolved.faithful fun _ => rfl
  nillableAsOptional := h.nillableAsOptional.faithful fun _ => rfl
  attributesKey := h.attributesKey.faithful fun _ => rfl
  attributesKeyHolds := h.attributesKeyHolds
  clientName name hn := (h.clientName name hn).1.named (h.clientName name hn).2

theorem entry_plain {key : String} (hp : key ≠ "primitive") (hc : configurationNames.lookup key = none)
    (value : Json) : entry key value = [(key, value)] := by
  cases value <;> simp [entry, hp, hc]

theorem entries_toEntries (options : Options) : entries options.toEntries = options.toEntries := by
  have plain : ∀ key ∈ names, ∀ value, entry key value = [(key, value)] := by
    intro key hkey value
    simp only [names, List.mem_cons, List.not_mem_nil, or_false] at hkey
    rcases hkey with rfl | rfl | rfl | rfl | rfl | rfl | rfl | rfl | rfl
    all_goals exact entry_plain (by decide) (by decide) value
  have all : ∀ given : List (String × Json), (∀ x ∈ given, x.1 ∈ names) → entries given = given := by
    intro given h
    induction given with
    | nil => rfl
    | cons x rest ih =>
      rw [entries, plain x.1 (h x List.mem_cons_self), ih fun y hy => h y (List.mem_cons_of_mem _ hy)]
      rfl
  apply all
  intro x hx
  have : x.1 ∈ options.toEntries.map Prod.fst := List.mem_map_of_mem hx
  exact this

theorem keys_toEntries (options : Options) : options.toEntries.map Prod.fst = names := rfl

theorem switch_own {given : List (String × Json)} {name : String} {x : Loose Bool}
    (h : x.Faithful Json.bool? .bool) (hl : given.lookup name = some (x.toJson .bool)) :
    switch given name = x := by
  rw [switch, hl]
  exact h

theorem strategy_own {given : List (String × Json)} {name : String} {s : Strategy}
    (hl : given.lookup name = some (.str s.name)) : strategy given name = .ok s := by
  cases s
  rw [strategy, hl]
  rfl

theorem choicePolicy_own {given : List (String × Json)} {policy : ChoicePolicy}
    (hl : given.lookup "choice" = some (.str policy.name)) : choicePolicy given = .ok policy := by
  cases policy <;> rw [choicePolicy, hl] <;> rfl

theorem attributesKeyOf_own {given : List (String × Json)} {key : Loose String}
    (h : key.Faithful Json.str? .str) (holds : (key.toJson .str).truthy = true)
    (hl : given.lookup "attributes_key" = some (key.toJson .str)) :
    attributesKeyOf given = .ok key := by
  have own : Loose.ofJson Json.str? (key.toJson .str) = key := h
  rw [attributesKeyOf, hl]
  simp only [holds, if_true, own]

theorem clientNameOf_of_lookup {given : List (String × Json)} {value : Json}
    (hl : given.lookup "client_name" = some value) (hv : value ≠ .null) :
    clientNameOf given = some (.ofJson Json.str? value) := by
  rw [clientNameOf, hl]
  cases value <;> first | rfl | exact absurd rfl hv

theorem clientNameOf_own {given : List (String × Json)} {client : Option (Loose String)}
    (h : ∀ name ∈ client, name.Faithful Json.str? .str ∧ name.toJson .str ≠ .null)
    (hl : given.lookup "client_name" = some (Json.optional (·.toJson .str) client)) :
    clientNameOf given = client := by
  cases client with
  | none =>
    rw [clientNameOf, hl]
    rfl
  | some name =>
    obtain ⟨faithful, notNull⟩ := h name rfl
    exact (clientNameOf_of_lookup hl notNull).trans (congrArg some faithful)

/-- What options are written as gives the options. -/
theorem ofEntries_toEntries {options : Options} (h : options.Faithful) :
    ofEntries options.toEntries = .ok options := by
  have distinct : putAll options.toEntries = options.toEntries :=
    putAll_of_nodup (by rw [keys_toEntries]; decide)
  have known : ((options.toEntries.map (·.1)).filter fun name => !names.contains name) = [] := rfl
  unfold ofEntries
  simp only [distinct, known, List.isEmpty_nil, Bool.not_true, Bool.false_eq_true, if_false]
  rw [strategy_own (s := options.int64) rfl, strategy_own (s := options.bigInteger) rfl,
    strategy_own (s := options.decimal) rfl, strategy_own (s := options.date) rfl,
    @choicePolicy_own options.toEntries options.choice rfl,
    attributesKeyOf_own h.attributesKey h.attributesKeyHolds rfl,
    switch_own h.failOnUnresolved rfl, switch_own h.nillableAsOptional rfl,
    clientNameOf_own h.clientName rfl]
  rfl

theorem restores {options : Options} (h : options.Faithful) : Restores ofJson toJson options := by
  show (resolve options.toEntries []).mapError ReadingError.options = _
  rw [resolve, entries_toEntries, entries, List.append_nil, ofEntries_toEntries h]
  rfl

end Options

/-! ## The catalog -/

theorem Catalog.restores_of {c : Catalog} (eachAlias : ∀ a ∈ c.aliases, a.Canonical)
    (eachType : ∀ t ∈ c.types, Restores StructuralType.ofJson StructuralType.toJson t)
    (marshalling : Restores Marshalling.ofJson Marshalling.toJson c.marshalling)
    (options : c.options.Faithful) (source : c.source.Faithful Json.str? .str)
    (serviceName : ∀ name ∈ c.serviceName, name.Faithful Json.str? .str ∧ name.toJson .str ≠ .null)
    (displayName : c.displayName.Faithful Json.str? .str)
    (targetNamespace : c.targetNamespace.Faithful Json.str? .str) : Restores ofJson toJson c := by
  have aliases : Json.readList ScalarAlias.ofJson (.ofList ScalarAlias.toJson c.aliases)
      = .ok c.aliases := Json.readList_ofList fun a ha => ScalarAlias.restores (eachAlias a ha)
  have types : Json.readList StructuralType.ofJson (.ofList StructuralType.toJson c.types)
      = .ok c.types := Json.readList_ofList eachType
  have operations : Json.readList Operation.ofJson (.ofList Operation.toJson c.operations)
      = .ok c.operations := Json.readList_ofList fun o _ => o.restores
  have marshalling : Marshalling.ofJson c.marshalling.toJson = .ok c.marshalling := marshalling
  have options : Options.ofJson c.options.toJson = .ok c.options := Options.restores options
  have source : (c.source.toJson .str).readLooseText = c.source := source
  have displayName : (c.displayName.toJson .str).readLooseText = c.displayName := displayName
  have targetNamespace : (c.targetNamespace.toJson .str).readLooseText = c.targetNamespace :=
    targetNamespace
  have serviceName : (Json.optional (·.toJson .str) c.serviceName).readOptional
      (fun j => .ok j.readLooseText) = .ok c.serviceName :=
    Json.readOptional_optional fun name hn => ⟨congrArg _ (serviceName name hn).1, (serviceName name hn).2⟩
  have diagnostics : Json.readList Diagnostic.ofJson (.ofList Diagnostic.toJson c.diagnostics)
      = .ok c.diagnostics := Json.readList_ofList fun d _ => d.restores
  have version : isFormatVersion (.int formatVersion) = true := rfl
  simp [Restores, ofJson, toJson, Json.required, Json.fieldOr, Json.fieldOptional, Json.field?,
    List.lookup_cons, Json.readTexts_ofTexts, aliases, types, operations, marshalling, options,
    source, displayName, targetNamespace, serviceName, diagnostics, version]

theorem Catalog.restores {c : Catalog} (h : c.Canonical R) : Restores ofJson toJson c := by
  have marshalling : Restores Marshalling.ofJson Marshalling.toJson c.marshalling := by
    rw [h.marshalling]
    exact Marshalling.restores h.type
  exact restores_of h.scalar (fun t ht => StructuralType.restores (h.type t ht)) marshalling
    h.options.faithful (h.source.faithful fun _ => rfl)
    (fun name hn => (h.serviceName name hn).1.named (h.serviceName name hn).2)
    (h.displayName.faithful fun _ => rfl) (h.targetNamespace.faithful fun _ => rfl)

end WsdlCatalog
