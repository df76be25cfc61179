/-
  WsdlCatalog.Proofs.Redeclaration — what becomes of types where a name is declared again.

  Declarations of one name in a type, or in it and its bases, become one member, which has the
  type of one of them (`Declares`). Only labels are compared. Where both types are given by
  their names, the label is that of what the name denotes, so the types are the same. A simple
  type that stands inside an element or attribute has the label of what it restricts, so its
  enumeration can be lost, or be put on what does not have it.

  Proved: members come of declarations, which agree in their labels, and in their types where
  these are given by name (`SchemaSet.compile_keepsTypings`); where one stands inside an element
  they need not (`SchemaSet.restricted_isLost`).
-/

import WsdlCatalog.Proofs.Settlement

namespace WsdlCatalog

open Compile

/-! ## Declarations of members -/

/-- The members of a type are made from what the declarations of a definition say, and from its
base. -/
structure Arises (S : Setting) (c : Catalog) (owner : String) (site : Site) (t : StructuralType)
    (es as : List (Slot × Typing)) : Prop where
  canonical : t.name = some owner
  told : Says S owner site es as
  merges : c.Merges t (es ++ as)

/-- An element or attribute of a type, or of one that it extends, says something of a member. -/
inductive Declares (S : Setting) (c : Catalog) :
    StructuralType → Space → Site → Slot → Typing → Prop where
  | ofElement {t : StructuralType} {owner : String} {site e : Site} {es as : List (Slot × Typing)}
    {slot : Slot} {x : Typing} (h : Arises S c owner site t es as)
    (he : (e, slot, x) ∈ (contentSites S.declarations owner site).zip es) :
    Declares S c t .element e slot x
  | ofAttribute {t : StructuralType} {owner : String} {site a : Site} {es as : List (Slot × Typing)}
    {slot : Slot} {x : Typing} (h : Arises S c owner site t es as)
    (ha : (a, slot, x) ∈ (attributeSites S.declarations owner site).zip as) :
    Declares S c t .attributes a slot x
  | inherited {t base : StructuralType} {space : Space} {site : Site} {slot : Slot} {x : Typing}
    (hb : c.IsBase t base) (h : Declares S c base space site slot x) :
    Declares S c t space site slot x

/-- What is said is said somewhere. -/
theorem exists_site {Told : Site → Slot × Typing → Prop} {sites : List Site}
    {said : List (Slot × Typing)} (h : List.Forall₂ Told sites said) {x : Slot × Typing}
    (hx : x ∈ said) : ∃ site, (site, x) ∈ sites.zip said := by
  induction h with
  | nil => exact absurd hx List.not_mem_nil
  | cons _ _ ih =>
    rcases List.mem_cons.mp hx with rfl | hx
    · exact ⟨_, List.mem_cons_self⟩
    · obtain ⟨site, hs⟩ := ih hx
      exact ⟨site, List.mem_cons_of_mem _ hs⟩

theorem told_of_mem_zip {Told : Site → Slot × Typing → Prop} {sites : List Site}
    {said : List (Slot × Typing)} (h : List.Forall₂ Told sites said) {site : Site} {x : Slot × Typing}
    (hx : (site, x) ∈ sites.zip said) : Told site x :=
  (List.forall₂_iff_zip.mp h).2 hx

section

variable {S : Setting} {c : Catalog} {t : StructuralType} {space : Space} {site : Site} {slot : Slot}
  {x : Typing}

/-- Every declaration has a member that agrees with it. -/
theorem Declares.kept (all : ∀ t ∈ c.types, ∃ owner site es as, Arises S c owner site t es as)
    (h : Declares S c t space site slot x) (ht : t ∈ c.types) (admits : slot.Admits x.name) :
    ∃ y ∈ t.typings slot, y.Agrees x := by
  induction h with
  | ofElement h he => exact h.merges.kept _ _ (List.mem_append_left _ (List.of_mem_zip he).2) admits
  | ofAttribute h ha => exact h.merges.kept _ _ (List.mem_append_right _ (List.of_mem_zip ha).2) admits
  | inherited hb _ ih =>
    obtain ⟨y, hy, agrees⟩ := ih hb.1 admits
    obtain ⟨owner, site, es, as, arises⟩ := all _ ht
    exact ⟨y, arises.merges.inherited _ hb _ hy, agrees⟩

/-- A member is declared by the type, or is one of its base. -/
theorem Arises.source {owner : String} {site : Site} {es as : List (Slot × Typing)} {y : Typing}
    (h : Arises S c owner site t es as) (hy : y ∈ t.typings slot) :
    (∃ space site, Declares S c t space site slot y) ∨
      ∃ base, c.IsBase t base ∧ y ∈ base.typings slot := by
  obtain ⟨depth, elements⟩ := h.told.elements
  rcases h.merges.source slot y hy with declared | inherited
  · rcases List.mem_append.mp declared with he | ha
    · obtain ⟨e, he⟩ := exists_site elements he
      exact .inl ⟨_, e, .ofElement h he⟩
    · obtain ⟨a, ha⟩ := exists_site h.told.attributes ha
      exact .inl ⟨_, a, .ofAttribute h ha⟩
  · exact .inr inherited

/-- What a declaration says is what its element or attribute comes to, when names are settled. -/
theorem Declares.said (h : Declares S c t space site slot x) :
    (space = .element ∧ ∃ depth owner,
      ElementSays (·.Sound S S.names) S (complexTypeIn S depth true) (some owner) site (slot, x)) ∨
    (space = .attributes ∧ ∃ owner,
      AttributeSays (·.Sound S S.names) S (some owner) site (slot, x)) := by
  induction h with
  | ofElement h he =>
    obtain ⟨depth, said⟩ := h.told.elements
    exact .inl ⟨rfl, depth, _, told_of_mem_zip said he⟩
  | ofAttribute h ha => exact .inr ⟨rfl, _, told_of_mem_zip h.told.attributes ha⟩
  | inherited _ _ ih => exact ih

end

/-! ## Labels -/

namespace Compile

variable {S : Setting} {nested : Nested} {owner : Owner} {site : Site} {p q : Progress}
  {e : Referenced} {slot : Slot}

theorem declared_elementParticle (hr : Runs (elementParticle S nested site owner) p e q) :
    e.typeRef.declared = e.declared := by
  unfold elementParticle at hr
  split at hr
  · unfold elementReference at hr
    obtain ⟨_, _, -, hr⟩ := runs_bind.mp hr
    split at hr
    · obtain ⟨rfl, -⟩ := runs_pure.mp hr
      rfl
    · obtain ⟨_, _, -, hr⟩ := runs_bind.mp hr
      obtain ⟨rfl, -⟩ := runs_pure.mp hr
      rfl
  · obtain ⟨_, _, -, hr⟩ := runs_bind.mp hr
    obtain ⟨rfl, -⟩ := runs_pure.mp hr
    rfl

theorem declared_attributeReference {reference : String}
    (hr : Runs (attributeReference S reference site owner) p e q) :
    e.typeRef.declared = e.declared := by
  unfold attributeReference at hr
  obtain ⟨found, _, -, hr⟩ := runs_bind.mp hr
  split at hr
  · obtain ⟨rfl, -⟩ := runs_pure.mp hr
    rfl
  · split at hr
    · obtain ⟨rfl, -⟩ := runs_pure.mp hr
      rfl
    · split at hr
      · obtain ⟨_, _, -, hr⟩ := runs_bind.mp hr
        obtain ⟨rfl, -⟩ := runs_pure.mp hr
        rfl
      · obtain ⟨_, _, -, hr⟩ := runs_bind.mp hr
        obtain ⟨rfl, -⟩ := runs_pure.mp hr
        rfl

theorem declared_attributeAt (hr : Runs (attributeAt S owner site) p (slot, e) q) :
    e.typeRef.declared = e.declared := by
  unfold attributeAt at hr
  split at hr
  · obtain ⟨item, _, -, hr⟩ := runs_bind.mp hr
    split at hr
    · obtain ⟨he, -⟩ := runs_pure.mp hr
      obtain ⟨-, rfl⟩ := Prod.mk.inj he
      rfl
    · obtain ⟨a, _, ha, hr⟩ := runs_bind.mp hr
      obtain ⟨he, -⟩ := runs_pure.mp hr
      obtain ⟨-, rfl⟩ := Prod.mk.inj he
      exact declared_attributeReference ha
  · obtain ⟨_, _, -, hr⟩ := runs_bind.mp hr
    obtain ⟨he, -⟩ := runs_pure.mp hr
    obtain ⟨-, rfl⟩ := Prod.mk.inj he
    rfl
  · exact absurd hr runs_fail

end Compile

section

variable {S : Setting} {c : Catalog} {t : StructuralType} {space space' : Space} {site site' : Site}
  {slot : Slot} {x x' : Typing}

theorem Declares.declared (h : Declares S c t space site slot x) :
    x.typeRef.declared = x.declared := by
  rcases h.said with ⟨-, _, _, _, e, _, -, hr, he⟩ | ⟨-, _, _, _, a, _, -, hr, ha⟩
  · obtain ⟨-, rfl⟩ := Prod.mk.inj he
    exact declared_elementParticle hr
  · obtain ⟨-, rfl⟩ := Prod.mk.inj ha
    exact declared_attributeAt hr

/-- A type that is given by its name is what the name denotes, or nothing. -/
theorem Declares.givenByName (hS : S.WellFormed) (tell : S.names.Tell S)
    (h : Declares S c t space site slot x) (hn : S.ByName space site) :
    S.GivenByName x.typeRef := by
  rcases h.said with ⟨rfl, _, _, _, e, _, hp, hr, he⟩ | ⟨rfl, _, _, slot', a, _, hp, hr, ha⟩
  · obtain ⟨-, rfl⟩ := Prod.mk.inj he
    exact byName_elementParticle hS tell hp hn hr
  · obtain ⟨rfl, rfl⟩ := Prod.mk.inj ha
    exact byName_attributeAt hS tell hp hn hr

/-- Declarations of one label that give their types by name give the same type. -/
theorem Declares.same (hS : S.WellFormed) (tell : S.names.Tell S) (h : Declares S c t space site slot x)
    (h' : Declares S c t space' site' slot x') (hn : S.ByName space site) (hn' : S.ByName space' site')
    (label : x.declared = x'.declared)
    (known : x.typeRef.isUnresolved = x'.typeRef.isUnresolved) : x.typeRef = x'.typeRef :=
  Setting.GivenByName.unique (h.givenByName hS tell hn) (h'.givenByName hS tell hn')
    (h.declared.trans (label.trans h'.declared.symm)) known

end

/-! ## Types of catalogs -/

namespace Compile

variable {S : Setting} {set : SchemaSet} {q : Progress} {c : Catalog} {compiled : Progress}
  {types : List (Option String × StructuralType)} {aliases : List ScalarAlias}
  {sorted : List StructuralType} {operations : List Operation} {serviceName : Option String}
  {displayName : Loose String}

section

variable (h : Staged S set .start q c compiled types aliases sorted operations serviceName displayName)

include h

theorem Staged.arises (hS : S.WellFormed) :
    ∀ t ∈ c.types, ∃ owner site es as, Arises S c owner site t es as := by
  intro t ht
  obtain ⟨reserved, hr, hc⟩ := h.jobs
  obtain ⟨-, settled⟩ := settled_of_jobs hS hr hc
  obtain ⟨owner, name, anonymous, site, own, hown, entry, completes⟩ := h.origin ht
  obtain ⟨owner', site', es, as, key, told, ofSaid⟩ := settled.said _ hown
  obtain rfl := Option.some.inj key
  have comes := entry.made.comesOf entry.defined completes
  exact ⟨owner, site', es, as, comes.canonical, told, h.merges comes ofSaid⟩

/-- Every member is declared by the type or by one that it extends. -/
theorem Staged.declared_of_full (hS : S.WellFormed) {n : Nat} {k : Owner} {t : StructuralType}
    (full : Extension.Full compiled.inventory.types n k t) {slot : Slot} {y : Typing}
    (hy : y ∈ t.typings slot) : ∃ space site, Declares S c t space site slot y := by
  induction full with
  | own hl hb =>
    obtain ⟨owner, site, es, as, arises⟩ := h.arises hS _ (h.mem_types_iff.mpr ⟨_, _, .own hl hb⟩)
    rcases arises.source hy with declared | ⟨base, extended, -⟩
    · exact declared
    · obtain ⟨-, b, hb', -⟩ := extended
      rw [hb] at hb'
      cases hb'
  | extending hl hb hbase hc ih =>
    rename_i n' k' own base t' b
    have full' := Extension.Full.extending hl hb hbase hc
    have named := hbase.named h.established.entered.own
    have same : t'.base = own.base := (h.completes_of_full hl full').same.2.2.1
    obtain ⟨owner, site, es, as, arises⟩ := h.arises hS _ (h.mem_types_iff.mpr ⟨_, _, full'⟩)
    rcases arises.source hy with declared | ⟨other, extended, inherited⟩
    · exact declared
    · obtain ⟨there, b', hb', named'⟩ := extended
      have equal : other.name = base.name := by
        rw [named', named, ← hb', same, hb]
      have held := h.mem_types_iff.mpr ⟨_, _, hbase⟩
      obtain rfl := List.inj_on_of_nodup_map h.nodup_names there held equal
      obtain ⟨space, site, declares⟩ := ih inherited
      exact ⟨space, site, .inherited ⟨there, b', hb', named'⟩ declares⟩

end

end Compile

namespace SchemaSet

variable {set : SchemaSet} {options : Options} {c : Catalog}

/-- Every type is made from what a definition says. -/
theorem exists_arises {S : Setting} (hs : Setting.ofSchemaSet set options = .ok S)
    (h : (set.compile options).result = .ok c)
    (plain : ∀ d ∈ set.documents, '\x7d' ∉ d.targetNamespace.toList) :
    ∀ t ∈ c.types, ∃ owner site es as, Arises S c owner site t es as := by
  obtain ⟨_, _, _, _, _, _, _, _, staged⟩ := exists_staged hs h
  exact staged.arises (Setting.wellFormed hs plain)

/-- The types of the members of a catalog, where namespaces have no closing brace in them. Every
member of a type is declared by it or by one that it extends, and every declaration has a member
of its name and label. Declarations of one member have one label; if both give their types by
name, and both or none of the types are known, the types are the same. -/
theorem compile_keepsTypings (h : (set.compile options).result = .ok c)
    (plain : ∀ d ∈ set.documents, '\x7d' ∉ d.targetNamespace.toList) :
    ∃ S, Setting.ofSchemaSet set options = .ok S ∧
      ∀ t ∈ c.types, (∃ owner site es as, Arises S c owner site t es as) ∧
        ∀ slot, (∀ y ∈ t.typings slot, ∃ space site, Declares S c t space site slot y) ∧
          (∀ space site x, Declares S c t space site slot x → slot.Admits x.name →
            ∃ y ∈ t.typings slot, y.Agrees x) ∧
          ∀ space site x space' site' x', Declares S c t space site slot x →
            Declares S c t space' site' slot x' → x.name = x'.name → slot.Admits x.name →
            x.typeRef.declared = x'.typeRef.declared ∧
              (S.ByName space site → S.ByName space' site' →
                x.typeRef.isUnresolved = x'.typeRef.isUnresolved → x.typeRef = x'.typeRef) := by
  obtain ⟨S, hs⟩ := exists_setting h
  obtain ⟨_, _, _, _, _, _, _, _, staged⟩ := exists_staged hs h
  have hS := Setting.wellFormed hs plain
  have tell : S.names.Tell S := by
    obtain ⟨reserved, hr, hc⟩ := staged.jobs
    exact (settled_of_jobs hS hr hc).1.tell
  have all := exists_arises hs h plain
  refine ⟨S, hs, fun t ht => ⟨all t ht, fun slot => ⟨fun y hy => ?_, ?_, ?_⟩⟩⟩
  · obtain ⟨n, k, full⟩ := staged.mem_types_iff.mp ht
    exact staged.declared_of_full hS full hy
  · exact fun space site x declares admits => declares.kept all ht admits
  · intro space site x space' site' x' declares declares' named admits
    obtain ⟨y, hy, agrees⟩ := declares.kept all ht admits
    obtain ⟨y', hy', agrees'⟩ := declares'.kept all ht (named ▸ admits)
    have one : y = y' :=
      List.inj_on_of_nodup_map (StructuralType.nodup_typings (staged.distinct t ht) slot) hy hy'
        (agrees.1.trans (named.trans agrees'.1.symm))
    have label : x.declared = x'.declared :=
      agrees.2.symm.trans ((congrArg Typing.declared one).trans agrees'.2)
    exact ⟨declares.declared.trans (label.trans declares'.declared.symm),
      fun hn hn' known => declares.same hS tell declares' hn hn' label known⟩

/-! ## An element that is declared twice -/

def switchRestriction : Xml.Node :=
  let bindings : List (String × Option String) := [("xs", some Vocabulary.xsd)]
  ⟨Vocabulary.xsd, "restriction", [("base", "xs:string")], bindings,
    [⟨Vocabulary.xsd, "enumeration", [("value", "on")], bindings, [], "", 4⟩], "", 4⟩

def switchType : Xml.Node :=
  ⟨Vocabulary.xsd, "simpleType", [], [("xs", some Vocabulary.xsd)], [switchRestriction], "", 4⟩

def switchElement : Xml.Node :=
  ⟨Vocabulary.xsd, "element", [("name", "a")], [("xs", some Vocabulary.xsd)], [switchType], "", 4⟩

/-- An element of the same name, with a type that is given by name. -/
def textElement : Xml.Node :=
  ⟨Vocabulary.xsd, "element", [("name", "a"), ("type", "xs:string")],
    [("xs", some Vocabulary.xsd)], [], "", 3⟩

def repeatingType (second : Xml.Node) : Site :=
  let bindings : List (String × Option String) := [("xs", some Vocabulary.xsd)]
  let sequence : Xml.Node :=
    ⟨Vocabulary.xsd, "sequence", [], bindings, [textElement, second], "", 2⟩
  let type : Xml.Node :=
    ⟨Vocabulary.xsd, "complexType", [("name", "T")], bindings, [sequence], "", 2⟩
  ⟨type, ⟨"memory:t.xsd", "urn:t", ⟨Vocabulary.xsd, "schema", [], bindings, [type], "", 1⟩⟩⟩

def repeating (second : Xml.Node) : SchemaSet :=
  ⟨"memory:t.xsd", [(repeatingType second).document], none⟩

def repeatingSetting (second : Xml.Node) : Setting :=
  ⟨{}, ⟨[(.type, ⟨⟨some "urn:t", "T"⟩, repeatingType second⟩)]⟩, 2⟩

theorem plain_repeating (second : Xml.Node) :
    ∀ d ∈ (repeating second).documents, '\x7d' ∉ d.targetNamespace.toList := by
  intro d hd
  cases List.mem_singleton.mp hd
  exact (by decide : '\x7d' ∉ "urn:t".toList)

/-- The only definition is that of the type, if nothing inside it has a complex type. -/
theorem site_of_described {second : Xml.Node}
    (flat : ∀ owner, ∀ e ∈ contentSites (repeatingSetting second).declarations owner
      (repeatingType second), e.inner? = none) {site : Site} (h : Described (repeatingSetting second) site) :
    site = repeatingType second := by
  induction h with
  | type hd _ =>
    cases List.mem_singleton.mp hd
    rfl
  | element hd _ => cases hd
  | nested _ he hi ih =>
    subst ih
    rw [flat _ _ he] at hi
    cases hi

/-- The type declares what its two elements come to, one of which is a text. -/
theorem declares_repeating {second : Xml.Node} {c : Catalog} {t : StructuralType} {e : Referenced}
    (sites : ∀ owner, contentSites (repeatingSetting second).declarations owner (repeatingType second)
      = [(repeatingType second).atNode textElement, (repeatingType second).atNode second])
    (inner : ((repeatingType second).atNode second).inner? = none)
    (he : ∀ nested, elementParticle (repeatingSetting second) nested
      ((repeatingType second).atNode second) (some "T") = pure e)
    (arises : ∃ owner site es as, Arises (repeatingSetting second) c owner site t es as)
    (named : t.name = some "T") :
    Declares (repeatingSetting second) c t .element ((repeatingType second).atNode textElement)
        .elements ⟨"a", "xs:string", Builtin.ref {} .stringType⟩ ∧
      Declares (repeatingSetting second) c t .element ((repeatingType second).atNode second)
        .elements e.typing := by
  obtain ⟨owner, site, es, as, arises⟩ := arises
  obtain rfl := Option.some.inj (arises.canonical.symm.trans named)
  have here : site = repeatingType second := by
    refine site_of_described (fun _ x hx => ?_) arises.told.described
    rw [sites] at hx
    rcases List.mem_pair.mp hx with rfl | rfl
    · rfl
    · exact inner
  subst here
  obtain ⟨depth, elements⟩ := arises.told.elements
  rw [sites] at elements
  obtain ⟨x, rest, first, more, rfl⟩ := List.forall₂_cons_left_iff.mp elements
  obtain ⟨x', _, last, -, rfl⟩ := List.forall₂_cons_left_iff.mp more
  have text : x = (.elements, ⟨"a", "xs:string", Builtin.ref {} .stringType⟩) := by
    obtain ⟨p, a, q, -, typed, rfl⟩ := first
    obtain ⟨rfl, -⟩ := runs_pure.mp typed
    rfl
  have other : x' = (.elements, e.typing) := by
    obtain ⟨p, a, q, -, typed, rfl⟩ := last
    rw [he] at typed
    obtain ⟨rfl, -⟩ := runs_pure.mp typed
    rfl
  subst text other
  constructor
  · exact .ofElement arises (by rw [sites]; exact List.mem_cons_self)
  · exact .ofElement arises (by rw [sites]; exact List.mem_cons_of_mem _ List.mem_cons_self)

def keepsText (result : Except Refusal Catalog) : Bool :=
  match result with
  | .ok c => c.types.map (fun t => (t.name, t.typings .elements)) ==
      [(some "T", [⟨"a", "xs:string", Builtin.ref {} .stringType⟩])]
  | .error _ => false

theorem exists_of_keepsText (result : Except Refusal Catalog) (h : keepsText result = true) :
    ∃ c, result = .ok c ∧ ∃ t ∈ c.types, t.name = some "T" ∧
      t.typings .elements = [⟨"a", "xs:string", Builtin.ref {} .stringType⟩] := by
  unfold keepsText at h
  split at h
  · rename_i c
    obtain ⟨t, ht, said⟩ := List.mem_map.mp (eq_of_beq h ▸ List.mem_singleton_self _)
    obtain ⟨named, typings⟩ := Prod.mk.inj said
    exact ⟨c, rfl, t, ht, named, typings⟩
  · cases h

theorem byName_textElement (second : Xml.Node) :
    (repeatingSetting second).ByName .element ((repeatingType second).atNode textElement) :=
  (rfl : textElement.hasInnerType = false)

theorem setting_textElement :
    Setting.ofSchemaSet (repeating textElement) {} = .ok (repeatingSetting textElement) := rfl

/-- A text that is declared twice is a text. -/
theorem repeated_isKept : ∃ S c, Setting.ofSchemaSet (repeating textElement) {} = .ok S ∧
    ((repeating textElement).compile {}).result = .ok c ∧
    ∃ t ∈ c.types, ∃ site x site' x', Declares S c t .element site .elements x ∧
      Declares S c t .element site' .elements x' ∧ x.typeRef = x'.typeRef := by
  obtain ⟨c, run, t, ht, named, -⟩ :=
    exists_of_keepsText ((repeating textElement).compile {}).result (by decide +kernel)
  obtain ⟨S, hs, all⟩ := compile_keepsTypings run (plain_repeating textElement)
  obtain rfl := Except.ok.inj (setting_textElement.symm.trans hs)
  obtain ⟨arises, members⟩ := all t ht
  obtain ⟨first, last⟩ := declares_repeating (e := ⟨"a", "xs:string", Builtin.ref {} .stringType, false⟩)
    (fun _ => rfl) rfl (fun _ => rfl) arises named
  obtain ⟨-, same⟩ := (members .elements).2.2 _ _ _ _ _ _ first last rfl
    (by decide : "a" ≠ textSlotName)
  exact ⟨_, c, hs, run, t, ht, _, _, _, _, first, last,
    same (byName_textElement textElement) (byName_textElement textElement) rfl⟩

/-! ## An element with a type inside it -/

theorem setting_switchElement :
    Setting.ofSchemaSet (repeating switchElement) {} = .ok (repeatingSetting switchElement) := rfl

theorem derivation_switchType :
    SimpleDerivation.ofNode switchType = ⟨.named "xs:string" switchRestriction, [.values ["on"]]⟩ := by
  rw [SimpleDerivation.ofNode_eq]
  rfl

theorem elementParticle_switchElement (nested : Nested) (owner : Owner) :
    elementParticle (repeatingSetting switchElement) nested
        ((repeatingType switchElement).atNode switchElement) owner
      = pure ⟨"a", "xs:string", ⟨.scalar, "xs:string", .text, none, some ["on"], false⟩, false⟩ := by
  have shape : simpleShapeWith (repeatingSetting switchElement)
      (compileAlias (repeatingSetting switchElement)) owner
      ((repeatingType switchElement).atNode switchType) = pure ⟨.text, "xs:string", some ["on"], false⟩ := by
    unfold simpleShapeWith Site.atNode
    rw [derivation_switchType]
    rfl
  show (do
    let ref ← SimpleShape.toRef <$> simpleShapeWith (repeatingSetting switchElement)
      (compileAlias (repeatingSetting switchElement)) owner
      ((repeatingType switchElement).atNode switchType)
    return (⟨"a", ref.declared, ref, false⟩ : Referenced)) = _
  rw [shape]
  rfl

/-- A text and one of some values are declared under one name; the type is accepted, and the values
are lost. -/
theorem restricted_isLost : ∃ S c, Setting.ofSchemaSet (repeating switchElement) {} = .ok S ∧
    ((repeating switchElement).compile {}).result = .ok c ∧
    ∃ t ∈ c.types, ∃ site x site' x', Declares S c t .element site .elements x ∧
      Declares S c t .element site' .elements x' ∧ t.typings .elements = [x] ∧
      x.name = x'.name ∧ x.typeRef.kind = .scalar ∧ x'.typeRef.kind = .scalar ∧
      x.typeRef.enumeration = none ∧ x'.typeRef.enumeration = some ["on"] := by
  obtain ⟨c, run, t, ht, named, typings⟩ :=
    exists_of_keepsText ((repeating switchElement).compile {}).result (by decide +kernel)
  have arises := exists_arises setting_switchElement run (plain_repeating switchElement) t ht
  obtain ⟨first, last⟩ := declares_repeating (fun _ => rfl) rfl
    (fun nested => elementParticle_switchElement nested _) arises named
  exact ⟨_, c, setting_switchElement, run, t, ht, _, _, _, _, first, last, typings, rfl, rfl, rfl,
    rfl, rfl⟩

end SchemaSet

end WsdlCatalog
