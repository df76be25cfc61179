/-
  WsdlCatalog.Proofs.TextSlot — the member that holds simple or mixed content.

  A type gets a text slot for simple content, and for text mixed into its elements. No element
  that it declares keeps the name of the slot, so the slot is the only element of this name,
  and the last one. A type that extends another one has the slot if either of them has it.
  It is mixed then if its base is; that its base has simple content it does not say.

  Proved: the slot of a type of a catalog is last and alone, and it is there iff the type is
  mixed or it has simple content or extends, over any number of types, one that has
  (`SchemaSet.compile_slotted`). The flags of the type tell as much except where such a base is
  the only reason for the slot, and there they tell nothing (`SchemaSet.inheritedSlot_untold`).
-/

import WsdlCatalog.Proofs.LocalMembers

namespace WsdlCatalog

namespace StructuralType

/-! ## One slot, behind all other elements -/

/-- The text slot, if there is one, is the last element, and no other one has its name. -/
def SlotLast (t : StructuralType) : Prop :=
  ∃ members, t.elements = members ++ t.textSlot?.toList ∧ ∀ e ∈ members, e.name ≠ textSlotName

variable {t base t' : StructuralType}

/-- Elements of other names, with a slot behind them or none. -/
theorem textSlot?_of_append {members : List Element} {slot : Option Element}
    (h : t.elements = members ++ slot.toList) (plain : ∀ e ∈ members, e.isText = false)
    (text : ∀ e, slot = some e → e.isText = true) : t.textSlot? = slot := by
  have others : members.find? (·.isText) = none := by
    apply List.find?_eq_none.mpr
    intro e he
    rw [plain e he]
    exact Bool.false_ne_true
  unfold textSlot?
  rw [h, List.find?_append, others, Option.none_or]
  cases slot with
  | none => rfl
  | some e => exact List.find?_cons_of_pos (text e rfl)

theorem slotLast_of_append {members : List Element} {slot : Option Element}
    (h : t.elements = members ++ slot.toList) (plain : ∀ e ∈ members, e.isText = false)
    (text : ∀ e, slot = some e → e.isText = true) : t.SlotLast := by
  have found := textSlot?_of_append h plain text
  exact ⟨members, found.symm ▸ h, fun e he => ne_of_beq_false (plain e he)⟩

theorem mem_text_elementNames : textSlotName ∈ t.elementNames ↔ t.textSlot?.isSome = true := by
  unfold textSlot?
  rw [List.find?_isSome]
  constructor
  · intro h
    obtain ⟨e, he, name⟩ := List.mem_map.mp h
    exact ⟨e, he, beq_iff_eq.mpr name⟩
  · intro given
    rcases given with ⟨e, he, text⟩
    exact List.mem_map.mpr ⟨e, he, eq_of_beq text⟩

/-! ## Types from their definitions -/

/-- The elements that a body declares, and the slot that it asks for. -/
theorem elements_toType (options : Options) (body : Compile.Body) (canonical : Owner) (name : QName)
    (documentation : Option String) (anonymous : Bool) :
    ∃ members : List Element, ∃ slot : Option Element,
      (body.toType options canonical name documentation anonymous).elements
        = members ++ slot.toList ∧
      (∀ e ∈ members, e.isText = false) ∧ (∀ e, slot = some e → e.isText = true) ∧
      (slot.isSome = true ↔ body.mixed = true ∨ body.simple.isSome = true) := by
  refine ⟨_, _, rfl, ?_, ?_, ?_⟩
  · rw [List.forall_mem_map]
    intro leaf hl
    exact beq_false_of_ne (bne_iff_ne.mp (List.mem_filter.mp hl).2)
  · intro e he
    obtain ⟨ref, -, rfl⟩ := Option.map_eq_some_iff.mp he
    rfl
  · rw [Option.isSome_map, Option.isSome_or, Bool.or_eq_true, or_comm]
    cases body.mixed <;> simp

theorem Flattened.slotLast (h : t.Flattened) : t.SlotLast := by
  obtain ⟨S, nested, owner, site, p, body, q, canonical, name, documentation, anonymous, -, rfl⟩ := h
  obtain ⟨members, slot, elements, plain, text, -⟩ :=
    elements_toType S.options body canonical name documentation anonymous
  exact slotLast_of_append elements plain text

/-- The flags of a type tell whether its definition asks for a slot. -/
theorem Flattened.mem_text_iff (h : t.Flattened) :
    textSlotName ∈ t.elementNames ↔ t.mixed = true ∨ t.simpleContent = true := by
  obtain ⟨S, nested, owner, site, p, body, q, canonical, name, documentation, anonymous, -, rfl⟩ := h
  obtain ⟨members, slot, elements, plain, text, asked⟩ :=
    elements_toType S.options body canonical name documentation anonymous
  rw [mem_text_elementNames, textSlot?_of_append elements plain text]
  exact asked

/-! ## Types with the members of their bases -/

theorem Composed.slotLast (h : Composed t base t') : t'.SlotLast := by
  refine slotLast_of_append h.elements ?_ ?_
  · intro e he
    rcases List.mem_append.mp he with he | he
    · obtain ⟨inherited, hi, rfl⟩ := List.mem_map.mp he
      rw [isText_merge]
      exact (mem_untexted.mp hi).2
    · exact (mem_untexted.mp he).2
  · intro e he
    exact beq_iff_eq.mpr (StructuralType.mem_text (Option.mem_toList.mpr he)).2

/-- A type has a slot if it was given one or its base has one. -/
theorem Composed.mem_text_iff (h : Composed t base t')
    (own : (t.localElements.map Element.name).Nodup) :
    textSlotName ∈ t'.elementNames ↔
      textSlotName ∈ t.localElementNames ∨ textSlotName ∈ base.elementNames := by
  have given : textSlotName ∈ t.localElementNames ↔ textSlotName ∈ t'.localElementNames := by
    unfold localElementNames
    rw [← names_shifted t base, h.localElements]
    constructor
    · intro hm
      obtain ⟨e, he, name⟩ := List.mem_map.mp hm
      refine List.mem_map.mpr ⟨e, List.mem_filter.mpr ⟨he, ?_⟩, name⟩
      rw [show e.isText = true from beq_iff_eq.mpr name, Bool.true_or]
    · exact fun hm => (List.filter_sublist.map Element.name).subset hm
  rw [given]
  constructor
  · intro hm
    obtain ⟨e, he, name⟩ := List.mem_map.mp hm
    rw [h.elements, List.append_assoc] at he
    have text : e.isText = true := beq_iff_eq.mpr name
    rcases List.mem_append.mp he with he | he
    · obtain ⟨inherited, hi, rfl⟩ := List.mem_map.mp he
      rw [isText_merge, (mem_untexted.mp hi).2] at text
      cases text
    · rcases List.mem_append.mp he with he | he
      · exact .inl (List.mem_map.mpr ⟨e, (mem_untexted.mp he).1, name⟩)
      · exact (StructuralType.mem_text he).1.imp (fun he => List.mem_map.mpr ⟨e, he, name⟩)
          fun he => List.mem_map.mpr ⟨e, he, name⟩
  · intro hm
    by_cases ho : textSlotName ∈ t'.localElementNames
    · obtain ⟨e, he, name⟩ := List.mem_map.mp ho
      exact List.mem_map.mpr ⟨e, h.mem_elements own he, name⟩
    · exact h.mem_text (hm.resolve_left ho) ho

end StructuralType

/-! ## Types of catalogs -/

inductive Catalog.HasSimpleContent (c : Catalog) : StructuralType → Prop where
  | own {t : StructuralType} (h : t.simpleContent = true) : HasSimpleContent c t
  | inherited {t base : StructuralType} {b : String} (hb : t.base = some b) (hm : base ∈ c.types)
    (hn : base.name = some b) (h : HasSimpleContent c base) : HasSimpleContent c t

structure Catalog.Slotted (c : Catalog) (t : StructuralType) : Prop where
  last : t.SlotLast
  present : textSlotName ∈ t.elementNames ↔ t.mixed = true ∨ c.HasSimpleContent t
  /-- The flags of the type itself tell of the slot unless simple content of a base is the only
  reason for it. -/
  flagged : (textSlotName ∈ t.elementNames ↔ t.mixed = true ∨ t.simpleContent = true) ↔
    (c.HasSimpleContent t → t.mixed = true ∨ t.simpleContent = true)

namespace Catalog

variable {c : Catalog} {t base : StructuralType} {b : String}

theorem hasSimpleContent_of_base (names : (c.types.map (·.name)).Nodup) (hb : t.base = some b)
    (hm : base ∈ c.types) (hn : base.name = some b) :
    c.HasSimpleContent t ↔ t.simpleContent = true ∨ c.HasSimpleContent base := by
  constructor
  · intro h
    cases h with
    | own h => exact .inl h
    | inherited hb' hm' hn' h =>
      obtain rfl := Option.some.inj (hb'.symm.trans hb)
      obtain rfl := List.inj_on_of_nodup_map names hm' hm (hn'.trans hn.symm)
      exact .inr h
  · intro h
    exact h.elim .own (.inherited hb hm hn)

theorem hasSimpleContent_of_none (hb : t.base = none) :
    c.HasSimpleContent t ↔ t.simpleContent = true := by
  constructor
  · intro h
    cases h with
    | own h => exact h
    | inherited hb' => cases hb.symm.trans hb'
  · exact .own

theorem Slotted.of_present (last : t.SlotLast)
    (present : textSlotName ∈ t.elementNames ↔ t.mixed = true ∨ c.HasSimpleContent t) :
    c.Slotted t := by
  refine ⟨last, present, ?_⟩
  have own : t.simpleContent = true → c.HasSimpleContent t := .own
  tauto

end Catalog

namespace StructuralType

/-- A type with the members of its base is mixed if either is, and has simple content only if it
has it by itself. -/
theorem flags_compose {t base t' : StructuralType} (h : t.compose base = .ok t') :
    t'.mixed = (t.mixed || base.mixed) ∧ t'.simpleContent = t.simpleContent := by
  unfold compose at h
  obtain ⟨attributes, -, h⟩ := ok_bind.mp h
  obtain ⟨elements, -, h⟩ := ok_bind.mp h
  cases h
  exact ⟨rfl, rfl⟩

end StructuralType

namespace Compile

variable {S : Setting} {set : SchemaSet} {q : Progress} {c : Catalog} {compiled : Progress}
  {types : List (Option String × StructuralType)} {aliases : List ScalarAlias}
  {sorted : List StructuralType} {operations : List Operation} {serviceName : Option String}
  {displayName : Loose String}

/-- The induction goes from a type that extends none up to those that extend it. -/
theorem Staged.slotted
    (h : Staged S set .start q c compiled types aliases sorted operations serviceName displayName)
    {n : Nat} {k : Option String} {t : StructuralType}
    (full : Extension.Full compiled.inventory.types n k t) : c.Slotted t := by
  have flattened := h.established.entered.flattened
  induction full with
  | own hl hb =>
    have made := flattened _ (mem_of_lookup hl)
    refine .of_present made.slotLast ?_
    rw [made.mem_text_iff, Catalog.hasSimpleContent_of_none hb]
  | @extending n name t base t' b hl hb hbase hc ih =>
    have made := flattened _ (mem_of_lookup hl)
    have hm : base ∈ c.types := h.mem_types_iff.mpr ⟨_, _, hbase⟩
    have hn : base.name = some b := hbase.named h.established.entered.own
    have hb' : t'.base = some b := (StructuralType.compose_same hc).2.2.trans hb
    obtain ⟨composed, -⟩ := made.ownMembers.compose (h.distinct _ hm) hc
    obtain ⟨mixed, simple⟩ := StructuralType.flags_compose hc
    have own : (t.localElements.map Element.name).Nodup :=
      made.ownMembers.localElements ▸ made.ownMembers.elements
    have given : textSlotName ∈ t.localElementNames ↔ t.mixed = true ∨ t.simpleContent = true := by
      unfold StructuralType.localElementNames
      rw [made.ownMembers.localElements]
      exact made.mem_text_iff
    refine .of_present composed.slotLast ?_
    rw [composed.mem_text_iff own, given, ih.present,
      Catalog.hasSimpleContent_of_base h.nodup_names hb' hm hn, mixed, simple, Bool.or_eq_true]
    tauto

end Compile

namespace SchemaSet

/-- **The text slot of a type comes last, and is there for simple or mixed content**, of its own
or of a type that it extends. -/
theorem compile_slotted {set : SchemaSet} {options : Options} {c : Catalog}
    (h : (set.compile options).result = .ok c) : ∀ t ∈ c.types, c.Slotted t := by
  obtain ⟨S, hs⟩ := exists_setting h
  obtain ⟨_, _, _, _, _, _, _, _, staged⟩ := exists_staged hs h
  intro t ht
  obtain ⟨n, k, full⟩ := staged.mem_types_iff.mp ht
  exact staged.slotted full

/-! ## A type that extends one with simple content -/

/-- A type with simple content, a type that extends it, and a mixed type that extends this one. -/
def discounts : SchemaSet :=
  let node (tag : String) (attributes : List (String × String)) (children : List Xml.Node) :
    Xml.Node := ⟨Vocabulary.xsd, tag, attributes, [("xs", some Vocabulary.xsd)], children, "", 1⟩
  let property (name : String) := node "attribute" [("name", name)] []
  let extending (content base : String) (children : List Xml.Node) :=
    node content [] [node "extension" [("base", base)] children]
  let price := node "complexType" [("name", "Price")]
    [extending "simpleContent" "xs:decimal" [property "currency"]]
  let discount := node "complexType" [("name", "Discount")]
    [extending "complexContent" "Price" [property "rate"]]
  let remark := node "complexType" [("name", "Remark"), ("mixed", "true")]
    [extending "complexContent" "Discount" []]
  ⟨"memory:t.xsd", [⟨"memory:t.xsd", "urn:t", node "schema" [] [price, discount, remark]⟩], none⟩

/-- The name of a type, its elements, and whether it is mixed or has simple content. -/
def flagsOf (t : StructuralType) : Option String × List String × Bool × Bool :=
  (t.name, t.elementNames, t.mixed, t.simpleContent)

theorem exists_of_discounts : ∃ c, (discounts.compile {}).result = .ok c ∧ (c.types.map flagsOf).Perm
    [(some "Price", ["$value"], false, true), (some "Discount", ["$value"], false, false),
      (some "Remark", ["$value"], true, false)] :=
  exists_compiled (by decide +kernel) (by decide +kernel)

theorem discounts_slotted : ∃ c, (discounts.compile {}).result = .ok c ∧
    (c.types.map flagsOf).Perm
      [(some "Price", ["$value"], false, true), (some "Discount", ["$value"], false, false),
        (some "Remark", ["$value"], true, false)] ∧
    ∀ t ∈ c.types, c.Slotted t := by
  obtain ⟨c, run, flags⟩ := exists_of_discounts
  exact ⟨c, run, flags, compile_slotted run⟩

/-- The slot that a type has from a base with simple content is told of by neither flag. -/
theorem inheritedSlot_untold : ∃ c discount, (discounts.compile {}).result = .ok c ∧
    discount ∈ c.types ∧ textSlotName ∈ discount.elementNames ∧ discount.mixed = false ∧
    discount.simpleContent = false := by
  obtain ⟨c, run, flags⟩ := exists_of_discounts
  obtain ⟨discount, member, same⟩ :=
    List.mem_map.mp (flags.mem_iff.mpr (List.mem_cons_of_mem _ List.mem_cons_self))
  simp only [flagsOf, Prod.mk.injEq] at same
  obtain ⟨-, elements, mixed, simple⟩ := same
  exact ⟨c, discount, run, member, elements ▸ by decide, mixed, simple⟩

end SchemaSet

end WsdlCatalog
