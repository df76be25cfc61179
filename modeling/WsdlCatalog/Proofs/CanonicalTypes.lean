/-
  WsdlCatalog.Proofs.CanonicalTypes — the members of a type are told apart.

  Members are collected under distinct names, and the text slot is no name for an element.
  A member that repeats one of the base is folded into it, and what is left stays as it is
  declared among all members. So a type can be read back from its data: its own members are
  found among all of its members by their names.

  Proved: a collected type is canonical (`canonical_toType`), and so is a type with the
  members of its base (`StructuralType.compose_canonical`).
-/

import WsdlCatalog.Proofs.Composition
import WsdlCatalog.Proofs.Keeping

namespace WsdlCatalog

variable {R : Binary64 → Prop}

namespace Compile

/-! ## Types of their own members -/

theorem Collected.summary {members : Members} (h : Collected members) :
    ∃ met, Members.Summary members.leaves met := by
  induction h with
  | empty => exact ⟨[], Members.summary_empty⟩
  | withElement _ leaf branches ha ih =>
    obtain ⟨met, hs⟩ := ih
    exact ⟨_, hs.addElement ha⟩
  | withAttribute _ a _ ha ih =>
    rw [Members.leaves_addAttribute ha]
    exact ih

/-- An attribute is new and comes last, or was there before. -/
theorem addAttribute_cases {members result : Members} {a : Attribute}
    (h : members.addAttribute a = .ok result) :
    result = members ∨ (a.name ∉ members.attributes.map (·.name) ∧
      result = { members with attributes := members.attributes ++ [a] }) := by
  unfold Members.addAttribute at h
  split at h
  · rename_i hnone
    cases h
    refine .inr ⟨?_, rfl⟩
    intro hm
    obtain ⟨held, hh, hn⟩ := List.mem_map.mp hm
    have := List.find?_eq_none.mp hnone held hh
    exact this (beq_iff_eq.mpr hn)
  · split at h
    · cases h
      exact .inl rfl
    · cases h

theorem Collected.attributeNames {members : Members} (h : Collected members) :
    (members.attributes.map (·.name)).Nodup := by
  induction h with
  | empty => exact List.nodup_nil
  | withElement _ leaf branches ha ih =>
    obtain ⟨leaves, -, rfl⟩ := Members.addElement_ok ha
    exact ih
  | withAttribute _ a _ ha ih =>
    rcases addAttribute_cases ha with rfl | ⟨hnew, rfl⟩
    · exact ih
    · rw [List.map_append, List.nodup_append]
      refine ⟨ih, List.nodup_singleton _, ?_⟩
      rintro x hx _ hy rfl
      rw [List.mem_singleton.mp hy] at hx
      exact hnew hx

theorem Collected.uses {members : Members} (h : Collected members) :
    ∀ a ∈ members.attributes, AttributeUse.ofName a.use.name = a.use := by
  induction h with
  | empty => exact fun _ ha => absurd ha List.not_mem_nil
  | withElement _ leaf branches ha ih =>
    obtain ⟨leaves, -, rfl⟩ := Members.addElement_ok ha
    exact ih
  | withAttribute _ a hu ha ih =>
    rcases addAttribute_cases ha with rfl | ⟨-, rfl⟩
    · exact ih
    · exact List.forall_mem_append.mpr ⟨ih, List.forall_mem_singleton.mpr hu⟩

theorem canonical_toElement {nillable : Loose Bool} (h : nillable.Canonical R Json.bool?) {leaf : Leaf}
    (hl : leaf.typeRef.Canonical) : (leaf.toElement nillable).Canonical R where
  ref := hl
  min := trivial
  nillable := trivial
  optional := by
    show (leaf.optional nillable).Canonical R Json.bool?
    unfold Leaf.optional
    split
    · trivial
    split
    · exact h
    · trivial

theorem canonical_textSlot {ref : TypeRef} (h : ref.Canonical) : (Members.textSlot ref).Canonical R :=
  ⟨h, trivial, trivial, trivial⟩

/-- The names of the elements of a type are those of its leaves and perhaps the text slot. -/
theorem nodup_elements {members : Members} (h : (members.leaves.map (·.name)).Nodup)
    (nillable : Loose Bool) (text : Option TypeRef) :
    ((members.elements nillable text).map (·.name)).Nodup := by
  have leaves : (((members.leaves.filter fun leaf => leaf.name != textSlotName).map
      (Leaf.toElement nillable)).map (·.name)).Nodup := by
    rw [List.map_map]
    exact h.sublist (List.filter_sublist.map _)
  unfold Members.elements
  rw [List.map_append, List.nodup_append]
  refine ⟨leaves, ?_, ?_⟩
  · cases text with
    | none => exact List.nodup_nil
    | some ref => exact List.nodup_singleton _
  · rintro name hn _ ht rfl
    rw [List.map_map] at hn
    obtain ⟨leaf, hl, rfl⟩ := List.mem_map.mp hn
    obtain ⟨e, he, hen⟩ := List.mem_map.mp ht
    obtain ⟨ref, -, rfl⟩ := Option.map_eq_some_iff.mp (Option.mem_toList.mp he)
    have := (List.mem_filter.mp hl).2
    rw [bne_iff_ne] at this
    exact this hen.symm

end Compile

namespace StructuralType

structure Distinct (t : StructuralType) : Prop where
  attributes : (t.attributes.map Attribute.name).Nodup
  elements : (t.elements.map Element.name).Nodup

structure OwnMembers (t : StructuralType) : Prop extends Distinct t where
  localAttributes : t.localAttributes = t.attributes
  localElements : t.localElements = t.elements

end StructuralType

namespace Compile

/-- A collected type has its own members only. -/
theorem ownMembers_toType {body : Body} (hc : Collected body.members) (options : Options)
    (canonical : Owner) (name : QName) (documentation : Option String) (anonymous : Bool) :
    (body.toType options canonical name documentation anonymous).OwnMembers where
  attributes := hc.attributeNames
  elements := by
    obtain ⟨met, hs⟩ := hc.summary
    exact nodup_elements hs.nodup _ _
  localAttributes := rfl
  localElements := rfl

theorem canonical_toType {options : Options} (ho : options.Canonical R) {body : Body}
    (hc : Collected body.members) (hb : body.AllTypes TypeRef.Canonical) (canonical : Owner)
    (name : QName) (documentation : Option String) (anonymous : Bool) :
    (body.toType options canonical name documentation anonymous).Canonical R where
  eachAttribute a ha := ⟨hb.members.attributes a ha, hc.uses a ha⟩
  eachElement e he := by
    rcases List.mem_append.mp he with he | he
    · obtain ⟨leaf, hl, rfl⟩ := List.mem_map.mp he
      exact canonical_toElement ho.nillableAsOptional (hb.members.leaves leaf (List.mem_filter.mp hl).1)
    · obtain ⟨ref, hr, rfl⟩ := Option.map_eq_some_iff.mp (Option.mem_toList.mp he)
      apply canonical_textSlot
      rcases Option.or_eq_some_iff.mp hr with hr | ⟨-, hr⟩
      · exact hb.simple ref hr
      · split at hr
        · exact Option.some.inj hr ▸ canonical_builtin _ _
        · cases hr
  attributeNames := (ownMembers_toType hc options canonical name documentation anonymous).attributes
  elementNames := (ownMembers_toType hc options canonical name documentation anonymous).elements
  localAttributes _ ha := ha
  localElements _ he := he

end Compile

namespace StructuralType

/-! ## Types with the members of their bases -/

theorem Canonical.distinct {t : StructuralType} (h : t.Canonical R) : t.Distinct :=
  ⟨h.attributeNames, h.elementNames⟩

theorem canonical_shiftChoice {e : Element} (h : e.Canonical R) (shift : Int) :
    (shiftChoice shift e).Canonical R := ⟨h.ref, h.min, h.nillable, h.optional⟩

theorem canonical_fold {a b : Element} (ha : a.Canonical R) (hb : b.Canonical R) :
    (fold a b).Canonical R where
  ref := ha.ref
  min := by
    show (joinMin a.min b.min).Canonical R Json.int?
    unfold joinMin
    split
    · trivial
    · exact ha.min
  nillable := by
    show (either a.nillable b.nillable).Canonical R Json.bool?
    unfold either
    split
    · exact ha.nillable
    · exact hb.nillable
  optional := by
    show (either a.optional b.optional).Canonical R Json.bool?
    unfold either
    split
    · exact ha.optional
    · exact hb.optional

theorem merge_cases {α : Type} (nameOf : α → String) (combine : α → α → α) (own : List α) (b : α) :
    merge nameOf combine own b = b ∨ ∃ e ∈ own, nameOf e = nameOf b ∧
      merge nameOf combine own b = combine b e := by
  unfold merge
  split
  · rename_i e he
    exact .inr ⟨e, List.mem_of_find?_eq_some he, by simpa using List.find?_some he, rfl⟩
  · exact .inl rfl

theorem mem_untexted {elements : List Element} {e : Element} :
    e ∈ untexted elements ↔ e ∈ elements ∧ e.isText = false := by
  unfold untexted
  rw [List.mem_filter, Bool.not_eq_true']

theorem mem_names_untexted {elements : List Element} {n : String} (hn : n ≠ textSlotName) :
    n ∈ (untexted elements).map Element.name ↔ n ∈ elements.map Element.name := by
  constructor
  · exact fun h => (List.filter_sublist.map Element.name).subset h
  · intro h
    obtain ⟨e, he, rfl⟩ := List.mem_map.mp h
    exact List.mem_map_of_mem (mem_untexted.mpr ⟨he, beq_false_of_ne hn⟩)

theorem mem_text {t' base : StructuralType} {e : Element}
    (h : e ∈ ((t'.localElements.find? (·.isText)).or base.textSlot?).toList) :
    (e ∈ t'.localElements ∨ e ∈ base.elements) ∧ e.name = textSlotName := by
  rcases Option.or_eq_some_iff.mp (Option.mem_toList.mp h) with h | ⟨-, h⟩
  · have text : e.isText = true := List.find?_some h
    exact ⟨.inl (List.mem_of_find?_eq_some h), eq_of_beq text⟩
  · have text : e.isText = true := List.find?_some h
    exact ⟨.inr (List.mem_of_find?_eq_some h), eq_of_beq text⟩

variable {t base t' : StructuralType}

theorem Composed.localNames (h : Composed t base t')
    (ht : (t.localElements.map Element.name).Nodup) : (t'.localElements.map Element.name).Nodup := by
  rw [h.localElements]
  rw [← names_shifted t base] at ht
  exact ht.sublist (List.filter_sublist.map _)

theorem Composed.elementNames (h : Composed t base t') (hb : (base.elements.map Element.name).Nodup)
    (ht : (t.localElements.map Element.name).Nodup) : (t'.elements.map Element.name).Nodup := by
  have inherited : (((untexted base.elements).map
      (merge Element.name fold (untexted (t.shifted base)))).map Element.name)
      = (untexted base.elements).map Element.name := names_merge name_fold _ _
  have ownNames := h.localNames ht
  rw [h.elements, List.map_append, List.map_append, inherited, List.nodup_append, List.nodup_append]
  refine ⟨⟨nodup_untexted hb, nodup_untexted ownNames, ?_⟩, ?_, ?_⟩
  · rintro name hi _ ho rfl
    obtain ⟨e, he, rfl⟩ := List.mem_map.mp ho
    obtain ⟨he, notText⟩ := mem_untexted.mp he
    rw [h.localElements] at he
    have added := (List.mem_filter.mp he).2
    rw [notText, Bool.false_or, Bool.not_eq_true'] at added
    rw [List.contains_iff_mem.mpr hi] at added
    cases added
  · cases (t'.localElements.find? (·.isText)).or base.textSlot? with
    | none => exact List.nodup_nil
    | some e => exact List.nodup_singleton _
  · rintro name hn _ htext rfl
    obtain ⟨e, he, rfl⟩ := List.mem_map.mp htext
    have text := (mem_text he).2
    have plain : ∀ elements : List Element, e.name ∈ (untexted elements).map Element.name → False := by
      intro elements hm
      obtain ⟨x, hx, hname⟩ := List.mem_map.mp hm
      have notText := (mem_untexted.mp hx).2
      rw [text] at hname
      unfold Element.isText at notText
      rw [hname] at notText
      cases notText
    exact (List.mem_append.mp hn).elim (plain _) (plain _)

theorem Composed.attributeNames (h : Composed t base t')
    (hb : (base.attributes.map Attribute.name).Nodup)
    (ht : (t.localAttributes.map Attribute.name).Nodup) : (t'.attributes.map Attribute.name).Nodup := by
  rw [h.attributes, List.map_append, names_merge name_reuse, List.nodup_append]
  refine ⟨hb, ht.sublist (List.filter_sublist.map _), ?_⟩
  rintro name hi _ ho rfl
  obtain ⟨a, ha, rfl⟩ := List.mem_map.mp ho
  have added := (List.mem_filter.mp ha).2
  rw [Bool.not_eq_true', List.contains_iff_mem.mpr hi] at added
  cases added

/-- Members of different names are composed one by one, and their names stay different. -/
theorem OwnMembers.compose (ht : t.OwnMembers) (hb : base.Distinct) (h : t.compose base = .ok t') :
    Composed t base t' ∧ t'.Distinct := by
  have ownAttributes : (t.localAttributes.map Attribute.name).Nodup := by
    rw [ht.localAttributes]
    exact ht.attributes
  have ownElements : (t.localElements.map Element.name).Nodup := by
    rw [ht.localElements]
    exact ht.elements
  have composed := compose_eq h hb.attributes hb.elements ownAttributes ownElements
  exact ⟨composed, composed.attributeNames hb.attributes ownAttributes,
    composed.elementNames hb.elements ownElements⟩

theorem find?_isText {elements : List Element} (distinct : (elements.map Element.name).Nodup)
    {e : Element} (he : e ∈ elements) (text : e.isText = true) : elements.find? (·.isText) = some e := by
  cases hf : elements.find? (·.isText) with
  | none => exact absurd text (List.find?_eq_none.mp hf e he)
  | some first =>
    have firstText : first.isText = true := List.find?_some hf
    have same : first.name = e.name := (eq_of_beq firstText).trans (eq_of_beq text).symm
    rw [List.inj_on_of_nodup_map distinct (List.mem_of_find?_eq_some hf) he same]

theorem Composed.mem_elements (h : Composed t base t')
    (ht : (t.localElements.map Element.name).Nodup) {e : Element} (he : e ∈ t'.localElements) :
    e ∈ t'.elements := by
  rw [h.elements]
  cases text : e.isText with
  | false => exact List.mem_append_left _ (List.mem_append_right _ (mem_untexted.mpr ⟨he, text⟩))
  | true =>
    rw [find?_isText (h.localNames ht) he text]
    exact List.mem_append_right _ List.mem_cons_self

/-- An attribute of a composed type is one of its base, merged or not, or an own one. -/
theorem Composed.eachAttribute (h : Composed t base t') (ht : ∀ a ∈ t.localAttributes, a.Canonical)
    (hb : ∀ a ∈ base.attributes, a.Canonical) : ∀ a ∈ t'.attributes, a.Canonical := by
  intro a ha
  rw [h.attributes] at ha
  rcases List.mem_append.mp ha with ha | ha
  · obtain ⟨inherited, hi, rfl⟩ := List.mem_map.mp ha
    rcases merge_cases Attribute.name reuse t.localAttributes inherited with he | ⟨a, ha, -, he⟩
    · rw [he]
      exact hb inherited hi
    · rw [he]
      exact ⟨(hb inherited hi).1, (ht a ha).2⟩
  · exact ht a (List.mem_filter.mp ha).1

theorem Composed.eachElement (h : Composed t base t') (ht : ∀ e ∈ t.localElements, e.Canonical R)
    (hb : ∀ e ∈ base.elements, e.Canonical R) : ∀ e ∈ t'.elements, e.Canonical R := by
  have eachOwn : ∀ e ∈ t.shifted base, e.Canonical R := by
    intro e he
    obtain ⟨own, hown, rfl⟩ := List.mem_map.mp he
    exact canonical_shiftChoice (ht own hown) _
  have eachLocal : ∀ e ∈ t'.localElements, e.Canonical R := by
    intro e he
    rw [h.localElements] at he
    exact eachOwn e (List.mem_filter.mp he).1
  intro e he
  rw [h.elements] at he
  rcases List.mem_append.mp he with he | he
  · rcases List.mem_append.mp he with he | he
    · obtain ⟨inherited, hi, rfl⟩ := List.mem_map.mp he
      have canonical := hb inherited (mem_untexted.mp hi).1
      rcases merge_cases Element.name fold (untexted (t.shifted base)) inherited with
        he | ⟨e, he', -, he⟩
      · rw [he]
        exact canonical
      · rw [he]
        exact canonical_fold canonical (eachOwn e (mem_untexted.mp he').1)
    · exact eachLocal e (mem_untexted.mp he).1
  · rcases (mem_text he).1 with he | he
    · exact eachLocal e he
    · exact hb e he

theorem compose_canonical (h : t.compose base = .ok t') (ho : t.OwnMembers) (ht : t.Canonical R)
    (hb : base.Canonical R) : t'.Canonical R := by
  obtain ⟨hc, distinct⟩ := ho.compose hb.distinct h
  have ownNames : (t.localElements.map Element.name).Nodup := ho.localElements ▸ ho.elements
  refine ⟨hc.eachAttribute (ho.localAttributes ▸ ht.eachAttribute) hb.eachAttribute,
    hc.eachElement (ho.localElements ▸ ht.eachElement) hb.eachElement, distinct.attributes,
    distinct.elements, fun a ha => ?_, fun e he => hc.mem_elements ownNames he⟩
  rw [hc.attributes, ← hc.localAttributes]
  exact List.mem_append_right _ ha

end StructuralType

end WsdlCatalog
