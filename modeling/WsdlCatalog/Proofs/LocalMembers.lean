/-
  WsdlCatalog.Proofs.LocalMembers — the members that a type has of its own beside its base.

  A member that repeats one of the base becomes the base's and is no longer the type's own,
  so that the two do not overlap. The text slot goes another way: it is never folded, so
  where a type and its base both have text the slot is in both, and is not taken for an
  inherited member. An attribute and an element may have one name; a member of this name
  counts as the type's own if either of the two is.

  Proved: local and inherited members of a catalog overlap in the text slot at most
  (`SchemaSet.compile_keepsApart`), and for a type with text that extends one with text
  they do (`SchemaSet.textSlot_overlaps`).
-/

import WsdlCatalog.Proofs.FullView

namespace WsdlCatalog

namespace StructuralType

def localElementNames (t : StructuralType) : List String := t.localElements.map (·.name)
def localAttributeNames (t : StructuralType) : List String := t.localAttributes.map (·.name)

/-- A member is inherited if the type has it and it is not one of its own. -/
theorem isInherited_iff {t : StructuralType} {member : String} :
    t.isInherited member = true ↔
      (member ∉ t.localAttributeNames ∧ member ∉ t.localElementNames) ∧
        (member ∈ t.attributeNames ∨ member ∈ t.elementNames) := by
  have own {α : Type} (nameOf : α → String) (members : List α) :
      members.any (fun e => nameOf e == member) = true ↔ member ∈ members.map nameOf := by
    simp only [List.any_eq_true, List.mem_map, beq_iff_eq]
  unfold isInherited
  rw [Bool.and_eq_true, Bool.not_eq_true', Bool.or_eq_false_iff, Bool.or_eq_true,
    List.contains_iff_mem, List.contains_iff_mem, Bool.eq_false_iff, Bool.eq_false_iff, Ne, Ne, own, own]
  rfl

/-- What a type has of its own its base does not have, besides the text slot; what the base has is
inherited, unless the type has text, or a member of the other kind, of its own under the name. -/
structure KeepsApart (t base : StructuralType) : Prop where
  elements : ∀ name ∈ t.localElementNames, name ∈ base.elementNames → name = textSlotName
  attributes : ∀ name ∈ t.localAttributeNames, name ∉ base.attributeNames
  inheritedElement : ∀ name ∈ base.elementNames, name ∉ t.localAttributeNames →
    (name = textSlotName → textSlotName ∉ t.localElementNames) → t.isInherited name = true
  inheritedAttribute : ∀ name ∈ base.attributeNames, name ∉ t.localElementNames →
    t.isInherited name = true

variable {t base t' : StructuralType} {name : String}

theorem Composed.mem_elementNames (h : Composed t base t') (hm : name ∈ base.elementNames)
    (hn : name ≠ textSlotName) : name ∈ t'.elementNames := by
  apply (mem_names_untexted hn).mp
  rw [h.untexted_elements, List.map_append, names_merge name_fold]
  exact List.mem_append_left _ ((mem_names_untexted hn).mpr hm)

/-- The text slot of the base is there if the type has none of its own. -/
theorem Composed.mem_text (h : Composed t base t') (hm : textSlotName ∈ base.elementNames)
    (ho : textSlotName ∉ t'.localElementNames) : textSlotName ∈ t'.elementNames := by
  have own : t'.localElements.find? (·.isText) = none := by
    refine List.find?_eq_none.mpr fun e he text => ho ?_
    exact List.mem_map.mpr ⟨e, he, eq_of_beq text⟩
  obtain ⟨e, he, hn⟩ := List.mem_map.mp hm
  have isText : e.isText = true := beq_iff_eq.mpr hn
  obtain ⟨slot, hs⟩ := Option.isSome_iff_exists.mp (List.find?_isSome.mpr ⟨e, he, isText⟩)
  have slotText : slot.isText = true := List.find?_some hs
  refine List.mem_map.mpr ⟨slot, ?_, eq_of_beq slotText⟩
  rw [h.elements, own, Option.none_or, textSlot?, hs]
  exact List.mem_append_right _ List.mem_cons_self

/-- An element that the base has is no longer the type's own, unless it is the text slot. -/
theorem Composed.eq_text_of_mem (h : Composed t base t') (ho : name ∈ t'.localElementNames)
    (hb : name ∈ base.elementNames) : name = textSlotName := by
  by_contra hn
  obtain ⟨e, he, rfl⟩ := List.mem_map.mp ho
  rw [h.localElements] at he
  have added := (List.mem_filter.mp he).2
  rw [show e.isText = false from beq_false_of_ne hn, Bool.false_or, Bool.not_eq_true',
    List.contains_iff_mem.mpr ((mem_names_untexted hn).mpr hb)] at added
  cases added

/-- Nor is an attribute. -/
theorem Composed.not_mem_attributes (h : Composed t base t') (ho : name ∈ t'.localAttributeNames) :
    name ∉ base.attributeNames := by
  intro hb
  obtain ⟨a, ha, rfl⟩ := List.mem_map.mp ho
  rw [h.localAttributes] at ha
  have added := (List.mem_filter.mp ha).2
  rw [Bool.not_eq_true', Bool.eq_false_iff] at added
  exact added (List.contains_iff_mem.mpr hb)

theorem Composed.keepsApart (h : Composed t base t') : t'.KeepsApart base where
  elements _ ho hb := h.eq_text_of_mem ho hb
  attributes _ ho := h.not_mem_attributes ho
  inheritedElement name hb ha ht := by
    -- The text slot is not folded: it is inherited only if the type has no text of its own.
    by_cases hn : name = textSlotName
    · subst hn
      exact isInherited_iff.mpr ⟨⟨ha, ht rfl⟩, .inr (h.mem_text hb (ht rfl))⟩
    · have inherited : name ∉ t'.localElementNames := fun ho => hn (h.eq_text_of_mem ho hb)
      exact isInherited_iff.mpr ⟨⟨ha, inherited⟩, .inr (h.mem_elementNames hb hn)⟩
  inheritedAttribute name hb he := by
    have inherited : name ∉ t'.localAttributeNames := fun ho => h.not_mem_attributes ho hb
    have all : name ∈ t'.attributeNames := by
      show name ∈ t'.attributes.map Attribute.name
      rw [h.attributes, List.map_append, names_merge name_reuse]
      exact List.mem_append_left _ hb
    exact isInherited_iff.mpr ⟨⟨inherited, he⟩, .inl all⟩

end StructuralType

namespace SchemaSet

/-- **What a type of a catalog has of its own is apart from what its base has**, the text slot
excepted. -/
theorem compile_keepsApart {set : SchemaSet} {options : Options} {c : Catalog}
    (h : (set.compile options).result = .ok c) :
    ∀ t ∈ c.types, ∀ b, t.base = some b →
      (∃ base ∈ c.types, base.name = some b) ∧
        ∀ base ∈ c.types, base.name = some b → t.KeepsApart base := by
  obtain ⟨S, hs⟩ := exists_setting h
  obtain ⟨_, _, _, _, _, _, _, _, staged⟩ := exists_staged hs h
  intro t ht b hb
  obtain ⟨owner, name, site, own, comes⟩ := exists_comesOf hs h ht
  have same := comes.completes.same.2.2.1
  cases comes.completes with
  | own none => cases none.symm.trans hb
  | extending hb' hm hn hc =>
    obtain rfl := Option.some.inj (hb.symm.trans (same.trans hb'))
    refine ⟨⟨_, hm, hn⟩, fun base hbase named => ?_⟩
    obtain rfl := List.inj_on_of_nodup_map staged.nodup_names hbase hm (named.trans hn.symm)
    exact (comes.made.ownMembers.compose (staged.distinct _ hbase) hc).1.keepsApart

/-- A type with text, and a type that extends it and has text of its own. -/
theorem types_of_replies : ∃ c note reply, (replies.compile {}).result = .ok c ∧ note ∈ c.types ∧
    reply ∈ c.types ∧
    namesOf note = (some "Note", none, ["subject", "$value"], ["subject", "$value"]) ∧
    namesOf reply
      = (some "Reply", some "Note", ["subject", "answer", "$value"], ["answer", "$value"]) := by
  obtain ⟨c, run, names⟩ := exists_of_replies
  obtain ⟨note, hnote, noteNames⟩ := List.mem_map.mp (names.mem_iff.mpr List.mem_cons_self)
  obtain ⟨reply, hreply, replyNames⟩ :=
    List.mem_map.mp (names.mem_iff.mpr (List.mem_cons_of_mem _ List.mem_cons_self))
  exact ⟨c, note, reply, run, hnote, hreply, noteNames, replyNames⟩

theorem replies_keepApart : ∃ c note reply, (replies.compile {}).result = .ok c ∧
    note ∈ c.types ∧ reply ∈ c.types ∧ reply.base = some "Note" ∧ note.name = some "Note" ∧
    reply.KeepsApart note := by
  obtain ⟨c, note, reply, run, hnote, hreply, noteNames, replyNames⟩ := types_of_replies
  have name : note.name = some "Note" := (Prod.mk.inj noteNames).1
  have base : reply.base = some "Note" := (Prod.mk.inj (Prod.mk.inj replyNames).2).1
  have apart := (compile_keepsApart run reply hreply "Note" base).2 note hnote name
  exact ⟨c, note, reply, run, hnote, hreply, base, name, apart⟩

/-- The text slot of a type is one of its own though its base has it, and does not count as
inherited. -/
theorem textSlot_overlaps : ∃ c note reply, (replies.compile {}).result = .ok c ∧
    note ∈ c.types ∧ reply ∈ c.types ∧ reply.base = some "Note" ∧ note.name = some "Note" ∧
    textSlotName ∈ reply.localElementNames ∧ textSlotName ∈ note.elementNames ∧
    textSlotName ∈ reply.elementNames ∧ reply.isInherited textSlotName = false := by
  obtain ⟨c, note, reply, run, hnote, hreply, noteNames, replyNames⟩ := types_of_replies
  simp only [namesOf, Prod.mk.injEq] at noteNames replyNames
  obtain ⟨name, -, noteAll, -⟩ := noteNames
  obtain ⟨-, base, all, own⟩ := replyNames
  have slot : textSlotName ∈ reply.localElementNames := by
    unfold StructuralType.localElementNames
    rw [own]
    decide
  refine ⟨c, note, reply, run, hnote, hreply, base, name, slot, noteAll ▸ by decide,
    all ▸ by decide, ?_⟩
  rw [Bool.eq_false_iff]
  exact fun inherited => (StructuralType.isInherited_iff.mp inherited).1.2 slot

end SchemaSet

end WsdlCatalog
