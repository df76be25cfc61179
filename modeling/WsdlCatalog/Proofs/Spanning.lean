/-
  WsdlCatalog.Proofs.Spanning — the leaves of a content model and the elements of its type.

  A type has one element for all leaves of a name, and its maximum is as large as that of
  each of them (`Element.Spans`). The members of a base add to this: what an inherited
  element or an own one spans is spanned by what both are folded into.

  Proved: the elements of a type of a catalog span the leaves of its definition
  (`Compile.ComesOf.spans`) and what the elements of its base span
  (`Catalog.Completes.spans_base`).
-/

import WsdlCatalog.Proofs.Origin

namespace WsdlCatalog

/-! ## Elements -/

/-- The maximum of an element is as large as that of a range. -/
def Element.Spans (e : Element) (r : Range) : Prop :=
  ∀ high, e.max = some high → ∃ k : Nat, r.upper = some k ∧ (k : Int) ≤ high

/-- A type has an element of a name that spans a range; it is not the text slot. -/
def StructuralType.Spans (t : StructuralType) (name : String) (r : Range) : Prop :=
  ∃ e ∈ t.elements, e.name = name ∧ e.isText = false ∧ e.Spans r

namespace StructuralType

variable {t base t' : StructuralType} {a b e : Element} {name : String} {r : Range}

/-- The maximum of two elements in one is not smaller than the one of either. -/
theorem max_of_fold {high : Int} (h : (fold a b).max = some high) :
    ∃ x y, a.max = some x ∧ b.max = some y ∧ x ≤ high ∧ y ≤ high := by
  change Bounds.joinMax a.max b.max = some high at h
  unfold Bounds.joinMax at h
  split at h
  · rename_i x y hx hy
    cases h
    exact ⟨x, y, hx, hy, le_max_left x y, le_max_right x y⟩
  · cases h

theorem spans_fold_left (h : a.Spans r) : (fold a b).Spans r := by
  intro high hm
  obtain ⟨x, _, hx, -, hle, -⟩ := max_of_fold hm
  obtain ⟨k, hk, hkx⟩ := h x hx
  exact ⟨k, hk, hkx.trans hle⟩

theorem spans_fold_right (h : b.Spans r) : (fold a b).Spans r := by
  intro high hm
  obtain ⟨_, y, -, hy, -, hle⟩ := max_of_fold hm
  obtain ⟨k, hk, hky⟩ := h y hy
  exact ⟨k, hk, hky.trans hle⟩

/-! ## Types with the members of their bases -/

/-- The element that an inherited one becomes. -/
theorem Composed.mem_merged (h : Composed t base t') (he : e ∈ base.elements)
    (hn : e.isText = false) :
    merge Element.name fold (untexted (t.shifted base)) e ∈ t'.elements := by
  rw [h.elements]
  refine List.mem_append_left _ (List.mem_append_left _ ?_)
  exact List.mem_map_of_mem (mem_untexted.mpr ⟨he, hn⟩)

/-- An own element that repeats none of the base is added. -/
theorem Composed.mem_added (h : Composed t base t') (he : e ∈ t.shifted base)
    (hn : e.isText = false) (new : e.name ∉ (untexted base.elements).map Element.name) :
    e ∈ t'.elements := by
  have added : e ∈ t'.localElements := by
    rw [h.localElements]
    refine List.mem_filter.mpr ⟨he, Bool.or_eq_true_iff.mpr (.inr ?_)⟩
    rw [Bool.not_eq_true', Bool.eq_false_iff]
    exact fun hc => new (List.contains_iff_mem.mp hc)
  rw [h.elements]
  exact List.mem_append_left _ (List.mem_append_right _ (mem_untexted.mpr ⟨added, hn⟩))

theorem isText_congr (h : a.name = b.name) : a.isText = b.isText := by
  unfold Element.isText
  rw [h]

theorem Composed.spans_base (h : Composed t base t') (hs : base.Spans name r) : t'.Spans name r := by
  obtain ⟨e, he, rfl, hn, spans⟩ := hs
  have same : (merge Element.name fold (untexted (t.shifted base)) e).name = e.name :=
    nameOf_merge name_fold _ _
  refine ⟨_, h.mem_merged he hn, same, (isText_congr same).trans hn, ?_⟩
  rcases merge_cases Element.name fold (untexted (t.shifted base)) e with hm | ⟨own, -, -, hm⟩
  · rw [hm]
    exact spans
  · rw [hm]
    exact spans_fold_left spans

theorem Composed.spans_own (h : Composed t base t') (ht : t.OwnMembers) (hs : t.Spans name r) :
    t'.Spans name r := by
  obtain ⟨e, he, rfl, hn, spans⟩ := hs
  have own : shiftChoice base.choices.length e ∈ t.shifted base :=
    List.mem_map_of_mem (ht.localElements ▸ he)
  by_cases inherited : e.name ∈ (untexted base.elements).map Element.name
  · obtain ⟨b, hb, hname⟩ := List.mem_map.mp inherited
    obtain ⟨hb, hbn⟩ := mem_untexted.mp hb
    have distinct : ((untexted (t.shifted base)).map Element.name).Nodup := by
      refine nodup_untexted ?_
      rw [names_shifted, ht.localElements]
      exact ht.elements
    have merged : merge Element.name fold (untexted (t.shifted base)) b
        = fold b (shiftChoice base.choices.length e) :=
      merge_of_mem distinct (mem_untexted.mpr ⟨own, hn⟩) hname.symm
    refine ⟨fold b (shiftChoice base.choices.length e), ?_, hname, hbn, spans_fold_right spans⟩
    exact merged ▸ h.mem_merged hb hbn
  · exact ⟨shiftChoice base.choices.length e, h.mem_added own hn inherited, rfl, hn, spans⟩

end StructuralType

/-! ## Types of catalogs -/

namespace Catalog

variable {c : Catalog} {own t : StructuralType} {name : String} {r : Range}

/-- The members of the base take nothing from an own type. -/
theorem Completes.spans_own (h : c.Completes own t) (distinct : ∀ u ∈ c.types, u.Distinct)
    (ho : own.OwnMembers) (hs : own.Spans name r) : t.Spans name r := by
  cases h with
  | own => exact hs
  | extending _ hm _ hc => exact (ho.compose (distinct _ hm) hc).1.spans_own ho hs

/-- Nor does an own type from the members of the base. -/
theorem Completes.spans_base (h : c.Completes own t) (distinct : ∀ u ∈ c.types, u.Distinct)
    (names : (c.types.map (·.name)).Nodup) (ho : own.OwnMembers) {base : StructuralType}
    {b : String} (hb : t.base = some b) (hm : base ∈ c.types) (hn : base.name = some b)
    (hs : base.Spans name r) : t.Spans name r := by
  have same := h.same.2.2.1
  cases h with
  | own none => cases none.symm.trans hb
  | extending hb' hm' hn' hc =>
    obtain rfl := Option.some.inj (hb.symm.trans (same.trans hb'))
    obtain rfl := List.inj_on_of_nodup_map names hm hm' (hn.trans hn'.symm)
    exact (ho.compose (distinct _ hm) hc).1.spans_base hs

end Catalog

namespace Compile

variable {S : Setting} {c : Catalog} {owner : String} {name : QName} {anonymous : Bool}
  {site : Site} {own t : StructuralType}

/-- An own type has an element for every leaf of its content model. -/
theorem Made.spans (h : Made S owner name anonymous site t) (hc : S.options.choice = .allOptional)
    {l : Site × Range}
    (hl : l ∈ Particle.leavesOf (contentModel S.declarations (some owner) site))
    (hn : S.declarations.nameOf l.1 ≠ textSlotName) : t.Spans (S.declarations.nameOf l.1) l.2 := by
  obtain ⟨depth, body, p, q, -, hr, rfl⟩ := h
  obtain ⟨free, -, summary⟩ := summed_bodyOf hc hr
  have met : (S.declarations.nameOf l.1, l.2) ∈ Compile.named S.declarations
      (Particle.leavesOf (contentModel S.declarations (some owner) site)) ++ free :=
    List.mem_append_left _ (List.mem_map_of_mem hl)
  obtain ⟨leaf, hm, hname⟩ := summary.complete _ met
  have covers := summary.covers leaf hm l.2 (hname ▸ met)
  have plain : leaf.name ≠ textSlotName := hname ▸ hn
  refine ⟨leaf.toElement S.options.nillableAsOptional, ?_, hname, beq_false_of_ne plain, ?_⟩
  · refine List.mem_append_left _ (List.mem_map_of_mem (List.mem_filter.mpr ⟨hm, ?_⟩))
    exact bne_iff_ne.mpr plain
  · intro high hh
    obtain ⟨m, hu, rfl⟩ := Option.map_eq_some_iff.mp hh
    obtain ⟨k, hk, hle⟩ := covers.upper m hu
    exact ⟨k, hk, Int.ofNat_le.mpr hle⟩

/-- A type has an element for every leaf of its definition. -/
theorem ComesOf.spans (h : ComesOf S c owner name site own t) (hc : S.options.choice = .allOptional)
    (distinct : ∀ u ∈ c.types, u.Distinct) {l : Site × Range}
    (hl : l ∈ Particle.leavesOf (contentModel S.declarations (some owner) site))
    (hn : S.declarations.nameOf l.1 ≠ textSlotName) : t.Spans (S.declarations.nameOf l.1) l.2 :=
  h.completes.spans_own distinct h.made.ownMembers (h.made.spans hc hl hn)

end Compile

end WsdlCatalog
