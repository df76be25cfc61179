/-
  WsdlCatalog.Proofs.RelaxedTypes — types under the two choice policies.

  A type under the first policy has the same members as under the second, each with a minimum
  that is zero if an element of its name is inside a choice (`StructuralType.Relaxes`). That a
  name is inside a choice can be told from the choices of the type, which the second policy
  keeps (`StructuralType.Chosen`). The text slot has the minimum zero in any case, and is not
  joined to the one of the base.

  Proved: members that relax others make types that do (`Compile.relaxes_toType`), and so do
  types with the members of their bases (`Relaxes.compose`), so that all types are finished
  alike (`Extension.sameResult_expand`).
-/

import WsdlCatalog.Proofs.Relaxing
import WsdlCatalog.Proofs.WithoutChoices

namespace WsdlCatalog

/-! ## Elements -/

structure Element.Relaxes (inside : Prop) (a e : Element) : Prop where
  same : a.withoutChoice = e.withoutChoice
  choice : a.choice = none
  min : ∃ low high : Nat, a.min = .own low ∧ e.min = .own high ∧ Relaxed inside low high
  optional : e.optional.holds = true → a.optional.holds = true

namespace Element

variable {p q : Prop} {a b e f : Element}

theorem Relaxes.name (h : a.Relaxes p e) : a.name = e.name := by
  show a.withoutChoice.name = e.withoutChoice.name
  rw [h.same]

theorem Relaxes.isText (h : a.Relaxes p e) : a.isText = e.isText := StructuralType.isText_congr h.name

theorem Relaxes.congr (h : a.Relaxes p e) (hpq : p ↔ q) : a.Relaxes q e := by
  obtain ⟨low, high, ha, he, relaxed⟩ := h.min
  exact ⟨h.same, h.choice, ⟨low, high, ha, he, relaxed.congr hpq⟩, h.optional⟩

/-- A minimum of zero is the same under both policies. -/
theorem Relaxes.of_zero (h : a.Relaxes p e) (hz : e.min = .own 0) : a.Relaxes q e := by
  obtain ⟨low, high, ha, he, relaxed⟩ := h.min
  have high : high = 0 := Int.ofNat_eq_zero.mp (Loose.own.inj (he.symm.trans hz))
  have low : low = 0 := Nat.le_zero.mp (high ▸ relaxed.le)
  refine ⟨h.same, h.choice, ⟨0, 0, low ▸ ha, hz, ?_⟩, h.optional⟩
  exact ⟨le_rfl, fun _ => rfl, fun _ => rfl⟩

theorem Relaxes.fold (h : a.Relaxes p e) (h' : b.Relaxes q f) :
    (StructuralType.fold a b).Relaxes (p ∨ q) (StructuralType.fold e f) where
  same := by
    rw [← StructuralType.fold_withoutChoice, ← StructuralType.fold_withoutChoice, h.same, h'.same]
  choice := h.choice
  min := by
    obtain ⟨low, high, ha, he, first⟩ := h.min
    obtain ⟨low', high', hb, hf, second⟩ := h'.min
    refine ⟨_, _, ?_, ?_, first.min second⟩
    · exact (StructuralType.joinMin_own ha hb).trans (congrArg Loose.own (Nat.cast_min _ _).symm)
    · exact (StructuralType.joinMin_own he hf).trans (congrArg Loose.own (Nat.cast_min _ _).symm)
  optional := by
    show (StructuralType.either e.optional f.optional).holds = true →
      (StructuralType.either a.optional b.optional).holds = true
    rw [StructuralType.holds_either, StructuralType.holds_either, Bool.or_eq_true, Bool.or_eq_true]
    exact Or.imp h.optional h'.optional

/-- Only the second policy has choices to count. -/
theorem Relaxes.shiftChoice (h : a.Relaxes p e) (m n : Int) :
    (StructuralType.shiftChoice m a).Relaxes p (StructuralType.shiftChoice n e) where
  same := h.same
  choice := congrArg (Option.map _) h.choice
  min := h.min
  optional := h.optional

theorem relaxes_textSlot (ref : TypeRef) : (Members.textSlot ref).Relaxes p (Members.textSlot ref) :=
  ⟨rfl, rfl, ⟨0, 0, rfl, rfl, le_rfl, fun _ => rfl, fun _ => rfl⟩, id⟩

end Element

theorem Leaf.Relaxes.toElement {p : Prop} {a b : Leaf} (h : a.Relaxes p b) (nao : Loose Bool) :
    (a.toElement nao).Relaxes p (b.toElement nao) where
  same := by
    have erased (leaf : Leaf) : (leaf.toElement nao).withoutChoice
        = (leaf.withoutChoice.toElement nao).withoutChoice := rfl
    rw [erased a, erased b, h.same]
  choice := congrArg (Option.map _) h.branch
  min := ⟨_, _, rfl, rfl, h.lower⟩
  optional := by
    have nillable : a.withoutChoice.nillable = b.withoutChoice.nillable := by rw [h.same]
    have nillable : a.nillable = b.nillable := nillable
    have le := h.lower.le
    show (b.optional nao).holds = true → (a.optional nao).holds = true
    rw [holds_optional, holds_optional, nillable]
    simp only [Bool.or_eq_true, beq_iff_eq]
    exact Or.imp (fun none => by omega) id

/-- Elements under the two policies, of which the names inside choices are known. The text slot asks
for nothing. -/
def Element.RelaxesIn (chosen : String → Prop) (a e : Element) : Prop :=
  a.Relaxes (chosen e.name) e ∧ (e.isText = true → e.min = .own 0)

theorem Element.Relaxes.plain {chosen : String → Prop} {a e : Element}
    (h : a.Relaxes (chosen e.name) e) (plain : e.isText = false) : a.RelaxesIn chosen e :=
  ⟨h, fun text => Bool.noConfusion (plain.symm.trans text)⟩

theorem Members.Relaxes.elements {a b : Members} (h : a.Relaxes b) (nao : Loose Bool)
    (text : Option TypeRef) :
    List.Forall₂ (Element.RelaxesIn b.Chosen) (a.elements nao text) (b.elements nao text) := by
  unfold Members.elements
  refine List.rel_append ?_ ?_
  · rw [List.forall₂_map_left_iff, List.forall₂_map_right_iff]
    refine StructuralType.rel_filter h.leaves (fun x y same => by rw [same.name]) ?_
    intro x y same plain
    have plain : y.name ≠ textSlotName := same.name ▸ bne_iff_ne.mp plain
    exact (same.toElement nao).plain (beq_false_of_ne plain)
  · cases text with
    | none => exact .nil
    | some ref => exact .cons ⟨Element.relaxes_textSlot ref, fun _ => rfl⟩ .nil

/-! ## Types -/

namespace StructuralType

/-- A choice of the type has the name in one of its branches. -/
def Chosen (t : StructuralType) (n : String) : Prop :=
  ∃ g ∈ t.choices, ∃ names ∈ g.branches, n ∈ names

structure Relaxes (t u : StructuralType) : Prop where
  same : t.withoutChoices = u.withoutChoices
  elements : List.Forall₂ (Element.RelaxesIn u.Chosen) t.elements u.elements
  listed : ∀ n, u.Chosen n → n ≠ textSlotName → n ∈ u.elements.map Element.name

variable {t u b c t' u' : StructuralType} {n : String}

theorem chosen_compose (h : u.compose c = .ok u') : u'.Chosen n ↔ c.Chosen n ∨ u.Chosen n := by
  unfold Chosen
  rw [choices_compose h]
  constructor
  · rintro ⟨g, hg, chosen⟩
    rcases List.mem_append.mp hg with hg | hg
    · exact .inl ⟨g, hg, chosen⟩
    · obtain ⟨own, ho, rfl⟩ := List.mem_map.mp hg
      exact .inr ⟨own, ho, chosen⟩
  · rintro (⟨g, hg, chosen⟩ | ⟨g, hg, chosen⟩)
    · exact ⟨g, List.mem_append_left _ hg, chosen⟩
    · exact ⟨shiftGroup c.choices.length g, List.mem_append_right _ (List.mem_map_of_mem hg), chosen⟩

/-- Elements besides the text slot. -/
theorem relaxes_untexted {chosen : String → Prop} {xs ys : List Element}
    (h : List.Forall₂ (Element.RelaxesIn chosen) xs ys) :
    List.Forall₂ (fun a e => a.Relaxes (chosen e.name) e ∧ e.isText = false) (untexted xs)
      (untexted ys) := by
  refine rel_filter h (fun a e given => by rw [given.1.isText]) fun a e given plain => ⟨given.1, ?_⟩
  rw [← given.1.isText]
  rwa [Bool.not_eq_true'] at plain

theorem names_of_relaxes {chosen : String → Prop} {xs ys : List Element}
    (h : List.Forall₂ (Element.RelaxesIn chosen) xs ys) : xs.map Element.name = ys.map Element.name :=
  forall₂_eq_map_iff.mp (h.imp fun _ _ given => given.1.name)

theorem Relaxes.shifted (h : t.Relaxes u) (ht : t.OwnMembers) (hu : u.OwnMembers) :
    List.Forall₂ (Element.RelaxesIn u.Chosen) (t.shifted b) (u.shifted c) := by
  unfold StructuralType.shifted
  rw [ht.localElements, hu.localElements, List.forall₂_map_left_iff, List.forall₂_map_right_iff]
  exact h.elements.imp fun a e given => ⟨given.1.shiftChoice _ _, given.2⟩

/-- The elements besides the text slot, of a type and of its base. -/
theorem Relaxes.joined (h : t.Relaxes u) (hb : b.Relaxes c) (ht : t.OwnMembers) (hu : u.OwnMembers)
    (composed : u.compose c = .ok u') :
    List.Forall₂ (Element.RelaxesIn u'.Chosen)
      (StructuralType.joined Element.name fold (untexted b.elements) (untexted (t.shifted b)))
      (StructuralType.joined Element.name fold (untexted c.elements) (untexted (u.shifted c))) := by
  have inherited := relaxes_untexted hb.elements
  have own : List.Forall₂ (Element.RelaxesIn u.Chosen) (t.shifted b) (u.shifted c) := h.shifted ht hu
  have names : (t.shifted b).map Element.name = u.elements.map Element.name := by
    rw [names_shifted, ht.localElements]
    exact names_of_relaxes h.elements
  refine rel_joined inherited (relaxes_untexted own) (fun _ _ given => given.1.name)
    (fun _ _ given => given.1.name) ?_ ?_ ?_
  -- A name of both, of the base only, of the type only: what one of them does not have is in no
  -- choice of that one.
  · intro a e x f given added same
    have same : f.name = e.name := added.1.name.symm.trans (same.trans given.1.name)
    have chosen : u'.Chosen e.name ↔ c.Chosen e.name ∨ u.Chosen f.name :=
      same ▸ chosen_compose composed
    exact ((given.1.fold added.1).congr chosen.symm).plain given.2
  · intro a e given absent
    have plain : e.name ≠ textSlotName := ne_of_beq_false given.2
    have outside : ¬ u.Chosen e.name := fun inside => absent (by
      rw [mem_names_untexted (given.1.name ▸ plain), names, given.1.name]
      exact h.listed _ inside plain)
    have chosen := (or_iff_left outside).symm.trans (chosen_compose composed).symm
    exact (given.1.congr chosen).plain given.2
  · intro a e given absent
    have plain : e.name ≠ textSlotName := ne_of_beq_false given.2
    have outside : ¬ c.Chosen e.name := fun inside => absent (by
      rw [mem_names_untexted (given.1.name ▸ plain), names_of_relaxes hb.elements, given.1.name]
      exact hb.listed _ inside plain)
    have chosen := (or_iff_right outside).symm.trans (chosen_compose composed).symm
    exact (given.1.congr chosen).plain given.2

/-- The text slot of a type with the members of its base. -/
theorem Relaxes.text (h : t.Relaxes u) (hb : b.Relaxes c) (ht : t.OwnMembers) (hu : u.OwnMembers)
    (composed : Composed t b t') (composed' : Composed u c u') :
    List.Forall₂ (Element.RelaxesIn u'.Chosen)
      ((t'.localElements.find? (·.isText)).or b.textSlot?).toList
      ((u'.localElements.find? (·.isText)).or c.textSlot?).toList := by
  have names : (untexted b.elements).map Element.name = (untexted c.elements).map Element.name :=
    forall₂_eq_map_iff.mp ((relaxes_untexted hb.elements).imp fun _ _ given => given.1.name)
  have added : List.Forall₂ (Element.RelaxesIn u.Chosen) t'.localElements u'.localElements := by
    rw [composed.localElements, composed'.localElements]
    refine rel_filter (h.shifted ht hu) (fun a e given => ?_) fun _ _ given _ => given
    rw [given.1.isText, given.1.name, names]
  have texts {chosen : String → Prop} {xs ys : List Element}
      (h : List.Forall₂ (Element.RelaxesIn chosen) xs ys) :
      Option.Rel (Element.RelaxesIn u'.Chosen) (xs.find? (·.isText)) (ys.find? (·.isText)) := by
    obtain ⟨hx, hy⟩ | ⟨a, e, hx, hy, ⟨relaxes, zero⟩, text⟩ :=
      rel_cases (rel_find? h fun a e given => given.1.isText)
    · rw [hx, hy]
      exact .none
    -- Choices of the other type may have the slot's name, but it asks for nothing anyway.
    · rw [hx, hy]
      exact .some ⟨relaxes.of_zero (zero (relaxes.isText ▸ text)), zero⟩
  obtain ⟨hx, hy⟩ | ⟨a, e, hx, hy, own⟩ := rel_cases (texts added)
  · rw [hx, hy, Option.none_or, Option.none_or, textSlot?, textSlot?]
    obtain ⟨hx, hy⟩ | ⟨a, e, hx, hy, inherited⟩ := rel_cases (texts hb.elements)
    · rw [hx, hy]
      exact .nil
    · rw [hx, hy]
      exact .cons inherited .nil
  · rw [hx, hy]
    exact .cons own .nil

/-- **Types with the members of their bases** under the two policies. -/
theorem Relaxes.compose (h : t.Relaxes u) (hb : b.Relaxes c) (ht : t.OwnMembers) (hu : u.OwnMembers)
    (hbd : b.Distinct) (hcd : c.Distinct) (first : t.compose b = .ok t')
    (second : u.compose c = .ok u') : t'.Relaxes u' := by
  obtain ⟨composed, -⟩ := ht.compose hbd first
  obtain ⟨composed', -⟩ := hu.compose hcd second
  have joined : untexted u'.elements
      = StructuralType.joined Element.name fold (untexted c.elements) (untexted (u.shifted c)) :=
    composed'.untexted_joined
  constructor
  · have same := compose_withoutChoices t b
    rw [h.same, hb.same, compose_withoutChoices, first, second] at same
    exact (Except.ok.inj same).symm
  · rw [composed.elements_eq, composed'.elements_eq]
    refine List.rel_append ?_ (h.text hb ht hu composed composed')
    rw [composed.untexted_joined, joined]
    exact h.joined hb ht hu second
  · intro n hn plain
    rw [← mem_names_untexted plain, joined, mem_names_joined name_fold, mem_names_untexted plain,
      mem_names_untexted plain, names_shifted, hu.localElements]
    exact ((chosen_compose second).mp hn).imp (hb.listed n · plain) (h.listed n · plain)

structure RelaxesOwn (t u : StructuralType) : Prop extends t.Relaxes u where
  first : t.OwnMembers
  second : u.OwnMembers

structure RelaxesFull (t u : StructuralType) : Prop extends t.Relaxes u where
  first : t.Distinct
  second : u.Distinct

end StructuralType

namespace Compile

/-- Related members make related types, if the choices of the second one have the names that were
met inside choices. -/
theorem relaxes_toType {S T : Setting} (alike : S.Alike T) {Good : TypeRef → Prop}
    {F : List ChoiceFrame → List ChoiceFrame → Prop} {x y : Body}
    (h : Lockstep.SameBody Good Members.Relaxes F x y) (canonical : Owner) (name : QName)
    (documentation : Option String) (anonymous : Bool)
    (chosen : ∀ n, (y.toType T.options canonical name documentation anonymous).Chosen n ↔
      y.members.Chosen n) :
    (x.toType S.options canonical name documentation anonymous).Relaxes
      (y.toType T.options canonical name documentation anonymous) := by
  have text : x.simple.or (if x.mixed then some (Builtin.ref S.options .stringType) else none)
      = y.simple.or (if y.mixed then some (Builtin.ref T.options .stringType) else none) := by
    rw [h.simple, h.mixed, alike.builtin]
  have elements : List.Forall₂ (Element.RelaxesIn y.members.Chosen)
      (x.toType S.options canonical name documentation anonymous).elements
      (y.toType T.options canonical name documentation anonymous).elements := by
    show List.Forall₂ _ (x.members.elements _ _) (y.members.elements _ _)
    rw [text, alike.nillable]
    exact h.members.elements _ _
  have erased : (x.toType S.options canonical name documentation anonymous).elements.map
        Element.withoutChoice
      = (y.toType T.options canonical name documentation anonymous).elements.map
        Element.withoutChoice :=
    forall₂_eq_map_iff.mp (elements.imp fun _ _ given => given.1.same)
  refine ⟨?_, elements.imp fun a e given => ⟨given.1.congr (chosen _).symm, given.2⟩, ?_⟩
  · show StructuralType.mk canonical (some name) x.members.attributes _ x.members.attributes _ x.base
        x.mixed x.simple.isSome [] documentation anonymous
      = StructuralType.mk canonical (some name) y.members.attributes _ y.members.attributes _ y.base
        y.mixed y.simple.isSome [] documentation anonymous
    rw [h.members.attributes, h.base.1, h.mixed, h.simple]
    exact congrArg (fun elements => StructuralType.mk canonical (some name) y.members.attributes
      elements y.members.attributes elements y.base y.mixed y.simple.isSome [] documentation
      anonymous) erased
  · intro n hn plain
    obtain ⟨leaf, hl, rfl⟩ := List.mem_map.mp (h.members.listed n ((chosen n).mp hn))
    refine List.mem_map.mpr ⟨leaf.toElement T.options.nillableAsOptional, ?_, rfl⟩
    refine List.mem_append_left _ (List.mem_map_of_mem (List.mem_filter.mpr ⟨hl, ?_⟩))
    exact bne_iff_ne.mpr plain

end Compile

namespace Extension

open StructuralType (RelaxesOwn RelaxesFull)

variable {types types' : Table}

/-- By induction on the types that a type extends. -/
theorem Full.relaxes (h : Aligned RelaxesOwn types types') {n : Nat} {name : Owner}
    {t : StructuralType} (ht : Full types n name t) :
    ∀ {m : Nat} {u : StructuralType}, Full types' m name u → t.RelaxesFull u := by
  have both {name : Owner} {t u : StructuralType} (ht : types.lookup name = some t)
      (hu : types'.lookup name = some u) : t.RelaxesOwn u := by
    have := h.lookup name
    rw [ht, hu] at this
    cases this with
    | some given => exact given
  have base {t u : StructuralType} (given : t.RelaxesOwn u) : t.base = u.base := by
    show t.withoutChoices.base = u.withoutChoices.base
    rw [given.same]
  induction ht with
  | own hl hb =>
    intro m u hu
    cases hu with
    | own hl' =>
      have given := both hl hl'
      exact ⟨given.toRelaxes, given.first.toDistinct, given.second.toDistinct⟩
    | extending hl' hb' => cases hb.symm.trans ((base (both hl hl')).trans hb')
  | extending hl hb _ hc ih =>
    intro m u hu
    cases hu with
    | own hl' hb' => cases hb.symm.trans ((base (both hl hl')).trans hb')
    | extending hl' hb' hbase' hc' =>
      have given := both hl hl'
      obtain rfl := Option.some.inj (hb.symm.trans ((base given).trans hb'))
      have bases := ih hbase'
      refine ⟨?_, (given.first.compose bases.first hc).2, (given.second.compose bases.second hc').2⟩
      exact given.toRelaxes.compose bases.toRelaxes given.first given.second bases.first bases.second
        hc hc'

/-- **All types are finished alike** under the two policies. -/
theorem sameResult_expand (h : Aligned RelaxesOwn types types') :
    SameResult (Aligned RelaxesFull) (expand types) (expand types') := by
  have same : withoutChoices types = withoutChoices types' :=
    aligned_iff_remap.mp (h.imp fun _ _ given => ⟨given.1, given.2.same⟩)
  have expanded : (expand types).map withoutChoices = (expand types').map withoutChoices := by
    rw [← expand_withoutChoices, ← expand_withoutChoices, same]
  refine (sameResult_of_map expanded).conseq fun full full' hf hf' given => ?_
  have aligned := aligned_iff_remap.mpr given
  obtain ⟨finished, -⟩ := expand_sound hf
  obtain ⟨finished', -⟩ := expand_sound hf'
  refine List.forall₂_iff_zip.mpr ⟨aligned.length_eq, fun hx => ?_⟩
  have key := (List.forall₂_zip aligned hx).1
  obtain ⟨first, second⟩ := List.of_mem_zip hx
  obtain ⟨n, ht⟩ := finished.full _ first
  obtain ⟨m, hu⟩ := finished'.full _ second
  exact ⟨key, ht.relaxes h (key ▸ hu)⟩

end Extension

end WsdlCatalog
