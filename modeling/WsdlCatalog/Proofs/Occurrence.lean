/-
  WsdlCatalog.Proofs.Occurrence — how often the elements of a type occur.

  The outline of a content model holds its leaves, the members of a type cover the ranges
  of all leaves of their names (`summed_bodyOf`), and the leaves bound how often a name
  comes in a document that the content model accepts.

  Proved: where branches are not told apart, the bounds of the elements that a content model
  is flattened to hold of every accepted document (`occurrences_within_bounds`).
-/

import WsdlCatalog.Proofs.Body
import WsdlCatalog.Proofs.Language

namespace WsdlCatalog

/-! ## Outlines -/

namespace Particle

theorem scaled_scaled (outer inner : Range) (ls : List (Site × Range)) :
    (ls.map (scaled inner)).map (scaled outer) = ls.map (scaled (outer.mul inner)) := by
  rw [List.map_map]
  refine List.map_congr_left fun l _ => ?_
  simp only [Function.comp_apply, scaled, Bounds.mul_assoc]

theorem scaled_once (ls : List (Site × Range)) : ls.map (scaled .once) = ls := by
  refine (List.map_congr_left fun l _ => ?_).trans (List.map_id ls)
  obtain ⟨site, low, high⟩ := l
  cases high <;> simp only [scaled, Bounds.mul, Bounds.mulMax, Range.once, Nat.one_mul, id]

/-- A choice asks for nothing, however often it comes. -/
theorem mul_optional (outer range : Range) :
    outer.mul { range with lower := 0 } = { outer.mul range with lower := 0 } := by
  simp only [Bounds.mul, Nat.mul_zero]

end Particle

namespace Outline

open Particle

def elementOf : Step → Option (Site × Range)
  | .element range site _ => some (site, range)
  | _ => none

def elements (outline : Outline) : List (Site × Range) := outline.steps.filterMap elementOf

theorem elements_push (outline : Outline) (step : Step) :
    (outline.push step).elements = outline.elements ++ (elementOf step).toList := by
  unfold elements push
  rw [List.filterMap_append]
  cases h : elementOf step <;> simp [h]

mutual

theorem elements_add (outer : Range) (branches : List Branch) (outline : Outline) :
    ∀ p, (add .allOptional outer branches outline p).elements
      = outline.elements ++ p.leaves.map (scaled outer)
  | .element range site => by
    simp only [add, elements_push, elementOf, leaves, scaled, Option.toList_some, List.map_cons,
      List.map_nil]
  | .group _ range children => by
    simp only [add, leaves, scaled_scaled, elements_addAll _ branches outline children]
  | .choice range parts => by
    simp only [add, leaves, scaled_scaled, mul_optional, elements_addAll _ branches outline parts]
  | .wildcard => by simp only [add, leaves, List.map_nil, List.append_nil]
  | .unresolved fault key => by simp [add, leaves, elements_push, elementOf]
  | .broken fault => by simp [add, leaves, elements_push, elementOf]

theorem elements_addAll (outer : Range) (branches : List Branch) (outline : Outline) :
    ∀ ps, (addAll .allOptional outer branches outline ps).elements
      = outline.elements ++ (leavesOf ps).map (scaled outer)
  | [] => by simp only [addAll, leavesOf, List.map_nil, List.append_nil]
  | p :: rest => by
    simp only [addAll, leavesOf, elements_addAll outer branches _ rest,
      elements_add outer branches outline p, List.map_append, List.append_assoc]

end

theorem elements_ofParticles (ps : List Particle) :
    (ofParticles .allOptional ps).elements = leavesOf ps := by
  unfold ofParticles
  rw [elements_addAll, scaled_once]
  rfl

end Outline

/-! ## Names of elements -/

/-- The name that an element of a content model has in a document. A reference that means nothing
stands for the name as it is written. -/
def Declarations.nameOf (declarations : Declarations) (site : Site) : String :=
  match site.node.filled? "ref" with
  | none => (site.node.attribute? "name").getD ""
  | some reference =>
    match Reference.meaning reference site with
    | .error _ => Reference.localPart reference
    | .ok name =>
      match declarations.lookup .element name with
      | some _ => name.localPart
      | none => Reference.localPart reference

namespace Compile

theorem runs_lookup {setting : Setting} {space : Space} {reference : String} {site : Site}
    {referencedBy : Option String} {found : Option Declaration} {p q : Progress}
    (h : Runs (lookup setting space reference site referencedBy) p found q) :
    found = match Reference.meaning reference site with
      | .error _ => none
      | .ok name => setting.declarations.lookup space name := by
  unfold lookup qualify Reference.qualify at h
  rw [runs_bind] at h
  obtain ⟨name, r, hq, h⟩ := h
  cases hm : Reference.meaning reference site with
  | error pfx =>
    rw [hm] at hq
    obtain ⟨_, _, -, hq⟩ := runs_bind.mp hq
    obtain ⟨rfl, rfl⟩ := runs_pure.mp hq
    exact (runs_pure.mp h).1
  | ok name =>
    rw [hm] at hq
    obtain ⟨rfl, rfl⟩ := runs_pure.mp hq
    dsimp only at h ⊢
    split at h
    · rename_i d hd
      rw [hd]
      exact (runs_pure.mp h).1
    · rename_i hd
      rw [hd]
      simp only [runs_bind, runs_pure] at h
      obtain ⟨_, _, _, rfl, rfl⟩ := h
      rfl

theorem name_of_elementReference {setting : Setting} {reference : String} {site : Site}
    {owner : Owner} {e : Referenced} {p q : Progress}
    (hr : site.node.filled? "ref" = some reference)
    (h : Runs (elementReference setting reference site owner) p e q) :
    e.name = setting.declarations.nameOf site := by
  unfold elementReference at h
  rw [runs_bind] at h
  obtain ⟨found, r, hl, h⟩ := h
  have := runs_lookup hl
  unfold Declarations.nameOf
  rw [hr]
  dsimp only
  split at this
  · subst this
    rw [(runs_pure.mp h).1]
  · rename_i name _
    subst this
    cases hd : setting.declarations.lookup .element name with
    | none =>
      rw [hd] at h
      rw [(runs_pure.mp h).1]
    | some d =>
      rw [hd] at h
      simp only [runs_bind, runs_pure] at h
      obtain ⟨_, _, _, rfl, rfl⟩ := h
      rw [Declarations.name_of_lookup hd]

theorem name_of_elementParticle {setting : Setting} {nested : Nested} {site : Site} {owner : Owner}
    {e : Referenced} {p q : Progress} (h : Runs (elementParticle setting nested site owner) p e q) :
    e.name = setting.declarations.nameOf site := by
  unfold elementParticle at h
  split at h
  · rename_i reference hr
    exact name_of_elementReference hr h
  · rename_i hr
    unfold Declarations.nameOf
    rw [hr]
    simp only [runs_bind, runs_pure] at h
    obtain ⟨_, _, _, rfl, rfl⟩ := h
    rfl

/-! ## Members -/

/-- The elements of a content model under the names they have in a document. -/
def named (declarations : Declarations) (elements : List (Site × Range)) : List (String × Range) :=
  elements.map fun (site, range) => (declarations.nameOf site, range)

theorem runs_atSite {α : Type} {site : Site} {owner : Owner} {x : Except ModelFault α} {a : α}
    {p q : Progress} : Runs (atSite site owner x) p a q ↔ x = .ok a ∧ q = p := by
  unfold atSite
  rw [runs_ofExcept, mapError_eq_ok]

theorem summary_addStep {setting : Setting} {nested : Nested} {owner : Owner}
    {members result : Members} {step : Step} {p q : Progress} {met : List (Site × Range)}
    (hm : Members.Summary members.leaves (named setting.declarations met))
    (h : Runs (addStep setting nested owner members step) p result q) :
    Members.Summary result.leaves
      (named setting.declarations (met ++ (Outline.elementOf step).toList)) := by
  cases step with
  | element range site branches =>
    unfold addStep at h
    rw [runs_bind] at h
    obtain ⟨e, r, he, h⟩ := h
    have := hm.addElement (runs_atSite.mp h).1
    rw [name_of_elementParticle he] at this
    unfold named at this ⊢
    rw [List.map_append]
    exact this
  | unresolved fault key =>
    unfold addStep at h
    simp only [runs_bind, runs_pure] at h
    obtain ⟨_, _, _, rfl, rfl⟩ := h
    simpa only [Outline.elementOf, Option.toList_none, List.append_nil] using hm
  | broken refusal => exact absurd h runs_throw

theorem summary_addParticles {setting : Setting} (hc : setting.options.choice = .allOptional)
    {nested : Nested} {owner : Owner} {container : Site} {result : Members × List ChoiceFrame}
    {p q : Progress} (h : Runs (addParticles setting nested owner container .empty) p result q) :
    Members.Summary result.1.leaves (named setting.declarations
      (Particle.leavesOf (Particle.ofContainer setting.declarations owner container))) := by
  unfold addParticles at h
  rw [hc] at h
  simp only [runs_bind, runs_pure] at h
  obtain ⟨members, _, hs, rfl, rfl⟩ := h
  rw [← Outline.elements_ofParticles]
  refine runs_foldlM (I := fun done members => Members.Summary members.leaves
    (named setting.declarations (done.filterMap Outline.elementOf))) ?_ Members.summary_empty hs
  intro done step a b p q ha h
  have := summary_addStep ha h
  rw [List.filterMap_append]
  cases hs : Outline.elementOf step <;> simpa [hs] using this

/-- Elements that may come any number of times; they bound nothing. -/
def Unbounded (met : List (String × Range)) : Prop := ∀ x ∈ met, x.2 = ⟨0, none⟩

/-- The leaves stand for the elements that were met and for some that bound nothing. -/
def Summed (leaves : List Leaf) (met : List (String × Range)) : Prop :=
  ∃ free, Unbounded free ∧ Members.Summary leaves (met ++ free)

theorem summed_addAttributeAt {setting : Setting} {owner : Owner} {members result : Members}
    {site : Site} {p q : Progress} {met : List (String × Range)} (hm : Summed members.leaves met)
    (h : Runs (addAttributeAt setting owner members site) p result q) :
    Summed result.leaves met := by
  unfold addAttributeAt at h
  rw [runs_bind] at h
  obtain ⟨use, r, -, h⟩ := h
  split at h
  · rw [runs_bind] at h
    obtain ⟨item, r', -, h⟩ := h
    split at h
    · -- The items of an encoded array come any number of times.
      obtain ⟨free, hf, hs⟩ := hm
      have := hs.addElement (runs_atSite.mp h).1
      rw [List.append_assoc] at this
      exact ⟨_, List.forall_mem_append.mpr ⟨hf, List.forall_mem_singleton.mpr rfl⟩, this⟩
    · rw [runs_bind] at h
      obtain ⟨a, r'', -, h⟩ := h
      rw [Members.leaves_addAttribute (runs_atSite.mp h).1]
      exact hm
  · rw [runs_bind] at h
    obtain ⟨ref, r', -, h⟩ := h
    rw [Members.leaves_addAttribute (runs_atSite.mp h).1]
    exact hm
  · exact absurd h runs_fail

theorem summed_addAttributes {setting : Setting} {owner : Owner} {container : Site}
    {members result : Members} {p q : Progress} {met : List (String × Range)}
    (hm : Summed members.leaves met)
    (h : Runs (addAttributes setting owner container members) p result q) :
    Summed result.leaves met := by
  refine runs_foldlM (I := fun _ members => Summed members.leaves met) ?_ hm h
  intro done step a b p q ha h
  cases step with
  | declared site => exact summed_addAttributeAt ha h
  | unresolved fault key =>
    unfold addAttributeStep at h
    simp only [runs_bind, runs_pure] at h
    obtain ⟨_, _, _, rfl, rfl⟩ := h
    exact ha
  | broken fault => exact absurd h runs_fail

/-! ## Types -/

/-- What a complex type accepts of its own: nothing if its content is simple, else the particles
in its definition or in its derivation from another type. -/
def contentModel (declarations : Declarations) (owner : Owner) (site : Site) : List Particle :=
  match Content.ofSite owner site with
  | .ok (.complex container _ _) => Particle.ofContainer declarations owner container
  | _ => []

theorem Summed.ofSummary {declarations : Declarations} {leaves : List Leaf}
    {met : List (Site × Range)} (h : Members.Summary leaves (named declarations met)) :
    Summed leaves (named declarations met) := by
  refine ⟨[], fun _ hx => absurd hx List.not_mem_nil, ?_⟩
  rw [List.append_nil]
  exact h

theorem summed_complexBody {setting : Setting} (hc : setting.options.choice = .allOptional)
    {nested : Nested} {owner : Owner} {container : Site} {extending mixed : Bool} {body : Body}
    {p q : Progress} (h : Runs (complexBody setting nested owner container extending mixed) p body q) :
    Summed body.members.leaves (named setting.declarations
      (Particle.leavesOf (Particle.ofContainer setting.declarations owner container))) := by
  unfold complexBody at h
  obtain ⟨base, r, -, h⟩ := runs_bind.mp h
  unfold bodyOnBase at h
  rw [runs_bind] at h
  obtain ⟨⟨members, frames⟩, p₁, hp, h⟩ := h
  rw [runs_bind] at h
  obtain ⟨members', p₂, ha, h⟩ := h
  obtain ⟨rfl, rfl⟩ := runs_pure.mp h
  exact summed_addAttributes (Summed.ofSummary (summary_addParticles hc hp)) ha

theorem summed_simpleBody {setting : Setting} {owner : Owner} {derivation : Site} {mixed : Bool}
    {body : Body} {p q : Progress} (h : Runs (simpleBody setting owner derivation mixed) p body q) :
    Summed body.members.leaves [] := by
  unfold simpleBody at h
  rw [runs_bind] at h
  obtain ⟨members, p₁, ha, h⟩ := h
  rw [runs_bind] at h
  obtain ⟨base, p₂, -, h⟩ := h
  obtain ⟨rfl, rfl⟩ := runs_pure.mp h
  have start : Summed Members.empty.leaves (named setting.declarations []) :=
    Summed.ofSummary Members.summary_empty
  exact summed_addAttributes start ha

theorem summed_bodyOf {setting : Setting} (hc : setting.options.choice = .allOptional)
    {nested : Nested} {owner : Owner} {site : Site} {body : Body} {p q : Progress}
    (h : Runs (bodyOf setting nested owner site) p body q) :
    Summed body.members.leaves (named setting.declarations
      (Particle.leavesOf (contentModel setting.declarations owner site))) := by
  rw [bodyOf_eq, runs_bind] at h
  obtain ⟨content, r, hs, h⟩ := h
  have hs := (runs_ofExcept.mp hs).1
  unfold contentModel
  rw [hs]
  cases content with
  | simple derivation mixed => exact summed_simpleBody h
  | complex container extending mixed => exact summed_complexBody hc h

theorem leaf_within_bounds {declarations : Declarations} {ps : List Particle} {leaves : List Leaf}
    (hs : Summed leaves (named declarations (Particle.leavesOf ps))) {leaf : Leaf}
    (hl : leaf ∈ leaves) {w : List String} (hw : Particle.InOrder declarations.nameOf ps w) :
    leaf.range.lower ≤ w.count leaf.name ∧
      (Particle.AllSeparate declarations.nameOf leaf.name ps →
        Particle.Within leaf.range (w.count leaf.name)) := by
  obtain ⟨free, hf, hs⟩ := hs
  obtain ⟨r, hr⟩ := hs.source leaf hl
  rcases List.mem_append.mp hr with hm | hm
  · obtain ⟨l, hl', hr'⟩ := List.mem_map.mp hm
    have hn : Particle.AnyMentions declarations.nameOf leaf.name ps :=
      (Prod.mk.inj hr').1 ▸ Particle.mentions_of_leafOf _ hl'
    have covers {l : Site × Range} (hl'' : l ∈ Particle.leavesOf ps)
        (hn : declarations.nameOf l.1 = leaf.name) : leaf.range.Covers l.2 :=
      hs.covers leaf hl l.2 (List.mem_append_left _ (List.mem_map.mpr ⟨l, hl'', Prod.ext hn rfl⟩))
    have hc := Particle.counted_of_inOrder hw
    constructor
    · obtain ⟨l, hl, hln, hb⟩ := Particle.exists_leafOf_le ps hn
      exact Nat.le_trans (covers hl hln).lower (hb _ hc)
    · intro separate high hh
      obtain ⟨l, hl, hln, hb⟩ := Particle.exists_leafOf_ge ps hn separate
      obtain ⟨m, hm, hle⟩ := (covers hl hln).upper high hh
      exact Nat.le_trans (hb _ hc m hm) hle
  · have covers := hs.covers leaf hl r hr
    rw [show r = ⟨0, none⟩ from hf _ hm] at covers
    exact ⟨Nat.le_trans covers.lower (Nat.zero_le _),
      fun _ high hh => nomatch (covers.upper high hh).choose_spec.1⟩

/-- An element besides the text slot stands for a leaf. -/
theorem leaf_of_element {members : Members} {nillable : Loose Bool} {text : Option TypeRef}
    {e : Element} (he : e ∈ members.elements nillable text) (hn : e.name ≠ textSlotName) :
    ∃ leaf ∈ members.leaves, e = leaf.toElement nillable := by
  unfold Members.elements at he
  rcases List.mem_append.mp he with he | he
  · obtain ⟨leaf, hl, rfl⟩ := List.mem_map.mp he
    exact ⟨leaf, (List.mem_filter.mp hl).1, rfl⟩
  · obtain ⟨ref, -, rfl⟩ := Option.map_eq_some_iff.mp (Option.mem_toList.mp he)
    exact absurd rfl hn

/-- What elements say of how often they come holds of every document that a content model accepts:
the minimum always, and the maximum where no sequence has the element in two of its parts. -/
def BoundsHold (declarations : Declarations) (model : List Particle) (elements : List Element) : Prop :=
  ∀ w, Particle.InOrder declarations.nameOf model w → ∀ e ∈ elements, e.name ≠ textSlotName →
    (∃ low : Nat, e.min = .own low ∧ low ≤ w.count e.name) ∧
    (Particle.AllSeparate declarations.nameOf e.name model →
      ∀ high, e.max = some high → (w.count e.name : Int) ≤ high)

theorem boundsHold_elements {declarations : Declarations} {model : List Particle} {members : Members}
    (hs : Summed members.leaves (named declarations (Particle.leavesOf model)))
    (nillable : Loose Bool) (text : Option TypeRef) :
    BoundsHold declarations model (members.elements nillable text) := by
  intro w hw e he hn
  obtain ⟨leaf, hl, rfl⟩ := leaf_of_element he hn
  obtain ⟨low, high⟩ := leaf_within_bounds hs hl hw
  refine ⟨⟨leaf.range.lower, rfl, low⟩, fun separate m hm => ?_⟩
  obtain ⟨k, hk, rfl⟩ := Option.map_eq_some_iff.mp hm
  exact Int.ofNat_le.mpr (high separate k hk)

/-- The bounds of elements hold of every document that the content model accepts, as soon as the
content model is flattened and in the type that is compiled of it. -/
theorem occurrences_within_bounds {setting : Setting}
    (hc : setting.options.choice = .allOptional) :
    (∀ (nested : Nested) (owner : Owner) (container : Site) (members : Members)
        (frames : List ChoiceFrame) (p q : Progress),
      Runs (addParticles setting nested owner container .empty) p (members, frames) q →
        ∀ nillable text, BoundsHold setting.declarations
          (Particle.ofContainer setting.declarations owner container)
          (members.elements nillable text)) ∧
    ∀ (depth : Nat) (anonymous : Bool) (canonical : Owner) (name : QName) (site : Site)
        (p q : Progress),
      Runs (complexTypeIn setting depth anonymous canonical name site) p () q →
        ∃ t, q.inventory.type? canonical = some t ∧ BoundsHold setting.declarations
          (contentModel setting.declarations canonical site) t.elements := by
  constructor
  · intro nested owner container members frames p q h nillable text
    exact boundsHold_elements (Summed.ofSummary (summary_addParticles hc h)) nillable text
  · intro depth anonymous canonical name site p q h
    cases depth with
    | zero => exact absurd h runs_fail
    | succ depth =>
      unfold complexTypeIn at h
      rw [runs_bind] at h
      obtain ⟨body, r, hb, h⟩ := h
      rw [runs_addType.mp h]
      exact ⟨_, lookup_put _ _ _, boundsHold_elements (summed_bodyOf hc hb) _ _⟩

def manySite : Site :=
  let item (name low high : String) : Xml.Node :=
    ⟨Vocabulary.xsd, "element", [("name", name), ("minOccurs", low), ("maxOccurs", high)], [], [], "", 3⟩
  let sequence : Xml.Node :=
    ⟨Vocabulary.xsd, "sequence", [], [], [item "a" "2" "3", item "b" "0" "unbounded"], "", 2⟩
  ⟨⟨Vocabulary.xsd, "complexType", [("name", "Many")], [], [sequence], "", 1⟩,
    ⟨"memory:many.xsd", "urn:many", default⟩⟩

/-- The first element is there as often as it may be. -/
theorem many_within_bounds :
    ∃ q t, Runs (complexTypeIn ⟨{}, ⟨[]⟩, 2⟩ 1 false (some "Many") ⟨some "urn:many", "Many"⟩ manySite)
        .start () q ∧ q.inventory.type? (some "Many") = some t ∧
      t.elements.map (fun e => (e.name, e.max)) = [("a", some 3), ("b", none)] ∧
      ∀ e ∈ t.elements, e.name ≠ textSlotName →
        (∃ low : Nat, e.min = .own low ∧ low ≤ ["a", "a", "a", "b"].count e.name) ∧
        ∀ high, e.max = some high → (["a", "a", "a", "b"].count e.name : Int) ≤ high := by
  have once : Range.once.Allows 1 := ⟨Nat.le_refl 1, fun _ h => Option.some.inj h ▸ Nat.le_refl 1⟩
  have accepted : Particle.InOrder (Declarations.nameOf ⟨[]⟩)
      (contentModel ⟨[]⟩ (some "Many") manySite) ["a", "a", "a", "b"] := by
    refine ⟨_, [], ⟨1, once, _, [], ⟨["a", "a", "a"], ["b"], ⟨3, ?_, rfl⟩, ⟨["b"], [], ⟨1, ?_, rfl⟩,
      rfl, rfl⟩, rfl⟩, rfl, rfl⟩, rfl, rfl⟩
    · exact ⟨by decide, fun _ h => Option.some.inj h ▸ Nat.le_refl 3⟩
    · exact ⟨by decide, nofun⟩
  have separate (n : String) : Particle.AllSeparate (Declarations.nameOf ⟨[]⟩) n
      (contentModel ⟨[]⟩ (some "Many") manySite) := by
    refine ⟨fun _ h => h, ⟨fun first other => ?_, trivial, fun _ h => h, trivial, trivial⟩, trivial⟩
    have a : "a" = n := first
    have b : "b" = n := other.resolve_right id
    exact absurd (a.trans b.symm) (by decide)
  have run : ∃ q t, Runs (complexTypeIn ⟨{}, ⟨[]⟩, 2⟩ 1 false (some "Many")
      ⟨some "urn:many", "Many"⟩ manySite) .start () q ∧
      q.inventory.type? (some "Many") = some t ∧
      t.elements.map (fun e => (e.name, e.max)) = [("a", some 3), ("b", none)] :=
    ⟨_, _, rfl, rfl, rfl⟩
  obtain ⟨q, t, run, ht, names⟩ := run
  obtain ⟨t', ht', hold⟩ := (occurrences_within_bounds (by rfl)).2 _ _ _ _ _ _ _ run
  obtain rfl := Option.some.inj (ht.symm.trans ht')
  refine ⟨q, t, run, ht, names, fun e he hn => ?_⟩
  obtain ⟨low, high⟩ := hold _ accepted e he hn
  exact ⟨low, high (separate e.name)⟩

end Compile

end WsdlCatalog
