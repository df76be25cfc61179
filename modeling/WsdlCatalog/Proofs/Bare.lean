/-
  WsdlCatalog.Proofs.Bare — what is read of a document besides its elements.

  A document takes part in a compilation with its location and its target namespace;
  its elements are reached from the declarations. So two sites are as good as one when
  they are at the same element and their documents without elements are equal
  (`Site.bare`), and two families of declarations when they answer every name alike
  (`Declarations.Alike`).

  Proved: alike declarations give content models, outlines and attributes that are equal
  up to their documents (`Particle.bare_ofContainer`, `Outline.bare_ofParticles`,
  `AttributeStep.bare_ofContainer`).
-/

import WsdlCatalog.Content.AttributeSite
import WsdlCatalog.Content.Outline

namespace WsdlCatalog

def SchemaDocument.bare (d : SchemaDocument) : SchemaDocument := { d with root := default }

/-! ## Sites -/

namespace Site

def bare (s : Site) : Site := { s with document := s.document.bare }

variable {s t : Site}

theorem node_of_bare (h : s.bare = t.bare) : s.node = t.node := (Site.mk.inj h).1

theorem document_of_bare (h : s.bare = t.bare) : s.document.bare = t.document.bare :=
  (Site.mk.inj h).2

theorem location_of_bare (h : s.bare = t.bare) : s.document.location = t.document.location :=
  (SchemaDocument.mk.inj (document_of_bare h)).1

theorem targetNamespace_of_bare (h : s.bare = t.bare) :
    s.document.targetNamespace = t.document.targetNamespace :=
  (SchemaDocument.mk.inj (document_of_bare h)).2.1

theorem bare_atNode (h : s.bare = t.bare) (node : Xml.Node) : (s.atNode node).bare = (t.atNode node).bare := by
  show Site.mk node s.document.bare = Site.mk node t.document.bare
  rw [document_of_bare h]

theorem modelFault_of_bare (h : s.bare = t.bare) (owner : Owner) (fault : ModelFault) :
    s.modelFault owner fault = t.modelFault owner fault := by
  show s.bare.modelFault owner fault = t.bare.modelFault owner fault
  rw [h]

theorem refusal_of_bare (h : s.bare = t.bare) (owner : Owner) (error : Range.Error) :
    error.refusal s owner = error.refusal t owner := by
  cases error with
  | model fault => exact congrArg Refusal.fault (modelFault_of_bare h owner fault)
  | overlong => rfl

end Site

namespace Reference

variable {s t : Site}

theorem meaning_of_bare (h : s.bare = t.bare) (reference : String) :
    meaning reference s = meaning reference t := by
  unfold meaning
  rw [Site.node_of_bare h, Site.targetNamespace_of_bare h]

theorem qualify_of_bare (h : s.bare = t.bare) (reference : String) (referencedBy : Option String) :
    qualify reference s referencedBy = qualify reference t referencedBy := by
  unfold qualify
  rw [meaning_of_bare h, Site.location_of_bare h]

end Reference

/-! ## Declarations -/

def Declaration.bare (d : Declaration) : Declaration := { d with site := d.site.bare }

namespace Declaration

variable {d e : Declaration}

theorem name_of_bare (h : d.bare = e.bare) : d.name = e.name := (Declaration.mk.inj h).1

theorem site_of_bare (h : d.bare = e.bare) : d.site.bare = e.site.bare := (Declaration.mk.inj h).2

theorem isSimpleType_of_bare (h : d.bare = e.bare) : d.isSimpleType = e.isSimpleType := by
  show d.bare.isSimpleType = e.bare.isSimpleType
  rw [h]

end Declaration

namespace Declarations

theorem name_of_lookup {ds : Declarations} {space : Space} {name : QName}
    {d : Declaration} (h : ds.lookup space name = some d) : d.name = name := by
  obtain ⟨⟨s, e⟩, hf, rfl⟩ := Option.map_eq_some_iff.mp h
  have := List.find?_some hf
  simp only [Bool.and_eq_true, beq_iff_eq] at this
  exact this.2

structure Alike (ds es : Declarations) : Prop where
  lookup (space : Space) (name : QName) :
    (ds.lookup space name).map Declaration.bare = (es.lookup space name).map Declaration.bare
  groups : (ds.inSpace .group).length = (es.inSpace .group).length
  attributeGroups : (ds.inSpace .attributeGroup).length = (es.inSpace .attributeGroup).length

theorem Alike.refl (ds : Declarations) : ds.Alike ds := ⟨fun _ _ => rfl, rfl, rfl⟩

theorem Alike.symm {ds es : Declarations} (h : ds.Alike es) : es.Alike ds :=
  ⟨fun space name => (h.lookup space name).symm, h.groups.symm, h.attributeGroups.symm⟩

/-- A name is declared in both families or in neither. -/
theorem Alike.cases {ds es : Declarations} (h : ds.Alike es) (space : Space) (name : QName) :
    (ds.lookup space name = none ∧ es.lookup space name = none) ∨
      ∃ d e, ds.lookup space name = some d ∧ es.lookup space name = some e ∧ d.bare = e.bare := by
  have := h.lookup space name
  cases hd : ds.lookup space name with
  | none =>
    rw [hd] at this
    exact .inl ⟨rfl, Option.map_eq_none_iff.mp this.symm⟩
  | some d =>
    rw [hd] at this
    obtain ⟨e, he, hb⟩ := Option.map_eq_some_iff.mp this.symm
    exact .inr ⟨d, e, rfl, he, hb.symm⟩

end Declarations

/-! ## Content models -/

namespace Particle

mutual

def bare : Particle → Particle
  | element range site => element range site.bare
  | group compositor range children => group compositor range (bareAll children)
  | choice range branches => choice range (bareAll branches)
  | wildcard => wildcard
  | unresolved fault key => unresolved fault key
  | broken refusal => broken refusal

def bareAll : List Particle → List Particle
  | [] => []
  | p :: rest => p.bare :: bareAll rest

end

theorem bare_ranged {s t : Site} (h : s.bare = t.bare) (owner : Owner) {f g : Range → Particle}
    (hfg : ∀ r, (f r).bare = (g r).bare) : (ranged owner s f).bare = (ranged owner t g).bare := by
  unfold ranged
  rw [Site.node_of_bare h]
  split
  · exact hfg _
  · simp only [bare, Site.refusal_of_bare h]

theorem bare_ofElement {s t : Site} (h : s.bare = t.bare) (owner : Owner) :
    (ofElement owner s).bare = (ofElement owner t).bare := by
  refine bare_ranged h owner fun r => ?_
  rw [Site.node_of_bare h, Site.modelFault_of_bare h]
  split
  · simp only [bare, h]
  · rfl

section

variable {owner : Owner} {d e : SchemaDocument} {g g' : Site → Particle}

mutual

theorem bare_ofNode (hd : d.bare = e.bare)
    (hg : ∀ {s t : Site}, s.bare = t.bare → (g s).bare = (g' t).bare) :
    ∀ n, (ofNode owner d g n).bare = (ofNode owner e g' n).bare
  | ⟨uri, tag, attributes, bindings, children, text, line⟩ => by
    have hs : (Site.mk ⟨uri, tag, attributes, bindings, children, text, line⟩ d).bare
        = (Site.mk ⟨uri, tag, attributes, bindings, children, text, line⟩ e).bare :=
      congrArg (Site.mk _) hd
    have hc := bare_ofNodes hd hg children
    unfold ofNode
    dsimp only
    split
    · exact bare_ofElement hs owner
    · exact bare_ranged hs owner fun r => by simp only [bare, hc]
    · exact bare_ranged hs owner fun r => by simp only [bare, hc]
    · exact bare_ranged hs owner fun r => by simp only [bare, hc]
    · exact hg hs
    · rfl

theorem bare_ofNodes (hd : d.bare = e.bare)
    (hg : ∀ {s t : Site}, s.bare = t.bare → (g s).bare = (g' t).bare) :
    ∀ ns, bareAll (ofNodes owner d g ns) = bareAll (ofNodes owner e g' ns)
  | [] => rfl
  | n :: ns => by
    unfold ofNodes
    split
    · simp only [bareAll, bare_ofNode hd hg n, bare_ofNodes hd hg ns]
    · exact bare_ofNodes hd hg ns

end

end

variable {ds es : Declarations}

/-- A reference to a group leads to like declarations, or to one fault. -/
theorem declarationOf_cases (ha : ds.Alike es) {s t : Site} (h : s.bare = t.bare) (space : Space)
    (owner : Owner) (reference : String) :
    (∃ x, declarationOf ds space owner reference s = .error x ∧
      declarationOf es space owner reference t = .error x) ∨
    ∃ d e, declarationOf ds space owner reference s = .ok d ∧
      declarationOf es space owner reference t = .ok e ∧ d.bare = e.bare := by
  unfold declarationOf
  rw [Reference.qualify_of_bare h, Site.location_of_bare h]
  split
  · exact .inl ⟨_, rfl, rfl⟩
  · rename_i name _
    obtain ⟨hd, he⟩ | ⟨d, e, hd, he, hb⟩ := ha.cases space name
    · rw [hd, he]; exact .inl ⟨_, rfl, rfl⟩
    · rw [hd, he]; exact .inr ⟨d, e, rfl, rfl, hb⟩

theorem bare_ofGroup (ha : ds.Alike es) {owner : Owner} {openGroups : List QName}
    {f g : Declaration → Range → Particle}
    (hfg : ∀ {d e : Declaration} (r : Range), d.bare = e.bare → (f d r).bare = (g e r).bare)
    {s t : Site} (h : s.bare = t.bare) :
    (ofGroup ds owner openGroups f s).bare = (ofGroup es owner openGroups g t).bare := by
  unfold ofGroup
  rw [Site.node_of_bare h, Site.modelFault_of_bare h]
  split
  · rfl
  · rename_i reference _
    obtain ⟨x, hd, he⟩ | ⟨d, e, hd, he, hb⟩ := declarationOf_cases ha h .group owner reference
    · rw [hd, he]
    · rw [hd, he]
      dsimp only
      rw [Declaration.name_of_bare hb, Site.modelFault_of_bare h]
      split
      · rfl
      · exact bare_ranged h owner fun r => hfg r hb

theorem bare_expandGroup (ha : ds.Alike es) (owner : Owner) (depth : Nat) :
    ∀ (openGroups : List QName) {d e : Declaration} (r : Range), d.bare = e.bare →
      (expandGroup ds owner depth openGroups d r).bare
        = (expandGroup es owner depth openGroups e r).bare := by
  induction depth with
  | zero =>
    intro openGroups d e r h
    simp only [expandGroup, bare, Declaration.name_of_bare h,
      Site.modelFault_of_bare (Declaration.site_of_bare h)]
  | succ depth ih =>
    intro openGroups d e r h
    have hs := Declaration.site_of_bare h
    simp only [expandGroup, bare, Declaration.name_of_bare h, Site.node_of_bare hs]
    rw [bare_ofNodes (Site.document_of_bare hs) (bare_ofGroup ha fun r => ih _ r)]

theorem bare_ofContainer (ha : ds.Alike es) (owner : Owner) {s t : Site} (h : s.bare = t.bare) :
    bareAll (ofContainer ds owner s) = bareAll (ofContainer es owner t) := by
  simp only [ofContainer, Site.node_of_bare h, ha.groups]
  exact bare_ofNodes (Site.document_of_bare h)
    (bare_ofGroup ha fun r => bare_expandGroup ha owner _ _ r) _

end Particle

/-! ## Outlines -/

def Step.bare : Step → Step
  | element range site branches => element range site.bare branches
  | unresolved fault key => unresolved fault key
  | broken fault => broken fault

namespace Outline

def bare (outline : Outline) : Outline := { outline with steps := outline.steps.map Step.bare }

theorem bare_push (outline : Outline) (step : Step) :
    (outline.push step).bare = outline.bare.push step.bare := by
  simp only [push, bare, List.map_append, List.map_cons, List.map_nil]

mutual

theorem bare_add (policy : ChoicePolicy) (outer : Range) (branches : List Branch) (outline : Outline) :
    ∀ p, (add policy outer branches outline p).bare = add policy outer branches outline.bare p.bare
  | .element range site => by simp only [add, bare_push, Particle.bare, Step.bare]
  | .group _ range children => by
    simp only [add, Particle.bare, bare_addAll policy _ branches outline children]
  | .choice range parts => by
    cases policy with
    | allOptional => simp only [add, Particle.bare, bare_addAll _ _ branches outline parts]
    | union =>
      have hl : (Particle.bareAll parts).length = parts.length := length_bareAll parts
      simp only [add, Particle.bare, hl]
      exact bare_addBranches _ _ branches _ _ _ parts
  | .wildcard => rfl
  | .unresolved fault key => by simp only [add, bare_push, Particle.bare, Step.bare]
  | .broken fault => by simp only [add, bare_push, Particle.bare, Step.bare]

theorem bare_addAll (policy : ChoicePolicy) (outer : Range) (branches : List Branch) (outline : Outline) :
    ∀ ps, (addAll policy outer branches outline ps).bare
      = addAll policy outer branches outline.bare (Particle.bareAll ps)
  | [] => rfl
  | p :: rest => by
    simp only [addAll, Particle.bareAll, bare_addAll policy outer branches _ rest,
      bare_add policy outer branches outline p]

theorem bare_addBranches (policy : ChoicePolicy) (outer : Range) (branches : List Branch) (choice index : Nat)
    (outline : Outline) :
    ∀ ps, (addBranches policy outer branches choice index outline ps).bare
      = addBranches policy outer branches choice index outline.bare (Particle.bareAll ps)
  | [] => rfl
  | p :: rest => by
    simp only [addBranches, Particle.bareAll,
      bare_addBranches policy outer branches choice (index + 1) _ rest,
      bare_add policy outer _ outline p]

theorem length_bareAll : ∀ ps, (Particle.bareAll ps).length = ps.length
  | [] => rfl
  | p :: rest => by simp only [Particle.bareAll, List.length_cons, length_bareAll rest]

end

theorem bare_ofParticles (policy : ChoicePolicy) (ps : List Particle) :
    (ofParticles policy ps).bare = ofParticles policy (Particle.bareAll ps) :=
  bare_addAll policy .once [] .empty ps

end Outline

/-! ## Attributes -/

namespace AttributeStep

def bare : AttributeStep → AttributeStep
  | declared site => declared site.bare
  | unresolved fault key => unresolved fault key
  | broken fault => broken fault

theorem bare_ofSite {f g : Site → List AttributeStep}
    (hfg : ∀ {s t : Site}, s.bare = t.bare → (f s).map bare = (g t).map bare)
    {s t : Site} (h : s.bare = t.bare) : (ofSite f s).map bare = (ofSite g t).map bare := by
  simp only [ofSite, List.map_flatMap, Site.node_of_bare h]
  congr 1
  funext node
  split
  · simp only [List.map_cons, List.map_nil, bare, Site.bare_atNode h]
  · exact hfg (Site.bare_atNode h node)
  · rfl

variable {ds es : Declarations}

theorem bare_ofGroup (ha : ds.Alike es) {owner : Owner} {openGroups : List QName}
    {f g : Declaration → List AttributeStep}
    (hfg : ∀ {d e : Declaration}, d.bare = e.bare → (f d).map bare = (g e).map bare)
    {s t : Site} (h : s.bare = t.bare) :
    (ofGroup ds owner openGroups f s).map bare = (ofGroup es owner openGroups g t).map bare := by
  unfold ofGroup
  rw [Site.node_of_bare h]
  split
  · rfl
  · rename_i reference _
    obtain ⟨x, hd, he⟩ | ⟨d, e, hd, he, hb⟩ :=
      Particle.declarationOf_cases ha h .attributeGroup owner reference
    · rw [hd, he]
    · rw [hd, he]
      dsimp only
      rw [Declaration.name_of_bare hb, Site.modelFault_of_bare h]
      split
      · rfl
      · exact hfg hb

theorem bare_expandGroup (ha : ds.Alike es) (owner : Owner) (depth : Nat) :
    ∀ (openGroups : List QName) {d e : Declaration}, d.bare = e.bare →
      (expandGroup ds owner depth openGroups d).map bare
        = (expandGroup es owner depth openGroups e).map bare := by
  induction depth with
  | zero =>
    intro openGroups d e h
    simp only [expandGroup, List.map_cons, List.map_nil, bare, Declaration.name_of_bare h,
      Site.modelFault_of_bare (Declaration.site_of_bare h)]
  | succ depth ih =>
    intro openGroups d e h
    simp only [expandGroup, Declaration.name_of_bare h]
    exact bare_ofSite (bare_ofGroup ha (ih _)) (Declaration.site_of_bare h)

theorem bare_ofContainer (ha : ds.Alike es) (owner : Owner) {s t : Site} (h : s.bare = t.bare) :
    (ofContainer ds owner s).map bare = (ofContainer es owner t).map bare := by
  simp only [ofContainer, ha.attributeGroups]
  exact bare_ofSite (bare_ofGroup ha (bare_expandGroup ha owner _ _)) h

end AttributeStep

end WsdlCatalog
