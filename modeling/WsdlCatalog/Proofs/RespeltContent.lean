/-
  WsdlCatalog.Proofs.RespeltContent — content models that differ in their prefixes.

  A content model refers to model groups, and the attributes of a type to attribute groups. If
  the references mean the same, the particles, outlines and attributes are the same up to the
  elements that they stand for. A reference to a group means something in both places or in
  neither; what is reported then is not compared.

  Proved: this is so for outlines (`Outline.respelt_ofContainer`) and for the attributes of a
  type (`AttributeStep.respelt_ofContainer`).
-/

import WsdlCatalog.Content.AttributeSite
import WsdlCatalog.Content.Outline
import WsdlCatalog.Proofs.Respelling

namespace WsdlCatalog

theorem Range.ofNode_respelt {reads : String} {d e : SchemaDocument} {m n : Xml.Node}
    (h : Xml.Node.Respelt reads d e m n) : Range.ofNode m = Range.ofNode n := by
  unfold Range.ofNode Range.minimumOf Range.maximumOf
  rw [h.plain _ (by decide), h.plain _ (by decide)]

/-! ## Particles -/

inductive Particle.Respelt : Particle → Particle → Prop where
  | element (range : Range) {s t : Site} (h : s.Respelt Vocabulary.xsd t) :
    Respelt (.element range s) (.element range t)
  | group (compositor : Compositor) (range : Range) {ps qs : List Particle}
    (h : List.Forall₂ Respelt ps qs) : Respelt (.group compositor range ps) (.group compositor range qs)
  | choice (range : Range) {ps qs : List Particle} (h : List.Forall₂ Respelt ps qs) :
    Respelt (.choice range ps) (.choice range qs)
  | wildcard : Respelt .wildcard .wildcard
  | unresolved (f f' : Fault) (key key' : String) : Respelt (.unresolved f key) (.unresolved f' key')
  | broken (e e' : Refusal) : Respelt (.broken e) (.broken e')

namespace Particle

variable {s t : Site} {ds es : Declarations} {owner : Owner}

theorem respelt_ranged (hs : s.Respelt Vocabulary.xsd t) {f g : Range → Particle}
    (hfg : ∀ r, (f r).Respelt (g r)) : (ranged owner s f).Respelt (ranged owner t g) := by
  unfold ranged
  rw [← Range.ofNode_respelt hs.node]
  split
  · exact hfg _
  · exact .broken _ _

theorem respelt_ofElement (hs : s.Respelt Vocabulary.xsd t) :
    (ofElement owner s).Respelt (ofElement owner t) := by
  refine respelt_ranged hs fun r => ?_
  rw [← hs.node.isSome_filled (by decide), ← hs.node.filled "name" (by decide)]
  split
  · exact .element r hs
  · exact .broken _ _

section

variable {d e : SchemaDocument} {g g' : Site → Particle}

mutual

theorem respelt_ofNode (hg : ∀ s t : Site, s.Respelt Vocabulary.xsd t → (g s).Respelt (g' t)) :
    ∀ m n : Xml.Node, Site.Respelt Vocabulary.xsd ⟨m, d⟩ ⟨n, e⟩ →
      (ofNode owner d g m).Respelt (ofNode owner e g' n)
  | ⟨uri, tag, attributes, bindings, children, text, line⟩,
    ⟨uri', tag', attributes', bindings', children', text', line'⟩, h => by
    have parts := respelt_ofNodes hg h.targetNamespace children children' h.node.children
    obtain rfl : tag = tag' := h.node.tag
    unfold ofNode
    dsimp only
    split
    · exact respelt_ofElement h
    · exact respelt_ranged h fun r => .group _ r parts
    · exact respelt_ranged h fun r => .group _ r parts
    · exact respelt_ranged h fun r => .choice r parts
    · exact hg _ _ h
    · exact .wildcard

theorem respelt_ofNodes (hg : ∀ s t : Site, s.Respelt Vocabulary.xsd t → (g s).Respelt (g' t))
    (hd : d.targetNamespace = e.targetNamespace) :
    ∀ ms ns : List Xml.Node, List.Forall₂ (Xml.Node.Respelt Vocabulary.xsd d e) ms ns →
      List.Forall₂ Respelt (ofNodes owner d g ms) (ofNodes owner e g' ns)
  | [], _, .nil => .nil
  | m :: ms, n :: ns, .cons first rest => by
    have same : isPart m = isPart n := by
      unfold isPart
      rw [first.uri, first.tag]
    unfold ofNodes
    rw [← same]
    split
    · rename_i part
      have uri := eq_of_beq (Bool.and_eq_true_iff.mp part).1
      exact .cons (respelt_ofNode hg m n ⟨first, uri, hd⟩) (respelt_ofNodes hg hd ms ns rest)
    · exact respelt_ofNodes hg hd ms ns rest

end

end

/-- References to a group lead to declarations that differ in their prefixes, or both to none. -/
theorem declarationOf_respelt (h : ds.Respelt es) {v w : String} (same : Reference.Same s t v w)
    (space : Space) :
    (∃ x y, declarationOf ds space owner v s = .error x ∧ declarationOf es space owner w t = .error y) ∨
    ∃ d e, declarationOf ds space owner v s = .ok d ∧ declarationOf es space owner w t = .ok e ∧
      d.Respelt e := by
  unfold declarationOf Reference.qualify
  cases hv : Reference.meaning v s with
  | error pfx =>
    obtain ⟨pfx', hw⟩ := same.error hv
    rw [hw]
    exact .inl ⟨_, _, rfl, rfl⟩
  | ok name =>
    rw [same.ok hv]
    dsimp only [Except.mapError]
    rcases rel_cases (h.lookup space name) with ⟨hd, he⟩ | ⟨d, e, hd, he, respelt⟩
    · rw [hd, he]
      exact .inl ⟨_, _, rfl, rfl⟩
    · rw [hd, he]
      exact .inr ⟨d, e, rfl, rfl, respelt⟩

theorem respelt_ofGroup (h : ds.Respelt es) {openGroups : List QName}
    {f g : Declaration → Range → Particle}
    (hfg : ∀ (d e : Declaration) (r : Range), d.Respelt e → (f d r).Respelt (g e r))
    (s t : Site) (hs : s.Respelt Vocabulary.xsd t) :
    (ofGroup ds owner openGroups f s).Respelt (ofGroup es owner openGroups g t) := by
  unfold ofGroup
  rcases rel_cases (hs.reference "ref" (by decide)) with ⟨hm, hn⟩ | ⟨v, w, hm, hn, reference⟩
  · rw [hm, hn]
    exact .broken _ _
  · rw [hm, hn]
    dsimp only
    rcases declarationOf_respelt h reference.same .group with ⟨x, y, hd, he⟩ | ⟨d, e, hd, he, respelt⟩
    · rw [hd, he]
      exact .unresolved _ _ _ _
    · rw [hd, he]
      dsimp only
      rw [← respelt.name]
      split
      · exact .broken _ _
      · exact respelt_ranged hs fun r => hfg d e r respelt

theorem respelt_expandGroup (h : ds.Respelt es) (depth : Nat) :
    ∀ (openGroups : List QName) (d e : Declaration) (r : Range), d.Respelt e →
      (expandGroup ds owner depth openGroups d r).Respelt (expandGroup es owner depth openGroups e r) := by
  induction depth with
  | zero => exact fun _ _ _ _ _ => .broken _ _
  | succ depth ih =>
    intro openGroups d e r hd
    unfold expandGroup
    dsimp only
    rw [← hd.name]
    exact .group _ r (respelt_ofNodes (respelt_ofGroup h (ih _)) hd.site.targetNamespace _ _
      (hd.site.node.childrenIn _ _))

theorem respelt_ofContainer (h : ds.Respelt es) (hs : s.Respelt Vocabulary.xsd t) :
    List.Forall₂ Respelt (ofContainer ds owner s) (ofContainer es owner t) := by
  unfold ofContainer
  dsimp only
  rw [(h.inSpace .group).length_eq]
  exact respelt_ofNodes (respelt_ofGroup h (respelt_expandGroup h _ _)) hs.targetNamespace _ _
    (hs.node.childrenIn _ _)

end Particle

/-! ## Outlines -/

inductive Step.Respelt : Step → Step → Prop where
  | element (range : Range) {s t : Site} (h : s.Respelt Vocabulary.xsd t) (branches : List Branch) :
    Respelt (.element range s branches) (.element range t branches)
  | unresolved (f f' : Fault) (key key' : String) : Respelt (.unresolved f key) (.unresolved f' key')
  | broken (e e' : Refusal) : Respelt (.broken e) (.broken e')

namespace Outline

structure Respelt (o o' : Outline) : Prop where
  steps : List.Forall₂ Step.Respelt o.steps o'.steps
  frames : o.frames = o'.frames

variable {o o' : Outline}

theorem Respelt.push (h : o.Respelt o') {x y : Step} (hxy : x.Respelt y) :
    (o.push x).Respelt (o'.push y) :=
  ⟨List.rel_append h.steps (.cons hxy .nil), h.frames⟩

mutual

theorem respelt_add (policy : ChoicePolicy) (outer : Range) (branches : List Branch) :
    ∀ {o o' : Outline} (p : Particle) {q : Particle}, o.Respelt o' → p.Respelt q →
      (add policy outer branches o p).Respelt (add policy outer branches o' q)
  | _, _, .element _ _, _, h, .element _ hs => by
    unfold add
    exact h.push (.element _ hs _)
  | _, _, .group _ _ children, _, h, .group _ _ hs => by
    unfold add
    exact respelt_addAll policy _ branches children h hs
  | _, _, .choice _ parts, _, h, .choice _ hs => by
    unfold add
    cases policy with
    | allOptional => exact respelt_addAll _ _ branches parts h hs
    | union =>
      dsimp only
      rw [hs.length_eq, h.frames]
      exact respelt_addBranches _ _ branches _ _ parts ⟨h.steps, rfl⟩ hs
  | _, _, .wildcard, _, h, .wildcard => by
    unfold add
    exact h
  | _, _, .unresolved _ _, _, h, .unresolved .. => by
    unfold add
    exact h.push (.unresolved ..)
  | _, _, .broken _, _, h, .broken .. => by
    unfold add
    exact h.push (.broken ..)

theorem respelt_addAll (policy : ChoicePolicy) (outer : Range) (branches : List Branch) :
    ∀ {o o' : Outline} (ps : List Particle) {qs : List Particle}, o.Respelt o' →
      List.Forall₂ Particle.Respelt ps qs →
      (addAll policy outer branches o ps).Respelt (addAll policy outer branches o' qs)
  | _, _, [], _, h, .nil => h
  | _, _, p :: ps, _, h, .cons first rest => by
    unfold addAll
    exact respelt_addAll policy outer branches ps (respelt_add policy outer branches p h first) rest

theorem respelt_addBranches (policy : ChoicePolicy) (outer : Range) (branches : List Branch)
    (choice index : Nat) :
    ∀ {o o' : Outline} (ps : List Particle) {qs : List Particle}, o.Respelt o' →
      List.Forall₂ Particle.Respelt ps qs →
      (addBranches policy outer branches choice index o ps).Respelt
        (addBranches policy outer branches choice index o' qs)
  | _, _, [], _, h, .nil => h
  | _, _, p :: ps, _, h, .cons first rest => by
    unfold addBranches
    exact respelt_addBranches policy outer branches choice (index + 1) ps
      (respelt_add policy outer _ p h first) rest

end

theorem respelt_ofContainer {ds es : Declarations} (h : ds.Respelt es) {s t : Site}
    (hs : s.Respelt Vocabulary.xsd t) (owner : Owner) (policy : ChoicePolicy) :
    (ofParticles policy (Particle.ofContainer ds owner s)).Respelt
      (ofParticles policy (Particle.ofContainer es owner t)) :=
  respelt_addAll policy .once [] _ ⟨.nil, rfl⟩ (Particle.respelt_ofContainer h hs)

end Outline

/-! ## Attributes -/

inductive AttributeStep.Respelt : AttributeStep → AttributeStep → Prop where
  | declared {s t : Site} (h : s.Respelt Vocabulary.xsd t) : Respelt (.declared s) (.declared t)
  | unresolved (f f' : Fault) (key key' : String) : Respelt (.unresolved f key) (.unresolved f' key')
  | broken (f f' : Fault) : Respelt (.broken f) (.broken f')

namespace AttributeStep

variable {ds es : Declarations} {owner : Owner}

theorem respelt_ofSite {f g : Site → List AttributeStep}
    (hfg : ∀ s t : Site, s.Respelt Vocabulary.xsd t → List.Forall₂ Respelt (f s) (g t)) {s t : Site}
    (hs : s.Respelt Vocabulary.xsd t) : List.Forall₂ Respelt (ofSite f s) (ofSite g t) := by
  unfold ofSite
  refine List.rel_flatMap (hs.childrenIn []) fun m n hmn => ?_
  have tag : m.tag = n.tag := hmn.node.tag
  rw [← tag]
  split
  · exact .cons (.declared hmn) .nil
  · exact hfg _ _ hmn
  · exact .nil

theorem respelt_ofGroup (h : ds.Respelt es) {openGroups : List QName}
    {f g : Declaration → List AttributeStep}
    (hfg : ∀ d e : Declaration, d.Respelt e → List.Forall₂ Respelt (f d) (g e)) (s t : Site)
    (hs : s.Respelt Vocabulary.xsd t) :
    List.Forall₂ Respelt (ofGroup ds owner openGroups f s) (ofGroup es owner openGroups g t) := by
  unfold ofGroup
  rcases rel_cases (hs.reference "ref" (by decide)) with ⟨hm, hn⟩ | ⟨v, w, hm, hn, reference⟩
  · rw [hm, hn]
    exact .nil
  · rw [hm, hn]
    dsimp only
    rcases Particle.declarationOf_respelt h reference.same .attributeGroup with
      ⟨x, y, hd, he⟩ | ⟨d, e, hd, he, respelt⟩
    · rw [hd, he]
      exact .cons (.unresolved _ _ _ _) .nil
    · rw [hd, he]
      dsimp only
      rw [← respelt.name]
      split
      · exact .cons (.broken _ _) .nil
      · exact hfg d e respelt

theorem respelt_expandGroup (h : ds.Respelt es) (depth : Nat) :
    ∀ (openGroups : List QName) (d e : Declaration), d.Respelt e →
      List.Forall₂ Respelt (expandGroup ds owner depth openGroups d)
        (expandGroup es owner depth openGroups e) := by
  induction depth with
  | zero => exact fun _ _ _ _ => .cons (.broken _ _) .nil
  | succ depth ih =>
    intro openGroups d e hd
    unfold expandGroup
    dsimp only
    rw [← hd.name]
    exact respelt_ofSite (respelt_ofGroup h (ih _)) hd.site

theorem respelt_ofContainer (h : ds.Respelt es) {s t : Site} (hs : s.Respelt Vocabulary.xsd t) :
    List.Forall₂ Respelt (ofContainer ds owner s) (ofContainer es owner t) := by
  unfold ofContainer
  dsimp only
  rw [(h.inSpace .attributeGroup).length_eq]
  exact respelt_ofSite (respelt_ofGroup h (respelt_expandGroup h _ _)) hs

end AttributeStep

end WsdlCatalog
