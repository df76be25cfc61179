/-
  WsdlCatalog.Proofs.Unanswered — the faults of references that mean nothing.

  A content model keeps a reference to a group that is not declared in its place, with
  the fault that it is. Such a fault is of the kind that may be reported and passed over
  (`Fault.IsUnanswered`); no other fault stands in such a place.

  Proved: so it is in content models, outlines and attributes
  (`Particle.unanswered_ofContainer`, `Outline.unanswered_ofParticles`,
  `AttributeStep.unanswered_ofContainer`).
-/

import WsdlCatalog.Content.AttributeSite
import WsdlCatalog.Content.Outline

namespace WsdlCatalog

def Fault.IsUnanswered (fault : Fault) : Prop := fault.kind = Diagnostic.unresolvedKind

namespace Reference

theorem unanswered_of_qualify {reference : String} {site : Site} {referencedBy : Option String}
    {fault : Fault} (h : qualify reference site referencedBy = .error fault) :
    fault.IsUnanswered := by
  unfold qualify at h
  cases hm : meaning reference site with
  | ok name => rw [hm] at h; cases h
  | error pfx => rw [hm] at h; cases h; rfl

end Reference

/-! ## Content models -/

namespace Particle

mutual

def Unanswered : Particle → Prop
  | element _ _ => True
  | group _ _ children => AllUnanswered children
  | choice _ branches => AllUnanswered branches
  | wildcard => True
  | unresolved fault _ => fault.IsUnanswered
  | broken _ => True

def AllUnanswered : List Particle → Prop
  | [] => True
  | p :: rest => p.Unanswered ∧ AllUnanswered rest

end

theorem unanswered_ranged (owner : Owner) (site : Site) {f : Range → Particle}
    (hf : ∀ r, (f r).Unanswered) : (ranged owner site f).Unanswered := by
  unfold ranged
  split
  · exact hf _
  · simp only [Unanswered]

theorem unanswered_of_declarationOf {ds : Declarations} {space : Space} {owner : Owner}
    {reference : String} {site : Site} {fault : Fault} {key : String}
    (h : declarationOf ds space owner reference site = .error (fault, key)) :
    fault.IsUnanswered := by
  unfold declarationOf at h
  split at h
  · rename_i hq
    cases h
    exact Reference.unanswered_of_qualify hq
  · split at h
    · cases h
    · cases h; rfl

section

variable {owner : Owner} {document : SchemaDocument} {group : Site → Particle}

mutual

theorem unanswered_ofNode (hg : ∀ site, (group site).Unanswered) :
    ∀ n, (ofNode owner document group n).Unanswered
  | ⟨uri, tag, attributes, bindings, children, text, line⟩ => by
    have hc := unanswered_ofNodes hg children
    unfold ofNode
    dsimp only
    split
    · refine unanswered_ranged owner _ fun r => ?_
      split <;> simp only [Unanswered]
    · exact unanswered_ranged owner _ fun r => by simpa only [Unanswered] using hc
    · exact unanswered_ranged owner _ fun r => by simpa only [Unanswered] using hc
    · exact unanswered_ranged owner _ fun r => by simpa only [Unanswered] using hc
    · exact hg _
    · simp only [Unanswered]

theorem unanswered_ofNodes (hg : ∀ site, (group site).Unanswered) :
    ∀ ns, AllUnanswered (ofNodes owner document group ns)
  | [] => by simp only [ofNodes, AllUnanswered]
  | n :: ns => by
    unfold ofNodes
    split
    · exact ⟨unanswered_ofNode hg n, unanswered_ofNodes hg ns⟩
    · exact unanswered_ofNodes hg ns

end

end

variable (ds : Declarations) (owner : Owner)

theorem unanswered_ofGroup (openGroups : List QName) {f : Declaration → Range → Particle}
    (hf : ∀ d r, (f d r).Unanswered) (site : Site) :
    (ofGroup ds owner openGroups f site).Unanswered := by
  unfold ofGroup
  split
  · simp only [Unanswered]
  · split
    · rename_i hd
      exact unanswered_of_declarationOf hd
    · split
      · simp only [Unanswered]
      · exact unanswered_ranged owner site (hf _)

theorem unanswered_expandGroup (depth : Nat) :
    ∀ openGroups d r, (expandGroup ds owner depth openGroups d r).Unanswered := by
  induction depth with
  | zero => intro openGroups d r; simp only [expandGroup, Unanswered]
  | succ depth ih =>
    intro openGroups d r
    simp only [expandGroup, Unanswered]
    exact unanswered_ofNodes (unanswered_ofGroup ds owner _ (ih _)) _

theorem unanswered_ofContainer (container : Site) :
    AllUnanswered (ofContainer ds owner container) :=
  unanswered_ofNodes (unanswered_ofGroup ds owner _ (unanswered_expandGroup ds owner _ _)) _

end Particle

/-! ## Outlines -/

def Step.Unanswered : Step → Prop
  | unresolved fault _ => fault.IsUnanswered
  | _ => True

namespace Outline

def Unanswered (outline : Outline) : Prop := ∀ step ∈ outline.steps, step.Unanswered

theorem unanswered_push {outline : Outline} (h : outline.Unanswered) {step : Step}
    (hs : step.Unanswered) : (outline.push step).Unanswered := by
  intro s hm
  rcases List.mem_append.mp hm with hm | hm
  · exact h s hm
  · rw [List.mem_singleton.mp hm]; exact hs

mutual

theorem unanswered_add (policy : ChoicePolicy) (outer : Range) (branches : List Branch)
    {outline : Outline} (h : outline.Unanswered) :
    ∀ p, p.Unanswered → (add policy outer branches outline p).Unanswered
  | .element range site, _ => by rw [add]; exact unanswered_push h trivial
  | .group _ range children, hp => by
    rw [add]
    exact unanswered_addAll policy _ branches h children hp
  | .choice range parts, hp => by
    cases policy with
    | allOptional => simp only [add]; exact unanswered_addAll _ _ branches h parts hp
    | union =>
      let frame : ChoiceFrame := ⟨outer.mul range, parts.length⟩
      have hf : Unanswered { outline with frames := outline.frames ++ [frame] } := h
      simp only [add]
      exact unanswered_addBranches _ _ branches _ _ hf parts hp
  | .wildcard, _ => h
  | .unresolved fault key, hp => by rw [add]; exact unanswered_push h hp
  | .broken fault, _ => by rw [add]; exact unanswered_push h trivial

theorem unanswered_addAll (policy : ChoicePolicy) (outer : Range) (branches : List Branch)
    {outline : Outline} (h : outline.Unanswered) :
    ∀ ps, Particle.AllUnanswered ps → (addAll policy outer branches outline ps).Unanswered
  | [], _ => h
  | p :: rest, hp =>
    unanswered_addAll policy outer branches (unanswered_add policy outer branches h p hp.1) rest hp.2

theorem unanswered_addBranches (policy : ChoicePolicy) (outer : Range) (branches : List Branch)
    (choice index : Nat) {outline : Outline} (h : outline.Unanswered) :
    ∀ ps, Particle.AllUnanswered ps →
      (addBranches policy outer branches choice index outline ps).Unanswered
  | [], _ => h
  | p :: rest, hp =>
    unanswered_addBranches policy outer branches choice (index + 1)
      (unanswered_add policy outer _ h p hp.1) rest hp.2

end

theorem unanswered_ofParticles (policy : ChoicePolicy) {ps : List Particle}
    (h : Particle.AllUnanswered ps) : (ofParticles policy ps).Unanswered :=
  unanswered_addAll policy .once [] (fun _ hm => absurd hm List.not_mem_nil) ps h

end Outline

/-! ## Attributes -/

namespace AttributeStep

def Unanswered : AttributeStep → Prop
  | unresolved fault _ => fault.IsUnanswered
  | _ => True

theorem unanswered_ofSite {f : Site → List AttributeStep}
    (hf : ∀ site, ∀ step ∈ f site, step.Unanswered) (site : Site) :
    ∀ step ∈ ofSite f site, step.Unanswered := by
  intro step hm
  obtain ⟨node, -, hm⟩ := List.mem_flatMap.mp hm
  split at hm
  · rw [List.mem_singleton.mp hm]; trivial
  · exact hf _ step hm
  · cases hm

variable (ds : Declarations) (owner : Owner)

theorem unanswered_ofGroup (openGroups : List QName) {f : Declaration → List AttributeStep}
    (hf : ∀ d, ∀ step ∈ f d, step.Unanswered) (site : Site) :
    ∀ step ∈ ofGroup ds owner openGroups f site, step.Unanswered := by
  unfold ofGroup
  intro step hm
  split at hm
  · cases hm
  · split at hm
    · rename_i hd
      rw [List.mem_singleton.mp hm]
      exact Particle.unanswered_of_declarationOf hd
    · split at hm
      · rw [List.mem_singleton.mp hm]; trivial
      · exact hf _ step hm

theorem unanswered_expandGroup (depth : Nat) :
    ∀ openGroups d, ∀ step ∈ expandGroup ds owner depth openGroups d, step.Unanswered := by
  induction depth with
  | zero =>
    intro openGroups d step hm
    rw [expandGroup, List.mem_singleton] at hm
    rw [hm]; trivial
  | succ depth ih =>
    intro openGroups d
    exact unanswered_ofSite (unanswered_ofGroup ds owner _ (ih _)) d.site

theorem unanswered_ofContainer (container : Site) :
    ∀ step ∈ ofContainer ds owner container, step.Unanswered :=
  unanswered_ofSite (unanswered_ofGroup ds owner _ (unanswered_expandGroup ds owner _ _)) container

end AttributeStep

end WsdlCatalog
