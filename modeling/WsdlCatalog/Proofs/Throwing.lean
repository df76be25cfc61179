/-
  WsdlCatalog.Proofs.Throwing — where refusals come from.

  Whatever follows references, reserves names or reports conditions throws refusals of its own,
  none of which is for a group inside itself or for types nested without end
  (`Refusal.Ordinary`). Those two come from one place each: the former from a fault that stands
  in a content model or among attributes, the latter from the bound on the depth of types. What
  a step may throw does not depend on the progress that it starts from (`Throws`).

  Proved: the body of a type throws the faults of its content model and of its attributes, what
  the types inside its elements throw, and ordinary refusals (`throws_bodyOf`).
-/

import WsdlCatalog.Proofs.Documented
import WsdlCatalog.Proofs.GroupExpansion
import WsdlCatalog.Proofs.PlainViews

namespace WsdlCatalog

/-- The refusal is not for groups in a circle, and not for types nested without end. -/
def Refusal.Ordinary : Refusal → Prop
  | .fault (.model cause _) => ¬ cause.IsCircle
  | .fault (.endlessNesting _ _ _) => False
  | _ => True

theorem Fault.IsUnanswered.ordinary {f : Fault} (h : f.IsUnanswered) : (Refusal.fault f).Ordinary := by
  cases f with
  | model cause place =>
    have other : "malformed-content-model" ≠ Diagnostic.unresolvedKind := by decide
    exact absurd h other
  | endlessNesting =>
    have other : "malformed-content-model" ≠ Diagnostic.unresolvedKind := by decide
    exact absurd h other
  | _ => trivial

theorem Range.Error.ordinary {error : Range.Error}
    (h : ∀ fault, error = .model fault → ¬ fault.IsCircle) (site : Site) (owner : Owner) :
    (error.refusal site owner).Ordinary := by
  cases error with
  | model fault => exact h fault rfl
  | overlong => exact trivial

def Content.attributesAt : Content → Site
  | simple derivation _ => derivation
  | complex container _ _ => container

theorem Content.ordinary_of_ofSite {owner : Owner} {site : Site} {f : Fault}
    (h : Content.ofSite owner site = .error f) : (Refusal.fault f).Ordinary := by
  unfold Content.ofSite at h
  split at h
  · split at h <;> cases h
    trivial
  · split at h <;> cases h
    trivial
  · cases h

theorem Members.not_isCircle_of_insert {leaf : Leaf} {leaves : List Leaf} {fault : ModelFault}
    (h : insert leaf leaves = .error fault) : ¬ fault.IsCircle := by
  induction leaves with
  | nil => cases h
  | cons first rest ih =>
    unfold insert at h
    split at h
    · split at h <;> cases h
      exact not_false
    · cases hi : insert leaf rest with
      | ok result =>
        rw [hi] at h
        cases h
      | error e =>
        rw [hi] at h
        cases h
        exact ih hi

theorem Members.not_isCircle_of_addElement {members : Members} {leaf : Leaf} {branches : List Branch}
    {fault : ModelFault} (h : members.addElement leaf branches = .error fault) : ¬ fault.IsCircle := by
  unfold addElement at h
  rcases error_bind h with h | ⟨_, -, h⟩
  · exact not_isCircle_of_insert h
  · cases h

theorem Members.not_isCircle_of_addAttribute {members : Members} {a : Attribute} {fault : ModelFault}
    (h : members.addAttribute a = .error fault) : ¬ fault.IsCircle := by
  unfold addAttribute at h
  split at h
  · cases h
  · split at h <;> cases h
    exact not_false

namespace Compile

variable {S : Setting} {α β ι σ : Type} {Q : Refusal → Prop}

theorem not_isCircle_of_attributeUse {site : Site} {fault : ModelFault}
    (h : attributeUse site = .error fault) : ¬ fault.IsCircle := by
  unfold attributeUse at h
  split at h
  · cases h
  · split at h <;> cases h
    exact not_false

/-- The refusals of a step have a property, whatever the progress before it. -/
def Throws (Q : Refusal → Prop) (m : Compile α) : Prop :=
  ∀ p e q, m.outcome p = (.error e, q) → Q e

/-! ## Making steps from steps -/

theorem Throws.mono {m : Compile α} (h : Throws Refusal.Ordinary m)
    (hq : ∀ e : Refusal, e.Ordinary → Q e) : Throws Q m := fun p e q hr => hq e (h p e q hr)

theorem throws_pure (a : α) : Throws Q (pure a : Compile α) := fun _ _ _ h => nomatch h

theorem throws_throw {e : Refusal} (h : Q e) : Throws Q (throw e : Compile α) := by
  intro p e' q hr
  rw [outcome_throw] at hr
  cases hr
  exact h

theorem throws_fail {f : Fault} (h : Q (.fault f)) : Throws Q (fail f : Compile α) := throws_throw h

theorem Throws.bind {m : Compile α} {k : α → Compile β} (h : Throws Q m) (hk : ∀ a, Throws Q (k a)) :
    Throws Q (m >>= k) := by
  intro p e q hr
  rw [outcome_bind] at hr
  rcases hm : m.outcome p with ⟨e' | a, r⟩
  · rw [hm] at hr
    cases hr
    exact h p e q hm
  · rw [hm] at hr
    exact hk a r e q hr

theorem throws_fail_bind {f : Fault} (h : Q (.fault f)) {k : α → Compile β} :
    Throws Q (fail f >>= k) := by
  intro p e q hr
  rw [outcome_bind, outcome_fail] at hr
  cases hr
  exact h

theorem Throws.map {m : Compile α} (h : Throws Q m) (f : α → β) : Throws Q (f <$> m) := by
  rw [← bind_pure_comp]
  exact h.bind fun a => throws_pure (f a)

theorem throws_inventory : Throws Q inventory := fun _ _ _ h => nomatch h

theorem throws_modify (f : Progress → Progress) : Throws Q (modify f : Compile Unit) :=
  fun _ _ _ h => nomatch h

theorem throws_ofExcept {x : Except Fault α} (h : ∀ f, x = .error f → Q (.fault f)) :
    Throws Q (ofExcept x) := by
  cases x with
  | ok a => exact throws_pure a
  | error f => exact throws_fail (h f rfl)

theorem throws_atSite {site : Site} {owner : Owner} {x : Except ModelFault α}
    (h : ∀ fault, x = .error fault → ¬ fault.IsCircle) :
    Throws Refusal.Ordinary (atSite site owner x) := by
  refine throws_ofExcept fun f hf => ?_
  cases x with
  | ok a => cases hf
  | error fault =>
    cases hf
    exact h fault rfl

theorem throws_foldlM {f : σ → ι → Compile σ} {is : List ι} (h : ∀ a, ∀ i ∈ is, Throws Q (f a i)) :
    ∀ a, Throws Q (is.foldlM f a) := by
  induction is with
  | nil => exact throws_pure
  | cons i rest ih =>
    intro a
    rw [List.foldlM_cons]
    exact (h a i List.mem_cons_self).bind (ih fun a j hj => h a j (List.mem_cons_of_mem _ hj))

theorem throws_report {f : Fault} (hf : f.IsUnanswered) (key : String) :
    Throws Refusal.Ordinary (report S f key) := by
  intro p e q hr
  rw [outcome_report] at hr
  split at hr
  · cases hr
    exact hf.ordinary
  · cases hr

theorem throws_reserve (owner canonical : String) (name : QName) :
    Throws Refusal.Ordinary (reserve owner canonical name) := by
  refine throws_inventory.bind fun i => (throws_ofExcept fun f hf => ?_).bind fun x =>
    (throws_modify _).bind fun _ => throws_pure _
  unfold Inventory.reserve at hf
  split at hf
  · cases hf
  · split at hf <;> cases hf
    trivial

/-! ## References -/

theorem throws_qualify (reference : String) (site : Site) (referencedBy : Option String) :
    Throws Refusal.Ordinary (qualify S reference site referencedBy) := by
  unfold qualify
  split
  · exact throws_pure _
  · rename_i hq
    exact (throws_report (Reference.unanswered_of_qualify hq) _).bind fun _ => throws_pure _

theorem throws_missing (space : Space) (name : QName) (site : Site) (referencedBy : Option String) :
    Throws Refusal.Ordinary (missing S space name site referencedBy) := by
  have unanswered : (Fault.undeclared space name referencedBy site.document.location).IsUnanswered := rfl
  exact throws_report unanswered _

theorem throws_lookup (space : Space) (reference : String) (site : Site)
    (referencedBy : Option String) :
    Throws Refusal.Ordinary (lookup S space reference site referencedBy) := by
  refine (throws_qualify reference site referencedBy).bind fun name => ?_
  cases name with
  | none => exact throws_pure _
  | some name =>
    dsimp only
    split
    · exact throws_pure _
    · exact (throws_missing space name site referencedBy).bind fun _ => throws_pure _

theorem throws_resolveTypeWith {f : Declaration → Compile ScalarAlias}
    (hf : ∀ d, Throws Refusal.Ordinary (f d)) (reference : String) (site : Site) (owner : Owner) :
    Throws Refusal.Ordinary (resolveTypeWith S f reference site owner) := by
  rw [resolveTypeWith_eq]
  split
  · rename_i ht
    exact (throws_report (Reference.unanswered_of_target ht owner) _).bind fun _ => throws_pure _
  · exact throws_pure _
  · exact (hf _).bind fun _ => throws_pure _
  · exact throws_inventory.bind fun _ => throws_pure _

theorem throws_simpleShapeWith {f : Declaration → Compile ScalarAlias}
    (hf : ∀ d, Throws Refusal.Ordinary (f d)) (owner : Owner) (site : Site) :
    Throws Refusal.Ordinary (simpleShapeWith S f owner site) := by
  rw [simpleShapeWith_eq]
  split
  · exact throws_pure _
  · rename_i ho
    exact (throws_report (Setting.unanswered_of_origin ho owner) _).bind fun _ => throws_pure _
  · refine (hf _).bind fun a => throws_inventory.bind fun i => ?_
    split
    · exact throws_pure _
    · exact throws_throw trivial
  · exact throws_fail trivial

theorem throws_compileAliasIn (depth : Nat) :
    ∀ chain d, Throws Refusal.Ordinary (compileAliasIn S depth chain d) := by
  induction depth with
  | zero => exact fun _ _ => throws_fail trivial
  | succ depth ih =>
    intro chain d
    unfold compileAliasIn
    refine throws_inventory.bind fun i => throws_inventory.bind fun i' => ?_
    split
    · exact throws_pure _
    split
    · exact throws_fail trivial
    · exact (throws_simpleShapeWith (ih _) _ _).bind fun _ =>
        (throws_modify _).bind fun _ => throws_pure _

theorem throws_compileAlias (d : Declaration) : Throws Refusal.Ordinary (compileAlias S d) :=
  throws_compileAliasIn _ _ d

theorem throws_statedType (default : QName) (owner simpleOwner : Owner) (site : Site) :
    Throws Refusal.Ordinary (statedType S default owner simpleOwner site) := by
  unfold statedType
  split
  · exact throws_resolveTypeWith throws_compileAlias _ site owner
  split
  · exact (throws_simpleShapeWith throws_compileAlias simpleOwner _).bind fun _ => throws_pure _
  · exact throws_pure _

theorem throws_globalElementType (d : Declaration) (referencedBy : Option String) :
    Throws Refusal.Ordinary (globalElementType S d referencedBy) := by
  unfold globalElementType
  split
  · exact throws_inventory.bind fun _ => throws_pure _
  · exact throws_statedType _ _ _ d.site

theorem throws_elementReference (reference : String) (site : Site) (owner : Owner) :
    Throws Refusal.Ordinary (elementReference S reference site owner) := by
  refine (throws_lookup .element reference site owner).bind fun found => ?_
  cases found with
  | none => exact throws_pure _
  | some d => exact (throws_globalElementType d owner).bind fun _ => throws_pure _

theorem throws_attributeReference (reference : String) (site : Site) (owner : Owner) :
    Throws Refusal.Ordinary (attributeReference S reference site owner) := by
  refine (throws_qualify reference site owner).bind fun name => ?_
  cases name with
  | none => exact throws_pure _
  | some name =>
    dsimp only
    split
    · exact throws_pure _
    split
    · exact (throws_missing _ _ site owner).bind fun _ => throws_pure _
    · exact (throws_statedType _ owner owner _).bind fun _ => throws_pure _

theorem throws_encodedItem (reference : String) (site : Site) (owner : Owner) :
    Throws Refusal.Ordinary (encodedItem S reference site owner) := by
  unfold encodedItem
  split
  · exact throws_pure _
  split
  · exact throws_pure _
  split
  · exact throws_pure _
  split
  · exact throws_pure _
  · exact (throws_resolveTypeWith throws_compileAlias _ site owner).map some

theorem throws_baseOf (owner : Owner) (derivation : Site) :
    Throws Refusal.Ordinary (baseOf S owner derivation) := by
  unfold baseOf
  split
  · exact throws_resolveTypeWith throws_compileAlias _ derivation owner
  · exact throws_fail trivial

theorem throws_extendedType (owner : Owner) (derivation : Site) :
    Throws Refusal.Ordinary (extendedType S owner derivation) := by
  refine (throws_baseOf owner derivation).bind fun ref => ?_
  split
  · exact throws_pure _
  split
  · exact throws_pure _
  · exact throws_fail trivial

/-! ## Members -/

theorem throws_addAttributeAt (owner : Owner) (members : Members) (site : Site) :
    Throws Refusal.Ordinary (addAttributeAt S owner members site) := by
  have withElement (leaf : Leaf) :
      Throws Refusal.Ordinary (atSite site owner (members.addElement leaf [])) :=
    throws_atSite fun _ => Members.not_isCircle_of_addElement
  have withAttribute (a : Attribute) :
      Throws Refusal.Ordinary (atSite site owner (members.addAttribute a)) :=
    throws_atSite fun _ => Members.not_isCircle_of_addAttribute
  unfold addAttributeAt
  refine (throws_atSite fun _ => not_isCircle_of_attributeUse).bind fun use => ?_
  split
  · refine (throws_encodedItem _ site owner).bind fun item => ?_
    cases item with
    | some item => exact withElement _
    | none => exact (throws_attributeReference _ site owner).bind fun a => withAttribute _
  · exact (throws_statedType _ owner owner site).bind fun ref => withAttribute _
  · have nameless : ¬ ModelFault.namelessAttribute.IsCircle := not_false
    exact throws_fail nameless

variable {nested : Nested} {owner : Owner} {site container : Site}

/-- Attributes throw the faults that stand among them. -/
theorem throws_addAttributes (hq : ∀ e : Refusal, e.Ordinary → Q e)
    (faults : AttributeStep.Faults (fun f => Q (.fault f))
      (AttributeStep.ofContainer S.declarations owner container)) (members : Members) :
    Throws Q (addAttributes S owner container members) := by
  have unanswered := AttributeStep.unanswered_ofContainer S.declarations owner container
  refine throws_foldlM (fun members step hs => ?_) members
  cases step with
  | declared site => exact (throws_addAttributeAt owner members site).mono hq
  | unresolved fault key =>
    exact ((throws_report (unanswered _ hs) key).mono hq).bind fun _ => throws_pure _
  | broken fault => exact throws_fail (faults fault hs)

/-- An element throws what the type inside it throws. -/
theorem throws_elementParticle (hq : ∀ e : Refusal, e.Ordinary → Q e)
    (hn : ∀ inner, site.inner? = some inner → ∀ canonical name,
      Throws Q (nested (some canonical) name inner)) :
    Throws Q (elementParticle S nested site owner) := by
  unfold elementParticle
  unfold Site.inner? at hn
  cases hr : site.node.filled? "ref" with
  | some reference => exact (throws_elementReference reference site owner).mono hq
  | none =>
    rw [hr] at hn
    dsimp only at hn ⊢
    refine Throws.bind ?_ fun ref => throws_pure _
    rw [elementTypeWith_eq]
    split
    · rename_i complex ht hc
      rw [ht, hc] at hn
      split
      · have inner := hn _ rfl
        refine ((throws_reserve _ _ _).mono hq).bind fun canonical => throws_inventory.bind fun i => ?_
        split
        · exact (inner canonical _).bind fun _ => throws_pure _
        · exact throws_pure _
      · exact throws_throw (hq _ trivial)
    · exact (throws_statedType _ owner owner site).mono hq

abbrev ThrowsInside (Q : Refusal → Prop) (nested : Nested) (sites : List Site) : Prop :=
  ∀ e ∈ sites, ∀ inner, e.inner? = some inner →
    ∀ canonical name, Throws Q (nested (some canonical) name inner)

/-- Particles throw the faults that stand among them. -/
theorem throws_addParticles (hq : ∀ e : Refusal, e.Ordinary → Q e)
    (hn : ThrowsInside Q nested
      ((Particle.leavesOf (Particle.ofContainer S.declarations owner container)).map Prod.fst))
    (faults : Particle.AllFaults Q (Particle.ofContainer S.declarations owner container))
    (members : Members) :
    Throws Q (addParticles S nested owner container members) := by
  have met := Outline.faults_ofParticles S.options.choice faults
  have unanswered := Outline.unanswered_ofParticles S.options.choice
    (Particle.unanswered_ofContainer S.declarations owner container)
  rw [← Outline.sites_ofParticles S.options.choice] at hn
  refine (throws_foldlM (fun members step hs => ?_) members).bind fun _ => throws_pure _
  cases step with
  | element range site branches =>
    have here : site ∈ (Outline.ofParticles S.options.choice
        (Particle.ofContainer S.declarations owner container)).sites :=
      List.mem_filterMap.mpr ⟨_, hs, rfl⟩
    exact (throws_elementParticle hq (hn site here)).bind fun e =>
      (throws_atSite fun _ => Members.not_isCircle_of_addElement).mono hq
  | unresolved fault key =>
    exact ((throws_report (unanswered _ hs) key).mono hq).bind fun _ => throws_pure _
  | broken refusal => exact throws_throw (met refusal hs)

/-! ## Bodies -/

/-- **The body of a type** throws the faults that stand in its content model and among its
attributes, and what the types inside its elements throw. -/
theorem throws_bodyOf {owner : String} (hq : ∀ e : Refusal, e.Ordinary → Q e)
    (hn : ThrowsInside Q nested (contentSites S.declarations owner site))
    (groups : Particle.AllFaults Q (contentModel S.declarations (some owner) site))
    (attributes : ∀ content, Content.ofSite (some owner) site = .ok content →
      AttributeStep.Faults (fun f => Q (.fault f))
        (AttributeStep.ofContainer S.declarations (some owner) content.attributesAt)) :
    Throws Q (bodyOf S nested (some owner) site) := by
  rw [bodyOf_eq]
  unfold contentSites contentModel at hn
  unfold contentModel at groups
  cases hc : Content.ofSite (some owner) site with
  | error f => exact throws_fail_bind (hq _ (Content.ordinary_of_ofSite hc))
  | ok content =>
    rw [hc] at hn groups
    have attributes := attributes content hc
    change Throws Q (pure content >>= Content.body S nested (some owner))
    rw [pure_bind]
    cases content with
    | simple derivation mixed =>
      exact (throws_addAttributes hq attributes _).bind fun _ =>
        ((throws_baseOf _ derivation).mono hq).bind fun _ => throws_pure _
    | complex container extending mixed =>
      have base : Throws Q (if extending then extendedType S (some owner) container else pure none) := by
        split
        · exact (throws_extendedType _ container).mono hq
        · exact throws_pure _
      exact base.bind fun _ => (throws_addParticles hq hn groups _).bind fun _ =>
        (throws_addAttributes hq attributes _).bind fun _ => throws_pure _

end Compile

end WsdlCatalog
