/-
  WsdlCatalog.Proofs.Parts — what the parts of content models and outlines are like.

  A content model is made from what is written at its sites. A range whose maximum is below
  its minimum is not taken, and neither is an element without a name or a reference; what
  stands in its place is a fault of the content model, or a bound with too many digits. So
  the ranges in it are in order and its elements have names. Outlines multiply the ranges and
  take minima down under choices, which leaves them in order. A property that elements hand
  down to what is inside them holds of all sites of a content model, if it holds of the
  children of the definition and of all groups.

  Proved: all parts are sound in this way (`Particle.sound_ofContainer`,
  `Outline.sound_ofParticles`, `AttributeStep.sound_ofContainer`).
-/

import WsdlCatalog.Proofs.Declared
import WsdlCatalog.Proofs.Extension
import WsdlCatalog.Proofs.Members

namespace WsdlCatalog

/-! ## Ranges in order -/

/-- The maximum of a range is not below its minimum. -/
def Bounds.Ordered (r : Range) : Prop := ∀ high, r.upper = some high → r.lower ≤ high

namespace Bounds

variable {r s : Range}

theorem ordered_optional (r : Range) : Ordered { r with lower := 0 } := fun _ _ => Nat.zero_le _

theorem Ordered.mul (hr : r.Ordered) (hs : s.Ordered) : (r.mul s).Ordered := by
  intro high h
  unfold Bounds.mul mulMax at h
  dsimp only at h
  split at h
  · rename_i a b ha hb
    cases h
    exact Nat.mul_le_mul (hr a ha) (hs b hb)
  · cases h

theorem Ordered.join (hr : r.Ordered) : (r.join s).Ordered := by
  intro high h
  obtain ⟨m, hm, hle⟩ := (covers_join_left r s).upper high h
  have within := hr m hm
  exact Nat.le_trans (covers_join_left r s).lower (Nat.le_trans within hle)

end Bounds

namespace Range

theorem ordered_once : Bounds.Ordered .once := fun _ h => Option.some.inj h ▸ Nat.le_refl 1

/-- A reversed range is a fault. -/
theorem ordered_ofNode {node : Xml.Node} {r : Range} (h : ofNode node = .ok r) : r.Ordered := by
  unfold ofNode at h
  obtain ⟨low, -, h⟩ := ok_bind.mp h
  obtain ⟨high, -, h⟩ := ok_bind.mp h
  split at h
  · split at h
    · cases h
    · rename_i inOrder
      cases h
      exact fun _ hm => Option.some.inj hm ▸ Nat.not_lt.mp inOrder
  · cases h
    exact fun _ hm => nomatch hm

end Range

/-! ## Content models -/

/-- What stands at a site has a name or refers to something by one. -/
def Site.IsNamed (site : Site) : Prop :=
  (site.node.filled? "ref").isSome = true ∨ (site.node.filled? "name").isSome = true

def Site.Inherited (P : Site → Prop) : Prop :=
  ∀ site child, P site → child ∈ site.node.children → P (site.atNode child)

def Fault.IsModelOf (owner : Owner) : Fault → Prop
  | model _ place => place.owner = owner
  | _ => False

/-- What is wrong with a part: a fault of the content model, or a bound with too many digits at a
site where `P` holds. -/
inductive Refusal.OfPart (P : Site → Prop) (owner : Owner) : Refusal → Prop where
  | fault {f : Fault} (h : f.IsModelOf owner) : OfPart P owner (.fault f)
  | overlong {site : Site} {digits : Nat} (hp : P site)
    (h : Range.ofNode site.node = .error (.overlong digits)) : OfPart P owner (.overlongNumber digits)

namespace Particle

mutual

/-- All ranges of a particle are in order, and its elements have names. `P` holds where it is
written. -/
def Sound (P : Site → Prop) (owner : Owner) : Particle → Prop
  | element range site => range.Ordered ∧ site.IsNamed ∧ P site
  | group _ range children => range.Ordered ∧ AllSound P owner children
  | choice range branches => range.Ordered ∧ AllSound P owner branches
  | wildcard => True
  | unresolved _ _ => True
  | broken refusal => refusal.OfPart P owner

def AllSound (P : Site → Prop) (owner : Owner) : List Particle → Prop
  | [] => True
  | p :: rest => p.Sound P owner ∧ AllSound P owner rest

end

variable {P : Site → Prop} {owner : Owner} {document : SchemaDocument} {group : Site → Particle}
  {ds : Declarations}

theorem sound_ranged {site : Site} (hp : P site) {particle : Range → Particle}
    (h : ∀ r : Range, r.Ordered → (particle r).Sound P owner) :
    (ranged owner site particle).Sound P owner := by
  unfold ranged
  split
  · rename_i r hr
    exact h r (Range.ordered_ofNode hr)
  · rename_i error stated
    cases error with
    | model f => exact .fault rfl
    | overlong digits => exact .overlong hp stated

theorem sound_ofElement {site : Site} (hp : P site) : (ofElement owner site).Sound P owner := by
  refine sound_ranged hp fun r hr => ?_
  split
  · rename_i named
    exact ⟨hr, Bool.or_eq_true_iff.mp named, hp⟩
  · exact .fault rfl

mutual

theorem sound_ofNode (hP : Site.Inherited P) (hg : ∀ site, P site → (group site).Sound P owner) :
    ∀ node, P ⟨node, document⟩ → (ofNode owner document group node).Sound P owner
  | ⟨uri, tag, attributes, bindings, children, text, line⟩, hp => by
    have parts := sound_ofNodes hP hg children fun child hc => hP _ child hp hc
    unfold ofNode
    dsimp only
    split
    · exact sound_ofElement hp
    · exact sound_ranged hp fun r hr => ⟨hr, parts⟩
    · exact sound_ranged hp fun r hr => ⟨hr, parts⟩
    · exact sound_ranged hp fun r hr => ⟨hr, parts⟩
    · exact hg _ hp
    · exact trivial

theorem sound_ofNodes (hP : Site.Inherited P) (hg : ∀ site, P site → (group site).Sound P owner) :
    ∀ nodes : List Xml.Node, (∀ node ∈ nodes, P ⟨node, document⟩) →
      AllSound P owner (ofNodes owner document group nodes)
  | [], _ => trivial
  | node :: rest, hp => by
    obtain ⟨first, others⟩ := List.forall_mem_cons.mp hp
    unfold ofNodes
    split
    · exact ⟨sound_ofNode hP hg node first, sound_ofNodes hP hg rest others⟩
    · exact sound_ofNodes hP hg rest others

end

theorem sound_ofGroup (groups : ∀ d ∈ ds.inSpace .group, P d.site) {openGroups : List QName}
    {expand : Declaration → Range → Particle}
    (h : ∀ d (r : Range), P d.site → r.Ordered → (expand d r).Sound P owner) (site : Site)
    (hp : P site) : (ofGroup ds owner openGroups expand site).Sound P owner := by
  unfold ofGroup
  split
  · exact .fault rfl
  · split
    · exact trivial
    · rename_i d found
      split
      · exact .fault rfl
      · have declared : d ∈ ds.inSpace .group := by
          unfold declarationOf at found
          split at found
          · cases found
          · split at found <;> cases found
            rename_i hd
            exact Declarations.mem_inSpace.mpr (Declarations.mem_of_lookup hd)
        exact sound_ranged hp fun r => h d r (groups d declared)

theorem sound_expandGroup (hP : Site.Inherited P) (groups : ∀ d ∈ ds.inSpace .group, P d.site)
    (depth : Nat) : ∀ (openGroups : List QName) (d : Declaration) (r : Range), P d.site →
    r.Ordered → (expandGroup ds owner depth openGroups d r).Sound P owner := by
  induction depth with
  | zero => exact fun _ _ _ _ _ => .fault rfl
  | succ depth ih =>
    intro openGroups d r hp hr
    refine ⟨hr, sound_ofNodes hP (sound_ofGroup groups (ih _)) _ fun node hm => ?_⟩
    exact hP d.site node hp (List.mem_filter.mp hm).1

theorem sound_ofContainer (hP : Site.Inherited P) (groups : ∀ d ∈ ds.inSpace .group, P d.site)
    (owner : Owner) {container : Site}
    (hc : ∀ child ∈ container.node.children, P (container.atNode child)) :
    AllSound P owner (ofContainer ds owner container) :=
  sound_ofNodes hP (sound_ofGroup groups (sound_expandGroup hP groups _ _)) _
    fun node hm => hc node (List.mem_filter.mp hm).1

end Particle

/-! ## Outlines -/

def Step.Sound (P : Site → Prop) (owner : Owner) : Step → Prop
  | element range site _ => range.Ordered ∧ site.IsNamed ∧ P site
  | unresolved _ _ => True
  | broken refusal => refusal.OfPart P owner

namespace Outline

structure Sound (P : Site → Prop) (owner : Owner) (o : Outline) : Prop where
  steps : ∀ step ∈ o.steps, step.Sound P owner
  frames : ∀ frame ∈ o.frames, frame.range.Ordered

variable {P : Site → Prop} {owner : Owner}

theorem Sound.push {o : Outline} (h : o.Sound P owner) {step : Step} (hs : step.Sound P owner) :
    (o.push step).Sound P owner :=
  ⟨List.forall_mem_append.mpr ⟨h.steps, List.forall_mem_singleton.mpr hs⟩, h.frames⟩

theorem Sound.frame {o : Outline} (h : o.Sound P owner) {frame : ChoiceFrame}
    (hf : frame.range.Ordered) : Sound P owner { o with frames := o.frames ++ [frame] } :=
  ⟨h.steps, List.forall_mem_append.mpr ⟨h.frames, List.forall_mem_singleton.mpr hf⟩⟩

mutual

theorem sound_add (policy : ChoicePolicy) {outer : Range} (ho : outer.Ordered)
    (branches : List Branch) {o : Outline} (h : o.Sound P owner) :
    ∀ p : Particle, p.Sound P owner → (add policy outer branches o p).Sound P owner
  | .element range site, hp => by
    unfold add
    exact h.push ⟨ho.mul hp.1, hp.2⟩
  | .group _ range children, hp => by
    unfold add
    exact sound_addAll policy (ho.mul hp.1) branches h children hp.2
  | .choice range parts, hp => by
    unfold add
    have range := ho.mul hp.1
    cases policy with
    | allOptional => exact sound_addAll _ (Bounds.ordered_optional _) branches h parts hp.2
    | union => exact sound_addBranches _ range branches _ 0 (h.frame range) parts hp.2
  | .wildcard, _ => h
  | .unresolved fault key, _ => by
    unfold add
    exact h.push trivial
  | .broken refusal, hp => by
    unfold add
    exact h.push hp

theorem sound_addAll (policy : ChoicePolicy) {outer : Range} (ho : outer.Ordered)
    (branches : List Branch) {o : Outline} (h : o.Sound P owner) :
    ∀ ps : List Particle, Particle.AllSound P owner ps →
      (addAll policy outer branches o ps).Sound P owner
  | [], _ => by
    unfold addAll
    exact h
  | p :: rest, hp => by
    unfold addAll
    exact sound_addAll policy ho branches (sound_add policy ho branches h p hp.1) rest hp.2

theorem sound_addBranches (policy : ChoicePolicy) {outer : Range} (ho : outer.Ordered)
    (branches : List Branch) (choice index : Nat) {o : Outline} (h : o.Sound P owner) :
    ∀ ps : List Particle, Particle.AllSound P owner ps →
      (addBranches policy outer branches choice index o ps).Sound P owner
  | [], _ => by
    unfold addBranches
    exact h
  | p :: rest, hp => by
    unfold addBranches
    exact sound_addBranches policy ho branches choice (index + 1)
      (sound_add policy ho _ h p hp.1) rest hp.2

end

theorem sound_ofParticles (policy : ChoicePolicy) {ps : List Particle}
    (h : Particle.AllSound P owner ps) : (ofParticles policy ps).Sound P owner :=
  sound_addAll policy Range.ordered_once []
    ⟨fun _ hs => absurd hs List.not_mem_nil, fun _ hf => absurd hf List.not_mem_nil⟩ ps h

end Outline

/-! ## Attributes -/

namespace AttributeStep

def Sound (owner : Owner) : AttributeStep → Prop
  | broken fault => fault.IsModelOf owner
  | _ => True

variable {owner : Owner} {ds : Declarations}

theorem sound_ofSite {group : Site → List AttributeStep}
    (hg : ∀ site, ∀ step ∈ group site, step.Sound owner) (container : Site) :
    ∀ step ∈ ofSite group container, step.Sound owner := by
  intro step hm
  obtain ⟨node, -, hm⟩ := List.mem_flatMap.mp hm
  split at hm
  · rw [List.mem_singleton.mp hm]
    exact trivial
  · exact hg _ step hm
  · cases hm

theorem sound_ofGroup (openGroups : List QName) {expand : Declaration → List AttributeStep}
    (he : ∀ d, ∀ step ∈ expand d, step.Sound owner) (site : Site) :
    ∀ step ∈ ofGroup ds owner openGroups expand site, step.Sound owner := by
  unfold ofGroup
  intro step hm
  split at hm
  · cases hm
  · split at hm
    · rw [List.mem_singleton.mp hm]
      exact trivial
    · split at hm
      · rw [List.mem_singleton.mp hm]
        exact rfl
      · exact he _ step hm

theorem sound_expandGroup (depth : Nat) :
    ∀ openGroups d, ∀ step ∈ expandGroup ds owner depth openGroups d, step.Sound owner := by
  induction depth with
  | zero =>
    intro openGroups d step hm
    rw [expandGroup, List.mem_singleton] at hm
    rw [hm]
    exact rfl
  | succ depth ih => exact fun _ d => sound_ofSite (sound_ofGroup _ (ih _)) d.site

theorem sound_ofContainer (ds : Declarations) (owner : Owner) (container : Site) :
    ∀ step ∈ ofContainer ds owner container, step.Sound owner :=
  sound_ofSite (sound_ofGroup _ (sound_expandGroup _ _)) container

end AttributeStep

end WsdlCatalog
