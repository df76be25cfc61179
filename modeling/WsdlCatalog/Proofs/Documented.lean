/-
  WsdlCatalog.Proofs.Documented — what the compilation of a type is refused for.

  A refusal is documented if it is for a faulty definition, for two things that ask for one
  name, or, where no reference may be left open, for a reference that means nothing
  (`Refusal.Documented`). A bound with too many digits is no documented reason, but it is one
  that an element gives. Anything else that a step may throw is a lookup that missed: an entry,
  a name or a declaration that is not there. A step is safe if it throws nothing of that kind
  (`SafeAt`). The entry of a simple type is looked up right after it was compiled, by the name
  it goes by, so safe steps keep these entries under their names; that is all that the steps
  here ask of the progress.

  Proved: references are followed safely (`safe_resolveType`, `safe_elementReference`,
  `safe_attributeReference`), and the body of a type is compiled safely if the types inside its
  elements are (`safe_bodyOf`).
-/

import WsdlCatalog.Proofs.Entering
import WsdlCatalog.Proofs.Later
import WsdlCatalog.Proofs.Parts

namespace WsdlCatalog

/-! ## Documented refusals -/

def Fault.IsEndless : Fault → Prop
  | endlessNesting _ _ _ => True
  | _ => False

/-- The refusals that a compilation is documented to end with. -/
inductive Refusal.Documented (options : Options) : Refusal → Prop where
  | malformed {f : Fault} (hk : f.kind = "malformed-content-model") (hf : ¬ f.IsEndless) :
    Documented options (.fault f)
  | ambiguous {f : Fault} (hk : f.kind = "ambiguous-name-collision") : Documented options (.fault f)
  /-- Only where no reference may be left open. -/
  | unresolved {f : Fault} (hk : f.kind = Diagnostic.unresolvedKind)
    (hs : options.failOnUnresolved.holds = true) : Documented options (.fault f)

/-- A documented refusal, or that of a bound with too many digits at a site where `P` holds. -/
inductive Refusal.Expected (options : Options) (P : Site → Prop) : Refusal → Prop where
  | documented {e : Refusal} (h : e.Documented options) : Expected options P e
  | overlong {site : Site} {digits : Nat} (hp : P site)
    (h : Range.ofNode site.node = .error (.overlong digits)) :
    Expected options P (.overlongNumber digits)

theorem Fault.IsModelOf.documented {owner : Owner} {f : Fault} (h : f.IsModelOf owner)
    (options : Options) : Refusal.Documented options (.fault f) := by
  cases f with
  | model fault place => exact .malformed rfl not_false
  | _ => exact h.elim

theorem Refusal.OfPart.expected {P : Site → Prop} {owner : Owner} {e : Refusal}
    (h : e.OfPart P owner) (options : Options) : e.Expected options P := by
  cases h with
  | fault h => exact .documented (h.documented options)
  | overlong hp h => exact .overlong hp h

namespace Reference

theorem unanswered_of_target {S : Setting} {reference declared key : String} {site : Site}
    {fault : Owner → Fault} (h : S.target reference site = .unknown declared key fault)
    (owner : Owner) : (fault owner).IsUnanswered := by
  unfold Setting.target at h
  split at h
  · cases h
    rfl
  split at h
  · cases h
  split at h
  · split at h <;> cases h
  split at h
  · cases h
    rfl
  · split at h <;> cases h

end Reference

theorem Setting.unanswered_of_origin {S : Setting} {site : Site} {shape : SimpleShape} {key : String}
    {fault : Owner → Fault} (h : S.origin site = .unknown shape key fault) (owner : Owner) :
    (fault owner).IsUnanswered := by
  unfold Setting.origin at h
  split at h
  · cases h
  · split at h <;> cases h
    rename_i ht
    exact Reference.unanswered_of_target ht owner

/-- The entries of simple types are all that matters to whether they stand under their names. -/
theorem Progress.Keyed.of_aliases {p q : Progress} (hp : p.Keyed)
    (h : q.inventory.aliases = p.inventory.aliases) : q.Keyed := by
  intro k a ha
  unfold Inventory.alias? at ha
  rw [h] at ha
  exact hp k a ha

/-! ## Where content stands -/

theorem Xml.Node.child_of_child? {node child : Xml.Node} {uri tag : String} (h : node.child? uri tag = some child) :
    child ∈ node.children ∧ child.uri = uri ∧ child.tag = tag := by
  obtain ⟨hm, named⟩ := List.mem_filter.mp (List.mem_of_mem_head? h)
  simp only [List.isEmpty_cons, Bool.false_or, Bool.and_eq_true, beq_iff_eq,
    List.contains_cons, List.contains_nil, Bool.or_false] at named
  exact ⟨hm, named⟩

namespace Content

theorem derivation?_mem {content d : Xml.Node} (h : derivation? content = some d) :
    d ∈ content.children := by
  rcases Option.or_eq_some_iff.mp h with h | ⟨-, h⟩
  · exact (Xml.Node.child_of_child? h).1
  · exact (Xml.Node.child_of_child? h).1

/-- The content of a type stands below the children of its definition. -/
theorem container_inherits {P : Site → Prop} (hP : Site.Inherited P) {owner : Owner}
    {site container : Site} {extending mixed : Bool}
    (hc : ∀ child ∈ site.node.children, P (site.atNode child))
    (h : ofSite owner site = .ok (.complex container extending mixed)) :
    ∀ child ∈ container.node.children, P (container.atNode child) := by
  unfold ofSite at h
  split at h
  · split at h <;> cases h
  · rename_i content _ complex
    split at h <;> cases h
    rename_i d hd
    have inside := hc content (Xml.Node.child_of_child? complex).1
    exact fun child hm => hP _ child (hP (site.atNode content) d inside (derivation?_mem hd)) hm
  · cases h
    exact hc

end Content

namespace Compile

open Progress

/-! ## Safe steps -/

variable {S : Setting} {P : Site → Prop} {α β ι σ : Type}

/-- A step that is taken at `p` is refused for expected reasons only, and leaves the entries of
simple types under their names. -/
structure SafeAt (S : Setting) (P : Site → Prop) {α : Type} (m : Compile α) (p : Progress) :
    Prop where
  keyed : ∀ a q, Runs m p a q → q.Keyed
  expected : ∀ e q, m.outcome p = (.error e, q) → e.Expected S.options P

/-- A step is safe wherever the entries of simple types are under their names. -/
def Safe (S : Setting) (P : Site → Prop) {α : Type} (m : Compile α) : Prop :=
  ∀ p : Progress, p.Keyed → SafeAt S P m p

theorem SafeAt.bind {m : Compile α} {k : α → Compile β} {p : Progress} (h : SafeAt S P m p)
    (hk : ∀ a q, Runs m p a q → q.Keyed → SafeAt S P (k a) q) : SafeAt S P (m >>= k) p := by
  constructor
  · intro b q hr
    obtain ⟨a, r, hm, hr⟩ := runs_bind.mp hr
    exact (hk a r hm (h.keyed a r hm)).keyed b q hr
  · intro e q hr
    rw [outcome_bind] at hr
    rcases hm : m.outcome p with ⟨e' | a, r⟩
    · rw [hm] at hr
      cases hr
      exact h.expected _ _ hm
    · rw [hm] at hr
      exact (hk a r hm (h.keyed a r hm)).expected e q hr

theorem Safe.bind {m : Compile α} {k : α → Compile β} (h : Safe S P m) (hk : ∀ a, Safe S P (k a)) :
    Safe S P (m >>= k) :=
  fun p hp => (h p hp).bind fun a q _ hq => hk a q hq

theorem safe_pure (a : α) : Safe S P (pure a : Compile α) := by
  intro p hp
  constructor
  · intro b q hr
    obtain ⟨-, rfl⟩ := runs_pure.mp hr
    exact hp
  · intro e q hr
    cases hr

theorem Safe.map {m : Compile α} (h : Safe S P m) (f : α → β) : Safe S P (f <$> m) := by
  rw [← bind_pure_comp]
  exact h.bind fun a => safe_pure (f a)

theorem safe_throw {e : Refusal} (h : e.Expected S.options P) :
    Safe S P (throw e : Compile α) := by
  intro p _
  constructor
  · intro a q hr
    exact absurd hr runs_throw
  · intro e' q hr
    rw [outcome_throw] at hr
    cases hr
    exact h

theorem safe_fail {f : Fault} (h : Refusal.Documented S.options (.fault f)) :
    Safe S P (fail f : Compile α) := safe_throw (.documented h)

theorem safe_ofExcept {x : Except Fault α}
    (h : ∀ f, x = .error f → Refusal.Documented S.options (.fault f)) : Safe S P (ofExcept x) := by
  cases x with
  | ok a => exact safe_pure a
  | error f => exact safe_fail (h f rfl)

/-- What is wrong at a place of a content model is documented. -/
theorem safe_atSite (site : Site) (owner : Owner) (x : Except ModelFault α) :
    Safe S P (atSite site owner x) := by
  refine safe_ofExcept fun f hf => ?_
  cases x with
  | ok a => cases hf
  | error e =>
    cases hf
    have atPlace : (site.modelFault owner e).IsModelOf owner := rfl
    exact atPlace.documented S.options

theorem safe_inventory : Safe S P inventory := by
  intro p hp
  constructor
  · intro i q hr
    obtain ⟨-, rfl⟩ := runs_inventory.mp hr
    exact hp
  · intro e q hr
    cases hr

theorem safe_modify {f : Progress → Progress}
    (h : ∀ p : Progress, (f p).inventory.aliases = p.inventory.aliases) :
    Safe S P (modify f : Compile Unit) := by
  intro p hp
  constructor
  · intro a q hr
    obtain rfl := runs_modify.mp hr
    exact hp.of_aliases (h p)
  · intro e q hr
    cases hr

theorem safe_report {f : Fault} (hf : f.IsUnanswered) (key : String) : Safe S P (report S f key) := by
  intro p hp
  constructor
  · intro a q hr
    obtain ⟨-, rfl⟩ := runs_report.mp hr
    exact hp.of_eq rfl
  · intro e q hr
    rw [outcome_report] at hr
    split at hr
    · rename_i strict
      cases hr
      exact .documented (.unresolved hf strict)
    · cases hr

theorem safe_foldlM {f : σ → ι → Compile σ} {is : List ι} (h : ∀ a, ∀ i ∈ is, Safe S P (f a i)) :
    ∀ a, Safe S P (is.foldlM f a) := by
  induction is with
  | nil => exact safe_pure
  | cons i rest ih =>
    intro a
    rw [List.foldlM_cons]
    exact (h a i List.mem_cons_self).bind (ih fun a j hj => h a j (List.mem_cons_of_mem _ hj))

theorem safe_filterMapM {f : ι → Compile (Option α)} (h : ∀ i, Safe S P (f i)) (is : List ι) :
    Safe S P (is.filterMapM f) := by
  induction is with
  | nil => exact safe_pure []
  | cons i rest ih =>
    rw [List.filterMapM_cons]
    refine (h i).bind fun found => ?_
    cases found with
    | none => exact ih
    | some a => exact ih.bind fun found => safe_pure (a :: found)

/-! ## Names -/

theorem safe_qualify (reference : String) (site : Site) (referencedBy : Option String) :
    Safe S P (qualify S reference site referencedBy) := by
  unfold qualify
  split
  · exact safe_pure _
  · rename_i hq
    exact (safe_report (Reference.unanswered_of_qualify hq) _).bind fun _ => safe_pure _

theorem safe_missing (space : Space) (name : QName) (site : Site) (referencedBy : Option String) :
    Safe S P (missing S space name site referencedBy) := by
  have unanswered : (Fault.undeclared space name referencedBy site.document.location).IsUnanswered := rfl
  exact safe_report unanswered _

theorem safe_lookup (space : Space) (reference : String) (site : Site) (referencedBy : Option String) :
    Safe S P (lookup S space reference site referencedBy) := by
  refine (safe_qualify reference site referencedBy).bind fun name => ?_
  cases name with
  | none => exact safe_pure _
  | some name =>
    dsimp only
    split
    · exact safe_pure _
    · exact (safe_missing space name site referencedBy).bind fun _ => safe_pure _

/-! ## Simple types -/

theorem safe_resolveTypeWith {f : Declaration → Compile ScalarAlias} (hf : ∀ d, Safe S P (f d))
    (reference : String) (site : Site) (owner : Owner) :
    Safe S P (resolveTypeWith S f reference site owner) := by
  rw [resolveTypeWith_eq]
  split
  · rename_i ht
    exact (safe_report (Reference.unanswered_of_target ht owner) _).bind fun _ => safe_pure _
  · exact safe_pure _
  · exact (hf _).bind fun _ => safe_pure _
  · exact safe_inventory.bind fun _ => safe_pure _

/-- What a simple type is derived from has an entry when its shape is needed. -/
theorem safe_simpleShapeWith {f : Declaration → Compile ScalarAlias} (hf : ∀ d, Safe S P (f d))
    (entered : ∀ d p a q, p.Keyed → Runs (f d) p a q → q.inventory.alias? a.name = some a)
    (owner : Owner) (site : Site) : Safe S P (simpleShapeWith S f owner site) := by
  rw [simpleShapeWith_eq]
  split
  · exact safe_pure _
  · rename_i ho
    exact (safe_report (Setting.unanswered_of_origin ho owner) _).bind fun _ => safe_pure _
  · rename_i d _
    intro p hp
    refine (hf d p hp).bind fun a q hr hq => (safe_inventory q hq).bind fun i r hi hr' => ?_
    obtain ⟨rfl, rfl⟩ := runs_inventory.mp hi
    rw [entered d p a _ hp hr]
    exact safe_pure _ _ hr'
  · exact safe_fail (.malformed rfl not_false)

/-- The entry of a simple type stands under the name it goes by. -/
theorem alias?_of_compileAliasIn {depth : Nat} {chain : List QName} {d : Declaration} {p q : Progress}
    {a : ScalarAlias} (hp : p.Keyed) (hr : Runs (compileAliasIn S depth chain d) p a q) :
    q.inventory.alias? a.name = some a := by
  obtain ⟨keyed, -, entered⟩ := entered_compileAliasIn depth hp hr
  rwa [keyed _ a entered]

theorem safe_addAlias (a : ScalarAlias) : Safe S P (addAlias a) := by
  intro p hp
  constructor
  · intro u q hr
    obtain rfl := runs_addAlias.mp hr
    exact hp.addAlias a
  · intro e q hr
    cases hr

theorem safe_compileAliasIn (depth : Nat) : ∀ chain d, Safe S P (compileAliasIn S depth chain d) := by
  induction depth with
  | zero => exact fun _ _ => safe_fail (.malformed rfl not_false)
  | succ depth ih =>
    intro chain d
    unfold compileAliasIn
    refine safe_inventory.bind fun i => safe_inventory.bind fun i' => ?_
    split
    · exact safe_pure _
    · split
      · exact safe_fail (.malformed rfl not_false)
      · have shape := safe_simpleShapeWith (ih (d.name :: chain))
          (fun _ _ _ _ hp hr => alias?_of_compileAliasIn hp hr)
        exact (shape _ _).bind fun _ => (safe_addAlias _).bind fun _ => safe_pure _

theorem safe_compileAlias (d : Declaration) : Safe S P (compileAlias S d) := safe_compileAliasIn _ _ d

theorem safe_resolveType (reference : String) (site : Site) (owner : Owner) :
    Safe S P (resolveType S reference site owner) :=
  safe_resolveTypeWith safe_compileAlias reference site owner

theorem safe_inlineSimple (owner : Owner) (site : Site) : Safe S P (inlineSimple S owner site) :=
  (safe_simpleShapeWith safe_compileAlias (fun _ _ _ _ hp hr => alias?_of_compileAliasIn hp hr)
    owner site).bind fun _ => safe_pure _

/-! ## Elements and attributes -/

theorem safe_statedType (default : QName) (owner simpleOwner : Owner) (site : Site) :
    Safe S P (statedType S default owner simpleOwner site) := by
  unfold statedType
  split
  · exact safe_resolveType _ site owner
  · split
    · exact safe_inlineSimple simpleOwner _
    · exact safe_pure _

theorem safe_globalElementType (d : Declaration) (referencedBy : Option String) :
    Safe S P (globalElementType S d referencedBy) := by
  unfold globalElementType
  split
  · exact safe_inventory.bind fun _ => safe_pure _
  · exact safe_statedType _ _ _ d.site

theorem safe_elementReference (reference : String) (site : Site) (owner : Owner) :
    Safe S P (elementReference S reference site owner) := by
  refine (safe_lookup .element reference site owner).bind fun found => ?_
  cases found with
  | none => exact safe_pure _
  | some d => exact (safe_globalElementType d owner).bind fun _ => safe_pure _

theorem safe_attributeReference (reference : String) (site : Site) (owner : Owner) :
    Safe S P (attributeReference S reference site owner) := by
  refine (safe_qualify reference site owner).bind fun name => ?_
  cases name with
  | none => exact safe_pure _
  | some name =>
    dsimp only
    split
    · exact safe_pure _
    split
    · exact (safe_missing _ _ site owner).bind fun _ => safe_pure _
    · exact (safe_statedType _ owner owner _).bind fun _ => safe_pure _

theorem safe_encodedItem (reference : String) (site : Site) (owner : Owner) :
    Safe S P (encodedItem S reference site owner) := by
  unfold encodedItem
  split
  · exact safe_pure _
  split
  · exact safe_pure _
  split
  · exact safe_pure _
  split
  · exact safe_pure _
  · exact (safe_resolveType _ site owner).map some

theorem safe_addAttributeAt (owner : Owner) (members : Members) (site : Site) :
    Safe S P (addAttributeAt S owner members site) := by
  unfold addAttributeAt
  refine (safe_atSite site owner _).bind fun use => ?_
  split
  · refine (safe_encodedItem _ site owner).bind fun item => ?_
    cases item with
    | some item => exact safe_atSite site owner _
    | none => exact (safe_attributeReference _ site owner).bind fun a => safe_atSite site owner _
  · exact (safe_statedType _ owner owner site).bind fun ref => safe_atSite site owner _
  · exact safe_fail (.malformed rfl not_false)

theorem safe_addAttributes (owner : Owner) (container : Site) (members : Members) :
    Safe S P (addAttributes S owner container members) := by
  have sound := AttributeStep.sound_ofContainer S.declarations owner container
  have unanswered := AttributeStep.unanswered_ofContainer S.declarations owner container
  refine safe_foldlM (fun members step hs => ?_) members
  have sound := sound step hs
  have unanswered := unanswered step hs
  cases step with
  | declared site => exact safe_addAttributeAt owner members site
  | unresolved fault key => exact (safe_report unanswered key).bind fun _ => safe_pure _
  | broken fault => exact safe_fail (sound.documented S.options)

/-! ## Elements with types inside them -/

variable {nested : Nested}

theorem safe_reserve (owner canonical : String) (name : QName) :
    Safe S P (reserve owner canonical name) := by
  intro p hp
  unfold reserve
  refine (safe_inventory p hp).bind fun i q hi hq => ?_
  obtain ⟨rfl, rfl⟩ := runs_inventory.mp hi
  have refused : ∀ f, q.inventory.reserve owner canonical name = .error f →
      Refusal.Documented S.options (.fault f) := by
    intro f hf
    unfold Inventory.reserve at hf
    split at hf
    · cases hf
    · split at hf <;> cases hf
      exact .ambiguous rfl
  refine (safe_ofExcept refused q hq).bind fun x r hx hr => ?_
  obtain ⟨i, c⟩ := x
  obtain ⟨reserved, rfl⟩ := runs_ofExcept.mp hx
  have aliases : i.aliases = r.inventory.aliases := by
    unfold Inventory.reserve at reserved
    split at reserved
    · cases reserved
      rfl
    · split at reserved <;> cases reserved
      rfl
  constructor
  · intro c' q' hr'
    obtain ⟨rfl, rfl⟩ : q' = { r with inventory := i } ∧ c' = c := by simpa using hr'
    exact hr.of_aliases aliases
  · intro e q' he
    cases he

/-- An element of the content model of a type, if the types inside it are compiled safely. -/
theorem safe_elementParticle {site : Site} (named : site.IsNamed)
    (hn : ∀ inner, site.inner? = some inner → ∀ canonical name, Safe S P (nested (some canonical) name inner))
    (owner : String) : Safe S P (elementParticle S nested site (some owner)) := by
  unfold elementParticle
  unfold Site.inner? at hn
  unfold Site.IsNamed at named
  cases hr : site.node.filled? "ref" with
  | some reference => exact safe_elementReference reference site (some owner)
  | none =>
    rw [hr] at hn named
    dsimp only at hn ⊢
    refine Safe.bind ?_ fun ref => safe_pure _
    rw [elementTypeWith_eq]
    split
    · rename_i complex ht hc
      obtain ⟨element, he⟩ : ∃ element, site.node.attribute? "name" = some element := by
        rcases named with named | named
        · cases named
        · obtain ⟨element, he⟩ := Option.isSome_iff_exists.mp named
          exact ⟨element, (Option.filter_eq_some_iff.mp he).1⟩
      rw [he]
      rw [ht, hc] at hn
      have inner := hn _ rfl
      unfold nestedType
      refine (safe_reserve _ _ _).bind fun canonical => safe_inventory.bind fun i => ?_
      split
      · exact (inner canonical _).bind fun _ => safe_pure _
      · exact safe_pure _
    · exact safe_statedType _ _ _ site

abbrev SafeInside (S : Setting) (P : Site → Prop) (nested : Nested) (sites : List Site) : Prop :=
  ∀ e ∈ sites, ∀ inner, e.inner? = some inner →
    ∀ canonical name, Safe S P (nested (some canonical) name inner)

theorem safe_addParticles (hP : Site.Inherited P)
    (groups : ∀ d ∈ S.declarations.inSpace .group, P d.site) {owner : String} {container : Site}
    (hc : ∀ child ∈ container.node.children, P (container.atNode child))
    (hn : SafeInside S P nested
      ((Particle.leavesOf (Particle.ofContainer S.declarations (some owner) container)).map Prod.fst)) :
    Safe S P (addParticles S nested (some owner) container .empty) := by
  have sound := Outline.sound_ofParticles S.options.choice
    (Particle.sound_ofContainer hP groups (some owner) hc)
  have unanswered := Outline.unanswered_ofParticles S.options.choice
    (Particle.unanswered_ofContainer S.declarations (some owner) container)
  rw [← Outline.sites_ofParticles S.options.choice] at hn
  unfold addParticles
  refine Safe.bind (safe_foldlM (fun members step hs => ?_) _) fun members => safe_pure _
  have named := sound.steps step hs
  have unanswered := unanswered step hs
  cases step with
  | element range site branches =>
    have here : site ∈ (Outline.ofParticles S.options.choice
        (Particle.ofContainer S.declarations (some owner) container)).sites :=
      List.mem_filterMap.mpr ⟨_, hs, rfl⟩
    exact (safe_elementParticle named.2.1 (hn site here) owner).bind fun e => safe_atSite site _ _
  | unresolved fault key => exact (safe_report unanswered key).bind fun _ => safe_pure _
  | broken refusal => exact safe_throw (named.expected S.options)

/-! ## Bodies -/

theorem safe_baseOf (owner : Owner) (derivation : Site) : Safe S P (baseOf S owner derivation) := by
  unfold baseOf
  split
  · exact safe_resolveType _ derivation owner
  · exact safe_fail (.malformed rfl not_false)

theorem safe_extendedType (owner : Owner) (derivation : Site) :
    Safe S P (extendedType S owner derivation) := by
  refine (safe_baseOf owner derivation).bind fun ref => ?_
  split
  · exact safe_pure _
  · split
    · exact safe_pure _
    · exact safe_fail (.malformed rfl not_false)

theorem safe_content (owner : Owner) (site : Site) : Safe S P (ofExcept (Content.ofSite owner site)) := by
  refine safe_ofExcept fun f hf => ?_
  unfold Content.ofSite at hf
  split at hf
  · split at hf <;> cases hf
    exact .malformed rfl not_false
  · split at hf <;> cases hf
    exact .malformed rfl not_false
  · cases hf

/-- A body is compiled safely if the types inside the elements of its content model are. -/
theorem safe_bodyOf (hP : Site.Inherited P)
    (groups : ∀ d ∈ S.declarations.inSpace .group, P d.site) {owner : String} {site : Site}
    (hc : ∀ child ∈ site.node.children, P (site.atNode child))
    (hn : SafeInside S P nested (contentSites S.declarations owner site)) :
    Safe S P (bodyOf S nested (some owner) site) := by
  rw [bodyOf_eq]
  intro p hp
  refine (safe_content _ site p hp).bind fun content q hr hq => ?_
  obtain ⟨found, rfl⟩ := runs_ofExcept.mp hr
  unfold contentSites contentModel at hn
  rw [found] at hn
  cases content with
  | simple derivation mixed =>
    refine (safe_addAttributes _ derivation _).bind (fun members => ?_) q hq
    exact (safe_baseOf _ derivation).bind fun ref => safe_pure _
  | complex container extending mixed =>
    have base : Safe S P
        (if extending then extendedType S (some owner) container else pure none) := by
      split
      · exact safe_extendedType _ container
      · exact safe_pure _
    refine base.bind (fun base => ?_) q hq
    have inside := Content.container_inherits hP hc found
    refine (safe_addParticles hP groups inside hn).bind fun x => ?_
    exact (safe_addAttributes _ container _).bind fun members => safe_pure _

end Compile

end WsdlCatalog
