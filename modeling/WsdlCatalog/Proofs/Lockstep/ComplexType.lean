/-
  WsdlCatalog.Proofs.Lockstep.ComplexType — the bodies of complex types in two compilations.

  The members of a type are collected step by step, so a relation between steps that
  holds of references holds of attributes, and of elements if it holds of the types that
  are nested in them (`nestedType`).

  Proved: bodies are related as the members are that both compilations collect
  (`Lockstep.bodyWith`). If branches are told apart in both or in none, they are equal, and
  `Good` holds of the types of all members (`Lockstep.bodyOf`).
-/

import WsdlCatalog.Proofs.Body
import WsdlCatalog.Proofs.Lockstep
import WsdlCatalog.Proofs.Members

namespace WsdlCatalog

def StructuralType.typeRefs (t : StructuralType) : List TypeRef :=
  (t.attributes ++ t.localAttributes).map (·.typeRef)
    ++ (t.elements ++ t.localElements).map (·.typeRef)

namespace Compile

/-- The type of an element that has a complex type inside it, at `site`. -/
def nestedType (nested : Nested) (owner element : String) (site : Site) : Compile TypeRef := do
  let name : QName := ⟨some site.document.targetNamespace, owner ++ Text.pascal element⟩
  let canonical ← reserve (ownerOfNested owner element) name.localPart name
  if !(← inventory).isCompiled canonical then nested canonical name site
  return .ofStructure canonical name.label

theorem elementTypeWith_eq (setting : Setting) (nested : Nested) (site : Site) (owner : Owner) :
    elementTypeWith setting nested site owner =
      match site.node.filled? "type", site.node.child? Vocabulary.xsd "complexType" with
      | none, some complex =>
        match owner, site.node.attribute? "name" with
        | some owner, some element => nestedType nested owner element (site.atNode complex)
        | _, _ => throw .missingName
      | _, _ => statedType setting .anyType owner owner site := by
  unfold elementTypeWith
  cases site.node.filled? "type" with
  | some reference => rfl
  | none =>
    cases site.node.child? Vocabulary.xsd "complexType" with
    | none => rfl
    | some complex =>
      cases owner with
      | none => rfl
      | some owner => cases site.node.attribute? "name" <;> rfl

/-- What a body says of types: those of its members, of its text, and the one it extends. -/
structure Body.AllTypes (Good : TypeRef → Prop) (body : Body) : Prop where
  members : body.members.AllTypes Good
  simple : ∀ ref, body.simple = some ref → Good ref
  base : ∀ name, body.base = some name →
    ∃ ref, Good ref ∧ ref.kind = .structural ∧ ref.name = some name

theorem Body.AllTypes.mono {Good Good' : TypeRef → Prop} {body : Body} (hb : body.AllTypes Good)
    (h : ∀ ref, Good ref → Good' ref) : body.AllTypes Good' where
  members := hb.members.mono h
  simple ref hr := h ref (hb.simple ref hr)
  base name hn := by
    obtain ⟨ref, hg, hk⟩ := hb.base name hn
    exact ⟨ref, h ref hg, hk⟩

/-- A body says of types what the type that it makes says. -/
theorem Body.AllTypes.typeRefs {Good : TypeRef → Prop} {body : Body} (hb : body.AllTypes Good)
    {options : Options} (hg : Good (Builtin.ref options .stringType)) (canonical : Owner)
    (name : QName) (documentation : Option String) (anonymous : Bool) :
    ∀ ref ∈ (body.toType options canonical name documentation anonymous).typeRefs, Good ref := by
  have text : ∀ ref, body.simple.or
      (if body.mixed then some (Builtin.ref options .stringType) else none) = some ref → Good ref := by
    intro ref hr
    rcases Option.or_eq_some_iff.mp hr with hr | ⟨-, hr⟩
    · exact hb.simple ref hr
    · split at hr
      · exact Option.some.inj hr ▸ hg
      · cases hr
  have elements : ∀ e ∈ body.members.elements options.nillableAsOptional (body.simple.or
      (if body.mixed then some (Builtin.ref options .stringType) else none)), Good e.typeRef := by
    intro e he
    rcases List.mem_append.mp he with he | he
    · obtain ⟨leaf, hl, rfl⟩ := List.mem_map.mp he
      exact hb.members.leaves leaf (List.mem_filter.mp hl).1
    · obtain ⟨ref, hr, rfl⟩ := Option.map_eq_some_iff.mp (Option.mem_toList.mp he)
      exact text ref hr
  intro ref href
  unfold StructuralType.typeRefs Body.toType at href
  simp only [List.map_append, List.mem_append, or_self] at href
  rcases href with href | href
  · obtain ⟨a, ha, rfl⟩ := List.mem_map.mp href
    exact hb.members.attributes a ha
  · obtain ⟨e, he, rfl⟩ := List.mem_map.mp href
    exact elements e he

theorem toType_of_alike {S T : Setting} (h : S.Alike T) (body : Body) :
    body.toType S.options = body.toType T.options := by
  unfold Body.toType
  rw [h.builtin, h.nillable]

namespace Lockstep

variable {S T : Setting}
  {R : ∀ {α β : Type}, (α → β → Prop) → Compile α → Compile β → Prop}
  {Good : TypeRef → Prop} {Noted : Prop}

def Collected (Good : TypeRef → Prop) (a b : Members) : Prop := a = b ∧ a.AllTypes Good

/-! ## Elements -/

variable {nested nested' : Nested}

theorem elementTypeWith (L : Lockstep S T R Good Noted)
    (hn : ∀ (owner element : String) {s t : Site}, s.bare = t.bare →
      R (SameType Good) (nestedType nested owner element s) (nestedType nested' owner element t))
    {s t : Site} (h : s.bare = t.bare) (owner : Owner) :
    R (SameType Good) (elementTypeWith S nested s owner) (elementTypeWith T nested' t owner) := by
  rw [elementTypeWith_eq, elementTypeWith_eq, Site.node_of_bare h]
  split
  · split
    · exact hn _ _ (Site.bare_atNode h _)
    · exact L.throw _
  · exact L.statedType _ _ _ h

theorem elementParticle (L : Lockstep S T R Good Noted) {owner : Owner}
    (hn : ∀ {s t : Site}, s.bare = t.bare →
      R (SameType Good) (Compile.elementTypeWith S nested s owner)
        (Compile.elementTypeWith T nested' t owner))
    {s t : Site} (h : s.bare = t.bare) :
    R (SameReferenced Good) (elementParticle S nested s owner) (elementParticle T nested' t owner) := by
  unfold Compile.elementParticle
  rw [Site.node_of_bare h]
  split
  · exact L.elementReference _ h owner
  · refine L.bind (hn h) ?_
    intro ref _ hg
    rcases hg with ⟨rfl, hg⟩
    exact L.pure ⟨rfl, hg⟩

/-- The types of the elements of a type lead to the same in both compilations. -/
abbrev Elements (S T : Setting)
    (R : ∀ {α β : Type}, (α → β → Prop) → Compile α → Compile β → Prop) (Good : TypeRef → Prop)
    (nested nested' : Nested) (owner : Owner) : Prop :=
  ∀ {s t : Site}, s.bare = t.bare →
    R (SameType Good) (Compile.elementTypeWith S nested s owner)
      (Compile.elementTypeWith T nested' t owner)

theorem addStep (L : Lockstep S T R Good Noted) {owner : Owner}
    (hn : Elements S T R Good nested nested' owner) {x y : Step} (h : x.bare = y.bare)
    (hx : x.Unanswered) {a b : Members} (hm : Collected Good a b) :
    R (Collected Good) (addStep S nested owner a x) (addStep T nested' owner b y) := by
  obtain ⟨rfl, hm⟩ := hm
  cases x with
  | element range s branches =>
    cases y with
    | element range' t branches' =>
      obtain ⟨rfl, hs, rfl⟩ := Step.element.inj h
      refine L.bind (L.elementParticle hn hs) ?_
      intro e _ hg
      rcases hg with ⟨rfl, hg⟩
      exact L.atSite hs owner (sameResult_self fun members hr => ⟨rfl, hm.addElement hg hr⟩)
    | unresolved => cases h
    | broken => cases h
  | unresolved fault key =>
    cases y with
    | element => cases h
    | unresolved =>
      cases h
      exact L.bind (L.report hx key) fun _ _ _ => L.pure ⟨rfl, hm⟩
    | broken => cases h
  | broken refusal =>
    cases y with
    | element => cases h
    | unresolved => cases h
    | broken => cases h; exact L.throw refusal

/-- Lists that are equal up to something, such as the documents in them, item by item. -/
theorem forall₂_of_map {ι κ : Type} {f g : ι → κ} {P : ι → Prop} {xs ys : List ι}
    (h : xs.map f = ys.map g) (hp : ∀ x ∈ xs, P x) :
    List.Forall₂ (fun x y => P x ∧ f x = g y) xs ys := by
  refine (List.forall₂_and_left xs ys).mpr ⟨hp, ?_⟩
  rw [← List.forall₂_map_left_iff (R := fun x y => x = g y), ← List.forall₂_map_right_iff, h]
  exact List.forall₂_refl _

theorem outlines_bare (h : S.Alike T) (hc : S.options.choice = T.options.choice) (owner : Owner)
    {s t : Site} (hs : s.bare = t.bare) :
    (Outline.ofParticles S.options.choice (Particle.ofContainer S.declarations owner s)).bare =
      (Outline.ofParticles T.options.choice (Particle.ofContainer T.declarations owner t)).bare := by
  rw [Outline.bare_ofParticles, Outline.bare_ofParticles, hc,
    Particle.bare_ofContainer h.declarations owner hs]

theorem addParticles (L : Lockstep S T R Good Noted) (hc : S.options.choice = T.options.choice)
    {owner : Owner} (hn : Elements S T R Good nested nested' owner) {s t : Site}
    (h : s.bare = t.bare) :
    R (fun x y => Collected Good x.1 y.1 ∧ x.2 = y.2) (addParticles S nested owner s .empty)
      (addParticles T nested' owner t .empty) := by
  obtain ⟨hs, hf⟩ := Outline.mk.inj (outlines_bare L.alike hc owner h)
  have hu := Outline.unanswered_ofParticles S.options.choice
    (Particle.unanswered_ofContainer S.declarations owner s)
  unfold Compile.addParticles
  dsimp only
  rw [hf]
  refine L.bind (L.foldlM (forall₂_of_map hs hu)
    (fun a b x y hxy hv => L.addStep hn hxy.2 hxy.1 hv) _ _ ⟨rfl, Members.allTypes_empty⟩) ?_
  exact fun _ _ hg => L.pure ⟨hg, rfl⟩

/-! ## Attributes -/

/-- A relation between members that is kept when both get one more, of whose type `Good` holds.
The items of an encoded array are in no choice. -/
structure Growing (Good : TypeRef → Prop) (M : Members → Members → Prop) : Prop where
  empty : M .empty .empty
  withItem {a b : Members} {leaf : Leaf} (h : M a b) (hg : Good leaf.typeRef) :
    SameResult M (a.addElement leaf []) (b.addElement leaf [])
  withAttribute {a b : Members} {x : Attribute} (h : M a b) (hg : Good x.typeRef) :
    SameResult M (a.addAttribute x) (b.addAttribute x)

theorem growing_collected : Growing Good (Collected Good) where
  empty := ⟨rfl, Members.allTypes_empty⟩
  withItem h hg := by
    obtain ⟨rfl, hm⟩ := h
    exact sameResult_self fun members hr => ⟨rfl, hm.addElement hg hr⟩
  withAttribute h hg := by
    obtain ⟨rfl, hm⟩ := h
    exact sameResult_self fun members hr => ⟨rfl, hm.addAttribute hg hr⟩

variable {M : Members → Members → Prop}

theorem addAttributeAt (L : Lockstep S T R Good Noted) (hM : Growing Good M) (owner : Owner)
    {s t : Site} (h : s.bare = t.bare) {a b : Members} (hm : M a b) :
    R M (addAttributeAt S owner a s) (addAttributeAt T owner b t) := by
  have hu : attributeUse s = attributeUse t := by
    unfold attributeUse
    rw [Site.node_of_bare h]
  unfold Compile.addAttributeAt
  rw [Site.node_of_bare h, hu]
  refine L.bind (L.atSite (V := Eq) h owner (sameResult_self fun _ _ => rfl)) ?_
  intro use _ same
  subst same
  split
  · refine L.bind (L.encodedItem _ h owner) ?_
    intro item _ hi
    rcases hi with ⟨rfl, hi⟩
    cases item with
    | some item => exact L.atSite h owner (hM.withItem hm (hi item rfl))
    | none =>
      refine L.bind (L.attributeReference _ h owner) ?_
      intro e _ hg
      rcases hg with ⟨rfl, hg⟩
      exact L.atSite h owner (hM.withAttribute hm hg)
  · refine L.bind (L.attributeType h owner) ?_
    intro ref _ given
    rcases given with ⟨rfl, hg⟩
    exact L.atSite h owner (hM.withAttribute hm hg)
  · rw [Site.modelFault_of_bare h]
    exact L.fail _

theorem addAttributeStep (L : Lockstep S T R Good Noted) (hM : Growing Good M) (owner : Owner)
    {x y : AttributeStep} (h : x.bare = y.bare) (hx : x.Unanswered) {a b : Members} (hm : M a b) :
    R M (addAttributeStep S owner a x) (addAttributeStep T owner b y) := by
  cases x with
  | declared s =>
    cases y with
    | declared t => exact L.addAttributeAt hM owner (AttributeStep.declared.inj h) hm
    | unresolved => cases h
    | broken => cases h
  | unresolved fault key =>
    cases y with
    | declared => cases h
    | unresolved =>
      cases h
      exact L.bind (L.report hx key) fun _ _ _ => L.pure hm
    | broken => cases h
  | broken fault =>
    cases y with
    | declared => cases h
    | unresolved => cases h
    | broken => cases h; exact L.fail fault

theorem addAttributes (L : Lockstep S T R Good Noted) (hM : Growing Good M) (owner : Owner)
    {s t : Site} (h : s.bare = t.bare) {a b : Members} (hm : M a b) :
    R M (addAttributes S owner s a) (addAttributes T owner t b) :=
  L.foldlM (forall₂_of_map (AttributeStep.bare_ofContainer L.alike.declarations owner h)
      (AttributeStep.unanswered_ofContainer S.declarations owner s))
    (fun _ _ _ _ hxy hv => L.addAttributeStep hM owner hxy.2 hxy.1 hv) a b hm

/-! ## Derivation -/

theorem baseOf (L : Lockstep S T R Good Noted) (owner : Owner) {s t : Site}
    (h : s.bare = t.bare) : R (SameType Good) (baseOf S owner s) (baseOf T owner t) := by
  unfold Compile.baseOf
  rw [Site.node_of_bare h]
  split
  · exact L.resolveType _ h owner
  · rw [Site.location_of_bare h, Site.targetNamespace_of_bare h]
    exact L.fail _

/-- Both ways lead to the same base, which is a good structural type if there is one. -/
def SameBase (Good : TypeRef → Prop) (a b : Option String) : Prop :=
  a = b ∧ ∀ name, a = some name → ∃ ref, Good ref ∧ ref.kind = .structural ∧ ref.name = some name

theorem extendedType (L : Lockstep S T R Good Noted) (owner : Owner) {s t : Site}
    (h : s.bare = t.bare) :
    R (SameBase Good) (extendedType S owner s) (extendedType T owner t) := by
  refine L.bind (L.baseOf owner h) ?_
  intro ref _ hg
  rcases hg with ⟨rfl, hg⟩
  rw [Site.location_of_bare h, Site.targetNamespace_of_bare h]
  split
  · rename_i hk
    exact L.pure ⟨rfl, fun name hn => ⟨ref, hg, eq_of_beq hk, hn⟩⟩
  · split
    · exact L.pure ⟨rfl, fun _ hn => nomatch hn⟩
    · exact L.fail _

/-! ## Bodies -/

structure SameBody (Good : TypeRef → Prop) (M : Members → Members → Prop)
    (F : List ChoiceFrame → List ChoiceFrame → Prop) (a b : Body) : Prop where
  members : M a.members b.members
  frames : F a.frames b.frames
  base : SameBase Good a.base b.base
  mixed : a.mixed = b.mixed
  simple : a.simple = b.simple
  simpleType : ∀ ref, a.simple = some ref → Good ref

theorem SameBody.eq {a b : Body} (h : SameBody Good (Collected Good) Eq a b) :
    a = b ∧ a.AllTypes Good := by
  obtain ⟨⟨members, types⟩, frames, ⟨base, known⟩, mixed, simple, simpleType⟩ := h
  refine ⟨?_, types, simpleType, known⟩
  cases a
  cases b
  simp only [Body.mk.injEq]
  exact ⟨members, frames, base, mixed, simple⟩

variable {F : List ChoiceFrame → List ChoiceFrame → Prop}

abbrev Particles (S T : Setting)
    (R : ∀ {α β : Type}, (α → β → Prop) → Compile α → Compile β → Prop)
    (M : Members → Members → Prop) (F : List ChoiceFrame → List ChoiceFrame → Prop)
    (nested nested' : Nested) (owner : Owner) : Prop :=
  ∀ {s t : Site}, s.bare = t.bare →
    R (fun x y => M x.1 y.1 ∧ F x.2 y.2) (Compile.addParticles S nested owner s .empty)
      (Compile.addParticles T nested' owner t .empty)

theorem bodyOnBase (L : Lockstep S T R Good Noted) (hM : Growing Good M) {owner : Owner}
    (hp : Particles S T R M F nested nested' owner) {s t : Site} (h : s.bare = t.bare)
    (mixed : Bool) {base base' : Option String} (hb : SameBase Good base base') :
    R (SameBody Good M F) (bodyOnBase S nested owner s mixed base)
      (bodyOnBase T nested' owner t mixed base') := by
  refine L.bind (hp h) fun x y hxy => ?_
  refine L.bind (L.addAttributes hM owner h hxy.1) fun a b hm => ?_
  exact L.pure ⟨hm, hxy.2, hb, rfl, rfl, fun _ e => nomatch e⟩

theorem complexBody (L : Lockstep S T R Good Noted) (hM : Growing Good M) {owner : Owner}
    (hp : Particles S T R M F nested nested' owner) {s t : Site} (h : s.bare = t.bare)
    (extending mixed : Bool) :
    R (SameBody Good M F) (complexBody S nested owner s extending mixed)
      (complexBody T nested' owner t extending mixed) := by
  unfold Compile.complexBody
  split
  · exact L.bind (L.extendedType owner h) fun _ _ hb => L.bodyOnBase hM hp h mixed hb
  · exact L.bind (L.pure ⟨rfl, fun _ e => nomatch e⟩) fun _ _ hb => L.bodyOnBase hM hp h mixed hb

theorem simpleBody (L : Lockstep S T R Good Noted) (hM : Growing Good M) (hF : F [] [])
    (owner : Owner) {s t : Site} (h : s.bare = t.bare) (mixed : Bool) :
    R (SameBody Good M F) (simpleBody S owner s mixed) (simpleBody T owner t mixed) := by
  refine L.bind (L.addAttributes hM owner h hM.empty) fun a b hm => ?_
  refine L.bind (L.baseOf owner h) ?_
  intro ref _ hg
  rcases hg with ⟨rfl, hg⟩
  exact L.pure ⟨hm, hF, ⟨rfl, fun _ e => nomatch e⟩, rfl, rfl, fun _ e => Option.some.inj e ▸ hg⟩

theorem contentOf (L : Lockstep S T R Good Noted) (owner : Owner) {s t : Site}
    (h : s.bare = t.bare) :
    R (fun a b => a.bare = b.bare) (ofExcept (Content.ofSite owner s))
      (ofExcept (Content.ofSite owner t)) := by
  have := Content.ofSite_of_bare owner h
  revert this
  cases Content.ofSite owner s with
  | error f =>
    cases Content.ofSite owner t with
    | error g => intro h; cases h; exact L.throw _
    | ok b => intro h; cases h
  | ok a =>
    cases Content.ofSite owner t with
    | error g => intro h; cases h
    | ok b => intro h; exact L.pure (Except.ok.inj h)

/-- Bodies are related as the members that both compilations collect. -/
theorem bodyWith (L : Lockstep S T R Good Noted) (hM : Growing Good M) (hF : F [] [])
    {owner : Owner} (hp : Particles S T R M F nested nested' owner) {s t : Site}
    (h : s.bare = t.bare) :
    R (SameBody Good M F) (bodyOf S nested owner s) (bodyOf T nested' owner t) := by
  rw [bodyOf_eq, bodyOf_eq]
  refine L.bind (L.contentOf owner h) fun a b hab => ?_
  cases a with
  | simple d mixed =>
    cases b with
    | simple e mixed' =>
      obtain ⟨hd, rfl⟩ := Content.simple.inj hab
      exact L.simpleBody hM hF owner hd mixed
    | complex => cases hab
  | complex d extending mixed =>
    cases b with
    | simple => cases hab
    | complex e extending' mixed' =>
      obtain ⟨hd, rfl, rfl⟩ := Content.complex.inj hab
      exact L.complexBody hM hp hd extending mixed

/-- Bodies are the same if both compilations tell branches apart or both do not. -/
theorem bodyOf (L : Lockstep S T R Good Noted) (hc : S.options.choice = T.options.choice)
    {owner : Owner} (hn : Elements S T R Good nested nested' owner) {s t : Site}
    (h : s.bare = t.bare) :
    R (fun a b => a = b ∧ a.AllTypes Good) (bodyOf S nested owner s) (bodyOf T nested' owner t) :=
  L.weaken (L.bodyWith growing_collected rfl (L.addParticles hc hn) h) fun _ _ => SameBody.eq

end Lockstep

end Compile

end WsdlCatalog
