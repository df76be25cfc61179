/-
  WsdlCatalog.Proofs.Circles — types that use groups which are inside themselves.

  The content model of a type uses model groups, and its attributes use attribute groups; these
  use others. A group on a circle that can be reached in this way (`GroupCircle`,
  `AttributeGroupCircle`) has no expansion. A type without a name inside an element uses groups
  of its own and is compiled together with the type around it. Types are not nested without end if
  no complex type stands inside a model group.

  Proved: for every complex type the expansion of groups ends, a type that can reach a circle is
  not compiled, the fault of one is thrown only for groups on a circle that the type or one
  inside it can reach, and without circles every reference to a group is expanded
  (`expandsGroups_of_described`).
-/

import WsdlCatalog.Proofs.Enclosing
import WsdlCatalog.Proofs.Throwing

namespace WsdlCatalog

open Relation

/-! ## Circles that a type can reach -/

theorem Content.ofSite_owner {owner : Owner} {site : Site} {content : Content}
    (h : Content.ofSite owner site = .ok content) (owner' : Owner) :
    Content.ofSite owner' site = .ok content := by
  unfold Content.ofSite at h ⊢
  split at h
  · split at h <;> cases h
    rfl
  · split at h <;> cases h
    rfl
  · exact h

namespace Declarations

variable (ds : Declarations) (site : Site)

/-- A model group on a circle that can be reached from the content model of a type. -/
def GroupCircle (d : Declaration) : Prop :=
  ∃ owner container extending mixed, Content.ofSite owner site = .ok (.complex container extending mixed) ∧
    OnCircle ds.GroupUses (ds.UsesGroup container) d

/-- An attribute group on a circle that can be reached from the attributes of a type. -/
def AttributeGroupCircle (d : Declaration) : Prop :=
  ∃ owner content, Content.ofSite owner site = .ok content ∧
    OnCircle ds.AttributeGroupUses (ds.UsesAttributeGroup content.attributesAt) d

end Declarations

namespace Compile

variable {S : Setting} {owner : Owner} {site container : Site} {p q : Progress} {nested : Nested}

/-! ## Circles are not compiled -/

theorem whole_of_addAttributes {members result : Members}
    (h : Runs (addAttributes S owner container members) p result q) :
    AttributeStep.Whole (AttributeStep.ofContainer S.declarations owner container) := by
  refine runs_foldlM (I := fun done _ => AttributeStep.Whole done) ?_
    (fun _ => List.not_mem_nil) h
  intro done step a b p q ha h fault hm
  rcases List.mem_append.mp hm with hm | hm
  · exact ha fault hm
  · rw [← List.mem_singleton.mp hm] at h
    exact absurd h runs_fail

/-- A type with a body reaches no circle. -/
theorem not_circle_of_bodyOf {body : Body} (h : Runs (bodyOf S nested owner site) p body q)
    (d : Declaration) :
    ¬ S.declarations.GroupCircle site d ∧ ¬ S.declarations.AttributeGroupCircle site d := by
  rw [bodyOf_eq] at h
  obtain ⟨content, r, found, h⟩ := runs_bind.mp h
  obtain ⟨hc, rfl⟩ := runs_ofExcept.mp found
  constructor
  · rintro ⟨owner', container, extending, mixed, hc', circle⟩
    obtain rfl := Except.ok.inj (hc.symm.trans (Content.ofSite_owner hc' owner))
    obtain ⟨base, r, -, h⟩ := runs_bind.mp h
    obtain ⟨⟨members, frames⟩, r, hp, -⟩ := runs_bind.mp h
    exact Particle.not_onCircle_of_whole (whole_of_addParticles hp) d circle
  · rintro ⟨owner', content', hc', circle⟩
    obtain rfl := Except.ok.inj (hc.symm.trans (Content.ofSite_owner hc' owner))
    suffices AttributeStep.Whole (AttributeStep.ofContainer S.declarations owner content.attributesAt) from
      AttributeStep.not_onCircle_of_whole this d circle
    cases content with
    | simple derivation mixed =>
      obtain ⟨members, r, ha, -⟩ := runs_bind.mp h
      exact whole_of_addAttributes ha
    | complex container extending mixed =>
      obtain ⟨base, r, -, h⟩ := runs_bind.mp h
      obtain ⟨⟨members, frames⟩, r, -, h⟩ := runs_bind.mp h
      obtain ⟨members, r, ha, -⟩ := runs_bind.mp h
      exact whole_of_addAttributes ha

theorem not_circle_of_complexTypeIn {depth : Nat} {anonymous : Bool} {name : QName} {u : Unit}
    (h : Runs (complexTypeIn S depth anonymous owner name site) p u q) (d : Declaration) :
    ¬ S.declarations.GroupCircle site d ∧ ¬ S.declarations.AttributeGroupCircle site d := by
  cases depth with
  | zero => exact absurd h runs_fail
  | succ depth =>
    obtain ⟨body, r, hb, -⟩ := runs_bind.mp h
    exact not_circle_of_bodyOf hb d

/-! ## Only circles are faults -/

/-- The refusal of a type is ordinary, or for a group on a circle that the type, or one inside it,
can reach. -/
inductive Explained (ds : Declarations) (root : Site) : Refusal → Prop where
  | ordinary {e : Refusal} (h : e.Ordinary) : Explained ds root e
  | group {inner : Site} {d : Declaration} {place : Place} (inside : ReflTransGen ds.Encloses root inner)
    (circle : ds.GroupCircle inner d) :
    Explained ds root (.fault (.model (.circularGroup d.name.localPart) place))
  | attributeGroup {inner : Site} {d : Declaration} {place : Place}
    (inside : ReflTransGen ds.Encloses root inner) (circle : ds.AttributeGroupCircle inner d) :
    Explained ds root (.fault (.model (.circularAttributeGroup d.name.localPart) place))

/-- A refusal that is not explained is for no type inside the root, at whatever depth types are. -/
theorem throws_complexTypeIn {set : SchemaSet} {options : Options} {root : Site}
    (hs : Setting.ofSchemaSet set options = .ok S) (finite : S.NestsFinitely) (depth : Nat) :
    ∀ (outer : List Site) (anonymous : Bool) (canonical : String) (name : QName) (site : Site),
      Nest S (site :: outer) → ReflTransGen S.declarations.Encloses root site →
      set.writtenTypes.length < depth + outer.length →
      Throws (Explained S.declarations root)
        (complexTypeIn S depth anonymous (some canonical) name site) := by
  induction depth with
  | zero =>
    intro outer anonymous canonical name site nest _ enough
    have := nest.length_le hs finite
    simp only [List.length_cons] at this
    omega
  | succ depth ih =>
    intro outer anonymous canonical name site nest inside enough
    unfold complexTypeIn
    have ordinary (e : Refusal) (h : e.Ordinary) : Explained S.declarations root e := .ordinary h
    have body : Throws (Explained S.declarations root)
        (bodyOf S (complexTypeIn S depth true) (some canonical) site) := by
      refine throws_bodyOf ordinary (fun e he inner hi canonical name => ?_) ?_ fun content hc => ?_
      · refine ih (site :: outer) true canonical name inner (nest.cons he hi)
          (inside.tail ⟨_, e, he, hi⟩) ?_
        simp only [List.length_cons]
        omega
      · unfold contentModel
        split
        · rename_i container extending mixed hc
          exact Particle.faults_ofContainer
            (fun site _ h => .ordinary (Range.Error.ordinary h site _)) fun _ d circle =>
            .group inside ⟨_, container, extending, mixed, hc, circle⟩
        · trivial
      · exact AttributeStep.faults_ofContainer fun _ d circle =>
          .attributeGroup inside ⟨_, content, hc, circle⟩
    exact body.bind fun _ => throws_modify _

theorem explained_of_described {set : SchemaSet} {options : Options}
    (hs : Setting.ofSchemaSet set options = .ok S) (finite : S.NestsFinitely) (h : Described S site)
    (anonymous : Bool) (canonical : String) (name : QName) :
    Throws (Explained S.declarations site)
      (complexType S anonymous (some canonical) name site) := by
  refine throws_complexTypeIn hs finite S.nesting [] anonymous canonical name site
    (nest_singleton h) .refl ?_
  rw [nesting_eq hs, List.length_nil]
  omega

/-! ## Every complex type -/

structure ExpandsGroups (S : Setting) (site : Site) : Prop where
  /-- However deep model groups may nest, more depth makes no difference. -/
  groupsEnd : ∀ owner container depth, (S.declarations.inSpace .group).length < depth →
    Particle.ofNodes owner container.document
        (Particle.ofGroup S.declarations owner [] (Particle.expandGroup S.declarations owner depth []))
        (container.node.childrenIn Vocabulary.xsd Particle.typeTags)
      = Particle.ofContainer S.declarations owner container
  attributeGroupsEnd : ∀ owner container depth,
    (S.declarations.inSpace .attributeGroup).length < depth →
    AttributeStep.ofSite (AttributeStep.ofGroup S.declarations owner []
        (AttributeStep.expandGroup S.declarations owner depth [])) container
      = AttributeStep.ofContainer S.declarations owner container
  /-- The depth of types is enough as well. -/
  typesEnd : ∀ anonymous canonical name p f q,
    (complexType S anonymous (some canonical) name site).outcome p = (.error (.fault f), q) →
      ¬ f.IsEndless
  /-- A type that can reach a circle is not compiled. -/
  rejects : ∀ d, S.declarations.GroupCircle site d ∨ S.declarations.AttributeGroupCircle site d →
    ∀ anonymous canonical name p u q,
      ¬ Runs (complexType S anonymous (some canonical) name site) p u q
  /-- The fault of a circle is for a model group on one that this type or one inside it can
  reach. -/
  onlyGroupCircles : ∀ anonymous canonical name p q group place,
    (complexType S anonymous (some canonical) name site).outcome p
        = (.error (.fault (.model (.circularGroup group) place)), q) →
      ∃ inner d, ReflTransGen S.declarations.Encloses site inner ∧
        S.declarations.GroupCircle inner d ∧ group = d.name.localPart
  onlyAttributeGroupCircles : ∀ anonymous canonical name p q group place,
    (complexType S anonymous (some canonical) name site).outcome p
        = (.error (.fault (.model (.circularAttributeGroup group) place)), q) →
      ∃ inner d, ReflTransGen S.declarations.Encloses site inner ∧
        S.declarations.AttributeGroupCircle inner d ∧ group = d.name.localPart
  /-- Without circles every reference to a model group is replaced by what the group declares. -/
  expandsEach : (∀ d, ¬ S.declarations.GroupCircle site d) → ∀ owner container extending mixed,
    Content.ofSite owner site = .ok (.complex container extending mixed) →
      ∃ body, (∀ d e, S.declarations.UsesGroup container d → ReflTransGen S.declarations.GroupUses d e →
          Particle.Unfolds S.declarations owner body e) ∧
        Particle.ofContainer S.declarations owner container
          = Particle.ofNodes owner container.document (Particle.ofGroup S.declarations owner [] body)
            (container.node.childrenIn Vocabulary.xsd Particle.typeTags)
  expandsEachAttributeGroup : (∀ d, ¬ S.declarations.AttributeGroupCircle site d) →
    ∀ owner content, Content.ofSite owner site = .ok content →
      ∃ body, (∀ d e, S.declarations.UsesAttributeGroup content.attributesAt d →
          ReflTransGen S.declarations.AttributeGroupUses d e →
          AttributeStep.Unfolds S.declarations owner body e) ∧
        AttributeStep.ofContainer S.declarations owner content.attributesAt
          = AttributeStep.ofSite (AttributeStep.ofGroup S.declarations owner [] body) content.attributesAt

/-- **The expansion of groups ends and rejects exactly the circles**, for every complex type of a
schema set whose model groups hold no complex types. -/
theorem expandsGroups_of_described {set : SchemaSet} {options : Options}
    (hs : Setting.ofSchemaSet set options = .ok S) (free : S.GroupsHoldNoTypes)
    (h : Described S site) : ExpandsGroups S site where
  groupsEnd _ _ _ enough := Particle.ofContainer_bound enough
  attributeGroupsEnd _ _ _ enough := AttributeStep.ofContainer_bound enough
  typesEnd anonymous canonical name p f q hr := by
    have explained := explained_of_described hs free.nestsFinitely h anonymous canonical name p _ q hr
    cases explained with
    | ordinary ordinary =>
      cases f with
      | endlessNesting => exact absurd ordinary not_false
      | _ => exact not_false
    | group => exact not_false
    | attributeGroup => exact not_false
  rejects d circle anonymous canonical name p u q hr := by
    obtain ⟨group, attributeGroup⟩ := not_circle_of_complexTypeIn hr d
    exact circle.elim group attributeGroup
  onlyGroupCircles anonymous canonical name p q group place hr := by
    cases explained_of_described hs free.nestsFinitely h anonymous canonical name p _ q hr with
    | ordinary ordinary => exact absurd trivial ordinary
    | group inside circle => exact ⟨_, _, inside, circle, rfl⟩
  onlyAttributeGroupCircles anonymous canonical name p q group place hr := by
    cases explained_of_described hs free.nestsFinitely h anonymous canonical name p _ q hr with
    | ordinary ordinary => exact absurd trivial ordinary
    | attributeGroup inside circle => exact ⟨_, _, inside, circle, rfl⟩
  expandsEach apart owner container extending mixed hc :=
    Particle.exists_unfolding fun e circle => apart e ⟨owner, container, extending, mixed, hc, circle⟩
  expandsEachAttributeGroup apart owner content hc :=
    AttributeStep.exists_unfolding fun e circle => apart e ⟨owner, content, hc, circle⟩

/-! ### A group used twice and groups in a circle -/

/-- A type that uses the group of a contact by way of two others, and a type whose group uses one
that uses it again. -/
def contacts : SchemaSet :=
  let xsd (tag : String) (attributes : List (String × String)) (children : List Xml.Node) : Xml.Node :=
    ⟨Vocabulary.xsd, tag, attributes, [("t", some "urn:t")], children, "", 1⟩
  let group (name : String) (children : List Xml.Node) :=
    xsd "group" [("name", name)] [xsd "sequence" [] children]
  let ref (name : String) := xsd "group" [("ref", "t:" ++ name)] []
  let contact := group "Contact" [xsd "element" [("name", "email")] []]
  let order := xsd "complexType" [("name", "Order")] [xsd "sequence" [] [ref "Billing", ref "Shipping"]]
  let tangle := xsd "complexType" [("name", "Tangle")] [ref "There"]
  ⟨"memory:t.xsd", [⟨"memory:t.xsd", "urn:t", xsd "schema" []
    [contact, group "Billing" [ref "Contact"], group "Shipping" [ref "Contact"],
      group "There" [ref "Back"], group "Back" [ref "There"], order, tangle]⟩], none⟩

def elementNamesOf (S : Setting) (site : Site) : List String :=
  (contentSites S.declarations "owner" site).filterMap (·.node.filled? "name")

theorem contacts_expandsGroups : ∃ S order tangle, Setting.ofSchemaSet contacts {} = .ok S ∧
    S.GroupsHoldNoTypes ∧ Described S order ∧ Described S tangle ∧
    ExpandsGroups S order ∧ elementNamesOf S order = ["email", "email"] ∧
    ExpandsGroups S tangle ∧ ∃ inner there, S.declarations.GroupCircle inner there := by
  obtain ⟨S, order, tangle, hs, free, types, complex, names, place, q, fault⟩ :
      ∃ S order tangle, Setting.ofSchemaSet contacts {} = .ok S ∧
        ((S.declarations.inSpace .group).all fun d =>
          d.site.node.walk.all fun node => !Setting.isComplexType node) ∧
        S.declarations.inSpace .type = [order, tangle] ∧
        (order.isSimpleType = false ∧ tangle.isSimpleType = false) ∧
        elementNamesOf S order.site = ["email", "email"] ∧
        ∃ place q, (complexType S false (some "Tangle") tangle.name tangle.site).outcome .start
          = (.error (.fault (.model (.circularGroup "There") place)), q) :=
    ⟨_, _, _, rfl, rfl, rfl, ⟨rfl, rfl⟩, rfl, _, _, rfl⟩
  have free : S.GroupsHoldNoTypes := fun d hd node hn => by
    have holds := List.all_eq_true.mp (List.all_eq_true.mp free d hd) node hn
    rwa [Bool.not_eq_true'] at holds
  have described (d : Declaration) (hd : d ∈ S.declarations.inSpace .type)
      (hc : d.isSimpleType = false) : Described S d.site := .type hd hc
  rw [types] at described
  have order := described order List.mem_cons_self complex.1
  have tangle := described tangle (List.mem_cons_of_mem _ List.mem_cons_self) complex.2
  have expands := expandsGroups_of_described hs free tangle
  obtain ⟨inner, there, -, circle, -⟩ := expands.onlyGroupCircles _ _ _ _ _ _ _ fault
  exact ⟨S, _, _, hs, free, order, tangle, expandsGroups_of_described hs free order, names,
    expands, inner, there, circle⟩

end Compile

end WsdlCatalog
