/-
  WsdlCatalog.Proofs.Derivations — simple types followed one step at a time.

  The definition of a simple type is a restriction, a list, or neither. A restriction and a list
  lead to one other type each (`Setting.derivation`): the one that an attribute names, or the one
  without a name inside, or none. Step by step this gives a chain of definitions
  (`Setting.Chain`), with names and without, to something that has no definition; or a definition
  with a name comes again (`Setting.Circular`).

  What a simple type is derived from was told with all types without names in one go
  (`Setting.origin`). Here both are the same: a chain tells the shape of a type
  (`Setting.Chain.shapeOf`), or why it has none (`Setting.Chain.refused`), and there is a chain
  unless named types follow one another without end (`Setting.exists_chain`).
-/

import WsdlCatalog.Proofs.Documented
import WsdlCatalog.Proofs.GroupReferences
import WsdlCatalog.Proofs.SimpleType

namespace WsdlCatalog

open Relation

/-! ## One step -/

inductive SimpleBase where
  /-- Nothing: the values are text. -/
  | text
  /-- The definition of a simple type without a name. -/
  | inline (site : Site)
  | declared (d : Declaration)
  /-- A built-in type, or one of the encoding. -/
  | scalar (ref : TypeRef)
  /-- Nothing that is known: the name it is written with, its key, and the fault it is. -/
  | unknown (declared key : String) (fault : Owner → Fault)
  | complex (name : QName)

namespace SimpleBase

def definition? : SimpleBase → Option Site
  | inline site => some site
  | declared d => some d.site
  | _ => none

theorem definition?_eq_some {base : SimpleBase} {site : Site} (h : base.definition? = some site) :
    base = .inline site ∨ ∃ d, base = .declared d ∧ d.site = site := by
  cases base with
  | inline inner => exact .inl (congrArg inline (Option.some.inj h))
  | declared d => exact .inr ⟨d, rfl, Option.some.inj h⟩
  | _ => cases h

def values : SimpleBase → ScalarKind
  | scalar ref => ref.scalar
  | unknown _ _ _ => .untyped
  | _ => .text

end SimpleBase

namespace Setting

/-- What a restriction restricts, or a list has as items: the type that an attribute names, or the
one inside. -/
def baseAt (S : Setting) (key : String) (site : Site) : SimpleBase :=
  match site.node.filled? key with
  | some reference =>
    match S.target reference site with
    | .unknown declared key fault => .unknown declared key fault
    | .scalar ref => .scalar ref
    | .simple d => .declared d
    | .complex name => .complex name
  | none =>
    match site.node.child? Vocabulary.xsd "simpleType" with
    | some inner => .inline (site.atNode inner)
    | none => .text

/-- The one step of derivation in the definition of a simple type. Unions and empty definitions
have none. -/
def derivation (S : Setting) (site : Site) : Option (SimpleStep × SimpleBase) :=
  match site.node.child? Vocabulary.xsd "restriction" with
  | some restriction =>
    some (.values (SimpleDerivation.valuesOf restriction), S.baseAt "base" (site.atNode restriction))
  | none =>
    (site.node.child? Vocabulary.xsd "list").map fun list =>
      (.list, S.baseAt "itemType" (site.atNode list))

/-- The definition of a simple type leads to another one by one step. -/
def StepsTo (S : Setting) (site inner : Site) : Prop :=
  ∃ step base, S.derivation site = some (step, base) ∧ base.definition? = some inner

/-- The steps from the definition of a simple type up to something without a definition. -/
inductive Chain (S : Setting) : Site → List SimpleStep → SimpleBase → Prop where
  | bare {site : Site} (h : S.derivation site = none) : Chain S site [] .text
  | last {site : Site} {step : SimpleStep} {base : SimpleBase}
    (h : S.derivation site = some (step, base)) (ends : base.definition? = none) :
    Chain S site [step] base
  | next {site inner : Site} {step : SimpleStep} {steps : List SimpleStep} {base last : SimpleBase}
    (h : S.derivation site = some (step, base)) (leads : base.definition? = some inner)
    (rest : Chain S inner steps last) : Chain S site (step :: steps) last

/-- The steps from a declared simple type come to one that they come to again. -/
def Circular (S : Setting) (d : Declaration) : Prop :=
  ∃ e, S.IsSimple e ∧ ReflTransGen S.StepsTo d.site e.site ∧ TransGen S.StepsTo e.site e.site

variable {S : Setting} {site inner : Site} {step : SimpleStep} {steps : List SimpleStep}
  {base last : SimpleBase} {d e : Declaration}

/-! ### Chains -/

theorem StepsTo.unique {other : Site} (h : S.StepsTo site inner) (h' : S.StepsTo site other) :
    inner = other := by
  obtain ⟨step, base, hd, leads⟩ := h
  obtain ⟨step', base', hd', leads'⟩ := h'
  cases hd.symm.trans hd'
  exact Option.some.inj (leads.symm.trans leads')

/-- There is a chain only from where steps come to an end. -/
theorem Chain.acc (h : S.Chain site steps last) : Acc (fun inner site => S.StepsTo site inner) site := by
  induction h with
  | bare h =>
    refine .intro _ fun inner ⟨step, base, hd, _⟩ => ?_
    cases h.symm.trans hd
  | last h ends =>
    refine .intro _ fun inner ⟨step, base, hd, leads⟩ => ?_
    cases h.symm.trans hd
    cases ends.symm.trans leads
  | next h leads _ ih => exact .intro _ fun other step => StepsTo.unique ⟨_, _, h, leads⟩ step ▸ ih

theorem Chain.not_circular (h : S.Chain d.site steps last) : ¬ S.Circular d := by
  rintro ⟨e, -, way, circle⟩
  exact not_transGen_of_acc (acc_of_reflTransGen h.acc way) circle

theorem sizeOf_inline {key : String} (h : S.baseAt key site = .inline inner) :
    sizeOf inner.node < sizeOf site.node ∧ inner.document = site.document := by
  unfold baseAt at h
  split at h
  · split at h <;> cases h
  · split at h
    · rename_i node hc
      cases h
      exact ⟨SimpleDerivation.sizeOf_child_lt hc, rfl⟩
    · cases h

/-- A type without a name is inside the one that is derived from it. -/
theorem inside_of_derivation (h : S.derivation site = some (step, .inline inner)) :
    sizeOf inner.node < sizeOf site.node ∧ inner.document = site.document := by
  unfold derivation at h
  split at h
  · rename_i restriction hr
    obtain ⟨-, hb⟩ := Prod.mk.inj (Option.some.inj h)
    obtain ⟨smaller, same⟩ := sizeOf_inline hb
    exact ⟨Nat.lt_trans smaller (SimpleDerivation.sizeOf_child_lt hr), same⟩
  · obtain ⟨list, hl, hb⟩ := Option.map_eq_some_iff.mp h
    obtain ⟨smaller, same⟩ := sizeOf_inline (Prod.mk.inj hb).2
    exact ⟨Nat.lt_trans smaller (SimpleDerivation.sizeOf_child_lt hl), same⟩

end Setting

/-! ## All types without names in one go -/

namespace SimpleBase

def origin (S : Setting) : SimpleBase → Origin
  | text => .known .text
  | inline site => S.origin site
  | declared d => .simple d
  | scalar ref => .known (.ofRef ref)
  | unknown label key fault => .unknown (.ofRef (.unresolved label)) key fault
  | complex name => .complex name

/-- What comes of the shape of the origin up to here. -/
def shapeFrom : SimpleBase → SimpleShape → SimpleShape
  | inline site, shape => site.shapeFrom shape
  | _, shape => shape

end SimpleBase

/-- What a step makes of a shape. A restriction that lists no values changes nothing. -/
def SimpleStep.on (shape : SimpleShape) : SimpleStep → SimpleShape
  | values [] => shape
  | step => SimpleStep.apply shape step

namespace Setting

variable {S : Setting} {site inner : Site} {step : SimpleStep} {base : SimpleBase}

def meaningOf (S : Setting) (document : SchemaDocument) : SimpleOrigin → Origin
  | .text => .known .text
  | .named reference node =>
    match S.target reference ⟨node, document⟩ with
    | .unknown declared key fault => .unknown (.ofRef (.unresolved declared)) key fault
    | .scalar ref => .known (.ofRef ref)
    | .simple d => .simple d
    | .complex name => .complex name

theorem origin_eq_meaningOf (S : Setting) (site : Site) :
    S.origin site = S.meaningOf site.document (SimpleDerivation.ofNode site.node).origin := by
  unfold origin meaningOf
  cases (SimpleDerivation.ofNode site.node).origin with
  | text => rfl
  | named reference node =>
    have same : S.target reference (site.atNode node) = S.target reference ⟨node, site.document⟩ := rfl
    cases ht : S.target reference ⟨node, site.document⟩ <;> simp only [same, ht]

theorem meaningOf_within (S : Setting) (key : String) (site : Site) :
    S.meaningOf site.document (SimpleDerivation.within key site.node).origin
      = (S.baseAt key site).origin S := by
  obtain ⟨node, document⟩ := site
  unfold SimpleDerivation.within baseAt
  dsimp only
  cases node.filled? key with
  | some reference =>
    dsimp only [meaningOf]
    cases S.target reference ⟨node, document⟩ <;> rfl
  | none =>
    dsimp only
    cases node.child? Vocabulary.xsd "simpleType" with
    | some inner => exact (S.origin_eq_meaningOf ⟨inner, document⟩).symm
    | none => rfl

theorem shape_within (S : Setting) (key : String) (site : Site) (shape : SimpleShape) :
    (SimpleDerivation.within key site.node).shape shape = (S.baseAt key site).shapeFrom shape := by
  unfold SimpleDerivation.within baseAt
  cases site.node.filled? key with
  | some reference =>
    dsimp only
    cases S.target reference site <;> rfl
  | none =>
    dsimp only
    cases site.node.child? Vocabulary.xsd "simpleType" <;> rfl

theorem shape_andThen (d : SimpleDerivation) (step : SimpleStep) (shape : SimpleShape) :
    (d.andThen step).shape shape = SimpleStep.apply (d.shape shape) step := by
  unfold SimpleDerivation.shape SimpleDerivation.andThen
  rw [List.foldl_append]
  rfl

/-- The origin of a type is that of the type that its step leads to. -/
theorem origin_of_derivation (h : S.derivation site = some (step, base)) :
    S.origin site = base.origin S := by
  rw [origin_eq_meaningOf, SimpleDerivation.ofNode_eq]
  unfold derivation at h
  cases hr : site.node.child? Vocabulary.xsd "restriction" with
  | some restriction =>
    rw [hr] at h
    cases h
    rw [← S.meaningOf_within "base" (site.atNode restriction)]
    dsimp only
    cases SimpleDerivation.valuesOf restriction <;> rfl
  | none =>
    rw [hr] at h
    obtain ⟨list, hl, hb⟩ := Option.map_eq_some_iff.mp h
    cases hb
    rw [hl, ← S.meaningOf_within "itemType" (site.atNode list)]
    rfl

/-- The shape of a type is what its step makes of the shape that it leads to. -/
theorem shapeFrom_of_derivation (h : S.derivation site = some (step, base)) (shape : SimpleShape) :
    site.shapeFrom shape = step.on (base.shapeFrom shape) := by
  unfold Site.shapeFrom
  rw [SimpleDerivation.ofNode_eq]
  unfold derivation at h
  cases hr : site.node.child? Vocabulary.xsd "restriction" with
  | some restriction =>
    rw [hr] at h
    cases h
    rw [← S.shape_within "base" (site.atNode restriction)]
    dsimp only
    cases SimpleDerivation.valuesOf restriction with
    | nil => rfl
    | cons => exact shape_andThen _ _ _
  | none =>
    rw [hr] at h
    obtain ⟨list, hl, hb⟩ := Option.map_eq_some_iff.mp h
    cases hb
    rw [hl, ← S.shape_within "itemType" (site.atNode list)]
    exact shape_andThen _ _ _

theorem origin_of_bare (h : S.derivation site = none) :
    S.origin site = .known .text ∧ ∀ shape, site.shapeFrom shape = shape := by
  rw [origin_eq_meaningOf]
  unfold Site.shapeFrom
  rw [SimpleDerivation.ofNode_eq]
  unfold derivation at h
  cases hr : site.node.child? Vocabulary.xsd "restriction" with
  | some restriction =>
    rw [hr] at h
    cases h
  | none =>
    rw [hr] at h
    rw [Option.map_eq_none_iff.mp h]
    exact ⟨rfl, fun _ => rfl⟩

/-- A reference to a scalar lists no values and is no list. -/
theorem plain_of_target {reference : String} {ref : TypeRef} (h : S.target reference site = .scalar ref) :
    ref.enumeration = none ∧ ref.isList = false := by
  unfold Setting.target at h
  split at h
  · cases h
  · split at h
    · cases h
      exact ⟨rfl, rfl⟩
    · split at h
      · split at h <;> cases h <;> exact ⟨rfl, rfl⟩
      · split at h
        · cases h
        · split at h <;> cases h

theorem plain_of_baseAt {key : String} {ref : TypeRef} (h : S.baseAt key site = .scalar ref) :
    ref.enumeration = none ∧ ref.isList = false := by
  unfold baseAt at h
  split at h
  · split at h <;> cases h
    rename_i ht
    exact plain_of_target ht
  · split at h <;> cases h

theorem plain_of_derivation {ref : TypeRef} (h : S.derivation site = some (step, .scalar ref)) :
    ref.enumeration = none ∧ ref.isList = false := by
  unfold derivation at h
  split at h
  · exact plain_of_baseAt (Prod.mk.inj (Option.some.inj h)).2
  · obtain ⟨list, -, hb⟩ := Option.map_eq_some_iff.mp h
    exact plain_of_baseAt (Prod.mk.inj hb).2

end Setting

/-! ## Shapes along a chain -/

/-- The values that a step lists, if it is a restriction that lists any. -/
def SimpleStep.listed? : SimpleStep → Option (List String)
  | values (value :: rest) => some (value :: rest)
  | _ => none

/-- The shape of what is at the start of a chain: its values are those of the end, it is a list if
a step is, and has the values of the first restriction that lists any. -/
structure SimpleShape.Shows (shape : SimpleShape) (steps : List SimpleStep) (base : SimpleBase) :
    Prop where
  scalar : shape.scalar = base.values
  isList : shape.isList = true ↔ .list ∈ steps
  enumeration : shape.enumeration = steps.findSome? SimpleStep.listed?

theorem SimpleShape.Shows.on {shape : SimpleShape} {steps : List SimpleStep} {base : SimpleBase}
    (h : shape.Shows steps base) (step : SimpleStep) : (step.on shape).Shows (step :: steps) base := by
  obtain ⟨scalar, isList, enumeration⟩ := h
  cases step with
  | list =>
    refine ⟨scalar, ?_, enumeration⟩
    exact iff_of_true rfl List.mem_cons_self
  | values values =>
    have others : SimpleStep.list ∈ SimpleStep.values values :: steps ↔ .list ∈ steps :=
      ⟨fun h => (List.mem_cons.mp h).resolve_left nofun, List.mem_cons_of_mem _⟩
    cases values with
    | nil => exact ⟨scalar, isList.trans others.symm, enumeration⟩
    | cons value rest => exact ⟨scalar, isList.trans others.symm, rfl⟩

namespace SimpleBase

/-- A chain may end here: not at a complex type, and not at something unknown if that is a fault. -/
def Known (S : Setting) : SimpleBase → Prop
  | complex _ => False
  | unknown _ _ _ => S.options.failOnUnresolved.holds = false
  | _ => True

/-- The fault that it is to end at something that is not known. -/
inductive Faulty (S : Setting) : SimpleBase → Fault → Prop where
  | complex {name : QName} (owner : Owner) (uri file : String) :
    Faulty S (.complex name) (.complexOrigin owner name.label uri file)
  | unknown {label key : String} {fault : Owner → Fault}
    (strict : S.options.failOnUnresolved.holds = true) (owner : Owner)
    (unanswered : (fault owner).IsUnanswered) : Faulty S (.unknown label key fault) (fault owner)

end SimpleBase

/-- The fault for which a simple type has no shape: that of its origin, or of the named type that it
is derived from. -/
inductive Refused (S : Setting) (names : Names) : Owner → Site → Fault → Prop where
  | complex {owner : Owner} {site : Site} {name : QName} (h : S.origin site = .complex name) :
    Refused S names owner site
      (.complexOrigin owner name.label site.document.targetNamespace site.document.location)
  | unknown {owner : Owner} {site : Site} {shape : SimpleShape} {key : String} {fault : Owner → Fault}
    (h : S.origin site = .unknown shape key fault)
    (strict : S.options.failOnUnresolved.holds = true) : Refused S names owner site (fault owner)
  | simple {owner : Owner} {site : Site} {d : Declaration} {f : Fault} (h : S.origin site = .simple d)
    (inside : Refused S names (names (ownerOfType d.name)) d.site f) : Refused S names owner site f

namespace Setting

variable {S : Setting} {names : Names} {site inner : Site} {step : SimpleStep}
  {steps : List SimpleStep} {base last : SimpleBase} {d e : Declaration} {owner : Owner}

/-- The shape of a type without a name is known to the type around it. -/
theorem shapeOf_inline {n : Nat} {shape : SimpleShape} (h : ShapeOf S names n inner shape)
    (hd : S.derivation site = some (step, .inline inner)) : ShapeOf S names n site (step.on shape) := by
  have origin : S.origin site = S.origin inner := origin_of_derivation hd
  have made (shape : SimpleShape) : step.on (inner.shapeFrom shape) = site.shapeFrom shape :=
    (shapeFrom_of_derivation hd shape).symm
  cases h with
  | known h => exact made _ ▸ .known (origin.trans h)
  | unknown h lenient => exact made _ ▸ .unknown (origin.trans h) lenient
  | simple h hd => exact made _ ▸ .simple (origin.trans h) hd

theorem refused_inline {f : Fault} (h : Refused S names owner inner f)
    (hd : S.derivation site = some (step, .inline inner)) : Refused S names owner site f := by
  have origin : S.origin site = S.origin inner := origin_of_derivation hd
  obtain ⟨-, same⟩ := inside_of_derivation hd
  cases h with
  | complex h =>
    rw [same]
    exact .complex (origin.trans h)
  | unknown h strict => exact .unknown (origin.trans h) strict
  | simple h inside => exact .simple (origin.trans h) inside

/-- **What is at the start of a chain has the shape that the chain shows**, if the chain may end
where it does. -/
theorem Chain.shapeOf (h : S.Chain site steps last) (names : Names) (known : last.Known S) :
    ∃ n shape, ShapeOf S names n site shape ∧ shape.Shows steps last := by
  induction h with
  | @bare site h =>
    obtain ⟨origin, same⟩ := origin_of_bare h
    refine ⟨0, _, .known origin, ?_⟩
    rw [same]
    exact ⟨rfl, iff_of_false Bool.false_ne_true List.not_mem_nil, rfl⟩
  | @last site step base h ends =>
    have origin := origin_of_derivation h
    have made := shapeFrom_of_derivation h
    cases base with
    | text =>
      refine ⟨0, _, .known origin, ?_⟩
      rw [made]
      exact .on ⟨rfl, iff_of_false Bool.false_ne_true List.not_mem_nil, rfl⟩ step
    | scalar ref =>
      obtain ⟨none, single⟩ := plain_of_derivation h
      refine ⟨0, _, .known origin, ?_⟩
      rw [made]
      exact .on ⟨rfl, iff_of_false (Bool.eq_false_iff.mp single) List.not_mem_nil, none⟩ step
    | unknown label key fault =>
      refine ⟨0, _, .unknown origin known, ?_⟩
      rw [made]
      exact .on ⟨rfl, iff_of_false Bool.false_ne_true List.not_mem_nil, rfl⟩ step
    | complex name => exact known.elim
    | inline inner => cases ends
    | declared d => cases ends
  | @next site inner step steps base last h leads _ ih =>
    obtain ⟨n, shape, hs, shows⟩ := ih known
    rcases SimpleBase.definition?_eq_some leads with rfl | ⟨d, rfl, rfl⟩
    · exact ⟨n, _, shapeOf_inline hs h, shows.on step⟩
    · refine ⟨n + 1, _, .simple (origin_of_derivation h) hs, ?_⟩
      rw [shapeFrom_of_derivation h]
      have entry : (SimpleShape.ofAlias (names.entry d shape)).Shows steps last :=
        ⟨shows.scalar, shows.isList, shows.enumeration⟩
      exact entry.on step

/-- If a chain may not end where it does, what is at its start is refused for that. -/
theorem Chain.refused (h : S.Chain site steps last) (names : Names) (bad : ¬ last.Known S)
    (owner : Owner) : ∃ f, last.Faulty S f ∧ Refused S names owner site f := by
  induction h generalizing owner with
  | bare => exact absurd trivial bad
  | @last site step base h ends =>
    have origin := origin_of_derivation h
    cases base with
    | complex name => exact ⟨_, .complex _ _ _, .complex origin⟩
    | unknown label key fault =>
      have strict := Bool.eq_true_of_not_eq_false bad
      exact ⟨_, .unknown strict owner (unanswered_of_origin origin owner), .unknown origin strict⟩
    | text => exact absurd trivial bad
    | scalar ref => exact absurd trivial bad
    | inline inner => cases ends
    | declared d => cases ends
  | @next site inner step steps base last h leads _ ih =>
    rcases SimpleBase.definition?_eq_some leads with rfl | ⟨d, rfl, rfl⟩
    · obtain ⟨f, faulty, refused⟩ := ih bad owner
      exact ⟨f, faulty, refused_inline refused h⟩
    · obtain ⟨f, faulty, refused⟩ := ih bad (names (ownerOfType d.name))
      exact ⟨f, faulty, .simple (origin_of_derivation h) refused⟩

/-! ## Named types that follow one another -/

/-- A declared simple type is derived from another one, with no named type between. -/
def Follows (S : Setting) (d e : Declaration) : Prop := S.origin d.site = .simple e

/-- Steps lead to the named type that a type is derived from. -/
theorem stepsTo_of_origin (site : Site) (h : S.origin site = .simple e) :
    TransGen S.StepsTo site e.site := by
  cases hd : S.derivation site with
  | none =>
    rw [(origin_of_bare hd).1] at h
    cases h
  | some step =>
    obtain ⟨step, base⟩ := step
    rw [origin_of_derivation hd] at h
    cases base with
    | inline inner =>
      have := (inside_of_derivation hd).1
      exact .head ⟨step, _, hd, rfl⟩ (stepsTo_of_origin inner h)
    | declared d =>
      cases h
      exact .single ⟨step, _, hd, rfl⟩
    | text => cases h
    | scalar ref => cases h
    | unknown label key fault => cases h
    | complex name => cases h
termination_by sizeOf site.node

/-- There is a chain if there is one from the named type that a type is derived from. -/
theorem exists_chain_of (site : Site)
    (h : ∀ e, S.origin site = .simple e → ∃ steps last, S.Chain e.site steps last) :
    ∃ steps last, S.Chain site steps last := by
  cases hd : S.derivation site with
  | none => exact ⟨[], .text, .bare hd⟩
  | some step =>
    obtain ⟨step, base⟩ := step
    have origin := origin_of_derivation hd
    cases base with
    | inline inner =>
      have := (inside_of_derivation hd).1
      obtain ⟨steps, last, rest⟩ := exists_chain_of inner fun e he => h e (origin.trans he)
      exact ⟨_, last, .next hd rfl rest⟩
    | declared d =>
      obtain ⟨steps, last, rest⟩ := h d origin
      exact ⟨_, last, .next hd rfl rest⟩
    | text => exact ⟨_, _, .last hd rfl⟩
    | scalar ref => exact ⟨_, _, .last hd rfl⟩
    | unknown label key fault => exact ⟨_, _, .last hd rfl⟩
    | complex name => exact ⟨_, _, .last hd rfl⟩
termination_by sizeOf site.node

/-- **There is a chain** unless named types follow one another without end. -/
theorem exists_chain (h : Acc (fun e d => S.Follows d e) d) :
    ∃ steps last, S.Chain d.site steps last := by
  induction h with
  | intro d _ ih => exact exists_chain_of d.site fun e he => ih e he

/-- Named types that follow one another are steps apart, -/
theorem stepsTo_of_reflTransGen (way : ReflTransGen S.Follows d e) :
    ReflTransGen S.StepsTo d.site e.site :=
  way.lift' _ fun d _ h => (stepsTo_of_origin d.site h).to_reflTransGen

/-- and in a circle steps are as well. -/
theorem stepsTo_of_transGen (way : TransGen S.Follows d e) : TransGen S.StepsTo d.site e.site :=
  way.lift' _ fun d _ h => stepsTo_of_origin d.site h

end Setting

end WsdlCatalog
