/-
  WsdlCatalog.Proofs.Keeping — invariants that compilations keep.

  A step keeps an invariant if the invariant holds after the step whenever it held before
  (`Keeps`); at the same time the step's results can be known to have a property. What
  follows references only adds reports and the entries of simple types, so an invariant
  that these do not break is kept (`keeps`), and the types that references come to are of
  known kinds.

  Proved: what a type is collected from starts with nothing and takes elements and
  attributes one after another (`collected_bodyOf`).
-/

import WsdlCatalog.Proofs.Lockstep.ComplexType
import WsdlCatalog.Proofs.Restoring

namespace WsdlCatalog

theorem Setting.Alike.refl (S : Setting) : S.Alike S := ⟨Declarations.Alike.refl _, fun _ => rfl, rfl⟩

namespace Compile

/-- A step keeps an invariant, and some `b` is to its result as `V` says. -/
def Keeps (I : Progress → Prop) {α β : Type} (V : α → β → Prop) (m : Compile α) (_ : Compile β) : Prop :=
  ∀ p a q, I p → Runs m p a q → I q ∧ ∃ b, V a b

namespace Keeps

variable {I : Progress → Prop} {α β γ δ : Type} {V : α → β → Prop}

theorem pure {a : α} {b : β} (h : V a b) : Keeps I V (pure a) (pure b) := by
  intro p _ q hp hr
  obtain ⟨rfl, rfl⟩ := runs_pure.mp hr
  exact ⟨hp, b, h⟩

theorem bind {W : γ → δ → Prop} {m : Compile α} {n : Compile β} {k : α → Compile γ}
    {l : β → Compile δ} (h : Keeps I V m n) (hk : ∀ a b, V a b → Keeps I W (k a) (l b)) :
    Keeps I W (m >>= k) (n >>= l) := by
  intro p c q hp hr
  obtain ⟨a, r, hm, hr⟩ := runs_bind.mp hr
  obtain ⟨hp, b, hv⟩ := h p a r hp hm
  exact hk a b hv r c q hp hr

theorem throw (e : Refusal) : Keeps I V (throw e : Compile α) (MonadExcept.throw e : Compile β) :=
  fun _ _ _ _ hr => absurd hr runs_throw

/-- A step that begins with a look at the inventory. -/
theorem ofInventory {k : Inventory → Compile α} {n : Compile β}
    (h : ∀ p, I p → ∀ a q, Runs (k p.inventory) p a q → I q ∧ ∃ b, V a b) :
    Keeps I V (inventory >>= k) n := by
  intro p a q hp hr
  obtain ⟨i, r, hi, hr⟩ := runs_bind.mp hr
  obtain ⟨rfl, rfl⟩ := runs_inventory.mp hi
  exact h r hp a q hr

end Keeps

/-! ## References -/

/-- Reports and the entries of simple types do not break the invariant, and these entries are of
known kinds. A simple type is entered under the name of some owner. -/
structure Kept (I : Progress → Prop) : Prop where
  note {p : Progress} (f : Fault) (key : String) (h : I p) : I (p.note f key)
  entered {p : Progress} {a : ScalarAlias} {owner : String} (h : I p)
    (hn : a.name = p.inventory.canonical? owner) (ha : a.Canonical) :
    I { p with inventory := p.inventory.addAlias a }
  known {p : Progress} (h : I p) : ∀ x ∈ p.inventory.aliases, x.2.Canonical

/-- References reserve nothing. -/
theorem Kept.reserved {I : Progress → Prop} (h : Kept I) (reservations : List Reservation) :
    Kept fun p => I p ∧ p.inventory.reservations = reservations where
  note f key hp := ⟨h.note f key hp.1, hp.2⟩
  entered hp hn ha := ⟨h.entered hp.1 hn ha, hp.2⟩
  known hp := h.known hp.1

/-! ## Kinds of values -/

/-- However the values of a built-in type are carried, the kind is known. -/
theorem canonical_builtin (options : Options) (name : QName) :
    (Builtin.ref options name).Canonical := by
  have strategy : ∀ s : Strategy, ScalarKind.ofName s.scalar.name = s.scalar := by
    intro s
    cases s
    rfl
  refine ⟨rfl, ?_⟩
  show ScalarKind.ofName (Builtin.scalar options name.localPart).name = Builtin.scalar options name.localPart
  unfold Builtin.scalar Builtin.carrier?
  split
  · rfl
  split
  · rfl
  split
  · exact strategy options.bigInteger
  split
  · exact strategy options.date
  split
  · rfl
  · exact strategy options.int64
  · exact strategy options.int64
  · exact strategy options.decimal
  · rfl
  · rfl
  · rfl

theorem canonical_structural (declared : String) (name : Option String) :
    (⟨.structural, declared, .untyped, name, none, false⟩ : TypeRef).Canonical := ⟨rfl, rfl⟩

theorem scalar_shape (d : SimpleDerivation) (origin : SimpleShape) :
    (d.shape origin).scalar = origin.scalar := by
  have apply : ∀ (steps : List SimpleStep) (shape : SimpleShape),
      (steps.foldl SimpleStep.apply shape).scalar = shape.scalar := by
    intro steps
    induction steps with
    | nil => exact fun _ => rfl
    | cons step rest ih =>
      intro shape
      rw [List.foldl_cons, ih]
      cases step <;> rfl
  exact apply d.steps origin

theorem canonical_shape (d : SimpleDerivation) {origin : SimpleShape}
    (h : ScalarKind.ofName origin.scalar.name = origin.scalar) : (d.shape origin).toRef.Canonical := by
  refine ⟨rfl, ?_⟩
  show ScalarKind.ofName (d.shape origin).scalar.name = (d.shape origin).scalar
  rw [scalar_shape]
  exact h

/-! ## References -/

section

variable {S : Setting} {I : Progress → Prop}

theorem Kept.steps (h : Kept I) : Steps S S (Keeps I) TypeRef.Canonical True where
  alike := .refl S
  pure := Keeps.pure
  bind := Keeps.bind
  throw := Keeps.throw
  report _ key := by
    intro p _ q hp hr
    obtain ⟨-, rfl⟩ := runs_report.mp hr
    exact ⟨h.note _ key hp, (), trivial⟩
  typeName _ _ := Keeps.ofInventory fun p hp _ q hr => by
    obtain ⟨rfl, rfl⟩ := runs_pure.mp hr
    exact ⟨hp, _, rfl, canonical_structural _ _⟩
  builtinType name := canonical_builtin _ name
  encodedType _ := ⟨rfl, rfl⟩
  unresolved _ _ := ⟨rfl, rfl⟩

theorem Kept.simpleShapeWith (h : Kept I) {f : Declaration → Compile ScalarAlias}
    (hf : ∀ d, Keeps I (fun a b => a = b ∧ (TypeRef.ofAlias a).Canonical) (f d) (f d))
    (owner : Owner) (site : Site) :
    Keeps I (fun a b => a = b ∧ a.toRef.Canonical) (simpleShapeWith S f owner site)
      (Compile.simpleShapeWith S f owner site) := by
  unfold Compile.simpleShapeWith
  dsimp only
  split
  · exact Keeps.pure ⟨rfl, canonical_shape _ rfl⟩
  · rename_i reference node _
    refine Keeps.bind (h.steps.resolveTypeWith (fun {d _} hb _ _ _ => ?_) reference
      (rfl : (site.atNode node).bare = (site.atNode node).bare) owner) ?_
    · exact fun p a q hp hr => hf d p a q hp hr
    · intro ref _ given
      obtain ⟨rfl, -, scalar⟩ := given
      split
      · refine Keeps.ofInventory ?_
        intro p hp shape q hr
        split at hr
        · rename_i a ha
          obtain ⟨rfl, rfl⟩ := runs_pure.mp hr
          exact ⟨hp, _, rfl, canonical_shape _ (h.known hp _ (mem_of_lookup ha))⟩
        · exact absurd hr runs_throw
      · exact Keeps.throw _
      · exact Keeps.pure ⟨rfl, canonical_shape _ scalar⟩

theorem Kept.compileAliasIn (h : Kept I) {reservations : List Reservation}
    (hf : ∀ p, I p → p.inventory.reservations = reservations) (depth : Nat) :
    ∀ chain d, Keeps I (fun a b => a = b ∧ (TypeRef.ofAlias a).Canonical)
      (compileAliasIn S depth chain d) (Compile.compileAliasIn S depth chain d) := by
  induction depth with
  | zero => exact fun _ _ => Keeps.throw _
  | succ depth ih =>
    intro chain d p a q hp hr
    unfold Compile.compileAliasIn at hr
    simp only [runs_bind, runs_inventory] at hr
    obtain ⟨_, _, ⟨rfl, rfl⟩, _, start, ⟨rfl, rfl⟩, hr⟩ := hr
    split at hr
    · rename_i held hheld
      obtain ⟨rfl, rfl⟩ := runs_pure.mp hr
      exact ⟨hp, _, rfl, rfl, h.known hp _ (mem_of_lookup hheld)⟩
    · split at hr
      · exact absurd hr runs_fail
      · simp only [runs_bind, runs_addAlias, runs_pure] at hr
        obtain ⟨shape, r, hs, _, _, rfl, rfl, rfl⟩ := hr
        obtain ⟨hr, _, -, -, scalar⟩ := h.simpleShapeWith (ih _) _ _ _ _ _ hp hs
        have same : start.inventory.canonical? (ownerOfType d.name)
            = r.inventory.canonical? (ownerOfType d.name) := by
          unfold Inventory.canonical?
          rw [hf _ hp, hf r hr]
        exact ⟨h.entered hr same scalar, _, rfl, rfl, scalar⟩

theorem Kept.compileAlias (h : Kept I) (d : Declaration) :
    Keeps I (fun a b => a = b ∧ (TypeRef.ofAlias a).Canonical) (compileAlias S d)
      (Compile.compileAlias S d) := by
  intro p a q hp hr
  obtain ⟨hq, ha⟩ := (h.reserved p.inventory.reservations).compileAliasIn (fun _ hp => hp.2) _ _ d
    p a q ⟨hp, rfl⟩ hr
  exact ⟨hq.1, ha⟩

/-- References keep the invariant, and come to types of known kinds. -/
theorem Kept.lockstep (h : Kept I) : Lockstep S S (Keeps I) TypeRef.Canonical True where
  toSteps := h.steps
  elementName _ _ := Keeps.ofInventory fun p hp _ q hr => by
    obtain ⟨rfl, rfl⟩ := runs_pure.mp hr
    exact ⟨hp, _, rfl, canonical_structural _ _⟩
  simpleType {d _} _ _ _ _ p a q hp hr := h.compileAlias d p a q hp hr
  shape owner {site _} _ p a q hp hr := h.simpleShapeWith h.compileAlias owner site p a q hp hr

end

/-! ## What members are collected from -/

/-- Members that were collected one after another. -/
inductive Collected : Members → Prop
  | empty : Collected .empty
  | withElement {members result : Members} (h : Collected members) (leaf : Leaf)
    (branches : List Branch) (ha : members.addElement leaf branches = .ok result) : Collected result
  | withAttribute {members result : Members} (h : Collected members) (a : Attribute)
    (hu : AttributeUse.ofName a.use.name = a.use) (ha : members.addAttribute a = .ok result) :
    Collected result

theorem attributeUse_known {site : Site} {use : AttributeUse} (h : attributeUse site = .ok use) :
    AttributeUse.ofName use.name = use := by
  unfold attributeUse at h
  split at h
  · cases h
    rfl
  · split at h
    · cases h
    · rename_i written _ _
      cases h
      rw [AttributeUse.name_ofName]

variable {setting : Setting} {nested : Nested} {owner : Owner} {members result : Members}
  {p q : Progress}

theorem collected_addStep {step : Step} (hm : Collected members)
    (h : Runs (addStep setting nested owner members step) p result q) : Collected result := by
  cases step with
  | element range site branches =>
    unfold addStep at h
    obtain ⟨e, r, -, h⟩ := runs_bind.mp h
    exact hm.withElement _ _ (mapError_eq_ok.mp (runs_ofExcept.mp h).1)
  | unresolved fault key =>
    unfold addStep at h
    simp only [runs_bind, runs_pure] at h
    obtain ⟨_, _, -, rfl, rfl⟩ := h
    exact hm
  | broken refusal => exact absurd h runs_throw

theorem collected_addAttributeAt {site : Site} (hm : Collected members)
    (h : Runs (addAttributeAt setting owner members site) p result q) : Collected result := by
  unfold addAttributeAt at h
  obtain ⟨use, r, hu, h⟩ := runs_bind.mp h
  have known := attributeUse_known (mapError_eq_ok.mp (runs_ofExcept.mp hu).1)
  split at h
  · obtain ⟨item, r', -, h⟩ := runs_bind.mp h
    split at h
    · exact hm.withElement _ _ (mapError_eq_ok.mp (runs_ofExcept.mp h).1)
    · obtain ⟨a, r'', -, h⟩ := runs_bind.mp h
      exact hm.withAttribute _ known (mapError_eq_ok.mp (runs_ofExcept.mp h).1)
  · obtain ⟨ref, r', -, h⟩ := runs_bind.mp h
    exact hm.withAttribute _ known (mapError_eq_ok.mp (runs_ofExcept.mp h).1)
  · exact absurd h runs_fail

theorem collected_addAttributes {container : Site} (hm : Collected members)
    (h : Runs (addAttributes setting owner container members) p result q) : Collected result := by
  refine runs_foldlM (I := fun _ members => Collected members) ?_ hm h
  intro done step a b p q ha h
  cases step with
  | declared site => exact collected_addAttributeAt ha h
  | unresolved fault key =>
    unfold addAttributeStep at h
    simp only [runs_bind, runs_pure] at h
    obtain ⟨_, _, -, rfl, rfl⟩ := h
    exact ha
  | broken fault => exact absurd h runs_fail

theorem collected_addParticles {container : Site} {frames : List ChoiceFrame}
    (hm : Collected members)
    (h : Runs (addParticles setting nested owner container members) p (result, frames) q) :
    Collected result := by
  unfold addParticles at h
  simp only [runs_bind, runs_pure] at h
  obtain ⟨_, _, hs, he, rfl⟩ := h
  obtain ⟨rfl, rfl⟩ := Prod.mk.inj he
  exact runs_foldlM (I := fun _ members => Collected members)
    (fun _ _ _ _ _ _ ha h => collected_addStep ha h) hm hs

theorem collected_bodyOf {site : Site} {body : Body}
    (h : Runs (bodyOf setting nested owner site) p body q) : Collected body.members := by
  rw [bodyOf_eq, runs_bind] at h
  obtain ⟨content, r, -, h⟩ := h
  cases content with
  | simple derivation mixed =>
    unfold Content.body simpleBody at h
    simp only [runs_bind, runs_pure] at h
    obtain ⟨members, _, ha, _, _, -, rfl, -⟩ := h
    exact collected_addAttributes .empty ha
  | complex container extending mixed =>
    unfold Content.body complexBody bodyOnBase at h
    simp only [runs_bind, runs_pure] at h
    obtain ⟨base, _, -, ⟨members, frames⟩, _, hp, members', _, ha, rfl, -⟩ := h
    exact collected_addAttributes (collected_addParticles .empty hp) ha

end Compile

end WsdlCatalog
