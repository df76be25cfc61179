/-
  WsdlCatalog.Proofs.Flattening — several definitions flattened as one.

  A flattener collects the elements of a definition in their order, and may go on with those
  of another one (`Compile.flatten`). What a definition adds does not depend on what was
  collected before: it is a list of elements with the branches they are in (`Placed`), which
  are joined to the leaves one by one (`Members.Gains`), and whose branches move when choices
  come before theirs.

  The elements were found when the definition was flattened on its own. They are found again
  whenever the same references are followed later (`Compile.Adds`), for another type, too.

  Proved: flattened behind other definitions, a definition adds what it has on its own
  (`Compile.Flattens.complexBody`), and fails only if its elements do not fit.
-/

import WsdlCatalog.Proofs.Joining
import WsdlCatalog.Proofs.Later
import WsdlCatalog.Proofs.Placement

namespace WsdlCatalog

/-! ## Elements in their places -/

structure Placed where
  leaf : Leaf
  branches : List Branch

namespace Placed

def seen (x : Placed) : Leaf := { x.leaf with branch := x.branches.getLast? }

def met (x : Placed) : String × List Branch := (x.leaf.name, x.branches)

/-- The element when `n` choices come before those around it. -/
def after (n : Nat) (x : Placed) : Placed := { x with branches := x.branches.map (Branch.after n) }

structure Known (frames : List ChoiceFrame) (x : Placed) : Prop where
  name : x.leaf.name ≠ textSlotName
  branches : ∀ b ∈ x.branches, b.Of frames

end Placed

namespace Members

/-- Members are others with more elements; attributes aside. -/
structure Gains (members result : Members) (xs : List Placed) : Prop where
  leaves : collect members.leaves (xs.map Placed.seen) = .ok result.leaves
  met : result.met = members.met ++ xs.map Placed.met

theorem collect_append {leaves result : List Leaf} {xs ys : List Leaf} :
    collect leaves (xs ++ ys) = .ok result ↔
      ∃ between, collect leaves xs = .ok between ∧ collect between ys = .ok result := by
  unfold collect
  rw [List.foldlM_append, ok_bind]

variable {members between result : Members} {xs ys : List Placed}

theorem gains_of_eq (hl : result.leaves = members.leaves) (hm : result.met = members.met) :
    members.Gains result [] :=
  ⟨hl ▸ rfl, hm.trans (List.append_nil _).symm⟩

theorem Gains.trans (h : members.Gains between xs) (h' : between.Gains result ys) :
    members.Gains result (xs ++ ys) := by
  constructor
  · rw [List.map_append, collect_append]
    exact ⟨_, h.leaves, h'.leaves⟩
  · rw [h'.met, h.met, List.map_append, List.append_assoc]

/-- One element can be added if its leaf can be. -/
theorem addElement_iff {leaf : Leaf} {branches : List Branch} {members : Members} :
    (∃ result, members.addElement leaf branches = .ok result) ↔
      ∃ leaves, collect members.leaves ([⟨leaf, branches⟩].map Placed.seen) = .ok leaves := by
  have one : collect members.leaves ([(⟨leaf, branches⟩ : Placed)].map Placed.seen)
      = insert { leaf with branch := branches.getLast? } members.leaves := by
    rw [List.map_singleton]
    exact bind_pure _
  rw [one]
  constructor
  · rintro ⟨result, h⟩
    obtain ⟨leaves, hi, -⟩ := addElement_ok h
    exact ⟨leaves, hi⟩
  · rintro ⟨leaves, h⟩
    unfold addElement
    rw [h]
    exact ⟨_, rfl⟩

theorem gains_addElement {leaf : Leaf} {branches : List Branch}
    (h : members.addElement leaf branches = .ok result) : members.Gains result [⟨leaf, branches⟩] := by
  obtain ⟨leaves, hi, rfl⟩ := addElement_ok h
  exact ⟨(bind_pure _).trans hi, rfl⟩

end Members

namespace Compile

/-! ## One flattener for several definitions -/

/-- The members with the items of an encoded array, if an attribute states that they are such. -/
def addItemAt (setting : Setting) (owner : Owner) (members : Members) (site : Site) :
    Compile Members :=
  match site.node.filled? "ref" with
  | none => return members
  | some reference => do
    let _ ← atSite site owner (attributeUse site)
    match ← encodedItem setting reference site owner with
    | none => return members
    | some item =>
      atSite site owner
        (members.addElement ⟨encodedItemName, item.declared, item, ⟨0, none⟩, false, none⟩ [])

def addItemStep (setting : Setting) (owner : Owner) (members : Members) :
    AttributeStep → Compile Members
  | .declared site => addItemAt setting owner members site
  | .unresolved fault key => do
    report setting fault key
    return members
  | .broken fault => fail fault

/-- The members with the elements of an outline, and with the items of encoded arrays that the
attributes of a definition state. -/
def addOutline (setting : Setting) (nested : Nested) (owner : Owner) (outline : Outline)
    (container : Site) (members : Members) : Compile Members :=
  outline.steps.foldlM (addStep setting nested owner) members >>=
    (AttributeStep.ofContainer setting.declarations owner container).foldlM
      (addItemStep setting owner)

def addContainer (setting : Setting) (nested : Nested) (owner : Owner)
    (collected : Members × List ChoiceFrame) (container : Site) :
    Compile (Members × List ChoiceFrame) := do
  let outline := Outline.addAll setting.options.choice .once [] ⟨[], collected.2⟩
    (Particle.ofContainer setting.declarations owner container)
  return (← addOutline setting nested owner outline container collected.1, outline.frames)

structure FlatContent where
  elements : List Element
  choices : List ChoiceGroup

/-- The elements and choices that definitions have together, with the text slot if text is mixed
in. -/
def flatten (setting : Setting) (nested : Nested) (owner : Owner) (containers : List Site)
    (mixed : Bool) : Compile FlatContent := do
  let (members, frames) ← containers.foldlM (addContainer setting nested owner) (.empty, [])
  let text := if mixed then some (Builtin.ref setting.options .stringType) else none
  return ⟨members.elements setting.options.nillableAsOptional text, members.choices frames⟩

/-! ## Steps that add elements -/

/-- Whenever it is done after `q` the step adds these elements, and it is done if they fit. -/
structure Adds (q : Progress) (xs : List Placed) (g : Members → Compile Members) : Prop where
  gains : ∀ {p members result p'}, q.Precedes p → Runs (g members) p result p' →
    members.Gains result xs ∧ p'.inventory = p.inventory
  runs : ∀ {p members leaves}, q.Precedes p →
    Members.collect members.leaves (xs.map Placed.seen) = .ok leaves →
      ∃ result p', Runs (g members) p result p'

variable {p q q' : Progress} {xs ys : List Placed} {f g : Members → Compile Members}

theorem Adds.mono (h : Adds q xs g) (hq : q.Precedes q') : Adds q' xs g :=
  ⟨fun hp => h.gains (hq.trans hp), fun hp => h.runs (hq.trans hp)⟩

theorem adds_pure : Adds q [] pure where
  gains _ hr := by
    obtain ⟨rfl, rfl⟩ := runs_pure.mp hr
    exact ⟨Members.gains_of_eq rfl rfl, rfl⟩
  runs _ _ := ⟨_, _, runs_pure.mpr ⟨rfl, rfl⟩⟩

theorem Adds.bind (h : Adds q xs f) (h' : Adds q ys g) :
    Adds q (xs ++ ys) fun members => f members >>= g where
  gains hp hr := by
    obtain ⟨between, r, hf, hg⟩ := runs_bind.mp hr
    obtain ⟨first, same⟩ := h.gains hp hf
    obtain ⟨second, same'⟩ := h'.gains (hp.trans (.of_eq same)) hg
    exact ⟨first.trans second, same'.trans same⟩
  runs hp hc := by
    rw [List.map_append, Members.collect_append] at hc
    obtain ⟨leaves, first, second⟩ := hc
    obtain ⟨between, r, hf⟩ := h.runs hp first
    obtain ⟨gained, same⟩ := h.gains hp hf
    obtain rfl := Except.ok.inj (gained.leaves.symm.trans first)
    obtain ⟨result, p', hg⟩ := h'.runs (hp.trans (.of_eq same)) second
    exact ⟨result, p', runs_bind.mpr ⟨between, r, hf, hg⟩⟩

theorem adds_addElement (site : Site) (owner : Owner) (leaf : Leaf) (branches : List Branch) :
    Adds q [⟨leaf, branches⟩] fun members => atSite site owner (members.addElement leaf branches) where
  gains _ hr := by
    obtain ⟨ha, rfl⟩ := runs_atSite.mp hr
    exact ⟨Members.gains_addElement ha, rfl⟩
  runs _ hc := by
    obtain ⟨result, ha⟩ := Members.addElement_iff.mpr ⟨_, hc⟩
    exact ⟨result, _, runs_atSite.mpr ⟨ha, rfl⟩⟩

/-- What a reference came to decides what is added behind it. -/
theorem Adds.behind {α : Type} {m : Compile α} {k : α → Members → Compile Members} {a : α}
    (again : ∀ p, q.Precedes p → ∃ p', Runs m p a p' ∧ p'.inventory = p.inventory)
    (h : Adds q xs (k a)) : Adds q xs fun members => m >>= fun a => k a members where
  gains hp hr := by
    obtain ⟨b, r, hm, hk⟩ := runs_bind.mp hr
    obtain ⟨r', hm', same⟩ := again _ hp
    obtain ⟨rfl, rfl⟩ := hm.unique hm'
    obtain ⟨gained, same'⟩ := h.gains (hp.trans (.of_eq same)) hk
    exact ⟨gained, same'.trans same⟩
  runs hp hc := by
    obtain ⟨r, hm, same⟩ := again _ hp
    obtain ⟨result, p', hk⟩ := h.runs (hp.trans (.of_eq same)) hc
    exact ⟨result, p', runs_bind.mpr ⟨a, r, hm, hk⟩⟩

/-! ## What is collected again -/

/-- No type is inside an element, and it has not the name of the text slot. -/
def Plain (ds : Declarations) (site : Site) : Prop :=
  site.inner? = none ∧ ds.nameOf site ≠ textSlotName

instance (ds : Declarations) (site : Site) : Decidable (Plain ds site) :=
  decidable_of_iff (site.inner?.isNone = true ∧ ds.nameOf site ≠ textSlotName)
    (and_congr_left' Option.isNone_iff_eq_none)

/-- What the first step collects, the second one adds at any later time, when `n` choices come
before. -/
def Collects (Good : Placed → Prop) (n : Nat) (f g : Members → Compile Members) : Prop :=
  ∀ p members result q, p.Keyed → Runs (f members) p result q →
    q.Keyed ∧ p.Precedes q ∧ ∃ xs, members.Gains result xs ∧ (∀ x ∈ xs, Good x) ∧
      Adds q (xs.map (Placed.after n)) g

namespace Collects

variable {α : Type} {S : Setting} {Good : Placed → Prop} {n : Nat}
  {f' g' : Members → Compile Members} {e e' : Compile α} {k l : α → Members → Compile Members}

theorem bind (h : Collects Good n f g) (h' : Collects Good n f' g') :
    Collects Good n (fun members => f members >>= f') fun members => g members >>= g' := by
  intro p members result q hp hr
  obtain ⟨between, r, hf, hr⟩ := runs_bind.mp hr
  obtain ⟨keyed, first, xs, gained, good, adds⟩ := h p members between r hp hf
  obtain ⟨keyed, second, ys, gained', good', adds'⟩ := h' r between result q keyed hr
  refine ⟨keyed, first.trans second, xs ++ ys, gained.trans gained',
    List.forall_mem_append.mpr ⟨good, good'⟩, ?_⟩
  rw [List.map_append]
  exact (adds.mono second).bind adds'

/-- Nothing is collected. -/
theorem pure : Collects Good n pure pure := by
  intro p members result q hp hr
  obtain ⟨rfl, rfl⟩ := runs_pure.mp hr
  exact ⟨hp, .refl _, [], Members.gains_of_eq rfl rfl, fun _ h => absurd h List.not_mem_nil, adds_pure⟩

theorem throw (e : Refusal) : Collects Good n (fun _ => MonadExcept.throw e) g :=
  fun _ _ _ _ _ hr => absurd hr runs_throw

theorem fail (fault : Fault) : Collects Good n (fun _ => Compile.fail fault) g := throw (.fault fault)

theorem foldlM {ι : Type} {F G : Members → ι → Compile Members} {is js : List ι}
    (h : List.Forall₂ (fun i j => Collects Good n (F · i) (G · j)) is js) :
    Collects Good n (is.foldlM F) (js.foldlM G) := by
  induction h with
  | nil => exact pure
  | cons first _ ih =>
    simp only [List.foldlM_cons]
    exact first.bind ih

theorem addElement {leaf : Leaf} {branches : List Branch} (good : Good ⟨leaf, branches⟩)
    (site : Site) (owner owner' : Owner) :
    Collects Good n (fun members => atSite site owner (members.addElement leaf branches))
      fun members => atSite site owner' (members.addElement leaf (branches.map (Branch.after n))) := by
  intro p members result q hp hr
  obtain ⟨ha, rfl⟩ := runs_atSite.mp hr
  exact ⟨hp, .refl _, [⟨leaf, branches⟩], Members.gains_addElement ha,
    List.forall_mem_singleton.mpr good, adds_addElement site owner' _ _⟩

/-- Behind a reference that is followed once more. -/
theorem behind (h : Repeats e e')
    (hk : ∀ a, (∃ p q, Runs e p a q) → Collects Good n (k a) (l a)) :
    Collects Good n (fun members => e >>= fun a => k a members)
      fun members => e' >>= fun a => l a members := by
  intro p members result q hp hr
  obtain ⟨a, r, he, hr⟩ := runs_bind.mp hr
  obtain ⟨keyed, first, again⟩ := h p a r hp he
  obtain ⟨keyed, second, xs, gained, good, adds⟩ := hk a ⟨p, r, he⟩ r members result q keyed hr
  exact ⟨keyed, first.trans second, xs, gained, good,
    adds.behind fun p' hp' => again p' (second.trans hp')⟩

/-- Behind a reference that is followed only the first time. -/
theorem aside (h : Repeats e e') (hk : ∀ a, Collects Good n (k a) g) :
    Collects Good n (fun members => e >>= fun a => k a members) g := by
  intro p members result q hp hr
  obtain ⟨a, r, he, hr⟩ := runs_bind.mp hr
  obtain ⟨keyed, first, -⟩ := h p a r hp he
  obtain ⟨keyed, second, rest⟩ := hk a r members result q keyed hr
  exact ⟨keyed, first.trans second, rest⟩

/-- Attributes are no elements. -/
theorem addAttribute (site : Site) (owner : Owner) (a : Attribute) :
    Collects Good n (fun members => atSite site owner (members.addAttribute a)) Pure.pure := by
  intro p members result q hp hr
  obtain ⟨ha, rfl⟩ := runs_atSite.mp hr
  have same : result.leaves = members.leaves ∧ result.met = members.met := by
    unfold Members.addAttribute at ha
    split at ha
    · cases ha
      exact ⟨rfl, rfl⟩
    · split at ha
      · cases ha
        exact ⟨rfl, rfl⟩
      · cases ha
  exact ⟨hp, .refl _, [], Members.gains_of_eq same.1 same.2,
    fun _ h => absurd h List.not_mem_nil, adds_pure⟩

/-! ## Elements and attributes -/

variable {nested nested' : Nested} {owner owner' : Owner} {frames : List ChoiceFrame}

theorem addStep {φ : Fault} {s t : Step} (same : t.moved φ 0 = s.moved φ n)
    (plain : ∀ site, Outline.siteOf s = some site → Plain S.declarations site)
    (branches : ∀ range site branches, s = .element range site branches →
      ∀ b ∈ branches, b.Of frames) :
    Collects (Placed.Known frames) n (Compile.addStep S nested owner · s)
      (Compile.addStep S nested' owner' · t) := by
  cases s with
  | element range site inside =>
    cases t with
    | element range' site' inside' =>
      obtain ⟨rfl, rfl, moved⟩ := Step.element.inj same
      have moved : inside' = inside.map (Branch.after n) := by
        rw [← moved]
        exact (List.map_id'' (fun _ => rfl) inside').symm
      subst moved
      obtain ⟨inner, name⟩ := plain _ rfl
      refine behind (.elementParticle inner owner owner') fun e he => ?_
      obtain ⟨p, q, he⟩ := he
      refine addElement ⟨?_, branches _ _ _ rfl⟩ _ _ _
      rwa [← name_of_elementParticle he] at name
    | unresolved => cases same
    | broken => cases same
  | unresolved fault key =>
    cases t with
    | element => cases same
    | unresolved fault' key' => exact behind (.report _ _ _ _) fun _ _ => pure
    | broken => cases same
  | broken refusal => exact throw refusal

theorem addAttributeAt (site : Site) :
    Collects (Placed.Known frames) n (Compile.addAttributeAt S owner · site)
      (addItemAt S owner' · site) := by
  have item (ref : TypeRef) : Placed.Known frames
      ⟨⟨encodedItemName, ref.declared, ref, ⟨0, none⟩, false, none⟩, []⟩ :=
    ⟨(by decide : encodedItemName ≠ textSlotName), fun _ h => absurd h List.not_mem_nil⟩
  unfold Compile.addAttributeAt addItemAt
  cases site.node.filled? "ref" with
  | some reference =>
    refine behind (.atSite site owner owner' _) fun use _ => ?_
    refine behind (.encodedItem reference site owner owner') fun found _ => ?_
    cases found with
    | some ref => exact addElement (item ref) site owner owner'
    | none => exact aside (.attributeReference reference site owner owner') fun _ => addAttribute _ _ _
  | none =>
    refine aside (.atSite site owner owner' _) fun use => ?_
    cases site.node.filled? "name" with
    | some name => exact aside (.statedType _ owner owner' owner owner' site) fun _ => addAttribute _ _ _
    | none => exact fail _

theorem addAttributeStep {φ : Fault} {s t : AttributeStep} (same : t.unblamed φ = s.unblamed φ) :
    Collects (Placed.Known frames) n (Compile.addAttributeStep S owner · s)
      (addItemStep S owner' · t) := by
  cases s with
  | declared site =>
    cases t with
    | declared site' =>
      cases same
      exact addAttributeAt site
    | unresolved => cases same
    | broken => cases same
  | unresolved fault key =>
    cases t with
    | declared => cases same
    | unresolved fault' key' => exact behind (.report _ _ _ _) fun _ _ => pure
    | broken => cases same
  | broken fault => exact fail fault

/-! ## Definitions -/

/-- The elements of a definition are met again, behind the choices `before`. -/
theorem addOutline (nested nested' : Nested) (owner' : Owner) (before : List ChoiceFrame)
    (container : Site)
    (plain : ∀ site ∈ (Particle.leavesOf (Particle.ofContainer S.declarations owner container)).map
      Prod.fst, Plain S.declarations site) :
    let own := Outline.ofParticles S.options.choice (Particle.ofContainer S.declarations owner container)
    let behind := Outline.addAll S.options.choice .once [] ⟨[], before⟩
      (Particle.ofContainer S.declarations owner' container)
    behind.frames = before ++ own.frames ∧
      Collects (Placed.Known own.frames) before.length
        (fun members => own.steps.foldlM (Compile.addStep S nested owner) members >>=
          addAttributes S owner container)
        (Compile.addOutline S nested' owner' behind container) := by
  intro own behind
  -- Faults have no part in what is collected, so that one fault may stand for all of them.
  let φ : Fault := .circularSimpleType ⟨none, ""⟩ ""
  have moved : behind.moved φ [] = own.moved φ before :=
    Outline.moved_ofContainer φ before S.options.choice S.declarations owner owner' container
  obtain ⟨steps, frames⟩ := Outline.mk.inj moved
  have plain : ∀ s ∈ own.steps, ∀ site, Outline.siteOf s = some site → Plain S.declarations site := by
    intro s hs site hsite
    refine plain site ?_
    rw [← Outline.sites_ofParticles S.options.choice]
    exact List.mem_filterMap.mpr ⟨s, hs, hsite⟩
  have framed := Outline.framed_ofParticles S.options.choice
    (Particle.ofContainer S.declarations owner container)
  have known : ∀ s ∈ own.steps, (∀ site, Outline.siteOf s = some site → Plain S.declarations site) ∧
      ∀ range site branches, s = .element range site branches → ∀ b ∈ branches, b.Of own.frames :=
    fun s hs => ⟨plain s hs, fun range site branches h => framed range site branches (h ▸ hs)⟩
  refine ⟨frames, bind (foldlM ?_) (foldlM ?_)⟩
  · exact (Lockstep.forall₂_of_map steps.symm known).imp fun s t given =>
      addStep given.2.symm given.1.1 given.1.2
  · have attributes : (AttributeStep.ofContainer S.declarations owner container).map (AttributeStep.unblamed φ)
        = (AttributeStep.ofContainer S.declarations owner' container).map (AttributeStep.unblamed φ) :=
      AttributeStep.unblamed_ofContainer owner owner' container
    exact (Lockstep.forall₂_of_map attributes fun _ _ => trivial).imp fun s t given =>
      addAttributeStep given.2.symm

end Collects

/-! ## Several definitions -/

/-- Whenever it is done after `q`, the step comes to these elements and choices, and it is done if
the elements fit together. -/
structure Flattens (q : Progress) (xs : List Placed) (frames : List ChoiceFrame)
    (m : Compile (Members × List ChoiceFrame)) : Prop where
  gains : ∀ {p result p'}, q.Precedes p → Runs m p result p' →
    Members.empty.Gains result.1 xs ∧ result.2 = frames ∧ p'.inventory = p.inventory
  runs : ∀ {p leaves}, q.Precedes p → Members.collect [] (xs.map Placed.seen) = .ok leaves →
    ∃ result p', Runs m p result p'

theorem flattens_nil : Flattens q [] [] (pure (.empty, [])) where
  gains _ hr := by
    obtain ⟨rfl, rfl⟩ := runs_pure.mp hr
    exact ⟨Members.gains_of_eq rfl rfl, rfl, rfl⟩
  runs _ _ := ⟨_, _, runs_pure.mpr ⟨rfl, rfl⟩⟩

variable {S : Setting} {nested nested' : Nested} {owner owner' : Owner} {container : Site}
  {before : List ChoiceFrame} {m : Compile (Members × List ChoiceFrame)}

theorem Flattens.addContainer (h : Flattens q xs before m) {more : List ChoiceFrame}
    (frames : (Outline.addAll S.options.choice .once [] ⟨[], before⟩
      (Particle.ofContainer S.declarations owner container)).frames = more)
    (adds : Adds q ys (addOutline S nested owner (Outline.addAll S.options.choice .once []
      ⟨[], before⟩ (Particle.ofContainer S.declarations owner container)) container)) :
    Flattens q (xs ++ ys) more (m >>= (Compile.addContainer S nested owner · container)) where
  gains hp hr := by
    obtain ⟨⟨members, _⟩, r, hm, hr⟩ := runs_bind.mp hr
    obtain ⟨first, rfl, same⟩ := h.gains hp hm
    obtain ⟨result, r', ho, hr⟩ := runs_bind.mp hr
    obtain ⟨rfl, rfl⟩ := runs_pure.mp hr
    obtain ⟨second, same'⟩ := adds.gains (hp.trans (.of_eq same)) ho
    exact ⟨first.trans second, frames, same'.trans same⟩
  runs hp hc := by
    rw [List.map_append, Members.collect_append] at hc
    obtain ⟨leaves, hx, hy⟩ := hc
    obtain ⟨⟨members, _⟩, r, hm⟩ := h.runs hp hx
    obtain ⟨gained, rfl, same⟩ := h.gains hp hm
    obtain rfl := Except.ok.inj (gained.leaves.symm.trans hx)
    obtain ⟨result, p', ho⟩ := adds.runs (hp.trans (.of_eq same)) hy
    exact ⟨_, p', runs_bind.mpr ⟨_, r, hm, runs_bind.mpr ⟨result, p', ho, runs_pure.mpr ⟨rfl, rfl⟩⟩⟩⟩

/-- A body is collected again behind the choices `before`, for whatever type it is. -/
theorem collects_complexBody {r : Progress} {body : Body} {extending mixed : Bool}
    (before : List ChoiceFrame) (nested' : Nested) (owner' : Owner) (keyed : p.Keyed)
    (plain : ∀ site ∈ (Particle.leavesOf (Particle.ofContainer S.declarations owner container)).map
      Prod.fst, Plain S.declarations site)
    (hr : Runs (complexBody S nested owner container extending mixed) p body r) :
    let behind := Outline.addAll S.options.choice .once [] ⟨[], before⟩
      (Particle.ofContainer S.declarations owner' container)
    r.Keyed ∧ p.Precedes r ∧ behind.frames = before ++ body.frames ∧
      ∃ ys, Members.empty.Gains body.members ys ∧ (∀ y ∈ ys, y.Known body.frames) ∧
        Adds r (ys.map (Placed.after before.length)) (addOutline S nested' owner' behind container) := by
  intro behind
  unfold Compile.complexBody at hr
  obtain ⟨base, p₁, hbase, hr⟩ := runs_bind.mp hr
  have extended : p₁.Keyed ∧ p.Precedes p₁ := by
    split at hbase
    · have repeats := Repeats.extendedType container owner owner p _ p₁ keyed hbase
      exact ⟨repeats.1, repeats.2.1⟩
    · obtain ⟨-, rfl⟩ := runs_pure.mp hbase
      exact ⟨keyed, .refl _⟩
  unfold bodyOnBase addParticles at hr
  simp only [runs_bind, runs_pure] at hr
  obtain ⟨_, p₂, ⟨members, _, hs, rfl, rfl⟩, result, _, ha, rfl, rfl⟩ := hr
  obtain ⟨frames, collects⟩ := Collects.addOutline nested nested' owner' before container plain
  obtain ⟨keyed, precedes, ys, gained, known, adds⟩ :=
    collects p₁ .empty result _ extended.1 (runs_bind.mpr ⟨members, p₂, hs, ha⟩)
  exact ⟨keyed, extended.2.trans precedes, frames, ys, gained, known, adds⟩

/-- **A definition adds what it has on its own**, with its choices counted on, to whatever was
flattened before it. -/
theorem Flattens.complexBody (h : Flattens q xs before m) {r : Progress} {body : Body}
    {extending mixed : Bool} (nested' : Nested) (owner' : Owner) (keyed : p.Keyed)
    (plain : ∀ site ∈ (Particle.leavesOf (Particle.ofContainer S.declarations owner container)).map
      Prod.fst, Plain S.declarations site)
    (hr : Runs (complexBody S nested owner container extending mixed) p body r)
    (hq : r.Precedes q) :
    ∃ ys, Members.empty.Gains body.members ys ∧ (∀ y ∈ ys, y.Known body.frames) ∧
      Flattens q (xs ++ ys.map (Placed.after before.length)) (before ++ body.frames)
        (m >>= (Compile.addContainer S nested' owner' · container)) := by
  obtain ⟨-, -, frames, ys, gained, known, adds⟩ :=
    collects_complexBody before nested' owner' keyed plain hr
  exact ⟨ys, gained, known, h.addContainer frames (adds.mono hq)⟩

end Compile

end WsdlCatalog
