/-
  WsdlCatalog.Proofs.Merging — which declarations share a member.

  What is declared of a member is its name, the label of its type and what the type is
  (`Typing`). A declaration becomes a member of its own, or it agrees with the member of its
  name in the label and is folded into it; the member says of its type what it said before
  (`Joined`). This is so for the elements and attributes of one definition, and for those that
  repeat inherited ones.

  Proved: the members of a body come of its declarations (`told_bodyOf`), those of a type come
  of its own and of those of its base (`StructuralType.joined_compose`), and so it is for every
  type of a catalog (`Catalog.Completes.merges`).
-/

import WsdlCatalog.Proofs.Origin
import WsdlCatalog.Proofs.Entering

namespace WsdlCatalog

/-! ## Typings -/

structure Typing where
  name : String
  declared : String
  typeRef : TypeRef
  deriving DecidableEq, Repr

inductive Slot where
  | elements
  | attributes
  deriving DecidableEq, Repr

def Leaf.typing (leaf : Leaf) : Typing := ⟨leaf.name, leaf.declared, leaf.typeRef⟩
def Attribute.typing (a : Attribute) : Typing := ⟨a.name, a.declaredType, a.typeRef⟩
def Element.typing (e : Element) : Typing := ⟨e.name, e.declaredType, e.typeRef⟩
def Compile.Referenced.typing (e : Compile.Referenced) : Typing := ⟨e.name, e.declared, e.typeRef⟩

def Typing.Agrees (x y : Typing) : Prop := x.name = y.name ∧ x.declared = y.declared

theorem Typing.Agrees.refl (x : Typing) : x.Agrees x := ⟨rfl, rfl⟩

theorem Typing.Agrees.trans {x y z : Typing} (h : x.Agrees y) (h' : y.Agrees z) : x.Agrees z :=
  ⟨h.1.trans h'.1, h.2.trans h'.2⟩

/-- The members after some declarations: each one is added, or agrees with one that is there. -/
inductive Joined (before : List Typing) : List Typing → List Typing → Prop where
  | nil : Joined before [] before
  | new {said after : List Typing} (x : Typing) (h : Joined before said after) :
    Joined before (said ++ [x]) (after ++ [x])
  | old {said after : List Typing} (x : Typing) {y : Typing} (h : Joined before said after)
    (hy : y ∈ after) (agrees : y.Agrees x) : Joined before (said ++ [x]) after

namespace Joined

variable {before said after : List Typing}

/-- Members stay as they are. -/
theorem subset (h : Joined before said after) : before ⊆ after := by
  induction h with
  | nil => exact List.Subset.refl _
  | new x _ ih => exact List.Subset.trans ih (List.subset_append_left _ _)
  | old x _ _ _ ih => exact ih

theorem complete (h : Joined before said after) {x : Typing} (hx : x ∈ said) :
    ∃ y ∈ after, y.Agrees x := by
  induction h with
  | nil => exact absurd hx List.not_mem_nil
  | new z _ ih =>
    rcases List.mem_append.mp hx with hx | hx
    · obtain ⟨y, hy, agrees⟩ := ih hx
      exact ⟨y, List.mem_append_left _ hy, agrees⟩
    · exact ⟨x, List.mem_append_right _ hx, .refl x⟩
  | old z _ hz agrees ih =>
    rcases List.mem_append.mp hx with hx | hx
    · exact ih hx
    · cases List.mem_singleton.mp hx
      exact ⟨_, hz, agrees⟩

theorem source (h : Joined before said after) {y : Typing} (hy : y ∈ after) :
    y ∈ before ∨ y ∈ said := by
  induction h with
  | nil => exact .inl hy
  | new x _ ih =>
    rcases List.mem_append.mp hy with hy | hy
    · exact (ih hy).imp id (List.mem_append_left _)
    · exact .inr (List.mem_append_right _ hy)
  | old x _ _ _ ih => exact (ih hy).imp id (List.mem_append_left _)

end Joined

/-! ## Members of one definition -/

namespace Members

def typings (members : Members) : Slot → List Typing
  | .elements => members.leaves.map Leaf.typing
  | .attributes => members.attributes.map Attribute.typing

variable {members result : Members}

def Takes (members : Members) (slot : Slot) (x : Typing) (result : Members) : Prop :=
  (result.typings slot = members.typings slot ++ [x] ∨
    (result.typings slot = members.typings slot ∧ ∃ y ∈ members.typings slot, y.Agrees x)) ∧
  ∀ other, other ≠ slot → result.typings other = members.typings other

theorem takes_addElement {leaf : Leaf} {branches : List Branch}
    (h : members.addElement leaf branches = .ok result) :
    members.Takes .elements leaf.typing result := by
  obtain ⟨leaves, hi, rfl⟩ := addElement_ok h
  refine ⟨?_, ?_⟩
  · rcases insert_cases hi with ⟨-, rfl⟩ | ⟨before, first, after, hl, -, hn, hd, rfl⟩
    · exact .inl (List.map_append ..)
    · refine .inr ⟨?_, first.typing, ?_, hn, hd⟩
      · show (before ++ fold first _ :: after).map Leaf.typing = members.leaves.map Leaf.typing
        rw [hl, List.map_append, List.map_append]
        rfl
      · exact List.mem_map_of_mem (hl ▸ List.mem_append_right _ List.mem_cons_self)
  · intro other hne
    cases other with
    | elements => exact absurd rfl hne
    | attributes => rfl

theorem takes_addAttribute {a : Attribute} (h : members.addAttribute a = .ok result) :
    members.Takes .attributes a.typing result := by
  have leaves := leaves_addAttribute h
  refine ⟨?_, ?_⟩
  · unfold addAttribute at h
    split at h
    · cases h
      exact .inl (List.map_append ..)
    · rename_i first hf
      split at h
      · rename_i hd
        cases h
        have same := List.find?_some hf
        exact .inr ⟨rfl, first.typing, List.mem_map_of_mem (List.mem_of_find?_eq_some hf),
          eq_of_beq same, eq_of_beq hd⟩
      · cases h
  · intro other hne
    cases other with
    | elements => exact congrArg _ leaves
    | attributes => exact absurd rfl hne

def saidOf (slot : Slot) (said : List (Slot × Typing)) : List Typing :=
  (said.filter fun x => x.1 == slot).map Prod.snd

def Collects (said : List (Slot × Typing)) (members : Members) : Prop :=
  ∀ slot, Joined [] (saidOf slot said) (members.typings slot)

theorem collects_empty : Collects [] empty := by
  intro slot
  cases slot with
  | elements => exact .nil
  | attributes => exact .nil

theorem Collects.takes {said : List (Slot × Typing)} (h : Collects said members) {slot : Slot}
    {x : Typing} (ht : members.Takes slot x result) : Collects (said ++ [(slot, x)]) result := by
  intro other
  unfold saidOf
  rw [List.filter_append, List.map_append, List.filter_singleton]
  by_cases e : slot = other
  · subst e
    rw [beq_self_eq_true]
    rcases ht.1 with grown | ⟨same, y, hy, agrees⟩
    · rw [grown]
      exact .new x (h slot)
    · rw [same]
      exact .old x (h slot) hy agrees
  · rw [show (slot == other) = false from beq_false_of_ne e, ht.2 other (Ne.symm e)]
    exact (List.append_nil (saidOf other said)).symm ▸ h other

theorem mem_saidOf {said : List (Slot × Typing)} {slot : Slot} {x : Typing} :
    x ∈ saidOf slot said ↔ (slot, x) ∈ said := by
  unfold saidOf
  rw [List.mem_map]
  constructor
  · intro given
    rcases given with ⟨⟨_, _⟩, h, rfl⟩
    obtain ⟨hm, hs⟩ := List.mem_filter.mp h
    exact eq_of_beq hs ▸ hm
  · intro h
    exact ⟨(slot, x), List.mem_filter.mpr ⟨h, beq_self_eq_true slot⟩, rfl⟩

end Members

namespace Compile

/-! ## Declarations -/

theorem qualify_of_meaning {reference : String} {site : Site} {name : QName}
    (hm : Reference.meaning reference site = .ok name) (S : Setting) (owner : Owner) :
    qualify S reference site owner = pure (some name) := by
  unfold qualify Reference.qualify
  rw [hm]
  rfl

def attributeSites (ds : Declarations) (owner : String) (site : Site) : List Site :=
  match Content.ofSite (some owner) site with
  | .ok (.simple derivation _) => sitesOf derivation
  | .ok (.complex container _ _) => sitesOf container
  | .error _ => []
where
  siteOf : AttributeStep → Option Site
    | .declared site => some site
    | _ => none
  sitesOf (container : Site) : List Site :=
    (AttributeStep.ofContainer ds (some owner) container).filterMap siteOf

def attributeAt (setting : Setting) (owner : Owner) (site : Site) :
    Compile (Slot × Referenced) := do
  match site.node.filled? "ref", site.node.filled? "name" with
  | some reference, _ =>
    match ← encodedItem setting reference site owner with
    | some item => return (.elements, ⟨encodedItemName, item.declared, item, false⟩)
    | none => return (.attributes, ← attributeReference setting reference site owner)
  | none, some name =>
    let ref ← attributeType setting site owner
    return (.attributes, ⟨name, ref.declared, ref, false⟩)
  | none, none => fail (site.modelFault owner .namelessAttribute)

variable {S : Setting} {nested : Nested} {owner : String} {members result : Members}
  {p q : Progress} {site : Site}

/-- An attribute is added as the member that it is. -/
theorem takes_addAttributeAt {owner : Owner}
    (h : Runs (addAttributeAt S owner members site) p result q) :
    ∃ slot a, Runs (attributeAt S owner site) p (slot, a) q ∧
      members.Takes slot a.typing result := by
  unfold addAttributeAt at h
  obtain ⟨use, r, hu, h'⟩ := runs_bind.mp h
  obtain ⟨-, rfl⟩ := runs_atSite.mp hu
  clear h
  unfold attributeAt
  cases written : site.node.filled? "ref" with
  | some reference =>
    rw [written] at h'
    obtain ⟨item, r', hi, h⟩ := runs_bind.mp h'
    cases item with
    | some item =>
      obtain ⟨ha, rfl⟩ := runs_atSite.mp h
      exact ⟨_, _, runs_bind.mpr ⟨_, _, hi, runs_pure.mpr ⟨rfl, rfl⟩⟩, Members.takes_addElement ha⟩
    | none =>
      obtain ⟨a, r'', hr, h⟩ := runs_bind.mp h
      obtain ⟨ha, rfl⟩ := runs_atSite.mp h
      refine ⟨_, _, runs_bind.mpr ⟨_, _, hi, ?_⟩, Members.takes_addAttribute ha⟩
      exact runs_bind.mpr ⟨a, _, hr, runs_pure.mpr ⟨rfl, rfl⟩⟩
  | none =>
    rw [written] at h'
    cases named : site.node.filled? "name" with
    | some name =>
      rw [named] at h'
      obtain ⟨ref, r', hr, h⟩ := runs_bind.mp h'
      obtain ⟨ha, rfl⟩ := runs_atSite.mp h
      exact ⟨_, _, runs_bind.mpr ⟨_, _, hr, runs_pure.mpr ⟨rfl, rfl⟩⟩, Members.takes_addAttribute ha⟩
    | none =>
      rw [named] at h'
      exact absurd h' runs_fail

/-- What every step of a body keeps whose elements are `within` something. -/
structure Lasting (S : Setting) (nested : Nested) (owner : Owner) (within : Site → Prop)
    (I : Progress → Prop) : Prop where
  note {p : Progress} (f : Fault) (key : String) (h : I p) : I (p.note f key)
  ofElement {p q : Progress} {site : Site} {e : Referenced} (hs : within site) (h : I p)
    (hr : Runs (elementParticle S nested site owner) p e q) : I q
  ofAttribute {p q : Progress} {site : Site} {x : Slot × Referenced} (h : I p)
    (hr : Runs (attributeAt S owner site) p x q) : I q
  ofBase {p q : Progress} {site : Site} {ref : TypeRef} (h : I p)
    (hr : Runs (baseOf S owner site) p ref q) : I q

/-- An element was met where `I` held, and said something of a member. -/
def ElementSays (I : Progress → Prop) (S : Setting) (nested : Nested) (owner : Owner) (site : Site)
    (x : Slot × Typing) : Prop :=
  ∃ p e q, I p ∧ Runs (elementParticle S nested site owner) p e q ∧ x = (.elements, e.typing)

/-- An attribute was met where `I` held, and said something of a member. -/
def AttributeSays (I : Progress → Prop) (S : Setting) (owner : Owner) (site : Site)
    (x : Slot × Typing) : Prop :=
  ∃ p slot a q, I p ∧ Runs (attributeAt S owner site) p (slot, a) q ∧ x = (slot, a.typing)

theorem ElementSays.imp {I J : Progress → Prop} (h : ∀ p, I p → J p) {owner : Owner}
    {x : Slot × Typing} (hs : ElementSays I S nested owner site x) :
    ElementSays J S nested owner site x := by
  obtain ⟨p, e, q, hp, hr⟩ := hs
  exact ⟨p, e, q, h p hp, hr⟩

theorem AttributeSays.imp {I J : Progress → Prop} (h : ∀ p, I p → J p) {owner : Owner}
    {x : Slot × Typing} (hs : AttributeSays I S owner site x) : AttributeSays J S owner site x := by
  obtain ⟨p, slot, a, q, hp, hr⟩ := hs
  exact ⟨p, slot, a, q, h p hp, hr⟩

section

variable {I : Progress → Prop} {within : Site → Prop} {owner : Owner} {said : List (Slot × Typing)}

/-- What the sites of some steps said, with what the next one says. -/
theorem forall₂_step {ι : Type} {siteOf : ι → Option Site} {Says : Site → Slot × Typing → Prop}
    {done : List ι} {step : ι} {more : List (Slot × Typing)}
    (h : List.Forall₂ Says (done.filterMap siteOf) said)
    (hm : List.Forall₂ Says (siteOf step).toList more) :
    List.Forall₂ Says ((done ++ [step]).filterMap siteOf) (said ++ more) := by
  have last : [step].filterMap siteOf = (siteOf step).toList := by
    cases hs : siteOf step <;> simp [hs]
  rw [List.filterMap_append, last]
  exact List.rel_append h hm

/-- Each of the sites said something. -/
theorem exists_said {Says : Site → Slot × Typing → Prop} {sites : List Site}
    (h : List.Forall₂ Says sites said) {site : Site} (hs : site ∈ sites) :
    ∃ x ∈ said, Says site x := by
  induction h with
  | nil => exact absurd hs List.not_mem_nil
  | cons first _ ih =>
    rcases List.mem_cons.mp hs with rfl | hs
    · exact ⟨_, List.mem_cons_self, first⟩
    · obtain ⟨x, hx, hr⟩ := ih hs
      exact ⟨x, List.mem_cons_of_mem _ hx, hr⟩

theorem told_addStep (L : Lasting S nested owner within I) {step : Step}
    (hw : ∀ site ∈ Outline.siteOf step, within site) (hp : I p) (hc : members.Collects said)
    (hr : Runs (addStep S nested owner members step) p result q) :
    I q ∧ ∃ more, List.Forall₂ (ElementSays I S nested owner) (Outline.siteOf step).toList more ∧
      result.Collects (said ++ more) := by
  cases step with
  | element range site branches =>
    unfold addStep at hr
    obtain ⟨e, r, he, hr⟩ := runs_bind.mp hr
    obtain ⟨ha, rfl⟩ := runs_atSite.mp hr
    exact ⟨L.ofElement (hw site rfl) hp he, [(.elements, e.typing)], .cons ⟨p, e, q, hp, he, rfl⟩ .nil,
      hc.takes (Members.takes_addElement ha)⟩
  | unresolved fault key =>
    unfold addStep at hr
    simp only [runs_bind, runs_pure] at hr
    obtain ⟨_, r, hr, rfl, rfl⟩ := hr
    obtain ⟨-, rfl⟩ := runs_report.mp hr
    exact ⟨L.note fault key hp, [], .nil, (List.append_nil said).symm ▸ hc⟩
  | broken refusal => exact absurd hr runs_throw

theorem told_addParticles (L : Lasting S nested owner within I) {container : Site}
    {result : Members × List ChoiceFrame}
    (hw : ∀ site ∈ (Particle.leavesOf (Particle.ofContainer S.declarations owner container)).map
      Prod.fst, within site) (hp : I p)
    (hr : Runs (addParticles S nested owner container .empty) p result q) :
    I q ∧ ∃ said, List.Forall₂ (ElementSays I S nested owner)
        ((Particle.leavesOf (Particle.ofContainer S.declarations owner container)).map Prod.fst) said ∧
      result.1.Collects said := by
  rw [← Outline.sites_ofParticles S.options.choice] at hw ⊢
  unfold addParticles at hr
  simp only [runs_bind, runs_pure] at hr
  obtain ⟨members, _, hs, rfl, rfl⟩ := hr
  unfold Outline.sites at hw ⊢
  refine runs_foldlM_done (I := fun done members p => I p ∧
    ∃ said, List.Forall₂ (ElementSays I S nested owner) (done.filterMap Outline.siteOf) said ∧
      members.Collects said) ?_ ⟨hp, [], .nil, Members.collects_empty⟩ hs
  intro done step rest a b p q hsteps ha hr
  obtain ⟨hp, said, hsaid, hc⟩ := ha
  have here : ∀ site ∈ Outline.siteOf step, within site := fun site h =>
    hw site (List.mem_filterMap.mpr ⟨step, hsteps ▸ List.mem_append_right _ List.mem_cons_self, h⟩)
  obtain ⟨hq, more, hmore, hc⟩ := told_addStep L here hp hc hr
  exact ⟨hq, said ++ more, forall₂_step hsaid hmore, hc⟩

theorem told_addAttributeStep (L : Lasting S nested owner within I) {step : AttributeStep} (hp : I p)
    (hc : members.Collects said) (hr : Runs (addAttributeStep S owner members step) p result q) :
    I q ∧ ∃ more, List.Forall₂ (AttributeSays I S owner) (attributeSites.siteOf step).toList more ∧
      result.Collects (said ++ more) := by
  cases step with
  | declared site =>
    obtain ⟨slot, a, hr, ht⟩ := takes_addAttributeAt hr
    exact ⟨L.ofAttribute hp hr, [(slot, a.typing)], .cons ⟨p, slot, a, q, hp, hr, rfl⟩ .nil,
      hc.takes ht⟩
  | unresolved fault key =>
    unfold addAttributeStep at hr
    simp only [runs_bind, runs_pure] at hr
    obtain ⟨_, r, hr, rfl, rfl⟩ := hr
    obtain ⟨-, rfl⟩ := runs_report.mp hr
    exact ⟨L.note fault key hp, [], .nil, (List.append_nil said).symm ▸ hc⟩
  | broken fault => exact absurd hr runs_fail

theorem told_addAttributes (L : Lasting S nested owner within I) {container : Site} (hp : I p)
    (hc : members.Collects said) (hr : Runs (addAttributes S owner container members) p result q) :
    I q ∧ ∃ more, List.Forall₂ (AttributeSays I S owner)
        ((AttributeStep.ofContainer S.declarations owner container).filterMap attributeSites.siteOf)
        more ∧
      result.Collects (said ++ more) := by
  unfold addAttributes at hr
  refine runs_foldlM_done (I := fun done members p => I p ∧
    ∃ more, List.Forall₂ (AttributeSays I S owner) (done.filterMap attributeSites.siteOf) more ∧
      members.Collects (said ++ more)) ?_ ⟨hp, [], .nil, (List.append_nil said).symm ▸ hc⟩ hr
  intro done step rest a b p q _ ha hr
  obtain ⟨hp, more, hmore, hc⟩ := ha
  obtain ⟨hq, last, hlast, hc⟩ := told_addAttributeStep L hp hc hr
  exact ⟨hq, more ++ last, forall₂_step hmore hlast, (List.append_assoc said more last) ▸ hc⟩

end

theorem Lasting.ofExtended {I : Progress → Prop} {within : Site → Prop} {owner : Owner}
    (L : Lasting S nested owner within I) {b : Option String} (hp : I p)
    (hr : Runs (extendedType S owner site) p b q) : I q := by
  unfold extendedType at hr
  obtain ⟨ref, r, hb, hr⟩ := runs_bind.mp hr
  have hq := L.ofBase hp hb
  split at hr
  · obtain ⟨-, rfl⟩ := runs_pure.mp hr
    exact hq
  · split at hr
    · obtain ⟨-, rfl⟩ := runs_pure.mp hr
      exact hq
    · exact absurd hr runs_fail

/-- The members of a body come of the elements of its content model and of its attributes. -/
theorem told_bodyOf {I : Progress → Prop}
    (L : Lasting S nested (some owner) (· ∈ contentSites S.declarations owner site) I) {body : Body}
    (hp : I p) (hr : Runs (bodyOf S nested (some owner) site) p body q) :
    I q ∧ ∃ es as, List.Forall₂ (ElementSays I S nested (some owner))
        (contentSites S.declarations owner site) es ∧
      List.Forall₂ (AttributeSays I S (some owner)) (attributeSites S.declarations owner site) as ∧
      body.members.Collects (es ++ as) := by
  rw [bodyOf_eq, runs_bind] at hr
  obtain ⟨content, r, found, hr⟩ := hr
  obtain ⟨hc, rfl⟩ := runs_ofExcept.mp found
  unfold contentSites contentModel at L ⊢
  unfold attributeSites
  rw [hc] at L ⊢
  cases content with
  | simple derivation mixed =>
    unfold Content.body simpleBody at hr
    simp only [runs_bind, runs_pure] at hr
    obtain ⟨members, _, ha, _, _, hbase, rfl, rfl⟩ := hr
    obtain ⟨hq, as, has, collects⟩ := told_addAttributes L hp Members.collects_empty ha
    exact ⟨L.ofBase hq hbase, [], as, .nil, has, collects⟩
  | complex container extending mixed =>
    unfold Content.body complexBody bodyOnBase at hr
    simp only [runs_bind, runs_pure] at hr
    obtain ⟨base, r', hbase, ⟨members, frames⟩, _, hs, members', _, ha, rfl, rfl⟩ := hr
    have hb : I r' := by
      split at hbase
      · exact L.ofExtended hp hbase
      · obtain ⟨-, rfl⟩ := runs_pure.mp hbase
        exact hp
    obtain ⟨hp', es, hes, collects⟩ := told_addParticles L (fun _ h => h) hb hs
    obtain ⟨hq, as, has, collects⟩ := told_addAttributes L hp' collects ha
    exact ⟨hq, es, as, hes, has, collects⟩

end Compile

/-! ## Members of types -/

/-- Whether a name of the list is that of a member; the text slot is no element. -/
def Slot.Admits : Slot → String → Prop
  | .elements, name => name ≠ textSlotName
  | .attributes, _ => True

namespace StructuralType

def typings (t : StructuralType) : Slot → List Typing
  | .elements => (untexted t.elements).map Element.typing
  | .attributes => t.attributes.map Attribute.typing

theorem nodup_typings {t : StructuralType} (h : t.Distinct) (slot : Slot) : ((t.typings slot).map Typing.name).Nodup := by
  cases slot with
  | elements =>
    unfold typings
    rw [List.map_map]
    exact nodup_untexted h.elements
  | attributes =>
    unfold typings
    rw [List.map_map]
    exact h.attributes

/-- The members of a type come of some declarations: each has a member that agrees with it, and
each member says what one of them does. -/
structure OfSaid (t : StructuralType) (said : List (Slot × Typing)) : Prop where
  kept : ∀ slot x, (slot, x) ∈ said → slot.Admits x.name → ∃ y ∈ t.typings slot, y.Agrees x
  source : ∀ slot, ∀ y ∈ t.typings slot, (slot, y) ∈ said

/-- A type says of its members what its body does. -/
theorem mem_typings_toType {options : Options} {body : Compile.Body} {canonical : Owner}
    {name : QName} {documentation : Option String} {anonymous : Bool} {slot : Slot} {x : Typing} :
    x ∈ (body.toType options canonical name documentation anonymous).typings slot ↔
      x ∈ body.members.typings slot ∧ slot.Admits x.name := by
  cases slot with
  | attributes => exact (and_iff_left trivial).symm
  | elements =>
    unfold typings Members.typings Compile.Body.toType Members.elements
    simp only [List.mem_map, mem_untexted, List.mem_append]
    constructor
    · intro given
      rcases given with ⟨e, ⟨he | he, notText⟩, rfl⟩
      · obtain ⟨leaf, hl, rfl⟩ := he
        obtain ⟨hl, named⟩ := List.mem_filter.mp hl
        exact ⟨⟨leaf, hl, rfl⟩, bne_iff_ne.mp named⟩
      · obtain ⟨ref, -, rfl⟩ := Option.map_eq_some_iff.mp (Option.mem_toList.mp he)
        cases notText
    · intro given
      rcases given with ⟨⟨leaf, hl, rfl⟩, named⟩
      refine ⟨leaf.toElement options.nillableAsOptional, ⟨.inl ⟨leaf, ?_, rfl⟩, ?_⟩, rfl⟩
      · exact List.mem_filter.mpr ⟨hl, bne_iff_ne.mpr named⟩
      · exact beq_false_of_ne named

theorem ofSaid_toType {body : Compile.Body} {said : List (Slot × Typing)}
    (h : body.members.Collects said) (options : Options) (canonical : Owner) (name : QName)
    (documentation : Option String) (anonymous : Bool) :
    (body.toType options canonical name documentation anonymous).OfSaid said where
  kept slot x hx admits := by
    obtain ⟨y, hy, agrees⟩ := (h slot).complete (Members.mem_saidOf.mpr hx)
    exact ⟨y, mem_typings_toType.mpr ⟨hy, agrees.1.symm ▸ admits⟩, agrees⟩
  source slot y hy := by
    rcases (h slot).source (mem_typings_toType.mp hy).1 with hy | hy
    · exact absurd hy List.not_mem_nil
    · exact Members.mem_saidOf.mp hy

section

variable {α : Type} {nameOf : α → String} {typing : α → Typing}

/-- Values are replaced by such of the same typing. -/
theorem map_put_of_lookup (typing : α → Typing) {entries : List (String × α)} {k : String} {u : α} (v : α)
    (h : entries.lookup k = some u) (same : typing v = typing u) :
    (put k v entries).map (fun x => typing x.2) = entries.map fun x => typing x.2 := by
  induction entries with
  | nil => cases h
  | cons x rest ih =>
    rw [List.lookup_cons] at h
    unfold put
    by_cases hk : k = x.1
    · rw [beq_iff_eq.mpr hk] at h
      obtain rfl := Option.some.inj h
      rw [if_pos (beq_iff_eq.mpr hk.symm), List.map_cons, List.map_cons, same]
    · rw [beq_false_of_ne hk] at h
      rw [if_neg fun e => hk (eq_of_beq e).symm, List.map_cons, List.map_cons, ih h]

end

theorem declared_of_check {derived base : StructuralType} {member inherited declared : String}
    {u : Unit} (h : checkRedeclared derived base member inherited declared = .ok u) :
    inherited = declared := by
  unfold checkRedeclared at h
  split at h
  · rename_i same
    exact eq_of_beq same
  · obtain ⟨_, -, h⟩ := ok_bind.mp h
    cases h

def Named {α : Type} (nameOf : α → String) (entries : List (String × α)) : Prop :=
  ∀ x ∈ entries, x.1 = nameOf x.2

theorem named_tabled {α : Type} (nameOf : α → String) (members : List α) :
    Named nameOf (tabled nameOf members) := by
  intro x hx
  obtain ⟨e, -, rfl⟩ := List.mem_map.mp hx
  rfl

theorem Named.put {α : Type} {nameOf : α → String} {entries : List (String × α)}
    (h : Named nameOf entries) {k : String} {v : α} (hk : k = nameOf v) :
    Named nameOf (WsdlCatalog.put k v entries) := by
  intro x hx
  rcases mem_put hx with rfl | hx
  · exact hk
  · exact h x hx

theorem map_tabled {α β : Type} {nameOf : α → String} (f : α → β) (members : List α) :
    (tabled nameOf members).map (fun x => f x.2) = members.map f := by
  unfold tabled
  rw [List.map_map]
  rfl

variable {derived base t t' : StructuralType}

theorem joined_attributes {inherited own : List Attribute} {view : AttributeView}
    (h : own.foldlM (AttributeView.add derived base) ⟨tabled Attribute.name inherited, []⟩ = .ok view) :
    Joined (inherited.map Attribute.typing) (own.map Attribute.typing)
      (view.all.map fun x => x.2.typing) := by
  refine (ok_foldlM_done (I := fun done view => Named Attribute.name view.all ∧
    Joined (inherited.map Attribute.typing) (done.map Attribute.typing)
      (view.all.map fun x => x.2.typing)) ?_ ⟨named_tabled _ _, ?_⟩ h).2
  · intro done a rest before after _ given ha
    obtain ⟨named, joined⟩ := given
    rw [List.map_append]
    unfold AttributeView.add at ha
    split at ha
    · rename_i absent
      cases ha
      refine ⟨named.put rfl, ?_⟩
      rw [put_of_lookup_none absent, List.map_append]
      exact .new _ joined
    · rename_i found held
      obtain ⟨_, hc, ha⟩ := ok_bind.mp ha
      cases ha
      have name : a.name = found.name := named _ (mem_of_lookup held)
      refine ⟨named.put name, ?_⟩
      have kept := map_put_of_lookup Attribute.typing (reuse found a) held rfl
      refine kept.symm ▸ ?_
      exact .old _ joined (List.mem_map_of_mem (mem_of_lookup held)) ⟨name.symm, declared_of_check hc⟩
  · dsimp only
    rw [map_tabled]
    exact .nil

theorem joined_elements {inherited own : List Element} {view : ElementView}
    (h : own.foldlM (ElementView.add derived base) ⟨tabled Element.name inherited, []⟩ = .ok view) :
    view.inherited.map (fun x => x.2.typing) = inherited.map Element.typing ∧
      Joined (inherited.map Element.typing) ((untexted own).map Element.typing)
        (inherited.map Element.typing ++ (untexted view.own).map Element.typing) := by
  refine (ok_foldlM_done (I := fun done view => Named Element.name view.inherited ∧
    view.inherited.map (fun x => x.2.typing) = inherited.map Element.typing ∧
      Joined (inherited.map Element.typing) ((untexted done).map Element.typing)
        (inherited.map Element.typing ++ (untexted view.own).map Element.typing)) ?_
    ⟨named_tabled _ _, map_tabled _ _, ?_⟩ h).2
  · intro done e rest before after _ given ha
    obtain ⟨named, same, joined⟩ := given
    unfold ElementView.add at ha
    cases text : e.isText with
    | true =>
      rw [text, if_pos rfl] at ha
      cases ha
      refine ⟨named, same, ?_⟩
      dsimp only
      rw [untexted_append, untexted_append, text, if_pos rfl, List.append_nil, List.append_nil]
      exact joined
    | false =>
      rw [text, if_neg Bool.false_ne_true] at ha
      have one : untexted (done ++ [e]) = untexted done ++ [e] := by
        rw [untexted_append, text, if_neg Bool.false_ne_true]
      rw [one, List.map_append]
      split at ha
      · cases ha
        refine ⟨named, same, ?_⟩
        dsimp only
        rw [untexted_append, text, if_neg Bool.false_ne_true, List.map_append, ← List.append_assoc]
        exact .new _ joined
      · rename_i found held
        obtain ⟨_, hc, ha⟩ := ok_bind.mp ha
        cases ha
        have name : e.name = found.name := named _ (mem_of_lookup held)
        have there : found.typing ∈ inherited.map Element.typing :=
          same ▸ List.mem_map_of_mem (f := fun x : String × Element => x.2.typing) (mem_of_lookup held)
        refine ⟨named.put name, ?_, ?_⟩
        · exact (map_put_of_lookup Element.typing (fold found e) held rfl).trans same
        · exact .old _ joined (List.mem_append_left _ there) ⟨name.symm, declared_of_check hc⟩
  · show Joined _ [] (_ ++ [])
    rw [List.append_nil]
    exact .nil

theorem isText_iff {e : Element} : e.isText = (e.typing.name == textSlotName) := rfl

theorem typing_shiftChoice (shift : Int) (elements : List Element) :
    (untexted (elements.map (shiftChoice shift))).map Element.typing
      = (untexted elements).map Element.typing := by
  unfold untexted
  rw [List.filter_map, List.map_map]
  rfl

/-- What besides the text slot is among elements, more elements and the text slot. -/
theorem untexted_text {elements more : List Element} {text : Option Element}
    (h : ∀ e ∈ elements, e.isText = false) (ht : ∀ e, text = some e → e.isText = true) :
    untexted (elements ++ untexted more ++ text.toList) = elements ++ untexted more := by
  have all : untexted elements = elements :=
    List.filter_eq_self.mpr fun e he => by rw [h e he]; rfl
  have twice : untexted (untexted more) = untexted more :=
    List.filter_eq_self.mpr fun e he => (List.mem_filter.mp he).2
  have nothing : untexted text.toList = [] := by
    refine List.filter_eq_nil_iff.mpr fun e he => ?_
    rw [ht e (Option.mem_toList.mp he)]
    exact Bool.false_ne_true
  unfold untexted at all twice nothing ⊢
  rw [List.filter_append, List.filter_append, all, twice, nothing, List.append_nil]

/-- The members of a type and of its base are joined to the members of the base. -/
theorem joined_compose (hb : base.Distinct) (ht : t.OwnMembers) (h : t.compose base = .ok t')
    (slot : Slot) : Joined (base.typings slot) (t.typings slot) (t'.typings slot) := by
  unfold compose at h
  obtain ⟨attributes, ha, h⟩ := ok_bind.mp h
  obtain ⟨elements, he, h⟩ := ok_bind.mp h
  cases h
  rw [putAll_tabled hb.attributes, ht.localAttributes] at ha
  have start := putAll_tabled (nodup_untexted hb.elements)
  unfold untexted at start
  rw [start, ht.localElements] at he
  cases slot with
  | attributes =>
    have joined := joined_attributes ha
    unfold typings
    rw [List.map_map]
    exact joined
  | elements =>
    obtain ⟨same, joined⟩ := joined_elements he
    have inherited : ∀ e ∈ elements.inherited.map (·.2), e.isText = false := by
      intro e hm
      obtain ⟨x, hx, rfl⟩ := List.mem_map.mp hm
      have there : x.2.typing ∈ (untexted base.elements).map Element.typing :=
        same ▸ List.mem_map_of_mem (f := fun x : String × Element => x.2.typing) hx
      obtain ⟨b, hb, typed⟩ := List.mem_map.mp there
      have notText := (mem_untexted.mp hb).2
      rw [isText_iff] at notText ⊢
      rw [← typed]
      exact notText
    have texts : ∀ e, (elements.own.find? (·.isText)).or base.textSlot? = some e → e.isText = true := by
      intro e hm
      rcases Option.or_eq_some_iff.mp hm with hm | ⟨-, hm⟩
      · exact List.find?_some (p := fun e : Element => e.isText) hm
      · exact List.find?_some (p := fun e : Element => e.isText) hm
    show Joined _ _ ((untexted (elements.inherited.map (·.2) ++ untexted elements.own
      ++ ((elements.own.find? (·.isText)).or base.textSlot?).toList)).map Element.typing)
    rw [untexted_text inherited texts, List.map_append, List.map_map]
    refine (congrArg (· ++ _) same).symm ▸ ?_
    rw [typing_shiftChoice] at joined
    exact joined

end StructuralType

/-! ## Types of catalogs -/

namespace Catalog

def IsBase (c : Catalog) (t base : StructuralType) : Prop :=
  base ∈ c.types ∧ ∃ b, t.base = some b ∧ base.name = some b

/-- The members of a type come of some declarations and of its base: each declaration has a member
that agrees with it, the members of the base stay what they are, and there are no others. -/
structure Merges (c : Catalog) (t : StructuralType) (said : List (Slot × Typing)) : Prop where
  kept : ∀ slot x, (slot, x) ∈ said → slot.Admits x.name → ∃ y ∈ t.typings slot, y.Agrees x
  inherited : ∀ base, c.IsBase t base → ∀ slot, base.typings slot ⊆ t.typings slot
  source : ∀ slot, ∀ y ∈ t.typings slot,
    (slot, y) ∈ said ∨ ∃ base, c.IsBase t base ∧ y ∈ base.typings slot

variable {c : Catalog} {own t : StructuralType} {said : List (Slot × Typing)}

theorem Completes.merges (h : c.Completes own t) (hown : own.OwnMembers) (hsaid : own.OfSaid said)
    (distinct : ∀ t ∈ c.types, t.Distinct) (names : (c.types.map (·.name)).Nodup) :
    c.Merges t said := by
  have base := h.same.2.2.1
  cases h with
  | own hb =>
    refine ⟨hsaid.kept, ?_, fun slot y hy => .inl (hsaid.source slot y hy)⟩
    intro base extended
    obtain ⟨-, b, hb', -⟩ := extended
    rw [hb] at hb'
    cases hb'
  | extending hb hm hn hc =>
    rename_i held b
    have joined := StructuralType.joined_compose (distinct _ hm) hown hc
    have isBase : c.IsBase t held := ⟨hm, b, base.trans hb, hn⟩
    refine ⟨?_, ?_, ?_⟩
    · intro slot x hx admits
      obtain ⟨y, hy, agrees⟩ := hsaid.kept slot x hx admits
      obtain ⟨z, hz, agrees'⟩ := (joined slot).complete hy
      exact ⟨z, hz, agrees'.trans agrees⟩
    · intro other extended slot
      obtain ⟨ho, b', hb', hn'⟩ := extended
      have same : other.name = held.name := by
        rw [hn', hn, ← hb', base, hb]
      rw [List.inj_on_of_nodup_map names ho hm same]
      exact (joined slot).subset
    · intro slot y hy
      rcases (joined slot).source hy with hy | hy
      · exact .inr ⟨held, isBase, hy⟩
      · exact .inl (hsaid.source slot y hy)

end Catalog

namespace Compile

variable {S : Setting} {set : SchemaSet} {q : Progress} {c : Catalog} {compiled : Progress}
  {types : List (Option String × StructuralType)} {aliases : List ScalarAlias}
  {sorted : List StructuralType} {operations : List Operation} {serviceName : Option String}
  {displayName : Loose String}

/-- Every type of a catalog has the members that its declarations say, and those of its base. -/
theorem Staged.merges
    (h : Staged S set .start q c compiled types aliases sorted operations serviceName displayName)
    {owner : String} {name : QName} {site : Site} {own t : StructuralType}
    (comes : ComesOf S c owner name site own t) {said : List (Slot × Typing)}
    (hsaid : own.OfSaid said) : c.Merges t said :=
  comes.completes.merges comes.made.ownMembers hsaid h.distinct h.nodup_names

end Compile

end WsdlCatalog
