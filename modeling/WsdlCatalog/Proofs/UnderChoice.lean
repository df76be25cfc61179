/-
  WsdlCatalog.Proofs.UnderChoice — the names of elements inside choices.

  Where branches are told apart, an outline knows the branches around each of its elements, and
  the members of a type keep them beside the name of the element. Every choice around an
  element is one of the choices of the type, so that the element is named in one of its
  branches. A type that extends another one has the choices of both.

  Proved: the choices of a type have a name iff an element of that name is inside a choice of
  what the type accepts, its own content model or that of a type it extends
  (`Compile.Models.chosen_iff`).
-/

import WsdlCatalog.Proofs.Maximum
import WsdlCatalog.Proofs.Placement
import WsdlCatalog.Proofs.RelaxedTypes

namespace WsdlCatalog

/-! ## Content models -/

namespace Particle

variable (nameOf : Site → String) (n : String)

mutual

def UnderChoice : Particle → Prop
  | group _ _ children => AnyUnderChoice children
  | choice _ branches => AnyMentions nameOf n branches
  | _ => False

def AnyUnderChoice : List Particle → Prop
  | [] => False
  | p :: rest => p.UnderChoice ∨ AnyUnderChoice rest

end

variable {nameOf n}

theorem anyUnderChoice_append {ps qs : List Particle} :
    AnyUnderChoice nameOf n (ps ++ qs) ↔ AnyUnderChoice nameOf n ps ∨ AnyUnderChoice nameOf n qs := by
  induction ps with
  | nil => exact (or_iff_right id).symm
  | cons p rest ih =>
    show p.UnderChoice nameOf n ∨ AnyUnderChoice nameOf n (rest ++ qs) ↔ _
    rw [ih, ← or_assoc]
    rfl

end Particle

/-! ## Outlines -/

def Step.Chooses (nameOf : Site → String) (n : String) : Step → Prop
  | element _ site branches => branches ≠ [] ∧ nameOf site = n
  | _ => False

/-- The name of the element that the step is, and the branches around it. -/
def Step.met? (nameOf : Site → String) : Step → Option (String × List Branch)
  | element _ site branches => some (nameOf site, branches)
  | _ => none

namespace Outline

def Chooses (nameOf : Site → String) (n : String) (o : Outline) : Prop :=
  ∃ step ∈ o.steps, step.Chooses nameOf n

variable {nameOf : Site → String} {n : String}

theorem chooses_push (o : Outline) (step : Step) :
    (o.push step).Chooses nameOf n ↔ o.Chooses nameOf n ∨ step.Chooses nameOf n := by
  unfold Chooses push
  simp only [List.mem_append, List.mem_singleton, or_and_right, exists_or, exists_eq_left]

mutual

/-- Inside a branch all elements are. -/
theorem chooses_inside (outer : Range) {branches : List Branch} (hb : branches ≠ []) (o : Outline) :
    ∀ p : Particle, (add .union outer branches o p).Chooses nameOf n ↔
      o.Chooses nameOf n ∨ p.Mentions nameOf n
  | .element range site => by
    unfold add
    exact (chooses_push _ _).trans (or_congr_right (and_iff_right hb))
  | .group _ range children => by
    unfold add
    exact chooses_allInside _ hb o children
  | .choice range parts => by
    unfold add
    exact chooses_branches _ branches _ 0 ⟨o.steps, _⟩ parts
  | .wildcard => by
    unfold add
    exact (or_iff_left id).symm
  | .unresolved fault key => by
    unfold add
    exact chooses_push _ _
  | .broken fault => by
    unfold add
    exact chooses_push _ _

theorem chooses_allInside (outer : Range) {branches : List Branch} (hb : branches ≠ []) (o : Outline) :
    ∀ ps : List Particle, (addAll .union outer branches o ps).Chooses nameOf n ↔
      o.Chooses nameOf n ∨ Particle.AnyMentions nameOf n ps
  | [] => by
    unfold addAll
    exact (or_iff_left id).symm
  | p :: rest => by
    unfold addAll
    rw [chooses_allInside outer hb _ rest, chooses_inside outer hb o p, or_assoc]
    rfl

theorem chooses_branches (outer : Range) (branches : List Branch) (choice index : Nat) (o : Outline) :
    ∀ ps : List Particle, (addBranches .union outer branches choice index o ps).Chooses nameOf n ↔
      o.Chooses nameOf n ∨ Particle.AnyMentions nameOf n ps
  | [] => by
    unfold addBranches
    exact (or_iff_left id).symm
  | p :: rest => by
    have inside : branches ++ [⟨choice, index⟩] ≠ [] :=
      List.append_ne_nil_of_right_ne_nil _ (List.cons_ne_nil _ _)
    unfold addBranches
    rw [chooses_branches outer branches choice (index + 1) _ rest, chooses_inside outer inside o p,
      or_assoc]
    rfl

end

mutual

theorem chooses_add (outer : Range) (o : Outline) :
    ∀ p : Particle, (add .union outer [] o p).Chooses nameOf n ↔
      o.Chooses nameOf n ∨ p.UnderChoice nameOf n
  | .element range site => by
    unfold add
    exact (chooses_push _ _).trans (or_congr_right ⟨fun h => h.1 rfl, False.elim⟩)
  | .group _ range children => by
    unfold add
    exact chooses_addAll _ o children
  | .choice range parts => by
    unfold add
    exact chooses_branches _ [] _ 0 ⟨o.steps, _⟩ parts
  | .wildcard => by
    unfold add
    exact (or_iff_left id).symm
  | .unresolved fault key => by
    unfold add
    exact chooses_push _ _
  | .broken fault => by
    unfold add
    exact chooses_push _ _

theorem chooses_addAll (outer : Range) (o : Outline) :
    ∀ ps : List Particle, (addAll .union outer [] o ps).Chooses nameOf n ↔
      o.Chooses nameOf n ∨ Particle.AnyUnderChoice nameOf n ps
  | [] => by
    unfold addAll
    exact (or_iff_left id).symm
  | p :: rest => by
    unfold addAll
    rw [chooses_addAll outer _ rest, chooses_add outer o p, or_assoc]
    rfl

end

/-- The elements inside branches are those inside choices. -/
theorem chooses_ofParticles (ps : List Particle) :
    (ofParticles .union ps).Chooses nameOf n ↔ Particle.AnyUnderChoice nameOf n ps := by
  have none : ¬ Outline.empty.Chooses nameOf n := fun ⟨_, h, _⟩ => absurd h List.not_mem_nil
  exact (chooses_addAll _ _ ps).trans (or_iff_right none)

end Outline

/-! ## Members -/

theorem mem_foldl_once {names more : List String} {n : String} :
    n ∈ more.foldl (fun names name => if names.contains name then names else names ++ [name]) names ↔
      n ∈ names ∨ n ∈ more := by
  induction more generalizing names with
  | nil => exact (or_iff_left List.not_mem_nil).symm
  | cons name rest ih =>
    have next : n ∈ (if names.contains name then names else names ++ [name]) ↔
        n ∈ names ∨ n = name := by
      split
      · rename_i known
        exact (or_iff_left_of_imp fun same => same ▸ List.contains_iff_mem.mp known).symm
      · rw [List.mem_append, List.mem_singleton]
    rw [List.foldl_cons, ih, next, List.mem_cons, or_assoc]

namespace Members

variable {members : Members} {frames : List ChoiceFrame} {n : String}

theorem mem_inBranch {b : Branch} :
    n ∈ members.inBranch b ↔ ∃ branches, (n, branches) ∈ members.met ∧ b ∈ branches := by
  unfold inBranch
  rw [mem_foldl_once, or_iff_right List.not_mem_nil, List.mem_filterMap]
  constructor
  · rintro ⟨⟨name, branches⟩, hm, h⟩
    dsimp only at h
    split at h
    · rename_i inside
      cases h
      exact ⟨branches, hm, List.contains_iff_mem.mp inside⟩
    · cases h
  · rintro ⟨branches, hm, hb⟩
    exact ⟨(n, branches), hm, if_pos (List.contains_iff_mem.mpr hb)⟩

def group (members : Members) (index : Nat) (frame : ChoiceFrame) : ChoiceGroup :=
  ⟨index, frame.range.lower, frame.range.upper.map Int.ofNat,
    (List.range frame.branchCount).map fun i => members.inBranch ⟨index, i⟩⟩

theorem getElem?_choicesFrom (frames : List ChoiceFrame) : ∀ index i,
    (members.choicesFrom index frames)[i]? = frames[i]?.map (members.group (index + i)) := by
  induction frames with
  | nil => exact fun _ _ => rfl
  | cons frame rest ih =>
    intro index i
    unfold choicesFrom
    cases i with
    | zero => rfl
    | succ i =>
      rw [List.getElem?_cons_succ, List.getElem?_cons_succ, ih]
      congr 2
      omega

/-- Choices have the names in their branches. -/
theorem named_choices : (∃ g ∈ members.choices frames, ∃ names ∈ g.branches, n ∈ names) ↔
    ∃ b : Branch, b.Of frames ∧ n ∈ members.inBranch b := by
  have at_place (i : Nat) : (members.choices frames)[i]? = frames[i]?.map (members.group i) := by
    have found : (members.choices frames)[i]? = frames[i]?.map (members.group (0 + i)) :=
      getElem?_choicesFrom frames 0 i
    rwa [Nat.zero_add] at found
  constructor
  · rintro ⟨g, hg, names, hn, h⟩
    obtain ⟨i, hi⟩ := List.mem_iff_getElem?.mp hg
    obtain ⟨frame, hf, rfl⟩ := Option.map_eq_some_iff.mp ((at_place i).symm.trans hi)
    obtain ⟨j, hj, rfl⟩ := List.mem_map.mp hn
    exact ⟨⟨i, j⟩, ⟨frame, hf, List.mem_range.mp hj⟩, h⟩
  · rintro ⟨⟨i, j⟩, ⟨frame, hf, hj⟩, h⟩
    refine ⟨members.group i frame, List.mem_of_getElem? ((at_place i).trans (congrArg _ hf)), ?_⟩
    exact ⟨_, List.mem_map_of_mem (List.mem_range.mpr hj), h⟩

/-- Members met the elements of an outline, and items of encoded arrays, which are in no branch. -/
def Meets (nameOf : Site → String) (members : Members) (o : Outline) : Prop :=
  ∃ items, members.met = o.steps.filterMap (Step.met? nameOf) ++ items ∧ ∀ x ∈ items, x.2 = []

variable {nameOf : Site → String} {o : Outline}

theorem Meets.mem (h : members.Meets nameOf o) {branches : List Branch} (inside : branches ≠ []) :
    (n, branches) ∈ members.met ↔
      ∃ range site, .element range site branches ∈ o.steps ∧ nameOf site = n := by
  obtain ⟨items, met, outside⟩ := h
  rw [met, List.mem_append, or_iff_left fun hm => inside (outside _ hm), List.mem_filterMap]
  constructor
  · rintro ⟨step, hs, h⟩
    cases step with
    | element range site branches =>
      cases h
      exact ⟨range, site, hs, rfl⟩
    | unresolved => cases h
    | broken => cases h
  · rintro ⟨range, site, hs, rfl⟩
    exact ⟨_, hs, rfl⟩

theorem Meets.chosen_iff (h : members.Meets nameOf o) : members.Chosen n ↔ o.Chooses nameOf n := by
  constructor
  · rintro ⟨branches, hm, inside⟩
    obtain ⟨range, site, hs, hn⟩ := (h.mem inside).mp hm
    exact ⟨_, hs, inside, hn⟩
  · rintro ⟨step, hs, chooses⟩
    cases step with
    | element range site branches =>
      exact ⟨branches, (h.mem chooses.1).mpr ⟨range, site, hs, chooses.2⟩, chooses.1⟩
    | unresolved => exact chooses.elim
    | broken => exact chooses.elim

/-- So the choices have the names of the elements inside branches. -/
theorem Meets.named_iff (h : members.Meets nameOf o) (framed : o.Framed) :
    (∃ g ∈ members.choices o.frames, ∃ names ∈ g.branches, n ∈ names) ↔ members.Chosen n := by
  rw [named_choices]
  constructor
  · rintro ⟨b, -, hb⟩
    obtain ⟨branches, hm, inside⟩ := mem_inBranch.mp hb
    exact ⟨branches, hm, List.ne_nil_of_mem inside⟩
  · rintro ⟨branches, hm, inside⟩
    obtain ⟨range, site, hs, -⟩ := (h.mem inside).mp hm
    obtain ⟨b, hb⟩ := List.exists_mem_of_ne_nil _ inside
    exact ⟨b, framed range site branches hs b hb, mem_inBranch.mpr ⟨branches, hm, hb⟩⟩

/-- An element that is in no branch is passed over. -/
theorem Meets.item (h : members.Meets nameOf o) {result : Members} {leaf : Leaf}
    (ha : members.addElement leaf [] = .ok result) : result.Meets nameOf o := by
  obtain ⟨items, met, outside⟩ := h
  obtain ⟨leaves, -, rfl⟩ := addElement_ok ha
  refine ⟨items ++ [(leaf.name, [])], ?_, ?_⟩
  · show members.met ++ _ = _
    rw [met, List.append_assoc]
  · exact List.forall_mem_append.mpr ⟨outside, List.forall_mem_singleton.mpr rfl⟩

theorem Meets.attribute (h : members.Meets nameOf o) {result : Members} {a : Attribute}
    (ha : members.addAttribute a = .ok result) : result.Meets nameOf o := by
  rcases Compile.addAttribute_cases ha with rfl | ⟨-, rfl⟩
  · exact h
  · exact h

end Members

/-! ## Types -/

namespace Compile

variable {S : Setting} {nested : Nested} {owner : Owner} {members result : Members}
  {container site : Site} {p q : Progress} {o : Outline} {n : String}

theorem met_addStep {step : Step} (h : Runs (addStep S nested owner members step) p result q) :
    result.met = members.met ++ (step.met? S.declarations.nameOf).toList := by
  cases step with
  | element range site branches =>
    obtain ⟨e, r, he, h⟩ := runs_bind.mp h
    obtain ⟨leaves, -, rfl⟩ := Members.addElement_ok (runs_atSite.mp h).1
    show members.met ++ [(e.name, branches)] = _
    rw [name_of_elementParticle he]
    rfl
  | unresolved fault key =>
    obtain ⟨_, r, -, h⟩ := runs_bind.mp h
    obtain ⟨rfl, -⟩ := runs_pure.mp h
    exact (List.append_nil _).symm
  | broken refusal => exact absurd h runs_throw

theorem meets_addParticles {result : Members × List ChoiceFrame}
    (h : Runs (addParticles S nested owner container .empty) p result q)
    (ho : o = Outline.ofParticles S.options.choice
      (Particle.ofContainer S.declarations owner container)) :
    result.1.Meets S.declarations.nameOf o ∧ result.2 = o.frames := by
  subst ho
  obtain ⟨members, r, hs, h⟩ := runs_bind.mp h
  obtain ⟨rfl, -⟩ := runs_pure.mp h
  refine ⟨⟨[], ?_, fun _ h => absurd h List.not_mem_nil⟩, rfl⟩
  rw [List.append_nil]
  refine runs_foldlM (I := fun done members =>
    members.met = done.filterMap (Step.met? S.declarations.nameOf)) ?_ rfl hs
  intro done step a b p q ha h
  rw [met_addStep h, ha, List.filterMap_append]
  cases hs : step.met? S.declarations.nameOf <;> simp [hs]

theorem meets_addAttributeAt {nameOf : Site → String} (hm : members.Meets nameOf o)
    (h : Runs (addAttributeAt S owner members site) p result q) : result.Meets nameOf o := by
  unfold addAttributeAt at h
  obtain ⟨use, r, -, h⟩ := runs_bind.mp h
  split at h
  · obtain ⟨item, r, -, h⟩ := runs_bind.mp h
    split at h
    · exact hm.item (runs_atSite.mp h).1
    · obtain ⟨a, r, -, h⟩ := runs_bind.mp h
      exact hm.attribute (runs_atSite.mp h).1
  · obtain ⟨ref, r, -, h⟩ := runs_bind.mp h
    exact hm.attribute (runs_atSite.mp h).1
  · exact absurd h runs_fail

theorem meets_addAttributes {nameOf : Site → String} (hm : members.Meets nameOf o)
    (h : Runs (addAttributes S owner container members) p result q) : result.Meets nameOf o := by
  refine runs_foldlM (I := fun _ members => members.Meets nameOf o) ?_ hm h
  intro done step a b p q ha h
  cases step with
  | declared site => exact meets_addAttributeAt ha h
  | unresolved fault key =>
    obtain ⟨_, r, -, h⟩ := runs_bind.mp h
    obtain ⟨rfl, -⟩ := runs_pure.mp h
    exact ha
  | broken fault => exact absurd h runs_fail

/-- What the members of a body met, and its choices, are those of its content model. -/
theorem meets_bodyOf {body : Body} (h : Runs (bodyOf S nested owner site) p body q)
    (ho : o = Outline.ofParticles S.options.choice (contentModel S.declarations owner site)) :
    body.members.Meets S.declarations.nameOf o ∧ body.frames = o.frames := by
  rw [bodyOf_eq] at h
  obtain ⟨content, r, hs, h⟩ := runs_bind.mp h
  unfold contentModel at ho
  rw [(runs_ofExcept.mp hs).1] at ho
  cases content with
  | simple derivation mixed =>
    subst ho
    obtain ⟨members, r, ha, h⟩ := runs_bind.mp h
    obtain ⟨base, r, -, h⟩ := runs_bind.mp h
    obtain ⟨rfl, -⟩ := runs_pure.mp h
    refine ⟨meets_addAttributes ⟨[], rfl, fun _ h => absurd h List.not_mem_nil⟩ ha, rfl⟩
  | complex container extending mixed =>
    obtain ⟨base, r, -, h⟩ := runs_bind.mp h
    obtain ⟨⟨members, frames⟩, r, hp, h⟩ := runs_bind.mp h
    obtain ⟨result, r, ha, h⟩ := runs_bind.mp h
    obtain ⟨rfl, -⟩ := runs_pure.mp h
    obtain ⟨meets, rfl⟩ := meets_addParticles hp ho
    exact ⟨meets_addAttributes meets ha, rfl⟩

/-- The choices of a type have the names that were met inside choices of its content model. -/
theorem chosen_toType {body : Body} (hc : S.options.choice = .union)
    (h : Runs (bodyOf S nested owner site) p body q) (canonical : Owner) (name : QName)
    (documentation : Option String) (anonymous : Bool) (n : String) :
    ((body.toType S.options canonical name documentation anonymous).Chosen n ↔
        body.members.Chosen n) ∧
      (body.members.Chosen n ↔
        Particle.AnyUnderChoice S.declarations.nameOf n (contentModel S.declarations owner site)) := by
  obtain ⟨meets, frames⟩ := meets_bodyOf h rfl
  have framed := Outline.framed_ofParticles S.options.choice (contentModel S.declarations owner site)
  have named := meets.named_iff (n := n) framed
  rw [← frames] at named
  refine ⟨named, ?_⟩
  rw [meets.chosen_iff, hc]
  exact Outline.chooses_ofParticles _

theorem Made.chosen_iff {owner : String} {name : QName} {anonymous : Bool} {t : StructuralType}
    (h : Made S owner name anonymous site t) (hc : S.options.choice = .union) :
    t.Chosen n ↔ Particle.AnyUnderChoice S.declarations.nameOf n
      (contentModel S.declarations (some owner) site) := by
  obtain ⟨depth, body, p, q, -, hr, rfl⟩ := h
  obtain ⟨named, met⟩ := chosen_toType hc hr (some owner) name site.node.documentation? anonymous n
  exact named.trans met

/-- **The choices of a type of a catalog** have a name iff an element of that name is inside a choice
of what the type accepts. -/
theorem Models.chosen_iff {c : Catalog} {t : StructuralType} {model : List Particle}
    (h : Models S c t model) (hc : S.options.choice = .union)
    (names : (c.types.map (·.name)).Nodup) :
    t.Chosen n ↔ Particle.AnyUnderChoice S.declarations.nameOf n model := by
  induction h with
  | own h hb =>
    have made := h.made.chosen_iff (n := n) hc
    have same := h.completes.same.2.2.1
    cases h.completes with
    | own => exact made
    | extending hb' => cases hb.symm.trans (same.trans hb')
  | extending h hb hm hn _ ih =>
    have made := h.made.chosen_iff (n := n) hc
    have same := h.completes.same.2.2.1
    cases h.completes with
    | own none => cases none.symm.trans hb
    | extending hb' hm' hn' composed =>
      obtain rfl := Option.some.inj (hb.symm.trans (same.trans hb'))
      obtain rfl := List.inj_on_of_nodup_map names hm hm' (hn.trans hn'.symm)
      rw [StructuralType.chosen_compose composed, ih, made, Particle.anyUnderChoice_append]

end Compile

end WsdlCatalog
