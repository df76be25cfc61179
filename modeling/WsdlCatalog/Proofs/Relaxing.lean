/-
  WsdlCatalog.Proofs.Relaxing — what the two choice policies collect from one content model.

  Both policies go through a content model in the same order and meet the same elements.
  Inside a choice the one asks for nothing, and the other for as many as the branch does,
  which it takes down. So what they collect differs in minima and in branches only, and an
  element that was met inside a choice has the minimum zero under the first policy
  (`Relaxed`). Elements of one name become one, whose minimum is the smallest; it is the same
  under both policies if none of them was met inside a choice.

  Proved: the outlines of a content model are alike in this way (`Outline.relaxes_ofParticles`),
  and the members are, one element after another (`Members.Relaxes.addElement`).
-/

import WsdlCatalog.Proofs.Displaying

namespace WsdlCatalog

structure Relaxed (inside : Prop) (low high : Nat) : Prop where
  le : low ≤ high
  zero : inside → low = 0
  same : ¬ inside → low = high

section

variable {p q : Prop} {a b c d : Nat}

theorem Relaxed.refl (n : Nat) (h : ¬ p) : Relaxed p n n :=
  ⟨le_rfl, fun hp => absurd hp h, fun _ => rfl⟩

theorem Relaxed.congr (h : Relaxed p a b) (hpq : p ↔ q) : Relaxed q a b :=
  ⟨h.le, fun hq => h.zero (hpq.mpr hq), fun hq => h.same fun hp => hq (hpq.mp hp)⟩

theorem Relaxed.mul (h : Relaxed p a b) (k : Nat) : Relaxed p (a * k) (b * k) := by
  refine ⟨Nat.mul_le_mul_right k h.le, fun hp => ?_, fun hp => ?_⟩
  · rw [h.zero hp, Nat.zero_mul]
  · rw [h.same hp]

/-- The smaller of two minima is zero if one of them is. -/
theorem Relaxed.min (h : Relaxed p a b) (h' : Relaxed q c d) :
    Relaxed (p ∨ q) (min a c) (min b d) := by
  have first := h.le
  have second := h'.le
  refine ⟨by omega, fun given => ?_, fun given => ?_⟩
  · rcases given with hp | hq
    · rw [h.zero hp, Nat.zero_min]
    · rw [h'.zero hq, Nat.min_zero]
  · rw [h.same fun hp => given (.inl hp), h'.same fun hq => given (.inr hq)]

end

/-! ## Outlines -/

structure Bounds.Relaxes (inside : Prop) (r s : Range) : Prop where
  lower : Relaxed inside r.lower s.lower
  upper : r.upper = s.upper

theorem Bounds.Relaxes.mul {inside : Prop} {r s : Range} (h : r.Relaxes inside s) (inner : Range) :
    (r.mul inner).Relaxes inside (s.mul inner) :=
  ⟨h.lower.mul inner.lower, congrArg (Bounds.mulMax · inner.upper) h.upper⟩

/-- The same is met, up to the documents of sites. Only the second policy knows branches. -/
inductive Step.Relaxes : Step → Step → Prop where
  | element {r s : Range} {site site' : Site} {branches : List Branch} (same : site.bare = site'.bare)
    (h : r.Relaxes (branches ≠ []) s) :
    Relaxes (.element r site []) (.element s site' branches)
  | unresolved (fault : Fault) (key : String) : Relaxes (.unresolved fault key) (.unresolved fault key)
  | broken (refusal : Refusal) : Relaxes (.broken refusal) (.broken refusal)

/-- What follows holds for sites that differ in their documents if it holds of the same ones. -/
theorem Step.Relaxes.trans_bare {x y z : Step} (h : x.Relaxes y) (hb : y.bare = z.bare) :
    x.Relaxes z := by
  cases h with
  | element same ranges =>
    cases z with
    | element =>
      obtain ⟨rfl, hs, rfl⟩ := Step.element.inj hb
      exact .element (same.trans hs) ranges
    | unresolved => cases hb
    | broken => cases hb
  | unresolved fault key =>
    cases z with
    | element => cases hb
    | unresolved => cases hb; exact .unresolved fault key
    | broken => cases hb
  | broken refusal =>
    cases z with
    | element => cases hb
    | unresolved => cases hb
    | broken => cases hb; exact .broken refusal

namespace Outline

/-- The first policy tells no choices apart. -/
structure Relaxes (o o' : Outline) : Prop where
  steps : List.Forall₂ Step.Relaxes o.steps o'.steps
  frames : o.frames = []

theorem Relaxes.push {o o' : Outline} (h : o.Relaxes o') {x y : Step} (hxy : x.Relaxes y) :
    (o.push x).Relaxes (o'.push y) :=
  ⟨List.rel_append h.steps (.cons hxy .nil), h.frames⟩

/-- Inside a branch the first policy asks for nothing. -/
theorem relaxes_inside {outer outer' : Range} (upper : outer.upper = outer'.upper)
    (branches : List Branch) (b : Branch) :
    { outer with lower := 0 }.Relaxes (branches ++ [b] ≠ []) outer' := by
  refine ⟨⟨Nat.zero_le _, fun _ => rfl, fun outside => ?_⟩, upper⟩
  exact absurd (List.append_ne_nil_of_right_ne_nil _ (List.cons_ne_nil _ _)) outside

mutual

/-- By recursion on the particle. In a choice the branches follow one another in one policy, and
each is entered with a branch of its own in the other. -/
theorem relaxes_add {o o' : Outline} (h : o.Relaxes o') {outer outer' : Range}
    {branches : List Branch} (ranges : outer.Relaxes (branches ≠ []) outer') :
    ∀ p : Particle,
      (add .allOptional outer [] o p).Relaxes (add .union outer' branches o' p)
  | .element range site => by
    unfold add
    exact h.push (.element rfl (ranges.mul range))
  | .group _ range children => by
    unfold add
    exact relaxes_addAll h (ranges.mul range) children
  | .choice range parts => by
    unfold add
    have given : o.Relaxes { o' with frames := o'.frames ++ [⟨outer'.mul range, parts.length⟩] } :=
      ⟨h.steps, h.frames⟩
    exact relaxes_addBranches _ 0 given branches (ranges.mul range).upper parts
  | .wildcard => by
    unfold add
    exact h
  | .unresolved fault key => by
    unfold add
    exact h.push (.unresolved fault key)
  | .broken refusal => by
    unfold add
    exact h.push (.broken refusal)

theorem relaxes_addAll {o o' : Outline} (h : o.Relaxes o') {outer outer' : Range}
    {branches : List Branch} (ranges : outer.Relaxes (branches ≠ []) outer') :
    ∀ ps : List Particle,
      (addAll .allOptional outer [] o ps).Relaxes (addAll .union outer' branches o' ps)
  | [] => by
    unfold addAll
    exact h
  | p :: rest => by
    unfold addAll
    exact relaxes_addAll (relaxes_add h ranges p) ranges rest

theorem relaxes_addBranches {o o' : Outline} (choice index : Nat) (h : o.Relaxes o')
    {outer outer' : Range} (branches : List Branch) (upper : outer.upper = outer'.upper) :
    ∀ ps : List Particle, (addAll .allOptional { outer with lower := 0 } [] o ps).Relaxes
      (addBranches .union outer' branches choice index o' ps)
  | [] => by
    unfold addAll addBranches
    exact h
  | p :: rest => by
    unfold addAll addBranches
    exact relaxes_addBranches choice (index + 1)
      (relaxes_add h (relaxes_inside upper branches ⟨choice, index⟩) p) branches upper rest

end

theorem relaxes_ofParticles (ps : List Particle) :
    (ofParticles .allOptional ps).Relaxes (ofParticles .union ps) := by
  have once : Bounds.Relaxes ((([] : List Branch)) ≠ []) Range.once Range.once :=
    ⟨.refl 1 fun h => h rfl, rfl⟩
  exact relaxes_addAll ⟨.nil, rfl⟩ once ps

end Outline

/-! ## Members -/

def Leaf.withoutChoice (leaf : Leaf) : Leaf :=
  { leaf with range := { leaf.range with lower := 0 }, branch := none }

structure Leaf.Relaxes (inside : Prop) (a b : Leaf) : Prop where
  same : a.withoutChoice = b.withoutChoice
  branch : a.branch = none
  lower : Relaxed inside a.range.lower b.range.lower

theorem Leaf.Relaxes.name {inside : Prop} {a b : Leaf} (h : a.Relaxes inside b) : a.name = b.name := by
  show a.withoutChoice.name = b.withoutChoice.name
  rw [h.same]

theorem Leaf.Relaxes.congr {p q : Prop} {a b : Leaf} (h : a.Relaxes p b) (hpq : p ↔ q) :
    a.Relaxes q b :=
  ⟨h.same, h.branch, h.lower.congr hpq⟩

namespace Members

theorem name_fold (a b : Leaf) : (fold a b).name = a.name := rfl

theorem fold_withoutChoice (a b : Leaf) :
    fold a.withoutChoice b.withoutChoice = (fold a b).withoutChoice := rfl

theorem relaxes_fold {p q : Prop} {a b c d : Leaf} (h : a.Relaxes p b) (h' : c.Relaxes q d) :
    (fold a c).Relaxes (p ∨ q) (fold b d) := by
  refine ⟨?_, h.branch, h.lower.min h'.lower⟩
  rw [← fold_withoutChoice, ← fold_withoutChoice, h.same, h'.same]

def Chosen (members : Members) (n : String) : Prop :=
  ∃ branches, (n, branches) ∈ members.met ∧ branches ≠ []

structure Relaxes (a b : Members) : Prop where
  leaves : List.Forall₂ (fun x y => x.Relaxes (b.Chosen y.name) y) a.leaves b.leaves
  attributes : a.attributes = b.attributes
  distinct : (b.leaves.map Leaf.name).Nodup
  listed : ∀ n, b.Chosen n → n ∈ b.leaves.map Leaf.name

theorem relaxes_empty : empty.Relaxes empty :=
  ⟨.nil, rfl, List.nodup_nil, fun _ ⟨_, h, _⟩ => absurd h List.not_mem_nil⟩

variable {a b : Members} {x y : Leaf} {branches : List Branch}

theorem Relaxes.names (h : a.Relaxes b) : a.leaves.map Leaf.name = b.leaves.map Leaf.name :=
  forall₂_eq_map_iff.mp (h.leaves.imp fun _ _ same => same.name)

theorem Relaxes.withoutChoices (h : a.Relaxes b) :
    a.leaves.map Leaf.withoutChoice = b.leaves.map Leaf.withoutChoice :=
  forall₂_eq_map_iff.mp (h.leaves.imp fun _ _ same => same.same)

/-- Whether two leaves of one name have different types does not depend on choices. -/
theorem Relaxes.insert (h : a.Relaxes b) (same : x.withoutChoice = y.withoutChoice) :
    SameResult (fun _ _ => True) (Members.insert x a.leaves) (Members.insert y b.leaves) := by
  have inserted (leaf : Leaf) (leaves : List Leaf) :
      Members.insert leaf.withoutChoice (leaves.map Leaf.withoutChoice)
        = (Members.insert leaf leaves).map (List.map Leaf.withoutChoice) :=
    insert_map (fun _ => rfl) (fun _ => rfl) fun _ _ => rfl
  refine (sameResult_of_map (f := List.map Leaf.withoutChoice) (g := List.map Leaf.withoutChoice)
    ?_).conseq fun _ _ _ _ _ => trivial
  rw [← inserted, ← inserted, same, h.withoutChoices]

/-- The members with one more element, joined to the leaf of its name. -/
def withLeaf (members : Members) (leaf : Leaf) (branches : List Branch) : Members :=
  { members with
    leaves := joinedLeaves members.leaves [leaf]
    met := members.met ++ [(leaf.name, branches)] }

theorem chosen_withLeaf (n : String) :
    (b.withLeaf y branches).Chosen n ↔ b.Chosen n ∨ (n = y.name ∧ branches ≠ []) := by
  unfold Chosen withLeaf
  simp only [List.mem_append, List.mem_singleton, Prod.mk.injEq]
  constructor
  · rintro ⟨bs, hm | ⟨rfl, rfl⟩, hne⟩
    · exact .inl ⟨bs, hm, hne⟩
    · exact .inr ⟨rfl, hne⟩
  · rintro (⟨bs, hm, hne⟩ | ⟨rfl, hne⟩)
    · exact ⟨bs, .inl hm, hne⟩
    · exact ⟨branches, .inr ⟨rfl, rfl⟩, hne⟩

theorem Relaxes.withLeaf (h : a.Relaxes b) (given : x.Relaxes (branches ≠ []) y) :
    (a.withLeaf x []).Relaxes (b.withLeaf y branches) := by
  refine ⟨?_, h.attributes, ?_, fun n hn => ?_⟩
  · refine StructuralType.rel_joined h.leaves (Q := fun c d => x = c ∧ y = d) (.cons ⟨rfl, rfl⟩ .nil)
      (fun _ _ hp => hp.name) ?_ ?_ ?_ ?_
    · rintro _ _ ⟨rfl, rfl⟩
      exact given.name
    · rintro u v _ _ hp ⟨rfl, rfl⟩ hname
      have same : v.name = y.name := hp.name.symm.trans (hname.symm.trans given.name)
      refine (relaxes_fold hp given).congr ?_
      exact (or_congr_right (and_iff_right same).symm).trans (chosen_withLeaf _).symm
    · intro u v hp other
      have apart : ¬ (v.name = y.name ∧ branches ≠ []) := fun same =>
        other (List.mem_singleton.mpr ((hp.name.trans same.1).trans given.name.symm))
      exact hp.congr ((or_iff_left apart).symm.trans (chosen_withLeaf _).symm)
    · rintro _ _ ⟨rfl, rfl⟩ new
      have fresh : ¬ b.Chosen y.name := fun hc => new (h.names ▸ given.name ▸ h.listed _ hc)
      have only : b.Chosen y.name ∨ y.name = y.name ∧ branches ≠ [] ↔ branches ≠ [] :=
        (or_iff_right fresh).trans (and_iff_right rfl)
      exact given.congr (only.symm.trans (chosen_withLeaf _).symm)
  · exact StructuralType.nodup_joined name_fold h.distinct (List.nodup_singleton _)
  · show n ∈ (joinedLeaves b.leaves [y]).map Leaf.name
    rw [StructuralType.mem_names_joined name_fold]
    rcases (chosen_withLeaf n).mp hn with hc | ⟨rfl, -⟩
    · exact .inl (h.listed n hc)
    · exact .inr (List.mem_singleton.mpr rfl)

/-- **One more element** in both, which is inside the branches that the second policy knows. -/
theorem Relaxes.addElement (h : a.Relaxes b) (same : x.withoutChoice = y.withoutChoice)
    (lower : Relaxed (branches ≠ []) x.range.lower y.range.lower) :
    SameResult Relaxes (a.addElement x []) (b.addElement y branches) := by
  have given : Leaf.Relaxes (branches ≠ []) { x with branch := none }
      { y with branch := branches.getLast? } := ⟨same, rfl, lower⟩
  have inserted := (h.insert given.same).conseq fun xs ys hx hy _ => (⟨hx, hy⟩ : _ ∧ _)
  refine inserted.bind fun xs ys hxy => ?_
  obtain ⟨-, rfl⟩ := (insert_iff (h.names ▸ h.distinct)).mp hxy.1
  obtain ⟨-, rfl⟩ := (insert_iff h.distinct).mp hxy.2
  exact h.withLeaf given

end Members

end WsdlCatalog
