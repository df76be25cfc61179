/-
  WsdlCatalog.Proofs.Displaying — the elements of a type and the leaves they stand for.

  Leaves are joined when a content model is flattened, elements when a type gets those of its
  base. Both ways go on alike: an element that stands for a leaf (`Element.Same`) still does so
  when another one is joined to both, except that data of another form, where the option for
  nillable elements should be a truth value, may be kept from either of the two.

  Proved: if a type shows some leaves (`StructuralType.Displays`), a type that extends it shows
  these joined with its own ones (`Displays.composed`), and its choices are those of all elements
  that were met (`Members.choices_append`).
-/

import WsdlCatalog.Proofs.Flattening

namespace WsdlCatalog

open StructuralType (Composed AgreeingElements joined merge untexted addedElements)

/-! ## Leaves whose branches move -/

/-- The leaf when `n` choices come before those around it. -/
def Leaf.after (n : Nat) (leaf : Leaf) : Leaf :=
  { leaf with branch := leaf.branch.map (Branch.after n) }

theorem Placed.seen_after (n : Nat) (x : Placed) : (x.after n).seen = x.seen.after n := by
  unfold seen after Leaf.after
  rw [List.getLast?_map]

namespace Members

variable {leaf : Leaf} {leaves more result : List Leaf} {n : Nat}

theorem insert_after :
    insert (leaf.after n) (leaves.map (Leaf.after n))
      = (insert leaf leaves).map (List.map (Leaf.after n)) :=
  insert_map (fun _ => rfl) (fun _ => rfl) fun _ _ => rfl

theorem collect_after (h : collect leaves more = .ok result) :
    collect (leaves.map (Leaf.after n)) (more.map (Leaf.after n)) = .ok (result.map (Leaf.after n)) := by
  induction more generalizing leaves with
  | nil =>
    cases h
    rfl
  | cons leaf rest ih =>
    obtain ⟨between, hi, hr⟩ := ok_bind.mp h
    have hi : insert leaf leaves = .ok between := hi
    refine ok_bind.mpr ⟨between.map (Leaf.after n), ?_, ih hr⟩
    show insert (leaf.after n) (leaves.map (Leaf.after n)) = _
    rw [insert_after, hi]
    rfl

end Members

/-! ## Elements for leaves -/

/-- Two elements are one, up to the form of their being optional; and that too where the option for
nillable elements is a truth value. -/
structure Element.Same (nillableAsOptional : Loose Bool) (e f : Element) : Prop where
  name : e.name = f.name
  declaredType : e.declaredType = f.declaredType
  typeRef : e.typeRef = f.typeRef
  min : e.min = f.min
  max : e.max = f.max
  nillable : e.nillable = f.nillable
  choice : e.choice = f.choice
  optional : e.optional.holds = f.optional.holds
  exact : ∀ b, nillableAsOptional = .own b → e.optional = f.optional

section

variable {nao : Loose Bool}

theorem Element.Same.refl (e : Element) : e.Same nao e :=
  ⟨rfl, rfl, rfl, rfl, rfl, rfl, rfl, rfl, fun _ _ => rfl⟩

theorem Element.Same.eq {e f : Element} (h : e.Same nao f) {b : Bool} (hn : nao = .own b) : e = f := by
  obtain ⟨name, declaredType, typeRef, min, max, nillable, choice, -, exact⟩ := h
  have optional := exact b hn
  cases e
  cases f
  simp_all

namespace Leaf

theorem holds_optional (leaf : Leaf) : (leaf.optional nao).holds
    = (leaf.range.lower == 0 || leaf.nillable && nao.holds) := by
  unfold optional
  cases leaf.range.lower == 0 <;> cases leaf.nillable <;> rfl

theorem optional_own (leaf : Leaf) (b : Bool) :
    leaf.optional (.own b) = .own (leaf.range.lower == 0 || leaf.nillable && b) := by
  unfold optional
  cases leaf.range.lower == 0 <;> cases leaf.nillable <;> rfl

/-- Two leaves in one are optional if one of them is. -/
theorem optional_fold (a b : Leaf) (c : Bool) :
    ((Members.fold a b).range.lower == 0 || (Members.fold a b).nillable && c)
      = ((a.range.lower == 0 || a.nillable && c) || (b.range.lower == 0 || b.nillable && c)) := by
  have lower : (min a.range.lower b.range.lower == 0) = (a.range.lower == 0 || b.range.lower == 0) := by
    rw [Bool.eq_iff_iff]
    simp only [Bool.or_eq_true, beq_iff_eq]
    omega
  show (min a.range.lower b.range.lower == 0 || (a.nillable || b.nillable) && c) = _
  rw [lower, Bool.and_or_distrib_right]
  ac_rfl

theorem toElement_after (leaf : Leaf) (n : Nat) :
    (leaf.after n).toElement nao = StructuralType.shiftChoice n (leaf.toElement nao) := by
  unfold toElement after StructuralType.shiftChoice
  congr 1
  cases leaf.branch with
  | none => rfl
  | some b => exact congrArg (fun i => some (ChoiceMember.mk i b.index)) (Nat.cast_add b.choice n)

end Leaf

theorem either_own (a b : Bool) : StructuralType.either (.own a) (.own b) = .own (a || b) := by
  cases a <;> rfl

theorem joinMax_ofNat (a b : Option Nat) :
    Bounds.joinMax (a.map Int.ofNat) (b.map Int.ofNat) = (Bounds.joinMax a b).map Int.ofNat := by
  cases a with
  | none => cases b <;> rfl
  | some a =>
    cases b with
    | none => rfl
    | some b => exact congrArg some (Nat.cast_max a b).symm

/-- Another element is folded in as its leaf is. -/
theorem Element.Same.fold {e : Element} {leaf : Leaf} (h : e.Same nao (leaf.toElement nao))
    (other : Leaf) : (StructuralType.fold e (other.toElement nao)).Same nao
      ((Members.fold leaf other).toElement nao) where
  name := h.name
  declaredType := h.declaredType
  typeRef := h.typeRef
  min := by
    show StructuralType.joinMin e.min (.own (other.range.lower : Int)) = _
    rw [h.min]
    exact congrArg Loose.own (Nat.cast_min leaf.range.lower other.range.lower).symm
  max := by
    show Bounds.joinMax e.max _ = _
    rw [h.max]
    exact joinMax_ofNat _ _
  nillable := by
    show StructuralType.either e.nillable _ = _
    rw [h.nillable]
    exact either_own _ _
  choice := h.choice
  optional := by
    have first : e.optional.holds = (leaf.optional nao).holds := h.optional
    show (StructuralType.either e.optional (other.optional nao)).holds
      = ((Members.fold leaf other).optional nao).holds
    rw [StructuralType.holds_either, first, Leaf.holds_optional, Leaf.holds_optional,
      Leaf.holds_optional, Leaf.optional_fold]
  exact b hb := by
    have first : e.optional = leaf.optional nao := h.exact b hb
    show StructuralType.either e.optional (other.optional nao) = (Members.fold leaf other).optional nao
    rw [first, hb, Leaf.optional_own, Leaf.optional_own, Leaf.optional_own, either_own,
      Leaf.optional_fold]

/-! ## Lists of elements -/

abbrev Stand (nao : Loose Bool) (elements : List Element) (leaves : List Leaf) : Prop :=
  List.Forall₂ (fun e leaf => e.Same nao (leaf.toElement nao)) elements leaves

variable {elements : List Element} {leaves own : List Leaf}

theorem stand_toElement (leaves : List Leaf) : Stand nao (leaves.map (Leaf.toElement nao)) leaves :=
  List.forall₂_map_left_iff.mpr (List.forall₂_same.mpr fun leaf _ => .refl (leaf.toElement nao))

/-- Elements are joined as their leaves are. -/
theorem Stand.joined (h : Stand nao elements leaves) (own : List Leaf) :
    Stand nao (joined Element.name StructuralType.fold elements (own.map (Leaf.toElement nao)))
      (Members.joinedLeaves leaves own) := by
  have made : List.Forall₂ (fun e leaf => e = Leaf.toElement nao leaf) (own.map (Leaf.toElement nao)) own :=
    List.forall₂_map_left_iff.mpr (List.forall₂_same.mpr fun _ _ => rfl)
  refine StructuralType.rel_joined h made (fun _ _ same => same.name) ?_ ?_ ?_ ?_
  · rintro _ leaf rfl
    rfl
  · rintro e leaf _ other same rfl -
    exact same.fold other
  · exact fun _ _ same _ => same
  · rintro _ leaf rfl -
    exact .refl _

/-- Elements agree with others in their types as their leaves do. -/
theorem Stand.agree_iff (h : Stand nao elements leaves) (own : List Leaf) :
    StructuralType.Agree Element.name Element.declaredType elements (own.map (Leaf.toElement nao)) ↔
      Members.Agreeing leaves own := by
  induction h with
  | nil => exact ⟨fun _ _ h => absurd h List.not_mem_nil, fun _ _ h => absurd h List.not_mem_nil⟩
  | cons first _ ih =>
    unfold Members.Agreeing StructuralType.Agree at ih
    unfold Members.Agreeing StructuralType.Agree
    rw [List.forall_mem_cons, List.forall_mem_cons, ih, List.forall_mem_map, first.name,
      first.declaredType]
    rfl

end

/-! ## Types for leaves -/

namespace StructuralType

/-- The text slot if there is one. -/
def slot (ref : TypeRef) (mixed : Bool) : List Element := if mixed then [Members.textSlot ref] else []

/-- A type shows leaves, and the text slot behind them if text is mixed in. -/
structure Displays (nao : Loose Bool) (ref : TypeRef) (t : StructuralType) (leaves : List Leaf)
    (mixed : Bool) : Prop where
  leaves : Stand nao (untexted t.elements) leaves
  elements : t.elements = untexted t.elements ++ slot ref mixed

variable {nao : Loose Bool} {ref : TypeRef} {t base t' : StructuralType} {leaves own : List Leaf}
  {mixed more : Bool}

theorem isText_toElement {leaf : Leaf} (h : leaf.name ≠ textSlotName) :
    (leaf.toElement nao).isText = false :=
  beq_false_of_ne h

theorem untexted_leaves (h : ∀ leaf ∈ leaves, leaf.name ≠ textSlotName) (ref : TypeRef) (mixed : Bool) :
    untexted (leaves.map (Leaf.toElement nao) ++ slot ref mixed) = leaves.map (Leaf.toElement nao) := by
  have text : untexted (slot ref mixed) = [] := by cases mixed <;> rfl
  rw [untexted, List.filter_append]
  show untexted _ ++ untexted _ = _
  rw [text, List.append_nil]
  exact untexted_of_plain (List.forall_mem_map.mpr fun leaf hl => isText_toElement (h leaf hl))

/-- Elements that were made from leaves show these. -/
theorem displays_of_eq (h : t.elements = leaves.map (Leaf.toElement nao) ++ slot ref mixed)
    (names : ∀ leaf ∈ leaves, leaf.name ≠ textSlotName) : t.Displays nao ref leaves mixed := by
  have plain : untexted (leaves.map (Leaf.toElement nao) ++ slot ref mixed)
      = leaves.map (Leaf.toElement nao) := untexted_leaves names ref mixed
  constructor
  · rw [h, plain]
    exact stand_toElement leaves
  · rw [h, plain]

theorem find_text {elements : List Element} (h : ∀ e ∈ elements, e.isText = false) (mixed : Bool) :
    (elements ++ slot ref mixed).find? (·.isText)
      = if mixed then some (Members.textSlot ref) else none := by
  have none : elements.find? (·.isText) = none := by
    refine List.find?_eq_none.mpr fun e he => ?_
    rw [h e he]
    exact Bool.false_ne_true
  rw [List.find?_append, none]
  cases mixed <;> rfl

theorem untexted_addedElements (inherited own : List Element) :
    untexted (addedElements inherited own) = added Element.name inherited (untexted own) := by
  unfold untexted addedElements added
  rw [List.filter_filter, List.filter_filter]
  refine List.filter_congr fun e _ => ?_
  cases e.isText <;> simp

/-- Besides the text slot, the elements of a type are joined to those of its base. -/
theorem Composed.untexted_joined (h : Composed t base t') : untexted t'.elements
    = joined Element.name fold (untexted base.elements) (untexted (t.shifted base)) := by
  rw [h.untexted_elements, h.localElements, untexted_addedElements]
  rfl

/-- The text slot comes last. -/
theorem Composed.elements_eq (h : Composed t base t') : t'.elements = untexted t'.elements
    ++ ((t'.localElements.find? (·.isText)).or base.textSlot?).toList := by
  rw [h.untexted_elements]
  exact h.elements

/-- **What a type shows with the members of its base** are the leaves of both, joined. -/
theorem Displays.composed (h : base.Displays nao ref leaves mixed) (hc : Composed t base t')
    (shifted : t.shifted base = own.map (Leaf.toElement nao) ++ slot ref more)
    (names : ∀ leaf ∈ own, leaf.name ≠ textSlotName) :
    t'.Displays nao ref (Members.joinedLeaves leaves own) (mixed || more) := by
  have plain : untexted (t.shifted base) = own.map (Leaf.toElement nao) := by
    rw [shifted, untexted_leaves names]
  have elements : untexted t'.elements
      = joined Element.name fold (untexted base.elements) (own.map (Leaf.toElement nao)) := by
    rw [hc.untexted_joined, plain]
  have added : t'.localElements = untexted t'.localElements ++ slot ref more := by
    have text : addedElements (untexted base.elements) (slot ref more) = slot ref more := by
      cases more <;> rfl
    rw [hc.localElements, untexted_addedElements, plain, shifted, addedElements, List.filter_append]
    show addedElements _ _ ++ addedElements _ _ = _
    rw [text]
    congr 1
    refine List.filter_congr fun e he => ?_
    obtain ⟨leaf, hl, rfl⟩ := List.mem_map.mp he
    rw [isText_toElement (names leaf hl), Bool.false_or]
  constructor
  · rw [elements]
    exact h.leaves.joined own
  · have inherited : base.textSlot? = if mixed then some (Members.textSlot ref) else none := by
      rw [textSlot?, h.elements]
      exact find_text (fun e he => (mem_untexted.mp he).2) mixed
    have ownText : t'.localElements.find? (·.isText) = if more then some (Members.textSlot ref) else none := by
      rw [added]
      exact find_text (fun e he => (mem_untexted.mp he).2) more
    have slots : ((t'.localElements.find? (·.isText)).or base.textSlot?).toList
        = slot ref (mixed || more) := by
      rw [inherited, ownText]
      cases mixed <;> cases more <;> rfl
    rw [← slots]
    exact hc.elements_eq

end StructuralType

/-! ## Choices -/

namespace Members

variable {members own total : Members} {before : List (String × List Branch)} {n : Nat} {b : Branch}

/-- What was met in branches when `n` choices come before those around it. -/
def metAfter (n : Nat) (met : List (String × List Branch)) : List (String × List Branch) :=
  met.map fun x => (x.1, x.2.map (Branch.after n))

theorem filterMap_outside {met : List (String × List Branch)} (h : ∀ x ∈ met, b ∉ x.2) :
    (met.filterMap fun x => if x.2.contains b then some x.1 else none) = [] := by
  refine List.filterMap_eq_nil_iff.mpr fun x hx => ?_
  rw [if_neg fun hc => h x hx (List.contains_iff_mem.mp hc)]

/-- Elements that are in none of these branches may follow. -/
theorem inBranch_before (met : total.met = members.met ++ before) (outside : ∀ x ∈ before, b ∉ x.2) :
    total.inBranch b = members.inBranch b := by
  unfold inBranch
  congr 1
  rw [met, List.filterMap_append]
  exact (congrArg _ (filterMap_outside outside)).trans (List.append_nil _)

theorem contains_after (branches : List Branch) (b : Branch) :
    (branches.map (Branch.after n)).contains (b.after n) = branches.contains b := by
  have injective : Function.Injective (Branch.after n) := by
    intro a b same
    obtain ⟨choice, index⟩ := Branch.mk.inj same
    exact Branch.mk.injEq .. ▸ ⟨Nat.add_right_cancel choice, index⟩
  rw [Bool.eq_iff_iff, List.contains_iff_mem, List.contains_iff_mem]
  exact List.mem_map_of_injective injective

/-- Elements of other branches may come before, if the branches are counted on. -/
theorem inBranch_after (met : total.met = before ++ metAfter n own.met)
    (outside : ∀ x ∈ before, b.after n ∉ x.2) : total.inBranch (b.after n) = own.inBranch b := by
  unfold inBranch
  congr 1
  rw [met, List.filterMap_append, metAfter, List.filterMap_map]
  refine (congrArg (· ++ _) (filterMap_outside outside)).trans (List.filterMap_congr fun x _ => ?_)
  show (if (x.2.map (Branch.after n)).contains (b.after n) then some x.1 else none) = _
  rw [contains_after]

theorem choicesFrom_append (members : Members) (first more : List ChoiceFrame) :
    ∀ index, members.choicesFrom index (first ++ more)
      = members.choicesFrom index first ++ members.choicesFrom (index + first.length) more := by
  induction first with
  | nil => exact fun _ => rfl
  | cons frame rest ih =>
    intro index
    rw [List.cons_append, choicesFrom, choicesFrom, ih, List.cons_append, List.length_cons]
    congr 3
    omega

/-- Choices that are counted on have the same elements. -/
theorem choicesFrom_shift (n : Nat) (frames : List ChoiceFrame) :
    ∀ index, (∀ b : Branch, index ≤ b.choice → b.choice < index + frames.length →
        total.inBranch (b.after n) = own.inBranch b) →
      total.choicesFrom (index + n) frames
        = (own.choicesFrom index frames).map (StructuralType.shiftGroup n) := by
  induction frames with
  | nil => exact fun _ _ => rfl
  | cons frame rest ih =>
    intro index same
    rw [List.length_cons] at same
    have tail := ih (index + 1) fun b hi hl => same b (by omega) (by omega)
    rw [Nat.add_right_comm] at tail
    rw [choicesFrom, choicesFrom, List.map_cons, tail]
    congr 1
    unfold StructuralType.shiftGroup
    congr 1
    exact List.map_congr_left fun j _ => same ⟨index, j⟩ le_rfl
      (Nat.lt_add_of_pos_right (Nat.succ_pos _))

/-- Choices with the same elements are the same. -/
theorem choices_congr {frames : List ChoiceFrame}
    (h : ∀ b : Branch, b.choice < frames.length → total.inBranch b = own.inBranch b) :
    total.choices frames = own.choices frames := by
  have moved : total.choicesFrom 0 frames = (own.choicesFrom 0 frames).map (StructuralType.shiftGroup 0) :=
    choicesFrom_shift 0 frames 0 fun b _ hl => h b (by omega)
  have same (g : ChoiceGroup) : StructuralType.shiftGroup 0 g = g := by
    unfold StructuralType.shiftGroup
    rw [Int.add_zero]
  exact moved.trans (List.map_id'' same _)

/-- **The choices of all elements that were met** are those of the first ones, and then the others,
which are counted on. -/
theorem choices_append {first : List ChoiceFrame}
    (met : total.met = members.met ++ metAfter first.length own.met)
    (inside : ∀ x ∈ members.met, ∀ b ∈ x.2, b.choice < first.length) (more : List ChoiceFrame) :
    total.choices (first ++ more)
      = members.choices first ++ (own.choices more).map (StructuralType.shiftGroup first.length) := by
  have left : total.choices first = members.choices first := by
    refine choices_congr fun b hb => inBranch_before met fun x hx hm => ?_
    obtain ⟨y, -, rfl⟩ := List.mem_map.mp hx
    obtain ⟨c, -, rfl⟩ := List.mem_map.mp hm
    exact absurd hb (Nat.not_lt.mpr (Nat.le_add_left _ _))
  have right := choicesFrom_shift first.length more 0 fun b _ _ =>
    inBranch_after met fun x hx hm =>
      absurd (inside x hx _ hm) (Nat.not_lt.mpr (Nat.le_add_left _ _))
  unfold choices at left ⊢
  rw [choicesFrom_append, left, right]

end Members

end WsdlCatalog
