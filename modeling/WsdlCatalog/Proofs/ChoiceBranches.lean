/-
  WsdlCatalog.Proofs.ChoiceBranches — what the branches of choices hold.

  Where branches are told apart, an outline gives a choice its number when it enters it, and
  knows the branches around every element. Inside a branch all elements of a particle are in
  it (`Outline.inBranch_inside`). Outside, a particle adds to a branch only if the branch is
  one of a choice of its own, and then the elements of that branch (`Outline.inBranch_add`).
  So the choices are numbered as they are entered, and the names in the branches of a type are
  those of its content model, each once, where it is first met.

  Proved: branch by branch, the choices of an own type hold the names that are reached
  through the parts of the choices in the schema (`Compile.Made.branches`).
-/

import WsdlCatalog.Proofs.ChoiceSites
import WsdlCatalog.Proofs.UnderChoice

namespace WsdlCatalog

/-! ## Names of elements -/

namespace Particle

variable (nameOf : Site → String)

/-- The names of the elements that are reached through a particle, in order. -/
def names (p : Particle) : List String := p.leaves.map fun leaf => nameOf leaf.1

def namesOf (ps : List Particle) : List String := (leavesOf ps).map fun leaf => nameOf leaf.1

@[simp] theorem namesOf_nil : namesOf nameOf [] = [] := rfl

@[simp] theorem namesOf_cons (p : Particle) (rest : List Particle) :
    namesOf nameOf (p :: rest) = p.names nameOf ++ namesOf nameOf rest := by
  simp only [namesOf, names, leavesOf, List.map_append]

@[simp] theorem names_element (range : Range) (site : Site) :
    (element range site).names nameOf = [nameOf site] := rfl

theorem names_scaled (range : Range) (leaves : List (Site × Range)) :
    (leaves.map (scaled range)).map (fun leaf => nameOf leaf.1)
      = leaves.map fun leaf => nameOf leaf.1 := by
  rw [List.map_map]
  rfl

@[simp] theorem names_group (compositor : Compositor) (range : Range) (children : List Particle) :
    (group compositor range children).names nameOf = namesOf nameOf children :=
  names_scaled nameOf _ _

@[simp] theorem names_choice (range : Range) (parts : List Particle) :
    (choice range parts).names nameOf = namesOf nameOf parts :=
  names_scaled nameOf _ _

def namesAt (parts : List Particle) (index : Nat) : List String :=
  match parts[index]? with
  | some p => p.names nameOf
  | none => []

/-- The names in a branch of one of some choices, which are numbered from `first`. -/
def namesIn (first : Nat) (choices : List (List Particle)) (b : Branch) : List String :=
  if first ≤ b.choice then namesAt nameOf (choices[b.choice - first]?.getD []) b.index else []

variable {nameOf} {first : Nat} {b : Branch}

@[simp] theorem namesAt_nil (index : Nat) : namesAt nameOf [] index = [] := rfl

@[simp] theorem namesAt_zero (p : Particle) (rest : List Particle) :
    namesAt nameOf (p :: rest) 0 = p.names nameOf := rfl

@[simp] theorem namesAt_succ (p : Particle) (rest : List Particle) (index : Nat) :
    namesAt nameOf (p :: rest) (index + 1) = namesAt nameOf rest index := rfl

theorem namesIn_of_lt (h : b.choice < first) (choices : List (List Particle)) :
    namesIn nameOf first choices b = [] := if_neg (by omega)

@[simp] theorem namesIn_nil : namesIn nameOf first [] b = [] := by
  simp [namesIn]

theorem namesIn_cons (parts : List Particle) (rest : List (List Particle)) :
    namesIn nameOf first (parts :: rest) b
      = (if b.choice = first then namesAt nameOf parts b.index else [])
        ++ namesIn nameOf (first + 1) rest b := by
  rcases Nat.lt_trichotomy b.choice first with h | h | h
  · have other : b.choice ≠ first := by omega
    rw [namesIn_of_lt h, namesIn_of_lt (by omega), if_neg other, List.append_nil]
  · have behind : b.choice < first + 1 := by omega
    rw [namesIn_of_lt behind, if_pos h, List.append_nil]
    simp [namesIn, h]
  · obtain ⟨k, hk⟩ : ∃ k, b.choice - first = k + 1 := ⟨b.choice - first - 1, by omega⟩
    have behind : b.choice - (first + 1) = k := by omega
    have known : first ≤ b.choice := by omega
    have further : first + 1 ≤ b.choice := by omega
    have other : b.choice ≠ first := by omega
    simp [namesIn, hk, behind, known, further, other]

theorem namesIn_append (before after : List (List Particle)) :
    namesIn nameOf first (before ++ after) b
      = namesIn nameOf first before b ++ namesIn nameOf (first + before.length) after b := by
  induction before generalizing first with
  | nil => simp
  | cons parts rest ih =>
    rw [List.cons_append, namesIn_cons, namesIn_cons parts rest, ih, List.append_assoc,
      List.length_cons]
    congr 3
    omega

end Particle

/-! ## Outlines -/

namespace Outline

variable (nameOf : Site → String)

/-- The name of the element that a step is, if it is inside a branch. -/
def nameIn (b : Branch) (step : Step) : Option String :=
  (step.met? nameOf).bind fun (name, branches) => if branches.contains b then some name else none

def inBranch (o : Outline) (b : Branch) : List String := o.steps.filterMap (nameIn nameOf b)

variable {nameOf} {b : Branch}

theorem inBranch_push (o : Outline) (step : Step) :
    (o.push step).inBranch nameOf b = o.inBranch nameOf b ++ (nameIn nameOf b step).toList := by
  unfold inBranch push
  rw [List.filterMap_append]
  cases h : nameIn nameOf b step <;> simp [h]

theorem inBranch_push_element (o : Outline) (range : Range) (site : Site) (branches : List Branch) :
    (o.push (.element range site branches)).inBranch nameOf b
      = o.inBranch nameOf b ++ if b ∈ branches then [nameOf site] else [] := by
  rw [inBranch_push]
  by_cases h : b ∈ branches <;> simp [nameIn, Step.met?, h]

mutual

/-- The branches of the choices that a particle adds. -/
theorem counts_add (outer : Range) (branches : List Branch) (o : Outline) :
    ∀ p : Particle, (add .union outer branches o p).frames.map (·.branchCount)
      = o.frames.map (·.branchCount) ++ p.choices.map List.length
  | .element range site => by simp [add, push, Particle.choices]
  | .group _ range children => by
    simp only [add, Particle.choices, counts_addAll]
  | .choice range parts => by
    simp only [add, Particle.choices, counts_addBranches, List.map_append, List.map_cons,
      List.map_nil, List.append_assoc, List.singleton_append]
  | .wildcard => by simp [add, Particle.choices]
  | .unresolved fault key => by simp [add, push, Particle.choices]
  | .broken fault => by simp [add, push, Particle.choices]

theorem counts_addAll (outer : Range) (branches : List Branch) (o : Outline) :
    ∀ ps : List Particle, (addAll .union outer branches o ps).frames.map (·.branchCount)
      = o.frames.map (·.branchCount) ++ (Particle.choicesOf ps).map List.length
  | [] => by simp [addAll, Particle.choicesOf]
  | p :: rest => by
    simp only [addAll, Particle.choicesOf, counts_addAll outer branches _ rest,
      counts_add outer branches o p, List.map_append, List.append_assoc]

theorem counts_addBranches (outer : Range) (branches : List Branch) (choice index : Nat)
    (o : Outline) :
    ∀ ps : List Particle,
      (addBranches .union outer branches choice index o ps).frames.map (·.branchCount)
        = o.frames.map (·.branchCount) ++ (Particle.choicesOf ps).map List.length
  | [] => by simp [addBranches, Particle.choicesOf]
  | p :: rest => by
    simp only [addBranches, Particle.choicesOf,
      counts_addBranches outer branches choice (index + 1) _ rest, counts_add outer _ o p,
      List.map_append, List.append_assoc]

end

theorem length_frames_add (outer : Range) (branches : List Branch) (o : Outline) (p : Particle) :
    (add .union outer branches o p).frames.length = o.frames.length + p.choices.length := by
  have counts := congrArg List.length (counts_add outer branches o p)
  simpa using counts

mutual

/-- Inside a branch all elements of a particle are. -/
theorem inBranch_inside (outer : Range) {branches : List Branch} (hb : b ∈ branches) (o : Outline) :
    ∀ p : Particle, (add .union outer branches o p).inBranch nameOf b
      = o.inBranch nameOf b ++ p.names nameOf
  | .element range site => by
    unfold add
    rw [inBranch_push_element, if_pos hb, Particle.names_element]
  | .group _ range children => by
    unfold add
    rw [inBranch_allInside _ hb o children, Particle.names_group]
  | .choice range parts => by
    unfold add
    dsimp only
    rw [inBranch_branchesInside _ hb, Particle.names_choice]
    rfl
  | .wildcard => by
    unfold add
    exact (List.append_nil _).symm
  | .unresolved fault key => by
    unfold add
    exact inBranch_push o _
  | .broken fault => by
    unfold add
    exact inBranch_push o _

theorem inBranch_allInside (outer : Range) {branches : List Branch} (hb : b ∈ branches)
    (o : Outline) :
    ∀ ps : List Particle, (addAll .union outer branches o ps).inBranch nameOf b
      = o.inBranch nameOf b ++ Particle.namesOf nameOf ps
  | [] => by
    unfold addAll
    exact (List.append_nil _).symm
  | p :: rest => by
    unfold addAll
    rw [inBranch_allInside outer hb _ rest, inBranch_inside outer hb o p, Particle.namesOf_cons,
      List.append_assoc]

theorem inBranch_branchesInside (outer : Range) {branches : List Branch} (hb : b ∈ branches)
    (choice index : Nat) (o : Outline) :
    ∀ ps : List Particle, (addBranches .union outer branches choice index o ps).inBranch nameOf b
      = o.inBranch nameOf b ++ Particle.namesOf nameOf ps
  | [] => by
    unfold addBranches
    exact (List.append_nil _).symm
  | p :: rest => by
    unfold addBranches
    rw [inBranch_branchesInside outer hb choice (index + 1) _ rest,
      inBranch_inside outer (List.mem_append_left _ hb) o p, Particle.namesOf_cons,
      List.append_assoc]

end

/-- What the branches from number `index` on add to a branch, if it is one of their choice. -/
def fromBranches (nameOf : Site → String) (choice index : Nat) (ps : List Particle) (b : Branch) :
    List String :=
  if b.choice = choice ∧ index ≤ b.index then Particle.namesAt nameOf ps (b.index - index) else []

theorem fromBranches_of_ne {choice : Nat} (h : b.choice ≠ choice) (index : Nat)
    (ps : List Particle) : fromBranches nameOf choice index ps b = [] := if_neg fun given => h given.1

theorem fromBranches_before {choice index : Nat} (h : b.index < index) (ps : List Particle) :
    fromBranches nameOf choice index ps b = [] := if_neg (by omega)

/-- The first of some branches is the one of their number. -/
theorem fromBranches_self (choice index : Nat) (p : Particle) (rest : List Particle) :
    fromBranches nameOf choice index (p :: rest) ⟨choice, index⟩ = p.names nameOf := by
  simp [fromBranches]

/-- The others are counted on. -/
theorem fromBranches_cons_of_ne {choice index : Nat} (h : b ≠ ⟨choice, index⟩) (p : Particle)
    (rest : List Particle) :
    fromBranches nameOf choice index (p :: rest) b = fromBranches nameOf choice (index + 1) rest b := by
  by_cases hc : b.choice = choice
  · have other : b.index ≠ index := by
      intro hi
      subst hc hi
      exact h rfl
    rcases Nat.lt_or_ge b.index index with hi | hi
    · rw [fromBranches_before hi, fromBranches_before (by omega)]
    · obtain ⟨k, hk⟩ : ∃ k, b.index - index = k + 1 := ⟨b.index - index - 1, by omega⟩
      have behind : b.index - (index + 1) = k := by omega
      have further : index + 1 ≤ b.index := by omega
      simp [fromBranches, hc, hi, further, hk, behind]
  · rw [fromBranches_of_ne hc, fromBranches_of_ne hc]

mutual

/-- Outside a branch a particle adds to it what its own choices have there, which are numbered on. -/
theorem inBranch_add (outer : Range) {branches : List Branch} (hb : b ∉ branches) (o : Outline) :
    ∀ p : Particle, (add .union outer branches o p).inBranch nameOf b
      = o.inBranch nameOf b ++ Particle.namesIn nameOf o.frames.length p.choices b
  | .element range site => by
    unfold add
    rw [inBranch_push_element, if_neg hb]
    simp [Particle.choices]
  | .group _ range children => by
    unfold add
    exact inBranch_addAll _ hb o children
  | .choice range parts => by
    unfold add
    dsimp only
    have entered : o.frames.length < (o.frames ++ [(⟨outer.mul range, parts.length⟩ : ChoiceFrame)]).length := by
      simp
    rw [inBranch_addBranches _ hb _ 0 _ entered, Particle.choices, Particle.namesIn_cons]
    rw [List.append_assoc, List.length_append, List.length_singleton]
    simp only [fromBranches, Nat.zero_le, and_true, Nat.sub_zero]
    rfl
  | .wildcard => by
    unfold add
    simp [Particle.choices]
  | .unresolved fault key => by
    unfold add
    rw [inBranch_push]
    simp [Particle.choices, nameIn, Step.met?]
  | .broken fault => by
    unfold add
    rw [inBranch_push]
    simp [Particle.choices, nameIn, Step.met?]

theorem inBranch_addAll (outer : Range) {branches : List Branch} (hb : b ∉ branches)
    (o : Outline) :
    ∀ ps : List Particle, (addAll .union outer branches o ps).inBranch nameOf b
      = o.inBranch nameOf b ++ Particle.namesIn nameOf o.frames.length (Particle.choicesOf ps) b
  | [] => by
    unfold addAll
    simp [Particle.choicesOf]
  | p :: rest => by
    unfold addAll
    rw [inBranch_addAll outer hb _ rest, inBranch_add outer hb o p, length_frames_add,
      Particle.choicesOf, Particle.namesIn_append, List.append_assoc]

/-- The branches of a choice that was entered add what they have to their own branches. -/
theorem inBranch_addBranches (outer : Range) {branches : List Branch} (hb : b ∉ branches)
    (choice index : Nat) (o : Outline) (entered : choice < o.frames.length) :
    ∀ ps : List Particle, (addBranches .union outer branches choice index o ps).inBranch nameOf b
      = o.inBranch nameOf b ++ fromBranches nameOf choice index ps b
        ++ Particle.namesIn nameOf o.frames.length (Particle.choicesOf ps) b
  | [] => by
    unfold addBranches
    simp [Particle.choicesOf, fromBranches]
  | p :: rest => by
    unfold addBranches
    have more := length_frames_add outer (branches ++ [⟨choice, index⟩]) o p
    rw [inBranch_addBranches outer hb choice (index + 1) _ (by omega) rest, more,
      Particle.choicesOf, Particle.namesIn_append]
    by_cases same : b = ⟨choice, index⟩
    · -- The choice was entered before, so no choice inside this branch has its number.
      subst same
      have inside : Particle.namesIn nameOf o.frames.length p.choices ⟨choice, index⟩ = [] :=
        Particle.namesIn_of_lt entered _
      have others : fromBranches nameOf choice (index + 1) rest ⟨choice, index⟩ = [] :=
        fromBranches_before (Nat.lt_succ_self index) rest
      rw [inBranch_inside outer (List.mem_append_right _ (List.mem_singleton_self _)) o p,
        fromBranches_self, others, inside]
      simp
    · have outside : b ∉ branches ++ [⟨choice, index⟩] := by
        simp [hb, same]
      rw [inBranch_add outer outside o p, fromBranches_cons_of_ne same]
      by_cases hc : b.choice = choice
      · have before : b.choice < o.frames.length := by omega
        rw [Particle.namesIn_of_lt before]
        simp
      · rw [fromBranches_of_ne hc]
        simp

end

/-- The branches of an outline hold the names in the branches of the choices. -/
theorem inBranch_ofParticles (ps : List Particle) (b : Branch) :
    (ofParticles .union ps).inBranch nameOf b
      = Particle.namesIn nameOf 0 (Particle.choicesOf ps) b :=
  inBranch_addAll .once List.not_mem_nil .empty ps

theorem counts_ofParticles (ps : List Particle) : (ofParticles .union ps).frames.map (·.branchCount)
    = (Particle.choicesOf ps).map List.length :=
  counts_addAll .once [] .empty ps

end Outline

/-! ## Members -/

theorem foldl_once_loop (known more : List String) :
    more.foldl (fun names name => if names.contains name then names else names ++ [name]) known
      = List.eraseDupsBy.loop (· == ·) more known.reverse := by
  induction more generalizing known with
  | nil => simp [List.eraseDupsBy.loop]
  | cons name rest ih =>
    rw [List.foldl_cons, List.eraseDupsBy.loop]
    have same : known.reverse.any (name == ·) = known.contains name := by
      rw [List.any_reverse, List.any_beq]
    rw [same]
    cases known.contains name with
    | true => exact ih known
    | false =>
      rw [if_neg Bool.false_ne_true, ih, List.reverse_append]
      rfl

/-- Names are collected once, where they are first met. -/
theorem foldl_once (names : List String) :
    names.foldl (fun names name => if names.contains name then names else names ++ [name]) []
      = names.eraseDups := foldl_once_loop [] names

namespace Members

variable {members : Members} {nameOf : Site → String} {o : Outline}

/-- The names that members have in a branch are those of the outline, each once. -/
theorem Meets.inBranch_eq (h : members.Meets nameOf o) (b : Branch) :
    members.inBranch b = (o.inBranch nameOf b).eraseDups := by
  obtain ⟨items, met, outside⟩ := h
  unfold inBranch
  rw [foldl_once, met, List.filterMap_append, List.filterMap_filterMap]
  have nothing : items.filterMap (fun (name, branches) =>
      if branches.contains b then some name else none) = [] := by
    rw [List.filterMap_eq_nil_iff]
    rintro ⟨name, branches⟩ hx
    have none : branches = [] := outside _ hx
    subst none
    rfl
  rw [nothing, List.append_nil]
  rfl

/-- The choices of members that met an outline have its branches. -/
theorem Meets.branches (h : members.Meets nameOf o) (frames : List ChoiceFrame) :
    (members.choices frames).map ChoiceGroup.branches
      = (frames.map ChoiceFrame.branchCount).mapIdx fun i count =>
        (List.range count).map fun j => (o.inBranch nameOf ⟨i, j⟩).eraseDups := by
  refine List.ext_getElem? fun i => ?_
  have held : (members.choices frames)[i]? = frames[i]?.map (members.group (0 + i)) :=
    getElem?_choicesFrom frames 0 i
  rw [List.getElem?_map, held, List.getElem?_mapIdx, List.getElem?_map, Nat.zero_add, Option.map_map,
    Option.map_map]
  refine congrArg (Option.map · frames[i]?) (funext fun frame => ?_)
  exact List.map_congr_left fun j _ => h.inBranch_eq ⟨i, j⟩

end Members

namespace Particle

/-- The names of the elements that are reached through a particle, each where it is first met. -/
def reached (nameOf : Site → String) (p : Particle) : List String := (p.names nameOf).eraseDups

/-- Branch by branch, what an outline has in the branches of its choices. -/
theorem mapIdx_namesIn (nameOf : Site → String) (choices : List (List Particle)) :
    ((choices.map List.length).mapIdx fun i count =>
        (List.range count).map fun j => (namesIn nameOf 0 choices ⟨i, j⟩).eraseDups)
      = choices.map fun parts => parts.map (reached nameOf) := by
  refine List.ext_getElem? fun i => ?_
  rw [List.getElem?_mapIdx, List.getElem?_map, List.getElem?_map, Option.map_map]
  cases hi : choices[i]? with
  | none => rfl
  | some parts =>
    refine congrArg some (List.ext_getElem? fun j => ?_)
    simp only [Function.comp_apply, List.getElem?_map, namesIn, Nat.zero_le, if_true, Nat.sub_zero, hi,
      Option.getD_some, namesAt]
    rcases Nat.lt_or_ge j parts.length with hj | hj
    · rw [List.getElem?_range hj, List.getElem?_eq_getElem hj]
      simp [reached, List.getElem?_eq_getElem hj]
    · rw [List.getElem?_eq_none (by simpa using hj), List.getElem?_eq_none hj]
      rfl

end Particle

/-! ## Types -/

namespace Compile

variable {S : Setting} {nested : Nested} {owner : Owner} {site : Site} {p q : Progress}

/-- **The choices of an own type**, branch by branch, hold the names that are reached through the
parts of the choices in the schema. -/
theorem branches_of_bodyOf {body : Body} (hc : S.options.choice = .union)
    (h : Runs (bodyOf S nested owner site) p body q) :
    (body.members.choices body.frames).map ChoiceGroup.branches
      = (choiceSites S.declarations owner site).map fun choice =>
        (choice.branches owner).map (Particle.reached S.declarations.nameOf) := by
  obtain ⟨meets, frames⟩ := meets_bodyOf h rfl
  rw [hc] at meets frames
  have branches := meets.branches body.frames
  rw [frames, Outline.counts_ofParticles] at branches
  simp only [Outline.inBranch_ofParticles] at branches
  rw [frames, branches, Particle.mapIdx_namesIn, choicesOf_contentModel h, List.map_map]
  rfl

theorem Made.branches {owner : String} {name : QName} {anonymous : Bool} {t : StructuralType}
    (h : Made S owner name anonymous site t) (hc : S.options.choice = .union) :
    t.choices.map ChoiceGroup.branches
      = (choiceSites S.declarations (some owner) site).map fun choice =>
        (choice.branches (some owner)).map (Particle.reached S.declarations.nameOf) := by
  obtain ⟨depth, body, p, q, -, hr, rfl⟩ := h
  exact branches_of_bodyOf hc hr

end Compile

end WsdlCatalog
