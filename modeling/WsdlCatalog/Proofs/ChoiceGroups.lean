/-
  WsdlCatalog.Proofs.ChoiceGroups — the choices of a type and the elements in their branches.

  A leaf remembers the innermost branch of the first element it stands for. This element was
  met inside the branch, so the branch names it (`Members.Branched`). A type that extends
  another one has the choices of its base first and counts its own ones on; an element that
  is folded into an inherited one takes the branch of that one, and is listed there.

  Proved: where branches are told apart, elements and choices of all types of a catalog agree,
  and the choices of a type's own are those of its content model, branch by branch
  (`SchemaSet.compile_keepsChoices`).
-/

import WsdlCatalog.Proofs.ChoiceBranches
import WsdlCatalog.Proofs.LocalMembers

namespace WsdlCatalog

/-! ## Members -/

structure Members.Branched (members : Members) : Prop where
  met : ∀ leaf ∈ members.leaves, ∀ b, leaf.branch = some b →
    ∃ branches, (leaf.name, branches) ∈ members.met ∧ b ∈ branches
  named : ∀ x ∈ members.met, x.1 ∈ members.leaves.map Leaf.name

namespace Members

theorem branched_empty : empty.Branched :=
  ⟨fun _ hl => absurd hl List.not_mem_nil, fun _ hx => absurd hx List.not_mem_nil⟩

/-- An element that is folded into a leaf leaves the branch of that leaf as it is. -/
theorem Branched.addElement {members result : Members} (h : members.Branched) {leaf : Leaf}
    {branches : List Branch} (ha : members.addElement leaf branches = .ok result) :
    result.Branched := by
  obtain ⟨leaves, hi, rfl⟩ := addElement_ok ha
  have before {l : Leaf} (hl : l ∈ members.leaves) (b : Branch) (hb : l.branch = some b) :
      ∃ inside, (l.name, inside) ∈ members.met ++ [(leaf.name, branches)] ∧ b ∈ inside := by
    obtain ⟨inside, hm, hmem⟩ := h.met l hl b hb
    exact ⟨inside, List.mem_append_left _ hm, hmem⟩
  rcases insert_cases hi with ⟨-, rfl⟩ | ⟨earlier, first, later, held, -, same, -, rfl⟩
  · refine ⟨List.forall_mem_append.mpr ⟨fun l hl => before hl, ?_⟩, ?_⟩
    · refine List.forall_mem_singleton.mpr fun b hb => ⟨branches, ?_, List.mem_of_getLast? hb⟩
      exact List.mem_append_right _ List.mem_cons_self
    · refine List.forall_mem_append.mpr ⟨fun x hx => ?_, List.forall_mem_singleton.mpr ?_⟩
      · rw [List.map_append]
        exact List.mem_append_left _ (h.named x hx)
      · simp
  · have names : (earlier ++ fold first { leaf with branch := branches.getLast? } :: later).map
        Leaf.name = members.leaves.map Leaf.name := by
      rw [held]
      simp [fold]
    constructor
    · intro l hl b hb
      have known : l = fold first { leaf with branch := branches.getLast? } ∨
          l ∈ members.leaves := by
        rw [held]
        simp only [List.mem_append, List.mem_cons] at hl ⊢
        tauto
      rcases known with rfl | known
      · have hfirst : first ∈ members.leaves := held ▸ List.mem_append_right _ List.mem_cons_self
        exact before hfirst b hb
      · exact before known b hb
    · rw [names]
      refine List.forall_mem_append.mpr ⟨h.named, List.forall_mem_singleton.mpr ?_⟩
      rw [held, List.map_append, List.map_cons]
      exact List.mem_append_right _ (same ▸ List.mem_cons_self)

end Members

theorem Compile.Collected.branched {members : Members} (h : Collected members) :
    members.Branched := by
  induction h with
  | empty => exact Members.branched_empty
  | withElement _ leaf branches ha ih => exact ih.addElement ha
  | withAttribute _ a _ ha ih =>
    rcases addAttribute_cases ha with rfl | ⟨-, rfl⟩
    · exact ih
    · exact ⟨ih.met, ih.named⟩

/-! ## Elements and choices -/

/-- If an element is in a branch of a choice, there is such a branch and it names the element. -/
def Element.Listed (choices : List ChoiceGroup) (e : Element) : Prop :=
  ∀ m, e.choice = some m → ∃ (group branch : Nat) (g : ChoiceGroup) (names : List String),
    m.group = group ∧ m.branch = branch ∧ choices[group]? = some g ∧
      g.branches[branch]? = some names ∧ e.name ∈ names

namespace StructuralType

structure KeepsChoices (t : StructuralType) : Prop where
  numbered : Numbered t.choices
  listed : ∀ e ∈ t.elements, e.Listed t.choices
  localListed : ∀ e ∈ t.localElements, e.Listed t.choices
  named : ∀ g ∈ t.choices, ∀ names ∈ g.branches, ∀ n ∈ names, n ≠ textSlotName → n ∈ t.elementNames

variable {e a b : Element} {choices more : List ChoiceGroup} {t base t' : StructuralType}

theorem listed_append (h : e.Listed choices) : e.Listed (choices ++ more) := by
  intro m hm
  obtain ⟨group, branch, g, names, hg, hb, held, hn, hmem⟩ := h m hm
  refine ⟨group, branch, g, names, hg, hb, ?_, hn, hmem⟩
  have inside : group < choices.length := (List.getElem?_eq_some_iff.mp held).1
  rw [List.getElem?_append_left inside, held]

/-- Choices that come after others are counted on, and so are the branches of elements. -/
theorem listed_shiftChoice (h : e.Listed choices) (before : List ChoiceGroup) :
    (shiftChoice before.length e).Listed (before ++ choices.map (shiftGroup before.length)) := by
  intro m hm
  obtain ⟨own, hown, rfl⟩ := Option.map_eq_some_iff.mp hm
  obtain ⟨group, branch, g, names, hg, hb, held, hn, hmem⟩ := h own hown
  refine ⟨group + before.length, branch, shiftGroup before.length g, names, ?_, hb, ?_, hn, hmem⟩
  · show own.group + (before.length : Int) = _
    rw [hg]
    push_cast
    rfl
  · rw [List.getElem?_append_right (by omega), Nat.add_sub_cancel, List.getElem?_map, held]
    rfl

/-- What an inherited element is joined to does not change its branch. -/
theorem listed_merge (h : a.Listed choices) (own : List Element) :
    (merge Element.name fold own a).Listed choices := by
  rcases merge_cases Element.name fold own a with he | ⟨e, -, -, he⟩
  · rw [he]
    exact h
  · rw [he]
    exact h

theorem mem_names_compose (h : Composed t base t') {n : String} (hn : n ≠ textSlotName)
    (hm : n ∈ t.localElements.map Element.name) : n ∈ t'.elementNames := by
  apply (mem_names_untexted hn).mp
  rw [h.untexted_elements, List.map_append, names_merge name_fold, List.mem_append]
  by_cases inherited : n ∈ (untexted base.elements).map Element.name
  · exact .inl inherited
  · right
    rw [← names_shifted t base] at hm
    obtain ⟨e, he, rfl⟩ := List.mem_map.mp hm
    have plain : e.isText = false := beq_false_of_ne hn
    refine List.mem_map_of_mem (mem_untexted.mpr ⟨?_, plain⟩)
    rw [h.localElements]
    refine List.mem_filter.mpr ⟨he, ?_⟩
    rw [plain, Bool.false_or, Bool.not_eq_true', Bool.eq_false_iff]
    exact fun known => inherited (List.contains_iff_mem.mp known)

/-- A type keeps its choices when it gets the members of its base. -/
theorem KeepsChoices.compose (ht : t.KeepsChoices) (hb : base.KeepsChoices) (own : t.OwnMembers)
    (distinct : base.Distinct) (h : t.compose base = .ok t') : t'.KeepsChoices := by
  obtain ⟨composed, -⟩ := own.compose distinct h
  have choices := choices_compose h
  have shifted : ∀ e ∈ t.shifted base, e.Listed t'.choices := by
    intro e he
    obtain ⟨e, hown, rfl⟩ := List.mem_map.mp he
    rw [choices]
    exact listed_shiftChoice (ht.localListed e hown) base.choices
  have localListed : ∀ e ∈ t'.localElements, e.Listed t'.choices := by
    intro e he
    rw [composed.localElements] at he
    exact shifted e (List.mem_filter.mp he).1
  have inherited : ∀ e ∈ base.elements, e.Listed t'.choices := by
    intro e he
    rw [choices]
    exact listed_append (hb.listed e he)
  refine ⟨choices ▸ numbered_append hb.numbered ht.numbered, fun e he => ?_, localListed, ?_⟩
  · rw [composed.elements, List.append_assoc] at he
    rcases List.mem_append.mp he with he | he
    · obtain ⟨e, hi, rfl⟩ := List.mem_map.mp he
      exact listed_merge (inherited e (mem_untexted.mp hi).1) _
    · rcases List.mem_append.mp he with he | he
      · exact localListed e (mem_untexted.mp he).1
      · exact (mem_text he).1.elim (localListed e) (inherited e)
  · intro g hg names hnames n hmem hn
    rw [choices] at hg
    rcases List.mem_append.mp hg with hg | hg
    · exact composed.mem_elementNames (hb.named g hg names hnames n hmem hn) hn
    · obtain ⟨g, hown, rfl⟩ := List.mem_map.mp hg
      refine mem_names_compose composed hn ?_
      rw [own.localElements]
      exact ht.named g hown names hnames n hmem hn

end StructuralType

namespace Compile

variable {S : Setting} {nested : Nested} {owner : Owner} {site : Site} {p q : Progress}

theorem listed_toElement {members : Members} {o : Outline} {leaf : Leaf} (nillable : Loose Bool)
    (branched : members.Branched) (meets : members.Meets S.declarations.nameOf o)
    (framed : o.Framed) (hl : leaf ∈ members.leaves) :
    (leaf.toElement nillable).Listed (members.choices o.frames) := by
  intro m hm
  obtain ⟨b, hb, rfl⟩ := Option.map_eq_some_iff.mp hm
  obtain ⟨branches, met, inside⟩ := branched.met leaf hl b hb
  obtain ⟨range, site, step, -⟩ := (meets.mem (List.ne_nil_of_mem inside)).mp met
  obtain ⟨frame, hf, hi⟩ := framed range site branches step b inside
  have held : (members.choices o.frames)[b.choice]? = o.frames[b.choice]?.map
      (members.group (0 + b.choice)) := Members.getElem?_choicesFrom o.frames 0 b.choice
  rw [hf, Nat.zero_add] at held
  refine ⟨b.choice, b.index, _, members.inBranch b, rfl, rfl, held, ?_, ?_⟩
  · show ((List.range frame.branchCount).map fun i => members.inBranch ⟨b.choice, i⟩)[b.index]? = _
    rw [List.getElem?_map, List.getElem?_range hi]
    rfl
  · exact Members.mem_inBranch.mpr ⟨branches, met, inside⟩

/-- The elements and the choices of a type that is made from a definition agree. -/
theorem Made.keepsChoices {owner : String} {name : QName} {anonymous : Bool} {t : StructuralType}
    (h : Made S owner name anonymous site t) : t.KeepsChoices := by
  obtain ⟨depth, body, p, q, -, hr, rfl⟩ := h
  obtain ⟨meets, frames⟩ := meets_bodyOf hr rfl
  have framed := Outline.framed_ofParticles S.options.choice
    (contentModel S.declarations (some owner) site)
  have branched := (collected_bodyOf hr).branched
  have elements (text : Option TypeRef) :
      ∀ e ∈ body.members.elements S.options.nillableAsOptional text,
        e.Listed (body.members.choices body.frames) := by
    intro e he
    rcases List.mem_append.mp he with he | he
    · obtain ⟨leaf, hl, rfl⟩ := List.mem_map.mp he
      rw [frames]
      exact listed_toElement _ branched meets framed (List.mem_filter.mp hl).1
    · obtain ⟨ref, -, rfl⟩ := Option.map_eq_some_iff.mp (Option.mem_toList.mp he)
      intro m hm
      cases hm
  refine ⟨StructuralType.numbered_choices _ _, elements _, elements _, ?_⟩
  intro g hg names hnames n hmem hn
  obtain ⟨b, -, hb⟩ := Members.named_choices.mp ⟨g, hg, names, hnames, hmem⟩
  obtain ⟨branches, met, -⟩ := Members.mem_inBranch.mp hb
  obtain ⟨leaf, hl, rfl⟩ := List.mem_map.mp (branched.named _ met)
  refine List.mem_map.mpr ⟨leaf.toElement S.options.nillableAsOptional, ?_, rfl⟩
  refine List.mem_append_left _ (List.mem_map_of_mem (List.mem_filter.mpr ⟨hl, ?_⟩))
  exact bne_iff_ne.mpr hn

end Compile

/-- By induction on the types that a type extends. -/
theorem Extension.Full.keepsChoices {types : Table}
    (own : ∀ x ∈ types, x.1 = x.2.name ∧ x.2.OwnMembers) (keeps : ∀ x ∈ types, x.2.KeepsChoices)
    {n : Nat} {k : Owner} {t : StructuralType} (h : Full types n k t) : t.KeepsChoices := by
  induction h with
  | own hl _ => exact keeps _ (mem_of_lookup hl)
  | extending hl _ hbase hc ih =>
    have entry := mem_of_lookup hl
    exact (keeps _ entry).compose ih (own _ entry).2 (hbase.distinct own) hc

/-! ## Catalogs -/

/-- The choices of a type are those of its base, if it extends a type, and then those of its own
content model: a branch for each part of a choice in the schema, with the names of the elements that
are reached through the part, each where it is first met. -/
structure Catalog.OrdersChoices (S : Setting) (c : Catalog) (owner : String) (site : Site)
    (t : StructuralType) (inherited own : List ChoiceGroup) : Prop where
  choices : t.choices = inherited ++ own
  unextended : t.base = none → inherited = []
  extended : ∀ base ∈ c.types, base.name.isSome = true → t.base = base.name →
    inherited = base.choices
  branches : own.map ChoiceGroup.branches
    = (Compile.choiceSites S.declarations (some owner) site).map fun choice =>
      (choice.branches (some owner)).map (Particle.reached S.declarations.nameOf)

theorem Compile.ComesOf.ordersChoices {S : Setting} {c : Catalog} {owner : String} {name : QName}
    {site : Site} {own t : StructuralType} (h : ComesOf S c owner name site own t)
    (hc : S.options.choice = .union) (names : (c.types.map (·.name)).Nodup) :
    ∃ inherited counted, c.OrdersChoices S owner site t inherited counted := by
  have branches := h.made.branches hc
  have same := h.completes.same.2.2.1
  cases h.completes with
  | own none =>
    refine ⟨[], _, rfl, fun _ => rfl, fun base _ some hb => ?_, branches⟩
    rw [← hb, none] at some
    cases some
  | extending hb hm hn composed =>
    refine ⟨_, _, StructuralType.choices_compose composed, fun none => ?_,
      fun other ho _ hother => ?_, ?_⟩
    · cases hb.symm.trans (same.symm.trans none)
    · have named := hn.trans ((hb.symm.trans same.symm).trans hother)
      rw [List.inj_on_of_nodup_map names hm ho named]
    · rw [List.map_map, ← branches]
      rfl

namespace SchemaSet

open Compile

/-- **Where branches are told apart, choices and elements agree** in all types of a catalog, and the
choices of a type's own are those of its content model. -/
theorem compile_keepsChoices {set : SchemaSet} {options : Options} {c : Catalog}
    (hc : options.choice = .union) (h : (set.compile options).result = .ok c) :
    ∃ S, Setting.ofSchemaSet set options = .ok S ∧ ∀ t ∈ c.types, t.KeepsChoices ∧
      (∃ owner name site own, ComesOf S c owner name site own t) ∧
      ∀ owner name site own, ComesOf S c owner name site own t →
        ∃ inherited counted, c.OrdersChoices S owner site t inherited counted := by
  obtain ⟨S, hs⟩ := exists_setting h
  obtain ⟨_, compiled, _, _, _, _, _, _, staged⟩ := exists_staged hs h
  have policy : S.options.choice = .union := by
    rw [(Setting.ofSchemaSet_eq_ok.mp hs).1]
    exact hc
  have keeps : ∀ x ∈ compiled.inventory.types, x.2.KeepsChoices := by
    intro x hx
    obtain ⟨owner, name, anonymous, site, -, entry⟩ := staged.established.entered x hx
    exact entry.made.keepsChoices
  refine ⟨S, hs, fun t ht => ⟨?_, exists_comesOf hs h ht, fun owner name site own comes => ?_⟩⟩
  · obtain ⟨n, k, full⟩ := staged.mem_types_iff.mp ht
    exact full.keepsChoices staged.established.entered.own keeps
  · exact comes.ordersChoices policy staged.nodup_names

/-- A choice with another one inside it, which has an element of the outer one again, and a type
that extends this and makes a choice of its own. -/
def alternatives : SchemaSet :=
  let node (tag : String) (attributes : List (String × String)) (children : List Xml.Node) :
    Xml.Node := ⟨Vocabulary.xsd, tag, attributes, [], children, "", 1⟩
  let element (name : String) := node "element" [("name", name)] []
  let inner := node "choice" [] [node "annotation" [] [], element "c", element "a"]
  let outer := node "choice" [] [element "a", node "sequence" [] [element "b", inner]]
  let base := node "complexType" [("name", "Base")] [outer]
  let extension := node "extension" [("base", "Base")] [node "choice" [] [element "d"]]
  let more := node "complexType" [("name", "More")] [node "complexContent" [] [extension]]
  ⟨"memory:t.xsd", [⟨"memory:t.xsd", "urn:t", node "schema" [] [base, more]⟩], none⟩

def branchesOf (t : StructuralType) : Option String × List (List (List String)) :=
  (t.name, t.choices.map ChoiceGroup.branches)

theorem branches_of_alternatives : (alternatives.progress { choice := .union }).inventory.types.map
      (fun x => branchesOf x.2) =
    [(some "Base", [[["a"], ["b", "c", "a"]], [["c"], ["a"]]]),
      (some "More", [[["a"], ["b", "c", "a"]], [["c"], ["a"]], [["d"]]])] := by
  decide +kernel

theorem alternatives_keepChoices : ∃ c S, (alternatives.compile { choice := .union }).result = .ok c ∧
    (c.types.map branchesOf).Perm
      [(some "Base", [[["a"], ["b", "c", "a"]], [["c"], ["a"]]]),
        (some "More", [[["a"], ["b", "c", "a"]], [["c"], ["a"]], [["d"]]])] ∧
    Setting.ofSchemaSet alternatives { choice := .union } = .ok S ∧
    ∀ t ∈ c.types, t.KeepsChoices ∧ ∃ owner name site own inherited counted,
      ComesOf S c owner name site own t ∧ c.OrdersChoices S owner site t inherited counted := by
  have compiled : (alternatives.compile { choice := .union }).result.toOption.isSome = true := by
    decide +kernel
  cases run : (alternatives.compile { choice := .union }).result with
  | error e =>
    rw [run] at compiled
    cases compiled
  | ok c =>
    obtain ⟨S, hs, keeps⟩ := compile_keepsChoices rfl run
    refine ⟨c, S, rfl, ?_, hs, fun t ht => ?_⟩
    · rw [← branches_of_alternatives, ← Function.comp_def branchesOf, ← List.map_map]
      exact (perm_progress run).map _
    · obtain ⟨kept, ⟨owner, name, site, own, comes⟩, orders⟩ := keeps t ht
      obtain ⟨inherited, counted, ordered⟩ := orders owner name site own comes
      exact ⟨kept, owner, name, site, own, inherited, counted, comes, ordered⟩

end SchemaSet

end WsdlCatalog
