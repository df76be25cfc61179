/-
  WsdlCatalog.Proofs.FullView — what a type shows beside its base.

  A type that extends another one shows the members of its base first, in their order and
  under their names. A member that it repeats keeps its type there and gets wider
  (`Element.Widens`); every other member of its own comes after them. The choices of the
  type follow those of its base and are counted on.

  A base has all its members when a type that extends it gets them, so what a type must
  know of its base (`StructuralType.Shown`) is known by induction on the bases.

  Proved: a type with a base extends what the base shows (`Extension.expand_extends`).
-/

import WsdlCatalog.Proofs.Spanning

namespace WsdlCatalog

/-! ## Elements that others are folded into -/

def Element.Bounded (e : Element) : Prop := ∃ low, e.min = .own low

structure Element.Widens (e inherited : Element) : Prop where
  name : e.name = inherited.name
  declaredType : e.declaredType = inherited.declaredType
  typeRef : e.typeRef = inherited.typeRef
  choice : e.choice = inherited.choice
  lower : ∃ low high, e.min = .own low ∧ inherited.min = .own high ∧ low ≤ high
  upper : ∀ high, e.max = some high → ∃ low, inherited.max = some low ∧ low ≤ high
  nillable : inherited.nillable.holds = true → e.nillable.holds = true
  optional : inherited.optional.holds = true → e.optional.holds = true

namespace StructuralType

variable {a b e : Element}

theorem holds_either (a b : Loose Bool) : (either a b).holds = (a.holds || b.holds) := by
  unfold either
  cases h : a.holds with
  | true => exact h
  | false => rfl

theorem joinMin_own {a b : Loose Int} {low other : Int} (ha : a = .own low) (hb : b = .own other) :
    joinMin a b = .own (min low other) := by
  subst ha hb
  rfl

theorem widens_refl (h : e.Bounded) : e.Widens e := by
  obtain ⟨low, hl⟩ := h
  exact ⟨rfl, rfl, rfl, rfl, ⟨low, low, hl, hl, le_rfl⟩, fun high hh => ⟨high, hh, le_rfl⟩, id, id⟩

theorem bounded_fold (ha : a.Bounded) (hb : b.Bounded) : (fold a b).Bounded := by
  obtain ⟨low, hl⟩ := ha
  obtain ⟨other, ho⟩ := hb
  exact ⟨_, joinMin_own hl ho⟩

theorem widens_fold (ha : a.Bounded) (hb : b.Bounded) : (fold a b).Widens a := by
  obtain ⟨low, hl⟩ := ha
  obtain ⟨other, ho⟩ := hb
  refine ⟨rfl, rfl, rfl, rfl, ⟨_, low, joinMin_own hl ho, hl, min_le_left _ _⟩, ?_, ?_, ?_⟩
  · intro high hm
    obtain ⟨x, _, hx, -, hle, -⟩ := max_of_fold hm
    exact ⟨x, hx, hle⟩
  · intro held
    show (either a.nillable b.nillable).holds = true
    rw [holds_either, held, Bool.true_or]
  · intro held
    show (either a.optional b.optional).holds = true
    rw [holds_either, held, Bool.true_or]

/-- Whatever is joined to an element, it gets wider. -/
theorem widens_merge (ha : a.Bounded) {own : List Element} (ho : ∀ e ∈ own, e.Bounded) :
    (merge Element.name fold own a).Widens a ∧ (merge Element.name fold own a).Bounded := by
  rcases merge_cases Element.name fold own a with he | ⟨e, hm, -, he⟩
  · rw [he]
    exact ⟨widens_refl ha, ha⟩
  · rw [he]
    exact ⟨widens_fold ha (ho e hm), bounded_fold ha (ho e hm)⟩

/-! ## Choices -/

def Numbered (choices : List ChoiceGroup) : Prop :=
  ∀ (i : Nat) (g : ChoiceGroup), choices[i]? = some g → g.index = i

/-- A choice that is counted from `shift`. -/
def shiftGroup (shift : Int) (g : ChoiceGroup) : ChoiceGroup := { g with index := g.index + shift }

theorem numbered_append {base own : List ChoiceGroup} (hb : Numbered base) (ho : Numbered own) :
    Numbered (base ++ own.map (shiftGroup base.length)) := by
  intro i g hg
  by_cases hi : i < base.length
  · rw [List.getElem?_append_left hi] at hg
    exact hb i g hg
  · rw [List.getElem?_append_right (not_lt.mp hi), List.getElem?_map] at hg
    obtain ⟨own, hown, rfl⟩ := Option.map_eq_some_iff.mp hg
    have index := ho _ own hown
    show own.index + _ = _
    omega

theorem index_choicesFrom (members : Members) (frames : List ChoiceFrame) :
    ∀ (first i : Nat) (g : ChoiceGroup), (members.choicesFrom first frames)[i]? = some g →
      g.index = first + i := by
  induction frames with
  | nil =>
    intro first i g hg
    cases hg
  | cons frame rest ih =>
    intro first i g hg
    unfold Members.choicesFrom at hg
    cases i with
    | zero =>
      obtain rfl := Option.some.inj hg
      simp
    | succ i =>
      rw [List.getElem?_cons_succ] at hg
      have index := ih (first + 1) i g hg
      omega

theorem numbered_choices (members : Members) (frames : List ChoiceFrame) :
    Numbered (members.choices frames) := by
  intro i g hg
  have index := index_choicesFrom members frames 0 i g hg
  omega

theorem choices_compose {t base t' : StructuralType} (h : t.compose base = .ok t') :
    t'.choices = base.choices ++ t.choices.map (shiftGroup base.choices.length) := by
  unfold compose at h
  obtain ⟨attributes, -, h⟩ := ok_bind.mp h
  obtain ⟨elements, -, h⟩ := ok_bind.mp h
  cases h
  rfl

/-! ## Types with all their members -/

def Flattened (t : StructuralType) : Prop :=
  ∃ S nested owner site p body q canonical name documentation anonymous,
    Compile.Runs (Compile.bodyOf S nested owner site) p body q ∧
      t = body.toType S.options canonical name documentation anonymous

theorem Flattened.ownMembers {t : StructuralType} (h : t.Flattened) : t.OwnMembers := by
  obtain ⟨S, nested, owner, site, p, body, q, canonical, name, documentation, anonymous, hr, rfl⟩ := h
  exact Compile.ownMembers_toType (Compile.collected_bodyOf hr) _ _ _ _ _

structure Shown (t : StructuralType) : Prop extends Distinct t where
  bounded : ∀ e ∈ t.elements, e.Bounded
  numbered : Numbered t.choices
  localElements : ∀ e ∈ t.localElements, e ∈ t.elements
  localAttributes : ∀ a ∈ t.localAttributes, a ∈ t.attributes

theorem Flattened.shown {t : StructuralType} (h : t.Flattened) : t.Shown := by
  refine ⟨h.ownMembers.toDistinct, ?_, ?_, fun e he => ?_, fun a ha => ?_⟩
  · obtain ⟨S, nested, owner, site, p, body, q, canonical, name, documentation, anonymous, -, rfl⟩ := h
    intro e he
    rcases List.mem_append.mp he with he | he
    · obtain ⟨leaf, -, rfl⟩ := List.mem_map.mp he
      exact ⟨_, rfl⟩
    · obtain ⟨ref, -, rfl⟩ := Option.map_eq_some_iff.mp (Option.mem_toList.mp he)
      exact ⟨_, rfl⟩
  · obtain ⟨S, nested, owner, site, p, body, q, canonical, name, documentation, anonymous, -, rfl⟩ := h
    exact numbered_choices _ _
  · rwa [h.ownMembers.localElements] at he
  · rwa [h.ownMembers.localAttributes] at ha

/-- A type shows what its base shows, and then its own members and choices. -/
structure Extends (t base own : StructuralType) : Prop where
  elementNames : (untexted t.elements).map Element.name
    = (untexted base.elements).map Element.name ++ (untexted t.localElements).map Element.name
  attributeNames : t.attributes.map Attribute.name
    = base.attributes.map Attribute.name ++ t.localAttributes.map Attribute.name
  distinct : t.Distinct
  inheritedElements : ∀ e ∈ base.elements, e.isText = false → ∃ e' ∈ t.elements, e'.Widens e
  inheritedAttributes : ∀ a ∈ base.attributes, ∃ a' ∈ t.attributes,
    a'.name = a.name ∧ a'.declaredType = a.declaredType ∧ a'.typeRef = a.typeRef
  localElements : ∀ e ∈ t.localElements, e ∈ t.elements
  localAttributes : ∀ a ∈ t.localAttributes, a ∈ t.attributes
  choices : t.choices = base.choices ++ own.choices.map (shiftGroup base.choices.length)
  numbered : Numbered t.choices

variable {t base t' : StructuralType}

theorem isText_merge (own : List Element) (e : Element) :
    (merge Element.name fold own e).isText = e.isText :=
  isText_congr (nameOf_merge name_fold own e)

theorem untexted_of_plain {elements : List Element} (h : ∀ e ∈ elements, e.isText = false) :
    untexted elements = elements :=
  List.filter_eq_self.mpr fun e he => by rw [h e he]; rfl

/-- The elements besides the text slot are those of the base and then the own ones. -/
theorem Composed.untexted_elements (h : Composed t base t') :
    untexted t'.elements
      = (untexted base.elements).map (merge Element.name fold (untexted (t.shifted base)))
        ++ untexted t'.localElements := by
  have inherited : ∀ e ∈ (untexted base.elements).map
      (merge Element.name fold (untexted (t.shifted base))), e.isText = false := by
    rw [List.forall_mem_map]
    intro e he
    rw [isText_merge]
    exact (mem_untexted.mp he).2
  have text : untexted ((t'.localElements.find? (·.isText)).or base.textSlot?).toList = [] := by
    refine List.filter_eq_nil_iff.mpr fun e he => ?_
    rw [show e.isText = true from beq_iff_eq.mpr (mem_text he).2]
    exact Bool.false_ne_true
  rw [h.elements, untexted, List.filter_append, List.filter_append]
  show untexted _ ++ untexted (untexted _) ++ untexted _ = _
  rw [untexted_of_plain inherited, text, List.append_nil,
    untexted_of_plain fun e he => (mem_untexted.mp he).2]

theorem bounded_shifted (h : ∀ e ∈ t.localElements, e.Bounded) : ∀ e ∈ t.shifted base, e.Bounded := by
  intro e he
  obtain ⟨own, hown, rfl⟩ := List.mem_map.mp he
  exact h own hown

theorem Composed.bounded (h : Composed t base t') (ht : ∀ e ∈ t.localElements, e.Bounded)
    (hb : ∀ e ∈ base.elements, e.Bounded) : ∀ e ∈ t'.elements, e.Bounded := by
  have shifted : ∀ e ∈ t.shifted base, e.Bounded := bounded_shifted ht
  have own : ∀ e ∈ t'.localElements, e.Bounded := by
    intro e he
    rw [h.localElements] at he
    exact shifted e (List.mem_filter.mp he).1
  intro e he
  rw [h.elements, List.append_assoc] at he
  rcases List.mem_append.mp he with he | he
  · obtain ⟨inherited, hi, rfl⟩ := List.mem_map.mp he
    exact (widens_merge (hb _ (mem_untexted.mp hi).1)
      fun e he => shifted e (mem_untexted.mp he).1).2
  · rcases List.mem_append.mp he with he | he
    · exact own e (mem_untexted.mp he).1
    · exact (mem_text he).1.elim (own e) (hb e)

/-- A flattened type with the members of a base extends what the base shows. -/
theorem Flattened.extends (ht : t.Flattened) (hb : base.Shown) (h : t.compose base = .ok t') :
    t'.Extends base t := by
  obtain ⟨composed, distinct⟩ := ht.ownMembers.compose hb.toDistinct h
  have choices := choices_compose h
  have ownNames : (t.localElements.map Element.name).Nodup :=
    ht.ownMembers.localElements ▸ ht.ownMembers.elements
  have bounded : ∀ e ∈ t.localElements, e.Bounded :=
    fun e he => ht.shown.bounded e (ht.shown.localElements e he)
  refine ⟨?_, ?_, distinct, fun e he plain => ?_, fun a ha => ?_, fun e he => ?_, fun a ha => ?_,
    choices, choices ▸ numbered_append hb.numbered ht.shown.numbered⟩
  · rw [composed.untexted_elements, List.map_append, names_merge name_fold]
  · rw [composed.attributes, List.map_append, names_merge name_reuse, composed.localAttributes]
  · refine ⟨_, composed.mem_merged he plain, ?_⟩
    exact (widens_merge (hb.bounded e he)
      fun own ho => bounded_shifted bounded own (mem_untexted.mp ho).1).1
  · refine ⟨_, composed.attributes ▸ List.mem_append_left _ (List.mem_map_of_mem ha), ?_⟩
    rcases merge_cases Attribute.name reuse t.localAttributes a with he | ⟨own, -, -, he⟩
    · rw [he]
      exact ⟨rfl, rfl, rfl⟩
    · rw [he]
      exact ⟨rfl, rfl, rfl⟩
  · exact composed.mem_elements ownNames he
  · rw [composed.attributes, ← composed.localAttributes]
    exact List.mem_append_right _ ha

/-- So it shows all its members, too. -/
theorem Flattened.shown_compose (ht : t.Flattened) (hb : base.Shown) (h : t.compose base = .ok t') :
    t'.Shown := by
  have given := ht.extends hb h
  obtain ⟨composed, -⟩ := ht.ownMembers.compose hb.toDistinct h
  have bounded := composed.bounded
    (fun e he => ht.shown.bounded e (ht.shown.localElements e he)) hb.bounded
  exact ⟨given.distinct, bounded, given.numbered, given.localElements, given.localAttributes⟩

end StructuralType

namespace Extension

variable {types full : Table}

theorem Full.shown (flattened : ∀ x ∈ types, x.2.Flattened) {n : Nat} {name : Owner}
    {t : StructuralType} (h : Full types n name t) : t.Shown := by
  induction h with
  | own hl _ => exact (flattened _ (mem_of_lookup hl)).shown
  | extending hl _ _ hc ih => exact (flattened _ (mem_of_lookup hl)).shown_compose ih hc

/-- **A type with a base extends what the base shows**, whatever types were made from
definitions and got the members of their bases. -/
theorem expand_extends (flattened : ∀ x ∈ types, x.2.Flattened) (h : expand types = .ok full) :
    ∀ name t b, (name, t) ∈ full → t.base = some b →
      ∃ base own, full.lookup (some b) = some base ∧ types.lookup name = some own ∧
        t.Extends base own := by
  obtain ⟨finished, keys⟩ := expand_sound h
  intro name t b hm hb
  obtain ⟨n, ht⟩ := finished.full _ hm
  cases ht with
  | own _ none => cases none.symm.trans hb
  | extending hl hb' hbase hc =>
    obtain rfl := Option.some.inj (hb'.symm.trans ((StructuralType.compose_same hc).2.2.symm.trans hb))
    obtain ⟨⟨key, base⟩, held, rfl⟩ := List.mem_map.mp ((keys _).mpr hbase.mem_keys)
    obtain ⟨m, hbase'⟩ := finished.full _ held
    obtain ⟨-, rfl⟩ := hbase'.unique hbase
    exact ⟨base, _, lookup_of_mem finished.nodup held, hl,
      (flattened _ (mem_of_lookup hl)).extends (hbase.shown flattened) hc⟩

end Extension

namespace Compile

/-- The types that a compilation enters were made from definitions. -/
theorem Entered.flattened {S : Setting} {i : Inventory} (h : Entered S i) :
    ∀ x ∈ i.types, x.2.Flattened := by
  intro x hx
  obtain ⟨owner, name, anonymous, site, -, entry⟩ := h x hx
  obtain ⟨depth, body, p, q, -, hr, made⟩ := entry.made
  exact ⟨S, _, _, site, p, body, q, _, _, _, _, hr, made⟩

end Compile

namespace SchemaSet

/-- The types of a catalog are those that its compilation ends with. -/
theorem perm_progress {set : SchemaSet} {options : Options} {c : Catalog}
    (h : (set.compile options).result = .ok c) :
    c.types.Perm ((set.progress options).inventory.types.map (·.2)) := by
  obtain ⟨S, hs⟩ := exists_setting h
  rw [result_compile hs] at h
  obtain ⟨_, _, _, _, _, _, _, staged⟩ := Compile.runs_catalog.mp (Prod.ext h rfl)
  rw [progress_eq hs, staged.described.1]
  exact staged.perm_types

/-- What is wanted of the types of a catalog can be read off the entries of its compilation. -/
theorem exists_compiled {α : Type} {set : SchemaSet} {options : Options} {project : StructuralType → α}
    {projected : List α} (compiled : (set.compile options).result.toOption.isSome = true)
    (entries : (set.progress options).inventory.types.map (fun x => project x.2) = projected) :
    ∃ c, (set.compile options).result = .ok c ∧ (c.types.map project).Perm projected := by
  obtain ⟨c, run⟩ := exists_ok compiled
  refine ⟨c, run, ?_⟩
  rw [← entries, ← Function.comp_def project, ← List.map_map]
  exact (perm_progress run).map _

/-! ## A type that repeats what it extends -/

/-- A type with an element, an attribute and text, and a type that extends it and has all of
these, too. -/
def replies : SchemaSet :=
  let node (tag : String) (attributes : List (String × String)) (children : List Xml.Node) :
    Xml.Node := ⟨Vocabulary.xsd, tag, attributes, [], children, "", 1⟩
  let element (name : String) := node "element" [("name", name)] []
  let lang (use : String) := node "attribute" [("name", "lang"), ("use", use)] []
  let note := node "complexType" [("name", "Note"), ("mixed", "true")]
    [node "sequence" [] [element "subject"], lang "optional"]
  let extension := node "extension" [("base", "Note")]
    [node "sequence" [] [element "subject", element "answer"], lang "required"]
  let reply := node "complexType" [("name", "Reply")]
    [node "complexContent" [("mixed", "true")] [extension]]
  ⟨"memory:t.xsd", [⟨"memory:t.xsd", "urn:t", node "schema" [] [note, reply]⟩], none⟩

/-- The name of a type and of its base, all its elements and those of its own. -/
def namesOf (t : StructuralType) : Option String × Option String × List String × List String :=
  (t.name, t.base, t.elementNames, t.localElements.map (·.name))

/-- The text slot is an element of the base and one of the type's own; the other element that both
have is no longer the type's own. -/
theorem exists_of_replies : ∃ c, (replies.compile {}).result = .ok c ∧ (c.types.map namesOf).Perm
    [(some "Note", none, ["subject", "$value"], ["subject", "$value"]),
      (some "Reply", some "Note", ["subject", "answer", "$value"], ["answer", "$value"])] :=
  exists_compiled (by decide +kernel) (by decide +kernel)

theorem replies_extend : ∃ types full name t, (∀ x ∈ types, x.2.Flattened) ∧
    Extension.expand types = .ok full ∧ (name, t) ∈ full ∧ t.base = some "Note" ∧
    ∃ base own, full.lookup (some "Note") = some base ∧ types.lookup name = some own ∧
      t.Extends base own := by
  obtain ⟨c, run, names⟩ := exists_of_replies
  obtain ⟨S, hs⟩ := exists_setting run
  obtain ⟨_, compiled, types, _, _, _, _, _, staged⟩ := exists_staged hs run
  obtain ⟨t, ht, reply⟩ :=
    List.mem_map.mp (names.mem_iff.mpr (List.mem_cons_of_mem _ List.mem_cons_self))
  obtain ⟨⟨name, _⟩, entry, rfl⟩ := List.mem_map.mp (staged.perm_types.mem_iff.mp ht)
  have base := (Prod.mk.inj (Prod.mk.inj reply).2).1
  have flattened := staged.established.entered.flattened
  exact ⟨_, types, name, _, flattened, staged.expand, entry, base,
    Extension.expand_extends flattened staged.expand name _ "Note" entry base⟩

end SchemaSet

end WsdlCatalog
