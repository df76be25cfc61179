/-
  WsdlCatalog.Proofs.EmissionOrder — the order in which the members of a type are emitted.

  Members are sorted by a key of flags and a name. A flag cuts a sorted list into two blocks,
  which are sorted by the rest of the key (`sorted_blocks`), and what is left after the last
  flag is the order of names.

  What tells inherited members from the type's own looks a name up among its elements and its
  attributes alike. So a member of the base is emitted among the type's own ones if the type has
  a member of the other kind under its name.

  Proved: of a type with a base, elements of the base are emitted first, then the type's own,
  then the text slot, and attributes alike, with members that share their names with own ones
  of the other kind among the latter (`SchemaSet.compile_emitsAfter`). Such members do come
  behind the type's own ones, though the base has them (`SchemaSet.namesakes_emittedLate`).
-/

import WsdlCatalog.Proofs.TextSlot

namespace WsdlCatalog

namespace StructuralType

/-! ## Keys -/

theorem keyLe_iff {a b : List Nat × String} :
    keyLe a b = true ↔ a.1 < b.1 ∨ a.1 = b.1 ∧ a.2 ≤ b.2 := by
  unfold keyLe
  by_cases same : a.1 = b.1
  · rw [if_pos (beq_iff_eq.mpr same), decide_eq_true_eq, same]
    have irrefl : ¬ b.1 < b.1 := lt_irrefl _
    tauto
  · rw [if_neg fun h => same (eq_of_beq h), Bool.not_eq_true', Bool.eq_false_iff, Ne,
      List.lex_eq_true_iff_lt, not_lt, le_iff_lt_or_eq]
    tauto

theorem keyLe_trans (a b c : List Nat × String) (hab : keyLe a b = true) (hbc : keyLe b c = true) :
    keyLe a c = true := by
  rw [keyLe_iff] at hab hbc ⊢
  rcases hab with hab | ⟨hab, nab⟩
  · rcases hbc with hbc | ⟨hbc, -⟩
    · exact .inl (hab.trans hbc)
    · exact .inl (hbc ▸ hab)
  · rcases hbc with hbc | ⟨hbc, nbc⟩
    · exact .inl (hab ▸ hbc)
    · exact .inr ⟨hab.trans hbc, String.le_trans nab nbc⟩

theorem keyLe_total (a b : List Nat × String) : (keyLe a b || keyLe b a) = true := by
  rw [Bool.or_eq_true, keyLe_iff, keyLe_iff]
  rcases lt_trichotomy a.1 b.1 with h | h | h
  · exact .inl (.inl h)
  · exact (String.le_total a.2 b.2).imp (fun n => .inr ⟨h, n⟩) fun n => .inr ⟨h.symm, n⟩
  · exact .inr (.inl h)

theorem keyLe_antisymm {a b : List Nat × String} (hab : keyLe a b = true) (hba : keyLe b a = true) :
    a = b := by
  rw [keyLe_iff] at hab hba
  rcases hab with hab | ⟨same, hab⟩
  · rcases hba with hba | ⟨same, -⟩
    · exact absurd hba hab.asymm
    · exact absurd same hab.ne'
  · rcases hba with hba | ⟨-, hba⟩
    · exact absurd same hba.ne'
    · exact Prod.ext same (String.le_antisymm hab hba)

/-- The first flag decides, and the rest of the key where the flags agree. -/
theorem keyLe_flag {p q : Bool} {k l : List Nat} {n m : String}
    (h : keyLe (p.toNat :: k, n) (q.toNat :: l, m) = true) :
    (q = false → p = false) ∧ (p = q → keyLe (k, n) (l, m) = true) := by
  rw [keyLe_iff, List.cons_lt_cons_iff, List.cons.injEq] at h
  rw [keyLe_iff]
  cases p <;> cases q <;> simp_all

/-! ## Blocks -/

section

variable {α : Type} {members : List α}

/-- A list in which nothing with a property follows something without it. -/
theorem filter_append_filter {p : α → Bool}
    (h : members.Pairwise fun a b => p b = false → p a = false) :
    members = members.filter (!p ·) ++ members.filter p := by
  induction members with
  | nil => rfl
  | cons a rest ih =>
    obtain ⟨first, others⟩ := List.pairwise_cons.mp h
    cases hp : p a with
    | false =>
      rw [List.filter_cons_of_pos (by rw [hp]; rfl), List.filter_cons_of_neg (by rw [hp]; decide),
        List.cons_append, ← ih others]
    | true =>
      have after : ∀ b ∈ rest, p b = true := by
        intro b hb
        by_contra hn
        exact Bool.false_ne_true ((first b hb (Bool.eq_false_of_not_eq_true hn)).symm.trans hp)
      have none : (a :: rest).filter (!p ·) = [] := by
        refine List.filter_eq_nil_iff.mpr fun b hb => ?_
        rcases List.mem_cons.mp hb with rfl | hb
        · rw [hp]
          decide
        · rw [after b hb]
          decide
      rw [none, List.nil_append]
      refine (List.filter_eq_self.mpr fun b hb => ?_).symm
      rcases List.mem_cons.mp hb with rfl | hb
      · exact hp
      · exact after b hb

/-- Members that are sorted by a flag and a key come in two blocks that are sorted by the key. -/
theorem sorted_blocks (p : α → Bool) (key : α → List Nat × String)
    (sorted : members.Pairwise fun a b =>
      keyLe ((p a).toNat :: (key a).1, (key a).2) ((p b).toNat :: (key b).1, (key b).2) = true) :
    members = members.filter (!p ·) ++ members.filter p ∧
      (members.filter (!p ·)).Pairwise (fun a b => keyLe (key a) (key b) = true) ∧
      (members.filter p).Pairwise fun a b => keyLe (key a) (key b) = true := by
  refine ⟨filter_append_filter (sorted.imp fun h => (keyLe_flag h).1), ?_, ?_⟩
  · refine (sorted.filter _).imp_of_mem ?_
    intro a b ha hb h
    have pa := (List.mem_filter.mp ha).2
    have pb := (List.mem_filter.mp hb).2
    rw [Bool.not_eq_true'] at pa pb
    exact (keyLe_flag h).2 (pa.trans pb.symm)
  · refine (sorted.filter _).imp_of_mem ?_
    intro a b ha hb h
    exact (keyLe_flag h).2 ((List.mem_filter.mp ha).2.trans (List.mem_filter.mp hb).2.symm)

/-- Required members come before optional ones, and otherwise in the order of their names. -/
def Precedes (required : α → Bool) (nameOf : α → String) (a b : α) : Prop :=
  (required a = true ∧ required b = false) ∨ (required a = required b ∧ nameOf a < nameOf b)

variable {required : α → Bool} {nameOf : α → String}

/-- Members of different names that are sorted by the last flag and their names. -/
theorem pairwise_precedes (distinct : (members.map nameOf).Nodup)
    (sorted : members.Pairwise fun a b =>
      keyLe ([(!required a).toNat], nameOf a) ([(!required b).toNat], nameOf b) = true) :
    members.Pairwise (Precedes required nameOf) := by
  have apart : members.Pairwise fun a b => nameOf a ≠ nameOf b := List.pairwise_map.mp distinct
  refine (sorted.and apart).imp ?_
  intro a b given
  obtain ⟨h, different⟩ := given
  obtain ⟨before, names⟩ := keyLe_flag h
  by_cases same : required a = required b
  · right
    refine ⟨same, ?_⟩
    rcases keyLe_iff.mp (names (by rw [same])) with less | ⟨-, le⟩
    · exact absurd less (lt_irrefl _)
    · exact String.not_le.mp fun ge => different (String.le_antisymm le ge)
  · left
    cases ha : required a <;> cases hb : required b <;> simp_all

end

/-! ## Members in the order of emission -/

variable {t base : StructuralType}

theorem pairwise_sorted {α : Type} (key : α → List Nat × String) (members : List α) :
    (members.mergeSort fun a b => keyLe (key a) (key b)).Pairwise
      fun a b => keyLe (key a) (key b) = true :=
  List.pairwise_mergeSort (fun a b c => keyLe_trans (key a) (key b) (key c))
    (fun a b => keyLe_total (key a) (key b)) members

/-- The text slot is all that is left of the elements when those of other names are taken out. -/
theorem SlotLast.filter_isText (h : t.SlotLast) :
    t.elements.filter (·.isText) = t.textSlot?.toList := by
  obtain ⟨members, elements, plain⟩ := h
  have none : members.filter (·.isText) = [] := by
    refine List.filter_eq_nil_iff.mpr fun e he text => ?_
    exact plain e he (eq_of_beq text)
  rw [elements, List.filter_append, none, List.nil_append]
  refine List.filter_eq_self.mpr fun e he => ?_
  have text : e.isText = true := List.find?_some (Option.mem_toList.mp he)
  exact text

/-- Members with a property come before those without it, with required members first and then in
the order of names among either. -/
def InBlocks {α : Type} (required : α → Bool) (nameOf : α → String) (first : α → Prop)
    (emitted : List α) : Prop :=
  ∃ front back, emitted = front ++ back ∧
    front.Pairwise (Precedes required nameOf) ∧ back.Pairwise (Precedes required nameOf) ∧
    (∀ e ∈ front, first e) ∧ ∀ e ∈ back, ¬ first e

section

variable {α : Type} {emitted : List α}

theorem inBlocks_of_sorted (required inherited : α → Bool) (nameOf : α → String)
    (distinct : (emitted.map nameOf).Nodup)
    (sorted : emitted.Pairwise fun a b =>
      keyLe ([(!inherited a).toNat, (!required a).toNat], nameOf a)
        ([(!inherited b).toNat, (!required b).toNat], nameOf b) = true) :
    InBlocks required nameOf (inherited · = true) emitted := by
  obtain ⟨whole, front, back⟩ := sorted_blocks (fun e => !inherited e)
    (fun e => ([(!required e).toNat], nameOf e)) sorted
  have part (p : α → Bool) : ((emitted.filter p).map nameOf).Nodup :=
    distinct.sublist (List.filter_sublist.map _)
  refine ⟨_, _, whole, pairwise_precedes (part _) front, pairwise_precedes (part _) back,
    fun e he => ?_, fun e he => ?_⟩
  · have inherited := (List.mem_filter.mp he).2
    rwa [Bool.not_not] at inherited
  · exact Bool.eq_false_iff.mp ((Bool.not_eq_true' _).mp (List.mem_filter.mp he).2)

theorem InBlocks.congr {required : α → Bool} {nameOf : α → String} {first first' : α → Prop}
    (h : InBlocks required nameOf first emitted) (same : ∀ e ∈ emitted, first e ↔ first' e) :
    InBlocks required nameOf first' emitted := by
  obtain ⟨front, back, rfl, sortedFront, sortedBack, allFront, allBack⟩ := h
  refine ⟨front, back, rfl, sortedFront, sortedBack, fun e he => ?_, fun e he => ?_⟩
  · exact (same e (List.mem_append_left _ he)).mp (allFront e he)
  · exact fun given => allBack e he ((same e (List.mem_append_right _ he)).mpr given)

end

/-- The elements that are emitted: those with a property, the other ones, and the text slot. -/
def EmitsElements (t : StructuralType) (first : Element → Prop) : Prop :=
  t.orderedElements.Perm t.elements ∧
    ∃ members, t.orderedElements = members ++ t.textSlot?.toList ∧
      (∀ e ∈ members, e.name ≠ textSlotName) ∧
      InBlocks Element.isRequired Element.name first members

/-- The attributes that are emitted: those with a property, and the other ones. -/
def EmitsAttributes (t : StructuralType) (first : Attribute → Prop) : Prop :=
  t.orderedAttributes.Perm t.attributes ∧
    InBlocks Attribute.isRequired Attribute.name first t.orderedAttributes

theorem emitsElements (slot : t.SlotLast) (distinct : t.Distinct) :
    t.EmitsElements (t.isInherited ·.name = true) := by
  have perm := t.orderedElements_perm
  have sorted : t.orderedElements.Pairwise fun a b =>
      keyLe (t.elementKey a) (t.elementKey b) = true := pairwise_sorted t.elementKey t.elements
  unfold EmitsElements
  generalize t.orderedElements = ordered at perm sorted ⊢
  obtain ⟨whole, plain, -⟩ := sorted_blocks (fun e : Element => e.isText)
    (fun e => ([(!t.isInherited e.name).toNat, (!e.isRequired).toNat], e.name)) sorted
  have text : ordered.filter (·.isText) = t.textSlot?.toList := by
    have same := perm.filter (·.isText)
    rw [slot.filter_isText] at same
    cases hs : t.textSlot? with
    | none =>
      rw [hs] at same
      exact same.eq_nil
    | some e =>
      rw [hs] at same
      exact List.perm_singleton.mp same
  rw [text] at whole
  have names : ((untexted ordered).map Element.name).Nodup :=
    nodup_untexted ((perm.map Element.name).nodup_iff.mpr distinct.elements)
  refine ⟨perm, untexted ordered, whole, fun e he => ?_, ?_⟩
  · exact ne_of_beq_false (mem_untexted.mp he).2
  · exact inBlocks_of_sorted Element.isRequired (fun e => t.isInherited e.name) Element.name names
      plain

theorem emitsAttributes (distinct : t.Distinct) :
    t.EmitsAttributes (t.isInherited ·.name = true) := by
  have perm := t.orderedAttributes_perm
  have sorted : t.orderedAttributes.Pairwise fun a b =>
      keyLe (t.attributeKey a) (t.attributeKey b) = true :=
    pairwise_sorted t.attributeKey t.attributes
  unfold EmitsAttributes
  generalize t.orderedAttributes = ordered at perm sorted ⊢
  exact ⟨perm, inBlocks_of_sorted Attribute.isRequired (fun a => t.isInherited a.name) Attribute.name
    ((perm.map Attribute.name).nodup_iff.mpr distinct.attributes) sorted⟩

theorem InBlocks.pairwise {α : Type} {required : α → Bool} {nameOf : α → String} {first : α → Prop}
    {emitted : List α} (h : InBlocks required nameOf first emitted) :
    emitted.Pairwise fun a b => first b → first a := by
  obtain ⟨front, back, rfl, -, -, allFront, allBack⟩ := h
  refine List.pairwise_append.mpr ⟨?_, ?_, fun a ha _ _ _ => allFront a ha⟩
  · exact List.pairwise_of_forall_mem_list fun a ha _ _ _ => allFront a ha
  · exact List.pairwise_of_forall_mem_list fun _ _ b hb given => absurd given (allBack b hb)

theorem EmitsElements.pairwise {first : String → Prop} (h : t.EmitsElements (first ·.name)) :
    (t.orderedElements.map Element.name).Pairwise
      fun a b => b ≠ textSlotName → first b → first a := by
  obtain ⟨-, members, whole, plain, blocks⟩ := h
  rw [whole]
  refine List.pairwise_map.mpr (List.pairwise_append.mpr ⟨?_, ?_, ?_⟩)
  · exact blocks.pairwise.imp fun h _ given => h given
  · cases t.textSlot? with
    | none => exact .nil
    | some e => exact List.pairwise_singleton _ e
  · intro a _ e he different
    have text : e.isText = true := List.find?_some (Option.mem_toList.mp he)
    exact absurd (eq_of_beq text) different

theorem EmitsAttributes.pairwise {first : String → Prop} (h : t.EmitsAttributes (first ·.name)) :
    (t.orderedAttributes.map Attribute.name).Pairwise fun a b => first b → first a :=
  List.pairwise_map.mpr h.2.pairwise

theorem EmitsElements.congr {first first' : Element → Prop} (h : t.EmitsElements first)
    (same : ∀ e ∈ untexted t.elements, first e ↔ first' e) : t.EmitsElements first' := by
  obtain ⟨perm, members, whole, plain, blocks⟩ := h
  refine ⟨perm, members, whole, plain, blocks.congr fun e he => same e ?_⟩
  exact mem_untexted.mpr ⟨perm.subset (whole ▸ List.mem_append_left _ he),
    beq_false_of_ne (plain e he)⟩

theorem EmitsAttributes.congr {first first' : Attribute → Prop} (h : t.EmitsAttributes first)
    (same : ∀ a ∈ t.attributes, first a ↔ first' a) : t.EmitsAttributes first' :=
  ⟨h.1, h.2.congr fun a ha => same a (h.1.subset ha)⟩

/-! ## Types that extend others -/

/-- The order of the members of a type with a base. -/
structure EmitsAfter (t base : StructuralType) : Prop where
  ownElements : ∀ e ∈ untexted t.elements, e.name ∈ base.elementNames ↔ e ∉ t.localElements
  ownAttributes : ∀ a ∈ t.attributes, a.name ∈ base.attributeNames ↔ a ∉ t.localAttributes
  /-- An element that the base has comes among the type's own ones if the type has an attribute
  of its own under the name. -/
  elements : t.EmitsElements fun e => e.name ∈ base.elementNames ∧ e.name ∉ t.localAttributeNames
  attributes : t.EmitsAttributes fun a =>
    a.name ∈ base.attributeNames ∧ a.name ∉ t.localElementNames
  /-- All elements of the base come first if there is no such attribute. -/
  inheritedElements : (∀ name ∈ t.localAttributeNames, name ∉ base.elementNames) →
    t.EmitsElements (·.name ∈ base.elementNames)
  inheritedAttributes : (∀ name ∈ t.localElementNames, name ∉ base.attributeNames) →
    t.EmitsAttributes (·.name ∈ base.attributeNames)

/-- Names in two parts that share none. -/
theorem mem_front_iff {front back : List String} {name : String} (distinct : (front ++ back).Nodup)
    (h : name ∈ front ++ back) : name ∈ front ↔ name ∉ back := by
  constructor
  · exact fun hf hb => List.disjoint_of_nodup_append distinct hf hb
  · exact (List.mem_append.mp h).resolve_right

theorem name_mem_iff {α : Type} {nameOf : α → String} {members own : List α}
    (distinct : (members.map nameOf).Nodup) (sub : ∀ e ∈ own, e ∈ members) {e : α}
    (he : e ∈ members) : nameOf e ∈ own.map nameOf ↔ e ∈ own := by
  constructor
  · intro h
    obtain ⟨e', he', same⟩ := List.mem_map.mp h
    exact List.inj_on_of_nodup_map distinct (sub e' he') he same ▸ he'
  · exact List.mem_map_of_mem

variable {own : StructuralType}

theorem Extends.base_element_iff (h : t.Extends base own) {e : Element}
    (he : e ∈ untexted t.elements) : e.name ∈ base.elementNames ↔ e.name ∉ t.localElementNames := by
  have plain : e.name ≠ textSlotName := ne_of_beq_false (mem_untexted.mp he).2
  have distinct := nodup_untexted h.distinct.elements
  have name : e.name ∈ (untexted t.elements).map Element.name := List.mem_map_of_mem he
  rw [h.elementNames] at distinct name
  have parts := mem_front_iff distinct name
  rwa [mem_names_untexted plain, mem_names_untexted plain] at parts

theorem Extends.base_attribute_iff (h : t.Extends base own) {a : Attribute} (ha : a ∈ t.attributes) :
    a.name ∈ base.attributeNames ↔ a.name ∉ t.localAttributeNames := by
  have distinct := h.distinct.attributes
  have name : a.name ∈ t.attributes.map Attribute.name := List.mem_map_of_mem ha
  rw [h.attributeNames] at distinct name
  exact mem_front_iff distinct name

theorem Extends.emitsAfter (h : t.Extends base own) (slot : t.SlotLast) : t.EmitsAfter base := by
  have elements : t.EmitsElements fun e =>
      e.name ∈ base.elementNames ∧ e.name ∉ t.localAttributeNames := by
    refine (emitsElements slot h.distinct).congr fun e he => ?_
    have name : e.name ∈ t.elementNames := List.mem_map_of_mem (mem_untexted.mp he).1
    rw [isInherited_iff, h.base_element_iff he]
    tauto
  have attributes : t.EmitsAttributes fun a =>
      a.name ∈ base.attributeNames ∧ a.name ∉ t.localElementNames := by
    refine (emitsAttributes h.distinct).congr fun a ha => ?_
    have name : a.name ∈ t.attributeNames := List.mem_map_of_mem ha
    rw [isInherited_iff, h.base_attribute_iff ha]
    tauto
  refine ⟨fun e he => ?_, fun a ha => ?_, elements, attributes, fun apart => ?_, fun apart => ?_⟩
  · rw [h.base_element_iff he]
    exact not_congr (name_mem_iff h.distinct.elements h.localElements (mem_untexted.mp he).1)
  · rw [h.base_attribute_iff ha]
    exact not_congr (name_mem_iff h.distinct.attributes h.localAttributes ha)
  · exact elements.congr fun e _ => and_iff_left_of_imp fun hb hl => apart _ hl hb
  · exact attributes.congr fun a _ => and_iff_left_of_imp fun hb hl => apart _ hl hb

end StructuralType

namespace SchemaSet

/-- **The members of a type that extends another are emitted after those that it has from there**,
required ones first and then in the order of names, and the text slot behind all other
elements. An inherited member comes among the type's own ones if the type has one of the other
kind under its name. -/
theorem compile_emitsAfter {set : SchemaSet} {options : Options} {c : Catalog}
    (h : (set.compile options).result = .ok c) :
    ∀ t ∈ c.types, ∀ b, t.base = some b →
      (∃ base ∈ c.types, base.name = some b) ∧
        ∀ base ∈ c.types, base.name = some b → t.EmitsAfter base := by
  obtain ⟨S, hs⟩ := exists_setting h
  obtain ⟨_, _, _, _, _, _, _, _, staged⟩ := exists_staged hs h
  have flattened := staged.established.entered.flattened
  intro t ht b hb
  obtain ⟨n, k, full⟩ := staged.mem_types_iff.mp ht
  have slot := (staged.slotted full).last
  cases full with
  | own _ none => cases none.symm.trans hb
  | extending hl hb' hbase hc =>
    obtain rfl := Option.some.inj (hb'.symm.trans ((StructuralType.compose_same hc).2.2.symm.trans hb))
    have hm := staged.mem_types_iff.mpr ⟨_, _, hbase⟩
    have hn := hbase.named staged.established.entered.own
    refine ⟨⟨_, hm, hn⟩, fun base member named => ?_⟩
    obtain rfl := List.inj_on_of_nodup_map staged.nodup_names member hm (named.trans hn.symm)
    exact ((flattened _ (mem_of_lookup hl)).extends (hbase.shown flattened) hc).emitsAfter slot

/-! ## Members that share names with members of the other kind -/

/-- A type with an element and an attribute, a type that extends it, and one that extends it and
has attributes and elements under names of members of the other kind. -/
def namesakes : SchemaSet :=
  let node (tag : String) (attributes : List (String × String)) (children : List Xml.Node) :
    Xml.Node := ⟨Vocabulary.xsd, tag, attributes, [("xs", some Vocabulary.xsd)], children, "", 1⟩
  let members (elements attributes : List String) :=
    node "sequence" [] (elements.map fun name => node "element" [("name", name), ("type", "xs:int")] [])
      :: attributes.map fun name => node "attribute" [("name", name), ("type", "xs:int")] []
  let extending (elements attributes : List String) :=
    [node "complexContent" [] [node "extension" [("base", "Base")] (members elements attributes)]]
  let base := node "complexType" [("name", "Base")] (members ["z"] ["y"])
  let plain := node "complexType" [("name", "Plain")] (extending ["a"] ["b"])
  let crossed := node "complexType" [("name", "Crossed")] (extending ["a", "y"] ["b", "z"])
  ⟨"memory:t.xsd", [⟨"memory:t.xsd", "urn:t", node "schema" [] [base, plain, crossed]⟩], none⟩

/-- Members in the order of emission, if it is known what that makes of their keys. -/
theorem names_sorted {α : Type} {key : α → List Nat × String} {members : List α}
    {keys sorted : List (List Nat × String)} (given : members.map key = keys) (perm : keys.Perm sorted)
    (inOrder : sorted.Pairwise fun a b => StructuralType.keyLe a b = true) :
    (members.mergeSort fun a b => StructuralType.keyLe (key a) (key b)).map (fun e => (key e).2)
      = sorted.map (·.2) := by
  have ordered : ((members.mergeSort fun a b => StructuralType.keyLe (key a) (key b)).map key).Pairwise
      fun a b => StructuralType.keyLe a b = true :=
    List.pairwise_map.mpr (StructuralType.pairwise_sorted key members)
  have same : (members.mergeSort fun a b => StructuralType.keyLe (key a) (key b)).map key = sorted := by
    refine List.Perm.eq_of_pairwise (fun a b _ _ => StructuralType.keyLe_antisymm) ordered inOrder ?_
    exact ((List.mergeSort_perm members _).map key).trans (given ▸ perm)
  rw [← same, List.map_map]
  rfl

/-- The name of a type and of its base, and what its members are sorted by. -/
def keysOf (t : StructuralType) :
    (Option String × Option String) × List (List Nat × String) × List (List Nat × String) :=
  ((t.name, t.base), t.elements.map t.elementKey, t.attributes.map t.attributeKey)

theorem exists_of_namesakes : ∃ c, (namesakes.compile {}).result = .ok c ∧ (c.types.map keysOf).Perm
    [((some "Base", none), [([0, 1, 0], "z")], [([1, 1], "y")]),
      ((some "Plain", some "Base"), [([0, 0, 0], "z"), ([0, 1, 0], "a")],
        [([0, 1], "y"), ([1, 1], "b")]),
      ((some "Crossed", some "Base"), [([0, 1, 0], "z"), ([0, 1, 0], "a"), ([0, 1, 0], "y")],
        [([1, 1], "y"), ([1, 1], "b"), ([1, 1], "z")])] :=
  exists_compiled (by decide +kernel) (by decide +kernel)

theorem namesakes_emittedAfter : ∃ c base plain, (namesakes.compile {}).result = .ok c ∧
    base ∈ c.types ∧ plain ∈ c.types ∧ plain.base = some "Base" ∧ base.name = some "Base" ∧
    plain.EmitsAfter base := by
  obtain ⟨c, run, keys⟩ := exists_of_namesakes
  obtain ⟨base, hbase, baseKeys⟩ := List.mem_map.mp (keys.mem_iff.mpr List.mem_cons_self)
  obtain ⟨plain, hplain, plainKeys⟩ :=
    List.mem_map.mp (keys.mem_iff.mpr (List.mem_cons_of_mem _ List.mem_cons_self))
  have name : base.name = some "Base" := congrArg (·.1.1) baseKeys
  have extended : plain.base = some "Base" := congrArg (·.1.2) plainKeys
  have emits := (compile_emitsAfter run plain hplain "Base" extended).2 base hbase name
  exact ⟨c, base, plain, run, hbase, hplain, extended, name, emits⟩

/-- Members of the base are emitted behind ones of the type itself where the type has a member of
the other kind under their names. -/
theorem namesakes_emittedLate : ∃ c base crossed, (namesakes.compile {}).result = .ok c ∧
    base ∈ c.types ∧ crossed ∈ c.types ∧ crossed.base = some "Base" ∧ base.name = some "Base" ∧
    crossed.orderedElements.map (·.name) = ["a", "y", "z"] ∧ base.elementNames = ["z"] ∧
    crossed.orderedAttributes.map (·.name) = ["b", "y", "z"] ∧ base.attributeNames = ["y"] ∧
    ¬ crossed.EmitsElements (·.name ∈ base.elementNames) ∧
    ¬ crossed.EmitsAttributes (·.name ∈ base.attributeNames) := by
  obtain ⟨c, run, keys⟩ := exists_of_namesakes
  obtain ⟨base, hbase, baseKeys⟩ := List.mem_map.mp (keys.mem_iff.mpr List.mem_cons_self)
  obtain ⟨crossed, hcrossed, crossedKeys⟩ := List.mem_map.mp
    (keys.mem_iff.mpr (List.mem_cons_of_mem _ (List.mem_cons_of_mem _ List.mem_cons_self)))
  have name : base.name = some "Base" := congrArg (·.1.1) baseKeys
  have extended : crossed.base = some "Base" := congrArg (·.1.2) crossedKeys
  have baseElements : base.elementNames = ["z"] := by
    have same := congrArg (·.2.1.map Prod.snd) baseKeys
    rwa [show (keysOf base).2.1 = base.elements.map base.elementKey from rfl, List.map_map] at same
  have baseAttributes : base.attributeNames = ["y"] := by
    have same := congrArg (·.2.2.map Prod.snd) baseKeys
    rwa [show (keysOf base).2.2 = base.attributes.map base.attributeKey from rfl, List.map_map] at same
  have elements : crossed.orderedElements.map (·.name) = ["a", "y", "z"] := by
    have keys : crossed.elements.map crossed.elementKey
        = [([0, 1, 0], "z"), ([0, 1, 0], "a"), ([0, 1, 0], "y")] := congrArg (·.2.1) crossedKeys
    have perm : [([0, 1, 0], "z"), ([0, 1, 0], "a"), ([0, 1, 0], "y")].Perm
        [([0, 1, 0], "a"), ([0, 1, 0], "y"), ([0, 1, 0], "z")] := by decide
    exact names_sorted keys perm (by decide +kernel)
  have attributes : crossed.orderedAttributes.map (·.name) = ["b", "y", "z"] := by
    have keys : crossed.attributes.map crossed.attributeKey
        = [([1, 1], "y"), ([1, 1], "b"), ([1, 1], "z")] := congrArg (·.2.2) crossedKeys
    have perm : [([1, 1], "y"), ([1, 1], "b"), ([1, 1], "z")].Perm
        [([1, 1], "b"), ([1, 1], "y"), ([1, 1], "z")] := by decide
    exact names_sorted keys perm (by decide +kernel)
  refine ⟨c, base, crossed, run, hbase, hcrossed, extended, name, elements, baseElements, attributes,
    baseAttributes, fun emits => ?_, fun emits => ?_⟩
  · have before : (crossed.orderedElements.map Element.name).Pairwise fun a b =>
        b ≠ textSlotName → b ∈ base.elementNames → a ∈ base.elementNames := emits.pairwise
    rw [elements, baseElements] at before
    revert before
    decide
  · have before : (crossed.orderedAttributes.map Attribute.name).Pairwise fun a b =>
        b ∈ base.attributeNames → a ∈ base.attributeNames := emits.pairwise
    rw [attributes, baseAttributes] at before
    revert before
    decide

end SchemaSet

end WsdlCatalog
