/-
  WsdlCatalog.Proofs.Cardinality — what a catalog says of how often its members come.

  The ranges of a content model are in order, and what is made of them stays so, down to the
  leaves: products, also with a missing maximum, minima that a choice takes down, and joins.
  From the leaves this comes to elements and to choices. An element is optional if its minimum is zero or its value may be nil; where
  two elements become one both sides of this are joined, so that it survives.

  The table of properties repeats the bounds of all elements. No row of it is lost, because
  types and the elements of a type have different names.

  Proved: bounds are in order and agree with what is optional, and the table of properties
  has a row for each element with the same bounds (`SchemaSet.compile_coherent`).
-/

import WsdlCatalog.Proofs.FullView
import WsdlCatalog.Proofs.Parts

namespace WsdlCatalog

/-! ## Members -/

def Members.Ordered (members : Members) : Prop := ∀ leaf ∈ members.leaves, leaf.range.Ordered

theorem Members.Ordered.addElement {members result : Members} (h : members.Ordered) {leaf : Leaf}
    (hl : leaf.range.Ordered) {branches : List Branch}
    (ha : members.addElement leaf branches = .ok result) : result.Ordered := by
  obtain ⟨leaves, hi, rfl⟩ := addElement_ok ha
  unfold Members.Ordered at h ⊢
  rcases insert_cases hi with ⟨-, rfl⟩ | ⟨before, first, after, held, -, -, -, rfl⟩
  · exact List.forall_mem_append.mpr ⟨h, List.forall_mem_singleton.mpr hl⟩
  · rw [held, List.forall_mem_append, List.forall_mem_cons] at h
    rw [List.forall_mem_append, List.forall_mem_cons]
    exact ⟨h.1, h.2.1.join, h.2.2⟩

namespace Compile

variable {S : Setting} {nested : Nested} {owner : Owner} {members result : Members}
  {container site : Site} {p q : Progress}

theorem ordered_addStep (hm : members.Ordered) {step : Step} (hs : step.Sound (fun _ => True) owner)
    (h : Runs (addStep S nested owner members step) p result q) : result.Ordered := by
  cases step with
  | element range site branches =>
    obtain ⟨e, r, -, h⟩ := runs_bind.mp h
    have inOrder : range.Ordered := hs.1
    exact hm.addElement inOrder (runs_atSite.mp h).1
  | unresolved fault key =>
    obtain ⟨_, r, -, h⟩ := runs_bind.mp h
    obtain ⟨rfl, -⟩ := runs_pure.mp h
    exact hm
  | broken refusal => exact absurd h runs_throw

theorem ordered_addParticles {result : Members × List ChoiceFrame}
    (h : Runs (addParticles S nested owner container .empty) p result q) :
    result.1.Ordered ∧ ∀ frame ∈ result.2, frame.range.Ordered := by
  have sound : Outline.Sound (fun _ => True) owner (Outline.ofParticles S.options.choice
      (Particle.ofContainer S.declarations owner container)) :=
    Outline.sound_ofParticles S.options.choice (Particle.sound_ofContainer (fun _ _ _ _ => trivial)
      (fun _ _ => trivial) owner fun _ _ => trivial)
  obtain ⟨members, r, hs, h⟩ := runs_bind.mp h
  obtain ⟨rfl, -⟩ := runs_pure.mp h
  refine ⟨?_, sound.frames⟩
  refine runs_foldlM
    (I := fun done members => (∀ step ∈ done, step.Sound (fun _ => True) owner) → members.Ordered)
    ?_ (fun _ _ hl => absurd hl List.not_mem_nil) hs sound.steps
  intro done step a b p q ha h hd
  rw [List.forall_mem_append, List.forall_mem_singleton] at hd
  exact ordered_addStep (ha hd.1) hd.2 h

theorem ordered_addAttributeAt (hm : members.Ordered)
    (h : Runs (addAttributeAt S owner members site) p result q) : result.Ordered := by
  have kept {a : Attribute} {result : Members} (ha : members.addAttribute a = .ok result) :
      result.Ordered := by
    unfold Members.Ordered
    rw [Members.leaves_addAttribute ha]
    exact hm
  unfold addAttributeAt at h
  obtain ⟨use, r, -, h⟩ := runs_bind.mp h
  split at h
  · obtain ⟨item, r, -, h⟩ := runs_bind.mp h
    split at h
    · refine hm.addElement ?_ (runs_atSite.mp h).1
      exact fun _ none => nomatch none
    · obtain ⟨a, r, -, h⟩ := runs_bind.mp h
      exact kept (runs_atSite.mp h).1
  · obtain ⟨ref, r, -, h⟩ := runs_bind.mp h
    exact kept (runs_atSite.mp h).1
  · exact absurd h runs_fail

theorem ordered_addAttributes (hm : members.Ordered)
    (h : Runs (addAttributes S owner container members) p result q) : result.Ordered := by
  refine runs_foldlM (I := fun _ members => members.Ordered) ?_ hm h
  intro done step a b p q ha h
  cases step with
  | declared site => exact ordered_addAttributeAt ha h
  | unresolved fault key =>
    obtain ⟨_, r, -, h⟩ := runs_bind.mp h
    obtain ⟨rfl, -⟩ := runs_pure.mp h
    exact ha
  | broken fault => exact absurd h runs_fail

/-- The ranges of all leaves and choices of a body are in order. -/
theorem ordered_bodyOf {body : Body} (h : Runs (bodyOf S nested owner site) p body q) :
    body.members.Ordered ∧ ∀ frame ∈ body.frames, frame.range.Ordered := by
  rw [bodyOf_eq] at h
  obtain ⟨content, r, -, h⟩ := runs_bind.mp h
  cases content with
  | simple derivation mixed =>
    obtain ⟨members, r, ha, h⟩ := runs_bind.mp h
    obtain ⟨base, r, -, h⟩ := runs_bind.mp h
    obtain ⟨rfl, -⟩ := runs_pure.mp h
    exact ⟨ordered_addAttributes (fun _ hl => absurd hl List.not_mem_nil) ha,
      fun _ hf => absurd hf List.not_mem_nil⟩
  | complex container extending mixed =>
    obtain ⟨base, r, -, h⟩ := runs_bind.mp h
    obtain ⟨⟨members, frames⟩, r, hp, h⟩ := runs_bind.mp h
    obtain ⟨members', r, ha, h⟩ := runs_bind.mp h
    obtain ⟨rfl, -⟩ := runs_pure.mp h
    obtain ⟨ordered, framed⟩ := ordered_addParticles hp
    exact ⟨ordered_addAttributes ordered ha, framed⟩

end Compile

/-! ## Elements -/

/-- The bounds of an element are in order, and it is optional as they and the option for nillable
elements say. -/
structure Element.Coherent (nillableAsOptional : Loose Bool) (e : Element) : Prop where
  bounds : ∃ low : Int, e.min = .own low ∧ 0 ≤ low ∧ ∀ high, e.max = some high → low ≤ high
  nillable : ∃ flag, e.nillable = .own flag
  optional : e.optional.holds = true ↔
    e.min = .own 0 ∨ (e.nillable.holds = true ∧ nillableAsOptional.holds = true)
  /-- It says so by a truth value if the option is one. -/
  flag : (∃ flag, nillableAsOptional = .own flag) → ∃ flag, e.optional = .own flag

/-- The bounds of a choice are in order. -/
def ChoiceGroup.Coherent (g : ChoiceGroup) : Prop :=
  0 ≤ g.min ∧ ∀ high, g.max = some high → g.min ≤ high

/-- All elements and choices of a type are coherent. -/
structure StructuralType.Coherent (nillableAsOptional : Loose Bool) (t : StructuralType) : Prop where
  elements : ∀ e ∈ t.elements, e.Coherent nillableAsOptional
  localElements : ∀ e ∈ t.localElements, e.Coherent nillableAsOptional
  choices : ∀ g ∈ t.choices, g.Coherent

variable {o : Loose Bool}

theorem Leaf.coherent_toElement {leaf : Leaf} (h : leaf.range.Ordered) :
    (leaf.toElement o).Coherent o where
  bounds := by
    refine ⟨leaf.range.lower, rfl, Int.natCast_nonneg _, fun high hh => ?_⟩
    obtain ⟨m, hm, rfl⟩ := Option.map_eq_some_iff.mp hh
    exact Int.ofNat_le.mpr (h m hm)
  nillable := ⟨leaf.nillable, rfl⟩
  optional := by
    show (leaf.optional o).holds = true ↔ Loose.own (leaf.range.lower : Int) = .own 0 ∨
      (leaf.nillable = true ∧ o.holds = true)
    unfold Leaf.optional
    rw [Loose.own.injEq, Int.natCast_eq_zero]
    split
    · rename_i zero
      exact iff_of_true rfl (.inl (eq_of_beq zero))
    · rename_i positive
      have positive : ¬ leaf.range.lower = 0 := fun zero => positive (beq_iff_eq.mpr zero)
      rw [or_iff_right positive]
      split
      · rename_i nillable
        exact (and_iff_right nillable).symm
      · rename_i plain
        exact iff_of_false Bool.false_ne_true fun given => plain given.1
  flag given := by
    show ∃ flag, leaf.optional o = .own flag
    unfold Leaf.optional
    split
    · exact ⟨_, rfl⟩
    split
    · exact given
    · exact ⟨_, rfl⟩

theorem Members.coherent_textSlot (ref : TypeRef) : (textSlot ref).Coherent o where
  bounds := ⟨0, rfl, le_rfl, fun _ h => Option.some.inj h ▸ zero_le_one⟩
  nillable := ⟨false, rfl⟩
  optional := iff_of_true rfl (.inl rfl)
  flag _ := ⟨true, rfl⟩

namespace StructuralType

variable {a b e : Element} {t base t' : StructuralType}

theorem coherent_shiftChoice (h : e.Coherent o) (shift : Int) : (shiftChoice shift e).Coherent o :=
  ⟨h.bounds, h.nillable, h.optional, h.flag⟩

theorem either_own {a b : Loose Bool} (ha : ∃ flag, a = .own flag) (hb : ∃ flag, b = .own flag) :
    ∃ flag, either a b = .own flag := by
  unfold either
  split
  · exact ha
  · exact hb

/-- What two elements say of being optional comes to what the one they become says. -/
theorem coherent_fold (ha : a.Coherent o) (hb : b.Coherent o) : (fold a b).Coherent o := by
  obtain ⟨low, hal, hap, hau⟩ := ha.bounds
  obtain ⟨other, hbl, hbp, hbu⟩ := hb.bounds
  have lower : (fold a b).min = .own (min low other) := joinMin_own hal hbl
  refine ⟨⟨min low other, lower, le_min hap hbp, fun high hh => ?_⟩,
    either_own ha.nillable hb.nillable, ?_,
    fun given => either_own (ha.flag given) (hb.flag given)⟩
  · obtain ⟨x, _, hx, -, hle, -⟩ := max_of_fold hh
    exact (min_le_left low other).trans ((hau x hx).trans hle)
  · have zero : Loose.own (min low other) = .own 0 ↔ low = 0 ∨ other = 0 := by
      rw [Loose.own.injEq]
      omega
    have first := ha.optional
    have second := hb.optional
    rw [hal, Loose.own.injEq] at first
    rw [hbl, Loose.own.injEq] at second
    rw [lower, zero]
    show (either a.optional b.optional).holds = true ↔
      _ ∨ (either a.nillable b.nillable).holds = true ∧ _
    rw [holds_either, holds_either, Bool.or_eq_true, Bool.or_eq_true, first, second, or_and_right,
      or_or_or_comm]

theorem coherent_merge (ha : a.Coherent o) {own : List Element} (ho : ∀ e ∈ own, e.Coherent o) :
    (merge Element.name fold own a).Coherent o := by
  rcases merge_cases Element.name fold own a with he | ⟨e, hm, -, he⟩
  · rw [he]
    exact ha
  · rw [he]
    exact coherent_fold ha (ho e hm)

/-! ## Types -/

theorem Composed.coherentElements (h : Composed t base t')
    (ht : ∀ e ∈ t.localElements, e.Coherent o) (hb : ∀ e ∈ base.elements, e.Coherent o) :
    (∀ e ∈ t'.elements, e.Coherent o) ∧ ∀ e ∈ t'.localElements, e.Coherent o := by
  have shifted : ∀ e ∈ t.shifted base, e.Coherent o := by
    intro e he
    obtain ⟨own, hown, rfl⟩ := List.mem_map.mp he
    exact coherent_shiftChoice (ht own hown) _
  have own : ∀ e ∈ t'.localElements, e.Coherent o := by
    intro e he
    rw [h.localElements] at he
    exact shifted e (List.mem_filter.mp he).1
  refine ⟨fun e he => ?_, own⟩
  rw [h.elements, List.append_assoc] at he
  rcases List.mem_append.mp he with he | he
  · obtain ⟨inherited, hi, rfl⟩ := List.mem_map.mp he
    exact coherent_merge (hb _ (mem_untexted.mp hi).1) fun e he => shifted e (mem_untexted.mp he).1
  · rcases List.mem_append.mp he with he | he
    · exact own e (mem_untexted.mp he).1
    · exact (mem_text he).1.elim (own e) (hb e)

/-- A type with the members of its base is coherent if both are. -/
theorem Coherent.compose (ht : t.Coherent o) (hb : base.Coherent o) (own : t.OwnMembers)
    (distinct : base.Distinct) (h : t.compose base = .ok t') : t'.Coherent o := by
  obtain ⟨composed, -⟩ := own.compose distinct h
  obtain ⟨elements, localElements⟩ := composed.coherentElements ht.localElements hb.elements
  refine ⟨elements, localElements, ?_⟩
  rw [choices_compose h]
  exact List.forall_mem_append.mpr ⟨hb.choices, List.forall_mem_map.mpr ht.choices⟩

end StructuralType

theorem Members.coherent_choicesFrom (members : Members) {frames : List ChoiceFrame}
    (h : ∀ frame ∈ frames, frame.range.Ordered) :
    ∀ first, ∀ g ∈ members.choicesFrom first frames, g.Coherent := by
  induction frames with
  | nil => exact fun _ _ hg => absurd hg List.not_mem_nil
  | cons frame rest ih =>
    rw [List.forall_mem_cons] at h
    intro first
    unfold choicesFrom
    refine List.forall_mem_cons.mpr ⟨⟨Int.natCast_nonneg _, fun high hh => ?_⟩, ih h.2 (first + 1)⟩
    obtain ⟨m, hm, rfl⟩ := Option.map_eq_some_iff.mp hh
    exact Int.ofNat_le.mpr (h.1 m hm)

namespace Compile

/-- A type that is made from a definition is coherent. -/
theorem Made.coherent {S : Setting} {owner : String} {name : QName} {anonymous : Bool} {site : Site}
    {t : StructuralType} (h : Made S owner name anonymous site t) :
    t.Coherent S.options.nillableAsOptional := by
  obtain ⟨depth, body, p, q, -, hr, rfl⟩ := h
  obtain ⟨ordered, framed⟩ := ordered_bodyOf hr
  have elements (text : Option TypeRef) :
      ∀ e ∈ body.members.elements S.options.nillableAsOptional text,
        e.Coherent S.options.nillableAsOptional := by
    intro e he
    rcases List.mem_append.mp he with he | he
    · obtain ⟨leaf, hl, rfl⟩ := List.mem_map.mp he
      exact Leaf.coherent_toElement (ordered leaf (List.mem_filter.mp hl).1)
    · obtain ⟨ref, -, rfl⟩ := Option.map_eq_some_iff.mp (Option.mem_toList.mp he)
      exact Members.coherent_textSlot ref
  exact ⟨elements _, elements _, body.members.coherent_choicesFrom framed 0⟩

end Compile

/-- By induction on the types that a type extends. -/
theorem Extension.Full.coherent {types : Table}
    (own : ∀ x ∈ types, x.1 = x.2.name ∧ x.2.OwnMembers) (coherent : ∀ x ∈ types, x.2.Coherent o)
    {n : Nat} {k : Owner} {t : StructuralType} (h : Full types n k t) : t.Coherent o := by
  induction h with
  | own hl _ => exact coherent _ (mem_of_lookup hl)
  | extending hl _ hbase hc ih =>
    have entry := mem_of_lookup hl
    exact (coherent _ entry).compose ih (own _ entry).2 (hbase.distinct own) hc

/-! ## Catalogs -/

/-- The bounds of an element in the table of properties. -/
structure PropertyInfo.Records (row : PropertyInfo) (e : Element) : Prop where
  min : row.min = e.min
  max : row.max = e.max
  nillable : row.nillable = e.nillable

/-- The table of properties has the types of a catalog and no others, and for each type its
elements and no others, with their bounds. -/
structure Catalog.Records (c : Catalog) : Prop where
  types : c.marshalling.properties.map (fun x => some x.1) = c.typeNames
  distinct : c.typeNames.Nodup
  rows : ∀ t ∈ c.types, ∃ name rows, t.name = some name ∧
    c.marshalling.properties.lookup name = some rows ∧ rows.map Prod.fst = t.elementNames ∧
    t.elementNames.Nodup ∧ ∀ e ∈ t.elements, ∃ row, rows.lookup e.name = some row ∧ row.Records e

def StructuralType.properties (t : StructuralType) : List (String × PropertyInfo) :=
  t.elements.map fun e => (e.name, Marshalling.propertyInfo e)

theorem StructuralType.keys_properties (t : StructuralType) :
    t.properties.map Prod.fst = t.elementNames := by
  unfold properties elementNames
  rw [List.map_map]
  rfl

/-- Types with different names have all their elements in the table. -/
theorem Marshalling.properties_ofTypes {types : List StructuralType}
    (named : ∀ t ∈ types, t.name = some t.tableName) (names : (types.map (·.name)).Nodup)
    (distinct : ∀ t ∈ types, t.elementNames.Nodup) :
    (Marshalling.ofTypes types).properties = types.map fun t => (t.tableName, t.properties) := by
  have rows : (types.map fun t => (t.tableName, putAll t.properties))
      = types.map fun t => (t.tableName, t.properties) := by
    refine List.map_congr_left fun t ht => ?_
    rw [putAll_of_nodup (t.keys_properties ▸ distinct t ht)]
  show putAll (types.map fun t => (t.tableName, putAll t.properties)) = _
  rw [rows]
  refine putAll_of_nodup ?_
  rw [List.map_map]
  refine List.Nodup.of_map some ?_
  rw [List.map_map]
  rwa [List.map_congr_left named] at names

theorem Catalog.records_of_tables {c : Catalog} (tables : c.marshalling = .ofTypes c.types)
    (named : ∀ t ∈ c.types, t.name = some t.tableName) (names : c.typeNames.Nodup)
    (distinct : ∀ t ∈ c.types, t.elementNames.Nodup) : c.Records := by
  have properties := Marshalling.properties_ofTypes named names distinct
  rw [← tables] at properties
  have keys : c.marshalling.properties.map (fun x => some x.1) = c.typeNames := by
    rw [properties, List.map_map]
    exact List.map_congr_left fun t ht => (named t ht).symm
  have keysDistinct : (c.marshalling.properties.map Prod.fst).Nodup := by
    refine List.Nodup.of_map some ?_
    rw [List.map_map]
    exact keys ▸ names
  refine ⟨keys, names, fun t ht => ⟨t.tableName, t.properties, named t ht, ?_,
    t.keys_properties, distinct t ht, fun e he => ?_⟩⟩
  · exact lookup_of_mem keysDistinct (properties ▸ List.mem_map_of_mem ht)
  · exact ⟨_, lookup_of_mem (t.keys_properties ▸ distinct t ht) (List.mem_map_of_mem he),
      rfl, rfl, rfl⟩

namespace SchemaSet

/-- **What a catalog says of how often its members come is coherent**: in all views of all types
and in all choices, and in the table of properties. -/
theorem compile_coherent {set : SchemaSet} {options : Options} {c : Catalog}
    (h : (set.compile options).result = .ok c) :
    (∀ t ∈ c.types, t.Coherent options.nillableAsOptional) ∧ c.Records := by
  obtain ⟨S, hs⟩ := exists_setting h
  obtain ⟨_, compiled, _, _, _, _, _, _, staged⟩ := exists_staged hs h
  obtain rfl := (Setting.ofSchemaSet_eq_ok.mp hs).1
  have coherent : ∀ x ∈ compiled.inventory.types, x.2.Coherent S.options.nillableAsOptional := by
    intro x hx
    obtain ⟨owner, name, anonymous, site, -, entry⟩ := staged.established.entered x hx
    exact entry.made.coherent
  constructor
  · intro t ht
    obtain ⟨n, k, full⟩ := staged.mem_types_iff.mp ht
    exact full.coherent staged.established.entered.own coherent
  · refine Catalog.records_of_tables (by rw [staged.catalog]; rfl) (fun t ht => ?_)
      staged.nodup_names fun t ht => (staged.distinct t ht).elements
    obtain ⟨owner, name, site, own, comes⟩ := exists_comesOf hs h ht
    unfold StructuralType.tableName
    rw [comes.canonical]
    rfl

/-- A payment by card or in cash, one or two times, and a type that extends it and repeats the
card, which may be nil there. -/
def payments : SchemaSet :=
  let node (tag : String) (attributes : List (String × String)) (children : List Xml.Node) :
    Xml.Node := ⟨Vocabulary.xsd, tag, attributes, [], children, "", 1⟩
  let element (name : String) (attributes : List (String × String)) :=
    node "element" (("name", name) :: attributes) []
  let choice := node "choice" [("maxOccurs", "2")] [element "card" [], element "cash" []]
  let payment := node "complexType" [("name", "Payment")]
    [node "sequence" [] [element "note" [("minOccurs", "0")], choice]]
  let extension := node "extension" [("base", "Payment")]
    [node "sequence" [] [element "card" [("maxOccurs", "3"), ("nillable", "true")]]]
  let refund := node "complexType" [("name", "Refund")] [node "complexContent" [] [extension]]
  ⟨"memory:t.xsd", [⟨"memory:t.xsd", "urn:t", node "schema" [] [payment, refund]⟩], none⟩

def paymentOptions : Options := { choice := .union, nillableAsOptional := .own true }

/-- The elements of a type with their maxima, and whether they are optional. -/
def boundsOf (t : StructuralType) : Option String × List (String × Option Int × Bool) :=
  (t.name, t.elements.map fun e => (e.name, e.max, e.optional.holds))

/-- The repeated card is optional because it may be nil, and has the larger maximum. -/
theorem bounds_of_payments : (payments.progress paymentOptions).inventory.types.map
      (fun x => boundsOf x.2) =
    [(some "Payment", [("note", some 1, true), ("card", some 2, false), ("cash", some 2, false)]),
      (some "Refund", [("note", some 1, true), ("card", some 3, true), ("cash", some 2, false)])] := by
  decide +kernel

theorem payments_coherent : ∃ c, (payments.compile paymentOptions).result = .ok c ∧
    (c.types.map boundsOf).Perm
      [(some "Payment", [("note", some 1, true), ("card", some 2, false), ("cash", some 2, false)]),
        (some "Refund", [("note", some 1, true), ("card", some 3, true), ("cash", some 2, false)])] ∧
    (∀ t ∈ c.types, t.Coherent (.own true)) ∧ c.Records := by
  have compiled : (payments.compile paymentOptions).result.toOption.isSome = true := by
    decide +kernel
  cases run : (payments.compile paymentOptions).result with
  | error e =>
    rw [run] at compiled
    cases compiled
  | ok c =>
    refine ⟨c, rfl, ?_, compile_coherent run⟩
    rw [← bounds_of_payments, ← Function.comp_def boundsOf, ← List.map_map]
    exact (perm_progress run).map _

end SchemaSet

end WsdlCatalog
