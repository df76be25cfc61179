/-
  WsdlCatalog.Proofs.Folding — a content model flattened as a fold over its leaves.

  What is met in a content model is read one after another: an element is resolved to a leaf, its
  range is known, and a reference to a group that is not declared is reported (`Compile.Reads`).
  This gives a list of leaves, whose names may repeat.

  Proved: where branches are not told apart, flattening a content model whose ranges and references
  are valid succeeds exactly if leaves of one name have one type; the elements then have the names
  of the leaves, in the order in which these come first, and each one joins the leaves of its name
  (`Compile.addParticles_folds`).
-/

import Mathlib.Order.Bounds.Basic
import WsdlCatalog.Proofs.Expanding
import WsdlCatalog.Proofs.Flattening

namespace WsdlCatalog

/-! ## Leaves of one name -/

/-- A leaf stands for leaves of its name: it has the type of the first one, the least minimum and
the greatest maximum, where a missing one is the greatest, and is nillable if one of them is. -/
structure Leaf.Joins (leaf : Leaf) (entries : List Leaf) : Prop where
  first : ∃ a rest, entries = a :: rest ∧ leaf.name = a.name ∧ leaf.declared = a.declared ∧
    leaf.typeRef = a.typeRef
  label : ∀ a ∈ entries, a.declared = leaf.declared
  least : IsLeast {n | ∃ a ∈ entries, a.range.lower = n} leaf.range.lower
  unbounded : leaf.range.upper = none ↔ ∃ a ∈ entries, a.range.upper = none
  greatest : ∀ m, leaf.range.upper = some m →
    IsGreatest {n | ∃ a ∈ entries, a.range.upper = some n} m
  nillable : leaf.nillable = entries.any Leaf.nillable

namespace Leaf

variable {leaf more : Leaf} {entries : List Leaf}

theorem joins_singleton (leaf : Leaf) : leaf.Joins [leaf] where
  first := ⟨leaf, [], rfl, rfl, rfl, rfl⟩
  label := List.forall_mem_singleton.mpr rfl
  least := by
    refine ⟨⟨leaf, List.mem_singleton.mpr rfl, rfl⟩, fun n hn => ?_⟩
    obtain ⟨a, ha, rfl⟩ := hn
    rw [List.mem_singleton.mp ha]
  unbounded := by simp only [List.mem_singleton, exists_eq_left]
  greatest m hm := by
    refine ⟨⟨leaf, List.mem_singleton.mpr rfl, hm⟩, fun n hn => ?_⟩
    obtain ⟨a, ha, hn⟩ := hn
    rw [List.mem_singleton.mp ha, hm] at hn
    exact (Option.some.inj hn).ge
  nillable := by simp only [List.any_cons, List.any_nil, Bool.or_false]

theorem exists_mem_snoc {P : Leaf → Prop} :
    (∃ a ∈ entries ++ [more], P a) ↔ P more ∨ ∃ a ∈ entries, P a := by
  simp only [List.mem_append, List.mem_singleton, or_and_right, exists_or, exists_eq_left]
  exact or_comm

/-- One more leaf of the name and type. -/
theorem Joins.fold (h : leaf.Joins entries) (label : leaf.declared = more.declared) :
    (Members.fold leaf more).Joins (entries ++ [more]) where
  first := by
    obtain ⟨a, rest, rfl, same⟩ := h.first
    exact ⟨a, rest ++ [more], List.cons_append, same⟩
  label := List.forall_mem_append.mpr ⟨h.label, List.forall_mem_singleton.mpr label.symm⟩
  least := by
    have insert := h.least.insert more.range.lower
    show IsLeast _ (min leaf.range.lower more.range.lower)
    rw [Nat.min_comm]
    refine (congrArg (IsLeast · _) (Set.ext fun n => ?_)).mp insert
    rw [Set.mem_insert_iff, Set.mem_ofPred_eq, Set.mem_ofPred_eq, exists_mem_snoc, eq_comm]
  unbounded := by
    rw [exists_mem_snoc, ← h.unbounded]
    show Bounds.joinMax leaf.range.upper more.range.upper = none ↔ _
    cases leaf.range.upper <;> cases more.range.upper <;> simp [Bounds.joinMax]
  greatest m hm := by
    change Bounds.joinMax leaf.range.upper more.range.upper = some m at hm
    cases hl : leaf.range.upper with
    | none =>
      rw [hl] at hm
      cases hm
    | some l =>
      cases hk : more.range.upper with
      | none =>
        rw [hl, hk] at hm
        cases hm
      | some k =>
        rw [hl, hk] at hm
        have insert := (h.greatest l hl).insert k
        rw [← Option.some.inj hm, Nat.max_comm]
        refine (congrArg (IsGreatest · _) (Set.ext fun n => ?_)).mp insert
        rw [Set.mem_insert_iff, Set.mem_ofPred_eq, Set.mem_ofPred_eq, exists_mem_snoc, hk,
          Option.some.injEq, eq_comm]
  nillable := by
    rw [List.any_append, ← h.nillable]
    simp only [List.any_cons, List.any_nil, Bool.or_false, Members.fold]

end Leaf

/-! ## Leaves of many names -/

namespace Members

def ofName (entries : List Leaf) (name : String) : List Leaf := entries.filter (·.name == name)

/-- Leaves that have been collected: each name of the entries once, in the order in which names
come first. -/
structure Collected (entries leaves : List Leaf) : Prop where
  names : leaves.map Leaf.name = (entries.map Leaf.name).eraseDups
  joins : ∀ leaf ∈ leaves, leaf.Joins (ofName entries leaf.name)

variable {entries leaves result : List Leaf} {leaf : Leaf}

theorem collected_nil : Collected [] [] := ⟨rfl, fun _ h => absurd h List.not_mem_nil⟩

theorem ofName_snoc_of_ne {name : String} (h : leaf.name ≠ name) :
    ofName (entries ++ [leaf]) name = ofName entries name := by
  unfold ofName
  rw [List.filter_append, List.filter_singleton, beq_eq_false_iff_ne.mpr h, cond_false,
    List.append_nil]

theorem ofName_snoc_self : ofName (entries ++ [leaf]) leaf.name = ofName entries leaf.name ++ [leaf] := by
  unfold ofName
  rw [List.filter_append, List.filter_singleton, beq_self_eq_true, cond_true]

theorem Collected.mem_names (h : Collected entries leaves) {name : String} :
    name ∈ leaves.map Leaf.name ↔ name ∈ entries.map Leaf.name := by
  rw [h.names, List.mem_eraseDups]

theorem eraseDups_snoc {names : List String} {name : String} : (names ++ [name]).eraseDups
    = if name ∈ names then names.eraseDups else names.eraseDups ++ [name] := by
  rw [List.eraseDups_append, List.removeAll, List.filter_singleton]
  by_cases h : name ∈ names <;> simp [h, List.eraseDups_cons]

theorem Collected.insert (h : Collected entries leaves) (distinct : (leaves.map Leaf.name).Nodup)
    (hi : Members.insert leaf leaves = .ok result) : Collected (entries ++ [leaf]) result := by
  rcases insert_cases hi with ⟨fresh, rfl⟩ | ⟨before, first, after, rfl, -, hn, label, rfl⟩
  · have new : leaf.name ∉ entries.map Leaf.name := fun hm => by
      obtain ⟨l, hl, same⟩ := List.mem_map.mp (h.mem_names.mpr hm)
      exact fresh l hl same
    have none : ofName entries leaf.name = [] := List.filter_eq_nil_iff.mpr fun a ha same =>
      new (eq_of_beq same ▸ List.mem_map_of_mem ha)
    constructor
    · rw [List.map_append, List.map_append, h.names, List.map_singleton, eraseDups_snoc, if_neg new]
    · refine List.forall_mem_append.mpr ⟨fun l hl => ?_, List.forall_mem_singleton.mpr ?_⟩
      · rw [ofName_snoc_of_ne (fresh l hl).symm]
        exact h.joins l hl
      · rw [ofName_snoc_self, none]
        exact leaf.joins_singleton
  · have held : first ∈ before ++ first :: after := List.mem_append_right _ List.mem_cons_self
    have old : leaf.name ∈ entries.map Leaf.name :=
      h.mem_names.mp (hn ▸ List.mem_map_of_mem held)
    rw [List.map_append, List.map_cons, List.nodup_middle, List.nodup_cons, ← List.map_append] at distinct
    have others (l : Leaf) (hl : l ∈ before ∨ l ∈ after) :
        l ∈ before ++ first :: after ∧ leaf.name ≠ l.name := by
      refine ⟨?_, fun same => distinct.1 (hn.trans same ▸ List.mem_map_of_mem (List.mem_append.mpr hl))⟩
      exact List.mem_append.mpr (hl.imp_right (List.mem_cons_of_mem _))
    have kept (l : Leaf) (hl : l ∈ before ∨ l ∈ after) : l.Joins (ofName (entries ++ [leaf]) l.name) := by
      rw [ofName_snoc_of_ne (others l hl).2]
      exact h.joins l (others l hl).1
    constructor
    · have names : (entries ++ [leaf]).map Leaf.name = entries.map Leaf.name ++ [leaf.name] :=
        List.map_append
      rw [names, eraseDups_snoc, if_pos old, ← h.names]
      simp only [List.map_append, List.map_cons, Members.fold]
    · refine List.forall_mem_append.mpr ⟨fun l hl => kept l (.inl hl), List.forall_mem_cons.mpr
        ⟨?_, fun l hl => kept l (.inr hl)⟩⟩
      show (Members.fold first leaf).Joins (ofName _ first.name)
      rw [hn, ofName_snoc_self, ← hn]
      exact (h.joins first held).fold label

theorem collected_of_collect (h : collect [] entries = .ok leaves) : Collected entries leaves := by
  refine (ok_foldlM_done (I := fun done leaves => (leaves.map Leaf.name).Nodup ∧ Collected done leaves)
    ?_ ⟨List.nodup_nil, collected_nil⟩ h).2
  intro done leaf rest before after _ ⟨distinct, collected⟩ hi
  have one : collect before [leaf] = .ok after := (bind_pure _).trans hi
  exact ⟨nodup_collect distinct one, collected.insert distinct hi⟩

/-- **Leaves can be collected if those of one name have one type.** -/
theorem exists_collect_iff : (∃ leaves, collect [] entries = .ok leaves) ↔ Agreeing entries entries := by
  constructor
  · intro given a ha b hb same
    obtain ⟨leaves, h⟩ := given
    have collected := collected_of_collect h
    obtain ⟨leaf, hl, name⟩ := List.mem_map.mp (collected.mem_names.mpr (List.mem_map_of_mem ha))
    have label {x : Leaf} (hx : x ∈ entries) (h : x.name = leaf.name) : x.declared = leaf.declared :=
      (collected.joins leaf hl).label x (List.mem_filter.mpr ⟨hx, beq_iff_eq.mpr h⟩)
    exact (label ha name.symm).trans (label hb (same.symm.trans name.symm)).symm
  · intro agree
    -- By induction from the right: what was collected has the types of leaves that were met.
    induction entries using List.reverseRecOn with
    | nil => exact ⟨[], rfl⟩
    | append_singleton entries leaf ih =>
      obtain ⟨between, hb⟩ := ih fun a ha b hb =>
        agree a (List.mem_append_left _ ha) b (List.mem_append_left _ hb)
      have collected := collected_of_collect hb
      have none : (([] : List Leaf).map Leaf.name).Nodup := List.nodup_nil
      have distinct := nodup_collect none hb
      have fits : Agreeing between [leaf] := by
        intro l hl x hx same
        obtain rfl := List.mem_singleton.mp hx
        obtain ⟨a, rest, entries', name, label, -⟩ := (collected.joins l hl).first
        have ha : a ∈ ofName entries l.name := entries' ▸ List.mem_cons_self
        rw [label]
        exact agree a (List.mem_append_left _ (List.mem_filter.mp ha).1) x
          (List.mem_append_right _ (List.mem_singleton.mpr rfl)) (name.symm.trans same)
      exact ⟨_, collect_snoc.mpr ⟨between, hb, (insert_iff distinct).mpr ⟨fits, rfl⟩⟩⟩

/-- Elements that leaves are folded into: each name of the leaves once, in the order in which names
come first, and for each name what joins its leaves. -/
structure FoldsInto (entries : List Leaf) (nillableAsOptional : Loose Bool) (elements : List Element) :
    Prop where
  names : elements.map Element.name = (entries.map Leaf.name).eraseDups.filter (· != textSlotName)
  joins : ∀ e ∈ elements, ∃ leaf : Leaf, leaf.Joins (ofName entries e.name) ∧
    e = leaf.toElement nillableAsOptional

open StructuralType (untexted)

theorem untexted_elements (members : Members) (nillableAsOptional : Loose Bool) (text : Option TypeRef) :
    untexted (members.elements nillableAsOptional text)
      = (members.leaves.filter (·.name != textSlotName)).map (Leaf.toElement nillableAsOptional) := by
  have slot : (text.map textSlot).toList.filter (fun e => !e.isText) = [] := by
    cases text <;> rfl
  unfold untexted elements
  rw [List.filter_append, slot, List.append_nil, List.filter_eq_self]
  intro e he
  obtain ⟨leaf, hl, rfl⟩ := List.mem_map.mp he
  exact (List.mem_filter.mp hl).2

theorem Collected.foldsInto {members : Members} (h : Collected entries members.leaves)
    (nillableAsOptional : Loose Bool) (text : Option TypeRef) :
    FoldsInto entries nillableAsOptional (untexted (members.elements nillableAsOptional text)) := by
  rw [untexted_elements]
  constructor
  · rw [← h.names, List.filter_map, List.map_map]
    rfl
  · intro e he
    obtain ⟨leaf, hl, rfl⟩ := List.mem_map.mp he
    exact ⟨leaf, h.joins leaf (List.mem_filter.mp hl).1, rfl⟩

end Members

/-! ## Reading a content model -/

namespace Compile

/-- What is met in a content model is read to leaves, one after another: elements are resolved,
and references to groups that are not declared are reported. -/
inductive Reads (S : Setting) (nested : Nested) (owner : Owner) :
    Progress → List Step → List Leaf → Progress → Prop where
  | nil {p : Progress} : Reads S nested owner p [] [] p
  | element {p r q : Progress} {range : Range} {site : Site} {branches : List Branch}
    {steps : List Step} {entries : List Leaf} {e : Referenced}
    (resolved : Runs (elementParticle S nested site owner) p e r)
    (rest : Reads S nested owner r steps entries q) :
    Reads S nested owner p (.element range site branches :: steps)
      (⟨e.name, e.declared, e.typeRef, range, e.nillable, branches.getLast?⟩ :: entries) q
  | undeclared {p r q : Progress} {fault : Fault} {key : String} {steps : List Step}
    {entries : List Leaf} (reported : Runs (report S fault key) p () r)
    (rest : Reads S nested owner r steps entries q) :
    Reads S nested owner p (.unresolved fault key :: steps) entries q

variable {S : Setting} {nested : Nested} {owner : Owner} {container : Site} {p q q' : Progress}
  {steps : List Step} {entries : List Leaf} {members result : Members}

/-- The steps collect the leaves that are read. -/
theorem Reads.collects (h : Reads S nested owner p steps entries q)
    (hr : Runs (steps.foldlM (addStep S nested owner) members) p result q') :
    q' = q ∧ Members.collect members.leaves entries = .ok result.leaves := by
  induction h generalizing members with
  | nil =>
    obtain ⟨rfl, rfl⟩ := runs_pure.mp hr
    exact ⟨rfl, rfl⟩
  | element resolved _ ih =>
    rw [List.foldlM_cons] at hr
    obtain ⟨between, r, here, after⟩ := runs_bind.mp hr
    obtain ⟨e', r', he, added⟩ := runs_bind.mp here
    obtain ⟨rfl, rfl⟩ := he.unique resolved
    obtain ⟨ha, rfl⟩ := runs_atSite.mp added
    obtain ⟨leaves, inserted, rfl⟩ := Members.addElement_ok ha
    obtain ⟨same, collected⟩ := ih after
    refine ⟨same, ?_⟩
    rw [← List.singleton_append, Members.collect_append]
    exact ⟨leaves, (bind_pure _).trans inserted, collected⟩
  | undeclared reported _ ih =>
    rw [List.foldlM_cons] at hr
    obtain ⟨between, r, here, after⟩ := runs_bind.mp hr
    obtain ⟨_, r', hf, same⟩ := runs_bind.mp here
    obtain ⟨-, rfl⟩ := hf.unique reported
    obtain ⟨rfl, rfl⟩ := runs_pure.mp same
    exact ih after

/-- The steps are done if the leaves that are read can be collected. -/
theorem Reads.runs (h : Reads S nested owner p steps entries q) {leaves : List Leaf}
    (hc : Members.collect members.leaves entries = .ok leaves) :
    ∃ result, Runs (steps.foldlM (addStep S nested owner) members) p result q := by
  induction h generalizing members with
  | nil => exact ⟨members, runs_pure.mpr ⟨rfl, rfl⟩⟩
  | @element p r q range site branches steps entries e resolved _ ih =>
    rw [← List.singleton_append, Members.collect_append] at hc
    obtain ⟨between, one, hc⟩ := hc
    let leaf : Leaf := ⟨e.name, e.declared, e.typeRef, range, e.nillable, none⟩
    have fits : ∃ leaves, Members.collect members.leaves
        ([(⟨leaf, branches⟩ : Placed)].map Placed.seen) = .ok leaves := ⟨between, one⟩
    obtain ⟨added, ha⟩ := Members.addElement_iff.mpr fits
    obtain ⟨rfl⟩ := Except.ok.inj ((Members.gains_addElement ha).leaves.symm.trans one)
    obtain ⟨result, after⟩ := ih hc
    refine ⟨result, ?_⟩
    rw [List.foldlM_cons]
    exact runs_bind.mpr ⟨added, r, runs_bind.mpr ⟨e, r, resolved, runs_atSite.mpr ⟨ha, rfl⟩⟩, after⟩
  | @undeclared p r q fault key steps entries reported _ ih =>
    obtain ⟨result, after⟩ := ih hc
    refine ⟨result, ?_⟩
    rw [List.foldlM_cons]
    exact runs_bind.mpr
      ⟨members, r, runs_bind.mpr ⟨(), r, reported, runs_pure.mpr ⟨rfl, rfl⟩⟩, after⟩

/-- Steps that are done read leaves. -/
theorem exists_reads (h : Runs (steps.foldlM (addStep S nested owner) members) p result q) :
    ∃ entries, Reads S nested owner p steps entries q := by
  induction steps generalizing members p with
  | nil =>
    obtain ⟨-, rfl⟩ := runs_pure.mp h
    exact ⟨[], .nil⟩
  | cons step steps ih =>
    rw [List.foldlM_cons] at h
    obtain ⟨between, r, here, h⟩ := runs_bind.mp h
    obtain ⟨entries, rest⟩ := ih h
    cases step with
    | element range site branches =>
      obtain ⟨e, r', resolved, added⟩ := runs_bind.mp here
      obtain ⟨-, rfl⟩ := runs_atSite.mp added
      exact ⟨_, .element resolved rest⟩
    | unresolved fault key =>
      obtain ⟨_, r', reported, same⟩ := runs_bind.mp here
      obtain ⟨-, rfl⟩ := runs_pure.mp same
      exact ⟨_, .undeclared reported rest⟩
    | broken refusal => exact absurd here runs_throw

theorem runs_addParticles_iff (optional : S.options.choice = .allOptional)
    (listed : Particle.Lists S.declarations owner container steps) :
    (∃ frames, Runs (addParticles S nested owner container .empty) p (members, frames) q) ↔
      Runs (steps.foldlM (addStep S nested owner) .empty) p members q := by
  have steps := listed.outline
  unfold addParticles
  rw [optional]
  simp only [runs_bind, runs_pure, steps, Prod.mk.injEq]
  constructor
  · rintro ⟨frames, _, r, h, ⟨rfl, -⟩, rfl⟩
    exact h
  · intro h
    exact ⟨_, members, q, h, ⟨rfl, rfl⟩, rfl⟩

/-- **A content model is flattened to the fold of its leaves**, where branches are not told apart.
What is flattened can be listed and read; and if all of it is listed and read to leaves, it is
flattened exactly if leaves of one name have one type, to the elements that these leaves are folded
into. -/
theorem addParticles_folds (optional : S.options.choice = .allOptional) (nested : Nested)
    (owner : Owner) (container : Site) (p : Progress) :
    (∀ result q, Runs (addParticles S nested owner container .empty) p result q →
      ∃ steps entries, Particle.Lists S.declarations owner container steps ∧
        Reads S nested owner p steps entries q) ∧
    ∀ steps entries q, Particle.Lists S.declarations owner container steps →
      Reads S nested owner p steps entries q →
        ((∃ result q', Runs (addParticles S nested owner container .empty) p result q') ↔
          ∀ a ∈ entries, ∀ b ∈ entries, a.name = b.name → a.declared = b.declared) ∧
        ∀ result q', Runs (addParticles S nested owner container .empty) p result q' →
          q' = q ∧ ∀ nillableAsOptional text, Members.FoldsInto entries nillableAsOptional
            (StructuralType.untexted (result.1.elements nillableAsOptional text)) := by
  constructor
  · intro result q h
    obtain ⟨steps, listed⟩ := Particle.exists_lists (whole_of_addParticles h)
    obtain ⟨entries, read⟩ := exists_reads ((runs_addParticles_iff optional listed).mp ⟨_, h⟩)
    exact ⟨steps, entries, listed, read⟩
  · intro steps entries q listed read
    have collects {result : Members × List ChoiceFrame} {q' : Progress}
        (h : Runs (addParticles S nested owner container .empty) p result q') :
        q' = q ∧ Members.collect [] entries = .ok result.1.leaves :=
      read.collects ((runs_addParticles_iff optional listed).mp ⟨_, h⟩)
    refine ⟨Iff.trans ⟨?_, ?_⟩ Members.exists_collect_iff, ?_⟩
    · rintro ⟨result, q', h⟩
      exact ⟨_, (collects h).2⟩
    · rintro ⟨leaves, collected⟩
      have start : Members.collect Members.empty.leaves entries = .ok leaves := collected
      obtain ⟨members, h⟩ := read.runs start
      obtain ⟨frames, h⟩ := (runs_addParticles_iff optional listed).mpr h
      exact ⟨(members, frames), q, h⟩
    · intro result q' h
      obtain ⟨same, collected⟩ := collects h
      exact ⟨same, (Members.collected_of_collect collected).foldsInto⟩

/-! ### Two elements of one name and a group -/

/-- A type of two lines or more, of which a choice has one, too, and of the group `Extras`. -/
def parcelSite : Site :=
  let xsd (tag : String) (attributes : List (String × String)) (children : List Xml.Node) : Xml.Node :=
    ⟨Vocabulary.xsd, tag, attributes, [("t", some "urn:t")], children, "", 1⟩
  let line := xsd "element" [("name", "line"), ("minOccurs", "2"), ("maxOccurs", "4")] []
  let oneLine := xsd "element" [("name", "line"), ("nillable", "true")] []
  let note := xsd "element" [("name", "note"), ("maxOccurs", "unbounded")] []
  let extras := xsd "group" [("ref", "t:Extras"), ("maxOccurs", "3")] []
  ⟨xsd "complexType" [("name", "Parcel")] [xsd "sequence" [] [line, xsd "choice" [] [oneLine, note], extras]],
    ⟨"memory:t.xsd", "urn:t", default⟩⟩

def parcelSetting : Setting :=
  let xsd (tag : String) (attributes : List (String × String)) (children : List Xml.Node) : Xml.Node :=
    ⟨Vocabulary.xsd, tag, attributes, [("t", some "urn:t")], children, "", 1⟩
  let stamp := xsd "element" [("name", "stamp"), ("minOccurs", "2"), ("maxOccurs", "2")] []
  let extras := xsd "group" [("name", "Extras")] [xsd "sequence" [] [stamp]]
  ⟨{}, ⟨[(.group, ⟨⟨some "urn:t", "Extras"⟩, ⟨extras, ⟨"memory:t.xsd", "urn:t", default⟩⟩⟩)]⟩, 1⟩

/-- The leaves of a parcel: one line asks for two, the other one for none. -/
def parcelRanges : List (String × Range) :=
  [("line", ⟨2, some 4⟩), ("line", ⟨0, some 1⟩), ("note", ⟨0, none⟩), ("stamp", ⟨2, some 6⟩)]

theorem parcel_folds : ∃ steps entries q result,
    parcelSetting.options.choice = .allOptional ∧
    Particle.Lists parcelSetting.declarations (some "Parcel") parcelSite steps ∧
    Reads parcelSetting (complexTypeIn parcelSetting 0 true) (some "Parcel") .start steps entries q ∧
    (entries.map fun a => (a.name, a.range)) = parcelRanges ∧
    Runs (addParticles parcelSetting (complexTypeIn parcelSetting 0 true) (some "Parcel") parcelSite
      .empty) .start result q ∧
    Members.FoldsInto entries (.own false)
      (StructuralType.untexted (result.1.elements (.own false) none)) := by
  obtain ⟨steps, entries, q, listed, read, ranges, agree⟩ : ∃ steps entries q,
      Particle.Lists parcelSetting.declarations (some "Parcel") parcelSite steps ∧
        Reads parcelSetting (complexTypeIn parcelSetting 0 true) (some "Parcel") .start steps entries q ∧
        (entries.map fun a => (a.name, a.range)) = parcelRanges ∧
        ∀ a ∈ entries, ∀ b ∈ entries, a.name = b.name → a.declared = b.declared :=
    ⟨_, _, .start, .group rfl (.inl rfl) rfl (.element rfl rfl rfl rfl (.choice rfl rfl rfl
      (.element rfl rfl rfl rfl (.element rfl rfl rfl rfl .nil))
      (.reference rfl rfl ⟨_, _, rfl, rfl, rfl⟩ rfl (.group rfl (.inl rfl) rfl
        (.element rfl rfl rfl rfl .nil) .nil) .nil))) .nil,
      .element rfl (.element rfl (.element rfl (.element rfl .nil))), rfl, by decide⟩
  obtain ⟨succeeds, folds⟩ := (addParticles_folds rfl (complexTypeIn parcelSetting 0 true)
    (some "Parcel") parcelSite .start).2 steps entries q listed read
  obtain ⟨result, q', run⟩ := succeeds.mpr agree
  obtain ⟨rfl, into⟩ := folds result q' run
  exact ⟨steps, entries, q', result, rfl, listed, read, ranges, run, into _ _⟩

end Compile

end WsdlCatalog
