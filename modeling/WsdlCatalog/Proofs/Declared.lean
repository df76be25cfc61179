/-
  WsdlCatalog.Proofs.Declared — the declarations of a schema set.

  A schema set has declarations iff no name is declared twice in a space, and then they
  are all that its documents declare (`Declarations.ofSchemaSet_eq_ok`). A setting made
  from it is well-formed if its namespaces have no closing brace in them
  (`Setting.WellFormed`).

  Proved: the requests of a well-formed setting have different owners
  (`Setting.WellFormed.nodup_owners`), and canonical names that answer them all tell types
  apart (`Setting.WellFormed.tell`).
-/

import WsdlCatalog.Proofs.Reservation
import WsdlCatalog.Proofs.SimpleType

namespace WsdlCatalog

namespace Declarations

/-- What a declaration must not share with another one. -/
def key (x : Space × Declaration) : Space × QName := (x.1, x.2.name)

def declared (set : SchemaSet) : List (Space × Declaration) :=
  set.documents.flatMap fun document => document.root.children.filterMap (ofNode? document)

theorem lookup_eq_none {ds : Declarations} {space : Space} {name : QName} :
    ds.lookup space name = none ↔ (space, name) ∉ ds.entries.map key := by
  unfold lookup
  rw [Option.map_eq_none_iff, List.find?_eq_none]
  simp only [Bool.and_eq_true, beq_iff_eq, List.mem_map, not_exists, not_and]
  constructor
  · intro h x hx he
    obtain ⟨h₁, h₂⟩ := Prod.mk.inj he
    exact h x hx h₁ h₂
  · intro h x hx h₁ h₂
    exact h x hx (Prod.ext h₁ h₂)

theorem mem_of_lookup {ds : Declarations} {space : Space} {name : QName} {d : Declaration}
    (h : ds.lookup space name = some d) : (space, d) ∈ ds.entries := by
  obtain ⟨⟨s, e⟩, hf, rfl⟩ := Option.map_eq_some_iff.mp h
  have := List.find?_some hf
  simp only [Bool.and_eq_true, beq_iff_eq] at this
  exact this.1 ▸ List.mem_of_find?_eq_some hf

theorem mem_inSpace {ds : Declarations} {space : Space} {d : Declaration} :
    d ∈ ds.inSpace space ↔ (space, d) ∈ ds.entries := by
  unfold inSpace
  simp only [List.mem_filterMap, Prod.exists]
  constructor
  · intro given
    rcases given with ⟨s, e, he, h⟩
    split at h
    · rename_i hs
      cases h
      exact eq_of_beq hs ▸ he
    · cases h
  · intro h
    exact ⟨space, d, h, by rw [beq_self_eq_true, if_pos rfl]⟩

theorem lookup_of_mem {ds : Declarations} (hn : (ds.entries.map key).Nodup) {space : Space}
    {d : Declaration} (h : (space, d) ∈ ds.entries) : ds.lookup space d.name = some d := by
  cases hl : ds.lookup space d.name with
  | none =>
    exact absurd (List.mem_map.mpr ⟨(space, d), h, rfl⟩) (lookup_eq_none.mp hl)
  | some e =>
    have he := name_of_lookup hl
    have := List.inj_on_of_nodup_map hn (mem_of_lookup hl) h (Prod.ext rfl he)
    rw [(Prod.mk.inj this).2]

theorem names_nodup {ds : Declarations} (hn : (ds.entries.map key).Nodup) (space : Space) :
    ((ds.inSpace space).map (·.name)).Nodup := by
  unfold inSpace
  rw [List.map_filterMap]
  rw [List.Nodup, List.pairwise_map] at hn
  rw [List.Nodup, List.pairwise_filterMap]
  refine hn.imp fun {x y} hxy a ha b hb hab => hxy ?_
  subst hab
  obtain ⟨s, d⟩ := x
  obtain ⟨t, e⟩ := y
  obtain ⟨d', hd, rfl⟩ := Option.map_eq_some_iff.mp ha
  obtain ⟨e', he, hn⟩ := Option.map_eq_some_iff.mp hb
  dsimp only at hd he
  split at hd
  · rename_i hs
    cases hd
    split at he
    · rename_i ht
      cases he
      exact Prod.ext ((eq_of_beq hs).trans (eq_of_beq ht).symm) hn.symm
    · cases he
  · cases hd

theorem add_eq_ok {ds result : Declarations} {space : Space} {d : Declaration} :
    ds.add space d = .ok result ↔
      (space, d.name) ∉ ds.entries.map key ∧ result = ⟨ds.entries ++ [(space, d)]⟩ := by
  rw [← lookup_eq_none]
  unfold add
  cases ds.lookup space d.name with
  | some e => exact ⟨(fun h => nomatch h), fun h => nomatch h.1⟩
  | none => exact ⟨fun h => ⟨rfl, (Except.ok.inj h).symm⟩, fun h => congrArg Except.ok h.2.symm⟩

/-- Declarations are all there are, if none repeats a name. -/
theorem foldlM_add (entries : List (Space × Declaration)) :
    ∀ {ds result : Declarations}, (ds.entries.map key).Nodup →
      (entries.foldlM (fun ds x => ds.add x.1 x.2) ds = .ok result ↔
        ((ds.entries ++ entries).map key).Nodup ∧ result.entries = ds.entries ++ entries) := by
  induction entries with
  | nil =>
    intro ds result hn
    rw [List.foldlM_nil, List.append_nil]
    exact ⟨fun h => ⟨hn, congrArg entries (Except.ok.inj h).symm⟩,
      fun h => congrArg Except.ok (by cases ds; cases result; cases h.2; rfl)⟩
  | cons x rest ih =>
    intro ds result hn
    have one : ((ds.entries ++ [x]).map key).Nodup ↔ key x ∉ ds.entries.map key := by
      rw [List.map_append, List.nodup_append]
      simp only [hn, true_and, List.map_cons, List.map_nil, List.nodup_singleton,
        List.mem_singleton, forall_eq]
      exact ⟨fun h hm => h _ hm rfl, fun h y hy e => h (e ▸ hy)⟩
    have more : (ds.entries ++ [x]) ++ rest = ds.entries ++ x :: rest := by
      rw [List.append_assoc, List.singleton_append]
    rw [List.foldlM_cons]
    cases ha : ds.add x.1 x.2 with
    | error e =>
      refine ⟨(fun h => nomatch h), fun h => ?_⟩
      have absent : key x ∉ ds.entries.map key := by
        rw [List.map_append, List.nodup_append] at h
        exact fun hm => h.1.2.2 _ hm _ (List.mem_map_of_mem List.mem_cons_self) rfl
      rw [add_eq_ok.mpr ⟨absent, rfl⟩] at ha
      cases ha
    | ok next =>
      obtain ⟨absent, rfl⟩ := add_eq_ok.mp ha
      have := @ih _ result (one.mpr absent)
      dsimp only at this
      rw [more] at this
      exact this

theorem ofSchemaSet_eq_ok {set : SchemaSet} {ds : Declarations} :
    ofSchemaSet set = .ok ds ↔ ((declared set).map key).Nodup ∧ ds.entries = declared set :=
  foldlM_add (declared set) List.nodup_nil

end Declarations

/-! ## Settings -/

namespace Setting

open Compile

/-- No name is declared twice in a space, and no namespace has a closing brace in it. -/
structure WellFormed (S : Setting) : Prop where
  nodup : (S.declarations.entries.map Declarations.key).Nodup
  plain : ∀ x ∈ S.declarations.entries, x.2.name.Plain

theorem ofSchemaSet_eq_ok {set : SchemaSet} {options : Options} {S : Setting} :
    ofSchemaSet set options = .ok S ↔ S.options = options ∧
      Declarations.ofSchemaSet set = .ok S.declarations ∧
      S.nesting = (set.documents.flatMap fun d => d.root.walk.filter isComplexType).length + 1 := by
  unfold ofSchemaSet
  cases hd : Declarations.ofSchemaSet set with
  | error f => exact ⟨(fun h => nomatch h), fun h => nomatch h.2.1⟩
  | ok ds =>
    constructor
    · intro h
      obtain rfl := Except.ok.inj h
      exact ⟨rfl, rfl, rfl⟩
    · intro given
      rcases given with ⟨rfl, hds, hn⟩
      obtain rfl := Except.ok.inj hds
      exact congrArg Except.ok (by cases S; cases hn; rfl)

theorem plain_of_declared {set : SchemaSet}
    (hp : ∀ d ∈ set.documents, '\x7d' ∉ d.targetNamespace.toList) :
    ∀ x ∈ Declarations.declared set, x.2.name.Plain := by
  intro x hx
  obtain ⟨document, hd, hx⟩ := List.mem_flatMap.mp hx
  obtain ⟨node, -, hx⟩ := List.mem_filterMap.mp hx
  unfold Declarations.ofNode? at hx
  split at hx
  · split at hx
    · cases hx
      exact ⟨_, rfl, hp document hd⟩
    · cases hx
  · cases hx

theorem wellFormed {set : SchemaSet} {options : Options} {S : Setting}
    (h : ofSchemaSet set options = .ok S)
    (hp : ∀ d ∈ set.documents, '\x7d' ∉ d.targetNamespace.toList) : S.WellFormed := by
  obtain ⟨hn, he⟩ := Declarations.ofSchemaSet_eq_ok.mp (ofSchemaSet_eq_ok.mp h).2.1
  exact ⟨he ▸ hn, he ▸ plain_of_declared hp⟩

def names (S : Setting) : Names := (Inventory.mk (requests S) [] []).canonical?

namespace WellFormed

variable {S : Setting}

theorem lookup_of_mem (h : S.WellFormed) {space : Space} {d : Declaration}
    (hd : d ∈ S.declarations.inSpace space) : S.declarations.lookup space d.name = some d :=
  Declarations.lookup_of_mem h.nodup (Declarations.mem_inSpace.mp hd)

theorem plain_of_mem (h : S.WellFormed) {space : Space} {d : Declaration}
    (hd : d ∈ S.declarations.inSpace space) : d.name.Plain :=
  h.plain _ (Declarations.mem_inSpace.mp hd)

theorem nodup_owners (h : S.WellFormed) : ((requests S).map (·.owner)).Nodup := by
  have distinct (space : Space) {ds : List Declaration} (hs : ds.Sublist (S.declarations.inSpace space))
      (f : QName → String) (hf : ∀ a b : QName, a.Plain → b.Plain → f a = f b → a = b) :
      (ds.map fun d => f d.name).Nodup := by
    have hn : (ds.map (·.name)).Nodup :=
      (hs.map _).nodup (Declarations.names_nodup h.nodup space)
    have := List.Nodup.map_on (f := f) ?_ hn
    · rwa [List.map_map] at this
    · intro _ ha _ hb he
      obtain ⟨d, hd, rfl⟩ := List.mem_map.mp ha
      obtain ⟨e, he', rfl⟩ := List.mem_map.mp hb
      exact hf _ _ (h.plain_of_mem (hs.subset hd)) (h.plain_of_mem (hs.subset he')) he
  unfold requests
  rw [List.map_append, List.map_map, List.map_map, List.nodup_append]
  refine ⟨distinct .type (List.Sublist.refl _) _ fun _ _ => ownerOfType_injective,
    distinct .element List.filter_sublist _ fun _ _ => ownerOfElement_injective, ?_⟩
  intro _ ha _ hb same
  subst same
  obtain ⟨d, -, hd⟩ := List.mem_map.mp ha
  obtain ⟨e, -, he⟩ := List.mem_map.mp hb
  exact ownerOfType_ne_element _ _ (hd.trans he.symm)

theorem type_mem_requests {d : Declaration} (hd : d ∈ S.declarations.inSpace .type) :
    (⟨ownerOfType d.name, Text.pascal d.name.localPart, d.name⟩ : Reservation) ∈ requests S :=
  List.mem_append_left _ (List.mem_map.mpr ⟨d, hd, rfl⟩)

theorem element_mem_requests {d : Declaration} (hd : d ∈ elementsWithTypes S) :
    (⟨ownerOfElement d.name, Text.pascal d.name.localPart, d.name⟩ : Reservation) ∈ requests S :=
  List.mem_append_right _ (List.mem_map.mpr ⟨d, hd, rfl⟩)

theorem names_type (h : S.WellFormed) {d : Declaration} (hd : d ∈ S.declarations.inSpace .type) :
    S.names (ownerOfType d.name) = some (Text.pascal d.name.localPart) :=
  @Inventory.canonical?_of_mem ⟨requests S, [], []⟩ h.nodup_owners _
    (type_mem_requests hd)

theorem names_element (h : S.WellFormed) {d : Declaration} (hd : d ∈ elementsWithTypes S) :
    S.names (ownerOfElement d.name) = some (Text.pascal d.name.localPart) :=
  @Inventory.canonical?_of_mem ⟨requests S, [], []⟩ h.nodup_owners _
    (element_mem_requests hd)

theorem mem_of_lookup {space : Space} {d : Declaration}
    (hd : S.declarations.lookup space d.name = some d) : d ∈ S.declarations.inSpace space :=
  Declarations.mem_inSpace.mpr (Declarations.mem_of_lookup hd)

/-- Canonical names tell types apart if no two requests ask for the same one. -/
theorem tell (h : S.WellFormed) (hc : ((requests S).map (·.canonical)).Nodup) : S.names.Tell S where
  settled d hd := ⟨_, h.names_type (mem_of_lookup hd)⟩
  settledElement d hd ho :=
    ⟨_, h.names_element (List.mem_filter.mpr ⟨mem_of_lookup hd, ho⟩)⟩
  injective d e hd he hn := by
    rw [h.names_type (mem_of_lookup hd), h.names_type (mem_of_lookup he)] at hn
    have := List.inj_on_of_nodup_map hc (type_mem_requests (mem_of_lookup hd))
      (type_mem_requests (mem_of_lookup he)) (Option.some.inj hn)
    have hn := (Reservation.mk.inj this).2.2
    rw [hn, he] at hd
    exact (Option.some.inj hd).symm

end WellFormed

end Setting

end WsdlCatalog
