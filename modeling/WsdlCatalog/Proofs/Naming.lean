/-
  WsdlCatalog.Proofs.Naming — the target namespaces that schemas take from one another.

  Which schemas a search meets does not depend on target namespaces, so they can be given out
  afterwards, in the order of the search (`named`). A schema of the entry inherits none. A
  schema at a location inherits from the latest one before it that refers to the location,
  and by the first of that schema's references to it: an import passes nothing on
  (`Visit.passes?`, `inheritedBy`).

  Proved: names are given out one at a time and are never changed (`named_snoc`,
  `named_append`), and a schema that a search goes on to inherits from the one that the search
  goes on from (`inheritedBy_found`).
-/

import Mathlib.Data.List.Induction
import WsdlCatalog.Proofs.Discovery

namespace WsdlCatalog

open Search

namespace Station

def references (s : Station) : List Xml.Node := s.schema.children.filter Assembly.isReference

def leads (entry : String) (s : Station) (location : String) (reference : Xml.Node) : Bool :=
  match reference.filled? "schemaLocation" with
  | some written => (Location.resolve (s.base entry) written).toOption == some location
  | none => false

def referenceTo? (entry : String) (s : Station) (location : String) : Option Xml.Node :=
  s.references.find? (s.leads entry location)

variable {entry : String} {s : Station} {l : String} {reference : Xml.Node}

theorem leads_iff : s.leads entry l reference = true ↔
    ∃ written, reference.filled? "schemaLocation" = some written ∧
      Location.resolve (s.base entry) written = .ok l := by
  unfold leads
  cases hw : reference.filled? "schemaLocation" with
  | none => exact ⟨nofun, fun given => nomatch given.choose_spec.1⟩
  | some written =>
    simp only [Option.some.injEq, exists_eq_left', beq_iff_eq]
    cases Location.resolve (s.base entry) written with
    | error e => exact ⟨nofun, nofun⟩
    | ok m => exact ⟨fun h => congrArg _ (Option.some.inj h), fun h => congrArg _ (Except.ok.inj h)⟩

theorem mem_targets_of_leads (hr : reference ∈ s.references)
    (hl : s.leads entry l reference = true) : l ∈ s.targets entry := by
  obtain ⟨written, hw, resolves⟩ := leads_iff.mp hl
  exact Station.mem_targets.mpr ⟨written, List.mem_filterMap.mpr ⟨reference, hr, hw⟩, resolves⟩

/-- A schema whose references all lead to what is known does not refer to anything else. -/
theorem Settled.referenceTo?_eq_none {locations : List String} (h : s.Settled entry locations)
    (hl : l ∉ locations) : s.referenceTo? entry l = none := by
  unfold referenceTo?
  rw [List.find?_eq_none]
  intro reference hr leads
  exact hl (h.mem_targets (mem_targets_of_leads hr leads))

end Station

structure Visit where
  station : Station
  target : String

namespace Visit

def document (v : Visit) : SchemaDocument := ⟨v.station.location, v.target, v.station.schema⟩

/-- What a schema passes on to the one at a location, if it refers to it: its target namespace,
or none by an import. -/
def passes? (entry : String) (v : Visit) (location : String) : Option (Option String) :=
  (v.station.referenceTo? entry location).map fun reference =>
    if reference.tag == "import" then none else some v.target

end Visit

/-- The target namespace that a schema inherits after some visits. -/
def inheritedBy (entry : String) (visits : List Visit) : Station → Option String
  | .held _ _ => none
  | .found location _ => (visits.reverse.findSome? (·.passes? entry location)).join

def visit (entry : String) (visits : List Visit) (s : Station) : Visit :=
  ⟨s, Assembly.targetOf s.schema (inheritedBy entry visits s)⟩

def named (entry : String) (order : List Station) : List Visit :=
  order.foldl (fun visits s => visits ++ [visit entry visits s]) []

variable {entry : String} {order before after : List Station} {s : Station} {l : String}
  {schema reference : Xml.Node}

theorem named_snoc (order : List Station) (s : Station) :
    named entry (order ++ [s]) = named entry order ++ [visit entry (named entry order) s] := by
  unfold named
  rw [List.foldl_append]
  rfl

/-- Visits remain as they are when a search goes on. -/
theorem named_append (entry : String) (order more : List Station) : ∃ visits,
    named entry (order ++ more) = named entry order ++ visits ∧ visits.map Visit.station = more := by
  induction more using List.reverseRecOn with
  | nil => exact ⟨[], by simp, rfl⟩
  | append_singleton more s ih =>
    obtain ⟨visits, named, stations⟩ := ih
    refine ⟨visits ++ [visit entry (WsdlCatalog.named entry (order ++ more)) s], ?_, ?_⟩
    · rw [← List.append_assoc, named_snoc, named, List.append_assoc]
    · rw [List.map_append, stations]
      rfl

theorem named_station (entry : String) (order : List Station) :
    (named entry order).map Visit.station = order := by
  obtain ⟨visits, named, stations⟩ := named_append entry [] order
  rw [List.nil_append] at named
  rw [named]
  exact stations

/-- The visits of a search up to a schema, that schema, and the visits after it. -/
theorem named_split (entry : String) (before after : List Station) (s : Station) : ∃ visits,
    named entry (before ++ s :: after) =
      named entry before ++ visit entry (named entry before) s :: visits ∧
    visits.map Visit.station = after := by
  obtain ⟨visits, named, stations⟩ := named_append entry (before ++ [s]) after
  refine ⟨visits, ?_, stations⟩
  rw [named_snoc, List.append_assoc, List.append_assoc] at named
  exact named

/-- Names apart, the documents are the schemas that the search met. -/
theorem named_documents (entry : String) (order : List Station) :
    ((named entry order).map Visit.document).map (fun d => (d.location, d.root)) =
      order.map fun s => (s.location, s.schema) := by
  rw [List.map_map, ← named_station entry order, List.map_map, named_station]
  rfl

/-- A schema inherits from the latest one that refers to its location. -/
theorem inheritedBy_latest {visits later : List Visit} {v : Visit}
    (hr : v.station.referenceTo? entry l = some reference)
    (latest : ∀ x ∈ later, x.station.referenceTo? entry l = none) :
    inheritedBy entry (visits ++ v :: later) (.found l schema) =
      if reference.tag == "import" then none else some v.target := by
  have behind : later.reverse.findSome? (·.passes? entry l) = none := by
    rw [List.findSome?_eq_none_iff]
    intro x hx
    unfold Visit.passes?
    rw [latest x (List.mem_reverse.mp hx)]
    rfl
  have here : v.passes? entry l =
      some (if reference.tag == "import" then none else some v.target) := by
    unfold Visit.passes?
    rw [hr]
    rfl
  have reversed : (visits ++ v :: later).reverse = later.reverse ++ v :: visits.reverse := by simp
  show (List.findSome? _ _).join = _
  rw [reversed, List.findSome?_append, behind, Option.none_or, List.findSome?_cons, here]
  rfl

/-- A schema that a search goes on to inherits from the one that the search goes on from. -/
theorem inheritedBy_found (schema : Xml.Node) (hr : s.referenceTo? entry l = some reference)
    (settled : ∀ x ∈ after, x.Settled entry (known entry (before ++ s :: after)))
    (hl : l ∉ known entry (before ++ s :: after)) :
    inheritedBy entry (named entry (before ++ s :: after)) (.found l schema) =
      if reference.tag == "import" then none
      else some (visit entry (named entry before) s).target := by
  obtain ⟨visits, named, stations⟩ := named_split entry before after s
  rw [named]
  apply inheritedBy_latest (v := visit entry _ s) hr
  intro x hx
  have hx : x.station ∈ after := stations ▸ List.mem_map_of_mem hx
  exact (settled _ hx).referenceTo?_eq_none hl

end WsdlCatalog
