/-
  WsdlCatalog.Proofs.Discovery — the schemas that references lead to, and the order in which
  a search meets them.

  A schema is met because the entry document holds it or because a reference leads to its
  location (`Station`). Locations that references lead to, from the schemas of the entry
  onwards, are reachable (`Reachable`). A search goes on from the schema that it met last and
  whose references lead somewhere new, to the first such place; only when no schema leads
  anywhere new does it turn to the next schema of the entry (`DepthFirst`).

  Proved, of every graph of references: a search finds no location twice and none that is not
  reachable (`DepthFirst.nodup`, `DepthFirst.reachable`), and when nothing is left to go to it
  has found all of them (`DepthFirst.mem_found_iff`).
-/

import Mathlib.Data.List.Nodup
import WsdlCatalog.Schema.Assembly

namespace WsdlCatalog

def Xml.Node.schemaLocations (schema : Xml.Node) : List String :=
  (schema.children.filter Assembly.isReference).filterMap (·.filled? "schemaLocation")

def Sources.schemaAt (sources : Sources) (location : String) : Option Xml.Node :=
  match sources.read location none with
  | .ok root => if root.isA Vocabulary.xsd "schema" then some root else none
  | .error _ => none

/-- A schema as it is met: in the entry, under a name of its own, or at a location. -/
inductive Station where
  | held (name : String) (schema : Xml.Node)
  | found (location : String) (schema : Xml.Node)
  deriving Repr

namespace Station

def location : Station → String
  | held name _ => name
  | found location _ => location

def schema : Station → Xml.Node
  | held _ schema => schema
  | found _ schema => schema

def base (entry : String) : Station → String
  | held _ _ => entry
  | found location _ => location

def held? : Station → Option (String × Xml.Node)
  | held name schema => some (name, schema)
  | found _ _ => none

def found? : Station → Option String
  | held _ _ => none
  | found location _ => some location

def targets (entry : String) (s : Station) : List String :=
  s.schema.schemaLocations.filterMap fun written =>
    (Location.resolve (s.base entry) written).toOption

def Settled (entry : String) (locations : List String) (s : Station) : Prop :=
  ∀ written ∈ s.schema.schemaLocations, ∃ l ∈ locations,
    Location.resolve (s.base entry) written = .ok l

end Station

/-! ## Places that can be reached -/

section

variable (sources : Sources) (entry : String) (held : List (String × Xml.Node))

/-- The locations that references lead to, beginning with the schemas that the entry holds. -/
inductive Reachable : String → Prop
  | first {name : String} {schema : Xml.Node} {l : String} (hh : (name, schema) ∈ held)
      (hl : l ∈ (Station.held name schema).targets entry) : Reachable l
  | next {l m : String} {schema : Xml.Node} (hl : Reachable l)
      (hs : sources.schemaAt l = some schema)
      (hm : m ∈ (Station.found l schema).targets entry) : Reachable m

def Station.Met : Station → Prop
  | .held name schema => (name, schema) ∈ held
  | .found l schema => Reachable sources entry held l ∧ sources.schemaAt l = some schema

/-- There is a schema at every reachable location but the entry, and all references that are met
can be resolved. -/
structure AllSupplied : Prop where
  supplied : ∀ l, Reachable sources entry held l → l ≠ entry →
    ∃ schema, sources.schemaAt l = some schema
  resolved : ∀ s, Station.Met sources entry held s → ∀ written ∈ s.schema.schemaLocations,
    ∃ l, Location.resolve (s.base entry) written = .ok l

end

variable {sources : Sources} {entry : String} {held waiting : List (String × Xml.Node)}
  {order : List Station}

theorem Station.Met.target {s : Station} (hs : s.Met sources entry held) {l : String}
    (hl : l ∈ s.targets entry) : Reachable sources entry held l := by
  cases s with
  | held name schema => exact .first hs hl
  | found m schema => exact .next hs.1 hs.2 hl

theorem Station.mem_targets {s : Station} {l : String} : l ∈ s.targets entry ↔
    ∃ written ∈ s.schema.schemaLocations, Location.resolve (s.base entry) written = .ok l := by
  unfold Station.targets
  rw [List.mem_filterMap]
  constructor
  · intro given
    rcases given with ⟨written, hw, h⟩
    cases hr : Location.resolve (s.base entry) written with
    | error e => rw [hr] at h; cases h
    | ok m => rw [hr] at h; cases h; exact ⟨written, hw, hr⟩
  · intro given
    rcases given with ⟨written, hw, h⟩
    exact ⟨written, hw, by rw [h]; rfl⟩

theorem Station.Settled.mem_targets {s : Station} {locations : List String}
    (h : s.Settled entry locations) {l : String} (hl : l ∈ s.targets entry) : l ∈ locations := by
  obtain ⟨written, hw, hr⟩ := Station.mem_targets.mp hl
  obtain ⟨m, hm, hm'⟩ := h written hw
  rw [hr] at hm'
  cases hm'
  exact hm

theorem Station.Settled.mono {s : Station} {locations more : List String}
    (h : s.Settled entry locations) (hs : locations ⊆ more) : s.Settled entry more := by
  intro written hw
  obtain ⟨l, hl, hr⟩ := h written hw
  exact ⟨l, hs hl, hr⟩

theorem Station.mem_found {l : String} :
    l ∈ order.filterMap Station.found? ↔ ∃ schema, Station.found l schema ∈ order := by
  rw [List.mem_filterMap]
  constructor
  · intro given
    obtain ⟨s, hs, hl⟩ := given
    cases s with
    | held name schema => cases hl
    | found m schema => cases hl; exact ⟨schema, hs⟩
  · intro given
    obtain ⟨schema, hs⟩ := given
    exact ⟨_, hs, rfl⟩

theorem Station.mem_held {name : String} {schema : Xml.Node} :
    (name, schema) ∈ order.filterMap Station.held? ↔ Station.held name schema ∈ order := by
  rw [List.mem_filterMap]
  constructor
  · intro given
    obtain ⟨s, hs, hl⟩ := given
    cases s with
    | held other schema => cases hl; exact hs
    | found m schema => cases hl
  · exact fun hs => ⟨_, hs, rfl⟩

/-! ## The order of a search -/

namespace Search

/-- The locations that need not be gone to any more: that of the entry, and those found. -/
def known (entry : String) (order : List Station) : List String :=
  entry :: order.filterMap Station.found?

/-- Where a search goes next: among the schemas met so far, the latest one with a reference to a
location not known says where, by the first of them. -/
def next? (entry : String) (order : List Station) : Option String :=
  order.reverse.findSome? fun s =>
    (s.targets entry).find? fun l => !(known entry order).contains l

theorem known_append (order more : List Station) :
    known entry (order ++ more) = known entry order ++ more.filterMap Station.found? := by
  simp only [known, List.filterMap_append, List.cons_append]

theorem known_subset (order more : List Station) :
    known entry order ⊆ known entry (order ++ more) := by
  rw [known_append]
  exact List.subset_append_left _ _

theorem next?_eq_none (h : ∀ s ∈ order, s.Settled entry (known entry order)) :
    next? entry order = none := by
  unfold next?
  rw [List.findSome?_eq_none_iff]
  intro s hs
  rw [List.find?_eq_none]
  intro l hl
  simpa using (h s (List.mem_reverse.mp hs)).mem_targets hl

theorem mem_known_of_next? (h : next? entry order = none) {s : Station} (hs : s ∈ order)
    {l : String} (hl : l ∈ s.targets entry) : l ∈ known entry order := by
  unfold next? at h
  rw [List.findSome?_eq_none_iff] at h
  have := List.find?_eq_none.mp (h s (List.mem_reverse.mpr hs)) l hl
  simpa using this

/-- A search goes on from a schema as soon as those met after it lead nowhere new. -/
theorem next?_eq_some {before after : List Station} {s : Station} {l : String}
    {done rest : List String} (hs : s.targets entry = done ++ l :: rest)
    (ho : order = before ++ s :: after) (hd : ∀ m ∈ done, m ∈ known entry order)
    (ha : ∀ x ∈ after, x.Settled entry (known entry order)) (hl : l ∉ known entry order) :
    next? entry order = some l := by
  have behind : after.reverse.findSome? (fun x =>
      (x.targets entry).find? fun m => !(known entry order).contains m) = none := by
    rw [List.findSome?_eq_none_iff]
    intro x hx
    rw [List.find?_eq_none]
    intro m hm
    simpa using (ha x (List.mem_reverse.mp hx)).mem_targets hm
  have skipped : done.find? (fun m => !(known entry order).contains m) = none := by
    rw [List.find?_eq_none]
    intro m hm
    simpa using hd m hm
  have here : (s.targets entry).find? (fun m => !(known entry order).contains m) = some l := by
    rw [hs, List.find?_append, skipped, Option.none_or, List.find?_cons_of_pos]
    simpa using hl
  have reversed : order.reverse = after.reverse ++ s :: before.reverse := by rw [ho]; simp
  unfold next?
  rw [reversed, List.findSome?_append, behind, Option.none_or]
  simp only [List.findSome?_cons, here]

end Search

open Search

/-- The schemas in the order in which a search meets them, and those of the entry that it has not
come to yet. -/
inductive DepthFirst (sources : Sources) (entry : String) (held : List (String × Xml.Node)) :
    List Station → List (String × Xml.Node) → Prop
  | start : DepthFirst sources entry held [] held
  | held {order : List Station} {name : String} {schema : Xml.Node}
      {waiting : List (String × Xml.Node)}
      (before : DepthFirst sources entry held order ((name, schema) :: waiting))
      (none_left : next? entry order = none) :
      DepthFirst sources entry held (order ++ [.held name schema]) waiting
  | found {order : List Station} {l : String} {schema : Xml.Node}
      {waiting : List (String × Xml.Node)}
      (before : DepthFirst sources entry held order waiting) (next : next? entry order = some l)
      (supplied : sources.schemaAt l = some schema) :
      DepthFirst sources entry held (order ++ [.found l schema]) waiting

namespace DepthFirst

/-- Every schema that is met is one of the entry or at a reachable location. -/
theorem met (h : DepthFirst sources entry held order waiting) :
    (∀ s ∈ order, s.Met sources entry held) ∧ ∀ x ∈ waiting, x ∈ held := by
  induction h with
  | start => exact ⟨fun _ hs => absurd hs List.not_mem_nil, fun _ hx => hx⟩
  | @held order name schema waiting before none_left ih =>
    constructor
    · intro s hs
      rcases List.mem_append.mp hs with hs | hs
      · exact ih.1 s hs
      · cases List.mem_singleton.mp hs
        exact ih.2 _ List.mem_cons_self
    · intro x hx
      exact ih.2 x (List.mem_cons_of_mem _ hx)
  | @found order l schema waiting before next supplied ih =>
    refine ⟨?_, ih.2⟩
    intro s hs
    rcases List.mem_append.mp hs with hs | hs
    · exact ih.1 s hs
    · cases List.mem_singleton.mp hs
      obtain ⟨from_, hf, hl⟩ := List.exists_of_findSome?_eq_some next
      exact ⟨(ih.1 from_ (List.mem_reverse.mp hf)).target (List.mem_of_find?_eq_some hl), supplied⟩

/-- A location that a search goes to is not known before. -/
theorem not_mem_known {l : String} (next : next? entry order = some l) :
    l ∉ known entry order := by
  obtain ⟨s, -, hl⟩ := List.exists_of_findSome?_eq_some next
  simpa using List.find?_some hl

theorem nodup (h : DepthFirst sources entry held order waiting) : (known entry order).Nodup := by
  induction h with
  | start => exact List.nodup_singleton entry
  | @held order name schema waiting before none_left ih =>
    rw [known_append]
    exact (List.append_nil (known entry order)).symm ▸ ih
  | @found order l schema waiting before next supplied ih =>
    rw [known_append]
    exact List.nodup_append.mpr ⟨ih, List.nodup_singleton l,
      fun a ha b hb => by cases List.mem_singleton.mp hb; exact fun e => not_mem_known next (e ▸ ha)⟩

/-- The schemas of the entry come in their order. -/
theorem held_append (h : DepthFirst sources entry held order waiting) :
    order.filterMap Station.held? ++ waiting = held := by
  induction h with
  | start => rfl
  | @held order name schema waiting before none_left ih =>
    rw [List.filterMap_append, List.append_assoc]
    exact ih
  | @found order l schema waiting before next supplied ih =>
    rw [List.filterMap_append]
    exact (List.append_nil (order.filterMap Station.held?)).symm ▸ ih

theorem reachable (h : DepthFirst sources entry held order waiting) {l : String}
    (hl : l ∈ order.filterMap Station.found?) : Reachable sources entry held l := by
  obtain ⟨schema, hs⟩ := Station.mem_found.mp hl
  exact (h.met.1 _ hs).1

theorem mem_held (h : DepthFirst sources entry held order []) {name : String} {schema : Xml.Node}
    (hh : (name, schema) ∈ held) : Station.held name schema ∈ order := by
  rw [← h.held_append, List.append_nil] at hh
  exact Station.mem_held.mp hh

/-- A search that has come to its end knows every reachable location. -/
theorem mem_known (h : DepthFirst sources entry held order []) (hn : next? entry order = none)
    (he : ∀ schema, sources.schemaAt entry = some schema → ∃ name, (name, schema) ∈ held)
    {l : String} (hl : Reachable sources entry held l) : l ∈ known entry order := by
  induction hl with
  | first hh hl => exact mem_known_of_next? hn (h.mem_held hh) hl
  | @next l m schema hl hs hm ih =>
    rcases List.mem_cons.mp ih with rfl | ih
    · -- a reference back to the entry leads where the schema held there leads
      obtain ⟨name, hh⟩ := he schema hs
      exact mem_known_of_next? hn (h.mem_held hh) hm
    · obtain ⟨other, hso⟩ := Station.mem_found.mp ih
      have same : other = schema := Option.some.inj ((h.met.1 _ hso).2.symm.trans hs)
      exact mem_known_of_next? hn hso (same ▸ hm)

/-- A search that has come to its end has found the reachable locations, but for the entry. -/
theorem mem_found_iff (h : DepthFirst sources entry held order []) (hn : next? entry order = none)
    (he : ∀ schema, sources.schemaAt entry = some schema → ∃ name, (name, schema) ∈ held)
    (l : String) :
    l ∈ order.filterMap Station.found? ↔ Reachable sources entry held l ∧ l ≠ entry := by
  constructor
  · intro hl
    refine ⟨h.reachable hl, ?_⟩
    rintro rfl
    exact (List.nodup_cons.mp h.nodup).1 hl
  · intro given
    rcases given with ⟨hl, hne⟩
    rcases List.mem_cons.mp (h.mem_known hn he hl) with rfl | hl
    · exact absurd rfl hne
    · exact hl

end DepthFirst

end WsdlCatalog
