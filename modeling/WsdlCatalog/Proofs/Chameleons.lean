/-
  WsdlCatalog.Proofs.Chameleons — the namespace that an included schema takes.

  A schema without a target namespace takes the one of the schema that includes it. A location
  is followed once, though, by whichever reference the search comes to first, and that
  reference decides. One that includes the schema into another namespace afterwards is passed
  over, and so is one that comes after an import.

  Proved, of every assembly that succeeds (`SchemaSet.assemble_inherits`): its documents are the
  schemas that a depth-first search meets, named in that order. Where an include leads to a
  schema without a target namespace, one document stands for it, and it is named by the latest
  of the documents before it that refer to it. So it has the namespace of the one that
  includes it as long as all of those have this namespace and none of them imports it.
  Otherwise it may be missing there (`SchemaSet.overtaken_lost`).
-/

import WsdlCatalog.Proofs.Assembly

namespace WsdlCatalog

open Search

/-! ## One visit for each place -/

/-- If a key stands once among those of a list, no other item of the list has it. -/
theorem key_unique {α β : Type} {key? : α → Option β} {before after : List α} {x : α} {k : β}
    (once : ((before ++ x :: after).filterMap key?).Nodup) (hx : key? x = some k) :
    ∀ y ∈ before ++ after, key? y ≠ some k := by
  rw [List.filterMap_append, List.filterMap_cons, hx] at once
  intro y hy hk
  have apart := (List.nodup_middle.mp once).notMem
  rw [← List.filterMap_append] at apart
  exact apart (List.mem_filterMap.mpr ⟨y, hy, hk⟩)

/-- An item of a list that grows at its end is the one that is added, or was there before. -/
theorem snoc_split {α : Type} {items before after : List α} {x y : α}
    (e : items ++ [x] = before ++ y :: after) :
    (items = before ∧ x = y) ∨ ∃ rest, items = before ++ y :: rest := by
  rcases List.eq_nil_or_concat after with rfl | ⟨rest, last, rfl⟩
  · obtain ⟨same, last⟩ := List.append_inj' e rfl
    exact .inl ⟨same, List.head_eq_of_cons_eq last⟩
  · rw [List.concat_eq_append, ← List.cons_append, ← List.append_assoc] at e
    exact .inr ⟨rest, (List.append_inj' e rfl).1⟩

namespace DepthFirst

variable {sources : Sources} {entry : String} {held waiting : List (String × Xml.Node)}
  {order before after : List Station} {l : String} {schema : Xml.Node}

/-- What was met before the schema at a location led there. -/
theorem next_before (h : DepthFirst sources entry held order waiting) :
    ∀ {after : List Station}, order = before ++ .found l schema :: after →
      next? entry before = some l := by
  induction h with
  | start =>
    intro after e
    exact absurd e.symm (by simp)
  | held _ _ ih =>
    intro after e
    rcases snoc_split e with ⟨-, same⟩ | ⟨rest, earlier⟩
    · cases same
    · exact ih earlier
  | found _ next _ ih =>
    intro after e
    rcases snoc_split e with ⟨rfl, same⟩ | ⟨rest, earlier⟩
    · cases same
      exact next
    · exact ih earlier

/-- Some schema that was met before the one at a location refers to it. -/
theorem referred (h : DepthFirst sources entry held order waiting)
    (ho : order = before ++ .found l schema :: after) :
    ∃ s ∈ before, ∃ reference, s.referenceTo? entry l = some reference := by
  obtain ⟨s, hs, hl⟩ := List.exists_of_findSome?_eq_some (h.next_before ho)
  obtain ⟨written, hw, resolves⟩ := Station.mem_targets.mp (List.mem_of_find?_eq_some hl)
  obtain ⟨reference, hr, hw⟩ := List.mem_filterMap.mp hw
  have leads : s.leads entry l reference = true := Station.leads_iff.mpr ⟨written, hw, resolves⟩
  refine ⟨s, List.mem_reverse.mp hs, Option.isSome_iff_exists.mp ?_⟩
  exact List.find?_isSome.mpr ⟨reference, hr, leads⟩

end DepthFirst

/-! ## References that include and references that import -/

namespace Visit

variable {entry : String} {v : Visit} {l target : String}

def Includes (entry : String) (v : Visit) (l : String) : Prop :=
  ∃ reference ∈ v.station.references, reference.tag ≠ "import" ∧
    v.station.leads entry l reference = true

def Imports (entry : String) (v : Visit) (l : String) : Prop :=
  ∃ reference ∈ v.station.references, reference.tag = "import" ∧
    v.station.leads entry l reference = true

/-- The schema does not refer to the one at a location, other than to include it into a
namespace. -/
def IncludesOnly (entry : String) (v : Visit) (l target : String) : Prop :=
  ¬ v.Imports entry l ∧ (v.Includes entry l → v.target = target)

theorem Includes.mem_targets (h : v.Includes entry l) : l ∈ v.station.targets entry := by
  obtain ⟨reference, hr, -, leads⟩ := h
  exact Station.mem_targets_of_leads hr leads

theorem IncludesOnly.passes {passed : Option String} (h : v.IncludesOnly entry l target)
    (hp : v.passes? entry l = some passed) : passed = some target := by
  obtain ⟨reference, hr, rfl⟩ := Option.map_eq_some_iff.mp hp
  have member := List.mem_of_find?_eq_some hr
  have leads := List.find?_some hr
  by_cases import_ : reference.tag = "import"
  · exact absurd ⟨reference, member, import_, leads⟩ h.1
  · rw [if_neg (by simpa using import_), h.2 ⟨reference, member, import_, leads⟩]

end Visit

/-- If all that refer to a location include the schema there into one namespace, it inherits
that. -/
theorem inheritedBy_of_includesOnly {entry l target : String} {schema : Xml.Node}
    {visits : List Visit} (only : ∀ u ∈ visits, u.IncludesOnly entry l target)
    (referred : ∃ u ∈ visits, ∃ reference, u.station.referenceTo? entry l = some reference) :
    inheritedBy entry visits (.found l schema) = some target := by
  show (List.findSome? _ _).join = _
  cases hp : visits.reverse.findSome? (·.passes? entry l) with
  | none =>
    obtain ⟨u, hu, reference, hr⟩ := referred
    have passes := List.findSome?_eq_none_iff.mp hp u (List.mem_reverse.mpr hu)
    unfold Visit.passes? at passes
    rw [hr] at passes
    cases passes
  | some passed =>
    obtain ⟨u, hu, passes⟩ := List.exists_of_findSome?_eq_some hp
    rw [(only u (List.mem_reverse.mp hu)).passes passes]
    rfl

namespace SchemaSet

/-! ## The documents of a set -/

def stationAt (entry l : String) (schema : Xml.Node) : Station :=
  if l = entry then .held entry schema else .found l schema

variable {location entry l : String} {entries : List (String × List UInt8)} {sources : Sources}
  {root schema : Xml.Node} {held : List (String × Xml.Node)} {set : SchemaSet}
  {order before after : List Station}

/-- A schema without a target namespace has the one that it inherits. -/
theorem target_stationAt (entry l : String)
    (nameless : schema.attribute? "targetNamespace" = none) (visits : List Visit) :
    (visit entry visits (stationAt entry l schema)).target =
      (inheritedBy entry visits (stationAt entry l schema)).getD "" := by
  have same : (stationAt entry l schema).schema = schema := by
    unfold stationAt
    split <;> rfl
  unfold visit Assembly.targetOf
  rw [same, nameless, Option.none_or]

/-- A schema that a reference leads to was met, once. -/
theorem Opens.stands (opens : Opens location entries sources entry root held)
    (search : DepthFirst sources entry held order []) (ended : next? entry order = none)
    {s : Station} (hs : s ∈ order) (hl : l ∈ s.targets entry)
    (supplied : sources.schemaAt l = some schema) : ∃ before after,
      order = before ++ stationAt entry l schema :: after ∧
      ∀ x ∈ before ++ after, x ≠ stationAt entry l schema := by
  unfold stationAt
  by_cases e : l = entry
  · -- the entry is known from the start, so a schema there is met as the one it holds
    subst e
    rw [if_pos rfl]
    have all := opens.held_eq supplied
    have hm : Station.held l schema ∈ order := search.mem_held (all ▸ List.mem_singleton_self _)
    obtain ⟨before, after, rfl⟩ := List.append_of_mem hm
    refine ⟨before, after, rfl, ?_⟩
    have once : ((before ++ .held l schema :: after).filterMap Station.held?).Nodup := by
      have := search.held_append
      rw [List.append_nil, all] at this
      rw [this]
      exact List.nodup_singleton _
    intro x hx same
    exact key_unique once rfl x hx (same ▸ rfl)
  · rw [if_neg e]
    have hk := mem_known_of_next? ended hs hl
    obtain ⟨other, hm⟩ := Station.mem_found.mp ((List.mem_cons.mp hk).resolve_left e)
    obtain rfl : other = schema :=
      Option.some.inj ((search.met.1 _ hm).2.symm.trans supplied)
    obtain ⟨before, after, rfl⟩ := List.append_of_mem hm
    refine ⟨before, after, rfl, ?_⟩
    intro x hx same
    exact key_unique (List.nodup_cons.mp search.nodup).2 rfl x hx (same ▸ rfl)

/-- Documents are named in the order in which they are found. Where a schema includes one that
has no target namespace, one document stands for that, which has what it inherits from those
before it; that is the namespace of the schema that includes it, if all of those that refer to
it include it into this namespace. -/
theorem assemble_inherits (opens : Opens location entries sources entry root held)
    (h : assemble location entries = .ok set) : ∃ order,
      DepthFirst sources entry held order [] ∧ next? entry order = none ∧
      set.documents = (named entry order).map Visit.document ∧
      ∀ v ∈ named entry order, ∀ l schema, v.Includes entry l →
        sources.schemaAt l = some schema → schema.attribute? "targetNamespace" = none →
        ∃ before w after, named entry order = before ++ w :: after ∧
          w.station = stationAt entry l schema ∧
          (∀ u ∈ before ++ after, u.station ≠ stationAt entry l schema) ∧
          w.target = (inheritedBy entry before (stationAt entry l schema)).getD "" ∧
          (l ≠ entry → (∀ u ∈ before, u.IncludesOnly entry l v.target) →
            ⟨l, v.target, schema⟩ ∈ set.documents) := by
  obtain ⟨order, search, settled, rfl⟩ := opens.search h
  have ended := next?_eq_none settled
  refine ⟨order, search, ended, rfl, ?_⟩
  intro v hv l schema includes supplied nameless
  have met : v.station ∈ order := named_station entry order ▸ List.mem_map_of_mem hv
  obtain ⟨before, after, ho, alone⟩ := opens.stands search ended met includes.mem_targets supplied
  obtain ⟨visits, split, stations⟩ :=
    named_split entry before after (stationAt entry l schema)
  rw [← ho] at split
  have target := target_stationAt entry l nameless (named entry before)
  refine ⟨named entry before, _, visits, split, rfl, ?_, target, ?_⟩
  · intro u hu
    have met := List.mem_map_of_mem (f := Visit.station) hu
    rw [List.map_append, named_station, stations] at met
    exact alone _ met
  · -- whoever led the search to `l` refers to it, so there is someone to inherit from
    intro other only
    have here : stationAt entry l schema = .found l schema := if_neg other
    rw [here] at ho split target
    obtain ⟨s, hs, referred⟩ := search.referred ho
    rw [← named_station entry before] at hs
    obtain ⟨u, hu, rfl⟩ := List.mem_map.mp hs
    rw [inheritedBy_of_includesOnly only ⟨u, hu, referred⟩] at target
    show _ ∈ (named entry order).map Visit.document
    rw [split]
    refine List.mem_map.mpr ⟨visit entry (named entry before) (.found l schema), by simp, ?_⟩
    unfold Visit.document
    rw [target]
    rfl

/-! ## Schemas that are included, and one that is imported before -/

def schemaOf (attributes content : String) : List UInt8 :=
  octetsOf ("<schema xmlns='http://www.w3.org/2001/XMLSchema' " ++ attributes ++ ">" ++ content ++
    "</schema>")

/-- What a document is called, and what its schema says of namespaces and of other schemas. -/
structure Outline where
  location : String
  target : String
  declared : Option String
  references : List (String × Option String)
  deriving DecidableEq

def outline (d : SchemaDocument) : Outline :=
  ⟨d.location, d.targetNamespace, d.root.attribute? "targetNamespace",
    (d.root.children.filter Assembly.isReference).map fun reference =>
      (reference.tag, reference.filled? "schemaLocation")⟩

theorem exists_outlined {outlines : List Outline}
    (h : (assemble location entries).toOption.map (·.documents.map outline) = some outlines) :
    ∃ set, assemble location entries = .ok set ∧ set.documents.map outline = outlines := by
  cases ha : assemble location entries with
  | error e => rw [ha] at h; cases h
  | ok set => rw [ha] at h; exact ⟨set, rfl, Option.some.inj h⟩

/-- A schema that imports nothing refers to others to include them. -/
theorem includesOnly_of_outline {v : Visit}
    (h : ∀ x ∈ (outline v.document).references, x.1 ≠ "import") :
    v.IncludesOnly entry l v.target := by
  refine ⟨?_, fun _ => rfl⟩
  intro imports
  obtain ⟨reference, hr, tag, -⟩ := imports
  exact h _ (List.mem_map_of_mem hr) tag

/-- A schema at the entry includes what one of its references is written to. -/
theorem includes_of_outline {v : Visit} {tag written : String}
    (hr : (tag, some written) ∈ (outline v.document).references) (ht : tag ≠ "import")
    (here : (outline v.document).location = entry)
    (resolves : Location.resolve entry written = .ok l) : v.Includes entry l := by
  obtain ⟨reference, hr, e⟩ := List.mem_map.mp hr
  have base : v.station.base entry = entry := by
    have location : v.station.location = entry := here
    cases hs : v.station with
    | held name schema => rfl
    | found m schema => rw [hs] at location; exact location
  refine ⟨reference, hr, ?_, Station.leads_iff.mpr ⟨written, congrArg Prod.snd e, ?_⟩⟩
  · rw [show reference.tag = tag from congrArg Prod.fst e]
    exact ht
  · rw [base]
    exact resolves

def redefined : List (String × List UInt8) :=
  [("a", schemaOf "targetNamespace='urn:a'" "<redefine schemaLocation='c'/>"), ("c", schemaOf "" "")]

theorem redefined_outline : (assemble "a" redefined).toOption.map (·.documents.map outline) =
    some [⟨"a", "urn:a", some "urn:a", [("redefine", some "c")]⟩, ⟨"c", "urn:a", none, []⟩] := by
  decide +kernel

theorem redefined_nameless : ((Sources.ofEntries redefined).toOption.bind fun sources =>
    (sources.schemaAt "c").map (·.attribute? "targetNamespace")) = some none := by
  decide +kernel

/-- It is in the namespace of the one that redefines it. -/
theorem redefined_inherits : ∃ set sources schema, assemble "a" redefined = .ok set ∧
    Sources.ofEntries redefined = .ok sources ∧ sources.schemaAt "c" = some schema ∧
    ⟨"c", "urn:a", schema⟩ ∈ set.documents := by
  obtain ⟨set, h, outlines⟩ := exists_outlined redefined_outline
  obtain ⟨sources, entry, root, held, opens⟩ := exists_opens h
  obtain rfl : "a" = entry := by
    have locates := opens.locates
    rw [show Location.normalize "a" = .ok "a" from rfl] at locates
    exact Except.ok.inj locates
  have nameless := redefined_nameless
  rw [opens.supplies] at nameless
  obtain ⟨schema, supplied, nameless⟩ := Option.map_eq_some_iff.mp nameless
  obtain ⟨order, -, -, documents, inherits⟩ := assemble_inherits opens h
  rw [documents, List.map_map] at outlines
  have alike : ∀ o ∈ (named "a" order).map (outline ∘ Visit.document),
      o.target = "urn:a" ∧ ∀ x ∈ o.references, x.1 ≠ "import" := by
    rw [outlines]
    decide
  obtain ⟨v, hv, first⟩ := List.mem_map.mp (outlines ▸ List.mem_cons_self :
    _ ∈ (named "a" order).map (outline ∘ Visit.document))
  have target : ∀ u ∈ named "a" order, u.target = "urn:a" :=
    fun u hu => (alike _ (List.mem_map_of_mem hu)).1
  have listed : ("redefine", some "c") ∈ (outline v.document).references := by
    rw [show outline v.document = _ from first]
    decide
  have includes : v.Includes "a" "c" :=
    includes_of_outline listed (by decide) (congrArg Outline.location first) rfl
  obtain ⟨before, w, after, split, -, -, -, available⟩ :=
    inherits v hv "c" schema includes supplied nameless
  refine ⟨set, sources, schema, h, opens.supplies, supplied, ?_⟩
  rw [← target v hv]
  apply available (by decide)
  intro u hu
  have hu : u ∈ named "a" order := split ▸ List.mem_append_left _ hu
  rw [target v hv, ← target u hu]
  exact includesOnly_of_outline (alike _ (List.mem_map_of_mem hu)).2

/-- A schema is included, but another imports it before. -/
def overtaken : List (String × List UInt8) :=
  [("a", schemaOf "targetNamespace='urn:a'"
      "<import namespace='urn:b' schemaLocation='b'/><include schemaLocation='c'/>"),
    ("b", schemaOf "targetNamespace='urn:b'" "<import schemaLocation='c'/>"),
    ("c", schemaOf "" "")]

theorem overtaken_outline : (assemble "a" overtaken).toOption.map (·.documents.map outline) =
    some [⟨"a", "urn:a", some "urn:a", [("import", some "b"), ("include", some "c")]⟩,
      ⟨"b", "urn:b", some "urn:b", [("import", some "c")]⟩, ⟨"c", "", none, []⟩] := by
  decide +kernel

/-- The one schema that includes it does not get it into its namespace. -/
theorem overtaken_lost : ∃ set a reference c, assemble "a" overtaken = .ok set ∧
    a ∈ set.documents ∧ a.location = "a" ∧ a.targetNamespace = "urn:a" ∧
    reference ∈ a.root.children.filter Assembly.isReference ∧ reference.tag = "include" ∧
    reference.filled? "schemaLocation" = some "c" ∧ Location.resolve "a" "c" = .ok "c" ∧
    c ∈ set.documents ∧ c.location = "c" ∧ c.root.attribute? "targetNamespace" = none ∧
    ∀ d ∈ set.documents, d.root = c.root → d.targetNamespace ≠ "urn:a" := by
  obtain ⟨set, h, outlines⟩ := exists_outlined overtaken_outline
  have declares : ∀ o ∈ set.documents.map outline, o.target = "urn:a" → o.declared ≠ none := by
    rw [outlines]
    decide
  obtain ⟨a, ha, first⟩ := List.mem_map.mp (outlines ▸ List.mem_cons_self :
    _ ∈ set.documents.map outline)
  have met : ⟨"c", "", none, []⟩ ∈ set.documents.map outline := by
    rw [outlines]
    decide
  obtain ⟨c, hc, last⟩ := List.mem_map.mp met
  have listed : ("include", some "c") ∈ (outline a).references := by
    rw [first]
    decide
  obtain ⟨reference, hr, e⟩ := List.mem_map.mp listed
  have nameless : c.root.attribute? "targetNamespace" = none := congrArg Outline.declared last
  refine ⟨set, a, reference, c, h, ha, congrArg Outline.location first,
    congrArg Outline.target first, hr, congrArg Prod.fst e, congrArg Prod.snd e, rfl, hc,
    congrArg Outline.location last, nameless, ?_⟩
  intro d hd same target
  apply declares _ (List.mem_map_of_mem hd) target
  rw [← nameless, ← same]
  rfl

end SchemaSet

end WsdlCatalog
