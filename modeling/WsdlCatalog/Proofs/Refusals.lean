/-
  WsdlCatalog.Proofs.Refusals — why documents cannot be put together.

  An assembly reads its entry and the locations within reach of it (`SchemaSet.LooksAt`), and
  it resolves the references of the schemas that it meets there (`SchemaSet.Meets`). Whatever
  it is refused for lies in one of these places (`Explains`).

  Proved, of entries under locations that can be read as URLs:
  - every refusal is explained (`SchemaSet.explains_assemble`);
  - so an assembly succeeds or fails with a fault about a document that it looked at, unless
    a reference in one cannot be resolved or the octets of one cannot be turned into
    characters; these two are refused for what they are, outside the faults of assemblies
    (`SchemaSet.assemble_refusals`, `SchemaSet.unresolvable_escapes`);
  - a document is found if it is supplied under the location that a reference to it resolves
    to, unless the reference is foreign to its document and a path would be written
    otherwise (`SchemaSet.supplied_found`, `SchemaSet.foreign_lost`).
-/

import WsdlCatalog.Proofs.Assembly
import WsdlCatalog.Proofs.Locations

namespace WsdlCatalog

/-- Why documents that were looked at, and the references of schemas that were met, cannot be put
together. -/
inductive Explains (sources : Sources) (entry : String) (looked : String → Prop)
    (met : Station → Prop) : Refusal → Prop
  | notSupplied {l : String} (referencedBy : Option String) (h : looked l)
      (absent : sources.lookup l = none) :
      Explains sources entry looked met (.fault (.notSupplied l referencedBy))
  | malformed {l : String} {octets : List UInt8} {cause : Xml.Cause} {line : Nat}
      (referencedBy : Option String) (h : looked l) (held : sources.lookup l = some octets)
      (broken : Xml.Node.parse octets = .error (.malformed cause line)) :
      Explains sources entry looked met
        (.fault (.malformedText cause.message line l referencedBy))
  | unreadable {l : String} {octets : List UInt8} {e : Xml.ReadError} (h : looked l)
      (held : sources.lookup l = some octets) (unread : Xml.Node.parse octets = .error e)
      (other : ∀ cause line, e ≠ .malformed cause line) :
      Explains sources entry looked met (.text e)
  | foreignEntry {root : Xml.Node} (h : looked entry) (reads : sources.read entry none = .ok root)
      (holds : SchemaSet.heldBy entry root = none) :
      Explains sources entry looked met (.fault (.foreignEntry root.tag root.uri entry))
  | notSchema {l referencedBy : String} {root : Xml.Node} (h : looked l)
      (reads : sources.read l (some referencedBy) = .ok root)
      (other : root.isA Vocabulary.xsd "schema" = false) :
      Explains sources entry looked met (.fault (.notSchema root.tag root.uri l referencedBy))
  | unresolvable {s : Station} {written : String} {cause : LocationError} (h : met s)
      (hw : written ∈ s.schema.schemaLocations)
      (broken : Location.resolve (s.base entry) written = .error cause) :
      Explains sources entry looked met (.location cause)

namespace Explains

variable {sources : Sources} {entry : String} {looked looked' : String → Prop}
  {met met' : Station → Prop} {e : Refusal}

theorem mono (h : Explains sources entry looked met e) (hl : ∀ l, looked l → looked' l)
    (hm : ∀ s, met s → met' s) : Explains sources entry looked' met' e := by
  cases h with
  | notSupplied referencedBy h absent => exact .notSupplied referencedBy (hl _ h) absent
  | malformed referencedBy h held broken => exact .malformed referencedBy (hl _ h) held broken
  | unreadable h held unread other => exact .unreadable (hl _ h) held unread other
  | foreignEntry h reads holds => exact .foreignEntry (hl _ h) reads holds
  | notSchema h reads other => exact .notSchema (hl _ h) reads other
  | unresolvable h hw broken => exact .unresolvable (hm _ h) hw broken

theorem read {l : String} {referencedBy : Option String} (h : looked l)
    (hr : sources.read l referencedBy = .error e) : Explains sources entry looked met e := by
  unfold Sources.read at hr
  split at hr
  · rename_i absent
    exact Except.error.inj hr ▸ .notSupplied referencedBy h absent
  · rename_i octets held
    split at hr
    · cases hr
    · rename_i cause line broken
      exact Except.error.inj hr ▸ .malformed referencedBy h held broken
    · rename_i e other unread
      exact Except.error.inj hr ▸ .unreadable h held unread other

end Explains

/-! ## References -/

namespace Assembly

variable {sources : Sources} {entry : String} {held : List (String × Xml.Node)} {s : Station}
  {adding : Adding} {location target : String} {assembly : Assembly} {reference : Xml.Node}
  {e : Refusal}

/-- The refusals of a walk from the schemas that the entry holds. -/
abbrev Refuses (sources : Sources) (entry : String) (held : List (String × Xml.Node)) :
    Refusal → Prop :=
  Explains sources entry (Reachable sources entry held) (Station.Met sources entry held)

def Adds (sources : Sources) (entry : String) (held : List (String × Xml.Node)) (adding : Adding) :
    Prop :=
  ∀ {assembly : Assembly} {l : String} {schema : Xml.Node} {inherited : Option String} {e : Refusal},
    (Station.found l schema).Met sources entry held →
      adding assembly schema l inherited = .error e → Refuses sources entry held e

theorem refuses_followOne (hs : s.Met sources entry held) (adds : Adds sources entry held adding)
    (hc : reference ∈ s.schema.children.filter isReference)
    (h : followOne sources adding location (s.base entry) target assembly reference = .error e) :
    Refuses sources entry held e := by
  unfold followOne at h
  split at h
  · cases h
  · rename_i written hw
    have hw : written ∈ s.schema.schemaLocations := List.mem_filterMap.mpr ⟨reference, hc, hw⟩
    rcases error_bind h with h | ⟨l, hl, h⟩
    · unfold locationOf at h
      cases hr : Location.resolve (s.base entry) written with
      | ok l => rw [hr] at h; cases h
      | error cause =>
        rw [hr] at h
        exact Except.error.inj h ▸ .unresolvable hs hw hr
    · have reached : Reachable sources entry held l :=
        hs.target (Station.mem_targets.mpr ⟨written, hw, locationOf_eq_ok.mp hl⟩)
      split at h
      · cases h
      · rcases error_bind h with h | ⟨root, hr, h⟩
        · exact .read reached h
        · split at h
          · rename_i schema
            exact adds ⟨reached, Sources.schemaAt_eq_some.mpr ⟨Sources.read_eq_ok hr, schema⟩⟩ h
          · rename_i other
            exact Except.error.inj h ▸ .notSchema reached hr (Bool.eq_false_iff.mpr other)

theorem refuses_follow (hs : s.Met sources entry held) (adds : Adds sources entry held adding)
    (references : List Xml.Node) :
    ∀ assembly : Assembly, references ⊆ s.schema.children.filter isReference →
      follow sources adding location (s.base entry) target assembly references = .error e →
        Refuses sources entry held e := by
  induction references with
  | nil => exact fun _ _ h => nomatch h
  | cons reference rest ih =>
    intro assembly hc h
    rw [follow_cons] at h
    rcases error_bind h with h | ⟨between, -, h⟩
    · exact refuses_followOne hs adds (hc List.mem_cons_self) h
    · exact ih between (List.subset_of_cons_subset hc) h

theorem refuses_add (depth : Nat) :
    ∀ {assembly : Assembly} {s : Station} {inherited : Option String} {e : Refusal},
      s.Met sources entry held →
      add sources depth assembly s.schema s.location (s.base entry) inherited = .error e →
        Refuses sources entry held e := by
  induction depth with
  | zero => exact fun _ h => nomatch h
  | succ depth ih =>
    intro assembly s inherited e hs h
    rw [add] at h
    refine refuses_follow hs ?_ _ _ (List.Subset.refl _) h
    intro assembly l schema inherited e hs h
    exact ih (s := .found l schema) hs h

theorem refuses_addHeld (h : addHeld sources entry assembly held = .error e) :
    Refuses sources entry held e := by
  obtain ⟨between, x, hx, h⟩ := error_foldlM h
  exact refuses_add (s := .held x.1 x.2) _ hx h

end Assembly

/-! ## Locations that are given -/

/-- A text that can be read as a URL has a normal form as a location. -/
theorem Location.exists_normalize {l : String} (h : ∃ url, Url.parse l.toList = .ok url) :
    ∃ m, Location.normalize l = .ok m := by
  obtain ⟨url, hu⟩ := h
  unfold Location.normalize Url.isUrl
  dsimp only
  rw [hu]
  show ∃ m, ite _ _ _ = Except.ok m
  split
  · exact ⟨_, rfl⟩
  · exact ⟨_, rfl⟩

theorem Location.exists_parse {l m : String} (h : Location.normalize l = .ok m) :
    ∃ url, Url.parse l.toList = .ok url := by
  unfold Location.normalize Url.isUrl at h
  obtain ⟨_, parsed, -⟩ := ok_bind.mp h
  obtain ⟨url, hu, -⟩ := ok_bind.mp parsed
  exact ⟨url, hu⟩

namespace Sources

variable {entries : List (String × List UInt8)}

theorem exists_rowsOf (h : ∀ x ∈ entries, ∃ url, Url.parse x.1.toList = .ok url) :
    ∃ rows, rowsOf entries = .ok rows := by
  induction entries with
  | nil => exact ⟨[], rfl⟩
  | cons x rest ih =>
    obtain ⟨first, others⟩ := List.forall_mem_cons.mp h
    obtain ⟨l, hl⟩ := Location.exists_normalize first
    obtain ⟨rows, hr⟩ := ih others
    exact ⟨(l, x.2) :: rows, by rw [rowsOf_cons hl, hr]; rfl⟩

theorem exists_ofEntries (h : ∀ x ∈ entries, ∃ url, Url.parse x.1.toList = .ok url) :
    ∃ sources, ofEntries entries = .ok sources := by
  obtain ⟨rows, hr⟩ := exists_rowsOf h
  exact ⟨putAll rows, by rw [ofEntries_eq, hr]; rfl⟩

theorem mem_rowsOf {rows : Sources} (h : rowsOf entries = .ok rows) {x : String × List UInt8}
    (hx : x ∈ entries) : ∃ l, Location.normalize x.1 = .ok l ∧ l ∈ rows.map Prod.fst := by
  induction entries generalizing rows with
  | nil => cases hx
  | cons first rest ih =>
    obtain ⟨l, others, hl, ho, rfl⟩ := exists_normal h
    rcases List.mem_cons.mp hx with rfl | hx
    · exact ⟨l, hl, List.mem_cons_self⟩
    · obtain ⟨m, hm, listed⟩ := ih ho hx
      exact ⟨m, hm, List.mem_cons_of_mem _ listed⟩

/-- What is given under a location is found under its normal form. -/
theorem lookup_ofEntries {sources : Sources} (h : ofEntries entries = .ok sources) {key : String}
    (hk : key ∈ entries.map Prod.fst) :
    ∃ l, Location.normalize key = .ok l ∧ sources.lookup l ≠ none := by
  obtain ⟨x, hx, rfl⟩ := List.mem_map.mp hk
  rw [ofEntries_eq] at h
  cases hr : rowsOf entries with
  | error e => rw [hr] at h; cases h
  | ok rows =>
    rw [hr] at h
    obtain rfl := Except.ok.inj h
    obtain ⟨l, hl, listed⟩ := mem_rowsOf hr hx
    refine ⟨l, hl, fun absent => ?_⟩
    rw [lookup_putAll, lookup_eq_none, List.map_reverse, List.mem_reverse] at absent
    exact absent listed

end Sources

namespace SchemaSet

/-- The locations whose texts an assembly looks at: the entry, and those within reach of the schemas
that it holds. -/
inductive LooksAt (sources : Sources) (entry : String) : String → Prop
  | entry : LooksAt sources entry entry
  | reached {root : Xml.Node} {held : List (String × Xml.Node)} {l : String}
      (reads : sources.read entry none = .ok root) (holds : heldBy entry root = some held)
      (h : Reachable sources entry held l) : LooksAt sources entry l

inductive Meets (sources : Sources) (entry : String) (s : Station) : Prop
  | intro {root : Xml.Node} {held : List (String × Xml.Node)}
      (reads : sources.read entry none = .ok root) (holds : heldBy entry root = some held)
      (h : s.Met sources entry held)

variable {location entry : String} {entries : List (String × List UInt8)} {sources : Sources}

theorem assemble_unread (supplies : Sources.ofEntries entries = .ok sources)
    (locates : Location.normalize location = .ok entry) {e : Refusal}
    (hr : sources.read entry none = .error e) : assemble location entries = .error e := by
  unfold assemble
  rw [supplies, locates]
  show (sources.read entry none >>= _) = _
  rw [hr]
  rfl

/-- An entry that holds no schemas is neither a service description nor a schema. -/
theorem assemble_foreign (supplies : Sources.ofEntries entries = .ok sources)
    (locates : Location.normalize location = .ok entry) {root : Xml.Node}
    (hr : sources.read entry none = .ok root) (hh : heldBy entry root = none) :
    assemble location entries = .error (.fault (.foreignEntry root.tag root.uri entry)) := by
  unfold heldBy at hh
  split at hh
  · cases hh
  · rename_i definitions
    split at hh
    · cases hh
    · rename_i schema
      unfold assemble
      rw [supplies, locates]
      show (sources.read entry none >>= _) = _
      rw [hr]
      show ite _ _ _ = _
      rw [if_neg definitions, if_neg schema]

/-- **Every refusal has a reason** in a document that was looked at or in a reference that was
followed. -/
theorem explains_assemble (supplies : Sources.ofEntries entries = .ok sources)
    (locates : Location.normalize location = .ok entry) {e : Refusal}
    (h : assemble location entries = .error e) :
    Explains sources entry (LooksAt sources entry) (Meets sources entry) e := by
  cases hr : sources.read entry none with
  | error e' =>
    obtain rfl := Except.error.inj ((assemble_unread supplies locates hr).symm.trans h)
    exact .read .entry hr
  | ok root =>
    cases hh : heldBy entry root with
    | none =>
      obtain rfl := Except.error.inj ((assemble_foreign supplies locates hr hh).symm.trans h)
      exact .foreignEntry .entry hr hh
    | some held =>
      rw [Opens.assemble_eq ⟨supplies, locates, hr, hh⟩] at h
      cases ha : Assembly.addHeld sources entry ⟨[entry], []⟩ held with
      | ok assembly => rw [ha] at h; cases h
      | error e' =>
        rw [ha] at h
        obtain rfl := Except.error.inj h
        exact (Assembly.refuses_addHeld ha).mono (fun _ => .reached hr hh) fun _ => .intro hr hh

/-! ## Faults of assemblies, and others -/

inductive Ends (sources : Sources) (entry : String) : Except Refusal SchemaSet → Prop
  | assembled (set : SchemaSet) : Ends sources entry (.ok set)
  /-- The fault is of the kind for assemblies and names a document that was looked at. -/
  | fault {fault : Fault} {l : String} (kind : fault.kind = "schema-set")
      (file : fault.context.file = some l) (h : LooksAt sources entry l) :
      Ends sources entry (.error (.fault fault))
  /-- A reference of a schema that was met leads nowhere that could be a location. -/
  | unresolvable {s : Station} {written : String} {cause : LocationError} (h : Meets sources entry s)
      (hw : written ∈ s.schema.schemaLocations)
      (broken : Location.resolve (s.base entry) written = .error cause) :
      Ends sources entry (.error (.location cause))
  /-- The octets of a document that was looked at are not read as characters or names. -/
  | unreadable {l : String} {octets : List UInt8} {e : Xml.ReadError} (h : LooksAt sources entry l)
      (held : sources.lookup l = some octets) (unread : Xml.Node.parse octets = .error e)
      (other : ∀ cause line, e ≠ .malformed cause line) : Ends sources entry (.error (.text e))

theorem Ends.of_explains {e : Refusal}
    (h : Explains sources entry (LooksAt sources entry) (Meets sources entry) e) :
    Ends sources entry (.error e) := by
  cases h with
  | notSupplied referencedBy h absent => exact .fault rfl rfl h
  | malformed referencedBy h held broken => exact .fault rfl rfl h
  | unreadable h held unread other => exact .unreadable h held unread other
  | foreignEntry h reads holds => exact .fault rfl rfl h
  | notSchema h reads other => exact .fault rfl rfl h
  | unresolvable h hw broken => exact .unresolvable h hw broken

/-- **An assembly succeeds or fails with a fault about a document that it looked at**, unless a
reference cannot be resolved or octets cannot be read. -/
theorem assemble_refusals (accepted : ∀ x ∈ entries, ∃ url, Url.parse x.1.toList = .ok url)
    (located : ∃ url, Url.parse location.toList = .ok url) :
    ∃ sources entry, Sources.ofEntries entries = .ok sources ∧
      Location.normalize location = .ok entry ∧ Ends sources entry (assemble location entries) := by
  obtain ⟨sources, supplies⟩ := Sources.exists_ofEntries accepted
  obtain ⟨entry, locates⟩ := Location.exists_normalize located
  refine ⟨sources, entry, supplies, locates, ?_⟩
  cases h : assemble location entries with
  | ok set => exact .assembled set
  | error e => exact .of_explains (explains_assemble supplies locates h)

/-- The location that was not supplied, if that is what an assembly was refused for. -/
def missing? : Except Refusal SchemaSet → Option String
  | .error (.fault (.notSupplied l _)) => some l
  | _ => none

def lacking : List (String × List UInt8) := [("a", including "b")]

theorem lacking_ends : missing? (assemble "a" lacking) = some "b" ∧
    ∃ sources entry, Sources.ofEntries lacking = .ok sources ∧
      Location.normalize "a" = .ok entry ∧ Ends sources entry (assemble "a" lacking) :=
  ⟨by decide +kernel,
    assemble_refusals (List.forall_mem_singleton.mpr ⟨_, rfl⟩) ⟨_, rfl⟩⟩

/-- A schema with a reference whose host begins an address that it does not end. -/
def astray : List (String × List UInt8) := [("a", including "http://[")]

/-- The reason why a location could not be read, if an assembly was refused for that. -/
def unread? : Except Refusal SchemaSet → Option LocationError
  | .error (.location e) => some e
  | _ => none

/-- What a reference says escapes the faults of assemblies. -/
theorem unresolvable_escapes : (∀ x ∈ astray, ∃ url, Url.parse x.1.toList = .ok url) ∧
    (∃ url, Url.parse "a".toList = .ok url) ∧
    assemble "a" astray = .error (.location .unpairedBracket) ∧
    ¬ ((∃ set, assemble "a" astray = .ok set) ∨ ∃ fault,
      assemble "a" astray = .error (.fault fault) ∧ fault.kind = "schema-set") := by
  have refused : assemble "a" astray = .error (.location .unpairedBracket) := by
    have unread : unread? (assemble "a" astray) = some .unpairedBracket := by decide +kernel
    generalize assemble "a" astray = result at unread
    unfold unread? at unread
    split at unread
    · rw [Option.some.inj unread]
    · cases unread
  refine ⟨List.forall_mem_singleton.mpr ⟨_, rfl⟩, ⟨_, rfl⟩, refused, ?_⟩
  rw [refused]
  rintro (⟨_, h⟩ | ⟨_, h, -⟩)
  · cases h
  · cases h

/-! ## Documents that are supplied -/

/-- References of a schema that is met lead to each location within reach. -/
theorem exists_target {held : List (String × Xml.Node)} {l : String}
    (h : Reachable sources entry held l) :
    ∃ s written, Station.Met sources entry held s ∧ written ∈ s.schema.schemaLocations ∧
      Location.resolve (s.base entry) written = .ok l := by
  cases h with
  | @first name schema _ hh hl =>
    obtain ⟨written, hw, resolved⟩ := Station.mem_targets.mp hl
    exact ⟨.held name schema, written, hh, hw, resolved⟩
  | @next m _ schema hl hs hm =>
    obtain ⟨written, hw, resolved⟩ := Station.mem_targets.mp hm
    exact ⟨.found m schema, written, ⟨hl, hs⟩, hw, resolved⟩

/-- The texts at hand: one for the entry, and one under each other location that is looked at, as
references resolve to it. -/
structure Supplies (entries : List (String × List UInt8)) (sources : Sources) (entry : String) :
    Prop where
  normal : Sources.ofEntries entries = .ok sources
  opened : ∃ key ∈ entries.map Prod.fst, Location.normalize key = .ok entry
  reached : ∀ l, LooksAt sources entry l → l ≠ entry → l ∈ entries.map Prod.fst

/-- **A document that is supplied where references lead is found**, unless it is at a foreign
reference that a path would be written otherwise. -/
theorem supplied_found (base reference location : String) (entries : List (String × List UInt8)) :
    (∀ l, Location.resolve base reference = .ok l →
      (Location.normalize l = .ok l ↔
        (∃ url, Url.parse l.toList = .ok url) ∧ Location.Plain base reference)) ∧
    ∀ sources entry, Location.normalize location = .ok entry → Supplies entries sources entry →
      (∀ s written, Meets sources entry s → written ∈ s.schema.schemaLocations →
        Location.Plain (s.base entry) written) →
      ∀ l referencedBy,
        assemble location entries ≠ .error (.fault (.notSupplied l referencedBy)) := by
  refine ⟨fun l => Location.normalize_resolve_iff, ?_⟩
  intro sources entry locates supplies plain l referencedBy h
  have found {l : String} (hl : ∃ key ∈ entries.map Prod.fst, Location.normalize key = .ok l) :
      sources.lookup l ≠ none := by
    obtain ⟨key, hk, normal⟩ := hl
    obtain ⟨m, hm, there⟩ := Sources.lookup_ofEntries supplies.normal hk
    rw [normal] at hm
    exact Except.ok.inj hm ▸ there
  cases explains_assemble supplies.normal locates h with
  | notSupplied _ looked absent =>
    by_cases same : l = entry
    · exact found (same ▸ supplies.opened) absent
    · have given := supplies.reached l looked same
      cases looked with
      | entry => exact same rfl
      | reached reads holds reach =>
        obtain ⟨s, written, met, hw, resolved⟩ := exists_target reach
        obtain ⟨m, hm, -⟩ := Sources.lookup_ofEntries supplies.normal given
        have normal := (Location.normalize_resolve_iff resolved).mpr
          ⟨Location.exists_parse hm, plain s written (.intro reads holds met) hw⟩
        exact found ⟨l, given, normal⟩ absent

/-- An assembly that succeeds has a document for each location that it looked at. -/
theorem Opens.mem_documents {root : Xml.Node} {held : List (String × Xml.Node)} {set : SchemaSet}
    (h : Opens location entries sources entry root held) (ha : assemble location entries = .ok set)
    {l : String} (hl : LooksAt sources entry l) : l = entry ∨ l ∈ set.documents.map (·.location) := by
  cases hl with
  | entry => exact .inl rfl
  | reached reads holds reach =>
    obtain rfl := Except.ok.inj (h.reads.symm.trans reads)
    obtain rfl := Option.some.inj (h.holds.symm.trans holds)
    refine or_iff_not_imp_left.mpr fun other => ?_
    obtain ⟨order, -, -, documents, -, -, found⟩ := (h.assembled ha).2.documents
    obtain ⟨schema, listed⟩ := Station.mem_found.mp ((found l).mpr ⟨reach, other⟩)
    have here : (l, schema) ∈ set.documents.map fun d => (d.location, d.root) :=
      documents ▸ List.mem_map_of_mem listed
    obtain ⟨d, hd, same⟩ := List.mem_map.mp here
    exact List.mem_map.mpr ⟨d, hd, congrArg Prod.fst same⟩

/-- References are relative to locations that are looked at. -/
theorem Meets.looksAt {s : Station} (h : Meets sources entry s) : LooksAt sources entry (s.base entry) := by
  obtain ⟨reads, holds, met⟩ := h
  cases s with
  | held name schema => exact .entry
  | found l schema => exact .reached reads holds met.1

/-! ## Schemas beside one another, and at a foreign reference -/

def lone : List UInt8 := octetsOf "<schema xmlns='http://www.w3.org/2001/XMLSchema'/>"

def aside : List (String × List UInt8) :=
  [("/s/a.xsd", including "../t/./b.xsd"), ("/t/b.xsd", lone)]

theorem aside_found : Location.normalize "/t/b.xsd" = .ok "/t/b.xsd" ∧
    ∀ l referencedBy, assemble "/s/a.xsd" aside ≠ .error (.fault (.notSupplied l referencedBy)) := by
  have resolved : Location.resolve "/s/a.xsd" "../t/./b.xsd" = .ok "/t/b.xsd" := rfl
  have near {base written : String} (other : Url.isUrl base.toList = .ok false) :
      Location.Plain base written := fun foreign => nomatch other.symm.trans foreign.1
  refine ⟨((supplied_found _ _ "/s/a.xsd" aside).1 _ resolved).mpr ⟨⟨_, rfl⟩, near rfl⟩, ?_⟩
  have locations : ((assemble "/s/a.xsd" aside).toOption.map fun set =>
      set.documents.map (·.location)) = some ["/s/a.xsd", "/t/b.xsd"] := by
    decide +kernel
  obtain ⟨set, assembled, listed⟩ := Option.map_eq_some_iff.mp locations
  have assembled := ok_of_toOption assembled
  obtain ⟨sources, entry, root, held, opens⟩ := exists_opens assembled
  obtain rfl : "/s/a.xsd" = entry := Except.ok.inj
    ((rfl : Location.normalize "/s/a.xsd" = .ok "/s/a.xsd").symm.trans opens.locates)
  have looked {l : String} (hl : LooksAt sources "/s/a.xsd" l) : l = "/s/a.xsd" ∨ l = "/t/b.xsd" := by
    have either := opens.mem_documents assembled hl
    rw [listed] at either
    simpa using either
  refine (supplied_found "/s/a.xsd" "../t/./b.xsd" _ _).2 sources _ opens.locates
    ⟨opens.supplies, ⟨_, List.mem_cons_self, rfl⟩, ?_⟩ ?_
  · intro l hl _
    rcases looked hl with rfl | rfl
    · exact List.mem_cons_self
    · exact List.mem_cons_of_mem _ List.mem_cons_self
  · intro s written met _
    refine near ?_
    rcases looked met.looksAt with same | same
    · rw [same]
      rfl
    · rw [same]
      rfl

/-- A schema at a URL that includes one at a URL of another kind. -/
def abroad : List (String × List UInt8) :=
  [("http://h/a.xsd", including "ftp://h/b.xsd"), ("ftp://h/b.xsd", lone)]

/-- The schema is supplied under the location that the reference resolves to, and not found. -/
theorem foreign_lost :
    Location.normalize "http://h/a.xsd" = .ok "http://h/a.xsd" ∧
    Location.resolve "http://h/a.xsd" "ftp://h/b.xsd" = .ok "ftp://h/b.xsd" ∧
    Location.normalize "ftp://h/b.xsd" = .ok "ftp:/h/b.xsd" ∧
    "ftp://h/b.xsd" ∈ abroad.map Prod.fst ∧
    missing? (assemble "http://h/a.xsd" abroad) = some "ftp://h/b.xsd" :=
  ⟨rfl, rfl, rfl, List.mem_cons_of_mem _ List.mem_cons_self, by decide +kernel⟩

end SchemaSet

end WsdlCatalog
