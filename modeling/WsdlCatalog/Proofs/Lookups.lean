/-
  WsdlCatalog.Proofs.Lookups — lookups that never miss.

  Names are reserved before anything is compiled, so every job finds the name that it compiles
  under. When all jobs are done each type that another one extends has an entry, and every entry
  has a name and says what it is declared as; so the members of bases are there to be taken over,
  and entries can be put in order. What is left are the refusals that are documented.

  Proved: whatever is undeclared, misspelt, unbound, declared twice or circular in a schema set
  and its service description, its compilation ends with a catalog or with a documented refusal,
  or a bound has too many digits (`SchemaSet.compile_documented`). Such a bound is refused in
  another way even if it is one (`SchemaSet.paddedParty_undocumented`).
-/

import WsdlCatalog.Proofs.Enclosing
import WsdlCatalog.Proofs.Integrity
import WsdlCatalog.Proofs.PlainViews
import WsdlCatalog.Proofs.Sorting

namespace WsdlCatalog

/-! ## Results -/

/-- A result that is none is refused for documented reasons only. -/
def Refusal.Only {α : Type} (options : Options) (x : Except Refusal α) : Prop :=
  ∀ e, x = .error e → e.Documented options

/-! ## Declarations -/

/-- A schema set has no declarations only if a name is declared twice. -/
theorem Declarations.ambiguous_of_ofSchemaSet {set : SchemaSet} {f : Fault}
    (h : ofSchemaSet set = .error f) : f.kind = "ambiguous-name-collision" := by
  unfold ofSchemaSet at h
  suffices steps : ∀ (entries : List (Space × Declaration)) (ds : Declarations),
      entries.foldlM (fun ds x => ds.add x.1 x.2) ds = .error f →
        f.kind = "ambiguous-name-collision" from steps _ _ h
  intro entries
  induction entries with
  | nil => exact fun _ h => nomatch h
  | cons x rest ih =>
    intro ds h
    obtain ⟨space, d⟩ := x
    rw [List.foldlM_cons] at h
    dsimp only at h
    cases added : ds.add space d with
    | ok more =>
      rw [added] at h
      exact ih more h
    | error e =>
      rw [added] at h
      cases h
      unfold add at added
      split at added <;> cases added
      rfl

/-! ## Types that extend others -/

theorem Extension.only_expand {types : Table} {options : Options} (closed : Closed types) :
    Refusal.Only options (expand types) := by
  intro e h
  cases expand_error closed h with
  | circular => exact .malformed rfl not_false
  | redeclared => exact .malformed rfl not_false

/-! ## Entries in order -/

theorem Inventory.exists_byCanonical {α : Type} {entries : List (Option String × α)}
    (h : ∀ x ∈ entries, x.1.isSome = true) : ∃ sorted, byCanonical? entries = some sorted := by
  unfold byCanonical?
  split
  · exact ⟨_, rfl⟩
  · rw [mapM_named, if_pos (List.all_eq_true.mpr h)]
    exact ⟨_, rfl⟩

namespace Compile

variable {S : Setting} {P : Site → Prop} {set : SchemaSet} {options : Options} {p : Progress}

/-! ## Names and jobs -/

theorem safe_reserveAll : Safe S P (reserveAll S) := by
  rw [reserveAll_eq]
  suffices steps : ∀ rs : List Reservation, Safe S P (forM rs request) from steps _
  intro rs
  induction rs with
  | nil => exact safe_pure ()
  | cons r rest ih =>
    rw [List.forM_cons]
    exact ((safe_reserve r.owner r.canonical r.name).bind fun _ => safe_pure ()).bind fun _ => ih

/-- What has a name is compiled safely. -/
theorem safeAt_compileOnce {anonymous : Bool} {owner : String} {name : QName} {site : Site}
    (hp : p.Keyed) (named : (p.inventory.canonical? owner).isSome = true)
    (h : ∀ canonical, Safe S P (complexType S anonymous (some canonical) name site)) :
    SafeAt S P (compileOnce S anonymous owner name site) p := by
  obtain ⟨canonical, hc⟩ := Option.isSome_iff_exists.mp named
  unfold compileOnce
  refine (safe_inventory p hp).bind fun i q hi hq => (safe_inventory q hq).bind fun i' q' hi' hq' => ?_
  obtain ⟨rfl, rfl⟩ := runs_inventory.mp hi
  rw [hc]
  split
  · exact h canonical q' hq'
  · exact safe_pure () q' hq'

theorem safeAt_job (hs : Setting.ofSchemaSet set options = .ok S) (finite : S.NestsFinitely)
    (hp : p.Keyed) (established : Established S p.inventory) {j : Job} (hj : j ∈ jobs S) :
    SafeAt S set.Holds (j.run S) p := by
  have named : (p.inventory.canonical? j.owner).isSome = true :=
    established.requested j.request (map_request S ▸ List.mem_map_of_mem hj)
  rcases List.mem_append.mp hj with hj | hj
  · obtain ⟨d, hd, rfl⟩ := List.mem_map.mp hj
    unfold Job.ofType at named ⊢
    split
    · exact ((safe_compileAlias d).bind fun _ => safe_pure ()) p hp
    · rename_i complex
      rw [if_neg complex] at named
      have described : Described S d.site := .type hd (Bool.eq_false_iff.mpr complex)
      exact safeAt_compileOnce hp named fun _ => safe_complexType hs finite described _ _ _
  · obtain ⟨d, hd, hof⟩ := List.mem_filterMap.mp hj
    obtain ⟨inner, hi, rfl⟩ := Option.map_eq_some_iff.mp hof
    have described : Described S (d.site.atNode inner) := .element (List.mem_filter.mp hd).1 hi
    exact safeAt_compileOnce hp named fun _ => safe_complexType hs finite described _ _ _

theorem safeAt_compileAll (hs : Setting.ofSchemaSet set options = .ok S) (finite : S.NestsFinitely)
    (hp : p.Keyed) (established : Established S p.inventory) : SafeAt S set.Holds (compileAll S) p := by
  rw [compileAll_eq]
  suffices steps : ∀ js, js ⊆ jobs S → ∀ {p : Progress}, p.Keyed → Established S p.inventory →
      SafeAt S set.Holds (forM js (Job.run S)) p from steps _ (List.Subset.refl _) hp established
  intro js
  induction js with
  | nil => exact fun _ _ hp _ => safe_pure () _ hp
  | cons j rest ih =>
    intro sub p hp established
    rw [List.cons_subset] at sub
    rw [List.forM_cons]
    exact (safeAt_job hs finite hp established sub.1).bind fun _ q hr hq =>
      ih sub.2 hq (established.job sub.1 hr)

/-- After all jobs the types that others extend have entries. -/
theorem closed_of_jobs (answers : Answers S.names S) (consistent : p.Consistent S S.names)
    (between : Between S S.names (jobs S) p) : Extension.Closed p.inventory.types where
  named x hx := by
    obtain ⟨r, -, hk, -⟩ := consistent.entries x hx
    rw [hk]
    rfl
  declared x hx := by
    obtain ⟨r, -, -, -, hq⟩ := consistent.entries x hx
    rw [hq]
    rfl
  bases x hx base hb := by
    obtain ⟨ref, holds, structural, hn⟩ := consistent.bases x hx base hb
    obtain ⟨c, t, hc, ht, -⟩ := entry_of_structural answers consistent between holds structural
    obtain rfl := Option.some.inj (hn.symm.trans hc)
    exact List.mem_map_of_mem ht

theorem safeAt_extendAll (hp : p.Keyed) (closed : Extension.Closed p.inventory.types) :
    SafeAt S P extendAll p := by
  constructor
  · intro u q hr
    obtain ⟨types, -, rfl⟩ := runs_extendAll.mp hr
    exact hp.of_aliases rfl
  · intro e q hr
    unfold extendAll at hr
    rw [outcome_bind, outcome_inventory] at hr
    dsimp only at hr
    split at hr
    · cases hr
    · rename_i refused
      cases hr
      exact .documented (Extension.only_expand closed _ refused)

/-! ## The service description -/

theorem safe_addBindings (interface : Interface) : Safe S P (addBindings S interface) := by
  unfold addBindings
  refine (safe_filterMapM (fun binding => ?_) _).bind fun bindings => safe_pure _
  split
  · exact safe_pure none
  · exact (safe_qualify _ _ _).bind fun name => safe_pure _

theorem safe_carried (interface : Interface) (operation : String) (message : Option Xml.Node) :
    Safe S P (carried S interface operation message) := by
  unfold carried
  split
  · exact safe_pure _
  · refine (safe_qualify _ _ _).bind fun name => ?_
    cases name with
    | none => exact safe_pure _
    | some name =>
      refine (safe_lookup _ _ _ _).bind fun found => ?_
      cases found with
      | none => exact safe_pure _
      | some d => exact (safe_globalElementType d _).bind fun ref => safe_pure _

theorem safe_payload (interface : Interface) (operation : String) (direction : Option Xml.Node) :
    Safe S P (payload S interface operation direction) := by
  rw [payload_eq]
  refine Safe.bind ?_ (safe_carried interface operation)
  split
  · exact safe_pure none
  · exact (safe_qualify _ _ _).bind fun name => safe_pure _

theorem safe_addOperation (interface : Interface) (portType : QName × Xml.Node)
    (operations : List (String × Operation)) (node : Xml.Node) :
    Safe S P (addOperation S interface portType operations node) := by
  unfold addOperation
  split
  · exact safe_pure operations
  · rename_i name _
    split
    · exact Safe.bind (safe_modify fun _ => rfl) fun _ => safe_pure operations
    · have operation : Safe S P (operationOf S interface portType.1 name node) :=
        (safe_payload _ _ _).bind fun _ => (safe_payload _ _ _).bind fun _ => safe_pure _
      exact operation.bind fun _ => safe_pure _

theorem safe_interface (set : SchemaSet) : Safe S P (interface S set) := by
  unfold interface
  split
  · exact safe_pure _
  · refine (safe_addBindings _).bind fun interface => Safe.bind ?_ fun operations => safe_pure _
    exact safe_foldlM (fun operations portType _ =>
      safe_foldlM (fun operations node _ => safe_addOperation interface portType operations node) _) _

/-! ## The catalog -/

/-- Entries of simple types have names as their types are declared. -/
theorem isSome_of_sound (tell : S.names.Tell S) (hp : p.Sound S S.names) :
    ∀ x ∈ p.inventory.aliases, x.1.isSome = true := by
  intro x hx
  obtain ⟨hk, d, simple, n, shape, -, he⟩ := hp.aliases x hx
  obtain ⟨name, hn⟩ := tell.settled d simple.declared
  have named : x.2.name = some name := by
    rw [he]
    exact hn
  rw [hk, named]
  rfl

theorem safeAt_frozen (hp : p.Keyed) (aliases : ∀ x ∈ p.inventory.aliases, x.1.isSome = true)
    (types : ∀ x ∈ p.inventory.types, x.1.isSome = true) : SafeAt S P frozen p := by
  obtain ⟨sortedAliases, ha⟩ := Inventory.exists_byCanonical aliases
  obtain ⟨sortedTypes, ht⟩ := Inventory.exists_byCanonical types
  unfold frozen
  refine (safe_inventory p hp).bind fun i q hi hq => ?_
  obtain ⟨rfl, rfl⟩ := runs_inventory.mp hi
  unfold Inventory.sortedAliases? Inventory.sortedTypes?
  rw [ha, ht]
  exact safe_pure _ q hq

theorem exists_displayName (hl : ∃ url, Url.parse set.location.toList = .ok url)
    (options : Options) (serviceName : Option String) :
    ∃ name, displayName options serviceName set.location = .ok name := by
  have stem : ∃ name, Location.stem set.location = .ok name := by
    obtain ⟨url, hl⟩ := hl
    unfold Location.stem
    dsimp only
    rw [hl]
    exact ⟨_, rfl⟩
  obtain ⟨name, stem⟩ := stem
  unfold displayName
  rw [stem]
  split
  · exact ⟨_, rfl⟩
  · exact ⟨_, rfl⟩
  · exact ⟨_, rfl⟩

theorem safeAt_catalog (hs : Setting.ofSchemaSet set options = .ok S) (hS : S.WellFormed)
    (finite : S.NestsFinitely) (hl : ∃ url, Url.parse set.location.toList = .ok url) :
    SafeAt S set.Holds (catalog S set) .start := by
  have start : Progress.start.Keyed := fun _ _ h => nomatch h
  unfold catalog
  refine (safe_reserveAll .start start).bind fun _ reserved hr keyed => ?_
  refine (safeAt_compileAll hs finite keyed (established_of_requests hr)).bind
    fun _ compiled hc keyed => ?_
  obtain ⟨answers, consistent, between⟩ := consistent_of_jobs hS hr hc
  have closed := closed_of_jobs answers consistent between
  refine (safeAt_extendAll keyed closed).bind fun _ extended he keyed => ?_
  obtain ⟨types, ht, rfl⟩ := runs_extendAll.mp he
  refine (safe_interface set _ keyed).bind fun described q hi keyed => ?_
  obtain ⟨operations, serviceName⟩ := described
  obtain ⟨⟨own, new, delta⟩, sound, -⟩ :=
    runs_described answers.tell (sound_withTypes consistent.sound types) hi
  have named : ∀ x ∈ q.inventory.types, x.1.isSome = true := by
    rw [delta.inventory]
    intro x hx
    obtain ⟨y, hy, same⟩ := List.mem_map.mp
      (((Extension.expand_sound ht).2 x.1).mp (List.mem_map_of_mem hx))
    rw [← same]
    exact closed.named y hy
  obtain ⟨name, hn⟩ := exists_displayName hl S.options serviceName
  dsimp only
  rw [hn]
  dsimp only
  have frozen : SafeAt S set.Holds frozen q :=
    safeAt_frozen keyed (isSome_of_sound answers.tell sound) named
  have get : SafeAt S set.Holds (get : Compile Progress) q := by
    constructor
    · intro r s hr
      obtain ⟨-, rfl⟩ := runs_get.mp hr
      exact keyed
    · intro e s hr
      cases hr
  refine get.bind fun r s hr _ => ?_
  obtain ⟨rfl, rfl⟩ := runs_get.mp hr
  exact frozen.bind fun _ t _ keyed => safe_pure _ t keyed

end Compile

structure Catalog.Named (c : Catalog) : Prop where
  aliases : ∀ a ∈ c.aliases, a.name.isSome = true
  types : ∀ t ∈ c.types, t.name.isSome = true
  references : ∀ ref ∈ c.references, ref.kind = .alias ∨ ref.kind = .structural →
    ref.name.isSome = true

theorem Compile.Staged.named {S : Setting} {set : SchemaSet} {q compiled : Progress} {c : Catalog}
    {types : List (Option String × StructuralType)} {aliases : List ScalarAlias}
    {sorted : List StructuralType} {operations : List Operation} {serviceName : Option String}
    {displayName : Loose String} (hS : S.WellFormed)
    (h : Staged S set .start q c compiled types aliases sorted operations serviceName displayName) :
    c.Named := by
  obtain ⟨done, -⟩ := h.completed hS
  refine ⟨?_, ?_, ?_⟩
  · intro a ha
    rw [h.catalog] at ha
    obtain ⟨x, hx, rfl⟩ := List.mem_map.mp ((perm_of_byCanonical h.sortedAliases).mem_iff.mp ha)
    rw [← (done.sound.aliases x hx).1]
    exact isSome_of_sound done.answers.tell done.sound x hx
  · intro t ht
    obtain ⟨x, hx, rfl⟩ := (h.mem_types done).mp ht
    obtain ⟨y, hy, same⟩ := List.mem_map.mp ((done.keys x.1).mp (List.mem_map_of_mem hx))
    obtain ⟨r, -, hk, -⟩ := done.consistent.entries y hy
    rw [← done.name_eq hx, ← same, hk]
    rfl
  · intro ref hr hk
    rcases hk with hk | hk
    · obtain ⟨name, a, hn, -⟩ := h.simple done (h.holds done hr) hk
      rw [hn]
      rfl
    · obtain ⟨name, t, hn, -⟩ := h.structural done (h.holds done hr) hk
      rw [hn]
      rfl

namespace SchemaSet

/-- **A compilation ends with a catalog or with a documented refusal**, as long as no namespace has
a closing brace in it, the location is one that can be read, and no type is inside itself; or else
a bound in one of the documents has too many digits. -/
theorem compile_documented {set : SchemaSet} {options : Options}
    (hl : ∃ url, Url.parse set.location.toList = .ok url)
    (hp : ∀ d ∈ set.documents, '\x7d' ∉ d.targetNamespace.toList)
    (finite : ∀ S, Setting.ofSchemaSet set options = .ok S → S.NestsFinitely) :
    (∃ c, (set.compile options).result = .ok c ∧ c.Named) ∨
    (∃ e, (set.compile options).result = .error e ∧ e.Documented options) ∨
    ∃ count site, (set.compile options).result = .error (.overlongNumber count) ∧
      set.Holds site ∧ Range.IsOverlong site.node count := by
  cases hs : Setting.ofSchemaSet set options with
  | error f =>
    refine .inr (.inl ⟨.fault f, ?_, .ambiguous ?_⟩)
    · unfold compile
      rw [hs]
    · unfold Setting.ofSchemaSet at hs
      cases declared : Declarations.ofSchemaSet set with
      | ok ds =>
        rw [declared] at hs
        cases hs
      | error e =>
        rw [declared] at hs
        cases hs
        exact Declarations.ambiguous_of_ofSchemaSet declared
  | ok S =>
    have hS := Setting.wellFormed hs hp
    have safe := Compile.safeAt_catalog hs hS (finite S hs) hl
    rw [result_compile hs, ← (Setting.ofSchemaSet_eq_ok.mp hs).1]
    rcases run : (Compile.catalog S set).outcome .start with ⟨e | c, q⟩
    · cases safe.expected e q run with
      | documented h => exact .inr (.inl ⟨e, rfl, h⟩)
      | overlong held h => exact .inr (.inr ⟨_, _, rfl, held, Range.isOverlong_of_ofNode h⟩)
    · obtain ⟨compiled, types, aliases, sorted, operations, serviceName, name, staged⟩ :=
        Compile.runs_catalog.mp run
      exact .inl ⟨c, rfl, staged.named hS⟩

/-- A schema of a type that extends itself and has a type inside it, and of a type derived from one
that is not declared. -/
def tangled : SchemaSet :=
  let xsd (tag : String) (attributes : List (String × String)) (children : List Xml.Node) : Xml.Node :=
    ⟨Vocabulary.xsd, tag, attributes, [("t", some "urn:t")], children, "", 1⟩
  let code := xsd "simpleType" [("name", "Code")] [xsd "restriction" [("base", "t:Missing")] []]
  let item := xsd "element" [("name", "item")] [xsd "complexType" [] []]
  let loop := xsd "complexType" [("name", "Loop")] [xsd "complexContent" []
    [xsd "extension" [("base", "t:Loop")] [xsd "sequence" [] [item, xsd "element" [("ref", "t:x")] []]]]]
  ⟨"memory:t.xsd", [⟨"memory:t.xsd", "urn:t", xsd "schema" [] [code, loop]⟩], none⟩

theorem tangled_refused : ∃ e, (tangled.compile {}).result = .error e ∧ e.Documented {} := by
  have finite : ∀ S, Setting.ofSchemaSet tangled {} = .ok S → S.NestsFinitely := by
    intro S hs
    refine Setting.nestsFinitely_of_groupless (List.isEmpty_iff.mp ?_)
    have groupless : (Setting.ofSchemaSet tangled {}).map
        (fun S => (S.declarations.inSpace .group).isEmpty) = .ok true := rfl
    rw [hs] at groupless
    exact Except.ok.inj groupless
  have unbounded : ∀ d ∈ tangled.documents, ∀ node ∈ d.root.walk,
      ∀ bound ∈ ["minOccurs", "maxOccurs"], node.attribute? bound = none := by
    decide +kernel
  rcases compile_documented ⟨_, rfl⟩ (by decide) finite with
    ⟨c, compiled, -⟩ | refused | ⟨_, site, -, held, bound, hb, _, stated, -⟩
  · have none : (tangled.compile {}).result.toOption.isSome = false := by decide +kernel
    rw [compiled] at none
    cases none
  · exact refused
  · rw [unbounded _ held.1 _ held.2 bound hb] at stated
    cases stated

/-- A schema of a group with an element whose type refers to the group again. -/
def endless : SchemaSet :=
  let xsd (tag : String) (attributes : List (String × String)) (children : List Xml.Node) : Xml.Node :=
    ⟨Vocabulary.xsd, tag, attributes, [("t", some "urn:t")], children, "", 1⟩
  let again := xsd "group" [("ref", "t:G")] []
  let item := xsd "element" [("name", "item")] [xsd "complexType" [] [again]]
  let group := xsd "group" [("name", "G")] [xsd "sequence" [] [item]]
  ⟨"memory:t.xsd", [⟨"memory:t.xsd", "urn:t",
    xsd "schema" [] [group, xsd "complexType" [("name", "T")] [again]]⟩], none⟩

-- That no type is inside itself is needed: this compilation would go on without end.
example : ∃ owner uri file,
    (endless.compile {}).result = .error (.fault (.endlessNesting owner uri file)) :=
  ⟨_, _, _, rfl⟩

end SchemaSet

/-! ## Bounds with too many digits -/

namespace Compile

variable {S : Setting} {depth : Nat} {anonymous : Bool} {canonical : Owner} {name : QName}
  {site : Site} {e : Refusal}

/-- A type whose content is a part that is refused is refused. -/
theorem outcome_complexTypeIn_of_broken
    (simple : site.node.child? Vocabulary.xsd "simpleContent" = none)
    (complex : site.node.child? Vocabulary.xsd "complexContent" = none)
    (h : Particle.ofContainer S.declarations canonical site = [.broken e]) (p : Progress) :
    (complexTypeIn S (depth + 1) anonymous canonical name site).outcome p = (.error e, p) := by
  unfold complexTypeIn bodyOf addParticles
  rw [simple, complex, h]
  have steps : Outline.ofParticles S.options.choice [.broken e] = ⟨[.broken e], []⟩ := rfl
  rw [steps]
  exact outcome_bind_of_error (outcome_bind_of_error (outcome_bind_of_error
    (outcome_bind_of_error rfl)))

/-- A compilation is refused with its only type. -/
theorem outcome_catalog_of_broken {set : SchemaSet} (hS : S.WellFormed) {d : Declaration}
    (types : S.declarations.inSpace .type = [d]) (elements : S.declarations.inSpace .element = [])
    (notSimple : d.isSimpleType = false)
    (simple : d.site.node.child? Vocabulary.xsd "simpleContent" = none)
    (complex : d.site.node.child? Vocabulary.xsd "complexContent" = none)
    (h : ∀ owner, Particle.ofContainer S.declarations owner d.site = [.broken e])
    (deep : S.nesting = depth + 1) :
    ∃ q, (catalog S set).outcome .start = (.error e, q) := by
  have requested : requests S
      = [⟨ownerOfType d.name, Text.pascal d.name.localPart, d.name⟩] := by
    unfold requests elementsWithTypes
    rw [types, elements]
    rfl
  have job : jobs S = [.complex false (ownerOfType d.name) d.name d.site] := by
    unfold jobs elementsWithTypes Job.ofType
    rw [types, elements]
    simp only [List.map_cons, List.map_nil, notSimple]
    rfl
  have reserved := (runs_reserveAll hS (q := Progress.start.withReservations (requests S))).mpr
    ⟨requested ▸ List.nodup_singleton _, rfl⟩
  have holds : (Progress.start.withReservations (requests S)).inventory.canonical?
      (ownerOfType d.name) = some (Text.pascal d.name.localPart) := by
    rw [requested]
    simp [Inventory.canonical?, Progress.withReservations, Progress.start, Inventory.empty]
  refine ⟨Progress.start.withReservations (requests S), ?_⟩
  unfold catalog
  rw [outcome_bind, reserved]
  refine outcome_bind_of_error ?_
  rw [compileAll_eq, job, List.forM_cons]
  refine outcome_bind_of_error ?_
  unfold Job.run compileOnce
  dsimp only
  rw [outcome_bind, outcome_inventory]
  dsimp only
  rw [outcome_bind, outcome_inventory]
  dsimp only
  have empty : (Progress.start.withReservations (requests S)).inventory.isCompiled
      (some (Text.pascal d.name.localPart)) = false := rfl
  rw [holds, empty]
  show (complexTypeIn S S.nesting false _ _ _).outcome _ = _
  rw [deep]
  exact outcome_complexTypeIn_of_broken simple complex (h _) _

end Compile

namespace SchemaSet

def guests (bound : String) : Xml.Node :=
  ⟨Vocabulary.xsd, "sequence", [("maxOccurs", bound)], [],
    [⟨Vocabulary.xsd, "element", [("name", "guest")], [], [], "", 1⟩], "", 1⟩

def party (bound : String) : Xml.Node :=
  ⟨Vocabulary.xsd, "complexType", [("name", "Party")], [], [guests bound], "", 1⟩

def partyUpTo (bound : String) : SchemaSet :=
  ⟨"memory:t.xsd",
    [⟨"memory:t.xsd", "urn:t", ⟨Vocabulary.xsd, "schema", [], [], [party bound], "", 1⟩⟩], none⟩

theorem result_partyUpTo {bound : String} {count : Nat} (overlong : Text.IsOverlong bound count) :
    ((partyUpTo bound).compile {}).result = .error (.overlongNumber count) := by
  obtain ⟨S, hs⟩ : ∃ S, Setting.ofSchemaSet (partyUpTo bound) {} = .ok S := ⟨_, rfl⟩
  have content (ds : Declarations) (owner : Owner) (document : SchemaDocument) :
      Particle.ofContainer ds owner ⟨party bound, document⟩ = [.broken (.overlongNumber count)] := by
    have unread : Range.ofNode (guests bound) = .error (.overlong count) :=
      Range.ofNode_overlong rfl rfl overlong
    show [Particle.ranged owner ⟨guests bound, document⟩ _] = _
    unfold Particle.ranged
    rw [unread]
    rfl
  have plain : '\x7d' ∉ "urn:t".toList := by decide
  have hS : S.WellFormed := Setting.wellFormed hs (List.forall_mem_singleton.mpr plain)
  obtain ⟨q, refused⟩ : ∃ q, (Compile.catalog S (partyUpTo bound)).outcome .start
      = (.error (.overlongNumber count), q) := by
    cases hs
    exact Compile.outcome_catalog_of_broken hS rfl rfl rfl rfl rfl
      (fun owner => content _ owner _) rfl
  rw [result_compile hs, refused]

/-- One, written with so many zeros before it that it is not read. -/
def paddedOne : String := String.ofList (List.replicate Text.digitLimit '0' ++ ['1'])

set_option maxRecDepth 20000 in
theorem isOverlong_paddedOne : Text.IsOverlong paddedOne (Text.digitLimit + 1) := by
  have trimmed : Text.trimChars paddedOne.toList = List.replicate Text.digitLimit '0' ++ ['1'] := by
    rw [paddedOne, String.toList_ofList]
    decide +kernel
  refine ⟨fun c hc => ?_, ?_, Nat.lt_succ_self _⟩
  · rw [trimmed] at hc
    rcases List.mem_append.mp hc with hc | hc
    · rw [(List.mem_replicate.mp hc).2]
      decide
    · rw [List.mem_singleton.mp hc]
      decide
  · rw [trimmed, List.length_append, List.length_replicate]
    rfl

/-- Its guests come at most once, as a bound says that is a one behind too many zeros. -/
def paddedParty : SchemaSet := partyUpTo paddedOne

set_option maxRecDepth 20000 in
/-- A bound may be refused for its zeros, and not as is documented. -/
theorem paddedParty_undocumented :
    (∃ url, Url.parse paddedParty.location.toList = .ok url) ∧
      (∀ d ∈ paddedParty.documents, '\x7d' ∉ d.targetNamespace.toList) ∧
      (∀ S, Setting.ofSchemaSet paddedParty {} = .ok S → S.NestsFinitely) ∧
      Text.naturalFrom? 0 paddedOne.toList = some 1 ∧
      ∃ e, (paddedParty.compile {}).result = .error e ∧ ¬ e.Documented {} := by
  have plain : '\x7d' ∉ "urn:t".toList := by decide
  refine ⟨⟨_, rfl⟩, List.forall_mem_singleton.mpr plain, ?_, ?_,
    _, result_partyUpTo isOverlong_paddedOne, nofun⟩
  · intro S hs
    cases hs
    exact Setting.nestsFinitely_of_groupless rfl
  · rw [paddedOne, String.toList_ofList]
    decide +kernel

end SchemaSet

end WsdlCatalog
