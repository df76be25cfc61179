/-
  WsdlCatalog.Proofs.Closure — assembly finds what references lead to, and nothing else.

  Following the references of a schema is a search: what was visited is what the search
  knows, and each schema that is added is the one that the search meets next. The bound on
  the length of a way is never felt, because a location that is followed is supplied, and
  there are fewer and fewer supplied locations that were not visited (`Sources.unvisited`).

  Proved: an assembly that succeeds has met its schemas in depth-first order and named them in
  that order, and all of their references lead to what it knows (`add_explores`,
  `addHeld_explores`); it succeeds if everything within reach is supplied
  (`addHeld_succeeds`); and it reads nothing but the entry and the locations within reach
  (`addHeld_congr`). Together: a schema set is exactly what the entry leads to
  (`SchemaSet.assemble_closure`).
-/

import WsdlCatalog.Proofs.Extension
import WsdlCatalog.Proofs.Naming

namespace WsdlCatalog

open Search

/-! ## Sources -/

namespace Sources

variable {sources sources' : Sources} {l : String} {schema : Xml.Node}

/-- Whoever refers to a location is told in the faults only. -/
theorem read_eq_ok {by_ by' : Option String} {root : Xml.Node} (h : sources.read l by_ = .ok root) :
    sources.read l by' = .ok root := by
  unfold read at h ⊢
  split at h
  · cases h
  · split at h
    · exact h
    · cases h
    · cases h

theorem schemaAt_eq_some : sources.schemaAt l = some schema ↔
    sources.read l none = .ok schema ∧ schema.isA Vocabulary.xsd "schema" = true := by
  unfold schemaAt
  split
  · rename_i root hr
    rw [hr, Except.ok.injEq]
    by_cases hs : root.isA Vocabulary.xsd "schema" = true
    · rw [if_pos hs, Option.some.injEq]
      exact ⟨fun e => ⟨e, e ▸ hs⟩, And.left⟩
    · rw [if_neg hs]
      exact ⟨nofun, fun given => absurd (given.1 ▸ given.2) hs⟩
  · rename_i e hr
    rw [hr]
    exact ⟨nofun, fun given => nomatch given.1⟩

theorem read_congr (h : sources.lookup l = sources'.lookup l) (by_ : Option String) :
    sources.read l by_ = sources'.read l by_ := by
  unfold read
  rw [h]

theorem mem_of_schemaAt (h : sources.schemaAt l = some schema) : ∃ octets, (l, octets) ∈ sources := by
  obtain ⟨hr, -⟩ := schemaAt_eq_some.mp h
  unfold read at hr
  split at hr
  · cases hr
  · rename_i octets ho
    exact ⟨octets, mem_of_lookup ho⟩

/-- How many texts there are under locations that were not visited. -/
def unvisited (sources : Sources) (visited : List String) : Nat :=
  sources.countP fun x => !visited.contains x.1

theorem unvisited_mono {visited more : List String} (h : visited ⊆ more) :
    sources.unvisited more ≤ sources.unvisited visited := by
  apply List.countP_mono_left
  intro x _ hx
  simp only [Bool.not_eq_true', List.contains_eq_mem, decide_eq_false_iff_not] at hx ⊢
  exact fun hv => hx (h hv)

/-- Going to a location that is supplied leaves fewer of them. -/
theorem unvisited_cons_lt {visited : List String} (hs : sources.schemaAt l = some schema)
    (hv : l ∉ visited) : sources.unvisited (l :: visited) < sources.unvisited visited := by
  obtain ⟨octets, hm⟩ := mem_of_schemaAt hs
  obtain ⟨before, after, rfl⟩ := List.append_of_mem hm
  have hb : unvisited before (l :: visited) ≤ unvisited before visited :=
    unvisited_mono (List.subset_cons_self l visited)
  have ha : unvisited after (l :: visited) ≤ unvisited after visited :=
    unvisited_mono (List.subset_cons_self l visited)
  unfold unvisited at hb ha ⊢
  rw [List.countP_append, List.countP_append, List.countP_cons, List.countP_cons]
  simp only [List.contains_eq_mem, hv, List.mem_cons_self, decide_true, decide_false,
    Bool.not_true, Bool.not_false, Bool.false_eq_true, if_true, if_false]
  simp only [List.contains_eq_mem] at hb ha
  omega

theorem unvisited_le_length (visited : List String) : sources.unvisited visited ≤ sources.length :=
  List.countP_le_length

end Sources

/-! ## One reference -/

namespace Assembly

variable {sources : Sources} {entry : String} {held waiting : List (String × Xml.Node)}

/-- How a schema is added, from its location and the target namespace that it may inherit. -/
abbrev Adding := Assembly → Xml.Node → String → Option String → Except Refusal Assembly

def followOne (sources : Sources) (adding : Adding) (location base target : String)
    (assembly : Assembly) (reference : Xml.Node) : Except Refusal Assembly :=
  match reference.filled? "schemaLocation" with
  | none => .ok assembly
  | some written => do
    let absolute ← locationOf base written
    if assembly.visited.contains absolute then .ok assembly
    else
      let root ← sources.read absolute (some location)
      if root.isA Vocabulary.xsd "schema" then
        adding { assembly with visited := absolute :: assembly.visited } root absolute
          (if reference.tag == "import" then none else some target)
      else .error (.fault (.notSchema root.tag root.uri absolute location))

theorem follow_cons (sources : Sources) (adding : Adding) (location base target : String)
    (assembly : Assembly) (reference : Xml.Node) (rest : List Xml.Node) :
    follow sources adding location base target assembly (reference :: rest) =
      followOne sources adding location base target assembly reference >>= fun assembly =>
        follow sources adding location base target assembly rest := by
  rw [follow]
  unfold followOne
  cases reference.filled? "schemaLocation" with
  | none => rfl
  | some written =>
    show (locationOf base written >>= _) = (locationOf base written >>= _) >>= _
    cases locationOf base written with
    | error e => rfl
    | ok absolute =>
      show ite _ _ _ = ite _ _ _ >>= _
      split
      · rfl
      · show (sources.read absolute (some location) >>= _) =
          (sources.read absolute (some location) >>= _) >>= _
        cases sources.read absolute (some location) with
        | error e => rfl
        | ok root =>
          show ite _ _ _ = ite _ _ _ >>= _
          split
          · rfl
          · rfl

theorem locationOf_eq_ok {base written l : String} :
    locationOf base written = .ok l ↔ Location.resolve base written = .ok l := by
  unfold locationOf
  cases Location.resolve base written with
  | error e => exact ⟨nofun, nofun⟩
  | ok m => exact ⟨fun h => congrArg _ (Except.ok.inj h), fun h => congrArg _ (Except.ok.inj h)⟩

variable {adding : Adding} {location base target : String} {assembly assembly' : Assembly}
  {reference : Xml.Node}

/-- A reference that is not written to a location changes nothing, nor does one to a location
that was visited; any other leads to a schema, which is added. -/
theorem followOne_eq_ok :
    followOne sources adding location base target assembly reference = .ok assembly' ↔
      (reference.filled? "schemaLocation" = none ∧ assembly' = assembly) ∨
      ∃ written l, reference.filled? "schemaLocation" = some written ∧
        Location.resolve base written = .ok l ∧
        ((l ∈ assembly.visited ∧ assembly' = assembly) ∨
          (l ∉ assembly.visited ∧ ∃ schema, sources.schemaAt l = some schema ∧
            adding { assembly with visited := l :: assembly.visited } schema l
              (if reference.tag == "import" then none else some target) = .ok assembly')) := by
  unfold followOne
  cases reference.filled? "schemaLocation" with
  | none =>
    constructor
    · intro h
      exact .inl ⟨rfl, (Except.ok.inj h).symm⟩
    · intro given
      rcases given with ⟨-, rfl⟩ | ⟨_, _, h, -⟩
      · rfl
      · cases h
  | some written =>
    simp only [ok_bind, locationOf_eq_ok, List.contains_eq_mem, decide_eq_true_eq]
    constructor
    · intro given
      rcases given with ⟨l, hl, h⟩
      refine .inr ⟨written, l, rfl, hl, ?_⟩
      by_cases hv : l ∈ assembly.visited
      · rw [if_pos hv] at h
        exact .inl ⟨hv, (Except.ok.inj h).symm⟩
      · rw [if_neg hv] at h
        obtain ⟨root, hr, h⟩ := ok_bind.mp h
        by_cases hs : root.isA Vocabulary.xsd "schema" = true
        · rw [if_pos hs] at h
          exact .inr ⟨hv, root, Sources.schemaAt_eq_some.mpr ⟨Sources.read_eq_ok hr, hs⟩, h⟩
        · rw [if_neg hs] at h
          cases h
    · intro given
      rcases given with ⟨h, -⟩ | ⟨_, l, h, hl, given⟩
      · cases h
      · cases h
        refine ⟨l, hl, ?_⟩
        rcases given with ⟨hv, rfl⟩ | ⟨hv, schema, hs, h⟩
        · rw [if_pos hv]
        · obtain ⟨hr, hs⟩ := Sources.schemaAt_eq_some.mp hs
          rw [if_neg hv]
          exact ok_bind.mpr ⟨schema, Sources.read_eq_ok hr, by rw [if_pos hs]; exact h⟩

/-! ## What was visited stays visited -/

/-- A way to add schemas forgets no location. -/
def Grows (adding : Adding) : Prop :=
  ∀ {assembly assembly' : Assembly} {schema : Xml.Node} {l : String} {inherited : Option String},
    adding assembly schema l inherited = .ok assembly' → assembly.visited ⊆ assembly'.visited

theorem followOne_visited (grows : Grows adding)
    (h : followOne sources adding location base target assembly reference = .ok assembly') :
    assembly.visited ⊆ assembly'.visited := by
  rcases followOne_eq_ok.mp h with ⟨-, rfl⟩ | ⟨_, l, -, -, ⟨-, rfl⟩ | ⟨-, schema, -, h⟩⟩
  · exact List.Subset.refl _
  · exact List.Subset.refl _
  · exact List.Subset.trans (List.subset_cons_self l _) (grows h)

theorem follow_visited (grows : Grows adding) (references : List Xml.Node) :
    ∀ {assembly : Assembly},
      follow sources adding location base target assembly references = .ok assembly' →
        assembly.visited ⊆ assembly'.visited := by
  induction references with
  | nil =>
    intro assembly h
    cases h
    exact List.Subset.refl _
  | cons reference rest ih =>
    intro assembly h
    rw [follow_cons, ok_bind] at h
    obtain ⟨between, ho, h⟩ := h
    exact List.Subset.trans (followOne_visited grows ho) (ih h)

theorem add_visited (depth : Nat) :
    ∀ {assembly assembly' : Assembly} {schema : Xml.Node} {location base : String}
      {inherited : Option String},
      add sources depth assembly schema location base inherited = .ok assembly' →
        assembly.visited ⊆ assembly'.visited := by
  induction depth with
  | zero =>
    intro assembly assembly' schema location base inherited h
    cases h
    exact List.Subset.refl _
  | succ depth ih =>
    intro assembly assembly' schema location base inherited h
    rw [add] at h
    have grown := follow_visited (fun h => ih h) _ h
    exact grown

/-! ## A search -/

structure Lists (entry : String) (assembly : Assembly) (order : List Station) : Prop where
  visited : assembly.visited = (known entry order).reverse
  named : assembly.documents = (named entry order).map Visit.document

/-- From the schemas met so far on, the assembly is that of a search that has met more, whose
references all lead to what is known. -/
def Explores (sources : Sources) (entry : String) (held waiting : List (String × Xml.Node))
    (order : List Station) (assembly : Assembly) : Prop :=
  ∃ more, DepthFirst sources entry held (order ++ more) waiting ∧
    assembly.Lists entry (order ++ more) ∧
    ∀ s ∈ more, s.Settled entry (known entry (order ++ more))

theorem Lists.mem_visited {order : List Station} (h : assembly.Lists entry order) {l : String} :
    l ∈ assembly.visited ↔ l ∈ known entry order := by
  rw [h.visited, List.mem_reverse]

def Followed (locations : List String) (base : String) (references : List Xml.Node) : Prop :=
  ∀ reference ∈ references, ∀ written, reference.filled? "schemaLocation" = some written →
    ∃ l ∈ locations, Location.resolve base written = .ok l

variable {s : Station} {done rest : List Xml.Node} {locations more : List String}

theorem Followed.mono (h : Followed locations base done) (hs : locations ⊆ more) :
    Followed more base done := by
  intro reference hr written hw
  obtain ⟨l, hl, resolves⟩ := h reference hr written hw
  exact ⟨l, hs hl, resolves⟩

theorem Followed.snoc (h : Followed locations base done)
    (hr : ∀ written, reference.filled? "schemaLocation" = some written →
      ∃ l ∈ locations, Location.resolve base written = .ok l) :
    Followed locations base (done ++ [reference]) := by
  intro other ho
  rcases List.mem_append.mp ho with ho | ho
  · exact h other ho
  · cases List.mem_singleton.mp ho
    exact hr

theorem Followed.settled
    (h : Followed locations (s.base entry) (s.schema.children.filter isReference)) :
    s.Settled entry locations := by
  intro written hw
  obtain ⟨reference, hr, hw⟩ := List.mem_filterMap.mp hw
  exact h reference hr written hw

/-- The target of a reference stands behind those of the references before it. -/
theorem Followed.targets (h : Followed locations (s.base entry) done)
    (hc : s.schema.children.filter isReference = done ++ reference :: rest) {written l : String}
    (hw : reference.filled? "schemaLocation" = some written)
    (hl : Location.resolve (s.base entry) written = .ok l) :
    ∃ before after, s.targets entry = before ++ l :: after ∧ ∀ m ∈ before, m ∈ locations := by
  have here : (Location.resolve (s.base entry) written).toOption = some l := by rw [hl]; rfl
  unfold Station.targets Xml.Node.schemaLocations
  rw [hc, List.filterMap_append, List.filterMap_cons, hw, List.filterMap_append,
    List.filterMap_cons, here]
  refine ⟨_, _, rfl, ?_⟩
  intro m hm
  obtain ⟨other, ho, hm⟩ := List.mem_filterMap.mp hm
  obtain ⟨earlier, he, ho⟩ := List.mem_filterMap.mp ho
  obtain ⟨k, hk, resolves⟩ := h earlier he other ho
  rw [resolves] at hm
  cases hm
  exact hk

/-- A reference to a new place is the first one to it. -/
theorem Followed.referenceTo?_eq_some {l : String} (h : Followed locations (s.base entry) done)
    (hc : s.schema.children.filter isReference = done ++ reference :: rest)
    (hl : s.leads entry l reference = true) (fresh : l ∉ locations) :
    s.referenceTo? entry l = some reference := by
  have skipped : done.find? (s.leads entry l) = none := by
    rw [List.find?_eq_none]
    intro earlier he leads
    obtain ⟨written, hw, resolves⟩ := Station.leads_iff.mp leads
    obtain ⟨k, hk, resolves'⟩ := h earlier he written hw
    rw [resolves] at resolves'
    cases resolves'
    exact fresh hk
  unfold Station.referenceTo? Station.references
  rw [hc, List.find?_append, skipped, Option.none_or, List.find?_cons_of_pos hl]

/-- What is added for a reference goes on with the search from the schema there. -/
def Searches (sources : Sources) (entry : String) (held waiting : List (String × Xml.Node))
    (depth : Nat) (adding : Adding) : Prop :=
  ∀ (assembly : Assembly) ⦃assembly' : Assembly⦄ ⦃order : List Station⦄ ⦃schema : Xml.Node⦄ ⦃l : String⦄
    ⦃inherited : Option String⦄, sources.unvisited assembly.visited < depth →
    DepthFirst sources entry held (order ++ [.found l schema]) waiting →
    assembly.visited = (known entry (order ++ [.found l schema])).reverse →
    assembly.documents = (named entry order).map Visit.document →
    inherited = inheritedBy entry (named entry order) (.found l schema) →
    adding assembly schema l inherited = .ok assembly' →
    Explores sources entry held waiting order assembly'

theorem follow_explores {depth : Nat} (searches : Searches sources entry held waiting depth adding)
    (grows : Grows adding) {before : List Station}
    (ht : target = (visit entry (named entry before) s).target) (references : List Xml.Node) :
    ∀ {done : List Xml.Node} {after : List Station} (assembly : Assembly),
      s.schema.children.filter isReference = done ++ references →
      DepthFirst sources entry held (before ++ s :: after) waiting →
      assembly.Lists entry (before ++ s :: after) →
      sources.unvisited assembly.visited ≤ depth →
      Followed (known entry (before ++ s :: after)) (s.base entry) done →
      (∀ x ∈ after, x.Settled entry (known entry (before ++ s :: after))) →
      follow sources adding location (s.base entry) target assembly references = .ok assembly' →
      Explores sources entry held waiting before assembly' := by
  induction references with
  | nil =>
    intro done after assembly hc search lists _ followed settled h
    cases h
    rw [List.append_nil] at hc
    refine ⟨s :: after, search, lists, ?_⟩
    intro x hx
    rcases List.mem_cons.mp hx with rfl | hx
    · exact Followed.settled (hc ▸ followed)
    · exact settled x hx
  | cons reference rest ih =>
    intro done after assembly hc search lists room followed settled h
    rw [follow_cons, ok_bind] at h
    obtain ⟨between, ho, h⟩ := h
    have hc' : s.schema.children.filter isReference = (done ++ [reference]) ++ rest := by
      rw [hc, List.append_assoc]
      rfl
    rcases followOne_eq_ok.mp ho with ⟨hw, rfl⟩ | ⟨written, l, hw, hl, ⟨hv, rfl⟩ | ⟨hv, schema, hs, ho⟩⟩
    · refine ih _ hc' search lists room (followed.snoc ?_) settled h
      intro written hw'
      rw [hw] at hw'
      cases hw'
    · refine ih _ hc' search lists room (followed.snoc ?_) settled h
      intro written' hw'
      rw [hw] at hw'
      cases hw'
      exact ⟨l, lists.mem_visited.mp hv, hl⟩
    · -- the search goes on with the schema at `l`, which comes behind all that was met so far
      have fresh : l ∉ known entry (before ++ s :: after) := fun hk => hv (lists.mem_visited.mpr hk)
      obtain ⟨_, _, targets, passed⟩ := followed.targets hc hw hl
      have next := next?_eq_some targets rfl passed settled fresh
      have lessRoom := Nat.lt_of_lt_of_le (Sources.unvisited_cons_lt hs hv) room
      have visited : l :: assembly.visited =
          (known entry (before ++ s :: after ++ [.found l schema])).reverse := by
        rw [lists.visited, known_append _ [_], List.reverse_append]
        rfl
      have first := followed.referenceTo?_eq_some hc (Station.leads_iff.mpr ⟨written, hw, hl⟩) fresh
      have inherited := inheritedBy_found schema first settled fresh
      have explores := searches ⟨l :: assembly.visited, assembly.documents⟩ lessRoom
        (search.found next hs) visited lists.named (by rw [inherited, ht]) ho
      obtain ⟨more, search, lists', settled'⟩ := explores
      have grown : known entry (before ++ s :: after) ⊆ known entry (before ++ s :: after ++ more) :=
        known_subset _ more
      have same : before ++ s :: after ++ more = before ++ s :: (after ++ more) := by simp
      rw [same] at search lists' settled' grown
      have known_l : l ∈ known entry (before ++ s :: (after ++ more)) :=
        lists'.mem_visited.mp (grows ho List.mem_cons_self)
      refine ih _ hc' search lists' ?_ ((followed.mono grown).snoc ?_) ?_ h
      · exact Nat.le_trans (Sources.unvisited_mono (grows ho)) (Nat.le_of_lt lessRoom)
      · intro written' hw'
        rw [hw] at hw'
        cases hw'
        exact ⟨l, known_l, hl⟩
      · intro x hx
        rcases List.mem_append.mp hx with hx | hx
        · exact (settled x hx).mono grown
        · exact settled' x hx

theorem add_explores (depth : Nat) :
    ∀ {assembly assembly' : Assembly} {order : List Station} {s : Station}
      {inherited : Option String}, sources.unvisited assembly.visited < depth →
      DepthFirst sources entry held (order ++ [s]) waiting →
      assembly.visited = (known entry (order ++ [s])).reverse →
      assembly.documents = (named entry order).map Visit.document →
      inherited = inheritedBy entry (named entry order) s →
      add sources depth assembly s.schema s.location (s.base entry) inherited = .ok assembly' →
      Explores sources entry held waiting order assembly' := by
  induction depth with
  | zero =>
    intro assembly assembly' order s inherited room
    exact absurd room (Nat.not_lt_zero _)
  | succ depth ih =>
    intro assembly assembly' order s inherited room search visited documents hi h
    rw [add] at h
    have searches : Searches sources entry held waiting depth
        (fun assembly root absolute inherited =>
          add sources depth assembly root absolute absolute inherited) := by
      intro assembly assembly' order schema l inherited room search visited documents hi h
      exact ih room search visited documents hi h
    have target : targetOf s.schema inherited = (visit entry (named entry order) s).target := by
      rw [hi]
      rfl
    have lists : Lists entry ⟨assembly.visited, assembly.documents ++
        [⟨s.location, targetOf s.schema inherited, s.schema⟩]⟩ (order ++ [s]) := by
      refine ⟨visited, ?_⟩
      rw [named_snoc, List.map_append, ← documents, target]
      rfl
    exact follow_explores searches (fun h => add_visited depth h) target _ _ rfl search lists
      (Nat.le_of_lt_succ room) (fun _ h => absurd h List.not_mem_nil)
      (fun _ h => absurd h List.not_mem_nil) h

/-! ## Everything within reach is supplied -/

theorem follow_succeeds (supplied : AllSupplied sources entry held) (hs : s.Met sources entry held)
    (hadd : ∀ (assembly : Assembly) {l : String} {schema : Xml.Node} {inherited : Option String},
      entry ∈ assembly.visited → (Station.found l schema).Met sources entry held →
        ∃ assembly', adding assembly schema l inherited = .ok assembly' ∧
          entry ∈ assembly'.visited)
    (references : List Xml.Node) :
    ∀ (assembly : Assembly), references ⊆ s.schema.children.filter isReference →
      entry ∈ assembly.visited → ∃ assembly',
        follow sources adding location (s.base entry) target assembly references = .ok assembly' ∧
          entry ∈ assembly'.visited := by
  induction references with
  | nil => exact fun assembly _ he => ⟨assembly, rfl, he⟩
  | cons reference rest ih =>
    intro assembly hc he
    have one : ∃ between,
        followOne sources adding location (s.base entry) target assembly reference = .ok between ∧
          entry ∈ between.visited := by
      cases hw : reference.filled? "schemaLocation" with
      | none => exact ⟨assembly, followOne_eq_ok.mpr (.inl ⟨hw, rfl⟩), he⟩
      | some written =>
        have hm : written ∈ s.schema.schemaLocations :=
          List.mem_filterMap.mpr ⟨reference, hc List.mem_cons_self, hw⟩
        obtain ⟨l, hl⟩ := supplied.resolved s hs written hm
        by_cases hv : l ∈ assembly.visited
        · exact ⟨assembly, followOne_eq_ok.mpr (.inr ⟨written, l, hw, hl, .inl ⟨hv, rfl⟩⟩), he⟩
        · have reached := hs.target (Station.mem_targets.mpr ⟨written, hm, hl⟩)
          obtain ⟨schema, hschema⟩ := supplied.supplied l reached fun e => hv (e ▸ he)
          obtain ⟨between, hb, he⟩ := hadd ⟨l :: assembly.visited, assembly.documents⟩
            (List.mem_cons_of_mem l he) ⟨reached, hschema⟩
          exact ⟨between,
            followOne_eq_ok.mpr (.inr ⟨written, l, hw, hl, .inr ⟨hv, schema, hschema, hb⟩⟩), he⟩
    obtain ⟨between, ho, he⟩ := one
    obtain ⟨assembly', h, he⟩ := ih between (List.subset_of_cons_subset hc) he
    exact ⟨assembly', (follow_cons ..).trans (ok_bind.mpr ⟨between, ho, h⟩), he⟩

theorem add_succeeds (supplied : AllSupplied sources entry held) (depth : Nat) :
    ∀ (assembly : Assembly) (s : Station) (inherited : Option String),
      entry ∈ assembly.visited → s.Met sources entry held →
        ∃ assembly',
          add sources depth assembly s.schema s.location (s.base entry) inherited = .ok assembly' ∧
            entry ∈ assembly'.visited := by
  induction depth with
  | zero => exact fun assembly s inherited he _ => ⟨_, rfl, he⟩
  | succ depth ih =>
    intro assembly s inherited he hs
    rw [add]
    refine follow_succeeds supplied hs ?_ _ _ (List.Subset.refl _) he
    intro assembly l schema inherited he hs
    exact ih assembly (.found l schema) inherited he hs

/-! ## Nothing else is read -/

def SameWithinReach (sources sources' : Sources) (entry : String)
    (held : List (String × Xml.Node)) : Prop :=
  ∀ l, Reachable sources entry held l → sources.lookup l = sources'.lookup l

variable {sources' : Sources} {adding' : Adding}

/-- Two ways to add schemas are the same on schemas that are met, as long as there is room for
them. -/
def AddAlike (sources sources' : Sources) (entry : String) (held : List (String × Xml.Node))
    (depth depth' : Nat) (adding adding' : Adding) : Prop :=
  ∀ {assembly : Assembly} {l : String} {schema : Xml.Node} {inherited : Option String},
    (Station.found l schema).Met sources entry held →
    sources.unvisited assembly.visited < depth → sources'.unvisited assembly.visited < depth' →
      adding assembly schema l inherited = adding' assembly schema l inherited

theorem followOne_congr (same : SameWithinReach sources sources' entry held)
    (hs : s.Met sources entry held) {depth depth' : Nat}
    (alike : AddAlike sources sources' entry held depth depth' adding adding')
    (hc : reference ∈ s.schema.children.filter isReference)
    (room : sources.unvisited assembly.visited ≤ depth)
    (room' : sources'.unvisited assembly.visited ≤ depth') :
    followOne sources adding location (s.base entry) target assembly reference =
      followOne sources' adding' location (s.base entry) target assembly reference := by
  unfold followOne
  cases hw : reference.filled? "schemaLocation" with
  | none => rfl
  | some written =>
    show (locationOf (s.base entry) written >>= _) = (locationOf (s.base entry) written >>= _)
    cases hl : locationOf (s.base entry) written with
    | error e => rfl
    | ok l =>
      have reached : Reachable sources entry held l :=
        hs.target (Station.mem_targets.mpr ⟨written,
          List.mem_filterMap.mpr ⟨reference, hc, hw⟩, locationOf_eq_ok.mp hl⟩)
      have read := Sources.read_congr (same l reached)
      show ite _ _ _ = ite _ _ _
      by_cases hv : assembly.visited.contains l = true
      · rw [if_pos hv, if_pos hv]
      · have fresh : l ∉ assembly.visited := fun hm => hv (List.contains_iff_mem.mpr hm)
        rw [if_neg hv, if_neg hv, ← read]
        cases hr : sources.read l (some location) with
        | error e => rfl
        | ok root =>
          show ite _ _ _ = ite _ _ _
          by_cases hroot : root.isA Vocabulary.xsd "schema" = true
          · have read_none : sources.read l none = .ok root := Sources.read_eq_ok hr
            have here := Sources.schemaAt_eq_some.mpr ⟨read_none, hroot⟩
            have here' := Sources.schemaAt_eq_some.mpr ⟨(read none).symm.trans read_none, hroot⟩
            rw [if_pos hroot, if_pos hroot]
            apply alike ⟨reached, here⟩
            · exact Nat.lt_of_lt_of_le (Sources.unvisited_cons_lt here fresh) room
            · exact Nat.lt_of_lt_of_le (Sources.unvisited_cons_lt here' fresh) room'
          · rw [if_neg hroot, if_neg hroot]

theorem follow_congr (same : SameWithinReach sources sources' entry held)
    (hs : s.Met sources entry held) {depth depth' : Nat}
    (alike : AddAlike sources sources' entry held depth depth' adding adding')
    (grows : Grows adding) (references : List Xml.Node) :
    ∀ (assembly : Assembly), references ⊆ s.schema.children.filter isReference →
      sources.unvisited assembly.visited ≤ depth → sources'.unvisited assembly.visited ≤ depth' →
        follow sources adding location (s.base entry) target assembly references =
          follow sources' adding' location (s.base entry) target assembly references := by
  induction references with
  | nil => exact fun _ _ _ _ => rfl
  | cons reference rest ih =>
    intro assembly hc room room'
    rw [follow_cons, follow_cons,
      ← followOne_congr same hs alike (hc List.mem_cons_self) room room']
    cases ho : followOne sources adding location (s.base entry) target assembly reference with
    | error e => rfl
    | ok between =>
      have grown := followOne_visited grows ho
      exact ih between (List.subset_of_cons_subset hc)
        (Nat.le_trans (Sources.unvisited_mono grown) room)
        (Nat.le_trans (Sources.unvisited_mono grown) room')

theorem add_congr (same : SameWithinReach sources sources' entry held) (depth : Nat) :
    ∀ (depth' : Nat) (assembly : Assembly) (s : Station) (inherited : Option String),
      s.Met sources entry held → sources.unvisited assembly.visited < depth →
      sources'.unvisited assembly.visited < depth' →
        add sources depth assembly s.schema s.location (s.base entry) inherited =
          add sources' depth' assembly s.schema s.location (s.base entry) inherited := by
  induction depth with
  | zero => exact fun _ _ _ _ _ room => absurd room (Nat.not_lt_zero _)
  | succ depth ih =>
    intro depth' assembly s inherited hs room room'
    cases depth' with
    | zero => exact absurd room' (Nat.not_lt_zero _)
    | succ depth' =>
      rw [add, add]
      refine follow_congr same hs ?_ (fun h => add_visited depth h) _ _ (List.Subset.refl _)
        (Nat.le_of_lt_succ room) (Nat.le_of_lt_succ room')
      intro assembly l schema inherited hs room room'
      exact ih depth' assembly (.found l schema) inherited hs room room'

/-! ## The schemas of the entry -/

def addHeld (sources : Sources) (entry : String) (assembly : Assembly)
    (held : List (String × Xml.Node)) : Except Refusal Assembly :=
  held.foldlM (fun assembly x =>
    add sources (sources.length + 1) assembly x.2 x.1 entry none) assembly

theorem addHeld_explores (waiting : List (String × Xml.Node)) :
    ∀ {order : List Station} {assembly : Assembly},
      DepthFirst sources entry held order waiting → assembly.Lists entry order →
      (∀ s ∈ order, s.Settled entry (known entry order)) →
      addHeld sources entry assembly waiting = .ok assembly' →
      ∃ order', DepthFirst sources entry held order' [] ∧ assembly'.Lists entry order' ∧
        ∀ s ∈ order', s.Settled entry (known entry order') := by
  induction waiting with
  | nil =>
    intro order assembly search lists settled h
    cases h
    exact ⟨order, search, lists, settled⟩
  | cons first rest ih =>
    intro order assembly search lists settled h
    obtain ⟨name, schema⟩ := first
    rw [addHeld, List.foldlM_cons, ok_bind] at h
    obtain ⟨between, hb, h⟩ := h
    have room : sources.unvisited assembly.visited < sources.length + 1 :=
      Nat.lt_succ_of_le (Sources.unvisited_le_length _)
    have visited : assembly.visited =
        (known entry (order ++ [.held name schema])).reverse := by
      rw [lists.visited, known_append]
      simp [Station.found?]
    obtain ⟨more, search, lists, settled'⟩ := add_explores (s := .held name schema) _ room
      (search.held (next?_eq_none settled)) visited lists.named rfl hb
    refine ih search lists ?_ h
    intro s hs
    rcases List.mem_append.mp hs with hs | hs
    · exact (settled s hs).mono (known_subset order more)
    · exact settled' s hs

theorem addHeld_succeeds (supplied : AllSupplied sources entry held)
    (waiting : List (String × Xml.Node)) :
    ∀ (assembly : Assembly), waiting ⊆ held → entry ∈ assembly.visited →
      ∃ assembly', addHeld sources entry assembly waiting = .ok assembly' := by
  induction waiting with
  | nil => exact fun assembly _ _ => ⟨assembly, rfl⟩
  | cons first rest ih =>
    intro assembly hw he
    obtain ⟨between, hb, he⟩ := add_succeeds supplied (sources.length + 1) assembly
      (.held first.1 first.2) none he (hw List.mem_cons_self)
    obtain ⟨assembly', h⟩ := ih between (List.subset_of_cons_subset hw) he
    exact ⟨assembly', (List.foldlM_cons ..).trans (ok_bind.mpr ⟨between, hb, h⟩)⟩

theorem addHeld_congr (same : SameWithinReach sources sources' entry held)
    (waiting : List (String × Xml.Node)) :
    ∀ (assembly : Assembly), waiting ⊆ held →
      addHeld sources entry assembly waiting = addHeld sources' entry assembly waiting := by
  induction waiting with
  | nil => exact fun _ _ => rfl
  | cons first rest ih =>
    intro assembly hw
    have one := add_congr same (sources.length + 1) (sources'.length + 1) assembly
      (.held first.1 first.2) none (hw List.mem_cons_self)
      (Nat.lt_succ_of_le (Sources.unvisited_le_length _))
      (Nat.lt_succ_of_le (Sources.unvisited_le_length _))
    unfold addHeld at ih ⊢
    rw [List.foldlM_cons, List.foldlM_cons]
    refine (congrArg (· >>= _) one).trans (congrArg _ (funext fun between => ?_))
    exact ih between (List.subset_of_cons_subset hw)

end Assembly

end WsdlCatalog
