/-
  WsdlCatalog.Proofs.Assembly — a schema set is what its entry leads to.

  The entry is a service description, which holds schemas, or a schema itself (`heldBy`).
  From there references lead to other schemas.

  Proved, of every location and all entries (`SchemaSet.assemble_closure`): an assembly
  succeeds exactly when the entry can be opened and everything within reach is supplied,
  whatever circles references go in. Its documents are the schemas of the entry and one for
  each other location within reach, in depth-first order. Entries out of reach do not
  matter.
-/

import WsdlCatalog.Proofs.Closure

namespace WsdlCatalog

open Search

/-! ## Entries out of reach -/

/-- The entries differ in some whose locations are not of a kind. -/
inductive AlikeWhere (P : String → Prop) :
    List (String × List UInt8) → List (String × List UInt8) → Prop
  | nil : AlikeWhere P [] []
  | both (x : String × List UInt8) {xs ys : List (String × List UInt8)} (h : AlikeWhere P xs ys) :
      AlikeWhere P (x :: xs) (x :: ys)
  | removed {x : String × List UInt8} {l : String} {xs ys : List (String × List UInt8)}
      (hx : Location.normalize x.1 = .ok l) (hl : ¬ P l) (h : AlikeWhere P xs ys) :
      AlikeWhere P (x :: xs) ys
  | added {y : String × List UInt8} {l : String} {xs ys : List (String × List UInt8)}
      (hy : Location.normalize y.1 = .ok l) (hl : ¬ P l) (h : AlikeWhere P xs ys) :
      AlikeWhere P xs (y :: ys)

namespace Sources

def rowsOf (entries : List (String × List UInt8)) : Except LocationError Sources :=
  entries.mapM fun x => do return (← Location.normalize x.1, x.2)

theorem ofEntries_eq (entries : List (String × List UInt8)) :
    ofEntries entries = (rowsOf entries).map putAll := by
  unfold ofEntries
  show rowsOf entries >>= _ = _
  cases rowsOf entries <;> rfl

theorem rowsOf_cons {x : String × List UInt8} {l : String} (hx : Location.normalize x.1 = .ok l)
    (entries : List (String × List UInt8)) :
    rowsOf (x :: entries) = (rowsOf entries).map ((l, x.2) :: ·) := by
  unfold rowsOf
  rw [List.mapM_cons, hx]
  rfl

theorem exists_normal {x : String × List UInt8} {entries : List (String × List UInt8)}
    {rows : Sources} (h : rowsOf (x :: entries) = .ok rows) :
    ∃ l rest, Location.normalize x.1 = .ok l ∧ rowsOf entries = .ok rest ∧
      rows = (l, x.2) :: rest := by
  cases hx : Location.normalize x.1 with
  | error e =>
    unfold rowsOf at h
    rw [List.mapM_cons, hx] at h
    cases h
  | ok l =>
    rw [rowsOf_cons hx] at h
    cases hr : rowsOf entries with
    | error e => rw [hr] at h; cases h
    | ok rest =>
      rw [hr] at h
      exact ⟨l, rest, rfl, rfl, (Except.ok.inj h).symm⟩

def AgreeWhere (P : String → Prop) (sources sources' : Sources) : Prop :=
  ∀ l, P l → sources.lookup l = sources'.lookup l

variable {P : String → Prop} {sources sources' : Sources} {l : String}

theorem AgreeWhere.put (h : AgreeWhere P sources sources') (l : String) (octets : List UInt8) :
    AgreeWhere P (put l octets sources) (put l octets sources') := by
  intro m hm
  by_cases e : m = l
  · rw [e, lookup_put, lookup_put]
  · rw [lookup_put_of_ne e, lookup_put_of_ne e, h m hm]

theorem agreeWhere_put (hl : ¬ P l) (octets : List UInt8) (sources : Sources) :
    AgreeWhere P sources (WsdlCatalog.put l octets sources) := by
  intro m hm
  have other : m ≠ l := fun e => hl (e ▸ hm)
  rw [lookup_put_of_ne other]

theorem AgreeWhere.symm (h : AgreeWhere P sources sources') : AgreeWhere P sources' sources :=
  fun l hl => (h l hl).symm

theorem AgreeWhere.trans {sources'' : Sources} (h : AgreeWhere P sources sources')
    (h' : AgreeWhere P sources' sources'') : AgreeWhere P sources sources'' :=
  fun l hl => (h l hl).trans (h' l hl)

theorem rowsOf_alike {entries entries' : List (String × List UInt8)}
    (alike : AlikeWhere P entries entries') :
    ∀ {rows : Sources}, rowsOf entries = .ok rows → ∃ rows', rowsOf entries' = .ok rows' ∧
      ∀ {acc acc' : Sources}, AgreeWhere P acc acc' →
        AgreeWhere P (rows.foldl (fun acc y => WsdlCatalog.put y.1 y.2 acc) acc)
          (rows'.foldl (fun acc y => WsdlCatalog.put y.1 y.2 acc) acc') := by
  induction alike with
  | nil =>
    intro rows h
    cases h
    exact ⟨[], rfl, id⟩
  | both x _ ih =>
    intro rows h
    obtain ⟨l, rest, hx, hr, rfl⟩ := exists_normal h
    obtain ⟨rest', hr', agree⟩ := ih hr
    refine ⟨(l, x.2) :: rest', by rw [rowsOf_cons hx, hr']; rfl, ?_⟩
    intro acc acc' ha
    exact agree (ha.put l x.2)
  | @removed x l _ _ hx hl _ ih =>
    intro rows h
    obtain ⟨m, rest, hm, hr, rfl⟩ := exists_normal h
    rw [hx] at hm
    cases hm
    obtain ⟨rest', hr', agree⟩ := ih hr
    refine ⟨rest', hr', ?_⟩
    intro acc acc' ha
    exact agree ((agreeWhere_put hl x.2 acc).symm.trans ha)
  | @added y l _ _ hy hl _ ih =>
    intro rows h
    obtain ⟨rest', hr', agree⟩ := ih h
    refine ⟨(l, y.2) :: rest', by rw [rowsOf_cons hy, hr']; rfl, ?_⟩
    intro acc acc' ha
    exact agree (ha.trans (agreeWhere_put hl y.2 acc'))

theorem ofEntries_alike {entries entries' : List (String × List UInt8)}
    (alike : AlikeWhere P entries entries') (h : ofEntries entries = .ok sources) :
    ∃ sources', ofEntries entries' = .ok sources' ∧ AgreeWhere P sources sources' := by
  rw [ofEntries_eq] at h
  cases hr : rowsOf entries with
  | error e => rw [hr] at h; cases h
  | ok rows =>
    rw [hr] at h
    cases h
    obtain ⟨rows', hr', agree⟩ := rowsOf_alike alike hr
    exact ⟨putAll rows', by rw [ofEntries_eq, hr']; rfl, agree fun _ _ => rfl⟩

end Sources

/-! ## The entry -/

namespace SchemaSet

def numbered (entry : String) (index : Nat) (schemas : List Xml.Node) : List (String × Xml.Node) :=
  (schemas.zipIdx index).map fun x => (entry ++ "#schema" ++ toString x.2, x.1)

/-- The schemas that the root of an entry holds, if it is one. -/
def heldBy (entry : String) (root : Xml.Node) : Option (List (String × Xml.Node)) :=
  if root.isA Vocabulary.wsdl "definitions" then
    some (numbered entry 0 (match root.child? Vocabulary.wsdl "types" with
      | some types => types.childrenOf Vocabulary.xsd "schema"
      | none => []))
  else if root.isA Vocabulary.xsd "schema" then some [(entry, root)]
  else none

structure Opens (location : String) (entries : List (String × List UInt8)) (sources : Sources)
    (entry : String) (root : Xml.Node) (held : List (String × Xml.Node)) : Prop where
  supplies : Sources.ofEntries entries = .ok sources
  locates : Location.normalize location = .ok entry
  reads : sources.read entry none = .ok root
  holds : heldBy entry root = some held

/-- The set consists of the schemas that the entry holds and of one at each other location within
reach, in the order of a depth-first search. -/
structure Assembled (sources : Sources) (entry : String) (root : Xml.Node)
    (held : List (String × Xml.Node)) (set : SchemaSet) : Prop where
  location : set.location = entry
  definitions : set.definitions = if root.isA Vocabulary.wsdl "definitions" then some root else none
  documents : ∃ order, DepthFirst sources entry held order [] ∧ next? entry order = none ∧
    set.documents.map (fun d => (d.location, d.root)) =
      order.map (fun s => (s.location, s.schema)) ∧
    order.filterMap Station.held? = held ∧
    (order.filterMap Station.found?).Nodup ∧
    ∀ l, l ∈ order.filterMap Station.found? ↔ Reachable sources entry held l ∧ l ≠ entry

variable {location entry : String} {entries : List (String × List UInt8)} {sources : Sources}
  {root : Xml.Node} {held : List (String × Xml.Node)} {set : SchemaSet}

theorem addInline_eq (sources : Sources) (entry : String) (schemas : List Xml.Node) :
    ∀ (index : Nat) (assembly : Assembly),
      Assembly.addInline sources entry assembly index schemas =
        Assembly.addHeld sources entry assembly (numbered entry index schemas) := by
  induction schemas with
  | nil => exact fun _ _ => rfl
  | cons schema rest ih =>
    intro index assembly
    rw [Assembly.addInline, numbered, List.zipIdx_cons, List.map_cons, Assembly.addHeld,
      List.foldlM_cons]
    refine congrArg _ (funext fun between => ?_)
    exact ih (index + 1) between

/-- An assembly takes the schemas that the entry holds, one after another. -/
theorem Opens.assemble_eq (h : Opens location entries sources entry root held) :
    assemble location entries =
      (Assembly.addHeld sources entry ⟨[entry], []⟩ held).map fun assembly =>
        ⟨entry, assembly.documents,
          if root.isA Vocabulary.wsdl "definitions" then some root else none⟩ := by
  unfold assemble
  rw [h.supplies, h.locates]
  show (sources.read entry none >>= _) = _
  rw [h.reads]
  show ite _ _ _ = _
  have hh := h.holds
  unfold heldBy at hh
  by_cases definitions : root.isA Vocabulary.wsdl "definitions" = true
  · rw [if_pos definitions] at hh
    cases hh
    rw [if_pos definitions, ← addInline_eq]
    show (Assembly.addInline _ _ _ _ _ >>= _) = _
    simp only [if_pos definitions]
    cases Assembly.addInline sources entry ⟨[entry], []⟩ 0 _ <;> rfl
  · rw [if_neg definitions] at hh ⊢
    by_cases schema : root.isA Vocabulary.xsd "schema" = true
    · rw [if_pos schema] at hh
      cases hh
      rw [if_pos schema]
      simp only [if_neg definitions]
      show (Assembly.add _ _ _ _ _ _ _ >>= _) = Except.map _ (Assembly.add _ _ _ _ _ _ _ >>= _)
      cases Assembly.add sources (sources.length + 1) ⟨[entry], []⟩ root entry entry none <;> rfl
    · rw [if_neg schema] at hh
      cases hh

theorem exists_opens (h : assemble location entries = .ok set) :
    ∃ sources entry root held, Opens location entries sources entry root held := by
  unfold assemble at h
  obtain ⟨sources, hs, h⟩ := ok_bind.mp h
  obtain ⟨entry, he, h⟩ := ok_bind.mp h
  obtain ⟨root, hr, h⟩ := ok_bind.mp h
  have held : ∃ held, heldBy entry root = some held := by
    unfold heldBy
    split
    · exact ⟨_, rfl⟩
    · rename_i definitions
      rw [if_neg definitions] at h
      split
      · exact ⟨_, rfl⟩
      · rename_i schema
        rw [if_neg schema] at h
        cases h
  obtain ⟨held, hh⟩ := held
  exact ⟨sources, entry, root, held, Compile.mapError_eq_ok.mp hs, Compile.mapError_eq_ok.mp he,
    hr, hh⟩

/-- If there is a schema at the entry, it is all that the entry holds. -/
theorem Opens.held_eq (h : Opens location entries sources entry root held) {schema : Xml.Node}
    (hs : sources.schemaAt entry = some schema) : held = [(entry, schema)] := by
  obtain ⟨hr, isSchema⟩ := Sources.schemaAt_eq_some.mp hs
  rw [h.reads] at hr
  cases hr
  have hh := h.holds
  unfold heldBy at hh
  split at hh
  · rename_i definitions
    simp only [Xml.Node.isA, Bool.and_eq_true, beq_iff_eq] at definitions isSchema
    exact absurd (definitions.1.symm.trans isSchema.1) (by decide)
  · cases hh
    rfl

theorem Opens.mem_held (h : Opens location entries sources entry root held) (schema : Xml.Node)
    (hs : sources.schemaAt entry = some schema) : ∃ name, (name, schema) ∈ held :=
  ⟨entry, h.held_eq hs ▸ List.mem_singleton_self _⟩

/-- The assembly before anything is followed. -/
theorem lists_start (entry : String) : Assembly.Lists entry ⟨[entry], []⟩ [] := ⟨rfl, rfl⟩

/-- What an assembly that succeeds has met, in a search that came to its end. -/
theorem Opens.search (h : Opens location entries sources entry root held)
    (ha : assemble location entries = .ok set) :
    ∃ order, DepthFirst sources entry held order [] ∧
      (∀ s ∈ order, s.Settled entry (known entry order)) ∧
      set = ⟨entry, (named entry order).map Visit.document,
        if root.isA Vocabulary.wsdl "definitions" then some root else none⟩ := by
  rw [h.assemble_eq] at ha
  cases hx : Assembly.addHeld sources entry ⟨[entry], []⟩ held with
  | error e => rw [hx] at ha; cases ha
  | ok assembly =>
    rw [hx] at ha
    cases ha
    obtain ⟨order, search, lists, settled⟩ :=
      Assembly.addHeld_explores held .start (lists_start entry) nofun hx
    exact ⟨order, search, settled, congrArg (SchemaSet.mk entry · _) lists.named⟩

theorem Opens.assembled (h : Opens location entries sources entry root held)
    (ha : assemble location entries = .ok set) :
    AllSupplied sources entry held ∧ Assembled sources entry root held set := by
  obtain ⟨order, search, settled, rfl⟩ := h.search ha
  have ended := next?_eq_none settled
  have found := search.mem_found_iff ended h.mem_held
  have all : order.filterMap Station.held? = held := by
    have := search.held_append
    rwa [List.append_nil] at this
  refine ⟨⟨?_, ?_⟩, rfl, rfl, order, search, ended, named_documents entry order, all,
    (List.nodup_cons.mp search.nodup).2, found⟩
  · intro l hl hne
    obtain ⟨schema, hs⟩ := Station.mem_found.mp ((found l).mpr ⟨hl, hne⟩)
    exact ⟨schema, (search.met.1 _ hs).2⟩
  · intro s hs written hw
    have met : ∃ s' ∈ order, s'.schema = s.schema ∧ s'.base entry = s.base entry := by
      cases s with
      | held name schema => exact ⟨_, search.mem_held hs, rfl, rfl⟩
      | found l schema =>
        by_cases e : l = entry
        · obtain ⟨name, hh⟩ := h.mem_held schema (e ▸ hs.2)
          exact ⟨_, search.mem_held hh, rfl, e.symm⟩
        · obtain ⟨other, hs'⟩ := Station.mem_found.mp ((found l).mpr ⟨hs.1, e⟩)
          exact ⟨_, hs', Option.some.inj ((search.met.1 _ hs').2.symm.trans hs.2), rfl⟩
    obtain ⟨s', hs', same, base⟩ := met
    obtain ⟨l, -, hl⟩ := settled s' hs' written (same ▸ hw)
    exact ⟨l, base ▸ hl⟩

theorem Opens.succeeds (h : Opens location entries sources entry root held)
    (supplied : AllSupplied sources entry held) : ∃ set, assemble location entries = .ok set := by
  obtain ⟨assembly, ha⟩ := Assembly.addHeld_succeeds supplied held ⟨[entry], []⟩ (List.Subset.refl _)
    List.mem_cons_self
  exact ⟨_, by rw [h.assemble_eq, ha]; rfl⟩

theorem Opens.assemble_alike (h : Opens location entries sources entry root held)
    {entries' : List (String × List UInt8)}
    (alike : AlikeWhere (fun l => l = entry ∨ Reachable sources entry held l) entries entries') :
    assemble location entries' = assemble location entries := by
  obtain ⟨sources', hs, agree⟩ := Sources.ofEntries_alike alike h.supplies
  have read : sources'.read entry none = .ok root :=
    (Sources.read_congr (agree entry (.inl rfl)) none).symm.trans h.reads
  have opens : Opens location entries' sources' entry root held := ⟨hs, h.locates, read, h.holds⟩
  rw [opens.assemble_eq, h.assemble_eq,
    Assembly.addHeld_congr (fun l hl => agree l (.inr hl)) held _ (List.Subset.refl _)]

/-- Assembly is the closure of the entry under references: it succeeds if and only if the entry
can be opened and all that is within reach is supplied; then it holds just that, in depth-first
order; and other entries do not matter. -/
theorem assemble_closure (location : String) (entries : List (String × List UInt8)) :
    ((∃ set, assemble location entries = .ok set) ↔
      ∃ sources entry root held, Opens location entries sources entry root held ∧
        AllSupplied sources entry held) ∧
    ∀ sources entry root held, Opens location entries sources entry root held →
      (∀ set, assemble location entries = .ok set → Assembled sources entry root held set) ∧
      ∀ entries',
        AlikeWhere (fun l => l = entry ∨ Reachable sources entry held l) entries entries' →
          assemble location entries' = assemble location entries := by
  refine ⟨⟨?_, ?_⟩, ?_⟩
  · intro given
    obtain ⟨set, h⟩ := given
    obtain ⟨sources, entry, root, held, opens⟩ := exists_opens h
    exact ⟨sources, entry, root, held, opens, (opens.assembled h).1⟩
  · intro given
    obtain ⟨sources, entry, root, held, opens, supplied⟩ := given
    exact opens.succeeds supplied
  · intro sources entry root held opens
    exact ⟨fun set h => (opens.assembled h).2, fun entries' alike => opens.assemble_alike alike⟩

/-! ## Two schemas that include each other -/

def octetsOf (text : String) : List UInt8 := text.toList.map fun c => c.toNat.toUInt8

def including (other : String) : List UInt8 :=
  octetsOf ("<schema xmlns='http://www.w3.org/2001/XMLSchema'><include schemaLocation='" ++ other
    ++ "'/></schema>")

def circle : List (String × List UInt8) := [("a", including "b"), ("b", including "a")]

theorem circle_assembles : ((assemble "a" circle).toOption.map fun set =>
    set.documents.map (·.location)) = some ["a", "b"] := by
  decide +kernel

/-- The circle is gone round once, and a third text is not looked at. -/
theorem circle_closed : ∃ set, assemble "a" circle = .ok set ∧
    set.documents.map (·.location) = ["a", "b"] ∧
    ∃ sources root held, Assembled sources "a" root held set ∧
      ¬ Reachable sources "a" held "c" ∧
      assemble "a" (circle ++ [("c", [])]) = .ok set := by
  cases h : assemble "a" circle with
  | error e =>
    have assembles := circle_assembles
    rw [h] at assembles
    cases assembles
  | ok set =>
    have locations : set.documents.map (·.location) = ["a", "b"] := by
      have assembles := circle_assembles
      rw [h] at assembles
      exact Option.some.inj assembles
    have closure := assemble_closure "a" circle
    obtain ⟨sources, entry, root, held, opens, -⟩ := closure.1.mp ⟨set, h⟩
    obtain rfl : "a" = entry := by
      have locates := opens.locates
      rw [show Location.normalize "a" = .ok "a" from rfl] at locates
      exact Except.ok.inj locates
    have assembled := (closure.2 sources "a" root held opens).1 set h
    have unreached : ¬ Reachable sources "a" held "c" := by
      intro hc
      obtain ⟨order, -, -, documents, -, -, found⟩ := assembled.documents
      obtain ⟨s, hs, hsl⟩ := List.mem_filterMap.mp ((found "c").mpr ⟨hc, by decide⟩)
      have met : ("c", s.schema) ∈ set.documents.map fun d => (d.location, d.root) := by
        rw [documents]
        cases s with
        | held name schema => cases hsl
        | found l schema => cases hsl; exact List.mem_map_of_mem hs
      have listed : "c" ∈ set.documents.map (·.location) := by
        obtain ⟨d, hd, e⟩ := List.mem_map.mp met
        exact List.mem_map.mpr ⟨d, hd, congrArg Prod.fst e⟩
      rw [locations] at listed
      exact absurd listed (by decide)
    have alike : AlikeWhere (fun l => l = "a" ∨ Reachable sources "a" held l) circle
        (circle ++ [("c", [])]) :=
      .both _ (.both _ (.added (show Location.normalize "c" = .ok "c" from rfl)
        (fun hc => hc.elim (by decide) unreached) .nil))
    exact ⟨set, rfl, locations, sources, root, held, assembled, unreached,
      ((closure.2 sources "a" root held opens).2 _ alike).trans h⟩

end SchemaSet

end WsdlCatalog
