/-
  WsdlCatalog.Proofs.Operations — the operations of a service.

  Bindings belong to the port types that their references mean (`Interface.described`), and
  a port type with a SOAP binding is one of those whose operations count. Of operations with
  one name the first counts (`firsts`).

  Proved: a compilation makes one operation of each that counts, from its port type and the
  bindings of that port type (`runs_interface`), and these are the operations of the catalog
  (`Staged.operations_eq`).
-/

import WsdlCatalog.Proofs.Origin

namespace WsdlCatalog

structure PortOperation where
  portType : QName × Xml.Node
  name : String
  node : Xml.Node

/-- The operations of which none before has the name. -/
def firsts : List PortOperation → List PortOperation
  | [] => []
  | p :: rest => p :: (firsts rest).filter (·.name != p.name)

theorem mem_firsts_iff {p : PortOperation} {all : List PortOperation} :
    p ∈ firsts all ↔
      ∃ before after, all = before ++ p :: after ∧ ∀ other ∈ before, other.name ≠ p.name := by
  induction all with
  | nil => simp [firsts]
  | cons first rest ih =>
    rw [firsts, List.mem_cons, List.mem_filter, ih, bne_iff_ne]
    constructor
    · intro h
      rcases h with rfl | ⟨⟨before, after, rfl, others⟩, different⟩
      · exact ⟨[], rest, rfl, nofun⟩
      · exact ⟨first :: before, after, rfl, List.forall_mem_cons.mpr ⟨different.symm, others⟩⟩
    · intro given
      rcases given with ⟨before, after, split, others⟩
      cases before with
      | nil => exact .inl (List.cons.inj split).1.symm
      | cons _ before =>
        obtain ⟨rfl, rest⟩ := List.cons.inj split
        obtain ⟨different, others⟩ := List.forall_mem_cons.mp others
        exact .inr ⟨⟨before, after, rest, others⟩, different.symm⟩

theorem firsts_subset (all : List PortOperation) : firsts all ⊆ all := by
  intro p hp
  obtain ⟨before, after, rfl, -⟩ := mem_firsts_iff.mp hp
  exact List.mem_append_right _ List.mem_cons_self

/-- Every name is that of the first operation with it. -/
theorem names_firsts {all : List PortOperation} {name : String} :
    name ∈ (firsts all).map (·.name) ↔ name ∈ all.map (·.name) := by
  refine ⟨fun h => (List.map_subset _ (firsts_subset all)) h, fun h => ?_⟩
  induction all with
  | nil => exact h
  | cons first rest ih =>
    rw [firsts, List.map_cons, List.mem_cons]
    by_cases same : name = first.name
    · exact .inl same
    · obtain ⟨p, hp, rfl⟩ := List.mem_map.mp (ih ((List.mem_cons.mp h).resolve_left same))
      exact .inr (List.mem_map.mpr ⟨p, List.mem_filter.mpr ⟨hp, bne_iff_ne.mpr same⟩, rfl⟩)

theorem nodup_firsts (all : List PortOperation) : ((firsts all).map (·.name)).Nodup := by
  induction all with
  | nil => exact List.nodup_nil
  | cons first rest ih =>
    refine List.nodup_cons.mpr ⟨fun h => ?_, ih.sublist (List.filter_sublist.map _)⟩
    obtain ⟨p, hp, same⟩ := List.mem_map.mp h
    exact bne_iff_ne.mp (List.mem_filter.mp hp).2 same

theorem firsts_concat_of_not_mem {all : List PortOperation} {p : PortOperation}
    (h : p.name ∉ all.map (·.name)) : firsts (all ++ [p]) = firsts all ++ [p] := by
  induction all with
  | nil => rfl
  | cons first rest ih =>
    obtain ⟨different, others⟩ := not_or.mp (mt List.mem_cons.mpr h)
    have kept : [p].filter (·.name != first.name) = [p] :=
      List.filter_cons_of_pos (bne_iff_ne.mpr different)
    rw [List.cons_append, firsts, firsts, ih others, List.filter_append, kept, List.cons_append]

/-- One more operation under a name that is taken does not count. -/
theorem firsts_concat_of_mem {all : List PortOperation} {p : PortOperation}
    (h : p.name ∈ all.map (·.name)) : firsts (all ++ [p]) = firsts all := by
  induction all with
  | nil => exact absurd h List.not_mem_nil
  | cons first rest ih =>
    rw [List.cons_append, firsts, firsts]
    by_cases known : p.name ∈ rest.map (·.name)
    · rw [ih known]
    · have same : p.name = first.name := (List.mem_cons.mp h).resolve_right known
      rw [firsts_concat_of_not_mem known, List.filter_append,
        List.filter_cons_of_neg (by simp [same]), List.filter_nil, List.append_nil]

namespace Interface

/-- An operation of a port type, if it has a name. -/
def operation? (portType : QName × Xml.Node) (node : Xml.Node) : Option PortOperation :=
  (node.filled? "name").map (⟨portType, ·, node⟩)

def operationsOf (portTypes : List (QName × Xml.Node)) : List PortOperation :=
  portTypes.flatMap fun portType =>
    (portType.2.childrenOf Vocabulary.wsdl "operation").filterMap (operation? portType)

def offered (interface : Interface) : List PortOperation := operationsOf interface.portTypes

def boundType? (interface : Interface) (binding : Xml.Node) : Option QName :=
  (binding.filled? "type").bind fun reference =>
    (Reference.meaning reference (interface.site binding)).toOption

def described (location : String) (definitions : Xml.Node) : Interface :=
  let bare := ofDescription location definitions
  { bare with
    bindings := (definitions.childrenOf Vocabulary.wsdl "binding").filterMap fun binding =>
      (bare.boundType? binding).map (·, binding) }

/-- A port type with a SOAP binding counts. -/
theorem mem_portTypes {interface : Interface} {portType : QName × Xml.Node} {binding : Xml.Node}
    (declared : portType ∈ interface.allPortTypes) (bound : binding ∈ interface.bindingsOf portType.1)
    (soap : isSoapBinding binding = true) : portType ∈ interface.portTypes := by
  unfold portTypes
  dsimp only
  split
  · exact declared
  · exact List.mem_filter.mpr ⟨declared, List.any_eq_true.mpr ⟨binding, bound, soap⟩⟩

theorem mem_operationsOf {portTypes : List (QName × Xml.Node)} {p : PortOperation} :
    p ∈ operationsOf portTypes ↔ p.portType ∈ portTypes ∧
      p.node ∈ p.portType.2.childrenOf Vocabulary.wsdl "operation" ∧
      p.node.filled? "name" = some p.name := by
  unfold operationsOf operation?
  simp only [List.mem_flatMap, List.mem_filterMap, Option.map_eq_some_iff]
  constructor
  · intro given
    rcases given with ⟨portType, hp, node, hn, name, hname, rfl⟩
    exact ⟨hp, hn, hname⟩
  · intro h
    exact ⟨p.portType, h.1, p.node, h.2.1, p.name, h.2.2, rfl⟩

end Interface

namespace Compile

variable {S : Setting} {p q : Progress}

theorem runs_qualify {reference : String} {site : Site} {referencedBy : Option String}
    {name : Option QName} (h : Runs (qualify S reference site referencedBy) p name q) :
    name = (Reference.meaning reference site).toOption := by
  unfold qualify Reference.qualify at h
  cases hm : Reference.meaning reference site with
  | error pfx =>
    rw [hm] at h
    obtain ⟨_, _, -, h⟩ := runs_bind.mp h
    exact (runs_pure.mp h).1
  | ok name =>
    rw [hm] at h
    exact (runs_pure.mp h).1

theorem runs_filterMapM {α β : Type} {f : α → Compile (Option β)} {g : α → Option β}
    (step : ∀ {a p b q}, Runs (f a) p b q → b = g a) {items : List α} {found : List β}
    (h : Runs (items.filterMapM f) p found q) : found = items.filterMap g := by
  induction items generalizing p q found with
  | nil => exact (runs_pure.mp h).1
  | cons a rest ih =>
    rw [List.filterMapM_cons] at h
    obtain ⟨b, r, ha, h⟩ := runs_bind.mp h
    obtain rfl := step ha
    cases hg : g a with
    | none =>
      rw [hg] at h
      rw [List.filterMap_cons_none hg]
      exact ih h
    | some b =>
      rw [hg] at h
      obtain ⟨others, s, ho, h⟩ := runs_bind.mp h
      rw [List.filterMap_cons_some hg, (runs_pure.mp h).1, ih ho]

theorem runs_addBindings {location : String} {definitions : Xml.Node} {interface : Interface}
    (h : Runs (addBindings S (.ofDescription location definitions)) p interface q) :
    interface = .described location definitions := by
  unfold addBindings at h
  obtain ⟨bindings, r, found, h⟩ := runs_bind.mp h
  have bound : bindings = (definitions.childrenOf Vocabulary.wsdl "binding").filterMap fun binding =>
      ((Interface.ofDescription location definitions).boundType? binding).map (·, binding) := by
    refine runs_filterMapM ?_ found
    intro binding p result q run
    dsimp only [Interface.boundType?]
    cases hf : binding.filled? "type" with
    | none =>
      rw [hf] at run
      exact (runs_pure.mp run).1
    | some reference =>
      rw [hf] at run
      obtain ⟨name, r, hq, run⟩ := runs_bind.mp run
      rw [(runs_pure.mp run).1, runs_qualify hq, Option.bind_some]
  rw [(runs_pure.mp h).1, bound]
  unfold Interface.described
  dsimp only

structure MadeOf (S : Setting) (interface : Interface) (p : PortOperation)
    (entry : String × Operation) : Prop where
  name : entry.1 = p.name
  run : ∃ before after, Runs (operationOf S interface p.portType.1 p.name p.node) before entry.2 after

variable {interface : Interface}

theorem names_of_madeOf {counted : List PortOperation} {operations : List (String × Operation)}
    (h : List.Forall₂ (MadeOf S interface) counted operations) :
    operations.map Prod.fst = counted.map (·.name) := by
  induction h with
  | nil => rfl
  | cons made _ ih => rw [List.map_cons, List.map_cons, made.name, ih]

/-- What becomes of a child of a port type, where `done` are the operations before it. -/
inductive Added (S : Setting) (interface : Interface) (portType : QName × Xml.Node) (node : Xml.Node)
    (done : List PortOperation) (operations : List (String × Operation)) (p q : Progress) :
    List (String × Operation) → Prop
  | unnamed (none : Interface.operation? portType node = none) (same : q = p) :
      Added S interface portType node done operations p q operations
  | repeated {name : String}
      (one : Interface.operation? portType node = some ⟨portType, name, node⟩)
      (taken : name ∈ done.map (·.name))
      (told : q = { p with
        diagnostics := p.diagnostics ++ [duplicateOperation interface name portType.2] }) :
      Added S interface portType node done operations p q operations
  | first {name : String} {operation : Operation}
      (one : Interface.operation? portType node = some ⟨portType, name, node⟩)
      (new : name ∉ done.map (·.name))
      (run : Runs (operationOf S interface portType.1 name node) p operation q) :
      Added S interface portType node done operations p q (operations ++ [(name, operation)])

theorem added_of_runs {portType : QName × Xml.Node} {node : Xml.Node} {done : List PortOperation}
    {operations all : List (String × Operation)}
    (names : operations.map Prod.fst = (firsts done).map (·.name))
    (h : Runs (addOperation S interface portType operations node) p all q) :
    Added S interface portType node done operations p q all := by
  unfold addOperation at h
  split at h
  · rename_i unnamed
    obtain ⟨rfl, rfl⟩ := runs_pure.mp h
    exact .unnamed (by rw [Interface.operation?, unnamed]; rfl) rfl
  · rename_i name named
    have one : Interface.operation? portType node = some ⟨portType, name, node⟩ := by
      rw [Interface.operation?, named]
      rfl
    have known : (operations.lookup name).isSome = true ↔ name ∈ done.map (·.name) := by
      rw [← names_firsts, ← names, ← not_not (a := name ∈ _), ← lookup_eq_none,
        Option.isSome_iff_ne_none]
    split at h
    · rename_i taken
      obtain ⟨_, r, told, h⟩ := runs_bind.mp h
      obtain ⟨rfl, rfl⟩ := runs_pure.mp h
      exact .repeated one (known.mp taken) (runs_addDiagnostic.mp told)
    · rename_i free
      obtain ⟨operation, r, run, h⟩ := runs_bind.mp h
      obtain ⟨rfl, rfl⟩ := runs_pure.mp h
      exact .first one (mt known.mpr free) run

/-- One more operation of a port type. -/
theorem runs_addOperation {portType : QName × Xml.Node} {node : Xml.Node} {done : List PortOperation}
    {operations all : List (String × Operation)}
    (made : List.Forall₂ (MadeOf S interface) (firsts done) operations)
    (h : Runs (addOperation S interface portType operations node) p all q) :
    List.Forall₂ (MadeOf S interface)
      (firsts (done ++ [node].filterMap (Interface.operation? portType))) all := by
  cases added_of_runs (names_of_madeOf made) h with
  | unnamed none _ =>
    rw [List.filterMap_cons_none none, List.filterMap_nil, List.append_nil]
    exact made
  | repeated one taken _ =>
    rw [List.filterMap_cons_some one, List.filterMap_nil, firsts_concat_of_mem taken]
    exact made
  | first one new run =>
    rw [List.filterMap_cons_some one, List.filterMap_nil, firsts_concat_of_not_mem new]
    exact List.rel_append made (.cons ⟨rfl, p, q, run⟩ .nil)

theorem runs_portTypes {portTypes : List (QName × Xml.Node)} {operations : List (String × Operation)}
    (h : Runs (portTypes.foldlM (fun operations portType =>
      (portType.2.childrenOf Vocabulary.wsdl "operation").foldlM
        (addOperation S interface portType) operations) []) p operations q) :
    List.Forall₂ (MadeOf S interface) (firsts (Interface.operationsOf portTypes)) operations := by
  refine runs_foldlM (I := fun done operations =>
    List.Forall₂ (MadeOf S interface) (firsts (Interface.operationsOf done)) operations) ?_ .nil h
  intro done portType operations all p q made run
  -- The inner loop goes through the operations of one port type.
  have inner := runs_foldlM (I := fun nodes operations => List.Forall₂ (MadeOf S interface)
    (firsts (Interface.operationsOf done ++ nodes.filterMap (Interface.operation? portType)))
    operations)
    (fun nodes node operations all p q made run => ?_) (by simpa using made) run
  · unfold Interface.operationsOf at inner ⊢
    rw [List.flatMap_append, List.flatMap_singleton]
    exact inner
  · have more := runs_addOperation made run
    rwa [List.append_assoc, ← List.filterMap_append] at more

/-- The operations of a service description are those that count. -/
theorem runs_interface {set : SchemaSet} {definitions : Xml.Node} {operations : List Operation}
    {serviceName : Option String} (hd : set.definitions = some definitions)
    (h : Runs (Compile.interface S set) p (operations, serviceName) q) :
    ∃ entries, List.Forall₂ (MadeOf S (.described set.location definitions))
        (firsts (Interface.described set.location definitions).offered) entries ∧
      operations = Inventory.byName entries := by
  unfold Compile.interface at h
  rw [hd] at h
  obtain ⟨interface, r, bound, h⟩ := runs_bind.mp h
  obtain rfl := runs_addBindings bound
  obtain ⟨entries, s, run, h⟩ := runs_bind.mp h
  exact ⟨entries, runs_portTypes run, (Prod.mk.inj (runs_pure.mp h).1).1⟩

theorem Staged.operations_eq {set : SchemaSet} {c : Catalog} {compiled : Progress}
    {types : List (Option String × StructuralType)} {aliases : List ScalarAlias}
    {sorted : List StructuralType} {operations : List Operation} {serviceName : Option String}
    {displayName : Loose String} {definitions : Xml.Node}
    (h : Staged S set p q c compiled types aliases sorted operations serviceName displayName)
    (hd : set.definitions = some definitions) :
    ∃ entries, List.Forall₂ (MadeOf S (.described set.location definitions))
        (firsts (Interface.described set.location definitions).offered) entries ∧
      c.operations = Inventory.byName entries := by
  rw [h.catalog]
  exact runs_interface hd h.interface

end Compile

end WsdlCatalog
