/-
  WsdlCatalog.Proofs.OperationNames — one operation for each name, one report for each other.

  A service offers what the port types with a SOAP binding declare, or all port types if none
  has one (`Interface.selected`). The first operation of a name becomes an operation of the
  catalog; every later one of that name (`repeats`) is reported. All other reports on the way
  are about references that mean nothing, so the duplicates can be told by their kind.

  Proved: the names of the operations increase and are exactly the names that are declared,
  each operation is made of the first declaration of its name and of the bindings of that
  declaration's port type, and the reports of duplicates are those of the other declarations,
  in document order (`Compile.interface_accountsFor`). Hence no declaration is lost: there are as
  many as operations and reports of duplicates together.
-/

import WsdlCatalog.Proofs.Keeping
import WsdlCatalog.Proofs.Lockstep.Interface
import WsdlCatalog.Proofs.Lockstep.Sharing
import WsdlCatalog.Proofs.SoapCalls
import WsdlCatalog.Proofs.Sorting

namespace WsdlCatalog

/-! ## Names that were taken -/

/-- The operations whose name one before them has, where `taken` are the names so far. -/
def repeatsAfter (taken : List String) : List PortOperation → List PortOperation
  | [] => []
  | p :: rest =>
    if p.name ∈ taken then p :: repeatsAfter taken rest else repeatsAfter (p.name :: taken) rest

/-- The operations of which one before has the name. -/
def repeats (all : List PortOperation) : List PortOperation := repeatsAfter [] all

theorem repeatsAfter_concat (p : PortOperation) (all : List PortOperation) (taken : List String) :
    repeatsAfter taken (all ++ [p]) = repeatsAfter taken all ++
      if p.name ∈ taken ∨ p.name ∈ all.map (·.name) then [p] else [] := by
  induction all generalizing taken with
  | nil => simp [repeatsAfter]
  | cons first rest ih =>
    rw [List.cons_append, repeatsAfter, repeatsAfter, ih, ih]
    have told : (p.name ∈ first.name :: taken ∨ p.name ∈ rest.map (·.name)) ↔
        (p.name ∈ taken ∨ p.name ∈ (first :: rest).map (·.name)) := by
      simp only [List.mem_cons, List.map_cons]
      tauto
    split
    · rename_i known
      have same : (p.name ∈ taken ∨ p.name ∈ rest.map (·.name)) ↔
          (p.name ∈ taken ∨ p.name ∈ (first :: rest).map (·.name)) := by
        rw [← told, List.mem_cons]
        refine or_congr_left ⟨.inr, ?_⟩
        rintro (h | h)
        · exact h ▸ known
        · exact h
      rw [if_congr same rfl rfl, List.cons_append]
    · rw [if_congr told rfl rfl]

theorem repeats_concat_of_mem {all : List PortOperation} {p : PortOperation}
    (h : p.name ∈ all.map (·.name)) : repeats (all ++ [p]) = repeats all ++ [p] := by
  rw [repeats, repeatsAfter_concat, if_pos (.inr h), repeats]

theorem repeats_concat_of_not_mem {all : List PortOperation} {p : PortOperation}
    (h : p.name ∉ all.map (·.name)) : repeats (all ++ [p]) = repeats all := by
  rw [repeats, repeatsAfter_concat, if_neg (by simpa using h), List.append_nil, repeats]

/-- Every operation is the first of its name or repeats it. -/
theorem firsts_append_repeats_perm (all : List PortOperation) :
    (firsts all ++ repeats all).Perm all := by
  induction all using List.reverseRecOn with
  | nil => exact .nil
  | append_singleton all p ih =>
    by_cases known : p.name ∈ all.map (·.name)
    · rw [firsts_concat_of_mem known, repeats_concat_of_mem known, ← List.append_assoc]
      exact ih.append_right [p]
    · rw [firsts_concat_of_not_mem known, repeats_concat_of_not_mem known, List.append_assoc]
      exact (List.perm_append_comm.append_left _).trans
        ((List.append_assoc _ _ _).symm ▸ ih.append_right [p])

/-! ## Port types that count -/

namespace Interface

def soapBound (interface : Interface) (portType : QName × Xml.Node) : Bool :=
  (interface.bindingsOf portType.1).any isSoapBinding

/-- The port types with a SOAP binding, in document order; all if none has one. -/
def selected (interface : Interface) : List (QName × Xml.Node) :=
  interface.allPortTypes.filter fun portType =>
    interface.soapBound portType || !interface.allPortTypes.any interface.soapBound

theorem portTypes_eq_selected (interface : Interface) : interface.portTypes = interface.selected := by
  have bound : interface.portTypes =
      if (interface.allPortTypes.filter interface.soapBound).isEmpty then interface.allPortTypes
      else interface.allPortTypes.filter interface.soapBound := rfl
  unfold selected
  cases heard : interface.allPortTypes.any interface.soapBound with
  | false =>
    have none : interface.allPortTypes.filter interface.soapBound = [] :=
      List.filter_eq_nil_iff.mpr (List.any_eq_false.mp heard)
    rw [bound, none]
    simp
  | true =>
    have some : (interface.allPortTypes.filter interface.soapBound).isEmpty = false := by
      obtain ⟨portType, declared, soap⟩ := List.any_eq_true.mp heard
      exact List.isEmpty_eq_false_iff_exists_mem.mpr
        ⟨portType, List.mem_filter.mpr ⟨declared, soap⟩⟩
    rw [bound, some]
    simp

theorem mem_names_operationsOf {portTypes : List (QName × Xml.Node)} {name : String} :
    name ∈ (operationsOf portTypes).map (·.name) ↔ name ≠ "" ∧
      ∃ portType ∈ portTypes, ∃ node ∈ portType.2.childrenOf Vocabulary.wsdl "operation",
        node.attribute? "name" = some name := by
  have filled : ∀ node : Xml.Node, node.filled? "name" = some name ↔
      node.attribute? "name" = some name ∧ name ≠ "" := fun node => by
    rw [Xml.Node.filled?, Option.filter_eq_some_iff, bne_iff_ne]
  rw [List.mem_map]
  constructor
  · rintro ⟨p, hp, rfl⟩
    obtain ⟨declared, child, named⟩ := mem_operationsOf.mp hp
    obtain ⟨named, nonempty⟩ := (filled p.node).mp named
    exact ⟨nonempty, p.portType, declared, p.node, child, named⟩
  · rintro ⟨nonempty, portType, declared, node, child, named⟩
    exact ⟨⟨portType, name, node⟩,
      mem_operationsOf.mpr ⟨declared, child, (filled node).mpr ⟨named, nonempty⟩⟩, rfl⟩

/-- As many operations as children of the port types have names. -/
theorem length_operationsOf (portTypes : List (QName × Xml.Node)) :
    (operationsOf portTypes).length =
      (portTypes.flatMap fun portType => portType.2.childrenOf Vocabulary.wsdl "operation").countP
        fun node => (node.filled? "name").isSome := by
  induction portTypes with
  | nil => rfl
  | cons portType rest ih =>
    have one : ((portType.2.childrenOf Vocabulary.wsdl "operation").filterMap
        (operation? portType)).length =
        (portType.2.childrenOf Vocabulary.wsdl "operation").countP
          fun node => (node.filled? "name").isSome := by
      rw [List.length_filterMap_eq_countP]
      exact List.countP_congr fun node _ => by simp [operation?]
    unfold operationsOf at ih ⊢
    rw [List.flatMap_cons, List.flatMap_cons, List.length_append, List.countP_append, ih, one]

/-- The bindings of a port type in a service description are those that say so. -/
theorem mem_bindingsOf_described {location : String} {definitions binding : Xml.Node}
    {portType : QName} : binding ∈ (described location definitions).bindingsOf portType ↔
      binding ∈ definitions.childrenOf Vocabulary.wsdl "binding" ∧
        (described location definitions).boundType? binding = some portType := by
  have same : ∀ binding, (ofDescription location definitions).boundType? binding =
      (described location definitions).boundType? binding := fun _ => rfl
  unfold bindingsOf
  simp only [List.mem_filterMap, Prod.exists]
  constructor
  · rintro ⟨name, other, listed, found⟩
    obtain ⟨b, hb, named⟩ := List.mem_filterMap.mp (listed : (name, other) ∈ List.filterMap _ _)
    obtain ⟨meant, hm, pair⟩ := Option.map_eq_some_iff.mp named
    obtain ⟨rfl, rfl⟩ := Prod.mk.inj pair
    split at found
    · rename_i this
      obtain rfl := Option.some.inj found
      exact ⟨hb, by rw [← same, hm, eq_of_beq this]⟩
    · cases found
  · rintro ⟨listed, named⟩
    refine ⟨portType, binding, ?_, by simp⟩
    refine List.mem_filterMap.mpr ⟨binding, listed, ?_⟩
    rw [same, named]
    rfl

/-- The description has a SOAP binding that says that it is for the port type. -/
def SoapBound (interface : Interface) (portType : QName) : Prop :=
  ∃ binding ∈ interface.definitions.childrenOf Vocabulary.wsdl "binding",
    interface.boundType? binding = some portType ∧ isSoapBinding binding = true

theorem soapBound_described {location : String} {definitions : Xml.Node}
    {portType : QName × Xml.Node} : (described location definitions).soapBound portType = true ↔
      (described location definitions).SoapBound portType.1 := by
  unfold soapBound SoapBound
  simp only [List.any_eq_true, mem_bindingsOf_described, and_assoc]
  rfl

theorem mem_selected_described {location : String} {definitions : Xml.Node}
    {portType : QName × Xml.Node} : portType ∈ (described location definitions).selected ↔
      portType ∈ (described location definitions).allPortTypes ∧
        ((described location definitions).SoapBound portType.1 ∨
          ∀ other ∈ (described location definitions).allPortTypes,
            ¬ (described location definitions).SoapBound other.1) := by
  simp [selected, ← soapBound_described]

structure BoundBy (interface : Interface) (p : PortOperation) (binding operation : Option Xml.Node) :
    Prop where
  found : interface.bindingFor p.portType.1 p.name = (binding, operation)
  own : ∀ b, binding = some b → b ∈ interface.definitions.childrenOf Vocabulary.wsdl "binding" ∧
    interface.boundType? b = some p.portType.1
  listed : ∀ o, operation = some o → ∃ b, binding = some b ∧ boundOperation? b p.name = some o

theorem boundBy_bindingFor {location : String} {definitions : Xml.Node} (p : PortOperation) :
    (described location definitions).BoundBy p
      ((described location definitions).bindingFor p.portType.1 p.name).1
      ((described location definitions).bindingFor p.portType.1 p.name).2 := by
  rcases firstListed_or_unlisted p.name ((described location definitions).bindingsOf p.portType.1)
    with ⟨binding, operation, first⟩ | unlisted
  · have found := bindingFor_of_firstListed first
    rw [found]
    refine ⟨found, fun b hb => ?_, fun o ho => ?_⟩
    · exact Option.some.inj hb ▸ mem_bindingsOf_described.mp first.mem
    · exact ⟨binding, rfl, Option.some.inj ho ▸ first.listed⟩
  · have found := bindingFor_of_unlisted unlisted
    rw [found]
    exact ⟨found, fun b hb => mem_bindingsOf_described.mp (List.mem_of_mem_head? hb), nofun⟩

end Interface

namespace Compile

variable {S : Setting} {interface : Interface} {p q r : Progress}

/-! ## Reports while references are followed -/

/-- What was reported from one progress to the other is about references that mean nothing. -/
def Unanswering (p q : Progress) : Prop :=
  ∃ reports, q.diagnostics = p.diagnostics ++ reports ∧
    ∀ report ∈ reports, report.kind = Diagnostic.unresolvedKind

theorem Unanswering.of_eq (h : q.diagnostics = p.diagnostics) : Unanswering p q :=
  ⟨[], by rw [h, List.append_nil], nofun⟩

theorem Unanswering.trans (h : Unanswering p q) (h' : Unanswering q r) : Unanswering p r := by
  obtain ⟨first, hf, known⟩ := h
  obtain ⟨more, hm, known'⟩ := h'
  refine ⟨first ++ more, by rw [hm, hf, List.append_assoc], fun report hr => ?_⟩
  exact (List.mem_append.mp hr).elim (known report) (known' report)

/-- A step that reports nothing else, of which some `b` is to the result as `V` says. -/
def OnlyUnanswered {α β : Type} (V : α → β → Prop) (m : Compile α) (_ : Compile β) : Prop :=
  ∀ p a q, Runs m p a q → Unanswering p q ∧ ∃ b, V a b

theorem onlyUnanswered (S : Setting) : Sharing S S OnlyUnanswered where
  alike := .refl S
  declarations := rfl
  pure h p _ q hr := by
    obtain ⟨rfl, rfl⟩ := runs_pure.mp hr
    exact ⟨.of_eq rfl, _, h⟩
  bind h hk p c q hr := by
    obtain ⟨a, r, hm, hr⟩ := runs_bind.mp hr
    obtain ⟨before, b, hv⟩ := h p a r hm
    obtain ⟨after, given⟩ := hk a b hv r c q hr
    exact ⟨before.trans after, given⟩
  throw _ _ _ _ hr := absurd hr runs_throw
  report {fault} hf key p _ q hr := by
    obtain ⟨-, rfl⟩ := runs_report.mp hr
    exact ⟨⟨[fault.diagnostic], rfl, fun report h => List.mem_singleton.mp h ▸ hf⟩, (), trivial⟩
  inventory p i q hr := by
    obtain ⟨rfl, rfl⟩ := runs_inventory.mp hr
    exact ⟨.of_eq rfl, _, rfl, rfl⟩
  addAlias _ p _ q hr := by
    rw [runs_addAlias.mp hr]
    exact ⟨.of_eq rfl, (), trivial⟩

/-! ## Operations of a service -/

def isDuplicate (report : Diagnostic) : Bool := report.kind == "duplicate-operation"

def duplicates (interface : Interface) (all : List PortOperation) : List Diagnostic :=
  (repeats all).map fun p => duplicateOperation interface p.name p.portType.2

/-- Of what was reported from one progress to the other, the duplicates are these. -/
def Duplicating (found : List Diagnostic) (p q : Progress) : Prop :=
  ∃ reports, q.diagnostics = p.diagnostics ++ reports ∧ reports.filter isDuplicate = found

theorem Unanswering.duplicating (h : Unanswering p q) : Duplicating [] p q := by
  obtain ⟨reports, added, known⟩ := h
  refine ⟨reports, added, List.filter_eq_nil_iff.mpr fun report hr => ?_⟩
  rw [isDuplicate, known report hr]
  decide

theorem Duplicating.trans {found more : List Diagnostic} (h : Duplicating found p q)
    (h' : Duplicating more q r) : Duplicating (found ++ more) p r := by
  obtain ⟨first, hf, rfl⟩ := h
  obtain ⟨second, hs, rfl⟩ := h'
  exact ⟨first ++ second, by rw [hs, hf, List.append_assoc], List.filter_append ..⟩

theorem duplicating_addOperation {portType : QName × Xml.Node} {node : Xml.Node}
    {done : List PortOperation} {operations all : List (String × Operation)}
    (names : operations.map Prod.fst = (firsts done).map (·.name))
    (told : Duplicating (duplicates interface done) p q)
    (h : Runs (addOperation S interface portType operations node) q all r) :
    Duplicating (duplicates interface
      (done ++ [node].filterMap (Interface.operation? portType))) p r := by
  cases added_of_runs names h with
  | unnamed none same =>
    rw [List.filterMap_cons_none none, List.filterMap_nil, List.append_nil, same]
    exact told
  | repeated one taken report =>
    rw [List.filterMap_cons_some one, List.filterMap_nil, duplicates, repeats_concat_of_mem taken,
      List.map_append, report]
    exact told.trans ⟨_, rfl, rfl⟩
  | first one new run =>
    have quiet :=
      ((onlyUnanswered S).lockstep.operationOf interface portType.1 _ node q _ r run).1
    rw [List.filterMap_cons_some one, List.filterMap_nil, duplicates, repeats_concat_of_not_mem new,
      ← duplicates, ← List.append_nil (duplicates interface done)]
    exact told.trans quiet.duplicating

/-- The operations of a service and the reports of duplicates, port type by port type. -/
theorem duplicating_portTypes {portTypes : List (QName × Xml.Node)}
    {operations : List (String × Operation)}
    (h : Runs (portTypes.foldlM (fun operations portType =>
      (portType.2.childrenOf Vocabulary.wsdl "operation").foldlM
        (addOperation S interface portType) operations) []) p operations q) :
    Duplicating (duplicates interface (Interface.operationsOf portTypes)) p q := by
  have all := runs_foldlM_done (I := fun done operations q =>
    List.Forall₂ (MadeOf S interface) (firsts (Interface.operationsOf done)) operations ∧
      Duplicating (duplicates interface (Interface.operationsOf done)) p q)
    (fun done portType _ operations more q r _ given run => ?_)
    ⟨.nil, (Unanswering.of_eq rfl).duplicating⟩ h
  · exact all.2
  -- The inner loop goes through the operations of one port type.
  have inner := runs_foldlM_done (I := fun nodes operations q =>
    List.Forall₂ (MadeOf S interface)
      (firsts (Interface.operationsOf done ++ nodes.filterMap (Interface.operation? portType)))
      operations ∧
    Duplicating (duplicates interface
      (Interface.operationsOf done ++ nodes.filterMap (Interface.operation? portType))) p q)
    (fun nodes node _ operations more q r _ given run => ?_) (by simpa using given) run
  · unfold Interface.operationsOf at inner ⊢
    rw [List.flatMap_append, List.flatMap_singleton]
    exact inner
  · rw [List.filterMap_append, ← List.append_assoc]
    exact ⟨runs_addOperation given.1 run,
      duplicating_addOperation (names_of_madeOf given.1) given.2 run⟩

structure Built (S : Setting) (interface : Interface) (p : PortOperation) (o : Operation) : Prop where
  name : o.name = p.name
  documentation : o.documentation = p.node.documentation?
  input : ∃ before after, Runs (payload S interface p.name (p.node.child? Vocabulary.wsdl "input"))
    before (o.inputElement, o.inputType) after
  output : ∃ before after, Runs (payload S interface p.name (p.node.child? Vocabulary.wsdl "output"))
    before (o.outputElement, o.outputType) after
  /-- Action, style and hints come from bindings of the declaration's own port type. -/
  bound : ∃ binding operation, interface.BoundBy p binding operation ∧
    (o.action, o.style) = Interface.actionAndStyle binding operation ∧
    o.securityHints = interface.hints binding operation

theorem MadeOf.built {location : String} {definitions : Xml.Node} {p : PortOperation}
    {entry : String × Operation} (h : MadeOf S (.described location definitions) p entry) :
    Built S (.described location definitions) p entry.2 := by
  obtain ⟨before, after, run⟩ := h.run
  unfold operationOf at run
  obtain ⟨⟨inputElement, inputType⟩, s, input, run⟩ := runs_bind.mp run
  obtain ⟨⟨outputElement, outputType⟩, t, output, run⟩ := runs_bind.mp run
  rw [(runs_pure.mp run).1]
  exact ⟨rfl, rfl, ⟨_, _, input⟩, ⟨_, _, output⟩, _, _, Interface.boundBy_bindingFor p, rfl, rfl⟩

/-- The operations of a service description and the reports that were made for them: one of the
two for each operation that a port type which counts declares. -/
structure AccountsFor (S : Setting) (interface : Interface) (operations : List Operation)
    (reports : List Diagnostic) : Prop where
  /-- Port types with a SOAP binding count, or all of them. -/
  selected : ∀ portType, portType ∈ interface.selected ↔ portType ∈ interface.allPortTypes ∧
    (interface.SoapBound portType.1 ∨ ∀ other ∈ interface.allPortTypes, ¬ interface.SoapBound other.1)
  increasing : (operations.map (·.name)).Pairwise (· < ·)
  names : ∀ name, name ∈ operations.map (·.name) ↔ name ≠ "" ∧
    ∃ portType ∈ interface.selected, ∃ node ∈ portType.2.childrenOf Vocabulary.wsdl "operation",
      node.attribute? "name" = some name
  /-- Every operation is made of the first declaration of its name. -/
  built : ∀ o ∈ operations, ∃ p before after,
    Interface.operationsOf interface.selected = before ++ p :: after ∧
      (∀ other ∈ before, other.name ≠ o.name) ∧ Built S interface p o
  /-- The declarations that repeat names are reported in document order, each with the port type
  that it is in. -/
  reported : reports.filter isDuplicate =
    duplicates interface (Interface.operationsOf interface.selected)
  count : reports.countP isDuplicate + operations.length =
    (interface.selected.flatMap fun portType =>
      portType.2.childrenOf Vocabulary.wsdl "operation").countP
        fun node => (node.filled? "name").isSome

theorem increasing_of_madeOf {counted : List PortOperation} {entries : List (String × Operation)}
    (h : List.Forall₂ (MadeOf S interface) counted entries) (hn : (counted.map (·.name)).Nodup) :
    ((Inventory.byName entries).map (·.name)).Pairwise (· < ·) := by
  have own : ∀ x ∈ entries, x.2.name = x.1 := by
    intro x hx
    obtain ⟨p, -, made⟩ := exists_of_forall₂ h x hx
    exact made.called.1.trans made.name.symm
  have names : (Inventory.byName entries).map (·.name) =
      (entries.mergeSort fun a b => a.1 ≤ b.1).map Prod.fst := by
    rw [Inventory.byName, List.map_map]
    exact List.map_congr_left fun x hx => own x (List.mem_mergeSort.mp hx)
  rw [names]
  exact Inventory.increasing_byName (names_of_madeOf h ▸ hn)

theorem names_byName {counted : List PortOperation} {entries : List (String × Operation)}
    (h : List.Forall₂ (MadeOf S interface) counted entries) (name : String) :
    name ∈ (Inventory.byName entries).map (·.name) ↔ name ∈ counted.map (·.name) := by
  simp only [List.mem_map]
  constructor
  · rintro ⟨o, ho, rfl⟩
    obtain ⟨entry, he, rfl⟩ := List.mem_map.mp ((perm_byName entries).mem_iff.mp ho)
    obtain ⟨p, hp, made⟩ := exists_of_forall₂ h entry he
    exact ⟨p, hp, made.called.1.symm⟩
  · rintro ⟨p, hp, rfl⟩
    obtain ⟨entry, he, made⟩ := exists_of_forall₂ h.flip p hp
    exact ⟨entry.2, (perm_byName entries).mem_iff.mpr (List.mem_map_of_mem he), made.called.1⟩

/-- **Operations and reports of duplicates share the declarations of a service among them**,
whenever its operations can be made. -/
theorem interface_accountsFor {set : SchemaSet} {definitions : Xml.Node} {operations : List Operation}
    {serviceName : Option String} (hd : set.definitions = some definitions)
    (h : Runs (Compile.interface S set) p (operations, serviceName) q) :
    ∃ reports, q.diagnostics = p.diagnostics ++ reports ∧
      AccountsFor S (.described set.location definitions) operations reports := by
  unfold Compile.interface at h
  rw [hd] at h
  obtain ⟨interface, r, bound, h⟩ := runs_bind.mp h
  have quiet := ((onlyUnanswered S).lockstep.addBindings _ p interface r bound).1
  obtain rfl := runs_addBindings bound
  obtain ⟨entries, s, run, h⟩ := runs_bind.mp h
  obtain ⟨pair, rfl⟩ := runs_pure.mp h
  obtain rfl := (Prod.mk.inj pair).1
  have made := runs_portTypes run
  obtain ⟨reports, added, told⟩ := quiet.duplicating.trans (duplicating_portTypes run)
  rw [List.nil_append] at told
  rw [Interface.portTypes_eq_selected] at made told
  refine ⟨reports, added, fun _ => Interface.mem_selected_described,
    increasing_of_madeOf made (nodup_firsts _), fun name => ?_, fun o ho => ?_, told, ?_⟩
  · rw [names_byName made, names_firsts]
    exact Interface.mem_names_operationsOf
  · obtain ⟨entry, he, rfl⟩ := List.mem_map.mp ((perm_byName entries).mem_iff.mp ho)
    obtain ⟨p, hp, made⟩ := exists_of_forall₂ made entry he
    obtain ⟨before, after, split, others⟩ := mem_firsts_iff.mp hp
    exact ⟨p, before, after, split, fun other ho => made.called.1 ▸ others other ho, made.built⟩
  · have all := (firsts_append_repeats_perm
      (Interface.operationsOf (Interface.described set.location definitions).selected)).length_eq
    rw [List.length_append] at all
    rw [List.countP_eq_length_filter, told, duplicates, List.length_map,
      (perm_byName entries).length_eq, List.length_map, ← made.length_eq,
      ← Interface.length_operationsOf, ← all, Nat.add_comm]

/-! ## A name in two port types -/

/-- The description of a service with two port types that are bound to SOAP and share the name of
an operation, and one that is not bound. -/
def tides : Xml.Node :=
  let node (tag : String) (attributes : List (String × String)) (children : List Xml.Node) :
    Xml.Node := ⟨Vocabulary.wsdl, tag, attributes, [], children, "", 1⟩
  let soap : Xml.Node := ⟨Vocabulary.soap, "binding", [("style", "rpc")], [], [], "", 1⟩
  node "definitions" [("targetNamespace", "urn:t")]
    [node "portType" [("name", "Weather")]
      [node "operation" [("name", "Forecast")] [], node "operation" [("name", "Archive")] []],
    node "portType" [("name", "Moons")] [node "operation" [("name", "Phase")] []],
    node "portType" [("name", "Tides")]
      [node "operation" [("name", "")] [], node "operation" [("name", "Forecast")] []],
    node "binding" [("type", "Tides")] [soap], node "binding" [("type", "Weather")] [soap]]

def tideSet : SchemaSet := ⟨"memory:t.wsdl", [], some tides⟩

/-- Of the three operations with names that count, two are kept and one is reported. -/
theorem tides_accountsFor : ∃ operations serviceName q,
    Runs (Compile.interface ⟨{}, ⟨[]⟩, 1⟩ tideSet) .start (operations, serviceName) q ∧
      (Interface.described tideSet.location tides).selected.map (·.1.localPart) = ["Weather", "Tides"] ∧
      operations.length = 2 ∧ q.diagnostics.countP isDuplicate = 1 ∧
      AccountsFor ⟨{}, ⟨[]⟩, 1⟩ (.described tideSet.location tides) operations q.diagnostics := by
  obtain ⟨⟨operations, serviceName⟩, made⟩ := exists_ok (by decide +kernel :
    ((Compile.interface ⟨{}, ⟨[]⟩, 1⟩ tideSet).outcome .start).1.toOption.isSome = true)
  have run : Runs (Compile.interface ⟨{}, ⟨[]⟩, 1⟩ tideSet) .start (operations, serviceName)
      ((Compile.interface ⟨{}, ⟨[]⟩, 1⟩ tideSet).outcome .start).2 := Prod.ext made rfl
  obtain ⟨reports, added, accounts⟩ := interface_accountsFor rfl run
  obtain rfl : _ = reports := added
  have selected : (Interface.described tideSet.location tides).selected.map (·.1.localPart)
      = ["Weather", "Tides"] := by
    decide +kernel
  have reported : ((Compile.interface ⟨{}, ⟨[]⟩, 1⟩ tideSet).outcome .start).2.diagnostics.countP
      isDuplicate = 1 := by
    decide +kernel
  have declared : ((Interface.described tideSet.location tides).selected.flatMap fun portType =>
      portType.2.childrenOf Vocabulary.wsdl "operation").countP
        (fun node => (node.filled? "name").isSome) = 3 := by
    decide +kernel
  have shared := accounts.count
  rw [reported, declared] at shared
  exact ⟨operations, serviceName, _, run, selected, by omega, reported, accounts⟩

end Compile

end WsdlCatalog
