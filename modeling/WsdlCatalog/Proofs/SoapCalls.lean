/-
  WsdlCatalog.Proofs.SoapCalls — how the operations of a service are called.

  An operation takes its action and its style from the first binding of its port type that
  lists it, be it a SOAP binding or another one. Port types, in contrast, count for any SOAP
  binding that they have.

  Proved: an operation is called as the first SOAP binding that calls it says, if no other
  binding lists it before, and every operation that a SOAP binding calls is among those that
  count (`SchemaSet.compile_calls`). Behind a binding of another protocol a SOAP binding is not
  heard, and the operation has no action (`SchemaSet.plainBinding_overrules`).
-/

import WsdlCatalog.Proofs.Operations

namespace WsdlCatalog

namespace Interface

def styleOf (binding : Xml.Node) : String :=
  ((soapChild? binding "binding").bind (·.attribute? "style")).getD "document"

/-- The action and the style that a binding gives an operation if it is a SOAP binding that says
how to call the operation. -/
def soapCall? (name : String) (binding : Xml.Node) : Option (String × String) :=
  if isSoapBinding binding then
    ((binding.childrenOf Vocabulary.wsdl "operation").filter
      (·.attribute? "name" == some name)).findSome? fun operation =>
        (soapChild? operation "operation").map fun soap =>
          ((soap.attribute? "soapAction").getD "", (soap.attribute? "style").getD (styleOf binding))
  else none

/-- The first binding that lists an operation, and what it has under the name first. -/
def FirstListed (name : String) (bindings : List Xml.Node) (binding operation : Xml.Node) : Prop :=
  ∃ before after, bindings = before ++ binding :: after ∧
    (∀ other ∈ before, boundOperation? other name = none) ∧
    boundOperation? binding name = some operation

structure Called (name : String) (bindings : List Xml.Node) (action style : String) : Prop where
  /-- If the first binding that lists the operation calls it by SOAP, it is the first SOAP binding
  that does, and the operation is called as it says. -/
  soap : ∀ binding operation, FirstListed name bindings binding operation →
    isSoapBinding binding = true → (soapChild? operation "operation").isSome = true →
    bindings.findSome? (soapCall? name) = some (action, style)
  /-- What the first binding that lists the operation says counts even if it is no SOAP binding. -/
  listed : ∀ binding operation soap, FirstListed name bindings binding operation →
    soapChild? operation "operation" = some soap →
    action = (soap.attribute? "soapAction").getD "" ∧
      style = (soap.attribute? "style").getD (styleOf binding)
  silent : ∀ binding operation, FirstListed name bindings binding operation →
    soapChild? operation "operation" = none → action = "" ∧ style = styleOf binding
  unlisted : (∀ binding ∈ bindings, boundOperation? binding name = none) →
    action = "" ∧ style = (bindings.head?.map styleOf).getD "document"

variable {name : String} {bindings : List Xml.Node} {binding operation : Xml.Node}

theorem FirstListed.mem (h : FirstListed name bindings binding operation) : binding ∈ bindings := by
  obtain ⟨before, after, rfl, -, -⟩ := h
  exact List.mem_append_right _ List.mem_cons_self

theorem FirstListed.listed (h : FirstListed name bindings binding operation) :
    boundOperation? binding name = some operation := by
  obtain ⟨_, _, -, -, listed⟩ := h
  exact listed

theorem firstListed_or_unlisted (name : String) (bindings : List Xml.Node) :
    (∃ binding operation, FirstListed name bindings binding operation) ∨
      ∀ binding ∈ bindings, boundOperation? binding name = none := by
  cases found : bindings.findSome? (boundOperation? · name) with
  | none => exact .inr (List.findSome?_eq_none_iff.mp found)
  | some operation =>
    obtain ⟨before, binding, after, split, listed, others⟩ := List.findSome?_eq_some_iff.mp found
    exact .inl ⟨binding, operation, before, after, split, others, listed⟩

theorem boundOperation?_eq (binding : Xml.Node) (name : String) :
    boundOperation? binding name = ((binding.childrenOf Vocabulary.wsdl "operation").filter
      (·.attribute? "name" == some name)).head? :=
  List.head?_filter.symm

theorem soapCall?_eq_none (h : boundOperation? binding name = none) :
    soapCall? name binding = none := by
  rw [boundOperation?_eq, List.head?_eq_none_iff] at h
  unfold soapCall?
  rw [h]
  exact ite_self none

theorem soapCall?_eq_some {soap : Xml.Node} (hb : isSoapBinding binding = true)
    (ho : boundOperation? binding name = some operation)
    (hs : soapChild? operation "operation" = some soap) :
    soapCall? name binding = some ((soap.attribute? "soapAction").getD "",
      (soap.attribute? "style").getD (styleOf binding)) := by
  rw [boundOperation?_eq] at ho
  obtain ⟨others, listed⟩ := List.head?_eq_some_iff.mp ho
  unfold soapCall?
  rw [if_pos hb, listed]
  exact List.findSome?_cons_of_isSome (by rw [hs]; rfl) |>.trans (by rw [hs]; rfl)

theorem findSome?_soapCall {soap : Xml.Node} (h : FirstListed name bindings binding operation)
    (hb : isSoapBinding binding = true) (hs : soapChild? operation "operation" = some soap) :
    bindings.findSome? (soapCall? name) = some ((soap.attribute? "soapAction").getD "",
      (soap.attribute? "style").getD (styleOf binding)) := by
  obtain ⟨before, after, rfl, others, listed⟩ := h
  exact List.findSome?_eq_some_iff.mpr ⟨before, binding, after, rfl, soapCall?_eq_some hb listed hs,
    fun other ho => soapCall?_eq_none (others other ho)⟩

/-- The binding that counts for an operation. -/
theorem bindingFor_of_firstListed {interface : Interface} {portType : QName}
    (h : FirstListed name (interface.bindingsOf portType) binding operation) :
    interface.bindingFor portType name = (some binding, some operation) := by
  obtain ⟨before, after, split, others, listed⟩ := h
  have found : (interface.bindingsOf portType).findSome? (fun binding =>
      (boundOperation? binding name).map (binding, ·)) = some (binding, operation) := by
    refine List.findSome?_eq_some_iff.mpr ⟨before, binding, after, split, ?_, fun other ho => ?_⟩
    · rw [listed]
      rfl
    · rw [others other ho]
      rfl
  unfold bindingFor
  dsimp only
  rw [found]

theorem bindingFor_of_unlisted {interface : Interface} {portType : QName}
    (h : ∀ binding ∈ interface.bindingsOf portType, boundOperation? binding name = none) :
    interface.bindingFor portType name = ((interface.bindingsOf portType).head?, none) := by
  have none : (interface.bindingsOf portType).findSome? (fun binding =>
      (boundOperation? binding name).map (binding, ·)) = none :=
    List.findSome?_eq_none_iff.mpr fun binding hb => by rw [h binding hb]; rfl
  unfold bindingFor
  dsimp only
  rw [none]

theorem called_of_bindingFor {interface : Interface} {portType : QName} {action style : String}
    (h : actionAndStyle (interface.bindingFor portType name).1 (interface.bindingFor portType name).2
      = (action, style)) : Called name (interface.bindingsOf portType) action style := by
  have listed {binding operation soap : Xml.Node}
      (first : FirstListed name (interface.bindingsOf portType) binding operation)
      (hs : soapChild? operation "operation" = some soap) :
      ((soap.attribute? "soapAction").getD "", (soap.attribute? "style").getD (styleOf binding))
        = (action, style) := by
    rw [bindingFor_of_firstListed first, actionAndStyle, Option.bind_some, hs] at h
    exact h
  constructor
  · intro binding operation first hb carries
    obtain ⟨soap, hs⟩ := Option.isSome_iff_exists.mp carries
    rw [findSome?_soapCall first hb hs, listed first hs]
  · intro binding operation soap first hs
    obtain ⟨action, style⟩ := Prod.mk.inj (listed first hs)
    exact ⟨action.symm, style.symm⟩
  · intro binding operation first silent
    rw [bindingFor_of_firstListed first, actionAndStyle, Option.bind_some, silent] at h
    obtain ⟨action, style⟩ := Prod.mk.inj h
    exact ⟨action.symm, style.symm⟩
  · intro unlisted
    rw [bindingFor_of_unlisted unlisted, actionAndStyle] at h
    obtain ⟨action, style⟩ := Prod.mk.inj h
    refine ⟨action.symm, style.symm.trans ?_⟩
    cases (interface.bindingsOf portType).head? <;> rfl

structure Calls (interface : Interface) (operations : List Operation) : Prop where
  nodup : (operations.map (·.name)).Nodup
  /-- Every operation is one that counts. -/
  counts : ∀ o ∈ operations, ∃ p ∈ firsts interface.offered, o.name = p.name ∧
    Called p.name (interface.bindingsOf p.portType.1) o.action o.style
  all : ∀ p ∈ firsts interface.offered, ∃ o ∈ operations, o.name = p.name ∧
    Called p.name (interface.bindingsOf p.portType.1) o.action o.style
  /-- An operation that a SOAP binding calls counts, or an earlier one of its name does. -/
  offered : ∀ p ∈ operationsOf interface.allPortTypes, ∀ call,
    (interface.bindingsOf p.portType.1).findSome? (soapCall? p.name) = some call →
    p ∈ interface.offered

theorem mem_offered {interface : Interface} {p : PortOperation} {call : String × String}
    (declared : p ∈ operationsOf interface.allPortTypes)
    (called : (interface.bindingsOf p.portType.1).findSome? (soapCall? p.name) = some call) :
    p ∈ interface.offered := by
  obtain ⟨portType, listed⟩ := mem_operationsOf.mp declared
  obtain ⟨binding, bound, gives⟩ := List.exists_of_findSome?_eq_some called
  have soap : isSoapBinding binding = true := by
    by_contra other
    rw [soapCall?, if_neg other] at gives
    cases gives
  exact mem_operationsOf.mpr ⟨mem_portTypes portType bound soap, listed⟩

end Interface

namespace Compile

variable {S : Setting} {interface : Interface}

theorem MadeOf.called {p : PortOperation} {entry : String × Operation}
    (h : MadeOf S interface p entry) : entry.2.name = p.name ∧
      Interface.Called p.name (interface.bindingsOf p.portType.1) entry.2.action entry.2.style := by
  obtain ⟨before, after, run⟩ := h.run
  unfold operationOf at run
  obtain ⟨_, _, -, run⟩ := runs_bind.mp run
  obtain ⟨_, _, -, run⟩ := runs_bind.mp run
  obtain ⟨made, -⟩ := runs_pure.mp run
  rw [made]
  exact ⟨rfl, Interface.called_of_bindingFor rfl⟩

theorem calls_of_madeOf {entries : List (String × Operation)}
    (h : List.Forall₂ (MadeOf S interface) (firsts interface.offered) entries) :
    interface.Calls (Inventory.byName entries) := by
  have perm := perm_byName entries
  have names : (entries.map (·.2)).map (·.name) = (firsts interface.offered).map (·.name) := by
    rw [List.map_map, ← List.forall₂_eq_eq_eq]
    exact List.forall₂_map_left_iff.mpr
      (List.forall₂_map_right_iff.mpr (h.flip.imp fun _ _ made => made.called.1))
  refine ⟨?_, fun o ho => ?_, fun p hp => ?_, fun p hp call => Interface.mem_offered hp⟩
  · rw [(perm.map _).nodup_iff, names]
    exact nodup_firsts _
  · obtain ⟨entry, he, rfl⟩ := List.mem_map.mp (perm.mem_iff.mp ho)
    obtain ⟨p, hp, made⟩ := exists_of_forall₂ h entry he
    exact ⟨p, hp, made.called⟩
  · obtain ⟨entry, he, made⟩ := exists_of_forall₂ h.flip p hp
    exact ⟨entry.2, perm.mem_iff.mpr (List.mem_map_of_mem he), made.called⟩

theorem Staged.calls {set : SchemaSet} {p q : Progress} {c : Catalog} {compiled : Progress}
    {types : List (Option String × StructuralType)} {aliases : List ScalarAlias}
    {sorted : List StructuralType} {operations : List Operation} {serviceName : Option String}
    {displayName : Loose String} {definitions : Xml.Node}
    (h : Staged S set p q c compiled types aliases sorted operations serviceName displayName)
    (hd : set.definitions = some definitions) :
    (Interface.described set.location definitions).Calls c.operations := by
  obtain ⟨entries, made, operations⟩ := h.operations_eq hd
  rw [operations]
  exact calls_of_madeOf made

end Compile

namespace SchemaSet

/-- **An operation is called as the first SOAP binding that calls it says**, if no other binding of
its port type lists it before; else as the first binding that lists it says. -/
theorem compile_calls {set : SchemaSet} {options : Options} {c : Catalog} {definitions : Xml.Node}
    (h : (set.compile options).result = .ok c) (hd : set.definitions = some definitions) :
    (Interface.described set.location definitions).Calls c.operations := by
  obtain ⟨S, hs⟩ := exists_setting h
  obtain ⟨_, _, _, _, _, _, _, _, staged⟩ := exists_staged hs h
  exact staged.calls hd

/-! ## A service with two bindings -/

/-- A binding of a port type, with an operation of which it says something. -/
def bindingOf (protocol : String) (kind call : List (String × String)) : Xml.Node :=
  let node (uri tag : String) (attributes : List (String × String)) (children : List Xml.Node) :
    Xml.Node := ⟨uri, tag, attributes, [("", some "urn:t")], children, "", 1⟩
  node Vocabulary.wsdl "binding" [("type", "Weather")] [node protocol "binding" kind [],
    node Vocabulary.wsdl "operation" [("name", "Forecast")] [node protocol "operation" call []]]

def soapBinding : Xml.Node :=
  bindingOf Vocabulary.soap [("style", "rpc")] [("soapAction", "urn:forecast")]

def httpBinding : Xml.Node :=
  bindingOf "http://schemas.xmlsoap.org/wsdl/http/" [("verb", "GET")] [("location", "/forecast")]

def forecasts (bindings : List Xml.Node) : Xml.Node :=
  let node (tag : String) (attributes : List (String × String)) (children : List Xml.Node) :
    Xml.Node := ⟨Vocabulary.wsdl, tag, attributes, [], children, "", 1⟩
  node "definitions" [("targetNamespace", "urn:t")]
    (node "portType" [("name", "Weather")] [node "operation" [("name", "Forecast")] []] :: bindings)

def forecastSet (bindings : List Xml.Node) : SchemaSet :=
  ⟨"memory:t.wsdl", [], some (forecasts bindings)⟩

def forecastPort : QName := ⟨some "urn:t", "Weather"⟩

/-- The one operation of a service that counts. -/
theorem forecast_of_calls {interface : Interface} {operations : List Operation}
    (h : interface.Calls operations)
    (counts : (firsts interface.offered).map (fun p => (p.portType.1, p.name))
      = [(forecastPort, "Forecast")]) :
    ∃ o ∈ operations, o.name = "Forecast" ∧
      Interface.Called "Forecast" (interface.bindingsOf forecastPort) o.action o.style := by
  have one : (forecastPort, "Forecast") ∈
      (firsts interface.offered).map fun p => (p.portType.1, p.name) :=
    counts ▸ List.mem_cons_self
  obtain ⟨p, hp, same⟩ := List.mem_map.mp one
  obtain ⟨portType, name⟩ := Prod.mk.inj same
  obtain ⟨o, ho, named, called⟩ := h.all p hp
  rw [portType, name] at called
  exact ⟨o, ho, named.trans name, called⟩

/-- The operation is called as its SOAP binding says, which comes first. -/
theorem soapFirst_called : ∃ c, ((forecastSet [soapBinding, httpBinding]).compile {}).result = .ok c ∧
    ∃ o ∈ c.operations, o.name = "Forecast" ∧ o.action = "urn:forecast" ∧ o.style = "rpc" := by
  obtain ⟨c, run⟩ := exists_ok (by decide +kernel :
    ((forecastSet [soapBinding, httpBinding]).compile {}).result.toOption.isSome = true)
  have calls := compile_calls run rfl
  obtain ⟨o, ho, name, called⟩ := forecast_of_calls calls (by decide +kernel)
  have first := called.soap soapBinding _ ⟨[], [httpBinding], rfl, nofun, rfl⟩ rfl rfl
  have heard : ((Interface.described "memory:t.wsdl" (forecasts [soapBinding, httpBinding])).bindingsOf
      forecastPort).findSome? (Interface.soapCall? "Forecast") = some ("urn:forecast", "rpc") := by
    decide +kernel
  obtain ⟨action, style⟩ := Prod.mk.inj (Option.some.inj (first.symm.trans heard))
  exact ⟨c, run, o, ho, name, action, style⟩

/-- A SOAP binding is not heard behind another binding that lists the operation. -/
theorem plainBinding_overrules : ∃ c,
    ((forecastSet [httpBinding, soapBinding]).compile {}).result = .ok c ∧
    ((Interface.described "memory:t.wsdl" (forecasts [httpBinding, soapBinding])).bindingsOf
      forecastPort).findSome? (Interface.soapCall? "Forecast") = some ("urn:forecast", "rpc") ∧
    ∃ o ∈ c.operations, o.name = "Forecast" ∧ o.action = "" ∧ o.style = "document" := by
  obtain ⟨c, run⟩ := exists_ok (by decide +kernel :
    ((forecastSet [httpBinding, soapBinding]).compile {}).result.toOption.isSome = true)
  obtain ⟨S, hs⟩ := exists_setting run
  obtain ⟨_, _, _, _, _, _, _, _, staged⟩ := exists_staged hs run
  obtain ⟨o, ho, name, called⟩ := forecast_of_calls (staged.calls rfl) (by decide +kernel)
  have first := called.silent httpBinding _ ⟨[], [soapBinding], rfl, nofun, rfl⟩ rfl
  exact ⟨c, run, by decide +kernel, o, ho, name, first⟩

end SchemaSet

end WsdlCatalog
