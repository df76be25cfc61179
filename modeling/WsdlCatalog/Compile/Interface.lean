/-
  WsdlCatalog.Compile.Interface — the operations of a service.

  Port types declare operations, messages say what they carry, and bindings how they
  are called. Operations of port types with a SOAP binding count, or all operations
  if no port type has one. The first operation of a name is kept and others are
  reported.
-/

import WsdlCatalog.Catalog.Basic
import WsdlCatalog.Compile.Policy
import WsdlCatalog.Compile.Reference

namespace WsdlCatalog

structure Interface where
  /-- The description, as a document. -/
  document : SchemaDocument
  messages : List (QName × Xml.Node)
  /-- The bindings of each port type. -/
  bindings : List (QName × Xml.Node)
  policies : Policies

namespace Interface

def ofDescription (location : String) (definitions : Xml.Node) : Interface :=
  let target := (definitions.attribute? "targetNamespace").getD ""
  { document := ⟨location, target, definitions⟩
    messages := putAll ((definitions.childrenOf Vocabulary.wsdl "message").map fun message =>
      (⟨some target, (message.attribute? "name").getD ""⟩, message))
    bindings := []
    policies := Policy.inside definitions }

def definitions (interface : Interface) : Xml.Node := interface.document.root

def site (interface : Interface) (node : Xml.Node) : Site := ⟨node, interface.document⟩

/-- The child of a binding or of an operation of a binding that says how SOAP is used. -/
def soapChild? (node : Xml.Node) (tag : String) : Option Xml.Node :=
  (node.child? Vocabulary.soap tag).or (node.child? Vocabulary.soap12 tag)

def isSoapBinding (binding : Xml.Node) : Bool := (soapChild? binding "binding").isSome

def bindingsOf (interface : Interface) (portType : QName) : List Xml.Node :=
  interface.bindings.filterMap fun (name, binding) => if name == portType then some binding else none

def allPortTypes (interface : Interface) : List (QName × Xml.Node) :=
  (interface.definitions.childrenOf Vocabulary.wsdl "portType").map fun portType =>
    (⟨some interface.document.targetNamespace, (portType.attribute? "name").getD ""⟩, portType)

/-- The port types with a SOAP binding, or all if there is none with one. -/
def portTypes (interface : Interface) : List (QName × Xml.Node) :=
  let bound := interface.allPortTypes.filter fun (name, _) =>
    (interface.bindingsOf name).any isSoapBinding
  if bound.isEmpty then interface.allPortTypes else bound

def boundOperation? (binding : Xml.Node) (name : String) : Option Xml.Node :=
  (binding.childrenOf Vocabulary.wsdl "operation").find? fun operation =>
    operation.attribute? "name" == some name

/-- The first binding of a port type that binds an operation, with what it says of it; else the
first binding. -/
def bindingFor (interface : Interface) (portType : QName) (name : String) :
    Option Xml.Node × Option Xml.Node :=
  let bindings := interface.bindingsOf portType
  match bindings.findSome? fun binding => (boundOperation? binding name).map (binding, ·) with
  | some (binding, operation) => (some binding, some operation)
  | none => (bindings.head?, none)

def actionAndStyle (binding operation : Option Xml.Node) : String × String :=
  let ofBinding := (binding.bind (soapChild? · "binding")).bind (·.attribute? "style")
  let style := ofBinding.getD "document"
  match operation.bind (soapChild? · "operation") with
  | some soap =>
    ((soap.attribute? "soapAction").getD "", (soap.attribute? "style").getD style)
  | none => ("", style)

/-- What an operation is said to need, on the binding and on the operation of the binding. -/
def hints (interface : Interface) (binding operation : Option Xml.Node) : List String :=
  let parts := match operation with
    | some operation => operation :: operation.childrenIn Vocabulary.wsdl ["input", "output"]
    | none => []
  Policy.hintsOf interface.policies (binding.toList ++ parts)

def serviceName? (interface : Interface) : Option String :=
  (interface.definitions.child? Vocabulary.wsdl "service").bind (·.attribute? "name")

end Interface

namespace Compile

def addBindings (setting : Setting) (interface : Interface) : Compile Interface := do
  let bindings ← (interface.definitions.childrenOf Vocabulary.wsdl "binding").filterMapM
    fun binding => do
      match binding.filled? "type" with
      | none => return none
      | some reference =>
        let name ← qualify setting reference (interface.site binding)
          (some ((binding.attribute? "name").getD ""))
        return name.map (·, binding)
  return { interface with bindings }

/-- The element that a message carries and the structural type of it. A message carries what its
first part with an element says. -/
def payload (setting : Setting) (interface : Interface) (operation : String)
    (direction : Option Xml.Node) : Compile (Option QName × Option String) := do
  let message ← match direction.bind fun node => (node.filled? "message").map (node, ·) with
    | none => pure none
    | some (node, reference) =>
      let name ← qualify setting reference (interface.site node) (some operation)
      pure (name.bind fun name => interface.messages.lookup name)
  let part := message.bind fun message =>
    (message.childrenOf Vocabulary.wsdl "part").findSome? fun part =>
      (part.filled? "element").map (part, ·)
  match part with
  | none => return (none, none)
  | some (part, reference) =>
    match ← qualify setting reference (interface.site part) (some operation) with
    | none => return (none, none)
    | some name =>
      match ← lookup setting .element reference (interface.site part) (some operation) with
      | none => return (some name, none)
      | some d =>
        let ref ← globalElementType setting d (some operation)
        return (some name, if ref.kind == .structural then ref.name else none)

def operationOf (setting : Setting) (interface : Interface) (portType : QName) (name : String)
    (node : Xml.Node) : Compile Operation := do
  let (inputElement, inputType) ←
    payload setting interface name (node.child? Vocabulary.wsdl "input")
  let (outputElement, outputType) ←
    payload setting interface name (node.child? Vocabulary.wsdl "output")
  let (binding, boundOperation) := interface.bindingFor portType name
  let (action, style) := Interface.actionAndStyle binding boundOperation
  return {
    name, action, inputElement, outputElement, inputType, outputType
    securityHints := interface.hints binding boundOperation
    style, documentation := node.documentation? }

def duplicateOperation (interface : Interface) (name : String) (portType : Xml.Node) :
    Diagnostic where
  kind := "duplicate-operation"
  message := "Operation '" ++ name ++ "' is declared by more than one port type; keeping the first"
  context :=
    { element := name, uri := interface.document.targetNamespace
      referencedBy := portType.attribute? "name", file := interface.document.location }

def addOperation (setting : Setting) (interface : Interface) (portType : QName × Xml.Node)
    (operations : List (String × Operation)) (node : Xml.Node) :
    Compile (List (String × Operation)) := do
  match node.filled? "name" with
  | none => return operations
  | some name =>
    if (operations.lookup name).isSome then
      addDiagnostic (duplicateOperation interface name portType.2)
      return operations
    else
      return operations ++ [(name, ← operationOf setting interface portType.1 name node)]

/-- The operations of a service description in the order of their names, and its service name. -/
def interface (setting : Setting) (set : SchemaSet) :
    Compile (List Operation × Option String) := do
  match set.definitions with
  | none => return ([], none)
  | some definitions =>
    let interface ← addBindings setting (.ofDescription set.location definitions)
    let operations ← interface.portTypes.foldlM (fun operations portType =>
      (portType.2.childrenOf Vocabulary.wsdl "operation").foldlM
        (addOperation setting interface portType) operations) []
    return (Inventory.byName operations, interface.serviceName?)

end Compile

end WsdlCatalog
