/-
  WsdlCatalog.Compile.ComplexType — complex types.

  A type is compiled by going through the outline of its content model and then
  through its attributes, and collecting its members on the way. A type without a
  name inside an element is named after the type around it and the element, and is
  compiled where it is met.
-/

import WsdlCatalog.Compile.Reference
import WsdlCatalog.Content.AttributeSite
import WsdlCatalog.Content.Members
import WsdlCatalog.Text.CanonicalName

namespace WsdlCatalog.Compile

/-- How a type inside an element is compiled: under a canonical name, for a name, from its
definition. -/
abbrev Nested := Owner → QName → Site → Compile Unit

/-! ## Elements -/

def elementTypeWith (setting : Setting) (nested : Nested) (site : Site) (owner : Owner) :
    Compile TypeRef := do
  match site.node.filled? "type", site.node.child? Vocabulary.xsd "complexType" with
  | none, some complex =>
    let (some owner, some element) := (owner, site.node.attribute? "name") | throw .missingName
    let name : QName := ⟨some site.document.targetNamespace, owner ++ Text.pascal element⟩
    let canonical ← reserve (ownerOfNested owner element) name.localPart name
    if !(← inventory).isCompiled canonical then nested canonical name (site.atNode complex)
    return .ofStructure canonical name.label
  | _, _ => statedType setting .anyType owner owner site

def elementParticle (setting : Setting) (nested : Nested) (site : Site) (owner : Owner) :
    Compile Referenced := do
  match site.node.filled? "ref" with
  | some reference => elementReference setting reference site owner
  | none =>
    let ref ← elementTypeWith setting nested site owner
    return ⟨(site.node.attribute? "name").getD "", ref.declared, ref, isNillable site.node⟩

def atSite {α : Type} (site : Site) (owner : Owner) (result : Except ModelFault α) : Compile α :=
  ofExcept (result.mapError (site.modelFault owner))

def addStep (setting : Setting) (nested : Nested) (owner : Owner) (members : Members) :
    Step → Compile Members
  | .element range site branches => do
    let e ← elementParticle setting nested site owner
    atSite site owner
      (members.addElement ⟨e.name, e.declared, e.typeRef, range, e.nillable, none⟩ branches)
  | .unresolved fault key => do
    report setting fault key
    return members
  | .broken refusal => throw refusal

/-- The members with the elements of a definition, and the choices it makes. -/
def addParticles (setting : Setting) (nested : Nested) (owner : Owner) (container : Site)
    (members : Members) : Compile (Members × List ChoiceFrame) := do
  let outline := Outline.ofParticles setting.options.choice
    (Particle.ofContainer setting.declarations owner container)
  return (← outline.steps.foldlM (addStep setting nested owner) members, outline.frames)

/-! ## Attributes -/

/-- The name of the element that stands for the items of an encoded array. -/
def encodedItemName : String := "item"

def attributeUse (site : Site) : Except ModelFault AttributeUse :=
  match site.node.attribute? "use" with
  | none => .ok .optional
  | some written =>
    match AttributeUse.ofName written with
    | .other _ => .error (.invalidUse written)
    | use => .ok use

/-- The members with one attribute. The attribute that states the items of an encoded array
becomes an element. -/
def addAttributeAt (setting : Setting) (owner : Owner) (members : Members) (site : Site) :
    Compile Members := do
  let use ← atSite site owner (attributeUse site)
  match site.node.filled? "ref", site.node.filled? "name" with
  | some reference, _ =>
    match ← encodedItem setting reference site owner with
    | some item =>
      atSite site owner
        (members.addElement ⟨encodedItemName, item.declared, item, ⟨0, none⟩, false, none⟩ [])
    | none =>
      let a ← attributeReference setting reference site owner
      atSite site owner (members.addAttribute ⟨a.name, a.declared, a.typeRef, use⟩)
  | none, some name =>
    let ref ← attributeType setting site owner
    atSite site owner (members.addAttribute ⟨name, ref.declared, ref, use⟩)
  | none, none => fail (site.modelFault owner .namelessAttribute)

def addAttributeStep (setting : Setting) (owner : Owner) (members : Members) :
    AttributeStep → Compile Members
  | .declared site => addAttributeAt setting owner members site
  | .unresolved fault key => do
    report setting fault key
    return members
  | .broken fault => fail fault

def addAttributes (setting : Setting) (owner : Owner) (container : Site) (members : Members) :
    Compile Members :=
  (AttributeStep.ofContainer setting.declarations owner container).foldlM
    (addAttributeStep setting owner) members

/-! ## Derivation -/

def derivationOf (owner : Owner) (content : Site) : Compile Site :=
  match (content.node.child? Vocabulary.xsd "extension").or
      (content.node.child? Vocabulary.xsd "restriction") with
  | some derivation => return content.atNode derivation
  | none =>
    fail (.noDerivation content.node.tag owner content.document.targetNamespace
      content.document.location)

def baseOf (setting : Setting) (owner : Owner) (derivation : Site) : Compile TypeRef :=
  match derivation.node.filled? "base" with
  | some reference => resolveType setting reference derivation owner
  | none =>
    fail (.noBase derivation.node.tag owner derivation.document.targetNamespace
      derivation.document.location)

/-- The canonical name of the type that complex content extends, if it extends one that is known. -/
def extendedType (setting : Setting) (owner : Owner) (derivation : Site) :
    Compile (Option String) := do
  let ref ← baseOf setting owner derivation
  if ref.kind == .structural then return ref.name
  else if ref.isUnresolved || ref.declared == QName.anyType.label then return none
  else
    fail (.simpleBase ref.declared owner derivation.document.targetNamespace
      derivation.document.location)

/-! ## Types -/

structure Body where
  members : Members
  frames : List ChoiceFrame
  base : Option String
  mixed : Bool
  /-- The type of simple content. -/
  simple : Option TypeRef

def isMixed (node : Xml.Node) : Bool := node.attribute? "mixed" == some "true"

def bodyOf (setting : Setting) (nested : Nested) (owner : Owner) (site : Site) :
    Compile Body := do
  match site.node.child? Vocabulary.xsd "simpleContent",
      site.node.child? Vocabulary.xsd "complexContent" with
  | some content, _ =>
    let derivation ← derivationOf owner (site.atNode content)
    let members ← addAttributes setting owner derivation .empty
    return ⟨members, [], none, isMixed site.node, some (← baseOf setting owner derivation)⟩
  | none, some content =>
    let derivation ← derivationOf owner (site.atNode content)
    let base ←
      if derivation.node.tag == "extension" then extendedType setting owner derivation
      else pure none
    let (members, frames) ← addParticles setting nested owner derivation .empty
    let members ← addAttributes setting owner derivation members
    return ⟨members, frames, base, isMixed site.node || isMixed content, none⟩
  | none, none =>
    let (members, frames) ← addParticles setting nested owner site .empty
    let members ← addAttributes setting owner site members
    return ⟨members, frames, none, isMixed site.node, none⟩

def Body.toType (options : Options) (body : Body) (canonical : Owner) (name : QName)
    (documentation : Option String) (anonymous : Bool) : StructuralType :=
  let text := body.simple.or
    (if body.mixed then some (Builtin.ref options .stringType) else none)
  let elements := body.members.elements options.nillableAsOptional text
  { name := canonical, qname := some name
    attributes := body.members.attributes, elements
    localAttributes := body.members.attributes, localElements := elements
    base := body.base, mixed := body.mixed, simpleContent := body.simple.isSome
    choices := body.members.choices body.frames, documentation, anonymous }

/-- Compiles a complex type under a canonical name; `depth` bounds how deep types are nested. -/
def complexTypeIn (setting : Setting) :
    (depth : Nat) → (anonymous : Bool) → Owner → QName → Site → Compile Unit
  | 0, _, canonical, _, site =>
    fail (.endlessNesting canonical site.document.targetNamespace site.document.location)
  | depth + 1, anonymous, canonical, name, site => do
    let body ← bodyOf setting (complexTypeIn setting depth true) canonical site
    addType (body.toType setting.options canonical name site.node.documentation? anonymous)

def complexType (setting : Setting) (anonymous : Bool) (canonical : Owner) (name : QName)
    (site : Site) : Compile Unit :=
  complexTypeIn setting setting.nesting anonymous canonical name site

def elementType (setting : Setting) (site : Site) (owner : Owner) : Compile TypeRef :=
  elementTypeWith setting (complexType setting true) site owner

end WsdlCatalog.Compile
