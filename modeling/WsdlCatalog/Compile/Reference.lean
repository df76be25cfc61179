/-
  WsdlCatalog.Compile.Reference — references to declarations and types.

  A reference to a type means a built-in type, a simple type, or a complex type.
  Simple types are compiled when they are first referred to, because what is derived
  from one needs its shape; they must not be derived from themselves.
-/

import WsdlCatalog.Compile.Builtin
import WsdlCatalog.Compile.Progress
import WsdlCatalog.Compile.SimpleType
import WsdlCatalog.Text.Digit

namespace WsdlCatalog.Compile

/-! ## Names -/

/-- The name that a reference means; none if its prefix is not bound and that was reported. -/
def qualify (setting : Setting) (reference : String) (site : Site) (referencedBy : Option String) :
    Compile (Option QName) :=
  match Reference.qualify reference site referencedBy with
  | .ok name => return some name
  | .error fault => do
    report setting fault reference
    return none

def missing (setting : Setting) (space : Space) (name : QName) (site : Site)
    (referencedBy : Option String) : Compile Unit :=
  report setting (.undeclared space name referencedBy site.document.location) name.key

def lookup (setting : Setting) (space : Space) (reference : String) (site : Site)
    (referencedBy : Option String) : Compile (Option Declaration) := do
  match ← qualify setting reference site referencedBy with
  | none => return none
  | some name =>
    match setting.declarations.lookup space name with
    | some d => return some d
    | none =>
      missing setting space name site referencedBy
      return none

/-! ## Types -/

/-- The type that a reference means. `compileAlias` compiles a simple type. -/
def resolveTypeWith (setting : Setting) (compileAlias : Declaration → Compile ScalarAlias)
    (reference : String) (site : Site) (referencedBy : Option String) : Compile TypeRef := do
  match ← qualify setting reference site referencedBy with
  | none => return .unresolved reference
  | some name =>
    if name.uri == some Vocabulary.xsd then return Builtin.ref setting.options name
    else if name.uri == some Vocabulary.soapEncoding then
      if Builtin.isBuiltin name.localPart then return Builtin.ref setting.options name
      else return ⟨.scalar, name.label, .untyped, none, none, false⟩
    else
      match setting.declarations.lookup .type name with
      | none =>
        missing setting .type name site referencedBy
        return .unresolved name.label
      | some d =>
        if d.isSimpleType then return .ofAlias (← compileAlias d)
        else
          let canonical := (← inventory).canonical? (ownerOfType name)
          return ⟨.structural, name.label, .untyped, canonical, none, false⟩

/-- The shape of a simple type; `owner` is the type that its definition belongs to. -/
def simpleShapeWith (setting : Setting) (compileAlias : Declaration → Compile ScalarAlias)
    (owner : Owner) (site : Site) : Compile SimpleShape := do
  let derivation := SimpleDerivation.ofNode site.node
  match derivation.origin with
  | .text => return derivation.shape .text
  | .named reference node =>
    let ref ← resolveTypeWith setting compileAlias reference (site.atNode node) owner
    match ref.kind with
    | .alias =>
      match (← inventory).alias? ref.name with
      | some a => return derivation.shape (.ofAlias a)
      | none => throw (.missingType (Owner.text ref.name))
    | .structural =>
      fail (.complexOrigin owner ref.declared site.document.targetNamespace
        site.document.location)
    | _ => return derivation.shape (.ofRef ref)

/-- The entry of a simple type with a name. `chain` holds the types that are being derived from
it, and `depth` bounds how many more there may be. -/
def compileAliasIn (setting : Setting) :
    (depth : Nat) → (chain : List QName) → Declaration → Compile ScalarAlias
  | 0, _, d => fail (.circularSimpleType d.name d.site.document.location)
  | depth + 1, chain, d => do
    let canonical := (← inventory).canonical? (ownerOfType d.name)
    match (← inventory).alias? canonical with
    | some a => return a
    | none =>
      if chain.contains d.name then
        fail (.circularSimpleType d.name d.site.document.location)
      else
        let shape ← simpleShapeWith setting (compileAliasIn setting depth (d.name :: chain))
          canonical d.site
        let a : ScalarAlias := ⟨canonical, some d.name, shape.scalar, shape.base,
          shape.enumeration, shape.isList, d.site.node.documentation?⟩
        addAlias a
        return a

def compileAlias (setting : Setting) : Declaration → Compile ScalarAlias :=
  compileAliasIn setting (setting.declarations.entries.length + 1) []

def resolveType (setting : Setting) (reference : String) (site : Site) (referencedBy : Option String) :
    Compile TypeRef :=
  resolveTypeWith setting (compileAlias setting) reference site referencedBy

def inlineSimple (setting : Setting) (owner : Owner) (site : Site) : Compile TypeRef := do
  return (← simpleShapeWith setting (compileAlias setting) owner site).toRef

/-! ## Elements and attributes -/

def hasOwnType (node : Xml.Node) : Bool :=
  (node.filled? "type").isNone && (node.child? Vocabulary.xsd "complexType").isSome

/-- The type that an element or attribute states by reference or by a simple type inside it; the
default is a built-in type. -/
def statedType (setting : Setting) (default : QName) (owner simpleOwner : Owner) (site : Site) :
    Compile TypeRef :=
  match site.node.filled? "type" with
  | some reference => resolveType setting reference site owner
  | none =>
    match site.node.child? Vocabulary.xsd "simpleType" with
    | some simple => inlineSimple setting simpleOwner (site.atNode simple)
    | none => return Builtin.ref setting.options default

def globalElementType (setting : Setting) (d : Declaration) (referencedBy : Option String) :
    Compile TypeRef := do
  if hasOwnType d.site.node then
    let canonical := (← inventory).canonical? (ownerOfElement d.name)
    return ⟨.structural, d.name.label, .untyped, canonical, none, false⟩
  else statedType setting .anyType referencedBy d.name.localPart d.site

structure Referenced where
  name : String
  declared : String
  typeRef : TypeRef
  nillable : Bool
  deriving DecidableEq, Repr

def isNillable (node : Xml.Node) : Bool := node.attribute? "nillable" == some "true"

def elementReference (setting : Setting) (reference : String) (site : Site) (owner : Owner) :
    Compile Referenced := do
  match ← lookup setting .element reference site owner with
  | none => return ⟨Reference.localPart reference, reference, .unresolved reference, false⟩
  | some d =>
    let ref ← globalElementType setting d owner
    return ⟨d.name.localPart, ref.declared, ref, isNillable d.site.node⟩

def attributeType (setting : Setting) (site : Site) (owner : Owner) : Compile TypeRef :=
  statedType setting .stringType owner owner site

def attributeReference (setting : Setting) (reference : String) (site : Site) (owner : Owner) :
    Compile Referenced := do
  match ← qualify setting reference site owner with
  | none => return ⟨Reference.localPart reference, reference, .unresolved reference, false⟩
  | some name =>
    if name.uri == some Vocabulary.xml then
      let ref := Builtin.ref setting.options .stringType
      return ⟨name.localPart, ref.declared, ref, false⟩
    else
      match setting.declarations.lookup .attributes name with
      | none =>
        missing setting .attributes name site owner
        return ⟨name.localPart, name.label, .unresolved name.label, false⟩
      | some d =>
        let ref ← attributeType setting d.site owner
        return ⟨name.localPart, ref.declared, ref, false⟩

/-! ## Encoded arrays -/

/-- The text without dimensions in brackets at its end: digits, commas and blanks. -/
def dropDimensions (cs : List Char) : List Char :=
  (drop cs.length cs.reverse).reverse
where
  drop : Nat → List Char → List Char
    | 0, cs => cs
    | fuel + 1, cs =>
      match cs with
      | ']' :: rest =>
        match rest.dropWhile fun c => (Text.digit? c).isSome || c == ',' || Text.isBlank c with
        | '[' :: rest => drop fuel rest
        | _ => cs
      | _ => cs

/-- The type of the items of an encoded array, if a reference to an attribute is the one that
states it. -/
def encodedItem (setting : Setting) (reference : String) (site : Site) (owner : Owner) :
    Compile (Option TypeRef) :=
  if Reference.localPart reference != "arrayType" then return none
  else
    match Reference.meaning reference site with
    | .error _ => return none
    | .ok name =>
      if name.uri != some Vocabulary.soapEncoding then return none
      else
        match site.node.filled? (Vocabulary.clark Vocabulary.wsdl "arrayType") with
        | none => return some (Builtin.ref setting.options .anyType)
        | some written =>
          let item := String.ofList (dropDimensions (Text.trimChars written.toList))
          some <$> resolveType setting item site owner

end WsdlCatalog.Compile
