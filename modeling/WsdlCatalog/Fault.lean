/-
  WsdlCatalog.Fault — why a schema set cannot be assembled or compiled, and everything
  else for which an input is refused.

  Every fault is a cause with the data that explains it. `Fault.diagnostic` gives its
  wording; nothing else in the library words a fault. A refusal that is no fault has no
  place in the documents to report.
-/

import WsdlCatalog.Diagnostic
import WsdlCatalog.Location
import WsdlCatalog.Options
import WsdlCatalog.QName
import WsdlCatalog.Text.Digit
import WsdlCatalog.Xml.Error

namespace WsdlCatalog

/-- The kinds of global declarations. A name means one thing in each of them. -/
inductive Space where
  | type
  | element
  | attributes
  | group
  | attributeGroup
  deriving DecidableEq, Repr

namespace Space

def all : List Space := [type, element, attributes, group, attributeGroup]

def name : Space → String
  | type => "type"
  | element => "element"
  | attributes => "attribute"
  | group => "group"
  | attributeGroup => "attributeGroup"

/-- The name as a sentence begins with it, and as it stands inside one. -/
def title : Space → String
  | type => "Type"
  | element => "Element"
  | attributes => "Attribute"
  | group => "Group"
  | attributeGroup => "Attribute group"

def noun : Space → String
  | type => "type"
  | element => "element"
  | attributes => "attribute"
  | group => "group"
  | attributeGroup => "attribute group"

end Space

/-- The canonical name of the type that something belongs to; there is none before names are
reserved. -/
abbrev Owner := Option String

def Owner.text (owner : Owner) : String := owner.getD "None"

structure Place where
  /-- The name, the reference or the tag of the part. -/
  label : String
  line : Nat
  owner : Owner
  uri : String
  file : String
  deriving DecidableEq, Repr

inductive ModelFault where
  | invalidMinimum (written : String)
  | invalidMaximum (written : String)
  | reversedRange (max min : Nat)
  | namelessElement
  | groupWithoutReference
  | circularGroup (name : String)
  | elementTypes (name first second : String)
  | invalidUse (written : String)
  | namelessAttribute
  | attributeTypes (name : String)
  | circularAttributeGroup (name : String)
  deriving DecidableEq, Repr

namespace ModelFault

def message : ModelFault → String
  | invalidMinimum written => "Invalid minOccurs '" ++ written ++ "'"
  | invalidMaximum written => "Invalid maxOccurs '" ++ written ++ "'"
  | reversedRange max min =>
    "maxOccurs (" ++ toString max ++ ") is less than minOccurs (" ++ toString min ++ ")"
  | namelessElement => "Element particle has neither name nor ref"
  | groupWithoutReference => "Local xs:group without ref"
  | circularGroup name => "Circular model group reference '" ++ name ++ "'"
  | elementTypes name first second =>
    "Element '" ++ name ++ "' is declared twice with different types (" ++ first ++ " and "
      ++ second ++ ")"
  | invalidUse written => "Invalid attribute use '" ++ written ++ "'"
  | namelessAttribute => "Attribute has neither name nor ref"
  | attributeTypes name => "Attribute '" ++ name ++ "' is declared twice with different types"
  | circularAttributeGroup name => "Circular attribute group reference '" ++ name ++ "'"

def suggestion : ModelFault → String
  | namelessElement => "Add a name or a ref attribute to the element"
  | circularGroup _ => "Break the cycle between the xs:group definitions"
  | elementTypes _ _ _ => "Give the elements distinct names or the same type"
  | invalidUse _ => "Use one of: required, optional, prohibited"
  | _ => "Fix the content model of the type"

end ModelFault

inductive Fault where
  /-- The text of a location is needed and was not given. -/
  | notSupplied (location : String) (referencedBy : Option String)
  | malformedText (cause : String) (line : Nat) (location : String) (referencedBy : Option String)
  /-- The entry document is neither a service description nor a schema. -/
  | foreignEntry (tag uri location : String)
  | notSchema (tag uri location referencedBy : String)
  | duplicateDeclaration (space : Space) (name : QName) (first second : String)
  | unboundPrefix (pfx reference : String) (referencedBy : Option String) (file : String)
  | undeclared (space : Space) (name : QName) (referencedBy : Option String) (file : String)
  | nameClash (canonical holder : String) (held name : QName)
  | model (fault : ModelFault) (place : Place)
  | circularSimpleType (name : QName) (file : String)
  /-- A simple type is derived from a complex one. -/
  | complexOrigin (owner : Owner) (origin uri file : String)
  | noDerivation (tag : String) (owner : Owner) (uri file : String)
  | noBase (tag : String) (owner : Owner) (uri file : String)
  /-- Complex content is derived from a simple type. -/
  | simpleBase (base : String) (owner : Owner) (uri file : String)
  | circularDerivation (chain : List String) (name : String) (uri : Option String)
  | redeclared (member : String) (derived base : Owner) (inherited declared : String)
      (uri : Option String)
  /-- Types without names are nested in one another without end. -/
  | endlessNesting (owner : Owner) (uri file : String)
  deriving DecidableEq, Repr

namespace Fault

def kind : Fault → String
  | notSupplied .. | malformedText .. | foreignEntry .. | notSchema .. => "schema-set"
  | duplicateDeclaration .. | nameClash .. => "ambiguous-name-collision"
  | unboundPrefix .. | undeclared .. => Diagnostic.unresolvedKind
  | _ => "malformed-content-model"

def message : Fault → String
  | notSupplied location _ => "Document '" ++ location ++ "' was not supplied"
  | malformedText cause line _ _ =>
    "Malformed XML: " ++ cause ++ " (line " ++ toString line ++ ")"
  | foreignEntry tag _ _ =>
    "Not a WSDL 1.1 or XML Schema document: root element is '" ++ tag ++ "'"
  | notSchema _ _ location _ => "Document '" ++ location ++ "' is not an XML Schema"
  | duplicateDeclaration space name _ _ =>
    "Duplicate " ++ space.name ++ " declaration '" ++ name.localPart ++ "'"
  | unboundPrefix pfx _ _ _ => "Namespace prefix '" ++ pfx ++ "' is not bound"
  | undeclared space name _ _ =>
    space.title ++ " '" ++ name.localPart ++ "' is not declared in namespace '"
      ++ name.namespaceText ++ "'"
  | nameClash canonical _ held name =>
    "Canonical name '" ++ canonical ++ "' is claimed by both " ++ held.key ++ " and " ++ name.key
  | model fault place =>
    fault.message ++ " in '" ++ place.owner.text ++ "'"
      ++ (if place.line == 0 then "" else " (line " ++ toString place.line ++ ")")
  | circularSimpleType name _ =>
    "Circular simple type derivation through '" ++ name.localPart ++ "'"
  | complexOrigin owner origin _ _ =>
    "Simple type '" ++ owner.text ++ "' derives from complex type '" ++ origin ++ "'"
  | noDerivation tag owner _ _ =>
    "xs:" ++ tag ++ " of '" ++ owner.text ++ "' has neither extension nor restriction"
  | noBase tag owner _ _ => "xs:" ++ tag ++ " without base in '" ++ owner.text ++ "'"
  | simpleBase base owner _ _ =>
    "complexContent base '" ++ base ++ "' of '" ++ owner.text ++ "' is not a complex type"
  | circularDerivation chain _ _ => "Circular type derivation: " ++ " -> ".intercalate chain
  | redeclared member derived base inherited declared _ =>
    "'" ++ derived.text ++ "' redeclares '" ++ member ++ "' inherited from '" ++ base.text
      ++ "' with a different type (" ++ inherited ++ " and " ++ declared ++ ")"
  | endlessNesting owner _ _ => "Anonymous types are nested without end in '" ++ owner.text ++ "'"

def context : Fault → Context
  | notSupplied location referencedBy =>
    { file := location, referencedBy,
      suggestion := "Fetch the document and add it to sources under its absolute location" }
  | malformedText _ _ location referencedBy => { file := location, referencedBy }
  | foreignEntry tag uri location =>
    { element := tag, uri, file := location,
      suggestion := "Pass a document rooted at wsdl:definitions or xs:schema" }
  | notSchema tag uri location referencedBy =>
    { element := tag, uri, file := location, referencedBy }
  | duplicateDeclaration _ name first second =>
    { element := name.localPart, uri := name.uri, referencedBy := first, file := second,
      suggestion := "Remove one of the declarations or move it to another namespace" }
  | unboundPrefix pfx reference referencedBy file =>
    { element := reference, referencedBy, file,
      suggestion := "Declare xmlns:" ++ pfx ++ " on the schema or an enclosing element" }
  | undeclared space name referencedBy file =>
    { element := name.label, uri := name.uri, referencedBy, file,
      suggestion :=
        "Check the " ++ space.noun ++ " name and that its schema is imported" }
  | nameClash _ holder _ name =>
    { element := name.localPart, uri := name.uri, referencedBy := holder,
      suggestion := "Rename one of the declarations so their PascalCase names differ" }
  | model fault place =>
    { element := place.label, uri := place.uri, referencedBy := place.owner, file := place.file,
      suggestion := fault.suggestion }
  | circularSimpleType name file =>
    { element := name.localPart, uri := name.uri, file,
      suggestion := "Break the cycle between the simple type restrictions" }
  | complexOrigin owner origin uri file => { element := owner, uri, referencedBy := origin, file }
  | noDerivation _ owner uri file =>
    { element := owner, uri, file, suggestion := "Add an xs:extension or xs:restriction child" }
  | noBase _ owner uri file =>
    { element := owner, uri, file, suggestion := "Add a base attribute to the derivation" }
  | simpleBase base owner uri file =>
    { element := owner, uri, referencedBy := base, file,
      suggestion := "Use simpleContent to derive from a simple type" }
  | circularDerivation _ name uri =>
    { element := name, uri, suggestion := "Break the cycle in the base chain" }
  | redeclared member derived _ _ _ uri =>
    { element := member, uri, referencedBy := derived,
      suggestion :=
        "Keep the inherited type, rename the local member or derive by restriction" }
  | endlessNesting owner uri file => { element := owner, uri, file }

def diagnostic (fault : Fault) : Diagnostic := ⟨fault.kind, fault.message, fault.context⟩

end Fault

/-! ## Refusals -/

inductive Refusal where
  | fault (fault : Fault)
  | location (error : LocationError)
  | text (error : Xml.ReadError)
  | options (error : OptionsError)
  /-- A bound is written with more digits than a number is read with. -/
  | overlongNumber (digits : Nat)
  /-- The entry of a type that another one is derived from is not there. -/
  | missingType (name : String)
  /-- A name that is missing is needed for a longer one, for a text or for an order. -/
  | missingName
  /-- What a type is declared as is not known, and its namespace is needed. -/
  | missingDeclaration
  deriving Repr

def Refusal.message : Refusal → String
  | fault f => f.message
  | location e => e.message
  | text e => e.message
  | options e => e.message
  | overlongNumber digits => Text.overlongMessage (some digits)
  | missingType name => name
  | missingName => "a name is missing"
  | missingDeclaration => "a declaration is missing"

end WsdlCatalog
