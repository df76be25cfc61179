/-
  WsdlCatalog.Schema.Assembly — the schema set that an entry document leads to.

  Schemas include, import and redefine others by location. Texts are given with
  their locations, nothing is fetched. A location is followed once, by the first
  reference to it, so circles of references come to an end. A schema without a
  target namespace takes the one of the schema that includes or redefines it.
-/

import WsdlCatalog.Schema.Document
import WsdlCatalog.Xml.Document

namespace WsdlCatalog

abbrev Sources := List (String × List UInt8)

namespace Sources

def ofEntries (entries : List (String × List UInt8)) : Except LocationError Sources := do
  return putAll (← entries.mapM fun (location, octets) => do
    return (← Location.normalize location, octets))

def read (sources : Sources) (location : String) (referencedBy : Option String) :
    Except Refusal Xml.Node :=
  match sources.lookup location with
  | none => .error (.fault (.notSupplied location referencedBy))
  | some octets =>
    match Xml.Node.parse octets with
    | .ok root => .ok root
    | .error (.malformed cause line) =>
      .error (.fault (.malformedText cause.message line location referencedBy))
    | .error e => .error (.text e)

end Sources

structure Assembly where
  visited : List String
  documents : List SchemaDocument
  deriving Repr

namespace Assembly

def isReference (node : Xml.Node) : Bool :=
  node.uri == Vocabulary.xsd
    && (node.tag == "include" || node.tag == "import" || node.tag == "redefine")

def locationOf (base reference : String) : Except Refusal String :=
  (Location.resolve base reference).mapError .location

/-- The target namespace of a schema; `inherited` is that of the schema that includes it. -/
def targetOf (schema : Xml.Node) (inherited : Option String) : String :=
  ((schema.attribute? "targetNamespace").or inherited).getD ""

/-- The assembly with what references of one schema lead to. `add` is how a schema is added, from
its location and the target namespace it may inherit. -/
def follow (sources : Sources)
    (add : Assembly → Xml.Node → String → Option String → Except Refusal Assembly)
    (location base target : String) : Assembly → List Xml.Node → Except Refusal Assembly
  | assembly, [] => .ok assembly
  | assembly, reference :: rest => do
    let assembly ← match reference.filled? "schemaLocation" with
      | none => pure assembly
      | some written => do
        let absolute ← locationOf base written
        if assembly.visited.contains absolute then pure assembly
        else
          let root ← sources.read absolute (some location)
          if root.isA Vocabulary.xsd "schema" then
            add { assembly with visited := absolute :: assembly.visited } root absolute
              (if reference.tag == "import" then none else some target)
          else .error (.fault (.notSchema root.tag root.uri absolute location))
    follow sources add location base target assembly rest

/-- The assembly with a schema and all that it leads to. References in it are relative to `base`.
`depth` bounds how long a way of references is. -/
def add (sources : Sources) : (depth : Nat) → Assembly → Xml.Node → (location base : String) →
    Option String → Except Refusal Assembly
  | 0, assembly, schema, location, _, inherited =>
    .ok { assembly with
      documents := assembly.documents ++ [⟨location, targetOf schema inherited, schema⟩] }
  | depth + 1, assembly, schema, location, base, inherited =>
    let target := targetOf schema inherited
    follow sources (fun assembly root absolute inherited =>
        add sources depth assembly root absolute absolute inherited)
      location base target
      { assembly with documents := assembly.documents ++ [⟨location, target, schema⟩] }
      (schema.children.filter isReference)

/-- The assembly with the schemas inside a service description, numbered from `index`. -/
def addInline (sources : Sources) (location : String) :
    Assembly → (index : Nat) → List Xml.Node → Except Refusal Assembly
  | assembly, _, [] => .ok assembly
  | assembly, index, schema :: rest => do
    let assembly ← add sources (sources.length + 1) assembly schema
      (location ++ "#schema" ++ toString index) location none
    addInline sources location assembly (index + 1) rest

end Assembly

namespace SchemaSet

/-- The schema set that the document at `location` leads to. -/
def assemble (location : String) (entries : List (String × List UInt8)) :
    Except Refusal SchemaSet := do
  let sources ← (Sources.ofEntries entries).mapError .location
  let location ← (Location.normalize location).mapError .location
  let root ← sources.read location none
  if root.isA Vocabulary.wsdl "definitions" then
    let schemas := match root.child? Vocabulary.wsdl "types" with
      | some types => types.childrenOf Vocabulary.xsd "schema"
      | none => []
    let assembly ← Assembly.addInline sources location ⟨[location], []⟩ 0 schemas
    return ⟨location, assembly.documents, some root⟩
  else if root.isA Vocabulary.xsd "schema" then
    let assembly ← Assembly.add sources (sources.length + 1) ⟨[location], []⟩ root location
      location none
    return ⟨location, assembly.documents, none⟩
  else .error (.fault (.foreignEntry root.tag root.uri location))

def assembledMessage (set : SchemaSet) : String :=
  "Assembled " ++ toString set.documents.length ++ " schema documents from " ++ set.location

end SchemaSet

end WsdlCatalog
