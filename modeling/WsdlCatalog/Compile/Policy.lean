/-
  WsdlCatalog.Compile.Policy — what policies ask of the callers of an operation.

  Policies are attached inside an element or by reference, and may refer to each
  other in circles; each is followed once for an operation. Assertions are named by
  their tags, with the tags of the tokens inside them.
-/

import WsdlCatalog.Json
import WsdlCatalog.Text.Cut
import WsdlCatalog.Xml.Node

namespace WsdlCatalog

abbrev Policies := List (String × Xml.Node)

structure Hints where
  found : List String
  visited : List String
  deriving DecidableEq, Repr

namespace Hints

def none : Hints := ⟨[], []⟩

def add (hints : Hints) (hint : String) : Hints :=
  if hints.found.contains hint then hints else { hints with found := hints.found ++ [hint] }

end Hints

namespace Policy

def isPolicyNamespace (uri : String) : Bool := Vocabulary.policies.contains uri

def inside (definitions : Xml.Node) : Policies :=
  putAll (definitions.walk.filterMap fun node =>
    if node.tag == "Policy" && isPolicyNamespace node.uri then
      let identifier := (node.filled? (Vocabulary.clark Vocabulary.securityUtility "Id")).or
        (node.filled? "Name")
      identifier.map (·, node)
    else Option.none)

def identifier (reference : String) : String :=
  match Text.cut? '#' reference.toList with
  | some (_, rest) => String.ofList rest
  | Option.none => reference

def isOperator (tag : String) : Bool := tag == "Policy" || tag == "ExactlyOne" || tag == "All"

def addAssertion (hints : Hints) (assertion : Xml.Node) : Hints :=
  (assertion.descendants.filter fun node => node.tag.endsWith "Token").foldl
    (fun hints node => hints.add node.tag) (hints.add assertion.tag)

mutual

/-- The hints with one part of a policy; `follow` adds those of a policy that is referred to. -/
def collectPart (follow : Hints → String → Hints) (hints : Hints) : Xml.Node → Hints
  | ⟨uri, tag, attributes, bindings, children, text, line⟩ =>
    if isPolicyNamespace uri then
      if isOperator tag then collect follow hints children
      else if tag == "PolicyReference" then follow hints ((attributes.lookup "URI").getD "")
      else hints
    else addAssertion hints ⟨uri, tag, attributes, bindings, children, text, line⟩

def collect (follow : Hints → String → Hints) (hints : Hints) : List Xml.Node → Hints
  | [] => hints
  | node :: rest => collect follow (collectPart follow hints node) rest

end

/-- The hints with those of the policy that a reference names; `depth` bounds how many policies
lead to one another. -/
def follow (policies : Policies) : (depth : Nat) → Hints → String → Hints
  | 0, hints, _ => hints
  | depth + 1, hints, reference =>
    let name := identifier reference
    if name == "" || hints.visited.contains name then hints
    else
      let hints := { hints with visited := name :: hints.visited }
      match policies.lookup name with
      | some policy => collect (follow policies depth) hints policy.children
      | Option.none => hints

def addAttached (policies : Policies) (hints : Hints) (node : Xml.Node) : Hints :=
  let follow := follow policies (policies.length + 1)
  let references := Vocabulary.policies.flatMap fun uri =>
    Text.words ((node.attribute? (Vocabulary.clark uri "PolicyURIs")).getD "")
  node.children.foldl (fun hints child =>
      if !isPolicyNamespace child.uri then hints
      else if child.tag == "PolicyReference" then
        follow hints ((child.attribute? "URI").getD "")
      else if child.tag == "Policy" then collect follow hints child.children
      else hints)
    (references.foldl follow hints)

def hintsOf (policies : Policies) (nodes : List Xml.Node) : List String :=
  (nodes.foldl (addAttached policies) .none).found

end Policy

end WsdlCatalog
