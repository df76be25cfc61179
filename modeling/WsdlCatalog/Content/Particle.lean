/-
  WsdlCatalog.Content.Particle — the content model of a complex type as a tree.

  A particle is an element or a group of particles with a range. A reference to a
  model group is replaced by what the group declares, with the range of the
  reference. Groups must not contain themselves. References that mean nothing and
  parts that are faulty have places of their own in the tree, because what comes
  before them is compiled first.
-/

import WsdlCatalog.Content.Range
import WsdlCatalog.Schema.Declarations

namespace WsdlCatalog

inductive Compositor where
  | sequence
  | all
  deriving DecidableEq, Repr

inductive Particle where
  | element (range : Range) (site : Site)
  | group (compositor : Compositor) (range : Range) (children : List Particle)
  | choice (range : Range) (branches : List Particle)
  /-- A wildcard, which no property stands for. -/
  | wildcard
  /-- A reference to a model group that is not declared, and the key it is known by. -/
  | unresolved (fault : Fault) (key : String)
  /-- A part that is refused. -/
  | broken (refusal : Refusal)
  deriving Repr

namespace Particle

/-- What a reference to a declaration in `space` leads to: the declaration, or the fault of a
reference that means nothing and the key that it is known by. -/
def declarationOf (declarations : Declarations) (space : Space) (owner : Owner)
    (reference : String) (site : Site) : Except (Fault × String) Declaration :=
  match Reference.qualify reference site owner with
  | .error fault => .error (fault, reference)
  | .ok name =>
    match declarations.lookup space name with
    | some d => .ok d
    | none => .error (.undeclared space name owner site.document.location, name.key)

/-- The particle of an element of a content model, if the range stated there is one. -/
def ranged (owner : Owner) (site : Site) (particle : Range → Particle) : Particle :=
  match Range.ofNode site.node with
  | .ok range => particle range
  | .error error => broken (error.refusal site owner)

def ofElement (owner : Owner) (site : Site) : Particle :=
  ranged owner site fun range =>
    if (site.node.filled? "ref").isSome || (site.node.filled? "name").isSome then
      element range site
    else broken (.fault (site.modelFault owner .namelessElement))

/-- A reference to a model group. `openGroups` are the groups around it, and `expand` gives the
particle of a group. -/
def ofGroup (declarations : Declarations) (owner : Owner) (openGroups : List QName)
    (expand : Declaration → Range → Particle) (site : Site) : Particle :=
  match site.node.filled? "ref" with
  | none => broken (.fault (site.modelFault owner .groupWithoutReference))
  | some reference =>
    match declarationOf declarations .group owner reference site with
    | .error (fault, key) => unresolved fault key
    | .ok d =>
      if openGroups.contains d.name then
        broken (.fault (site.modelFault owner (.circularGroup d.name.localPart)))
      else ranged owner site (expand d)

/-- Annotations and elements of other namespaces are no part of a content model. -/
def isPart (node : Xml.Node) : Bool := node.uri == Vocabulary.xsd && node.tag != "annotation"

mutual

/-- The particle of one element of a content model; `group` gives those of group references. -/
def ofNode (owner : Owner) (document : SchemaDocument) (group : Site → Particle) :
    Xml.Node → Particle
  | ⟨uri, tag, attributes, bindings, children, text, line⟩ =>
    let site : Site := ⟨⟨uri, tag, attributes, bindings, children, text, line⟩, document⟩
    match tag with
    | "element" => ofElement owner site
    | "sequence" =>
      let parts := ofNodes owner document group children
      ranged owner site (Particle.group .sequence · parts)
    | "all" =>
      let parts := ofNodes owner document group children
      ranged owner site (Particle.group .all · parts)
    | "choice" =>
      let parts := ofNodes owner document group children
      ranged owner site (choice · parts)
    | "group" => group site
    | _ => wildcard

def ofNodes (owner : Owner) (document : SchemaDocument) (group : Site → Particle) :
    List Xml.Node → List Particle
  | [] => []
  | node :: rest =>
    if isPart node then
      ofNode owner document group node :: ofNodes owner document group rest
    else ofNodes owner document group rest

end

/-- The particle of a model group with the range of the reference to it; `depth` bounds how deep
groups nest. -/
def expandGroup (declarations : Declarations) (owner : Owner) :
    (depth : Nat) → (openGroups : List QName) → Declaration → Range → Particle
  | 0, _, d, _ => broken (.fault (d.site.modelFault owner (.circularGroup d.name.localPart)))
  | depth + 1, openGroups, d, range =>
    let groups := d.name :: openGroups
    group .sequence range
      (ofNodes owner d.site.document
        (ofGroup declarations owner groups (expandGroup declarations owner depth groups))
        (d.site.node.childrenIn Vocabulary.xsd ["sequence", "choice", "all"]))

/-- The particles of a type: what stands in its definition, or in its derivation from another. -/
def ofContainer (declarations : Declarations) (owner : Owner) (container : Site) :
    List Particle :=
  let depth := (declarations.inSpace .group).length + 1
  ofNodes owner container.document
    (ofGroup declarations owner [] (expandGroup declarations owner depth []))
    (container.node.childrenIn Vocabulary.xsd ["sequence", "choice", "all", "group"])

end Particle

end WsdlCatalog
