/-
  WsdlCatalog.Content.AttributeSite — the attributes of a complex type where they are
  declared.

  A reference to an attribute group is replaced by what the group declares. Groups
  must not contain themselves.
-/

import WsdlCatalog.Content.Particle

namespace WsdlCatalog

inductive AttributeStep where
  | declared (site : Site)
  | unresolved (fault : Fault) (key : String)
  | broken (fault : Fault)
  deriving Repr

namespace AttributeStep

def ofGroup (declarations : Declarations) (owner : Owner) (openGroups : List QName)
    (expand : Declaration → List AttributeStep) (site : Site) : List AttributeStep :=
  match site.node.filled? "ref" with
  | none => []
  | some reference =>
    match Particle.declarationOf declarations .attributeGroup owner reference site with
    | .error (fault, key) => [unresolved fault key]
    | .ok d =>
      if openGroups.contains d.name then
        [broken (site.modelFault owner (.circularAttributeGroup d.name.localPart))]
      else expand d

/-- The attributes that stand in a definition; `group` gives those of group references. -/
def ofSite (group : Site → List AttributeStep) (container : Site) : List AttributeStep :=
  (container.node.childrenIn Vocabulary.xsd []).flatMap fun node =>
    match node.tag with
    | "attribute" => [declared (container.atNode node)]
    | "attributeGroup" => group (container.atNode node)
    | _ => []

/-- The attributes of a group; `depth` bounds how deep groups nest. -/
def expandGroup (declarations : Declarations) (owner : Owner) :
    (depth : Nat) → (openGroups : List QName) → Declaration → List AttributeStep
  | 0, _, d => [broken (d.site.modelFault owner (.circularAttributeGroup d.name.localPart))]
  | depth + 1, openGroups, d =>
    let groups := d.name :: openGroups
    ofSite (ofGroup declarations owner groups (expandGroup declarations owner depth groups)) d.site

def ofContainer (declarations : Declarations) (owner : Owner) (container : Site) :
    List AttributeStep :=
  let depth := (declarations.inSpace .attributeGroup).length + 1
  ofSite (ofGroup declarations owner [] (expandGroup declarations owner depth [])) container

end AttributeStep

end WsdlCatalog
