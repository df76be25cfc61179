/-
  WsdlCatalog.Proofs.Body — the parts that the body of a complex type is made from.

  A complex type has simple content, or particles of its own and perhaps a base that it
  extends (`Content`). Its definition tells which, or lacks a derivation.

  Proved: the body follows from the content (`Compile.bodyOf_eq`).
-/

import WsdlCatalog.Proofs.Bare
import WsdlCatalog.Proofs.Run

namespace WsdlCatalog

inductive Content where
  /-- Simple content, derived as stated at a site. -/
  | simple (derivation : Site) (mixed : Bool)
  /-- The particles and attributes at a site, and the members of the base if it extends one. -/
  | complex (container : Site) (extending mixed : Bool)

namespace Content

def bare : Content → Content
  | simple derivation mixed => simple derivation.bare mixed
  | complex container extending mixed => complex container.bare extending mixed

def derivation? (content : Xml.Node) : Option Xml.Node :=
  (content.child? Vocabulary.xsd "extension").or (content.child? Vocabulary.xsd "restriction")

def noDerivation (owner : Owner) (site : Site) (content : Xml.Node) : Fault :=
  .noDerivation content.tag owner site.document.targetNamespace site.document.location

def ofSite (owner : Owner) (site : Site) : Except Fault Content :=
  match site.node.child? Vocabulary.xsd "simpleContent",
      site.node.child? Vocabulary.xsd "complexContent" with
  | some content, _ =>
    match derivation? content with
    | some d => .ok (.simple (site.atNode d) (Compile.isMixed site.node))
    | none => .error (noDerivation owner site content)
  | none, some content =>
    match derivation? content with
    | some d =>
      .ok (.complex (site.atNode d) (d.tag == "extension")
        (Compile.isMixed site.node || Compile.isMixed content))
    | none => .error (noDerivation owner site content)
  | none, none => .ok (.complex site false (Compile.isMixed site.node))

theorem ofSite_of_bare (owner : Owner) {s t : Site} (h : s.bare = t.bare) :
    (ofSite owner s).map bare = (ofSite owner t).map bare := by
  unfold ofSite noDerivation
  rw [Site.node_of_bare h, Site.location_of_bare h, Site.targetNamespace_of_bare h]
  split
  · split
    · exact congrArg (fun site => Except.ok (simple site _)) (Site.bare_atNode h _)
    · rfl
  · split
    · exact congrArg (fun site => Except.ok (complex site _ _)) (Site.bare_atNode h _)
    · rfl
  · exact congrArg (fun site => Except.ok (complex site _ _)) h

end Content

namespace Compile

def bodyOnBase (setting : Setting) (nested : Nested) (owner : Owner) (container : Site)
    (mixed : Bool) (base : Option String) : Compile Body := do
  let (members, frames) ← addParticles setting nested owner container .empty
  let members ← addAttributes setting owner container members
  return ⟨members, frames, base, mixed, none⟩

/-- The body of a type that extends a base or none. -/
def complexBody (setting : Setting) (nested : Nested) (owner : Owner) (container : Site)
    (extending mixed : Bool) : Compile Body :=
  (if extending then extendedType setting owner container else pure none) >>=
    bodyOnBase setting nested owner container mixed

def simpleBody (setting : Setting) (owner : Owner) (derivation : Site) (mixed : Bool) :
    Compile Body := do
  let members ← addAttributes setting owner derivation .empty
  return ⟨members, [], none, mixed, some (← baseOf setting owner derivation)⟩

def Content.body (setting : Setting) (nested : Nested) (owner : Owner) : Content → Compile Body
  | .simple derivation mixed => simpleBody setting owner derivation mixed
  | .complex container extending mixed =>
    complexBody setting nested owner container extending mixed

theorem bodyOf_eq (setting : Setting) (nested : Nested) (owner : Owner) (site : Site) :
    bodyOf setting nested owner site =
      ofExcept (Content.ofSite owner site) >>= Content.body setting nested owner := by
  unfold bodyOf Content.ofSite derivationOf Content.derivation?
  dsimp only [Site.atNode]
  cases site.node.child? Vocabulary.xsd "simpleContent" with
  | some content =>
    dsimp only
    cases (content.child? Vocabulary.xsd "extension").or
      (content.child? Vocabulary.xsd "restriction") <;> rfl
  | none =>
    cases site.node.child? Vocabulary.xsd "complexContent" with
    | some content =>
      dsimp only
      cases (content.child? Vocabulary.xsd "extension").or
        (content.child? Vocabulary.xsd "restriction") with
      | none => rfl
      | some d =>
        simp only [pure_bind, ofExcept, Content.body, complexBody]
        split <;> rfl
    | none => rfl

end Compile

end WsdlCatalog
