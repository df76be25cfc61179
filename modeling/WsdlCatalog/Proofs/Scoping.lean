/-
  WsdlCatalog.Proofs.Scoping — prefixes in scope, and what references without a prefix mean.

  A prefix that is bound at an element was declared there or at an element around it, and means
  what the nearest of these declarations says (`Builds.lookup`). The empty prefix is the default
  namespace. It can be undeclared, which also is a declaration, of no namespace.

  Proved, of every element of a document and every reference without a prefix: it means a name
  in the default namespace by the nearest declaration, and in the target namespace if there is
  no declaration at all, where it so finds what the document declares
  (`Xml.parse_meansUnprefixed`). Where the nearest declaration undeclares the default namespace
  the name is in no namespace, and nothing of the document is found
  (`Xml.undeclaredDefault_lost`).
-/

import WsdlCatalog.Proofs.Assembly
import WsdlCatalog.Proofs.Declared
import WsdlCatalog.Proofs.OneTree
import WsdlCatalog.Proofs.Table

namespace WsdlCatalog

namespace Xml

/-! ## The nearest declaration -/

/-- What attributes declare a prefix to be, if one of them declares it: a namespace or none. -/
def declares? (attributes : List (String × String)) (pfx : String) : Option (Option String) :=
  attributes.reverse.findSome? fun x =>
    if declaredPrefix? x.1 = some pfx then some (if x.2 == "" then none else some x.2) else none

def Item.isElement : Item → Bool
  | .element _ _ _ _ => true
  | .chars _ => false

def elements (items : List Item) : List Item := items.filter Item.isElement

/-- What a prefix is declared to be at the element that the positions lead to, or else at the nearest
element around it that declares it. -/
def Item.nearest? (pfx : String) : List Nat → Item → Option (Option String)
  | _, .chars _ => none
  | [], .element _ _ attributes _ => declares? attributes pfx
  | i :: path, .element _ _ attributes content =>
    ((elements content)[i]?.bind (nearest? pfx path)).or (declares? attributes pfx)

/-- An attribute that declares a prefix binds it, and no other one. -/
theorem OpenTag.lookup_add {line : Nat} {tag tag' : OpenTag} {name value pfx : String}
    (h : tag.add line name value = .ok tag') :
    tag'.bindings.lookup pfx = (declares? [(name, value)] pfx).or (tag.bindings.lookup pfx) := by
  unfold OpenTag.add at h
  unfold declares?
  rw [List.reverse_singleton, List.findSome?_singleton]
  split at h
  · rename_i declared hd
    split at h
    · cases h
      by_cases same : declared = pfx
      · subst same
        rw [if_pos hd, Option.some_or]
        exact lookup_put _ _ _
      · rw [if_neg (fun he => same (Option.some.inj (hd.symm.trans he))), Option.none_or]
        exact lookup_put_of_ne (Ne.symm same) _ _
    · cases h
  · rename_i hd
    cases h
    rw [if_neg (hd ▸ (Option.some_ne_none pfx).symm), Option.none_or]

theorem declares?_cons (x : String × String) (others : List (String × String)) (pfx : String) :
    declares? (x :: others) pfx = (declares? others pfx).or (declares? [x] pfx) := by
  unfold declares?
  rw [List.reverse_cons, List.findSome?_append, List.reverse_singleton]

theorem OpenTag.lookup_addAll {line : Nat} {attributes : List (String × String)} {tag whole : OpenTag}
    {pfx : String} (h : tag.addAll line attributes = .ok whole) :
    whole.bindings.lookup pfx = (declares? attributes pfx).or (tag.bindings.lookup pfx) := by
  unfold OpenTag.addAll at h
  induction attributes generalizing tag with
  | nil =>
    cases h
    rfl
  | cons x others ih =>
    rw [List.foldlM_cons] at h
    cases added : tag.add line x.1 x.2 with
    | error e =>
      rw [added] at h
      cases h
    | ok tag' =>
      rw [added] at h
      rw [ih h, OpenTag.lookup_add added, declares?_cons x others, Option.or_assoc]

/-- A prefix is bound as the element declares it, and otherwise as it is around it. -/
theorem Node.OfAttributes.lookup {scope : Bindings} {line : Nat} {name pfx : String}
    {attributes : List (String × String)} {node : Node}
    (made : Node.OfAttributes scope line name attributes node) :
    node.bindings.lookup pfx = (declares? attributes pfx).or (scope.lookup pfx) := by
  cases made with
  | mk declares => exact OpenTag.lookup_addAll declares

/-- Each element among items builds its node by itself. -/
theorem Builds.each {scope : Bindings} {items : List Item} {nodes : List Node} {text : List Char}
    (h : Builds scope items nodes text) :
    List.Forall₂ (fun item node => Builds scope [item] [node] []) (elements items) nodes := by
  induction h with
  | nil => exact .nil
  | chars _ ih => exact ih
  | element made inside _ _ ih => exact .cons (.element made inside .nil) ih

/-- A child is built from the element at its position, in the same scope. -/
theorem Builds.child {scope : Bindings} {items : List Item} {nodes : List Node} {text : List Char}
    (h : Builds scope items nodes text) {i : Nat} {node : Node} (hi : nodes[i]? = some node) :
    ∃ item, (elements items)[i]? = some item ∧ Builds scope [item] [node] [] := by
  obtain ⟨-, none'⟩ | ⟨item, child, there, there', built⟩ := rel_cases (rel_getElem? h.each i)
  · cases none'.symm.trans hi
  · obtain rfl := Option.some.inj (there'.symm.trans hi)
    exact ⟨item, there, built⟩

/-- The bindings of an element are the nearest declarations. The induction is on the way from the
outermost element to it. -/
theorem Builds.lookup (path : List Nat) {scope : Bindings} {item : Item} {root node : Node}
    {text : List Char} {pfx : String} (h : Builds scope [item] [root] text)
    (there : root.at? path = some node) :
    node.bindings.lookup pfx = (item.nearest? pfx path).or (scope.lookup pfx) := by
  induction path generalizing scope item root text with
  | nil =>
    obtain rfl := Option.some.inj there
    cases h with
    | chars h => cases h
    | element made => exact made.lookup
  | cons i path ih =>
    cases h with
    | chars h => cases h
    | @element _ _ _ attributes content _ own children _ _ _ made inside =>
      rw [Node.at?] at there
      dsimp only at there
      split at there
      · rename_i child hc
        obtain ⟨item, hi, built⟩ := inside.child hc
        rw [ih built there, made.lookup, Item.nearest?, hi, Option.bind_some, Option.or_assoc]
      · cases there

end Xml

/-! ## References without a prefix -/

/-- What a reference without a prefix means at an element of a document that the positions lead to. -/
structure MeansUnprefixed (document : Xml.Item) (path : List Nat) (site : Site)
    (reference localPart : String) : Prop where
  declared : ∀ uri, document.nearest? "" path = some (some uri) →
    Reference.meaning reference site = .ok ⟨some uri, localPart⟩
  undeclared : document.nearest? "" path = none →
    Reference.meaning reference site = .ok ⟨some site.document.targetNamespace, localPart⟩
  /-- The nearest declaration is one of no namespace. -/
  removed : document.nearest? "" path = some none →
    Reference.meaning reference site = .ok ⟨none, localPart⟩
  /-- What the document declares is found from where no default namespace is declared. -/
  found : document.nearest? "" path = none → ∀ set declarations, site.document ∈ set.documents →
    Declarations.ofSchemaSet set = .ok declarations → ∀ child ∈ site.document.root.children,
    ∀ space d, Declarations.ofNode? site.document child = some (space, d) →
      d.name.localPart = localPart →
      ∃ name, Reference.meaning reference site = .ok name ∧ declarations.lookup space name = some d

theorem Reference.meaning_unprefixed {reference localPart : String} {site : Site}
    (h : divide (Text.trim reference) = (none, localPart)) : meaning reference site
      = .ok ⟨(site.node.bindings.lookup "").getD (some site.document.targetNamespace), localPart⟩ := by
  unfold meaning
  rw [h]
  dsimp only
  cases site.node.bindings.lookup "" <;> rfl

/-- A declaration of a document is in its target namespace, and is found there. -/
theorem Declarations.lookup_of_ofNode? {set : SchemaSet} {declarations : Declarations}
    {document : SchemaDocument} {child : Xml.Node} {space : Space} {d : Declaration}
    (h : ofSchemaSet set = .ok declarations) (hd : document ∈ set.documents)
    (hc : child ∈ document.root.children) (declares : ofNode? document child = some (space, d)) :
    declarations.lookup space ⟨some document.targetNamespace, d.name.localPart⟩ = some d := by
  obtain ⟨distinct, entries⟩ := ofSchemaSet_eq_ok.mp h
  have listed : (space, d) ∈ declarations.entries := by
    rw [entries]
    exact List.mem_flatMap.mpr ⟨document, hd, List.mem_filterMap.mpr ⟨child, hc, declares⟩⟩
  have name : d.name = ⟨some document.targetNamespace, d.name.localPart⟩ := by
    unfold ofNode? at declares
    split at declares
    · split at declares
      · cases declares
        rfl
      · cases declares
    · cases declares
  rw [← name]
  exact lookup_of_mem (entries ▸ distinct) listed

namespace Xml

/-- **A reference without a prefix means a name in the default namespace that is in scope, or in the
target namespace if none was declared.** An undeclared default namespace is no namespace. -/
theorem parse_meansUnprefixed {octets : List UInt8} {root : Node} (h : Node.parse octets = .ok root) :
    ∃ document, (∀ other, Writes octets other ↔ other = document) ∧
      ∀ path node, root.at? path = some node → ∀ (owner : SchemaDocument) (reference localPart : String),
        Reference.divide (Text.trim reference) = (none, localPart) →
        MeansUnprefixed document path ⟨node, owner⟩ reference localPart := by
  obtain ⟨document, written, built⟩ := parse_builds h
  refine ⟨document, written, fun path node there owner reference localPart unprefixed => ?_⟩
  have meaning : Reference.meaning reference ⟨node, owner⟩
      = .ok ⟨(document.nearest? "" path).getD (some owner.targetNamespace), localPart⟩ := by
    rw [Reference.meaning_unprefixed unprefixed, built.lookup path there]
    exact congrArg (fun found : Option (Option String) =>
      Except.ok (⟨found.getD (some owner.targetNamespace), localPart⟩ : QName)) (Option.or_none)
  refine ⟨fun uri nearest => ?_, fun nearest => ?_, fun nearest => ?_, fun nearest => ?_⟩
  · rw [meaning, nearest, Option.getD_some]
  · rw [meaning, nearest, Option.getD_none]
  · rw [meaning, nearest, Option.getD_some]
  · rintro set declarations hd hs child hc space d declares rfl
    rw [meaning, nearest, Option.getD_none]
    exact ⟨_, rfl, Declarations.lookup_of_ofNode? hs hd hc declares⟩

/-! ## A default namespace that is undeclared -/

/-- A schema with a type, and with an element of this type that undeclares the default namespace. -/
def undeclaring : List UInt8 :=
  SchemaSet.octetsOf ("<xs:schema xmlns:xs='http://www.w3.org/2001/XMLSchema' targetNamespace='urn:t'>"
    ++ "<xs:complexType name='A'/><xs:element name='e' type='A' xmlns=''/></xs:schema>")

/-- The reference to the type at the element, what is declared under its name and what is declared
under the name of the type. -/
def undeclaredReference : Option (Except String QName × Bool × Bool) := do
  let root ← (Node.parse undeclaring).toOption
  let node ← root.at? [1]
  let owner : SchemaDocument := ⟨"memory:t.xsd", "urn:t", root⟩
  let declarations ← (Declarations.ofSchemaSet ⟨"memory:t.xsd", [owner], none⟩).toOption
  return (Reference.meaning "A" ⟨node, owner⟩, (declarations.lookup .type ⟨none, "A"⟩).isSome,
    (declarations.lookup .type ⟨some "urn:t", "A"⟩).isSome)

theorem undeclaredReference_eq : undeclaredReference = some (.ok ⟨none, "A"⟩, false, true) := by
  decide +kernel

theorem undeclaring_means : ∃ root node, Node.parse undeclaring = .ok root ∧
    root.at? [1] = some node ∧ Reference.divide (Text.trim "A") = (none, "A") ∧
    ∃ document, Writes undeclaring document ∧
      MeansUnprefixed document [1] ⟨node, ⟨"memory:t.xsd", "urn:t", root⟩⟩ "A" "A" := by
  have h := undeclaredReference_eq
  unfold undeclaredReference at h
  obtain ⟨root, parsed, h⟩ := Option.bind_eq_some_iff.mp h
  obtain ⟨node, there, -⟩ := Option.bind_eq_some_iff.mp h
  have unprefixed : Reference.divide (Text.trim "A") = (none, "A") := by decide +kernel
  obtain ⟨document, written, means⟩ := parse_meansUnprefixed (ok_of_toOption parsed)
  exact ⟨root, node, ok_of_toOption parsed, there, unprefixed, document,
    (written document).mpr rfl, means [1] node there _ _ _ unprefixed⟩

/-- Where the default namespace is undeclared a reference means a name in no namespace, though the
document declares what is meant in its target namespace. -/
theorem undeclaredDefault_lost : ∃ root node declarations, Node.parse undeclaring = .ok root ∧
    root.at? [1] = some node ∧
    Declarations.ofSchemaSet ⟨"memory:t.xsd", [⟨"memory:t.xsd", "urn:t", root⟩], none⟩
      = .ok declarations ∧
    Reference.meaning "A" ⟨node, ⟨"memory:t.xsd", "urn:t", root⟩⟩ = .ok ⟨none, "A"⟩ ∧
    (declarations.lookup .type ⟨none, "A"⟩).isSome = false ∧
    (declarations.lookup .type ⟨some "urn:t", "A"⟩).isSome = true := by
  have h := undeclaredReference_eq
  unfold undeclaredReference at h
  obtain ⟨root, parsed, h⟩ := Option.bind_eq_some_iff.mp h
  obtain ⟨node, there, h⟩ := Option.bind_eq_some_iff.mp h
  obtain ⟨declarations, declares, h⟩ := Option.bind_eq_some_iff.mp h
  obtain ⟨meaning, lost, declared⟩ : _ ∧ _ ∧ _ := by
    have same := Option.some.inj h
    simpa only [Prod.mk.injEq] using same
  exact ⟨root, node, declarations, ok_of_toOption parsed, there, ok_of_toOption declares, meaning,
    lost, declared⟩

end Xml

end WsdlCatalog
