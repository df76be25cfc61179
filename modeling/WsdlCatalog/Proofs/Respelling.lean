/-
  WsdlCatalog.Proofs.Respelling — schema sets that differ in their prefixes.

  Prefixes stand for namespaces, and a schema set can be respelt with others. Its elements keep
  their names, texts and attributes, apart from references to declarations: these keep their
  local parts, and mean in their new places what they meant before (`SchemaSet.Respelt`). How
  many bindings are in scope, and where, may change.

  Proved: what is read of elements is the same, or respelt as well, and so are the declarations
  of a schema set (`Setting.respelt_ofSchemaSet`).
-/

import Mathlib.Data.List.Forall2
import WsdlCatalog.Compile.Interface
import WsdlCatalog.Proofs.ArrayItems
import WsdlCatalog.Proofs.Declared

namespace WsdlCatalog

theorem rel_head {α β : Type} {R : α → β → Prop} {as : List α} {bs : List β}
    (h : List.Forall₂ R as bs) : Option.Rel R as.head? bs.head? := by
  cases h with
  | nil => exact .none
  | cons h _ => exact .some h

/-! ## References -/

namespace Reference

def attributes : List String :=
  ["type", "ref", "base", "itemType", Vocabulary.clark Vocabulary.wsdl "arrayType", "message",
    "element"]

/-- Two references, each at an element, mean one name, or neither means one. -/
def Same (s t : Site) (v w : String) : Prop := (meaning v s).toOption = (meaning w t).toOption

/-- Two references, each at an element, have one local part and mean the same. -/
structure Respelt (s t : Site) (v w : String) : Prop where
  localPart : localPart v = localPart w
  same : Same s t v w

/-- Two values of an attribute that refers to declarations. An empty one does not refer to anything,
and what others mean counts for elements of the namespace that is read. -/
structure Alike (reads : String) (s t : Site) (v w : String) : Prop where
  empty : v = "" ↔ w = ""
  localPart : Reference.localPart v = Reference.localPart w
  same (hr : s.node.uri = reads) (hv : v ≠ "") : Same s t v w

/-- Two attributes of one name with one value, or with references that are alike. -/
inductive AttributeAlike (reads : String) (s t : Site) : String × String → String × String → Prop where
  | plain {name value : String} (other : name ∉ attributes) :
    AttributeAlike reads s t (name, value) (name, value)
  | reference {name v w : String} (here : name ∈ attributes) (alike : Alike reads s t v w) :
    AttributeAlike reads s t (name, v) (name, w)

variable {s t : Site} {v w : String} {name : QName}

theorem Same.ok (h : Same s t v w) (hv : meaning v s = .ok name) : meaning w t = .ok name := by
  unfold Same at h
  rw [hv] at h
  cases hw : meaning w t with
  | ok other =>
    rw [hw] at h
    exact congrArg _ (Option.some.inj h).symm
  | error pfx =>
    rw [hw] at h
    cases h

theorem Same.error (h : Same s t v w) {pfx : String} (hv : meaning v s = .error pfx) :
    ∃ pfx', meaning w t = .error pfx' := by
  unfold Same at h
  rw [hv] at h
  cases hw : meaning w t with
  | ok other =>
    rw [hw] at h
    cases h
  | error pfx' => exact ⟨pfx', rfl⟩

/-- Arrays that are written with other prefixes have items of one type. -/
theorem Same.items (h : Same s t v w) : Same s t (Compile.arrayItem v) (Compile.arrayItem w) := by
  unfold Same
  rw [Compile.meaning_arrayItem, Compile.meaning_arrayItem]
  cases hv : meaning v s with
  | ok name => rw [h.ok hv]
  | error pfx =>
    obtain ⟨pfx', hw⟩ := h.error hv
    rw [hw]
    rfl

end Reference

/-! ## Elements -/

/-- Two elements, each in a document, that are the same up to their bindings and references. -/
inductive Xml.Node.Respelt (reads : String) (d e : SchemaDocument) : Xml.Node → Xml.Node → Prop where
  | intro {m n : Xml.Node} (uri : m.uri = n.uri) (tag : m.tag = n.tag) (text : m.text = n.text)
    (plain : ∀ name, name ∉ Reference.attributes → m.attribute? name = n.attribute? name)
    (references : ∀ name, name ∈ Reference.attributes →
      Option.Rel (Reference.Alike reads ⟨m, d⟩ ⟨n, e⟩) (m.attribute? name) (n.attribute? name))
    (children : List.Forall₂ (Respelt reads d e) m.children n.children) : Respelt reads d e m n

namespace Xml.Node

variable {reads : String} {d e : SchemaDocument} {m n : Xml.Node}

namespace Respelt

/-- Elements whose attributes are respelt one by one. -/
theorem ofAttributes (uri : m.uri = n.uri) (tag : m.tag = n.tag) (text : m.text = n.text)
    (attributes : List.Forall₂ (Reference.AttributeAlike reads ⟨m, d⟩ ⟨n, e⟩) m.attributes
      n.attributes)
    (children : List.Forall₂ (Respelt reads d e) m.children n.children) : Respelt reads d e m n := by
  have values : ∀ name, Option.Rel
      (fun v w => Reference.AttributeAlike reads ⟨m, d⟩ ⟨n, e⟩ (name, v) (name, w))
      (m.attribute? name) (n.attribute? name) := by
    intro name
    unfold attribute?
    generalize m.attributes = as, n.attributes = bs at attributes
    induction attributes with
    | nil => exact .none
    | @cons x y _ _ alike _ ih =>
      have same : x.1 = y.1 := by cases alike <;> rfl
      rw [List.lookup_cons, List.lookup_cons, ← same]
      split
      · rename_i here
        rw [eq_of_beq here]
        nth_rewrite 2 [same]
        exact .some alike
      · exact ih
  refine .intro uri tag text (fun name hn => ?_) (fun name hn => ?_) children
  · rcases rel_cases (values name) with ⟨hv, hw⟩ | ⟨v, w, hv, hw, alike⟩
    · rw [hv, hw]
    · rw [hv, hw]
      cases alike with
      | plain => rfl
      | reference here => exact absurd here hn
  · rcases rel_cases (values name) with ⟨hv, hw⟩ | ⟨v, w, hv, hw, alike⟩
    · rw [hv, hw]
      exact .none
    · rw [hv, hw]
      cases alike with
      | plain other => exact absurd hn other
      | reference _ alike => exact .some alike

variable (h : Respelt reads d e m n)

include h

theorem uri : m.uri = n.uri := by
  obtain ⟨uri, -, -, -, -, -⟩ := h
  exact uri

theorem tag : m.tag = n.tag := by
  obtain ⟨-, tag, -, -, -, -⟩ := h
  exact tag

theorem text : m.text = n.text := by
  obtain ⟨-, -, text, -, -, -⟩ := h
  exact text

theorem children : List.Forall₂ (Respelt reads d e) m.children n.children := by
  obtain ⟨-, -, -, -, -, children⟩ := h
  exact children

theorem plain (name : String) (hn : name ∉ Reference.attributes) :
    m.attribute? name = n.attribute? name := by
  obtain ⟨-, -, -, plain, -, -⟩ := h
  exact plain name hn

theorem reference {name : String} (hn : name ∈ Reference.attributes) :
    Option.Rel (Reference.Alike reads ⟨m, d⟩ ⟨n, e⟩) (m.attribute? name) (n.attribute? name) := by
  obtain ⟨-, -, -, -, references, -⟩ := h
  exact references name hn

theorem filled (name : String) (hn : name ∉ Reference.attributes) :
    m.filled? name = n.filled? name := by
  unfold filled?
  rw [h.plain name hn]

/-- References are written in both elements or in none. -/
theorem isSome_filled {name : String} (hn : name ∈ Reference.attributes) :
    (m.filled? name).isSome = (n.filled? name).isSome := by
  unfold filled?
  rcases rel_cases (h.reference hn) with ⟨hm, hn⟩ | ⟨v, w, hm, hn, alike⟩
  · rw [hm, hn]
  · rw [hm, hn]
    by_cases hv : v = ""
    · rw [hv, alike.empty.mp hv]
    · have hw := fun e => hv (alike.empty.mpr e)
      rw [Option.filter_some, Option.filter_some, if_pos (bne_iff_ne.mpr hv),
        if_pos (bne_iff_ne.mpr hw)]
      rfl

theorem childrenIn (uri : String) (tags : List String) :
    List.Forall₂ (Respelt reads d e) (m.childrenIn uri tags) (n.childrenIn uri tags) := by
  refine List.rel_filter ?_ h.children
  intro a b hab
  dsimp only
  rw [hab.uri, hab.tag]

theorem child (uri tag : String) :
    Option.Rel (Respelt reads d e) (m.child? uri tag) (n.child? uri tag) :=
  rel_head (h.childrenIn uri [tag])

theorem isSome_child (uri tag : String) : (m.child? uri tag).isSome = (n.child? uri tag).isSome := by
  rcases rel_cases (h.child uri tag) with ⟨hm, hn⟩ | ⟨_, _, hm, hn, -⟩
  · rw [hm, hn]
  · rw [hm, hn]
    rfl

theorem documentation : m.documentation? = n.documentation? := by
  have annotated := List.rel_flatMap (h.childrenIn Vocabulary.xsd ["annotation"])
    (fun _ _ hab => hab.childrenIn Vocabulary.xsd ["documentation"])
  have own := h.childrenIn Vocabulary.wsdl ["documentation"]
  unfold documentation?
  dsimp only [childrenOf]
  rw [forall₂_eq_map_iff.mp ((List.rel_append annotated own).imp fun _ _ hab => hab.text)]

end Respelt

mutual

/-- All elements below are respelt. -/
theorem respelt_walk : ∀ {m n : Xml.Node}, Respelt reads d e m n →
    List.Forall₂ (Respelt reads d e) m.walk n.walk
  | ⟨_, _, _, _, children, _, _⟩, ⟨_, _, _, _, children', _, _⟩, h => by
    unfold walk
    exact .cons h (respelt_walkAll children h.children)

theorem respelt_walkAll : ∀ (ms : List Xml.Node) {ns : List Xml.Node},
    List.Forall₂ (Respelt reads d e) ms ns → List.Forall₂ (Respelt reads d e) (walkAll ms) (walkAll ns)
  | [], _, .nil => .nil
  | _ :: rest, _, .cons h hs => by
    unfold walkAll
    exact List.rel_append (respelt_walk h) (respelt_walkAll rest hs)

end

end Xml.Node

/-! ## Sites -/

/-- Two elements of the namespace that is read, which are the same up to their bindings and
references. -/
structure Site.Respelt (reads : String) (s t : Site) : Prop where
  node : Xml.Node.Respelt reads s.document t.document s.node t.node
  uri : s.node.uri = reads
  targetNamespace : s.document.targetNamespace = t.document.targetNamespace

/-- The children in the namespace that is read. -/
theorem Xml.Node.Respelt.sites {reads : String} {d e : SchemaDocument} {m n : Xml.Node}
    (h : Xml.Node.Respelt reads d e m n) (hd : d.targetNamespace = e.targetNamespace)
    (tags : List String) :
    List.Forall₂ (fun a b => Site.Respelt reads ⟨a, d⟩ ⟨b, e⟩) (m.childrenIn reads tags)
      (n.childrenIn reads tags) := by
  refine ((List.forall₂_and_left _ _).mpr ⟨fun a ha => ?_, h.childrenIn reads tags⟩).imp
    fun a b hab => ⟨hab.2, hab.1, hd⟩
  obtain ⟨-, hu⟩ := List.mem_filter.mp ha
  exact eq_of_beq (Bool.and_eq_true_iff.mp hu).1

namespace Site.Respelt

variable {reads : String} {s t : Site} (h : s.Respelt reads t)

include h

/-- A reference is written at both elements, or at none. -/
theorem reference (name : String) (hn : name ∈ Reference.attributes) :
    Option.Rel (Reference.Respelt s t) (s.node.filled? name) (t.node.filled? name) := by
  unfold Xml.Node.filled?
  rcases rel_cases (h.node.reference hn) with ⟨hm, hn⟩ | ⟨v, w, hm, hn, alike⟩
  · rw [hm, hn]
    exact .none
  · rw [hm, hn]
    by_cases hv : v = ""
    · rw [hv, alike.empty.mp hv]
      exact .none
    · have hw := fun e => hv (alike.empty.mpr e)
      rw [Option.filter_some, Option.filter_some, if_pos (bne_iff_ne.mpr hv),
        if_pos (bne_iff_ne.mpr hw)]
      exact .some ⟨alike.localPart, alike.same h.uri hv⟩

theorem childrenIn (tags : List String) :
    List.Forall₂ (fun m n => (s.atNode m).Respelt reads (t.atNode n))
      (s.node.childrenIn reads tags) (t.node.childrenIn reads tags) :=
  h.node.sites h.targetNamespace tags

theorem child (tag : String) :
    Option.Rel (fun m n => (s.atNode m).Respelt reads (t.atNode n))
      (s.node.child? reads tag) (t.node.child? reads tag) :=
  rel_head (h.childrenIn [tag])

end Site.Respelt

/-! ## Simple types -/

inductive SimpleOrigin.Respelt (d e : SchemaDocument) : SimpleOrigin → SimpleOrigin → Prop where
  | text : Respelt d e .text .text
  | named {v w : String} {m n : Xml.Node} (site : Site.Respelt Vocabulary.xsd ⟨m, d⟩ ⟨n, e⟩)
    (same : Reference.Same ⟨m, d⟩ ⟨n, e⟩ v w) : Respelt d e (.named v m) (.named w n)

structure SimpleDerivation.Respelt (d e : SchemaDocument) (a b : SimpleDerivation) : Prop where
  origin : SimpleOrigin.Respelt d e a.origin b.origin
  steps : a.steps = b.steps

namespace SimpleDerivation

variable {d e : SchemaDocument}

theorem Respelt.andThen {a b : SimpleDerivation} (h : Respelt d e a b) (step : SimpleStep) :
    Respelt d e (a.andThen step) (b.andThen step) :=
  ⟨h.origin, congrArg (· ++ [step]) h.steps⟩

theorem respelt_ofText : Respelt d e ofText ofText := ⟨.text, rfl⟩

theorem valuesOf_respelt {reads : String} {m n : Xml.Node} (h : Xml.Node.Respelt reads d e m n) :
    valuesOf m = valuesOf n := by
  refine forall₂_eq_map_iff.mp ((h.childrenIn Vocabulary.xsd ["enumeration"]).imp fun a b hab => ?_)
  rw [hab.plain _ (by decide)]

/-- The derivations of simple types that are respelt. -/
theorem respelt_ofNode (m : Xml.Node) : ∀ n, Site.Respelt Vocabulary.xsd ⟨m, d⟩ ⟨n, e⟩ →
    Respelt d e (ofNode m) (ofNode n) := by
  intro n h
  -- what a restriction or list begins with stands below the node
  have below : ∀ (name : String) {m' n' : Xml.Node}, name ∈ Reference.attributes →
      sizeOf m' < sizeOf m → Site.Respelt Vocabulary.xsd ⟨m', d⟩ ⟨n', e⟩ →
      Respelt d e (within name m') (within name n') := by
    intro name m' n' hn smaller site
    unfold within
    rcases rel_cases (site.reference name hn) with ⟨hm, hn⟩ | ⟨v, w, hm, hn, reference⟩
    · rw [hm, hn]
      rcases rel_cases (site.child "simpleType") with ⟨hm, hn⟩ | ⟨inner, inner', hm, hn, site⟩
      · rw [hm, hn]
        exact respelt_ofText
      · have := Nat.lt_trans (sizeOf_child_lt hm) smaller
        rw [hm, hn]
        exact respelt_ofNode inner inner' site
    · rw [hm, hn]
      exact ⟨.named site reference.same, rfl⟩
  rw [ofNode_eq, ofNode_eq]
  rcases rel_cases (h.child "restriction") with ⟨hm, hn⟩ | ⟨m', n', hm, hn, site⟩
  · rw [hm, hn]
    rcases rel_cases (h.child "list") with ⟨hm, hn⟩ | ⟨m', n', hm, hn, site⟩
    · rw [hm, hn]
      exact respelt_ofText
    · rw [hm, hn]
      exact (below "itemType" (by decide) (sizeOf_child_lt hm) site).andThen _
  · rw [hm, hn]
    have within := below "base" (by decide) (sizeOf_child_lt hm) site
    have values : valuesOf m' = valuesOf n' := valuesOf_respelt site.node
    dsimp only
    rw [values]
    split
    · exact within
    · exact within.andThen _
termination_by sizeOf m

end SimpleDerivation

/-! ## Declarations -/

structure Declaration.Respelt (d e : Declaration) : Prop where
  name : d.name = e.name
  site : d.site.Respelt Vocabulary.xsd e.site

theorem Declaration.Respelt.isSimpleType {d e : Declaration} (h : d.Respelt e) :
    d.isSimpleType = e.isSimpleType := by
  unfold Declaration.isSimpleType
  rw [h.site.node.tag]

structure SchemaDocument.Respelt (reads : String) (d e : SchemaDocument) : Prop where
  targetNamespace : d.targetNamespace = e.targetNamespace
  root : Xml.Node.Respelt reads d e d.root e.root

structure SchemaSet.Respelt (s t : SchemaSet) : Prop where
  location : s.location = t.location
  documents : List.Forall₂ (SchemaDocument.Respelt Vocabulary.xsd) s.documents t.documents
  definitions : Option.Rel (fun m n => SchemaDocument.Respelt Vocabulary.wsdl
    (Interface.ofDescription s.location m).document (Interface.ofDescription t.location n).document)
    s.definitions t.definitions

namespace Declarations

/-- The same names are declared, by elements that differ in their prefixes. -/
def Respelt (ds es : Declarations) : Prop := Aligned Declaration.Respelt ds.entries es.entries

variable {ds es ds' : Declarations} {space : Space} {d e : Declaration}

theorem Respelt.lookup (h : ds.Respelt es) (space : Space) (name : QName) :
    Option.Rel Declaration.Respelt (ds.lookup space name) (es.lookup space name) := by
  obtain ⟨entries⟩ := ds
  obtain ⟨entries'⟩ := es
  unfold Respelt at h
  unfold Declarations.lookup
  dsimp only at h ⊢
  induction h with
  | nil => exact .none
  | cons hxy _ ih =>
    rw [List.find?_cons, List.find?_cons, ← hxy.1, ← hxy.2.name]
    split
    · exact .some hxy.2
    · exact ih

theorem Respelt.inSpace (h : ds.Respelt es) (space : Space) :
    List.Forall₂ Declaration.Respelt (ds.inSpace space) (es.inSpace space) := by
  refine List.rel_filterMap ?_ h
  intro x y hxy
  dsimp only
  rw [← hxy.1]
  split
  · exact .some hxy.2
  · exact .none

theorem respelt_ofNode {d e : SchemaDocument} (hd : d.targetNamespace = e.targetNamespace)
    {m n : Xml.Node} (h : Xml.Node.Respelt Vocabulary.xsd d e m n) :
    Option.Rel (fun x y => x.1 = y.1 ∧ x.2.Respelt y.2) (ofNode? d m) (ofNode? e n) := by
  unfold ofNode?
  rw [← h.uri, ← h.tag, ← h.filled _ (by decide)]
  split
  · rename_i uri
    split
    · exact .some ⟨rfl, by rw [hd], ⟨h, eq_of_beq uri, hd⟩⟩
    · exact .none
  · exact .none

theorem respelt_declared {s t : SchemaSet} (h : s.Respelt t) :
    Aligned Declaration.Respelt (declared s) (declared t) :=
  List.rel_flatMap h.documents fun _ _ hd =>
    List.rel_filterMap (fun _ _ hn => respelt_ofNode hd.targetNamespace hn) hd.root.children

theorem respelt_ofSchemaSet {s t : SchemaSet} (h : s.Respelt t) (hs : ofSchemaSet s = .ok ds) :
    ∃ es, ofSchemaSet t = .ok es ∧ ds.Respelt es := by
  obtain ⟨nodup, entries⟩ := ofSchemaSet_eq_ok.mp hs
  have declared := respelt_declared h
  have keys : (Declarations.declared s).map key = (Declarations.declared t).map key := by
    refine forall₂_eq_map_iff.mp (declared.imp fun x y hxy => ?_)
    unfold key
    rw [hxy.1, hxy.2.name]
  refine ⟨⟨Declarations.declared t⟩, ofSchemaSet_eq_ok.mpr ⟨keys ▸ nodup, rfl⟩, ?_⟩
  unfold Respelt
  rw [entries]
  exact declared

end Declarations

namespace Setting

/-- Two settings with declarations that differ in their prefixes. -/
structure Respelt (S T : Setting) : Prop where
  options : S.options = T.options
  declarations : S.declarations.Respelt T.declarations
  nesting : S.nesting = T.nesting

variable {s t : SchemaSet} {options : Options} {S : Setting}

theorem respelt_ofSchemaSet (h : s.Respelt t) (hs : ofSchemaSet s options = .ok S) :
    ∃ T, ofSchemaSet t options = .ok T ∧ S.Respelt T := by
  obtain ⟨rfl, declarations, nesting⟩ := ofSchemaSet_eq_ok.mp hs
  obtain ⟨es, declarations', respelt⟩ := Declarations.respelt_ofSchemaSet h declarations
  have complexTypes : List.Forall₂ (fun _ _ => True)
      (s.documents.flatMap fun d => d.root.walk.filter isComplexType)
      (t.documents.flatMap fun d => d.root.walk.filter isComplexType) := by
    refine List.rel_flatMap h.documents fun d e hd => ?_
    have walk := Xml.Node.respelt_walk hd.root
    refine (List.rel_filter (fun m n hn => ?_) walk).imp fun _ _ _ => trivial
    unfold isComplexType
    dsimp only
    rw [hn.uri, hn.tag]
  refine ⟨⟨S.options, es, _⟩, ofSchemaSet_eq_ok.mpr ⟨rfl, declarations', rfl⟩, rfl, respelt, ?_⟩
  rw [nesting, complexTypes.length_eq]

end Setting

end WsdlCatalog
