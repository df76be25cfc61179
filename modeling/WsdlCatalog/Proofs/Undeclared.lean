/-
  WsdlCatalog.Proofs.Undeclared — members that refer to what nothing declares.

  A reference to an attribute that is not declared is known by the name that it means, under
  whatever prefix it is written. A reference to an element that is not declared is known by the
  text of the reference, so two of them are one member only if they are written alike, and the
  type is refused if they are not.

  Proved: what such members of the types of a catalog are called (`SchemaSet.compile_undeclared`),
  and that two prefixes of one namespace are told apart (`SchemaSet.twoPrefixes_refused`).
-/

import WsdlCatalog.Proofs.Merging

namespace WsdlCatalog

namespace Compile

variable {S : Setting} {owner : Owner} {site : Site} {reference : String} {name : QName}
  {p q : Progress} {e : Referenced}

/-! ## References -/

/-- What a reference to an element stands for that nothing declares: it is known as it is written. -/
def undeclaredElement (reference : String) : Referenced :=
  ⟨Reference.localPart reference, reference, .unresolved reference, false⟩

/-- What a reference to an attribute stands for that nothing declares: it is known by its name. The
attributes of XML itself are texts. -/
def undeclaredAttribute (options : Options) (name : QName) : Referenced :=
  if name.uri == some Vocabulary.xml then
    ⟨name.localPart, (Builtin.ref options .stringType).declared, Builtin.ref options .stringType, false⟩
  else ⟨name.localPart, name.label, .unresolved name.label, false⟩

theorem elementReference_of_undeclared (hm : Reference.meaning reference site = .ok name)
    (hd : S.declarations.lookup .element name = none)
    (hr : Runs (elementReference S reference site owner) p e q) : e = undeclaredElement reference := by
  unfold elementReference lookup at hr
  rw [qualify_of_meaning hm, pure_bind] at hr
  dsimp only at hr
  rw [hd] at hr
  simp only [runs_bind, runs_pure] at hr
  obtain ⟨_, _, ⟨_, _, -, rfl, rfl⟩, rfl, -⟩ := hr
  rfl

theorem attributeReference_of_undeclared (hm : Reference.meaning reference site = .ok name)
    (hd : S.declarations.lookup .attributes name = none)
    (hr : Runs (attributeReference S reference site owner) p e q) :
    e = undeclaredAttribute S.options name := by
  unfold attributeReference at hr
  rw [qualify_of_meaning hm, pure_bind] at hr
  unfold undeclaredAttribute
  dsimp only at hr
  split at hr
  · rename_i xml
    rw [if_pos xml]
    exact (runs_pure.mp hr).1
  · rename_i other
    rw [if_neg other]
    rw [hd] at hr
    simp only [runs_bind, runs_pure] at hr
    obtain ⟨_, _, -, rfl, -⟩ := hr
    rfl

/-- Where unresolved references are allowed, a reference to nothing stands for something. -/
theorem runs_elementReference_of_undeclared (hm : Reference.meaning reference site = .ok name)
    (hd : S.declarations.lookup .element name = none)
    (lenient : S.options.failOnUnresolved.holds = false) (owner : Owner) (p : Progress) :
    ∃ q, Runs (elementReference S reference site owner) p (undeclaredElement reference) q := by
  have reported : ∃ q, Runs (missing S .element name site owner) p () q :=
    ⟨_, runs_report.mpr ⟨lenient, rfl⟩⟩
  obtain ⟨q, hr⟩ := reported
  unfold elementReference lookup
  rw [qualify_of_meaning hm, pure_bind]
  dsimp only
  rw [hd]
  refine ⟨q, runs_bind.mpr ⟨none, q, ?_, runs_pure.mpr ⟨rfl, rfl⟩⟩⟩
  exact runs_bind.mpr ⟨(), q, hr, runs_pure.mpr ⟨rfl, rfl⟩⟩

theorem runs_attributeReference_of_undeclared (hm : Reference.meaning reference site = .ok name)
    (hd : S.declarations.lookup .attributes name = none)
    (lenient : S.options.failOnUnresolved.holds = false) (owner : Owner) (p : Progress) :
    ∃ q, Runs (attributeReference S reference site owner) p (undeclaredAttribute S.options name) q := by
  unfold attributeReference undeclaredAttribute
  rw [qualify_of_meaning hm, pure_bind]
  dsimp only
  split
  · exact ⟨p, runs_pure.mpr ⟨rfl, rfl⟩⟩
  · rw [hd]
    exact ⟨_, runs_bind.mpr ⟨(), _, runs_report.mpr ⟨lenient, rfl⟩, runs_pure.mpr ⟨rfl, rfl⟩⟩⟩

/-! ## Members -/

structure RefersTo (S : Setting) (space : Space) (site : Site) (reference : String) (name : QName) :
    Prop where
  written : site.node.filled? "ref" = some reference
  means : Reference.meaning reference site = .ok name
  undeclared : S.declarations.lookup space name = none

/-- A reference is not the one that states the items of an encoded array. -/
def NoArray (reference : String) (name : QName) : Prop :=
  Reference.localPart reference ≠ "arrayType" ∨ name.uri ≠ some Vocabulary.soapEncoding

theorem says_undeclaredElement {I : Progress → Prop} {nested : Nested} {x : Slot × Typing}
    (h : RefersTo S .element site reference name) (hs : ElementSays I S nested owner site x) :
    x = (.elements, (undeclaredElement reference).typing) := by
  obtain ⟨p, e, q, -, hr, rfl⟩ := hs
  unfold elementParticle at hr
  rw [h.written] at hr
  rw [elementReference_of_undeclared h.means h.undeclared hr]

theorem encodedItem_of_noArray (hm : Reference.meaning reference site = .ok name)
    (hn : NoArray reference name) (S : Setting) (owner : Owner) :
    encodedItem S reference site owner = pure none := by
  unfold encodedItem
  rcases hn with other | other
  · rw [if_pos (bne_iff_ne.mpr other)]
  · split
    · rfl
    · rw [hm]
      dsimp only
      rw [if_pos (bne_iff_ne.mpr other)]

theorem says_undeclaredAttribute {I : Progress → Prop} {x : Slot × Typing}
    (h : RefersTo S .attributes site reference name) (hn : NoArray reference name)
    (hs : AttributeSays I S owner site x) :
    x = (.attributes, (undeclaredAttribute S.options name).typing) := by
  obtain ⟨p, slot, a, q, -, hr, rfl⟩ := hs
  unfold attributeAt at hr
  rw [h.written] at hr
  dsimp only at hr
  rw [encodedItem_of_noArray h.means hn, pure_bind] at hr
  simp only [runs_bind, runs_pure] at hr
  obtain ⟨a', _, hr, he, -⟩ := hr
  obtain ⟨rfl, rfl⟩ := Prod.mk.inj he
  rw [attributeReference_of_undeclared h.means h.undeclared hr]

/-- The declarations of a type said of its members what they are, wherever they were met. -/
theorem Made.said {owner : String} {name : QName} {anonymous : Bool} {own : StructuralType}
    (h : Made S owner name anonymous site own) :
    ∃ nested es as, List.Forall₂ (ElementSays (fun _ => True) S nested (some owner))
        (contentSites S.declarations owner site) es ∧
      List.Forall₂ (AttributeSays (fun _ => True) S (some owner))
        (attributeSites S.declarations owner site) as ∧ own.OfSaid (es ++ as) := by
  obtain ⟨depth, body, p, q, -, hr, rfl⟩ := h
  have lasting : Lasting S (complexTypeIn S depth true) (some owner)
      (· ∈ contentSites S.declarations owner site) fun _ => True :=
    ⟨fun _ _ h => h, fun _ h _ => h, fun h _ => h, fun h _ => h⟩
  obtain ⟨-, es, as, hes, has, collects⟩ := told_bodyOf lasting trivial hr
  exact ⟨_, es, as, hes, has, StructuralType.ofSaid_toType collects _ _ _ _ _⟩

end Compile

open Compile

/-! ## Types of catalogs -/

namespace StructuralType

variable {t : StructuralType} {slot : Slot}

/-- Of the members in a list exactly one has a name, and it has a label. -/
def Calls (t : StructuralType) (slot : Slot) (name label : String) : Prop :=
  ∃ y ∈ t.typings slot, y.name = name ∧ y.declared = label ∧
    ∀ z ∈ t.typings slot, z.name = name → z = y

theorem calls_of_agrees (h : t.Distinct) {x y : Typing} (hy : y ∈ t.typings slot)
    (agrees : y.Agrees x) : t.Calls slot x.name x.declared :=
  ⟨y, hy, agrees.1, agrees.2, fun _ hz hn =>
    List.inj_on_of_nodup_map (nodup_typings h slot) hz hy (hn.trans agrees.1.symm)⟩

theorem Calls.unique {name label label' : String} (h : t.Calls slot name label)
    (h' : t.Calls slot name label') : label = label' := by
  obtain ⟨y, hy, -, rfl, only⟩ := h
  obtain ⟨z, hz, named, rfl, -⟩ := h'
  rw [only z hz named]

end StructuralType

namespace SchemaSet

variable {set : SchemaSet} {options : Options} {c : Catalog}

/-- The members of the types of a catalog that refer to what nothing declares. Whatever the
prefixes are, a reference to an attribute stands for what its name says, and there is one attribute
for each name. A reference to an element stands for what is written, and the references of a type
with one local part are written alike. -/
theorem compile_undeclared (h : (set.compile options).result = .ok c) :
    ∃ S, Setting.ofSchemaSet set options = .ok S ∧
      (options.failOnUnresolved.holds = false →
        ∀ reference site name, Reference.meaning reference site = .ok name → ∀ owner p,
          (S.declarations.lookup .attributes name = none →
            ∃ q, Runs (attributeReference S reference site owner) p
              (undeclaredAttribute options name) q) ∧
          (S.declarations.lookup .element name = none →
            ∃ q, Runs (elementReference S reference site owner) p (undeclaredElement reference) q)) ∧
      ∀ t ∈ c.types, ∃ owner name site own, ComesOf S c owner name site own t ∧
        (∀ a ∈ attributeSites S.declarations owner site, ∀ reference name,
          RefersTo S .attributes a reference name → NoArray reference name →
            t.Calls .attributes name.localPart (undeclaredAttribute options name).declared) ∧
        (∀ e ∈ contentSites S.declarations owner site, ∀ reference name,
          RefersTo S .element e reference name → Reference.localPart reference ≠ textSlotName →
            t.Calls .elements (Reference.localPart reference) reference) ∧
        ∀ e ∈ contentSites S.declarations owner site, ∀ e' ∈ contentSites S.declarations owner site,
          ∀ reference reference' name name', RefersTo S .element e reference name →
            RefersTo S .element e' reference' name' →
            Reference.localPart reference = Reference.localPart reference' →
            Reference.localPart reference ≠ textSlotName → reference = reference' := by
  obtain ⟨S, hs⟩ := exists_setting h
  obtain ⟨_, _, _, _, _, _, _, _, staged⟩ := exists_staged hs h
  have same : S.options = options := (Setting.ofSchemaSet_eq_ok.mp hs).1
  subst same
  refine ⟨S, hs, fun lenient reference site name hm owner p => ⟨?_, ?_⟩, fun t ht => ?_⟩
  · exact fun hd => runs_attributeReference_of_undeclared hm hd lenient owner p
  · exact fun hd => runs_elementReference_of_undeclared hm hd lenient owner p
  obtain ⟨owner, name, site, own, comes⟩ := exists_comesOf hs h ht
  obtain ⟨nested, es, as, hes, has, hsaid⟩ := comes.made.said
  have merges := staged.merges comes hsaid
  have elements : ∀ e ∈ contentSites S.declarations owner site, ∀ reference name,
      RefersTo S .element e reference name → Reference.localPart reference ≠ textSlotName →
        t.Calls .elements (Reference.localPart reference) reference := by
    intro e he reference name refers named
    obtain ⟨x, hx, told⟩ := exists_said hes he
    obtain rfl := says_undeclaredElement refers told
    obtain ⟨y, hy, agrees⟩ := merges.kept _ _ (List.mem_append_left _ hx) named
    exact StructuralType.calls_of_agrees (staged.distinct t ht) hy agrees
  refine ⟨owner, name, site, own, comes, ?_, elements, ?_⟩
  · intro a ha reference name refers array
    obtain ⟨x, hx, told⟩ := exists_said has ha
    obtain rfl := says_undeclaredAttribute refers array told
    obtain ⟨y, hy, agrees⟩ := merges.kept _ _ (List.mem_append_right _ hx) trivial
    have calls := StructuralType.calls_of_agrees (staged.distinct t ht) hy agrees
    have named : (undeclaredAttribute S.options name).typing.name = name.localPart := by
      unfold undeclaredAttribute
      split <;> rfl
    exact named ▸ calls
  · intro e he e' he' reference reference' name name' refers refers' same named
    have calls := elements e he reference name refers named
    have calls' := elements e' he' reference' name' refers' (same ▸ named)
    exact calls.unique (same.symm ▸ calls')

/-! ## Two prefixes of one namespace -/

/-- A type that refers to elements, of which one is chosen, and to attributes; two prefixes stand for
one namespace. -/
def referringType (elements attributes : List String) : Site :=
  let bindings : List (String × Option String) := [("a", some "urn:m"), ("b", some "urn:m")]
  let item (tag reference : String) : Xml.Node :=
    ⟨Vocabulary.xsd, tag, [("ref", reference)], bindings, [], "", 3⟩
  let choice : Xml.Node :=
    ⟨Vocabulary.xsd, "choice", [], bindings, elements.map (item "element"), "", 2⟩
  let type : Xml.Node := ⟨Vocabulary.xsd, "complexType", [("name", "T")], bindings,
    choice :: attributes.map (item "attribute"), "", 2⟩
  ⟨type, ⟨"memory:t.xsd", "urn:t", ⟨Vocabulary.xsd, "schema", [], bindings, [type], "", 1⟩⟩⟩

def referring (elements attributes : List String) : SchemaSet :=
  ⟨"memory:t.xsd", [(referringType elements attributes).document], none⟩

def referringSetting (elements attributes : List String) : Setting :=
  ⟨{}, ⟨[(.type, ⟨⟨some "urn:t", "T"⟩, referringType elements attributes⟩)]⟩, 2⟩

theorem referring_setting : Setting.ofSchemaSet (referring ["a:Missing"] ["a:lang", "b:lang"]) {}
    = .ok (referringSetting ["a:Missing"] ["a:lang", "b:lang"]) := rfl

/-- What is made from the only declaration. -/
theorem comesOf_referring {elements attributes : List String} {c : Catalog} {owner : String}
    {name : QName} {site : Site} {own t : StructuralType}
    (comes : ComesOf (referringSetting elements attributes) c owner name site own t)
    (named : t.anonymous = false) (ht : t.name = some "T") :
    owner = "T" ∧ site = referringType elements attributes := by
  obtain ⟨d, hd, -, -, rfl, -⟩ := comes.defined.declaration named
  obtain rfl := List.mem_singleton.mp hd
  exact ⟨Option.some.inj (comes.canonical.symm.trans ht), rfl⟩

theorem referring_compiles :
    ((referring ["a:Missing"] ["a:lang", "b:lang"]).compile {}).result.toOption.map
      (fun c => c.types.map fun t => (t.name, t.anonymous)) = some [(some "T", false)] := by
  decide +kernel

/-- Two references to one attribute are one attribute, with the label of its name. -/
theorem referring_called :
    ∃ c, ((referring ["a:Missing"] ["a:lang", "b:lang"]).compile {}).result = .ok c ∧
      ∃ t ∈ c.types, t.Calls .attributes "lang" "\x7burn:m\x7dlang" ∧
        t.Calls .elements "Missing" "a:Missing" := by
  have compiles := referring_compiles
  cases run : ((referring ["a:Missing"] ["a:lang", "b:lang"]).compile {}).result with
  | error e =>
    rw [run] at compiles
    cases compiles
  | ok c =>
    rw [run] at compiles
    obtain ⟨t, ht, summary⟩ := List.mem_map.mp
      ((Option.some.inj compiles).symm ▸ List.mem_singleton_self (some "T", false))
    obtain ⟨named, declared⟩ := Prod.mk.inj summary
    obtain ⟨S, hs, -, all⟩ := compile_undeclared run
    obtain rfl := Except.ok.inj (referring_setting.symm.trans hs)
    obtain ⟨owner, name, site, own, comes, attributes, elements, -⟩ := all t ht
    obtain ⟨rfl, rfl⟩ := comesOf_referring comes declared named
    refine ⟨c, rfl, t, ht, ?_, ?_⟩
    · exact attributes _ List.mem_cons_self "a:lang" ⟨some "urn:m", "lang"⟩ ⟨rfl, rfl, rfl⟩
        (.inl (by decide))
    · exact elements _ List.mem_cons_self "a:Missing" ⟨some "urn:m", "Missing"⟩ ⟨rfl, rfl, rfl⟩
        (by decide)

def faultOf : Except Refusal Catalog → Option Fault
  | .error (.fault f) => some f
  | _ => none

theorem eq_error_of_faultOf {result : Except Refusal Catalog} {f : Fault}
    (h : faultOf result = some f) : result = .error (.fault f) := by
  unfold faultOf at h
  split at h
  · rw [Option.some.inj h]
  · cases h

/-- Two references to one element that nothing declares are refused if their prefixes differ. -/
theorem twoPrefixes_refused : ∃ S first second name,
    Setting.ofSchemaSet (referring ["a:Missing", "b:Missing"] []) {} = .ok S ∧
    S.options.failOnUnresolved.holds = false ∧
    contentSites S.declarations "T" (referringType ["a:Missing", "b:Missing"] []) = [first, second] ∧
    RefersTo S .element first "a:Missing" name ∧ RefersTo S .element second "b:Missing" name ∧
    ((referring ["a:Missing", "b:Missing"] []).compile {}).result = .error (.fault
      (second.modelFault (some "T") (.elementTypes "Missing" "a:Missing" "b:Missing"))) := by
  refine ⟨referringSetting ["a:Missing", "b:Missing"] [], _, _, ⟨some "urn:m", "Missing"⟩,
    rfl, rfl, rfl, ⟨rfl, rfl, rfl⟩, ⟨rfl, rfl, rfl⟩, eq_error_of_faultOf ?_⟩
  decide +kernel

end SchemaSet

end WsdlCatalog
