/-
  WsdlCatalog.Proofs.Prefixes — catalogs do not depend on prefixes.

  A reference that means something is known by the name that it means; what it is written with is
  of no account. So under the strict policy, where all references mean something, a schema set and
  one that is respelt with other prefixes have one catalog. Where references may mean nothing this
  is not so: then they are known by what is written.

  Proved: `SchemaSet.compile_respelt`, from the stages of a compilation one after the other.
-/

import WsdlCatalog.Proofs.FollowingTypes
import WsdlCatalog.Proofs.Lockstep.Interface
import WsdlCatalog.Proofs.Origin
import WsdlCatalog.Proofs.RespeltInterface

namespace WsdlCatalog

namespace Compile

/-! ## Service descriptions -/

section

variable {S T : Setting} {i j : Interface} (h : S.Respelt T)
  (strict : S.options.failOnUnresolved.holds = true) (hi : i.Respelt j)

include strict hi

theorem follows_addBindings :
    Follows Interface.Respelt (addBindings S i) (addBindings T j) := by
  unfold addBindings
  have bindings := hi.document.root.sites hi.document.targetNamespace ["binding"]
  refine Follows.bind (V := Aligned (Xml.Node.Respelt Vocabulary.wsdl i.document j.document))
    (Follows.filterMapM bindings fun m n site => ?_) fun found found' aligned => ?_
  · rcases rel_cases (site.reference "type" (by decide)) with
      ⟨hm, hn⟩ | ⟨v, w, hm, hn, reference⟩
    · dsimp only at hm hn
      rw [hm, hn]
      exact .pure .none
    · dsimp only at hm hn
      rw [hm, hn, site.node.plain "name" (by decide)]
      refine (follows_qualify strict reference.same _).bind ?_
      rintro _ _ ⟨name, rfl, rfl⟩
      exact .pure (.some ⟨rfl, site.node⟩)
  · exact .pure ⟨hi.document, hi.location, hi.messages, aligned, hi.policies⟩

include h

/-- A message carries the same element of the same type. -/
theorem follows_carried (operation : String) {a b : Option Xml.Node}
    (hab : Option.Rel (Xml.Node.Respelt Vocabulary.wsdl i.document j.document) a b) :
    Follows Eq (carried S i operation a) (carried T j operation b) := by
  have part : Option.Rel (fun x y => Reference.Respelt (i.site x.1) (j.site y.1) x.2 y.2)
      (a.bind fun message => (message.childrenOf Vocabulary.wsdl "part").findSome? fun part =>
        (part.filled? "element").map (part, ·))
      (b.bind fun message => (message.childrenOf Vocabulary.wsdl "part").findSome? fun part =>
        (part.filled? "element").map (part, ·)) := by
    refine rel_bind hab fun m n hmn => ?_
    refine rel_findSome (hmn.sites hi.document.targetNamespace ["part"]) fun p q site => ?_
    rcases rel_cases (site.reference "element" (by decide)) with
      ⟨hm, hn⟩ | ⟨v, w, hm, hn, reference⟩
    · dsimp only at hm hn
      rw [hm, hn]
      exact .none
    · dsimp only at hm hn
      rw [hm, hn]
      exact .some reference
  unfold carried
  rcases rel_cases part with ⟨hm, hn⟩ | ⟨⟨p, v⟩, ⟨q, w⟩, hm, hn, reference⟩
  · rw [hm, hn]
    exact .pure rfl
  · rw [hm, hn]
    dsimp only
    refine (follows_qualify strict reference.same _).bind ?_
    rintro _ _ ⟨name, rfl, rfl⟩
    refine (follows_lookup h strict .element reference.same _).bind ?_
    rintro _ _ ⟨d, e, rfl, rfl, respelt⟩
    exact (follows_globalElementType h strict respelt _).andThen fun ref => .pure rfl

theorem follows_payload (operation : String) {a b : Option Xml.Node}
    (hab : Option.Rel (fun m n => Site.Respelt Vocabulary.wsdl (i.site m) (j.site n)) a b) :
    Follows Eq (payload S i operation a) (payload T j operation b) := by
  have direction : Option.Rel (fun x y => Reference.Respelt (i.site x.1) (j.site y.1) x.2 y.2)
      (a.bind fun node => (node.filled? "message").map (node, ·))
      (b.bind fun node => (node.filled? "message").map (node, ·)) := by
    refine rel_bind hab fun m n site => ?_
    rcases rel_cases (site.reference "message" (by decide)) with
      ⟨hm, hn⟩ | ⟨v, w, hm, hn, reference⟩
    · dsimp only [Interface.site] at hm hn
      rw [hm, hn]
      exact .none
    · dsimp only [Interface.site] at hm hn
      rw [hm, hn]
      exact .some reference
  rw [payload_eq, payload_eq]
  refine Follows.bind ?_ fun a b hab => follows_carried h strict hi operation hab
  rcases rel_cases direction with ⟨hm, hn⟩ | ⟨⟨p, v⟩, ⟨q, w⟩, hm, hn, reference⟩
  · rw [hm, hn]
    exact .pure .none
  · rw [hm, hn]
    refine (follows_qualify strict reference.same _).bind ?_
    rintro _ _ ⟨name, rfl, rfl⟩
    exact .pure (hi.messages.lookup name)

theorem follows_operationOf (portType : QName) (name : String) {m n : Xml.Node}
    (hmn : Xml.Node.Respelt Vocabulary.wsdl i.document j.document m n) :
    Follows Eq (operationOf S i portType name m) (operationOf T j portType name n) := by
  have directions := fun tag => follows_payload h strict hi name
    (rel_head (hmn.sites hi.document.targetNamespace [tag]))
  obtain ⟨binding, operation⟩ := hi.bindingFor portType name
  unfold operationOf
  refine (directions "input").andThen fun input => ?_
  refine (directions "output").andThen fun output => ?_
  dsimp only
  rw [Interface.actionAndStyle_respelt binding operation, hi.hints binding operation,
    hmn.documentation]
  exact .pure rfl

theorem follows_addOperation {x y : QName × Xml.Node} (hx : x.1 = y.1 ∧
      Xml.Node.Respelt Vocabulary.wsdl i.document j.document x.2 y.2)
    (operations : List (String × Operation)) {m n : Xml.Node}
    (hmn : Xml.Node.Respelt Vocabulary.wsdl i.document j.document m n) :
    Follows Eq (addOperation S i x operations m) (addOperation T j y operations n) := by
  unfold addOperation
  rw [← hmn.filled _ (by decide), hx.1]
  split
  · exact .pure rfl
  split
  · rename_i name _ _
    have report : duplicateOperation i name x.2 = duplicateOperation j name y.2 := by
      unfold duplicateOperation
      rw [hi.document.targetNamespace, hi.location, hx.2.plain _ (by decide)]
    rw [report]
    exact .refl _
  · exact (follows_operationOf h strict hi _ _ hmn).andThen fun operation => .pure rfl

omit hi in
/-- A service description has the same operations. -/
theorem follows_interface {s t : SchemaSet} (hs : s.Respelt t) :
    Follows Eq (interface S s) (interface T t) := by
  unfold interface
  rcases rel_cases hs.definitions with ⟨hm, hn⟩ | ⟨m, n, hm, hn, document⟩
  · rw [hm, hn]
    exact .pure rfl
  · rw [hm, hn]
    dsimp only
    refine (follows_addBindings strict (Interface.respelt_ofDescription hs.location document)).bind ?_
    intro i j hi
    rw [← hi.serviceName]
    refine Follows.andThen ?_ fun operations => .pure rfl
    refine Follows.foldlM hi.portTypes ?_ _ _ rfl
    intro a b x y hx equal
    subst equal
    refine Follows.foldlM (hx.2.childrenIn Vocabulary.wsdl ["operation"]) ?_ _ _ rfl
    intro a b m n hmn equal
    subst equal
    exact follows_addOperation h strict hi hx a hmn

end

/-! ## Catalogs -/

/-- A catalog is compiled with other prefixes as well. -/
theorem follows_catalog {S T : Setting} (h : S.Respelt T)
    (strict : S.options.failOnUnresolved.holds = true) {s t : SchemaSet} (hs : s.Respelt t) :
    Follows Eq (catalog S s) (catalog T t) := by
  have target : s.targetNamespace = t.targetNamespace := by
    unfold SchemaSet.targetNamespace
    rcases rel_cases hs.definitions with ⟨hm, hn⟩ | ⟨m, n, hm, hn, document⟩
    · rw [hm, hn]
      rcases rel_cases (rel_head hs.documents) with ⟨hd, he⟩ | ⟨d, e, hd, he, respelt⟩
      · rw [hd, he]
      · rw [hd, he]
        exact respelt.targetNamespace
    · rw [hm, hn]
      exact document.targetNamespace
  unfold catalog
  refine (follows_reserveAll h).andThen fun _ => ?_
  refine (follows_compileAll h strict).andThen fun _ => ?_
  refine (Follows.refl extendAll).andThen fun _ => ?_
  refine (follows_interface h strict hs).andThen fun pair => ?_
  rw [h.options, hs.location, target]
  exact .refl _

end Compile

namespace SchemaSet

variable {s t : SchemaSet} {options : Options} {c : Catalog}

/-- Under the strict policy a schema set that compiles has the same catalog with other prefixes. -/
theorem compile_respelt (strict : options.failOnUnresolved.holds = true) (h : s.Respelt t)
    (hc : (s.compile options).result = .ok c) : (t.compile options).result = .ok c := by
  obtain ⟨S, hs⟩ := exists_setting hc
  obtain ⟨T, ht, respelt⟩ := Setting.respelt_ofSchemaSet h hs
  have same : S.options = options := (Setting.ofSchemaSet_eq_ok.mp hs).1
  rw [result_compile hs] at hc
  rw [result_compile ht]
  obtain ⟨c', run, equal⟩ := Compile.follows_catalog respelt (same ▸ strict) h .start c _ (Prod.ext hc rfl)
  subst equal
  exact congrArg Prod.fst run

/-- A type with a text, and with an element of the type itself. -/
def chain (bindings : Xml.Bindings) (text own : String) : SchemaSet :=
  let value : Xml.Node :=
    ⟨Vocabulary.xsd, "element", [("name", "value"), ("type", text)], bindings, [], "", 4⟩
  let next : Xml.Node :=
    ⟨Vocabulary.xsd, "element", [("name", "next"), ("type", own), ("minOccurs", "0")], bindings, [],
      "", 5⟩
  let sequence : Xml.Node := ⟨Vocabulary.xsd, "sequence", [], bindings, [value, next], "", 3⟩
  let type : Xml.Node :=
    ⟨Vocabulary.xsd, "complexType", [("name", "Link")], bindings, [sequence], "", 2⟩
  ⟨"memory:chain.xsd",
    [⟨"memory:chain.xsd", "urn:chain", ⟨Vocabulary.xsd, "schema", [], bindings, [type], "", 1⟩⟩], none⟩

def prefixedChain : SchemaSet :=
  chain [("xs", some Vocabulary.xsd), ("tns", some "urn:chain")] "xs:string" "tns:Link"

def defaultChain : SchemaSet :=
  chain [("", some "urn:chain"), ("schema", some Vocabulary.xsd)] "schema:string" "Link"

theorem chains_respelt : prefixedChain.Respelt defaultChain := by
  refine ⟨rfl, .cons ⟨rfl, ?_⟩ .nil, .none⟩
  refine .ofAttributes rfl rfl rfl .nil (.cons ?_ .nil)
  refine .ofAttributes rfl rfl rfl (.cons (.plain (by decide)) .nil) (.cons ?_ .nil)
  refine .ofAttributes rfl rfl rfl .nil (.cons ?_ (.cons ?_ .nil))
  · refine .ofAttributes rfl rfl rfl
      (.cons (.plain (by decide)) (.cons (.reference (by decide) ?_) .nil)) .nil
    exact ⟨by decide, rfl, fun _ _ => rfl⟩
  · refine .ofAttributes rfl rfl rfl (.cons (.plain (by decide))
      (.cons (.reference (by decide) ?_) (.cons (.plain (by decide)) .nil))) .nil
    exact ⟨by decide, rfl, fun _ _ => rfl⟩

theorem exists_of_prefixedChain :
    ∃ c, (prefixedChain.compile (Options.strict {})).result = .ok c := by
  have compiled : (prefixedChain.compile (Options.strict {})).result.toOption.isSome = true := by
    decide +kernel
  exact exists_ok compiled

/-- The two chains have one catalog. -/
theorem chains_agree : prefixedChain.Respelt defaultChain ∧
    ∃ c, (prefixedChain.compile (Options.strict {})).result = .ok c ∧
      (defaultChain.compile (Options.strict {})).result = .ok c := by
  obtain ⟨c, run⟩ := exists_of_prefixedChain
  exact ⟨chains_respelt, c, run, compile_respelt rfl chains_respelt run⟩

end SchemaSet

end WsdlCatalog
