/-
  WsdlCatalog.Proofs.RespeltInterface — service descriptions that differ in their prefixes.

  A description refers to messages, to elements and to the port types of bindings. Everything
  else it says is said by names and texts, so what is read of its port types, of the bindings of
  an operation and of its policies is the same with other prefixes.

  Proved: operations need the same of their callers (`Interface.Respelt.hints`), and are called in
  the same way (`Interface.Respelt.bindingFor`, `Interface.actionAndStyle_respelt`).
-/

import WsdlCatalog.Proofs.Respelling

namespace WsdlCatalog

/-! ## Policies -/

namespace Policy

variable {reads : String} {d e : SchemaDocument}

theorem inside_respelt {m n : Xml.Node} (h : Xml.Node.Respelt reads d e m n) :
    Aligned (Xml.Node.Respelt reads d e) (inside m) (inside n) := by
  unfold inside
  refine Aligned.putAll (List.rel_filterMap (fun a b hab => ?_) (Xml.Node.respelt_walk h))
  dsimp only
  rw [← hab.uri, ← hab.tag, ← hab.filled _ (by decide), ← hab.filled _ (by decide)]
  split
  · cases (a.filled? _).or (a.filled? "Name") with
    | none => exact .none
    | some identifier => exact .some ⟨rfl, hab⟩
  · exact .none

theorem addAssertion_respelt (hints : Hints) {m n : Xml.Node} (h : Xml.Node.Respelt reads d e m n) :
    addAssertion hints m = addAssertion hints n := by
  unfold addAssertion Xml.Node.descendants
  rw [h.tag]
  have below := Xml.Node.respelt_walkAll _ h.children
  refine List.rel_foldl (P := Eq) (R := Xml.Node.Respelt reads d e) ?_ rfl
    (List.rel_filter (fun a b hab => ?_) below)
  · intro x y same a b hab
    subst same
    exact congrArg x.add hab.tag
  · dsimp only
    rw [hab.tag]

mutual

theorem collectPart_respelt (follow : Hints → String → Hints) (hints : Hints) :
    ∀ m n : Xml.Node, Xml.Node.Respelt reads d e m n →
      collectPart follow hints m = collectPart follow hints n
  | ⟨uri, tag, attributes, bindings, children, text, line⟩,
    ⟨uri', tag', attributes', bindings', children', text', line'⟩, h => by
    have reference : attributes.lookup "URI" = attributes'.lookup "URI" := h.plain _ (by decide)
    obtain rfl : uri = uri' := h.uri
    obtain rfl : tag = tag' := h.tag
    unfold collectPart
    rw [collect_respelt follow hints children children' h.children, reference,
      addAssertion_respelt hints h]

theorem collect_respelt (follow : Hints → String → Hints) (hints : Hints) :
    ∀ ms ns : List Xml.Node, List.Forall₂ (Xml.Node.Respelt reads d e) ms ns →
      collect follow hints ms = collect follow hints ns
  | [], _, .nil => rfl
  | m :: ms, n :: ns, .cons first rest => by
    unfold collect
    rw [collectPart_respelt follow hints m n first]
    exact collect_respelt follow _ ms ns rest

end

variable {policies policies' : Policies}

theorem follow_respelt (h : Aligned (Xml.Node.Respelt reads d e) policies policies') (depth : Nat) :
    follow policies depth = follow policies' depth := by
  induction depth with
  | zero => rfl
  | succ depth ih =>
    funext hints reference
    unfold follow
    dsimp only
    rcases rel_cases (h.lookup (identifier reference)) with ⟨hm, hn⟩ | ⟨m, n, hm, hn, policy⟩
    · rw [hm, hn]
    · rw [hm, hn]
      dsimp only
      rw [ih, collect_respelt _ _ _ _ policy.children]

theorem policyURIs_not_reference :
    ∀ uri ∈ Vocabulary.policies, Vocabulary.clark uri "PolicyURIs" ∉ Reference.attributes := by
  decide

theorem addAttached_respelt (h : Aligned (Xml.Node.Respelt reads d e) policies policies')
    (hints : Hints) {m n : Xml.Node} (hn : Xml.Node.Respelt reads d e m n) :
    addAttached policies hints m = addAttached policies' hints n := by
  have written : ∀ uri ∈ Vocabulary.policies,
      m.attribute? (Vocabulary.clark uri "PolicyURIs") = n.attribute? (Vocabulary.clark uri "PolicyURIs") :=
    fun uri hu => hn.plain _ (policyURIs_not_reference uri hu)
  have references : (Vocabulary.policies.flatMap fun uri =>
      Text.words ((m.attribute? (Vocabulary.clark uri "PolicyURIs")).getD ""))
      = Vocabulary.policies.flatMap fun uri =>
        Text.words ((n.attribute? (Vocabulary.clark uri "PolicyURIs")).getD "") :=
    List.flatMap_congr fun uri hu => by rw [written uri hu]
  unfold addAttached
  dsimp only
  rw [h.length_eq, follow_respelt h, references]
  refine List.rel_foldl (P := Eq) (R := Xml.Node.Respelt reads d e) ?_ rfl hn.children
  intro x y same a b hab
  subst same
  dsimp only
  rw [hab.uri, hab.tag, hab.plain _ (by decide), collect_respelt _ _ _ _ hab.children]

theorem hintsOf_respelt (h : Aligned (Xml.Node.Respelt reads d e) policies policies')
    {ms ns : List Xml.Node} (hs : List.Forall₂ (Xml.Node.Respelt reads d e) ms ns) :
    hintsOf policies ms = hintsOf policies' ns := by
  unfold hintsOf
  refine congrArg Hints.found (List.rel_foldl (P := Eq) (R := Xml.Node.Respelt reads d e) ?_ rfl hs)
  intro x y same a b hab
  subst same
  exact addAttached_respelt h x hab

end Policy

/-! ## Descriptions -/

theorem rel_or {α β : Type} {R : α → β → Prop} {a a' : Option α} {b b' : Option β}
    (h : Option.Rel R a b) (h' : Option.Rel R a' b') : Option.Rel R (a.or a') (b.or b') := by
  cases h with
  | none => exact h'
  | some h => exact .some h

theorem rel_bind {α β γ δ : Type} {R : α → β → Prop} {Q : γ → δ → Prop} {a : Option α} {b : Option β}
    {f : α → Option γ} {g : β → Option δ} (h : Option.Rel R a b)
    (hf : ∀ x y, R x y → Option.Rel Q (f x) (g y)) : Option.Rel Q (a.bind f) (b.bind g) := by
  cases h with
  | none => exact .none
  | some h => exact hf _ _ h

theorem rel_findSome {α β γ δ : Type} {R : α → β → Prop} {Q : γ → δ → Prop} {xs : List α}
    {ys : List β} {f : α → Option γ} {g : β → Option δ} (h : List.Forall₂ R xs ys)
    (hf : ∀ x y, R x y → Option.Rel Q (f x) (g y)) :
    Option.Rel Q (xs.findSome? f) (ys.findSome? g) := by
  induction h with
  | nil => exact .none
  | cons first _ ih =>
    rw [List.findSome?_cons, List.findSome?_cons]
    rcases rel_cases (hf _ _ first) with ⟨hx, hy⟩ | ⟨x, y, hx, hy, related⟩
    · rw [hx, hy]
      exact ih
    · rw [hx, hy]
      exact .some related

theorem any_eq_of_forall₂ {α β : Type} {R : α → β → Prop} {p : α → Bool} {q : β → Bool} {xs : List α}
    {ys : List β} (h : List.Forall₂ R xs ys) (same : ∀ a b, R a b → p a = q b) :
    xs.any p = ys.any q := by
  induction h with
  | nil => rfl
  | cons first _ ih => rw [List.any_cons, List.any_cons, same _ _ first, ih]

structure Interface.Respelt (i j : Interface) : Prop where
  document : i.document.Respelt Vocabulary.wsdl j.document
  location : i.document.location = j.document.location
  messages : Aligned (Xml.Node.Respelt Vocabulary.wsdl i.document j.document) i.messages j.messages
  bindings : Aligned (Xml.Node.Respelt Vocabulary.wsdl i.document j.document) i.bindings j.bindings
  policies : Aligned (Xml.Node.Respelt Vocabulary.wsdl i.document j.document) i.policies j.policies

namespace Interface

variable {reads : String} {d e : SchemaDocument}

theorem soapChild_respelt {m n : Xml.Node} (h : Xml.Node.Respelt reads d e m n) (tag : String) :
    Option.Rel (Xml.Node.Respelt reads d e) (soapChild? m tag) (soapChild? n tag) :=
  rel_or (h.child _ tag) (h.child _ tag)

theorem isSoapBinding_respelt {m n : Xml.Node} (h : Xml.Node.Respelt reads d e m n) :
    isSoapBinding m = isSoapBinding n := by
  unfold isSoapBinding
  rcases rel_cases (soapChild_respelt h "binding") with ⟨hm, hn⟩ | ⟨_, _, hm, hn, -⟩
  · rw [hm, hn]
  · rw [hm, hn]
    rfl

theorem boundOperation_respelt {m n : Xml.Node} (h : Xml.Node.Respelt reads d e m n) (name : String) :
    Option.Rel (Xml.Node.Respelt reads d e) (boundOperation? m name) (boundOperation? n name) := by
  have found := rel_find? (h.childrenIn Vocabulary.wsdl ["operation"])
    (p := fun operation => operation.attribute? "name" == some name)
    (q := fun operation => operation.attribute? "name" == some name)
    fun a b hab => by rw [hab.plain _ (by decide)]
  unfold boundOperation? Xml.Node.childrenOf
  rcases rel_cases found with ⟨hm, hn⟩ | ⟨_, _, hm, hn, related, -⟩
  · rw [hm, hn]
    exact .none
  · rw [hm, hn]
    exact .some related

/-- A binding and what it says of an operation tell how the operation is called. -/
theorem actionAndStyle_respelt {a a' b b' : Option Xml.Node}
    (h : Option.Rel (Xml.Node.Respelt reads d e) a b)
    (h' : Option.Rel (Xml.Node.Respelt reads d e) a' b') :
    actionAndStyle a a' = actionAndStyle b b' := by
  have style : (a.bind (soapChild? · "binding")).bind (·.attribute? "style")
      = (b.bind (soapChild? · "binding")).bind (·.attribute? "style") := by
    rcases rel_cases (rel_bind h fun m n hmn => soapChild_respelt hmn "binding") with
      ⟨hm, hn⟩ | ⟨m, n, hm, hn, related⟩
    · rw [hm, hn]
    · rw [hm, hn]
      exact related.plain _ (by decide)
  unfold actionAndStyle
  dsimp only
  rw [style]
  rcases rel_cases (rel_bind h' fun m n hmn => soapChild_respelt hmn "operation") with
    ⟨hm, hn⟩ | ⟨m, n, hm, hn, related⟩
  · rw [hm, hn]
  · rw [hm, hn]
    dsimp only
    rw [related.plain _ (by decide), related.plain _ (by decide)]

theorem respelt_ofDescription {location location' : String} {m n : Xml.Node}
    (hl : location = location')
    (h : (ofDescription location m).document.Respelt Vocabulary.wsdl (ofDescription location' n).document) :
    (ofDescription location m).Respelt (ofDescription location' n) where
  document := h
  location := hl
  messages := by
    refine Aligned.putAll ?_
    refine List.rel_map (R := Xml.Node.Respelt Vocabulary.wsdl _ _) (fun a b hab => ⟨?_, hab⟩)
      (h.root.childrenIn _ _)
    dsimp only
    rw [show (m.attribute? "targetNamespace").getD "" = (n.attribute? "targetNamespace").getD "" from
      h.targetNamespace, hab.plain _ (by decide)]
  bindings := .nil
  policies := Policy.inside_respelt h.root

namespace Respelt

variable {i j : Interface} (h : i.Respelt j)

include h

theorem bindingsOf (portType : QName) :
    List.Forall₂ (Xml.Node.Respelt Vocabulary.wsdl i.document j.document) (i.bindingsOf portType)
      (j.bindingsOf portType) := by
  refine List.rel_filterMap (fun x y hxy => ?_) h.bindings
  dsimp only
  rw [← hxy.1]
  split
  · exact .some hxy.2
  · exact .none

theorem allPortTypes :
    Aligned (Xml.Node.Respelt Vocabulary.wsdl i.document j.document) i.allPortTypes j.allPortTypes := by
  refine List.rel_map (R := Xml.Node.Respelt Vocabulary.wsdl i.document j.document)
    (fun a b hab => ⟨?_, hab⟩) (h.document.root.childrenIn _ _)
  dsimp only
  rw [h.document.targetNamespace, hab.plain _ (by decide)]

theorem portTypes :
    Aligned (Xml.Node.Respelt Vocabulary.wsdl i.document j.document) i.portTypes j.portTypes := by
  have bound : Aligned (Xml.Node.Respelt Vocabulary.wsdl i.document j.document)
      (i.allPortTypes.filter fun x => (i.bindingsOf x.1).any isSoapBinding)
      (j.allPortTypes.filter fun x => (j.bindingsOf x.1).any isSoapBinding) := by
    refine List.rel_filter (fun x y hxy => ?_) h.allPortTypes
    dsimp only
    rw [← hxy.1, any_eq_of_forall₂ (h.bindingsOf x.1) fun _ _ hab => isSoapBinding_respelt hab]
  unfold Interface.portTypes
  dsimp only
  generalize i.allPortTypes.filter _ = xs at bound ⊢
  generalize j.allPortTypes.filter _ = ys at bound ⊢
  cases bound with
  | nil => exact h.allPortTypes
  | cons first rest => exact .cons first rest

/-- The binding of an operation, and what it says of the operation. -/
theorem bindingFor (portType : QName) (name : String) :
    Option.Rel (Xml.Node.Respelt Vocabulary.wsdl i.document j.document)
        (i.bindingFor portType name).1 (j.bindingFor portType name).1 ∧
      Option.Rel (Xml.Node.Respelt Vocabulary.wsdl i.document j.document)
        (i.bindingFor portType name).2 (j.bindingFor portType name).2 := by
  have bindings := h.bindingsOf portType
  have bound := rel_findSome bindings
    (f := fun binding => (boundOperation? binding name).map (binding, ·))
    (g := fun binding => (boundOperation? binding name).map (binding, ·))
    (Q := fun x y => Xml.Node.Respelt Vocabulary.wsdl i.document j.document x.1 y.1 ∧
      Xml.Node.Respelt Vocabulary.wsdl i.document j.document x.2 y.2) fun m n hmn => by
    rcases rel_cases (boundOperation_respelt hmn name) with ⟨hm, hn⟩ | ⟨_, _, hm, hn, related⟩
    · rw [hm, hn]
      exact .none
    · rw [hm, hn]
      exact .some ⟨hmn, related⟩
  unfold Interface.bindingFor
  dsimp only
  rcases rel_cases bound with ⟨hm, hn⟩ | ⟨x, y, hm, hn, binding, operation⟩
  · rw [hm, hn]
    exact ⟨rel_head bindings, .none⟩
  · rw [hm, hn]
    exact ⟨.some binding, .some operation⟩

theorem hints {a a' b b' : Option Xml.Node}
    (ha : Option.Rel (Xml.Node.Respelt Vocabulary.wsdl i.document j.document) a b)
    (ha' : Option.Rel (Xml.Node.Respelt Vocabulary.wsdl i.document j.document) a' b') :
    i.hints a a' = j.hints b b' := by
  unfold Interface.hints
  dsimp only
  refine Policy.hintsOf_respelt h.policies (List.rel_append ?_ ?_)
  · cases ha with
    | none => exact .nil
    | some binding => exact .cons binding .nil
  · cases ha' with
    | none => exact .nil
    | some operation => exact .cons operation (operation.childrenIn _ _)

theorem serviceName : i.serviceName? = j.serviceName? := by
  unfold serviceName? definitions
  rcases rel_cases (h.document.root.child Vocabulary.wsdl "service") with
    ⟨hm, hn⟩ | ⟨m, n, hm, hn, related⟩
  · rw [hm, hn]
  · rw [hm, hn]
    exact related.plain _ (by decide)

end Respelt

end Interface

end WsdlCatalog
