/-
  WsdlCatalog.Proofs.FollowingTypes — complex types of a schema set that is respelt.

  The outline of a content model has the same steps with other prefixes, and each step adds the
  same member. So a complex type is compiled to the same entry, with all types inside it.

  Proved: where all types of a schema set are compiled, they are with other prefixes, to the same
  entries (`Compile.follows_reserveAll`, `Compile.follows_compileAll`).
-/

import WsdlCatalog.Proofs.Following
import WsdlCatalog.Proofs.Lockstep.ComplexType
import WsdlCatalog.Proofs.Reservation
import WsdlCatalog.Proofs.RespeltContent

namespace WsdlCatalog

/-! ## Content -/

theorem Compile.isMixed_respelt {reads : String} {d e : SchemaDocument} {m n : Xml.Node}
    (h : Xml.Node.Respelt reads d e m n) : isMixed m = isMixed n := by
  unfold isMixed
  rw [h.plain _ (by decide)]

inductive Content.Respelt : Content → Content → Prop where
  | simple {s t : Site} (h : s.Respelt Vocabulary.xsd t) (mixed : Bool) :
    Respelt (.simple s mixed) (.simple t mixed)
  | complex {s t : Site} (h : s.Respelt Vocabulary.xsd t) (extending mixed : Bool) :
    Respelt (.complex s extending mixed) (.complex t extending mixed)

namespace Content

variable {s t : Site} {owner : Owner} {c : Content}

/-- Content has a derivation in both places. -/
theorem respelt_derivation (hs : s.Respelt Vocabulary.xsd t) {m : Xml.Node}
    (hd : derivation? s.node = some m) :
    ∃ n, derivation? t.node = some n ∧ (s.atNode m).Respelt Vocabulary.xsd (t.atNode n) := by
  unfold derivation? at hd ⊢
  rcases rel_cases (hs.child "extension") with ⟨hm, hn⟩ | ⟨m', n', hm, hn, site⟩
  · rw [hm, Option.none_or] at hd
    rw [hn, Option.none_or]
    rcases rel_cases (hs.child "restriction") with ⟨hm, hn⟩ | ⟨m', n', hm, hn, site⟩
    · rw [hm] at hd
      cases hd
    · rw [hm] at hd
      cases hd
      exact ⟨n', hn, site⟩
  · rw [hm, Option.some_or] at hd
    cases hd
    exact ⟨n', by rw [hn, Option.some_or], site⟩

theorem respelt_ofSite (hs : s.Respelt Vocabulary.xsd t) (hc : ofSite owner s = .ok c) :
    ∃ c', ofSite owner t = .ok c' ∧ c.Respelt c' := by
  unfold ofSite at hc ⊢
  rw [← Compile.isMixed_respelt hs.node]
  rcases rel_cases (hs.child "simpleContent") with ⟨hm, hn⟩ | ⟨m, n, hm, hn, site⟩
  · rw [hm] at hc
    rw [hn]
    rcases rel_cases (hs.child "complexContent") with ⟨hm, hn⟩ | ⟨m, n, hm, hn, site⟩
    · rw [hm] at hc
      rw [hn]
      cases hc
      exact ⟨_, rfl, .complex hs _ _⟩
    · rw [hm] at hc
      rw [hn]
      dsimp only at hc ⊢
      split at hc
      · rename_i d hd
        cases hc
        obtain ⟨d', hd', derivation⟩ := respelt_derivation site hd
        have tag : d.tag = d'.tag := derivation.node.tag
        have mixed : Compile.isMixed m = Compile.isMixed n := Compile.isMixed_respelt site.node
        have there : derivation? n = some d' := hd'
        rw [there, tag, mixed]
        exact ⟨_, rfl, .complex derivation _ _⟩
      · cases hc
  · rw [hm] at hc
    rw [hn]
    dsimp only at hc ⊢
    split at hc
    · rename_i d hd
      cases hc
      obtain ⟨d', hd', derivation⟩ := respelt_derivation site hd
      have there : derivation? n = some d' := hd'
      rw [there]
      exact ⟨_, rfl, .simple derivation _⟩
    · cases hc

end Content

namespace Compile

/-! ## Members -/

theorem follows_ofExcept {α : Type} {x y : Except Fault α} (h : ∀ a, x = .ok a → y = .ok a) :
    Follows Eq (ofExcept x) (ofExcept y) := by
  cases x with
  | error f => exact .fail f
  | ok a =>
    rw [h a rfl]
    exact .refl _

/-- Faults of members are not compared. -/
theorem follows_atSite {α : Type} (s t : Site) (owner : Owner) (result : Except ModelFault α) :
    Follows Eq (atSite s owner result) (atSite t owner result) := by
  refine follows_ofExcept fun a ha => ?_
  obtain rfl := mapError_eq_ok.mp ha
  rfl

section

variable {S T : Setting} (h : S.Respelt T) (strict : S.options.failOnUnresolved.holds = true)

include h strict

theorem follows_baseOf {s t : Site} (hs : s.Respelt Vocabulary.xsd t) (owner : Owner) :
    Follows Eq (baseOf S owner s) (baseOf T owner t) := by
  unfold baseOf
  rcases rel_cases (hs.reference "base" (by decide)) with
    ⟨hm, -⟩ | ⟨v, w, hm, hn, reference⟩
  · rw [hm]
    exact .fail _
  · rw [hm, hn]
    exact follows_resolveType h strict reference.same owner

theorem follows_extendedType {s t : Site} (hs : s.Respelt Vocabulary.xsd t) (owner : Owner) :
    Follows Eq (extendedType S owner s) (extendedType T owner t) := by
  refine (follows_baseOf h strict hs owner).andThen fun ref => ?_
  split
  · exact .refl _
  split
  · exact .refl _
  · exact .fail _

theorem follows_addAttributeAt {s t : Site} (hs : s.Respelt Vocabulary.xsd t) (owner : Owner)
    (members : Members) :
    Follows Eq (addAttributeAt S owner members s) (addAttributeAt T owner members t) := by
  have use : attributeUse s = attributeUse t := by
    unfold attributeUse
    rw [hs.node.plain _ (by decide)]
  unfold addAttributeAt
  rw [← use, ← hs.node.filled "name" (by decide)]
  refine (follows_atSite s t owner _).andThen fun use => ?_
  rcases rel_cases (hs.reference "ref" (by decide)) with ⟨hm, hn⟩ | ⟨v, w, hm, hn, reference⟩
  · rw [hm, hn]
    cases s.node.filled? "name" with
    | none => exact .fail _
    | some name =>
      exact (follows_statedType h strict _ _ _ hs).andThen fun ref => follows_atSite s t owner _
  · rw [hm, hn]
    dsimp only
    refine (follows_encodedItem h strict hs reference owner).andThen fun item => ?_
    split
    · exact follows_atSite s t owner _
    · exact (follows_attributeReference h strict reference.same owner).andThen
        fun a => follows_atSite s t owner _

theorem follows_addAttributes {s t : Site} (hs : s.Respelt Vocabulary.xsd t) (owner : Owner)
    (members : Members) :
    Follows Eq (addAttributes S owner s members) (addAttributes T owner t members) := by
  unfold addAttributes
  refine Follows.foldlM (AttributeStep.respelt_ofContainer h.declarations hs) ?_ _ _ rfl
  intro a b step step' same equal
  subst equal
  cases same with
  | declared site => exact follows_addAttributeAt h strict site owner a
  | unresolved => exact follows_report strict _ _ _ _
  | broken => exact .fail _

variable {nested nested' : Nested} (hn : ∀ c name s t, s.Respelt Vocabulary.xsd t →
  Follows Eq (nested c name s) (nested' c name t))

include hn

omit h strict in
theorem follows_nestedType {s t : Site} (hs : s.Respelt Vocabulary.xsd t) (owner element : String) :
    Follows Eq (nestedType nested owner element s) (nestedType nested' owner element t) := by
  unfold nestedType
  dsimp only
  rw [← hs.targetNamespace]
  refine (Follows.refl _).andThen fun canonical => ?_
  refine (Follows.refl _).andThen fun i => ?_
  split
  · exact (hn _ _ s t hs).andThen fun _ => .pure rfl
  · exact .refl _

theorem follows_elementParticle {s t : Site} (hs : s.Respelt Vocabulary.xsd t) (owner : Owner) :
    Follows Eq (elementParticle S nested s owner) (elementParticle T nested' t owner) := by
  unfold elementParticle
  rw [← isNillable_respelt hs.node, ← hs.node.plain "name" (by decide)]
  rcases rel_cases (hs.reference "ref" (by decide)) with ⟨hm, hn'⟩ | ⟨v, w, hm, hn', reference⟩
  · rw [hm, hn']
    refine Follows.andThen ?_ fun ref => .pure rfl
    rw [elementTypeWith_eq, elementTypeWith_eq, ← hs.node.plain "name" (by decide)]
    have stated := follows_statedType h strict .anyType owner owner hs
    rcases rel_cases (hs.reference "type" (by decide)) with ⟨tm, tn⟩ | ⟨v, w, tm, tn, -⟩
    · rw [tm, tn]
      rcases rel_cases (hs.child "complexType") with ⟨cm, cn⟩ | ⟨m, n, cm, cn, site⟩
      · rw [cm, cn]
        exact stated
      · rw [cm, cn]
        dsimp only
        split
        · exact follows_nestedType hn site _ _
        · exact .throw _
    · rw [tm, tn]
      exact stated
  · rw [hm, hn']
    exact follows_elementReference h strict reference.same owner

theorem follows_addParticles {s t : Site} (hs : s.Respelt Vocabulary.xsd t) (owner : Owner)
    (members : Members) :
    Follows Eq (addParticles S nested owner s members) (addParticles T nested' owner t members) := by
  have outline := Outline.respelt_ofContainer h.declarations hs owner S.options.choice
  unfold addParticles
  dsimp only
  rw [← h.options, ← outline.frames]
  refine Follows.andThen ?_ fun members => .pure rfl
  refine Follows.foldlM outline.steps ?_ _ _ rfl
  intro a b step step' same equal
  subst equal
  cases same with
  | element range site branches =>
    exact (follows_elementParticle h strict hn site owner).andThen fun e => follows_atSite _ _ owner _
  | unresolved => exact follows_report strict _ _ _ _
  | broken => exact .throw _

/-! ## Types -/

theorem follows_body {c c' : Content} (hc : c.Respelt c') (owner : Owner) :
    Follows Eq (Content.body S nested owner c) (Content.body T nested' owner c') := by
  cases hc with
  | simple hs mixed =>
    refine (follows_addAttributes h strict hs owner _).andThen fun members => ?_
    exact (follows_baseOf h strict hs owner).andThen fun ref => .pure rfl
  | complex hs extending mixed =>
    refine Follows.andThen ?_ fun base => ?_
    · split
      · exact follows_extendedType h strict hs owner
      · exact .refl _
    · refine (follows_addParticles h strict hn hs owner _).andThen fun pair => ?_
      exact (follows_addAttributes h strict hs owner _).andThen fun members => .pure rfl

theorem follows_bodyOf {s t : Site} (hs : s.Respelt Vocabulary.xsd t) (owner : Owner) :
    Follows Eq (bodyOf S nested owner s) (bodyOf T nested' owner t) := by
  rw [bodyOf_eq, bodyOf_eq]
  cases hc : Content.ofSite owner s with
  | error f =>
    refine .of_not_runs fun p a q hr => ?_
    obtain ⟨_, _, hr, -⟩ := runs_bind.mp hr
    exact absurd hr runs_fail
  | ok c =>
    obtain ⟨c', hc', respelt⟩ := Content.respelt_ofSite hs hc
    rw [hc']
    exact follows_body h strict hn respelt owner

end

section

variable {S T : Setting} (h : S.Respelt T) (strict : S.options.failOnUnresolved.holds = true)

include h strict

theorem follows_complexTypeIn (depth : Nat) : ∀ (anonymous : Bool) (canonical : Owner) (name : QName)
    (s t : Site), s.Respelt Vocabulary.xsd t →
    Follows Eq (complexTypeIn S depth anonymous canonical name s)
      (complexTypeIn T depth anonymous canonical name t) := by
  induction depth with
  | zero => exact fun _ _ _ _ _ _ => .fail _
  | succ depth ih =>
    intro anonymous canonical name s t hs
    unfold complexTypeIn
    rw [← hs.node.documentation, ← h.options]
    refine (follows_bodyOf h strict (fun c name s t => ih true c name s t) hs canonical).andThen ?_
    exact fun body => .refl _

theorem follows_compileOnce (anonymous : Bool) (owner : String) (name : QName) {s t : Site}
    (hs : s.Respelt Vocabulary.xsd t) :
    Follows Eq (compileOnce S anonymous owner name s) (compileOnce T anonymous owner name t) := by
  unfold compileOnce complexType
  rw [← h.nesting]
  refine (Follows.refl _).andThen fun i => ?_
  refine (Follows.refl _).andThen fun i' => ?_
  split
  · exact follows_complexTypeIn h strict _ _ _ _ s t hs
  · exact .refl _

theorem follows_compileType {d e : Declaration} (hd : d.Respelt e) :
    Follows Eq (compileType S d) (compileType T e) := by
  unfold compileType
  rw [← hd.isSimpleType, ← hd.name]
  split
  · exact (follows_compileAlias h strict d e hd).andThen fun _ => .pure rfl
  · exact follows_compileOnce h strict false _ _ hd.site

theorem follows_compileElement {d e : Declaration} (hd : d.Respelt e) :
    Follows Eq (compileElement S d) (compileElement T e) := by
  unfold compileElement
  rw [← hd.name]
  rcases rel_cases (hd.site.child "complexType") with ⟨hm, hn⟩ | ⟨m, n, hm, hn, site⟩
  · rw [hm, hn]
    exact .pure rfl
  · rw [hm, hn]
    exact follows_compileOnce h strict true _ _ site

omit strict in
theorem respelt_elementsWithTypes :
    List.Forall₂ Declaration.Respelt (elementsWithTypes S) (elementsWithTypes T) := by
  refine List.rel_filter (fun d e hd => ?_) (h.declarations.inSpace .element)
  dsimp only
  rw [hasOwnType_respelt hd.site.node]

theorem follows_compileAll : Follows Eq (compileAll S) (compileAll T) := by
  refine Follows.andThen ?_ fun _ => ?_
  · exact .forM (h.declarations.inSpace .type) fun d e hd => follows_compileType h strict hd
  · exact .forM (respelt_elementsWithTypes h) fun d e hd => follows_compileElement h strict hd

omit strict in
theorem follows_reserveAll : Follows Eq (reserveAll S) (reserveAll T) := by
  have same : requests S = requests T := by
    have types := h.declarations.inSpace .type
    have elements := respelt_elementsWithTypes h
    unfold requests
    rw [forall₂_eq_map_iff.mp (types.imp fun d e hd => ?_),
      forall₂_eq_map_iff.mp (elements.imp fun d e hd => ?_)]
    · rw [hd.name]
    · rw [hd.name]
  rw [reserveAll_eq, reserveAll_eq, same]
  exact .refl _

end

end Compile

end WsdlCatalog
