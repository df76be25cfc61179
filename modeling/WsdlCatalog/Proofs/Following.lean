/-
  WsdlCatalog.Proofs.Following — references of a schema set that is respelt.

  Under the strict policy every reference that is met means something, and that is all that is
  used of it. So where a step of a compilation runs, the same step with other prefixes runs as
  well, to the same result and the same progress (`Compile.Follows`). Nothing is said of a step
  that fails: its fault would name the reference as it is written.

  Proved: this is so for references to types, elements and attributes
  (`Compile.follows_resolveType`, `Compile.follows_elementReference`,
  `Compile.follows_attributeReference`).
-/

import WsdlCatalog.Proofs.Respelling
import WsdlCatalog.Proofs.Run

namespace WsdlCatalog

namespace Compile

/-! ## Steps -/

/-- Where one step runs, the other one runs as well, to a related result and with the same
progress. -/
def Follows {α β : Type} (V : α → β → Prop) (m : Compile α) (n : Compile β) : Prop :=
  ∀ p a q, Runs m p a q → ∃ b, Runs n p b q ∧ V a b

namespace Follows

variable {α β γ δ : Type} {V : α → β → Prop} {W : γ → δ → Prop} {m : Compile α} {n : Compile β}

theorem refl (m : Compile α) : Follows Eq m m := fun _ a _ hr => ⟨a, hr, rfl⟩

theorem pure {a : α} {b : β} (h : V a b) : Follows V (Pure.pure a) (Pure.pure b) := by
  intro p a' q hr
  obtain ⟨rfl, rfl⟩ := runs_pure.mp hr
  exact ⟨b, runs_pure.mpr ⟨rfl, rfl⟩, h⟩

theorem bind {k : α → Compile γ} {l : β → Compile δ} (h : Follows V m n)
    (hk : ∀ a b, V a b → Follows W (k a) (l b)) : Follows W (m >>= k) (n >>= l) := by
  intro p c q hr
  obtain ⟨a, r, hm, hr⟩ := runs_bind.mp hr
  obtain ⟨b, hn, related⟩ := h p a r hm
  obtain ⟨d, hl, related'⟩ := hk a b related r c q hr
  exact ⟨d, runs_bind.mpr ⟨b, r, hn, hl⟩, related'⟩

/-- Both go on with the same value. -/
theorem andThen {n : Compile α} {k : α → Compile γ} {l : α → Compile δ} (h : Follows Eq m n)
    (hk : ∀ a, Follows W (k a) (l a)) : Follows W (m >>= k) (n >>= l) := by
  refine h.bind fun a b same => ?_
  subst same
  exact hk a

theorem map {f : α → γ} {g : β → δ} (h : Follows V m n) (hw : ∀ a b, V a b → W (f a) (g b)) :
    Follows W (f <$> m) (g <$> n) := by
  rw [← bind_pure_comp, ← bind_pure_comp]
  exact h.bind fun a b hv => .pure (hw a b hv)

/-- Nothing follows from a step that does not run. -/
theorem of_not_runs (h : ∀ p a q, ¬ Runs m p a q) : Follows V m n :=
  fun p a q hr => absurd hr (h p a q)

theorem fail (f : Fault) : Follows V (Compile.fail f) n := of_not_runs fun _ _ _ => runs_fail

theorem throw (e : Refusal) : Follows V (MonadExcept.throw e : Compile α) n :=
  of_not_runs fun _ _ _ => runs_throw

/-- One step for each of two lists of related values. -/
theorem foldlM {ι κ σ τ : Type} {P : ι → κ → Prop} {U : σ → τ → Prop} {f : σ → ι → Compile σ}
    {g : τ → κ → Compile τ} {is : List ι} {ks : List κ} (h : List.Forall₂ P is ks)
    (hs : ∀ a b i k, P i k → U a b → Follows U (f a i) (g b k)) :
    ∀ a b, U a b → Follows U (is.foldlM f a) (ks.foldlM g b) := by
  induction h with
  | nil => exact fun a b hu => .pure hu
  | cons hp _ ih =>
    intro a b hu
    rw [List.foldlM_cons, List.foldlM_cons]
    exact (hs a b _ _ hp hu).bind ih

theorem forM {ι κ : Type} {P : ι → κ → Prop} {f : ι → Compile Unit} {g : κ → Compile Unit}
    {is : List ι} {ks : List κ} (h : List.Forall₂ P is ks)
    (hs : ∀ i k, P i k → Follows Eq (f i) (g k)) : Follows Eq (is.forM f) (ks.forM g) := by
  induction h with
  | nil => exact .pure rfl
  | cons hp _ ih => exact (hs _ _ hp).andThen fun _ => ih

theorem filterMapM {ι κ : Type} {P : ι → κ → Prop} {f : ι → Compile (Option α)}
    {g : κ → Compile (Option β)} {is : List ι} {ks : List κ} (h : List.Forall₂ P is ks)
    (hs : ∀ i k, P i k → Follows (Option.Rel V) (f i) (g k)) :
    Follows (List.Forall₂ V) (is.filterMapM f) (ks.filterMapM g) := by
  induction h with
  | nil => exact .pure .nil
  | cons hp _ ih =>
    rw [List.filterMapM_cons, List.filterMapM_cons]
    refine (hs _ _ hp).bind fun a b found => ?_
    cases found with
    | none => exact ih
    | some hv => exact ih.bind fun as bs rest => .pure (.cons hv rest)

end Follows

/-! ## Names -/

def OneName (a b : Option QName) : Prop := ∃ name, a = some name ∧ b = some name

section

variable {S T : Setting} {s t : Site} {v w : String}

theorem follows_report (strict : S.options.failOnUnresolved.holds = true) {α β : Type}
    {V : α → β → Prop} (f : Fault) (key : String) (k : Unit → Compile α) (n : Compile β) :
    Follows V (report S f key >>= k) n := by
  refine .of_not_runs fun p a q hr => ?_
  obtain ⟨_, _, hr, -⟩ := runs_bind.mp hr
  rw [(runs_report.mp hr).1] at strict
  cases strict

theorem follows_qualify (strict : S.options.failOnUnresolved.holds = true)
    (same : Reference.Same s t v w) (owner : Owner) :
    Follows OneName (qualify S v s owner) (qualify T w t owner) := by
  unfold qualify Reference.qualify
  cases hv : Reference.meaning v s with
  | ok name =>
    rw [same.ok hv]
    exact .pure ⟨name, rfl, rfl⟩
  | error pfx => exact follows_report strict _ _ _ _

theorem hasOwnType_respelt {m n : Xml.Node} {reads : String} {d e : SchemaDocument}
    (hn : Xml.Node.Respelt reads d e m n) : hasOwnType m = hasOwnType n := by
  unfold hasOwnType
  rw [← Option.not_isSome, ← Option.not_isSome, hn.isSome_filled (by decide), hn.isSome_child]

theorem isNillable_respelt {m n : Xml.Node} {reads : String} {d e : SchemaDocument}
    (hn : Xml.Node.Respelt reads d e m n) : isNillable m = isNillable n := by
  unfold isNillable
  rw [hn.plain _ (by decide)]

variable (h : S.Respelt T) (strict : S.options.failOnUnresolved.holds = true)

include h strict

/-- A reference that means something leads to one declaration. -/
theorem follows_lookup (space : Space) (same : Reference.Same s t v w) (owner : Owner) :
    Follows (fun a b => ∃ d e, a = some d ∧ b = some e ∧ d.Respelt e) (lookup S space v s owner)
      (lookup T space w t owner) := by
  refine (follows_qualify strict same owner).bind ?_
  rintro _ _ ⟨name, rfl, rfl⟩
  dsimp only
  rcases rel_cases (h.declarations.lookup space name) with ⟨hd, -⟩ | ⟨d, e, hd, he, respelt⟩
  · rw [hd]
    exact follows_report strict _ _ _ _
  · rw [hd, he]
    exact .pure ⟨d, e, rfl, rfl, respelt⟩

/-! ## Types -/

theorem follows_resolveTypeWith {f g : Declaration → Compile ScalarAlias}
    (hfg : ∀ d e, d.Respelt e → Follows Eq (f d) (g e)) (same : Reference.Same s t v w)
    (owner : Owner) : Follows Eq (resolveTypeWith S f v s owner) (resolveTypeWith T g w t owner) := by
  refine (follows_qualify strict same owner).bind ?_
  rintro _ _ ⟨name, rfl, rfl⟩
  dsimp only
  rw [← h.options]
  split
  · exact .pure rfl
  split
  · exact .refl _
  rcases rel_cases (h.declarations.lookup .type name) with ⟨hd, -⟩ | ⟨d, e, hd, he, respelt⟩
  · rw [hd]
    exact follows_report strict _ _ _ _
  · rw [hd, he]
    dsimp only
    rw [← respelt.isSimpleType]
    split
    · exact (hfg d e respelt).andThen fun a => .pure rfl
    · exact .refl _

theorem follows_simpleShapeWith {f g : Declaration → Compile ScalarAlias}
    (hfg : ∀ d e, d.Respelt e → Follows Eq (f d) (g e)) (hs : s.Respelt Vocabulary.xsd t)
    (owner : Owner) :
    Follows Eq (simpleShapeWith S f owner s) (simpleShapeWith T g owner t) := by
  have derivation := SimpleDerivation.respelt_ofNode s.node t.node hs
  unfold simpleShapeWith
  dsimp only
  generalize SimpleDerivation.ofNode s.node = a at derivation ⊢
  generalize SimpleDerivation.ofNode t.node = b at derivation ⊢
  obtain ⟨origin, steps⟩ := a
  obtain ⟨origin', steps'⟩ := b
  obtain ⟨origins, same⟩ := derivation
  obtain rfl : steps = steps' := same
  dsimp only at origins ⊢
  cases origins with
  | text => exact .pure rfl
  | named site reference =>
    refine (follows_resolveTypeWith h strict hfg reference owner).andThen fun ref => ?_
    split
    · exact .refl _
    · exact .fail _
    · exact .pure rfl

theorem follows_compileAliasIn (depth : Nat) : ∀ (chain : List QName) (d e : Declaration),
    d.Respelt e → Follows Eq (compileAliasIn S depth chain d) (compileAliasIn T depth chain e) := by
  induction depth with
  | zero => exact fun _ _ _ _ => .fail _
  | succ depth ih =>
    intro chain d e hd
    unfold compileAliasIn
    rw [← hd.name, ← hd.site.node.documentation]
    refine (Follows.refl _).andThen fun i => ?_
    refine (Follows.refl _).andThen fun i' => ?_
    split
    · exact .pure rfl
    split
    · exact .fail _
    · exact (follows_simpleShapeWith h strict (ih _) hd.site _).andThen fun shape => .refl _

theorem follows_compileAlias (d e : Declaration) (hd : d.Respelt e) :
    Follows Eq (compileAlias S d) (compileAlias T e) := by
  unfold compileAlias
  rw [show S.declarations.entries.length = T.declarations.entries.length from
    h.declarations.length_eq]
  exact follows_compileAliasIn h strict _ _ d e hd

/-- A reference to a type comes to the type that it came to. -/
theorem follows_resolveType (same : Reference.Same s t v w) (owner : Owner) :
    Follows Eq (resolveType S v s owner) (resolveType T w t owner) :=
  follows_resolveTypeWith h strict (follows_compileAlias h strict) same owner

theorem follows_statedType (default : QName) (owner simpleOwner : Owner)
    (hs : s.Respelt Vocabulary.xsd t) :
    Follows Eq (statedType S default owner simpleOwner s) (statedType T default owner simpleOwner t) := by
  unfold statedType
  rcases rel_cases (hs.reference "type" (by decide)) with
    ⟨hm, hn⟩ | ⟨v, w, hm, hn, reference⟩
  · rw [hm, hn]
    rcases rel_cases (hs.child "simpleType") with ⟨hm, hn⟩ | ⟨m, n, hm, hn, site⟩
    · rw [hm, hn, h.options]
      exact .pure rfl
    · rw [hm, hn]
      exact (follows_simpleShapeWith h strict (follows_compileAlias h strict) site _).andThen
        fun shape => .pure rfl
  · rw [hm, hn]
    exact follows_resolveType h strict reference.same owner

theorem follows_globalElementType {d e : Declaration} (hd : d.Respelt e) (owner : Owner) :
    Follows Eq (globalElementType S d owner) (globalElementType T e owner) := by
  unfold globalElementType
  rw [← hasOwnType_respelt hd.site.node, ← hd.name]
  split
  · exact .refl _
  · exact follows_statedType h strict _ _ _ hd.site

/-! ## Elements and attributes -/

theorem follows_elementReference (same : Reference.Same s t v w) (owner : Owner) :
    Follows Eq (elementReference S v s owner) (elementReference T w t owner) := by
  refine (follows_lookup h strict .element same owner).bind ?_
  rintro _ _ ⟨d, e, rfl, rfl, respelt⟩
  refine (follows_globalElementType h strict respelt owner).andThen fun ref => ?_
  rw [respelt.name, isNillable_respelt respelt.site.node]
  exact .pure rfl

theorem follows_attributeReference (same : Reference.Same s t v w) (owner : Owner) :
    Follows Eq (attributeReference S v s owner) (attributeReference T w t owner) := by
  refine (follows_qualify strict same owner).bind ?_
  rintro _ _ ⟨name, rfl, rfl⟩
  dsimp only
  rw [← h.options]
  split
  · exact .pure rfl
  · rcases rel_cases (h.declarations.lookup .attributes name) with ⟨hd, -⟩ | ⟨d, e, hd, he, respelt⟩
    · rw [hd]
      exact follows_report strict _ _ _ _
    · rw [hd, he]
      exact (follows_statedType h strict _ _ _ respelt.site).andThen fun ref => .pure rfl

/-- The items of an encoded array are of the type that they were of. -/
theorem follows_encodedItem (hs : s.Respelt Vocabulary.xsd t) (reference : Reference.Respelt s t v w)
    (owner : Owner) : Follows Eq (encodedItem S v s owner) (encodedItem T w t owner) := by
  unfold encodedItem
  rw [← reference.localPart]
  split
  · exact .pure rfl
  cases hv : Reference.meaning v s with
  | error pfx =>
    obtain ⟨pfx', hw⟩ := reference.same.error hv
    rw [hw]
    exact .pure rfl
  | ok name =>
    rw [reference.same.ok hv, ← h.options]
    dsimp only
    split
    · exact .pure rfl
    rcases rel_cases (hs.reference (Vocabulary.clark Vocabulary.wsdl "arrayType") (by decide))
      with ⟨hm, hn⟩ | ⟨written, written', hm, hn, array⟩
    · rw [hm, hn]
      exact .pure rfl
    · rw [hm, hn]
      refine (follows_resolveType h strict array.same.items owner).map fun a b same => ?_
      rw [same]

end

end Compile

end WsdlCatalog
