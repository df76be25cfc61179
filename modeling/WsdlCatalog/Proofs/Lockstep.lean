/-
  WsdlCatalog.Proofs.Lockstep — two compilations step by step.

  Everything that follows references is made of a few kinds of steps: a result, one step
  after another, a refusal, a report, a simple type that is compiled, and a canonical name
  that is looked up. A relation between the steps of two compilations that holds of these
  (`Lockstep`) holds of all that is made of them. `Good` is what is known of the types that
  references come to, `Noted` what is known once something was reported; a relation that
  says nothing of them takes what is always true.

  Proved: such a relation holds of references to types, elements and attributes
  (`Lockstep.resolveType`, `Lockstep.elementReference`, `Lockstep.attributeReference`).
-/

import Mathlib.Data.List.Forall2
import WsdlCatalog.Proofs.Bare
import WsdlCatalog.Proofs.Run
import WsdlCatalog.Proofs.Unanswered

namespace WsdlCatalog

/-! ## Results -/

def SameResult {ε α β : Type} (V : α → β → Prop) : Except ε α → Except ε β → Prop
  | .ok a, .ok b => V a b
  | .error e, .error f => e = f
  | _, _ => False

section

variable {ε α β γ δ : Type} {V : α → β → Prop} {W : γ → δ → Prop} {x : Except ε α}
  {y : Except ε β}

theorem sameResult_self {V : α → α → Prop} (h : ∀ a, x = .ok a → V a a) : SameResult V x x := by
  cases x with
  | error e => exact (rfl : e = e)
  | ok a => exact h a rfl

theorem SameResult.cases (h : SameResult V x y) :
    (∃ e, x = .error e ∧ y = .error e) ∨ ∃ a b, x = .ok a ∧ y = .ok b ∧ V a b := by
  cases x with
  | error e =>
    cases y with
    | error f => exact .inl ⟨e, rfl, congrArg _ (h : e = f).symm⟩
    | ok b => exact h.elim
  | ok a =>
    cases y with
    | error f => exact h.elim
    | ok b => exact .inr ⟨a, b, rfl, rfl, h⟩

/-- Results that are the same up to something. -/
theorem sameResult_of_map {f : α → γ} {g : β → γ} (h : x.map f = y.map g) :
    SameResult (fun a b => f a = g b) x y := by
  cases x with
  | error e =>
    cases y with
    | error f => exact Except.error.inj h
    | ok b => cases h
  | ok a =>
    cases y with
    | error f => cases h
    | ok b => exact Except.ok.inj h

/-- More may be known of results. -/
theorem SameResult.conseq (h : SameResult V x y) {V' : α → β → Prop}
    (hw : ∀ a b, x = .ok a → y = .ok b → V a b → V' a b) : SameResult V' x y := by
  obtain ⟨e, rfl, rfl⟩ | ⟨a, b, rfl, rfl, hv⟩ := h.cases
  · exact (rfl : e = e)
  · exact hw a b rfl rfl hv

theorem SameResult.bind (h : SameResult V x y) {k : α → Except ε γ} {l : β → Except ε δ}
    (hk : ∀ a b, V a b → SameResult W (k a) (l b)) : SameResult W (x >>= k) (y >>= l) := by
  obtain ⟨e, rfl, rfl⟩ | ⟨a, b, rfl, rfl, hv⟩ := h.cases
  · exact (rfl : e = e)
  · exact hk a b hv

end

/-! ## Steps -/

/-- The settings of two compilations that differ in how they treat references that mean
nothing and the branches of choices, and in the documents around the declarations. -/
structure Setting.Alike (S T : Setting) : Prop where
  declarations : S.declarations.Alike T.declarations
  builtin (name : QName) : Builtin.ref S.options name = Builtin.ref T.options name
  nillable : S.options.nillableAsOptional = T.options.nillableAsOptional

namespace Compile

/-- A relation between the steps of two compilations that holds of the simplest steps. `Good`
holds of the types that references come to, and `Noted` after a report. -/
structure Steps (S T : Setting)
    (R : ∀ {α β : Type}, (α → β → Prop) → Compile α → Compile β → Prop)
    (Good : TypeRef → Prop) (Noted : Prop) : Prop where
  alike : S.Alike T
  pure {α β : Type} {V : α → β → Prop} {a : α} {b : β} (h : V a b) : R V (pure a) (pure b)
  bind {α β γ δ : Type} {V : α → β → Prop} {W : γ → δ → Prop} {m : Compile α} {n : Compile β}
    {k : α → Compile γ} {l : β → Compile δ} (h : R V m n) (hk : ∀ a b, V a b → R W (k a) (l b)) :
    R W (m >>= k) (n >>= l)
  throw {α β : Type} {V : α → β → Prop} (e : Refusal) : R V (throw e) (throw e)
  report {fault : Fault} (hf : fault.IsUnanswered) (key : String) :
    R (fun _ _ => Noted) (report S fault key) (report T fault key)
  /-- The canonical name of a complex type. -/
  typeName {name : QName} {d : Declaration} (hd : S.declarations.lookup .type name = some d)
    (hs : d.isSimpleType = false) :
    R (fun a b => a = b ∧ Good a)
      (inventory >>= fun i => Pure.pure
        ⟨.structural, name.label, .untyped, i.canonical? (ownerOfType name), none, false⟩)
      (inventory >>= fun i => Pure.pure
        ⟨.structural, name.label, .untyped, i.canonical? (ownerOfType name), none, false⟩)
  builtinType (name : QName) : Good (Builtin.ref S.options name)
  /-- A type of encoded values that is not built in. -/
  encodedType (name : QName) : Good ⟨.scalar, name.label, .untyped, none, none, false⟩
  unresolved (h : Noted) (declared : String) : Good (.unresolved declared)

structure Lockstep (S T : Setting)
    (R : ∀ {α β : Type}, (α → β → Prop) → Compile α → Compile β → Prop)
    (Good : TypeRef → Prop) (Noted : Prop) : Prop extends Steps S T R Good Noted where
  /-- The canonical name of the type inside a global element. -/
  elementName {d : Declaration} (hd : S.declarations.lookup .element d.name = some d)
    (ho : hasOwnType d.site.node = true) :
    R (fun a b => a = b ∧ Good a)
      (inventory >>= fun i => Pure.pure
        ⟨.structural, d.name.label, .untyped, i.canonical? (ownerOfElement d.name), none, false⟩)
      (inventory >>= fun i => Pure.pure
        ⟨.structural, d.name.label, .untyped, i.canonical? (ownerOfElement d.name), none, false⟩)
  /-- A simple type that is referred to. -/
  simpleType {d e : Declaration} (h : d.bare = e.bare)
    (hd : S.declarations.lookup .type d.name = some d)
    (he : T.declarations.lookup .type e.name = some e) (hs : d.isSimpleType = true) :
    R (fun a b => a = b ∧ Good (.ofAlias a)) (compileAlias S d) (compileAlias T e)
  /-- The shape of a simple type without a name. -/
  shape (owner : Owner) {s t : Site} (h : s.bare = t.bare) :
    R (fun a b => a = b ∧ Good a.toRef) (simpleShapeWith S (compileAlias S) owner s)
      (simpleShapeWith T (compileAlias T) owner t)

def Found (S T : Setting) (Noted : Prop) (space : Space) (a b : Option Declaration) : Prop :=
  (a = none ∧ b = none ∧ Noted) ∨
    ∃ d e, a = some d ∧ b = some e ∧ d.bare = e.bare ∧
      S.declarations.lookup space d.name = some d ∧ T.declarations.lookup space e.name = some e

/-- Both references come to one type, of which `Good` holds. -/
def SameType (Good : TypeRef → Prop) (a b : TypeRef) : Prop := a = b ∧ Good a

/-- Both references stand for one thing, of whose type `Good` holds. -/
def SameReferenced (Good : TypeRef → Prop) (a b : Referenced) : Prop := a = b ∧ Good a.typeRef

namespace Steps

variable {S T : Setting}
  {R : ∀ {α β : Type}, (α → β → Prop) → Compile α → Compile β → Prop}
  {Good : TypeRef → Prop} {Noted : Prop}

/-! ## Making steps from steps -/

theorem weaken (L : Steps S T R Good Noted) {α β : Type} {V W : α → β → Prop}
    {m : Compile α} {n : Compile β} (h : R V m n) (hw : ∀ a b, V a b → W a b) : R W m n := by
  have := L.bind h fun a b hv => L.pure (hw a b hv)
  simpa only [bind_pure] using this

theorem map (L : Steps S T R Good Noted) {α β γ δ : Type} {V : α → β → Prop}
    {W : γ → δ → Prop} {m : Compile α} {n : Compile β} {f : α → γ} {g : β → δ} (h : R V m n)
    (hw : ∀ a b, V a b → W (f a) (g b)) : R W (f <$> m) (g <$> n) := by
  rw [← bind_pure_comp, ← bind_pure_comp]
  exact L.bind h fun a b hv => L.pure (hw a b hv)

theorem fail (L : Steps S T R Good Noted) {α β : Type} {V : α → β → Prop} (f : Fault) :
    R V (fail f) (fail f) := L.throw (.fault f)

theorem ofExcept (L : Steps S T R Good Noted) {α β : Type} {V : α → β → Prop}
    {x : Except Fault α} {y : Except Fault β} (h : SameResult V x y) :
    R V (ofExcept x) (ofExcept y) := by
  obtain ⟨f, rfl, rfl⟩ | ⟨a, b, rfl, rfl, hv⟩ := h.cases
  · exact L.fail f
  · exact L.pure hv

theorem atSite (L : Steps S T R Good Noted) {α β : Type} {V : α → β → Prop} {s t : Site}
    (h : s.bare = t.bare) (owner : Owner) {x : Except ModelFault α} {y : Except ModelFault β}
    (hxy : SameResult V x y) : R V (atSite s owner x) (atSite t owner y) := by
  unfold Compile.atSite
  rw [funext (Site.modelFault_of_bare h owner)]
  refine L.ofExcept ?_
  obtain ⟨e, rfl, rfl⟩ | ⟨a, b, rfl, rfl, hv⟩ := hxy.cases
  · exact (rfl : t.modelFault owner e = _)
  · exact hv

/-- One step for each of two lists of like steps. -/
theorem foldlM (L : Steps S T R Good Noted) {ι κ σ : Type} {P : ι → κ → Prop}
    {V : σ → σ → Prop} {f : σ → ι → Compile σ} {g : σ → κ → Compile σ} {is : List ι} {ks : List κ}
    (h : List.Forall₂ P is ks) (hs : ∀ a b i k, P i k → V a b → R V (f a i) (g b k)) :
    ∀ a b, V a b → R V (is.foldlM f a) (ks.foldlM g b) := by
  induction h with
  | nil => exact fun a b hv => L.pure hv
  | cons hp _ ih =>
    intro a b hv
    simp only [List.foldlM_cons]
    exact L.bind (hs a b _ _ hp hv) ih

theorem forM (L : Steps S T R Good Noted) {ι : Type} {f g : ι → Compile Unit}
    (h : ∀ i, R Eq (f i) (g i)) (is : List ι) : R Eq (forM is f) (forM is g) := by
  induction is with
  | nil => exact L.pure rfl
  | cons i rest ih => exact L.bind (h i) fun _ _ _ => ih

theorem filterMapM (L : Steps S T R Good Noted) {ι α : Type} {f g : ι → Compile (Option α)}
    (h : ∀ i, R Eq (f i) (g i)) (is : List ι) : R Eq (is.filterMapM f) (is.filterMapM g) := by
  induction is with
  | nil => exact L.pure rfl
  | cons i rest ih =>
    rw [List.filterMapM_cons, List.filterMapM_cons]
    refine L.bind (h i) ?_
    intro a _ same
    subst same
    cases a with
    | none => exact ih
    | some a =>
      refine L.bind ih ?_
      intro found _ same
      subst same
      exact L.pure rfl

/-! ## Names -/

theorem qualify (L : Steps S T R Good Noted) (reference : String) {s t : Site}
    (h : s.bare = t.bare) (referencedBy : Option String) :
    R (fun a b => a = b ∧ (a = none → Noted)) (qualify S reference s referencedBy)
      (qualify T reference t referencedBy) := by
  unfold Compile.qualify
  rw [Reference.qualify_of_bare h]
  cases hq : Reference.qualify reference t referencedBy with
  | ok name => exact L.pure ⟨rfl, fun e => nomatch e⟩
  | error fault =>
    exact L.bind (L.report (Reference.unanswered_of_qualify hq) reference) fun _ _ hn =>
      L.pure ⟨rfl, fun _ => hn⟩

theorem missing (L : Steps S T R Good Noted) (space : Space) (name : QName) {s t : Site}
    (h : s.bare = t.bare) (referencedBy : Option String) :
    R (fun _ _ => Noted) (missing S space name s referencedBy)
      (missing T space name t referencedBy) := by
  unfold Compile.missing
  rw [Site.location_of_bare h]
  have hf : (Fault.undeclared space name referencedBy t.document.location).IsUnanswered := rfl
  exact L.report hf _

theorem lookup (L : Steps S T R Good Noted) (space : Space) (reference : String) {s t : Site}
    (h : s.bare = t.bare) (referencedBy : Option String) :
    R (Found S T Noted space) (lookup S space reference s referencedBy)
      (lookup T space reference t referencedBy) := by
  refine L.bind (L.qualify reference h referencedBy) ?_
  intro name _ hn
  rcases hn with ⟨rfl, hn⟩
  cases name with
  | none => exact L.pure (.inl ⟨rfl, rfl, hn rfl⟩)
  | some name =>
    dsimp only
    obtain ⟨hd, he⟩ | ⟨d, e, hd, he, hb⟩ := L.alike.declarations.cases space name
    · rw [hd, he]
      exact L.bind (L.missing space name h referencedBy) fun _ _ hn =>
        L.pure (.inl ⟨rfl, rfl, hn⟩)
    · rw [hd, he]
      refine L.pure (.inr ⟨d, e, rfl, rfl, hb, ?_, ?_⟩)
      · rw [Declarations.name_of_lookup hd]; exact hd
      · rw [Declarations.name_of_lookup he]; exact he

/-! ## Types -/

theorem resolveTypeWith (L : Steps S T R Good Noted)
    {f g : Declaration → Compile ScalarAlias}
    (hfg : ∀ {d e : Declaration}, d.bare = e.bare →
      S.declarations.lookup .type d.name = some d → T.declarations.lookup .type e.name = some e →
      d.isSimpleType = true → R (fun a b => a = b ∧ Good (.ofAlias a)) (f d) (g e))
    (reference : String) {s t : Site} (h : s.bare = t.bare) (referencedBy : Option String) :
    R (SameType Good) (resolveTypeWith S f reference s referencedBy)
      (resolveTypeWith T g reference t referencedBy) := by
  refine L.bind (L.qualify reference h referencedBy) ?_
  intro name _ hn
  rcases hn with ⟨rfl, hn⟩
  cases name with
  | none => exact L.pure ⟨rfl, L.unresolved (hn rfl) _⟩
  | some name =>
    dsimp only
    rw [← L.alike.builtin]
    split
    · exact L.pure ⟨rfl, L.builtinType name⟩
    split
    · split
      · exact L.pure ⟨rfl, L.builtinType name⟩
      · exact L.pure ⟨rfl, L.encodedType name⟩
    · obtain ⟨hd, he⟩ | ⟨d, e, hd, he, hb⟩ := L.alike.declarations.cases .type name
      · rw [hd, he]
        exact L.bind (L.missing .type name h referencedBy) fun _ _ hn =>
          L.pure ⟨rfl, L.unresolved hn _⟩
      · rw [hd, he]
        dsimp only
        rw [← Declaration.isSimpleType_of_bare hb]
        split
        · rename_i hs
          have hdn := Declarations.name_of_lookup hd
          have hen := Declarations.name_of_lookup he
          refine L.bind (hfg hb (hdn ▸ hd) (hen ▸ he) hs) ?_
          intro a _ hg
          rcases hg with ⟨rfl, hg⟩
          exact L.pure ⟨rfl, hg⟩
        · rename_i hs
          exact L.typeName hd (Bool.eq_false_iff.mpr hs)

end Steps

namespace Lockstep

variable {S T : Setting}
  {R : ∀ {α β : Type}, (α → β → Prop) → Compile α → Compile β → Prop}
  {Good : TypeRef → Prop} {Noted : Prop}

/-- Less may be known of the types that references come to. -/
theorem mono (L : Lockstep S T R Good Noted) {Good' : TypeRef → Prop}
    (h : ∀ ref, Good ref → Good' ref) : Lockstep S T R Good' Noted where
  alike := L.alike
  pure := L.pure
  bind := L.bind
  throw := L.throw
  report := L.report
  typeName hd hs := L.weaken (L.typeName hd hs) fun _ _ hg => hg.imp id (h _)
  builtinType name := h _ (L.builtinType name)
  encodedType name := h _ (L.encodedType name)
  unresolved hn declared := h _ (L.unresolved hn declared)
  elementName hd ho := L.weaken (L.elementName hd ho) fun _ _ hg => hg.imp id (h _)
  simpleType hb hd he hs := L.weaken (L.simpleType hb hd he hs) fun _ _ hg => hg.imp id (h _)
  shape owner _ _ hb := L.weaken (L.shape owner hb) fun _ _ hg => hg.imp id (h _)

theorem resolveType (L : Lockstep S T R Good Noted) (reference : String) {s t : Site}
    (h : s.bare = t.bare) (referencedBy : Option String) :
    R (SameType Good) (resolveType S reference s referencedBy)
      (resolveType T reference t referencedBy) :=
  L.resolveTypeWith L.simpleType reference h referencedBy

theorem statedType (L : Lockstep S T R Good Noted) (default : QName) (owner simpleOwner : Owner)
    {s t : Site} (h : s.bare = t.bare) :
    R (SameType Good) (statedType S default owner simpleOwner s)
      (statedType T default owner simpleOwner t) := by
  unfold Compile.statedType
  rw [Site.node_of_bare h]
  split
  · exact L.resolveType _ h owner
  · split
    · refine L.bind (L.shape simpleOwner (Site.bare_atNode h _)) ?_
      intro shape _ hg
      rcases hg with ⟨rfl, hg⟩
      exact L.pure ⟨rfl, hg⟩
    · exact L.pure ⟨L.alike.builtin default, L.builtinType default⟩

theorem globalElementType (L : Lockstep S T R Good Noted) {d e : Declaration}
    (h : d.bare = e.bare) (hd : S.declarations.lookup .element d.name = some d)
    (referencedBy : Option String) :
    R (SameType Good) (globalElementType S d referencedBy) (globalElementType T e referencedBy) := by
  have hs := Declaration.site_of_bare h
  unfold Compile.globalElementType
  rw [← Site.node_of_bare hs, ← Declaration.name_of_bare h]
  split
  · rename_i ho
    exact L.elementName hd ho
  · exact L.statedType _ _ _ hs

/-! ## Elements and attributes -/

theorem elementReference (L : Lockstep S T R Good Noted) (reference : String) {s t : Site}
    (h : s.bare = t.bare) (owner : Owner) :
    R (SameReferenced Good) (elementReference S reference s owner) (elementReference T reference t owner) := by
  refine L.bind (L.lookup .element reference h owner) ?_
  intro _ _ given
  rcases given with ⟨rfl, rfl, hn⟩ | ⟨d, e, rfl, rfl, hb, hd, -⟩
  · exact L.pure ⟨rfl, L.unresolved hn _⟩
  · refine L.bind (L.globalElementType hb hd owner) ?_
    intro ref _ hg
    rcases hg with ⟨rfl, hg⟩
    rw [Declaration.name_of_bare hb, Site.node_of_bare (Declaration.site_of_bare hb)]
    exact L.pure ⟨rfl, hg⟩

theorem attributeType (L : Lockstep S T R Good Noted) {s t : Site} (h : s.bare = t.bare)
    (owner : Owner) : R (SameType Good) (attributeType S s owner) (attributeType T t owner) :=
  L.statedType _ _ _ h

theorem attributeReference (L : Lockstep S T R Good Noted) (reference : String) {s t : Site}
    (h : s.bare = t.bare) (owner : Owner) :
    R (SameReferenced Good) (attributeReference S reference s owner)
      (attributeReference T reference t owner) := by
  refine L.bind (L.qualify reference h owner) ?_
  intro name _ hn
  rcases hn with ⟨rfl, hn⟩
  cases name with
  | none => exact L.pure ⟨rfl, L.unresolved (hn rfl) _⟩
  | some name =>
    dsimp only
    split
    · have known := L.builtinType .stringType
      rw [L.alike.builtin] at known ⊢
      exact L.pure ⟨rfl, known⟩
    · obtain ⟨hd, he⟩ | ⟨d, e, hd, he, hb⟩ := L.alike.declarations.cases .attributes name
      · rw [hd, he]
        exact L.bind (L.missing .attributes name h owner) fun _ _ hn =>
          L.pure ⟨rfl, L.unresolved hn _⟩
      · rw [hd, he]
        refine L.bind (L.attributeType (Declaration.site_of_bare hb) owner) ?_
        intro ref _ hg
        rcases hg with ⟨rfl, hg⟩
        exact L.pure ⟨rfl, hg⟩

theorem encodedItem (L : Lockstep S T R Good Noted) (reference : String) {s t : Site}
    (h : s.bare = t.bare) (owner : Owner) :
    R (fun a b => a = b ∧ ∀ ref, a = some ref → Good ref) (encodedItem S reference s owner)
      (encodedItem T reference t owner) := by
  have none_ok : R (fun a b : Option TypeRef => a = b ∧ ∀ ref, a = some ref → Good ref)
      (Pure.pure none) (Pure.pure none) := L.pure ⟨rfl, fun _ e => nomatch e⟩
  unfold Compile.encodedItem
  rw [Reference.meaning_of_bare h, Site.node_of_bare h]
  split
  · exact none_ok
  split
  · exact none_ok
  split
  · exact none_ok
  split
  · refine L.pure ⟨congrArg some (L.alike.builtin _), fun ref e => ?_⟩
    cases e
    exact L.builtinType _
  · refine L.map (L.resolveType _ h owner) ?_
    intro ref _ hg
    rcases hg with ⟨rfl, hg⟩
    exact ⟨rfl, fun _ e => Option.some.inj e ▸ hg⟩

end Lockstep

end Compile

end WsdlCatalog
