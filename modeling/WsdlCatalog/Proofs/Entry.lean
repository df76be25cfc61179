/-
  WsdlCatalog.Proofs.Entry — entries of complex types and their definitions.

  A complex type with an entry has a definition. It was made from there, and so was the type
  inside the first of its elements of a name (`Entry`). Steps that follow references leave
  all of this alone (`Quiet`), and an element is either such a step or has a type inside it
  that was met before or is compiled now (`runs_elementParticle`, `runs_nestedType`).
-/

import WsdlCatalog.Proofs.Definition
import WsdlCatalog.Proofs.Jobs

namespace WsdlCatalog

namespace Compile

variable {S : Setting}

/-! ## Entries and their definitions -/

def Made (S : Setting) (owner : String) (name : QName) (anonymous : Bool) (site : Site)
    (t : StructuralType) : Prop :=
  ∃ depth body p q, p.inventory.Tidy ∧
    Runs (bodyOf S (complexTypeIn S depth true) (some owner) site) p body q ∧
    t = body.toType S.options (some owner) name site.node.documentation? anonymous

/-- The type inside the elements of a name was made from the first one that has one. -/
def InnerMade (S : Setting) (i : Inventory) (owner element : String) (inner : Site) : Prop :=
  ∃ t, (some (owner ++ Text.pascal element), t) ∈ i.types ∧
    Made S (owner ++ Text.pascal element) (nestedName owner element inner) true inner t

structure Entry (S : Setting) (i : Inventory) (owner : String) (name : QName) (anonymous : Bool)
    (site : Site) (t : StructuralType) : Prop where
  held : i.HeldAs owner anonymous
  defined : Defined S owner name anonymous site
  made : Made S owner name anonymous site t
  inner : ∀ element inner,
    S.declarations.firstInner? element (contentSites S.declarations owner site) = some inner →
      InnerMade S i owner element inner
  /-- An element refers to the type inside it, if it is the first of its name. -/
  refers : ∀ element first inner,
    S.declarations.first? element (contentSites S.declarations owner site) = some first →
      first.inner? = some inner → element ≠ textSlotName → ∃ e ∈ t.elements, e.name = element ∧
        e.typeRef = .ofStructure (owner ++ Text.pascal element) (nestedName owner element inner).label

def Entered (S : Setting) (i : Inventory) : Prop :=
  ∀ x ∈ i.types, ∃ owner name anonymous site, x.1 = some owner ∧ Entry S i owner name anonymous site x.2

theorem InnerMade.mono {i j : Inventory} (hs : i.types ⊆ j.types) {owner element : String}
    {inner : Site} (h : InnerMade S i owner element inner) : InnerMade S j owner element inner :=
  h.imp fun _ ht => ⟨hs ht.1, ht.2⟩

theorem Entry.mono {i j : Inventory} (hr : i.reservations ⊆ j.reservations)
    (hs : i.types ⊆ j.types) {owner : String} {name : QName} {anonymous : Bool} {site : Site}
    {t : StructuralType} (h : Entry S i owner name anonymous site t) :
    Entry S j owner name anonymous site t :=
  ⟨h.held.mono hr, h.defined, h.made, fun element inner hi => (h.inner element inner hi).mono hs,
    h.refers⟩

theorem Entered.mono {i j : Inventory} (hr : i.reservations ⊆ j.reservations)
    (he : j.types = i.types) (h : Entered S i) : Entered S j := by
  intro x hx
  obtain ⟨owner, name, anonymous, site, hk, entry⟩ := h x (he ▸ hx)
  exact ⟨owner, name, anonymous, site, hk, entry.mono hr (he ▸ List.Subset.refl _)⟩

/-! ## References -/

def Framed (reservations : List Reservation) (types : List (Option String × StructuralType))
    (p : Progress) : Prop :=
  p.inventory.Tidy ∧ p.inventory.reservations = reservations ∧ p.inventory.types = types

theorem kept_framed (reservations : List Reservation) (types : List (Option String × StructuralType)) :
    Kept (Framed reservations types) where
  note _ _ h := h
  entered h hn ha := ⟨h.1.withAlias hn ha, h.2⟩
  known h x hx := (h.1.aliases x hx).2

structure Quiet (p q : Progress) : Prop where
  tidy : q.inventory.Tidy
  reservations : q.inventory.reservations = p.inventory.reservations
  types : q.inventory.types = p.inventory.types

/-- Steps of references are quiet. -/
theorem quiet_of_keeps {α β : Type} {V : α → β → Prop} {m : Compile α} {n : Compile β} {p q : Progress}
    {a : α} (h : ∀ {R : ∀ {α β : Type}, (α → β → Prop) → Compile α → Compile β → Prop},
      Lockstep S S R (fun _ => True) True → R V m n) (hp : p.inventory.Tidy) (hr : Runs m p a q) :
    Quiet p q := by
  have kept := kept_framed p.inventory.reservations p.inventory.types
  have lockstep := (kept.lockstep (S := S)).mono fun _ _ => trivial
  obtain ⟨⟨tidy, reservations, types⟩, -⟩ := h lockstep p a q ⟨hp, rfl, rfl⟩ hr
  exact ⟨tidy, reservations, types⟩

/-! ## Elements -/

section

variable {nested : Nested} {root : String} {site inner : Site} {p q : Progress}

/-- An element refers to a type, or has one inside it. -/
theorem runs_elementParticle {e : Referenced} (hp : p.inventory.Tidy)
    (h : Runs (elementParticle S nested site (some root)) p e q) :
    (site.inner? = none ∧ Quiet p q) ∨ ∃ inner, site.inner? = some inner ∧
      Runs (nestedType nested root (S.declarations.nameOf site) inner) p e.typeRef q := by
  unfold elementParticle at h
  unfold Site.inner? Declarations.nameOf
  cases hr : site.node.filled? "ref" with
  | some reference =>
    rw [hr] at h
    exact .inl ⟨rfl, quiet_of_keeps (fun L => L.elementReference reference rfl (some root)) hp h⟩
  | none =>
    rw [hr] at h
    obtain ⟨ref, r, h, hpure⟩ := runs_bind.mp h
    obtain ⟨rfl, rfl⟩ := runs_pure.mp hpure
    rw [elementTypeWith_eq] at h
    have stated (h : Runs (statedType S .anyType (some root) (some root) site) p ref q) : Quiet p q :=
      quiet_of_keeps (fun L => L.statedType .anyType (some root) (some root) rfl) hp h
    cases ht : site.node.filled? "type" with
    | some type =>
      rw [ht] at h
      exact .inl ⟨rfl, stated h⟩
    | none =>
      rw [ht] at h
      cases hc : site.node.child? Vocabulary.xsd "complexType" with
      | none =>
        rw [hc] at h
        exact .inl ⟨rfl, stated h⟩
      | some complex =>
        rw [hc] at h
        cases ha : site.node.attribute? "name" with
        | none =>
          rw [ha] at h
          exact absurd h runs_throw
        | some element =>
          rw [ha] at h
          exact .inr ⟨_, rfl, h⟩

def nestedReservation (root element : String) (inner : Site) : Reservation :=
  ⟨ownerOfNested root element, root ++ Text.pascal element, nestedName root element inner⟩

/-- A type inside an element was met before, or is compiled now. -/
theorem runs_nestedType {element : String} {ref : TypeRef} (hp : p.inventory.Tidy)
    (hs : '/' ∉ root.toList)
    (met : ∀ r ∈ p.inventory.reservations, r.owner = ownerOfNested root element →
      some (root ++ Text.pascal element) ∈ p.inventory.typeKeys)
    (h : Runs (nestedType nested root element inner) p ref q) :
    ref = .ofStructure (root ++ Text.pascal element) (nestedName root element inner).label ∧
      ((∃ r ∈ p.inventory.reservations, r.owner = ownerOfNested root element) ∧ q = p ∨
        (∀ r ∈ p.inventory.reservations, r.owner ≠ ownerOfNested root element) ∧
        ¬ p.inventory.Held (root ++ Text.pascal element) ∧
        Runs (nested (some (root ++ Text.pascal element)) (nestedName root element inner) inner)
          (p.withReservations [nestedReservation root element inner]) () q) := by
  cases hc : p.inventory.canonical? (ownerOfNested root element) with
  | some c =>
    obtain ⟨r, hr, ho, rfl⟩ := Inventory.exists_of_canonical? hc
    have canonical := (hp.asked r hr).canonical_nested hs ho
    rw [canonical] at hc
    obtain ⟨rfl, rfl⟩ := (nestedType_again hc (met r hr ho)).mp h
    exact ⟨rfl, .inl ⟨⟨r, hr, ho⟩, rfl⟩⟩
  | none =>
    have absent := Inventory.canonical?_eq_none.mp hc
    obtain ⟨free, rfl, run⟩ := (nestedType_new rfl rfl hc fun hk =>
      hp.not_compiled (Inventory.not_held.mpr hk)).mp h
    exact ⟨rfl, .inr ⟨absent, Inventory.not_held.mpr free, run⟩⟩

end

end Compile

end WsdlCatalog
