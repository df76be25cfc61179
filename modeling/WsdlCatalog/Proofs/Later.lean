/-
  WsdlCatalog.Proofs.Later — references that are followed once more, later.

  A compilation only ever adds names and the entries of simple types (`Progress.Precedes`).
  What a reference came to is settled by names that are reserved and by entries that are
  there afterwards, so it comes to the same when it is followed again at any later time, and
  nothing is entered then. Whoever refers is told in reports and faults only, so this may be
  another one than before (`Repeats`).

  Proved: a simple type is an entry once it was compiled (`entered_compileAliasIn`), and
  references to types, elements and attributes can be repeated (`Repeats.elementParticle`,
  `Repeats.encodedItem`, `Repeats.attributeReference`).
-/

import WsdlCatalog.Proofs.Definition
import WsdlCatalog.Proofs.SimpleType

namespace WsdlCatalog

namespace Progress

def Keyed (p : Progress) : Prop := ∀ k a, p.inventory.alias? k = some a → a.name = k

structure Precedes (p q : Progress) : Prop where
  typeNames : ∀ name, q.inventory.canonical? (ownerOfType name) = p.inventory.canonical? (ownerOfType name)
  elementNames : ∀ name,
    q.inventory.canonical? (ownerOfElement name) = p.inventory.canonical? (ownerOfElement name)
  aliases : ∀ k a, p.inventory.alias? k = some a → q.inventory.alias? k = some a

theorem Precedes.of_eq {p q : Progress} (h : q.inventory = p.inventory) : p.Precedes q := by
  constructor
  · intro name
    rw [h]
  · intro name
    rw [h]
  · intro k a ha
    rwa [h]

theorem Precedes.refl (p : Progress) : p.Precedes p := .of_eq rfl

theorem Precedes.trans {p q r : Progress} (h : p.Precedes q) (h' : q.Precedes r) : p.Precedes r where
  typeNames name := (h'.typeNames name).trans (h.typeNames name)
  elementNames name := (h'.elementNames name).trans (h.elementNames name)
  aliases k a ha := h'.aliases k a (h.aliases k a ha)

theorem Keyed.of_eq {p q : Progress} (hp : p.Keyed) (h : q.inventory = p.inventory) : q.Keyed := by
  unfold Keyed
  rw [h]
  exact hp

/-- A simple type that is entered under the name it goes by, where there was nothing. -/
theorem Precedes.addAlias {p q : Progress} (hp : p.Precedes q) {a : ScalarAlias}
    (none : p.inventory.alias? a.name = none) :
    p.Precedes { q with inventory := q.inventory.addAlias a } := by
  refine ⟨hp.typeNames, hp.elementNames, fun k b hb => ?_⟩
  have other : k ≠ a.name := by
    intro same
    rw [same, none] at hb
    cases hb
  exact (lookup_put_of_ne other a _).trans (hp.aliases k b hb)

theorem Keyed.addAlias {p : Progress} (hp : p.Keyed) (a : ScalarAlias) :
    Keyed { p with inventory := p.inventory.addAlias a } := by
  intro k b hb
  by_cases same : k = a.name
  · subst same
    obtain rfl := Option.some.inj ((lookup_put _ _ _).symm.trans hb)
    rfl
  · exact hp k b ((lookup_put_of_ne same a _).symm.trans hb)

end Progress

namespace Compile

open Progress

variable {S : Setting} {p q : Progress}

/-! ## Simple types -/

/-- A step keeps the entries of simple types under their names, and leaves those that are there. -/
def Grows {α : Type} (m : Compile α) : Prop :=
  ∀ p a q, p.Keyed → Runs m p a q → q.Keyed ∧ p.Precedes q

theorem grows_simpleShapeWith {f : Declaration → Compile ScalarAlias} (hf : ∀ d, Grows (f d))
    (owner : Owner) (site : Site) : Grows (simpleShapeWith S f owner site) := by
  intro p shape q hp hr
  rw [simpleShapeWith_eq] at hr
  split at hr
  · obtain ⟨-, rfl⟩ := runs_pure.mp hr
    exact ⟨hp, .refl _⟩
  · simp only [runs_bind, runs_report, runs_pure] at hr
    obtain ⟨_, _, ⟨-, rfl⟩, -, rfl⟩ := hr
    exact ⟨hp.of_eq rfl, .of_eq rfl⟩
  · simp only [runs_bind, runs_inventory] at hr
    obtain ⟨a, r, ha, _, _, ⟨rfl, rfl⟩, hr⟩ := hr
    have grown := hf _ p a _ hp ha
    split at hr
    · obtain ⟨-, rfl⟩ := runs_pure.mp hr
      exact grown
    · exact absurd hr runs_throw
  · exact absurd hr runs_fail

theorem entered_compileAliasIn (depth : Nat) :
    ∀ {chain : List QName} {d : Declaration} {p q : Progress} {a : ScalarAlias}, p.Keyed →
      Runs (compileAliasIn S depth chain d) p a q →
        q.Keyed ∧ p.Precedes q ∧
          q.inventory.alias? (q.inventory.canonical? (ownerOfType d.name)) = some a := by
  induction depth with
  | zero => exact fun _ hr => absurd hr runs_fail
  | succ depth ih =>
    intro chain d p q a hp hr
    unfold compileAliasIn at hr
    simp only [runs_bind, runs_inventory] at hr
    obtain ⟨_, _, ⟨rfl, rfl⟩, _, start, ⟨rfl, rfl⟩, hr⟩ := hr
    split at hr
    · rename_i held hheld
      obtain ⟨rfl, rfl⟩ := runs_pure.mp hr
      exact ⟨hp, .refl _, hheld⟩
    · rename_i absent
      split at hr
      · exact absurd hr runs_fail
      · simp only [runs_bind, runs_addAlias, runs_pure] at hr
        obtain ⟨shape, r, hs, _, _, rfl, rfl, rfl⟩ := hr
        obtain ⟨keyed, precedes⟩ :=
          grows_simpleShapeWith (fun d _ _ _ hp hr => ⟨(ih hp hr).1, (ih hp hr).2.1⟩) _ _ _ _ _ hp hs
        refine ⟨keyed.addAlias _, precedes.addAlias absent, ?_⟩
        show (put _ _ r.inventory.aliases).lookup (r.inventory.canonical? (ownerOfType d.name)) = _
        rw [precedes.typeNames]
        exact lookup_put _ _ _

/-! ## Steps that are repeated -/

/-- What the first step comes to, the second one comes to at any later time, and enters nothing. -/
def Repeats {α : Type} (m n : Compile α) : Prop :=
  ∀ p a q, p.Keyed → Runs m p a q → q.Keyed ∧ p.Precedes q ∧
    ∀ p', q.Precedes p' → ∃ q', Runs n p' a q' ∧ q'.inventory = p'.inventory

namespace Repeats

variable {α β : Type}

theorem pure (a : α) : Repeats (pure a) (pure a) := by
  intro p b q hp hr
  obtain ⟨rfl, rfl⟩ := runs_pure.mp hr
  exact ⟨hp, .refl _, fun p' _ => ⟨p', runs_pure.mpr ⟨rfl, rfl⟩, rfl⟩⟩

theorem bind {m n : Compile α} {k l : α → Compile β} (h : Repeats m n)
    (hk : ∀ a, Repeats (k a) (l a)) : Repeats (m >>= k) (n >>= l) := by
  intro p b q hp hr
  obtain ⟨a, r, hm, hr⟩ := runs_bind.mp hr
  obtain ⟨keyed, first, again⟩ := h p a r hp hm
  obtain ⟨keyed, second, again'⟩ := hk a r b q keyed hr
  refine ⟨keyed, first.trans second, fun p' hp' => ?_⟩
  obtain ⟨r', hn, same⟩ := again p' (second.trans hp')
  obtain ⟨q', hl, same'⟩ := again' r' (hp'.trans (.of_eq same))
  exact ⟨q', runs_bind.mpr ⟨a, r', hn, hl⟩, same'.trans same⟩

theorem map {m n : Compile α} (h : Repeats m n) (f : α → β) : Repeats (f <$> m) (f <$> n) := by
  rw [← bind_pure_comp, ← bind_pure_comp]
  exact h.bind fun a => .pure (f a)

/-- Nothing is to be repeated of a refusal. -/
theorem fail (f : Fault) (n : Compile α) : Repeats (fail f) n :=
  fun _ _ _ _ hr => absurd hr runs_fail

/-- Where one report is tolerated another one is. -/
theorem report (f g : Fault) (key key' : String) : Repeats (report S f key) (report S g key') := by
  intro p u q hp hr
  obtain ⟨lenient, rfl⟩ := runs_report.mp hr
  refine ⟨hp.of_eq rfl, .of_eq rfl, fun p' _ => ?_⟩
  exact ⟨p'.note g key', runs_report.mpr ⟨lenient, rfl⟩, rfl⟩

/-- Who is blamed for a fault that is none does not matter. -/
theorem atSite (site : Site) (owner owner' : Owner) (x : Except ModelFault α) :
    Repeats (atSite site owner x) (atSite site owner' x) := by
  intro p a q hp hr
  obtain ⟨hx, rfl⟩ := runs_atSite.mp hr
  exact ⟨hp, .refl _, fun p' _ => ⟨p', runs_atSite.mpr ⟨hx, rfl⟩, rfl⟩⟩

/-- A look at what is settled by then. -/
theorem look {f : Inventory → α}
    (h : ∀ p q : Progress, p.Precedes q → f q.inventory = f p.inventory) :
    Repeats (inventory >>= fun i => Pure.pure (f i)) (inventory >>= fun i => Pure.pure (f i)) := by
  intro p a q hp hr
  simp only [runs_bind, runs_inventory, runs_pure] at hr
  obtain ⟨_, _, ⟨rfl, rfl⟩, rfl, rfl⟩ := hr
  refine ⟨hp, .refl _, fun p' hp' => ⟨p', ?_, rfl⟩⟩
  rw [← h _ _ hp']
  simp only [runs_bind, runs_inventory, runs_pure]
  exact ⟨_, _, ⟨rfl, rfl⟩, rfl, rfl⟩

/-! ## Simple types -/

theorem compileAlias (d : Declaration) : Repeats (compileAlias S d) (compileAlias S d) := by
  intro p a q hp hr
  obtain ⟨keyed, precedes, entered⟩ := entered_compileAliasIn _ hp hr
  refine ⟨keyed, precedes, fun p' hp' => ⟨p', ?_, rfl⟩⟩
  have held : p'.inventory.alias? (p'.inventory.canonical? (ownerOfType d.name)) = some a := by
    rw [hp'.typeNames]
    exact hp'.aliases _ a entered
  unfold Compile.compileAlias compileAliasIn
  simp only [runs_bind, runs_inventory]
  refine ⟨_, _, ⟨rfl, rfl⟩, _, _, ⟨rfl, rfl⟩, ?_⟩
  rw [held]
  exact runs_pure.mpr ⟨rfl, rfl⟩

/-- The shape that a simple type gives what is derived from it. -/
theorem aliasShape (d : Declaration) (site : Site) :
    Repeats (do
      let a ← Compile.compileAlias S d
      match (← inventory).alias? a.name with
      | some a => return site.shapeFrom (.ofAlias a)
      | none => throw (.missingType (Owner.text a.name)))
    (do
      let a ← Compile.compileAlias S d
      match (← inventory).alias? a.name with
      | some a => return site.shapeFrom (.ofAlias a)
      | none => throw (.missingType (Owner.text a.name))) := by
  intro p shape q hp hr
  obtain ⟨a, r, ha, hr⟩ := runs_bind.mp hr
  obtain ⟨keyed, precedes, entered⟩ := entered_compileAliasIn _ hp ha
  have held : r.inventory.alias? a.name = some a := by rwa [keyed _ a entered]
  simp only [runs_bind, runs_inventory] at hr
  obtain ⟨_, _, ⟨rfl, rfl⟩, hr⟩ := hr
  rw [held] at hr
  obtain ⟨rfl, rfl⟩ := runs_pure.mp hr
  refine ⟨keyed, precedes, fun p' hp' => ?_⟩
  obtain ⟨q', again, same⟩ := (compileAlias d p a _ hp ha).2.2 p' hp'
  refine ⟨q', runs_bind.mpr ⟨a, q', again, ?_⟩, same⟩
  simp only [runs_bind, runs_inventory]
  refine ⟨_, _, ⟨rfl, rfl⟩, ?_⟩
  rw [same, hp'.aliases _ a held]
  exact runs_pure.mpr ⟨rfl, rfl⟩

theorem shape (owner owner' : Owner) (site : Site) :
    Repeats (simpleShapeWith S (Compile.compileAlias S) owner site)
      (simpleShapeWith S (Compile.compileAlias S) owner' site) := by
  rw [simpleShapeWith_eq, simpleShapeWith_eq]
  cases S.origin site with
  | known shape => exact .pure _
  | unknown shape key fault => exact (report _ _ _ _).bind fun _ => .pure _
  | simple d => exact aliasShape d site
  | complex name => exact .fail _ _

/-! ## References -/

theorem resolveType (reference : String) (site : Site) (owner owner' : Owner) :
    Repeats (resolveType S reference site owner) (resolveType S reference site owner') := by
  unfold Compile.resolveType
  rw [resolveTypeWith_eq, resolveTypeWith_eq]
  cases S.target reference site with
  | unknown declared key fault => exact (report _ _ _ _).bind fun _ => .pure _
  | scalar ref => exact .pure _
  | simple d => exact (compileAlias d).bind fun _ => .pure _
  | complex name =>
    refine look fun p q h => ?_
    rw [h.typeNames]

theorem statedType (default : QName) (owner owner' simpleOwner simpleOwner' : Owner) (site : Site) :
    Repeats (statedType S default owner simpleOwner site)
      (statedType S default owner' simpleOwner' site) := by
  unfold Compile.statedType
  split
  · exact resolveType _ site owner owner'
  · split
    · exact (shape simpleOwner simpleOwner' _).bind fun _ => .pure _
    · exact .pure _

theorem globalElementType (d : Declaration) (owner owner' : Owner) :
    Repeats (globalElementType S d owner) (globalElementType S d owner') := by
  unfold Compile.globalElementType
  split
  · refine look fun p q h => ?_
    rw [h.elementNames]
  · exact statedType _ owner owner' _ _ d.site

theorem qualify (reference : String) (site : Site) (owner owner' : Owner) :
    Repeats (qualify S reference site owner) (qualify S reference site owner') := by
  unfold Compile.qualify Reference.qualify
  cases Reference.meaning reference site with
  | error pfx => exact (report _ _ _ _).bind fun _ => .pure _
  | ok name => exact .pure _

theorem lookup (space : Space) (reference : String) (site : Site) (owner owner' : Owner) :
    Repeats (lookup S space reference site owner) (lookup S space reference site owner') := by
  refine (qualify reference site owner owner').bind fun name => ?_
  cases name with
  | none => exact .pure _
  | some name =>
    dsimp only
    split
    · exact .pure _
    · exact (report _ _ _ _).bind fun _ => .pure _

theorem elementReference (reference : String) (site : Site) (owner owner' : Owner) :
    Repeats (elementReference S reference site owner) (elementReference S reference site owner') := by
  refine (lookup .element reference site owner owner').bind fun found => ?_
  cases found with
  | none => exact .pure _
  | some d => exact (globalElementType d owner owner').bind fun _ => .pure _

/-- An element without a type inside it. -/
theorem elementParticle {nested nested' : Nested} {site : Site} (h : site.inner? = none)
    (owner owner' : Owner) :
    Repeats (elementParticle S nested site owner) (elementParticle S nested' site owner') := by
  unfold Compile.elementParticle
  unfold Site.inner? at h
  cases hr : site.node.filled? "ref" with
  | some reference => exact elementReference reference site owner owner'
  | none =>
    rw [hr] at h
    refine Repeats.bind ?_ fun _ => .pure _
    rw [elementTypeWith_eq, elementTypeWith_eq]
    split
    · rename_i ht hc
      rw [ht, hc] at h
      cases h
    · exact statedType .anyType owner owner' owner owner' site

theorem attributeReference (reference : String) (site : Site) (owner owner' : Owner) :
    Repeats (attributeReference S reference site owner) (attributeReference S reference site owner') := by
  refine (qualify reference site owner owner').bind fun name => ?_
  cases name with
  | none => exact .pure _
  | some name =>
    dsimp only
    split
    · exact .pure _
    · split
      · exact (report _ _ _ _).bind fun _ => .pure _
      · exact (statedType _ owner owner' owner owner' _).bind fun _ => .pure _

theorem encodedItem (reference : String) (site : Site) (owner owner' : Owner) :
    Repeats (encodedItem S reference site owner) (encodedItem S reference site owner') := by
  unfold Compile.encodedItem
  split
  · exact .pure _
  split
  · exact .pure _
  split
  · exact .pure _
  split
  · exact .pure _
  · exact (resolveType _ site owner owner').map some

theorem baseOf (derivation : Site) (owner owner' : Owner) :
    Repeats (baseOf S owner derivation) (baseOf S owner' derivation) := by
  unfold Compile.baseOf
  cases derivation.node.filled? "base" with
  | none => exact .fail _ _
  | some reference => exact resolveType reference derivation owner owner'

theorem extendedType (derivation : Site) (owner owner' : Owner) :
    Repeats (extendedType S owner derivation) (extendedType S owner' derivation) := by
  refine (baseOf derivation owner owner').bind fun ref => ?_
  split
  · exact .pure _
  · split
    · exact .pure _
    · exact .fail _ _

end Repeats

end Compile

end WsdlCatalog
