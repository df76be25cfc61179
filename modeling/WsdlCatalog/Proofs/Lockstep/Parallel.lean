/-
  WsdlCatalog.Proofs.Lockstep.Parallel — two compilations side by side.

  Two compilations that know the same, apart from what the complex types look like
  (`Progress.Beside`), fail alike or come to related results and know the same again
  (`Compile.Parallel`). What is known of two types of one name may change on the way: it is
  one thing as long as they are entered, and another one when they got the members of their
  bases.

  Proved: two compilations of the same declarations that treat references alike are compilations
  of all types in this sense (`Compile.compiling_parallel`).
-/

import WsdlCatalog.Proofs.Lockstep.Compiling
import WsdlCatalog.Proofs.Table

namespace WsdlCatalog

/-! ## What is known -/

structure Inventory.Beside (K : StructuralType → StructuralType → Prop) (i j : Inventory) : Prop where
  reservations : i.reservations = j.reservations
  aliases : i.aliases = j.aliases
  types : Aligned K i.types j.types

structure Progress.Beside (K : StructuralType → StructuralType → Prop) (p q : Progress) : Prop where
  inventory : p.inventory.Beside K q.inventory
  diagnostics : p.diagnostics = q.diagnostics
  unresolved : p.unresolved = q.unresolved

variable {K K₁ K₂ : StructuralType → StructuralType → Prop}

namespace Inventory

variable {i j : Inventory}

theorem Beside.isCompiled (h : i.Beside K j) (name : Option String) :
    i.isCompiled name = j.isCompiled name := by
  have types : (i.types.lookup name).isSome = (j.types.lookup name).isSome := by
    obtain ⟨hi, hj⟩ | ⟨t, u, hi, hj, -⟩ := rel_cases (h.types.lookup name)
    · rw [hi, hj]
    · rw [hi, hj]
      rfl
  unfold Inventory.isCompiled alias? type?
  rw [h.aliases, types]

theorem Beside.reserve (h : i.Beside K j) (owner canonical : String) (name : QName) :
    SameResult (fun x y => x.1.Beside K y.1 ∧ x.2 = y.2) (i.reserve owner canonical name)
      (j.reserve owner canonical name) := by
  unfold Inventory.reserve holder?
  rw [canonical?_of_reservations h.reservations, h.reservations]
  split
  · exact ⟨h, rfl⟩
  · split
    · exact (rfl : _ = _)
    · exact ⟨⟨rfl, h.aliases, h.types⟩, rfl⟩

end Inventory

namespace Compile

variable {α β γ δ : Type} {V : α → β → Prop} {W : γ → δ → Prop} {m : Compile α} {n : Compile β}

/-- Both fail alike, or come to related results and know the same again. -/
def Parallel (K K' : StructuralType → StructuralType → Prop) (V : α → β → Prop) (m : Compile α)
    (n : Compile β) : Prop :=
  ∀ p q, p.Beside K q →
    SameResult (fun a b => V a b ∧ (m.outcome p).2.Beside K' (n.outcome q).2) (m.outcome p).1
      (n.outcome q).1

namespace Parallel

theorem pure {a : α} {b : β} (h : V a b) : Parallel K K V (pure a) (pure b) :=
  fun _ _ known => ⟨h, known⟩

theorem throw (e : Refusal) : Parallel K K₁ V (throw e) (throw e) := fun _ _ _ => (rfl : e = e)

theorem bind {k : α → Compile γ} {l : β → Compile δ} (h : Parallel K K₁ V m n)
    (hk : ∀ a b, V a b → Parallel K₁ K₂ W (k a) (l b)) : Parallel K K₂ W (m >>= k) (n >>= l) := by
  intro p q known
  have first := h p q known
  rw [outcome_bind, outcome_bind]
  generalize m.outcome p = x at first
  generalize n.outcome q = y at first
  obtain ⟨x, p'⟩ := x
  obtain ⟨y, q'⟩ := y
  obtain ⟨e, rfl, rfl⟩ | ⟨a, b, rfl, rfl, given, known⟩ := first.cases
  · exact (rfl : e = e)
  · exact hk a b given p' q' known

/-- Results are those of the steps. -/
theorem witness (h : Parallel K K₁ V m n) :
    Parallel K K₁ (fun a b => V a b ∧ (∃ p q, Runs m p a q) ∧ ∃ p q, Runs n p b q) m n :=
  fun p q known => (h p q known).conseq fun _ _ ha hb given =>
    ⟨⟨given.1, ⟨p, _, Prod.ext ha rfl⟩, ⟨q, _, Prod.ext hb rfl⟩⟩, given.2⟩

theorem get :
    Parallel K K (Progress.Beside K) (get : Compile Progress) (MonadState.get : Compile Progress) :=
  fun _ _ known => ⟨known, known⟩

theorem inventory : Parallel K K (Inventory.Beside K) Compile.inventory Compile.inventory :=
  fun _ _ known => ⟨known.inventory, known⟩

theorem setInventory {i j : Inventory} (h : i.Beside K₁ j) :
    Parallel K K₁ Eq (modify fun p => { p with inventory := i })
      (modify fun p => { p with inventory := j }) :=
  fun _ _ known => ⟨rfl, h, known.diagnostics, known.unresolved⟩

theorem ofExcept {x : Except Fault α} {y : Except Fault β} (h : SameResult V x y) :
    Parallel K K V (ofExcept x) (ofExcept y) := by
  obtain ⟨f, rfl, rfl⟩ | ⟨a, b, rfl, rfl, given⟩ := h.cases
  · exact throw _
  · exact pure given

theorem reserve (owner canonical : String) (name : QName) :
    Parallel K K Eq (reserve owner canonical name) (reserve owner canonical name) := by
  refine bind inventory fun i j known => ?_
  refine bind (ofExcept (known.reserve owner canonical name)) ?_
  rintro ⟨i, c⟩ ⟨j, _⟩ ⟨known, rfl⟩
  exact bind (setInventory known) fun _ _ _ => pure rfl

theorem addAlias (a : ScalarAlias) : Parallel K K (fun _ _ => True) (addAlias a) (addAlias a) := by
  intro p q known
  refine ⟨trivial, ⟨known.inventory.reservations, ?_, known.inventory.types⟩, known.diagnostics,
    known.unresolved⟩
  exact congrArg (put a.name a) known.inventory.aliases

/-- Related types are entered under one name. -/
theorem addType {t u : StructuralType} (name : t.name = u.name) (h : K t u) :
    Parallel K K Eq (addType t) (addType u) := by
  intro p q known
  refine ⟨rfl, ⟨known.inventory.reservations, known.inventory.aliases, ?_⟩, known.diagnostics,
    known.unresolved⟩
  show Aligned K (put t.name t p.inventory.types) (put u.name u q.inventory.types)
  rw [name]
  exact known.inventory.types.put _ h

theorem addDiagnostic (d : Diagnostic) : Parallel K K Eq (addDiagnostic d) (addDiagnostic d) :=
  fun _ _ known => ⟨rfl, known.inventory, congrArg (· ++ [d]) known.diagnostics, known.unresolved⟩

theorem report {S T : Setting} (h : S.options.failOnUnresolved = T.options.failOnUnresolved)
    (f : Fault) (key : String) :
    Parallel K K (fun _ _ => True) (report S f key) (report T f key) := by
  intro p q known
  rw [outcome_report, outcome_report, h]
  split
  · exact (rfl : Refusal.fault f = _)
  · refine ⟨trivial, known.inventory, congrArg (· ++ [f.diagnostic]) known.diagnostics, ?_⟩
    show (if p.unresolved.contains key then _ else _) = if q.unresolved.contains key then _ else _
    rw [known.unresolved]

end Parallel

/-- Two compilations of the same declarations that treat references alike. -/
theorem compiling_parallel {S T : Setting} (alike : S.Alike T)
    (declarations : S.declarations = T.declarations) (nesting : S.nesting = T.nesting)
    (unresolved : S.options.failOnUnresolved = T.options.failOnUnresolved)
    (K : StructuralType → StructuralType → Prop) : Compiling S T (Parallel K K) where
  alike := alike
  declarations := declarations
  nesting := nesting
  pure := Parallel.pure
  bind := Parallel.bind
  throw := Parallel.throw
  report _ key := Parallel.report unresolved _ key
  inventory _ _ known := ⟨⟨known.inventory.reservations, known.inventory.aliases⟩, known⟩
  compiled _ _ known := ⟨⟨known.inventory.reservations, known.inventory.isCompiled⟩, known⟩
  addAlias := Parallel.addAlias
  reserve := Parallel.reserve

end Compile

end WsdlCatalog
