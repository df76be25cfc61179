/-
  WsdlCatalog.Proofs.Lockstep.Compiling — two compilations of all types.

  Two compilations of the same declarations that reserve the same names and enter types
  under the same names go through the same types in the same order, those inside elements
  with them. So all that has to be known of a relation between their steps is that it holds
  when a single type is compiled, provided that it holds of the types inside it
  (`Compiling.Enters`).

  Proved: both compile all types alike (`Compiling.compileAll`).
-/

import WsdlCatalog.Proofs.Lockstep.ComplexType
import WsdlCatalog.Proofs.Lockstep.Sharing
import WsdlCatalog.Proofs.Reservation

namespace WsdlCatalog

namespace Compile

/-- A relation between the steps of two compilations of the same declarations, which reserve the
same names and enter types under the same ones. -/
structure Compiling (S T : Setting)
    (R : ∀ {α β : Type}, (α → β → Prop) → Compile α → Compile β → Prop) : Prop
    extends Sharing S T R where
  nesting : S.nesting = T.nesting
  reserve (owner canonical : String) (name : QName) :
    R Eq (reserve owner canonical name) (reserve owner canonical name)
  compiled :
    R (fun i j => i.reservations = j.reservations ∧ ∀ c, i.isCompiled c = j.isCompiled c)
      Compile.inventory Compile.inventory

variable {S T : Setting}
  {R : ∀ {α β : Type}, (α → β → Prop) → Compile α → Compile β → Prop}

abbrev SameNested (R : ∀ {α β : Type}, (α → β → Prop) → Compile α → Compile β → Prop)
    (nested nested' : Nested) : Prop :=
  ∀ (c : Owner) (name : QName) {s t : Site}, s.bare = t.bare → R Eq (nested c name s) (nested' c name t)

def enter (setting : Setting) (nested : Nested) (anonymous : Bool) (canonical : Owner) (name : QName)
    (site : Site) : Compile Unit := do
  let body ← bodyOf setting nested canonical site
  addType (body.toType setting.options canonical name site.node.documentation? anonymous)

/-- Both enter a type alike if they compile the types inside it alike. -/
abbrev Enters (S T : Setting)
    (R : ∀ {α β : Type}, (α → β → Prop) → Compile α → Compile β → Prop) : Prop :=
  ∀ {nested nested' : Nested}, SameNested R nested nested' →
    ∀ (anonymous : Bool) (canonical : Owner) (name : QName) {s t : Site}, s.bare = t.bare →
      R Eq (enter S nested anonymous canonical name s) (enter T nested' anonymous canonical name t)

namespace Compiling

theorem elementsOf (h : Compiling S T R) {nested nested' : Nested}
    (hn : SameNested R nested nested') (owner : Owner) :
    Lockstep.Elements S T R (fun _ => True) nested nested' owner := by
  refine fun hs => h.lockstep.elementTypeWith (fun owner element s t hs => ?_) hs owner
  unfold nestedType
  rw [Site.targetNamespace_of_bare hs]
  refine h.bind (h.reserve _ _ _) ?_
  intro c _ same
  subst same
  refine h.bind h.compiled fun i j same => ?_
  rw [same.2]
  split
  · exact h.bind (hn _ _ hs) fun _ _ _ => h.pure ⟨rfl, trivial⟩
  · exact h.pure ⟨rfl, trivial⟩

theorem complexTypeIn (h : Compiling S T R) (enters : Enters S T R) (depth : Nat) :
    ∀ anonymous : Bool, SameNested R (complexTypeIn S depth anonymous)
      (complexTypeIn T depth anonymous) := by
  induction depth with
  | zero =>
    intro anonymous canonical name s t hs
    unfold Compile.complexTypeIn
    rw [Site.location_of_bare hs, Site.targetNamespace_of_bare hs]
    exact h.throw _
  | succ depth ih => exact fun anonymous => enters (ih true) anonymous

theorem compileOnce (h : Compiling S T R) (enters : Enters S T R) (anonymous : Bool) (owner : String)
    (name : QName) (site : Site) :
    R Eq (compileOnce S anonymous owner name site) (compileOnce T anonymous owner name site) := by
  refine h.bind h.compiled fun i j same => ?_
  rw [Inventory.canonical?_of_reservations same.1]
  refine h.bind h.compiled fun i j same => ?_
  rw [same.2]
  split
  · unfold Compile.complexType
    rw [h.nesting]
    exact h.complexTypeIn enters _ _ _ _ rfl
  · exact h.pure rfl

theorem elementsWithTypes (h : Compiling S T R) : elementsWithTypes S = elementsWithTypes T := by
  unfold Compile.elementsWithTypes
  rw [h.declarations]

theorem reserveAll (h : Compiling S T R) : R Eq (reserveAll S) (reserveAll T) := by
  rw [reserveAll_eq, reserveAll_eq]
  have same : requests S = requests T := by
    unfold requests
    rw [h.declarations, h.elementsWithTypes]
  rw [same]
  exact h.steps.forM (fun r => h.bind (h.reserve _ _ _) fun _ _ _ => h.pure rfl) _

theorem compileAll (h : Compiling S T R) (enters : Enters S T R) :
    R Eq (compileAll S) (compileAll T) := by
  unfold Compile.compileAll
  rw [h.declarations, h.elementsWithTypes]
  refine h.bind (h.steps.forM (fun d => ?_) _) fun _ _ _ => h.steps.forM (fun d => ?_) _
  · unfold compileType
    split
    · exact h.bind (h.compileAlias d) fun _ _ _ => h.pure rfl
    · exact h.compileOnce enters _ _ _ _
  · unfold compileElement
    split
    · exact h.compileOnce enters _ _ _ _
    · exact h.pure rfl

end Compiling

end Compile

end WsdlCatalog
