/-
  WsdlCatalog.Proofs.Lockstep.Sharing — two compilations of the same declarations.

  Of what was done before, references look up the canonical names that were reserved and
  the simple types that were compiled, nothing else. So a relation between the steps of two
  compilations is a lockstep if these two are the same in both (`Sharing`); what the complex
  types of either look like does not matter.

  Proved: both compile a simple type alike (`Sharing.compileAlias`), and go on in lockstep
  (`Sharing.lockstep`).
-/

import WsdlCatalog.Proofs.Lockstep

namespace WsdlCatalog

theorem Inventory.canonical?_of_reservations {i j : Inventory} (h : i.reservations = j.reservations)
    (owner : String) : i.canonical? owner = j.canonical? owner := by
  unfold canonical?
  rw [h]

theorem Inventory.alias?_of_aliases {i j : Inventory} (h : i.aliases = j.aliases)
    (name : Option String) : i.alias? name = j.alias? name := by
  unfold alias?
  rw [h]

namespace Compile

/-- A relation between the steps of two compilations of the same declarations, which share
canonical names and simple types. -/
structure Sharing (S T : Setting)
    (R : ∀ {α β : Type}, (α → β → Prop) → Compile α → Compile β → Prop) : Prop where
  alike : S.Alike T
  declarations : S.declarations = T.declarations
  pure {α β : Type} {V : α → β → Prop} {a : α} {b : β} (h : V a b) : R V (pure a) (pure b)
  bind {α β γ δ : Type} {V : α → β → Prop} {W : γ → δ → Prop} {m : Compile α} {n : Compile β}
    {k : α → Compile γ} {l : β → Compile δ} (h : R V m n) (hk : ∀ a b, V a b → R W (k a) (l b)) :
    R W (m >>= k) (n >>= l)
  throw {α β : Type} {V : α → β → Prop} (e : Refusal) : R V (throw e) (throw e)
  report {fault : Fault} (hf : fault.IsUnanswered) (key : String) :
    R (fun _ _ => True) (report S fault key) (report T fault key)
  inventory :
    R (fun i j => i.reservations = j.reservations ∧ i.aliases = j.aliases) inventory inventory
  addAlias (a : ScalarAlias) : R (fun _ _ => True) (addAlias a) (addAlias a)

namespace Sharing

variable {S T : Setting}
  {R : ∀ {α β : Type}, (α → β → Prop) → Compile α → Compile β → Prop}

theorem steps (h : Sharing S T R) : Steps S T R (fun _ => True) True where
  alike := h.alike
  pure := h.pure
  bind := h.bind
  throw := h.throw
  report := h.report
  typeName _ _ := by
    refine h.bind h.inventory fun i j same => ?_
    rw [Inventory.canonical?_of_reservations same.1]
    exact h.pure ⟨rfl, trivial⟩
  builtinType _ := trivial
  encodedType _ := trivial
  unresolved _ _ := trivial

/-- A name that is declared in both declares the same. -/
theorem declared (h : Sharing S T R) {space : Space} {d e : Declaration} (hb : d.bare = e.bare)
    (hd : S.declarations.lookup space d.name = some d)
    (he : T.declarations.lookup space e.name = some e) : d = e := by
  rw [h.declarations, Declaration.name_of_bare hb, he] at hd
  exact (Option.some.inj hd).symm

theorem simpleShapeWith (h : Sharing S T R) {f g : Declaration → Compile ScalarAlias}
    (hfg : ∀ d, R Eq (f d) (g d)) (owner : Owner) {s t : Site} (hs : s.bare = t.bare) :
    R Eq (simpleShapeWith S f owner s) (simpleShapeWith T g owner t) := by
  unfold Compile.simpleShapeWith
  rw [Site.node_of_bare hs]
  dsimp only
  split
  · exact h.pure rfl
  · refine h.bind (h.steps.resolveTypeWith (fun {d e} hb hd he _ => ?_) _
      (Site.bare_atNode hs _) owner) ?_
    · obtain rfl := h.declared hb hd he
      exact h.steps.weaken (hfg d) fun _ _ ha => ⟨ha, trivial⟩
    · intro ref _ given
      rcases given with ⟨rfl, -⟩
      split
      · refine h.bind h.inventory fun i j same => ?_
        rw [Inventory.alias?_of_aliases same.2]
        split
        · exact h.pure rfl
        · exact h.throw _
      · rw [Site.location_of_bare hs, Site.targetNamespace_of_bare hs]
        exact h.throw _
      · exact h.pure rfl

theorem compileAliasIn (h : Sharing S T R) (depth : Nat) :
    ∀ chain d, R Eq (compileAliasIn S depth chain d) (compileAliasIn T depth chain d) := by
  induction depth with
  | zero => exact fun _ _ => h.throw _
  | succ depth ih =>
    intro chain d
    refine h.bind h.inventory fun i j same => ?_
    rw [Inventory.canonical?_of_reservations same.1]
    refine h.bind h.inventory fun i j same => ?_
    dsimp only
    rw [Inventory.alias?_of_aliases same.2]
    split
    · exact h.pure rfl
    · split
      · exact h.throw _
      · refine h.bind (h.simpleShapeWith (ih _) _ rfl) ?_
        intro shape _ same
        subst same
        exact h.bind (h.addAlias _) fun _ _ _ => h.pure rfl

theorem compileAlias (h : Sharing S T R) (d : Declaration) :
    R Eq (compileAlias S d) (compileAlias T d) := by
  unfold Compile.compileAlias
  rw [h.declarations]
  exact h.compileAliasIn _ _ d

theorem lockstep (h : Sharing S T R) : Lockstep S T R (fun _ => True) True where
  toSteps := h.steps
  elementName _ _ := by
    refine h.bind h.inventory fun i j same => ?_
    rw [Inventory.canonical?_of_reservations same.1]
    exact h.pure ⟨rfl, trivial⟩
  simpleType {d e} hb hd he _ := by
    obtain rfl := h.declared hb hd he
    exact h.steps.weaken (h.compileAlias d) fun _ _ ha => ⟨ha, trivial⟩
  shape owner _ _ hs :=
    h.steps.weaken (h.simpleShapeWith h.compileAlias owner hs) fun _ _ same => ⟨same, trivial⟩

end Sharing

end Compile

end WsdlCatalog
