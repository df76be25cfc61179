/-
  WsdlCatalog.Proofs.Run — what the steps of a compilation come to.

  A step started in a progress has an outcome (`outcome`): a result or a refusal, and
  the progress it leaves. `Runs` says that it has a result. Every way of making a step
  from others has one lemma for the outcome and one for `Runs`, so that no proof about
  a step has to open the monad.
-/

import WsdlCatalog.Compile.Catalog

namespace WsdlCatalog

/-- The progress with a report: its diagnostic, and its key if that is a new one. -/
def Progress.note (p : Progress) (f : Fault) (key : String) : Progress :=
  { p with
    diagnostics := p.diagnostics ++ [f.diagnostic]
    unresolved := if p.unresolved.contains key then p.unresolved else p.unresolved ++ [key] }

namespace Compile

variable {α β : Type}

/-- The result or the refusal of a step, and the progress after it. -/
def outcome (m : Compile α) (p : Progress) : Except Refusal α × Progress := m.run.run p

/-- The step has the result `a` and leaves the progress `q`. -/
def Runs (m : Compile α) (p : Progress) (a : α) (q : Progress) : Prop := m.outcome p = (.ok a, q)

/-! ## Outcomes -/

theorem outcome_pure (a : α) (p : Progress) : (pure a : Compile α).outcome p = (.ok a, p) := rfl

theorem outcome_bind (m : Compile α) (k : α → Compile β) (p : Progress) :
    (m >>= k).outcome p = match m.outcome p with
      | (.ok a, q) => (k a).outcome q
      | (.error e, q) => (.error e, q) := by
  show (ExceptT.bindCont k (m.run.run p).1).run (m.run.run p).2 = _
  unfold outcome
  rcases m.run.run p with ⟨_ | a, q⟩ <;> rfl

theorem outcome_bind_of_error {m : Compile α} {e : Refusal} {p q : Progress} {k : α → Compile β} (h : m.outcome p = (.error e, q)) :
    (m >>= k).outcome p = (.error e, q) := by
  rw [outcome_bind, h]

theorem outcome_throw (e : Refusal) (p : Progress) :
    (throw e : Compile α).outcome p = (.error e, p) := rfl

theorem outcome_fail (f : Fault) (p : Progress) :
    (fail f : Compile α).outcome p = (.error (.fault f), p) := rfl

theorem outcome_inventory (p : Progress) : inventory.outcome p = (.ok p.inventory, p) := rfl

theorem outcome_get (p : Progress) : (get : Compile Progress).outcome p = (.ok p, p) := rfl

theorem outcome_modify (f : Progress → Progress) (p : Progress) :
    (modify f : Compile Unit).outcome p = (.ok (), f p) := rfl

theorem outcome_ofExcept (x : Except Fault α) (p : Progress) :
    (ofExcept x).outcome p = (x.mapError .fault, p) := by
  cases x <;> rfl

/-! ## Results -/

theorem Runs.unique {m : Compile α} {p q r : Progress} {a b : α} (h : Runs m p a q)
    (h' : Runs m p b r) : a = b ∧ q = r := by
  have := h.symm.trans h'
  simp only [Prod.mk.injEq, Except.ok.injEq] at this
  exact this

@[simp] theorem runs_pure {a b : α} {p q : Progress} : Runs (pure a) p b q ↔ b = a ∧ q = p := by
  rw [Runs, outcome_pure, Prod.mk.injEq, Except.ok.injEq, eq_comm, @eq_comm _ p]

@[simp] theorem runs_bind {m : Compile α} {k : α → Compile β} {p q : Progress} {b : β} :
    Runs (m >>= k) p b q ↔ ∃ a r, Runs m p a r ∧ Runs (k a) r b q := by
  simp only [Runs, outcome_bind]
  rcases m.outcome p with ⟨_ | a, r⟩
  · simp
  · constructor
    · intro h; exact ⟨a, r, rfl, h⟩
    · intro given
      rcases given with ⟨_, _, h, hk⟩
      cases h
      exact hk

@[simp] theorem runs_map {m : Compile α} {f : α → β} {p q : Progress} {b : β} :
    Runs (f <$> m) p b q ↔ ∃ a, Runs m p a q ∧ b = f a := by
  rw [← bind_pure_comp]
  simp only [runs_bind, runs_pure]
  constructor
  · intro given
    rcases given with ⟨a, r, h, rfl, rfl⟩
    exact ⟨a, h, rfl⟩
  · intro given
    rcases given with ⟨a, h, rfl⟩
    exact ⟨a, q, h, rfl, rfl⟩

@[simp] theorem runs_throw {e : Refusal} {p q : Progress} {a : α} :
    ¬ Runs (throw e : Compile α) p a q := by
  simp [Runs, outcome_throw]

@[simp] theorem runs_fail {f : Fault} {p q : Progress} {a : α} :
    ¬ Runs (fail f : Compile α) p a q := by
  simp [Runs, outcome_fail]

@[simp] theorem runs_inventory {i : Inventory} {p q : Progress} :
    Runs inventory p i q ↔ i = p.inventory ∧ q = p := by
  rw [Runs, outcome_inventory, Prod.mk.injEq, Except.ok.injEq, eq_comm, @eq_comm _ p]

@[simp] theorem runs_get {r p q : Progress} :
    Runs (get : Compile Progress) p r q ↔ r = p ∧ q = p := by
  rw [Runs, outcome_get, Prod.mk.injEq, Except.ok.injEq, eq_comm, @eq_comm _ p q]

@[simp] theorem runs_modify {f : Progress → Progress} {u : Unit} {p q : Progress} :
    Runs (modify f) p u q ↔ q = f p := by
  rw [Runs, outcome_modify, Prod.mk.injEq, @eq_comm _ (f p)]
  simp

theorem mapError_eq_ok {ε ε' : Type} {f : ε → ε'} {x : Except ε α} {a : α} :
    x.mapError f = .ok a ↔ x = .ok a := by
  cases x with
  | ok b => exact ⟨fun h => congrArg _ (Except.ok.inj h), fun h => congrArg _ (Except.ok.inj h)⟩
  | error e => exact ⟨nofun, nofun⟩

@[simp] theorem runs_ofExcept {x : Except Fault α} {a : α} {p q : Progress} :
    Runs (ofExcept x) p a q ↔ x = .ok a ∧ q = p := by
  rw [Runs, outcome_ofExcept, Prod.mk.injEq, @eq_comm _ p, mapError_eq_ok]

/-! ## Steps that change the progress -/

@[simp] theorem runs_reserve {owner canonical c : String} {name : QName} {p q : Progress} :
    Runs (reserve owner canonical name) p c q ↔
      ∃ i, p.inventory.reserve owner canonical name = .ok (i, c) ∧ q = { p with inventory := i } := by
  unfold reserve
  simp only [runs_bind, runs_inventory, runs_ofExcept, runs_modify, runs_pure]
  constructor
  · intro given
    rcases given with ⟨_, _, ⟨rfl, rfl⟩, ⟨i, _⟩, _, ⟨h, rfl⟩, _, _, rfl, rfl, rfl⟩
    exact ⟨i, h, rfl⟩
  · intro given
    rcases given with ⟨i, h, rfl⟩
    exact ⟨_, _, ⟨rfl, rfl⟩, (i, c), _, ⟨h, rfl⟩, (), _, rfl, rfl, rfl⟩

@[simp] theorem runs_addAlias {a : ScalarAlias} {u : Unit} {p q : Progress} :
    Runs (addAlias a) p u q ↔ q = { p with inventory := p.inventory.addAlias a } := runs_modify

@[simp] theorem runs_addType {t : StructuralType} {u : Unit} {p q : Progress} :
    Runs (addType t) p u q ↔ q = { p with inventory := p.inventory.addType t } := runs_modify

@[simp] theorem runs_addDiagnostic {d : Diagnostic} {u : Unit} {p q : Progress} :
    Runs (addDiagnostic d) p u q ↔ q = { p with diagnostics := p.diagnostics ++ [d] } := runs_modify

theorem outcome_report (setting : Setting) (f : Fault) (key : String) (p : Progress) :
    (report setting f key).outcome p =
      if setting.options.failOnUnresolved.holds then (.error (.fault f), p)
      else (.ok (), p.note f key) := by
  unfold report
  split
  · rfl
  · show Prod.mk _ _ = _
    simp only [Progress.note]
    split <;> rfl

@[simp] theorem runs_report {setting : Setting} {f : Fault} {key : String} {u : Unit}
    {p q : Progress} :
    Runs (report setting f key) p u q ↔
      setting.options.failOnUnresolved.holds = false ∧ q = p.note f key := by
  rw [Runs, outcome_report]
  by_cases h : setting.options.failOnUnresolved.holds = true
  · simp [h]
  · rw [if_neg h, Prod.mk.injEq, @eq_comm _ (p.note f key)]
    simp [h]

/-! ## One step for each of a list -/

section

variable {ι σ : Type} {f : σ → ι → Compile σ} {is : List ι} {a b : σ} {p q : Progress}

/-- What every step preserves holds after all of them; `I` sees the items that were done, and a
step the ones to come. -/
theorem runs_foldlM_done {I : List ι → σ → Progress → Prop}
    (step : ∀ done i rest a b p q, is = done ++ i :: rest → I done a p → Runs (f a i) p b q →
      I (done ++ [i]) b q)
    (ha : I [] a p) (h : Runs (is.foldlM f a) p b q) : I is b q := by
  suffices ∀ rest done a p, is = done ++ rest → I done a p → Runs (rest.foldlM f a) p b q →
      I is b q from this is [] a p rfl ha h
  intro rest
  induction rest with
  | nil =>
    intro done a p hs ha h
    rw [List.foldlM_nil, runs_pure] at h
    rw [hs, List.append_nil, h.1, h.2]
    exact ha
  | cons i rest ih =>
    intro done a p hs ha h
    rw [List.foldlM_cons, runs_bind] at h
    obtain ⟨c, r, hc, h⟩ := h
    exact ih (done ++ [i]) c r (by rw [hs, List.append_assoc]; rfl)
      (step done i rest a c p r hs ha hc) h

/-- What every step preserves whatever the progress holds after all of them. -/
theorem runs_foldlM {I : List ι → σ → Prop}
    (step : ∀ done i a b p q, I done a → Runs (f a i) p b q → I (done ++ [i]) b) (ha : I [] a)
    (h : Runs (is.foldlM f a) p b q) : I is b :=
  runs_foldlM_done (I := fun done a _ => I done a)
    (fun done i _ a b p q _ => step done i a b p q) ha h

end

end Compile

end WsdlCatalog
