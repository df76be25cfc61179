/-
  WsdlCatalog.Proofs.Strictness — references that mean nothing, refused or reported.

  A strict compilation stops at the first reference that means nothing, a lenient one
  reports it and goes on. Both do the same until then: step by step, either nothing is
  reported and both come to the same, or the strict one has stopped for good with the
  fault that the lenient one reported first (`Agree`). What the lenient one does later
  takes no report back.

  Proved: a catalog comes of the strict compilation iff one without unresolved references
  comes of the lenient one, and a refusal is the first report or the common one
  (`strict_agrees_with_lenient`).
-/

import WsdlCatalog.Proofs.Lockstep.Compiling
import WsdlCatalog.Proofs.Lockstep.Interface
import WsdlCatalog.Service

namespace WsdlCatalog

namespace Options

def strict (o : Options) : Options := { o with failOnUnresolved := .own true }

def lenient (o : Options) : Options := { o with failOnUnresolved := .own false }

end Options

def Silent (ds : List Diagnostic) : Prop := ∀ d ∈ ds, d.kind ≠ Diagnostic.unresolvedKind

theorem Silent.append {ds es : List Diagnostic} (hd : Silent ds) (he : Silent es) :
    Silent (ds ++ es) := by
  intro d h
  rcases List.mem_append.mp h with h | h
  · exact hd d h
  · exact he d h

theorem silent_nil : Silent [] := fun _ h => absurd h List.not_mem_nil

namespace Compile

variable {α β γ δ : Type}

/-- From `p` on both came to the same, and no reference was reported. -/
structure Together (V : α → β → Prop) (p : Progress) (strict : Except Refusal α × Progress)
    (lenient : Except Refusal β × Progress) : Prop where
  result : SameResult V strict.1 lenient.1
  progress : strict.2 = lenient.2
  diagnostics : ∃ l, lenient.2.diagnostics = p.diagnostics ++ l ∧ Silent l
  unresolved : lenient.2.unresolved = p.unresolved

/-- From `p` on the strict one stopped with what the other reported first. A result of the lenient
one is one that the strict one might have had, had it gone on. -/
structure Apart (V : α → β → Prop) (p : Progress) (strict : Except Refusal α × Progress)
    (lenient : Except Refusal β × Progress) : Prop where
  fault : ∃ f l r, f.IsUnanswered ∧ strict.1 = .error (.fault f) ∧ Silent l ∧
    lenient.2.diagnostics = p.diagnostics ++ (l ++ f.diagnostic :: r)
  unresolved : lenient.2.unresolved ≠ []
  result : ∀ b, lenient.1 = .ok b → ∃ a, V a b

/-- A strict step and a lenient one come to the same, or the strict one stops at a report. -/
def Agree (V : α → β → Prop) (m : Compile α) (n : Compile β) : Prop :=
  ∀ p, Together V p (m.outcome p) (n.outcome p) ∨ Apart V p (m.outcome p) (n.outcome p)

namespace Agree

/-! ## Steps -/

theorem pure {V : α → β → Prop} {a : α} {b : β} (h : V a b) : Agree V (pure a) (pure b) :=
  fun _ => .inl ⟨h, rfl, ⟨[], (List.append_nil _).symm, silent_nil⟩, rfl⟩

theorem throw {V : α → β → Prop} (e : Refusal) : Agree V (throw e) (throw e) :=
  fun _ => .inl ⟨rfl, rfl, ⟨[], (List.append_nil _).symm, silent_nil⟩, rfl⟩

theorem inventory : Agree Eq Compile.inventory Compile.inventory :=
  fun _ => .inl ⟨rfl, rfl, ⟨[], (List.append_nil _).symm, silent_nil⟩, rfl⟩

theorem get : Agree Eq (get : Compile Progress) (MonadState.get : Compile Progress) :=
  fun _ => .inl ⟨rfl, rfl, ⟨[], (List.append_nil _).symm, silent_nil⟩, rfl⟩

theorem modifyInventory (f : Inventory → Inventory) :
    Agree Eq (modify fun p => { p with inventory := f p.inventory })
      (modify fun p => { p with inventory := f p.inventory }) :=
  fun _ => .inl ⟨rfl, rfl, ⟨[], (List.append_nil _).symm, silent_nil⟩, rfl⟩

theorem addDiagnostic {d : Diagnostic} (h : d.kind ≠ Diagnostic.unresolvedKind) :
    Agree Eq (addDiagnostic d) (addDiagnostic d) := by
  refine fun _ => .inl ⟨rfl, rfl, ⟨[d], rfl, fun e he => ?_⟩, rfl⟩
  rw [List.mem_singleton.mp he]
  exact h

/-- After the strict step has stopped, what the lenient one does next takes no report back. -/
theorem apart_bind {V : α → β → Prop} {W : γ → δ → Prop} {m : Compile α} {n : Compile β}
    {k : α → Compile γ} {l : β → Compile δ} (hk : ∀ a b, V a b → Agree W (k a) (l b))
    {p : Progress} (h : Apart V p (m.outcome p) (n.outcome p)) :
    Apart W p ((m >>= k).outcome p) ((n >>= l).outcome p) := by
  obtain ⟨⟨f, before, after, hf, hm, hs, hd⟩, hu, hr⟩ := h
  rw [outcome_bind, outcome_bind]
  generalize m.outcome p = x at hm
  generalize n.outcome p = y at hd hu hr
  obtain ⟨_, q⟩ := x
  obtain ⟨b, r⟩ := y
  cases hm
  cases b with
  | error e => exact ⟨⟨f, before, after, hf, rfl, hs, hd⟩, hu, fun _ e => nomatch e⟩
  | ok b =>
    obtain ⟨a, hv⟩ := hr b rfl
    dsimp only at hd hu ⊢
    rcases hk a b hv r with h | h
    · obtain ⟨later, hl, -⟩ := h.diagnostics
      refine ⟨⟨f, before, after ++ later, hf, rfl, hs, ?_⟩, ?_, fun d hd => ?_⟩
      · rw [hl, hd, List.append_assoc, List.append_assoc, List.cons_append]
      · rw [h.unresolved]; exact hu
      · have := h.result
        rw [hd] at this
        cases hc : ((k a).outcome r).1 with
        | error e => rw [hc] at this; exact this.elim
        | ok c => rw [hc] at this; exact ⟨c, this⟩
    · obtain ⟨g, before', after', -, -, -, hl⟩ := h.fault
      refine ⟨⟨f, before, after ++ (before' ++ g.diagnostic :: after'), hf, rfl, hs, ?_⟩,
        h.unresolved, h.result⟩
      rw [hl, hd, List.append_assoc, List.append_assoc, List.cons_append]

theorem bind {V : α → β → Prop} {W : γ → δ → Prop} {m : Compile α} {n : Compile β}
    {k : α → Compile γ} {l : β → Compile δ} (h : Agree V m n)
    (hk : ∀ a b, V a b → Agree W (k a) (l b)) : Agree W (m >>= k) (n >>= l) := by
  intro p
  rcases h p with h | h
  · obtain ⟨hr, hp, ⟨first, hd, hs⟩, hu⟩ := h
    rw [outcome_bind, outcome_bind]
    generalize m.outcome p = x at hr hp
    generalize n.outcome p = y at hr hp hd hu
    obtain ⟨a, q⟩ := x
    obtain ⟨b, r⟩ := y
    cases hp
    dsimp only at hd hu
    cases a with
    | error e =>
      cases b with
      | error f => exact .inl ⟨hr, rfl, ⟨first, hd, hs⟩, hu⟩
      | ok b => exact hr.elim
    | ok a =>
      cases b with
      | error f => exact hr.elim
      | ok b =>
        rcases hk a b hr q with h | h
        · obtain ⟨l, hl, hsl⟩ := h.diagnostics
          refine .inl ⟨h.result, h.progress, ⟨first ++ l, ?_, hs.append hsl⟩,
            h.unresolved.trans hu⟩
          rw [hl, hd, List.append_assoc]
        · obtain ⟨f, before, after, hf, hm, hsb, hl⟩ := h.fault
          refine .inr ⟨⟨f, first ++ before, after, hf, hm, hs.append hsb, ?_⟩, h.unresolved,
            h.result⟩
          rw [hl, hd, List.append_assoc, List.append_assoc]
  · exact .inr (apart_bind hk h)

/-- The one place where the two policies differ. -/
theorem report {S T : Setting} (hS : S.options.failOnUnresolved.holds = true)
    (hT : T.options.failOnUnresolved.holds = false) {f : Fault} (hf : f.IsUnanswered)
    (key : String) : Agree (fun _ _ => True) (report S f key) (report T f key) := by
  intro p
  rw [outcome_report, outcome_report, hS, hT]
  refine .inr ⟨⟨f, [], [], hf, rfl, silent_nil, rfl⟩, ?_, fun _ _ => ⟨(), trivial⟩⟩
  show (if p.unresolved.contains key then p.unresolved else p.unresolved ++ [key]) ≠ []
  split
  · rename_i hc
    exact fun he => absurd (List.contains_iff_mem.mp hc) (he ▸ List.not_mem_nil)
  · exact List.append_ne_nil_of_right_ne_nil _ (List.cons_ne_nil _ _)

theorem ofExcept {V : α → α → Prop} (x : Except Fault α) (h : ∀ a, x = .ok a → V a a) :
    Agree V (ofExcept x) (ofExcept x) := by
  cases x with
  | error f => exact throw _
  | ok a => exact pure (h a rfl)

theorem reserve (owner canonical : String) (name : QName) :
    Agree Eq (reserve owner canonical name) (reserve owner canonical name) := by
  refine bind inventory ?_
  intro i _ same
  subst same
  refine bind (ofExcept (V := Eq) _ fun _ _ => rfl) ?_
  intro pair _ same
  rcases pair with ⟨i, c⟩
  subst same
  exact bind (modifyInventory fun _ => i) fun _ _ _ => pure rfl

end Agree

structure Strictness (S T : Setting) : Prop where
  alike : S.Alike T
  choice : S.options.choice = T.options.choice
  declarations : S.declarations = T.declarations
  nesting : S.nesting = T.nesting
  strict : S.options.failOnUnresolved.holds = true
  lenient : T.options.failOnUnresolved.holds = false

namespace Strictness

variable {S T : Setting}

theorem compiling (h : Strictness S T) : Compiling S T Agree where
  alike := h.alike
  declarations := h.declarations
  nesting := h.nesting
  pure := Agree.pure
  bind := Agree.bind
  throw := Agree.throw
  report hf key := Agree.report h.strict h.lenient hf key
  inventory _ := .inl ⟨⟨rfl, rfl⟩, rfl, ⟨[], (List.append_nil _).symm, silent_nil⟩, rfl⟩
  compiled _ := .inl ⟨⟨rfl, fun _ => rfl⟩, rfl, ⟨[], (List.append_nil _).symm, silent_nil⟩, rfl⟩
  addAlias _ _ := .inl ⟨trivial, rfl, ⟨[], (List.append_nil _).symm, silent_nil⟩, rfl⟩
  reserve := Agree.reserve

theorem enters (h : Strictness S T) : Enters S T Agree := by
  intro nested nested' hn anonymous canonical name s t hs
  refine Agree.bind (h.compiling.lockstep.bodyOf h.choice (h.compiling.elementsOf hn canonical) hs) ?_
  intro body _ given
  rcases given with ⟨rfl, -⟩
  rw [toType_of_alike h.alike, Site.node_of_bare hs]
  exact Agree.modifyInventory (·.addType _)

end Strictness

theorem duplicateOperation_kind (interface : Interface) (name : String) (portType : Xml.Node) :
    (duplicateOperation interface name portType).kind ≠ Diagnostic.unresolvedKind := by
  show "duplicate-operation" ≠ "unresolved-reference"
  decide

theorem Agree.extendAll : Agree Eq extendAll extendAll := by
  refine Agree.bind Agree.inventory ?_
  intro i _ same
  subst same
  split
  · exact Agree.modifyInventory fun i => { i with types := _ }
  · exact Agree.throw _

theorem Agree.frozen : Agree Eq frozen frozen := by
  refine Agree.bind Agree.inventory ?_
  intro i _ same
  subst same
  split
  · exact Agree.pure rfl
  · exact Agree.throw _

/-- The catalogs differ at most in the options that are kept with them. -/
theorem Strictness.catalog {S T : Setting} (h : Strictness S T)
    (hn : displayName S.options = displayName T.options) (set : SchemaSet) :
    Agree (fun c d => c = { d with options := S.options }) (catalog S set) (catalog T set) := by
  refine Agree.bind h.compiling.reserveAll fun _ _ _ => ?_
  refine Agree.bind (h.compiling.compileAll h.enters) fun _ _ _ => ?_
  refine Agree.bind Agree.extendAll fun _ _ _ => ?_
  refine Agree.bind (h.compiling.lockstep.interface (fun _ _ _ => Agree.addDiagnostic (duplicateOperation_kind _ _ _))
    rfl rfl) ?_
  intro pair _ given
  rcases pair with ⟨operations, serviceName⟩
  rcases given with ⟨rfl, -⟩
  rw [hn]
  dsimp only
  split
  · exact Agree.throw _
  · refine Agree.bind Agree.get ?_
    intro progress _ same
    subst same
    refine Agree.bind Agree.frozen ?_
    intro pair _ same
    rcases pair with ⟨aliases, types⟩
    subst same
    exact Agree.pure rfl

end Compile

/-! ## Schema sets -/

theorem Setting.ofSchemaSet_options (set : SchemaSet) (o o' : Options) :
    Setting.ofSchemaSet set o' =
      (Setting.ofSchemaSet set o).map fun setting => { setting with options := o' } := by
  unfold Setting.ofSchemaSet
  cases Declarations.ofSchemaSet set <;> rfl

namespace SchemaSet

/-- What a compilation has done when it ends, whether or not a catalog comes of it. -/
def progress (set : SchemaSet) (options : Options) : Progress :=
  match Setting.ofSchemaSet set options with
  | .error _ => .start
  | .ok setting => ((Compile.catalog setting set).outcome .start).2

/-- The first report about a reference that means nothing, in the order of discovery. -/
def firstUnresolved (set : SchemaSet) (options : Options) : Option Diagnostic :=
  (set.progress options).diagnostics.find? (·.kind == Diagnostic.unresolvedKind)

end SchemaSet

theorem Compile.unresolved_of_runs_catalog {setting : Setting} {set : SchemaSet} {p q : Progress}
    {c : Catalog} (h : Compile.Runs (Compile.catalog setting set) p c q) :
    c.unresolved = q.unresolved.mergeSort (fun a b => a ≤ b) ∧ c.options = setting.options := by
  unfold Compile.catalog at h
  simp only [Compile.runs_bind] at h
  obtain ⟨_, r₁, -, _, r₂, -, _, r₃, -, ⟨operations, name⟩, r₄, -, h⟩ := h
  dsimp only at h
  split at h
  · exact absurd h Compile.runs_throw
  · simp only [Compile.runs_bind, Compile.runs_get, Compile.runs_pure] at h
    obtain ⟨_, _, ⟨rfl, rfl⟩, ⟨aliases, types⟩, r₅, hf, rfl, rfl⟩ := h
    unfold Compile.frozen at hf
    simp only [Compile.runs_bind, Compile.runs_inventory] at hf
    obtain ⟨_, _, ⟨rfl, rfl⟩, hf⟩ := hf
    split at hf
    · rw [(Compile.runs_pure.mp hf).2]
      exact ⟨rfl, rfl⟩
    · exact absurd hf Compile.runs_throw

namespace SchemaSet

theorem result_compile {set : SchemaSet} {options : Options} {setting : Setting}
    (h : Setting.ofSchemaSet set options = .ok setting) :
    (set.compile options).result = ((Compile.catalog setting set).outcome .start).1 := by
  unfold compile
  rw [h]
  dsimp only
  rw [show (Compile.catalog setting set).run.run .start
    = (Compile.catalog setting set).outcome .start from rfl]
  rcases (Compile.catalog setting set).outcome .start with ⟨_ | _, _⟩ <;> rfl

theorem progress_eq {set : SchemaSet} {options : Options} {setting : Setting}
    (h : Setting.ofSchemaSet set options = .ok setting) :
    set.progress options = ((Compile.catalog setting set).outcome .start).2 := by
  unfold progress
  rw [h]

/-- The unresolved references of a catalog are those that were reported. -/
theorem unresolved_eq_nil {set : SchemaSet} {options : Options} {c : Catalog}
    (h : (set.compile options).result = .ok c) :
    c.unresolved = [] ↔ (set.progress options).unresolved = [] := by
  cases hs : Setting.ofSchemaSet set options with
  | error f =>
    unfold compile at h
    rw [hs] at h
    cases h
  | ok setting =>
    rw [result_compile hs] at h
    rw [progress_eq hs, (Compile.unresolved_of_runs_catalog (Prod.ext h rfl)).1]
    rw [← List.length_eq_zero_iff, List.length_mergeSort, List.length_eq_zero_iff]

theorem find?_unresolved {l : List Diagnostic} (hl : Silent l) {f : Fault} (hf : f.IsUnanswered)
    (r : List Diagnostic) :
    (l ++ f.diagnostic :: r).find? (·.kind == Diagnostic.unresolvedKind) = some f.diagnostic := by
  have none_before : l.find? (·.kind == Diagnostic.unresolvedKind) = none :=
    List.find?_eq_none.mpr fun d hd => by simpa using hl d hd
  rw [List.find?_append, none_before, Option.none_or]
  exact List.find?_cons_of_pos (beq_iff_eq.mpr hf)

/-- What a strict and a lenient compilation of one schema set come to. -/
theorem strict_or_lenient (set : SchemaSet) (o : Options) :
    ((set.progress o.lenient).unresolved = [] ∧ Silent (set.progress o.lenient).diagnostics ∧
      SameResult (fun c d => c = { d with options := o.strict })
        (set.compile o.strict).result (set.compile o.lenient).result) ∨
    ∃ f, f.IsUnanswered ∧ (set.compile o.strict).result = .error (.fault f) ∧
      (set.progress o.lenient).unresolved ≠ [] ∧
      set.firstUnresolved o.lenient = some f.diagnostic := by
  have hl := Setting.ofSchemaSet_options set o.strict o.lenient
  cases hs : Setting.ofSchemaSet set o.strict with
  | error f =>
    rw [hs] at hl
    refine .inl ⟨?_, ?_, ?_⟩
    · unfold progress; rw [hl]; rfl
    · unfold progress; rw [hl]; exact silent_nil
    · unfold compile; rw [hs, hl]; rfl
  | ok S =>
    rw [hs] at hl
    have ho : S.options = o.strict := by
      have := Setting.ofSchemaSet_options set o.strict o.strict
      rw [hs] at this
      exact congrArg Setting.options (Except.ok.inj this)
    have strictness : Compile.Strictness S { S with options := o.lenient } := by
      refine ⟨⟨Declarations.Alike.refl _, fun _ => ?_, ?_⟩, ?_, rfl, rfl, ?_, rfl⟩ <;> rw [ho] <;> rfl
    unfold firstUnresolved
    rw [result_compile hs, result_compile hl, progress_eq hl]
    rcases strictness.catalog (by rw [ho]; rfl) set .start with h | h
    · obtain ⟨hr, -, ⟨l, hd, hl⟩, hu⟩ := h
      exact .inl ⟨hu, hd ▸ hl, ho ▸ hr⟩
    · obtain ⟨⟨f, l, r, hf, hm, hl, hd⟩, hu, -⟩ := h
      refine .inr ⟨f, hf, hm, hu, ?_⟩
      rw [hd]
      exact find?_unresolved hl hf r

/-- **The two policies agree.** -/
theorem strict_agrees_with_lenient (set : SchemaSet) (o : Options) :
    (∀ c, (set.compile o.strict).result = .ok c ↔
      ∃ d, (set.compile o.lenient).result = .ok d ∧ d.unresolved = [] ∧
        c = { d with options := o.strict }) ∧
    ((set.progress o.lenient).unresolved ≠ [] ↔
      ∃ d ∈ (set.progress o.lenient).diagnostics, d.kind = Diagnostic.unresolvedKind) ∧
    ((set.progress o.lenient).unresolved ≠ [] →
      ∃ f, (set.compile o.strict).result = .error (.fault f) ∧
        f.kind = Diagnostic.unresolvedKind ∧
        set.firstUnresolved o.lenient = some f.diagnostic) ∧
    ((set.progress o.lenient).unresolved = [] →
      ∀ e, (set.compile o.lenient).result = .error e → (set.compile o.strict).result = .error e) := by
  rcases set.strict_or_lenient o with ⟨hu, hs, hr⟩ | ⟨f, hf, he, hu, hd⟩
  · refine ⟨fun c => ?_, ?_, fun h => absurd hu h, fun _ e he => ?_⟩
    · cases hc : (set.compile o.strict).result with
      | error e =>
        rw [hc] at hr
        cases hl : (set.compile o.lenient).result with
        | error f => exact ⟨(fun h => nomatch h), fun ⟨_, h, _⟩ => nomatch h⟩
        | ok d => rw [hl] at hr; exact hr.elim
      | ok c' =>
        rw [hc] at hr
        cases hl : (set.compile o.lenient).result with
        | error f => rw [hl] at hr; exact hr.elim
        | ok d =>
          rw [hl] at hr
          constructor
          · intro given
            rcases given with ⟨⟩
            exact ⟨d, rfl, (unresolved_eq_nil hl).mpr hu, hr⟩
          · intro given
            rcases given with ⟨_, ⟨⟩, -, rfl⟩
            exact congrArg Except.ok hr
    · exact ⟨fun h => absurd hu h, fun ⟨d, hd, hk⟩ => absurd hk (hs d hd)⟩
    · rw [he] at hr
      cases hc : (set.compile o.strict).result with
      | error f => rw [hc] at hr; exact congrArg Except.error hr
      | ok c => rw [hc] at hr; exact hr.elim
  · refine ⟨fun c => ?_, ?_, fun _ => ⟨f, he, hf, hd⟩, fun h => absurd h hu⟩
    · rw [he]
      exact ⟨(fun h => nomatch h), fun ⟨d, hd, hn, _⟩ => absurd ((unresolved_eq_nil hd).mp hn) hu⟩
    · refine ⟨fun _ => ?_, fun _ => hu⟩
      exact ⟨f.diagnostic, List.mem_of_find?_eq_some hd, hf⟩

end SchemaSet

end WsdlCatalog
