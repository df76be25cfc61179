/-
  WsdlCatalog.Proofs.Replay — references from two places of two compilations.

  Two settings that differ only in the order of their documents and declarations are twins
  (`Setting.Twin`). What a step that follows references comes to does not depend on when
  it is taken: started anywhere in a twin compilation it comes to the same, adds the same
  reports, and compiles the simple types that are not entries yet (`Replays`). The types
  that references come to are known by then (`Setting.Knows`).

  Proved: references, attributes and service descriptions are replayed (`replays`).
-/

import WsdlCatalog.Proofs.Lockstep.ComplexType
import WsdlCatalog.Proofs.Lockstep.Interface
import WsdlCatalog.Proofs.SimpleType

namespace WsdlCatalog

/-! ## Twin settings -/

structure Setting.Twin (S T : Setting) : Prop where
  options : S.options = T.options
  declarations : S.declarations.Alike T.declarations
  nesting : S.nesting = T.nesting

namespace Setting.Twin

variable {S T : Setting}

theorem refl (S : Setting) : S.Twin S := ⟨rfl, .refl _, rfl⟩

theorem symm (h : S.Twin T) : T.Twin S :=
  ⟨h.options.symm, h.declarations.symm, h.nesting.symm⟩

theorem alike (h : S.Twin T) : S.Alike T :=
  ⟨h.declarations, fun _ => by rw [h.options], by rw [h.options]⟩

/-- The declarations of one name are alike. -/
theorem declared (h : S.Twin T) {space : Space} {d : Declaration}
    (hd : S.declarations.lookup space d.name = some d) :
    ∃ e, d.bare = e.bare ∧ T.declarations.lookup space e.name = some e := by
  obtain ⟨hn, -⟩ | ⟨_, e, hd', he, hb⟩ := h.declarations.cases space d.name
  · rw [hn] at hd; cases hd
  · cases hd.symm.trans hd'
    exact ⟨e, hb, (Declarations.name_of_lookup he).symm ▸ he⟩

end Setting.Twin

/-- References mean the same up to the documents of declarations. -/
inductive Target.Alike : Target → Target → Prop where
  | unknown (declared key : String) (fault : Owner → Fault) :
    Alike (.unknown declared key fault) (.unknown declared key fault)
  | scalar (ref : TypeRef) : Alike (.scalar ref) (.scalar ref)
  | simple {d e : Declaration} (h : d.bare = e.bare) : Alike (.simple d) (.simple e)
  | complex (name : QName) : Alike (.complex name) (.complex name)

/-- Simple types are derived from the same up to the documents of declarations. -/
inductive Origin.Alike : Origin → Origin → Prop where
  | known (shape : SimpleShape) : Alike (.known shape) (.known shape)
  | unknown (shape : SimpleShape) (key : String) (fault : Owner → Fault) :
    Alike (.unknown shape key fault) (.unknown shape key fault)
  | simple {d e : Declaration} (h : d.bare = e.bare) : Alike (.simple d) (.simple e)
  | complex (name : QName) : Alike (.complex name) (.complex name)

section

variable {S T : Setting} {names : Names}

theorem Setting.Alike.target (h : S.Alike T) (reference : String) {s t : Site}
    (hs : s.bare = t.bare) : (S.target reference s).Alike (T.target reference t) := by
  unfold Setting.target
  rw [Reference.meaning_of_bare hs, Site.location_of_bare hs]
  split
  · exact .unknown _ _ _
  · rename_i name _
    rw [← h.builtin]
    split
    · exact .scalar _
    · split
      · split <;> exact .scalar _
      · obtain ⟨hd, he⟩ | ⟨d, e, hd, he, hb⟩ := h.declarations.cases .type name
        · rw [hd, he]
          exact .unknown _ _ _
        · rw [hd, he]
          dsimp only
          rw [Declaration.isSimpleType_of_bare hb]
          split
          · exact .simple hb
          · exact .complex _

theorem Setting.Alike.origin (h : S.Alike T) {s t : Site} (hs : s.bare = t.bare) :
    (S.origin s).Alike (T.origin t) := by
  unfold Setting.origin
  rw [Site.node_of_bare hs]
  split
  · exact .known _
  · rename_i reference node _
    have := h.target reference (Site.bare_atNode hs node)
    revert this
    generalize S.target reference (s.atNode node) = x
    generalize T.target reference (t.atNode node) = y
    intro hb
    rcases hb with _ | _ | hb | _
    · exact .unknown _ _ _
    · exact .known _
    · exact .simple hb
    · exact .complex _

theorem Names.entry_of_bare {d e : Declaration} (h : d.bare = e.bare) (shape : SimpleShape) :
    names.entry d shape = names.entry e shape := by
  unfold Names.entry
  rw [Declaration.name_of_bare h, Site.node_of_bare (Declaration.site_of_bare h)]

theorem Site.shapeFrom_of_bare {s t : Site} (h : s.bare = t.bare) (shape : SimpleShape) :
    s.shapeFrom shape = t.shapeFrom shape := by
  unfold Site.shapeFrom
  rw [Site.node_of_bare h]

/-- Simple types have the same shapes in twin compilations. -/
theorem ShapeOf.twin (h : S.Twin T) {n : Nat} {s : Site} {shape : SimpleShape}
    (hs : ShapeOf S names n s shape) :
    ∀ {t : Site}, s.bare = t.bare → ShapeOf T names n t shape := by
  induction hs with
  | known ho =>
    intro t hb
    have := h.alike.origin hb
    rw [ho] at this
    rw [Site.shapeFrom_of_bare hb]
    generalize hy : T.origin t = y at this
    cases this
    exact .known hy
  | unknown ho hs =>
    intro t hb
    have := h.alike.origin hb
    rw [ho] at this
    rw [Site.shapeFrom_of_bare hb]
    generalize hy : T.origin t = y at this
    cases this
    exact .unknown hy (h.options ▸ hs)
  | simple ho _ ih =>
    intro t hb
    have := h.alike.origin hb
    rw [ho] at this
    rw [Site.shapeFrom_of_bare hb]
    generalize hy : T.origin t = y at this
    cases this with
    | simple hd =>
      rw [Names.entry_of_bare hd]
      exact .simple hy (ih (Declaration.site_of_bare hd))

theorem Setting.Twin.shapeReports (h : S.Twin T) (owner : Owner) {s t : Site}
    (hs : s.bare = t.bare) : S.shapeReports owner s = T.shapeReports owner t := by
  have := h.alike.origin hs
  unfold Setting.shapeReports
  revert this
  generalize S.origin s = x
  generalize T.origin t = y
  rintro (_ | _ | _ | _) <;> rfl

theorem Setting.Twin.isSimple (h : S.Twin T) {d : Declaration} (hd : S.IsSimple d) :
    ∃ e, d.bare = e.bare ∧ T.IsSimple e := by
  obtain ⟨e, hb, he⟩ := h.declared hd.declared
  exact ⟨e, hb, he, (Declaration.isSimpleType_of_bare hb).symm.trans hd.simple⟩

theorem Setting.IsEntry.twin (h : S.Twin T) {d e : Declaration} (hb : d.bare = e.bare)
    (he : T.IsSimple e) {a : ScalarAlias} (ha : S.IsEntry names d a) : T.IsEntry names e a := by
  obtain ⟨-, n, shape, hs, rfl⟩ := ha
  exact ⟨he, n, shape, hs.twin h (Declaration.site_of_bare hb), Names.entry_of_bare hb shape⟩

/-- What follows from an entry is reported alike. -/
theorem Setting.Twin.aliasReports (h : S.Twin T) {d : Declaration} {a : ScalarAlias}
    (ha : S.IsEntry names d a) : S.aliasReports a = T.aliasReports a := by
  obtain ⟨e, hb, he⟩ := h.isSimple ha.1
  rw [Setting.aliasReports_entry ha, Setting.aliasReports_entry (ha.twin h hb he)]
  exact h.shapeReports a.name (Declaration.site_of_bare hb)

end

/-! ## What references come to -/

/-- The types that references come to: what they say of an entry is so. -/
inductive Setting.Knows (S : Setting) (names : Names) : TypeRef → Prop where
  | scalar {ref : TypeRef} (h : ref.kind = .scalar) : Knows S names ref
  | simple {d : Declaration} {a : ScalarAlias} (h : S.IsEntry names d a) : Knows S names (.ofAlias a)
  | type {d : Declaration} {c : String} (hd : S.declarations.lookup .type d.name = some d)
    (hs : d.isSimpleType = false) (hc : names (ownerOfType d.name) = some c) :
    Knows S names (.ofStructure c d.name.label)
  | element {d : Declaration} {c : String} (hd : S.declarations.lookup .element d.name = some d)
    (ho : Compile.hasOwnType d.site.node = true) (hc : names (ownerOfElement d.name) = some c) :
    Knows S names (.ofStructure c d.name.label)
  | unresolved (h : S.options.failOnUnresolved.holds = false) (declared : String) :
    Knows S names (.unresolved declared)

namespace Compile

variable {S T : Setting} {names : Names}

/-- The step comes to `b` wherever it is taken, and the reports of its own are always the same. -/
def Anywhere (T : Setting) (names : Names) {β : Type} (n : Compile β) (b : β) (own : List Report) :
    Prop :=
  ∀ p, p.Sound T names → ∃ q new, Runs n p b q ∧ q.Sound T names ∧ Progress.Delta T p q own new

/-- What a step of one compilation comes to, the step of the other comes to from anywhere, with
the same reports of its own. -/
def Replays (S T : Setting) (names : Names) {α β : Type} (V : α → β → Prop) (m : Compile α)
    (n : Compile β) : Prop :=
  ∀ p a q, p.Sound S names → Runs m p a q →
    ∃ b own new, V a b ∧ q.Sound S names ∧ Progress.Delta S p q own new ∧ Anywhere T names n b own

namespace Replays

variable {α β γ δ : Type}

theorem pure {V : α → β → Prop} {a : α} {b : β} (h : V a b) :
    Replays S T names V (pure a) (pure b) := by
  intro p a' q hp hr
  obtain ⟨rfl, rfl⟩ := runs_pure.mp hr
  exact ⟨b, [], [], h, hp, .refl _, fun p' hp' => ⟨p', [], runs_pure.mpr ⟨rfl, rfl⟩, hp', .refl _⟩⟩

theorem bind {V : α → β → Prop} {W : γ → δ → Prop} {m : Compile α} {n : Compile β}
    {k : α → Compile γ} {l : β → Compile δ} (h : Replays S T names V m n)
    (hk : ∀ a b, V a b → Replays S T names W (k a) (l b)) :
    Replays S T names W (m >>= k) (n >>= l) := by
  intro p c q hp hr
  obtain ⟨a, r, hm, hc⟩ := runs_bind.mp hr
  obtain ⟨b, own, new, hv, hs, hd, first⟩ := h p a r hp hm
  obtain ⟨d, own', new', hw, hs', hd', second⟩ := hk a b hv r c q hs hc
  refine ⟨d, own ++ own', new ++ new', hw, hs', hd.trans hd', ?_⟩
  intro p' hp'
  obtain ⟨r', _, hn, hr', first⟩ := first p' hp'
  obtain ⟨q', _, hl, hq', second⟩ := second r' hr'
  exact ⟨q', _, runs_bind.mpr ⟨b, r', hn, hl⟩, hq', first.trans second⟩

theorem throw {V : α → β → Prop} (e : Refusal) : Replays S T names V (throw e) (throw e) :=
  fun _ _ _ _ hr => absurd hr runs_throw

theorem report (h : S.Twin T) (f : Fault) (key : String) :
    Replays S T names (fun _ _ => S.options.failOnUnresolved.holds = false) (report S f key)
      (report T f key) := by
  intro p _ q hp hr
  have lenient := (runs_report.mp hr).1
  have here : Settled S names [] p q [(f.diagnostic, some key)] [] := settled_report hp hr
  refine ⟨(), _, _, lenient, here.sound, here.delta, ?_⟩
  intro p' hp'
  have hr' : Runs (Compile.report T f key) p' () (p'.note f key) :=
    runs_report.mpr ⟨h.options ▸ lenient, rfl⟩
  have there : Settled T names [] p' _ [(f.diagnostic, some key)] [] := settled_report hp' hr'
  exact ⟨_, _, hr', there.sound, there.delta⟩

/-- A diagnostic that is about no reference. -/
theorem addDiagnostic (d : Diagnostic) :
    Replays S T names Eq (addDiagnostic d) (addDiagnostic d) := by
  have reported {U : Setting} {p : Progress} (hp : p.Sound U names) :
      Progress.Sound U names { p with diagnostics := p.diagnostics ++ [d] } ∧
        Progress.Delta U p { p with diagnostics := p.diagnostics ++ [d] } [(d, none)] [] := by
    refine ⟨⟨hp.canonical, hp.aliases, hp.nodup⟩, ?_, _, .refl _, rfl, rfl⟩
    simp only [List.map_nil, List.append_nil]
  intro p u q hp hr
  obtain rfl := runs_addDiagnostic.mp hr
  refine ⟨(), _, _, rfl, (reported hp).1, (reported hp).2, ?_⟩
  intro p' hp'
  exact ⟨_, _, runs_addDiagnostic.mpr rfl, reported hp'⟩

/-- A step that reads the inventory and comes to a settled canonical name. -/
theorem canonical {owner label name : String} (hn : names owner = some name)
    (hk : S.Knows names (.ofStructure name label)) :
    Replays S T names (fun a b => a = b ∧ S.Knows names a)
      (inventory >>= fun i => Pure.pure
        (⟨.structural, label, .untyped, i.canonical? owner, none, false⟩ : TypeRef))
      (inventory >>= fun i => Pure.pure
        (⟨.structural, label, .untyped, i.canonical? owner, none, false⟩ : TypeRef)) := by
  intro p a q hp hr
  simp only [runs_bind, runs_inventory, runs_pure] at hr
  obtain ⟨_, _, ⟨rfl, rfl⟩, rfl, rfl⟩ := hr
  refine ⟨_, [], [], ⟨rfl, ?_⟩, hp, .refl _, ?_⟩
  · rw [hp.canonical owner name hn]
    exact hk
  · intro p' hp'
    refine ⟨p', [], runs_bind.mpr ⟨_, p', runs_inventory.mpr ⟨rfl, rfl⟩, ?_⟩, hp', .refl _⟩
    rw [hp.canonical owner name hn, hp'.canonical owner name hn]
    exact runs_pure.mpr ⟨rfl, rfl⟩

theorem compileAlias (h : S.Twin T) (tell : names.Tell S) (tell' : names.Tell T)
    {d e : Declaration} (hb : d.bare = e.bare) (hd : S.IsSimple d) (he : T.IsSimple e) :
    Replays S T names (fun a b => a = b ∧ S.Knows names (.ofAlias a)) (compileAlias S d)
      (compileAlias T e) := by
  intro p a q hp hr
  obtain ⟨ha, -, new, hs⟩ := compileAlias_sound tell d p a q hd hp hr
  refine ⟨a, [], new, ⟨rfl, .simple ha⟩, hs.sound, hs.delta, ?_⟩
  intro p' hp'
  obtain ⟨q', hr'⟩ := compileAlias_runs tell' (ha.twin h hb he) hp'
  obtain ⟨-, -, new', hs'⟩ := compileAlias_sound tell' e p' a q' he hp' hr'
  exact ⟨q', new', hr', hs'.sound, hs'.delta⟩

theorem shape (h : S.Twin T) (tell : names.Tell S) (tell' : names.Tell T) (owner : Owner)
    {s t : Site} (hb : s.bare = t.bare) :
    Replays S T names (fun a b => a = b ∧ S.Knows names a.toRef)
      (simpleShapeWith S (Compile.compileAlias S) owner s)
      (simpleShapeWith T (Compile.compileAlias T) owner t) := by
  intro p shape q hp hr
  obtain ⟨⟨n, hn⟩, new, hs⟩ := simpleShapeWith_sound (compileAlias_sound tell) hp hr
  refine ⟨shape, _, new, ⟨rfl, .scalar rfl⟩, hs.sound, hs.delta, ?_⟩
  intro p' hp'
  obtain ⟨q', hr'⟩ := simpleShapeWith_runs (compileAlias_sound tell') hp' (hn.twin h hb)
    (fun d m inner ho hd _ => compileAlias_runs tell' ⟨Setting.isSimple_of_origin ho, m, inner, hd, rfl⟩
      hp') owner
  obtain ⟨-, new', hs'⟩ := simpleShapeWith_sound (compileAlias_sound tell') hp' hr'
  refine ⟨q', new', hr', hs'.sound, ?_⟩
  rw [h.shapeReports owner hb]
  exact hs'.delta

end Replays

/-- References are replayed, and come to types that are known. -/
theorem replays (h : S.Twin T) (tell : names.Tell S) (tell' : names.Tell T) :
    Lockstep S T (Replays S T names) (S.Knows names)
      (S.options.failOnUnresolved.holds = false) where
  alike := h.alike
  pure := Replays.pure
  bind := Replays.bind
  throw := Replays.throw
  report _ key := Replays.report h _ key
  typeName {name d} hd hs := by
    obtain rfl := Declarations.name_of_lookup hd
    obtain ⟨c, hc⟩ := tell.settled d hd
    exact Replays.canonical hc (.type hd hs hc)
  builtinType _ := .scalar rfl
  encodedType _ := .scalar rfl
  unresolved hn declared := .unresolved hn declared
  elementName {d} hd ho := by
    obtain ⟨c, hc⟩ := tell.settledElement d hd ho
    exact Replays.canonical hc (.element hd ho hc)
  simpleType hb hd he hs :=
    Replays.compileAlias h tell tell' hb ⟨hd, hs⟩
      ⟨he, (Declaration.isSimpleType_of_bare hb).symm.trans hs⟩
  shape owner _ _ hb := Replays.shape h tell tell' owner hb

end Compile

end WsdlCatalog
