/-
  WsdlCatalog.Proofs.SimpleChains — what becomes of a simple type, whatever was compiled before.

  A simple type that is declared is compiled together with the types that it is derived from, and
  each gets an entry, which is found when the type is needed again. The types that are being
  compiled are known, and one of these is a fault. All that is true of the entries at any time is
  that each says what its type is (`Progress.Sound`); a type without a shape has none.

  Proved: a simple type comes to what its chain of single steps says, and to the fault of a
  circle exactly if there is no such chain (`Compile.resolvesByChain_of_reserved`). It makes no
  difference which types have been compiled before.
-/

import WsdlCatalog.Proofs.Derivations
import WsdlCatalog.Proofs.Settlement

namespace WsdlCatalog

open Relation

/-! ## Types without a shape -/

section

variable {S : Setting} {names : Names} {owner : Owner} {site : Site} {f : Fault} {d : Declaration}

theorem Refused.not_shapeOf (h : Refused S names owner site f) :
    ∀ n shape, ¬ ShapeOf S names n site shape := by
  induction h with
  | complex h =>
    intro n shape hs
    cases hs with
    | known h' => cases h.symm.trans h'
    | unknown h' => cases h.symm.trans h'
    | simple h' => cases h.symm.trans h'
  | unknown h strict =>
    intro n shape hs
    cases hs with
    | known h' => cases h.symm.trans h'
    | unknown h' lenient => exact Bool.false_ne_true (lenient.symm.trans strict)
    | simple h' => cases h.symm.trans h'
  | simple h _ ih =>
    intro n shape hs
    cases hs with
    | known h' => cases h.symm.trans h'
    | unknown h' => cases h.symm.trans h'
    | simple h' hd =>
      cases h.symm.trans h'
      exact ih _ _ hd

/-- Named types come to an end behind a type that is refused, -/
theorem Refused.acc (h : Refused S names owner site f) :
    ∀ e, S.origin site = .simple e → Acc (fun e d => S.Follows d e) e := by
  induction h with
  | complex h => exact fun e he => nomatch h.symm.trans he
  | unknown h => exact fun e he => nomatch h.symm.trans he
  | simple h _ ih =>
    intro e he
    cases h.symm.trans he
    exact .intro _ ih

/-- and behind one that has a shape. -/
theorem ShapeOf.acc {n : Nat} {shape : SimpleShape} (h : ShapeOf S names n site shape) :
    ∀ e, S.origin site = .simple e → Acc (fun e d => S.Follows d e) e := by
  induction h with
  | known h => exact fun e he => nomatch h.symm.trans he
  | unknown h => exact fun e he => nomatch h.symm.trans he
  | simple h _ ih =>
    intro e he
    cases h.symm.trans he
    exact .intro _ ih

/-- Where named types do not come to an end, they go on. -/
theorem Setting.exists_follows (h : ¬ Acc (fun e d => S.Follows d e) d) :
    ∃ e, S.Follows d e ∧ ¬ Acc (fun e d => S.Follows d e) e := by
  by_contra none
  exact h (.intro d fun e he => by_contra fun endless => none ⟨e, he, endless⟩)

end

namespace Compile

/-! ## Refusals -/

variable {α β : Type} {S : Setting} {names : Names} {p q : Progress} {r : Refusal}

def Refuses (m : Compile α) (p : Progress) (r : Refusal) : Prop := ∃ q, m.outcome p = (.error r, q)

theorem refuses_fail (f : Fault) : Refuses (fail f : Compile α) p (.fault f) := ⟨p, rfl⟩

theorem Refuses.bind {m : Compile α} (h : Refuses m p r) (k : α → Compile β) :
    Refuses (m >>= k) p r := by
  obtain ⟨q, h⟩ := h
  refine ⟨q, ?_⟩
  rw [outcome_bind, h]

theorem refuses_bind {m : Compile α} {a : α} (h : Runs m p a q) {k : α → Compile β}
    (hk : Refuses (k a) q r) : Refuses (m >>= k) p r := by
  obtain ⟨q', hk⟩ := hk
  refine ⟨q', ?_⟩
  rw [outcome_bind, h]
  exact hk

theorem refuses_report {f : Fault} (strict : S.options.failOnUnresolved.holds = true) (key : String) :
    Refuses (report S f key) p (.fault f) := by
  refine ⟨p, ?_⟩
  rw [outcome_report, if_pos strict]

/-- The shape of a type is refused if the type that it is derived from is. -/
theorem refuses_simpleShapeWith {compile : Declaration → Compile ScalarAlias} {owner : Owner}
    {site : Site} {d : Declaration} (h : S.origin site = .simple d) (hd : Refuses (compile d) p r) :
    Refuses (simpleShapeWith S compile owner site) p r := by
  rw [simpleShapeWith_eq, h]
  exact hd.bind _

/-! ## Simple types that are refused -/

section

variable {d : Declaration} {chain : List QName} {depth : Nat}

/-- Whatever was compiled before, a type that is nothing has no entry. -/
theorem alias?_of_absent (tell : names.Tell S) (hd : S.IsSimple d) (hp : p.Sound S names)
    (absent : ∀ a, ¬ S.IsEntry names d a) :
    p.inventory.canonical? (ownerOfType d.name) = names (ownerOfType d.name) ∧
      p.inventory.alias? (names (ownerOfType d.name)) = none := by
  obtain ⟨name, hname⟩ := tell.settled d hd.declared
  exact ⟨(hp.canonical _ _ hname).trans hname.symm, Option.eq_none_iff_forall_ne_some.mpr
    fun a ha => absent a (hp.entry_of_alias? tell hd ha)⟩

/-- A type that is nothing is refused if it is being compiled, -/
theorem refuses_around (tell : names.Tell S) (hd : S.IsSimple d) (hp : p.Sound S names)
    (absent : ∀ a, ¬ S.IsEntry names d a) (hm : d.name ∈ chain) :
    Refuses (compileAliasIn S (depth + 1) chain d) p
      (.fault (.circularSimpleType d.name d.site.document.location)) := by
  obtain ⟨canonical, none⟩ := alias?_of_absent tell hd hp absent
  unfold compileAliasIn
  refine refuses_bind (runs_inventory.mpr ⟨rfl, rfl⟩) (refuses_bind (runs_inventory.mpr ⟨rfl, rfl⟩) ?_)
  rw [canonical, none]
  dsimp only
  rw [if_pos (List.contains_iff_mem.mpr hm)]
  exact refuses_fail _

/-- and else if its shape is. -/
theorem refuses_inside (tell : names.Tell S) (hd : S.IsSimple d) (hp : p.Sound S names)
    (absent : ∀ a, ¬ S.IsEntry names d a) (fresh : d.name ∉ chain)
    (h : Refuses (simpleShapeWith S (compileAliasIn S depth (d.name :: chain))
      (names (ownerOfType d.name)) d.site) p r) :
    Refuses (compileAliasIn S (depth + 1) chain d) p r := by
  obtain ⟨canonical, none⟩ := alias?_of_absent tell hd hp absent
  unfold compileAliasIn
  refine refuses_bind (runs_inventory.mpr ⟨rfl, rfl⟩) (refuses_bind (runs_inventory.mpr ⟨rfl, rfl⟩) ?_)
  rw [canonical, none]
  dsimp only
  rw [if_neg fun hc => fresh (List.contains_iff_mem.mp hc)]
  exact h.bind _

/-- The types that are being compiled are fewer than the bound on their number. -/
theorem length_lt_of_around (h : Around S.declarations .type S.Follows chain d) :
    chain.length < S.declarations.entries.length :=
  Nat.lt_of_lt_of_le h.length_lt (List.length_filterMap_le _ _)

theorem declares_of_follows {e : Declaration} (h : S.Follows d e) : S.declarations.Declares .type e :=
  (Setting.isSimple_of_origin h).declared

/-- **A type is refused for the fault at the end of its chain**, from every progress. -/
theorem refuses_of_refused (tell : names.Tell S) (depth : Nat) :
    ∀ {chain : List QName} {d : Declaration} {f : Fault}, S.IsSimple d →
      Around S.declarations .type S.Follows chain d →
      Refused S names (names (ownerOfType d.name)) d.site f →
      S.declarations.entries.length < depth + chain.length →
      ∀ p, p.Sound S names → Refuses (compileAliasIn S depth chain d) p (.fault f) := by
  induction depth with
  | zero =>
    intro chain d f _ around _ enough
    have := length_lt_of_around around
    omega
  | succ depth ih =>
    intro chain d f hd around refused enough p hp
    have absent (a : ScalarAlias) : ¬ S.IsEntry names d a :=
      fun ⟨_, n, shape, hs, _⟩ => refused.not_shapeOf n shape hs
    refine refuses_inside tell hd hp absent around.fresh ?_
    cases refused with
    | complex h =>
      rw [simpleShapeWith_eq, h]
      exact refuses_fail _
    | unknown h strict =>
      rw [simpleShapeWith_eq, h]
      exact (refuses_report strict _).bind _
    | @simple _ _ e _ h inside =>
      have apart : ¬ TransGen S.Follows e e := not_transGen_of_acc (.intro e inside.acc)
      have fresh : e.name ∉ d.name :: chain :=
        fun hm => apart (around.circle h (declares_of_follows h) hm)
      refine refuses_simpleShapeWith h (ih (Setting.isSimple_of_origin h)
        (around.cons h (declares_of_follows h) fresh) inside ?_ p hp)
      rw [List.length_cons]
      omega

/-- **A type is refused for a circle if named types go on behind it without end**: the first one that
comes again, from every progress the same. -/
theorem exists_refuses_circle (tell : names.Tell S) (depth : Nat) :
    ∀ {chain : List QName} {d : Declaration}, S.IsSimple d →
      Around S.declarations .type S.Follows chain d → ¬ Acc (fun e d => S.Follows d e) d →
      S.declarations.entries.length < depth + chain.length →
      ∃ e, S.IsSimple e ∧ ReflTransGen S.Follows d e ∧ TransGen S.Follows e e ∧
        ∀ p, p.Sound S names → Refuses (compileAliasIn S depth chain d) p
          (.fault (.circularSimpleType e.name e.site.document.location)) := by
  have absent {d : Declaration} (endless : ¬ Acc (fun e d => S.Follows d e) d) (a : ScalarAlias) :
      ¬ S.IsEntry names d a := fun ⟨_, n, shape, hs, _⟩ => endless (.intro d hs.acc)
  induction depth with
  | zero =>
    intro chain d _ around _ enough
    have := length_lt_of_around around
    omega
  | succ depth ih =>
    intro chain d hd around endless enough
    obtain ⟨e, h, more⟩ := Setting.exists_follows endless
    have he : S.IsSimple e := Setting.isSimple_of_origin h
    have short := length_lt_of_around around
    by_cases hm : e.name ∈ d.name :: chain
    · refine ⟨e, he, .single h, around.circle h (declares_of_follows h) hm, fun p hp => ?_⟩
      -- The bound has not been reached where a type comes again.
      obtain ⟨depth, rfl⟩ := Nat.exists_eq_succ_of_ne_zero (n := depth) (by omega)
      exact refuses_inside tell hd hp (absent endless) around.fresh
        (refuses_simpleShapeWith h (refuses_around tell he hp (absent more) hm))
    · obtain ⟨f, hf, way, circle, refuses⟩ := ih he (around.cons h (declares_of_follows h) hm) more (by
        rw [List.length_cons]
        omega)
      exact ⟨f, hf, way.head h, circle, fun p hp => refuses_inside tell hd hp (absent endless)
        around.fresh (refuses_simpleShapeWith h (refuses p hp))⟩

end

/-! ## Every declared simple type -/

/-- What a compilation has done between its jobs: names are reserved, and some jobs are done, in any
order. -/
inductive Reached (S : Setting) : Progress → Prop where
  | reserved {p : Progress} (h : Runs (reserveAll S) .start () p) : Reached S p
  | job {j : Job} {p q : Progress} (before : Reached S p) (hj : j ∈ jobs S)
    (h : Runs (j.run S) p () q) : Reached S q

/-- A simple type comes to what its chain says, from every progress in which entries say what their
types are. -/
structure ResolvesByChain (S : Setting) (d : Declaration) : Prop where
  /-- The steps from the type come to a type again, or to an end, -/
  circularOrEnds : S.Circular d ∨ ∃ steps last, S.Chain d.site steps last
  /-- but not to both. -/
  apart : ∀ steps last, S.Chain d.site steps last → ¬ S.Circular d
  /-- Then it is refused for a type that comes again. -/
  circular : S.Circular d → ∃ e, S.IsSimple e ∧ ReflTransGen S.StepsTo d.site e.site ∧
    TransGen S.StepsTo e.site e.site ∧ ∀ p, p.Sound S S.names → Refuses (compileAlias S d) p
      (.fault (.circularSimpleType e.name e.site.document.location))
  /-- A chain that ends at a complex type, or at something unknown where that is a fault, is
  refused. -/
  refused : ∀ steps last, S.Chain d.site steps last → ¬ last.Known S →
    ∃ f, last.Faulty S f ∧ ∀ p, p.Sound S S.names → Refuses (compileAlias S d) p (.fault f)
  /-- Any other chain tells the entry. -/
  resolved : ∀ steps last, S.Chain d.site steps last → last.Known S →
    ∃ a : ScalarAlias, a.qname = some d.name ∧ a.scalar = last.values ∧
      (a.isList = true ↔ .list ∈ steps) ∧ a.enumeration = steps.findSome? SimpleStep.listed? ∧
      ∀ p, p.Sound S S.names → ∃ q, Runs (compileAlias S d) p a q ∧ q.Sound S S.names
  /-- What was compiled before makes no difference. -/
  same : ∀ p p', p.Sound S S.names → p'.Sound S S.names →
    ((compileAlias S d).outcome p).1 = ((compileAlias S d).outcome p').1

theorem result_of_refuses {m : Compile α} (h : Refuses m p r) : (m.outcome p).1 = .error r := by
  obtain ⟨q, h⟩ := h
  rw [h]

theorem resolvesByChain (tell : S.names.Tell S) {d : Declaration} (hd : S.IsSimple d) :
    ResolvesByChain S d := by
  have around : Around S.declarations .type S.Follows [] d := around_nil hd.declared
  have enough : S.declarations.entries.length
      < S.declarations.entries.length + 1 + ([] : List QName).length := Nat.lt_succ_self _
  have circle (endless : ¬ Acc (fun e d => S.Follows d e) d) :
      ∃ e, S.IsSimple e ∧ ReflTransGen S.StepsTo d.site e.site ∧ TransGen S.StepsTo e.site e.site ∧
        ∀ p, p.Sound S S.names → Refuses (compileAlias S d) p
          (.fault (.circularSimpleType e.name e.site.document.location)) := by
    obtain ⟨e, he, way, round, refuses⟩ := exists_refuses_circle tell _ hd around endless enough
    exact ⟨e, he, Setting.stepsTo_of_reflTransGen way, Setting.stepsTo_of_transGen round, refuses⟩
  have refused (steps : List SimpleStep) (last : SimpleBase) (chain : S.Chain d.site steps last)
      (bad : ¬ last.Known S) : ∃ f, last.Faulty S f ∧
        ∀ p, p.Sound S S.names → Refuses (compileAlias S d) p (.fault f) := by
    obtain ⟨f, faulty, refused⟩ := chain.refused S.names bad (S.names (ownerOfType d.name))
    exact ⟨f, faulty, refuses_of_refused tell _ hd around refused enough⟩
  have resolved (steps : List SimpleStep) (last : SimpleBase) (chain : S.Chain d.site steps last)
      (known : last.Known S) : ∃ shape : SimpleShape, shape.Shows steps last ∧
        ∀ p, p.Sound S S.names →
          ∃ q, Runs (compileAlias S d) p (S.names.entry d shape) q ∧ q.Sound S S.names := by
    obtain ⟨n, shape, hs, shows⟩ := chain.shapeOf S.names known
    have entry : S.IsEntry S.names d (S.names.entry d shape) := ⟨hd, n, shape, hs, rfl⟩
    refine ⟨shape, shows, fun p hp => ?_⟩
    obtain ⟨q, hr⟩ := compileAlias_runs tell entry hp
    obtain ⟨-, -, new, settled⟩ := compileAlias_sound tell d p _ q hd hp hr
    exact ⟨q, hr, settled.sound⟩
  refine ⟨?_, fun steps last chain => chain.not_circular, fun h => circle fun ends => ?_, refused,
    ?_, ?_⟩
  · by_cases ends : Acc (fun e d => S.Follows d e) d
    · exact .inr (Setting.exists_chain ends)
    · obtain ⟨e, he, way, round, -⟩ := circle ends
      exact .inl ⟨e, he, way, round⟩
  · obtain ⟨steps, last, chain⟩ := Setting.exists_chain ends
    exact chain.not_circular h
  · intro steps last chain known
    obtain ⟨shape, shows, runs⟩ := resolved steps last chain known
    exact ⟨_, rfl, shows.scalar, shows.isList, shows.enumeration, runs⟩
  · intro p p' hp hp'
    by_cases ends : Acc (fun e d => S.Follows d e) d
    · obtain ⟨steps, last, chain⟩ := Setting.exists_chain ends
      by_cases known : last.Known S
      · obtain ⟨shape, -, runs⟩ := resolved steps last chain known
        obtain ⟨q, h, -⟩ := runs p hp
        obtain ⟨q', h', -⟩ := runs p' hp'
        rw [h, h']
      · obtain ⟨f, -, refuses⟩ := refused steps last chain known
        rw [result_of_refuses (refuses p hp), result_of_refuses (refuses p' hp')]
    · obtain ⟨e, -, -, -, refuses⟩ := circle ends
      rw [result_of_refuses (refuses p hp), result_of_refuses (refuses p' hp')]

/-- What has been compiled between jobs settles. -/
theorem Reached.settles (hS : Answers S.names S) (h : Reached S p) : Settles S p := by
  induction h with
  | reserved h =>
    obtain ⟨hn, rfl⟩ := (runs_reserveAll hS.formed).mp h
    exact ⟨(consistent_requested hS.formed hn).1.sound, fun _ hx => absurd hx List.not_mem_nil⟩
  | job _ hj h ih => exact ih.job hS hj h

/-- **A declared simple type comes to what its chain says**, and the same whatever was compiled
before. -/
theorem resolvesByChain_of_reserved {set : SchemaSet} {options : Options}
    (hs : Setting.ofSchemaSet set options = .ok S)
    (plain : ∀ d ∈ set.documents, '\x7d' ∉ d.targetNamespace.toList)
    (reserved : Runs (reserveAll S) .start () p) :
    (∀ q, Reached S q → q.Sound S S.names) ∧ ∀ d, S.IsSimple d → ResolvesByChain S d := by
  have hS := Setting.wellFormed hs plain
  have answers := answers hS ((runs_reserveAll hS).mp reserved).1
  exact ⟨fun q h => (h.settles answers).sound, fun d hd => resolvesByChain answers.tell hd⟩

/-! ### A list of sizes, and two types in a circle -/

/-- Sizes are a list of what stands in a restriction without a name; left and right restrict each
other. -/
def sizes : SchemaSet :=
  let xsd (tag : String) (attributes : List (String × String)) (children : List Xml.Node) : Xml.Node :=
    ⟨Vocabulary.xsd, tag, attributes, [("t", some "urn:t"), ("xs", some Vocabulary.xsd)], children, "", 1⟩
  let restriction (base : String) (values : List String) :=
    xsd "restriction" [("base", base)] (values.map fun value => xsd "enumeration" [("value", value)] [])
  let simple (name : String) (child : Xml.Node) := xsd "simpleType" [("name", name)] [child]
  let list := xsd "simpleType" [] [xsd "list" [("itemType", "t:Size")] []]
  ⟨"memory:t.xsd", [⟨"memory:t.xsd", "urn:t", xsd "schema" []
    [simple "Size" (restriction "xs:int" ["38", "40"]), simple "Sizes" (xsd "restriction" [] [list]),
      simple "Left" (restriction "t:Right" []), simple "Right" (restriction "t:Left" [])]⟩], none⟩

theorem sizes_resolvesByChain : ∃ S several left p, Setting.ofSchemaSet sizes {} = .ok S ∧
    Runs (reserveAll S) .start () p ∧ S.IsSimple several ∧ S.IsSimple left ∧
    (∃ a q, Runs (compileAlias S several) p a q ∧ a.scalar = .numeric ∧ a.isList = true ∧
      a.enumeration = some ["38", "40"]) ∧
    S.Circular left ∧ ∃ e, S.IsSimple e ∧
      Refuses (compileAlias S left) p (.fault (.circularSimpleType e.name e.site.document.location)) := by
  obtain ⟨S, size, several, left, right, inner, ref, p, hs, reserved, types, simple, numeric,
      ⟨outer, list, values⟩, there, back⟩ :
      ∃ S size several left right inner ref p, Setting.ofSchemaSet sizes {} = .ok S ∧
        Runs (reserveAll S) .start () p ∧
        S.declarations.inSpace .type = [size, several, left, right] ∧
        (several.isSimpleType = true ∧ left.isSimpleType = true) ∧ ref.scalar = .numeric ∧
        (S.derivation several.site = some (.values [], .inline inner) ∧
          S.derivation inner = some (.list, .declared size) ∧
          S.derivation size.site = some (.values ["38", "40"], .scalar ref)) ∧
        S.derivation left.site = some (.values [], .declared right) ∧
        S.derivation right.site = some (.values [], .declared left) :=
    ⟨_, _, _, _, _, _, _, _, rfl, rfl, rfl, ⟨rfl, rfl⟩, rfl, ⟨rfl, rfl, rfl⟩, rfl, rfl⟩
  have plain : ∀ d ∈ sizes.documents, '\x7d' ∉ d.targetNamespace.toList := by decide
  obtain ⟨sound, resolves⟩ := resolvesByChain_of_reserved hs plain reserved
  have start : p.Sound S S.names := sound p (.reserved reserved)
  have declared {d : Declaration} (hd : d ∈ [size, several, left, right]) :
      S.declarations.lookup .type d.name = some d :=
    (Setting.wellFormed hs plain).lookup_of_mem (types ▸ hd)
  have hs' : S.IsSimple several := ⟨declared (by simp), simple.1⟩
  have hl : S.IsSimple left := ⟨declared (by simp), simple.2⟩
  have chain : S.Chain several.site [.values [], .list, .values ["38", "40"]] (.scalar ref) :=
    .next outer rfl (.next list rfl (.last values rfl))
  have circle : S.Circular left :=
    ⟨left, hl, .refl, .head ⟨_, _, there, rfl⟩ (.single ⟨_, _, back, rfl⟩)⟩
  obtain ⟨a, -, scalar, isList, enumeration, runs⟩ := (resolves _ hs').resolved _ _ chain trivial
  obtain ⟨q, hr, -⟩ := runs p start
  obtain ⟨e, he, -, -, refuses⟩ := (resolves _ hl).circular circle
  exact ⟨S, several, left, p, hs, reserved, hs', hl,
    ⟨a, q, hr, scalar.trans numeric, isList.mpr (by simp), enumeration⟩, circle, e, he, refuses p start⟩

end Compile

end WsdlCatalog
