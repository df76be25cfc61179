/-
  WsdlCatalog.Proofs.Integrity — what a catalog says of its entries.

  References are made before the types that they name are compiled, and some of these are
  only met on the way. When all is done each reference names one entry and says what the
  entry says (`Catalog.Intact`).

  Proved: every catalog that comes of a schema set is intact
  (`SchemaSet.compile_intact`).
-/

import Mathlib.Logic.Relation
import WsdlCatalog.Proofs.Stages
import WsdlCatalog.Proofs.Strictness

namespace WsdlCatalog

namespace Catalog

def references (c : Catalog) : List TypeRef := c.types.flatMap StructuralType.typeRefs

/-- A type extends another one. -/
def Extends (c : Catalog) (derived base : String) : Prop :=
  ∃ t ∈ c.types, t.name = some derived ∧ t.base = some base

/-- What a catalog says of its entries is so. -/
structure Intact (c : Catalog) : Prop where
  /-- A reference to a structural type names one entry, by the name of what is declared. -/
  structural : ∀ ref ∈ c.references, ref.kind = .structural → ∃ name t, ref.name = some name ∧
    c.types.filter (·.name == some name) = [t] ∧ t.qname.map QName.label = some ref.declared
  /-- A reference to a simple type names one entry, which has values as the reference says. -/
  simple : ∀ ref ∈ c.references, ref.kind = .alias → ∃ name a, ref.name = some name ∧
    c.aliases.filter (·.name == some name) = [a] ∧ a.scalar = ref.scalar ∧ a.isList = ref.isList ∧
      a.qname.map QName.label = some ref.declared
  bases : ∀ t ∈ c.types, ∀ base, t.base = some base → ∃ b ∈ c.types, b.name = some base
  acyclic : ∀ name, ¬ Relation.TransGen c.Extends name name
  operations : ∀ o ∈ c.operations, ∀ name, o.inputType = some name ∨ o.outputType = some name →
    ∃ t ∈ c.types, t.name = some name
  children : ∀ routes ∈ c.marshalling.children, ∀ route ∈ routes.2, ∃ name, route.2 = some name ∧
    ((∃ a ∈ c.aliases, a.name = some name) ∨ ∃ t ∈ c.types, t.name = some name)
  unknown : ∀ ref ∈ c.references, ref.kind = .unknown → c.unresolved ≠ []

end Catalog

/-! ## One entry under a name -/

theorem filter_entries {α : Type} {entries : List (Option String × α)} {name : α → Option String}
    (hn : (entries.map Prod.fst).Nodup) (hf : ∀ x ∈ entries, x.1 = name x.2) {x : Option String × α}
    (hx : x ∈ entries) : (entries.map (·.2)).filter (name · == x.1) = [x.2] := by
  induction entries with
  | nil => exact absurd hx List.not_mem_nil
  | cons y rest ih =>
    rw [List.map_cons, List.nodup_cons] at hn
    have rest_named (z : Option String × α) (hz : z ∈ rest) : z.1 = name z.2 :=
      hf z (List.mem_cons_of_mem _ hz)
    have hy : y.1 = name y.2 := hf y List.mem_cons_self
    rw [List.map_cons, List.filter_cons]
    rcases List.mem_cons.mp hx with rfl | hx
    · have others : (rest.map (·.2)).filter (name · == x.1) = [] := by
        rw [List.filter_eq_nil_iff]
        intro a ha he
        obtain ⟨z, hz, rfl⟩ := List.mem_map.mp ha
        refine hn.1 (List.mem_map.mpr ⟨z, hz, ?_⟩)
        rw [rest_named z hz]
        exact eq_of_beq he
      rw [← hy, beq_self_eq_true, if_pos rfl, others]
    · have hne : (name y.2 == x.1) = false := by
        rw [← hy]
        exact beq_false_of_ne fun e => hn.1 (e ▸ List.mem_map_of_mem hx)
      rw [hne, if_neg Bool.false_ne_true]
      exact ih hn.2 rest_named hx

theorem filter_sorted {α : Type} {entries : List (Option String × α)} {sorted : List α}
    {name : α → Option String} (hs : Inventory.byCanonical? entries = some sorted)
    (hn : (entries.map Prod.fst).Nodup) (hf : ∀ x ∈ entries, x.1 = name x.2) {x : Option String × α}
    (hx : x ∈ entries) : sorted.filter (name · == x.1) = [x.2] := by
  have := (Compile.perm_of_byCanonical hs).filter (name · == x.1)
  rw [filter_entries hn hf hx] at this
  exact List.perm_singleton.mp this

namespace Compile

variable {S : Setting} {names : Names} {p q : Progress}

/-- A reserved type with an entry has it under its own name. -/
theorem entry_of_reserved (hp : p.Consistent S names) {r : Reservation}
    (hr : r ∈ p.inventory.reservations) (hk : some r.canonical ∈ p.inventory.typeKeys) :
    ∃ t, (some r.canonical, t) ∈ p.inventory.types ∧ t.qname = some r.name := by
  obtain ⟨⟨_, t⟩, hx, rfl⟩ := List.mem_map.mp hk
  obtain ⟨r', hr', hc, -, hq⟩ := hp.entries _ hx
  have := List.inj_on_of_nodup_map hp.canonicals hr hr' (Option.some.inj hc)
  exact ⟨t, hx, this ▸ hq⟩

theorem entry_of_job (hS : Answers names S) (hp : p.Consistent S names)
    (hb : Between S names (jobs S) p) {anonymous : Bool} {owner c : String} {name : QName}
    {site : Site} (hj : .complex anonymous owner name site ∈ jobs S) (hc : names owner = some c) :
    ∃ t, (some c, t) ∈ p.inventory.types ∧ t.qname = some name := by
  have canonical : c = Text.pascal name.localPart :=
    Option.some.inj (hc.symm.trans (hS.job _ hj))
  have request : (⟨owner, c, name⟩ : Reservation) ∈ p.inventory.reservations := by
    rw [canonical]
    exact hb.requested (map_request S ▸ List.mem_map_of_mem hj)
  refine entry_of_reserved hp request ?_
  dsimp only
  rw [canonical]
  exact hb.entered _ hj

/-- After all jobs a structural type that is referred to has an entry. -/
theorem entry_of_structural (hS : Answers names S) (hp : p.Consistent S names)
    (hb : Between S names (jobs S) p) {ref : TypeRef} (h : p.Holds S names ref)
    (hk : ref.kind = .structural) :
    ∃ c t, ref.name = some c ∧ (some c, t) ∈ p.inventory.types ∧
      t.qname.map QName.label = some ref.declared := by
  have found {c : String} {name : QName}
      (h : ∃ t, (some c, t) ∈ p.inventory.types ∧ t.qname = some name) :
      ∃ c' t, some c = some c' ∧ (some c', t) ∈ p.inventory.types ∧
        t.qname.map QName.label = some name.label := by
    obtain ⟨t, ht, hq⟩ := h
    exact ⟨c, t, rfl, ht, hq ▸ rfl⟩
  rcases h with h | ⟨r, hr, ht, rfl⟩
  · cases h with
    | scalar h => cases h.symm.trans hk
    | simple => cases hk
    | unresolved => cases hk
    | @type d c hd hs hc =>
      have job : Job.complex false (ownerOfType d.name) d.name d.site ∈ jobs S := by
        refine List.mem_append_left _ (List.mem_map.mpr ⟨d, Setting.WellFormed.mem_of_lookup hd, ?_⟩)
        unfold Job.ofType
        rw [hs, if_neg Bool.false_ne_true]
      exact found (entry_of_job hS hp hb job hc)
    | @element d c hd ho hc =>
      have own := ho
      unfold hasOwnType at own
      cases hi : d.site.node.child? Vocabulary.xsd "complexType" with
      | none =>
        rw [hi] at own
        simp at own
      | some inner =>
        have job : Job.complex true (ownerOfElement d.name) d.name (d.site.atNode inner) ∈ jobs S := by
          refine List.mem_append_right _ (List.mem_filterMap.mpr ⟨d, ?_, ?_⟩)
          · exact List.mem_filter.mpr ⟨Setting.WellFormed.mem_of_lookup hd, ho⟩
          · unfold Job.ofElement?
            rw [hi]
            rfl
        exact found (entry_of_job hS hp hb job hc)
  · exact found (entry_of_reserved hp hr ht)

/-- After all jobs a simple type that is referred to has an entry. -/
theorem entry_of_simple (hb : Between S names (jobs S) p) {ref : TypeRef} (h : p.Holds S names ref)
    (hk : ref.kind = .alias) :
    ∃ a, (a.name, a) ∈ p.inventory.aliases ∧ ref = .ofAlias a ∧ ∃ d, S.IsEntry names d a := by
  rcases h with h | ⟨r, hr, ht, rfl⟩
  · cases h with
    | scalar h => cases h.symm.trans hk
    | type => cases hk
    | element => cases hk
    | unresolved => cases hk
    | @simple d a ha => exact ⟨a, hb.filled d a ha, rfl, d, ha⟩
  · cases hk

/-! ## The finished catalog -/

structure Completed (S : Setting) (p q : Progress)
    (types : List (Option String × StructuralType)) : Prop where
  answers : Answers S.names S
  consistent : p.Consistent S S.names
  between : Between S S.names (jobs S) p
  finished : Extension.Finished p.inventory.types types
  keys : ∀ k, k ∈ types.map Prod.fst ↔ k ∈ p.inventory.typeKeys
  types : q.inventory.types = types
  aliases : p.inventory.aliases ⊆ q.inventory.aliases
  sound : q.Sound S S.names

variable {set : SchemaSet} {c : Catalog} {compiled : Progress}
  {types : List (Option String × StructuralType)} {aliases : List ScalarAlias}
  {sorted : List StructuralType} {operations : List Operation} {serviceName : Option String}
  {displayName : Loose String}

/-- The service description adds entries of simple types, and its operations carry types that are
known. -/
theorem runs_described (tell : S.names.Tell S) (hp : p.Sound S S.names)
    (h : Runs (interface S set) p (operations, serviceName) q) :
    (∃ own new, p.Delta S q own new) ∧ q.Sound S S.names ∧
      ∀ o ∈ operations, Carries (S.Knows S.names) o := by
  have lockstep := replays (Setting.Twin.refl S) tell tell
  obtain ⟨_, own, new, ⟨-, carried⟩, sound, delta, -⟩ := lockstep.interface
    (fun _ _ _ => Replays.addDiagnostic _) (rfl : set.location = set.location) rfl _ _ _ hp h
  exact ⟨⟨own, new, delta⟩, sound, carried⟩

theorem Staged.completed (hS : S.WellFormed)
    (h : Staged S set .start q c compiled types aliases sorted operations serviceName displayName) :
    Completed S compiled q types ∧ ∀ o ∈ operations, Carries (S.Knows S.names) o := by
  obtain ⟨reserved, hr, hc⟩ := h.jobs
  obtain ⟨answers, consistent, between⟩ := consistent_of_jobs hS hr hc
  obtain ⟨finished, keys⟩ := Extension.expand_sound h.expand
  obtain ⟨⟨own, new, delta⟩, sound, hops⟩ :=
    runs_described answers.tell (sound_withTypes consistent.sound types) h.interface
  refine ⟨⟨answers, consistent, between, finished, keys, ?_, ?_, sound⟩, hops⟩
  · rw [delta.inventory]
    rfl
  · rw [delta.aliases]
    exact List.subset_append_left _ _

namespace Completed

/-- An entry stands under the name of its type. -/
theorem name_eq (h : Completed S p q types) {x : Option String × StructuralType} (hx : x ∈ types) :
    x.1 = x.2.name := by
  obtain ⟨n, hn⟩ := h.finished.full x hx
  obtain ⟨t, ht, hname, -⟩ := hn.origin
  obtain ⟨r, -, hk, hname', -⟩ := h.consistent.entries _ ht
  rw [hname, hname']
  exact hk

/-- A type keeps what it is declared as. -/
theorem exists_type (h : Completed S p q types) {k : Option String} {t : StructuralType}
    (ht : (k, t) ∈ p.inventory.types) : ∃ t', (k, t') ∈ types ∧ t'.qname = t.qname := by
  obtain ⟨⟨_, t'⟩, hx, rfl⟩ := List.mem_map.mp ((h.keys k).mpr (List.mem_map_of_mem ht))
  obtain ⟨n, hn⟩ := h.finished.full _ hx
  obtain ⟨u, hu, -, hq, -⟩ := hn.origin
  have hl := lookup_of_mem h.consistent.typeKeys ht
  rw [lookup_of_mem h.consistent.typeKeys hu] at hl
  obtain rfl := Option.some.inj hl
  exact ⟨t', hx, hq⟩

theorem holds (h : Completed S p q types) {x : Option String × StructuralType} (hx : x ∈ types) :
    ∀ ref ∈ x.2.typeRefs, p.Holds S S.names ref := by
  obtain ⟨n, hn⟩ := h.finished.full x hx
  exact hn.allGood h.consistent.refs

/-- Every structural type that is referred to is there. -/
theorem exists_structural (h : Completed S p q types) {ref : TypeRef} (hr : p.Holds S S.names ref)
    (hk : ref.kind = .structural) :
    ∃ name t, ref.name = some name ∧ (some name, t) ∈ types ∧
      t.qname.map QName.label = some ref.declared := by
  obtain ⟨c, t, hc, ht, hq⟩ := entry_of_structural h.answers h.consistent h.between hr hk
  obtain ⟨t', ht', hq'⟩ := h.exists_type ht
  exact ⟨c, t', hc, ht', hq' ▸ hq⟩

end Completed

section

variable (h : Staged S set .start q c compiled types aliases sorted operations serviceName displayName)
  (done : Completed S compiled q types)

include h done

theorem Staged.mem_types {t : StructuralType} : t ∈ c.types ↔ ∃ x ∈ types, x.2 = t := by
  have hs := perm_of_byCanonical h.sortedTypes
  rw [h.catalog, ← List.mem_map, ← done.types]
  exact hs.mem_iff

theorem Staged.holds {ref : TypeRef} (hr : ref ∈ c.references) : compiled.Holds S S.names ref := by
  obtain ⟨t, ht, hr⟩ := List.mem_flatMap.mp hr
  obtain ⟨x, hx, rfl⟩ := (h.mem_types done).mp ht
  exact done.holds hx ref hr

theorem Staged.structural {ref : TypeRef} (hr : compiled.Holds S S.names ref)
    (hk : ref.kind = .structural) : ∃ name t, ref.name = some name ∧
      c.types.filter (·.name == some name) = [t] ∧ t.qname.map QName.label = some ref.declared := by
  obtain ⟨name, t, hname, ht, hq⟩ := done.exists_structural hr hk
  refine ⟨name, t, hname, ?_, hq⟩
  have hs : Inventory.byCanonical? types = some sorted := done.types ▸ h.sortedTypes
  rw [h.catalog]
  exact filter_sorted hs done.finished.nodup (fun x hx => done.name_eq hx) ht

theorem Staged.simple {ref : TypeRef} (hr : compiled.Holds S S.names ref) (hk : ref.kind = .alias) :
    ∃ name a, ref.name = some name ∧ c.aliases.filter (·.name == some name) = [a] ∧
      a.scalar = ref.scalar ∧ a.isList = ref.isList ∧ a.qname.map QName.label = some ref.declared := by
  obtain ⟨a, ha, rfl, d, hd, n, shape, -, rfl⟩ := entry_of_simple done.between hr hk
  obtain ⟨name, hn⟩ := done.answers.tell.settled d hd.declared
  refine ⟨name, _, hn, ?_, rfl, rfl, rfl⟩
  rw [h.catalog, ← hn]
  exact filter_sorted h.sortedAliases done.sound.nodup (fun x hx => (done.sound.aliases x hx).1)
    (done.aliases ha)

theorem Staged.exists_type {name : String} (hk : some name ∈ types.map Prod.fst) :
    ∃ t ∈ c.types, t.name = some name := by
  obtain ⟨x, hx, he⟩ := List.mem_map.mp hk
  exact ⟨x.2, (h.mem_types done).mpr ⟨x, hx, rfl⟩, (done.name_eq hx).symm.trans he⟩

theorem Staged.exists_of_structural {ref : TypeRef} (hr : compiled.Holds S S.names ref)
    (hk : ref.kind = .structural) {name : String} (hn : ref.name = some name) :
    ∃ t ∈ c.types, t.name = some name := by
  obtain ⟨name', t, hname, ht, -⟩ := done.exists_structural hr hk
  obtain rfl := Option.some.inj (hn.symm.trans hname)
  exact h.exists_type done (List.mem_map_of_mem ht)

/-- A type is higher than the one that it extends. -/
theorem Staged.lower {derived base : String} (he : c.Extends derived base) :
    ∃ n m t u, Extension.Full compiled.inventory.types n (some derived) t ∧
      Extension.Full compiled.inventory.types m (some base) u ∧ m < n := by
  obtain ⟨t, ht, hn, hb⟩ := he
  obtain ⟨x, hx, rfl⟩ := (h.mem_types done).mp ht
  obtain ⟨n, hfull⟩ := done.finished.full x hx
  rw [done.name_eq hx, hn] at hfull
  obtain ⟨m, u, hu, hlt⟩ := hfull.base hb
  exact ⟨n, m, x.2, u, hfull, hu, hlt⟩

theorem Staged.acyclic (name : String) : ¬ Relation.TransGen c.Extends name name := by
  have lower {derived base : String} (hg : Relation.TransGen c.Extends derived base) :
      ∃ n m t u, Extension.Full compiled.inventory.types n (some derived) t ∧
        Extension.Full compiled.inventory.types m (some base) u ∧ m < n := by
    induction hg with
    | single he => exact h.lower done he
    | tail _ he ih =>
      obtain ⟨n, m, t, u, ht, hu, hlt⟩ := ih
      obtain ⟨m', k, u', v, hu', hv, hlt'⟩ := h.lower done he
      obtain ⟨rfl, -⟩ := hu.unique hu'
      exact ⟨n, k, t, v, ht, hv, Nat.lt_trans hlt' hlt⟩
  intro hg
  obtain ⟨n, m, t, u, ht, hu, hlt⟩ := lower hg
  obtain ⟨rfl, -⟩ := ht.unique hu
  exact Nat.lt_irrefl _ hlt

/-- The types that govern elements are entries. -/
theorem Staged.children : ∀ routes ∈ c.marshalling.children, ∀ route ∈ routes.2,
    ∃ name, route.2 = some name ∧
      ((∃ a ∈ c.aliases, a.name = some name) ∨ ∃ t ∈ c.types, t.name = some name) := by
  intro routes hroutes route hroute
  have tables : c.marshalling = .ofTypes c.types := by rw [h.catalog]; rfl
  rw [tables] at hroutes
  obtain ⟨t, ht, rfl⟩ := List.mem_map.mp (mem_putAll hroutes)
  obtain ⟨e, he, hroute⟩ := List.mem_filterMap.mp (mem_putAll hroute)
  split at hroute
  · rename_i hnamed
    cases hroute
    have hr : compiled.Holds S S.names e.typeRef := by
      refine h.holds done (List.mem_flatMap.mpr ⟨t, ht, ?_⟩)
      exact List.mem_append_right _ (List.mem_map_of_mem (List.mem_append_left _ he))
    rcases Bool.or_eq_true_iff.mp hnamed with hk | hk
    · obtain ⟨name, a, hname, hf, -⟩ := h.simple done hr (eq_of_beq hk)
      have hm : a ∈ c.aliases.filter (·.name == some name) := hf ▸ List.mem_cons_self
      exact ⟨name, hname, .inl ⟨a, (List.mem_filter.mp hm).1, eq_of_beq (List.mem_filter.mp hm).2⟩⟩
    · obtain ⟨name, t, hname, hf, -⟩ := h.structural done hr (eq_of_beq hk)
      have hm : t ∈ c.types.filter (·.name == some name) := hf ▸ List.mem_cons_self
      exact ⟨name, hname, .inr ⟨t, (List.mem_filter.mp hm).1, eq_of_beq (List.mem_filter.mp hm).2⟩⟩
  · cases hroute

end

/-- All that is so of a catalog, but for what is unresolved. -/
theorem Staged.intact (hS : S.WellFormed)
    (h : Staged S set .start q c compiled types aliases sorted operations serviceName displayName)
    (hu : ∀ ref ∈ c.references, ref.kind = .unknown → c.unresolved ≠ []) : c.Intact := by
  obtain ⟨done, hops⟩ := h.completed hS
  refine ⟨fun ref hr hk => h.structural done (h.holds done hr) hk,
    fun ref hr hk => h.simple done (h.holds done hr) hk, ?_, h.acyclic done, ?_, h.children done, hu⟩
  · intro t ht base hb
    obtain ⟨x, hx, rfl⟩ := (h.mem_types done).mp ht
    obtain ⟨n, hn⟩ := done.finished.full x hx
    obtain ⟨m, u, hu, -⟩ := hn.base hb
    exact h.exists_type done ((done.keys _).mpr hu.mem_keys)
  · intro o ho name hname
    rw [h.catalog] at ho
    have carried := hops o ho
    rcases hname with hname | hname
    · obtain ⟨ref, hr, hk, hn⟩ := carried.input name hname
      exact h.exists_of_structural done (.inl hr) hk hn
    · obtain ⟨ref, hr, hk, hn⟩ := carried.output name hname
      exact h.exists_of_structural done (.inl hr) hk hn

/-- Types are left unknown in lenient compilations only. -/
theorem Staged.lenient (hS : S.WellFormed)
    (h : Staged S set .start q c compiled types aliases sorted operations serviceName displayName)
    {ref : TypeRef} (hr : ref ∈ c.references) (hk : ref.kind = .unknown) :
    S.options.failOnUnresolved.holds = false := by
  obtain ⟨done, -⟩ := h.completed hS
  rcases h.holds done hr with hr | ⟨r, -, -, rfl⟩
  · cases hr with
    | scalar h => cases h.symm.trans hk
    | simple => cases hk
    | type => cases hk
    | element => cases hk
    | unresolved hl => exact hl
  · cases hk

/-- A lenient compilation that reported nothing is as good as a strict one. -/
theorem runs_strict (hl : S.options.failOnUnresolved.holds = false)
    (h : Runs (catalog S set) .start c q) (hu : q.unresolved = []) :
    ∃ q', Runs (catalog { S with options := S.options.strict } set) .start
      { c with options := S.options.strict } q' := by
  have strictness : Strictness { S with options := S.options.strict } S := by
    refine ⟨⟨Declarations.Alike.refl _, fun _ => rfl, rfl⟩, rfl, rfl, rfl, rfl, hl⟩
  rcases strictness.catalog rfl set .start with ⟨hr, -⟩ | ⟨-, hn, -⟩
  · rw [h] at hr
    rcases hs : (catalog { S with options := S.options.strict } set).outcome .start with ⟨e | c', q'⟩
    · rw [hs] at hr
      exact hr.elim
    · rw [hs] at hr
      exact ⟨q', hs.trans (by rw [show c' = _ from hr])⟩
  · rw [h] at hn
    exact absurd hu hn

end Compile

namespace SchemaSet

/-- **Every catalog is intact**, as long as no namespace has a closing brace in it. -/
theorem compile_intact {set : SchemaSet} {options : Options} {c : Catalog}
    (h : (set.compile options).result = .ok c)
    (hp : ∀ d ∈ set.documents, '\x7d' ∉ d.targetNamespace.toList) : c.Intact := by
  cases hs : Setting.ofSchemaSet set options with
  | error f =>
    unfold compile at h
    rw [hs] at h
    cases h
  | ok S =>
    have hS := Setting.wellFormed hs hp
    rw [result_compile hs] at h
    have run : Compile.Runs (Compile.catalog S set) .start c _ := Prod.ext h rfl
    obtain ⟨compiled, types, aliases, sorted, operations, serviceName, name, staged⟩ :=
      Compile.runs_catalog.mp run
    refine staged.intact hS fun ref hr hk hu => ?_
    have resolved := (Compile.unresolved_of_runs_catalog run).1
    rw [hu] at resolved
    obtain ⟨q, strict⟩ := Compile.runs_strict (staged.lenient hS hr hk) run
      (List.length_eq_zero_iff.mp (by rw [← List.length_mergeSort, ← resolved]; rfl))
    obtain ⟨_, _, _, _, _, _, _, staged'⟩ := Compile.runs_catalog.mp strict
    have strictly : Setting.WellFormed { S with options := S.options.strict } :=
      ⟨hS.nodup, hS.plain⟩
    exact absurd (staged'.lenient strictly hr hk) Bool.noConfusion

/-- A schema of a type with another one inside it, which has the first one inside again. -/
def nestedSet : SchemaSet :=
  let again : Xml.Node :=
    ⟨Vocabulary.xsd, "element", [("name", "again"), ("type", "Order")], [], [], "", 5⟩
  let inner : Xml.Node := ⟨Vocabulary.xsd, "complexType", [], [],
    [⟨Vocabulary.xsd, "sequence", [], [], [again], "", 4⟩], "", 4⟩
  let item : Xml.Node := ⟨Vocabulary.xsd, "element", [("name", "item")], [], [inner], "", 3⟩
  let order : Xml.Node := ⟨Vocabulary.xsd, "complexType", [("name", "Order")], [],
    [⟨Vocabulary.xsd, "sequence", [], [], [item], "", 2⟩], "", 2⟩
  ⟨"memory:order.xsd", [⟨"memory:order.xsd", "urn:order",
    ⟨Vocabulary.xsd, "schema", [], [], [order], "", 1⟩⟩], none⟩

theorem nestedSet_intact : ∃ c, (nestedSet.compile {}).result = .ok c ∧ c.types.length = 2 ∧
    c.Intact := by
  have run : ∃ c, (nestedSet.compile {}).result = .ok c ∧ c.types.length = 2 := by
    refine ⟨_, rfl, ?_⟩
    show (Inventory.byName _).length = 2
    rw [(Compile.perm_byName _).length_eq]
    rfl
  obtain ⟨c, run, types⟩ := run
  exact ⟨c, run, types, compile_intact run (by decide)⟩

end SchemaSet

end WsdlCatalog
