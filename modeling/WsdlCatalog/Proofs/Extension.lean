/-
  WsdlCatalog.Proofs.Extension — types with the members of their bases.

  A type with all its members follows from the types that it extends one after another,
  down to one that extends none (`Full`); how many these are is its height, which gets
  smaller on the way. What its members say of types was said by the members of one of
  these.

  Proved: types that were finished are full (`expand_sound`), types that can all be made
  full are finished (`expand_runs`), and their order does not matter (`expand_perm`).
-/

import Mathlib.Data.List.Perm.Subperm
import WsdlCatalog.Compile.Extension
import WsdlCatalog.Proofs.Lockstep.ComplexType
import WsdlCatalog.Proofs.Table

namespace WsdlCatalog

/-- What steps without a refusal preserve holds in the end. -/
theorem ok_foldlM {ι σ ε : Type} {I : σ → Prop} {f : σ → ι → Except ε σ} {is : List ι}
    (step : ∀ a i b, i ∈ is → I a → f a i = .ok b → I b) :
    ∀ {a b : σ}, I a → is.foldlM f a = .ok b → I b := by
  induction is with
  | nil =>
    intro a b ha h
    obtain rfl := Except.ok.inj h
    exact ha
  | cons i rest ih =>
    intro a b ha h
    rw [List.foldlM_cons] at h
    cases hi : f a i with
    | error e => rw [hi] at h; cases h
    | ok c =>
      rw [hi] at h
      have rest_step (a : σ) (j : ι) (b : σ) (hj : j ∈ rest) := step a j b (List.mem_cons_of_mem _ hj)
      exact ih rest_step (step a i c List.mem_cons_self ha hi) h

theorem ok_bind {ε α β : Type} {x : Except ε α} {f : α → Except ε β} {b : β} :
    x >>= f = .ok b ↔ ∃ a, x = .ok a ∧ f a = .ok b := by
  cases x with
  | error e => exact ⟨(fun h => nomatch h), fun ⟨_, h, _⟩ => nomatch h⟩
  | ok a => exact ⟨fun h => ⟨a, rfl, h⟩, fun ⟨_, h, hb⟩ => Except.ok.inj h ▸ hb⟩

/-- A result that is none came from one of two steps. -/
theorem error_bind {ε α β : Type} {x : Except ε α} {f : α → Except ε β} {e : ε}
    (h : x >>= f = .error e) : x = .error e ∨ ∃ a, x = .ok a ∧ f a = .error e := by
  cases x with
  | error _ =>
    cases h
    exact .inl rfl
  | ok a => exact .inr ⟨a, rfl, h⟩

/-- Steps that end without a result end with what one of them says. -/
theorem error_foldlM {ε ι σ : Type} {f : σ → ι → Except ε σ} {e : ε} {is : List ι} :
    ∀ {a : σ}, is.foldlM f a = .error e → ∃ b, ∃ i ∈ is, f b i = .error e := by
  induction is with
  | nil => exact fun h => nomatch h
  | cons i rest ih =>
    intro a h
    rw [List.foldlM_cons] at h
    rcases error_bind h with h | ⟨b, -, h⟩
    · exact ⟨a, i, List.mem_cons_self, h⟩
    · obtain ⟨c, j, hj, h⟩ := ih h
      exact ⟨c, j, List.mem_cons_of_mem _ hj, h⟩

theorem ok_of_toOption {ε α : Type} {x : Except ε α} {a : α} (h : x.toOption = some a) : x = .ok a := by
  cases x with
  | error e => cases h
  | ok b => exact congrArg Except.ok (Option.some.inj h)

/-- What does not fail has a result. -/
theorem exists_ok {ε α : Type} {x : Except ε α} (h : x.toOption.isSome = true) : ∃ a, x = .ok a := by
  obtain ⟨a, ha⟩ := Option.isSome_iff_exists.mp h
  exact ⟨a, ok_of_toOption ha⟩

namespace StructuralType

variable {Good : TypeRef → Prop} {t base t' : StructuralType}

def AllGood (Good : TypeRef → Prop) (t : StructuralType) : Prop := ∀ ref ∈ t.typeRefs, Good ref

theorem allGood_iff : t.AllGood Good ↔
    (∀ a ∈ t.attributes, Good a.typeRef) ∧ (∀ a ∈ t.localAttributes, Good a.typeRef) ∧
      (∀ e ∈ t.elements, Good e.typeRef) ∧ ∀ e ∈ t.localElements, Good e.typeRef := by
  unfold AllGood typeRefs
  simp only [List.mem_append, List.mem_map, List.map_append]
  constructor
  · intro h
    exact ⟨fun a ha => h _ (.inl (.inl ⟨a, ha, rfl⟩)), fun a ha => h _ (.inl (.inr ⟨a, ha, rfl⟩)),
      fun e he => h _ (.inr (.inl ⟨e, he, rfl⟩)), fun e he => h _ (.inr (.inr ⟨e, he, rfl⟩))⟩
  · intro given ref known
    rcases given with ⟨h₁, h₂, h₃, h₄⟩
    rcases known with (⟨a, ha, rfl⟩ | ⟨a, ha, rfl⟩) | (⟨e, he, rfl⟩ | ⟨e, he, rfl⟩)
    · exact h₁ a ha
    · exact h₂ a ha
    · exact h₃ e he
    · exact h₄ e he

/-! ## Views -/

theorem types_addAttribute {view view' : AttributeView} {a : Attribute}
    (h : AttributeView.add t base view a = .ok view') (ha : Good a.typeRef)
    (hv : (∀ x ∈ view.all, Good x.2.typeRef) ∧ ∀ a ∈ view.own, Good a.typeRef) :
    (∀ x ∈ view'.all, Good x.2.typeRef) ∧ ∀ a ∈ view'.own, Good a.typeRef := by
  unfold AttributeView.add at h
  split at h
  · cases h
    refine ⟨fun x hx => ?_, List.forall_mem_append.mpr ⟨hv.2, List.forall_mem_singleton.mpr ha⟩⟩
    rcases mem_put hx with rfl | hx
    · exact ha
    · exact hv.1 x hx
  · rename_i inherited hl
    obtain ⟨_, -, h⟩ := ok_bind.mp h
    cases h
    refine ⟨fun x hx => ?_, hv.2⟩
    rcases mem_put hx with rfl | hx
    · have held : Good inherited.typeRef := hv.1 _ (mem_of_lookup hl)
      exact held
    · exact hv.1 x hx

theorem types_addElement {view view' : ElementView} {e : Element}
    (h : ElementView.add t base view e = .ok view') (he : Good e.typeRef)
    (hv : (∀ x ∈ view.inherited, Good x.2.typeRef) ∧ ∀ e ∈ view.own, Good e.typeRef) :
    (∀ x ∈ view'.inherited, Good x.2.typeRef) ∧ ∀ e ∈ view'.own, Good e.typeRef := by
  unfold ElementView.add at h
  split at h
  · cases h
    exact ⟨hv.1, List.forall_mem_append.mpr ⟨hv.2, List.forall_mem_singleton.mpr he⟩⟩
  · rename_i inherited hl
    obtain ⟨_, -, h⟩ := ok_bind.mp h
    cases h
    have held : Good inherited.typeRef := by
      split at hl
      · cases hl
      · exact hv.1 _ (mem_of_lookup hl)
    refine ⟨fun x hx => ?_, hv.2⟩
    rcases mem_put hx with rfl | hx
    · exact held
    · exact hv.1 x hx

/-- A type with the members of its base is the same type. -/
theorem compose_same (h : t.compose base = .ok t') :
    t'.name = t.name ∧ t'.qname = t.qname ∧ t'.base = t.base := by
  unfold compose at h
  obtain ⟨attributes, -, h⟩ := ok_bind.mp h
  obtain ⟨elements, -, h⟩ := ok_bind.mp h
  cases h
  exact ⟨rfl, rfl, rfl⟩

/-- Its members say of types what the members of both say. -/
theorem compose_allGood (h : t.compose base = .ok t') (ht : t.AllGood Good)
    (hb : base.AllGood Good) : t'.AllGood Good := by
  unfold compose at h
  obtain ⟨attributes, ha, h⟩ := ok_bind.mp h
  obtain ⟨elements, he, h⟩ := ok_bind.mp h
  cases h
  obtain ⟨-, localAttributes, -, localElements⟩ := allGood_iff.mp ht
  obtain ⟨baseAttributes, -, baseElements, -⟩ := allGood_iff.mp hb
  have attributes : (∀ x ∈ attributes.all, Good x.2.typeRef) ∧
      ∀ a ∈ attributes.own, Good a.typeRef := by
    refine ok_foldlM (I := fun view : AttributeView =>
      (∀ x ∈ view.all, Good x.2.typeRef) ∧ ∀ a ∈ view.own, Good a.typeRef)
      (fun view a view' hm hv hadd => types_addAttribute hadd (localAttributes a hm) hv) ?_ ha
    refine ⟨fun x hx => ?_, fun _ hx => absurd hx List.not_mem_nil⟩
    obtain ⟨a, ha, rfl⟩ := List.mem_map.mp (mem_putAll hx)
    exact baseAttributes a ha
  have elements : (∀ x ∈ elements.inherited, Good x.2.typeRef) ∧
      ∀ e ∈ elements.own, Good e.typeRef := by
    refine ok_foldlM (I := fun view : ElementView =>
      (∀ x ∈ view.inherited, Good x.2.typeRef) ∧ ∀ e ∈ view.own, Good e.typeRef)
      (fun view e view' hm hv hadd => types_addElement hadd ?_ hv) ?_ he
    · obtain ⟨e', he', rfl⟩ := List.mem_map.mp hm
      exact localElements e' he'
    · refine ⟨fun x hx => ?_, fun _ hx => absurd hx List.not_mem_nil⟩
      obtain ⟨e, he, rfl⟩ := List.mem_map.mp (mem_putAll hx)
      exact baseElements e (List.mem_filter.mp he).1
  refine allGood_iff.mpr ⟨?_, attributes.2, ?_, elements.2⟩
  · exact List.forall_mem_map.mpr attributes.1
  · refine List.forall_mem_append.mpr ⟨List.forall_mem_append.mpr ⟨?_, ?_⟩, ?_⟩
    · exact List.forall_mem_map.mpr elements.1
    · exact fun e he => elements.2 e (List.mem_filter.mp he).1
    · intro e he
      rcases Option.or_eq_some_iff.mp (Option.mem_toList.mp he) with he | ⟨-, he⟩
      · exact elements.2 e (List.mem_of_find?_eq_some he)
      · exact baseElements e (List.mem_of_find?_eq_some he)

end StructuralType

namespace Extension

/-! ## Full types -/

/-- A type under a name has all its members; its height is the number of types it extends one
after another. -/
inductive Full (types : Table) : Nat → Owner → StructuralType → Prop where
  | own {name : Owner} {t : StructuralType} (h : types.lookup name = some t) (hb : t.base = none) :
    Full types 0 name t
  | extending {n : Nat} {name : Owner} {t base t' : StructuralType} {b : String}
    (h : types.lookup name = some t) (hb : t.base = some b) (hbase : Full types n (some b) base)
    (hc : t.compose base = .ok t') : Full types (n + 1) name t'

variable {types : Table} {n : Nat} {name : Owner} {t : StructuralType}

theorem Full.unique (h : Full types n name t) :
    ∀ {m : Nat} {u : StructuralType}, Full types m name u → n = m ∧ t = u := by
  induction h with
  | own hl hb =>
    intro m u hu
    cases hu with
    | own hl' => exact ⟨rfl, Option.some.inj (hl.symm.trans hl')⟩
    | extending hl' hb' =>
      obtain rfl := Option.some.inj (hl.symm.trans hl')
      cases hb.symm.trans hb'
  | extending hl hb hbase hc ih =>
    intro m u hu
    cases hu with
    | own hl' hb' =>
      obtain rfl := Option.some.inj (hl.symm.trans hl')
      cases hb'.symm.trans hb
    | extending hl' hb' hbase' hc' =>
      obtain rfl := Option.some.inj (hl.symm.trans hl')
      obtain rfl := Option.some.inj (hb.symm.trans hb')
      obtain ⟨rfl, rfl⟩ := ih hbase'
      exact ⟨rfl, Except.ok.inj (hc.symm.trans hc')⟩

theorem Full.mem_keys (h : Full types n name t) : name ∈ types.map Prod.fst := by
  cases h with
  | own hl => exact List.mem_map_of_mem (mem_of_lookup hl)
  | extending hl => exact List.mem_map_of_mem (mem_of_lookup hl)

/-- What was said of the type before its members were all there is still so. -/
theorem Full.origin (h : Full types n name t) :
    ∃ u, (name, u) ∈ types ∧ t.name = u.name ∧ t.qname = u.qname ∧ t.base = u.base := by
  cases h with
  | own hl => exact ⟨_, mem_of_lookup hl, rfl, rfl, rfl⟩
  | extending hl hb hbase hc =>
    exact ⟨_, mem_of_lookup hl, StructuralType.compose_same hc⟩

theorem Full.allGood {Good : TypeRef → Prop} (hg : ∀ x ∈ types, x.2.AllGood Good)
    (h : Full types n name t) : t.AllGood Good := by
  induction h with
  | own hl => exact hg _ (mem_of_lookup hl)
  | extending hl hb hbase hc ih =>
    exact StructuralType.compose_allGood hc (hg _ (mem_of_lookup hl)) ih

/-- The base of a full type is full and lower. -/
theorem Full.base (h : Full types n name t) {b : String} (hb : t.base = some b) :
    ∃ m u, Full types m (some b) u ∧ m < n := by
  cases h with
  | own hl hb' => cases hb'.symm.trans hb
  | extending hl hb' hbase hc =>
    have same := (StructuralType.compose_same hc).2.2
    obtain rfl := Option.some.inj (hb'.symm.trans (same.symm.trans hb))
    exact ⟨_, _, hbase, Nat.lt_succ_self _⟩

/-- Tables that answer alike have the same full types. -/
theorem Full.congr {types' : Table} (hl : ∀ name, types.lookup name = types'.lookup name)
    (h : Full types n name t) : Full types' n name t := by
  induction h with
  | own h hb => exact .own (hl _ ▸ h) hb
  | extending h hb _ hc ih => exact .extending (hl _ ▸ h) hb ih hc

/-! ## Finishing -/

structure Finished (types finished : Table) : Prop where
  nodup : (finished.map Prod.fst).Nodup
  full : ∀ x ∈ finished, ∃ n, Full types n x.1 x.2

theorem finished_nil : Finished types [] := ⟨List.nodup_nil, fun _ h => absurd h List.not_mem_nil⟩

theorem Finished.put {finished : Table} (hf : Finished types finished) (h : Full types n name t) :
    Finished types (put name t finished) := by
  refine ⟨nodup_put hf.nodup _ _, fun x hx => ?_⟩
  rcases mem_put hx with rfl | hx
  · exact ⟨n, h⟩
  · exact hf.full x hx

theorem finish_sound (depth : Nat) :
    ∀ {chain : List Owner} {finished finished' : Table} {name : Owner} {t : StructuralType},
      Finished types finished → finish types depth chain finished name = .ok (finished', t) →
      Finished types finished' ∧ (∃ n, Full types n name t) ∧ name ∈ finished'.map Prod.fst ∧
        finished.map Prod.fst ⊆ finished'.map Prod.fst := by
  induction depth with
  | zero => exact fun _ h => nomatch h
  | succ depth ih =>
    intro chain finished finished' name t hf h
    unfold finish at h
    split at h
    · rename_i u hu
      cases h
      have hm := mem_of_lookup hu
      exact ⟨hf, hf.full _ hm, List.mem_map_of_mem hm, List.Subset.refl _⟩
    · split at h
      · cases h
      · rename_i u hu
        split at h
        · rename_i hb
          cases h
          have full : Full types 0 name t := .own hu hb
          exact ⟨hf.put full, ⟨0, full⟩, mem_keys_put.mpr (.inl rfl),
            fun k hk => mem_keys_put.mpr (.inr hk)⟩
        · rename_i b hb
          split at h
          · cases h
          · obtain ⟨⟨between, base⟩, hbase, h⟩ := ok_bind.mp h
            obtain ⟨composed, hc, h⟩ := ok_bind.mp h
            cases h
            obtain ⟨hf', ⟨n, hn⟩, -, hsub⟩ := ih hf hbase
            have full : Full types (n + 1) name t := .extending hu hb hn hc
            exact ⟨hf'.put full, ⟨n + 1, full⟩, mem_keys_put.mpr (.inl rfl),
              fun k hk => mem_keys_put.mpr (.inr (hsub hk))⟩

/-- Types that were finished are full, and they are all of them. -/
theorem expand_sound {result : Table} (h : expand types = .ok result) :
    Finished types result ∧ ∀ k, k ∈ result.map Prod.fst ↔ k ∈ types.map Prod.fst := by
  unfold expand at h
  have steps : ∀ is : Table, ∀ {finished result : Table}, Finished types finished →
      is.foldlM (fun finished x => do
        return (← finish types (types.length + 2) [] finished x.1).1) finished = .ok result →
      Finished types result ∧ finished.map Prod.fst ⊆ result.map Prod.fst ∧
        is.map Prod.fst ⊆ result.map Prod.fst := by
    intro is
    induction is with
    | nil =>
      intro finished result hf h
      obtain rfl := Except.ok.inj h
      exact ⟨hf, List.Subset.refl _, List.nil_subset _⟩
    | cons x rest ih =>
      intro finished result hf h
      rw [List.foldlM_cons] at h
      obtain ⟨between, hx, h⟩ := ok_bind.mp h
      obtain ⟨⟨_, t⟩, hfinish, he⟩ := ok_bind.mp hx
      cases he
      obtain ⟨hf', -, hm, hsub⟩ := finish_sound _ hf hfinish
      obtain ⟨hf', hsub', hrest⟩ := ih hf' h
      exact ⟨hf', List.Subset.trans hsub hsub', List.cons_subset.mpr ⟨hsub' hm, hrest⟩⟩
  obtain ⟨hf, -, hsub⟩ := steps types finished_nil h
  refine ⟨hf, fun k => ⟨fun hk => ?_, fun hk => hsub hk⟩⟩
  obtain ⟨x, hx, rfl⟩ := List.mem_map.mp hk
  obtain ⟨n, hn⟩ := hf.full x hx
  exact hn.mem_keys

/-! ## Whatever can be finished is finished -/

structure Above (types : Table) (n : Nat) (chain : List Owner) : Prop where
  nodup : chain.Nodup
  above : ∀ name ∈ chain, ∃ m t, n < m ∧ Full types m name t

theorem Above.not_mem {chain : List Owner} (ha : Above types n chain) (h : Full types n name t) :
    name ∉ chain := by
  intro hm
  obtain ⟨m, u, hlt, hu⟩ := ha.above name hm
  exact absurd (h.unique hu).1 (Nat.ne_of_lt hlt)

theorem Above.snoc {chain : List Owner} (ha : Above types n chain) (h : Full types n name t) {m : Nat}
    (hm : m < n) : Above types m (chain ++ [name]) where
  nodup := by
    rw [List.nodup_append]
    refine ⟨ha.nodup, List.nodup_singleton _, ?_⟩
    intro x hx y hy e
    rw [e, List.mem_singleton.mp hy] at hx
    exact ha.not_mem h hx
  above x hx := by
    rcases List.mem_append.mp hx with hx | hx
    · obtain ⟨k, u, hlt, hu⟩ := ha.above x hx
      exact ⟨k, u, Nat.lt_trans hm hlt, hu⟩
    · rw [List.mem_singleton.mp hx]
      exact ⟨n, t, hm, h⟩

/-- A chain is no longer than there are types. -/
theorem Above.length_le {chain : List Owner} (ha : Above types n chain) :
    chain.length ≤ types.length := by
  have sub : chain ⊆ types.map Prod.fst := by
    intro name hm
    obtain ⟨m, t, -, h⟩ := ha.above name hm
    exact h.mem_keys
  have := (List.subperm_of_subset ha.nodup sub).length_le
  rwa [List.length_map] at this

theorem finish_runs (depth : Nat) :
    ∀ {n : Nat} {name : Owner} {t : StructuralType} {chain : List Owner} {finished : Table},
      Full types n name t → Above types n chain → types.length < depth + chain.length →
      Finished types finished → ∃ finished', finish types depth chain finished name = .ok (finished', t) := by
  induction depth with
  | zero =>
    intro n name t chain finished _ ha hl _
    have := ha.length_le
    omega
  | succ depth ih =>
    intro n name t chain finished h ha hl hf
    unfold finish
    cases hfinished : finished.lookup name with
    | some u =>
      obtain ⟨m, hm⟩ := hf.full _ (mem_of_lookup hfinished)
      obtain ⟨rfl, rfl⟩ := h.unique hm
      exact ⟨finished, rfl⟩
    | none =>
      have outside : chain.contains name = false := by
        rw [Bool.eq_false_iff]
        exact fun hc => ha.not_mem h (List.contains_iff_mem.mp hc)
      have self := h
      cases h with
      | own hlookup hb =>
        rw [hlookup]
        dsimp only
        rw [hb]
        exact ⟨_, rfl⟩
      | extending hlookup hb hbase hc =>
        obtain ⟨finished', hfinish⟩ := ih hbase (ha.snoc self (Nat.lt_succ_self _))
          (by rw [List.length_append, List.length_singleton]; omega) hf
        rw [hlookup]
        dsimp only
        rw [hb]
        dsimp only
        rw [outside, if_neg Bool.false_ne_true]
        refine ⟨put name t finished', ?_⟩
        rw [hfinish]
        show (StructuralType.compose _ _ >>= _) = _
        rw [hc]
        rfl

/-- Types are finished if all of them can be. -/
theorem expand_runs (h : ∀ k ∈ types.map Prod.fst, ∃ n t, Full types n k t) :
    ∃ result, expand types = .ok result := by
  unfold expand
  have steps : ∀ is : Table, (∀ x ∈ is, ∃ n t, Full types n x.1 t) → ∀ {finished : Table},
      Finished types finished → ∃ result,
        is.foldlM (fun finished x => do
          return (← finish types (types.length + 2) [] finished x.1).1) finished = .ok result := by
    intro is
    induction is with
    | nil => exact fun _ finished _ => ⟨finished, rfl⟩
    | cons x rest ih =>
      intro hall finished hf
      obtain ⟨n, t, ht⟩ := hall x List.mem_cons_self
      obtain ⟨finished', hfinish⟩ := finish_runs (types.length + 2) ht
        ⟨List.nodup_nil, fun _ hm => absurd hm List.not_mem_nil⟩ (by omega) hf
      obtain ⟨result, hr⟩ := ih (fun y hy => hall y (List.mem_cons_of_mem _ hy))
        (finish_sound _ hf hfinish).1
      refine ⟨result, ?_⟩
      rw [List.foldlM_cons, hfinish]
      exact hr
  exact steps types (fun x hx => h x.1 (List.mem_map_of_mem hx)) finished_nil

/-! ## Types in another order -/

theorem Finished.mem_of_keys {types' finished finished' : Table} (hf : Finished types finished)
    (hf' : Finished types' finished') (hl : ∀ name, types.lookup name = types'.lookup name)
    (hk : finished.map Prod.fst ⊆ finished'.map Prod.fst) {x : Owner × StructuralType}
    (hx : x ∈ finished) : x ∈ finished' := by
  obtain ⟨n, full⟩ := hf.full x hx
  obtain ⟨y, hy, he⟩ := List.mem_map.mp (hk (List.mem_map_of_mem hx))
  obtain ⟨m, full'⟩ := hf'.full y hy
  rw [he] at full'
  have type : x.2 = y.2 := ((full.congr hl).unique full').2
  exact (Prod.ext he type.symm : y = x) ▸ hy

/-- Finished types are the same when the types came in another order. -/
theorem expand_perm {types' result : Table} (h : types.Perm types')
    (hn : (types.map Prod.fst).Nodup) (hr : expand types = .ok result) :
    ∃ result', expand types' = .ok result' ∧ result.Perm result' := by
  have hl := lookup_perm h hn
  have names (k : Owner) : k ∈ types.map Prod.fst ↔ k ∈ types'.map Prod.fst := (h.map _).mem_iff
  obtain ⟨hf, hk⟩ := expand_sound hr
  have all : ∀ k ∈ types'.map Prod.fst, ∃ n t, Full types' n k t := by
    intro k hm
    obtain ⟨x, hx, rfl⟩ := List.mem_map.mp ((hk k).mpr ((names k).mpr hm))
    obtain ⟨n, full⟩ := hf.full x hx
    exact ⟨n, x.2, full.congr hl⟩
  obtain ⟨result', hr'⟩ := expand_runs all
  obtain ⟨hf', hk'⟩ := expand_sound hr'
  refine ⟨result', hr', (List.perm_ext_iff_of_nodup hf.nodup.of_map hf'.nodup.of_map).mpr ?_⟩
  intro x
  constructor
  · exact hf.mem_of_keys hf' hl fun k hm => (hk' k).mpr ((names k).mp ((hk k).mp hm))
  · exact hf'.mem_of_keys hf (fun name => (hl name).symm)
      fun k hm => (hk k).mpr ((names k).mpr ((hk' k).mp hm))

end Extension

end WsdlCatalog
