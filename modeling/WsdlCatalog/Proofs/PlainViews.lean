/-
  WsdlCatalog.Proofs.PlainViews — all members of types, as plain recursion finds them.

  `expand` keeps the types that are finished and the chain that led to the one at hand, so a
  chain may be entered anywhere and its types are finished once. What it is to compute is a
  recursion along bases (`Full`), which has neither. It fails for two reasons only
  (`Failure`): the types of a chain extend one another and come back to one of them, or a
  member is declared again with another type.

  Proved: types whose bases are there are finished if and only if no type extends itself and
  none rejects its base, and then they are the full ones, in whatever order they come
  (`expand_plain`).
-/

import Mathlib.Data.List.Chain
import WsdlCatalog.Proofs.Extension

namespace WsdlCatalog

/-- A chain that comes back to one of its members leads from it to itself. -/
theorem transGen_of_isChain {α : Type} {r : α → α → Prop} {before : List α} {last : α}
    (h : (before ++ [last]).IsChain r) (back : last ∈ before) : Relation.TransGen r last last := by
  obtain ⟨earlier, later, rfl⟩ := List.append_of_mem back
  have round : (last :: (later ++ [last])).IsChain r := by
    rw [List.append_assoc, List.cons_append] at h
    exact h.right_of_append
  have steps {α : Type} {r : α → α → Prop} (way : List α) : ∀ {first last : α},
      (first :: (way ++ [last])).IsChain r → Relation.TransGen r first last := by
    induction way with
    | nil => exact fun h => .single (List.isChain_cons_cons.mp h).1
    | cons next rest ih =>
      intro first last h
      have ⟨step, rest⟩ := List.isChain_cons_cons.mp h
      exact .head step (ih rest)
  exact steps later round

/-! ## Members that are declared again -/

namespace StructuralType

variable {t base : StructuralType} {e : Refusal}

/-- A type rejects a base of which it declares a member again, with another type. -/
def Rejects (t base : StructuralType) (e : Refusal) : Prop :=
  ∃ member inherited declared uri, inherited ≠ declared ∧
    e = .fault (.redeclared member t.name base.name inherited declared uri)

theorem rejects_of_checkRedeclared (hq : t.qname.isSome = true) {member inherited declared : String}
    (h : checkRedeclared t base member inherited declared = .error e) : t.Rejects base e := by
  obtain ⟨name, hq⟩ := Option.isSome_iff_exists.mp hq
  unfold checkRedeclared at h
  split at h
  · cases h
  · rename_i other
    unfold namespace? at h
    rw [hq] at h
    cases h
    exact ⟨member, inherited, declared, _, fun same => other (beq_iff_eq.mpr same), rfl⟩

/-- A type that does not get the members of its base rejects it. -/
theorem rejects_of_compose (hq : t.qname.isSome = true) (h : t.compose base = .error e) :
    t.Rejects base e := by
  unfold compose at h
  rcases error_bind h with h | ⟨attributes, -, h⟩
  · obtain ⟨view, a, -, h⟩ := error_foldlM h
    unfold AttributeView.add at h
    split at h
    · cases h
    · rcases error_bind h with h | ⟨_, -, h⟩
      · exact rejects_of_checkRedeclared hq h
      · cases h
  · rcases error_bind h with h | ⟨elements, -, h⟩
    · obtain ⟨view, a, -, h⟩ := error_foldlM h
      unfold ElementView.add at h
      split at h
      · cases h
      · rcases error_bind h with h | ⟨_, -, h⟩
        · exact rejects_of_checkRedeclared hq h
        · cases h
    · cases h

end StructuralType

namespace Extension

variable {types : Table}

/-- Every type stands under a name and says what it is declared as, and the types that others
extend are there. -/
structure Closed (types : Table) : Prop where
  named : ∀ x ∈ types, x.1.isSome = true
  declared : ∀ x ∈ types, x.2.qname.isSome = true
  bases : ∀ x ∈ types, ∀ base, x.2.base = some base → some base ∈ types.map Prod.fst

def Extends (types : Table) (name base : Owner) : Prop :=
  ∃ t b, types.lookup name = some t ∧ t.base = some b ∧ base = some b

/-- A type does not take the members of its base, which has all of its own. -/
def RejectsBase (types : Table) (name : Owner) (e : Refusal) : Prop :=
  ∃ t b n base, types.lookup name = some t ∧ t.base = some b ∧ Full types n (some b) base ∧
    t.compose base = .error e

inductive Failure (types : Table) : Refusal → Prop where
  /-- Each type of a chain extends the next one, and the last one was there before. -/
  | circular {before : List String} {last : String} {uri : Option String}
    (steps : ((before ++ [last]).map some).IsChain (Extends types)) (back : last ∈ before) :
    Failure types (.fault (.circularDerivation (before ++ [last]) last uri))
  | redeclared {name : Owner} {member : String} {derived base : Owner} {inherited declared : String}
    {uri : Option String} (different : inherited ≠ declared)
    (rejects : RejectsBase types name (.fault (.redeclared member derived base inherited declared uri))) :
    Failure types (.fault (.redeclared member derived base inherited declared uri))

/-- Types fail because one of them extends itself or rejects its base. -/
theorem Failure.cause {e : Refusal} (h : Failure types e) :
    (∃ name, Relation.TransGen (Extends types) name name) ∨ ∃ name, RejectsBase types name e := by
  cases h with
  | @circular before last uri steps back =>
    rw [List.map_append] at steps
    exact .inl ⟨_, transGen_of_isChain steps (List.mem_map_of_mem back)⟩
  | redeclared _ rejects => exact .inr ⟨_, rejects⟩

/-! ## Types that are full -/

/-- A full type extends lower ones only. -/
theorem Full.extends {n : Nat} {name base : Owner} {t : StructuralType} (h : Full types n name t)
    (step : Extends types name base) : ∃ m u, Full types m base u ∧ m < n := by
  obtain ⟨u, b, hu, hb, rfl⟩ := step
  cases h with
  | own hl hb' =>
    obtain rfl := Option.some.inj (hl.symm.trans hu)
    cases hb'.symm.trans hb
  | extending hl hb' hbase _ =>
    obtain rfl := Option.some.inj (hl.symm.trans hu)
    obtain rfl := Option.some.inj (hb'.symm.trans hb)
    exact ⟨_, _, hbase, Nat.lt_succ_self _⟩

theorem Full.reaches {n : Nat} {name base : Owner} {t : StructuralType} (h : Full types n name t)
    (way : Relation.TransGen (Extends types) name base) : ∃ m u, Full types m base u ∧ m < n := by
  induction way with
  | single step => exact h.extends step
  | tail _ step ih =>
    obtain ⟨m, u, hu, hm⟩ := ih
    obtain ⟨k, v, hv, hk⟩ := hu.extends step
    exact ⟨k, v, hv, Nat.lt_trans hk hm⟩

/-- A full type does not extend itself. -/
theorem Full.not_circular {n : Nat} {name : Owner} {t : StructuralType} (h : Full types n name t) :
    ¬ Relation.TransGen (Extends types) name name := by
  intro way
  obtain ⟨m, u, hu, hm⟩ := h.reaches way
  exact absurd (hu.unique h).1 (Nat.ne_of_lt hm)

/-- A full type has taken the members of its base. -/
theorem Full.not_rejectsBase {n : Nat} {name : Owner} {t : StructuralType} (h : Full types n name t)
    (e : Refusal) : ¬ RejectsBase types name e := by
  rintro ⟨u, b, m, base, hu, hb, hbase, hc⟩
  cases h with
  | own hl hb' =>
    obtain rfl := Option.some.inj (hl.symm.trans hu)
    cases hb'.symm.trans hb
  | extending hl hb' hbase' hc' =>
    obtain rfl := Option.some.inj (hl.symm.trans hu)
    obtain rfl := Option.some.inj (hb'.symm.trans hb)
    obtain ⟨-, rfl⟩ := hbase'.unique hbase
    cases hc'.symm.trans hc

theorem Extends.mem_keys {name base : Owner} (h : Extends types name base) :
    name ∈ types.map Prod.fst := by
  obtain ⟨t, b, ht, -⟩ := h
  exact List.mem_map_of_mem (mem_of_lookup ht)

/-! ## Why types are not finished -/

/-- The names of a chain whose types stand under names. -/
theorem exists_names {chain : List Owner} (h : ∀ name ∈ chain, name.isSome = true) :
    ∃ names : List String, chain.mapM id = some names ∧ chain = names.map some := by
  induction chain with
  | nil => exact ⟨[], rfl, rfl⟩
  | cons name rest ih =>
    obtain ⟨first, others⟩ := List.forall_mem_cons.mp h
    obtain ⟨name, rfl⟩ := Option.isSome_iff_exists.mp first
    obtain ⟨names, hn, he⟩ := ih others
    exact ⟨name :: names, by simp [hn], by rw [he, List.map_cons]⟩

/-- A chain that came back to one of its types is reported as it is. -/
theorem failure_circular {chain : List Owner} {name : Owner} {t : StructuralType}
    (named : ∀ k ∈ chain, k.isSome = true) (hq : t.qname.isSome = true)
    (steps : (chain ++ [name]).IsChain (Extends types)) (back : name ∈ chain) :
    Failure types (circular chain name t) := by
  obtain ⟨names, hn, rfl⟩ := exists_names named
  obtain ⟨last, hl, rfl⟩ := List.mem_map.mp back
  obtain ⟨q, hq⟩ := Option.isSome_iff_exists.mp hq
  unfold circular StructuralType.namespace?
  rw [hn, hq]
  refine .circular ?_ hl
  rw [List.map_append]
  exact steps

/-- The types of a chain are different and there, so the bound on its length is not reached. -/
theorem finish_error (closed : Closed types) (depth : Nat) :
    ∀ {chain : List Owner} {finished : Table} {name : Owner} {e : Refusal}, Finished types finished →
      name ∈ types.map Prod.fst → chain ⊆ types.map Prod.fst → chain.Nodup →
      (chain ++ [name]).IsChain (Extends types) → types.length < depth + chain.length →
      finish types depth chain finished name = .error e → Failure types e := by
  have there {k : Owner} (hk : k ∈ types.map Prod.fst) : k.isSome = true := by
    obtain ⟨x, hx, rfl⟩ := List.mem_map.mp hk
    exact closed.named x hx
  induction depth with
  | zero =>
    intro chain finished name e _ _ sub nodup _ enough _
    have := (List.subperm_of_subset nodup sub).length_le
    rw [List.length_map] at this
    omega
  | succ depth ih =>
    intro chain finished name e hf hk sub nodup steps enough h
    unfold finish at h
    split at h
    · cases h
    split at h
    · rename_i missing
      exact absurd hk (lookup_eq_none.mp missing)
    rename_i t ht
    have hx := mem_of_lookup ht
    split at h
    · cases h
    rename_i base hb
    split at h
    · rename_i visited
      cases h
      exact failure_circular (fun k hm => there (sub hm)) (closed.declared _ hx) steps
        (List.contains_iff_mem.mp visited)
    · rename_i new
      have fresh : name ∉ chain := fun hm => new (List.contains_iff_mem.mpr hm)
      rcases error_bind h with h | ⟨⟨finished', full⟩, hfull, h⟩
      · refine ih hf (closed.bases _ hx base hb) ?_ ?_ ?_ ?_ h
        · exact List.append_subset.mpr ⟨sub, List.cons_subset.mpr ⟨hk, List.nil_subset _⟩⟩
        · rw [← List.concat_eq_append]
          exact nodup.concat fresh
        · refine List.isChain_append.mpr ⟨steps, List.isChain_singleton _, ?_⟩
          intro x hx y hy
          rw [List.getLast?_append, List.getLast?_singleton, Option.some_or] at hx
          rw [← Option.mem_some_iff.mp hx, ← Option.mem_some_iff.mp hy]
          exact ⟨t, base, ht, hb, rfl⟩
        · rw [List.length_append, List.length_singleton]
          omega
      · rcases error_bind h with h | ⟨_, -, h⟩
        · obtain ⟨-, ⟨n, hn⟩, -, -⟩ := finish_sound depth hf hfull
          obtain ⟨member, inherited, declared, uri, different, rfl⟩ :=
            StructuralType.rejects_of_compose (closed.declared _ hx) h
          exact .redeclared different ⟨t, base, n, full, ht, hb, hn, h⟩
        · cases h

/-- Types that are not finished have a reason. -/
theorem expand_error (closed : Closed types) {e : Refusal} (h : expand types = .error e) :
    Failure types e := by
  unfold expand at h
  suffices steps : ∀ is : Table, is ⊆ types → ∀ {finished : Table}, Finished types finished →
      is.foldlM (fun finished x => do
        return (← finish types (types.length + 2) [] finished x.1).1) finished = .error e →
      Failure types e from steps types (List.Subset.refl _) finished_nil h
  intro is
  induction is with
  | nil => exact fun _ _ _ h => nomatch h
  | cons x rest ih =>
    intro sub finished hf h
    rw [List.cons_subset] at sub
    rw [List.foldlM_cons] at h
    rcases error_bind h with h | ⟨between, hx, h⟩
    · rcases error_bind h with h | ⟨_, -, h⟩
      · exact finish_error closed _ hf (List.mem_map_of_mem sub.1) (List.nil_subset _)
          List.nodup_nil (List.isChain_singleton _) (by omega) h
      · cases h
    · obtain ⟨⟨_, t⟩, hfinish, he⟩ := ok_bind.mp hx
      cases he
      exact ih sub.2 (finish_sound _ hf hfinish).1 h

/-! ## Types that are finished -/

theorem full_of_expand {result : Table} (h : expand types = .ok result) {name : Owner}
    (hk : name ∈ types.map Prod.fst) : ∃ n t, Full types n name t := by
  obtain ⟨hf, keys⟩ := expand_sound h
  obtain ⟨x, hx, rfl⟩ := List.mem_map.mp ((keys name).mpr hk)
  obtain ⟨n, hn⟩ := hf.full x hx
  exact ⟨n, x.2, hn⟩

/-- A finished type is the full one. -/
theorem lookup_expand {result : Table} (h : expand types = .ok result) (name : Owner)
    (t : StructuralType) : result.lookup name = some t ↔ ∃ n, Full types n name t := by
  obtain ⟨hf, keys⟩ := expand_sound h
  constructor
  · exact fun hl => hf.full _ (mem_of_lookup hl)
  · rintro ⟨n, full⟩
    obtain ⟨x, hx, rfl⟩ := List.mem_map.mp ((keys name).mpr full.mem_keys)
    obtain ⟨m, hm⟩ := hf.full x hx
    rw [(full.unique hm).2]
    exact lookup_of_mem hf.nodup hx

/-- Types are finished if and only if none extends itself and none rejects its base. -/
theorem expand_runs_iff (closed : Closed types) : (∃ result, expand types = .ok result) ↔
    (∀ name, ¬ Relation.TransGen (Extends types) name name) ∧ ∀ name e, ¬ RejectsBase types name e := by
  constructor
  · rintro ⟨result, h⟩
    refine ⟨fun name way => ?_, fun name e rejects => ?_⟩
    · obtain ⟨base, step, -⟩ := Relation.TransGen.head'_iff.mp way
      obtain ⟨n, t, full⟩ := full_of_expand h step.mem_keys
      exact full.not_circular way
    · have ⟨t, _, _, _, ht, _⟩ := rejects
      obtain ⟨n, u, full⟩ := full_of_expand h (List.mem_map_of_mem (mem_of_lookup ht))
      exact full.not_rejectsBase e rejects
  · rintro ⟨acyclic, composes⟩
    cases h : expand types with
    | ok result => exact ⟨result, rfl⟩
    | error e =>
      rcases (expand_error closed h).cause with ⟨name, way⟩ | ⟨name, rejects⟩
      · exact absurd way (acyclic name)
      · exact absurd rejects (composes name e)

/-- Types are finished if and only if they are in another order, and then they are the same. -/
theorem expand_any_order {types' : Table} (h : types.Perm types') (hn : (types.map Prod.fst).Nodup) :
    ((∃ result, expand types = .ok result) ↔ ∃ result, expand types' = .ok result) ∧
      ∀ result result', expand types = .ok result → expand types' = .ok result' →
        ∀ name, result.lookup name = result'.lookup name := by
  constructor
  · constructor
    · rintro ⟨result, hr⟩
      obtain ⟨result', hr', -⟩ := expand_perm h hn hr
      exact ⟨result', hr'⟩
    · rintro ⟨result, hr⟩
      obtain ⟨result', hr', -⟩ := expand_perm h.symm ((h.map _).nodup_iff.mp hn) hr
      exact ⟨result', hr'⟩
  · intro result result' hr hr' name
    obtain ⟨between, hb, perm⟩ := expand_perm h hn hr
    obtain rfl := Except.ok.inj (hb.symm.trans hr')
    exact lookup_perm perm (expand_sound hr).1.nodup name

/-- For types whose bases are all there: they are finished if and only if no type extends itself
and none rejects its base, which are the only ways to fail; the finished types are there under the
same names, each with what plain recursion along its bases gives it; and the order of the types
does not matter. -/
theorem expand_plain (closed : Closed types) (hn : (types.map Prod.fst).Nodup) :
    ((∃ result, expand types = .ok result) ↔
      (∀ name, ¬ Relation.TransGen (Extends types) name name) ∧
        ∀ name e, ¬ RejectsBase types name e) ∧
      (∀ e, expand types = .error e → Failure types e) ∧
      (∀ result, expand types = .ok result →
        (result.map Prod.fst).Perm (types.map Prod.fst) ∧
          ∀ name t, result.lookup name = some t ↔ ∃ n, Full types n name t) ∧
      ∀ types', types.Perm types' →
        ((∃ result, expand types = .ok result) ↔ ∃ result, expand types' = .ok result) ∧
          ∀ result result', expand types = .ok result → expand types' = .ok result' →
            ∀ name, result.lookup name = result'.lookup name := by
  refine ⟨expand_runs_iff closed, fun e => expand_error closed, fun result h => ⟨?_, lookup_expand h⟩,
    fun types' h => expand_any_order h hn⟩
  obtain ⟨hf, keys⟩ := expand_sound h
  exact (List.perm_ext_iff_of_nodup hf.nodup hn).mpr keys

/-- A type of one text element, which extends another type or none. -/
def paper (name : String) (base : Option String) (member : String) : StructuralType :=
  let e : Element :=
    { name := member, declaredType := "xs:string", typeRef := ⟨.scalar, "xs:string", .text, none, none, false⟩,
      min := .own 1, max := some 1, nillable := .own false, optional := .own false, choice := none }
  { name, qname := some ⟨none, name⟩, attributes := [], elements := [e], localAttributes := [],
    localElements := [e], base, mixed := false, simpleContent := false, choices := [],
    documentation := none, anonymous := false }

/-- Three types, each with those that extend it before it. -/
def papers : Table :=
  [(some "Invoice", paper "Invoice" (some "Document") "total"),
    (some "Reminder", paper "Reminder" (some "Invoice") "fee"),
    (some "Document", paper "Document" none "date")]

theorem closed_papers : Closed papers := ⟨by decide, by decide, by decide⟩

/-- The chain of the second type is entered in its middle, by the first one. -/
theorem papers_expand : Closed papers ∧ (papers.map Prod.fst).Nodup ∧
    ∃ result, expand papers = .ok result ∧
      (result.map Prod.fst).Perm [some "Invoice", some "Reminder", some "Document"] ∧
      (∀ name t, result.lookup name = some t ↔ ∃ n, Full papers n name t) ∧
      ∃ t, Full papers 2 (some "Reminder") t ∧ t.elementNames = ["date", "total", "fee"] := by
  obtain ⟨-, -, finished, -⟩ := expand_plain closed_papers (by decide)
  obtain ⟨keys, full⟩ := finished _ rfl
  have document : Full papers 0 (some "Document") _ := .own rfl rfl
  have invoice : Full papers 1 (some "Invoice") _ := .extending rfl rfl document rfl
  exact ⟨closed_papers, by decide, _, rfl, keys, full, _, .extending rfl rfl invoice rfl, rfl⟩

/-- A type from which a circle can be reached is reported with the way there. -/
example : expand [(some "A", paper "A" (some "B") "a"), (some "B", paper "B" (some "C") "b"),
    (some "C", paper "C" (some "B") "c")]
    = .error (.fault (.circularDerivation ["A", "B", "C", "B"] "B" none)) := rfl

end Extension

end WsdlCatalog
