/-
  WsdlCatalog.Proofs.Table — entries by key.

  A table has one entry a key as long as entries are put into it; then what is looked up
  is what is there. A function of the values may be applied before or after entries are put
  (`remap`). Two tables of the same keys, whose values are related one by one (`Aligned`),
  answer with related values and stay aligned; they come of one table of pairs
  (`Aligned.exists_pairs`).
-/

import Mathlib.Data.List.Forall2
import Mathlib.Data.List.Induction
import Mathlib.Data.List.Nodup
import WsdlCatalog.Json

namespace WsdlCatalog

variable {α β : Type} [BEq α] [LawfulBEq α] {entries : List (α × β)} {k : α} {v : β}

theorem lookup_of_mem (hn : (entries.map Prod.fst).Nodup) {x : α × β} (h : x ∈ entries) :
    entries.lookup x.1 = some x.2 := by
  induction entries with
  | nil => exact absurd h List.not_mem_nil
  | cons y rest ih =>
    rw [List.map_cons, List.nodup_cons] at hn
    rw [List.lookup_cons]
    rcases List.mem_cons.mp h with rfl | h
    · rw [beq_self_eq_true]
    · have hne : x.1 ≠ y.1 := fun e => hn.1 (e ▸ List.mem_map_of_mem h)
      rw [beq_false_of_ne hne]
      exact ih hn.2 h

theorem mem_of_lookup (h : entries.lookup k = some v) : (k, v) ∈ entries := by
  obtain ⟨before, after, rfl, -⟩ := List.lookup_eq_some_iff.mp h
  exact List.mem_append_right _ List.mem_cons_self

theorem lookup_eq_none : entries.lookup k = none ↔ k ∉ entries.map Prod.fst := by
  rw [List.lookup_eq_none_iff]
  simp only [bne_iff_ne, List.mem_map, not_exists, not_and]
  exact ⟨fun h x hx e => h x hx e.symm, fun h x hx e => h x hx e.symm⟩

/-- In another order entries answer alike, as long as there is one a key. -/
theorem lookup_perm {entries' : List (α × β)} (h : entries.Perm entries')
    (hn : (entries.map Prod.fst).Nodup) (key : α) : entries.lookup key = entries'.lookup key := by
  have hn' : (entries'.map Prod.fst).Nodup := (h.map _).nodup_iff.mp hn
  cases hl : entries.lookup key with
  | none =>
    have absent := lookup_eq_none.mp hl
    rw [(h.map Prod.fst).mem_iff] at absent
    exact (lookup_eq_none.mpr absent).symm
  | some value => exact (lookup_of_mem hn' (h.mem_iff.mp (mem_of_lookup hl))).symm

theorem lookup_put_of_ne {k' : α} (h : k' ≠ k) (v : β)
    (entries : List (α × β)) : (put k v entries).lookup k' = entries.lookup k' := by
  have other : (k' == k) = false := beq_false_of_ne h
  induction entries with
  | nil =>
    unfold put
    rw [List.lookup_cons, other]
  | cons first rest ih =>
    obtain ⟨name, value⟩ := first
    unfold put
    split
    · rename_i same
      obtain rfl := eq_of_beq same
      rw [List.lookup_cons, List.lookup_cons, other]
    · rw [List.lookup_cons, List.lookup_cons, ih]

theorem put_of_lookup_none (h : entries.lookup k = none) (v : β) :
    put k v entries = entries ++ [(k, v)] := by
  induction entries with
  | nil => rfl
  | cons y rest ih =>
    rw [List.lookup_cons] at h
    cases hk : k == y.1 with
    | true => rw [hk] at h; cases h
    | false =>
      rw [hk] at h
      have hne : (y.1 == k) = false := beq_false_of_ne fun e => (ne_of_beq_false hk) e.symm
      show (if y.1 == k then _ else _) = _
      rw [hne, if_neg Bool.false_ne_true, ih h]
      rfl

theorem mem_put {x : α × β} (h : x ∈ put k v entries) : x = (k, v) ∨ x ∈ entries := by
  induction entries with
  | nil => exact .inl (List.mem_singleton.mp h)
  | cons y rest ih =>
    unfold put at h
    split at h
    · rename_i hk
      rcases List.mem_cons.mp h with rfl | h
      · exact .inl (by rw [eq_of_beq hk])
      · exact .inr (List.mem_cons_of_mem _ h)
    · rcases List.mem_cons.mp h with rfl | h
      · exact .inr List.mem_cons_self
      · exact (ih h).imp id (List.mem_cons_of_mem _)

/-- The keys after an entry was put: the same, or one more. -/
theorem keys_put (k : α) (v : β) (entries : List (α × β)) :
    (k ∈ entries.map Prod.fst ∧ (put k v entries).map Prod.fst = entries.map Prod.fst) ∨
      (k ∉ entries.map Prod.fst ∧ (put k v entries).map Prod.fst = entries.map Prod.fst ++ [k]) := by
  induction entries with
  | nil => exact .inr ⟨List.not_mem_nil, rfl⟩
  | cons y rest ih =>
    unfold put
    by_cases hk : y.1 = k
    · refine .inl ⟨hk ▸ List.mem_cons_self, ?_⟩
      rw [if_pos (beq_iff_eq.mpr hk)]
      rfl
    · rw [if_neg fun e => hk (eq_of_beq e), List.map_cons, List.map_cons]
      rcases ih with ⟨hm, he⟩ | ⟨hm, he⟩
      · exact .inl ⟨List.mem_cons_of_mem _ hm, congrArg _ he⟩
      · refine .inr ⟨?_, congrArg _ he⟩
        simp only [List.mem_cons, not_or]
        exact ⟨fun e => hk e.symm, hm⟩

theorem nodup_put (hn : (entries.map Prod.fst).Nodup) (k : α) (v : β) :
    ((put k v entries).map Prod.fst).Nodup := by
  rcases keys_put k v entries with ⟨-, he⟩ | ⟨hm, he⟩
  · rw [he]
    exact hn
  · rw [he, List.nodup_append]
    refine ⟨hn, List.nodup_singleton _, ?_⟩
    intro x hx y hy e
    rw [e, List.mem_singleton.mp hy] at hx
    exact hm hx

theorem mem_keys_put {x : α} : x ∈ (put k v entries).map Prod.fst ↔ x = k ∨ x ∈ entries.map Prod.fst := by
  rcases keys_put k v entries with ⟨hm, he⟩ | ⟨-, he⟩
  · rw [he]
    exact ⟨.inr, fun h => h.elim (fun e => e ▸ hm) id⟩
  · rw [he, List.mem_append, List.mem_singleton]
    exact or_comm

theorem mem_putAll {x : α × β} (h : x ∈ putAll entries) : x ∈ entries := by
  suffices ∀ acc : List (α × β), x ∈ entries.foldl (fun acc y => put y.1 y.2 acc) acc →
      x ∈ acc ∨ x ∈ entries from (this [] h).resolve_left List.not_mem_nil
  clear h
  induction entries with
  | nil => exact fun _ h => .inl h
  | cons y rest ih =>
    intro acc h
    rcases ih _ h with h | h
    · rcases mem_put h with rfl | h
      · exact .inr List.mem_cons_self
      · exact .inl h
    · exact .inr (List.mem_cons_of_mem _ h)

/-- Putting entries with distinct keys one after the other leaves them as they are. -/
theorem putAll_of_nodup (h : (entries.map Prod.fst).Nodup) : putAll entries = entries := by
  suffices ∀ acc : List (α × β), ((acc ++ entries).map Prod.fst).Nodup →
      entries.foldl (fun acc y => put y.1 y.2 acc) acc = acc ++ entries from this [] h
  clear h
  induction entries with
  | nil =>
    intro acc _
    rw [List.append_nil]
    rfl
  | cons y rest ih =>
    intro acc hn
    have fresh : acc.lookup y.1 = none := by
      rw [lookup_eq_none]
      intro hy
      rw [List.map_append, List.map_cons, List.nodup_append] at hn
      exact hn.2.2 _ hy _ List.mem_cons_self rfl
    rw [List.foldl_cons, put_of_lookup_none fresh, ih _ (by simpa using hn), List.append_assoc]
    rfl

theorem nodup_putAll (entries : List (α × β)) : ((putAll entries).map Prod.fst).Nodup := by
  suffices ∀ acc : List (α × β), (acc.map Prod.fst).Nodup →
      ((entries.foldl (fun acc y => put y.1 y.2 acc) acc).map Prod.fst).Nodup from
    this [] List.nodup_nil
  induction entries with
  | nil => exact fun _ h => h
  | cons y rest ih => exact fun acc h => ih _ (nodup_put h y.1 y.2)

/-- Of the entries put under a key the last counts. -/
theorem lookup_putAll (entries : List (α × β)) (k : α) :
    (putAll entries).lookup k = entries.reverse.lookup k := by
  induction entries using List.reverseRecOn with
  | nil => rfl
  | append_singleton entries last ih =>
    have one : putAll (entries ++ [last]) = put last.1 last.2 (putAll entries) := by
      simp [putAll, List.foldl_append]
    rw [one, List.reverse_append, List.reverse_singleton, List.singleton_append, List.lookup_cons]
    by_cases same : k = last.1
    · rw [same, lookup_put, beq_self_eq_true]
    · rw [lookup_put_of_ne same, ih, beq_false_of_ne same]

theorem lookup_map {γ : Type} (f : α → β → γ) (entries : List (α × β)) (k : α) :
    (entries.map fun x => (x.1, f x.1 x.2)).lookup k = (entries.lookup k).map (f k) := by
  induction entries with
  | nil => rfl
  | cons x rest ih =>
    rw [List.map_cons, List.lookup_cons, List.lookup_cons]
    by_cases same : k = x.1
    · subst same
      simp
    · rw [beq_false_of_ne same, ih]

/-! ## Two tables -/

theorem forall₂_eq_map_iff {ι κ β : Type} {f : ι → β} {g : κ → β} {xs : List ι} {ys : List κ} :
    List.Forall₂ (fun x y => f x = g y) xs ys ↔ xs.map f = ys.map g := by
  rw [← List.forall₂_eq_eq_eq, List.forall₂_map_left_iff, List.forall₂_map_right_iff]

/-- Every item of the second list is related to one of the first. -/
theorem exists_of_forall₂ {α β : Type} {R : α → β → Prop} {xs : List α} {ys : List β}
    (h : List.Forall₂ R xs ys) : ∀ y ∈ ys, ∃ x ∈ xs, R x y := by
  induction h with
  | nil => exact fun _ hy => absurd hy List.not_mem_nil
  | cons first _ ih =>
    refine List.forall_mem_cons.mpr ⟨⟨_, List.mem_cons_self, first⟩, fun y hy => ?_⟩
    obtain ⟨x, hx, given⟩ := ih y hy
    exact ⟨x, List.mem_cons_of_mem _ hx, given⟩

/-- Two relations one after the other, item by item. -/
theorem forall₂_trans {ι κ β : Type} {R : ι → κ → Prop} {Q : κ → β → Prop} {V : ι → β → Prop}
    {xs : List ι} {ys : List κ} {zs : List β} (h : List.Forall₂ R xs ys) (h' : List.Forall₂ Q ys zs)
    (both : ∀ x y z, R x y → Q y z → V x z) : List.Forall₂ V xs zs := by
  induction h generalizing zs with
  | nil =>
    cases h'
    exact .nil
  | cons first _ ih =>
    cases h' with
    | cons second rest => exact .cons (both _ _ _ first second) (ih rest)

/-- Two lists with related members have both none or related ones. -/
theorem rel_find? {α β : Type} {R : α → β → Prop} {p : α → Bool} {q : β → Bool} {xs : List α}
    {ys : List β} (h : List.Forall₂ R xs ys) (same : ∀ a b, R a b → p a = q b) :
    Option.Rel (fun a b => R a b ∧ p a = true) (xs.find? p) (ys.find? q) := by
  induction h with
  | nil => exact .none
  | @cons a b _ _ first _ ih =>
    rw [List.find?_cons, List.find?_cons, ← same a b first]
    cases found : p a with
    | true => exact .some ⟨first, found⟩
    | false => exact ih

/-- Lists with related members have related ones at a place, or both none. -/
theorem rel_getElem? {α β : Type} {R : α → β → Prop} {xs : List α} {ys : List β}
    (h : List.Forall₂ R xs ys) (i : Nat) : Option.Rel R xs[i]? ys[i]? := by
  induction h generalizing i with
  | nil => exact .none
  | cons first _ ih =>
    cases i with
    | zero => exact .some first
    | succ i => exact ih i

section

variable {κ β γ : Type} {V : β → γ → Prop} {rows : List (κ × β)} {others : List (κ × γ)}

/-- Two tables have the same keys in the same order, and related values. -/
abbrev Aligned (V : β → γ → Prop) (rows : List (κ × β)) (others : List (κ × γ)) : Prop :=
  List.Forall₂ (fun x y => x.1 = y.1 ∧ V x.2 y.2) rows others

/-- What is looked up is missing in both tables, or in neither. -/
theorem rel_cases {v : Option β} {w : Option γ} (h : Option.Rel V v w) :
    (v = none ∧ w = none) ∨ ∃ a b, v = some a ∧ w = some b ∧ V a b := by
  cases h with
  | none => exact .inl ⟨rfl, rfl⟩
  | some hv => exact .inr ⟨_, _, rfl, rfl, hv⟩

def remap (f : β → γ) (rows : List (κ × β)) : List (κ × γ) := rows.map fun x => (x.1, f x.2)

/-- Values that are the same up to something. -/
theorem aligned_iff_remap {δ : Type} {f : β → δ} {g : γ → δ} :
    Aligned (fun v w => f v = g w) rows others ↔ remap f rows = remap g others := by
  unfold remap
  rw [← forall₂_eq_map_iff]
  simp only [Prod.mk.injEq]

theorem remap_id (rows : List (κ × β)) : remap id rows = rows := List.map_id _

theorem aligned_remap (f : β → γ) (rows : List (κ × β)) :
    Aligned (fun v w => f v = w) rows (remap f rows) :=
  aligned_iff_remap.mpr (remap_id _).symm

theorem remap_of_aligned {f : β → γ} (h : Aligned (fun v w => f v = w) rows others) :
    remap f rows = others :=
  (aligned_iff_remap.mp h).trans (remap_id others)

/-- Two aligned tables are one table of pairs. -/
theorem Aligned.exists_pairs (h : Aligned V rows others) : ∃ pairs : List (κ × β × γ),
    rows = remap Prod.fst pairs ∧ others = remap Prod.snd pairs ∧ ∀ x ∈ pairs, V x.2.1 x.2.2 := by
  induction h with
  | nil => exact ⟨[], rfl, rfl, fun _ hx => absurd hx List.not_mem_nil⟩
  | @cons x y _ _ first _ ih =>
    obtain ⟨pairs, rfl, rfl, related⟩ := ih
    refine ⟨(x.1, x.2, y.2) :: pairs, rfl, ?_, List.forall_mem_cons.mpr ⟨first.2, related⟩⟩
    exact congrArg (· :: _) (Prod.ext first.1.symm rfl)

variable [BEq κ]

theorem Aligned.lookup (h : Aligned V rows others) (k : κ) :
    Option.Rel V (rows.lookup k) (others.lookup k) := by
  induction h with
  | nil => exact .none
  | cons first _ ih =>
    rw [List.lookup_cons, List.lookup_cons, first.1]
    split
    · exact .some first.2
    · exact ih

theorem Aligned.put (h : Aligned V rows others) (k : κ) {v : β} {w : γ} (hv : V v w) :
    Aligned V (put k v rows) (put k w others) := by
  induction h with
  | nil => exact .cons ⟨rfl, hv⟩ .nil
  | cons first rest ih =>
    unfold WsdlCatalog.put
    rw [first.1]
    split
    · exact .cons ⟨rfl, hv⟩ rest
    · exact .cons ⟨rfl, first.2⟩ ih

theorem Aligned.putAll (h : Aligned V rows others) : Aligned V (putAll rows) (putAll others) := by
  suffices ∀ {acc : List (κ × β)} {acc' : List (κ × γ)}, Aligned V acc acc' →
      Aligned V (rows.foldl (fun acc x => WsdlCatalog.put x.1 x.2 acc) acc)
        (others.foldl (fun acc x => WsdlCatalog.put x.1 x.2 acc) acc') from this .nil
  induction h with
  | nil => exact id
  | cons first _ ih =>
    intro acc acc' ha
    rw [List.foldl_cons, List.foldl_cons, first.1]
    exact ih (ha.put _ first.2)

theorem lookup_remap (f : β → γ) (k : κ) (rows : List (κ × β)) :
    (remap f rows).lookup k = (rows.lookup k).map f := by
  obtain ⟨hv, hw⟩ | ⟨a, b, hv, hw, rfl⟩ := rel_cases ((aligned_remap f rows).lookup k)
  · rw [hv, hw]
    rfl
  · rw [hv, hw]
    rfl

theorem put_remap (f : β → γ) (k : κ) (v : β) (rows : List (κ × β)) :
    put k (f v) (remap f rows) = remap f (put k v rows) :=
  (remap_of_aligned ((aligned_remap f rows).put k rfl)).symm

theorem putAll_remap (f : β → γ) (rows : List (κ × β)) :
    putAll (remap f rows) = remap f (putAll rows) :=
  (remap_of_aligned (aligned_remap f rows).putAll).symm

end

end WsdlCatalog
