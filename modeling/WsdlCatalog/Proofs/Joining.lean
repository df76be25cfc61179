/-
  WsdlCatalog.Proofs.Joining — members that are joined under their names.

  Leaves of one name become one leaf in the order in which the names come, and so do the
  elements of a type and of its base. Both are one operation on lists of members with
  distinct names (`joined`). It is associative, so members may be joined one after another
  or the later ones first among themselves: what this fails for is that two members of one
  name have different types, and it is the same either way.

  Proved: leaves that were collected can be joined to others as if they were collected after
  them (`Members.collect_iff`), and the elements of a type are joined to those of its base
  (`StructuralType.elementView_iff`).
-/

import WsdlCatalog.Proofs.FullView

namespace WsdlCatalog

namespace StructuralType

section

variable {α : Type} (nameOf labelOf : α → String) (combine : α → α → α)

/-- Own members after inherited ones, each joined to the inherited one of its name if there is
one. -/
def joined (inherited own : List α) : List α :=
  inherited.map (merge nameOf combine own) ++ added nameOf inherited own

def Agree (inherited own : List α) : Prop :=
  ∀ a ∈ inherited, ∀ e ∈ own, nameOf a = nameOf e → labelOf a = labelOf e

variable {nameOf labelOf combine} {inherited own : List α} {e : α}

theorem merge_singleton_self {b : α} (h : nameOf e = nameOf b) :
    merge nameOf combine [e] b = combine b e := by
  have none : nameOf b ∉ ([] : List α).map nameOf := List.not_mem_nil
  exact merge_append_self none h

theorem merge_singleton_of_ne {b : α} (h : nameOf e ≠ nameOf b) : merge nameOf combine [e] b = b :=
  merge_of_fresh fun hm => h (List.mem_singleton.mp hm).symm

theorem joined_nil : joined nameOf combine inherited [] = inherited := by
  rw [joined, map_merge_nil]
  exact List.append_nil _

theorem added_of_mem (h : nameOf e ∈ inherited.map nameOf) : added nameOf inherited [e] = [] := by
  rw [← List.nil_append [e]]
  exact added_append_old h

theorem added_of_not_mem (h : nameOf e ∉ inherited.map nameOf) :
    added nameOf inherited [e] = [e] := by
  rw [← List.nil_append [e]]
  exact added_append_new h

/-- A new name joins nothing. -/
theorem map_merge_of_not_mem (h : nameOf e ∉ inherited.map nameOf) :
    inherited.map (merge nameOf combine [e]) = inherited := by
  rw [← List.nil_append [e]]
  exact (map_merge_append h).trans map_merge_nil

/-- A member of a name that was there. -/
theorem joined_of_mem (h : nameOf e ∈ inherited.map nameOf) :
    joined nameOf combine inherited [e] = inherited.map (merge nameOf combine [e]) := by
  rw [joined, added_of_mem h, List.append_nil]

/-- A member of a new name comes last. -/
theorem joined_of_not_mem (h : nameOf e ∉ inherited.map nameOf) :
    joined nameOf combine inherited [e] = inherited ++ [e] := by
  rw [joined, added_of_not_mem h, map_merge_of_not_mem h]

/-- A member of the first name, which no other member has. -/
theorem joined_cons_self {a : α} (h : nameOf a = nameOf e) (others : nameOf e ∉ inherited.map nameOf) :
    joined nameOf combine (a :: inherited) [e] = combine a e :: inherited := by
  have old : nameOf e ∈ (a :: inherited).map nameOf := h ▸ List.mem_cons_self
  rw [joined_of_mem old, List.map_cons, merge_singleton_self h.symm, map_merge_of_not_mem others]

/-- A member of another name than the first one is joined behind it. -/
theorem joined_cons_of_ne {a : α} (h : nameOf a ≠ nameOf e) :
    joined nameOf combine (a :: inherited) [e] = a :: joined nameOf combine inherited [e] := by
  by_cases hi : nameOf e ∈ inherited.map nameOf
  · have old : nameOf e ∈ (a :: inherited).map nameOf := List.mem_cons_of_mem _ hi
    rw [joined_of_mem old, joined_of_mem hi, List.map_cons, merge_singleton_of_ne h.symm]
  · have new : nameOf e ∉ (a :: inherited).map nameOf := by
      rw [List.map_cons, List.mem_cons, not_or]
      exact ⟨h.symm, hi⟩
    rw [joined_of_not_mem new, joined_of_not_mem hi, List.cons_append]

theorem agree_cons_self {a : α} (h : nameOf a = nameOf e) (others : nameOf e ∉ inherited.map nameOf) :
    Agree nameOf labelOf (a :: inherited) [e] ↔ labelOf a = labelOf e := by
  constructor
  · exact fun agree => agree a List.mem_cons_self e List.mem_cons_self h
  · intro same b hb x hx name
    obtain rfl := List.mem_singleton.mp hx
    rcases List.mem_cons.mp hb with rfl | hb
    · exact same
    · exact absurd (name ▸ List.mem_map_of_mem hb) others

theorem agree_cons_of_ne {a : α} (h : nameOf a ≠ nameOf e) :
    Agree nameOf labelOf (a :: inherited) [e] ↔ Agree nameOf labelOf inherited [e] := by
  constructor
  · exact fun agree b hb => agree b (List.mem_cons_of_mem _ hb)
  · intro agree b hb x hx name
    rcases List.mem_cons.mp hb with rfl | hb
    · exact absurd (name.trans (congrArg nameOf (List.mem_singleton.mp hx))) h
    · exact agree b hb x hx name

variable (hn : ∀ a b, nameOf (combine a b) = nameOf a)

include hn

theorem names_joined : (joined nameOf combine inherited own).map nameOf
    = inherited.map nameOf ++ (added nameOf inherited own).map nameOf := by
  unfold joined
  rw [List.map_append, names_merge hn]

theorem mem_names_joined {name : String} :
    name ∈ (joined nameOf combine inherited own).map nameOf ↔
      name ∈ inherited.map nameOf ∨ name ∈ own.map nameOf := by
  rw [names_joined hn, List.mem_append]
  constructor
  · intro given
    rcases given with h | h
    · exact .inl h
    · exact .inr ((List.filter_sublist.map nameOf).subset h)
  · intro given
    by_cases h : name ∈ inherited.map nameOf
    · exact .inl h
    · obtain ⟨e, he, rfl⟩ := List.mem_map.mp (given.resolve_left h)
      refine .inr (List.mem_map_of_mem (List.mem_filter.mpr ⟨he, ?_⟩))
      rw [Bool.not_eq_true', Bool.eq_false_iff]
      exact fun hc => h (List.contains_iff_mem.mp hc)

theorem nodup_joined (hi : (inherited.map nameOf).Nodup) (ho : (own.map nameOf).Nodup) :
    ((joined nameOf combine inherited own).map nameOf).Nodup := by
  rw [names_joined hn, List.nodup_append]
  refine ⟨hi, ho.sublist (List.filter_sublist.map _), ?_⟩
  rintro name hm _ hm' rfl
  obtain ⟨e, he, rfl⟩ := List.mem_map.mp hm'
  have new := (List.mem_filter.mp he).2
  rw [Bool.not_eq_true', List.contains_iff_mem.mpr hm] at new
  cases new

/-- What the members of a list become when another one is joined. -/
theorem added_map_merge (own : List α) :
    added nameOf inherited (own.map (merge nameOf combine [e]))
      = (added nameOf inherited own).map (merge nameOf combine [e]) := by
  unfold added
  rw [List.filter_map]
  congr 1
  refine List.filter_congr fun x _ => ?_
  rw [Function.comp_apply, nameOf_merge hn]

/-- An inherited member and an own one of its name, when another member is joined to either. -/
theorem merge_merge (assoc : ∀ a b c, combine (combine a b) c = combine a (combine b c))
    (ho : (own.map nameOf).Nodup) (h : nameOf e ∈ own.map nameOf) (b : α) :
    merge nameOf combine [e] (merge nameOf combine own b)
      = merge nameOf combine (own.map (merge nameOf combine [e])) b := by
  by_cases hb : nameOf b ∈ own.map nameOf
  · obtain ⟨g, hg, hgb⟩ := List.mem_map.mp hb
    have names : ((own.map (merge nameOf combine [e])).map nameOf).Nodup := by
      rw [names_merge hn]
      exact ho
    rw [merge_of_mem ho hg hgb,
      merge_of_mem names (List.mem_map_of_mem hg) ((nameOf_merge hn _ g).trans hgb)]
    by_cases he : nameOf e = nameOf g
    · rw [merge_singleton_self he, merge_singleton_self ((he.trans hgb).trans (hn b g).symm), assoc]
    · rw [merge_singleton_of_ne he,
        merge_singleton_of_ne fun same => he ((same.trans (hn b g)).trans hgb.symm)]
  · have fresh : nameOf b ∉ (own.map (merge nameOf combine [e])).map nameOf := by
      rwa [names_merge hn]
    have other : nameOf e ≠ nameOf b := fun same => hb (same ▸ h)
    rw [merge_of_fresh hb, merge_of_fresh fresh, merge_singleton_of_ne other]

/-- One more member may be joined to the own ones before these are joined. -/
theorem joined_joined (assoc : ∀ a b c, combine (combine a b) c = combine a (combine b c))
    (ho : (own.map nameOf).Nodup) :
    joined nameOf combine (joined nameOf combine inherited own) [e]
      = joined nameOf combine inherited (joined nameOf combine own [e]) := by
  by_cases h : nameOf e ∈ own.map nameOf
  · have old : nameOf e ∈ (joined nameOf combine inherited own).map nameOf :=
      (mem_names_joined hn).mpr (.inr h)
    rw [joined_of_mem h, joined_of_mem old]
    unfold joined
    rw [added_map_merge hn, List.map_append, List.map_map]
    congr 1
    exact List.map_congr_left fun b _ => merge_merge hn assoc ho h b
  · rw [joined_of_not_mem h]
    by_cases hi : nameOf e ∈ inherited.map nameOf
    · have old : nameOf e ∈ (joined nameOf combine inherited own).map nameOf :=
        (mem_names_joined hn).mpr (.inl hi)
      have untouched : (added nameOf inherited own).map (merge nameOf combine [e])
          = added nameOf inherited own := by
        refine (List.map_congr_left fun x hx => ?_).trans (List.map_id _)
        exact merge_singleton_of_ne fun same => h (same ▸ List.mem_map_of_mem (List.mem_filter.mp hx).1)
      rw [joined_of_mem old]
      unfold joined
      rw [added_append_old hi, List.map_append, untouched, List.map_map]
      congr 1
      refine List.map_congr_left fun b _ => ?_
      show merge nameOf combine [e] (merge nameOf combine own b) = _
      by_cases hb : nameOf e = nameOf b
      · have fresh : nameOf b ∉ own.map nameOf := hb ▸ h
        rw [merge_append_self fresh hb, merge_of_fresh fresh, merge_singleton_self hb]
      · rw [merge_append_of_ne hb, merge_singleton_of_ne fun same => hb (same.trans (nameOf_merge hn _ b))]
    · have new : nameOf e ∉ (joined nameOf combine inherited own).map nameOf :=
        fun hm => ((mem_names_joined hn).mp hm).elim hi h
      rw [joined_of_not_mem new]
      unfold joined
      rw [added_append_new hi, map_merge_append hi, List.append_assoc]

omit hn

variable (hl : ∀ a b, labelOf (combine a b) = labelOf a)

include hl

theorem labelOf_merge (own : List α) (b : α) : labelOf (merge nameOf combine own b) = labelOf b := by
  rcases merge_cases nameOf combine own b with h | ⟨_, -, -, h⟩
  · rw [h]
  · rw [h, hl]

include hn

/-- Members that were joined stand for one of either list. -/
theorem mem_joined {x : α} (h : x ∈ joined nameOf combine inherited own) :
    (∃ a ∈ inherited, nameOf x = nameOf a ∧ labelOf x = labelOf a) ∨ x ∈ own := by
  rcases List.mem_append.mp h with h | h
  · obtain ⟨a, ha, rfl⟩ := List.mem_map.mp h
    exact .inl ⟨a, ha, nameOf_merge hn own a, labelOf_merge hl own a⟩
  · exact .inr (List.mem_filter.mp h).1

/-- Whether labels agree does not depend on what is joined first either. -/
theorem agree_joined (h : Agree nameOf labelOf own [e]) :
    Agree nameOf labelOf inherited own ∧ Agree nameOf labelOf (joined nameOf combine inherited own) [e] ↔
      Agree nameOf labelOf inherited (joined nameOf combine own [e]) := by
  constructor
  · intro given a ha x hx same
    rcases given with ⟨first, second⟩
    rcases mem_joined hn hl hx with ⟨g, hg, hname, hlabel⟩ | hx
    · exact (first a ha g hg (same.trans hname)).trans hlabel.symm
    · rw [List.mem_singleton.mp hx] at same ⊢
      have there : merge nameOf combine own a ∈ joined nameOf combine inherited own :=
        List.mem_append_left _ (List.mem_map_of_mem ha)
      have := second _ there e (List.mem_singleton.mpr rfl) ((nameOf_merge hn own a).trans same)
      exact (labelOf_merge hl own a).symm.trans this
  · intro given
    have first : Agree nameOf labelOf inherited own := by
      intro a ha g hg same
      have there : merge nameOf combine [e] g ∈ joined nameOf combine own [e] :=
        List.mem_append_left _ (List.mem_map_of_mem hg)
      exact (given a ha _ there (same.trans (nameOf_merge hn _ g).symm)).trans (labelOf_merge hl _ g)
    refine ⟨first, fun x hx y hy same => ?_⟩
    obtain rfl := List.mem_singleton.mp hy
    rcases mem_joined hn hl hx with ⟨a, ha, hname, hlabel⟩ | hx
    · rw [hlabel]
      have same : nameOf a = nameOf y := hname.symm.trans same
      by_cases ho : nameOf y ∈ own.map nameOf
      · obtain ⟨g, hg, hgy⟩ := List.mem_map.mp ho
        exact (first a ha g hg (same.trans hgy.symm)).trans (h g hg y (List.mem_singleton.mpr rfl) hgy)
      · refine given a ha y ?_ same
        rw [joined_of_not_mem ho]
        exact List.mem_append_right _ (List.mem_singleton.mpr rfl)
    · exact h x hx y (List.mem_singleton.mpr rfl) same

end

/-! ## Two lists of members -/

theorem rel_filter {α β : Type} {R Q : α → β → Prop} {p : α → Bool} {q : β → Bool} {xs : List α}
    {ys : List β} (h : List.Forall₂ R xs ys) (same : ∀ a b, R a b → p a = q b)
    (kept : ∀ a b, R a b → p a = true → Q a b) : List.Forall₂ Q (xs.filter p) (ys.filter q) := by
  induction h with
  | nil => exact .nil
  | @cons a b _ _ first _ ih =>
    rw [List.filter_cons, List.filter_cons, ← same a b first]
    split
    · exact .cons (kept a b first ‹_›) ih
    · exact ih

/-- Lists are joined alike if members of one name are: what becomes of a member depends on whether
the other list has its name. -/
theorem rel_joined {α β : Type} {nameOf : α → String} {nameOf' : β → String}
    {combine : α → α → α} {combine' : β → β → β} {P Q R : α → β → Prop} {xs zs : List α}
    {ys ws : List β} (h : List.Forall₂ P xs ys) (own : List.Forall₂ Q zs ws)
    (nameP : ∀ a b, P a b → nameOf a = nameOf' b) (nameQ : ∀ a b, Q a b → nameOf a = nameOf' b)
    (both : ∀ a b c d, P a b → Q c d → nameOf c = nameOf a → R (combine a c) (combine' b d))
    (left : ∀ a b, P a b → nameOf a ∉ zs.map nameOf → R a b)
    (right : ∀ c d, Q c d → nameOf c ∉ xs.map nameOf → R c d) :
    List.Forall₂ R (joined nameOf combine xs zs) (joined nameOf' combine' ys ws) := by
  have names : xs.map nameOf = ys.map nameOf' := forall₂_eq_map_iff.mp (h.imp nameP)
  refine List.rel_append ?_ (rel_filter own (fun c d hq => ?_) fun c d hq new => ?_)
  · rw [List.forall₂_map_left_iff, List.forall₂_map_right_iff]
    refine h.imp fun a b hp => ?_
    have found := rel_find? own (p := fun c => nameOf c == nameOf a) (q := fun d => nameOf' d == nameOf' b)
      fun c d hq => by rw [nameQ c d hq, nameP a b hp]
    unfold merge
    obtain ⟨hz, hw⟩ | ⟨c, d, hz, hw, hq, same⟩ := rel_cases found
    · rw [hz, hw]
      refine left a b hp fun hm => ?_
      obtain ⟨c, hc, same⟩ := List.mem_map.mp hm
      exact List.find?_eq_none.mp hz c hc (beq_iff_eq.mpr same)
    · rw [hz, hw]
      exact both a b c d hp hq (eq_of_beq same)
  · rw [names, nameQ c d hq]
  · refine right c d hq fun hm => ?_
    rw [List.contains_iff_mem.mpr hm] at new
    cases new

end StructuralType

/-! ## Leaves -/

namespace Bounds

theorem joinMax_assoc (a b c : Option Nat) : joinMax (joinMax a b) c = joinMax a (joinMax b c) := by
  cases a with
  | none => cases b <;> cases c <;> rfl
  | some x =>
    cases b with
    | none => cases c <;> rfl
    | some y =>
      cases c with
      | none => rfl
      | some z => exact congrArg some (Nat.max_assoc x y z)

theorem join_assoc (a b c : Range) : (a.join b).join c = a.join (b.join c) := by
  simp only [join, joinMax_assoc, Nat.min_assoc]

end Bounds

namespace Members

open StructuralType (Agree joined merge)

theorem fold_assoc (a b c : Leaf) : fold (fold a b) c = fold a (fold b c) := by
  simp only [fold, Bounds.join_assoc, Bool.or_assoc]

/-- The leaves with more leaves, one after another. -/
def collect (leaves more : List Leaf) : Except ModelFault (List Leaf) :=
  more.foldlM (fun leaves leaf => insert leaf leaves) leaves

abbrev Agreeing (leaves more : List Leaf) : Prop := Agree Leaf.name Leaf.declared leaves more

/-- Leaves after others, joined under their names. -/
abbrev joinedLeaves (leaves more : List Leaf) : List Leaf := joined Leaf.name fold leaves more

variable {leaves more result : List Leaf} {leaf : Leaf}

theorem insert_iff (distinct : (leaves.map Leaf.name).Nodup) :
    insert leaf leaves = .ok result ↔
      Agreeing leaves [leaf] ∧ result = joinedLeaves leaves [leaf] := by
  induction leaves generalizing result with
  | nil =>
    constructor
    · intro h
      cases h
      exact ⟨fun _ h => absurd h List.not_mem_nil, rfl⟩
    · rintro ⟨-, rfl⟩
      rfl
  | cons first rest ih =>
    rw [List.map_cons, List.nodup_cons] at distinct
    unfold insert
    by_cases hn : first.name = leaf.name
    · have others : leaf.name ∉ rest.map Leaf.name := hn ▸ distinct.1
      rw [if_pos (beq_iff_eq.mpr hn), Agreeing, joinedLeaves, StructuralType.agree_cons_self hn others,
        StructuralType.joined_cons_self hn others]
      by_cases hd : first.declared = leaf.declared
      · rw [if_pos (beq_iff_eq.mpr hd), and_iff_right hd, Except.ok.injEq]
        exact eq_comm
      · rw [if_neg fun h => hd (eq_of_beq h)]
        constructor
        · intro h
          cases h
        · exact fun h => absurd h.1 hd
    · rw [if_neg fun h => hn (eq_of_beq h), Agreeing, joinedLeaves,
        StructuralType.agree_cons_of_ne hn, StructuralType.joined_cons_of_ne hn]
      constructor
      · intro h
        cases hi : insert leaf rest with
        | error e =>
          rw [hi] at h
          cases h
        | ok inserted =>
          rw [hi] at h
          cases h
          obtain ⟨ha, rfl⟩ := (ih distinct.2).mp hi
          exact ⟨ha, rfl⟩
      · rintro ⟨ha, rfl⟩
        rw [(ih distinct.2).mpr ⟨ha, rfl⟩]
        rfl

/-- Leaves that are changed in what does not decide where they belong are inserted as before. -/
theorem insert_map {f : Leaf → Leaf} (hn : ∀ l, (f l).name = l.name)
    (hd : ∀ l, (f l).declared = l.declared) (hf : ∀ a b, fold (f a) (f b) = f (fold a b)) :
    insert (f leaf) (leaves.map f) = (insert leaf leaves).map (List.map f) := by
  induction leaves with
  | nil => rfl
  | cons first rest ih =>
    rw [List.map_cons, insert, insert, hn, hn, hd, hd, hf, ih]
    split
    · split <;> rfl
    · cases insert leaf rest <;> rfl

theorem collect_snoc : collect leaves (more ++ [leaf]) = .ok result ↔
    ∃ between, collect leaves more = .ok between ∧ insert leaf between = .ok result := by
  unfold collect
  rw [List.foldlM_append, ok_bind]
  simp only [List.foldlM_cons, List.foldlM_nil, bind_pure]

theorem nodup_collect (distinct : (leaves.map Leaf.name).Nodup)
    (h : collect leaves more = .ok result) : (result.map Leaf.name).Nodup := by
  refine ok_foldlM (I := fun leaves => (leaves.map Leaf.name).Nodup) ?_ distinct h
  intro leaves leaf result _ distinct h
  obtain ⟨-, rfl⟩ := (insert_iff distinct).mp h
  exact StructuralType.nodup_joined (fun _ _ => rfl) distinct (List.nodup_singleton _)

/-- **Leaves may be collected first and joined to others then**, as if they were collected after
these. -/
theorem collect_iff {own : List Leaf} (hm : collect [] more = .ok own)
    (distinct : (leaves.map Leaf.name).Nodup) :
    collect leaves more = .ok result ↔ Agreeing leaves own ∧ result = joinedLeaves leaves own := by
  -- By induction from the right: the last leaf joins what was collected before it in both ways.
  induction more using List.reverseRecOn generalizing own result with
  | nil =>
    cases hm
    constructor
    · intro h
      cases h
      exact ⟨fun _ _ _ h => absurd h List.not_mem_nil, StructuralType.joined_nil.symm⟩
    · rintro ⟨-, rfl⟩
      rw [joinedLeaves, StructuralType.joined_nil]
      rfl
  | append_singleton more leaf ih =>
    obtain ⟨before, hb, hi⟩ := collect_snoc.mp hm
    have none : (([] : List Leaf).map Leaf.name).Nodup := List.nodup_nil
    have ownNames := nodup_collect none hb
    obtain ⟨agree, rfl⟩ := (insert_iff ownNames).mp hi
    have both : ((joinedLeaves leaves before).map Leaf.name).Nodup :=
      StructuralType.nodup_joined (fun _ _ => rfl) distinct ownNames
    have order : joinedLeaves (joinedLeaves leaves before) [leaf]
        = joinedLeaves leaves (joinedLeaves before [leaf]) :=
      StructuralType.joined_joined (fun _ _ => rfl) fold_assoc ownNames
    have agreeing : Agreeing leaves before ∧ Agreeing (joinedLeaves leaves before) [leaf] ↔
        Agreeing leaves (joinedLeaves before [leaf]) :=
      StructuralType.agree_joined (fun _ _ => rfl) (fun _ _ => rfl) agree
    rw [collect_snoc, ← agreeing, ← order]
    constructor
    · rintro ⟨between, hc, hl⟩
      obtain ⟨first, rfl⟩ := (ih hb).mp hc
      obtain ⟨second, rfl⟩ := (insert_iff both).mp hl
      exact ⟨⟨first, second⟩, rfl⟩
    · rintro ⟨⟨first, second⟩, rfl⟩
      exact ⟨_, (ih hb).mpr ⟨first, rfl⟩, (insert_iff both).mpr ⟨second, rfl⟩⟩

end Members

/-! ## Elements of a type and of its base -/

/-- Steps of which each one succeeds where what the ones before it keep holds. -/
theorem exists_foldlM {ι σ ε : Type} {I : List ι → σ → Prop} {f : σ → ι → Except ε σ} {is : List ι}
    (step : ∀ done i rest a, is = done ++ i :: rest → I done a →
      ∃ b, f a i = .ok b ∧ I (done ++ [i]) b) {a : σ} (ha : I [] a) : ∃ b, is.foldlM f a = .ok b := by
  suffices ∀ rest done a, is = done ++ rest → I done a → ∃ b, rest.foldlM f a = .ok b from
    this is [] a rfl ha
  intro rest
  induction rest with
  | nil => exact fun done a _ _ => ⟨a, rfl⟩
  | cons i rest ih =>
    intro done a hs ha
    obtain ⟨b, hb, next⟩ := step done i rest a hs ha
    obtain ⟨c, hc⟩ := ih (done ++ [i]) b (by rw [hs]; simp) next
    exact ⟨c, by rw [List.foldlM_cons, hb]; exact hc⟩

namespace StructuralType

variable {derived base : StructuralType} {inherited own done : List Element} {e : Element}
  {view : ElementView}

/-- Elements of a type have the types that inherited ones of their names have. -/
abbrev AgreeingElements (inherited own : List Element) : Prop :=
  Agree Element.name Element.declaredType inherited (untexted own)

theorem checkRedeclared_eq_ok {member declared known : String} :
    checkRedeclared derived base member known declared = .ok () ↔ known = declared := by
  unfold checkRedeclared
  by_cases h : known = declared
  · rw [if_pos (beq_iff_eq.mpr h)]
    exact ⟨fun _ => h, fun _ => rfl⟩
  · rw [if_neg fun hb => h (eq_of_beq hb)]
    constructor
    · intro given
      obtain ⟨_, -, given⟩ := ok_bind.mp given
      cases given
    · intro same
      exact absurd same h

theorem declaredType_fold (a b : Element) : (fold a b).declaredType = a.declaredType := rfl

/-- One more element is added if it has the type of the inherited one of its name. -/
theorem ElementView.Shows.exists_add_iff (h : view.Shows inherited done)
    (distinct : (inherited.map Element.name).Nodup) :
    (∃ result, ElementView.add derived base view e = .ok result) ↔ AgreeingElements inherited [e] := by
  have names : ((inherited.map (merge Element.name fold (untexted done))).map Element.name).Nodup := by
    rw [names_merge name_fold]
    exact distinct
  unfold ElementView.add
  rw [h.merged]
  cases ht : e.isText with
  | true =>
    rw [if_pos rfl]
    have none : untexted [e] = [] := by rw [← List.nil_append [e], untexted_append, ht]; rfl
    refine ⟨fun _ => ?_, fun _ => ⟨_, rfl⟩⟩
    rw [AgreeingElements, none]
    exact fun _ _ _ h => absurd h List.not_mem_nil
  | false =>
    rw [if_neg Bool.false_ne_true]
    have own : untexted [e] = [e] := by rw [← List.nil_append [e], untexted_append, ht]; rfl
    rw [AgreeingElements, own]
    split
    · rename_i absent
      refine ⟨fun _ a ha x hx same => ?_, fun _ => ⟨_, rfl⟩⟩
      rw [lookup_eq_none, keys_tabled, names_merge name_fold] at absent
      rw [List.mem_singleton.mp hx] at same
      exact absurd (same ▸ List.mem_map_of_mem ha) absent
    · rename_i found hfound
      obtain ⟨hm, hname⟩ := mem_of_lookup_tabled hfound
      obtain ⟨b, hb, rfl⟩ := List.mem_map.mp hm
      have label : (merge Element.name fold (untexted done) b).declaredType = b.declaredType :=
        labelOf_merge declaredType_fold _ b
      have bname : b.name = e.name := (nameOf_merge name_fold _ b).symm.trans hname
      constructor
      · intro given a ha x hx same
        obtain ⟨result, given⟩ := given
        obtain ⟨_, checked, -⟩ := ok_bind.mp given
        obtain rfl := List.mem_singleton.mp hx
        obtain rfl := List.inj_on_of_nodup_map distinct ha hb (same.trans bname.symm)
        exact label.symm.trans (checkRedeclared_eq_ok.mp checked)
      · intro agree
        have same := label.trans (agree b hb e (List.mem_singleton.mpr rfl) bname)
        exact ⟨_, ok_bind.mpr ⟨(), checkRedeclared_eq_ok.mpr same, rfl⟩⟩

theorem agree_append {α : Type} {nameOf labelOf : α → String} {inherited own more : List α} :
    Agree nameOf labelOf inherited (own ++ more) ↔
      Agree nameOf labelOf inherited own ∧ Agree nameOf labelOf inherited more := by
  unfold Agree
  constructor
  · intro h
    exact ⟨fun a ha e he => h a ha e (List.mem_append_left _ he),
      fun a ha e he => h a ha e (List.mem_append_right _ he)⟩
  · rintro ⟨first, second⟩ a ha e he
    exact (List.mem_append.mp he).elim (first a ha e) (second a ha e)

/-- The elements of a type can be joined to those of its base if types agree. -/
theorem elementView_iff (distinct : (inherited.map Element.name).Nodup)
    (ownDistinct : (own.map Element.name).Nodup) :
    (∃ view, own.foldlM (ElementView.add derived base) ⟨tabled Element.name inherited, []⟩ = .ok view) ↔
      AgreeingElements inherited own := by
  have start : ElementView.Shows inherited [] ⟨tabled Element.name inherited, []⟩ :=
    ⟨by rw [show untexted [] = [] from rfl, map_merge_nil], rfl⟩
  have untexted_append (xs ys : List Element) : untexted (xs ++ ys) = untexted xs ++ untexted ys :=
    List.filter_append xs ys
  constructor
  · intro given
    obtain ⟨view, hv⟩ := given
    refine (ok_foldlM_done (I := fun done view => view.Shows inherited done ∧
      AgreeingElements inherited done) ?_ ⟨start, fun _ _ _ h => absurd h List.not_mem_nil⟩ hv).2
    intro done e rest a b hs ha hadd
    refine ⟨ha.1.add distinct (fresh_of_nodup (hs ▸ ownDistinct)) hadd, ?_⟩
    rw [AgreeingElements, untexted_append, agree_append]
    exact ⟨ha.2, (ha.1.exists_add_iff distinct).mp ⟨b, hadd⟩⟩
  · intro agree
    refine exists_foldlM (I := fun done view => view.Shows inherited done) ?_ start
    intro done e rest a hs ha
    have here : AgreeingElements inherited [e] := by
      rw [hs, AgreeingElements, untexted_append, agree_append, ← List.singleton_append,
        untexted_append, agree_append] at agree
      exact agree.2.1
    obtain ⟨b, hb⟩ := (ha.exists_add_iff distinct).mpr here
    exact ⟨b, hb, ha.add distinct (fresh_of_nodup (hs ▸ ownDistinct)) hb⟩

end StructuralType

end WsdlCatalog
