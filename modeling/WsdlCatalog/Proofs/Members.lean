/-
  WsdlCatalog.Proofs.Members — how the properties of a type are collected.

  An element becomes a new leaf at the end, or is folded into the leaf of its name
  (`insert_cases`). So leaves have distinct names, and each one covers the ranges of all
  the elements it stands for (`Summary`).
-/

import Mathlib.Data.List.Nodup
import WsdlCatalog.Content.Members

namespace WsdlCatalog

namespace Bounds

/-- Whatever the second range allows, the first one does; for a reversed range this says more. -/
structure Covers (a b : Range) : Prop where
  lower : a.lower ≤ b.lower
  upper : ∀ m, a.upper = some m → ∃ n, b.upper = some n ∧ n ≤ m

theorem Covers.refl (a : Range) : a.Covers a := ⟨Nat.le_refl _, fun m h => ⟨m, h, Nat.le_refl _⟩⟩

theorem Covers.trans {a b c : Range} (h : a.Covers b) (h' : b.Covers c) : a.Covers c := by
  refine ⟨Nat.le_trans h.lower h'.lower, fun m hm => ?_⟩
  obtain ⟨n, hn, hnm⟩ := h.upper m hm
  obtain ⟨k, hk, hkn⟩ := h'.upper n hn
  exact ⟨k, hk, Nat.le_trans hkn hnm⟩

theorem covers_join_left (a b : Range) : (a.join b).Covers a := by
  refine ⟨Nat.min_le_left _ _, fun m hm => ?_⟩
  unfold join joinMax at hm
  cases ha : a.upper with
  | none => rw [ha] at hm; cases hm
  | some x =>
    cases hb : b.upper with
    | none => rw [ha, hb] at hm; cases hm
    | some y =>
      rw [ha, hb] at hm
      cases hm
      exact ⟨x, rfl, Nat.le_max_left x y⟩

theorem covers_join_right (a b : Range) : (a.join b).Covers b := by
  rw [join_comm]
  exact covers_join_left b a

end Bounds

namespace Members

/-! ## One more leaf -/

/-- A leaf is new, or is folded into the one of its name, which has its type. -/
theorem insert_cases {leaf : Leaf} {leaves result : List Leaf} (h : insert leaf leaves = .ok result) :
    ((∀ l ∈ leaves, l.name ≠ leaf.name) ∧ result = leaves ++ [leaf]) ∨
      ∃ before first after, leaves = before ++ first :: after ∧
        (∀ l ∈ before, l.name ≠ leaf.name) ∧ first.name = leaf.name ∧
        first.declared = leaf.declared ∧ result = before ++ fold first leaf :: after := by
  induction leaves generalizing result with
  | nil =>
    cases h
    exact .inl ⟨fun _ h => absurd h List.not_mem_nil, rfl⟩
  | cons first rest ih =>
    unfold insert at h
    split at h
    · rename_i hn
      split at h
      · rename_i hd
        cases h
        exact .inr ⟨[], first, rest, rfl, fun _ h => absurd h List.not_mem_nil, eq_of_beq hn,
          eq_of_beq hd, rfl⟩
      · cases h
    · rename_i hn
      have hne : first.name ≠ leaf.name := fun e => hn (beq_iff_eq.mpr e)
      cases hi : insert leaf rest with
      | error e => rw [hi] at h; cases h
      | ok inserted =>
        rw [hi] at h
        cases h
        rcases ih hi with ⟨hr, rfl⟩ | ⟨before, held, after, rfl, hb, hh, hd, rfl⟩
        · exact .inl ⟨List.forall_mem_cons.mpr ⟨hne, hr⟩, rfl⟩
        · exact .inr ⟨first :: before, held, after, rfl, List.forall_mem_cons.mpr ⟨hne, hb⟩, hh, hd,
            rfl⟩

theorem addElement_ok {members result : Members} {leaf : Leaf} {branches : List Branch}
    (h : members.addElement leaf branches = .ok result) :
    ∃ leaves, insert { leaf with branch := branches.getLast? } members.leaves = .ok leaves ∧
      result = { members with leaves, met := members.met ++ [(leaf.name, branches)] } := by
  unfold Members.addElement at h
  cases hi : insert { leaf with branch := branches.getLast? } members.leaves with
  | error e => rw [hi] at h; cases h
  | ok leaves =>
    rw [hi] at h
    cases h
    exact ⟨leaves, rfl, rfl⟩

theorem leaves_addAttribute {members result : Members} {a : Attribute}
    (h : members.addAttribute a = .ok result) : result.leaves = members.leaves := by
  unfold addAttribute at h
  split at h
  · cases h; rfl
  · split at h
    · cases h; rfl
    · cases h

/-! ## The ranges of leaves -/

/-- What leaves say of the elements that were met, each with its name and its range: names are
distinct and stand for what was met, and a leaf covers all ranges of its name. -/
structure Summary (leaves : List Leaf) (met : List (String × Range)) : Prop where
  nodup : (leaves.map (·.name)).Nodup
  source : ∀ l ∈ leaves, ∃ r, (l.name, r) ∈ met
  complete : ∀ x ∈ met, ∃ l ∈ leaves, l.name = x.1
  covers : ∀ l ∈ leaves, ∀ r, (l.name, r) ∈ met → l.range.Covers r

theorem summary_empty : Summary [] [] where
  nodup := List.nodup_nil
  source _ h := absurd h List.not_mem_nil
  complete _ h := absurd h List.not_mem_nil
  covers _ h := absurd h List.not_mem_nil

section

variable {leaf : Leaf} {leaves : List Leaf} {met : List (String × Range)}

/-- A leaf of a name that was not met. -/
theorem Summary.add (hs : Summary leaves met) (hn : ∀ l ∈ leaves, l.name ≠ leaf.name) :
    Summary (leaves ++ [leaf]) (met ++ [(leaf.name, leaf.range)]) where
  nodup := by
    rw [List.map_append, List.nodup_append]
    refine ⟨hs.nodup, List.nodup_singleton _, ?_⟩
    intro name h _ h'
    obtain ⟨l, hl, rfl⟩ := List.mem_map.mp h
    rw [List.mem_singleton.mp h']
    exact hn l hl
  source l hl := by
    rcases List.mem_append.mp hl with hl | hl
    · obtain ⟨r, hr⟩ := hs.source l hl
      exact ⟨r, List.mem_append_left _ hr⟩
    · rw [List.mem_singleton.mp hl]
      exact ⟨leaf.range, List.mem_append_right _ (List.mem_singleton.mpr rfl)⟩
  complete x hx := by
    rcases List.mem_append.mp hx with hx | hx
    · obtain ⟨l, hl, h⟩ := hs.complete x hx
      exact ⟨l, List.mem_append_left _ hl, h⟩
    · rw [List.mem_singleton.mp hx]
      exact ⟨leaf, List.mem_append_right _ (List.mem_singleton.mpr rfl), rfl⟩
  covers l hl r hr := by
    rcases List.mem_append.mp hl with hl | hl
    · rcases List.mem_append.mp hr with hr | hr
      · exact hs.covers l hl r hr
      · exact absurd (Prod.mk.inj (List.mem_singleton.mp hr)).1 (hn l hl)
    · cases List.mem_singleton.mp hl
      rcases List.mem_append.mp hr with hr | hr
      · obtain ⟨l, hl, h⟩ := hs.complete _ hr
        exact absurd h (hn l hl)
      · rw [(Prod.mk.inj (List.mem_singleton.mp hr)).2]
        exact .refl _

/-- A leaf folded into the one of its name. -/
theorem Summary.fold {first : Leaf} {before after : List Leaf}
    (hs : Summary (before ++ first :: after) met) (hf : first.name = leaf.name) :
    Summary (before ++ Members.fold first leaf :: after) (met ++ [(leaf.name, leaf.range)]) := by
  have names : (before ++ Members.fold first leaf :: after).map (·.name)
      = (before ++ first :: after).map (·.name) := by
    simp only [List.map_append, List.map_cons, Members.fold]
  have others : ∀ l, l ∈ before ∨ l ∈ after → l ∈ before ++ first :: after ∧ l.name ≠ leaf.name := by
    have hd := hs.nodup
    rw [List.map_append, List.map_cons, List.nodup_middle, List.nodup_cons, ← List.map_append] at hd
    refine fun l hl => ⟨?_, fun h => hd.1 (List.mem_map.mpr ⟨l, List.mem_append.mpr hl, ?_⟩)⟩
    · rcases hl with hl | hl
      · exact List.mem_append_left _ hl
      · exact List.mem_append_right _ (List.mem_cons_of_mem _ hl)
    · rw [h, hf]
  have cases {l : Leaf} (hl : l ∈ before ++ Members.fold first leaf :: after) :
      l = Members.fold first leaf ∨ l ∈ before ∨ l ∈ after := by
    rcases List.mem_append.mp hl with hl | hl
    · exact .inr (.inl hl)
    · rcases List.mem_cons.mp hl with hl | hl
      · exact .inl hl
      · exact .inr (.inr hl)
  have held : first ∈ before ++ first :: after := List.mem_append_right _ List.mem_cons_self
  refine ⟨names ▸ hs.nodup, fun l hl => ?_, fun x hx => ?_, fun l hl r hr => ?_⟩
  · rcases cases hl with rfl | hl
    · exact ⟨leaf.range, List.mem_append_right _ (List.mem_singleton.mpr (Prod.ext hf rfl))⟩
    · obtain ⟨r, hr⟩ := hs.source l (others l hl).1
      exact ⟨r, List.mem_append_left _ hr⟩
  · have : x.1 ∈ (before ++ first :: after).map (·.name) := by
      rcases List.mem_append.mp hx with hx | hx
      · obtain ⟨l, hl, h⟩ := hs.complete x hx
        exact List.mem_map.mpr ⟨l, hl, h⟩
      · rw [List.mem_singleton.mp hx]
        exact List.mem_map.mpr ⟨first, held, hf⟩
    exact List.mem_map.mp (names ▸ this)
  · rcases cases hl with rfl | hl
    · rcases List.mem_append.mp hr with hr | hr
      · exact (Bounds.covers_join_left _ _).trans (hs.covers first held r hr)
      · rw [(Prod.mk.inj (List.mem_singleton.mp hr)).2]
        exact Bounds.covers_join_right _ _
    · rcases List.mem_append.mp hr with hr | hr
      · exact hs.covers l (others l hl).1 r hr
      · exact absurd (Prod.mk.inj (List.mem_singleton.mp hr)).1 (others l hl).2

theorem Summary.insert {result : List Leaf} (hs : Summary leaves met)
    (h : Members.insert leaf leaves = .ok result) :
    Summary result (met ++ [(leaf.name, leaf.range)]) := by
  rcases insert_cases h with ⟨hn, rfl⟩ | ⟨before, first, after, rfl, -, hf, -, rfl⟩
  · exact hs.add hn
  · exact hs.fold hf

theorem Summary.addElement {members result : Members} (hs : Summary members.leaves met)
    {branches : List Branch} (h : members.addElement leaf branches = .ok result) :
    Summary result.leaves (met ++ [(leaf.name, leaf.range)]) := by
  obtain ⟨leaves, hi, rfl⟩ := addElement_ok h
  have := hs.insert hi
  exact this

end

/-! ## The types of members -/

structure AllTypes (Good : TypeRef → Prop) (members : Members) : Prop where
  leaves : ∀ leaf ∈ members.leaves, Good leaf.typeRef
  attributes : ∀ a ∈ members.attributes, Good a.typeRef

variable {Good : TypeRef → Prop} {members result : Members}

theorem allTypes_empty : empty.AllTypes Good :=
  ⟨fun _ h => absurd h List.not_mem_nil, fun _ h => absurd h List.not_mem_nil⟩

theorem AllTypes.mono (hm : members.AllTypes Good) {Good' : TypeRef → Prop}
    (h : ∀ ref, Good ref → Good' ref) : members.AllTypes Good' :=
  ⟨fun leaf hl => h _ (hm.leaves leaf hl), fun a ha => h _ (hm.attributes a ha)⟩

theorem types_insert {leaf : Leaf} {leaves result : List Leaf} (h : insert leaf leaves = .ok result)
    (hg : ∀ l ∈ leaves, Good l.typeRef) (hl : Good leaf.typeRef) :
    ∀ l ∈ result, Good l.typeRef := by
  rcases insert_cases h with ⟨-, rfl⟩ | ⟨before, first, after, rfl, -, -, -, rfl⟩
  · exact List.forall_mem_append.mpr ⟨hg, List.forall_mem_singleton.mpr hl⟩
  · rw [List.forall_mem_append, List.forall_mem_cons] at hg ⊢
    exact hg

theorem AllTypes.addElement (hm : members.AllTypes Good) {leaf : Leaf} (hl : Good leaf.typeRef)
    {branches : List Branch} (h : members.addElement leaf branches = .ok result) :
    result.AllTypes Good := by
  obtain ⟨leaves, hi, rfl⟩ := addElement_ok h
  exact ⟨types_insert hi hm.leaves hl, hm.attributes⟩

theorem AllTypes.addAttribute (hm : members.AllTypes Good) {a : Attribute} (ha : Good a.typeRef)
    (h : members.addAttribute a = .ok result) : result.AllTypes Good := by
  unfold Members.addAttribute at h
  split at h
  · cases h
    exact ⟨hm.leaves, List.forall_mem_append.mpr
      ⟨hm.attributes, List.forall_mem_singleton.mpr ha⟩⟩
  · split at h
    · cases h; exact hm
    · cases h

end Members

end WsdlCatalog
