/-
  WsdlCatalog.Proofs.Sorting — what sorting keeps of the order of visiting.

  Entries are sorted by names that are all different, and keys of unresolved references are
  all different, so nothing is left of the order in which they came. Reports may sort alike:
  of two such reports the one that came first stays first.

  Proved: sorted entries do not depend on the order in which they came
  (`Inventory.byCanonical?_perm`), and have names that increase
  (`Inventory.byCanonical?_increasing`); of two tables that are aligned, they are related one
  by one (`Inventory.rel_byCanonical?`). Sorted keys do not depend on the order either
  (`sortedKeys_perm`), and sorted reports do not iff those that sort alike come in the same
  order (`Diagnostic.sorted_eq_iff`).
-/

import WsdlCatalog.Proofs.Stages

namespace WsdlCatalog

theorem mergeSort_eq_of_perm {α : Type} {le : α → α → Bool} {l l' : List α}
    (trans : ∀ a b c, le a b → le b c → le a c) (total : ∀ a b, le a b || le b a)
    (antisymm : ∀ a b, a ∈ l → b ∈ l → le a b → le b a → a = b) (h : l.Perm l') :
    l.mergeSort le = l'.mergeSort le := by
  have same : (l.mergeSort le).Perm (l'.mergeSort le) :=
    ((List.mergeSort_perm l le).trans h).trans (List.mergeSort_perm l' le).symm
  have apart : ∀ a b, a ∈ l.mergeSort le → b ∈ l'.mergeSort le → le a b = true → le b a = true →
      a = b := by
    intro a b ha hb hab hba
    have ha := List.mem_mergeSort.mp ha
    have hb := h.mem_iff.mpr (List.mem_mergeSort.mp hb)
    exact antisymm a b ha hb hab hba
  exact List.Perm.eq_of_pairwise apart (List.pairwise_mergeSort trans total l)
    (List.pairwise_mergeSort trans total l') same

/-! ## Keys -/

theorem sortedKeys_perm {keys keys' : List String} (h : keys.Perm keys') :
    keys.mergeSort (fun a b => a ≤ b) = keys'.mergeSort fun a b => a ≤ b := by
  refine mergeSort_eq_of_perm ?_ ?_ ?_ h
  · intro a b c hab hbc
    simp only [decide_eq_true_eq] at hab hbc ⊢
    exact String.le_trans hab hbc
  · intro a b
    simp only [Bool.or_eq_true, decide_eq_true_eq]
    exact String.le_total a b
  · intro a b _ _ hab hba
    simp only [decide_eq_true_eq] at hab hba
    exact String.le_antisymm hab hba

/-! ## Entries -/

namespace Inventory

theorem byName_trans {α : Type} (a b c : String × α) (hab : decide (a.1 ≤ b.1) = true)
    (hbc : decide (b.1 ≤ c.1) = true) : decide (a.1 ≤ c.1) = true := by
  simp only [decide_eq_true_eq] at hab hbc ⊢
  exact String.le_trans hab hbc

theorem byName_total {α : Type} (a b : String × α) :
    (decide (a.1 ≤ b.1) || decide (b.1 ≤ a.1)) = true := by
  simp only [Bool.or_eq_true, decide_eq_true_eq]
  exact String.le_total a.1 b.1

theorem pairwise_byName {α : Type} (named : List (String × α)) :
    (named.mergeSort fun a b => a.1 ≤ b.1).Pairwise fun a b => a.1 ≤ b.1 :=
  (List.pairwise_mergeSort byName_trans byName_total named).imp of_decide_eq_true

/-- Different names increase. -/
theorem increasing_byName {α : Type} {named : List (String × α)} (hn : (named.map Prod.fst).Nodup) :
    ((named.mergeSort fun a b => a.1 ≤ b.1).map Prod.fst).Pairwise (· < ·) := by
  have apart := ((List.mergeSort_perm named fun a b => a.1 ≤ b.1).map Prod.fst).nodup_iff.mpr hn
  rw [List.Nodup, List.pairwise_map] at apart
  rw [List.pairwise_map]
  refine (pairwise_byName named).imp₂ (fun a b hab hne => ?_) apart
  exact String.not_le.mp fun hba => hne (String.le_antisymm hab hba)

theorem byName_perm {α : Type} {entries entries' : List (String × α)}
    (h : entries.Perm entries') (hn : (entries.map Prod.fst).Nodup) :
    byName entries = byName entries' := by
  unfold byName
  refine congrArg (List.map (·.2)) (mergeSort_eq_of_perm byName_trans byName_total ?_ h)
  intro a b ha hb hab hba
  simp only [decide_eq_true_eq] at hab hba
  exact List.inj_on_of_nodup_map hn ha hb (String.le_antisymm hab hba)

/-- Entries are sorted if all of them have names. -/
theorem mapM_named {α : Type} (entries : List (Option String × α)) :
    entries.mapM (fun (name, entry) => name.map fun name => (name, entry)) =
      if entries.all (·.1.isSome) then some (entries.map fun x => (x.1.getD "", x.2)) else none := by
  induction entries with
  | nil => rfl
  | cons x rest ih =>
    obtain ⟨name, entry⟩ := x
    rw [List.mapM_cons, ih]
    cases name with
    | none => rfl
    | some name =>
      simp only [List.all_cons, Option.isSome_some, Bool.true_and, List.map_cons, Option.getD_some,
        Option.map_some]
      by_cases hr : (rest.all fun x => x.1.isSome) = true
      · rw [if_pos hr, if_pos hr]; rfl
      · rw [if_neg hr, if_neg hr]; rfl

theorem byCanonical?_perm {α : Type} {entries entries' : List (Option String × α)}
    (h : entries.Perm entries') (hn : (entries.map Prod.fst).Nodup) :
    byCanonical? entries = byCanonical? entries' := by
  unfold byCanonical?
  rw [← h.length_eq]
  by_cases hl : entries.length ≤ 1
  · rw [if_pos hl, if_pos hl]
    match entries, h, hl with
    | [], h, _ => rw [h.nil_eq]
    | [x], h, _ => rw [List.perm_singleton.mp h.symm]
  · rw [if_neg hl, if_neg hl, mapM_named, mapM_named, ← h.all_eq]
    by_cases hs : (entries.all fun x => x.1.isSome) = true
    · rw [if_pos hs, if_pos hs]
      refine congrArg some (byName_perm (h.map _) ?_)
      rw [List.map_map]
      refine (List.nodup_map_iff_inj_on hn.of_map).mpr ?_
      intro x hx y hy he
      obtain ⟨a, ha⟩ := Option.isSome_iff_exists.mp (List.all_eq_true.mp hs x hx)
      obtain ⟨b, hb⟩ := Option.isSome_iff_exists.mp (List.all_eq_true.mp hs y hy)
      have he : x.1.getD "" = y.1.getD "" := he
      rw [ha, hb, Option.getD_some, Option.getD_some] at he
      exact List.inj_on_of_nodup_map hn hx hy (by rw [ha, hb, he])
    · rw [if_neg hs, if_neg hs]

/-- Entries in order have names that increase. -/
theorem byCanonical?_increasing {α : Type} {entries : List (Option String × α)} {sorted : List α}
    {name : α → Option String} (h : byCanonical? entries = some sorted)
    (hn : (entries.map Prod.fst).Nodup) (hf : ∀ x ∈ entries, x.1 = name x.2)
    (hs : ∀ x ∈ entries, x.1.isSome) :
    ∃ names : List String, sorted.map name = names.map some ∧ names.Pairwise (· < ·) := by
  unfold byCanonical? at h
  split at h
  · rename_i hl
    obtain rfl := Option.some.inj h
    match entries, hl with
    | [], _ => exact ⟨[], rfl, .nil⟩
    | [x], _ =>
      obtain ⟨c, hc⟩ := Option.isSome_iff_exists.mp (hs x List.mem_cons_self)
      refine ⟨[c], ?_, List.pairwise_singleton _ _⟩
      rw [List.map_singleton, List.map_singleton, List.map_singleton, ← hf x List.mem_cons_self, hc]
  · obtain ⟨named, hm, rfl⟩ := Option.map_eq_some_iff.mp h
    rw [Compile.map_of_named hm] at hn hf
    have perm := List.mergeSort_perm named fun a b => a.1 ≤ b.1
    refine ⟨(named.mergeSort fun a b => a.1 ≤ b.1).map Prod.fst, ?_, ?_⟩
    · unfold byName
      rw [List.map_map, List.map_map]
      refine List.map_congr_left fun x hx => ?_
      exact (hf _ (List.mem_map_of_mem (perm.mem_iff.mp hx))).symm
    · refine increasing_byName ?_
      rw [List.map_map] at hn
      exact List.Nodup.of_map some (by rwa [List.map_map])

/-- Other entries under the same names are sorted alike. -/
theorem byCanonical?_remap {α β : Type} (f : α → β) (entries : List (Option String × α)) :
    byCanonical? (remap f entries) = (byCanonical? entries).map (List.map f) := by
  have length : (remap f entries).length = entries.length := List.length_map ..
  have all : (remap f entries).all (·.1.isSome) = entries.all (·.1.isSome) := List.all_map
  have named : (remap f entries).map (fun x => (x.1.getD "", x.2))
      = remap f (entries.map fun x => (x.1.getD "", x.2)) := by
    rw [remap, remap, List.map_map, List.map_map]
    rfl
  have sorted (named : List (String × α)) : byName (remap f named) = (byName named).map f := by
    have order : remap f (named.mergeSort fun a b => a.1 ≤ b.1)
        = (remap f named).mergeSort fun a b => a.1 ≤ b.1 := List.map_mergeSort fun _ _ _ _ => rfl
    unfold byName
    rw [← order, remap, List.map_map, List.map_map]
    rfl
  unfold byCanonical?
  rw [length, mapM_named, mapM_named, all, named]
  split
  · rw [remap, List.map_map, Option.map_some, List.map_map]
    rfl
  · split
    · exact congrArg some (sorted _)
    · rfl

/-- Related entries under the same names are sorted alike. -/
theorem rel_byCanonical? {α β : Type} {V : α → β → Prop} {rows : List (Option String × α)}
    {others : List (Option String × β)} (h : Aligned V rows others) :
    Option.Rel (List.Forall₂ V) (byCanonical? rows) (byCanonical? others) := by
  obtain ⟨pairs, rfl, rfl, related⟩ := h.exists_pairs
  rw [byCanonical?_remap, byCanonical?_remap]
  cases hs : byCanonical? pairs with
  | none => exact .none
  | some sorted =>
    refine .some ?_
    rw [List.forall₂_map_left_iff, List.forall₂_map_right_iff, List.forall₂_same]
    intro x hx
    obtain ⟨row, hr, rfl⟩ := List.mem_map.mp ((Compile.perm_of_byCanonical hs).mem_iff.mp hx)
    exact related row hr

end Inventory

/-! ## Reports -/

namespace Diagnostic

theorem le_iff {a b : Diagnostic} : a.le b = true ↔ b.sortKey.lex a.sortKey (· < ·) = false := by
  unfold le
  rw [Bool.not_eq_true']

theorem le_trans (a b c : Diagnostic) (h : a.le b = true) (h' : b.le c = true) : a.le c = true := by
  rw [le_iff, List.lex_eq_false_iff_ge] at *
  exact List.le_trans h h'

theorem le_total (a b : Diagnostic) : (a.le b || b.le a) = true := by
  rw [Bool.or_eq_true, le_iff, le_iff, List.lex_eq_false_iff_ge, List.lex_eq_false_iff_ge]
  exact List.le_total _ _

theorem sortKey_eq {a b : Diagnostic} (h : a.le b = true) (h' : b.le a = true) :
    a.sortKey = b.sortKey := by
  rw [le_iff, List.lex_eq_false_iff_ge] at h h'
  exact List.le_antisymm h h'

theorem le_of_sortKey {a b : Diagnostic} (h : a.sortKey = b.sortKey) : a.le b = true := by
  rw [le_iff, List.lex_eq_false_iff_ge, h]
  exact List.le_refl _

/-- The reports that sort by a key, in the order in which they came. -/
def under (key : List String) (ds : List Diagnostic) : List Diagnostic :=
  ds.filter (·.sortKey == key)

theorem under_cons (key : List String) (d : Diagnostic) (ds : List Diagnostic) :
    under key (d :: ds) = if d.sortKey == key then d :: under key ds else under key ds :=
  List.filter_cons

/-- Sorting leaves reports that sort alike in the order in which they came. -/
theorem under_mergeSort (key : List String) (ds : List Diagnostic) :
    under key (ds.mergeSort le) = under key ds := by
  have alike : (under key ds).Pairwise fun a b => a.le b = true := by
    refine List.Pairwise.imp_of_mem (R := fun _ _ => True) ?_ (List.pairwise_of_forall fun _ _ => trivial)
    intro a b ha hb _
    have ha := eq_of_beq (List.mem_filter.mp ha).2
    have hb := eq_of_beq (List.mem_filter.mp hb).2
    exact le_of_sortKey (ha.trans hb.symm)
  have kept : (under key ds).Sublist (ds.mergeSort le) :=
    List.sublist_mergeSort le_trans le_total alike List.filter_sublist
  have more := kept.filter (·.sortKey == key)
  unfold under at more ⊢
  rw [List.filter_filter] at more
  simp only [Bool.and_self] at more
  refine (more.eq_of_length ?_).symm
  exact ((List.mergeSort_perm ds le).filter _).length_eq.symm

/-- Sorted reports are told by those that sort alike. -/
theorem eq_of_under {ds es : List Diagnostic} (hd : ds.Pairwise fun a b => a.le b = true)
    (he : es.Pairwise fun a b => a.le b = true) (hp : ds.Perm es)
    (h : ∀ key, under key ds = under key es) : ds = es := by
  induction ds generalizing es with
  | nil => exact hp.nil_eq
  | cons a ds ih =>
    cases es with
    | nil => exact absurd hp.symm.nil_eq (List.cons_ne_nil _ _).symm
    | cons b es =>
      obtain ⟨ha, sorted⟩ := List.pairwise_cons.mp hd
      obtain ⟨hb, sorted'⟩ := List.pairwise_cons.mp he
      have hab : a.le b = true := by
        rcases List.mem_cons.mp (hp.mem_iff.mpr List.mem_cons_self) with rfl | hm
        · exact le_of_sortKey rfl
        · exact ha b hm
      have hba : b.le a = true := by
        rcases List.mem_cons.mp (hp.mem_iff.mp List.mem_cons_self) with rfl | hm
        · exact le_of_sortKey rfl
        · exact hb a hm
      have key := sortKey_eq hab hba
      have first := h a.sortKey
      rw [under_cons, under_cons, ← key, beq_self_eq_true, if_pos rfl, if_pos rfl] at first
      obtain ⟨rfl, -⟩ := List.cons.inj first
      refine congrArg (a :: ·) (ih sorted sorted' (List.perm_cons a |>.mp hp) fun key' => ?_)
      have tail := h key'
      rw [under_cons, under_cons] at tail
      by_cases hk : (a.sortKey == key') = true
      · rw [if_pos hk, if_pos hk] at tail
        exact (List.cons.inj tail).2
      · rw [if_neg hk, if_neg hk] at tail
        exact tail

/-- Sorted reports are the same iff those that sort alike come in the same order. -/
theorem sorted_eq_iff {ds es : List Diagnostic} (hp : ds.Perm es) :
    ds.mergeSort le = es.mergeSort le ↔ ∀ key, under key ds = under key es := by
  constructor
  · intro h key
    rw [← under_mergeSort, h, under_mergeSort]
  · intro h
    refine eq_of_under (List.pairwise_mergeSort le_trans le_total ds)
      (List.pairwise_mergeSort le_trans le_total es) ?_ fun key => ?_
    · exact ((List.mergeSort_perm ds le).trans hp).trans (List.mergeSort_perm es le).symm
    · rw [under_mergeSort, under_mergeSort, h key]

/-- Sorted reports do not depend on the order in which they came if none sort alike. -/
theorem sorted_perm {ds es : List Diagnostic} (hp : ds.Perm es)
    (h : ∀ a ∈ ds, ∀ b ∈ ds, a.sortKey = b.sortKey → a = b) : ds.mergeSort le = es.mergeSort le :=
  mergeSort_eq_of_perm le_trans le_total
    (fun a b ha hb hab hba => h a ha b hb (sortKey_eq hab hba)) hp

end Diagnostic

end WsdlCatalog
