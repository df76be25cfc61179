/-
  WsdlCatalog.Proofs.Composition — what a type has after the members of its base were added.

  Going through a type's own members, each one either joins the inherited member of its
  name or is added. As long as the own members have distinct names, an inherited member
  is joined at most once and what was added is never looked up again, so the result can
  be said member by member (`merge`).

  Proved: the members of a composed type (`compose_eq`).
-/

import WsdlCatalog.Proofs.Extension

namespace WsdlCatalog

/-- What every step keeps holds in the end; `I` sees the items that were done. -/
theorem ok_foldlM_done {ι σ ε : Type} {I : List ι → σ → Prop} {f : σ → ι → Except ε σ} {is : List ι}
    (step : ∀ done i rest a b, is = done ++ i :: rest → I done a → f a i = .ok b → I (done ++ [i]) b)
    {a b : σ} (ha : I [] a) (h : is.foldlM f a = .ok b) : I is b := by
  suffices ∀ rest done a, is = done ++ rest → I done a → rest.foldlM f a = .ok b → I is b from
    this is [] a rfl ha h
  intro rest
  induction rest with
  | nil =>
    intro done a hs ha h
    obtain rfl := Except.ok.inj h
    rw [hs, List.append_nil]
    exact ha
  | cons i rest ih =>
    intro done a hs ha h
    rw [List.foldlM_cons] at h
    obtain ⟨c, hc, h⟩ := ok_bind.mp h
    exact ih (done ++ [i]) c (by rw [hs]; simp) (step done i rest a c hs ha hc) h

namespace StructuralType

section

variable {α : Type} (nameOf : α → String) (combine : α → α → α)

/-- An inherited member with the own member of its name joined to it, if there is one. -/
def merge (own : List α) (inherited : α) : α :=
  match own.find? fun e => nameOf e == nameOf inherited with
  | some e => combine inherited e
  | none => inherited

def tabled (members : List α) : List (String × α) := members.map fun e => (nameOf e, e)

/-- The members that are no repetition of an inherited one. -/
def added (inherited own : List α) : List α :=
  own.filter fun e => !(inherited.map nameOf).contains (nameOf e)

variable {nameOf combine} {inherited own : List α} {e : α}

theorem nameOf_merge (hc : ∀ a b, nameOf (combine a b) = nameOf a) (own : List α) (b : α) :
    nameOf (merge nameOf combine own b) = nameOf b := by
  unfold merge
  split
  · exact hc _ _
  · rfl

theorem names_merge (hc : ∀ a b, nameOf (combine a b) = nameOf a) (own inherited : List α) :
    (inherited.map (merge nameOf combine own)).map nameOf = inherited.map nameOf := by
  rw [List.map_map]
  exact List.map_congr_left fun b _ => nameOf_merge hc own b

/-- A member of another name joins nothing. -/
theorem merge_append_of_ne {b : α} (h : nameOf e ≠ nameOf b) :
    merge nameOf combine (own ++ [e]) b = merge nameOf combine own b := by
  have other : (nameOf e == nameOf b) = false := beq_false_of_ne h
  unfold merge
  rw [List.find?_append, List.find?_singleton, other]
  simp

theorem merge_of_fresh {b : α} (h : nameOf b ∉ own.map nameOf) : merge nameOf combine own b = b := by
  unfold merge
  have none : own.find? (fun e => nameOf e == nameOf b) = none := by
    apply List.find?_eq_none.mpr
    intro e he hn
    exact h (eq_of_beq hn ▸ List.mem_map_of_mem he)
  rw [none]

theorem merge_append_self {b : α} (h : nameOf b ∉ own.map nameOf) (he : nameOf e = nameOf b) :
    merge nameOf combine (own ++ [e]) b = combine b e := by
  unfold merge
  have none : own.find? (fun e => nameOf e == nameOf b) = none := by
    apply List.find?_eq_none.mpr
    intro e he hn
    exact h (eq_of_beq hn ▸ List.mem_map_of_mem he)
  rw [List.find?_append, none, List.find?_singleton, beq_iff_eq.mpr he]
  rfl

theorem merge_of_mem {b : α} (distinct : (own.map nameOf).Nodup) (h : e ∈ own)
    (he : nameOf e = nameOf b) : merge nameOf combine own b = combine b e := by
  unfold merge
  cases hf : own.find? fun x => nameOf x == nameOf b with
  | none => exact absurd (beq_iff_eq.mpr he) (List.find?_eq_none.mp hf e h)
  | some x =>
    have found := List.find?_some hf
    have same : nameOf x = nameOf e := (eq_of_beq found).trans he.symm
    rw [List.inj_on_of_nodup_map distinct (List.mem_of_find?_eq_some hf) h same]

theorem map_merge_nil : inherited.map (merge nameOf combine []) = inherited :=
  List.map_id'' (fun _ => rfl) inherited

theorem map_merge_append (h : nameOf e ∉ inherited.map nameOf) :
    inherited.map (merge nameOf combine (own ++ [e])) = inherited.map (merge nameOf combine own) :=
  List.map_congr_left fun _ hb => merge_append_of_ne fun he => h (he ▸ List.mem_map_of_mem hb)

/-- Joining a member to the inherited one of its name. -/
theorem put_merge (hc : ∀ a b, nameOf (combine a b) = nameOf a) (extra : List α)
    (distinct : (inherited.map nameOf).Nodup) (fresh : nameOf e ∉ own.map nameOf) {b : α}
    (hb : b ∈ inherited) (he : nameOf e = nameOf b) :
    put (nameOf e) (combine b e) (tabled nameOf (inherited.map (merge nameOf combine own) ++ extra))
      = tabled nameOf (inherited.map (merge nameOf combine (own ++ [e])) ++ extra) := by
  have freshAt : ∀ {c}, nameOf e = nameOf c → nameOf c ∉ own.map nameOf := fun hn => hn ▸ fresh
  induction inherited with
  | nil => exact absurd hb List.not_mem_nil
  | cons first rest ih =>
    rw [List.map_cons, List.nodup_cons] at distinct
    have name := nameOf_merge hc own first
    simp only [tabled, List.map_cons, List.cons_append, put, name]
    by_cases hf : nameOf first = nameOf e
    · have same : b = first := by
        rcases List.mem_cons.mp hb with rfl | hb
        · rfl
        · exact absurd (hf.trans he ▸ List.mem_map_of_mem hb) distinct.1
      subst same
      have others : nameOf e ∉ rest.map nameOf := fun hm => distinct.1 (he ▸ hm)
      rw [if_pos (beq_iff_eq.mpr hf), merge_append_self (freshAt he) he, map_merge_append others, hc]
    · rw [if_neg fun h => hf (eq_of_beq h), merge_append_of_ne fun h => hf h.symm, name]
      have hb' : b ∈ rest := by
        rcases List.mem_cons.mp hb with rfl | hb
        · exact absurd he.symm hf
        · exact hb
      have tail := ih distinct.2 hb'
      simp only [tabled] at tail
      rw [tail]

theorem keys_tabled (members : List α) : (tabled nameOf members).map Prod.fst = members.map nameOf := by
  unfold tabled
  rw [List.map_map]
  rfl

theorem mem_of_lookup_tabled {members : List α} {key : String} {x : α}
    (h : (tabled nameOf members).lookup key = some x) : x ∈ members ∧ nameOf x = key := by
  obtain ⟨y, hy, he⟩ := List.mem_map.mp (mem_of_lookup h)
  obtain ⟨rfl, rfl⟩ := Prod.mk.inj he
  exact ⟨hy, rfl⟩

theorem added_append_old (h : nameOf e ∈ inherited.map nameOf) :
    added nameOf inherited (own ++ [e]) = added nameOf inherited own := by
  have known : (inherited.map nameOf).contains (nameOf e) = true := List.contains_iff_mem.mpr h
  unfold added
  rw [List.filter_append, List.filter_singleton, known]
  simp

theorem added_append_new (h : nameOf e ∉ inherited.map nameOf) :
    added nameOf inherited (own ++ [e]) = added nameOf inherited own ++ [e] := by
  have known : (inherited.map nameOf).contains (nameOf e) = false :=
    Bool.eq_false_iff.mpr fun hc => h (List.contains_iff_mem.mp hc)
  unfold added
  rw [List.filter_append, List.filter_singleton, known]
  rfl

/-- Of members with distinct names one was not there before it. -/
theorem fresh_of_nodup {rest : List α} (h : ((own ++ e :: rest).map nameOf).Nodup) :
    nameOf e ∉ own.map nameOf := by
  rw [List.map_append, List.map_cons, List.nodup_append] at h
  exact fun hm => h.2.2 _ hm _ List.mem_cons_self rfl

end

/-! ## Attributes -/

def reuse (inherited a : Attribute) : Attribute := { inherited with use := a.use }

theorem name_reuse (a b : Attribute) : (reuse a b).name = a.name := rfl

theorem attributeView_eq {derived base : StructuralType} {inherited own : List Attribute}
    (distinct : (inherited.map Attribute.name).Nodup) (hown : (own.map Attribute.name).Nodup)
    {view : AttributeView}
    (h : own.foldlM (AttributeView.add derived base) ⟨tabled Attribute.name inherited, []⟩ = .ok view) :
    view.all = tabled Attribute.name (inherited.map (merge Attribute.name reuse own)
        ++ added Attribute.name inherited own) ∧
      view.own = added Attribute.name inherited own := by
  refine ok_foldlM_done (I := fun done view =>
      view.all = tabled Attribute.name (inherited.map (merge Attribute.name reuse done)
        ++ added Attribute.name inherited done) ∧
      view.own = added Attribute.name inherited done) ?_ ?_ h
  · intro done e rest a b hs ha hadd
    obtain ⟨all, ownEq⟩ := ha
    have fresh := fresh_of_nodup (hs ▸ hown)
    unfold AttributeView.add at hadd
    rw [all] at hadd
    split at hadd
    · rename_i hnone
      cases hadd
      have absent := lookup_eq_none.mp hnone
      rw [keys_tabled, List.map_append, names_merge name_reuse, List.mem_append, not_or] at absent
      rw [put_of_lookup_none hnone, map_merge_append absent.1, added_append_new absent.1, ownEq]
      refine ⟨?_, rfl⟩
      simp only [tabled, List.map_append, List.append_assoc, List.map_cons, List.map_nil]
    · rename_i found hfound
      obtain ⟨_, -, hadd⟩ := ok_bind.mp hadd
      cases hadd
      obtain ⟨hmem, hname⟩ := mem_of_lookup_tabled hfound
      rcases List.mem_append.mp hmem with hmem | hmem
      · obtain ⟨b, hb, rfl⟩ := List.mem_map.mp hmem
        have hn : e.name = b.name := hname.symm.trans (nameOf_merge name_reuse done b)
        have same : merge Attribute.name reuse done b = b := merge_of_fresh (hn ▸ fresh)
        have old : e.name ∈ inherited.map Attribute.name := hn ▸ List.mem_map_of_mem hb
        rw [added_append_old old]
        refine ⟨?_, ownEq⟩
        rw [← put_merge name_reuse _ distinct fresh hb hn, same]
        rfl
      · have : e.name ∈ done.map Attribute.name :=
          hname ▸ List.mem_map_of_mem (List.mem_filter.mp hmem).1
        exact absurd this fresh
  · rw [map_merge_nil]
    exact ⟨(List.append_nil _).symm ▸ rfl, rfl⟩

/-! ## Elements -/

theorem name_fold (a b : Element) : (fold a b).name = a.name := rfl

def untexted (elements : List Element) : List Element := elements.filter fun e => !e.isText

/-- The elements that are no repetition of an inherited one; the text slot never is one. -/
def addedElements (inherited own : List Element) : List Element :=
  own.filter fun e => e.isText || !(inherited.map Element.name).contains e.name

theorem untexted_append (own : List Element) (e : Element) :
    untexted (own ++ [e]) = untexted own ++ if e.isText then [] else [e] := by
  unfold untexted
  rw [List.filter_append, List.filter_singleton]
  cases e.isText <;> rfl

theorem addedElements_append (inherited own : List Element) (e : Element) :
    addedElements inherited (own ++ [e]) = addedElements inherited own ++
      if e.isText || !(inherited.map Element.name).contains e.name then [e] else [] := by
  unfold addedElements
  rw [List.filter_append, List.filter_singleton, Bool.cond_eq_ite]

structure ElementView.Shows (inherited done : List Element) (view : ElementView) : Prop where
  merged : view.inherited
    = tabled Element.name (inherited.map (merge Element.name fold (untexted done)))
  added : view.own = addedElements inherited done

theorem ElementView.Shows.add {derived base : StructuralType} {inherited done : List Element}
    {e : Element} {view result : ElementView} (h : view.Shows inherited done)
    (distinct : (inherited.map Element.name).Nodup) (fresh : e.name ∉ done.map Element.name)
    (ha : ElementView.add derived base view e = .ok result) :
    result.Shows inherited (done ++ [e]) := by
  have fresh : e.name ∉ (untexted done).map Element.name := by
    intro hm
    obtain ⟨x, hx, hn⟩ := List.mem_map.mp hm
    exact fresh (hn ▸ List.mem_map_of_mem (List.mem_filter.mp hx).1)
  unfold ElementView.add at ha
  rw [h.merged] at ha
  cases ht : e.isText with
  | true =>
    rw [ht, if_pos rfl] at ha
    cases ha
    constructor
    · rw [untexted_append, ht, if_pos rfl, List.append_nil]
    · rw [addedElements_append, ht, Bool.true_or, if_pos rfl, h.added]
  | false =>
    rw [ht, if_neg Bool.false_ne_true] at ha
    have texted : untexted (done ++ [e]) = untexted done ++ [e] := by
      rw [untexted_append, ht, if_neg Bool.false_ne_true]
    split at ha
    · rename_i hnone
      cases ha
      have absent := lookup_eq_none.mp hnone
      rw [keys_tabled, names_merge name_fold] at absent
      have new : (inherited.map Element.name).contains e.name = false :=
        Bool.eq_false_iff.mpr fun hc => absent (List.contains_iff_mem.mp hc)
      constructor
      · rw [texted, map_merge_append absent]
      · rw [addedElements_append, new, Bool.not_false, Bool.or_true, if_pos rfl, h.added]
    · rename_i found hfound
      obtain ⟨_, -, ha⟩ := ok_bind.mp ha
      cases ha
      obtain ⟨hmem, hname⟩ := mem_of_lookup_tabled hfound
      obtain ⟨b, hb, rfl⟩ := List.mem_map.mp hmem
      have hn : e.name = b.name := hname.symm.trans (nameOf_merge name_fold _ b)
      have same : merge Element.name fold (untexted done) b = b := merge_of_fresh (hn ▸ fresh)
      have put := put_merge name_fold [] distinct fresh hb hn
      rw [List.append_nil, List.append_nil] at put
      have old : (inherited.map Element.name).contains e.name = true :=
        List.contains_iff_mem.mpr (hn ▸ List.mem_map_of_mem hb)
      constructor
      · rw [texted, ← put, same]
      · rw [addedElements_append, old, ht, Bool.not_true, Bool.or_false, if_neg Bool.false_ne_true,
          List.append_nil]
        exact h.added

theorem elementView_eq {derived base : StructuralType} {inherited own : List Element}
    (distinct : (inherited.map Element.name).Nodup) (hown : (own.map Element.name).Nodup)
    {view : ElementView}
    (h : own.foldlM (ElementView.add derived base) ⟨tabled Element.name inherited, []⟩ = .ok view) :
    view.Shows inherited own := by
  refine ok_foldlM_done (I := fun done view => view.Shows inherited done) ?_ ?_ h
  · intro done e rest a b hs ha hadd
    exact ha.add distinct (fresh_of_nodup (hs ▸ hown)) hadd
  · constructor
    · rw [show untexted [] = [] from rfl, map_merge_nil]
    · rfl

/-! ## Composed types -/

/-- The own elements of a type whose choices are counted after those of its base. -/
def shifted (t base : StructuralType) : List Element :=
  t.localElements.map (shiftChoice base.choices.length)

theorem names_shifted (t base : StructuralType) :
    (t.shifted base).map Element.name = t.localElements.map Element.name := by
  unfold shifted
  rw [List.map_map]
  rfl

structure Composed (t base t' : StructuralType) : Prop where
  attributes : t'.attributes = base.attributes.map (merge Attribute.name reuse t.localAttributes)
    ++ added Attribute.name base.attributes t.localAttributes
  localAttributes : t'.localAttributes = added Attribute.name base.attributes t.localAttributes
  elements : t'.elements
    = (untexted base.elements).map (merge Element.name fold (untexted (t.shifted base)))
      ++ untexted t'.localElements ++ ((t'.localElements.find? (·.isText)).or base.textSlot?).toList
  localElements : t'.localElements = addedElements (untexted base.elements) (t.shifted base)

theorem putAll_tabled {α : Type} {nameOf : α → String} {members : List α}
    (h : (members.map nameOf).Nodup) :
    putAll (members.map fun e => (nameOf e, e)) = tabled nameOf members :=
  putAll_of_nodup (by rw [← keys_tabled] at h; exact h)

theorem values_tabled {α : Type} {nameOf : α → String} (members : List α) :
    (tabled nameOf members).map Prod.snd = members := by
  unfold tabled
  rw [List.map_map]
  exact List.map_id'' (fun _ => rfl) members

theorem nodup_untexted {elements : List Element} (h : (elements.map Element.name).Nodup) :
    ((untexted elements).map Element.name).Nodup := h.sublist (List.filter_sublist.map _)

theorem compose_eq {t base t' : StructuralType} (h : t.compose base = .ok t')
    (inheritedAttributes : (base.attributes.map Attribute.name).Nodup)
    (inheritedElements : (base.elements.map Element.name).Nodup)
    (ownAttributes : (t.localAttributes.map Attribute.name).Nodup)
    (ownElements : (t.localElements.map Element.name).Nodup) : Composed t base t' := by
  unfold compose at h
  obtain ⟨attributes, ha, h⟩ := ok_bind.mp h
  obtain ⟨elements, he, h⟩ := ok_bind.mp h
  cases h
  rw [putAll_tabled inheritedAttributes] at ha
  have startElements := putAll_tabled (nodup_untexted inheritedElements)
  obtain ⟨all, own⟩ := attributeView_eq inheritedAttributes ownAttributes ha
  unfold untexted at startElements
  rw [startElements] at he
  obtain ⟨merged, added⟩ := elementView_eq (nodup_untexted inheritedElements)
    ((names_shifted t base).symm ▸ ownElements) he
  refine ⟨?_, own, ?_, added⟩
  · show attributes.all.map (·.2) = _
    rw [all]
    exact values_tabled _
  · show elements.inherited.map (·.2) ++ _ ++ _ = _
    rw [merged]
    exact congrArg (· ++ _ ++ _) (values_tabled _)

end StructuralType

end WsdlCatalog
