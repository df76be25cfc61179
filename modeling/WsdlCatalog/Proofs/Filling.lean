/-
  WsdlCatalog.Proofs.Filling — the body of a complex type while it is filled.

  While the body of a type is filled, a type inside it is compiled where its element is met
  first; an element that is met again finds the entry and is not looked into (`Filling`). The
  leaves that come of the elements refer to the types inside them (`Leaved`).

  Proved: an element that is met keeps both (`Filling.element`, `Leaved.element`), if types
  inside others are compiled from where they are defined.
-/

import WsdlCatalog.Proofs.Entry

namespace WsdlCatalog

namespace Compile

variable {S : Setting}

/-! ## Types that wait to be compiled -/

structure Ready (S : Setting) (root : String) (anonymous : Bool) (i : Inventory) : Prop where
  tidy : i.Tidy
  entered : Entered S i
  held : i.HeldAs root anonymous
  childless : i.Childless root
  absent : some root ∉ i.typeKeys

structure Compiled (S : Setting) (root : String) (name : QName) (anonymous : Bool) (site : Site)
    (i j : Inventory) : Prop where
  tidy : j.Tidy
  entered : Entered S j
  grown : Inventory.Grown root i j
  entry : ∃ t, (some root, t) ∈ j.types ∧ Made S root name anonymous site t

def Compiles (S : Setting) (nested : Nested) (anonymous : Bool) : Prop :=
  ∀ {root name site p q}, Defined S root name anonymous site → Ready S root anonymous p.inventory →
    Runs (nested (some root) name site) p () q →
      Compiled S root name anonymous site p.inventory q.inventory

/-- A type that nobody has reserved is ready once it is. -/
theorem Ready.nested {root element : String} {inner : Site} {p : Progress} (hp : p.inventory.Tidy)
    (he : Entered S p.inventory) (hr : p.inventory.Held root)
    (hc : ¬ p.inventory.Held (root ++ Text.pascal element)) :
    Ready S (root ++ Text.pascal element) true
      (p.withReservations [nestedReservation root element inner]).inventory := by
  have hs : '/' ∉ root.toList := hr.plain hp
  refine ⟨hp.reserving (.nested hs element _) hc fun parent element' hs' ho => ?_,
    Entered.mono (i := p.inventory) (List.subset_append_left _ _) rfl he,
    ⟨_, List.mem_append_right _ (List.mem_singleton.mpr rfl), rfl, nofun, ?_⟩, ?_,
    hp.not_mem_typeKeys hc⟩
  · exact (ownerOfNested_injective hs hs' ho).1 ▸ hr
  · exact fun given => absurd given.choose_spec.symm (ownerOfType_ne_nested _ _ _)
  · have plain := Reservation.slash_not_mem_nested hs element
    intro r hm element' ho
    rcases List.mem_append.mp hm with hm | hm
    · exact hp.childless plain hc r hm element' ho
    · rw [List.mem_singleton.mp hm] at ho
      exact hc ((ownerOfNested_injective hs plain ho).1 ▸ hr)

/-! ## Bodies -/

structure Filling (S : Setting) (root : String) (start : Inventory) (done : List Site)
    (i : Inventory) : Prop where
  tidy : i.Tidy
  entered : Entered S i
  held : start.Held root
  absent : some root ∉ i.typeKeys
  grown : Inventory.Grown root start i
  /-- Of the types inside this one only those of elements that were met are reserved. -/
  met : ∀ r ∈ i.reservations, ∀ element, r.owner = ownerOfNested root element →
    (S.declarations.firstInner? element done).isSome
  inner : ∀ element inner, S.declarations.firstInner? element done = some inner →
    InnerMade S i root element inner

/-- Nothing was met yet. -/
theorem filling_start {root : String} {anonymous : Bool} {i : Inventory}
    (h : Ready S root anonymous i) : Filling S root i [] i where
  tidy := h.tidy
  entered := h.entered
  held := h.held.held
  absent := h.absent
  grown := .refl root i
  met r hr element ho := absurd ho (h.childless r hr element)
  inner _ _ h := nomatch h

namespace Filling

variable {root : String} {start : Inventory} {done : List Site} {site inner : Site} {p q : Progress}

theorem root_held (h : Filling S root start done p.inventory) : p.inventory.Held root :=
  h.held.mono h.grown.reservations

/-- A step that follows references fills nothing in. -/
theorem quiet (h : Filling S root start done p.inventory) (hq : Quiet p q) :
    Filling S root start done q.inventory where
  tidy := hq.tidy
  entered := h.entered.mono (hq.reservations ▸ List.Subset.refl _) hq.types
  held := h.held
  absent := by
    unfold Inventory.typeKeys
    rw [hq.types]
    exact h.absent
  grown := by
    refine ⟨hq.reservations ▸ h.grown.reservations, hq.types ▸ h.grown.types, ?_, ?_, ?_⟩
    all_goals unfold Inventory.typeKeys
    · rw [hq.reservations, hq.types]
      exact h.grown.fresh
    · rw [hq.types]
      exact h.grown.keys
    · rw [hq.reservations, hq.types]
      exact h.grown.compiled
  met := hq.reservations ▸ h.met
  inner element inner hi := (h.inner element inner hi).mono (hq.types ▸ List.Subset.refl _)

/-- The types inside this one that are reserved have entries. -/
theorem entry (h : Filling S root start done p.inventory) {element : String} {r : Reservation}
    (hr : r ∈ p.inventory.reservations) (ho : r.owner = ownerOfNested root element) :
    some (root ++ Text.pascal element) ∈ p.inventory.typeKeys := by
  obtain ⟨inner, hi⟩ := Option.isSome_iff_exists.mp (h.met r hr element ho)
  obtain ⟨t, ht, -⟩ := h.inner element inner hi
  exact List.mem_map_of_mem ht

/-- An element with nothing new inside was met. -/
theorem again (h : Filling S root start done p.inventory)
    (hs : ∀ element, S.declarations.firstInner? element done = none →
      S.declarations.firstInner? element [site] = none) :
    Filling S root start (done ++ [site]) p.inventory := by
  have same (element : String) : S.declarations.firstInner? element (done ++ [site])
      = S.declarations.firstInner? element done := by
    cases hd : S.declarations.firstInner? element done with
    | none => rw [Declarations.firstInner?_append_none hd, hs element hd]
    | some inner => exact Declarations.firstInner?_append hd
  refine ⟨h.tidy, h.entered, h.held, h.absent, h.grown, ?_, ?_⟩
  · intro r hr element ho
    rw [same]
    exact h.met r hr element ho
  · intro element inner hi
    rw [same] at hi
    exact h.inner element inner hi

/-- A type inside the first element of its name was compiled. -/
theorem new (h : Filling S root start done p.inventory) (hi : site.inner? = some inner)
    (hc : ¬ p.inventory.Held (root ++ Text.pascal (S.declarations.nameOf site)))
    (compiled : Compiled S (root ++ Text.pascal (S.declarations.nameOf site))
      (nestedName root (S.declarations.nameOf site) inner) true inner
      (p.withReservations [nestedReservation root (S.declarations.nameOf site) inner]).inventory
      q.inventory) :
    Filling S root start (done ++ [site]) q.inventory := by
  generalize hn : S.declarations.nameOf site = name at hc compiled
  have hs : '/' ∉ root.toList := h.root_held.plain h.tidy
  have hne : root ≠ root ++ Text.pascal name := fun e => hc (e ▸ h.root_held)
  obtain ⟨t, ht, made⟩ := compiled.entry
  have held : (p.withReservations [nestedReservation root name inner]).inventory.Held root :=
    h.root_held.mono (List.subset_append_left _ _)
  have only : S.declarations.firstInner? name [site] = some inner := by
    rw [Declarations.firstInner?_singleton, if_pos hn, hi]
  have key : some (root ++ Text.pascal name) ∈ q.inventory.typeKeys := List.mem_map_of_mem ht
  have grown : Inventory.Grown root p.inventory q.inventory :=
    Inventory.Grown.nested (r := nestedReservation root name inner) hs rfl hc compiled.grown key
  refine ⟨compiled.tidy, compiled.entered, h.held, compiled.grown.absent held hne h.absent,
    h.grown.trans grown, ?_, ?_⟩
  · intro r hr element ho
    have before := compiled.grown.foreign hs held hne hr ho
    rcases List.mem_append.mp before with hr | hr
    · obtain ⟨inner', hd⟩ := Option.isSome_iff_exists.mp (h.met r hr element ho)
      rw [Declarations.firstInner?_append hd]
      rfl
    · rw [List.mem_singleton.mp hr] at ho
      obtain ⟨-, rfl⟩ := ownerOfNested_injective hs hs ho
      cases hd : S.declarations.firstInner? name done with
      | some inner' =>
        rw [Declarations.firstInner?_append hd]
        rfl
      | none =>
        rw [Declarations.firstInner?_append_none hd, only]
        rfl
  · intro element inner' hf
    cases hd : S.declarations.firstInner? element done with
    | some inner'' =>
      rw [Declarations.firstInner?_append hd] at hf
      obtain rfl := Option.some.inj hf
      exact (h.inner element inner'' hd).mono compiled.grown.types
    | none =>
      rw [Declarations.firstInner?_append_none hd, Declarations.firstInner?_singleton] at hf
      split at hf
      · rename_i he
        obtain rfl := hn.symm.trans he
        obtain rfl := Option.some.inj (hi.symm.trans hf)
        exact ⟨t, ht, made⟩
      · cases hf

/-- An element is met. If it is the first of its name with a type inside it, that is where this
type is defined. -/
theorem element {nested : Nested} {e : Referenced} (hn : Compiles S nested true)
    (h : Filling S root start done p.inventory)
    (hd : ∀ element inner, S.declarations.firstInner? element (done ++ [site]) = some inner →
      Defined S (root ++ Text.pascal element) (nestedName root element inner) true inner)
    (hr : Runs (elementParticle S nested site (some root)) p e q) :
    Filling S root start (done ++ [site]) q.inventory ∧ ∀ inner, site.inner? = some inner →
      e.typeRef = .ofStructure (root ++ Text.pascal (S.declarations.nameOf site))
        (nestedName root (S.declarations.nameOf site) inner).label := by
  rcases runs_elementParticle h.tidy hr with ⟨hi, quiet⟩ | ⟨inner, hi, hr⟩
  · refine ⟨(h.quiet quiet).again fun element _ => ?_, fun inner h => absurd (hi.symm.trans h) nofun⟩
    rw [Declarations.firstInner?_singleton, hi, ite_self]
  · generalize hname : S.declarations.nameOf site = name at hr
    have hs : '/' ∉ root.toList := h.root_held.plain h.tidy
    obtain ⟨he, hr⟩ := runs_nestedType h.tidy hs (fun r hr ho => h.entry hr ho) hr
    refine ⟨?_, fun inner' hi' => Option.some.inj (hi.symm.trans hi') ▸ he⟩
    rcases hr with ⟨⟨r, hr, ho⟩, rfl⟩ | ⟨-, hc, hr⟩
    · refine h.again fun element hnone => ?_
      rw [Declarations.firstInner?_singleton]
      split
      · rename_i same
        obtain rfl := hname.symm.trans same
        have := h.met r hr _ ho
        rw [hnone] at this
        cases this
      · rfl
    · have first : S.declarations.firstInner? name (done ++ [site]) = some inner := by
        cases hd : S.declarations.firstInner? name done with
        | none =>
          rw [Declarations.firstInner?_append_none hd, Declarations.firstInner?_singleton,
            if_pos hname, hi]
        | some inner' =>
          obtain ⟨t, ht, -⟩ := h.inner name inner' hd
          obtain ⟨c, he, held⟩ := h.tidy.types _ (List.mem_map_of_mem ht)
          exact absurd (Option.some.inj he ▸ held) hc
      have compiled := hn (hd name inner first) (.nested h.tidy h.entered h.root_held hc) hr
      subst hname
      exact h.new hi hc compiled

end Filling

/-! ## Leaves -/

/-- A leaf stays and keeps its type, whatever is added. -/
theorem leaf_addElement {members result : Members} {leaf l : Leaf} {branches : List Branch}
    (h : members.addElement leaf branches = .ok result) (hl : l ∈ members.leaves) :
    ∃ l' ∈ result.leaves, l'.name = l.name ∧ l'.typeRef = l.typeRef := by
  obtain ⟨leaves, hi, rfl⟩ := Members.addElement_ok h
  rcases Members.insert_cases hi with ⟨-, rfl⟩ | ⟨before, first, after, he, -, -, -, rfl⟩
  · exact ⟨l, List.mem_append_left _ hl, rfl, rfl⟩
  · rw [he] at hl
    rcases List.mem_append.mp hl with hl | hl
    · exact ⟨l, List.mem_append_left _ hl, rfl, rfl⟩
    · rcases List.mem_cons.mp hl with rfl | hl
      · exact ⟨_, List.mem_append_right _ List.mem_cons_self, rfl, rfl⟩
      · exact ⟨l, List.mem_append_right _ (List.mem_cons_of_mem _ hl), rfl, rfl⟩

/-- The leaves after an element was added are those from before, and one of its name. -/
theorem source_addElement {members result : Members} {leaf : Leaf} {branches : List Branch}
    (h : members.addElement leaf branches = .ok result) :
    ∀ l ∈ result.leaves, l.name = leaf.name ∨ ∃ l' ∈ members.leaves, l'.name = l.name := by
  obtain ⟨leaves, hi, rfl⟩ := Members.addElement_ok h
  rcases Members.insert_cases hi with ⟨-, rfl⟩ | ⟨before, first, after, he, -, hn, -, rfl⟩
  · intro l hl
    rcases List.mem_append.mp hl with hl | hl
    · exact .inr ⟨l, hl, rfl⟩
    · exact .inl (List.mem_singleton.mp hl ▸ rfl)
  · intro l hl
    rcases List.mem_append.mp hl with hl | hl
    · exact .inr ⟨l, he ▸ List.mem_append_left _ hl, rfl⟩
    · rcases List.mem_cons.mp hl with rfl | hl
      · exact .inl hn
      · exact .inr ⟨l, he ▸ List.mem_append_right _ (List.mem_cons_of_mem _ hl), rfl⟩

/-- An element of a new name becomes a leaf of its type. -/
theorem new_addElement {members result : Members} {leaf : Leaf} {branches : List Branch}
    (h : members.addElement leaf branches = .ok result) (hn : ∀ l ∈ members.leaves, l.name ≠ leaf.name) :
    ∃ l ∈ result.leaves, l.name = leaf.name ∧ l.typeRef = leaf.typeRef := by
  obtain ⟨leaves, hi, rfl⟩ := Members.addElement_ok h
  rcases Members.insert_cases hi with ⟨-, rfl⟩ | ⟨before, first, after, he, -, hf, -, rfl⟩
  · exact ⟨_, List.mem_append_right _ (List.mem_singleton.mpr rfl), rfl, rfl⟩
  · exact absurd hf (hn first (he ▸ List.mem_append_right _ List.mem_cons_self))

/-- The leaves of a body whose elements were met so far stand for them, and refer to the types
inside the first ones. -/
structure Leaved (S : Setting) (root : String) (done : List Site) (members : Members) : Prop where
  sources : ∀ leaf ∈ members.leaves, leaf.name ∈ done.map S.declarations.nameOf
  refers : ∀ element first inner, S.declarations.first? element done = some first →
    first.inner? = some inner → ∃ leaf ∈ members.leaves, leaf.name = element ∧
      leaf.typeRef = .ofStructure (root ++ Text.pascal element) (nestedName root element inner).label

theorem leaved_start (S : Setting) (root : String) : Leaved S root [] .empty where
  sources _ h := absurd h List.not_mem_nil
  refers _ _ _ h := nomatch h

theorem Leaved.element {root : String} {done : List Site} {site : Site} {members result : Members}
    {leaf : Leaf} {branches : List Branch} (h : Leaved S root done members)
    (hn : leaf.name = S.declarations.nameOf site)
    (hr : ∀ inner, site.inner? = some inner → leaf.typeRef =
      .ofStructure (root ++ Text.pascal leaf.name) (nestedName root leaf.name inner).label)
    (ha : members.addElement leaf branches = .ok result) :
    Leaved S root (done ++ [site]) result where
  sources l hl := by
    rw [List.map_append, List.mem_append]
    rcases source_addElement ha l hl with he | ⟨l', hl', he⟩
    · exact .inr (List.mem_singleton.mpr (he.trans hn))
    · exact .inl (he ▸ h.sources l' hl')
  refers element first inner hf hi := by
    unfold Declarations.first? at hf
    rw [List.find?_append] at hf
    rcases Option.or_eq_some_iff.mp hf with hf | ⟨hnone, hf⟩
    · obtain ⟨l, hl, hname, href⟩ := h.refers element first inner hf hi
      obtain ⟨l', hl', hname', href'⟩ := leaf_addElement ha hl
      exact ⟨l', hl', hname'.trans hname, href'.trans href⟩
    · have found := List.find?_some hf
      obtain rfl := List.mem_singleton.mp (List.mem_of_find?_eq_some hf)
      obtain rfl : leaf.name = element := hn.trans (eq_of_beq found)
      have absent : ∀ l ∈ members.leaves, l.name ≠ leaf.name := by
        intro l hl he
        obtain ⟨s, hs, hsn⟩ := List.mem_map.mp (h.sources l hl)
        exact List.find?_eq_none.mp hnone s hs (beq_iff_eq.mpr (hsn.trans he))
      obtain ⟨l, hl, hname, href⟩ := new_addElement ha absent
      exact ⟨l, hl, hname, href.trans (hr inner hi)⟩

end Compile

end WsdlCatalog
