/-
  WsdlCatalog.Proofs.Nesting — complex types and the types inside them.

  While the body of a type is compiled, every type inside it that was reserved has an
  entry, and stands for an element that is a leaf (`Inside`). So an element that is met
  again is folded into its leaf, and what it says of its own type is dropped.

  Proved: a complex type that waits to be compiled unfolds to its entry and those of the
  types inside it (`complexTypeIn_unfolds`).
-/

import WsdlCatalog.Proofs.Unfolding

namespace WsdlCatalog

variable {S T : Setting} {names : Names} {root : String}

/-- A complex type that is reserved for a name waits to be compiled: there is no entry of it, and
nothing inside it is reserved. -/
structure Progress.Awaits (p : Progress) (root : String) (name : QName) : Prop where
  reserved : ∃ r ∈ p.inventory.reservations, r.canonical = root ∧ r.name = name
  absent : some root ∉ p.inventory.typeKeys
  childless : ∀ r ∈ p.inventory.reservations, ∀ element, r.owner ≠ ownerOfNested root element

/-- Inside the body of a type: the types inside it that are reserved have entries and are those of
`elements`, and what `refs` say is so. -/
structure Progress.Inside (S : Setting) (names : Names) (root : String) (name : QName)
    (elements : List String) (refs : List TypeRef) (p : Progress) : Prop where
  reserved : ∃ r ∈ p.inventory.reservations, r.canonical = root ∧ r.name = name
  absent : some root ∉ p.inventory.typeKeys
  holds : ∀ ref ∈ refs, p.Holds S names ref
  nested : ∀ r ∈ p.inventory.reservations, ∀ element, r.owner = ownerOfNested root element →
    some r.canonical ∈ p.inventory.typeKeys ∧ element ∈ elements

namespace Progress

variable {p q : Progress} {name : QName} {elements : List String} {refs : List TypeRef}

theorem Awaits.inside (h : p.Awaits root name) : p.Inside S names root name [] [] where
  reserved := h.reserved
  absent := h.absent
  holds _ hr := absurd hr List.not_mem_nil
  nested r hr element ho := absurd ho (h.childless r hr element)

theorem Awaits.matches (h : p.Awaits root name) (p' : Progress) : p.Matches root p' := by
  intro element c hc
  obtain ⟨r, hr, ho, -⟩ := Inventory.exists_of_canonical? hc
  exact absurd ho (h.childless r hr element)

theorem stable_inside : Stable (Inside S names root name elements refs) := by
  intro p q hr ht h
  have keys : q.inventory.typeKeys = p.inventory.typeKeys := by
    unfold Inventory.typeKeys
    rw [ht]
  refine ⟨hr ▸ h.reserved, keys ▸ h.absent, ?_, ?_⟩
  · intro ref href
    exact (h.holds ref href).congr hr ht
  · rw [hr, keys]
    exact h.nested

theorem Inside.mono (h : p.Inside S names root name elements refs) {elements' : List String}
    (he : elements ⊆ elements') : p.Inside S names root name elements' refs where
  reserved := h.reserved
  absent := h.absent
  holds := h.holds
  nested r hr element ho := (h.nested r hr element ho).imp id (@he element)

/-- The leaves of a body, as far as `Inside` sees them. -/
abbrev InsideLeaves (S : Setting) (names : Names) (root : String) (name : QName)
    (leaves : List Leaf) (p : Progress) : Prop :=
  p.Inside S names root name (leaves.map (·.name)) (leaves.map (·.typeRef))

/-- An element was met: it is a leaf already, or what it says of its type is so. -/
structure Met (S : Setting) (names : Names) (root : String) (name : QName) (leaves : List Leaf)
    (element : String) (ref : TypeRef) (p : Progress) : Prop where
  inside : p.Inside S names root name (element :: leaves.map (·.name)) (leaves.map (·.typeRef))
  good : p.Holds S names ref ∨ element ∈ leaves.map (·.name)

theorem InsideLeaves.met {leaves : List Leaf} (h : p.InsideLeaves S names root name leaves)
    {ref : TypeRef} (hk : S.Knows names ref) (element : String) :
    p.Met S names root name leaves element ref :=
  ⟨h.mono (List.subset_cons_self _ _), .inl (.inl hk)⟩

/-- An element becomes a leaf or is folded into one. -/
theorem Met.insert {leaf : Leaf} {leaves result : List Leaf}
    (h : p.Met S names root name leaves leaf.name leaf.typeRef)
    (hi : Members.insert leaf leaves = .ok result) : p.InsideLeaves S names root name result := by
  rcases Members.insert_cases hi with ⟨hn, rfl⟩ | ⟨before, first, after, rfl, -, hf, -, rfl⟩
  · have new : leaf.name ∉ leaves.map (·.name) := by
      intro hm
      obtain ⟨l, hl, he⟩ := List.mem_map.mp hm
      exact hn l hl he
    have holds := h.good.resolve_right new
    unfold InsideLeaves
    simp only [List.map_append, List.map_cons, List.map_nil]
    have grown : p.Inside S names root name (leaves.map (·.name) ++ [leaf.name])
      (leaves.map (·.typeRef)) := h.inside.mono (by simp)
    refine ⟨grown.reserved, grown.absent, ?_, grown.nested⟩
    exact List.forall_mem_append.mpr ⟨grown.holds, List.forall_mem_singleton.mpr holds⟩
  · have elements : (before ++ Members.fold first leaf :: after).map (·.name)
        = (before ++ first :: after).map (·.name) := by
      simp only [List.map_append, List.map_cons, Members.fold]
    have refs : (before ++ Members.fold first leaf :: after).map (·.typeRef)
        = (before ++ first :: after).map (·.typeRef) := by
      simp only [List.map_append, List.map_cons, Members.fold]
    unfold InsideLeaves
    rw [elements, refs]
    refine h.inside.mono (List.cons_subset.mpr ⟨?_, List.Subset.refl _⟩)
    simp [hf]

end Progress

/-! ## Types inside others -/

namespace Progress

variable {p : Progress} {r : Reservation}

def reserving (r : Reservation) : Yield := ⟨[], [r], []⟩

theorem growth_reserving (p : Progress) (r : Reservation) :
    p.Growth S (p.withReservations [r]) (reserving r) [] where
  inventory := by
    simp only [withReservations, reserving, List.map_nil, List.append_nil]
  reported := ⟨[], .refl _, (List.append_nil _).symm, rfl⟩

theorem Sound.withReservations (h : p.Sound S names) (rs : List Reservation) :
    (p.withReservations rs).Sound S names where
  canonical owner name hn := by
    have := h.canonical owner name hn
    unfold Progress.withReservations Inventory.canonical? at *
    rw [List.find?_append]
    cases hf : p.inventory.reservations.find? (·.owner == owner) with
    | none => rw [hf] at this; cases this
    | some r => rwa [hf] at this
  aliases := h.aliases
  nodup := h.nodup

/-- A new type inside another one can be reserved. -/
theorem Consistent.withReservation (h : p.Consistent S names)
    (ho : ∀ x ∈ p.inventory.reservations, x.owner ≠ r.owner)
    (hc : ∀ x ∈ p.inventory.reservations, x.canonical ≠ r.canonical)
    (hs : '/' ∉ r.canonical.toList)
    (hp : ∀ parent element, '/' ∉ parent.toList → r.owner = ownerOfNested parent element →
      ∃ x ∈ p.inventory.reservations, x.canonical = parent) :
    (p.withReservations [r]).Consistent S names := by
  have more : p.inventory.reservations ⊆ (p.withReservations [r]).inventory.reservations :=
    List.subset_append_left _ _
  refine ⟨h.sound.withReservations [r], ?_, ?_, ?_, ?_, h.typeKeys, ?_, ?_, ?_⟩
  · show ((p.inventory.reservations ++ [r]).map (·.owner)).Nodup
    rw [List.map_append, List.nodup_append]
    exact ⟨h.owners, List.nodup_singleton _, by simpa using ho⟩
  · show ((p.inventory.reservations ++ [r]).map (·.canonical)).Nodup
    rw [List.map_append, List.nodup_append]
    exact ⟨h.canonicals, List.nodup_singleton _, by simpa using hc⟩
  · exact List.forall_mem_append.mpr ⟨h.plain, List.forall_mem_singleton.mpr hs⟩
  · intro x hx parent element hparent ho
    rcases List.mem_append.mp hx with hx | hx
    · obtain ⟨r', hr', he⟩ := h.parents x hx parent element hparent ho
      exact ⟨r', more hr', he⟩
    · rw [List.mem_singleton.mp hx] at ho
      obtain ⟨r', hr', he⟩ := hp parent element hparent ho
      exact ⟨r', more hr', he⟩
  · intro x hx
    obtain ⟨r', hr', he⟩ := h.entries x hx
    exact ⟨r', more hr', he⟩
  · intro x hx ref href
    exact (h.refs x hx ref href).mono more (List.Subset.refl _)
  · intro x hx name hn
    obtain ⟨ref, hh, hk, hn⟩ := h.bases x hx name hn
    exact ⟨ref, hh.mono more (List.Subset.refl _), hk, hn⟩

/-- A name that nobody has reserved is not that of a simple type. -/
theorem Sound.alias?_eq_none (h : p.Sound S names) {c : String}
    (hc : ∀ r ∈ p.inventory.reservations, r.canonical ≠ c) :
    p.inventory.alias? (some c) = none := by
  cases ha : p.inventory.alias? (some c) with
  | none => rfl
  | some a =>
    obtain ⟨-, -, -, r, hr, he⟩ := h.reserved ha
    exact absurd he (hc r hr)

end Progress

namespace Compile

abbrev NestedAlike (S T : Setting) (names : Names) (nested nested' : Nested) : Prop :=
  ∀ (c : String) (name : QName) {s t : Site}, s.bare = t.bare →
    Unfolds S T names c [c] (·.Awaits c name) (fun _ _ _ => True) (nested (some c) name s)
      (nested' (some c) name t)

variable {nested nested' : Nested} {name : QName} {leaves : List Leaf}

/-- A type inside another one that was met before. -/
theorem nestedType_again {p q : Progress} {element c : String} {s : Site} {ref : TypeRef}
    (hc : p.inventory.canonical? (ownerOfNested root element) = some c)
    (hk : some c ∈ p.inventory.typeKeys) :
    Runs (nestedType nested root element s) p ref q ↔
      ref = .ofStructure c
        (QName.mk (some s.document.targetNamespace) (root ++ Text.pascal element)).label ∧ q = p := by
  unfold nestedType
  simp only [runs_bind, runs_reserve_of_some hc, runs_inventory]
  constructor
  · intro h
    rcases h with ⟨_, _, ⟨rfl, rfl⟩, _, _, ⟨rfl, rfl⟩, h⟩
    rw [Inventory.isCompiled_of_mem hk] at h
    exact runs_pure.mp h
  · intro h
    refine ⟨_, _, ⟨rfl, rfl⟩, _, _, ⟨rfl, rfl⟩, ?_⟩
    rw [Inventory.isCompiled_of_mem hk]
    exact runs_pure.mpr h

/-- A type inside another one that is new. -/
theorem nestedType_new {p q : Progress} {element : String} {s : Site} {ref : TypeRef} {c : String}
    {name : QName} (hn : name = ⟨some s.document.targetNamespace, root ++ Text.pascal element⟩)
    (hl : c = name.localPart)
    (hc : p.inventory.canonical? (ownerOfNested root element) = none)
    (hk : (∀ r ∈ p.inventory.reservations, r.canonical ≠ c) →
      p.inventory.isCompiled (some c) = false) :
    Runs (nestedType nested root element s) p ref q ↔
      (∀ r ∈ p.inventory.reservations, r.canonical ≠ c) ∧ ref = .ofStructure c name.label ∧
        Runs (nested (some c) name s) (p.withReservations [⟨ownerOfNested root element, c, name⟩])
          () q := by
  subst hl
  subst hn
  unfold nestedType
  simp only [runs_bind, runs_reserve_of_none hc, runs_inventory]
  have new (hf : ∀ r ∈ p.inventory.reservations, r.canonical ≠ root ++ Text.pascal element)
      (r : Reservation) : (p.withReservations [r]).inventory.isCompiled
        (some (root ++ Text.pascal element)) = false := hk hf
  constructor
  · intro given
    rcases given with ⟨_, _, ⟨hf, rfl, rfl⟩, _, _, ⟨rfl, rfl⟩, h⟩
    rw [new hf] at h
    obtain ⟨_, _, h, hr⟩ := runs_bind.mp h
    obtain ⟨rfl, rfl⟩ := runs_pure.mp hr
    exact ⟨hf, rfl, h⟩
  · intro given
    rcases given with ⟨hf, rfl, h⟩
    refine ⟨_, _, ⟨hf, rfl, rfl⟩, _, _, ⟨rfl, rfl⟩, ?_⟩
    rw [new hf]
    exact runs_bind.mpr ⟨(), q, h, runs_pure.mpr ⟨rfl, rfl⟩⟩

/-- A type inside `root` and what is inside of it are inside `root`. -/
theorem under_reserving {r : Reservation} {element : String} {y : Yield}
    (ho : r.owner = ownerOfNested root element) (hs : '/' ∉ root.toList)
    (hy : y.Under [r.canonical] [r.canonical]) :
    ((Progress.reserving r).append y).Under [root] [] where
  compiled x hx := by
    rw [Yield.keys_append]
    refine List.mem_append_right _ ?_
    rcases List.mem_cons.mp hx with rfl | hx
    · exact hy.entered _ (List.mem_singleton.mpr rfl)
    · exact hy.compiled x hx
  parents x hx := by
    rcases List.mem_cons.mp hx with rfl | hx
    · exact ⟨root, element, ho, hs, .inl (List.mem_singleton.mpr rfl)⟩
    · obtain ⟨parent, element, ho, hs, hp | ⟨r', hr', hc⟩⟩ := hy.parents x hx
      · exact ⟨parent, element, ho, hs, .inr ⟨r, List.mem_cons_self, (List.mem_singleton.mp hp).symm⟩⟩
      · exact ⟨parent, element, ho, hs, .inr ⟨r', List.mem_cons_of_mem _ hr', hc⟩⟩
  keys k hk := by
    rw [Yield.keys_append] at hk
    rcases List.mem_append.mp hk with hk | hk
    · exact absurd hk List.not_mem_nil
    · rcases hy.keys k hk with ⟨c, hc, rfl⟩ | ⟨r', hr', rfl⟩
      · exact .inr ⟨r, List.mem_cons_self, congrArg some (List.mem_singleton.mp hc)⟩
      · exact .inr ⟨r', List.mem_cons_of_mem _ hr', rfl⟩
  entered _ h := absurd h List.not_mem_nil

section

variable {r : Reservation} {element : String} {p q : Progress} {y : Yield} {new : List ScalarAlias}

/-- A type that was just reserved waits to be compiled. -/
theorem awaits_reserved (hp : p.Consistent S names)
    (hf : ∀ x ∈ p.inventory.reservations, x.canonical ≠ r.canonical) (hs : '/' ∉ r.canonical.toList)
    (hr : ∀ element, r.owner ≠ ownerOfNested r.canonical element) :
    (p.withReservations [r]).Awaits r.canonical r.name := by
  refine ⟨⟨r, List.mem_append_right _ (List.mem_singleton.mpr rfl), rfl, rfl⟩,
    hp.not_mem_typeKeys hf, ?_⟩
  intro x hx element ho
  rcases List.mem_append.mp hx with hx | hx
  · obtain ⟨r', hr', he⟩ := hp.parents x hx r.canonical element hs ho
    exact hf r' hr' he
  · rw [List.mem_singleton.mp hx] at ho
    exact hr element ho

/-- After a type inside `root` was compiled, the element around it was met. -/
theorem met_reserved (hi : p.InsideLeaves S names root name leaves) (hs : '/' ∉ root.toList)
    (ho : r.owner = ownerOfNested root element) (hy : y.Under [r.canonical] [r.canonical])
    (hf : p.Free ((Progress.reserving r).append y))
    (hg : p.Growth S q ((Progress.reserving r).append y) new) :
    q.Met S names root name leaves element (.ofStructure r.canonical r.name.label) := by
  obtain ⟨held, hheld, hroot, hname⟩ := hi.reserved
  have under := under_reserving ho hs hy
  have yields : ((Progress.reserving r).append y).reservations = r :: y.reservations := rfl
  have entry : some r.canonical ∈ q.inventory.typeKeys := by
    rw [hg.typeKeys]
    exact List.mem_append_right _ (under.compiled r List.mem_cons_self)
  have reserved : r ∈ q.inventory.reservations := by
    rw [hg.reservations, yields]
    exact List.mem_append_right _ List.mem_cons_self
  refine ⟨⟨⟨held, ?_, hroot, hname⟩, ?_, ?_, ?_⟩, .inl (.inr ⟨r, reserved, entry, rfl⟩)⟩
  · rw [hg.reservations]
    exact List.mem_append_left _ hheld
  · intro hm
    rw [hg.typeKeys] at hm
    rcases List.mem_append.mp hm with hm | hm
    · exact hi.absent hm
    · rcases under.keys _ hm with ⟨c, hc, -⟩ | ⟨r', hr', he⟩
      · exact absurd hc List.not_mem_nil
      · exact hf.canonicals r' hr' held hheld (hroot.trans (Option.some.inj he))
  · exact fun ref href => hg.holds (hi.holds ref href)
  · intro x hx element' he
    rw [hg.reservations] at hx
    rw [hg.typeKeys]
    rcases List.mem_append.mp hx with hx | hx
    · obtain ⟨hk, hm⟩ := hi.nested x hx element' he
      exact ⟨List.mem_append_left _ hk, List.mem_cons_of_mem _ hm⟩
    · refine ⟨List.mem_append_right _ (under.compiled x hx), ?_⟩
      rcases List.mem_cons.mp hx with rfl | hx
      · rw [(ownerOfNested_injective hs hs (ho.symm.trans he)).2]
        exact List.mem_cons_self
      · -- What is inside of `r` has another name around it than `root`.
        obtain ⟨parent, element, ho, hparent, hp⟩ := hy.parents x hx
        have parent_eq := (ownerOfNested_injective hparent hs (ho.symm.trans he)).1
        rw [← hroot] at parent_eq
        rcases hp with hp | ⟨r', hr', hc⟩
        · exact absurd (parent_eq.symm.trans (List.mem_singleton.mp hp))
            (hf.canonicals r List.mem_cons_self held hheld)
        · exact absurd (parent_eq.symm.trans hc.symm)
            (hf.canonicals r' (List.mem_cons_of_mem _ hr') held hheld)

end

/-- A type inside another one yields its reservation, its entry and what is inside of it. -/
theorem Unfolds.nestedType_of_new (hn : NestedAlike S T names nested nested') {s t : Site}
    (h : s.bare = t.bare) {element : String} {p q : Progress} {ref : TypeRef}
    (hp : p.Consistent S names) (hi : p.InsideLeaves S names root name leaves)
    (hc : p.inventory.canonical? (ownerOfNested root element) = none)
    (hr : Runs (Compile.nestedType nested root element s) p ref q) :
    ∃ y new, q.Met S names root name leaves element ref ∧
      Unfolded S T names root [] (Compile.nestedType nested' root element t) p q ref y new := by
  obtain ⟨r, hro, hrn, hrc⟩ : ∃ r : Reservation, r.owner = ownerOfNested root element ∧
      r.name = ⟨some s.document.targetNamespace, root ++ Text.pascal element⟩ ∧
      r.canonical = r.name.localPart :=
    ⟨⟨_, _, ⟨some s.document.targetNamespace, root ++ Text.pascal element⟩⟩, rfl, rfl, rfl⟩
  have eta : (⟨ownerOfNested root element, r.canonical, r.name⟩ : Reservation) = r := by
    rw [← hro]
  obtain ⟨hf, hrun⟩ := (nestedType_new hrn hrc hc fun hf =>
    Inventory.isCompiled_eq_false (hp.sound.alias?_eq_none hf) (hp.not_mem_typeKeys hf)).mp hr
  obtain ⟨rfl, hrun⟩ := hrun
  rw [eta] at hrun
  obtain ⟨held, hheld, hroot, -⟩ := hi.reserved
  have hs : '/' ∉ root.toList := hroot ▸ hp.plain held hheld
  have plain : '/' ∉ r.canonical.toList := by
    rw [hrc, hrn, String.toList_append]
    exact fun hm => (List.mem_append.mp hm).elim hs (Text.slash_not_mem_pascal element)
  have consistent : (p.withReservations [r]).Consistent S names := by
    refine hp.withReservation (hro ▸ Inventory.canonical?_eq_none.mp hc) hf plain ?_
    intro parent element' hparent he
    exact ⟨held, hheld, hroot.trans (ownerOfNested_injective hs hparent (hro.symm.trans he)).1⟩
  have awaits : (p.withReservations [r]).Awaits r.canonical r.name := by
    refine awaits_reserved hp hf plain fun element' he => hf held hheld ?_
    exact hroot.trans (ownerOfNested_injective hs plain (hro.symm.trans he)).1
  obtain ⟨_, y, new, -, hu⟩ := hn r.canonical r.name h _ () q consistent awaits hrun
  have reserving : p.Growth S _ (Progress.reserving r) [] := p.growth_reserving r
  have free : p.Free ((Progress.reserving r).append y) := by
    refine Progress.Free.append ⟨?_, ?_, fun _ hk => absurd hk List.not_mem_nil⟩ reserving hu.free
    · exact List.forall_mem_singleton.mpr (hro ▸ Inventory.canonical?_eq_none.mp hc)
    · exact List.forall_mem_singleton.mpr hf
  refine ⟨(Progress.reserving r).append y, new,
    met_reserved hi hs hro hu.under free (reserving.trans hu.growth), hu.consistent,
    reserving.trans hu.growth, free, under_reserving hro hs hu.under, ?_⟩
  intro p' hs' _ hf'
  have hc' : p'.inventory.canonical? (ownerOfNested root element) = none :=
    Inventory.canonical?_eq_none.mpr (hro ▸ hf'.owners r List.mem_cons_self)
  have unreserved := hf'.canonicals r List.mem_cons_self
  have absent : some r.canonical ∉ p'.inventory.typeKeys :=
    hf'.keys _ ((under_reserving hro hs hu.under).compiled r List.mem_cons_self)
  have reserving' : p'.Growth T _ (Progress.reserving r) [] := p'.growth_reserving r
  obtain ⟨q', new', hrun', hq', hg'⟩ := hu.again _ (hs'.withReservations [r])
    (awaits.matches _) (hf'.right reserving hu.free reserving')
  refine ⟨q', new', ?_, hq', reserving'.trans hg'⟩
  refine (nestedType_new ?_ hrc hc' fun hf => ?_).mpr ⟨unreserved, rfl, eta.symm ▸ hrun'⟩
  · rw [hrn, Site.targetNamespace_of_bare h]
  · exact Inventory.isCompiled_eq_false (hs'.alias?_eq_none hf) absent

theorem Unfolds.nestedType (hn : NestedAlike S T names nested nested') {s t : Site}
    (h : s.bare = t.bare) (element : String) :
    Unfolds S T names root [] (Progress.InsideLeaves S names root name leaves)
      (fun a b q => a = b ∧ q.Met S names root name leaves element a)
      (Compile.nestedType nested root element s) (Compile.nestedType nested' root element t) := by
  intro p ref q hp hi hr
  cases hc : p.inventory.canonical? (ownerOfNested root element) with
  | none =>
    obtain ⟨y, new, hm, hu⟩ := nestedType_of_new hn h hp hi hc hr
    exact ⟨ref, y, new, ⟨rfl, hm⟩, hu⟩
  | some c =>
    obtain ⟨r, hr', ho, rfl⟩ := Inventory.exists_of_canonical? hc
    obtain ⟨hk, hm⟩ := hi.nested r hr' element ho
    obtain ⟨rfl, rfl⟩ := (nestedType_again hc hk).mp hr
    refine ⟨_, ⟨[], [], []⟩, [], ⟨rfl, hi.mono (List.subset_cons_self _ _), .inr hm⟩, hp, .refl _,
      Progress.free_quiet _ _, Yield.under_quiet _ _, ?_⟩
    intro p' hs' hmatch _
    obtain ⟨hc', hk'⟩ := hmatch element r.canonical hc
    refine ⟨p', [], (nestedType_again hc' hk').mpr ⟨?_, rfl⟩, hs', .refl _⟩
    rw [Site.targetNamespace_of_bare h]

end Compile

end WsdlCatalog
