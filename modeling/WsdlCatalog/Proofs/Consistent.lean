/-
  WsdlCatalog.Proofs.Consistent — what is true at every point of a compilation.

  Reservations have different owners and different canonical names; a type inside another
  one is reserved after that one; an entry of a type stands under a reserved name and says
  whose it is; and what it says of other types is so (`Consistent`). A step only adds to a
  progress: reservations and entries of types, which it yields wherever it is taken, and
  entries of the simple types that were not there yet (`Growth`).
-/

import WsdlCatalog.Proofs.Declared
import WsdlCatalog.Proofs.Replay

namespace WsdlCatalog

def Inventory.typeKeys (inventory : Inventory) : List (Option String) := inventory.types.map Prod.fst

variable {S : Setting} {names : Names}

/-! ## Consistency -/

namespace Progress

/-- What a reference says is so: its type is known, or is inside another one and has an entry. -/
def Holds (S : Setting) (names : Names) (p : Progress) (ref : TypeRef) : Prop :=
  S.Knows names ref ∨ ∃ r ∈ p.inventory.reservations,
    some r.canonical ∈ p.inventory.typeKeys ∧ ref = .ofStructure r.canonical r.name.label

structure Consistent (S : Setting) (names : Names) (p : Progress) : Prop where
  sound : p.Sound S names
  owners : (p.inventory.reservations.map (·.owner)).Nodup
  canonicals : (p.inventory.reservations.map (·.canonical)).Nodup
  plain : ∀ r ∈ p.inventory.reservations, '/' ∉ r.canonical.toList
  /-- A type inside another one is reserved after it. -/
  parents : ∀ r ∈ p.inventory.reservations, ∀ parent element, '/' ∉ parent.toList →
    r.owner = ownerOfNested parent element → ∃ r' ∈ p.inventory.reservations, r'.canonical = parent
  typeKeys : p.inventory.typeKeys.Nodup
  entries : ∀ x ∈ p.inventory.types, ∃ r ∈ p.inventory.reservations,
    x.1 = some r.canonical ∧ x.2.name = some r.canonical ∧ x.2.qname = some r.name
  refs : ∀ x ∈ p.inventory.types, ∀ ref ∈ x.2.typeRefs, p.Holds S names ref
  bases : ∀ x ∈ p.inventory.types, ∀ name, x.2.base = some name →
    ∃ ref, p.Holds S names ref ∧ ref.kind = .structural ∧ ref.name = some name

variable {p q : Progress}

/-- What was said of types stays so. -/
theorem Holds.mono (hr : p.inventory.reservations ⊆ q.inventory.reservations)
    (ht : p.inventory.types ⊆ q.inventory.types) {ref : TypeRef} (h : p.Holds S names ref) :
    q.Holds S names ref := by
  rcases h with h | ⟨r, hm, hk, rfl⟩
  · exact .inl h
  · exact .inr ⟨r, hr hm, List.map_subset _ ht hk, rfl⟩

theorem Holds.congr (hr : q.inventory.reservations = p.inventory.reservations)
    (ht : q.inventory.types = p.inventory.types) {ref : TypeRef} (h : p.Holds S names ref) :
    q.Holds S names ref :=
  h.mono (hr ▸ List.Subset.refl _) (ht ▸ List.Subset.refl _)

/-- Consistency is about reservations and types, except for the entries of simple types. -/
theorem Consistent.congr (h : p.Consistent S names) (hs : q.Sound S names)
    (hr : q.inventory.reservations = p.inventory.reservations)
    (ht : q.inventory.types = p.inventory.types) : q.Consistent S names where
  sound := hs
  owners := hr ▸ h.owners
  canonicals := hr ▸ h.canonicals
  plain := hr ▸ h.plain
  parents := hr ▸ h.parents
  typeKeys := by
    unfold Inventory.typeKeys
    rw [ht]
    exact h.typeKeys
  entries := by
    rw [ht, hr]
    exact h.entries
  refs := by
    rw [ht]
    intro x hx ref href
    exact (h.refs x hx ref href).congr hr ht
  bases := by
    rw [ht]
    intro x hx name hn
    obtain ⟨ref, hh, hk, hn⟩ := h.bases x hx name hn
    exact ⟨ref, hh.congr hr ht, hk, hn⟩

/-- A name that nobody reserved is not that of an entry. -/
theorem Consistent.not_mem_typeKeys (h : p.Consistent S names) {c : String}
    (hc : ∀ r ∈ p.inventory.reservations, r.canonical ≠ c) : some c ∉ p.inventory.typeKeys := by
  intro hk
  obtain ⟨x, hx, he⟩ := List.mem_map.mp hk
  obtain ⟨r, hr, hk, -⟩ := h.entries x hx
  exact hc r hr (Option.some.inj (hk.symm.trans he))

end Progress

namespace Inventory

theorem isCompiled_eq_false {inventory : Inventory} {c : String}
    (ha : inventory.alias? (some c) = none) (ht : some c ∉ inventory.typeKeys) :
    inventory.isCompiled (some c) = false := by
  unfold isCompiled
  rw [ha]
  cases hl : inventory.type? (some c) with
  | none => rfl
  | some t => exact absurd (List.mem_map.mpr ⟨_, mem_of_lookup hl, rfl⟩) ht

theorem isCompiled_of_mem {inventory : Inventory} {c : String} (h : some c ∈ inventory.typeKeys) :
    inventory.isCompiled (some c) = true := by
  obtain ⟨x, hx, he⟩ := List.mem_map.mp h
  unfold isCompiled
  cases hl : inventory.type? (some c) with
  | some t => rw [Option.isSome_some, Bool.or_true]
  | none => exact absurd he.symm (bne_iff_ne.mp (List.lookup_eq_none_iff.mp hl x hx))

end Inventory

/-- The name of a simple type with an entry is reserved. -/
theorem Progress.Sound.reserved {p : Progress} (hp : p.Sound S names)
    {c : String} {a : ScalarAlias} (h : p.inventory.alias? (some c) = some a) :
    ∃ d, S.IsSimple d ∧ names (ownerOfType d.name) = some c ∧
      ∃ r ∈ p.inventory.reservations, r.canonical = c := by
  obtain ⟨hk, d, hd, n, shape, -, rfl⟩ := hp.aliases _ (mem_of_lookup h)
  have hn : names (ownerOfType d.name) = some c := hk.symm
  obtain ⟨r, hr, -, hc⟩ := Inventory.exists_of_canonical? (hp.canonical _ c hn)
  exact ⟨d, hd, hn, r, hr, hc⟩

/-! ## Yields -/

/-- What a step adds wherever it is taken: the reports of its own, the types inside others that it
reserves, and the entries of types. -/
structure Yield where
  own : List Report
  reservations : List Reservation
  types : List (Option String × StructuralType)

namespace Yield

def append (y z : Yield) : Yield :=
  ⟨y.own ++ z.own, y.reservations ++ z.reservations, y.types ++ z.types⟩

/-- What steps add one after another. -/
def concat : List Yield → Yield
  | [] => ⟨[], [], []⟩
  | y :: ys => y.append (concat ys)

def keys (y : Yield) : List (Option String) := y.types.map Prod.fst

theorem keys_append (y z : Yield) : (y.append z).keys = y.keys ++ z.keys := List.map_append

/-- The reservations are of types inside the `roots` or inside each other, and the entries are of
these types and of the `entered` ones. -/
structure Under (roots entered : List String) (y : Yield) : Prop where
  compiled : ∀ r ∈ y.reservations, some r.canonical ∈ y.keys
  parents : ∀ r ∈ y.reservations, ∃ parent element, r.owner = ownerOfNested parent element ∧
    '/' ∉ parent.toList ∧ (parent ∈ roots ∨ ∃ r' ∈ y.reservations, r'.canonical = parent)
  keys : ∀ k ∈ y.keys, (∃ c ∈ entered, k = some c) ∨ ∃ r ∈ y.reservations, k = some r.canonical
  entered : ∀ c ∈ entered, some c ∈ y.keys

theorem under_quiet (roots : List String) (own : List Report) : Under roots [] ⟨own, [], []⟩ where
  compiled _ h := absurd h List.not_mem_nil
  parents _ h := absurd h List.not_mem_nil
  keys _ h := absurd h List.not_mem_nil
  entered _ h := absurd h List.not_mem_nil

theorem Under.append {roots entered entered' : List String} {y z : Yield}
    (h : y.Under roots entered) (h' : z.Under roots entered') :
    (y.append z).Under roots (entered ++ entered') where
  compiled r hr := by
    rw [keys_append]
    rcases List.mem_append.mp hr with hr | hr
    · exact List.mem_append_left _ (h.compiled r hr)
    · exact List.mem_append_right _ (h'.compiled r hr)
  parents r hr := by
    rcases List.mem_append.mp hr with hr | hr
    · obtain ⟨parent, element, ho, hs, hp | ⟨r', hr', hc⟩⟩ := h.parents r hr
      · exact ⟨parent, element, ho, hs, .inl hp⟩
      · exact ⟨parent, element, ho, hs, .inr ⟨r', List.mem_append_left _ hr', hc⟩⟩
    · obtain ⟨parent, element, ho, hs, hp | ⟨r', hr', hc⟩⟩ := h'.parents r hr
      · exact ⟨parent, element, ho, hs, .inl hp⟩
      · exact ⟨parent, element, ho, hs, .inr ⟨r', List.mem_append_right _ hr', hc⟩⟩
  keys k hk := by
    rw [keys_append] at hk
    rcases List.mem_append.mp hk with hk | hk
    · rcases h.keys k hk with ⟨c, hc, he⟩ | ⟨r, hr, he⟩
      · exact .inl ⟨c, List.mem_append_left _ hc, he⟩
      · exact .inr ⟨r, List.mem_append_left _ hr, he⟩
    · rcases h'.keys k hk with ⟨c, hc, he⟩ | ⟨r, hr, he⟩
      · exact .inl ⟨c, List.mem_append_right _ hc, he⟩
      · exact .inr ⟨r, List.mem_append_right _ hr, he⟩
  entered c hc := by
    rw [keys_append]
    rcases List.mem_append.mp hc with hc | hc
    · exact List.mem_append_left _ (h.entered c hc)
    · exact List.mem_append_right _ (h'.entered c hc)

end Yield

namespace Progress

/-- From `p` to `q` a yield was added, and the simple types `new` became entries with what is
reported of them. -/
structure Growth (S : Setting) (p q : Progress) (y : Yield) (new : List ScalarAlias) : Prop where
  inventory : q.inventory =
    { reservations := p.inventory.reservations ++ y.reservations
      aliases := p.inventory.aliases ++ new.map fun a => (a.name, a)
      types := p.inventory.types ++ y.types }
  reported : ∃ rs, rs.Perm (y.own ++ new.flatMap S.aliasReports) ∧ p.Reported q rs

structure Free (p : Progress) (y : Yield) : Prop where
  owners : ∀ r ∈ y.reservations, ∀ x ∈ p.inventory.reservations, x.owner ≠ r.owner
  canonicals : ∀ r ∈ y.reservations, ∀ x ∈ p.inventory.reservations, x.canonical ≠ r.canonical
  keys : ∀ k ∈ y.keys, k ∉ p.inventory.typeKeys

variable {p q r : Progress} {y z : Yield} {new new' : List ScalarAlias}

theorem Delta.growth {own : List Report} (h : Delta S p q own new) :
    Growth S p q ⟨own, [], []⟩ new where
  inventory := by
    rw [h.inventory]
    simp only [List.append_nil]
  reported := h.reported

namespace Growth

theorem refl (p : Progress) : Growth S p p ⟨[], [], []⟩ [] := (Delta.refl p).growth

theorem reservations (h : Growth S p q y new) :
    q.inventory.reservations = p.inventory.reservations ++ y.reservations := by
  rw [h.inventory]

theorem types (h : Growth S p q y new) : q.inventory.types = p.inventory.types ++ y.types := by
  rw [h.inventory]

theorem typeKeys (h : Growth S p q y new) : q.inventory.typeKeys = p.inventory.typeKeys ++ y.keys := by
  unfold Inventory.typeKeys Yield.keys
  rw [h.types, List.map_append]

theorem trans (h : Growth S p q y new) (h' : Growth S q r z new') :
    Growth S p r (y.append z) (new ++ new') where
  inventory := by
    rw [h'.inventory, h.inventory]
    simp only [Yield.append, List.append_assoc, List.map_append]
  reported := by
    obtain ⟨rs, hp, hr⟩ := h.reported
    obtain ⟨rs', hp', hr'⟩ := h'.reported
    refine ⟨rs ++ rs', (hp.append hp').trans ?_, hr.trans hr'⟩
    rw [List.flatMap_append]
    exact perm_reports y.own _ z.own _

/-- What was said of types stays so. -/
theorem holds (h : Growth S p q y new) {T : Setting} {ref : TypeRef} (hr : p.Holds T names ref) :
    q.Holds T names ref :=
  hr.mono (h.reservations ▸ List.subset_append_left _ _) (h.types ▸ List.subset_append_left _ _)

/-- An owner keeps its canonical name, or gets the one that was yielded. -/
theorem canonical? (h : Growth S p q y new) (owner : String) :
    q.inventory.canonical? owner =
      (p.inventory.canonical? owner).or ((Inventory.mk y.reservations [] []).canonical? owner) := by
  unfold Inventory.canonical?
  rw [h.reservations, List.find?_append]
  cases p.inventory.reservations.find? (·.owner == owner) <;> rfl

end Growth

theorem free_quiet (p : Progress) (own : List Report) : p.Free ⟨own, [], []⟩ where
  owners _ h := absurd h List.not_mem_nil
  canonicals _ h := absurd h List.not_mem_nil
  keys _ h := absurd h List.not_mem_nil

/-- What is free before a yield and after it is free with it. -/
theorem Free.append (h : p.Free y) (hg : Growth S p q y new) (h' : q.Free z) :
    p.Free (y.append z) where
  owners r hr x hx := by
    rcases List.mem_append.mp hr with hr | hr
    · exact h.owners r hr x hx
    · exact h'.owners r hr x (hg.reservations ▸ List.mem_append_left _ hx)
  canonicals r hr x hx := by
    rcases List.mem_append.mp hr with hr | hr
    · exact h.canonicals r hr x hx
    · exact h'.canonicals r hr x (hg.reservations ▸ List.mem_append_left _ hx)
  keys k hk := by
    rw [Yield.keys_append] at hk
    rcases List.mem_append.mp hk with hk | hk
    · exact h.keys k hk
    · intro hm
      refine h'.keys k hk ?_
      rw [hg.typeKeys]
      exact List.mem_append_left _ hm

theorem Free.left (h : p.Free (y.append z)) : p.Free y where
  owners r hr := h.owners r (List.mem_append_left _ hr)
  canonicals r hr := h.canonicals r (List.mem_append_left _ hr)
  keys k hk := h.keys k (by rw [Yield.keys_append]; exact List.mem_append_left _ hk)

/-- What is free after the same yield elsewhere is free here. -/
theorem Free.right {T : Setting} {p' q' : Progress} (h : p'.Free (y.append z))
    (hg : Growth S p q y new) (hq : q.Free z) (hg' : Growth T p' q' y new') : q'.Free z where
  owners r hr x hx := by
    rw [hg'.reservations] at hx
    rcases List.mem_append.mp hx with hx | hx
    · exact h.owners r (List.mem_append_right _ hr) x hx
    · exact hq.owners r hr x (hg.reservations ▸ List.mem_append_right _ hx)
  canonicals r hr x hx := by
    rw [hg'.reservations] at hx
    rcases List.mem_append.mp hx with hx | hx
    · exact h.canonicals r (List.mem_append_right _ hr) x hx
    · exact hq.canonicals r hr x (hg.reservations ▸ List.mem_append_right _ hx)
  keys k hk hm := by
    rw [hg'.typeKeys] at hm
    rcases List.mem_append.mp hm with hm | hm
    · exact h.keys k (by rw [Yield.keys_append]; exact List.mem_append_right _ hk) hm
    · refine hq.keys k hk ?_
      rw [hg.typeKeys]
      exact List.mem_append_right _ hm

end Progress

end WsdlCatalog
