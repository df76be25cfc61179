/-
  WsdlCatalog.Proofs.Definition — where complex types are defined.

  A complex type is declared, or stands inside a global element, or inside an element of the
  content model of another type. Inside another type it is known by the name of its element,
  so of the elements of one name the first with a type inside it defines one for all of them
  (`Defined`).

  What is reserved and entered so far follows the way names are asked for (`Inventory.Tidy`),
  and compiling a type reserves nothing inside types that were there before
  (`Inventory.Grown`).
-/

import WsdlCatalog.Proofs.Consistent
import WsdlCatalog.Proofs.Keeping
import WsdlCatalog.Proofs.Occurrence

namespace WsdlCatalog

/-! ## Definitions -/

/-- The complex type inside an element that has no other type. -/
def Site.inner? (site : Site) : Option Site :=
  match site.node.filled? "ref", site.node.filled? "type" with
  | none, none => (site.node.child? Vocabulary.xsd "complexType").map site.atNode
  | _, _ => none

namespace Declarations

def first? (ds : Declarations) (element : String) (sites : List Site) : Option Site :=
  sites.find? (ds.nameOf · == element)

/-- The complex type inside the first element of a name that has one. -/
def firstInner? (ds : Declarations) (element : String) (sites : List Site) : Option Site :=
  sites.findSome? fun site => if ds.nameOf site == element then site.inner? else none

variable {ds : Declarations} {element : String} {sites more : List Site} {site inner : Site}

theorem firstInner?_append (h : ds.firstInner? element sites = some inner) :
    ds.firstInner? element (sites ++ more) = some inner := by
  unfold firstInner? at h ⊢
  rw [List.findSome?_append, h, Option.some_or]

theorem firstInner?_append_none (h : ds.firstInner? element sites = none) :
    ds.firstInner? element (sites ++ more) = ds.firstInner? element more := by
  unfold firstInner? at h ⊢
  rw [List.findSome?_append, h, Option.none_or]

theorem firstInner?_singleton :
    ds.firstInner? element [site] = if ds.nameOf site = element then site.inner? else none := by
  unfold firstInner?
  simp only [List.findSome?_cons, List.findSome?_nil, beq_iff_eq]
  split
  · rename_i h
    exact h.symm
  · rename_i h
    exact h.symm

/-- If the first element of a name has a type inside it, no other one comes before it. -/
theorem firstInner?_of_first? (h : ds.first? element sites = some site) (hi : site.inner? = some inner) :
    ds.firstInner? element sites = some inner := by
  unfold first? at h
  unfold firstInner?
  induction sites with
  | nil => cases h
  | cons s rest ih =>
    rw [List.find?_cons] at h
    rw [List.findSome?_cons]
    cases hs : ds.nameOf s == element with
    | true =>
      rw [hs] at h
      obtain rfl := Option.some.inj h
      rw [if_pos rfl, hi]
    | false =>
      rw [hs] at h
      exact ih h

end Declarations

namespace Compile

def contentSites (ds : Declarations) (owner : String) (site : Site) : List Site :=
  (Particle.leavesOf (contentModel ds (some owner) site)).map Prod.fst

def nestedName (owner element : String) (inner : Site) : QName :=
  ⟨some inner.document.targetNamespace, owner ++ Text.pascal element⟩

/-- The definition of a complex type: the canonical name of the type that becomes of it, the name
that it is for, whether that is a name of its own, and where it is. Names of one key share a
canonical name. -/
inductive Defined (S : Setting) : String → QName → Bool → Site → Prop where
  | type {d : Declaration} (hd : d ∈ S.declarations.inSpace .type) (hc : d.isSimpleType = false)
    {same : QName} (hk : same.key = d.name.key) :
    Defined S (Text.pascal same.localPart) d.name false d.site
  | element {d : Declaration} (hd : d ∈ elementsWithTypes S) {inner : Xml.Node}
    (hi : d.site.node.child? Vocabulary.xsd "complexType" = some inner)
    {same : QName} (hk : same.key = d.name.key) :
    Defined S (Text.pascal same.localPart) d.name true (d.site.atNode inner)
  | nested {owner element : String} {name : QName} {anonymous : Bool} {site inner : Site}
    (h : Defined S owner name anonymous site)
    (hi : S.declarations.firstInner? element (contentSites S.declarations owner site) = some inner) :
    Defined S (owner ++ Text.pascal element) (nestedName owner element inner) true inner

/-- A type with a name of its own is declared. -/
theorem Defined.declaration {S : Setting} {owner : String} {name : QName} {anonymous : Bool}
    {site : Site} (h : Defined S owner name anonymous site) (hn : anonymous = false) :
    ∃ d ∈ S.declarations.inSpace .type, d.isSimpleType = false ∧ name = d.name ∧ site = d.site ∧
      ∃ same : QName, same.key = d.name.key ∧ owner = Text.pascal same.localPart := by
  cases h with
  | type hd hc hk => exact ⟨_, hd, hc, rfl, rfl, _, hk, rfl⟩
  | element => cases hn
  | nested => cases hn

end Compile

/-! ## Reservations -/

inductive Reservation.Asked : Reservation → Prop where
  | type (name : QName) : Asked ⟨ownerOfType name, Text.pascal name.localPart, name⟩
  | element (name : QName) : Asked ⟨ownerOfElement name, Text.pascal name.localPart, name⟩
  | nested {parent : String} (hp : '/' ∉ parent.toList) (element : String) (name : QName) :
    Asked ⟨ownerOfNested parent element, parent ++ Text.pascal element, name⟩

namespace Reservation

variable {r : Reservation}

theorem slash_not_mem_nested {parent : String} (hp : '/' ∉ parent.toList) (element : String) :
    '/' ∉ (parent ++ Text.pascal element).toList := by
  rw [String.toList_append, List.mem_append, not_or]
  exact ⟨hp, Text.slash_not_mem_pascal element⟩

theorem Asked.plain (h : r.Asked) : '/' ∉ r.canonical.toList := by
  cases h with
  | type => exact Text.slash_not_mem_pascal _
  | element => exact Text.slash_not_mem_pascal _
  | nested hp element name => exact slash_not_mem_nested hp element

theorem Asked.canonical_nested (h : r.Asked) {parent element : String} (hp : '/' ∉ parent.toList)
    (ho : r.owner = ownerOfNested parent element) : r.canonical = parent ++ Text.pascal element := by
  cases h with
  | type => exact absurd ho (ownerOfType_ne_nested _ _ _)
  | element => exact absurd ho (ownerOfElement_ne_nested _ _ _)
  | nested hp' element' name =>
    obtain ⟨rfl, rfl⟩ := ownerOfNested_injective hp' hp ho
    rfl

theorem Asked.canonical_type (h : r.Asked) {name : QName} (ho : r.owner = ownerOfType name) :
    ∃ same : QName, same.key = name.key ∧ r.canonical = Text.pascal same.localPart := by
  cases h with
  | type same => exact ⟨same, String.append_right_inj _ |>.mp ho, rfl⟩
  | element => exact absurd ho.symm (ownerOfType_ne_element _ _)
  | nested hp element => exact absurd ho.symm (ownerOfType_ne_nested _ _ _)

theorem Asked.canonical_element (h : r.Asked) {name : QName} (ho : r.owner = ownerOfElement name) :
    ∃ same : QName, same.key = name.key ∧ r.canonical = Text.pascal same.localPart := by
  cases h with
  | type => exact absurd ho (ownerOfType_ne_element _ _)
  | element same => exact ⟨same, String.append_right_inj _ |>.mp ho, rfl⟩
  | nested hp element => exact absurd ho.symm (ownerOfElement_ne_nested _ _ _)

end Reservation

/-! ## Inventories -/

namespace Inventory

def Held (i : Inventory) (canonical : String) : Prop := ∃ r ∈ i.reservations, r.canonical = canonical

/-- The owner of a canonical name is a type with a name of its own, or one without. -/
def HeldAs (i : Inventory) (canonical : String) (anonymous : Bool) : Prop :=
  ∃ r ∈ i.reservations, r.canonical = canonical ∧
    (anonymous = false ↔ ∃ name, r.owner = ownerOfType name)

structure Tidy (i : Inventory) : Prop where
  asked : ∀ r ∈ i.reservations, r.Asked
  canonicals : (i.reservations.map (·.canonical)).Nodup
  /-- A type inside another one is reserved after it. -/
  parents : ∀ r ∈ i.reservations, ∀ parent element, '/' ∉ parent.toList →
    r.owner = ownerOfNested parent element → i.Held parent
  aliases : ∀ x ∈ i.aliases, (∀ c, x.1 = some c → i.Held c) ∧ x.2.Canonical
  typeKeys : i.typeKeys.Nodup
  types : ∀ k ∈ i.typeKeys, ∃ c, k = some c ∧ i.Held c

theorem tidy_empty : empty.Tidy where
  asked _ h := absurd h List.not_mem_nil
  canonicals := List.nodup_nil
  parents _ h := absurd h List.not_mem_nil
  aliases _ h := absurd h List.not_mem_nil
  typeKeys := List.nodup_nil
  types _ h := absurd h List.not_mem_nil

variable {i j : Inventory}

theorem Held.plain (hi : i.Tidy) {c : String} (h : i.Held c) : '/' ∉ c.toList := by
  obtain ⟨r, hr, rfl⟩ := h
  exact (hi.asked r hr).plain

theorem Tidy.not_mem_typeKeys (hi : i.Tidy) {c : String} (h : ¬ i.Held c) : some c ∉ i.typeKeys := by
  intro hk
  obtain ⟨c', he, hc⟩ := hi.types _ hk
  exact h (Option.some.inj he ▸ hc)

theorem Tidy.not_compiled (hi : i.Tidy) {c : String} (h : ¬ i.Held c) :
    i.isCompiled (some c) = false := by
  refine isCompiled_eq_false ?_ (hi.not_mem_typeKeys h)
  cases ha : i.alias? (some c) with
  | none => rfl
  | some a => exact absurd ((hi.aliases _ (mem_of_lookup ha)).1 c rfl) h

theorem not_held {canonical : String} : ¬ i.Held canonical ↔ ∀ r ∈ i.reservations, r.canonical ≠ canonical := by
  unfold Held
  simp only [not_exists, not_and, ne_eq]

/-- A name that nobody has may be reserved for an owner; the type around it is there. -/
theorem Tidy.reserving (hi : i.Tidy) {r : Reservation} (ha : r.Asked) (hc : ¬ i.Held r.canonical)
    (hp : ∀ parent element, '/' ∉ parent.toList → r.owner = ownerOfNested parent element →
      i.Held parent) : Tidy { i with reservations := i.reservations ++ [r] } := by
  have held {c : String} (h : i.Held c) : Held { i with reservations := i.reservations ++ [r] } c :=
    h.imp fun _ hr => ⟨List.mem_append_left _ hr.1, hr.2⟩
  refine ⟨?_, ?_, ?_, ?_, hi.typeKeys, ?_⟩
  · exact List.forall_mem_append.mpr ⟨hi.asked, List.forall_mem_singleton.mpr ha⟩
  · rw [List.map_append, List.nodup_append]
    refine ⟨hi.canonicals, List.nodup_singleton _, ?_⟩
    rintro c hm _ hn rfl
    obtain ⟨r', hr', he⟩ := List.mem_map.mp hm
    exact hc ⟨r', hr', he.trans (List.mem_singleton.mp hn)⟩
  · refine List.forall_mem_append.mpr ⟨?_, List.forall_mem_singleton.mpr ?_⟩
    · exact fun x hx parent element hs ho => held (hi.parents x hx parent element hs ho)
    · exact fun parent element hs ho => held (hp parent element hs ho)
  · exact fun x hx => (hi.aliases x hx).imp (fun h c hc => held (h c hc)) id
  · exact fun k hk => (hi.types k hk).imp fun _ h => h.imp id held

/-- A simple type is entered under the name of an owner. -/
theorem Tidy.withAlias (hi : i.Tidy) {a : ScalarAlias} {owner : String}
    (hn : a.name = i.canonical? owner) (ha : a.Canonical) : (i.addAlias a).Tidy where
  asked := hi.asked
  canonicals := hi.canonicals
  parents := hi.parents
  aliases := by
    intro x hx
    rcases mem_put hx with rfl | hx
    · refine ⟨fun c hc => ?_, ha⟩
      obtain ⟨r, hr, -, he⟩ := exists_of_canonical? (hn.symm.trans hc)
      exact ⟨r, hr, he⟩
    · exact hi.aliases x hx
  typeKeys := hi.typeKeys
  types := hi.types

structure Grown (root : String) (i j : Inventory) : Prop where
  reservations : i.reservations ⊆ j.reservations
  types : i.types ⊆ j.types
  /-- What is new is inside the type, or inside something that is new and has an entry. -/
  fresh : ∀ r ∈ j.reservations, r ∉ i.reservations → ∃ parent element, '/' ∉ parent.toList ∧
    r.owner = ownerOfNested parent element ∧
      (parent = root ∨ ¬ i.Held parent ∧ some parent ∈ j.typeKeys)
  keys : ∀ k ∈ j.typeKeys, k ∈ i.typeKeys ∨ k = some root ∨ ∃ c, k = some c ∧ ¬ i.Held c
  /-- What is new has an entry. -/
  compiled : ∀ r ∈ j.reservations, r ∉ i.reservations → some r.canonical ∈ j.typeKeys

theorem Held.mono {c : String} (hs : i.reservations ⊆ j.reservations) (h : i.Held c) : j.Held c :=
  h.imp fun _ hr => ⟨hs hr.1, hr.2⟩

theorem HeldAs.mono {c : String} {anonymous : Bool} (hs : i.reservations ⊆ j.reservations)
    (h : i.HeldAs c anonymous) : j.HeldAs c anonymous := h.imp fun _ hr => ⟨hs hr.1, hr.2⟩

theorem HeldAs.held {c : String} {anonymous : Bool} (h : i.HeldAs c anonymous) : i.Held c :=
  h.imp fun _ hr => ⟨hr.1, hr.2.1⟩

theorem typeKeys_mono (hs : i.types ⊆ j.types) : i.typeKeys ⊆ j.typeKeys := List.map_subset _ hs

theorem Grown.refl (root : String) (i : Inventory) : Grown root i i :=
  ⟨List.Subset.refl _, List.Subset.refl _, fun _ h hn => absurd h hn, fun _ h => .inl h,
    fun _ h hn => absurd h hn⟩

theorem Grown.trans {root : String} {k : Inventory} (h : Grown root i j) (h' : Grown root j k) :
    Grown root i k where
  reservations := List.Subset.trans h.reservations h'.reservations
  types := List.Subset.trans h.types h'.types
  fresh r hr hn := by
    by_cases hj : r ∈ j.reservations
    · obtain ⟨parent, element, hs, ho, hp⟩ := h.fresh r hj hn
      exact ⟨parent, element, hs, ho, hp.imp id (And.imp id (@typeKeys_mono _ _ h'.types _))⟩
    · obtain ⟨parent, element, hs, ho, hp⟩ := h'.fresh r hr hj
      exact ⟨parent, element, hs, ho, hp.imp id (And.imp (mt (Held.mono h.reservations)) id)⟩
  keys key hk := by
    rcases h'.keys key hk with hk | hk | ⟨c, hk, hc⟩
    · exact h.keys key hk
    · exact .inr (.inl hk)
    · exact .inr (.inr ⟨c, hk, mt (Held.mono h.reservations) hc⟩)
  compiled r hr hn := by
    by_cases hj : r ∈ j.reservations
    · exact typeKeys_mono h'.types (h.compiled r hj hn)
    · exact h'.compiled r hr hj

def Childless (i : Inventory) (root : String) : Prop :=
  ∀ r ∈ i.reservations, ∀ element, r.owner ≠ ownerOfNested root element

/-- Inside another type than the one that was compiled nothing is new. -/
theorem Grown.foreign {root other : String} (h : Grown root i j) (hs : '/' ∉ other.toList)
    (hh : i.Held other) (hne : other ≠ root) {r : Reservation} (hr : r ∈ j.reservations)
    {element : String} (ho : r.owner = ownerOfNested other element) : r ∈ i.reservations := by
  by_contra hn
  obtain ⟨parent, element', hs', ho', hp⟩ := h.fresh r hr hn
  obtain ⟨rfl, -⟩ := ownerOfNested_injective hs' hs (ho'.symm.trans ho)
  rcases hp with rfl | ⟨hp, -⟩
  · exact hne rfl
  · exact hp hh

theorem Tidy.childless (hi : i.Tidy) {c : String} (hs : '/' ∉ c.toList) (h : ¬ i.Held c) :
    i.Childless c := fun r hr element ho => h (hi.parents r hr c element hs ho)

theorem not_mem_reserving {x r : Reservation} (hn : x ∉ i.reservations) (hr : x ≠ r) :
    x ∉ i.reservations ++ [r] := by
  rw [List.mem_append, List.mem_singleton, not_or]
  exact ⟨hn, hr⟩

/-- The growth by a type inside `root`, which was reserved before it was compiled. -/
theorem Grown.nested {root element : String} {r : Reservation} (hs : '/' ∉ root.toList)
    (ho : r.owner = ownerOfNested root element) (hc : ¬ i.Held r.canonical)
    (h : Grown r.canonical { i with reservations := i.reservations ++ [r] } j)
    (hk : some r.canonical ∈ j.typeKeys) : Grown root i j where
  reservations := List.Subset.trans (List.subset_append_left _ _) h.reservations
  types := h.types
  fresh x hx hn := by
    by_cases hr : x = r
    · subst hr
      exact ⟨root, element, hs, ho, .inl rfl⟩
    · obtain ⟨parent, element', hs', ho', hp⟩ := h.fresh x hx (not_mem_reserving hn hr)
      refine ⟨parent, element', hs', ho', .inr ?_⟩
      rcases hp with rfl | ⟨hp, hk⟩
      · exact ⟨hc, hk⟩
      · exact ⟨mt (Held.mono (List.subset_append_left _ _)) hp, hk⟩
  keys key hk := by
    rcases h.keys key hk with hk | hk | ⟨c, hk, hn⟩
    · exact .inl hk
    · exact .inr (.inr ⟨_, hk, hc⟩)
    · exact .inr (.inr ⟨c, hk, mt (Held.mono (List.subset_append_left _ _)) hn⟩)
  compiled x hx hn := by
    by_cases hr : x = r
    · exact hr ▸ hk
    · exact h.compiled x hx (not_mem_reserving hn hr)

/-- A type has no entry as long as only others are compiled. -/
theorem Grown.absent {root other : String} (h : Grown root i j) (hh : i.Held other)
    (hne : other ≠ root) (ha : some other ∉ i.typeKeys) : some other ∉ j.typeKeys := by
  intro hk
  rcases h.keys _ hk with hk | hk | ⟨c, hk, hc⟩
  · exact ha hk
  · exact hne (Option.some.inj hk)
  · exact hc (Option.some.inj hk ▸ hh)

end Inventory

end WsdlCatalog
