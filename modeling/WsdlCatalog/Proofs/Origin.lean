/-
  WsdlCatalog.Proofs.Origin — what the types of a catalog come of.

  A type of a catalog is an entry that was compiled from a definition, with the members of
  its base if it extends one. The service description is read after that; it may refer to
  simple types, but leaves the complex ones alone.

  Proved: every type of a catalog comes of a definition (`Staged.origin`), every entry became
  a type of the catalog (`Staged.completes`), and no two types have one name
  (`Staged.nodup_names`).
-/

import WsdlCatalog.Proofs.CanonicalTypes
import WsdlCatalog.Proofs.Established
import WsdlCatalog.Proofs.Lockstep.Interface
import WsdlCatalog.Proofs.Stages
import WsdlCatalog.Proofs.Strictness

namespace WsdlCatalog

/-! ## Own types -/

namespace Compile

variable {S : Setting} {owner : String} {name : QName} {anonymous : Bool} {site : Site}
  {t : StructuralType}

theorem Made.named (h : Made S owner name anonymous site t) :
    t.name = some owner ∧ t.qname = some name ∧ t.anonymous = anonymous := by
  obtain ⟨depth, body, p, q, -, -, rfl⟩ := h
  exact ⟨rfl, rfl, rfl⟩

theorem Made.ownMembers (h : Made S owner name anonymous site t) : t.OwnMembers := by
  obtain ⟨depth, body, p, q, -, hr, rfl⟩ := h
  exact ownMembers_toType (collected_bodyOf hr) _ _ _ _ _

/-- Entries stand under the names of their types, whose members are their own. -/
theorem Entered.own {i : Inventory} (h : Entered S i) :
    ∀ x ∈ i.types, x.1 = x.2.name ∧ x.2.OwnMembers := by
  intro x hx
  obtain ⟨owner, name, anonymous, site, hk, entry⟩ := h x hx
  exact ⟨hk.trans entry.made.named.1.symm, entry.made.ownMembers⟩

end Compile

namespace Extension

variable {types : Table} {n : Nat} {k : Owner} {t : StructuralType}

theorem Full.named (hown : ∀ x ∈ types, x.1 = x.2.name ∧ x.2.OwnMembers) (h : Full types n k t) :
    t.name = k := by
  obtain ⟨u, hu, hn, -⟩ := h.origin
  exact hn.trans (hown _ hu).1.symm

theorem Full.distinct (hown : ∀ x ∈ types, x.1 = x.2.name ∧ x.2.OwnMembers)
    (h : Full types n k t) : t.Distinct := by
  induction h with
  | own hl _ => exact (hown _ (mem_of_lookup hl)).2.toDistinct
  | extending hl _ _ hc ih => exact ((hown _ (mem_of_lookup hl)).2.compose ih hc).2

end Extension

/-! ## Types of catalogs -/

/-- A type of a catalog is an own type, with the members of its base if it extends one. -/
inductive Catalog.Completes (c : Catalog) : StructuralType → StructuralType → Prop where
  | own {t : StructuralType} (hb : t.base = none) : Completes c t t
  | extending {own base t : StructuralType} {b : String} (hb : own.base = some b)
    (hm : base ∈ c.types) (hn : base.name = some b) (hc : own.compose base = .ok t) :
    Completes c own t

theorem Catalog.Completes.same {c : Catalog} {own t : StructuralType} (h : c.Completes own t) :
    t.name = own.name ∧ t.qname = own.qname ∧ t.base = own.base ∧ t.anonymous = own.anonymous := by
  cases h with
  | own => exact ⟨rfl, rfl, rfl, rfl⟩
  | extending _ _ _ hc =>
    unfold StructuralType.compose at hc
    obtain ⟨attributes, -, hc⟩ := ok_bind.mp hc
    obtain ⟨elements, -, hc⟩ := ok_bind.mp hc
    cases hc
    exact ⟨rfl, rfl, rfl, rfl⟩

namespace Compile

/-- A type of a catalog comes of the definition at a site, which an own type was made from. -/
structure ComesOf (S : Setting) (c : Catalog) (owner : String) (name : QName) (site : Site)
    (own t : StructuralType) : Prop where
  canonical : t.name = some owner
  qname : t.qname = some name
  defined : Defined S owner name t.anonymous site
  made : Made S owner name t.anonymous site own
  completes : c.Completes own t

theorem Made.comesOf {S : Setting} {c : Catalog} {owner : String} {name : QName} {anonymous : Bool}
    {site : Site} {own t : StructuralType} (hm : Made S owner name anonymous site own)
    (hd : Defined S owner name anonymous site) (hc : c.Completes own t) :
    ComesOf S c owner name site own t := by
  obtain ⟨hname, hqname, -, hanonymous⟩ := hc.same
  obtain ⟨name', qname', anonymous'⟩ := hm.named
  have same := hanonymous.trans anonymous'
  exact ⟨hname.trans name', hqname.trans qname', same ▸ hd, same ▸ hm, hc⟩

variable {S : Setting} {set : SchemaSet} {q : Progress} {c : Catalog} {compiled : Progress}
  {types : List (Option String × StructuralType)} {aliases : List ScalarAlias}
  {sorted : List StructuralType} {operations : List Operation} {serviceName : Option String}
  {displayName : Loose String}

/-- The service description adds nothing to the types. -/
theorem kept_described (types : List (Option String × StructuralType)) :
    Kept fun p => p.inventory.types = types ∧ ∀ x ∈ p.inventory.aliases, x.2.Canonical where
  note _ _ h := h
  entered h _ ha := by
    refine ⟨h.1, fun x hx => ?_⟩
    rcases mem_put hx with rfl | hx
    · exact ha
    · exact h.2 x hx
  known h := h.2

section

variable (h : Staged S set .start q c compiled types aliases sorted operations serviceName displayName)

include h

theorem Staged.established : Established S compiled.inventory := by
  obtain ⟨reserved, hr, hc⟩ := h.jobs
  exact established_of_jobs hr hc

theorem Staged.described :
    q.inventory.types = types ∧ ∀ x ∈ q.inventory.aliases, x.2.Canonical := by
  have known := fun x hx => (h.established.tidy.aliases x hx).2
  refine ((kept_described types).lockstep (S := S).interface ?_ (rfl : set.location = set.location)
    rfl (Progress.withTypes compiled types) _ _ ⟨rfl, known⟩ h.interface).1
  intro interface name portType p _ q hp hr
  rw [runs_addDiagnostic] at hr
  subst hr
  exact ⟨hp, (), rfl⟩

theorem Staged.perm_types : c.types.Perm (types.map (·.2)) := by
  have sorted := perm_of_byCanonical h.sortedTypes
  rw [h.described.1] at sorted
  rw [h.catalog]
  exact sorted

/-- The types of a catalog are the entries with the members of their bases. -/
theorem Staged.mem_types_iff {t : StructuralType} :
    t ∈ c.types ↔ ∃ n k, Extension.Full compiled.inventory.types n k t := by
  obtain ⟨finished, keys⟩ := Extension.expand_sound h.expand
  refine h.perm_types.mem_iff.trans (List.mem_map.trans ⟨?_, ?_⟩)
  · intro given
    rcases given with ⟨x, hx, rfl⟩
    obtain ⟨n, full⟩ := finished.full x hx
    exact ⟨n, x.1, full⟩
  · intro given
    rcases given with ⟨n, k, full⟩
    obtain ⟨x, hx, rfl⟩ := List.mem_map.mp ((keys k).mpr full.mem_keys)
    obtain ⟨m, full'⟩ := finished.full x hx
    exact ⟨x, hx, (full'.unique full).2⟩

theorem Staged.distinct : ∀ t ∈ c.types, t.Distinct := by
  intro t ht
  obtain ⟨n, k, full⟩ := h.mem_types_iff.mp ht
  exact full.distinct h.established.entered.own

theorem Staged.completes_of_full {n : Nat} {k : Option String} {own t : StructuralType}
    (hl : compiled.inventory.types.lookup k = some own)
    (full : Extension.Full compiled.inventory.types n k t) : c.Completes own t := by
  cases full with
  | own hl' hb =>
    obtain rfl := Option.some.inj (hl.symm.trans hl')
    exact .own hb
  | extending hl' hb hbase hc =>
    obtain rfl := Option.some.inj (hl.symm.trans hl')
    exact .extending hb (h.mem_types_iff.mpr ⟨_, _, hbase⟩)
      (hbase.named h.established.entered.own) hc

/-- A type of a catalog comes of the definition of its entry. -/
theorem Staged.origin {t : StructuralType} (ht : t ∈ c.types) :
    ∃ owner name anonymous site own, (some owner, own) ∈ compiled.inventory.types ∧
      Entry S compiled.inventory owner name anonymous site own ∧ c.Completes own t := by
  obtain ⟨n, k, full⟩ := h.mem_types_iff.mp ht
  obtain ⟨own, hown, -⟩ := full.origin
  obtain ⟨owner, name, anonymous, site, rfl, entry⟩ := h.established.entered _ hown
  have hl := lookup_of_mem h.established.tidy.typeKeys hown
  exact ⟨owner, name, anonymous, site, own, hown, entry, h.completes_of_full hl full⟩

/-- Every entry becomes a type of the catalog. -/
theorem Staged.completes {k : Option String} {own : StructuralType}
    (hown : (k, own) ∈ compiled.inventory.types) : ∃ t ∈ c.types, c.Completes own t := by
  obtain ⟨finished, keys⟩ := Extension.expand_sound h.expand
  obtain ⟨x, hx, hk⟩ := List.mem_map.mp ((keys k).mpr (List.mem_map_of_mem hown))
  obtain ⟨n, full⟩ := finished.full x hx
  have hl := lookup_of_mem h.established.tidy.typeKeys hown
  exact ⟨x.2, h.mem_types_iff.mpr ⟨n, x.1, full⟩, h.completes_of_full (hk ▸ hl) full⟩

/-- No two types of a catalog have one name. -/
theorem Staged.nodup_names : (c.types.map (·.name)).Nodup := by
  obtain ⟨finished, -⟩ := Extension.expand_sound h.expand
  rw [(h.perm_types.map _).nodup_iff, List.map_map]
  have keys : types.map ((·.name) ∘ (·.2)) = types.map Prod.fst := by
    refine List.map_congr_left fun x hx => ?_
    obtain ⟨n, full⟩ := finished.full x hx
    exact full.named h.established.entered.own
  rw [keys]
  exact finished.nodup

end

end Compile

namespace SchemaSet

variable {set : SchemaSet} {options : Options} {c : Catalog}

theorem exists_setting (h : (set.compile options).result = .ok c) :
    ∃ S, Setting.ofSchemaSet set options = .ok S := by
  cases hs : Setting.ofSchemaSet set options with
  | error f =>
    unfold compile at h
    rw [hs] at h
    cases h
  | ok S => exact ⟨S, rfl⟩

/-- A catalog went through all stages. -/
theorem exists_staged {S : Setting} (hs : Setting.ofSchemaSet set options = .ok S)
    (h : (set.compile options).result = .ok c) :
    ∃ q compiled types aliases sorted operations serviceName name,
      Compile.Staged S set .start q c compiled types aliases sorted operations serviceName name := by
  rw [result_compile hs] at h
  exact ⟨_, Compile.runs_catalog.mp (Prod.ext h rfl)⟩

/-- Every type of a catalog comes of a definition. -/
theorem exists_comesOf {S : Setting} (hs : Setting.ofSchemaSet set options = .ok S)
    (h : (set.compile options).result = .ok c) {t : StructuralType} (ht : t ∈ c.types) :
    ∃ owner name site own, Compile.ComesOf S c owner name site own t := by
  obtain ⟨_, _, _, _, _, _, _, _, staged⟩ := exists_staged hs h
  obtain ⟨owner, name, anonymous, site, own, -, entry, completes⟩ := staged.origin ht
  exact ⟨owner, name, site, own, entry.made.comesOf entry.defined completes⟩

end SchemaSet

end WsdlCatalog
