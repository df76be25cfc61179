/-
  WsdlCatalog.Proofs.Entries — what is declared and what is in the catalog.

  Every simple type that is declared becomes an alias and every complex type a type with a
  name of its own, once, under the name that it is declared by; a global element with a type
  inside it has that type in the catalog (`Catalog.Accounts`). An entry stands under a name
  that was reserved, and who reserved it tells whether it is for a declared type.

  Proved: catalogs account for what their schema sets declare, and when all jobs are done
  every reserved name has an entry (`SchemaSet.compile_accounts`).
-/

import WsdlCatalog.Proofs.Integrity
import WsdlCatalog.Proofs.Origin
import WsdlCatalog.Proofs.Sorting

namespace WsdlCatalog

/-! ## Declarations of a schema set -/

namespace SchemaSet

def declarations (set : SchemaSet) : Declarations := ⟨Declarations.declared set⟩

def simpleTypes (set : SchemaSet) : List Declaration :=
  (set.declarations.inSpace .type).filter (·.isSimpleType)

def complexTypes (set : SchemaSet) : List Declaration :=
  (set.declarations.inSpace .type).filter fun d => !d.isSimpleType

/-- The global elements with complex types inside them and no other type. -/
def typedElements (set : SchemaSet) : List Declaration :=
  (set.declarations.inSpace .element).filter fun d => Compile.hasOwnType d.site.node

end SchemaSet

def Declaration.identity (d : Declaration) : Option String × Option QName :=
  (some (Text.pascal d.name.localPart), some d.name)

/-- A catalog has one entry for each declaration, and names in order. -/
structure Catalog.Accounts (c : Catalog) (set : SchemaSet) : Prop where
  /-- No name is declared twice, so entries that have the same names correspond one to one. -/
  distinct : ∀ space, ((set.declarations.inSpace space).map (·.name)).Nodup
  aliases : (c.aliases.map fun a => (a.name, a.qname)).Perm (set.simpleTypes.map (·.identity))
  types : ((c.types.filter fun t => !t.anonymous).map fun t => (t.name, t.qname)).Perm
    (set.complexTypes.map (·.identity))
  elements : ∀ d ∈ set.typedElements,
    ∃! t, t ∈ c.types ∧ t.anonymous = true ∧ (t.name, t.qname) = d.identity
  aliasNames : ∃ names : List String, c.aliases.map (·.name) = names.map some ∧
    names.Pairwise (· < ·)
  typeNames : ∃ names : List String, c.types.map (·.name) = names.map some ∧ names.Pairwise (· < ·)
  disjoint : ∀ a ∈ c.aliases, ∀ t ∈ c.types, a.name ≠ t.name

/-- Names that increase are different. -/
theorem nodup_of_increasing {α : Type} {entries : List α} {name : α → Option String}
    (h : ∃ names : List String, entries.map name = names.map some ∧ names.Pairwise (· < ·)) :
    (entries.map name).Nodup := by
  obtain ⟨names, he, increasing⟩ := h
  have distinct : names.Nodup := increasing.imp fun {a b} hlt same => by
    rw [same] at hlt
    exact String.lt_irrefl b hlt
  rw [he]
  exact distinct.map (Option.some_injective _)

theorem nodup_identities {ds : List Declaration} (h : (ds.map (·.name)).Nodup)
    (p : Declaration → Bool) : ((ds.filter p).map (·.identity)).Nodup := by
  refine (List.Nodup.of_map Prod.snd ?_).sublist (List.filter_sublist.map _)
  have names := h.map (Option.some_injective _)
  rwa [List.map_map] at names ⊢

/-! ## Reservations -/

/-- Who asks for the name of a declared type asks for the one that it is declared by. -/
theorem Reservation.Asked.of_type {r : Reservation} (h : r.Asked) {name : QName}
    (ho : r.owner = ownerOfType name) :
    r.owner = ownerOfType r.name ∧ r.canonical = Text.pascal r.name.localPart := by
  cases h with
  | type same => exact ⟨rfl, rfl⟩
  | element => exact absurd ho.symm (ownerOfType_ne_element _ _)
  | nested => exact absurd ho.symm (ownerOfType_ne_nested _ _ _)

namespace Compile

variable {S : Setting} {set : SchemaSet} {q compiled : Progress} {c : Catalog}
  {types : List (Option String × StructuralType)} {aliases : List ScalarAlias}
  {sorted : List StructuralType} {operations : List Operation} {serviceName : Option String}
  {displayName : Loose String}

/-- The owner of a job is a declared type iff what it compiles has a name of its own. -/
theorem named_of_job {anonymous : Bool} {owner : String} {name : QName} {site : Site}
    (hj : .complex anonymous owner name site ∈ jobs S) :
    anonymous = false ↔ ∃ n, owner = ownerOfType n := by
  rcases List.mem_append.mp hj with hj | hj
  · obtain ⟨d, -, he⟩ := List.mem_map.mp hj
    unfold Job.ofType at he
    split at he
    · cases he
    · cases he
      exact ⟨fun _ => ⟨_, rfl⟩, fun _ => rfl⟩
  · obtain ⟨d, -, he⟩ := List.mem_filterMap.mp hj
    obtain ⟨inner, -, he⟩ := Option.map_eq_some_iff.mp he
    cases he
    exact ⟨nofun, fun given => absurd given.choose_spec.symm (ownerOfType_ne_element _ _)⟩

/-- The reservation that an entry stands under. -/
theorem Completed.reservation (done : Completed S compiled q types) {owner : String} {name : QName}
    {anonymous : Bool} {site : Site} {own : StructuralType}
    (hm : (some owner, own) ∈ compiled.inventory.types)
    (entry : Entry S compiled.inventory owner name anonymous site own) :
    ∃ r ∈ compiled.inventory.reservations, r.canonical = owner ∧ r.name = name ∧
      (anonymous = false ↔ ∃ n, r.owner = ownerOfType n) := by
  obtain ⟨r, hr, hc, named⟩ := entry.held
  obtain ⟨r', hr', hc', -, hq⟩ := done.consistent.entries _ hm
  have same : r' = r := List.inj_on_of_nodup_map done.consistent.canonicals hr' hr
    ((Option.some.inj hc').symm.trans hc.symm)
  refine ⟨r, hr, hc, ?_, named⟩
  rw [entry.made.named.2.1] at hq
  exact same ▸ (Option.some.inj hq).symm

section

variable (h : Staged S set .start q c compiled types aliases sorted operations serviceName displayName)
  (done : Completed S compiled q types)

include h done

/-! ## Aliases -/

/-- The aliases of a catalog are the entries of the simple types. -/
theorem Staged.mem_aliases {a : ScalarAlias} : a ∈ c.aliases ↔ ∃ d, S.IsEntry S.names d a := by
  have sorted := (perm_of_byCanonical h.sortedAliases).mem_iff (a := a)
  rw [h.catalog]
  refine sorted.trans (List.mem_map.trans ⟨?_, ?_⟩)
  · intro given
    rcases given with ⟨x, hx, rfl⟩
    exact (done.sound.aliases x hx).2
  · intro given
    rcases given with ⟨d, hd⟩
    exact ⟨_, done.aliases (done.between.filled d a hd), rfl⟩

theorem Staged.aliasNames : ∃ names : List String, c.aliases.map (·.name) = names.map some ∧
    names.Pairwise (· < ·) := by
  rw [h.catalog]
  refine Inventory.byCanonical?_increasing h.sortedAliases done.sound.nodup
    (fun x hx => (done.sound.aliases x hx).1) fun x hx => ?_
  obtain ⟨hk, d, hd, n, shape, -, entry⟩ := done.sound.aliases x hx
  obtain ⟨c, hc⟩ := done.answers.tell.settled d hd.declared
  rw [hk, entry]
  exact Option.isSome_iff_exists.mpr ⟨c, hc⟩

/-! ## Types -/

theorem Staged.typeNames : ∃ names : List String, c.types.map (·.name) = names.map some ∧
    names.Pairwise (· < ·) := by
  have known : Inventory.byCanonical? types = some sorted := done.types ▸ h.sortedTypes
  rw [h.catalog]
  refine Inventory.byCanonical?_increasing known done.finished.nodup (fun x hx => done.name_eq hx)
    fun x hx => ?_
  obtain ⟨c, hc, -⟩ := h.established.tidy.types x.1 ((done.keys x.1).mp (List.mem_map_of_mem hx))
  rw [hc]
  rfl

/-- A job that compiles a type has it in the catalog. -/
theorem Staged.type_of_job {anonymous : Bool} {owner : String} {name : QName} {site : Site}
    (hj : Job.complex anonymous owner name site ∈ Compile.jobs S) :
    ∃ t ∈ c.types, t.anonymous = anonymous ∧ t.name = some (Text.pascal name.localPart) ∧
      t.qname = some name := by
  obtain ⟨own, hm, hq⟩ := entry_of_job done.answers done.consistent done.between hj
    (done.answers.job _ hj)
  obtain ⟨_, _, anonymous', site', hk, entry⟩ := h.established.entered _ hm
  obtain rfl := Option.some.inj hk
  obtain ⟨r, hr, hc, named⟩ := entry.held
  have request : (Job.complex anonymous owner name site).request
      ∈ compiled.inventory.reservations :=
    done.between.requested (map_request S ▸ List.mem_map_of_mem hj)
  obtain rfl := List.inj_on_of_nodup_map done.consistent.canonicals hr request hc
  obtain ⟨t, ht, completes⟩ := h.completes hm
  obtain ⟨hname, hqname, -, hanonymous⟩ := completes.same
  obtain ⟨name', -, same⟩ := entry.made.named
  have iff := named.trans (named_of_job hj).symm
  refine ⟨t, ht, ?_, hname.trans name', hqname.trans hq⟩
  rw [hanonymous, same]
  cases anonymous <;> cases anonymous' <;> simp_all

/-- A type with a name of its own is declared under it. -/
theorem Staged.declaration {t : StructuralType} (ht : t ∈ c.types) (hn : t.anonymous = false) :
    ∃ d ∈ S.declarations.inSpace .type, d.isSimpleType = false ∧ (t.name, t.qname) = d.identity := by
  obtain ⟨owner, name, anonymous, site, own, hm, entry, completes⟩ := h.origin ht
  obtain ⟨hname, hqname, -, hanonymous⟩ := completes.same
  obtain ⟨name', qname', anonymous'⟩ := entry.made.named
  have unnamed : anonymous = false := anonymous'.symm.trans (hanonymous.symm.trans hn)
  obtain ⟨d, hd, complex, rfl, -⟩ := entry.defined.declaration unnamed
  obtain ⟨r, hr, rfl, same, named⟩ := done.reservation hm entry
  obtain ⟨n, ho⟩ := named.mp unnamed
  have asked := ((h.established.tidy.asked r hr).of_type ho).2
  refine ⟨d, hd, complex, Prod.ext ?_ (hqname.trans qname')⟩
  rw [hname, name', asked, same]
  rfl

/-- No alias has the name of a type. -/
theorem Staged.disjoint {a : ScalarAlias} (ha : a ∈ c.aliases) {t : StructuralType}
    (ht : t ∈ c.types) : a.name ≠ t.name := by
  intro he
  obtain ⟨d, hd, n, shape, -, rfl⟩ := (h.mem_aliases done).mp ha
  have hj := mem_of_isSimple hd
  have canonical : some (Text.pascal d.name.localPart) = t.name := (done.answers.job _ hj).symm.trans he
  have request := done.between.requested (map_request S ▸ List.mem_map_of_mem hj)
  obtain ⟨owner, name, anonymous, site, own, hm, entry, completes⟩ := h.origin ht
  obtain ⟨name', -, -⟩ := entry.made.named
  have hc := Option.some.inj (canonical.trans (completes.same.1.trans name'))
  obtain ⟨r, hr, hcanonical, same, named⟩ := done.reservation hm entry
  obtain rfl := List.inj_on_of_nodup_map done.consistent.canonicals hr request
    (hcanonical.trans hc.symm)
  obtain ⟨e, hdecl, complex, rfl, -⟩ := entry.defined.declaration (named.mpr ⟨_, rfl⟩)
  have declared := done.answers.formed.lookup_of_mem hdecl
  rw [show e.name = d.name from same.symm, hd.declared] at declared
  rw [← Option.some.inj declared, hd.simple] at complex
  cases complex

/-- When all jobs are done, names are reserved for entries only. -/
theorem Staged.held_iff {name : String} : compiled.inventory.Held name ↔
    (∃ x ∈ compiled.inventory.aliases, x.1 = some name) ∨ some name ∈ compiled.inventory.typeKeys := by
  constructor
  · intro held
    obtain ⟨r, hr, rfl⟩ := held
    rcases h.established.known r hr with hr | hk
    · rw [← map_request] at hr
      obtain ⟨j, hj, rfl⟩ := List.mem_map.mp hr
      have entered := done.between.entered j hj
      cases j with
      | simple d =>
        obtain ⟨a, ⟨-, n, shape, -, rfl⟩, hm⟩ := entered
        exact .inl ⟨_, hm, done.answers.job _ hj⟩
      | complex anonymous owner name site => exact .inr entered
    · exact .inr hk
  · intro entry
    rcases entry with ⟨x, hx, hk⟩ | hk
    · exact (h.established.tidy.aliases x hx).1 name hk
    · obtain ⟨c, hc, held⟩ := h.established.tidy.types _ hk
      exact Option.some.inj hc ▸ held

/-! ## All entries -/

/-- Aliases correspond to the simple types that are declared. -/
theorem Staged.perm_aliases : (c.aliases.map fun a => (a.name, a.qname)).Perm
    (((S.declarations.inSpace .type).filter (·.isSimpleType)).map (·.identity)) := by
  have formed := done.answers.formed
  have declared := nodup_identities (Declarations.names_nodup formed.nodup .type) (·.isSimpleType)
  have distinct : (c.aliases.map fun a => (a.name, a.qname)).Nodup := by
    refine List.Nodup.of_map Prod.fst ?_
    rw [List.map_map]
    exact nodup_of_increasing (h.aliasNames done)
  refine (List.perm_ext_iff_of_nodup distinct declared).mpr fun x => ?_
  have identity {d : Declaration} {a : ScalarAlias} (ha : S.IsEntry S.names d a) :
      (a.name, a.qname) = d.identity := by
    obtain ⟨hd, n, shape, -, rfl⟩ := ha
    exact Prod.ext (done.answers.job _ (mem_of_isSimple hd)) rfl
  constructor
  · intro hx
    obtain ⟨a, ha, rfl⟩ := List.mem_map.mp hx
    obtain ⟨d, entry⟩ := (h.mem_aliases done).mp ha
    have hd := Setting.WellFormed.mem_of_lookup entry.1.declared
    exact List.mem_map.mpr ⟨d, List.mem_filter.mpr ⟨hd, entry.1.simple⟩, (identity entry).symm⟩
  · intro hx
    obtain ⟨d, hd, rfl⟩ := List.mem_map.mp hx
    obtain ⟨hd, simple⟩ := List.mem_filter.mp hd
    obtain ⟨a, entry, -⟩ := done.between.entered _ (mem_of_isSimple ⟨formed.lookup_of_mem hd, simple⟩)
    exact List.mem_map.mpr ⟨a, (h.mem_aliases done).mpr ⟨d, entry⟩, identity entry⟩

/-- Types with names of their own correspond to the complex types that are declared. -/
theorem Staged.perm_declared : ((c.types.filter fun t => !t.anonymous).map fun t => (t.name, t.qname)).Perm
    (((S.declarations.inSpace .type).filter fun d => !d.isSimpleType).map (·.identity)) := by
  have distinct : ((c.types.filter fun t => !t.anonymous).map fun t => (t.name, t.qname)).Nodup := by
    refine List.Nodup.of_map Prod.fst ?_
    rw [List.map_map]
    exact (List.filter_sublist.map _).nodup h.nodup_names
  have declared := nodup_identities (Declarations.names_nodup done.answers.formed.nodup .type)
    fun d => !d.isSimpleType
  refine (List.perm_ext_iff_of_nodup distinct declared).mpr fun x => ?_
  constructor
  · intro hx
    obtain ⟨t, ht, rfl⟩ := List.mem_map.mp hx
    obtain ⟨ht, named⟩ := List.mem_filter.mp ht
    rw [Bool.not_eq_true'] at named
    obtain ⟨d, hd, complex, same⟩ := h.declaration done ht named
    rw [← Bool.not_eq_true'] at complex
    exact List.mem_map.mpr ⟨d, List.mem_filter.mpr ⟨hd, complex⟩, same.symm⟩
  · intro hx
    obtain ⟨d, hd, rfl⟩ := List.mem_map.mp hx
    obtain ⟨hd, complex⟩ := List.mem_filter.mp hd
    rw [Bool.not_eq_true'] at complex
    have job : Job.complex false (ownerOfType d.name) d.name d.site ∈ Compile.jobs S := by
      refine List.mem_append_left _ (List.mem_map.mpr ⟨d, hd, ?_⟩)
      unfold Job.ofType
      rw [complex]
      rfl
    obtain ⟨t, ht, named, hname, hqname⟩ := h.type_of_job done job
    rw [← Bool.not_eq_true'] at named
    exact List.mem_map.mpr ⟨t, List.mem_filter.mpr ⟨ht, named⟩, Prod.ext hname hqname⟩

/-- A global element with a type inside it has that type in the catalog, once. -/
theorem Staged.exists_unique_element {d : Declaration} (hd : d ∈ elementsWithTypes S) :
    ∃! t, t ∈ c.types ∧ t.anonymous = true ∧ (t.name, t.qname) = d.identity := by
  have own := (Bool.and_eq_true_iff.mp (List.mem_filter.mp hd).2).2
  obtain ⟨inner, hi⟩ := Option.isSome_iff_exists.mp own
  have job : Job.complex true (ownerOfElement d.name) d.name (d.site.atNode inner) ∈ Compile.jobs S := by
    refine List.mem_append_right _ (List.mem_filterMap.mpr ⟨d, hd, ?_⟩)
    unfold Job.ofElement?
    rw [hi]
    rfl
  obtain ⟨t, ht, anonymous, hname, hqname⟩ := h.type_of_job done job
  refine ⟨t, ⟨ht, anonymous, Prod.ext hname hqname⟩, fun u hu => ?_⟩
  obtain ⟨hu, -, same⟩ := hu
  exact List.inj_on_of_nodup_map h.nodup_names hu ht ((Prod.mk.inj same).1.trans hname.symm)

/-- A catalog accounts for the declarations of its setting. -/
theorem Staged.accounts (hd : S.declarations = set.declarations) : c.Accounts set where
  distinct := hd ▸ Declarations.names_nodup done.answers.formed.nodup
  aliases := by
    have perm := h.perm_aliases done
    rw [hd] at perm
    exact perm
  types := by
    have perm := h.perm_declared done
    rw [hd] at perm
    exact perm
  elements d hm := by
    refine h.exists_unique_element done ?_
    unfold elementsWithTypes
    rw [hd]
    exact hm
  aliasNames := h.aliasNames done
  typeNames := h.typeNames done
  disjoint _ ha _ ht := h.disjoint done ha ht

end

end Compile

namespace SchemaSet

open Compile

/-- **No declaration is lost, and none is there twice.** When all jobs are done, the names that
are reserved are those of the entries. -/
theorem compile_accounts {set : SchemaSet} {options : Options} {c : Catalog}
    (h : (set.compile options).result = .ok c)
    (hp : ∀ d ∈ set.documents, '\x7d' ∉ d.targetNamespace.toList) :
    c.Accounts set ∧ ∃ S reserved compiled, Setting.ofSchemaSet set options = .ok S ∧
      Runs (reserveAll S) .start () reserved ∧ Runs (compileAll S) reserved () compiled ∧
      ∀ name, compiled.inventory.Held name ↔
        (∃ x ∈ compiled.inventory.aliases, x.1 = some name) ∨
          ∃ x ∈ compiled.inventory.types, x.1 = some name := by
  obtain ⟨S, hs⟩ := exists_setting h
  obtain ⟨_, compiled, _, _, _, _, _, _, staged⟩ := exists_staged hs h
  obtain ⟨done, -⟩ := staged.completed (Setting.wellFormed hs hp)
  have declared := (Declarations.ofSchemaSet_eq_ok.mp (Setting.ofSchemaSet_eq_ok.mp hs).2.1).2
  refine ⟨staged.accounts done (congrArg Declarations.mk declared), S, ?_⟩
  obtain ⟨reserved, hr, hc⟩ := staged.jobs
  refine ⟨reserved, compiled, hs, hr, hc, fun name => (staged.held_iff done).trans ?_⟩
  exact or_congr_right List.mem_map

/-- A simple type, a complex type with an element of it, and an element with a type inside it. -/
def declaredSet : SchemaSet :=
  let restriction : Xml.Node := ⟨Vocabulary.xsd, "restriction", [("base", "xs:string")],
    [("xs", some Vocabulary.xsd)], [], "", 2⟩
  let code : Xml.Node :=
    ⟨Vocabulary.xsd, "simpleType", [("name", "code")], [], [restriction], "", 2⟩
  let item : Xml.Node :=
    ⟨Vocabulary.xsd, "element", [("name", "item"), ("type", "code")], [], [], "", 4⟩
  let order : Xml.Node := ⟨Vocabulary.xsd, "complexType", [("name", "order")], [],
    [⟨Vocabulary.xsd, "sequence", [], [], [item], "", 4⟩], "", 3⟩
  let note : Xml.Node := ⟨Vocabulary.xsd, "element", [("name", "note")], [],
    [⟨Vocabulary.xsd, "complexType", [], [], [], "", 6⟩], "", 5⟩
  ⟨"memory:t.xsd", [⟨"memory:t.xsd", "urn:t",
    ⟨Vocabulary.xsd, "schema", [], [], [code, order, note], "", 1⟩⟩], none⟩

theorem declaredSet_accounts : ∃ c, (declaredSet.compile {}).result = .ok c ∧
    c.Accounts declaredSet ∧
    c.aliases.map (fun a => (a.name, a.qname)) = [(some "Code", some ⟨some "urn:t", "code"⟩)] := by
  have compiled : (declaredSet.compile {}).result.toOption.isSome = true := by decide +kernel
  cases hc : (declaredSet.compile {}).result with
  | ok c =>
    have accounts := (compile_accounts hc (by decide)).1
    exact ⟨c, rfl, accounts, List.perm_singleton.mp accounts.aliases⟩
  | error e =>
    rw [hc] at compiled
    cases compiled

end SchemaSet

end WsdlCatalog
