/-
  WsdlCatalog.Proofs.Order — catalogs and the order of what is declared.

  The documents of a schema set and the declarations in each may come in any order
  (`SchemaSet.Rearranged`). Their catalogs are made alike: with the same entries, operations
  and keys of unresolved references, and the same reports. But reports are sorted by less than
  they say, and those that sort alike stay in the order in which they were made.

  Proved: a catalog comes of a schema set that was rearranged iff one comes of the other, and
  the two are equal iff reports that sort alike were made in the same order
  (`SchemaSet.compile_rearranged`); they need not be equal (`SchemaSet.namesakes_differ`).
-/

import WsdlCatalog.Proofs.Reordering
import WsdlCatalog.Proofs.Sorting
import WsdlCatalog.Proofs.Strictness

namespace WsdlCatalog

namespace Compile

variable {S T : Setting} {s t : SchemaSet} {c : Catalog} {q : Progress}

/-- The catalog of a setting in another order, but for the order of its reports. -/
theorem runs_catalog_reordered (h : S.Reordered T) (hS : S.WellFormed)
    (hl : s.location = t.location) (hd : s.definitions = t.definitions)
    (hn : s.targetNamespace = t.targetNamespace) (hr : Runs (catalog S s) .start c q) :
    ∃ q', Runs (catalog T t) .start { c with diagnostics := q'.diagnostics.mergeSort Diagnostic.le } q' ∧
      c.diagnostics = q.diagnostics.mergeSort Diagnostic.le ∧ q.diagnostics.Perm q'.diagnostics := by
  obtain ⟨compiled, types, aliases, sorted, operations, serviceName, name, staged⟩ :=
    runs_catalog.mp hr
  obtain ⟨reserved, hres, hcomp⟩ := staged.jobs
  obtain ⟨answers, -, -⟩ := consistent_of_jobs hS hres hcomp
  obtain ⟨reserved', compiled', hres', hcomp', htypes, nodup, mirrors⟩ :=
    compiled_reordered h hS hres hcomp
  obtain ⟨answers', -, -⟩ := consistent_of_jobs (h.wellFormed hS) hres' hcomp'
  rw [← h.names hS] at answers'
  obtain ⟨types', hexpand, hperm⟩ := Extension.expand_perm htypes nodup staged.expand
  have twin := h.twin hS
  have interfaces := (replays twin answers.tell answers'.tell).interface
    (fun _ _ _ => Replays.addDiagnostic _) hl hd
  obtain ⟨_, q', ⟨rfl, -⟩, hinterface, mirrors, hq, hq'⟩ :=
    (mirrors.withTypes types types').replayed interfaces staged.interface
  obtain ⟨hdiagnostics, hkeys⟩ := mirrors.reports twin
  have finished := (Extension.expand_sound staged.expand).1
  have aliases_sorted : q'.inventory.sortedAliases? = some aliases :=
    (Inventory.byCanonical?_perm (mirrors.aliases twin) mirrors.sound.nodup).symm.trans
      staged.sortedAliases
  have types_sorted : q'.inventory.sortedTypes? = some sorted := by
    have before : Inventory.byCanonical? types = some sorted := by
      rw [← show q.inventory.types = types from hq]
      exact staged.sortedTypes
    unfold Inventory.sortedTypes?
    rw [show q'.inventory.types = types' from hq', ← Inventory.byCanonical?_perm hperm finished.nodup]
    exact before
  have hname : displayName T.options serviceName t.location = .ok name := by
    rw [← h.options, ← hl]
    exact staged.displayName
  refine ⟨q', runs_catalog.mpr ⟨compiled', types', aliases, sorted, operations, serviceName, name,
    ⟨reserved', hres', hcomp'⟩, hexpand, hinterface, hname, aliases_sorted, types_sorted, ?_⟩, ?_,
    hdiagnostics⟩
  · rw [staged.catalog]
    unfold assembled
    rw [h.options, hl, hn, sortedKeys_perm hkeys]
  · rw [staged.catalog]
    rfl

end Compile

namespace SchemaSet

variable {s t : SchemaSet}

/-- A catalog comes of a run. -/
theorem result_eq_ok {options : Options} {c : Catalog} :
    (s.compile options).result = .ok c ↔ ∃ S, Setting.ofSchemaSet s options = .ok S ∧
      Compile.Runs (Compile.catalog S s) .start c (s.progress options) := by
  cases hs : Setting.ofSchemaSet s options with
  | error f =>
    refine ⟨fun h => ?_, fun h => nomatch h.choose_spec.1⟩
    unfold compile at h
    rw [hs] at h
    cases h
  | ok S =>
    rw [result_compile hs, progress_eq hs]
    constructor
    · intro h
      exact ⟨S, rfl, Prod.ext h rfl⟩
    · intro given
      rcases given with ⟨S', hS, h⟩
      obtain rfl := Except.ok.inj hS
      exact congrArg Prod.fst h

/-- A catalog of a set that was rearranged, but for the order of its reports. -/
theorem exists_of_rearranged (h : s.Rearranged t)
    (hp : ∀ d ∈ s.documents, '\x7d' ∉ d.targetNamespace.toList) {options : Options} {c : Catalog}
    (hc : (s.compile options).result = .ok c) :
    c.diagnostics = (s.progress options).diagnostics.mergeSort Diagnostic.le ∧
      (s.progress options).diagnostics.Perm (t.progress options).diagnostics ∧
      (t.compile options).result = .ok
        { c with diagnostics := (t.progress options).diagnostics.mergeSort Diagnostic.le } := by
  obtain ⟨S, hs, run⟩ := result_eq_ok.mp hc
  obtain ⟨T, ht, reordered⟩ := Setting.exists_of_rearranged h hs
  obtain ⟨q, run', hd, perm⟩ := Compile.runs_catalog_reordered reordered (Setting.wellFormed hs hp)
    h.location h.definitions h.targetNamespace run
  have hq : t.progress options = q := by
    rw [progress_eq ht]
    exact congrArg Prod.snd run'
  rw [hq]
  refine ⟨hd, perm, result_eq_ok.mpr ⟨T, ht, ?_⟩⟩
  rw [hq]
  exact run'

/-- **The order of documents and declarations** does not decide whether a catalog comes of a schema
set, nor anything in it but the order of its reports; and that neither, as long as reports that
sort alike are made in the same order. -/
theorem compile_rearranged (h : s.Rearranged t)
    (hp : ∀ d ∈ s.documents, '\x7d' ∉ d.targetNamespace.toList) (options : Options) :
    ((∃ c, (s.compile options).result = .ok c) ↔ ∃ d, (t.compile options).result = .ok d) ∧
      ∀ c d, (s.compile options).result = .ok c → (t.compile options).result = .ok d →
        d = { c with diagnostics := d.diagnostics } ∧ c.diagnostics.Perm d.diagnostics ∧
        (c = d ↔ ∀ key, Diagnostic.under key (s.progress options).diagnostics =
          Diagnostic.under key (t.progress options).diagnostics) ∧
        ((∀ a ∈ c.diagnostics, ∀ b ∈ c.diagnostics, a.sortKey = b.sortKey → a = b) → c = d) := by
  constructor
  · constructor
    · intro hc
      rcases hc with ⟨c, hc⟩
      exact ⟨_, (exists_of_rearranged h hp hc).2.2⟩
    · intro hd
      rcases hd with ⟨d, hd⟩
      exact ⟨_, (exists_of_rearranged h.symm (h.plain hp) hd).2.2⟩
  · intro c d hc hd
    obtain ⟨own, perm, run⟩ := exists_of_rearranged h hp hc
    obtain rfl := Except.ok.inj (hd.symm.trans run)
    have same {x y : List Diagnostic} (hx : c.diagnostics = x) :
        c = { c with diagnostics := y } ↔ x = y := by
      constructor
      · intro e
        rw [← hx]
        exact congrArg Catalog.diagnostics e
      · intro equal
        subst equal
        rw [← hx]
    refine ⟨rfl, ?_, (same own).trans (Diagnostic.sorted_eq_iff perm), fun hs => (same own).mpr ?_⟩
    · rw [own]
      exact ((List.mergeSort_perm _ _).trans perm).trans (List.mergeSort_perm _ _).symm
    · refine Diagnostic.sorted_perm perm fun a ha b hb => hs a ?_ b ?_
      · rw [own]
        exact List.mem_mergeSort.mpr ha
      · rw [own]
        exact List.mem_mergeSort.mpr hb

/-! ## Namesakes -/

/-- A type named Foo, with an element of a type that is not declared in the namespace named None. -/
def namesakeType : Xml.Node :=
  let item : Xml.Node := ⟨Vocabulary.xsd, "element", [("name", "x"), ("type", "p:Missing")],
    [("p", some "None")], [], "", 4⟩
  ⟨Vocabulary.xsd, "complexType", [("name", "Foo")], [],
    [⟨Vocabulary.xsd, "sequence", [], [], [item], "", 3⟩], "", 3⟩

/-- An element named Foo, of a simple type made from one that is not declared and has no
namespace. -/
def namesakeElement : Xml.Node :=
  let restriction : Xml.Node :=
    ⟨Vocabulary.xsd, "restriction", [("base", "Missing")], [("", none)], [], "", 5⟩
  ⟨Vocabulary.xsd, "element", [("name", "Foo")], [],
    [⟨Vocabulary.xsd, "simpleType", [], [], [restriction], "", 5⟩], "", 5⟩

def namesakeReferrer : Xml.Node :=
  let item : Xml.Node :=
    ⟨Vocabulary.xsd, "element", [("ref", "t:Foo")], [("t", some "urn:t")], [], "", 2⟩
  ⟨Vocabulary.xsd, "complexType", [("name", "Bar")], [],
    [⟨Vocabulary.xsd, "sequence", [], [], [item], "", 2⟩], "", 2⟩

def ofDeclarations (nodes : List Xml.Node) : SchemaSet :=
  ⟨"memory:t.xsd", [⟨"memory:t.xsd", "urn:t", ⟨Vocabulary.xsd, "schema", [], [], nodes, "", 1⟩⟩],
    none⟩

def referrerFirst : SchemaSet := ofDeclarations [namesakeReferrer, namesakeType, namesakeElement]

def referrerSecond : SchemaSet := ofDeclarations [namesakeType, namesakeReferrer, namesakeElement]

theorem referrer_rearranged : referrerFirst.Rearranged referrerSecond := by
  refine ⟨rfl, rfl, fun _ => rfl, _, List.Perm.refl _, .cons ⟨rfl, rfl, ?_⟩ .nil⟩
  exact List.Perm.swap _ _ _

theorem exists_of_referrerFirst : ∃ c, (referrerFirst.compile {}).result = .ok c := by
  have compiled : (referrerFirst.compile {}).result.toOption.isSome = true := by decide +kernel
  exact exists_ok compiled

/-- The catalogs differ in the order of their reports at most. -/
theorem namesakes_alike : ∃ c d, (referrerFirst.compile {}).result = .ok c ∧
    (referrerSecond.compile {}).result = .ok d ∧ d = { c with diagnostics := d.diagnostics } ∧
    c.diagnostics.Perm d.diagnostics := by
  obtain ⟨iff, alike⟩ := compile_rearranged referrer_rearranged (by decide) {}
  obtain ⟨c, hc⟩ := exists_of_referrerFirst
  obtain ⟨d, hd⟩ := iff.mp ⟨c, hc⟩
  obtain ⟨fields, perm, -⟩ := alike c d hc hd
  exact ⟨c, d, hc, hd, fields, perm⟩

/-- The reports of the type and of the element differ in nothing but the namespace, which they are
not sorted by, so the catalog tells in which order their types are declared. -/
theorem namesakes_differ : referrerFirst.Rearranged referrerSecond ∧
    ∃ c d, (referrerFirst.compile {}).result = .ok c ∧ (referrerSecond.compile {}).result = .ok d ∧
      c ≠ d := by
  obtain ⟨c, hc⟩ := exists_of_referrerFirst
  obtain ⟨own, perm, hd⟩ := exists_of_rearranged referrer_rearranged (by decide) hc
  refine ⟨referrer_rearranged, c, _, hc, hd, fun e => ?_⟩
  have sorted := own.symm.trans (congrArg Catalog.diagnostics e)
  have under := (Diagnostic.sorted_eq_iff perm).mp sorted
  let first := ((referrerFirst.progress {}).diagnostics.map Diagnostic.sortKey).headD []
  have uris := congrArg (List.map (·.context.uri)) (under first)
  revert uris
  decide +kernel

end SchemaSet

end WsdlCatalog
