/-
  WsdlCatalog.Proofs.Rearrangement — schema sets whose parts come in another order.

  The documents of a schema set may come in any order, and so may the elements below the root
  of each (`SchemaSet.Rearranged`). What such sets declare is the same in another order, up to
  the documents that hold it, and so are the jobs of their compilations.

  Proved: a set that was rearranged has a setting if the other one has, and the two are twins
  (`Setting.exists_of_rearranged`, `Setting.Reordered.twin`) with jobs that can be paired
  (`Setting.Reordered.jobs`) and the same canonical names (`Setting.Reordered.names`).
-/

import Mathlib.Data.List.Perm.Basic
import WsdlCatalog.Proofs.Jobs

namespace WsdlCatalog

structure SchemaDocument.Rearranged (d e : SchemaDocument) : Prop where
  bare : d.bare = e.bare
  root : { d.root with children := [] } = { e.root with children := [] }
  children : d.root.children.Perm e.root.children

/-- The schema set with its documents, and what they declare, in another order. Without a service
description the first document still has the same target namespace. -/
structure SchemaSet.Rearranged (s t : SchemaSet) : Prop where
  location : s.location = t.location
  definitions : s.definitions = t.definitions
  first : s.definitions = none →
    s.documents.head?.map (·.targetNamespace) = t.documents.head?.map (·.targetNamespace)
  documents : ∃ ds, s.documents.Perm ds ∧ List.Forall₂ SchemaDocument.Rearranged ds t.documents

/-! ## Declarations without documents -/

namespace Declarations

def bare (ds : Declarations) : Declarations := ⟨ds.entries.map fun x => (x.1, x.2.bare)⟩

variable {ds es : Declarations}

theorem map_key_bare (ds : Declarations) : ds.bare.entries.map key = ds.entries.map key := by
  unfold bare
  rw [List.map_map]
  rfl

theorem lookup_bare (ds : Declarations) (space : Space) (name : QName) :
    ds.bare.lookup space name = (ds.lookup space name).map Declaration.bare := by
  unfold lookup bare
  rw [List.find?_map, Option.map_map, Option.map_map]
  rfl

theorem inSpace_bare (ds : Declarations) (space : Space) :
    ds.bare.inSpace space = (ds.inSpace space).map Declaration.bare := by
  unfold inSpace bare
  rw [List.filterMap_map, List.map_filterMap]
  refine List.filterMap_congr fun x _ => ?_
  show (if x.1 == space then some x.2.bare else none) = _
  by_cases hs : (x.1 == space) = true
  · simp [hs]
  · simp [hs]

theorem inSpace_perm (h : ds.entries.Perm es.entries) (space : Space) :
    (ds.inSpace space).Perm (es.inSpace space) := h.filterMap _

/-- In another order declarations answer alike, as long as they are declared once. -/
theorem lookup_perm (h : ds.entries.Perm es.entries) (hn : (ds.entries.map key).Nodup)
    (space : Space) (name : QName) : ds.lookup space name = es.lookup space name := by
  have hn' : (es.entries.map key).Nodup := (h.map key).nodup_iff.mp hn
  cases hd : ds.lookup space name with
  | none =>
    have absent := lookup_eq_none.mp hd
    rw [(h.map key).mem_iff] at absent
    exact (lookup_eq_none.mpr absent).symm
  | some d =>
    have hm : (space, d) ∈ es.entries := h.mem_iff.mp (mem_of_lookup hd)
    have := lookup_of_mem hn' hm
    rw [name_of_lookup hd] at this
    exact this.symm

end Declarations

/-! ## Settings in another order -/

namespace Setting

open Compile

def bare (S : Setting) : Setting := { S with declarations := S.declarations.bare }

/-- The setting with the same declarations in another order, up to their documents. -/
structure Reordered (S T : Setting) : Prop where
  options : S.options = T.options
  nesting : S.nesting = T.nesting
  entries : S.declarations.bare.entries.Perm T.declarations.bare.entries

theorem elementsWithTypes_bare (S : Setting) :
    elementsWithTypes S.bare = (elementsWithTypes S).map Declaration.bare := by
  unfold elementsWithTypes
  show (S.declarations.bare.inSpace .element).filter _ = _
  rw [Declarations.inSpace_bare, List.filter_map]
  rfl

theorem jobs_bare (S : Setting) : Compile.jobs S.bare = (Compile.jobs S).map Job.bare := by
  have type (d : Declaration) : Job.ofType d.bare = (Job.ofType d).bare := by
    unfold Job.ofType
    show (if d.isSimpleType then _ else _) = _
    by_cases hs : d.isSimpleType = true
    · simp only [hs, if_true]; rfl
    · simp only [hs]; rfl
  have element (d : Declaration) : Job.ofElement? d.bare = (Job.ofElement? d).map Job.bare := by
    unfold Job.ofElement?
    rw [Option.map_map]
    rfl
  unfold Compile.jobs
  rw [elementsWithTypes_bare, List.map_append, List.filterMap_map, List.map_filterMap]
  show (S.declarations.bare.inSpace .type).map _ ++ _ = _
  rw [Declarations.inSpace_bare, List.map_map, List.map_map]
  congr 1
  · exact List.map_congr_left fun d _ => type d
  · exact List.filterMap_congr fun d _ => element d

theorem jobs_perm {S T : Setting} (h : S.declarations.entries.Perm T.declarations.entries) :
    (Compile.jobs S).Perm (Compile.jobs T) := by
  unfold Compile.jobs elementsWithTypes
  have types := Declarations.inSpace_perm h .type
  have elements := Declarations.inSpace_perm h .element
  exact (types.map _).append ((elements.filter _).filterMap _)

namespace Reordered

variable {S T : Setting}

theorem keys (h : S.Reordered T) :
    (S.declarations.entries.map Declarations.key).Perm
      (T.declarations.entries.map Declarations.key) := by
  have := h.entries.map Declarations.key
  rw [Declarations.map_key_bare, Declarations.map_key_bare] at this
  exact this

theorem wellFormed (h : S.Reordered T) (hS : S.WellFormed) : T.WellFormed where
  nodup := h.keys.nodup_iff.mp hS.nodup
  plain x hx := by
    have hm := h.keys.mem_iff.mpr (List.mem_map_of_mem hx)
    obtain ⟨y, hy, he⟩ := List.mem_map.mp hm
    have name : y.2.name = x.2.name := (Prod.mk.inj he).2
    exact name ▸ hS.plain y hy

theorem twin (h : S.Reordered T) (hS : S.WellFormed) : S.Twin T := by
  have hn : (S.declarations.bare.entries.map Declarations.key).Nodup := by
    rw [Declarations.map_key_bare]
    exact hS.nodup
  have count (space : Space) :
      (S.declarations.inSpace space).length = (T.declarations.inSpace space).length := by
    have := (Declarations.inSpace_perm h.entries space).length_eq
    rw [Declarations.inSpace_bare, Declarations.inSpace_bare, List.length_map,
      List.length_map] at this
    exact this
  refine ⟨h.options, ⟨fun space name => ?_, count .group, count .attributeGroup⟩, h.nesting⟩
  rw [← Declarations.lookup_bare, ← Declarations.lookup_bare]
  exact Declarations.lookup_perm h.entries hn space name

/-- Each job has its like among the jobs of the other setting. -/
theorem jobs (h : S.Reordered T) : ∃ ks, ks.Perm (Compile.jobs T) ∧
    List.Forall₂ (fun j k => j ∈ Compile.jobs S ∧ k ∈ Compile.jobs T ∧ j.bare = k.bare)
      (Compile.jobs S) ks := by
  have hp : ((Compile.jobs S).map Job.bare).Perm ((Compile.jobs T).map Job.bare) := by
    rw [← jobs_bare, ← jobs_bare]
    exact jobs_perm h.entries
  have like : List.Forall₂ (fun b k => b = Job.bare k) ((Compile.jobs T).map Job.bare)
      (Compile.jobs T) :=
    List.forall₂_map_left_iff.mpr (List.forall₂_same.mpr fun _ _ => rfl)
  obtain ⟨ks, paired, hk⟩ := List.perm_comp_forall₂ hp like
  refine ⟨ks, hk, ?_⟩
  have paired := List.forall₂_map_left_iff.mp paired
  have known := (List.forall₂_and_left (p := (· ∈ Compile.jobs S)) _ _).mpr ⟨fun _ hj => hj, paired⟩
  rw [List.forall₂_iff_zip] at known ⊢
  refine ⟨known.1, fun {j k} hm => ?_⟩
  obtain ⟨hj, hb⟩ := known.2 hm
  exact ⟨hj, hk.mem_iff.mp (List.of_mem_zip hm).2, hb⟩

theorem requests (h : S.Reordered T) : (Compile.requests S).Perm (Compile.requests T) := by
  have bare (U : Setting) : Compile.requests U.bare = Compile.requests U := by
    rw [← map_request, ← map_request, jobs_bare, List.map_map]
    refine List.map_congr_left fun j _ => ?_
    cases j <;> rfl
  have := (jobs_perm (S := S.bare) (T := T.bare) h.entries).map Job.request
  rw [map_request, map_request, bare, bare] at this
  exact this

theorem names (h : S.Reordered T) (hS : S.WellFormed) : S.names = T.names := by
  funext owner
  unfold Setting.names
  cases hc : (Inventory.mk (Compile.requests S) [] []).canonical? owner with
  | none =>
    have absent := Inventory.canonical?_eq_none.mp hc
    refine (Inventory.canonical?_eq_none.mpr fun r hr => ?_).symm
    exact absent r (h.requests.mem_iff.mpr hr)
  | some name =>
    obtain ⟨r, hr, rfl, rfl⟩ := Inventory.exists_of_canonical? hc
    have nodup := (h.wellFormed hS).nodup_owners
    exact (@Inventory.canonical?_of_mem ⟨Compile.requests T, [], []⟩ nodup r
      (h.requests.mem_iff.mp hr)).symm

end Reordered

end Setting

/-! ## Schema sets in another order -/

namespace SchemaDocument.Rearranged

variable {d e : SchemaDocument}

theorem declared (h : d.Rearranged e) :
    ((d.root.children.filterMap (Declarations.ofNode? d)).map fun x => (x.1, x.2.bare)).Perm
      ((e.root.children.filterMap (Declarations.ofNode? e)).map fun x => (x.1, x.2.bare)) := by
  have same (node : Xml.Node) :
      (Declarations.ofNode? d node).map (fun x => (x.1, x.2.bare)) =
        (Declarations.ofNode? e node).map fun x => (x.1, x.2.bare) := by
    have site : Site.bare ⟨node, d⟩ = Site.bare ⟨node, e⟩ := by
      unfold Site.bare
      rw [h.bare]
    have uri : d.targetNamespace = e.targetNamespace := (SchemaDocument.mk.inj h.bare).2.1
    unfold Declarations.ofNode?
    split
    · split
      · simp only [Option.map_some, Declaration.bare, site, uri]
      · rfl
    · rfl
  rw [List.map_filterMap, List.map_filterMap, funext same]
  exact h.children.filterMap _

theorem complexTypes (h : d.Rearranged e) :
    (d.root.walk.filter Setting.isComplexType).length =
      (e.root.walk.filter Setting.isComplexType).length := by
  have root : Setting.isComplexType d.root = Setting.isComplexType e.root := by
    obtain ⟨uri, tag, -⟩ := Xml.Node.mk.inj h.root
    unfold Setting.isComplexType
    rw [uri, tag]
  rw [Xml.Node.walk_eq, Xml.Node.walk_eq e.root, List.filter_cons, List.filter_cons, root]
  have inner := ((h.children.flatMap_right Xml.Node.walk).filter Setting.isComplexType).length_eq
  by_cases hc : Setting.isComplexType e.root = true
  · rw [if_pos hc, if_pos hc, List.length_cons, List.length_cons, inner]
  · rw [if_neg hc, if_neg hc, inner]

theorem symm (h : d.Rearranged e) : e.Rearranged d :=
  ⟨h.bare.symm, h.root.symm, h.children.symm⟩

end SchemaDocument.Rearranged

namespace SchemaDocument

theorem length_flatMap {α : Type} {f : SchemaDocument → List α}
    (hf : ∀ d e, d.Rearranged e → (f d).length = (f e).length) {ds es : List SchemaDocument}
    (same : List.Forall₂ Rearranged ds es) : (ds.flatMap f).length = (es.flatMap f).length := by
  induction same with
  | nil => rfl
  | cons hd _ ih =>
    rw [List.flatMap_cons, List.flatMap_cons, List.length_append, List.length_append, ih, hf _ _ hd]

theorem flatMap_perm {α : Type} {f : SchemaDocument → List α}
    (hf : ∀ d e, d.Rearranged e → (f d).Perm (f e)) {ds es : List SchemaDocument}
    (same : List.Forall₂ Rearranged ds es) : (ds.flatMap f).Perm (es.flatMap f) := by
  induction same with
  | nil => exact List.Perm.refl _
  | cons hd _ ih =>
    rw [List.flatMap_cons, List.flatMap_cons]
    exact (hf _ _ hd).append ih

end SchemaDocument

namespace SchemaSet.Rearranged

variable {s t : SchemaSet}

theorem targetNamespace (h : s.Rearranged t) : s.targetNamespace = t.targetNamespace := by
  unfold SchemaSet.targetNamespace
  rw [← h.definitions]
  cases hd : s.definitions with
  | some definitions => rfl
  | none =>
    dsimp only
    rw [h.first hd]

theorem plain (h : s.Rearranged t) (hp : ∀ d ∈ s.documents, '\x7d' ∉ d.targetNamespace.toList) :
    ∀ e ∈ t.documents, '\x7d' ∉ e.targetNamespace.toList := by
  obtain ⟨ds, perm, same⟩ := h.documents
  intro e he
  obtain ⟨d, hd, hde⟩ := exists_of_forall₂ same e he
  have uri : d.targetNamespace = e.targetNamespace := (SchemaDocument.mk.inj hde.bare).2.1
  exact uri ▸ hp d (perm.mem_iff.mpr hd)

theorem symm (h : s.Rearranged t) : t.Rearranged s := by
  obtain ⟨ds, perm, same⟩ := h.documents
  obtain ⟨es, same, perm⟩ := List.perm_comp_forall₂ perm same
  have back : List.Forall₂ SchemaDocument.Rearranged es s.documents :=
    (same.imp fun _ _ hd => hd.symm).flip
  exact ⟨h.location.symm, h.definitions.symm, fun hd => (h.first (h.definitions.trans hd)).symm,
    es, perm.symm, back⟩

theorem declared (h : s.Rearranged t) :
    ((Declarations.declared s).map fun x => (x.1, x.2.bare)).Perm
      ((Declarations.declared t).map fun x => (x.1, x.2.bare)) := by
  obtain ⟨ds, perm, same⟩ := h.documents
  unfold Declarations.declared
  rw [List.map_flatMap, List.map_flatMap]
  exact (perm.flatMap_right _).trans (SchemaDocument.flatMap_perm (fun d e hd => hd.declared) same)

theorem nesting (h : s.Rearranged t) :
    (s.documents.flatMap fun d => d.root.walk.filter Setting.isComplexType).length =
      (t.documents.flatMap fun d => d.root.walk.filter Setting.isComplexType).length := by
  obtain ⟨ds, perm, same⟩ := h.documents
  rw [(perm.flatMap_right _).length_eq]
  exact SchemaDocument.length_flatMap (fun d e hd => hd.complexTypes) same

end SchemaSet.Rearranged

/-- A set that was rearranged has a setting if the other one has. -/
theorem Setting.exists_of_rearranged {s t : SchemaSet} (h : s.Rearranged t) {options : Options}
    {S : Setting} (hs : Setting.ofSchemaSet s options = .ok S) :
    ∃ T, Setting.ofSchemaSet t options = .ok T ∧ S.Reordered T := by
  obtain ⟨rfl, hd, hnesting⟩ := Setting.ofSchemaSet_eq_ok.mp hs
  obtain ⟨hn, he⟩ := Declarations.ofSchemaSet_eq_ok.mp hd
  have keys := h.declared.map Declarations.key
  rw [List.map_map, List.map_map] at keys
  have declared : Declarations.ofSchemaSet t = .ok ⟨Declarations.declared t⟩ :=
    Declarations.ofSchemaSet_eq_ok.mpr ⟨keys.nodup_iff.mp hn, rfl⟩
  refine ⟨⟨S.options, ⟨Declarations.declared t⟩, S.nesting⟩, ?_, rfl, rfl, ?_⟩
  · exact Setting.ofSchemaSet_eq_ok.mpr ⟨rfl, declared, hnesting.trans (congrArg _ h.nesting)⟩
  · unfold Declarations.bare
    rw [he]
    exact h.declared

end WsdlCatalog
