/-
  WsdlCatalog.Proofs.Enclosing — complex types inside one another.

  A type without a name stands inside an element of the content model of another type
  (`Declarations.Encloses`), in the definition of that type or in a model group that it refers
  to. Elements in a definition are below it, so a type can only be inside itself through a group.
  If none is (`Setting.NestsFinitely`), types inside one another are different complex types of
  the documents, and there are no more of them than the bound that a compilation sets itself.

  Proved: no type is inside itself if no complex type stands inside a model group
  (`Setting.GroupsHoldNoTypes.nestsFinitely`), and if none is, every complex type is compiled
  safely (`safe_complexType`).
-/

import Mathlib.Logic.Relation
import WsdlCatalog.Proofs.Documented
import WsdlCatalog.Proofs.Settlement

namespace WsdlCatalog

/-! ## Elements below an element -/

namespace Xml.Node

theorem self_mem_walk (node : Node) : node ∈ node.walk := by
  rw [walk_eq]
  exact List.mem_cons_self

mutual

theorem child_mem_walk {node child : Node} (hc : child ∈ node.children) :
    ∀ root : Node, node ∈ root.walk → child ∈ root.walk
  | ⟨uri, tag, attributes, bindings, children, text, line⟩, h => by
    rw [walk] at h ⊢
    rcases List.mem_cons.mp h with same | h
    · -- The children of the root come right below it.
      subst same
      rw [walkAll_eq]
      exact List.mem_cons_of_mem _ (List.mem_flatMap.mpr ⟨child, hc, self_mem_walk child⟩)
    · exact List.mem_cons_of_mem _ (child_mem_walkAll hc children h)

theorem child_mem_walkAll {node child : Node} (hc : child ∈ node.children) :
    ∀ nodes : List Node, node ∈ walkAll nodes → child ∈ walkAll nodes
  | [], h => absurd h List.not_mem_nil
  | first :: rest, h => by
    rw [walkAll] at h ⊢
    rcases List.mem_append.mp h with h | h
    · exact List.mem_append_left _ (child_mem_walk hc first h)
    · exact List.mem_append_right _ (child_mem_walkAll hc rest h)

end

end Xml.Node

/-! ## The leaves of a content model -/

namespace Particle

variable {P : Site → Prop} {owner : Owner}

mutual

/-- The leaves of a sound particle stand where `P` holds. -/
theorem Sound.leaf : ∀ {p : Particle}, p.Sound P owner → ∀ l ∈ p.leaves, P l.1
  | element _ _, h, l, hl => by
    unfold leaves at hl
    rw [List.mem_singleton.mp hl]
    exact h.2.2
  | group _ _ _, h, l, hl => by
    unfold leaves at hl
    obtain ⟨inner, hi, rfl⟩ := List.mem_map.mp hl
    exact AllSound.leaf h.2 inner hi
  | choice _ _, h, l, hl => by
    unfold leaves at hl
    obtain ⟨inner, hi, rfl⟩ := List.mem_map.mp hl
    exact AllSound.leaf h.2 inner hi
  | wildcard, _, _, hl | unresolved _ _, _, _, hl | broken _, _, _, hl => by
    unfold leaves at hl
    cases hl

theorem AllSound.leaf : ∀ {ps : List Particle}, AllSound P owner ps → ∀ l ∈ leavesOf ps, P l.1
  | [], _, _, hl => by
    unfold leavesOf at hl
    cases hl
  | p :: rest, h, l, hl => by
    unfold leavesOf at hl
    rcases List.mem_append.mp hl with hl | hl
    · exact Sound.leaf h.1 l hl
    · exact AllSound.leaf h.2 l hl

end

end Particle

/-- An element of a content model has what the children of the definition and all groups have. -/
theorem Compile.contentSites_inherit {P : Site → Prop} (hP : Site.Inherited P) {ds : Declarations}
    (groups : ∀ d ∈ ds.inSpace .group, P d.site) {owner : String} {site : Site}
    (h : ∀ child ∈ site.node.children, P (site.atNode child)) :
    ∀ leaf ∈ contentSites ds owner site, P leaf := by
  intro leaf hm
  obtain ⟨l, hl, rfl⟩ := List.mem_map.mp hm
  unfold contentModel at hl
  split at hl
  · rename_i container extending mixed found
    exact Particle.AllSound.leaf (Particle.sound_ofContainer hP groups (some owner)
      (Content.container_inherits hP h found)) l hl
  · exact absurd hl List.not_mem_nil

/-! ## Types inside types -/

/-- A complex type is inside an element of the content model of another one. -/
def Declarations.Encloses (ds : Declarations) (outer inner : Site) : Prop :=
  ∃ owner, ∃ leaf ∈ Compile.contentSites ds owner outer, leaf.inner? = some inner

/-- No complex type is inside itself. -/
def Setting.NestsFinitely (S : Setting) : Prop :=
  ∀ site, Compile.Described S site → ¬ Relation.TransGen S.declarations.Encloses site site

theorem Site.inner?_eq_some {site inner : Site} (h : site.inner? = some inner) :
    ∃ complex ∈ site.node.children, Setting.isComplexType complex = true ∧
      inner = site.atNode complex := by
  unfold Site.inner? at h
  split at h
  · obtain ⟨complex, hc, rfl⟩ := Option.map_eq_some_iff.mp h
    obtain ⟨hm, uri, tag⟩ := Xml.Node.child_of_child? hc
    refine ⟨complex, hm, ?_, rfl⟩
    unfold Setting.isComplexType
    rw [uri, tag]
    rfl
  · cases h

theorem sizeOf_child {node child : Xml.Node} (h : child ∈ node.children) :
    sizeOf child < sizeOf node := by
  have := List.sizeOf_lt_of_mem h
  cases node
  simp only [Xml.Node.mk.sizeOf_spec] at this ⊢
  omega

def Setting.GroupsHoldNoTypes (S : Setting) : Prop :=
  ∀ d ∈ S.declarations.inSpace .group, ∀ node ∈ d.site.node.walk, Setting.isComplexType node = false

/-- A type inside another one stands below it, if none stands inside a group. -/
theorem Setting.GroupsHoldNoTypes.below {S : Setting} (h : S.GroupsHoldNoTypes) {outer inner : Site}
    (encloses : S.declarations.Encloses outer inner) : sizeOf inner.node < sizeOf outer.node := by
  obtain ⟨owner, leaf, hm, hi⟩ := encloses
  obtain ⟨complex, hc, tagged, rfl⟩ := Site.inner?_eq_some hi
  have inherited : Site.Inherited fun s : Site => sizeOf s.node < sizeOf outer.node ∨
      ∃ d ∈ S.declarations.inSpace .group, s.node ∈ d.site.node.walk := by
    rintro site child (small | ⟨d, hd, inside⟩) below
    · exact .inl (Nat.lt_trans (sizeOf_child below) small)
    · exact .inr ⟨d, hd, Xml.Node.child_mem_walk below _ inside⟩
  rcases Compile.contentSites_inherit inherited
      (fun d hd => .inr ⟨d, hd, Xml.Node.self_mem_walk _⟩) (fun child hm => .inl (sizeOf_child hm))
      leaf hm with small | ⟨d, hd, inside⟩
  · exact Nat.lt_trans (sizeOf_child hc) small
  · have none := h d hd complex (Xml.Node.child_mem_walk hc _ inside)
    rw [tagged] at none
    cases none

/-- **A type can only be inside itself through a group** in which there are types. -/
theorem Setting.GroupsHoldNoTypes.nestsFinitely {S : Setting} (h : S.GroupsHoldNoTypes) :
    S.NestsFinitely := by
  intro site _ circle
  have less {inner : Site} (chain : Relation.TransGen S.declarations.Encloses site inner) :
      sizeOf inner.node < sizeOf site.node := by
    induction chain with
    | single step => exact h.below step
    | tail _ step ih => exact Nat.lt_trans (h.below step) ih
  exact Nat.lt_irrefl _ (less circle)

theorem Setting.nestsFinitely_of_groupless {S : Setting} (h : S.declarations.inSpace .group = []) :
    S.NestsFinitely :=
  GroupsHoldNoTypes.nestsFinitely fun _ hd => absurd hd (h ▸ List.not_mem_nil)

/-! ## The complex types of a schema set -/

def SchemaSet.writtenTypes (set : SchemaSet) : List Site :=
  set.documents.flatMap fun document =>
    (document.root.walk.filter Setting.isComplexType).map fun node => ⟨node, document⟩

def SchemaSet.Holds (set : SchemaSet) (site : Site) : Prop :=
  site.document ∈ set.documents ∧ site.node ∈ site.document.root.walk

theorem SchemaSet.holds_inherited (set : SchemaSet) : Site.Inherited set.Holds :=
  fun _ _ h hc => ⟨h.1, Xml.Node.child_mem_walk hc _ h.2⟩

theorem SchemaSet.Holds.complexType {set : SchemaSet} {site : Site} (h : set.Holds site)
    (hc : Setting.isComplexType site.node = true) : site ∈ set.writtenTypes :=
  List.mem_flatMap.mpr ⟨site.document, h.1,
    List.mem_map.mpr ⟨site.node, List.mem_filter.mpr ⟨h.2, hc⟩, rfl⟩⟩

namespace Compile

variable {S : Setting} {set : SchemaSet} {options : Options} {site : Site}

theorem nesting_eq (hs : Setting.ofSchemaSet set options = .ok S) :
    S.nesting = set.writtenTypes.length + 1 := by
  rw [(Setting.ofSchemaSet_eq_ok.mp hs).2.2]
  simp [SchemaSet.writtenTypes, List.length_flatMap]

/-- A declaration is a child of the root of a document, and its tag says in which space it is. -/
theorem declared_at (hs : Setting.ofSchemaSet set options = .ok S) {space : Space} {d : Declaration}
    (hd : d ∈ S.declarations.inSpace space) :
    set.Holds d.site ∧ d.site.node.uri = Vocabulary.xsd ∧ Space.ofTag d.site.node.tag = some space := by
  have declared := Declarations.mem_inSpace.mp hd
  rw [(Declarations.ofSchemaSet_eq_ok.mp (Setting.ofSchemaSet_eq_ok.mp hs).2.1).2] at declared
  obtain ⟨document, hdoc, declared⟩ := List.mem_flatMap.mp declared
  obtain ⟨node, hn, declared⟩ := List.mem_filterMap.mp declared
  unfold Declarations.ofNode? at declared
  split at declared
  · rename_i uri
    split at declared
    · rename_i tag _
      cases declared
      exact ⟨⟨hdoc, Xml.Node.child_mem_walk hn _ (Xml.Node.self_mem_walk _)⟩, eq_of_beq uri, tag⟩
    · cases declared
  · cases declared

/-- The definitions of complex types are complex types of the documents. -/
theorem Described.holds (hs : Setting.ofSchemaSet set options = .ok S) (h : Described S site) :
    set.Holds site ∧ Setting.isComplexType site.node = true := by
  induction h with
  | @type d hd hc =>
    obtain ⟨held, uri, tag⟩ := declared_at hs hd
    refine ⟨held, ?_⟩
    have complex : d.site.node.tag = "complexType" := by
      unfold Declaration.isSimpleType at hc
      unfold Space.ofTag at tag
      split at tag
      · rename_i simple
        rw [simple] at hc
        cases hc
      · assumption
      all_goals cases tag
    unfold Setting.isComplexType
    rw [uri, complex]
    rfl
  | element hd hi =>
    obtain ⟨hm, uri, tag⟩ := Xml.Node.child_of_child? hi
    refine ⟨set.holds_inherited _ _ (declared_at hs hd).1 hm, ?_⟩
    show Setting.isComplexType _ = true
    unfold Setting.isComplexType Site.atNode
    rw [uri, tag]
    rfl
  | nested _ he hi ih =>
    obtain ⟨complex, hm, hc, rfl⟩ := Site.inner?_eq_some hi
    have leaf := contentSites_inherit set.holds_inherited (fun d hd => (declared_at hs hd).1)
      (fun child hc => set.holds_inherited _ child ih.1 hc) _ he
    exact ⟨set.holds_inherited _ complex leaf hm, hc⟩

/-- Definitions one inside another, the innermost first. -/
structure Nest (S : Setting) (sites : List Site) : Prop where
  described : ∀ site ∈ sites, Described S site
  inside : sites.Pairwise fun inner outer => Relation.TransGen S.declarations.Encloses outer inner

theorem nest_singleton (h : Described S site) : Nest S [site] :=
  ⟨List.forall_mem_singleton.mpr h, List.pairwise_singleton _ _⟩

theorem Nest.cons {inner : Site} {outer : List Site} (h : Nest S (site :: outer)) {owner : String}
    {leaf : Site} (hm : leaf ∈ contentSites S.declarations owner site)
    (hi : leaf.inner? = some inner) : Nest S (inner :: site :: outer) := by
  have step : S.declarations.Encloses site inner := ⟨owner, leaf, hm, hi⟩
  refine ⟨?_, List.pairwise_cons.mpr ⟨?_, h.inside⟩⟩
  · exact List.forall_mem_cons.mpr ⟨(h.described site List.mem_cons_self).nested hm hi, h.described⟩
  · intro around hm
    rcases List.mem_cons.mp hm with rfl | hm
    · exact .single step
    · exact .tail ((List.pairwise_cons.mp h.inside).1 around hm) step

/-- There are no more definitions one inside another than complex types in the documents. -/
theorem Nest.length_le (hs : Setting.ofSchemaSet set options = .ok S) (finite : S.NestsFinitely)
    {sites : List Site} (h : Nest S sites) : sites.length ≤ set.writtenTypes.length := by
  have nodup : sites.Nodup := by
    refine h.inside.imp_of_mem fun {inner outer} hi _ enclosed same => ?_
    subst same
    exact finite _ (h.described _ hi) enclosed
  refine (List.subperm_of_subset nodup fun site hm => ?_).length_le
  obtain ⟨held, complex⟩ := (h.described site hm).holds hs
  exact held.complexType complex

/-! ## Compiling types inside types -/

theorem safe_addType {P : Site → Prop} (t : StructuralType) : Safe S P (addType t) := safe_modify fun _ => rfl

/-- The bound on the depth of types inside one another is not reached. -/
theorem safe_complexTypeIn (hs : Setting.ofSchemaSet set options = .ok S) (finite : S.NestsFinitely)
    (depth : Nat) : ∀ (outer : List Site) (anonymous : Bool) (canonical : String) (name : QName)
      (site : Site), Nest S (site :: outer) → set.writtenTypes.length < depth + outer.length →
      Safe S set.Holds (complexTypeIn S depth anonymous (some canonical) name site) := by
  induction depth with
  | zero =>
    intro outer anonymous canonical name site nest enough
    have := nest.length_le hs finite
    simp only [List.length_cons] at this
    omega
  | succ depth ih =>
    intro outer anonymous canonical name site nest enough
    unfold complexTypeIn
    have groups (d : Declaration) (hd : d ∈ S.declarations.inSpace .group) : set.Holds d.site :=
      (declared_at hs hd).1
    have held := ((nest.described site List.mem_cons_self).holds hs).1
    have inside (child : Xml.Node) (hc : child ∈ site.node.children) : set.Holds (site.atNode child) :=
      set.holds_inherited site child held hc
    refine (safe_bodyOf set.holds_inherited groups inside fun e he inner hi canonical name => ?_).bind
      fun body => safe_addType _
    refine ih (site :: outer) true canonical name inner (nest.cons he hi) ?_
    simp only [List.length_cons]
    omega

/-- A complex type is compiled safely. -/
theorem safe_complexType (hs : Setting.ofSchemaSet set options = .ok S) (finite : S.NestsFinitely)
    (h : Described S site) (anonymous : Bool) (canonical : String) (name : QName) :
    Safe S set.Holds (complexType S anonymous (some canonical) name site) := by
  refine safe_complexTypeIn hs finite S.nesting [] anonymous canonical name site (nest_singleton h) ?_
  rw [nesting_eq hs, List.length_nil]
  omega

end Compile

end WsdlCatalog
