/-
  WsdlCatalog.Proofs.InnerTypes — what becomes of the types inside elements.

  A type inside an element is known by the type around it and by the name of the element.
  The elements of one name share it, so it is made from the first of them that has a type
  inside; an element that is met again finds it and is not looked into.

  Proved: for every type of a catalog, the type inside the first element of each name is kept
  as a type of its own that was made from it (`SchemaSet.compile_keepsInner`). Of two
  elements of one name only the first keeps its type, without a complaint about the second
  (`SchemaSet.secondInner_lost`).
-/

import WsdlCatalog.Proofs.Spanning

namespace WsdlCatalog

namespace Compile

variable {S : Setting} {c : Catalog}

/-- The type inside an element is a type of the catalog, the only one of its name, that was made
from it. -/
def KeepsInner (S : Setting) (c : Catalog) (owner element : String) (inner : Site) : Prop :=
  ∃ u ∈ c.types, (∀ v ∈ c.types, v.name = u.name → v = u) ∧
    ∃ own, ComesOf S c (owner ++ Text.pascal element) (nestedName owner element inner) inner own u

def RefersToInner (t : StructuralType) (owner element : String) (inner : Site) : Prop :=
  ∃ e ∈ t.elements, e.name = element ∧
    e.typeRef = .ofStructure (owner ++ Text.pascal element) (nestedName owner element inner).label

theorem Staged.keepsInner {set : SchemaSet} {q compiled : Progress}
    {types : List (Option String × StructuralType)} {aliases : List ScalarAlias}
    {sorted : List StructuralType} {operations : List Operation} {serviceName : Option String}
    {displayName : Loose String}
    (h : Staged S set .start q c compiled types aliases sorted operations serviceName displayName)
    {owner element : String} {name : QName} {anonymous : Bool} {site inner : Site}
    {own : StructuralType} (entry : Entry S compiled.inventory owner name anonymous site own)
    (hi : S.declarations.firstInner? element (contentSites S.declarations owner site) = some inner) :
    KeepsInner S c owner element inner := by
  obtain ⟨innerOwn, hm, made⟩ := entry.inner element inner hi
  obtain ⟨u, hu, completes⟩ := h.completes hm
  refine ⟨u, hu, fun v hv hn => ?_, innerOwn, made.comesOf (.nested entry.defined hi) completes⟩
  exact List.inj_on_of_nodup_map h.nodup_names hv hu hn

end Compile

namespace SchemaSet

open Compile

/-- **The first type inside the elements of a name is kept**: every type of a catalog comes of a
definition, and for every name of its elements the type inside the first of them that has one is
in the catalog, made from where it is; the element refers to it if it is the first of its name. -/
theorem compile_keepsInner {set : SchemaSet} {options : Options} {c : Catalog}
    (h : (set.compile options).result = .ok c) :
    ∃ S, Setting.ofSchemaSet set options = .ok S ∧ ∀ t ∈ c.types, ∃ owner name site own,
      ComesOf S c owner name site own t ∧
      (∀ element inner, S.declarations.firstInner? element (contentSites S.declarations owner site)
        = some inner → KeepsInner S c owner element inner) ∧
      ∀ element first inner, S.declarations.first? element (contentSites S.declarations owner site)
        = some first → first.inner? = some inner → element ≠ textSlotName →
          KeepsInner S c owner element inner ∧ RefersToInner own owner element inner := by
  obtain ⟨S, hs⟩ := exists_setting h
  obtain ⟨_, _, _, _, _, _, _, _, staged⟩ := exists_staged hs h
  refine ⟨S, hs, fun t ht => ?_⟩
  obtain ⟨owner, name, anonymous, site, own, -, entry, completes⟩ := staged.origin ht
  refine ⟨owner, name, site, own, entry.made.comesOf entry.defined completes,
    fun element inner hi => staged.keepsInner entry hi, fun element first inner hf hi hn => ?_⟩
  exact ⟨staged.keepsInner entry (Declarations.firstInner?_of_first? hf hi),
    entry.refers element first inner hf hi hn⟩

/-! ## Two types inside elements of one name -/

def wrapping (name member : String) (line : Nat) : Xml.Node :=
  let item : Xml.Node := ⟨Vocabulary.xsd, "element", [("name", member)], [], [], "", line⟩
  let sequence : Xml.Node := ⟨Vocabulary.xsd, "sequence", [], [], [item], "", line⟩
  ⟨Vocabulary.xsd, "element", [("name", name)], [],
    [⟨Vocabulary.xsd, "complexType", [], [], [sequence], "", line⟩], "", line⟩

/-- A type with two elements named a, the first with an x inside and the second with a y. -/
def twoInnerType : Site :=
  let sequence : Xml.Node :=
    ⟨Vocabulary.xsd, "sequence", [], [], [wrapping "a" "x" 3, wrapping "a" "y" 4], "", 2⟩
  let type : Xml.Node := ⟨Vocabulary.xsd, "complexType", [("name", "T")], [], [sequence], "", 2⟩
  ⟨type, ⟨"memory:t.xsd", "urn:t", ⟨Vocabulary.xsd, "schema", [], [], [type], "", 1⟩⟩⟩

def twoInner : SchemaSet := ⟨"memory:t.xsd", [twoInnerType.document], none⟩

def twoInnerSetting : Setting := ⟨{}, ⟨[(.type, ⟨⟨some "urn:t", "T"⟩, twoInnerType⟩)]⟩, 4⟩

theorem twoInner_setting : Setting.ofSchemaSet twoInner {} = .ok twoInnerSetting := rfl

/-- There are two types, one with an a and one with an x. -/
theorem exists_of_twoInner : ∃ c, (twoInner.compile {}).result = .ok c ∧
    (c.types.map fun t => (t.name, t.anonymous, t.elementNames)).Perm
      [(some "T", false, ["a"]), (some "TA", true, ["x"])] := by
  refine ⟨_, rfl, ?_⟩
  show ((Inventory.byName _).map _).Perm _
  exact ((Compile.perm_byName _).map _).trans (.swap _ _ [])

/-- The type around the elements is made from its declaration. -/
theorem twoInner_comesOf {c : Catalog} (h : (twoInner.compile {}).result = .ok c)
    (types : (c.types.map fun t => (t.name, t.anonymous, t.elementNames)).Perm
      [(some "T", false, ["a"]), (some "TA", true, ["x"])]) :
    ∃ t ∈ c.types, (∃ name own, ComesOf twoInnerSetting c "T" name twoInnerType own t) ∧
      ∀ {owner name site own}, ComesOf twoInnerSetting c owner name site own t →
        owner = "T" ∧ site = twoInnerType := by
  obtain ⟨t, ht, summary⟩ := List.mem_map.mp (types.mem_iff.mpr List.mem_cons_self)
  simp only [Prod.mk.injEq] at summary
  have only {owner name site own} (comes : ComesOf twoInnerSetting c owner name site own t) :
      owner = "T" ∧ site = twoInnerType := by
    obtain ⟨d, hd, -, -, rfl, -⟩ := comes.defined.declaration summary.2.1
    obtain rfl := List.mem_singleton.mp hd
    exact ⟨Option.some.inj (comes.canonical.symm.trans summary.1), rfl⟩
  obtain ⟨owner, name, site, own, comes⟩ := exists_comesOf twoInner_setting h ht
  obtain ⟨rfl, rfl⟩ := only comes
  exact ⟨t, ht, ⟨name, own, comes⟩, only⟩

/-- The first type inside is kept. -/
theorem twoInner_keepsFirst : ∃ c inner, (twoInner.compile {}).result = .ok c ∧
    (twoInnerType.atNode (wrapping "a" "x" 3)).inner? = some inner ∧
    KeepsInner twoInnerSetting c "T" "a" inner := by
  obtain ⟨c, run, types⟩ := exists_of_twoInner
  obtain ⟨t, ht, -, only⟩ := twoInner_comesOf run types
  obtain ⟨S, hs, all⟩ := compile_keepsInner run
  obtain rfl := Except.ok.inj (twoInner_setting.symm.trans hs)
  obtain ⟨owner, name, site, own, comes, keeps, -⟩ := all t ht
  obtain ⟨rfl, rfl⟩ := only comes
  exact ⟨c, _, run, rfl, keeps "a" _ rfl⟩

/-- The second type inside is in no type of the catalog: none has a y. -/
theorem secondInner_lost : ∃ S c t owner name site own leaf inner,
    Setting.ofSchemaSet twoInner {} = .ok S ∧ (twoInner.compile {}).result = .ok c ∧ t ∈ c.types ∧
    ComesOf S c owner name site own t ∧ leaf ∈ contentSites S.declarations owner site ∧
    leaf.inner? = some inner ∧ ¬ KeepsInner S c owner (S.declarations.nameOf leaf) inner := by
  obtain ⟨c, run, types⟩ := exists_of_twoInner
  obtain ⟨t, ht, ⟨name, own, comes⟩, -⟩ := twoInner_comesOf run types
  obtain ⟨_, _, _, _, _, _, _, _, staged⟩ := exists_staged twoInner_setting run
  have second : twoInnerType.atNode (wrapping "a" "y" 4)
      ∈ contentSites twoInnerSetting.declarations "T" twoInnerType :=
    List.mem_cons_of_mem _ List.mem_cons_self
  refine ⟨_, c, t, "T", name, _, own, _, _, twoInner_setting, run, ht, comes, second, rfl, ?_⟩
  intro keeps
  obtain ⟨u, hu, -, innerOwn, comes⟩ := keeps
  obtain ⟨e, he, hn, -⟩ := comes.spans rfl staged.distinct List.mem_cons_self (by decide)
  have named : "y" ∈ u.elementNames := List.mem_map.mpr ⟨e, he, hn⟩
  have known := types.mem_iff.mp (List.mem_map_of_mem hu)
  simp only [List.mem_cons, Prod.mk.injEq, List.not_mem_nil, or_false] at known
  rcases known with ⟨-, -, names⟩ | ⟨-, -, names⟩
  · rw [names] at named
    revert named
    decide
  · rw [names] at named
    revert named
    decide

end SchemaSet

end WsdlCatalog
