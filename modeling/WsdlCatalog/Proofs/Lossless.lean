/-
  WsdlCatalog.Proofs.Lossless — catalogs that come of schema sets are read back.

  Types come to known kinds of values, so the types of a catalog are canonical; and so are
  options that are made of data that texts can hold.

  Proved: whatever catalog comes of a schema set is read from its text, and it has one just if
  no number in it has too many digits (`SchemaSet.compile_readsBack`); the bounds of nested
  groups make such numbers (`SchemaSet.crowd_unwritten`).
-/

import WsdlCatalog.Proofs.CanonicalTypes
import WsdlCatalog.Proofs.Integrity
import WsdlCatalog.Proofs.Origin
import WsdlCatalog.Proofs.Written

namespace WsdlCatalog

variable {R : Binary64 → Prop}

namespace Compile

variable {S : Setting}

/-! ## Types of entries -/

def Known (p : Progress) : Prop := ∀ x ∈ p.inventory.aliases, x.2.Canonical

theorem kept_known : Kept Known where
  note _ _ h := h
  entered h _ ha := by
    intro x hx
    rcases mem_put hx with rfl | hx
    · exact ha
    · exact h x hx
  known h := h

/-- A type inside another one is a structural type. -/
theorem keeps_nestedType {nested : Nested}
    (hn : ∀ c name site p q, Known p → Runs (nested c name site) p () q → Known q)
    (owner element : String) (site : Site) :
    Keeps Known (SameType TypeRef.Canonical) (nestedType nested owner element site)
      (nestedType nested owner element site) := by
  intro p ref q hp hr
  unfold nestedType at hr
  simp only [runs_bind, runs_inventory] at hr
  obtain ⟨c, r, hc, _, _, look, hr⟩ := hr
  have reserved : Known r := by
    obtain ⟨i, hi, rfl⟩ := runs_reserve.mp hc
    unfold Inventory.reserve at hi
    split at hi
    · cases hi
      exact hp
    · split at hi
      · cases hi
      · cases hi
        exact hp
  obtain ⟨rfl, rfl⟩ := look
  split at hr
  · obtain ⟨_, s, hr, hpure⟩ := runs_bind.mp hr
    obtain ⟨rfl, rfl⟩ := runs_pure.mp hpure
    exact ⟨hn _ _ _ _ _ reserved hr, _, rfl, canonical_structural _ _⟩
  · obtain ⟨rfl, rfl⟩ := runs_pure.mp hr
    exact ⟨reserved, _, rfl, canonical_structural _ _⟩

theorem keeps_bodyOf {nested : Nested}
    (hn : ∀ c name site p q, Known p → Runs (nested c name site) p () q → Known q)
    (owner : Owner) (site : Site) :
    Keeps Known (fun a b => a = b ∧ a.AllTypes TypeRef.Canonical) (bodyOf S nested owner site)
      (bodyOf S nested owner site) :=
  (kept_known.lockstep (S := S)).bodyOf rfl
    (fun h => (kept_known.lockstep (S := S)).elementTypeWith
      (fun owner element s _ _ => keeps_nestedType hn owner element s) h owner) rfl

theorem known_complexTypeIn (depth : Nat) :
    ∀ anonymous c name site p q, Known p →
      Runs (complexTypeIn S depth anonymous c name site) p () q → Known q := by
  induction depth with
  | zero => exact fun _ _ _ _ _ _ _ hr => absurd hr runs_fail
  | succ depth ih =>
    intro anonymous c name site p q hp hr
    unfold complexTypeIn at hr
    simp only [runs_bind, runs_addType] at hr
    obtain ⟨body, r, hb, rfl⟩ := hr
    exact (keeps_bodyOf (ih true) c site p body r hp hb).1

/-- A type that comes of its definition is canonical. -/
theorem Made.canonical {owner : String} {name : QName} {anonymous : Bool} {site : Site}
    {t : StructuralType} (ho : S.options.Canonical R) (h : Made S owner name anonymous site t) :
    t.Canonical R := by
  obtain ⟨depth, body, p, q, hp, hr, rfl⟩ := h
  obtain ⟨-, _, -, types⟩ := keeps_bodyOf (known_complexTypeIn depth true) (some owner) site p body q
    (fun x hx => (hp.aliases x hx).2) hr
  exact canonical_toType ho (collected_bodyOf hr) types _ _ _ _

end Compile

namespace Extension

variable {types : Table} {n : Nat} {name : Owner} {t : StructuralType}

theorem Full.canonical (hown : ∀ x ∈ types, x.2.OwnMembers ∧ x.2.Canonical R)
    (h : Full types n name t) : t.Canonical R := by
  induction h with
  | own hl _ => exact (hown _ (mem_of_lookup hl)).2
  | extending hl _ _ hc ih =>
    obtain ⟨own, canonical⟩ := hown _ (mem_of_lookup hl)
    exact StructuralType.compose_canonical hc own canonical ih

end Extension

/-! ## Options -/

namespace Options

open Json (Formed)

def AllFormed (R : Binary64 → Prop) (given : List (String × Json)) : Prop := ∀ x ∈ given, x.2.Formed R

mutual

theorem allFormed_entry (key : String) : ∀ value : Json, value.Formed R → AllFormed R (entry key value)
  | .obj members, h => by
    unfold entry
    split
    · cases h with
      | obj _ each => exact allFormed_entries members each
    · exact List.forall_mem_singleton.mpr h
  | .null, h | .bool _, h | .int _, h | .real _, h | .str _, h | .arr _, h => by
    unfold entry
    exact List.forall_mem_singleton.mpr h

theorem allFormed_entries : ∀ given : List (String × Json), AllFormed R given → AllFormed R (entries given)
  | [], _ => fun _ h => absurd h List.not_mem_nil
  | (key, value) :: rest, h => by
    unfold entries
    rw [AllFormed, List.forall_mem_cons] at h
    exact List.forall_mem_append.mpr ⟨allFormed_entry key value h.1, allFormed_entries rest h.2⟩

end

variable {given : List (String × Json)}

theorem formed_lookup (h : AllFormed R given) {key : String} {value : Json}
    (hl : given.lookup key = some value) : value.Formed R := h _ (mem_of_lookup hl)

theorem canonical_switch (h : AllFormed R given) (name : String) :
    (switch given name).Canonical R Json.bool? := by
  unfold switch
  split
  · trivial
  · rename_i value hl
    exact Loose.canonical_ofJson (formed_lookup h hl)

theorem canonical_attributesKeyOf (h : AllFormed R given) {key : Loose String}
    (hk : attributesKeyOf given = .ok key) :
    key.Canonical R Json.str? ∧ (key.toJson .str).truthy = true := by
  unfold attributesKeyOf at hk
  split at hk
  · cases hk
    exact ⟨trivial, by decide⟩
  · rename_i value hl
    split at hk
    · rename_i truthy
      cases hk
      refine ⟨Loose.canonical_ofJson (formed_lookup h hl), ?_⟩
      rw [Loose.toJson_ofJson fun _ _ => Json.str_str?]
      exact truthy
    · cases hk

theorem canonical_clientNameOf (h : AllFormed R given) :
    ∀ name ∈ clientNameOf given, name.Canonical R Json.str? ∧ name ≠ .other .null := by
  intro name hn
  unfold clientNameOf at hn
  split at hn
  · cases hn
  · cases hn
  · rename_i value notNull hl
    cases hn
    refine ⟨Loose.canonical_ofJson (formed_lookup h hl), fun he => notNull ?_⟩
    have written := congrArg (Loose.toJson Json.str) he
    rw [Loose.toJson_ofJson fun _ _ => Json.str_str?] at written
    exact written

/-- Options that are made of data that texts can hold are canonical. -/
theorem canonical_resolve {overrides : List (String × Json)} {options : Options}
    (hg : AllFormed R given) (ho : AllFormed R overrides) (h : resolve given overrides = .ok options) :
    options.Canonical R := by
  have proper : AllFormed R (putAll (entries given ++ entries overrides)) := by
    intro x hx
    rcases List.mem_append.mp (mem_putAll hx) with hx | hx
    · exact allFormed_entries given hg x hx
    · exact allFormed_entries overrides ho x hx
  unfold resolve ofEntries at h
  generalize putAll (entries given ++ entries overrides) = table at proper h
  dsimp only at h
  split at h
  · cases h
  · obtain ⟨int64, -, h⟩ := ok_bind.mp h
    obtain ⟨bigInteger, -, h⟩ := ok_bind.mp h
    obtain ⟨decimal, -, h⟩ := ok_bind.mp h
    obtain ⟨date, -, h⟩ := ok_bind.mp h
    obtain ⟨choice, -, h⟩ := ok_bind.mp h
    obtain ⟨attributesKey, hk, h⟩ := ok_bind.mp h
    cases h
    obtain ⟨canonical, holds⟩ := canonical_attributesKeyOf proper hk
    exact ⟨canonical_switch proper _, canonical_switch proper _, canonical, holds,
      canonical_clientNameOf proper⟩

end Options

/-! ## Catalogs -/

namespace Compile

theorem canonical_displayName {options : Options} (ho : options.Canonical R)
    {serviceName : Option String} {location : String} {name : Loose String}
    (h : displayName options serviceName location = .ok name) : name.Canonical R Json.str? := by
  unfold displayName at h
  split at h
  · rename_i client hc
    cases h
    exact (ho.clientName _ (Option.filter_eq_some_iff.mp hc).1).1
  · cases h
    trivial
  · cases hl : Location.stem location with
    | error e =>
      rw [hl] at h
      cases h
    | ok stem =>
      rw [hl] at h
      cases h
      trivial

variable {S : Setting} {set : SchemaSet} {q : Progress} {c : Catalog} {compiled : Progress}
  {types : List (Option String × StructuralType)} {aliases : List ScalarAlias}
  {sorted : List StructuralType} {operations : List Operation} {serviceName : Option String}
  {displayName : Loose String}

/-- A catalog is canonical if the options are. -/
theorem Staged.canonical (ho : S.options.Canonical R)
    (h : Staged S set .start q c compiled types aliases sorted operations serviceName displayName) :
    c.Canonical R := by
  have own : ∀ x ∈ compiled.inventory.types, x.2.OwnMembers ∧ x.2.Canonical R := by
    intro x hx
    obtain ⟨owner, name, anonymous, site, -, entry⟩ := h.established.entered x hx
    exact ⟨entry.made.ownMembers, entry.made.canonical ho⟩
  have scalar : ∀ a ∈ c.aliases, a.Canonical := by
    intro a ha
    rw [h.catalog] at ha
    obtain ⟨x, hx, rfl⟩ := List.mem_map.mp ((perm_of_byCanonical h.sortedAliases).mem_iff.mp ha)
    exact h.described.2 x hx
  have type : ∀ t ∈ c.types, t.Canonical R := by
    intro t ht
    obtain ⟨n, k, full⟩ := h.mem_types_iff.mp ht
    exact full.canonical own
  have name := canonical_displayName ho h.displayName
  rw [h.catalog] at scalar type ⊢
  refine ⟨scalar, type, rfl, ho, trivial, fun name hn => ?_, name, trivial⟩
  obtain ⟨s, -, rfl⟩ := Option.map_eq_some_iff.mp hn
  exact ⟨trivial, nofun⟩

end Compile

namespace SchemaSet

/-- A catalog is canonical if its options are data that texts can hold. -/
theorem canonical_of_compile {set : SchemaSet} {given overrides : List (String × Json)}
    {options : Options} {c : Catalog} (hg : Options.AllFormed R given)
    (ho : Options.AllFormed R overrides) (hr : Options.resolve given overrides = .ok options)
    (h : (set.compile options).result = .ok c) : c.Canonical R := by
  obtain ⟨S, hs⟩ := exists_setting h
  obtain ⟨_, _, _, _, _, _, _, _, staged⟩ := exists_staged hs h
  have canonical : S.options.Canonical R := by
    rw [(Setting.ofSchemaSet_eq_ok.mp hs).1]
    exact Options.canonical_resolve hg ho hr
  exact staged.canonical canonical

/-- **A catalog is read back from its text**, whatever the schema set and however the text is set
in, if the options are data that texts can hold. It has a text just if no number in it has more
digits than numbers are written with. -/
theorem compile_readsBack {set : SchemaSet} {given overrides : List (String × Json)}
    {options : Options} {c : Catalog} (hg : Options.AllFormed Binary64.Canonical given)
    (ho : Options.AllFormed Binary64.Canonical overrides)
    (hr : Options.resolve given overrides = .ok options)
    (h : (set.compile options).result = .ok c) (indent : Option Nat) :
    (∀ text, c.toText indent = .ok text → Catalog.ofText text = .ok c) ∧
    ((∃ text, c.toText indent = .ok text) ↔
      ∀ n, .int n ∈ c.toJson.atoms → n.natAbs < 10 ^ Text.digitLimit) :=
  ⟨fun _ ht => Catalog.ofText_toText (canonical_of_compile hg ho hr h) ht, Json.exists_print⟩

/-- Whether data are plain, as can be evaluated. -/
def looksPlain (j : Json) : Bool :=
  j.atoms.all fun a => a.str?.all (fun s => !decide (Transport.typeMark <:+: s.toList)) && !a matches .real _

theorem isPlain_of_looksPlain {j : Json} (h : looksPlain j = true) : Transport.IsPlain j := by
  have each := List.all_eq_true.mp h
  refine ⟨fun s hs => ?_, fun x hx => ?_⟩
  · simpa [Json.str?] using each _ hs
  · simpa using each _ hx

/-- A name with a quote, a line break and a letter beyond ASCII. -/
def quotedName : String := "say \"hé\"\n"

/-- A type with a choice, made at most three times, between any number of lines and an image. -/
def memo : SchemaSet :=
  let xsd (tag : String) (attributes : List (String × String)) (children : List Xml.Node) : Xml.Node :=
    ⟨Vocabulary.xsd, tag, attributes, [("t", some "urn:t")], children, "", 1⟩
  let line := xsd "element" [("name", "line"), ("maxOccurs", "unbounded")] []
  let image := xsd "element" [("name", "image")] []
  let type := xsd "complexType" [("name", "Memo")] [xsd "choice" [("maxOccurs", "3")] [line, image]]
  ⟨"memory:t.xsd", [⟨"memory:t.xsd", "urn:t", xsd "schema" [] [type]⟩], none⟩

def memoOptions : Options := { choice := .union, clientName := some (.own quotedName) }

theorem memo_compiled : ∃ c, (memo.compile memoOptions).result = .ok c ∧
    c.displayName.toJson .str = .str quotedName ∧
    c.types.map (fun t => t.elements.map (·.max)) = [[none, some 3]] ∧
    Transport.IsPlain c.toJson ∧ c.toJson.isPrintable = true := by
  have known : (memo.compile memoOptions).result.toOption.any (fun c =>
      (c.types.map (fun t => t.elements.map (·.max)) == [[none, some 3]] &&
        looksPlain c.toJson) && c.toJson.isPrintable) = true := by
    decide +kernel
  have named : ∀ c, (memo.compile memoOptions).result = .ok c →
      c.displayName.toJson .str = .str quotedName := by
    intro c h
    cases h
    rfl
  cases run : (memo.compile memoOptions).result with
  | error e =>
    rw [run] at known
    cases known
  | ok c =>
    rw [run] at known
    obtain ⟨held, printable⟩ := Bool.and_eq_true_iff.mp known
    obtain ⟨bounds, plain⟩ := Bool.and_eq_true_iff.mp held
    exact ⟨c, rfl, named c run, eq_of_beq bounds, isPlain_of_looksPlain plain, printable⟩

/-- What the options are resolved from. -/
theorem resolve_memoOptions :
    Options.resolve [("clientName", .str quotedName)] [("choice", .str "union")] = .ok memoOptions := rfl

theorem formed_memoOptions : Options.AllFormed R [("clientName", .str quotedName)] ∧
    Options.AllFormed R [("choice", .str "union")] :=
  ⟨List.forall_mem_singleton.mpr (.str _), List.forall_mem_singleton.mpr (.str _)⟩

theorem memo_readsBack : ∃ c text, (memo.compile memoOptions).result = .ok c ∧
    c.displayName.toJson .str = .str quotedName ∧
    c.types.map (fun t => t.elements.map (·.max)) = [[none, some 3]] ∧
    c.toText (some 2) = .ok text ∧ Catalog.ofText text = .ok c := by
  obtain ⟨c, run, named, bounds, -, printable⟩ := memo_compiled
  obtain ⟨given, overrides⟩ := formed_memoOptions (R := Binary64.Canonical)
  obtain ⟨back, written⟩ := compile_readsBack given overrides resolve_memoOptions run (some 2)
  obtain ⟨text, ht⟩ := written.mpr (Json.isPrintable_iff.mp printable)
  exact ⟨c, text, run, named, bounds, ht, back text ht⟩

/-- An element inside groups inside one another, each of which stands as many times as a number
of a hundred digits says. -/
def crowd : SchemaSet :=
  let node (tag : String) (attributes : List (String × String)) (children : List Xml.Node) :
    Xml.Node := ⟨Vocabulary.xsd, tag, attributes, [], children, "", 1⟩
  let many := ("maxOccurs", String.ofList ('1' :: List.replicate 99 '0'))
  let group (inner : Xml.Node) := node "sequence" [many] [inner]
  let guests := Nat.repeat group 44 (node "element" [("name", "guest")] [])
  let type := node "complexType" [("name", "Crowd")] [node "sequence" [] [guests]]
  ⟨"memory:t.xsd", [⟨"memory:t.xsd", "urn:t", node "schema" [] [type]⟩], none⟩

/-- The product of the numbers has more digits than are written. -/
theorem crowd_compiled : ∃ c, (crowd.compile {}).result = .ok c ∧
    c.types.map (fun t => t.elements.map (·.max)) = [[some (10 ^ 4356)]] ∧
    Transport.IsPlain c.toJson ∧ ¬ c.toJson.isPrintable = true := by
  have known : (crowd.compile {}).result.toOption.any (fun c =>
      (c.types.map (fun t => t.elements.map (·.max)) == [[some (10 ^ 4356)]] &&
        looksPlain c.toJson) && !c.toJson.isPrintable) = true := by
    decide +kernel
  cases run : (crowd.compile {}).result with
  | error e =>
    rw [run] at known
    cases known
  | ok c =>
    rw [run] at known
    obtain ⟨held, overlong⟩ := Bool.and_eq_true_iff.mp known
    obtain ⟨bounds, plain⟩ := Bool.and_eq_true_iff.mp held
    refine ⟨c, rfl, eq_of_beq bounds, isPlain_of_looksPlain plain, fun printable => ?_⟩
    rw [printable] at overlong
    cases overlong

theorem crowd_unwritten : ∃ c, (crowd.compile {}).result = .ok c ∧
    c.types.map (fun t => t.elements.map (·.max)) = [[some (10 ^ 4356)]] ∧
    ∀ indent, c.toText indent = .error .overlong := by
  obtain ⟨c, run, bounds, -, overlong⟩ := crowd_compiled
  refine ⟨c, run, bounds, fun indent => ?_⟩
  unfold Catalog.toText Json.print
  rw [if_neg overlong]

end SchemaSet

end WsdlCatalog
