/-
  WsdlCatalog.Proofs.Maximum — how often the elements of a type of a catalog come at most.

  What a type accepts is what its base accepts and then what its own content model accepts
  (`Compile.Models`). All leaves of a name are one element, whose maximum is the largest of
  theirs and not their sum. So where a document goes through several leaves of the name,
  one after another, the maximum holds for each of them.

  Proved: an element comes no more often than its maximum times the number of leaves of its
  name that are met together, and no more often than its maximum where no sequence has the
  name in two of its parts (`SchemaSet.compile_maximum`). For a sequence that has an element
  twice the maximum is exceeded (`SchemaSet.twiceNamed_exceeds`).
-/

import WsdlCatalog.Proofs.Repetition
import WsdlCatalog.Proofs.Spanning

namespace WsdlCatalog

/-- An element may come so often, if it may come as often as its maximum says so many times. -/
def Element.Allows (e : Element) (times count : Nat) : Prop :=
  (∀ high, e.max = some high → (count : Int) ≤ times * high) ∧ (e.isArray = false → count ≤ times)

namespace Compile

/-- What a type of a catalog accepts: its own content model, after the one of its base if it
extends a type. -/
inductive Models (S : Setting) (c : Catalog) : StructuralType → List Particle → Prop where
  | own {t own : StructuralType} {owner : String} {name : QName} {site : Site}
    (h : ComesOf S c owner name site own t) (hb : t.base = none) :
    Models S c t (contentModel S.declarations (some owner) site)
  | extending {t own base : StructuralType} {owner b : String} {name : QName} {site : Site}
    {inherited : List Particle} (h : ComesOf S c owner name site own t) (hb : t.base = some b)
    (hm : base ∈ c.types) (hn : base.name = some b) (hi : Models S c base inherited) :
    Models S c t (inherited ++ contentModel S.declarations (some owner) site)

variable {S : Setting} {c : Catalog} {t : StructuralType} {model : List Particle}

/-- The elements of a type span the leaves of all it accepts. -/
theorem Models.spans (h : Models S c t model) (hc : S.options.choice = .allOptional)
    (distinct : ∀ u ∈ c.types, u.Distinct) (names : (c.types.map (·.name)).Nodup)
    {l : Site × Range} (hl : l ∈ Particle.leavesOf model)
    (hn : S.declarations.nameOf l.1 ≠ textSlotName) : t.Spans (S.declarations.nameOf l.1) l.2 := by
  induction h with
  | own h _ => exact h.spans hc distinct hl hn
  | extending h hb hm hbn _ ih =>
    rw [Particle.leavesOf_append] at hl
    rcases List.mem_append.mp hl with hl | hl
    · exact h.completes.spans_base distinct names h.made.ownMembers hb hm hbn (ih hl)
    · exact h.spans hc distinct hl hn

/-- What holds of the leaves of a name holds of how often it comes. -/
theorem allows_of_spans {nameOf : Site → String} {n : String} {e : Element}
    (mentions : Particle.AnyMentions nameOf n model)
    (spans : ∀ l ∈ Particle.leavesOf model, nameOf l.1 = n → e.Spans l.2) {w : List String}
    (hw : Particle.InOrder nameOf model w) {times : Nat}
    (ht : Particle.togetherOf nameOf n model ≤ times) : e.Allows times (w.count n) := by
  have bound (high : Int) (hh : e.max = some high) : (w.count n : Int) ≤ times * high := by
    obtain ⟨l, hl, hln, -⟩ := Particle.exists_leafOf_le model mentions
    obtain ⟨k, -, hk⟩ := spans l hl hln high hh
    obtain ⟨m, rfl⟩ := Int.eq_ofNat_of_zero_le (le_trans (Int.natCast_nonneg k) hk)
    have limited : Particle.Limited nameOf n (Particle.leavesOf model) m := by
      intro l hl hln
      obtain ⟨k, hu, hk⟩ := spans l hl hln m hh
      exact ⟨k, hu, Int.ofNat_le.mp hk⟩
    have count := Particle.countedOf_le_together model limited (Particle.counted_of_inOrder hw)
    exact_mod_cast count.trans (Nat.mul_le_mul_right m ht)
  refine ⟨bound, fun single => ?_⟩
  unfold Element.isArray at single
  cases hm : e.max with
  | none =>
    rw [hm] at single
    cases single
  | some high =>
    rw [hm] at single
    have least : high ≤ 1 := not_lt.mp (of_decide_eq_false single)
    have count := bound high hm
    have once : (times : Int) * high ≤ times * 1 :=
      mul_le_mul_of_nonneg_left least (Int.natCast_nonneg times)
    omega

variable {set : SchemaSet} {q compiled : Progress} {types : List (Option String × StructuralType)}
  {aliases : List ScalarAlias} {sorted : List StructuralType} {operations : List Operation}
  {serviceName : Option String} {displayName : Loose String}

/-- Every type of a catalog accepts something. -/
theorem Staged.exists_models
    (h : Staged S set .start q c compiled types aliases sorted operations serviceName displayName)
    (ht : t ∈ c.types) : ∃ model, Models S c t model := by
  obtain ⟨n, k, full⟩ := h.mem_types_iff.mp ht
  clear ht
  have comes {n : Nat} {k : Option String} {own t : StructuralType}
      (hl : compiled.inventory.types.lookup k = some own)
      (full : Extension.Full compiled.inventory.types n k t) :
      ∃ owner name site, ComesOf S c owner name site own t := by
    obtain ⟨owner, name, anonymous, site, -, entry⟩ := h.established.entered _ (mem_of_lookup hl)
    exact ⟨owner, name, site, entry.made.comesOf entry.defined (h.completes_of_full hl full)⟩
  induction full with
  | own hl hb =>
    obtain ⟨owner, name, site, comes⟩ := comes hl (.own hl hb)
    exact ⟨_, .own comes hb⟩
  | extending hl hb hbase hc ih =>
    obtain ⟨owner, name, site, comes⟩ := comes hl (.extending hl hb hbase hc)
    obtain ⟨inherited, hi⟩ := ih
    exact ⟨_, .extending comes (comes.completes.same.2.2.1.trans hb)
      (h.mem_types_iff.mpr ⟨_, _, hbase⟩) (hbase.named h.established.entered.own) hi⟩

end Compile

namespace SchemaSet

open Compile

/-- **The maximum of an element, times the leaves of its name that are met together, is not
exceeded** in any document that a type of a catalog accepts. -/
theorem compile_maximum {set : SchemaSet} {options : Options} {c : Catalog}
    (hc : options.choice = .allOptional) (h : (set.compile options).result = .ok c) :
    ∃ S, Setting.ofSchemaSet set options = .ok S ∧ ∀ t ∈ c.types, (∃ model, Models S c t model) ∧
      ∀ model, Models S c t model → ∀ n, Particle.AnyMentions S.declarations.nameOf n model →
        n ≠ textSlotName → (∃ e ∈ t.elements, e.name = n) ∧ ∀ e ∈ t.elements, e.name = n →
          ∀ w, Particle.InOrder S.declarations.nameOf model w →
            e.Allows (Particle.togetherOf S.declarations.nameOf n model) (w.count n) ∧
            (Particle.AllSeparate S.declarations.nameOf n model → e.Allows 1 (w.count n)) := by
  obtain ⟨S, hs⟩ := exists_setting h
  obtain ⟨_, _, _, _, _, _, _, _, staged⟩ := exists_staged hs h
  have policy : S.options.choice = .allOptional := by
    rw [(Setting.ofSchemaSet_eq_ok.mp hs).1]
    exact hc
  refine ⟨S, hs, fun t ht => ⟨staged.exists_models ht, fun model hm n mentions hn => ?_⟩⟩
  have distinct := (staged.distinct t ht).elements
  have spans (l : Site × Range) (hl : l ∈ Particle.leavesOf model)
      (hln : S.declarations.nameOf l.1 = n) : t.Spans n l.2 := by
    have := hm.spans policy staged.distinct staged.nodup_names hl (hln ▸ hn)
    rwa [hln] at this
  constructor
  · obtain ⟨l, hl, hln, -⟩ := Particle.exists_leafOf_le model mentions
    obtain ⟨e, he, hen, -, -⟩ := spans l hl hln
    exact ⟨e, he, hen⟩
  · intro e he hen w hw
    have all (l : Site × Range) (hl : l ∈ Particle.leavesOf model)
        (hln : S.declarations.nameOf l.1 = n) : e.Spans l.2 := by
      obtain ⟨x, hx, hxn, -, spans⟩ := spans l hl hln
      rw [List.inj_on_of_nodup_map distinct he hx (hen.trans hxn.symm)]
      exact spans
    refine ⟨allows_of_spans mentions all hw le_rfl, fun separate => ?_⟩
    exact allows_of_spans mentions all hw (Particle.togetherOf_le_one separate)

/-! ## A sequence with an element twice -/

/-- A type of two elements of one name, each of which comes once. -/
def twiceNamedType : Site :=
  let item (line : Nat) : Xml.Node := ⟨Vocabulary.xsd, "element", [("name", "x")], [], [], "", line⟩
  let sequence : Xml.Node := ⟨Vocabulary.xsd, "sequence", [], [], [item 3, item 4], "", 2⟩
  let type : Xml.Node := ⟨Vocabulary.xsd, "complexType", [("name", "T")], [], [sequence], "", 2⟩
  ⟨type, ⟨"memory:t.xsd", "urn:t", ⟨Vocabulary.xsd, "schema", [], [], [type], "", 1⟩⟩⟩

def twiceNamed : SchemaSet := ⟨"memory:t.xsd", [twiceNamedType.document], none⟩

def twiceNamedSetting : Setting := ⟨{}, ⟨[(.type, ⟨⟨some "urn:t", "T"⟩, twiceNamedType⟩)]⟩, 2⟩

theorem twiceNamed_setting : Setting.ofSchemaSet twiceNamed {} = .ok twiceNamedSetting := rfl

theorem exists_of_twiceNamed : ∃ c, (twiceNamed.compile {}).result = .ok c ∧
    c.types.map (fun t => (t.name, t.anonymous, t.base, t.elements.map fun e => (e.name, e.max)))
      = [(some "T", false, none, [("x", some 1)])] := ⟨_, rfl, rfl⟩

def twiceNamedModel : List Particle :=
  contentModel twiceNamedSetting.declarations (some "T") twiceNamedType

/-- The type has one element for both, which comes once at most. -/
theorem twiceNamed_models : ∃ c t e, (twiceNamed.compile {}).result = .ok c ∧ t ∈ c.types ∧
    Models twiceNamedSetting c t twiceNamedModel ∧ t.elements = [e] ∧ e.name = "x" ∧
    e.max = some 1 := by
  obtain ⟨c, run, types⟩ := exists_of_twiceNamed
  obtain ⟨t, ht, summary⟩ := List.mem_map.mp (types ▸ List.mem_cons_self)
  simp only [Prod.mk.injEq, List.map_eq_singleton_iff] at summary
  obtain ⟨name, declared, base, e, elements, element⟩ := summary
  obtain ⟨owner, _, site, own, comes⟩ := exists_comesOf twiceNamed_setting run ht
  obtain ⟨d, hd, -, -, rfl, -⟩ := comes.defined.declaration declared
  obtain rfl := List.mem_singleton.mp hd
  obtain rfl := Option.some.inj (comes.canonical.symm.trans name)
  exact ⟨c, t, e, run, ht, .own comes base, elements, element⟩

theorem twiceNamed_accepts :
    Particle.InOrder twiceNamedSetting.declarations.nameOf twiceNamedModel ["x", "x"] := by
  have once : Bounds.Allows .once 1 := ⟨Nat.le_refl 1, fun _ h => Option.some.inj h ▸ Nat.le_refl 1⟩
  have item : ∃ k, Bounds.Allows .once k ∧ ["x"] = List.replicate k "x" := ⟨1, once, rfl⟩
  refine ⟨["x", "x"], [], ⟨1, once, ["x", "x"], [], ?_, rfl, rfl⟩, rfl, rfl⟩
  exact ⟨["x"], ["x"], item, ⟨["x"], [], item, rfl, rfl⟩, rfl⟩

/-- Two leaves are met together, so the maximum holds twice. -/
theorem twiceNamed_allows : ∃ c t, (twiceNamed.compile {}).result = .ok c ∧ t ∈ c.types ∧
    ∃ e ∈ t.elements, e.name = "x" ∧ e.Allows 2 (["x", "x"].count "x") := by
  obtain ⟨c, t, e, run, ht, models, elements, name, -⟩ := twiceNamed_models
  have he : e ∈ t.elements := elements ▸ List.mem_cons_self
  obtain ⟨S, hs, all⟩ := compile_maximum rfl run
  obtain rfl := Except.ok.inj (twiceNamed_setting.symm.trans hs)
  have mentions : Particle.AnyMentions twiceNamedSetting.declarations.nameOf "x" twiceNamedModel :=
    .inl (.inl rfl)
  obtain ⟨-, allowed⟩ := (all t ht).2 _ models "x" mentions (by decide)
  exact ⟨c, t, run, ht, e, he, name, (allowed e he name _ twiceNamed_accepts).1⟩

/-- A document with the element twice is accepted, though it may come once. -/
theorem twiceNamed_exceeds : ∃ S c t model w e, Setting.ofSchemaSet twiceNamed {} = .ok S ∧
    (twiceNamed.compile {}).result = .ok c ∧ t ∈ c.types ∧ Models S c t model ∧
    Particle.InOrder S.declarations.nameOf model w ∧ e ∈ t.elements ∧ e.max = some 1 ∧
    e.isArray = false ∧ w.count e.name = 2 := by
  obtain ⟨c, t, e, run, ht, models, elements, name, max⟩ := twiceNamed_models
  refine ⟨_, c, t, _, ["x", "x"], e, twiceNamed_setting, run, ht, models, twiceNamed_accepts,
    elements ▸ List.mem_cons_self, max, ?_, ?_⟩
  · unfold Element.isArray
    rw [max]
    rfl
  · rw [name]
    rfl

end SchemaSet

end WsdlCatalog
