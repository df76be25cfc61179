/-
  WsdlCatalog.Proofs.SimpleType — what simple types are, whenever they are compiled.

  A reference to a type has a meaning before anything is compiled (`Setting.target`), and
  so has a simple type: its shape follows from what it is derived from, as far inwards as
  there are names (`ShapeOf`). The number of names on the way is its rank. Compiling a
  simple type changes nothing but the entries of simple types and the reports, and what is
  reported is settled by the new entries alone (`Delta`).

  Proved: an entry is what the simple type is (`compileAlias_sound`), and a simple type
  that is something can be compiled at any time (`compileAlias_runs`).
-/

import Mathlib.Data.List.Perm.Subperm
import WsdlCatalog.Proofs.Bare
import WsdlCatalog.Proofs.Run
import WsdlCatalog.Proofs.Table
import WsdlCatalog.Proofs.Unanswered

namespace WsdlCatalog

/-! ## References -/

inductive Target where
  /-- Nothing: the name it is known by, its key, and the fault it is for whoever refers. -/
  | unknown (declared key : String) (fault : Owner → Fault)
  | scalar (ref : TypeRef)
  | simple (d : Declaration)
  | complex (name : QName)

def Setting.target (setting : Setting) (reference : String) (site : Site) : Target :=
  match Reference.meaning reference site with
  | .error pfx =>
    .unknown reference reference fun owner =>
      .unboundPrefix pfx reference owner site.document.location
  | .ok name =>
    if name.uri == some Vocabulary.xsd then .scalar (Builtin.ref setting.options name)
    else if name.uri == some Vocabulary.soapEncoding then
      if Builtin.isBuiltin name.localPart then .scalar (Builtin.ref setting.options name)
      else .scalar ⟨.scalar, name.label, .untyped, none, none, false⟩
    else
      match setting.declarations.lookup .type name with
      | none =>
        .unknown name.label name.key fun owner =>
          .undeclared .type name owner site.document.location
      | some d => if d.isSimpleType then .simple d else .complex name

namespace Compile

theorem resolveTypeWith_eq (setting : Setting) (compileAlias : Declaration → Compile ScalarAlias)
    (reference : String) (site : Site) (owner : Owner) :
    resolveTypeWith setting compileAlias reference site owner =
      match setting.target reference site with
      | .unknown declared key fault => do
        report setting (fault owner) key
        return .unresolved declared
      | .scalar ref => return ref
      | .simple d => return .ofAlias (← compileAlias d)
      | .complex name => do
        let canonical := (← inventory).canonical? (ownerOfType name)
        return ⟨.structural, name.label, .untyped, canonical, none, false⟩ := by
  unfold resolveTypeWith qualify Reference.qualify Setting.target missing
  cases Reference.meaning reference site with
  | error pfx => exact (bind_assoc _ _ _).trans (congrArg _ (funext fun _ => pure_bind _ _))
  | ok name =>
    refine (pure_bind _ _).trans ?_
    dsimp only
    split
    · rfl
    · split
      · split <;> rfl
      · cases setting.declarations.lookup .type name with
        | none => rfl
        | some d => dsimp only; split <;> rfl

end Compile

/-! ## Reports -/

/-- What is noticed on the way: a diagnostic, and the key of an unresolved reference if it is
about one. -/
abbrev Report := Diagnostic × Option String

namespace Progress

def addKeys (keys : List String) (more : List String) : List String :=
  more.foldl (fun keys key => if keys.contains key then keys else keys ++ [key]) keys

theorem addKeys_append (keys xs ys : List String) :
    addKeys keys (xs ++ ys) = addKeys (addKeys keys xs) ys := List.foldl_append

theorem mem_addKeys {key : String} (more : List String) :
    ∀ {keys : List String}, key ∈ addKeys keys more ↔ key ∈ keys ∨ key ∈ more := by
  induction more with
  | nil => exact fun {keys} => ⟨.inl, fun h => h.resolve_right List.not_mem_nil⟩
  | cons k rest ih =>
    intro keys
    refine ih.trans ?_
    dsimp only
    by_cases hk : keys.contains k = true
    · have here : k ∈ keys := List.contains_iff_mem.mp hk
      rw [if_pos hk, List.mem_cons]
      constructor
      · exact fun h => h.imp id .inr
      · intro given
        rcases given with h | rfl | h
        · exact .inl h
        · exact .inl here
        · exact .inr h
    · rw [if_neg hk, List.mem_append, List.mem_singleton, List.mem_cons, or_assoc]

theorem nodup_addKeys (more : List String) :
    ∀ {keys : List String}, keys.Nodup → (addKeys keys more).Nodup := by
  induction more with
  | nil => exact fun h => h
  | cons k rest ih =>
    intro keys h
    refine ih ?_
    dsimp only
    by_cases hk : keys.contains k = true
    · rw [if_pos hk]
      exact h
    · have new : k ∉ keys := fun hm => hk (List.contains_iff_mem.mpr hm)
      rw [if_neg hk, ← List.concat_eq_append]
      exact h.concat new

/-- In another order the same keys are added. -/
theorem addKeys_perm {more more' : List String} (h : more.Perm more') {keys : List String}
    (hn : keys.Nodup) : (addKeys keys more).Perm (addKeys keys more') := by
  refine (List.perm_ext_iff_of_nodup (nodup_addKeys more hn) (nodup_addKeys more' hn)).mpr ?_
  intro key
  rw [mem_addKeys, mem_addKeys, h.mem_iff]

structure Reported (p q : Progress) (rs : List Report) : Prop where
  diagnostics : q.diagnostics = p.diagnostics ++ rs.map Prod.fst
  unresolved : q.unresolved = addKeys p.unresolved (rs.filterMap Prod.snd)

theorem Reported.refl (p : Progress) : p.Reported p [] := ⟨(List.append_nil _).symm, rfl⟩

theorem Reported.trans {p q r : Progress} {rs rs' : List Report} (h : p.Reported q rs)
    (h' : q.Reported r rs') : p.Reported r (rs ++ rs') where
  diagnostics := by
    rw [h'.diagnostics, h.diagnostics, List.map_append, List.append_assoc]
  unresolved := by
    rw [h'.unresolved, h.unresolved, List.filterMap_append, addKeys_append]

theorem reported_note (p : Progress) (f : Fault) (key : String) :
    p.Reported (p.note f key) [(f.diagnostic, some key)] := ⟨rfl, rfl⟩

end Progress

/-! ## Shapes -/

namespace SimpleDerivation

def within (name : String) (node : Xml.Node) : SimpleDerivation :=
  match node.filled? name with
  | some reference => ⟨.named reference node, []⟩
  | none =>
    match node.child? Vocabulary.xsd "simpleType" with
    | some inner => ofNode inner
    | none => ofText

theorem ofNode_eq (node : Xml.Node) : ofNode node =
    match node.child? Vocabulary.xsd "restriction" with
    | some restriction =>
      if (valuesOf restriction).isEmpty then within "base" restriction
      else (within "base" restriction).andThen (.values (valuesOf restriction))
    | none =>
      match node.child? Vocabulary.xsd "list" with
      | some list => (within "itemType" list).andThen .list
      | none => ofText := by
  rw [ofNode]
  unfold within
  split
  · rename_i restriction hr
    rw [hr]
    dsimp only
    cases restriction.filled? "base" with
    | some reference => rfl
    | none =>
      cases restriction.child? Vocabulary.xsd "simpleType" with
      | some inner => rfl
      | none => rfl
  · rename_i hr
    rw [hr]
    dsimp only
    split
    · rename_i list hl
      rw [hl]
      dsimp only
      cases list.filled? "itemType" with
      | some reference => rfl
      | none =>
        cases list.child? Vocabulary.xsd "simpleType" with
        | some inner => rfl
        | none => rfl
    · rename_i hl
      rw [hl]

end SimpleDerivation

inductive Origin where
  | known (shape : SimpleShape)
  /-- Nothing: the shape that stands for it, its key, and the fault it is for the type. -/
  | unknown (shape : SimpleShape) (key : String) (fault : Owner → Fault)
  | simple (d : Declaration)
  | complex (name : QName)

namespace Setting

def origin (setting : Setting) (site : Site) : Origin :=
  match (SimpleDerivation.ofNode site.node).origin with
  | .text => .known .text
  | .named reference node =>
    match setting.target reference (site.atNode node) with
    | .unknown declared key fault => .unknown (.ofRef (.unresolved declared)) key fault
    | .scalar ref => .known (.ofRef ref)
    | .simple d => .simple d
    | .complex name => .complex name

def shapeReports (setting : Setting) (owner : Owner) (site : Site) : List Report :=
  match setting.origin site with
  | .unknown _ key fault => [((fault owner).diagnostic, some key)]
  | _ => []

def aliasReports (setting : Setting) (a : ScalarAlias) : List Report :=
  match a.qname.bind (setting.declarations.lookup .type) with
  | some d => setting.shapeReports a.name d.site
  | none => []

end Setting

/-- The shape of what is defined at a site from the shape of its origin. -/
def Site.shapeFrom (site : Site) (origin : SimpleShape) : SimpleShape :=
  (SimpleDerivation.ofNode site.node).shape origin

theorem Setting.scalar_of_target {S : Setting} {reference : String} {site : Site} {ref : TypeRef}
    (h : S.target reference site = .scalar ref) : ref.kind = .scalar := by
  unfold Setting.target at h
  split at h
  · cases h
  · split at h
    · cases h; rfl
    · split at h
      · split at h <;> cases h <;> rfl
      · split at h
        · cases h
        · split at h <;> cases h

theorem Compile.simpleShapeWith_eq (setting : Setting)
    (compileAlias : Declaration → Compile ScalarAlias) (owner : Owner) (site : Site) :
    simpleShapeWith setting compileAlias owner site =
      match setting.origin site with
      | .known shape => return site.shapeFrom shape
      | .unknown shape key fault => do
        report setting (fault owner) key
        return site.shapeFrom shape
      | .simple d => do
        let a ← compileAlias d
        match (← inventory).alias? a.name with
        | some a => return site.shapeFrom (.ofAlias a)
        | none => throw (.missingType (Owner.text a.name))
      | .complex name =>
        fail (.complexOrigin owner name.label site.document.targetNamespace
          site.document.location) := by
  unfold simpleShapeWith Setting.origin
  dsimp only
  cases (SimpleDerivation.ofNode site.node).origin with
  | text => rfl
  | named reference node =>
    dsimp only
    rw [resolveTypeWith_eq]
    cases h : setting.target reference (site.atNode node) with
    | unknown declared key fault => simp only [bind_assoc, pure_bind]; rfl
    | scalar ref =>
      dsimp only
      rw [pure_bind, Setting.scalar_of_target h]
      rfl
    | simple d => simp only [bind_assoc, pure_bind]; rfl
    | complex name => simp only [bind_assoc, pure_bind]; rfl

abbrev Names := String → Option String

def Names.entry (names : Names) (d : Declaration) (shape : SimpleShape) : ScalarAlias :=
  ⟨names (ownerOfType d.name), some d.name, shape.scalar, shape.base, shape.enumeration,
    shape.isList, d.site.node.documentation?⟩

/-- The shape of the simple type defined at a site, and its rank: how many names it is away from
what it is derived from. -/
inductive ShapeOf (S : Setting) (names : Names) : Nat → Site → SimpleShape → Prop where
  | known {site : Site} {shape : SimpleShape} (h : S.origin site = .known shape) :
    ShapeOf S names 0 site (site.shapeFrom shape)
  | unknown {site : Site} {shape : SimpleShape} {key : String} {fault : Owner → Fault}
    (h : S.origin site = .unknown shape key fault)
    (hs : S.options.failOnUnresolved.holds = false) :
    ShapeOf S names 0 site (site.shapeFrom shape)
  | simple {site : Site} {d : Declaration} {n : Nat} {shape : SimpleShape}
    (h : S.origin site = .simple d) (hd : ShapeOf S names n d.site shape) :
    ShapeOf S names (n + 1) site (site.shapeFrom (.ofAlias (names.entry d shape)))

variable {S : Setting} {names : Names}

/-- A definition has one shape and one rank. -/
theorem ShapeOf.unique {n : Nat} {site : Site} {shape : SimpleShape} (h : ShapeOf S names n site shape) :
    ∀ {m : Nat} {shape' : SimpleShape}, ShapeOf S names m site shape' → n = m ∧ shape = shape' := by
  induction h with
  | known h =>
    intro m shape' h'
    cases h' with
    | known h' => cases h.symm.trans h'; exact ⟨rfl, rfl⟩
    | unknown h' => cases h.symm.trans h'
    | simple h' => cases h.symm.trans h'
  | unknown h hs =>
    intro m shape' h'
    cases h' with
    | known h' => cases h.symm.trans h'
    | unknown h' => cases h.symm.trans h'; exact ⟨rfl, rfl⟩
    | simple h' => cases h.symm.trans h'
  | simple h _ ih =>
    intro m shape' h'
    cases h' with
    | known h' => cases h.symm.trans h'
    | unknown h' => cases h.symm.trans h'
    | simple h' hd =>
      cases h.symm.trans h'
      obtain ⟨rfl, rfl⟩ := ih hd
      exact ⟨rfl, rfl⟩

structure Setting.IsSimple (S : Setting) (d : Declaration) : Prop where
  declared : S.declarations.lookup .type d.name = some d
  simple : d.isSimpleType = true

theorem Setting.isSimple_of_target {reference : String} {site : Site} {d : Declaration}
    (h : S.target reference site = .simple d) : S.IsSimple d := by
  unfold Setting.target at h
  split at h
  · cases h
  · split at h
    · cases h
    · split at h
      · split at h <;> cases h
      · split at h
        · cases h
        · rename_i e he
          split at h
          · rename_i hs
            cases h
            exact ⟨(Declarations.name_of_lookup he).symm ▸ he, hs⟩
          · cases h

theorem Setting.isSimple_of_origin {site : Site} {d : Declaration}
    (h : S.origin site = .simple d) : S.IsSimple d := by
  unfold Setting.origin at h
  split at h
  · cases h
  · split at h
    · cases h
    · cases h
    · rename_i ht
      cases h
      exact isSimple_of_target ht
    · cases h

def Setting.IsEntry (S : Setting) (names : Names) (d : Declaration) (a : ScalarAlias) : Prop :=
  S.IsSimple d ∧ ∃ n shape, ShapeOf S names n d.site shape ∧ a = names.entry d shape

theorem Setting.IsEntry.unique {d : Declaration} {a b : ScalarAlias} (ha : S.IsEntry names d a)
    (hb : S.IsEntry names d b) : a = b := by
  obtain ⟨-, n, shape, h, rfl⟩ := ha
  obtain ⟨-, m, shape', h', rfl⟩ := hb
  rw [(h.unique h').2]

theorem Setting.aliasReports_entry {d : Declaration} {a : ScalarAlias} (h : S.IsEntry names d a) :
    S.aliasReports a = S.shapeReports a.name d.site := by
  obtain ⟨hd, n, shape, -, rfl⟩ := h
  unfold Setting.aliasReports Names.entry
  simp only [Option.bind_some, hd.declared]

structure Names.Tell (names : Names) (S : Setting) : Prop where
  settled (d : Declaration) (h : S.declarations.lookup .type d.name = some d) :
    ∃ name, names (ownerOfType d.name) = some name
  settledElement (d : Declaration) (h : S.declarations.lookup .element d.name = some d)
    (ho : Compile.hasOwnType d.site.node = true) : ∃ name, names (ownerOfElement d.name) = some name
  injective (d e : Declaration) (hd : S.declarations.lookup .type d.name = some d)
    (he : S.declarations.lookup .type e.name = some e)
    (h : names (ownerOfType d.name) = names (ownerOfType e.name)) : d = e

/-! ## What compiling simple types does -/

namespace Progress

/-- Canonical names are as settled, and the entries of simple types are what the types are, each
under its name. -/
structure Sound (S : Setting) (names : Names) (p : Progress) : Prop where
  canonical : ∀ owner name, names owner = some name → p.inventory.canonical? owner = some name
  aliases : ∀ x ∈ p.inventory.aliases, x.1 = x.2.name ∧ ∃ d, S.IsEntry names d x.2
  nodup : (p.inventory.aliases.map Prod.fst).Nodup

/-- From `p` to `q` some simple types became entries, and `own` and what follows from the new
entries was reported. -/
structure Delta (S : Setting) (p q : Progress) (own : List Report) (new : List ScalarAlias) : Prop where
  inventory : q.inventory =
    { p.inventory with aliases := p.inventory.aliases ++ new.map fun a => (a.name, a) }
  reported : ∃ rs, rs.Perm (own ++ new.flatMap S.aliasReports) ∧ p.Reported q rs

/-- What two steps reported of themselves can be told before what follows from their entries. -/
theorem perm_reports {α : Type} (own rest own' rest' : List α) :
    ((own ++ rest) ++ (own' ++ rest')).Perm ((own ++ own') ++ (rest ++ rest')) := by
  rw [List.append_assoc, List.append_assoc]
  exact List.Perm.append_left own (List.perm_append_comm_assoc rest own' rest')

theorem Delta.refl (p : Progress) : Delta S p p [] [] where
  inventory := by simp only [List.map_nil, List.append_nil]
  reported := ⟨[], .refl _, .refl p⟩

theorem Delta.trans {p q r : Progress} {own own' : List Report} {new new' : List ScalarAlias}
    (h : Delta S p q own new) (h' : Delta S q r own' new') :
    Delta S p r (own ++ own') (new ++ new') where
  inventory := by
    rw [h'.inventory, h.inventory]
    simp only [List.append_assoc, List.map_append]
  reported := by
    obtain ⟨rs, hp, hr⟩ := h.reported
    obtain ⟨rs', hp', hr'⟩ := h'.reported
    refine ⟨rs ++ rs', (hp.append hp').trans ?_, hr.trans hr'⟩
    rw [List.flatMap_append]
    exact perm_reports _ _ _ _

variable {p : Progress}

/-- The entry under the name of a simple type is its entry. -/
theorem Sound.entry_of_alias? (hp : p.Sound S names) (tell : names.Tell S) {d : Declaration}
    (hd : S.IsSimple d) {a : ScalarAlias}
    (h : p.inventory.alias? (names (ownerOfType d.name)) = some a) : S.IsEntry names d a := by
  obtain ⟨hk, e, he⟩ := hp.aliases _ (mem_of_lookup h)
  have := tell.injective d e hd.declared he.1.declared (by
    obtain ⟨-, n, shape, -, rfl⟩ := he
    exact hk)
  exact this ▸ he

theorem Sound.alias?_of_mem (hp : p.Sound S names) {x : Option String × ScalarAlias}
    (h : x ∈ p.inventory.aliases) : p.inventory.alias? x.1 = some x.2 :=
  lookup_of_mem hp.nodup h

theorem Delta.aliases {p q : Progress} {own : List Report} {new : List ScalarAlias}
    (h : Delta S p q own new) :
    q.inventory.aliases = p.inventory.aliases ++ new.map fun a => (a.name, a) := by
  rw [h.inventory]

end Progress

namespace Compile

open Progress

def Outside (chain : List QName) (new : List ScalarAlias) : Prop :=
  ∀ a ∈ new, ∀ name ∈ chain, a.qname ≠ some name

/-- A step that compiles simple types outside a chain: what holds after it. -/
structure Settled (S : Setting) (names : Names) (chain : List QName) (p q : Progress)
    (own : List Report) (new : List ScalarAlias) : Prop where
  sound : q.Sound S names
  delta : Delta S p q own new
  outside : Outside chain new

theorem Settled.refl {p : Progress} (hp : p.Sound S names) (chain : List QName) :
    Settled S names chain p p [] [] :=
  ⟨hp, .refl p, fun _ h => absurd h List.not_mem_nil⟩

theorem settled_report {chain : List QName} {p q : Progress} (hp : p.Sound S names) {f : Fault}
    {key : String} (h : Runs (report S f key) p () q) :
    Settled S names chain p q [(f.diagnostic, some key)] [] := by
  obtain ⟨-, rfl⟩ := runs_report.mp h
  refine ⟨⟨hp.canonical, hp.aliases, hp.nodup⟩, ⟨?_, ?_⟩, fun _ h => absurd h List.not_mem_nil⟩
  · simp only [List.map_nil, List.append_nil]; rfl
  · exact ⟨_, .refl _, reported_note p f key⟩

def Entries (S : Setting) (names : Names) (chain : List QName)
    (f : Declaration → Compile ScalarAlias) : Prop :=
  ∀ d p a q, S.IsSimple d → p.Sound S names → Runs (f d) p a q →
    S.IsEntry names d a ∧ (a.name, a) ∈ q.inventory.aliases ∧
      ∃ new, Settled S names chain p q [] new

theorem simpleShapeWith_sound {chain : List QName} {f : Declaration → Compile ScalarAlias}
    (hf : Entries S names chain f) {owner : Owner} {site : Site} {shape : SimpleShape}
    {p q : Progress} (hp : p.Sound S names) (h : Runs (simpleShapeWith S f owner site) p shape q) :
    (∃ n, ShapeOf S names n site shape) ∧
      ∃ new, Settled S names chain p q (S.shapeReports owner site) new := by
  rw [simpleShapeWith_eq] at h
  unfold Setting.shapeReports
  cases ho : S.origin site with
  | known shape' =>
    rw [ho] at h
    obtain ⟨rfl, rfl⟩ := runs_pure.mp h
    exact ⟨⟨0, .known ho⟩, [], .refl hp chain⟩
  | unknown shape' key fault =>
    rw [ho] at h
    obtain ⟨_, r, hr, h⟩ := runs_bind.mp h
    obtain ⟨rfl, rfl⟩ := runs_pure.mp h
    exact ⟨⟨0, .unknown ho (runs_report.mp hr).1⟩, [], settled_report hp hr⟩
  | simple d =>
    rw [ho] at h
    obtain ⟨a, r, ha, h⟩ := runs_bind.mp h
    obtain ⟨hd, hm, new, hs⟩ := hf d p a r (Setting.isSimple_of_origin ho) hp ha
    obtain ⟨_, _, hi, h⟩ := runs_bind.mp h
    obtain ⟨rfl, rfl⟩ := runs_inventory.mp hi
    rw [hs.sound.alias?_of_mem hm] at h
    obtain ⟨rfl, rfl⟩ := runs_pure.mp h
    obtain ⟨-, n, inner, hn, rfl⟩ := hd
    exact ⟨⟨n + 1, .simple ho hn⟩, new, hs⟩
  | complex name =>
    rw [ho] at h
    exact absurd h runs_fail

/-- An entry that is made after what its type is derived from. -/
theorem settled_addAlias (tell : names.Tell S) {chain : List QName} {d : Declaration}
    (hd : S.IsSimple d) {p q : Progress} {shape : SimpleShape} {new : List ScalarAlias}
    (hc : d.name ∉ chain) (hn : p.inventory.alias? (names (ownerOfType d.name)) = none)
    (hs : Settled S names (d.name :: chain) p q
      (S.shapeReports (names (ownerOfType d.name)) d.site) new)
    (hshape : ∃ n, ShapeOf S names n d.site shape) :
    Settled S names chain p
      { q with inventory := q.inventory.addAlias (names.entry d shape) } []
      (new ++ [names.entry d shape]) := by
  obtain ⟨n, hshape⟩ := hshape
  have entry : S.IsEntry names d (names.entry d shape) := ⟨hd, n, shape, hshape, rfl⟩
  have absent : q.inventory.aliases.lookup (names (ownerOfType d.name)) = none := by
    cases hl : q.inventory.aliases.lookup (names (ownerOfType d.name)) with
    | none => rfl
    | some b =>
      have hb := hs.sound.entry_of_alias? tell hd hl
      have hm := mem_of_lookup hl
      rw [hs.delta.aliases] at hm
      rcases List.mem_append.mp hm with hm | hm
      · exact absurd rfl (bne_iff_ne.mp (List.lookup_eq_none_iff.mp hn _ hm))
      · obtain ⟨c, hb', he⟩ := List.mem_map.mp hm
        obtain rfl : c = b := (Prod.mk.inj he).2
        obtain ⟨-, m, shape', -, rfl⟩ := hb
        exact (hs.outside _ hb' d.name List.mem_cons_self rfl).elim
  have added : q.inventory.addAlias (names.entry d shape) = { q.inventory with
      aliases := q.inventory.aliases ++ [((names.entry d shape).name, names.entry d shape)] } := by
    unfold Inventory.addAlias
    rw [show (names.entry d shape).name = names (ownerOfType d.name) from rfl,
      put_of_lookup_none absent]
  rw [added]
  refine ⟨⟨hs.sound.canonical, ?_, ?_⟩, ⟨?_, ?_⟩, ?_⟩
  · intro x hx
    rcases List.mem_append.mp hx with hx | hx
    · exact hs.sound.aliases x hx
    · rw [List.mem_singleton.mp hx]
      exact ⟨rfl, d, entry⟩
  · dsimp only
    rw [List.map_append, List.nodup_append]
    refine ⟨hs.sound.nodup, List.nodup_singleton _, ?_⟩
    intro k hk _ hk' same
    subst same
    obtain ⟨x, hx, rfl⟩ := List.mem_map.mp hk
    exact bne_iff_ne.mp (List.lookup_eq_none_iff.mp absent x hx) (List.mem_singleton.mp hk').symm
  · rw [hs.delta.inventory]
    simp only [List.map_append, List.append_assoc, List.map_cons, List.map_nil]
  · obtain ⟨rs, hp, hr⟩ := hs.delta.reported
    refine ⟨rs, ?_, ⟨hr.diagnostics, hr.unresolved⟩⟩
    rw [List.flatMap_append, List.flatMap_singleton, Setting.aliasReports_entry entry]
    exact hp.trans List.perm_append_comm
  · refine List.forall_mem_append.mpr ⟨?_, List.forall_mem_singleton.mpr ?_⟩
    · exact fun a ha name hname => hs.outside a ha name (List.mem_cons_of_mem _ hname)
    · intro name hname h
      exact hc (Option.some.inj h ▸ hname)

theorem compileAliasIn_sound (tell : names.Tell S) (depth : Nat) :
    ∀ chain, Entries S names chain (compileAliasIn S depth chain) := by
  induction depth with
  | zero => exact fun _ _ _ _ _ _ _ h => absurd h runs_fail
  | succ depth ih =>
    intro chain d p a q hd hp h
    obtain ⟨name, hname⟩ := tell.settled d hd.declared
    have canonical : p.inventory.canonical? (ownerOfType d.name) = names (ownerOfType d.name) :=
      (hp.canonical _ _ hname).trans hname.symm
    unfold compileAliasIn at h
    simp only [runs_bind, runs_inventory] at h
    obtain ⟨_, _, ⟨rfl, rfl⟩, _, _, ⟨rfl, rfl⟩, h⟩ := h
    rw [canonical] at h
    split at h
    · rename_i b hb
      obtain ⟨rfl, rfl⟩ := runs_pure.mp h
      have he := hp.entry_of_alias? tell hd hb
      refine ⟨he, ?_, [], .refl hp chain⟩
      have hm := mem_of_lookup hb
      have hk : names (ownerOfType d.name) = a.name := (hp.aliases _ hm).1
      rwa [hk] at hm
    · rename_i hn
      split at h
      · exact absurd h runs_fail
      · rename_i hc
        simp only [runs_bind, runs_pure, runs_addAlias] at h
        obtain ⟨shape, r, hshape, _, _, rfl, rfl, rfl⟩ := h
        obtain ⟨hso, new, hs⟩ := simpleShapeWith_sound (ih _) hp hshape
        have hc : d.name ∉ chain := fun hm => hc (List.contains_iff_mem.mpr hm)
        have := settled_addAlias tell hd hc hn hs hso
        obtain ⟨n, hso⟩ := hso
        refine ⟨⟨hd, n, shape, hso, rfl⟩, ?_, _, this⟩
        have entries := this.delta.aliases
        rw [List.map_append] at entries
        refine entries ▸ ?_
        exact List.mem_append_right _ (List.mem_append_right _ (List.mem_singleton.mpr rfl))

/-! ## Simple types can be compiled at any time -/

theorem simpleShapeWith_runs {chain : List QName} {f : Declaration → Compile ScalarAlias}
    (hf : Entries S names chain f) {site : Site} {n : Nat} {shape : SimpleShape} {p : Progress}
    (hp : p.Sound S names) (h : ShapeOf S names n site shape)
    (run : ∀ d m inner, S.origin site = .simple d → ShapeOf S names m d.site inner → m < n →
      ∃ q, Runs (f d) p (names.entry d inner) q) (owner : Owner) :
    ∃ q, Runs (simpleShapeWith S f owner site) p shape q := by
  rw [simpleShapeWith_eq]
  cases h with
  | known ho =>
    rw [ho]
    exact ⟨p, runs_pure.mpr ⟨rfl, rfl⟩⟩
  | unknown ho hs =>
    rw [ho]
    exact ⟨_, runs_bind.mpr ⟨(), _, runs_report.mpr ⟨hs, rfl⟩, runs_pure.mpr ⟨rfl, rfl⟩⟩⟩
  | simple ho hd =>
    obtain ⟨q, hq⟩ := run _ _ _ ho hd (Nat.lt_succ_self _)
    obtain ⟨-, hm, new, hs⟩ := hf _ _ _ _ (Setting.isSimple_of_origin ho) hp hq
    rw [ho]
    refine ⟨q, runs_bind.mpr ⟨_, q, hq, runs_bind.mpr ⟨_, q, runs_inventory.mpr ⟨rfl, rfl⟩, ?_⟩⟩⟩
    rw [hs.sound.alias?_of_mem hm]
    exact runs_pure.mpr ⟨rfl, rfl⟩

structure Above (S : Setting) (names : Names) (n : Nat) (chain : List QName) : Prop where
  nodup : chain.Nodup
  above : ∀ name ∈ chain, ∃ d m shape, S.IsSimple d ∧ d.name = name ∧ n < m ∧
    ShapeOf S names m d.site shape

theorem Above.cons {n m : Nat} {chain : List QName} (h : Above S names n chain) (hm : m < n)
    {d : Declaration} (hd : S.IsSimple d) {shape : SimpleShape} (hs : ShapeOf S names n d.site shape) :
    Above S names m (d.name :: chain) where
  nodup := by
    refine List.nodup_cons.mpr ⟨fun hc => ?_, h.nodup⟩
    obtain ⟨e, k, shape', he, hn, hk, hs'⟩ := h.above _ hc
    have hl := he.declared
    rw [hn, hd.declared] at hl
    cases hl
    exact absurd (hs.unique hs').1 (Nat.ne_of_lt hk)
  above name hname := by
    rcases List.mem_cons.mp hname with rfl | hname
    · exact ⟨d, n, shape, hd, rfl, hm, hs⟩
    · obtain ⟨e, k, shape', he, hn, hk, hs'⟩ := h.above _ hname
      exact ⟨e, k, shape', he, hn, Nat.lt_trans hm hk, hs'⟩

/-- A chain is no longer than there are declarations. -/
theorem Above.length_le {n : Nat} {chain : List QName} (h : Above S names n chain) :
    chain.length ≤ S.declarations.entries.length := by
  have sub : chain ⊆ S.declarations.entries.map fun x => x.2.name := by
    intro name hname
    obtain ⟨d, _, _, hd, rfl, -, -⟩ := h.above name hname
    obtain ⟨x, hx, hxd⟩ := Option.map_eq_some_iff.mp hd.declared
    exact List.mem_map.mpr ⟨x, List.mem_of_find?_eq_some hx, congrArg Declaration.name hxd⟩
  have := (List.subperm_of_subset h.nodup sub).length_le
  rwa [List.length_map] at this

/-- A simple type can be compiled as deep down as there are names between. -/
theorem compileAliasIn_runs (tell : names.Tell S) (depth : Nat) :
    ∀ {n : Nat} {d : Declaration} {shape : SimpleShape} {chain : List QName} {p : Progress},
      S.IsSimple d → ShapeOf S names n d.site shape → Above S names n chain →
      S.declarations.entries.length < depth + chain.length → p.Sound S names →
      ∃ q, Runs (compileAliasIn S depth chain d) p (names.entry d shape) q := by
  induction depth with
  | zero =>
    intro n d shape chain p _ _ hc hl _
    have := hc.length_le
    omega
  | succ depth ih =>
    intro n d shape chain p hd hs hc hl hp
    obtain ⟨name, hname⟩ := tell.settled d hd.declared
    have canonical : p.inventory.canonical? (ownerOfType d.name) = names (ownerOfType d.name) :=
      (hp.canonical _ _ hname).trans hname.symm
    have inner (m : Nat) (h : m < n) : Above S names m (d.name :: chain) := hc.cons h hd hs
    have new : d.name ∉ chain := by
      intro hm
      obtain ⟨e, k, shape', he, hn, hk, hs'⟩ := hc.above _ hm
      have hl := he.declared
      rw [hn, hd.declared] at hl
      cases hl
      exact absurd (hs.unique hs').1 (Nat.ne_of_lt hk)
    unfold compileAliasIn
    simp only [runs_bind, runs_inventory]
    cases ha : p.inventory.alias? (p.inventory.canonical? (ownerOfType d.name)) with
    | some a =>
      refine ⟨p, _, _, ⟨rfl, rfl⟩, _, _, ⟨rfl, rfl⟩, ?_⟩
      rw [ha]
      rw [canonical] at ha
      exact runs_pure.mpr ⟨(Setting.IsEntry.unique (hp.entry_of_alias? tell hd ha)
        ⟨hd, n, shape, hs, rfl⟩).symm, rfl⟩
    | none =>
      obtain ⟨q, hq⟩ := simpleShapeWith_runs (compileAliasIn_sound tell depth (d.name :: chain)) hp hs
        (fun e m s ho he hm => ih (Setting.isSimple_of_origin ho) he (inner m hm)
          (by rw [List.length_cons]; omega) hp) (p.inventory.canonical? (ownerOfType d.name))
      refine ⟨{ q with inventory := q.inventory.addAlias (names.entry d shape) }, _, _, ⟨rfl, rfl⟩,
        _, _, ⟨rfl, rfl⟩, ?_⟩
      rw [ha]
      dsimp only
      rw [if_neg (fun hm => new (List.contains_iff_mem.mp hm))]
      refine runs_bind.mpr ⟨shape, q, hq, ?_⟩
      rw [canonical]
      exact runs_bind.mpr ⟨(), _, runs_addAlias.mpr rfl, runs_pure.mpr ⟨rfl, rfl⟩⟩

/-! ## From outside -/

theorem compileAlias_sound (tell : names.Tell S) : Entries S names [] (compileAlias S) :=
  compileAliasIn_sound tell _ []

theorem compileAlias_runs (tell : names.Tell S) {d : Declaration} {a : ScalarAlias}
    (h : S.IsEntry names d a) {p : Progress} (hp : p.Sound S names) :
    ∃ q, Runs (compileAlias S d) p a q := by
  obtain ⟨hd, n, shape, hs, rfl⟩ := h
  exact compileAliasIn_runs tell _ hd hs ⟨List.nodup_nil, fun _ h => absurd h List.not_mem_nil⟩
    (by rw [List.length_nil]; omega) hp

end Compile

end WsdlCatalog
