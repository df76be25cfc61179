/-
  WsdlCatalog.Proofs.Denotation — what the names of types denote.

  The name of a type denotes one reference to it (`Setting.Denotes`): to a built-in type, to the
  entry of a simple type, or to a complex type by its canonical name. As long as namespaces have
  no closing brace in them a label belongs to one name, so what is denoted is known by its label
  (`Setting.GivenByName.unique`).

  Proved: an element or attribute that gives its type by a name comes to what the name denotes,
  or to nothing (`Compile.byName_elementParticle`, `Compile.byName_attributeAt`).
-/

import WsdlCatalog.Proofs.Merging
import WsdlCatalog.Proofs.Declared

namespace WsdlCatalog

/-! ## Labels -/

theorem builtin_ne_key (local_ : String) (name : QName) : "xs:" ++ local_ ≠ name.key := by
  intro h
  have := congrArg String.toList h
  simp only [QName.key, Vocabulary.clark, String.toList_append, List.append_assoc] at this
  have hx : "xs:".toList = ['x', 's', ':'] := by decide
  have hb : "\x7b".toList = ['\x7b'] := by decide
  rw [hx, hb] at this
  cases this

theorem QName.label_injective {a b : QName} (ha : a.Plain) (hb : b.Plain) (h : a.label = b.label) :
    a = b := by
  unfold QName.label at h
  split at h
  · rename_i ua
    split at h
    · rename_i ub
      have uri : a.uri = b.uri := (eq_of_beq ua).trans (eq_of_beq ub).symm
      have localPart : a.localPart = b.localPart := (String.append_right_inj _).mp h
      cases a
      cases b
      obtain rfl := uri
      obtain rfl := localPart
      rfl
    · exact absurd h (builtin_ne_key _ _)
  · split at h
    · exact absurd h.symm (builtin_ne_key _ _)
    · exact QName.key_injective_of_plain ha hb h

/-! ## Names -/

namespace Setting

variable {S : Setting} {name : QName} {ref : TypeRef}

def Denotes (S : Setting) (name : QName) (ref : TypeRef) : Prop :=
  if name.uri = some Vocabulary.xsd then ref = Builtin.ref S.options name
  else if name.uri = some Vocabulary.soapEncoding then
    ref = if Builtin.isBuiltin name.localPart then Builtin.ref S.options name
      else ⟨.scalar, name.label, .untyped, none, none, false⟩
  else ∃ d, S.declarations.lookup .type name = some d ∧
    if d.isSimpleType then ∃ a, S.IsEntry S.names d a ∧ ref = .ofAlias a
    else ∃ c, S.names (ownerOfType name) = some c ∧ ref = .ofStructure c name.label

theorem Denotes.unique {ref' : TypeRef} (h : S.Denotes name ref) (h' : S.Denotes name ref') :
    ref = ref' := by
  unfold Denotes at h h'
  split at h
  · rename_i xsd
    rw [if_pos xsd] at h'
    exact h.trans h'.symm
  · rename_i xsd
    rw [if_neg xsd] at h'
    split at h
    · rename_i encoding
      rw [if_pos encoding] at h'
      exact h.trans h'.symm
    · rename_i encoding
      rw [if_neg encoding] at h'
      obtain ⟨d, hd, h⟩ := h
      obtain ⟨e, he, h'⟩ := h'
      obtain rfl := Option.some.inj (hd.symm.trans he)
      split at h
      · rename_i simple
        rw [if_pos simple] at h'
        obtain ⟨a, ha, rfl⟩ := h
        obtain ⟨b, hb, rfl⟩ := h'
        rw [ha.unique hb]
      · rename_i complex
        rw [if_neg complex] at h'
        obtain ⟨c, hc, rfl⟩ := h
        obtain ⟨c', hc', rfl⟩ := h'
        rw [Option.some.inj (hc.symm.trans hc')]

/-- What is denoted has the label of its name. -/
theorem Denotes.label (h : S.Denotes name ref) : ref.declared = name.label := by
  unfold Denotes at h
  split at h
  · rw [h]
    rfl
  · split at h
    · split at h
      · rw [h]
        rfl
      · rw [h]
    · obtain ⟨d, hd, h⟩ := h
      split at h
      · obtain ⟨a, ⟨-, n, shape, -, rfl⟩, rfl⟩ := h
        rw [← Declarations.name_of_lookup hd]
        rfl
      · obtain ⟨c, -, rfl⟩ := h
        rfl

def Denoted (S : Setting) (ref : TypeRef) : Prop := ∃ name, name.Plain ∧ S.Denotes name ref

theorem Denoted.unique {ref' : TypeRef} (h : S.Denoted ref) (h' : S.Denoted ref')
    (same : ref.declared = ref'.declared) : ref = ref' := by
  obtain ⟨name, plain, h⟩ := h
  obtain ⟨name', plain', h'⟩ := h'
  rw [h.label, h'.label] at same
  obtain rfl := QName.label_injective plain plain' same
  exact h.unique h'

theorem Denotes.isUnresolved (h : S.Denotes name ref) : ref.isUnresolved = false := by
  unfold Denotes at h
  split at h
  · rw [h]
    rfl
  · split at h
    · split at h
      · rw [h]
        rfl
      · rw [h]
        rfl
    · obtain ⟨d, -, h⟩ := h
      split at h
      · obtain ⟨a, -, rfl⟩ := h
        rfl
      · obtain ⟨c, -, rfl⟩ := h
        rfl

/-- What a type that is given by its name comes to: what the name denotes, or nothing. -/
def GivenByName (S : Setting) (ref : TypeRef) : Prop := ref = .unresolved ref.declared ∨ S.Denoted ref

/-- Types of one label that are given by their names are the same, if both or none are known. -/
theorem GivenByName.unique {ref' : TypeRef} (h : S.GivenByName ref) (h' : S.GivenByName ref')
    (same : ref.declared = ref'.declared) (known : ref.isUnresolved = ref'.isUnresolved) :
    ref = ref' := by
  rcases h with h | ⟨name, plain, h⟩
  · rcases h' with h' | ⟨name', -, h'⟩
    · rw [h, h', same]
    · rw [h'.isUnresolved, h] at known
      cases known
  · rcases h' with h' | ⟨name', plain', h'⟩
    · rw [h.isUnresolved, h'] at known
      cases known
    · exact Denoted.unique ⟨name, plain, h⟩ ⟨name', plain', h'⟩ same

theorem denoted_of_denotes {uri : String} (hu : name.uri = some uri) (plain : '\x7d' ∉ uri.toList)
    (h : S.Denotes name ref) : S.Denoted ref := ⟨name, ⟨uri, hu, plain⟩, h⟩

theorem denoted_builtin (h : name.uri = some Vocabulary.xsd) :
    S.Denoted (Builtin.ref S.options name) := by
  refine denoted_of_denotes h (by decide) ?_
  unfold Denotes
  rw [if_pos h]

/-- A declared name that is not among those of built-in types. -/
structure IsDeclared (S : Setting) (name : QName) (d : Declaration) : Prop where
  declared : S.declarations.lookup .type name = some d
  xsd : name.uri ≠ some Vocabulary.xsd
  encoding : name.uri ≠ some Vocabulary.soapEncoding

theorem denoted_of_declared (hS : S.WellFormed) {d : Declaration} (h : S.IsDeclared name d)
    (hr : if d.isSimpleType then ∃ a, S.IsEntry S.names d a ∧ ref = .ofAlias a
      else ∃ c, S.names (ownerOfType name) = some c ∧ ref = .ofStructure c name.label) :
    S.Denoted ref := by
  have named := Declarations.name_of_lookup h.declared
  have plain := hS.plain _ (Declarations.mem_of_lookup h.declared)
  refine ⟨name, named ▸ plain, ?_⟩
  unfold Denotes
  rw [if_neg h.xsd, if_neg h.encoding]
  exact ⟨d, h.declared, hr⟩

/-- A reference to a type means nothing, what some name denotes, or what is declared. -/
theorem target_cases (S : Setting) (reference : String) (site : Site) :
    (∃ declared key fault, S.target reference site = .unknown declared key fault) ∨
      (∃ ref, S.target reference site = .scalar ref ∧ S.Denoted ref) ∨
      ∃ name d, S.IsDeclared name d ∧
        S.target reference site = if d.isSimpleType then .simple d else .complex name := by
  unfold target
  split
  · exact .inl ⟨_, _, _, rfl⟩
  · rename_i name _
    split
    · rename_i xsd
      exact .inr (.inl ⟨_, rfl, denoted_builtin (eq_of_beq xsd)⟩)
    · rename_i xsd
      have xsd := fun e => xsd (beq_iff_eq.mpr e)
      split
      · rename_i encoding
        have encoding := eq_of_beq encoding
        have denotes : S.Denotes name (if Builtin.isBuiltin name.localPart then
            Builtin.ref S.options name else ⟨.scalar, name.label, .untyped, none, none, false⟩) := by
          unfold Denotes
          rw [if_neg xsd, if_pos encoding]
        refine .inr (.inl ⟨_, ?_, denoted_of_denotes encoding (by decide) denotes⟩)
        split <;> rfl
      · rename_i encoding
        have encoding := fun e => encoding (beq_iff_eq.mpr e)
        split
        · exact .inl ⟨_, _, _, rfl⟩
        · rename_i d hd
          exact .inr (.inr ⟨name, d, ⟨hd, xsd, encoding⟩, rfl⟩)

end Setting

/-! ## Types that are given by name -/

def Xml.Node.hasInnerType (node : Xml.Node) : Bool :=
  (node.filled? "type").isNone && ((node.child? Vocabulary.xsd "simpleType").isSome
    || (node.child? Vocabulary.xsd "complexType").isSome)

/-- An element or attribute gives its type by a name or not at all, and so does what it refers to
in a space. -/
def Setting.ByName (S : Setting) (space : Space) (site : Site) : Prop :=
  match site.node.filled? "ref" with
  | none => site.node.hasInnerType = false
  | some reference => ∀ name d, Reference.meaning reference site = .ok name →
    S.declarations.lookup space name = some d → d.site.node.hasInnerType = false

namespace Compile

variable {S : Setting} {owner : Owner} {site : Site} {reference : String} {p q : Progress} {ref : TypeRef}

/-- A step that follows references leaves canonical names as they are settled, and changes the
progress by reports and the entries of simple types only. -/
theorem sound_of_lockstep {α β : Type} {V : α → β → Prop} {m : Compile α} {n : Compile β} {a : α}
    (h : ∀ {R : ∀ {α β : Type}, (α → β → Prop) → Compile α → Compile β → Prop},
      Lockstep S S R (fun _ => True) (S.options.failOnUnresolved.holds = false) → R V m n)
    (tell : S.names.Tell S) (hp : p.Sound S S.names) (hr : Runs m p a q) :
    q.Sound S S.names ∧ ∃ own new, Progress.Delta S p q own new := by
  have lockstep := (replays (Setting.Twin.refl S) tell tell).mono fun _ _ => trivial
  obtain ⟨_, own, new, -, hq, delta, -⟩ := h lockstep p a q hp hr
  exact ⟨hq, own, new, delta⟩

/-- What a reference to a type comes to: what its name denotes, or nothing. -/
theorem byName_resolveType (hS : S.WellFormed) (tell : S.names.Tell S) (hp : p.Sound S S.names)
    (hr : Runs (resolveType S reference site owner) p ref q) :
    S.GivenByName ref := by
  unfold resolveType at hr
  rw [resolveTypeWith_eq] at hr
  rcases S.target_cases reference site with ⟨_, _, _, ht⟩ | ⟨_, ht, denoted⟩ | ⟨name, d, declared, ht⟩
  · rw [ht] at hr
    obtain ⟨_, _, -, hr⟩ := runs_bind.mp hr
    obtain ⟨rfl, -⟩ := runs_pure.mp hr
    exact .inl rfl
  · rw [ht] at hr
    obtain ⟨rfl, -⟩ := runs_pure.mp hr
    exact .inr denoted
  · have named := Declarations.name_of_lookup declared.declared
    refine .inr (Setting.denoted_of_declared hS declared ?_)
    cases simple : d.isSimpleType with
    | true =>
      rw [simple, if_pos rfl] at ht
      rw [ht] at hr
      obtain ⟨a, _, ha, hr⟩ := runs_bind.mp hr
      obtain ⟨rfl, -⟩ := runs_pure.mp hr
      obtain ⟨entry, -⟩ := compileAlias_sound tell d p a _ (Setting.isSimple_of_target ht) hp ha
      exact ⟨a, entry, rfl⟩
    | false =>
      rw [simple, if_neg Bool.false_ne_true] at ht
      rw [ht] at hr
      simp only [runs_bind, runs_inventory, runs_pure] at hr
      obtain ⟨_, _, ⟨rfl, rfl⟩, rfl, -⟩ := hr
      obtain ⟨c, hc⟩ := tell.settled d (named ▸ declared.declared)
      rw [named] at hc
      rw [hp.canonical _ _ hc]
      exact ⟨c, hc, rfl⟩

section

variable (hS : S.WellFormed) (tell : S.names.Tell S) (hp : p.Sound S S.names)

include hS tell hp

theorem byName_statedType {default : QName} {simpleOwner : Owner}
    (hd : default.uri = some Vocabulary.xsd) (hn : site.node.hasInnerType = false)
    (hr : Runs (statedType S default owner simpleOwner site) p ref q) :
    S.GivenByName ref := by
  unfold statedType at hr
  split at hr
  · exact byName_resolveType hS tell hp hr
  · rename_i bare
    split at hr
    · rename_i inner
      unfold Xml.Node.hasInnerType at hn
      rw [bare, inner] at hn
      cases hn
    · obtain ⟨rfl, -⟩ := runs_pure.mp hr
      exact .inr (Setting.denoted_builtin hd)

theorem byName_globalElementType {d : Declaration} (hn : d.site.node.hasInnerType = false)
    (hr : Runs (globalElementType S d owner) p ref q) :
    S.GivenByName ref := by
  unfold globalElementType at hr
  split at hr
  · rename_i own
    unfold hasOwnType at own
    unfold Xml.Node.hasInnerType at hn
    obtain ⟨bare, inner⟩ := Bool.and_eq_true_iff.mp own
    rw [bare, inner, Bool.or_true] at hn
    cases hn
  · exact byName_statedType hS tell hp rfl hn hr

variable {e : Referenced}

/-- An element that gives its type by a name comes to what the name denotes, or to nothing. -/
theorem byName_elementParticle {nested : Nested} (hn : S.ByName .element site)
    (hr : Runs (elementParticle S nested site owner) p e q) :
    S.GivenByName e.typeRef := by
  unfold elementParticle at hr
  unfold Setting.ByName at hn
  split at hr
  · rename_i reference written
    rw [written] at hn
    unfold elementReference at hr
    obtain ⟨found, r, hl, hr⟩ := runs_bind.mp hr
    obtain ⟨hr', -⟩ := sound_of_lockstep (fun L => L.lookup .element reference rfl owner) tell hp hl
    have found := runs_lookup hl
    split at hr
    · obtain ⟨rfl, -⟩ := runs_pure.mp hr
      exact .inl rfl
    · rename_i d
      obtain ⟨ref, _, typed, hpure⟩ := runs_bind.mp hr
      obtain ⟨rfl, -⟩ := runs_pure.mp hpure
      split at found
      · cases found
      · rename_i name hm
        exact byName_globalElementType hS tell hr' (hn name d hm found.symm) typed
  · rename_i written
    rw [written] at hn
    obtain ⟨ref, r, typed, hpure⟩ := runs_bind.mp hr
    obtain ⟨rfl, -⟩ := runs_pure.mp hpure
    rw [elementTypeWith_eq] at typed
    split at typed
    · rename_i bare inner
      dsimp only at hn
      unfold Xml.Node.hasInnerType at hn
      rw [bare, inner, Option.isSome_some, Bool.or_true] at hn
      cases hn
    · exact byName_statedType hS tell hp rfl hn typed

theorem byName_attributeReference {reference : String}
    (hn : ∀ name d, Reference.meaning reference site = .ok name →
      S.declarations.lookup .attributes name = some d → d.site.node.hasInnerType = false)
    (hr : Runs (attributeReference S reference site owner) p e q) :
    S.GivenByName e.typeRef := by
  unfold attributeReference at hr
  obtain ⟨found, r, hq, hr⟩ := runs_bind.mp hr
  obtain ⟨hp', -⟩ := sound_of_lockstep (fun L => L.qualify reference rfl owner) tell hp hq
  cases hm : Reference.meaning reference site with
  | error pfx =>
    unfold qualify Reference.qualify at hq
    rw [hm] at hq
    obtain ⟨_, _, -, hq⟩ := runs_bind.mp hq
    obtain ⟨rfl, -⟩ := runs_pure.mp hq
    obtain ⟨rfl, -⟩ := runs_pure.mp hr
    exact .inl rfl
  | ok name =>
    rw [qualify_of_meaning hm] at hq
    obtain ⟨rfl, -⟩ := runs_pure.mp hq
    dsimp only at hr
    split at hr
    · obtain ⟨rfl, -⟩ := runs_pure.mp hr
      exact .inr (Setting.denoted_builtin rfl)
    · split at hr
      · obtain ⟨_, _, -, hr⟩ := runs_bind.mp hr
        obtain ⟨rfl, -⟩ := runs_pure.mp hr
        exact .inl rfl
      · rename_i d hd
        obtain ⟨ref, _, typed, hpure⟩ := runs_bind.mp hr
        obtain ⟨rfl, -⟩ := runs_pure.mp hpure
        exact byName_statedType hS tell hp' rfl (hn name d hm hd) typed

theorem byName_encodedItem {reference : String} {item : TypeRef}
    (hr : Runs (encodedItem S reference site owner) p (some item) q) :
    S.GivenByName item := by
  unfold encodedItem at hr
  split at hr
  · cases (runs_pure.mp hr).1
  split at hr
  · cases (runs_pure.mp hr).1
  split at hr
  · cases (runs_pure.mp hr).1
  split at hr
  · cases (runs_pure.mp hr).1
    exact .inr (Setting.denoted_builtin rfl)
  · obtain ⟨ref, typed, he⟩ := runs_map.mp hr
    cases he
    exact byName_resolveType hS tell hp typed

/-- An attribute that gives its type by a name comes to what the name denotes, or to nothing. -/
theorem byName_attributeAt {slot : Slot} (hn : S.ByName .attributes site)
    (hr : Runs (attributeAt S owner site) p (slot, e) q) :
    S.GivenByName e.typeRef := by
  unfold attributeAt at hr
  unfold Setting.ByName at hn
  split at hr
  · rename_i reference written
    rw [written] at hn
    obtain ⟨item, r, hi, hr⟩ := runs_bind.mp hr
    obtain ⟨hp', -⟩ := sound_of_lockstep (fun L => L.encodedItem reference rfl owner) tell hp hi
    split at hr
    · obtain ⟨he, -⟩ := runs_pure.mp hr
      obtain ⟨rfl, rfl⟩ := Prod.mk.inj he
      exact byName_encodedItem hS tell hp hi
    · obtain ⟨a, _, typed, hpure⟩ := runs_bind.mp hr
      obtain ⟨he, -⟩ := runs_pure.mp hpure
      obtain ⟨rfl, rfl⟩ := Prod.mk.inj he
      exact byName_attributeReference hS tell hp' hn typed
  · rename_i written _
    rw [written] at hn
    obtain ⟨ref, r, typed, hpure⟩ := runs_bind.mp hr
    obtain ⟨he, -⟩ := runs_pure.mp hpure
    obtain ⟨rfl, rfl⟩ := Prod.mk.inj he
    exact byName_statedType hS tell hp rfl hn typed
  · exact absurd hr runs_fail

end

end Compile

end WsdlCatalog
