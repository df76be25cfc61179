/-
  WsdlCatalog.Proofs.Concatenation — a chain of extensions as one content model.

  Types that extend one another were flattened one by one, and the last one gets the members of
  the others in a second step. The same elements and choices come about when one flattener goes
  through all their definitions, the base first (`Compile.flatten`). By induction on the chain:
  what its types show so far are the leaves of all elements that were met in their definitions.

  The two ways differ where types are inside elements, because these are named after the type
  around them, and in an element that has the name of the text slot. Attributes have no part in
  it (`Extension.elementSide`): an attribute that changes its type is a fault of an extension
  only.

  Proved: for a chain of types (`Compile.Chain`) the one way succeeds if and only if the other
  does, and then both come to the same elements and choices (`Compile.Chain.flatten_iff`).
-/

import WsdlCatalog.Proofs.Displaying

namespace WsdlCatalog

/-! ## Types without attributes -/

namespace StructuralType

def elementSide (t : StructuralType) : StructuralType :=
  { t with attributes := [], localAttributes := [] }

variable {t base t' : StructuralType}

theorem checkRedeclared_congr {derived derived' base base' : StructuralType} {member known declared : String}
    (h : checkRedeclared derived base member known declared = .ok ()) :
    checkRedeclared derived' base' member known declared = .ok () :=
  checkRedeclared_eq_ok.mpr (checkRedeclared_eq_ok.mp h)

theorem elementView_congr {derived derived' base base' : StructuralType} {own : List Element} :
    ∀ {view result : ElementView}, own.foldlM (ElementView.add derived base) view = .ok result →
      own.foldlM (ElementView.add derived' base') view = .ok result := by
  have step {view result : ElementView} {e : Element} (h : view.add derived base e = .ok result) :
      view.add derived' base' e = .ok result := by
    unfold ElementView.add at h ⊢
    split at h
    · exact h
    · obtain ⟨_, checked, h⟩ := ok_bind.mp h
      exact ok_bind.mpr ⟨(), checkRedeclared_congr checked, h⟩
  induction own with
  | nil => exact id
  | cons e rest ih =>
    intro view result h
    rw [List.foldlM_cons] at h ⊢
    obtain ⟨between, he, hr⟩ := ok_bind.mp h
    exact ok_bind.mpr ⟨between, step he, ih hr⟩

/-- The elements of a type and of its base do not depend on attributes. -/
theorem compose_elementSide (h : t.compose base = .ok t') :
    t.elementSide.compose base.elementSide = .ok t'.elementSide := by
  unfold compose at h ⊢
  obtain ⟨attributes, -, h⟩ := ok_bind.mp h
  obtain ⟨elements, he, h⟩ := ok_bind.mp h
  cases h
  exact ok_bind.mpr ⟨_, rfl, ok_bind.mpr ⟨elements, elementView_congr he, rfl⟩⟩

/-- Types without attributes of their own get the members of a base if their elements agree. -/
theorem compose_iff (none : t.localAttributes = []) (hb : (base.elements.map Element.name).Nodup)
    (ht : (t.localElements.map Element.name).Nodup) :
    (∃ t', t.compose base = .ok t') ↔
      AgreeingElements (untexted base.elements) (t.shifted base) := by
  have start := putAll_tabled (nodup_untexted hb)
  have own : ((t.shifted base).map Element.name).Nodup := (names_shifted t base).symm ▸ ht
  have view : (∃ view, (t.shifted base).foldlM (ElementView.add t base)
      ⟨tabled Element.name (untexted base.elements), []⟩ = .ok view) ↔ _ :=
    elementView_iff (nodup_untexted hb) own
  rw [← view, ← start]
  unfold compose
  rw [none]
  constructor
  · rintro ⟨t', h⟩
    obtain ⟨_, -, h⟩ := ok_bind.mp h
    obtain ⟨view, hv, -⟩ := ok_bind.mp h
    exact ⟨view, hv⟩
  · rintro ⟨view, hv⟩
    exact ⟨_, ok_bind.mpr ⟨_, rfl, ok_bind.mpr ⟨view, hv, rfl⟩⟩⟩

theorem OwnMembers.elementSide (h : t.OwnMembers) : t.elementSide.OwnMembers where
  attributes := List.nodup_nil
  elements := h.elements
  localAttributes := rfl
  localElements := h.localElements

end StructuralType

namespace Extension

variable {types : Table} {name : Owner} {t : StructuralType}

def elementSide (types : Table) : Table := types.map fun x => (x.1, x.2.elementSide)

theorem lookup_elementSide :
    (elementSide types).lookup name = (types.lookup name).map StructuralType.elementSide := by
  induction types with
  | nil => rfl
  | cons x rest ih =>
    show List.lookup name ((x.1, x.2.elementSide) :: elementSide rest) = _
    rw [List.lookup_cons, List.lookup_cons, ih]
    cases name == x.1 <;> rfl

theorem Full.elementSide {n : Nat} (h : Full types n name t) :
    Full (elementSide types) n name t.elementSide := by
  have held {name : Owner} {t : StructuralType} (h : types.lookup name = some t) :
      (Extension.elementSide types).lookup name = some t.elementSide :=
    lookup_elementSide.trans (congrArg (Option.map StructuralType.elementSide) h)
  induction h with
  | own h hb => exact .own (held h) hb
  | extending h hb _ hc ih =>
    exact .extending (held h) hb ih (StructuralType.compose_elementSide hc)

def fullType (types : Table) (name : Owner) : Except Refusal StructuralType :=
  (finish types (types.length + 2) [] [] name).map Prod.snd

theorem fullType_eq_ok : fullType types name = .ok t ↔ ∃ n, Full types n name t := by
  unfold fullType
  constructor
  · intro h
    cases hf : finish types (types.length + 2) [] [] name with
    | error e =>
      rw [hf] at h
      cases h
    | ok x =>
      rw [hf] at h
      cases h
      exact (finish_sound _ finished_nil hf).2.1
  · rintro ⟨n, h⟩
    obtain ⟨finished, hf⟩ := finish_runs (types.length + 2) h
      ⟨List.nodup_nil, fun _ hm => absurd hm List.not_mem_nil⟩ (by omega) finished_nil
    rw [hf]
    rfl

end Extension

/-! ## The leaves of a chain -/

namespace Members

section

variable {leaves more result : List Leaf}

theorem names_collect {P : String → Prop} (hl : ∀ leaf ∈ leaves, P leaf.name)
    (hm : ∀ leaf ∈ more, P leaf.name) (h : collect leaves more = .ok result) :
    ∀ leaf ∈ result, P leaf.name := by
  refine ok_foldlM (I := fun leaves => ∀ leaf ∈ leaves, P leaf.name) ?_ hl h
  intro leaves leaf result hleaf hl h
  rcases insert_cases h with ⟨-, rfl⟩ | ⟨before, first, after, rfl, -, -, -, rfl⟩
  · exact List.forall_mem_append.mpr ⟨hl, List.forall_mem_singleton.mpr (hm leaf hleaf)⟩
  · rw [List.forall_mem_append, List.forall_mem_cons] at hl ⊢
    exact hl

end

variable {members result own : Members} {xs ys : List Placed} {n : Nat}

theorem Gains.split (h : members.Gains result (xs ++ ys)) :
    ∃ between, members.Gains between xs ∧ between.Gains result ys := by
  obtain ⟨leaves, met⟩ := h
  rw [List.map_append, collect_append] at leaves
  obtain ⟨between, hx, hy⟩ := leaves
  refine ⟨⟨between, members.met ++ xs.map Placed.met, []⟩, ⟨hx, rfl⟩, ⟨hy, ?_⟩⟩
  rw [met, List.map_append, List.append_assoc]

theorem Gains.nodup (h : empty.Gains members xs) : (members.leaves.map Leaf.name).Nodup := by
  have none : ((empty.leaves).map Leaf.name).Nodup := List.nodup_nil
  exact nodup_collect none h.leaves

/-- Elements may be collected first, and be joined to others then. -/
theorem Gains.after_iff (h : empty.Gains own ys) (distinct : (members.leaves.map Leaf.name).Nodup) :
    members.Gains result (ys.map (Placed.after n)) ↔
      Agreeing members.leaves (own.leaves.map (Leaf.after n)) ∧
        result.leaves = joinedLeaves members.leaves (own.leaves.map (Leaf.after n)) ∧
        result.met = members.met ++ metAfter n own.met := by
  have seen : (ys.map (Placed.after n)).map Placed.seen = (ys.map Placed.seen).map (Leaf.after n) := by
    rw [List.map_map, List.map_map]
    exact List.map_congr_left fun y _ => Placed.seen_after n y
  have met : (ys.map (Placed.after n)).map Placed.met = metAfter n own.met := by
    rw [h.met, metAfter]
    show _ = (ys.map Placed.met).map _
    rw [List.map_map, List.map_map]
    rfl
  have leaves : collect members.leaves ((ys.map Placed.seen).map (Leaf.after n)) = .ok result.leaves ↔ _ :=
    collect_iff (collect_after h.leaves) distinct
  rw [← and_assoc, ← leaves, ← seen, ← met]
  exact ⟨fun h => ⟨h.leaves, h.met⟩, fun h => ⟨h.1, h.2⟩⟩

/-- The elements of leaves that can be told from the text slot. -/
theorem elements_eq (names : ∀ leaf ∈ members.leaves, leaf.name ≠ textSlotName) {nao : Loose Bool}
    {ref : TypeRef} {mixed : Bool} :
    members.elements nao (if mixed then some ref else none)
      = members.leaves.map (Leaf.toElement nao) ++ StructuralType.slot ref mixed := by
  have plain : members.leaves.filter (fun leaf => leaf.name != textSlotName) = members.leaves :=
    List.filter_eq_self.mpr fun leaf hl => bne_iff_ne.mpr (names leaf hl)
  unfold elements
  rw [plain]
  cases mixed <;> rfl

theorem length_choices (members : Members) (frames : List ChoiceFrame) :
    (members.choices frames).length = frames.length := by
  have (index : Nat) : (members.choicesFrom index frames).length = frames.length := by
    induction frames generalizing index with
    | nil => rfl
    | cons frame rest ih => rw [choicesFrom, List.length_cons, List.length_cons, ih]
  exact this 0

end Members

namespace Placed

variable {frames more : List ChoiceFrame} {x : Placed}

theorem after_zero (x : Placed) : x.after 0 = x :=
  congrArg (Placed.mk x.leaf) (List.map_id'' (fun _ => rfl) x.branches)

theorem Known.mono (h : x.Known frames) (hf : frames <+: more) : x.Known more :=
  ⟨h.name, fun b hb => (h.branches b hb).mono hf⟩

theorem Known.after (h : x.Known more) : (x.after frames.length).Known (frames ++ more) where
  name := h.name
  branches b hb := by
    obtain ⟨c, hc, rfl⟩ := List.mem_map.mp hb
    obtain ⟨frame, hf, hi⟩ := h.branches c hc
    refine ⟨frame, ?_, hi⟩
    show (frames ++ more)[c.choice + frames.length]? = _
    rw [List.getElem?_append_right (Nat.le_add_left _ _), Nat.add_sub_cancel, hf]

end Placed

namespace Compile

/-- A complex type of the table was flattened on its own, before `p`. No type is inside its
elements, and none of these has the name of the text slot. -/
inductive Link (S : Setting) (types : Extension.Table) (p : Progress) :
    String → Site → StructuralType → Prop where
  | flattened {name : String} {site container : Site} {extending mixed : Bool} {nested : Nested}
    {start after : Progress} {body : Body} {qname : QName} {documentation : Option String}
    {anonymous : Bool}
    (content : Content.ofSite (some name) site = .ok (.complex container extending mixed))
    (plain : ∀ element ∈ (Particle.leavesOf
      (Particle.ofContainer S.declarations (some name) container)).map Prod.fst,
        Plain S.declarations element)
    (keyed : start.Keyed) (flattens : Runs (bodyOf S nested (some name) site) start body after)
    (earlier : after.Precedes p)
    (entry : types.lookup (some name)
      = some (body.toType S.options (some name) qname documentation anonymous)) :
    Link S types p name container (body.toType S.options (some name) qname documentation anonymous)

/-- A chain of types, each of which extends the one before it: the name of the last one, their
definitions in order, and whether text is mixed into one of them. -/
inductive Chain (S : Setting) (types : Extension.Table) (p : Progress) :
    String → List Site → Bool → Prop where
  | base {name : String} {container : Site} {t : StructuralType}
    (link : Link S types p name container t) (hb : t.base = none) :
    Chain S types p name [container] t.mixed
  | extending {base name : String} {containers : List Site} {container : Site} {mixed : Bool}
    {t : StructuralType} (chain : Chain S types p base containers mixed)
    (link : Link S types p name container t) (hb : t.base = some base) :
    Chain S types p name (containers ++ [container]) (mixed || t.mixed)

/-! ## The types of a chain -/

/-- The type of a chain has all its members if the elements that were met fit together, and shows
these then. -/
structure Shown (S : Setting) (types : Extension.Table) (name : String) (mixed : Bool)
    (xs : List Placed) (frames : List ChoiceFrame) : Prop where
  known : ∀ x ∈ xs, x.Known frames
  full : ∀ {members}, Members.empty.Gains members xs →
    ∃ n t, Extension.Full (Extension.elementSide types) n (some name) t ∧ t.Distinct ∧
      t.Displays S.options.nillableAsOptional (Builtin.ref S.options .stringType) members.leaves mixed ∧
      t.choices = members.choices frames
  gains : ∀ {n t}, Extension.Full (Extension.elementSide types) n (some name) t →
    ∃ members, Members.empty.Gains members xs

structure Own (S : Setting) (types : Extension.Table) (name : String) (t : StructuralType)
    (ys : List Placed) (frames : List ChoiceFrame) (members : Members) : Prop where
  entry : types.lookup (some name) = some t
  own : t.OwnMembers
  gains : Members.empty.Gains members ys
  known : ∀ y ∈ ys, y.Known frames
  elements : t.elements = members.leaves.map (Leaf.toElement S.options.nillableAsOptional)
    ++ StructuralType.slot (Builtin.ref S.options .stringType) t.mixed
  choices : t.choices = members.choices frames

variable {S : Setting} {types : Extension.Table} {p : Progress} {name base : String}
  {container : Site} {t : StructuralType} {xs ys : List Placed} {before frames : List ChoiceFrame}
  {m : Compile (Members × List ChoiceFrame)} {members own : Members} {mixed : Bool} {owner : Owner}

structure FlatContent.Of (nao : Loose Bool) (content : FlatContent) (t : StructuralType) : Prop where
  elements : List.Forall₂ (Element.Same nao) t.elements content.elements
  exact : ∀ b, nao = .own b → t.elements = content.elements
  choices : t.choices = content.choices

theorem FlatContent.Of.of_displays {nao : Loose Bool} {ref : TypeRef}
    (h : t.Displays nao ref members.leaves mixed) (names : ∀ leaf ∈ members.leaves, leaf.name ≠ textSlotName)
    (choices : t.choices = members.choices frames) :
    FlatContent.Of nao ⟨members.elements nao (if mixed then some ref else none), members.choices frames⟩ t := by
  have same : List.Forall₂ (Element.Same nao) t.elements
      (members.elements nao (if mixed then some ref else none)) := by
    rw [h.elements, Members.elements_eq names]
    exact List.rel_append (List.forall₂_map_right_iff.mpr h.leaves)
      (List.forall₂_same.mpr fun e _ => .refl e)
  refine ⟨same, fun b hb => ?_, choices⟩
  exact List.forall₂_eq_eq_eq ▸ same.imp fun _ _ given => given.eq hb

theorem names_of_known (gains : Members.empty.Gains members ys) (known : ∀ y ∈ ys, y.Known frames) :
    ∀ leaf ∈ members.leaves, leaf.name ≠ textSlotName := by
  have seen : ∀ leaf ∈ ys.map Placed.seen, leaf.name ≠ textSlotName :=
    List.forall_mem_map.mpr fun y hy => (known y hy).name
  exact Members.names_collect (P := (· ≠ textSlotName)) (fun _ h => absurd h List.not_mem_nil) seen
    gains.leaves

theorem runs_bodyOf {nested : Nested} {site : Site} {extending : Bool} {body : Body} {q : Progress}
    (content : Content.ofSite owner site = .ok (.complex container extending mixed)) :
    Runs (bodyOf S nested owner site) p body q ↔
      Runs (complexBody S nested owner container extending mixed) p body q := by
  rw [bodyOf_eq, content]
  exact iff_of_eq (congrArg (Runs · p body q) (pure_bind _ _))

/-- What a link of the chain has on its own it adds to those before it. -/
theorem Link.exists_own (h : Link S types p name container t) (nested : Nested) (owner : Owner)
    (hm : Flattens p xs before m) :
    ∃ ys frames members, Own S types name t ys frames members ∧
      Flattens p (xs ++ ys.map (Placed.after before.length)) (before ++ frames)
        (m >>= (addContainer S nested owner · container)) := by
  cases h with
  | flattened content plain keyed flattens earlier entry =>
    have hr := (runs_bodyOf content).mp flattens
    obtain ⟨ys, gains, known, adds⟩ := hm.complexBody nested owner keyed plain hr earlier
    refine ⟨ys, _, _, ⟨entry, ownMembers_toType (collected_bodyOf flattens) _ _ _ _ _, gains, known, ?_,
      rfl⟩, adds⟩
    unfold complexBody bodyOnBase at hr
    simp only [runs_bind, runs_pure] at hr
    obtain ⟨_, _, -, ⟨members, frames⟩, _, -, members', _, -, rfl, -⟩ := hr
    have names := names_of_known gains known
    exact Members.elements_eq names

/-- The base of a chain is a type of its own. -/
theorem Own.shown (h : Own S types name t ys frames own) (hb : t.base = none) :
    Shown S types name t.mixed ys frames := by
  have full : Extension.Full (Extension.elementSide types) 0 (some name) t.elementSide :=
    Extension.Full.elementSide (.own h.entry hb)
  refine ⟨h.known, fun {members} gained => ⟨0, _, full, h.own.elementSide.toDistinct, ?_, ?_⟩,
    fun _ => ⟨own, h.gains⟩⟩
  · obtain same := Except.ok.inj (h.gains.leaves.symm.trans gained.leaves)
    rw [← same]
    exact StructuralType.displays_of_eq h.elements (names_of_known h.gains h.known)
  · show t.choices = _
    rw [h.choices]
    refine Members.choices_congr fun b _ => ?_
    unfold Members.inBranch
    rw [h.gains.met, gained.met]

theorem Own.entry_elementSide (h : Own S types name t ys frames own) :
    (Extension.elementSide types).lookup (some name) = some t.elementSide :=
  Extension.lookup_elementSide.trans (congrArg (Option.map StructuralType.elementSide) h.entry)

/-- The leaves of a type behind `n` choices. -/
abbrev leavesAfter (n : Nat) (members : Members) : List Leaf := members.leaves.map (Leaf.after n)

theorem Own.names (h : Own S types name t ys frames own) (n : Nat) :
    ∀ leaf ∈ leavesAfter n own, leaf.name ≠ textSlotName :=
  List.forall_mem_map.mpr (names_of_known h.gains h.known)

theorem Own.shifted (h : Own S types name t ys frames own) {u : StructuralType} {n : Nat}
    (count : u.choices.length = n) :
    t.elementSide.shifted u = (leavesAfter n own).map (Leaf.toElement S.options.nillableAsOptional)
      ++ StructuralType.slot (Builtin.ref S.options .stringType) t.mixed := by
  show t.localElements.map (StructuralType.shiftChoice u.choices.length) = _
  rw [h.own.localElements, h.elements, count, List.map_append, List.map_map, List.map_map]
  congr 1
  · exact List.map_congr_left fun leaf _ => (leaf.toElement_after n).symm
  · cases t.mixed <;> rfl

/-- A type can get the members of its base if its leaves agree with those that the base shows. -/
theorem Own.compose_iff (h : Own S types name t ys frames own) {u : StructuralType}
    (distinct : u.Distinct) (displays : u.Displays S.options.nillableAsOptional
      (Builtin.ref S.options .stringType) members.leaves mixed)
    {n : Nat} (count : u.choices.length = n) :
    (∃ t', t.elementSide.compose u = .ok t') ↔ Members.Agreeing members.leaves (leavesAfter n own) := by
  have ownNames : (t.elementSide.localElements.map Element.name).Nodup :=
    h.own.elementSide.localElements ▸ h.own.elements
  rw [StructuralType.compose_iff rfl distinct.elements ownNames, ← displays.leaves.agree_iff,
    StructuralType.AgreeingElements, h.shifted count, StructuralType.untexted_leaves (h.names n)]

theorem Shown.known_extending (h : Shown S types base mixed xs before)
    (ho : Own S types name t ys frames own) :
    ∀ x ∈ xs ++ ys.map (Placed.after before.length), x.Known (before ++ frames) := by
  refine List.forall_mem_append.mpr ⟨fun x hx => (h.known x hx).mono (List.prefix_append _ _), ?_⟩
  exact List.forall_mem_map.mpr fun y hy => (ho.known y hy).after

/-- What was met so far was met in the choices so far. -/
theorem Shown.inside (h : Shown S types base mixed xs before) (gains : Members.empty.Gains members xs) :
    ∀ x ∈ members.met, ∀ b ∈ x.2, b.choice < before.length := by
  rw [gains.met]
  refine List.forall_mem_map.mpr fun x hx b hb => ?_
  obtain ⟨frame, hf, -⟩ := (h.known x hx).branches b hb
  exact (List.getElem?_eq_some_iff.mp hf).1

/-- A type with the members of its base shows those of both, joined. -/
theorem Shown.extending (h : Shown S types base mixed xs before)
    (ho : Own S types name t ys frames own) (hb : t.base = some base) :
    Shown S types name (mixed || t.mixed) (xs ++ ys.map (Placed.after before.length))
      (before ++ frames) := by
  refine ⟨h.known_extending ho, fun {result} gained => ?_, fun {n t'} full => ?_⟩
  · obtain ⟨members, first, second⟩ := gained.split
    obtain ⟨n, u, full, distinct, displays, choices⟩ := h.full first
    have count : u.choices.length = before.length := by
      rw [choices, Members.length_choices]
    obtain ⟨agree, leaves, met⟩ := (ho.gains.after_iff first.nodup).mp second
    obtain ⟨t', hc⟩ := (ho.compose_iff distinct displays count).mpr agree
    obtain ⟨composed, distinct'⟩ := ho.own.elementSide.compose distinct hc
    refine ⟨n + 1, t', .extending ho.entry_elementSide hb full hc, distinct', ?_, ?_⟩
    · rw [leaves]
      exact displays.composed composed (ho.shifted count) (ho.names _)
    · rw [StructuralType.choices_compose hc, choices, Members.length_choices,
        Members.choices_append met (h.inside first) frames, ← ho.choices]
      rfl
  -- The other way round the base has its members first, since the type could not be finished else.
  · cases full with
    | own hl none =>
      obtain rfl := Option.some.inj (ho.entry_elementSide.symm.trans hl)
      cases none.symm.trans hb
    | extending hl hb' hbase hc =>
      obtain rfl := Option.some.inj (ho.entry_elementSide.symm.trans hl)
      obtain rfl := Option.some.inj (hb.symm.trans hb')
      obtain ⟨members, first⟩ := h.gains hbase
      obtain ⟨_, u, full, distinct, displays, choices⟩ := h.full first
      obtain ⟨-, rfl⟩ := full.unique hbase
      have count : u.choices.length = before.length := by
        rw [choices, Members.length_choices]
      have agree := (ho.compose_iff distinct displays count).mp ⟨_, hc⟩
      let result : Members := ⟨Members.joinedLeaves members.leaves (leavesAfter before.length own),
        members.met ++ Members.metAfter before.length own.met, []⟩
      have second : members.Gains result (ys.map (Placed.after before.length)) :=
        (ho.gains.after_iff first.nodup).mpr ⟨agree, rfl, rfl⟩
      exact ⟨result, first.trans second⟩

/-- The definitions of a chain, flattened one after another, come to what its last type shows. -/
theorem Chain.shown {containers : List Site} (h : Chain S types p name containers mixed)
    (nested : Nested) (owner : Owner) :
    ∃ xs frames, Shown S types name mixed xs frames ∧
      Flattens p xs frames (containers.foldlM (addContainer S nested owner) (.empty, [])) := by
  induction h with
  | base link hb =>
    obtain ⟨ys, frames, members, own, flattens⟩ := link.exists_own nested owner flattens_nil
    have whole : ys.map (Placed.after 0) = ys := List.map_id'' Placed.after_zero ys
    refine ⟨ys, frames, own.shown hb, ?_⟩
    rw [List.foldlM_cons]
    simp only [List.foldlM_nil, bind_pure, pure_bind, List.nil_append, List.length_nil] at flattens ⊢
    rwa [whole] at flattens
  | extending _ link hb ih =>
    obtain ⟨xs, before, shown, flattens⟩ := ih
    obtain ⟨ys, frames, members, own, flattens⟩ := link.exists_own nested owner flattens
    refine ⟨_, _, shown.extending own hb, ?_⟩
    rw [List.foldlM_append]
    simp only [List.foldlM_cons, List.foldlM_nil, bind_pure]
    exact flattens

/-! ## Both ways -/

theorem runs_flatten {containers : List Site} {nested : Nested} {owner : Owner} {content : FlatContent}
    {q : Progress} : Runs (flatten S nested owner containers mixed) p content q ↔
      ∃ members frames, Runs (containers.foldlM (addContainer S nested owner) (.empty, [])) p
          (members, frames) q ∧
        content = ⟨members.elements S.options.nillableAsOptional
          (if mixed then some (Builtin.ref S.options .stringType) else none), members.choices frames⟩ := by
  unfold flatten
  simp only [runs_bind, runs_pure]
  constructor
  · rintro ⟨⟨members, frames⟩, _, hr, rfl, rfl⟩
    exact ⟨members, frames, hr, rfl⟩
  · rintro ⟨members, frames, hr, rfl⟩
    exact ⟨(members, frames), q, hr, rfl, rfl⟩

/-- **Extending types one by one agrees with flattening them as one.** A chain has the elements of
all its types if and only if one flattener can go through their definitions, and then both come to
the same elements and choices; so does a table that could be expanded with its attributes. -/
theorem Chain.flatten_iff {containers : List Site} (h : Chain S types p name containers mixed)
    (nested : Nested) (owner : Owner) :
    ((∃ t, Extension.fullType (Extension.elementSide types) (some name) = .ok t) ↔
      ∃ content q, Runs (flatten S nested owner containers mixed) p content q) ∧
    ∀ content q, Runs (flatten S nested owner containers mixed) p content q →
      (∀ t, Extension.fullType (Extension.elementSide types) (some name) = .ok t →
        content.Of S.options.nillableAsOptional t) ∧
      ∀ full t, Extension.expand types = .ok full → full.lookup (some name) = some t →
        content.Of S.options.nillableAsOptional t := by
  obtain ⟨xs, frames, shown, flattens⟩ := h.shown nested owner
  have agrees {content : FlatContent} {q : Progress}
      (hr : Runs (flatten S nested owner containers mixed) p content q) {n : Nat} {t : StructuralType}
      (ht : Extension.Full (Extension.elementSide types) n (some name) t) :
      content.Of S.options.nillableAsOptional t := by
    obtain ⟨members, _, hc, rfl⟩ := runs_flatten.mp hr
    obtain ⟨gains, rfl, -⟩ := flattens.gains (.refl p) hc
    obtain ⟨_, u, full, -, displays, choices⟩ := shown.full gains
    obtain ⟨-, rfl⟩ := full.unique ht
    exact .of_displays displays (names_of_known gains shown.known) choices
  refine ⟨⟨?_, ?_⟩, fun content q hr => ⟨fun t ht => ?_, fun full t he hl => ?_⟩⟩
  · rintro ⟨t, ht⟩
    obtain ⟨n, full⟩ := Extension.fullType_eq_ok.mp ht
    obtain ⟨members, gains⟩ := shown.gains full
    obtain ⟨⟨members, frames⟩, q, hc⟩ := flattens.runs (.refl p) gains.leaves
    exact ⟨_, q, runs_flatten.mpr ⟨members, frames, hc, rfl⟩⟩
  · rintro ⟨content, q, hr⟩
    obtain ⟨members, _, hc, -⟩ := runs_flatten.mp hr
    obtain ⟨n, t, full, -⟩ := shown.full (flattens.gains (.refl p) hc).1
    exact ⟨t, Extension.fullType_eq_ok.mpr ⟨n, full⟩⟩
  · obtain ⟨n, full⟩ := Extension.fullType_eq_ok.mp ht
    exact agrees hr full
  · obtain ⟨n, full⟩ := (Extension.expand_sound he).1.full _ (mem_of_lookup hl)
    have has := agrees hr full.elementSide
    exact ⟨has.elements, has.exact, has.choices⟩

/-! ## Two types with a choice each -/

/-- A type with a choice, a type that extends it, and the extension: it has an element of the choice
again and a choice of its own. -/
def payments : Site × Site × Site :=
  let node (tag : String) (attributes : List (String × String)) (children : List Xml.Node) :
    Xml.Node := ⟨Vocabulary.xsd, tag, attributes, [], children, "", 1⟩
  let element (name : String) := node "element" [("name", name)] []
  let payment := node "complexType" [("name", "Payment")]
    [node "choice" [] [element "card", element "cash"]]
  let extension := node "extension" [("base", "Payment")]
    [node "sequence" [] [element "card", node "choice" [] [element "note", element "code"]]]
  let refund := node "complexType" [("name", "Refund"), ("mixed", "true")]
    [node "complexContent" [] [extension]]
  let document : SchemaDocument := ⟨"memory:t.xsd", "urn:t", node "schema" [] [payment, refund]⟩
  (⟨payment, document⟩, ⟨refund, document⟩, ⟨extension, document⟩)

def paymentNames : QName × QName := (⟨some "urn:t", "Payment"⟩, ⟨some "urn:t", "Refund"⟩)

def paymentSetting : Setting where
  options := { choice := .union }
  declarations := ⟨[(.type, ⟨paymentNames.1, payments.1⟩), (.type, ⟨paymentNames.2, payments.2.1⟩)]⟩
  nesting := 3

def paymentStart : Progress where
  inventory := ⟨[⟨ownerOfType paymentNames.1, "Payment", paymentNames.1⟩,
    ⟨ownerOfType paymentNames.2, "Refund", paymentNames.2⟩], [], []⟩
  diagnostics := []
  unresolved := []

/-- The types have bodies, and their definitions can be flattened as one. -/
theorem exists_paymentBodies : ∃ payment refund p q content r,
    Runs (bodyOf paymentSetting (complexType paymentSetting true) (some "Payment") payments.1)
      paymentStart payment p ∧
    Runs (bodyOf paymentSetting (complexType paymentSetting true) (some "Refund") payments.2.1)
      p refund q ∧
    Runs (flatten paymentSetting (complexType paymentSetting true) (some "Refund")
      [payments.1, payments.2.2] (payment.mixed || refund.mixed)) q content r ∧
    payment.base = none ∧ refund.base = some "Payment" ∧
    content.elements.map Element.name = ["card", "cash", "note", "code", "$value"] ∧
    content.choices.map (fun g => (g.index, g.branches))
      = [(0, [["card"], ["cash"]]), (1, [["note"], ["code"]])] :=
  ⟨_, _, _, _, _, _, rfl, rfl, rfl, rfl, rfl, rfl, rfl⟩

theorem payments_concatenate : ∃ S types p containers mixed nested content q,
    Chain S types p "Refund" containers mixed ∧
    Runs (flatten S nested (some "Refund") containers mixed) p content q ∧
    content.elements.map Element.name = ["card", "cash", "note", "code", "$value"] ∧
    content.choices.map (fun g => (g.index, g.branches))
      = [(0, [["card"], ["cash"]]), (1, [["note"], ["code"]])] ∧
    ∃ t, Extension.fullType (Extension.elementSide types) (some "Refund") = .ok t ∧
      content.Of S.options.nillableAsOptional t := by
  obtain ⟨payment, refund, p, q, content, r, first, second, both, firstBase, base, elements, choices⟩ :=
    exists_paymentBodies
  let types : Extension.Table :=
    [(some "Payment", payment.toType paymentSetting.options (some "Payment") paymentNames.1 none false),
      (some "Refund", refund.toType paymentSetting.options (some "Refund") paymentNames.2 none false)]
  have start : paymentStart.Keyed := fun _ _ h => nomatch h
  obtain ⟨keyed, -, -⟩ :=
    collects_complexBody [] (complexType paymentSetting true) none start (by decide) ((runs_bodyOf rfl).mp first)
  obtain ⟨-, later, -⟩ :=
    collects_complexBody [] (complexType paymentSetting true) none keyed (by decide) ((runs_bodyOf rfl).mp second)
  have firstLink : Link paymentSetting types q "Payment" payments.1 _ :=
    .flattened rfl (by decide) start first later rfl
  have secondLink : Link paymentSetting types q "Refund" payments.2.2 _ :=
    .flattened rfl (by decide) keyed second (.refl q) rfl
  have chain := Chain.extending (.base firstLink firstBase) secondLink base
  obtain ⟨succeeds, same⟩ := chain.flatten_iff (complexType paymentSetting true) (some "Refund")
  obtain ⟨t, ht⟩ := succeeds.mpr ⟨content, r, both⟩
  exact ⟨_, types, q, _, _, _, content, r, chain, both, elements, choices, t, ht,
    (same content r both).1 t ht⟩

end Compile

end WsdlCatalog
