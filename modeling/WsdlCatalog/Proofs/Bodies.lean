/-
  WsdlCatalog.Proofs.Bodies — the bodies of complex types, with the types inside them.

  The elements of a body are met one after another, and then its attributes, which have no
  types inside them. So when the entry is made the type is still reserved and without an
  entry, and what its members say of their types is so (`Ready`).

  Proved: a complex type that waits to be compiled unfolds, however deep types are nested
  in it (`complexTypeIn_unfolds`).
-/

import WsdlCatalog.Proofs.Nesting

namespace WsdlCatalog

variable {S T : Setting} {names : Names} {root : String} {name : QName}

structure Progress.Ready (S : Setting) (names : Names) (root : String) (name : QName)
    (body : Compile.Body) (p : Progress) : Prop where
  reserved : ∃ r ∈ p.inventory.reservations, r.canonical = root ∧ r.name = name
  absent : some root ∉ p.inventory.typeKeys
  types : body.AllTypes (p.Holds S names)

theorem Progress.stable_met {leaves : List Leaf} {element : String} {ref : TypeRef} :
    Stable (Met S names root name leaves element ref) := by
  intro p q hr ht h
  exact ⟨stable_inside p q hr ht h.inside, h.good.imp (Holds.congr hr ht) id⟩

namespace Compile

variable {nested nested' : Nested} {leaves : List Leaf} {Noted : Prop}
  {s t : Site}

namespace Unfolds

/-! ## Elements -/

theorem elementTypeWith (L : Lockstep S T (Replays S T names) (S.Knows names) Noted)
    (hn : NestedAlike S T names nested nested') (h : s.bare = t.bare) :
    Unfolds S T names root [] (Progress.InsideLeaves S names root name leaves)
      (fun a b q => a = b ∧
        q.Met S names root name leaves ((t.node.attribute? "name").getD "") a)
      (Compile.elementTypeWith S nested s (some root))
      (Compile.elementTypeWith T nested' t (some root)) := by
  rw [elementTypeWith_eq, elementTypeWith_eq, Site.node_of_bare h]
  split
  · cases t.node.attribute? "name" with
    | none => exact fun _ _ _ _ _ hr => absurd hr runs_throw
    | some element => exact nestedType hn (Site.bare_atNode h _) element
  · refine (ofReplays (L.statedType .anyType (some root) (some root) h)
      Progress.stable_inside).conseq (fun _ hp => hp) ?_
    intro a b q given
    rcases given with ⟨⟨rfl, hk⟩, hi⟩
    exact ⟨rfl, Progress.InsideLeaves.met hi hk _⟩

theorem elementParticle (L : Lockstep S T (Replays S T names) (S.Knows names) Noted)
    (hn : NestedAlike S T names nested nested') (h : s.bare = t.bare) :
    Unfolds S T names root [] (Progress.InsideLeaves S names root name leaves)
      (fun a b q => a = b ∧ q.Met S names root name leaves a.name a.typeRef)
      (Compile.elementParticle S nested s (some root))
      (Compile.elementParticle T nested' t (some root)) := by
  unfold Compile.elementParticle
  rw [Site.node_of_bare h]
  split
  · refine (ofReplays (L.elementReference _ h (some root))
      Progress.stable_inside).conseq (fun _ hp => hp) ?_
    intro a b q given
    rcases given with ⟨⟨rfl, hk⟩, hi⟩
    exact ⟨rfl, Progress.InsideLeaves.met hi hk _⟩
  · exact bindEq (elementTypeWith L hn h) fun ref => pure fun p hm => ⟨rfl, hm⟩

def Collecting (S : Setting) (names : Names) (root : String) (name : QName) (members : Members)
    (p : Progress) : Prop :=
  p.InsideLeaves S names root name members.leaves ∧ members.attributes = []

theorem addStep (L : Lockstep S T (Replays S T names) (S.Knows names) Noted)
    (hn : NestedAlike S T names nested nested') (members : Members) {x y : Step}
    (h : x.bare = y.bare) (hx : x.Unanswered) :
    Unfolds S T names root [] (Collecting S names root name members)
      (fun a b q => a = b ∧ Collecting S names root name a q)
      (Compile.addStep S nested (some root) members x)
      (Compile.addStep T nested' (some root) members y) := by
  refine assuming fun hempty => ?_
  cases x with
  | element range s branches =>
    cases y with
    | element range' t branches' =>
      obtain ⟨rfl, hs, rfl⟩ := Step.element.inj h
      refine bindEq (elementParticle L hn hs) fun e => ?_
      let result := members.addElement ⟨e.name, e.declared, e.typeRef, range, e.nillable, none⟩ branches
      have inserted : Replays S T names (fun a b => a = b ∧ result = .ok a)
          (Compile.atSite s (some root) result) (Compile.atSite t (some root) result) :=
        L.atSite hs (some root) (sameResult_self fun a ha => ⟨rfl, ha⟩)
      refine (ofReplays inserted Progress.stable_met).conseq (fun _ hp => hp) ?_
      intro a b q given
      rcases given with ⟨⟨rfl, ha⟩, hm⟩
      obtain ⟨leaves, hi, rfl⟩ := Members.addElement_ok ha
      exact ⟨rfl, hm.insert hi, hempty⟩
    | unresolved => cases h
    | broken => cases h
  | unresolved fault key =>
    cases y with
    | element => cases h
    | unresolved =>
      cases h
      exact bind (ofReplays (L.report hx key) Progress.stable_inside) fun _ _ =>
        pure fun p hp => ⟨rfl, hp.2, hempty⟩
    | broken => cases h
  | broken refusal => exact fun _ _ _ _ _ hr => absurd hr runs_throw

theorem addParticles (L : Lockstep S T (Replays S T names) (S.Knows names) Noted)
    (hc : S.options.choice = T.options.choice) (hn : NestedAlike S T names nested nested')
    (h : s.bare = t.bare) :
    Unfolds S T names root [] (Progress.Inside S names root name [] [])
      (fun a b q => a = b ∧ Collecting S names root name a.1 q)
      (Compile.addParticles S nested (some root) s .empty)
      (Compile.addParticles T nested' (some root) t .empty) := by
  obtain ⟨hs, hf⟩ := Outline.mk.inj (Lockstep.outlines_bare L.alike hc (some root) h)
  have hu := Outline.unanswered_ofParticles S.options.choice
    (Particle.unanswered_ofContainer S.declarations (some root) s)
  have collected := foldlM (I := Collecting S names root name) (Lockstep.forall₂_of_map hs hu)
    (fun members _ _ hxy => addStep L hn members hxy.2 hxy.1) .empty
  unfold Compile.addParticles
  dsimp only
  rw [hf]
  refine bindEq (collected.conseq (fun p hp => ⟨hp, rfl⟩) fun _ _ _ hq => hq) fun members => ?_
  exact pure fun p hp => ⟨rfl, hp⟩

/-! ## Bodies -/

theorem bodyOnBase (L : Lockstep S T (Replays S T names) (S.Knows names) Noted)
    (hc : S.options.choice = T.options.choice) (hn : NestedAlike S T names nested nested')
    (h : s.bare = t.bare) (mixed : Bool)
    {base : Option String} (hb : Lockstep.SameBase (S.Knows names) base base) :
    Unfolds S T names root [] (Progress.Inside S names root name [] [])
      (fun a b q => a = b ∧ q.Ready S names root name a)
      (Compile.bodyOnBase S nested (some root) s mixed base)
      (Compile.bodyOnBase T nested' (some root) t mixed base) := by
  refine bindEq (addParticles L hc hn h) fun ⟨members, frames⟩ => ?_
  refine assuming fun hempty => ?_
  -- The attributes are collected beside the leaves, whose types need not be known outside.
  let Said (ref : TypeRef) : Prop := S.Knows names ref ∨ ref ∈ members.leaves.map (·.typeRef)
  have said : members.AllTypes Said :=
    ⟨fun leaf hl => .inr (List.mem_map_of_mem hl), fun a ha => by
      rw [hempty] at ha
      exact absurd ha List.not_mem_nil⟩
  have attributes := (L.mono fun ref hk => (.inl hk : Said ref)).addAttributes
    Lockstep.growing_collected (some root) h ⟨rfl, said⟩
  have after : Unfolds S T names root [] (Progress.InsideLeaves S names root name members.leaves)
      (fun a b q => a = b ∧ a.AllTypes (q.Holds S names) ∧
        q.InsideLeaves S names root name members.leaves)
      (Compile.addAttributes S (some root) s members)
      (Compile.addAttributes T (some root) t members) := by
    refine (ofReplays attributes Progress.stable_inside).conseq (fun _ hp => hp) ?_
    intro a b q given
    rcases given with ⟨⟨rfl, ha⟩, hi⟩
    exact ⟨rfl, ha.mono fun ref hr => hr.elim .inl (hi.holds ref), hi⟩
  refine bindEq after fun members' => pure fun p hp => ⟨rfl, hp.2.reserved, hp.2.absent, ?_⟩
  refine ⟨hp.1, (fun _ e => nomatch e), fun base hbase => ?_⟩
  obtain ⟨ref, hk, he⟩ := hb.2 base hbase
  exact ⟨ref, .inl hk, he⟩

theorem complexBody (L : Lockstep S T (Replays S T names) (S.Knows names) Noted)
    (hc : S.options.choice = T.options.choice) (hn : NestedAlike S T names nested nested')
    (h : s.bare = t.bare) (extending mixed : Bool) :
    Unfolds S T names root [] (Progress.Inside S names root name [] [])
      (fun a b q => a = b ∧ q.Ready S names root name a)
      (Compile.complexBody S nested (some root) s extending mixed)
      (Compile.complexBody T nested' (some root) t extending mixed) := by
  unfold Compile.complexBody
  split
  · refine bind (ofReplays (L.extendedType (some root) h) Progress.stable_inside) fun a b => ?_
    intro p body q hp given hr
    rcases given with ⟨⟨rfl, hb⟩, hi⟩
    exact bodyOnBase L hc hn h mixed ⟨rfl, hb⟩ p body q hp hi hr
  · rw [pure_bind, pure_bind]
    exact bodyOnBase L hc hn h mixed ⟨rfl, fun _ e => nomatch e⟩

theorem simpleBody (L : Lockstep S T (Replays S T names) (S.Knows names) Noted)
    (h : s.bare = t.bare) (mixed : Bool) :
    Unfolds S T names root [] (Progress.Inside S names root name [] [])
      (fun a b q => a = b ∧ q.Ready S names root name a)
      (Compile.simpleBody S (some root) s mixed) (Compile.simpleBody T (some root) t mixed) := by
  refine (ofReplays (L.simpleBody (F := Eq) Lockstep.growing_collected rfl (some root) h mixed)
    Progress.stable_inside).conseq (fun _ hp => hp) ?_
  intro a b q given
  rcases given with ⟨same, hi⟩
  obtain ⟨rfl, ha⟩ := same.eq
  exact ⟨rfl, hi.reserved, hi.absent, ha.mono fun _ => .inl⟩

theorem bodyOf (L : Lockstep S T (Replays S T names) (S.Knows names) Noted)
    (hc : S.options.choice = T.options.choice) (hn : NestedAlike S T names nested nested')
    (h : s.bare = t.bare) :
    Unfolds S T names root [] (Progress.Inside S names root name [] [])
      (fun a b q => a = b ∧ q.Ready S names root name a)
      (Compile.bodyOf S nested (some root) s) (Compile.bodyOf T nested' (some root) t) := by
  rw [bodyOf_eq, bodyOf_eq]
  refine bind (ofReplays (L.contentOf (some root) h) Progress.stable_inside) fun a b => ?_
  intro p body q hp ⟨hab, hi⟩ hr
  cases a with
  | simple d mixed =>
    cases b with
    | simple e mixed' =>
      obtain ⟨hd, rfl⟩ := Content.simple.inj hab
      exact simpleBody L hd mixed p body q hp hi hr
    | complex => cases hab
  | complex d extending mixed =>
    cases b with
    | simple => cases hab
    | complex e extending' mixed' =>
      obtain ⟨hd, rfl, rfl⟩ := Content.complex.inj hab
      exact complexBody L hc hn hd extending mixed p body q hp hi hr

/-! ## Entries -/

def entering (p : Progress) (root : String) (type : StructuralType) : Progress :=
  { p with inventory := { p.inventory with types := p.inventory.types ++ [(some root, type)] } }

theorem runs_addType_of_absent {p q : Progress} {type : StructuralType}
    (hn : type.name = some root) (h : some root ∉ p.inventory.typeKeys) :
    Runs (Compile.addType type) p () q ↔ q = entering p root type := by
  rw [runs_addType]
  unfold Inventory.addType entering
  rw [hn, put_of_lookup_none]
  exact List.lookup_eq_none_iff.mpr fun x hx => bne_iff_ne.mpr fun e =>
    h (List.mem_map.mpr ⟨x, hx, e.symm⟩)

theorem growth_entering (p : Progress) (root : String) (type : StructuralType) :
    p.Growth S (entering p root type) ⟨[], [], [(some root, type)]⟩ [] where
  inventory := by simp only [entering, List.map_nil, List.append_nil]
  reported := ⟨[], .refl _, (List.append_nil _).symm, rfl⟩

theorem consistent_entering {p : Progress} {body : Body} {options : Options}
    {documentation : Option String} {anonymous : Bool} (hp : p.Consistent S names)
    (hr : p.Ready S names root name body) :
    (entering p root (body.toType options (some root) name documentation anonymous)).Consistent S
      names := by
  generalize ht : body.toType options (some root) name documentation anonymous = type
  have growth := growth_entering (S := S) p root type
  obtain ⟨r, hres, hroot, hname⟩ := hr.reserved
  have types := hr.types.mono fun ref (h : p.Holds S names ref) => growth.holds h
  refine ⟨⟨hp.sound.canonical, hp.sound.aliases, hp.sound.nodup⟩, hp.owners, hp.canonicals,
    hp.plain, hp.parents, ?_, ?_, ?_, ?_⟩
  · rw [growth.typeKeys, List.nodup_append]
    refine ⟨hp.typeKeys, List.nodup_singleton _, ?_⟩
    intro k hk k' hk' he
    rw [he, List.mem_singleton.mp hk'] at hk
    exact hr.absent hk
  · refine List.forall_mem_append.mpr ⟨hp.entries, List.forall_mem_singleton.mpr ?_⟩
    refine ⟨r, hres, congrArg some hroot.symm, ?_, ?_⟩
    · rw [hroot, ← ht]
      rfl
    · rw [hname, ← ht]
      rfl
  · refine List.forall_mem_append.mpr ⟨?_, List.forall_mem_singleton.mpr ?_⟩
    · exact fun x hx ref href => growth.holds (hp.refs x hx ref href)
    · rw [← ht] at types ⊢
      exact types.typeRefs (.inl (.scalar rfl)) _ _ _ _
  · refine List.forall_mem_append.mpr ⟨?_, List.forall_mem_singleton.mpr ?_⟩
    · intro x hx base hb
      obtain ⟨ref, hh, hk⟩ := hp.bases x hx base hb
      exact ⟨ref, growth.holds hh, hk⟩
    · intro base hb
      rw [← ht] at hb
      exact types.base base hb

theorem addType {body : Body} {options : Options} {documentation : Option String}
    {anonymous : Bool} :
    Unfolds S T names root [root] (Progress.Ready S names root name body) (fun _ _ _ => True)
      (Compile.addType (body.toType options (some root) name documentation anonymous))
      (Compile.addType (body.toType options (some root) name documentation anonymous)) := by
  intro p _ q hp hr hrun
  obtain rfl := (runs_addType_of_absent rfl hr.absent).mp hrun
  refine ⟨(), _, [], trivial, consistent_entering hp hr, growth_entering p root _, ?_, ?_, ?_⟩
  · refine ⟨fun _ h => absurd h List.not_mem_nil, fun _ h => absurd h List.not_mem_nil, ?_⟩
    exact List.forall_mem_singleton.mpr hr.absent
  · refine ⟨fun _ h => absurd h List.not_mem_nil, fun _ h => absurd h List.not_mem_nil, ?_, ?_⟩
    · intro k hk
      exact .inl ⟨root, List.mem_singleton.mpr rfl, List.mem_singleton.mp hk⟩
    · intro c hc
      rw [List.mem_singleton.mp hc]
      exact List.mem_singleton.mpr rfl
  · intro p' hs _ hf
    have absent : some root ∉ p'.inventory.typeKeys := hf.keys _ (List.mem_singleton.mpr rfl)
    exact ⟨_, [], (runs_addType_of_absent rfl absent).mpr rfl,
      ⟨hs.canonical, hs.aliases, hs.nodup⟩, growth_entering p' root _⟩

end Unfolds

/-- A complex type that waits to be compiled yields its entry and the types inside it, with their
entries. -/
theorem complexTypeIn_unfolds (L : Lockstep S T (Replays S T names) (S.Knows names) Noted)
    (hc : S.options.choice = T.options.choice) (depth : Nat) : ∀ (anonymous : Bool) (c : String) (name : QName) {s t : Site}, s.bare = t.bare →
      Unfolds S T names c [c] (·.Awaits c name) (fun _ _ _ => True)
        (complexTypeIn S depth anonymous (some c) name s)
        (complexTypeIn T depth anonymous (some c) name t) := by
  induction depth with
  | zero => exact fun _ _ _ _ _ _ => Unfolds.fail _
  | succ depth ih =>
    intro anonymous c name s t h
    have nested : NestedAlike S T names (complexTypeIn S depth true) (complexTypeIn T depth true) :=
      fun c name _ _ => ih true c name
    refine Unfolds.bindEq ((Unfolds.bodyOf L hc nested h).conseq
      (fun p (hp : p.Awaits c name) => hp.inside) fun _ _ _ hq => hq) fun body => ?_
    rw [Site.node_of_bare h, toType_of_alike L.alike]
    exact Unfolds.addType

end Compile

end WsdlCatalog
