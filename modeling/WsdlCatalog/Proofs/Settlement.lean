/-
  WsdlCatalog.Proofs.Settlement — types are made when names are settled.

  While complex types are compiled, canonical names are settled and the entries of simple types
  are right (`Progress.Sound`), so whatever a declaration says of its type then, it says as the
  schema has it. An entry is made from what the elements and attributes of its definition say at
  such times (`Says`), whichever of the elements of one name its definition stands in.

  Proved: this is so for every entry after all jobs (`settled_of_jobs`).
-/

import WsdlCatalog.Proofs.Denotation

namespace WsdlCatalog

namespace Compile

variable {S : Setting} {nested : Nested} {owner : String} {site : Site} {p q : Progress}

/-! ## Definitions -/

/-- The definitions of complex types: those with names, those inside global elements, and those
inside the elements of others. -/
inductive Described (S : Setting) : Site → Prop where
  | type {d : Declaration} (hd : d ∈ S.declarations.inSpace .type) (hc : d.isSimpleType = false) :
    Described S d.site
  | element {d : Declaration} (hd : d ∈ S.declarations.inSpace .element) {inner : Xml.Node}
    (hi : d.site.node.child? Vocabulary.xsd "complexType" = some inner) :
    Described S (d.site.atNode inner)
  | nested {owner : String} {site e inner : Site} (h : Described S site)
    (he : e ∈ contentSites S.declarations owner site) (hi : e.inner? = some inner) :
    Described S inner

/-- What the elements and the attributes of a definition say of the members of its type, each at a
time when names are settled. -/
structure Says (S : Setting) (owner : String) (site : Site) (es as : List (Slot × Typing)) : Prop where
  described : Described S site
  elements : ∃ depth, List.Forall₂
    (ElementSays (·.Sound S S.names) S (complexTypeIn S depth true) (some owner))
    (contentSites S.declarations owner site) es
  attributes : List.Forall₂ (AttributeSays (·.Sound S S.names) S (some owner))
    (attributeSites S.declarations owner site) as

structure Settles (S : Setting) (p : Progress) : Prop where
  sound : p.Sound S S.names
  said : ∀ x ∈ p.inventory.types, ∃ owner site es as, x.1 = some owner ∧
    Says S owner site es as ∧ x.2.OfSaid (es ++ as)

/-! ## Steps -/

theorem Settles.of_types (h : Settles S p) (hq : q.Sound S S.names)
    (types : q.inventory.types = p.inventory.types) : Settles S q :=
  ⟨hq, types ▸ h.said⟩

/-- Steps that follow references make no entries of complex types. -/
theorem Settles.lockstep {α β : Type} {V : α → β → Prop} {m : Compile α} {n : Compile β} {a : α}
    (hp : Settles S p) (tell : S.names.Tell S)
    (h : ∀ {R : ∀ {α β : Type}, (α → β → Prop) → Compile α → Compile β → Prop},
      Lockstep S S R (fun _ => True) (S.options.failOnUnresolved.holds = false) → R V m n)
    (hr : Runs m p a q) : Settles S q := by
  obtain ⟨sound, own, new, delta⟩ := sound_of_lockstep h tell hp.sound hr
  exact hp.of_types sound (by rw [delta.inventory])

def Settling (S : Setting) (nested : Nested) : Prop :=
  ∀ {c name inner p q}, Described S inner → Settles S p → Runs (nested (some c) name inner) p () q →
    Settles S q

theorem Settles.nestedType {element : String} {inner : Site} {ref : TypeRef} (hn : Settling S nested)
    (hi : Described S inner) (hp : Settles S p) (hr : Runs (nestedType nested owner element inner) p ref q) :
    Settles S q := by
  unfold Compile.nestedType at hr
  obtain ⟨c, r, hc, hr⟩ := runs_bind.mp hr
  have reserved : Settles S r := by
    cases held : p.inventory.canonical? (ownerOfNested owner element) with
    | some current =>
      obtain ⟨-, rfl⟩ := (runs_reserve_of_some held).mp hc
      exact hp
    | none =>
      obtain ⟨-, -, rfl⟩ := (runs_reserve_of_none held).mp hc
      exact hp.of_types (hp.sound.withReservations _) rfl
  obtain ⟨i, r', seen, hr⟩ := runs_bind.mp hr
  obtain ⟨rfl, rfl⟩ := runs_inventory.mp seen
  split at hr
  · obtain ⟨_, _, compiled, last⟩ := runs_bind.mp hr
    obtain ⟨-, rfl⟩ := runs_pure.mp last
    exact hn hi reserved compiled
  · obtain ⟨-, rfl⟩ := runs_pure.mp hr
    exact reserved

theorem Settles.element {e : Referenced} (tell : S.names.Tell S) (hn : Settling S nested)
    (hi : ∀ inner, site.inner? = some inner → Described S inner) (hp : Settles S p)
    (hr : Runs (elementParticle S nested site (some owner)) p e q) : Settles S q := by
  unfold elementParticle at hr
  unfold Site.inner? at hi
  split at hr
  · rename_i reference _
    exact hp.lockstep tell (fun L => L.elementReference reference rfl (some owner)) hr
  · rename_i unwritten
    obtain ⟨ref, r, typed, last⟩ := runs_bind.mp hr
    obtain ⟨-, rfl⟩ := runs_pure.mp last
    rw [elementTypeWith_eq] at typed
    rw [unwritten] at hi
    split at typed
    · rename_i complex bare inside
      rw [bare, inside] at hi
      split at typed
      · exact hp.nestedType hn (hi _ rfl) typed
      · exact absurd typed runs_throw
    · exact hp.lockstep tell (fun L => L.statedType .anyType (some owner) (some owner) rfl) typed

theorem Settles.attribute {x : Slot × Referenced} {owner : Owner} (tell : S.names.Tell S)
    (hp : Settles S p) (hr : Runs (attributeAt S owner site) p x q) : Settles S q := by
  unfold attributeAt at hr
  split at hr
  · rename_i reference _
    obtain ⟨item, r, found, hr⟩ := runs_bind.mp hr
    have hr' := hp.lockstep tell (fun L => L.encodedItem reference rfl owner) found
    split at hr
    · obtain ⟨-, rfl⟩ := runs_pure.mp hr
      exact hr'
    · obtain ⟨a, _, typed, last⟩ := runs_bind.mp hr
      obtain ⟨-, rfl⟩ := runs_pure.mp last
      exact hr'.lockstep tell (fun L => L.attributeReference reference rfl owner) typed
  · obtain ⟨ref, _, typed, last⟩ := runs_bind.mp hr
    obtain ⟨-, rfl⟩ := runs_pure.mp last
    exact hp.lockstep tell (fun L => L.attributeType rfl owner) typed
  · exact absurd hr runs_fail

theorem lasting_settles (tell : S.names.Tell S) (hn : Settling S nested) (hd : Described S site) :
    Lasting S nested (some owner) (· ∈ contentSites S.declarations owner site) (Settles S) where
  note _ _ h := h.of_types ⟨h.sound.canonical, h.sound.aliases, h.sound.nodup⟩ rfl
  ofElement hs h hr := h.element tell hn (fun _ hi => hd.nested hs hi) hr
  ofAttribute h hr := h.attribute tell hr
  ofBase {_ _ s _} h hr := h.lockstep tell (fun L => L.baseOf (some owner) (rfl : s.bare = s.bare)) hr

/-! ## Types -/

theorem Settles.entered {t : StructuralType} {es as : List (Slot × Typing)} (h : Settles S p)
    (ht : t.name = some owner) (told : Says S owner site es as) (hsaid : t.OfSaid (es ++ as)) :
    Settles S { p with inventory := p.inventory.addType t } where
  sound := sound_withTypes h.sound _
  said x hx := by
    rcases mem_put hx with rfl | hx
    · exact ⟨owner, site, es, as, ht, told, hsaid⟩
    · exact h.said x hx

/-- A complex type that is compiled settles with all types inside it. -/
theorem settling_complexTypeIn (tell : S.names.Tell S) (depth : Nat) :
    ∀ anonymous, Settling S fun canonical name site =>
      complexTypeIn S depth anonymous canonical name site := by
  induction depth with
  | zero => exact fun _ _ _ _ _ _ _ _ hr => absurd hr runs_fail
  | succ depth ih =>
    intro anonymous owner name site p q hd hp hr
    unfold complexTypeIn at hr
    obtain ⟨body, r, hbody, hr⟩ := runs_bind.mp hr
    obtain ⟨settled, es, as, hes, has, collects⟩ :=
      told_bodyOf (lasting_settles tell (ih true) hd) hp hbody
    obtain rfl := runs_addType.mp hr
    have told : Says S owner site es as :=
      ⟨hd, ⟨depth, hes.imp fun _ _ => .imp fun _ => Settles.sound⟩,
        has.imp fun _ _ => .imp fun _ => Settles.sound⟩
    exact settled.entered rfl told (StructuralType.ofSaid_toType collects _ _ _ _ _)

theorem Settles.compileOnce {anonymous : Bool} {c owner : String} {name : QName}
    (tell : S.names.Tell S) (hc : S.names owner = some c) (hd : Described S site) (hp : Settles S p)
    (hr : Runs (compileOnce S anonymous owner name site) p () q) : Settles S q := by
  unfold Compile.compileOnce at hr
  simp only [runs_bind, runs_inventory] at hr
  obtain ⟨_, _, ⟨rfl, rfl⟩, _, _, ⟨rfl, rfl⟩, hr⟩ := hr
  rw [hp.sound.canonical _ _ hc] at hr
  split at hr
  · exact settling_complexTypeIn tell S.nesting anonymous hd hp hr
  · obtain ⟨-, rfl⟩ := runs_pure.mp hr
    exact hp

theorem Settles.job {j : Job} (hS : Answers S.names S) (hj : j ∈ jobs S) (hp : Settles S p)
    (hr : Runs (j.run S) p () q) : Settles S q := by
  have canonical := hS.job j hj
  cases j with
  | simple d =>
    have simple := isSimple_of_mem hS.formed hj
    obtain ⟨a, r, compiled, last⟩ := runs_bind.mp hr
    obtain ⟨-, rfl⟩ := runs_pure.mp last
    exact hp.lockstep hS.tell
      (fun L => L.simpleType rfl simple.declared simple.declared simple.simple) compiled
  | complex anonymous owner name site =>
    have described : Described S site := by
      rcases List.mem_append.mp hj with hj | hj
      · obtain ⟨d, hd, of⟩ := List.mem_map.mp hj
        unfold Job.ofType at of
        split at of
        · cases of
        · rename_i complex
          cases of
          exact .type hd (Bool.eq_false_iff.mpr complex)
      · obtain ⟨d, hd, of⟩ := List.mem_filterMap.mp hj
        obtain ⟨inner, hi, of⟩ := Option.map_eq_some_iff.mp of
        cases of
        exact .element (List.mem_filter.mp hd).1 hi
    exact hp.compileOnce hS.tell canonical described hr

/-- After all jobs every entry was made from what its definition says. -/
theorem settled_of_jobs (hS : S.WellFormed) {reserved p : Progress}
    (hr : Runs (reserveAll S) .start () reserved) (hc : Runs (compileAll S) reserved () p) :
    Answers S.names S ∧ Settles S p := by
  obtain ⟨hn, rfl⟩ := (runs_reserveAll hS).mp hr
  have answers := answers hS hn
  have start : Settles S (Progress.start.withReservations (requests S)) :=
    ⟨(consistent_requested hS hn).1.sound, fun _ hx => absurd hx List.not_mem_nil⟩
  rw [compileAll_eq] at hc
  exact ⟨answers, runs_forM (I := fun _ p => Settles S p)
    (fun _ _ _ _ hj hp h => hp.job answers hj h) start hc⟩

end Compile

end WsdlCatalog
