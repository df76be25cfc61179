/-
  WsdlCatalog.Proofs.ChoicePolicies — the two policies for choices.

  A compilation either makes the members of choices optional or tells the branches of choices
  apart. Both go through the same elements in the same order and refer to the same types; what
  they enter differs in minima and choices only, and no step looks at these. So they go on
  side by side, and types that relax others get bases that do.

  Proved: both fail alike or come to catalogs that are the same without what depends on choices,
  and the elements of each full view relax those that know their branches, as the content
  models say which names are inside choices (`SchemaSet.policies_agree`).
-/

import WsdlCatalog.Proofs.Lockstep.Parallel
import WsdlCatalog.Proofs.UnderChoice

namespace WsdlCatalog

def Options.withChoice (o : Options) (policy : ChoicePolicy) : Options := { o with choice := policy }

namespace Members

variable {a b : Members}

theorem Relaxes.addAttribute (h : a.Relaxes b) (x : Attribute) :
    SameResult Relaxes (a.addAttribute x) (b.addAttribute x) := by
  unfold Members.addAttribute
  rw [h.attributes]
  split
  · exact ⟨h.leaves, rfl, h.distinct, h.listed⟩
  · split
    · exact h
    · exact (rfl : _ = _)

theorem growing_relaxes {Good : TypeRef → Prop} : Compile.Lockstep.Growing Good Relaxes where
  empty := relaxes_empty
  withItem h _ := h.addElement rfl (.refl _ fun inside => inside rfl)
  withAttribute h _ := h.addAttribute _

end Members

namespace Compile

/-! ## Content models -/

section

variable {S T : Setting} {R : ∀ {α β : Type}, (α → β → Prop) → Compile α → Compile β → Prop}
  {Good : TypeRef → Prop} {Noted : Prop} {nested nested' : Nested} {owner : Owner}

theorem relaxes_addStep (L : Lockstep S T R Good Noted)
    (hn : Lockstep.Elements S T R Good nested nested' owner) {x y : Step} (h : x.Relaxes y)
    (hx : x.Unanswered) {a b : Members} (hm : a.Relaxes b) :
    R Members.Relaxes (addStep S nested owner a x) (addStep T nested' owner b y) := by
  cases h with
  | element same ranges =>
    refine L.bind (L.elementParticle hn same) ?_
    intro e _ given
    rcases given with ⟨rfl, -⟩
    refine L.atSite same owner (hm.addElement ?_ ranges.lower)
    exact congrArg (fun upper => Leaf.mk e.name e.declared e.typeRef ⟨0, upper⟩ e.nillable none)
      ranges.upper
  | unresolved fault key => exact L.bind (L.report hx key) fun _ _ _ => L.pure hm
  | broken refusal => exact L.throw refusal

/-- The two policies on one content model. -/
theorem relaxes_outlines (h : S.Alike T) (owner : Owner) {s t : Site} (hs : s.bare = t.bare) :
    (Outline.ofParticles .allOptional (Particle.ofContainer S.declarations owner s)).Relaxes
      (Outline.ofParticles .union (Particle.ofContainer T.declarations owner t)) := by
  obtain ⟨steps, frames⟩ := Outline.relaxes_ofParticles (Particle.ofContainer S.declarations owner s)
  have bare : (Outline.ofParticles .union (Particle.ofContainer S.declarations owner s)).bare
      = (Outline.ofParticles .union (Particle.ofContainer T.declarations owner t)).bare := by
    rw [Outline.bare_ofParticles, Outline.bare_ofParticles,
      Particle.bare_ofContainer h.declarations owner hs]
  have same := forall₂_eq_map_iff.mpr (congrArg Outline.steps bare)
  exact ⟨forall₂_trans steps same fun _ _ _ => Step.Relaxes.trans_bare, frames⟩

theorem relaxes_addParticles (L : Lockstep S T R Good Noted)
    (first : S.options.choice = .allOptional) (second : T.options.choice = .union)
    (hn : Lockstep.Elements S T R Good nested nested' owner) :
    Lockstep.Particles S T R Members.Relaxes (fun frames _ => frames = []) nested nested' owner := by
  intro s t hs
  obtain ⟨steps, frames⟩ := relaxes_outlines L.alike owner hs
  have unanswered := Outline.unanswered_ofParticles .allOptional
    (Particle.unanswered_ofContainer S.declarations owner s)
  unfold addParticles
  rw [first, second]
  dsimp only
  rw [frames]
  refine L.bind (L.foldlM ((List.forall₂_and_left _ _).mpr ⟨unanswered, steps⟩)
    (fun a b x y hxy hm => relaxes_addStep L hn hxy.2 hxy.1 hm) _ _ Members.relaxes_empty) ?_
  exact fun _ _ hm => L.pure ⟨hm, rfl⟩

end

/-! ## Compilations -/

open StructuralType (RelaxesOwn RelaxesFull)

structure Policies (S T : Setting) : Prop where
  alike : S.Alike T
  declarations : S.declarations = T.declarations
  nesting : S.nesting = T.nesting
  unresolved : S.options.failOnUnresolved = T.options.failOnUnresolved
  first : S.options.choice = .allOptional
  second : T.options.choice = .union

namespace Policies

variable {S T : Setting}

theorem compiling (h : Policies S T) (K : StructuralType → StructuralType → Prop) :
    Compiling S T (Parallel K K) :=
  compiling_parallel h.alike h.declarations h.nesting h.unresolved K

/-- Both policies enter types of which the first relaxes the second. -/
theorem enters (h : Policies S T) : Enters S T (Parallel RelaxesOwn RelaxesOwn) := by
  intro nested nested' hn anonymous canonical name s t hs
  have lockstep := (h.compiling RelaxesOwn).lockstep
  have particles : Lockstep.Particles S T (Parallel RelaxesOwn RelaxesOwn) Members.Relaxes
      (fun frames _ => frames = []) nested nested' canonical :=
    relaxes_addParticles lockstep h.first h.second ((h.compiling RelaxesOwn).elementsOf hn canonical)
  -- That the bodies come of runs says which names are in their choices and that members are distinct.
  refine Parallel.bind (lockstep.bodyWith (F := fun frames _ => frames = [])
    Members.growing_relaxes rfl particles hs).witness ?_
  rintro x y ⟨given, ⟨p, q, hx⟩, ⟨p', q', hy⟩⟩
  rw [Site.node_of_bare hs]
  refine Parallel.addType rfl ⟨?_, ownMembers_toType (collected_bodyOf hx) _ _ _ _ _,
    ownMembers_toType (collected_bodyOf hy) _ _ _ _ _⟩
  exact relaxes_toType h.alike given canonical name _ anonymous fun n =>
    (chosen_toType h.second hy canonical name _ anonymous n).1

end Policies

theorem parallel_extendAll : Parallel RelaxesOwn RelaxesFull Eq extendAll extendAll := by
  refine Parallel.bind Parallel.inventory fun i j known => ?_
  obtain ⟨e, hi, hj⟩ | ⟨full, full', hi, hj, given⟩ :=
    (Extension.sameResult_expand known.types).cases
  · rw [hi, hj]
    exact Parallel.throw e
  · rw [hi, hj]
    exact fun _ _ known => ⟨rfl, ⟨known.inventory.reservations, known.inventory.aliases, given⟩,
      known.diagnostics, known.unresolved⟩

theorem parallel_frozen {K : StructuralType → StructuralType → Prop} :
    Parallel K K (fun x y => x.1 = y.1 ∧ List.Forall₂ K x.2 y.2) frozen frozen := by
  refine Parallel.bind Parallel.inventory fun i j known => ?_
  have aliases : i.sortedAliases? = j.sortedAliases? := by
    unfold Inventory.sortedAliases?
    rw [known.aliases]
  have types : Option.Rel (List.Forall₂ K) i.sortedTypes? j.sortedTypes? :=
    Inventory.rel_byCanonical? known.types
  rw [aliases]
  obtain ⟨hi, hj⟩ | ⟨sorted, sorted', hi, hj, given⟩ := rel_cases types
  · rw [hi, hj]
    cases j.sortedAliases? <;> exact Parallel.throw _
  · rw [hi, hj]
    cases j.sortedAliases? with
    | none => exact Parallel.throw _
    | some aliases => exact Parallel.pure ⟨rfl, given⟩

/-- What the two policies make of the types of one schema set. -/
theorem Policies.catalog {S T : Setting} (h : Policies S T)
    (options : S.options.withChoice .allOptional = T.options.withChoice .allOptional)
    (set : SchemaSet) :
    Parallel RelaxesOwn RelaxesFull
      (fun c d => c.withoutChoices = d.withoutChoices ∧ List.Forall₂ RelaxesFull c.types d.types)
      (catalog S set) (catalog T set) := by
  have named : displayName S.options = displayName T.options := by
    show displayName (S.options.withChoice .allOptional) = _
    rw [options]
    rfl
  refine Parallel.bind (h.compiling RelaxesOwn).reserveAll fun _ _ _ => ?_
  refine Parallel.bind ((h.compiling RelaxesOwn).compileAll h.enters) fun _ _ _ => ?_
  refine Parallel.bind parallel_extendAll fun _ _ _ => ?_
  -- From here on the types have the members of their bases.
  refine Parallel.bind ((h.compiling RelaxesFull).lockstep.interface
    (fun _ _ _ => Parallel.addDiagnostic _) rfl rfl) ?_
  intro pair _ given
  rcases pair with ⟨operations, serviceName⟩
  rcases given with ⟨rfl, -⟩
  rw [named]
  dsimp only
  split
  · exact Parallel.throw _
  · refine Parallel.bind Parallel.get ?_
    intro progress progress' known
    rw [known.diagnostics, known.unresolved]
    refine Parallel.bind parallel_frozen ?_
    intro pair pair' given
    rcases pair with ⟨aliases, types⟩
    rcases pair' with ⟨aliases', types'⟩
    rcases given with ⟨rfl, given⟩
    refine Parallel.pure ⟨?_, given⟩
    have same : types.map StructuralType.withoutChoices = types'.map StructuralType.withoutChoices :=
      forall₂_eq_map_iff.mp (given.imp fun _ _ relaxes => relaxes.same)
    have tables :
        (Marshalling.ofTypes types).withoutMins = (Marshalling.ofTypes types').withoutMins := by
      rw [← Marshalling.ofTypes_withoutChoices, same, Marshalling.ofTypes_withoutChoices]
    unfold Options.withChoice at options
    unfold Catalog.withoutChoices
    rw [same, tables, options]

end Compile

/-! ## Schema sets -/

/-- A catalog under the first policy, and under the second: the same besides what depends on
choices, and the elements of each full view relax those that know their branches, as the content
models of the type and of its bases say which names are inside choices. -/
structure Catalog.Relaxes (S : Setting) (c d : Catalog) : Prop where
  same : c.withoutChoices = d.withoutChoices
  elements : List.Forall₂ (fun t u => (∃ model, Compile.Models S d u model) ∧
    ∀ model, Compile.Models S d u model → List.Forall₂
      (fun a e => a.Relaxes (Particle.AnyUnderChoice S.declarations.nameOf e.name model) e)
      t.elements u.elements) c.types d.types

namespace SchemaSet

/-- **The policies for choices agree**: both fail alike, or come to catalogs of which the first one
relaxes the second. -/
theorem policies_agree (set : SchemaSet) (o : Options) :
    SameResult
      (fun c d => ∃ S, Setting.ofSchemaSet set (o.withChoice .union) = .ok S ∧ c.Relaxes S d)
      (set.compile (o.withChoice .allOptional)).result (set.compile (o.withChoice .union)).result := by
  have first := Setting.ofSchemaSet_options set (o.withChoice .union) (o.withChoice .allOptional)
  cases second : Setting.ofSchemaSet set (o.withChoice .union) with
  | error f =>
    rw [second] at first
    unfold compile
    rw [first, second]
    rfl
  | ok T =>
    rw [second] at first
    have options : T.options = o.withChoice .union := (Setting.ofSchemaSet_eq_ok.mp second).1
    have policies : Compile.Policies { T with options := o.withChoice .allOptional } T := by
      refine ⟨⟨Declarations.Alike.refl _, fun _ => ?_, ?_⟩, rfl, rfl, ?_, rfl, ?_⟩ <;>
        rw [options] <;> rfl
    have catalogs := policies.catalog (by rw [options]; rfl) set .start .start
      ⟨⟨rfl, rfl, .nil⟩, rfl, rfl⟩
    rw [result_compile first, result_compile second]
    refine catalogs.conseq fun c d _ run given => ⟨T, rfl, given.1.1, ?_⟩
    rw [← result_compile second] at run
    obtain ⟨_, _, _, _, _, _, _, _, staged⟩ := exists_staged second run
    refine List.forall₂_iff_zip.mpr ⟨given.1.2.length_eq, fun {t u} hx => ?_⟩
    have relaxes := List.forall₂_zip given.1.2 hx
    refine ⟨staged.exists_models (List.of_mem_zip hx).2, fun model models => ?_⟩
    refine relaxes.elements.imp fun a e related => related.1.congr ?_
    exact models.chosen_iff policies.second staged.nodup_names

end SchemaSet

end WsdlCatalog
