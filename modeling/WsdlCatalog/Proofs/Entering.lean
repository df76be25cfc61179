/-
  WsdlCatalog.Proofs.Entering — complex types are compiled from their definitions.

  A body is filled with the elements of its particles, in their order
  (`Outline.sites_ofParticles`); references and attributes leave its types alone.

  Proved: a complex type that waits to be compiled is compiled from its definition, and so
  are the types inside it (`compiles_complexTypeIn`).
-/

import WsdlCatalog.Proofs.Filling

namespace WsdlCatalog

namespace Outline

open Particle

def siteOf : Step → Option Site
  | .element _ site _ => some site
  | _ => none

def sites (outline : Outline) : List Site := outline.steps.filterMap siteOf

theorem sites_push (outline : Outline) (step : Step) :
    (outline.push step).sites = outline.sites ++ (siteOf step).toList := by
  unfold sites push
  rw [List.filterMap_append]
  cases h : siteOf step <;> simp [h]

theorem sites_scaled (outer : Range) (ls : List (Site × Range)) :
    (ls.map (scaled outer)).map Prod.fst = ls.map Prod.fst := by
  rw [List.map_map]
  rfl

mutual

theorem sites_add (policy : ChoicePolicy) (outer : Range) (branches : List Branch)
    (outline : Outline) :
    ∀ p, (add policy outer branches outline p).sites = outline.sites ++ p.leaves.map Prod.fst
  | .element range site => by simp only [add, sites_push, siteOf, leaves, Option.toList_some,
      List.map_cons, List.map_nil]
  | .group _ range children => by
    simp only [add, leaves, sites_scaled, sites_addAll policy _ branches outline children]
  | .choice range parts => by
    cases policy with
    | allOptional =>
      simp only [add, leaves, sites_scaled, sites_addAll .allOptional _ branches outline parts]
    | union =>
      simp only [add, leaves, sites_scaled, sites_addBranches .union _ branches _ _ _ parts]
      rfl
  | .wildcard => by simp only [add, leaves, List.map_nil, List.append_nil]
  | .unresolved fault key => by simp [add, leaves, sites_push, siteOf]
  | .broken fault => by simp [add, leaves, sites_push, siteOf]

theorem sites_addAll (policy : ChoicePolicy) (outer : Range) (branches : List Branch)
    (outline : Outline) :
    ∀ ps, (addAll policy outer branches outline ps).sites
      = outline.sites ++ (leavesOf ps).map Prod.fst
  | [] => by simp only [addAll, leavesOf, List.map_nil, List.append_nil]
  | p :: rest => by
    simp only [addAll, leavesOf, sites_addAll policy outer branches _ rest,
      sites_add policy outer branches outline p, List.map_append, List.append_assoc]

theorem sites_addBranches (policy : ChoicePolicy) (outer : Range) (branches : List Branch)
    (choice index : Nat) (outline : Outline) :
    ∀ ps, (addBranches policy outer branches choice index outline ps).sites
      = outline.sites ++ (leavesOf ps).map Prod.fst
  | [] => by simp only [addBranches, leavesOf, List.map_nil, List.append_nil]
  | p :: rest => by
    simp only [addBranches, leavesOf, sites_addBranches policy outer branches choice _ _ rest,
      sites_add policy outer _ outline p, List.map_append, List.append_assoc]

end

/-- An outline has the elements of its particles, in order. -/
theorem sites_ofParticles (policy : ChoicePolicy) (ps : List Particle) :
    (ofParticles policy ps).sites = (leavesOf ps).map Prod.fst := by
  unfold ofParticles
  rw [sites_addAll]
  rfl

end Outline

namespace Compile

section

variable {S : Setting} {nested : Nested} {root : String} {start : Inventory} {p q : Progress}

theorem filled_addStep {done : List Site} {members result : Members} {step : Step}
    (hn : Compiles S nested true) (h : Filling S root start done p.inventory)
    (hl : Leaved S root done members)
    (hd : ∀ element inner,
      S.declarations.firstInner? element (done ++ (Outline.siteOf step).toList) = some inner →
        Defined S (root ++ Text.pascal element) (nestedName root element inner) true inner)
    (hr : Runs (addStep S nested (some root) members step) p result q) :
    Filling S root start (done ++ (Outline.siteOf step).toList) q.inventory ∧
      Leaved S root (done ++ (Outline.siteOf step).toList) result := by
  cases step with
  | element range site branches =>
    unfold addStep at hr
    obtain ⟨e, r, he, hr⟩ := runs_bind.mp hr
    obtain ⟨ha, rfl⟩ := runs_atSite.mp hr
    obtain ⟨filling, refers⟩ := h.element hn hd he
    have name := name_of_elementParticle he
    exact ⟨filling, hl.element name (fun inner hi => (refers inner hi).trans (by rw [← name])) ha⟩
  | unresolved fault key =>
    unfold addStep at hr
    simp only [runs_bind, runs_pure] at hr
    obtain ⟨_, r, hr, rfl, rfl⟩ := hr
    obtain ⟨-, rfl⟩ := runs_report.mp hr
    simp only [Outline.siteOf, Option.toList_none, List.append_nil]
    exact ⟨h.quiet ⟨h.tidy, rfl, rfl⟩, hl⟩
  | broken refusal => exact absurd hr runs_throw

theorem filled_addParticles {container : Site} {result : Members × List ChoiceFrame}
    (hn : Compiles S nested true) (h : Filling S root start [] p.inventory)
    (hd : ∀ element inner, S.declarations.firstInner? element
        ((Particle.leavesOf (Particle.ofContainer S.declarations (some root) container)).map Prod.fst)
          = some inner →
      Defined S (root ++ Text.pascal element) (nestedName root element inner) true inner)
    (hr : Runs (addParticles S nested (some root) container .empty) p result q) :
    Filling S root start
        ((Particle.leavesOf (Particle.ofContainer S.declarations (some root) container)).map Prod.fst)
        q.inventory ∧
      Leaved S root
        ((Particle.leavesOf (Particle.ofContainer S.declarations (some root) container)).map Prod.fst)
        result.1 := by
  rw [← Outline.sites_ofParticles S.options.choice] at hd ⊢
  unfold addParticles at hr
  simp only [runs_bind, runs_pure] at hr
  obtain ⟨members, _, hs, rfl, rfl⟩ := hr
  unfold Outline.sites at hd ⊢
  refine runs_foldlM_done (I := fun done members p =>
    Filling S root start (done.filterMap Outline.siteOf) p.inventory ∧
      Leaved S root (done.filterMap Outline.siteOf) members) ?_ ⟨h, leaved_start S root⟩ hs
  intro done step rest a b p q hsteps ha hr
  have more : (done ++ [step]).filterMap Outline.siteOf
      = done.filterMap Outline.siteOf ++ (Outline.siteOf step).toList := by
    rw [List.filterMap_append]
    cases hsite : Outline.siteOf step <;> simp [hsite]
  rw [more]
  refine filled_addStep hn ha.1 ha.2 (fun element inner hi => hd element inner ?_) hr
  have before : (done ++ step :: rest).filterMap Outline.siteOf
      = done.filterMap Outline.siteOf ++ (Outline.siteOf step).toList
        ++ rest.filterMap Outline.siteOf := by
    rw [← more, ← List.filterMap_append, List.append_assoc]
    rfl
  rw [hsteps, before]
  exact Declarations.firstInner?_append hi

/-- Attributes leave the leaves and their types as they are. -/
theorem leaf_addAttributeAt {site : Site} {members result : Members}
    (hr : Runs (addAttributeAt S (some root) members site) p result q) {l : Leaf}
    (hl : l ∈ members.leaves) : ∃ l' ∈ result.leaves, l'.name = l.name ∧ l'.typeRef = l.typeRef := by
  unfold addAttributeAt at hr
  obtain ⟨use, r, -, hr⟩ := runs_bind.mp hr
  split at hr
  · obtain ⟨item, r', -, hr⟩ := runs_bind.mp hr
    split at hr
    · exact leaf_addElement (runs_atSite.mp hr).1 hl
    · obtain ⟨a, r'', -, hr⟩ := runs_bind.mp hr
      exact ⟨l, Members.leaves_addAttribute (runs_atSite.mp hr).1 ▸ hl, rfl, rfl⟩
  · obtain ⟨ref, r', -, hr⟩ := runs_bind.mp hr
    exact ⟨l, Members.leaves_addAttribute (runs_atSite.mp hr).1 ▸ hl, rfl, rfl⟩
  · exact absurd hr runs_fail

theorem leaf_addAttributes {container : Site} {members result : Members}
    (hr : Runs (addAttributes S (some root) container members) p result q) {l : Leaf}
    (hl : l ∈ members.leaves) : ∃ l' ∈ result.leaves, l'.name = l.name ∧ l'.typeRef = l.typeRef := by
  refine runs_foldlM (I := fun _ result => ∃ l' ∈ result.leaves, l'.name = l.name ∧
    l'.typeRef = l.typeRef) ?_ ⟨l, hl, rfl, rfl⟩ hr
  intro done step a b p q ha hr
  cases step with
  | declared site =>
    obtain ⟨l', hl', hn, ht⟩ := ha
    obtain ⟨l'', hl'', hn', ht'⟩ := leaf_addAttributeAt hr hl'
    exact ⟨l'', hl'', hn'.trans hn, ht'.trans ht⟩
  | unresolved fault key =>
    unfold addAttributeStep at hr
    simp only [runs_bind, runs_pure] at hr
    obtain ⟨_, _, -, rfl, rfl⟩ := hr
    exact ha
  | broken fault => exact absurd hr runs_fail

theorem quiet_addAttributes {container : Site} {members result : Members} (hp : p.inventory.Tidy)
    (hr : Runs (addAttributes S (some root) container members) p result q) : Quiet p q :=
  quiet_of_keeps (fun L => L.addAttributes Lockstep.growing_collected (some root)
    (rfl : container.bare = container.bare) ⟨rfl, ⟨fun _ _ => trivial, fun _ _ => trivial⟩⟩) hp hr

def Refers (S : Setting) (root : String) (sites : List Site) (leaves : List Leaf) : Prop :=
  ∀ element first inner, S.declarations.first? element sites = some first →
    first.inner? = some inner → ∃ leaf ∈ leaves, leaf.name = element ∧
      leaf.typeRef = .ofStructure (root ++ Text.pascal element) (nestedName root element inner).label

theorem filled_complexBody {container : Site} {extending mixed : Bool} {body : Body}
    {anonymous : Bool} (hn : Compiles S nested true) (ready : Ready S root anonymous p.inventory)
    (hd : ∀ element inner, S.declarations.firstInner? element
        ((Particle.leavesOf (Particle.ofContainer S.declarations (some root) container)).map Prod.fst)
          = some inner →
      Defined S (root ++ Text.pascal element) (nestedName root element inner) true inner)
    (hr : Runs (complexBody S nested (some root) container extending mixed) p body q) :
    Filling S root p.inventory
        ((Particle.leavesOf (Particle.ofContainer S.declarations (some root) container)).map Prod.fst)
        q.inventory ∧
      Refers S root
        ((Particle.leavesOf (Particle.ofContainer S.declarations (some root) container)).map Prod.fst)
        body.members.leaves := by
  unfold complexBody bodyOnBase at hr
  simp only [runs_bind, runs_pure] at hr
  obtain ⟨base, r, hbase, ⟨members, frames⟩, r', hp, members', _, ha, rfl, rfl⟩ := hr
  have extended : Quiet p r := by
    split at hbase
    · exact quiet_of_keeps (fun L => L.extendedType (some root) rfl) ready.tidy hbase
    · obtain ⟨-, rfl⟩ := runs_pure.mp hbase
      exact ⟨ready.tidy, rfl, rfl⟩
  obtain ⟨filling, leaved⟩ := filled_addParticles hn ((filling_start ready).quiet extended) hd hp
  refine ⟨filling.quiet (quiet_addAttributes filling.tidy ha), fun element first inner hf hi => ?_⟩
  obtain ⟨l, hl, hname, href⟩ := leaved.refers element first inner hf hi
  obtain ⟨l', hl', hname', href'⟩ := leaf_addAttributes ha hl
  exact ⟨l', hl', hname'.trans hname, href'.trans href⟩

theorem filled_bodyOf {site : Site} {name : QName} {anonymous : Bool} {body : Body}
    (hn : Compiles S nested true) (ready : Ready S root anonymous p.inventory)
    (hd : Defined S root name anonymous site)
    (hr : Runs (bodyOf S nested (some root) site) p body q) :
    Filling S root p.inventory (contentSites S.declarations root site) q.inventory ∧
      Refers S root (contentSites S.declarations root site) body.members.leaves := by
  have inside : ∀ element inner,
      S.declarations.firstInner? element (contentSites S.declarations root site) = some inner →
        Defined S (root ++ Text.pascal element) (nestedName root element inner) true inner :=
    fun _ _ hi => hd.nested hi
  rw [bodyOf_eq, runs_bind] at hr
  obtain ⟨content, r, found, hr⟩ := hr
  obtain ⟨hc, rfl⟩ := runs_ofExcept.mp found
  unfold contentSites contentModel at inside ⊢
  rw [hc] at inside ⊢
  cases content with
  | simple derivation mixed =>
    have quiet : Quiet r q :=
      quiet_of_keeps (fun L => L.simpleBody (F := Eq) Lockstep.growing_collected rfl (some root) rfl
        mixed) ready.tidy hr
    exact ⟨(filling_start ready).quiet quiet, fun _ _ _ h => nomatch h⟩
  | complex container extending mixed => exact filled_complexBody hn ready inside hr

/-! ## Complex types -/

theorem typeKeys_entering (p : Progress) (root : String) (t : StructuralType) :
    (Unfolds.entering p root t).inventory.typeKeys = p.inventory.typeKeys ++ [some root] := by
  unfold Inventory.typeKeys Unfolds.entering
  rw [List.map_append]
  rfl

theorem Filling.tidy_entering {done : List Site} (h : Filling S root start done p.inventory)
    (t : StructuralType) : (Unfolds.entering p root t).inventory.Tidy where
  asked := h.tidy.asked
  canonicals := h.tidy.canonicals
  parents := h.tidy.parents
  aliases := h.tidy.aliases
  typeKeys := by
    rw [typeKeys_entering, List.nodup_append]
    refine ⟨h.tidy.typeKeys, List.nodup_singleton _, ?_⟩
    rintro k hk _ hr rfl
    exact h.absent (List.mem_singleton.mp hr ▸ hk)
  types := by
    rw [typeKeys_entering]
    exact List.forall_mem_append.mpr ⟨h.tidy.types,
      List.forall_mem_singleton.mpr ⟨root, rfl, h.root_held⟩⟩

/-- A complex type that is ready is compiled from its definition. -/
theorem compiles_complexTypeIn (depth : Nat) :
    ∀ anonymous, Compiles S (fun canonical name site => complexTypeIn S depth anonymous canonical name site)
      anonymous := by
  induction depth with
  | zero => exact fun _ _ _ _ _ _ _ _ hr => absurd hr runs_fail
  | succ depth ih =>
    intro anonymous root name site p q hd ready hr
    unfold complexTypeIn at hr
    obtain ⟨body, r, hbody, hr⟩ := runs_bind.mp hr
    obtain ⟨filling, refers⟩ := filled_bodyOf (ih true) ready hd hbody
    obtain rfl := (Unfolds.runs_addType_of_absent rfl filling.absent).mp hr
    generalize ht : body.toType S.options (some root) name site.node.documentation? anonymous = t
    have made : Made S root name anonymous site t :=
      ⟨depth, body, p, r, ready.tidy, hbody, ht.symm⟩
    have reservations : r.inventory.reservations
        ⊆ (Unfolds.entering r root t).inventory.reservations := List.Subset.refl _
    have types : r.inventory.types ⊆ (Unfolds.entering r root t).inventory.types :=
      List.subset_append_left _ _
    have grown : Inventory.Grown root r.inventory (Unfolds.entering r root t).inventory := by
      refine ⟨reservations, types, fun x hx hn => absurd hx hn, ?_, fun x hx hn => absurd hx hn⟩
      rw [typeKeys_entering]
      exact List.forall_mem_append.mpr ⟨fun _ => .inl, List.forall_mem_singleton.mpr (.inr (.inl rfl))⟩
    refine ⟨filling.tidy_entering t, ?_, filling.grown.trans grown, t, ?_, made⟩
    · refine List.forall_mem_append.mpr ⟨fun x hx => ?_, List.forall_mem_singleton.mpr ?_⟩
      · obtain ⟨owner, name, anonymous, site, hk, entry⟩ := filling.entered x hx
        exact ⟨owner, name, anonymous, site, hk, entry.mono reservations types⟩
      · have held := ready.held.mono filling.grown.reservations
        refine ⟨root, name, anonymous, site, rfl, held, hd, made, ?_, ?_⟩
        · exact fun element inner hi => (filling.inner element inner hi).mono types
        · intro element first inner hf hi hne
          obtain ⟨leaf, hl, rfl, href⟩ := refers element first inner hf hi
          refine ⟨leaf.toElement S.options.nillableAsOptional, ?_, rfl, href⟩
          rw [← ht]
          refine List.mem_append_left _ (List.mem_map_of_mem (List.mem_filter.mpr ⟨hl, ?_⟩))
          exact bne_iff_ne.mpr hne
    · exact List.mem_append_right _ (List.mem_singleton.mpr rfl)

end

end Compile

end WsdlCatalog
