/-
  WsdlCatalog.Proofs.GroupReferences — groups that refer to groups.

  A reference to a group is replaced by what the group declares, and the references in there
  are, too. Model groups and attribute groups are expanded in the same way (`GroupRecursion`): the
  groups around a reference are known, one of these is a fault, and a bound on the depth keeps
  the recursion going down. Groups around one another are different and declared (`Around`), so
  the bound is above what there can be of them.

  Proved, for both kinds: a larger bound makes no difference (`GroupRecursion.expand_bound`); groups
  that have a circle below them are not expanded without a fault (`GroupRecursion.acc_of_whole`), and
  only these have the fault (`GroupRecursion.expand_good`); where there is none, the groups around a
  reference do not matter to what stands for it (`GroupRecursion.unfolds`).
-/

import Mathlib.Logic.Relation
import WsdlCatalog.Proofs.ChoiceSites
import WsdlCatalog.Proofs.Declared

namespace WsdlCatalog

open Relation

/-! ## Circles -/

section

variable {α : Type} {r : α → α → Prop} {a b : α}

/-- What only leads to things that come to an end does not lead to itself. -/
theorem not_transGen_of_acc (h : Acc (fun b a => r a b) a) : ¬ TransGen r a a := by
  induction h with
  | intro a _ ih =>
    intro way
    obtain ⟨b, step, rest⟩ := TransGen.head'_iff.mp way
    exact ih b step (TransGen.tail' rest step)

theorem acc_of_reflTransGen (h : Acc (fun b a => r a b) a) (way : ReflTransGen r a b) :
    Acc (fun b a => r a b) b := by
  induction way with
  | refl => exact h
  | tail _ step ih => exact ih.inv step

end

/-- It leads to itself, and can be reached from something to begin with. -/
def OnCircle {α : Type} (r : α → α → Prop) (first : α → Prop) (a : α) : Prop :=
  TransGen r a a ∧ ∃ b, first b ∧ ReflTransGen r b a

theorem not_onCircle_of_acc {α : Type} {r : α → α → Prop} {first : α → Prop}
    (h : ∀ a, first a → Acc (fun b a => r a b) a) (a : α) : ¬ OnCircle r first a := by
  rintro ⟨circle, b, hb, way⟩
  exact not_transGen_of_acc (acc_of_reflTransGen (h b hb) way) circle

/-! ## References -/

def Site.LeadsTo (ds : Declarations) (space : Space) (site : Site) (d : Declaration) : Prop :=
  ∃ reference name, site.node.filled? "ref" = some reference ∧
    Reference.meaning reference site = .ok name ∧ ds.lookup space name = some d

/-- One group uses another one if there is a reference to it in its definition. -/
def Declarations.Uses (ds : Declarations) (space : Space) (refers : Site → Site → Prop)
    (d e : Declaration) : Prop := ∃ site, refers d.site site ∧ site.LeadsTo ds space e

def Declarations.Declares (ds : Declarations) (space : Space) (d : Declaration) : Prop :=
  ds.lookup space d.name = some d

variable {ds : Declarations} {space : Space} {refers : Site → Site → Prop} {site : Site}
  {d e : Declaration}

theorem Site.LeadsTo.declares (h : site.LeadsTo ds space d) : ds.Declares space d := by
  obtain ⟨reference, name, -, -, hd⟩ := h
  rw [Declarations.Declares, Declarations.name_of_lookup hd]
  exact hd

namespace Declarations

theorem Declares.eq (hd : ds.Declares space d) (he : ds.Declares space e) (h : d.name = e.name) :
    d = e := Option.some.inj (hd.symm.trans (h ▸ he))

theorem Declares.mem (h : ds.Declares space d) : d ∈ ds.inSpace space :=
  mem_inSpace.mpr (mem_of_lookup h)

theorem Uses.declares (h : ds.Uses space refers d e) : ds.Declares space e := h.choose_spec.2.declares

theorem Declares.reaches (hd : ds.Declares space d) (way : ReflTransGen (ds.Uses space refers) d e) :
    ds.Declares space e := by
  cases way with
  | refl => exact hd
  | tail _ step => exact step.declares

end Declarations

/-- What a reference leads to: a declaration, the same for every owner, or nothing. -/
theorem Particle.declarationOf_iff {owner : Owner} {reference : String}
    (hr : site.node.filled? "ref" = some reference) :
    declarationOf ds space owner reference site = .ok d ↔ site.LeadsTo ds space d := by
  unfold declarationOf Reference.qualify Site.LeadsTo
  rw [hr]
  cases hm : Reference.meaning reference site with
  | error pfx => simp [Except.mapError, hm]
  | ok name =>
    cases hl : ds.lookup space name with
    | none => simp [Except.mapError, hm, hl]
    | some e => simp [Except.mapError, hm, hl]

/-! ## Declarations around a declaration -/

/-- Declarations around one that is followed inwards, such as groups around one that is being
expanded: they are different, and each leads to that one, directly or through others. -/
structure Around (ds : Declarations) (space : Space) (leads : Declaration → Declaration → Prop)
    (around : List QName) (d : Declaration) : Prop where
  declared : ds.Declares space d
  fresh : d.name ∉ around
  nodup : around.Nodup
  way : ∀ name ∈ around, ∃ e, ds.Declares space e ∧ e.name = name ∧ TransGen leads e d

section

variable {leads : Declaration → Declaration → Prop} {around : List QName}

theorem around_nil (h : ds.Declares space d) : Around ds space leads [] d :=
  ⟨h, List.not_mem_nil, List.nodup_nil, fun _ hm => absurd hm List.not_mem_nil⟩

/-- What is led to from inside and is around already is on a circle. -/
theorem Around.circle (h : Around ds space leads around d) (step : leads d e)
    (declared : ds.Declares space e) (hm : e.name ∈ d.name :: around) : TransGen leads e e := by
  rcases List.mem_cons.mp hm with same | hm
  · obtain rfl := declared.eq h.declared same
    exact .single step
  · obtain ⟨f, hf, same, way⟩ := h.way _ hm
    obtain rfl := hf.eq declared same
    exact way.tail step

theorem Around.cons (h : Around ds space leads around d) (step : leads d e)
    (declared : ds.Declares space e) (hm : e.name ∉ d.name :: around) :
    Around ds space leads (d.name :: around) e where
  declared := declared
  fresh := hm
  nodup := List.nodup_cons.mpr ⟨h.fresh, h.nodup⟩
  way name hn := by
    rcases List.mem_cons.mp hn with rfl | hn
    · exact ⟨d, h.declared, rfl, .single step⟩
    · obtain ⟨f, hf, same, way⟩ := h.way name hn
      exact ⟨f, hf, same, way.tail step⟩

/-- Declarations around one another are fewer than there are declarations. -/
theorem Around.length_lt (h : Around ds space leads around d) :
    around.length < (ds.inSpace space).length := by
  have sub : d.name :: around ⊆ (ds.inSpace space).map (·.name) := by
    refine List.cons_subset.mpr ⟨List.mem_map_of_mem h.declared.mem, fun name hn => ?_⟩
    obtain ⟨e, he, rfl, -⟩ := h.way name hn
    exact List.mem_map_of_mem he.mem
  have := (List.subperm_of_subset (List.nodup_cons.mpr ⟨h.fresh, h.nodup⟩) sub).length_le
  rwa [List.length_map, List.length_cons] at this

/-- What is on no circle, and leads to nothing that is, is not inside itself. -/
theorem Around.not_mem (h : Around ds space leads around d)
    (apart : ∀ e, ReflTransGen leads d e → ¬ TransGen leads e e) (reached : ReflTransGen leads d e)
    (declared : ds.Declares space e) : e.name ∉ around := by
  intro hm
  obtain ⟨f, hf, same, way⟩ := h.way _ hm
  obtain rfl := hf.eq declared same
  exact apart f reached (way.trans_left reached)

end

/-! ## Expansion -/

/-- How groups of one kind are expanded: each group into an `X`, and each reference to one into
a `Y`. -/
structure GroupRecursion (ds : Declarations) (space : Space) (refers : Site → Site → Prop)
    (X Y : Type) where
  /-- What a group is expanded to inside the open ones; `depth` bounds how deep groups nest. -/
  expand : (depth : Nat) → (openGroups : List QName) → Declaration → X
  /-- What stands for a reference inside open groups, if it is known what groups come to. -/
  reach : (openGroups : List QName) → (Declaration → X) → Site → Y
  /-- What a group comes to, if it is known what stands for references. -/
  build : Declaration → (Site → Y) → X
  expand_succ (depth : Nat) (openGroups : List QName) (d : Declaration) :
    expand (depth + 1) openGroups d
      = build d (reach (d.name :: openGroups) (expand depth (d.name :: openGroups)))
  build_congr {d : Declaration} {g g' : Site → Y} (h : ∀ site, refers d.site site → g site = g' site) :
    build d g = build d g'
  reach_congr {openGroups openGroups' : List QName} {f f' : Declaration → X} {site : Site}
    (h : ∀ d, site.LeadsTo ds space d → (d.name ∈ openGroups ↔ d.name ∈ openGroups') ∧
      (d.name ∉ openGroups → f d = f' d)) :
    reach openGroups f site = reach openGroups' f' site

namespace GroupRecursion

variable {X Y : Type} (E : GroupRecursion ds space refers X Y)

/-- Groups come to the same inside other open ones and with another bound, if those that they use
are open in both cases or in none. -/
theorem expand_congr (depth : Nat) : ∀ {openGroups openGroups' : List QName} {depth' : Nat}
    {d : Declaration}, Around ds space (ds.Uses space refers) openGroups d →
    Around ds space (ds.Uses space refers) openGroups' d →
    (∀ e, ReflTransGen (ds.Uses space refers) d e → (e.name ∈ openGroups ↔ e.name ∈ openGroups')) →
    (ds.inSpace space).length < depth + openGroups.length →
    (ds.inSpace space).length < depth' + openGroups'.length →
    E.expand depth openGroups d = E.expand depth' openGroups' d := by
  induction depth with
  | zero =>
    intro openGroups _ _ d around _ _ enough _
    have := around.length_lt
    omega
  | succ depth ih =>
    intro openGroups openGroups' depth' d around around' alike enough enough'
    cases depth' with
    | zero =>
      have := around'.length_lt
      omega
    | succ depth' =>
      rw [E.expand_succ, E.expand_succ]
      refine E.build_congr fun site hs => E.reach_congr fun e he => ?_
      have step : ds.Uses space refers d e := ⟨site, hs, he⟩
      have inside (f : Declaration) (way : ReflTransGen (ds.Uses space refers) e f) :
          f.name ∈ d.name :: openGroups ↔ f.name ∈ d.name :: openGroups' := by
        rw [List.mem_cons, List.mem_cons, alike f (way.head step)]
      refine ⟨inside e .refl, fun fresh => ?_⟩
      refine ih (around.cons step step.declares fresh)
        (around'.cons step step.declares ((inside e .refl).not.mp fresh)) inside ?_ ?_
      · rw [List.length_cons]
        omega
      · rw [List.length_cons]
        omega

/-- What a group comes to does not depend on the bound, if that is above the number of groups. -/
theorem expand_bound (h : ds.Declares space d) {depth depth' : Nat}
    (enough : (ds.inSpace space).length < depth) (enough' : (ds.inSpace space).length < depth') :
    E.expand depth [] d = E.expand depth' [] d :=
  E.expand_congr depth (around_nil h) (around_nil h) (fun _ _ => Iff.rfl) enough enough'

/-- **A group that uses no circle** comes to what stands in its definition, with the references
in there replaced whatever groups are around them. -/
theorem unfolds (h : ds.Declares space d)
    (apart : ∀ e, ReflTransGen (ds.Uses space refers) d e → ¬ TransGen (ds.Uses space refers) e e) :
    E.expand ((ds.inSpace space).length + 1) [] d
      = E.build d (E.reach [] (E.expand ((ds.inSpace space).length + 1) [])) := by
  rw [E.expand_succ]
  refine E.build_congr fun site hs => E.reach_congr fun e he => ?_
  have step : ds.Uses space refers d e := ⟨site, hs, he⟩
  have around : Around ds space (ds.Uses space refers) [] d := around_nil h
  have fresh : e.name ∉ [d.name] := fun hm => apart e (.single step) (around.circle step step.declares hm)
  have inside := around.cons step step.declares fresh
  have below (f : Declaration) (way : ReflTransGen (ds.Uses space refers) e f) : f.name ∉ [d.name] :=
    inside.not_mem (fun g hg => apart g (hg.head step)) way (he.declares.reaches way)
  refine ⟨iff_of_false fresh List.not_mem_nil, fun _ => ?_⟩
  refine E.expand_congr _ inside (around_nil he.declares)
    (fun f way => iff_of_false (below f way) List.not_mem_nil) ?_ ?_
  · rw [List.length_singleton]
    omega
  · rw [List.length_nil]
    omega

/-- A group that was expanded without a fault uses groups that were, fewer levels deep; so no way
from it goes on without an end. -/
theorem acc_of_whole {V : X → Prop} {W : Y → Prop}
    (bottom : ∀ openGroups d, ¬ V (E.expand 0 openGroups d))
    (build : ∀ d g site, V (E.build d g) → refers d.site site → W (g site))
    (reach : ∀ openGroups f site d, W (E.reach openGroups f site) → site.LeadsTo ds space d →
      V (f d)) (depth : Nat) :
    ∀ openGroups d, V (E.expand depth openGroups d) →
      Acc (fun e d => ds.Uses space refers d e) d := by
  induction depth with
  | zero => exact fun openGroups d whole => absurd whole (bottom openGroups d)
  | succ depth ih =>
    intro openGroups d whole
    rw [E.expand_succ] at whole
    refine .intro d fun e given => ?_
    obtain ⟨site, hs, he⟩ := given
    exact ih _ e (reach _ _ site e (build d _ site whole hs) he)

/-- What groups come to is good if the faults are that are put for groups on circles. -/
theorem expand_good {V : X → Prop} {W : Y → Prop} (root : Declaration)
    (build : ∀ d g, (∀ site, refers d.site site → W (g site)) → V (E.build d g))
    (reach : ∀ openGroups f site, (∀ d, site.LeadsTo ds space d → d.name ∈ openGroups →
        TransGen (ds.Uses space refers) d d ∧ ReflTransGen (ds.Uses space refers) root d) →
      (∀ d, site.LeadsTo ds space d → d.name ∉ openGroups → V (f d)) →
      W (E.reach openGroups f site)) (depth : Nat) :
    ∀ {openGroups : List QName} {d : Declaration}, Around ds space (ds.Uses space refers) openGroups d →
      ReflTransGen (ds.Uses space refers) root d →
      (ds.inSpace space).length < depth + openGroups.length → V (E.expand depth openGroups d) := by
  induction depth with
  | zero =>
    intro openGroups d around _ enough
    have := around.length_lt
    omega
  | succ depth ih =>
    intro openGroups d around way enough
    rw [E.expand_succ]
    refine build d _ fun site hs => reach _ _ site (fun e he hm => ?_) fun e he fresh => ?_
    · have step : ds.Uses space refers d e := ⟨site, hs, he⟩
      exact ⟨around.circle step step.declares hm, way.tail step⟩
    · have step : ds.Uses space refers d e := ⟨site, hs, he⟩
      refine ih (around.cons step step.declares fresh) (way.tail step) ?_
      rw [List.length_cons]
      omega

end GroupRecursion

end WsdlCatalog
