/-
  WsdlCatalog.Proofs.Placement — the outline of particles after other ones.

  An outline counts the choices that it tells apart, and its elements know their branches by
  these numbers. After other particles the choices are counted on, so the branches move by
  as many (`Outline.moved`); who the outline is made for is told in faults only, which are
  all one fault here (`unblamed`).

  Proved: particles come to the same outline wherever they stand and whoever they are of
  (`Outline.moved_ofContainer`), and every branch is one of a choice of the outline
  (`Outline.framed_ofParticles`).
-/

import WsdlCatalog.Proofs.Entering

namespace WsdlCatalog

/-! ## Faults that are told apart by nothing -/

namespace Particle

variable (φ : Fault)

mutual

def unblamed : Particle → Particle
  | element range site => element range site
  | group compositor range children => group compositor range (unblamedAll children)
  | choice range branches => choice range (unblamedAll branches)
  | wildcard => wildcard
  | unresolved _ key => unresolved φ key
  | broken _ => broken (.fault φ)

def unblamedAll : List Particle → List Particle
  | [] => []
  | p :: rest => p.unblamed :: unblamedAll rest

end

theorem length_unblamedAll (ps : List Particle) : (unblamedAll φ ps).length = ps.length := by
  induction ps with
  | nil => rfl
  | cons p rest ih => simp only [unblamedAll, List.length_cons, ih]

variable {φ} {owner owner' : Owner}

theorem unblamed_ranged {site : Site} {f g : Range → Particle}
    (h : ∀ r, (f r).unblamed φ = (g r).unblamed φ) :
    (ranged owner site f).unblamed φ = (ranged owner' site g).unblamed φ := by
  unfold ranged
  split
  · exact h _
  · rfl

theorem unblamed_ofElement (site : Site) :
    (ofElement owner site).unblamed φ = (ofElement owner' site).unblamed φ := by
  refine unblamed_ranged fun r => ?_
  split <;> rfl

section

variable {document : SchemaDocument} {g g' : Site → Particle}

mutual

theorem unblamed_ofNode (h : ∀ site, (g site).unblamed φ = (g' site).unblamed φ) :
    ∀ n, (ofNode owner document g n).unblamed φ = (ofNode owner' document g' n).unblamed φ
  | ⟨uri, tag, attributes, bindings, children, text, line⟩ => by
    have hc := unblamed_ofNodes h children
    unfold ofNode
    dsimp only
    split
    · exact unblamed_ofElement _
    · exact unblamed_ranged fun r => by simp only [unblamed, hc]
    · exact unblamed_ranged fun r => by simp only [unblamed, hc]
    · exact unblamed_ranged fun r => by simp only [unblamed, hc]
    · exact h _
    · rfl

theorem unblamed_ofNodes (h : ∀ site, (g site).unblamed φ = (g' site).unblamed φ) :
    ∀ ns, unblamedAll φ (ofNodes owner document g ns) = unblamedAll φ (ofNodes owner' document g' ns)
  | [] => rfl
  | n :: ns => by
    unfold ofNodes
    split
    · simp only [unblamedAll, unblamed_ofNode h n, unblamed_ofNodes h ns]
    · exact unblamed_ofNodes h ns

end

end

variable {ds : Declarations}

/-- A reference to a group leads to one declaration, or to nothing under one key. -/
theorem declarationOf_owner (ds : Declarations) (space : Space) (reference : String) (site : Site) (owner owner' : Owner) :
    (∃ f g key, declarationOf ds space owner reference site = .error (f, key) ∧
      declarationOf ds space owner' reference site = .error (g, key)) ∨
    ∃ d, declarationOf ds space owner reference site = .ok d ∧
      declarationOf ds space owner' reference site = .ok d := by
  unfold declarationOf Reference.qualify
  cases Reference.meaning reference site with
  | error pfx => exact .inl ⟨_, _, _, rfl, rfl⟩
  | ok name =>
    dsimp only [Except.mapError]
    cases ds.lookup space name with
    | none => exact .inl ⟨_, _, _, rfl, rfl⟩
    | some d => exact .inr ⟨d, rfl, rfl⟩

theorem unblamed_ofGroup {openGroups : List QName} {f g : Declaration → Range → Particle}
    (h : ∀ d r, (f d r).unblamed φ = (g d r).unblamed φ) (site : Site) :
    (ofGroup ds owner openGroups f site).unblamed φ
      = (ofGroup ds owner' openGroups g site).unblamed φ := by
  unfold ofGroup
  split
  · rfl
  · rename_i reference _
    obtain ⟨_, _, _, hd, he⟩ | ⟨d, hd, he⟩ :=
      declarationOf_owner ds .group reference site owner owner'
    · rw [hd, he]
      rfl
    · rw [hd, he]
      dsimp only
      split
      · rfl
      · exact unblamed_ranged (h d)

theorem unblamed_expandGroup (depth : Nat) :
    ∀ (openGroups : List QName) (d : Declaration) (r : Range),
      (expandGroup ds owner depth openGroups d r).unblamed φ
        = (expandGroup ds owner' depth openGroups d r).unblamed φ := by
  induction depth with
  | zero => exact fun _ _ _ => rfl
  | succ depth ih =>
    intro openGroups d r
    simp only [expandGroup, unblamed]
    rw [unblamed_ofNodes (unblamed_ofGroup (ih _))]

/-- The particles of a container have the same parts, whoever they are of. -/
theorem unblamed_ofContainer (owner owner' : Owner) (container : Site) :
    unblamedAll φ (ofContainer ds owner container) = unblamedAll φ (ofContainer ds owner' container) :=
  unblamed_ofNodes (unblamed_ofGroup (unblamed_expandGroup _ _)) _

end Particle

/-! ## Outlines after other ones -/

/-- The branch when `n` choices come before its own. -/
def Branch.after (n : Nat) (b : Branch) : Branch := ⟨b.choice + n, b.index⟩

def Step.moved (φ : Fault) (n : Nat) : Step → Step
  | element range site branches => element range site (branches.map (Branch.after n))
  | unresolved _ key => unresolved φ key
  | broken _ => broken (.fault φ)

namespace Outline

variable (φ : Fault) (before : List ChoiceFrame)

/-- The outline after one that makes the choices `before`. -/
def moved (outline : Outline) : Outline :=
  ⟨outline.steps.map (Step.moved φ before.length), before ++ outline.frames⟩

theorem moved_push (outline : Outline) (step : Step) :
    (outline.push step).moved φ before = (outline.moved φ before).push (step.moved φ before.length) := by
  simp only [push, moved, List.map_append, List.map_cons, List.map_nil]

mutual

theorem moved_add (policy : ChoicePolicy) (outer : Range) (branches : List Branch) (outline : Outline) :
    ∀ p, (add policy outer branches outline p).moved φ before
      = add policy outer (branches.map (Branch.after before.length)) (outline.moved φ before)
          (p.unblamed φ)
  | .element range site => by simp only [add, moved_push, Particle.unblamed, Step.moved]
  | .group _ range children => by
    simp only [add, Particle.unblamed, moved_addAll policy _ branches outline children]
  | .choice range parts => by
    cases policy with
    | allOptional => simp only [add, Particle.unblamed, moved_addAll _ _ branches outline parts]
    | union =>
      have count : (outline.moved φ before).frames.length = outline.frames.length + before.length := by
        rw [moved, List.length_append, Nat.add_comm]
      simp only [add, Particle.unblamed, Particle.length_unblamedAll]
      rw [moved_addBranches, count]
      simp only [moved, List.append_assoc]
  | .wildcard => rfl
  | .unresolved fault key => by simp only [add, moved_push, Particle.unblamed, Step.moved]
  | .broken refusal => by simp only [add, moved_push, Particle.unblamed, Step.moved]

theorem moved_addAll (policy : ChoicePolicy) (outer : Range) (branches : List Branch)
    (outline : Outline) :
    ∀ ps, (addAll policy outer branches outline ps).moved φ before
      = addAll policy outer (branches.map (Branch.after before.length)) (outline.moved φ before)
          (Particle.unblamedAll φ ps)
  | [] => rfl
  | p :: rest => by
    simp only [addAll, Particle.unblamedAll, moved_addAll policy outer branches _ rest,
      moved_add policy outer branches outline p]

theorem moved_addBranches (policy : ChoicePolicy) (outer : Range) (branches : List Branch)
    (choice index : Nat) (outline : Outline) :
    ∀ ps, (addBranches policy outer branches choice index outline ps).moved φ before
      = addBranches policy outer (branches.map (Branch.after before.length)) (choice + before.length)
          index (outline.moved φ before) (Particle.unblamedAll φ ps)
  | [] => rfl
  | p :: rest => by
    simp only [addBranches, Particle.unblamedAll,
      moved_addBranches policy outer branches choice (index + 1) _ rest,
      moved_add policy outer _ outline p, List.map_append, List.map_cons, List.map_nil]
    rfl

end

/-- What was outlined for a container moves when it is outlined after other choices, for another
owner. -/
theorem moved_ofContainer (policy : ChoicePolicy) (ds : Declarations) (owner owner' : Owner)
    (container : Site) :
    (addAll policy .once [] ⟨[], before⟩ (Particle.ofContainer ds owner' container)).moved φ []
      = (ofParticles policy (Particle.ofContainer ds owner container)).moved φ before := by
  unfold ofParticles
  rw [moved_addAll, moved_addAll, Particle.unblamed_ofContainer owner' owner]
  simp only [moved, empty, List.map_nil, List.nil_append, List.append_nil]

end Outline

/-! ## Branches of the choices that are made -/

def Branch.Of (frames : List ChoiceFrame) (b : Branch) : Prop :=
  ∃ frame, frames[b.choice]? = some frame ∧ b.index < frame.branchCount

theorem Branch.Of.mono {frames frames' : List ChoiceFrame} {b : Branch} (h : b.Of frames)
    (hf : frames <+: frames') : b.Of frames' := by
  obtain ⟨frame, hframe, hi⟩ := h
  obtain ⟨more, rfl⟩ := hf
  have inside : b.choice < frames.length := (List.getElem?_eq_some_iff.mp hframe).1
  exact ⟨frame, (List.getElem?_append_left inside).trans hframe, hi⟩

namespace Outline

/-- The branches of all elements are those of choices that the outline tells apart. -/
def Framed (outline : Outline) : Prop :=
  ∀ range site branches, Step.element range site branches ∈ outline.steps →
    ∀ b ∈ branches, b.Of outline.frames

/-- An outline goes on, and the branches of its elements are still known. -/
structure Continues (outline outline' : Outline) : Prop where
  framed : outline'.Framed
  frames : outline.frames <+: outline'.frames

variable {outline : Outline}

theorem framed_push (ho : outline.Framed) {step : Step}
    (h : ∀ range site branches, step = .element range site branches → ∀ b ∈ branches,
      b.Of outline.frames) : outline.Continues (outline.push step) where
  framed range site branches hm := by
    rcases List.mem_append.mp hm with hm | hm
    · exact ho range site branches hm
    · exact h range site branches (List.mem_singleton.mp hm).symm
  frames := List.prefix_refl _

mutual

theorem framed_add (policy : ChoicePolicy) (outer : Range) (branches : List Branch)
    (outline : Outline)
    (hb : ∀ b ∈ branches, b.Of outline.frames) (ho : outline.Framed) :
    ∀ p, outline.Continues (add policy outer branches outline p)
  | .element range site => by
    rw [add]
    exact framed_push ho fun _ _ _ h => (Step.element.inj h).2.2 ▸ hb
  | .group _ range children => by
    rw [add]
    exact framed_addAll policy _ branches outline hb ho children
  | .choice range parts => by
    cases policy with
    | allOptional =>
      rw [add]
      exact framed_addAll .allOptional _ branches outline hb ho parts
    | union =>
      rw [add]
      let frame : ChoiceFrame := ⟨outer.mul range, parts.length⟩
      have more : outline.frames <+: outline.frames ++ [frame] := List.prefix_append _ _
      have new : (outline.frames ++ [frame])[outline.frames.length]? = some frame := by
        rw [List.getElem?_append_right (Nat.le_refl _), Nat.sub_self, List.getElem?_cons_zero]
      have rest := framed_addBranches .union (outer.mul range) branches
        outline.frames.length 0 { outline with frames := outline.frames ++ [frame] }
        (fun b h => (hb b h).mono more)
        (fun range site branches hm b h => (ho range site branches hm b h).mono more) parts frame new
        (by rw [Nat.zero_add])
      exact ⟨rest.framed, more.trans rest.frames⟩
  | .wildcard => ⟨ho, List.prefix_refl _⟩
  | .unresolved fault key => by
    rw [add]
    exact framed_push ho fun _ _ _ h => nomatch h
  | .broken refusal => by
    rw [add]
    exact framed_push ho fun _ _ _ h => nomatch h

theorem framed_addAll (policy : ChoicePolicy) (outer : Range) (branches : List Branch)
    (outline : Outline)
    (hb : ∀ b ∈ branches, b.Of outline.frames) (ho : outline.Framed) :
    ∀ ps, outline.Continues (addAll policy outer branches outline ps)
  | [] => ⟨ho, List.prefix_refl _⟩
  | p :: rest => by
    have first := framed_add policy outer branches outline hb ho p
    have others := framed_addAll policy outer branches _
      (fun b h => (hb b h).mono first.frames) first.framed rest
    rw [addAll]
    exact ⟨others.framed, first.frames.trans others.frames⟩

theorem framed_addBranches (policy : ChoicePolicy) (outer : Range) (branches : List Branch)
    (choice index : Nat) (outline : Outline) (hb : ∀ b ∈ branches, b.Of outline.frames) (ho : outline.Framed) :
    ∀ ps frame, outline.frames[choice]? = some frame → index + ps.length = frame.branchCount →
      outline.Continues (addBranches policy outer branches choice index outline ps)
  | [], _, _, _ => ⟨ho, List.prefix_refl _⟩
  | p :: rest, frame, hf, hc => by
    rw [List.length_cons] at hc
    have here : ∀ b ∈ branches ++ [⟨choice, index⟩], b.Of outline.frames := by
      refine List.forall_mem_append.mpr ⟨hb, List.forall_mem_singleton.mpr ⟨frame, hf, ?_⟩⟩
      show index < frame.branchCount
      omega
    have first := framed_add policy outer _ outline here ho p
    obtain ⟨more, same⟩ := first.frames
    have still : (add policy outer (branches ++ [⟨choice, index⟩]) outline p).frames[choice]?
        = some frame := by
      have inside : choice < outline.frames.length := (List.getElem?_eq_some_iff.mp hf).1
      rw [← same, List.getElem?_append_left inside, hf]
    have others := framed_addBranches policy outer branches choice (index + 1) _
      (fun b h => (hb b h).mono first.frames) first.framed rest frame still (by omega)
    rw [addBranches]
    exact ⟨others.framed, first.frames.trans others.frames⟩

end

/-- The branches of an outline are those of its choices. -/
theorem framed_ofParticles (policy : ChoicePolicy) (ps : List Particle) :
    (ofParticles policy ps).Framed :=
  (framed_addAll policy .once [] .empty (fun _ h => absurd h List.not_mem_nil)
    (fun _ _ _ h => absurd h List.not_mem_nil) ps).framed

end Outline

/-! ## Attributes -/

namespace AttributeStep

variable {φ : Fault} {ds : Declarations} {owner owner' : Owner}

def unblamed (φ : Fault) : AttributeStep → AttributeStep
  | declared site => declared site
  | unresolved _ key => unresolved φ key
  | broken _ => broken φ

theorem unblamed_ofSite {f g : Site → List AttributeStep}
    (h : ∀ site, (f site).map (unblamed φ) = (g site).map (unblamed φ)) (container : Site) :
    (ofSite f container).map (unblamed φ) = (ofSite g container).map (unblamed φ) := by
  simp only [ofSite, List.map_flatMap]
  congr 1
  funext node
  split
  · rfl
  · exact h _
  · rfl

theorem unblamed_ofGroup {openGroups : List QName} {f g : Declaration → List AttributeStep}
    (h : ∀ d, (f d).map (unblamed φ) = (g d).map (unblamed φ)) (site : Site) :
    (ofGroup ds owner openGroups f site).map (unblamed φ)
      = (ofGroup ds owner' openGroups g site).map (unblamed φ) := by
  unfold ofGroup
  split
  · rfl
  · rename_i reference _
    obtain ⟨_, _, _, hd, he⟩ | ⟨d, hd, he⟩ :=
      Particle.declarationOf_owner ds .attributeGroup reference site owner owner'
    · rw [hd, he]
      rfl
    · rw [hd, he]
      dsimp only
      split
      · rfl
      · exact h d

theorem unblamed_expandGroup (depth : Nat) :
    ∀ (openGroups : List QName) (d : Declaration),
      (expandGroup ds owner depth openGroups d).map (unblamed φ)
        = (expandGroup ds owner' depth openGroups d).map (unblamed φ) := by
  induction depth with
  | zero => exact fun _ _ => rfl
  | succ depth ih =>
    intro openGroups d
    exact unblamed_ofSite (unblamed_ofGroup (ih _)) d.site

theorem unblamed_ofContainer (owner owner' : Owner) (container : Site) :
    (ofContainer ds owner container).map (unblamed φ)
      = (ofContainer ds owner' container).map (unblamed φ) :=
  unblamed_ofSite (unblamed_ofGroup (unblamed_expandGroup _ _)) container

end AttributeStep

end WsdlCatalog
