/-
  WsdlCatalog.Proofs.ChoiceSites — the choices of a content model.

  A content model has its choices one inside another and one after another. Listed as they
  are entered, a choice comes before those inside it, and those of a group stand where the
  group is referred to. The same list is had from the particles (`Particle.choicesOf`) and from
  the elements of the schema (`Particle.choiceSitesIn`), where it tells what the branches
  are: the children that are parts of a content model, one branch each.

  A faulty part has no choices in the one list and may have some in the other. A content
  model that was compiled has no faulty part.

  Proved: both lists agree for a content model without faulty parts
  (`Particle.choicesOf_ofContainer`), and only such a one is compiled
  (`Compile.whole_of_bodyOf`).
-/

import WsdlCatalog.Proofs.Occurrence

namespace WsdlCatalog

namespace Particle

/-! ## Particles -/

mutual

/-- The branches of the choices of a particle, a choice before those inside it. -/
def choices : Particle → List (List Particle)
  | group _ _ children => choicesOf children
  | choice _ parts => parts :: choicesOf parts
  | _ => []

def choicesOf : List Particle → List (List Particle)
  | [] => []
  | p :: rest => p.choices ++ choicesOf rest

end

mutual

def Whole : Particle → Prop
  | group _ _ children => AllWhole children
  | choice _ parts => AllWhole parts
  | broken _ => False
  | _ => True

def AllWhole : List Particle → Prop
  | [] => True
  | p :: rest => p.Whole ∧ AllWhole rest

end

/-! ## Elements of the schema -/

structure ChoiceSite where
  site : Site
  group : Site → Particle

/-- The particles of the branches of a choice: one for each child that is a part of a content
model. -/
def ChoiceSite.branches (owner : Owner) (choice : ChoiceSite) : List Particle :=
  (choice.site.node.children.filter isPart).map
    (ofNode owner choice.site.document choice.group)

section

variable (document : SchemaDocument) (group : Site → Particle) (ofReference : Site → List ChoiceSite)

mutual

/-- The choices at and inside an element; `ofReference` gives those of group references. -/
def choiceSites : Xml.Node → List ChoiceSite
  | ⟨uri, tag, attributes, bindings, children, text, line⟩ =>
    let site : Site := ⟨⟨uri, tag, attributes, bindings, children, text, line⟩, document⟩
    match tag with
    | "sequence" => choiceSitesOf children
    | "all" => choiceSitesOf children
    | "choice" => ⟨site, group⟩ :: choiceSitesOf children
    | "group" => ofReference site
    | _ => []

def choiceSitesOf : List Xml.Node → List ChoiceSite
  | [] => []
  | node :: rest =>
    if isPart node then choiceSites node ++ choiceSitesOf rest else choiceSitesOf rest

end

end

/-- The choices of the group that a reference leads to; `expand` gives those of a group. -/
def choiceSitesOfGroup (declarations : Declarations) (owner : Owner) (openGroups : List QName)
    (expand : Declaration → List ChoiceSite) (site : Site) : List ChoiceSite :=
  match site.node.filled? "ref" with
  | none => []
  | some reference =>
    match declarationOf declarations .group owner reference site with
    | .error _ => []
    | .ok d => if openGroups.contains d.name then [] else expand d

/-- The choices of a model group; `depth` bounds how deep groups nest. -/
def choiceSitesOfExpansion (declarations : Declarations) (owner : Owner) :
    (depth : Nat) → (openGroups : List QName) → Declaration → List ChoiceSite
  | 0, _, _ => []
  | depth + 1, openGroups, d =>
    let groups := d.name :: openGroups
    choiceSitesOf d.site.document
      (ofGroup declarations owner groups (expandGroup declarations owner depth groups))
      (choiceSitesOfGroup declarations owner groups
        (choiceSitesOfExpansion declarations owner depth groups))
      (d.site.node.childrenIn Vocabulary.xsd ["sequence", "choice", "all"])

def choiceSitesIn (declarations : Declarations) (owner : Owner) (container : Site) :
    List ChoiceSite :=
  let depth := (declarations.inSpace .group).length + 1
  choiceSitesOf container.document
    (ofGroup declarations owner [] (expandGroup declarations owner depth []))
    (choiceSitesOfGroup declarations owner [] (choiceSitesOfExpansion declarations owner depth []))
    (container.node.childrenIn Vocabulary.xsd ["sequence", "choice", "all", "group"])

variable {owner : Owner} {document : SchemaDocument} {group : Site → Particle}
  {ofReference : Site → List ChoiceSite} {ds : Declarations}

/-- Each part of a content model has a particle, and nothing else has one. -/
theorem ofNodes_eq_map (nodes : List Xml.Node) : ofNodes owner document group nodes
    = (nodes.filter isPart).map (ofNode owner document group) := by
  induction nodes with
  | nil => rfl
  | cons node rest ih =>
    unfold ofNodes
    rw [List.filter_cons, ih]
    split <;> rfl

/-! ## Both lists agree -/

/-- A particle with a range that is whole was not replaced by a fault. -/
theorem choices_ranged {site : Site} {particle : Range → Particle} {listed : List (List Particle)}
    (h : ∀ r, (particle r).Whole → (particle r).choices = listed)
    (whole : (ranged owner site particle).Whole) :
    (ranged owner site particle).choices = listed := by
  unfold ranged at whole ⊢
  split
  · rename_i r hr
    rw [hr] at whole
    exact h r whole
  · rename_i fault hf
    rw [hf] at whole
    exact whole.elim

theorem choices_ofElement (site : Site) : (ofElement owner site).choices = [] := by
  unfold ofElement ranged
  split
  · split <;> rfl
  · rfl

mutual

theorem choices_ofNode
    (hg : ∀ site, (group site).Whole →
      (group site).choices = (ofReference site).map (ChoiceSite.branches owner)) :
    ∀ node, (ofNode owner document group node).Whole →
      (ofNode owner document group node).choices
        = (choiceSites document group ofReference node).map (ChoiceSite.branches owner)
  | ⟨uri, tag, attributes, bindings, children, text, line⟩ => by
    have inside := choices_ofNodes hg children
    intro whole
    unfold ofNode at whole ⊢
    unfold choiceSites
    dsimp only at whole ⊢
    split at whole
    · exact choices_ofElement _
    · exact choices_ranged (fun r hr => inside hr) whole
    · exact choices_ranged (fun r hr => inside hr) whole
    · refine choices_ranged (fun r hr => ?_) whole
      show _ :: choicesOf _ = _ :: List.map _ _
      rw [inside hr, ofNodes_eq_map]
      rfl
    · exact hg _ whole
    · simp only
      rfl

theorem choices_ofNodes
    (hg : ∀ site, (group site).Whole →
      (group site).choices = (ofReference site).map (ChoiceSite.branches owner)) :
    ∀ nodes, AllWhole (ofNodes owner document group nodes) →
      choicesOf (ofNodes owner document group nodes)
        = (choiceSitesOf document group ofReference nodes).map (ChoiceSite.branches owner)
  | [] => fun _ => rfl
  | node :: rest => by
    intro whole
    unfold ofNodes at whole ⊢
    unfold choiceSitesOf
    split at whole
    · rename_i part
      rw [if_pos part, if_pos part, List.map_append, ← choices_ofNode hg node whole.1,
        ← choices_ofNodes hg rest whole.2]
      rfl
    · rename_i apart
      rw [if_neg apart, if_neg apart]
      exact choices_ofNodes hg rest whole

end

theorem choices_ofGroup {openGroups : List QName} {expand : Declaration → Range → Particle}
    {sites : Declaration → List ChoiceSite}
    (he : ∀ d r, (expand d r).Whole →
      (expand d r).choices = (sites d).map (ChoiceSite.branches owner)) (site : Site) :
    (ofGroup ds owner openGroups expand site).Whole →
      (ofGroup ds owner openGroups expand site).choices
        = (choiceSitesOfGroup ds owner openGroups sites site).map (ChoiceSite.branches owner) := by
  intro whole
  unfold ofGroup at whole ⊢
  unfold choiceSitesOfGroup
  cases hr : site.node.filled? "ref" with
  | none => rfl
  | some reference =>
    rw [hr] at whole
    dsimp only at whole ⊢
    cases hd : declarationOf ds .group owner reference site with
    | error e => rfl
    | ok d =>
      rw [hd] at whole
      dsimp only at whole ⊢
      split at whole
      · exact whole.elim
      · rename_i closed
        rw [if_neg closed, if_neg closed]
        exact choices_ranged (he d) whole

theorem choices_expandGroup (depth : Nat) : ∀ (openGroups : List QName) (d : Declaration) (r : Range),
    (expandGroup ds owner depth openGroups d r).Whole →
      (expandGroup ds owner depth openGroups d r).choices
        = (choiceSitesOfExpansion ds owner depth openGroups d).map (ChoiceSite.branches owner) := by
  induction depth with
  | zero => exact fun _ _ _ whole => whole.elim
  | succ depth ih =>
    intro openGroups d r whole
    exact choices_ofNodes (choices_ofGroup (ih _)) _ whole

/-- **The choices of a content model** are those that stand in the schema. -/
theorem choicesOf_ofContainer (ds : Declarations) (owner : Owner) (container : Site)
    (whole : AllWhole (ofContainer ds owner container)) :
    choicesOf (ofContainer ds owner container)
      = (choiceSitesIn ds owner container).map (ChoiceSite.branches owner) :=
  choices_ofNodes (choices_ofGroup (choices_expandGroup _ _)) _ whole

end Particle

/-! ## Faulty parts are not compiled -/

namespace Outline

def Whole (o : Outline) : Prop := ∀ fault, Step.broken fault ∉ o.steps

theorem whole_push {o : Outline} {step : Step} (h : (o.push step).Whole) :
    o.Whole ∧ ∀ fault, step ≠ .broken fault := by
  constructor
  · intro fault hm
    exact h fault (List.mem_append_left _ hm)
  · intro fault he
    exact h fault (List.mem_append_right _ (List.mem_singleton.mpr he.symm))

mutual

theorem whole_add (policy : ChoicePolicy) (outer : Range) (branches : List Branch) (o : Outline) :
    ∀ p : Particle, (add policy outer branches o p).Whole → o.Whole ∧ p.Whole
  | .element range site, h => by
    unfold add at h
    exact ⟨(whole_push h).1, trivial⟩
  | .group _ range children, h => by
    unfold add at h
    exact whole_addAll policy _ branches o children h
  | .choice range parts, h => by
    unfold add at h
    cases policy with
    | allOptional => exact whole_addAll .allOptional _ branches o parts h
    | union =>
      obtain ⟨before, inside⟩ := whole_addBranches .union _ branches _ 0 _ parts h
      exact ⟨before, inside⟩
  | .wildcard, h => by
    unfold add at h
    exact ⟨h, trivial⟩
  | .unresolved fault key, h => by
    unfold add at h
    exact ⟨(whole_push h).1, trivial⟩
  | .broken fault, h => by
    unfold add at h
    exact absurd rfl ((whole_push h).2 fault)

theorem whole_addAll (policy : ChoicePolicy) (outer : Range) (branches : List Branch) (o : Outline) :
    ∀ ps : List Particle, (addAll policy outer branches o ps).Whole →
      o.Whole ∧ Particle.AllWhole ps
  | [], h => ⟨h, trivial⟩
  | p :: rest, h => by
    unfold addAll at h
    obtain ⟨first, others⟩ := whole_addAll policy outer branches _ rest h
    obtain ⟨before, here⟩ := whole_add policy outer branches o p first
    exact ⟨before, here, others⟩

theorem whole_addBranches (policy : ChoicePolicy) (outer : Range) (branches : List Branch)
    (choice index : Nat) (o : Outline) :
    ∀ ps : List Particle, (addBranches policy outer branches choice index o ps).Whole →
      o.Whole ∧ Particle.AllWhole ps
  | [], h => ⟨h, trivial⟩
  | p :: rest, h => by
    unfold addBranches at h
    obtain ⟨first, others⟩ := whole_addBranches policy outer branches choice (index + 1) _ rest h
    obtain ⟨before, here⟩ := whole_add policy outer _ o p first
    exact ⟨before, here, others⟩

end

theorem whole_ofParticles {policy : ChoicePolicy} {ps : List Particle}
    (h : (ofParticles policy ps).Whole) : Particle.AllWhole ps :=
  (whole_addAll policy .once [] .empty ps h).2

end Outline

namespace Compile

variable {S : Setting} {nested : Nested} {owner : Owner} {container site : Site} {p q : Progress}

theorem whole_of_addParticles {result : Members × List ChoiceFrame}
    (h : Runs (addParticles S nested owner container .empty) p result q) :
    Particle.AllWhole (Particle.ofContainer S.declarations owner container) := by
  obtain ⟨members, r, hs, -⟩ := runs_bind.mp h
  suffices whole : (Outline.ofParticles S.options.choice
      (Particle.ofContainer S.declarations owner container)).Whole from Outline.whole_ofParticles whole
  refine runs_foldlM (I := fun done _ => ∀ fault, Step.broken fault ∉ done) ?_
    (fun _ => List.not_mem_nil) hs
  intro done step a b p q ha h fault hm
  rcases List.mem_append.mp hm with hm | hm
  · exact ha fault hm
  · rw [← List.mem_singleton.mp hm] at h
    exact absurd h runs_throw

/-- The choices in the schema that the content model of a type has. -/
def choiceSites (declarations : Declarations) (owner : Owner) (site : Site) :
    List Particle.ChoiceSite :=
  match Content.ofSite owner site with
  | .ok (.complex container _ _) => Particle.choiceSitesIn declarations owner container
  | _ => []

/-- The choices of the content model of a type with a body are those in the schema. -/
theorem choicesOf_contentModel {body : Body} (h : Runs (bodyOf S nested owner site) p body q) :
    Particle.choicesOf (contentModel S.declarations owner site)
      = (choiceSites S.declarations owner site).map (Particle.ChoiceSite.branches owner) := by
  rw [bodyOf_eq] at h
  obtain ⟨content, r, hs, h⟩ := runs_bind.mp h
  unfold contentModel choiceSites
  rw [(runs_ofExcept.mp hs).1]
  cases content with
  | simple derivation mixed => rfl
  | complex container extending mixed =>
    obtain ⟨base, r, -, h⟩ := runs_bind.mp h
    obtain ⟨⟨members, frames⟩, r, hp, -⟩ := runs_bind.mp h
    exact Particle.choicesOf_ofContainer _ _ _ (whole_of_addParticles hp)

end Compile

end WsdlCatalog
