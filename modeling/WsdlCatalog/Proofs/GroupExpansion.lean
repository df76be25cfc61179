/-
  WsdlCatalog.Proofs.GroupExpansion — model groups and attribute groups where they are referred to.

  A reference to a model group stands at any depth among the elements that put particles
  together (`Particle.Stands`), a reference to an attribute group among the attributes. What
  becomes of a definition depends on what stands for these references only, so both kinds of
  groups are expanded as `GroupRecursion` says.

  Proved, for the content model of a type and for its attributes: the bound on the depth of
  groups is not reached (`Particle.ofContainer_bound`, `AttributeStep.ofContainer_bound`); without
  a fault no circle of groups can be reached (`not_onCircle_of_whole`), and only where one can
  there is the fault for it (`faults_ofContainer`); where none can, every reference is replaced
  by what its group declares (`exists_unfolding`).
-/

import WsdlCatalog.Proofs.GroupReferences

namespace WsdlCatalog

open Relation

def ModelFault.IsCircle : ModelFault → Prop
  | circularGroup _ => True
  | circularAttributeGroup _ => True
  | _ => False

/-- What is wrong with a range is no circle. -/
theorem Range.not_isCircle_of_ofNode {node : Xml.Node} {fault : ModelFault}
    (h : ofNode node = .error (.model fault)) : ¬ fault.IsCircle := by
  cases ofNode_error h with
  | @minimum _ _ _ why _ same | @maximum _ _ _ why _ same =>
    cases why with
    | malformed =>
      obtain rfl := Range.Error.model.inj same
      exact not_false
    | overlong => cases same
  | reversed high low => exact not_false

/-! ## Model groups -/

namespace Particle

variable {ds : Declarations} {owner : Owner} {document : SchemaDocument} {group group' : Site → Particle}
  {node inner : Xml.Node} {nodes : List Xml.Node}

/-- An element of a content model: one of these elements, or inside one that puts particles
together. -/
inductive Stands : List Xml.Node → Xml.Node → Prop where
  | here {nodes : List Xml.Node} {node : Xml.Node} (hm : node ∈ nodes) (part : isPart node = true) :
    Stands nodes node
  | inside {nodes : List Xml.Node} {node inner : Xml.Node} (hm : node ∈ nodes)
    (part : isPart node = true) (puts : node.tag ∈ ["sequence", "all", "choice"])
    (h : Stands node.children inner) : Stands nodes inner

theorem Stands.mono {more : List Xml.Node} (h : Stands nodes inner) (sub : nodes ⊆ more) :
    Stands more inner := by
  cases h with
  | here hm part => exact .here (sub hm) part
  | inside hm part puts h => exact .inside (sub hm) part puts h

/-! ### One element -/

theorem ofNode_element (h : node.tag = "element") :
    ofNode owner document group node = ofElement owner ⟨node, document⟩ := by
  cases node
  cases h
  rfl

theorem ofNode_sequence (h : node.tag = "sequence") : ofNode owner document group node =
    ranged owner ⟨node, document⟩
      (Particle.group .sequence · (ofNodes owner document group node.children)) := by
  cases node
  cases h
  rfl

theorem ofNode_all (h : node.tag = "all") : ofNode owner document group node =
    ranged owner ⟨node, document⟩
      (Particle.group .all · (ofNodes owner document group node.children)) := by
  cases node
  cases h
  rfl

theorem ofNode_choice (h : node.tag = "choice") : ofNode owner document group node =
    ranged owner ⟨node, document⟩ (choice · (ofNodes owner document group node.children)) := by
  cases node
  cases h
  rfl

theorem ofNode_group (h : node.tag = "group") :
    ofNode owner document group node = group ⟨node, document⟩ := by
  cases node
  cases h
  rfl

theorem ofNode_other (h : node.tag ∉ ["element", "sequence", "all", "choice", "group"]) :
    ofNode owner document group node = wildcard := by
  cases node
  unfold ofNode
  split
  all_goals simp_all

/-! ### What references stand for -/

/-- The same stands for all references to groups in a content model. -/
abbrev SameGroups (document : SchemaDocument) (group group' : Site → Particle)
    (nodes : List Xml.Node) : Prop :=
  ∀ node, Stands nodes node → node.tag = "group" → group ⟨node, document⟩ = group' ⟨node, document⟩

mutual

theorem ofNode_congr : ∀ node, isPart node = true → SameGroups document group group' [node] →
    ofNode owner document group node = ofNode owner document group' node
  | ⟨uri, tag, attributes, bindings, children, text, line⟩ => by
    intro part same
    have inside (puts : tag ∈ ["sequence", "all", "choice"]) :
        ofNodes owner document group children = ofNodes owner document group' children :=
      ofNodes_congr children fun inner h =>
        same inner (.inside (List.mem_singleton.mpr rfl) part puts h)
    unfold ofNode
    dsimp only
    split
    · rfl
    · rw [inside (by decide)]
    · rw [inside (by decide)]
    · rw [inside (by decide)]
    · exact same _ (.here (List.mem_singleton.mpr rfl) part) rfl
    · rfl

theorem ofNodes_congr : ∀ nodes, SameGroups document group group' nodes →
    ofNodes owner document group nodes = ofNodes owner document group' nodes
  | [], _ => rfl
  | node :: rest, same => by
    have others := ofNodes_congr rest fun inner h => same inner (h.mono (List.subset_cons_self _ _))
    unfold ofNodes
    split
    · rename_i part
      have first := ofNode_congr node part fun inner h =>
        same inner (h.mono (List.cons_subset_cons _ (List.nil_subset _)))
      rw [first, others]
    · exact others

end

/-! ### Faults -/

theorem allWhole_iff {ps : List Particle} : AllWhole ps ↔ ∀ p ∈ ps, p.Whole := by
  induction ps with
  | nil => exact ⟨fun _ _ h => absurd h List.not_mem_nil, fun _ => trivial⟩
  | cons p rest ih => exact (and_congr_right' ih).trans List.forall_mem_cons.symm

theorem whole_of_ranged {site : Site} {particle : Range → Particle}
    (h : (ranged owner site particle).Whole) :
    ∃ r, Range.ofNode site.node = .ok r ∧ (particle r).Whole := by
  unfold ranged at h
  split at h
  · rename_i r hr
    exact ⟨r, hr, h⟩
  · exact h.elim

/-- Where no part is faulty, no reference to a group is. -/
theorem whole_of_stands (h : Stands nodes inner) (whole : AllWhole (ofNodes owner document group nodes))
    (ref : inner.tag = "group") : (group ⟨inner, document⟩).Whole := by
  have each {nodes : List Xml.Node} {node : Xml.Node} (hm : node ∈ nodes) (part : isPart node = true)
      (whole : AllWhole (ofNodes owner document group nodes)) :
      (ofNode owner document group node).Whole := by
    rw [ofNodes_eq_map] at whole
    exact allWhole_iff.mp whole _ (List.mem_map_of_mem (List.mem_filter.mpr ⟨hm, part⟩))
  induction h with
  | here hm part =>
    have := each hm part whole
    rwa [ofNode_group ref] at this
  | inside hm part puts h ih =>
    have here := each hm part whole
    simp only [List.mem_cons, List.not_mem_nil, or_false] at puts
    rcases puts with tag | tag | tag
    · rw [ofNode_sequence tag] at here
      obtain ⟨r, -, below⟩ := whole_of_ranged here
      exact ih below ref
    · rw [ofNode_all tag] at here
      obtain ⟨r, -, below⟩ := whole_of_ranged here
      exact ih below ref
    · rw [ofNode_choice tag] at here
      obtain ⟨r, -, below⟩ := whole_of_ranged here
      exact ih below ref

mutual

def Faults (Q : Refusal → Prop) : Particle → Prop
  | .group _ _ children => AllFaults Q children
  | .choice _ parts => AllFaults Q parts
  | .broken refusal => Q refusal
  | _ => True

def AllFaults (Q : Refusal → Prop) : List Particle → Prop
  | [] => True
  | p :: rest => p.Faults Q ∧ AllFaults Q rest

end

/-- The property holds of all that is wrong in a content model but of circles. -/
abbrev Local (owner : Owner) (Q : Refusal → Prop) : Prop :=
  ∀ site (error : Range.Error), (∀ fault, error = .model fault → ¬ fault.IsCircle) →
    Q (error.refusal site owner)

theorem Local.model {Q : Refusal → Prop} (hq : Local owner Q) (site : Site) {fault : ModelFault}
    (h : ¬ fault.IsCircle) : Q (.fault (site.modelFault owner fault)) :=
  hq site (.model fault) fun _ same => Range.Error.model.inj same ▸ h

variable {Q : Refusal → Prop}

theorem faults_ranged (hq : Local owner Q) {site : Site} {particle : Range → Particle}
    (h : ∀ r, (particle r).Faults Q) : (ranged owner site particle).Faults Q := by
  unfold ranged
  split
  · exact h _
  · rename_i error stated
    exact hq site error fun _ same => Range.not_isCircle_of_ofNode (same ▸ stated)

theorem faults_ofElement (hq : Local owner Q) (site : Site) : (ofElement owner site).Faults Q := by
  refine faults_ranged hq fun r => ?_
  split
  · trivial
  · exact hq.model site not_false

/-- What stands for the references to groups in a content model has such faults only. -/
abbrev GroupFaults (Q : Refusal → Prop) (document : SchemaDocument) (group : Site → Particle)
    (nodes : List Xml.Node) : Prop :=
  ∀ node, Stands nodes node → node.tag = "group" → (group ⟨node, document⟩).Faults Q

mutual

theorem faults_ofNode (hq : Local owner Q) : ∀ node, isPart node = true →
    GroupFaults Q document group [node] → (ofNode owner document group node).Faults Q
  | ⟨uri, tag, attributes, bindings, children, text, line⟩ => by
    intro part refs
    have inside (puts : tag ∈ ["sequence", "all", "choice"]) :
        AllFaults Q (ofNodes owner document group children) :=
      faults_ofNodes hq children fun inner h =>
        refs inner (.inside (List.mem_singleton.mpr rfl) part puts h)
    unfold ofNode
    dsimp only
    split
    · exact faults_ofElement hq _
    · exact faults_ranged hq fun r => inside (by decide)
    · exact faults_ranged hq fun r => inside (by decide)
    · exact faults_ranged hq fun r => inside (by decide)
    · exact refs _ (.here (List.mem_singleton.mpr rfl) part) rfl
    · trivial

theorem faults_ofNodes (hq : Local owner Q) : ∀ nodes, GroupFaults Q document group nodes →
    AllFaults Q (ofNodes owner document group nodes)
  | [], _ => trivial
  | node :: rest, refs => by
    have others := faults_ofNodes hq rest fun inner h => refs inner (h.mono (List.subset_cons_self _ _))
    unfold ofNodes
    split
    · rename_i part
      have first := faults_ofNode hq node part fun inner h =>
        refs inner (h.mono (List.cons_subset_cons _ (List.nil_subset _)))
      exact ⟨first, others⟩
    · exact others

end

/-! ### Expansion -/

/-- The elements that a content model starts with: in a group, and in a type, which can be a
reference to a group itself. -/
def groupTags : List String := ["sequence", "choice", "all"]

def typeTags : List String := ["sequence", "choice", "all", "group"]

end Particle

/-- There is a reference to a model group in a content model, at any depth. -/
def Site.RefersToGroup (tags : List String) (container reference : Site) : Prop :=
  reference.document = container.document ∧ reference.node.tag = "group" ∧
    Particle.Stands (container.node.childrenIn Vocabulary.xsd tags) reference.node

abbrev Declarations.GroupUses (ds : Declarations) : Declaration → Declaration → Prop :=
  ds.Uses .group (Site.RefersToGroup Particle.groupTags)

def Declarations.UsesGroup (ds : Declarations) (container : Site) (d : Declaration) : Prop :=
  ∃ site, container.RefersToGroup Particle.typeTags site ∧ site.LeadsTo ds .group d

namespace Particle

variable {ds : Declarations} {owner : Owner} {openGroups openGroups' : List QName}
  {f f' : Declaration → Range → Particle} {site container : Site} {d : Declaration}

theorem ofGroup_congr (h : ∀ d, site.LeadsTo ds .group d →
    (d.name ∈ openGroups ↔ d.name ∈ openGroups') ∧ (d.name ∉ openGroups → f d = f' d)) :
    ofGroup ds owner openGroups f site = ofGroup ds owner openGroups' f' site := by
  unfold ofGroup
  split
  · rfl
  · rename_i reference hr
    split
    · rfl
    · rename_i d hd
      obtain ⟨same, inside⟩ := h d ((declarationOf_iff hr).mp hd)
      by_cases hm : d.name ∈ openGroups
      · rw [if_pos (List.contains_iff_mem.mpr hm), if_pos (List.contains_iff_mem.mpr (same.mp hm))]
      · rw [if_neg fun hc => hm (List.contains_iff_mem.mp hc),
          if_neg fun hc => hm (same.mpr (List.contains_iff_mem.mp hc)), inside hm]

/-- A reference that leads to a group which is not open is replaced by it. -/
theorem ofGroup_of_leadsTo (h : site.LeadsTo ds .group d) (fresh : d.name ∉ openGroups) :
    ofGroup ds owner openGroups f site = ranged owner site (f d) := by
  have ⟨reference, _, hr, _⟩ := h
  unfold ofGroup
  rw [hr]
  dsimp only
  rw [(declarationOf_iff hr).mpr h]
  dsimp only
  rw [if_neg fun hc => fresh (List.contains_iff_mem.mp hc)]

theorem whole_of_ofGroup (whole : (ofGroup ds owner openGroups f site).Whole)
    (h : site.LeadsTo ds .group d) : ∃ r, (f d r).Whole := by
  have ⟨reference, _, hr, _⟩ := h
  unfold ofGroup at whole
  rw [hr] at whole
  dsimp only at whole
  rw [(declarationOf_iff hr).mpr h] at whole
  dsimp only at whole
  split at whole
  · exact whole.elim
  · obtain ⟨r, -, hw⟩ := whole_of_ranged whole
    exact ⟨r, hw⟩

variable {Q : Refusal → Prop}

theorem faults_ofGroup (hq : Local owner Q)
    (circle : ∀ d, site.LeadsTo ds .group d → d.name ∈ openGroups →
      Q (.fault (site.modelFault owner (.circularGroup d.name.localPart))))
    (h : ∀ d, site.LeadsTo ds .group d → d.name ∉ openGroups → ∀ r, (f d r).Faults Q) :
    (ofGroup ds owner openGroups f site).Faults Q := by
  unfold ofGroup
  split
  · exact hq.model site not_false
  · rename_i reference hr
    split
    · trivial
    · rename_i d hd
      have leads := (declarationOf_iff hr).mp hd
      split
      · rename_i hc
        exact circle d leads (List.contains_iff_mem.mp hc)
      · rename_i hc
        exact faults_ranged hq (h d leads fun hm => hc (List.contains_iff_mem.mpr hm))

def expansion (ds : Declarations) (owner : Owner) :
    GroupRecursion ds .group (Site.RefersToGroup groupTags) (Range → Particle) Particle where
  expand := expandGroup ds owner
  reach := ofGroup ds owner
  build d group range := Particle.group .sequence range
    (ofNodes owner d.site.document group (d.site.node.childrenIn Vocabulary.xsd groupTags))
  expand_succ _ _ _ := rfl
  build_congr h := by
    funext range
    rw [ofNodes_congr _ fun node stands tag => h ⟨node, _⟩ ⟨rfl, tag, stands⟩]
  reach_congr := ofGroup_congr

theorem expand_expansion : (expansion ds owner).expand = expandGroup ds owner := rfl

theorem reach_expansion : (expansion ds owner).reach = ofGroup ds owner := rfl

theorem build_expansion (group : Site → Particle) (range : Range) :
    (expansion ds owner).build d group range = .group .sequence range
      (ofNodes owner d.site.document group (d.site.node.childrenIn Vocabulary.xsd groupTags)) := rfl

theorem expandGroup_bound (h : ds.Declares .group d) {depth : Nat}
    (enough : (ds.inSpace .group).length < depth) :
    expandGroup ds owner depth [] d = expandGroup ds owner ((ds.inSpace .group).length + 1) [] d := by
  rw [← expand_expansion]
  exact (expansion ds owner).expand_bound h enough (Nat.lt_succ_self _)

theorem acc_of_expandGroup {depth : Nat} {r : Range}
    (whole : (expandGroup ds owner depth openGroups d r).Whole) :
    Acc (fun e d => ds.GroupUses d e) d := by
  refine (expansion ds owner).acc_of_whole (V := fun x => ∃ r, (x r).Whole) (W := Whole)
    ?_ ?_ ?_ depth openGroups d ⟨r, whole⟩
  · intro openGroups d given
    exact given.elim fun _ whole => whole
  · intro d g site given refers
    obtain ⟨r, whole⟩ := given
    obtain ⟨document, tag, stands⟩ := refers
    have := whole_of_stands stands whole tag
    rwa [← document] at this
  · intro openGroups f site d whole leads
    rw [reach_expansion] at whole
    exact whole_of_ofGroup whole leads

theorem faults_expandGroup (hq : Local owner Q) (hd : ds.Declares .group d)
    (circle : ∀ site e, TransGen ds.GroupUses e e → ReflTransGen ds.GroupUses d e →
      Q (.fault (Site.modelFault site owner (.circularGroup e.name.localPart)))) (r : Range) :
    (expandGroup ds owner ((ds.inSpace .group).length + 1) [] d r).Faults Q := by
  have good := (expansion ds owner).expand_good (V := fun x => ∀ r, (x r).Faults Q)
    (W := Faults Q) d ?_ ?_ ((ds.inSpace .group).length + 1) (around_nil hd) .refl
    (by rw [List.length_nil]; omega)
  · exact good r
  · intro d g refs r
    rw [build_expansion]
    exact faults_ofNodes hq _ fun node stands tag => refs ⟨node, d.site.document⟩ ⟨rfl, tag, stands⟩
  · intro openGroups f site inCircle below
    rw [reach_expansion]
    refine faults_ofGroup hq (fun e he hm => ?_) below
    obtain ⟨round, way⟩ := inCircle e he hm
    exact circle site e round way

/-- A group comes to what stands in its definition, with every reference in there replaced,
whatever groups are around it. -/
def Unfolds (ds : Declarations) (owner : Owner) (body : Declaration → Range → Particle)
    (d : Declaration) : Prop :=
  ∀ range, body d range = .group .sequence range (ofNodes owner d.site.document
    (ofGroup ds owner [] body) (d.site.node.childrenIn Vocabulary.xsd groupTags))

theorem unfolds_expandGroup (hd : ds.Declares .group d)
    (apart : ∀ e, ReflTransGen ds.GroupUses d e → ¬ TransGen ds.GroupUses e e) :
    Unfolds ds owner (expandGroup ds owner ((ds.inSpace .group).length + 1) []) d := by
  intro range
  have unfolds := congrFun ((expansion ds owner).unfolds hd apart) range
  rwa [build_expansion, reach_expansion, expand_expansion] at unfolds

/-! ### Content models -/

/-- The bound on the depth of groups is not reached: a larger one makes no difference. -/
theorem ofContainer_bound {depth : Nat} (enough : (ds.inSpace .group).length < depth) :
    ofNodes owner container.document (ofGroup ds owner [] (expandGroup ds owner depth []))
      (container.node.childrenIn Vocabulary.xsd typeTags) = ofContainer ds owner container :=
  ofNodes_congr _ fun _ _ _ => ofGroup_congr fun _ leads =>
    ⟨Iff.rfl, fun _ => expandGroup_bound leads.declares enough⟩

/-- A content model without a fault uses no circle of groups. -/
theorem not_onCircle_of_whole (whole : AllWhole (ofContainer ds owner container)) (e : Declaration) :
    ¬ OnCircle ds.GroupUses (ds.UsesGroup container) e := by
  refine not_onCircle_of_acc (fun d used => ?_) e
  obtain ⟨site, ⟨document, tag, stands⟩, leads⟩ := used
  have here := whole_of_stands stands whole tag
  rw [← document] at here
  obtain ⟨r, inside⟩ := whole_of_ofGroup here leads
  exact acc_of_expandGroup inside

/-- Only for groups on a circle that it uses a content model has the fault of one. -/
theorem faults_ofContainer (hq : Local owner Q)
    (circle : ∀ site d, OnCircle ds.GroupUses (ds.UsesGroup container) d →
      Q (.fault (Site.modelFault site owner (.circularGroup d.name.localPart)))) :
    AllFaults Q (ofContainer ds owner container) := by
  refine faults_ofNodes hq _ fun node stands tag => faults_ofGroup hq
    (fun _ _ hm => absurd hm List.not_mem_nil) fun d leads _ => ?_
  have used : ds.UsesGroup container d := ⟨⟨node, container.document⟩, ⟨rfl, tag, stands⟩, leads⟩
  exact faults_expandGroup hq leads.declares fun site e round way => circle site e ⟨round, d, used, way⟩

/-- **Without circles every reference is replaced by what its group declares**, however often and
wherever a group is referred to. -/
theorem exists_unfolding (apart : ∀ e, ¬ OnCircle ds.GroupUses (ds.UsesGroup container) e) :
    ∃ body, (∀ d e, ds.UsesGroup container d → ReflTransGen ds.GroupUses d e → Unfolds ds owner body e) ∧
      ofContainer ds owner container = ofNodes owner container.document (ofGroup ds owner [] body)
        (container.node.childrenIn Vocabulary.xsd typeTags) := by
  refine ⟨expandGroup ds owner ((ds.inSpace .group).length + 1) [], fun d e used way => ?_, rfl⟩
  obtain ⟨site, refers, leads⟩ := used
  exact unfolds_expandGroup (leads.declares.reaches way)
    fun f rest round => apart f ⟨round, d, ⟨site, refers, leads⟩, way.trans rest⟩

end Particle

/-! ## Outlines -/

namespace Outline

variable {Q : Refusal → Prop}

def Faults (Q : Refusal → Prop) (o : Outline) : Prop :=
  ∀ refusal, Step.broken refusal ∈ o.steps → Q refusal

theorem Faults.push {o : Outline} (h : o.Faults Q) {step : Step}
    (hs : ∀ refusal, step = .broken refusal → Q refusal) : (o.push step).Faults Q := by
  intro refusal hm
  rcases List.mem_append.mp hm with hm | hm
  · exact h refusal hm
  · exact hs refusal (List.mem_singleton.mp hm).symm

mutual

theorem faults_add (policy : ChoicePolicy) (outer : Range) (branches : List Branch) {o : Outline}
    (h : o.Faults Q) : ∀ p : Particle, p.Faults Q → (add policy outer branches o p).Faults Q
  | .element range site, _ => by
    unfold add
    exact h.push fun _ e => nomatch e
  | .group _ range children, hp => by
    unfold add
    exact faults_addAll policy _ branches h children hp
  | .choice range parts, hp => by
    unfold add
    cases policy with
    | allOptional => exact faults_addAll .allOptional _ branches h parts hp
    | union =>
      have before : Faults Q { o with frames := o.frames ++ [⟨outer.mul range, parts.length⟩] } := h
      exact faults_addBranches .union _ branches _ 0 before parts hp
  | .wildcard, _ => h
  | .unresolved fault key, _ => by
    unfold add
    exact h.push fun _ e => nomatch e
  | .broken refusal, hp => by
    unfold add
    exact h.push fun _ e => Step.broken.inj e ▸ hp

theorem faults_addAll (policy : ChoicePolicy) (outer : Range) (branches : List Branch) {o : Outline}
    (h : o.Faults Q) : ∀ ps : List Particle, Particle.AllFaults Q ps →
      (addAll policy outer branches o ps).Faults Q
  | [], _ => by
    unfold addAll
    exact h
  | p :: rest, hp => by
    unfold addAll
    exact faults_addAll policy outer branches (faults_add policy outer branches h p hp.1) rest hp.2

theorem faults_addBranches (policy : ChoicePolicy) (outer : Range) (branches : List Branch)
    (choice index : Nat) {o : Outline} (h : o.Faults Q) : ∀ ps : List Particle,
      Particle.AllFaults Q ps → (addBranches policy outer branches choice index o ps).Faults Q
  | [], _ => by
    unfold addBranches
    exact h
  | p :: rest, hp => by
    unfold addBranches
    exact faults_addBranches policy outer branches choice (index + 1)
      (faults_add policy outer _ h p hp.1) rest hp.2

end

/-- The faults that are met are those of the particles. -/
theorem faults_ofParticles (policy : ChoicePolicy) {ps : List Particle}
    (h : Particle.AllFaults Q ps) : (ofParticles policy ps).Faults Q :=
  faults_addAll policy .once [] (fun _ hm => absurd hm List.not_mem_nil) ps h

end Outline

/-! ## Attribute groups -/

def Site.RefersToAttributeGroup (container reference : Site) : Prop :=
  reference.document = container.document ∧ reference.node.tag = "attributeGroup" ∧
    reference.node ∈ container.node.childrenIn Vocabulary.xsd []

abbrev Declarations.AttributeGroupUses (ds : Declarations) : Declaration → Declaration → Prop :=
  ds.Uses .attributeGroup Site.RefersToAttributeGroup

def Declarations.UsesAttributeGroup (ds : Declarations) (container : Site) (d : Declaration) : Prop :=
  ∃ site, container.RefersToAttributeGroup site ∧ site.LeadsTo ds .attributeGroup d

namespace AttributeStep

variable {ds : Declarations} {owner : Owner} {openGroups openGroups' : List QName}
  {f f' : Declaration → List AttributeStep} {site container : Site} {d : Declaration}
  {group group' : Site → List AttributeStep}

def Whole (steps : List AttributeStep) : Prop := ∀ fault, broken fault ∉ steps

def Faults (Q : Fault → Prop) (steps : List AttributeStep) : Prop :=
  ∀ fault, broken fault ∈ steps → Q fault

theorem ofSite_congr (h : ∀ site, container.RefersToAttributeGroup site → group site = group' site) :
    ofSite group container = ofSite group' container := by
  unfold ofSite
  refine List.flatMap_congr fun node hm => ?_
  split
  · rfl
  · rename_i tag
    exact h (container.atNode node) ⟨rfl, tag, hm⟩
  · rfl

theorem mem_ofSite (refers : container.RefersToAttributeGroup site) {step : AttributeStep}
    (hm : step ∈ group site) : step ∈ ofSite group container := by
  obtain ⟨document, tag, hn⟩ := refers
  refine List.mem_flatMap.mpr ⟨site.node, hn, ?_⟩
  rw [tag]
  have same : container.atNode site.node = site := by
    rw [Site.atNode, ← document]
  exact same ▸ hm

theorem faults_ofSite {Q : Fault → Prop}
    (h : ∀ site, container.RefersToAttributeGroup site → Faults Q (group site)) :
    Faults Q (ofSite group container) := by
  intro fault hm
  obtain ⟨node, hn, hm⟩ := List.mem_flatMap.mp hm
  split at hm
  · cases List.mem_singleton.mp hm
  · rename_i tag
    exact h (container.atNode node) ⟨rfl, tag, hn⟩ fault hm
  · cases hm

theorem ofGroup_congr (h : ∀ d, site.LeadsTo ds .attributeGroup d →
    (d.name ∈ openGroups ↔ d.name ∈ openGroups') ∧ (d.name ∉ openGroups → f d = f' d)) :
    ofGroup ds owner openGroups f site = ofGroup ds owner openGroups' f' site := by
  unfold ofGroup
  split
  · rfl
  · rename_i reference hr
    split
    · rfl
    · rename_i d hd
      obtain ⟨same, inside⟩ := h d ((Particle.declarationOf_iff hr).mp hd)
      by_cases hm : d.name ∈ openGroups
      · rw [if_pos (List.contains_iff_mem.mpr hm), if_pos (List.contains_iff_mem.mpr (same.mp hm))]
      · rw [if_neg fun hc => hm (List.contains_iff_mem.mp hc),
          if_neg fun hc => hm (same.mpr (List.contains_iff_mem.mp hc)), inside hm]

theorem whole_of_ofGroup (whole : Whole (ofGroup ds owner openGroups f site))
    (h : site.LeadsTo ds .attributeGroup d) : Whole (f d) := by
  have ⟨reference, _, hr, _⟩ := h
  unfold ofGroup at whole
  rw [hr] at whole
  dsimp only at whole
  rw [(Particle.declarationOf_iff hr).mpr h] at whole
  dsimp only at whole
  split at whole
  · exact absurd (List.mem_singleton.mpr rfl) (whole _)
  · exact whole

theorem faults_ofGroup {Q : Fault → Prop}
    (circle : ∀ d, site.LeadsTo ds .attributeGroup d → d.name ∈ openGroups →
      Q (site.modelFault owner (.circularAttributeGroup d.name.localPart)))
    (h : ∀ d, site.LeadsTo ds .attributeGroup d → d.name ∉ openGroups → Faults Q (f d)) :
    Faults Q (ofGroup ds owner openGroups f site) := by
  unfold ofGroup
  split
  · exact fun _ hm => absurd hm List.not_mem_nil
  · rename_i reference hr
    split
    · exact fun _ hm => nomatch List.mem_singleton.mp hm
    · rename_i d hd
      have leads := (Particle.declarationOf_iff hr).mp hd
      split
      · rename_i hc
        intro fault hm
        rw [AttributeStep.broken.inj (List.mem_singleton.mp hm)]
        exact circle d leads (List.contains_iff_mem.mp hc)
      · rename_i hc
        exact h d leads fun hm => hc (List.contains_iff_mem.mpr hm)

def expansion (ds : Declarations) (owner : Owner) :
    GroupRecursion ds .attributeGroup Site.RefersToAttributeGroup (List AttributeStep)
      (List AttributeStep) where
  expand := expandGroup ds owner
  reach := ofGroup ds owner
  build d group := ofSite group d.site
  expand_succ _ _ _ := rfl
  build_congr := ofSite_congr
  reach_congr := ofGroup_congr

theorem expand_expansion : (expansion ds owner).expand = expandGroup ds owner := rfl

theorem reach_expansion : (expansion ds owner).reach = ofGroup ds owner := rfl

theorem build_expansion (group : Site → List AttributeStep) :
    (expansion ds owner).build d group = ofSite group d.site := rfl

theorem expandGroup_bound (h : ds.Declares .attributeGroup d) {depth : Nat}
    (enough : (ds.inSpace .attributeGroup).length < depth) :
    expandGroup ds owner depth [] d
      = expandGroup ds owner ((ds.inSpace .attributeGroup).length + 1) [] d := by
  rw [← expand_expansion]
  exact (expansion ds owner).expand_bound h enough (Nat.lt_succ_self _)

theorem whole_of_ofSite (whole : Whole (ofSite group container))
    (refers : container.RefersToAttributeGroup site) : Whole (group site) :=
  fun fault hm => whole fault (mem_ofSite refers hm)

theorem acc_of_expandGroup {depth : Nat} (whole : Whole (expandGroup ds owner depth openGroups d)) :
    Acc (fun e d => ds.AttributeGroupUses d e) d := by
  refine (expansion ds owner).acc_of_whole (V := Whole) (W := Whole) ?_ ?_ ?_ depth
    openGroups d whole
  · intro openGroups d whole
    exact whole _ (List.mem_singleton.mpr rfl)
  · intro d g site whole refers
    rw [build_expansion] at whole
    exact whole_of_ofSite whole refers
  · intro openGroups f site d whole leads
    rw [reach_expansion] at whole
    exact whole_of_ofGroup whole leads

theorem faults_expandGroup {Q : Fault → Prop} (hd : ds.Declares .attributeGroup d)
    (circle : ∀ site e, TransGen ds.AttributeGroupUses e e → ReflTransGen ds.AttributeGroupUses d e →
      Q (Site.modelFault site owner (.circularAttributeGroup e.name.localPart))) :
    Faults Q (expandGroup ds owner ((ds.inSpace .attributeGroup).length + 1) [] d) := by
  have good := (expansion ds owner).expand_good (V := Faults Q) (W := Faults Q) d
    ?_ ?_ ((ds.inSpace .attributeGroup).length + 1) (around_nil hd) .refl
    (by rw [List.length_nil]; omega)
  · exact good
  · intro d g refs
    rw [build_expansion]
    exact faults_ofSite refs
  · intro openGroups f site inCircle below
    rw [reach_expansion]
    refine faults_ofGroup (fun e he hm => ?_) below
    obtain ⟨round, way⟩ := inCircle e he hm
    exact circle site e round way

/-- A group comes to what stands in its definition, with every reference in there replaced,
whatever groups are around it. -/
def Unfolds (ds : Declarations) (owner : Owner) (body : Declaration → List AttributeStep)
    (d : Declaration) : Prop := body d = ofSite (ofGroup ds owner [] body) d.site

theorem unfolds_expandGroup (hd : ds.Declares .attributeGroup d)
    (apart : ∀ e, ReflTransGen ds.AttributeGroupUses d e → ¬ TransGen ds.AttributeGroupUses e e) :
    Unfolds ds owner (expandGroup ds owner ((ds.inSpace .attributeGroup).length + 1) []) d := by
  have unfolds := (expansion ds owner).unfolds hd apart
  rwa [build_expansion, reach_expansion, expand_expansion] at unfolds

/-! ### Attributes of a type -/

/-- The bound on the depth of groups is not reached: a larger one makes no difference. -/
theorem ofContainer_bound {depth : Nat} (enough : (ds.inSpace .attributeGroup).length < depth) :
    ofSite (ofGroup ds owner [] (expandGroup ds owner depth [])) container
      = ofContainer ds owner container :=
  ofSite_congr fun _ _ => ofGroup_congr fun _ leads =>
    ⟨Iff.rfl, fun _ => expandGroup_bound leads.declares enough⟩

/-- Attributes without a fault use no circle of groups. -/
theorem not_onCircle_of_whole (whole : Whole (ofContainer ds owner container)) (e : Declaration) :
    ¬ OnCircle ds.AttributeGroupUses (ds.UsesAttributeGroup container) e := by
  refine not_onCircle_of_acc (fun d used => ?_) e
  obtain ⟨site, refers, leads⟩ := used
  exact acc_of_expandGroup (whole_of_ofGroup (whole_of_ofSite whole refers) leads)

/-- Only for groups on a circle that they use attributes have the fault of one. -/
theorem faults_ofContainer {Q : Fault → Prop}
    (circle : ∀ site d, OnCircle ds.AttributeGroupUses (ds.UsesAttributeGroup container) d →
      Q (Site.modelFault site owner (.circularAttributeGroup d.name.localPart))) :
    Faults Q (ofContainer ds owner container) := by
  refine faults_ofSite fun site refers => faults_ofGroup
    (fun _ _ hm => absurd hm List.not_mem_nil) fun d leads _ => ?_
  have used : ds.UsesAttributeGroup container d := ⟨site, refers, leads⟩
  exact faults_expandGroup leads.declares fun site e round way => circle site e ⟨round, d, used, way⟩

/-- Without circles every reference is replaced by what its group declares, however often and
wherever a group is referred to. -/
theorem exists_unfolding
    (apart : ∀ e, ¬ OnCircle ds.AttributeGroupUses (ds.UsesAttributeGroup container) e) :
    ∃ body, (∀ d e, ds.UsesAttributeGroup container d → ReflTransGen ds.AttributeGroupUses d e →
        Unfolds ds owner body e) ∧
      ofContainer ds owner container = ofSite (ofGroup ds owner [] body) container := by
  refine ⟨expandGroup ds owner ((ds.inSpace .attributeGroup).length + 1) [],
    fun d e used way => ?_, rfl⟩
  obtain ⟨site, refers, leads⟩ := used
  exact unfolds_expandGroup (leads.declares.reaches way)
    fun f rest round => apart f ⟨round, d, ⟨site, refers, leads⟩, way.trans rest⟩

end AttributeStep

end WsdlCatalog
