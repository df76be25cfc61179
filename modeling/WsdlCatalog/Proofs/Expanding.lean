/-
  WsdlCatalog.Proofs.Expanding — the elements of a content model, each in its place.

  A content model is read from the elements that it is written in: those of a sequence, of `all`
  and of a choice stand in its place, and so does what a group declares for a reference to it
  (`Particle.Expands`). An element comes with the product of all ranges around it. The relation
  knows neither bounds on the depth of groups nor groups that are open; a group on a circle is
  never read to its end.

  Proved: the outline of a content model lists just this (`Particle.Expands.outline`), and a
  content model without a fault can be read (`Particle.exists_expands`).
-/

import WsdlCatalog.Proofs.GroupExpansion
import WsdlCatalog.Proofs.Occurrence

namespace WsdlCatalog

open Relation

/-! ## Outlines -/

namespace Outline

/-- The outline with more steps and no more choices. -/
def extended (outline : Outline) (steps : List Step) : Outline :=
  { outline with steps := outline.steps ++ steps }

variable (outline : Outline)

theorem extended_nil : outline.extended [] = outline := by
  unfold extended
  rw [List.append_nil]

theorem extended_extended (first second : List Step) :
    (outline.extended first).extended second = outline.extended (first ++ second) := by
  unfold extended
  rw [List.append_assoc]

theorem extended_cons (step : Step) (steps : List Step) :
    (outline.push step).extended steps = outline.extended (step :: steps) :=
  extended_extended outline [step] steps

end Outline

/-! ## References -/

theorem Site.LeadsTo.unique {ds : Declarations} {space : Space} {site : Site} {d e : Declaration}
    (hd : site.LeadsTo ds space d) (he : site.LeadsTo ds space e) : d = e := by
  obtain ⟨reference, name, hr, hm, hl⟩ := hd
  obtain ⟨reference', name', hr', hm', hl'⟩ := he
  obtain rfl := Option.some.inj (hr.symm.trans hr')
  obtain rfl := Except.ok.inj (hm.symm.trans hm')
  exact Option.some.inj (hl.symm.trans hl')

namespace Particle

/-! ## Content models -/

def partTags : List String := ["element", "sequence", "all", "choice", "group"]

/-- Elements of a content model inside groups of range `outer`, and what is met in them in the
order of the documents: elements, each with its range, and references to groups that are not
declared. Each part has a range, a choice asks for nothing, and a reference to a group stands for
what the group declares. -/
inductive Expands (ds : Declarations) (owner : Owner) :
    SchemaDocument → Range → List Xml.Node → List Step → Prop where
  | nil {document : SchemaDocument} {outer : Range} : Expands ds owner document outer [] []
  /-- Annotations, wildcards and elements of other namespaces. -/
  | skip {document : SchemaDocument} {outer : Range} {node : Xml.Node} {nodes : List Xml.Node}
    {steps : List Step} (other : isPart node = true → node.tag ∉ partTags)
    (rest : Expands ds owner document outer nodes steps) :
    Expands ds owner document outer (node :: nodes) steps
  | element {document : SchemaDocument} {outer range : Range} {node : Xml.Node}
    {nodes : List Xml.Node} {steps : List Step} (part : isPart node = true)
    (tag : node.tag = "element") (ranged : Range.ofNode node = .ok range)
    (known : (node.filled? "ref").isSome || (node.filled? "name").isSome)
    (rest : Expands ds owner document outer nodes steps) :
    Expands ds owner document outer (node :: nodes)
      (.element (outer.mul range) ⟨node, document⟩ [] :: steps)
  | group {document : SchemaDocument} {outer range : Range} {node : Xml.Node}
    {nodes : List Xml.Node} {inner steps : List Step} (part : isPart node = true)
    (tag : node.tag = "sequence" ∨ node.tag = "all") (ranged : Range.ofNode node = .ok range)
    (inside : Expands ds owner document (outer.mul range) node.children inner)
    (rest : Expands ds owner document outer nodes steps) :
    Expands ds owner document outer (node :: nodes) (inner ++ steps)
  | choice {document : SchemaDocument} {outer range : Range} {node : Xml.Node}
    {nodes : List Xml.Node} {inner steps : List Step} (part : isPart node = true)
    (tag : node.tag = "choice") (ranged : Range.ofNode node = .ok range)
    (inside : Expands ds owner document { outer.mul range with lower := 0 } node.children inner)
    (rest : Expands ds owner document outer nodes steps) :
    Expands ds owner document outer (node :: nodes) (inner ++ steps)
  | reference {document : SchemaDocument} {outer range : Range} {node : Xml.Node}
    {nodes : List Xml.Node} {d : Declaration} {inner steps : List Step} (part : isPart node = true)
    (tag : node.tag = "group") (leads : Site.LeadsTo ds .group ⟨node, document⟩ d)
    (ranged : Range.ofNode node = .ok range)
    (inside : Expands ds owner d.site.document (outer.mul range)
      (d.site.node.childrenIn Vocabulary.xsd groupTags) inner)
    (rest : Expands ds owner document outer nodes steps) :
    Expands ds owner document outer (node :: nodes) (inner ++ steps)
  | undeclared {document : SchemaDocument} {outer : Range} {node : Xml.Node}
    {nodes : List Xml.Node} {reference key : String} {fault : Fault} {steps : List Step}
    (part : isPart node = true) (tag : node.tag = "group")
    (ref : node.filled? "ref" = some reference)
    (missing : declarationOf ds .group owner reference ⟨node, document⟩ = .error (fault, key))
    (rest : Expands ds owner document outer nodes steps) :
    Expands ds owner document outer (node :: nodes) (.unresolved fault key :: steps)

variable {ds : Declarations} {owner : Owner} {document : SchemaDocument} {outer : Range}
  {node inner : Xml.Node} {nodes : List Xml.Node} {steps : List Step} {d : Declaration}
  {container : Site} {group : Site → Particle}

theorem stands_cons (h : Stands (node :: nodes) inner) :
    Stands nodes inner ∨ isPart node = true ∧
      (inner = node ∨ node.tag ∈ ["sequence", "all", "choice"] ∧ Stands node.children inner) := by
  cases h with
  | here hm part =>
    rcases List.mem_cons.mp hm with rfl | hm
    · exact .inr ⟨part, .inl rfl⟩
    · exact .inl (.here hm part)
  | inside hm part puts h =>
    rcases List.mem_cons.mp hm with rfl | hm
    · exact .inr ⟨part, .inr ⟨puts, h⟩⟩
    · exact .inl (.inside hm part puts h)

/-! ### Groups that are read -/

/-- No way from a group that is read goes on without an end. -/
theorem Expands.acc (h : Expands ds owner document outer nodes steps) :
    ∀ inner, Stands nodes inner → inner.tag = "group" →
      ∀ d, Site.LeadsTo ds .group ⟨inner, document⟩ d → Acc (fun e d => ds.GroupUses d e) d := by
  induction h with
  | nil =>
    intro inner stands
    cases stands with
    | here hm => exact absurd hm List.not_mem_nil
    | inside hm => exact absurd hm List.not_mem_nil
  | skip other _ ih =>
    intro inner stands tag
    rcases stands_cons stands with stands | ⟨part, rfl | ⟨puts, -⟩⟩
    · exact ih inner stands tag
    · exact absurd (tag ▸ by decide) (other part)
    · refine absurd ?_ (other part)
      simp only [partTags, List.mem_cons, List.not_mem_nil, or_false] at puts ⊢
      tauto
  | element part head _ _ _ ih =>
    intro inner stands tag
    rcases stands_cons stands with stands | ⟨-, rfl | ⟨puts, -⟩⟩
    · exact ih inner stands tag
    · exact absurd (head.symm.trans tag) (by decide)
    · exact absurd (head ▸ puts) (by decide)
  | group part head _ _ _ below ih =>
    intro inner stands tag
    rcases stands_cons stands with stands | ⟨-, rfl | ⟨-, stands⟩⟩
    · exact ih inner stands tag
    · rw [tag] at head
      exact absurd head (by decide)
    · exact below inner stands tag
  | choice part head _ _ _ below ih =>
    intro inner stands tag
    rcases stands_cons stands with stands | ⟨-, rfl | ⟨-, stands⟩⟩
    · exact ih inner stands tag
    · exact absurd (head.symm.trans tag) (by decide)
    · exact below inner stands tag
  | reference part head leads _ _ _ below ih =>
    intro inner stands tag e he
    rcases stands_cons stands with stands | ⟨-, rfl | ⟨puts, -⟩⟩
    · exact ih inner stands tag e he
    · obtain rfl := leads.unique he
      refine .intro _ fun f used => ?_
      obtain ⟨site, ⟨document, tag, stands⟩, leads⟩ := used
      refine below site.node stands tag f ?_
      rwa [← document]
    · exact absurd (head ▸ puts) (by decide)
  | undeclared part head ref missing _ ih =>
    intro inner stands tag e he
    rcases stands_cons stands with stands | ⟨-, rfl | ⟨puts, -⟩⟩
    · exact ih inner stands tag e he
    · have found : declarationOf ds .group owner _ _ = .ok e := (declarationOf_iff ref).mpr he
      rw [missing] at found
      cases found
    · exact absurd (head ▸ puts) (by decide)

abbrev groupBody (ds : Declarations) (owner : Owner) : Declaration → Range → Particle :=
  expandGroup ds owner ((ds.inSpace .group).length + 1) []

theorem unfolds_of_acc (hd : ds.Declares .group d) (h : Acc (fun e d => ds.GroupUses d e) d) :
    Unfolds ds owner (groupBody ds owner) d :=
  unfolds_expandGroup hd fun _ way => not_transGen_of_acc (acc_of_reflTransGen h way)

/-- A group that can be read uses groups that can be. -/
theorem Expands.unfolds {d : Declaration} (declared : ds.Declares .group d)
    (h : Expands ds owner d.site.document outer (d.site.node.childrenIn Vocabulary.xsd groupTags) steps) :
    Unfolds ds owner (groupBody ds owner) d := by
  refine unfolds_of_acc declared (.intro d fun e used => ?_)
  obtain ⟨site, ⟨document, tag, stands⟩, leads⟩ := used
  refine h.acc site.node stands tag e ?_
  rwa [← document]

/-! ### Outlines -/

theorem ofNodes_part (part : isPart node = true) : ofNodes owner document group (node :: nodes)
    = ofNode owner document group node :: ofNodes owner document group nodes := by
  rw [ofNodes, if_pos part]

theorem ranged_of_ok {site : Site} {range : Range} (h : Range.ofNode site.node = .ok range)
    (particle : Range → Particle) : ranged owner site particle = particle range := by
  unfold ranged
  rw [h]

/-- The outline lists what is met, inside whatever groups and behind whatever was met before. -/
theorem Expands.outline (h : Expands ds owner document outer nodes steps) (before : Outline) :
    Outline.addAll .allOptional outer [] before
        (ofNodes owner document (ofGroup ds owner [] (groupBody ds owner)) nodes)
      = before.extended steps := by
  induction h generalizing before with
  | nil => exact before.extended_nil.symm
  | @skip document outer node nodes steps other _ ih =>
    by_cases part : isPart node = true
    · rw [ofNodes_part part, ofNode_other (other part), Outline.addAll, Outline.add, ih]
    · rw [ofNodes, if_neg part, ih]
  | @element document outer range node nodes steps part tag hr known _ ih =>
    have here : ofElement owner ⟨node, document⟩ = .element range ⟨node, document⟩ := by
      unfold ofElement
      rw [ranged_of_ok hr, if_pos known]
    rw [ofNodes_part part, ofNode_element tag, here, Outline.addAll, Outline.add, ih,
      Outline.extended_cons]
  | @group document outer range node nodes inner steps part tag hr _ _ below ih =>
    rcases tag with tag | tag
    · rw [ofNodes_part part, ofNode_sequence tag, ranged_of_ok hr, Outline.addAll, Outline.add, below,
        ih, Outline.extended_extended]
    · rw [ofNodes_part part, ofNode_all tag, ranged_of_ok hr, Outline.addAll, Outline.add, below, ih,
        Outline.extended_extended]
  | @choice document outer range node nodes inner steps part tag hr _ _ below ih =>
    rw [ofNodes_part part, ofNode_choice tag, ranged_of_ok hr, Outline.addAll, Outline.add,
      below, ih, Outline.extended_extended]
  | @reference document outer range node nodes d inner steps part tag leads hr inside _ below ih =>
    have unfolds := inside.unfolds leads.declares
    rw [ofNodes_part part, ofNode_group tag, ofGroup_of_leadsTo leads List.not_mem_nil,
      ranged_of_ok hr, unfolds, Outline.addAll, Outline.add, below, ih, Outline.extended_extended]
  | @undeclared document outer node nodes reference key fault steps part tag ref missing _ ih =>
    have here : ofGroup ds owner [] (groupBody ds owner) ⟨node, document⟩ = .unresolved fault key := by
      unfold ofGroup
      rw [ref]
      dsimp only
      rw [missing]
    rw [ofNodes_part part, ofNode_group tag, here, Outline.addAll, Outline.add, ih,
      Outline.extended_cons]

/-- What is met in the content model of a type, in its order. -/
def Lists (ds : Declarations) (owner : Owner) (container : Site) (steps : List Step) : Prop :=
  Expands ds owner container.document .once (container.node.childrenIn Vocabulary.xsd typeTags) steps

/-- **The outline of a content model lists what is met in it.** -/
theorem Lists.outline (h : Lists ds owner container steps) :
    (Outline.ofParticles .allOptional (ofContainer ds owner container)).steps = steps :=
  congrArg Outline.steps (Expands.outline h .empty)

/-! ### Content models that can be read -/

abbrev GroupsRead (ds : Declarations) (owner : Owner) (document : SchemaDocument)
    (nodes : List Xml.Node) : Prop :=
  ∀ inner, Stands nodes inner → inner.tag = "group" →
    ∀ d, Site.LeadsTo ds .group ⟨inner, document⟩ d → ∀ outer, ∃ steps,
      Expands ds owner d.site.document outer (d.site.node.childrenIn Vocabulary.xsd groupTags) steps

mutual

theorem expands_cons {body : Declaration → Range → Particle} : ∀ node : Xml.Node,
    isPart node = true → GroupsRead ds owner document [node] →
    (ofNode owner document (ofGroup ds owner [] body) node).Whole → ∀ {outer nodes steps},
      Expands ds owner document outer nodes steps →
      ∃ inner, Expands ds owner document outer (node :: nodes) (inner ++ steps)
  | ⟨uri, tag, attributes, bindings, children, text, line⟩ => by
    intro part groups whole outer nodes steps rest
    have inside (puts : tag ∈ ["sequence", "all", "choice"])
        (whole : AllWhole (ofNodes owner document (ofGroup ds owner [] body) children)) (outer : Range) :
        ∃ steps, Expands ds owner document outer children steps :=
      exists_expands_nodes children (fun inner h =>
        groups inner (.inside (List.mem_singleton.mpr rfl) part puts h)) whole outer
    unfold ofNode at whole
    dsimp only at whole
    split at whole
    · obtain ⟨range, hr, known⟩ := whole_of_ranged whole
      split at known
      · rename_i named
        exact ⟨[_], .element part rfl hr named rest⟩
      · exact known.elim
    · obtain ⟨range, hr, below⟩ := whole_of_ranged whole
      obtain ⟨inner, read⟩ := inside (by decide) below (outer.mul range)
      exact ⟨inner, .group part (.inl rfl) hr read rest⟩
    · obtain ⟨range, hr, below⟩ := whole_of_ranged whole
      obtain ⟨inner, read⟩ := inside (by decide) below (outer.mul range)
      exact ⟨inner, .group part (.inr rfl) hr read rest⟩
    · obtain ⟨range, hr, below⟩ := whole_of_ranged whole
      obtain ⟨inner, read⟩ := inside (by decide) below { outer.mul range with lower := 0 }
      exact ⟨inner, .choice part rfl hr read rest⟩
    · have leading := groups _ (.here (List.mem_singleton.mpr rfl) part) rfl
      unfold ofGroup at whole
      split at whole
      · exact whole.elim
      · rename_i reference ref
        split at whole
        · rename_i missing
          exact ⟨[_], .undeclared part rfl ref missing rest⟩
        · rename_i d found
          have leads := (declarationOf_iff ref).mp found
          split at whole
          · exact whole.elim
          · obtain ⟨range, hr, -⟩ := whole_of_ranged whole
            obtain ⟨inner, read⟩ := leading d leads (outer.mul range)
            exact ⟨inner, .reference part rfl leads hr read rest⟩
    · rename_i tag element sequence all choice group
      refine ⟨[], .skip (fun _ => ?_) rest⟩
      simp only [partTags, List.mem_cons, List.not_mem_nil, or_false, not_or]
      exact ⟨element, sequence, all, choice, group⟩

theorem exists_expands_nodes {body : Declaration → Range → Particle} : ∀ nodes : List Xml.Node,
    GroupsRead ds owner document nodes →
    AllWhole (ofNodes owner document (ofGroup ds owner [] body) nodes) → ∀ outer,
      ∃ steps, Expands ds owner document outer nodes steps
  | [], _, _, _ => ⟨[], .nil⟩
  | node :: rest, groups, whole, outer => by
    have first : GroupsRead ds owner document [node] := fun inner h =>
      groups inner (h.mono (List.cons_subset_cons _ (List.nil_subset _)))
    have others : GroupsRead ds owner document rest := fun inner h =>
      groups inner (h.mono (List.subset_cons_self _ _))
    unfold ofNodes at whole
    split at whole
    · rename_i part
      obtain ⟨steps, read⟩ := exists_expands_nodes rest others whole.2 outer
      obtain ⟨inner, read⟩ := expands_cons node part first whole.1 read
      exact ⟨_, read⟩
    · rename_i other
      obtain ⟨steps, read⟩ := exists_expands_nodes rest others whole outer
      exact ⟨steps, .skip (fun part => absurd part other) read⟩

end

/-- By induction on the groups that a group uses: there is no way without an end. -/
theorem exists_expands_group (h : Acc (fun e d => ds.GroupUses d e) d) (declared : ds.Declares .group d)
    {range : Range} (whole : (groupBody ds owner d range).Whole) (outer : Range) :
    ∃ steps, Expands ds owner d.site.document outer
      (d.site.node.childrenIn Vocabulary.xsd groupTags) steps := by
  induction h generalizing range outer with
  | intro d below ih =>
    rw [unfolds_of_acc declared (.intro d below)] at whole
    refine exists_expands_nodes _ (fun inner stands tag e leads outer => ?_) whole outer
    obtain ⟨range, inside⟩ := whole_of_ofGroup (whole_of_stands stands whole tag) leads
    exact ih e ⟨⟨inner, d.site.document⟩, ⟨rfl, tag, stands⟩, leads⟩ leads.declares inside outer

/-- **A content model without a fault can be read.** -/
theorem exists_lists (whole : AllWhole (ofContainer ds owner container)) :
    ∃ steps, Lists ds owner container steps := by
  refine exists_expands_nodes _ (fun inner stands tag d leads outer => ?_) whole .once
  obtain ⟨range, inside⟩ := whole_of_ofGroup (whole_of_stands stands whole tag) leads
  exact exists_expands_group (acc_of_expandGroup inside) leads.declares inside outer

end Particle

end WsdlCatalog
