/-
  WsdlCatalog.Proofs.WithoutChoices — types without what depends on choices.

  Whether the branches of choices are told apart shows in the choices of a type, and in three
  things of each element: its minimum, whether it is optional, and its branch. Nothing looks at
  these when a type gets the members of its base. So they may be taken out before or after,
  and whether the members fit together does not depend on them.

  Proved: this holds of one type and its base (`StructuralType.compose_withoutChoices`), of
  all types (`Extension.expand_withoutChoices`), and of the tables for conversion, which lose
  their minima (`Marshalling.ofTypes_withoutChoices`).
-/

import WsdlCatalog.Proofs.Composition
import WsdlCatalog.Proofs.Sorting

namespace WsdlCatalog

/-- Steps that are the same up to something. -/
theorem foldlM_map {ε σ τ ι κ : Type} {f : σ → ι → Except ε σ} {g : τ → κ → Except ε τ} {u : σ → τ}
    {w : ι → κ} (h : ∀ a i, g (u a) (w i) = (f a i).map u) (is : List ι) (a : σ) :
    (is.map w).foldlM g (u a) = (is.foldlM f a).map u := by
  induction is generalizing a with
  | nil => rfl
  | cons i rest ih =>
    rw [List.map_cons, List.foldlM_cons, List.foldlM_cons, h]
    cases f a i with
    | error e => rfl
    | ok b => exact ih b

/-! ## Types -/

def Element.withoutChoice (e : Element) : Element :=
  { e with min := .own 0, optional := .own true, choice := none }

namespace StructuralType

def withoutChoices (t : StructuralType) : StructuralType :=
  { t with
    elements := t.elements.map Element.withoutChoice
    localElements := t.localElements.map Element.withoutChoice
    choices := [] }

theorem fold_withoutChoice (a b : Element) :
    fold a.withoutChoice b.withoutChoice = (fold a b).withoutChoice := rfl

def ElementView.withoutChoices (view : ElementView) : ElementView :=
  ⟨remap Element.withoutChoice view.inherited, view.own.map Element.withoutChoice⟩

variable (derived base : StructuralType)

theorem ElementView.add_withoutChoices (view : ElementView) (e : Element) :
    ElementView.add derived.withoutChoices base.withoutChoices view.withoutChoices e.withoutChoice
      = (ElementView.add derived base view e).map ElementView.withoutChoices := by
  have text : e.withoutChoice.isText = e.isText := rfl
  have lookup : view.withoutChoices.inherited.lookup e.withoutChoice.name
      = (view.inherited.lookup e.name).map Element.withoutChoice := lookup_remap _ _ _
  have added : view.withoutChoices.own ++ [e.withoutChoice]
      = (view.own ++ [e]).map Element.withoutChoice := by rw [List.map_append]; rfl
  unfold ElementView.add
  rw [text, lookup, added]
  cases e.isText with
  | true => rfl
  | false =>
    simp only [Bool.false_eq_true, if_false]
    cases view.inherited.lookup e.name with
    | none => rfl
    | some inherited =>
      have folded : put e.name (fold inherited.withoutChoice e.withoutChoice)
            view.withoutChoices.inherited
          = remap Element.withoutChoice (put e.name (fold inherited e) view.inherited) := by
        rw [fold_withoutChoice]
        exact put_remap _ _ _ _
      show (checkRedeclared derived base e.name inherited.declaredType e.declaredType >>= _)
        = (checkRedeclared derived base e.name inherited.declaredType e.declaredType >>= _).map _
      cases checkRedeclared derived base e.name inherited.declaredType e.declaredType with
      | error refusal => rfl
      | ok _ => exact congrArg (fun all => Except.ok (ElementView.mk all _)) folded

def elementView (derived base : StructuralType) : Except Refusal ElementView :=
  (derived.shifted base).foldlM (ElementView.add derived base)
    ⟨putAll ((untexted base.elements).map fun e => (e.name, e)), []⟩

theorem elementView_withoutChoices :
    elementView derived.withoutChoices base.withoutChoices
      = (elementView derived base).map ElementView.withoutChoices := by
  have inherited : putAll ((untexted base.withoutChoices.elements).map fun e => (e.name, e))
      = remap Element.withoutChoice (putAll ((untexted base.elements).map fun e => (e.name, e))) := by
    have plain : untexted base.withoutChoices.elements
        = (untexted base.elements).map Element.withoutChoice := List.filter_map ..
    rw [← putAll_remap, plain, remap, List.map_map, List.map_map]
    rfl
  have own : derived.withoutChoices.shifted base.withoutChoices
      = (derived.shifted base).map Element.withoutChoice := by
    show (derived.localElements.map Element.withoutChoice).map _ = (derived.localElements.map _).map _
    rw [List.map_map, List.map_map]
    rfl
  unfold elementView
  rw [inherited, own]
  exact foldlM_map (ElementView.add_withoutChoices derived base) _ ⟨_, []⟩

def attributeView : Except Refusal AttributeView :=
  derived.localAttributes.foldlM (AttributeView.add derived base)
    ⟨putAll (base.attributes.map fun a => (a.name, a)), []⟩

def assemble (attributes : AttributeView) (elements : ElementView) : StructuralType :=
  { derived with
    attributes := attributes.all.map (·.2)
    elements := elements.inherited.map (·.2) ++ untexted elements.own
      ++ ((elements.own.find? (·.isText)).or base.textSlot?).toList
    localAttributes := attributes.own
    localElements := elements.own
    choices := base.choices
      ++ derived.choices.map fun g => { g with index := g.index + base.choices.length }
    mixed := derived.mixed || base.mixed }

theorem compose_views : derived.compose base = (do
    let attributes ← derived.attributeView base
    let elements ← derived.elementView base
    return derived.assemble base attributes elements) := rfl

theorem assemble_withoutChoices (attributes : AttributeView) (elements : ElementView) :
    derived.withoutChoices.assemble base.withoutChoices attributes elements.withoutChoices
      = (derived.assemble base attributes elements).withoutChoices := by
  have text (elements : List Element) : (elements.map Element.withoutChoice).find? (·.isText)
      = (elements.find? (·.isText)).map Element.withoutChoice := List.find?_map ..
  have plain : untexted (elements.own.map Element.withoutChoice)
      = (untexted elements.own).map Element.withoutChoice := List.filter_map ..
  unfold assemble withoutChoices
  congr 1
  show (remap Element.withoutChoice elements.inherited).map (·.2)
      ++ untexted (elements.own.map Element.withoutChoice)
      ++ (((elements.own.map Element.withoutChoice).find? (·.isText)).or
        ((base.elements.map Element.withoutChoice).find? (·.isText))).toList = _
  rw [text, text, plain, List.map_append, List.map_append, ← Option.map_or, Option.toList_map]
  congr 2
  rw [remap, List.map_map, List.map_map]
  rfl

/-- A type gets the same members from its base. -/
theorem compose_withoutChoices :
    derived.withoutChoices.compose base.withoutChoices
      = (derived.compose base).map withoutChoices := by
  have same : derived.withoutChoices.attributeView base.withoutChoices = derived.attributeView base :=
    rfl
  rw [compose_views, compose_views, same, elementView_withoutChoices]
  cases derived.attributeView base with
  | error refusal => rfl
  | ok attributes =>
    cases derived.elementView base with
    | error refusal => rfl
    | ok elements =>
      exact congrArg Except.ok (assemble_withoutChoices derived base attributes elements)

end StructuralType

namespace Extension

def withoutChoices (types : Table) : Table := remap StructuralType.withoutChoices types

theorem finish_withoutChoices (types : Table) (depth : Nat) :
    ∀ (chain : List Owner) (finished : Table) (name : Owner),
      finish (withoutChoices types) depth chain (withoutChoices finished) name
        = (finish types depth chain finished name).map fun x =>
          (withoutChoices x.1, x.2.withoutChoices) := by
  -- By induction on how deep bases are followed, for whatever is finished already.
  induction depth with
  | zero => exact fun _ _ _ => rfl
  | succ depth ih =>
    intro chain finished name
    have known : (withoutChoices finished).lookup name
        = (finished.lookup name).map StructuralType.withoutChoices := lookup_remap _ _ _
    have given : (withoutChoices types).lookup name
        = (types.lookup name).map StructuralType.withoutChoices := lookup_remap _ _ _
    have put (t : StructuralType) (finished : Table) :
        put name t.withoutChoices (withoutChoices finished) = withoutChoices (put name t finished) :=
      put_remap _ _ _ _
    unfold finish
    rw [known, given]
    cases finished.lookup name with
    | some t => rfl
    | none =>
      cases types.lookup name with
      | none => rfl
      | some t =>
        simp only [Option.map_none, Option.map_some]
        have base : t.withoutChoices.base = t.base := rfl
        rw [base]
        cases t.base with
        | none =>
          exact congrArg (fun finished => Except.ok (finished, t.withoutChoices)) (put t finished)
        | some b =>
          dsimp only
          split
          · rfl
          · rw [ih]
            cases finish types depth (chain ++ [name]) finished (some b) with
            | error refusal => rfl
            | ok found =>
              show (t.withoutChoices.compose found.2.withoutChoices >>= _)
                = Except.map _ (t.compose found.2 >>= _)
              rw [StructuralType.compose_withoutChoices]
              cases t.compose found.2 with
              | error refusal => rfl
              | ok t' =>
                exact congrArg (fun finished => Except.ok (finished, t'.withoutChoices))
                  (put t' found.1)

def finishNext (types : Table) (depth : Nat) (finished : Table) (x : Owner × StructuralType) :
    Except Refusal Table := do
  return (← finish types depth [] finished x.1).1

theorem finishNext_withoutChoices (types : Table) (depth : Nat) (finished : Table)
    (x : Owner × StructuralType) :
    finishNext (withoutChoices types) depth (withoutChoices finished) (x.1, x.2.withoutChoices)
      = (finishNext types depth finished x).map withoutChoices := by
  unfold finishNext
  rw [finish_withoutChoices]
  cases finish types depth [] finished x.1 <;> rfl

/-- Types are finished alike. -/
theorem expand_withoutChoices (types : Table) :
    expand (withoutChoices types) = (expand types).map withoutChoices := by
  have length : (withoutChoices types).length = types.length := List.length_map ..
  have nexts : expand types = types.foldlM (finishNext types (types.length + 2)) [] := rfl
  rw [nexts, ← foldlM_map (finishNext_withoutChoices types _), ← length]
  rfl

end Extension

/-! ## Tables for conversion -/

def PropertyInfo.withoutMin (info : PropertyInfo) : PropertyInfo := { info with min := .own 0 }

namespace Marshalling

def withoutMins (m : Marshalling) : Marshalling :=
  { m with properties := remap (remap PropertyInfo.withoutMin) m.properties }

theorem routesOf_withoutChoices (t : StructuralType) : routesOf t.withoutChoices = routesOf t :=
  congrArg putAll List.filterMap_map

/-- Tables of types that nothing of choices is known of lack the minima. -/
theorem ofTypes_withoutChoices (types : List StructuralType) :
    ofTypes (types.map StructuralType.withoutChoices) = (ofTypes types).withoutMins := by
  have attributes : (types.map StructuralType.withoutChoices).map
        (fun t => (t.tableName, t.attributeNames))
      = types.map fun t => (t.tableName, t.attributeNames) := List.map_map
  have children : (types.map StructuralType.withoutChoices).map (fun t => (t.tableName, routesOf t))
      = types.map fun t => (t.tableName, routesOf t) := by
    rw [List.map_map]
    exact List.map_congr_left fun t _ => congrArg (Prod.mk t.tableName) (routesOf_withoutChoices t)
  have properties : (types.map StructuralType.withoutChoices).map
        (fun t => (t.tableName, putAll (t.elements.map fun e => (e.name, propertyInfo e))))
      = remap (remap PropertyInfo.withoutMin) (types.map fun t =>
          (t.tableName, putAll (t.elements.map fun e => (e.name, propertyInfo e)))) := by
    rw [remap, List.map_map, List.map_map]
    refine List.map_congr_left fun t _ => congrArg (Prod.mk t.tableName) ?_
    rw [← putAll_remap, remap, List.map_map]
    exact congrArg putAll List.map_map
  unfold ofTypes withoutMins
  rw [attributes, children, properties, putAll_remap]

end Marshalling

def Catalog.withoutChoices (c : Catalog) : Catalog :=
  { c with
    types := c.types.map StructuralType.withoutChoices
    marshalling := c.marshalling.withoutMins
    options := { c.options with choice := .allOptional } }

end WsdlCatalog
