/-
  WsdlCatalog.Content.Outline — a content model as a list of elements.

  Every element of the model comes once for each place where it stands, with the
  product of its range and those of the groups around it. Under a choice its
  minimum is zero if branches are not told apart; if they are, it keeps its minimum
  and knows the branches it is in, outermost choice first.
-/

import WsdlCatalog.Content.Particle
import WsdlCatalog.Options

namespace WsdlCatalog

/-- A branch of a choice: the number of the choice in its type and of the branch in the choice. -/
structure Branch where
  choice : Nat
  index : Nat
  deriving DecidableEq, Repr

inductive Step where
  | element (range : Range) (site : Site) (branches : List Branch)
  | unresolved (fault : Fault) (key : String)
  | broken (refusal : Refusal)
  deriving Repr

structure ChoiceFrame where
  range : Range
  branchCount : Nat
  deriving DecidableEq, Repr

structure Outline where
  steps : List Step
  frames : List ChoiceFrame
  deriving Repr

namespace Outline

def empty : Outline := ⟨[], []⟩

def push (outline : Outline) (step : Step) : Outline :=
  { outline with steps := outline.steps ++ [step] }

mutual

/-- The outline with a particle inside groups of range `outer` and inside `branches`. -/
def add (policy : ChoicePolicy) (outer : Range) (branches : List Branch) :
    Outline → Particle → Outline
  | outline, .element range site => outline.push (.element (outer.mul range) site branches)
  | outline, .group _ range children => addAll policy (outer.mul range) branches outline children
  | outline, .choice range parts =>
    let range := outer.mul range
    match policy with
    | .allOptional => addAll policy { range with lower := 0 } branches outline parts
    | .union =>
      let frame : ChoiceFrame := ⟨range, parts.length⟩
      addBranches policy range branches outline.frames.length 0
        { outline with frames := outline.frames ++ [frame] } parts
  | outline, .wildcard => outline
  | outline, .unresolved fault key => outline.push (.unresolved fault key)
  | outline, .broken refusal => outline.push (.broken refusal)

def addAll (policy : ChoicePolicy) (outer : Range) (branches : List Branch) :
    Outline → List Particle → Outline
  | outline, [] => outline
  | outline, particle :: rest =>
    addAll policy outer branches (add policy outer branches outline particle) rest

/-- The outline with the branches of a choice from number `index` on. -/
def addBranches (policy : ChoicePolicy) (outer : Range) (branches : List Branch)
    (choice index : Nat) : Outline → List Particle → Outline
  | outline, [] => outline
  | outline, particle :: rest =>
    addBranches policy outer branches choice (index + 1)
      (add policy outer (branches ++ [⟨choice, index⟩]) outline particle) rest

end

def ofParticles (policy : ChoicePolicy) (particles : List Particle) : Outline :=
  addAll policy .once [] .empty particles

end Outline

end WsdlCatalog
