/-
  WsdlCatalog.Content.Range — how often a part of a content model may occur.

  A range has a minimum and a maximum; a missing maximum allows any number. A part
  inside another occurs as often as the product of the two ranges says (a missing
  maximum absorbs every factor, even zero), and two parts of one name as often as the
  smallest range around both (`join`).

  Proved: products associate (`mul_assoc`), and joins commute (`join_comm`).
-/

import WsdlCatalog.Schema.Document
import WsdlCatalog.Text.Digit

namespace WsdlCatalog

structure Bounds (α : Type) where
  lower : α
  upper : Option α
  deriving DecidableEq, Repr

namespace Bounds

variable {α : Type}

/-- A missing maximum absorbs every other. -/
def mulMax [Mul α] : Option α → Option α → Option α
  | some a, some b => some (a * b)
  | _, _ => none

def mul [Mul α] (outer inner : Bounds α) : Bounds α :=
  ⟨outer.lower * inner.lower, mulMax outer.upper inner.upper⟩

/-- The larger of two maxima, of which a missing one is the largest. -/
def joinMax [Max α] : Option α → Option α → Option α
  | some a, some b => some (max a b)
  | _, _ => none

def join [Min α] [Max α] (a b : Bounds α) : Bounds α :=
  ⟨min a.lower b.lower, joinMax a.upper b.upper⟩

end Bounds

abbrev Range := Bounds Nat

namespace Bounds

/-! ## Laws -/

def Allows (r : Range) (n : Nat) : Prop := r.lower ≤ n ∧ ∀ m, r.upper = some m → n ≤ m

theorem joinMax_comm (a b : Option Nat) : joinMax a b = joinMax b a := by
  cases a with
  | none => cases b <;> rfl
  | some x =>
    cases b with
    | none => rfl
    | some y => exact congrArg some (Nat.max_comm x y)

theorem join_comm (a b : Range) : a.join b = b.join a := by
  simp only [join, Nat.min_comm a.lower b.lower, joinMax_comm a.upper b.upper]

theorem mulMax_assoc (a b c : Option Nat) : mulMax (mulMax a b) c = mulMax a (mulMax b c) := by
  cases a with
  | none => cases b <;> cases c <;> rfl
  | some x =>
    cases b with
    | none => cases c <;> rfl
    | some y =>
      cases c with
      | none => rfl
      | some z => exact congrArg some (Nat.mul_assoc x y z)

theorem mul_assoc (a b c : Range) : (a.mul b).mul c = a.mul (b.mul c) := by
  simp only [mul, mulMax_assoc, Nat.mul_assoc]

end Bounds

namespace Range

def once : Range := ⟨1, some 1⟩

/-! ## Written ranges -/

inductive Error where
  | model (fault : ModelFault)
  /-- A bound has more digits than a number is read with. -/
  | overlong (digits : Nat)
  deriving DecidableEq, Repr

/-- What is wrong with a bound whose text is no number, and `invalid` if it is malformed. -/
def Error.ofNumeral (invalid : ModelFault) : Text.NumeralError → Error
  | .malformed => model invalid
  | .overlong digits => overlong digits

/-- The refusal of the element. Only faults of the content model are told where they are. -/
def Error.refusal (site : Site) (owner : Owner) : Error → Refusal
  | model fault => .fault (site.modelFault owner fault)
  | overlong digits => .overlongNumber digits

def minimumOf (node : Xml.Node) : Except Error Nat :=
  match node.attribute? "minOccurs" with
  | none => .ok 1
  | some written => (Text.natural written).mapError (.ofNumeral (.invalidMinimum written))

def maximumOf (node : Xml.Node) : Except Error (Option Nat) :=
  match node.attribute? "maxOccurs" with
  | none => .ok (some 1)
  | some written =>
    if Text.trim written == "unbounded" then .ok none
    else ((Text.natural written).map some).mapError (.ofNumeral (.invalidMaximum written))

def ofNode (node : Xml.Node) : Except Error Range := do
  let min ← minimumOf node
  let max ← maximumOf node
  match max with
  | some m => if m < min then .error (.model (.reversedRange m min)) else return ⟨min, some m⟩
  | none => return ⟨min, none⟩

/-- Why an element states no range: one of its bounds is not read, or they are the wrong way
round. -/
inductive Unstated (node : Xml.Node) : Error → Prop where
  | minimum {written : String} {error : Error} (held : node.attribute? "minOccurs" = some written)
    {why : Text.NumeralError} (unread : Text.natural written = .error why)
    (same : error = .ofNumeral (.invalidMinimum written) why) : Unstated node error
  | maximum {written : String} {error : Error} (held : node.attribute? "maxOccurs" = some written)
    {why : Text.NumeralError} (unread : Text.natural written = .error why)
    (same : error = .ofNumeral (.invalidMaximum written) why) : Unstated node error
  | reversed (high low : Nat) : Unstated node (.model (.reversedRange high low))

theorem minimumOf_error {node : Xml.Node} {error : Error} (h : minimumOf node = .error error) :
    Unstated node error := by
  unfold minimumOf at h
  split at h
  · cases h
  · rename_i written held
    cases hn : Text.natural written with
    | ok n =>
      rw [hn] at h
      cases h
    | error why =>
      rw [hn] at h
      exact .minimum held hn (Except.error.inj h).symm

theorem maximumOf_error {node : Xml.Node} {error : Error} (h : maximumOf node = .error error) :
    Unstated node error := by
  unfold maximumOf at h
  split at h
  · cases h
  · rename_i written held
    split at h
    · cases h
    · cases hn : Text.natural written with
      | ok n =>
        rw [hn] at h
        cases h
      | error why =>
        rw [hn] at h
        exact .maximum held hn (Except.error.inj h).symm

theorem ofNode_error {node : Xml.Node} {error : Error} (h : ofNode node = .error error) :
    Unstated node error := by
  unfold ofNode at h
  cases hmin : minimumOf node with
  | error e =>
    rw [hmin] at h
    obtain rfl := Except.error.inj h
    exact minimumOf_error hmin
  | ok low =>
    rw [hmin] at h
    cases hmax : maximumOf node with
    | error e =>
      rw [hmax] at h
      obtain rfl := Except.error.inj h
      exact maximumOf_error hmax
    | ok high =>
      rw [hmax] at h
      dsimp only [bind, Except.bind] at h
      split at h
      · split at h <;> cases h
        exact .reversed _ _
      · cases h

/-- A bound of an element is written with too many digits. -/
def IsOverlong (node : Xml.Node) (count : Nat) : Prop :=
  ∃ bound ∈ ["minOccurs", "maxOccurs"], ∃ written,
    node.attribute? bound = some written ∧ Text.IsOverlong written count

theorem isOverlong_of_ofNode {node : Xml.Node} {count : Nat}
    (h : ofNode node = .error (.overlong count)) : IsOverlong node count := by
  have overlong : ∀ {invalid : ModelFault} {why : Text.NumeralError},
      Error.overlong count = .ofNumeral invalid why → why = .overlong count := by
    intro invalid why same
    cases why <;> cases same
    rfl
  cases ofNode_error h with
  | minimum held unread same =>
    rw [overlong same] at unread
    exact ⟨_, List.mem_cons_self, _, held, Text.natural_eq_overlong.mp unread⟩
  | maximum held unread same =>
    rw [overlong same] at unread
    exact ⟨_, List.mem_cons_of_mem _ List.mem_cons_self, _, held,
      Text.natural_eq_overlong.mp unread⟩

theorem ofNode_overlong {node : Xml.Node} {written : String} {count : Nat}
    (unstated : node.attribute? "minOccurs" = none)
    (held : node.attribute? "maxOccurs" = some written) (overlong : Text.IsOverlong written count) :
    ofNode node = .error (.overlong count) := by
  have bounded : (Text.trim written == "unbounded") = false := by
    refine beq_eq_false_iff_ne.mpr fun same => ?_
    have chars : Text.trimChars written.toList = "unbounded".toList := by
      rw [← same, Text.trim, String.toList_ofList]
    have letter := overlong.digits 'u' (chars ▸ by decide)
    exact absurd letter (by decide)
  have unread := Text.natural_eq_overlong.mpr overlong
  unfold ofNode minimumOf maximumOf
  rw [unstated, held]
  simp only [bounded, unread]
  rfl

end Range

end WsdlCatalog
