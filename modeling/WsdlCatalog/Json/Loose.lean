/-
  WsdlCatalog.Json.Loose — fields that are read without a check of their form.

  A field that only passes through the library may hold data of another form than it
  should. Such data are kept as they came and written back unchanged.

  Proved: what is read is written back (`toJson_ofJson`).
-/

import WsdlCatalog.Json

namespace WsdlCatalog

/-- A value of the form that is asked for, or data of another form. -/
inductive Loose (α : Type) where
  | own (a : α)
  | other (j : Json)
  deriving Repr, BEq

namespace Loose

def ofJson {α : Type} (read? : Json → Option α) (j : Json) : Loose α :=
  match read? j with
  | some a => own a
  | none => other j

def toJson {α : Type} (write : α → Json) : Loose α → Json
  | own a => write a
  | other j => j

theorem toJson_ofJson {α : Type} {read? : Json → Option α} {write : α → Json}
    (h : ∀ j a, read? j = some a → write a = j) (j : Json) :
    (ofJson read? j).toJson write = j := by
  unfold ofJson
  split
  · exact h _ _ (by assumption)
  · rfl

/-- Whether a condition holds; data of another form hold unless they are empty. -/
def holds : Loose Bool → Bool
  | own b => b
  | other j => j.truthy

end Loose

namespace Json

def bool? : Json → Option Bool
  | bool b => some b
  | _ => none

def int? : Json → Option Int
  | int n => some n
  | _ => none

def str? : Json → Option String
  | str s => some s
  | _ => none

theorem bool_bool? {j : Json} {b : Bool} (h : j.bool? = some b) : bool b = j := by
  cases j <;> simp_all [bool?]

theorem int_int? {j : Json} {n : Int} (h : j.int? = some n) : int n = j := by
  cases j <;> simp_all [int?]

theorem str_str? {j : Json} {s : String} (h : j.str? = some s) : str s = j := by
  cases j <;> simp_all [str?]

end Json

end WsdlCatalog
