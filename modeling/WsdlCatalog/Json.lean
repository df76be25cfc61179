/-
  WsdlCatalog.Json — data values: null, truth values, numbers, texts, lists and objects.

  An object keeps its members in the order in which their keys first came; a later
  member of the same key gives the value (`put`). Integers are unbounded, but those with
  too many digits are not written (`isPrintable`). A number written with a fraction or an
  exponent has fifty-three binary digits.

  Proved: an entry that is put under a key is the one found there (`lookup_put`).
-/

import WsdlCatalog.Binary64.Shortest
import WsdlCatalog.Text.Digit
import WsdlCatalog.Text.Printable

namespace WsdlCatalog

inductive Json where
  | null
  | bool (b : Bool)
  | int (n : Int)
  | real (x : Binary64)
  | str (s : String)
  | arr (items : List Json)
  | obj (members : List (String × Json))
  deriving Repr, Inhabited, BEq

/-- The entries with `value` under `key`: in the key's place if it has one, else at the end. -/
def put {α β : Type} [BEq α] (key : α) (value : β) : List (α × β) → List (α × β)
  | [] => [(key, value)]
  | (k, v) :: rest => if k == key then (k, value) :: rest else (k, v) :: put key value rest

/-- One entry a key: the first place of a key with its last value. -/
def putAll {α β : Type} [BEq α] (entries : List (α × β)) : List (α × β) :=
  entries.foldl (fun acc (k, v) => put k v acc) []

theorem lookup_put {α β : Type} [BEq α] [LawfulBEq α] (key : α) (value : β)
    (entries : List (α × β)) : (put key value entries).lookup key = some value := by
  induction entries with
  | nil => simp [put]
  | cons entry rest ih =>
    obtain ⟨k, v⟩ := entry
    simp only [put]
    by_cases h : k = key
    · rw [if_pos (beq_iff_eq.mpr h), List.lookup_cons, beq_iff_eq.mpr h.symm]
    · rw [if_neg (fun e => h (eq_of_beq e)), List.lookup_cons,
        beq_eq_false_iff_ne.mpr (fun e => h e.symm)]
      exact ih

namespace Json

def field? (key : String) : Json → Option Json
  | obj members => members.lookup key
  | _ => none

/-- Whether a condition holds of the value: the null, zero and empty values are false. -/
def truthy : Json → Bool
  | null => false
  | bool b => b
  | int n => n != 0
  | real x => !x.isZero
  | str s => s != ""
  | arr items => !items.isEmpty
  | obj members => !members.isEmpty

def optional {α : Type} (f : α → Json) : Option α → Json
  | some a => f a
  | none => null

mutual

/-- The values in data that have no parts; a key of an object is a text. -/
def atoms : Json → List Json
  | null => [null]
  | bool b => [bool b]
  | int n => [int n]
  | real x => [real x]
  | str s => [str s]
  | arr items => atomsOfItems items
  | obj members => atomsOfMembers members

def atomsOfItems : List Json → List Json
  | [] => []
  | j :: rest => j.atoms ++ atomsOfItems rest

def atomsOfMembers : List (String × Json) → List Json
  | [] => []
  | (k, j) :: rest => str k :: (j.atoms ++ atomsOfMembers rest)

end

theorem mem_atoms_arr {a : Json} {items : List Json} :
    a ∈ (arr items).atoms ↔ ∃ j ∈ items, a ∈ j.atoms := by
  rw [atoms]
  induction items with
  | nil => simp [atomsOfItems]
  | cons j rest ih => simp [atomsOfItems, ih]

theorem mem_atoms_obj {a : Json} {members : List (String × Json)} :
    a ∈ (obj members).atoms ↔ ∃ m ∈ members, a = str m.1 ∨ a ∈ m.2.atoms := by
  rw [atoms]
  induction members with
  | nil => simp [atomsOfMembers]
  | cons m rest ih => simp [atomsOfMembers, ih, or_assoc]

mutual

/-- The value as it stands inside a list or object shown in a message. -/
def shown : Json → String
  | null => "None"
  | bool true => "True"
  | bool false => "False"
  | int n => toString n
  | real x => x.text "inf" "nan"
  | str s => Text.quoted s
  | arr items => "[" ++ shownItems items ++ "]"
  | obj members => "\x7b" ++ shownMembers members ++ "\x7d"

def shownItems : List Json → String
  | [] => ""
  | [j] => j.shown
  | j :: rest => j.shown ++ ", " ++ shownItems rest

def shownMembers : List (String × Json) → String
  | [] => ""
  | [(k, j)] => Text.quoted k ++ ": " ++ j.shown
  | (k, j) :: rest => Text.quoted k ++ ": " ++ j.shown ++ ", " ++ shownMembers rest

end

/-- The value as a message shows it: a text without quotes, all else as inside a list. -/
def display : Json → String
  | str s => s
  | j => j.shown

def isPrintable (j : Json) : Bool :=
  j.atoms.all fun
    | int n => n.natAbs < Nat.pow 10 Text.digitLimit
    | _ => true

/-- A message about the value. One that cannot be written is not shown. -/
def messageAbout (j : Json) (before after : String) : String :=
  if j.isPrintable then before ++ j.display ++ after else Text.overlongMessage none

end Json

end WsdlCatalog
