/-
  WsdlCatalog.Json.Printer — the text of a data value.

  A layout says what stands between two items, between a key and its value, and, if
  the text is spread over lines, by how much each level is set in. Empty lists and
  objects stay on one line. Quotation marks, backslashes and controls are escaped in
  texts, all other characters stand for themselves. Data with an integer of too many
  digits are not printed at all.
-/

import WsdlCatalog.Json

namespace WsdlCatalog.Json

structure Layout where
  itemSeparator : List Char
  keySeparator : List Char
  /-- Spaces a level when every item has its own line. -/
  indent : Option Nat
  deriving DecidableEq, Repr

/-- One line with a space after commas and colons. -/
def Layout.spaced : Layout := ⟨[',', ' '], [':', ' '], none⟩

def Layout.compact : Layout := ⟨[','], [':'], none⟩

/-- Every item on a line of its own, `n` spaces deeper than its container. -/
def Layout.indented (n : Nat) : Layout := ⟨[','], [':', ' '], some n⟩

def escape (c : Char) : List Char :=
  if c == '"' then ['\\', '"']
  else if c == '\\' then ['\\', '\\']
  else if c == '\n' then ['\\', 'n']
  else if c == '\r' then ['\\', 'r']
  else if c == '\t' then ['\\', 't']
  else if c.toNat == 12 then ['\\', 'f']
  else if c.toNat == 8 then ['\\', 'b']
  else if c.toNat < 32 then '\\' :: 'u' :: Text.hex 4 c.toNat
  else [c]

def printString (s : String) : List Char := '"' :: s.toList.flatMap escape ++ ['"']

/-- The line break before an item at `depth`, if items have lines of their own. -/
def Layout.lineBreak (layout : Layout) (depth : Nat) : List Char :=
  match layout.indent with
  | some n => '\n' :: List.replicate (n * depth) ' '
  | none => []

mutual

def printAt (layout : Layout) (depth : Nat) : Json → List Char
  | null => "null".toList
  | bool true => "true".toList
  | bool false => "false".toList
  | int n => (toString n).toList
  | real x => (x.text "Infinity" "NaN").toList
  | str s => printString s
  | arr [] => ['[', ']']
  | arr (j :: rest) =>
    '[' :: layout.lineBreak (depth + 1) ++ printAt layout (depth + 1) j
      ++ printItems layout (depth + 1) rest ++ layout.lineBreak depth ++ [']']
  | obj [] => ['\x7b', '\x7d']
  | obj ((k, j) :: rest) =>
    '\x7b' :: layout.lineBreak (depth + 1) ++ printString k ++ layout.keySeparator
      ++ printAt layout (depth + 1) j ++ printMembers layout (depth + 1) rest
      ++ layout.lineBreak depth ++ ['\x7d']

/-- The items after the first. -/
def printItems (layout : Layout) (depth : Nat) : List Json → List Char
  | [] => []
  | j :: rest =>
    layout.itemSeparator ++ layout.lineBreak depth ++ printAt layout depth j
      ++ printItems layout depth rest

/-- The members after the first. -/
def printMembers (layout : Layout) (depth : Nat) : List (String × Json) → List Char
  | [] => []
  | (k, j) :: rest =>
    layout.itemSeparator ++ layout.lineBreak depth ++ printString k ++ layout.keySeparator
      ++ printAt layout depth j ++ printMembers layout depth rest

end

def render (layout : Layout) (j : Json) : String := String.ofList (printAt layout 0 j)

inductive PrintError where
  /-- An integer has more digits than a number is written with. -/
  | overlong
  deriving DecidableEq, Repr

def PrintError.message : PrintError → String
  | overlong => Text.overlongMessage none

def print (layout : Layout) (j : Json) : Except PrintError String :=
  if j.isPrintable then .ok (j.render layout) else .error .overlong

end WsdlCatalog.Json
