/-
  WsdlCatalog.Text.CanonicalName — the canonical name of a declaration: its local
  name in Pascal case, reduced to ASCII letters and digits.

  A letter is raised when it begins the name or follows a separator (an underscore,
  a hyphen or a blank). A separator and the word character after it are read as one
  unit, so an underscore can itself be the raised character: `a__b` gives `Ab` and
  `a___b` gives `AB`.
-/

import WsdlCatalog.Text.Cut

namespace WsdlCatalog.Text

def isSeparator (c : Char) : Bool := c == '_' || c == '-' || isBlank c

/-- Letters, digits and the underscore. Beyond ASCII every character that is not blank
counts: those that are no letters leave nothing in the name either way. -/
def isWordChar (c : Char) : Bool :=
  c.isAlphanum || c == '_' || (0x80 ≤ c.toNat && !isBlank c)

def raisedBeyondAscii : List (Nat × List Char) :=
  [(0xDF, ['S', 'S']), (0x131, ['I']), (0x149, ['N']), (0x17F, ['S']), (0x1F0, ['J']),
   (0x1E96, ['H']), (0x1E97, ['T']), (0x1E98, ['W']), (0x1E99, ['Y']), (0x1E9A, ['A']),
   (0xFB00, ['F', 'F']), (0xFB01, ['F', 'I']), (0xFB02, ['F', 'L']), (0xFB03, ['F', 'F', 'I']),
   (0xFB04, ['F', 'F', 'L']), (0xFB05, ['S', 'T']), (0xFB06, ['S', 'T'])]

/-- What is left in a name of a character that stays as it is. -/
def kept (c : Char) : List Char := if c.isAlphanum then [c] else []

/-- What is left in a name of the upper case of a character. -/
def raised (c : Char) : List Char :=
  match raisedBeyondAscii.lookup c.toNat with
  | some cs => cs
  | none => kept c.toUpper

/-- The name read after its first character. -/
def pascalRest : List Char → List Char
  | [] => []
  | [c] => kept c
  | s :: c :: rest =>
    if isSeparator s && isWordChar c then raised c ++ pascalRest rest
    else kept s ++ pascalRest (c :: rest)

def pascal (name : String) : String :=
  match name.toList with
  | [] => ""
  | c :: rest =>
    String.ofList (if isWordChar c then raised c ++ pascalRest rest else pascalRest (c :: rest))

example : pascal "weather-return_item" = "WeatherReturnItem" := by decide
example : pascal "a__b" = "Ab" := by decide
example : pascal "a___b" = "AB" := by decide

end WsdlCatalog.Text
