/-
  WsdlCatalog.Xml.Cursor — a place in a text that is being read, and the runs, names and
  tokens read from it.

  A place knows its line, the form of the text and what follows its last character,
  because a token that runs out of characters fails in different ways at the end of a
  text, at an octet that belongs to no character, and inside a character. Line ends
  are normalized before reading, so a line ends at a line feed. A carriage return that
  is the last of a document is kept, since a line feed might still have followed it.

  A flow of tokens ends with the text, or with the fault that stops reading it. What
  reads a flow meets the fault only after all tokens before it, so that of two faults
  the earlier one is reported.
-/

import WsdlCatalog.Xml.Error
import WsdlCatalog.Xml.Form

namespace WsdlCatalog.Xml

structure Cursor where
  chars : List Char
  line : Nat
  ending : Ending
  form : Form
  deriving DecidableEq, Repr

/-- Carriage returns, with or without a line feed after them, become line feeds, except for the
last character of a text that has an end. -/
def normalizeLineEnds (ending : Ending) (acc : List Char) : List Char → List Char
  | [] => acc.reverse
  | ['\r'] => (if ending.isEnd then '\r' :: acc else '\n' :: acc).reverse
  | '\r' :: '\n' :: rest => normalizeLineEnds ending ('\n' :: acc) rest
  | '\r' :: rest => normalizeLineEnds ending ('\n' :: acc) rest
  | c :: rest => normalizeLineEnds ending (c :: acc) rest

namespace Cursor

def ofReplacement (text : List Char) (line : Nat) : Cursor := ⟨text, line, .complete, .replacement⟩

def advance (line : Nat) (c : Char) : Nat := if c == '\n' || c == '\r' then line + 1 else line

def resume (cur : Cursor) (line : Nat) (chars : List Char) : Cursor := { cur with line, chars }

def settled (cur : Cursor) : Cursor := { cur with ending := cur.ending.settled }

/-! ## Failures -/

def invalid {α : Type} (cur : Cursor) : Except ReadError α :=
  .error (.malformed .invalidToken cur.line)

/-- The failure of a token begun on line `start` that runs out of characters where one more might
continue it. -/
def short {α : Type} (cur : Cursor) (start : Nat) : Except ReadError α :=
  match cur.ending with
  | .complete | .strayOctet => .error (.malformed .unclosedToken start)
  | .truncated _ => .error (.malformed .partialCharacter start)
  | .malformed _ _ => cur.invalid

/-- The failure of a token at a place where something else is needed, whatever follows. -/
def unfit {α : Type} (cur : Cursor) (start : Nat) : Except ReadError α :=
  if cur.chars.isEmpty && cur.ending.isEnd then .error (.malformed .unclosedToken start)
  else cur.invalid

/-- The failure at a place where a character that may continue the token is missing or wrong. -/
def broken {α : Type} (cur : Cursor) (start : Nat) : Except ReadError α :=
  if cur.chars.isEmpty then cur.short start else cur.invalid

/-! ## Runs and names -/

/-- The place after the spaces and line ends that begin here. -/
def skipSpaceFrom (cur : Cursor) (line : Nat) : List Char → Cursor
  | [] => cur.resume line []
  | c :: rest =>
    if isSpace c then skipSpaceFrom cur (advance line c) rest else cur.resume line (c :: rest)

def skipSpace (cur : Cursor) : Cursor := cur.skipSpaceFrom cur.line cur.chars

def beginsWithSpace (cur : Cursor) : Bool := cur.chars.head?.any isSpace

/-- The name characters that begin here; a name holds no line end. -/
def takeName (cur : Cursor) : List Char × Cursor :=
  (cur.chars.takeWhile cur.form.isNameChar,
    { cur with chars := cur.chars.dropWhile cur.form.isNameChar })

def name (start : Nat) (cur : Cursor) : Except ReadError (List Char × Cursor) :=
  match cur.chars with
  | c :: _ => if cur.form.isNameStart c then .ok cur.takeName else cur.invalid
  | [] => cur.short start

/-- A name with at most one colon, a name before it and one after it. -/
def qualifiedName (start : Nat) (cur : Cursor) : Except ReadError (String × Cursor) := do
  let (first, cur) ← cur.name start
  match cur.chars with
  | ':' :: rest =>
    let (second, cur) ← name start { cur with chars := rest }
    if cur.chars.head? == some ':' then cur.invalid
    else return (String.ofList (first ++ ':' :: second), cur)
  | _ => return (String.ofList first, cur)

end Cursor

/-! ## References -/

/-- One part of a value: a character, a reference by number or by name with its line, or the fault
of what cannot be read on. -/
inductive Piece where
  | char (c : Char)
  | number (n line : Nat)
  | entity (name : String) (line : Nat)
  | fault (error : ReadError)
  deriving Repr

namespace Cursor

def hexValue? (c : Char) : Option Nat :=
  if c.isDigit then some (c.toNat - 48)
  else if 'a' ≤ c && c ≤ 'f' then some (c.toNat - 87)
  else if 'A' ≤ c && c ≤ 'F' then some (c.toNat - 55)
  else none

def isHex (c : Char) : Bool := (hexValue? c).isSome

def natOf (base : Nat) (digits : List Char) : Nat :=
  digits.foldl (fun n c => n * base + (hexValue? c).getD 0) 0

/-- A number in `base` made of the digits that must begin here, and a semicolon. -/
def numberReference (start base : Nat) (fits : Char → Bool) (cur : Cursor) :
    Except ReadError (Piece × Cursor) :=
  match cur.chars.span fits with
  | ([], _) => cur.unfit start
  | (digits, ';' :: rest) => .ok (.number (natOf base digits) cur.line, { cur with chars := rest })
  | (_, rest) => unfit { cur with chars := rest } start

/-- A reference after its ampersand. -/
def reference (start : Nat) (cur : Cursor) : Except ReadError (Piece × Cursor) :=
  match cur.chars with
  | '#' :: 'x' :: rest => numberReference start 16 isHex { cur with chars := rest }
  | '#' :: rest => numberReference start 10 Char.isDigit { cur with chars := rest }
  | _ => do
    let (name, cur) ← cur.name start
    match cur.chars with
    | ';' :: rest => return (.entity (String.ofList name) cur.line, { cur with chars := rest })
    | _ => cur.broken start

end Cursor

/-! ## Tokens -/

inductive Flow (τ : Type) where
  | token (line : Nat) (value : τ) (after : Cursor) (next : Flow τ)
  | finished (line : Nat)
  | broken (error : ReadError)

/-- A scanner answers the token at a place and the place after it. It is told a number above
that of the characters that are left. -/
abbrev Scanner (τ : Type) := Nat → Cursor → Except ReadError (τ × Cursor)

/-- The flow of the tokens that `scan` reads; there are fewer characters than `fuel`, and every
token takes at least one. -/
def Flow.scanning {τ : Type} (scan : Scanner τ) : (fuel : Nat) → Cursor → Flow τ
  | 0, cur => .finished cur.line
  | fuel + 1, cur =>
    if cur.chars.isEmpty then
      match cur.ending with
      | .complete => .finished cur.line
      | .strayOctet => .broken (.malformed .unclosedToken cur.line)
      | .truncated _ => .broken (.malformed .partialCharacter cur.line)
      | .malformed _ _ => .broken (.malformed .invalidToken cur.line)
    else
      match scan (fuel + 1) cur with
      | .ok (value, after) => .token cur.line value after (scanning scan fuel after)
      | .error e => .broken e

def Flow.of {τ : Type} (scan : Scanner τ) (cur : Cursor) : Flow τ :=
  Flow.scanning scan (cur.chars.length + 1) cur

def Flow.isFinished {τ : Type} : Flow τ → Bool
  | .finished _ => true
  | _ => false

end WsdlCatalog.Xml
