/-
  WsdlCatalog.Text.Encoding — characters from octets.

  Every decoder reads as far as the octets are sound and says how it ended: at the
  end of the octets, inside a sequence, or before one that no character has. A reader
  of the characters can so report an earlier fault of the text before the fault of
  its encoding.
-/

namespace WsdlCatalog.Text

/-- How decoding ended. What is left begins with the octet that could not be read. -/
inductive Ending where
  | complete
  /-- Inside a sequence, or inside a unit of two octets. -/
  | truncated (left : List UInt8)
  | malformed (left : List UInt8)
  deriving DecidableEq, Repr, Inhabited

structure Decoded where
  chars : List Char
  ending : Ending
  deriving DecidableEq, Repr, Inhabited

inductive Halves where
  /-- It is no character. -/
  | refused
  /-- It counts as a character, which the replacement character stands for. -/
  | alone
  /-- A high half makes a pair with any unit after it. -/
  | joined
  deriving DecidableEq, Repr

def isScalar (n : Nat) : Bool := n < 0xD800 || (0xDFFF < n && n < 0x110000)

/-- The character with number `n`, if it has one and is not less than `least`. -/
def scalarFrom? (halves : Halves) (least n : Nat) : Option Char :=
  if n < least then none
  else if isScalar n then some (Char.ofNat n)
  else if halves == .alone && n < 0x110000 then some '\ufffd'
  else none

/-! ## UTF-8 -/

def continuation? (b : UInt8) : Option Nat :=
  let n := b.toNat
  if 0x80 ≤ n && n < 0xC0 then some (n - 0x80) else none

def sequenceLength? (b : UInt8) : Option Nat :=
  let n := b.toNat
  if n < 0x80 then some 1
  else if n < 0xC0 then none
  else if n < 0xE0 then some 2
  else if n < 0xF0 then some 3
  else if n < 0xF5 then some 4
  else none

def utf8From (halves : Halves) (acc : List Char) : List UInt8 → Decoded
  | [] => ⟨acc.reverse, .complete⟩
  | b :: rest =>
    let lead := b.toNat
    match sequenceLength? b, rest with
    | some 1, rest => utf8From halves (Char.ofNat lead :: acc) rest
    | some 2, b1 :: rest =>
      match (do scalarFrom? halves 0x80 ((lead - 0xC0) * 0x40 + (← continuation? b1))) with
      | some c => utf8From halves (c :: acc) rest
      | none => ⟨acc.reverse, .malformed (b :: b1 :: rest)⟩
    | some 3, b1 :: b2 :: rest =>
      match (do
        scalarFrom? halves 0x800
          ((lead - 0xE0) * 0x1000 + (← continuation? b1) * 0x40 + (← continuation? b2))) with
      | some c => utf8From halves (c :: acc) rest
      | none => ⟨acc.reverse, .malformed (b :: b1 :: b2 :: rest)⟩
    | some 4, b1 :: b2 :: b3 :: rest =>
      match (do
        scalarFrom? halves 0x10000
          ((lead - 0xF0) * 0x40000 + (← continuation? b1) * 0x1000
            + (← continuation? b2) * 0x40 + (← continuation? b3))) with
      | some c => utf8From halves (c :: acc) rest
      | none => ⟨acc.reverse, .malformed (b :: b1 :: b2 :: b3 :: rest)⟩
    | none, rest => ⟨acc.reverse, .malformed (b :: rest)⟩
    | some _, rest => ⟨acc.reverse, .truncated (b :: rest)⟩

def utf8 (halves : Halves) (octets : List UInt8) : Decoded := utf8From halves [] octets

/-! ## UTF-16 and UTF-32 -/

inductive ByteOrder where
  | big
  | little
  deriving DecidableEq, Repr

def unit16 : ByteOrder → UInt8 → UInt8 → Nat
  | .big, a, b => a.toNat * 0x100 + b.toNat
  | .little, a, b => b.toNat * 0x100 + a.toNat

/-- The character of a high half and the unit after it, of which ten bits count. -/
def pairChar (high low : Nat) : Char :=
  Char.ofNat (0x10000 + (high - 0xD800) * 0x400 + low % 0x400)

def utf16From (halves : Halves) (order : ByteOrder) (acc : List Char) : List UInt8 → Decoded
  | [] => ⟨acc.reverse, .complete⟩
  | [a] => ⟨acc.reverse, .truncated [a]⟩
  | a :: b :: rest =>
    let unit := unit16 order a b
    let isLow (n : Nat) := 0xDC00 ≤ n && n < 0xE000
    if isScalar unit then utf16From halves order (Char.ofNat unit :: acc) rest
    else if isLow unit then
      if halves == .alone then utf16From halves order ('\ufffd' :: acc) rest
      else ⟨acc.reverse, .malformed (a :: b :: rest)⟩
    else
      match rest with
      | c :: d :: rest =>
        let low := unit16 order c d
        if isLow low || halves == .joined then
          utf16From halves order (pairChar unit low :: acc) rest
        else if halves == .alone then
          utf16From halves order ('\ufffd' :: acc) (c :: d :: rest)
        else ⟨acc.reverse, .malformed (a :: b :: c :: d :: rest)⟩
      | rest =>
        if halves == .alone then utf16From halves order ('\ufffd' :: acc) rest
        else ⟨acc.reverse, .truncated (a :: b :: rest)⟩

def utf16 (halves : Halves) (order : ByteOrder) (octets : List UInt8) : Decoded :=
  utf16From halves order [] octets

def utf32From (halves : Halves) (order : ByteOrder) (acc : List Char) : List UInt8 → Decoded
  | [] => ⟨acc.reverse, .complete⟩
  | a :: b :: c :: d :: rest =>
    let n := match order with
      | .big => unit16 .big a b * 0x10000 + unit16 .big c d
      | .little => unit16 .little c d * 0x10000 + unit16 .little a b
    match scalarFrom? halves 0 n with
    | some x => utf32From halves order (x :: acc) rest
    | none => ⟨acc.reverse, .malformed (a :: b :: c :: d :: rest)⟩
  | left => ⟨acc.reverse, .truncated left⟩

def utf32 (halves : Halves) (order : ByteOrder) (octets : List UInt8) : Decoded :=
  utf32From halves order [] octets

/-! ## Encodings of one octet a character -/

def singleFrom (charOf : UInt8 → Option Char) (acc : List Char) : List UInt8 → Decoded
  | [] => ⟨acc.reverse, .complete⟩
  | b :: rest =>
    match charOf b with
    | some c => singleFrom charOf (c :: acc) rest
    | none => ⟨acc.reverse, .malformed (b :: rest)⟩

def single (charOf : UInt8 → Option Char) (octets : List UInt8) : Decoded :=
  singleFrom charOf [] octets

def latin1Char (b : UInt8) : Option Char := some (Char.ofNat b.toNat)

def asciiChar (b : UInt8) : Option Char :=
  if b.toNat < 0x80 then some (Char.ofNat b.toNat) else none

end WsdlCatalog.Text
