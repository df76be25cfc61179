/-
  WsdlCatalog.Binary64.Shortest — the text of a number of fifty-three binary digits.

  A number is written with the fewest decimal digits that read back as it, of those
  the nearest. Below ten to the sixteenth, and down to one ten-thousandth, the digits
  stand around a point; otherwise an exponent follows them.

  Proved: the digits that are chosen read back (`ofDecimal_shortest`).
-/

import WsdlCatalog.Binary64

namespace WsdlCatalog.Binary64

/-- How many steps of ten to the `power` read back as the positive number with the mantissa and
exponent: as many as come nearest, or one more. -/
def steps? (mantissa : Nat) (exponent power : Int) : Option Nat :=
  let (num, den) := scaled mantissa 1 (-exponent)
  let steps := roundDiv (num * Nat.pow 10 (-power).toNat) (den * Nat.pow 10 power.toNat)
  [steps, steps + 1].find? fun n => ofDecimal false n power == finite false mantissa exponent

/-- The powers of ten from beyond the greatest number down to the least one. -/
def powers : List Int := (List.range 640).map fun i : Nat => 310 - (i : Int)

/-- The fewest digits that read back and the power of ten of the last of them. -/
def shortest? (mantissa : Nat) (exponent : Int) : Option (Nat × Int) :=
  powers.findSome? fun power => (steps? mantissa exponent power).map (·, power)

theorem ofDecimal_of_steps? {mantissa n : Nat} {exponent power : Int}
    (h : steps? mantissa exponent power = some n) :
    ofDecimal false n power = finite false mantissa exponent := by
  simpa using List.find?_some h

theorem ofDecimal_shortest {mantissa digits : Nat} {exponent power : Int}
    (h : shortest? mantissa exponent = some (digits, power)) :
    ofDecimal false digits power = finite false mantissa exponent := by
  obtain ⟨p, _, hp⟩ := List.exists_of_findSome?_eq_some h
  obtain ⟨n, hn, eq⟩ := Option.map_eq_some_iff.1 hp
  cases eq
  exact ofDecimal_of_steps? hn

/-! ## Layout -/

def zeros (n : Nat) : List Char := List.replicate n '0'

/-- The digits around a point; `point` of them stand before it. -/
def positional (digits : List Char) (point : Int) : List Char :=
  if point ≤ 0 then '0' :: '.' :: zeros (-point).toNat ++ digits
  else
    let whole := digits.take point.toNat
    let fraction := digits.drop point.toNat
    whole ++ zeros (point.toNat - digits.length) ++ '.' :: if fraction.isEmpty then ['0'] else fraction

/-- A sign and at least two digits. -/
def exponentText (n : Int) : List Char :=
  let digits := (toString n.natAbs).toList
  (if n < 0 then '-' else '+') :: zeros (2 - digits.length) ++ digits

/-- One digit, the others after a point, and the exponent of the first one. -/
def scientific (digits : List Char) (exponent : Int) : List Char :=
  digits.take 1 ++ (if digits.length ≤ 1 then [] else '.' :: digits.drop 1)
    ++ 'e' :: exponentText exponent

/-- The text of a positive number that has the digits, the last of them at the `power` of ten. -/
def layout (digits : List Char) (power : Int) : List Char :=
  let point := digits.length + power
  if -4 < point && point ≤ 16 then positional digits point else scientific digits (point - 1)

def magnitude (mantissa : Nat) (exponent : Int) : List Char :=
  if mantissa == 0 then ['0', '.', '0']
  else
    match shortest? mantissa exponent with
    | some (digits, power) => layout (Nat.toDigits 10 digits) power
    | none =>
      layout (Nat.toDigits 10 (mantissa * Nat.pow 2 exponent.toNat * Nat.pow 5 (-exponent).toNat)) (min exponent 0)

/-- The text of a number, with the words for one that is infinite or none at all. -/
def text (infinity nan : String) : Binary64 → String
  | finite negative mantissa exponent =>
    String.ofList ((if negative then ['-'] else []) ++ magnitude mantissa exponent)
  | infinite negative => if negative then "-" ++ infinity else infinity
  | .nan => nan

end WsdlCatalog.Binary64
