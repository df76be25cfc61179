/-
  WsdlCatalog.Text.Digit — decimal digits of every script, and the integers written
  with them.

  A bound is a run of decimal digits between blanks (`natural`). An integer of a
  serialized catalog may also carry a sign and single underscores between digits
  (`integer`). Both accept the decimal digits of all scripts and mix them freely, but
  no more of them than `digitLimit`; leading zeros count.
-/

import WsdlCatalog.Text.Cut

namespace WsdlCatalog.Text

/-- The zero of each script that has decimal digits; its ten digits follow one another. -/
def zeros : List Nat :=
  [0x30, 0x660, 0x6F0, 0x7C0, 0x966, 0x9E6, 0xA66, 0xAE6, 0xB66, 0xBE6, 0xC66, 0xCE6, 0xD66,
   0xDE6, 0xE50, 0xED0, 0xF20, 0x1040, 0x1090, 0x17E0, 0x1810, 0x1946, 0x19D0, 0x1A80, 0x1A90,
   0x1B50, 0x1BB0, 0x1C40, 0x1C50, 0xA620, 0xA8D0, 0xA900, 0xA9D0, 0xA9F0, 0xAA50, 0xABF0,
   0xFF10, 0x104A0, 0x10D30, 0x11066, 0x110F0, 0x11136, 0x111D0, 0x112F0, 0x11450, 0x114D0,
   0x11650, 0x116C0, 0x11730, 0x118E0, 0x11950, 0x11C50, 0x11D50, 0x11DA0, 0x16A60, 0x16AC0,
   0x16B50, 0x1D7CE, 0x1D7D8, 0x1D7E2, 0x1D7EC, 0x1D7F6, 0x1E140, 0x1E2F0, 0x1E950, 0x1FBF0]

/-- The value of a decimal digit of any script. -/
def digit? (c : Char) : Option Nat :=
  let n := c.toNat
  (zeros.find? fun z => z ≤ n && n < z + 10).map (n - ·)

/-! ## How many digits are read -/

/-- A number with more digits is neither read nor written. -/
def digitLimit : Nat := 4300

theorem digitLimit_pos : 0 < digitLimit := by decide

/-- What is said of a number with too many digits; of one that is read they are counted. -/
def overlongMessage (digits : Option Nat) : String :=
  let count := match digits with
    | some n => ": value has " ++ toString n ++ " digits"
    | none => ""
  "Exceeds the limit (" ++ toString digitLimit ++ " digits) for integer string conversion" ++ count
    ++ "; use sys.set_int_max_str_digits() to increase the limit"

inductive NumeralError where
  | malformed
  | overlong (digits : Nat)
  deriving DecidableEq, Repr

/-! ## Numbers -/

/-- The value of a run of digits read after `acc`. -/
def naturalFrom? (acc : Nat) : List Char → Option Nat
  | [] => some acc
  | c :: rest =>
    match digit? c with
    | some d => naturalFrom? (acc * 10 + d) rest
    | none => none

/-- One or more digits between blanks. -/
def natural (s : String) : Except NumeralError Nat :=
  match trimChars s.toList with
  | [] => .error .malformed
  | digits =>
    match naturalFrom? 0 digits with
    | none => .error .malformed
    | some n => if digitLimit < digits.length then .error (.overlong digits.length) else .ok n

/-- A text is a number of `count` digits, which are too many. -/
structure IsOverlong (s : String) (count : Nat) : Prop where
  digits : ∀ c ∈ trimChars s.toList, (digit? c).isSome = true
  length : (trimChars s.toList).length = count
  exceeds : digitLimit < count

theorem isSome_naturalFrom? (acc : Nat) (cs : List Char) :
    (naturalFrom? acc cs).isSome = true ↔ ∀ c ∈ cs, (digit? c).isSome = true := by
  induction cs generalizing acc with
  | nil => exact ⟨fun _ _ h => absurd h List.not_mem_nil, fun _ => rfl⟩
  | cons c rest ih =>
    rw [List.forall_mem_cons, naturalFrom?]
    cases digit? c with
    | some d => simpa using ih _
    | none => simp

theorem natural_eq_overlong {s : String} {count : Nat} :
    natural s = .error (.overlong count) ↔ IsOverlong s count := by
  unfold natural
  constructor
  · intro h
    split at h
    · cases h
    · split at h
      · cases h
      · rename_i n hn
        split at h <;> cases h
        rename_i exceeds
        exact ⟨(isSome_naturalFrom? 0 _).mp (hn ▸ rfl), rfl, exceeds⟩
  · intro h
    obtain ⟨n, hn⟩ := Option.isSome_iff_exists.mp ((isSome_naturalFrom? 0 _).mpr h.digits)
    have exceeds := h.exceeds
    rw [← h.length] at exceeds ⊢
    split
    · rename_i empty
      rw [empty] at exceeds
      exact absurd exceeds (by decide)
    · rw [hn]
      exact if_pos exceeds

/-- Digits with single underscores between them; `count` of them stand before, with the value
`acc`, and `afterDigit` tells whether one of them is the last. Too many digits are noticed where
they end, before what follows them. -/
def digitsFrom (afterDigit : Bool) (count acc : Nat) : List Char → Except NumeralError Nat
  | [] =>
    if !afterDigit then .error .malformed
    else if digitLimit < count then .error (.overlong count)
    else .ok acc
  | '_' :: rest => if afterDigit then digitsFrom false count acc rest else .error .malformed
  | c :: rest =>
    match digit? c with
    | some d => digitsFrom true (count + 1) (acc * 10 + d) rest
    | none => .error (if afterDigit && digitLimit < count then .overlong count else .malformed)

/-- Blanks that may stand around an integer. The information separators are among them only
beside a character that is not ASCII. -/
def isPadding (ascii : Bool) (c : Char) : Bool :=
  isBlank c && !(ascii && 28 ≤ c.toNat && c.toNat ≤ 31)

/-- An integer: an optional sign and digits, between blanks. -/
def integer (s : String) : Except NumeralError Int :=
  let pads := isPadding (s.toList.all fun c => c.toNat < 0x80)
  let cs := ((s.toList.dropWhile pads).reverse.dropWhile pads).reverse
  match cs with
  | '-' :: rest => (digitsFrom false 0 0 rest).map fun n => -(n : Int)
  | '+' :: rest => (digitsFrom false 0 0 rest).map Int.ofNat
  | rest => (digitsFrom false 0 0 rest).map Int.ofNat

end WsdlCatalog.Text
