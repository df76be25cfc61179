/-
  WsdlCatalog.MessagePack — data values as octets.

  Every value takes the shortest of its forms. Integers below -2^63 or above 2^64 - 1
  have no form, nor have texts and containers of four thousand million parts (`encode?`).
  The reader takes every form that the writer has (`decode?`).
-/

import WsdlCatalog.Json
import WsdlCatalog.Text.Encoding

namespace WsdlCatalog.MessagePack

/-- The low `count` octets of `n`, most significant first. -/
def bigEndian : (count : Nat) → Nat → List UInt8
  | 0, _ => []
  | count + 1, n => UInt8.ofNat (n / Nat.pow 256 count) :: bigEndian count (n % Nat.pow 256 count)

def natOf (octets : List UInt8) : Nat := octets.foldl (fun n b => n * 256 + b.toNat) 0

/-! ## Writing -/

def natForm? (n : Nat) : Option (List UInt8) :=
  if n < 0x80 then some [UInt8.ofNat n]
  else if n < 0x100 then some (0xCC :: bigEndian 1 n)
  else if n < 0x10000 then some (0xCD :: bigEndian 2 n)
  else if n < 0x100000000 then some (0xCE :: bigEndian 4 n)
  else if n < 0x10000000000000000 then some (0xCF :: bigEndian 8 n)
  else none

/-- The form of `-n`, for a positive `n`: the two's complement in the fewest octets. -/
def negativeForm? (n : Nat) : Option (List UInt8) :=
  if n ≤ 0x20 then some [UInt8.ofNat (0x100 - n)]
  else if n ≤ 0x80 then some (0xD0 :: bigEndian 1 (0x100 - n))
  else if n ≤ 0x8000 then some (0xD1 :: bigEndian 2 (0x10000 - n))
  else if n ≤ 0x80000000 then some (0xD2 :: bigEndian 4 (0x100000000 - n))
  else if n ≤ 0x8000000000000000 then some (0xD3 :: bigEndian 8 (0x10000000000000000 - n))
  else none

def intForm? : Int → Option (List UInt8)
  | .ofNat n => natForm? n
  | .negSucc n => negativeForm? (n + 1)

def textHead? (size : Nat) : Option (List UInt8) :=
  if size < 0x20 then some [UInt8.ofNat (0xA0 + size)]
  else if size < 0x100 then some (0xD9 :: bigEndian 1 size)
  else if size < 0x10000 then some (0xDA :: bigEndian 2 size)
  else if size < 0x100000000 then some (0xDB :: bigEndian 4 size)
  else none

def textForm? (s : String) : Option (List UInt8) :=
  let octets := s.toUTF8.toList
  (textHead? octets.length).map (· ++ octets)

def listHead? (size : Nat) : Option (List UInt8) :=
  if size < 0x10 then some [UInt8.ofNat (0x90 + size)]
  else if size < 0x10000 then some (0xDC :: bigEndian 2 size)
  else if size < 0x100000000 then some (0xDD :: bigEndian 4 size)
  else none

def objectHead? (size : Nat) : Option (List UInt8) :=
  if size < 0x10 then some [UInt8.ofNat (0x80 + size)]
  else if size < 0x10000 then some (0xDE :: bigEndian 2 size)
  else if size < 0x100000000 then some (0xDF :: bigEndian 4 size)
  else none

mutual

def encode? : Json → Option (List UInt8)
  | .null => some [0xC0]
  | .bool false => some [0xC2]
  | .bool true => some [0xC3]
  | .int n => intForm? n
  | .real x => some (0xCB :: bigEndian 8 x.toBits)
  | .str s => textForm? s
  | .arr items => do return (← listHead? items.length) ++ (← encodeItems? items)
  | .obj members => do return (← objectHead? members.length) ++ (← encodeMembers? members)

def encodeItems? : List Json → Option (List UInt8)
  | [] => some []
  | j :: rest => do return (← encode? j) ++ (← encodeItems? rest)

def encodeMembers? : List (String × Json) → Option (List UInt8)
  | [] => some []
  | (k, j) :: rest => do return (← textForm? k) ++ (← encode? j) ++ (← encodeMembers? rest)

end

/-! ## Reading -/

/-- The first `count` octets as a number, and the rest. -/
def takeNat? (count : Nat) (octets : List UInt8) : Option (Nat × List UInt8) :=
  if count ≤ octets.length then some (natOf (octets.take count), octets.drop count) else none

def takeInt? (count : Nat) (octets : List UInt8) : Option (Int × List UInt8) :=
  (takeNat? count octets).map fun (n, rest) =>
    (if 2 * n < Nat.pow 256 count then (n : Int) else (n : Int) - Nat.pow 256 count, rest)

def takeText? (size : Nat) (octets : List UInt8) : Option (String × List UInt8) :=
  if octets.length < size then none
  else
    let decoded := Text.utf8 .refused (octets.take size)
    if decoded.ending == .complete then some (String.ofList decoded.chars, octets.drop size)
    else none

def readText? : List UInt8 → Option (String × List UInt8)
  | [] => none
  | head :: rest =>
    let n := head.toNat
    if 0xA0 ≤ n && n < 0xC0 then takeText? (n - 0xA0) rest
    else if n == 0xD9 then do let (size, rest) ← takeNat? 1 rest; takeText? size rest
    else if n == 0xDA then do let (size, rest) ← takeNat? 2 rest; takeText? size rest
    else if n == 0xDB then do let (size, rest) ← takeNat? 4 rest; takeText? size rest
    else none

mutual

/-- The value at the beginning; each step into or along a container costs one unit. -/
def read? : Nat → List UInt8 → Option (Json × List UInt8)
  | 0, _ => none
  | _ + 1, [] => none
  | fuel + 1, head :: rest =>
    let n := head.toNat
    if n < 0x80 then some (.int n, rest)
    else if n < 0x90 then readObject? fuel (n - 0x80) rest
    else if n < 0xA0 then readList? fuel (n - 0x90) rest
    else if n < 0xC0 then (takeText? (n - 0xA0) rest).map fun (s, rest) => (.str s, rest)
    else if n == 0xC0 then some (.null, rest)
    else if n == 0xC2 then some (.bool false, rest)
    else if n == 0xC3 then some (.bool true, rest)
    else if n == 0xCB then (takeNat? 8 rest).map fun (n, rest) => (.real (.ofBits n), rest)
    else if n == 0xCC then (takeNat? 1 rest).map fun (n, rest) => (.int n, rest)
    else if n == 0xCD then (takeNat? 2 rest).map fun (n, rest) => (.int n, rest)
    else if n == 0xCE then (takeNat? 4 rest).map fun (n, rest) => (.int n, rest)
    else if n == 0xCF then (takeNat? 8 rest).map fun (n, rest) => (.int n, rest)
    else if n == 0xD0 then (takeInt? 1 rest).map fun (n, rest) => (.int n, rest)
    else if n == 0xD1 then (takeInt? 2 rest).map fun (n, rest) => (.int n, rest)
    else if n == 0xD2 then (takeInt? 4 rest).map fun (n, rest) => (.int n, rest)
    else if n == 0xD3 then (takeInt? 8 rest).map fun (n, rest) => (.int n, rest)
    else if n == 0xD9 || n == 0xDA || n == 0xDB then
      (readText? (head :: rest)).map fun (s, rest) => (.str s, rest)
    else if n == 0xDC then
      match takeNat? 2 rest with
      | some (size, rest) => readList? fuel size rest
      | none => none
    else if n == 0xDD then
      match takeNat? 4 rest with
      | some (size, rest) => readList? fuel size rest
      | none => none
    else if n == 0xDE then
      match takeNat? 2 rest with
      | some (size, rest) => readObject? fuel size rest
      | none => none
    else if n == 0xDF then
      match takeNat? 4 rest with
      | some (size, rest) => readObject? fuel size rest
      | none => none
    else if 0xE0 ≤ n then some (.int ((n : Int) - 0x100), rest)
    else none

def readList? (fuel size : Nat) (octets : List UInt8) : Option (Json × List UInt8) :=
  (readItems? fuel size [] octets).map fun (items, rest) => (.arr items, rest)

def readObject? (fuel size : Nat) (octets : List UInt8) : Option (Json × List UInt8) :=
  (readMembers? fuel size [] octets).map fun (members, rest) => (.obj (putAll members), rest)

def readItems? : Nat → Nat → List Json → List UInt8 → Option (List Json × List UInt8)
  | _, 0, acc, octets => some (acc.reverse, octets)
  | 0, _ + 1, _, _ => none
  | fuel + 1, size + 1, acc, octets =>
    match read? fuel octets with
    | some (j, rest) => readItems? fuel size (j :: acc) rest
    | none => none

def readMembers? :
    Nat → Nat → List (String × Json) → List UInt8 → Option (List (String × Json) × List UInt8)
  | _, 0, acc, octets => some (acc.reverse, octets)
  | 0, _ + 1, _, _ => none
  | fuel + 1, size + 1, acc, octets =>
    match readText? octets with
    | some (k, rest) =>
      match read? fuel rest with
      | some (j, rest) => readMembers? fuel size ((k, j) :: acc) rest
      | none => none
    | none => none

end

/-- The value that the octets hold, with nothing after it. -/
def decode? (octets : List UInt8) : Option Json :=
  match read? (2 * octets.length + 2) octets with
  | some (j, []) => some j
  | _ => none

end WsdlCatalog.MessagePack
