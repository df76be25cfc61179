/-
  WsdlCatalog.Location.Authority — which authorities a URL may have.

  Brackets come in pairs and enclose an IPv6 address or a future one. An authority
  must not hold a character that compatibility normalization turns into one of the
  characters that delimit the parts of a URL.
-/

import WsdlCatalog.Text.Cut
import WsdlCatalog.Text.Printable

namespace WsdlCatalog

inductive LocationError where
  | unpairedBracket
  | malformedFutureAddress
  | bracketedIpv4
  | notAnAddress (address : String)
  | deceptiveAuthority (authority : String)
  deriving DecidableEq, Repr

def LocationError.message : LocationError → String
  | unpairedBracket => "Invalid IPv6 URL"
  | malformedFutureAddress => "IPvFuture address is invalid"
  | bracketedIpv4 => "An IPv4 address cannot be in brackets"
  | notAnAddress address =>
    Text.quoted address ++ " does not appear to be an IPv4 or IPv6 address"
  | deceptiveAuthority authority =>
    "netloc '" ++ authority ++ "' contains invalid characters under NFKC normalization"

namespace Authority

def isHexDigit (c : Char) : Bool :=
  c.isDigit || ('a' ≤ c && c ≤ 'f') || ('A' ≤ c && c ≤ 'F')

/-! ## Addresses -/

def isIpv4Part (part : List Char) : Bool :=
  part.all Char.isDigit && 0 < part.length && part.length ≤ 3
    && (part == ['0'] || part.head? != some '0')
    && part.foldl (fun n c => n * 10 + (c.toNat - 48)) 0 < 256

def isIpv4 (address : List Char) : Bool :=
  let parts := Text.split '.' address
  parts.length == 4 && parts.all isIpv4Part

def isGroup (part : List Char) : Bool :=
  part.all isHexDigit && 0 < part.length && part.length ≤ 4

/-- The groups of an IPv6 address, a dotted end counting as two of them. -/
def groups? (address : List Char) : Option (List (List Char)) :=
  let parts := Text.split ':' address
  if parts.length < 3 then none
  else
    match parts.getLast? with
    | some last =>
      if last.contains '.' then
        if isIpv4 last then some (parts.dropLast ++ [['0'], ['0']]) else none
      else some parts
    | none => none

/-- The positions of the empty parts strictly between the first and the last. -/
def gaps (parts : List (List Char)) : List Nat :=
  (List.range (parts.length - 1)).filter fun i => 0 < i && (parts[i]?.getD []).isEmpty

/-- A side of the gap; an empty part that stands alone there is none. -/
def side (parts : List (List Char)) : List (List Char) := if parts == [[]] then [] else parts

/-- Eight groups, or fewer around one gap that stands for the groups of zeros left out. -/
def isGroups (parts : List (List Char)) : Bool :=
  match gaps parts with
  | [] => parts.length == 8 && parts.all isGroup
  | [gap] =>
    let written := side (parts.take gap) ++ side (parts.drop (gap + 1))
    written.all isGroup && written.length < 8
  | _ => false

def isIpv6 (address : List Char) : Bool :=
  let (host, zoneFits) := match Text.cut? '%' address with
    | some (host, zone) => (host, !zone.isEmpty && !zone.contains '%')
    | none => (address, true)
  zoneFits && match groups? host with
    | some parts => parts.length ≤ 9 && isGroups parts
    | none => false

/-- The letter `v`, a version in base sixteen, a dot and at least one character. -/
def isFutureAddress (address : List Char) : Bool :=
  match address with
  | 'v' :: rest =>
    match rest.span isHexDigit with
    | ([], _) => false
    | (_, '.' :: _ :: _) => true
    | _ => false
  | _ => false

def checkBracketed (address : List Char) : Except LocationError Unit :=
  if address.head? == some 'v' then
    if isFutureAddress address then .ok () else .error .malformedFutureAddress
  else if isIpv4 address then .error .bracketedIpv4
  else if isIpv6 address then .ok ()
  else .error (.notAnAddress (String.ofList address))

/-! ## Authorities -/

def deceptive : List Nat :=
  [0x2047, 0x2048, 0x2049, 0x2100, 0x2101, 0x2105, 0x2106, 0x2A74, 0xFE13, 0xFE16, 0xFE55, 0xFE56,
   0xFE5F, 0xFE6B, 0xFF03, 0xFF0F, 0xFF1A, 0xFF1F, 0xFF20]

/-- The host and the port behind the last `@`. -/
def hostAndPort (authority : List Char) : List Char :=
  (authority.reverse.takeWhile (· != '@')).reverse

/-- The address that stands in brackets: nothing comes before them, and after them a colon at most.
Where the brackets belong to the user's name, the host is held to the same rule. -/
def bracketed (authority : List Char) : Except LocationError (List Char) :=
  let host := hostAndPort authority
  match Text.cut? '[' host with
  | some (before, after) =>
    let (address, port) := (Text.cut? ']' after).getD (after, [])
    if before.isEmpty && (port.isEmpty || port.head? == some ':') then .ok address
    else .error .unpairedBracket
  | none => .ok (host.takeWhile (· != ':'))

def checkBrackets (authority : List Char) : Except LocationError Unit :=
  if authority.contains '[' != authority.contains ']' then .error .unpairedBracket
  else if authority.contains '[' then bracketed authority >>= checkBracketed
  else .ok ()

def checkCharacters (authority : List Char) : Except LocationError Unit :=
  if authority.any fun c => deceptive.contains c.toNat then
    .error (.deceptiveAuthority (String.ofList authority))
  else .ok ()

end Authority

end WsdlCatalog
