import NamedData.Text.Decimal
/-!
# Socket addresses

An internet address of either version and a port. `SocketAddress.parse?` reads the usual text and
`SocketAddress.text` writes it: octets without zeros in front, and for the newer version the
canonical form, in which the first longest run of at least two zero groups is left out.
-/

namespace NamedData.Net

open Text

/-! ## Addresses -/

/-- An address of four octets. -/
structure Ipv4 where
  (a b c d : Nat)
deriving DecidableEq, Repr

/-- An address of eight groups of sixteen bits. -/
structure Ipv6 where
  groups : List Nat
deriving DecidableEq, Repr

/-- An address and a port. -/
inductive SocketAddress where
  | v4 (ip : Ipv4) (port : Nat)
  /-- The scope tells the links of a host apart; zero if there is no need to. -/
  | v6 (ip : Ipv6) (scope port : Nat)
deriving DecidableEq, Repr

/-! ## Reading -/

namespace Parse

/-- An octet: up to three digits, no zero in front. -/
def octet : Digits := ⟨10, some 3, false, 256⟩

/-- A port: any number of digits. -/
def port : Digits := ⟨10, none, true, 65536⟩

/-- A scope: any number of digits. -/
def scope : Digits := ⟨10, none, true, 4294967296⟩

/-- A group: up to four hexadecimal digits. -/
def group : Digits := ⟨16, some 4, true, 65536⟩

/-- Skips a character that has to be there. -/
def skip? (c : Char) : List Char → Option (List Char)
  | [] => none
  | first :: rest => if first = c then some rest else none

/-- Four octets between dots. -/
def ipv4? (text : List Char) : Option (Ipv4 × List Char) := do
  let (a, text) ← octet.read? text
  let (b, text) ← octet.read? (← skip? '.' text)
  let (c, text) ← octet.read? (← skip? '.' text)
  let (d, text) ← octet.read? (← skip? '.' text)
  pure (⟨a, b, c, d⟩, text)

/-- What a run of groups gives: the groups, whether an address of octets ended it, and the text
after it. -/
structure Run where
  groups : List Nat
  octetsAtEnd : Bool
  rest : List Char
deriving DecidableEq, Repr

/-- Reads groups between colons, `room` of them at most. Where two groups have room, four octets
may stand for them, and end the run. `first` tells that no colon comes before the first group. -/
def groups : (room : Nat) → (first : Bool) → List Char → Run
  | 0, _, text => ⟨[], false, text⟩
  | room + 1, first, text =>
    let start? := if first then some text else skip? ':' text
    let octets? := if room = 0 then none else start?.bind ipv4?
    match octets? with
    | some (ip, rest) => ⟨[ip.a * 256 + ip.b, ip.c * 256 + ip.d], true, rest⟩
    | none =>
      match start?.bind group.read? with
      | none => ⟨[], false, text⟩
      | some (n, rest) =>
        let run := groups room false rest
        { run with groups := n :: run.groups }

/-- Eight groups, or fewer around one double colon that stands for zeros. -/
def ipv6? (text : List Char) : Option (Ipv6 × List Char) :=
  let head := groups 8 true text
  if head.groups.length = 8 then some (⟨head.groups⟩, head.rest)
  else if head.octetsAtEnd then none
  else do
    let text ← skip? ':' (← skip? ':' head.rest)
    let tail := groups (7 - head.groups.length) true text
    let zeros := List.replicate (8 - head.groups.length - tail.groups.length) 0
    pure (⟨head.groups ++ zeros ++ tail.groups⟩, tail.rest)

/-- A colon and a port. -/
def port? (text : List Char) : Option (Nat × List Char) := do
  port.read? (← skip? ':' text)

/-- An address of octets and a port. -/
def v4? (text : List Char) : Option (SocketAddress × List Char) := do
  let (ip, text) ← ipv4? text
  let (port, text) ← port? text
  pure (.v4 ip port, text)

/-- A scope after a percent sign, zero if there is none. -/
def scopeOrZero (text : List Char) : Nat × List Char :=
  ((skip? '%' text).bind scope.read?).getD (0, text)

/-- An address of groups in brackets, and a port. -/
def v6? (text : List Char) : Option (SocketAddress × List Char) := do
  let (ip, text) ← ipv6? (← skip? '[' text)
  let (scope, text) := scopeOrZero text
  let (port, text) ← port? (← skip? ']' text)
  pure (.v6 ip scope port, text)

end Parse

/-- The address that a whole text stands for. -/
def SocketAddress.parse? (text : String) : Option SocketAddress := do
  let (address, rest) ← (Parse.v4? text.toList).or (Parse.v6? text.toList)
  guard (rest = [])
  pure address

/-! ## Writing -/

/-- Octets between dots. -/
def Ipv4.text (ip : Ipv4) : String := s!"{ip.a}.{ip.b}.{ip.c}.{ip.d}"

namespace Ipv6

/-- A group in hexadecimal, without zeros in front. -/
def groupText (group : Nat) : String := String.ofList (Nat.toDigits 16 group)

/-- Groups between colons. -/
def groupsText (groups : List Nat) : String := ":".intercalate (groups.map groupText)

/-- The length of the run of zeros at the front. -/
def zerosAtFront (groups : List Nat) : Nat := (groups.takeWhile (· = 0)).length

/-- The start and the length of the first longest run of zeros. -/
def longestZeros (groups : List Nat) : Nat × Nat :=
  (List.range groups.length).foldl
    (fun best start =>
      let length := zerosAtFront (groups.drop start)
      if best.2 < length then (start, length) else best)
    (0, 0)

/-- The canonical text. An address that embeds one of octets shows it as such. -/
def text (ip : Ipv6) : String :=
  match ip.groups with
  | [0, 0, 0, 0, 0, 0xFFFF, high, low] =>
    "::ffff:" ++ Ipv4.text ⟨high / 256, high % 256, low / 256, low % 256⟩
  | groups =>
    let (start, length) := longestZeros groups
    if 1 < length then
      groupsText (groups.take start) ++ "::" ++ groupsText (groups.drop (start + length))
    else groupsText groups

end Ipv6

/-- The text of an address and its port. -/
def SocketAddress.text : SocketAddress → String
  | .v4 ip port => s!"{ip.text}:{port}"
  | .v6 ip scope port =>
    let zone := if scope = 0 then "" else s!"%{scope}"
    s!"[{ip.text}{zone}]:{port}"

end NamedData.Net
