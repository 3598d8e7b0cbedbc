import NamedData.Bytes
/-!
# Numbers in text

`Decimal.parse?` reads a whole text as a number: digits, with an optional plus sign before them,
and nothing else. `Digits.read?` reads digits of a base from the front of a text, under limits on
how many there are, on zeros in front and on the value.
-/

namespace NamedData.Text

/-- The value of a digit in any base up to sixteen. -/
def digitValue? (base : Nat) (c : Char) : Option Nat := (Bytes.hexValue? c).filter (· < base)

/-- The number that digits stand for, most significant first. -/
def ofDigits (base : Nat) (digits : List Nat) : Nat :=
  digits.foldl (fun n digit => n * base + digit) 0

namespace Decimal

/-- Reads a text that is a number below `bound`. -/
def parse? (bound : Nat) (text : List Char) : Option Nat := do
  let digits := match text with
    | '+' :: rest => rest
    | _ => text
  guard (digits ≠ [])
  let digits ← digits.mapM (digitValue? 10)
  let n := ofDigits 10 digits
  guard (n < bound)
  pure n

end Decimal

/-- What digits are to be read. -/
structure Digits where
  base : Nat
  /-- How many digits there may be, if that is limited. -/
  most : Option Nat
  /-- Whether more than one digit may start with a zero. -/
  zerosInFront : Bool
  /-- What the number has to be below. -/
  bound : Nat
deriving DecidableEq, Repr

namespace Digits

/-- The digits at the front of a text, with the text after them. -/
def split (base : Nat) : List Char → List Nat × List Char
  | [] => ([], [])
  | c :: rest =>
    match digitValue? base c with
    | none => ([], c :: rest)
    | some digit =>
      let (digits, after) := split base rest
      (digit :: digits, after)

/-- The number at the front of a text, with the text after it. All digits there are belong to it,
and it is refused if it breaks a limit. -/
def read? (rule : Digits) (text : List Char) : Option (Nat × List Char) := do
  let (digits, after) := split rule.base text
  guard (digits ≠ [])
  guard (rule.most.all (digits.length ≤ ·))
  guard (rule.zerosInFront ∨ digits.head? ≠ some 0 ∨ digits.length = 1)
  let n := ofDigits rule.base digits
  guard (n < rule.bound)
  pure (n, after)

end Digits

end NamedData.Text
