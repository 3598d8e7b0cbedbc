import NamedData.Bytes
import NamedData.Tlv.Error
/-!
# The two number codings

`VarNumber` writes the type and length numbers of an element: one byte below 253, else a
marker byte and two, four or eight bytes. The shortest form is written; longer ones are read.
`NonNeg` writes a number that is the whole value of an element, in one, two, four or eight bytes.
-/

namespace NamedData.Tlv

/-! ## Numbers of variable width -/

namespace VarNumber

/-- The written form of a number: the narrowest that holds it. -/
def write (n : UInt64) : Bytes :=
  if n < 253 then [n.toUInt8]
  else if n < 0x10000 then 0xFD :: Bytes.bigEndian 2 n.toNat
  else if n < 0x100000000 then 0xFE :: Bytes.bigEndian 4 n.toNat
  else 0xFF :: Bytes.bigEndian 8 n.toNat

/-- How many bytes follow a first byte; none if the byte is itself the number. -/
def following (first : UInt8) : Nat :=
  if first = 0xFD then 2 else if first = 0xFE then 4 else if first = 0xFF then 8 else 0

/-- The number at the front of the input and the bytes it takes up. -/
def read : Bytes → Except DecodeError (UInt64 × Nat)
  | [] => .error .truncated
  | first :: rest =>
    let width := following first
    if width = 0 then .ok (first.toUInt64, 1)
    else
      let digits := rest.take width
      if digits.length < width then .error .truncated
      else .ok (UInt64.ofNat (Bytes.ofBigEndian digits), 1 + width)

/-- A number that is read takes up at least its first byte. -/
theorem one_le_width {input : Bytes} {n : UInt64} {width : Nat}
    (done : read input = .ok (n, width)) : 1 ≤ width := by
  cases input with
  | nil => cases done
  | cons first rest =>
    simp only [read] at done
    split at done
    · simp only [Except.ok.injEq, Prod.mk.injEq] at done; omega
    · split at done
      · cases done
      · simp only [Except.ok.injEq, Prod.mk.injEq] at done; omega

end VarNumber

/-! ## Numbers as values -/

namespace NonNeg

/-- The shortest of the four widths. -/
def encode (n : UInt64) : Bytes :=
  if n < 0x100 then Bytes.bigEndian 1 n.toNat
  else if n < 0x10000 then Bytes.bigEndian 2 n.toNat
  else if n < 0x100000000 then Bytes.bigEndian 4 n.toNat
  else Bytes.bigEndian 8 n.toNat

/-- Reads any value of one of the four widths, however small the number in it. -/
def decode (bytes : Bytes) : Except DecodeError UInt64 :=
  if bytes.length = 1 ∨ bytes.length = 2 ∨ bytes.length = 4 ∨ bytes.length = 8 then
    .ok (UInt64.ofNat (Bytes.ofBigEndian bytes))
  else .error (.invalidInteger bytes.length)

end NonNeg

end NamedData.Tlv
