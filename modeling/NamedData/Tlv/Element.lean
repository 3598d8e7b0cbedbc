import NamedData.Tlv.Number
/-!
# Elements

An element is a type number, a length number and that many bytes of value. `write` puts one
together; `Element.read` takes one from the front of the input and keeps its exact bytes, since
type and length may stand in a longer form than the one `write` chooses.
-/

namespace NamedData.Tlv

/-! ## Writing -/

/-- The bytes of an element. -/
def write (typ : UInt64) (value : Bytes) : Bytes :=
  VarNumber.write typ ++ VarNumber.write (UInt64.ofNat value.length) ++ value

/-- The bytes of an element whose value is a number. -/
def writeNumber (typ n : UInt64) : Bytes := write typ (NonNeg.encode n)

/-! ## Reading -/

/-- An element as it was read: its type, its value and all its bytes. -/
structure Element where
  typ : UInt64
  value : Bytes
  wire : Bytes
deriving DecidableEq, Repr

namespace Element

/-- The element at the front of the input. -/
def read (input : Bytes) : Except DecodeError Element := do
  let (typ, typWidth) ← VarNumber.read input
  let (length, lengthWidth) ← VarNumber.read (input.drop typWidth)
  let header := typWidth + lengthWidth
  let value := (input.drop header).take length.toNat
  if value.length < length.toNat then throw .truncated
  pure { typ, value, wire := input.take (header + length.toNat) }

/-- The element that the whole input is. -/
def readSingle (input : Bytes) : Except DecodeError Element := do
  let element ← read input
  if element.wire.length = input.length then pure element else throw .trailingBytes

/-- The element itself, provided that it is of the type asked for. -/
def expectType (element : Element) (expected : UInt64) : Except DecodeError Element :=
  if element.typ = expected then .ok element
  else .error (.unexpectedType expected element.typ)

/-- The value as a number. -/
def number (element : Element) : Except DecodeError UInt64 := NonNeg.decode element.value

/-! ## Lemmas -/

/-- What a successful read says: both header numbers were read and the value is complete. -/
theorem read_eq_ok {input : Bytes} {element : Element} (done : read input = .ok element) :
    ∃ length typWidth lengthWidth,
      VarNumber.read input = .ok (element.typ, typWidth) ∧
      VarNumber.read (input.drop typWidth) = .ok (length, lengthWidth) ∧
      element.value = (input.drop (typWidth + lengthWidth)).take length.toNat ∧
      element.value.length = length.toNat ∧
      element.wire = input.take (typWidth + lengthWidth + length.toNat) := by
  unfold read at done
  cases hTyp : VarNumber.read input with
  | error e => rw [hTyp] at done; cases done
  | ok first =>
    obtain ⟨typ, typWidth⟩ := first
    cases hLength : VarNumber.read (input.drop typWidth) with
    | error e => simp [hTyp, hLength, bind, Except.bind] at done
    | ok second =>
      obtain ⟨length, lengthWidth⟩ := second
      simp only [hTyp, hLength, bind, Except.bind, pure, Except.pure] at done
      split at done
      · cases done
      · rename_i complete
        cases done
        refine ⟨length, typWidth, lengthWidth, rfl, hLength, rfl, ?_, rfl⟩
        have := List.length_take_le length.toNat (input.drop (typWidth + lengthWidth))
        simp only at complete ⊢
        omega

/-- An element takes up at least one byte, and no more than there are. -/
theorem wire_length_of_read {input : Bytes} {element : Element} (done : read input = .ok element) :
    0 < element.wire.length ∧ element.wire.length ≤ input.length := by
  obtain ⟨length, typWidth, lengthWidth, hTyp, _, _, _, hWire⟩ := read_eq_ok done
  have wide := VarNumber.one_le_width hTyp
  have nonempty : 0 < input.length := by
    cases input with
    | nil => cases hTyp
    | cons _ _ => simp
  rw [hWire, List.length_take]
  omega

end Element

end NamedData.Tlv
