import NamedData.Tlv.Element
/-!
# Reading the elements of a value one after another

A `Reader` stands between two elements: it knows how many bytes lie behind it and holds those
ahead. A step that yields an element gives the reader that stands after it; one that fails, or
finds no element of the wanted type, leaves the caller with the reader it had.

`Reader.step` runs any mixture of the four kinds of step.
-/

namespace NamedData.Tlv

/-- A place between the elements of a value. -/
structure Reader where
  position : Nat
  rest : Bytes
deriving DecidableEq, Repr

namespace Reader

/-- The reader in front of a value. -/
def ofBytes (value : Bytes) : Reader := ⟨0, value⟩

def isEmpty (r : Reader) : Bool := r.rest.isEmpty

/-- The type of the next element, if its number can be read. -/
def peek? (r : Reader) : Option UInt64 := (VarNumber.read r.rest).toOption.map Prod.fst

/-- The next element, and the reader after it. -/
def read (r : Reader) : Except DecodeError (Element × Reader) := do
  let element ← Element.read r.rest
  pure (element, ⟨r.position + element.wire.length, r.rest.drop element.wire.length⟩)

/-- The next element, which has to be of type `typ`. -/
def expect (r : Reader) (typ : UInt64) (what : String) : Except DecodeError (Element × Reader) :=
  match r.peek? with
  | none => .error (.missing what)
  | some found => if found = typ then r.read else .error (.unexpectedType typ found)

/-- The next element if it is of type `typ`; else none, and the reader stays. -/
def optional (r : Reader) (typ : UInt64) : Except DecodeError (Option Element × Reader) :=
  if r.peek? = some typ then do
    let (element, after) ← r.read
    pure (some element, after)
  else .ok (none, r)

/-! ## Mixed steps -/

/-- One use of a reader. -/
inductive Step where
  | peek
  | read
  | expect (typ : UInt64) (what : String)
  | optional (typ : UInt64)
deriving DecidableEq, Repr

/-- What a step yields. -/
inductive Yield where
  | typ (found : Option UInt64)
  | element (element : Element)
  | nothing
deriving DecidableEq, Repr

/-- An element moves the reader, an error does not. -/
def advance (r : Reader) : Except DecodeError (Element × Reader) → Except DecodeError Yield × Reader
  | .ok (element, after) => (.ok (.element element), after)
  | .error e => (.error e, r)

/-- The outcome of a step and the reader after it. -/
def step (r : Reader) : Step → Except DecodeError Yield × Reader
  | .peek => (.ok (.typ r.peek?), r)
  | .read => r.advance r.read
  | .expect typ what => r.advance (r.expect typ what)
  | .optional typ =>
    match r.optional typ with
    | .ok (some element, after) => (.ok (.element element), after)
    | .ok (none, after) => (.ok .nothing, after)
    | .error e => (.error e, r)

end Reader

end NamedData.Tlv
