import NamedData.Name.Basic
/-!
# Ranges of sequence numbers

A report says which sequence numbers of a producer are missing here. Each number names one
object: the name of the producer's session and the number after it.
-/

namespace NamedData.Sync

/-- The numbers from `low` to `high`, both included, under one session. -/
structure Range where
  session : Name
  low : UInt64
  high : UInt64
deriving DecidableEq, Repr

/-- The names of a range in the order of their numbers; none if `high` is below `low`. -/
def Range.names (range : Range) : List Name :=
  (List.range (range.high.toNat + 1 - range.low.toNat)).map fun offset =>
    range.session.pushNumber (range.low + UInt64.ofNat offset)

end NamedData.Sync
