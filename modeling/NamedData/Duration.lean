/-!
# Durations

A span of time counted in nanoseconds. On the wire a duration is its whole milliseconds in a
64-bit word: the fraction is dropped and the count wraps.
-/

namespace NamedData

/-- A span of time. -/
structure Duration where
  nanoseconds : Nat
deriving DecidableEq, Repr

namespace Duration

def zero : Duration := ⟨0⟩

/-- The span of `count` milliseconds. -/
def ofMillis (count : UInt64) : Duration := ⟨count.toNat * 1000000⟩

/-- The span of whole seconds and further nanoseconds. -/
def ofParts (seconds nanoseconds : Nat) : Duration := ⟨seconds * 1000000000 + nanoseconds⟩

/-- The whole seconds in a span. -/
def seconds (span : Duration) : Nat := span.nanoseconds / 1000000000

/-- The nanoseconds beyond the whole seconds. -/
def fraction (span : Duration) : Nat := span.nanoseconds % 1000000000

/-- The whole milliseconds as a 64-bit word, which is how a duration goes on the wire. -/
def wireMillis (span : Duration) : UInt64 := UInt64.ofNat (span.nanoseconds / 1000000)

/-- A span of a word of milliseconds comes back from the wire unchanged. -/
@[simp] theorem wireMillis_ofMillis (count : UInt64) : (ofMillis count).wireMillis = count := by
  simp [wireMillis, ofMillis]

end Duration

end NamedData
