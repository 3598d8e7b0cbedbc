import NamedData.Duration
/-!
# Time

A point in time is the number of nanoseconds since the clock was started. Timers go off on whole
milliseconds: a deadline between two of them waits for the later. No timer waits longer than
thirty years.

    now + bounded span ≤ deadline now span                       (add_bounded_le_deadline)
    deadline now span < now + bounded span + tick                (deadline_lt)
    span ≤ longest → now + span ≤ deadline now span              (add_le_deadline)
-/

namespace NamedData.Sync.Clock

/-- The nanoseconds from one tick of the timers to the next. -/
def tick : Nat := 1000000

/-- The longest that a timer waits: thirty years of 365 days. -/
def longest : Duration := .ofParts 946080000 0

/-- The time a timer gives a span: the span, or as much of it as a timer waits. -/
def bounded (span : Duration) : Nat := min span.nanoseconds longest.nanoseconds

/-- When a timer set at `now` goes off: the first tick at which its time is over. -/
def deadline (now : Nat) (span : Duration) : Nat :=
  (now + bounded span + (tick - 1)) / tick * tick

/-! ## Lemmas -/

/-- A timer does not go off before its time is over. -/
theorem add_bounded_le_deadline (now : Nat) (span : Duration) :
    now + bounded span ≤ deadline now span := by
  unfold deadline tick
  omega

/-- A timer goes off less than a tick late. -/
theorem deadline_lt (now : Nat) (span : Duration) :
    deadline now span < now + bounded span + tick := by
  unfold deadline tick
  omega

/-- A timer goes off no earlier than it was set. -/
theorem le_deadline (now : Nat) (span : Duration) : now ≤ deadline now span :=
  Nat.le_trans (Nat.le_add_right _ _) (add_bounded_le_deadline now span)

/-- A span that a timer can wait is over when the timer goes off. -/
theorem add_le_deadline {now : Nat} {span : Duration}
    (short : span.nanoseconds ≤ longest.nanoseconds) :
    now + span.nanoseconds ≤ deadline now span := by
  have := add_bounded_le_deadline now span
  rwa [bounded, Nat.min_eq_left short] at this

end NamedData.Sync.Clock
