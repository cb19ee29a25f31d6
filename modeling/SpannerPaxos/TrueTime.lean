import Mathlib.Data.Int.Notation

/-! # TrueTime

Timestamps are nanoseconds since the Unix epoch, as an unbounded integer; the
source's have a range, which `SpannerPaxos.Overflow` is about.  A member reads
its local clock through `Utc::now()`; the reading is an input of every function
here, since each call of the source makes one of its own.  `TrueTime.now` widens
a reading to the interval that is meant to contain the true time, and
`TimeInterval.Contains` says that it does.
-/
namespace SpannerPaxos

/-- A `DateTime<Utc>`, in nanoseconds since the Unix epoch. -/
abbrev DateTime := Int

/-- A signed duration in nanoseconds. -/
abbrev Duration := Int

def Duration.milliseconds (n : Int) : Duration := n * 1000000

def Duration.seconds (n : Int) : Duration := n * 1000000000

/-- `DateTime::<Utc>::UNIX_EPOCH`. -/
def DateTime.unixEpoch : DateTime := 0

/-- A clock reading with its uncertainty. -/
structure TimeInterval where
  earliest : DateTime
  latest : DateTime
  deriving DecidableEq

namespace TimeInterval

/-- The interval contains the true time `t`. -/
def Contains (i : TimeInterval) (t : DateTime) : Prop := i.earliest ≤ t ∧ t ≤ i.latest

end TimeInterval

namespace TrueTime

/-- `UNCERTAINTY_MS`. -/
def uncertainty : Duration := Duration.milliseconds 7

/-- The bounded interval around the local clock reading `utc`. -/
def now (utc : DateTime) : TimeInterval := ⟨utc - uncertainty, utc + uncertainty⟩

/-- The timestamp is definitely in the future. -/
def before (timestamp utc : DateTime) : Bool := decide (timestamp > (now utc).latest)

/-- The timestamp is definitely in the past. -/
def after (timestamp utc : DateTime) : Bool := decide (timestamp < (now utc).earliest)

/-- `commit_wait` polls until `after` answers true; `utc` is the reading of the
poll it would stop at, and the answer says whether it stops there. -/
def commitWait (time utc : DateTime) : Bool := after time utc

/-- A reading whose interval contains the true time. -/
abbrev Reads (utc t : DateTime) : Prop := (now utc).Contains t

variable {timestamp utc t : DateTime}

@[simp] theorem after_iff : after timestamp utc = true ↔ timestamp < (now utc).earliest := by
  simp [after]

@[simp] theorem before_iff : before timestamp utc = true ↔ (now utc).latest < timestamp := by
  simp [before]

/-- What a correct clock calls past is past. -/
theorem lt_of_after (hr : Reads utc t) (h : after timestamp utc = true) : timestamp < t :=
  Int.lt_of_lt_of_le (after_iff.mp h) hr.1

/-- A clock that shows the true time. -/
theorem reads_self (utc : DateTime) : Reads utc utc :=
  ⟨Int.sub_le_self _ (by decide), Int.le_add_of_nonneg_right (by decide)⟩

end TrueTime
end SpannerPaxos
