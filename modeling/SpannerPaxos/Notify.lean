import Mathlib.Data.Bool.Basic

/-! # Notifications

A cell that wakes the one task waiting on it.  A signal reaches the task that waits; of
the signals that find nobody waiting one is kept.  A wait that is given up passes on what
has reached it.  So signals may coalesce, but after a signal there is one to be had until
it is taken.
-/

/-- A notification cell on which at most one task waits. -/
inductive Notify where
  /-- Nobody waits; a signal may have been kept. -/
  | idle (permit : Bool)
  /-- A task waits, and nothing has come. -/
  | waiting
  /-- A signal has reached the task that waits; another may have come behind it. -/
  | reached (permit : Bool)
  deriving DecidableEq

namespace Notify

def new : Notify := idle false

def notifyOne : Notify → Notify
  | idle _ => idle true
  | waiting => reached false
  | reached _ => reached true

/-- The wait is looked at: whether a signal is to be had, which is then taken. -/
def poll : Notify → Bool × Notify
  | idle true => (true, idle false)
  | idle false => (false, waiting)
  | waiting => (false, waiting)
  | reached permit => (true, idle permit)

/-- The wait is given up. -/
def abandon : Notify → Notify
  | idle permit => idle permit
  | waiting => idle false
  | reached _ => idle true

/-- How many signals are to be had. -/
def signals : Notify → Nat
  | idle permit => permit.toNat
  | waiting => 0
  | reached permit => permit.toNat + 1

variable (n : Notify)

theorem signals_notifyOne : 0 < n.notifyOne.signals ∧ n.notifyOne.signals ≤ n.signals + 1 := by
  rcases n with (_ | _) | _ | (_ | _) <;> decide

/-- A look finds a signal if there is one, and takes one. -/
theorem poll_spec :
    n.poll.1 = decide (0 < n.signals) ∧ n.poll.2.signals + n.poll.1.toNat = n.signals := by
  rcases n with (_ | _) | _ | (_ | _) <;> decide

/-- Giving up a wait loses no signal, unless there is another. -/
theorem signals_abandon :
    (0 < n.abandon.signals ↔ 0 < n.signals) ∧ n.abandon.signals ≤ n.signals := by
  rcases n with (_ | _) | _ | (_ | _) <;> decide

end Notify
