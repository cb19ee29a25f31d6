import SpannerPaxos.Notify
import SpannerPaxos.Roles
import SpannerPaxos.Runs

/-! # The tasks of a countdown clock

A start that finds the running flag clear sets it and spawns a background task, which waits,
calls back and clears the flag.  The owner starts, resets and cancels at any time, between
any two looks that the task takes at its token, at the reset and at its sleep.  Still there
is never more than one task, and the clock does what `CountDownClock` says; a reset holds
the callback off for a whole wait, and a cancellation for good, unless the task has just
looked past them.
-/
namespace SpannerPaxos
namespace Countdown

/-- Where a background task stands. -/
inductive Task where
  /-- At the top of its loop. -/
  | looping
  /-- The token is looked at next. -/
  | atToken (deadline : Nat)
  /-- The reset is looked at next. -/
  | atReset (deadline : Nat)
  /-- The sleep is looked at next. -/
  | atSleep (deadline : Nat)
  | suspended (deadline : Nat)
  /-- Out of its loop, with the running flag still to be cleared. -/
  | leaving (called : Bool)
  deriving DecidableEq

/-- The shortest random wait, in milliseconds. -/
def minRandomWait : Nat := 30

/-- The waits that a start allows, in milliseconds. -/
structure Waits where
  least : Nat
  greatest : Nat
  deriving DecidableEq

/-- `start_random` panics unless `max` is above the shortest wait. -/
def startRandom (max : Nat) : Option Waits :=
  if max > minRandomWait then some ⟨minRandomWait, max⟩ else none

def startFixed (ms : Nat) : Waits := ⟨ms, ms⟩

end Countdown

/-- A countdown clock with its background tasks, at a time in milliseconds. -/
structure Countdown where
  now : Nat
  isRunning : Bool
  resetNotify : Notify
  cancelled : Bool
  tasks : List Countdown.Task
  /-- How many tasks have been spawned. -/
  spawned : Nat
  /-- The times of the callbacks, oldest first. -/
  calls : List Nat
  deriving DecidableEq

namespace Countdown

inductive Label where
  | start
  | reset
  | cancel
  /-- Time passes. -/
  | tick (ms : Nat)
  /-- The `i`-th task begins a wait. -/
  | await (i : Nat) (ms : Nat)
  /-- The `i`-th task looks at what it waits for next. -/
  | look (i : Nat)
  | wake (i : Nat)
  /-- The `i`-th task clears the running flag and ends. -/
  | clear (i : Nat)
  deriving DecidableEq

def new : Countdown := ⟨0, false, Notify.new, false, [], 0, []⟩

/-- A task looks at its token, at the reset, or at its sleep. -/
def look (s : Countdown) (i : Nat) : Task → Option Countdown
  | .atToken deadline =>
    if s.cancelled then
      some { s with tasks := s.tasks.set i (.leaving false), resetNotify := s.resetNotify.abandon }
    else some { s with tasks := s.tasks.set i (.atReset deadline) }
  | .atReset deadline =>
    if s.resetNotify.poll.1 then
      some { s with tasks := s.tasks.set i .looping, resetNotify := s.resetNotify.poll.2 }
    else some { s with
      tasks := s.tasks.set i (.atSleep deadline), resetNotify := s.resetNotify.poll.2 }
  | .atSleep deadline =>
    if deadline ≤ s.now then
      some { s with
        tasks := s.tasks.set i (.leaving true)
        resetNotify := s.resetNotify.abandon
        calls := s.calls ++ [s.now] }
    else some { s with tasks := s.tasks.set i (.suspended deadline) }
  | .looping | .suspended _ | .leaving _ => none

def step (waits : Waits) (s : Countdown) : Label → Option Countdown
  | .start =>
    -- `compare_exchange` fails while the flag is set
    if s.isRunning then some s
    else some { s with
      isRunning := true, tasks := s.tasks ++ [.looping], spawned := s.spawned + 1 }
  | .reset => some { s with resetNotify := s.resetNotify.notifyOne }
  | .cancel => some { s with cancelled := true }
  | .tick ms => some { s with now := s.now + ms }
  | .await i ms =>
    if s.tasks[i]? = some .looping ∧ waits.least ≤ ms ∧ ms ≤ waits.greatest then
      some { s with tasks := s.tasks.set i (.atToken (s.now + ms)) }
    else none
  | .look i => s.tasks[i]?.bind (s.look i)
  | .wake i =>
    match s.tasks[i]? with
    | some (.suspended deadline) => some { s with tasks := s.tasks.set i (.atToken deadline) }
    | _ => none
  | .clear i =>
    match s.tasks[i]? with
    | some (.leaving _) => some { s with isRunning := false, tasks := s.tasks.eraseIdx i }
    | _ => none

variable {waits : Waits} {s s' t : Countdown}

/-! ## One task -/

/-- The flag is clear and there is no task, or it is set and there is one. -/
inductive Tasked (s : Countdown) : Option Task → Prop
  | idle (hflag : s.isRunning = false) (htasks : s.tasks = []) : Tasked s none
  | busy (task : Task) (hflag : s.isRunning = true) (htasks : s.tasks = [task]) :
    Tasked s (some task)

/-- **What a step can do** with one task at most. -/
inductive Moves (waits : Waits) (s : Countdown) :
    Option Task → Label → Option Task → Countdown → Prop
  | keeps (task : Task) : Moves waits s (some task) .start (some task) s
  | spawns : Moves waits s none .start (some .looping)
      { s with isRunning := true, tasks := [.looping], spawned := s.spawned + 1 }
  | resets (task : Option Task) :
    Moves waits s task .reset task { s with resetNotify := s.resetNotify.notifyOne }
  | cancels (task : Option Task) : Moves waits s task .cancel task { s with cancelled := true }
  | ticks (task : Option Task) (ms : Nat) :
    Moves waits s task (.tick ms) task { s with now := s.now + ms }
  | awaits (ms : Nat) (hleast : waits.least ≤ ms) :
    Moves waits s (some .looping) (.await 0 ms) (some (.atToken (s.now + ms)))
      { s with tasks := [.atToken (s.now + ms)] }
  | breaks (deadline : Nat) (hcancelled : s.cancelled = true) :
    Moves waits s (some (.atToken deadline)) (.look 0) (some (.leaving false))
      { s with tasks := [.leaving false], resetNotify := s.resetNotify.abandon }
  | passesToken (deadline : Nat) (hcancelled : s.cancelled = false) :
    Moves waits s (some (.atToken deadline)) (.look 0) (some (.atReset deadline))
      { s with tasks := [.atReset deadline] }
  | restarts (deadline : Nat) :
    Moves waits s (some (.atReset deadline)) (.look 0) (some .looping)
      { s with tasks := [.looping], resetNotify := s.resetNotify.poll.2 }
  | passesReset (deadline : Nat) (hsignals : s.resetNotify.signals = 0) :
    Moves waits s (some (.atReset deadline)) (.look 0) (some (.atSleep deadline))
      { s with tasks := [.atSleep deadline], resetNotify := s.resetNotify.poll.2 }
  | calls (deadline : Nat) (hover : deadline ≤ s.now) :
    Moves waits s (some (.atSleep deadline)) (.look 0) (some (.leaving true))
      { s with
        tasks := [.leaving true]
        resetNotify := s.resetNotify.abandon
        calls := s.calls ++ [s.now] }
  | suspends (deadline : Nat) :
    Moves waits s (some (.atSleep deadline)) (.look 0) (some (.suspended deadline))
      { s with tasks := [.suspended deadline] }
  | wakes (deadline : Nat) :
    Moves waits s (some (.suspended deadline)) (.wake 0) (some (.atToken deadline))
      { s with tasks := [.atToken deadline] }
  | clears (called : Bool) :
    Moves waits s (some (.leaving called)) (.clear 0) none
      { s with isRunning := false, tasks := [] }

/-- The task that a label names is the one there is. -/
theorem Tasked.named {task : Option Task} (h : s.Tasked task) {i : Nat} {named : Task}
    (hi : s.tasks[i]? = some named) : i = 0 ∧ task = some named ∧ s.tasks = [named] := by
  cases h with
  | idle hflag htasks =>
    rw [htasks] at hi
    cases hi
  | busy only hflag htasks =>
    rw [htasks] at hi
    cases i with
    | zero =>
      cases Option.some.inj hi
      exact ⟨rfl, rfl, htasks⟩
    | succ i => cases hi

theorem Tasked.flag {task : Task} (h : s.Tasked (some task)) : s.isRunning = true := by
  cases h with
  | busy _ hflag => exact hflag

/-- The one task looks at what it waits for next. -/
theorem Tasked.look {task : Task} (h : s.Tasked (some task)) (htasks : s.tasks = [task])
    (hlook : s.look 0 task = some s') :
    ∃ task', s'.Tasked (some task') ∧ Moves waits s (some task) (.look 0) (some task') s' := by
  have hflag := h.flag
  have hset : ∀ task' : Task, s.tasks.set 0 task' = [task'] := fun task' => by rw [htasks]; rfl
  cases task with
  | looping | suspended _ | leaving _ => cases hlook
  | atToken deadline =>
    simp only [Countdown.look, hset] at hlook
    split at hlook
    · rename_i hcancelled
      cases Option.some.inj hlook
      exact ⟨_, .busy _ hflag rfl, .breaks deadline hcancelled⟩
    · rename_i hcancelled
      cases Option.some.inj hlook
      exact ⟨_, .busy _ hflag rfl, .passesToken deadline (Bool.eq_false_of_not_eq_true hcancelled)⟩
  | atReset deadline =>
    simp only [Countdown.look, hset] at hlook
    split at hlook
    · cases Option.some.inj hlook
      exact ⟨_, .busy _ hflag rfl, .restarts deadline⟩
    · rename_i hready
      cases Option.some.inj hlook
      refine ⟨_, .busy _ hflag rfl, .passesReset deadline ?_⟩
      rw [s.resetNotify.poll_spec.1, decide_eq_true_eq] at hready
      exact Nat.eq_zero_of_not_pos hready
  | atSleep deadline =>
    simp only [Countdown.look, hset] at hlook
    split at hlook
    · rename_i hover
      cases Option.some.inj hlook
      exact ⟨_, .busy _ hflag rfl, .calls deadline hover⟩
    · cases Option.some.inj hlook
      exact ⟨_, .busy _ hflag rfl, .suspends deadline⟩

theorem Tasked.step {task : Option Task} (h : s.Tasked task) {l : Label}
    (hstep : s.step waits l = some s') :
    ∃ task', s'.Tasked task' ∧ Moves waits s task l task' s' := by
  cases l with
  | start =>
    simp only [Countdown.step] at hstep
    split at hstep
    · rename_i hrunning
      cases Option.some.inj hstep
      cases h with
      | idle hflag =>
        rw [hflag] at hrunning
        cases hrunning
      | busy task hflag htasks => exact ⟨_, .busy task hflag htasks, .keeps task⟩
    · rename_i hrunning
      cases Option.some.inj hstep
      cases h with
      | idle hflag htasks =>
        rw [htasks]
        exact ⟨_, .busy .looping rfl rfl, .spawns⟩
      | busy _ hflag => exact absurd hflag hrunning
  | reset =>
    cases Option.some.inj hstep
    refine ⟨task, ?_, .resets task⟩
    cases h with
    | idle hflag htasks => exact .idle hflag htasks
    | busy task hflag htasks => exact .busy task hflag htasks
  | cancel =>
    cases Option.some.inj hstep
    refine ⟨task, ?_, .cancels task⟩
    cases h with
    | idle hflag htasks => exact .idle hflag htasks
    | busy task hflag htasks => exact .busy task hflag htasks
  | tick ms =>
    cases Option.some.inj hstep
    refine ⟨task, ?_, .ticks task ms⟩
    cases h with
    | idle hflag htasks => exact .idle hflag htasks
    | busy task hflag htasks => exact .busy task hflag htasks
  | await i ms =>
    simp only [Countdown.step] at hstep
    split at hstep
    · rename_i hloop
      obtain ⟨rfl, rfl, htasks⟩ := h.named hloop.1
      cases Option.some.inj hstep
      rw [htasks]
      exact ⟨_, .busy _ h.flag rfl, .awaits ms hloop.2.1⟩
    · cases hstep
  | look i =>
    obtain ⟨named, hnamed, hlook⟩ := Option.bind_eq_some_iff.mp hstep
    obtain ⟨rfl, rfl, htasks⟩ := h.named hnamed
    obtain ⟨task', htasked, hmoves⟩ := h.look htasks hlook
    exact ⟨_, htasked, hmoves⟩
  | wake i =>
    simp only [Countdown.step] at hstep
    split at hstep
    · rename_i deadline hnamed
      obtain ⟨rfl, rfl, htasks⟩ := h.named hnamed
      cases Option.some.inj hstep
      rw [htasks]
      exact ⟨_, .busy _ h.flag rfl, .wakes deadline⟩
    · cases hstep
  | clear i =>
    simp only [Countdown.step] at hstep
    split at hstep
    · rename_i called hnamed
      obtain ⟨rfl, rfl, htasks⟩ := h.named hnamed
      cases Option.some.inj hstep
      rw [htasks]
      exact ⟨none, .idle rfl rfl, .clears called⟩
    · cases hstep

theorem tasked_of_reaches (hrun : Reaches (Countdown.step waits) new t) : ∃ task, t.Tasked task := by
  refine hrun.invariant (P := fun t => ∃ task, t.Tasked task) ⟨none, .idle rfl rfl⟩ ?_
  rintro s l s' ⟨task, htask⟩ _ hstep
  obtain ⟨task', htask', _⟩ := htask.step hstep
  exact ⟨task', htask'⟩

/-! ## The clock of the roles -/

/-- What a role knows of its clock. -/
def phase (s : Countdown) : CountDownTask :=
  match s.tasks with
  | [] => .none
  | .leaving _ :: _ => .fired
  | _ :: _ => .waiting

inductive ClockLabel where
  | start
  | fires
  | clears

/-- The clock as the roles have it, with the number of times it has fired. -/
def clockStep (c : CountDownTask × Nat) : ClockLabel → Option (CountDownTask × Nat)
  | .start => some ((CountDownClock.start ⟨c.1, false⟩).task, c.2)
  | .fires => if c.1 = .waiting then some (.fired, c.2 + 1) else none
  | .clears => if c.1 = .fired then some (.none, c.2) else none

/-- The calls that a task has still to make. -/
def Task.owed : Option Task → Nat
  | none | some (.leaving _) => 0
  | some .looping | some (.atToken _) | some (.atReset _) | some (.atSleep _)
  | some (.suspended _) => 1

/-- A clock that nobody has cancelled: it has made no more calls than tasks were spawned,
and stands where the clock of a role stands after as many. -/
structure Clocked (s : Countdown) (task : Option Task) : Prop where
  tasked : s.Tasked task
  running : s.cancelled = false
  calls : s.calls.length + Task.owed task ≤ s.spawned
  clock : Reaches clockStep (.none, 0) (s.phase, s.calls.length)

theorem Clocked.step {task : Option Task} (h : s.Clocked task) {l : Label} (hl : l ≠ .cancel)
    (hstep : s.step waits l = some s') : ∃ task', s'.Clocked task' := by
  obtain ⟨task', htasked, hmoves⟩ := h.tasked.step hstep
  have hclock := h.clock
  have hcalls := h.calls
  have hbusy : ∀ {task : Task}, s.Tasked (some task) → s.tasks = [task] := by
    intro task hs
    cases hs with
    | busy _ _ htasks => exact htasks
  refine ⟨task', htasked, ?_, ?_, ?_⟩
  · cases hmoves with
    | cancels => exact absurd rfl hl
    | _ => exact h.running
  · cases hmoves with
    | cancels => exact absurd rfl hl
    | spawns => exact Nat.add_le_add_right hcalls 1
    | calls =>
      rw [List.length_append]
      exact hcalls
    | breaks _ hcancelled =>
      rw [h.running] at hcancelled
      cases hcancelled
    | _ => exact hcalls
  · cases hmoves with
    | cancels => exact absurd rfl hl
    | keeps | resets | ticks => exact hclock
    | breaks _ hcancelled =>
      rw [h.running] at hcancelled
      cases hcancelled
    | spawns =>
      refine hclock.tail .start trivial ?_
      cases h.tasked with
      | idle _ htasks =>
        rw [phase, htasks]
        rfl
    | awaits | passesToken | restarts | passesReset | suspends | wakes =>
      rw [phase, hbusy h.tasked] at hclock
      exact hclock
    | calls =>
      rw [phase, hbusy h.tasked] at hclock
      refine hclock.tail .fires trivial ?_
      rw [List.length_append]
      rfl
    | clears =>
      rw [phase, hbusy h.tasked] at hclock
      exact hclock.tail .clears trivial rfl

/-- **A clock is what its role takes it for**: until it is cancelled there is one task at
most, and the flag is set while there is one; the clock has called back no more often than
it has spawned a task, and has gone through the phases that the roles' clock goes through,
firing as often. -/
theorem clocked_of_runs
    (hrun : Runs (Countdown.step waits) (fun _ l => l ≠ .cancel) new t) :
    t.tasks.length ≤ 1 ∧ t.isRunning = decide (t.phase ≠ .none) ∧ t.calls.length ≤ t.spawned ∧
      Reaches clockStep (.none, 0) (t.phase, t.calls.length) := by
  obtain ⟨task, hend⟩ : ∃ task, t.Clocked task :=
    hrun.invariant (P := fun t => ∃ task, t.Clocked task)
      ⟨none, .idle rfl rfl, rfl, Nat.le_refl 0, .refl _⟩
      fun _ _ _ ⟨_, ha⟩ hl hstep => ha.step hl hstep
  refine ⟨?_, ?_, (Nat.le_add_right _ _).trans hend.calls, hend.clock⟩
  · cases hend.tasked with
    | idle _ htasks =>
      rw [htasks]
      exact Nat.zero_le 1
    | busy task _ htasks =>
      rw [htasks]
      exact Nat.le_refl 1
  · cases hend.tasked with
    | idle hflag htasks =>
      rw [hflag, phase, htasks]
      rfl
    | busy task hflag htasks =>
      rw [hflag, phase, htasks]
      cases task <;> rfl

/-- A second start finds the flag set; the clock calls back after five milliseconds. -/
theorem clocked_of_runs_called :
    ∃ t, exec (Countdown.step (startFixed 5)) new
        [.start, .start, .await 0 5, .look 0, .look 0, .look 0, .tick 5, .wake 0, .look 0, .look 0,
          .look 0] = some t ∧
      t.calls = [5] ∧
      (t.tasks.length ≤ 1 ∧ t.isRunning = decide (t.phase ≠ .none) ∧ t.calls.length ≤ t.spawned ∧
        Reaches clockStep (.none, 0) (t.phase, t.calls.length)) :=
  ⟨_, rfl, rfl, @clocked_of_runs (startFixed 5) _ (Runs.of_exec_of_forall
    [.start, .start, .await 0 5, .look 0, .look 0, .look 0, .tick 5, .wake 0, .look 0, .look 0,
      .look 0] (fun l hl _ hcancel => absurd hl (hcancel ▸ by decide)) rfl)⟩

/-! ## Resets and cancellations -/

/-- Nothing is called before `floor`: the task is to begin another wait, or waits until
then, or will find the reset. -/
def Held (floor : Nat) (s : Countdown) : Option Task → Prop
  | none | some .looping | some (.leaving _) => True
  | some (.atToken deadline) | some (.atReset deadline) | some (.suspended deadline) =>
    floor ≤ deadline ∨ 0 < s.resetNotify.signals
  | some (.atSleep deadline) => floor ≤ deadline

/-- Since its calls were `base`, the clock has called from `floor` on only, and goes on so. -/
structure HoldsOff (least floor : Nat) (base : List Nat) (s : Countdown) : Prop where
  task : ∃ task, s.Tasked task ∧ s.Held floor task
  now : floor ≤ s.now + least
  calls : ∃ later, s.calls = base ++ later ∧ ∀ time ∈ later, floor ≤ time

theorem HoldsOff.step {floor : Nat} {base : List Nat} (h : s.HoldsOff waits.least floor base)
    {l : Label} (hstep : s.step waits l = some s') : s'.HoldsOff waits.least floor base := by
  obtain ⟨⟨task, htasked, hheld⟩, hnow, later, hcalls, hlater⟩ := h
  obtain ⟨task', htasked', hmoves⟩ := htasked.step hstep
  cases hmoves with
  | keeps | cancels => exact ⟨⟨_, htasked', hheld⟩, hnow, later, hcalls, hlater⟩
  | spawns | clears | breaks | restarts => exact ⟨⟨_, htasked', trivial⟩, hnow, later, hcalls, hlater⟩
  | ticks task ms =>
    refine ⟨⟨_, htasked', hheld⟩, ?_, later, hcalls, hlater⟩
    dsimp only
    omega
  | resets task =>
    refine ⟨⟨_, htasked', ?_⟩, hnow, later, hcalls, hlater⟩
    have hsignal := s.resetNotify.signals_notifyOne.1
    cases task with
    | none => trivial
    | some task =>
      cases task with
      | looping | leaving _ => trivial
      | atToken _ | atReset _ | suspended _ => exact Or.inr hsignal
      | atSleep deadline => exact hheld
  | awaits ms hleast =>
    refine ⟨⟨_, htasked', Or.inl ?_⟩, hnow, later, hcalls, hlater⟩
    omega
  | passesToken | wakes => exact ⟨⟨_, htasked', hheld⟩, hnow, later, hcalls, hlater⟩
  | passesReset deadline hsignals =>
    -- no reset is to be had, so the wait is long enough
    have hle : floor ≤ deadline := by
      rcases hheld with hle | hsignal
      · exact hle
      · omega
    exact ⟨⟨_, htasked', hle⟩, hnow, later, hcalls, hlater⟩
  | suspends => exact ⟨⟨_, htasked', Or.inl hheld⟩, hnow, later, hcalls, hlater⟩
  | calls deadline hover =>
    refine ⟨⟨_, htasked', trivial⟩, hnow, later ++ [s.now], ?_, fun time htime => ?_⟩
    · rw [← List.append_assoc, ← hcalls]
    · rcases List.mem_append.mp htime with hold | hnew
      · exact hlater time hold
      · rw [List.mem_singleton.mp hnew]
        exact Nat.le_trans hheld hover

/-- **A reset holds the callback off for a whole wait**: a clock that is reset calls back no
earlier than its shortest wait from then on, whatever else is done to it, unless its task
has just looked past the reset. -/
theorem reset_holds_off (hrun : Reaches (Countdown.step waits) new s)
    (hpast : ∀ deadline, s.tasks ≠ [.atSleep deadline])
    (hreset : s.step waits .reset = some s') (hlater : Reaches (Countdown.step waits) s' t) :
    ∃ later, t.calls = s.calls ++ later ∧ ∀ time ∈ later, s.now + waits.least ≤ time := by
  obtain ⟨task, htask⟩ := tasked_of_reaches hrun
  cases Option.some.inj hreset
  have hsignal := s.resetNotify.signals_notifyOne.1
  have hheld : Held (s.now + waits.least) { s with resetNotify := s.resetNotify.notifyOne }
      task := by
    cases htask with
    | idle => trivial
    | busy task _ htasks =>
      cases task with
      | looping | leaving _ => trivial
      | atToken _ | atReset _ | suspended _ => exact Or.inr hsignal
      | atSleep deadline => exact absurd htasks (hpast deadline)
  obtain ⟨_, htask', _⟩ := htask.step hreset
  have hstart : HoldsOff waits.least (s.now + waits.least) s.calls
      { s with resetNotify := s.resetNotify.notifyOne } :=
    ⟨⟨task, by cases htask with
      | idle hflag htasks => exact .idle hflag htasks
      | busy task hflag htasks => exact .busy task hflag htasks, hheld⟩, Nat.le_refl _, [],
      (List.append_nil _).symm, fun _ hmem => by cases hmem⟩
  have hend : t.HoldsOff waits.least (s.now + waits.least) s.calls :=
    hlater.invariant hstart fun _ _ _ ha _ hstep => HoldsOff.step ha hstep
  exact hend.calls

/-- A random wait is reset at its end, and is waited out again. -/
theorem reset_holds_off_random :
    startRandom 60 = some ⟨30, 60⟩ ∧
    ∃ s s' t,
      exec (Countdown.step ⟨30, 60⟩) new
        [.start, .await 0 40, .look 0, .look 0, .look 0, .tick 40] = some s ∧
      s.step ⟨30, 60⟩ .reset = some s' ∧
      exec (Countdown.step ⟨30, 60⟩) s'
        [.wake 0, .look 0, .look 0, .await 0 35, .look 0, .look 0, .tick 35, .look 0] = some t ∧
      t.calls = [75] ∧
      ∃ later, t.calls = s.calls ++ later ∧ ∀ time ∈ later, s.now + 30 ≤ time :=
  ⟨rfl, _, _, _, rfl, rfl, rfl, rfl,
    @reset_holds_off ⟨30, 60⟩ _ _ _
      (Runs.of_exec [.start, .await 0 40, .look 0, .look 0, .look 0, .tick 40] rfl)
      (fun _ h => by cases h) rfl
      (Runs.of_exec [.wake 0, .look 0, .look 0, .await 0 35, .look 0, .look 0, .tick 35, .look 0]
        rfl)⟩

/-- The calls that a cancelled clock can still make: one, where the task has looked past
its token. -/
def Task.escaping : Option Task → Nat
  | some (.atReset _) | some (.atSleep _) => 1
  | none | some .looping | some (.atToken _) | some (.suspended _) | some (.leaving _) => 0

/-- **A cancellation is final**: a cancelled clock calls back once more at most, and only if
its task has just looked past the token; what is started afterwards never calls back. -/
theorem cancel_is_final (hrun : Reaches (Countdown.step waits) new s) (hcancelled : s.cancelled = true)
    (hlater : Reaches (Countdown.step waits) s t) :
    ∃ task, s.Tasked task ∧ t.calls.length ≤ s.calls.length + Task.escaping task := by
  obtain ⟨task, htask⟩ := tasked_of_reaches hrun
  have hend : t.cancelled = true ∧ ∃ task', t.Tasked task' ∧
      t.calls.length + Task.escaping task' ≤ s.calls.length + Task.escaping task := by
    refine hlater.invariant (P := fun t => t.cancelled = true ∧ ∃ task', t.Tasked task' ∧
      t.calls.length + Task.escaping task' ≤ s.calls.length + Task.escaping task)
      ⟨hcancelled, task, htask, Nat.le_refl _⟩ ?_
    rintro a l b ⟨hcancelled, taskA, htaskA, hle⟩ _ hstep
    obtain ⟨taskB, htaskB, hmoves⟩ := htaskA.step hstep
    cases hmoves with
    | passesToken _ hno =>
      rw [hcancelled] at hno
      cases hno
    | cancels => exact ⟨rfl, _, htaskB, hle⟩
    | calls =>
      refine ⟨hcancelled, _, htaskB, ?_⟩
      rw [List.length_append]
      exact hle
    | restarts | suspends => exact ⟨hcancelled, _, htaskB, (Nat.le_add_right _ 1).trans hle⟩
    | _ => exact ⟨hcancelled, _, htaskB, hle⟩
  obtain ⟨_, task', _, hle⟩ := hend
  exact ⟨task, htask, (Nat.le_add_right _ _).trans hle⟩

/-- The clock is cancelled when its task has looked past the token and the wait is over. -/
theorem cancel_is_final_called :
    ∃ s t,
      exec (Countdown.step (startFixed 5)) new
        [.start, .await 0 5, .look 0, .tick 5, .cancel] = some s ∧
      exec (Countdown.step (startFixed 5)) s
        [.look 0, .look 0, .clear 0, .start, .await 0 5, .tick 5, .look 0] = some t ∧
      t.calls = [5] ∧ t.spawned = 2 ∧
      ∃ task, s.Tasked task ∧ t.calls.length ≤ s.calls.length + Task.escaping task :=
  ⟨_, _, rfl, rfl, rfl, rfl,
    @cancel_is_final (startFixed 5) _ _
      (Runs.of_exec [.start, .await 0 5, .look 0, .tick 5, .cancel] rfl) rfl
      (Runs.of_exec [.look 0, .look 0, .clear 0, .start, .await 0 5, .tick 5, .look 0] rfl)⟩

end Countdown
end SpannerPaxos
