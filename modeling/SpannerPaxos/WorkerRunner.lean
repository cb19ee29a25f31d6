import SpannerPaxos.Runs

/-! # The worker runner

A `WorkerRunner` starts a background task and stops it again.  Its status, its task and
the token that stops the task change one after the other, and a method that fails in
between returns with the rest undone.  To stop, it cancels the task's token and waits for
the task in a race against a token; the race is given the token that has just been
cancelled, and so ends at its first poll.

A token and a task are given by their future: what the race finds of them when it is
polled for the `i`-th time.
-/
namespace SpannerPaxos

inductive RunStatus where
  | idle
  | active
  deriving DecidableEq

/-- A cancellation token, by the polls of the race that find it cancelled. -/
structure CancellationToken where
  isCancelled : Nat → Bool
  isCancelled_succ : ∀ i, isCancelled i = true → isCancelled (i + 1) = true

namespace CancellationToken

/-- A child is cancelled whenever its parent is. -/
def childToken (token : CancellationToken) : CancellationToken := token

def cancel (_token : CancellationToken) : CancellationToken := ⟨fun _ => true, fun _ h => h⟩

/-- A token that nobody cancels. -/
def never : CancellationToken := ⟨fun _ => false, fun _ h => h⟩

end CancellationToken

/-- A spawned task, by the polls of the race that find it complete, and its result; a
panic of the task counts as an error. -/
structure WorkerTask where
  completed : Nat → Bool
  completed_succ : ∀ i, completed i = true → completed (i + 1) = true
  result : Except String Unit

/-- A task that runs on for so many polls and then completes. -/
def WorkerTask.after (polls : Nat) (result : Except String Unit) : WorkerTask where
  completed i := decide (polls ≤ i)
  completed_succ _ h := decide_eq_true (Nat.le_succ_of_le (of_decide_eq_true h))
  result := result

/-- How the race for a task ends. -/
inductive RaceEnd where
  | finished (result : Except String Unit)
  /-- The task is aborted at this poll. -/
  | aborted (poll : Nat)

structure WorkerRunner where
  workerTask : Option WorkerTask
  runStatus : RunStatus
  stopToken : Option CancellationToken

namespace WorkerRunner
variable (self : WorkerRunner)

def new : WorkerRunner := ⟨none, .idle, none⟩

/-- The status moves on if it is the expected one; the answer says whether it did. -/
def trySwitchRunStatus (toRunning : Bool) : WorkerRunner × Bool :=
  let (expected, next) := if toRunning then (RunStatus.idle, RunStatus.active)
    else (RunStatus.active, RunStatus.idle)
  if self.runStatus = expected then ({ self with runStatus := next }, true) else (self, false)

/-- `onStart` is what the worker's `on_start` returns. -/
def start (token : CancellationToken) (onStart : Except String WorkerTask) :
    WorkerRunner × Except String Unit :=
  match self.trySwitchRunStatus true with
  | (self, false) => (self, .ok ())
  | (self, true) =>
    let self := { self with stopToken := some token.childToken }
    match onStart with
    | .error e => (self, .error e)
    | .ok task => ({ self with workerTask := some task }, .ok ())

def reset : WorkerRunner :=
  ({ self with workerTask := none, stopToken := none }.trySwitchRunStatus false).1

/-- The race between the task and the token, from the `poll`-th poll on and for so many
polls; `taskFirst` says in which polls the branch of the task comes first. -/
def stopWorkerTask (task : WorkerTask) (token : CancellationToken) (taskFirst : Nat → Bool) :
    (polls : Nat) → (poll : Nat) → Option RaceEnd
  | 0, _ => none
  | polls + 1, poll =>
    if task.completed poll ∧ (taskFirst poll ∨ ¬ token.isCancelled poll) then
      some (.finished task.result)
    else if token.isCancelled poll then some (.aborted poll)
    else stopWorkerTask task token taskFirst polls (poll + 1)

/-- What a stop leaves behind: the runner, the result, and when the task was aborted. -/
structure Stopped where
  runner : WorkerRunner
  result : Except String Unit
  abortedAt : Option Nat

/-- `onStop` is what the worker's `on_stop` makes of the caller's token; `none` if the race
does not end within the polls. -/
def stop (token : CancellationToken) (onStop : CancellationToken → Except String Unit)
    (taskFirst : Nat → Bool) (polls : Nat) : Option Stopped :=
  match self.stopToken with
  | none => some ⟨self, .ok (), none⟩
  | some stopToken =>
    let self := { self with stopToken := none }
    let stopToken := stopToken.cancel
    match onStop token with
    | .error e => some ⟨self, .error e, none⟩
    | .ok () =>
      match self.workerTask with
      | none => some ⟨self.reset, .ok (), none⟩
      | some task =>
        let self := { self with workerTask := none }
        (stopWorkerTask task stopToken taskFirst polls 0).map fun
          | .finished (.ok ()) => ⟨self.reset, .ok (), none⟩
          | .finished (.error e) => ⟨self, .error e, none⟩
          | .aborted poll =>
            ⟨self, .error "Shutdown cancelled: worker task was forcefully aborted", some poll⟩

/-! ## The race -/

variable {self} {task : WorkerTask} {token : CancellationToken}
  {onStop : CancellationToken → Except String Unit} {taskFirst : Nat → Bool}

/-- A race against a token that nobody cancels waits for the task. -/
theorem stopWorkerTask_waits (htoken : ∀ i, token.isCancelled i = false) {n poll : Nat}
    (hcompleted : task.completed (poll + n) = true) :
    ∃ polls, stopWorkerTask task token taskFirst polls poll = some (.finished task.result) := by
  have hnot : ¬ token.isCancelled poll = true := by simp [htoken]
  induction n generalizing poll with
  | zero => exact ⟨1, by rw [stopWorkerTask, if_pos ⟨hcompleted, Or.inr hnot⟩]⟩
  | succ n ih =>
    by_cases hnow : task.completed poll = true
    · exact ⟨1, by rw [stopWorkerTask, if_pos ⟨hnow, Or.inr hnot⟩]⟩
    · have hlater : task.completed (poll + 1 + n) = true := by
        rwa [Nat.add_assoc, Nat.add_comm 1 n]
      obtain ⟨polls, hpolls⟩ := ih hlater (by simp [htoken])
      refine ⟨polls + 1, ?_⟩
      rw [stopWorkerTask, if_neg fun h => hnow h.1, if_neg hnot]
      exact hpolls

/-- The task wins the first poll: it is complete, and its branch comes first. -/
def WinsFirstPoll (task : WorkerTask) (taskFirst : Nat → Bool) : Prop :=
  task.completed 0 = true ∧ taskFirst 0 = true

/-- **A race against a cancelled token ends at its first poll.** -/
theorem stopWorkerTask_cancel (task : WorkerTask) (token : CancellationToken)
    (taskFirst : Nat → Bool) (polls : Nat) :
    (WinsFirstPoll task taskFirst ∧
      stopWorkerTask task token.cancel taskFirst (polls + 1) 0 = some (.finished task.result)) ∨
    (¬ WinsFirstPoll task taskFirst ∧
      stopWorkerTask task token.cancel taskFirst (polls + 1) 0 = some (.aborted 0)) := by
  have hcancelled : token.cancel.isCancelled 0 = true := rfl
  rw [stopWorkerTask]
  by_cases hwins : WinsFirstPoll task taskFirst
  · exact Or.inl ⟨hwins, if_pos ⟨hwins.1, Or.inl hwins.2⟩⟩
  · refine Or.inr ⟨hwins, ?_⟩
    rw [if_neg, if_pos hcancelled]
    rintro ⟨hcompleted, hfirst | hnot⟩
    · exact hwins ⟨hcompleted, hfirst⟩
    · exact hnot hcancelled

/-- The runner was started and not stopped since. -/
structure Started (runner : WorkerRunner) (task : WorkerTask) : Prop where
  runStatus : runner.runStatus = .active
  workerTask : runner.workerTask = some task
  stopToken : ∃ token, runner.stopToken = some token

/-- **How a started runner stops** when `on_stop` succeeds: with the task's result if the
task wins the first poll, by aborting it otherwise. -/
theorem Started.stop_cases (h : self.Started task) (honStop : onStop token = .ok ())
    (taskFirst : Nat → Bool) (polls : Nat) :
    ∃ stopped, self.stop token onStop taskFirst (polls + 1) = some stopped ∧
      ((WinsFirstPoll task taskFirst ∧ stopped.result = task.result ∧ stopped.abortedAt = none ∧
          ((task.result = .ok () ∧ stopped.runner = .new) ∨
            ((∃ e, task.result = .error e) ∧ stopped.runner = ⟨none, .active, none⟩))) ∨
        (¬ WinsFirstPoll task taskFirst ∧ stopped.abortedAt = some 0 ∧
          stopped.runner = ⟨none, .active, none⟩)) := by
  obtain ⟨hactive, htask, stopToken, hstopToken⟩ := h
  unfold WorkerRunner.stop
  rw [hstopToken, honStop]
  dsimp only
  rw [htask]
  dsimp only
  rcases stopWorkerTask_cancel task stopToken taskFirst polls with ⟨hwins, heq⟩ | ⟨hloses, heq⟩
  · rw [heq]
    cases hresult : task.result with
    | ok _ =>
      refine ⟨_, rfl, Or.inl ⟨hwins, rfl, rfl, Or.inl ⟨rfl, ?_⟩⟩⟩
      simp [reset, trySwitchRunStatus, hactive, new]
    | error e =>
      refine ⟨_, rfl, Or.inl ⟨hwins, rfl, rfl, Or.inr ⟨⟨e, rfl⟩, ?_⟩⟩⟩
      rw [hactive]
  · rw [heq]
    refine ⟨_, rfl, Or.inr ⟨hloses, rfl, ?_⟩⟩
    rw [hactive]

/-! ## Graceful stop -/

/-- Stopping waits for the task and hands on its result, if the caller's token is never
cancelled, and aborts the task only at a poll that finds the caller's token cancelled and
the task not complete. -/
def StopsGracefully (self : WorkerRunner) (task : WorkerTask) (token : CancellationToken)
    (onStop : CancellationToken → Except String Unit) (taskFirst : Nat → Bool) : Prop :=
  ((∃ i, task.completed i = true) → (∀ i, token.isCancelled i = false) →
    ∃ polls stopped, self.stop token onStop taskFirst polls = some stopped ∧
      stopped.result = task.result ∧ stopped.abortedAt = none) ∧
  ∀ polls stopped i, self.stop token onStop taskFirst polls = some stopped →
    stopped.abortedAt = some i → token.isCancelled i = true ∧ task.completed i = false

/-- **When a started runner stops gracefully**: the task wins the first poll, or by then
the caller wants it aborted. -/
theorem stopsGracefully_iff (h : self.Started task) (honStop : onStop token = .ok ()) :
    self.StopsGracefully task token onStop taskFirst ↔
      WinsFirstPoll task taskFirst ∨ token.isCancelled 0 = true ∧ task.completed 0 = false := by
  constructor
  · intro hgraceful
    obtain ⟨stopped, hstop, ⟨hwins, _⟩ | ⟨_, haborted, _⟩⟩ :=
      h.stop_cases honStop taskFirst 0
    · exact Or.inl hwins
    · exact Or.inr (hgraceful.2 _ _ _ hstop haborted)
  · intro hcondition
    refine ⟨?_, ?_⟩
    · intro _ hnever
      have hwins : WinsFirstPoll task taskFirst := by
        refine hcondition.resolve_right ?_
        rintro ⟨hcancelled, _⟩
        rw [hnever] at hcancelled
        cases hcancelled
      obtain ⟨stopped, hstop, ⟨_, hresult, hnone, _⟩ | ⟨hloses, _⟩⟩ :=
        h.stop_cases honStop taskFirst 0
      · exact ⟨1, stopped, hstop, hresult, hnone⟩
      · exact absurd hwins hloses
    · intro polls stopped i hstop haborted
      cases polls with
      | zero =>
        obtain ⟨_, htask, stopToken, hstopToken⟩ := h
        simp [WorkerRunner.stop, hstopToken, honStop, htask, stopWorkerTask] at hstop
      | succ polls =>
        obtain ⟨stopped', hstop', hcases⟩ := h.stop_cases honStop taskFirst polls
        rw [hstop] at hstop'
        cases hstop'
        rcases hcases with ⟨_, _, hnone, _⟩ | ⟨hloses, hzero, _⟩
        · rw [hnone] at haborted
          cases haborted
        · rw [hzero] at haborted
          cases haborted
          exact hcondition.resolve_left hloses

/-- The condition is met by a task that is complete by the first poll, if `select` comes to
its branch first. -/
theorem stopsGracefully_iff_at_once :
    (new.start .never (.ok (.after 0 (.ok ())))).1.StopsGracefully (.after 0 (.ok ())) .never
        (fun _ => .ok ()) (fun _ => true) ↔
      WinsFirstPoll (.after 0 (.ok ())) (fun _ => true) ∨
        CancellationToken.never.isCancelled 0 = true ∧
          (WorkerTask.after 0 (.ok ())).completed 0 = false :=
  stopsGracefully_iff ⟨rfl, rfl, _, rfl⟩ rfl

/-- **A task that needs one poll more is aborted**, though nobody cancels the caller's
token. -/
theorem not_stopsGracefully_one_poll_later :
    ¬ ∀ (self : WorkerRunner) (task : WorkerTask) (token : CancellationToken)
      (onStop : CancellationToken → Except String Unit) (taskFirst : Nat → Bool),
      self.Started task → onStop token = .ok () → (∃ i, task.completed i = true) →
        self.StopsGracefully task token onStop taskFirst := by
  intro h
  have hgraceful := h (new.start .never (.ok (.after 1 (.ok ())))).1 (.after 1 (.ok ())) .never
    (fun _ => .ok ()) (fun _ => true) ⟨rfl, rfl, _, rfl⟩ rfl ⟨1, rfl⟩
  obtain ⟨hcancelled, _⟩ := hgraceful.2 1 _ 0 rfl rfl
  exact Bool.false_ne_true hcancelled

end WorkerRunner
end SpannerPaxos
