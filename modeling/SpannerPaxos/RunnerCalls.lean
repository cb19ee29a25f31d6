import SpannerPaxos.WorkerRunner

/-! # Calls of a worker runner

The calls of `start` and `stop` on one runner, in any order and with any results of the
worker's `on_start`, of its `on_stop` and of its task.  A call that fails in the middle
leaves a runner that is active but holds no task, or no token to stop it with: a later
start skips it, since its status is active, and a later stop skips it, since it has no
token.
-/
namespace SpannerPaxos

/-- A call, with all that its result depends on. -/
inductive RunnerCall where
  | start (token : CancellationToken) (onStart : Except String WorkerTask)
  | stop (token : CancellationToken) (onStop : CancellationToken → Except String Unit)
    (taskFirst : Nat → Bool) (polls : Nat)

/-- A start that failed, or a stop. -/
def RunnerCall.EndsIdle (result : Except String Unit) : RunnerCall → Prop
  | .start _ _ => ∃ e, result = .error e
  | .stop _ _ _ _ => True

namespace WorkerRunner

/-- What a call makes of the runner, and its result, once it returns. -/
def call (self : WorkerRunner) : RunnerCall → Option (WorkerRunner × Except String Unit)
  | .start token onStart => some (self.start token onStart)
  | .stop token onStop taskFirst polls =>
    (self.stop token onStop taskFirst polls).map fun stopped => (stopped.runner, stopped.result)

def step (self : WorkerRunner) (c : RunnerCall) : Option WorkerRunner :=
  (self.call c).map Prod.fst

/-- The status is active exactly if there is a task and a token to stop it with. -/
def Consistent (self : WorkerRunner) : Prop :=
  self.runStatus = .active ↔ self.workerTask.isSome = true ∧ self.stopToken.isSome = true

instance (self : WorkerRunner) : Decidable self.Consistent :=
  inferInstanceAs (Decidable (_ ↔ _))

/-- The call does not fail between two changes: a start of an idle runner gets its task, and
a stop gets past `on_stop` and past the race for the task. -/
def KeepsConsistent (self : WorkerRunner) : RunnerCall → Prop
  | .start _ onStart => self.runStatus = .idle → ∃ task, onStart = .ok task
  | .stop token onStop taskFirst _ => self.stopToken.isSome = true →
    onStop token = .ok () ∧
      ∀ task, self.workerTask = some task → WinsFirstPoll task taskFirst ∧ task.result = .ok ()

/-- The runner is as new, or was started and not stopped since. -/
def Settled (self : WorkerRunner) : Prop := self = new ∨ ∃ task, self.Started task

variable {self next : WorkerRunner} {task : WorkerTask} {c : RunnerCall}
  {result : Except String Unit}

theorem Settled.consistent (h : self.Settled) : self.Consistent := by
  rcases h with rfl | ⟨task, hactive, htask, token, htoken⟩
  · decide
  · exact iff_of_true hactive
      ⟨by rw [htask, Option.isSome_some], by rw [htoken, Option.isSome_some]⟩

/-- What is active without a token is not consistent, and neither is what is active without
a task. -/
theorem not_consistent_of_none (hactive : self.runStatus = .active)
    (h : self.workerTask = none ∨ self.stopToken = none) : ¬ self.Consistent := by
  intro hconsistent
  obtain ⟨htask, htoken⟩ := hconsistent.mp hactive
  rcases h with hnone | hnone
  · simp [hnone] at htask
  · simp [hnone] at htoken

/-! ## Starts -/

theorem start_new (token : CancellationToken) (task : WorkerTask) :
    new.start token (.ok task) = (⟨some task, .active, some token.childToken⟩, .ok ()) := rfl

theorem start_new_error (token : CancellationToken) (e : String) :
    new.start token (.error e) = (⟨none, .active, some token.childToken⟩, .error e) := rfl

/-- A runner that is active is not started again. -/
theorem start_of_active (h : self.runStatus = .active) (token : CancellationToken)
    (onStart : Except String WorkerTask) : self.start token onStart = (self, .ok ()) := by
  have hnot : ¬ self.runStatus = .idle := by simp [h]
  simp only [start, trySwitchRunStatus, if_true, if_neg hnot]

/-- **A start of a settled runner** keeps it consistent exactly if it gets its task. -/
theorem Settled.start_iff (h : self.Settled) (token : CancellationToken)
    (onStart : Except String WorkerTask)
    (hcall : self.call (.start token onStart) = some (next, result)) :
    (next.Consistent ↔ KeepsConsistent self (.start token onStart)) ∧
      (KeepsConsistent self (.start token onStart) → next.Settled ∧ result = .ok ()) := by
  have hstart : self.start token onStart = (next, result) := Option.some.inj hcall
  rcases h with rfl | ⟨task, hstarted⟩
  · cases onStart with
    | ok task =>
      obtain ⟨rfl, rfl⟩ := Prod.mk.inj (hstart.symm.trans (start_new token task))
      have hsettled : Settled ⟨some task, .active, some token.childToken⟩ :=
        Or.inr ⟨task, rfl, rfl, _, rfl⟩
      exact ⟨iff_of_true hsettled.consistent fun _ => ⟨task, rfl⟩, fun _ => ⟨hsettled, rfl⟩⟩
    | error e =>
      obtain ⟨rfl, rfl⟩ := Prod.mk.inj (hstart.symm.trans (start_new_error token e))
      have hfails : ¬ KeepsConsistent new (.start token (.error e)) := by
        intro hkeeps
        obtain ⟨task, htask⟩ := hkeeps rfl
        cases htask
      refine ⟨iff_of_false ?_ hfails, fun hkeeps => absurd hkeeps hfails⟩
      exact not_consistent_of_none rfl (Or.inl rfl)
  · have hactive := hstarted.runStatus
    have hkeeps : KeepsConsistent self (.start token onStart) := by
      intro hidle
      rw [hactive] at hidle
      cases hidle
    have hsettled : self.Settled := Or.inr ⟨task, hstarted⟩
    obtain ⟨rfl, rfl⟩ := Prod.mk.inj (hstart.symm.trans (start_of_active hactive token onStart))
    exact ⟨iff_of_true hsettled.consistent hkeeps, fun _ => ⟨hsettled, rfl⟩⟩

/-! ## Stops -/

/-- A stop whose `on_stop` fails has taken the token and leaves the rest. -/
theorem Started.stop_of_error (h : self.Started task) {token : CancellationToken}
    {onStop : CancellationToken → Except String Unit} {e : String}
    (honStop : onStop token = .error e) (taskFirst : Nat → Bool) (polls : Nat) :
    self.stop token onStop taskFirst polls =
      some ⟨{ self with stopToken := none }, .error e, none⟩ := by
  obtain ⟨stopToken, hstopToken⟩ := h.stopToken
  simp only [stop, hstopToken, honStop]

/-- A stop of a started runner does not return before the first poll of the race. -/
theorem Started.stop_zero (h : self.Started task) {token : CancellationToken}
    {onStop : CancellationToken → Except String Unit} (honStop : onStop token = .ok ())
    (taskFirst : Nat → Bool) : self.stop token onStop taskFirst 0 = none := by
  obtain ⟨stopToken, hstopToken⟩ := h.stopToken
  simp only [stop, hstopToken, honStop, h.workerTask, stopWorkerTask, Option.map_none]

/-- What the condition says of a stop of a started runner. -/
theorem Started.keepsConsistent_iff (h : self.Started task) {token : CancellationToken}
    {onStop : CancellationToken → Except String Unit} {taskFirst : Nat → Bool} {polls : Nat} :
    KeepsConsistent self (.stop token onStop taskFirst polls) ↔
      onStop token = .ok () ∧ WinsFirstPoll task taskFirst ∧ task.result = .ok () := by
  obtain ⟨stopToken, hstopToken⟩ := h.stopToken
  constructor
  · intro hkeeps
    obtain ⟨honStop, hwins⟩ := hkeeps (by rw [hstopToken, Option.isSome_some])
    exact ⟨honStop, hwins task h.workerTask⟩
  · rintro ⟨honStop, hwins⟩ _
    refine ⟨honStop, ?_⟩
    intro task' htask'
    obtain rfl := Option.some.inj (h.workerTask.symm.trans htask')
    exact hwins

/-- A started runner that stops is as new, or is active without a token. -/
theorem Started.stop_runner (h : self.Started task) {token : CancellationToken}
    {onStop : CancellationToken → Except String Unit} {taskFirst : Nat → Bool} {polls : Nat}
    {stopped : Stopped} (hstop : self.stop token onStop taskFirst polls = some stopped) :
    (onStop token = .ok () ∧ WinsFirstPoll task taskFirst ∧ task.result = .ok ()) ∧
        stopped.runner = new ∨
      ¬ (onStop token = .ok () ∧ WinsFirstPoll task taskFirst ∧ task.result = .ok ()) ∧
        stopped.runner.runStatus = .active ∧ stopped.runner.stopToken = none := by
  cases honStop : onStop token with
  | error e =>
    rw [h.stop_of_error honStop] at hstop
    obtain rfl := Option.some.inj hstop
    exact Or.inr ⟨by simp, h.runStatus, rfl⟩
  | ok _ =>
    cases polls with
    | zero =>
      rw [h.stop_zero honStop] at hstop
      cases hstop
    | succ polls =>
      obtain ⟨stopped', hstop', hcases⟩ := h.stop_cases honStop taskFirst polls
      obtain rfl := Option.some.inj (hstop.symm.trans hstop')
      rcases hcases with ⟨hwins, _, _, ⟨hok, hrunner⟩ | ⟨⟨e, herror⟩, hrunner⟩⟩ |
        ⟨hloses, _, hrunner⟩
      · exact Or.inl ⟨⟨rfl, hwins, hok⟩, hrunner⟩
      · rw [hrunner]
        exact Or.inr ⟨by simp [herror], rfl, rfl⟩
      · rw [hrunner]
        exact Or.inr ⟨fun hkeeps => hloses hkeeps.2.1, rfl, rfl⟩

/-- **A stop of a settled runner** keeps it consistent exactly if it gets past `on_stop` and
past the race, and then leaves it as new. -/
theorem Settled.stop_iff (h : self.Settled) (token : CancellationToken)
    (onStop : CancellationToken → Except String Unit) (taskFirst : Nat → Bool) (polls : Nat)
    (hcall : self.call (.stop token onStop taskFirst polls) = some (next, result)) :
    (next.Consistent ↔ KeepsConsistent self (.stop token onStop taskFirst polls)) ∧
      (KeepsConsistent self (.stop token onStop taskFirst polls) → next = new) := by
  obtain ⟨stopped, hstop, heq⟩ := Option.map_eq_some_iff.mp hcall
  obtain ⟨rfl, rfl⟩ := Prod.mk.inj heq
  rcases h with rfl | ⟨task, hstarted⟩
  · obtain rfl : ⟨new, .ok (), none⟩ = stopped := Option.some.inj hstop
    refine ⟨iff_of_true (by decide) ?_, fun _ => rfl⟩
    intro htoken
    cases htoken
  · rw [hstarted.keepsConsistent_iff]
    rcases hstarted.stop_runner hstop with ⟨hkeeps, hrunner⟩ | ⟨hfails, hactive, htoken⟩
    · rw [hrunner]
      exact ⟨iff_of_true (by decide) hkeeps, fun _ => rfl⟩
    · have hinconsistent := not_consistent_of_none hactive (Or.inr htoken)
      exact ⟨iff_of_false hinconsistent hfails, fun hkeeps => absurd hkeeps hfails⟩

/-! ## Runs -/

/-- **One call of a settled runner.** -/
theorem Settled.call_iff (h : self.Settled) (hcall : self.call c = some (next, result)) :
    (next.Consistent ↔ KeepsConsistent self c) ∧
      (KeepsConsistent self c → next.Settled ∧ (c.EndsIdle result → next = new)) := by
  cases c with
  | start token onStart =>
    obtain ⟨hiff, hkeeps⟩ := h.start_iff token onStart hcall
    refine ⟨hiff, fun hcond => ⟨(hkeeps hcond).1, ?_⟩⟩
    rintro ⟨e, herror⟩
    rw [(hkeeps hcond).2] at herror
    cases herror
  | stop token onStop taskFirst polls =>
    obtain ⟨hiff, hnew⟩ := h.stop_iff token onStop taskFirst polls hcall
    exact ⟨hiff, fun hcond => ⟨Or.inl (hnew hcond), fun _ => hnew hcond⟩⟩

theorem Settled.of_runs (h : Runs step KeepsConsistent new self) : self.Settled := by
  have hkeeps : ∀ (a : WorkerRunner) (l : RunnerCall) (b : WorkerRunner),
      a.Settled → KeepsConsistent a l → a.step l = some b → b.Settled := by
    intro a l b ha hl hstep
    obtain ⟨⟨next, result⟩, hcall, rfl⟩ := Option.map_eq_some_iff.mp hstep
    exact ((ha.call_iff hcall).2 hl).1
  exact h.invariant (Or.inl rfl) hkeeps

/-- **A runner none of whose calls fails in the middle is consistent after each**, and so is
idle, and can be started again, after a stop or a failed start.  The first call that does
fail in the middle leaves it inconsistent. -/
theorem consistent_of_keepsConsistent (h : Runs step KeepsConsistent new self) :
    self.Consistent ∧ ∀ c next result, self.call c = some (next, result) →
      (next.Consistent ↔ KeepsConsistent self c) ∧
        (KeepsConsistent self c → c.EndsIdle result →
          next.runStatus = .idle ∧ ∀ token task, next.start token (.ok task) =
            (⟨some task, .active, some token.childToken⟩, .ok ())) := by
  have hsettled := Settled.of_runs h
  refine ⟨hsettled.consistent, ?_⟩
  intro c next result hcall
  obtain ⟨hiff, hnext⟩ := hsettled.call_iff hcall
  refine ⟨hiff, ?_⟩
  intro hkeeps hidle
  obtain rfl := (hnext hkeeps).2 hidle
  exact ⟨rfl, start_new⟩

/-- The condition is met by a start that gets a task which is complete when it is stopped,
the stop, and another start. -/
theorem consistent_of_keepsConsistent_restarted :
    Consistent ⟨some (.after 1 (.ok ())), .active, some .never⟩ := by
  have hstart : KeepsConsistent new (.start .never (.ok (.after 0 (.ok ())))) :=
    fun _ => ⟨_, rfl⟩
  have hstop : KeepsConsistent ⟨some (.after 0 (.ok ())), .active, some .never⟩
      (.stop .never (fun _ => .ok ()) (fun _ => true) 1) := by
    refine fun _ => ⟨rfl, ?_⟩
    rintro task ⟨⟩
    exact ⟨⟨rfl, rfl⟩, rfl⟩
  have hagain : KeepsConsistent new (.start .never (.ok (.after 1 (.ok ())))) :=
    fun _ => ⟨_, rfl⟩
  exact (consistent_of_keepsConsistent
    ((((Runs.refl new).tail _ hstart rfl).tail _ hstop rfl).tail _ hagain rfl)).1

/-- **A start whose `on_start` fails leaves a runner that is active without a task.** -/
theorem not_consistent_failed_start :
    ¬ ∀ self : WorkerRunner, Reaches step new self → self.Consistent := by
  intro h
  have hrun : Reaches step new ⟨none, .active, some .never⟩ :=
    (Runs.refl new).tail (.start .never (.error "on_start failed")) trivial rfl
  exact not_consistent_of_none rfl (Or.inl rfl) (h _ hrun)

end WorkerRunner
end SpannerPaxos
