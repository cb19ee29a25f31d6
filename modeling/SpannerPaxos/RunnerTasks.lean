import SpannerPaxos.RunnerCalls
import Mathlib.Data.List.Forall2

/-! # The tasks of a worker

A runner that lets go of the handle of a task leaves it running in the background, for
nobody to stop.  It does not: whatever fails in its calls, a task is spawned only when all
before it are over, and what is not over is held.  But a task is held for good once the
worker's `on_stop` has refused to stop it.  A manager stops its runners one after the
other, whatever comes of each.
-/
namespace SpannerPaxos

/-- A runner, and what has become of the tasks of its worker. -/
structure RunnerTasks where
  runner : WorkerRunner
  /-- The tasks that `on_start` has spawned, oldest first. -/
  spawned : List WorkerTask
  /-- Those that a stop has seen the end of, joined or aborted. -/
  ended : List WorkerTask
  /-- A call of `on_stop` has failed. -/
  refused : Bool

namespace RunnerTasks

def new : RunnerTasks := ⟨.new, [], [], false⟩

/-- The task that a stop waits for. -/
def raced (runner : WorkerRunner) (token : CancellationToken)
    (onStop : CancellationToken → Except String Unit) : Option WorkerTask :=
  match runner.stopToken, onStop token with
  | some _, .ok () => runner.workerTask
  | _, _ => none

def start (self : RunnerTasks) (token : CancellationToken) (onStart : Except String WorkerTask) :
    RunnerTasks × Except String Unit :=
  let (runner, result) := self.runner.start token onStart
  let spawned := if self.runner.runStatus = .idle then onStart.toOption.toList else []
  ({ self with runner := runner, spawned := self.spawned ++ spawned }, result)

def stop (self : RunnerTasks) (token : CancellationToken)
    (onStop : CancellationToken → Except String Unit) (taskFirst : Nat → Bool) (polls : Nat) :
    Option (RunnerTasks × Except String Unit) :=
  (self.runner.stop token onStop taskFirst polls).map fun stopped =>
    ({ self with
        runner := stopped.runner
        ended := self.ended ++ (raced self.runner token onStop).toList
        refused := self.refused || self.runner.stopToken.isSome && !(onStop token).isOk },
      stopped.result)

def call (self : RunnerTasks) : RunnerCall → Option (RunnerTasks × Except String Unit)
  | .start token onStart => some (self.start token onStart)
  | .stop token onStop taskFirst polls => self.stop token onStop taskFirst polls

def step (self : RunnerTasks) (c : RunnerCall) : Option RunnerTasks := (self.call c).map Prod.fst

variable {self next t : RunnerTasks} {c : RunnerCall} {result : Except String Unit}

/-- The calls are those of the runner. -/
theorem call_runner (h : self.call c = some (next, result)) :
    self.runner.call c = some (next.runner, result) := by
  cases c with
  | start token onStart =>
    obtain ⟨rfl, rfl⟩ := Prod.mk.inj (Option.some.inj h)
    rfl
  | stop token onStop taskFirst polls =>
    obtain ⟨stopped, hstop, heq⟩ := Option.map_eq_some_iff.mp h
    obtain ⟨rfl, rfl⟩ := Prod.mk.inj heq
    exact Option.map_eq_some_iff.mpr ⟨stopped, hstop, rfl⟩

end RunnerTasks

/-! ## What a call does -/

namespace WorkerRunner
variable {self : WorkerRunner}

theorem start_of_idle (h : self.runStatus = .idle) (token : CancellationToken)
    (onStart : Except String WorkerTask) :
    (self.start token onStart).1 =
      { runStatus := .active, stopToken := some token.childToken,
        workerTask := onStart.toOption.or self.workerTask } := by
  simp only [start, trySwitchRunStatus, if_true, if_pos h]
  cases onStart with
  | ok task => rfl
  | error e => rfl

theorem reset_eq_new (self : WorkerRunner) : self.reset = new := by
  obtain ⟨task, status, token⟩ := self
  cases status with
  | idle => rfl
  | active => rfl

/-- **A stop returns** once its race has been polled, since the token that it races against
is cancelled. -/
theorem exists_stop (self : WorkerRunner) (token : CancellationToken)
    (onStop : CancellationToken → Except String Unit) (taskFirst : Nat → Bool) {polls : Nat}
    (hpolls : 0 < polls) : ∃ stopped, self.stop token onStop taskFirst polls = some stopped := by
  obtain ⟨polls, rfl⟩ := Nat.exists_eq_succ_of_ne_zero (Nat.ne_of_gt hpolls)
  unfold stop
  cases self.stopToken with
  | none => exact ⟨_, rfl⟩
  | some stopToken =>
    dsimp only
    cases onStop token with
    | error e => exact ⟨_, rfl⟩
    | ok _ =>
      cases self.workerTask with
      | none => exact ⟨_, rfl⟩
      | some task =>
        dsimp only
        rcases stopWorkerTask_cancel task stopToken taskFirst polls with ⟨_, heq⟩ | ⟨_, heq⟩
        · rw [heq]
          exact ⟨_, rfl⟩
        · rw [heq]
          exact ⟨_, rfl⟩

/-- What a stop that returns does. -/
inductive Stops (self : WorkerRunner) (token : CancellationToken)
    (onStop : CancellationToken → Except String Unit) : Stopped → Prop
  /-- There is nothing to stop. -/
  | skips (h : self.stopToken = none) : Stops self token onStop ⟨self, .ok (), none⟩
  | refuses {e : String} (h : self.stopToken.isSome = true) (honStop : onStop token = .error e) :
      Stops self token onStop ⟨{ self with stopToken := none }, .error e, none⟩
  | resets (h : self.stopToken.isSome = true) (honStop : onStop token = .ok ()) :
      Stops self token onStop ⟨new, .ok (), none⟩
  /-- The task has failed, or is aborted. -/
  | fails (h : self.stopToken.isSome = true) (honStop : onStop token = .ok ()) (e : String)
      (abortedAt : Option Nat) :
      Stops self token onStop ⟨⟨none, self.runStatus, none⟩, .error e, abortedAt⟩

theorem stops {token : CancellationToken} {onStop : CancellationToken → Except String Unit}
    {taskFirst : Nat → Bool} {polls : Nat} {stopped : Stopped}
    (h : self.stop token onStop taskFirst polls = some stopped) :
    self.Stops token onStop stopped := by
  unfold stop at h
  split at h
  · rename_i hnone
    cases h
    exact .skips hnone
  · rename_i stopToken htoken
    have hsome : self.stopToken.isSome = true := by rw [htoken, Option.isSome_some]
    dsimp only at h
    split at h
    · rename_i honStop
      cases h
      exact .refuses hsome honStop
    · rename_i honStop
      split at h
      · cases h
        rw [reset_eq_new]
        exact .resets hsome honStop
      · obtain ⟨ending, _, rfl⟩ := Option.map_eq_some_iff.mp h
        cases ending with
        | finished result =>
          cases result with
          | ok _ =>
            dsimp only
            rw [reset_eq_new]
            exact .resets hsome honStop
          | error e => exact .fails hsome honStop e none
        | aborted poll => exact .fails hsome honStop _ (some poll)

end WorkerRunner

namespace RunnerTasks
variable {s next t : RunnerTasks} {c : RunnerCall} {result : Except String Unit}

/-- What every call keeps. -/
structure Accounted (s : RunnerTasks) : Prop where
  /-- A task that is not over is held. -/
  ledger : s.spawned = s.ended ++ s.runner.workerTask.toList
  idle : s.runner.runStatus = .idle → s.runner.workerTask = none
  active : s.runner.stopToken.isSome = true → s.runner.runStatus = .active
  held : s.runner.workerTask.isSome = true →
    s.runner.stopToken.isSome = true ∨ s.refused = true

theorem accounted_new : new.Accounted :=
  ⟨rfl, fun _ => rfl, (fun h => by cases h), (fun h => by cases h)⟩

theorem start_of_active (hactive : s.runner.runStatus = .active) (token : CancellationToken)
    (onStart : Except String WorkerTask) : s.start token onStart = (s, .ok ()) := by
  have hidle : ¬ s.runner.runStatus = .idle := by simp [hactive]
  unfold RunnerTasks.start
  rw [if_neg hidle, WorkerRunner.start_of_active hactive]
  dsimp only
  rw [List.append_nil]

theorem Accounted.start (h : s.Accounted) (token : CancellationToken)
    (onStart : Except String WorkerTask) : (s.start token onStart).1.Accounted := by
  by_cases hidle : s.runner.runStatus = .idle
  · have hnone := h.idle hidle
    have hrunner : (s.runner.start token onStart).1 =
        { runStatus := .active, stopToken := some token.childToken,
          workerTask := onStart.toOption } := by
      rw [WorkerRunner.start_of_idle hidle, hnone, Option.or_none]
    have hledger : s.spawned = s.ended := by
      rw [h.ledger, hnone, Option.toList_none, List.append_nil]
    unfold RunnerTasks.start
    dsimp only
    rw [if_pos hidle, hrunner, hledger]
    exact ⟨rfl, (fun hactive => by cases hactive), fun _ => rfl, fun _ => Or.inl rfl⟩
  · have hactive : s.runner.runStatus = .active := by
      cases hstatus : s.runner.runStatus with
      | idle => exact absurd hstatus hidle
      | active => rfl
    rw [start_of_active hactive]
    exact h

/-- **What a stop does to the ledger**: nothing, or the worker refuses, or the task that was
held is over. -/
theorem stop_cases {token : CancellationToken} {onStop : CancellationToken → Except String Unit}
    {taskFirst : Nat → Bool} {polls : Nat}
    (hstop : s.stop token onStop taskFirst polls = some (next, result)) :
    (s.runner.stopToken = none ∧ next = s ∧ result = .ok ()) ∨
    s.runner.stopToken.isSome = true ∧
      (next = { s with runner := { s.runner with stopToken := none }, refused := true } ∨
        ∃ status, next = { s with
            runner := ⟨none, status, none⟩
            ended := s.ended ++ s.runner.workerTask.toList } ∧
          (result ≠ .ok () → status = s.runner.runStatus)) := by
  obtain ⟨stopped, hstopped, heq⟩ := Option.map_eq_some_iff.mp hstop
  obtain ⟨rfl, rfl⟩ := Prod.mk.inj heq
  cases WorkerRunner.stops hstopped with
  | skips hnone =>
    refine Or.inl ⟨hnone, ?_, rfl⟩
    simp [raced, hnone]
  | refuses hsome honStop =>
    refine Or.inr ⟨hsome, Or.inl ?_⟩
    have hraced : raced s.runner token onStop = none := by simp [raced, honStop]
    rw [hraced, hsome, honStop, Option.toList_none, List.append_nil]
    simp [Except.isOk, Except.toBool]
  | resets hsome honStop =>
    obtain ⟨stopToken, htoken⟩ := Option.isSome_iff_exists.mp hsome
    refine Or.inr ⟨hsome, Or.inr ⟨.idle, ?_, fun hnot => absurd rfl hnot⟩⟩
    simp [raced, htoken, honStop, Except.isOk, Except.toBool, WorkerRunner.new]
  | fails hsome honStop e abortedAt =>
    obtain ⟨stopToken, htoken⟩ := Option.isSome_iff_exists.mp hsome
    refine Or.inr ⟨hsome, Or.inr ⟨s.runner.runStatus, ?_, fun _ => rfl⟩⟩
    simp [raced, htoken, honStop, Except.isOk, Except.toBool]

/-- What a stop leaves: no token, and a task only if the worker has refused to stop. -/
structure AfterStop (s : RunnerTasks) : Prop where
  accounted : s.Accounted
  stopToken : s.runner.stopToken = none
  ended : s.refused = false → s.ended = s.spawned

theorem Accounted.stop (h : s.Accounted) {token : CancellationToken}
    {onStop : CancellationToken → Except String Unit} {taskFirst : Nat → Bool} {polls : Nat}
    (hstop : s.stop token onStop taskFirst polls = some (next, result)) :
    next.AfterStop ∧ next.spawned = s.spawned ∧
      (result ≠ .ok () → next.runner.runStatus = .active) := by
  rcases stop_cases hstop with ⟨hnone, rfl, rfl⟩ | ⟨hsome, rfl | ⟨status, rfl, hstatus⟩⟩
  · refine ⟨⟨h, hnone, fun hrefused => ?_⟩, rfl, fun hnot => absurd rfl hnot⟩
    have hheld : next.runner.workerTask = none := by
      by_contra hsome
      rcases h.held (Option.isSome_iff_ne_none.mpr hsome) with htoken | htrue
      · rw [hnone] at htoken
        cases htoken
      · rw [hrefused] at htrue
        cases htrue
    rw [h.ledger, hheld, Option.toList_none, List.append_nil]
  · refine ⟨⟨⟨h.ledger, h.idle, (fun htoken => by cases htoken), fun _ => Or.inr rfl⟩, rfl,
      (fun hrefused => by cases hrefused)⟩, rfl, fun _ => h.active hsome⟩
  · refine ⟨⟨⟨?_, fun _ => rfl, (fun htoken => by cases htoken), (fun htask => by cases htask)⟩,
      rfl, fun _ => h.ledger.symm⟩, rfl, fun hnot => (hstatus hnot).trans (h.active hsome)⟩
    exact h.ledger.trans (List.append_nil _).symm

theorem Accounted.step (h : s.Accounted) (hstep : s.step c = some next) : next.Accounted := by
  obtain ⟨⟨next, result⟩, hcall, rfl⟩ := Option.map_eq_some_iff.mp hstep
  cases c with
  | start token onStart =>
    obtain ⟨rfl, rfl⟩ := Prod.mk.inj (Option.some.inj hcall)
    exact h.start token onStart
  | stop token onStop taskFirst polls => exact (h.stop hcall).1.accounted

theorem accounted_of_reaches (h : Reaches RunnerTasks.step new s) : s.Accounted :=
  h.invariant accounted_new fun _ _ _ (ha : Accounted _) _ hstep => ha.step hstep

/-- A runner that is active without a token does nothing any more. -/
theorem step_of_stuck (hactive : s.runner.runStatus = .active) (htoken : s.runner.stopToken = none)
    (hstep : s.step c = some next) : next = s := by
  obtain ⟨⟨next, result⟩, hcall, rfl⟩ := Option.map_eq_some_iff.mp hstep
  cases c with
  | start token onStart =>
    have hstart : s.start token onStart = (next, result) := Option.some.inj hcall
    rw [start_of_active hactive] at hstart
    exact (Prod.mk.inj hstart).1.symm
  | stop token onStop taskFirst polls =>
    rcases stop_cases hcall with ⟨_, heq, _⟩ | ⟨hsome, _⟩
    · exact heq
    · rw [htoken] at hsome
      cases hsome

theorem eq_of_stuck (hactive : s.runner.runStatus = .active) (htoken : s.runner.stopToken = none)
    (hrun : Reaches RunnerTasks.step s t) : t = s :=
  hrun.invariant (P := fun t => t = s) rfl fun _ _ _ (ha : _ = s) _ hstep => by
    subst ha
    exact step_of_stuck hactive htoken hstep

end RunnerTasks

/-! ## The manager -/

/-- What a stop of a runner depends on besides the runner. -/
structure StopCall where
  onStop : CancellationToken → Except String Unit
  taskFirst : Nat → Bool
  polls : Nat

structure WorkerRunnerManager where
  runners : List RunnerTasks

namespace WorkerRunnerManager

def new : WorkerRunnerManager := ⟨[]⟩

def addRunner (self : WorkerRunnerManager) (runner : RunnerTasks) : WorkerRunnerManager :=
  ⟨self.runners ++ [runner]⟩

/-- The loop of `on_stop`: an error of a runner is printed. -/
def stopRunners (token : CancellationToken) :
    List RunnerTasks → (Nat → StopCall) → Option (List RunnerTasks)
  | [], _ => some []
  | runner :: rest, calls =>
    match runner.stop token (calls 0).onStop (calls 0).taskFirst (calls 0).polls with
    | none => none
    | some (runner, _) =>
      (stopRunners token rest fun i => calls (i + 1)).map fun rest => runner :: rest

/-- `on_stop`; `none` if a stop of a runner does not return. -/
def onStop (self : WorkerRunnerManager) (token : CancellationToken) (calls : Nat → StopCall) :
    Option (WorkerRunnerManager × Except String Unit) :=
  (stopRunners token self.runners calls).map fun runners => (⟨runners⟩, .ok ())

/-- What the manager's stop makes of a runner. -/
def Dismisses (s s' : RunnerTasks) : Prop :=
  s'.spawned = s.spawned ∧ s'.spawned = s'.ended ++ s'.runner.workerTask.toList ∧
    (s'.refused = false → s'.ended = s'.spawned) ∧
    (s'.runner.runStatus = .active → ∀ t, Reaches RunnerTasks.step s' t → t = s')

theorem dismisses_of_stopRunners {token : CancellationToken} {runners runners' : List RunnerTasks}
    {calls : Nat → StopCall} (hrun : ∀ s ∈ runners, s.Accounted)
    (h : stopRunners token runners calls = some runners') :
    List.Forall₂ Dismisses runners runners' := by
  induction runners generalizing runners' calls with
  | nil =>
    cases Option.some.inj h
    exact .nil
  | cons s rest ih =>
    rw [stopRunners] at h
    split at h
    · cases h
    · rename_i s' result hstop
      obtain ⟨rest', hrest, rfl⟩ := Option.map_eq_some_iff.mp h
      obtain ⟨hafter, hspawned, _⟩ := (hrun s List.mem_cons_self).stop hstop
      refine .cons ⟨hspawned, hafter.accounted.ledger, hafter.ended, fun hactive t ht => ?_⟩
        (ih (fun r hr => hrun r (List.mem_cons_of_mem s hr)) hrest)
      exact RunnerTasks.eq_of_stuck hactive hafter.stopToken ht

/-- The loop comes to its end once every race has been polled. -/
theorem exists_stopRunners (token : CancellationToken) (runners : List RunnerTasks)
    (calls : Nat → StopCall) (hpolls : ∀ i < runners.length, 0 < (calls i).polls) :
    ∃ runners', stopRunners token runners calls = some runners' := by
  induction runners generalizing calls with
  | nil => exact ⟨[], rfl⟩
  | cons s rest ih =>
    obtain ⟨stopped, hstop⟩ := s.runner.exists_stop token (calls 0).onStop (calls 0).taskFirst
      (hpolls 0 (Nat.succ_pos _))
    obtain ⟨rest', hrest⟩ := ih (fun i => calls (i + 1)) fun i hi =>
      hpolls (i + 1) (Nat.succ_lt_succ hi)
    rw [stopRunners, RunnerTasks.stop, hstop, Option.map_some]
    dsimp only
    rw [hrest]
    exact ⟨_, rfl⟩

/-- **No task is let go of**: whatever calls the runners of a manager have been through, the
manager's stop returns once every race has been polled; it does not fail, and from each of its
runners it leaves no task running but one that the worker has refused to stop, which its
runner then holds for good. -/
theorem dismisses_of_onStop {self : WorkerRunnerManager}
    (hrun : ∀ s ∈ self.runners, Reaches RunnerTasks.step .new s) (token : CancellationToken)
    (calls : Nat → StopCall) :
    ((∀ i < self.runners.length, 0 < (calls i).polls) →
      ∃ returned, self.onStop token calls = some returned) ∧
    ∀ next result, self.onStop token calls = some (next, result) →
      result = .ok () ∧ List.Forall₂ Dismisses self.runners next.runners := by
  refine ⟨fun hpolls => ?_, fun next result h => ?_⟩
  · obtain ⟨runners, hstop⟩ := exists_stopRunners token self.runners calls hpolls
    exact ⟨_, Option.map_eq_some_iff.mpr ⟨runners, hstop, rfl⟩⟩
  · obtain ⟨runners, hstop, heq⟩ := Option.map_eq_some_iff.mp h
    obtain ⟨rfl, rfl⟩ := Prod.mk.inj heq
    exact ⟨rfl, dismisses_of_stopRunners
      (fun s hs => RunnerTasks.accounted_of_reaches (hrun s hs)) hstop⟩

/-- The first of two workers refuses to stop: its task is left, the other's is over. -/
theorem dismisses_of_onStop_refused :
    ∃ first second next, exec RunnerTasks.step .new
        [.start .never (.ok (.after 1 (.ok ())))] = some first ∧
      exec RunnerTasks.step .new [.start .never (.ok (.after 0 (.ok ())))] = some second ∧
      ((new.addRunner first).addRunner second).onStop .never
        (fun i => ⟨fun _ => if i = 0 then .error "refused" else .ok (), fun _ => true, 1⟩) =
          some (next, .ok ()) ∧
      ∃ first' second', next.runners = [first', second'] ∧ first'.ended = [] ∧
        second'.ended = second'.spawned ∧
        ∀ t, Reaches RunnerTasks.step first' t → t = first' := by
  obtain ⟨first, hfirst, second, hsecond, next, hstop, first', second', hrunners, hended, hrefused,
      hactive⟩ : ∃ first, exec RunnerTasks.step .new
        [.start .never (.ok (.after 1 (.ok ())))] = some first ∧
      ∃ second, exec RunnerTasks.step .new
        [.start .never (.ok (.after 0 (.ok ())))] = some second ∧
      ∃ next, ((new.addRunner first).addRunner second).onStop .never
        (fun i => ⟨fun _ => if i = 0 then .error "refused" else .ok (), fun _ => true, 1⟩) =
          some (next, .ok ()) ∧
      ∃ first' second', next.runners = [first', second'] ∧ first'.ended = [] ∧
        second'.refused = false ∧ first'.runner.runStatus = .active :=
    ⟨_, rfl, _, rfl, _, rfl, _, _, rfl, rfl, rfl, rfl⟩
  have hrun : ∀ s ∈ ((new.addRunner first).addRunner second).runners,
      Reaches RunnerTasks.step .new s := by
    intro s hs
    rcases List.mem_cons.mp hs with rfl | hs
    · exact Runs.of_exec _ hfirst
    · rcases List.mem_singleton.mp hs with rfl
      exact Runs.of_exec _ hsecond
  obtain ⟨_, hall⟩ := (dismisses_of_onStop hrun _ _).2 _ _ hstop
  rw [hrunners] at hall
  cases hall with
  | cons hleft hrest =>
    cases hrest with
    | cons hdone _ =>
      exact ⟨first, second, next, hfirst, hsecond, hstop, first', second', hrunners, hended,
        hdone.2.2.1 hrefused, hleft.2.2.2 hactive⟩

end WorkerRunnerManager
end SpannerPaxos
