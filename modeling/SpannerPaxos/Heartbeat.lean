import SpannerPaxos.LeaseSteps
import SpannerPaxos.Runs

/-! # The heartbeat countdown of a Leader

When no client write has come for a while, the countdown task signals the event loop and
then clears its running flag.  The event loop dispatches a heartbeat and starts the
countdown again, which does nothing while the flag is set.  If the event loop is done
before the flag is cleared, there is no countdown any more and no signal, and nothing that
could bring either back.
-/
namespace SpannerPaxos
namespace Leader
variable {self l' : Leader} {event : PaxosEvent} {ctx : PaxosSharedContext} {env : Env}

/-! ## What the handlers do to the clock -/

theorem dispatchAcceptRequestToFollower_clock (self : Leader) (memberId : Uuid)
    (ctx : PaxosSharedContext) (minNextTs : Option DateTime) (env : Env) :
    (self.dispatchAcceptRequestToFollower memberId ctx minNextTs env).state.heartbeatCdClock =
      self.heartbeatCdClock := by
  unfold dispatchAcceptRequestToFollower
  cases self.scoreBoard.get? memberId with
  | none => rfl
  | some fs =>
    dsimp only
    cases prevLogTerm? ctx fs.prevLogSlot with
    | none => rfl
    | some prevLogTerm =>
      dsimp only
      split <;> rfl

theorem dispatchLoop_clock (ctx : PaxosSharedContext) (minNextTs : Option DateTime)
    (memberIds : List Uuid) (self : Leader) (env : Env) :
    (dispatchLoop ctx minNextTs self memberIds env).state.heartbeatCdClock =
      self.heartbeatCdClock := by
  induction memberIds generalizing self env with
  | nil => rfl
  | cons memberId memberIds ih =>
    have hfirst := self.dispatchAcceptRequestToFollower_clock memberId ctx minNextTs env
    rw [dispatchLoop, Attempt.andThen]
    split
    · exact hfirst
    · exact (ih _ _).trans hfirst

theorem dispatchAcceptRequest_clock (self : Leader) (ctx : PaxosSharedContext)
    (minNextTs : Option DateTime) (env : Env) :
    (self.dispatchAcceptRequest ctx minNextTs env).state.heartbeatCdClock =
      self.heartbeatCdClock :=
  dispatchLoop_clock ctx minNextTs self.scoreBoard.keys self env

theorem processUncommittedLogs_clock (self : Leader) (ctx : PaxosSharedContext) (env : Env) :
    (self.processUncommittedLogs ctx env).state.1.heartbeatCdClock = self.heartbeatCdClock := by
  unfold processUncommittedLogs
  dsimp only
  split
  · exact dispatchAcceptRequest_clock _ _ _ _
  · exact dispatchAcceptRequest_clock _ _ _ _

theorem advanceCommit_clock (self : Leader) (ctx : PaxosSharedContext) (env : Env) :
    (self.advanceCommit ctx env).state.1.heartbeatCdClock = self.heartbeatCdClock := by
  unfold advanceCommit
  dsimp only
  split <;> rfl

theorem handleAcceptResponse_clock (self : Leader) (response : AcceptResponse)
    (ctx : PaxosSharedContext) (env : Env) :
    (self.handleAcceptResponse response ctx env).state.1.heartbeatCdClock =
      self.heartbeatCdClock := by
  rcases self.handleAcceptResponse_cases response ctx env with
    ⟨_, heq⟩ | ⟨_, _, fault, heq⟩ |
    ⟨_, _, ⟨fault, heq⟩ | ⟨fs, _, _, _, heq⟩ | ⟨fs, hint, _, _, _, heq⟩⟩
  · rw [heq]
    rfl
  · rw [heq]
    rfl
  · rw [heq]
    rfl
  · rw [heq]
    exact advanceCommit_clock _ _ _
  · rw [heq]
    exact dispatchAcceptRequestToFollower_clock _ _ _ _ _

theorem handleWriteFlush_clock (self : Leader) (ctx : PaxosSharedContext) (env : Env) :
    (self.handleWriteFlush ctx env).state.1.heartbeatCdClock = self.heartbeatCdClock := by
  unfold handleWriteFlush
  split
  · rfl
  · rw [Attempt.map_state, Attempt.andThen]
    split
    · exact self.dispatchAcceptRequest_clock ctx none env
    · exact self.dispatchAcceptRequest_clock ctx none env

/-- A heartbeat that is dispatched starts the countdown. -/
theorem handleHeartbeatTimer_clock (h : (self.handleHeartbeatTimer ctx env).fault = none) :
    (self.handleHeartbeatTimer ctx env).state.1.heartbeatCdClock = self.heartbeatCdClock.start := by
  unfold handleHeartbeatTimer at h ⊢
  simp only [Attempt.map, Attempt.andThen] at h ⊢
  split
  · rename_i fault hfault
    simp only [hfault] at h
    cases h
  · show CountDownClock.start _ = _
    rw [dispatchAcceptRequest_clock]

/-- A Leader that stays one keeps its countdown task, unless it gets a heartbeat signal. -/
theorem task_of_handleEvent (hne : event ≠ .heartbeatTimerFired)
    (h : (self.handleEvent event ctx env).result = .ok (.leader l')) :
    l'.heartbeatCdClock.task = self.heartbeatCdClock.task := by
  rcases self.leads_or_quiet event ctx env with ⟨a, hleads, heq⟩ | ⟨_, hquiet⟩
  · rw [heq] at h
    obtain rfl := PaxosState.leader.inj (stay_result h)
    cases hleads with
    | heeds response => rw [handleAcceptResponse_clock]
    | writes command => rfl
    | flushes => rw [handleWriteFlush_clock]
    | beats => exact absurd rfl hne
  · obtain ⟨_, rfl | ⟨_, rfl⟩⟩ := hquiet l' h
    · rfl
    · rfl

end Leader

/-! ## The Leader, its countdown task and the event loop -/

/-- A Leader between two events, and whether a heartbeat signal waits for the event loop. -/
structure Heartbeating where
  leader : Leader
  ctx : PaxosSharedContext
  signalled : Bool
  deriving DecidableEq

namespace Heartbeating

inductive Label where
  /-- The event loop handles an event that is not a heartbeat signal. -/
  | event (event : PaxosEvent) (env : Env)
  /-- The event loop takes the heartbeat signal and handles it. -/
  | heartbeat (env : Env)
  /-- The countdown task finds itself reset and waits again. -/
  | countdownRestarts
  /-- The wait of the countdown task is over: it runs its callback. -/
  | countdownFires
  /-- The countdown task clears the running flag and ends. -/
  | countdownClears

variable (s : Heartbeating)

def clock : CountDownClock := s.leader.heartbeatCdClock

/-- The same Leader with its clock changed. -/
def setClock (clock : CountDownClock) : Heartbeating :=
  { s with leader := { s.leader with heartbeatCdClock := clock } }

/-- The event is handled; `none` if the Leader is not one afterwards or a dispatch fails. -/
def handle (event : PaxosEvent) (env : Env) (signalled : Bool) : Option Heartbeating :=
  let o := (PaxosState.leader s.leader).processEvent event s.ctx false env
  match o.result with
  | .ok (.leader leader) => some ⟨leader, o.ctx, signalled⟩
  | _ => none

def step : Label → Option Heartbeating
  | .event event env =>
    if event = .heartbeatTimerFired then none else s.handle event env s.signalled
  | .heartbeat env => if s.signalled then s.handle .heartbeatTimerFired env false else none
  | .countdownRestarts =>
    if s.clock.task = .waiting ∧ s.clock.resetNotified then
      some (s.setClock { s.clock with resetNotified := false })
    else none
  | .countdownFires =>
    -- the wait is polled after the reset
    if s.clock.task = .waiting ∧ ¬ s.clock.resetNotified then
      some { s.setClock { s.clock with task := .fired } with signalled := true }
    else none
  | .countdownClears =>
    if s.clock.task = .fired then some (s.setClock { s.clock with task := .none }) else none

/-- The Leader is new: its countdown runs. -/
def Start : Prop := s.clock = CountDownClock.new.start

/-- A heartbeat is still to come: with no callback under way, the countdown runs or its
signal is pending. -/
def Beats : Prop := s.clock.task ≠ .fired → s.clock.isRunning = true ∨ s.signalled = true

/-- The countdown task has cleared its flag by the time its signal is handled. -/
def KeepsBeat (s : Heartbeating) : Label → Prop
  | .heartbeat _ => s.clock.task ≠ .fired
  | _ => True

/-- The task waits, or its signal is pending. -/
def Inv : Prop := s.clock.task = .waiting ∨ s.signalled = true

/-- The task has ended, and its signal has been handled. -/
structure Lost : Prop where
  task : s.clock.task = .none
  signalled : s.signalled = false

variable {s} {s' : Heartbeating} {event : PaxosEvent} {env : Env} {signalled : Bool}

/-- The election leads to a new Leader. -/
theorem start_of_becomeLeader (c : Candidate) (ctx : PaxosSharedContext) (env : Env)
    {leader : Leader} (h : (c.becomeLeader ctx env).result = .ok (.leader leader))
    (ctx' : PaxosSharedContext) (signalled : Bool) : Start ⟨leader, ctx', signalled⟩ := by
  have hleader := PaxosState.leader.inj (Attempt.toOutcome_result h)
  subst hleader
  exact Leader.processUncommittedLogs_clock _ _ _

theorem Inv.beats (h : s.Inv) : s.Beats := by
  intro _
  rcases h with hwaiting | hsignalled
  · exact Or.inl (by simp [CountDownClock.isRunning, hwaiting])
  · exact Or.inr hsignalled

theorem Lost.not_beats (h : s.Lost) : ¬ s.Beats := by
  intro hbeats
  have htask := h.task
  rcases hbeats (by simp [htask]) with hrunning | hsignalled
  · simp [CountDownClock.isRunning, htask] at hrunning
  · simp [h.signalled] at hsignalled

/-- What handling an event comes to. -/
theorem handle_spec (h : s.handle event env signalled = some s') :
    s'.signalled = signalled ∧
      ((PaxosState.leader s.leader).handleEvent event s.ctx env).result = .ok (.leader s'.leader) := by
  unfold handle at h
  dsimp only at h
  split at h
  · rename_i leader hresult
    cases h
    refine ⟨rfl, ?_⟩
    rw [PaxosState.processEvent_eq] at hresult
    rcases (PaxosState.leader s.leader).adoptTerm_cases event s.ctx with
      hkept | ⟨term, _, _, hadopt⟩
    · rwa [hkept] at hresult
    · -- who adopts a term is a Follower, and stays no Leader
      rw [hadopt] at hresult
      cases Follower.handleEvent_next hresult
  · cases h

theorem handle_task (hne : event ≠ .heartbeatTimerFired)
    (h : s.handle event env signalled = some s') : s'.clock.task = s.clock.task :=
  Leader.task_of_handleEvent hne (handle_spec h).2

/-- The countdown after a heartbeat. -/
theorem handle_heartbeat (h : s.handle .heartbeatTimerFired env signalled = some s') :
    s'.clock = s.clock.start := by
  have hresult := (handle_spec h).2
  have hleader := PaxosState.leader.inj (Leader.stay_result hresult)
  have hfault : (s.leader.handleHeartbeatTimer s.ctx env).fault = none := by
    cases hfault : (s.leader.handleHeartbeatTimer s.ctx env).fault with
    | none => rfl
    | some fault =>
      simp only [PaxosState.handleEvent, Leader.handleEvent, Leader.handleEvent.stay,
        Attempt.toOutcome, Attempt.map, hfault] at hresult
      cases hresult
  show s'.leader.heartbeatCdClock = _
  rw [hleader]
  exact Leader.handleHeartbeatTimer_clock hfault

theorem Inv.step {l : Label} (hs : s.Inv) (hok : s.KeepsBeat l) (h : s.step l = some s') :
    s'.Inv := by
  cases l with
  | event event env =>
    simp only [Heartbeating.step] at h
    split at h
    · cases h
    · rename_i hne
      rw [Inv, handle_task hne h, (handle_spec h).1]
      exact hs
  | heartbeat env =>
    simp only [Heartbeating.step] at h
    split at h
    · refine Or.inl ?_
      rw [handle_heartbeat h]
      exact s.clock.start_task hok
    · cases h
  | countdownRestarts =>
    simp only [Heartbeating.step] at h
    split at h
    · rename_i hwaiting
      cases h
      exact Or.inl hwaiting.1
    · cases h
  | countdownFires =>
    simp only [Heartbeating.step] at h
    split at h
    · cases h
      exact Or.inr rfl
    · cases h
  | countdownClears =>
    simp only [Heartbeating.step] at h
    split at h
    · rename_i hfired
      cases h
      -- what has fired does not wait, so its signal is pending
      refine Or.inr (hs.resolve_left ?_)
      rw [hfired]
      decide
    · cases h

/-- **No heartbeat is lost** in a run in which no signal is handled before its countdown
task has cleared the flag. -/
theorem beats_of_keepsBeat {t : Heartbeating} (hs : s.Start)
    (hrun : Runs Heartbeating.step KeepsBeat s t) : t.Beats := by
  have hstart : s.Inv := by
    refine Or.inl ?_
    rw [hs]
    rfl
  exact (hrun.invariant hstart fun _ _ _ => Inv.step).beats

/-- What is lost stays lost, whatever events come. -/
theorem Lost.step {l : Label} (hs : s.Lost) (h : s.step l = some s') : s'.Lost := by
  have htask := hs.task
  have hsignalled := hs.signalled
  cases l with
  | event event env =>
    simp only [Heartbeating.step] at h
    split at h
    · cases h
    · rename_i hne
      refine ⟨?_, ?_⟩
      · rw [handle_task hne h, htask]
      · rw [(handle_spec h).1, hsignalled]
  | heartbeat env => simp [Heartbeating.step, hsignalled] at h
  | countdownRestarts => simp [Heartbeating.step, htask] at h
  | countdownFires => simp [Heartbeating.step, htask] at h
  | countdownClears => simp [Heartbeating.step, htask] at h

/-- **A signal that is handled too early is the last one**: the countdown task clears its
flag, and in no state from there on is a heartbeat to come. -/
theorem lost_of_overtaken (hfired : s.clock.task = .fired)
    (h : s.step (.heartbeat env) = some s') :
    ∃ t, s'.step .countdownClears = some t ∧ ∀ u, Reaches Heartbeating.step t u → ¬ u.Beats := by
  simp only [Heartbeating.step] at h
  split at h
  · have htask : s'.clock.task = .fired := by
      rw [handle_heartbeat h, CountDownClock.start, CountDownClock.isRunning, hfired]
      exact hfired
    refine ⟨s'.setClock { s'.clock with task := .none }, ?_, ?_⟩
    · simp only [Heartbeating.step, htask, if_true]
    · intro u hrun
      have hlost : (s'.setClock { s'.clock with task := .none }).Lost := ⟨rfl, (handle_spec h).1⟩
      exact (hrun.invariant hlost fun _ _ _ ha _ hstep => ha.step hstep).not_beats
  · cases h

/-- A Leader of three, just elected in term 1 with an empty log. -/
def elected : Heartbeating where
  leader := Leader.new (.ofKeys [2, 3] (by decide) fun _ => LogPosition.withNextSlot 1)
  ctx := { PaxosSharedContext.memberOfThree 1 with term := 1 }
  signalled := false

/-- The countdown fires and clears its flag, the heartbeat is handled, the next countdown
fires. -/
theorem beats_of_keepsBeat_twice :
    ∃ t, Runs Heartbeating.step KeepsBeat elected t ∧ t.Beats := by
  have hrun : Runs Heartbeating.step KeepsBeat elected _ :=
    (((((Runs.refl elected).tail .countdownFires trivial rfl).tail .countdownClears trivial
      rfl).tail (.heartbeat (.steady 0)) (show CountDownTask.none ≠ .fired by decide) rfl).tail
      .countdownFires trivial rfl)
  exact ⟨_, hrun, beats_of_keepsBeat (show elected.Start from rfl) hrun⟩

/-- The heartbeat is handled between the callback and the cleared flag. -/
theorem not_beats_overtaken :
    ¬ ∀ s t : Heartbeating, s.Start → Reaches Heartbeating.step s t → t.Beats := by
  intro h
  have hrun : Reaches Heartbeating.step elected _ :=
    Runs.of_exec [.countdownFires, .heartbeat (.steady 0), .countdownClears] rfl
  rcases h elected _ rfl hrun (by decide) with hrunning | hsignalled
  · exact absurd hrunning (by decide)
  · exact absurd hsignalled (by decide)

end Heartbeating
end SpannerPaxos
