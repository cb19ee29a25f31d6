import SpannerPaxos.CampaignBudget
import SpannerPaxos.Notify
import Mathlib.Data.List.Perm.Basic
import Mathlib.Logic.Function.Basic

/-! # The event loop

`PaxosStateMachine::start`: one task that looks at its arms in a fixed order, the
cancellation first and the event channel last, handles the event of the first arm that is
ready, and starts over.  Everything else runs beside it and may come between any two looks:
the token is cancelled, a timer signals, an event is sent, the election countdown fires.

The loop does what the machine of its `Member` does; a timer that has signalled waits for
at most one turn of an arm behind its own; and what a cancellation leads to depends on
where it finds the loop.
-/
namespace SpannerPaxos

namespace PaxosEvent

/-- The events that are sent to the channel by others than the Follower's countdown. -/
def isPosted : PaxosEvent → Bool
  | leaderLeaseExpired | electionCountdownExpired | writeFlushTimerFired
  | acceptTimeoutCheckFired | heartbeatTimerFired => false
  | _ => true

theorem not_isWakeup_of_isPosted {event : PaxosEvent} (h : event.isPosted = true) :
    event.isWakeup = false := by
  cases event with
  | leaderLeaseExpired | electionCountdownExpired => cases h
  | _ => rfl

end PaxosEvent

namespace EventLoop

/-- The signals that bypass the channel. -/
inductive Timer where
  | heartbeat
  | acceptTimeoutCheck
  | writeFlush
  deriving DecidableEq

def Timer.event : Timer → PaxosEvent
  | heartbeat => .heartbeatTimerFired
  | acceptTimeoutCheck => .acceptTimeoutCheckFired
  | writeFlush => .writeFlushTimerFired

/-- The arms of `select!`. -/
inductive Arm where
  | cancelled
  | lease
  | timer (timer : Timer)
  | recv
  deriving DecidableEq

/-- The place of an arm in the order in which the arms are looked at. -/
def Arm.rank : Arm → Nat
  | cancelled => 0
  | lease => 1
  | timer .heartbeat => 2
  | timer .acceptTimeoutCheck => 3
  | timer .writeFlush => 4
  | recv => 5

/-- The arm behind a timer's. -/
def Timer.next : Timer → Arm
  | heartbeat => .timer .acceptTimeoutCheck
  | acceptTimeoutCheck => .timer .writeFlush
  | writeFlush => .recv

inductive Stage where
  /-- The arm is looked at next. -/
  | polling (arm : Arm)
  /-- No arm was ready. -/
  | suspended
  /-- An arm was ready with this event. -/
  | handling (event : PaxosEvent)
  /-- The task has returned, or panicked. -/
  | ended (returned : Bool)
  deriving DecidableEq

/-- The capacity of the event channel. -/
def capacity : Nat := 1024

end EventLoop

structure EventLoop where
  role : PaxosState
  ctx : PaxosSharedContext
  eventRx : List PaxosEvent
  cancelled : Bool
  notify : EventLoop.Timer → Notify
  stage : EventLoop.Stage
  /-- The arms that have been ready, oldest first. -/
  turns : List EventLoop.Arm

namespace EventLoop

inductive Label where
  /-- The arm at hand is looked at, at the reading `utc`. -/
  | poll (utc : DateTime)
  /-- The suspended task is woken. -/
  | wake
  /-- The event at hand is processed. -/
  | handle (env : Env)
  | cancel
  | signal (timer : Timer)
  | send (event : PaxosEvent)
  /-- The Follower's countdown fires. -/
  | countdownFires
  /-- The fired countdown clears its running flag. -/
  | countdownClears

/-- The loop with its first state, before the first look. -/
def start (memberId : Uuid) (peerIds : List Uuid) (h : peerIds.Nodup) : EventLoop where
  role := .follower (Follower.new none)
  ctx := PaxosSharedContext.new memberId peerIds h
  eventRx := []
  cancelled := false
  notify _ := Notify.new
  stage := .polling .cancelled
  turns := []

/-- The arm is ready with the event: the other arms are given up. -/
def take (s : EventLoop) (arm : Arm) (event : PaxosEvent) : EventLoop :=
  { s with
    notify := fun timer => (s.notify timer).abandon
    stage := .handling event
    turns := s.turns ++ [arm] }

/-- The next arm is looked at. -/
def goOn (s : EventLoop) (arm : Arm) : EventLoop := { s with stage := .polling arm }

/-- A look at an arm. -/
def poll (s : EventLoop) (utc : DateTime) : Arm → EventLoop
  | .cancelled => if s.cancelled then { s with stage := .ended true } else s.goOn .lease
  | .lease =>
    if s.cancelled then s.take .lease .leaderLeaseExpired
    else match s.ctx.leaseExpiry with
      | none => s.goOn (.timer .heartbeat)
      | some expiry =>
        if TrueTime.commitWait expiry utc then
          { s with ctx := { s.ctx with leaseExpiry := none } }.take .lease .leaderLeaseExpired
        else s.goOn (.timer .heartbeat)
  | .timer timer =>
    if s.cancelled then s.take (.timer timer) timer.event
    else
      let (ready, notify) := (s.notify timer).poll
      let s := { s with notify := Function.update s.notify timer notify }
      if ready then s.take (.timer timer) timer.event else s.goOn timer.next
  | .recv =>
    match s.eventRx with
    | [] => { s with stage := .suspended }
    | event :: rest => { s with eventRx := rest }.take .recv event

/-- The signals after an event has been handled: a full batch asks for a flush. -/
def flushed (notify : Timer → Notify) (effects : List Effect) : Timer → Notify :=
  if .signalWriteFlush ∈ effects then
    Function.update notify .writeFlush (notify .writeFlush).notifyOne
  else notify

def step (s : EventLoop) : Label → Option EventLoop
  | .poll utc =>
    match s.stage with
    | .polling arm => some (s.poll utc arm)
    | _ => none
  | .wake =>
    match s.stage with
    | .suspended => some (s.goOn .cancelled)
    | _ => none
  | .handle env =>
    match s.stage with
    | .handling event =>
      let o := s.role.processEvent event s.ctx s.cancelled env
      match o.result with
      | .ok role => some { s with
        role := role
        ctx := o.ctx
        notify := flushed s.notify o.effects
        stage := .polling .cancelled }
      | .error .waiting => none
      -- `.expect` panics, and what the task holds is dropped
      | .error _ => some { s with stage := .ended false }
    | _ => none
  | .cancel => some { s with cancelled := true }
  | .signal timer => some { s with
    notify := Function.update s.notify timer (s.notify timer).notifyOne }
  | .send event =>
    if event.isPosted = true ∧ s.eventRx.length < capacity then
      some { s with eventRx := s.eventRx ++ [event] }
    else none
  | .countdownFires =>
    match s.role with
    | .follower f =>
      if f.electionCdClock.task = .waiting then
        -- `try_send` gives up on a full channel
        some { s with
          role := Member.setTask f .fired
          eventRx := if s.eventRx.length < capacity then s.eventRx ++ [.electionCountdownExpired]
            else s.eventRx }
      else none
    | _ => none
  | .countdownClears =>
    match s.role with
    | .follower f =>
      if f.electionCdClock.task = .fired then some { s with role := Member.setTask f .none }
      else none
    | _ => none

/-! ## What a step does -/

/-- What a look at an arm comes to. -/
inductive Looks (s : EventLoop) (utc : DateTime) (arm : Arm) : EventLoop → Prop
  /-- The loop sees the cancellation and returns. -/
  | returns (harm : arm = .cancelled) (hcancelled : s.cancelled = true) :
      Looks s utc arm { s with stage := .ended true }
  /-- The arm is not ready, and the next one is looked at. -/
  | passes (next : Arm) (notify : Timer → Notify) (hrank : next.rank = arm.rank + 1)
      (hcancelled : s.cancelled = false)
      (hnotify : ∀ timer, 0 < (s.notify timer).signals →
        arm ≠ .timer timer ∧ notify timer = s.notify timer) :
      Looks s utc arm { s with notify := notify, stage := .polling next }
  | suspends (harm : arm = .recv) (hrx : s.eventRx = []) :
      Looks s utc arm { s with stage := .suspended }
  /-- A watcher sees the cancellation: its arm is ready, but not for what it waits for. -/
  | stops (event : PaxosEvent) (hcancelled : s.cancelled = true)
      (harm : arm = .lease ∨ ∃ timer, arm = .timer timer) : Looks s utc arm (s.take arm event)
  | expires (hcancelled : s.cancelled = false) (harm : arm = .lease) {expiry : DateTime}
      (hexpiry : s.ctx.leaseExpiry = some expiry)
      (hover : TrueTime.commitWait expiry utc = true) :
      Looks s utc arm ({ s with ctx := { s.ctx with leaseExpiry := none } }.take .lease
        .leaderLeaseExpired)
  /-- A signal is taken. -/
  | fires (timer : Timer) (notify : Timer → Notify) (hcancelled : s.cancelled = false)
      (harm : arm = .timer timer) (hsignals : 0 < (s.notify timer).signals)
      (hnotify : ∀ other, other ≠ timer → notify other = s.notify other) :
      Looks s utc arm ({ s with notify := notify }.take (.timer timer) timer.event)
  | receives (harm : arm = .recv) (event : PaxosEvent) (rest : List PaxosEvent)
      (hrx : s.eventRx = event :: rest) :
      Looks s utc arm ({ s with eventRx := rest }.take .recv event)

theorem looks (s : EventLoop) (utc : DateTime) (arm : Arm) : s.Looks utc arm (s.poll utc arm) := by
  cases arm with
  | cancelled =>
    simp only [poll]
    split
    · rename_i hcancelled
      exact .returns rfl hcancelled
    · rename_i hcancelled
      exact .passes .lease s.notify rfl (Bool.eq_false_of_not_eq_true hcancelled)
        fun timer _ => ⟨(fun heq => by cases heq), rfl⟩
  | lease =>
    have hpasses : s.cancelled = false → s.Looks utc .lease (s.goOn (.timer .heartbeat)) :=
      fun hcancelled => .passes (.timer .heartbeat) s.notify rfl hcancelled
        fun timer _ => ⟨(fun heq => by cases heq), rfl⟩
    simp only [poll]
    split
    · rename_i hcancelled
      exact .stops _ hcancelled (Or.inl rfl)
    · rename_i hcancelled
      have hno := Bool.eq_false_of_not_eq_true hcancelled
      split
      · exact hpasses hno
      · rename_i expiry hexpiry
        split
        · rename_i hover
          exact .expires hno rfl hexpiry hover
        · exact hpasses hno
  | timer timer =>
    obtain ⟨hready, _⟩ := (s.notify timer).poll_spec
    simp only [poll]
    split
    · rename_i hcancelled
      exact .stops _ hcancelled (Or.inr ⟨timer, rfl⟩)
    · rename_i hcancelled
      have hno := Bool.eq_false_of_not_eq_true hcancelled
      split
      · rename_i hfound
        exact .fires timer _ hno rfl (of_decide_eq_true (hready.symm.trans hfound))
          fun other hother => Function.update_of_ne hother _ _
      · rename_i hfound
        refine .passes timer.next _ (by cases timer <;> rfl) hno fun other hsignals => ?_
        have hother : other ≠ timer := by
          rintro rfl
          exact hfound (hready.trans (decide_eq_true hsignals))
        refine ⟨fun heq => hother (Arm.timer.inj heq).symm, ?_⟩
        exact Function.update_of_ne hother _ _
  | recv =>
    simp only [poll]
    split
    · rename_i hrx
      exact .suspends rfl hrx
    · rename_i event rest hrx
      exact .receives rfl event rest hrx

variable {s s' t : EventLoop} {m : Member}

/-- What a step does. -/
inductive Moves (s : EventLoop) : Label → EventLoop → Prop
  | looks {arm : Arm} {utc : DateTime} {s' : EventLoop} (hstage : s.stage = .polling arm)
      (hlook : s.Looks utc arm s') : Moves s (.poll utc) s'
  | wakes (hstage : s.stage = .suspended) : Moves s .wake (s.goOn .cancelled)
  | handles {event : PaxosEvent} {env : Env} {role : PaxosState}
      (hstage : s.stage = .handling event)
      (hresult : (s.role.processEvent event s.ctx s.cancelled env).result = .ok role) :
      Moves s (.handle env) { s with
        role := role
        ctx := (s.role.processEvent event s.ctx s.cancelled env).ctx
        notify := flushed s.notify (s.role.processEvent event s.ctx s.cancelled env).effects
        stage := .polling .cancelled }
  | fails {event : PaxosEvent} {env : Env} (hstage : s.stage = .handling event) :
      Moves s (.handle env) { s with stage := .ended false }
  | cancels : Moves s .cancel { s with cancelled := true }
  | signals (timer : Timer) : Moves s (.signal timer) { s with
      notify := Function.update s.notify timer (s.notify timer).notifyOne }
  | sends (event : PaxosEvent) (hposted : event.isPosted = true) :
      Moves s (.send event) { s with eventRx := s.eventRx ++ [event] }
  | fires {f : Follower} (hrole : s.role = .follower f)
      (htask : f.electionCdClock.task = .waiting) : Moves s .countdownFires { s with
        role := Member.setTask f .fired
        eventRx := if s.eventRx.length < capacity then s.eventRx ++ [.electionCountdownExpired]
          else s.eventRx }
  | clears {f : Follower} (hrole : s.role = .follower f)
      (htask : f.electionCdClock.task = .fired) :
      Moves s .countdownClears { s with role := Member.setTask f .none }

theorem moves_of_step {l : Label} (hstep : s.step l = some s') : s.Moves l s' := by
  cases l with
  | poll utc =>
    simp only [step] at hstep
    split at hstep
    · rename_i arm hstage
      cases Option.some.inj hstep
      exact .looks hstage (s.looks utc arm)
    · cases hstep
  | wake =>
    simp only [step] at hstep
    split at hstep
    · rename_i hstage
      cases Option.some.inj hstep
      exact .wakes hstage
    · cases hstep
  | handle env =>
    simp only [step] at hstep
    split at hstep
    · rename_i event hstage
      split at hstep
      · rename_i role hresult
        cases Option.some.inj hstep
        exact .handles hstage hresult
      · cases hstep
      · cases Option.some.inj hstep
        exact .fails hstage
    · cases hstep
  | cancel =>
    cases Option.some.inj hstep
    exact .cancels
  | signal timer =>
    cases Option.some.inj hstep
    exact .signals timer
  | send event =>
    simp only [step] at hstep
    split at hstep
    · rename_i hposted
      cases Option.some.inj hstep
      exact .sends event hposted.1
    · cases hstep
  | countdownFires =>
    simp only [step] at hstep
    split at hstep
    · rename_i f hrole
      split at hstep
      · rename_i htask
        cases Option.some.inj hstep
        exact .fires hrole htask
      · cases hstep
    · cases hstep
  | countdownClears =>
    simp only [step] at hstep
    split at hstep
    · rename_i f hrole
      split at hstep
      · rename_i htask
        cases Option.some.inj hstep
        exact .clears hrole htask
      · cases hstep
    · cases hstep

/-! ## The loop does what its member does -/

def Stage.inHand : Stage → List PaxosEvent
  | handling event => [event]
  | polling _ | suspended | ended _ => []

/-- The wakeups that have been raised and not handled. -/
def wakeups (s : EventLoop) : List PaxosEvent :=
  (s.stage.inHand ++ s.eventRx).filter PaxosEvent.isWakeup

/-- The loop has not been stopped. -/
def Serving (s : EventLoop) : Prop := s.cancelled = false ∧ s.stage ≠ .ended false

/-- The loop has the role and the context of the member, and until it is stopped the
member's wakeups, in some order. -/
structure Simulates (s : EventLoop) (m : Member) : Prop where
  role : m.role = s.role
  ctx : m.ctx = s.ctx
  pending : s.Serving → m.pending.Perm s.wakeups

theorem simulates_start (memberId : Uuid) (peerIds : List Uuid) (h : peerIds.Nodup) :
    (start memberId peerIds h).Simulates (Member.start memberId peerIds h) :=
  ⟨rfl, rfl, fun _ => .refl _⟩

namespace Simulates

/-- Nothing is seen of a step that changes neither the role nor the context, and raises
or takes no wakeup. -/
theorem unseen (h : s.Simulates m) (hrole : s'.role = s.role) (hctx : s'.ctx = s.ctx)
    (hwakeups : s'.Serving → s.Serving ∧ s'.wakeups = s.wakeups) : s'.Simulates m where
  role := h.role.trans hrole.symm
  ctx := h.ctx.trans hctx.symm
  pending hserving := by
    obtain ⟨hbefore, hsame⟩ := hwakeups hserving
    rw [hsame]
    exact h.pending hbefore

/-- A look at an arm raises a wakeup where the lease is over, and otherwise moves what is
in hand. -/
theorem look (h : s.Simulates m) {arm : Arm} (hstage : s.stage = .polling arm) {utc : DateTime}
    (hlook : s.Looks utc arm s') : ∃ m', Reaches Member.step m m' ∧ s'.Simulates m' := by
  have hwakeups : s.wakeups = s.eventRx.filter PaxosEvent.isWakeup := by
    rw [wakeups, hstage]
    rfl
  have hserving : s.cancelled = false → s.Serving := fun hno => ⟨hno, by simp [hstage]⟩
  cases hlook with
  | returns | suspends | passes =>
    exact ⟨m, .refl m, h.unseen rfl rfl fun hs' => ⟨hserving hs'.1, hwakeups.symm⟩⟩
  | stops _ hcancelled =>
    refine ⟨m, .refl m, h.unseen rfl rfl fun hs' => ?_⟩
    rw [show s.cancelled = false from hs'.1] at hcancelled
    cases hcancelled
  | expires hno _ hexpiry hover =>
    -- the member's lease watcher has come to its end
    refine ⟨⟨m.role, { m.ctx with leaseExpiry := none }, .leaderLeaseExpired :: m.pending⟩,
      (Runs.refl m).tail (.leaseWatcher utc) trivial ?_, h.role, ?_, fun _ => ?_⟩
    · simp only [Member.step, h.ctx, hexpiry, hover, if_true]
    · rw [h.ctx]
      rfl
    · have hpending := h.pending (hserving hno)
      rw [hwakeups] at hpending
      exact hpending.cons _
  | fires timer =>
    refine ⟨m, .refl m, h.unseen rfl rfl fun hs' => ⟨hserving hs'.1, ?_⟩⟩
    rw [hwakeups]
    cases timer <;> rfl
  | receives _ event rest hrx =>
    refine ⟨m, .refl m, h.unseen rfl rfl fun hs' => ⟨hserving hs'.1, ?_⟩⟩
    rw [hwakeups, hrx]
    rfl

/-- The member handles the event in hand. -/
theorem handle (h : s.Simulates m) {event : PaxosEvent} (hstage : s.stage = .handling event)
    (hcancelled : s.cancelled = false) {env : Env} {role : PaxosState}
    (hresult : (s.role.processEvent event s.ctx false env).result = .ok role)
    (hrole : s'.role = role) (hctx : s'.ctx = (s.role.processEvent event s.ctx false env).ctx)
    (hrx : s'.eventRx = s.eventRx) (hnext : s'.stage.inHand = []) :
    ∃ m', Reaches Member.step m m' ∧ s'.Simulates m' := by
  refine ⟨⟨role, (s.role.processEvent event s.ctx false env).ctx, m.pending.erase event⟩,
    (Runs.refl m).tail (.event event env) trivial ?_, hrole.symm, hctx.symm, fun _ => ?_⟩
  · simp only [Member.step, h.role, h.ctx, hresult]
  · have hserving : s.Serving := ⟨hcancelled, by simp [hstage]⟩
    have hpending := (h.pending hserving).erase event
    rw [wakeups, hstage] at hpending
    rw [wakeups, hnext, hrx]
    cases hwakeup : event.isWakeup with
    | true =>
      have heq : (Stage.inHand (.handling event) ++ s.eventRx).filter PaxosEvent.isWakeup =
          event :: s.eventRx.filter PaxosEvent.isWakeup := List.filter_cons_of_pos hwakeup
      rw [heq, List.erase_cons_head] at hpending
      exact hpending
    | false =>
      have heq : (Stage.inHand (.handling event) ++ s.eventRx).filter PaxosEvent.isWakeup =
          s.eventRx.filter PaxosEvent.isWakeup :=
        List.filter_cons_of_neg (by rw [hwakeup]; exact Bool.false_ne_true)
      have hnot : event ∉ s.eventRx.filter PaxosEvent.isWakeup := by
        intro hmem
        rw [(List.mem_filter.mp hmem).2] at hwakeup
        cases hwakeup
      rw [heq, List.erase_of_not_mem hnot] at hpending
      exact hpending

/-- The countdown fires, and its event goes behind what has been sent. -/
theorem countdownFires (h : s.Simulates m) {f : Follower} (hrole : s.role = .follower f)
    (htask : f.electionCdClock.task = .waiting) :
    ∃ m', Reaches Member.step m m' ∧ Simulates { s with
      role := Member.setTask f .fired
      eventRx := if s.eventRx.length < capacity then s.eventRx ++ [.electionCountdownExpired]
        else s.eventRx } m' := by
  refine ⟨⟨Member.setTask f .fired, m.ctx, if decide (s.eventRx.length < capacity) then
      .electionCountdownExpired :: m.pending else m.pending⟩,
    (Runs.refl m).tail (.countdownFires (decide (s.eventRx.length < capacity))) trivial ?_,
    rfl, h.ctx, fun hno => ?_⟩
  · simp only [Member.step, h.role, hrole, htask, if_true]
  · by_cases hroom : s.eventRx.length < capacity
    · simp only [hroom, decide_true, if_true, wakeups]
      rw [← List.append_assoc, List.filter_append]
      exact ((h.pending hno).cons _).trans (List.perm_append_singleton _ _).symm
    · simp only [hroom, decide_false, if_false, Bool.false_eq_true]
      exact h.pending hno

theorem step (h : s.Simulates m) {l : Label} (hstep : s.step l = some s') :
    ∃ m', Reaches Member.step m m' ∧ s'.Simulates m' := by
  cases moves_of_step hstep with
  | looks hstage hlook => exact h.look hstage hlook
  | wakes hstage =>
    refine ⟨m, .refl m, h.unseen rfl rfl fun hs' => ⟨⟨hs'.1, ?_⟩, ?_⟩⟩
    · simp [hstage]
    · rw [wakeups, wakeups, hstage]
      rfl
  | handles hstage hresult =>
    cases hcancelled : s.cancelled with
    | true =>
      rw [hcancelled] at hresult
      cases hresult
    | false =>
      rw [hcancelled] at hresult
      exact h.handle hstage hcancelled hresult rfl rfl rfl rfl
  | fails =>
    -- the member has failed
    exact ⟨m, .refl m, h.unseen rfl rfl fun hs' => absurd rfl hs'.2⟩
  | cancels => exact ⟨m, .refl m, h.unseen rfl rfl fun hs' => absurd hs'.1 Bool.noConfusion⟩
  | signals => exact ⟨m, .refl m, h.unseen rfl rfl fun hs' => ⟨hs', rfl⟩⟩
  | sends event hposted =>
    refine ⟨m, .refl m, h.unseen rfl rfl fun hs' => ⟨hs', ?_⟩⟩
    have hnot := PaxosEvent.not_isWakeup_of_isPosted hposted
    simp [wakeups, List.filter_append, hnot]
  | fires hrole htask => exact h.countdownFires hrole htask
  | @clears f hrole htask =>
    refine ⟨⟨Member.setTask f .none, m.ctx, m.pending⟩,
      (Runs.refl m).tail .countdownClears trivial ?_, rfl, h.ctx, h.pending⟩
    simp only [Member.step, h.role, hrole, htask, if_true]

end Simulates

/-- **The event loop is a run of its member**: whatever comes between its looks, the role
and the context of the loop are those of a member reached from the same start. -/
theorem member_of_reaches {memberId : Uuid} {peerIds : List Uuid} {h : peerIds.Nodup}
    (hrun : Reaches EventLoop.step (start memberId peerIds h) t) :
    ∃ m, Reaches Member.step (Member.start memberId peerIds h) m ∧ t.Simulates m := by
  refine hrun.invariant (P := fun t => ∃ m, Reaches Member.step
    (Member.start memberId peerIds h) m ∧ t.Simulates m)
    ⟨_, .refl _, simulates_start memberId peerIds h⟩ ?_
  rintro s l s' ⟨m, hm, hsim⟩ _ hstep
  obtain ⟨m', hm', hsim'⟩ := hsim.step hstep
  exact ⟨m', hm.trans hm', hsim'⟩

/-- The lease of the start is found over, and its event is handled. -/
theorem member_of_reaches_firstWakeup :
    ∃ t m, exec EventLoop.step (start 1 [2] (by decide)) [.poll 0, .poll (Duration.seconds 1),
        .handle (.steady (Duration.seconds 1))] = some t ∧ t.turns = [.lease] ∧
      Reaches Member.step (Member.start 1 [2] (by decide)) m ∧ t.Simulates m := by
  obtain ⟨t, hrun, hturns⟩ : ∃ t, exec EventLoop.step (start 1 [2] (by decide))
      [.poll 0, .poll (Duration.seconds 1), .handle (.steady (Duration.seconds 1))] = some t ∧
      t.turns = [.lease] := ⟨_, rfl, rfl⟩
  obtain ⟨m, hm, hsim⟩ := member_of_reaches (Runs.of_exec _ hrun)
  exact ⟨t, m, hrun, hturns, hm, hsim⟩

/-! ## A timer's turn -/

/-- The arm comes behind the timer's. -/
def Arm.isBehind (arm : Arm) (timer : Timer) : Bool := decide ((Arm.timer timer).rank < arm.rank)

theorem Arm.eq_timer_of_rank {arm : Arm} {timer : Timer} (h : arm.rank = (Arm.timer timer).rank) :
    arm = .timer timer := by
  rcases arm with _ | _ | (_ | _ | _) | _ <;> cases timer <;> first | rfl | cases h

/-- The loop is on its way through the arms behind the timer's. -/
def isPast (s : EventLoop) (timer : Timer) : Bool :=
  match s.stage with
  | .polling arm => arm.isBehind timer
  | .suspended | .handling _ | .ended _ => false

/-- Since its turns were `base`, the loop has given the timer one, or it still has its
signal, and no more than `budget` turns have gone or can go to arms behind its own. -/
def Awaits (s : EventLoop) (timer : Timer) (base : List Arm) (budget : Nat) : Prop :=
  ∃ new, s.turns = base ++ new ∧ (.timer timer ∈ new ∨ 0 < (s.notify timer).signals ∧
    new.countP (fun arm => arm.isBehind timer) + (s.isPast timer).toNat ≤ budget)

variable {timer : Timer} {base : List Arm} {budget : Nat}

/-- Where no turn is given, the signal stays. -/
theorem Awaits.kept (h : s.Awaits timer base budget) (hturns : s'.turns = s.turns)
    (hsignals : 0 < (s.notify timer).signals → 0 < (s'.notify timer).signals)
    (hpast : 0 < (s.notify timer).signals → s'.isPast timer = true → s.isPast timer = true) :
    s'.Awaits timer base budget := by
  obtain ⟨new, hnew, hmem | ⟨hsignal, hcount⟩⟩ := h
  · exact ⟨new, hturns.trans hnew, Or.inl hmem⟩
  · refine ⟨new, hturns.trans hnew, Or.inr ⟨hsignals hsignal, ?_⟩⟩
    have hle := Bool.toNat_le_toNat (hpast hsignal)
    omega

/-- Where an arm is ready, the turn is the timer's, or counts. -/
theorem Awaits.taken (h : s.Awaits timer base budget) {arm : Arm} (hstage : s.stage = .polling arm)
    {event : PaxosEvent} (hbase : s'.turns = s.turns)
    (hnotify : arm ≠ .timer timer → s'.notify timer = s.notify timer) :
    (s'.take arm event).Awaits timer base budget := by
  obtain ⟨new, hnew, hmem | ⟨hsignal, hcount⟩⟩ := h
  · refine ⟨new ++ [arm], ?_, Or.inl (List.mem_append_left _ hmem)⟩
    rw [take, hbase, hnew, List.append_assoc]
  · refine ⟨new ++ [arm], ?_, ?_⟩
    · rw [take, hbase, hnew, List.append_assoc]
    · by_cases harm : arm = .timer timer
      · exact Or.inl (List.mem_append_right _ (harm ▸ List.mem_singleton_self _))
      · refine Or.inr ⟨?_, ?_⟩
        · refine (Notify.signals_abandon _).1.mpr ?_
          rw [hnotify harm]
          exact hsignal
        · -- the turn was on its way already
          have hpast : s.isPast timer = arm.isBehind timer := by rw [isPast, hstage]
          rw [hpast] at hcount
          rw [List.countP_append, List.countP_singleton, ← Bool.cond_eq_ite]
          exact hcount

theorem Awaits.look (h : s.Awaits timer base budget) {arm : Arm} (hstage : s.stage = .polling arm)
    {utc : DateTime} (hlook : s.Looks utc arm s') : s'.Awaits timer base budget := by
  cases hlook with
  | returns | suspends => exact h.kept rfl id fun _ hpast => Bool.noConfusion hpast
  | passes next notify hrank _ hnotify =>
    refine h.kept rfl (fun hsignal => ?_) fun hsignal hpast => ?_
    · dsimp only
      rw [(hnotify timer hsignal).2]
      exact hsignal
    · -- the arm before the next one is not the timer's, so it is behind the timer's too
      have hlt : (Arm.timer timer).rank < next.rank := of_decide_eq_true hpast
      have hne : arm.rank ≠ (Arm.timer timer).rank :=
        fun heq => (hnotify timer hsignal).1 (Arm.eq_timer_of_rank heq)
      rw [isPast, hstage]
      exact decide_eq_true (by omega)
  | stops event => exact h.taken hstage rfl fun _ => rfl
  | expires _ harm =>
    subst harm
    exact h.taken hstage rfl fun _ => rfl
  | fires other notify _ harm _ hnotify =>
    subst harm
    exact h.taken hstage rfl fun hne => hnotify timer fun heq => hne (by rw [heq])
  | receives harm =>
    subst harm
    exact h.taken hstage rfl fun _ => rfl

/-- A new signal is one more to be had. -/
theorem signals_notified (s : EventLoop) (other : Timer) (h : 0 < (s.notify timer).signals) :
    0 < (Function.update s.notify other (s.notify other).notifyOne timer).signals := by
  by_cases heq : timer = other
  · subst heq
    rw [Function.update_self]
    exact (s.notify timer).signals_notifyOne.1
  · rwa [Function.update_of_ne heq]

/-- **A step keeps the timer's place.** -/
theorem Awaits.step (h : s.Awaits timer base budget) {l : Label} (hstep : s.step l = some s') :
    s'.Awaits timer base budget := by
  have hfirst : ∀ s' : EventLoop, s'.stage = .polling .cancelled → s'.isPast timer = false := by
    intro s' hstage
    rw [isPast, hstage]
    cases timer <;> rfl
  cases moves_of_step hstep with
  | looks hstage hlook => exact h.look hstage hlook
  | wakes =>
    refine h.kept rfl id fun _ hpast => ?_
    rw [hfirst _ rfl] at hpast
    cases hpast
  | handles =>
    refine h.kept rfl (fun hsignal => ?_) fun _ hpast => ?_
    · dsimp only [flushed]
      split
      · exact s.signals_notified _ hsignal
      · exact hsignal
    · rw [hfirst _ rfl] at hpast
      cases hpast
  | fails => exact h.kept rfl id fun _ hpast => Bool.noConfusion hpast
  | signals other => exact h.kept rfl (s.signals_notified other) fun _ hpast => hpast
  | cancels | sends | fires | clears => exact h.kept rfl id fun _ hpast => hpast

/-- **A timer that has signalled waits for one turn at most**: until it gets its own, its
signal stays, and no turn goes to an arm behind it, but for one if the loop was past the
timer's arm already. -/
theorem turn_of_signal (s : EventLoop) (timer : Timer) (hsignal : 0 < (s.notify timer).signals)
    (hrun : Reaches EventLoop.step s t) :
    ∃ new, t.turns = s.turns ++ new ∧ (.timer timer ∈ new ∨ 0 < (t.notify timer).signals ∧
      new.countP (fun arm => arm.isBehind timer) ≤ (s.isPast timer).toNat) := by
  have hstart : s.Awaits timer s.turns (s.isPast timer).toNat :=
    ⟨[], (List.append_nil _).symm, Or.inr ⟨hsignal, Nat.le_of_eq (Nat.zero_add _)⟩⟩
  have hend : t.Awaits timer s.turns (s.isPast timer).toNat :=
    hrun.invariant hstart fun _ _ _ (ha : Awaits _ _ _ _) _ hstep => ha.step hstep
  obtain ⟨new, hnew, hmem | ⟨hstays, hcount⟩⟩ := hend
  · exact ⟨new, hnew, Or.inl hmem⟩
  · exact ⟨new, hnew, Or.inr ⟨hstays, (Nat.le_add_right _ _).trans hcount⟩⟩

/-- A flush is signalled while the loop is past the timers, and an event is in the channel:
the event is handled, and then the flush has its turn. -/
theorem turn_of_signal_behind :
    ∃ s t new, exec EventLoop.step (start 1 [2] (by decide)) [.send .voteCampaignExpired, .poll 0,
        .poll 0, .poll 0, .poll 0, .poll 0, .signal .writeFlush] = some s ∧
      exec EventLoop.step s [.poll 0, .handle (.steady 0), .poll 0, .poll 0, .poll 0,
        .poll 0] = some t ∧ t.turns = [.recv] ∧ t.turns = s.turns ++ new ∧
      new.countP (fun arm => arm.isBehind .writeFlush) ≤ 1 := by
  obtain ⟨s, hs, hsignal, hpast, t, ht, hturns⟩ : ∃ s, exec EventLoop.step
      (start 1 [2] (by decide)) [.send .voteCampaignExpired, .poll 0, .poll 0, .poll 0, .poll 0,
        .poll 0, .signal .writeFlush] = some s ∧ 0 < (s.notify .writeFlush).signals ∧
      s.isPast .writeFlush = true ∧ ∃ t, exec EventLoop.step s [.poll 0, .handle (.steady 0),
        .poll 0, .poll 0, .poll 0, .poll 0] = some t ∧ t.turns = [.recv] :=
    ⟨_, rfl, by decide, rfl, _, rfl, rfl⟩
  obtain ⟨new, hnew, hmem | ⟨_, hcount⟩⟩ := turn_of_signal s .writeFlush hsignal (Runs.of_exec _ ht)
  · have hmem' : Arm.timer .writeFlush ∈ t.turns := hnew ▸ List.mem_append_right _ hmem
    rw [hturns] at hmem'
    cases List.mem_singleton.mp hmem'
  · rw [hpast] at hcount
    exact ⟨s, t, new, hs, ht, hturns, hnew, hcount⟩

/-! ## Shutdown -/

/-- The steps of the loop itself, as against those of what runs beside it. -/
def Label.isOwn : Label → Bool
  | poll _ | wake | handle _ => true
  | cancel | signal _ | send _ | countdownFires | countdownClears => false

/-- The loop looks at the cancellation before anything else. -/
def Quiet (s : EventLoop) : Prop := s.stage = .suspended ∨ s.stage = .polling .cancelled

/-- The loop is past the cancellation's arm, and comes to an event before it is there
again. -/
def Exposed (s : EventLoop) : Prop :=
  match s.stage with
  | .handling _ | .polling .lease | .polling (.timer _) => True
  | .polling .recv => s.eventRx ≠ []
  | .polling .cancelled | .suspended | .ended _ => False

/-- How many steps of its own a cancelled loop has before it. -/
def Stage.remaining : Stage → Nat
  | ended _ => 0
  | handling _ | polling .cancelled => 1
  | polling .lease | polling (.timer _) | suspended => 2
  | polling .recv => 3

/-- What a cancelled loop keeps from `s` on: it changes nothing of the context, and ends as
it must. -/
structure Stopping (s t : EventLoop) : Prop where
  cancelled : t.cancelled = true
  ctx : t.ctx = s.ctx
  quiet : s.Quiet → t.Quiet ∨ t.stage = .ended true
  exposed : s.Exposed → t.Exposed ∨ t.stage = .ended false

namespace Stopping

theorem refl (h : s.cancelled = true) : s.Stopping s := ⟨h, rfl, Or.inl, Or.inl⟩

theorem trans (h : s.Stopping s') (h' : s'.Stopping t)
    (hended : ∀ returned, s'.stage = .ended returned → t.stage = .ended returned) :
    s.Stopping t where
  cancelled := h'.cancelled
  ctx := h'.ctx.trans h.ctx
  quiet hs := by
    rcases h.quiet hs with hquiet | hend
    · exact h'.quiet hquiet
    · exact Or.inr (hended true hend)
  exposed hs := by
    rcases h.exposed hs with hexposed | hend
    · exact h'.exposed hexposed
    · exact Or.inr (hended false hend)

/-- What runs beside the loop leaves its stage, and takes nothing from the channel. -/
theorem beside (hcancelled : s'.cancelled = true) (hctx : s'.ctx = s.ctx)
    (hstage : s'.stage = s.stage) (hrx : s.eventRx ≠ [] → s'.eventRx ≠ []) : s.Stopping s' where
  cancelled := hcancelled
  ctx := hctx
  quiet hs := Or.inl (by rw [Quiet, hstage]; exact hs)
  exposed hs := by
    refine Or.inl ?_
    unfold Exposed at hs ⊢
    rw [hstage]
    split at hs
    · trivial
    · trivial
    · trivial
    · exact hrx hs
    · exact hs
    · exact hs
    · exact hs

/-- A look of a cancelled loop. -/
theorem look (h : s.cancelled = true) {arm : Arm} (hstage : s.stage = .polling arm)
    {utc : DateTime} (hlook : s.Looks utc arm s') :
    s.Stopping s' ∧ s'.stage.remaining < s.stage.remaining := by
  cases hlook with
  | returns harm =>
    subst harm
    refine ⟨⟨h, rfl, fun _ => Or.inr rfl, fun hs => ?_⟩, by rw [hstage]; exact Nat.one_pos⟩
    rw [Exposed, hstage] at hs
    exact hs.elim
  | passes _ _ _ hno | expires hno | fires _ _ hno =>
    rw [h] at hno
    cases hno
  | suspends harm hrx =>
    subst harm
    refine ⟨⟨h, rfl, fun _ => Or.inl (Or.inl rfl), fun hs => ?_⟩,
      by rw [hstage]; exact Nat.lt_succ_self 2⟩
    rw [Exposed, hstage] at hs
    exact absurd hrx hs
  | stops event _ harm =>
    refine ⟨⟨h, rfl, fun hs => ?_, fun _ => Or.inl trivial⟩, ?_⟩
    · rw [Quiet, hstage] at hs
      rcases harm with rfl | ⟨timer, rfl⟩
      · rcases hs with hs | hs <;> cases hs
      · rcases hs with hs | hs <;> cases hs
    · rw [hstage]
      rcases harm with rfl | ⟨timer, rfl⟩
      · exact Nat.lt_succ_self 1
      · exact Nat.lt_succ_self 1
  | receives harm event rest =>
    subst harm
    refine ⟨⟨h, rfl, fun hs => ?_, fun _ => Or.inl trivial⟩,
      by rw [hstage]; exact Nat.lt_add_of_pos_right Nat.two_pos⟩
    rw [Quiet, hstage] at hs
    rcases hs with hs | hs <;> cases hs

/-- A step of a cancelled loop: the loop's own lead to its end, and no other ends it. -/
theorem step (h : s.cancelled = true) {l : Label} (hstep : s.step l = some s') :
    s.Stopping s' ∧ s'.stage.remaining + l.isOwn.toNat ≤ s.stage.remaining := by
  cases moves_of_step hstep with
  | looks hstage hlook =>
    obtain ⟨hstopping, hlt⟩ := look h hstage hlook
    exact ⟨hstopping, hlt⟩
  | wakes hstage =>
    refine ⟨⟨h, rfl, fun _ => Or.inl (Or.inr rfl), fun hs => ?_⟩,
      by rw [hstage]; exact Nat.le_refl 2⟩
    rw [Exposed, hstage] at hs
    exact hs.elim
  | handles _ hresult =>
    -- `process_event` refuses
    rw [h] at hresult
    cases hresult
  | fails hstage =>
    refine ⟨⟨h, rfl, fun hs => ?_, fun _ => Or.inr rfl⟩, by rw [hstage]; exact Nat.le_refl 1⟩
    rw [Quiet, hstage] at hs
    rcases hs with hs | hs <;> cases hs
  | cancels => exact ⟨beside rfl rfl rfl id, Nat.le_refl _⟩
  | signals | clears => exact ⟨beside h rfl rfl id, Nat.le_refl _⟩
  | sends event =>
    exact ⟨beside h rfl rfl fun _ => List.append_ne_nil_of_right_ne_nil _ (List.cons_ne_nil _ _),
      Nat.le_refl _⟩
  | fires =>
    refine ⟨beside h rfl rfl fun hrx => ?_, Nat.le_refl _⟩
    dsimp only
    split
    · exact List.append_ne_nil_of_right_ne_nil _ (List.cons_ne_nil _ _)
    · exact hrx

end Stopping

/-- A task that has ended stays as it has ended. -/
theorem ended_of_step {returned : Bool} (h : s.stage = .ended returned) {l : Label}
    (hstep : s.step l = some s') : s'.stage = .ended returned := by
  cases moves_of_step hstep with
  | looks hstage | wakes hstage | handles hstage | fails hstage =>
    rw [h] at hstage
    cases hstage
  | cancels | signals | sends | fires | clears => exact h

/-- The run of a cancelled loop. -/
theorem stopping_of_exec (h : s.cancelled = true) {ls : List Label}
    (hrun : exec EventLoop.step s ls = some t) :
    s.Stopping t ∧ t.stage.remaining + ls.countP Label.isOwn ≤ s.stage.remaining := by
  induction ls generalizing s with
  | nil =>
    cases Option.some.inj hrun
    exact ⟨.refl h, Nat.le_refl _⟩
  | cons l ls ih =>
    obtain ⟨mid, hmid, hrest⟩ := Option.bind_eq_some_iff.mp hrun
    obtain ⟨hfirst, hle⟩ := Stopping.step h hmid
    obtain ⟨hlater, hcount⟩ := ih hfirst.cancelled hrest
    refine ⟨hfirst.trans hlater fun returned hend => ?_, ?_⟩
    · exact (Runs.of_exec ls hrest).invariant (P := fun t => t.stage = .ended returned) hend
        fun _ _ _ ha _ hstep => ended_of_step ha hstep
    · rw [List.countP_cons, ← Bool.cond_eq_ite]
      exact (Nat.add_assoc _ _ _ ▸ Nat.add_le_add_right hcount _).trans hle

/-- A task that has not ended can go on. -/
theorem exists_own_step (h : s.cancelled = true) (hends : ∀ returned, s.stage ≠ .ended returned)
    (utc : DateTime) (env : Env) :
    ∃ l ∈ [Label.poll utc, .wake, .handle env], (s.step l).isSome = true := by
  cases hstage : s.stage with
  | polling arm => exact ⟨.poll utc, by simp, by simp only [step, hstage]; rfl⟩
  | suspended => exact ⟨.wake, by simp, by simp only [step, hstage]; rfl⟩
  | handling event => exact ⟨.handle env, by simp, by simp only [step, hstage, h]; rfl⟩
  | ended returned => exact absurd hstage (hends returned)

/-- **What a cancellation leads to**: the loop takes at most three more steps of its own,
none of them changes the context, and it can always take one until it has ended.  It
returns if the cancellation finds it suspended or at the top, and panics if it finds it at
another watcher's arm, at a channel that is not empty, or with an event in hand. -/
theorem shutdown (h : s.cancelled = true) {ls : List Label}
    (hrun : exec EventLoop.step s ls = some t) :
    t.ctx = s.ctx ∧ ls.countP Label.isOwn ≤ 3 ∧
      ((∀ returned, t.stage ≠ .ended returned) → ∀ utc env,
        ∃ l ∈ [Label.poll utc, .wake, .handle env], (t.step l).isSome = true) ∧
      ∀ returned, t.stage = .ended returned →
        (s.Quiet → returned = true) ∧ (s.Exposed → returned = false) := by
  obtain ⟨hstopping, hcount⟩ := stopping_of_exec h hrun
  have hremaining : s.stage.remaining ≤ 3 := by
    unfold Stage.remaining
    split <;> omega
  refine ⟨hstopping.ctx, by omega, exists_own_step hstopping.cancelled, fun returned hend => ?_⟩
  refine ⟨fun hquiet => ?_, fun hexposed => ?_⟩
  · rcases hstopping.quiet hquiet with (hstage | hstage) | hstage
    · rw [hend] at hstage
      cases hstage
    · rw [hend] at hstage
      cases hstage
    · rw [hend] at hstage
      exact Stage.ended.inj hstage
  · rcases hstopping.exposed hexposed with hstage | hstage
    · rw [Exposed, hend] at hstage
      exact hstage.elim
    · rw [hend] at hstage
      exact Stage.ended.inj hstage

/-- The token is cancelled between two looks: the lease's arm is ready, and its event ends
the task. -/
theorem shutdown_between_looks :
    ∃ s t, exec EventLoop.step (start 1 [2] (by decide)) [.poll 0, .cancel] = some s ∧
      exec EventLoop.step s [.poll 0, .handle (.steady 0)] = some t ∧ t.stage = .ended false := by
  obtain ⟨s, hs, hcancelled, hstage, t, ht, returned, hend⟩ : ∃ s, exec EventLoop.step
      (start 1 [2] (by decide)) [.poll 0, .cancel] = some s ∧ s.cancelled = true ∧
      s.stage = .polling .lease ∧ ∃ t, exec EventLoop.step s [.poll 0, .handle (.steady 0)] = some t ∧
        ∃ returned, t.stage = .ended returned := ⟨_, rfl, rfl, rfl, _, rfl, _, rfl⟩
  have hexposed : s.Exposed := by
    rw [Exposed, hstage]
    trivial
  obtain ⟨_, _, _, hends⟩ := shutdown hcancelled ht
  exact ⟨s, t, hs, ht, by rw [hend, (hends returned hend).2 hexposed]⟩

end EventLoop
end SpannerPaxos
