import SpannerPaxos.Context

/-! # Roles, effects and outcomes

The data of the four roles, and what handling an event produces.  Everything
the outside decides while an event is handled is in `Env`: the clock readings,
numbered in the order in which the handler makes them, and which dispatcher
calls succeed.  Everything the outside can observe is an `Effect`.  A handler
returns an `Outcome`; its methods that can fail midway return an `Attempt`,
which keeps what they had done by then.
-/
namespace SpannerPaxos

/-! ## Countdown clocks -/

/-- The background task of a countdown clock: none, waiting, or past its
callback without having cleared the running flag yet. -/
inductive CountDownTask where
  | none
  | waiting
  | fired
  deriving DecidableEq

structure CountDownClock where
  task : CountDownTask
  resetNotified : Bool
  deriving DecidableEq

namespace CountDownClock
variable (clock : CountDownClock)

def new : CountDownClock := ⟨.none, false⟩

/-- The flag `is_running`. -/
def isRunning : Bool := decide (clock.task ≠ .none)

/-- `start_random` and `start_fixed`: a no-op while the flag is set. -/
def start : CountDownClock := if clock.isRunning then clock else { clock with task := .waiting }

def reset : CountDownClock := { clock with resetNotified := true }

/-- After a start, the task is waiting unless an older one is past its callback. -/
theorem start_task (h : clock.task ≠ .fired) : clock.start.task = .waiting := by
  obtain ⟨task, reset⟩ := clock
  cases task <;> simp_all [start, isRunning]

end CountDownClock

/-! ## Role data -/

structure VoteRecord where
  term : Nat
  candidateId : Uuid
  deriving DecidableEq

structure Follower where
  currentLeaderId : Option Uuid
  voteRecord : Option VoteRecord
  electionCdClock : CountDownClock
  deriving DecidableEq

def Follower.new (currentLeaderId : Option Uuid) : Follower :=
  ⟨currentLeaderId, none, CountDownClock.new⟩

structure PreCandidate where
  preVoteBoard : AssocMap Uuid (Option PreVoteResponse)
  /-- The term and candidate of the vote granted in this role. -/
  votedForId : Option (Nat × Uuid)
  prevoteCdClock : CountDownClock
  deriving DecidableEq

structure Candidate where
  voteBoard : AssocMap Uuid (Option VoteResponse)
  scoreBoard : AssocMap Uuid LogPosition
  voteDispatchTime : Option DateTime
  voteCdClock : CountDownClock
  pendingUncommittedLogs : OrderedMap Nat LogEntry
  deriving DecidableEq

structure InFlightBatch where
  sentAt : DateTime
  highestSlot : Nat
  deriving DecidableEq

structure FollowerState where
  logPosition : LogPosition
  inFlightBatches : List InFlightBatch
  deriving DecidableEq

structure Leader where
  scoreBoard : AssocMap Uuid FollowerState
  lastContact : AssocMap Uuid DateTime
  inFlightWrites : OrderedMap Nat (DateTime × PaxosCommand ClientWriteRequest)
  pendingWriteCount : Nat
  writeBatchSize : Nat
  heartbeatCdClock : CountDownClock
  deriving DecidableEq

inductive PaxosState where
  | follower (f : Follower)
  | preCandidate (p : PreCandidate)
  | candidate (c : Candidate)
  | leader (l : Leader)
  deriving DecidableEq

namespace PaxosState

/-- The leader a role knows of. -/
def getLeaderId : PaxosState → Option Uuid
  | follower f => f.currentLeaderId
  | _ => none

def isLeader : PaxosState → Bool
  | leader _ => true
  | _ => false

end PaxosState

/-! ## Effects and faults -/

/-- What handling an event shows to the outside. -/
inductive Effect where
  | preVoteReply (tx : ReplyChannel) (response : PreVoteResponse)
  | voteReply (tx : ReplyChannel) (response : VoteResponse)
  | acceptReply (tx : ReplyChannel) (response : AcceptResponse)
  | clientReply (tx : ReplyChannel) (response : ClientWriteResponse)
  /-- The pre-vote request is handed to the dispatcher, for all other members. -/
  | dispatchPreVote (request : PreVoteRequest)
  /-- The vote request is handed to the dispatcher, for all other members. -/
  | dispatchVote (request : VoteRequest)
  | dispatchAccept (memberId : Uuid) (request : AcceptRequest)
  /-- A client write is forwarded; the leader's answer goes to `tx`. -/
  | dispatchClientWrite (leaderId : Uuid) (request : ClientWriteRequest) (tx : ReplyChannel)
  /-- `ctx.signal_write_flush()`. -/
  | signalWriteFlush
  deriving DecidableEq

/-- Why a handler stops without an answer. -/
inductive Fault where
  | cancelled
  | receiverDropped
  | dispatchFailed
  | panicked (message : String)
  /-- A `commit_wait` that has not ended: its timestamp is not past yet. -/
  | waiting
  deriving DecidableEq

/-- What the outside decides while one event is handled. -/
structure Env where
  /-- The `i`-th reading of `Utc::now()` (of a `commit_wait`, the reading that
  ends it). -/
  clock : Nat → DateTime
  /-- Which members a request can be dispatched to. -/
  reachable : Uuid → Bool
  /-- Whether handing a request to all other members succeeds. -/
  broadcasts : Bool

/-- The environment after `n` more readings. -/
def Env.skip (env : Env) (n : Nat) : Env := { env with clock := fun i => env.clock (i + n) }

/-- The clock shows `utc`, and every dispatch succeeds. -/
def Env.steady (utc : DateTime) : Env := ⟨fun _ => utc, fun _ => true, true⟩

/-- The result of handling an event. -/
structure Outcome where
  result : Except Fault PaxosState
  ctx : PaxosSharedContext
  effects : List Effect

namespace Outcome

/-- The handler returns `Ok(state)`. -/
def ok (state : PaxosState) (ctx : PaxosSharedContext) (effects : List Effect) : Outcome :=
  ⟨.ok state, ctx, effects⟩

/-- The handler returns an error or panics. -/
def fail (fault : Fault) (ctx : PaxosSharedContext) (effects : List Effect) : Outcome :=
  ⟨.error fault, ctx, effects⟩

/-- `command.send(response)?; Ok(state)`: a dropped receiver is an error. -/
def reply (tx : ReplyChannel) (effect : Effect) (state : PaxosState) (ctx : PaxosSharedContext) :
    Outcome :=
  if tx.receiverAlive then ok state ctx [effect] else fail .receiverDropped ctx []

variable {tx : ReplyChannel} {effect : Effect} {state : PaxosState} {ctx : PaxosSharedContext}

/-- A reply shows its effect or nothing. -/
theorem eq_of_mem_reply {e : Effect} (h : e ∈ (reply tx effect state ctx).effects) :
    e = effect := by
  unfold reply at h
  split at h
  · exact List.mem_singleton.mp h
  · exact absurd h List.not_mem_nil

@[simp] theorem reply_ctx : (reply tx effect state ctx).ctx = ctx := by
  unfold reply
  split <;> rfl

/-- A reply that succeeds keeps the state it was given, and was sent. -/
theorem reply_result {state' : PaxosState} (h : (reply tx effect state ctx).result = .ok state') :
    state' = state ∧ (reply tx effect state ctx).effects = [effect] := by
  unfold reply at h ⊢
  split at h
  · rename_i halive
    rw [if_pos halive]
    exact ⟨(Except.ok.inj h).symm, rfl⟩
  · cases h

end Outcome

/-- `let _ = command.send(response)`: a dropped receiver is ignored. -/
def sendIgnoring (tx : ReplyChannel) (effect : Effect) : List Effect :=
  if tx.receiverAlive then [effect] else []

theorem eq_of_mem_sendIgnoring {tx : ReplyChannel} {effect e : Effect}
    (h : e ∈ sendIgnoring tx effect) : e = effect := by
  unfold sendIgnoring at h
  split at h
  · exact List.mem_singleton.mp h
  · cases h

/-- What a fallible method leaves behind: the state as far as it was changed,
the effects so far, and the fault if the method stopped early. -/
structure Attempt (σ : Type) where
  state : σ
  effects : List Effect
  fault : Option Fault

namespace Attempt
variable {σ τ : Type}

def ok (state : σ) : Attempt σ := ⟨state, [], none⟩

/-- Go on unless the first part stopped early. -/
def andThen (a : Attempt σ) (next : σ → Attempt σ) : Attempt σ :=
  match a.fault with
  | some _ => a
  | none =>
    ⟨(next a.state).state, a.effects ++ (next a.state).effects, (next a.state).fault⟩

/-- Rename the state. -/
def map (a : Attempt σ) (f : σ → τ) : Attempt τ := ⟨f a.state, a.effects, a.fault⟩

/-- The outcome of an event whose handler ends with this method. -/
def toOutcome (a : Attempt (PaxosState × PaxosSharedContext)) : Outcome :=
  match a.fault with
  | some fault => .fail fault a.state.2 a.effects
  | none => .ok a.state.1 a.state.2 a.effects

@[simp] theorem map_effects (a : Attempt σ) (f : σ → τ) : (a.map f).effects = a.effects := rfl

@[simp] theorem map_state (a : Attempt σ) (f : σ → τ) : (a.map f).state = f a.state := rfl

@[simp] theorem toOutcome_effects (a : Attempt (PaxosState × PaxosSharedContext)) :
    a.toOutcome.effects = a.effects := by
  unfold toOutcome
  cases a.fault <;> rfl

@[simp] theorem toOutcome_ctx (a : Attempt (PaxosState × PaxosSharedContext)) :
    a.toOutcome.ctx = a.state.2 := by
  unfold toOutcome
  cases a.fault <;> rfl

/-- The state a method hands on when it did not stop early. -/
theorem toOutcome_result {a : Attempt (PaxosState × PaxosSharedContext)} {state : PaxosState}
    (h : a.toOutcome.result = .ok state) : state = a.state.1 := by
  unfold toOutcome at h
  cases hfault : a.fault with
  | some fault =>
    rw [hfault] at h
    cases h
  | none =>
    rw [hfault] at h
    exact (Except.ok.inj h).symm

/-- A property of the state and a property of each effect survive a sequence of
two methods when each method keeps them. -/
theorem andThen_spec {a : Attempt σ} {next : σ → Attempt σ} {P : σ → Prop} {E : Effect → Prop}
    (ha : P a.state) (hea : ∀ e ∈ a.effects, E e)
    (hnext : ∀ s, P s → P (next s).state ∧ ∀ e ∈ (next s).effects, E e) :
    P (a.andThen next).state ∧ ∀ e ∈ (a.andThen next).effects, E e := by
  unfold andThen
  cases a.fault with
  | some _ => exact ⟨ha, hea⟩
  | none =>
    obtain ⟨hs, he⟩ := hnext a.state ha
    refine ⟨hs, ?_⟩
    intro e hmem
    rcases List.mem_append.mp hmem with h | h
    · exact hea e h
    · exact he e h

end Attempt
end SpannerPaxos
