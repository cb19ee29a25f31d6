import SpannerPaxos.Campaign

/-! # The state machine

`handleEvent` is the event handler of whichever role a member is in;
`processEvent` runs it behind the two steps that come before every event: the
cancellation check and the adoption of a larger term, which makes the member a
fresh Follower.
-/
namespace SpannerPaxos
namespace Follower
variable (self : Follower)

def handleElectionCountdownExpired (ctx : PaxosSharedContext) (env : Env) :
    Attempt (Option PreCandidate) :=
  if ¬ ctx.isLeaderLeaseExpired (env.clock 0) then .ok none
  else ((PreCandidate.new ctx).dispatchPreVote ctx env).map some

def handleEvent (event : PaxosEvent) (ctx : PaxosSharedContext) (env : Env) : Outcome :=
  match event with
  | .preVoteCampaignExpired | .voteCampaignExpired | .writeFlushTimerFired
  | .acceptTimeoutCheckFired | .heartbeatTimerFired | .acceptResponseReceived _ =>
    .ok (.follower self) ctx []
  | .leaderLeaseExpired =>
    .ok (.follower { self with electionCdClock := self.electionCdClock.start }) ctx []
  | .electionCountdownExpired =>
    ((handleElectionCountdownExpired ctx env).map fun next =>
      match next with
      | some preCandidate => (PaxosState.preCandidate preCandidate, ctx)
      | none => (.follower self, ctx)).toOutcome
  | .preVoteRequestReceived command =>
    .reply command.responseTx (.preVoteReply command.responseTx
      (self.handlePreVoteRequest command.request ctx env)) (.follower self) ctx
  | .preVoteResponseReceived response =>
    .ok (.follower (self.handlePreVoteResponse response ctx env)) ctx []
  | .voteRequestReceived command =>
    let (self, response, ctx) := self.handleVoteRequest command.request ctx env
    .reply command.responseTx (.voteReply command.responseTx response) (.follower self) ctx
  | .voteResponseReceived response =>
    .ok (.follower (self.handleVoteResponse response ctx env)) ctx []
  | .acceptRequestReceived command =>
    let (response, ctx) := self.handleAcceptRequest command.request ctx env
    .reply command.responseTx (.acceptReply command.responseTx response) (.follower self) ctx
  | .clientWriteRequestReceived command =>
    ((self.handleClientWrite command env).map fun _ => (PaxosState.follower self, ctx)).toOutcome

end Follower

namespace PaxosState

/-- The event handler of the role. -/
def handleEvent (self : PaxosState) (event : PaxosEvent) (ctx : PaxosSharedContext) (env : Env) :
    Outcome :=
  match self with
  | follower f => f.handleEvent event ctx env
  | preCandidate p => p.handleEvent event ctx env
  | candidate c => c.handleEvent event ctx env
  | leader l => l.handleEvent event ctx env

/-- A larger term is adopted before the event is handled, by a Follower that
keeps the known leader and nothing else. -/
def adoptTerm (self : PaxosState) (event : PaxosEvent) (ctx : PaxosSharedContext) :
    PaxosState × PaxosSharedContext :=
  match event.getTerm with
  | some eventTerm =>
    if eventTerm > ctx.term then
      (follower (Follower.new self.getLeaderId), { ctx with term := eventTerm })
    else (self, ctx)
  | none => (self, ctx)

def processEvent (self : PaxosState) (event : PaxosEvent) (ctx : PaxosSharedContext)
    (cancelled : Bool) (env : Env) : Outcome :=
  if cancelled then .fail .cancelled ctx []
  else (self.adoptTerm event ctx).1.handleEvent event (self.adoptTerm event ctx).2 env

variable (self : PaxosState) (event : PaxosEvent) (ctx : PaxosSharedContext) (env : Env)

/-- A term is adopted by a fresh Follower, or nothing changes. -/
theorem adoptTerm_cases :
    self.adoptTerm event ctx = (self, ctx) ∨
    ∃ term, event.getTerm = some term ∧ ctx.term < term ∧
      self.adoptTerm event ctx =
        (follower (Follower.new self.getLeaderId), { ctx with term := term }) := by
  unfold adoptTerm
  cases event.getTerm with
  | none => exact Or.inl rfl
  | some term =>
    simp only
    split
    · rename_i hterm
      exact Or.inr ⟨term, rfl, hterm, rfl⟩
    · exact Or.inl rfl

/-- What a member that has not been cancelled does with an event. -/
theorem processEvent_eq :
    self.processEvent event ctx false env =
      (self.adoptTerm event ctx).1.handleEvent event (self.adoptTerm event ctx).2 env := by
  simp [processEvent]

variable {self event ctx env}

/-- An event of no larger term goes to the role the member is in. -/
theorem processEvent_of_le (hterm : ∀ term, event.getTerm = some term → term ≤ ctx.term) :
    self.processEvent event ctx false env = self.handleEvent event ctx env := by
  rw [processEvent_eq]
  rcases self.adoptTerm_cases event ctx with h | ⟨term, hget, hlt, _⟩
  · rw [h]
  · exact absurd (hterm term hget) (Nat.not_le.mpr hlt)

end PaxosState
end SpannerPaxos
