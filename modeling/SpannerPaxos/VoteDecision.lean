import SpannerPaxos.LeaderSteps

/-! # Who promises a vote

Only two handlers answer a vote request with a Promise, the Follower's and the
PreCandidate's, and both want the request's term above the member's own.
`processEvent` adopts the request's term before either of them runs, so no
member ever promises through it.
-/
namespace SpannerPaxos

/-- The effect is a Promise, on its way to whoever asked. -/
def Effect.isPromise : Effect → Bool
  | .voteReply _ response => response.outcome.isPromise
  | _ => false

/-- The event is answered with a Promise on this channel. -/
def Outcome.RepliesPromise (o : Outcome) (tx : ReplyChannel) : Prop :=
  ∃ response, Effect.voteReply tx response ∈ o.effects ∧ response.outcome.isPromise = true

/-! ## The two handlers that vote -/

/-- The conditions under which a Follower with this context grants a vote. -/
structure Follower.MayPromise (f : Follower) (request : VoteRequest) (ctx : PaxosSharedContext)
    (utc : DateTime) : Prop where
  leaseExpired : ctx.isLeaderLeaseExpired utc = true
  newTerm : ctx.term < request.term
  notVoted : ∀ record, f.voteRecord = some record → record.term < request.term
  logTerm : ctx.lastLogTerm ≤ request.lastLogTerm
  logSlot : ctx.lastLogSlot ≤ request.lastLogSlot

theorem Follower.votedSince_eq_none_iff (self : Follower) {term : Nat} :
    self.votedSince term = none ↔
      ∀ record, self.voteRecord = some record → record.term < term := by
  simp [votedSince, Option.filter_eq_none_iff]

theorem PreCandidate.votedSince_eq_none_iff (self : PreCandidate) {term : Nat} :
    self.votedSince term = none ↔ ∀ vote, self.votedForId = some vote → vote.1 < term := by
  simp [votedSince, Option.filter_eq_none_iff]

/-- **The Follower's vote.**  It is granted exactly under `MayPromise`: the vote
is recorded and the lease extended.  Otherwise nothing changes. -/
theorem Follower.handleVoteRequest_cases (self : Follower) (request : VoteRequest)
    (ctx : PaxosSharedContext) (env : Env) :
    (self.MayPromise request ctx (env.clock 0) ∧
      self.handleVoteRequest request ctx env =
        ({ self with voteRecord := some ⟨request.term, request.memberId⟩ }, ctx.promiseVote,
          ctx.extendLeaderLeaseExpiryTime (env.clock 1))) ∨
    (¬ self.MayPromise request ctx (env.clock 0) ∧
      ∃ rejection, self.handleVoteRequest request ctx env =
        (self, ⟨ctx.memberId, ctx.term, .rejection rejection⟩, ctx)) := by
  unfold handleVoteRequest
  cases hvoted : self.votedSince request.term with
  | some record =>
    refine Or.inr ⟨fun h => ?_, _, rfl⟩
    rw [(self.votedSince_eq_none_iff).mpr h.notVoted] at hvoted
    cases hvoted
  | none =>
    have hnot := (self.votedSince_eq_none_iff).mp hvoted
    simp only
    split
    · rename_i hlease
      exact Or.inr ⟨fun h => hlease h.leaseExpired, _, rfl⟩
    · rename_i hlease
      split
      · rename_i hterm
        exact Or.inr ⟨fun h => absurd h.newTerm (by omega), _, rfl⟩
      · split
        · rename_i hlog
          exact Or.inr ⟨fun h => absurd h.logTerm (by omega), _, rfl⟩
        · split
          · rename_i hslot
            exact Or.inr ⟨fun h => absurd h.logSlot (by omega), _, rfl⟩
          · exact Or.inl ⟨⟨by simpa using hlease, by omega, hnot, by omega, by omega⟩, rfl⟩

/-- The PreCandidate's vote: the Follower's conditions without the lease. -/
structure PreCandidate.MayPromise (p : PreCandidate) (request : VoteRequest)
    (ctx : PaxosSharedContext) : Prop where
  newTerm : ctx.term < request.term
  notVoted : ∀ vote, p.votedForId = some vote → vote.1 < request.term
  logTerm : ctx.lastLogTerm ≤ request.lastLogTerm
  logSlot : ctx.lastLogSlot ≤ request.lastLogSlot

theorem PreCandidate.handleVoteRequest_cases (self : PreCandidate) (request : VoteRequest)
    (ctx : PaxosSharedContext) :
    (self.MayPromise request ctx ∧
      self.handleVoteRequest request ctx =
        ({ self with votedForId := some (request.term, request.memberId) }, ctx.promiseVote)) ∨
    (¬ self.MayPromise request ctx ∧
      ∃ rejection, self.handleVoteRequest request ctx =
        (self, ⟨ctx.memberId, ctx.term, .rejection rejection⟩)) := by
  unfold handleVoteRequest
  cases hvoted : self.votedSince request.term with
  | some vote =>
    refine Or.inr ⟨fun h => ?_, _, rfl⟩
    rw [(self.votedSince_eq_none_iff).mpr h.notVoted] at hvoted
    cases hvoted
  | none =>
    have hnot := (self.votedSince_eq_none_iff).mp hvoted
    simp only
    split
    · rename_i hterm
      exact Or.inr ⟨fun h => absurd h.newTerm (by omega), _, rfl⟩
    · split
      · rename_i hlog
        exact Or.inr ⟨fun h => absurd h.logTerm (by omega), _, rfl⟩
      · split
        · rename_i hslot
          exact Or.inr ⟨fun h => absurd h.logSlot (by omega), _, rfl⟩
        · exact Or.inl ⟨⟨by omega, hnot, by omega, by omega⟩, rfl⟩

/-! ## Everything else is silent about votes -/

namespace Leader

/-- Nothing the leader sends is a Promise. -/
theorem IsDispatch.not_isPromise {ctx : PaxosSharedContext} {minNextTs : Option DateTime}
    {env : Env} {e : Effect} (h : IsDispatch ctx minNextTs env e) : e.isPromise = false := by
  obtain ⟨_, _, _, _, _, rfl⟩ := h
  rfl

variable (self : Leader) (ctx : PaxosSharedContext) (env : Env)

theorem dispatchAcceptRequest_not_isPromise (minNextTs : Option DateTime) :
    ∀ e ∈ (self.dispatchAcceptRequest ctx minNextTs env).effects, e.isPromise = false :=
  fun e he => ((self.dispatchAcceptRequest_spec ctx minNextTs env).2 e he).not_isPromise

theorem dispatchThen_not_isPromise (minNextTs : Option DateTime) (f : Leader → Leader) :
    ∀ e ∈ ((self.dispatchAcceptRequest ctx minNextTs env).andThen fun l => .ok (f l)).effects,
      e.isPromise = false :=
  (Attempt.andThen_spec (P := fun _ => True) trivial
    (self.dispatchAcceptRequest_not_isPromise ctx env minNextTs) fun _ _ =>
      ⟨trivial, fun _ he => absurd he List.not_mem_nil⟩).2

theorem advanceCommit_not_isPromise :
    ∀ e ∈ (self.advanceCommit ctx env).effects, e.isPromise = false := by
  intro e he
  obtain ⟨_, _, rfl⟩ := self.advanceCommit_effects ctx env e he
  rfl

theorem handleAcceptResponse_not_isPromise (response : AcceptResponse) :
    ∀ e ∈ (self.handleAcceptResponse response ctx env).effects, e.isPromise = false := by
  unfold handleAcceptResponse
  dsimp only
  repeat' split
  all_goals first
    | exact fun _ he => absurd he List.not_mem_nil
    | exact advanceCommit_not_isPromise _ _ _
    | exact fun e he =>
        ((dispatchAcceptRequestToFollower_spec _ _ _ _ response.memberId).2 e he).not_isPromise

end Leader

namespace PaxosState
variable {ctx : PaxosSharedContext} {env : Env} {event : PaxosEvent} {e : Effect}

/-- What a member that promises a vote was asked, and what its answer is: the
event is a vote request of a term above the member's own. -/
def AnswersVote (event : PaxosEvent) (ctx : PaxosSharedContext) (e : Effect) : Prop :=
  ∃ command, event = .voteRequestReceived command ∧ ctx.term < command.request.term ∧
    e = .voteReply command.responseTx ctx.promiseVote

/-- A Follower's answer to a vote request that is a Promise. -/
theorem answersVote_of_follower {f : Follower} {command : PaxosCommand VoteRequest}
    (he : e = .voteReply command.responseTx (f.handleVoteRequest command.request ctx env).2.1)
    (hp : e.isPromise = true) : AnswersVote (.voteRequestReceived command) ctx e := by
  rcases f.handleVoteRequest_cases command.request ctx env with
    ⟨hmay, hans⟩ | ⟨_, rejection, hans⟩
  · rw [hans] at he
    exact ⟨command, rfl, hmay.newTerm, he⟩
  · rw [he, hans] at hp
    cases hp

theorem promise_of_follower (f : Follower) (he : e ∈ (f.handleEvent event ctx env).effects)
    (hp : e.isPromise = true) : AnswersVote event ctx e := by
  cases event with
  | voteRequestReceived command =>
    exact answersVote_of_follower (Outcome.eq_of_mem_reply he) hp
  | preVoteRequestReceived command =>
    rw [Outcome.eq_of_mem_reply he] at hp
    cases hp
  | acceptRequestReceived command =>
    rw [Outcome.eq_of_mem_reply he] at hp
    cases hp
  | electionCountdownExpired =>
    simp only [Follower.handleEvent, Follower.handleElectionCountdownExpired,
      PreCandidate.dispatchPreVote, Attempt.toOutcome_effects, Attempt.map_effects] at he
    repeat' split at he
    · exact absurd he List.not_mem_nil
    all_goals
      simp only [Attempt.map_effects, List.mem_singleton] at he
      rw [he] at hp
      cases hp
  | clientWriteRequestReceived command =>
    simp only [Follower.handleEvent, Follower.handleClientWrite, sendIgnoring,
      Attempt.toOutcome_effects, Attempt.map_effects] at he
    repeat' split at he
    all_goals first
      | exact absurd he List.not_mem_nil
      | rw [List.mem_singleton.mp he] at hp
        cases hp
  | _ => exact absurd he List.not_mem_nil

theorem stepDownOnAccept_not_isPromise {stay : PaxosState} {command : PaxosCommand AcceptRequest}
    (he : e ∈ (stepDownOnAccept stay command ctx env).effects) : e.isPromise = false := by
  unfold stepDownOnAccept at he
  split at he
  · rw [Outcome.eq_of_mem_reply he]
    rfl
  · rw [Outcome.eq_of_mem_reply he]
    rfl

theorem rejectClientWrite_not_isPromise {stay : PaxosState}
    {command : PaxosCommand ClientWriteRequest}
    (he : e ∈ (rejectClientWrite stay command ctx).effects) : e.isPromise = false := by
  rw [eq_of_mem_sendIgnoring he]
  rfl

theorem promise_of_preCandidate (p : PreCandidate)
    (he : e ∈ (p.handleEvent event ctx env).effects) (hp : e.isPromise = true) :
    AnswersVote event ctx e := by
  cases event with
  | voteRequestReceived command =>
    have he : e = .voteReply command.responseTx (p.handleVoteRequest command.request ctx).2 :=
      Outcome.eq_of_mem_reply he
    rcases p.handleVoteRequest_cases command.request ctx with ⟨hmay, hans⟩ | ⟨_, rejection, hans⟩
    · rw [hans] at he
      exact ⟨command, rfl, hmay.newTerm, he⟩
    · rw [he, hans] at hp
      cases hp
  | preVoteRequestReceived command =>
    rw [Outcome.eq_of_mem_reply he] at hp
    cases hp
  | acceptRequestReceived command =>
    rw [stepDownOnAccept_not_isPromise he] at hp
    cases hp
  | clientWriteRequestReceived command =>
    rw [rejectClientWrite_not_isPromise he] at hp
    cases hp
  | preVoteResponseReceived response =>
    simp only [PreCandidate.handleEvent, PreCandidate.handlePreVoteResponse,
      Candidate.dispatchVote] at he
    repeat' split at he
    all_goals first
      | exact absurd he List.not_mem_nil
      | simp only [Attempt.toOutcome_effects, Attempt.map_effects, List.mem_singleton] at he
        rw [he] at hp
        cases hp
  | _ => exact absurd he List.not_mem_nil

theorem promise_of_candidate (c : Candidate)
    (he : e ∈ (c.handleEvent event ctx env).effects) : e.isPromise = false := by
  cases event with
  | voteRequestReceived command =>
    rw [Outcome.eq_of_mem_reply he]
    rfl
  | preVoteRequestReceived command =>
    rw [Outcome.eq_of_mem_reply he]
    rfl
  | acceptRequestReceived command => exact stepDownOnAccept_not_isPromise he
  | clientWriteRequestReceived command => exact rejectClientWrite_not_isPromise he
  | voteResponseReceived response =>
    simp only [Candidate.handleEvent, Candidate.handleVoteResponse] at he
    repeat' split at he
    all_goals first
      | exact absurd he List.not_mem_nil
      | skip
    simp only [Candidate.becomeLeader, Leader.processUncommittedLogs, Attempt.toOutcome_effects,
      Attempt.map_effects] at he
    split at he
    · exact Leader.dispatchAcceptRequest_not_isPromise _ _ _ _ e he
    · exact Leader.dispatchAcceptRequest_not_isPromise _ _ _ _ e he
  | _ => exact absurd he List.not_mem_nil

theorem promise_of_leader (l : Leader) (he : e ∈ (l.handleEvent event ctx env).effects)
    (hp : e.isPromise = true) : AnswersVote event ctx e := by
  cases event with
  | voteRequestReceived command =>
    simp only [Leader.handleEvent] at he
    split at he
    · exact answersVote_of_follower (Outcome.eq_of_mem_reply he) hp
    · rw [Outcome.eq_of_mem_reply he] at hp
      cases hp
  | preVoteRequestReceived command =>
    -- stepping down or not, the answer is to a pre-vote
    simp only [Leader.handleEvent] at he
    split at he
    all_goals
      rw [Outcome.eq_of_mem_reply he] at hp
      cases hp
  | acceptRequestReceived command =>
    simp only [Leader.handleEvent] at he
    split at he
    · rw [Outcome.eq_of_mem_reply he] at hp
      cases hp
    · exact absurd he List.not_mem_nil
  | preVoteResponseReceived response =>
    simp only [Leader.handleEvent] at he
    split at he <;> exact absurd he List.not_mem_nil
  | voteResponseReceived response =>
    simp only [Leader.handleEvent] at he
    split at he <;> exact absurd he List.not_mem_nil
  | acceptResponseReceived response =>
    simp only [Leader.handleEvent, Leader.handleEvent.stay, Attempt.toOutcome_effects,
      Attempt.map_effects] at he
    rw [l.handleAcceptResponse_not_isPromise ctx env response e he] at hp
    cases hp
  | clientWriteRequestReceived command =>
    simp only [Leader.handleEvent, Leader.handleEvent.stay, Leader.handleClientWrite,
      Attempt.toOutcome_effects, Attempt.map_effects] at he
    split at he
    · rw [List.mem_singleton.mp he] at hp
      cases hp
    · exact absurd he List.not_mem_nil
  | writeFlushTimerFired =>
    simp only [Leader.handleEvent, Leader.handleEvent.stay, Leader.handleWriteFlush,
      Attempt.toOutcome_effects, Attempt.map_effects] at he
    split at he
    · exact absurd he List.not_mem_nil
    · rw [l.dispatchThen_not_isPromise ctx env _ _ e he] at hp
      cases hp
  | heartbeatTimerFired =>
    simp only [Leader.handleEvent, Leader.handleEvent.stay, Leader.handleHeartbeatTimer,
      Attempt.toOutcome_effects, Attempt.map_effects] at he
    rw [l.dispatchThen_not_isPromise _ _ _ _ e he] at hp
    cases hp
  | _ => exact absurd he List.not_mem_nil

/-- **A Promise answers a vote request for a later term**, whatever the role. -/
theorem promise_of_handleEvent (self : PaxosState)
    (he : e ∈ (self.handleEvent event ctx env).effects) (hp : e.isPromise = true) :
    AnswersVote event ctx e := by
  cases self with
  | follower f => exact promise_of_follower f he hp
  | preCandidate p => exact promise_of_preCandidate p he hp
  | candidate c =>
    rw [promise_of_candidate c he] at hp
    cases hp
  | leader l => exact promise_of_leader l he hp

/-- After the adoption, the event's term is not above the member's. -/
theorem le_term_of_adoptTerm (self : PaxosState) (event : PaxosEvent) (ctx : PaxosSharedContext)
    {term : Nat} (h : event.getTerm = some term) :
    term ≤ (self.adoptTerm event ctx).2.term := by
  simp only [adoptTerm, h]
  split <;> simp only <;> omega

/-- **Through `processEvent` nobody promises.**  The adoption of the request's
term leaves the handler with a request of its own term or below. -/
theorem processEvent_not_isPromise (self : PaxosState) (cancelled : Bool)
    (he : e ∈ (self.processEvent event ctx cancelled env).effects) : e.isPromise = false := by
  unfold processEvent at he
  split at he
  · exact absurd he List.not_mem_nil
  · rw [← Bool.not_eq_true]
    intro hp
    obtain ⟨command, rfl, hterm, _⟩ := promise_of_handleEvent _ he hp
    -- the handler sees the request's own term as the member's
    have hle := self.le_term_of_adoptTerm (.voteRequestReceived command) ctx rfl
    omega

end PaxosState

/-! ## The voting rule of a Follower -/

/-- The rule for a Follower that gets a vote request: a Promise exactly under
`MayPromise`, and with it the lease runs from the reading the handler makes for
it. -/
def Follower.VoteRule (f : Follower) (ctx : PaxosSharedContext)
    (command : PaxosCommand VoteRequest) (cancelled : Bool) (env : Env) : Prop :=
  let o := (PaxosState.follower f).processEvent (.voteRequestReceived command) ctx cancelled env
  (o.RepliesPromise command.responseTx ↔ f.MayPromise command.request ctx (env.clock 0)) ∧
    (o.RepliesPromise command.responseTx → o.ctx.leaseExpiry =
      some ((TrueTime.now (env.clock 1)).latest + PaxosSharedContext.leaseLength))

namespace Follower
variable (f : Follower) (ctx : PaxosSharedContext) (command : PaxosCommand VoteRequest)
  (cancelled : Bool) (env : Env)

theorem not_repliesPromise :
    ¬ ((PaxosState.follower f).processEvent (.voteRequestReceived command) ctx cancelled
      env).RepliesPromise command.responseTx := by
  rintro ⟨response, he, hp⟩
  have := PaxosState.processEvent_not_isPromise _ cancelled he
  rw [Effect.isPromise, hp] at this
  cases this

/-- **The voting rule holds exactly where it promises nothing.**  A Follower that
should grant a vote rejects it, because it has adopted the candidate's term by
the time the handler compares terms. -/
theorem voteRule_iff_not_mayPromise :
    f.VoteRule ctx command cancelled env ↔ ¬ f.MayPromise command.request ctx (env.clock 0) := by
  have hnot := f.not_repliesPromise ctx command cancelled env
  constructor
  · intro hrule hmay
    exact hnot (hrule.1.mpr hmay)
  · intro hmay
    exact ⟨⟨fun h => absurd h hnot, fun h => absurd h hmay⟩, fun h => absurd h hnot⟩

end Follower

/-- A member of a fresh group of two, whose lease is long over, is asked by the
other one to vote in term 1: it should promise, and rejects. -/
theorem Follower.not_voteRule_fresh :
    ¬ (Follower.new none).VoteRule (PaxosSharedContext.new 1 [2] (by decide))
      ⟨⟨2, 1, 0, 0⟩, ⟨2, true⟩⟩ false (.steady (Duration.seconds 1)) := by
  intro hrule
  refine Follower.not_repliesPromise _ _ _ _ _ (hrule.1.mpr ?_)
  exact ⟨by decide, by decide, by simp [Follower.new], by decide, by decide⟩

end SpannerPaxos
