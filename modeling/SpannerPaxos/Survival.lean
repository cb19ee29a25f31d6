import SpannerPaxos.Overflow

/-! # When an event ends the member

The points of failure of the other roles, and with them and the arithmetic of the
member the exact condition under which `process_event` returns `Ok` on an event.  A
peer can break it: a receiver that is gone when the answer to its request is sent is
enough, and so is an echoed send time at the end of the clock's range.
-/
namespace SpannerPaxos

namespace Follower

/-- What a Follower needs to handle the event: whoever waits for an answer is still
there, its pre-vote requests can be sent when it campaigns, and the known leader can
be reached with a write. -/
structure Withstands (f : Follower) (event : PaxosEvent) (ctx : PaxosSharedContext) (env : Env) :
    Prop where
  answers : ∀ tx, event.peerTx = some tx → tx.receiverAlive = true
  campaign : event = .electionCountdownExpired → ctx.isLeaderLeaseExpired (env.clock 0) = true →
    env.broadcasts = true
  forward : ∀ command leaderId, event = .clientWriteRequestReceived command →
    f.currentLeaderId = some leaderId → env.reachable leaderId = true

variable {self : Follower} {event : PaxosEvent} {ctx : PaxosSharedContext} {env : Env}

theorem withstands_iff_answers {tx : ReplyChannel} (htx : event.peerTx = some tx) :
    self.Withstands event ctx env ↔ tx.receiverAlive = true := by
  refine ⟨fun h => h.answers tx htx, fun halive => ⟨?_, ?_, ?_⟩⟩
  · intro tx' htx'
    cases Option.some.inj (htx.symm.trans htx')
    exact halive
  · rintro rfl
    cases htx
  · rintro command leaderId rfl
    cases htx

/-- An event that is not a request of another member needs its own messages sent. -/
theorem withstands_iff_sends (htx : event.peerTx = none) :
    self.Withstands event ctx env ↔
      (event = .electionCountdownExpired → ctx.isLeaderLeaseExpired (env.clock 0) = true →
        env.broadcasts = true) ∧
      ∀ command leaderId, event = .clientWriteRequestReceived command →
        self.currentLeaderId = some leaderId → env.reachable leaderId = true :=
  ⟨fun h => ⟨h.campaign, h.forward⟩, fun ⟨hcampaign, hforward⟩ =>
    ⟨fun _ he => absurd he (PaxosEvent.not_peerTx htx), hcampaign, hforward⟩⟩

theorem handleEvent_survives :
    (self.handleEvent event ctx env).Survives ↔ self.Withstands event ctx env := by
  cases event with
  | preVoteRequestReceived command | voteRequestReceived command
  | acceptRequestReceived command =>
    rw [withstands_iff_answers rfl]
    exact Outcome.survives_reply
  | electionCountdownExpired =>
    have hwithstands : self.Withstands .electionCountdownExpired ctx env ↔
        (ctx.isLeaderLeaseExpired (env.clock 0) = true → env.broadcasts = true) := by
      rw [withstands_iff_sends rfl]
      simp
    rw [hwithstands, handleEvent, Outcome.survives_toOutcome, Attempt.survives_map,
      handleElectionCountdownExpired]
    cases hlease : ctx.isLeaderLeaseExpired (env.clock 0) with
    | false => exact iff_of_true (Attempt.survives_of_fault rfl) (by simp)
    | true =>
      -- the campaign goes on only if its pre-vote requests can be sent
      rw [if_neg (by simp), imp_iff_right rfl, Attempt.survives_map, PreCandidate.dispatchPreVote]
      split
      · rename_i hsent
        exact iff_of_true (Attempt.survives_of_fault rfl) hsent
      · rename_i hsent
        exact iff_of_false (Attempt.not_survives rfl (by simp)) hsent
  | clientWriteRequestReceived command =>
    have hwithstands : self.Withstands (.clientWriteRequestReceived command) ctx env ↔
        ∀ leaderId, self.currentLeaderId = some leaderId → env.reachable leaderId = true := by
      rw [withstands_iff_sends rfl]
      refine ⟨fun h leaderId => h.2 command leaderId rfl, fun h => ⟨by simp, ?_⟩⟩
      exact fun _ leaderId _ => h leaderId
    rw [hwithstands, handleEvent, Outcome.survives_toOutcome, Attempt.survives_map,
      handleClientWrite]
    cases hleader : self.currentLeaderId with
    | none => exact iff_of_true (Attempt.survives_of_fault rfl) (by simp)
    | some leaderId =>
      simp only [Option.some.injEq, forall_eq']
      split
      · rename_i hreach
        exact iff_of_true (Attempt.survives_of_fault rfl) hreach
      · rename_i hreach
        exact iff_of_false (Attempt.not_survives rfl (by simp)) hreach
  | leaderLeaseExpired | preVoteCampaignExpired | voteCampaignExpired | writeFlushTimerFired
  | acceptTimeoutCheckFired | heartbeatTimerFired | preVoteResponseReceived response
  | voteResponseReceived response | acceptResponseReceived response =>
    rw [withstands_iff_sends rfl]
    exact iff_of_true (Outcome.survives_ok.mpr trivial) (by simp)

end Follower

/-- A campaign role answers an accept request whatever it holds. -/
theorem stepDownOnAccept_survives {stay : PaxosState} {command : PaxosCommand AcceptRequest}
    {ctx : PaxosSharedContext} {env : Env} :
    (stepDownOnAccept stay command ctx env).Survives ↔ command.responseTx.receiverAlive = true := by
  unfold stepDownOnAccept
  split <;> exact Outcome.survives_reply

namespace PreCandidate

/-- What a PreCandidate needs to handle the event: whoever waits for an answer is
still there, and its vote requests can be sent when it has won. -/
structure Withstands (p : PreCandidate) (event : PaxosEvent) (env : Env) : Prop where
  answers : ∀ tx, event.peerTx = some tx → tx.receiverAlive = true
  campaign : ∀ response, event = .preVoteResponseReceived response →
    (p.updatePreVoteBoard response).hasPreVoteQuorum = true → env.broadcasts = true

variable {self : PreCandidate} {event : PaxosEvent} {ctx : PaxosSharedContext} {env : Env}

theorem withstands_iff_answers {tx : ReplyChannel} (htx : event.peerTx = some tx) :
    self.Withstands event env ↔ tx.receiverAlive = true := by
  refine ⟨fun h => h.answers tx htx, fun halive => ⟨?_, ?_⟩⟩
  · intro tx' htx'
    cases Option.some.inj (htx.symm.trans htx')
    exact halive
  · rintro response rfl
    cases htx

theorem withstands_iff_campaign (htx : event.peerTx = none) :
    self.Withstands event env ↔ ∀ response, event = .preVoteResponseReceived response →
      (self.updatePreVoteBoard response).hasPreVoteQuorum = true → env.broadcasts = true :=
  ⟨fun h => h.campaign, fun h => ⟨fun _ he => absurd he (PaxosEvent.not_peerTx htx), h⟩⟩

theorem handleEvent_survives :
    (self.handleEvent event ctx env).Survives ↔ self.Withstands event env := by
  cases event with
  | preVoteRequestReceived command | voteRequestReceived command =>
    rw [withstands_iff_answers rfl]
    exact Outcome.survives_reply
  | acceptRequestReceived command =>
    rw [withstands_iff_answers rfl]
    exact stepDownOnAccept_survives
  | preVoteResponseReceived response =>
    have hwithstands : self.Withstands (.preVoteResponseReceived response) env ↔
        ((self.updatePreVoteBoard response).hasPreVoteQuorum = true → env.broadcasts = true) := by
      rw [withstands_iff_campaign rfl]
      simp
    rw [hwithstands, handleEvent, handlePreVoteResponse]
    dsimp only
    split
    · rename_i hquorum
      rw [imp_iff_right hquorum, Outcome.survives_toOutcome, Attempt.survives_map,
        Candidate.dispatchVote]
      split
      · rename_i hsent
        exact iff_of_true (Attempt.survives_of_fault rfl) hsent
      · rename_i hsent
        exact iff_of_false (Attempt.not_survives rfl (by simp)) hsent
    · rename_i hquorum
      refine iff_of_true ?_ fun h => absurd h hquorum
      split <;> exact Outcome.survives_ok.mpr trivial
  | leaderLeaseExpired | electionCountdownExpired | preVoteCampaignExpired | voteCampaignExpired
  | writeFlushTimerFired | acceptTimeoutCheckFired | heartbeatTimerFired
  | voteResponseReceived response | acceptResponseReceived response
  | clientWriteRequestReceived command =>
    rw [withstands_iff_campaign rfl]
    exact iff_of_true (Outcome.survives_ok.mpr trivial) (by simp)

end PreCandidate

namespace Candidate

/-- The new leader can send its first request to every follower. -/
def CanLead (c : Candidate) (ctx : PaxosSharedContext) (env : Env) : Prop :=
  let won := (Leader.new c.scoreBoard).restamp (c.flushUncommittedLogs ctx)
  ∀ p ∈ won.1.scoreBoard.keys, won.1.CanDispatch won.2 env p

/-- What a Candidate needs to handle the event: whoever waits for an answer is still
there, a voter whose match slot is recorded is on the score board, and when the
response makes a quorum, the send time of the campaign is known and, before the lease
runs out, the new leader can send. -/
structure Withstands (c : Candidate) (event : PaxosEvent) (ctx : PaxosSharedContext) (env : Env) :
    Prop where
  answers : ∀ tx, event.peerTx = some tx → tx.receiverAlive = true
  sender : ∀ response promise, event = .voteResponseReceived response →
    response.outcome = .promise promise → promise.lastLogTerm = ctx.lastLogTerm →
    response.memberId ∈ c.scoreBoard.keys
  wins : ∀ response c', event = .voteResponseReceived response →
    c.recordVote response ctx = some c' → c'.hasVoteQuorum = true →
    ∃ dispatchTime, c'.voteDispatchTime = some dispatchTime ∧
      (TrueTime.before (dispatchTime + PaxosSharedContext.leaseLength) (env.clock 0) = true →
        c'.CanLead (ctx.updateLeaderLeaseExpiryTime
          (dispatchTime + PaxosSharedContext.leaseLength)) (env.skip 1))

variable {self : Candidate} {event : PaxosEvent} {ctx : PaxosSharedContext} {env : Env}

theorem withstands_iff_answers {tx : ReplyChannel} (htx : event.peerTx = some tx) :
    self.Withstands event ctx env ↔ tx.receiverAlive = true := by
  refine ⟨fun h => h.answers tx htx, fun halive => ⟨?_, ?_, ?_⟩⟩
  · intro tx' htx'
    cases Option.some.inj (htx.symm.trans htx')
    exact halive
  · rintro response promise rfl
    cases htx
  · rintro response c' rfl
    cases htx

/-- A response can be recorded unless it is the Promise, for a log of the same last
term, of a member that is not on the score board. -/
theorem recordVote_eq_none_iff {response : VoteResponse} :
    self.recordVote response ctx = none ↔
      ∃ promise, response.outcome = .promise promise ∧ promise.lastLogTerm = ctx.lastLogTerm ∧
        response.memberId ∉ self.scoreBoard.keys := by
  unfold recordVote
  cases hout : response.outcome with
  | rejection rejection => simp
  | promise promise =>
    simp only [VoteOutcome.promise.injEq, exists_eq_left', AssocMap.mem_keys_iff]
    split
    · rename_i hterm
      cases hget : self.scoreBoard.get? response.memberId <;> simp [hterm]
    · rename_i hterm
      simp [hterm]

theorem becomeLeader_survives {c : Candidate} :
    (c.becomeLeader ctx env).Survives ↔ c.CanLead ctx env := by
  unfold becomeLeader CanLead
  dsimp only
  rw [Outcome.survives_toOutcome, Attempt.survives_map, Leader.processUncommittedLogs_eq,
    Attempt.survives_map, Leader.dispatchAcceptRequest_survives]

theorem handleVoteResponse_survives {response : VoteResponse} :
    (self.handleVoteResponse response ctx env).Survives ↔
      self.Withstands (.voteResponseReceived response) ctx env := by
  have hwithstands : self.Withstands (.voteResponseReceived response) ctx env ↔
      self.recordVote response ctx ≠ none ∧ ∀ c', self.recordVote response ctx = some c' →
        c'.hasVoteQuorum = true → ∃ dispatchTime, c'.voteDispatchTime = some dispatchTime ∧
          (TrueTime.before (dispatchTime + PaxosSharedContext.leaseLength) (env.clock 0) = true →
            c'.CanLead (ctx.updateLeaderLeaseExpiryTime
              (dispatchTime + PaxosSharedContext.leaseLength)) (env.skip 1)) := by
    constructor
    · intro h
      refine ⟨fun hnone => ?_, fun c' => h.wins response c' rfl⟩
      obtain ⟨promise, hout, hterm, hno⟩ := recordVote_eq_none_iff.mp hnone
      exact hno (h.sender response promise rfl hout hterm)
    · rintro ⟨hsome, hwins⟩
      refine ⟨fun _ htx => absurd htx (PaxosEvent.not_peerTx rfl), ?_, ?_⟩
      · rintro response' promise he hout hterm
        cases he
        by_contra hno
        exact hsome (recordVote_eq_none_iff.mpr ⟨promise, hout, hterm, hno⟩)
      · rintro response' c' he
        cases he
        exact hwins c'
  rw [hwithstands]
  unfold handleVoteResponse
  cases self.recordVote response ctx with
  | none =>
    refine iff_of_false (fun h => ?_) fun h => h.1 rfl
    cases h _ rfl
  | some c' =>
    simp only [ne_eq, reduceCtorEq, not_false_eq_true, true_and, Option.some.injEq, forall_eq']
    by_cases hquorum : c'.hasVoteQuorum = true
    · rw [if_pos hquorum, imp_iff_right hquorum]
      cases c'.voteDispatchTime with
      | none =>
        refine iff_of_false (fun h => ?_) (by simp)
        cases h _ rfl
      | some dispatchTime =>
        simp only [Option.some.injEq, exists_eq_left']
        by_cases hbefore : TrueTime.before (dispatchTime + PaxosSharedContext.leaseLength)
            (env.clock 0) = true
        · rw [if_neg (not_not.mpr hbefore), imp_iff_right hbefore, becomeLeader_survives]
        · rw [if_pos hbefore]
          exact iff_of_true (Outcome.survives_ok.mpr trivial) fun h => absurd h hbefore
    · rw [if_neg hquorum]
      refine iff_of_true ?_ fun h => absurd h hquorum
      split <;> exact Outcome.survives_ok.mpr trivial

theorem handleEvent_survives :
    (self.handleEvent event ctx env).Survives ↔ self.Withstands event ctx env := by
  cases event with
  | preVoteRequestReceived command | voteRequestReceived command =>
    rw [withstands_iff_answers rfl]
    exact Outcome.survives_reply
  | acceptRequestReceived command =>
    rw [withstands_iff_answers rfl]
    exact stepDownOnAccept_survives
  | voteResponseReceived response => exact handleVoteResponse_survives
  | leaderLeaseExpired | electionCountdownExpired | preVoteCampaignExpired | voteCampaignExpired
  | writeFlushTimerFired | acceptTimeoutCheckFired | heartbeatTimerFired
  | preVoteResponseReceived response | acceptResponseReceived response
  | clientWriteRequestReceived command =>
    refine iff_of_true (Outcome.survives_ok.mpr trivial) ⟨?_, ?_, ?_⟩
    · exact fun tx htx => absurd htx (PaxosEvent.not_peerTx rfl)
    · rintro response promise ⟨⟩
    · rintro response c' ⟨⟩

end Candidate

namespace PaxosState
variable {self : PaxosState} {event : PaxosEvent} {ctx : PaxosSharedContext} {env : Env}

/-- What a member needs to handle the event in its role. -/
def Withstands (self : PaxosState) (event : PaxosEvent) (ctx : PaxosSharedContext) (env : Env) :
    Prop :=
  match self with
  | follower f => f.Withstands event ctx env
  | preCandidate p => p.Withstands event env
  | candidate c => c.Withstands event ctx env
  | leader l => l.Withstands event ctx env

/-- The handlers of a member fail exactly where the role that handles the event, after
the term has been adopted, does not withstand it. -/
theorem processEvent_survives :
    (self.processEvent event ctx false env).Survives ↔
      (self.adoptTerm event ctx).1.Withstands event (self.adoptTerm event ctx).2 env := by
  rw [processEvent_eq]
  cases (self.adoptTerm event ctx).1 with
  | follower f => exact Follower.handleEvent_survives
  | preCandidate p => exact PreCandidate.handleEvent_survives
  | candidate c => exact Candidate.handleEvent_survives
  | leader l => exact Leader.handleEvent_survives

/-- **A member that has not been cancelled survives an event exactly if its role
withstands it and all that it computes fits its type.** -/
theorem processEvent_survives_iff (self : PaxosState) (event : PaxosEvent)
    (ctx : PaxosSharedContext) (env : Env) :
    (self.processEventChecked event ctx false env).Survives ↔
      (self.adoptTerm event ctx).1.Withstands event (self.adoptTerm event ctx).2 env ∧
        ∀ c ∈ (self.adoptTerm event ctx).1.computes event (self.adoptTerm event ctx).2 env,
          c.Fits := by
  rw [processEventChecked_survives, processEvent_survives]
  exact Iff.rfl

/-- Member 2 gives up waiting for the answer to its pre-vote request, and the Follower
that answers it is gone. -/
theorem not_survives_dropped :
    ¬ ((follower (Follower.new none)).processEventChecked
      (.preVoteRequestReceived ⟨⟨2, 1, 0, 0⟩, ⟨2, false⟩⟩) (.memberOfThree 1) false
      (.steady (Duration.seconds 1))).Survives := by
  intro h
  cases (processEventChecked_survives.mp h).1 .receiverDropped rfl

end PaxosState
end SpannerPaxos
