import SpannerPaxos.Leader

/-! # The campaign roles

`PreCandidate` collects pre-votes for the next term and becomes a `Candidate` on
a quorum of grants; `Candidate` collects votes, the voters' log positions and
their uncommitted entries, and becomes `Leader` on a quorum of Promises.  Both
fall back to a Follower when their campaign ends otherwise.
-/
namespace SpannerPaxos

/-- `util::handle_pre_vote_request`, shared by the campaign roles: the pre-vote
without the lease test.  As in the Follower, the candidate's last log term is
compared with the voter's current term. -/
def handlePreVoteRequest (request : PreVoteRequest) (ctx : PaxosSharedContext) :
    PreVoteResponse :=
  if request.nextTerm ≤ ctx.term then ctx.rejectPreVote none none none
  else if request.lastLogTerm < ctx.term then
    ctx.rejectPreVote none (some ctx.lastLogTerm) none
  else if request.lastLogSlot < ctx.lastLogSlot then
    ctx.rejectPreVote none (some ctx.lastLogTerm) (some ctx.lastLogSlot)
  else ⟨ctx.memberId, ctx.term, true, none, none, none⟩

/-- A campaign role that gets an accept request of its term or above hands it to
a Follower of the sender; `stay` is the role it keeps on a stale one. -/
def stepDownOnAccept (stay : PaxosState) (command : PaxosCommand AcceptRequest)
    (ctx : PaxosSharedContext) (env : Env) : Outcome :=
  if command.request.term < ctx.term then
    .reply command.responseTx
      (.acceptReply command.responseTx (ctx.ignoreAccept command.request)) stay ctx
  else
    let follower := Follower.new (some command.request.leaderId)
    let (response, ctx) := follower.handleAcceptRequest command.request ctx env
    .reply command.responseTx (.acceptReply command.responseTx response) (.follower follower) ctx

/-- A campaign role has no leader to forward a write to. -/
def rejectClientWrite (stay : PaxosState) (command : PaxosCommand ClientWriteRequest)
    (ctx : PaxosSharedContext) : Outcome :=
  .ok stay ctx (sendIgnoring command.responseTx (.clientReply command.responseTx ⟨false,
    some "no active leader in the current Paxos group, rejecting incoming write request"⟩))

/-! ## Candidate -/

namespace Candidate
variable (self : Candidate)

def new (ctx : PaxosSharedContext) : Candidate where
  voteBoard := .ofKeys ctx.peerIds ctx.peerIds_nodup fun _ => none
  scoreBoard := .ofKeys ctx.peerIds ctx.peerIds_nodup fun _ =>
    LogPosition.withNextSlot (ctx.lastLogSlot + 1)
  voteDispatchTime := none
  voteCdClock := CountDownClock.new
  pendingUncommittedLogs := OrderedMap.empty

/-- The dispatch time is read before anything is sent.  A dispatch that fails
midway may have reached some members, so its effect stands either way. -/
def dispatchVote (ctx : PaxosSharedContext) (env : Env) : Attempt Candidate :=
  let self := { self with voteDispatchTime := some (TrueTime.now (env.clock 0)).earliest }
  if env.broadcasts then
    ⟨{ self with voteCdClock := self.voteCdClock.start }, [.dispatchVote ctx.createVote], none⟩
  else ⟨self, [.dispatchVote ctx.createVote], some .dispatchFailed⟩

def hasAllVoteResponses : Bool := self.voteBoard.values.all Option.isSome

/-- The entry of the board is a Promise. -/
def isGranted : Option VoteResponse → Bool
  | some r => r.outcome.isPromise
  | none => false

def hasVoteQuorum : Bool :=
  decide (self.voteBoard.values.countP isGranted + 1 ≥ (self.voteBoard.size + 1) / 2 + 1)

/-- Keep, at every slot, the entry of the highest term. -/
def keepHighestTerm (logs : OrderedMap Nat LogEntry) (entry : LogEntry) :
    OrderedMap Nat LogEntry :=
  match logs.get? entry.slot with
  | none => logs.insert entry.slot entry
  | some existing => if entry.term > existing.term then logs.insert entry.slot entry else logs

def mergeUncommittedLogs (entries : List LogEntry) : Candidate :=
  { self with
    pendingUncommittedLogs := entries.foldl keepHighestTerm self.pendingUncommittedLogs }

/-- The loop of `flush_uncommitted_logs`, over the pending entries by slot. -/
def flushLoop (committedSlot : Nat) (logs : OrderedMap Nat LogEntry)
    (pending : List (Nat × LogEntry)) : OrderedMap Nat LogEntry :=
  pending.foldl (fun logs e =>
    if e.1 ≤ committedSlot then logs
    else match logs.get? e.1 with
      | none => logs.insert e.1 e.2
      | some existing => if e.2.term > existing.term then logs.insert e.1 e.2 else logs) logs

def flushUncommittedLogs (ctx : PaxosSharedContext) : PaxosSharedContext :=
  { ctx with uncommittedLogs :=
      flushLoop ctx.committedSlot ctx.uncommittedLogs self.pendingUncommittedLogs.entries }

/-- Record a response; a Promise for a log of the same last term seeds the match
slot of its sender, and its entries are merged.  `none` is the failed `expect`
on a sender that is not in the score board. -/
def recordVote (response : VoteResponse) (ctx : PaxosSharedContext) : Option Candidate :=
  let self := { self with voteBoard := self.voteBoard.insert response.memberId (some response) }
  match response.outcome with
  | .rejection _ => some self
  | .promise promise =>
    if promise.lastLogTerm = ctx.lastLogTerm then
      match self.scoreBoard.get? response.memberId with
      | none => none
      | some pos =>
        let pos := { pos with matchSlot := min promise.lastLogSlot ctx.lastLogSlot }
        some ({ self with scoreBoard := self.scoreBoard.insert response.memberId pos
          }.mergeUncommittedLogs promise.uncommittedEntries)
    else some (self.mergeUncommittedLogs promise.uncommittedEntries)

/-- The candidate becomes leader: the uncommitted entries of the Promises join
its own, and all are replicated again under the new term. -/
def becomeLeader (ctx : PaxosSharedContext) (env : Env) : Outcome :=
  let leader := Leader.new self.scoreBoard
  let ctx := self.flushUncommittedLogs ctx
  ((leader.processUncommittedLogs ctx env).map fun s =>
    (PaxosState.leader s.1, s.2)).toOutcome

def handleVoteResponse (response : VoteResponse) (ctx : PaxosSharedContext) (env : Env) :
    Outcome :=
  match self.recordVote response ctx with
  | none => .fail (.panicked "member must be in score board") ctx []
  | some self =>
    if self.hasVoteQuorum then
      match self.voteDispatchTime with
      | none => .fail (.panicked
          "vote_dispatch_time must be set before computing leader lease expiry") ctx []
      | some dispatchTime =>
        let leaseExpiry := dispatchTime + PaxosSharedContext.leaseLength
        let ctx := ctx.updateLeaderLeaseExpiryTime leaseExpiry
        if ¬ TrueTime.before leaseExpiry (env.clock 0) then
          .ok (.follower (Follower.new none)) ctx []
        else self.becomeLeader ctx (env.skip 1)
    else if self.hasAllVoteResponses then .ok (.follower (Follower.new none)) ctx []
    else .ok (.candidate self) ctx []

def handleEvent (event : PaxosEvent) (ctx : PaxosSharedContext) (env : Env) : Outcome :=
  match event with
  | .leaderLeaseExpired | .electionCountdownExpired | .preVoteCampaignExpired
  | .writeFlushTimerFired | .acceptTimeoutCheckFired | .heartbeatTimerFired
  | .acceptResponseReceived _ | .preVoteResponseReceived _ => .ok (.candidate self) ctx []
  | .acceptRequestReceived command => stepDownOnAccept (.candidate self) command ctx env
  | .voteCampaignExpired => .ok (.follower (Follower.new none)) ctx []
  | .preVoteRequestReceived command =>
    .reply command.responseTx
      (.preVoteReply command.responseTx (handlePreVoteRequest command.request ctx))
      (.candidate self) ctx
  | .voteRequestReceived command =>
    -- already voted for itself in this term
    .reply command.responseTx (.voteReply command.responseTx
      (ctx.rejectVote none none none (some ctx.memberId))) (.candidate self) ctx
  | .voteResponseReceived response => self.handleVoteResponse response ctx env
  | .clientWriteRequestReceived command => rejectClientWrite (.candidate self) command ctx

end Candidate

/-! ## PreCandidate -/

namespace PreCandidate
variable (self : PreCandidate)

def new (ctx : PaxosSharedContext) : PreCandidate where
  preVoteBoard := .ofKeys ctx.peerIds ctx.peerIds_nodup fun _ => none
  votedForId := none
  prevoteCdClock := CountDownClock.new

def dispatchPreVote (ctx : PaxosSharedContext) (env : Env) : Attempt PreCandidate :=
  if env.broadcasts then
    ⟨{ self with prevoteCdClock := self.prevoteCdClock.start },
      [.dispatchPreVote ctx.createPreVote], none⟩
  else ⟨self, [.dispatchPreVote ctx.createPreVote], some .dispatchFailed⟩

def updatePreVoteBoard (response : PreVoteResponse) : PreCandidate :=
  { self with preVoteBoard := self.preVoteBoard.insert response.memberId (some response) }

def hasAllPreVoteResponses : Bool := self.preVoteBoard.values.all Option.isSome

/-- The entry of the board is a grant. -/
def isGranted : Option PreVoteResponse → Bool
  | some r => r.voteGranted
  | none => false

def hasPreVoteQuorum : Bool :=
  decide (self.preVoteBoard.values.countP isGranted + 1 ≥ (self.preVoteBoard.size + 1) / 2 + 1)

def handlePreVoteResponse (response : PreVoteResponse) (ctx : PaxosSharedContext) (env : Env) :
    Outcome :=
  let self := self.updatePreVoteBoard response
  if self.hasPreVoteQuorum then
    let candidate := Candidate.new ctx
    let ctx := { ctx with term := ctx.term + 1 }
    ((candidate.dispatchVote ctx env).map fun candidate =>
      (PaxosState.candidate candidate, ctx)).toOutcome
  else if self.hasAllPreVoteResponses then .ok (.follower (Follower.new none)) ctx []
  else .ok (.preCandidate self) ctx []

/-- The vote this role has granted in a term no lower than `term`. -/
def votedSince (term : Nat) : Option (Nat × Uuid) :=
  self.votedForId.filter fun vote => decide (term ≤ vote.1)

/-- The Follower's rule over this role's own record, without the lease. -/
def handleVoteRequest (request : VoteRequest) (ctx : PaxosSharedContext) :
    PreCandidate × VoteResponse :=
  match self.votedSince request.term with
  | some vote => (self, ctx.rejectVote none none none (some vote.2))
  | none =>
    if request.term ≤ ctx.term then (self, ctx.rejectVote none none none none)
    else if request.lastLogTerm < ctx.lastLogTerm then
      (self, ctx.rejectVote none (some ctx.lastLogTerm) none none)
    else if request.lastLogSlot < ctx.lastLogSlot then
      (self, ctx.rejectVote none (some ctx.lastLogTerm) (some ctx.lastLogSlot) none)
    else ({ self with votedForId := some (request.term, request.memberId) }, ctx.promiseVote)

def handleEvent (event : PaxosEvent) (ctx : PaxosSharedContext) (env : Env) : Outcome :=
  match event with
  | .leaderLeaseExpired | .electionCountdownExpired | .voteCampaignExpired
  | .writeFlushTimerFired | .acceptTimeoutCheckFired | .heartbeatTimerFired
  | .acceptResponseReceived _ | .voteResponseReceived _ => .ok (.preCandidate self) ctx []
  | .acceptRequestReceived command => stepDownOnAccept (.preCandidate self) command ctx env
  | .preVoteCampaignExpired => .ok (.follower (Follower.new none)) ctx []
  | .preVoteRequestReceived command =>
    .reply command.responseTx
      (.preVoteReply command.responseTx (handlePreVoteRequest command.request ctx))
      (.preCandidate self) ctx
  | .preVoteResponseReceived response => self.handlePreVoteResponse response ctx env
  | .voteRequestReceived command =>
    let (self, response) := self.handleVoteRequest command.request ctx
    .reply command.responseTx (.voteReply command.responseTx response) (.preCandidate self) ctx
  | .clientWriteRequestReceived command => rejectClientWrite (.preCandidate self) command ctx

end PreCandidate
end SpannerPaxos
