import SpannerPaxos.Faults
import SpannerPaxos.Wire

/-! # What a member computes

The handlers of the model count slots and terms without a bound, and their timestamps may
leave the range of the clock.  In the source every result has a type to fit in: a timestamp
out of range panics, and so does an integer in a build with overflow checks, as a debug build
and the tests have them.

The `computes` of a function lists, in the order of the source, the results that can miss
their type on the way to its end; the size of a collection cannot.  `processEventChecked` is
`process_event` with its panics, which end the member wherever in a handler they strike.
-/
namespace SpannerPaxos

/-- A result in the type that the source has for it. -/
inductive Computed where
  | u32 (n : Nat)
  | usize (n : Nat)
  | dateTime (t : DateTime)
  deriving DecidableEq

def Computed.Fits : Computed → Prop
  | u32 n => n < 2 ^ 32
  | usize n => n < 2 ^ 64
  | dateTime t => t.InRange

instance : DecidablePred Computed.Fits
  | .u32 n => inferInstanceAs (Decidable (n < 2 ^ 32))
  | .usize n => inferInstanceAs (Decidable (n < 2 ^ 64))
  | .dateTime t => inferInstanceAs (Decidable t.InRange)

/-- `TrueTime::now`, and with it `before`, `after` and the last poll of a `commit_wait`. -/
def TrueTime.nowComputes (utc : DateTime) : List Computed :=
  [.dateTime (now utc).earliest, .dateTime (now utc).latest]

namespace PaxosSharedContext
variable (ctx : PaxosSharedContext)

/-- The clock is read only for a lease that is set. -/
def isLeaderLeaseExpiredComputes (utc : DateTime) : List Computed :=
  match ctx.leaseExpiry with
  | none => []
  | some _ => TrueTime.nowComputes utc

def extendLeaderLeaseExpiryTimeComputes (utc : DateTime) : List Computed :=
  TrueTime.nowComputes utc ++ [.dateTime ((TrueTime.now utc).latest + leaseLength)]

def createPreVoteComputes : List Computed := [.u32 (ctx.term + 1)]

/-- The part of the accept handler that moves the commit point. -/
def followCommitComputes (request : AcceptRequest) : List Computed :=
  if min request.leaderCommitSlot request.reach > ctx.committedSlot then []
  else match request.minNextTs with
    | some minNextTs => [.dateTime (minNextTs - Duration.milliseconds 1)]
    | none => []

end PaxosSharedContext

/-! ## Follower -/

namespace Follower
variable (self : Follower)

def handleVoteRequestComputes (request : VoteRequest) (ctx : PaxosSharedContext) (env : Env) :
    List Computed :=
  match self.votedSince request.term with
  | some _ => []
  | none =>
    ctx.isLeaderLeaseExpiredComputes (env.clock 0) ++
      if ¬ ctx.isLeaderLeaseExpired (env.clock 0) ∨ request.term ≤ ctx.term ∨
          request.lastLogTerm < ctx.lastLogTerm ∨ request.lastLogSlot < ctx.lastLogSlot then []
      else PaxosSharedContext.extendLeaderLeaseExpiryTimeComputes (env.clock 1)

/-- `handle_pre_vote_response` and `handle_vote_response`, by the term of the response. -/
def handleResponseComputes (term : Nat) (ctx : PaxosSharedContext) (env : Env) : List Computed :=
  if term < ctx.term then [] else ctx.isLeaderLeaseExpiredComputes (env.clock 0)

def handleElectionCountdownExpiredComputes (ctx : PaxosSharedContext) (env : Env) :
    List Computed :=
  ctx.isLeaderLeaseExpiredComputes (env.clock 0) ++
    if ¬ ctx.isLeaderLeaseExpired (env.clock 0) then [] else ctx.createPreVoteComputes

/-- The three answers to an admitted request. -/
def answerAcceptRequestComputes (request : AcceptRequest) (ctx : PaxosSharedContext) :
    List Computed :=
  let prevLogSlot := request.prevLogSlot
  if prevLogSlot > 0 ∧ ¬ ctx.wal.hasEntry prevLogSlot then [.u32 (ctx.lastLogSlot + 1)]
  else if prevLogSlot > 0 ∧ ctx.wal.getTerm prevLogSlot ≠ some request.prevLogTerm then []
  else .u32 (prevLogSlot + 1) :: ctx.followCommitComputes request

def handleAcceptRequestComputes (request : AcceptRequest) (ctx : PaxosSharedContext) (env : Env) :
    List Computed :=
  if request.term < ctx.term then []
  else
    ctx.isLeaderLeaseExpiredComputes (env.clock 0) ++
      if ctx.isLeaderLeaseExpired (env.clock 0) ∨
          self.currentLeaderId ≠ some request.leaderId then []
      else
        answerAcceptRequestComputes request ctx ++
          PaxosSharedContext.extendLeaderLeaseExpiryTimeComputes (env.clock 1)

def computes (event : PaxosEvent) (ctx : PaxosSharedContext) (env : Env) : List Computed :=
  match event with
  | .electionCountdownExpired => handleElectionCountdownExpiredComputes ctx env
  | .preVoteRequestReceived _ => ctx.isLeaderLeaseExpiredComputes (env.clock 0)
  | .preVoteResponseReceived response => handleResponseComputes response.term ctx env
  | .voteRequestReceived command => self.handleVoteRequestComputes command.request ctx env
  | .voteResponseReceived response => handleResponseComputes response.term ctx env
  | .acceptRequestReceived command => self.handleAcceptRequestComputes command.request ctx env
  | .leaderLeaseExpired | .preVoteCampaignExpired | .voteCampaignExpired | .writeFlushTimerFired
  | .acceptTimeoutCheckFired | .heartbeatTimerFired | .acceptResponseReceived _
  | .clientWriteRequestReceived _ => []

end Follower

/-! ## Leader -/

namespace Leader
variable (self : Leader)

def dispatchAcceptRequestToFollowerComputes (memberId : Uuid) (env : Env) : List Computed :=
  match self.scoreBoard.get? memberId with
  | none => []
  | some fs => .u32 (fs.prevLogSlot + 1) :: TrueTime.nowComputes (env.clock 0)

/-- The loop over the members of the score board: none of its dispatches moves the anchor of
a later one. -/
def dispatchLoopComputes : List Uuid → Env → List Computed
  | [], _ => []
  | memberId :: memberIds, env =>
    self.dispatchAcceptRequestToFollowerComputes memberId env ++
      dispatchLoopComputes memberIds (env.skip 1)

def dispatchAcceptRequestComputes (env : Env) : List Computed :=
  self.dispatchLoopComputes self.scoreBoard.keys env

def processUncommittedLogsComputes (ctx : PaxosSharedContext) (env : Env) : List Computed :=
  (match ctx.uncommittedLogs.values.getLast? with
    | some last => [.u32 (last.slot + 1)]
    | none => []) ++
  (self.restamp ctx).1.dispatchAcceptRequestComputes env

/-- The commit waits of the replies, up to one that goes on. -/
def replyCommittedComputes :
    List (DateTime × PaxosCommand ClientWriteRequest) → Env → List Computed
  | [], _ => []
  | (timestamp, _) :: rest, env =>
    TrueTime.nowComputes (env.clock 0) ++
      if TrueTime.commitWait timestamp (env.clock 0) then replyCommittedComputes rest (env.skip 1)
      else []

def resolveInFlightWritesComputes (committedSlot : Nat) (env : Env) : List Computed :=
  let committed := self.inFlightWrites.filterKeys fun slot => decide (slot < committedSlot + 1)
  .u32 (committedSlot + 1) :: replyCommittedComputes committed.values env

def handleClientWriteComputes (ctx : PaxosSharedContext) (env : Env) : List Computed :=
  .u32 (ctx.lastLogSlot + 1) :: TrueTime.nowComputes (env.clock 0) ++
    [.usize (self.pendingWriteCount + 1)]

def handleHeartbeatTimerComputes (ctx : PaxosSharedContext) (env : Env) : List Computed :=
  TrueTime.nowComputes (env.clock 0) ++
    .dateTime (heartbeatTs ctx (env.clock 0) - Duration.milliseconds 1) ::
      self.dispatchAcceptRequestComputes (env.skip 1)

def handleWriteFlushComputes (env : Env) : List Computed :=
  if self.pendingWriteCount = 0 then [] else self.dispatchAcceptRequestComputes env

def renewLeaseComputes (ctx : PaxosSharedContext) : List Computed :=
  match self.contactTimes[ctx.getQuorumSize - 2]? with
  | none => []
  | some tQuorum => [.dateTime (tQuorum + PaxosSharedContext.leaseLength)]

def advanceCommitComputes (ctx : PaxosSharedContext) (env : Env) : List Computed :=
  let minQuorumSlot := self.minQuorumSlot ctx
  if minQuorumSlot > ctx.committedSlot then self.resolveInFlightWritesComputes minQuorumSlot env
  else []

def nextSlotAfterComputes (ctx : PaxosSharedContext) (hint : ConflictHint) : List Computed :=
  if hint.conflictTerm = 0 then []
  else
    match ctx.wal.findHighestSlotForTerm hint.conflictTerm with
    | some leaderLastSlot => [.u32 (leaderLastSlot + 1)]
    | none => []

def handleAcceptResponseComputes (response : AcceptResponse) (ctx : PaxosSharedContext)
    (env : Env) : List Computed :=
  let memberId := response.memberId
  if response.term < ctx.term then []
  else if ¬ response.success ∧ response.conflictHint = none then []
  else
    let self := self.recordContact response
    self.renewLeaseComputes ctx ++
      match self.scoreBoard.get? memberId with
      | none => []
      | some fs =>
        if response.success then
          if response.lastWrittenSlot > fs.logPosition.matchSlot then
            .u32 (response.lastWrittenSlot + 1) ::
              (self.setFollower memberId (fs.recordMatch response.lastWrittenSlot)
                ).advanceCommitComputes ctx env
          else []
        else
          match response.conflictHint with
          | none => []
          | some hint =>
            nextSlotAfterComputes ctx hint ++
              (self.setFollower memberId (backtrack ctx hint fs)
                ).dispatchAcceptRequestToFollowerComputes memberId env

/-- A leader whose lease is over hands the event to a Follower. -/
def computes (event : PaxosEvent) (ctx : PaxosSharedContext) (env : Env) : List Computed :=
  match event with
  | .acceptResponseReceived response => self.handleAcceptResponseComputes response ctx env
  | .clientWriteRequestReceived _ => self.handleClientWriteComputes ctx env
  | .writeFlushTimerFired => self.handleWriteFlushComputes env
  | .heartbeatTimerFired => self.handleHeartbeatTimerComputes ctx env
  | .preVoteRequestReceived _ =>
    ctx.isLeaderLeaseExpiredComputes (env.clock 0) ++
      if ¬ ctx.isLeaderLeaseExpired (env.clock 0) then
        ctx.isLeaderLeaseExpiredComputes (env.clock 1)
      else []
  | .preVoteResponseReceived response => Follower.handleResponseComputes response.term ctx env
  | .voteRequestReceived command =>
    ctx.isLeaderLeaseExpiredComputes (env.clock 0) ++
      if ctx.isLeaderLeaseExpired (env.clock 0) then
        (Follower.new none).handleVoteRequestComputes command.request ctx (env.skip 1)
      else []
  | .voteResponseReceived response => Follower.handleResponseComputes response.term ctx env
  | .acceptRequestReceived command =>
    ctx.isLeaderLeaseExpiredComputes (env.clock 0) ++
      if ctx.isLeaderLeaseExpired (env.clock 0) then
        (Follower.new (some command.request.leaderId)).handleAcceptRequestComputes command.request
          ctx (env.skip 1)
      else []
  -- two timestamps in range are never too far apart for a duration
  | .acceptTimeoutCheckFired | .electionCountdownExpired | .preVoteCampaignExpired
  | .voteCampaignExpired | .leaderLeaseExpired => []

end Leader

/-! ## The campaign roles -/

def stepDownOnAcceptComputes (command : PaxosCommand AcceptRequest) (ctx : PaxosSharedContext)
    (env : Env) : List Computed :=
  if command.request.term < ctx.term then []
  else
    (Follower.new (some command.request.leaderId)).handleAcceptRequestComputes command.request ctx
      env

/-- A new Candidate, its term and the send time of its campaign. -/
def PreCandidate.computes (self : PreCandidate) (event : PaxosEvent) (ctx : PaxosSharedContext)
    (env : Env) : List Computed :=
  match event with
  | .acceptRequestReceived command => stepDownOnAcceptComputes command ctx env
  | .preVoteResponseReceived response =>
    if (self.updatePreVoteBoard response).hasPreVoteQuorum then
      [.u32 (ctx.lastLogSlot + 1), .u32 (ctx.term + 1)] ++ TrueTime.nowComputes (env.clock 0)
    else []
  | .leaderLeaseExpired | .electionCountdownExpired | .preVoteCampaignExpired
  | .voteCampaignExpired | .writeFlushTimerFired | .acceptTimeoutCheckFired | .heartbeatTimerFired
  | .preVoteRequestReceived _ | .voteRequestReceived _ | .voteResponseReceived _
  | .acceptResponseReceived _ | .clientWriteRequestReceived _ => []

namespace Candidate
variable (self : Candidate)

def becomeLeaderComputes (ctx : PaxosSharedContext) (env : Env) : List Computed :=
  (Leader.new self.scoreBoard).processUncommittedLogsComputes (self.flushUncommittedLogs ctx) env

def handleVoteResponseComputes (response : VoteResponse) (ctx : PaxosSharedContext) (env : Env) :
    List Computed :=
  match self.recordVote response ctx with
  | none => []
  | some self =>
    if self.hasVoteQuorum then
      match self.voteDispatchTime with
      | none => []
      | some dispatchTime =>
        let leaseExpiry := dispatchTime + PaxosSharedContext.leaseLength
        .dateTime leaseExpiry :: TrueTime.nowComputes (env.clock 0) ++
          if ¬ TrueTime.before leaseExpiry (env.clock 0) then []
          else self.becomeLeaderComputes ctx (env.skip 1)
    else []

def computes (event : PaxosEvent) (ctx : PaxosSharedContext) (env : Env) : List Computed :=
  match event with
  | .acceptRequestReceived command => stepDownOnAcceptComputes command ctx env
  | .voteResponseReceived response => self.handleVoteResponseComputes response ctx env
  | .leaderLeaseExpired | .electionCountdownExpired | .preVoteCampaignExpired
  | .voteCampaignExpired | .writeFlushTimerFired | .acceptTimeoutCheckFired | .heartbeatTimerFired
  | .preVoteRequestReceived _ | .preVoteResponseReceived _ | .voteRequestReceived _
  | .acceptResponseReceived _ | .clientWriteRequestReceived _ => []

end Candidate

/-! ## Every role -/

namespace PaxosState

def computes (self : PaxosState) (event : PaxosEvent) (ctx : PaxosSharedContext) (env : Env) :
    List Computed :=
  match self with
  | follower f => f.computes event ctx env
  | preCandidate p => p.computes event ctx env
  | candidate c => c.computes event ctx env
  | leader l => l.computes event ctx env

/-- All that the event makes the member compute, once the term is adopted, fits. -/
def Fits (self : PaxosState) (event : PaxosEvent) (ctx : PaxosSharedContext) (env : Env) : Prop :=
  ∀ c ∈ (self.adoptTerm event ctx).1.computes event (self.adoptTerm event ctx).2 env, c.Fits

instance (self : PaxosState) (event : PaxosEvent) (ctx : PaxosSharedContext) (env : Env) :
    Decidable (self.Fits event ctx env) :=
  inferInstanceAs (Decidable (∀ c ∈ _, _))

/-- `process_event` with the panics of its arithmetic, in a build with overflow checks. -/
def processEventChecked (self : PaxosState) (event : PaxosEvent) (ctx : PaxosSharedContext)
    (cancelled : Bool) (env : Env) : Outcome :=
  if cancelled = false ∧ ¬ self.Fits event ctx env then
    .fail (.panicked "overflow") (self.adoptTerm event ctx).2 []
  else self.processEvent event ctx cancelled env

variable {self : PaxosState} {event : PaxosEvent} {ctx : PaxosSharedContext} {env : Env}

/-- Where every result fits, the model without bounds is the program. -/
theorem processEventChecked_of_fits (hfits : self.Fits event ctx env) :
    self.processEventChecked event ctx false env = self.processEvent event ctx false env :=
  if_neg fun h => h.2 hfits

/-- Where one does not, the member ends. -/
theorem processEventChecked_of_not_fits (hover : ¬ self.Fits event ctx env) :
    self.processEventChecked event ctx false env =
      .fail (.panicked "overflow") (self.adoptTerm event ctx).2 [] :=
  if_pos ⟨rfl, hover⟩

/-- **A member survives an event exactly if its handler does and every result fits.** -/
theorem processEventChecked_survives :
    (self.processEventChecked event ctx false env).Survives ↔
      (self.processEvent event ctx false env).Survives ∧ self.Fits event ctx env := by
  by_cases hfits : self.Fits event ctx env
  · rw [processEventChecked_of_fits hfits, and_iff_left hfits]
  · rw [processEventChecked_of_not_fits hfits]
    refine iff_of_false (fun h => ?_) fun h => hfits h.2
    cases h _ rfl

/-- An event of no larger term is computed by the role the member is in. -/
theorem fits_of_le (hterm : ∀ term, event.getTerm = some term → term ≤ ctx.term) :
    self.Fits event ctx env ↔ ∀ c ∈ self.computes event ctx env, c.Fits := by
  rcases self.adoptTerm_cases event ctx with h | ⟨term, hget, hlt, _⟩
  · rw [Fits, h]
  · exact absurd (hterm term hget) (Nat.not_le.mpr hlt)

end PaxosState
end SpannerPaxos
