import SpannerPaxos.Follower
import Mathlib.Data.List.Sort

/-! # The Leader's handlers

`Leader` replicates its log.  The score board holds, for every follower, how far
its log is known to match (`matchSlot`), where the next probe starts
(`nextSlot`) and what has been sent (`sentSlot`).  A dispatch ships the log's
tail behind an anchor; a successful response moves `matchSlot`, the commit point
and the lease; a rejection moves `nextSlot` and probes again.
-/
namespace SpannerPaxos

namespace FollowerState
variable (self : FollowerState)

def new (logPosition : LogPosition) : FollowerState := ⟨logPosition, []⟩

def pushBatch (highestSlot : Nat) (sentAt : DateTime) : FollowerState :=
  { self with inFlightBatches := self.inFlightBatches ++ [⟨sentAt, highestSlot⟩] }

/-- Drops the batches at the front whose highest slot is at or below `ackedSlot`. -/
def ackBatchesUpTo (ackedSlot : Nat) : FollowerState :=
  { self with
    inFlightBatches := self.inFlightBatches.dropWhile fun b => decide (b.highestSlot ≤ ackedSlot) }

def clearInFlightBatches : FollowerState where
  logPosition := { self.logPosition with sentSlot := self.logPosition.nextSlot - 1 }
  inFlightBatches := []

/-- The anchor slot of the next dispatch. -/
def prevLogSlot : Nat :=
  if self.logPosition.sentSlot > self.logPosition.nextSlot then self.logPosition.sentSlot
  else self.logPosition.nextSlot - 1

/-- What a dispatch records: the last entry sent, if there is one. -/
def recordSent (last : Option AcceptLogEntry) (tSend : DateTime) : FollowerState :=
  match last with
  | some log =>
    FollowerState.pushBatch
      { self with logPosition := { self.logPosition with sentSlot := log.slot } } log.slot tSend
  | none => self

/-- A first acknowledgement of `lastWrittenSlot`. -/
def recordMatch (lastWrittenSlot : Nat) : FollowerState :=
  FollowerState.ackBatchesUpTo
    { self with logPosition :=
      { matchSlot := lastWrittenSlot
        nextSlot := lastWrittenSlot + 1
        sentSlot := max self.logPosition.sentSlot lastWrittenSlot } } lastWrittenSlot

end FollowerState

namespace Leader
variable (self : Leader)

def defaultWriteBatchSize : Nat := 1000

/-- `ACCEPT_REQUEST_TIMEOUT`. -/
def acceptRequestTimeout : Duration := Duration.seconds 60

/-- The leader after an election; its countdown for the first heartbeat runs. -/
def new (scoreBoard : AssocMap Uuid LogPosition) : Leader where
  scoreBoard := scoreBoard.mapValues FollowerState.new
  lastContact := scoreBoard.mapValues fun _ => DateTime.unixEpoch
  inFlightWrites := OrderedMap.empty
  pendingWriteCount := 0
  writeBatchSize := defaultWriteBatchSize
  heartbeatCdClock := CountDownClock.new.start

/-- The term at an anchor: slot 0 anchors the first entry and has term 0. -/
def prevLogTerm? (ctx : PaxosSharedContext) (prevLogSlot : Nat) : Option Nat :=
  if prevLogSlot = 0 then some 0 else ctx.wal.getTerm prevLogSlot

/-- The request a dispatch sends behind an anchor. -/
def makeAcceptRequest (ctx : PaxosSharedContext) (prevLogSlot prevLogTerm : Nat)
    (minNextTs : Option DateTime) (utc : DateTime) : AcceptRequest where
  term := ctx.term
  leaderId := ctx.memberId
  prevLogSlot := prevLogSlot
  prevLogTerm := prevLogTerm
  entries := (ctx.wal.getEntriesFrom (prevLogSlot + 1)).map LogEntry.toAcceptLogEntry
  leaderCommitSlot := ctx.committedSlot
  tSend := (TrueTime.now utc).earliest
  minNextTs := minNextTs

def dispatchAcceptRequestToFollower (memberId : Uuid) (ctx : PaxosSharedContext)
    (minNextTs : Option DateTime) (env : Env) : Attempt Leader :=
  match self.scoreBoard.get? memberId with
  | none => ⟨self, [], some (.panicked "dispatch target must be in the score board")⟩
  | some fs =>
    match prevLogTerm? ctx fs.prevLogSlot with
    | none => ⟨self, [], some (.panicked
        "prev_log_slot is a slot previously sent, so it must be in the WAL")⟩
    | some prevLogTerm =>
      let request := makeAcceptRequest ctx fs.prevLogSlot prevLogTerm minNextTs (env.clock 0)
      let sent := fs.recordSent request.entries.getLast? request.tSend
      if env.reachable memberId then
        ⟨{ self with scoreBoard := self.scoreBoard.insert memberId sent },
          [.dispatchAccept memberId request], none⟩
      else ⟨self, [], some .dispatchFailed⟩

/-- The loop over the members of the score board; the first failure ends it. -/
def dispatchLoop (ctx : PaxosSharedContext) (minNextTs : Option DateTime) :
    Leader → List Uuid → Env → Attempt Leader
  | self, [], _ => .ok self
  | self, memberId :: memberIds, env =>
    (self.dispatchAcceptRequestToFollower memberId ctx minNextTs env).andThen fun self =>
      dispatchLoop ctx minNextTs self memberIds (env.skip 1)

def dispatchAcceptRequest (ctx : PaxosSharedContext) (minNextTs : Option DateTime) (env : Env) :
    Attempt Leader :=
  dispatchLoop ctx minNextTs self self.scoreBoard.keys env

def processUncommittedLogs (ctx : PaxosSharedContext) (env : Env) :
    Attempt (Leader × PaxosSharedContext) :=
  let restamped := ctx.uncommittedLogs.mapValues fun entry => { entry with term := ctx.term }
  let entries := restamped.values
  let ctx := { ctx with uncommittedLogs := restamped, wal := ctx.wal.appendAll entries }
  match entries.getLast? with
  | some last =>
    let ctx := { ctx with lastLogSlot := last.slot, lastLogTerm := ctx.term }
    let self := { self with scoreBoard := self.scoreBoard.mapValues fun fs =>
      { fs with logPosition := { fs.logPosition with nextSlot := last.slot + 1 } } }
    (self.dispatchAcceptRequest ctx none env).map fun self => (self, ctx)
  | none => (self.dispatchAcceptRequest ctx none env).map fun self => (self, ctx)

/-- The replies to committed writes, each behind its commit wait. -/
def replyCommitted : List (DateTime × PaxosCommand ClientWriteRequest) → Env → Attempt Unit
  | [], _ => .ok ()
  | (timestamp, cmd) :: rest, env =>
    if TrueTime.commitWait timestamp (env.clock 0) then
      Attempt.andThen ⟨(), sendIgnoring cmd.responseTx (.clientReply cmd.responseTx ⟨true, none⟩),
        none⟩ fun _ => replyCommitted rest (env.skip 1)
    else ⟨(), [], some .waiting⟩

def resolveInFlightWrites (committedSlot : Nat) (env : Env) : Attempt Leader :=
  let stillInFlight := self.inFlightWrites.filterKeys fun slot => decide (committedSlot + 1 ≤ slot)
  let committed := self.inFlightWrites.filterKeys fun slot => decide (slot < committedSlot + 1)
  (replyCommitted committed.values env).map fun _ => { self with inFlightWrites := stillInFlight }

def handleClientWrite (command : PaxosCommand ClientWriteRequest) (ctx : PaxosSharedContext)
    (env : Env) : Attempt (Leader × PaxosSharedContext) :=
  let slot := ctx.lastLogSlot + 1
  let timestamp := (TrueTime.now (env.clock 0)).latest
  let logEntry : LogEntry := ⟨ctx.term, slot, command.request.value, timestamp⟩
  let ctx := { ctx with
    wal := ctx.wal.append logEntry
    lastLogSlot := slot
    lastLogTerm := ctx.term
    uncommittedLogs := ctx.uncommittedLogs.insert slot logEntry }
  let self := { self with
    inFlightWrites := self.inFlightWrites.insert slot (timestamp, command)
    pendingWriteCount := self.pendingWriteCount + 1
    heartbeatCdClock := self.heartbeatCdClock.reset }
  ⟨(self, ctx), if self.pendingWriteCount ≥ self.writeBatchSize then [.signalWriteFlush] else [],
    none⟩

/-- The timestamp a heartbeat promises: no later than the leader's own lease. -/
def heartbeatTs (ctx : PaxosSharedContext) (utc : DateTime) : DateTime :=
  match ctx.leaseExpiry with
  | some leaseExpiry => min (TrueTime.now utc).latest leaseExpiry
  | none => (TrueTime.now utc).latest

def handleHeartbeatTimer (ctx : PaxosSharedContext) (env : Env) :
    Attempt (Leader × PaxosSharedContext) :=
  let minNextTs := heartbeatTs ctx (env.clock 0)
  let ctx := ctx.advanceTSafe (minNextTs - Duration.milliseconds 1)
  ((self.dispatchAcceptRequest ctx (some minNextTs) (env.skip 1)).andThen fun self =>
    .ok { self with heartbeatCdClock := self.heartbeatCdClock.start }).map fun self => (self, ctx)

def handleWriteFlush (ctx : PaxosSharedContext) (env : Env) :
    Attempt (Leader × PaxosSharedContext) :=
  if self.pendingWriteCount = 0 then .ok (self, ctx)
  else
    ((self.dispatchAcceptRequest ctx none env).andThen fun self =>
      .ok { self with pendingWriteCount := 0 }).map fun self => (self, ctx)

/-- The oldest batch in flight has waited too long. -/
def isTimedOut (now : DateTime) (fs : FollowerState) : Bool :=
  match fs.inFlightBatches with
  | [] => false
  | b :: _ => decide (now - b.sentAt > acceptRequestTimeout)

def handleAcceptTimeoutCheck (env : Env) : Leader :=
  { self with scoreBoard := self.scoreBoard.mapValues fun fs =>
      if isTimedOut (env.clock 0) fs then fs.clearInFlightBatches else fs }

/-- The follower's newest echoed send time. -/
def recordContact (response : AcceptResponse) : Leader :=
  let contact := match self.lastContact.get? response.memberId with
    | some t => max t response.echoedTSend
    | none => response.echoedTSend
  { self with lastContact := self.lastContact.insert response.memberId contact }

/-- The contact times, newest first. -/
def contactTimes : List DateTime := self.lastContact.values.insertionSort (· ≥ ·)

/-- The lease moves to the weakest contact of a quorum plus the lease length, if
that is later. -/
def renewLease (ctx : PaxosSharedContext) : PaxosSharedContext :=
  match self.contactTimes[ctx.getQuorumSize - 2]? with
  | none => ctx
  | some tQuorum =>
    let proposedExpiry := tQuorum + PaxosSharedContext.leaseLength
    match ctx.leaseExpiry with
    | some current =>
      if proposedExpiry > current then ctx.updateLeaderLeaseExpiryTime proposedExpiry else ctx
    | none => ctx.updateLeaderLeaseExpiryTime proposedExpiry

/-- The match slots of the followers, highest first. -/
def followerSlots : List Nat :=
  (self.scoreBoard.values.map fun fs => fs.logPosition.matchSlot).insertionSort (· ≥ ·)

/-- The highest slot on the leader and on `quorum_size - 1` followers. -/
def minQuorumSlot (ctx : PaxosSharedContext) : Nat :=
  ((self.followerSlots.take (ctx.getQuorumSize - 1) ++ [ctx.lastLogSlot]).min?).getD 0

/-- The part of a successful response that can commit. -/
def advanceCommit (ctx : PaxosSharedContext) (env : Env) : Attempt (Leader × PaxosSharedContext) :=
  let minQuorumSlot := self.minQuorumSlot ctx
  if minQuorumSlot > ctx.committedSlot then
    (self.resolveInFlightWrites minQuorumSlot env).map fun self => (self, ctx.commitTo minQuorumSlot)
  else .ok (self, ctx)

/-- The next probe after a rejection: the follower's own hint, or past the
leader's last entry of the conflicting term. -/
def nextSlotAfter (ctx : PaxosSharedContext) (hint : ConflictHint) : Nat :=
  if hint.conflictTerm = 0 then hint.conflictFirstSlot
  else
    match ctx.wal.findHighestSlotForTerm hint.conflictTerm with
    | some leaderLastSlot => leaderLastSlot + 1
    | none => hint.conflictFirstSlot

/-- The batches are cleared before `next_slot` moves, so `sent_slot` falls back to
the old probe. -/
def backtrack (ctx : PaxosSharedContext) (hint : ConflictHint) (fs : FollowerState) :
    FollowerState :=
  let fs := fs.clearInFlightBatches
  { fs with logPosition := { fs.logPosition with nextSlot := nextSlotAfter ctx hint } }

def handleAcceptResponse (response : AcceptResponse) (ctx : PaxosSharedContext) (env : Env) :
    Attempt (Leader × PaxosSharedContext) :=
  let memberId := response.memberId
  if response.term < ctx.term then .ok (self, ctx)
  else if ¬ response.success ∧ response.conflictHint = none then .ok (self, ctx)
  else
    let self := self.recordContact response
    if ctx.getQuorumSize < 2 then
      ⟨(self, ctx), [], some (.panicked "attempt to subtract with overflow")⟩
    else
      let ctx := self.renewLease ctx
      if response.success then
        match self.scoreBoard.get? memberId with
        | none => ⟨(self, ctx), [], some (.panicked
            "accept response received from unknown member")⟩
        | some fs =>
          if response.lastWrittenSlot > fs.logPosition.matchSlot then
            let self := { self with scoreBoard :=
              self.scoreBoard.insert memberId (fs.recordMatch response.lastWrittenSlot) }
            self.advanceCommit ctx env
          else .ok (self, ctx)
      else
        match response.conflictHint with
        | none => .ok (self, ctx)
        | some hint =>
          match self.scoreBoard.get? memberId with
          | none => ⟨(self, ctx), [], some (.panicked
              "accept response received from unknown member")⟩
          | some fs =>
            let self := { self with scoreBoard :=
              self.scoreBoard.insert memberId (backtrack ctx hint fs) }
            (self.dispatchAcceptRequestToFollower memberId ctx none env).map fun self => (self, ctx)

/-- `handle_pre_vote_response` and `handle_vote_response`: a response that is not
stale makes a leader whose lease is over step down. -/
def stepDownOn (term : Nat) (leaderId : Option Uuid) (ctx : PaxosSharedContext) (env : Env) :
    Option Follower :=
  if term < ctx.term then none
  else if ¬ ctx.isLeaderLeaseExpired (env.clock 0) then none
  else some (Follower.new leaderId)

def handlePreVoteResponse (response : PreVoteResponse) (ctx : PaxosSharedContext) (env : Env) :
    Option Follower :=
  stepDownOn response.term (response.tryGetLeader fun _ => true) ctx env

def handleVoteResponse (response : VoteResponse) (ctx : PaxosSharedContext) (env : Env) :
    Option Follower :=
  stepDownOn response.term (response.tryGetLeader fun _ => true) ctx env

def handleEvent (event : PaxosEvent) (ctx : PaxosSharedContext) (env : Env) : Outcome :=
  match event with
  | .electionCountdownExpired | .preVoteCampaignExpired | .voteCampaignExpired =>
    .ok (.leader self) ctx []
  | .acceptResponseReceived response => stay (self.handleAcceptResponse response ctx env)
  | .clientWriteRequestReceived command => stay (self.handleClientWrite command ctx env)
  | .writeFlushTimerFired => stay (self.handleWriteFlush ctx env)
  | .acceptTimeoutCheckFired => .ok (.leader (self.handleAcceptTimeoutCheck env)) ctx []
  | .heartbeatTimerFired => stay (self.handleHeartbeatTimer ctx env)
  | .leaderLeaseExpired => .ok (.follower (Follower.new none)) ctx []
  | .preVoteRequestReceived command =>
    -- the source tests for a lease that has *not* expired here
    if ¬ ctx.isLeaderLeaseExpired (env.clock 0) then
      let follower := Follower.new none
      let response := follower.handlePreVoteRequest command.request ctx (env.skip 1)
      .reply command.responseTx (.preVoteReply command.responseTx response) (.follower follower) ctx
    else
      .reply command.responseTx (.preVoteReply command.responseTx
        (ctx.rejectPreVote (some ctx.memberId) none none)) (.leader self) ctx
  | .preVoteResponseReceived response =>
    match handlePreVoteResponse response ctx env with
    | some follower => .ok (.follower follower) ctx []
    | none => .ok (.leader self) ctx []
  | .voteRequestReceived command =>
    if ctx.isLeaderLeaseExpired (env.clock 0) then
      let (follower, response, ctx) :=
        (Follower.new none).handleVoteRequest command.request ctx (env.skip 1)
      .reply command.responseTx (.voteReply command.responseTx response) (.follower follower) ctx
    else
      .reply command.responseTx (.voteReply command.responseTx
        (ctx.rejectVote (some ctx.memberId) none none none)) (.leader self) ctx
  | .voteResponseReceived response =>
    match handleVoteResponse response ctx env with
    | some follower => .ok (.follower follower) ctx []
    | none => .ok (.leader self) ctx []
  | .acceptRequestReceived command =>
    if ctx.isLeaderLeaseExpired (env.clock 0) then
      let follower := Follower.new (some command.request.leaderId)
      let (response, ctx) := follower.handleAcceptRequest command.request ctx (env.skip 1)
      .reply command.responseTx (.acceptReply command.responseTx response) (.follower follower) ctx
    else .ok (.leader self) ctx []
where
  /-- The leader stays; a fault is passed on. -/
  stay (a : Attempt (Leader × PaxosSharedContext)) : Outcome :=
    (a.map fun s => (PaxosState.leader s.1, s.2)).toOutcome

end Leader
end SpannerPaxos
