import SpannerPaxos.TrueTime

/-! # Messages and events

The messages members exchange, the commands that carry a request together with
the channel its answer goes to, and the events of the state machine.  The `u32`
counters of the source (terms and slots) are natural numbers: Rust's checked
arithmetic stops a member that would pass `u32::MAX`, so every run of the
program is a run of this model.
-/
namespace SpannerPaxos

/-- A 128-bit identifier; the program only compares them. -/
abbrev Uuid := Nat

/-- An entry of a write-ahead log. -/
structure LogEntry where
  term : Nat
  slot : Nat
  entry : String
  timestamp : DateTime
  deriving DecidableEq

structure PreVoteRequest where
  memberId : Uuid
  nextTerm : Nat
  lastLogTerm : Nat
  lastLogSlot : Nat
  deriving DecidableEq

structure PreVoteResponse where
  memberId : Uuid
  term : Nat
  voteGranted : Bool
  currentLeaderId : Option Uuid
  memberLastLogTerm : Option Nat
  memberLastLogSlot : Option Nat
  deriving DecidableEq

/-- The reported leader, if its term satisfies the condition. -/
def PreVoteResponse.tryGetLeader (r : PreVoteResponse) (termCondition : Nat → Bool) :
    Option Uuid :=
  match r.currentLeaderId with
  | none => none
  | some leaderId => if termCondition r.term then some leaderId else none

structure VoteRequest where
  memberId : Uuid
  term : Nat
  lastLogTerm : Nat
  lastLogSlot : Nat
  deriving DecidableEq

structure VotePromise where
  lastLogTerm : Nat
  lastLogSlot : Nat
  uncommittedEntries : List LogEntry
  deriving DecidableEq

structure VoteRejection where
  currentLeaderId : Option Uuid
  memberLastLogTerm : Option Nat
  memberLastLogSlot : Option Nat
  votedForId : Option Uuid
  deriving DecidableEq

inductive VoteOutcome where
  | promise (p : VotePromise)
  | rejection (r : VoteRejection)
  deriving DecidableEq

structure VoteResponse where
  memberId : Uuid
  term : Nat
  outcome : VoteOutcome
  deriving DecidableEq

/-- The outcome is a Promise. -/
def VoteOutcome.isPromise : VoteOutcome → Bool
  | promise _ => true
  | rejection _ => false

/-- The leader a rejection reports, if its term satisfies the condition. -/
def VoteResponse.tryGetLeader (r : VoteResponse) (termCondition : Nat → Bool) : Option Uuid :=
  match r.outcome with
  | .promise _ => none
  | .rejection rejection =>
    match rejection.currentLeaderId with
    | none => none
    | some leaderId => if termCondition r.term then some leaderId else none

structure AcceptLogEntry where
  term : Nat
  slot : Nat
  entry : String
  timestamp : DateTime
  deriving DecidableEq

/-- The entry a follower writes for a replicated one. -/
def AcceptLogEntry.toLogEntry (e : AcceptLogEntry) : LogEntry :=
  ⟨e.term, e.slot, e.entry, e.timestamp⟩

/-- The form in which a leader ships an entry. -/
def LogEntry.toAcceptLogEntry (e : LogEntry) : AcceptLogEntry :=
  ⟨e.term, e.slot, e.entry, e.timestamp⟩

@[simp] theorem LogEntry.toLogEntry_toAcceptLogEntry (e : LogEntry) :
    e.toAcceptLogEntry.toLogEntry = e := rfl

structure AcceptRequest where
  term : Nat
  leaderId : Uuid
  prevLogSlot : Nat
  prevLogTerm : Nat
  entries : List AcceptLogEntry
  leaderCommitSlot : Nat
  tSend : DateTime
  minNextTs : Option DateTime
  deriving DecidableEq

structure ConflictHint where
  conflictTerm : Nat
  conflictFirstSlot : Nat
  deriving DecidableEq

structure AcceptResponse where
  memberId : Uuid
  term : Nat
  success : Bool
  lastWrittenSlot : Nat
  conflictHint : Option ConflictHint
  echoedTSend : DateTime
  deriving DecidableEq

structure ClientWriteRequest where
  value : String
  deriving DecidableEq

structure ClientWriteResponse where
  success : Bool
  error : Option String
  deriving DecidableEq

/-- The sending half of a command's one-shot reply channel: who waits for the
answer, and whether that receiver is still there when the answer is sent. -/
structure ReplyChannel where
  receiver : Uuid
  receiverAlive : Bool
  deriving DecidableEq

/-- A request together with the channel for its answer. -/
structure PaxosCommand (T : Type) where
  request : T
  responseTx : ReplyChannel
  deriving DecidableEq

inductive PaxosEvent where
  | leaderLeaseExpired
  | electionCountdownExpired
  | preVoteCampaignExpired
  | voteCampaignExpired
  | writeFlushTimerFired
  | acceptTimeoutCheckFired
  | heartbeatTimerFired
  | preVoteRequestReceived (command : PaxosCommand PreVoteRequest)
  | preVoteResponseReceived (response : PreVoteResponse)
  | voteRequestReceived (command : PaxosCommand VoteRequest)
  | voteResponseReceived (response : VoteResponse)
  | acceptRequestReceived (command : PaxosCommand AcceptRequest)
  | acceptResponseReceived (response : AcceptResponse)
  | clientWriteRequestReceived (command : PaxosCommand ClientWriteRequest)
  deriving DecidableEq

/-- The Paxos term an event carries.  A pre-vote request carries a proposed term
only, so it has none. -/
def PaxosEvent.getTerm : PaxosEvent → Option Nat
  | preVoteResponseReceived r => some r.term
  | voteRequestReceived cmd => some cmd.request.term
  | voteResponseReceived r => some r.term
  | acceptRequestReceived cmd => some cmd.request.term
  | acceptResponseReceived r => some r.term
  | leaderLeaseExpired | electionCountdownExpired | preVoteCampaignExpired
  | voteCampaignExpired | writeFlushTimerFired | acceptTimeoutCheckFired
  | heartbeatTimerFired | preVoteRequestReceived _ | clientWriteRequestReceived _ => none

end SpannerPaxos
