import SpannerPaxos.LogMoves
import SpannerPaxos.MessageTerms
import SpannerPaxos.RpcWire
import SpannerPaxos.Wakeup

/-! # What a member sends can be decoded

The timestamps of a member are its own readings of the clock, which are in the range that
travels, and what has come over the wire, which was.  A lease expiry may lie behind the range,
but not before it, and a heartbeat promises no more than the reading it is sent at.  So the
messages that a member sends over a run all arrive.
-/
namespace SpannerPaxos

/-- The timestamp is not before the clock's first. -/
def DateTime.AboveMin (t : DateTime) : Prop := DateTime.minMillis ≤ t.timestampMillis

namespace DateTime
variable {t t' : DateTime}

theorem InRange.aboveMin (h : t.InRange) : t.AboveMin := h.1

theorem AboveMin.mono (h : t.AboveMin) (hle : t ≤ t') : t'.AboveMin := by
  have hmillis : t.timestampMillis ≤ t'.timestampMillis := Int.ediv_le_ediv (by decide) hle
  exact le_trans h hmillis

theorem AboveMin.add_leaseLength (h : t.AboveMin) :
    AboveMin (t + PaxosSharedContext.leaseLength) :=
  h.mono (Int.le_add_of_nonneg_right (by decide))

theorem InRange.min (h : t.InRange) (h' : t'.AboveMin) : InRange (min t t') := by
  rcases min_choice t t' with heq | heq
  · rw [heq]
    exact h
  · have hle : t' ≤ t := by
      rw [← heq]
      exact min_le_left t t'
    have hmillis : t'.timestampMillis ≤ t.timestampMillis := Int.ediv_le_ediv (by decide) hle
    rw [heq]
    exact ⟨h', le_trans hmillis h.2⟩

theorem inRange_unixEpoch : InRange unixEpoch := by decide

end DateTime

/-- Every reading of the clock is in range, with its uncertainty. -/
def Env.InRange (env : Env) : Prop :=
  ∀ i, (TrueTime.now (env.clock i)).earliest.InRange ∧ (TrueTime.now (env.clock i)).latest.InRange

theorem Env.InRange.skip {env : Env} (h : env.InRange) (n : Nat) : (env.skip n).InRange :=
  fun i => h (i + n)

/-! ## Messages -/

/-- The message that an effect sends. -/
def Effect.message : Effect → Option Message
  | .preVoteReply _ response => some (.preVoteResponse response)
  | .voteReply _ response => some (.voteResponse response)
  | .acceptReply _ response => some (.acceptResponse response)
  | .clientReply _ response => some (.clientWriteResponse response)
  | .dispatchPreVote request => some (.preVoteRequest request)
  | .dispatchVote request => some (.voteRequest request)
  | .dispatchAccept _ request => some (.acceptRequest request)
  | .dispatchClientWrite _ request _ => some (.clientWriteRequest request)
  | .signalWriteFlush => none

/-- The message that an event brings. -/
def PaxosEvent.message : PaxosEvent → Option Message
  | preVoteRequestReceived command => some (.preVoteRequest command.request)
  | preVoteResponseReceived response => some (.preVoteResponse response)
  | voteRequestReceived command => some (.voteRequest command.request)
  | voteResponseReceived response => some (.voteResponse response)
  | acceptRequestReceived command => some (.acceptRequest command.request)
  | acceptResponseReceived response => some (.acceptResponse response)
  | clientWriteRequestReceived command => some (.clientWriteRequest command.request)
  | leaderLeaseExpired | electionCountdownExpired | preVoteCampaignExpired | voteCampaignExpired
  | writeFlushTimerFired | acceptTimeoutCheckFired | heartbeatTimerFired => none

/-- The message that the event brings has come over the wire. -/
def PaxosEvent.OverWire (text : UuidText) (event : PaxosEvent) : Prop :=
  ∀ m, event.message = some m → ∃ p, Wire.fromProto text p = some m

/-- What arrives as it was has come over the wire, for all that its receiver can tell. -/
theorem PaxosEvent.overWire_of_received (text : UuidText) {event : PaxosEvent}
    (h : ∀ m, event.message = some m → m.InRange ∧ m.received = m) : event.OverWire text := by
  intro m hm
  obtain ⟨hrange, hsame⟩ := h m hm
  have harrives := Wire.roundTrips_of_inRange text hrange
  rw [RoundTrips, hsame] at harrives
  exact ⟨_, harrives⟩

/-- The timestamps of a log entry, an effect and an event. -/
def LogEntry.InRange (e : LogEntry) : Prop := e.timestamp.InRange

def Effect.InRange (e : Effect) : Prop := ∀ m, e.message = some m → m.InRange

structure PaxosEvent.InRange (event : PaxosEvent) : Prop where
  message : ∀ m, event.message = some m → m.InRange
  promise : ∀ response promise, event = .voteResponseReceived response →
    response.outcome = .promise promise → ∀ e ∈ promise.uncommittedEntries, e.InRange

theorem PaxosEvent.OverWire.inRange {text : UuidText} {event : PaxosEvent}
    (h : event.OverWire text) : event.InRange where
  message m hm := by
    obtain ⟨p, hp⟩ := h m hm
    exact (Wire.received_of_wire hp).1
  promise response promise hevent houtcome e he := by
    rw [hevent] at h
    obtain ⟨p, hp⟩ := h _ rfl
    -- the entries of a Promise that has come over the wire are of the epoch
    have hstamped : (response.stamped fun _ => DateTime.unixEpoch).outcome = response.outcome :=
      congrArg VoteResponse.outcome (Message.voteResponse.inj (Wire.received_of_wire hp).2)
    simp only [VoteResponse.stamped, houtcome, VoteOutcome.promise.injEq] at hstamped
    rw [← hstamped] at he
    obtain ⟨e', _, rfl⟩ := List.mem_map.mp he
    exact DateTime.inRange_unixEpoch

/-! ## Contexts and roles -/

/-- The log is in range, and the lease expiry is not before it. -/
structure PaxosSharedContext.InRange (ctx : PaxosSharedContext) : Prop where
  wal : ctx.wal.entries.All LogEntry.InRange
  uncommittedLogs : ctx.uncommittedLogs.All LogEntry.InRange
  leaseExpiry : ∀ t, ctx.leaseExpiry = some t → t.AboveMin

def PaxosState.InRange : PaxosState → Prop
  | .follower _ | .preCandidate _ => True
  | .candidate c => (∀ t, c.voteDispatchTime = some t → t.AboveMin) ∧
    c.pendingUncommittedLogs.All LogEntry.InRange
  | .leader l => ∀ p t, l.lastContact.get? p = some t → t.AboveMin

structure Outcome.InRange (o : Outcome) : Prop where
  ctx : o.ctx.InRange
  role : ∀ role, o.result = .ok role → role.InRange
  effects : ∀ e ∈ o.effects, e.InRange

theorem WriteAheadLog.all_appendAll {P : LogEntry → Prop} {wal : WriteAheadLog}
    (h : wal.entries.All P) {batch : List LogEntry} (hbatch : ∀ e ∈ batch, P e) :
    (wal.appendAll batch).entries.All P := by
  induction batch generalizing wal with
  | nil => exact h
  | cons e batch ih =>
    obtain ⟨he, hrest⟩ := List.forall_mem_cons.mp hbatch
    exact ih (h.insert he) hrest

namespace PaxosSharedContext.InRange
variable {ctx ctx' : PaxosSharedContext}

theorem start (memberId : Uuid) (peerIds : List Uuid) (hpeers : peerIds.Nodup) :
    (PaxosSharedContext.new memberId peerIds hpeers).InRange where
  wal := OrderedMap.All.empty
  uncommittedLogs := OrderedMap.All.empty
  leaseExpiry t ht := by
    rw [← Option.some.inj ht]
    exact DateTime.inRange_unixEpoch.aboveMin

theorem lease (h : ctx.InRange) {lease : Option DateTime}
    (hlease : ∀ t, lease = some t → t.AboveMin) : InRange { ctx with leaseExpiry := lease } :=
  ⟨h.wal, h.uncommittedLogs, hlease⟩

theorem adoptTerm (h : ctx.InRange) (term : Nat) : InRange { ctx with term } :=
  ⟨h.wal, h.uncommittedLogs, h.leaseExpiry⟩

theorem updateLease (h : ctx.InRange) {t : DateTime} (ht : t.AboveMin) :
    (ctx.updateLeaderLeaseExpiryTime t).InRange := by
  apply h.lease
  intro t' ht'
  rw [← Option.some.inj ht']
  exact ht

theorem extendLease (h : ctx.InRange) {utc : DateTime} (hutc : (TrueTime.now utc).latest.InRange) :
    (ctx.extendLeaderLeaseExpiryTime utc).InRange :=
  h.updateLease hutc.aboveMin.add_leaseLength

theorem advanceTSafe (h : ctx.InRange) (ts : DateTime) : (ctx.advanceTSafe ts).InRange := by
  rw [PaxosSharedContext.advanceTSafe_eq]
  exact ⟨h.wal, h.uncommittedLogs, h.leaseExpiry⟩

theorem commitTo (h : ctx.InRange) (slot : Nat) : (ctx.commitTo slot).InRange where
  wal := by
    rw [commitTo_wal]
    exact h.wal
  uncommittedLogs := by
    rw [commitTo_uncommittedLogs]
    exact h.uncommittedLogs.filterKeys _
  leaseExpiry := by
    rw [commitTo_leaseExpiry]
    exact h.leaseExpiry

theorem writeEntries (h : ctx.InRange) {batch : List AcceptLogEntry}
    (hbatch : ∀ e ∈ batch, e.timestamp.InRange) : (ctx.writeEntries batch).InRange := by
  unfold PaxosSharedContext.writeEntries
  induction batch generalizing ctx with
  | nil => exact h
  | cons e batch ih =>
    obtain ⟨he, hrest⟩ := List.forall_mem_cons.mp hbatch
    exact ih ⟨h.wal.insert he, h.uncommittedLogs.insert he, h.leaseExpiry⟩ hrest

theorem writeBatch (h : ctx.InRange) {request : AcceptRequest} (hrequest : request.InRange) :
    (Follower.writeBatch request ctx).2.InRange := by
  have htail : (ctx.replaceTail request).InRange := by
    have hcut : InRange { ctx with wal := ctx.wal.truncateFrom (request.prevLogSlot + 1) } :=
      ⟨h.wal.filterKeys _, h.uncommittedLogs, h.leaseExpiry⟩
    have hwritten := hcut.writeEntries hrequest.entries
    unfold PaxosSharedContext.replaceTail PaxosSharedContext.setLogPosition
    dsimp only
    split
    · exact ⟨hwritten.wal, hwritten.uncommittedLogs, hwritten.leaseExpiry⟩
    · exact hwritten
  unfold Follower.writeBatch PaxosSharedContext.followCommit
  dsimp only
  split
  · exact htail.commitTo _
  · split
    · exact htail.advanceTSafe _
    · exact htail

end PaxosSharedContext.InRange

namespace Outcome
variable {ctx : PaxosSharedContext} {state : PaxosState}

theorem inRange_reply {tx : ReplyChannel} {effect : Effect} (hctx : ctx.InRange)
    (hstate : state.InRange) (heffect : effect.InRange) :
    (reply tx effect state ctx).InRange where
  ctx := by rwa [reply_ctx]
  role role h := by rwa [(reply_result h).1]
  effects e he := by rwa [eq_of_mem_reply he]

/-- An outcome that shows nothing. -/
theorem inRange_ok (hctx : ctx.InRange) (hstate : state.InRange) : (ok state ctx []).InRange where
  ctx := hctx
  role role h := by rwa [← Except.ok.inj h]
  effects e he := absurd he List.not_mem_nil

theorem inRange_fail {fault : Fault} (hctx : ctx.InRange) : (fail fault ctx []).InRange where
  ctx := hctx
  role role h := by cases h
  effects e he := absurd he List.not_mem_nil

theorem inRange_toOutcome {a : Attempt (PaxosState × PaxosSharedContext)}
    (hctx : a.state.2.InRange) (hstate : a.state.1.InRange) (heffects : ∀ e ∈ a.effects, e.InRange) :
    a.toOutcome.InRange where
  ctx := by rwa [Attempt.toOutcome_ctx]
  role role h := by rwa [Attempt.toOutcome_result h]
  effects := by rwa [Attempt.toOutcome_effects]

end Outcome

/-- The effect sends no timestamp that travels. -/
def Effect.isTimeless : Effect → Bool
  | .acceptReply _ _ | .dispatchAccept _ _ => false
  | _ => true

theorem Effect.inRange_of_timeless {e : Effect} (h : e.isTimeless = true) : e.InRange := by
  intro m hm
  cases e with
  | acceptReply | dispatchAccept => cases h
  | signalWriteFlush => cases hm
  | _ =>
    cases Option.some.inj hm
    trivial

theorem Effect.inRange_acceptReply {tx : ReplyChannel} {response : AcceptResponse}
    (h : response.echoedTSend.InRange) : (Effect.acceptReply tx response).InRange := by
  intro m hm
  cases Option.some.inj hm
  exact h

section
variable {event : PaxosEvent} {ctx : PaxosSharedContext} {env : Env}

/-! ## Followers -/

namespace Follower
variable (self : Follower)

/-- A Follower answers with the send time of the request, and writes what it brings. -/
theorem handleAcceptRequest_inRange {request : AcceptRequest} (hctx : ctx.InRange)
    (henv : env.InRange) (hrequest : request.InRange) :
    (self.handleAcceptRequest request ctx env).1.echoedTSend.InRange ∧
      (self.handleAcceptRequest request ctx env).2.InRange := by
  constructor
  · rw [(self.handleAcceptRequest_lease request ctx env).2.1]
    exact hrequest.tSend
  · rcases self.handleAcceptRequest_cases request ctx env with
      ⟨_, h⟩ | ⟨_, _, hint, h⟩ | ⟨_, _, h⟩
    · rw [h]
      exact hctx
    · rw [h]
      exact hctx.extendLease (henv 1).2
    · rw [h]
      exact (hctx.writeBatch hrequest).extendLease (henv 1).2

theorem inRange_accept {command : PaxosCommand AcceptRequest} {state : PaxosState}
    (hctx : ctx.InRange) (henv : env.InRange) (hrequest : command.request.InRange)
    (hstate : state.InRange) :
    (Outcome.reply command.responseTx
      (.acceptReply command.responseTx (self.handleAcceptRequest command.request ctx env).1) state
      (self.handleAcceptRequest command.request ctx env).2).InRange := by
  obtain ⟨hecho, hnext⟩ := self.handleAcceptRequest_inRange hctx henv hrequest
  exact Outcome.inRange_reply hnext hstate (Effect.inRange_acceptReply hecho)

theorem handleVoteRequest_inRange (request : VoteRequest) (hctx : ctx.InRange)
    (henv : env.InRange) : (self.handleVoteRequest request ctx env).2.2.InRange := by
  rcases self.handleVoteRequest_cases request ctx env with ⟨_, h⟩ | ⟨_, rejection, h⟩
  · rw [h]
    exact hctx.extendLease (henv 1).2
  · rw [h]
    exact hctx

theorem handleEvent_inRange (hctx : ctx.InRange) (henv : env.InRange) (hevent : event.InRange) :
    (self.handleEvent event ctx env).InRange := by
  cases event with
  | preVoteRequestReceived command =>
    exact Outcome.inRange_reply hctx trivial (Effect.inRange_of_timeless rfl)
  | voteRequestReceived command =>
    exact Outcome.inRange_reply (self.handleVoteRequest_inRange command.request hctx henv) trivial
      (Effect.inRange_of_timeless rfl)
  | acceptRequestReceived command =>
    exact self.inRange_accept hctx henv (hevent.message _ rfl) trivial
  | electionCountdownExpired =>
    refine Outcome.inRange_toOutcome ?_ ?_ ?_
    · rw [Attempt.map_state]
      split <;> exact hctx
    · rw [Attempt.map_state]
      split <;> trivial
    · intro e he
      simp only [handleElectionCountdownExpired, PreCandidate.dispatchPreVote,
        Attempt.map_effects] at he
      repeat' split at he
      · cases he
      all_goals
        rw [List.mem_singleton.mp he]
        exact Effect.inRange_of_timeless rfl
  | clientWriteRequestReceived command =>
    refine Outcome.inRange_toOutcome hctx trivial fun e he => ?_
    simp only [handleClientWrite, Attempt.map_effects] at he
    repeat' split at he
    · rw [eq_of_mem_sendIgnoring he]
      exact Effect.inRange_of_timeless rfl
    · rw [List.mem_singleton.mp he]
      exact Effect.inRange_of_timeless rfl
    · cases he
  | _ => exact Outcome.inRange_ok hctx trivial

end Follower

/-! ## Campaigns -/

theorem inRange_stepDownOnAccept {stay : PaxosState} {command : PaxosCommand AcceptRequest}
    (hctx : ctx.InRange) (hstay : stay.InRange) (henv : env.InRange)
    (hrequest : command.request.InRange) : (stepDownOnAccept stay command ctx env).InRange := by
  unfold stepDownOnAccept
  split
  · exact Outcome.inRange_reply hctx hstay (Effect.inRange_acceptReply hrequest.tSend)
  · exact Follower.inRange_accept _ hctx henv hrequest trivial

theorem inRange_rejectClientWrite {stay : PaxosState} {command : PaxosCommand ClientWriteRequest}
    (hctx : ctx.InRange) (hstay : stay.InRange) : (rejectClientWrite stay command ctx).InRange where
  ctx := hctx
  role role h := by rwa [← Except.ok.inj h]
  effects e he := by
    rw [eq_of_mem_sendIgnoring he]
    exact Effect.inRange_of_timeless rfl

/-- A new Candidate has read the clock, and has been told of no entries. -/
theorem Candidate.inRange_new (ctx ctx' : PaxosSharedContext) (henv : env.InRange) :
    (PaxosState.candidate ((Candidate.new ctx).dispatchVote ctx' env).state).InRange := by
  refine ⟨fun t ht => ?_, ?_⟩
  · rw [((Candidate.new ctx).dispatchVote_state ctx' env).1] at ht
    rw [← Option.some.inj ht]
    exact (henv 0).1.aboveMin
  · unfold dispatchVote
    dsimp only
    split <;> exact OrderedMap.All.empty

namespace PreCandidate
variable (self : PreCandidate)

theorem handleEvent_inRange (hctx : ctx.InRange) (henv : env.InRange) (hevent : event.InRange) :
    (self.handleEvent event ctx env).InRange := by
  cases event with
  | preVoteRequestReceived command =>
    exact Outcome.inRange_reply hctx trivial (Effect.inRange_of_timeless rfl)
  | voteRequestReceived command =>
    exact Outcome.inRange_reply hctx trivial (Effect.inRange_of_timeless rfl)
  | acceptRequestReceived command =>
    exact inRange_stepDownOnAccept hctx trivial henv (hevent.message _ rfl)
  | clientWriteRequestReceived command => exact inRange_rejectClientWrite hctx trivial
  | preVoteResponseReceived response =>
    simp only [handleEvent, handlePreVoteResponse]
    split
    · refine Outcome.inRange_toOutcome (hctx.adoptTerm _) (Candidate.inRange_new ctx _ henv) ?_
      intro e he
      simp only [Candidate.dispatchVote, Attempt.map_effects] at he
      split at he
      all_goals
        rw [List.mem_singleton.mp he]
        exact Effect.inRange_of_timeless rfl
    · split <;> exact Outcome.inRange_ok hctx trivial
  | _ => exact Outcome.inRange_ok hctx trivial

end PreCandidate

/-! ## Leaders -/

namespace Leader
variable (self : Leader)

/-- A request is made from the log, at a reading of the clock. -/
theorem IsDispatch.inRange {minNextTs : Option DateTime} {e : Effect}
    (h : IsDispatch ctx minNextTs env e) (hctx : ctx.InRange) (henv : env.InRange)
    (hmin : ∀ t, minNextTs = some t → t.InRange) : e.InRange := by
  obtain ⟨_, prevLogSlot, _, i, _, rfl⟩ := h
  intro m hm
  cases Option.some.inj hm
  refine ⟨fun e he => ?_, (henv i).1, hmin⟩
  obtain ⟨entry, hentry, rfl⟩ := List.mem_map.mp he
  exact (hctx.wal.filterKeys _).values entry hentry

theorem heartbeatTs_inRange (hctx : ctx.InRange) {utc : DateTime}
    (hutc : (TrueTime.now utc).latest.InRange) : (heartbeatTs ctx utc).InRange := by
  unfold heartbeatTs
  split
  · rename_i expiry hexpiry
    exact hutc.min (hctx.leaseExpiry expiry hexpiry)
  · exact hutc

variable {self} in
theorem inRange_recordContact {response : AcceptResponse}
    (h : (PaxosState.leader self).InRange) (hresponse : response.echoedTSend.InRange) :
    (PaxosState.leader (self.recordContact response)).InRange := by
  intro p t ht
  rcases self.recordContact_get? response ht with hold | ⟨_, rfl⟩
  · exact h p t hold
  · exact hresponse.aboveMin

/-- The lease moves to a contact and the lease length. -/
theorem renewLease_inRange (hself : (PaxosState.leader self).InRange) (hctx : ctx.InRange) :
    (self.renewLease ctx).InRange := by
  rw [renewLease_eq]
  apply hctx.lease
  intro t ht
  rcases self.renewLease_leaseExpiry ctx with hsame | ⟨tQuorum, hquorum, hset⟩
  · exact hctx.leaseExpiry t (hsame ▸ ht)
  · rw [hset] at ht
    have hmem : tQuorum ∈ self.lastContact.values :=
      (List.mem_insertionSort _).mp (List.mem_of_getElem? hquorum)
    obtain ⟨p, hp⟩ := AssocMap.mem_values_iff.mp hmem
    rw [← Option.some.inj ht]
    exact (hself p tQuorum hp).add_leaseLength

/-- A response is a contact, and is answered from the log if it is a rejection. -/
theorem handleAcceptResponse_inRange {response : AcceptResponse}
    (hself : (PaxosState.leader self).InRange) (hctx : ctx.InRange) (henv : env.InRange)
    (hresponse : response.echoedTSend.InRange) :
    let a := self.handleAcceptResponse response ctx env
    a.state.2.InRange ∧ (PaxosState.leader a.state.1).InRange ∧ ∀ e ∈ a.effects, e.InRange := by
  have hcontact := inRange_recordContact hself hresponse
  have hrenewed := (self.recordContact response).renewLease_inRange hcontact hctx
  intro a
  refine ⟨?_, ?_, ?_⟩
  · rcases self.handleAcceptResponse_cases response ctx env with
      ⟨_, h⟩ | ⟨_, _, fault, h⟩ |
        ⟨_, _, ⟨fault, h⟩ | ⟨fs, _, _, _, h⟩ | ⟨fs, hint, _, _, _, h⟩⟩
    · rw [show a = _ from h]
      exact hctx
    · rw [show a = _ from h]
      exact hctx
    · rw [show a = _ from h]
      exact hrenewed
    · rw [show a = _ from h]
      rcases advanceCommit_ctx _ _ env with hsame | ⟨slot, hmoved, _⟩
      · rw [hsame]
        exact hrenewed
      · rw [hmoved]
        exact hrenewed.commitTo slot
    · rw [show a = _ from h]
      exact hrenewed
  · rcases self.handleAcceptResponse_contact response ctx env with ⟨hsame, _⟩ | ⟨_, hnew, _⟩
    · show ∀ p t, a.state.1.lastContact.get? p = some t → t.AboveMin
      rw [show a.state.1.lastContact = _ from hsame]
      exact hself
    · show ∀ p t, a.state.1.lastContact.get? p = some t → t.AboveMin
      rw [show a.state.1.lastContact = _ from hnew]
      exact hcontact
  · rcases self.handleAcceptResponse_cases response ctx env with
      ⟨_, h⟩ | ⟨_, _, fault, h⟩ |
        ⟨_, _, ⟨fault, h⟩ | ⟨fs, _, _, _, h⟩ | ⟨fs, hint, _, _, _, h⟩⟩
    · rw [show a = _ from h]
      exact List.forall_mem_nil _
    · rw [show a = _ from h]
      exact List.forall_mem_nil _
    · rw [show a = _ from h]
      exact List.forall_mem_nil _
    · rw [show a = _ from h]
      intro e he
      obtain ⟨_, _, rfl⟩ := advanceCommit_effects _ _ _ e he
      exact Effect.inRange_of_timeless rfl
    · rw [show a = _ from h]
      intro e he
      have hdispatch := (dispatchAcceptRequestToFollower_spec _ _ _ _ response.memberId).2 e he
      exact hdispatch.inRange hrenewed henv fun t ht => by cases ht

theorem Leads.inRange {a : Attempt (Leader × PaxosSharedContext)} (h : Leads self ctx env event a)
    (hself : (PaxosState.leader self).InRange) (hctx : ctx.InRange) (henv : env.InRange)
    (hevent : event.InRange) :
    a.state.2.InRange ∧ (PaxosState.leader a.state.1).InRange ∧ ∀ e ∈ a.effects, e.InRange := by
  have hcontact : ∀ {l' : Leader}, SameStanding self l' → (PaxosState.leader l').InRange := by
    intro l' hsame p t ht
    rw [hsame.lastContact] at ht
    exact hself p t ht
  cases h with
  | heeds response =>
    exact self.handleAcceptResponse_inRange hself hctx henv (hevent.message _ rfl)
  | writes command =>
    refine ⟨⟨hctx.wal.insert (henv 0).2, hctx.uncommittedLogs.insert (henv 0).2,
      hctx.leaseExpiry⟩, hself, fun e he => ?_⟩
    unfold handleClientWrite at he
    dsimp only at he
    split at he
    · rw [List.mem_singleton.mp he]
      exact Effect.inRange_of_timeless rfl
    · cases he
  | flushes =>
    have hspec := self.dispatchThen_spec ctx none env (fun l => { l with pendingWriteCount := 0 })
      fun _ => ⟨rfl, fun _ => rfl, rfl, rfl⟩
    rw [handleWriteFlush_ctx]
    refine ⟨hctx, ?_, fun e he => ?_⟩
    · unfold handleWriteFlush
      split
      · exact hself
      · exact hcontact hspec.1
    · unfold handleWriteFlush at he
      split at he
      · cases he
      · exact (hspec.2 e he).inRange hctx henv fun t ht => by cases ht
  | beats =>
    have hpromise := heartbeatTs_inRange hctx (henv 0).2
    have hadvanced := hctx.advanceTSafe
      (heartbeatTs ctx (env.clock 0) - Duration.milliseconds 1)
    have hspec := self.dispatchThen_spec
      (ctx.advanceTSafe (heartbeatTs ctx (env.clock 0) - Duration.milliseconds 1))
      (some (heartbeatTs ctx (env.clock 0))) (env.skip 1)
      (fun l => { l with heartbeatCdClock := l.heartbeatCdClock.start })
      fun _ => ⟨rfl, fun _ => rfl, rfl, rfl⟩
    refine ⟨hadvanced, hcontact hspec.1, fun e he => ?_⟩
    refine (hspec.2 e he).inRange hadvanced (henv.skip 1) fun t ht => ?_
    rw [← Option.some.inj ht]
    exact hpromise

theorem inRange_stay {a : Attempt (Leader × PaxosSharedContext)} (h : Leads self ctx env event a)
    (hself : (PaxosState.leader self).InRange) (hctx : ctx.InRange) (henv : env.InRange)
    (hevent : event.InRange) : (handleEvent.stay a).InRange := by
  obtain ⟨hctx', hself', heffects⟩ := h.inRange self hself hctx henv hevent
  exact Outcome.inRange_toOutcome hctx' hself' heffects

theorem handleEvent_inRange (hself : (PaxosState.leader self).InRange) (hctx : ctx.InRange)
    (henv : env.InRange) (hevent : event.InRange) : (self.handleEvent event ctx env).InRange := by
  cases event with
  | acceptResponseReceived response =>
    exact self.inRange_stay (.heeds response) hself hctx henv hevent
  | clientWriteRequestReceived command =>
    exact self.inRange_stay (.writes command) hself hctx henv hevent
  | writeFlushTimerFired => exact self.inRange_stay .flushes hself hctx henv hevent
  | heartbeatTimerFired => exact self.inRange_stay .beats hself hctx henv hevent
  | preVoteRequestReceived command =>
    simp only [handleEvent]
    split
    · exact Outcome.inRange_reply hctx trivial (Effect.inRange_of_timeless rfl)
    · exact Outcome.inRange_reply hctx hself (Effect.inRange_of_timeless rfl)
  | voteRequestReceived command =>
    simp only [handleEvent]
    split
    · exact Outcome.inRange_reply
        (Follower.handleVoteRequest_inRange _ command.request hctx (henv.skip 1)) trivial
        (Effect.inRange_of_timeless rfl)
    · exact Outcome.inRange_reply hctx hself (Effect.inRange_of_timeless rfl)
  | acceptRequestReceived command =>
    simp only [handleEvent]
    split
    · exact Follower.inRange_accept _ hctx (henv.skip 1) (hevent.message _ rfl) trivial
    · exact Outcome.inRange_ok hctx hself
  | preVoteResponseReceived response | voteResponseReceived response =>
    simp only [handleEvent]
    split
    · exact Outcome.inRange_ok hctx trivial
    · exact Outcome.inRange_ok hctx hself
  | leaderLeaseExpired => exact Outcome.inRange_ok hctx trivial
  | acceptTimeoutCheckFired => exact Outcome.inRange_ok hctx hself
  | _ => exact Outcome.inRange_ok hctx hself

end Leader

/-! ## New Leaders -/

/-- A new Leader has had no contact. -/
theorem Leader.inRange_new (scoreBoard : AssocMap Uuid LogPosition) :
    (PaxosState.leader (Leader.new scoreBoard)).InRange := by
  intro p t ht
  rw [Leader.new, AssocMap.get?_mapValues] at ht
  obtain ⟨_, _, rfl⟩ := Option.map_eq_some_iff.mp ht
  exact DateTime.inRange_unixEpoch.aboveMin

/-- What is recovered keeps its timestamps. -/
theorem Leader.processUncommittedLogs_inRange (self : Leader) (hctx : ctx.InRange)
    (henv : env.InRange) :
    let a := self.processUncommittedLogs ctx env
    a.state.2.InRange ∧ ∀ e ∈ a.effects, e.InRange := by
  have hrestamped : OrderedMap.All LogEntry.InRange
      (ctx.uncommittedLogs.mapValues fun entry => { entry with term := ctx.term }) :=
    hctx.uncommittedLogs.mapValues fun e he => he
  have hwal := WriteAheadLog.all_appendAll hctx.wal hrestamped.values
  unfold Leader.processUncommittedLogs
  dsimp only
  split
  all_goals
    refine ⟨⟨hwal, hrestamped, hctx.leaseExpiry⟩, fun e he => ?_⟩
    refine ((Leader.dispatchAcceptRequest_spec _ _ none env).2 e he).inRange ?_ henv
      fun t ht => by cases ht
    exact ⟨hwal, hrestamped, hctx.leaseExpiry⟩

namespace Candidate
variable (self : Candidate)

theorem all_mergeUncommittedLogs {P : LogEntry → Prop} {logs : OrderedMap Nat LogEntry}
    (h : logs.All P) {entries : List LogEntry} (hentries : ∀ e ∈ entries, P e) :
    (entries.foldl keepHighestTerm logs).All P := by
  induction entries generalizing logs with
  | nil => exact h
  | cons e entries ih =>
    obtain ⟨he, hrest⟩ := List.forall_mem_cons.mp hentries
    refine ih ?_ hrest
    unfold keepHighestTerm
    split
    · exact h.insert he
    · split
      · exact h.insert he
      · exact h

theorem all_flushLoop {P : LogEntry → Prop} {logs : OrderedMap Nat LogEntry} (h : logs.All P)
    (committedSlot : Nat) {pending : List (Nat × LogEntry)} (hpending : ∀ e ∈ pending, P e.2) :
    (flushLoop committedSlot logs pending).All P := by
  unfold flushLoop
  induction pending generalizing logs with
  | nil => exact h
  | cons e pending ih =>
    obtain ⟨he, hrest⟩ := List.forall_mem_cons.mp hpending
    refine ih ?_ hrest
    dsimp only
    split
    · exact h
    · split
      · exact h.insert he
      · split
        · exact h.insert he
        · exact h

/-- A Promise brings its entries. -/
theorem recordVote_inRange {self c : Candidate} {response : VoteResponse}
    (hself : (PaxosState.candidate self).InRange)
    (hpromise : ∀ promise, response.outcome = .promise promise →
      ∀ e ∈ promise.uncommittedEntries, e.InRange)
    (h : self.recordVote response ctx = some c) : (PaxosState.candidate c).InRange := by
  refine ⟨fun t ht => ?_, ?_⟩
  · rw [(recordVote_keeps h).1] at ht
    exact hself.1 t ht
  · unfold recordVote at h
    dsimp only at h
    split at h
    · rw [← Option.some.inj h]
      exact hself.2
    · rename_i promise houtcome
      have hmerged := all_mergeUncommittedLogs hself.2 (hpromise promise houtcome)
      split at h
      · split at h
        · cases h
        · rw [← Option.some.inj h]
          exact hmerged
      · rw [← Option.some.inj h]
        exact hmerged

/-- What a new Leader writes and sends has the timestamps that it has recovered. -/
theorem becomeLeader_inRange (hself : (PaxosState.candidate self).InRange) (hctx : ctx.InRange)
    (henv : env.InRange) : (self.becomeLeader ctx env).InRange := by
  have hpending : ∀ e ∈ self.pendingUncommittedLogs.entries, e.2.InRange := fun e he =>
    hself.2 e.1 e.2 (OrderedMap.get?_eq_some_iff.mpr he)
  have hflush : (self.flushUncommittedLogs ctx).InRange :=
    ⟨hctx.wal, all_flushLoop hctx.uncommittedLogs ctx.committedSlot hpending, hctx.leaseExpiry⟩
  obtain ⟨hnext, heffects⟩ :=
    (Leader.new self.scoreBoard).processUncommittedLogs_inRange hflush henv
  refine Outcome.inRange_toOutcome hnext ?_ heffects
  intro p t ht
  rw [((Leader.new self.scoreBoard).processUncommittedLogs_lease _ env).1] at ht
  exact Leader.inRange_new self.scoreBoard p t ht

theorem handleEvent_inRange (hself : (PaxosState.candidate self).InRange) (hctx : ctx.InRange)
    (henv : env.InRange) (hevent : event.InRange) : (self.handleEvent event ctx env).InRange := by
  cases event with
  | preVoteRequestReceived command =>
    exact Outcome.inRange_reply hctx hself (Effect.inRange_of_timeless rfl)
  | voteRequestReceived command =>
    exact Outcome.inRange_reply hctx hself (Effect.inRange_of_timeless rfl)
  | acceptRequestReceived command =>
    exact inRange_stepDownOnAccept hctx hself henv (hevent.message _ rfl)
  | clientWriteRequestReceived command => exact inRange_rejectClientWrite hctx hself
  | voteResponseReceived response =>
    simp only [handleEvent, handleVoteResponse]
    split
    · exact Outcome.inRange_fail hctx
    · rename_i c hrecord
      have hc := recordVote_inRange hself (fun promise => hevent.promise response promise rfl)
        hrecord
      split
      · split
        · exact Outcome.inRange_fail hctx
        · rename_i dispatchTime hdispatch
          have hlease := hctx.updateLease (hc.1 _ hdispatch).add_leaseLength
          split
          · exact Outcome.inRange_ok hlease trivial
          · exact c.becomeLeader_inRange hc hlease (henv.skip 1)
      · split
        · exact Outcome.inRange_ok hctx trivial
        · exact Outcome.inRange_ok hctx hc
  | voteCampaignExpired => exact Outcome.inRange_ok hctx trivial
  | _ => exact Outcome.inRange_ok hctx hself

end Candidate

/-! ## Runs -/

namespace PaxosState
variable (self : PaxosState)

theorem handleEvent_inRange (hself : self.InRange) (hctx : ctx.InRange) (henv : env.InRange)
    (hevent : event.InRange) : (self.handleEvent event ctx env).InRange := by
  cases self with
  | follower f => exact f.handleEvent_inRange hctx henv hevent
  | preCandidate p => exact p.handleEvent_inRange hctx henv hevent
  | candidate c => exact c.handleEvent_inRange hself hctx henv hevent
  | leader l => exact l.handleEvent_inRange hself hctx henv hevent

/-- **What is in range stays in range**, whatever the role and the event. -/
theorem processEvent_inRange (hself : self.InRange) (hctx : ctx.InRange) (henv : env.InRange)
    (hevent : event.InRange) : (self.processEvent event ctx false env).InRange := by
  rw [processEvent_eq]
  rcases self.adoptTerm_cases event ctx with hkept | ⟨term, _, _, hadopt⟩
  · rw [hkept]
    exact self.handleEvent_inRange hself hctx henv hevent
  · rw [hadopt]
    exact Follower.handleEvent_inRange _ (hctx.adoptTerm term) henv hevent

end PaxosState

end

namespace Member

/-- The clock is in range, and what is handled has come over the wire. -/
def OverWire (text : UuidText) : Label → Prop
  | .event event env => env.InRange ∧ event.OverWire text
  | .leaseWatcher _ | .countdownFires _ | .countdownClears => True

variable {text : UuidText}

theorem inRange_step {m m' : Member} {l : Label} (hrole : m.role.InRange) (hctx : m.ctx.InRange)
    (hl : OverWire text l) (hstep : m.step l = some m') : m'.role.InRange ∧ m'.ctx.InRange := by
  cases l with
  | event event env =>
    have ho := m.role.processEvent_inRange hrole hctx hl.1 hl.2.inRange
    simp only [step] at hstep
    split at hstep
    · rename_i role hresult
      cases Option.some.inj hstep
      exact ⟨ho.role role hresult, ho.ctx⟩
    · cases hstep
  | leaseWatcher utc =>
    simp only [step] at hstep
    split at hstep
    · cases hstep
    · split at hstep
      · cases Option.some.inj hstep
        exact ⟨hrole, hctx.lease fun t ht => by cases ht⟩
      · cases hstep
  | countdownFires | countdownClears =>
    simp only [step] at hstep
    split at hstep
    · split at hstep
      · cases Option.some.inj hstep
        exact ⟨trivial, hctx⟩
      · cases hstep
    · cases hstep

/-- **What a member sends can be decoded**: in every run of a member whose clock is in range,
and which handles what has come over the wire, whatever the member sends arrives. -/
theorem roundTrips_of_runs {memberId : Uuid} {peerIds : List Uuid} {h : peerIds.Nodup}
    {m : Member} (hrun : Runs Member.step (fun _ l => OverWire text l) (start memberId peerIds h) m)
    {event : PaxosEvent} {env : Env} (henv : env.InRange) (hevent : event.OverWire text) :
    ∀ e ∈ (m.role.processEvent event m.ctx false env).effects, ∀ message, e.message = some message →
      RoundTrips (Wire.toProto text) (Wire.fromProto text) Message.received message := by
  obtain ⟨hrole, hctx⟩ : m.role.InRange ∧ m.ctx.InRange :=
    hrun.invariant (P := fun m => m.role.InRange ∧ m.ctx.InRange)
      ⟨trivial, PaxosSharedContext.InRange.start memberId peerIds h⟩
      fun _ _ _ ha hl hstep => inRange_step ha.1 ha.2 hl hstep
  intro e he message hmessage
  apply Wire.roundTrips_of_inRange
  exact (m.role.processEvent_inRange hrole hctx henv hevent.inRange).effects e he message hmessage

def firstOfThree : Member :=
  start 1 (PaxosSharedContext.memberOfThree 1).peerIds
    (PaxosSharedContext.memberOfThree 1).peerIds_nodup

/-- Of three members the first wins its pre-vote at twenty seconds. -/
def campaign : List Label :=
  [.event .electionCountdownExpired (.steady (Duration.seconds 20)),
    .event (.preVoteResponseReceived ⟨2, 0, true, none, none, none⟩)
      (.steady (Duration.seconds 20))]

/-- A Promise that wins the vote, with an entry to recover. -/
def promised : PaxosEvent :=
  .voteResponseReceived ⟨2, 1, .promise ⟨0, 0, [⟨1, 1, "x", DateTime.unixEpoch⟩]⟩⟩

theorem inRange_steady : (Env.steady (Duration.seconds 20)).InRange := by
  intro _
  show (TrueTime.now (Duration.seconds 20)).earliest.InRange ∧
    (TrueTime.now (Duration.seconds 20)).latest.InRange
  decide

/-- The new Leader sends both its followers the entry that it has recovered. -/
theorem roundTrips_of_runs_elected :
    ∃ m, exec Member.step firstOfThree campaign = some m ∧
      (m.role.processEvent promised m.ctx false
        (.steady (Duration.seconds 20))).effects.length = 2 ∧
      ∀ e ∈ (m.role.processEvent promised m.ctx false
          (.steady (Duration.seconds 20))).effects,
        ∀ message, e.message = some message →
          RoundTrips (Wire.toProto .hyphenated) (Wire.fromProto .hyphenated) Message.received
            message := by
  have hpromised : promised.OverWire .hyphenated := by
    apply PaxosEvent.overWire_of_received
    intro m hm
    cases Option.some.inj hm
    exact ⟨trivial, rfl⟩
  have hcampaign : ∀ l ∈ campaign, OverWire .hyphenated l := by
    intro l hl
    rcases List.mem_cons.mp hl with rfl | hl
    · exact ⟨inRange_steady, fun m hm => by cases hm⟩
    · rw [List.mem_singleton.mp hl]
      refine ⟨inRange_steady, PaxosEvent.overWire_of_received _ fun m hm => ?_⟩
      cases Option.some.inj hm
      exact ⟨trivial, rfl⟩
  have hrun : ∀ m, exec Member.step firstOfThree campaign = some m →
      Runs Member.step (fun _ l => OverWire .hyphenated l) firstOfThree m :=
    fun m hm => Runs.of_exec_of_forall campaign (fun l hl _ => hcampaign l hl) hm
  refine ⟨_, rfl, ?_⟩
  exact ⟨rfl, roundTrips_of_runs (hrun _ rfl) inRange_steady hpromised⟩

end Member
end SpannerPaxos
