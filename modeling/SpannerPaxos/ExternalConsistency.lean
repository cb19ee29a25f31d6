import SpannerPaxos.ClientReplies

/-! # External consistency

Any number of members handle events, each with its own clock.  A write gets the
latest bound of a reading for its timestamp, and its client is told of success only
once the earliest bound of a later reading has passed that timestamp.  So a write
that is handled after the answer to another has the later timestamp, whichever
members the two went to.
-/
namespace SpannerPaxos

/-! ## Only Leaders tell clients of success -/

theorem Outcome.acknowledged_reply {tx : ReplyChannel} {effect : Effect} {state : PaxosState}
    {ctx : PaxosSharedContext} (h : effect.tellsSuccess = false) :
    acknowledged (Outcome.reply tx effect state ctx).effects = [] := by
  refine acknowledged_eq_nil_iff.mpr fun e he => ?_
  rw [Outcome.eq_of_mem_reply he]
  exact h

theorem acknowledged_sendIgnoring_failure {tx tx' : ReplyChannel} {error : Option String} :
    acknowledged (sendIgnoring tx (.clientReply tx' ⟨false, error⟩)) = [] := by
  unfold sendIgnoring
  split <;> rfl

theorem acknowledged_stepDownOnAccept {stay : PaxosState} {command : PaxosCommand AcceptRequest}
    {ctx : PaxosSharedContext} {env : Env} :
    acknowledged (stepDownOnAccept stay command ctx env).effects = [] := by
  unfold stepDownOnAccept
  split <;> exact Outcome.acknowledged_reply rfl

section
variable {event : PaxosEvent} {ctx : PaxosSharedContext} {env : Env}

theorem Follower.acknowledged_handleEvent (self : Follower) :
    acknowledged (self.handleEvent event ctx env).effects = [] := by
  cases event with
  | voteRequestReceived command | preVoteRequestReceived command
  | acceptRequestReceived command => exact Outcome.acknowledged_reply rfl
  | electionCountdownExpired =>
    rw [handleEvent, Attempt.toOutcome_effects, Attempt.map_effects,
      handleElectionCountdownExpired]
    split
    · rfl
    · rw [Attempt.map_effects, PreCandidate.dispatchPreVote]
      split <;> rfl
  | clientWriteRequestReceived command =>
    rw [handleEvent, Attempt.toOutcome_effects, Attempt.map_effects, handleClientWrite]
    split
    · exact acknowledged_sendIgnoring_failure
    · split <;> rfl
  | leaderLeaseExpired | preVoteCampaignExpired | voteCampaignExpired | writeFlushTimerFired
  | acceptTimeoutCheckFired | heartbeatTimerFired | preVoteResponseReceived response
  | voteResponseReceived response | acceptResponseReceived response => rfl

theorem PreCandidate.acknowledged_handleEvent (self : PreCandidate) :
    acknowledged (self.handleEvent event ctx env).effects = [] := by
  cases event with
  | voteRequestReceived command | preVoteRequestReceived command =>
    exact Outcome.acknowledged_reply rfl
  | acceptRequestReceived command => exact acknowledged_stepDownOnAccept
  | clientWriteRequestReceived command => exact acknowledged_sendIgnoring_failure
  | preVoteResponseReceived response =>
    rw [handleEvent, handlePreVoteResponse]
    dsimp only
    split
    · rw [Attempt.toOutcome_effects, Attempt.map_effects, Candidate.dispatchVote]
      split <;> rfl
    · split <;> rfl
  | leaderLeaseExpired | electionCountdownExpired | preVoteCampaignExpired | voteCampaignExpired
  | writeFlushTimerFired | acceptTimeoutCheckFired | heartbeatTimerFired
  | voteResponseReceived response | acceptResponseReceived response => rfl

/-- A win replicates, and answers nobody. -/
theorem Candidate.acknowledged_becomeLeader (self : Candidate) :
    acknowledged (self.becomeLeader ctx env).effects = [] := by
  rw [becomeLeader, Attempt.toOutcome_effects, Attempt.map_effects, Leader.processUncommittedLogs]
  dsimp only
  split
  all_goals
    rw [Attempt.map_effects]
    exact Leader.IsDispatch.acknowledged_eq_nil (Leader.dispatchAcceptRequest_spec _ _ _ _).2

theorem Candidate.acknowledged_handleEvent (self : Candidate) :
    acknowledged (self.handleEvent event ctx env).effects = [] := by
  cases event with
  | voteRequestReceived command | preVoteRequestReceived command =>
    exact Outcome.acknowledged_reply rfl
  | acceptRequestReceived command => exact acknowledged_stepDownOnAccept
  | clientWriteRequestReceived command => exact acknowledged_sendIgnoring_failure
  | voteResponseReceived response =>
    rw [handleEvent, handleVoteResponse]
    cases self.recordVote response ctx with
    | none => rfl
    | some c =>
      dsimp only
      split
      · cases c.voteDispatchTime with
        | none => rfl
        | some dispatchTime =>
          dsimp only
          split
          · rfl
          · exact c.acknowledged_becomeLeader
      · split <;> rfl
  | leaderLeaseExpired | electionCountdownExpired | preVoteCampaignExpired | voteCampaignExpired
  | writeFlushTimerFired | acceptTimeoutCheckFired | heartbeatTimerFired
  | preVoteResponseReceived response | acceptResponseReceived response => rfl

/-- **A Leader answers what is pending**, and only behind the commit wait. -/
theorem Leader.mem_acknowledged_handleEvent (self : Leader) {tx : ReplyChannel}
    (h : tx ∈ acknowledged (self.handleEvent event ctx env).effects) :
    ∃ slot ts command, self.inFlightWrites.get? slot = some (ts, command) ∧
      command.responseTx = tx ∧ ∃ i, TrueTime.commitWait ts (env.clock i) = true := by
  rcases self.leads_or_quiet event ctx env with ⟨a, hleads, heq⟩ | ⟨hquiet, _⟩
  · rw [heq, handleEvent.stay, Attempt.toOutcome_effects, Attempt.map_effects] at h
    cases hleads with
    | heeds response =>
      rcases self.handleAcceptResponse_cases response ctx env with
        ⟨_, hcase⟩ | ⟨_, _, fault, hcase⟩ |
          ⟨_, _, ⟨fault, hcase⟩ | ⟨fs, _, _, _, hcase⟩ | ⟨fs, hint, _, _, _, hcase⟩⟩
      · rw [hcase] at h
        cases h
      · rw [hcase] at h
        cases h
      · rw [hcase] at h
        cases h
      · -- a commit answers the writes it settles, each behind its own wait
        rw [hcase, advanceCommit] at h
        split at h
        · obtain ⟨⟨ts, command⟩, hw, htx, hwait⟩ := mem_acknowledged_replyCommitted _ _ h
          obtain ⟨slot, hslot⟩ := OrderedMap.mem_values_iff.mp hw
          rw [OrderedMap.get?_filterKeys] at hslot
          split at hslot
          · exact ⟨slot, ts, command, hslot, htx, hwait⟩
          · cases hslot
        · cases h
      · rw [hcase, Attempt.map_effects, IsDispatch.acknowledged_eq_nil
          (dispatchAcceptRequestToFollower_spec _ _ _ _ _).2] at h
        cases h
    | writes command =>
      rw [self.acknowledged_handleClientWrite ctx env command] at h
      cases h
    | flushes =>
      rw [self.acknowledged_handleWriteFlush ctx env] at h
      cases h
    | beats =>
      rw [self.acknowledged_handleHeartbeatTimer ctx env] at h
      cases h
  · rw [acknowledged_of_peerReplies hquiet] at h
    cases h

/-- **Who is told of success**: clients whose write is pending at a Leader, after its
timestamp. -/
theorem PaxosState.mem_acknowledged_processEvent (self : PaxosState) {tx : ReplyChannel}
    (h : tx ∈ acknowledged (self.processEvent event ctx false env).effects) :
    ∃ l slot ts command, self = .leader l ∧ l.inFlightWrites.get? slot = some (ts, command) ∧
      command.responseTx = tx ∧ ∃ i, TrueTime.commitWait ts (env.clock i) = true := by
  rw [processEvent_eq] at h
  rcases self.adoptTerm_cases event ctx with hkept | ⟨term, _, _, hadopt⟩
  · rw [hkept] at h
    cases self with
    | follower f =>
      rw [handleEvent, f.acknowledged_handleEvent] at h
      cases h
    | preCandidate p =>
      rw [handleEvent, p.acknowledged_handleEvent] at h
      cases h
    | candidate c =>
      rw [handleEvent, c.acknowledged_handleEvent] at h
      cases h
    | leader l =>
      obtain ⟨slot, ts, command, hget, htx, hwait⟩ := l.mem_acknowledged_handleEvent h
      exact ⟨l, slot, ts, command, rfl, hget, htx, hwait⟩
  · rw [hadopt, handleEvent, Follower.acknowledged_handleEvent] at h
    cases h

/-- A Leader that has just won has nothing in flight. -/
theorem Candidate.inFlightWrites_of_win {c : Candidate} {response : VoteResponse} {l : Leader}
    (h : (c.handleEvent (.voteResponseReceived response) ctx env).result = .ok (.leader l)) :
    l.inFlightWrites = .empty := by
  obtain ⟨c', dispatchTime, _, _, _, heq⟩ := eq_becomeLeader_of_win h
  rw [heq] at h
  rw [PaxosState.leader.inj (Attempt.toOutcome_result h)]
  unfold Leader.processUncommittedLogs
  dsimp only
  split
  all_goals exact (Leader.dispatchAcceptRequest_spec _ _ _ _).1.inFlightWrites

end

/-! ## Clients of a group -/

/-- A client write that a Leader has accepted: the channel of its answer, the true time
at which it was handled, and the timestamp of its log entry. -/
structure AcceptedWrite where
  responseTx : ReplyChannel
  handledAt : DateTime
  timestamp : DateTime

/-- The members of a group, the writes they have accepted, and the channels answered
with success, with a true time by which the answer was sent. -/
structure Clients where
  role : Uuid → PaxosState
  ctx : Uuid → PaxosSharedContext
  accepted : List AcceptedWrite
  acked : List (ReplyChannel × DateTime)

namespace Clients

/-- A member handles an event between the true times `start` and `stop`.  When it is
not `finished`, it is still at it at `stop`, with the readings made so far: an answer
that is sent at some time while others still wait is noted by such a step. -/
structure Label where
  memberId : Uuid
  event : PaxosEvent
  env : Env
  start : DateTime
  stop : DateTime
  finished : Bool

/-- The write a Leader has accepted, as the log has it. -/
def acceptedBy (role : PaxosState) (ctx ctx' : PaxosSharedContext) (event : PaxosEvent)
    (handledAt : DateTime) : List AcceptedWrite :=
  match role, event with
  | .leader _, .clientWriteRequestReceived command =>
    match ctx'.wal.get? (ctx.lastLogSlot + 1) with
    | some e => [⟨command.responseTx, handledAt, e.timestamp⟩]
    | none => []
  | _, _ => []

def step (s : Clients) (l : Label) : Option Clients :=
  let o := (s.role l.memberId).processEvent l.event (s.ctx l.memberId) false l.env
  let acked := s.acked ++ (acknowledged o.effects).map fun tx => (tx, l.stop)
  if l.finished then
    match o.result with
    | .ok role => some
        { role := Function.update s.role l.memberId role
          ctx := Function.update s.ctx l.memberId o.ctx
          accepted := s.accepted ++ acceptedBy (s.role l.memberId) (s.ctx l.memberId) o.ctx l.event
            l.start
          acked := acked }
    -- an event that fails ends its member
    | .error _ => none
  else some { s with acked := acked }

/-- Every reading is made while the event is handled, and contains the true time. -/
def Truthful (l : Label) : Prop :=
  ∀ i, ∃ t, l.start ≤ t ∧ t ≤ l.stop ∧ TrueTime.Reads (l.env.clock i) t

/-- Every client write comes with a channel of its own. -/
def OwnChannel (s : Clients) (l : Label) : Prop :=
  ∀ command, l.event = .clientWriteRequestReceived command →
    ∀ w ∈ s.accepted, w.responseTx ≠ command.responseTx

/-- A step of a run with correct clocks. -/
def Timely (s : Clients) (l : Label) : Prop := Truthful l ∧ s.OwnChannel l

/-- No write is pending, and none has been accepted or answered. -/
structure Start (s : Clients) : Prop where
  pending : ∀ p l, s.role p = .leader l → l.inFlightWrites = .empty
  accepted : s.accepted = []
  acked : s.acked = []

/-- A write that is handled after another has been answered has the later timestamp. -/
def ExternallyConsistent (s : Clients) : Prop :=
  ∀ w₁ ∈ s.accepted, ∀ w₂ ∈ s.accepted, ∀ t, (w₁.responseTx, t) ∈ s.acked → t ≤ w₂.handledAt →
    w₁.timestamp < w₂.timestamp

/-- Pending writes carry the timestamps they were given, answers come after them, and
timestamps not before their write. -/
structure Inv (s : Clients) : Prop where
  pending : ∀ p l, s.role p = .leader l → ∀ slot ts command,
    l.inFlightWrites.get? slot = some (ts, command) →
    ∃ w ∈ s.accepted, w.responseTx = command.responseTx ∧ w.timestamp = ts
  unique : ∀ w ∈ s.accepted, ∀ w' ∈ s.accepted, w.responseTx = w'.responseTx → w = w'
  stamped : ∀ w ∈ s.accepted, w.handledAt ≤ w.timestamp
  answered : ∀ tx t, (tx, t) ∈ s.acked → ∃ w ∈ s.accepted, w.responseTx = tx ∧ w.timestamp < t

theorem Start.inv {s : Clients} (h : s.Start) : s.Inv where
  pending p l hl slot ts command hget := by
    rw [h.pending p l hl] at hget
    cases hget
  unique w hw := by
    rw [h.accepted] at hw
    cases hw
  stamped w hw := by
    rw [h.accepted] at hw
    cases hw
  answered tx t ht := by
    rw [h.acked] at ht
    cases ht

theorem Inv.externallyConsistent {s : Clients} (h : s.Inv) : s.ExternallyConsistent := by
  intro w₁ hw₁ w₂ hw₂ t hacked hle
  obtain ⟨w, hw, htx, hlt⟩ := h.answered _ t hacked
  cases h.unique w hw w₁ hw₁ htx
  exact lt_of_lt_of_le (lt_of_lt_of_le hlt hle) (h.stamped w₂ hw₂)

/-- An answer given in a step with correct clocks comes after its write's timestamp. -/
theorem Inv.answer {s : Clients} (h : s.Inv) {l : Label} (htruth : Truthful l)
    {tx : ReplyChannel} (htx : tx ∈ acknowledged ((s.role l.memberId).processEvent l.event
      (s.ctx l.memberId) false l.env).effects) :
    ∃ w ∈ s.accepted, w.responseTx = tx ∧ w.timestamp < l.stop := by
  obtain ⟨leader, slot, ts, command, hrole, hget, rfl, i, hwait⟩ :=
    PaxosState.mem_acknowledged_processEvent _ htx
  obtain ⟨w, hw, hch, rfl⟩ := h.pending _ leader hrole slot ts command hget
  obtain ⟨t, _, hstop, hread⟩ := htruth i
  exact ⟨w, hw, hch, lt_of_lt_of_le (TrueTime.lt_of_after hread hwait) hstop⟩

/-- A Leader accepts a client write with the latest bound of its reading. -/
theorem acceptedBy_leader (leader : Leader) (ctx : PaxosSharedContext) (env : Env)
    (command : PaxosCommand ClientWriteRequest) (handledAt : DateTime) :
    acceptedBy (.leader leader) ctx ((PaxosState.leader leader).processEvent
      (.clientWriteRequestReceived command) ctx false env).ctx
      (.clientWriteRequestReceived command) handledAt =
        [⟨command.responseTx, handledAt, (TrueTime.now (env.clock 0)).latest⟩] := by
  have hentry : ((PaxosState.leader leader).processEvent (.clientWriteRequestReceived command) ctx
      false env).ctx.wal.get? (ctx.lastLogSlot + 1) = some ⟨ctx.term, ctx.lastLogSlot + 1,
        command.request.value, (TrueTime.now (env.clock 0)).latest⟩ := by
    rw [PaxosState.processEvent_of_le (by simp [PaxosEvent.getTerm])]
    exact (WriteAheadLog.get?_append _ _ _).trans (if_pos rfl)
  unfold acceptedBy
  rw [hentry]

theorem mem_acceptedBy {role : PaxosState} {ctx : PaxosSharedContext} {event : PaxosEvent}
    {env : Env} {handledAt : DateTime} {w : AcceptedWrite}
    (h : w ∈ acceptedBy role ctx (role.processEvent event ctx false env).ctx event handledAt) :
    ∃ command, event = .clientWriteRequestReceived command ∧
      w = ⟨command.responseTx, handledAt, (TrueTime.now (env.clock 0)).latest⟩ := by
  cases role with
  | leader leader =>
    cases event with
    | clientWriteRequestReceived command =>
      rw [acceptedBy_leader] at h
      exact ⟨command, rfl, List.mem_singleton.mp h⟩
    | _ => cases h
  | _ => cases h

/-- What is pending at a Leader after an event was pending before, or has just been
accepted. -/
theorem pending_of_processEvent {role : PaxosState} {ctx : PaxosSharedContext}
    {event : PaxosEvent} {env : Env} {leader : Leader} {slot : Nat} {ts : DateTime}
    {command : PaxosCommand ClientWriteRequest} (handledAt : DateTime)
    (h : (role.processEvent event ctx false env).result = .ok (.leader leader))
    (hget : leader.inFlightWrites.get? slot = some (ts, command)) :
    (∃ leader₀, role = .leader leader₀ ∧
      leader₀.inFlightWrites.get? slot = some (ts, command)) ∨
    ⟨command.responseTx, handledAt, ts⟩ ∈
      acceptedBy role ctx (role.processEvent event ctx false env).ctx event handledAt := by
  have hown := PaxosState.processEvent_of_not_follower h fun f hf => by cases hf
  rw [hown] at h
  rcases (PaxosState.leader_of_handleEvent h).2 with
    ⟨c, c', response, rfl, rfl, _, _⟩ | ⟨leader₀, rfl⟩
  · -- a new Leader has nothing in flight
    rw [Candidate.inFlightWrites_of_win h] at hget
    cases hget
  · cases Leader.handleEvent_writeMove h with
    | accepts command' hwrites =>
      rw [acceptedBy_leader]
      rw [hwrites, OrderedMap.get?_insert] at hget
      split at hget
      · cases Option.some.inj hget
        exact Or.inr (List.mem_singleton_self _)
      · exact Or.inl ⟨leader₀, rfl, hget⟩
    | commits response hlt hwrites =>
      rw [hwrites, Leader.unsettled, OrderedMap.get?_filterKeys] at hget
      split at hget
      · exact Or.inl ⟨leader₀, rfl, hget⟩
      · cases hget
    | keeps hevent hwrites =>
      rw [hwrites] at hget
      exact Or.inl ⟨leader₀, rfl, hget⟩

section
variable {s s' : Clients} {l : Label} {w w' : AcceptedWrite}

/-- The writes that have been accepted once the event is handled. -/
def acceptedAfter (s : Clients) (l : Label) : List AcceptedWrite :=
  s.accepted ++ acceptedBy (s.role l.memberId) (s.ctx l.memberId)
    ((s.role l.memberId).processEvent l.event (s.ctx l.memberId) false l.env).ctx l.event l.start

theorem mem_acceptedAfter (h : w ∈ s.acceptedAfter l) :
    w ∈ s.accepted ∨ ∃ command, l.event = .clientWriteRequestReceived command ∧
      w = ⟨command.responseTx, l.start, (TrueTime.now (l.env.clock 0)).latest⟩ := by
  rcases List.mem_append.mp h with hold | hnew
  · exact Or.inl hold
  · exact Or.inr (mem_acceptedBy hnew)

theorem Inv.pending_after (h : s.Inv) {role : PaxosState}
    (hresult : ((s.role l.memberId).processEvent l.event (s.ctx l.memberId) false l.env).result =
      .ok role) {p : Uuid} {leader : Leader}
    (hleader : Function.update s.role l.memberId role p = .leader leader) {slot : Nat}
    {ts : DateTime} {command : PaxosCommand ClientWriteRequest}
    (hget : leader.inFlightWrites.get? slot = some (ts, command)) :
    ∃ w ∈ s.acceptedAfter l, w.responseTx = command.responseTx ∧ w.timestamp = ts := by
  by_cases hp : p = l.memberId
  · subst hp
    rw [Function.update_self] at hleader
    rw [hleader] at hresult
    rcases pending_of_processEvent l.start hresult hget with ⟨leader₀, hrole, hold⟩ | hnew
    · obtain ⟨w, hw, hspec⟩ := h.pending _ leader₀ hrole slot ts command hold
      exact ⟨w, List.mem_append_left _ hw, hspec⟩
    · exact ⟨_, List.mem_append_right _ hnew, rfl, rfl⟩
  · rw [Function.update_of_ne hp] at hleader
    obtain ⟨w, hw, hspec⟩ := h.pending p leader hleader slot ts command hget
    exact ⟨w, List.mem_append_left _ hw, hspec⟩

/-- A write that is accepted now has a channel of its own. -/
theorem Inv.unique_after (h : s.Inv) (hown : s.OwnChannel l) (hw : w ∈ s.acceptedAfter l)
    (hw' : w' ∈ s.acceptedAfter l) (htx : w.responseTx = w'.responseTx) : w = w' := by
  rcases mem_acceptedAfter hw with hold | ⟨command, hevent, rfl⟩
  · rcases mem_acceptedAfter hw' with hold' | ⟨command', hevent', rfl⟩
    · exact h.unique w hold w' hold' htx
    · exact absurd htx (hown command' hevent' w hold)
  · rcases mem_acceptedAfter hw' with hold' | ⟨command', hevent', rfl⟩
    · exact absurd htx.symm (hown command hevent w' hold')
    · -- both are the one write of this event
      cases hevent.symm.trans hevent'
      rfl

theorem Inv.stamped_after (h : s.Inv) (htruth : Truthful l) (hw : w ∈ s.acceptedAfter l) :
    w.handledAt ≤ w.timestamp := by
  rcases mem_acceptedAfter hw with hold | ⟨command, _, rfl⟩
  · exact h.stamped w hold
  · obtain ⟨t, hstart, _, hread⟩ := htruth 0
    exact le_trans hstart hread.2

theorem Inv.answered_after (h : s.Inv) (htruth : Truthful l) {tx : ReplyChannel} {t : DateTime}
    (hmem : (tx, t) ∈ s.acked ++ (acknowledged ((s.role l.memberId).processEvent
      l.event (s.ctx l.memberId) false l.env).effects).map fun tx => (tx, l.stop)) :
    ∃ w ∈ s.accepted, w.responseTx = tx ∧ w.timestamp < t := by
  rcases List.mem_append.mp hmem with hold | hnew
  · exact h.answered tx t hold
  · obtain ⟨tx', htx', heq⟩ := List.mem_map.mp hnew
    cases heq
    exact h.answer htruth htx'

theorem Inv.step (h : s.Inv) (hok : s.Timely l) (hstep : s.step l = some s') : s'.Inv := by
  obtain ⟨htruth, hown⟩ := hok
  simp only [Clients.step] at hstep
  split at hstep
  · split at hstep
    · rename_i role hresult
      cases Option.some.inj hstep
      refine ⟨?_, ?_, ?_, ?_⟩
      · intro p leader hleader slot ts command hget
        exact h.pending_after hresult hleader hget
      · exact fun w hw w' hw' htx => h.unique_after hown hw hw' htx
      · exact fun w hw => h.stamped_after htruth hw
      · intro tx t hmem
        obtain ⟨w, hw, hspec⟩ := h.answered_after htruth hmem
        exact ⟨w, List.mem_append_left _ hw, hspec⟩
    · cases hstep
  · -- the member is still at it: only answers have been added
    cases Option.some.inj hstep
    exact ⟨h.pending, h.unique, h.stamped, fun tx t hmem => h.answered_after htruth hmem⟩

end

/-- **External consistency**, in every run with correct clocks. -/
theorem externallyConsistent_of_runs {s₀ s : Clients} (h : s₀.Start)
    (hrun : Runs Clients.step Timely s₀ s) : s.ExternallyConsistent :=
  (hrun.invariant h.inv fun _ _ _ ha hok hb => ha.step hok hb).externallyConsistent

/-- Every member leads its neighbour, with an empty log. -/
def leaders : Clients where
  role p := .leader (Leader.new (Candidate.new (.new p [p + 1] (by simp))).scoreBoard)
  ctx p := { PaxosSharedContext.new p [p + 1] (by simp) with term := 1 }
  accepted := []
  acked := []

/-- An event that is handled at once, by a correct clock. -/
def Label.at (memberId : Uuid) (event : PaxosEvent) (time : DateTime) : Label :=
  ⟨memberId, event, .steady time, time, time, true⟩

theorem truthful_at (memberId : Uuid) (event : PaxosEvent) (time : DateTime) :
    Truthful (.at memberId event time) := by
  have hread : TrueTime.Reads time time :=
    ⟨Int.sub_le_self _ (by decide), Int.le_add_of_nonneg_right (by decide)⟩
  exact fun _ => ⟨time, le_refl _, le_refl _, hread⟩

/-- Member 1 accepts a write and answers it two seconds after the epoch; member 2
accepts one a second later. -/
theorem externallyConsistent_of_runs_two :
    ∃ s : Clients, s.ExternallyConsistent ∧
      s.accepted.map AcceptedWrite.responseTx = [⟨7, true⟩, ⟨8, true⟩] ∧
      s.acked = [(⟨7, true⟩, Duration.seconds 2)] := by
  have hstart : leaders.Start := ⟨fun p l hl => by cases hl; rfl, rfl, rfl⟩
  have hrefl : Runs Clients.step Timely leaders leaders := .refl _
  have hfirst := hrefl.tail
    (.at 1 (.clientWriteRequestReceived ⟨⟨"a"⟩, ⟨7, true⟩⟩) (Duration.seconds 1))
    ⟨truthful_at _ _ _, fun _ _ w hw => nomatch hw⟩ rfl
  have hanswer := hfirst.tail
    (.at 1 (.acceptResponseReceived ⟨2, 1, true, 1, none, 0⟩) (Duration.seconds 2))
    ⟨truthful_at _ _ _, fun _ he => nomatch he⟩ rfl
  have hsecond := hanswer.tail
    (.at 2 (.clientWriteRequestReceived ⟨⟨"b"⟩, ⟨8, true⟩⟩) (Duration.seconds 3))
    ⟨truthful_at _ _ _, by
      intro command he w hw
      cases he
      cases List.mem_singleton.mp hw
      decide⟩ rfl
  exact ⟨_, externallyConsistent_of_runs hstart hsecond, rfl, rfl⟩

end Clients
end SpannerPaxos
