import SpannerPaxos.VoteQuorum

/-! # What the handlers do to the lease

A Follower's lease moves in two places only, both to a fresh reading, and a
Promise or an accept response that explains itself is given only there.  A
Candidate's lease is set when it wins, behind the time it sent its vote requests;
a Leader's follows the contacts that accept responses echo.
-/
namespace SpannerPaxos

/-- The lease has been extended by one of the readings. -/
def PaxosSharedContext.Extended (ctx : PaxosSharedContext) (env : Env) : Prop :=
  ∃ i, ctx.leaseExpiry =
    some ((TrueTime.now (env.clock i)).latest + PaxosSharedContext.leaseLength)

/-- A leader heeds the response, if it is not stale. -/
def AcceptResponse.Explained (response : AcceptResponse) : Prop :=
  response.success = true ∨ response.conflictHint ≠ none

namespace Follower
variable {self : Follower} {ctx : PaxosSharedContext} {env : Env}

/-- A Follower that votes extends its lease when it promises. -/
theorem handleVoteRequest_lease (self : Follower) (request : VoteRequest)
    (ctx : PaxosSharedContext) (env : Env) :
    let answer := self.handleVoteRequest request ctx env
    answer.2.1.memberId = ctx.memberId ∧
      (answer.2.1.outcome.isPromise = false ∧ answer.2.2 = ctx ∨ answer.2.2.Extended env) := by
  rcases self.handleVoteRequest_cases request ctx env with ⟨_, h⟩ | ⟨_, rejection, h⟩
  · rw [h]
    exact ⟨rfl, Or.inr ⟨1, rfl⟩⟩
  · rw [h]
    exact ⟨rfl, Or.inl ⟨rfl, rfl⟩⟩

/-- A Follower that replicates extends its lease when it explains itself, and
echoes the send time. -/
theorem handleAcceptRequest_lease (self : Follower) (request : AcceptRequest)
    (ctx : PaxosSharedContext) (env : Env) :
    let answer := self.handleAcceptRequest request ctx env
    answer.1.memberId = ctx.memberId ∧ answer.1.echoedTSend = request.tSend ∧
      (¬ answer.1.Explained ∧ answer.2 = ctx ∨ answer.2.Extended env) := by
  rcases self.handleAcceptRequest_cases request ctx env with
    ⟨_, h⟩ | ⟨_, _, hint, h⟩ | ⟨_, _, h⟩
  · rw [h]
    refine ⟨rfl, rfl, Or.inl ⟨?_, rfl⟩⟩
    rintro (hsuccess | hhint)
    · cases hsuccess
    · exact hhint rfl
  · rw [h]
    exact ⟨rfl, rfl, Or.inr ⟨1, rfl⟩⟩
  · rw [h]
    exact ⟨rfl, rfl, Or.inr ⟨1, rfl⟩⟩

/-- **An event leaves a Follower's lease alone or extends it.** -/
theorem lease_of_handleEvent (event : PaxosEvent) :
    (self.handleEvent event ctx env).ctx.leaseExpiry = ctx.leaseExpiry ∨
      (self.handleEvent event ctx env).ctx.Extended env := by
  cases event with
  | voteRequestReceived command =>
    rw [handleEvent, Outcome.reply_ctx]
    rcases (self.handleVoteRequest_lease command.request ctx env).2 with ⟨_, hctx⟩ | hext
    · exact Or.inl (congrArg _ hctx)
    · exact Or.inr hext
  | acceptRequestReceived command =>
    rw [handleEvent, Outcome.reply_ctx]
    rcases (self.handleAcceptRequest_lease command.request ctx env).2.2 with ⟨_, hctx⟩ | hext
    · exact Or.inl (congrArg _ hctx)
    · exact Or.inr hext
  | preVoteRequestReceived command =>
    rw [handleEvent, Outcome.reply_ctx]
    exact Or.inl rfl
  | electionCountdownExpired =>
    rw [handleEvent, Attempt.toOutcome_ctx, Attempt.map_state]
    refine Or.inl ?_
    split <;> rfl
  | clientWriteRequestReceived command =>
    rw [handleEvent, Attempt.toOutcome_ctx]
    exact Or.inl rfl
  | _ => exact Or.inl rfl

/-- A Follower sends nobody an accept request. -/
theorem not_dispatch {event : PaxosEvent} {p : Uuid} {request : AcceptRequest} :
    Effect.dispatchAccept p request ∉ (self.handleEvent event ctx env).effects := by
  intro h
  cases event with
  | voteRequestReceived command | preVoteRequestReceived command | acceptRequestReceived command =>
    cases Outcome.eq_of_mem_reply h
  | electionCountdownExpired =>
    simp only [handleEvent, handleElectionCountdownExpired, PreCandidate.dispatchPreVote,
      Attempt.toOutcome_effects, Attempt.map_effects] at h
    repeat' split at h
    · cases h
    all_goals cases List.mem_singleton.mp h
  | clientWriteRequestReceived command =>
    simp only [handleEvent, handleClientWrite, sendIgnoring, Attempt.toOutcome_effects,
      Attempt.map_effects] at h
    repeat' split at h
    all_goals first
      | cases List.mem_singleton.mp h
      | cases h
  | _ => cases h

end Follower

namespace Leader
variable {self l' : Leader} {event : PaxosEvent} {ctx : PaxosSharedContext} {env : Env}

/-- A response that is handled leaves the contacts it has recorded, and the lease
they renew. -/
theorem handleAcceptResponse_contact (self : Leader) (response : AcceptResponse)
    (ctx : PaxosSharedContext) (env : Env) :
    let a := self.handleAcceptResponse response ctx env
    (a.state.1.lastContact = self.lastContact ∧ a.state.2.leaseExpiry = ctx.leaseExpiry) ∨
      response.Explained ∧
        a.state.1.lastContact = (self.recordContact response).lastContact ∧
        (a.state.2.leaseExpiry = ctx.leaseExpiry ∨
          a.state.2.leaseExpiry = ((self.recordContact response).renewLease ctx).leaseExpiry) := by
  rcases self.handleAcceptResponse_cases response ctx env with
    ⟨_, h⟩ | ⟨hheeds, _, fault, h⟩ |
      ⟨hheeds, _, ⟨fault, h⟩ | ⟨fs, _, _, _, h⟩ | ⟨fs, hint, _, _, _, h⟩⟩
  · rw [h]
    exact Or.inl ⟨rfl, rfl⟩
  · rw [h]
    exact Or.inr ⟨hheeds.2, rfl, Or.inl rfl⟩
  · rw [h]
    exact Or.inr ⟨hheeds.2, rfl, Or.inr rfl⟩
  · rw [h]
    refine Or.inr ⟨hheeds.2, ?_, Or.inr ?_⟩
    · unfold advanceCommit
      dsimp only
      split <;> rfl
    · rcases advanceCommit_ctx _ _ env with hctx | ⟨slot, hctx, _⟩
      · rw [hctx]
      · rw [hctx, PaxosSharedContext.commitTo_leaseExpiry]
  · rw [h]
    exact Or.inr ⟨hheeds.2,
      ((dispatchAcceptRequestToFollower_spec _ _ _ _ response.memberId).1).lastContact, Or.inr rfl⟩

/-- A renewed lease ends a lease length after the weakest contact of a quorum. -/
theorem renewLease_leaseExpiry (self : Leader) (ctx : PaxosSharedContext) :
    (self.renewLease ctx).leaseExpiry = ctx.leaseExpiry ∨
    ∃ tQuorum, self.contactTimes[ctx.getQuorumSize - 2]? = some tQuorum ∧
      (self.renewLease ctx).leaseExpiry = some (tQuorum + PaxosSharedContext.leaseLength) := by
  unfold renewLease
  cases hquorum : self.contactTimes[ctx.getQuorumSize - 2]? with
  | none => exact Or.inl rfl
  | some tQuorum =>
    cases hlease : ctx.leaseExpiry with
    | none => exact Or.inr ⟨tQuorum, rfl, rfl⟩
    | some current =>
      simp only
      split
      · exact Or.inr ⟨tQuorum, rfl, rfl⟩
      · exact Or.inl hlease

/-- A renewal never shortens the lease. -/
theorem le_renewLease (self : Leader) {ctx : PaxosSharedContext} {x : DateTime}
    (h : ctx.leaseExpiry = some x) :
    ∃ x', (self.renewLease ctx).leaseExpiry = some x' ∧ x ≤ x' := by
  unfold renewLease
  cases self.contactTimes[ctx.getQuorumSize - 2]? with
  | none => exact ⟨x, h, le_refl _⟩
  | some tQuorum =>
    simp only [h]
    split
    · rename_i hlater
      exact ⟨_, rfl, le_of_lt hlater⟩
    · exact ⟨x, h, le_refl _⟩

/-- A contact is the one recorded before, or the send time just echoed. -/
theorem recordContact_get? (self : Leader) (response : AcceptResponse) {p : Uuid} {t : DateTime}
    (h : (self.recordContact response).lastContact.get? p = some t) :
    self.lastContact.get? p = some t ∨ p = response.memberId ∧ t = response.echoedTSend := by
  simp only [recordContact, AssocMap.get?_insert] at h
  split at h
  · rename_i hp
    subst hp
    cases hold : self.lastContact.get? response.memberId with
    | none =>
      rw [hold] at h
      exact Or.inr ⟨rfl, (Option.some.inj h).symm⟩
    | some t' =>
      rw [hold] at h
      have ht : max t' response.echoedTSend = t := Option.some.inj h
      rcases le_total response.echoedTSend t' with hle | hle
      · exact Or.inl (by rw [← ht, max_eq_left hle])
      · exact Or.inr ⟨rfl, by rw [← ht, max_eq_right hle]⟩
  · exact Or.inl h

end Leader

/-- The effect answers another member's request. -/
def Effect.isPeerReply : Effect → Bool
  | .preVoteReply _ _ | .voteReply _ _ | .acceptReply _ _ => true
  | _ => false

namespace Leader
variable {self l' : Leader} {event : PaxosEvent} {ctx : PaxosSharedContext} {env : Env}

/-- The methods by which a Leader leads. -/
inductive Leads (self : Leader) (ctx : PaxosSharedContext) (env : Env) :
    PaxosEvent → Attempt (Leader × PaxosSharedContext) → Prop
  | heeds (response : AcceptResponse) : Leads self ctx env (.acceptResponseReceived response)
      (self.handleAcceptResponse response ctx env)
  | writes (command : PaxosCommand ClientWriteRequest) :
      Leads self ctx env (.clientWriteRequestReceived command)
        (self.handleClientWrite command ctx env)
  | flushes : Leads self ctx env .writeFlushTimerFired (self.handleWriteFlush ctx env)
  | beats : Leads self ctx env .heartbeatTimerFired (self.handleHeartbeatTimer ctx env)

/-- A Leader that does not lead stays as it is, or clears batches in flight. -/
def Rests (self : Leader) (event : PaxosEvent) (env : Env) (l' : Leader) : Prop :=
  l' = self ∨ event = .acceptTimeoutCheckFired ∧ l' = self.handleAcceptTimeoutCheck env

theorem Rests.standing (h : self.Rests event env l') : SameStanding self l' := by
  rcases h with rfl | ⟨_, rfl⟩
  · exact .refl l'
  · exact self.handleAcceptTimeoutCheck_standing env

/-- **A Leader leads, or only answers another member**: an event that it does not lead
by shows nothing but such an answer, and a Leader that stays has done no more. -/
theorem leads_or_quiet (self : Leader) (event : PaxosEvent) (ctx : PaxosSharedContext)
    (env : Env) :
    (∃ a, Leads self ctx env event a ∧ self.handleEvent event ctx env = handleEvent.stay a) ∨
    (∀ e ∈ (self.handleEvent event ctx env).effects, e.isPeerReply = true) ∧
      ∀ l', (self.handleEvent event ctx env).result = .ok (.leader l') →
        (self.handleEvent event ctx env).ctx = ctx ∧ self.Rests event env l' := by
  cases event with
  | acceptResponseReceived response => exact Or.inl ⟨_, .heeds response, rfl⟩
  | clientWriteRequestReceived command => exact Or.inl ⟨_, .writes command, rfl⟩
  | writeFlushTimerFired => exact Or.inl ⟨_, .flushes, rfl⟩
  | heartbeatTimerFired => exact Or.inl ⟨_, .beats, rfl⟩
  | preVoteRequestReceived command =>
    refine Or.inr ⟨fun e hmem => ?_, fun l' h => ?_⟩
    · simp only [handleEvent] at hmem
      split at hmem
      all_goals
        rw [Outcome.eq_of_mem_reply hmem]
        rfl
    · simp only [handleEvent] at h ⊢
      split at h
      · cases (Outcome.reply_result h).1
      · rename_i hlease
        rw [if_neg hlease, Outcome.reply_ctx]
        cases (Outcome.reply_result h).1
        exact ⟨rfl, Or.inl rfl⟩
  | voteRequestReceived command =>
    refine Or.inr ⟨fun e hmem => ?_, fun l' h => ?_⟩
    · simp only [handleEvent] at hmem
      split at hmem
      all_goals
        rw [Outcome.eq_of_mem_reply hmem]
        rfl
    · simp only [handleEvent] at h ⊢
      split at h
      · cases (Outcome.reply_result h).1
      · rename_i hlease
        rw [if_neg hlease, Outcome.reply_ctx]
        cases (Outcome.reply_result h).1
        exact ⟨rfl, Or.inl rfl⟩
  | acceptRequestReceived command =>
    simp only [handleEvent]
    split
    · refine Or.inr ⟨fun e hmem => ?_, fun l' h => ?_⟩
      · rw [Outcome.eq_of_mem_reply hmem]
        rfl
      · cases (Outcome.reply_result h).1
    · refine Or.inr ⟨fun _ hmem => absurd hmem List.not_mem_nil, fun l' h => ?_⟩
      cases h
      exact ⟨rfl, Or.inl rfl⟩
  | preVoteResponseReceived response =>
    simp only [handleEvent]
    split
    all_goals
      refine Or.inr ⟨fun _ hmem => absurd hmem List.not_mem_nil, fun l' h => ?_⟩
      cases h
    exact ⟨rfl, Or.inl rfl⟩
  | voteResponseReceived response =>
    simp only [handleEvent]
    split
    all_goals
      refine Or.inr ⟨fun _ hmem => absurd hmem List.not_mem_nil, fun l' h => ?_⟩
      cases h
    exact ⟨rfl, Or.inl rfl⟩
  | leaderLeaseExpired =>
    refine Or.inr ⟨fun _ hmem => absurd hmem List.not_mem_nil, fun l' h => ?_⟩
    cases h
  | acceptTimeoutCheckFired =>
    refine Or.inr ⟨fun _ hmem => absurd hmem List.not_mem_nil, fun l' h => ?_⟩
    cases h
    exact ⟨rfl, Or.inr ⟨rfl, rfl⟩⟩
  | electionCountdownExpired | preVoteCampaignExpired | voteCampaignExpired =>
    refine Or.inr ⟨fun _ hmem => absurd hmem List.not_mem_nil, fun l' h => ?_⟩
    cases h
    exact ⟨rfl, Or.inl rfl⟩

/-- **An event leaves a Leader's lease and contacts alone**, unless it is an accept
response that explains itself. -/
theorem lease_of_handleEvent (h : (self.handleEvent event ctx env).result = .ok (.leader l')) :
    ((self.handleEvent event ctx env).ctx.leaseExpiry = ctx.leaseExpiry ∧
      l'.lastContact = self.lastContact) ∨
    ∃ response, event = .acceptResponseReceived response ∧ response.Explained ∧
      l'.lastContact = (self.recordContact response).lastContact ∧
      ((self.handleEvent event ctx env).ctx.leaseExpiry = ctx.leaseExpiry ∨
        (self.handleEvent event ctx env).ctx.leaseExpiry =
          ((self.recordContact response).renewLease ctx).leaseExpiry) := by
  rcases self.leads_or_quiet event ctx env with ⟨a, hleads, heq⟩ | ⟨_, hquiet⟩
  · have hctx : (self.handleEvent event ctx env).ctx = a.state.2 := by
      rw [heq, handleEvent.stay, Attempt.toOutcome_ctx, Attempt.map_state]
    rw [heq] at h
    cases PaxosState.leader.inj (stay_result h)
    rw [hctx]
    cases hleads with
    | heeds response =>
      rcases self.handleAcceptResponse_contact response ctx env with
        ⟨hcontact, hlease⟩ | ⟨hexplained, hcontact, hlease⟩
      · exact Or.inl ⟨hlease, hcontact⟩
      · exact Or.inr ⟨response, rfl, hexplained, hcontact, hlease⟩
    | writes command => exact Or.inl ⟨rfl, rfl⟩
    | flushes =>
      rw [handleWriteFlush_ctx]
      exact Or.inl ⟨rfl, (self.handleWriteFlush_standing _ _).lastContact⟩
    | beats =>
      exact Or.inl ⟨ctx.advanceTSafe_leaseExpiry _,
        (self.handleHeartbeatTimer_standing _ _).lastContact⟩
  · obtain ⟨hctx, hrests⟩ := hquiet l' h
    exact Or.inl ⟨by rw [hctx], hrests.standing.lastContact⟩

/-- Every request a handler sends carries one of its readings. -/
theorem IsDispatch.tSend {ctx : PaxosSharedContext} {minNextTs : Option DateTime} {env : Env}
    {p : Uuid} {request : AcceptRequest}
    (h : IsDispatch ctx minNextTs env (.dispatchAccept p request)) :
    ∃ i, request.tSend = (TrueTime.now (env.clock i)).earliest := by
  obtain ⟨_, _, _, i, _, he⟩ := h
  cases he
  exact ⟨i, rfl⟩

theorem tSend_of_handleEvent {p : Uuid} {request : AcceptRequest}
    (h : Effect.dispatchAccept p request ∈ (self.handleEvent event ctx env).effects) :
    ∃ i, request.tSend = (TrueTime.now (env.clock i)).earliest := by
  rcases self.leads_or_quiet event ctx env with ⟨a, hleads, heq⟩ | ⟨hquiet, _⟩
  · rw [heq, handleEvent.stay, Attempt.toOutcome_effects, Attempt.map_effects] at h
    cases hleads with
    | heeds response =>
      -- only a response with a conflict hint is answered with a request
      rcases self.handleAcceptResponse_cases response ctx env with
        ⟨_, heq⟩ | ⟨_, _, fault, heq⟩ |
          ⟨_, _, ⟨fault, heq⟩ | ⟨fs, _, _, _, heq⟩ | ⟨fs, hint, _, _, _, heq⟩⟩
      · rw [heq] at h
        cases h
      · rw [heq] at h
        cases h
      · rw [heq] at h
        cases h
      · rw [heq] at h
        exact absurd h (advanceCommit_not_dispatch _ _ _ _ _)
      · rw [heq] at h
        exact ((dispatchAcceptRequestToFollower_spec _ _ _ _ response.memberId).2 _ h).tSend
    | writes command =>
      unfold handleClientWrite at h
      dsimp only at h
      split at h
      · cases List.mem_singleton.mp h
      · cases h
    | flushes =>
      unfold handleWriteFlush at h
      split at h
      · cases h
      · exact ((self.dispatchThen_spec ctx none env (fun l => { l with pendingWriteCount := 0 })
          fun l => ⟨rfl, fun _ => rfl, rfl, rfl⟩).2 _ h).tSend
    | beats =>
      exact (((self.dispatchThen_spec _ _ _
        (fun l => { l with heartbeatCdClock := l.heartbeatCdClock.start })
        fun l => ⟨rfl, fun _ => rfl, rfl, rfl⟩).2 _ h).of_skip).tSend
  · cases hquiet _ h

/-- Replicating what is uncommitted touches neither contacts nor lease. -/
theorem processUncommittedLogs_lease (self : Leader) (ctx : PaxosSharedContext) (env : Env) :
    let a := self.processUncommittedLogs ctx env
    a.state.1.lastContact = self.lastContact ∧ a.state.2.leaseExpiry = ctx.leaseExpiry ∧
      ∀ p request, Effect.dispatchAccept p request ∈ a.effects →
        ∃ i, request.tSend = (TrueTime.now (env.clock i)).earliest := by
  unfold processUncommittedLogs
  dsimp only
  split
  · refine ⟨(dispatchAcceptRequest_spec _ _ _ _).1.lastContact, rfl, ?_⟩
    intro p request hmem
    exact ((dispatchAcceptRequest_spec _ _ _ _).2 _ hmem).tSend
  · refine ⟨(dispatchAcceptRequest_spec _ _ _ _).1.lastContact, rfl, ?_⟩
    intro p request hmem
    exact ((dispatchAcceptRequest_spec _ _ _ _).2 _ hmem).tSend

end Leader

namespace Candidate
variable {self c c' : Candidate} {event : PaxosEvent} {ctx : PaxosSharedContext} {env : Env}

/-- The dispatch time is read before anything is sent. -/
theorem dispatchVote_state (self : Candidate) (ctx : PaxosSharedContext) (env : Env) :
    (self.dispatchVote ctx env).state.voteDispatchTime =
        some (TrueTime.now (env.clock 0)).earliest ∧
      (self.dispatchVote ctx env).state.scoreBoard = self.scoreBoard := by
  unfold dispatchVote
  dsimp only
  split <;> exact ⟨rfl, rfl⟩

/-- Recording a response keeps the dispatch time and the members on the score board. -/
theorem recordVote_keeps {response : VoteResponse} (h : c.recordVote response ctx = some c') :
    c'.voteDispatchTime = c.voteDispatchTime ∧ c'.scoreBoard.keys = c.scoreBoard.keys := by
  unfold recordVote at h
  dsimp only at h
  split at h
  · cases Option.some.inj h
    exact ⟨rfl, rfl⟩
  · split at h
    · split at h
      · cases h
      · rename_i pos hpos
        cases Option.some.inj h
        exact ⟨rfl, AssocMap.keys_insert_of_mem _ (AssocMap.mem_keys_iff.mpr ⟨_, hpos⟩) _⟩
    · cases Option.some.inj h
      exact ⟨rfl, rfl⟩

/-- A response that wins makes the Candidate the leader of a new lease. -/
theorem eq_becomeLeader_of_win {response : VoteResponse} {l : Leader}
    (h : (self.handleEvent (.voteResponseReceived response) ctx env).result = .ok (.leader l)) :
    ∃ c' dispatchTime, self.recordVote response ctx = some c' ∧ c'.hasVoteQuorum = true ∧
      c'.voteDispatchTime = some dispatchTime ∧
      self.handleEvent (.voteResponseReceived response) ctx env =
        c'.becomeLeader (ctx.updateLeaderLeaseExpiryTime
          (dispatchTime + PaxosSharedContext.leaseLength)) (env.skip 1) := by
  cases handleEvent_next h with
  | wins response' c' l hevent hrecord hquorum =>
    cases hevent
    refine ⟨c', ?_⟩
    simp only [handleEvent, handleVoteResponse, hrecord, hquorum, if_true] at h ⊢
    cases hdispatch : c'.voteDispatchTime with
    | none =>
      rw [hdispatch] at h
      cases h
    | some dispatchTime =>
      simp only [hdispatch] at h ⊢
      split at h
      · cases h
      · rename_i hbefore
        rw [if_neg hbefore]
        exact ⟨dispatchTime, trivial, trivial, rfl, rfl⟩

/-- **What a win does to the lease**: it ends a lease length after the dispatch of
the vote requests, and no follower has been heard of since. -/
theorem lease_of_win {l : Leader}
    (h : (self.handleEvent event ctx env).result = .ok (.leader l)) :
    ∃ response c' dispatchTime, event = .voteResponseReceived response ∧
      self.recordVote response ctx = some c' ∧ c'.hasVoteQuorum = true ∧
      c'.voteDispatchTime = some dispatchTime ∧
      (self.handleEvent event ctx env).ctx.leaseExpiry =
        some (dispatchTime + PaxosSharedContext.leaseLength) ∧
      l.lastContact.keys = c'.scoreBoard.keys ∧
      ∀ p t, l.lastContact.get? p = some t → t = DateTime.unixEpoch := by
  cases handleEvent_next h with
  | wins response _ l hevent _ _ =>
    subst hevent
    obtain ⟨c', dispatchTime, hrecord, hquorum, hdispatch, heq⟩ := eq_becomeLeader_of_win h
    obtain ⟨hcontact, hlease, _⟩ := (Leader.new c'.scoreBoard).processUncommittedLogs_lease
      (c'.flushUncommittedLogs (ctx.updateLeaderLeaseExpiryTime
        (dispatchTime + PaxosSharedContext.leaseLength))) (env.skip 1)
    rw [heq] at h ⊢
    have hnew : l.lastContact = (Leader.new c'.scoreBoard).lastContact := by
      rw [PaxosState.leader.inj (Attempt.toOutcome_result h)]
      exact hcontact
    refine ⟨response, c', dispatchTime, rfl, hrecord, hquorum, hdispatch, ?_, ?_, ?_⟩
    · rw [becomeLeader, Attempt.toOutcome_ctx]
      exact hlease
    · rw [hnew, Leader.new, AssocMap.keys_mapValues]
    · intro p t ht
      rw [hnew, Leader.new, AssocMap.get?_mapValues] at ht
      obtain ⟨_, _, rfl⟩ := Option.map_eq_some_iff.mp ht
      rfl

theorem tSend_of_handleEvent {p : Uuid} {request : AcceptRequest}
    (h : Effect.dispatchAccept p request ∈ (self.handleEvent event ctx env).effects) :
    ∃ i, request.tSend = (TrueTime.now (env.clock i)).earliest := by
  cases event with
  | voteResponseReceived response =>
    simp only [handleEvent, handleVoteResponse] at h
    split at h
    · cases h
    · rename_i c' hrecord
      split at h
      · split at h
        · cases h
        · split at h
          · cases h
          · rw [becomeLeader, Attempt.toOutcome_effects] at h
            obtain ⟨i, hi⟩ := (Leader.processUncommittedLogs_lease _ _ _).2.2 p request h
            exact ⟨i + 1, hi⟩
      · split at h <;> cases h
  | acceptRequestReceived command =>
    simp only [handleEvent, stepDownOnAccept] at h
    split at h <;> cases Outcome.eq_of_mem_reply h
  | preVoteRequestReceived command => cases Outcome.eq_of_mem_reply h
  | voteRequestReceived command => cases Outcome.eq_of_mem_reply h
  | clientWriteRequestReceived command =>
    simp only [handleEvent, rejectClientWrite, Outcome.ok, sendIgnoring] at h
    split at h
    · cases List.mem_singleton.mp h
    · cases h
  | _ => cases h

end Candidate
end SpannerPaxos
