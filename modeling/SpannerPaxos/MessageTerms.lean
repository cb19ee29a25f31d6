import SpannerPaxos.LeaseSteps
import SpannerPaxos.Transitions

/-! # What messages say about their sender

Whatever a member sends is in the term it is in when the event has been handled,
and a pre-vote is answered under the member's own id, to whoever asked for it.
Only a won pre-vote takes a member to a term that it has not been told of.
-/
namespace SpannerPaxos

/-- What an effect of handling `event` says about the member that shows it. -/
def Effect.Fits (event : PaxosEvent) (ctx : PaxosSharedContext) : Effect → Prop
  | .preVoteReply tx response => response.memberId = ctx.memberId ∧ response.term = ctx.term ∧
      ∃ command, event = .preVoteRequestReceived command ∧ command.responseTx = tx
  | .voteReply _ response => response.term = ctx.term
  | .acceptReply _ response => response.term = ctx.term
  | .dispatchVote request => request.term = ctx.term
  | .dispatchAccept _ request => request.term = ctx.term
  | .dispatchPreVote _ | .dispatchClientWrite _ _ _ | .clientReply _ _ | .signalWriteFlush => True

/-- The member stays what it is, and what it says fits. -/
structure Outcome.Fits (o : Outcome) (event : PaxosEvent) (ctx : PaxosSharedContext) : Prop where
  same : ctx.SameMember o.ctx
  effects : ∀ e ∈ o.effects, e.Fits event ctx

namespace Outcome
variable {event : PaxosEvent} {ctx ctx' : PaxosSharedContext} {state : PaxosState}

theorem fits_reply {tx : ReplyChannel} {effect : Effect} (hsame : ctx.SameMember ctx')
    (heffect : effect.Fits event ctx) : (reply tx effect state ctx').Fits event ctx where
  same := by rwa [reply_ctx]
  effects e he := by rwa [eq_of_mem_reply he]

/-- An outcome that shows nothing. -/
theorem fits_quiet {o : Outcome} (hsame : ctx.SameMember o.ctx) (hquiet : o.effects = []) :
    o.Fits event ctx where
  same := hsame
  effects := by simp [hquiet]

theorem fits_ok : (ok state ctx []).Fits event ctx := fits_quiet (.refl ctx) rfl

theorem fits_toOutcome {a : Attempt (PaxosState × PaxosSharedContext)}
    (hsame : ctx.SameMember a.state.2) (heffects : ∀ e ∈ a.effects, e.Fits event ctx) :
    a.toOutcome.Fits event ctx where
  same := by rwa [Attempt.toOutcome_ctx]
  effects := by rwa [Attempt.toOutcome_effects]

end Outcome

section
variable {event : PaxosEvent} {ctx : PaxosSharedContext} {env : Env}

theorem fits_sendIgnoring {tx : ReplyChannel} {response : ClientWriteResponse} :
    ∀ e ∈ sendIgnoring tx (.clientReply tx response), e.Fits event ctx := by
  intro e he
  rw [eq_of_mem_sendIgnoring he]
  trivial

/-! ## Followers -/

namespace Follower
variable (self : Follower)

variable (ctx env) in
theorem handlePreVoteRequest_fits (request : PreVoteRequest) :
    (self.handlePreVoteRequest request ctx env).memberId = ctx.memberId ∧
      (self.handlePreVoteRequest request ctx env).term = ctx.term := by
  unfold handlePreVoteRequest
  repeat' split
  all_goals exact ⟨rfl, rfl⟩

variable (ctx env) in
theorem handleVoteRequest_fits (request : VoteRequest) :
    (self.handleVoteRequest request ctx env).2.1.term = ctx.term ∧
      ctx.SameMember (self.handleVoteRequest request ctx env).2.2 := by
  rcases self.handleVoteRequest_cases request ctx env with ⟨_, h⟩ | ⟨_, rejection, h⟩
  · rw [h]
    exact ⟨rfl, .updateLease ctx _⟩
  · rw [h]
    exact ⟨rfl, .refl ctx⟩

theorem handleAcceptRequest_term (request : AcceptRequest) :
    (self.handleAcceptRequest request ctx env).1.term = ctx.term := by
  rcases self.handleAcceptRequest_cases request ctx env with
    ⟨_, h⟩ | ⟨_, _, hint, h⟩ | ⟨_, _, h⟩
  · rw [h]
    rfl
  · rw [h]
  · rw [h]
    rfl

theorem handleEvent_fits : (self.handleEvent event ctx env).Fits event ctx := by
  cases event with
  | preVoteRequestReceived command =>
    obtain ⟨hid, hterm⟩ := self.handlePreVoteRequest_fits ctx env command.request
    exact Outcome.fits_reply (.refl ctx) ⟨hid, hterm, command, rfl, rfl⟩
  | voteRequestReceived command =>
    obtain ⟨hterm, hsame⟩ := self.handleVoteRequest_fits ctx env command.request
    exact Outcome.fits_reply hsame hterm
  | acceptRequestReceived command =>
    exact Outcome.fits_reply (self.handleAcceptRequest_sameMember command.request ctx env)
      (self.handleAcceptRequest_term command.request)
  | electionCountdownExpired =>
    refine Outcome.fits_toOutcome ?_ ?_
    · rw [Attempt.map_state]
      split <;> exact .refl ctx
    · -- pre-vote requests carry a proposed term only
      intro e he
      simp only [handleElectionCountdownExpired, PreCandidate.dispatchPreVote,
        Attempt.map_effects] at he
      repeat' split at he
      · cases he
      all_goals
        rw [List.mem_singleton.mp he]
        trivial
  | clientWriteRequestReceived command =>
    refine Outcome.fits_toOutcome (.refl ctx) fun e he => ?_
    simp only [handleClientWrite, Attempt.map_effects] at he
    repeat' split at he
    · exact fits_sendIgnoring e he
    · rw [List.mem_singleton.mp he]
      trivial
    · cases he
  | _ => exact Outcome.fits_ok

end Follower

/-! ## Campaigns -/

variable (ctx) in
theorem handlePreVoteRequest_fits (request : PreVoteRequest) :
    (handlePreVoteRequest request ctx).memberId = ctx.memberId ∧
      (handlePreVoteRequest request ctx).term = ctx.term := by
  unfold handlePreVoteRequest
  repeat' split
  all_goals exact ⟨rfl, rfl⟩

/-- The campaign roles answer a pre-vote request alike. -/
theorem fits_preVote {command : PaxosCommand PreVoteRequest} {state : PaxosState} :
    (Outcome.reply command.responseTx (.preVoteReply command.responseTx
      (handlePreVoteRequest command.request ctx)) state ctx).Fits
        (.preVoteRequestReceived command) ctx := by
  obtain ⟨hid, hterm⟩ := handlePreVoteRequest_fits ctx command.request
  exact Outcome.fits_reply (.refl ctx) ⟨hid, hterm, command, rfl, rfl⟩

theorem fits_stepDownOnAccept {stay : PaxosState} {command : PaxosCommand AcceptRequest} :
    (stepDownOnAccept stay command ctx env).Fits event ctx := by
  unfold stepDownOnAccept
  split
  · exact Outcome.fits_reply (.refl ctx) rfl
  · exact Outcome.fits_reply (Follower.handleAcceptRequest_sameMember _ _ _ _)
      (Follower.handleAcceptRequest_term _ _)

theorem fits_rejectClientWrite {stay : PaxosState} {command : PaxosCommand ClientWriteRequest} :
    (rejectClientWrite stay command ctx).Fits event ctx :=
  ⟨.refl ctx, fits_sendIgnoring⟩

namespace PreCandidate
variable (self : PreCandidate)

theorem handleVoteRequest_term (request : VoteRequest) :
    (self.handleVoteRequest request ctx).2.term = ctx.term := by
  rcases self.handleVoteRequest_cases request ctx with ⟨_, h⟩ | ⟨_, rejection, h⟩
  · rw [h]
    rfl
  · rw [h]

/-- A PreCandidate that does not win keeps its term. -/
theorem handleEvent_fits (hlost : ∀ response, event = .preVoteResponseReceived response →
      (self.updatePreVoteBoard response).hasPreVoteQuorum = false) :
    (self.handleEvent event ctx env).Fits event ctx := by
  cases event with
  | preVoteRequestReceived command => exact fits_preVote
  | voteRequestReceived command =>
    exact Outcome.fits_reply (.refl ctx) (self.handleVoteRequest_term command.request)
  | acceptRequestReceived command => exact fits_stepDownOnAccept
  | clientWriteRequestReceived command => exact fits_rejectClientWrite
  | preVoteResponseReceived response =>
    have hnot := hlost response rfl
    simp only [handleEvent, handlePreVoteResponse, hnot, Bool.false_eq_true, if_false]
    split <;> exact Outcome.fits_ok
  | _ => exact Outcome.fits_ok

/-- What winning the pre-vote says: the vote request is for the next term. -/
theorem handleEvent_wins {response : PreVoteResponse}
    (hquorum : (self.updatePreVoteBoard response).hasPreVoteQuorum = true) :
    (self.handleEvent (.preVoteResponseReceived response) ctx env).Fits
        (.preVoteResponseReceived response) { ctx with term := ctx.term + 1 } := by
  simp only [handleEvent, handlePreVoteResponse, hquorum, if_true]
  refine Outcome.fits_toOutcome (.refl _) fun e he => ?_
  simp only [Candidate.dispatchVote, Attempt.map_effects] at he
  split at he
  all_goals
    rw [List.mem_singleton.mp he]
    rfl

end PreCandidate

/-! ## Leaders -/

namespace Leader
variable (self : Leader)

theorem IsDispatch.fits {ctx' : PaxosSharedContext} {minNextTs : Option DateTime} {e : Effect}
    (hsame : ctx.SameMember ctx') (h : IsDispatch ctx' minNextTs env e) : e.Fits event ctx := by
  obtain ⟨_, _, _, _, _, rfl⟩ := h
  exact hsame.term

theorem handleAcceptResponse_fits (response : AcceptResponse) :
    ∀ e ∈ (self.handleAcceptResponse response ctx env).effects, e.Fits event ctx := by
  have hrenew := (self.recordContact response).renewLease_sameMember ctx
  rcases self.handleAcceptResponse_cases response ctx env with
    ⟨_, h⟩ | ⟨_, _, fault, h⟩ |
      ⟨_, _, ⟨fault, h⟩ | ⟨fs, _, _, _, h⟩ | ⟨fs, hint, _, _, _, h⟩⟩
  · rw [h]
    exact List.forall_mem_nil _
  · rw [h]
    exact List.forall_mem_nil _
  · rw [h]
    exact List.forall_mem_nil _
  · rw [h]
    intro e he
    obtain ⟨_, _, rfl⟩ := advanceCommit_effects _ _ _ e he
    trivial
  · rw [h]
    exact fun e he =>
      ((dispatchAcceptRequestToFollower_spec _ _ _ _ response.memberId).2 e he).fits hrenew

theorem Leads.fits {a : Attempt (Leader × PaxosSharedContext)} (h : Leads self ctx env event a) :
    ctx.SameMember a.state.2 ∧ ∀ e ∈ a.effects, e.Fits event ctx := by
  cases h with
  | heeds response =>
    exact ⟨self.handleAcceptResponse_sameMember ctx env response,
      self.handleAcceptResponse_fits response⟩
  | writes command =>
    refine ⟨⟨rfl, rfl, rfl, id⟩, fun e he => ?_⟩
    unfold handleClientWrite at he
    dsimp only at he
    split at he
    · rw [List.mem_singleton.mp he]
      trivial
    · cases he
  | flushes =>
    refine ⟨(self.handleWriteFlush_replicates ctx env).same, fun e he => ?_⟩
    unfold handleWriteFlush at he
    split at he
    · cases he
    · exact ((self.dispatchThen_spec ctx none env (fun l => { l with pendingWriteCount := 0 })
        fun _ => ⟨rfl, fun _ => rfl, rfl, rfl⟩).2 e he).fits (.refl ctx)
  | beats =>
    refine ⟨.advanceTSafe ctx _, fun e he => ?_⟩
    exact ((self.dispatchThen_spec _ _ _
      (fun l => { l with heartbeatCdClock := l.heartbeatCdClock.start })
      fun _ => ⟨rfl, fun _ => rfl, rfl, rfl⟩).2 e he).fits (.advanceTSafe ctx _)

theorem fits_stay {a : Attempt (Leader × PaxosSharedContext)} (h : Leads self ctx env event a) :
    (handleEvent.stay a).Fits event ctx :=
  Outcome.fits_toOutcome (h.fits self).1 (h.fits self).2

theorem handleEvent_fits : (self.handleEvent event ctx env).Fits event ctx := by
  cases event with
  | acceptResponseReceived response => exact self.fits_stay (.heeds response)
  | clientWriteRequestReceived command => exact self.fits_stay (.writes command)
  | writeFlushTimerFired => exact self.fits_stay .flushes
  | heartbeatTimerFired => exact self.fits_stay .beats
  | preVoteRequestReceived command =>
    obtain ⟨hid, hterm⟩ := (Follower.new none).handlePreVoteRequest_fits ctx (env.skip 1)
      command.request
    simp only [handleEvent]
    split
    · exact Outcome.fits_reply (.refl ctx) ⟨hid, hterm, command, rfl, rfl⟩
    · exact Outcome.fits_reply (.refl ctx) ⟨rfl, rfl, command, rfl, rfl⟩
  | voteRequestReceived command =>
    simp only [handleEvent]
    split
    · obtain ⟨hterm, hsame⟩ := (Follower.new none).handleVoteRequest_fits ctx (env.skip 1)
        command.request
      exact Outcome.fits_reply hsame hterm
    · exact Outcome.fits_reply (.refl ctx) rfl
  | acceptRequestReceived command =>
    simp only [handleEvent]
    split
    · exact Outcome.fits_reply (Follower.handleAcceptRequest_sameMember _ _ _ _)
        (Follower.handleAcceptRequest_term _ _)
    · exact Outcome.fits_ok
  | preVoteResponseReceived response | voteResponseReceived response =>
    simp only [handleEvent]
    split <;> exact Outcome.fits_ok
  | _ => exact Outcome.fits_ok

end Leader

namespace Candidate
variable (self : Candidate)

/-- A new leader's requests are in the term it was elected in. -/
theorem becomeLeader_fits {ctx' : PaxosSharedContext} (hsame : ctx.SameMember ctx') :
    (self.becomeLeader ctx' env).Fits event ctx := by
  refine ⟨hsame.trans becomeLeader_sameMember, fun e he => ?_⟩
  have hflush : ctx.SameMember (self.flushUncommittedLogs ctx') := hsame.trans ⟨rfl, rfl, rfl, id⟩
  rw [becomeLeader, Attempt.toOutcome_effects, Attempt.map_effects] at he
  unfold Leader.processUncommittedLogs at he
  dsimp only at he
  split at he
  all_goals
    refine ((Leader.dispatchAcceptRequest_spec _ _ none env).2 e he).fits ?_
    exact hflush.trans ⟨rfl, rfl, rfl, id⟩

theorem handleEvent_fits : (self.handleEvent event ctx env).Fits event ctx := by
  cases event with
  | preVoteRequestReceived command => exact fits_preVote
  | voteRequestReceived command => exact Outcome.fits_reply (.refl ctx) rfl
  | acceptRequestReceived command => exact fits_stepDownOnAccept
  | clientWriteRequestReceived command => exact fits_rejectClientWrite
  | voteResponseReceived response =>
    simp only [handleEvent, handleVoteResponse]
    split
    · exact Outcome.fits_quiet (.refl ctx) rfl
    split
    · split
      · exact Outcome.fits_quiet (.refl ctx) rfl
      · split
        · exact Outcome.fits_quiet (.updateLease ctx _) rfl
        · exact becomeLeader_fits _ (.updateLease ctx _)
    · split <;> exact Outcome.fits_ok
  | _ => exact Outcome.fits_ok

end Candidate

namespace PaxosState
variable (self : PaxosState)

/-- The event completes a pre-vote quorum. -/
def WinsPreVote (event : PaxosEvent) : Prop :=
  ∃ p response, self = .preCandidate p ∧ event = .preVoteResponseReceived response ∧
    (p.updatePreVoteBoard response).hasPreVoteQuorum = true

/-- **What a member says fits the term it is in**: the one it was in, or, after a won
pre-vote, the next one. -/
theorem handleEvent_fits (event : PaxosEvent) (ctx : PaxosSharedContext) (env : Env) :
    (self.handleEvent event ctx env).Fits event ctx ∨
      self.WinsPreVote event ∧
        (self.handleEvent event ctx env).Fits event { ctx with term := ctx.term + 1 } := by
  cases self with
  | follower f => exact Or.inl f.handleEvent_fits
  | candidate c => exact Or.inl c.handleEvent_fits
  | leader l => exact Or.inl l.handleEvent_fits
  | preCandidate p =>
    by_cases hwins : WinsPreVote (.preCandidate p) event
    · obtain ⟨_, response, hp, rfl, hquorum⟩ := hwins
      cases hp
      exact Or.inr ⟨⟨p, response, rfl, rfl, hquorum⟩, p.handleEvent_wins hquorum⟩
    · refine Or.inl (p.handleEvent_fits fun response he => ?_)
      rw [← Bool.not_eq_true]
      exact fun hquorum => hwins ⟨p, response, rfl, he, hquorum⟩

/-- **An event makes a member speak** in the term it was in, in the one the event has
brought it, or, after a won pre-vote, in the next one. -/
theorem processEvent_fits (event : PaxosEvent) (ctx : PaxosSharedContext) (env : Env) :
    ∃ term, ctx.term ≤ term ∧ (self.processEvent event ctx false env).Fits event
        { ctx with term := term } ∧
      (term = ctx.term ∨ event.getTerm = some term ∨
        self.WinsPreVote event ∧ term = ctx.term + 1) := by
  rw [processEvent_eq]
  rcases self.adoptTerm_cases event ctx with hkept | ⟨term, hterm, hlt, hadopt⟩
  · rw [hkept]
    rcases self.handleEvent_fits event ctx env with hfits | ⟨hwins, hfits⟩
    · exact ⟨ctx.term, Nat.le_refl _, hfits, Or.inl rfl⟩
    · exact ⟨ctx.term + 1, Nat.le_succ _, hfits, Or.inr (Or.inr ⟨hwins, rfl⟩)⟩
  · -- it is a Follower that handles the event then, so no pre-vote is won
    rw [hadopt]
    exact ⟨term, Nat.le_of_lt hlt, Follower.handleEvent_fits _, Or.inr (Or.inl hterm)⟩

end PaxosState

/-- What a PreCandidate's board was before the event: empty, where the election
countdown has just run out, or without the pre-vote that the event brings. -/
theorem PaxosState.preCandidate_of_handleEvent {self : PaxosState} {p : PreCandidate}
    (h : (self.handleEvent event ctx env).result = .ok (.preCandidate p)) :
    p.preVoteBoard = (PreCandidate.new ctx).preVoteBoard ∨
      ∃ p₀, self = .preCandidate p₀ ∧ (p.preVoteBoard = p₀.preVoteBoard ∨
        ∃ response, event = .preVoteResponseReceived response ∧
          p.preVoteBoard = (p₀.updatePreVoteBoard response).preVoteBoard) := by
  cases self with
  | follower f =>
    cases Follower.handleEvent_next h with
    | campaigns _ _ _ _ => exact Or.inl rfl
  | candidate c => cases Candidate.handleEvent_next h
  | leader l => cases Leader.handleEvent_next h
  | preCandidate p₀ =>
    refine Or.inr ⟨p₀, rfl, ?_⟩
    cases event with
    | preVoteResponseReceived response =>
      -- a quorum makes a Candidate, a lost pre-vote a Follower
      refine Or.inr ⟨response, rfl, ?_⟩
      simp only [handleEvent, PreCandidate.handleEvent, PreCandidate.handlePreVoteResponse] at h
      split at h
      · cases Attempt.toOutcome_result h
      · split at h
        · cases h
        · cases h
          rfl
    | voteRequestReceived command =>
      have hp : PaxosState.preCandidate p =
          .preCandidate (p₀.handleVoteRequest command.request ctx).1 := (Outcome.reply_result h).1
      rw [PaxosState.preCandidate.inj hp]
      rcases p₀.handleVoteRequest_cases command.request ctx with ⟨_, hans⟩ | ⟨_, rejection, hans⟩
      all_goals
        rw [hans]
        exact Or.inl rfl
    | preVoteRequestReceived command =>
      cases (Outcome.reply_result h).1
      exact Or.inl rfl
    | acceptRequestReceived command =>
      simp only [handleEvent, PreCandidate.handleEvent, stepDownOnAccept] at h
      split at h
      · cases (Outcome.reply_result h).1
        exact Or.inl rfl
      · cases (Outcome.reply_result h).1
    | preVoteCampaignExpired => cases h
    | _ =>
      cases h
      exact Or.inl rfl

end
end SpannerPaxos
