import SpannerPaxos.LogMoves
import SpannerPaxos.MessageTerms
import SpannerPaxos.Wakeup

/-! # The counters of a member

The term, the commit point and `t_safe` have setters that check nothing.  They still never
go back: a commit point is set behind a comparison, `t_safe` moves through `advance_t_safe`
alone, and the term moves in two places, where a larger one is adopted and where a
pre-vote is won.
-/
namespace SpannerPaxos
namespace PaxosSharedContext

/-- The second context is not behind the first one. -/
structure Advances (ctx ctx' : PaxosSharedContext) : Prop where
  committedSlot : ctx.committedSlot ≤ ctx'.committedSlot
  tSafe : ∀ ts, ctx.tSafe = some ts → ∃ ts', ctx'.tSafe = some ts' ∧ ts ≤ ts'

namespace Advances
variable {ctx ctx' ctx'' : PaxosSharedContext}

/-- What leaves the two counters alone. -/
theorem of_eq (hcommitted : ctx'.committedSlot = ctx.committedSlot)
    (htSafe : ctx'.tSafe = ctx.tSafe) : Advances ctx ctx' where
  committedSlot := Nat.le_of_eq hcommitted.symm
  tSafe ts hts := ⟨ts, htSafe.trans hts, le_refl ts⟩

theorem refl (ctx : PaxosSharedContext) : Advances ctx ctx := of_eq rfl rfl

theorem trans (h : Advances ctx ctx') (h' : Advances ctx' ctx'') : Advances ctx ctx'' where
  committedSlot := Nat.le_trans h.committedSlot h'.committedSlot
  tSafe ts hts := by
    obtain ⟨ts', hts', hle⟩ := h.tSafe ts hts
    obtain ⟨ts'', hts'', hle'⟩ := h'.tSafe ts' hts'
    exact ⟨ts'', hts'', le_trans hle hle'⟩

theorem advanceTSafe (ctx : PaxosSharedContext) (ts : DateTime) :
    Advances ctx (ctx.advanceTSafe ts) := by
  refine ⟨Nat.le_of_eq (ctx.advanceTSafe_committedSlot ts).symm, ?_⟩
  intro current hcurrent
  unfold PaxosSharedContext.advanceTSafe
  rw [hcurrent]
  dsimp only
  split
  · rename_i hlater
    exact ⟨ts, rfl, le_of_lt hlater⟩
  · exact ⟨current, hcurrent, le_refl current⟩

/-- A commit point that is set to no lower slot. -/
theorem commitTo (ctx : PaxosSharedContext) {slot : Nat} (hle : ctx.committedSlot ≤ slot) :
    Advances ctx (ctx.commitTo slot) := by
  refine ⟨by rwa [commitTo_committedSlot], ?_⟩
  unfold PaxosSharedContext.commitTo
  dsimp only
  cases ctx.uncommittedLogs.get? slot with
  | none => exact (refl ctx).tSafe
  | some entry => exact (advanceTSafe { ctx with committedSlot := slot } entry.timestamp).tSafe

theorem followCommit (ctx : PaxosSharedContext) (request : AcceptRequest) :
    Advances ctx (ctx.followCommit request) := by
  rcases ctx.followCommit_cases request with ⟨hlt, heq⟩ | ⟨_, ⟨minNextTs, _, heq⟩ | heq⟩
  · rw [heq]
    exact commitTo ctx (Nat.le_of_lt hlt)
  · rw [heq]
    exact advanceTSafe ctx _
  · rw [heq]
    exact refl ctx

end Advances
end PaxosSharedContext

open PaxosSharedContext

variable {event : PaxosEvent} {ctx : PaxosSharedContext} {env : Env}

/-! ## The commit point and `t_safe` -/

namespace Follower

theorem handleVoteRequest_advances (f : Follower) (request : VoteRequest) :
    Advances ctx (f.handleVoteRequest request ctx env).2.2 := by
  rcases f.handleVoteRequest_cases request ctx env with ⟨_, heq⟩ | ⟨_, rejection, heq⟩
  · rw [heq]
    exact .of_eq rfl rfl
  · rw [heq]
    exact .refl ctx

theorem handleAcceptRequest_advances (f : Follower) (request : AcceptRequest) :
    Advances ctx (f.handleAcceptRequest request ctx env).2 := by
  rcases f.handleAcceptRequest_cases request ctx env with
    ⟨_, heq⟩ | ⟨_, _, hint, heq⟩ | ⟨_, _, heq⟩
  · rw [heq]
    exact .refl ctx
  · rw [heq]
    exact .of_eq rfl rfl
  · have htail : Advances ctx (ctx.replaceTail request) := by
      rw [replaceTail_eq]
      exact .of_eq rfl rfl
    rw [heq]
    exact (htail.trans (.followCommit _ request)).trans (.of_eq rfl rfl)

theorem handleEvent_advances (f : Follower) : Advances ctx (f.handleEvent event ctx env).ctx := by
  cases event with
  | acceptRequestReceived command =>
    rw [handleEvent, Outcome.reply_ctx]
    exact f.handleAcceptRequest_advances command.request
  | voteRequestReceived command =>
    rw [handleEvent, Outcome.reply_ctx]
    exact f.handleVoteRequest_advances command.request
  | electionCountdownExpired =>
    rw [handleEvent, Attempt.toOutcome_ctx, Attempt.map_state]
    split <;> exact .refl ctx
  | preVoteRequestReceived command =>
    rw [handleEvent, Outcome.reply_ctx]
    exact .refl ctx
  | clientWriteRequestReceived command =>
    rw [handleEvent, Attempt.toOutcome_ctx, Attempt.map_state]
    exact .refl ctx
  | _ => exact .refl ctx

end Follower

theorem stepDownOnAccept_advances {stay : PaxosState} {command : PaxosCommand AcceptRequest} :
    Advances ctx (stepDownOnAccept stay command ctx env).ctx := by
  unfold stepDownOnAccept
  split
  · rw [Outcome.reply_ctx]
    exact .refl ctx
  · rw [Outcome.reply_ctx]
    exact Follower.handleAcceptRequest_advances _ command.request

theorem PreCandidate.handleEvent_advances (p : PreCandidate) :
    Advances ctx (p.handleEvent event ctx env).ctx := by
  cases event with
  | acceptRequestReceived command => exact stepDownOnAccept_advances
  | voteRequestReceived command =>
    rw [handleEvent, Outcome.reply_ctx]
    exact .refl ctx
  | preVoteRequestReceived command =>
    rw [handleEvent, Outcome.reply_ctx]
    exact .refl ctx
  | preVoteResponseReceived response =>
    rw [handleEvent, handlePreVoteResponse]
    split
    · rw [Attempt.toOutcome_ctx, Attempt.map_state]
      exact .of_eq rfl rfl
    · split <;> exact .refl ctx
  | _ => exact .refl ctx

/-- A new leader takes over the counters it finds. -/
theorem Candidate.becomeLeader_advances (c : Candidate) :
    Advances ctx (c.becomeLeader ctx env).ctx := by
  rw [becomeLeader, Attempt.toOutcome_ctx, Attempt.map_state, Leader.processUncommittedLogs]
  dsimp only
  split <;> exact .of_eq rfl rfl

theorem Candidate.handleEvent_advances (c : Candidate) :
    Advances ctx (c.handleEvent event ctx env).ctx := by
  cases event with
  | acceptRequestReceived command => exact stepDownOnAccept_advances
  | voteRequestReceived command =>
    rw [handleEvent, Outcome.reply_ctx]
    exact .refl ctx
  | preVoteRequestReceived command =>
    rw [handleEvent, Outcome.reply_ctx]
    exact .refl ctx
  | voteResponseReceived response =>
    rw [handleEvent, handleVoteResponse]
    cases c.recordVote response ctx with
    | none => exact .refl ctx
    | some c' =>
      dsimp only
      split
      · cases c'.voteDispatchTime with
        | none => exact .refl ctx
        | some dispatchTime =>
          dsimp only
          have hlease : Advances ctx (ctx.updateLeaderLeaseExpiryTime
              (dispatchTime + PaxosSharedContext.leaseLength)) := .of_eq rfl rfl
          split
          · exact hlease
          · exact hlease.trans c'.becomeLeader_advances
      · split <;> exact .refl ctx
  | _ => exact .refl ctx

theorem Leader.handleEvent_advances (l : Leader) :
    Advances ctx (l.handleEvent event ctx env).ctx := by
  cases event with
  | acceptRequestReceived command =>
    simp only [handleEvent]
    split
    · rw [Outcome.reply_ctx]
      exact Follower.handleAcceptRequest_advances _ command.request
    · exact .refl ctx
  | acceptResponseReceived response =>
    rw [handleEvent, handleEvent.stay, Attempt.toOutcome_ctx, Attempt.map_state]
    obtain ⟨lease, heq | ⟨slot, hlt, _, heq⟩⟩ := l.handleAcceptResponse_ctx ctx env response
    · rw [heq]
      exact .of_eq rfl rfl
    · rw [heq]
      have hlease : Advances ctx { ctx with leaseExpiry := lease } := .of_eq rfl rfl
      exact hlease.trans (.commitTo _ (Nat.le_of_lt hlt))
  | clientWriteRequestReceived command =>
    rw [handleEvent, handleEvent.stay, Attempt.toOutcome_ctx, Attempt.map_state]
    exact .of_eq rfl rfl
  | writeFlushTimerFired =>
    rw [handleEvent, handleEvent.stay, Attempt.toOutcome_ctx, Attempt.map_state,
      handleWriteFlush_ctx]
    exact .refl ctx
  | heartbeatTimerFired =>
    rw [handleEvent, handleEvent.stay, Attempt.toOutcome_ctx, Attempt.map_state]
    exact .advanceTSafe ctx _
  | preVoteRequestReceived command =>
    simp only [handleEvent]
    split
    · rw [Outcome.reply_ctx]
      exact .refl ctx
    · rw [Outcome.reply_ctx]
      exact .refl ctx
  | voteRequestReceived command =>
    simp only [handleEvent]
    split
    · rw [Outcome.reply_ctx]
      exact Follower.handleVoteRequest_advances _ command.request
    · rw [Outcome.reply_ctx]
      exact .refl ctx
  | preVoteResponseReceived response =>
    simp only [handleEvent]
    split <;> exact .refl ctx
  | voteResponseReceived response =>
    simp only [handleEvent]
    split <;> exact .refl ctx
  | _ => exact .refl ctx

namespace PaxosState
variable (self : PaxosState)

theorem handleEvent_advances : Advances ctx (self.handleEvent event ctx env).ctx := by
  cases self with
  | follower f => exact f.handleEvent_advances
  | preCandidate p => exact p.handleEvent_advances
  | candidate c => exact c.handleEvent_advances
  | leader l => exact l.handleEvent_advances

/-! ## The term -/

/-- How an event moves the term of a member. -/
inductive TermMove (self : PaxosState) (event : PaxosEvent) (ctx : PaxosSharedContext) (env : Env)
    (o : Outcome) : Prop
  | keeps (h : o.ctx.term = ctx.term)
  /-- The event carries a larger term; a Follower of that term handles it. -/
  | adopts (hcarried : event.getTerm = some o.ctx.term) (hlt : ctx.term < o.ctx.term)
      (f : Follower)
      (hfollower : o = (follower f).handleEvent event { ctx with term := o.ctx.term } env)
  /-- The PreCandidate goes on as a Candidate of the next term, unless its vote request
  cannot be dispatched. -/
  | wins (hwins : self.WinsPreVote event) (hterm : o.ctx.term = ctx.term + 1)
      (hnext : ∀ state, o.result = .ok state → ∃ c, state = candidate c)

/-- A won pre-vote leads to a Candidate. -/
theorem WinsPreVote.candidate {self state : PaxosState} (h : self.WinsPreVote event)
    (hstate : (self.handleEvent event ctx env).result = .ok state) :
    ∃ c, state = candidate c := by
  obtain ⟨p, response, rfl, rfl, hquorum⟩ := h
  simp only [handleEvent, PreCandidate.handleEvent, PreCandidate.handlePreVoteResponse,
    hquorum, if_true] at hstate
  exact ⟨_, Attempt.toOutcome_result hstate⟩

theorem processEvent_termMove (event : PaxosEvent) (ctx : PaxosSharedContext) (env : Env) :
    TermMove self event ctx env (self.processEvent event ctx false env) := by
  rw [processEvent_eq]
  rcases self.adoptTerm_cases event ctx with hkept | ⟨term, hcarried, hlt, hadopt⟩
  · rw [hkept]
    rcases self.handleEvent_fits event ctx env with hfits | ⟨hwins, hfits⟩
    · exact .keeps hfits.same.term
    · exact .wins hwins hfits.same.term fun state hstate => hwins.candidate hstate
  · rw [hadopt]
    have hterm : ((follower (Follower.new self.getLeaderId)).handleEvent event
        { ctx with term := term } env).ctx.term = term :=
      (Follower.handleEvent_fits _).same.term
    refine .adopts ?_ ?_ (Follower.new self.getLeaderId) ?_
    · rw [hterm]
      exact hcarried
    · rw [hterm]
      exact hlt
    · rw [hterm]

/-- **No counter of a member ever goes back**, whatever its role and whatever happens to
the event, and the term moves only with a larger one or a won pre-vote. -/
theorem processEvent_advances (event : PaxosEvent) (ctx : PaxosSharedContext) (cancelled : Bool)
    (env : Env) :
    ctx.term ≤ (self.processEvent event ctx cancelled env).ctx.term ∧
      Advances ctx (self.processEvent event ctx cancelled env).ctx ∧
      TermMove self event ctx env (self.processEvent event ctx cancelled env) := by
  by_cases hcancelled : cancelled = true
  · rw [processEvent, if_pos hcancelled]
    exact ⟨Nat.le_refl _, .refl ctx, .keeps rfl⟩
  rw [Bool.not_eq_true] at hcancelled
  subst hcancelled
  have hmove := self.processEvent_termMove event ctx env
  refine ⟨?_, ?_, hmove⟩
  · rcases hmove with h | ⟨_, hlt, _, _⟩ | ⟨_, h, _⟩
    · exact Nat.le_of_eq h.symm
    · exact Nat.le_of_lt hlt
    · rw [h]
      exact Nat.le_succ _
  · rw [processEvent_eq]
    rcases self.adoptTerm_cases event ctx with hkept | ⟨term, _, _, hadopt⟩
    · rw [hkept]
      exact self.handleEvent_advances
    · rw [hadopt]
      have hterm : Advances ctx { ctx with term := term } := .of_eq rfl rfl
      exact hterm.trans (handleEvent_advances _)

end PaxosState

namespace Member

/-- One step, of the event loop or of a timer, moves no counter back. -/
theorem advances_of_step {m m' : Member} {l : Label} (h : m.step l = some m') :
    m.ctx.term ≤ m'.ctx.term ∧ Advances m.ctx m'.ctx := by
  rcases step_cases h with ⟨event, env, _, _, hctx⟩ | ⟨_, ⟨lease, hctx⟩, _⟩
  · obtain ⟨hterm, hadvances, _⟩ := m.role.processEvent_advances event m.ctx false env
    rw [hctx]
    exact ⟨hterm, hadvances⟩
  · rw [hctx]
    exact ⟨Nat.le_refl _, .of_eq rfl rfl⟩

/-- Nor does a whole run of a member. -/
theorem advances_of_reaches {m m' : Member} (hrun : Reaches step m m') :
    m.ctx.term ≤ m'.ctx.term ∧ Advances m.ctx m'.ctx := by
  have hkeeps : ∀ a l b, m.ctx.term ≤ a.ctx.term ∧ Advances m.ctx a.ctx → True →
      step a l = some b → m.ctx.term ≤ b.ctx.term ∧ Advances m.ctx b.ctx := by
    rintro a l b ⟨hterm, hadvances⟩ _ hstep
    obtain ⟨hterm', hadvances'⟩ := advances_of_step hstep
    exact ⟨Nat.le_trans hterm hterm', hadvances.trans hadvances'⟩
  exact hrun.invariant ⟨Nat.le_refl _, .refl _⟩ hkeeps

end Member
end SpannerPaxos
