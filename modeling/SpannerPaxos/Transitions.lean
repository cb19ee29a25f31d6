import SpannerPaxos.VoteDecision

/-! # What an event can do to a role

One inversion theorem for each role: the roles an event can lead to, the votes
it grants, and what it keeps of the context.  The results about a member's whole
life (its votes, its campaigns, its wakeups) are read off these, and never look
into a handler again.
-/
namespace SpannerPaxos

/-- Nothing shown to the outside is a Promise. -/
def Outcome.Silent (o : Outcome) : Prop := ∀ e ∈ o.effects, e.isPromise = false

theorem Outcome.silent_reply {tx : ReplyChannel} {effect : Effect} {state : PaxosState}
    {ctx : PaxosSharedContext} (heffect : effect.isPromise = false) :
    (Outcome.reply tx effect state ctx).Silent := by
  intro e he
  rw [Outcome.eq_of_mem_reply he]
  exact heffect

theorem Outcome.silent_ok {state : PaxosState} {ctx : PaxosSharedContext} :
    (Outcome.ok state ctx []).Silent := fun _ he => absurd he List.not_mem_nil

/-- An event that is not a vote request is not answered with a Promise. -/
theorem PaxosState.silent_of_ne_vote (self : PaxosState) {event : PaxosEvent}
    {ctx : PaxosSharedContext} {env : Env}
    (hne : ∀ command, event ≠ .voteRequestReceived command) :
    (self.handleEvent event ctx env).Silent := by
  intro e he
  rw [← Bool.not_eq_true]
  intro hp
  obtain ⟨command, hevent, _⟩ := promise_of_handleEvent self he hp
  exact hne command hevent

namespace Follower

/-- Where an event leads a Follower. -/
inductive Next (f : Follower) (event : PaxosEvent) (ctx : PaxosSharedContext) (env : Env)
    (o : Outcome) : PaxosState → Prop
  | votes (command : PaxosCommand VoteRequest) (hevent : event = .voteRequestReceived command)
      (hmay : f.MayPromise command.request ctx (env.clock 0))
      (hctx : o.ctx = ctx.extendLeaderLeaseExpiryTime (env.clock 1))
      (hreply : o.effects = [.voteReply command.responseTx ctx.promiseVote]) :
      Next f event ctx env o
        (.follower { f with voteRecord := some ⟨command.request.term, command.request.memberId⟩ })
  | campaigns (hevent : event = .electionCountdownExpired)
      (hlease : ctx.isLeaderLeaseExpired (env.clock 0) = true) (hctx : o.ctx = ctx)
      (hsilent : o.Silent) :
      Next f event ctx env o
        (.preCandidate { PreCandidate.new ctx with prevoteCdClock := CountDownClock.new.start })
  | stays (f' : Follower) (hvote : f'.voteRecord = f.voteRecord)
      (hclock : f'.electionCdClock =
        if event = .leaderLeaseExpired then f.electionCdClock.start else f.electionCdClock)
      (hcountdown : event = .electionCountdownExpired →
        ctx.isLeaderLeaseExpired (env.clock 0) = false)
      (hsame : ctx.SameMember o.ctx) (hsilent : o.Silent) : Next f event ctx env o (.follower f')

variable {self : Follower} {event : PaxosEvent} {ctx : PaxosSharedContext} {env : Env}
  {s' : PaxosState}

/-- A Follower that answers a vote request grants the vote or keeps everything. -/
theorem vote_cases {command : PaxosCommand VoteRequest} {o : Outcome}
    (ho : o = .reply command.responseTx
      (.voteReply command.responseTx (self.handleVoteRequest command.request ctx env).2.1)
      (.follower (self.handleVoteRequest command.request ctx env).1)
      (self.handleVoteRequest command.request ctx env).2.2)
    (h : o.result = .ok s') :
    (self.MayPromise command.request ctx (env.clock 0) ∧
      o.ctx = ctx.extendLeaderLeaseExpiryTime (env.clock 1) ∧
      o.effects = [.voteReply command.responseTx ctx.promiseVote] ∧
      s' = .follower
        { self with voteRecord := some ⟨command.request.term, command.request.memberId⟩ }) ∨
    (o.ctx = ctx ∧ o.Silent ∧ s' = .follower self) := by
  subst ho
  obtain ⟨rfl, heffects⟩ := Outcome.reply_result h
  rcases self.handleVoteRequest_cases command.request ctx env with
    ⟨hmay, hans⟩ | ⟨_, rejection, hans⟩
  · rw [hans] at heffects ⊢
    exact Or.inl ⟨hmay, Outcome.reply_ctx, heffects, rfl⟩
  · rw [hans] at heffects ⊢
    exact Or.inr ⟨Outcome.reply_ctx, Outcome.silent_reply rfl, rfl⟩

theorem handleEvent_next (h : (self.handleEvent event ctx env).result = .ok s') :
    Next self event ctx env (self.handleEvent event ctx env) s' := by
  cases event with
  | voteRequestReceived command =>
    rcases vote_cases rfl h with ⟨hmay, hctx, hreply, rfl⟩ | ⟨hctx, hsilent, rfl⟩
    · exact .votes command rfl hmay hctx hreply
    · refine .stays self rfl (by simp) (by simp) ?_ hsilent
      rw [show (self.handleEvent (.voteRequestReceived command) ctx env).ctx = ctx from hctx]
      exact .refl ctx
  | electionCountdownExpired =>
    simp only [handleEvent, handleElectionCountdownExpired] at h ⊢
    cases hlease : ctx.isLeaderLeaseExpired (env.clock 0) with
    | false =>
      simp only [hlease, Bool.false_eq_true, not_false_eq_true, if_true] at h ⊢
      cases Except.ok.inj h
      exact .stays self rfl (by simp) (fun _ => hlease) (.refl ctx) Outcome.silent_ok
    | true =>
      simp only [hlease, not_true_eq_false, if_false, PreCandidate.dispatchPreVote] at h ⊢
      cases hsent : env.broadcasts with
      | false =>
        simp only [hsent] at h
        cases h
      | true =>
        simp only [hsent, if_true] at h ⊢
        cases Except.ok.inj h
        -- all that is sent is pre-vote requests
        refine .campaigns rfl hlease rfl ?_
        intro e he
        rw [List.mem_singleton.mp he]
        rfl
  | preVoteRequestReceived command =>
    obtain ⟨rfl, _⟩ := Outcome.reply_result h
    refine .stays self rfl (by simp) (by simp) ?_ (Outcome.silent_reply rfl)
    rw [handleEvent, Outcome.reply_ctx]
    exact .refl ctx
  | acceptRequestReceived command =>
    obtain ⟨rfl, _⟩ := Outcome.reply_result h
    refine .stays self rfl (by simp) (by simp) ?_ (Outcome.silent_reply rfl)
    rw [handleEvent, Outcome.reply_ctx]
    exact self.handleAcceptRequest_sameMember command.request ctx env
  | clientWriteRequestReceived command =>
    have hctx : (self.handleEvent (.clientWriteRequestReceived command) ctx env).ctx = ctx := by
      simp [handleEvent]
    cases Attempt.toOutcome_result h
    refine .stays self rfl (by simp) (by simp) (by rw [hctx]; exact .refl ctx) ?_
    exact PaxosState.silent_of_ne_vote (.follower self) (by simp)
  | leaderLeaseExpired =>
    cases Except.ok.inj h
    exact .stays _ rfl (by simp) (by simp) (.refl ctx) Outcome.silent_ok
  | preVoteResponseReceived response =>
    cases Except.ok.inj h
    have hkeep : (self.handlePreVoteResponse response ctx env).voteRecord = self.voteRecord ∧
        (self.handlePreVoteResponse response ctx env).electionCdClock = self.electionCdClock := by
      unfold handlePreVoteResponse
      repeat' split
      all_goals exact ⟨rfl, rfl⟩
    exact .stays _ hkeep.1 (by simpa using hkeep.2) (by simp) (.refl ctx) Outcome.silent_ok
  | voteResponseReceived response =>
    cases Except.ok.inj h
    have hkeep : (self.handleVoteResponse response ctx env).voteRecord = self.voteRecord ∧
        (self.handleVoteResponse response ctx env).electionCdClock = self.electionCdClock := by
      unfold handleVoteResponse
      repeat' split
      all_goals exact ⟨rfl, rfl⟩
    exact .stays _ hkeep.1 (by simpa using hkeep.2) (by simp) (.refl ctx) Outcome.silent_ok
  | _ =>
    cases Except.ok.inj h
    exact .stays self rfl (by simp) (by simp) (.refl ctx) Outcome.silent_ok

end Follower

/-- An accept request leaves a campaign as it is, or makes the member follow its sender. -/
theorem stepDownOnAccept_result {stay s' : PaxosState} {command : PaxosCommand AcceptRequest}
    {ctx : PaxosSharedContext} {env : Env}
    (h : (stepDownOnAccept stay command ctx env).result = .ok s') :
    (s' = stay ∧ (stepDownOnAccept stay command ctx env).ctx = ctx) ∨
    (s' = .follower (Follower.new (some command.request.leaderId)) ∧
      ctx.term ≤ command.request.term ∧
      ctx.SameMember (stepDownOnAccept stay command ctx env).ctx) := by
  unfold stepDownOnAccept at h ⊢
  split at h
  · rename_i hterm
    rw [if_pos hterm]
    exact Or.inl ⟨(Outcome.reply_result h).1, Outcome.reply_ctx⟩
  · rename_i hterm
    rw [if_neg hterm]
    refine Or.inr ⟨(Outcome.reply_result h).1, Nat.le_of_not_lt hterm, ?_⟩
    rw [Outcome.reply_ctx]
    exact Follower.handleAcceptRequest_sameMember _ _ _ _

namespace PreCandidate

/-- Where an event leads a PreCandidate. -/
inductive Next (p : PreCandidate) (event : PaxosEvent) (ctx : PaxosSharedContext) (env : Env)
    (o : Outcome) : PaxosState → Prop
  | votes (command : PaxosCommand VoteRequest) (hevent : event = .voteRequestReceived command)
      (hmay : p.MayPromise command.request ctx) (hctx : o.ctx = ctx)
      (hreply : o.effects = [.voteReply command.responseTx ctx.promiseVote]) :
      Next p event ctx env o (.preCandidate
        { p with votedForId := some (command.request.term, command.request.memberId) })
  | wins (response : PreVoteResponse) (hevent : event = .preVoteResponseReceived response)
      (hquorum : (p.updatePreVoteBoard response).hasPreVoteQuorum = true)
      (hctx : o.ctx = { ctx with term := ctx.term + 1 }) (hsilent : o.Silent) :
      Next p event ctx env o
        (.candidate ((Candidate.new ctx).dispatchVote { ctx with term := ctx.term + 1 } env).state)
  | loses (hevent : event = .preVoteCampaignExpired ∨ ∃ response,
        event = .preVoteResponseReceived response ∧
        (p.updatePreVoteBoard response).hasPreVoteQuorum = false ∧
        (p.updatePreVoteBoard response).hasAllPreVoteResponses = true)
      (hctx : o.ctx = ctx) (hsilent : o.Silent) :
      Next p event ctx env o (.follower (Follower.new none))
  | yields (command : PaxosCommand AcceptRequest) (hevent : event = .acceptRequestReceived command)
      (hterm : ctx.term ≤ command.request.term) (hsame : ctx.SameMember o.ctx)
      (hsilent : o.Silent) :
      Next p event ctx env o (.follower (Follower.new (some command.request.leaderId)))
  | stays (p' : PreCandidate) (hvote : p'.votedForId = p.votedForId) (hctx : o.ctx = ctx)
      (hsilent : o.Silent) : Next p event ctx env o (.preCandidate p')

variable {self : PreCandidate} {event : PaxosEvent} {ctx : PaxosSharedContext} {env : Env}
  {s' : PaxosState}

theorem handleEvent_next (h : (self.handleEvent event ctx env).result = .ok s') :
    Next self event ctx env (self.handleEvent event ctx env) s' := by
  cases event with
  | voteRequestReceived command =>
    obtain ⟨rfl, heffects⟩ := Outcome.reply_result h
    have hctx : (self.handleEvent (.voteRequestReceived command) ctx env).ctx = ctx :=
      Outcome.reply_ctx
    change (self.handleEvent (.voteRequestReceived command) ctx env).effects =
      [.voteReply command.responseTx (self.handleVoteRequest command.request ctx).2] at heffects
    change Next _ _ _ _ _ (.preCandidate (self.handleVoteRequest command.request ctx).1)
    rcases self.handleVoteRequest_cases command.request ctx with
      ⟨hmay, hans⟩ | ⟨_, rejection, hans⟩
    · rw [hans] at heffects ⊢
      exact .votes command rfl hmay hctx heffects
    · rw [hans] at heffects ⊢
      refine .stays self rfl hctx ?_
      intro e he
      rw [heffects, List.mem_singleton] at he
      rw [he]
      rfl
  | preVoteResponseReceived response =>
    have hsilent : (self.handleEvent (.preVoteResponseReceived response) ctx env).Silent :=
      PaxosState.silent_of_ne_vote (.preCandidate self) (by simp)
    simp only [handleEvent, handlePreVoteResponse] at h hsilent ⊢
    split at h
    · rename_i hquorum
      simp only [hquorum, if_true] at hsilent ⊢
      cases Attempt.toOutcome_result h
      exact .wins response rfl hquorum (by simp) hsilent
    · rename_i hquorum
      rw [if_neg hquorum] at hsilent ⊢
      split at h
      · rename_i hall
        rw [if_pos hall] at hsilent ⊢
        cases Except.ok.inj h
        exact .loses (Or.inr ⟨response, rfl, by simpa using hquorum, hall⟩) rfl hsilent
      · rename_i hall
        rw [if_neg hall] at hsilent ⊢
        cases Except.ok.inj h
        exact .stays _ rfl rfl hsilent
  | acceptRequestReceived command =>
    have hsilent : (self.handleEvent (.acceptRequestReceived command) ctx env).Silent :=
      PaxosState.silent_of_ne_vote (.preCandidate self) (by simp)
    rcases stepDownOnAccept_result h with ⟨rfl, hctx⟩ | ⟨rfl, hterm, hsame⟩
    · exact .stays self rfl hctx hsilent
    · exact .yields command rfl hterm hsame hsilent
  | preVoteRequestReceived command =>
    obtain ⟨rfl, _⟩ := Outcome.reply_result h
    exact .stays self rfl Outcome.reply_ctx (Outcome.silent_reply rfl)
  | preVoteCampaignExpired =>
    cases Except.ok.inj h
    exact .loses (Or.inl rfl) rfl Outcome.silent_ok
  | clientWriteRequestReceived command =>
    cases Except.ok.inj h
    exact .stays self rfl rfl
      (PaxosState.silent_of_ne_vote (.preCandidate self) (by simp))
  | _ =>
    cases Except.ok.inj h
    exact .stays self rfl rfl Outcome.silent_ok

end PreCandidate
namespace Candidate

/-- Where an event leads a Candidate. -/
inductive Next (c : Candidate) (event : PaxosEvent) (ctx : PaxosSharedContext) (o : Outcome) :
    PaxosState → Prop
  | wins (response : VoteResponse) (c' : Candidate) (l : Leader)
      (hevent : event = .voteResponseReceived response)
      (hrecord : c.recordVote response ctx = some c') (hquorum : c'.hasVoteQuorum = true)
      (hsame : ctx.SameMember o.ctx) (hsilent : o.Silent) : Next c event ctx o (.leader l)
  | late (response : VoteResponse) (hevent : event = .voteResponseReceived response)
      (hsame : ctx.SameMember o.ctx) (hlease : o.ctx.leaseExpiry ≠ none) (hsilent : o.Silent) :
      Next c event ctx o (.follower (Follower.new none))
  | loses (hevent : event = .voteCampaignExpired ∨ ∃ response c',
        event = .voteResponseReceived response ∧ c.recordVote response ctx = some c' ∧
        c'.hasVoteQuorum = false ∧ c'.hasAllVoteResponses = true)
      (hctx : o.ctx = ctx) (hsilent : o.Silent) :
      Next c event ctx o (.follower (Follower.new none))
  | yields (command : PaxosCommand AcceptRequest) (hevent : event = .acceptRequestReceived command)
      (hterm : ctx.term ≤ command.request.term) (hsame : ctx.SameMember o.ctx)
      (hsilent : o.Silent) :
      Next c event ctx o (.follower (Follower.new (some command.request.leaderId)))
  | stays (c' : Candidate) (hboard : c' = c ∨ ∃ response,
        event = .voteResponseReceived response ∧ c.recordVote response ctx = some c' ∧
        c'.hasVoteQuorum = false)
      (hctx : o.ctx = ctx) (hsilent : o.Silent) : Next c event ctx o (.candidate c')

variable {self : Candidate} {event : PaxosEvent} {ctx : PaxosSharedContext} {env : Env}
  {s' : PaxosState}

theorem becomeLeader_result (h : (self.becomeLeader ctx env).result = .ok s') :
    ∃ l, s' = .leader l :=
  ⟨_, Attempt.toOutcome_result h⟩

theorem becomeLeader_sameMember : ctx.SameMember (self.becomeLeader ctx env).ctx := by
  rw [becomeLeader, Attempt.toOutcome_ctx]
  have hflush : ctx.SameMember (self.flushUncommittedLogs ctx) := ⟨rfl, rfl, rfl, id⟩
  exact hflush.trans (Leader.processUncommittedLogs_sameMember _ _ _)

theorem handleEvent_next (h : (self.handleEvent event ctx env).result = .ok s') :
    Next self event ctx (self.handleEvent event ctx env) s' := by
  have hsilent : (self.handleEvent event ctx env).Silent := by
    intro e he
    exact PaxosState.promise_of_candidate self he
  cases event with
  | voteResponseReceived response =>
    simp only [handleEvent, handleVoteResponse] at h hsilent ⊢
    cases hrecord : self.recordVote response ctx with
    | none =>
      rw [hrecord] at h
      cases h
    | some c' =>
      simp only [hrecord] at h hsilent ⊢
      split at h
      · rename_i hquorum
        rw [if_pos hquorum] at hsilent ⊢
        cases hdispatch : c'.voteDispatchTime with
        | none =>
          rw [hdispatch] at h
          cases h
        | some dispatchTime =>
          simp only [hdispatch] at h hsilent ⊢
          split at h
          · rename_i hlate
            rw [if_pos hlate] at hsilent ⊢
            cases Except.ok.inj h
            exact .late response rfl (.updateLease ctx _) (Option.some_ne_none _) hsilent
          · rename_i hlate
            rw [if_neg hlate] at hsilent ⊢
            obtain ⟨l, rfl⟩ := becomeLeader_result h
            exact .wins response c' l rfl hrecord hquorum
              ((PaxosSharedContext.SameMember.updateLease ctx _).trans becomeLeader_sameMember)
              hsilent
      · rename_i hquorum
        rw [if_neg hquorum] at hsilent ⊢
        split at h
        · rename_i hall
          rw [if_pos hall] at hsilent ⊢
          cases Except.ok.inj h
          exact .loses (Or.inr ⟨response, c', rfl, hrecord, by simpa using hquorum, hall⟩) rfl
            hsilent
        · rename_i hall
          rw [if_neg hall] at hsilent ⊢
          cases Except.ok.inj h
          exact .stays c' (Or.inr ⟨response, rfl, hrecord, by simpa using hquorum⟩) rfl hsilent
  | acceptRequestReceived command =>
    rcases stepDownOnAccept_result h with ⟨rfl, hctx⟩ | ⟨rfl, hterm, hsame⟩
    · exact .stays self (Or.inl rfl) hctx hsilent
    · exact .yields command rfl hterm hsame hsilent
  | preVoteRequestReceived command =>
    obtain ⟨rfl, _⟩ := Outcome.reply_result h
    exact .stays self (Or.inl rfl) Outcome.reply_ctx hsilent
  | voteRequestReceived command =>
    obtain ⟨rfl, _⟩ := Outcome.reply_result h
    exact .stays self (Or.inl rfl) Outcome.reply_ctx hsilent
  | voteCampaignExpired =>
    cases Except.ok.inj h
    exact .loses (Or.inl rfl) rfl hsilent
  | _ =>
    cases Except.ok.inj h
    exact .stays self (Or.inl rfl) rfl hsilent

end Candidate

namespace Leader

/-- The events that end a leader's role. -/
def stepsDown (event : PaxosEvent) (ctx : PaxosSharedContext) (env : Env) : Bool :=
  match event with
  | .leaderLeaseExpired => true
  | .preVoteRequestReceived _ => !ctx.isLeaderLeaseExpired (env.clock 0)
  | .preVoteResponseReceived response =>
    decide (ctx.term ≤ response.term) && ctx.isLeaderLeaseExpired (env.clock 0)
  | .voteResponseReceived response =>
    decide (ctx.term ≤ response.term) && ctx.isLeaderLeaseExpired (env.clock 0)
  | .voteRequestReceived _ | .acceptRequestReceived _ => ctx.isLeaderLeaseExpired (env.clock 0)
  | _ => false

/-- Where an event leads a Leader. -/
inductive Next (event : PaxosEvent) (ctx : PaxosSharedContext) (env : Env) (o : Outcome) :
    PaxosState → Prop
  | votes (command : PaxosCommand VoteRequest) (hevent : event = .voteRequestReceived command)
      (hmay : (Follower.new none).MayPromise command.request ctx (env.clock 1))
      (hctx : o.ctx = ctx.extendLeaderLeaseExpiryTime (env.clock 2))
      (hreply : o.effects = [.voteReply command.responseTx ctx.promiseVote]) :
      Next event ctx env o (.follower { Follower.new none with
        voteRecord := some ⟨command.request.term, command.request.memberId⟩ })
  | retires (leaderId : Option Uuid) (hdown : stepsDown event ctx env = true)
      (hsame : ctx.SameMember o.ctx) (hsilent : o.Silent) :
      Next event ctx env o (.follower (Follower.new leaderId))
  | stays (l : Leader) (hsame : ctx.SameMember o.ctx) (hsilent : o.Silent) :
      Next event ctx env o (.leader l)

variable {self : Leader} {event : PaxosEvent} {ctx : PaxosSharedContext} {env : Env}
  {s' : PaxosState}

/-- Passing a method's fault on or staying the leader it leaves. -/
theorem stay_result {a : Attempt (Leader × PaxosSharedContext)}
    (h : (handleEvent.stay a).result = .ok s') : s' = .leader a.state.1 :=
  Attempt.toOutcome_result h

theorem stepDownOn_eq_some {term : Nat} {leaderId : Option Uuid} {f : Follower}
    (h : stepDownOn term leaderId ctx env = some f) :
    f = Follower.new leaderId ∧ ctx.term ≤ term ∧
      ctx.isLeaderLeaseExpired (env.clock 0) = true := by
  unfold stepDownOn at h
  split at h
  · cases h
  · split at h
    · cases h
    · rename_i hterm hlease
      exact ⟨(Option.some.inj h).symm, by omega, by simpa using hlease⟩

/-- A method that keeps the member leaves the leader in its role. -/
theorem Next.of_stay {a : Attempt (Leader × PaxosSharedContext)}
    (h : (handleEvent.stay a).result = .ok s') (hsame : ctx.SameMember a.state.2)
    (hsilent : (handleEvent.stay a).Silent) : Next event ctx env (handleEvent.stay a) s' := by
  rw [stay_result h]
  refine .stays _ ?_ hsilent
  rw [handleEvent.stay, Attempt.toOutcome_ctx]
  exact hsame

/-- A response to a vote or pre-vote request retires the leader, or leaves it as it is. -/
theorem Next.of_stepDownOn {term : Nat} {leaderId : Option Uuid} {o : Outcome}
    (hevent : stepsDown event ctx env =
      (decide (ctx.term ≤ term) && ctx.isLeaderLeaseExpired (env.clock 0)))
    (ho : o = match stepDownOn term leaderId ctx env with
      | some follower => .ok (.follower follower) ctx []
      | none => .ok (.leader self) ctx [])
    (h : o.result = .ok s') : Next event ctx env o s' := by
  cases hdown : stepDownOn term leaderId ctx env with
  | none =>
    rw [hdown] at ho
    subst ho
    cases Except.ok.inj h
    exact .stays self (.refl ctx) Outcome.silent_ok
  | some f =>
    rw [hdown] at ho
    subst ho
    cases Except.ok.inj h
    obtain ⟨rfl, hterm, hlease⟩ := stepDownOn_eq_some hdown
    exact .retires _ (by simp [hevent, hterm, hlease]) (.refl ctx) Outcome.silent_ok

theorem handleEvent_next (h : (self.handleEvent event ctx env).result = .ok s') :
    Next event ctx env (self.handleEvent event ctx env) s' := by
  have hsilent : (∀ command, event ≠ .voteRequestReceived command) →
      (self.handleEvent event ctx env).Silent :=
    PaxosState.silent_of_ne_vote (.leader self)
  cases event with
  | voteRequestReceived command =>
    simp only [handleEvent] at h ⊢
    split at h
    · rename_i hlease
      rw [if_pos hlease]
      rcases Follower.vote_cases rfl h with ⟨hmay, hctx, hreply, rfl⟩ | ⟨hctx, hsilent, rfl⟩
      · exact .votes command rfl hmay hctx hreply
      · exact .retires none hlease (by rw [hctx]; exact .refl ctx) hsilent
    · rename_i hlease
      rw [if_neg hlease]
      obtain ⟨rfl, _⟩ := Outcome.reply_result h
      exact .stays self (by rw [Outcome.reply_ctx]; exact .refl ctx) (Outcome.silent_reply rfl)
  | preVoteRequestReceived command =>
    have hsilent := hsilent (by simp)
    simp only [handleEvent] at h hsilent ⊢
    split at h
    · rename_i hlease
      rw [if_pos hlease] at hsilent ⊢
      obtain ⟨rfl, _⟩ := Outcome.reply_result h
      refine .retires none (by simpa [stepsDown] using hlease) ?_ hsilent
      rw [Outcome.reply_ctx]
      exact .refl ctx
    · rename_i hlease
      rw [if_neg hlease] at hsilent ⊢
      obtain ⟨rfl, _⟩ := Outcome.reply_result h
      exact .stays self (by rw [Outcome.reply_ctx]; exact .refl ctx) hsilent
  | acceptRequestReceived command =>
    have hsilent := hsilent (by simp)
    simp only [handleEvent] at h hsilent ⊢
    split at h
    · rename_i hlease
      rw [if_pos hlease] at hsilent ⊢
      obtain ⟨rfl, _⟩ := Outcome.reply_result h
      refine .retires _ hlease ?_ hsilent
      rw [Outcome.reply_ctx]
      exact Follower.handleAcceptRequest_sameMember _ _ _ _
    · rename_i hlease
      rw [if_neg hlease] at hsilent ⊢
      cases Except.ok.inj h
      exact .stays self (.refl ctx) hsilent
  | preVoteResponseReceived response => exact .of_stepDownOn rfl rfl h
  | voteResponseReceived response => exact .of_stepDownOn rfl rfl h
  | acceptResponseReceived response =>
    exact .of_stay h (handleAcceptResponse_sameMember _ _ _ _) (hsilent (by simp))
  | clientWriteRequestReceived command =>
    exact .of_stay h ⟨rfl, rfl, rfl, id⟩ (hsilent (by simp))
  | writeFlushTimerFired =>
    refine .of_stay h ?_ (hsilent (by simp))
    rw [handleWriteFlush]
    split <;> exact .refl ctx
  | heartbeatTimerFired => exact .of_stay h (.advanceTSafe ctx _) (hsilent (by simp))
  | leaderLeaseExpired =>
    cases Except.ok.inj h
    exact .retires none rfl (.refl ctx) Outcome.silent_ok
  | _ =>
    cases Except.ok.inj h
    exact .stays _ (.refl ctx) Outcome.silent_ok

end Leader
namespace PaxosState
variable {self : PaxosState} {event : PaxosEvent} {ctx : PaxosSharedContext} {env : Env}

/-- A Candidate has just won its pre-vote, or was one and has recorded at most
one more response. -/
theorem candidate_of_handleEvent {c : Candidate}
    (h : (self.handleEvent event ctx env).result = .ok (.candidate c)) :
    (∃ p response, self = .preCandidate p ∧ event = .preVoteResponseReceived response ∧
      (p.updatePreVoteBoard response).hasPreVoteQuorum = true ∧
      (self.handleEvent event ctx env).ctx = { ctx with term := ctx.term + 1 } ∧
      c = ((Candidate.new ctx).dispatchVote { ctx with term := ctx.term + 1 } env).state) ∨
    (∃ c₀, self = .candidate c₀ ∧ (self.handleEvent event ctx env).ctx = ctx ∧
      (c = c₀ ∨ ∃ response, event = .voteResponseReceived response ∧
        c₀.recordVote response ctx = some c)) := by
  cases self with
  | follower f => cases Follower.handleEvent_next h
  | preCandidate p =>
    cases PreCandidate.handleEvent_next h with
    | wins response hevent hquorum hctx hsilent =>
      exact Or.inl ⟨p, response, rfl, hevent, hquorum, hctx, rfl⟩
  | candidate c₀ =>
    cases Candidate.handleEvent_next h with
    | stays c' hboard hctx hsilent =>
      refine Or.inr ⟨c₀, rfl, hctx, ?_⟩
      rcases hboard with heq | ⟨response, hevent, hrecord, _⟩
      · exact Or.inl heq
      · exact Or.inr ⟨response, hevent, hrecord⟩
  | leader l => cases Leader.handleEvent_next h

/-- A Leader has just won a vote quorum, or was one. -/
theorem leader_of_handleEvent {l : Leader}
    (h : (self.handleEvent event ctx env).result = .ok (.leader l)) :
    ctx.SameMember (self.handleEvent event ctx env).ctx ∧
      ((∃ c c' response, self = .candidate c ∧ event = .voteResponseReceived response ∧
        c.recordVote response ctx = some c' ∧ c'.hasVoteQuorum = true) ∨
      ∃ l₀, self = .leader l₀) := by
  cases self with
  | follower f => cases Follower.handleEvent_next h
  | preCandidate p => cases PreCandidate.handleEvent_next h
  | candidate c =>
    cases Candidate.handleEvent_next h with
    | wins response c' l hevent hrecord hquorum hsame hsilent =>
      exact ⟨hsame, Or.inl ⟨c, c', response, rfl, hevent, hrecord, hquorum⟩⟩
  | leader l₀ =>
    cases Leader.handleEvent_next h with
    | stays l hsame hsilent => exact ⟨hsame, Or.inr ⟨l₀, rfl⟩⟩

/-- **A member stays the same member**: only a won pre-vote changes the term. -/
theorem sameMember_of_handleEvent {s' : PaxosState}
    (h : (self.handleEvent event ctx env).result = .ok s') :
    ctx.SameMember (self.handleEvent event ctx env).ctx ∨
      (self.handleEvent event ctx env).ctx = { ctx with term := ctx.term + 1 } := by
  have hkept : (self.handleEvent event ctx env).ctx = ctx →
      ctx.SameMember (self.handleEvent event ctx env).ctx := fun heq => by
    rw [heq]
    exact .refl ctx
  cases self with
  | follower f =>
    cases Follower.handleEvent_next h with
    | votes _ _ _ hctx =>
      refine Or.inl ?_
      change ctx.SameMember (f.handleEvent event ctx env).ctx
      rw [hctx]
      exact .updateLease ctx _
    | campaigns _ _ hctx => exact Or.inl (hkept hctx)
    | stays _ _ _ _ hsame => exact Or.inl hsame
  | preCandidate p =>
    cases PreCandidate.handleEvent_next h with
    | votes _ _ _ hctx => exact Or.inl (hkept hctx)
    | wins _ _ _ hctx => exact Or.inr hctx
    | loses _ hctx => exact Or.inl (hkept hctx)
    | yields _ _ _ hsame => exact Or.inl hsame
    | stays _ _ hctx => exact Or.inl (hkept hctx)
  | candidate c =>
    cases Candidate.handleEvent_next h with
    | wins _ _ _ _ _ _ hsame => exact Or.inl hsame
    | late _ _ hsame => exact Or.inl hsame
    | loses _ hctx => exact Or.inl (hkept hctx)
    | yields _ _ _ hsame => exact Or.inl hsame
    | stays _ _ hctx => exact Or.inl (hkept hctx)
  | leader l =>
    cases Leader.handleEvent_next h with
    | votes _ _ _ hctx =>
      refine Or.inl ?_
      change ctx.SameMember (l.handleEvent event ctx env).ctx
      rw [hctx]
      exact .updateLease ctx _
    | retires _ _ hsame => exact Or.inl hsame
    | stays _ hsame => exact Or.inl hsame

/-- A lease that is set stays set: only the lease watcher clears it. -/
theorem leaseSet_of_handleEvent {s' : PaxosState}
    (h : (self.handleEvent event ctx env).result = .ok s') (hset : ctx.leaseExpiry ≠ none) :
    (self.handleEvent event ctx env).ctx.leaseExpiry ≠ none := by
  rcases sameMember_of_handleEvent h with hsame | hctx
  · exact hsame.leaseSet hset
  · rw [hctx]
    exact hset

/-- The group of a member never changes. -/
theorem peerIds_of_handleEvent {s' : PaxosState}
    (h : (self.handleEvent event ctx env).result = .ok s') :
    (self.handleEvent event ctx env).ctx.peerIds = ctx.peerIds := by
  rcases sameMember_of_handleEvent h with hsame | hctx
  · exact hsame.peerIds
  · rw [hctx]

/-- An event that does not leave a Follower has gone to the role's own handler: an
adopted term makes a Follower first, and only the countdown takes it further. -/
theorem processEvent_of_not_follower {s' : PaxosState}
    (h : (self.processEvent event ctx false env).result = .ok s')
    (hs : ∀ f, s' ≠ .follower f) :
    self.processEvent event ctx false env = self.handleEvent event ctx env := by
  rw [processEvent_eq] at h ⊢
  rcases self.adoptTerm_cases event ctx with hkept | ⟨term, hterm, _, hadopt⟩
  · rw [hkept]
  · rw [hadopt] at h
    cases Follower.handleEvent_next h with
    | votes command => exact absurd rfl (hs _)
    | campaigns hevent =>
      rw [hevent] at hterm
      cases hterm
    | stays f' => exact absurd rfl (hs _)

end PaxosState
end SpannerPaxos
