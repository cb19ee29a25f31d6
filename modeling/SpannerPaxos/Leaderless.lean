import SpannerPaxos.Group
import SpannerPaxos.MessageTerms
import SpannerPaxos.Wakeup

/-! # A member that nobody leads

A Follower learns of a leader from a message only: an accept request, or a rejection
that reports one.  A member that has never been told of one refuses every client write,
writes nothing to its log, and sends nothing from which anybody else could learn of a
leader.
-/
namespace SpannerPaxos

/-- The answer to a client write that reaches nobody who knows a leader. -/
def ClientWriteResponse.noActiveLeader : ClientWriteResponse :=
  ⟨false, some "no active leader in the current Paxos group, rejecting incoming write request"⟩

/-- The rejection reports no leader. -/
def VoteResponse.Leaderless (response : VoteResponse) : Prop :=
  ∃ rejection, response.outcome = .rejection rejection ∧ rejection.currentLeaderId = none

/-- The event comes from no leader and reports none. -/
def PaxosEvent.Leaderless : PaxosEvent → Prop
  | acceptRequestReceived _ => False
  | preVoteResponseReceived response => response.currentLeaderId = none
  | voteResponseReceived response => response.Leaderless
  | _ => True

/-- What a member that nobody leads shows: no leader, no write, and a pre-vote granted only
to a log whose last term its own term has not passed. -/
def Effect.Leaderless (role : PaxosState) (event : PaxosEvent) (ctx : PaxosSharedContext) :
    Effect → Prop
  | .preVoteReply _ response => response.currentLeaderId = none ∧
    (response.voteGranted = true → ∃ command, event = .preVoteRequestReceived command ∧
      ctx.term ≤ command.request.lastLogTerm)
  | .voteReply _ response => response.Leaderless
  | .clientReply _ response => response = .noActiveLeader
  | .dispatchPreVote request =>
    request.lastLogTerm = ctx.lastLogTerm ∧ event = .electionCountdownExpired
  | .dispatchVote _ => role.WinsPreVote event
  | .acceptReply _ _ | .dispatchAccept _ _ | .dispatchClientWrite _ _ _ | .signalWriteFlush =>
    False

namespace PaxosState

/-- The role does not lead, knows no leader and has been promised no vote. -/
structure Unled (role : PaxosState) : Prop where
  noLeader : ∀ l, role ≠ .leader l
  leaderId : role.getLeaderId = none
  board : ∀ c, role = .candidate c → Group.Unpromised c

theorem Unled.follower {f : Follower} (h : f.currentLeaderId = none) : Unled (.follower f) where
  noLeader := nofun
  leaderId := h
  board := nofun

theorem Unled.preCandidate (p : PreCandidate) : Unled (.preCandidate p) where
  noLeader := nofun
  leaderId := rfl
  board := nofun

theorem Unled.candidate {c : Candidate} (h : Group.Unpromised c) : Unled (.candidate c) where
  noLeader := nofun
  leaderId := rfl
  board _ hc := by
    cases hc
    exact h

end PaxosState

/-- Handling the event leaves the member without a leader, and shows nobody one: it has at
most one thing to say, and of the context only the term moves. -/
structure Outcome.Leaderless (o : Outcome) (role : PaxosState) (event : PaxosEvent)
    (ctx : PaxosSharedContext) : Prop where
  next : ∀ s', o.result = .ok s' → s'.Unled
  effects : ∀ e ∈ o.effects, e.Leaderless role event ctx
  single : o.effects.length ≤ 1
  ctx : o.ctx = { ctx with term := o.ctx.term }

namespace Outcome
variable {role s' : PaxosState} {event : PaxosEvent} {ctx : PaxosSharedContext}
  {tx : ReplyChannel} {effect : Effect}

theorem leaderless_ok (hs : s'.Unled) : (ok s' ctx []).Leaderless role event ctx where
  next _ h := by
    cases h
    exact hs
  effects _ he := absurd he List.not_mem_nil
  single := Nat.zero_le _
  ctx := rfl

theorem leaderless_reply (hs : s'.Unled) (heffect : effect.Leaderless role event ctx) :
    (reply tx effect s' ctx).Leaderless role event ctx where
  next _ h := by
    rw [(reply_result h).1]
    exact hs
  effects e he := by
    rw [eq_of_mem_reply he]
    exact heffect
  single := by
    unfold reply
    split
    · exact Nat.le_refl 1
    · exact Nat.zero_le 1
  ctx := by rw [reply_ctx]

end Outcome

variable {event : PaxosEvent} {ctx : PaxosSharedContext} {env : Env}

/-- A refused client write. -/
theorem leaderless_refusal {role s' : PaxosState} {tx : ReplyChannel} (hs : s'.Unled) :
    (Outcome.ok s' ctx (sendIgnoring tx (.clientReply tx .noActiveLeader))).Leaderless role event
      ctx where
  next _ h := by
    cases h
    exact hs
  effects e he := by
    rw [eq_of_mem_sendIgnoring he]
    rfl
  single := by
    unfold Outcome.ok sendIgnoring
    split
    · exact Nat.le_refl 1
    · exact Nat.zero_le 1
  ctx := rfl

/-! ## The roles -/

namespace Follower
variable {self : Follower}

variable (ctx env) in
/-- A pre-vote this Follower answers. -/
theorem handlePreVoteRequest_leaderless (hself : self.currentLeaderId = none)
    (request : PreVoteRequest) :
    (self.handlePreVoteRequest request ctx env).currentLeaderId = none ∧
      ((self.handlePreVoteRequest request ctx env).voteGranted = true →
        ctx.term ≤ request.lastLogTerm) := by
  unfold handlePreVoteRequest PaxosSharedContext.rejectPreVote
  split
  · exact ⟨hself, nofun⟩
  · split
    · exact ⟨hself, nofun⟩
    · split
      · exact ⟨hself, nofun⟩
      · rename_i hterm
        split
        · exact ⟨hself, nofun⟩
        · exact ⟨rfl, fun _ => Nat.le_of_not_lt hterm⟩

variable (ctx env) in
/-- A vote request of no larger term is turned down. -/
theorem handleVoteRequest_leaderless (hself : self.currentLeaderId = none)
    {request : VoteRequest} (hterm : request.term ≤ ctx.term) :
    ∃ response, response.Leaderless ∧
      self.handleVoteRequest request ctx env = (self, response, ctx) := by
  unfold handleVoteRequest
  split
  · exact ⟨_, ⟨_, rfl, hself⟩, rfl⟩
  · split
    · exact ⟨_, ⟨_, rfl, hself⟩, rfl⟩
    · exact ⟨_, ⟨_, rfl, hself⟩, rfl⟩

/-- Responses that report no leader tell a Follower nothing. -/
theorem handlePreVoteResponse_leaderless {response : PreVoteResponse}
    (hresponse : response.currentLeaderId = none) :
    self.handlePreVoteResponse response ctx env = self := by
  unfold handlePreVoteResponse PreVoteResponse.tryGetLeader
  rw [hresponse]
  simp

theorem handleVoteResponse_leaderless {response : VoteResponse} (hresponse : response.Leaderless) :
    self.handleVoteResponse response ctx env = self := by
  obtain ⟨rejection, houtcome, hleader⟩ := hresponse
  unfold handleVoteResponse VoteResponse.tryGetLeader
  simp [houtcome, hleader]

theorem handleEvent_leaderless (hself : self.currentLeaderId = none) (hevent : event.Leaderless)
    (hterm : ∀ t, event.getTerm = some t → t ≤ ctx.term) :
    (self.handleEvent event ctx env).Leaderless (.follower self) event ctx := by
  cases event with
  | leaderLeaseExpired => exact Outcome.leaderless_ok (.follower hself)
  | electionCountdownExpired =>
    simp only [handleEvent, handleElectionCountdownExpired]
    cases hlease : ctx.isLeaderLeaseExpired (env.clock 0) with
    | false => exact Outcome.leaderless_ok (.follower hself)
    | true =>
      simp only [not_true_eq_false, if_false, PreCandidate.dispatchPreVote]
      have heffects : ∀ e ∈ [Effect.dispatchPreVote ctx.createPreVote],
          e.Leaderless (.follower self) .electionCountdownExpired ctx := by
        intro e he
        rw [List.mem_singleton.mp he]
        exact ⟨rfl, rfl⟩
      cases env.broadcasts with
      | false =>
        refine ⟨?_, heffects, Nat.le_refl 1, rfl⟩
        intro s' h
        cases h
      | true =>
        refine ⟨?_, heffects, Nat.le_refl 1, rfl⟩
        intro s' h
        cases h
        exact .preCandidate _
  | preVoteRequestReceived command =>
    obtain ⟨hleader, hgranted⟩ :=
      handlePreVoteRequest_leaderless ctx env hself command.request
    exact Outcome.leaderless_reply (.follower hself) ⟨hleader, fun h => ⟨command, rfl, hgranted h⟩⟩
  | preVoteResponseReceived response =>
    simp only [handleEvent, handlePreVoteResponse_leaderless hevent]
    exact Outcome.leaderless_ok (.follower hself)
  | voteRequestReceived command =>
    obtain ⟨response, hresponse, hans⟩ :=
      handleVoteRequest_leaderless ctx env hself (hterm command.request.term rfl)
    simp only [handleEvent, hans]
    exact Outcome.leaderless_reply (.follower hself) hresponse
  | voteResponseReceived response =>
    simp only [handleEvent, handleVoteResponse_leaderless hevent]
    exact Outcome.leaderless_ok (.follower hself)
  | acceptRequestReceived command => exact hevent.elim
  | clientWriteRequestReceived command =>
    have hrefuse : self.handleEvent (.clientWriteRequestReceived command) ctx env =
        .ok (.follower self) ctx
          (sendIgnoring command.responseTx (.clientReply command.responseTx .noActiveLeader)) := by
      simp only [handleEvent, handleClientWrite, hself]
      rfl
    rw [hrefuse]
    exact leaderless_refusal (.follower hself)
  | _ => exact Outcome.leaderless_ok (.follower hself)

end Follower

variable (ctx) in
/-- A pre-vote that a campaign role answers. -/
theorem handlePreVoteRequest_leaderless (request : PreVoteRequest) :
    (handlePreVoteRequest request ctx).currentLeaderId = none ∧
      ((handlePreVoteRequest request ctx).voteGranted = true →
        ctx.term ≤ request.lastLogTerm) := by
  unfold handlePreVoteRequest PaxosSharedContext.rejectPreVote
  split
  · exact ⟨rfl, nofun⟩
  · split
    · exact ⟨rfl, nofun⟩
    · rename_i hterm
      split
      · exact ⟨rfl, nofun⟩
      · exact ⟨rfl, fun _ => Nat.le_of_not_lt hterm⟩

namespace PreCandidate
variable {self : PreCandidate}

variable (self) in
theorem handleVoteRequest_leaderless {request : VoteRequest} (hterm : request.term ≤ ctx.term) :
    ∃ response, response.Leaderless ∧ self.handleVoteRequest request ctx = (self, response) := by
  unfold handleVoteRequest
  split
  · exact ⟨_, ⟨_, rfl, rfl⟩, rfl⟩
  · rw [if_pos hterm]
    exact ⟨_, ⟨_, rfl, rfl⟩, rfl⟩

/-- A pre-vote that is won sends vote requests; the member goes on as a Candidate without a
Promise. -/
theorem dispatchVote_leaderless {response : PreVoteResponse}
    (hquorum : (self.updatePreVoteBoard response).hasPreVoteQuorum = true)
    (hpeers : 1 ≤ ctx.peerIds.length) :
    (((Candidate.new ctx).dispatchVote { ctx with term := ctx.term + 1 } env).map fun candidate =>
      (PaxosState.candidate candidate, { ctx with term := ctx.term + 1 })).toOutcome.Leaderless
      (.preCandidate self) (.preVoteResponseReceived response) ctx := by
  refine ⟨?_, ?_, ?_, ?_⟩
  · intro s' h
    rw [Attempt.toOutcome_result h]
    exact .candidate (.new hpeers)
  · intro e he
    have hvote : e = .dispatchVote { ctx with term := ctx.term + 1 }.createVote := by
      rw [Attempt.toOutcome_effects, Attempt.map_effects, Candidate.dispatchVote] at he
      split at he
      · exact List.mem_singleton.mp he
      · exact List.mem_singleton.mp he
    rw [hvote]
    exact ⟨self, response, rfl, rfl, hquorum⟩
  · rw [Attempt.toOutcome_effects, Attempt.map_effects, Candidate.dispatchVote]
    split <;> exact Nat.le_refl 1
  · rw [Attempt.toOutcome_ctx]
    rfl

theorem handleEvent_leaderless (hevent : event.Leaderless)
    (hterm : ∀ t, event.getTerm = some t → t ≤ ctx.term) (hpeers : 1 ≤ ctx.peerIds.length) :
    (self.handleEvent event ctx env).Leaderless (.preCandidate self) event ctx := by
  cases event with
  | preVoteRequestReceived command =>
    obtain ⟨hleader, hgranted⟩ := handlePreVoteRequest_leaderless ctx command.request
    exact Outcome.leaderless_reply (.preCandidate self)
      ⟨hleader, fun h => ⟨command, rfl, hgranted h⟩⟩
  | preVoteResponseReceived response =>
    simp only [handleEvent, handlePreVoteResponse]
    split
    · rename_i hquorum
      exact dispatchVote_leaderless hquorum hpeers
    · split
      · exact Outcome.leaderless_ok (.follower rfl)
      · exact Outcome.leaderless_ok (.preCandidate _)
  | voteRequestReceived command =>
    obtain ⟨response, hresponse, hans⟩ :=
      handleVoteRequest_leaderless self (hterm command.request.term rfl)
    simp only [handleEvent, hans]
    exact Outcome.leaderless_reply (.preCandidate self) hresponse
  | acceptRequestReceived command => exact hevent.elim
  | preVoteCampaignExpired => exact Outcome.leaderless_ok (.follower rfl)
  | clientWriteRequestReceived command => exact leaderless_refusal (.preCandidate self)
  | _ => exact Outcome.leaderless_ok (.preCandidate self)

end PreCandidate

namespace Candidate
variable {self : Candidate}

/-- A rejection is recorded, and is no quorum. -/
theorem handleVoteResponse_leaderless (hself : Group.Unpromised self) {response : VoteResponse}
    (hresponse : response.Leaderless) :
    (self.handleVoteResponse response ctx env).Leaderless (.candidate self)
      (.voteResponseReceived response) ctx := by
  obtain ⟨rejection, houtcome, _⟩ := hresponse
  have hnot : response.outcome.isPromise = false := by
    rw [houtcome]
    rfl
  unfold handleVoteResponse
  cases hrecord : self.recordVote response ctx with
  | none => exact ⟨nofun, fun _ he => absurd he List.not_mem_nil, Nat.zero_le _, rfl⟩
  | some c =>
    have hc := hself.record hnot hrecord
    simp only [hc.not_quorum, Bool.false_eq_true, if_false]
    split
    · exact Outcome.leaderless_ok (.follower rfl)
    · exact Outcome.leaderless_ok (.candidate hc)

theorem handleEvent_leaderless (hself : Group.Unpromised self) (hevent : event.Leaderless) :
    (self.handleEvent event ctx env).Leaderless (.candidate self) event ctx := by
  cases event with
  | preVoteRequestReceived command =>
    obtain ⟨hleader, hgranted⟩ := handlePreVoteRequest_leaderless ctx command.request
    exact Outcome.leaderless_reply (.candidate hself)
      ⟨hleader, fun h => ⟨command, rfl, hgranted h⟩⟩
  | voteRequestReceived command =>
    exact Outcome.leaderless_reply (.candidate hself) ⟨_, rfl, rfl⟩
  | voteResponseReceived response => exact handleVoteResponse_leaderless hself hevent
  | acceptRequestReceived command => exact hevent.elim
  | voteCampaignExpired => exact Outcome.leaderless_ok (.follower rfl)
  | clientWriteRequestReceived command => exact leaderless_refusal (.candidate hself)
  | _ => exact Outcome.leaderless_ok (.candidate hself)

end Candidate

namespace PaxosState
variable {self : PaxosState}

theorem Unled.handleEvent (hself : self.Unled) (hevent : event.Leaderless)
    (hterm : ∀ t, event.getTerm = some t → t ≤ ctx.term) (hpeers : 1 ≤ ctx.peerIds.length) :
    (self.handleEvent event ctx env).Leaderless self event ctx := by
  cases self with
  | follower f => exact Follower.handleEvent_leaderless hself.leaderId hevent hterm
  | preCandidate p => exact PreCandidate.handleEvent_leaderless hevent hterm hpeers
  | candidate c => exact Candidate.handleEvent_leaderless (hself.board c rfl) hevent
  | leader l => exact absurd rfl (hself.noLeader l)

/-- **Nobody learns of a leader from a member that knows none.** -/
theorem Unled.processEvent (hself : self.Unled) (hevent : event.Leaderless)
    (hpeers : 1 ≤ ctx.peerIds.length) :
    (self.processEvent event ctx false env).Leaderless self event ctx := by
  rw [processEvent_eq]
  rcases self.adoptTerm_cases event ctx with hkept | ⟨term, hterm, hlt, hadopt⟩
  · rw [hkept]
    have hle : ∀ t, event.getTerm = some t → t ≤ ctx.term := by
      intro t ht
      by_contra hgt
      have hadopts : self.adoptTerm event ctx =
          (.follower (Follower.new self.getLeaderId), { ctx with term := t }) := by
        simp [adoptTerm, ht, Nat.lt_of_not_le hgt]
      rw [hkept] at hadopts
      exact hgt (Nat.le_of_eq (congrArg (fun s => s.2.term) hadopts).symm)
    exact hself.handleEvent hevent hle hpeers
  · rw [hadopt]
    have hfresh : (PaxosState.follower (Follower.new self.getLeaderId)).Unled :=
      .follower hself.leaderId
    have hout : ((PaxosState.follower (Follower.new self.getLeaderId)).handleEvent event
        { ctx with term := term } env).Leaderless _ event { ctx with term := term } :=
      hfresh.handleEvent hevent
        (fun t ht => Nat.le_of_eq (Option.some.inj (ht.symm.trans hterm))) hpeers
    refine ⟨hout.next, ?_, hout.single, ?_⟩
    · -- an event that carries a term starts no campaign and asks for no pre-vote
      intro e he
      have hout := hout.effects e he
      cases e with
      | preVoteReply tx response =>
        refine ⟨hout.1, fun hgranted => ?_⟩
        obtain ⟨command, rfl, _⟩ := hout.2 hgranted
        cases hterm
      | dispatchPreVote request =>
        obtain ⟨_, rfl⟩ := hout
        cases hterm
      | dispatchVote request =>
        obtain ⟨p, response, hp, _⟩ := hout
        cases hp
      | _ => exact hout
    · exact hout.ctx

/-- **A client write is refused at once**, and changes nothing. -/
theorem Unled.clientWrite (hself : self.Unled) (command : PaxosCommand ClientWriteRequest) :
    self.processEvent (.clientWriteRequestReceived command) ctx false env =
      .ok self ctx
        (sendIgnoring command.responseTx (.clientReply command.responseTx .noActiveLeader)) := by
  have hnone : self.adoptTerm (.clientWriteRequestReceived command) ctx = (self, ctx) := rfl
  rw [processEvent_eq, hnone]
  cases self with
  | follower f =>
    have hleader : f.currentLeaderId = none := hself.leaderId
    simp only [PaxosState.handleEvent, Follower.handleEvent, Follower.handleClientWrite, hleader]
    rfl
  | preCandidate p => rfl
  | candidate c => rfl
  | leader l => exact absurd rfl (hself.noLeader l)

end PaxosState
end SpannerPaxos
