import SpannerPaxos.LeaseSteps

/-! # The leader a voter elected

A Follower that grants its vote keeps the leader it knew before, and so does the
fresh Follower that adopts the new term when the elected leader's first accept
request arrives.  The accept handler admits requests of the known leader only,
so a voter processes the requests of the candidate it voted for exactly when it
took that candidate for its leader already.
-/
namespace SpannerPaxos

/-- An accept request is processed: its answer explains itself, if anyone still
waits for it, and the lease runs from the reading `utc`. -/
structure Outcome.Processes (o : Outcome) (tx : ReplyChannel) (utc : DateTime) : Prop where
  explained : tx.receiverAlive = true →
    ∃ response, Effect.acceptReply tx response ∈ o.effects ∧ response.Explained
  extended : o.ctx.leaseExpiry =
    some ((TrueTime.now utc).latest + PaxosSharedContext.leaseLength)

namespace Follower
variable (self : Follower) (ctx : PaxosSharedContext)

/-- While its lease runs, the Follower processes every accept request that its
candidate of the term sends as leader. -/
def FollowsElected (request : VoteRequest) : Prop :=
  ∀ (command : PaxosCommand AcceptRequest) (env : Env),
    command.request.term = request.term → command.request.leaderId = request.memberId →
    ctx.isLeaderLeaseExpired (env.clock 0) = false →
    ((PaxosState.follower self).processEvent (.acceptRequestReceived command) ctx false
      env).Processes command.responseTx (env.clock 1)

variable (command : PaxosCommand AcceptRequest) (env : Env)

/-- An accept request of a larger term reaches a fresh Follower that knows the
same leader. -/
theorem processEvent_newTerm (hterm : ctx.term < command.request.term) :
    let answer := (Follower.new self.currentLeaderId).handleAcceptRequest command.request
      { ctx with term := command.request.term } env
    (PaxosState.follower self).processEvent (.acceptRequestReceived command) ctx false env =
      .reply command.responseTx (.acceptReply command.responseTx answer.1)
        (.follower (Follower.new self.currentLeaderId)) answer.2 := by
  have hadopt : (PaxosState.follower self).adoptTerm (.acceptRequestReceived command) ctx =
      (.follower (Follower.new self.currentLeaderId),
        { ctx with term := command.request.term }) := by
    simp only [PaxosState.adoptTerm, PaxosEvent.getTerm, PaxosState.getLeaderId]
    exact if_pos hterm
  rw [PaxosState.processEvent_eq, hadopt]
  rfl

variable {self ctx command env}

/-- The known leader's first request in a larger term is processed while the lease
runs. -/
theorem processes_of_known (hterm : ctx.term < command.request.term)
    (hlease : ctx.isLeaderLeaseExpired (env.clock 0) = false)
    (hleader : self.currentLeaderId = some command.request.leaderId) :
    ((PaxosState.follower self).processEvent (.acceptRequestReceived command) ctx false
      env).Processes command.responseTx (env.clock 1) := by
  rw [self.processEvent_newTerm ctx command env hterm]
  have hadmits : (Follower.new self.currentLeaderId).Admits command.request
      { ctx with term := command.request.term } (env.clock 0) := ⟨Nat.le_refl _, hlease, hleader⟩
  have hreply : ∀ response ctx', response.Explained → command.responseTx.receiverAlive = true →
      ∃ r, Effect.acceptReply command.responseTx r ∈
        (Outcome.reply command.responseTx (.acceptReply command.responseTx response)
          (.follower (Follower.new self.currentLeaderId)) ctx').effects ∧ r.Explained := by
    intro response ctx' hexplained halive
    refine ⟨response, ?_, hexplained⟩
    rw [Outcome.reply, if_pos halive]
    exact List.mem_singleton_self _
  rcases (Follower.new self.currentLeaderId).handleAcceptRequest_cases command.request
    { ctx with term := command.request.term } env with ⟨hno, _⟩ | ⟨_, _, hint, h⟩ | ⟨_, _, h⟩
  · exact absurd hadmits hno
  · -- a conflict is explained too, and the lease extended all the same
    rw [h]
    exact ⟨hreply _ _ (Or.inr (Option.some_ne_none hint)), by rw [Outcome.reply_ctx]; rfl⟩
  · rw [h]
    exact ⟨hreply _ _ (Or.inl rfl), by rw [Outcome.reply_ctx]; rfl⟩

/-- A request of a larger term from anyone else is ignored: the lease stays. -/
theorem lease_of_unknown (hterm : ctx.term < command.request.term)
    (hleader : self.currentLeaderId ≠ some command.request.leaderId) :
    ((PaxosState.follower self).processEvent (.acceptRequestReceived command) ctx false
      env).ctx.leaseExpiry = ctx.leaseExpiry := by
  rw [self.processEvent_newTerm ctx command env hterm, Outcome.reply_ctx]
  rcases (Follower.new self.currentLeaderId).handleAcceptRequest_cases command.request
    { ctx with term := command.request.term } env with ⟨_, h⟩ | ⟨hadmits, _⟩ | ⟨hadmits, _⟩
  · rw [h]
  · exact absurd hadmits.leader hleader
  · exact absurd hadmits.leader hleader

/-- **A voter follows the leader it elected exactly if it took it for the leader
before it voted.** -/
theorem followsElected_iff (f : Follower) (request : VoteRequest) (ctx : PaxosSharedContext)
    (env : Env) (hpromise : (f.handleVoteRequest request ctx env).2.1.outcome.isPromise = true) :
    (f.handleVoteRequest request ctx env).1.FollowsElected
        (f.handleVoteRequest request ctx env).2.2 request ↔
      f.currentLeaderId = some request.memberId := by
  rcases f.handleVoteRequest_cases request ctx env with ⟨hmay, hvote⟩ | ⟨_, rejection, hvote⟩
  · rw [hvote]
    constructor
    · intro hfollows
      by_contra hleader
      -- the candidate's request, read one tick after the vote
      let command : PaxosCommand AcceptRequest :=
        ⟨⟨request.term, request.memberId, 0, 0, [], 0, 0, none⟩, ⟨request.memberId, true⟩⟩
      let later : Env := .steady (env.clock 1 + 1)
      have hrunning : (ctx.extendLeaderLeaseExpiryTime (env.clock 1)).isLeaderLeaseExpired
          (later.clock 0) = false := by
        rw [PaxosSharedContext.isLeaderLeaseExpired_eq_false_iff]
        refine ⟨_, rfl, ?_⟩
        have htick : ∀ utc : Int, utc + 1 - 7 * 1000000 ≤ utc + 7 * 1000000 + 10 * 1000000000 := by
          omega
        exact htick (env.clock 1)
      have hext := (hfollows command later rfl rfl hrunning).extended
      rw [lease_of_unknown hmay.newTerm hleader] at hext
      have htick : env.clock 1 + TrueTime.uncertainty = env.clock 1 + 1 + TrueTime.uncertainty :=
        (Int.add_left_inj _).mp (Option.some.inj hext)
      exact absurd ((Int.add_left_inj _).mp htick) (Int.ne_of_lt (Int.lt_succ _))
    · intro hleader command env' hterm hsender hrunning
      refine processes_of_known ?_ hrunning (by rw [hsender]; exact hleader)
      rw [hterm]
      exact hmay.newTerm
  · rw [hvote] at hpromise
    cases hpromise

/-- Member 1 of a group of three, which took member 2 for the leader when its
lease ran out, votes for it and follows it. -/
theorem followsElected_iff_reelected :
    let vote := (Follower.new (some 2)).handleVoteRequest ⟨2, 1, 0, 0⟩ (.memberOfThree 1)
      (.steady (Duration.seconds 1))
    vote.1.FollowsElected vote.2.2 ⟨2, 1, 0, 0⟩ ↔ (Follower.new (some 2)).currentLeaderId = some 2 :=
  followsElected_iff (Follower.new (some 2)) ⟨2, 1, 0, 0⟩ (.memberOfThree 1)
    (.steady (Duration.seconds 1)) (by decide)

/-- A fresh member 1 votes for member 2 in term 1 and then ignores the empty accept
request that member 2 sends as leader of that term. -/
theorem not_followsElected_fresh :
    let vote := (Follower.new none).handleVoteRequest ⟨2, 1, 0, 0⟩ (.memberOfThree 1)
      (.steady (Duration.seconds 1))
    vote.2.1.outcome.isPromise = true ∧ ¬ vote.1.FollowsElected vote.2.2 ⟨2, 1, 0, 0⟩ := by
  refine ⟨by decide, ?_⟩
  intro hfollows
  have hext := (hfollows ⟨⟨1, 2, 0, 0, [], 0, 0, none⟩, ⟨2, true⟩⟩ (.steady (Duration.seconds 2))
    rfl rfl (by decide)).extended
  rw [lease_of_unknown (by decide) (by decide)] at hext
  exact absurd hext (by decide)

end Follower
end SpannerPaxos
