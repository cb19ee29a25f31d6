import SpannerPaxos.VoteDecision

/-! # The voting handlers side by side

A Follower decides twice about a candidate: in the pre-vote, which records nothing,
and in the vote.  The two ask for the same lease, the same terms and the same log
slots, but the pre-vote compares the candidate's last log term with the voter's
current term.  The PreCandidate repeats the Follower's vote on a record of its own,
and leaves the lease as it finds it.
-/
namespace SpannerPaxos

/-! ## The pre-vote and the vote -/

namespace Follower
variable (f : Follower) (ctx : PaxosSharedContext)

/-- The conditions under which a Follower with this context grants a pre-vote. -/
structure MayGrant (request : PreVoteRequest) (ctx : PaxosSharedContext) (utc : DateTime) :
    Prop where
  leaseExpired : ctx.isLeaderLeaseExpired utc = true
  newTerm : ctx.term < request.nextTerm
  logTerm : ctx.term ≤ request.lastLogTerm
  logSlot : ctx.lastLogSlot ≤ request.lastLogSlot

theorem handlePreVoteRequest_iff (request : PreVoteRequest) (env : Env) :
    (f.handlePreVoteRequest request ctx env).voteGranted = true ↔
      MayGrant request ctx (env.clock 0) := by
  unfold handlePreVoteRequest
  split
  · rename_i hlease
    exact ⟨fun h => absurd h Bool.false_ne_true, fun h => absurd h.leaseExpired hlease⟩
  rename_i hlease
  split
  · exact ⟨fun h => absurd h Bool.false_ne_true, fun h => absurd h.newTerm (by omega)⟩
  split
  · exact ⟨fun h => absurd h Bool.false_ne_true, fun h => absurd h.logTerm (by omega)⟩
  split
  · exact ⟨fun h => absurd h Bool.false_ne_true, fun h => absurd h.logSlot (by omega)⟩
  · exact ⟨fun _ => ⟨by simpa using hlease, by omega, by omega, by omega⟩, fun _ => rfl⟩

theorem handleVoteRequest_isPromise_iff (request : VoteRequest) (env : Env) :
    (f.handleVoteRequest request ctx env).2.1.outcome.isPromise = true ↔
      f.MayPromise request ctx (env.clock 0) := by
  rcases f.handleVoteRequest_cases request ctx env with ⟨hmay, heq⟩ | ⟨hnot, rejection, heq⟩
  · rw [heq]
    exact ⟨fun _ => hmay, fun _ => rfl⟩
  · rw [heq]
    exact ⟨fun h => absurd h Bool.false_ne_true, fun h => absurd h hnot⟩

/-- The pre-vote says what the vote would say, to a candidate for `term` with this log
position. -/
def DryRun (env : Env) (candidateId : Uuid) (term lastLogTerm lastLogSlot : Nat) : Prop :=
  (f.handlePreVoteRequest ⟨candidateId, term, lastLogTerm, lastLogSlot⟩ ctx env).voteGranted =
      true ↔
    (f.handleVoteRequest ⟨candidateId, term, lastLogTerm, lastLogSlot⟩ ctx
      env).2.1.outcome.isPromise = true

/-- **The pre-vote is faithful exactly where it does not matter whose term is compared.**
Where the lease is over, the term is new and the log long enough, the candidate's last
term must be on the same side of the voter's current term and of its last log term. -/
theorem dryRun_iff (env : Env) (candidateId : Uuid) (term lastLogTerm lastLogSlot : Nat)
    (hvote : ∀ record, f.voteRecord = some record → record.term < term) :
    f.DryRun ctx env candidateId term lastLogTerm lastLogSlot ↔
      (ctx.isLeaderLeaseExpired (env.clock 0) = true → ctx.term < term →
        ctx.lastLogSlot ≤ lastLogSlot →
        (ctx.term ≤ lastLogTerm ↔ ctx.lastLogTerm ≤ lastLogTerm)) := by
  rw [DryRun, handlePreVoteRequest_iff, handleVoteRequest_isPromise_iff]
  constructor
  · intro hsame hlease hterm hslot
    exact ⟨fun hlog => (hsame.mp ⟨hlease, hterm, hlog, hslot⟩).logTerm,
      fun hlog => (hsame.mpr ⟨hlease, hterm, hvote, hlog, hslot⟩).logTerm⟩
  · intro hsame
    constructor
    · intro h
      exact ⟨h.leaseExpired, h.newTerm, hvote,
        (hsame h.leaseExpired h.newTerm h.logSlot).mp h.logTerm, h.logSlot⟩
    · intro h
      exact ⟨h.leaseExpired, h.newTerm,
        (hsame h.leaseExpired h.newTerm h.logSlot).mpr h.logTerm, h.logSlot⟩

/-- A fresh member of three, in term 0 with an empty log, asked for term 1. -/
theorem dryRun_iff_fresh :
    (Follower.new none).DryRun (.memberOfThree 1) (.steady (Duration.seconds 1)) 2 1 0 0 :=
  (dryRun_iff _ _ _ 2 1 0 0 (by simp [Follower.new])).mpr fun _ _ _ => by decide

/-- After a campaign that failed, the member is in term 1 and its log still empty, and so
is the log of the one that asks for term 2: no pre-vote, though there would be a vote. -/
theorem not_dryRun_after_campaign :
    ¬ (Follower.new none).DryRun { PaxosSharedContext.memberOfThree 1 with term := 1 }
      (.steady (Duration.seconds 1)) 2 2 0 0 := by
  intro h
  have hgranted := h.mpr (by decide)
  revert hgranted
  decide

end Follower

/-! ## The two roles that vote -/

/-- The vote, as the PreCandidate records it. -/
def VoteRecord.vote (record : VoteRecord) : Nat × Uuid := (record.term, record.candidateId)

/-- The two roles answer a vote request alike: with the same Promise or a rejection, with
the same vote on record afterwards, and with the same context. -/
structure VotersAgree (f : Follower) (p : PreCandidate) (command : PaxosCommand VoteRequest)
    (ctx : PaxosSharedContext) (env : Env) : Prop where
  outcome : ∀ promise,
    (f.handleVoteRequest command.request ctx env).2.1.outcome = .promise promise ↔
      (p.handleVoteRequest command.request ctx).2.outcome = .promise promise
  record : (f.handleVoteRequest command.request ctx env).1.voteRecord.map VoteRecord.vote =
    (p.handleVoteRequest command.request ctx).1.votedForId
  ctx : (f.handleEvent (.voteRequestReceived command) ctx env).ctx =
    (p.handleEvent (.voteRequestReceived command) ctx env).ctx

section
variable {f : Follower} {p : PreCandidate} {command : PaxosCommand VoteRequest}
  {ctx : PaxosSharedContext} {env : Env}

/-- On the same history the two roles grant the same votes, once the lease is over. -/
theorem mayPromise_iff (hhistory : f.voteRecord.map VoteRecord.vote = p.votedForId)
    (hlease : ctx.isLeaderLeaseExpired (env.clock 0) = true) :
    f.MayPromise command.request ctx (env.clock 0) ↔ p.MayPromise command.request ctx := by
  constructor
  · intro h
    refine ⟨h.newTerm, ?_, h.logTerm, h.logSlot⟩
    intro vote hvote
    rw [← hhistory] at hvote
    obtain ⟨record, hrecord, rfl⟩ := Option.map_eq_some_iff.mp hvote
    exact h.notVoted record hrecord
  · intro h
    refine ⟨hlease, h.newTerm, ?_, h.logTerm, h.logSlot⟩
    intro record hrecord
    exact h.notVoted record.vote (by rw [← hhistory, hrecord]; rfl)

/-- Where they reject, they agree. -/
theorem votersAgree_of_not_mayPromise
    (hhistory : f.voteRecord.map VoteRecord.vote = p.votedForId)
    (hfollower : ¬ f.MayPromise command.request ctx (env.clock 0))
    (hpre : ¬ p.MayPromise command.request ctx) : VotersAgree f p command ctx env := by
  rcases f.handleVoteRequest_cases command.request ctx env with ⟨h, _⟩ | ⟨_, rejection, hf⟩
  · exact absurd h hfollower
  rcases p.handleVoteRequest_cases command.request ctx with ⟨h, _⟩ | ⟨_, rejection', hp⟩
  · exact absurd h hpre
  refine ⟨?_, ?_, ?_⟩
  · intro promise
    rw [hf, hp]
    constructor
    · intro h
      cases h
    · intro h
      cases h
  · rw [hf, hp]
    exact hhistory
  · rw [Follower.handleEvent, PreCandidate.handleEvent]
    simp only [Outcome.reply_ctx, hf]

/-- Where the Follower promises it extends the lease, and the PreCandidate does not. -/
theorem not_votersAgree_of_mayPromise (utc : DateTime)
    (hmay : f.MayPromise command.request ctx utc) :
    ¬ VotersAgree f p command ctx (.steady utc) := by
  intro h
  have hctx := h.ctx
  rcases f.handleVoteRequest_cases command.request ctx (.steady utc) with
    ⟨_, hf⟩ | ⟨hnot, _⟩
  · rw [Follower.handleEvent, PreCandidate.handleEvent] at hctx
    simp only [Outcome.reply_ctx, hf] at hctx
    -- the lease of before is over at a reading before the new one ends
    have hlease := hmay.leaseExpired
    rw [← hctx] at hlease
    simp only [PaxosSharedContext.isLeaderLeaseExpired,
      PaxosSharedContext.extendLeaderLeaseExpiryTime,
      PaxosSharedContext.updateLeaderLeaseExpiryTime, TrueTime.after_iff] at hlease
    have hlong : (TrueTime.now utc).earliest ≤
        (TrueTime.now utc).latest + PaxosSharedContext.leaseLength :=
      le_trans (le_trans (TrueTime.reads_self utc).1 (TrueTime.reads_self utc).2)
        (Int.le_add_of_nonneg_right (by decide))
    exact absurd hlease (not_lt_of_ge hlong)
  · exact hnot hmay

end

/-- Every lease is over at some reading. -/
theorem PaxosSharedContext.exists_isLeaderLeaseExpired (ctx : PaxosSharedContext) :
    ∃ utc, ctx.isLeaderLeaseExpired utc = true := by
  cases hlease : ctx.leaseExpiry with
  | none => exact ⟨0, by rw [isLeaderLeaseExpired, hlease]⟩
  | some expiry =>
    refine ⟨expiry + 1 + TrueTime.uncertainty, ?_⟩
    rw [isLeaderLeaseExpired, hlease]
    simp only [TrueTime.after_iff, TrueTime.now, Int.add_sub_cancel]
    exact Int.lt_succ expiry

/-- **The two voting handlers agree exactly on the requests they reject.**  They may be
asked at any time when the lease is over. -/
theorem votersAgree_iff (f : Follower) (p : PreCandidate) (command : PaxosCommand VoteRequest)
    (ctx : PaxosSharedContext) (hhistory : f.voteRecord.map VoteRecord.vote = p.votedForId) :
    (∀ env : Env, ctx.isLeaderLeaseExpired (env.clock 0) = true →
      VotersAgree f p command ctx env) ↔
    command.request.term ≤ ctx.term ∨
      (∃ record, f.voteRecord = some record ∧ command.request.term ≤ record.term) ∨
      command.request.lastLogTerm < ctx.lastLogTerm ∨
      command.request.lastLogSlot < ctx.lastLogSlot := by
  constructor
  · intro hagree
    by_contra hno
    simp only [not_or, not_le, not_lt, not_exists, not_and] at hno
    obtain ⟨hterm, hnotVoted, hlogTerm, hlogSlot⟩ := hno
    obtain ⟨utc, hlease⟩ := ctx.exists_isLeaderLeaseExpired
    exact not_votersAgree_of_mayPromise utc ⟨hlease, hterm, hnotVoted, hlogTerm, hlogSlot⟩
      (hagree (.steady utc) hlease)
  · intro hrejects env hlease
    have hnot : ¬ f.MayPromise command.request ctx (env.clock 0) := by
      intro hmay
      rcases hrejects with hterm | ⟨record, hrecord, hvoted⟩ | hlogTerm | hlogSlot
      · exact absurd hmay.newTerm (not_lt_of_ge hterm)
      · exact absurd (hmay.notVoted record hrecord) (not_lt_of_ge hvoted)
      · exact absurd hmay.logTerm (not_le_of_gt hlogTerm)
      · exact absurd hmay.logSlot (not_le_of_gt hlogSlot)
    exact votersAgree_of_not_mayPromise hhistory hnot fun h =>
      hnot ((mayPromise_iff hhistory hlease).mpr h)

/-- A fresh member that has not voted is asked for a term it is already in. -/
theorem votersAgree_iff_stale :
    VotersAgree (Follower.new none) (PreCandidate.new (.memberOfThree 1))
      ⟨⟨2, 0, 0, 0⟩, ⟨2, true⟩⟩ (.memberOfThree 1) (.steady (Duration.seconds 1)) :=
  (votersAgree_iff (Follower.new none) (PreCandidate.new (.memberOfThree 1)) _ _ rfl).mpr
    (Or.inl (by decide)) _ (by decide)

/-- The same member is asked for term 1. -/
theorem not_votersAgree_fresh :
    ¬ ∀ env : Env, (PaxosSharedContext.memberOfThree 1).isLeaderLeaseExpired (env.clock 0) = true →
      VotersAgree (Follower.new none) (PreCandidate.new (.memberOfThree 1))
        ⟨⟨2, 1, 0, 0⟩, ⟨2, true⟩⟩ (.memberOfThree 1) env := by
  intro h
  refine not_votersAgree_of_mayPromise (Duration.seconds 1) ?_
    (h (.steady (Duration.seconds 1)) (by decide))
  exact ⟨by decide, by decide, by simp [Follower.new], by decide, by decide⟩

end SpannerPaxos
