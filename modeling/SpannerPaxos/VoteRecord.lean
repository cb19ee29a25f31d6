import SpannerPaxos.Transitions
import SpannerPaxos.Runs

/-! # One vote in a term

A member that handles events directly, without the adoption of terms, records
the vote it grants in the role it is in: a Follower in `voteRecord`, a
PreCandidate in `votedForId`.  The record is above the member's term, so it is
all that keeps the member from voting again, and every change of role drops it.
A member votes once in a term as long as it keeps its role while the vote on
record is above its term.
-/
namespace SpannerPaxos

namespace PaxosState

/-- The vote a role has on record: its term and its candidate. -/
def recordedVote : PaxosState → Option (Nat × Uuid)
  | follower f => f.voteRecord.map fun record => (record.term, record.candidateId)
  | preCandidate p => p.votedForId
  | candidate _ => none
  | leader _ => none

/-- The event ends a role that may have a vote on record. -/
def leavesVote (self : PaxosState) (event : PaxosEvent) (ctx : PaxosSharedContext) (env : Env) :
    Bool :=
  match self, event with
  | follower _, .electionCountdownExpired => ctx.isLeaderLeaseExpired (env.clock 0)
  | preCandidate _, .preVoteCampaignExpired => true
  | preCandidate _, .acceptRequestReceived command => decide (ctx.term ≤ command.request.term)
  | preCandidate p, .preVoteResponseReceived response =>
    (p.updatePreVoteBoard response).hasPreVoteQuorum ||
      (p.updatePreVoteBoard response).hasAllPreVoteResponses
  | _, _ => false

end PaxosState

/-- A member and the votes it has promised: the term and the candidate of each. -/
structure Voter where
  role : PaxosState
  ctx : PaxosSharedContext
  promises : List (Nat × Uuid)
  deriving DecidableEq

namespace Voter

/-- The vote an outcome promises. -/
def promised (event : PaxosEvent) (o : Outcome) : List (Nat × Uuid) :=
  match event with
  | .voteRequestReceived command =>
    if o.effects.any Effect.isPromise then [(command.request.term, command.request.memberId)]
    else []
  | _ => []

/-- The member's role handles an event. -/
def step (v : Voter) (l : PaxosEvent × Env) : Option Voter :=
  let o := v.role.handleEvent l.1 v.ctx l.2
  match o.result with
  | .ok role => some ⟨role, o.ctx, promised l.1 o ++ v.promises⟩
  | .error _ => none

/-- No term has Promises to two candidates, and no campaign is run in a term
whose vote another member has. -/
def OneVotePerTerm (v : Voter) : Prop :=
  (∀ term c c', (term, c) ∈ v.promises → (term, c') ∈ v.promises → c = c') ∧
  (∀ candidate, v.role = .candidate candidate →
    ∀ c, (v.ctx.term, c) ∈ v.promises → c = v.ctx.memberId)

/-- The role is not left with a vote on record for a term above the member's. -/
def KeepsVote (v : Voter) (l : PaxosEvent × Env) : Prop :=
  v.role.leavesVote l.1 v.ctx l.2 = true →
    ∀ vote, v.role.recordedVote = some vote → vote.1 ≤ v.ctx.term

theorem promised_of_silent {event : PaxosEvent} {o : Outcome} (h : o.Silent) :
    promised event o = [] := by
  unfold promised
  split
  · rw [if_neg]
    intro hany
    obtain ⟨e, he, hp⟩ := List.any_eq_true.mp hany
    rw [h e he] at hp
    cases hp
  · rfl

theorem promised_of_reply {command : PaxosCommand VoteRequest} {o : Outcome}
    {tx : ReplyChannel} {ctx : PaxosSharedContext}
    (h : o.effects = [.voteReply tx ctx.promiseVote]) :
    promised (.voteRequestReceived command) o =
      [(command.request.term, command.request.memberId)] := by
  simp [promised, h, Effect.isPromise, PaxosSharedContext.promiseVote, VoteOutcome.isPromise]

/-- What a step does to the votes: it grants one above everything on record,
keeps the record, or leaves the role and drops it. -/
inductive Next (v v' : Voter) (l : PaxosEvent × Env) : Prop
  | grants (vote : Nat × Uuid) (hpromises : v'.promises = vote :: v.promises)
      (hterm : v.ctx.term < vote.1)
      (hlater : ∀ r, v.role.recordedVote = some r → r.1 < vote.1)
      (hrecord : v'.role.recordedVote = some vote)
  | keeps (hpromises : v'.promises = v.promises)
      (hrecord : v'.role.recordedVote = v.role.recordedVote)
      (hterm : v'.ctx.term = v.ctx.term)
      (hrole : ∀ c', v'.role = .candidate c' → ∃ c, v.role = .candidate c)
  | leaves (hleaves : v.role.leavesVote l.1 v.ctx l.2 = true)
      (hpromises : v'.promises = v.promises)
      (hterm : v'.ctx.term = v.ctx.term + 1 ∨
        v'.ctx.term = v.ctx.term ∧ ∀ c, v'.role ≠ .candidate c)

theorem step_next {v v' : Voter} {l : PaxosEvent × Env} (h : v.step l = some v') :
    Next v v' l := by
  obtain ⟨role, ctx, promises⟩ := v
  obtain ⟨event, env⟩ := l
  simp only [step] at h
  cases hresult : (role.handleEvent event ctx env).result with
  | error fault =>
    rw [hresult] at h
    cases h
  | ok role' =>
    rw [hresult] at h
    cases Option.some.inj h
    have hkept : (role.handleEvent event ctx env).Silent →
        promised event (role.handleEvent event ctx env) ++ promises = promises := by
      intro hsilent
      rw [promised_of_silent hsilent, List.nil_append]
    cases role with
    | follower f =>
      cases Follower.handleEvent_next hresult with
      | votes command hevent hmay hctx hreply =>
        cases hevent
        refine .grants (command.request.term, command.request.memberId)
          (congrArg (· ++ promises) (promised_of_reply hreply)) hmay.newTerm ?_ rfl
        intro r hr
        obtain ⟨record, hrecord, rfl⟩ := Option.map_eq_some_iff.mp hr
        exact hmay.notVoted record hrecord
      | campaigns hevent hlease hctx hsilent =>
        cases hevent
        exact .leaves hlease (hkept hsilent)
          (Or.inr ⟨congrArg PaxosSharedContext.term hctx, by simp⟩)
      | stays f' hvote hclock hcountdown hsame hsilent =>
        exact .keeps (hkept hsilent)
          (by simp only [PaxosState.recordedVote, hvote]) hsame.term (by simp)
    | preCandidate p =>
      cases PreCandidate.handleEvent_next hresult with
      | votes command hevent hmay hctx hreply =>
        cases hevent
        exact .grants (command.request.term, command.request.memberId)
          (congrArg (· ++ promises) (promised_of_reply hreply)) hmay.newTerm hmay.notVoted rfl
      | wins response hevent hquorum hctx hsilent =>
        cases hevent
        exact .leaves (by simp [PaxosState.leavesVote, hquorum])
          (hkept hsilent)
          (Or.inl (congrArg PaxosSharedContext.term hctx))
      | loses hevent hctx hsilent =>
        refine .leaves ?_ (hkept hsilent)
          (Or.inr ⟨congrArg PaxosSharedContext.term hctx, by simp⟩)
        rcases hevent with rfl | ⟨response, rfl, _, hall⟩
        · rfl
        · simp [PaxosState.leavesVote, hall]
      | yields command hevent hterm hsame hsilent =>
        cases hevent
        exact .leaves (by simpa [PaxosState.leavesVote] using hterm)
          (hkept hsilent)
          (Or.inr ⟨hsame.term, by simp⟩)
      | stays p' hvote hctx hsilent =>
        exact .keeps (hkept hsilent) hvote
          (congrArg PaxosSharedContext.term hctx) (by simp)
    | candidate c =>
      cases Candidate.handleEvent_next hresult with
      | wins response c' l hevent hrecord hquorum hsame hsilent =>
        exact .keeps (hkept hsilent) rfl hsame.term
          fun _ _ => ⟨c, rfl⟩
      | late response hevent hsame hlease hsilent =>
        exact .keeps (hkept hsilent) rfl hsame.term
          fun _ _ => ⟨c, rfl⟩
      | loses hevent hctx hsilent =>
        exact .keeps (hkept hsilent) rfl
          (congrArg PaxosSharedContext.term hctx) fun _ _ => ⟨c, rfl⟩
      | yields command hevent hterm hsame hsilent =>
        exact .keeps (hkept hsilent) rfl hsame.term
          fun _ _ => ⟨c, rfl⟩
      | stays c' hboard hctx hsilent =>
        exact .keeps (hkept hsilent) rfl
          (congrArg PaxosSharedContext.term hctx) fun _ _ => ⟨c, rfl⟩
    | leader lead =>
      cases Leader.handleEvent_next hresult with
      | votes command hevent hmay hctx hreply =>
        cases hevent
        exact .grants (command.request.term, command.request.memberId)
          (congrArg (· ++ promises) (promised_of_reply hreply)) hmay.newTerm (by
            intro r hr
            cases hr) rfl
      | retires leaderId hdown hsame hsilent =>
        exact .keeps (hkept hsilent) rfl hsame.term
          (by simp)
      | stays l hsame hsilent =>
        exact .keeps (hkept hsilent) rfl hsame.term
          (by simp)

/-- Every vote promised is for a term the member has reached, or is on record, or
is older than the one on record. -/
structure Inv (v : Voter) : Prop where
  covered : ∀ vote ∈ v.promises, vote.1 ≤ v.ctx.term ∨
    ∃ r, v.role.recordedVote = some r ∧ (vote.1 < r.1 ∨ vote = r)
  unique : ∀ term c c', (term, c) ∈ v.promises → (term, c') ∈ v.promises → c = c'
  campaign : ∀ c, v.role = .candidate c → ∀ vote ∈ v.promises, vote.1 < v.ctx.term

theorem Inv.start {f : Follower} {ctx : PaxosSharedContext} : Inv ⟨.follower f, ctx, []⟩ where
  covered _ h := absurd h List.not_mem_nil
  unique _ _ _ h := absurd h List.not_mem_nil
  campaign _ _ _ h := absurd h List.not_mem_nil

/-- The new vote is above every vote promised before. -/
theorem Inv.lt_of_grant {v : Voter} (hv : v.Inv) {vote : Nat × Uuid}
    (hterm : v.ctx.term < vote.1) (hlater : ∀ r, v.role.recordedVote = some r → r.1 < vote.1) :
    ∀ old ∈ v.promises, old.1 < vote.1 := by
  intro old hold
  rcases hv.covered old hold with hle | ⟨r, hr, hlt | rfl⟩
  · omega
  · have := hlater r hr
    omega
  · exact hlater _ hr

theorem Inv.step {v v' : Voter} {l : PaxosEvent × Env} (hv : v.Inv) (hok : v.KeepsVote l)
    (h : v.step l = some v') : v'.Inv := by
  cases step_next h with
  | grants vote hpromises hterm hlater hrecord =>
    have hlt := hv.lt_of_grant hterm hlater
    refine ⟨?_, ?_, ?_⟩
    · intro old hold
      rw [hpromises] at hold
      rcases List.mem_cons.mp hold with rfl | hold
      · exact Or.inr ⟨_, hrecord, Or.inr rfl⟩
      · exact Or.inr ⟨vote, hrecord, Or.inl (hlt old hold)⟩
    · intro term c c' hc hc'
      rw [hpromises] at hc hc'
      rcases List.mem_cons.mp hc with rfl | hold
      · rcases List.mem_cons.mp hc' with heq | hold'
        · exact (congrArg Prod.snd heq).symm
        · exact absurd (show term < term from hlt _ hold') (lt_irrefl term)
      · rcases List.mem_cons.mp hc' with rfl | hold'
        · exact absurd (show term < term from hlt _ hold) (lt_irrefl term)
        · exact hv.unique term c c' hold hold'
    · intro c hc
      rw [hc] at hrecord
      cases hrecord
  | keeps hpromises hrecord hterm hrole =>
    refine ⟨?_, ?_, ?_⟩
    · rw [hpromises, hrecord, hterm]
      exact hv.covered
    · rw [hpromises]
      exact hv.unique
    · intro c' hc'
      obtain ⟨c, hc⟩ := hrole c' hc'
      rw [hpromises, hterm]
      exact hv.campaign c hc
  | leaves hleaves hpromises hterm =>
    -- the vote on record is not above the member's term here, so no promise is
    have hle : ∀ vote ∈ v.promises, vote.1 ≤ v.ctx.term := by
      intro vote hvote
      rcases hv.covered vote hvote with hle | ⟨r, hr, hlt | rfl⟩
      · exact hle
      · have := hok hleaves r hr
        omega
      · exact hok hleaves _ hr
    refine ⟨?_, ?_, ?_⟩
    · intro vote hvote
      rw [hpromises] at hvote
      have := hle vote hvote
      rcases hterm with hterm | ⟨hterm, _⟩
      · exact Or.inl (by omega)
      · exact Or.inl (by omega)
    · rw [hpromises]
      exact hv.unique
    · intro c hc vote hvote
      rw [hpromises] at hvote
      have := hle vote hvote
      rcases hterm with hterm | ⟨_, hnot⟩
      · omega
      · exact absurd hc (hnot c)

/-- **One vote in a term**, for a member that never leaves its role with a vote
on record above its term. -/
theorem oneVotePerTerm_of_keepsVote {f : Follower} {ctx : PaxosSharedContext} {v : Voter}
    (h : Runs Voter.step Voter.KeepsVote ⟨.follower f, ctx, []⟩ v) : v.OneVotePerTerm := by
  have hinv : v.Inv := h.invariant Inv.start fun _ _ _ ha hok hs => ha.step hok hs
  refine ⟨hinv.unique, ?_⟩
  intro c hc id hid
  exact absurd (hinv.campaign c hc _ hid) (lt_irrefl _)

/-! ## A vote granted, kept and lost -/

/-- A member of a fresh group of three. -/
def fresh : Voter := ⟨.follower (Follower.new none), PaxosSharedContext.memberOfThree 1, []⟩

/-- Another member asks for a vote in term 5. -/
def askedBy (memberId : Uuid) (utc : DateTime) : PaxosEvent × Env :=
  (.voteRequestReceived ⟨⟨memberId, 5, 0, 0⟩, ⟨memberId, true⟩⟩, .steady utc)

theorem oneVotePerTerm_of_keepsVote_asked :
    ∃ v, fresh.step (askedBy 2 (Duration.seconds 1)) = some v ∧ v.promises = [(5, 2)] ∧
      v.OneVotePerTerm := by
  refine ⟨_, rfl, rfl, oneVotePerTerm_of_keepsVote ((Runs.refl fresh).tail
    (askedBy 2 (Duration.seconds 1)) ?_ rfl)⟩
  intro hleaves
  cases hleaves

/-- Member 2 gets the vote of term 5.  When the lease that came with it is over,
the election countdown makes the voter a PreCandidate, and member 3 gets the
vote of term 5 as well. -/
theorem not_oneVotePerTerm_after_countdown :
    ¬ ∀ (f : Follower) (ctx : PaxosSharedContext) (v : Voter), f.voteRecord = none →
      Reaches Voter.step ⟨.follower f, ctx, []⟩ v → v.OneVotePerTerm := by
  intro hall
  have hrun : Reaches Voter.step fresh _ := Runs.of_exec [askedBy 2 (Duration.seconds 1),
    (.electionCountdownExpired, .steady (Duration.seconds 12)),
    askedBy 3 (Duration.seconds 13)] rfl
  have := (hall _ _ _ rfl hrun).1 5 2 3 (by decide) (by decide)
  cases this

end Voter
end SpannerPaxos
