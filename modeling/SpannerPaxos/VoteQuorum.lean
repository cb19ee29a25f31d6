import SpannerPaxos.Transitions
import SpannerPaxos.Runs

/-! # What a vote quorum is a quorum of

A Candidate keeps the last response of every peer and counts Promises.  A
response does not say which campaign it answers, and the Candidate, unlike its
sibling roles, does not look at its term either; so a late Promise of an earlier
campaign counts.  The campaign is won by a quorum that answered it when no such
Promise comes in.
-/
namespace SpannerPaxos

/-- A vote response, with the term of the vote request it answers. -/
structure VoteAnswer where
  response : VoteResponse
  requestTerm : Nat

/-- A member on a campaign in term `term`, and the peers whose Promise for that
term's vote request has come in. -/
structure Campaign where
  role : PaxosState
  ctx : PaxosSharedContext
  term : Nat
  promisers : List Uuid

namespace Campaign

/-- A vote response from a peer is processed. -/
def step (s : Campaign) (l : VoteAnswer × Env) : Option Campaign :=
  let response := l.1.response
  if response.memberId ∈ s.ctx.peerIds then
    let o := s.role.processEvent (.voteResponseReceived response) s.ctx false l.2
    match o.result with
    | .ok role => some
      { role := role
        ctx := o.ctx
        term := s.term
        promisers :=
          if response.outcome.isPromise ∧ l.1.requestTerm = s.term then
            response.memberId :: s.promisers
          else s.promisers }
    | .error _ => none
  else none

/-- The campaign that a won pre-vote starts. -/
def start (ctx : PaxosSharedContext) (env : Env) : Campaign :=
  let campaignCtx := { ctx with term := ctx.term + 1 }
  { role := .candidate ((Candidate.new ctx).dispatchVote campaignCtx env).state
    ctx := campaignCtx
    term := ctx.term + 1
    promisers := [] }

/-- A leader has the Promises of a quorum for its own campaign. -/
def WonByQuorum (s : Campaign) : Prop :=
  ∀ l, s.role = .leader l → ∃ Q : List Uuid, Q.Nodup ∧
    (∀ p ∈ Q, p ∈ s.ctx.peerIds ∧ p ∈ s.promisers) ∧ s.ctx.getQuorumSize ≤ Q.length + 1

/-- A Promise that reaches the Candidate answers this campaign's request. -/
def Timely (s : Campaign) (l : VoteAnswer × Env) : Prop :=
  ∀ c, s.role = .candidate c → l.1.response.outcome.isPromise = true → l.1.requestTerm = s.term

end Campaign

namespace Candidate

theorem recordVote_voteBoard {c c' : Candidate} {response : VoteResponse}
    {ctx : PaxosSharedContext} (h : c.recordVote response ctx = some c') :
    c'.voteBoard = c.voteBoard.insert response.memberId (some response) := by
  unfold recordVote at h
  dsimp only at h
  split at h
  · cases Option.some.inj h
    rfl
  · split at h
    · split at h
      · cases h
      · cases Option.some.inj h
        rfl
    · cases Option.some.inj h
      rfl

/-- Sending the vote requests leaves the board alone. -/
theorem dispatchVote_voteBoard (self : Candidate) (ctx : PaxosSharedContext) (env : Env) :
    (self.dispatchVote ctx env).state.voteBoard = self.voteBoard := by
  unfold dispatchVote
  dsimp only
  split <;> rfl

/-- A new Candidate's board has every peer on it, and no response. -/
theorem new_voteBoard (ctx : PaxosSharedContext) :
    (Candidate.new ctx).voteBoard.keys = ctx.peerIds ∧
      ∀ p v, (Candidate.new ctx).voteBoard.get? p = some v → v = none := by
  refine ⟨AssocMap.keys_ofKeys ctx.peerIds ctx.peerIds_nodup _, ?_⟩
  intro p v hget
  simp only [Candidate.new, AssocMap.get?_ofKeys] at hget
  split at hget
  · exact (Option.some.inj hget).symm
  · cases hget

/-- The Candidate's board has a slot for every peer, and the senders of its Promises
satisfy `P`. -/
structure Board (c : Candidate) (ctx : PaxosSharedContext) (P : Uuid → Prop) : Prop where
  keys : c.voteBoard.keys = ctx.peerIds
  promised : ∀ p r, c.voteBoard.get? p = some (some r) → r.outcome.isPromise = true → P p

namespace Board
variable {c c' : Candidate} {ctx : PaxosSharedContext} {P P' : Uuid → Prop}

theorem mono (hb : c.Board ctx P) (h : ∀ p, P p → P' p) : c.Board ctx P' :=
  ⟨hb.keys, fun p r hget hpromise => h p (hb.promised p r hget hpromise)⟩

/-- Before any response the board is empty. -/
theorem dispatched (ctx ctx' : PaxosSharedContext) (env : Env) (P : Uuid → Prop)
    (hpeers : ctx'.peerIds = ctx.peerIds) :
    (((Candidate.new ctx).dispatchVote ctx' env).state).Board ctx' P := by
  obtain ⟨hkeys, hnone⟩ := new_voteBoard ctx
  refine ⟨?_, ?_⟩
  · rw [dispatchVote_voteBoard, hpeers]
    exact hkeys
  · intro p r hget
    rw [dispatchVote_voteBoard] at hget
    cases hnone p _ hget

/-- A quorum on the board is a quorum of senders that satisfy `P`. -/
theorem quorum (hb : c.Board ctx P) (hquorum : c.hasVoteQuorum = true) :
    ∃ Q : List Uuid, Q.Nodup ∧ (∀ p ∈ Q, p ∈ ctx.peerIds ∧ P p) ∧
      ctx.getQuorumSize ≤ Q.length + 1 := by
  obtain ⟨Q, hnodup, hlength, hQ⟩ := c.voteBoard.exists_keys_of_countP isGranted
  have hcount := of_decide_eq_true hquorum
  have hsize : c.voteBoard.size = ctx.peerIds.length := by
    rw [AssocMap.size_eq_length_keys, hb.keys]
  refine ⟨Q, hnodup, ?_, ?_⟩
  · intro p hp
    obtain ⟨hkey, v, hv, hgranted⟩ := hQ p hp
    refine ⟨hb.keys ▸ hkey, ?_⟩
    cases v with
    | none => cases hgranted
    | some r => exact hb.promised p r hv hgranted
  · unfold PaxosSharedContext.getQuorumSize
    omega

/-- Recording a response of a peer that satisfies `P` if it promises. -/
theorem record {response : VoteResponse} (hb : c.Board ctx P)
    (hpeer : response.memberId ∈ ctx.peerIds) (h : c.recordVote response ctx = some c')
    (hnew : response.outcome.isPromise = true → P response.memberId) : c'.Board ctx P := by
  have hboard := recordVote_voteBoard h
  refine ⟨?_, ?_⟩
  · rw [hboard, AssocMap.keys_insert_of_mem, hb.keys]
    rw [hb.keys]
    exact hpeer
  · intro p r hget hpromise
    rw [hboard, AssocMap.get?_insert] at hget
    split at hget
    · rename_i hp
      cases Option.some.inj (Option.some.inj hget)
      exact hp ▸ hnew hpromise
    · exact hb.promised p r hget hpromise

end Board
end Candidate

namespace Campaign

/-- The board of a Candidate counts promisers, and a Leader had a quorum of them. -/
structure Inv (s : Campaign) : Prop where
  board : ∀ c, s.role = .candidate c → c.Board s.ctx fun p => p ∈ s.promisers
  won : s.WonByQuorum

theorem Inv.start (ctx : PaxosSharedContext) (env : Env) : (start ctx env).Inv where
  board c hc := by
    cases hc
    exact .dispatched ctx { ctx with term := ctx.term + 1 } env _ rfl
  won l hl := by cases hl

/-- A quorum stays one while the group stays and promisers come. -/
theorem WonByQuorum.mono {s s' : Campaign} {l : Leader} (hs : s.WonByQuorum)
    (hl : s.role = .leader l)
    (hpeers : s'.ctx.peerIds = s.ctx.peerIds) (hsub : ∀ p ∈ s.promisers, p ∈ s'.promisers) :
    s'.WonByQuorum := by
  intro _ _
  obtain ⟨Q, hnodup, hQ, hlength⟩ := hs l hl
  refine ⟨Q, hnodup, ?_, ?_⟩
  · intro p hp
    exact ⟨hpeers ▸ (hQ p hp).1, hsub p (hQ p hp).2⟩
  · unfold PaxosSharedContext.getQuorumSize at hlength ⊢
    rw [hpeers]
    exact hlength

/-- The promisers of the next state. -/
theorem promisers_step {s s' : Campaign} {l : VoteAnswer × Env} (h : s.step l = some s') :
    (∀ p ∈ s.promisers, p ∈ s'.promisers) ∧
      (l.1.response.outcome.isPromise = true → l.1.requestTerm = s.term →
        l.1.response.memberId ∈ s'.promisers) := by
  unfold step at h
  dsimp only at h
  split at h
  · split at h
    · cases Option.some.inj h
      dsimp only
      split
      · exact ⟨fun p hp => List.mem_cons_of_mem _ hp, fun _ _ => List.mem_cons_self⟩
      · rename_i hnot
        exact ⟨fun p hp => hp, fun hp ht => absurd ⟨hp, ht⟩ hnot⟩
    · cases h
  · cases h

/-- The sender of a response is a peer, and the next role is what processing it
ends in. -/
theorem of_step {s s' : Campaign} {l : VoteAnswer × Env} (h : s.step l = some s') :
    l.1.response.memberId ∈ s.ctx.peerIds ∧
      (s.role.processEvent (.voteResponseReceived l.1.response) s.ctx false l.2).result =
        .ok s'.role ∧
      s'.ctx = (s.role.processEvent (.voteResponseReceived l.1.response) s.ctx false l.2).ctx := by
  unfold step at h
  dsimp only at h
  split at h
  · rename_i hpeer
    split at h
    · rename_i role hresult
      cases Option.some.inj h
      exact ⟨hpeer, hresult, rfl⟩
    · cases h
  · cases h

theorem Inv.step {s s' : Campaign} {l : VoteAnswer × Env} (hs : s.Inv) (hok : s.Timely l)
    (h : s.step l = some s') : s'.Inv := by
  obtain ⟨hpeer, hresult, hctx⟩ := of_step h
  obtain ⟨hsub, hnew⟩ := promisers_step h
  rw [PaxosState.processEvent_eq] at hresult hctx
  rcases s.role.adoptTerm_cases (.voteResponseReceived l.1.response) s.ctx with
    hkept | ⟨term, _, _, hadopt⟩
  · rw [hkept] at hresult hctx
    refine ⟨?_, ?_⟩
    · intro c hc
      rw [hc] at hresult
      rcases PaxosState.candidate_of_handleEvent hresult with
        ⟨p, response, _, hevent, _⟩ | ⟨c₀, hrole, hsame, hboard⟩
      · cases hevent
      · have hb := hs.board c₀ hrole
        rw [hctx, hsame]
        rcases hboard with rfl | ⟨response, hevent, hrecord⟩
        · exact hb.mono hsub
        · cases hevent
          exact (hb.mono hsub).record hpeer hrecord fun hp => hnew hp (hok c₀ hrole hp)
    · intro lead hlead
      rw [hlead] at hresult
      obtain ⟨hsame, hcause⟩ := PaxosState.leader_of_handleEvent hresult
      rw [← hctx] at hsame
      rcases hcause with ⟨c, c', response, hrole, hevent, hrecord, hquorum⟩ | ⟨l₀, hl₀⟩
      · cases hevent
        obtain ⟨Q, hnodup, hQ, hlength⟩ := (((hs.board c hrole).mono hsub).record hpeer hrecord
          fun hp => hnew hp (hok c hrole hp)).quorum hquorum
        refine ⟨Q, hnodup, by rwa [hsame.peerIds], ?_⟩
        unfold PaxosSharedContext.getQuorumSize at hlength ⊢
        rwa [hsame.peerIds]
      · exact hs.won.mono hl₀ hsame.peerIds hsub lead hlead
  · rw [hadopt] at hresult
    refine ⟨?_, ?_⟩
    · intro c hc
      rw [hc] at hresult
      cases Follower.handleEvent_next hresult
    · intro lead hlead
      rw [hlead] at hresult
      cases Follower.handleEvent_next hresult

/-- **A campaign is won by a quorum that answered it**, when no Promise of an
earlier campaign comes in. -/
theorem wonByQuorum_of_timely {ctx : PaxosSharedContext} {env : Env} {s : Campaign}
    (h : Runs Campaign.step Campaign.Timely (start ctx env) s) : s.WonByQuorum :=
  (h.invariant (Inv.start ctx env) fun _ _ _ ha hok hs => ha.step hok hs).won

/-! ## A late Promise -/

/-- Member 1 of a group of three, about to campaign in term 2 after a campaign in
term 1 that came to nothing. -/
def secondCampaign : PaxosSharedContext :=
  { PaxosSharedContext.memberOfThree 1 with term := 1 }

/-- The answer of member 2, a Follower of a fresh group, to the vote request of
term 1. -/
def promiseOfTermOne : VoteResponse :=
  ((Follower.new none).handleVoteRequest ⟨1, 1, 0, 0⟩
    (PaxosSharedContext.memberOfThree 2) (.steady (Duration.seconds 1))).2.1

theorem wonByQuorum_of_timely_promise :
    ∃ s, (start secondCampaign (.steady (Duration.seconds 2))).step
        (⟨promiseOfTermOne, 2⟩, .steady (Duration.seconds 3)) = some s ∧
      s.role.isLeader = true ∧ s.WonByQuorum := by
  refine ⟨_, rfl, rfl, ?_⟩
  refine @wonByQuorum_of_timely secondCampaign (.steady (Duration.seconds 2)) _ ?_
  exact (Runs.refl _).tail (⟨promiseOfTermOne, 2⟩, .steady (Duration.seconds 3))
    (fun _ _ _ => rfl) rfl

/-- The Promise for term 1 comes in during the campaign of term 2 and wins it,
though no peer has answered the vote request of term 2. -/
theorem not_wonByQuorum_late :
    ¬ ∀ (ctx : PaxosSharedContext) (env : Env) (s : Campaign),
      Reaches Campaign.step (start ctx env) s → s.WonByQuorum := by
  intro hall
  have hrun : Reaches Campaign.step (start secondCampaign (.steady (Duration.seconds 2))) _ :=
    Runs.of_exec [(⟨promiseOfTermOne, 1⟩, .steady (Duration.seconds 3))] rfl
  obtain ⟨Q, _, hQ, hlength⟩ := hall _ _ _ hrun _ rfl
  cases Q with
  | nil => exact absurd hlength (by decide)
  | cons p Q => exact absurd (hQ p List.mem_cons_self).2 List.not_mem_nil

end Campaign
end SpannerPaxos
