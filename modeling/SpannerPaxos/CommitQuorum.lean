import SpannerPaxos.MatchSlot
import SpannerPaxos.Quorum

/-! # What a commit stands on

The leader commits the highest slot on its own log and on `quorum_size - 1` of
the match slots.  So a commit is held by a quorum if the match slots are worth
what they say; of two members of a pair or a group of three it is enough that the
acknowledgement that led to the commit is.
-/
namespace SpannerPaxos

open ReplicatedLog

namespace Leader
variable (self : Leader) (ctx : PaxosSharedContext) (env : Env)

/-- A response leaves the members of the score board as they are. -/
theorem handleAcceptResponse_keys (response : AcceptResponse) :
    (self.handleAcceptResponse response ctx env).state.1.scoreBoard.keys =
      self.scoreBoard.keys := by
  rcases self.handleAcceptResponse_cases response ctx env with
    ⟨_, h⟩ | ⟨_, _, fault, h⟩ |
      ⟨_, _, ⟨fault, h⟩ | ⟨fs, _, hget, _, h⟩ | ⟨fs, hint, _, _, hget, h⟩⟩
  · rw [h]
    rfl
  · rw [h]
    rfl
  · rw [h]
    rfl
  · rw [h, advanceCommit_scoreBoard]
    exact AssocMap.keys_insert_of_mem _ (AssocMap.mem_keys_iff.mpr ⟨fs, hget⟩) _
  · rw [h, Attempt.map_state, (dispatchAcceptRequestToFollower_spec _ _ _ _ _).1.keys]
    exact AssocMap.keys_insert_of_mem _ (AssocMap.mem_keys_iff.mpr ⟨fs, hget⟩) _

/-- **A quorum slot is matched by a quorum**, the leader included. -/
theorem exists_quorum_of_le_minQuorumSlot {slot : Nat} (hkeys : self.scoreBoard.keys = ctx.peerIds)
    (hpos : 0 < slot) (hslot : slot ≤ self.minQuorumSlot ctx) (hq : 2 ≤ ctx.getQuorumSize) :
    ∃ Q : List Uuid, Q.Nodup ∧ (∀ p ∈ Q, p ∈ ctx.peerIds) ∧ ctx.getQuorumSize ≤ Q.length + 1 ∧
      ∀ p ∈ Q, ∃ m, self.matchSlot? p = some m ∧ slot ≤ m := by
  have hreach : ∀ m ∈ self.followerSlots.take (ctx.getQuorumSize - 1), slot ≤ m := by
    intro m hm
    unfold minQuorumSlot at hslot
    cases hmin : (self.followerSlots.take (ctx.getQuorumSize - 1) ++
        [ctx.lastLogSlot]).min? with
    | none =>
      rw [hmin, Option.getD_none] at hslot
      omega
    | some least =>
      rw [hmin, Option.getD_some] at hslot
      have hle := (List.min?_eq_some_iff.mp hmin).2 m (List.mem_append_left _ hm)
      omega
  have hlen : (self.scoreBoard.values.map fun fs => fs.logPosition.matchSlot).length =
      ctx.peerIds.length := by
    rw [List.length_map, AssocMap.length_values, AssocMap.size_eq_length_keys, hkeys]
  have hcount : ctx.getQuorumSize - 1 ≤
      (self.scoreBoard.values.map fun fs => fs.logPosition.matchSlot).countP
        fun m => decide (slot ≤ m) := by
    refine Quorum.le_countP_of_forall_take ?_ hreach
    rw [hlen]
    unfold PaxosSharedContext.getQuorumSize at hq ⊢
    omega
  rw [List.countP_map] at hcount
  obtain ⟨Q, hnodup, hlength, hQ⟩ := self.scoreBoard.exists_keys_of_countP
    ((fun m => decide (slot ≤ m)) ∘ fun fs => fs.logPosition.matchSlot)
  refine ⟨Q, hnodup, ?_, by omega, ?_⟩
  · intro p hp
    rw [← hkeys]
    exact (hQ p hp).1
  · intro p hp
    obtain ⟨_, fs, hget, hmatch⟩ := hQ p hp
    refine ⟨fs.logPosition.matchSlot, ?_, of_decide_eq_true hmatch⟩
    rw [matchSlot?, hget]
    rfl

/-- **A response that raises the commit point** is a first acknowledgement by a
member of the score board, and the board with it recorded has the quorum. -/
theorem handleAcceptResponse_raises {response : AcceptResponse}
    (h : ctx.committedSlot < (self.handleAcceptResponse response ctx env).state.2.committedSlot) :
    ∃ fs, response.success = true ∧ self.scoreBoard.get? response.memberId = some fs ∧
      2 ≤ ctx.getQuorumSize ∧
      (self.handleAcceptResponse response ctx env).state.2.committedSlot =
        ((self.recordContact response).setFollower response.memberId
          (fs.recordMatch response.lastWrittenSlot)).minQuorumSlot ctx := by
  have hrenew := (self.recordContact response).renewLease_committedSlot ctx
  rcases self.handleAcceptResponse_cases response ctx env with
    ⟨_, heq⟩ | ⟨_, _, fault, heq⟩ |
      ⟨_, hq, ⟨fault, heq⟩ | ⟨fs, hsuccess, hget, _, heq⟩ | ⟨fs, hint, _, _, _, heq⟩⟩
  · rw [heq] at h
    exact absurd h (lt_irrefl _)
  · rw [heq] at h
    exact absurd h (lt_irrefl _)
  · rw [heq] at h
    exact absurd h (by rw [hrenew]; exact lt_irrefl _)
  · -- the only case that looks at the commit point
    rw [heq] at h ⊢
    refine ⟨fs, hsuccess, hget, hq, ?_⟩
    rcases advanceCommit_ctx _ _ env with hctx | ⟨slot, hctx, _, hslot⟩
    · rw [hctx, hrenew] at h
      exact absurd h (lt_irrefl _)
    · rw [hctx, PaxosSharedContext.commitTo_committedSlot, hslot, renewLease_eq]
      rfl
  · rw [heq] at h
    exact absurd h (by rw [Attempt.map_state, hrenew]; exact lt_irrefl _)

end Leader

namespace Tenure

/-- The commit point is held by a quorum: the leader and enough of its peers have
the same terms and values up to it. -/
def CommitHeld (s : Tenure) : Prop :=
  ∃ Q : List Uuid, Q.Nodup ∧ (∀ p ∈ Q, p ∈ s.ctx.peerIds) ∧ s.ctx.getQuorumSize ≤ Q.length + 1 ∧
    ∀ p ∈ Q, Agree s.wal (s.followerWal p) s.ctx.committedSlot

/-- The score board is about the leader's peers. -/
def BoardOfPeers (s : Tenure) : Prop :=
  ∀ leader, s.leader = some leader → leader.scoreBoard.keys = s.ctx.peerIds

theorem LogNext.sameMember {s s' : Tenure} (h : LogNext s s') : s.ctx.SameMember s'.ctx := by
  cases h with
  | appends e hterm hslot hwal hlast hsame => exact hsame
  | ships hwal hlast hsame => exact hsame
  | answers p request f env hrequest hf hanswered =>
    rw [hanswered.ctx]
    exact .refl _

/-- No step changes who is on the score board. -/
theorem BoardOfPeers.step {s s' : Tenure} {l : Label} (hs : s.BoardOfPeers) (h : Next s s' l) :
    s'.BoardOfPeers := by
  have hpeers := h.logNext.sameMember.peerIds
  have hled : ∀ (leader : Leader) (a : Attempt (Leader × PaxosSharedContext)),
      s.leader = some leader → Led s s' a →
      a.state.1.scoreBoard.keys = leader.scoreBoard.keys → s'.BoardOfPeers := by
    intro leader a hleader hled hkeys leader' hleader'
    rw [hpeers]
    rcases hled.leader with hl | hl
    · rw [hl] at hleader'
      cases Option.some.inj hleader'
      exact hkeys.trans (hs leader hleader)
    · rw [hl] at hleader'
      cases hleader'
  cases h with
  | clientWrite leader hleader h => exact hled leader _ hleader h rfl
  | writeFlush leader hleader h =>
    exact hled leader _ hleader h (leader.handleWriteFlush_standing _ _).keys
  | heartbeat leader hleader h =>
    exact hled leader _ hleader h (leader.handleHeartbeatTimer_standing _ _).keys
  | timeoutCheck leader hleader h =>
    exact hled leader _ hleader h (leader.handleAcceptTimeoutCheck_standing _).keys
  | deliverResponse response hresponse leader hleader hterm h =>
    exact hled leader _ hleader h (leader.handleAcceptResponse_keys _ _ response)
  | deliverRequest request hrequest f hf hanswered =>
    intro leader hleader
    rw [hpeers]
    exact hs leader (hanswered.leader ▸ hleader)

/-- Only an accept response moves the commit point. -/
theorem Next.committedSlot_cases {s s' : Tenure} {l : Label} (h : Next s s' l) :
    s'.ctx.committedSlot = s.ctx.committedSlot ∨
    ∃ p, ∃ response ∈ s.responses p, ∃ leader env, s.leader = some leader ∧
      Led s s' (leader.handleAcceptResponse response s.ctx env) := by
  cases h with
  | clientWrite leader hleader h => exact Or.inl (by rw [h.ctx]; rfl)
  | writeFlush leader hleader h => exact Or.inl (by rw [h.ctx, Leader.handleWriteFlush_ctx])
  | heartbeat leader hleader h =>
    refine Or.inl ?_
    rw [h.ctx]
    exact s.ctx.advanceTSafe_committedSlot _
  | timeoutCheck leader hleader h => exact Or.inl (by rw [h.ctx]; rfl)
  | deliverRequest request hrequest f hf hanswered => exact Or.inl (by rw [hanswered.ctx])
  | deliverResponse response hresponse leader hleader hterm h =>
    exact Or.inr ⟨_, response, List.mem_of_getElem? hresponse, leader, _, hleader, h⟩

/-- The commit point does not go back. -/
theorem Next.committedSlot_le {s s' : Tenure} {l : Label} (h : Next s s' l) :
    s.ctx.committedSlot ≤ s'.ctx.committedSlot := by
  rcases h.committedSlot_cases with heq | ⟨p, response, _, leader, env, _, hled⟩
  · omega
  · rw [hled.ctx]
    obtain ⟨lease, hctx | ⟨slot, hlt, _, hctx⟩⟩ := leader.handleAcceptResponse_ctx s.ctx env response
    · rw [hctx]
    · rw [hctx, PaxosSharedContext.commitTo_committedSlot]
      omega

section
variable {base : Nat} {s s' : Tenure} {leader : Leader} {response : AcceptResponse} {env : Env}

/-- What a member records or acknowledges at or above the new commit point, it agrees
with the leader on. -/
theorem Led.agree (hled : Led s s' (leader.handleAcceptResponse response s.ctx env)) {p : Uuid}
    {m : Nat} (hle : s'.ctx.committedSlot ≤ m)
    (hsame : SameUpTo s.wal.log (s.followerWal p).log m) :
    Agree s'.wal (s'.followerWal p) s'.ctx.committedSlot := by
  have hwal : s'.wal = s.wal := by
    rw [wal, hled.ctx]
    exact (leader.handleAcceptResponse_replicates _ _ response).wal
  intro k hk hkc
  rw [hwal, followerWal, hled.followerCtx]
  exact congrArg _ (hsame k hk (by omega))

/-- A match slot above `base` is worth what it says, also the one that this response
records. -/
theorem HeldInv.matched (hs : s.HeldInv base) (hleader : s.leader = some leader) {q : Uuid}
    (hmem : response ∈ s.responses q) (hsuccess : response.success = true) {fs : FollowerState}
    {p : Uuid} {m : Nat} (hm : ((leader.recordContact response).setFollower response.memberId
      (fs.recordMatch response.lastWrittenSlot)).matchSlot? p = some m) :
    m ≤ base ∨ SameUpTo s.wal.log (s.followerWal p).log m := by
  rw [Leader.matchSlot?_setFollower] at hm
  by_cases hp : p = response.memberId
  · rw [if_pos hp] at hm
    cases Option.some.inj hm
    rw [hp, hs.sender q response hmem]
    exact Or.inr (hs.acked q response hmem hsuccess).1
  · rw [if_neg hp] at hm
    refine hs.recorded p m ?_
    rw [Tenure.matchSlot?, hleader]
    exact hm

/-- **A commit is held by a quorum**, if the followers hold what is recorded for
them.  What is recorded at or below `base` may be worth nothing if that much is
committed, and in a group of at most three whose acknowledgements all reach
`base`. -/
theorem HeldInv.commitHeld {l : Label} (hs : s.HeldInv base) (hboard : s.BoardOfPeers)
    (hbase : base ≤ s.ctx.committedSlot ∨ s.ctx.getQuorumSize ≤ 2 ∧
      ∀ p, ∀ response ∈ s.responses p, response.success = true → base ≤ response.lastWrittenSlot)
    (h : Next s s' l) (hraise : s.ctx.committedSlot < s'.ctx.committedSlot) : s'.CommitHeld := by
  rcases h.committedSlot_cases with heq | ⟨q, response, hmem, leader, env, hleader, hled⟩
  · omega
  have hraised := hraise
  rw [hled.ctx] at hraised
  obtain ⟨fs, hsuccess, hget, hq, hslot⟩ := leader.handleAcceptResponse_raises _ _ hraised
  rw [← hled.ctx] at hslot
  have hkeys := hboard leader hleader
  have hmember : response.memberId ∈ leader.scoreBoard.keys := AssocMap.mem_keys_iff.mpr ⟨fs, hget⟩
  have hpeers : s'.ctx.peerIds = s.ctx.peerIds := h.logNext.sameMember.peerIds
  have hquorum : s'.ctx.getQuorumSize = s.ctx.getQuorumSize := by
    rw [PaxosSharedContext.getQuorumSize, hpeers, PaxosSharedContext.getQuorumSize]
  by_cases hlow : s'.ctx.committedSlot ≤ base
  · -- a group of at most three: the acknowledgement alone makes the quorum
    obtain ⟨hsmall, hacks⟩ : s.ctx.getQuorumSize ≤ 2 ∧ ∀ p, ∀ response ∈ s.responses p,
        response.success = true → base ≤ response.lastWrittenSlot := by
      rcases hbase with hcommitted | hsmall
      · omega
      · exact hsmall
    have hsender : response.memberId = q := hs.sender q response hmem
    refine ⟨[q], List.nodup_singleton q, ?_, ?_, ?_⟩
    · intro p hp
      rw [List.mem_singleton.mp hp, hpeers, ← hkeys, ← hsender]
      exact hmember
    · rw [hquorum]
      exact hsmall
    · intro p hp
      rw [List.mem_singleton.mp hp]
      exact hled.agree (hlow.trans (hacks q response hmem hsuccess))
        (hs.acked q response hmem hsuccess).1
  · -- the quorum that the board shows with this response recorded
    have hkeys' : ((leader.recordContact response).setFollower response.memberId
        (fs.recordMatch response.lastWrittenSlot)).scoreBoard.keys = s.ctx.peerIds := by
      rw [← hkeys]
      exact AssocMap.keys_insert_of_mem _ hmember _
    obtain ⟨Q, hnodup, hsub, hlen, hmatch⟩ := Leader.exists_quorum_of_le_minQuorumSlot _ s.ctx
      hkeys' (by omega) (le_of_eq hslot) hq
    refine ⟨Q, hnodup, ?_, ?_, ?_⟩
    · rw [hpeers]
      exact hsub
    · rw [hquorum]
      exact hlen
    · intro p hp
      obtain ⟨m, hm, hle⟩ := hmatch p hp
      rcases hs.matched hleader hmem hsuccess hm with hbelow | hsame
      · omega
      · exact hled.agree hle hsame

end

end Tenure
end SpannerPaxos
