import SpannerPaxos.ResponseOrder
import Mathlib.Order.Bounds.Defs

/-! # The commit point as an order statistic

The leader sorts the match slots, takes as many as a quorum needs beside itself, and
commits the least of these and of its own last slot.  That is the greatest slot of its
log that so many followers have reached.
-/
namespace SpannerPaxos

namespace Leader
variable (l : Leader) (ctx : PaxosSharedContext) (response : AcceptResponse)

/-- The match slot of a follower, with the response's acknowledgement for its sender. -/
def creditedSlot (p : Uuid) : Nat :=
  if p = response.memberId then response.lastWrittenSlot else (l.matchSlot? p).getD 0

/-- The slot is in the leader's log, and enough followers for a quorum with the leader
have reached it. -/
def QuorumReaches (slot : Nat) : Prop :=
  slot ≤ ctx.lastLogSlot ∧
    ctx.getQuorumSize - 1 ≤ l.scoreBoard.keys.countP fun p =>
      decide (slot ≤ l.creditedSlot response p)

variable {l ctx response}

/-- On a board that covers the group the quorum slot is the greatest such slot. -/
theorem le_minQuorumSlot_setFollower_iff {fs : FollowerState} (slot : Nat)
    (hcovers : ctx.peerIds ⊆ l.scoreBoard.keys)
    (hget : l.scoreBoard.get? response.memberId = some fs) :
    slot ≤ (l.setFollower response.memberId
        (fs.recordMatch response.lastWrittenSlot)).minQuorumSlot ctx ↔
      l.QuorumReaches ctx response slot := by
  have hkeys : (l.setFollower response.memberId
      (fs.recordMatch response.lastWrittenSlot)).scoreBoard.keys = l.scoreBoard.keys :=
    AssocMap.keys_insert_of_mem _ (AssocMap.mem_keys_iff.mpr ⟨fs, hget⟩) _
  have hcount : (l.setFollower response.memberId
      (fs.recordMatch response.lastWrittenSlot)).scoreBoard.values.countP
        (fun fs => decide (slot ≤ fs.logPosition.matchSlot)) =
      l.scoreBoard.keys.countP fun p => decide (slot ≤ l.creditedSlot response p) := by
    rw [← hkeys]
    refine AssocMap.countP_values_eq _ ?_
    intro p fs' hfs'
    rw [setFollower, AssocMap.get?_insert] at hfs'
    rw [creditedSlot]
    split at hfs'
    · rename_i hp
      cases Option.some.inj hfs'
      rw [if_pos hp]
      rfl
    · rename_i hp
      rw [if_neg hp, matchSlot?, hfs']
      rfl
  -- the group is on the board, so the board is long enough for a quorum
  have hlength : ctx.peerIds.length ≤ l.scoreBoard.keys.length :=
    (List.subperm_of_subset ctx.peerIds_nodup hcovers).length_le
  have hpeers : 1 ≤ l.scoreBoard.keys.length :=
    List.length_pos_of_mem (AssocMap.mem_keys_iff.mpr ⟨fs, hget⟩)
  have hquorum : ctx.getQuorumSize - 1 ≤ l.scoreBoard.keys.length := by
    unfold PaxosSharedContext.getQuorumSize
    omega
  rw [le_minQuorumSlot_iff, QuorumReaches, hcount, AssocMap.size_eq_length_keys, hkeys,
    min_eq_left hquorum]

/-- What a look at the commit point leaves it at. -/
theorem advanceCommit_committedSlot (l : Leader) (ctx : PaxosSharedContext) (env : Env) :
    (l.advanceCommit ctx env).state.2.committedSlot =
      max ctx.committedSlot (l.minQuorumSlot ctx) := by
  unfold advanceCommit
  dsimp only
  split
  · rename_i hlt
    rw [Attempt.map_state, PaxosSharedContext.commitTo_committedSlot,
      max_eq_right (Nat.le_of_lt hlt)]
  · rename_i hle
    exact (max_eq_left (Nat.not_lt.mp hle)).symm

/-- **The commit point after a first acknowledgement** is the old one or the greatest slot
that a quorum has reached, whichever is higher. -/
theorem committedSlot_of_acknowledgement (l : Leader) (ctx : PaxosSharedContext)
    (response : AcceptResponse) (env : Env) {fs : FollowerState}
    (hcovers : ctx.peerIds ⊆ l.scoreBoard.keys) (hsender : response.memberId ∈ ctx.peerIds)
    (hterm : response.term = ctx.term) (hsuccess : response.success = true)
    (hget : l.scoreBoard.get? response.memberId = some fs)
    (hnew : fs.logPosition.matchSlot < response.lastWrittenSlot) :
    ∃ slot, IsGreatest {s | l.QuorumReaches ctx response s} slot ∧
      (l.handleAcceptResponse response ctx env).state.2.committedSlot =
        max ctx.committedSlot slot := by
  have hcredits : Credits l ctx response := ⟨hsuccess, hterm, hcovers hsender⟩
  have hrenew := (l.recordContact response).renewLease_sameMember ctx
  have hlast := (l.recordContact response).renewLease_lastLogSlot ctx
  have hcommitted := (l.recordContact response).renewLease_committedSlot ctx
  -- neither the contact nor the lease matters to the quorum slot
  have hslot : ((l.recordContact response).setFollower response.memberId
      (fs.recordMatch response.lastWrittenSlot)).minQuorumSlot
        ((l.recordContact response).renewLease ctx) =
      (l.setFollower response.memberId
        (fs.recordMatch response.lastWrittenSlot)).minQuorumSlot ctx :=
    minQuorumSlot_congr rfl hrenew.peerIds hlast
  have hreaches := fun s =>
    le_minQuorumSlot_setFollower_iff s hcovers hget
  refine ⟨_, ⟨(hreaches _).mp (le_refl _), fun s hs => (hreaches s).mpr hs⟩, ?_⟩
  rw [hcredits.handleAcceptResponse_eq (List.length_pos_of_mem hsender) hget, if_pos hnew,
    advanceCommit_committedSlot, hslot, hcommitted]

/-- Member 2 of three acknowledges the one write there is. -/
theorem committedSlot_of_acknowledgement_oneWrite :
    (oneWrite.1.handleAcceptResponse (oneAnswer 2).1 oneWrite.2
      (oneAnswer 2).2).state.2.committedSlot = 1 := by
  have hget : oneWrite.1.scoreBoard.get? (oneAnswer 2).1.memberId = some ⟨⟨0, 1, 0⟩, []⟩ := rfl
  obtain ⟨slot, hgreatest, heq⟩ := committedSlot_of_acknowledgement oneWrite.1 oneWrite.2
    (oneAnswer 2).1 (oneAnswer 2).2 (by decide) (by decide) rfl rfl hget (by decide)
  have hle : slot ≤ 1 := hgreatest.1.1
  have hge : 1 ≤ slot := hgreatest.2 ⟨by decide, by decide⟩
  rw [heq, le_antisymm hle hge]
  decide

end Leader
end SpannerPaxos
