import SpannerPaxos.CommitPoint
import SpannerPaxos.VoteQuorum
import Mathlib.Data.Finset.Card

/-! # Quorum intersection

Three places work out how many members are a majority: a Candidate from the size of its
board, with a vote of its own that is not on the board; a Leader from the number of its
peers, of which it takes one less because it counts itself apart; and the context, which
the Leader asks.  The sets they accept are counted here as sets of members.  Each is more
than half of the group, so any two of them share a member.
-/
namespace AssocMap
variable {κ α : Type} [DecidableEq κ] (m : AssocMap κ α) (p : α → Bool)

/-- The keys whose value satisfies `p`. -/
def keysWhere : Finset κ := m.keys.toFinset.filter fun k => (m.get? k).any p = true

theorem mem_keysWhere_iff {k : κ} : k ∈ m.keysWhere p ↔ ∃ v, m.get? k = some v ∧ p v = true := by
  rw [keysWhere, Finset.mem_filter, List.mem_toFinset, Option.any_eq_true, mem_keys_iff]
  refine and_iff_right_of_imp ?_
  rintro ⟨v, hget, _⟩
  exact ⟨v, hget⟩

/-- As many keys carry a value that satisfies `p` as there are such values. -/
theorem card_keysWhere : (m.keysWhere p).card = m.values.countP p := by
  have hcount : m.values.countP p = m.keys.countP fun k => (m.get? k).any p := by
    refine m.countP_values_eq ?_
    intro k v hget
    rw [hget, Option.any_some]
  rw [keysWhere, hcount, List.countP_eq_length_filter, ← List.toFinset_filter,
    List.toFinset_card_of_nodup (m.keys_nodup.filter _)]

end AssocMap

namespace SpannerPaxos

/-! ## The group -/

/-- `members` are the member of this context and its peers. -/
structure PaxosSharedContext.InGroup (ctx : PaxosSharedContext) (members : Finset Uuid) : Prop where
  memberId_mem : ctx.memberId ∈ members
  mem_peerIds_iff : ∀ p, p ∈ ctx.peerIds ↔ p ∈ members ∧ p ≠ ctx.memberId

namespace PaxosSharedContext.InGroup
variable {ctx : PaxosSharedContext} {members : Finset Uuid}

theorem erase_eq (h : ctx.InGroup members) :
    members.erase ctx.memberId = ctx.peerIds.toFinset := by
  ext p
  rw [Finset.mem_erase, List.mem_toFinset, h.mem_peerIds_iff p]
  exact and_comm

theorem card_eq (h : ctx.InGroup members) : members.card = ctx.peerIds.length + 1 := by
  have herase := Finset.card_erase_add_one h.memberId_mem
  rw [h.erase_eq, List.toFinset_card_of_nodup ctx.peerIds_nodup] at herase
  exact herase.symm

/-- Two quorums are more than the group. -/
theorem card_lt (h : ctx.InGroup members) : members.card < 2 * ctx.getQuorumSize := by
  rw [h.card_eq]
  unfold getQuorumSize
  omega

/-- A quorum needs no more followers than there are peers. -/
theorem getQuorumSize_sub_one_le (ctx : PaxosSharedContext) :
    ctx.getQuorumSize - 1 ≤ ctx.peerIds.length := by
  unfold getQuorumSize
  omega

/-- Members of one group agree on the size of a quorum. -/
theorem getQuorumSize_eq {ctx' : PaxosSharedContext} (h : ctx.InGroup members)
    (h' : ctx'.InGroup members) : ctx'.getQuorumSize = ctx.getQuorumSize := by
  have hcard := h.card_eq
  have hcard' := h'.card_eq
  unfold getQuorumSize
  omega

/-- **Sets of as many members as a quorum share one.** -/
theorem exists_mem_mem {ctx' : PaxosSharedContext} {V W : Finset Uuid} (h : ctx.InGroup members)
    (h' : ctx'.InGroup members) (hV : V ⊆ members) (hW : W ⊆ members)
    (hcardV : ctx.getQuorumSize ≤ V.card) (hcardW : ctx'.getQuorumSize ≤ W.card) :
    ∃ p ∈ V, p ∈ W := by
  have hsum : members.card < V.card + W.card := by
    have hlt := h.card_lt
    have hsame := h.getQuorumSize_eq h'
    omega
  obtain ⟨p, hp⟩ := Finset.inter_nonempty_of_card_lt_card_add_card hV hW hsum
  obtain ⟨hpV, hpW⟩ := Finset.mem_inter.mp hp
  exact ⟨p, hpV, hpW⟩

end PaxosSharedContext.InGroup

/-- A board has an entry for each peer and for nobody else. -/
def KeyedByPeers {α : Type} (board : AssocMap Uuid α) (ctx : PaxosSharedContext) : Prop :=
  ∀ p, p ∈ board.keys ↔ p ∈ ctx.peerIds

namespace KeyedByPeers
variable {α : Type} {board : AssocMap Uuid α} {ctx : PaxosSharedContext} {members : Finset Uuid}
  {p : Uuid} {v : α}

theorem size_eq (h : KeyedByPeers board ctx) : board.size = ctx.peerIds.length := by
  have hperm := (List.perm_ext_iff_of_nodup board.keys_nodup ctx.peerIds_nodup).mpr h
  rw [AssocMap.size_eq_length_keys, hperm.length_eq]

/-- Who is on the board is another member of the group. -/
theorem member_of_get? (h : KeyedByPeers board ctx) (hgroup : ctx.InGroup members)
    (hget : board.get? p = some v) : p ∈ members ∧ p ≠ ctx.memberId :=
  (hgroup.mem_peerIds_iff p).mp ((h p).mp (AssocMap.mem_keys_iff.mpr ⟨v, hget⟩))

/-- The owner of a board is not on it. -/
theorem memberId_notMem (h : KeyedByPeers board ctx) (hgroup : ctx.InGroup members)
    (q : α → Bool) : ctx.memberId ∉ board.keysWhere q := by
  intro hself
  obtain ⟨v, hget, _⟩ := (board.mem_keysWhere_iff q).mp hself
  exact (h.member_of_get? hgroup hget).2 rfl

end KeyedByPeers

/-! ## The quorum of an election -/

/-- `V` are the peers that have granted this Candidate their vote and the Candidate itself,
and they pass for a quorum. -/
structure Candidate.ElectedBy (c : Candidate) (ctx : PaxosSharedContext)
    (members V : Finset Uuid) : Prop where
  inGroup : ctx.InGroup members
  keyed : KeyedByPeers c.voteBoard ctx
  hasVoteQuorum : c.hasVoteQuorum = true
  eq_insert : V = insert ctx.memberId (c.voteBoard.keysWhere isGranted)

namespace Candidate.ElectedBy
variable {c : Candidate} {ctx : PaxosSharedContext} {members V : Finset Uuid}

theorem subset (h : c.ElectedBy ctx members V) : V ⊆ members := by
  rw [h.eq_insert, Finset.insert_subset_iff]
  refine ⟨h.inGroup.memberId_mem, ?_⟩
  intro p hp
  obtain ⟨v, hget, _⟩ := (AssocMap.mem_keysWhere_iff _ _).mp hp
  exact (h.keyed.member_of_get? h.inGroup hget).1

/-- **Who elects a Candidate are a quorum**, the Candidate's own vote included. -/
theorem getQuorumSize_le (h : c.ElectedBy ctx members V) : ctx.getQuorumSize ≤ V.card := by
  have hquorum := of_decide_eq_true h.hasVoteQuorum
  rw [h.keyed.size_eq] at hquorum
  rw [h.eq_insert, Finset.card_insert_of_notMem (h.keyed.memberId_notMem h.inGroup isGranted),
    AssocMap.card_keysWhere]
  exact hquorum

end Candidate.ElectedBy

/-! ## The quorum of a commit -/

/-- `C` are the Leader and followers enough, all of which have `slot`. -/
structure Leader.CommittedBy (l : Leader) (ctx : PaxosSharedContext) (slot : Nat)
    (members C : Finset Uuid) : Prop where
  inGroup : ctx.InGroup members
  keyed : KeyedByPeers l.scoreBoard ctx
  memberId_mem : ctx.memberId ∈ C
  slot_le : slot ≤ ctx.lastLogSlot
  matched : ∀ p ∈ C, p ≠ ctx.memberId →
    ∃ fs, l.scoreBoard.get? p = some fs ∧ slot ≤ fs.logPosition.matchSlot
  followers : ctx.getQuorumSize - 1 ≤ (C.erase ctx.memberId).card

namespace Leader.CommittedBy
variable {l : Leader} {ctx : PaxosSharedContext} {slot : Nat} {members C : Finset Uuid}

theorem subset (h : l.CommittedBy ctx slot members C) : C ⊆ members := by
  intro p hp
  by_cases hself : p = ctx.memberId
  · rw [hself]
    exact h.inGroup.memberId_mem
  · obtain ⟨fs, hget, _⟩ := h.matched p hp hself
    exact (h.keyed.member_of_get? h.inGroup hget).1

theorem getQuorumSize_le (h : l.CommittedBy ctx slot members C) :
    ctx.getQuorumSize ≤ C.card := by
  have hcard := Finset.card_erase_add_one h.memberId_mem
  have hfollowers := h.followers
  omega

/-- **The Leader commits what such a set justifies**, and nothing else. -/
theorem le_minQuorumSlot_iff (hgroup : ctx.InGroup members)
    (hkeyed : KeyedByPeers l.scoreBoard ctx) :
    slot ≤ l.minQuorumSlot ctx ↔ ∃ C, l.CommittedBy ctx slot members C := by
  have hsize : min (ctx.getQuorumSize - 1) l.scoreBoard.size = ctx.getQuorumSize - 1 := by
    rw [hkeyed.size_eq]
    exact min_eq_left (PaxosSharedContext.InGroup.getQuorumSize_sub_one_le ctx)
  rw [Leader.le_minQuorumSlot_iff, hsize, ← AssocMap.card_keysWhere]
  constructor
  · rintro ⟨hslot, hcount⟩
    refine ⟨insert ctx.memberId
        (l.scoreBoard.keysWhere fun fs => decide (slot ≤ fs.logPosition.matchSlot)),
      hgroup, hkeyed, Finset.mem_insert_self _ _, hslot, ?_, ?_⟩
    · intro p hp hne
      obtain ⟨fs, hget, hle⟩ := (AssocMap.mem_keysWhere_iff _ _).mp
        ((Finset.mem_insert.mp hp).resolve_left hne)
      exact ⟨fs, hget, of_decide_eq_true hle⟩
    · rw [Finset.erase_insert (hkeyed.memberId_notMem hgroup _)]
      exact hcount
  · rintro ⟨C, h⟩
    refine ⟨h.slot_le, le_trans h.followers (Finset.card_le_card ?_)⟩
    intro p hp
    obtain ⟨hne, hC⟩ := Finset.mem_erase.mp hp
    obtain ⟨fs, hget, hle⟩ := h.matched p hC hne
    exact (AssocMap.mem_keysWhere_iff _ _).mpr ⟨fs, hget, decide_eq_true hle⟩

/-- Such a set stands behind every response that raises the commit point, on the board with
the response recorded. -/
theorem of_handleAcceptResponse {response : AcceptResponse} {env : Env}
    (hgroup : ctx.InGroup members) (hkeyed : KeyedByPeers l.scoreBoard ctx)
    (h : ctx.committedSlot < (l.handleAcceptResponse response ctx env).state.2.committedSlot) :
    ∃ fs C, l.scoreBoard.get? response.memberId = some fs ∧
      ((l.recordContact response).setFollower response.memberId
        (fs.recordMatch response.lastWrittenSlot)).CommittedBy ctx
          (l.handleAcceptResponse response ctx env).state.2.committedSlot members C := by
  obtain ⟨fs, _, hget, _, hslot⟩ := l.handleAcceptResponse_raises ctx env h
  have hkeys : KeyedByPeers ((l.recordContact response).setFollower response.memberId
      (fs.recordMatch response.lastWrittenSlot)).scoreBoard ctx := by
    intro p
    rw [← hkeyed p]
    exact iff_of_eq (congrArg (p ∈ ·)
      (AssocMap.keys_insert_of_mem _ (AssocMap.mem_keys_iff.mpr ⟨fs, hget⟩) _))
  obtain ⟨C, hC⟩ := (le_minQuorumSlot_iff hgroup hkeys).mp (le_of_eq hslot)
  exact ⟨fs, C, hget, hC⟩

end Leader.CommittedBy

/-! ## Any two share a member -/

/-- **Quorum intersection.**  Who elects a Candidate shares a member with who elects any
other, and with every set that justifies a commit; and the sets that justify a commit are
those behind the quorum slot the Leader works out. -/
theorem quorums_intersect (members : Finset Uuid) :
    (∀ (c : Candidate) ctx V, c.ElectedBy ctx members V →
      (∀ (c' : Candidate) ctx' V', c'.ElectedBy ctx' members V' → ∃ p ∈ V, p ∈ V') ∧
      ∀ (l : Leader) ctx' slot C, l.CommittedBy ctx' slot members C → ∃ p ∈ V, p ∈ C) ∧
    ∀ (l : Leader) ctx slot, ctx.InGroup members → KeyedByPeers l.scoreBoard ctx →
      (slot ≤ l.minQuorumSlot ctx ↔ ∃ C, l.CommittedBy ctx slot members C) := by
  refine ⟨?_, fun l ctx slot => Leader.CommittedBy.le_minQuorumSlot_iff⟩
  intro c ctx V hV
  refine ⟨?_, ?_⟩
  · intro c' ctx' V' hV'
    exact hV.inGroup.exists_mem_mem hV'.inGroup hV.subset hV'.subset hV.getQuorumSize_le
      hV'.getQuorumSize_le
  · intro l ctx' slot C hC
    exact hV.inGroup.exists_mem_mem hC.inGroup hV.subset hC.subset hV.getQuorumSize_le
      hC.getQuorumSize_le

/-- The group of 1, 2 and 3. -/
theorem inGroup_of_three {ctx : PaxosSharedContext} (hmem : ctx.memberId ∈ [1, 2, 3])
    (hpeers : ctx.peerIds = List.erase [1, 2, 3] ctx.memberId) : ctx.InGroup {1, 2, 3} where
  memberId_mem := by
    simpa using hmem
  mem_peerIds_iff p := by
    rw [hpeers, List.Nodup.mem_erase_iff (by decide), and_comm]
    simp

/-- Member 3 elects member 2, and member 1 commits its write together with member 3. -/
theorem quorums_intersect_third_member :
    ∃ p ∈ ({2, 3} : Finset Uuid), p ∈ ({1, 3} : Finset Uuid) := by
  have helected : Candidate.ElectedBy
      { Candidate.new (PaxosSharedContext.memberOfThree 2) with
        voteBoard := (Candidate.new (PaxosSharedContext.memberOfThree 2)).voteBoard.insert 3
          (some Campaign.promiseOfTermOne) }
      (PaxosSharedContext.memberOfThree 2) {1, 2, 3} {2, 3} :=
    ⟨inGroup_of_three (by decide) rfl, fun p => Iff.rfl, by decide, by decide⟩
  have hcommitted : Leader.CommittedBy (Leader.absorb Leader.oneWrite [Leader.oneAnswer 3]).state.1
      (Leader.absorb Leader.oneWrite [Leader.oneAnswer 3]).state.2 1 {1, 2, 3} {1, 3} := by
    refine ⟨inGroup_of_three (by decide) rfl, fun p => Iff.rfl, by decide, by decide, ?_, by decide⟩
    intro p hp hne
    have hthree : p = 3 := by
      have hcases : p = 1 ∨ p = 3 := by simpa using hp
      exact hcases.resolve_left hne
    rw [hthree]
    exact ⟨_, rfl, by decide⟩
  exact ((quorums_intersect {1, 2, 3}).1 _ _ _ helected).2 _ _ _ _ hcommitted

end SpannerPaxos
