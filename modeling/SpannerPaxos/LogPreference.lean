import SpannerPaxos.VoteParity
import Mathlib.Data.Fintype.Order
import Mathlib.Data.Set.Finite.Basic

/-! # Logs that reject each other

A voter turns a candidate down for a lower last log term, and then, whatever the two
terms were, for a lower last log slot.  So a log is acceptable to another when it is at
least as far in both, which is no total order: a short log that ends in a later term and
a long one that ends in an earlier term reject each other.
-/
namespace SpannerPaxos

/-- Where a log ends, as a vote request carries it: last log term, last log slot. -/
def PaxosSharedContext.lastLog (ctx : PaxosSharedContext) : Nat × Nat :=
  (ctx.lastLogTerm, ctx.lastLogSlot)

/-- A member in the Follower role, and what it reads while it answers. -/
structure Elector where
  follower : Follower
  ctx : PaxosSharedContext
  env : Env

namespace Elector

/-- Its lease is over and it has no vote on record. -/
structure Unbound (m : Elector) : Prop where
  leaseExpired : m.ctx.isLeaderLeaseExpired (m.env.clock 0) = true
  noVote : m.follower.voteRecord = none

/-- `voter` answers with a Promise when `candidate`, now in `term`, asks for its vote. -/
def Accepts (voter candidate : Elector) (term : Nat) : Prop :=
  (voter.follower.handleVoteRequest
    (PaxosSharedContext.createVote { candidate.ctx with term := term })
    voter.ctx voter.env).2.1.outcome.isPromise = true

/-- One of the two logs is at least as far as the other in both components. -/
def Comparable (a b : Elector) : Prop :=
  a.ctx.lastLog ≤ b.ctx.lastLog ∨ b.ctx.lastLog ≤ a.ctx.lastLog

variable {a b : Elector} {S : Set Elector} {term : Nat}

/-- **What is left of the vote between unbound members is the comparison of the logs.** -/
theorem accepts_iff (ha : a.Unbound) (hterm : a.ctx.term < term) :
    a.Accepts b term ↔ a.ctx.lastLog ≤ b.ctx.lastLog := by
  rw [Accepts, Follower.handleVoteRequest_isPromise_iff]
  constructor
  · intro h
    exact ⟨h.logTerm, h.logSlot⟩
  · rintro ⟨hlogTerm, hlogSlot⟩
    refine ⟨ha.leaseExpired, hterm, ?_, hlogTerm, hlogSlot⟩
    intro record hrecord
    rw [ha.noVote] at hrecord
    cases hrecord

/-- A finite set of comparable logs has one that is at least as far as all the others. -/
theorem exists_furthest (hfin : S.Finite) (hne : S.Nonempty)
    (hcomparable : ∀ a ∈ S, ∀ b ∈ S, Comparable a b) :
    ∃ m ∈ S, ∀ n ∈ S, n.ctx.lastLog ≤ m.ctx.lastLog := by
  have hfinite : Finite S := hfin.to_subtype
  have hnonempty : Nonempty S := hne.to_subtype
  have hdirected : Directed (· ≤ ·) fun m : S => m.val.ctx.lastLog := by
    intro m n
    rcases hcomparable m m.property n n.property with hle | hle
    · exact ⟨n, hle, le_refl _⟩
    · exact ⟨m, le_refl _, hle⟩
  obtain ⟨m, hm⟩ := hdirected.finite_le id
  exact ⟨m, m.property, fun n hn => hm ⟨n, hn⟩⟩

/-- **Two members reject each other exactly when neither log is at least as far in both
components.**  In any set of members, one is acceptable to all exactly when its log is the
furthest in both, and a finite set of comparable logs has such a member. -/
theorem accepts_of_comparable
    (hS : ∀ m ∈ S, m.Unbound ∧ m.ctx.term < term) :
    (∀ a ∈ S, ∀ b ∈ S, a.Accepts b term ∨ b.Accepts a term ↔ Comparable a b) ∧
    (∀ m ∈ S, (∀ voter ∈ S, voter.Accepts m term) ↔
      ∀ n ∈ S, n.ctx.lastLog ≤ m.ctx.lastLog) ∧
    (S.Finite → S.Nonempty → (∀ a ∈ S, ∀ b ∈ S, Comparable a b) →
      ∃ m ∈ S, ∀ voter ∈ S, voter.Accepts m term) := by
  have haccepts : ∀ voter ∈ S, ∀ m : Elector,
      voter.Accepts m term ↔ voter.ctx.lastLog ≤ m.ctx.lastLog :=
    fun voter hvoter m => accepts_iff (hS voter hvoter).1 (hS voter hvoter).2
  refine ⟨?_, ?_, ?_⟩
  · intro a ha b hb
    rw [haccepts a ha, haccepts b hb]
    rfl
  · intro m _
    exact forall₂_congr fun voter hvoter => haccepts voter hvoter m
  · intro hfin hne hcomparable
    obtain ⟨m, hm, hfurthest⟩ := exists_furthest hfin hne hcomparable
    exact ⟨m, hm, fun voter hvoter => (haccepts voter hvoter m).mpr (hfurthest voter hvoter)⟩

/-- A Follower of a group of three in term 2, whose log ends where it says; the lease of its
start is over. -/
def ofThree (memberId : Uuid) (lastLogTerm lastLogSlot : Nat) : Elector where
  follower := Follower.new none
  ctx := { PaxosSharedContext.memberOfThree memberId with
    term := 2, lastLogTerm := lastLogTerm, lastLogSlot := lastLogSlot }
  env := .steady (Duration.seconds 1)

theorem unbound_ofThree (memberId : Uuid) (lastLogTerm lastLogSlot : Nat) :
    (ofThree memberId lastLogTerm lastLogSlot).Unbound := by
  refine ⟨?_, rfl⟩
  show TrueTime.after DateTime.unixEpoch (Duration.seconds 1) = true
  decide

/-- Member 1 is a slot behind member 2 in the same term, and accepts it. -/
theorem accepts_of_comparable_behind :
    ((ofThree 1 1 4).Accepts (ofThree 2 1 5) 3 ∨ (ofThree 2 1 5).Accepts (ofThree 1 1 4) 3) ∧
    ∃ m ∈ ({ofThree 1 1 4, ofThree 2 1 5} : Set Elector),
      ∀ voter ∈ ({ofThree 1 1 4, ofThree 2 1 5} : Set Elector), voter.Accepts m 3 := by
  have hS : ∀ m ∈ ({ofThree 1 1 4, ofThree 2 1 5} : Set Elector), m.Unbound ∧ m.ctx.term < 3 := by
    rintro m (rfl | rfl)
    · exact ⟨unbound_ofThree 1 1 4, by decide⟩
    · exact ⟨unbound_ofThree 2 1 5, by decide⟩
  have hcomparable : ∀ a ∈ ({ofThree 1 1 4, ofThree 2 1 5} : Set Elector),
      ∀ b ∈ ({ofThree 1 1 4, ofThree 2 1 5} : Set Elector), Comparable a b := by
    rintro a (rfl | rfl) b (rfl | rfl)
    · exact Or.inl (le_refl _)
    · exact Or.inl (by decide)
    · exact Or.inr (by decide)
    · exact Or.inl (le_refl _)
  obtain ⟨hpair, _, hset⟩ := accepts_of_comparable hS
  exact ⟨(hpair _ (Or.inl rfl) _ (Or.inr rfl)).mpr (hcomparable _ (Or.inl rfl) _ (Or.inr rfl)),
    hset (Set.toFinite _) ⟨_, Or.inl rfl⟩ hcomparable⟩

/-- Member 1 ends at slot 1 in term 2, member 2 at slot 5 in term 1: neither accepts the other. -/
theorem not_accepts_later_term_shorter_log :
    ¬ ∀ (a b : Elector) (term : Nat), a.Unbound → b.Unbound → a.ctx.term < term →
      b.ctx.term < term → a.Accepts b term ∨ b.Accepts a term := by
  intro h
  rcases h (ofThree 1 2 1) (ofThree 2 1 5) 3 (unbound_ofThree 1 2 1) (unbound_ofThree 2 1 5)
    (by decide) (by decide) with hfirst | hsecond
  · rw [accepts_iff (unbound_ofThree 1 2 1) (by decide)] at hfirst
    exact absurd hfirst (by decide)
  · rw [accepts_iff (unbound_ofThree 2 1 5) (by decide)] at hsecond
    exact absurd hsecond (by decide)

end Elector
end SpannerPaxos
