import SpannerPaxos.Runs
import Mathlib.Data.Finset.Card

/-! # What a replicated log is for

A log that only grows, copies of its prefixes on replicas, and a commit point that only
moves to where a quorum has a copy.  Copies only grow here, so a quorum holds a committed
prefix ever after, and among any replicas too many to be left out by a quorum one has a
copy of it.  Members and entries are of any type; a group is a list of replicas beside the
one that writes the log, which counts for a quorum itself.
-/
namespace CommitLog

variable {ε ρ : Type}

structure State (ε ρ : Type) where
  log : List ε
  /-- How long a prefix of the log a replica holds. -/
  copy : ρ → Nat
  committed : Nat

inductive Label (ε ρ : Type) where
  | append (e : ε)
  | replicate (p : ρ) (n : Nat)
  | commit (n : Nat)

/-- A quorum of the group holds the prefix of length `n`. -/
def Held (members : List ρ) (quorum : Nat) (s : State ε ρ) (n : Nat) : Prop :=
  ∃ Q : List ρ, Q.Nodup ∧ (∀ p ∈ Q, p ∈ members) ∧ quorum ≤ Q.length + 1 ∧ ∀ p ∈ Q, n ≤ s.copy p

def step [DecidableEq ρ] (s : State ε ρ) : Label ε ρ → Option (State ε ρ)
  | .append e => some { s with log := s.log ++ [e] }
  | .replicate p n => some { s with copy := fun q => if q = p then n else s.copy q }
  | .commit n => some { s with committed := n }

/-- A copy only grows and never past the log, and neither does the commit point, which a
quorum has to hold. -/
def Allows (members : List ρ) (quorum : Nat) (s : State ε ρ) : Label ε ρ → Prop
  | .append _ => True
  | .replicate p n => s.copy p ≤ n ∧ n ≤ s.log.length
  | .commit n => s.committed ≤ n ∧ n ≤ s.log.length ∧ Held members quorum s n

section
variable {members : List ρ} {quorum n : Nat} {s t : State ε ρ}

/-- What one step keeps: the log, the copies and the commit point grow. -/
structure Grows (s t : State ε ρ) : Prop where
  log : s.log <+: t.log
  copy : ∀ p, s.copy p ≤ t.copy p
  committed : s.committed ≤ t.committed

namespace Grows

theorem refl (s : State ε ρ) : Grows s s where
  log := List.prefix_refl _
  copy _ := Nat.le_refl _
  committed := Nat.le_refl _

theorem trans {u : State ε ρ} (h : Grows s t) (h' : Grows t u) : Grows s u where
  log := h.log.trans h'.log
  copy p := (h.copy p).trans (h'.copy p)
  committed := h.committed.trans h'.committed

theorem of_step [DecidableEq ρ] {l : Label ε ρ} (hok : Allows members quorum s l) (h : step s l = some t) :
    Grows s t := by
  cases l with
  | append e =>
    cases Option.some.inj h
    exact ⟨List.prefix_append _ _, fun _ => Nat.le_refl _, Nat.le_refl _⟩
  | replicate p n =>
    cases Option.some.inj h
    refine ⟨List.prefix_refl _, fun q => ?_, Nat.le_refl _⟩
    dsimp only
    split
    · rename_i hq
      rw [hq]
      exact hok.1
    · exact Nat.le_refl _
  | commit n =>
    cases Option.some.inj h
    exact ⟨List.prefix_refl _, fun _ => Nat.le_refl _, hok.1⟩

/-- What is held stays held. -/
theorem held (h : Grows s t) (hheld : Held members quorum s n) : Held members quorum t n := by
  obtain ⟨Q, hnodup, hsub, hlen, hcopy⟩ := hheld
  exact ⟨Q, hnodup, hsub, hlen, fun p hp => (hcopy p hp).trans (h.copy p)⟩

end Grows

theorem grows_of_runs [DecidableEq ρ] (h : Runs step (Allows members quorum) s t) : Grows s t :=
  h.invariant (P := Grows s) (.refl s) fun _ _ _ hs hok hstep => hs.trans (.of_step hok hstep)

/-- The commit point is in the log, and a quorum holds what has been committed. -/
structure Sound (members : List ρ) (quorum base : Nat) (s : State ε ρ) : Prop where
  le : s.committed ≤ s.log.length
  held : base < s.committed → Held members quorum s s.committed

theorem Sound.start (h : s.committed ≤ s.log.length) :
    Sound members quorum s.committed s :=
  ⟨h, fun hlt => absurd hlt (Nat.lt_irrefl _)⟩

theorem Sound.step [DecidableEq ρ] {base : Nat} {l : Label ε ρ} (hs : Sound members quorum base s)
    (hok : Allows members quorum s l) (h : step s l = some t) :
    Sound members quorum base t := by
  have hgrows := Grows.of_step hok h
  cases l with
  | append e =>
    cases Option.some.inj h
    exact ⟨hs.le.trans hgrows.log.length_le, fun hlt => hgrows.held (hs.held hlt)⟩
  | replicate p n =>
    cases Option.some.inj h
    exact ⟨hs.le, fun hlt => hgrows.held (hs.held hlt)⟩
  | commit n =>
    cases Option.some.inj h
    exact ⟨hok.2.1, fun _ => hgrows.held hok.2.2⟩

/-- **What is committed stays held by a quorum**, over a whole run. -/
theorem sound_of_runs [DecidableEq ρ] (h : Runs step (Allows members quorum) s t)
    (hs : s.committed ≤ s.log.length) : Sound members quorum s.committed t :=
  h.invariant (P := Sound members quorum s.committed) (.start hs)
    fun _ _ _ ha hok hstep => ha.step hok hstep

/-- **No large set of replicas misses what a quorum holds.** -/
theorem Held.exists_mem [DecidableEq ρ] (h : Held members quorum s n) (hmembers : members.Nodup) {S : List ρ}
    (hS : S.Nodup) (hsub : ∀ p ∈ S, p ∈ members)
    (hlarge : members.length < S.length + (quorum - 1)) : ∃ p ∈ S, n ≤ s.copy p := by
  obtain ⟨Q, hnodup, hQ, hlen, hcopy⟩ := h
  by_contra hnone
  have hdisjoint : Disjoint Q.toFinset S.toFinset := by
    refine Finset.disjoint_left.mpr fun p hp hpS => hnone ⟨p, List.mem_toFinset.mp hpS, ?_⟩
    exact hcopy p (List.mem_toFinset.mp hp)
  have hunion : Q.toFinset ∪ S.toFinset ⊆ members.toFinset := by
    refine Finset.union_subset (fun p hp => ?_) (fun p hp => ?_)
    · exact List.mem_toFinset.mpr (hQ p (List.mem_toFinset.mp hp))
    · exact List.mem_toFinset.mpr (hsub p (List.mem_toFinset.mp hp))
  have hcard := Finset.card_le_card hunion
  rw [Finset.card_union_of_disjoint hdisjoint, List.toFinset_card_of_nodup hnodup,
    List.toFinset_card_of_nodup hS, List.toFinset_card_of_nodup hmembers] at hcard
  omega

end
end CommitLog
