import SpannerPaxos.Leaderless

/-! # What a member has left to campaign with

A campaign takes an election countdown, a countdown takes a `LeaderLeaseExpired`, and that
takes a lease that was set.  A member counts its chances: the lease, the wakeups on their
way, the running countdown.  A timer turns one into the next, an event makes no new one as
long as the lease is not renewed, and a campaign uses one up.
-/
namespace SpannerPaxos
namespace PaxosState

/-- A Follower's countdown runs and has not fired. -/
def countsDown : PaxosState → Bool
  | follower f => decide (f.electionCdClock.task = .waiting)
  | _ => false

def isPreCandidate : PaxosState → Bool
  | preCandidate _ => true
  | _ => false

variable {self s' : PaxosState} {event : PaxosEvent} {ctx : PaxosSharedContext} {env : Env}

@[simp] theorem countsDown_new (leaderId : Option Uuid) :
    (follower (Follower.new leaderId)).countsDown = false := rfl

@[simp] theorem countsDown_preCandidate (p : PreCandidate) :
    (preCandidate p).countsDown = false := rfl

@[simp] theorem countsDown_candidate (c : Candidate) : (candidate c).countsDown = false := rfl

@[simp] theorem countsDown_leader (l : Leader) : (leader l).countsDown = false := rfl

@[simp] theorem isPreCandidate_follower (f : Follower) :
    (follower f).isPreCandidate = false := rfl

@[simp] theorem isPreCandidate_preCandidate (p : PreCandidate) :
    (preCandidate p).isPreCandidate = true := rfl

@[simp] theorem isPreCandidate_candidate (c : Candidate) :
    (candidate c).isPreCandidate = false := rfl

@[simp] theorem isPreCandidate_leader (l : Leader) : (leader l).isPreCandidate = false := rfl

/-- A countdown is started by `LeaderLeaseExpired` only, and a pre-vote by an election
countdown only. -/
theorem campaigns_of_handleEvent (h : (self.handleEvent event ctx env).result = .ok s') :
    s'.countsDown.toNat + s'.isPreCandidate.toNat ≤
      self.countsDown.toNat + self.isPreCandidate.toNat +
        (decide (event = .leaderLeaseExpired)).toNat +
        (decide (event = .electionCountdownExpired)).toNat ∧
    s'.countsDown.toNat ≤ self.countsDown.toNat +
      (decide (event = .leaderLeaseExpired)).toNat := by
  cases self with
  | follower f =>
    cases Follower.handleEvent_next h with
    | votes =>
      simp only [countsDown, isPreCandidate_follower, Bool.toNat_false]
      omega
    | campaigns hevent => simp [hevent]
    | stays f' _ hclock =>
      by_cases hevent : event = .leaderLeaseExpired
      · have hone := Bool.toNat_le (decide (f'.electionCdClock.task = .waiting))
        simp only [countsDown, isPreCandidate_follower, hevent, decide_true, Bool.toNat_true,
          Bool.toNat_false]
        omega
      · rw [if_neg hevent] at hclock
        simp only [countsDown, hclock, isPreCandidate_follower, Bool.toNat_false]
        omega
  | preCandidate p =>
    cases PreCandidate.handleEvent_next h with
    | votes | stays =>
      simp only [countsDown_preCandidate, isPreCandidate_preCandidate, Bool.toNat_true,
        Bool.toNat_false]
      omega
    | wins | loses | yields => simp
  | candidate c => cases Candidate.handleEvent_next h <;> simp
  | leader l =>
    cases Leader.handleEvent_next h with
    | votes => exact ⟨Nat.zero_le _, Nat.zero_le _⟩
    | retires | stays => simp

/-- A member that adopts a term starts over, without a countdown and without a campaign. -/
theorem campaigns_of_processEvent (h : (self.processEvent event ctx false env).result = .ok s') :
    s'.countsDown.toNat + s'.isPreCandidate.toNat ≤
      self.countsDown.toNat + self.isPreCandidate.toNat +
        (decide (event = .leaderLeaseExpired)).toNat +
        (decide (event = .electionCountdownExpired)).toNat ∧
    s'.countsDown.toNat ≤ self.countsDown.toNat +
      (decide (event = .leaderLeaseExpired)).toNat := by
  rw [processEvent_eq] at h
  rcases self.adoptTerm_cases event ctx with hkept | ⟨term, _, _, hadopt⟩
  · rw [hkept] at h
    exact campaigns_of_handleEvent h
  · rw [hadopt] at h
    have hnew := campaigns_of_handleEvent h
    simp only [countsDown_new, isPreCandidate_follower, Bool.toNat_false] at hnew
    omega

/-- A pre-vote that is won ends the PreCandidate. -/
theorem not_preCandidate_of_wins (hwins : self.WinsPreVote event)
    (h : (self.processEvent event ctx false env).result = .ok s') :
    s'.isPreCandidate = false := by
  cases s' with
  | preCandidate p' =>
    rw [processEvent_of_not_follower h nofun] at h
    obtain ⟨p, response, rfl, rfl, hquorum⟩ := hwins
    simp only [handleEvent, PreCandidate.handleEvent, PreCandidate.handlePreVoteResponse, hquorum,
      if_true] at h
    cases Attempt.toOutcome_result h
  | _ => rfl

end PaxosState

/-- The events that lead to a campaign. -/
def PaxosEvent.isWakeup : PaxosEvent → Bool
  | leaderLeaseExpired | electionCountdownExpired => true
  | _ => false

namespace Member

/-- The campaigns the member can still start: its lease that is to expire, the wakeups on
their way, and its countdown. -/
def chances (m : Member) : Nat :=
  m.ctx.leaseExpiry.isSome.toNat + m.pending.count .leaderLeaseExpired +
    m.pending.count .electionCountdownExpired + m.role.countsDown.toNat

/-- The campaigns it can still start, and the pre-vote that it collects. -/
def stake (m : Member) : Nat := m.chances + m.role.isPreCandidate.toNat

theorem chances_le_stake (m : Member) : m.chances ≤ m.stake := Nat.le_add_right _ _

/-- A wakeup is pending when it is handled. -/
def Raises (m : Member) (event : PaxosEvent) : Prop :=
  event.isWakeup = true → event ∈ m.pending

variable {m : Member} {event : PaxosEvent} {env : Env} {role : PaxosState}

/-- Handling a pending event takes it out. -/
theorem Raises.count_erase (h : m.Raises event) {wakeup : PaxosEvent}
    (hwakeup : wakeup.isWakeup = true) :
    (m.pending.erase event).count wakeup + (decide (event = wakeup)).toNat ≤
      m.pending.count wakeup := by
  rw [List.count_erase]
  by_cases heq : event = wakeup
  · subst heq
    have hpos := List.count_pos_iff.mpr (h hwakeup)
    simp only [BEq.rfl, if_true, decide_true, Bool.toNat_true]
    omega
  · simp [heq]

/-- **Events give no chances**: a lease that is not renewed, and wakeups that were pending,
leave the member with no more than it had, and an election countdown takes one. -/
theorem chances_event (hraises : m.Raises event)
    (hlease : (m.role.processEvent event m.ctx false env).ctx.leaseExpiry = m.ctx.leaseExpiry)
    (hresult : (m.role.processEvent event m.ctx false env).result = .ok role) :
    chances ⟨role, (m.role.processEvent event m.ctx false env).ctx, m.pending.erase event⟩ +
        (decide (event = .electionCountdownExpired)).toNat ≤ m.chances ∧
      stake ⟨role, (m.role.processEvent event m.ctx false env).ctx, m.pending.erase event⟩ ≤
        m.stake := by
  obtain ⟨hboth, hcounts⟩ := PaxosState.campaigns_of_processEvent hresult
  have hexpired := hraises.count_erase (show PaxosEvent.leaderLeaseExpired.isWakeup = true from rfl)
  have hcountdown := hraises.count_erase (show PaxosEvent.electionCountdownExpired.isWakeup = true from rfl)
  simp only [stake, chances, hlease]
  omega

/-- **A timer turns one chance into the next.** -/
theorem chances_timer {m' : Member} {l : Label} (hl : ∀ event env, l ≠ .event event env)
    (h : m.step l = some m') :
    m'.chances ≤ m.chances ∧ m'.role.isPreCandidate = m.role.isPreCandidate := by
  cases l with
  | event event env => exact absurd rfl (hl event env)
  | leaseWatcher utc =>
    simp only [step] at h
    split at h
    · cases h
    · rename_i expiry hlease
      split at h
      · cases h
        refine ⟨?_, rfl⟩
        simp only [chances, hlease, Option.isSome_some, Option.isSome_none, Bool.toNat_true,
          Bool.toNat_false, List.count_cons_self]
        rw [List.count_cons_of_ne (by decide)]
        omega
      · cases h
  | countdownFires delivered =>
    simp only [step] at h
    split at h
    · rename_i f hrole
      split at h
      · rename_i htask
        cases h
        refine ⟨?_, by rw [hrole]; rfl⟩
        simp only [chances, hrole, setTask, PaxosState.countsDown, htask, decide_true,
          Bool.toNat_true, reduceCtorEq, decide_false, Bool.toNat_false]
        cases delivered with
        | true =>
          rw [if_pos rfl, List.count_cons_self, List.count_cons_of_ne (by decide)]
          omega
        | false =>
          rw [if_neg Bool.false_ne_true]
          omega
      · cases h
    · cases h
  | countdownClears =>
    simp only [step] at h
    split at h
    · rename_i f hrole
      split at h
      · rename_i htask
        cases h
        refine ⟨?_, by rw [hrole]; rfl⟩
        simp [chances, hrole, setTask, PaxosState.countsDown, htask]
      · cases h
    · cases h

end Member
end SpannerPaxos
