import SpannerPaxos.Transitions
import SpannerPaxos.Runs

/-! # What wakes a Follower

A Follower campaigns only when its election countdown expires, and the countdown
starts only on `LeaderLeaseExpired`, which the lease watcher raises once for a
lease that is set and then clears.  A Follower is awake while one of the three
is still to come.  Every fresh Follower starts without a countdown, so it is
awake only if the lease is set or a wakeup is pending; a member that never makes
a fresh Follower otherwise, and never loses a firing countdown, stays awake.
-/
namespace SpannerPaxos

/-- A member between two events: its role, its context, and the wakeups its
timers have raised and nobody has handled. -/
structure Member where
  role : PaxosState
  ctx : PaxosSharedContext
  pending : List PaxosEvent
  deriving DecidableEq

namespace Member

inductive Label where
  /-- An event is processed. -/
  | event (event : PaxosEvent) (env : Env)
  /-- The lease watcher's wait ends at the reading `utc`. -/
  | leaseWatcher (utc : DateTime)
  /-- The Follower's countdown fires; its event may find the channel full. -/
  | countdownFires (delivered : Bool)
  /-- The fired countdown clears its running flag. -/
  | countdownClears

/-- The Follower's countdown goes from one phase to the next. -/
def setTask (f : Follower) (task : CountDownTask) : PaxosState :=
  .follower { f with electionCdClock := { f.electionCdClock with task := task } }

def step (m : Member) : Label → Option Member
  | .event event env =>
    let o := m.role.processEvent event m.ctx false env
    match o.result with
    | .ok role => some ⟨role, o.ctx, m.pending.erase event⟩
    | .error _ => none
  | .leaseWatcher utc =>
    match m.ctx.leaseExpiry with
    | none => none
    | some expiry =>
      if TrueTime.commitWait expiry utc then
        some ⟨m.role, { m.ctx with leaseExpiry := none }, .leaderLeaseExpired :: m.pending⟩
      else none
  | .countdownFires delivered =>
    match m.role with
    | .follower f =>
      if f.electionCdClock.task = .waiting then
        some ⟨setTask f .fired, m.ctx,
          if delivered then .electionCountdownExpired :: m.pending else m.pending⟩
      else none
    | _ => none
  | .countdownClears =>
    match m.role with
    | .follower f =>
      if f.electionCdClock.task = .fired then some ⟨setTask f .none, m.ctx, m.pending⟩ else none
    | _ => none

/-- The member as `PaxosStateMachine::start` sets it up. -/
def start (memberId : Uuid) (peerIds : List Uuid) (h : peerIds.Nodup) : Member :=
  ⟨.follower (Follower.new none), PaxosSharedContext.new memberId peerIds h, []⟩

/-- **What a step can do**: an event is processed; or a timer moves, which touches at most
the lease and the countdown of a Follower. -/
theorem step_cases {m m' : Member} {l : Label} (h : m.step l = some m') :
    (∃ event env, l = .event event env ∧
      (m.role.processEvent event m.ctx false env).result = .ok m'.role ∧
      m'.ctx = (m.role.processEvent event m.ctx false env).ctx) ∨
    ((∀ event env, l ≠ .event event env) ∧
      (∃ lease, m'.ctx = { m.ctx with leaseExpiry := lease }) ∧
      (m'.role = m.role ∨ ∃ f, m'.role = .follower f)) := by
  cases l with
  | event event env =>
    simp only [step] at h
    split at h
    · rename_i role hresult
      cases h
      exact Or.inl ⟨event, env, rfl, hresult, rfl⟩
    · cases h
  | leaseWatcher utc =>
    simp only [step] at h
    split at h
    · cases h
    · split at h
      · cases h
        exact Or.inr ⟨fun _ _ hl => Label.noConfusion hl, ⟨none, rfl⟩, Or.inl rfl⟩
      · cases h
  | countdownFires delivered =>
    simp only [step] at h
    split at h
    · split at h
      · cases h
        exact Or.inr ⟨fun _ _ hl => Label.noConfusion hl, ⟨_, rfl⟩, Or.inr ⟨_, rfl⟩⟩
      · cases h
    · cases h
  | countdownClears =>
    simp only [step] at h
    split at h
    · split at h
      · cases h
        exact Or.inr ⟨fun _ _ hl => Label.noConfusion hl, ⟨_, rfl⟩, Or.inr ⟨_, rfl⟩⟩
      · cases h
    · cases h

/-- The lease watcher or a pending event will wake the member. -/
def HasWakeup (ctx : PaxosSharedContext) (pending : List PaxosEvent) : Prop :=
  ctx.leaseExpiry ≠ none ∨ .leaderLeaseExpired ∈ pending ∨ .electionCountdownExpired ∈ pending

/-- A Follower has a wakeup to come or a running countdown. -/
def Alive (m : Member) : Prop :=
  ∀ f, m.role = .follower f → HasWakeup m.ctx m.pending ∨ f.electionCdClock.isRunning = true

/-- The event makes the member a fresh Follower: it carries a larger term, ends
a campaign without a quorum, or ends the leader's role. -/
def freshens (role : PaxosState) (event : PaxosEvent) (ctx : PaxosSharedContext) (env : Env) :
    Bool :=
  (event.getTerm.any fun term => decide (ctx.term < term)) ||
  match role, event with
  | .preCandidate _, .preVoteCampaignExpired => true
  | .preCandidate _, .acceptRequestReceived command => decide (ctx.term ≤ command.request.term)
  | .preCandidate p, .preVoteResponseReceived response =>
    !(p.updatePreVoteBoard response).hasPreVoteQuorum &&
      (p.updatePreVoteBoard response).hasAllPreVoteResponses
  | .candidate _, .voteCampaignExpired => true
  | .candidate _, .acceptRequestReceived command => decide (ctx.term ≤ command.request.term)
  | .candidate c, .voteResponseReceived response =>
    (c.recordVote response ctx).any fun c => !c.hasVoteQuorum && c.hasAllVoteResponses
  | .leader _, event => Leader.stepsDown event ctx env
  | _, _ => false

/-- No wakeup is lost: a fresh Follower, a `LeaderLeaseExpired` that finds an old
countdown past its callback, and a countdown that finds the channel full leave
another wakeup. -/
def KeepsWakeup (m : Member) : Label → Prop
  | .event event env =>
    (freshens m.role event m.ctx env = true → HasWakeup m.ctx (m.pending.erase event)) ∧
    (event = .leaderLeaseExpired → ∀ f, m.role = .follower f → f.electionCdClock.task = .fired →
      HasWakeup m.ctx (m.pending.erase event))
  | .countdownFires delivered => delivered = true ∨ HasWakeup m.ctx m.pending
  | .leaseWatcher _ => True
  | .countdownClears => True

/-- A Follower has a wakeup to come, or a countdown that has not fired: a fired
one still has its flag set for a while, but wakes nobody. -/
def Inv (m : Member) : Prop :=
  ∀ f, m.role = .follower f → HasWakeup m.ctx m.pending ∨ f.electionCdClock.task = .waiting

theorem Inv.alive {m : Member} (h : m.Inv) : m.Alive := by
  intro f hf
  rcases h f hf with hwakeup | hwaiting
  · exact Or.inl hwakeup
  · exact Or.inr (by simp [CountDownClock.isRunning, hwaiting])

theorem Inv.start {memberId : Uuid} {peerIds : List Uuid} {h : peerIds.Nodup} :
    (start memberId peerIds h).Inv :=
  fun _ _ => Or.inl (Or.inl (Option.some_ne_none _))

/-- A wakeup survives what keeps the lease set. -/
theorem HasWakeup.mono {ctx ctx' : PaxosSharedContext} {pending : List PaxosEvent}
    (h : HasWakeup ctx pending) (hset : ctx.leaseExpiry ≠ none → ctx'.leaseExpiry ≠ none) :
    HasWakeup ctx' pending := by
  rcases h with hlease | hpending
  · exact Or.inl (hset hlease)
  · exact Or.inr hpending

/-- A fresh Follower's event, once the term has been adopted, freshens. -/
theorem freshens_of_term {role : PaxosState} {event : PaxosEvent} {ctx : PaxosSharedContext}
    {env : Env} {term : Nat} (hterm : event.getTerm = some term) (hlt : ctx.term < term) :
    freshens role event ctx env = true := by
  simp [freshens, hterm, hlt]

/-- The event of a role that has not adopted a term: a Follower it leads to was
one before, is covered by the lease, or is a fresh one. -/
theorem follower_of_handleEvent {role : PaxosState} {event : PaxosEvent}
    {ctx : PaxosSharedContext} {env : Env} {f' : Follower}
    (h : (role.handleEvent event ctx env).result = .ok (.follower f')) :
    freshens role event ctx env = true ∨ (role.handleEvent event ctx env).ctx.leaseExpiry ≠ none ∨
      ∃ f, role = .follower f ∧
        f'.electionCdClock =
          (if event = .leaderLeaseExpired then f.electionCdClock.start else f.electionCdClock) ∧
        (event = .electionCountdownExpired → ctx.isLeaderLeaseExpired (env.clock 0) = false) := by
  cases role with
  | follower f =>
    cases Follower.handleEvent_next h with
    | votes _ _ _ hctx => exact Or.inr (Or.inl (hctx ▸ Option.some_ne_none _))
    | stays _ _ hclock hcountdown => exact Or.inr (Or.inr ⟨f, rfl, hclock, hcountdown⟩)
  | preCandidate p =>
    refine Or.inl ?_
    cases PreCandidate.handleEvent_next h with
    | loses hevent =>
      rcases hevent with rfl | ⟨response, rfl, hquorum, hall⟩
      · simp [freshens]
      · simp [freshens, hquorum, hall]
    | yields command hevent hterm =>
      subst hevent
      simp [freshens, hterm]
  | candidate c =>
    cases Candidate.handleEvent_next h with
    | late _ _ _ hlease => exact Or.inr (Or.inl hlease)
    | loses hevent =>
      refine Or.inl ?_
      rcases hevent with rfl | ⟨response, c', rfl, hrecord, hquorum, hall⟩
      · simp [freshens]
      · simp [freshens, hrecord, hquorum, hall]
    | yields command hevent hterm =>
      subst hevent
      exact Or.inl (by simp [freshens, hterm])
  | leader l =>
    cases Leader.handleEvent_next h with
    | votes _ _ _ hctx => exact Or.inr (Or.inl (hctx ▸ Option.some_ne_none _))
    | retires leaderId hdown => exact Or.inl (by simp [freshens, hdown])

/-- An event keeps a Follower awake. -/
theorem Inv.event {m : Member} {event : PaxosEvent} {env : Env} {role : PaxosState}
    (hm : m.Inv) (hok : m.KeepsWakeup (.event event env))
    (hresult : (m.role.processEvent event m.ctx false env).result = .ok role) :
    Inv ⟨role, (m.role.processEvent event m.ctx false env).ctx, m.pending.erase event⟩ := by
  obtain ⟨hfresh, hfired⟩ := hok
  rw [PaxosState.processEvent_eq] at hresult ⊢
  have hset := PaxosState.leaseSet_of_handleEvent hresult
  intro f' hf'
  cases hf'
  rcases m.role.adoptTerm_cases event m.ctx with hkept | ⟨term, hterm, hlt, hadopt⟩
  · rw [hkept] at hresult hset ⊢
    rcases follower_of_handleEvent hresult with hf | hlease | ⟨f, hrole, hclock, hcountdown⟩
    · exact Or.inl ((hfresh hf).mono hset)
    · exact Or.inl (Or.inl hlease)
    · rcases hm f hrole with (hlease | hexpired | hcount) | hwaiting
      · exact Or.inl (Or.inl (hset hlease))
      · by_cases he : event = .leaderLeaseExpired
        · rw [if_pos he] at hclock
          by_cases htask : f.electionCdClock.task = .fired
          · exact Or.inl ((hfired he f hrole htask).mono hset)
          · exact Or.inr (hclock ▸ f.electionCdClock.start_task htask)
        · exact Or.inl (Or.inr (Or.inl ((List.mem_erase_of_ne (Ne.symm he)).mpr hexpired)))
      · by_cases he : event = .electionCountdownExpired
        · obtain ⟨expiry, hexpiry, _⟩ :=
            (m.ctx.isLeaderLeaseExpired_eq_false_iff).mp (hcountdown he)
          exact Or.inl (Or.inl (hset (by rw [hexpiry]; exact Option.some_ne_none _)))
        · exact Or.inl (Or.inr (Or.inr ((List.mem_erase_of_ne (Ne.symm he)).mpr hcount)))
      · refine Or.inr ?_
        rw [hclock]
        split
        · exact f.electionCdClock.start_task (by simp [hwaiting])
        · exact hwaiting
  · rw [hadopt] at hset ⊢
    exact Or.inl ((hfresh (freshens_of_term hterm hlt)).mono hset)

theorem Inv.step {m m' : Member} {l : Label} (hm : m.Inv) (hok : m.KeepsWakeup l)
    (h : m.step l = some m') : m'.Inv := by
  cases l with
  | event event env =>
    simp only [Member.step] at h
    split at h
    · rename_i role hresult
      cases Option.some.inj h
      exact hm.event hok hresult
    · cases h
  | leaseWatcher utc =>
    simp only [Member.step] at h
    split at h
    · cases h
    · split at h
      · cases Option.some.inj h
        exact fun f _ => Or.inl (Or.inr (Or.inl List.mem_cons_self))
      · cases h
  | countdownFires delivered =>
    simp only [Member.step] at h
    split at h
    · split at h
      · cases Option.some.inj h
        intro f' _
        cases delivered with
        | true => exact Or.inl (Or.inr (Or.inr List.mem_cons_self))
        | false => exact Or.inl (hok.resolve_left Bool.false_ne_true)
      · cases h
    · cases h
  | countdownClears =>
    simp only [Member.step] at h
    split at h
    · rename_i f hrole
      split at h
      · rename_i htask
        cases Option.some.inj h
        intro f' _
        rcases hm f hrole with hwakeup | hwaiting
        · exact Or.inl hwakeup
        · rw [htask] at hwaiting
          cases hwaiting
      · cases h
    · cases h

/-- **No dead Follower**, for a member that loses no wakeup. -/
theorem alive_of_keepsWakeup {memberId : Uuid} {peerIds : List Uuid} {h : peerIds.Nodup}
    {m : Member} (hrun : Runs Member.step KeepsWakeup (start memberId peerIds h) m) : m.Alive :=
  (hrun.invariant Inv.start fun _ _ _ ha hok hs => ha.step hok hs).alive

/-- The first wakeups of a member: the lease of the start is found expired, and
the countdown it starts fires. -/
theorem alive_of_keepsWakeup_first :
    ∃ m, exec Member.step (start 1 [2] (by decide)) [.leaseWatcher (Duration.seconds 1),
        .event .leaderLeaseExpired (.steady (Duration.seconds 1)), .countdownFires true] = some m ∧
      m.pending = [.electionCountdownExpired] ∧ m.Alive := by
  refine ⟨_, rfl, rfl, ?_⟩
  refine @alive_of_keepsWakeup 1 [2] (by decide) _ ?_
  refine (((Runs.refl _).tail (.leaseWatcher (Duration.seconds 1)) trivial rfl).tail
    (.event .leaderLeaseExpired (.steady (Duration.seconds 1))) ⟨?_, ?_⟩ rfl).tail
    (.countdownFires true) (Or.inl rfl) rfl
  · intro hfresh
    exact absurd hfresh (by decide)
  · intro _ f hf htask
    cases hf
    cases htask

/-- A member whose first pre-vote nobody answers: when the campaign expires it is
a Follower with no lease, no countdown and nothing pending. -/
theorem not_alive_after_campaign :
    ¬ ∀ (memberId : Uuid) (peerIds : List Uuid) (h : peerIds.Nodup) (m : Member),
      Reaches Member.step (start memberId peerIds h) m → m.Alive := by
  intro hall
  have hrun : Reaches Member.step (start 1 [2] (by decide)) _ := Runs.of_exec
    [.leaseWatcher (Duration.seconds 1),
      .event .leaderLeaseExpired (.steady (Duration.seconds 1)), .countdownFires true,
      .event .electionCountdownExpired (.steady (Duration.seconds 2)),
      .event .preVoteCampaignExpired (.steady (Duration.seconds 5))] rfl
  rcases hall _ _ _ _ hrun _ rfl with (hlease | hexpired | hcount) | hrunning
  · exact hlease rfl
  · exact absurd hexpired (by decide)
  · exact absurd hcount (by decide)
  · exact absurd hrunning (by decide)

end Member
end SpannerPaxos
