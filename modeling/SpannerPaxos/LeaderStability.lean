import SpannerPaxos.Overflow

/-! # Leader stability

A Leader whose lease runs keeps its role and its term through every event of its
term but one: a pre-vote request, which the pre-candidate stage makes harmless
everywhere else, makes it step down because the test of the lease is the wrong way
round there.
-/
namespace SpannerPaxos

/-- The member is a Leader in this term when the event has been handled, and while a
commit wait of it lasts. -/
structure Outcome.StaysLeader (o : Outcome) (term : Nat) : Prop where
  result : o.result = .error .waiting ∨ ∃ l, o.result = .ok (.leader l)
  term : o.ctx.term = term

theorem Outcome.StaysLeader.survives {o : Outcome} {term : Nat} (h : o.StaysLeader term) :
    o.Survives := by
  intro fault hfault
  rcases h.result with hwaiting | ⟨l, hok⟩
  · rw [hwaiting] at hfault
    exact (Except.error.inj hfault).symm
  · rw [hok] at hfault
    cases hfault

namespace Leader

/-- Dispatches and replies succeed, and a response comes from another member of the
group, which has its position on the score board. -/
structure Served (l : Leader) (event : PaxosEvent) (ctx : PaxosSharedContext) (env : Env) :
    Prop where
  reachable : ∀ p, env.reachable p = true
  answers : ∀ tx, event.peerTx = some tx → tx.receiverAlive = true
  sender : ∀ response, event = .acceptResponseReceived response →
    response.memberId ∈ ctx.peerIds ∧ response.memberId ∈ l.scoreBoard.keys

variable {l : Leader} {event : PaxosEvent} {ctx : PaxosSharedContext} {env : Env}

/-- What is left of the failures: an anchor that is not in the log. -/
theorem Served.withstands_iff (hserved : l.Served event ctx env) :
    l.Withstands event ctx env ↔ ∀ p fs, l.Probes ctx event p fs → AnchorHeld ctx fs := by
  refine ⟨fun h p fs hprobe => (h.probes p fs hprobe).1, fun h => ⟨?_, ?_, ?_⟩⟩
  · exact fun p fs hprobe => ⟨h p fs hprobe, hserved.reachable p⟩
  · intro response he _
    obtain ⟨hpeer, hboard⟩ := hserved.sender response he
    exact ⟨ctx.two_le_getQuorumSize hpeer, hboard⟩
  · exact fun tx htx => Or.inl (hserved.answers tx htx)

/-- A method of the Leader that does not fail and keeps the term. -/
theorem stay_staysLeader {a : Attempt (Leader × PaxosSharedContext)}
    (hsurvives : (handleEvent.stay a).Survives) (hsame : ctx.SameMember a.state.2) :
    (handleEvent.stay a).StaysLeader ctx.term := by
  refine ⟨?_, ?_⟩
  · cases hresult : (handleEvent.stay a).result with
    | error fault => exact Or.inl (by rw [hsurvives fault hresult])
    | ok state =>
      refine Or.inr ⟨a.state.1, ?_⟩
      rw [show state = .leader a.state.1 from Attempt.toOutcome_result hresult]
  · rw [handleEvent.stay, Attempt.toOutcome_ctx]
    exact hsame.term

/-- While the lease runs, a Leader that withstands an event other than a pre-vote
request keeps its role. -/
theorem handleEvent_staysLeader (hlease : ctx.isLeaderLeaseExpired (env.clock 0) = false)
    (hne : event ≠ .leaderLeaseExpired) (hpre : ∀ command, event ≠ .preVoteRequestReceived command)
    (hwithstands : l.Withstands event ctx env) :
    (l.handleEvent event ctx env).StaysLeader ctx.term := by
  have hsurvives := handleEvent_survives.mpr hwithstands
  cases event with
  | leaderLeaseExpired => exact absurd rfl hne
  | preVoteRequestReceived command => exact absurd rfl (hpre command)
  | electionCountdownExpired | preVoteCampaignExpired | voteCampaignExpired
  | acceptTimeoutCheckFired => exact ⟨Or.inr ⟨_, rfl⟩, rfl⟩
  | acceptResponseReceived response =>
    exact stay_staysLeader hsurvives (l.handleAcceptResponse_sameMember ctx env response)
  | clientWriteRequestReceived command => exact stay_staysLeader hsurvives ⟨rfl, rfl, rfl, id⟩
  | writeFlushTimerFired =>
    refine stay_staysLeader hsurvives ?_
    rw [l.handleWriteFlush_ctx ctx env]
    exact .refl ctx
  | heartbeatTimerFired =>
    exact stay_staysLeader hsurvives (.advanceTSafe ctx _)
  | preVoteResponseReceived response =>
    -- a response of this or a later term ends only a Leader whose lease is over
    simp only [handleEvent, handlePreVoteResponse, stepDownOn, hlease, Bool.false_eq_true,
      not_false_eq_true, if_true, ite_self]
    exact ⟨Or.inr ⟨l, rfl⟩, rfl⟩
  | voteResponseReceived response =>
    simp only [handleEvent, handleVoteResponse, stepDownOn, hlease, Bool.false_eq_true,
      not_false_eq_true, if_true, ite_self]
    exact ⟨Or.inr ⟨l, rfl⟩, rfl⟩
  | acceptRequestReceived command =>
    simp only [handleEvent, hlease, Bool.false_eq_true, if_false]
    exact ⟨Or.inr ⟨l, rfl⟩, rfl⟩
  | voteRequestReceived command =>
    -- only an accept request may go unanswered
    have halive := (hwithstands.answers command.responseTx rfl).resolve_right fun h => by
      obtain ⟨_, he⟩ := h.1
      cases he
    simp only [handleEvent, hlease, Bool.false_eq_true, if_false, Outcome.reply, halive, if_true]
    exact ⟨Or.inr ⟨l, rfl⟩, rfl⟩

/-- A pre-vote request ends a Leader whose lease runs. -/
theorem not_staysLeader_of_preVote (l : Leader) {term : Nat} (command : PaxosCommand PreVoteRequest)
    (hlease : ctx.isLeaderLeaseExpired (env.clock 0) = false) :
    ¬ (l.handleEvent (.preVoteRequestReceived command) ctx env).StaysLeader term := by
  rintro ⟨hresult, _⟩
  -- the test asks whether the lease is *not* over, so a running lease steps down
  simp only [handleEvent, hlease, Bool.false_eq_true, not_false_eq_true, if_true,
    Outcome.reply] at hresult
  split at hresult
  · rcases hresult with h | ⟨l', h⟩
    · cases h
    · cases h
  · rcases hresult with h | ⟨l', h⟩
    · cases h
    · cases h

/-- **A Leader whose lease runs stays Leader in its term exactly on the events that
are not pre-vote requests, dispatch behind anchors of its own log and compute nothing
that misses its type.** -/
theorem staysLeader_iff (l : Leader) (event : PaxosEvent) (ctx : PaxosSharedContext) (env : Env)
    (hlease : ctx.isLeaderLeaseExpired (env.clock 0) = false)
    (hne : event ≠ .leaderLeaseExpired) (hterm : ∀ t, event.getTerm = some t → t ≤ ctx.term)
    (hserved : l.Served event ctx env) :
    ((PaxosState.leader l).processEventChecked event ctx false env).StaysLeader ctx.term ↔
      (∀ command, event ≠ .preVoteRequestReceived command) ∧
        (∀ p fs, l.Probes ctx event p fs → AnchorHeld ctx fs) ∧
        ∀ c ∈ l.computes event ctx env, c.Fits := by
  have hcomputes : (PaxosState.leader l).Fits event ctx env ↔ ∀ c ∈ l.computes event ctx env,
      c.Fits := PaxosState.fits_of_le hterm
  rw [← hserved.withstands_iff, ← hcomputes]
  constructor
  · intro hstays
    have hfits := (PaxosState.processEventChecked_survives.mp hstays.survives).2
    rw [PaxosState.processEventChecked_of_fits hfits, PaxosState.processEvent_of_le hterm] at hstays
    refine ⟨?_, handleEvent_survives.mp hstays.survives, hfits⟩
    rintro command rfl
    exact l.not_staysLeader_of_preVote command hlease hstays
  · rintro ⟨hpre, hwithstands, hfits⟩
    rw [PaxosState.processEventChecked_of_fits hfits, PaxosState.processEvent_of_le hterm]
    exact handleEvent_staysLeader hlease hne hpre hwithstands

/-- The Leader of term 1 in a group of three, with an empty log and ten seconds of
lease from the epoch. -/
def newOfThree : Leader × PaxosSharedContext :=
  (Leader.new (Candidate.new (.memberOfThree 1)).scoreBoard,
    { PaxosSharedContext.memberOfThree 1 with
      term := 1, leaseExpiry := some PaxosSharedContext.leaseLength })

/-- The next probe of every follower starts at slot 1. -/
theorem newOfThree_anchorHeld {p : Uuid} {fs : FollowerState}
    (hget : newOfThree.1.scoreBoard.get? p = some fs) : AnchorHeld newOfThree.2 fs := by
  rw [newOfThree, Leader.new, Candidate.new, AssocMap.get?_mapValues, AssocMap.get?_ofKeys] at hget
  split at hget
  · rw [← Option.some.inj hget]
    exact Or.inl rfl
  · cases hget

/-- A second after the epoch, the heartbeat leaves the Leader in place. -/
theorem staysLeader_iff_heartbeat :
    ((PaxosState.leader newOfThree.1).processEventChecked .heartbeatTimerFired newOfThree.2 false
      (.steady (Duration.seconds 1))).StaysLeader newOfThree.2.term := by
  refine (staysLeader_iff newOfThree.1 .heartbeatTimerFired newOfThree.2
    (.steady (Duration.seconds 1)) (by decide) (by simp) (by simp [PaxosEvent.getTerm])
    ⟨fun _ => rfl, fun _ htx => (nomatch htx), fun _ he => nomatch he⟩).mpr
    ⟨by simp, ?_, by decide⟩
  rintro p fs (hget | _ | _)
  exact newOfThree_anchorHeld hget

/-- An echo from the last millisecond of the clock's range is more than the Leader can
add ten seconds to. -/
example : ¬ (PaxosState.leader newOfThree.1).Fits
    (.acceptResponseReceived ⟨2, 1, true, 0, none, Duration.milliseconds DateTime.maxMillis⟩)
    newOfThree.2 (.steady (Duration.seconds 1)) := by decide

/-- A second after the epoch, the pre-vote request of member 2 makes the Leader step
down. -/
theorem not_staysLeader_preVote :
    newOfThree.2.isLeaderLeaseExpired (Duration.seconds 1) = false ∧
    newOfThree.1.Served (.preVoteRequestReceived ⟨⟨2, 2, 0, 0⟩, ⟨2, true⟩⟩) newOfThree.2
      (.steady (Duration.seconds 1)) ∧
    ¬ ((PaxosState.leader newOfThree.1).processEventChecked
      (.preVoteRequestReceived ⟨⟨2, 2, 0, 0⟩, ⟨2, true⟩⟩) newOfThree.2 false
      (.steady (Duration.seconds 1))).StaysLeader newOfThree.2.term := by
  refine ⟨by decide, ⟨fun _ => rfl, ?_, fun _ he => nomatch he⟩, ?_⟩
  · rintro tx htx
    cases Option.some.inj htx
    rfl
  · intro hstays
    have hrunning : newOfThree.2.isLeaderLeaseExpired
        ((Env.steady (Duration.seconds 1)).clock 0) = false := by decide
    have hfits := (PaxosState.processEventChecked_survives.mp hstays.survives).2
    rw [PaxosState.processEventChecked_of_fits hfits,
      PaxosState.processEvent_of_le (by simp [PaxosEvent.getTerm])] at hstays
    exact newOfThree.1.not_staysLeader_of_preVote ⟨⟨2, 2, 0, 0⟩, ⟨2, true⟩⟩ hrunning hstays

end Leader
end SpannerPaxos
