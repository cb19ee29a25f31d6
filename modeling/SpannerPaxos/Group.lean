import SpannerPaxos.VoteQuorum
import Mathlib.Logic.Function.Basic

/-! # A group elects nobody

A group of members that are each other's peers, with the messages its members
have sent.  Timers fire at any time, and a message can be delivered at any time
and any number of times, so every run of the program is a run of the group.  No
Promise is ever sent (`processEvent_not_isPromise`), so no vote board holds one,
and no Candidate of a group of two or more has its quorum.
-/
namespace SpannerPaxos

structure Group where
  ids : List Uuid
  nodup : ids.Nodup
  two : 2 ≤ ids.length

namespace Group
variable (g : Group)

/-- The other members. -/
def peers (memberId : Uuid) : List Uuid := g.ids.erase memberId

theorem peers_nodup (memberId : Uuid) : (g.peers memberId).Nodup := g.nodup.erase memberId

theorem one_le_length_peers (memberId : Uuid) : 1 ≤ (g.peers memberId).length := by
  have htwo := g.two
  unfold peers
  rw [List.length_erase]
  split <;> omega

structure State where
  role : Uuid → PaxosState
  ctx : Uuid → PaxosSharedContext
  /-- The messages sent, each with the member it goes to. -/
  sent : List (Uuid × PaxosEvent)

/-- Every member as `PaxosStateMachine::start` sets it up. -/
def start : State where
  role _ := .follower (Follower.new none)
  ctx memberId := PaxosSharedContext.new memberId (g.peers memberId) (g.peers_nodup memberId)
  sent := []

/-- The messages an effect puts on their way: a broadcast goes to all the other
members and a reply to whoever waits for it. -/
def messages (sender : Uuid) : Effect → List (Uuid × PaxosEvent)
  | .dispatchPreVote request =>
    (g.peers sender).map fun p => (p, .preVoteRequestReceived ⟨request, ⟨sender, true⟩⟩)
  | .dispatchVote request =>
    (g.peers sender).map fun p => (p, .voteRequestReceived ⟨request, ⟨sender, true⟩⟩)
  | .dispatchAccept memberId request =>
    [(memberId, .acceptRequestReceived ⟨request, ⟨sender, true⟩⟩)]
  | .dispatchClientWrite leaderId request tx =>
    [(leaderId, .clientWriteRequestReceived ⟨request, tx⟩)]
  | .preVoteReply tx response => [(tx.receiver, .preVoteResponseReceived response)]
  | .voteReply tx response => [(tx.receiver, .voteResponseReceived response)]
  | .acceptReply tx response => [(tx.receiver, .acceptResponseReceived response)]
  | .clientReply _ _ => []
  | .signalWriteFlush => []

/-- The events that timers raise. -/
def isTimer : PaxosEvent → Bool
  | .leaderLeaseExpired | .electionCountdownExpired | .preVoteCampaignExpired
  | .voteCampaignExpired | .writeFlushTimerFired | .acceptTimeoutCheckFired
  | .heartbeatTimerFired => true
  | _ => false

inductive Label where
  | timer (memberId : Uuid) (event : PaxosEvent) (env : Env)
  /-- The lease watcher clears an expired lease. -/
  | leaseWatcher (memberId : Uuid) (utc : DateTime)
  | deliver (memberId : Uuid) (event : PaxosEvent) (env : Env)

/-- A member processes an event; what it shows becomes messages. -/
def process (s : State) (memberId : Uuid) (event : PaxosEvent) (env : Env) : Option State :=
  let o := (s.role memberId).processEvent event (s.ctx memberId) false env
  match o.result with
  | .ok role => some
    { role := Function.update s.role memberId role
      ctx := Function.update s.ctx memberId o.ctx
      sent := o.effects.flatMap (g.messages memberId) ++ s.sent }
  | .error _ => none

def step (s : State) : Label → Option State
  | .timer memberId event env =>
    if isTimer event then g.process s memberId event env else none
  | .leaseWatcher memberId utc =>
    if (s.ctx memberId).isLeaderLeaseExpired utc then
      some { s with
        ctx := Function.update s.ctx memberId { s.ctx memberId with leaseExpiry := none } }
    else none
  | .deliver memberId event env =>
    if (memberId, event) ∈ s.sent then g.process s memberId event env else none

/-- Some run makes some member the leader. -/
def CanElect : Prop :=
  ∃ s, Reaches g.step g.start s ∧ ∃ memberId ∈ g.ids, (s.role memberId).isLeader = true

/-- A vote board with a slot for somebody, and no Promise. -/
structure Unpromised (c : Candidate) : Prop where
  size : 1 ≤ c.voteBoard.size
  none : ∀ p v, c.voteBoard.get? p = some v → Candidate.isGranted v = false

/-- A board without Promises is no quorum. -/
theorem Unpromised.not_quorum {c : Candidate} (hc : Unpromised c) : c.hasVoteQuorum = false := by
  have hcount : c.voteBoard.values.countP Candidate.isGranted = 0 := by
    rw [List.countP_eq_zero]
    intro v hv
    obtain ⟨p, hp⟩ := AssocMap.mem_values_iff.mp hv
    rw [hc.none p v hp]
    exact Bool.false_ne_true
  have hsize := hc.size
  rw [Candidate.hasVoteQuorum, hcount]
  exact decide_eq_false (by omega)

theorem Unpromised.new {ctx ctx' : PaxosSharedContext} {env : Env}
    (hpeers : 1 ≤ ctx.peerIds.length) :
    Unpromised ((Candidate.new ctx).dispatchVote ctx' env).state := by
  obtain ⟨hkeys, hnone⟩ := Candidate.new_voteBoard ctx
  refine ⟨?_, ?_⟩
  · rwa [Candidate.dispatchVote_voteBoard, AssocMap.size_eq_length_keys, hkeys]
  · intro p v hget
    rw [Candidate.dispatchVote_voteBoard] at hget
    cases hnone p v hget
    rfl

/-- Recording a response that is no Promise. -/
theorem Unpromised.record {c c' : Candidate} {ctx : PaxosSharedContext} {response : VoteResponse}
    (hc : Unpromised c) (hresponse : response.outcome.isPromise = false)
    (h : c.recordVote response ctx = some c') : Unpromised c' := by
  have hboard := Candidate.recordVote_voteBoard h
  refine ⟨?_, ?_⟩
  · rw [hboard]
    exact hc.size.trans (c.voteBoard.size_le_size_insert _ _)
  · intro p v hget
    rw [hboard, AssocMap.get?_insert] at hget
    split at hget
    · cases Option.some.inj hget
      exact hresponse
    · exact hc.none p v hget

/-- No Promise is on its way or on a board, every member has a peer, and nobody
leads. -/
structure Inv (s : State) : Prop where
  quiet : ∀ p response, (p, PaxosEvent.voteResponseReceived response) ∈ s.sent →
    response.outcome.isPromise = false
  board : ∀ p c, s.role p = .candidate c → Unpromised c
  peers : ∀ p, 1 ≤ (s.ctx p).peerIds.length
  noLeader : ∀ p l, s.role p ≠ .leader l

theorem Inv.start : Inv g.start where
  quiet _ _ h := absurd h List.not_mem_nil
  board _ _ h := by cases h
  peers := g.one_le_length_peers
  noLeader _ _ h := by cases h

/-- A vote response on its way is one that was replied. -/
theorem mem_messages_vote {sender p : Uuid} {e : Effect} {response : VoteResponse}
    (h : (p, PaxosEvent.voteResponseReceived response) ∈ g.messages sender e) :
    ∃ tx, e = .voteReply tx response := by
  cases e with
  | voteReply tx r =>
    cases List.mem_singleton.mp h
    exact ⟨tx, rfl⟩
  | dispatchPreVote request => simp [messages] at h
  | dispatchVote request => simp [messages] at h
  | dispatchAccept memberId request => simp [messages] at h
  | dispatchClientWrite leaderId request tx => simp [messages] at h
  | preVoteReply tx r => simp [messages] at h
  | acceptReply tx r => simp [messages] at h
  | clientReply tx r => simp [messages] at h
  | signalWriteFlush => simp [messages] at h

/-- The role an event leads to, when the event is no Promise. -/
theorem Inv.role {s : State} {memberId : Uuid} {event : PaxosEvent} {env : Env}
    {role : PaxosState} (hs : Inv s) (hevent : ∀ response,
      event = .voteResponseReceived response → response.outcome.isPromise = false)
    (hresult : ((s.role memberId).processEvent event (s.ctx memberId) false env).result =
      .ok role) :
    (∀ c, role = .candidate c → Unpromised c) ∧ (∀ l, role ≠ .leader l) ∧
      1 ≤ ((s.role memberId).processEvent event (s.ctx memberId) false env).ctx.peerIds.length := by
  rw [PaxosState.processEvent_eq] at hresult ⊢
  have hpeers := hs.peers memberId
  rcases (s.role memberId).adoptTerm_cases event (s.ctx memberId) with
    hkept | ⟨term, _, _, hadopt⟩
  · rw [hkept] at hresult ⊢
    refine ⟨?_, ?_, ?_⟩
    · rintro c rfl
      rcases PaxosState.candidate_of_handleEvent hresult with
        ⟨p, response, _, _, _, _, rfl⟩ | ⟨c₀, hrole, _, hboard⟩
      · exact .new hpeers
      · rcases hboard with rfl | ⟨response, hresponse, hrecord⟩
        · exact hs.board memberId c hrole
        · exact (hs.board memberId c₀ hrole).record (hevent response hresponse) hrecord
    · rintro l rfl
      obtain ⟨_, ⟨c, c', response, hrole, hresponse, hrecord, hquorum⟩ | ⟨l₀, hrole⟩⟩ :=
        PaxosState.leader_of_handleEvent hresult
      · have hnot := ((hs.board memberId c hrole).record (hevent response hresponse)
          hrecord).not_quorum
        rw [hnot] at hquorum
        cases hquorum
      · exact hs.noLeader memberId l₀ hrole
    · rwa [PaxosState.peerIds_of_handleEvent hresult]
  · rw [hadopt] at hresult ⊢
    refine ⟨?_, ?_, ?_⟩
    · rintro c rfl
      cases Follower.handleEvent_next hresult
    · rintro l rfl
      cases Follower.handleEvent_next hresult
    · rwa [PaxosState.peerIds_of_handleEvent hresult]

/-- What one member does with one event keeps the invariant, when the event is
no Promise. -/
theorem Inv.process {s s' : State} {memberId : Uuid} {event : PaxosEvent} {env : Env}
    (hs : Inv s) (hevent : ∀ response, event = .voteResponseReceived response →
      response.outcome.isPromise = false)
    (h : g.process s memberId event env = some s') : Inv s' := by
  simp only [Group.process] at h
  split at h
  case h_2 => cases h
  rename_i role hresult
  cases Option.some.inj h
  obtain ⟨hboard, hleader, hpeers⟩ := hs.role hevent hresult
  refine ⟨?_, ?_, ?_, ?_⟩
  · intro p response hmem
    rcases List.mem_append.mp hmem with hnew | hold
    · obtain ⟨e, he, hmsg⟩ := List.mem_flatMap.mp hnew
      obtain ⟨tx, rfl⟩ := g.mem_messages_vote hmsg
      exact PaxosState.processEvent_not_isPromise _ false he
    · exact hs.quiet p response hold
  · intro p c hc
    by_cases hp : p = memberId
    · subst hp
      exact hboard c (by simpa using hc)
    · exact hs.board p c (by simpa [hp] using hc)
  · intro p
    by_cases hp : p = memberId
    · subst hp
      simpa using hpeers
    · simpa [hp] using hs.peers p
  · intro p l hl
    by_cases hp : p = memberId
    · subst hp
      exact hleader l (by simpa using hl)
    · exact hs.noLeader p l (by simpa [hp] using hl)

theorem Inv.step {s s' : State} {l : Label} (hs : Inv s) (h : g.step s l = some s') : Inv s' := by
  cases l with
  | timer memberId event env =>
    simp only [Group.step] at h
    split at h
    · rename_i htimer
      refine hs.process g ?_ h
      rintro response rfl
      cases htimer
    · cases h
  | leaseWatcher memberId utc =>
    simp only [Group.step] at h
    split at h
    · cases Option.some.inj h
      refine ⟨hs.quiet, hs.board, ?_, hs.noLeader⟩
      intro p
      by_cases hp : p = memberId
      · subst hp
        simpa using hs.peers p
      · simpa [hp] using hs.peers p
    · cases h
  | deliver memberId event env =>
    simp only [Group.step] at h
    split at h
    · rename_i hmem
      refine hs.process g ?_ h
      rintro response rfl
      exact hs.quiet memberId response hmem
    · cases h

theorem not_leader_of_reaches {s : State} (h : Reaches g.step g.start s) (p : Uuid) :
    (s.role p).isLeader = false := by
  have hnot := (h.invariant (Inv.start g) fun _ _ _ ha _ hs => ha.step g hs).noLeader p
  cases hrole : s.role p with
  | leader l => exact absurd hrole (hnot l)
  | _ => rfl

/-- **No election succeeds**: no run of any group makes anybody the leader. -/
theorem not_canElect : ¬ g.CanElect := by
  rintro ⟨s, hrun, p, _, hleader⟩
  rw [g.not_leader_of_reaches hrun p] at hleader
  cases hleader

/-- A group of two. -/
def pair : Group := ⟨[1, 2], by decide, by decide⟩

theorem not_forall_canElect : ¬ ∀ g : Group, g.CanElect := by
  intro hall
  obtain ⟨s, hrun, p, _, hleader⟩ := hall pair
  rw [pair.not_leader_of_reaches hrun p] at hleader
  cases hleader

end Group
end SpannerPaxos
