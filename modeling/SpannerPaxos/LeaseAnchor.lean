import SpannerPaxos.LeaseDisjoint
import SpannerPaxos.MessageTerms

/-! # What a renewed lease rests on

A leader from its election on, the members of its group in whatever roles they are,
and the accept requests and responses between them, in true time.  A renewal goes
back to the newest contacts of a quorum, and every one of these to a request that the
follower handled: there it has extended its own lease past the leader's, and there is
nothing that it can do to have less before the leader's new lease is over.
-/
namespace SpannerPaxos

instance (response : AcceptResponse) : Decidable response.Explained :=
  inferInstanceAs (Decidable (_ ∨ _))

/-- A tenure in true time. -/
structure Rule where
  /-- The true time. -/
  time : DateTime
  /-- `none` when the tenure is over. -/
  leader : Option Leader
  ctx : PaxosSharedContext
  role : Uuid → PaxosState
  memberCtx : Uuid → PaxosSharedContext
  /-- The requests of the leader to each member. -/
  requests : Uuid → List AcceptRequest
  /-- The answers of each member to these. -/
  responses : Uuid → List AcceptResponse

namespace Rule

inductive Label where
  /-- The leader processes an event.  When its lease watcher clears the lease, the
  loop goes on to `LeaderLeaseExpired` at once, so the watcher has no label. -/
  | own (event : PaxosEvent) (env : Env)
  /-- Another member processes an event, from whomever. -/
  | member (memberId : Uuid) (event : PaxosEvent) (env : Env)
  | memberWatcher (memberId : Uuid) (utc : DateTime)
  /-- Time passes. -/
  | pass

/-- The responses that the leader heeds are answers to its requests: an answer to a
request of an earlier tenure has an earlier term, or explains nothing. -/
def Arrived (s : Rule) : PaxosEvent → Prop
  | .acceptResponseReceived response => response ∈ s.responses response.memberId ∨
      response.term < s.ctx.term ∨ ¬ response.Explained
  | _ => True

instance (s : Rule) : (event : PaxosEvent) → Decidable (s.Arrived event)
  | .acceptResponseReceived _ => inferInstanceAs (Decidable (_ ∨ _ ∨ _))
  | .leaderLeaseExpired | .electionCountdownExpired | .preVoteCampaignExpired
  | .voteCampaignExpired | .writeFlushTimerFired | .acceptTimeoutCheckFired | .heartbeatTimerFired
  | .preVoteRequestReceived _ | .preVoteResponseReceived _ | .voteRequestReceived _
  | .voteResponseReceived _ | .acceptRequestReceived _ | .clientWriteRequestReceived _ =>
    inferInstanceAs (Decidable True)

/-- The leader that a member is after an event. -/
def leaderOf : Except Fault PaxosState → Option Leader
  | .ok (.leader l) => some l
  | _ => none

/-- The answers to a request of the leader. -/
def echoes (s : Rule) (memberId : Uuid) (event : PaxosEvent) (effects : List Effect) :
    List AcceptResponse :=
  match event with
  | .acceptRequestReceived command =>
    if command.request ∈ s.requests memberId then Tenure.replied effects else []
  | _ => []

def act (s : Rule) : Label → Option Rule
  | .own event env =>
    match s.leader with
    | none => none
    | some l =>
      if s.Arrived event then
        let o := (PaxosState.leader l).processEvent event s.ctx false env
        some { s with
          leader := leaderOf o.result
          ctx := o.ctx
          requests := fun p => s.requests p ++ Tenure.sentTo p o.effects }
      else none
  | .member p event env =>
    if p ∈ s.ctx.peerIds then
      let o := (s.role p).processEvent event (s.memberCtx p) false env
      match o.result with
      | .ok role => some { s with
        role := Function.update s.role p role
        memberCtx := Function.update s.memberCtx p o.ctx
        responses := Function.update s.responses p (s.responses p ++ s.echoes p event o.effects) }
      | .error _ => none
    else none
  | .memberWatcher p utc => ((s.memberCtx p).watchLease utc).map fun ctx =>
      { s with memberCtx := Function.update s.memberCtx p ctx }
  | .pass => some s

/-- A label, and the true time at its end. -/
def step (s : Rule) (l : Label × DateTime) : Option Rule :=
  (s.act l.1).map fun s' => { s' with time := l.2 }

/-- A reading made while the label happens. -/
def Label.Reading : Label → DateTime → Prop
  | .own _ env, utc | .member _ _ env, utc => ∃ i, env.clock i = utc
  | .memberWatcher _ utc', utc => utc' = utc
  | .pass, _ => False

/-- Time goes forward, and every reading contains the true time it is made at. -/
def Truthful (s : Rule) (l : Label × DateTime) : Prop :=
  s.time ≤ l.2 ∧ ∀ utc, l.1.Reading utc → ∃ t, s.time ≤ t ∧ t ≤ l.2 ∧ TrueTime.Reads utc t

/-- The member has just won an election that it began since the epoch, and its first
requests are under way. -/
def Start (s : Rule) : Prop :=
  ∃ (c : Candidate) (ctx : PaxosSharedContext) (event : PaxosEvent) (env : Env),
    let o := (PaxosState.candidate c).processEvent event ctx false env
    (∃ l, o.result = .ok (.leader l) ∧ s.leader = some l) ∧ s.ctx = o.ctx ∧
      (∀ p, s.requests p = Tenure.sentTo p o.effects ∧ s.responses p = []) ∧
      (∀ i, ∃ t, t ≤ s.time ∧ TrueTime.Reads (env.clock i) t) ∧
      ∀ dispatchTime, c.voteDispatchTime = some dispatchTime → DateTime.unixEpoch ≤ dispatchTime

/-- A run of the tenure in true time; a finite one passes the time in the end. -/
structure Run where
  state : Nat → Rule
  label : Nat → Label × DateTime
  start : (state 0).Start
  truthful : ∀ n, (state n).Truthful (label n)
  next : ∀ n, (state n).step (label n) = some (state (n + 1))

/-- The member handles a request of the leader. -/
def Handles (s : Rule) (p : Uuid) (l : Label × DateTime) : Prop :=
  ∃ command env, l.1 = .member p (.acceptRequestReceived command) env ∧
    command.request ∈ s.requests p

/-- Asked until the true time `e`, the member answers that its lease is not over,
whatever its clock shows. -/
def Holds (s : Rule) (p : Uuid) (e : DateTime) : Prop :=
  ∀ t utc, s.time ≤ t → t ≤ e → TrueTime.Reads utc t →
    (s.memberCtx p).isLeaderLeaseExpired utc = false

/-- From a request of the leader that it handles before step `n` on, the member holds
its lease until the true time `e`. -/
def Run.Anchors (run : Run) (n : Nat) (e : DateTime) (p : Uuid) : Prop :=
  ∃ h, h < n ∧ (run.state h).Handles p (run.label h) ∧
    ∀ m, h < m → (run.state m).Holds p e

/-! ## Holding a lease -/

/-- The member is a Follower whose lease runs until `e`, which is not more than a lease
length away, or `e` is past. -/
def Held (s : Rule) (p : Uuid) (e : DateTime) : Prop :=
  e < s.time ∨ e ≤ s.time + PaxosSharedContext.leaseLength ∧ (∃ f, s.role p = .follower f) ∧
    ∃ x, (s.memberCtx p).leaseExpiry = some x ∧ e ≤ x

variable {s s' : Rule} {p : Uuid} {e : DateTime} {l : Label × DateTime}

theorem Held.holds (h : s.Held p e) : s.Holds p e := by
  intro t utc hle hte hread
  rw [← Bool.not_eq_true]
  intro hexpired
  rcases h with hpast | ⟨_, _, x, hx, hex⟩
  · exact absurd (le_trans hle hte) (not_le_of_gt hpast)
  · have hover : x < t := (s.memberCtx p).lt_of_isLeaderLeaseExpired hread hexpired hx
    exact absurd (le_trans hte hex) (not_le_of_gt hover)

/-- **What a Follower that holds its lease does with an event.**  It campaigns when its
lease is over, and not before; its lease stays or is extended. -/
theorem follower_of_processEvent {f : Follower} {event : PaxosEvent} {ctx : PaxosSharedContext}
    {env : Env} {role : PaxosState}
    (h : ((PaxosState.follower f).processEvent event ctx false env).result = .ok role) :
    let o := (PaxosState.follower f).processEvent event ctx false env
    (o.ctx.leaseExpiry = ctx.leaseExpiry ∨ o.ctx.Extended env) ∧
      ((∃ f', role = .follower f') ∨ ctx.isLeaderLeaseExpired (env.clock 0) = true) := by
  have hkey : ∀ (f : Follower) (ctx' : PaxosSharedContext), ctx'.leaseExpiry = ctx.leaseExpiry →
      (f.handleEvent event ctx' env).result = .ok role →
      ((f.handleEvent event ctx' env).ctx.leaseExpiry = ctx.leaseExpiry ∨
        (f.handleEvent event ctx' env).ctx.Extended env) ∧
      ((∃ f', role = .follower f') ∨ ctx.isLeaderLeaseExpired (env.clock 0) = true) := by
    intro f ctx' hlease hresult
    refine ⟨hlease ▸ Follower.lease_of_handleEvent event, ?_⟩
    cases Follower.handleEvent_next hresult with
    | votes => exact Or.inl ⟨_, rfl⟩
    | stays f' => exact Or.inl ⟨f', rfl⟩
    | campaigns _ hexpired =>
      refine Or.inr ?_
      rwa [PaxosSharedContext.isLeaderLeaseExpired, hlease] at hexpired
  rw [PaxosState.processEvent_eq] at h ⊢
  rcases (PaxosState.follower f).adoptTerm_cases event ctx with hkept | ⟨term, _, _, hadopt⟩
  · rw [hkept] at h ⊢
    exact hkey _ _ rfl h
  · rw [hadopt] at h ⊢
    exact hkey _ _ rfl h

/-- A lease extended during a step runs a lease length from its beginning. -/
theorem le_of_extended {env : Env} {ctx : PaxosSharedContext} (h : ctx.Extended env)
    (hok : s.Truthful l) (hreading : ∀ i, l.1.Reading (env.clock i)) :
    ∃ x, ctx.leaseExpiry = some x ∧ s.time + PaxosSharedContext.leaseLength ≤ x := by
  obtain ⟨i, hx⟩ := h
  obtain ⟨t, hle, _, hread⟩ := hok.2 _ (hreading i)
  exact ⟨_, hx, Int.add_le_add_right (le_trans hle hread.2) _⟩

/-- Nothing happens to the member. -/
theorem Held.idle (h : s.Held p e) (htime : s.time ≤ s'.time) (hrole : s'.role p = s.role p)
    (hctx : s'.memberCtx p = s.memberCtx p) : s'.Held p e := by
  rcases h with hpast | ⟨hbound, hfollower, hlease⟩
  · exact Or.inl (lt_of_lt_of_le hpast htime)
  · refine Or.inr ⟨le_trans hbound (Int.add_le_add_right htime _), ?_, ?_⟩
    · rwa [hrole]
    · rwa [hctx]

/-- The member processes an event. -/
theorem Held.member {event : PaxosEvent} {env : Env} {time : DateTime} {role : PaxosState}
    (h : s.Held p e) (hok : s.Truthful (.member p event env, time))
    (hresult : ((s.role p).processEvent event (s.memberCtx p) false env).result = .ok role)
    (hrole : s'.role p = role)
    (hctx : s'.memberCtx p = ((s.role p).processEvent event (s.memberCtx p) false env).ctx) :
    ({ s' with time := time } : Rule).Held p e := by
  rcases h with hpast | ⟨hbound, ⟨f, hf⟩, x, hx, hex⟩
  · exact Or.inl (lt_of_lt_of_le hpast hok.1)
  rw [hf] at hresult hctx
  obtain ⟨hlease, hfollower | hexpired⟩ := follower_of_processEvent hresult
  · refine Or.inr ⟨le_trans hbound (Int.add_le_add_right hok.1 _), hrole ▸ hfollower, ?_⟩
    show ∃ x, (s'.memberCtx p).leaseExpiry = some x ∧ e ≤ x
    rw [hctx]
    rcases hlease with hsame | hextended
    · exact ⟨x, hsame.trans hx, hex⟩
    · obtain ⟨x', hx', hle⟩ := le_of_extended hextended hok fun i => ⟨i, rfl⟩
      exact ⟨x', hx', le_trans hbound hle⟩
  · -- only a reading past the lease lets the countdown start a campaign
    obtain ⟨t, _, ht, hread⟩ := hok.2 (env.clock 0) ⟨0, rfl⟩
    have hover : x < t := (s.memberCtx p).lt_of_isLeaderLeaseExpired hread hexpired hx
    exact Or.inl (lt_of_le_of_lt hex (lt_of_lt_of_le hover ht))

/-- The watcher clears the member's lease. -/
theorem Held.cleared {utc time : DateTime} (h : s.Held p e)
    (hok : s.Truthful (.memberWatcher p utc, time))
    (hpast : ∀ x, (s.memberCtx p).leaseExpiry = some x → TrueTime.after x utc = true) :
    ({ s' with time := time } : Rule).Held p e := by
  rcases h with hpast' | ⟨_, _, x, hx, hex⟩
  · exact Or.inl (lt_of_lt_of_le hpast' hok.1)
  · obtain ⟨t, _, ht, hread⟩ := hok.2 utc rfl
    have hover : x < t := TrueTime.lt_of_after hread (hpast x hx)
    exact Or.inl (lt_of_le_of_lt hex (lt_of_lt_of_le hover ht))

/-- **A lease that is held stays held**, whatever happens. -/
theorem Held.step (h : s.Held p e) (hok : s.Truthful l) (hstep : s.step l = some s') :
    s'.Held p e := by
  obtain ⟨label, time⟩ := l
  obtain ⟨s₁, hact, rfl⟩ := Option.map_eq_some_iff.mp hstep
  cases label with
  | own event env =>
    simp only [act] at hact
    split at hact
    · cases hact
    · split at hact
      · cases Option.some.inj hact
        exact h.idle hok.1 rfl rfl
      · cases hact
  | member q event env =>
    simp only [act] at hact
    split at hact
    · split at hact
      · rename_i role hresult
        cases Option.some.inj hact
        by_cases hp : p = q
        · subst hp
          exact h.member hok hresult (Function.update_self _ _ _) (Function.update_self _ _ _)
        · exact h.idle hok.1 (Function.update_of_ne hp _ _) (Function.update_of_ne hp _ _)
      · cases hact
    · cases hact
  | memberWatcher q utc =>
    simp only [act] at hact
    obtain ⟨ctx, hctx, rfl⟩ := Option.map_eq_some_iff.mp hact
    by_cases hp : p = q
    · subst hp
      obtain ⟨_, hpast⟩ := PaxosSharedContext.watchLease_cleared hctx
      exact h.cleared hok hpast
    · exact h.idle hok.1 rfl (Function.update_of_ne hp _ _)
  | pass =>
    cases Option.some.inj hact
    exact h.idle hok.1 rfl rfl

/-! ## Contacts and what they stand for -/

theorem Held.mono {e' : DateTime} (h : s.Held p e) (hle : e' ≤ e) : s.Held p e' := by
  rcases h with hpast | ⟨hbound, hfollower, x, hx, hex⟩
  · exact Or.inl (lt_of_le_of_lt hle hpast)
  · exact Or.inr ⟨le_trans hle hbound, hfollower, x, hx, le_trans hle hex⟩

section
variable {command : PaxosCommand AcceptRequest} {ctx : PaxosSharedContext} {env : Env}
  {tx : ReplyChannel} {response : AcceptResponse} {role : PaxosState}

/-- A Follower that explains its answer has extended its lease. -/
theorem explained_of_follower {f : Follower} {n : Nat}
    (h : Effect.acceptReply tx response = .acceptReply command.responseTx
      (f.handleAcceptRequest command.request ctx (env.skip n)).1) :
    response.echoedTSend = command.request.tSend ∧ (response.Explained →
      (f.handleAcceptRequest command.request ctx (env.skip n)).2.Extended env) := by
  cases h
  obtain ⟨_, hecho, hlease⟩ := f.handleAcceptRequest_lease command.request ctx (env.skip n)
  refine ⟨hecho, fun hexplained => ?_⟩
  rcases hlease with ⟨hno, _⟩ | ⟨i, hi⟩
  · exact absurd hexplained hno
  · exact ⟨i + n, hi⟩

/-- A campaigner explains its answer only as the Follower that it steps down to. -/
theorem explained_of_stepDownOnAccept {stay : PaxosState}
    (hresult : (stepDownOnAccept stay command ctx env).result = .ok role)
    (heffect : .acceptReply tx response ∈ (stepDownOnAccept stay command ctx env).effects) :
    response.echoedTSend = command.request.tSend ∧ (response.Explained → (∃ f, role = .follower f) ∧
      (stepDownOnAccept stay command ctx env).ctx.Extended env) := by
  unfold stepDownOnAccept at hresult heffect ⊢
  split at hresult
  · rename_i hstale
    rw [if_pos hstale] at heffect
    cases Outcome.eq_of_mem_reply heffect
    refine ⟨rfl, fun hexplained => ?_⟩
    rcases hexplained with hsuccess | hhint
    · cases hsuccess
    · exact absurd rfl hhint
  · rename_i hterm
    rw [if_neg hterm] at heffect ⊢
    obtain ⟨hrole, _⟩ := Outcome.reply_result hresult
    obtain ⟨hecho, hlease⟩ := explained_of_follower (n := 0) (Outcome.eq_of_mem_reply heffect)
    refine ⟨hecho, fun hexplained => ⟨⟨_, hrole⟩, ?_⟩⟩
    rw [Outcome.reply_ctx]
    exact hlease hexplained

/-- **An accept request that a member explains its answer to** leaves a Follower with an
extended lease, whatever role the member was in. -/
theorem explained_of_processEvent {self : PaxosState}
    (hresult : (self.processEvent (.acceptRequestReceived command) ctx false env).result = .ok role)
    (heffect : .acceptReply tx response ∈
      (self.processEvent (.acceptRequestReceived command) ctx false env).effects) :
    response.echoedTSend = command.request.tSend ∧ (response.Explained → (∃ f, role = .follower f) ∧
      (self.processEvent (.acceptRequestReceived command) ctx false env).ctx.Extended env) := by
  rw [PaxosState.processEvent_eq] at hresult heffect ⊢
  generalize (self.adoptTerm (.acceptRequestReceived command) ctx).1 = self' at *
  generalize (self.adoptTerm (.acceptRequestReceived command) ctx).2 = ctx' at *
  cases self' with
  | follower f =>
    obtain ⟨hrole, _⟩ := Outcome.reply_result hresult
    obtain ⟨hecho, hlease⟩ := explained_of_follower (n := 0) (Outcome.eq_of_mem_reply heffect)
    refine ⟨hecho, fun hexplained => ⟨⟨_, hrole⟩, ?_⟩⟩
    rw [PaxosState.handleEvent, Follower.handleEvent, Outcome.reply_ctx]
    exact hlease hexplained
  | preCandidate c => exact explained_of_stepDownOnAccept hresult heffect
  | candidate c => exact explained_of_stepDownOnAccept hresult heffect
  | leader l =>
    simp only [PaxosState.handleEvent, Leader.handleEvent] at hresult heffect ⊢
    split at hresult
    · rename_i hexpired
      rw [if_pos hexpired] at heffect ⊢
      obtain ⟨hrole, _⟩ := Outcome.reply_result hresult
      obtain ⟨hecho, hlease⟩ := explained_of_follower (n := 1) (Outcome.eq_of_mem_reply heffect)
      refine ⟨hecho, fun hexplained => ⟨⟨_, hrole⟩, ?_⟩⟩
      rw [Outcome.reply_ctx]
      exact hlease hexplained
    · rename_i hvalid
      rw [if_neg hvalid] at heffect
      cases heffect

end

theorem leaderOf_eq_some {result : Except Fault PaxosState} {l : Leader}
    (h : leaderOf result = some l) : result = .ok (.leader l) := by
  unfold leaderOf at h
  split at h
  · cases Option.some.inj h
    rfl
  · cases h

section
variable {l l' : Leader} {event : PaxosEvent} {env : Env} {response : AcceptResponse}

/-- A response that the leader heeds answers one of its requests. -/
theorem Arrived.mem (h : s.Arrived (.acceptResponseReceived response))
    (hheeds : Leader.Heeds response s.ctx) : response ∈ s.responses response.memberId := by
  rcases h with hmem | hstale | hunexplained
  · exact hmem
  · exact absurd hheeds.1 (Nat.not_le.mpr hstale)
  · exact absurd hheeds.2 hunexplained

/-- What an event does to the leader's contacts and lease: answers become contacts, and
the lease gets no shorter. -/
theorem contacts_of_own (harrived : s.Arrived event)
    (hresult : ((PaxosState.leader l).processEvent event s.ctx false env).result =
      .ok (.leader l')) :
    (∀ p t, l'.lastContact.get? p = some t → l.lastContact.get? p = some t ∨
      ∃ response ∈ s.responses p, response.Explained ∧ response.echoedTSend = t) ∧
    ∀ x, s.ctx.leaseExpiry = some x →
      ∃ x', ((PaxosState.leader l).processEvent event s.ctx false env).ctx.leaseExpiry = some x' ∧
        x ≤ x' := by
  have heq := PaxosState.processEvent_of_not_follower hresult nofun
  rw [heq] at hresult ⊢
  rcases Leader.lease_of_handleEvent hresult with
    ⟨hlease, hcontact⟩ | ⟨response, rfl, hexplained, hcontact, hlease⟩
  · rw [hcontact]
    exact ⟨fun p t ht => Or.inl ht, fun x hx => ⟨x, hlease.trans hx, le_refl _⟩⟩
  · refine ⟨fun p t ht => ?_, fun x hx => ?_⟩
    · by_cases hheeds : Leader.Heeds response s.ctx
      · rw [hcontact] at ht
        rcases l.recordContact_get? response ht with hold | ⟨rfl, rfl⟩
        · exact Or.inl hold
        · exact Or.inr ⟨response, harrived.mem hheeds, hexplained, rfl⟩
      · -- a response that is not heeded is not recorded either
        rcases l.handleAcceptResponse_cases response s.ctx env with ⟨_, h⟩ | ⟨h, _⟩ | ⟨h, _⟩
        · simp only [PaxosState.handleEvent, Leader.handleEvent, h] at hresult
          cases Leader.stay_result hresult
          exact Or.inl ht
        · exact absurd h hheeds
        · exact absurd h hheeds
    · rcases hlease with hsame | hrenewed
      · exact ⟨x, hsame.trans hx, le_refl _⟩
      · obtain ⟨x', hx', hle⟩ := (l.recordContact response).le_renewLease hx
        exact ⟨x', hrenewed.trans hx', hle⟩

/-- The leader's requests carry its readings. -/
theorem tSend_of_own {p : Uuid} {request : AcceptRequest} {ctx : PaxosSharedContext}
    (h : Effect.dispatchAccept p request ∈
      ((PaxosState.leader l).processEvent event ctx false env).effects) :
    ∃ i, request.tSend = (TrueTime.now (env.clock i)).earliest := by
  rw [PaxosState.processEvent_eq] at h
  rcases (PaxosState.leader l).adoptTerm_cases event ctx with hkept | ⟨term, _, _, hadopt⟩
  · rw [hkept] at h
    exact Leader.tSend_of_handleEvent h
  · rw [hadopt] at h
    exact absurd h Follower.not_dispatch

theorem mem_echoes {p : Uuid} {effects : List Effect} (h : response ∈ s.echoes p event effects) :
    ∃ command tx, event = .acceptRequestReceived command ∧ command.request ∈ s.requests p ∧
      .acceptReply tx response ∈ effects := by
  unfold echoes at h
  split at h
  · rename_i command
    split at h
    · rename_i hrequest
      obtain ⟨tx, heffect⟩ := Tenure.mem_replied.mp h
      exact ⟨command, tx, rfl, hrequest, heffect⟩
    · cases h
  · cases h

/-- **Where a raise comes from**: an answer to a request, and the contacts of a quorum. -/
theorem raised_of_own {e : DateTime} (harrived : s.Arrived (.acceptResponseReceived response))
    (he : ((PaxosState.leader l).processEvent (.acceptResponseReceived response) s.ctx false
      env).ctx.leaseExpiry = some e)
    (hraise : ∀ x, s.ctx.leaseExpiry = some x → x < e) :
    response ∈ s.responses response.memberId ∧ response.Explained ∧
      ∃ tQuorum, (l.recordContact response).contactTimes[s.ctx.getQuorumSize - 2]? = some tQuorum ∧
        e = tQuorum + PaxosSharedContext.leaseLength := by
  have hkept : s.ctx.leaseExpiry ≠ some e := fun h => lt_irrefl _ (hraise e h)
  rw [PaxosState.processEvent_eq] at he
  rcases (PaxosState.leader l).adoptTerm_cases (.acceptResponseReceived response) s.ctx with
    hsame | ⟨term, _, _, hadopt⟩
  · rw [hsame, PaxosState.handleEvent, Leader.handleEvent, Leader.handleEvent.stay,
      Attempt.toOutcome_ctx, Attempt.map_state] at he
    have hheeds : Leader.Heeds response s.ctx := by
      rcases l.handleAcceptResponse_cases response s.ctx env with ⟨_, h⟩ | ⟨h, _⟩ | ⟨h, _⟩
      · rw [h] at he
        exact absurd he hkept
      · exact h
      · exact h
    refine ⟨harrived.mem hheeds, hheeds.2, ?_⟩
    rcases l.handleAcceptResponse_contact response s.ctx env with
      ⟨_, h⟩ | ⟨_, _, h | h⟩
    · exact absurd (h.symm.trans he) hkept
    · exact absurd (h.symm.trans he) hkept
    · rw [h] at he
      rcases (l.recordContact response).renewLease_leaseExpiry s.ctx with
        hold | ⟨tQuorum, hquorum, hset⟩
      · exact absurd (hold.symm.trans he) hkept
      · exact ⟨tQuorum, hquorum, Option.some.inj (he.symm.trans hset)⟩
  · rw [hadopt] at he
    exact absurd he hkept

end

namespace Run
variable (run : Run) {n : Nat}

/-- A contact made at `t`: before step `n` the member has handled a request of the
leader, and has held its lease from then on. -/
def Contact (n : Nat) (p : Uuid) (t : DateTime) : Prop :=
  ∃ h, h < n ∧ (run.state h).Handles p (run.label h) ∧
    (run.state (h + 1)).Held p (t + PaxosSharedContext.leaseLength)

/-- Whatever can still count as a contact is one, and the leader's lease is worth more
than no contact. -/
structure Inv (n : Nat) : Prop where
  sent : ∀ p request, request ∈ (run.state n).requests p → request.tSend ≤ (run.state n).time
  replied : ∀ p response, response ∈ (run.state n).responses p → response.Explained →
    p ∈ (run.state n).ctx.peerIds ∧ run.Contact n p response.echoedTSend
  contacts : ∀ l, (run.state n).leader = some l → ∀ p t, l.lastContact.get? p = some t →
    t = DateTime.unixEpoch ∨ p ∈ (run.state n).ctx.peerIds ∧ run.Contact n p t
  lease : (run.state n).leader ≠ none → ∃ x, (run.state n).ctx.leaseExpiry = some x ∧
    DateTime.unixEpoch + PaxosSharedContext.leaseLength ≤ x

variable {run}

theorem Contact.succ {p : Uuid} {t : DateTime} (h : run.Contact n p t) :
    run.Contact (n + 1) p t := by
  obtain ⟨k, hk, hhandles, hheld⟩ := h
  exact ⟨k, Nat.lt_succ_of_lt hk, hhandles, hheld⟩

/-- **A contact anchors a lease length from it.** -/
theorem Contact.anchors {p : Uuid} {t : DateTime} (h : run.Contact n p t) {e : DateTime}
    (hle : e ≤ t + PaxosSharedContext.leaseLength) : run.Anchors n e p := by
  obtain ⟨k, hk, hhandles, hheld⟩ := h
  refine ⟨k, hk, hhandles, fun m hm => ?_⟩
  have hheld' : (run.state m).Held p e := by
    induction m, hm using Nat.le_induction with
    | base => exact hheld.mono hle
    | succ m _ ih => exact ih.step (run.truthful m) (run.next m)
  exact hheld'.holds

theorem Inv.start : run.Inv 0 := by
  obtain ⟨c, ctx, event, env, ⟨l, hresult, hleader⟩, hctx, hmail, hreads, hepoch⟩ := run.start
  have heq := PaxosState.processEvent_of_not_follower hresult nofun
  rw [heq] at hresult hctx hmail
  obtain ⟨response, c', dispatchTime, _, hrecord, _, hdispatch, hlease, _, hcontact⟩ :=
    Candidate.lease_of_win hresult
  refine ⟨?_, ?_, ?_, ?_⟩
  · intro p request hmem
    rw [(hmail p).1, Tenure.mem_sentTo] at hmem
    obtain ⟨i, hi⟩ := Candidate.tSend_of_handleEvent hmem
    obtain ⟨t, ht, hread⟩ := hreads i
    rw [hi]
    exact le_trans hread.1 ht
  · intro p response hmem
    rw [(hmail p).2] at hmem
    cases hmem
  · intro l' hl' p t ht
    cases Option.some.inj (hleader.symm.trans hl')
    exact Or.inl (hcontact p t ht)
  · intro _
    rw [(Candidate.recordVote_keeps hrecord).1] at hdispatch
    rw [hctx]
    exact ⟨_, hlease, Int.add_le_add_right (hepoch _ hdispatch) _⟩

/-! ### One step -/

/-- What a step of the leader's own leaves. -/
theorem own_next {event : PaxosEvent} {env : Env} {time : DateTime}
    (hlabel : run.label n = (.own event env, time)) :
    ∃ l, (run.state n).leader = some l ∧ (run.state n).Arrived event ∧
      run.state (n + 1) =
        let o := (PaxosState.leader l).processEvent event (run.state n).ctx false env
        { run.state n with
          time := time
          leader := leaderOf o.result
          ctx := o.ctx
          requests := fun p => (run.state n).requests p ++ Tenure.sentTo p o.effects } := by
  obtain ⟨s₁, hact, heq⟩ := Option.map_eq_some_iff.mp (run.next n)
  rw [hlabel] at hact heq
  simp only [act] at hact
  split at hact
  · cases hact
  · rename_i l hleader
    split at hact
    · rename_i harrived
      cases Option.some.inj hact
      exact ⟨l, hleader, harrived, heq.symm⟩
    · cases hact

/-- What a step of another member leaves. -/
theorem member_next {p : Uuid} {event : PaxosEvent} {env : Env} {time : DateTime}
    (hlabel : run.label n = (.member p event env, time)) :
    p ∈ (run.state n).ctx.peerIds ∧ ∃ role,
      (((run.state n).role p).processEvent event ((run.state n).memberCtx p) false env).result =
        .ok role ∧
      run.state (n + 1) =
        let o := ((run.state n).role p).processEvent event ((run.state n).memberCtx p) false env
        { run.state n with
          time := time
          role := Function.update (run.state n).role p role
          memberCtx := Function.update (run.state n).memberCtx p o.ctx
          responses := Function.update (run.state n).responses p
            ((run.state n).responses p ++ (run.state n).echoes p event o.effects) } := by
  obtain ⟨s₁, hact, heq⟩ := Option.map_eq_some_iff.mp (run.next n)
  rw [hlabel] at hact heq
  simp only [act] at hact
  split at hact
  · rename_i hpeer
    split at hact
    · rename_i role hresult
      cases Option.some.inj hact
      exact ⟨hpeer, role, hresult, heq.symm⟩
    · cases hact
  · cases hact

theorem Inv.own (h : run.Inv n) {event : PaxosEvent} {env : Env} {time : DateTime}
    (hlabel : run.label n = (.own event env, time)) : run.Inv (n + 1) := by
  obtain ⟨l, hleader, harrived, hnext⟩ := own_next hlabel
  have hok := run.truthful n
  rw [hlabel] at hok
  obtain ⟨_, _, hfits, _⟩ :=
    (PaxosState.leader l).processEvent_fits event (run.state n).ctx env
  have hpeers : (run.state (n + 1)).ctx.peerIds = (run.state n).ctx.peerIds := by
    rw [hnext]
    exact hfits.same.peerIds
  refine ⟨?_, ?_, ?_, ?_⟩
  · intro p request hmem
    rw [hnext] at hmem ⊢
    rcases List.mem_append.mp hmem with hold | hnew
    · exact le_trans (h.sent p request hold) hok.1
    · obtain ⟨i, hi⟩ := tSend_of_own (Tenure.mem_sentTo.mp hnew)
      obtain ⟨t, _, ht, hread⟩ := hok.2 _ ⟨i, rfl⟩
      rw [hi]
      exact le_trans hread.1 ht
  · intro p response hmem hexplained
    have hsame : (run.state (n + 1)).responses = (run.state n).responses := by rw [hnext]
    rw [hsame] at hmem
    rw [hpeers]
    obtain ⟨hpeer, hcontact⟩ := h.replied p response hmem hexplained
    exact ⟨hpeer, hcontact.succ⟩
  · intro l' hl' p t ht
    rw [hpeers]
    rw [hnext] at hl'
    rcases (contacts_of_own harrived (leaderOf_eq_some hl')).1 p t ht with
      hold | ⟨response, hmem, hexplained, rfl⟩
    · rcases h.contacts l hleader p t hold with hepoch | ⟨hpeer, hcontact⟩
      · exact Or.inl hepoch
      · exact Or.inr ⟨hpeer, hcontact.succ⟩
    · obtain ⟨hpeer, hcontact⟩ := h.replied p response hmem hexplained
      exact Or.inr ⟨hpeer, hcontact.succ⟩
  · intro hleads
    obtain ⟨l', hl'⟩ := Option.ne_none_iff_exists'.mp hleads
    obtain ⟨x, hx, hle⟩ := h.lease (by rw [hleader]; exact Option.some_ne_none l)
    rw [hnext] at hl' ⊢
    obtain ⟨x', hx', hle'⟩ := (contacts_of_own harrived (leaderOf_eq_some hl')).2 x hx
    exact ⟨x', hx', le_trans hle hle'⟩

/-- A member's step in which it handles a request of the leader. -/
theorem Inv.replied_member (h : run.Inv n) {p : Uuid} {event : PaxosEvent} {env : Env}
    {time : DateTime} (hlabel : run.label n = (.member p event env, time))
    {response : AcceptResponse} (hexplained : response.Explained)
    (hmem : response ∈ (run.state n).echoes p event (((run.state n).role p).processEvent event
      ((run.state n).memberCtx p) false env).effects) :
    run.Contact (n + 1) p response.echoedTSend := by
  obtain ⟨_, role, hresult, hnext⟩ := member_next hlabel
  have hok := run.truthful n
  rw [hlabel] at hok
  obtain ⟨command, tx, rfl, hrequest, heffect⟩ := mem_echoes hmem
  obtain ⟨hecho, hanswer⟩ := explained_of_processEvent hresult heffect
  obtain ⟨hfollower, hextended⟩ := hanswer hexplained
  obtain ⟨x, hx, hle⟩ := le_of_extended hextended hok fun i => ⟨i, rfl⟩
  have hsent : response.echoedTSend + PaxosSharedContext.leaseLength ≤
      (run.state n).time + PaxosSharedContext.leaseLength := by
    rw [hecho]
    exact Int.add_le_add_right (h.sent p command.request hrequest) _
  refine ⟨n, Nat.lt_succ_self n, ⟨command, env, by rw [hlabel], hrequest⟩, Or.inr ⟨?_, ?_, ?_⟩⟩
  · rw [hnext]
    exact le_trans hsent (Int.add_le_add_right hok.1 _)
  · rw [hnext]
    simpa using hfollower
  · rw [hnext]
    exact ⟨x, by simpa using hx, le_trans hsent hle⟩

theorem Inv.member (h : run.Inv n) {p : Uuid} {event : PaxosEvent} {env : Env}
    {time : DateTime} (hlabel : run.label n = (.member p event env, time)) :
    run.Inv (n + 1) := by
  obtain ⟨hpeer, role, hresult, hnext⟩ := member_next hlabel
  have hok := run.truthful n
  rw [hlabel] at hok
  refine ⟨?_, ?_, ?_, ?_⟩
  · intro q request hmem
    rw [hnext] at hmem ⊢
    exact le_trans (h.sent q request hmem) hok.1
  · intro q response hmem hexplained
    have hpeers : (run.state (n + 1)).ctx = (run.state n).ctx := by rw [hnext]
    rw [hpeers]
    rw [hnext] at hmem
    rcases Leased.mem_update_append hmem with hold | ⟨rfl, hnew⟩
    · obtain ⟨hpeer, hcontact⟩ := h.replied q response hold hexplained
      exact ⟨hpeer, hcontact.succ⟩
    · exact ⟨hpeer, h.replied_member hlabel hexplained hnew⟩
  · intro l hl q t ht
    rw [hnext] at hl ⊢
    rcases h.contacts l hl q t ht with hepoch | ⟨hpeer, hcontact⟩
    · exact Or.inl hepoch
    · exact Or.inr ⟨hpeer, hcontact.succ⟩
  · intro hleads
    rw [hnext] at hleads ⊢
    exact h.lease hleads

/-- A step that leaves the leader and the mail alone. -/
theorem Inv.idle (h : run.Inv n) (htime : (run.state n).time ≤ (run.state (n + 1)).time)
    (hleader : (run.state (n + 1)).leader = (run.state n).leader)
    (hctx : (run.state (n + 1)).ctx = (run.state n).ctx)
    (hrequests : (run.state (n + 1)).requests = (run.state n).requests)
    (hresponses : (run.state (n + 1)).responses = (run.state n).responses) :
    run.Inv (n + 1) := by
  refine ⟨?_, ?_, ?_, ?_⟩
  · intro p request hmem
    rw [hrequests] at hmem
    exact le_trans (h.sent p request hmem) htime
  · intro p response hmem hexplained
    rw [hresponses] at hmem
    rw [hctx]
    obtain ⟨hpeer, hcontact⟩ := h.replied p response hmem hexplained
    exact ⟨hpeer, hcontact.succ⟩
  · intro l hl p t ht
    rw [hleader] at hl
    rw [hctx]
    rcases h.contacts l hl p t ht with hepoch | ⟨hpeer, hcontact⟩
    · exact Or.inl hepoch
    · exact Or.inr ⟨hpeer, hcontact.succ⟩
  · intro hleads
    rw [hleader] at hleads
    rw [hctx]
    exact h.lease hleads

theorem Inv.step (h : run.Inv n) : run.Inv (n + 1) := by
  obtain ⟨⟨label, time⟩, hlabel⟩ : ∃ l, run.label n = l := ⟨_, rfl⟩
  cases label with
  | own event env => exact h.own hlabel
  | member p event env => exact h.member hlabel
  | memberWatcher p utc =>
    obtain ⟨s₁, hact, heq⟩ := Option.map_eq_some_iff.mp (run.next n)
    have hok := run.truthful n
    rw [hlabel] at hact heq hok
    obtain ⟨ctx, _, rfl⟩ := Option.map_eq_some_iff.mp hact
    apply h.idle
    · exact heq ▸ hok.1
    all_goals rw [← heq]
  | pass =>
    obtain ⟨s₁, hact, heq⟩ := Option.map_eq_some_iff.mp (run.next n)
    have hok := run.truthful n
    rw [hlabel] at hact heq hok
    cases Option.some.inj hact
    apply h.idle
    · exact heq ▸ hok.1
    all_goals rw [← heq]

variable (run) in
theorem inv (n : Nat) : run.Inv n := by
  induction n with
  | zero => exact Inv.start
  | succ n ih => exact ih.step

/-! ## The anchor -/

/-- A contact that the leader has after it records a response is at the epoch, or one. -/
theorem Inv.contact_record (h : run.Inv n) {l : Leader} (hl : (run.state n).leader = some l)
    {response : AcceptResponse} (hmem : response ∈ (run.state n).responses response.memberId)
    (hexplained : response.Explained) {p : Uuid} {t : DateTime}
    (ht : (l.recordContact response).lastContact.get? p = some t) :
    t = DateTime.unixEpoch ∨ p ∈ (run.state n).ctx.peerIds ∧ run.Contact n p t := by
  rcases l.recordContact_get? response ht with hold | ⟨rfl, rfl⟩
  · exact h.contacts l hl p t hold
  · exact Or.inr (h.replied _ response hmem hexplained)

/-- **A renewal is anchored at a quorum.**  When a response raises the leader's lease to
`e`, all but one of a quorum of members have handled requests of this leader, and from
there each answers until `e` that its lease is not over. -/
theorem renewal_anchored (run : Run) {n : Nat} {response : AcceptResponse} {env : Env}
    {time : DateTime} (hlabel : run.label n = (.own (.acceptResponseReceived response) env, time))
    {e : DateTime} (he : (run.state (n + 1)).ctx.leaseExpiry = some e)
    (hraise : ∀ x, (run.state n).ctx.leaseExpiry = some x → x < e) :
    ∃ Q : List Uuid, Q.Nodup ∧
      (∀ p ∈ Q, p ∈ (run.state n).ctx.peerIds ∧ run.Anchors n e p) ∧
      (run.state n).ctx.getQuorumSize - 1 ≤ Q.length := by
  have hinv := run.inv n
  obtain ⟨l, hleader, harrived, hnext⟩ := own_next hlabel
  rw [hnext] at he
  obtain ⟨hmem, hexplained, tQuorum, hquorum, heq⟩ := raised_of_own harrived he hraise
  -- the lease before is a lease length past the epoch, so no contact at the epoch counts
  have hepoch : DateTime.unixEpoch < tQuorum := by
    obtain ⟨x, hx, hle⟩ := hinv.lease (by rw [hleader]; exact Option.some_ne_none l)
    have hlt : DateTime.unixEpoch + PaxosSharedContext.leaseLength <
        tQuorum + PaxosSharedContext.leaseLength := heq ▸ lt_of_le_of_lt hle (hraise x hx)
    exact Int.lt_of_add_lt_add_right hlt
  obtain ⟨Q, hnodup, hlength, hQ⟩ := (l.recordContact response).lastContact.exists_keys_of_countP
    fun t => decide (tQuorum ≤ t)
  have hcount := Quorum.lt_countP_of_getElem? hquorum
  refine ⟨Q, hnodup, ?_, ?_⟩
  · intro p hp
    obtain ⟨_, t, ht, hle⟩ := hQ p hp
    have hle := of_decide_eq_true hle
    rcases hinv.contact_record hleader hmem hexplained ht with rfl | ⟨hpeer, hcontact⟩
    · exact absurd hepoch (not_lt_of_ge hle)
    · have hanchored : e ≤ t + PaxosSharedContext.leaseLength := by
        rw [heq]
        exact Int.add_le_add_right hle _
      exact ⟨hpeer, hcontact.anchors hanchored⟩
  · omega

end Run

/-! ## A renewal in a group of three -/

/-- Member 1 began its campaign a hundred seconds after the epoch, and wins with the
Promise of member 2. -/
def won : Outcome :=
  let ctx := { PaxosSharedContext.memberOfThree 1 with term := 1 }
  (PaxosState.candidate ((Candidate.new (.memberOfThree 1)).dispatchVote ctx
    (.steady (Duration.seconds 100))).state).processEvent
      (.voteResponseReceived ⟨2, 0, .promise ⟨0, 0, []⟩⟩) ctx false
      (.steady (Duration.seconds 101))

def elected : Rule where
  time := Duration.seconds 101
  leader := leaderOf won.result
  ctx := won.ctx
  role _ := .follower (Follower.new (some 1))
  memberCtx p := { PaxosSharedContext.memberOfThree p with
    term := 1
    leaseExpiry := some (Duration.seconds 110) }
  requests p := Tenure.sentTo p won.effects
  responses _ := []

/-- Member 2 handles the first request, and member 1 its answer; then the time passes. -/
def renewal : Nat → Label × DateTime
  | 0 => (.member 2 (.acceptRequestReceived ⟨⟨1, 1, 0, 0, [], 0,
      Duration.seconds 101 - TrueTime.uncertainty, none⟩, ⟨2, true⟩⟩)
      (.steady (Duration.seconds 102)), Duration.seconds 102)
  | 1 => (.own (.acceptResponseReceived ⟨2, 1, true, 0, none,
      Duration.seconds 101 - TrueTime.uncertainty⟩) (.steady (Duration.seconds 103)),
      Duration.seconds 103)
  | _ => (.pass, Duration.seconds 103)

def renewing : Nat → Rule
  | 0 => elected
  | 1 => (elected.step (renewal 0)).getD elected
  | _ => (exec step elected [renewal 0, renewal 1]).getD elected

theorem elected_start : elected.Start :=
  ⟨_, _, _, _, ⟨_, rfl, rfl⟩, rfl, fun _ => ⟨rfl, rfl⟩,
    fun _ => ⟨Duration.seconds 101, le_refl _, TrueTime.reads_self _⟩,
    fun _ h => Option.some.inj h ▸ by decide⟩

theorem renewing_truthful (n : Nat) : (renewing n).Truthful (renewal n) := by
  match n with
  | 0 =>
    refine ⟨by decide, ?_⟩
    rintro _ ⟨_, rfl⟩
    exact ⟨Duration.seconds 102, by decide, le_refl _, TrueTime.reads_self _⟩
  | 1 =>
    refine ⟨by decide, ?_⟩
    rintro _ ⟨_, rfl⟩
    exact ⟨Duration.seconds 103, by decide, le_refl _, TrueTime.reads_self _⟩
  | n + 2 => exact ⟨le_refl (Duration.seconds 103), fun _ => False.elim⟩

theorem renewing_next : ∀ n, (renewing n).step (renewal n) = some (renewing (n + 1))
  | 0 => rfl
  | 1 => rfl
  | _ + 2 => rfl

/-- The second step renews the lease by a second, and member 2 anchors it. -/
theorem renewal_anchored_elected :
    ∃ run : Run, (run.state 1).ctx.leaseExpiry =
        some (Duration.seconds 110 - TrueTime.uncertainty) ∧
      (run.state 2).ctx.leaseExpiry = some (Duration.seconds 111 - TrueTime.uncertainty) ∧
      ∃ Q : List Uuid, Q.Nodup ∧ (∀ p ∈ Q, p ∈ (run.state 1).ctx.peerIds ∧
        run.Anchors 1 (Duration.seconds 111 - TrueTime.uncertainty) p) ∧
        (run.state 1).ctx.getQuorumSize - 1 ≤ Q.length := by
  refine ⟨⟨renewing, renewal, elected_start, renewing_truthful, renewing_next⟩, rfl, rfl, ?_⟩
  refine Run.renewal_anchored _ rfl rfl ?_
  intro x hx
  cases Option.some.inj hx
  decide

end Rule
end SpannerPaxos
