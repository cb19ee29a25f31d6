import SpannerPaxos.Lease

/-! # Lease disjointness

The leader's lease runs a lease length from contacts of a quorum, or from before
its election, and so ends before theirs.  But the leader asks whether its lease is
certainly over, not whether it may be: the check goes on saying no for as long as
its clock is behind.
-/
namespace SpannerPaxos
namespace Leased

/-! ## The campaigner's side -/

/-- What a step of the campaigner's own does. -/
structure OwnMove (s s' : Leased) (event : PaxosEvent) (env : Env) : Prop where
  time : s.time ≤ s'.time
  readings : ∀ i, ∃ t, t ≤ s'.time ∧ TrueTime.Reads (env.clock i) t
  arrived : s.Arrived event
  result : (s.role.handleEvent event s.ctx env).result = .ok s'.role
  running : ∀ f, s'.role ≠ .follower f
  ctx : s'.ctx = (s.role.handleEvent event s.ctx env).ctx
  requests : ∀ p, s'.requests p =
    s.requests p ++ Tenure.sentTo p (s.role.handleEvent event s.ctx env).effects
  followerCtx : s'.followerCtx = s.followerCtx
  votes : s'.votes = s.votes
  responses : s'.responses = s.responses

section
variable {s s' : Leased} {event : PaxosEvent} {env : Env}

theorem OwnMove.peerIds (h : OwnMove s s' event env) : s'.ctx.peerIds = s.ctx.peerIds := by
  rw [h.ctx]
  exact PaxosState.peerIds_of_handleEvent h.result

theorem OwnMove.carry (h : OwnMove s s' event env) {p : Uuid} {e : DateTime}
    (hc : Covered s.time (s.followerCtx p) e) : Covered s'.time (s'.followerCtx p) e := by
  rw [h.followerCtx]
  exact hc.move h.time (.keeps rfl)

/-- A reading is not later than the true time, on its early side. -/
theorem OwnMove.earliest_le (h : OwnMove s s' event env) (i : Nat) :
    (TrueTime.now (env.clock i)).earliest ≤ s'.time := by
  obtain ⟨t, hle, hread⟩ := h.readings i
  exact le_trans hread.1 hle

/-- The campaigner is a Candidate until it is a Leader. -/
theorem OwnMove.stays_running (h : OwnMove s s' event env) (hs : s.Inv) :
    (∃ c, s'.role = .candidate c) ∨ ∃ l, s'.role = .leader l := by
  have hresult := h.result
  have hrunning := h.running
  cases hrole : s'.role with
  | follower f => exact absurd hrole (hrunning f)
  | candidate c => exact Or.inl ⟨c, rfl⟩
  | leader l => exact Or.inr ⟨l, rfl⟩
  | preCandidate p =>
    rw [hrole] at hresult
    rcases hs.running with ⟨c, hc⟩ | ⟨l, hl⟩
    · rw [hc] at hresult
      cases Candidate.handleEvent_next hresult
    · rw [hl] at hresult
      cases Leader.handleEvent_next hresult

/-- A Candidate counts Promises that cover their senders. -/
theorem Inv.board_record (hs : s.Inv) {c c' : Candidate} (hc : s.role = .candidate c)
    {response : VoteResponse} (harrived : response ∈ s.votes response.memberId)
    (hrecord : c.recordVote response s.ctx = some c') {dispatchTime : DateTime}
    (hdispatch : c.voteDispatchTime = some dispatchTime) :
    c'.Board s.ctx fun p => Covered s.time (s.followerCtx p)
      (dispatchTime + PaxosSharedContext.leaseLength) := by
  obtain ⟨dispatchTime', hdispatch', _, _, hboard, hvotes⟩ := hs.candidate c hc
  cases Option.some.inj (hdispatch'.symm.trans hdispatch)
  exact hboard.record (hs.voted _ response harrived).1 hrecord (hvotes _ response harrived)

/-- **A lease that is won covers a quorum**: the voters answered after the dispatch. -/
theorem Inv.lease_won (hs : s.Inv) (h : OwnMove s s' event env) {c : Candidate} {l : Leader}
    (hc : s.role = .candidate c) (hl : s'.role = .leader l) {expiry : DateTime}
    (hexpiry : s'.ctx.leaseExpiry = some expiry) : s'.QuorumCovered expiry := by
  have hresult := h.result
  rw [hc, hl] at hresult
  obtain ⟨response, c', dispatchTime, hevent, hrecord, hquorum, hdispatch, hlease, _⟩ :=
    Candidate.lease_of_win hresult
  rw [h.ctx, hc] at hexpiry
  cases Option.some.inj (hexpiry.symm.trans hlease)
  subst hevent
  rw [(Candidate.recordVote_keeps hrecord).1] at hdispatch
  have hcovered : s.QuorumCovered (dispatchTime + PaxosSharedContext.leaseLength) :=
    (hs.board_record hc h.arrived hrecord hdispatch).quorum hquorum
  exact hcovered.carry h.peerIds fun p => h.carry

/-- A quorum of the contacts is covered as long as its weakest. -/
theorem quorumCovered_of_contacts {l : Leader} {tQuorum : DateTime}
    (hcontacts : ∀ p t, l.lastContact.get? p = some t → p ∈ s.ctx.peerIds ∧
      Covered s.time (s.followerCtx p) (t + PaxosSharedContext.leaseLength))
    (h : l.contactTimes[s.ctx.getQuorumSize - 2]? = some tQuorum) :
    s.QuorumCovered (tQuorum + PaxosSharedContext.leaseLength) := by
  obtain ⟨Q, hnodup, hlength, hQ⟩ :=
    l.lastContact.exists_keys_of_countP fun t => decide (tQuorum ≤ t)
  have hcount := Quorum.lt_countP_of_getElem? h
  refine ⟨Q, hnodup, ?_, by omega⟩
  intro p hp
  obtain ⟨_, t, ht, hle⟩ := hQ p hp
  obtain ⟨hpeer, hcovered⟩ := hcontacts p t ht
  exact ⟨hpeer, hcovered.mono (Int.add_le_add_right (of_decide_eq_true hle) _)⟩

/-- Recording a response that has arrived keeps every contact covering its follower. -/
theorem Inv.contacts_record (hs : s.Inv) {l : Leader} (hl : s.role = .leader l)
    {response : AcceptResponse} (harrived : response ∈ s.responses response.memberId)
    (hexplained : response.Explained) {p : Uuid} {t : DateTime}
    (ht : (l.recordContact response).lastContact.get? p = some t) :
    p ∈ s.ctx.peerIds ∧
      Covered s.time (s.followerCtx p) (t + PaxosSharedContext.leaseLength) := by
  rcases l.recordContact_get? response ht with hold | ⟨rfl, rfl⟩
  · exact hs.contacts l hl p t hold
  · obtain ⟨hpeer, _, hcovered⟩ := hs.replied _ response harrived
    exact ⟨hpeer, hcovered hexplained⟩

/-- A request is stamped with a reading made before it is sent. -/
theorem Inv.sent_own (hs : s.Inv) (h : OwnMove s s' event env) {p : Uuid}
    {request : AcceptRequest} (hmem : request ∈ s'.requests p) : request.tSend ≤ s'.time := by
  rw [h.requests, List.mem_append, Tenure.mem_sentTo] at hmem
  rcases hmem with hold | hnew
  · exact le_trans (hs.sent p request hold) h.time
  · have hstamp : ∃ i, request.tSend = (TrueTime.now (env.clock i)).earliest := by
      rcases hs.running with ⟨c, hc⟩ | ⟨l, hl⟩
      · rw [hc] at hnew
        exact Candidate.tSend_of_handleEvent hnew
      · rw [hl] at hnew
        exact Leader.tSend_of_handleEvent hnew
    obtain ⟨i, hi⟩ := hstamp
    rw [hi]
    exact h.earliest_le i

/-- A member that is a Candidate after a step was one before it. -/
theorem Inv.candidate_before (hs : s.Inv) (h : OwnMove s s' event env) {c' : Candidate}
    (hc' : s'.role = .candidate c') : ∃ c, s.role = .candidate c ∧
      (c' = c ∨ ∃ response, event = .voteResponseReceived response ∧
        c.recordVote response s.ctx = some c') := by
  have hresult := h.result
  rw [hc'] at hresult
  rcases PaxosState.candidate_of_handleEvent hresult with
    ⟨p, response, hrole, _⟩ | ⟨c, hc, _, hcause⟩
  · rcases hs.running with ⟨c, hc⟩ | ⟨l, hl⟩
    · cases hrole.symm.trans hc
    · cases hrole.symm.trans hl
  · exact ⟨c, hc, hcause⟩

/-- Whose Promise a Candidate holds is covered from the dispatch on. -/
theorem Inv.candidate_own (hs : s.Inv) (h : OwnMove s s' event env) {c' : Candidate}
    (hc' : s'.role = .candidate c') : ∃ dispatchTime,
    c'.voteDispatchTime = some dispatchTime ∧ dispatchTime ≤ s'.time ∧
    c'.scoreBoard.keys = s'.ctx.peerIds ∧
    (c'.Board s'.ctx fun p => Covered s'.time (s'.followerCtx p)
      (dispatchTime + PaxosSharedContext.leaseLength)) ∧
    ∀ p response, response ∈ s'.votes p → response.outcome.isPromise = true →
      Covered s'.time (s'.followerCtx p) (dispatchTime + PaxosSharedContext.leaseLength) := by
  obtain ⟨c, hc, hcause⟩ := hs.candidate_before h hc'
  obtain ⟨dispatchTime, hdispatch, hle, hkeys, hboard, hvotes⟩ := hs.candidate c hc
  have hnew : c'.voteDispatchTime = some dispatchTime ∧ c'.scoreBoard.keys = s.ctx.peerIds ∧
      c'.Board s.ctx fun p => Covered s.time (s.followerCtx p)
        (dispatchTime + PaxosSharedContext.leaseLength) := by
    rcases hcause with rfl | ⟨response, rfl, hrecord⟩
    · exact ⟨hdispatch, hkeys, hboard⟩
    · obtain ⟨hkept, hkeys'⟩ := Candidate.recordVote_keeps hrecord
      exact ⟨hkept.trans hdispatch, hkeys'.trans hkeys,
        hs.board_record hc h.arrived hrecord hdispatch⟩
  obtain ⟨hdispatch', hkeys', hboard'⟩ := hnew
  have hb := hboard'.mono fun p => h.carry (p := p)
  refine ⟨dispatchTime, hdispatch', le_trans hle h.time, h.peerIds ▸ hkeys', ?_, ?_⟩
  · exact ⟨h.peerIds ▸ hb.keys, hb.promised⟩
  · intro p response hmem hpromise
    exact h.carry (hvotes p response (h.votes ▸ hmem) hpromise)

/-- A Leader's contacts cover their followers: a new Leader has none, and only an
accept response adds one. -/
theorem Inv.contacts_own (hs : s.Inv) (h : OwnMove s s' event env) {l' : Leader}
    (hl' : s'.role = .leader l') {p : Uuid} {t : DateTime}
    (ht : l'.lastContact.get? p = some t) : p ∈ s'.ctx.peerIds ∧
      Covered s'.time (s'.followerCtx p) (t + PaxosSharedContext.leaseLength) := by
  have hresult := h.result
  rw [hl'] at hresult
  rw [h.peerIds]
  rcases hs.running with ⟨c, hc⟩ | ⟨l, hl⟩
  · rw [hc] at hresult
    obtain ⟨response, c', _, _, hrecord, _, _, _, hkeys, hepoch⟩ :=
      Candidate.lease_of_win hresult
    obtain ⟨_, _, _, hpeers, _⟩ := hs.candidate c hc
    refine ⟨?_, Or.inl ?_⟩
    · rw [← hpeers, ← (Candidate.recordVote_keeps hrecord).2, ← hkeys]
      exact AssocMap.mem_keys_iff.mpr ⟨t, ht⟩
    · rw [hepoch p t ht]
  · rw [hl] at hresult
    have hcontact : p ∈ s.ctx.peerIds ∧
        Covered s.time (s.followerCtx p) (t + PaxosSharedContext.leaseLength) := by
      rcases Leader.lease_of_handleEvent hresult with
        ⟨_, hsame⟩ | ⟨response, hevent, hexplained, hsame, _⟩
      · exact hs.contacts l hl p t (hsame ▸ ht)
      · have harrived := h.arrived
        rw [hevent] at harrived
        exact hs.contacts_record hl harrived hexplained (hsame ▸ ht)
    exact ⟨hcontact.1, h.carry hcontact.2⟩

/-- **A Leader's lease covers a quorum**: it was won, kept, or renewed from the
contacts of one. -/
theorem Inv.lease_own (hs : s.Inv) (h : OwnMove s s' event env) {l' : Leader}
    (hl' : s'.role = .leader l') {expiry : DateTime}
    (hexpiry : s'.ctx.leaseExpiry = some expiry) : s'.QuorumCovered expiry := by
  rcases hs.running with ⟨c, hc⟩ | ⟨l, hl⟩
  · exact hs.lease_won h hc hl' hexpiry
  · have hresult := h.result
    rw [hl', hl] at hresult
    rw [h.ctx, hl] at hexpiry
    have hkept : s.ctx.leaseExpiry = some expiry → s'.QuorumCovered expiry :=
      fun hold => (hs.lease l hl expiry hold).carry h.peerIds fun p => h.carry
    rcases Leader.lease_of_handleEvent hresult with
      ⟨hsame, _⟩ | ⟨response, hevent, hexplained, _, hsame | hrenewed⟩
    · exact hkept (hsame ▸ hexpiry)
    · exact hkept (hsame ▸ hexpiry)
    · have hexpiry' : ((l.recordContact response).renewLease s.ctx).leaseExpiry =
          some expiry := hrenewed ▸ hexpiry
      rcases (l.recordContact response).renewLease_leaseExpiry s.ctx with
        hsame | ⟨tQuorum, hquorum, hset⟩
      · exact hkept (hsame ▸ hexpiry')
      · cases Option.some.inj (hexpiry'.symm.trans hset)
        have harrived := h.arrived
        rw [hevent] at harrived
        have hcovered := quorumCovered_of_contacts
          (fun p t ht => hs.contacts_record hl harrived hexplained ht) hquorum
        exact hcovered.carry h.peerIds fun p => h.carry

/-- **The invariant survives the campaigner's own steps.** -/
theorem Inv.ownMove (hs : s.Inv) (event : PaxosEvent) (env : Env) (h : OwnMove s s' event env) :
    s'.Inv where
  ids := by
    rw [h.followerCtx]
    exact hs.ids
  sent _ _ hmem := hs.sent_own h hmem
  voted p response hmem := by
    rw [h.peerIds]
    exact hs.voted p response (h.votes ▸ hmem)
  replied p response hmem := by
    rw [h.peerIds]
    obtain ⟨hpeer, hid, hcovered⟩ := hs.replied p response (h.responses ▸ hmem)
    exact ⟨hpeer, hid, fun hexplained => h.carry (hcovered hexplained)⟩
  running := h.stays_running hs
  candidate _ hc' := hs.candidate_own h hc'
  contacts _ hl' _ _ ht := hs.contacts_own h hl' ht
  lease _ hl' _ hexpiry := hs.lease_own h hl' hexpiry

end
/-! ## Every step -/

/-- The answers to the campaigner's vote request. -/
theorem mem_ballots {s : Leased} {event : PaxosEvent} {effects : List Effect}
    {response : VoteResponse} (h : response ∈ s.ballots event effects) :
    ∃ command tx, event = .voteRequestReceived command ∧ .voteReply tx response ∈ effects := by
  unfold ballots at h
  split at h
  · rename_i command
    split at h
    · obtain ⟨e, he, hr⟩ := List.mem_filterMap.mp h
      cases e with
      | voteReply tx r =>
        cases Option.some.inj hr
        exact ⟨command, tx, rfl, he⟩
      | _ => cases hr
    · cases h
  · cases h

theorem mem_echoes {s : Leased} {p : Uuid} {event : PaxosEvent} {effects : List Effect}
    {response : AcceptResponse} (h : response ∈ s.echoes p event effects) :
    ∃ command tx, event = .acceptRequestReceived command ∧ command.request ∈ s.requests p ∧
      .acceptReply tx response ∈ effects := by
  unfold echoes at h
  split at h
  · rename_i command
    split at h
    · rename_i hrequest
      obtain ⟨tx, heffect⟩ := Tenure.mem_replied.mp h
      exact ⟨command, tx, rfl, hrequest, heffect⟩
    · cases h
  · cases h

theorem mem_update_append {α : Type} {f : Uuid → List α} {p q : Uuid} {new : List α} {a : α}
    (h : a ∈ Function.update f p (f p ++ new) q) : a ∈ f q ∨ q = p ∧ a ∈ new := by
  by_cases hq : q = p
  · subst hq
    rw [Function.update_self, List.mem_append] at h
    rcases h with hold | hnew
    · exact Or.inl hold
    · exact Or.inr ⟨rfl, hnew⟩
  · rw [Function.update_of_ne hq] at h
    exact Or.inl h

/-- Where one follower's lease moves, every follower's does. -/
theorem lease_updated {s : Leased} {p : Uuid} {ctx : PaxosSharedContext} {time : DateTime}
    (hmove : LeaseMove s.time time (s.followerCtx p) ctx)
    (hid : ctx.memberId = (s.followerCtx p).memberId) :
    (∀ q, LeaseMove s.time time (s.followerCtx q) (Function.update s.followerCtx p ctx q)) ∧
      ∀ q, (Function.update s.followerCtx p ctx q).memberId = (s.followerCtx q).memberId :=
  ⟨(Function.forall_update_iff s.followerCtx fun q new =>
      LeaseMove s.time time (s.followerCtx q) new).mpr ⟨hmove, fun _ _ => .keeps rfl⟩,
    (Function.forall_update_iff s.followerCtx fun q new =>
      new.memberId = (s.followerCtx q).memberId).mpr ⟨hid, fun _ _ => rfl⟩⟩

/-- **A follower's step moves its lease**, and answers with a contact only behind a
renewed one. -/
theorem membersMove_member {s : Leased} {p : Uuid} {event : PaxosEvent} {env : Env} {f : Follower}
    {time : DateTime} (hpeer : p ∈ s.ctx.peerIds)
    (hresult : ((s.follower p).handleEvent event (s.followerCtx p) env).result =
      .ok (.follower f)) (hok : s.Truthful (.member p event env, time)) :
    let o := (s.follower p).handleEvent event (s.followerCtx p) env
    MembersMove s { s with
      time := time
      follower := Function.update s.follower p f
      followerCtx := Function.update s.followerCtx p o.ctx
      votes := Function.update s.votes p (s.votes p ++ s.ballots event o.effects)
      responses :=
        Function.update s.responses p (s.responses p ++ s.echoes p event o.effects) } := by
  have hreading : ∀ i, (Label.member p event env).Reading (env.clock i) := fun i => ⟨i, rfl⟩
  have hrenewed : ∀ ctx : PaxosSharedContext, ctx.Extended env → Renewed s.time ctx :=
    fun ctx hext => .of_extended hext hok hreading
  have hstate : ((PaxosState.follower (s.follower p)).handleEvent event (s.followerCtx p)
      env).result = _ := hresult
  have hlease : LeaseMove s.time time (s.followerCtx p)
      ((s.follower p).handleEvent event (s.followerCtx p) env).ctx := by
    rcases Follower.lease_of_handleEvent event with hsame | hext
    · exact .keeps hsame
    · obtain ⟨x, hx, hle⟩ := hrenewed _ hext
      exact .renews x hx hle
  have hid : ((s.follower p).handleEvent event (s.followerCtx p) env).ctx.memberId =
      (s.followerCtx p).memberId := by
    rcases PaxosState.sameMember_of_handleEvent hstate with hsame | hctx
    · exact hsame.memberId
    · exact (congrArg PaxosSharedContext.memberId hctx).trans rfl
  obtain ⟨hmoves, hids⟩ := lease_updated hlease hid
  refine ⟨hok.1, rfl, rfl, fun _ => id, rfl, hmoves, hids, ?_, ?_⟩
  · intro q response hmem
    rcases mem_update_append hmem with hold | ⟨rfl, hnew⟩
    · exact Or.inl hold
    · obtain ⟨command, tx, rfl, heffect⟩ := mem_ballots hnew
      cases Outcome.eq_of_mem_reply heffect
      obtain ⟨hid, hlease⟩ := (s.follower q).handleVoteRequest_lease command.request
        (s.followerCtx q) env
      refine Or.inr ⟨hpeer, hid, ?_⟩
      intro hpromise
      show Renewed _ (Function.update s.followerCtx q _ q)
      rw [Function.update_self, Follower.handleEvent, Outcome.reply_ctx]
      rcases hlease with ⟨hno, _⟩ | hext
      · exact absurd (hno.symm.trans hpromise) Bool.false_ne_true
      · exact hrenewed _ hext
  · intro q response hmem
    rcases mem_update_append hmem with hold | ⟨rfl, hnew⟩
    · exact Or.inl hold
    · obtain ⟨command, tx, rfl, hrequest, heffect⟩ := mem_echoes hnew
      cases Outcome.eq_of_mem_reply heffect
      obtain ⟨hid, hecho, hlease⟩ := (s.follower q).handleAcceptRequest_lease command.request
        (s.followerCtx q) env
      refine Or.inr ⟨hpeer, hid, ⟨command.request, hrequest, hecho⟩, ?_⟩
      intro hexplained
      show Renewed _ (Function.update s.followerCtx q _ q)
      rw [Function.update_self, Follower.handleEvent, Outcome.reply_ctx]
      rcases hlease with ⟨hno, _⟩ | hext
      · exact absurd hexplained hno
      · exact hrenewed _ hext

/-- A step in which only one follower's context changes, and no answer is given. -/
theorem membersMove_quiet {s : Leased} {p : Uuid} {ctx : PaxosSharedContext} {time : DateTime}
    {follower : Uuid → Follower} (htime : s.time ≤ time)
    (hmove : LeaseMove s.time time (s.followerCtx p) ctx)
    (hid : ctx.memberId = (s.followerCtx p).memberId) :
    MembersMove s { s with
      time := time
      follower := follower
      followerCtx := Function.update s.followerCtx p ctx } := by
  obtain ⟨hmoves, hids⟩ := lease_updated hmove hid
  exact ⟨htime, rfl, rfl, fun _ => id, rfl, hmoves, hids, fun _ _ => Or.inl, fun _ _ => Or.inl⟩

theorem Inv.step {s s' : Leased} {l : Label × DateTime} (hs : s.Inv) (hok : s.Truthful l)
    (h : s.step l = some s') : s'.Inv := by
  obtain ⟨label, time⟩ := l
  obtain ⟨s₁, hact, rfl⟩ := Option.map_eq_some_iff.mp h
  cases label with
  | own event env =>
    simp only [act] at hact
    split at hact
    · rename_i harrived
      split at hact
      · cases hact
      · rename_i role hrunning hresult
        cases Option.some.inj hact
        have heq := PaxosState.processEvent_of_not_follower hresult fun f hf => hrunning f hf
        refine hs.ownMove event env ⟨hok.1, ?_, harrived, ?_, ?_, ?_, ?_,
          rfl, rfl, rfl⟩
        · intro i
          obtain ⟨t, _, hle, hread⟩ := hok.2 _ ⟨i, rfl⟩
          exact ⟨t, hle, hread⟩
        · rw [← heq]
          exact hresult
        · exact fun f hf => hrunning f hf
        · rw [← heq]
        · intro p
          rw [← heq]
      · cases hact
    · cases hact
  | ownWatcher utc =>
    simp only [act] at hact
    obtain ⟨ctx, hctx, rfl⟩ := Option.map_eq_some_iff.mp hact
    obtain ⟨rfl, _⟩ := PaxosSharedContext.watchLease_cleared hctx
    refine hs.membersMove ⟨hok.1, rfl, rfl, ?_, rfl, fun _ => .keeps rfl, fun _ => rfl,
      fun _ _ => Or.inl, fun _ _ => Or.inl⟩
    intro expiry hexpiry
    cases hexpiry
  | member p event env =>
    simp only [act] at hact
    split at hact
    · rename_i hpeer
      split at hact
      · rename_i f hresult
        cases Option.some.inj hact
        exact hs.membersMove (membersMove_member hpeer hresult hok)
      · cases hact
    · cases hact
  | memberWatcher p utc =>
    simp only [act] at hact
    obtain ⟨ctx, hctx, rfl⟩ := Option.map_eq_some_iff.mp hact
    obtain ⟨rfl, hpast⟩ := PaxosSharedContext.watchLease_cleared hctx
    refine hs.membersMove (membersMove_quiet hok.1 (.clears ?_) rfl)
    intro x hx
    obtain ⟨t, _, hle, hread⟩ := hok.2 utc rfl
    exact lt_of_lt_of_le (TrueTime.lt_of_after hread (hpast x hx)) hle
  | adopt p term =>
    simp only [act] at hact
    split at hact
    · cases Option.some.inj hact
      exact hs.membersMove (membersMove_quiet hok.1 (.keeps rfl) rfl)
    · cases hact
  | pass =>
    cases Option.some.inj hact
    exact hs.membersMove ⟨hok.1, rfl, rfl, fun _ => id, rfl, fun _ => .keeps rfl, fun _ => rfl,
      fun _ _ => Or.inl, fun _ _ => Or.inl⟩

theorem Start.inv {s : Leased} (h : s.Start) : s.Inv := by
  obtain ⟨ctx, env, t, hread, ht, hctx, hrole⟩ := h.campaign
  have hpeers : s.ctx.peerIds = ctx.peerIds := by rw [hctx]
  have hno : ∀ {α : Type} {l : List α} {a : α}, l = [] → a ∈ l → False := by
    intro α l a hl ha
    rw [hl] at ha
    cases ha
  refine ⟨h.ids, ?_, ?_, ?_, Or.inl ⟨_, hrole⟩, ?_, ?_, ?_⟩
  · exact fun p _ hmem => (hno (h.silent p).2.1 hmem).elim
  · exact fun p _ hmem => (hno (h.silent p).1 hmem).elim
  · exact fun p _ hmem => (hno (h.silent p).2.2 hmem).elim
  · intro c hc
    cases hrole.symm.trans hc
    obtain ⟨hdispatch, hboard⟩ := (Candidate.new ctx).dispatchVote_state s.ctx env
    refine ⟨_, hdispatch, le_trans hread.1 ht, ?_, .dispatched ctx s.ctx env _ hpeers, ?_⟩
    · rw [hboard, hpeers]
      exact AssocMap.keys_ofKeys ctx.peerIds ctx.peerIds_nodup _
    · exact fun p _ hmem => (hno (h.silent p).1 hmem).elim
  · intro l hl
    cases hrole.symm.trans hl
  · intro l hl
    cases hrole.symm.trans hl

/-- **Lease disjointness**, as long as the leader's lease is not over in true time. -/
theorem leaseDisjoint_of_beforeExpiry {s t : Leased} (h : s.Start)
    (hrun : Runs step Truthful s t) (hbefore : t.BeforeExpiry) : t.LeaseDisjoint := by
  have hinv : t.Inv := hrun.invariant h.inv fun _ _ _ ha hok hstep => ha.step hok hstep
  intro readings hreads hleader hcheck
  obtain ⟨expiry, hexpiry, _⟩ := (t.ctx.isLeaderLeaseExpired_eq_false_iff).mp hcheck
  obtain ⟨Q, hnodup, hQ, hlength⟩ : t.QuorumCovered expiry := by
    cases hrole : t.role with
    | leader l => exact hinv.lease l hrole expiry hexpiry
    | follower f | preCandidate f | candidate f =>
      rw [hrole] at hleader
      cases hleader
  have hleaderCtx : t.memberCtx t.ctx.memberId = t.ctx := if_pos rfl
  -- neither the leader's nor a covered follower's check says that its lease is over
  have hvalid : ∀ p ∈ Q, (t.memberCtx p).isLeaderLeaseExpired (readings p) = false := by
    intro p hp
    by_cases hself : p = t.ctx.memberId
    · rw [hself, hleaderCtx]
      exact hcheck
    · rw [memberCtx, if_neg hself]
      exact (hQ p hp).2.not_expired hbefore.1 (hbefore.2 expiry hexpiry) (hreads p)
  have hcount := Quorum.length_filter_add_le
    (p := fun p => (t.memberCtx p).isLeaderLeaseExpired (readings p)) hnodup
    (fun p hp => (hQ p hp).1) hvalid
  have hexpired : t.expiredMembers readings = t.ctx.peerIds.filter fun p =>
      (t.memberCtx p).isLeaderLeaseExpired (readings p) := by
    rw [expiredMembers, List.filter_cons, hleaderCtx, hcheck]
    rfl
  rw [hexpired]
  unfold PaxosSharedContext.getQuorumSize at hlength ⊢
  omega

/-! ## A slow clock at the leader -/

/-- Member 1 of a group of three campaigns in term 1, a hundred seconds after the
epoch; its clock is as fast as it may be. -/
def electing : Leased where
  time := Duration.seconds 100
  role := .candidate ((Candidate.new (.memberOfThree 1)).dispatchVote
    { PaxosSharedContext.memberOfThree 1 with term := 1 }
    (.steady (Duration.seconds 100 + TrueTime.uncertainty))).state
  ctx := { PaxosSharedContext.memberOfThree 1 with term := 1 }
  voteRequest := ⟨1, 1, 0, 0⟩
  follower _ := Follower.new none
  followerCtx p := PaxosSharedContext.memberOfThree p
  votes _ := []
  requests _ := []
  responses _ := []

theorem electing_start : electing.Start where
  campaign := ⟨.memberOfThree 1, .steady (Duration.seconds 100 + TrueTime.uncertainty),
    Duration.seconds 100, ⟨by decide, by decide⟩, le_refl _, rfl, rfl⟩
  voteRequest := rfl
  silent _ := ⟨rfl, rfl, rfl⟩
  ids _ := rfl

/-- Member 2 votes; its clock is as slow as it may be. -/
def vote : Label × DateTime :=
  (.member 2 (.voteRequestReceived ⟨electing.voteRequest, ⟨1, true⟩⟩)
    (.steady (Duration.seconds 100 - TrueTime.uncertainty)), Duration.seconds 100)

/-- Its Promise makes member 1 the leader. -/
def win : Label × DateTime :=
  (.own (.voteResponseReceived ⟨2, 0, .promise ⟨0, 0, []⟩⟩) (.steady (Duration.seconds 100)),
    Duration.seconds 100)

/-- Member 1 after its election. -/
def elected : Leased := (exec step electing [vote, win]).getD electing

theorem electing_runs_elected : Runs step Truthful electing elected := by
  refine .head vote ⟨le_refl _, ?_⟩ rfl (.head win ⟨le_refl _, ?_⟩ rfl (.refl _))
  · rintro utc ⟨i, rfl⟩
    have hread : TrueTime.Reads (Duration.seconds 100 - TrueTime.uncertainty)
        (Duration.seconds 100) := ⟨by decide, by decide⟩
    exact ⟨Duration.seconds 100, le_refl _, le_refl _, hread⟩
  · rintro utc ⟨i, rfl⟩
    exact ⟨Duration.seconds 100, le_refl _, le_refl _, TrueTime.reads_self _⟩

/-- Five seconds into its lease the leader may rely on it. -/
theorem leaseDisjoint_of_beforeExpiry_elected :
    ∃ t, exec step electing [vote, win, (.pass, Duration.seconds 105)] = some t ∧
      t.role.isLeader = true ∧ t.ctx.leaseExpiry = some (Duration.seconds 110) ∧
      t.LeaseDisjoint := by
  refine ⟨{ elected with time := Duration.seconds 105 }, rfl, rfl, rfl, ?_⟩
  refine leaseDisjoint_of_beforeExpiry electing_start
    (electing_runs_elected.tail (.pass, Duration.seconds 105) ⟨by decide, fun _ => False.elim⟩ rfl)
    ⟨by decide, ?_⟩
  intro expiry hexpiry
  cases hexpiry
  decide

/-- A millisecond after its lease the leader's slow clock still answers that it is
not over, when the fast clocks of both followers say that theirs are. -/
theorem not_leaseDisjoint_slow :
    ¬ ∀ s t : Leased, s.Start → Runs step Truthful s t → t.LeaseDisjoint := by
  intro hall
  have hrun : Runs step Truthful electing _ := electing_runs_elected.tail
    (.pass, Duration.seconds 110 + Duration.milliseconds 1)
    ⟨by decide, fun _ => False.elim⟩ rfl
  have hcount := hall _ _ electing_start hrun
    (fun p => if p = 1 then Duration.seconds 110 - Duration.milliseconds 6
      else Duration.seconds 110 + Duration.milliseconds 8)
    (by
      intro p
      by_cases hp : p = 1
      · simp only [hp, if_true]
        exact ⟨by decide, by decide⟩
      · simp only [hp, if_false]
        exact ⟨by decide, by decide⟩) rfl (by decide)
  revert hcount
  decide

end Leased
end SpannerPaxos
