import SpannerPaxos.FollowerLogs

/-! # Pursuing a follower

In a tenure whose messages arrive in order the leader can bring any follower that follows it
to its own log.  The newest request is delivered, and the newest response, over and over:
that is the exchange of `Reconciliation`, with whatever was under way before passed over and
the other followers left alone, so it comes to a request that the follower writes.
-/
namespace SpannerPaxos

open ReplicatedLog
open Tenure (sentTo)

/-! ## What a rejection does -/

namespace Leader
variable {self : Leader} {ctx : PaxosSharedContext} {minNextTs : Option DateTime} {env : Env}

/-- A dispatch that sends a request has not failed, and has sent no other. -/
theorem dispatchAcceptRequestToFollower_of_sent {memberId q : Uuid} {request : AcceptRequest}
    (h : request ∈ sentTo q
      (self.dispatchAcceptRequestToFollower memberId ctx minNextTs env).effects) :
    (self.dispatchAcceptRequestToFollower memberId ctx minNextTs env).fault = none ∧
      (self.dispatchAcceptRequestToFollower memberId ctx minNextTs env).effects =
        [.dispatchAccept memberId request] := by
  unfold dispatchAcceptRequestToFollower at h ⊢
  cases hget : self.scoreBoard.get? memberId with
  | none =>
    rw [hget] at h
    cases h
  | some fs =>
    rw [hget] at h
    simp only at h ⊢
    cases hterm : prevLogTerm? ctx fs.prevLogSlot with
    | none =>
      rw [hterm] at h
      cases h
    | some prevLogTerm =>
      rw [hterm] at h
      simp only at h ⊢
      split at h
      · rename_i hreach
        rw [if_pos hreach]
        obtain heq := List.mem_singleton.mp (Tenure.mem_sentTo.mp h)
        exact ⟨rfl, by rw [(Effect.dispatchAccept.inj heq).2]⟩
      · cases h

/-- Nothing is matched and nobody is answered, and only the positions of these followers
have moved. -/
structure Spares (Q : List Uuid) (l l' : Leader) : Prop where
  matchSlot : ∀ q, l'.matchSlot? q = l.matchSlot? q
  inFlightWrites : l'.inFlightWrites = l.inFlightWrites
  board : ∀ q, q ∉ Q → l'.scoreBoard.get? q = l.scoreBoard.get? q

/-- **A rejection that is answered** with another request moves the positions of its sender
alone. -/
theorem handleAcceptResponse_of_sent {response : AcceptResponse} {q : Uuid}
    {request : AcceptRequest}
    (h : request ∈ sentTo q (self.handleAcceptResponse response ctx env).effects) :
    (self.handleAcceptResponse response ctx env).fault = none ∧
      (self.handleAcceptResponse response ctx env).effects =
        [.dispatchAccept response.memberId request] ∧
      Spares [response.memberId] self (self.handleAcceptResponse response ctx env).state.1 ∧
      (self.handleAcceptResponse response ctx env).state.2 =
        (self.recordContact response).renewLease ctx := by
  rcases self.handleAcceptResponse_cases response ctx env with
    ⟨_, heq⟩ | ⟨_, _, fault, heq⟩ |
      ⟨_, _, ⟨fault, heq⟩ | ⟨fs, _, _, _, heq⟩ | ⟨fs, hint, _, _, hget, heq⟩⟩
  · rw [heq] at h
    cases h
  · rw [heq] at h
    cases h
  · rw [heq] at h
    cases h
  · rw [heq, sentTo_advanceCommit] at h
    cases h
  · rw [heq] at h ⊢
    obtain ⟨hfault, heffects⟩ := dispatchAcceptRequestToFollower_of_sent h
    have hdispatch := dispatchAcceptRequestToFollower_spec
      ((self.recordContact response).setFollower response.memberId
        (backtrack ((self.recordContact response).renewLease ctx) hint fs))
      ((self.recordContact response).renewLease ctx) none env response.memberId
    refine ⟨hfault, heffects, ⟨fun q => ?_, hdispatch.1.inFlightWrites, fun q hq => ?_⟩, rfl⟩
    · rw [Attempt.map_state, hdispatch.1.matchSlot, matchSlot?_setFollower]
      split
      · rename_i hq
        rw [hq, matchSlot?, hget]
        rfl
      · rfl
    · have hne : q ≠ response.memberId := List.ne_of_not_mem_cons hq
      rw [Attempt.map_state, (dispatchAcceptRequestToFollower_other _ none _ env hne).1]
      show (self.scoreBoard.insert response.memberId _).get? q = _
      rw [AssocMap.get?_insert, if_neg hne]

end Leader

/-! ## Steps that are taken -/

namespace Tenure
variable {s : Tenure}

/-- The tenure after a method of the leader that did not fail. -/
def stay (s : Tenure) (a : Attempt (Leader × PaxosSharedContext)) : Tenure :=
  { s with
    leader := some a.state.1
    ctx := a.state.2
    requests := fun memberId => s.requests memberId ++ sentTo memberId a.effects }

theorem leaderEvent_eq {leader : Leader} {event : PaxosEvent} {env : Env}
    {a : Attempt (Leader × PaxosSharedContext)} (hleader : s.leader = some leader)
    (hterm : ∀ term, event.getTerm = some term → term ≤ s.ctx.term)
    (hevent : leader.handleEvent event s.ctx env = Leader.handleEvent.stay a)
    (hfault : a.fault = none) : s.leaderEvent event env = some (s.stay a) := by
  have hprocess : (PaxosState.leader leader).processEvent event s.ctx false env =
      Leader.handleEvent.stay a := by
    rw [PaxosState.processEvent_of_le hterm]
    exact hevent
  unfold leaderEvent
  simp only [hleader, hprocess, Leader.handleEvent.stay, Attempt.toOutcome, Attempt.map, hfault]
  rfl

/-- What a follower of the leader's term answers. -/
def answered (s : Tenure) (p : Uuid) (request : AcceptRequest) (env : Env) : Tenure :=
  let answer := (s.follower p).handleAcceptRequest request (s.followerCtx p) env
  { s with
    followerCtx := Function.update s.followerCtx p answer.2
    responses := Function.update s.responses p (s.responses p ++ [answer.1]) }

theorem step_deliverRequest {p : Uuid} {i : Nat} {request : AcceptRequest} (env : Env)
    (hrequest : (s.requests p)[i]? = some request) (hterm : request.term ≤ (s.followerCtx p).term) :
    s.step (.deliverRequest p i env) = some (s.answered p request env) := by
  have hprocess : ∀ tx, (PaxosState.follower (s.follower p)).processEvent
      (.acceptRequestReceived ⟨request, tx⟩) (s.followerCtx p) false env =
        (PaxosState.follower (s.follower p)).handleEvent (.acceptRequestReceived ⟨request, tx⟩)
          (s.followerCtx p) env := by
    intro tx
    refine PaxosState.processEvent_of_le fun term hget => ?_
    cases Option.some.inj hget
    exact hterm
  unfold step
  simp only [hrequest, hprocess]
  have hkeeps : Function.update s.follower p (s.follower p) = s.follower :=
    Function.update_eq_self p s.follower
  show some { s with
    follower := Function.update s.follower p (s.follower p)
    followerCtx := _
    responses := _ } = _
  rw [hkeeps]
  rfl

end Tenure

/-- A response is in the name and the term of the member that gives it. -/
theorem Follower.handleAcceptRequest_sender (self : Follower) (request : AcceptRequest)
    (ctx : PaxosSharedContext) (env : Env) :
    (self.handleAcceptRequest request ctx env).1.memberId = ctx.memberId ∧
      (self.handleAcceptRequest request ctx env).1.term = ctx.term := by
  rcases self.handleAcceptRequest_cases request ctx env with
    ⟨_, heq⟩ | ⟨_, _, hint, heq⟩ | ⟨_, _, heq⟩
  all_goals
    rw [heq]
    exact ⟨rfl, rfl⟩

/-- A success acknowledges what the request reaches. -/
theorem Follower.lastWrittenSlot_of_success (self : Follower) {request : AcceptRequest}
    {ctx : PaxosSharedContext} {env : Env}
    (h : (self.handleAcceptRequest request ctx env).1.success = true) :
    (self.handleAcceptRequest request ctx env).1.lastWrittenSlot = request.reach := by
  rcases self.handleAcceptRequest_cases request ctx env with
    ⟨_, heq⟩ | ⟨_, _, hint, heq⟩ | ⟨_, _, heq⟩
  · rw [heq] at h
    cases h
  · rw [heq] at h
    cases h
  · rw [heq]
    rfl

/-- The request under way reaches the end of the leader's log. -/
theorem Exchange.Inv.reach {wal : WriteAheadLog} {x : Exchange} (hx : x.Inv wal) :
    x.request.reach = x.ctx.lastLogSlot := by
  obtain ⟨prevLogTerm, utc, _, hrequest⟩ := hx.request
  have hle := hx.anchor_le
  have hcontiguous := hx.leading.logs.contiguous
  obtain ⟨hprev, hheld, hend⟩ :=
    Batch.reach_makeAcceptRequest x.ctx x.request.prevLogSlot prevLogTerm none utc
  rw [← hrequest] at hprev hheld hend
  refine Nat.le_antisymm ?_ ?_
  · rcases hheld with heq | ⟨e, he⟩
    · omega
    · exact (hcontiguous.le he).2
  · by_cases hlast : x.request.prevLogSlot < x.ctx.lastLogSlot
    · obtain ⟨e, he⟩ := (hcontiguous x.ctx.lastLogSlot).mpr (by omega)
      exact hend _ e he hlast
    · omega

/-- Slots count from 1. -/
theorem WriteAheadLog.ContiguousTo.get?_zero {wal : WriteAheadLog} {last : Nat}
    (h : wal.ContiguousTo last) : wal.get? 0 = none := by
  cases hget : wal.get? 0 with
  | none => rfl
  | some e => exact absurd (h.le hget).1 (by omega)

/-- Coherent logs without gaps can be reconciled. -/
theorem Reconcilable.of_coherent {wal wal' : WriteAheadLog} {last last' : Nat}
    (hwal : wal.ContiguousTo last) (hwal' : wal'.ContiguousTo last')
    (h : Coherent LogEntry.term wal.log wal'.log) : Reconcilable wal wal' last last' := by
  refine ⟨hwal, hwal', fun term slot slot' hslot hslot' k hk hk' => ?_⟩
  obtain ⟨⟨e, he, ht⟩, _⟩ := (wal.findHighestSlotForTerm_eq_some_iff).mp hslot
  obtain ⟨⟨e', he', ht'⟩, _⟩ := (wal'.findHighestSlotForTerm_eq_some_iff).mp hslot'
  by_cases h0 : k = 0
  · rw [h0, hwal.get?_zero, hwal'.get?_zero]
  · exact h slot slot' e e' he he' (ht.trans ht'.symm) k (by omega) (by omega)

/-- The exchange does not depend on what the leader has to do with others. -/
theorem Exchange.Inv.rebase {wal : WriteAheadLog} {x : Exchange} {leader : Leader}
    {ctx : PaxosSharedContext} (hx : x.Inv wal)
    (hget : leader.scoreBoard.get? x.followerCtx.memberId =
      x.leader.scoreBoard.get? x.followerCtx.memberId)
    (hwal : ctx.wal = x.ctx.wal) (hlast : ctx.lastLogSlot = x.ctx.lastLogSlot)
    (hcommitted : ctx.committedSlot = x.ctx.committedSlot) (hsame : x.ctx.SameMember ctx) :
    Inv wal ⟨leader, ctx, x.follower, x.followerCtx, x.request⟩ := by
  have hnext : nextSlot ⟨leader, ctx, x.follower, x.followerCtx, x.request⟩ = x.nextSlot := by
    unfold nextSlot
    simp only [hget]
  have hleading := hx.leading
  refine ⟨⟨hleading.term.trans hsame.term.symm, ?_, ?_, ?_⟩, hwal.trans hx.wal, ?_, ?_, ?_, ?_, ?_⟩
  · rw [hsame.memberId]
    exact hleading.leader
  · rw [hsame.peerIds]
    exact hleading.member
  · rw [hwal, hlast]
    exact hleading.logs
  · obtain ⟨fs, hfs⟩ := hx.board
    exact ⟨fs, hget.trans hfs⟩
  · rw [hnext]
    exact hx.next_pos
  · rw [hnext, hlast]
    exact hx.next_le
  · rw [hnext]
    exact hx.anchor
  · obtain ⟨prevLogTerm, utc, hterm, hrequest⟩ := hx.request
    refine ⟨prevLogTerm, utc, (Leader.prevLogTerm?_congr hwal _).trans hterm, ?_⟩
    simp only [Leader.makeAcceptRequest, hwal, hcommitted, hsame.term, hsame.memberId]
    exact hrequest

/-- **A round that goes on**: the leader does not fail, sends the next request and nothing
else, and commits nothing. -/
theorem Exchange.goesOn {x x' : Exchange} {l : Env × Env} (h : x.next l = some x') :
    ∃ a, x.leader.handleAcceptResponse (x.answer l.1).1 x.ctx l.2 = a ∧ a.fault = none ∧
      a.effects = [.dispatchAccept x.followerCtx.memberId x'.request] ∧
      x' = ⟨a.state.1, a.state.2, x.follower, (x.answer l.1).2, x'.request⟩ ∧
      Leader.Spares [x.followerCtx.memberId] x.leader x'.leader ∧
      x.ctx.SameMember x'.ctx ∧ x'.ctx.lastLogSlot = x.ctx.lastLogSlot ∧
      x'.ctx.committedSlot = x.ctx.committedSlot := by
  unfold next at h
  dsimp only at h
  obtain ⟨request, hhead, rfl⟩ := Option.map_eq_some_iff.mp h
  obtain ⟨hfault, heffects, hspares, hctx⟩ :=
    Leader.handleAcceptResponse_of_sent (List.mem_of_head? hhead)
  have hreplicates := x.leader.handleAcceptResponse_replicates x.ctx l.2 (x.answer l.1).1
  rw [answer, (x.follower.handleAcceptRequest_sender x.request x.followerCtx l.1).1]
    at heffects hspares
  refine ⟨_, rfl, hfault, heffects, rfl, hspares, hreplicates.same, hreplicates.lastLogSlot, ?_⟩
  rw [hctx, Leader.renewLease_committedSlot]

/-- A lease that runs goes on running. -/
theorem Follower.handleAcceptRequest_running (self : Follower) (request : AcceptRequest)
    {ctx : PaxosSharedContext} {utc : DateTime} (hlease : ctx.isLeaderLeaseExpired utc = false) :
    (self.handleAcceptRequest request ctx (.steady utc)).2.isLeaderLeaseExpired utc = false := by
  have hextended : ∀ ctx : PaxosSharedContext,
      (ctx.extendLeaderLeaseExpiryTime utc).isLeaderLeaseExpired utc = false := by
    intro ctx
    refine (PaxosSharedContext.isLeaderLeaseExpired_eq_false_iff _).mpr ⟨_, rfl, ?_⟩
    have hlonger : ∀ utc : Int, utc - 7 * 1000000 ≤ utc + 7 * 1000000 + 10 * 1000000000 := by
      omega
    exact hlonger utc
  rcases self.handleAcceptRequest_cases request ctx (.steady utc) with
    ⟨_, heq⟩ | ⟨_, _, hint, heq⟩ | ⟨_, _, heq⟩
  · rw [heq]
    exact hlease
  · rw [heq]
    exact hextended _
  · rw [heq]
    exact hextended _

namespace Ordered
variable {o o' : Ordered} {p : Uuid}

/-- A follower, and what is under way between it and the leader. -/
structure Link where
  follower : Follower
  ctx : PaxosSharedContext
  requests : List AcceptRequest
  responses : List AcceptResponse
  nextRequest : Nat
  nextResponse : Nat

def link (o : Ordered) (p : Uuid) : Link :=
  ⟨o.tenure.follower p, o.tenure.followerCtx p, o.tenure.requests p, o.tenure.responses p,
    o.nextRequest p, o.nextResponse p⟩

theorem step_deliverRequest {request : AcceptRequest} {i : Nat} (env : Env)
    (hrequest : (o.tenure.requests p)[i]? = some request)
    (hterm : request.term ≤ (o.tenure.followerCtx p).term) (hi : o.nextRequest p ≤ i) :
    o.step (.deliverRequest p i env) = some
      { o with
        tenure := o.tenure.answered p request env
        nextRequest := Function.update o.nextRequest p (i + 1) } := by
  unfold step
  rw [Tenure.step_deliverRequest env hrequest hterm]
  exact if_pos hi

theorem step_deliverResponse {response : AcceptResponse} {i : Nat} {leader : Leader} {env : Env}
    (hresponse : (o.tenure.responses p)[i]? = some response) (hleader : o.tenure.leader = some leader)
    (hterm : response.term ≤ o.tenure.ctx.term) (hi : o.nextResponse p ≤ i)
    (hfault : (leader.handleAcceptResponse response o.tenure.ctx env).fault = none) :
    o.step (.deliverResponse p i env) = some
      { o with
        tenure := o.tenure.stay (leader.handleAcceptResponse response o.tenure.ctx env)
        nextResponse := Function.update o.nextResponse p (i + 1) } := by
  have hevent : o.tenure.leaderEvent (.acceptResponseReceived response) env =
      some (o.tenure.stay (leader.handleAcceptResponse response o.tenure.ctx env)) := by
    refine Tenure.leaderEvent_eq hleader (fun term hget => ?_) rfl hfault
    cases Option.some.inj hget
    exact hterm
  unfold step Tenure.step
  simp only [hresponse, hevent]
  exact if_pos hi

/-- A run with these followers: the leader's log and commit point stay, and so does what
concerns the others. -/
structure Beside (Q : List Uuid) (o o' : Ordered) : Prop where
  wal : o'.tenure.wal = o.tenure.wal
  lastLogSlot : o'.tenure.ctx.lastLogSlot = o.tenure.ctx.lastLogSlot
  committedSlot : o'.tenure.ctx.committedSlot = o.tenure.ctx.committedSlot
  same : o.tenure.ctx.SameMember o'.tenure.ctx
  links : ∀ q, q ∉ Q → o'.link q = o.link q
  leader : ∀ leader, o.tenure.leader = some leader → ∃ leader', o'.tenure.leader = some leader' ∧
    Leader.Spares Q leader leader'

namespace Beside
variable {Q Q' : List Uuid}

theorem refl (Q : List Uuid) (o : Ordered) : Beside Q o o :=
  ⟨rfl, rfl, rfl, .refl _, fun _ _ => rfl, fun leader hleader =>
    ⟨leader, hleader, fun _ => rfl, rfl, fun _ _ => rfl⟩⟩

theorem trans {o'' : Ordered} (h : Beside Q o o') (h' : Beside Q o' o'') : Beside Q o o'' := by
  refine ⟨h'.wal.trans h.wal, h'.lastLogSlot.trans h.lastLogSlot,
    h'.committedSlot.trans h.committedSlot, h.same.trans h'.same,
    fun q hq => (h'.links q hq).trans (h.links q hq), fun leader hleader => ?_⟩
  obtain ⟨leader', hleader', hspares⟩ := h.leader leader hleader
  obtain ⟨leader'', hleader'', hspares'⟩ := h'.leader leader' hleader'
  exact ⟨leader'', hleader'', fun q => (hspares'.matchSlot q).trans (hspares.matchSlot q),
    hspares'.inFlightWrites.trans hspares.inFlightWrites,
    fun q hq => (hspares'.board q hq).trans (hspares.board q hq)⟩

theorem mono (h : Beside Q o o') (hsub : ∀ q ∈ Q, q ∈ Q') : Beside Q' o o' := by
  refine ⟨h.wal, h.lastLogSlot, h.committedSlot, h.same,
    fun q hq => h.links q fun hmem => hq (hsub q hmem), fun leader hleader => ?_⟩
  obtain ⟨leader', hleader', hspares⟩ := h.leader leader hleader
  exact ⟨leader', hleader', hspares.matchSlot, hspares.inFlightWrites,
    fun q hq => hspares.board q fun hmem => hq (hsub q hmem)⟩

end Beside

/-! ## Pursuing one follower -/

/-- A message between the leader and one of these followers is delivered, and its receiver
reads `utc`. -/
def Delivers (Q : List Uuid) (utc : DateTime) (l : Tenure.Label) : Prop :=
  ∃ p ∈ Q, ∃ i, l = .deliverRequest p i (.steady utc) ∨ l = .deliverResponse p i (.steady utc)

theorem Delivers.mono {Q Q' : List Uuid} {utc : DateTime} {l : Tenure.Label}
    (h : Delivers Q utc l) (hsub : ∀ q ∈ Q, q ∈ Q') : Delivers Q' utc l := by
  obtain ⟨p, hp, hl⟩ := h
  exact ⟨p, hsub p hp, hl⟩

/-- The exchange with a follower, with this request under way. -/
def exchange (o : Ordered) (leader : Leader) (p : Uuid) (request : AcceptRequest) : Exchange :=
  ⟨leader, o.tenure.ctx, o.tenure.follower p, o.tenure.followerCtx p, request⟩

/-- The follower's newest request is to come, and takes the exchange further. -/
structure Pursued (o : Ordered) (now : DateTime) (p : Uuid) (leader : Leader)
    (request : AcceptRequest) : Prop where
  office : o.tenure.leader = some leader
  id : (o.tenure.followerCtx p).memberId = p
  lease : (o.tenure.followerCtx p).isLeaderLeaseExpired now = false
  newest : (o.tenure.requests p).getLast? = some request
  nextRequest : o.nextRequest p < (o.tenure.requests p).length
  nextResponse : o.nextResponse p ≤ (o.tenure.responses p).length
  inv : (o.exchange leader p request).Inv o.tenure.wal

/-- The follower has the leader's log, and its newest response, which says so, is to come. -/
structure Landed (o : Ordered) (p : Uuid) (response : AcceptResponse) : Prop where
  id : (o.tenure.followerCtx p).memberId = p
  copy : o.tenure.followerWal p = o.tenure.wal
  newest : (o.tenure.responses p).getLast? = some response
  nextResponse : o.nextResponse p < (o.tenure.responses p).length
  sender : response.memberId = p
  term : response.term = o.tenure.ctx.term
  success : response.success = true
  reach : response.lastWrittenSlot = o.tenure.ctx.lastLogSlot

variable {now : DateTime} {leader : Leader} {request : AcceptRequest}

/-- The clock shows the same to the follower and to the leader. -/
def still (now : DateTime) : Env × Env := (.steady now, .steady now)

theorem Pursued.term (h : o.Pursued now p leader request) :
    request.term = (o.tenure.followerCtx p).term := by
  obtain ⟨prevLogTerm, utc, _, hrequest⟩ := h.inv.request
  change request = _ at hrequest
  rw [hrequest]
  exact h.inv.leading.term.symm

/-- The newest request is delivered. -/
theorem Pursued.deliver (h : o.Pursued now p leader request) :
    o.step (.deliverRequest p ((o.tenure.requests p).length - 1) (.steady now)) = some
      { o with
        tenure := o.tenure.answered p request (.steady now)
        nextRequest := Function.update o.nextRequest p (o.tenure.requests p).length } := by
  have hlt := h.nextRequest
  have hget := h.newest
  rw [List.getLast?_eq_getElem?] at hget
  rw [step_deliverRequest (.steady now) hget (Nat.le_of_eq h.term) (by omega),
    Nat.sub_add_cancel (by omega)]

/-- The tenure after one more round of the exchange. -/
def pursue (o : Ordered) (p : Uuid) (response : AcceptResponse) (x : Exchange) : Ordered where
  tenure := { o.tenure with
    leader := some x.leader
    ctx := x.ctx
    followerCtx := Function.update o.tenure.followerCtx p x.followerCtx
    requests := Function.update o.tenure.requests p (o.tenure.requests p ++ [x.request])
    responses := Function.update o.tenure.responses p (o.tenure.responses p ++ [response]) }
  nextRequest := Function.update o.nextRequest p (o.tenure.requests p).length
  nextResponse := Function.update o.nextResponse p ((o.tenure.responses p).length + 1)

/-- A round of the exchange is two deliveries. -/
theorem Pursued.exec_pursue (h : o.Pursued now p leader request) {x : Exchange}
    (hnext : (o.exchange leader p request).next (still now) = some x) :
    exec Ordered.step o
      [.deliverRequest p ((o.tenure.requests p).length - 1) (.steady now),
        .deliverResponse p (o.tenure.responses p).length (.steady now)] =
      some (o.pursue p ((o.exchange leader p request).answer (still now).1).1 x) := by
  obtain ⟨a, ha, hfault, heffects, hx, _⟩ := Exchange.goesOn hnext
  have hterm := ((o.tenure.follower p).handleAcceptRequest_sender request (o.tenure.followerCtx p)
    (.steady now)).2
  generalize hanswer : (o.exchange leader p request).answer (still now).1 = answer at ha hx ⊢
  change (o.tenure.follower p).handleAcceptRequest request (o.tenure.followerCtx p)
    (.steady now) = answer at hanswer
  change leader.handleAcceptResponse answer.1 o.tenure.ctx (.steady now) = a at ha
  change _ = [Effect.dispatchAccept (o.tenure.followerCtx p).memberId x.request] at heffects
  rw [hanswer] at hterm
  rw [h.id] at heffects
  have hsent : (fun q => o.tenure.requests q ++ sentTo q a.effects) =
      Function.update o.tenure.requests p (o.tenure.requests p ++ [x.request]) := by
    funext q
    rw [heffects]
    by_cases hq : q = p
    · rw [hq, Tenure.sentTo_self, Function.update_self]
    · rw [Tenure.sentTo_other (Ne.symm hq), List.append_nil, Function.update_of_ne hq]
  have hsecond : ({ o with
      tenure := o.tenure.answered p request (.steady now)
      nextRequest := Function.update o.nextRequest p (o.tenure.requests p).length } : Ordered).step
        (.deliverResponse p (o.tenure.responses p).length (.steady now)) =
      some (o.pursue p answer.1 x) := by
    refine (@step_deliverResponse _ p answer.1 _ leader _ ?_ ?_ ?_ ?_ ?_).trans
      (congrArg some ?_)
    · show (Function.update o.tenure.responses p _ p)[_]? = _
      rw [Function.update_self, hanswer, List.getElem?_concat_length]
    · exact h.office
    · rw [hterm]
      exact Nat.le_of_eq h.inv.leading.term
    · exact h.nextResponse
    · exact (congrArg Attempt.fault ha).trans hfault
    · unfold Tenure.stay pursue Tenure.answered
      dsimp only
      rw [ha, hanswer, hsent, hx]
  unfold exec
  rw [h.deliver, Option.bind_some]
  unfold exec
  rw [hsecond]
  rfl

/-- The round concerns nobody else. -/
theorem link_pursue {q : Uuid} (hq : q ≠ p) (response : AcceptResponse) (x : Exchange) :
    (o.pursue p response x).link q = o.link q := by
  unfold pursue link
  simp only [Function.update_of_ne hq]

/-- **A round that goes on** leaves the follower pursued, and the others as they are. -/
theorem Pursued.next (h : o.Pursued now p leader request) {x : Exchange}
    (hnext : (o.exchange leader p request).next (still now) = some x) :
    let o' := o.pursue p ((o.exchange leader p request).answer (still now).1).1 x
    o'.Pursued now p x.leader x.request ∧ o'.exchange x.leader p x.request = x ∧
      Beside [p] o o' := by
  dsimp only
  obtain ⟨a, ha, hfault, heffects, hx, hspares, hsame, hlast, hcommitted⟩ := Exchange.goesOn hnext
  obtain ⟨hinv, _⟩ := h.inv.next hnext
  generalize ((o.exchange leader p request).answer (still now).1).1 = response
  have hlease := (o.tenure.follower p).handleAcceptRequest_running request h.lease
  have hid := (Follower.handleAcceptRequest_sameMember (o.tenure.follower p) request
    (o.tenure.followerCtx p) (.steady now)).memberId
  have hcopy : x.followerCtx = ((o.tenure.follower p).handleAcceptRequest request
      (o.tenure.followerCtx p) (.steady now)).2 := congrArg Exchange.followerCtx hx
  have hself : (o.pursue p response x).tenure.followerCtx p = x.followerCtx :=
    Function.update_self _ _ _
  have hexchange : (o.pursue p response x).exchange x.leader p x.request = x := by
    have hfollower : x.follower = o.tenure.follower p := congrArg Exchange.follower hx
    show Exchange.mk x.leader x.ctx (o.tenure.follower p)
      ((o.pursue p response x).tenure.followerCtx p) x.request = x
    rw [hself, ← hfollower]
  refine ⟨⟨rfl, ?_, ?_, ?_, ?_, ?_, ?_⟩, hexchange, ?_⟩
  · rw [hself, hcopy, hid]
    exact h.id
  · rw [hself, hcopy]
    exact hlease
  · show (Function.update o.tenure.requests p _ p).getLast? = _
    rw [Function.update_self, List.getLast?_concat]
  · show Function.update o.nextRequest p _ p < (Function.update o.tenure.requests p _ p).length
    rw [Function.update_self, Function.update_self, List.length_append]
    exact Nat.lt_succ_self _
  · show Function.update o.nextResponse p _ p ≤ (Function.update o.tenure.responses p _ p).length
    rw [Function.update_self, Function.update_self, List.length_append]
    exact Nat.le_refl _
  · rw [hexchange]
    show x.Inv x.ctx.wal
    rw [hinv.wal]
    exact hinv
  · have hspares' : Leader.Spares [p] leader x.leader := h.id ▸ hspares
    exact ⟨hinv.wal, hlast, hcommitted, hsame,
      fun q hq => link_pursue (List.ne_of_not_mem_cons hq) response x,
      fun leader' hleader' => ⟨x.leader, rfl,
        Option.some.inj (h.office.symm.trans hleader') ▸ hspares'⟩⟩

/-- **The last round**: the follower has written the leader's log. -/
theorem Pursued.lands (h : o.Pursued now p leader request)
    (hlast : (o.exchange leader p request).next (still now) = none) :
    ∃ o' response, o.step (.deliverRequest p ((o.tenure.requests p).length - 1) (.steady now)) =
      some o' ∧ o'.Landed p response ∧ Beside [p] o o' := by
  have hready : (o.exchange leader p request).Ready (still now) := ⟨h.lease, rfl⟩
  obtain ⟨hsuccess, hwal⟩ := h.inv.succeeds hready hlast
  obtain ⟨hsender, hterm⟩ := (o.tenure.follower p).handleAcceptRequest_sender request
    (o.tenure.followerCtx p) (.steady now)
  have hid := (Follower.handleAcceptRequest_sameMember (o.tenure.follower p) request
    (o.tenure.followerCtx p) (.steady now)).memberId
  refine ⟨_, _, h.deliver, ⟨?_, ?_, ?_, ?_, hsender.trans h.id, hterm.trans h.inv.leading.term,
    hsuccess, ?_⟩, rfl, rfl, rfl, .refl _, fun q hq => ?_, fun leader' hleader' =>
    ⟨leader', hleader', fun _ => rfl, rfl, fun _ _ => rfl⟩⟩
  · show (Function.update o.tenure.followerCtx p _ p).memberId = p
    rw [Function.update_self, hid]
    exact h.id
  · show (Function.update o.tenure.followerCtx p _ p).wal = o.tenure.wal
    rw [Function.update_self]
    exact hwal
  · show (Function.update o.tenure.responses p _ p).getLast? = _
    rw [Function.update_self, List.getLast?_concat]
  · show o.nextResponse p < (Function.update o.tenure.responses p _ p).length
    rw [Function.update_self, List.length_append]
    exact Nat.lt_succ_of_le h.nextResponse
  · have hreach := (o.tenure.follower p).lastWrittenSlot_of_success hsuccess
    exact hreach.trans h.inv.reach
  · have hne : q ≠ p := List.ne_of_not_mem_cons hq
    unfold link Tenure.answered
    simp only [Function.update_of_ne hne]

/-- **A pursued follower lands**: every round that goes on has a smaller measure. -/
theorem Pursued.reaches_landed (h : o.Pursued now p leader request) :
    ∃ o' response, Runs Ordered.step (fun _ l => Delivers [p] now l) o o' ∧
      o'.Landed p response ∧ Beside [p] o o' := by
  have hself := List.mem_singleton_self p
  generalize hn : (o.exchange leader p request).measure = n
  induction n using Nat.strong_induction_on generalizing o leader request with
  | _ n ih =>
    cases hnext : (o.exchange leader p request).next (still now) with
    | none =>
      obtain ⟨o', response, hstep, hlanded, hbeside⟩ := h.lands hnext
      exact ⟨o', response, (Runs.refl o).tail _ ⟨p, hself, _, Or.inl rfl⟩ hstep, hlanded, hbeside⟩
    | some x =>
      obtain ⟨hpursued, hexchange, hbeside⟩ := h.next hnext
      have hlt := (h.inv.next hnext).2
      rw [hn] at hlt
      obtain ⟨o', response, hruns, hlanded, hbeside'⟩ := ih _ hlt hpursued
        (congrArg Exchange.measure hexchange)
      have hround : ∀ l ∈ [Tenure.Label.deliverRequest p ((o.tenure.requests p).length - 1)
          (.steady now), .deliverResponse p (o.tenure.responses p).length (.steady now)],
          ∀ _ : Ordered, Delivers [p] now l := by
        intro l hl _
        rcases List.mem_pair.mp hl with rfl | rfl
        · exact ⟨p, hself, _, Or.inl rfl⟩
        · exact ⟨p, hself, _, Or.inr rfl⟩
      exact ⟨o', response, (Runs.of_exec_of_forall _ hround (h.exec_pursue hnext)).trans hruns,
        hlanded, hbeside.trans hbeside'⟩

/-! ## All of them -/

variable {Q : List Uuid}

/-- What happens beside a pursued follower leaves it pursued. -/
theorem Pursued.beside (h : o.Pursued now p leader request) (hb : Beside Q o o') (hp : p ∉ Q) :
    ∃ leader', o'.Pursued now p leader' request := by
  obtain ⟨leader', hleader', hspares⟩ := hb.leader leader h.office
  have hlink := hb.links p hp
  have hfollower : o'.tenure.follower p = o.tenure.follower p := congrArg Link.follower hlink
  have hcopy : o'.tenure.followerCtx p = o.tenure.followerCtx p := congrArg Link.ctx hlink
  have hrequests : o'.tenure.requests p = o.tenure.requests p := congrArg Link.requests hlink
  have hresponses : o'.tenure.responses p = o.tenure.responses p := congrArg Link.responses hlink
  have hrequest : o'.nextRequest p = o.nextRequest p := congrArg Link.nextRequest hlink
  have hresponse : o'.nextResponse p = o.nextResponse p := congrArg Link.nextResponse hlink
  refine ⟨leader', hleader', hcopy ▸ h.id, hcopy ▸ h.lease, hrequests ▸ h.newest, ?_, ?_, ?_⟩
  · rw [hrequest, hrequests]
    exact h.nextRequest
  · rw [hresponse, hresponses]
    exact h.nextResponse
  · have hget : leader'.scoreBoard.get? (o.tenure.followerCtx p).memberId =
        leader.scoreBoard.get? (o.tenure.followerCtx p).memberId := by
      rw [h.id]
      exact hspares.board p hp
    rw [exchange, hfollower, hcopy, hb.wal]
    exact h.inv.rebase hget hb.wal hb.lastLogSlot hb.committedSlot hb.same

/-- What happens elsewhere leaves a follower landed. -/
theorem Landed.congr {response : AcceptResponse} (h : o.Landed p response)
    (hlink : o'.link p = o.link p) (hwal : o'.tenure.wal = o.tenure.wal)
    (hlast : o'.tenure.ctx.lastLogSlot = o.tenure.ctx.lastLogSlot)
    (hsame : o.tenure.ctx.SameMember o'.tenure.ctx) : o'.Landed p response := by
  have hcopy : o'.tenure.followerCtx p = o.tenure.followerCtx p := congrArg Link.ctx hlink
  have hresponses : o'.tenure.responses p = o.tenure.responses p := congrArg Link.responses hlink
  have hresponse : o'.nextResponse p = o.nextResponse p := congrArg Link.nextResponse hlink
  refine ⟨hcopy ▸ h.id, ?_, hresponses ▸ h.newest, ?_, h.sender, ?_, h.success, ?_⟩
  · rw [Tenure.followerWal, hcopy, hwal]
    exact h.copy
  · rw [hresponse, hresponses]
    exact h.nextResponse
  · rw [hsame.term]
    exact h.term
  · rw [hlast]
    exact h.reach

/-- **All pursued followers land**, one after the other. -/
theorem reaches_landed (hnodup : Q.Nodup)
    (h : ∀ p ∈ Q, ∃ leader request, o.Pursued now p leader request) :
    ∃ o', Runs Ordered.step (fun _ l => Delivers Q now l) o o' ∧
      (∀ p ∈ Q, ∃ response, o'.Landed p response) ∧ Beside Q o o' := by
  induction Q generalizing o with
  | nil => exact ⟨o, .refl o, fun p hp => absurd hp List.not_mem_nil, .refl [] o⟩
  | cons p Q ih =>
    obtain ⟨hp, hnodup⟩ := List.nodup_cons.mp hnodup
    obtain ⟨leader, request, hpursued⟩ := h p List.mem_cons_self
    obtain ⟨mid, response, hfirst, hlanded, hbeside⟩ := hpursued.reaches_landed
    obtain ⟨o', hrest, hlanded', hbeside'⟩ := ih (o := mid) hnodup fun q hq => by
      obtain ⟨leader, request, hpursued⟩ := h q (List.mem_cons_of_mem _ hq)
      have hne : q ∉ [p] := fun hmem => hp (List.mem_singleton.mp hmem ▸ hq)
      obtain ⟨leader', hpursued'⟩ := hpursued.beside hbeside hne
      exact ⟨leader', request, hpursued'⟩
    have hhead : ∀ q ∈ [p], q ∈ p :: Q :=
      fun q hq => List.mem_singleton.mp hq ▸ List.mem_cons_self
    have htail : ∀ q ∈ Q, q ∈ p :: Q := fun q hq => List.mem_cons_of_mem _ hq
    refine ⟨o', (hfirst.mono fun _ l hl => hl.mono hhead).trans
      (hrest.mono fun _ l hl => hl.mono htail), fun q hq => ?_,
      (hbeside.mono hhead).trans (hbeside'.mono htail)⟩
    rcases List.mem_cons.mp hq with rfl | hq
    · exact ⟨response, hlanded.congr (hbeside'.links q hp) hbeside'.wal hbeside'.lastLogSlot
        hbeside'.same⟩
    · exact hlanded' q hq

end Ordered
end SpannerPaxos
