import SpannerPaxos.LeaseSteps
import SpannerPaxos.Quorum
import SpannerPaxos.Tenure

/-! # Leases in true time

A campaigner that becomes a leader, its followers, and every vote and accept
message between them, in true time.  A reading of a clock bounds the true time it
is made at; messages are delivered at any time, in any order, any number of times.
The followers handle whatever else reaches them too.  A follower adopts a larger
term in a step of its own, before the event that carried it or not at all: it is
only the latter way that a vote request ever earns a Promise.

Whoever was in contact at a true time is covered for a lease length from then,
whatever happens to its lease afterwards.
-/
namespace SpannerPaxos

namespace PaxosSharedContext

/-- The lease watcher's wait ends at the reading `utc`. -/
def watchLease (ctx : PaxosSharedContext) (utc : DateTime) : Option PaxosSharedContext :=
  match ctx.leaseExpiry with
  | none => none
  | some expiry =>
    if TrueTime.commitWait expiry utc then some { ctx with leaseExpiry := none } else none

/-- The lease watcher clears a lease that a reading has passed. -/
theorem watchLease_cleared {ctx ctx' : PaxosSharedContext} {utc : DateTime}
    (h : ctx.watchLease utc = some ctx') :
    ctx' = { ctx with leaseExpiry := none } ∧
      ∀ x, ctx.leaseExpiry = some x → TrueTime.after x utc = true := by
  unfold watchLease at h
  cases hlease : ctx.leaseExpiry with
  | none =>
    rw [hlease] at h
    cases h
  | some expiry =>
    simp only [hlease] at h
    split at h
    · rename_i hpast
      cases Option.some.inj h
      refine ⟨rfl, ?_⟩
      intro x hx
      cases Option.some.inj hx
      exact hpast
    · cases h

end PaxosSharedContext

structure Leased where
  /-- The true time. -/
  time : DateTime
  role : PaxosState
  ctx : PaxosSharedContext
  /-- What the campaigner has sent to all other members. -/
  voteRequest : VoteRequest
  follower : Uuid → Follower
  followerCtx : Uuid → PaxosSharedContext
  votes : Uuid → List VoteResponse
  requests : Uuid → List AcceptRequest
  responses : Uuid → List AcceptResponse

namespace Leased

inductive Label where
  /-- The campaigner, or leader, processes an event. -/
  | own (event : PaxosEvent) (env : Env)
  | ownWatcher (utc : DateTime)
  /-- A follower handles an event. -/
  | member (memberId : Uuid) (event : PaxosEvent) (env : Env)
  | memberWatcher (memberId : Uuid) (utc : DateTime)
  | adopt (memberId : Uuid) (term : Nat)
  /-- Time passes. -/
  | pass

/-- The responses of the followers reach the campaigner; everything else is up to
the outside. -/
def Arrived (s : Leased) : PaxosEvent → Prop
  | .voteResponseReceived response => response ∈ s.votes response.memberId
  | .acceptResponseReceived response => response ∈ s.responses response.memberId
  | _ => True

instance (s : Leased) (event : PaxosEvent) : Decidable (s.Arrived event) := by
  unfold Arrived
  split <;> infer_instance

/-- The answers to the campaigner's vote request. -/
def ballots (s : Leased) (event : PaxosEvent) (effects : List Effect) : List VoteResponse :=
  match event with
  | .voteRequestReceived command =>
    if command.request = s.voteRequest then
      effects.filterMap fun
        | .voteReply _ response => some response
        | _ => none
    else []
  | _ => []

/-- The answers to an accept request of the leader. -/
def echoes (s : Leased) (memberId : Uuid) (event : PaxosEvent) (effects : List Effect) :
    List AcceptResponse :=
  match event with
  | .acceptRequestReceived command =>
    if command.request ∈ s.requests memberId then Tenure.replied effects else []
  | _ => []

/-- What happens; the campaign and the tenure end with the campaigner's role. -/
def act (s : Leased) : Label → Option Leased
  | .own event env =>
    if s.Arrived event then
      let o := s.role.processEvent event s.ctx false env
      match o.result with
      | .ok (.follower _) => none
      | .ok role => some { s with
        role := role
        ctx := o.ctx
        requests := fun p => s.requests p ++ Tenure.sentTo p o.effects }
      | .error _ => none
    else none
  | .ownWatcher utc => (s.ctx.watchLease utc).map fun ctx => { s with ctx := ctx }
  | .member p event env =>
    if p ∈ s.ctx.peerIds then
      let o := (s.follower p).handleEvent event (s.followerCtx p) env
      match o.result with
      | .ok (.follower f) => some { s with
        follower := Function.update s.follower p f
        followerCtx := Function.update s.followerCtx p o.ctx
        votes := Function.update s.votes p (s.votes p ++ s.ballots event o.effects)
        responses := Function.update s.responses p (s.responses p ++ s.echoes p event o.effects) }
      | _ => none
    else none
  | .memberWatcher p utc => ((s.followerCtx p).watchLease utc).map fun ctx =>
      { s with followerCtx := Function.update s.followerCtx p ctx }
  | .adopt p term =>
    if (s.followerCtx p).term < term then some { s with
      follower := Function.update s.follower p (Follower.new (s.follower p).currentLeaderId)
      followerCtx := Function.update s.followerCtx p { s.followerCtx p with term := term } }
    else none
  | .pass => some s

/-- A label, and the true time at its end. -/
def step (s : Leased) (l : Label × DateTime) : Option Leased :=
  (s.act l.1).map fun s' => { s' with time := l.2 }

/-- A reading made while the label happens. -/
def Label.Reading : Label → DateTime → Prop
  | .own _ env, utc | .member _ _ env, utc => ∃ i, env.clock i = utc
  | .ownWatcher utc', utc | .memberWatcher _ utc', utc => utc' = utc
  | .adopt _ _, _ | .pass, _ => False

/-- Time goes forward, and every reading contains the true time it is made at. -/
def Truthful (s : Leased) (l : Label × DateTime) : Prop :=
  s.time ≤ l.2 ∧ ∀ utc, l.1.Reading utc → ∃ t, s.time ≤ t ∧ t ≤ l.2 ∧ TrueTime.Reads utc t

/-- The campaign has just begun: the vote request has been sent, and nothing has
been answered. -/
structure Start (s : Leased) : Prop where
  campaign : ∃ ctx env t, TrueTime.Reads (env.clock 0) t ∧ t ≤ s.time ∧
    s.ctx = { ctx with term := ctx.term + 1 } ∧
    s.role = .candidate ((Candidate.new ctx).dispatchVote s.ctx env).state
  voteRequest : s.voteRequest = s.ctx.createVote
  silent : ∀ p, s.votes p = [] ∧ s.requests p = [] ∧ s.responses p = []
  ids : ∀ p, (s.followerCtx p).memberId = p

/-- The context of a member of the group. -/
def memberCtx (s : Leased) (p : Uuid) : PaxosSharedContext :=
  if p = s.ctx.memberId then s.ctx else s.followerCtx p

/-- The members whose check says that the lease is over, when each makes it at the
reading given for it. -/
def expiredMembers (s : Leased) (readings : Uuid → DateTime) : List Uuid :=
  (s.ctx.memberId :: s.ctx.peerIds).filter fun p =>
    (s.memberCtx p).isLeaderLeaseExpired (readings p)

/-- While the leader's check says that its lease is not over, it is over for fewer
members than a quorum. -/
def LeaseDisjoint (s : Leased) : Prop :=
  ∀ readings : Uuid → DateTime, (∀ p, TrueTime.Reads (readings p) s.time) →
    s.role.isLeader = true → s.ctx.isLeaderLeaseExpired (readings s.ctx.memberId) = false →
    (s.expiredMembers readings).length < s.ctx.getQuorumSize

/-- The leader's lease is not over in true time, and a lease length has passed since
the epoch, which stands for a contact that has not been made. -/
def BeforeExpiry (s : Leased) : Prop :=
  DateTime.unixEpoch + PaxosSharedContext.leaseLength < s.time ∧
    ∀ expiry, s.ctx.leaseExpiry = some expiry → s.time ≤ expiry

/-! ## What a contact is worth -/

/-- The member's lease runs until `e`, or `e` is past or no later than a lease from
the epoch. -/
def Covered (time : DateTime) (ctx : PaxosSharedContext) (e : DateTime) : Prop :=
  e ≤ DateTime.unixEpoch + PaxosSharedContext.leaseLength ∨ e < time ∨
    e ≤ time + PaxosSharedContext.leaseLength ∧ ∃ x, ctx.leaseExpiry = some x ∧ e ≤ x

/-- What one step does to a follower's lease: nothing, an extension from a reading
made meanwhile, or the watcher's clearing it when it is past. -/
inductive LeaseMove (time time' : DateTime) (ctx ctx' : PaxosSharedContext) : Prop
  | keeps (hlease : ctx'.leaseExpiry = ctx.leaseExpiry)
  | renews (x : DateTime) (hlease : ctx'.leaseExpiry = some x)
      (hx : time + PaxosSharedContext.leaseLength ≤ x)
  | clears (hpast : ∀ x, ctx.leaseExpiry = some x → x < time')

section
variable {time time' e e' : DateTime} {ctx ctx' : PaxosSharedContext}

theorem Covered.mono (h : Covered time ctx e) (hle : e' ≤ e) : Covered time ctx e' := by
  rcases h with hepoch | hpast | ⟨hbound, x, hx, hex⟩
  · exact Or.inl (le_trans hle hepoch)
  · exact Or.inr (Or.inl (lt_of_le_of_lt hle hpast))
  · exact Or.inr (Or.inr ⟨le_trans hle hbound, x, hx, le_trans hle hex⟩)

/-- **A covered member stays covered**, whatever happens to its lease. -/
theorem Covered.move (h : Covered time ctx e) (htime : time ≤ time')
    (hmove : LeaseMove time time' ctx ctx') : Covered time' ctx' e := by
  rcases h with hepoch | hpast | ⟨hbound, x, hx, hex⟩
  · exact Or.inl hepoch
  · exact Or.inr (Or.inl (lt_of_lt_of_le hpast htime))
  · have hbound' : e ≤ time' + PaxosSharedContext.leaseLength :=
      le_trans hbound (Int.add_le_add_right htime _)
    cases hmove with
    | keeps hlease => exact Or.inr (Or.inr ⟨hbound', x, hlease.trans hx, hex⟩)
    | renews x' hlease hx' =>
      exact Or.inr (Or.inr ⟨hbound', x', hlease, le_trans hbound hx'⟩)
    | clears hpast => exact Or.inr (Or.inl (lt_of_le_of_lt hex (hpast x hx)))

/-- A contact made by now covers a lease length from it. -/
theorem Covered.of_renewed {x t : DateTime} (hlease : ctx'.leaseExpiry = some x)
    (hx : time + PaxosSharedContext.leaseLength ≤ x) (ht : t ≤ time) (htime : time ≤ time') :
    Covered time' ctx' (t + PaxosSharedContext.leaseLength) := by
  have hbound := Int.add_le_add_right ht PaxosSharedContext.leaseLength
  exact Or.inr (Or.inr ⟨le_trans hbound (Int.add_le_add_right htime _), x, hlease,
    le_trans hbound hx⟩)

/-- The follower's check does not say that a lease is over before it is. -/
theorem Covered.not_expired {utc : DateTime} (h : Covered time ctx e)
    (hepoch : DateTime.unixEpoch + PaxosSharedContext.leaseLength < time) (he : time ≤ e)
    (hread : TrueTime.Reads utc time) : ctx.isLeaderLeaseExpired utc = false := by
  rw [← Bool.not_eq_true]
  intro hexpired
  rcases h with hold | hpast | ⟨_, x, hx, hex⟩
  · exact absurd (lt_of_lt_of_le hepoch he) (not_lt_of_ge hold)
  · exact absurd he (not_le_of_gt hpast)
  · have hover : x < time := ctx.lt_of_isLeaderLeaseExpired hread hexpired hx
    exact absurd (le_trans he hex) (not_le_of_gt hover)

end

/-- A quorum, the leader counted, is covered until `e`. -/
def QuorumCovered (s : Leased) (e : DateTime) : Prop :=
  ∃ Q : List Uuid, Q.Nodup ∧
    (∀ p ∈ Q, p ∈ s.ctx.peerIds ∧ Covered s.time (s.followerCtx p) e) ∧
    s.ctx.getQuorumSize ≤ Q.length + 1

/-- The invariant: whatever can still count as a contact covers its sender, and the
leader's lease covers a quorum. -/
structure Inv (s : Leased) : Prop where
  ids : ∀ p, (s.followerCtx p).memberId = p
  sent : ∀ p request, request ∈ s.requests p → request.tSend ≤ s.time
  voted : ∀ p response, response ∈ s.votes p → p ∈ s.ctx.peerIds ∧ response.memberId = p
  replied : ∀ p response, response ∈ s.responses p → p ∈ s.ctx.peerIds ∧ response.memberId = p ∧
    (response.Explained → Covered s.time (s.followerCtx p)
      (response.echoedTSend + PaxosSharedContext.leaseLength))
  running : (∃ c, s.role = .candidate c) ∨ ∃ l, s.role = .leader l
  candidate : ∀ c, s.role = .candidate c → ∃ dispatchTime,
    c.voteDispatchTime = some dispatchTime ∧ dispatchTime ≤ s.time ∧
    c.scoreBoard.keys = s.ctx.peerIds ∧
    (c.Board s.ctx fun p => Covered s.time (s.followerCtx p)
      (dispatchTime + PaxosSharedContext.leaseLength)) ∧
    ∀ p response, response ∈ s.votes p → response.outcome.isPromise = true →
      Covered s.time (s.followerCtx p) (dispatchTime + PaxosSharedContext.leaseLength)
  contacts : ∀ l, s.role = .leader l → ∀ p t, l.lastContact.get? p = some t →
    p ∈ s.ctx.peerIds ∧
      Covered s.time (s.followerCtx p) (t + PaxosSharedContext.leaseLength)
  lease : ∀ l, s.role = .leader l → ∀ expiry, s.ctx.leaseExpiry = some expiry →
    s.QuorumCovered expiry

/-! ## The followers' side -/

/-- The lease runs a lease length from `time` at least. -/
def Renewed (time : DateTime) (ctx : PaxosSharedContext) : Prop :=
  ∃ x, ctx.leaseExpiry = some x ∧ time + PaxosSharedContext.leaseLength ≤ x

theorem Renewed.of_extended {s : Leased} {l : Label × DateTime} {env : Env}
    {ctx : PaxosSharedContext} (h : ctx.Extended env) (hok : s.Truthful l)
    (hreading : ∀ i, l.1.Reading (env.clock i)) : Renewed s.time ctx := by
  obtain ⟨i, hx⟩ := h
  obtain ⟨t, hle, _, hread⟩ := hok.2 _ (hreading i)
  exact ⟨_, hx, Int.add_le_add_right (le_trans hle hread.2) _⟩

/-- What a step does that is not the campaigner's own: leases move, and the answers
that count as contacts come with a renewed lease. -/
structure MembersMove (s s' : Leased) : Prop where
  time : s.time ≤ s'.time
  role : s'.role = s.role
  peerIds : s'.ctx.peerIds = s.ctx.peerIds
  lease : ∀ expiry, s'.ctx.leaseExpiry = some expiry → s.ctx.leaseExpiry = some expiry
  requests : s'.requests = s.requests
  move : ∀ p, LeaseMove s.time s'.time (s.followerCtx p) (s'.followerCtx p)
  ids : ∀ p, (s'.followerCtx p).memberId = (s.followerCtx p).memberId
  votes : ∀ p response, response ∈ s'.votes p → response ∈ s.votes p ∨
    p ∈ s.ctx.peerIds ∧ response.memberId = (s.followerCtx p).memberId ∧
      (response.outcome.isPromise = true → Renewed s.time (s'.followerCtx p))
  responses : ∀ p response, response ∈ s'.responses p → response ∈ s.responses p ∨
    p ∈ s.ctx.peerIds ∧ response.memberId = (s.followerCtx p).memberId ∧
      (∃ request ∈ s.requests p, response.echoedTSend = request.tSend) ∧
      (response.Explained → Renewed s.time (s'.followerCtx p))

theorem QuorumCovered.carry {s s' : Leased} {e : DateTime} (h : s.QuorumCovered e)
    (hpeers : s'.ctx.peerIds = s.ctx.peerIds)
    (hcarry : ∀ p, Covered s.time (s.followerCtx p) e → Covered s'.time (s'.followerCtx p) e) :
    s'.QuorumCovered e := by
  obtain ⟨Q, hnodup, hQ, hlength⟩ := h
  refine ⟨Q, hnodup, ?_, ?_⟩
  · intro p hp
    obtain ⟨hpeer, hcovered⟩ := hQ p hp
    exact ⟨hpeers ▸ hpeer, hcarry p hcovered⟩
  · unfold PaxosSharedContext.getQuorumSize at hlength ⊢
    rwa [hpeers]

/-- **The invariant survives whatever the followers do.** -/
theorem Inv.membersMove {s s' : Leased} (hs : s.Inv) (h : MembersMove s s') : s'.Inv := by
  have hcarry : ∀ p e, Covered s.time (s.followerCtx p) e →
      Covered s'.time (s'.followerCtx p) e := fun p e hc => hc.move h.time (h.move p)
  have hfresh : ∀ p t, Renewed s.time (s'.followerCtx p) → t ≤ s.time →
      Covered s'.time (s'.followerCtx p) (t + PaxosSharedContext.leaseLength) := by
    intro p t hrenewed ht
    obtain ⟨x, hx, hle⟩ := hrenewed
    exact .of_renewed hx hle ht h.time
  refine ⟨?_, ?_, ?_, ?_, ?_, ?_, ?_, ?_⟩
  · intro p
    rw [h.ids, hs.ids]
  · intro p request hmem
    exact le_trans (hs.sent p request (h.requests ▸ hmem)) h.time
  · intro p response hmem
    rw [h.peerIds]
    rcases h.votes p response hmem with hold | ⟨hpeer, hid, _⟩
    · exact hs.voted p response hold
    · exact ⟨hpeer, hid.trans (hs.ids p)⟩
  · intro p response hmem
    rw [h.peerIds]
    rcases h.responses p response hmem with hold | ⟨hpeer, hid, ⟨request, hreq, hecho⟩, hlease⟩
    · obtain ⟨hpeer, hid, hcovered⟩ := hs.replied p response hold
      exact ⟨hpeer, hid, fun hexp => hcarry p _ (hcovered hexp)⟩
    · refine ⟨hpeer, hid.trans (hs.ids p), ?_⟩
      intro hexplained
      rw [hecho]
      exact hfresh p _ (hlease hexplained) (hs.sent p request hreq)
  · rw [h.role]
    exact hs.running
  · intro c hc
    rw [h.role] at hc
    obtain ⟨dispatchTime, hdispatch, hle, hkeys, hboard, hvotes⟩ := hs.candidate c hc
    refine ⟨dispatchTime, hdispatch, le_trans hle h.time, h.peerIds ▸ hkeys, ?_, ?_⟩
    · have hb := hboard.mono fun p => hcarry p _
      exact ⟨h.peerIds ▸ hb.keys, hb.promised⟩
    · intro p response hmem hpromise
      rcases h.votes p response hmem with hold | ⟨_, _, hlease⟩
      · exact hcarry p _ (hvotes p response hold hpromise)
      · exact hfresh p _ (hlease hpromise) hle
  · intro l hl p t ht
    rw [h.role] at hl
    obtain ⟨hpeer, hcovered⟩ := hs.contacts l hl p t ht
    exact ⟨h.peerIds ▸ hpeer, hcarry p _ hcovered⟩
  · intro l hl expiry hexpiry
    rw [h.role] at hl
    exact (hs.lease l hl expiry (h.lease expiry hexpiry)).carry h.peerIds fun p => hcarry p _

end Leased
end SpannerPaxos
