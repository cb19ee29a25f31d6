import SpannerPaxos.LeaderSteps
import SpannerPaxos.Runs
import Mathlib.Logic.Function.Basic

/-! # The tenure of a leader

One leader, its followers, and every accept message that has been sent between
them.  Messages are never removed, and a delivery names the message it delivers,
so a message can be lost, delayed, reordered or duplicated at will.  Every event
goes through `processEvent`.  The tenure ends when the leader steps down; a
leader whose handler fails stops, with what it has sent still under way.
-/
namespace SpannerPaxos

structure Tenure where
  /-- The leader, unless a handler of it has failed. -/
  leader : Option Leader
  ctx : PaxosSharedContext
  follower : Uuid → Follower
  followerCtx : Uuid → PaxosSharedContext
  /-- The accept requests sent to each follower, oldest first. -/
  requests : Uuid → List AcceptRequest
  /-- The responses each follower has given, oldest first. -/
  responses : Uuid → List AcceptResponse

namespace Tenure

inductive Label where
  | clientWrite (command : PaxosCommand ClientWriteRequest) (env : Env)
  | writeFlush (env : Env)
  | heartbeat (env : Env)
  | timeoutCheck (env : Env)
  /-- A follower gets the `i`-th request sent to it. -/
  | deliverRequest (memberId : Uuid) (i : Nat) (env : Env)
  /-- The leader gets the `i`-th response of a follower. -/
  | deliverResponse (memberId : Uuid) (i : Nat) (env : Env)

/-- The accept requests for one member among the effects of a handler. -/
def sentTo (memberId : Uuid) (effects : List Effect) : List AcceptRequest :=
  effects.filterMap fun
    | .dispatchAccept target request => if target = memberId then some request else none
    | _ => none

/-- The responses among the effects of a handler. -/
def replied (effects : List Effect) : List AcceptResponse :=
  effects.filterMap fun
    | .acceptReply _ response => some response
    | _ => none

/-- The leader processes an event. -/
def leaderEvent (s : Tenure) (event : PaxosEvent) (env : Env) : Option Tenure :=
  match s.leader with
  | none => none
  | some leader =>
    let o := (PaxosState.leader leader).processEvent event s.ctx false env
    let sent := { s with
      ctx := o.ctx
      requests := fun memberId => s.requests memberId ++ sentTo memberId o.effects }
    match o.result with
    | .ok (.leader leader) => some { sent with leader := some leader }
    | .ok _ => none
    | .error .waiting => none
    | .error _ => some { sent with leader := none }

def step (s : Tenure) : Label → Option Tenure
  | .clientWrite command env => s.leaderEvent (.clientWriteRequestReceived command) env
  | .writeFlush env => s.leaderEvent .writeFlushTimerFired env
  | .heartbeat env => s.leaderEvent .heartbeatTimerFired env
  | .timeoutCheck env => s.leaderEvent .acceptTimeoutCheckFired env
  | .deliverRequest memberId i env =>
    match (s.requests memberId)[i]? with
    | none => none
    | some request =>
      let o := (PaxosState.follower (s.follower memberId)).processEvent
        (.acceptRequestReceived ⟨request, ⟨request.leaderId, true⟩⟩) (s.followerCtx memberId) false
        env
      match o.result with
      | .ok (.follower f) => some { s with
        follower := Function.update s.follower memberId f
        followerCtx := Function.update s.followerCtx memberId o.ctx
        responses := Function.update s.responses memberId
          (s.responses memberId ++ replied o.effects) }
      | _ => none
  | .deliverResponse memberId i env =>
    match (s.responses memberId)[i]? with
    | none => none
    | some response => s.leaderEvent (.acceptResponseReceived response) env

/-- The log of the leader. -/
abbrev wal (s : Tenure) : WriteAheadLog := s.ctx.wal

/-- The log of a follower. -/
abbrev followerWal (s : Tenure) (memberId : Uuid) : WriteAheadLog := (s.followerCtx memberId).wal

/-- The match slot the leader has recorded for a follower. -/
def matchSlot? (s : Tenure) (memberId : Uuid) : Option Nat :=
  s.leader.bind fun leader => leader.matchSlot? memberId

/-- The context a follower handles a request in: a larger term is adopted. -/
def admittingCtx (s : Tenure) (memberId : Uuid) (request : AcceptRequest) : PaxosSharedContext :=
  { s.followerCtx memberId with term := max (s.followerCtx memberId).term request.term }

/-- A follower admits a request and finds its anchor in its log. -/
def Writes (s : Tenure) (memberId : Uuid) (request : AcceptRequest) (env : Env) : Prop :=
  (s.follower memberId).Admits request (s.admittingCtx memberId request) (env.clock 0) ∧
    Follower.AnchorMatches request (s.followerWal memberId)

/-- Member 1 has just come to lead term 1 of a group of two; all logs are empty,
and the leases run for a minute. -/
def fresh : Tenure where
  leader := some (Leader.new (.ofKeys [2] (by decide) fun _ => LogPosition.withNextSlot 1))
  ctx := { PaxosSharedContext.new 1 [2] (by decide) with
    term := 1
    leaseExpiry := some (Duration.seconds 60) }
  follower _ := Follower.new (some 1)
  followerCtx p := { PaxosSharedContext.new p [1] (by decide) with
    term := 1
    leaseExpiry := some (Duration.seconds 60) }
  requests _ := []
  responses _ := []

/-- A client writes a value. -/
def write (value : String) (utc : DateTime) : Label :=
  .clientWrite ⟨⟨value⟩, ⟨9, true⟩⟩ (.steady utc)

/-! ## What a step does -/

/-- The leader has gone through a method: it has the method's state, or has
stopped, and what the method sent is under way. -/
structure Led (s s' : Tenure) (a : Attempt (Leader × PaxosSharedContext)) : Prop where
  leader : s'.leader = some a.state.1 ∨ s'.leader = none
  ctx : s'.ctx = a.state.2
  requests : ∀ memberId, s'.requests memberId = s.requests memberId ++ sentTo memberId a.effects
  follower : s'.follower = s.follower
  followerCtx : s'.followerCtx = s.followerCtx
  responses : s'.responses = s.responses

/-- A follower has answered a request with `answer`. -/
structure Answered (s s' : Tenure) (memberId : Uuid)
    (answer : AcceptResponse × PaxosSharedContext) : Prop where
  leader : s'.leader = s.leader
  ctx : s'.ctx = s.ctx
  requests : s'.requests = s.requests
  followerCtx : s'.followerCtx = Function.update s.followerCtx memberId answer.2
  responses : s'.responses =
    Function.update s.responses memberId (s.responses memberId ++ [answer.1])
  leaderId : ∀ id, (s'.follower id).currentLeaderId = (s.follower id).currentLeaderId

/-- What each label does. -/
inductive Next (s s' : Tenure) : Label → Prop
  | clientWrite {command env} (leader : Leader) (hleader : s.leader = some leader)
      (hled : Led s s' (leader.handleClientWrite command s.ctx env)) :
      Next s s' (.clientWrite command env)
  | writeFlush {env} (leader : Leader) (hleader : s.leader = some leader)
      (hled : Led s s' (leader.handleWriteFlush s.ctx env)) : Next s s' (.writeFlush env)
  | heartbeat {env} (leader : Leader) (hleader : s.leader = some leader)
      (hled : Led s s' (leader.handleHeartbeatTimer s.ctx env)) : Next s s' (.heartbeat env)
  | timeoutCheck {env} (leader : Leader) (hleader : s.leader = some leader)
      (hled : Led s s' (.ok (leader.handleAcceptTimeoutCheck env, s.ctx))) :
      Next s s' (.timeoutCheck env)
  | deliverRequest {memberId i env} (request : AcceptRequest)
      (hrequest : (s.requests memberId)[i]? = some request) (f : Follower)
      (hf : f.currentLeaderId = (s.follower memberId).currentLeaderId)
      (hanswered : Answered s s' memberId
        (f.handleAcceptRequest request (s.admittingCtx memberId request) env)) :
      Next s s' (.deliverRequest memberId i env)
  | deliverResponse {memberId i env} (response : AcceptResponse)
      (hresponse : (s.responses memberId)[i]? = some response) (leader : Leader)
      (hleader : s.leader = some leader) (hterm : response.term ≤ s.ctx.term)
      (hled : Led s s' (leader.handleAcceptResponse response s.ctx env)) :
      Next s s' (.deliverResponse memberId i env)

/-- A leader that is still one after an event has gone through its handler. -/
theorem led_of_leaderEvent {s s' : Tenure} {event : PaxosEvent} {env : Env}
    (h : s.leaderEvent event env = some s') :
    ∃ leader, s.leader = some leader ∧ ∀ a : Attempt (Leader × PaxosSharedContext),
      (PaxosState.leader leader).processEvent event s.ctx false env =
        Leader.handleEvent.stay a → Led s s' a := by
  unfold leaderEvent at h
  cases hleader : s.leader with
  | none =>
    rw [hleader] at h
    cases h
  | some leader =>
    rw [hleader] at h
    refine ⟨leader, rfl, ?_⟩
    intro a ha
    simp only [ha] at h
    unfold Leader.handleEvent.stay Attempt.toOutcome at h
    cases hfault : a.fault with
    | none =>
      simp only [Attempt.map, hfault] at h
      cases Option.some.inj h
      exact ⟨Or.inl rfl, rfl, fun _ => rfl, rfl, rfl, rfl⟩
    | some fault =>
      simp only [Attempt.map, hfault] at h
      cases fault with
      | waiting => cases h
      | cancelled | receiverDropped | dispatchFailed | panicked =>
        cases Option.some.inj h
        exact ⟨Or.inr rfl, rfl, fun _ => rfl, rfl, rfl, rfl⟩

/-- The role and the context in which a follower handles a request. -/
theorem adoptTerm_follower (s : Tenure) (memberId : Uuid) (request : AcceptRequest)
    (tx : ReplyChannel) :
    ∃ f : Follower, f.currentLeaderId = (s.follower memberId).currentLeaderId ∧
      (PaxosState.follower (s.follower memberId)).adoptTerm
        (.acceptRequestReceived ⟨request, tx⟩) (s.followerCtx memberId) =
          (.follower f, s.admittingCtx memberId request) := by
  unfold PaxosState.adoptTerm admittingCtx
  dsimp only [PaxosEvent.getTerm]
  split
  · rename_i hterm
    refine ⟨Follower.new (s.follower memberId).currentLeaderId, rfl, ?_⟩
    rw [max_eq_right (by omega)]
    rfl
  · rename_i hterm
    refine ⟨s.follower memberId, rfl, ?_⟩
    rw [max_eq_left (by omega)]

theorem step_next {s s' : Tenure} {l : Label} (h : s.step l = some s') : Next s s' l := by
  cases l with
  | clientWrite command env =>
    change s.leaderEvent (.clientWriteRequestReceived command) env = some s' at h
    obtain ⟨leader, hleader, hled⟩ := led_of_leaderEvent h
    exact .clientWrite leader hleader (hled _ rfl)
  | writeFlush env =>
    change s.leaderEvent .writeFlushTimerFired env = some s' at h
    obtain ⟨leader, hleader, hled⟩ := led_of_leaderEvent h
    exact .writeFlush leader hleader (hled _ rfl)
  | heartbeat env =>
    change s.leaderEvent .heartbeatTimerFired env = some s' at h
    obtain ⟨leader, hleader, hled⟩ := led_of_leaderEvent h
    exact .heartbeat leader hleader (hled _ rfl)
  | timeoutCheck env =>
    change s.leaderEvent .acceptTimeoutCheckFired env = some s' at h
    obtain ⟨leader, hleader, hled⟩ := led_of_leaderEvent h
    exact .timeoutCheck leader hleader (hled _ rfl)
  | deliverResponse memberId i env =>
    simp only [step] at h
    cases hresponse : (s.responses memberId)[i]? with
    | none =>
      rw [hresponse] at h
      cases h
    | some response =>
      rw [hresponse] at h
      obtain ⟨leader, hleader, hled⟩ := led_of_leaderEvent h
      by_cases hterm : response.term ≤ s.ctx.term
      · refine .deliverResponse response hresponse leader hleader hterm (hled _ ?_)
        simp [PaxosState.processEvent_eq, PaxosState.adoptTerm, PaxosEvent.getTerm,
          Nat.not_lt.mpr hterm, PaxosState.handleEvent, Leader.handleEvent]
      · -- a larger term ends the tenure
        simp only [leaderEvent, hleader, PaxosState.processEvent_eq, PaxosState.adoptTerm,
          PaxosEvent.getTerm, Nat.lt_of_not_le hterm, if_true] at h
        cases h
  | deliverRequest memberId i env =>
    simp only [step] at h
    cases hrequest : (s.requests memberId)[i]? with
    | none =>
      rw [hrequest] at h
      cases h
    | some request =>
      rw [hrequest] at h
      obtain ⟨f, hf, hadopt⟩ := s.adoptTerm_follower memberId request ⟨request.leaderId, true⟩
      simp only [PaxosState.processEvent_eq, hadopt] at h
      cases Option.some.inj h
      refine .deliverRequest request hrequest f hf ⟨rfl, rfl, rfl, rfl, rfl, ?_⟩
      intro id
      by_cases hid : id = memberId
      · subst hid
        simpa using hf
      · simp [hid]

theorem mem_sentTo {memberId : Uuid} {effects : List Effect} {request : AcceptRequest} :
    request ∈ sentTo memberId effects ↔ Effect.dispatchAccept memberId request ∈ effects := by
  rw [sentTo, List.mem_filterMap]
  constructor
  · rintro ⟨e, he, h⟩
    cases e with
    | dispatchAccept target r =>
      simp only at h
      split at h
      · rename_i htarget
        cases Option.some.inj h
        exact htarget ▸ he
      · cases h
    | _ => cases h
  · intro h
    exact ⟨_, h, by simp⟩

theorem mem_replied {effects : List Effect} {response : AcceptResponse} :
    response ∈ replied effects ↔ ∃ tx, Effect.acceptReply tx response ∈ effects := by
  rw [replied, List.mem_filterMap]
  constructor
  · rintro ⟨e, he, h⟩
    cases e with
    | acceptReply tx r =>
      cases Option.some.inj h
      exact ⟨tx, he⟩
    | _ => cases h
  · rintro ⟨tx, h⟩
    exact ⟨_, h, rfl⟩

/-- **What a follower does with a request**: it keeps its log and does not
succeed, or writes the batch and acknowledges its reach. -/
theorem answer_cases (s : Tenure) {memberId : Uuid} (request : AcceptRequest) {f : Follower}
    (env : Env) (hf : f.currentLeaderId = (s.follower memberId).currentLeaderId) :
    let answer := f.handleAcceptRequest request (s.admittingCtx memberId request) env
    answer.1.memberId = (s.followerCtx memberId).memberId ∧
    answer.2.memberId = (s.followerCtx memberId).memberId ∧
    ((¬ s.Writes memberId request env ∧ answer.2.wal = s.followerWal memberId ∧
        answer.1.success = false) ∨
      (s.Writes memberId request env ∧
        answer.2.wal = Follower.writtenWal request (s.followerWal memberId) ∧
        answer.1.success = true ∧ answer.1.lastWrittenSlot = request.reach)) := by
  have hsame := f.handleAcceptRequest_sameMember request (s.admittingCtx memberId request) env
  have hadmits : f.Admits request (s.admittingCtx memberId request) (env.clock 0) ↔
      (s.follower memberId).Admits request (s.admittingCtx memberId request) (env.clock 0) :=
    ⟨fun h => ⟨h.term, h.lease, hf ▸ h.leader⟩, fun h => ⟨h.term, h.lease, hf.symm ▸ h.leader⟩⟩
  refine ⟨?_, hsame.memberId, ?_⟩
  · rcases f.handleAcceptRequest_cases request (s.admittingCtx memberId request) env with
      ⟨_, h⟩ | ⟨_, _, hint, h⟩ | ⟨_, _, h⟩
    · rw [h]
      rfl
    · rw [h]
      rfl
    · rw [h]
      rfl
  · rcases f.handleAcceptRequest_cases request (s.admittingCtx memberId request) env with
      ⟨hno, h⟩ | ⟨_, hno, hint, h⟩ | ⟨hyes, hanchor, h⟩
    · rw [h]
      exact Or.inl ⟨fun hw => hno (hadmits.mpr hw.1), rfl, rfl⟩
    · rw [h]
      exact Or.inl ⟨fun hw => hno hw.2, rfl, rfl⟩
    · rw [h]
      refine Or.inr ⟨⟨hadmits.mp hyes, hanchor⟩, ?_, rfl, rfl⟩
      show (Follower.writeBatch request (s.admittingCtx memberId request)).2.wal = _
      rw [Follower.writeBatch_wal]
      rfl

/-- A response was there before, or is the answer to the request just delivered. -/
theorem Next.mem_responses {s s' : Tenure} {l : Label} (h : Next s s' l) {p : Uuid}
    {response : AcceptResponse} (hmem : response ∈ s'.responses p) :
    response ∈ s.responses p ∨ ∃ i env request, ∃ f : Follower,
      l = .deliverRequest p i env ∧ (s.requests p)[i]? = some request ∧
      f.currentLeaderId = (s.follower p).currentLeaderId ∧
      s'.followerCtx p = (f.handleAcceptRequest request (s.admittingCtx p request) env).2 ∧
      response = (f.handleAcceptRequest request (s.admittingCtx p request) env).1 := by
  cases h with
  | clientWrite leader hleader h => exact Or.inl (h.responses ▸ hmem)
  | writeFlush leader hleader h => exact Or.inl (h.responses ▸ hmem)
  | heartbeat leader hleader h => exact Or.inl (h.responses ▸ hmem)
  | timeoutCheck leader hleader h => exact Or.inl (h.responses ▸ hmem)
  | deliverResponse r hr leader hleader hterm h => exact Or.inl (h.responses ▸ hmem)
  | deliverRequest request hrequest f hf hanswered =>
    rename_i q i env
    rw [hanswered.responses] at hmem
    by_cases hp : p = q
    · subst hp
      rw [Function.update_self, List.mem_append] at hmem
      rcases hmem with hold | hnew
      · exact Or.inl hold
      · refine Or.inr ⟨i, env, request, f, rfl, hrequest, hf, ?_, List.mem_singleton.mp hnew⟩
        rw [hanswered.followerCtx, Function.update_self]
    · rw [Function.update_of_ne hp] at hmem
      exact Or.inl hmem

/-- A follower keeps its id. -/
theorem Next.followerId {s s' : Tenure} {l : Label} (h : Next s s' l) (p : Uuid) :
    (s'.followerCtx p).memberId = (s.followerCtx p).memberId := by
  cases h with
  | clientWrite leader hleader h => rw [h.followerCtx]
  | writeFlush leader hleader h => rw [h.followerCtx]
  | heartbeat leader hleader h => rw [h.followerCtx]
  | timeoutCheck leader hleader h => rw [h.followerCtx]
  | deliverResponse r hr leader hleader hterm h => rw [h.followerCtx]
  | deliverRequest request hrequest f hf hanswered =>
    rename_i q i env
    rw [hanswered.followerCtx]
    by_cases hp : p = q
    · subst hp
      rw [Function.update_self]
      exact (s.answer_cases _ _ hf).2.1
    · rw [Function.update_of_ne hp]

end Tenure
end SpannerPaxos
