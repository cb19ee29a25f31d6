import SpannerPaxos.Tenure

/-! # What the leader records of a follower

The leader keeps the positions and the batches in flight of every follower by itself: an
event touches them in one way, and sends the follower at most one request, which is made
from them.  A dispatch records what it sends; a timeout check may clear the batches; a
response of the follower moves its positions, and a hint makes the leader dispatch again.
-/
namespace SpannerPaxos

open Tenure (sentTo)

namespace Tenure

@[simp] theorem sentTo_append (memberId : Uuid) (effects effects' : List Effect) :
    sentTo memberId (effects ++ effects') = sentTo memberId effects ++ sentTo memberId effects' :=
  List.filterMap_append

theorem sentTo_self (memberId : Uuid) (request : AcceptRequest) :
    sentTo memberId [.dispatchAccept memberId request] = [request] := by
  simp [sentTo]

theorem sentTo_other {memberId target : Uuid} (hne : target ≠ memberId)
    (request : AcceptRequest) : sentTo memberId [.dispatchAccept target request] = [] := by
  simp [sentTo, hne]

end Tenure

namespace Leader

/-- A dispatch to the follower: one request is sent and recorded, or none. -/
inductive Dispatched (ctx : PaxosSharedContext) (minNextTs : Option DateTime)
    (fs : FollowerState) : FollowerState → List AcceptRequest → Prop
  | silent : Dispatched ctx minNextTs fs fs []
  | sends (prevLogTerm : Nat) (utc : DateTime)
      (hanchor : prevLogTerm? ctx fs.prevLogSlot = some prevLogTerm) {request : AcceptRequest}
      (hrequest : request = makeAcceptRequest ctx fs.prevLogSlot prevLogTerm minNextTs utc) :
      Dispatched ctx minNextTs fs (fs.recordSent request.entries.getLast? request.tSend) [request]

section Dispatch
variable (ctx : PaxosSharedContext) (minNextTs : Option DateTime)

theorem dispatchAcceptRequestToFollower_other (self : Leader) {memberId q : Uuid} (env : Env)
    (hne : q ≠ memberId) :
    let a := self.dispatchAcceptRequestToFollower memberId ctx minNextTs env
    a.state.scoreBoard.get? q = self.scoreBoard.get? q ∧ sentTo q a.effects = [] := by
  unfold dispatchAcceptRequestToFollower
  cases self.scoreBoard.get? memberId with
  | none => exact ⟨rfl, rfl⟩
  | some fs =>
    simp only
    cases prevLogTerm? ctx fs.prevLogSlot with
    | none => exact ⟨rfl, rfl⟩
    | some prevLogTerm =>
      simp only
      split
      · refine ⟨?_, Tenure.sentTo_other (Ne.symm hne) _⟩
        show (self.scoreBoard.insert memberId _).get? q = _
        rw [AssocMap.get?_insert, if_neg hne]
      · exact ⟨rfl, rfl⟩

theorem dispatchAcceptRequestToFollower_self {self : Leader} {memberId : Uuid} (env : Env)
    {fs : FollowerState} (hget : self.scoreBoard.get? memberId = some fs) :
    let a := self.dispatchAcceptRequestToFollower memberId ctx minNextTs env
    ∃ fs', a.state.scoreBoard.get? memberId = some fs' ∧
      Dispatched ctx minNextTs fs fs' (sentTo memberId a.effects) := by
  unfold dispatchAcceptRequestToFollower
  rw [hget]
  dsimp only
  cases hanchor : prevLogTerm? ctx fs.prevLogSlot with
  | none => exact ⟨fs, hget, .silent⟩
  | some prevLogTerm =>
    simp only
    split
    · rw [Tenure.sentTo_self]
      refine ⟨_, ?_, .sends prevLogTerm (env.clock 0) hanchor rfl⟩
      show (self.scoreBoard.insert memberId _).get? memberId = _
      rw [AssocMap.get?_insert, if_pos rfl]
    · exact ⟨fs, hget, .silent⟩

/-- The loop passes by a follower that it is not for. -/
theorem dispatchLoop_other {q : Uuid} (memberIds : List Uuid) (hq : q ∉ memberIds)
    (self : Leader) (env : Env) :
    let a := dispatchLoop ctx minNextTs self memberIds env
    a.state.scoreBoard.get? q = self.scoreBoard.get? q ∧ sentTo q a.effects = [] := by
  induction memberIds generalizing self env with
  | nil => exact ⟨rfl, rfl⟩
  | cons memberId memberIds ih =>
    rw [List.mem_cons, not_or] at hq
    obtain ⟨hget, hsent⟩ := dispatchAcceptRequestToFollower_other ctx minNextTs self env hq.1
    rw [dispatchLoop, Attempt.andThen]
    cases hfault : (self.dispatchAcceptRequestToFollower memberId ctx minNextTs env).fault with
    | some fault => exact ⟨hget, hsent⟩
    | none =>
      obtain ⟨hget', hsent'⟩ := ih hq.2
        (self.dispatchAcceptRequestToFollower memberId ctx minNextTs env).state (env.skip 1)
      refine ⟨hget'.trans hget, ?_⟩
      show sentTo q (_ ++ _) = []
      rw [Tenure.sentTo_append, hsent, hsent', List.append_nil]

/-- The loop comes to a follower once, or fails before. -/
theorem dispatchLoop_dispatched {q : Uuid} {fs : FollowerState} (memberIds : List Uuid)
    (hnodup : memberIds.Nodup) (self : Leader) (env : Env)
    (hget : self.scoreBoard.get? q = some fs) :
    let a := dispatchLoop ctx minNextTs self memberIds env
    ∃ fs', a.state.scoreBoard.get? q = some fs' ∧
      Dispatched ctx minNextTs fs fs' (sentTo q a.effects) := by
  induction memberIds generalizing self env with
  | nil => exact ⟨fs, hget, .silent⟩
  | cons memberId memberIds ih =>
    obtain ⟨hhead, htail⟩ := List.nodup_cons.mp hnodup
    rw [dispatchLoop, Attempt.andThen]
    by_cases hq : q = memberId
    · subst hq
      obtain ⟨fs', hget', hdispatched⟩ :=
        dispatchAcceptRequestToFollower_self ctx minNextTs env hget
      cases hfault : (self.dispatchAcceptRequestToFollower q ctx minNextTs env).fault with
      | some fault => exact ⟨fs', hget', hdispatched⟩
      | none =>
        -- the rest of the loop is for others
        obtain ⟨hrest, hsent⟩ := dispatchLoop_other ctx minNextTs memberIds hhead
          (self.dispatchAcceptRequestToFollower q ctx minNextTs env).state (env.skip 1)
        refine ⟨fs', hrest.trans hget', ?_⟩
        show Dispatched ctx minNextTs fs fs' (sentTo q (_ ++ _))
        rw [Tenure.sentTo_append, hsent, List.append_nil]
        exact hdispatched
    · obtain ⟨hsame, hsent⟩ := dispatchAcceptRequestToFollower_other ctx minNextTs self env hq
      rw [hget] at hsame
      cases hfault : (self.dispatchAcceptRequestToFollower memberId ctx minNextTs env).fault with
      | some fault =>
        simp only
        rw [hsent]
        exact ⟨fs, hsame, .silent⟩
      | none =>
        obtain ⟨fs', hget', hdispatched⟩ := ih htail _ (env.skip 1) hsame
        refine ⟨fs', hget', ?_⟩
        show Dispatched ctx minNextTs fs fs' (sentTo q (_ ++ _))
        rw [Tenure.sentTo_append, hsent, List.nil_append]
        exact hdispatched

end Dispatch

/-! ## The handlers -/

/-- What an event does to what the leader records of a follower, and what it sends to the
follower. -/
inductive FollowerMove (ctx : PaxosSharedContext) (event : PaxosEvent) (memberId : Uuid)
    (fs : FollowerState) : FollowerState → List AcceptRequest → Prop
  | dispatches {ctx' : PaxosSharedContext} {minNextTs : Option DateTime} {fs' : FollowerState}
      {sent : List AcceptRequest} (hwal : ctx'.wal = ctx.wal)
      (hother : ∀ response, event ≠ .acceptResponseReceived response)
      (h : Dispatched ctx' minNextTs fs fs' sent) : FollowerMove ctx event memberId fs fs' sent
  | keeps : FollowerMove ctx event memberId fs fs []
  | clears (hevent : event = .acceptTimeoutCheckFired) :
      FollowerMove ctx event memberId fs fs.clearInFlightBatches []
  | matched (response : AcceptResponse) (hevent : event = .acceptResponseReceived response)
      (hsender : response.memberId = memberId) (hsuccess : response.success = true)
      (hlt : fs.logPosition.matchSlot < response.lastWrittenSlot) :
      FollowerMove ctx event memberId fs (fs.recordMatch response.lastWrittenSlot) []
  | retries (response : AcceptResponse) (hint : ConflictHint)
      (hevent : event = .acceptResponseReceived response)
      (hsender : response.memberId = memberId) (hsuccess : response.success = false)
      (hhint : response.conflictHint = some hint) {ctx' : PaxosSharedContext}
      {fs' : FollowerState} {sent : List AcceptRequest} (hwal : ctx'.wal = ctx.wal)
      (h : Dispatched ctx' none (backtrack ctx' hint fs) fs' sent) :
      FollowerMove ctx event memberId fs fs' sent

/-- The method treats every follower on the board by itself. -/
def Moves (self : Leader) (ctx : PaxosSharedContext) (event : PaxosEvent)
    (a : Attempt (Leader × PaxosSharedContext)) : Prop :=
  ∀ memberId fs, self.scoreBoard.get? memberId = some fs →
    ∃ fs', a.state.1.scoreBoard.get? memberId = some fs' ∧
      FollowerMove ctx event memberId fs fs' (sentTo memberId a.effects)

variable (self : Leader) (ctx : PaxosSharedContext) (env : Env)

/-- Dispatching to all, and then changing what the board does not show. -/
theorem dispatchThen_dispatched (minNextTs : Option DateTime) (f : Leader → Leader)
    (hf : ∀ l, (f l).scoreBoard = l.scoreBoard) {memberId : Uuid} {fs : FollowerState}
    (hget : self.scoreBoard.get? memberId = some fs) :
    let a := (self.dispatchAcceptRequest ctx minNextTs env).andThen fun l => .ok (f l)
    ∃ fs', a.state.scoreBoard.get? memberId = some fs' ∧
      Dispatched ctx minNextTs fs fs' (sentTo memberId a.effects) := by
  obtain ⟨fs', hget', hdispatched⟩ := dispatchLoop_dispatched ctx minNextTs
    self.scoreBoard.keys self.scoreBoard.keys_nodup self env hget
  change (self.dispatchAcceptRequest ctx minNextTs env).state.scoreBoard.get? _ = _ at hget'
  change Dispatched ctx minNextTs fs fs' (sentTo memberId
    (self.dispatchAcceptRequest ctx minNextTs env).effects) at hdispatched
  refine ⟨fs', ?_, ?_⟩
  · rw [Attempt.andThen]
    cases (self.dispatchAcceptRequest ctx minNextTs env).fault with
    | some fault => exact hget'
    | none => exact (congrArg (AssocMap.get? · memberId) (hf _)).trans hget'
  · rw [Attempt.andThen]
    cases (self.dispatchAcceptRequest ctx minNextTs env).fault with
    | some fault => exact hdispatched
    | none =>
      show Dispatched ctx minNextTs fs fs' (sentTo memberId (_ ++ []))
      rw [List.append_nil]
      exact hdispatched

theorem handleClientWrite_moves (command : PaxosCommand ClientWriteRequest) :
    self.Moves ctx (.clientWriteRequestReceived command)
      (self.handleClientWrite command ctx env) := by
  intro memberId fs hget
  refine ⟨fs, hget, ?_⟩
  unfold handleClientWrite
  dsimp only
  split <;> exact .keeps

theorem handleWriteFlush_moves :
    self.Moves ctx .writeFlushTimerFired (self.handleWriteFlush ctx env) := by
  intro memberId fs hget
  unfold handleWriteFlush
  split
  · exact ⟨fs, hget, .keeps⟩
  · obtain ⟨fs', hget', hdispatched⟩ := self.dispatchThen_dispatched ctx env none
      (fun l => { l with pendingWriteCount := 0 }) (fun _ => rfl) hget
    exact ⟨fs', hget', .dispatches rfl (by simp) hdispatched⟩

theorem handleHeartbeatTimer_moves :
    self.Moves ctx .heartbeatTimerFired (self.handleHeartbeatTimer ctx env) := by
  intro memberId fs hget
  unfold handleHeartbeatTimer
  dsimp only
  obtain ⟨fs', hget', hdispatched⟩ := self.dispatchThen_dispatched
    (ctx.advanceTSafe (heartbeatTs ctx (env.clock 0) - Duration.milliseconds 1)) (env.skip 1)
    (some (heartbeatTs ctx (env.clock 0)))
    (fun l => { l with heartbeatCdClock := l.heartbeatCdClock.start }) (fun _ => rfl) hget
  exact ⟨fs', hget', .dispatches (ctx.advanceTSafe_wal _) (by simp) hdispatched⟩

/-- A timeout check clears the batches of the followers that have waited too long. -/
theorem handleAcceptTimeoutCheck_get? {memberId : Uuid} {fs : FollowerState}
    (hget : self.scoreBoard.get? memberId = some fs) :
    (self.handleAcceptTimeoutCheck env).scoreBoard.get? memberId =
      some (if isTimedOut (env.clock 0) fs then fs.clearInFlightBatches else fs) := by
  unfold handleAcceptTimeoutCheck
  dsimp only
  rw [AssocMap.get?_mapValues, hget]
  rfl

theorem handleAcceptTimeoutCheck_moves : self.Moves ctx .acceptTimeoutCheckFired
    (.ok (self.handleAcceptTimeoutCheck env, ctx)) := by
  intro memberId fs hget
  refine ⟨_, self.handleAcceptTimeoutCheck_get? env hget, ?_⟩
  split
  · exact .clears rfl
  · exact .keeps

/-- A commit shows the clients, and neither moves positions nor sends requests. -/
theorem sentTo_advanceCommit (memberId : Uuid) :
    sentTo memberId (self.advanceCommit ctx env).effects = [] := by
  rw [List.eq_nil_iff_forall_not_mem]
  intro request hmem
  exact self.advanceCommit_not_dispatch ctx env memberId request (Tenure.mem_sentTo.mp hmem)

theorem handleAcceptResponse_moves (response : AcceptResponse) :
    self.Moves ctx (.acceptResponseReceived response)
      (self.handleAcceptResponse response ctx env) := by
  intro memberId fs hget
  have hother : ∀ (fs' : FollowerState), memberId ≠ response.memberId →
      ((self.recordContact response).setFollower response.memberId fs').scoreBoard.get? memberId =
        some fs := by
    intro fs' hne
    show (self.scoreBoard.insert response.memberId fs').get? memberId = some fs
    rw [AssocMap.get?_insert, if_neg hne]
    exact hget
  have hself : ∀ (fs' : FollowerState), ((self.recordContact response).setFollower
      response.memberId fs').scoreBoard.get? response.memberId = some fs' := by
    intro fs'
    show (self.scoreBoard.insert response.memberId fs').get? response.memberId = some fs'
    rw [AssocMap.get?_insert, if_pos rfl]
  rcases self.handleAcceptResponse_cases response ctx env with
    ⟨_, h⟩ | ⟨_, _, fault, h⟩ |
      ⟨_, _, ⟨fault, h⟩ | ⟨fs₀, hsuccess, hget₀, hlt, h⟩ |
        ⟨fs₀, hint, hsuccess, hhint, hget₀, h⟩⟩
  · rw [h]
    exact ⟨fs, hget, .keeps⟩
  · rw [h]
    exact ⟨fs, hget, .keeps⟩
  · rw [h]
    exact ⟨fs, hget, .keeps⟩
  · rw [h, sentTo_advanceCommit, advanceCommit_scoreBoard]
    by_cases hsender : memberId = response.memberId
    · subst hsender
      cases Option.some.inj (hget₀.symm.trans hget)
      exact ⟨_, hself _, .matched response rfl rfl hsuccess hlt⟩
    · exact ⟨fs, hother _ hsender, .keeps⟩
  · rw [h]
    by_cases hsender : memberId = response.memberId
    · subst hsender
      cases Option.some.inj (hget₀.symm.trans hget)
      obtain ⟨fs', hget', hdispatched⟩ := dispatchAcceptRequestToFollower_self
        ((self.recordContact response).renewLease ctx) none env (hself _)
      exact ⟨fs', hget', .retries response hint rfl rfl hsuccess hhint
        (renewLease_wal _ ctx) hdispatched⟩
    · obtain ⟨hsame, hsent⟩ := dispatchAcceptRequestToFollower_other
        ((self.recordContact response).renewLease ctx) none
        ((self.recordContact response).setFollower response.memberId
          (backtrack ((self.recordContact response).renewLease ctx) hint fs₀)) env hsender
      refine ⟨fs, hsame.trans (hother _ hsender), ?_⟩
      rw [Attempt.map_effects, hsent]
      exact .keeps

end Leader
end SpannerPaxos
