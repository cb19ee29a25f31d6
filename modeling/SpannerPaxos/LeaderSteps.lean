import SpannerPaxos.StateMachine

/-! # What the leader's handlers do

Every accept request of a leader is made by `makeAcceptRequest` behind an anchor
of its own log (`IsDispatch`), and a dispatch changes nothing of the leader but
what it has sent (`SameStanding`).  The dispatch loop inherits both from its
body, so the handlers built on it need no induction of their own.  An accept
response is ignored, renews the lease, acknowledges a batch or moves the probe
(`handleAcceptResponse_cases`).
-/
namespace SpannerPaxos

@[simp] theorem FollowerState.recordSent_matchSlot (fs : FollowerState)
    (last : Option AcceptLogEntry) (tSend : DateTime) :
    (fs.recordSent last tSend).logPosition.matchSlot = fs.logPosition.matchSlot := by
  cases last <;> rfl

namespace Leader

/-- The match slot recorded for a follower. -/
def matchSlot? (self : Leader) (memberId : Uuid) : Option Nat :=
  (self.scoreBoard.get? memberId).map fun fs => fs.logPosition.matchSlot

/-- The two leaders agree on everything but what has been sent to whom. -/
structure SameStanding (l l' : Leader) : Prop where
  keys : l'.scoreBoard.keys = l.scoreBoard.keys
  matchSlot : ∀ memberId, l'.matchSlot? memberId = l.matchSlot? memberId
  lastContact : l'.lastContact = l.lastContact
  inFlightWrites : l'.inFlightWrites = l.inFlightWrites

namespace SameStanding
variable {l l' l'' : Leader}

theorem refl (l : Leader) : SameStanding l l := ⟨rfl, fun _ => rfl, rfl, rfl⟩

theorem trans (h : SameStanding l l') (h' : SameStanding l' l'') : SameStanding l l'' where
  keys := h'.keys.trans h.keys
  matchSlot memberId := (h'.matchSlot memberId).trans (h.matchSlot memberId)
  lastContact := h'.lastContact.trans h.lastContact
  inFlightWrites := h'.inFlightWrites.trans h.inFlightWrites

/-- Replacing the state of a follower that is on the board, match slot kept. -/
theorem of_insert {memberId : Uuid} {fs fs' : FollowerState}
    (hget : l.scoreBoard.get? memberId = some fs)
    (hmatch : fs'.logPosition.matchSlot = fs.logPosition.matchSlot) :
    SameStanding l { l with scoreBoard := l.scoreBoard.insert memberId fs' } where
  keys := AssocMap.keys_insert_of_mem _ (AssocMap.mem_keys_iff.mpr ⟨fs, hget⟩) _
  matchSlot q := by
    show ((l.scoreBoard.insert memberId fs').get? q).map _ = _
    rw [AssocMap.get?_insert, matchSlot?]
    split
    · rename_i hq
      rw [hq, hget]
      simp [hmatch]
    · rfl
  lastContact := rfl
  inFlightWrites := rfl

end SameStanding

/-- The effect is an accept request made in this context behind an anchor of the
log, with one of the clock readings. -/
def IsDispatch (ctx : PaxosSharedContext) (minNextTs : Option DateTime) (env : Env)
    (e : Effect) : Prop :=
  ∃ memberId prevLogSlot prevLogTerm i, prevLogTerm? ctx prevLogSlot = some prevLogTerm ∧
    e = .dispatchAccept memberId
      (makeAcceptRequest ctx prevLogSlot prevLogTerm minNextTs (env.clock i))

variable {ctx : PaxosSharedContext} {minNextTs : Option DateTime} {env : Env}

theorem IsDispatch.of_skip {n : Nat} {e : Effect} (h : IsDispatch ctx minNextTs (env.skip n) e) :
    IsDispatch ctx minNextTs env e := by
  obtain ⟨memberId, prevLogSlot, prevLogTerm, i, hanchor, he⟩ := h
  exact ⟨memberId, prevLogSlot, prevLogTerm, i + n, hanchor, he⟩

theorem dispatchAcceptRequestToFollower_spec (self : Leader) (ctx : PaxosSharedContext)
    (minNextTs : Option DateTime) (env : Env) (memberId : Uuid) :
    SameStanding self (self.dispatchAcceptRequestToFollower memberId ctx minNextTs env).state ∧
      ∀ e ∈ (self.dispatchAcceptRequestToFollower memberId ctx minNextTs env).effects,
        IsDispatch ctx minNextTs env e := by
  unfold dispatchAcceptRequestToFollower
  cases hget : self.scoreBoard.get? memberId with
  | none => exact ⟨.refl _, fun _ he => absurd he List.not_mem_nil⟩
  | some fs =>
    simp only
    cases hanchor : prevLogTerm? ctx fs.prevLogSlot with
    | none => exact ⟨.refl _, fun _ he => absurd he List.not_mem_nil⟩
    | some prevLogTerm =>
      simp only
      split
      · refine ⟨.of_insert hget (fs.recordSent_matchSlot _ _), ?_⟩
        intro e he
        rw [List.mem_singleton] at he
        exact ⟨memberId, fs.prevLogSlot, prevLogTerm, 0, hanchor, he⟩
      · exact ⟨.refl _, fun _ he => absurd he List.not_mem_nil⟩

theorem dispatchLoop_spec (memberIds : List Uuid) (self : Leader) (env : Env) :
    SameStanding self (dispatchLoop ctx minNextTs self memberIds env).state ∧
      ∀ e ∈ (dispatchLoop ctx minNextTs self memberIds env).effects,
        IsDispatch ctx minNextTs env e := by
  induction memberIds generalizing self env with
  | nil => exact ⟨.refl _, by simp [dispatchLoop, Attempt.ok]⟩
  | cons memberId memberIds ih =>
    obtain ⟨hsame, heff⟩ := self.dispatchAcceptRequestToFollower_spec ctx minNextTs
      env memberId
    exact Attempt.andThen_spec (P := SameStanding self) hsame heff fun l hl =>
      ⟨hl.trans (ih l (env.skip 1)).1, fun e he => ((ih l (env.skip 1)).2 e he).of_skip⟩

theorem dispatchAcceptRequest_spec (self : Leader) (ctx : PaxosSharedContext)
    (minNextTs : Option DateTime) (env : Env) :
    SameStanding self (self.dispatchAcceptRequest ctx minNextTs env).state ∧
      ∀ e ∈ (self.dispatchAcceptRequest ctx minNextTs env).effects,
        IsDispatch ctx minNextTs env e :=
  dispatchLoop_spec _ _ _

/-! ## Accept responses -/

/-- A response that is neither stale nor an unexplained failure. -/
def Heeds (response : AcceptResponse) (ctx : PaxosSharedContext) : Prop :=
  ctx.term ≤ response.term ∧ (response.success = true ∨ response.conflictHint ≠ none)

/-- The leader with a follower's state replaced. -/
def setFollower (self : Leader) (memberId : Uuid) (fs : FollowerState) : Leader :=
  { self with scoreBoard := self.scoreBoard.insert memberId fs }

/-- **The response handler.**  Stale and unexplained responses are ignored.  The
others count as a contact and, in a group of two or more, renew the lease; then
a first acknowledgement is recorded and may commit, and a hint moves the probe. -/
theorem handleAcceptResponse_cases (self : Leader) (response : AcceptResponse)
    (ctx : PaxosSharedContext) (env : Env) :
    (¬ Heeds response ctx ∧
      self.handleAcceptResponse response ctx env = .ok (self, ctx)) ∨
    (Heeds response ctx ∧ ctx.getQuorumSize < 2 ∧ ∃ fault,
      self.handleAcceptResponse response ctx env =
        ⟨(self.recordContact response, ctx), [], some fault⟩) ∨
    (Heeds response ctx ∧ 2 ≤ ctx.getQuorumSize ∧
      ((∃ fault, self.handleAcceptResponse response ctx env =
          ⟨(self.recordContact response, (self.recordContact response).renewLease ctx), [],
            fault⟩) ∨
        (∃ fs, response.success = true ∧ self.scoreBoard.get? response.memberId = some fs ∧
          fs.logPosition.matchSlot < response.lastWrittenSlot ∧
          self.handleAcceptResponse response ctx env =
            ((self.recordContact response).setFollower response.memberId
              (fs.recordMatch response.lastWrittenSlot)).advanceCommit
              ((self.recordContact response).renewLease ctx) env) ∨
        (∃ fs hint, response.success = false ∧ response.conflictHint = some hint ∧
          self.scoreBoard.get? response.memberId = some fs ∧
          self.handleAcceptResponse response ctx env =
            (((self.recordContact response).setFollower response.memberId
              (backtrack ((self.recordContact response).renewLease ctx) hint
                fs)).dispatchAcceptRequestToFollower response.memberId
              ((self.recordContact response).renewLease ctx) none env).map
              fun l => (l, (self.recordContact response).renewLease ctx)))) := by
  unfold handleAcceptResponse
  dsimp only
  split
  · rename_i hstale
    exact Or.inl ⟨fun h => absurd h.1 (by omega), rfl⟩
  rename_i hterm
  split
  · rename_i hnohint
    refine Or.inl ⟨fun h => ?_, rfl⟩
    rcases h.2 with hs | hh
    · exact hnohint.1 hs
    · exact hh hnohint.2
  rename_i hhint
  have hheeds : Heeds response ctx := by
    refine ⟨by omega, ?_⟩
    by_cases hs : response.success = true
    · exact Or.inl hs
    · exact Or.inr fun h => hhint ⟨hs, h⟩
  refine Or.inr ?_
  split
  · rename_i hq
    exact Or.inl ⟨hheeds, hq, _, rfl⟩
  rename_i hq
  refine Or.inr ⟨hheeds, by omega, ?_⟩
  have hboard : (self.recordContact response).scoreBoard = self.scoreBoard := rfl
  simp only [hboard]
  split
  · rename_i hs
    cases hget : self.scoreBoard.get? response.memberId with
    | none => exact Or.inl ⟨_, rfl⟩
    | some fs =>
      simp only
      split
      · rename_i hnew
        exact Or.inr (Or.inl ⟨fs, hs, rfl, hnew, rfl⟩)
      · exact Or.inl ⟨_, rfl⟩
  · rename_i hs
    cases hh : response.conflictHint with
    | none => exact Or.inl ⟨_, rfl⟩
    | some hint =>
      cases hget : self.scoreBoard.get? response.memberId with
      | none => exact Or.inl ⟨_, rfl⟩
      | some fs => exact Or.inr (Or.inr ⟨fs, hint, by simpa using hs, rfl, rfl, rfl⟩)

/-! ## What the handlers keep of the context -/

variable (self : Leader) (ctx : PaxosSharedContext) (env : Env)

theorem renewLease_sameMember : ctx.SameMember (self.renewLease ctx) := by
  unfold renewLease
  cases self.contactTimes[ctx.getQuorumSize - 2]? with
  | none => exact .refl ctx
  | some tQuorum =>
    cases hlease : ctx.leaseExpiry with
    | none => exact .updateLease ctx _
    | some current =>
      simp only
      split
      · exact .updateLease ctx _
      · exact .refl ctx

theorem advanceCommit_sameMember : ctx.SameMember (self.advanceCommit ctx env).state.2 := by
  unfold advanceCommit
  dsimp only
  split
  · exact .commitTo ctx _
  · exact .refl ctx

theorem handleAcceptResponse_sameMember (response : AcceptResponse) :
    ctx.SameMember (self.handleAcceptResponse response ctx env).state.2 := by
  have hrenew := (self.recordContact response).renewLease_sameMember ctx
  rcases self.handleAcceptResponse_cases response ctx env with
    ⟨_, h⟩ | ⟨_, _, fault, h⟩ |
      ⟨_, _, ⟨fault, h⟩ | ⟨fs, _, _, _, h⟩ | ⟨fs, hint, _, _, _, h⟩⟩
  · rw [h]
    exact .refl ctx
  · rw [h]
    exact .refl ctx
  · rw [h]
    exact hrenew
  · rw [h]
    exact hrenew.trans (advanceCommit_sameMember _ _ _)
  · rw [h]
    exact hrenew

theorem processUncommittedLogs_sameMember :
    ctx.SameMember (self.processUncommittedLogs ctx env).state.2 := by
  unfold processUncommittedLogs
  dsimp only
  split <;> exact ⟨rfl, rfl, rfl, id⟩

/-! ## What the handlers send -/

/-- A request made in this context behind an anchor of the log. -/
def Sent (ctx : PaxosSharedContext) (minNextTs : Option DateTime) (request : AcceptRequest) :
    Prop :=
  ∃ prevLogSlot prevLogTerm utc, prevLogTerm? ctx prevLogSlot = some prevLogTerm ∧
    request = makeAcceptRequest ctx prevLogSlot prevLogTerm minNextTs utc

/-- What a request is made of: two contexts that agree on it make the same
requests. -/
theorem Sent.congr {ctx ctx' : PaxosSharedContext} {minNextTs : Option DateTime}
    {request : AcceptRequest} (h : Sent ctx' minNextTs request) (hsame : ctx.SameMember ctx')
    (hwal : ctx'.wal = ctx.wal) (hcommitted : ctx'.committedSlot = ctx.committedSlot) :
    Sent ctx minNextTs request := by
  obtain ⟨prevLogSlot, prevLogTerm, utc, hanchor, rfl⟩ := h
  refine ⟨prevLogSlot, prevLogTerm, utc, ?_, ?_⟩
  · rwa [prevLogTerm?, hwal] at hanchor
  · simp only [makeAcceptRequest, hsame.term, hsame.memberId, hwal, hcommitted]

theorem IsDispatch.sent {ctx : PaxosSharedContext} {minNextTs : Option DateTime} {env : Env}
    {memberId : Uuid} {request : AcceptRequest}
    (h : IsDispatch ctx minNextTs env (.dispatchAccept memberId request)) :
    Sent ctx minNextTs request := by
  obtain ⟨_, prevLogSlot, prevLogTerm, i, hanchor, he⟩ := h
  cases he
  exact ⟨prevLogSlot, prevLogTerm, env.clock i, hanchor, rfl⟩

/-- A method that leaves the log alone, whose accept requests are made from it and
promise `minNextTs`. -/
structure Replicates (ctx : PaxosSharedContext) (minNextTs : Option DateTime)
    (a : Attempt (Leader × PaxosSharedContext)) : Prop where
  wal : a.state.2.wal = ctx.wal
  lastLogSlot : a.state.2.lastLogSlot = ctx.lastLogSlot
  same : ctx.SameMember a.state.2
  sent : ∀ memberId request, Effect.dispatchAccept memberId request ∈ a.effects →
    Sent ctx minNextTs request

theorem renewLease_eq (self : Leader) (ctx : PaxosSharedContext) :
    self.renewLease ctx = { ctx with leaseExpiry := (self.renewLease ctx).leaseExpiry } := by
  unfold renewLease
  cases self.contactTimes[ctx.getQuorumSize - 2]? with
  | none => rfl
  | some tQuorum =>
    cases hlease : ctx.leaseExpiry with
    | none => rfl
    | some current =>
      simp only
      split <;> rfl

section
variable (self : Leader) (ctx : PaxosSharedContext)

@[simp] theorem renewLease_wal : (self.renewLease ctx).wal = ctx.wal := by rw [renewLease_eq]

@[simp] theorem renewLease_lastLogSlot : (self.renewLease ctx).lastLogSlot = ctx.lastLogSlot := by
  rw [renewLease_eq]

@[simp] theorem renewLease_committedSlot :
    (self.renewLease ctx).committedSlot = ctx.committedSlot := by
  rw [renewLease_eq]

@[simp] theorem renewLease_uncommittedLogs :
    (self.renewLease ctx).uncommittedLogs = ctx.uncommittedLogs := by
  rw [renewLease_eq]

end

/-- Dispatching and then changing what the board does not know about. -/
theorem dispatchThen_spec (self : Leader) (ctx : PaxosSharedContext)
    (minNextTs : Option DateTime) (env : Env) (f : Leader → Leader)
    (hf : ∀ l, SameStanding l (f l)) :
    SameStanding self
        ((self.dispatchAcceptRequest ctx minNextTs env).andThen fun l => .ok (f l)).state ∧
      ∀ e ∈ ((self.dispatchAcceptRequest ctx minNextTs env).andThen fun l => .ok (f l)).effects,
        IsDispatch ctx minNextTs env e := by
  obtain ⟨hsame, heff⟩ := self.dispatchAcceptRequest_spec ctx minNextTs env
  exact Attempt.andThen_spec (P := SameStanding self) hsame heff fun l hl =>
    ⟨hl.trans (hf l), fun _ he => absurd he List.not_mem_nil⟩

theorem handleWriteFlush_ctx : (self.handleWriteFlush ctx env).state.2 = ctx := by
  unfold handleWriteFlush
  split <;> rfl

theorem handleWriteFlush_replicates : Replicates ctx none (self.handleWriteFlush ctx env) := by
  unfold handleWriteFlush
  split
  · exact ⟨rfl, rfl, .refl ctx, fun _ _ he => absurd he List.not_mem_nil⟩
  · refine ⟨rfl, rfl, .refl ctx, ?_⟩
    intro memberId request he
    exact ((self.dispatchThen_spec ctx none env (fun l => { l with pendingWriteCount := 0 })
      fun l => ⟨rfl, fun _ => rfl, rfl, rfl⟩).2 _ he).sent

theorem handleAcceptTimeoutCheck_replicates :
    Replicates ctx none (.ok (self.handleAcceptTimeoutCheck env, ctx)) :=
  ⟨rfl, rfl, .refl ctx, fun _ _ he => absurd he List.not_mem_nil⟩

theorem handleHeartbeatTimer_replicates :
    Replicates ctx (some (heartbeatTs ctx (env.clock 0))) (self.handleHeartbeatTimer ctx env) := by
  unfold handleHeartbeatTimer
  dsimp only
  refine ⟨ctx.advanceTSafe_wal _, ctx.advanceTSafe_lastLogSlot _, .advanceTSafe ctx _, ?_⟩
  intro memberId request he
  exact (((self.dispatchThen_spec _ _ _
    (fun l => { l with heartbeatCdClock := l.heartbeatCdClock.start })
    fun l => ⟨rfl, fun _ => rfl, rfl, rfl⟩).2 _ he).sent).congr (.advanceTSafe ctx _)
      (ctx.advanceTSafe_wal _) (ctx.advanceTSafe_committedSlot _)

/-- The answers to clients are all that a commit shows. -/
theorem replyCommitted_effects (writes : List (DateTime × PaxosCommand ClientWriteRequest))
    (env : Env) : ∀ e ∈ (replyCommitted writes env).effects, ∃ tx r, e = .clientReply tx r := by
  induction writes generalizing env with
  | nil => exact List.forall_mem_nil _
  | cons w rest ih =>
    unfold replyCommitted
    split
    · exact (Attempt.andThen_spec (P := fun _ => True) trivial
        (fun e he => ⟨_, _, eq_of_mem_sendIgnoring he⟩) fun _ _ => ⟨trivial, ih (env.skip 1)⟩).2
    · exact List.forall_mem_nil _

theorem advanceCommit_effects :
    ∀ e ∈ (self.advanceCommit ctx env).effects, ∃ tx r, e = .clientReply tx r := by
  unfold advanceCommit
  dsimp only
  split
  · exact replyCommitted_effects _ _
  · exact List.forall_mem_nil _

theorem advanceCommit_not_dispatch (memberId : Uuid) (request : AcceptRequest) :
    Effect.dispatchAccept memberId request ∉ (self.advanceCommit ctx env).effects := by
  intro he
  obtain ⟨tx, r, h⟩ := self.advanceCommit_effects ctx env _ he
  cases h

theorem advanceCommit_ctx : (self.advanceCommit ctx env).state.2 = ctx ∨
    ∃ slot, (self.advanceCommit ctx env).state.2 = ctx.commitTo slot ∧ ctx.committedSlot < slot ∧
      slot = self.minQuorumSlot ctx := by
  unfold advanceCommit
  dsimp only
  split
  · rename_i hslot
    exact Or.inr ⟨_, rfl, hslot, rfl⟩
  · exact Or.inl rfl

/-- A quorum slot is in the leader's own log. -/
theorem minQuorumSlot_le : self.minQuorumSlot ctx ≤ ctx.lastLogSlot := by
  unfold minQuorumSlot
  cases hmin : (self.followerSlots.take (ctx.getQuorumSize - 1) ++ [ctx.lastLogSlot]).min? with
  | none => exact Nat.zero_le _
  | some slot => exact (List.min?_eq_some_iff.mp hmin).2 _ (by simp)

/-- **What a response does to the context**: a new lease, and behind it perhaps a
commit of a slot of the leader's log. -/
theorem handleAcceptResponse_ctx (response : AcceptResponse) :
    ∃ lease, (self.handleAcceptResponse response ctx env).state.2 =
        { ctx with leaseExpiry := lease } ∨
      ∃ slot, ctx.committedSlot < slot ∧ slot ≤ ctx.lastLogSlot ∧
        (self.handleAcceptResponse response ctx env).state.2 =
          { ctx with leaseExpiry := lease }.commitTo slot := by
  have hrenew := (self.recordContact response).renewLease_eq ctx
  rcases self.handleAcceptResponse_cases response ctx env with
    ⟨_, h⟩ | ⟨_, _, fault, h⟩ |
      ⟨_, _, ⟨fault, h⟩ | ⟨fs, _, _, _, h⟩ | ⟨fs, hint, _, _, _, h⟩⟩
  · exact ⟨ctx.leaseExpiry, Or.inl (by rw [h]; rfl)⟩
  · exact ⟨ctx.leaseExpiry, Or.inl (by rw [h])⟩
  · exact ⟨_, Or.inl (by rw [h]; exact hrenew)⟩
  · refine ⟨((self.recordContact response).renewLease ctx).leaseExpiry, ?_⟩
    rw [h, ← hrenew]
    rcases advanceCommit_ctx _ _ env with hctx | ⟨slot, hctx, hlt, hslot⟩
    · exact Or.inl hctx
    · refine Or.inr ⟨slot, ?_, ?_, hctx⟩
      · rwa [renewLease_committedSlot] at hlt
      · have hle := minQuorumSlot_le ((self.recordContact response).setFollower
          response.memberId (fs.recordMatch response.lastWrittenSlot))
          ((self.recordContact response).renewLease ctx)
        rw [renewLease_lastLogSlot] at hle
        omega
  · exact ⟨_, Or.inl (by rw [h]; exact hrenew)⟩

theorem handleAcceptResponse_replicates (response : AcceptResponse) :
    Replicates ctx none (self.handleAcceptResponse response ctx env) := by
  have hrenew := (self.recordContact response).renewLease_sameMember ctx
  have hwal := (self.recordContact response).renewLease_wal ctx
  have hlast := (self.recordContact response).renewLease_lastLogSlot ctx
  have hsame := self.handleAcceptResponse_sameMember ctx env response
  rcases self.handleAcceptResponse_cases response ctx env with
    ⟨_, h⟩ | ⟨_, _, fault, h⟩ |
      ⟨_, _, ⟨fault, h⟩ | ⟨fs, _, _, _, h⟩ | ⟨fs, hint, _, _, _, h⟩⟩
  · rw [h] at hsame ⊢
    exact ⟨rfl, rfl, hsame, fun _ _ he => absurd he List.not_mem_nil⟩
  · rw [h] at hsame ⊢
    exact ⟨rfl, rfl, hsame, fun _ _ he => absurd he List.not_mem_nil⟩
  · rw [h] at hsame ⊢
    exact ⟨hwal, hlast, hsame, fun _ _ he => absurd he List.not_mem_nil⟩
  · rw [h] at hsame ⊢
    refine ⟨?_, ?_, hsame, fun _ _ he => absurd he (advanceCommit_not_dispatch _ _ _ _ _)⟩
    · rcases advanceCommit_ctx _ _ env with hctx | ⟨slot, hctx, _⟩
      · rw [hctx, hwal]
      · rw [hctx, PaxosSharedContext.commitTo_wal, hwal]
    · rcases advanceCommit_ctx _ _ env with hctx | ⟨slot, hctx, _⟩
      · rw [hctx, hlast]
      · rw [hctx, PaxosSharedContext.commitTo_lastLogSlot, hlast]
  · rw [h] at hsame ⊢
    refine ⟨hwal, hlast, hsame, ?_⟩
    intro memberId request he
    exact ((dispatchAcceptRequestToFollower_spec _ _ _ _ response.memberId).2 _ he).sent.congr
      hrenew hwal ((self.recordContact response).renewLease_committedSlot ctx)

/-! ## What the handlers do to the match slots -/

theorem handleWriteFlush_standing : SameStanding self (self.handleWriteFlush ctx env).state.1 := by
  unfold handleWriteFlush
  split
  · exact .refl self
  · exact (self.dispatchThen_spec ctx none env (fun l => { l with pendingWriteCount := 0 })
      fun _ => ⟨rfl, fun _ => rfl, rfl, rfl⟩).1

theorem handleHeartbeatTimer_standing :
    SameStanding self (self.handleHeartbeatTimer ctx env).state.1 :=
  (self.dispatchThen_spec _ _ _ (fun l => { l with heartbeatCdClock := l.heartbeatCdClock.start })
    fun _ => ⟨rfl, fun _ => rfl, rfl, rfl⟩).1

theorem handleAcceptTimeoutCheck_standing :
    SameStanding self (self.handleAcceptTimeoutCheck env) := by
  refine ⟨AssocMap.keys_mapValues _ _, ?_, rfl, rfl⟩
  intro p
  unfold matchSlot? handleAcceptTimeoutCheck
  dsimp only
  rw [AssocMap.get?_mapValues]
  cases self.scoreBoard.get? p with
  | none => rfl
  | some fs =>
    simp only [Option.map_some]
    split <;> rfl

theorem matchSlot?_setFollower (p q : Uuid) (fs : FollowerState) :
    (self.setFollower p fs).matchSlot? q =
      if q = p then some fs.logPosition.matchSlot else self.matchSlot? q := by
  unfold matchSlot? setFollower
  dsimp only
  rw [AssocMap.get?_insert]
  split <;> rfl

theorem advanceCommit_scoreBoard :
    (self.advanceCommit ctx env).state.1.scoreBoard = self.scoreBoard := by
  unfold advanceCommit
  dsimp only
  split <;> rfl

/-- **Only an acknowledgement moves a match slot**, to the slot it acknowledges. -/
theorem handleAcceptResponse_matchSlot (response : AcceptResponse) {q : Uuid} {m : Nat}
    (h : (self.handleAcceptResponse response ctx env).state.1.matchSlot? q = some m) :
    self.matchSlot? q = some m ∨
      q = response.memberId ∧ response.success = true ∧ m = response.lastWrittenSlot := by
  rcases self.handleAcceptResponse_cases response ctx env with
    ⟨_, heq⟩ | ⟨_, _, fault, heq⟩ |
      ⟨_, _, ⟨fault, heq⟩ | ⟨fs, hsuccess, _, _, heq⟩ | ⟨fs, hint, _, _, hget, heq⟩⟩
  · rw [heq] at h
    exact Or.inl h
  · rw [heq] at h
    exact Or.inl h
  · rw [heq] at h
    exact Or.inl h
  · rw [heq, matchSlot?, advanceCommit_scoreBoard, ← matchSlot?, matchSlot?_setFollower] at h
    split at h
    · rename_i hq
      exact Or.inr ⟨hq, hsuccess, (Option.some.inj h).symm⟩
    · exact Or.inl h
  · rw [heq] at h
    have hsame := ((((self.recordContact response).setFollower response.memberId
      (backtrack ((self.recordContact response).renewLease ctx) hint
        fs)).dispatchAcceptRequestToFollower_spec ((self.recordContact response).renewLease ctx)
        none env response.memberId).1).matchSlot q
    rw [Attempt.map_state, hsame, matchSlot?_setFollower] at h
    split at h
    · rename_i hq
      refine Or.inl ?_
      rw [matchSlot?, hq, hget]
      exact h
    · exact Or.inl h

end Leader
end SpannerPaxos
