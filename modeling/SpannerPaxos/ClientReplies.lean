import SpannerPaxos.CommitQuorum
import SpannerPaxos.LeaseSteps

/-! # What clients are told

A Leader keeps every write it accepts with the timestamp it has given it, until a
commit reaches the write's slot.  Then the client gets its answer, behind a commit
wait for that timestamp.  `WriteMove` says what an event does to the pending writes;
nothing but a commit tells a client that its write has succeeded.
-/
namespace SpannerPaxos

/-- The channels on which a write is answered with success. -/
def acknowledged (effects : List Effect) : List ReplyChannel :=
  effects.filterMap fun
    | .clientReply tx response => if response.success then some tx else none
    | _ => none

@[simp] theorem acknowledged_nil : acknowledged [] = [] := rfl

@[simp] theorem acknowledged_append (effects effects' : List Effect) :
    acknowledged (effects ++ effects') = acknowledged effects ++ acknowledged effects' :=
  List.filterMap_append

/-- The effect tells a client that its write has succeeded. -/
def Effect.tellsSuccess : Effect → Bool
  | .clientReply _ response => response.success
  | _ => false

theorem acknowledged_eq_nil_iff {effects : List Effect} :
    acknowledged effects = [] ↔ ∀ e ∈ effects, e.tellsSuccess = false := by
  rw [acknowledged, List.filterMap_eq_nil_iff]
  refine forall₂_congr fun e _ => ?_
  cases e with
  | clientReply tx response => simp [Effect.tellsSuccess]
  | _ => simp [Effect.tellsSuccess]

/-- Answers to other members tell no client anything. -/
theorem acknowledged_of_peerReplies {effects : List Effect}
    (h : ∀ e ∈ effects, e.isPeerReply = true) : acknowledged effects = [] := by
  refine acknowledged_eq_nil_iff.mpr fun e he => ?_
  have hpeer := h e he
  cases e with
  | clientReply tx response => cases hpeer
  | _ => rfl

/-- The channels of the writes that someone still waits for. -/
def awaited (writes : List (DateTime × PaxosCommand ClientWriteRequest)) : List ReplyChannel :=
  (writes.map fun w => w.2.responseTx).filter ReplyChannel.receiverAlive

theorem acknowledged_sendIgnoring (tx : ReplyChannel) :
    acknowledged (sendIgnoring tx (.clientReply tx ⟨true, none⟩)) =
      [tx].filter ReplyChannel.receiverAlive := by
  unfold sendIgnoring
  cases halive : tx.receiverAlive with
  | false => simp [halive]
  | true => simp [halive, acknowledged]

namespace Leader

/-- **Behind the commit wait.**  A client is answered only when its timestamp is past. -/
theorem mem_acknowledged_replyCommitted {tx : ReplyChannel}
    (writes : List (DateTime × PaxosCommand ClientWriteRequest)) (env : Env)
    (h : tx ∈ acknowledged (replyCommitted writes env).effects) :
    ∃ w ∈ writes, w.2.responseTx = tx ∧ ∃ i, TrueTime.commitWait w.1 (env.clock i) = true := by
  induction writes generalizing env with
  | nil => cases h
  | cons w rest ih =>
    unfold replyCommitted at h
    split at h
    · rename_i hwait
      rw [Attempt.andThen, acknowledged_append, acknowledged_sendIgnoring] at h
      rcases List.mem_append.mp h with hfirst | hrest
      · obtain ⟨hmem, _⟩ := List.mem_filter.mp hfirst
        exact ⟨w, List.mem_cons_self, (List.mem_singleton.mp hmem).symm, 0, hwait⟩
      · obtain ⟨w', hw', htx, i, hi⟩ := ih (env.skip 1) hrest
        exact ⟨w', List.mem_cons_of_mem _ hw', htx, i + 1, hi⟩
    · cases h

/-- When every commit wait has ended, everyone who waits is answered, in slot order. -/
theorem acknowledged_replyCommitted
    (writes : List (DateTime × PaxosCommand ClientWriteRequest)) (env : Env)
    (h : (replyCommitted writes env).fault = none) :
    acknowledged (replyCommitted writes env).effects = awaited writes := by
  induction writes generalizing env with
  | nil => rfl
  | cons w rest ih =>
    unfold replyCommitted at h ⊢
    split at h
    · rename_i hwait
      rw [if_pos hwait, Attempt.andThen, acknowledged_append, acknowledged_sendIgnoring,
        ih (env.skip 1) h, awaited, awaited, ← List.filter_append]
      rfl
    · cases h

/-- Accept requests are no answers. -/
theorem IsDispatch.acknowledged_eq_nil {ctx : PaxosSharedContext} {minNextTs : Option DateTime}
    {env : Env} {effects : List Effect} (h : ∀ e ∈ effects, IsDispatch ctx minNextTs env e) :
    acknowledged effects = [] := by
  refine acknowledged_eq_nil_iff.mpr fun e he => ?_
  obtain ⟨_, _, _, _, _, rfl⟩ := h e he
  rfl

variable (self : Leader) (ctx : PaxosSharedContext) (env : Env)

/-- The writes that a commit of `slot` settles. -/
def settled (slot : Nat) : OrderedMap Nat (DateTime × PaxosCommand ClientWriteRequest) :=
  self.inFlightWrites.filterKeys fun s => decide (s < slot + 1)

/-- The writes that a commit of `slot` leaves pending. -/
def unsettled (slot : Nat) : OrderedMap Nat (DateTime × PaxosCommand ClientWriteRequest) :=
  self.inFlightWrites.filterKeys fun s => decide (slot + 1 ≤ s)

theorem acknowledged_handleClientWrite (command : PaxosCommand ClientWriteRequest) :
    acknowledged (self.handleClientWrite command ctx env).effects = [] := by
  unfold handleClientWrite
  dsimp only
  split <;> rfl

theorem acknowledged_handleWriteFlush :
    acknowledged (self.handleWriteFlush ctx env).effects = [] := by
  unfold handleWriteFlush
  split
  · rfl
  · exact IsDispatch.acknowledged_eq_nil (self.dispatchThen_spec ctx none env
      (fun l => { l with pendingWriteCount := 0 }) fun _ => ⟨rfl, fun _ => rfl, rfl, rfl⟩).2

theorem acknowledged_handleHeartbeatTimer :
    acknowledged (self.handleHeartbeatTimer ctx env).effects = [] :=
  IsDispatch.acknowledged_eq_nil (self.dispatchThen_spec _ _ _
    (fun l => { l with heartbeatCdClock := l.heartbeatCdClock.start })
    fun _ => ⟨rfl, fun _ => rfl, rfl, rfl⟩).2

/-- **What an event does to the pending writes.**  A client write takes the next slot
and goes in flight, a commit settles the writes it reaches, and everything else leaves
them alone. -/
inductive WriteMove (self : Leader) (ctx : PaxosSharedContext) (env : Env) :
    PaxosEvent → Leader → PaxosSharedContext → List Effect → Prop
  | accepts (command : PaxosCommand ClientWriteRequest) {l' : Leader} {ctx' : PaxosSharedContext}
      {effects : List Effect}
      (hwrites : l'.inFlightWrites = self.inFlightWrites.insert (ctx.lastLogSlot + 1)
        ((TrueTime.now (env.clock 0)).latest, command))
      (hentry : ctx'.wal.get? (ctx.lastLogSlot + 1) = some ⟨ctx.term, ctx.lastLogSlot + 1,
        command.request.value, (TrueTime.now (env.clock 0)).latest⟩)
      (hslot : ctx'.lastLogSlot = ctx.lastLogSlot + 1)
      (hcommitted : ctx'.committedSlot = ctx.committedSlot)
      (hkeys : l'.scoreBoard.keys = self.scoreBoard.keys)
      (hquiet : acknowledged effects = []) :
      WriteMove self ctx env (.clientWriteRequestReceived command) l' ctx' effects
  | commits (response : AcceptResponse) {l' : Leader} {ctx' : PaxosSharedContext}
      {effects : List Effect}
      (hlt : ctx.committedSlot < ctx'.committedSlot)
      (hwrites : l'.inFlightWrites = self.unsettled ctx'.committedSlot)
      (hslot : ctx'.lastLogSlot = ctx.lastLogSlot)
      (hquorum : ctx'.committedSlot = l'.minQuorumSlot ctx') (hsize : 2 ≤ ctx.getQuorumSize)
      (hkeys : l'.scoreBoard.keys = self.scoreBoard.keys)
      (hanswered : acknowledged effects = awaited (self.settled ctx'.committedSlot).values) :
      WriteMove self ctx env (.acceptResponseReceived response) l' ctx' effects
  | keeps {event : PaxosEvent} {l' : Leader} {ctx' : PaxosSharedContext} {effects : List Effect}
      (hevent : ∀ command, event ≠ .clientWriteRequestReceived command)
      (hwrites : l'.inFlightWrites = self.inFlightWrites)
      (hslot : ctx'.lastLogSlot = ctx.lastLogSlot)
      (hcommitted : ctx'.committedSlot = ctx.committedSlot)
      (hkeys : l'.scoreBoard.keys = self.scoreBoard.keys)
      (hquiet : acknowledged effects = []) :
      WriteMove self ctx env event l' ctx' effects

/-- The part of a response that can commit settles the writes up to the new commit
point, or there is none. -/
theorem advanceCommit_writeMove (self : Leader) (ctx : PaxosSharedContext) (env : Env)
    (response : AcceptResponse) (hsize : 2 ≤ ctx.getQuorumSize)
    (h : (self.advanceCommit ctx env).fault = none) :
    WriteMove self ctx env (.acceptResponseReceived response) (self.advanceCommit ctx env).state.1
      (self.advanceCommit ctx env).state.2 (self.advanceCommit ctx env).effects := by
  unfold advanceCommit at h ⊢
  dsimp only at h ⊢
  by_cases hlt : self.minQuorumSlot ctx > ctx.committedSlot
  · rw [if_pos hlt] at h ⊢
    have hcommit := ctx.commitTo_committedSlot (self.minQuorumSlot ctx)
    refine .commits response ?_ ?_ (ctx.commitTo_lastLogSlot _) ?_ hsize rfl ?_
    · rw [Attempt.map_state, hcommit]
      exact hlt
    · rw [Attempt.map_state, hcommit]
      rfl
    · rw [Attempt.map_state, hcommit, PaxosSharedContext.commitTo_eq]
      rfl
    · rw [Attempt.map_state, hcommit]
      exact acknowledged_replyCommitted _ _ h
  · rw [if_neg hlt]
    exact .keeps (by simp) rfl rfl rfl rfl rfl

/-- **What an accept response does to the pending writes.** -/
theorem handleAcceptResponse_writeMove (response : AcceptResponse)
    (h : (self.handleAcceptResponse response ctx env).fault = none) :
    WriteMove self ctx env (.acceptResponseReceived response)
      (self.handleAcceptResponse response ctx env).state.1
      (self.handleAcceptResponse response ctx env).state.2
      (self.handleAcceptResponse response ctx env).effects := by
  have hcommitted := (self.recordContact response).renewLease_committedSlot ctx
  have hlast := (self.recordContact response).renewLease_lastLogSlot ctx
  have hkeys := self.handleAcceptResponse_keys ctx env response
  rcases self.handleAcceptResponse_cases response ctx env with
    ⟨_, heq⟩ | ⟨_, _, fault, heq⟩ |
      ⟨_, hsize, ⟨fault, heq⟩ | ⟨fs, _, _, _, heq⟩ | ⟨fs, hint, _, _, _, heq⟩⟩
  · -- the response is not heeded
    rw [heq]
    exact .keeps (by simp) rfl rfl rfl rfl rfl
  · rw [heq]
    exact .keeps (by simp) rfl rfl rfl rfl rfl
  · -- it changes the lease, and no log position
    rw [heq]
    exact .keeps (by simp) rfl hlast hcommitted rfl rfl
  · -- it acknowledges more than was known, so a commit may follow
    rw [heq] at h hkeys ⊢
    have hsize' : 2 ≤ ((self.recordContact response).renewLease ctx).getQuorumSize := by
      rw [renewLease_eq]
      exact hsize
    cases advanceCommit_writeMove _ _ env response hsize' h with
    | commits _ hlt hwrites hslot hquorum _ _ hanswered =>
      rw [hcommitted] at hlt
      exact .commits response hlt hwrites (hslot.trans hlast) hquorum hsize hkeys hanswered
    | keeps hevent hwrites hslot hcommit _ hquiet =>
      exact .keeps hevent hwrites (hslot.trans hlast) (hcommit.trans hcommitted) hkeys hquiet
  · -- it reports a conflict, and the follower is sent an earlier batch
    rw [heq] at hkeys ⊢
    have hspec := dispatchAcceptRequestToFollower_spec
      ((self.recordContact response).setFollower response.memberId
        (backtrack ((self.recordContact response).renewLease ctx) hint fs))
      ((self.recordContact response).renewLease ctx) none env response.memberId
    exact .keeps (by simp) hspec.1.inFlightWrites hlast hcommitted hkeys
      (IsDispatch.acknowledged_eq_nil hspec.2)

theorem handleClientWrite_writeMove (command : PaxosCommand ClientWriteRequest) :
    WriteMove self ctx env (.clientWriteRequestReceived command)
      (self.handleClientWrite command ctx env).state.1
      (self.handleClientWrite command ctx env).state.2
      (self.handleClientWrite command ctx env).effects := by
  refine .accepts command rfl ?_ rfl rfl rfl (self.acknowledged_handleClientWrite ctx env command)
  exact (WriteAheadLog.get?_append _ _ _).trans (if_pos rfl)

/-- **What an event does to the pending writes of a Leader that stays.** -/
theorem handleEvent_writeMove {self l' : Leader} {event : PaxosEvent} {ctx : PaxosSharedContext}
    {env : Env} (h : (self.handleEvent event ctx env).result = .ok (.leader l')) :
    WriteMove self ctx env event l' (self.handleEvent event ctx env).ctx
      (self.handleEvent event ctx env).effects := by
  rcases self.leads_or_quiet event ctx env with ⟨a, hleads, heq⟩ | ⟨hquiet, hstays⟩
  · rw [heq] at h ⊢
    have hleader := PaxosState.leader.inj (stay_result h)
    have hfault : a.fault = none := by
      cases hfault : a.fault with
      | none => rfl
      | some fault =>
        rw [handleEvent.stay, Attempt.toOutcome, Attempt.map, hfault] at h
        cases h
    rw [hleader, handleEvent.stay, Attempt.toOutcome_ctx, Attempt.map_state,
      Attempt.toOutcome_effects, Attempt.map_effects]
    cases hleads with
    | heeds response => exact self.handleAcceptResponse_writeMove ctx env response hfault
    | writes command => exact self.handleClientWrite_writeMove ctx env command
    | flushes =>
      have hstanding := self.handleWriteFlush_standing ctx env
      have hctx := self.handleWriteFlush_ctx ctx env
      exact .keeps (by simp) hstanding.inFlightWrites (by rw [hctx]) (by rw [hctx]) hstanding.keys
        (self.acknowledged_handleWriteFlush ctx env)
    | beats =>
      have hstanding := self.handleHeartbeatTimer_standing ctx env
      exact .keeps (by simp) hstanding.inFlightWrites (ctx.advanceTSafe_lastLogSlot _)
        (ctx.advanceTSafe_committedSlot _) hstanding.keys
        (self.acknowledged_handleHeartbeatTimer ctx env)
  · obtain ⟨hctx, hrests⟩ := hstays l' h
    have hstanding := hrests.standing
    rw [hctx]
    refine .keeps ?_ hstanding.inFlightWrites rfl rfl hstanding.keys ?_
    · rintro command rfl
      -- a Leader that accepts a write moves its log position
      have hslot := congrArg PaxosSharedContext.lastLogSlot hctx
      rw [handleEvent, handleEvent.stay, Attempt.toOutcome_ctx] at hslot
      exact absurd hslot (Nat.succ_ne_self ctx.lastLogSlot)
    · exact acknowledged_of_peerReplies hquiet

end Leader
end SpannerPaxos
