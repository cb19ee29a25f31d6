import SpannerPaxos.Recovery
import SpannerPaxos.MirroredLog

/-! # What an event does to the log

The write-ahead log, the uncommitted entries, the log position and the commit point of a
member move together, and in four ways: a batch is written, a client's write is appended,
a commit is recorded, or a new Leader writes what it has recovered.  No event does more
than one of them, whatever the role.
-/
namespace SpannerPaxos

/-- The two contexts have the same log, uncommitted entries, log position and commit
point. -/
structure PaxosSharedContext.SameLog (ctx ctx' : PaxosSharedContext) : Prop where
  wal : ctx'.wal = ctx.wal
  uncommittedLogs : ctx'.uncommittedLogs = ctx.uncommittedLogs
  lastLogTerm : ctx'.lastLogTerm = ctx.lastLogTerm
  lastLogSlot : ctx'.lastLogSlot = ctx.lastLogSlot
  committedSlot : ctx'.committedSlot = ctx.committedSlot

namespace PaxosSharedContext.SameLog
variable {ctx ctx' ctx'' : PaxosSharedContext}

theorem refl (ctx : PaxosSharedContext) : SameLog ctx ctx := ⟨rfl, rfl, rfl, rfl, rfl⟩

theorem trans (h : SameLog ctx ctx') (h' : SameLog ctx' ctx'') : SameLog ctx ctx'' where
  wal := h'.wal.trans h.wal
  uncommittedLogs := h'.uncommittedLogs.trans h.uncommittedLogs
  lastLogTerm := h'.lastLogTerm.trans h.lastLogTerm
  lastLogSlot := h'.lastLogSlot.trans h.lastLogSlot
  committedSlot := h'.committedSlot.trans h.committedSlot

theorem updateLease (ctx : PaxosSharedContext) (lease : Option DateTime) :
    SameLog ctx { ctx with leaseExpiry := lease } := ⟨rfl, rfl, rfl, rfl, rfl⟩

theorem advanceTSafe (ctx : PaxosSharedContext) (ts : DateTime) :
    SameLog ctx (ctx.advanceTSafe ts) := by
  rw [advanceTSafe_eq]
  exact ⟨rfl, rfl, rfl, rfl, rfl⟩

theorem commitTo (h : SameLog ctx ctx') (slot : Nat) :
    SameLog (ctx.commitTo slot) (ctx'.commitTo slot) := by
  refine ⟨?_, ?_, ?_, ?_, ?_⟩
  · rw [commitTo_wal, commitTo_wal, h.wal]
  · rw [commitTo_uncommittedLogs, commitTo_uncommittedLogs, h.uncommittedLogs]
  · rw [commitTo_lastLogTerm, commitTo_lastLogTerm, h.lastLogTerm]
  · rw [commitTo_lastLogSlot, commitTo_lastLogSlot, h.lastLogSlot]
  · rw [commitTo_committedSlot, commitTo_committedSlot]

end PaxosSharedContext.SameLog

open PaxosSharedContext

/-- The role gets an accept request to a Follower that admits it: a campaign role makes
one of the sender, a Leader does so when its lease is over. -/
def PaxosState.Admits (request : AcceptRequest) (ctx : PaxosSharedContext) (env : Env) :
    PaxosState → Prop
  | .follower f => f.Admits request ctx (env.clock 0)
  | .preCandidate _ | .candidate _ =>
    (Follower.new (some request.leaderId)).Admits request ctx (env.clock 0)
  | .leader _ => ctx.isLeaderLeaseExpired (env.clock 0) = true ∧
      (Follower.new (some request.leaderId)).Admits request ctx (env.clock 1)

/-- The request is admitted and its anchor matches. -/
def PaxosState.Writes (role : PaxosState) (request : AcceptRequest) (ctx : PaxosSharedContext)
    (env : Env) : Prop :=
  role.Admits request ctx env ∧ Follower.AnchorMatches request ctx.wal

/-- What an event does to the log of a member in this role. -/
inductive LogMove (role : PaxosState) (event : PaxosEvent) (ctx : PaxosSharedContext) (env : Env)
    (ctx' : PaxosSharedContext) : Prop
  | keeps (hno : ∀ command, event = .acceptRequestReceived command →
        ¬ role.Writes command.request ctx env)
      (h : SameLog ctx ctx')
  | writes (command : PaxosCommand AcceptRequest) (hevent : event = .acceptRequestReceived command)
      (hwrites : role.Writes command.request ctx env)
      (h : SameLog (Follower.writeBatch command.request ctx).2 ctx')
  | commits (response : AcceptResponse) (hevent : event = .acceptResponseReceived response)
      (slot : Nat) (hlt : ctx.committedSlot < slot) (h : SameLog (ctx.commitTo slot) ctx')
  | appends (command : PaxosCommand ClientWriteRequest)
      (hevent : event = .clientWriteRequestReceived command) (e : LogEntry)
      (hslot : e.slot = ctx.lastLogSlot + 1)
      (h : SameLog { ctx with
        wal := ctx.wal.append e
        uncommittedLogs := ctx.uncommittedLogs.insert e.slot e
        lastLogTerm := e.term
        lastLogSlot := e.slot } ctx')
  | recovers (response : VoteResponse) (hevent : event = .voteResponseReceived response)
      (c c' : Candidate) (hrole : role = .candidate c)
      (hrecord : c.recordVote response ctx = some c') (lease : Option DateTime) (env' : Env)
      (h : SameLog ((Leader.new c'.scoreBoard).processUncommittedLogs
        (c'.flushUncommittedLogs { ctx with leaseExpiry := lease }) env').state.2 ctx')

variable {event : PaxosEvent} {ctx : PaxosSharedContext} {env : Env}

/-- An event other than an accept request that leaves the log alone. -/
theorem LogMove.of_sameLog {role : PaxosState} {ctx' : PaxosSharedContext}
    (hne : ∀ command, event ≠ .acceptRequestReceived command) (h : SameLog ctx ctx') :
    LogMove role event ctx env ctx' :=
  .keeps (fun command hevent => absurd hevent (hne command)) h

/-- What a Follower's accept handler does to the log. -/
theorem Follower.handleAcceptRequest_log (f : Follower) (request : AcceptRequest)
    (ctx : PaxosSharedContext) (env : Env) :
    (f.Admits request ctx (env.clock 0) ∧ AnchorMatches request ctx.wal ∧
      SameLog (writeBatch request ctx).2 (f.handleAcceptRequest request ctx env).2) ∨
    (¬ (f.Admits request ctx (env.clock 0) ∧ AnchorMatches request ctx.wal) ∧
      SameLog ctx (f.handleAcceptRequest request ctx env).2) := by
  rcases f.handleAcceptRequest_cases request ctx env with
    ⟨hno, heq⟩ | ⟨_, hno, hint, heq⟩ | ⟨hadmits, hanchor, heq⟩
  · rw [heq]
    exact Or.inr ⟨fun h => hno h.1, .refl ctx⟩
  · rw [heq]
    exact Or.inr ⟨fun h => hno h.2, .updateLease ctx _⟩
  · rw [heq]
    exact Or.inl ⟨hadmits, hanchor, .updateLease _ _⟩

/-- What a role does that hands an accept request to a Follower. -/
theorem LogMove.of_accept {role : PaxosState} {command : PaxosCommand AcceptRequest}
    {ctx' : PaxosSharedContext} (f : Follower) (env' : Env)
    (hadmits : f.Admits command.request ctx (env'.clock 0) ↔
      role.Admits command.request ctx env)
    (h : SameLog (f.handleAcceptRequest command.request ctx env').2 ctx') :
    LogMove role (.acceptRequestReceived command) ctx env ctx' := by
  rcases f.handleAcceptRequest_log command.request ctx env' with
    ⟨hyes, hanchor, hlog⟩ | ⟨hno, hlog⟩
  · exact .writes command rfl ⟨hadmits.mp hyes, hanchor⟩ (hlog.trans h)
  · refine .keeps ?_ (hlog.trans h)
    intro command' hevent hwrites
    cases hevent
    exact hno ⟨hadmits.mpr hwrites.1, hwrites.2⟩

namespace Follower

theorem handleEvent_log (f : Follower) :
    LogMove (.follower f) event ctx env (f.handleEvent event ctx env).ctx := by
  cases event with
  | acceptRequestReceived command =>
    refine .of_accept f env Iff.rfl ?_
    rw [handleEvent, Outcome.reply_ctx]
    exact .refl _
  | voteRequestReceived command =>
    refine .of_sameLog (by simp) ?_
    rw [handleEvent, Outcome.reply_ctx]
    rcases f.handleVoteRequest_cases command.request ctx env with
      ⟨_, heq⟩ | ⟨_, rejection, heq⟩
    · rw [heq]
      exact .updateLease ctx _
    · rw [heq]
      exact .refl ctx
  | electionCountdownExpired =>
    refine .of_sameLog (by simp) ?_
    rw [handleEvent, Attempt.toOutcome_ctx, Attempt.map_state]
    split <;> exact .refl ctx
  | preVoteRequestReceived command =>
    refine .of_sameLog (by simp) ?_
    rw [handleEvent, Outcome.reply_ctx]
    exact .refl ctx
  | clientWriteRequestReceived command =>
    refine .of_sameLog (by simp) ?_
    rw [handleEvent, Attempt.toOutcome_ctx, Attempt.map_state]
    exact .refl ctx
  | _ => exact .of_sameLog (by simp) (.refl ctx)

end Follower

/-- What a campaign role does with an accept request. -/
theorem stepDownOnAccept_log {role : PaxosState} {command : PaxosCommand AcceptRequest}
    (hadmits : (Follower.new (some command.request.leaderId)).Admits command.request ctx
      (env.clock 0) ↔ role.Admits command.request ctx env) :
    LogMove role (.acceptRequestReceived command) ctx env
      (stepDownOnAccept role command ctx env).ctx := by
  unfold stepDownOnAccept
  split
  · rename_i hstale
    rw [Outcome.reply_ctx]
    refine .keeps ?_ (.refl ctx)
    intro command' hevent hwrites
    cases hevent
    have hterm := (hadmits.mpr hwrites.1).term
    omega
  · rw [Outcome.reply_ctx]
    exact .of_accept _ env hadmits (.refl _)

theorem PreCandidate.handleEvent_log (p : PreCandidate) :
    LogMove (.preCandidate p) event ctx env (p.handleEvent event ctx env).ctx := by
  cases event with
  | acceptRequestReceived command => exact stepDownOnAccept_log Iff.rfl
  | voteRequestReceived command =>
    refine .of_sameLog (by simp) ?_
    rw [handleEvent, Outcome.reply_ctx]
    exact .refl ctx
  | preVoteRequestReceived command =>
    refine .of_sameLog (by simp) ?_
    rw [handleEvent, Outcome.reply_ctx]
    exact .refl ctx
  | preVoteResponseReceived response =>
    refine .of_sameLog (by simp) ?_
    rw [handleEvent, handlePreVoteResponse]
    split
    · rw [Attempt.toOutcome_ctx, Attempt.map_state]
      exact ⟨rfl, rfl, rfl, rfl, rfl⟩
    · split <;> exact .refl ctx
  | _ => exact .of_sameLog (by simp) (.refl ctx)

theorem Candidate.handleEvent_log (c : Candidate) :
    LogMove (.candidate c) event ctx env (c.handleEvent event ctx env).ctx := by
  cases event with
  | acceptRequestReceived command => exact stepDownOnAccept_log Iff.rfl
  | voteRequestReceived command =>
    refine .of_sameLog (by simp) ?_
    rw [handleEvent, Outcome.reply_ctx]
    exact .refl ctx
  | preVoteRequestReceived command =>
    refine .of_sameLog (by simp) ?_
    rw [handleEvent, Outcome.reply_ctx]
    exact .refl ctx
  | voteResponseReceived response =>
    rw [handleEvent, handleVoteResponse]
    cases hrecord : c.recordVote response ctx with
    | none => exact .of_sameLog (by simp) (.refl ctx)
    | some c' =>
      dsimp only
      split
      · cases c'.voteDispatchTime with
        | none => exact .of_sameLog (by simp) (.refl ctx)
        | some dispatchTime =>
          dsimp only
          split
          · exact .of_sameLog (by simp) (.updateLease ctx _)
          · refine .recovers response rfl c c' rfl hrecord
              (some (dispatchTime + PaxosSharedContext.leaseLength)) (env.skip 1) ?_
            rw [becomeLeader, Attempt.toOutcome_ctx, Attempt.map_state]
            exact .refl _
      · split <;> exact .of_sameLog (by simp) (.refl ctx)
  | _ => exact .of_sameLog (by simp) (.refl ctx)

theorem Leader.handleEvent_log (l : Leader) :
    LogMove (.leader l) event ctx env (l.handleEvent event ctx env).ctx := by
  cases event with
  | acceptRequestReceived command =>
    simp only [handleEvent]
    split
    · rename_i hlease
      rw [Outcome.reply_ctx]
      exact .of_accept _ (env.skip 1) ⟨fun h => ⟨hlease, h⟩, fun h => h.2⟩ (.refl _)
    · rename_i hlease
      refine .keeps ?_ (.refl ctx)
      intro command' _ hwrites
      exact hlease hwrites.1.1
  | acceptResponseReceived response =>
    rw [handleEvent, handleEvent.stay, Attempt.toOutcome_ctx, Attempt.map_state]
    obtain ⟨lease, heq | ⟨slot, hlt, _, heq⟩⟩ := l.handleAcceptResponse_ctx ctx env response
    · rw [heq]
      exact .of_sameLog (by simp) (.updateLease ctx lease)
    · refine .commits response rfl slot hlt ?_
      rw [heq]
      exact (SameLog.updateLease ctx lease).commitTo slot
  | clientWriteRequestReceived command =>
    rw [handleEvent, handleEvent.stay, Attempt.toOutcome_ctx, Attempt.map_state]
    exact .appends command rfl ⟨ctx.term, ctx.lastLogSlot + 1, command.request.value,
      (TrueTime.now (env.clock 0)).latest⟩ rfl ⟨rfl, rfl, rfl, rfl, rfl⟩
  | writeFlushTimerFired =>
    refine .of_sameLog (by simp) ?_
    rw [handleEvent, handleEvent.stay, Attempt.toOutcome_ctx, Attempt.map_state,
      handleWriteFlush_ctx]
    exact .refl ctx
  | heartbeatTimerFired =>
    refine .of_sameLog (by simp) ?_
    rw [handleEvent, handleEvent.stay, Attempt.toOutcome_ctx, Attempt.map_state]
    exact .advanceTSafe ctx _
  | preVoteRequestReceived command =>
    refine .of_sameLog (by simp) ?_
    simp only [handleEvent]
    split
    · rw [Outcome.reply_ctx]
      exact .refl ctx
    · rw [Outcome.reply_ctx]
      exact .refl ctx
  | voteRequestReceived command =>
    refine .of_sameLog (by simp) ?_
    simp only [handleEvent]
    split
    · rw [Outcome.reply_ctx]
      rcases (Follower.new none).handleVoteRequest_cases command.request ctx (env.skip 1) with
        ⟨_, heq⟩ | ⟨_, rejection, heq⟩
      · rw [heq]
        exact .updateLease ctx _
      · rw [heq]
        exact .refl ctx
    · rw [Outcome.reply_ctx]
      exact .refl ctx
  | preVoteResponseReceived response =>
    refine .of_sameLog (by simp) ?_
    simp only [handleEvent]
    split <;> exact .refl ctx
  | voteResponseReceived response =>
    refine .of_sameLog (by simp) ?_
    simp only [handleEvent]
    split <;> exact .refl ctx
  | _ => exact .of_sameLog (by simp) (.refl ctx)

/-- **What an event does to the log of a member**, whatever its role. -/
theorem PaxosState.handleEvent_log (role : PaxosState) :
    LogMove role event ctx env (role.handleEvent event ctx env).ctx := by
  cases role with
  | follower f => exact f.handleEvent_log
  | preCandidate p => exact p.handleEvent_log
  | candidate c => exact c.handleEvent_log
  | leader l => exact l.handleEvent_log

end SpannerPaxos
