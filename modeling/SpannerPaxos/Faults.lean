import SpannerPaxos.LeaderSteps

/-! # What an event needs to be handled

`start` unwraps the result of `process_event`, so an error ends the member.  An
event fails where a reply is sent with `?` to a receiver that is gone, where a
dispatch returns an error, and where a lookup that is expected to succeed does
not: the sender of a response on the score board, the anchor of a request in the
log, the send time of a campaign.  `Withstands` lists these points for each role;
the other failures are ignored by the handlers.  What the arithmetic of the source
makes of a result that does not fit its type stands apart (`SpannerPaxos.Overflow`).
-/
namespace SpannerPaxos

/-- The channel on which another member waits for the answer to its request. -/
def PaxosEvent.peerTx : PaxosEvent → Option ReplyChannel
  | preVoteRequestReceived command => some command.responseTx
  | voteRequestReceived command => some command.responseTx
  | acceptRequestReceived command => some command.responseTx
  | _ => none

/-- Nobody waits for an answer to the event. -/
theorem PaxosEvent.not_peerTx {event : PaxosEvent} {tx : ReplyChannel}
    (hsilent : event.peerTx = none) : event.peerTx ≠ some tx := by
  rw [hsilent]
  exact (Option.some_ne_none tx).symm

/-- `process_event` returns `Ok`, if it returns: only a commit wait is pending. -/
def Outcome.Survives (o : Outcome) : Prop := ∀ fault, o.result = .error fault → fault = .waiting

/-- The method ends, or waits for a commit timestamp to pass. -/
def Attempt.Survives {σ : Type} (a : Attempt σ) : Prop :=
  ∀ fault, a.fault = some fault → fault = .waiting

namespace Outcome
variable {tx : ReplyChannel} {effect : Effect} {state : PaxosState} {ctx : PaxosSharedContext}
  {effects : List Effect}

@[simp] theorem survives_ok : (ok state ctx effects).Survives ↔ True :=
  iff_true_intro fun _ h => by cases h

/-- A reply that is not ignored needs its receiver. -/
@[simp] theorem survives_reply :
    (reply tx effect state ctx).Survives ↔ tx.receiverAlive = true := by
  unfold reply
  split
  · rename_i halive
    simp [halive]
  · rename_i halive
    refine ⟨fun h => ?_, fun h => absurd h halive⟩
    cases h _ rfl

@[simp] theorem survives_toOutcome {a : Attempt (PaxosState × PaxosSharedContext)} :
    a.toOutcome.Survives ↔ a.Survives := by
  unfold Attempt.toOutcome Attempt.Survives
  cases hfault : a.fault with
  | none => simp
  | some fault => simp [Survives, fail]

end Outcome

namespace Attempt
variable {σ τ : Type} {a : Attempt σ}

@[simp] theorem survives_map {f : σ → τ} : (a.map f).Survives ↔ a.Survives := Iff.rfl

theorem survives_of_fault (h : a.fault = none) : a.Survives := by
  intro fault hfault
  rw [h] at hfault
  cases hfault

theorem not_survives {fault : Fault} (h : a.fault = some fault) (hne : fault ≠ .waiting) :
    ¬ a.Survives :=
  fun hsurvives => hne (hsurvives fault h)

/-- A method that cannot wait survives exactly if it does not fail. -/
theorem survives_iff_of_ne_waiting (h : a.fault ≠ some .waiting) :
    a.Survives ↔ a.fault = none := by
  refine ⟨fun hs => ?_, survives_of_fault⟩
  cases hfault : a.fault with
  | none => rfl
  | some fault =>
    rw [hs fault hfault] at hfault
    exact absurd hfault h

/-- Going on with something that does not fail. -/
@[simp] theorem survives_andThen_ok {f : σ → σ} :
    (a.andThen fun s => .ok (f s)).Survives ↔ a.Survives := by
  have hfault : (a.andThen fun s => .ok (f s)).fault = a.fault := by
    unfold andThen
    cases h : a.fault with
    | none => rfl
    | some fault => exact h
  unfold Survives
  rw [hfault]

end Attempt

/-! ## Dispatching accept requests -/

/-- The anchor of the next request to the follower is in the log. -/
def AnchorHeld (ctx : PaxosSharedContext) (fs : FollowerState) : Prop :=
  fs.prevLogSlot = 0 ∨ ctx.wal.hasEntry fs.prevLogSlot = true

theorem anchorHeld_iff {ctx : PaxosSharedContext} {fs : FollowerState} :
    AnchorHeld ctx fs ↔ ∃ term, Leader.prevLogTerm? ctx fs.prevLogSlot = some term := by
  unfold AnchorHeld Leader.prevLogTerm?
  split
  · rename_i h0
    exact ⟨fun _ => ⟨0, rfl⟩, fun _ => Or.inl h0⟩
  · rename_i h0
    rw [or_iff_right h0, WriteAheadLog.hasEntry_iff]
    constructor
    · rintro ⟨e, he⟩
      exact ⟨e.term, WriteAheadLog.getTerm_eq_some_iff.mpr ⟨e, he, rfl⟩⟩
    · rintro ⟨term, hterm⟩
      obtain ⟨e, he, _⟩ := WriteAheadLog.getTerm_eq_some_iff.mp hterm
      exact ⟨e, he⟩

namespace Leader
variable (self : Leader) (ctx : PaxosSharedContext) (env : Env)

/-- The follower is on the board, can be reached, and its anchor is in the log. -/
def CanDispatch (memberId : Uuid) : Prop :=
  ∃ fs, self.scoreBoard.get? memberId = some fs ∧ AnchorHeld ctx fs ∧
    env.reachable memberId = true

variable {self ctx env} {minNextTs : Option DateTime} {memberId : Uuid}

theorem dispatchAcceptRequestToFollower_fault :
    (self.dispatchAcceptRequestToFollower memberId ctx minNextTs env).fault = none ↔
      self.CanDispatch ctx env memberId := by
  unfold dispatchAcceptRequestToFollower CanDispatch
  cases hget : self.scoreBoard.get? memberId with
  | none => simp
  | some fs =>
    simp only [Option.some.injEq, exists_eq_left', anchorHeld_iff]
    cases hanchor : prevLogTerm? ctx fs.prevLogSlot with
    | none => simp
    | some prevLogTerm =>
      simp only [Option.some.injEq, exists_eq', true_and]
      split
      · rename_i hreach
        exact ⟨fun _ => hreach, fun _ => rfl⟩
      · rename_i hreach
        simp [hreach]

theorem dispatchAcceptRequestToFollower_ne_waiting :
    (self.dispatchAcceptRequestToFollower memberId ctx minNextTs env).fault ≠ some .waiting := by
  unfold dispatchAcceptRequestToFollower
  cases self.scoreBoard.get? memberId with
  | none => simp
  | some fs =>
    simp only
    cases prevLogTerm? ctx fs.prevLogSlot with
    | none => simp
    | some prevLogTerm =>
      simp only
      split <;> simp

/-- Dispatching to one follower leaves the state of the others alone. -/
theorem dispatchAcceptRequestToFollower_get? {q : Uuid} (hq : q ≠ memberId) :
    (self.dispatchAcceptRequestToFollower memberId ctx minNextTs env).state.scoreBoard.get? q =
      self.scoreBoard.get? q := by
  unfold dispatchAcceptRequestToFollower
  cases self.scoreBoard.get? memberId with
  | none => rfl
  | some fs =>
    simp only
    cases prevLogTerm? ctx fs.prevLogSlot with
    | none => rfl
    | some prevLogTerm =>
      simp only
      split
      · show (self.scoreBoard.insert memberId _).get? q = _
        rw [AssocMap.get?_insert, if_neg hq]
      · rfl

/-- **The loop succeeds exactly if each of its dispatches can be made now**: none of
them gets in the way of a later one. -/
theorem dispatchLoop_fault (memberIds : List Uuid) (hnodup : memberIds.Nodup) (self : Leader)
    (env : Env) :
    (dispatchLoop ctx minNextTs self memberIds env).fault = none ↔
      ∀ p ∈ memberIds, self.CanDispatch ctx env p := by
  induction memberIds generalizing self env with
  | nil => simp [dispatchLoop, Attempt.ok]
  | cons memberId memberIds ih =>
    obtain ⟨hhead, htail⟩ := List.nodup_cons.mp hnodup
    have hfirst : (self.dispatchAcceptRequestToFollower memberId ctx minNextTs env).fault = none ↔
        self.CanDispatch ctx env memberId := dispatchAcceptRequestToFollower_fault
    rw [dispatchLoop, Attempt.andThen, List.forall_mem_cons, ← hfirst]
    cases hfault : (self.dispatchAcceptRequestToFollower memberId ctx minNextTs env).fault with
    | some fault => simp [hfault]
    | none =>
      simp only [true_and]
      rw [ih htail]
      refine forall₂_congr fun p hp => ?_
      have hne : p ≠ memberId := fun h => hhead (h ▸ hp)
      simp only [CanDispatch, dispatchAcceptRequestToFollower_get? hne]
      rfl

theorem dispatchLoop_ne_waiting (memberIds : List Uuid) (self : Leader) (env : Env) :
    (dispatchLoop ctx minNextTs self memberIds env).fault ≠ some .waiting := by
  induction memberIds generalizing self env with
  | nil => simp [dispatchLoop, Attempt.ok]
  | cons memberId memberIds ih =>
    have hfirst : (self.dispatchAcceptRequestToFollower memberId ctx minNextTs env).fault ≠
        some .waiting := dispatchAcceptRequestToFollower_ne_waiting
    rw [dispatchLoop, Attempt.andThen]
    cases hfault : (self.dispatchAcceptRequestToFollower memberId ctx minNextTs env).fault with
    | some fault =>
      simp only
      exact hfirst
    | none => exact ih _ _

theorem dispatchAcceptRequest_survives :
    (self.dispatchAcceptRequest ctx minNextTs env).Survives ↔
      ∀ p ∈ self.scoreBoard.keys, self.CanDispatch ctx env p := by
  have hwait : (dispatchLoop ctx minNextTs self self.scoreBoard.keys env).fault ≠ some .waiting :=
    dispatchLoop_ne_waiting _ _ _
  rw [dispatchAcceptRequest, Attempt.survives_iff_of_ne_waiting hwait]
  exact dispatchLoop_fault _ self.scoreBoard.keys_nodup _ _

variable (self ctx env)

/-- The leader and its context when `process_uncommitted_logs` comes to dispatch. -/
def restamp : Leader × PaxosSharedContext :=
  let restamped := ctx.uncommittedLogs.mapValues fun entry => { entry with term := ctx.term }
  let ctx' := { ctx with
    uncommittedLogs := restamped, wal := ctx.wal.appendAll restamped.values }
  match restamped.values.getLast? with
  | some last =>
    ({ self with scoreBoard := self.scoreBoard.mapValues fun fs =>
        { fs with logPosition := { fs.logPosition with nextSlot := last.slot + 1 } } },
      { ctx' with lastLogSlot := last.slot, lastLogTerm := ctx.term })
  | none => (self, ctx')

theorem processUncommittedLogs_eq :
    self.processUncommittedLogs ctx env =
      ((self.restamp ctx).1.dispatchAcceptRequest (self.restamp ctx).2 none env).map
        fun l => (l, (self.restamp ctx).2) := by
  unfold processUncommittedLogs restamp
  dsimp only
  cases (ctx.uncommittedLogs.mapValues
      fun entry => { entry with term := ctx.term }).values.getLast? with
  | none => rfl
  | some last => rfl

/-- A reply to a client is sent whether or not it is received. -/
theorem replyCommitted_survives (writes : List (DateTime × PaxosCommand ClientWriteRequest))
    (env : Env) : (replyCommitted writes env).Survives := by
  induction writes generalizing env with
  | nil => exact Attempt.survives_of_fault rfl
  | cons w rest ih =>
    unfold replyCommitted
    split
    · exact ih (env.skip 1)
    · intro fault hfault
      exact (Option.some.inj hfault).symm

theorem advanceCommit_survives : (self.advanceCommit ctx env).Survives := by
  unfold advanceCommit
  dsimp only
  split
  · exact replyCommitted_survives _ env
  · exact Attempt.survives_of_fault rfl

/-! ## The Leader -/

/-- The event sends a request to the follower from this state of it. -/
inductive Probes (self : Leader) (ctx : PaxosSharedContext) :
    PaxosEvent → Uuid → FollowerState → Prop
  | heartbeat {memberId : Uuid} {fs : FollowerState}
      (hget : self.scoreBoard.get? memberId = some fs) :
      Probes self ctx .heartbeatTimerFired memberId fs
  | flush {memberId : Uuid} {fs : FollowerState} (hpending : self.pendingWriteCount ≠ 0)
      (hget : self.scoreBoard.get? memberId = some fs) :
      Probes self ctx .writeFlushTimerFired memberId fs
  | retry {response : AcceptResponse} {hint : ConflictHint} {fs : FollowerState}
      (hheeds : Heeds response ctx) (hsuccess : response.success = false)
      (hhint : response.conflictHint = some hint)
      (hget : self.scoreBoard.get? response.memberId = some fs) :
      Probes self ctx (.acceptResponseReceived response) response.memberId (backtrack ctx hint fs)

/-- What the Leader needs to handle the event: every request it sends can be sent,
the sender of a response is a follower of the group, and whoever waits for an
answer that is not ignored is still there. -/
structure Withstands (l : Leader) (event : PaxosEvent) (ctx : PaxosSharedContext)
    (env : Env) : Prop where
  probes : ∀ p fs, Probes l ctx event p fs → AnchorHeld ctx fs ∧ env.reachable p = true
  sender : ∀ response, event = .acceptResponseReceived response → Heeds response ctx →
    2 ≤ ctx.getQuorumSize ∧ response.memberId ∈ l.scoreBoard.keys
  answers : ∀ tx, event.peerTx = some tx → tx.receiverAlive = true ∨
    (∃ command, event = .acceptRequestReceived command) ∧
      ctx.isLeaderLeaseExpired (env.clock 0) = false

variable {self ctx env} {event : PaxosEvent}

theorem canDispatch_keys_iff :
    (∀ p ∈ self.scoreBoard.keys, self.CanDispatch ctx env p) ↔
      ∀ p fs, self.scoreBoard.get? p = some fs → AnchorHeld ctx fs ∧ env.reachable p = true := by
  constructor
  · intro h p fs hget
    obtain ⟨fs', hget', hheld, hreach⟩ := h p (AssocMap.mem_keys_iff.mpr ⟨fs, hget⟩)
    cases Option.some.inj (hget.symm.trans hget')
    exact ⟨hheld, hreach⟩
  · intro h p hp
    obtain ⟨fs, hget⟩ := AssocMap.mem_keys_iff.mp hp
    exact ⟨fs, hget, (h p fs hget).1, (h p fs hget).2⟩

/-- An event that is neither a response nor a request of another member needs its
requests sent. -/
theorem withstands_iff_probes (hsender : ∀ response, event ≠ .acceptResponseReceived response)
    (htx : event.peerTx = none) :
    self.Withstands event ctx env ↔
      ∀ p fs, Probes self ctx event p fs → AnchorHeld ctx fs ∧ env.reachable p = true := by
  refine ⟨fun h => h.probes, fun h => ⟨h, fun response he => absurd he (hsender response), ?_⟩⟩
  exact fun tx he => absurd he (PaxosEvent.not_peerTx htx)

/-- A request of another member needs its answer received, where it is answered. -/
theorem withstands_iff_answers {tx : ReplyChannel} (htx : event.peerTx = some tx) :
    self.Withstands event ctx env ↔ tx.receiverAlive = true ∨
      (∃ command, event = .acceptRequestReceived command) ∧
        ctx.isLeaderLeaseExpired (env.clock 0) = false := by
  refine ⟨fun h => h.answers tx htx, fun h => ⟨?_, ?_, ?_⟩⟩
  · rintro p fs (_ | _ | _)
    all_goals cases htx
  · rintro response rfl
    cases htx
  · intro tx' htx'
    cases Option.some.inj (htx.symm.trans htx')
    exact h

/-- A response sends a request to the follower that reports a conflict. -/
theorem probes_response_iff {response : AcceptResponse} (hheeds : Heeds response ctx) :
    (∀ p fs, Probes self ctx (.acceptResponseReceived response) p fs →
      AnchorHeld ctx fs ∧ env.reachable p = true) ↔
    ∀ hint fs, response.success = false → response.conflictHint = some hint →
      self.scoreBoard.get? response.memberId = some fs →
        AnchorHeld ctx (backtrack ctx hint fs) ∧ env.reachable response.memberId = true := by
  constructor
  · intro h hint fs hsuccess hhint hget
    exact h _ _ (.retry hheeds hsuccess hhint hget)
  · intro h p fs hprobe
    obtain _ | _ | ⟨_, hsuccess, hhint, hget⟩ := hprobe
    exact h _ _ hsuccess hhint hget

/-- The retry after a conflict succeeds if the entry that it backs up to is in the log. -/
theorem retry_survives {response : AcceptResponse} {hint : ConflictHint} {fs : FollowerState} :
    let ctx' := (self.recordContact response).renewLease ctx
    (((self.recordContact response).setFollower response.memberId
        (backtrack ctx' hint fs)).dispatchAcceptRequestToFollower response.memberId ctx' none
          env).Survives ↔
      AnchorHeld ctx (backtrack ctx hint fs) ∧ env.reachable response.memberId = true := by
  intro ctx'
  have hwal : ctx'.wal = ctx.wal := (self.recordContact response).renewLease_wal ctx
  have hback : backtrack ctx' hint fs = backtrack ctx hint fs := by
    simp only [backtrack, nextSlotAfter, hwal]
  rw [Attempt.survives_iff_of_ne_waiting dispatchAcceptRequestToFollower_ne_waiting,
    dispatchAcceptRequestToFollower_fault, hback]
  simp only [CanDispatch, setFollower, AssocMap.get?_insert, if_true, Option.some.injEq,
    exists_eq_left', AnchorHeld, hwal]

theorem handleAcceptResponse_survives (response : AcceptResponse) :
    (self.handleAcceptResponse response ctx env).Survives ↔
      (Heeds response ctx → 2 ≤ ctx.getQuorumSize ∧ response.memberId ∈ self.scoreBoard.keys) ∧
      ∀ p fs, Probes self ctx (.acceptResponseReceived response) p fs →
        AnchorHeld ctx fs ∧ env.reachable p = true := by
  by_cases hheeds : Heeds response ctx
  · have hhint : ¬ (¬ response.success = true ∧ response.conflictHint = none) :=
      fun h => hheeds.2.elim h.1 fun hne => hne h.2
    have hboard : (self.recordContact response).scoreBoard = self.scoreBoard := rfl
    rw [probes_response_iff hheeds, imp_iff_right hheeds, AssocMap.mem_keys_iff]
    unfold handleAcceptResponse
    simp only [if_neg (Nat.not_lt.mpr hheeds.1), if_neg hhint, hboard]
    by_cases hquorum : ctx.getQuorumSize < 2
    · rw [if_pos hquorum]
      refine iff_of_false (Attempt.not_survives rfl (by simp)) fun h => ?_
      exact absurd h.1.1 (Nat.not_le.mpr hquorum)
    rw [if_neg hquorum, and_iff_right (Nat.not_lt.mp hquorum)]
    cases hget : self.scoreBoard.get? response.memberId with
    | none =>
      -- whatever the response says, its sender is looked up
      refine iff_of_false ?_ (by simp)
      split
      · exact Attempt.not_survives rfl (by simp)
      · obtain ⟨hint, hconflict⟩ := Option.ne_none_iff_exists'.mp (hheeds.2.resolve_left ‹_›)
        rw [hconflict]
        exact Attempt.not_survives rfl (by simp)
    | some fs =>
      by_cases hsuccess : response.success = true
      · rw [if_pos hsuccess]
        refine iff_of_true ?_ ⟨⟨fs, rfl⟩, by simp [hsuccess]⟩
        dsimp only
        split
        · exact advanceCommit_survives _ _ _
        · exact Attempt.survives_of_fault rfl
      · rw [if_neg hsuccess]
        obtain ⟨hint, hconflict⟩ := Option.ne_none_iff_exists'.mp (hheeds.2.resolve_left hsuccess)
        rw [hconflict]
        dsimp only
        refine Iff.trans retry_survives ⟨fun h => ⟨⟨fs, rfl⟩, ?_⟩, fun h => ?_⟩
        · rintro hint' fs' - hhint' hget'
          cases hhint'
          cases hget'
          exact h
        · exact h.2 hint fs (by simpa using hsuccess) rfl rfl
  · rcases self.handleAcceptResponse_cases response ctx env with ⟨_, h⟩ | ⟨h, _⟩ | ⟨h, _⟩
    · rw [h]
      refine iff_of_true (Attempt.survives_of_fault rfl) ⟨fun h => absurd h hheeds, ?_⟩
      rintro p fs (_ | _ | ⟨h, _⟩)
      exact absurd h hheeds
    · exact absurd h hheeds
    · exact absurd h hheeds

/-- **The Leader survives exactly the events it withstands.** -/
theorem handleEvent_survives :
    (self.handleEvent event ctx env).Survives ↔ self.Withstands event ctx env := by
  cases event with
  | electionCountdownExpired | preVoteCampaignExpired | voteCampaignExpired
  | acceptTimeoutCheckFired | leaderLeaseExpired | clientWriteRequestReceived command =>
    rw [withstands_iff_probes (by simp) rfl]
    refine iff_of_true ?_ (by rintro p fs ⟨⟩)
    intro fault h
    cases h
  | preVoteResponseReceived response | voteResponseReceived response =>
    rw [withstands_iff_probes (by simp) rfl]
    refine iff_of_true ?_ (by rintro p fs ⟨⟩)
    rw [handleEvent]
    split <;> simp
  | writeFlushTimerFired =>
    rw [withstands_iff_probes (by simp) rfl, handleEvent, handleEvent.stay,
      Outcome.survives_toOutcome, Attempt.survives_map, handleWriteFlush]
    split
    · rename_i hnone
      refine iff_of_true (Attempt.survives_of_fault rfl) ?_
      rintro p fs (_ | ⟨hpending, _⟩ | _)
      exact absurd hnone hpending
    · rename_i hpending
      rw [Attempt.survives_map, Attempt.survives_andThen_ok, dispatchAcceptRequest_survives,
        canDispatch_keys_iff]
      constructor
      · rintro h p fs (_ | ⟨_, hget⟩ | _)
        exact h p fs hget
      · exact fun h p fs hget => h p fs (.flush hpending hget)
  | heartbeatTimerFired =>
    rw [withstands_iff_probes (by simp) rfl, handleEvent, handleEvent.stay,
      Outcome.survives_toOutcome, Attempt.survives_map, handleHeartbeatTimer, Attempt.survives_map,
      Attempt.survives_andThen_ok, dispatchAcceptRequest_survives, canDispatch_keys_iff]
    simp only [AnchorHeld, PaxosSharedContext.advanceTSafe_wal]
    constructor
    · rintro h p fs (hget | _ | _)
      exact h p fs hget
    · exact fun h p fs hget => h p fs (.heartbeat hget)
  | acceptResponseReceived response =>
    rw [handleEvent, handleEvent.stay, Outcome.survives_toOutcome, Attempt.survives_map,
      handleAcceptResponse_survives]
    constructor
    · rintro ⟨hsender, hprobes⟩
      refine ⟨hprobes, ?_, fun tx htx => absurd htx (PaxosEvent.not_peerTx rfl)⟩
      rintro response' he
      cases he
      exact hsender
    · exact fun h => ⟨h.sender response rfl, h.probes⟩
  | preVoteRequestReceived command =>
    rw [withstands_iff_answers rfl, or_iff_left (by simp), handleEvent]
    split <;> exact Outcome.survives_reply
  | voteRequestReceived command =>
    rw [withstands_iff_answers rfl, or_iff_left (by simp), handleEvent]
    split <;> exact Outcome.survives_reply
  | acceptRequestReceived command =>
    rw [withstands_iff_answers rfl, handleEvent]
    split
    · rename_i hlease
      simp only [hlease, Bool.true_eq_false, and_false, or_false]
      exact Outcome.survives_reply
    · rename_i hlease
      rw [Bool.not_eq_true] at hlease
      exact iff_of_true (Outcome.survives_ok.mpr trivial) (Or.inr ⟨⟨command, rfl⟩, hlease⟩)

end Leader
end SpannerPaxos
