import SpannerPaxos.LeaseSteps
import SpannerPaxos.LogMatching

/-! # What a win recovers

A Candidate that wins takes over the uncommitted entries of its voters, above what
it has committed itself, stamps them and its own with the new term, and writes
them all to its log.  Everything else of the log stays.  The match slots of the
score board come from the Promises, and recovering does not touch them.
-/
namespace SpannerPaxos

open ReplicatedLog

/-- The entries of the map stand at their own slots. -/
def KeyedBySlot (logs : OrderedMap Nat LogEntry) : Prop :=
  ∀ slot e, logs.get? slot = some e → e.slot = slot

theorem KeyedBySlot.insert {logs : OrderedMap Nat LogEntry} (h : KeyedBySlot logs) {slot : Nat}
    {e : LogEntry} (he : e.slot = slot) : KeyedBySlot (logs.insert slot e) := by
  intro k e' hget
  rw [OrderedMap.get?_insert] at hget
  split at hget
  · rename_i hk
    rw [← Option.some.inj hget, he, hk]
  · exact h k e' hget

namespace Candidate

/-- The slots a win recovers: the Candidate's own uncommitted ones, and its voters'
above what it has committed. -/
def Recovers (self : Candidate) (ctx : PaxosSharedContext) (slot : Nat) : Prop :=
  (∃ e, ctx.uncommittedLogs.get? slot = some e) ∨
    ctx.committedSlot < slot ∧ ∃ e, self.pendingUncommittedLogs.get? slot = some e

theorem keyed_keepHighestTerm {logs : OrderedMap Nat LogEntry} (h : KeyedBySlot logs)
    (entry : LogEntry) : KeyedBySlot (keepHighestTerm logs entry) := by
  unfold keepHighestTerm
  split
  · exact h.insert rfl
  · split
    · exact h.insert rfl
    · exact h

theorem keyed_mergeUncommittedLogs {self : Candidate} (h : KeyedBySlot self.pendingUncommittedLogs)
    (entries : List LogEntry) :
    KeyedBySlot (self.mergeUncommittedLogs entries).pendingUncommittedLogs := by
  show KeyedBySlot (entries.foldl keepHighestTerm self.pendingUncommittedLogs)
  generalize self.pendingUncommittedLogs = logs at h
  induction entries generalizing logs with
  | nil => exact h
  | cons e entries ih => exact ih _ (keyed_keepHighestTerm h e)

/-- Merging entries adds their slots. -/
theorem mergeUncommittedLogs_get? (self : Candidate) (entries : List LogEntry) (slot : Nat) :
    (∃ e, (self.mergeUncommittedLogs entries).pendingUncommittedLogs.get? slot = some e) ↔
      (∃ e, self.pendingUncommittedLogs.get? slot = some e) ∨ ∃ e ∈ entries, e.slot = slot := by
  show (∃ e, (entries.foldl keepHighestTerm self.pendingUncommittedLogs).get? slot = some e) ↔ _
  generalize self.pendingUncommittedLogs = logs
  induction entries generalizing logs with
  | nil => simp
  | cons x entries ih =>
    have hone : (∃ e, (keepHighestTerm logs x).get? slot = some e) ↔
        (∃ e, logs.get? slot = some e) ∨ x.slot = slot := by
      have hinserted : (∃ e, (logs.insert x.slot x).get? slot = some e) ↔
          (∃ e, logs.get? slot = some e) ∨ x.slot = slot := by
        rw [OrderedMap.get?_insert]
        by_cases hslot : slot = x.slot
        · simp [hslot]
        · simp [hslot, Ne.symm hslot]
      unfold keepHighestTerm
      split
      · exact hinserted
      · rename_i existing hget
        split
        · exact hinserted
        · refine ⟨Or.inl, ?_⟩
          rintro (hold | rfl)
          · exact hold
          · exact ⟨existing, hget⟩
    rw [List.foldl_cons, ih, hone, or_assoc]
    simp only [List.mem_cons, exists_eq_or_imp]

/-- What a Promise adds to the Candidate's records: the match slot of its sender, if
the last terms are the same, and its entries. -/
theorem recordVote_promise {c c' : Candidate} {response : VoteResponse}
    {ctx : PaxosSharedContext} {promise : VotePromise} (h : c.recordVote response ctx = some c')
    (hpromise : response.outcome = .promise promise) :
    c'.pendingUncommittedLogs =
        (c.mergeUncommittedLogs promise.uncommittedEntries).pendingUncommittedLogs ∧
      ∀ p pos, c'.scoreBoard.get? p = some pos → c.scoreBoard.get? p = some pos ∨
        p = response.memberId ∧ promise.lastLogTerm = ctx.lastLogTerm ∧
          pos.matchSlot = min promise.lastLogSlot ctx.lastLogSlot := by
  unfold recordVote at h
  simp only [hpromise] at h
  split at h
  · rename_i hterm
    split at h
    · cases h
    · cases Option.some.inj h
      refine ⟨rfl, ?_⟩
      intro p pos hget
      have hget' := (AssocMap.get?_insert _ _ _ _).symm.trans hget
      split at hget'
      · rename_i hp
        cases Option.some.inj hget'
        exact Or.inr ⟨hp, hterm, rfl⟩
      · exact Or.inl hget'
  · cases Option.some.inj h
    exact ⟨rfl, fun _ _ hget => Or.inl hget⟩

/-- A rejection is only put on the vote board. -/
theorem recordVote_rejection {c c' : Candidate} {response : VoteResponse}
    {ctx : PaxosSharedContext} (h : c.recordVote response ctx = some c')
    (hno : response.outcome.isPromise = false) :
    c'.pendingUncommittedLogs = c.pendingUncommittedLogs ∧ c'.scoreBoard = c.scoreBoard := by
  unfold recordVote at h
  dsimp only at h
  split at h
  · cases Option.some.inj h
    exact ⟨rfl, rfl⟩
  · rename_i hpromise
    rw [hpromise] at hno
    cases hno

/-- A Candidate that goes on campaigning has recorded the response. -/
theorem recordVote_of_stays {self c' : Candidate} {ctx : PaxosSharedContext} {env : Env}
    {response : VoteResponse}
    (h : (self.handleEvent (.voteResponseReceived response) ctx env).result =
      .ok (.candidate c')) :
    self.recordVote response ctx = some c' ∧
      (self.handleEvent (.voteResponseReceived response) ctx env).ctx = ctx := by
  simp only [handleEvent, handleVoteResponse] at h ⊢
  cases hrecord : self.recordVote response ctx with
  | none =>
    rw [hrecord] at h
    cases h
  | some c =>
    simp only [hrecord] at h ⊢
    split at h
    · split at h
      · cases h
      · split at h
        · cases h
        · obtain ⟨l, hl⟩ := becomeLeader_result h
          cases hl
    · rename_i hquorum
      split at h
      · cases h
      · rename_i hall
        cases Except.ok.inj h
        rw [if_neg hquorum, if_neg hall]
        exact ⟨rfl, rfl⟩

/-- Flushing one pending entry adds its slot, unless it is committed. -/
theorem flushLoop_cons (committedSlot : Nat) (logs : OrderedMap Nat LogEntry) (e : Nat × LogEntry)
    (pending : List (Nat × LogEntry)) :
    ∃ logs', flushLoop committedSlot logs (e :: pending) = flushLoop committedSlot logs' pending ∧
      (∀ slot, (∃ v, logs'.get? slot = some v) ↔
        (∃ v, logs.get? slot = some v) ∨ committedSlot < slot ∧ slot = e.1) ∧
      (KeyedBySlot logs → e.2.slot = e.1 → KeyedBySlot logs') := by
  have hkept : ∀ slot, (e.1 ≤ committedSlot ∨ ∃ v, logs.get? e.1 = some v) →
      ((∃ v, logs.get? slot = some v) ↔
        (∃ v, logs.get? slot = some v) ∨ committedSlot < slot ∧ slot = e.1) := by
    intro slot hwhy
    refine ⟨Or.inl, ?_⟩
    rintro (hold | ⟨hlt, rfl⟩)
    · exact hold
    · rcases hwhy with hle | hold
      · omega
      · exact hold
  have hinserted : committedSlot < e.1 → ∀ slot,
      ((∃ v, (logs.insert e.1 e.2).get? slot = some v) ↔
        (∃ v, logs.get? slot = some v) ∨ committedSlot < slot ∧ slot = e.1) := by
    intro hlt slot
    rw [OrderedMap.get?_insert]
    by_cases hslot : slot = e.1
    · simp [hslot, hlt]
    · simp [hslot]
  -- a committed slot is passed over, and of two entries for a slot the higher term stays
  by_cases hle : e.1 ≤ committedSlot
  · exact ⟨logs, by simp [flushLoop, hle], fun slot => hkept slot (Or.inl hle), fun h _ => h⟩
  · cases hget : logs.get? e.1 with
    | none =>
      exact ⟨logs.insert e.1 e.2, by simp [flushLoop, hle, hget], hinserted (by omega),
        fun h he => h.insert he⟩
    | some existing =>
      by_cases hterm : e.2.term > existing.term
      · exact ⟨logs.insert e.1 e.2, by simp [flushLoop, hle, hget, hterm], hinserted (by omega),
          fun h he => h.insert he⟩
      · exact ⟨logs, by simp [flushLoop, hle, hget, hterm],
          fun slot => hkept slot (Or.inr ⟨existing, hget⟩), fun h _ => h⟩

theorem flushLoop_spec (committedSlot : Nat) (pending : List (Nat × LogEntry))
    (logs : OrderedMap Nat LogEntry) :
    (∀ slot, (∃ v, (flushLoop committedSlot logs pending).get? slot = some v) ↔
      (∃ v, logs.get? slot = some v) ∨ committedSlot < slot ∧ ∃ v, (slot, v) ∈ pending) ∧
    (KeyedBySlot logs → (∀ e ∈ pending, e.2.slot = e.1) →
      KeyedBySlot (flushLoop committedSlot logs pending)) := by
  induction pending generalizing logs with
  | nil => exact ⟨fun slot => by simp [flushLoop], fun h _ => h⟩
  | cons e pending ih =>
    obtain ⟨logs', heq, hslots, hkeyed⟩ := flushLoop_cons committedSlot logs e pending
    obtain ⟨ihslots, ihkeyed⟩ := ih logs'
    rw [heq]
    refine ⟨?_, ?_⟩
    · intro slot
      rw [ihslots slot, hslots slot, or_assoc, ← and_or_left]
      refine or_congr_right (and_congr_right fun _ => ?_)
      constructor
      · rintro (rfl | ⟨v, hv⟩)
        · exact ⟨e.2, List.mem_cons_self⟩
        · exact ⟨v, List.mem_cons_of_mem _ hv⟩
      · rintro ⟨v, hv⟩
        rcases List.mem_cons.mp hv with hhead | htail
        · exact Or.inl (congrArg Prod.fst hhead)
        · exact Or.inr ⟨v, htail⟩
    · intro h hpending
      exact ihkeyed (hkeyed h (hpending e List.mem_cons_self))
        fun e' he' => hpending e' (List.mem_cons_of_mem _ he')

variable {self : Candidate} {ctx : PaxosSharedContext}

/-- **What is flushed is what is recovered.** -/
theorem flushUncommittedLogs_get? (self : Candidate) (ctx : PaxosSharedContext) (slot : Nat) :
    (∃ e, (self.flushUncommittedLogs ctx).uncommittedLogs.get? slot = some e) ↔
      self.Recovers ctx slot := by
  have hspec := (flushLoop_spec ctx.committedSlot self.pendingUncommittedLogs.entries
    ctx.uncommittedLogs).1 slot
  refine hspec.trans (or_congr_right (and_congr_right fun _ => ?_))
  exact exists_congr fun e => OrderedMap.get?_eq_some_iff.symm

theorem keyed_flushUncommittedLogs {self : Candidate} {ctx : PaxosSharedContext}
    (h : KeyedBySlot ctx.uncommittedLogs) (hpending : KeyedBySlot self.pendingUncommittedLogs) :
    KeyedBySlot (self.flushUncommittedLogs ctx).uncommittedLogs := by
  refine (flushLoop_spec _ _ _).2 h ?_
  intro e he
  exact hpending e.1 e.2 (OrderedMap.get?_eq_some_iff.mpr he)

end Candidate

namespace Leader
variable {self : Leader} {ctx : PaxosSharedContext} {env : Env}

/-- **What replicating the uncommitted entries does to the log**: each is written at
its slot with the new term, and nothing else changes. -/
theorem processUncommittedLogs_wal (env : Env) (h : KeyedBySlot ctx.uncommittedLogs) :
    let ctx' := (self.processUncommittedLogs ctx env).state.2
    (∀ slot e, ctx.uncommittedLogs.get? slot = some e →
      ctx'.wal.get? slot = some { e with term := ctx.term }) ∧
    (∀ slot, ctx.uncommittedLogs.get? slot = none → ctx'.wal.get? slot = ctx.wal.get? slot) := by
  have hwal : (self.processUncommittedLogs ctx env).state.2.wal = ctx.wal.appendAll
      (ctx.uncommittedLogs.mapValues fun entry => { entry with term := ctx.term }).values := by
    unfold processUncommittedLogs
    dsimp only
    split <;> rfl
  -- what is written at a slot is the uncommitted entry there, restamped
  have hmem : ∀ e, e ∈ (ctx.uncommittedLogs.mapValues
      fun entry => { entry with term := ctx.term }).values ↔
        ∃ e', ctx.uncommittedLogs.get? e.slot = some e' ∧ { e' with term := ctx.term } = e := by
    intro e
    rw [OrderedMap.mem_values_iff]
    constructor
    · rintro ⟨slot, hslot⟩
      rw [OrderedMap.get?_mapValues] at hslot
      obtain ⟨e', he', rfl⟩ := Option.map_eq_some_iff.mp hslot
      exact ⟨e', by rw [h slot e' he']; exact he', rfl⟩
    · rintro ⟨e', he', heq⟩
      exact ⟨e.slot, by rw [OrderedMap.get?_mapValues, he']; exact congrArg some heq⟩
  refine ⟨?_, ?_⟩
  · intro slot e he
    have hslot := h slot e he
    subst hslot
    rw [hwal]
    refine WriteAheadLog.get?_appendAll_of_mem _ (e := { e with term := ctx.term }) ?_ ?_
    · exact (hmem _).mpr ⟨e, he, rfl⟩
    · intro e' he' hs
      obtain ⟨e'', he'', rfl⟩ := (hmem e').mp he'
      rw [hs] at he''
      rw [Option.some.inj (he''.symm.trans he)]
  · intro slot hnone
    rw [hwal]
    refine WriteAheadLog.get?_appendAll_of_forall_ne _ ?_
    intro e he hs
    obtain ⟨e', he', _⟩ := (hmem e).mp he
    rw [hs, hnone] at he'
    cases he'

/-- The uncommitted entries carry the new term. -/
theorem processUncommittedLogs_uncommittedLogs (self : Leader) (ctx : PaxosSharedContext)
    (env : Env) : (self.processUncommittedLogs ctx env).state.2.uncommittedLogs =
      ctx.uncommittedLogs.mapValues fun entry => { entry with term := ctx.term } := by
  unfold processUncommittedLogs
  dsimp only
  split <;> rfl

/-- The log position goes to the highest slot written, if there is one. -/
theorem processUncommittedLogs_lastLogSlot (env : Env)
    (h : KeyedBySlot ctx.uncommittedLogs) :
    let ctx' := (self.processUncommittedLogs ctx env).state.2
    ((∀ slot, ctx.uncommittedLogs.get? slot = none) ∧ ctx'.lastLogSlot = ctx.lastLogSlot) ∨
    ((∃ e, ctx.uncommittedLogs.get? ctx'.lastLogSlot = some e) ∧
      ∀ slot e, ctx.uncommittedLogs.get? slot = some e → slot ≤ ctx'.lastLogSlot) := by
  unfold processUncommittedLogs
  dsimp only
  rcases (ctx.uncommittedLogs.mapValues
      fun entry => { entry with term := ctx.term }).getLast?_values_cases with
    ⟨hlast, hnone⟩ | ⟨k, v, hlast, hk, hmax⟩
  · rw [hlast]
    refine Or.inl ⟨fun slot => ?_, rfl⟩
    have hslot := hnone slot
    rw [OrderedMap.get?_mapValues] at hslot
    exact Option.map_eq_none_iff.mp hslot
  · rw [hlast]
    rw [OrderedMap.get?_mapValues] at hk
    obtain ⟨e, he, rfl⟩ := Option.map_eq_some_iff.mp hk
    have hslot := h k e he
    refine Or.inr ⟨⟨e, ?_⟩, fun q e' he' => ?_⟩
    · show ctx.uncommittedLogs.get? e.slot = some e
      rw [hslot, he]
    · show q ≤ e.slot
      rw [hslot]
      refine hmax q { e' with term := ctx.term } ?_
      rw [OrderedMap.get?_mapValues, he']
      rfl

/-- Replicating the uncommitted entries neither commits nor matches anything, and
what is sent is made from the log that it leaves. -/
theorem processUncommittedLogs_board (self : Leader) (ctx : PaxosSharedContext) (env : Env) :
    let a := self.processUncommittedLogs ctx env
    a.state.2.committedSlot = ctx.committedSlot ∧
      a.state.1.scoreBoard.keys = self.scoreBoard.keys ∧
      (∀ p, a.state.1.matchSlot? p = self.matchSlot? p) ∧
      ∀ p request, Effect.dispatchAccept p request ∈ a.effects →
        Sent a.state.2 none request := by
  unfold processUncommittedLogs
  dsimp only
  split
  · refine ⟨rfl, ?_, ?_, ?_⟩
    · refine (dispatchAcceptRequest_spec _ _ _ _).1.keys.trans ?_
      exact AssocMap.keys_mapValues _ _
    · intro p
      refine ((dispatchAcceptRequest_spec _ _ _ _).1.matchSlot p).trans ?_
      unfold matchSlot?
      rw [AssocMap.get?_mapValues]
      cases self.scoreBoard.get? p <;> rfl
    · intro p request hmem
      exact ((dispatchAcceptRequest_spec _ _ _ _).2 _ hmem).sent
  · refine ⟨rfl, (dispatchAcceptRequest_spec _ _ _ _).1.keys,
      (dispatchAcceptRequest_spec _ _ _ _).1.matchSlot, ?_⟩
    intro p request hmem
    exact ((dispatchAcceptRequest_spec _ _ _ _).2 _ hmem).sent

end Leader

namespace Candidate

/-- What a win leaves behind: the recovered slots carry the new term, everything
else of the log and the match slots is as before, and what is sent is made from
the new log. -/
structure Won (c : Candidate) (ctx : PaxosSharedContext) (leader : Leader)
    (ctx' : PaxosSharedContext) (effects : List Effect) : Prop where
  recovered : ∀ slot, c.Recovers ctx slot →
    ∃ e, ctx'.wal.get? slot = some e ∧ e.term = ctx.term
  kept : ∀ slot, ¬ c.Recovers ctx slot → ctx'.wal.get? slot = ctx.wal.get? slot
  lastLogSlot : (∀ slot, ¬ c.Recovers ctx slot) ∧ ctx'.lastLogSlot = ctx.lastLogSlot ∨
    c.Recovers ctx ctx'.lastLogSlot ∧ ∀ slot, c.Recovers ctx slot → slot ≤ ctx'.lastLogSlot
  same : ctx.SameMember ctx'
  committedSlot : ctx'.committedSlot = ctx.committedSlot
  keys : leader.scoreBoard.keys = c.scoreBoard.keys
  matchSlot : ∀ p m, leader.matchSlot? p = some m →
    ∃ pos, c.scoreBoard.get? p = some pos ∧ pos.matchSlot = m
  sent : ∀ p request, Effect.dispatchAccept p request ∈ effects → Leader.Sent ctx' none request

/-- A win commits nothing. -/
theorem committedSlot_of_win {self : Candidate} {ctx : PaxosSharedContext} {env : Env}
    {response : VoteResponse} {leader : Leader}
    (h : (self.handleEvent (.voteResponseReceived response) ctx env).result =
      .ok (.leader leader)) :
    (self.handleEvent (.voteResponseReceived response) ctx env).ctx.committedSlot =
      ctx.committedSlot := by
  obtain ⟨c', dispatchTime, _, _, _, heq⟩ := eq_becomeLeader_of_win h
  rw [heq, becomeLeader, Attempt.toOutcome_ctx]
  exact (Leader.processUncommittedLogs_board _ _ _).1

/-- The match slots of a new Leader are the seeds of the score board it has won by. -/
theorem matchSlot?_new {board : AssocMap Uuid LogPosition} {p : Uuid} {m : Nat}
    (h : (Leader.new board).matchSlot? p = some m) :
    ∃ pos, board.get? p = some pos ∧ pos.matchSlot = m := by
  unfold Leader.matchSlot? Leader.new at h
  dsimp only at h
  rw [AssocMap.get?_mapValues] at h
  obtain ⟨fs, hfs, hm⟩ := Option.map_eq_some_iff.mp h
  obtain ⟨pos, hpos, rfl⟩ := Option.map_eq_some_iff.mp hfs
  exact ⟨pos, hpos, hm⟩

/-- **What becoming the leader does.** -/
theorem becomeLeader_won {c : Candidate} {ctx : PaxosSharedContext} {env : Env} {leader : Leader}
    (h : (c.becomeLeader ctx env).result = .ok (.leader leader))
    (hkeyed : KeyedBySlot (c.flushUncommittedLogs ctx).uncommittedLogs) :
    c.Won ctx leader (c.becomeLeader ctx env).ctx (c.becomeLeader ctx env).effects := by
  have hflush := c.flushUncommittedLogs_get? ctx
  have hsame : ctx.SameMember (c.becomeLeader ctx env).ctx := c.becomeLeader_sameMember
  obtain ⟨hrestamped, hkept⟩ := (Leader.new c.scoreBoard).processUncommittedLogs_wal env hkeyed
  have hlast := (Leader.new c.scoreBoard).processUncommittedLogs_lastLogSlot env hkeyed
  obtain ⟨hcommitted, hkeys, hmatch, hsent⟩ :=
    (Leader.new c.scoreBoard).processUncommittedLogs_board (c.flushUncommittedLogs ctx) env
  have hleader := PaxosState.leader.inj (Attempt.toOutcome_result h)
  rw [becomeLeader, Attempt.toOutcome_ctx] at hsame
  rw [becomeLeader, Attempt.toOutcome_ctx, Attempt.toOutcome_effects]
  refine ⟨?_, ?_, ?_, hsame, hcommitted, ?_, ?_, hsent⟩
  · intro slot hslot
    obtain ⟨e, he⟩ := (hflush slot).mpr hslot
    exact ⟨_, hrestamped slot e he, rfl⟩
  · intro slot hno
    refine hkept slot ?_
    rw [Option.eq_none_iff_forall_ne_some]
    intro e he
    exact hno ((hflush slot).mp ⟨e, he⟩)
  · rcases hlast with ⟨hempty, hlast⟩ | ⟨hmem, hmax⟩
    · refine Or.inl ⟨?_, hlast⟩
      intro slot hslot
      obtain ⟨e, he⟩ := (hflush slot).mpr hslot
      rw [hempty slot] at he
      cases he
    · refine Or.inr ⟨(hflush _).mp hmem, ?_⟩
      intro slot hslot
      obtain ⟨e, he⟩ := (hflush slot).mpr hslot
      exact hmax slot e he
  · rw [hleader]
    exact hkeys.trans (AssocMap.keys_mapValues _ _)
  · intro p m hm
    rw [hleader] at hm
    exact matchSlot?_new ((hmatch p).symm.trans hm)

/-- The lease that is set with a win concerns nothing of this. -/
theorem Won.of_updateLease {c : Candidate} {ctx ctx' : PaxosSharedContext} {t : DateTime}
    {leader : Leader} {effects : List Effect}
    (h : c.Won (ctx.updateLeaderLeaseExpiryTime t) leader ctx' effects) :
    c.Won ctx leader ctx' effects :=
  ⟨h.recovered, h.kept, h.lastLogSlot,
    (PaxosSharedContext.SameMember.updateLease ctx t).trans h.same, h.committedSlot, h.keys,
    h.matchSlot, h.sent⟩

/-- **What a win does.** -/
theorem won_of_handleEvent {self : Candidate} {ctx : PaxosSharedContext} {env : Env}
    {response : VoteResponse} {leader : Leader}
    (h : (self.handleEvent (.voteResponseReceived response) ctx env).result =
      .ok (.leader leader))
    (hkeyed : KeyedBySlot ctx.uncommittedLogs)
    (hpending : ∀ c', self.recordVote response ctx = some c' →
      KeyedBySlot c'.pendingUncommittedLogs) :
    ∃ c', self.recordVote response ctx = some c' ∧
      c'.Won ctx leader (self.handleEvent (.voteResponseReceived response) ctx env).ctx
        (self.handleEvent (.voteResponseReceived response) ctx env).effects := by
  obtain ⟨c', dispatchTime, hrecord, _, _, heq⟩ := eq_becomeLeader_of_win h
  rw [heq] at h ⊢
  have hflushed : KeyedBySlot (c'.flushUncommittedLogs (ctx.updateLeaderLeaseExpiryTime
      (dispatchTime + PaxosSharedContext.leaseLength))).uncommittedLogs :=
    keyed_flushUncommittedLogs hkeyed (hpending c' hrecord)
  exact ⟨c', hrecord, (becomeLeader_won h hflushed).of_updateLease⟩

end Candidate
end SpannerPaxos
