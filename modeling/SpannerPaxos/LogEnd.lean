import SpannerPaxos.LogMoves
import SpannerPaxos.Wakeup

/-! # The log position and the end of the log

`last_log_slot` and `last_log_term` are kept beside the log, and elections and conflict
hints trust them.  Whatever writes entries sets them to the last one; a batch without
entries drops the tail behind its anchor and leaves them as they are.  A new Leader takes
them from the last uncommitted entry, which is the last of its log because the
uncommitted entries are never interrupted by others.
-/
namespace SpannerPaxos

open PaxosSharedContext

namespace PaxosSharedContext
variable {ctx ctx' : PaxosSharedContext}

/-- The log position is that of the highest entry of the log; of an empty log it is 0. -/
def AtLogEnd (ctx : PaxosSharedContext) : Prop :=
  ((∀ slot, ctx.wal.get? slot = none) ∧ ctx.lastLogSlot = 0 ∧ ctx.lastLogTerm = 0) ∨
    ∃ e, ctx.wal.get? ctx.lastLogSlot = some e ∧ e.term = ctx.lastLogTerm ∧
      ∀ slot e', ctx.wal.get? slot = some e' → slot ≤ ctx.lastLogSlot

/-- From the first uncommitted entry on, and above the commit point, every entry of the
log is uncommitted. -/
def TailUncommitted (ctx : PaxosSharedContext) : Prop :=
  ∀ slot e, ctx.wal.get? slot = some e →
    (ctx.committedSlot < slot ∨ ∃ k e', k ≤ slot ∧ ctx.uncommittedLogs.get? k = some e') →
    ∃ e', ctx.uncommittedLogs.get? slot = some e'

/-- No entry of the log stands above the log position. -/
def Bounded (ctx : PaxosSharedContext) : Prop :=
  ∀ slot e, ctx.wal.get? slot = some e → slot ≤ ctx.lastLogSlot

theorem Bounded.congr (h : ctx.Bounded) (hsame : SameLog ctx ctx') : ctx'.Bounded := by
  unfold Bounded
  rw [hsame.wal, hsame.lastLogSlot]
  exact h

theorem AtLogEnd.congr (h : ctx.AtLogEnd) (hsame : SameLog ctx ctx') : ctx'.AtLogEnd := by
  unfold AtLogEnd
  rw [hsame.wal, hsame.lastLogSlot, hsame.lastLogTerm]
  exact h

theorem TailUncommitted.congr (h : ctx.TailUncommitted) (hsame : SameLog ctx ctx') :
    ctx'.TailUncommitted := by
  unfold TailUncommitted
  rw [hsame.wal, hsame.uncommittedLogs, hsame.committedSlot]
  exact h

theorem AtLogEnd.bounded (h : ctx.AtLogEnd) : ctx.Bounded := by
  intro slot e he
  rcases h with ⟨hempty, _⟩ | ⟨_, _, _, hle⟩
  · rw [hempty slot] at he
    cases he
  · exact hle slot e he

/-! ## A batch -/

variable {request : AcceptRequest}

/-- The log position after a batch. -/
theorem writeBatch_logPosition (request : AcceptRequest) (ctx : PaxosSharedContext) :
    (request.entries = [] ∧
      (Follower.writeBatch request ctx).2.lastLogSlot = ctx.lastLogSlot ∧
      (Follower.writeBatch request ctx).2.lastLogTerm = ctx.lastLogTerm) ∨
    ∃ e, request.entries.getLast? = some e ∧
      (Follower.writeBatch request ctx).2.lastLogSlot = e.slot ∧
      (Follower.writeBatch request ctx).2.lastLogTerm = e.term := by
  rw [Follower.writeBatch, followCommit_eq, replaceTail_eq]
  dsimp only
  cases hlast : request.entries.getLast? with
  | none => exact Or.inl ⟨List.getLast?_eq_none_iff.mp hlast, rfl, rfl⟩
  | some e => exact Or.inr ⟨e, rfl, rfl, rfl⟩

/-- **A batch keeps the log position at the end of the log exactly if it has entries or
drops nothing.** -/
theorem writeBatch_atLogEnd_iff (hend : ctx.AtLogEnd) (h : request.Consecutive) :
    (Follower.writeBatch request ctx).2.AtLogEnd ↔
      (request.entries = [] → ∀ slot e, ctx.wal.get? slot = some e →
        slot ≤ request.prevLogSlot) := by
  have hreach := h.reach_eq
  have hwal := Follower.writeBatch_wal request ctx
  rcases writeBatch_logPosition request ctx with ⟨hnil, hslot, hterm⟩ | ⟨e, hlast, hslot, hterm⟩
  · have hnone : request.reach = request.prevLogSlot := h.entries_eq_nil_iff.mp hnil
    constructor
    · intro hafter _ slot e he
      by_contra hgt
      -- the position is still above the anchor, where nothing is left
      have hle := hend.bounded slot e he
      rcases hafter with ⟨_, hzero, _⟩ | ⟨e', he', _⟩
      · omega
      · rw [hslot, hwal, (Follower.writtenWal_get? h ctx.wal ctx.lastLogSlot).2.1 (by omega)]
          at he'
        cases he'
    · intro hdrops
      have hsame : ∀ slot, (Follower.writeBatch request ctx).2.wal.get? slot =
          ctx.wal.get? slot := by
        intro slot
        rw [hwal]
        rcases Nat.lt_or_ge request.prevLogSlot slot with hlt | hge
        · rw [(Follower.writtenWal_get? h ctx.wal slot).2.1 (by omega)]
          cases hget : ctx.wal.get? slot with
          | none => rfl
          | some e =>
            have hle := hdrops hnil slot e hget
            omega
        · exact (Follower.writtenWal_get? h ctx.wal slot).1 hge
      unfold AtLogEnd
      simp only [hsame, hslot, hterm]
      exact hend
  · have hmem := List.mem_of_getLast? hlast
    have hentry := AcceptRequest.reach_eq_of_getLast? hlast
    refine ⟨fun _ hnil => ?_, fun _ => Or.inr ⟨e.toLogEntry, ?_, hterm.symm, ?_⟩⟩
    · rw [hnil] at hmem
      cases hmem
    · rw [hslot, hwal]
      exact Follower.writtenWal_get?_of_mem h ctx.wal hmem
    · intro slot e' he'
      by_contra hgt
      rw [hwal, (Follower.writtenWal_get? h ctx.wal slot).2.1 (by omega)] at he'
      cases he'

theorem writeEntries_keyed (hkeyed : KeyedBySlot ctx.uncommittedLogs)
    (batch : List AcceptLogEntry) : KeyedBySlot (ctx.writeEntries batch).uncommittedLogs := by
  induction batch generalizing ctx with
  | nil => exact hkeyed
  | cons e batch ih => exact ih (hkeyed.insert rfl)

theorem writeBatch_keyed (hkeyed : KeyedBySlot ctx.uncommittedLogs) (request : AcceptRequest) :
    KeyedBySlot (Follower.writeBatch request ctx).2.uncommittedLogs := by
  intro slot e he
  rw [Follower.writeBatch_uncommittedLogs] at he
  split at he
  · cases he
  · exact writeEntries_keyed hkeyed request.entries slot e he

/-- A batch is written to the log and to the uncommitted entries alike. -/
theorem TailUncommitted.writeBatch (h : ctx.TailUncommitted) (hbatch : request.Ascending) :
    (Follower.writeBatch request ctx).2.TailUncommitted := by
  intro slot e he hwhy
  rw [Follower.writeBatch_wal] at he
  rw [Follower.writeBatch_committedSlot] at hwhy
  -- what is uncommitted after the batch was so before, or the batch has written it
  have hunwritten : ∀ k, k ≤ request.prevLogSlot →
      (ctx.writeEntries request.entries).uncommittedLogs.get? k =
        ctx.uncommittedLogs.get? k := by
    intro k hk
    refine (ctx.writeEntries_get? ctx.wal _ k).2 fun x hx hs => ?_
    have hlt := (hbatch x hx).1
    omega
  have hslots : ∀ k e', (Follower.writeBatch request ctx).2.uncommittedLogs.get? k = some e' →
      (ctx.committedSlot < min request.leaderCommitSlot request.reach →
        min request.leaderCommitSlot request.reach < k) ∧
      (ctx.writeEntries request.entries).uncommittedLogs.get? k = some e' := by
    intro k e' hk
    rw [Follower.writeBatch_uncommittedLogs] at hk
    split at hk
    · cases hk
    · rename_i hkept
      exact ⟨by omega, hk⟩
  have habove : ctx.committedSlot < min request.leaderCommitSlot request.reach →
      min request.leaderCommitSlot request.reach < slot := by
    intro hmoves
    rcases hwhy with hlt | ⟨k, e', hle, hk⟩
    · omega
    · have hlt := (hslots k e' hk).1 hmoves
      omega
  have hwritten : ∃ e', (ctx.writeEntries request.entries).uncommittedLogs.get? slot =
      some e' := by
    by_cases hin : ∃ x ∈ request.entries, x.slot = slot
    · refine ⟨e, ?_⟩
      rw [(ctx.writeEntries_get? _ _ slot).1 hin]
      exact he
    · have hno : ∀ x ∈ request.entries, x.slot ≠ slot := fun x hx hs => hin ⟨x, hx, hs⟩
      rw [Follower.writtenWal_get?_of_forall_ne _ hno] at he
      split at he
      · rename_i hlt
        rw [hunwritten slot (by omega)]
        refine h slot e he ?_
        rcases hwhy with hlt' | ⟨k, e', hle, hk⟩
        · exact Or.inl (by omega)
        · have hk' := (hslots k e' hk).2
          rw [hunwritten k (by omega)] at hk'
          exact Or.inr ⟨k, e', hle, hk'⟩
      · cases he
  obtain ⟨e', he'⟩ := hwritten
  refine ⟨e', ?_⟩
  rw [Follower.writeBatch_uncommittedLogs, if_neg (by omega)]
  exact he'

/-- A batch that writes anything moves the log position behind it, and else drops what
stood there. -/
theorem Bounded.writeBatch (h : ctx.Bounded) (hbatch : request.Ascending) :
    (Follower.writeBatch request ctx).2.Bounded := by
  intro slot e he
  rw [Follower.writeBatch_wal] at he
  by_cases hin : ∃ x ∈ request.entries, x.slot = slot
  · obtain ⟨x, hx, rfl⟩ := hin
    rcases writeBatch_logPosition request ctx with ⟨hnil, _⟩ | ⟨last, hlast, hslot, _⟩
    · rw [hnil] at hx
      cases hx
    · rw [hslot, ← AcceptRequest.reach_eq_of_getLast? hlast]
      exact (hbatch x hx).2
  · have hno : ∀ x ∈ request.entries, x.slot ≠ slot := fun x hx hs => hin ⟨x, hx, hs⟩
    rw [Follower.writtenWal_get?_of_forall_ne _ hno] at he
    split at he
    · rename_i hlt
      rcases writeBatch_logPosition request ctx with ⟨_, hslot, _⟩ | ⟨last, hlast, hslot, _⟩
      · rw [hslot]
        exact h slot e he
      · have hprev := (hbatch last (List.mem_of_getLast? hlast)).1
        omega
    · cases he

/-! ## A commit and a client's write -/

theorem AtLogEnd.commitTo (h : ctx.AtLogEnd) (slot : Nat) : (ctx.commitTo slot).AtLogEnd := by
  unfold AtLogEnd
  rw [commitTo_wal, commitTo_lastLogSlot, commitTo_lastLogTerm]
  exact h

theorem TailUncommitted.commitTo (h : ctx.TailUncommitted) {slot : Nat}
    (hlt : ctx.committedSlot < slot) : (ctx.commitTo slot).TailUncommitted := by
  intro s e he hwhy
  rw [commitTo_wal] at he
  rw [commitTo_committedSlot] at hwhy
  have hgt : slot < s := by
    rcases hwhy with hgt | ⟨k, e', hle, hk⟩
    · exact hgt
    · rw [commitTo_uncommittedLogs, OrderedMap.get?_filterKeys] at hk
      split at hk
      · rename_i hkept
        have hlt' := of_decide_eq_true hkept
        omega
      · cases hk
  obtain ⟨e', he'⟩ := h s e he (Or.inl (by omega))
  refine ⟨e', ?_⟩
  rw [commitTo_uncommittedLogs, OrderedMap.get?_filterKeys, decide_eq_true hgt]
  exact he'

theorem commitTo_keyed (h : KeyedBySlot ctx.uncommittedLogs) (slot : Nat) :
    KeyedBySlot (ctx.commitTo slot).uncommittedLogs := by
  intro s e he
  rw [commitTo_uncommittedLogs, OrderedMap.get?_filterKeys] at he
  split at he
  · exact h s e he
  · cases he

/-- The context with one more entry, behind all others. -/
def appendEntry (ctx : PaxosSharedContext) (e : LogEntry) : PaxosSharedContext :=
  { ctx with
    wal := ctx.wal.append e
    uncommittedLogs := ctx.uncommittedLogs.insert e.slot e
    lastLogTerm := e.term
    lastLogSlot := e.slot }

theorem Bounded.commitTo (h : ctx.Bounded) (slot : Nat) : (ctx.commitTo slot).Bounded := by
  unfold Bounded
  rw [commitTo_wal, commitTo_lastLogSlot]
  exact h

theorem Bounded.append (h : ctx.Bounded) {e : LogEntry} (hslot : e.slot = ctx.lastLogSlot + 1) :
    (ctx.appendEntry e).Bounded := by
  intro slot e' he'
  change (ctx.wal.append e).get? slot = some e' at he'
  show slot ≤ e.slot
  rw [WriteAheadLog.get?_append] at he'
  split at he'
  · omega
  · have hle := h slot e' he'
    omega

theorem AtLogEnd.append (h : ctx.AtLogEnd) {e : LogEntry} (hslot : e.slot = ctx.lastLogSlot + 1) :
    (ctx.appendEntry e).AtLogEnd := by
  refine Or.inr ⟨e, ?_, rfl, ?_⟩
  · exact (ctx.wal.get?_append e e.slot).trans (if_pos rfl)
  · exact h.bounded.append hslot

theorem TailUncommitted.append (h : ctx.TailUncommitted) (hbounded : ctx.Bounded) {e : LogEntry}
    (hslot : e.slot = ctx.lastLogSlot + 1) : (ctx.appendEntry e).TailUncommitted := by
  intro slot e' he' hwhy
  change (ctx.wal.append e).get? slot = some e' at he'
  change ∃ e', (ctx.uncommittedLogs.insert e.slot e).get? slot = some e'
  rw [WriteAheadLog.get?_append] at he'
  rw [OrderedMap.get?_insert]
  split at he'
  · rename_i hs
    exact ⟨e, if_pos hs⟩
  · rename_i hs
    have hle := hbounded slot e' he'
    rw [if_neg hs]
    refine h slot e' he' ?_
    rcases hwhy with hlt | ⟨k, e'', hk, hget⟩
    · exact Or.inl hlt
    · change (ctx.uncommittedLogs.insert e.slot e).get? k = some e'' at hget
      rw [OrderedMap.get?_insert, if_neg (by omega)] at hget
      exact Or.inr ⟨k, e'', hk, hget⟩

/-! ## What a new Leader recovers -/

section Recovery
variable {self : Leader} {c : Candidate}

/-- The log term goes to the current one, if anything is written. -/
theorem processUncommittedLogs_lastLogTerm (self : Leader) (ctx : PaxosSharedContext) (env : Env) :
    let ctx' := (self.processUncommittedLogs ctx env).state.2
    ((∀ slot, ctx.uncommittedLogs.get? slot = none) → ctx'.lastLogTerm = ctx.lastLogTerm) ∧
    (∀ slot e, ctx.uncommittedLogs.get? slot = some e → ctx'.lastLogTerm = ctx.term) := by
  unfold Leader.processUncommittedLogs
  dsimp only
  rcases (ctx.uncommittedLogs.mapValues
      fun entry => { entry with term := ctx.term }).getLast?_values_cases with
    ⟨hlast, hnone⟩ | ⟨k, v, hlast, hk, _⟩
  · rw [hlast]
    refine ⟨fun _ => rfl, fun slot e he => ?_⟩
    have hslot := hnone slot
    rw [OrderedMap.get?_mapValues, he] at hslot
    cases hslot
  · rw [hlast]
    refine ⟨fun hnone => ?_, fun _ _ _ => rfl⟩
    rw [OrderedMap.get?_mapValues, hnone k] at hk
    cases hk

/-- The entry a new Leader finds at a slot of its log: the recovered one, restamped, or the
one that was there. -/
theorem recovered_wal (self : Leader)
    (hkeyed : KeyedBySlot (c.flushUncommittedLogs ctx).uncommittedLogs)
    (env : Env) (slot : Nat) :
    let ctx' := (self.processUncommittedLogs (c.flushUncommittedLogs ctx) env).state.2
    (c.Recovers ctx slot ∧ ∃ e : LogEntry, ctx'.wal.get? slot = some { e with term := ctx.term }) ∨
    (¬ c.Recovers ctx slot ∧ ctx'.wal.get? slot = ctx.wal.get? slot) := by
  obtain ⟨hrestamped, hkept⟩ := self.processUncommittedLogs_wal env hkeyed
  have hflush := c.flushUncommittedLogs_get? ctx slot
  cases hget : (c.flushUncommittedLogs ctx).uncommittedLogs.get? slot with
  | some e => exact Or.inl ⟨hflush.mp ⟨e, hget⟩, e, hrestamped slot e hget⟩
  | none =>
    refine Or.inr ⟨fun hrecovers => ?_, hkept slot hget⟩
    obtain ⟨e, he⟩ := hflush.mpr hrecovers
    rw [hget] at he
    cases he

/-- A log entry above a recovered one is recovered. -/
theorem TailUncommitted.recovers (h : ctx.TailUncommitted) {slot k : Nat} {e : LogEntry}
    (he : ctx.wal.get? slot = some e) (hk : c.Recovers ctx k) (hle : k ≤ slot) :
    c.Recovers ctx slot := by
  refine Or.inl (h slot e he ?_)
  rcases hk with ⟨e', he'⟩ | ⟨hlt, _⟩
  · exact Or.inr ⟨k, e', hle, he'⟩
  · exact Or.inl (by omega)

/-- The last recovered entry ends the log. -/
theorem Bounded.recover (h : ctx.Bounded) (htail : ctx.TailUncommitted)
    (hkeyed : KeyedBySlot (c.flushUncommittedLogs ctx).uncommittedLogs) (env : Env) :
    (self.processUncommittedLogs (c.flushUncommittedLogs ctx) env).state.2.Bounded := by
  have hflush := c.flushUncommittedLogs_get? ctx
  intro slot e he
  by_contra hgt
  have hnot : ¬ c.Recovers ctx slot := by
    intro hrecovers
    obtain ⟨e', he'⟩ := (hflush slot).mpr hrecovers
    rcases self.processUncommittedLogs_lastLogSlot env hkeyed with ⟨hnone, _⟩ | ⟨_, hle⟩
    · rw [hnone slot] at he'
      cases he'
    · exact hgt (hle slot e' he')
  rcases recovered_wal self hkeyed env slot with ⟨hrecovers, _⟩ | ⟨_, heq⟩
  · exact hnot hrecovers
  · rw [heq] at he
    rcases self.processUncommittedLogs_lastLogSlot env hkeyed with
      ⟨_, hslot⟩ | ⟨⟨last, hlast⟩, _⟩
    · rw [hslot] at hgt
      exact hgt (h slot e he)
    · exact hnot (htail.recovers he ((hflush _).mp ⟨last, hlast⟩) (by omega))

/-- The log position is that of the last recovered entry, which ends the log. -/
theorem AtLogEnd.recover (hend : ctx.AtLogEnd) (htail : ctx.TailUncommitted)
    (hkeyed : KeyedBySlot (c.flushUncommittedLogs ctx).uncommittedLogs) (env : Env) :
    (self.processUncommittedLogs (c.flushUncommittedLogs ctx) env).state.2.AtLogEnd := by
  have hwal := recovered_wal self hkeyed env
  have hflush := c.flushUncommittedLogs_get? ctx
  obtain ⟨hkept, hnew⟩ :=
    processUncommittedLogs_lastLogTerm self (c.flushUncommittedLogs ctx) env
  rcases self.processUncommittedLogs_lastLogSlot env hkeyed with
    ⟨hnone, hslot⟩ | ⟨⟨last, hlast⟩, _⟩
  · have hnot : ∀ slot, ¬ c.Recovers ctx slot := by
      intro slot hrecovers
      obtain ⟨e, he⟩ := (hflush slot).mpr hrecovers
      rw [hnone slot] at he
      cases he
    -- nothing is written, and the log position stays
    have hsame : ∀ slot, (self.processUncommittedLogs (c.flushUncommittedLogs ctx)
        env).state.2.wal.get? slot = ctx.wal.get? slot := by
      intro slot
      rcases hwal slot with ⟨hrecovers, _⟩ | ⟨_, heq⟩
      · exact absurd hrecovers (hnot slot)
      · exact heq
    have hterm := hkept hnone
    unfold AtLogEnd
    simp only [hsame, hslot, hterm]
    exact hend
  · have hrecovers := (hflush _).mp ⟨last, hlast⟩
    have hterm := hnew _ last hlast
    refine Or.inr ?_
    rcases hwal (self.processUncommittedLogs (c.flushUncommittedLogs ctx)
      env).state.2.lastLogSlot with ⟨_, e, he⟩ | ⟨hno, _⟩
    · exact ⟨_, he, hterm.symm, hend.bounded.recover htail hkeyed env⟩
    · exact absurd hrecovers hno

/-- What is recovered is uncommitted, and so is what the log has above it. -/
theorem TailUncommitted.recover (htail : ctx.TailUncommitted)
    (hkeyed : KeyedBySlot (c.flushUncommittedLogs ctx).uncommittedLogs) (env : Env) :
    (self.processUncommittedLogs (c.flushUncommittedLogs ctx) env).state.2.TailUncommitted := by
  have hcommitted : (self.processUncommittedLogs (c.flushUncommittedLogs ctx)
      env).state.2.committedSlot = ctx.committedSlot := (self.processUncommittedLogs_board _ _).1
  have hiff : ∀ slot, (∃ e, (self.processUncommittedLogs (c.flushUncommittedLogs ctx)
      env).state.2.uncommittedLogs.get? slot = some e) ↔ c.Recovers ctx slot := by
    intro slot
    rw [← c.flushUncommittedLogs_get? ctx slot, Leader.processUncommittedLogs_uncommittedLogs,
      OrderedMap.get?_mapValues]
    cases (c.flushUncommittedLogs ctx).uncommittedLogs.get? slot <;> simp
  intro slot e he hwhy
  rw [hiff]
  rcases recovered_wal self hkeyed env slot with ⟨hrecovers, _⟩ | ⟨_, heq⟩
  · exact hrecovers
  · rw [heq] at he
    rw [hcommitted] at hwhy
    rcases hwhy with hlt | ⟨k, e', hle, hk⟩
    · exact Or.inl (htail slot e he (Or.inl hlt))
    · exact htail.recovers he ((hiff k).mp ⟨e', hk⟩) hle

theorem recover_keyed (hkeyed : KeyedBySlot (c.flushUncommittedLogs ctx).uncommittedLogs)
    (env : Env) : KeyedBySlot (self.processUncommittedLogs (c.flushUncommittedLogs ctx)
      env).state.2.uncommittedLogs := by
  intro slot e he
  rw [Leader.processUncommittedLogs_uncommittedLogs, OrderedMap.get?_mapValues] at he
  obtain ⟨e', he', rfl⟩ := Option.map_eq_some_iff.mp he
  exact hkeyed slot e' he'

end Recovery

end PaxosSharedContext

/-! ## An event -/

section Event
variable {role : PaxosState} {event : PaxosEvent} {ctx ctx' : PaxosSharedContext} {env : Env}

/-- A batch that is written has entries, or drops nothing. -/
def PaxosState.KeepsLogEnd (role : PaxosState) (event : PaxosEvent) (ctx : PaxosSharedContext)
    (env : Env) : Prop :=
  ∀ command, event = .acceptRequestReceived command → role.Writes command.request ctx env →
    command.request.entries = [] →
    ∀ slot e, ctx.wal.get? slot = some e → slot ≤ command.request.prevLogSlot

/-- An accept request carries consecutive slots, from right behind its anchor on. -/
def PaxosEvent.Consecutive (event : PaxosEvent) : Prop :=
  ∀ command, event = .acceptRequestReceived command → command.request.Consecutive

/-- The uncommitted entries stand at their slots, and are the tail of the log. -/
structure PaxosSharedContext.Books (ctx : PaxosSharedContext) : Prop where
  keyed : KeyedBySlot ctx.uncommittedLogs
  tail : ctx.TailUncommitted

theorem PaxosSharedContext.Books.congr (h : ctx.Books) (hsame : SameLog ctx ctx') : ctx'.Books where
  keyed := hsame.uncommittedLogs ▸ h.keyed
  tail := h.tail.congr hsame

theorem PaxosSharedContext.SameLog.symm (h : SameLog ctx ctx') : SameLog ctx' ctx :=
  ⟨h.wal.symm, h.uncommittedLogs.symm, h.lastLogTerm.symm, h.lastLogSlot.symm,
    h.committedSlot.symm⟩

theorem PaxosSharedContext.SameLog.atLogEnd_iff (h : SameLog ctx ctx') :
    ctx'.AtLogEnd ↔ ctx.AtLogEnd :=
  ⟨fun hend => hend.congr h.symm, fun hend => hend.congr h⟩

/-- A Candidate's records stand at their slots. -/
def PaxosState.PendingKeyed (role : PaxosState) : Prop :=
  ∀ c, role = .candidate c → KeyedBySlot c.pendingUncommittedLogs

/-- Sending the vote requests leaves the records alone. -/
theorem Candidate.dispatchVote_pendingUncommittedLogs (self : Candidate)
    (ctx : PaxosSharedContext) (env : Env) :
    (self.dispatchVote ctx env).state.pendingUncommittedLogs = self.pendingUncommittedLogs := by
  unfold dispatchVote
  dsimp only
  split <;> rfl

theorem Candidate.keyed_recordVote {c c' : Candidate} {response : VoteResponse}
    (h : KeyedBySlot c.pendingUncommittedLogs) (hrecord : c.recordVote response ctx = some c') :
    KeyedBySlot c'.pendingUncommittedLogs := by
  cases houtcome : response.outcome with
  | promise promise =>
    rw [(recordVote_promise hrecord houtcome).1]
    exact keyed_mergeUncommittedLogs h _
  | rejection rejection =>
    rw [(recordVote_rejection hrecord (by rw [houtcome]; rfl)).1]
    exact h

/-- The entries a winning candidate recovers join the books under their slots. -/
theorem Candidate.keyed_recovered {c c' : Candidate} {response : VoteResponse}
    (hbooks : ctx.Books) (hpending : KeyedBySlot c.pendingUncommittedLogs)
    (hrecord : c.recordVote response ctx = some c') (lease : Option DateTime) :
    KeyedBySlot (c'.flushUncommittedLogs { ctx with leaseExpiry := lease }).uncommittedLogs :=
  keyed_flushUncommittedLogs hbooks.keyed (keyed_recordVote hpending hrecord)

/-- An accept request carries slots behind its anchor, the last one highest. -/
def PaxosEvent.Ascending (event : PaxosEvent) : Prop :=
  ∀ command, event = .acceptRequestReceived command → command.request.Ascending

theorem PaxosEvent.Consecutive.ascending (h : event.Consecutive) : event.Ascending :=
  fun command hevent => (h command hevent).ascending

/-- **One event keeps the books**, and the log below the log position. -/
theorem LogMove.books (h : LogMove role event ctx env ctx') (hbounded : ctx.Bounded)
    (hbooks : ctx.Books) (hpending : role.PendingKeyed) (hascending : event.Ascending) :
    ctx'.Books ∧ ctx'.Bounded := by
  cases h with
  | keeps hno hsame => exact ⟨hbooks.congr hsame, hbounded.congr hsame⟩
  | writes command hevent hwrites hsame =>
    have hbatch := hascending command hevent
    exact ⟨PaxosSharedContext.Books.congr ⟨writeBatch_keyed hbooks.keyed _,
      hbooks.tail.writeBatch hbatch⟩ hsame, (hbounded.writeBatch hbatch).congr hsame⟩
  | commits response hevent slot hlt hsame =>
    exact ⟨PaxosSharedContext.Books.congr ⟨commitTo_keyed hbooks.keyed slot,
      hbooks.tail.commitTo hlt⟩ hsame, (hbounded.commitTo slot).congr hsame⟩
  | appends command hevent e hslot hsame =>
    have happend : SameLog (ctx.appendEntry e) ctx' := hsame
    exact ⟨PaxosSharedContext.Books.congr ⟨hbooks.keyed.insert rfl,
      hbooks.tail.append hbounded hslot⟩ happend, (hbounded.append hslot).congr happend⟩
  | recovers response hevent c c' hrole hrecord lease env' hsame =>
    have hkeyed := Candidate.keyed_recovered hbooks (hpending c hrole) hrecord lease
    have htail := hbooks.tail.congr (.updateLease ctx lease)
    have hbelow := hbounded.congr (.updateLease ctx lease)
    exact ⟨PaxosSharedContext.Books.congr ⟨recover_keyed hkeyed env',
      htail.recover hkeyed env'⟩ hsame, (hbelow.recover htail hkeyed env').congr hsame⟩

/-- **One event keeps the log position at the end of the log** exactly if the batch it
writes, if any, has entries or drops nothing. -/
theorem LogMove.atLogEnd_iff (h : LogMove role event ctx env ctx') (hend : ctx.AtLogEnd)
    (hbooks : ctx.Books) (hpending : role.PendingKeyed) (hconsecutive : event.Consecutive) :
    ctx'.AtLogEnd ↔ role.KeepsLogEnd event ctx env := by
  have hother : (∀ command, event ≠ .acceptRequestReceived command) →
      role.KeepsLogEnd event ctx env := fun hno command hevent => absurd hevent (hno command)
  cases h with
  | keeps hno hsame =>
    refine ⟨fun _ => ?_, fun _ => hend.congr hsame⟩
    intro command hevent hwrites
    exact absurd hwrites (hno command hevent)
  | writes command hevent hwrites hsame =>
    rw [hsame.atLogEnd_iff, writeBatch_atLogEnd_iff hend (hconsecutive command hevent)]
    constructor
    · intro hdrops command' hevent' _
      cases hevent.symm.trans hevent'
      exact hdrops
    · intro hkeeps
      exact hkeeps command hevent hwrites
  | commits response hevent slot hlt hsame =>
    refine iff_of_true ?_ (hother (by simp [hevent]))
    exact (hend.commitTo slot).congr hsame
  | appends command hevent e hslot hsame =>
    have happend : SameLog (ctx.appendEntry e) ctx' := hsame
    refine iff_of_true ?_ (hother (by simp [hevent]))
    exact (hend.append hslot).congr happend
  | recovers response hevent c c' hrole hrecord lease env' hsame =>
    have hkeyed := Candidate.keyed_recovered hbooks (hpending c hrole) hrecord lease
    have htail := hbooks.tail.congr (.updateLease ctx lease)
    refine iff_of_true ?_ (hother (by simp [hevent]))
    exact ((hend.congr (.updateLease ctx lease)).recover htail hkeyed env').congr hsame

end Event

/-! ## Runs of a member -/

namespace Member

/-- The log position is at the end of the log, and the books are kept. -/
structure Books (m : Member) : Prop where
  logEnd : m.ctx.AtLogEnd
  ctx : m.ctx.Books
  pending : m.role.PendingKeyed

/-- A received accept request carries consecutive slots, from right behind its anchor
on. -/
def Label.Consecutive : Label → Prop
  | .event received _ => received.Consecutive
  | _ => True

/-- A batch that is written has entries, or drops nothing. -/
def KeepsLogEnd (m : Member) : Label → Prop
  | .event event env =>
    (m.role.adoptTerm event m.ctx).1.KeepsLogEnd event (m.role.adoptTerm event m.ctx).2 env
  | _ => True

/-- A Follower that holds nothing has its books in order. -/
theorem books_of_empty {m : Member} {f : Follower} (hrole : m.role = .follower f)
    (hwal : ∀ slot, m.ctx.wal.get? slot = none)
    (huncommitted : ∀ slot, m.ctx.uncommittedLogs.get? slot = none)
    (hslot : m.ctx.lastLogSlot = 0) (hterm : m.ctx.lastLogTerm = 0) : m.Books where
  logEnd := Or.inl ⟨hwal, hslot, hterm⟩
  ctx := by
    constructor
    · intro slot e he
      rw [huncommitted slot] at he
      cases he
    · intro slot e he
      rw [hwal slot] at he
      cases he
  pending := by
    intro c hc
    rw [hrole] at hc
    cases hc

theorem start_books (memberId : Uuid) (peerIds : List Uuid) (h : peerIds.Nodup) :
    (start memberId peerIds h).Books :=
  books_of_empty rfl (fun _ => rfl) (fun _ => rfl) rfl rfl

/-- The adoption of a term leaves the log alone. -/
theorem adoptTerm_sameLog {m : Member} (hm : m.role.PendingKeyed) (event : PaxosEvent) :
    SameLog m.ctx (m.role.adoptTerm event m.ctx).2 ∧
      (m.role.adoptTerm event m.ctx).1.PendingKeyed := by
  rcases m.role.adoptTerm_cases event m.ctx with heq | ⟨term, _, _, heq⟩
  · rw [heq]
    exact ⟨.refl _, hm⟩
  · rw [heq]
    refine ⟨⟨rfl, rfl, rfl, rfl, rfl⟩, ?_⟩
    intro c hc
    cases hc

/-- **What a step does to the log**: the role that is left when the term is adopted handles
the event; or a timer moves, and the log stays, and so does a role other than a Follower. -/
theorem step_handles {m m' : Member} {l : Label} (h : m.step l = some m') :
    (∃ event env, l = .event event env ∧
      ((m.role.adoptTerm event m.ctx).1.handleEvent event (m.role.adoptTerm event m.ctx).2
        env).result = .ok m'.role ∧
      m'.ctx = ((m.role.adoptTerm event m.ctx).1.handleEvent event
        (m.role.adoptTerm event m.ctx).2 env).ctx) ∨
    ((∀ event env, l ≠ .event event env) ∧ SameLog m.ctx m'.ctx ∧
      (m'.role = m.role ∨ ∃ f, m'.role = .follower f)) := by
  rcases step_cases h with ⟨event, env, hl, hresult, hctx⟩ | ⟨hno, ⟨lease, hctx⟩, hrole⟩
  · rw [PaxosState.processEvent_eq] at hresult hctx
    exact Or.inl ⟨event, env, hl, hresult, hctx⟩
  · rw [hctx]
    exact Or.inr ⟨hno, .updateLease m.ctx lease, hrole⟩

/-- A received accept request carries slots behind its anchor, the last one highest. -/
def Label.Ascending : Label → Prop
  | .event received _ => received.Ascending
  | _ => True

theorem Label.Consecutive.ascending {l : Label} (h : l.Consecutive) : l.Ascending := by
  cases l with
  | event received env => exact PaxosEvent.Consecutive.ascending h
  | _ => exact trivial

/-- The books are kept, and the log below the log position. -/
structure Kept (m : Member) : Prop where
  ctx : m.ctx.Books
  bounded : m.ctx.Bounded
  pending : m.role.PendingKeyed

theorem Books.kept {m : Member} (h : m.Books) : m.Kept := ⟨h.ctx, h.logEnd.bounded, h.pending⟩

/-- **One step keeps the books.** -/
theorem Kept.step {m m' : Member} {l : Label} (hm : m.Kept) (hl : l.Ascending)
    (h : m.step l = some m') : m'.Kept := by
  rcases step_handles h with ⟨event, env, rfl, hresult, hctx⟩ | ⟨_, hsame, hrole⟩
  · obtain ⟨hsame, hpending⟩ := adoptTerm_sameLog hm.pending event
    obtain ⟨hbooks, hbounded⟩ := (PaxosState.handleEvent_log _).books (hm.bounded.congr hsame)
      (hm.ctx.congr hsame) hpending hl
    rw [← hctx] at hbooks hbounded
    refine ⟨hbooks, hbounded, ?_⟩
    intro c hc
    rw [hc] at hresult
    rcases PaxosState.candidate_of_handleEvent hresult with
      ⟨p, response, _, _, _, _, rfl⟩ | ⟨c₀, hrole, _, rfl | ⟨response, _, hrecord⟩⟩
    · rw [Candidate.dispatchVote_pendingUncommittedLogs]
      intro slot e he
      cases he
    · exact hpending c hrole
    · exact Candidate.keyed_recordVote (hpending c₀ hrole) hrecord
  · refine ⟨hm.ctx.congr hsame, hm.bounded.congr hsame, ?_⟩
    intro c hc
    rcases hrole with heq | ⟨f, hf⟩
    · exact hm.pending c (heq ▸ hc)
    · rw [hf] at hc
      cases hc

/-- **One step keeps the log position at the end of the log** exactly if it meets the
condition. -/
theorem Books.step {m m' : Member} {l : Label} (hm : m.Books) (hl : l.Consecutive)
    (h : m.step l = some m') :
    (m'.ctx.AtLogEnd ↔ m.KeepsLogEnd l) ∧ (m.KeepsLogEnd l → m'.Books) := by
  have hkept := hm.kept.step hl.ascending h
  have hiff : m'.ctx.AtLogEnd ↔ m.KeepsLogEnd l := by
    rcases step_handles h with ⟨event, env, rfl, _, hctx⟩ | ⟨hno, hsame, _⟩
    · obtain ⟨hsame, hpending⟩ := adoptTerm_sameLog hm.pending event
      rw [hctx]
      exact (PaxosState.handleEvent_log _).atLogEnd_iff (hm.logEnd.congr hsame)
        (hm.ctx.congr hsame) hpending hl
    · refine iff_of_true (hm.logEnd.congr hsame) ?_
      cases l with
      | event event env => exact absurd rfl (hno event env)
      | _ => exact trivial
  exact ⟨hiff, fun hkeeps => ⟨hiff.mpr hkeeps, hkept.ctx, hkept.pending⟩⟩

/-- **In a run whose batches all have entries or drop nothing the log position is at the
end of the log**, and the next step decides whether it still is. -/
theorem atLogEnd_of_keepsLogEnd {m n : Member} (hm : m.Books)
    (hrun : Runs step (fun m l => l.Consecutive ∧ m.KeepsLogEnd l) m n) :
    n.ctx.AtLogEnd ∧ ∀ l n', l.Consecutive → n.step l = some n' →
      (n'.ctx.AtLogEnd ↔ n.KeepsLogEnd l) := by
  have hn : n.Books := hrun.invariant hm fun a l b ha hok hstep =>
    (ha.step hok.1 hstep).2 hok.2
  exact ⟨hn.logEnd, fun l n' hl hstep => (hn.step hl hstep).1⟩

/-- Member 1, with an empty log, follows member 2 in term 1, under a lease until ten
seconds after the epoch. -/
def followerOfTwo : Member :=
  ⟨.follower (Follower.new (some 2)), { PaxosSharedContext.memberOfThree 1 with
    term := 1, leaseExpiry := some PaxosSharedContext.leaseLength }, []⟩

theorem followerOfTwo_books : followerOfTwo.Books :=
  books_of_empty rfl (fun _ => rfl) (fun _ => rfl) rfl rfl

/-- A second after the epoch, an accept request of member 2 that starts at slot 1. -/
def acceptFrom (tx : Uuid) (entries : List AcceptLogEntry) : Label :=
  .event (.acceptRequestReceived ⟨⟨1, 2, 0, 0, entries, 0, 0, none⟩, ⟨tx, true⟩⟩)
    (.steady (Duration.seconds 1))

/-- A batch of one entry is written. -/
theorem atLogEnd_of_keepsLogEnd_oneEntry :
    ∃ m, exec step followerOfTwo [acceptFrom 0 [⟨1, 1, "a", 0⟩]] = some m ∧
      m.ctx.wal.get? 1 = some ⟨1, 1, "a", 0⟩ ∧ m.ctx.AtLogEnd := by
  refine ⟨_, rfl, rfl, ?_⟩
  refine (atLogEnd_of_keepsLogEnd followerOfTwo_books
    ((Runs.refl _).tail (acceptFrom 0 [⟨1, 1, "a", 0⟩]) ⟨?_, ?_⟩ rfl)).1
  · intro command h
    cases h
    rfl
  · intro command h _ hnil
    cases h
    cases hnil

/-- A heartbeat that comes after the batch it was sent before: the entry goes, and the log
position stays. -/
theorem not_atLogEnd_late_heartbeat :
    followerOfTwo.Books ∧ ∃ m, Runs step (fun _ l => l.Consecutive) followerOfTwo m ∧
      (∀ slot, m.ctx.wal.get? slot = none) ∧ m.ctx.lastLogSlot = 1 ∧ ¬ m.ctx.AtLogEnd := by
  refine ⟨followerOfTwo_books, _, ((Runs.refl _).tail
    (acceptFrom 0 [⟨1, 1, "a", 0⟩]) ?_ rfl).tail (acceptFrom 1 []) ?_ rfl, ?_, rfl, ?_⟩
  · intro command h
    cases h
    rfl
  · intro command h
    cases h
    rfl
  · intro slot
    rfl
  · rintro (⟨_, hzero, _⟩ | ⟨e, he, _⟩)
    · cases hzero
    · cases he

end Member
end SpannerPaxos
