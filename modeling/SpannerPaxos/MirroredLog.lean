import SpannerPaxos.Follower
import SpannerPaxos.Runs

/-! # The uncommitted entries of a follower

`uncommitted_logs` is meant to be the part of the log above the commit point.  A
follower writes a batch to both, but drops the tail of the log only, and clears what is
committed only when the commit point moves.  So the two stay the same as long as no
entry above the batch is dropped, and the batch does not go back behind a commit point
that stays.
-/
namespace SpannerPaxos

/-! ## Batches of consecutive slots -/

/-- The entries stand at consecutive slots, the first right after the anchor. -/
def AcceptRequest.Consecutive (request : AcceptRequest) : Prop :=
  request.entries.map AcceptLogEntry.slot =
    List.range' (request.prevLogSlot + 1) request.entries.length

instance (request : AcceptRequest) : Decidable request.Consecutive :=
  inferInstanceAs (Decidable (_ = _))

/-- The entries stand behind the anchor, and none above the last. -/
def AcceptRequest.Ascending (request : AcceptRequest) : Prop :=
  ∀ e ∈ request.entries, request.prevLogSlot < e.slot ∧ e.slot ≤ request.reach

theorem AcceptRequest.reach_eq_of_getLast? {request : AcceptRequest} {e : AcceptLogEntry}
    (h : request.entries.getLast? = some e) : request.reach = e.slot := by
  rw [reach, h]

namespace AcceptRequest.Consecutive
variable {request : AcceptRequest}

theorem reach_eq (h : request.Consecutive) :
    request.reach = request.prevLogSlot + request.entries.length := by
  have hlast := congrArg List.getLast? h
  rw [List.getLast?_map, List.getLast?_range'] at hlast
  unfold reach
  cases hentry : request.entries.getLast? with
  | none =>
    rw [List.getLast?_eq_none_iff.mp hentry]
    rfl
  | some e =>
    rw [hentry] at hlast
    split at hlast
    · cases hlast
    · have hslot : e.slot = _ := Option.some.inj hlast
      show e.slot = _
      omega

/-- The batch writes exactly the slots from the anchor to its reach. -/
theorem exists_slot_iff (h : request.Consecutive) {slot : Nat} :
    (∃ e ∈ request.entries, e.slot = slot) ↔
      request.prevLogSlot < slot ∧ slot ≤ request.reach := by
  rw [← List.mem_map, h, List.mem_range'_1, h.reach_eq]
  omega

theorem ascending (h : request.Consecutive) : request.Ascending :=
  fun e he => h.exists_slot_iff.mp ⟨e, he, rfl⟩

theorem entries_eq_nil_iff (h : request.Consecutive) :
    request.entries = [] ↔ request.reach = request.prevLogSlot := by
  rw [h.reach_eq, ← List.length_eq_zero_iff]
  omega

end AcceptRequest.Consecutive

/-! ## What a batch does to the log and to the uncommitted entries -/

namespace PaxosSharedContext

/-- Where the batch writes, the log and the uncommitted entries get the same entry; where
it does not, the uncommitted entries stay. -/
theorem writeEntries_get? (ctx : PaxosSharedContext) (wal : WriteAheadLog)
    (batch : List AcceptLogEntry) (slot : Nat) :
    ((∃ e ∈ batch, e.slot = slot) → (ctx.writeEntries batch).uncommittedLogs.get? slot =
      (wal.appendAll (batch.map AcceptLogEntry.toLogEntry)).get? slot) ∧
    ((∀ e ∈ batch, e.slot ≠ slot) → (ctx.writeEntries batch).uncommittedLogs.get? slot =
      ctx.uncommittedLogs.get? slot) := by
  induction batch generalizing ctx wal with
  | nil =>
    refine ⟨?_, fun _ => rfl⟩
    rintro ⟨e, he, _⟩
    cases he
  | cons x batch ih =>
    obtain ⟨ihsome, ihnone⟩ := ih
      { ctx with
        wal := ctx.wal.append x.toLogEntry
        uncommittedLogs := ctx.uncommittedLogs.insert x.slot x.toLogEntry }
      (wal.append x.toLogEntry)
    constructor
    · rintro ⟨e, he, hslot⟩
      by_cases hin : ∃ e ∈ batch, e.slot = slot
      · exact ihsome hin
      · -- the head is the last to write the slot
        have hno : ∀ e ∈ batch, e.slot ≠ slot := fun e he hs => hin ⟨e, he, hs⟩
        have hx : x.slot = slot := by
          rcases List.mem_cons.mp he with rfl | htail
          · exact hslot
          · exact absurd hslot (hno e htail)
        refine (ihnone hno).trans ?_
        rw [List.map_cons, WriteAheadLog.appendAll_cons, WriteAheadLog.get?_appendAll_of_forall_ne,
          WriteAheadLog.get?_append]
        · rw [OrderedMap.get?_insert, if_pos hx.symm]
          exact (if_pos hx.symm).symm
        · intro e' he' hs
          obtain ⟨e'', he'', rfl⟩ := List.mem_map.mp he'
          exact hno e'' he'' hs
    · intro hno
      refine (ihnone fun e he => hno e (List.mem_cons_of_mem _ he)).trans ?_
      exact (OrderedMap.get?_insert _ _ _ _).trans
        (if_neg (Ne.symm (hno x List.mem_cons_self)))

/-- The uncommitted entries of a context are the entries of its log above its commit
point. -/
def Mirrored (ctx : PaxosSharedContext) : Prop :=
  ∀ slot, ctx.uncommittedLogs.get? slot =
    if ctx.committedSlot < slot then ctx.wal.get? slot else none

end PaxosSharedContext

namespace Follower
variable {request : AcceptRequest} {ctx : PaxosSharedContext}

/-- Every entry of a batch of consecutive slots is in the log afterwards. -/
theorem writtenWal_get?_of_mem (h : request.Consecutive) (wal : WriteAheadLog)
    {e : AcceptLogEntry} (he : e ∈ request.entries) :
    (writtenWal request wal).get? e.slot = some e.toLogEntry := by
  refine WriteAheadLog.get?_appendAll_of_mem _ (e := e.toLogEntry) (List.mem_map_of_mem he) ?_
  intro e' he' hs
  obtain ⟨x, hx, rfl⟩ := List.mem_map.mp he'
  have hnodup : (request.entries.map AcceptLogEntry.slot).Nodup := by
    rw [h]
    exact List.nodup_range'
  rw [List.inj_on_of_nodup_map hnodup hx he hs]

/-- Where a batch writes nothing, the log keeps what it has up to the anchor. -/
theorem writtenWal_get?_of_forall_ne (wal : WriteAheadLog) {slot : Nat}
    (hno : ∀ e ∈ request.entries, e.slot ≠ slot) :
    (writtenWal request wal).get? slot =
      if slot < request.prevLogSlot + 1 then wal.get? slot else none := by
  rw [writtenWal, WriteAheadLog.get?_appendAll_of_forall_ne, WriteAheadLog.get?_truncateFrom]
  intro e he hs
  obtain ⟨e', he', rfl⟩ := List.mem_map.mp he
  exact hno e' he' hs

/-- The log a batch of consecutive slots leaves behind: the old one up to the anchor, and
nothing above the batch. -/
theorem writtenWal_get? (h : request.Consecutive) (wal : WriteAheadLog) (slot : Nat) :
    (slot ≤ request.prevLogSlot → (writtenWal request wal).get? slot = wal.get? slot) ∧
    (request.reach < slot → (writtenWal request wal).get? slot = none) ∧
    (request.prevLogSlot < slot → slot ≤ request.reach →
      ∃ e, (writtenWal request wal).get? slot = some e) := by
  refine ⟨?_, ?_, ?_⟩
  · intro hle
    rw [writtenWal_get?_of_forall_ne, if_pos (by omega)]
    intro e he hs
    have hlt := (h.exists_slot_iff.mp ⟨e, he, hs⟩).1
    omega
  · intro hlt
    have hreach := h.reach_eq
    rw [writtenWal_get?_of_forall_ne, if_neg (by omega)]
    intro e he hs
    have hle := (h.exists_slot_iff.mp ⟨e, he, hs⟩).2
    omega
  · intro hlt hle
    obtain ⟨e, he, hs⟩ := h.exists_slot_iff.mpr ⟨hlt, hle⟩
    exact ⟨e.toLogEntry, hs ▸ writtenWal_get?_of_mem h wal he⟩

/-- What is uncommitted after a batch: what the batch has written and what was there,
above the commit point if it moves. -/
theorem writeBatch_uncommittedLogs (request : AcceptRequest) (ctx : PaxosSharedContext)
    (slot : Nat) : (writeBatch request ctx).2.uncommittedLogs.get? slot =
      if ctx.committedSlot < min request.leaderCommitSlot request.reach ∧
          slot ≤ min request.leaderCommitSlot request.reach then none
      else (ctx.writeEntries request.entries).uncommittedLogs.get? slot := by
  rw [writeBatch, PaxosSharedContext.replaceTail_eq]
  generalize hctx : ({ ctx with
    wal := (ctx.wal.truncateFrom (request.prevLogSlot + 1)).appendAll
      (request.entries.map AcceptLogEntry.toLogEntry)
    uncommittedLogs := (ctx.writeEntries request.entries).uncommittedLogs
    lastLogSlot := (ctx.setLogPosition request.entries.getLast?).lastLogSlot
    lastLogTerm := (ctx.setLogPosition request.entries.getLast?).lastLogTerm } :
      PaxosSharedContext) = written
  have hlogs : written.uncommittedLogs = (ctx.writeEntries request.entries).uncommittedLogs := by
    rw [← hctx]
  have hcommitted : written.committedSlot = ctx.committedSlot := by
    rw [← hctx]
  rw [← hlogs, ← hcommitted]
  rcases written.followCommit_cases request with ⟨hlt, heq⟩ | ⟨hle, ⟨minNextTs, _, heq⟩ | heq⟩
  · simp only [heq, PaxosSharedContext.commitTo_uncommittedLogs, OrderedMap.get?_filterKeys,
      decide_eq_true_eq]
    split
    · rename_i hgt
      rw [if_neg (by omega)]
    · rename_i hgt
      rw [if_pos ⟨hlt, by omega⟩]
  · simp only [heq, PaxosSharedContext.advanceTSafe_uncommittedLogs]
    rw [if_neg (by omega)]
  · simp only [heq]
    rw [if_neg (by omega)]

/-! ## Requests that keep the two the same -/

/-- If the request's anchor matches, nothing is dropped above the batch and the commit
point, and the commit point moves, or the batch begins above it. -/
def KeepsMirror (request : AcceptRequest) (ctx : PaxosSharedContext) : Prop :=
  AnchorMatches request ctx.wal →
    (∀ slot e, ctx.wal.get? slot = some e → slot ≤ max ctx.committedSlot request.reach) ∧
    (ctx.committedSlot < min request.leaderCommitSlot request.reach ∨ request.entries = [] ∨
      ctx.committedSlot ≤ request.prevLogSlot)

/-- A batch that is written keeps the uncommitted entries those of the log, or not. -/
theorem writeBatch_mirrored_iff (hmirrored : ctx.Mirrored) (h : request.Consecutive) :
    (writeBatch request ctx).2.Mirrored ↔
      (∀ slot e, ctx.wal.get? slot = some e → slot ≤ max ctx.committedSlot request.reach) ∧
      (ctx.committedSlot < min request.leaderCommitSlot request.reach ∨ request.entries = [] ∨
        ctx.committedSlot ≤ request.prevLogSlot) := by
  have hcommitted := writeBatch_committedSlot request ctx
  have hreach := h.reach_eq
  have hwritten : ∀ slot, request.prevLogSlot < slot → slot ≤ request.reach →
      (ctx.writeEntries request.entries).uncommittedLogs.get? slot =
        (writtenWal request ctx.wal).get? slot := fun slot hlt hle =>
    (ctx.writeEntries_get? _ _ slot).1 (h.exists_slot_iff.mpr ⟨hlt, hle⟩)
  have hunwritten : ∀ slot, slot ≤ request.prevLogSlot ∨ request.reach < slot →
      (ctx.writeEntries request.entries).uncommittedLogs.get? slot =
        ctx.uncommittedLogs.get? slot := by
    intro slot hout
    refine (ctx.writeEntries_get? ctx.wal _ slot).2 fun e he hs => ?_
    have hin := h.exists_slot_iff.mp ⟨e, he, hs⟩
    omega
  constructor
  · intro hafter
    refine ⟨?_, ?_⟩
    · -- an entry above the batch and the commit point would stay uncommitted
      intro slot e he
      by_contra hgt
      have hslot := hafter slot
      rw [writeBatch_uncommittedLogs, if_neg (by omega), hunwritten slot (Or.inr (by omega)),
        hmirrored slot, if_pos (by omega), he, hcommitted, if_pos (by omega), writeBatch_wal,
        (writtenWal_get? h ctx.wal slot).2.1 (by omega)] at hslot
      cases hslot
    · -- the first entry of a batch behind a commit point that stays would be uncommitted
      by_contra hno
      simp only [not_or] at hno
      obtain ⟨hstays, hnonempty, hbehind⟩ := hno
      rw [h.entries_eq_nil_iff] at hnonempty
      have hslot := hafter (request.prevLogSlot + 1)
      obtain ⟨e, he⟩ := (writtenWal_get? h ctx.wal (request.prevLogSlot + 1)).2.2 (by omega)
        (by omega)
      rw [writeBatch_uncommittedLogs, if_neg (by omega), hwritten _ (by omega) (by omega), he,
        hcommitted, if_neg (by omega)] at hslot
      cases hslot
  · rintro ⟨habove, hback⟩ slot
    rw [h.entries_eq_nil_iff] at hback
    rw [writeBatch_uncommittedLogs, hcommitted, writeBatch_wal]
    by_cases hout : slot ≤ request.prevLogSlot ∨ request.reach < slot
    · rw [hunwritten slot hout, hmirrored slot]
      rcases hout with hle | hgt
      · rw [(writtenWal_get? h ctx.wal slot).1 hle]
        split
        · rw [if_neg (by omega)]
        · split
          · rw [if_pos (by omega)]
          · rw [if_neg (by omega)]
      · rw [(writtenWal_get? h ctx.wal slot).2.1 hgt]
        cases hget : ctx.wal.get? slot with
        | none => simp
        | some e =>
          have hle := habove slot e hget
          rw [if_neg (by omega), if_neg (by omega), if_neg (by omega)]
    · rw [hwritten slot (by omega) (by omega)]
      split
      · rw [if_neg (by omega)]
      · rw [if_pos (by omega)]

/-! ## Runs -/

/-- The follower admits a request of consecutive slots, and handles it. -/
def acceptStep (f : Follower) (ctx : PaxosSharedContext) (l : AcceptRequest × Env) :
    Option PaxosSharedContext :=
  if ctx.term ≤ l.1.term ∧ ctx.isLeaderLeaseExpired (l.2.clock 0) = false ∧
      f.currentLeaderId = some l.1.leaderId ∧ l.1.Consecutive then
    some (f.handleAcceptRequest l.1 ctx l.2).2
  else none

/-- **An admitted request keeps the uncommitted entries those of the log exactly if it
meets the condition.** -/
theorem acceptStep_mirrored_iff {f : Follower} {s s' : PaxosSharedContext}
    {l : AcceptRequest × Env} (hs : s.Mirrored) (h : acceptStep f s l = some s') :
    s'.Mirrored ↔ KeepsMirror l.1 s := by
  unfold acceptStep at h
  split at h
  · rename_i hadmitted
    obtain ⟨hterm, hlease, hleader, hconsecutive⟩ := hadmitted
    cases Option.some.inj h
    rcases f.handleAcceptRequest_cases l.1 s l.2 with
      ⟨hno, _⟩ | ⟨_, hno, hint, heq⟩ | ⟨_, hanchor, heq⟩
    · exact absurd ⟨hterm, hlease, hleader⟩ hno
    · rw [heq]
      exact ⟨fun _ hanchor => absurd hanchor hno, fun _ => hs⟩
    · rw [heq]
      have hiff := writeBatch_mirrored_iff hs hconsecutive
      exact ⟨fun hafter _ => hiff.mp hafter, fun hkeeps => hiff.mpr (hkeeps hanchor)⟩
  · cases h

/-- **In a run whose requests all meet the condition the uncommitted entries are those of
the log**, and the next request decides whether they still are. -/
theorem mirrored_of_keepsMirror (f : Follower) {s t : PaxosSharedContext} (hs : s.Mirrored)
    (hrun : Runs (acceptStep f) (fun s l => KeepsMirror l.1 s) s t) :
    t.Mirrored ∧ ∀ l u, acceptStep f t l = some u → (u.Mirrored ↔ KeepsMirror l.1 t) := by
  have ht : t.Mirrored := hrun.invariant hs fun a l b ha hok hstep =>
    (acceptStep_mirrored_iff ha hstep).mpr hok
  exact ⟨ht, fun l u hstep => acceptStep_mirrored_iff ht hstep⟩

/-- A follower of member 1 in term 1, with an empty log. -/
def following : PaxosSharedContext :=
  { PaxosSharedContext.memberOfThree 2 with
    term := 1
    leaseExpiry := some (Duration.seconds 60) }

/-- The leader's first batch. -/
def firstBatch : AcceptRequest where
  term := 1
  leaderId := 1
  prevLogSlot := 0
  prevLogTerm := 0
  entries := [⟨1, 1, "a", 0⟩]
  leaderCommitSlot := 0
  tSend := 0
  minNextTs := none

theorem following_mirrored : following.Mirrored := by
  intro slot
  simp [following, PaxosSharedContext.memberOfThree, PaxosSharedContext.new]

/-- The batch is written. -/
theorem mirrored_of_keepsMirror_first :
    (((Follower.new (some 1)).handleAcceptRequest firstBatch following
      (.steady 0)).2).Mirrored := by
  refine (mirrored_of_keepsMirror (Follower.new (some 1)) following_mirrored
    (.tail (firstBatch, .steady 0) (.refl _) ?_ rfl)).1
  intro _
  refine ⟨?_, Or.inr (Or.inr (Nat.zero_le _))⟩
  intro slot e he
  simp [following, PaxosSharedContext.memberOfThree, PaxosSharedContext.new] at he

/-- A heartbeat sent before the batch comes after it: the entry goes from the log, and
stays uncommitted. -/
theorem not_mirrored_late_heartbeat :
    ∃ s t, following.Mirrored ∧ acceptStep (Follower.new (some 1)) following
        (firstBatch, .steady 0) = some s ∧
      acceptStep (Follower.new (some 1)) s ({ firstBatch with entries := [] }, .steady 0) =
        some t ∧ t.wal.get? 1 = none ∧ t.uncommittedLogs.get? 1 = some ⟨1, 1, "a", 0⟩ ∧
      ¬ t.Mirrored := by
  refine ⟨_, _, following_mirrored, rfl, rfl, rfl, rfl, ?_⟩
  intro h
  cases h 1

end Follower
end SpannerPaxos
