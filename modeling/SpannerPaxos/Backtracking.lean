import SpannerPaxos.Anchors

/-! # The retry after a rejection

A conflict hint selects the anchor of the next request: the slot before the follower's
first conflicting one, or the leader's last slot of the conflicting term.  The batches in
flight are cleared first, which puts `sent_slot` right before the old `next_slot`; only
then does `next_slot` move.  So where the log has to go back by more than that, the old
probe is sent again, and the hint counts from the next rejection on.
-/
namespace SpannerPaxos

namespace Leader
variable {self : Leader} {ctx : PaxosSharedContext} {env : Env} {memberId : Uuid}
  {fs : FollowerState} {response : AcceptResponse} {hint : ConflictHint}

/-- A dispatch that succeeds. -/
theorem dispatchAcceptRequestToFollower_eq (minNextTs : Option DateTime) {prevLogTerm : Nat}
    (hget : self.scoreBoard.get? memberId = some fs)
    (hanchor : prevLogTerm? ctx fs.prevLogSlot = some prevLogTerm)
    (hreach : env.reachable memberId = true) {request : AcceptRequest}
    (hrequest : request =
      makeAcceptRequest ctx fs.prevLogSlot prevLogTerm minNextTs (env.clock 0)) :
    self.dispatchAcceptRequestToFollower memberId ctx minNextTs env =
      ⟨self.setFollower memberId (fs.recordSent request.entries.getLast? request.tSend),
        [.dispatchAccept memberId request], none⟩ := by
  unfold dispatchAcceptRequestToFollower
  simp only [hget, hanchor, if_pos hreach, ← hrequest]
  rfl

/-- **A rejection with a hint**, of the current term or a later one: the leader backs up and
dispatches, with its log as it was. -/
theorem handleAcceptResponse_rejected (env : Env) (hterm : ctx.term ≤ response.term)
    (hsuccess : response.success = false) (hhint : response.conflictHint = some hint)
    (hquorum : 2 ≤ ctx.getQuorumSize)
    (hget : self.scoreBoard.get? response.memberId = some fs) :
    ∃ (self' : Leader) (ctx' : PaxosSharedContext), ctx'.wal = ctx.wal ∧
      ctx'.lastLogSlot = ctx.lastLogSlot ∧
      ctx.SameMember ctx' ∧
      self'.scoreBoard.get? response.memberId = some (backtrack ctx hint fs) ∧
      self.handleAcceptResponse response ctx env =
        (self'.dispatchAcceptRequestToFollower response.memberId ctx' none env).map
          fun l => (l, ctx') := by
  have hboard : (self.recordContact response).scoreBoard.get? response.memberId = some fs := hget
  have hwal := (self.recordContact response).renewLease_wal ctx
  have hback : backtrack ((self.recordContact response).renewLease ctx) hint fs =
      backtrack ctx hint fs := by
    simp only [backtrack, nextSlotAfter, hwal]
  refine ⟨(self.recordContact response).setFollower response.memberId (backtrack ctx hint fs),
    (self.recordContact response).renewLease ctx, hwal, renewLease_lastLogSlot _ ctx,
    renewLease_sameMember _ ctx, ?_, ?_⟩
  · show (self.scoreBoard.insert response.memberId _).get? response.memberId = _
    rw [AssocMap.get?_insert, if_pos rfl]
  · unfold handleAcceptResponse
    simp only [if_neg (Nat.not_lt.mpr hterm), if_neg (Nat.not_lt.mpr hquorum), hsuccess, hhint,
      hboard, hback]
    rfl

theorem prevLogTerm?_congr {ctx' : PaxosSharedContext} (hwal : ctx'.wal = ctx.wal)
    (prevLogSlot : Nat) : prevLogTerm? ctx' prevLogSlot = prevLogTerm? ctx prevLogSlot := by
  simp only [prevLogTerm?, hwal]

/-! ## The anchor that a hint selects -/

/-- The anchor is the slot before the first conflicting one, or the last slot of the
conflicting term, if the log has that term. -/
def Selects (wal : WriteAheadLog) (hint : ConflictHint) (anchor : Nat) : Prop :=
  ((hint.conflictTerm = 0 ∨ ∀ slot e, wal.get? slot = some e → e.term ≠ hint.conflictTerm) ∧
    anchor = hint.conflictFirstSlot - 1) ∨
  (hint.conflictTerm ≠ 0 ∧ (∃ e, wal.get? anchor = some e ∧ e.term = hint.conflictTerm) ∧
    ∀ slot e, wal.get? slot = some e → e.term = hint.conflictTerm → slot ≤ anchor)

/-- The next probe stands right behind the selected anchor. -/
theorem selects_iff {anchor : Nat} :
    Selects ctx.wal hint anchor ↔ anchor = nextSlotAfter ctx hint - 1 := by
  unfold Selects nextSlotAfter
  by_cases h0 : hint.conflictTerm = 0
  · simp [h0]
  · simp only [h0, false_or, if_false, ne_eq, not_false_eq_true, true_and]
    cases hslot : ctx.wal.findHighestSlotForTerm hint.conflictTerm with
    | none =>
      have hnone : ∀ slot e, ctx.wal.get? slot = some e → e.term ≠ hint.conflictTerm :=
        fun slot e he ht => (ctx.wal.findHighestSlotForTerm_eq_none_iff).mp hslot slot e he ht
      constructor
      · rintro (⟨_, heq⟩ | ⟨⟨e, he, ht⟩, _⟩)
        · exact heq
        · exact absurd ht (hnone anchor e he)
      · exact fun heq => Or.inl ⟨hnone, heq⟩
    | some slot =>
      obtain ⟨⟨e, he, ht⟩, hmax⟩ := (ctx.wal.findHighestSlotForTerm_eq_some_iff).mp hslot
      constructor
      · rintro (⟨hnone, _⟩ | ⟨⟨e', he', ht'⟩, hmax'⟩)
        · exact absurd ht (hnone slot e he)
        · have hle := hmax anchor e' he' ht'
          have hge := hmax' slot e he ht
          show anchor = slot + 1 - 1
          omega
      · rintro rfl
        exact Or.inr ⟨⟨e, he, ht⟩, hmax⟩

/-- What is sent is one request to the follower, behind the anchor that the hint selects,
with everything the log has after it. -/
def Honours (wal : WriteAheadLog) (hint : ConflictHint) (memberId : Uuid)
    (effects : List Effect) : Prop :=
  ∃ request, effects = [.dispatchAccept memberId request] ∧
    Selects wal hint request.prevLogSlot ∧
    request.entries =
      (wal.getEntriesFrom (request.prevLogSlot + 1)).map LogEntry.toAcceptLogEntry

/-- The anchor of the retry: the selected one, unless the old probe is further on. -/
theorem backtrack_prevLogSlot (ctx : PaxosSharedContext) (hint : ConflictHint)
    (fs : FollowerState) : (backtrack ctx hint fs).prevLogSlot =
      if nextSlotAfter ctx hint < fs.logPosition.nextSlot - 1 then fs.logPosition.nextSlot - 1
      else nextSlotAfter ctx hint - 1 := rfl

/-- **The retry honours the hint exactly if the old `next_slot` is at most two above the
anchor that the hint selects.** -/
theorem honours_iff (hwal : ctx.wal.ContiguousTo ctx.lastLogSlot)
    (hget : self.scoreBoard.get? response.memberId = some fs)
    (hmember : response.memberId ∈ ctx.peerIds) (hterm : response.term = ctx.term)
    (hsuccess : response.success = false) (hhint : response.conflictHint = some hint)
    (hpos : 1 ≤ hint.conflictFirstSlot) (hle : hint.conflictFirstSlot ≤ ctx.lastLogSlot + 1)
    (hreach : env.reachable response.memberId = true) :
    Honours ctx.wal hint response.memberId
        (self.handleAcceptResponse response ctx env).effects ↔
      ∀ anchor, Selects ctx.wal hint anchor → fs.logPosition.nextSlot ≤ anchor + 2 := by
  have hquorum := ctx.two_le_getQuorumSize hmember
  have hbounds := nextSlotAfter_bounds hwal hpos hle
  obtain ⟨self', ctx', hsame, _, _, hboard, heq⟩ := handleAcceptResponse_rejected env
    (le_of_eq hterm.symm) hsuccess hhint hquorum hget
  rw [heq, Attempt.map_effects]
  have hprev := backtrack_prevLogSlot ctx hint fs
  simp only [selects_iff, forall_eq]
  cases hanchor : prevLogTerm? ctx (backtrack ctx hint fs).prevLogSlot with
  | none =>
    -- only the old probe can be outside the log, and then nothing is sent
    have hno : ¬ AnchorHeld ctx (backtrack ctx hint fs) := by
      rw [anchorHeld_iff, hanchor]
      rintro ⟨term, hsome⟩
      cases hsome
    constructor
    · rintro ⟨request, heq, _⟩
      unfold dispatchAcceptRequestToFollower at heq
      simp only [hboard, (prevLogTerm?_congr hsame _).trans hanchor] at heq
      cases heq
    · intro hnext
      refine absurd ?_ hno
      have heq : (backtrack ctx hint fs).prevLogSlot = nextSlotAfter ctx hint - 1 := by
        rw [hprev, if_neg (by omega)]
      by_cases h0 : nextSlotAfter ctx hint = 1
      · exact Or.inl (by omega)
      · refine Or.inr (WriteAheadLog.hasEntry_iff.mpr ((hwal _).mpr ?_))
        omega
  | some prevLogTerm =>
    rw [dispatchAcceptRequestToFollower_eq none hboard
      ((prevLogTerm?_congr hsame _).trans hanchor) hreach rfl]
    constructor
    · rintro ⟨request, heq, hselects, _⟩
      cases heq
      rw [selects_iff] at hselects
      change (backtrack ctx hint fs).prevLogSlot = _ at hselects
      rw [hprev] at hselects
      split at hselects <;> omega
    · intro hnext
      refine ⟨_, rfl, ?_, ?_⟩
      · rw [selects_iff]
        show (backtrack ctx hint fs).prevLogSlot = _
        rw [hprev, if_neg (by omega)]
      · unfold makeAcceptRequest
        rw [hsame]

/-- The leader of a group of three, with three entries of its term. -/
def threeEntries : PaxosSharedContext :=
  { PaxosSharedContext.memberOfThree 1 with
    term := 1
    lastLogTerm := 1
    lastLogSlot := 3
    wal := ((WriteAheadLog.new.append ⟨1, 1, "a", 0⟩).append ⟨1, 2, "b", 0⟩).append
      ⟨1, 3, "c", 0⟩ }

/-- Every follower is probed from slot 4 on. -/
def probing : Leader := new (Candidate.new threeEntries).scoreBoard

theorem threeEntries_contiguous : threeEntries.wal.ContiguousTo threeEntries.lastLogSlot :=
  ((WriteAheadLog.contiguousTo_new.append rfl).append rfl).append rfl

/-- The log of member 2 is too short: its first missing slot is the given one. -/
def tooShort (slot : Nat) : AcceptResponse := ⟨2, 1, false, 0, some ⟨0, slot⟩, 0⟩

/-- A follower that lacks the last entry gets it. -/
theorem honours_iff_lastEntry : Honours threeEntries.wal ⟨0, 3⟩ 2
    (probing.handleAcceptResponse (tooShort 3) threeEntries (.steady 0)).effects := by
  have hget : probing.scoreBoard.get? (tooShort 3).memberId =
      some (FollowerState.new (LogPosition.withNextSlot 4)) := rfl
  have hhint : (tooShort 3).conflictHint = some ⟨0, 3⟩ := rfl
  refine (honours_iff threeEntries_contiguous hget (by decide) rfl rfl hhint (by decide)
    (by decide) rfl).mpr ?_
  intro anchor hselects
  rw [selects_iff] at hselects
  rw [hselects]
  decide

/-- A follower that lacks all three entries is probed at slot 3 again. -/
theorem not_honours_emptyLog :
    (∃ request, (probing.handleAcceptResponse (tooShort 1) threeEntries (.steady 0)).effects =
      [.dispatchAccept 2 request] ∧ request.prevLogSlot = 3) ∧
    ¬ ∀ (self : Leader) (ctx : PaxosSharedContext) (env : Env) (response : AcceptResponse)
      (hint : ConflictHint), ctx.wal.ContiguousTo ctx.lastLogSlot →
      response.memberId ∈ self.scoreBoard.keys → response.memberId ∈ ctx.peerIds →
      response.term = ctx.term → response.success = false → response.conflictHint = some hint →
      1 ≤ hint.conflictFirstSlot → hint.conflictFirstSlot ≤ ctx.lastLogSlot + 1 →
      env.reachable response.memberId = true →
      Honours ctx.wal hint response.memberId
        (self.handleAcceptResponse response ctx env).effects := by
  refine ⟨⟨_, rfl, rfl⟩, fun hall => ?_⟩
  obtain ⟨request, heq, hselects, _⟩ := hall probing threeEntries (.steady 0) (tooShort 1) ⟨0, 1⟩
    threeEntries_contiguous (by decide) (by decide) rfl rfl rfl (by decide) (by decide) rfl
  cases heq
  rcases hselects with ⟨_, hzero⟩ | ⟨hterm, _⟩
  · cases hzero
  · exact hterm rfl

end Leader
end SpannerPaxos
