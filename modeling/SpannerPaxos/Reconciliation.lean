import SpannerPaxos.Backtracking

/-! # Reconciliation terminates

The leader sends a request, the follower rejects it with a hint, the leader backs up and
sends the next one, until the anchor matches.  An anchor is either right before
`next_slot`, or behind it, at the old probe.  A round takes an anchor of the first kind to
one of the second kind that is no higher, or to a lower one; and an anchor of the second
kind to a lower one.  Where the anchor matches, the logs are the same up to it, so what
is written after it makes them the same.
-/
namespace SpannerPaxos

open Tenure (sentTo)

/-! ## What a hint says -/

/-- A rejected anchor is above the follower's log, or has another term there. -/
theorem Follower.answerAcceptRequest_hint {request : AcceptRequest} {ctx : PaxosSharedContext}
    (hno : ¬ AnchorMatches request ctx.wal) :
    ∃ hint, answerAcceptRequest request ctx =
        (⟨ctx.memberId, ctx.term, false, 0, some hint, request.tSend⟩, ctx) ∧
      1 ≤ request.prevLogSlot ∧
      ((ctx.wal.get? request.prevLogSlot = none ∧ hint = ⟨0, ctx.lastLogSlot + 1⟩) ∨
        ∃ e, ctx.wal.get? request.prevLogSlot = some e ∧ e.term ≠ request.prevLogTerm ∧
          hint.conflictTerm = e.term ∧
          ctx.wal.findLowestSlotForTerm e.term = some hint.conflictFirstSlot) := by
  have hpos : 1 ≤ request.prevLogSlot := by
    by_contra h0
    exact hno (Or.inl (by omega))
  have hterm : ctx.wal.getTerm request.prevLogSlot ≠ some request.prevLogTerm :=
    fun h => hno (Or.inr h)
  unfold answerAcceptRequest
  dsimp only
  cases hget : ctx.wal.get? request.prevLogSlot with
  | none =>
    rw [if_pos ⟨hpos, by simp [WriteAheadLog.hasEntry, hget]⟩]
    exact ⟨_, rfl, hpos, Or.inl ⟨rfl, rfl⟩⟩
  | some e =>
    have hlocal : ctx.wal.getTerm request.prevLogSlot = some e.term := by
      simp [WriteAheadLog.getTerm, hget]
    rw [if_neg (by simp [WriteAheadLog.hasEntry, hget]), if_pos ⟨hpos, hterm⟩, hlocal]
    refine ⟨_, rfl, hpos, Or.inr ⟨e, rfl, ?_, rfl, ?_⟩⟩
    · intro heq
      rw [hlocal, heq] at hterm
      exact hterm rfl
    · cases hlow : ctx.wal.findLowestSlotForTerm e.term with
      | none => exact absurd rfl ((ctx.wal.findLowestSlotForTerm_eq_none_iff).mp hlow _ e hget)
      | some slot => simp [hlow]

/-- An admitted request is answered, and extends the lease. -/
theorem Follower.handleAcceptRequest_of_admits {self : Follower} {request : AcceptRequest}
    {ctx : PaxosSharedContext} {env : Env} (h : self.Admits request ctx (env.clock 0)) :
    self.handleAcceptRequest request ctx env = ((answerAcceptRequest request ctx).1,
      (answerAcceptRequest request ctx).2.extendLeaderLeaseExpiryTime (env.clock 1)) := by
  unfold handleAcceptRequest
  rw [if_neg (Nat.not_lt.mpr h.term), if_neg (by simp [h.lease, h.leader])]

/-- The two logs are contiguous from slot 1, and for a term of both they have the same
entries up to the smaller of its last slots. -/
structure Reconcilable (wal wal' : WriteAheadLog) (last last' : Nat) : Prop where
  contiguous : wal.ContiguousTo last
  contiguous' : wal'.ContiguousTo last'
  shared : ∀ term slot slot', wal.findHighestSlotForTerm term = some slot →
    wal'.findHighestSlotForTerm term = some slot' →
    ∀ k, k ≤ slot → k ≤ slot' → wal.get? k = wal'.get? k

namespace Reconcilable
variable {wal wal' : WriteAheadLog} {last last' : Nat}

/-- Where both logs have an entry of one term, one of them not above the other's last, they
have the same entries up to there. -/
theorem same_of_term (h : Reconcilable wal wal' last last') {slot slot' k : Nat}
    {e e' : LogEntry} (he : wal.get? slot = some e) (he' : wal'.get? slot' = some e')
    (hterm : e.term = e'.term) (hle : k ≤ slot) (hle' : k ≤ slot') :
    wal.get? k = wal'.get? k := by
  cases hhigh : wal.findHighestSlotForTerm e.term with
  | none => exact absurd rfl ((wal.findHighestSlotForTerm_eq_none_iff).mp hhigh slot e he)
  | some top =>
    cases hhigh' : wal'.findHighestSlotForTerm e.term with
    | none =>
      exact absurd hterm.symm ((wal'.findHighestSlotForTerm_eq_none_iff).mp hhigh' slot' e' he')
    | some top' =>
      have hmax := ((wal.findHighestSlotForTerm_eq_some_iff).mp hhigh).2 slot e he rfl
      have hmax' := ((wal'.findHighestSlotForTerm_eq_some_iff).mp hhigh').2 slot' e' he' hterm.symm
      exact h.shared e.term top top' hhigh hhigh' k (by omega) (by omega)

end Reconcilable

variable {ctx ctx' : PaxosSharedContext} {request : AcceptRequest}

/-- **A hint selects a slot of the log, no higher than the anchor it rejects.** -/
theorem nextSlotAfter_le_anchor
    (h : Reconcilable ctx.wal ctx'.wal ctx.lastLogSlot ctx'.lastLogSlot)
    (hterm : Leader.prevLogTerm? ctx request.prevLogSlot = some request.prevLogTerm)
    {hint : ConflictHint} (hpos : 1 ≤ request.prevLogSlot)
    (hhint : (ctx'.wal.get? request.prevLogSlot = none ∧ hint = ⟨0, ctx'.lastLogSlot + 1⟩) ∨
      ∃ e, ctx'.wal.get? request.prevLogSlot = some e ∧ e.term ≠ request.prevLogTerm ∧
        hint.conflictTerm = e.term ∧
        ctx'.wal.findLowestSlotForTerm e.term = some hint.conflictFirstSlot) :
    1 ≤ Leader.nextSlotAfter ctx hint ∧ Leader.nextSlotAfter ctx hint ≤ request.prevLogSlot := by
  rcases hhint with ⟨hnone, rfl⟩ | ⟨e, he, hne, hconflict, hlow⟩
  · -- the log ends below the anchor
    have hshort : ¬ request.prevLogSlot ≤ ctx'.lastLogSlot := by
      intro hle
      obtain ⟨e, he⟩ := (h.contiguous' _).mpr ⟨hpos, hle⟩
      rw [hnone] at he
      cases he
    have hnext : Leader.nextSlotAfter ctx ⟨0, ctx'.lastLogSlot + 1⟩ = ctx'.lastLogSlot + 1 := rfl
    omega
  · obtain ⟨⟨first, hfirst, _⟩, hmin⟩ := (ctx'.wal.findLowestSlotForTerm_eq_some_iff).mp hlow
    have hfirst_pos := (h.contiguous'.le hfirst).1
    have hfirst_le := hmin _ e he rfl
    unfold Leader.nextSlotAfter
    split
    · omega
    · cases hhigh : ctx.wal.findHighestSlotForTerm hint.conflictTerm with
      | none =>
        simp only
        omega
      | some slot =>
        simp only
        obtain ⟨⟨top, htop, httop⟩, _⟩ := (ctx.wal.findHighestSlotForTerm_eq_some_iff).mp hhigh
        refine ⟨Nat.succ_le_succ (Nat.zero_le slot), ?_⟩
        -- were the leader's last slot of the term at the anchor or above, the anchor would match
        by_contra hgt
        have hsame := h.same_of_term htop he (httop.trans hconflict) (k := request.prevLogSlot)
          (by omega) (Nat.le_refl _)
        rw [Leader.prevLogTerm?, if_neg (by omega), WriteAheadLog.getTerm, hsame, he] at hterm
        exact hne (Option.some.inj hterm)

/-- **Where the anchor matches, the batch makes the logs the same.** -/
theorem writtenWal_eq_of_anchorMatches
    (h : Reconcilable ctx.wal ctx'.wal ctx.lastLogSlot ctx'.lastLogSlot)
    (hterm : Leader.prevLogTerm? ctx request.prevLogSlot = some request.prevLogTerm)
    (hentries : request.entries =
      (ctx.wal.getEntriesFrom (request.prevLogSlot + 1)).map LogEntry.toAcceptLogEntry)
    (hanchor : Follower.AnchorMatches request ctx'.wal) :
    Follower.writtenWal request ctx'.wal = ctx.wal := by
  have hprefix : ∀ k, k ≤ request.prevLogSlot → ctx'.wal.get? k = ctx.wal.get? k := by
    intro k hk
    by_cases h0 : k = 0
    · have hnone : ∀ {wal : WriteAheadLog} {last : Nat}, wal.ContiguousTo last →
          wal.get? 0 = none := by
        intro wal last hwal
        cases hget : wal.get? 0 with
        | none => rfl
        | some e => exact absurd (hwal.le hget).1 (by omega)
      rw [h0, hnone h.contiguous, hnone h.contiguous']
    · have hpos : request.prevLogSlot ≠ 0 := by omega
      obtain ⟨e', he', hterm'⟩ := WriteAheadLog.getTerm_eq_some_iff.mp
        (hanchor.resolve_left hpos)
      rw [Leader.prevLogTerm?, if_neg hpos] at hterm
      obtain ⟨e, he, ht⟩ := WriteAheadLog.getTerm_eq_some_iff.mp hterm
      exact (h.same_of_term he he' (ht.trans hterm'.symm) hk hk).symm
  have hbatch : request.entries.map AcceptLogEntry.toLogEntry =
      ctx.wal.getEntriesFrom (request.prevLogSlot + 1) := by
    rw [hentries, List.map_map]
    exact List.map_id _
  refine WriteAheadLog.ext fun slot => ?_
  rw [Follower.writtenWal, hbatch]
  by_cases hin : ∃ e ∈ ctx.wal.getEntriesFrom (request.prevLogSlot + 1), e.slot = slot
  · obtain ⟨e, he, rfl⟩ := hin
    have hget := ((ctx.wal.mem_getEntriesFrom).mp he).2
    rw [hget]
    refine WriteAheadLog.get?_appendAll_of_mem _ he ?_
    intro x hx hs
    have hget' := ((ctx.wal.mem_getEntriesFrom).mp hx).2
    rw [hs, hget] at hget'
    exact (Option.some.inj hget').symm
  · have hno : ∀ e ∈ ctx.wal.getEntriesFrom (request.prevLogSlot + 1), e.slot ≠ slot :=
      fun e he hs => hin ⟨e, he, hs⟩
    rw [WriteAheadLog.get?_appendAll_of_forall_ne _ hno, WriteAheadLog.get?_truncateFrom]
    split
    · exact hprefix slot (by omega)
    · cases hget : ctx.wal.get? slot with
      | none => rfl
      | some e =>
        have hslot := WriteAheadLog.slot_of_get? hget
        subst hslot
        exact absurd rfl (hno e ((ctx.wal.mem_getEntriesFrom).mpr ⟨by omega, hget⟩))

/-! ## The exchange -/

/-- A leader and a follower, with the leader's request under way. -/
structure Exchange where
  leader : Leader
  ctx : PaxosSharedContext
  follower : Follower
  followerCtx : PaxosSharedContext
  request : AcceptRequest

namespace Exchange

/-- The leader dispatches its first request. -/
def start (leader : Leader) (ctx : PaxosSharedContext) (follower : Follower)
    (followerCtx : PaxosSharedContext) (env : Env) : Option Exchange :=
  let a := leader.dispatchAcceptRequestToFollower followerCtx.memberId ctx none env
  (sentTo followerCtx.memberId a.effects).head?.map fun request =>
    ⟨a.state, ctx, follower, followerCtx, request⟩

/-- The follower handles the request. -/
def answer (x : Exchange) (env : Env) : AcceptResponse × PaxosSharedContext :=
  x.follower.handleAcceptRequest x.request x.followerCtx env

/-- The follower handles the request, the leader its response, and sends the next one. -/
def next (x : Exchange) (l : Env × Env) : Option Exchange :=
  let a := x.leader.handleAcceptResponse (x.answer l.1).1 x.ctx l.2
  (sentTo x.followerCtx.memberId a.effects).head?.map fun request =>
    ⟨a.state.1, a.state.2, x.follower, (x.answer l.1).2, request⟩

/-- The follower's lease runs, and the follower can be reached. -/
def Ready (x : Exchange) (l : Env × Env) : Prop :=
  x.followerCtx.isLeaderLeaseExpired (l.1.clock 0) = false ∧
    l.2.reachable x.followerCtx.memberId = true

/-- The leader leads the follower in its term, and their logs can be reconciled. -/
structure Leading (ctx : PaxosSharedContext) (follower : Follower)
    (followerCtx : PaxosSharedContext) : Prop where
  term : followerCtx.term = ctx.term
  leader : follower.currentLeaderId = some ctx.memberId
  member : followerCtx.memberId ∈ ctx.peerIds
  logs : Reconcilable ctx.wal followerCtx.wal ctx.lastLogSlot followerCtx.lastLogSlot

/-- The next slot recorded for the follower. -/
def nextSlot (x : Exchange) : Nat :=
  match x.leader.scoreBoard.get? x.followerCtx.memberId with
  | some fs => fs.logPosition.nextSlot
  | none => 0

/-- An anchor right before the next slot counts more than one behind it. -/
def measure (x : Exchange) : Nat :=
  if x.nextSlot < x.request.prevLogSlot then 2 * x.request.prevLogSlot
  else 2 * x.request.prevLogSlot + 1

/-- The request under way is made from the leader's log, behind an anchor right before the
next slot or behind it. -/
structure Inv (wal : WriteAheadLog) (x : Exchange) : Prop where
  leading : Leading x.ctx x.follower x.followerCtx
  wal : x.ctx.wal = wal
  board : ∃ fs, x.leader.scoreBoard.get? x.followerCtx.memberId = some fs
  next_pos : 1 ≤ x.nextSlot
  next_le : x.nextSlot ≤ x.ctx.lastLogSlot + 1
  anchor : x.request.prevLogSlot + 1 = x.nextSlot ∨ x.nextSlot < x.request.prevLogSlot
  request : ∃ prevLogTerm utc, Leader.prevLogTerm? x.ctx x.request.prevLogSlot = some prevLogTerm ∧
    x.request = Leader.makeAcceptRequest x.ctx x.request.prevLogSlot prevLogTerm none utc

/-- What a dispatch to the follower leaves. -/
theorem inv_of_dispatched {leader : Leader} {ctx : PaxosSharedContext} {follower : Follower}
    {followerCtx : PaxosSharedContext} {fs fs' : FollowerState} {sent : List AcceptRequest}
    (hleading : Leading ctx follower followerCtx)
    (hget : leader.scoreBoard.get? followerCtx.memberId = some fs')
    (hpos : 1 ≤ fs.logPosition.nextSlot) (hle : fs.logPosition.nextSlot ≤ ctx.lastLogSlot + 1)
    (h : Leader.Dispatched ctx none fs fs' sent) {request : AcceptRequest}
    (hsent : sent.head? = some request) :
    Inv ctx.wal ⟨leader, ctx, follower, followerCtx, request⟩ ∧
      request.prevLogSlot = fs.prevLogSlot ∧
      nextSlot ⟨leader, ctx, follower, followerCtx, request⟩ = fs.logPosition.nextSlot := by
  cases h with
  | silent => cases hsent
  | sends prevLogTerm utc hanchor hrequest =>
    rename_i request'
    cases Option.some.inj hsent
    have hnext : nextSlot ⟨leader, ctx, follower, followerCtx, request⟩ =
        fs.logPosition.nextSlot := by
      unfold nextSlot
      simp only [hget]
      cases request.entries.getLast? <;> rfl
    have hprev : request.prevLogSlot = fs.prevLogSlot := by
      rw [hrequest]
      rfl
    refine ⟨⟨hleading, rfl, ⟨_, hget⟩, ?_, ?_, ?_, prevLogTerm, utc, ?_, ?_⟩, hprev, hnext⟩
    · rw [hnext]
      exact hpos
    · rw [hnext]
      exact hle
    · rw [hnext]
      show request.prevLogSlot + 1 = _ ∨ _ < request.prevLogSlot
      rw [hprev, FollowerState.prevLogSlot]
      split <;> omega
    · show Leader.prevLogTerm? ctx request.prevLogSlot = _
      rw [hprev]
      exact hanchor
    · show request = Leader.makeAcceptRequest ctx request.prevLogSlot _ _ _
      rw [hprev]
      exact hrequest

section Round
variable {wal : WriteAheadLog} {x x' : Exchange} {l : Env × Env}

/-- The anchor of the request under way is in the leader's log. -/
theorem Inv.anchor_le (hx : x.Inv wal) : x.request.prevLogSlot ≤ x.ctx.lastLogSlot := by
  obtain ⟨prevLogTerm, utc, hterm, _⟩ := hx.request
  exact Leader.prevLogSlot_le hx.leading.logs.contiguous.endsAt hterm

theorem Inv.measure_le (hx : x.Inv wal) : x.measure ≤ 2 * x.ctx.lastLogSlot + 1 := by
  have hanchor := hx.anchor_le
  unfold measure
  split <;> omega

theorem Inv.prevLogTerm (hx : x.Inv wal) :
    Leader.prevLogTerm? x.ctx x.request.prevLogSlot = some x.request.prevLogTerm := by
  obtain ⟨prevLogTerm, utc, hterm, hrequest⟩ := hx.request
  rw [hterm, hrequest]
  rfl

theorem Inv.entries (hx : x.Inv wal) : x.request.entries =
    (x.ctx.wal.getEntriesFrom (x.request.prevLogSlot + 1)).map LogEntry.toAcceptLogEntry := by
  obtain ⟨prevLogTerm, utc, _, hrequest⟩ := hx.request
  exact congrArg AcceptRequest.entries hrequest

/-- The follower admits the request as long as its lease runs. -/
theorem Inv.admits (hx : x.Inv wal) (hready : x.Ready l) :
    x.follower.Admits x.request x.followerCtx (l.1.clock 0) := by
  obtain ⟨prevLogTerm, utc, _, hrequest⟩ := hx.request
  refine ⟨?_, hready.1, ?_⟩
  · rw [hrequest, hx.leading.term]
    exact Nat.le_refl _
  · rw [hrequest]
    exact hx.leading.leader

/-- A request that is ignored ends the exchange, and so does one that is written. -/
theorem next_eq_none (h : ∀ hint, (x.answer l.1).1.success = false →
    (x.answer l.1).1.conflictHint ≠ some hint) : x.next l = none := by
  have hmoves := x.leader.handleAcceptResponse_moves x.ctx l.2 (x.answer l.1).1
  unfold next
  dsimp only
  rw [Option.map_eq_none_iff, List.head?_eq_none_iff]
  rw [List.eq_nil_iff_forall_not_mem]
  intro request hmem
  rw [Tenure.mem_sentTo] at hmem
  rcases x.leader.handleAcceptResponse_cases (x.answer l.1).1 x.ctx l.2 with
    ⟨_, heq⟩ | ⟨_, _, fault, heq⟩ |
      ⟨_, _, ⟨fault, heq⟩ | ⟨fs, _, _, _, heq⟩ | ⟨fs, hint, hsuccess, hhint, _, _⟩⟩
  · rw [heq] at hmem
    cases hmem
  · rw [heq] at hmem
    cases hmem
  · rw [heq] at hmem
    cases hmem
  · rw [heq] at hmem
    exact Leader.advanceCommit_not_dispatch _ _ _ _ _ hmem
  · exact h hint hsuccess hhint

/-- **A rejection**: the hint selects a slot no higher than the anchor, and the leader
backs up to it and dispatches, with its log as it was. -/
theorem Inv.rejected (hx : x.Inv wal)
    (hadmits : x.follower.Admits x.request x.followerCtx (l.1.clock 0))
    (hno : ¬ Follower.AnchorMatches x.request x.followerCtx.wal) {fs : FollowerState}
    (hget : x.leader.scoreBoard.get? x.followerCtx.memberId = some fs) :
    ∃ (hint : ConflictHint) (leader' : Leader) (ctx' : PaxosSharedContext),
      1 ≤ Leader.nextSlotAfter x.ctx hint ∧
      Leader.nextSlotAfter x.ctx hint ≤ x.request.prevLogSlot ∧
      ctx'.wal = x.ctx.wal ∧ ctx'.lastLogSlot = x.ctx.lastLogSlot ∧ x.ctx.SameMember ctx' ∧
      leader'.scoreBoard.get? x.followerCtx.memberId = some (Leader.backtrack x.ctx hint fs) ∧
      x.next l =
        let a := leader'.dispatchAcceptRequestToFollower x.followerCtx.memberId ctx' none l.2
        (sentTo x.followerCtx.memberId a.effects).head?.map fun request =>
          ⟨a.state, ctx', x.follower, x.followerCtx.extendLeaderLeaseExpiryTime (l.1.clock 1),
            request⟩ := by
  obtain ⟨hint, hanswer, hpos, hhint⟩ := Follower.answerAcceptRequest_hint hno
  obtain ⟨hone, hle⟩ := nextSlotAfter_le_anchor hx.leading.logs hx.prevLogTerm hpos hhint
  have hresponse : x.answer l.1 = (⟨x.followerCtx.memberId, x.followerCtx.term, false, 0,
      some hint, x.request.tSend⟩, x.followerCtx.extendLeaderLeaseExpiryTime (l.1.clock 1)) := by
    rw [answer, Follower.handleAcceptRequest_of_admits hadmits, hanswer]
  have hterm : x.ctx.term ≤ (AcceptResponse.mk x.followerCtx.memberId x.followerCtx.term false 0
      (some hint) x.request.tSend).term := le_of_eq hx.leading.term.symm
  obtain ⟨leader', ctx', hwal, hlast, hsame, hboard, hrejected⟩ :=
    Leader.handleAcceptResponse_rejected l.2 hterm rfl rfl
      (x.ctx.two_le_getQuorumSize hx.leading.member) hget
  refine ⟨hint, leader', ctx', hone, hle, hwal, hlast, hsame, hboard, ?_⟩
  unfold next
  rw [hresponse]
  simp only [hrejected, Attempt.map_effects, Attempt.map_state]

/-- A round in which the anchor is rejected keeps the invariant and lowers the measure. -/
theorem Inv.next_of_rejected (hx : x.Inv wal)
    (hadmits : x.follower.Admits x.request x.followerCtx (l.1.clock 0))
    (hno : ¬ Follower.AnchorMatches x.request x.followerCtx.wal) (h : x.next l = some x') :
    x'.Inv wal ∧ x'.measure < x.measure := by
  obtain ⟨fs, hget⟩ := hx.board
  obtain ⟨hint, leader', ctx', hone, hle, hwal, hlast, hsame, hboard, hnext⟩ :=
    hx.rejected hadmits hno hget
  rw [hnext] at h
  obtain ⟨request, hhead, rfl⟩ := Option.map_eq_some_iff.mp h
  obtain ⟨fs', hget', hdispatched⟩ :=
    Leader.dispatchAcceptRequestToFollower_self ctx' none l.2 hboard
  have hleading : Leading ctx' x.follower
      (x.followerCtx.extendLeaderLeaseExpiryTime (l.1.clock 1)) := by
    refine ⟨hx.leading.term.trans hsame.term.symm, ?_, ?_, ?_⟩
    · rw [hsame.memberId]
      exact hx.leading.leader
    · rw [hsame.peerIds]
      exact hx.leading.member
    · rw [hwal, hlast]
      exact hx.leading.logs
  obtain ⟨hinv, hprev', hnext'⟩ := inv_of_dispatched hleading hget' hone
    (by rw [hlast]; exact Nat.le_trans hle (Nat.le_succ_of_le hx.anchor_le)) hdispatched hhead
  rw [hwal, hx.wal] at hinv
  refine ⟨hinv, ?_⟩
  have hmeasure : ∀ y : Exchange, y.measure =
      if y.nextSlot < y.request.prevLogSlot then 2 * y.request.prevLogSlot
      else 2 * y.request.prevLogSlot + 1 := fun _ => rfl
  have hnext_eq : x.nextSlot = fs.logPosition.nextSlot := by
    rw [nextSlot, hget]
  have hnext_pos := hx.next_pos
  have hanchor := hx.anchor
  rw [hmeasure, hmeasure, hnext', hnext_eq]
  rw [hnext_eq] at hnext_pos hanchor
  change _ = (Leader.backtrack x.ctx hint fs).prevLogSlot at hprev'
  rw [Leader.backtrack_prevLogSlot] at hprev'
  change (if Leader.nextSlotAfter x.ctx hint < request.prevLogSlot then 2 * request.prevLogSlot
    else 2 * request.prevLogSlot + 1) < _
  -- either the old probe is further on and becomes the anchor, or the anchor has gone down
  split at hprev' <;> split <;> split <;> omega

/-- A rejection is followed by another request to a follower that can be reached. -/
theorem Inv.sends_of_rejected (hx : x.Inv wal)
    (hadmits : x.follower.Admits x.request x.followerCtx (l.1.clock 0))
    (hno : ¬ Follower.AnchorMatches x.request x.followerCtx.wal)
    (hreach : l.2.reachable x.followerCtx.memberId = true) : ∃ x', x.next l = some x' := by
  obtain ⟨fs, hget⟩ := hx.board
  obtain ⟨hint, leader', ctx', hone, hle, hwal, _, _, hboard, hnext⟩ :=
    hx.rejected hadmits hno hget
  have hnext_eq : x.nextSlot = fs.logPosition.nextSlot := by
    rw [nextSlot, hget]
  have hnext_le := hx.next_le
  have hanchor_le := hx.anchor_le
  have hheld : AnchorHeld x.ctx (Leader.backtrack x.ctx hint fs) := by
    refine Leader.anchorHeld_of_le hx.leading.logs.contiguous ?_
    rw [Leader.backtrack_prevLogSlot]
    split <;> omega
  obtain ⟨prevLogTerm, hterm⟩ := anchorHeld_iff.mp hheld
  rw [hnext, Leader.dispatchAcceptRequestToFollower_eq none hboard
    ((Leader.prevLogTerm?_congr hwal _).trans hterm) hreach rfl]
  simp only [Tenure.sentTo_self]
  exact ⟨_, rfl⟩

/-- **One round**: it sends another request with a smaller measure, or none. -/
theorem Inv.next (hx : x.Inv wal) (h : x.next l = some x') :
    x'.Inv wal ∧ x'.measure < x.measure := by
  rcases x.follower.handleAcceptRequest_cases x.request x.followerCtx l.1 with
    ⟨_, heq⟩ | ⟨hadmits, hno, _⟩ | ⟨_, _, heq⟩
  · have hnone : x.next l = none := by
      refine next_eq_none ?_
      rw [answer, heq]
      intro hint _ hhint
      cases hhint
    rw [h] at hnone
    cases hnone
  · exact hx.next_of_rejected hadmits hno h
  · have hnone : x.next l = none := by
      refine next_eq_none ?_
      rw [answer, heq]
      intro hint hsuccess
      cases hsuccess
    rw [h] at hnone
    cases hnone

/-- **The last round**: the follower has written the request, and has the leader's log. -/
theorem Inv.succeeds (hx : x.Inv wal) (hready : x.Ready l) (h : x.next l = none) :
    (x.answer l.1).1.success = true ∧ (x.answer l.1).2.wal = wal := by
  have hadmits := hx.admits hready
  by_cases hanchor : Follower.AnchorMatches x.request x.followerCtx.wal
  · rcases x.follower.handleAcceptRequest_cases x.request x.followerCtx l.1 with
      ⟨hno, _⟩ | ⟨_, hno, _⟩ | ⟨_, _, heq⟩
    · exact absurd hadmits hno
    · exact absurd hanchor hno
    · rw [answer, heq]
      refine ⟨rfl, ?_⟩
      show (Follower.writeBatch x.request x.followerCtx).2.wal = wal
      rw [Follower.writeBatch_wal, writtenWal_eq_of_anchorMatches hx.leading.logs hx.prevLogTerm
        hx.entries hanchor]
      exact hx.wal
  · obtain ⟨x', hx'⟩ := hx.sends_of_rejected hadmits hanchor hready.2
    rw [h] at hx'
    cases hx'

end Round

/-- The first request is sent, from any positions in the leader's log. -/
theorem start_inv {leader : Leader} {ctx : PaxosSharedContext} {follower : Follower}
    {followerCtx : PaxosSharedContext} {fs : FollowerState} {env : Env}
    (hleading : Leading ctx follower followerCtx)
    (hget : leader.scoreBoard.get? followerCtx.memberId = some fs)
    (hpos : 1 ≤ fs.logPosition.nextSlot) (hle : fs.logPosition.nextSlot ≤ ctx.lastLogSlot + 1)
    (hsent : fs.logPosition.sentSlot ≤ ctx.lastLogSlot)
    (hreach : env.reachable followerCtx.memberId = true) :
    ∃ x, start leader ctx follower followerCtx env = some x ∧ x.Inv ctx.wal ∧
      x.measure ≤ 2 * ctx.lastLogSlot + 1 := by
  have hprev : fs.prevLogSlot ≤ ctx.lastLogSlot := by
    unfold FollowerState.prevLogSlot
    split <;> omega
  obtain ⟨prevLogTerm, hterm⟩ := anchorHeld_iff.mp
    (Leader.anchorHeld_of_le hleading.logs.contiguous hprev)
  obtain ⟨fs', hget', hdispatched⟩ :=
    Leader.dispatchAcceptRequestToFollower_self ctx none env hget
  generalize hrequest : Leader.makeAcceptRequest ctx fs.prevLogSlot prevLogTerm none
    (env.clock 0) = request
  have hhead : (sentTo followerCtx.memberId (leader.dispatchAcceptRequestToFollower
      followerCtx.memberId ctx none env).effects).head? = some request := by
    rw [Leader.dispatchAcceptRequestToFollower_eq none hget hterm hreach hrequest.symm,
      Tenure.sentTo_self]
    rfl
  obtain ⟨hinv, _, _⟩ := inv_of_dispatched hleading hget' hpos hle hdispatched hhead
  exact ⟨_, congrArg (Option.map _) hhead, hinv, hinv.measure_le⟩

/-- **Reconciliation terminates**: from any positions in the leader's log, the exchange
comes to a request that the follower writes, within two rounds for each entry and one
more, and the follower then has the leader's log. -/
theorem reconciles {leader : Leader} {ctx : PaxosSharedContext} {follower : Follower}
    {followerCtx : PaxosSharedContext} {fs : FollowerState} {env : Env}
    (hleading : Leading ctx follower followerCtx)
    (hget : leader.scoreBoard.get? followerCtx.memberId = some fs)
    (hpos : 1 ≤ fs.logPosition.nextSlot) (hle : fs.logPosition.nextSlot ≤ ctx.lastLogSlot + 1)
    (hsent : fs.logPosition.sentSlot ≤ ctx.lastLogSlot)
    (hreach : env.reachable followerCtx.memberId = true) :
    ∃ x, start leader ctx follower followerCtx env = some x ∧
      ∀ envs : Nat → Env × Env, (∀ n y, follow next envs x n = some y → y.Ready (envs n)) →
        ∃ n y, n ≤ 2 * ctx.lastLogSlot + 1 ∧ follow next envs x n = some y ∧
          (y.answer (envs n).1).1.success = true ∧ (y.answer (envs n).1).2.wal = ctx.wal := by
  obtain ⟨x, hstart, hinv, hmeasure⟩ := start_inv hleading hget hpos hle hsent hreach
  refine ⟨x, hstart, ?_⟩
  intro envs hready
  obtain ⟨n, y, hn, hfollow, hy, hstop⟩ := follow_stops measure envs hinv
    fun a l b ha hstep => ha.next hstep
  exact ⟨n, y, Nat.le_trans hn hmeasure, hfollow, hy.succeeds (hready n y hfollow) hstop⟩

/-- A follower of member 1 in term 1, with an empty log. -/
def emptyLog : PaxosSharedContext :=
  { PaxosSharedContext.memberOfThree 2 with
    term := 1
    leaseExpiry := some (Duration.seconds 60) }

/-- A follower with an empty log gets three entries, in the third round. -/
theorem reconciles_emptyLog :
    ∃ x, start Leader.probing Leader.threeEntries (Follower.new (some 1)) emptyLog
        (.steady 0) = some x ∧
      ∃ n y, follow next (fun _ => (.steady 0, .steady 0)) x n = some y ∧
        (y.answer (.steady 0)).1.success = true ∧
        (y.answer (.steady 0)).2.wal = Leader.threeEntries.wal := by
  have hleading : Leading Leader.threeEntries (Follower.new (some 1)) emptyLog := by
    refine ⟨rfl, rfl, by decide, Leader.threeEntries_contiguous, WriteAheadLog.contiguousTo_new, ?_⟩
    intro term slot slot' _ hslot'
    cases hslot'
  have hget : Leader.probing.scoreBoard.get? emptyLog.memberId =
      some (FollowerState.new (LogPosition.withNextSlot 4)) := rfl
  have hreach : (Env.steady 0).reachable emptyLog.memberId = true := rfl
  obtain ⟨x, hx, hreconciles⟩ := reconciles hleading hget (by decide) (by decide) (by decide) hreach
  have hready : ∀ n y, follow next (fun _ => (.steady 0, .steady 0)) x n = some y →
      y.Ready (.steady 0, .steady 0) := by
    cases Option.some.inj hx
    intro n y hy
    match n with
    | 0 =>
      cases hy
      exact ⟨rfl, rfl⟩
    | 1 =>
      cases hy
      exact ⟨rfl, rfl⟩
    | 2 =>
      cases hy
      exact ⟨rfl, rfl⟩
    | n + 3 =>
      rw [follow_eq_none_of_le (m := 3) rfl (Nat.le_add_left 3 n)] at hy
      cases hy
  obtain ⟨n, y, _, hfollow, hsuccess⟩ := hreconciles _ hready
  exact ⟨x, hx, n, y, hfollow, hsuccess⟩

end Exchange
end SpannerPaxos
