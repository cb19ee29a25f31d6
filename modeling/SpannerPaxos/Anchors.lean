import SpannerPaxos.FollowerMoves
import SpannerPaxos.Acknowledgement
import SpannerPaxos.Faults

/-! # Anchors stay in the log

A dispatch looks up the term at its anchor and expects to find it.  The anchor is the
slot before `next_slot`, or `sent_slot`, so it is in the log as long as both lie in it.
Everything that moves them takes slots of the log: the end of a batch, an acknowledged
slot, the hint of a follower, the leader's own last slot of a term.
-/
namespace SpannerPaxos

open WriteAheadLog

namespace FollowerState

/-- The positions recorded for a follower lie in a log of `last` entries. -/
structure Within (fs : FollowerState) (last : Nat) : Prop where
  next_pos : 1 ≤ fs.logPosition.nextSlot
  next_le : fs.logPosition.nextSlot ≤ last + 1
  sent_le : fs.logPosition.sentSlot ≤ last
  match_le : fs.logPosition.matchSlot ≤ last

namespace Within
variable {fs : FollowerState} {last : Nat}

theorem mono (h : fs.Within last) {last' : Nat} (hle : last ≤ last') : fs.Within last' where
  next_pos := h.next_pos
  next_le := Nat.le_trans h.next_le (Nat.succ_le_succ hle)
  sent_le := Nat.le_trans h.sent_le hle
  match_le := Nat.le_trans h.match_le hle

theorem prevLogSlot_le (h : fs.Within last) : fs.prevLogSlot ≤ last := by
  have hnext := h.next_le
  have hsent := h.sent_le
  unfold prevLogSlot
  split <;> omega

theorem clearInFlightBatches (h : fs.Within last) : fs.clearInFlightBatches.Within last := by
  refine ⟨h.next_pos, h.next_le, ?_, h.match_le⟩
  have hnext := h.next_le
  show fs.logPosition.nextSlot - 1 ≤ last
  omega

theorem recordMatch (h : fs.Within last) {slot : Nat} (hle : slot ≤ last) :
    (fs.recordMatch slot).Within last where
  next_pos := Nat.succ_le_succ (Nat.zero_le slot)
  next_le := Nat.succ_le_succ hle
  sent_le := max_le h.sent_le hle
  match_le := hle

end Within
end FollowerState

namespace Leader
variable {ctx : PaxosSharedContext} {last : Nat} {fs : FollowerState}

/-- A log without gaps has every anchor up to its end. -/
theorem anchorHeld_of_le (hwal : ctx.wal.ContiguousTo last) (hle : fs.prevLogSlot ≤ last) :
    AnchorHeld ctx fs := by
  by_cases h0 : fs.prevLogSlot = 0
  · exact Or.inl h0
  · exact Or.inr (hasEntry_iff.mpr ((hwal _).mpr ⟨by omega, hle⟩))

/-- An anchor in the log is no further than its end. -/
theorem prevLogSlot_le (hwal : ctx.wal.EndsAt last) {prevLogSlot prevLogTerm : Nat}
    (hanchor : prevLogTerm? ctx prevLogSlot = some prevLogTerm) : prevLogSlot ≤ last := by
  unfold prevLogTerm? at hanchor
  split at hanchor
  · omega
  · obtain ⟨e, he, _⟩ := getTerm_eq_some_iff.mp hanchor
    exact hwal.le _ e he

/-- A hint into the log, or one past it, selects a slot of the log, or one past it. -/
theorem nextSlotAfter_bounds (hwal : ctx.wal.ContiguousTo last) {hint : ConflictHint}
    (hpos : 1 ≤ hint.conflictFirstSlot) (hle : hint.conflictFirstSlot ≤ last + 1) :
    1 ≤ nextSlotAfter ctx hint ∧ nextSlotAfter ctx hint ≤ last + 1 := by
  unfold nextSlotAfter
  split
  · exact ⟨hpos, hle⟩
  · cases hslot : ctx.wal.findHighestSlotForTerm hint.conflictTerm with
    | none => exact ⟨hpos, hle⟩
    | some slot =>
      obtain ⟨⟨e, he, _⟩, _⟩ := (ctx.wal.findHighestSlotForTerm_eq_some_iff).mp hslot
      have hbounds := hwal.le he
      simp only
      omega

theorem within_backtrack (hwal : ctx.wal.ContiguousTo last) (h : fs.Within last)
    {hint : ConflictHint} (hpos : 1 ≤ hint.conflictFirstSlot)
    (hle : hint.conflictFirstSlot ≤ last + 1) : (backtrack ctx hint fs).Within last where
  next_pos := (nextSlotAfter_bounds hwal hpos hle).1
  next_le := (nextSlotAfter_bounds hwal hpos hle).2
  sent_le := h.clearInFlightBatches.sent_le
  match_le := h.match_le

/-- The last entry a dispatch ships is the last of the log. -/
theorem makeAcceptRequest_getLast? (hwal : ctx.wal.EndsAt last)
    {prevLogSlot prevLogTerm : Nat} {minNextTs : Option DateTime} {utc : DateTime}
    {log : AcceptLogEntry}
    (h : (makeAcceptRequest ctx prevLogSlot prevLogTerm minNextTs utc).entries.getLast? =
      some log) : log.slot = last := by
  unfold makeAcceptRequest at h
  dsimp only at h
  rw [List.getLast?_map] at h
  obtain ⟨e, he, rfl⟩ := Option.map_eq_some_iff.mp h
  exact hwal.getEntriesFrom_getLast? he

/-- A dispatch records the end of the log. -/
theorem Dispatched.within {fs' : FollowerState} {minNextTs : Option DateTime}
    {sent : List AcceptRequest} (h : Dispatched ctx minNextTs fs fs' sent)
    (hwal : ctx.wal.ContiguousTo last) (hfs : fs.Within last) : fs'.Within last := by
  cases h with
  | silent => exact hfs
  | sends prevLogTerm utc hanchor hrequest =>
    rename_i request
    cases hlast : request.entries.getLast? with
    | none => exact hfs
    | some log =>
      rw [hrequest] at hlast
      exact ⟨hfs.next_pos, hfs.next_le, le_of_eq (makeAcceptRequest_getLast? hwal.endsAt hlast),
        hfs.match_le⟩

/-- What a response of a follower may say about a log of `last` entries. -/
def Plausible (last : Nat) (response : AcceptResponse) : Prop :=
  response.lastWrittenSlot ≤ last ∧ ∀ hint, response.conflictHint = some hint →
    1 ≤ hint.conflictFirstSlot ∧ hint.conflictFirstSlot ≤ last + 1

/-- **Whatever the leader does to a follower's positions, they stay in the log.** -/
theorem FollowerMove.within {event : PaxosEvent} {memberId : Uuid} {fs' : FollowerState}
    {sent : List AcceptRequest} (h : FollowerMove ctx event memberId fs fs' sent)
    (hwal : ctx.wal.ContiguousTo last) (hfs : fs.Within last)
    (hresponse : ∀ response, event = .acceptResponseReceived response →
      Plausible last response) : fs'.Within last := by
  cases h with
  | dispatches hsame hother h => exact h.within (hsame ▸ hwal) hfs
  | keeps => exact hfs
  | clears hevent => exact hfs.clearInFlightBatches
  | matched response hevent hsender hsuccess hlt =>
    exact hfs.recordMatch (hresponse response hevent).1
  | retries response hint hevent hsender hsuccess hhint hsame h =>
    obtain ⟨hpos, hle⟩ := (hresponse response hevent).2 hint hhint
    exact h.within (hsame ▸ hwal) (within_backtrack (hsame ▸ hwal) hfs hpos hle)

end Leader

/-! ## Nothing that is expected is missing -/

/-- No `expect` of the method fails. -/
def Attempt.Expected {σ : Type} (a : Attempt σ) : Prop :=
  ∀ message, a.fault ≠ some (.panicked message)

namespace Attempt.Expected
variable {σ τ : Type} {a : Attempt σ}

theorem of_fault (h : a.fault = none) : a.Expected := by
  intro message
  rw [h]
  exact Option.some_ne_none _ |>.symm

theorem andThen (ha : a.Expected) {next : σ → Attempt σ} (hnext : ∀ s, (next s).Expected) :
    (a.andThen next).Expected := by
  intro message
  unfold Attempt.andThen
  cases hfault : a.fault with
  | some fault =>
    simp only
    exact ha message
  | none => exact hnext _ message

theorem of_survives (h : a.Survives) : a.Expected := by
  intro message hfault
  cases h _ hfault

end Attempt.Expected

namespace Leader
variable {ctx : PaxosSharedContext} {minNextTs : Option DateTime}

theorem dispatchAcceptRequestToFollower_expected {self : Leader} {memberId : Uuid}
    {fs : FollowerState} (minNextTs : Option DateTime) (env : Env) (hget : self.scoreBoard.get? memberId = some fs)
    (hanchor : AnchorHeld ctx fs) :
    (self.dispatchAcceptRequestToFollower memberId ctx minNextTs env).Expected := by
  obtain ⟨prevLogTerm, hterm⟩ := anchorHeld_iff.mp hanchor
  intro message
  unfold dispatchAcceptRequestToFollower
  simp only [hget, hterm]
  split <;> simp

/-- Every follower of a loop has its anchor in the log, and none of them gets in the way of
a later one. -/
theorem dispatchLoop_expected (memberIds : List Uuid) (hnodup : memberIds.Nodup) (self : Leader)
    (env : Env) (h : ∀ p ∈ memberIds, ∃ fs, self.scoreBoard.get? p = some fs ∧
      AnchorHeld ctx fs) : (dispatchLoop ctx minNextTs self memberIds env).Expected := by
  induction memberIds generalizing self env with
  | nil => exact .of_fault rfl
  | cons memberId memberIds ih =>
    obtain ⟨hhead, htail⟩ := List.nodup_cons.mp hnodup
    obtain ⟨fs, hget, hanchor⟩ := h memberId List.mem_cons_self
    have hfirst := dispatchAcceptRequestToFollower_expected minNextTs env hget hanchor
    rw [dispatchLoop, Attempt.andThen]
    intro message
    cases hfault : (self.dispatchAcceptRequestToFollower memberId ctx minNextTs env).fault with
    | some fault =>
      simp only
      exact hfirst message
    | none =>
      refine ih htail _ _ ?_ message
      intro p hp
      obtain ⟨fs', hget', hanchor'⟩ := h p (List.mem_cons_of_mem _ hp)
      have hne : p ≠ memberId := fun heq => hhead (heq ▸ hp)
      refine ⟨fs', ?_, hanchor'⟩
      rw [dispatchAcceptRequestToFollower_get? hne]
      exact hget'

variable {self : Leader} {env : Env}

theorem dispatchAcceptRequest_expected
    (h : ∀ p fs, self.scoreBoard.get? p = some fs → AnchorHeld ctx fs) :
    (self.dispatchAcceptRequest ctx minNextTs env).Expected := by
  refine dispatchLoop_expected _ self.scoreBoard.keys_nodup _ _ ?_
  intro p hp
  obtain ⟨fs, hget⟩ := AssocMap.mem_keys_iff.mp hp
  exact ⟨fs, hget, h p fs hget⟩

/-- The sender of a response is on the board, and the slot that its hint selects has its
anchor in the log. -/
theorem handleAcceptResponse_expected {response : AcceptResponse} {fs : FollowerState}
    (hquorum : 2 ≤ ctx.getQuorumSize)
    (hget : self.scoreBoard.get? response.memberId = some fs)
    (hanchor : ∀ ctx' hint, ctx'.wal = ctx.wal → response.conflictHint = some hint →
      AnchorHeld ctx' (backtrack ctx' hint fs)) :
    (self.handleAcceptResponse response ctx env).Expected := by
  have hboard : (self.recordContact response).scoreBoard = self.scoreBoard := rfl
  unfold handleAcceptResponse
  dsimp only
  split
  · exact .of_fault rfl
  split
  · exact .of_fault rfl
  rw [if_neg (by omega), hboard, hget]
  dsimp only
  split
  · split
    · exact .of_survives (advanceCommit_survives _ _ _)
    · exact .of_fault rfl
  · split
    · exact .of_fault rfl
    · rename_i hint hhint
      refine dispatchAcceptRequestToFollower_expected none env ?_
        (hanchor _ hint (renewLease_wal _ ctx) hhint)
      show (self.scoreBoard.insert response.memberId _).get? response.memberId = _
      rw [AssocMap.get?_insert, if_pos rfl]

/-! ## One event of a tenure -/

variable {event : PaxosEvent} {l' : Leader}

theorem Leads.moves {a : Attempt (Leader × PaxosSharedContext)}
    (h : Leads self ctx env event a) : self.Moves ctx event a := by
  cases h with
  | heeds response => exact self.handleAcceptResponse_moves ctx env response
  | writes command => exact self.handleClientWrite_moves ctx env command
  | flushes => exact self.handleWriteFlush_moves ctx env
  | beats => exact self.handleHeartbeatTimer_moves ctx env

/-- The method appends a client's write to the log, or leaves the log alone. -/
theorem Leads.contiguous {a : Attempt (Leader × PaxosSharedContext)}
    (h : Leads self ctx env event a) (hwal : ctx.wal.ContiguousTo ctx.lastLogSlot) :
    a.state.2.wal.ContiguousTo a.state.2.lastLogSlot ∧
      ctx.lastLogSlot ≤ a.state.2.lastLogSlot := by
  have hreplicates : ∀ {minNextTs a}, Replicates ctx minNextTs a →
      a.state.2.wal.ContiguousTo a.state.2.lastLogSlot ∧
        ctx.lastLogSlot ≤ a.state.2.lastLogSlot := by
    intro minNextTs a hkept
    rw [hkept.wal, hkept.lastLogSlot]
    exact ⟨hwal, Nat.le_refl _⟩
  cases h with
  | heeds response => exact hreplicates (self.handleAcceptResponse_replicates ctx env response)
  | writes command => exact ⟨hwal.append rfl, Nat.le_succ _⟩
  | flushes => exact hreplicates (self.handleWriteFlush_replicates ctx env)
  | beats => exact hreplicates (self.handleHeartbeatTimer_replicates ctx env)

/-- What the leader expects to find is there, whatever it does. -/
theorem Leads.expected {a : Attempt (Leader × PaxosSharedContext)}
    (h : Leads self ctx env event a) {last : Nat} (hwal : ctx.wal.ContiguousTo last)
    (hfollowers : ∀ p fs, self.scoreBoard.get? p = some fs → fs.Within last)
    (hresponse : ∀ response, event = .acceptResponseReceived response →
      2 ≤ ctx.getQuorumSize ∧ response.memberId ∈ self.scoreBoard.keys ∧
        Plausible last response) : a.Expected := by
  have hanchors : ∀ ctx' : PaxosSharedContext, ctx'.wal = ctx.wal →
      ∀ p fs, self.scoreBoard.get? p = some fs → AnchorHeld ctx' fs := by
    intro ctx' hsame p fs hget
    exact anchorHeld_of_le (hsame ▸ hwal) (hfollowers p fs hget).prevLogSlot_le
  cases h with
  | heeds response =>
    obtain ⟨hquorum, hsender, _, hhint⟩ := hresponse response rfl
    obtain ⟨fs, hget⟩ := AssocMap.mem_keys_iff.mp hsender
    refine handleAcceptResponse_expected hquorum hget ?_
    intro ctx' hint hsame hconflict
    obtain ⟨hpos, hle⟩ := hhint hint hconflict
    have hback := within_backtrack (hsame ▸ hwal) (hfollowers _ fs hget) hpos hle
    exact anchorHeld_of_le (hsame ▸ hwal) hback.prevLogSlot_le
  | writes command => exact .of_fault rfl
  | flushes =>
    unfold handleWriteFlush
    split
    · exact .of_fault rfl
    · exact Attempt.Expected.andThen (dispatchAcceptRequest_expected (hanchors ctx rfl))
        fun _ => .of_fault rfl
  | beats =>
    exact Attempt.Expected.andThen
      (dispatchAcceptRequest_expected (hanchors _ (ctx.advanceTSafe_wal _))) fun _ => .of_fault rfl

end Leader

namespace Serving

/-- The log is contiguous from slot 1 to the log position, and the positions recorded for
every follower, one for each other member, lie in it. -/
structure Anchored (s : Serving) : Prop where
  board : s.leader.scoreBoard.keys = s.ctx.peerIds
  contiguous : s.ctx.wal.ContiguousTo s.ctx.lastLogSlot
  followers : ∀ p fs, s.leader.scoreBoard.get? p = some fs → fs.Within s.ctx.lastLogSlot

/-- A client's write, a flush, a heartbeat, a timeout check, or a response of a member of
the group that speaks of the leader's log. -/
def Tended (s : Serving) (l : PaxosEvent × Env) : Prop :=
  match l.1 with
  | .clientWriteRequestReceived _ | .writeFlushTimerFired | .heartbeatTimerFired
  | .acceptTimeoutCheckFired => True
  | .acceptResponseReceived response =>
    response.memberId ∈ s.ctx.peerIds ∧ Leader.Plausible s.ctx.lastLogSlot response
  | _ => False

variable {s s' : Serving} {l : PaxosEvent × Env}

/-- The leader leads, or clears the batches in flight. -/
theorem Tended.cases (h : s.Tended l) :
    (∃ a, Leader.Leads s.leader s.ctx l.2 l.1 a ∧
      s.leader.handleEvent l.1 s.ctx l.2 = Leader.handleEvent.stay a) ∨
    l.1 = .acceptTimeoutCheckFired := by
  obtain ⟨event, env⟩ := l
  cases event with
  | clientWriteRequestReceived command => exact Or.inl ⟨_, .writes command, rfl⟩
  | writeFlushTimerFired => exact Or.inl ⟨_, .flushes, rfl⟩
  | heartbeatTimerFired => exact Or.inl ⟨_, .beats, rfl⟩
  | acceptTimeoutCheckFired => exact Or.inr rfl
  | acceptResponseReceived response => exact Or.inl ⟨_, .heeds response, rfl⟩
  | _ => exact False.elim h

theorem Tended.response (h : s.Tended l) (hs : s.Anchored) {response : AcceptResponse}
    (hevent : l.1 = .acceptResponseReceived response) :
    2 ≤ s.ctx.getQuorumSize ∧ response.memberId ∈ s.leader.scoreBoard.keys ∧
      Leader.Plausible s.ctx.lastLogSlot response := by
  unfold Tended at h
  rw [hevent] at h
  obtain ⟨hmember, hplausible⟩ := h
  exact ⟨s.ctx.two_le_getQuorumSize hmember, hs.board ▸ hmember, hplausible⟩

/-- What a step does to the log and to the positions. -/
theorem step_moves (hl : s.Tended l) (h : s.step l = some s') :
    (s.ctx.wal.ContiguousTo s.ctx.lastLogSlot →
      s'.ctx.wal.ContiguousTo s'.ctx.lastLogSlot ∧ s.ctx.lastLogSlot ≤ s'.ctx.lastLogSlot) ∧
    ∀ p fs, s.leader.scoreBoard.get? p = some fs → ∃ fs' sent,
      s'.leader.scoreBoard.get? p = some fs' ∧
        Leader.FollowerMove s.ctx l.1 p fs fs' sent := by
  unfold Serving.step at h
  dsimp only at h
  split at h
  · rename_i leader hresult
    rw [PaxosState.processEvent_of_not_follower hresult fun f hf => by cases hf] at h hresult
    cases Option.some.inj h
    change (s.leader.handleEvent l.1 s.ctx l.2).result = .ok (.leader leader) at hresult
    dsimp only
    change (_ → (s.leader.handleEvent l.1 s.ctx l.2).ctx.wal.ContiguousTo
      (s.leader.handleEvent l.1 s.ctx l.2).ctx.lastLogSlot ∧
        _ ≤ (s.leader.handleEvent l.1 s.ctx l.2).ctx.lastLogSlot) ∧ _
    rcases hl.cases with ⟨a, hleads, heq⟩ | hevent
    · rw [heq] at hresult ⊢
      cases PaxosState.leader.inj (Leader.stay_result hresult)
      rw [Leader.handleEvent.stay, Attempt.toOutcome_ctx, Attempt.map_state]
      refine ⟨hleads.contiguous, fun p fs hget => ?_⟩
      obtain ⟨fs', hget', hmove⟩ := hleads.moves p fs hget
      exact ⟨fs', _, hget', hmove⟩
    · rw [hevent] at hresult ⊢
      cases PaxosState.leader.inj (Except.ok.inj hresult)
      refine ⟨fun hwal => ⟨hwal, Nat.le_refl _⟩, fun p fs hget => ?_⟩
      obtain ⟨fs', hget', hmove⟩ := s.leader.handleAcceptTimeoutCheck_moves s.ctx l.2 p fs hget
      exact ⟨fs', _, hget', hmove⟩
  · cases h

/-- **One event keeps the positions in the log.** -/
theorem Anchored.step (hs : s.Anchored) (hl : s.Tended l) (h : s.step l = some s') :
    s'.Anchored := by
  have hgroup := (step_next h).2
  obtain ⟨hlog, hmoves⟩ := step_moves hl h
  obtain ⟨hcontiguous, hle⟩ := hlog hs.contiguous
  refine ⟨?_, hcontiguous, ?_⟩
  · rw [hgroup.keys, hs.board, hgroup.peerIds]
  · intro p fs' hget'
    -- a follower on the board now was on it before, and has moved
    have hmem := AssocMap.mem_keys_iff.mpr ⟨fs', hget'⟩
    rw [hgroup.keys] at hmem
    obtain ⟨fs, hget⟩ := AssocMap.mem_keys_iff.mp hmem
    obtain ⟨fs'', sent, hget'', hmove⟩ := hmoves p fs hget
    cases Option.some.inj (hget''.symm.trans hget')
    exact (hmove.within hs.contiguous (hs.followers p fs hget) fun response hevent =>
      (hl.response hs hevent).2.2).mono hle

/-- **No event panics**: what the leader expects to find is there. -/
theorem Anchored.not_panicked (hs : s.Anchored) (hl : s.Tended l) (message : String) :
    ((PaxosState.leader s.leader).processEvent l.1 s.ctx false l.2).result ≠
      .error (.panicked message) := by
  rw [PaxosState.processEvent_eq]
  rcases (PaxosState.leader s.leader).adoptTerm_cases l.1 s.ctx with heq | ⟨term, hterm, _, heq⟩
  · rw [heq]
    show (s.leader.handleEvent l.1 s.ctx l.2).result ≠ _
    rcases hl.cases with ⟨a, hleads, hstay⟩ | hevent
    · have hexpected := hleads.expected hs.contiguous hs.followers fun response hevent =>
        hl.response hs hevent
      rw [hstay, Leader.handleEvent.stay, Attempt.toOutcome, Attempt.map]
      cases hfault : a.fault with
      | none => simp [Outcome.ok]
      | some fault =>
        have hne := hexpected message
        rw [hfault] at hne
        intro hpanic
        exact hne (congrArg some (Except.error.inj hpanic))
    · rw [hevent]
      simp [Leader.handleEvent, Outcome.ok]
  · -- only a response carries a term, and a Follower ignores it
    rw [heq]
    obtain ⟨event, env⟩ := l
    cases event with
    | acceptResponseReceived response => simp [PaxosState.handleEvent, Follower.handleEvent, Outcome.ok]
    | clientWriteRequestReceived command => cases hterm
    | writeFlushTimerFired => cases hterm
    | heartbeatTimerFired => cases hterm
    | acceptTimeoutCheckFired => cases hterm
    | _ => exact False.elim hl

/-- **Dispatch never misses its anchor**: in every state of a tenure the positions of every
follower lie in the log, and no event that the tenure may see panics. -/
theorem anchored_of_run (h : s.Anchored) (hrun : Runs Serving.step Tended s s') :
    s'.Anchored ∧ ∀ l, s'.Tended l → ∀ message,
      ((PaxosState.leader s'.leader).processEvent l.1 s'.ctx false l.2).result ≠
        .error (.panicked message) := by
  have hs' : s'.Anchored := hrun.invariant h fun _ _ _ ha hok hstep => ha.step hok hstep
  exact ⟨hs', fun l hl => hs'.not_panicked hl⟩

theorem fresh_anchored : fresh.Anchored where
  board := rfl
  contiguous := contiguousTo_new
  followers := by
    intro p fs hget
    have hmem := AssocMap.mem_values_iff.mpr ⟨p, hget⟩
    have hfs : fs = FollowerState.new (LogPosition.withNextSlot 1) := by
      simpa [fresh, Leader.new, Candidate.new, PaxosSharedContext.memberOfThree,
        PaxosSharedContext.new, AssocMap.mapValues, AssocMap.ofKeys, AssocMap.values] using hmem
    rw [hfs]
    exact ⟨by decide, by decide, by decide, by decide⟩

/-- The first write of a tenure and its acknowledgement. -/
theorem anchored_of_run_first :
    ∃ s, exec step fresh [firstWrite, firstAnswer] = some s ∧ s.ctx.lastLogSlot = 1 ∧
      s.Anchored := by
  refine ⟨_, rfl, rfl, ?_⟩
  exact (anchored_of_run fresh_anchored (((Runs.refl _).tail firstWrite trivial rfl).tail
    firstAnswer ⟨by decide, by decide, fun hint hhint => by cases hhint⟩ rfl)).1

end Serving
end SpannerPaxos
