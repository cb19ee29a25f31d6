import SpannerPaxos.LogEnd
import SpannerPaxos.Anchors

/-! # Batches in flight

An acknowledgement drops batches from the front of a follower's queue and stops at the
first one above the acknowledged slot; it drops all that it should only if the queue is
sorted.  It is, because a dispatch always ships the log to its end and a Leader's log only
grows: every batch that is pushed ends at the highest slot of the log, and those before it
ended at slots that the log still has.
-/

/-- If what is dropped comes before what is not, dropping from the front is filtering. -/
theorem List.dropWhile_eq_filter {α : Type} {p : α → Bool} {l : List α}
    (h : l.Pairwise fun a b => p b = true → p a = true) :
    l.dropWhile p = l.filter fun a => !p a := by
  induction l with
  | nil => rfl
  | cons a l ih =>
    obtain ⟨hhead, htail⟩ := List.pairwise_cons.mp h
    by_cases ha : p a = true
    · rw [List.dropWhile_cons_of_pos ha, List.filter_cons_of_neg (by simp [ha])]
      exact ih htail
    · have hnone : ∀ b ∈ a :: l, (!p b) = true := by
        intro b hb
        rw [Bool.not_eq_true', Bool.eq_false_iff]
        rcases List.mem_cons.mp hb with rfl | hb
        · exact ha
        · exact fun hp => ha (hhead b hb hp)
      rw [List.dropWhile_cons_of_neg ha, List.filter_eq_self.mpr hnone]

namespace SpannerPaxos

namespace FollowerState

/-- The batches in flight are in the order of their highest slots, at all of which the log
has an entry. -/
structure Queued (fs : FollowerState) (wal : WriteAheadLog) : Prop where
  sorted : fs.inFlightBatches.Pairwise fun a b => a.highestSlot ≤ b.highestSlot
  held : ∀ b ∈ fs.inFlightBatches, ∃ e, wal.get? b.highestSlot = some e

namespace Queued
variable {fs fs' : FollowerState} {wal wal' : WriteAheadLog}

theorem of_nil (h : fs.inFlightBatches = []) : fs.Queued wal := by
  constructor
  · rw [h]
    exact List.Pairwise.nil
  · intro b hb
    rw [h] at hb
    cases hb

theorem mono (h : fs.Queued wal)
    (hwal : ∀ slot e, wal.get? slot = some e → ∃ e', wal'.get? slot = some e') :
    fs.Queued wal' := by
  refine ⟨h.sorted, ?_⟩
  intro b hb
  obtain ⟨e, he⟩ := h.held b hb
  exact hwal _ e he

/-- Batches may go. -/
theorem sublist (h : fs.Queued wal) (hsub : fs'.inFlightBatches.Sublist fs.inFlightBatches) :
    fs'.Queued wal :=
  ⟨h.sorted.sublist hsub, fun b hb => h.held b (hsub.subset hb)⟩

/-- A batch that ends with the log may be added behind the others. -/
theorem pushBatch (h : fs.Queued wal) {slot : Nat} {e : LogEntry} (he : wal.get? slot = some e)
    (hmax : ∀ k e', wal.get? k = some e' → k ≤ slot) {sentAt : DateTime}
    (hpush : fs'.inFlightBatches = fs.inFlightBatches ++ [⟨sentAt, slot⟩]) : fs'.Queued wal := by
  constructor
  · rw [hpush, List.pairwise_append]
    refine ⟨h.sorted, List.pairwise_singleton _ _, ?_⟩
    intro a ha b hb
    obtain rfl := List.mem_singleton.mp hb
    obtain ⟨e', he'⟩ := h.held a ha
    exact hmax _ e' he'
  · intro b hb
    rw [hpush] at hb
    rcases List.mem_append.mp hb with hold | hnew
    · exact h.held b hold
    · obtain rfl := List.mem_singleton.mp hnew
      exact ⟨e, he⟩

/-- **An acknowledgement leaves exactly the batches above the slot.** -/
theorem ackBatchesUpTo_eq (h : fs.Queued wal) (slot : Nat) :
    (fs.ackBatchesUpTo slot).inFlightBatches =
      fs.inFlightBatches.filter fun b => decide (slot < b.highestSlot) := by
  unfold ackBatchesUpTo
  dsimp only
  rw [List.dropWhile_eq_filter]
  · refine List.filter_congr ?_
    intro b _
    rw [← decide_not]
    exact decide_eq_decide.mpr Nat.not_le
  · refine h.sorted.imp ?_
    intro a b hle hb
    have hacked := of_decide_eq_true hb
    exact decide_eq_true (Nat.le_trans hle hacked)

end Queued
end FollowerState

/-! ## What a Leader does to the queues -/

namespace Leader
variable {ctx ctx' : PaxosSharedContext} {fs fs' : FollowerState} {sent : List AcceptRequest}
  {event : PaxosEvent} {env : Env} {self l' : Leader}

/-- The last entry of a request is the highest of the log it is made from. -/
theorem makeAcceptRequest_highest {prevLogSlot prevLogTerm : Nat} {minNextTs : Option DateTime}
    {utc : DateTime} {log : AcceptLogEntry}
    (h : (makeAcceptRequest ctx prevLogSlot prevLogTerm minNextTs utc).entries.getLast? =
      some log) :
    (∃ e, ctx.wal.get? log.slot = some e) ∧
      ∀ k e, ctx.wal.get? k = some e → k ≤ log.slot := by
  unfold makeAcceptRequest at h
  dsimp only at h
  rw [List.getLast?_map] at h
  obtain ⟨e, he, rfl⟩ := Option.map_eq_some_iff.mp h
  obtain ⟨_, hget⟩ := ctx.wal.mem_getEntriesFrom.mp (List.mem_of_getLast? he)
  exact ⟨⟨e, hget⟩, fun k e' hk => ctx.wal.le_of_getEntriesFrom_getLast? he hk⟩

theorem Dispatched.queued {minNextTs : Option DateTime} (h : Dispatched ctx minNextTs fs fs' sent)
    (hfs : fs.Queued ctx.wal) : fs'.Queued ctx.wal := by
  cases h with
  | silent => exact hfs
  | sends prevLogTerm utc hanchor hrequest =>
    rename_i request
    cases hlast : request.entries.getLast? with
    | none => exact hfs
    | some log =>
      rw [hrequest] at hlast
      obtain ⟨⟨e, he⟩, hmax⟩ := makeAcceptRequest_highest hlast
      exact hfs.pushBatch he hmax rfl

/-- **Whatever the Leader does to a follower's queue, it stays in order.** -/
theorem FollowerMove.queued {memberId : Uuid} (h : FollowerMove ctx event memberId fs fs' sent)
    (hfs : fs.Queued ctx.wal) : fs'.Queued ctx.wal := by
  cases h with
  | dispatches hwal _ h => exact hwal ▸ h.queued (hwal ▸ hfs)
  | keeps => exact hfs
  | clears _ => exact .of_nil rfl
  | matched response _ _ _ _ => exact hfs.sublist (List.dropWhile_sublist _)
  | retries response hint _ _ _ _ hwal h => exact hwal ▸ h.queued (.of_nil rfl)

/-- Every queue of the Leader is in order. -/
def Queued (self : Leader) (wal : WriteAheadLog) : Prop :=
  ∀ memberId fs, self.scoreBoard.get? memberId = some fs → fs.Queued wal

theorem Queued.mono {wal wal' : WriteAheadLog} (h : self.Queued wal)
    (hwal : ∀ slot e, wal.get? slot = some e → ∃ e', wal'.get? slot = some e') :
    self.Queued wal' :=
  fun memberId fs hget => (h memberId fs hget).mono hwal

/-- The board has the same followers as before, and each queue has stayed in order. -/
theorem Queued.of_followers {wal : WriteAheadLog} (h : self.Queued wal)
    (hkeys : l'.scoreBoard.keys = self.scoreBoard.keys)
    (hfollowers : ∀ memberId fs, self.scoreBoard.get? memberId = some fs → ∃ fs',
      l'.scoreBoard.get? memberId = some fs' ∧ (fs.Queued wal → fs'.Queued wal)) :
    l'.Queued wal := by
  intro memberId fs' hget'
  have hmem := AssocMap.mem_keys_iff.mpr ⟨fs', hget'⟩
  rw [hkeys] at hmem
  obtain ⟨fs, hget⟩ := AssocMap.mem_keys_iff.mp hmem
  obtain ⟨fs'', hget'', hstays⟩ := hfollowers memberId fs hget
  obtain rfl := Option.some.inj (hget''.symm.trans hget')
  exact hstays (h memberId fs hget)

/-- A dispatch to all keeps the queues in order. -/
theorem Queued.dispatchAcceptRequest (h : self.Queued ctx.wal) (minNextTs : Option DateTime)
    (env : Env) : (self.dispatchAcceptRequest ctx minNextTs env).state.Queued ctx.wal := by
  refine h.of_followers (self.dispatchAcceptRequest_spec ctx minNextTs env).1.keys ?_
  intro memberId fs hget
  obtain ⟨fs', hget', hdispatched⟩ := dispatchLoop_dispatched ctx minNextTs
    self.scoreBoard.keys self.scoreBoard.keys_nodup self env hget
  exact ⟨fs', hget', hdispatched.queued⟩

/-- **A new Leader's queues are in order**, whatever it has recovered. -/
theorem queued_processUncommittedLogs (board : AssocMap Uuid LogPosition)
    (ctx : PaxosSharedContext) (env : Env) :
    ((Leader.new board).processUncommittedLogs ctx env).state.1.Queued
      ((Leader.new board).processUncommittedLogs ctx env).state.2.wal := by
  have hempty : ∀ (wal : WriteAheadLog), (Leader.new board).Queued wal := by
    intro wal memberId fs hget
    change (board.mapValues FollowerState.new).get? memberId = some fs at hget
    rw [AssocMap.get?_mapValues] at hget
    obtain ⟨pos, _, rfl⟩ := Option.map_eq_some_iff.mp hget
    exact .of_nil rfl
  unfold processUncommittedLogs
  dsimp only
  split
  · refine Queued.dispatchAcceptRequest ?_ none env
    intro memberId fs hget
    rw [AssocMap.get?_mapValues] at hget
    obtain ⟨fs₀, hget₀, rfl⟩ := Option.map_eq_some_iff.mp hget
    exact (hempty _ memberId fs₀ hget₀).sublist (List.Sublist.refl _)
  · exact (hempty _).dispatchAcceptRequest none env

/-- The log keeps its slots, whatever the Leader does. -/
theorem Leads.holds {a : Attempt (Leader × PaxosSharedContext)} (h : Leads self ctx env event a)
    (slot : Nat) (e : LogEntry) (he : ctx.wal.get? slot = some e) :
    ∃ e', a.state.2.wal.get? slot = some e' := by
  cases h with
  | heeds response => exact ⟨e, (self.handleAcceptResponse_replicates ctx env response).wal ▸ he⟩
  | writes command =>
    show ∃ e', (ctx.wal.append _).get? slot = some e'
    rw [WriteAheadLog.get?_append]
    split
    · exact ⟨_, rfl⟩
    · exact ⟨e, he⟩
  | flushes => exact ⟨e, (self.handleWriteFlush_replicates ctx env).wal ▸ he⟩
  | beats => exact ⟨e, (self.handleHeartbeatTimer_replicates ctx env).wal ▸ he⟩

/-- The methods by which a Leader leads keep the members of its board. -/
theorem Leads.keys {a : Attempt (Leader × PaxosSharedContext)} (h : Leads self ctx env event a) :
    a.state.1.scoreBoard.keys = self.scoreBoard.keys := by
  cases h with
  | heeds response => exact self.handleAcceptResponse_keys ctx env response
  | writes command => rfl
  | flushes => exact (self.handleWriteFlush_standing ctx env).keys
  | beats => exact (self.handleHeartbeatTimer_standing ctx env).keys

/-- **An event that leaves a Leader in office leaves its queues in order.** -/
theorem Queued.handleEvent (h : self.Queued ctx.wal)
    (hresult : (self.handleEvent event ctx env).result = .ok (.leader l')) :
    l'.Queued (self.handleEvent event ctx env).ctx.wal := by
  rcases self.leads_or_quiet event ctx env with ⟨a, hleads, heq⟩ | ⟨_, hquiet⟩
  · rw [heq] at hresult ⊢
    obtain rfl := PaxosState.leader.inj (stay_result hresult)
    rw [handleEvent.stay, Attempt.toOutcome_ctx, Attempt.map_state]
    refine (h.of_followers hleads.keys ?_).mono hleads.holds
    intro memberId fs hget
    obtain ⟨fs', hget', hmove⟩ := hleads.moves memberId fs hget
    exact ⟨fs', hget', hmove.queued⟩
  · obtain ⟨hctx, hrests⟩ := hquiet l' hresult
    rw [hctx]
    refine h.of_followers hrests.standing.keys ?_
    intro memberId fs hget
    rcases hrests with rfl | ⟨_, rfl⟩
    · exact ⟨fs, hget, id⟩
    · obtain ⟨fs', hget', hmove⟩ := self.handleAcceptTimeoutCheck_moves ctx env memberId fs hget
      exact ⟨fs', hget', hmove.queued⟩

/-- What a Leader sends carries slots behind its anchor, the last one highest. -/
theorem Sent.ascending {minNextTs : Option DateTime} {request : AcceptRequest}
    (h : Sent ctx minNextTs request) : request.Ascending := by
  obtain ⟨prevLogSlot, prevLogTerm, utc, _, rfl⟩ := h
  intro log hlog
  obtain ⟨e, he, rfl⟩ := List.mem_map.mp hlog
  obtain ⟨hfrom, hget⟩ := ctx.wal.mem_getEntriesFrom.mp he
  have hlt : prevLogSlot < e.slot := by omega
  exact ⟨hlt, (Batch.reach_makeAcceptRequest ctx prevLogSlot prevLogTerm minNextTs utc).2.2
    e.slot e hget hlt⟩

end Leader

/-- A Candidate that wins makes a Leader whose queues are in order. -/
theorem Candidate.queued_of_win {self : Candidate} {ctx : PaxosSharedContext} {env : Env}
    {response : VoteResponse} {l : Leader}
    (h : (self.handleEvent (.voteResponseReceived response) ctx env).result = .ok (.leader l)) :
    l.Queued (self.handleEvent (.voteResponseReceived response) ctx env).ctx.wal := by
  obtain ⟨c', dispatchTime, _, _, _, heq⟩ := eq_becomeLeader_of_win h
  rw [heq] at h ⊢
  obtain rfl := PaxosState.leader.inj (Attempt.toOutcome_result h)
  rw [becomeLeader, Attempt.toOutcome_ctx]
  exact Leader.queued_processUncommittedLogs _ _ _

/-! ## Runs of a member -/

namespace Member

/-- A received accept request was sent by a Leader, from its log as it stood then. -/
def Label.SentByLeader : Label → Prop
  | .event received _ => ∀ command, received = .acceptRequestReceived command →
    ∃ ctx minNextTs, Leader.Sent ctx minNextTs command.request
  | _ => True

theorem Label.SentByLeader.ascending {l : Label} (h : l.SentByLeader) : l.Ascending := by
  cases l with
  | event received env =>
    intro command hreceived
    obtain ⟨ctx, minNextTs, hsent⟩ := h command hreceived
    exact hsent.ascending
  | _ => exact trivial

/-- The books are kept, and if the member is a Leader its queues are in order. -/
structure InFlight (m : Member) : Prop where
  kept : m.Kept
  queued : ∀ l, m.role = .leader l → l.Queued m.ctx.wal

variable {m m' : Member} {l : Label}

theorem start_inFlight (memberId : Uuid) (peerIds : List Uuid) (h : peerIds.Nodup) :
    (start memberId peerIds h).InFlight where
  kept := (start_books memberId peerIds h).kept
  queued := by
    intro l hl
    cases hl

/-- **One step keeps the queues in order.** -/
theorem InFlight.step (hm : m.InFlight) (hl : l.SentByLeader) (h : m.step l = some m') :
    m'.InFlight := by
  refine ⟨hm.kept.step hl.ascending h, ?_⟩
  intro leader hleader
  rcases step_handles h with ⟨event, env, rfl, hresult, hctx⟩ | ⟨_, hsame, hrole⟩
  · rw [hleader] at hresult
    rw [hctx]
    rcases (PaxosState.leader_of_handleEvent hresult).2 with
      ⟨c, c', response, hcandidate, rfl, _, _⟩ | ⟨l₀, hleads⟩
    · rw [hcandidate] at hresult ⊢
      exact Candidate.queued_of_win hresult
    · rw [hleads] at hresult ⊢
      rcases m.role.adoptTerm_cases event m.ctx with hkept | ⟨term, _, _, hadopt⟩
      · rw [hkept] at hleads hresult ⊢
        exact (hm.queued l₀ hleads).handleEvent hresult
      · -- who adopts a term is a Follower
        rw [hadopt] at hleads
        cases hleads
  · rcases hrole with hstays | ⟨f, hf⟩
    · rw [hsame.wal]
      exact hm.queued leader (hstays ▸ hleader)
    · rw [hf] at hleader
      cases hleader

/-- **The batches in flight of every follower of every Leader** are in the order of their
highest slots, none of which is above the log position; so an acknowledgement leaves
exactly those above its slot. -/
theorem inFlightBatches_in_order {memberId : Uuid} {peerIds : List Uuid} {h : peerIds.Nodup}
    {leader : Leader} {p : Uuid} {fs : FollowerState}
    (hrun : Runs step (fun _ l => l.SentByLeader) (start memberId peerIds h) m)
    (hrole : m.role = .leader leader) (hget : leader.scoreBoard.get? p = some fs) :
    (fs.inFlightBatches.Pairwise fun a b => a.highestSlot ≤ b.highestSlot) ∧
      (∀ b ∈ fs.inFlightBatches, b.highestSlot ≤ m.ctx.lastLogSlot) ∧
      ∀ slot, (fs.ackBatchesUpTo slot).inFlightBatches =
        fs.inFlightBatches.filter fun b => decide (slot < b.highestSlot) := by
  have hm : m.InFlight := hrun.invariant (start_inFlight memberId peerIds h)
    fun _ _ _ ha hl hstep => ha.step hl hstep
  have hfs := hm.queued leader hrole p fs hget
  refine ⟨hfs.sorted, ?_, hfs.ackBatchesUpTo_eq⟩
  intro b hb
  obtain ⟨e, he⟩ := hfs.held b hb
  exact hm.kept.bounded b.highestSlot e he

/-- Member 1 of a group of three is elected by member 2, and sends two writes, one after the
other. -/
def twoBatches : List Label :=
  [.event .leaderLeaseExpired (.steady (Duration.seconds 1)), .countdownFires true,
    .event .electionCountdownExpired (.steady (Duration.seconds 2)),
    .event (.preVoteResponseReceived ⟨2, 0, true, none, none, none⟩)
      (.steady (Duration.seconds 3)),
    .event (.voteResponseReceived Campaign.promiseOfTermOne) (.steady (Duration.seconds 4)),
    .event (.clientWriteRequestReceived ⟨⟨"a"⟩, ⟨7, true⟩⟩) (.steady (Duration.seconds 5)),
    .event .writeFlushTimerFired (.steady (Duration.seconds 6)),
    .event (.clientWriteRequestReceived ⟨⟨"b"⟩, ⟨8, true⟩⟩) (.steady (Duration.seconds 7)),
    .event .writeFlushTimerFired (.steady (Duration.seconds 8))]

/-- Both batches are in flight to member 2, and an acknowledgement of slot 1 would leave the
second. -/
theorem inFlightBatches_in_order_twoBatches :
    ∃ m leader fs, exec step (start 1 [2, 3] (by decide)) twoBatches = some m ∧
      m.role = .leader leader ∧ leader.scoreBoard.get? 2 = some fs ∧
      fs.inFlightBatches.map InFlightBatch.highestSlot = [1, 2] ∧
      (fs.ackBatchesUpTo 1).inFlightBatches =
        fs.inFlightBatches.filter fun b => decide (1 < b.highestSlot) := by
  have hleads : ∃ m leader fs, exec step (start 1 [2, 3] (by decide)) twoBatches = some m ∧
      m.role = .leader leader ∧ leader.scoreBoard.get? 2 = some fs ∧
      fs.inFlightBatches.map InFlightBatch.highestSlot = [1, 2] := ⟨_, _, _, rfl, rfl, rfl, rfl⟩
  obtain ⟨m, leader, fs, hexec, hrole, hget, hslots⟩ := hleads
  have hsent : ∀ l ∈ twoBatches, l.SentByLeader := by
    simp [twoBatches, Label.SentByLeader]
  have hrun := Runs.of_exec_of_forall twoBatches (fun l hl _ => hsent l hl) hexec
  exact ⟨m, leader, fs, hexec, hrole, hget, hslots,
    (inFlightBatches_in_order hrun hrole hget).2.2 1⟩

end Member
end SpannerPaxos
