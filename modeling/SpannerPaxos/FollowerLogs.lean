import SpannerPaxos.Reconciliation
import SpannerPaxos.LogEnd
import SpannerPaxos.LogRefinement

/-! # What the followers hold

With its messages in order, every follower of a tenure keeps a log without gaps that is no
longer than the leader's, and answers with slots of the leader's log.  So the positions that
the leader records for it stay in the log, whatever is lost on the way, and what the two
hold of one term comes from one log.
-/
namespace SpannerPaxos

open ReplicatedLog

namespace Batch
variable {source wal : WriteAheadLog} {request : AcceptRequest} {last last' : Nat}

/-- A batch reaches no further than its source. -/
theorem reach_le (h : Batch source request) (hsource : source.ContiguousTo last) :
    request.reach ≤ last := by
  rcases h.reach with hzero | ⟨e, he⟩
  · omega
  · exact (hsource.le he).2

/-- A batch behind an anchor of the log leaves no gap. -/
theorem contiguousTo_writtenWal (h : Batch source request) (hsource : source.ContiguousTo last)
    (hwal : wal.ContiguousTo last') (hanchor : Follower.AnchorMatches request wal) :
    (Follower.writtenWal request wal).ContiguousTo request.reach := by
  have hprev : request.prevLogSlot ≤ last' := by
    rcases hanchor with hzero | hterm
    · omega
    · obtain ⟨e, he, _⟩ := WriteAheadLog.getTerm_eq_some_iff.mp hterm
      exact (hwal.le he).2
  have hreach := h.reach_le hsource
  have hle := h.prev_le
  intro k
  have hget := congrFun (h.written wal) k
  rw [WriteAheadLog.log] at hget
  rw [hget]
  by_cases hk : k ≤ request.prevLogSlot
  · rw [splice_of_le _ _ hk, hwal k]
    omega
  · by_cases hk' : k ≤ request.reach
    · rw [splice_of_lt_of_le _ _ (by omega) hk', hsource k]
      omega
    · rw [splice_of_gt _ _ (by omega) (by omega)]
      constructor
      · rintro ⟨e, he⟩
        cases he
      · omega

end Batch

namespace Follower
variable {source : WriteAheadLog} {request : AcceptRequest} {ctx : PaxosSharedContext} {last : Nat}

/-- The log position follows the batch, if the batch reaches it. -/
theorem writeBatch_lastLogSlot (hcopy : ctx.wal.ContiguousTo ctx.lastLogSlot)
    (hanchor : AnchorMatches request ctx.wal) (hreach : ctx.lastLogSlot ≤ request.reach) :
    (writeBatch request ctx).2.lastLogSlot = request.reach := by
  rcases PaxosSharedContext.writeBatch_logPosition request ctx with ⟨hnil, hslot, _⟩ | ⟨e, hlast, hslot, _⟩
  · have hprev : request.reach = request.prevLogSlot := by
      unfold AcceptRequest.reach
      rw [hnil]
      rfl
    rw [hslot]
    rcases hanchor with hzero | hterm
    · omega
    · obtain ⟨e, he, _⟩ := WriteAheadLog.getTerm_eq_some_iff.mp hterm
      have hle := (hcopy.le he).2
      omega
  · rw [hslot]
    unfold AcceptRequest.reach
    rw [hlast]

/-- **What a follower makes of a batch that comes in order**: its log stays without gaps,
and its answer speaks of the source's slots. -/
theorem handleAcceptRequest_copy (self : Follower) (env : Env) (hbatch : Batch source request)
    (hsource : source.ContiguousTo last) (hcopy : ctx.wal.ContiguousTo ctx.lastLogSlot)
    (hle : ctx.lastLogSlot ≤ last) (hreach : ctx.lastLogSlot ≤ request.reach) :
    let answer := self.handleAcceptRequest request ctx env
    answer.2.wal.ContiguousTo answer.2.lastLogSlot ∧ Leader.Plausible last answer.1 ∧
      (answer.2.lastLogSlot = ctx.lastLogSlot ∨
        answer.1.success = true ∧ answer.2.lastLogSlot = answer.1.lastWrittenSlot) := by
  dsimp only
  rcases self.handleAcceptRequest_cases request ctx env with
    ⟨_, heq⟩ | ⟨hadmits, hno, _⟩ | ⟨_, hanchor, heq⟩
  · rw [heq]
    exact ⟨hcopy, ⟨Nat.zero_le _, fun hint hhint => by cases hhint⟩, Or.inl rfl⟩
  · obtain ⟨hint, hanswer, _, hhint⟩ := answerAcceptRequest_hint hno
    rw [handleAcceptRequest_of_admits hadmits, hanswer]
    refine ⟨hcopy, ⟨Nat.zero_le _, fun hint' hhint' => ?_⟩, Or.inl rfl⟩
    cases Option.some.inj hhint'
    rcases hhint with ⟨_, rfl⟩ | ⟨e, _, _, _, hlow⟩
    · exact ⟨Nat.succ_le_succ (Nat.zero_le _), Nat.succ_le_succ hle⟩
    · obtain ⟨⟨first, hfirst, _⟩, _⟩ := (ctx.wal.findLowestSlotForTerm_eq_some_iff).mp hlow
      have hbounds := hcopy.le hfirst
      omega
  · rw [heq]
    have hlast := writeBatch_lastLogSlot hcopy hanchor hreach
    refine ⟨?_, ⟨hbatch.reach_le hsource, fun hint hhint => by cases hhint⟩, Or.inr ⟨rfl, hlast⟩⟩
    show (writeBatch request ctx).2.wal.ContiguousTo (writeBatch request ctx).2.lastLogSlot
    rw [hlast, writeBatch_wal]
    exact hbatch.contiguousTo_writtenWal hsource hcopy hanchor

end Follower

theorem Leader.Plausible.mono {last last' : Nat} {response : AcceptResponse}
    (h : Plausible last response) (hle : last ≤ last') : Plausible last' response := by
  refine ⟨h.1.trans hle, fun hint hhint => ?_⟩
  obtain ⟨hpos, hbound⟩ := h.2 hint hhint
  exact ⟨hpos, hbound.trans (Nat.succ_le_succ hle)⟩

namespace Tenure
variable {s s' : Tenure} {l : Label}

/-- The leader's log has no gaps, and the positions recorded for the followers lie in it. -/
structure Positioned (s : Tenure) : Prop where
  contiguous : s.wal.ContiguousTo s.ctx.lastLogSlot
  followers : ∀ leader, s.leader = some leader → ∀ p fs, leader.scoreBoard.get? p = some fs →
    fs.Within s.ctx.lastLogSlot

/-- A method that moves the positions of every follower by itself keeps them in the log. -/
theorem Positioned.led {leader : Leader} {event : PaxosEvent}
    {a : Attempt (Leader × PaxosSharedContext)} (hs : s.Positioned)
    (hleader : s.leader = some leader) (hkeys : ∀ leader', s'.leader = some leader' →
      leader'.scoreBoard.keys = leader.scoreBoard.keys) (hled : Led s s' a)
    (hmoves : leader.Moves s.ctx event a)
    (hlog : a.state.2.wal.ContiguousTo a.state.2.lastLogSlot ∧
      s.ctx.lastLogSlot ≤ a.state.2.lastLogSlot)
    (hresponse : ∀ response, event = .acceptResponseReceived response →
      Leader.Plausible s.ctx.lastLogSlot response) : s'.Positioned := by
  refine ⟨?_, fun leader' hleader' p fs' hget' => ?_⟩
  · rw [wal, hled.ctx]
    exact hlog.1
  · have hstays : leader' = a.state.1 := by
      rcases hled.leader with h | h
      · exact Option.some.inj (hleader'.symm.trans h)
      · rw [hleader'] at h
        cases h
    -- a follower on the board now was on it before, and has moved
    have hmem := AssocMap.mem_keys_iff.mpr ⟨fs', hget'⟩
    rw [hkeys leader' hleader'] at hmem
    obtain ⟨fs, hget⟩ := AssocMap.mem_keys_iff.mp hmem
    obtain ⟨fs'', hget'', hmove⟩ := hmoves p fs hget
    rw [hstays] at hget'
    cases Option.some.inj (hget''.symm.trans hget')
    rw [hled.ctx]
    exact (hmove.within hs.contiguous (hs.followers leader hleader p fs hget) hresponse).mono hlog.2

/-- **A step keeps the positions in the log**, where the answers speak of its slots. -/
theorem Positioned.step (hs : s.Positioned) (hboard : s.BoardOfPeers) (hboard' : s'.BoardOfPeers)
    (h : Next s s' l) (hresponses : ∀ p, ∀ response ∈ s.responses p,
      Leader.Plausible s.ctx.lastLogSlot response) : s'.Positioned := by
  have hkeys : ∀ leader leader', s.leader = some leader → s'.leader = some leader' →
      leader'.scoreBoard.keys = leader.scoreBoard.keys := by
    intro leader leader' hleader hleader'
    rw [hboard leader hleader, hboard' leader' hleader', h.logNext.sameMember.peerIds]
  have hleads : ∀ {leader : Leader} {event : PaxosEvent} {env : Env}
      {a : Attempt (Leader × PaxosSharedContext)}, s.leader = some leader → Led s s' a →
      Leader.Leads leader s.ctx env event a →
      (∀ response, event = .acceptResponseReceived response →
        Leader.Plausible s.ctx.lastLogSlot response) → s'.Positioned := by
    intro leader event env a hleader hled hleads
    exact hs.led hleader (fun leader' => hkeys leader leader' hleader) hled hleads.moves
      (hleads.contiguous hs.contiguous)
  cases h with
  | clientWrite leader hleader hled =>
    exact hleads hleader hled (.writes _) fun response hevent => by cases hevent
  | writeFlush leader hleader hled =>
    exact hleads hleader hled .flushes fun response hevent => by cases hevent
  | heartbeat leader hleader hled =>
    exact hleads hleader hled .beats fun response hevent => by cases hevent
  | timeoutCheck leader hleader hled =>
    exact hs.led hleader (fun leader' => hkeys leader leader' hleader) hled
      (leader.handleAcceptTimeoutCheck_moves s.ctx _) ⟨hs.contiguous, Nat.le_refl _⟩
      fun response hevent => by cases hevent
  | deliverRequest request hrequest f hf hanswered =>
    refine ⟨?_, fun leader' hleader' => ?_⟩
    · rw [wal, hanswered.ctx]
      exact hs.contiguous
    · rw [hanswered.ctx]
      exact hs.followers leader' (hanswered.leader ▸ hleader')
  | deliverResponse response hresponse leader hleader hterm hled =>
    refine hleads hleader hled (.heeds response) fun response' hevent => ?_
    cases hevent
    exact hresponses _ response (List.mem_of_getElem? hresponse)

/-- What the leader's log and a follower's have of one term comes from one log. -/
def CoherentLogs (s : Tenure) : Prop :=
  ∀ p, Coherent LogEntry.term s.wal.log (s.followerWal p).log

/-- **A step keeps the logs coherent.** -/
theorem CoherentLogs.step (hs : s.CoherentLogs) (hlogs : s.MatchInv) (h : LogNext s s') :
    s'.CoherentLogs := by
  intro p
  cases h with
  | appends e hterm hslot hwal hlast hsame hrequests hfollowers =>
    rw [hwal, WriteAheadLog.log_append, followerWal, hfollowers]
    refine (hs p).append ?_ ?_
    · intro k e' he'
      have hle := hlogs.last k e' he'
      omega
    · intro k e' hk he' ht
      exact hlogs.own p k e' hk he' (ht.trans hterm)
  | ships hwal hlast hsame hrequests hfollowers =>
    rw [hwal, followerWal, hfollowers]
    exact hs p
  | answers q request f env hrequest hf hanswered =>
    obtain ⟨hother, hown⟩ := followerWal_of_answered hf hanswered
    rw [wal, hanswered.ctx]
    by_cases hp : p = q
    · subst hp
      rcases hown with hkept | ⟨hwrites, hwritten⟩
      · rw [hkept]
        exact hs p
      · have hbatch := hlogs.logs.batches p request hrequest
        rw [hwritten, hbatch.written]
        exact (Coherent.splice (hbatch.sameUpTo_anchor (hlogs.logs.matching p) hwrites.2)
          hbatch.prev_le (.refl _)).symm
    · rw [hother p hp]
      exact hs p

end Tenure

namespace Ordered
variable {o o' : Ordered} {l : Tenure.Label} {base floor : Nat}

/-- The invariant of the followers: their logs have no gaps and are of one making with the
leader's, no batch that is still to come ends below them, and what is answered speaks of the
leader's slots. -/
structure Placed (o : Ordered) : Prop where
  positioned : o.tenure.Positioned
  coherent : o.tenure.CoherentLogs
  copy : ∀ p, (o.tenure.followerWal p).ContiguousTo (o.tenure.followerCtx p).lastLogSlot
  below : ∀ p, o.Below p (o.tenure.followerCtx p).lastLogSlot
  answers : ∀ p, ∀ response ∈ o.tenure.responses p,
    Leader.Plausible o.tenure.ctx.lastLogSlot response
  nextRequest : ∀ p, o.nextRequest p ≤ (o.tenure.requests p).length
  nextResponse : ∀ p, o.nextResponse p ≤ (o.tenure.responses p).length

/-- What is next to be delivered stays within what has been sent. -/
theorem step_next_le (h : o.step l = some o')
    (hrequests : ∀ p, o.nextRequest p ≤ (o.tenure.requests p).length)
    (hresponses : ∀ p, o.nextResponse p ≤ (o.tenure.responses p).length) :
    (∀ p, o'.nextRequest p ≤ (o'.tenure.requests p).length) ∧
      ∀ p, o'.nextResponse p ≤ (o'.tenure.responses p).length := by
  have hnext := Tenure.step_next (step_tenure h)
  have hsent : ∀ p, (o.tenure.requests p).length ≤ (o'.tenure.requests p).length := by
    intro p
    obtain ⟨new, hnew, _⟩ := hnext.requests p
    rw [hnew, List.length_append]
    omega
  obtain ⟨tenure, htenure, hrest⟩ := Option.bind_eq_some_iff.mp h
  cases hnext with
  | deliverRequest request hrequest f hf hanswered =>
    rename_i q i env
    have hi := (List.getElem?_eq_some_iff.mp hrequest).1
    simp only at hrest
    split at hrest
    · cases Option.some.inj hrest
      refine ⟨update_le_iff.mpr ⟨Nat.le_trans hi (hsent q), fun p _ =>
        (hrequests p).trans (hsent p)⟩, fun p => ?_⟩
      rw [hanswered.responses]
      by_cases hp : p = q
      · subst hp
        rw [Function.update_self, List.length_append]
        exact (hresponses p).trans (Nat.le_add_right _ _)
      · rw [Function.update_of_ne hp]
        exact hresponses p
    · cases hrest
  | deliverResponse response hresponse leader hleader hterm hled =>
    rename_i q i env
    have hi := (List.getElem?_eq_some_iff.mp hresponse).1
    simp only at hrest
    split at hrest
    · cases Option.some.inj hrest
      refine ⟨fun p => (hrequests p).trans (hsent p), ?_⟩
      rw [hled.responses]
      exact update_le_iff.mpr ⟨hi, fun p _ => hresponses p⟩
    · cases hrest
  | clientWrite leader hleader hled | writeFlush leader hleader hled
  | heartbeat leader hleader hled | timeoutCheck leader hleader hled =>
    cases Option.some.inj hrest
    refine ⟨fun p => (hrequests p).trans (hsent p), fun p => ?_⟩
    rw [hled.responses]
    exact hresponses p

/-- Where only the leader acts, the followers keep what they have and have answered. -/
theorem Placed.of_ships (ho : o.Placed) (hs : o.Sound base floor) (h : o.step l = some o')
    (hfollowers : o'.tenure.followerCtx = o.tenure.followerCtx)
    (hresponses : o'.tenure.responses = o.tenure.responses)
    (hlast : o.tenure.ctx.lastLogSlot ≤ o'.tenure.ctx.lastLogSlot) : o'.Placed := by
  have hnext := Tenure.step_next (step_tenure h)
  obtain ⟨hrequest, hresponse⟩ := step_next_le h ho.nextRequest ho.nextResponse
  refine ⟨ho.positioned.step hs.board (hs.step h).board hnext ho.answers,
    ho.coherent.step hs.logs hnext.logNext, fun p => ?_, fun p => ?_, fun p response hmem => ?_,
    hrequest, hresponse⟩
  · rw [Tenure.followerWal, hfollowers]
    exact ho.copy p
  · rw [hfollowers]
    exact (ho.below p).step h
  · rw [hresponses] at hmem
    exact (ho.answers p response hmem).mono hlast

/-- **A follower that answers** keeps its log in place. -/
theorem Placed.of_answered (ho : o.Placed) (hs : o.Sound base floor) {p : Uuid} {i : Nat} {env : Env}
    (h : o.step (.deliverRequest p i env) = some o') {request : AcceptRequest}
    (hrequest : (o.tenure.requests p)[i]? = some request) {f : Follower}
    (hanswered : Tenure.Answered o.tenure o'.tenure p
      (f.handleAcceptRequest request (o.tenure.admittingCtx p request) env)) : o'.Placed := by
  have hnext := Tenure.step_next (step_tenure h)
  obtain ⟨hnextRequest, hnextResponse⟩ := step_next_le h ho.nextRequest ho.nextResponse
  have hi := ((step_nextRequest h).2 p i env rfl).1
  have hadmitting : (o.tenure.admittingCtx p request).wal.ContiguousTo
      (o.tenure.admittingCtx p request).lastLogSlot := ho.copy p
  obtain ⟨hcopy, hplausible, hlast⟩ := f.handleAcceptRequest_copy env
    (hs.logs.logs.batches p request (List.mem_of_getElem? hrequest)) ho.positioned.contiguous
    hadmitting ((ho.below p).1.le_lastLogSlot hs.logs) ((ho.below p).2 i request hi hrequest)
  have hctx : ∀ q, q ≠ p → o'.tenure.followerCtx q = o.tenure.followerCtx q := by
    intro q hq
    rw [hanswered.followerCtx, Function.update_of_ne hq]
  have hself : o'.tenure.followerCtx p =
      (f.handleAcceptRequest request (o.tenure.admittingCtx p request) env).2 := by
    rw [hanswered.followerCtx, Function.update_self]
  have hresponses : o'.tenure.responses p = o.tenure.responses p ++
      [(f.handleAcceptRequest request (o.tenure.admittingCtx p request) env).1] := by
    rw [hanswered.responses, Function.update_self]
  refine ⟨ho.positioned.step hs.board (hs.step h).board hnext ho.answers,
    ho.coherent.step hs.logs hnext.logNext, fun q => ?_, fun q => ?_, fun q response hmem => ?_,
    hnextRequest, hnextResponse⟩
  · by_cases hq : q = p
    · subst hq
      rw [Tenure.followerWal, hself]
      exact hcopy
    · rw [Tenure.followerWal, hctx q hq]
      exact ho.copy q
  · by_cases hq : q = p
    · subst hq
      rw [hself]
      rcases hlast with hkept | ⟨hsuccess, hwritten⟩
      · rw [hkept]
        exact (ho.below q).step h
      · -- what has been acknowledged is never asked for again
        rw [hwritten]
        refine ((hs.inOrder.step hs.held h).acked q _ ?_ hsuccess).2
        rw [hresponses]
        exact List.mem_append_right _ (List.mem_singleton_self _)
    · rw [hctx q hq]
      exact (ho.below q).step h
  · rw [hanswered.ctx]
    by_cases hq : q = p
    · subst hq
      rw [hresponses] at hmem
      rcases List.mem_append.mp hmem with hold | hnew
      · exact ho.answers q response hold
      · rw [List.mem_singleton.mp hnew]
        exact hplausible
    · rw [hanswered.responses, Function.update_of_ne hq] at hmem
      exact ho.answers q response hmem

/-- **One step keeps the followers' logs in place.** -/
theorem Placed.step (ho : o.Placed) (hs : o.Sound base floor) (h : o.step l = some o') :
    o'.Placed := by
  have hships : ∀ {a : Attempt (Leader × PaxosSharedContext)},
      Tenure.Led o.tenure o'.tenure a → o.tenure.ctx.lastLogSlot ≤ a.state.2.lastLogSlot →
      o'.Placed := by
    intro a hled hlast
    refine ho.of_ships hs h hled.followerCtx hled.responses ?_
    rw [hled.ctx]
    exact hlast
  cases Tenure.step_next (step_tenure h) with
  | clientWrite leader hleader hled => exact hships hled (Nat.le_succ _)
  | writeFlush leader hleader hled =>
    exact hships hled (Nat.le_of_eq (leader.handleWriteFlush_replicates _ _).lastLogSlot.symm)
  | heartbeat leader hleader hled =>
    exact hships hled (Nat.le_of_eq (leader.handleHeartbeatTimer_replicates _ _).lastLogSlot.symm)
  | timeoutCheck leader hleader hled => exact hships hled (Nat.le_refl _)
  | deliverRequest request hrequest f hf hanswered =>
    exact ho.of_answered hs h hrequest hanswered
  | deliverResponse response hresponse leader hleader hterm hled =>
    exact hships hled
      (Nat.le_of_eq (leader.handleAcceptResponse_replicates _ _ response).lastLogSlot.symm)

/-- Where a tenure starts with the followers' logs in place: no log of theirs is longer
than the leader's. -/
structure PlacedStart (s : Tenure) : Prop extends RefinedStart s where
  coherent : s.CoherentLogs
  copy : ∀ p, (s.followerWal p).ContiguousTo (s.followerCtx p).lastLogSlot
  shorter : ∀ p, (s.followerCtx p).lastLogSlot ≤ s.ctx.lastLogSlot
  followers : ∀ leader, s.leader = some leader → ∀ p fs, leader.scoreBoard.get? p = some fs →
    fs.Within s.ctx.lastLogSlot

theorem PlacedStart.placed {s : Tenure} (hs : PlacedStart s) : (start s).Placed where
  positioned := ⟨hs.contiguous, hs.followers⟩
  coherent := hs.coherent
  copy := hs.copy
  below p := by
    have hextends := hs.toRefinedStart.extends_of_le (hs.shorter p)
    refine ⟨hextends, fun i request _ hrequest => ?_⟩
    obtain ⟨_, hsent⟩ := hs.sent p request (List.mem_of_getElem? hrequest)
    exact hextends.le_reach hsent
  answers p response hmem := by
    rw [start, hs.responses p] at hmem
    cases hmem
  nextRequest _ := Nat.zero_le _
  nextResponse _ := Nat.zero_le _

/-- What holds in every state of the tenure. -/
theorem PlacedStart.of_reaches {s : Tenure} (hs : PlacedStart s)
    (h : Reaches Ordered.step (start s) o) :
    o.Sound 0 0 ∧ o.Placed ∧ o.tenure.ctx.committedSlot ≤ o.tenure.ctx.lastLogSlot := by
  obtain ⟨ls, hls⟩ := h.exists_exec
  obtain ⟨_, a, hruns, hr, _⟩ := hs.toRefinedStart.refines.of_exec hs.toRefinedStart.sound hls
  have hstart : s.commitLog.committed ≤ s.commitLog.log.length := by
    rw [(Tenure.commitLog_log hs.contiguous).1]
    exact hs.committed
  have hkeeps : o.Sound 0 0 ∧ o.Placed := by
    refine h.invariant (P := fun x : Ordered => x.Sound 0 0 ∧ x.Placed)
      ⟨hs.toRefinedStart.sound, hs.placed⟩ ?_
    intro x l y hx _ hstep
    exact ⟨hx.1.step hstep, hx.2.step hx.1 hstep⟩
  refine ⟨hkeeps.1, hkeeps.2, ?_⟩
  rw [← hr.committed, hr.last]
  exact (CommitLog.sound_of_runs hruns hstart).le

theorem freshOfThree_placedStart : PlacedStart freshOfThree where
  toRefinedStart := freshOfThree_refinedStart
  coherent _ := .refl _
  copy _ := WriteAheadLog.contiguousTo_new
  shorter _ := Nat.le_refl _
  followers leader hleader p fs hget := by
    cases Option.some.inj hleader
    rw [Leader.new, Candidate.new, AssocMap.get?_mapValues, AssocMap.get?_ofKeys] at hget
    split at hget
    · rw [← Option.some.inj hget]
      exact ⟨by decide, by decide, by decide, by decide⟩
    · cases hget

/-! ## Nothing is missing -/

/-- What a tenure brings to its leader: a client's write, a timer, or what a member of the
group has answered. -/
def Brings (o : Ordered) (event : PaxosEvent) : Prop :=
  match event with
  | .clientWriteRequestReceived _ | .writeFlushTimerFired | .heartbeatTimerFired
  | .acceptTimeoutCheckFired => True
  | .acceptResponseReceived response =>
    ∃ p ∈ o.tenure.ctx.peerIds, response ∈ o.tenure.responses p
  | _ => False

/-- **No handler of the leader panics**, in any state of a tenure in order: whatever its
followers answer, the anchor of the next request is in its log. -/
theorem not_panicked_of_reaches {s : Tenure} (hs : PlacedStart s)
    (h : Reaches Ordered.step (start s) o) {leader : Leader}
    (hoffice : o.tenure.leader = some leader) {event : PaxosEvent} (hevent : o.Brings event)
    (env : Env) (message : String) :
    ((PaxosState.leader leader).processEvent event o.tenure.ctx false env).result ≠
      .error (.panicked message) := by
  obtain ⟨hsound, hplaced, _⟩ := hs.of_reaches h
  have hanchored : (Serving.mk leader o.tenure.ctx [] []).Anchored :=
    ⟨hsound.board leader hoffice, hplaced.positioned.contiguous,
      hplaced.positioned.followers leader hoffice⟩
  have htended : (Serving.mk leader o.tenure.ctx [] []).Tended (event, env) := by
    unfold Serving.Tended
    cases event with
    | acceptResponseReceived response =>
      obtain ⟨p, hp, hmem⟩ := hevent
      refine ⟨?_, hplaced.answers p response hmem⟩
      rw [hsound.held.sender p response hmem]
      exact hp
    | clientWriteRequestReceived command => trivial
    | writeFlushTimerFired => trivial
    | heartbeatTimerFired => trivial
    | acceptTimeoutCheckFired => trivial
    | _ => exact False.elim hevent
  exact hanchored.not_panicked htended message

/-- The answer to the first write, once more. -/
theorem not_panicked_of_reaches_repeated :
    ∃ o leader response, exec Ordered.step (start freshOfThree) firstCommit = some o ∧
      o.tenure.leader = some leader ∧ o.tenure.responses 2 = [response] ∧ ∀ message,
        ((PaxosState.leader leader).processEvent (.acceptResponseReceived response) o.tenure.ctx
          false (.steady (Duration.seconds 4))).result ≠ .error (.panicked message) := by
  obtain ⟨o, leader, response, hrun, hoffice, hresponses, hpeers⟩ :
      ∃ o leader response, exec Ordered.step (start freshOfThree) firstCommit = some o ∧
        o.tenure.leader = some leader ∧ o.tenure.responses 2 = [response] ∧
        o.tenure.ctx.peerIds = [2, 3] := ⟨_, _, _, rfl, rfl, rfl, rfl⟩
  have hbrings : o.Brings (.acceptResponseReceived response) := by
    refine ⟨2, ?_, ?_⟩
    · rw [hpeers]
      exact List.mem_cons_self
    · rw [hresponses]
      exact List.mem_singleton_self _
  exact ⟨o, leader, response, hrun, hoffice, hresponses, not_panicked_of_reaches
    freshOfThree_placedStart (Runs.of_exec firstCommit hrun) hoffice hbrings _⟩

end Ordered
end SpannerPaxos
