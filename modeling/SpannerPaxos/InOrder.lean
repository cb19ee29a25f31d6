import SpannerPaxos.CommitQuorum
import SpannerPaxos.Ordered

/-! # What delivery in order keeps

Every batch of a leader reaches the end of its log, and the log only grows, so
the requests sent to one follower reach further and further.  In order, then, no
follower writes a batch that reaches less far than what it has acknowledged: a
lost message does no harm, only one that comes back does.
-/
namespace SpannerPaxos

open ReplicatedLog

/-- A batch of the leader's log reaches everything in it. -/
theorem Leader.Sent.le_reach {ctx : PaxosSharedContext} {minNextTs : Option DateTime}
    {request : AcceptRequest} (h : Leader.Sent ctx minNextTs request) {k : Nat} {e : LogEntry}
    (he : ctx.wal.get? k = some e) : k ≤ request.reach := by
  obtain ⟨prevLogSlot, prevLogTerm, utc, _, rfl⟩ := h
  obtain ⟨hle, _, hend⟩ :=
    Batch.reach_makeAcceptRequest ctx prevLogSlot prevLogTerm minNextTs utc
  by_cases hk : prevLogSlot < k
  · exact hend k e he hk
  · omega

namespace Tenure

/-- The leader's log goes at least as far as the slot. -/
def Extends (s : Tenure) (m : Nat) : Prop := m = 0 ∨ ∃ k e, m ≤ k ∧ s.wal.get? k = some e

theorem Extends.of_get? {s : Tenure} {m : Nat} (h : m = 0 ∨ ∃ e, s.wal.get? m = some e) :
    s.Extends m := by
  rcases h with h0 | ⟨e, he⟩
  · exact Or.inl h0
  · exact Or.inr ⟨m, e, Nat.le_refl m, he⟩

theorem Extends.step {s s' : Tenure} {m : Nat} (hm : s.Extends m) (h : LogNext s s') :
    s'.Extends m := by
  rcases hm with h0 | ⟨k, e, hle, he⟩
  · exact Or.inl h0
  · obtain ⟨e', he'⟩ := h.get?_of_get? he
    exact Or.inr ⟨k, e', hle, he'⟩

theorem Extends.le_lastLogSlot {s : Tenure} {m : Nat} (hm : s.Extends m) (hs : s.MatchInv) :
    m ≤ s.ctx.lastLogSlot := by
  rcases hm with h0 | ⟨k, e, hle, he⟩
  · omega
  · exact hle.trans (hs.last k e he)

/-- What the leader sends now reaches as far as its log. -/
theorem Extends.le_reach {s : Tenure} {m : Nat} (hm : s.Extends m)
    {minNextTs : Option DateTime} {request : AcceptRequest}
    (h : Leader.Sent s.ctx minNextTs request) : m ≤ request.reach := by
  rcases hm with h0 | ⟨k, e, hle, he⟩
  · omega
  · exact hle.trans (h.le_reach he)

/-- The requests to a follower grow by what the leader sends. -/
theorem Next.requests {s s' : Tenure} {l : Label} (h : Next s s' l) (p : Uuid) :
    ∃ new, s'.requests p = s.requests p ++ new ∧
      ∀ request ∈ new, ∃ minNextTs, Leader.Sent s.ctx minNextTs request := by
  have hled : ∀ (a : Attempt (Leader × PaxosSharedContext)) (minNextTs : Option DateTime),
      Led s s' a → Leader.Replicates s.ctx minNextTs a →
      ∃ new, s'.requests p = s.requests p ++ new ∧
        ∀ request ∈ new, ∃ minNextTs, Leader.Sent s.ctx minNextTs request := by
    intro a minNextTs hled hr
    refine ⟨_, hled.requests p, ?_⟩
    intro request hmem
    exact ⟨minNextTs, hr.sent p request (mem_sentTo.mp hmem)⟩
  cases h with
  | clientWrite leader hleader h =>
    refine ⟨[], ?_, ?_⟩
    · rw [h.append_spec.2.2.2, List.append_nil]
    · intro request hmem
      cases hmem
  | writeFlush leader hleader h => exact hled _ _ h (leader.handleWriteFlush_replicates _ _)
  | heartbeat leader hleader h => exact hled _ _ h (leader.handleHeartbeatTimer_replicates _ _)
  | timeoutCheck leader hleader h =>
    exact hled _ _ h (leader.handleAcceptTimeoutCheck_replicates _ _)
  | deliverResponse response hresponse leader hleader hterm h =>
    exact hled _ _ h (leader.handleAcceptResponse_replicates _ _ response)
  | deliverRequest request hrequest f hf hanswered =>
    refine ⟨[], ?_, ?_⟩
    · rw [hanswered.requests, List.append_nil]
    · intro request hmem
      cases hmem

/-- The requests reach further and further, and all of them reach `floor`. -/
structure Ascending (floor : Nat) (s : Tenure) : Prop where
  extends_floor : s.Extends floor
  reach : ∀ p, (s.requests p).Pairwise fun r r' => r.reach ≤ r'.reach
  floor_le : ∀ p, ∀ request ∈ s.requests p, floor ≤ request.reach

theorem Ascending.step {floor : Nat} {s s' : Tenure} {l : Label} (ha : s.Ascending floor)
    (hs : s.LogInv) (h : Next s s' l) : s'.Ascending floor := by
  refine ⟨ha.extends_floor.step h.logNext, ?_, ?_⟩
  · intro p
    obtain ⟨new, hrequests, hsent⟩ := h.requests p
    have hlate : ∀ r : AcceptRequest, r.reach = 0 ∨ (∃ e, s.wal.get? r.reach = some e) →
        ∀ r' ∈ new, r.reach ≤ r'.reach := by
      intro r hr r' hr'
      obtain ⟨minNextTs, hnew⟩ := hsent r' hr'
      exact (Extends.of_get? hr).le_reach hnew
    rw [hrequests, List.pairwise_append]
    refine ⟨ha.reach p, ?_, ?_⟩
    · refine List.pairwise_of_forall_mem_list ?_
      intro r hr r' hr'
      obtain ⟨minNextTs, hnew⟩ := hsent r hr
      exact hlate r (Batch.of_sent hnew).reach r' hr'
    · intro r hr
      exact hlate r (hs.batches p r hr).reach
  · intro p request hmem
    obtain ⟨new, hrequests, hsent⟩ := h.requests p
    rw [hrequests] at hmem
    rcases List.mem_append.mp hmem with hold | hnew
    · exact ha.floor_le p request hold
    · obtain ⟨minNextTs, hnew⟩ := hsent request hnew
      exact ha.extends_floor.le_reach hnew

end Tenure

namespace Ordered

/-- The follower is asked for no less than `m` any more. -/
def Below (o : Ordered) (p : Uuid) (m : Nat) : Prop :=
  o.tenure.Extends m ∧ ∀ i request, o.nextRequest p ≤ i →
    (o.tenure.requests p)[i]? = some request → m ≤ request.reach

/-- A delivery is at or above what comes next, and moves it past itself. -/
theorem step_nextRequest {o o' : Ordered} {l : Tenure.Label} (h : o.step l = some o') :
    (∀ p, o.nextRequest p ≤ o'.nextRequest p) ∧
      ∀ p i env, l = .deliverRequest p i env →
        o.nextRequest p ≤ i ∧ o'.nextRequest p = i + 1 := by
  obtain ⟨tenure, htenure, hrest⟩ := Option.bind_eq_some_iff.mp h
  cases l with
  | deliverRequest q i env =>
    simp only at hrest
    split at hrest
    · rename_i hi
      cases Option.some.inj hrest
      refine ⟨?_, ?_⟩
      · intro p
        show o.nextRequest p ≤ Function.update o.nextRequest q (i + 1) p
        by_cases hp : p = q
        · subst hp
          rw [Function.update_self]
          omega
        · rw [Function.update_of_ne hp]
      · intro p j env' hl
        cases hl
        exact ⟨hi, Function.update_self _ _ _⟩
    · cases hrest
  | deliverResponse q i env =>
    simp only at hrest
    split at hrest
    · cases Option.some.inj hrest
      exact ⟨fun _ => Nat.le_refl _, fun _ _ _ hl => by cases hl⟩
    · cases hrest
  | _ =>
    cases Option.some.inj hrest
    exact ⟨fun _ => Nat.le_refl _, fun _ _ _ hl => by cases hl⟩

theorem Below.step {o o' : Ordered} {l : Tenure.Label} {p : Uuid} {m : Nat} (hm : o.Below p m)
    (h : o.step l = some o') : o'.Below p m := by
  have hnext := Tenure.step_next (step_tenure h)
  refine ⟨hm.1.step hnext.logNext, ?_⟩
  intro i request hi hrequest
  have hle := (step_nextRequest h).1 p
  obtain ⟨new, hrequests, hsent⟩ := hnext.requests p
  rw [hrequests] at hrequest
  by_cases hold : i < (o.tenure.requests p).length
  · rw [List.getElem?_append_left hold] at hrequest
    exact hm.2 i request (by omega) hrequest
  · rw [List.getElem?_append_right (by omega)] at hrequest
    obtain ⟨minNextTs, hnew⟩ := hsent request (List.mem_of_getElem? hrequest)
    exact hm.1.le_reach hnew

/-- The invariant of delivery in order: the requests reach further and further,
and no follower is asked for less than what is recorded for it or what it has
acknowledged, which reaches `floor`. -/
structure InOrder (floor : Nat) (o : Ordered) : Prop where
  ascending : o.tenure.Ascending floor
  recorded : ∀ p m, o.tenure.matchSlot? p = some m → o.Below p m
  acked : ∀ p, ∀ response ∈ o.tenure.responses p, response.success = true →
    floor ≤ response.lastWrittenSlot ∧ o.Below p response.lastWrittenSlot

/-- Where all requests are made from the leader's log as it stands, and nothing has
been answered. -/
theorem InOrder.start {floor : Nat} {o : Ordered} (hfloor : o.tenure.Extends floor)
    (hsent : ∀ p, ∀ request ∈ o.tenure.requests p,
      ∃ minNextTs, Leader.Sent o.tenure.ctx minNextTs request)
    (hrecorded : ∀ p m, o.tenure.matchSlot? p = some m → o.tenure.Extends m)
    (hresponses : ∀ p, o.tenure.responses p = []) : o.InOrder floor := by
  have hreach : ∀ m, o.tenure.Extends m → ∀ p, ∀ request ∈ o.tenure.requests p,
      m ≤ request.reach := by
    intro m hm p request hmem
    obtain ⟨minNextTs, hnew⟩ := hsent p request hmem
    exact hm.le_reach hnew
  refine ⟨⟨hfloor, ?_, hreach floor hfloor⟩, ?_, ?_⟩
  · intro p
    refine List.pairwise_of_forall_mem_list ?_
    intro r hr
    obtain ⟨minNextTs, hnew⟩ := hsent p r hr
    exact hreach _ (.of_get? (Batch.of_sent hnew).reach) p
  · intro p m hm
    refine ⟨hrecorded p m hm, ?_⟩
    intro i request _ hrequest
    exact hreach m (hrecorded p m hm) p request (List.mem_of_getElem? hrequest)
  · intro p response hmem
    rw [hresponses p] at hmem
    cases hmem

/-- **In order, everything acknowledged is kept.** -/
theorem InOrder.keepsAcked {floor : Nat} {o o' : Ordered} {l : Tenure.Label} (ho : o.InOrder floor)
    (hlogs : o.tenure.MatchInv) (h : o.step l = some o') : o.tenure.KeepsAcked l := by
  cases l with
  | clientWrite command env =>
    refine ⟨hlogs.freshSlot, ?_⟩
    intro p m hm
    exact (ho.recorded p m hm).1.le_lastLogSlot hlogs
  | deliverRequest p i env =>
    intro request hrequest _
    have hi := ((step_nextRequest h).2 p i env rfl).1
    refine ⟨?_, ?_⟩
    · intro m hm
      exact (ho.recorded p m hm).2 i request hi hrequest
    · intro response hmem hsuccess
      exact (ho.acked p response hmem hsuccess).2.2 i request hi hrequest
  | _ => trivial

theorem InOrder.step {floor base : Nat} {o o' : Ordered} {l : Tenure.Label} (ho : o.InOrder floor)
    (hheld : o.tenure.HeldInv base) (h : o.step l = some o') : o'.InOrder floor := by
  have hnext := Tenure.step_next (step_tenure h)
  have hascending := ho.ascending.step hheld.logs hnext
  refine ⟨hascending, ?_, ?_⟩
  · intro p m hm
    rcases hnext.matchSlot hm with hold | ⟨q, response, hmem, hp, hsuccess, hslot⟩
    · exact (ho.recorded p m hold).step h
    · have hq : p = q := hp.trans (hheld.sender q response hmem)
      subst hq
      rw [hslot]
      exact ((ho.acked p response hmem hsuccess).2).step h
  · intro p response hmem hsuccess
    rcases hnext.mem_responses hmem with hold | ⟨i, env, request, f, rfl, hrequest, hf, _, rfl⟩
    · obtain ⟨hfloor, hbelow⟩ := ho.acked p response hold hsuccess
      exact ⟨hfloor, hbelow.step h⟩
    · obtain ⟨_, _, ⟨_, _, hno⟩ | ⟨_, _, _, hreach⟩⟩ :=
        o.tenure.answer_cases request env hf
      · rw [hno] at hsuccess
        cases hsuccess
      · have hmem' := List.mem_of_getElem? hrequest
        have hbatch := hheld.logs.batches p request hmem'
        rw [hreach]
        refine ⟨ho.ascending.floor_le p request hmem',
          (Tenure.Extends.of_get? hbatch.reach).step hnext.logNext, ?_⟩
        -- what comes behind the request reaches at least as far
        intro j later hj hlater
        rw [((step_nextRequest h).2 p i env rfl).2] at hj
        obtain ⟨new, hrequests, _⟩ := hnext.requests p
        have hrequest' : (o'.tenure.requests p)[i]? = some request := by
          rw [hrequests, List.getElem?_append_left (List.getElem?_eq_some_iff.mp hrequest).1]
          exact hrequest
        obtain ⟨hi, rfl⟩ := List.getElem?_eq_some_iff.mp hrequest'
        obtain ⟨hj', rfl⟩ := List.getElem?_eq_some_iff.mp hlater
        exact List.pairwise_iff_getElem.mp (hascending.reach p) i j hi hj' (by omega)

/-- What holds of a tenure with its messages in order, whose match slots above
`base` are worth what they say. -/
structure Sound (base floor : Nat) (o : Ordered) : Prop where
  logs : o.tenure.MatchInv
  held : o.tenure.HeldInv base
  inOrder : o.InOrder floor
  board : o.tenure.BoardOfPeers
  harmless : base ≤ o.tenure.ctx.committedSlot ∨
    o.tenure.ctx.getQuorumSize ≤ 2 ∧ base ≤ floor

theorem Sound.step {base floor : Nat} {o o' : Ordered} {l : Tenure.Label}
    (ho : o.Sound base floor) (h : o.step l = some o') : o'.Sound base floor := by
  have hnext := Tenure.step_next (step_tenure h)
  refine ⟨ho.logs.step hnext.logNext, ?_, ho.inOrder.step ho.held h, ho.board.step hnext, ?_⟩
  · exact ho.held.step (ho.inOrder.keepsAcked ho.logs h) (step_tenure h)
  · rcases ho.harmless with hcommitted | hsmall
    · exact Or.inl (hcommitted.trans hnext.committedSlot_le)
    · refine Or.inr ?_
      unfold PaxosSharedContext.getQuorumSize
      rw [hnext.logNext.sameMember.peerIds]
      exact hsmall

/-- **In order, every commit is held by a quorum.** -/
theorem Sound.commitHeld {base floor : Nat} {o o' : Ordered} {l : Tenure.Label}
    (ho : o.Sound base floor) (h : o.step l = some o')
    (hraise : o.tenure.ctx.committedSlot < o'.tenure.ctx.committedSlot) :
    o'.tenure.CommitHeld := by
  refine ho.held.commitHeld ho.board ?_ (Tenure.step_next (step_tenure h)) hraise
  rcases ho.harmless with hcommitted | ⟨hsmall, hfloor⟩
  · exact Or.inl hcommitted
  · refine Or.inr ⟨hsmall, ?_⟩
    intro p response hmem hsuccess
    exact hfloor.trans (ho.inOrder.acked p response hmem hsuccess).1

end Ordered
end SpannerPaxos
