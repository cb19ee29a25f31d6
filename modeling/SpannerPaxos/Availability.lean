import SpannerPaxos.CommitPoint
import SpannerPaxos.Pursuit

/-! # A quorum is enough

Whatever has been lost or is under way, a leader in office can commit a client's write as
long as a quorum of the group follows it.  The write is appended and flushed; every follower
of the quorum is pursued until it has written the leader's log; and the acknowledgements are
delivered once the commit wait is over.
-/
namespace SpannerPaxos

open Tenure (sentTo)

/-! ## A flush -/

namespace Leader
variable {self : Leader} {ctx : PaxosSharedContext} {minNextTs : Option DateTime} {env : Env}

/-- **A flush reaches every follower**, where all anchors are held and all members can be
reached. -/
theorem dispatchLoop_sends (memberIds : List Uuid) (hnodup : memberIds.Nodup) (self : Leader)
    (env : Env) (hreach : ∀ p, env.reachable p = true)
    (h : ∀ p ∈ memberIds, ∃ fs, self.scoreBoard.get? p = some fs ∧ AnchorHeld ctx fs) :
    (dispatchLoop ctx minNextTs self memberIds env).fault = none ∧
      ∀ p ∈ memberIds, sentTo p (dispatchLoop ctx minNextTs self memberIds env).effects ≠ [] := by
  induction memberIds generalizing self env with
  | nil => exact ⟨rfl, fun p hp => absurd hp List.not_mem_nil⟩
  | cons memberId memberIds ih =>
    obtain ⟨hhead, htail⟩ := List.nodup_cons.mp hnodup
    obtain ⟨fs, hget, hanchor⟩ := h memberId List.mem_cons_self
    obtain ⟨prevLogTerm, hterm⟩ := anchorHeld_iff.mp hanchor
    have hfirst := dispatchAcceptRequestToFollower_eq minNextTs hget hterm (hreach memberId) rfl
    have hrest : ∀ p ∈ memberIds, ∃ fs,
        (self.dispatchAcceptRequestToFollower memberId ctx minNextTs env).state.scoreBoard.get? p =
          some fs ∧ AnchorHeld ctx fs := by
      intro p hp
      obtain ⟨fs', hget', hanchor'⟩ := h p (List.mem_cons_of_mem _ hp)
      have hne : p ≠ memberId := fun heq => hhead (heq ▸ hp)
      refine ⟨fs', ?_, hanchor'⟩
      rw [(dispatchAcceptRequestToFollower_other ctx minNextTs self env hne).1]
      exact hget'
    obtain ⟨hfault, hsent⟩ := ih htail
      (self.dispatchAcceptRequestToFollower memberId ctx minNextTs env).state (env.skip 1) hreach
      hrest
    rw [dispatchLoop, Attempt.andThen, congrArg Attempt.fault hfirst]
    refine ⟨hfault, fun p hp => ?_⟩
    show sentTo p (_ ++ _) ≠ []
    rw [Tenure.sentTo_append]
    rcases List.mem_cons.mp hp with rfl | hp
    · rw [hfirst, Tenure.sentTo_self]
      exact List.cons_ne_nil _ _
    · exact List.append_ne_nil_of_right_ne_nil _ (hsent p hp)

/-- A write that is pending is flushed to everyone. -/
theorem handleWriteFlush_sends (hpending : self.pendingWriteCount ≠ 0)
    (hreach : ∀ p, env.reachable p = true)
    (h : ∀ p fs, self.scoreBoard.get? p = some fs → AnchorHeld ctx fs) :
    (self.handleWriteFlush ctx env).fault = none ∧
      ∀ p fs, self.scoreBoard.get? p = some fs → ∃ fs' request,
        (self.handleWriteFlush ctx env).state.1.scoreBoard.get? p = some fs' ∧
        sentTo p (self.handleWriteFlush ctx env).effects = [request] ∧
        Dispatched ctx none fs fs' [request] := by
  obtain ⟨hfault, hsent⟩ := @dispatchLoop_sends ctx none self.scoreBoard.keys
    self.scoreBoard.keys_nodup self env hreach fun p hp => by
      obtain ⟨fs, hget⟩ := AssocMap.mem_keys_iff.mp hp
      exact ⟨fs, hget, h p fs hget⟩
  have hflush : self.handleWriteFlush ctx env =
      ((self.dispatchAcceptRequest ctx none env).andThen fun self =>
        .ok { self with pendingWriteCount := 0 }).map fun self => (self, ctx) := by
    unfold handleWriteFlush
    rw [if_neg hpending]
  change (self.dispatchAcceptRequest ctx none env).fault = none at hfault
  have heffects : (self.handleWriteFlush ctx env).effects =
      (self.dispatchAcceptRequest ctx none env).effects := by
    rw [hflush, Attempt.map_effects, Attempt.andThen, hfault]
    exact List.append_nil _
  refine ⟨?_, fun p fs hget => ?_⟩
  · rw [hflush, Attempt.map, Attempt.andThen, hfault]
    rfl
  · obtain ⟨fs', hget', hdispatched⟩ := self.dispatchThen_dispatched ctx env none
      (fun l => { l with pendingWriteCount := 0 }) (fun _ => rfl) hget
    have hne := hsent p (AssocMap.mem_keys_iff.mpr ⟨fs, hget⟩)
    change sentTo p (self.dispatchAcceptRequest ctx none env).effects ≠ [] at hne
    have hsame : sentTo p (((self.dispatchAcceptRequest ctx none env).andThen fun self =>
        .ok { self with pendingWriteCount := 0 }).effects) =
          sentTo p (self.handleWriteFlush ctx env).effects := by
      rw [hflush, Attempt.map_effects]
    rw [hsame] at hdispatched
    rw [← heffects] at hne
    cases hall : sentTo p (self.handleWriteFlush ctx env).effects with
    | nil => exact absurd hall hne
    | cons request rest =>
      rw [hall] at hdispatched
      cases hdispatched with
      | sends prevLogTerm utc hanchor hrequest =>
        refine ⟨_, request, ?_, rfl, .sends prevLogTerm utc hanchor hrequest⟩
        rw [hflush, Attempt.map_state]
        exact hget'

/-! ## An acknowledgement -/

/-- The replies to writes whose commit wait is over. -/
theorem replyCommitted_fault (writes : List (DateTime × PaxosCommand ClientWriteRequest))
    (utc : DateTime) (h : ∀ w ∈ writes, TrueTime.commitWait w.1 utc = true) :
    (replyCommitted writes (.steady utc)).fault = none := by
  induction writes with
  | nil => rfl
  | cons w writes ih =>
    obtain ⟨hhead, htail⟩ := List.forall_mem_cons.mp h
    obtain ⟨timestamp, cmd⟩ := w
    change TrueTime.commitWait timestamp ((Env.steady utc).clock 0) = true at hhead
    rw [replyCommitted, if_pos hhead]
    exact ih htail

/-- Some day every commit wait is over. -/
theorem exists_commitWait (now : DateTime)
    (writes : List (DateTime × PaxosCommand ClientWriteRequest)) :
    ∃ later, now ≤ later ∧ ∀ w ∈ writes, TrueTime.commitWait w.1 later = true := by
  induction writes with
  | nil => exact ⟨now, le_refl now, fun w hw => absurd hw List.not_mem_nil⟩
  | cons w writes ih =>
    obtain ⟨later, hle, hlater⟩ := ih
    have hover : ∀ t u v : Int, t < u - 7 * 1000000 → t < max u v - 7 * 1000000 := by omega
    have hsoon : ∀ t u : Int, t < max u (t + 7 * 1000000 + 1) - 7 * 1000000 := by omega
    refine ⟨max later (w.1 + 7 * 1000000 + 1), le_max_of_le_left hle, fun w' hw' => ?_⟩
    rw [TrueTime.commitWait, TrueTime.after_iff]
    rcases List.mem_cons.mp hw' with rfl | hw'
    · exact hsoon w'.1 later
    · exact hover w'.1 later _ (TrueTime.after_iff.mp (hlater w' hw'))

/-- What a quorum has matched, the quorum slot reaches. -/
theorem le_minQuorumSlot_of_quorum {Q : List Uuid} (hkeys : self.scoreBoard.keys = ctx.peerIds)
    (hnodup : Q.Nodup) (hsub : ∀ p ∈ Q, p ∈ ctx.peerIds)
    (hquorum : ctx.getQuorumSize ≤ Q.length + 1)
    (h : ∀ p ∈ Q, self.matchSlot? p = some ctx.lastLogSlot) :
    ctx.lastLogSlot ≤ self.minQuorumSlot ctx := by
  rw [le_minQuorumSlot_iff, AssocMap.countP_values_eq self.scoreBoard
    (q := fun p => decide (ctx.lastLogSlot ≤ (self.matchSlot? p).getD 0)) fun p fs hfs => by
      rw [matchSlot?, hfs]
      rfl]
  refine ⟨Nat.le_refl _, ?_⟩
  have hall : Q.countP (fun p => decide (ctx.lastLogSlot ≤ (self.matchSlot? p).getD 0)) =
      Q.length := by
    rw [List.countP_eq_length]
    intro p hp
    rw [h p hp]
    exact decide_eq_true (Nat.le_refl _)
  have hcount := (List.subperm_of_subset hnodup fun p hp => hkeys ▸ hsub p hp).countP_le
    (fun p => decide (ctx.lastLogSlot ≤ (self.matchSlot? p).getD 0))
  omega

/-- The commit step only takes writes out, -/
theorem advanceCommit_inFlightWrites {slot : Nat} {w : DateTime × PaxosCommand ClientWriteRequest}
    (h : (self.advanceCommit ctx env).state.1.inFlightWrites.get? slot = some w) :
    self.inFlightWrites.get? slot = some w := by
  unfold advanceCommit at h
  dsimp only at h
  split at h
  · change (self.inFlightWrites.filterKeys _).get? slot = some w at h
    rw [OrderedMap.get?_filterKeys, Option.ite_none_right_eq_some] at h
    exact h.2
  · exact h

/-- and gets them answered once their commit waits are over. -/
theorem advanceCommit_fault {utc : DateTime}
    (hover : ∀ slot w, self.inFlightWrites.get? slot = some w →
      TrueTime.commitWait w.1 utc = true) :
    (self.advanceCommit ctx (.steady utc)).fault = none := by
  unfold advanceCommit
  dsimp only
  split
  · refine replyCommitted_fault _ utc fun w hw => ?_
    obtain ⟨slot, hslot⟩ := OrderedMap.mem_values_iff.mp hw
    rw [OrderedMap.get?_filterKeys, Option.ite_none_right_eq_some] at hslot
    exact hover slot w hslot.2
  · rfl

/-- What the handler does with an acknowledgement of more than was matched. -/
theorem handleAcceptResponse_eq_advanceCommit {response : AcceptResponse} {fs : FollowerState}
    (hterm : ctx.term ≤ response.term) (hsuccess : response.success = true)
    (hquorum : 2 ≤ ctx.getQuorumSize)
    (hget : self.scoreBoard.get? response.memberId = some fs)
    (hnew : fs.logPosition.matchSlot < response.lastWrittenSlot) :
    self.handleAcceptResponse response ctx env =
      ((self.recordContact response).setFollower response.memberId
        (fs.recordMatch response.lastWrittenSlot)).advanceCommit
          ((self.recordContact response).renewLease ctx) env := by
  have hboard : (self.recordContact response).scoreBoard.get? response.memberId = some fs := hget
  unfold handleAcceptResponse
  simp only [if_neg (Nat.not_lt.mpr hterm), if_neg (Nat.not_lt.mpr hquorum), hsuccess, hboard,
    if_pos hnew]
  rfl

/-- **A first acknowledgement**, where no write in flight has a commit wait left. -/
theorem handleAcceptResponse_acknowledged {response : AcceptResponse} {fs : FollowerState}
    {utc : DateTime} (hterm : ctx.term ≤ response.term) (hsuccess : response.success = true)
    (hquorum : 2 ≤ ctx.getQuorumSize)
    (hget : self.scoreBoard.get? response.memberId = some fs)
    (hnew : fs.logPosition.matchSlot < response.lastWrittenSlot)
    (hover : ∀ slot w, self.inFlightWrites.get? slot = some w →
      TrueTime.commitWait w.1 utc = true) :
    let a := self.handleAcceptResponse response ctx (.steady utc)
    a.fault = none ∧ (∀ q, sentTo q a.effects = []) ∧
      (∀ q, a.state.1.matchSlot? q =
        if q = response.memberId then some response.lastWrittenSlot else self.matchSlot? q) ∧
      a.state.1.scoreBoard.keys = self.scoreBoard.keys ∧
      (∀ slot w, a.state.1.inFlightWrites.get? slot = some w →
        self.inFlightWrites.get? slot = some w) ∧
      a.state.1.minQuorumSlot a.state.2 ≤ a.state.2.committedSlot := by
  dsimp only
  rw [handleAcceptResponse_eq_advanceCommit hterm hsuccess hquorum hget hnew]
  generalize hl : (self.recordContact response).setFollower response.memberId
    (fs.recordMatch response.lastWrittenSlot) = l
  generalize (self.recordContact response).renewLease ctx = ctx'
  have hslots : ∀ q, l.matchSlot? q =
      if q = response.memberId then some response.lastWrittenSlot else self.matchSlot? q := by
    intro q
    rw [← hl, matchSlot?_setFollower]
    rfl
  have hkeys : l.scoreBoard.keys = self.scoreBoard.keys := by
    rw [← hl]
    exact AssocMap.keys_insert_of_mem _ (AssocMap.mem_keys_iff.mpr ⟨fs, hget⟩) _
  have hwrites : l.inFlightWrites = self.inFlightWrites := by
    rw [← hl]
    rfl
  have hboard := l.advanceCommit_scoreBoard ctx' (.steady utc)
  refine ⟨advanceCommit_fault (hwrites ▸ hover), fun q => l.sentTo_advanceCommit ctx' _ q,
    fun q => ?_, ?_, fun slot w hw => ?_, ?_⟩
  · rw [matchSlot?, hboard]
    exact hslots q
  · rw [hboard, hkeys]
  · rw [← hwrites]
    exact advanceCommit_inFlightWrites hw
  · rw [advanceCommit_committedSlot, minQuorumSlot_congr hboard
      (advanceCommit_sameMember l ctx' _).peerIds (l.advanceCommit_keeps ctx' _).2.1]
    exact le_max_right _ _

end Leader

/-- The member follows the leader in its term, and its lease runs. -/
structure Tenure.Follows (s : Tenure) (now : DateTime) (p : Uuid) : Prop where
  term : (s.followerCtx p).term = s.ctx.term
  leader : (s.follower p).currentLeaderId = some s.ctx.memberId
  lease : (s.followerCtx p).isLeaderLeaseExpired now = false

namespace Ordered
variable {o o' : Ordered} {p : Uuid} {now later : DateTime} {leader : Leader} {Q : List Uuid}
  {response : AcceptResponse}

/-! ## The acknowledgements -/

/-- The leader has heard from these followers that they have its log. -/
structure Heard (Q : List Uuid) (o o' : Ordered) (leader leader' : Leader) : Prop where
  office : o'.tenure.leader = some leader'
  wal : o'.tenure.wal = o.tenure.wal
  lastLogSlot : o'.tenure.ctx.lastLogSlot = o.tenure.ctx.lastLogSlot
  same : o.tenure.ctx.SameMember o'.tenure.ctx
  copies : o'.tenure.followerCtx = o.tenure.followerCtx
  links : ∀ q, q ∉ Q → o'.link q = o.link q
  matchSlot : ∀ q, leader'.matchSlot? q =
    if q ∈ Q then some o.tenure.ctx.lastLogSlot else leader.matchSlot? q
  keys : leader'.scoreBoard.keys = leader.scoreBoard.keys
  inFlightWrites : ∀ slot w, leader'.inFlightWrites.get? slot = some w →
    leader.inFlightWrites.get? slot = some w

/-- An answer of one of these followers is delivered, and the leader reads `utc`. -/
def Hears (Q : List Uuid) (utc : DateTime) (l : Tenure.Label) : Prop :=
  ∃ p ∈ Q, ∃ i, l = .deliverResponse p i (.steady utc)

/-- The commit point is where the match slots have it. -/
def Committed (o : Ordered) (leader : Leader) : Prop :=
  leader.minQuorumSlot o.tenure.ctx ≤ o.tenure.ctx.committedSlot

/-- One follower is heard, and then others. -/
theorem Heard.cons {mid : Ordered} {leader₁ leader' : Leader} (h : Heard [p] o mid leader leader₁)
    (h' : Heard Q mid o' leader₁ leader') : Heard (p :: Q) o o' leader leader' := by
  refine ⟨h'.office, h'.wal.trans h.wal, h'.lastLogSlot.trans h.lastLogSlot, h.same.trans h'.same,
    h'.copies.trans h.copies, fun q hq => ?_, fun q => ?_, h'.keys.trans h.keys,
    fun slot w hw => h.inFlightWrites slot w (h'.inFlightWrites slot w hw)⟩
  · rw [List.mem_cons, not_or] at hq
    rw [h'.links q hq.2]
    exact h.links q fun hmem => hq.1 (List.mem_singleton.mp hmem)
  · rw [h'.matchSlot, h.matchSlot, h.lastLogSlot]
    by_cases hp : q = p
    · simp [hp]
    · simp [hp]

/-- Once a quorum has been heard, the quorum slot is at the end of the log. -/
theorem Heard.le_minQuorumSlot {leader' : Leader} {base floor : Nat}
    (h : Heard Q o o' leader leader') (hs : o'.Sound base floor) (hnodup : Q.Nodup)
    (hsub : ∀ p ∈ Q, p ∈ o'.tenure.ctx.peerIds)
    (hquorum : o'.tenure.ctx.getQuorumSize ≤ Q.length + 1) :
    o'.tenure.ctx.lastLogSlot ≤ leader'.minQuorumSlot o'.tenure.ctx := by
  refine Leader.le_minQuorumSlot_of_quorum (hs.board leader' h.office) hnodup hsub hquorum ?_
  intro p hp
  rw [h.matchSlot, if_pos hp, h.lastLogSlot]

/-- The acknowledgement of a follower is delivered once the commit waits are over. -/
theorem Landed.acknowledge (h : o.Landed p response) (hoffice : o.tenure.leader = some leader)
    (hquorum : 2 ≤ o.tenure.ctx.getQuorumSize)
    (hnew : ∃ m, leader.matchSlot? p = some m ∧ m < o.tenure.ctx.lastLogSlot)
    (hover : ∀ slot w, leader.inFlightWrites.get? slot = some w →
      TrueTime.commitWait w.1 later = true) :
    ∃ o' leader', o.step
        (.deliverResponse p ((o.tenure.responses p).length - 1) (.steady later)) = some o' ∧
      Heard [p] o o' leader leader' ∧ o'.Committed leader' := by
  obtain ⟨m, hm, hlt⟩ := hnew
  obtain ⟨fs, hget, rfl⟩ := Option.map_eq_some_iff.mp hm
  rw [← h.sender] at hget
  have hpending := h.nextResponse
  have hnewest := h.newest
  rw [List.getLast?_eq_getElem?] at hnewest
  obtain ⟨hfault, hsent, hslots, hkeys, hwrites, hcommitted⟩ :=
    @Leader.handleAcceptResponse_acknowledged leader o.tenure.ctx response fs later
      (Nat.le_of_eq h.term.symm) h.success hquorum hget (by rw [h.reach]; exact hlt) hover
  have hreplicates := leader.handleAcceptResponse_replicates o.tenure.ctx (.steady later) response
  refine ⟨_, (leader.handleAcceptResponse response o.tenure.ctx (.steady later)).state.1,
    step_deliverResponse hnewest hoffice (Nat.le_of_eq h.term) (by omega) hfault, ⟨rfl,
    hreplicates.wal, hreplicates.lastLogSlot, hreplicates.same, rfl, fun q hq => ?_, fun q => ?_,
    hkeys, hwrites⟩, hcommitted⟩
  · have hne : q ≠ p := List.ne_of_not_mem_cons hq
    unfold link Tenure.stay
    simp only [hsent, List.append_nil, Function.update_of_ne hne]
  · rw [hslots, h.sender, h.reach]
    simp only [List.mem_singleton]

/-- **All acknowledgements are delivered**, and the commit point follows the last of them. -/
theorem reaches_heard (hnodup : Q.Nodup) (hoffice : o.tenure.leader = some leader)
    (hquorum : 2 ≤ o.tenure.ctx.getQuorumSize)
    (hlanded : ∀ p ∈ Q, ∃ response, o.Landed p response)
    (hnew : ∀ p ∈ Q, ∃ m, leader.matchSlot? p = some m ∧ m < o.tenure.ctx.lastLogSlot)
    (hover : ∀ slot w, leader.inFlightWrites.get? slot = some w →
      TrueTime.commitWait w.1 later = true)
    (hbefore : Q = [] → o.Committed leader) :
    ∃ o' leader', Runs Ordered.step (fun _ l => Hears Q later l) o o' ∧
      Heard Q o o' leader leader' ∧ o'.Committed leader' := by
  induction Q generalizing o leader with
  | nil =>
    refine ⟨o, leader, .refl o, ⟨hoffice, rfl, rfl, .refl _, rfl, fun _ _ => rfl, fun q => ?_, rfl,
      fun _ _ hw => hw⟩, hbefore rfl⟩
    rw [if_neg List.not_mem_nil]
  | cons p Q ih =>
    obtain ⟨hp, hnodup⟩ := List.nodup_cons.mp hnodup
    obtain ⟨response, hfirst⟩ := hlanded p List.mem_cons_self
    obtain ⟨mid, leader₁, hstep, hheard, hcommitted⟩ :=
      hfirst.acknowledge hoffice hquorum (hnew p List.mem_cons_self) hover
    have hne : ∀ q ∈ Q, q ∉ [p] := fun q hq hmem => hp (List.mem_singleton.mp hmem ▸ hq)
    obtain ⟨o', leader', hrest, hheard', hcommitted'⟩ := ih (o := mid) hnodup hheard.office
      (by rw [PaxosSharedContext.getQuorumSize, hheard.same.peerIds]; exact hquorum)
      (fun q hq => by
        obtain ⟨response', hlanded'⟩ := hlanded q (List.mem_cons_of_mem _ hq)
        exact ⟨response', hlanded'.congr (hheard.links q (hne q hq)) hheard.wal hheard.lastLogSlot
          hheard.same⟩)
      (fun q hq => by
        obtain ⟨m, hm, hlt⟩ := hnew q (List.mem_cons_of_mem _ hq)
        refine ⟨m, ?_, ?_⟩
        · rw [hheard.matchSlot, if_neg (hne q hq)]
          exact hm
        · rw [hheard.lastLogSlot]
          exact hlt)
      (fun slot w hw => hover slot w (hheard.inFlightWrites slot w hw)) fun _ => hcommitted
    have hhead : Hears (p :: Q) later
        (.deliverResponse p ((o.tenure.responses p).length - 1) (.steady later)) :=
      ⟨p, List.mem_cons_self, _, rfl⟩
    have htail : ∀ l, Hears Q later l → Hears (p :: Q) later l := by
      rintro l ⟨q, hq, hl⟩
      exact ⟨q, List.mem_cons_of_mem _ hq, hl⟩
    exact ⟨o', leader', .head _ hhead hstep (hrest.mono fun _ => htail), hheard.cons hheard',
      hcommitted'⟩

/-! ## A write and its commit -/

/-- What a handler of the leader gets done. -/
theorem step_stay {l : Tenure.Label} {a : Attempt (Leader × PaxosSharedContext)}
    (h : o.tenure.step l = some (o.tenure.stay a))
    (hl : (∃ command env, l = .clientWrite command env) ∨ ∃ env, l = .writeFlush env) :
    o.step l = some { o with tenure := o.tenure.stay a } := by
  unfold step
  rw [h]
  rcases hl with ⟨command, env, rfl⟩ | ⟨env, rfl⟩
  · rfl
  · rfl

/-- **A flush pursues every member that follows**, if a write is pending. -/
theorem step_flushed {base floor : Nat} (ho : o.Placed) (hs : o.Sound base floor)
    (hoffice : o.tenure.leader = some leader) (hpending : leader.pendingWriteCount ≠ 0)
    (now : DateTime) :
    ∃ o' leader', o.step (.writeFlush (.steady now)) = some o' ∧
      o'.tenure.leader = some leader' ∧ o'.tenure.ctx = o.tenure.ctx ∧
      (∀ q, leader'.matchSlot? q = leader.matchSlot? q) ∧
      ∀ p ∈ o.tenure.ctx.peerIds, o.tenure.Follows now p →
        ∃ request, o'.Pursued now p leader' request := by
  have hanchors : ∀ p fs, leader.scoreBoard.get? p = some fs → AnchorHeld o.tenure.ctx fs :=
    fun p fs hget => Leader.anchorHeld_of_le ho.positioned.contiguous
      (ho.positioned.followers leader hoffice p fs hget).prevLogSlot_le
  obtain ⟨hfault, hsends⟩ := @Leader.handleWriteFlush_sends leader o.tenure.ctx (.steady now)
    hpending (fun _ => rfl) hanchors
  have hevent : o.tenure.leaderEvent .writeFlushTimerFired (.steady now) =
      some (o.tenure.stay (leader.handleWriteFlush o.tenure.ctx (.steady now))) :=
    Tenure.leaderEvent_eq hoffice (fun term hget => by cases hget) rfl hfault
  have hstep := step_stay (l := .writeFlush (.steady now)) hevent (Or.inr ⟨_, rfl⟩)
  have hctx := leader.handleWriteFlush_ctx o.tenure.ctx (.steady now)
  have hstanding := leader.handleWriteFlush_standing o.tenure.ctx (.steady now)
  generalize leader.handleWriteFlush o.tenure.ctx (.steady now) = a at hsends hstep hctx hstanding
  refine ⟨_, a.state.1, hstep, rfl, hctx, hstanding.matchSlot, fun p hp hfollows => ?_⟩
  obtain ⟨fs, hget⟩ := AssocMap.mem_keys_iff.mp (by rw [hs.board leader hoffice]; exact hp)
  obtain ⟨fs', request, hget', hsent, hdispatched⟩ := hsends p fs hget
  have hid := hs.held.ids p
  have hwithin := ho.positioned.followers leader hoffice p fs hget
  have hleading : Exchange.Leading o.tenure.ctx (o.tenure.follower p) (o.tenure.followerCtx p) :=
    ⟨hfollows.term, hfollows.leader, hid.symm ▸ hp,
      .of_coherent ho.positioned.contiguous (ho.copy p) (ho.coherent p)⟩
  rw [← hid] at hget'
  obtain ⟨hinv, _, _⟩ := Exchange.inv_of_dispatched hleading hget' hwithin.next_pos
    hwithin.next_le hdispatched rfl
  refine ⟨request, rfl, hid, hfollows.lease, ?_, ?_, ho.nextResponse p, ?_⟩
  · show (o.tenure.requests p ++ sentTo p a.effects).getLast? = _
    rw [hsent, List.getLast?_concat]
  · show o.nextRequest p < (o.tenure.requests p ++ sentTo p a.effects).length
    rw [hsent, List.length_append]
    exact Nat.lt_succ_of_le (ho.nextRequest p)
  · show Exchange.Inv a.state.2.wal
      ⟨a.state.1, a.state.2, o.tenure.follower p, o.tenure.followerCtx p, request⟩
    rw [hctx]
    exact hinv

/-- Every member of the group has its match slot in the leader's log. -/
theorem Placed.exists_matchSlot {base floor : Nat} (ho : o.Placed) (hs : o.Sound base floor)
    (hoffice : o.tenure.leader = some leader) (hp : p ∈ o.tenure.ctx.peerIds) :
    ∃ m, leader.matchSlot? p = some m ∧ m ≤ o.tenure.ctx.lastLogSlot := by
  obtain ⟨fs, hget⟩ := AssocMap.mem_keys_iff.mp (by rw [hs.board leader hoffice]; exact hp)
  refine ⟨fs.logPosition.matchSlot, ?_, (ho.positioned.followers leader hoffice p fs hget).match_le⟩
  rw [Leader.matchSlot?, hget]
  rfl

/-- The group is the same in every state. -/
theorem sameMember_of_reaches {s : Tenure} (h : Reaches Ordered.step (start s) o) :
    s.ctx.SameMember o.tenure.ctx := by
  refine h.invariant (P := fun x : Ordered => s.ctx.SameMember x.tenure.ctx) (.refl _) ?_
  intro x l y hx _ hstep
  exact hx.trans (Tenure.step_next (step_tenure hstep)).logNext.sameMember

/-- **A quorum is enough**: from every state of the tenure, a leader in office can commit a
client's write as long as a quorum of the group follows it with running leases: the write, a
flush and the messages with these followers at the same reading, and their answers once the
commit waits are over.  Every follower of the quorum then has the leader's log. -/
theorem commits_of_reaches {s : Tenure} (hs : PlacedStart s)
    (h : Reaches Ordered.step (start s) o) (hoffice : o.tenure.leader = some leader)
    (hpeers : s.ctx.peerIds ≠ []) (hnodup : Q.Nodup) (hsub : ∀ p ∈ Q, p ∈ s.ctx.peerIds)
    (hquorum : s.ctx.getQuorumSize ≤ Q.length + 1) (hfollows : ∀ p ∈ Q, o.tenure.Follows now p)
    (command : PaxosCommand ClientWriteRequest) :
    ∃ later o₁ o₂ o₃ o', now ≤ later ∧ o.step (.clientWrite command (.steady now)) = some o₁ ∧
      o₁.step (.writeFlush (.steady now)) = some o₂ ∧
      Runs Ordered.step (fun _ l => Delivers Q now l) o₂ o₃ ∧
      Runs Ordered.step (fun _ l => Hears Q later l) o₃ o' ∧ o'.tenure.leader ≠ none ∧
      o'.tenure.wal = o.tenure.wal.append ⟨o.tenure.ctx.term, o.tenure.ctx.lastLogSlot + 1,
        command.request.value, (TrueTime.now now).latest⟩ ∧
      o'.tenure.ctx.committedSlot = o.tenure.ctx.lastLogSlot + 1 ∧
      ∀ p ∈ Q, o'.tenure.followerWal p = o'.tenure.wal := by
  obtain ⟨hsound, hplaced, _⟩ := hs.of_reaches h
  -- the write is appended
  have hevent : o.tenure.leaderEvent (.clientWriteRequestReceived command) (.steady now) =
      some (o.tenure.stay (leader.handleClientWrite command o.tenure.ctx (.steady now))) :=
    Tenure.leaderEvent_eq hoffice (fun term hget => by cases hget) rfl rfl
  have hwrite := step_stay (l := .clientWrite command (.steady now)) hevent (Or.inl ⟨_, _, rfl⟩)
  have hsound₁ := hsound.step hwrite
  have hplaced₁ := hplaced.step hsound hwrite
  -- and flushed
  obtain ⟨o₂, leader₂, hflush, hoffice₂, hctx₂, hslots₂, hpursued⟩ := step_flushed hplaced₁ hsound₁
    rfl (Nat.succ_ne_zero leader.pendingWriteCount) now
  have hgroup : o.tenure.ctx.peerIds = s.ctx.peerIds := (sameMember_of_reaches h).peerIds
  -- the followers of the quorum write it
  obtain ⟨o₃, hruns₃, hlanded, hbeside⟩ := reaches_landed hnodup fun p hp => by
    obtain ⟨request, hrequest⟩ := hpursued p (hgroup ▸ hsub p hp)
      ⟨(hfollows p hp).term, (hfollows p hp).leader, (hfollows p hp).lease⟩
    exact ⟨leader₂, request, hrequest⟩
  obtain ⟨leader₃, hoffice₃, hspares⟩ := hbeside.leader leader₂ hoffice₂
  have hlast₃ : o₃.tenure.ctx.lastLogSlot = o.tenure.ctx.lastLogSlot + 1 := by
    rw [hbeside.lastLogSlot, hctx₂]
    rfl
  have hreaches : Reaches Ordered.step (start s) o₃ :=
    ((h.tail _ trivial hwrite).tail _ trivial hflush).trans (hruns₃.mono fun _ _ _ => trivial)
  have hsame₃ := sameMember_of_reaches hreaches
  have htwo : 2 ≤ s.ctx.getQuorumSize := by
    obtain ⟨q, hq⟩ := List.exists_mem_of_ne_nil _ hpeers
    exact s.ctx.two_le_getQuorumSize hq
  have hnonempty : Q ≠ [] := by
    rintro rfl
    rw [List.length_nil] at hquorum
    omega
  have hnew : ∀ p ∈ Q, ∃ m, leader₃.matchSlot? p = some m ∧ m < o₃.tenure.ctx.lastLogSlot := by
    intro p hp
    obtain ⟨m, hm, hle⟩ := hplaced.exists_matchSlot hsound hoffice (hgroup ▸ hsub p hp)
    refine ⟨m, ?_, ?_⟩
    · rw [hspares.matchSlot, hslots₂]
      exact hm
    · rw [hlast₃]
      exact Nat.lt_succ_of_le hle
  -- and their acknowledgements commit it, once the commit waits are over
  obtain ⟨later, hle, hlater⟩ := Leader.exists_commitWait now leader₃.inFlightWrites.values
  obtain ⟨o₄, leader₄, hruns₄, hheard, hcommitted⟩ := reaches_heard hnodup hoffice₃
    (by rw [PaxosSharedContext.getQuorumSize, hsame₃.peerIds]; exact htwo) hlanded hnew
    (fun slot w hw => hlater w (OrderedMap.mem_values_iff.mpr ⟨slot, hw⟩))
    (fun hnil => absurd hnil hnonempty)
  have hreaches₄ : Reaches Ordered.step (start s) o₄ :=
    hreaches.trans (hruns₄.mono fun _ _ _ => trivial)
  obtain ⟨hsound₄, _, hbelow⟩ := hs.of_reaches hreaches₄
  have hsame₄ := sameMember_of_reaches hreaches₄
  have hlast₄ := hheard.lastLogSlot.trans hlast₃
  have hreached : o₄.tenure.ctx.lastLogSlot ≤ leader₄.minQuorumSlot o₄.tenure.ctx := by
    refine hheard.le_minQuorumSlot hsound₄ hnodup (fun p hp => hsame₄.peerIds ▸ hsub p hp) ?_
    rw [PaxosSharedContext.getQuorumSize, hsame₄.peerIds]
    exact hquorum
  refine ⟨later, _, o₂, o₃, o₄, hle, hwrite, hflush, hruns₃, hruns₄, ?_, ?_, ?_, fun p hp => ?_⟩
  · rw [hheard.office]
    exact Option.some_ne_none _
  · rw [hheard.wal, hbeside.wal, Tenure.wal, hctx₂]
    rfl
  · rw [← hlast₄]
    exact Nat.le_antisymm hbelow (hreached.trans hcommitted)
  · obtain ⟨response, hfollower⟩ := hlanded p hp
    rw [Tenure.followerWal, hheard.copies, hheard.wal]
    exact hfollower.copy

/-- Member 3 has missed the first write and gets both with the second. -/
theorem commits_of_reaches_secondWrite :
    ∃ o later o₁ o₂ o₃ o', exec Ordered.step (start freshOfThree) firstCommit = some o ∧
      o.step (Tenure.write "b" (Duration.seconds 4)) = some o₁ ∧
      o₁.step (.writeFlush (.steady (Duration.seconds 4))) = some o₂ ∧
      Runs Ordered.step (fun _ l => Delivers [3] (Duration.seconds 4) l) o₂ o₃ ∧
      Runs Ordered.step (fun _ l => Hears [3] later l) o₃ o' ∧
      o'.tenure.ctx.committedSlot = 2 ∧ o'.tenure.followerWal 3 = o'.tenure.wal := by
  obtain ⟨o, leader, hrun, hoffice, hfollows, hlast⟩ :
      ∃ o leader, exec Ordered.step (start freshOfThree) firstCommit = some o ∧
        o.tenure.leader = some leader ∧ o.tenure.Follows (Duration.seconds 4) 3 ∧
        o.tenure.ctx.lastLogSlot = 1 := ⟨_, _, rfl, rfl, ⟨rfl, rfl, rfl⟩, rfl⟩
  obtain ⟨later, o₁, o₂, o₃, o', _, hwrite, hflush, hruns, hheard, _, _, hcommitted, hcopies⟩ :=
    @commits_of_reaches o (Duration.seconds 4) leader [3] freshOfThree freshOfThree_placedStart
      (Runs.of_exec firstCommit hrun) hoffice (List.cons_ne_nil _ _) (by decide) (by decide)
      (by decide) (fun p hp => List.mem_singleton.mp hp ▸ hfollows) ⟨⟨"b"⟩, ⟨9, true⟩⟩
  rw [hlast] at hcommitted
  exact ⟨o, later, o₁, o₂, o₃, o', hrun, hwrite, hflush, hruns, hheard, hcommitted,
    hcopies 3 (List.mem_singleton_self _)⟩

end Ordered
end SpannerPaxos
