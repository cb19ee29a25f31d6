import SpannerPaxos.CommitLog
import SpannerPaxos.InOrder

/-! # A tenure in order is a replicated log

With its messages in order a tenure does what the abstract log of `CommitLog` does: a
client write appends, a batch that a follower writes makes its copy longer, a response
moves the commit point to where a quorum has a copy, and nothing else is seen.  What the
abstract log never loses, the tenure never loses.
-/
namespace SpannerPaxos

open ReplicatedLog

/-- The value a label has the leader append. -/
def Tenure.Label.written : Tenure.Label → List String
  | .clientWrite command _ => [command.request.value]
  | .writeFlush _ | .heartbeat _ | .timeoutCheck _ | .deliverRequest _ _ _
  | .deliverResponse _ _ _ => []

namespace Tenure

/-- The log of the leader as a list, what its followers are known to hold of it, and its
commit point. -/
def commitLog (s : Tenure) : CommitLog.State LogEntry Uuid where
  log := s.wal.getEntriesFrom 1
  copy p := (s.matchSlot? p).getD 0
  committed := s.ctx.committedSlot

/-- The leader's log, read slot by slot. -/
theorem commitLog_log {s : Tenure} (h : s.wal.ContiguousTo s.ctx.lastLogSlot) :
    s.commitLog.log.length = s.ctx.lastLogSlot ∧
      ∀ k, s.commitLog.log[k]? = s.wal.get? (k + 1) := by
  have hslots := s.wal.getEntriesFrom_range fun k hk => by
    rw [h k]
    exact ⟨fun hle => hle.2, fun hle => ⟨hk, hle⟩⟩
  have hlength : s.commitLog.log.length = s.ctx.lastLogSlot := by
    rw [← List.length_map LogEntry.slot]
    show ((s.wal.getEntriesFrom 1).map LogEntry.slot).length = _
    rw [hslots, List.length_range']
    omega
  refine ⟨hlength, fun k => ?_⟩
  by_cases hk : k < s.ctx.lastLogSlot
  · obtain ⟨e, he⟩ : ∃ e, s.commitLog.log[k]? = some e :=
      ⟨_, List.getElem?_eq_getElem (hlength ▸ hk)⟩
    have hslot : e.slot = k + 1 := by
      have hmap : ((s.wal.getEntriesFrom 1).map LogEntry.slot)[k]? = some e.slot := by
        rw [List.getElem?_map]
        exact congrArg (Option.map LogEntry.slot) he
      rw [hslots, List.getElem?_range' (by omega)] at hmap
      have heq := Option.some.inj hmap
      omega
    have hget := ((s.wal.mem_getEntriesFrom).mp (List.mem_of_getElem? he)).2
    rw [he, ← hslot, hget]
  · rw [List.getElem?_eq_none (by omega)]
    refine (Option.eq_none_iff_forall_ne_some.mpr fun e he => ?_).symm
    have hle := (h.le he).2
    omega

end Tenure

namespace Ordered

/-- **The tenure stands for an abstract log**: the leader's log and commit point are its, and
every follower holds its copy, is asked for no less, and has acknowledged no more. -/
structure Refines (members : List Uuid) (quorum : Nat) (o : Ordered)
    (a : CommitLog.State LogEntry Uuid) : Prop where
  log : ∀ k, a.log[k]? = o.tenure.wal.get? (k + 1)
  last : o.tenure.ctx.lastLogSlot = a.log.length
  committed : a.committed = o.tenure.ctx.committedSlot
  peers : o.tenure.ctx.peerIds = members
  quorum : o.tenure.ctx.getQuorumSize = quorum
  copied : ∀ p, a.copy p ≤ a.log.length
  held : ∀ p, SameUpTo o.tenure.wal.log (o.tenure.followerWal p).log (a.copy p)
  below : ∀ p, o.Below p (a.copy p)
  recorded : ∀ p m, o.tenure.matchSlot? p = some m → m ≤ a.copy p
  acked : ∀ p, ∀ response ∈ o.tenure.responses p, response.success = true →
    response.lastWrittenSlot ≤ a.copy p

variable {members : List Uuid} {quorum floor : Nat} {o o' : Ordered}
  {a : CommitLog.State LogEntry Uuid} {l : Tenure.Label}

/-- Whatever the group is, it stays. -/
theorem Refines.group (hr : o.Refines members quorum a) (h : Tenure.LogNext o.tenure o'.tenure) :
    o'.tenure.ctx.peerIds = members ∧ o'.tenure.ctx.getQuorumSize = quorum := by
  have hpeers := h.sameMember.peerIds
  refine ⟨hpeers.trans hr.peers, ?_⟩
  rw [PaxosSharedContext.getQuorumSize, hpeers]
  exact hr.quorum

/-- What is recorded after a step is in the copies, where the followers have acknowledged no
more before it. -/
theorem Refines.recorded_next (hr : o.Refines members quorum a) (ho : o.Sound 0 floor)
    (hnext : Tenure.Next o.tenure o'.tenure l) {p : Uuid} {m : Nat}
    (hm : o'.tenure.matchSlot? p = some m) : m ≤ a.copy p := by
  rcases hnext.matchSlot hm with hold | ⟨q, response, hmem, hp, hsuccess, hslot⟩
  · exact hr.recorded p m hold
  · rw [hp, ho.held.sender q response hmem, hslot]
    exact hr.acked q response hmem hsuccess

/-- A step that changes neither a log nor the commit point goes unseen. -/
theorem Refines.idle (hr : o.Refines members quorum a) (ho : o.Sound 0 floor)
    (h : o.step l = some o') (hwal : o'.tenure.wal = o.tenure.wal)
    (hlast : o'.tenure.ctx.lastLogSlot = o.tenure.ctx.lastLogSlot)
    (hfollowers : ∀ p, o'.tenure.followerWal p = o.tenure.followerWal p)
    (hcommitted : o'.tenure.ctx.committedSlot = o.tenure.ctx.committedSlot)
    (hacked : ∀ p, ∀ response ∈ o'.tenure.responses p, response.success = true →
      response.lastWrittenSlot ≤ a.copy p) : o'.Refines members quorum a := by
  have hnext := Tenure.step_next (step_tenure h)
  obtain ⟨hpeers, hquorum⟩ := hr.group hnext.logNext
  refine ⟨?_, ?_, ?_, hpeers, hquorum, hr.copied, ?_, fun p => (hr.below p).step h,
    fun p m hm => hr.recorded_next ho hnext hm, hacked⟩
  · rw [hwal]
    exact hr.log
  · rw [hlast]
    exact hr.last
  · rw [hcommitted]
    exact hr.committed
  · intro p
    rw [hwal, hfollowers]
    exact hr.held p

/-- **A client write appends.** -/
theorem Refines.append (hr : o.Refines members quorum a) (ho : o.Sound 0 floor)
    (h : o.step l = some o') {leader : Leader} {command : PaxosCommand ClientWriteRequest}
    {env : Env}
    (hled : Tenure.Led o.tenure o'.tenure (leader.handleClientWrite command o.tenure.ctx env)) :
    ∃ e, e.entry = command.request.value ∧
      o'.Refines members quorum { a with log := a.log ++ [e] } := by
  have hnext := Tenure.step_next (step_tenure h)
  obtain ⟨hpeers, hquorum⟩ := hr.group hnext.logNext
  obtain ⟨hwal, hlast, _, _⟩ := hled.append_spec
  have hcommitted : o'.tenure.ctx.committedSlot = o.tenure.ctx.committedSlot := by
    rw [hled.ctx]
    rfl
  refine ⟨⟨o.tenure.ctx.term, o.tenure.ctx.lastLogSlot + 1, command.request.value,
      (TrueTime.now (env.clock 0)).latest⟩, rfl, ?_, ?_, ?_, hpeers, hquorum, ?_, ?_,
    fun p => (hr.below p).step h, fun p m hm => hr.recorded_next ho hnext hm, ?_⟩
  · intro k
    rw [hwal, WriteAheadLog.get?_append, List.getElem?_append, hr.last]
    dsimp only
    by_cases hk : k < a.log.length
    · rw [if_pos hk, if_neg (by omega)]
      exact hr.log k
    · rw [if_neg hk]
      by_cases heq : k = a.log.length
      · subst heq
        simp
      · rw [if_neg (by omega), ← hr.log k, List.getElem?_eq_none (by simp; omega),
          List.getElem?_eq_none (by omega)]
  · rw [hlast, hr.last, List.length_append]
    rfl
  · exact hr.committed.trans hcommitted.symm
  · intro p
    rw [List.length_append]
    exact (hr.copied p).trans (Nat.le_add_right _ _)
  · intro p
    rw [hwal, WriteAheadLog.log_append, Tenure.followerWal, hled.followerCtx]
    refine (sameUpTo_append _ ?_).symm.trans (hr.held p)
    show a.copy p < o.tenure.ctx.lastLogSlot + 1
    rw [hr.last]
    exact Nat.lt_succ_of_le (hr.copied p)
  · rw [hled.responses]
    exact hr.acked

/-- **A follower that writes a batch has a longer copy.** -/
theorem Refines.replicate (hr : o.Refines members quorum a) (ho : o.Sound 0 floor)
    {p : Uuid} {i : Nat} {env : Env} (h : o.step (.deliverRequest p i env) = some o')
    {request : AcceptRequest} (hrequest : (o.tenure.requests p)[i]? = some request) {f : Follower}
    (hf : f.currentLeaderId = (o.tenure.follower p).currentLeaderId)
    (hanswered : Tenure.Answered o.tenure o'.tenure p
      (f.handleAcceptRequest request (o.tenure.admittingCtx p request) env)) :
    o'.Refines members quorum a ∨ CommitLog.Allows members quorum a (.replicate p request.reach) ∧
      o'.Refines members quorum
        { a with copy := fun q => if q = p then request.reach else a.copy q } := by
  have hnext := Tenure.step_next (step_tenure h)
  have hctx : o'.tenure.ctx = o.tenure.ctx := hanswered.ctx
  have hbatch := ho.logs.logs.batches p request (List.mem_of_getElem? hrequest)
  obtain ⟨hother, hown⟩ := Tenure.followerWal_of_answered hf hanswered
  obtain ⟨_, _, hanswer⟩ := o.tenure.answer_cases request env hf
  have hresponses : ∀ q, ∀ response ∈ o'.tenure.responses q,
      response ∈ o.tenure.responses q ∨ q = p ∧
        response = (f.handleAcceptRequest request (o.tenure.admittingCtx p request) env).1 := by
    intro q response hmem
    rw [hanswered.responses] at hmem
    by_cases hq : q = p
    · subst hq
      rw [Function.update_self] at hmem
      rcases List.mem_append.mp hmem with hold | hnew
      · exact Or.inl hold
      · exact Or.inr ⟨rfl, List.mem_singleton.mp hnew⟩
    · rw [Function.update_of_ne hq] at hmem
      exact Or.inl hmem
  rcases hanswer with ⟨hno, hkept, hfails⟩ | ⟨hwrites, hwritten, hsuccess, hreach⟩
  · -- the log stays, and nothing is acknowledged
    refine Or.inl (hr.idle ho h (by rw [Tenure.wal, hctx]) (by rw [hctx]) ?_ (by rw [hctx]) ?_)
    · intro q
      by_cases hq : q = p
      · subst hq
        rw [Tenure.followerWal, hanswered.followerCtx, Function.update_self]
        exact hkept
      · exact hother q hq
    · intro q response hmem hok
      rcases hresponses q response hmem with hold | ⟨_, rfl⟩
      · exact hr.acked q response hold hok
      · rw [hfails] at hok
        cases hok
  · -- the batch comes behind all that the follower has acknowledged
    have hi := (step_nextRequest h).2 p i env rfl
    have hcopy := (hr.below p).2 i request hi.1 hrequest
    have hle : request.reach ≤ a.log.length := by
      rw [← hr.last]
      rcases hbatch.reach with hzero | ⟨e, he⟩
      · omega
      · exact ho.logs.last _ e he
    have hnew : (f.handleAcceptRequest request (o.tenure.admittingCtx p request) env).1 ∈
        o'.tenure.responses p := by
      rw [hanswered.responses, Function.update_self]
      exact List.mem_append_right _ (List.mem_singleton_self _)
    have hbelow := ((ho.inOrder.step ho.held h).acked p _ hnew hsuccess).2
    rw [hreach] at hbelow
    obtain ⟨hpeers, hquorum⟩ := hr.group hnext.logNext
    refine Or.inr ⟨⟨hcopy, hle⟩, ?_, ?_, ?_, hpeers, hquorum, ?_, ?_, ?_, ?_, ?_⟩
    · rw [Tenure.wal, hctx]
      exact hr.log
    · rw [hctx]
      exact hr.last
    · rw [hctx]
      exact hr.committed
    · intro q
      dsimp only
      split
      · exact hle
      · exact hr.copied q
    · intro q
      dsimp only
      rw [Tenure.wal, hctx]
      split
      · rename_i hq
        rw [hq, Tenure.followerWal, hanswered.followerCtx, Function.update_self, hwritten]
        exact hbatch.sameUpTo_written (ho.logs.logs.matching p) hwrites.2
      · rename_i hq
        rw [hother q hq]
        exact hr.held q
    · intro q
      dsimp only
      split
      · rename_i hq
        rw [hq]
        exact hbelow
      · exact (hr.below q).step h
    · intro q m hm
      have hold := hr.recorded_next ho hnext hm
      dsimp only
      split
      · rename_i hq
        rw [hq] at hold
        exact hold.trans hcopy
      · exact hold
    · intro q response hmem hok
      dsimp only
      rcases hresponses q response hmem with hold | ⟨rfl, rfl⟩
      · have hacked := hr.acked q response hold hok
        split
        · rename_i hq
          rw [hq] at hacked
          exact hacked.trans hcopy
        · exact hacked
      · rw [if_pos rfl, hreach]

/-- What the leader records with a response is in the copies. -/
theorem Refines.recorded_response (hr : o.Refines members quorum a) (ho : o.Sound 0 floor)
    {leader : Leader} (hleader : o.tenure.leader = some leader) {q : Uuid}
    {response : AcceptResponse} (hmem : response ∈ o.tenure.responses q)
    (hsuccess : response.success = true) {fs : FollowerState} {p : Uuid} {m : Nat}
    (hm : ((leader.recordContact response).setFollower response.memberId
      (fs.recordMatch response.lastWrittenSlot)).matchSlot? p = some m) : m ≤ a.copy p := by
  rw [Leader.matchSlot?_setFollower] at hm
  split at hm
  · rename_i hp
    cases Option.some.inj hm
    rw [hp, ho.held.sender q response hmem]
    exact hr.acked q response hmem hsuccess
  · refine hr.recorded p m ?_
    rw [Tenure.matchSlot?, hleader]
    exact hm

/-- **A response commits what a quorum has copies of.** -/
theorem Refines.commit (hr : o.Refines members quorum a) (ho : o.Sound 0 floor)
    (h : o.step l = some o') {q : Uuid} {response : AcceptResponse}
    (hmem : response ∈ o.tenure.responses q) {leader : Leader} {env : Env}
    (hleader : o.tenure.leader = some leader)
    (hled : Tenure.Led o.tenure o'.tenure
      (leader.handleAcceptResponse response o.tenure.ctx env)) :
    o'.Refines members quorum a ∨
      CommitLog.Allows members quorum a (.commit o'.tenure.ctx.committedSlot) ∧
        o'.Refines members quorum { a with committed := o'.tenure.ctx.committedSlot } := by
  have hnext := Tenure.step_next (step_tenure h)
  have hreplicates := leader.handleAcceptResponse_replicates o.tenure.ctx env response
  have hwal : o'.tenure.wal = o.tenure.wal := (congrArg _ hled.ctx).trans hreplicates.wal
  have hlast : o'.tenure.ctx.lastLogSlot = o.tenure.ctx.lastLogSlot :=
    (congrArg _ hled.ctx).trans hreplicates.lastLogSlot
  have hidle : ∀ a, o.Refines members quorum a →
      o'.tenure.ctx.committedSlot = o.tenure.ctx.committedSlot → o'.Refines members quorum a := by
    intro a hr hcommitted
    refine hr.idle ho h hwal hlast (fun p => ?_) hcommitted ?_
    · rw [Tenure.followerWal, hled.followerCtx]
    · rw [hled.responses]
      exact hr.acked
  rcases Nat.eq_or_lt_of_le hnext.committedSlot_le with hsame | hraise
  · exact Or.inl (hidle a hr hsame.symm)
  · have hraised := hraise
    rw [hled.ctx] at hraised
    obtain ⟨fs, hsuccess, hget, hq, hslot⟩ := leader.handleAcceptResponse_raises _ _ hraised
    rw [← hled.ctx] at hslot
    have hkeys : ((leader.recordContact response).setFollower response.memberId
        (fs.recordMatch response.lastWrittenSlot)).scoreBoard.keys = o.tenure.ctx.peerIds := by
      rw [← ho.board leader hleader]
      exact AssocMap.keys_insert_of_mem _ (AssocMap.mem_keys_iff.mpr ⟨fs, hget⟩) _
    obtain ⟨Q, hnodup, hsub, hlen, hmatch⟩ := Leader.exists_quorum_of_le_minQuorumSlot _
      o.tenure.ctx hkeys (by omega) (le_of_eq hslot) hq
    have hle : o'.tenure.ctx.committedSlot ≤ a.log.length := by
      rw [hslot, ← hr.last]
      exact Leader.minQuorumSlot_le _ _
    refine Or.inr ⟨⟨by rw [hr.committed]; exact Nat.le_of_lt hraise, hle, Q, hnodup, ?_, ?_, ?_⟩,
      ?_⟩
    · rw [← hr.peers]
      exact hsub
    · rw [← hr.quorum]
      exact hlen
    · intro p hp
      obtain ⟨m, hm, hcover⟩ := hmatch p hp
      exact hcover.trans (hr.recorded_response ho hleader hmem hsuccess hm)
    · obtain ⟨hpeers, hquorum⟩ := hr.group hnext.logNext
      refine ⟨hwal ▸ hr.log, hlast.trans hr.last, rfl, hpeers, hquorum, hr.copied, fun p => ?_,
        fun p => (hr.below p).step h, fun p m hm => hr.recorded_next ho hnext hm, ?_⟩
      · rw [hwal, Tenure.followerWal, hled.followerCtx]
        exact hr.held p
      · rw [hled.responses]
        exact hr.acked

/-- **A step of the tenure is at most one step of the abstract log**, which appends what
the client writes. -/
theorem Refines.step (hr : o.Refines members quorum a) (ho : o.Sound 0 floor)
    (h : o.step l = some o') :
    ∃ a', Runs CommitLog.step (CommitLog.Allows members quorum) a a' ∧
      o'.Refines members quorum a' ∧
      a'.log.map LogEntry.entry = a.log.map LogEntry.entry ++ l.written := by
  have hnext := Tenure.step_next (step_tenure h)
  -- where the leader only sends, nothing is seen
  have hships : ∀ {attempt : Attempt (Leader × PaxosSharedContext)} {ts : Option DateTime},
      Tenure.Led o.tenure o'.tenure attempt → Leader.Replicates o.tenure.ctx ts attempt →
      o'.tenure.ctx.committedSlot = o.tenure.ctx.committedSlot → o'.Refines members quorum a := by
    intro attempt ts hled hsends hcommitted
    refine hr.idle ho h ?_ ?_ (fun p => ?_) hcommitted ?_
    · rw [Tenure.wal, hled.ctx, hsends.wal]
    · rw [hled.ctx, hsends.lastLogSlot]
    · rw [Tenure.followerWal, hled.followerCtx]
    · rw [hled.responses]
      exact hr.acked
  cases hnext with
  | clientWrite leader hleader hled =>
    rename_i command env
    obtain ⟨e, hentry, hr'⟩ := hr.append ho h hled
    refine ⟨_, (Runs.refl a).tail (.append e) trivial rfl, hr', ?_⟩
    rw [List.map_append, List.map_singleton, hentry]
    rfl
  | writeFlush leader hleader hled =>
    have hidle := hships hled (leader.handleWriteFlush_replicates _ _)
      (by rw [hled.ctx, Leader.handleWriteFlush_ctx])
    exact ⟨a, .refl a, hidle, (List.append_nil _).symm⟩
  | heartbeat leader hleader hled =>
    have hidle := hships hled (leader.handleHeartbeatTimer_replicates _ _)
      ((congrArg _ hled.ctx).trans (o.tenure.ctx.advanceTSafe_committedSlot _))
    exact ⟨a, .refl a, hidle, (List.append_nil _).symm⟩
  | timeoutCheck leader hleader hled =>
    have hidle := hships hled (leader.handleAcceptTimeoutCheck_replicates _ _)
      (by rw [hled.ctx]; rfl)
    exact ⟨a, .refl a, hidle, (List.append_nil _).symm⟩
  | deliverRequest request hrequest f hf hanswered =>
    rcases hr.replicate ho h hrequest hf hanswered with hidle | ⟨hallows, hr'⟩
    · exact ⟨a, .refl a, hidle, (List.append_nil _).symm⟩
    · exact ⟨_, (Runs.refl a).tail _ hallows rfl, hr', (List.append_nil _).symm⟩
  | deliverResponse response hresponse leader hleader hterm hled =>
    rcases hr.commit ho h (List.mem_of_getElem? hresponse) hleader hled with
      hidle | ⟨hallows, hr'⟩
    · exact ⟨a, .refl a, hidle, (List.append_nil _).symm⟩
    · exact ⟨_, (Runs.refl a).tail _ hallows rfl, hr', (List.append_nil _).symm⟩

/-- Where a tenure starts to stand for an abstract log: the logs match, the followers hold
what is recorded for them, and all that is under way are batches of the leader's log as it
stands. -/
structure RefinedStart (s : Tenure) : Prop where
  matching : s.LogMatching
  /-- No follower holds an entry of the leader's term that the leader lacks. -/
  noNewer : ∀ p k e, (s.followerWal p).get? k = some e → e.term = s.ctx.term →
    ∃ e', s.wal.get? k = some e' ∧ e'.term = s.ctx.term
  contiguous : s.wal.ContiguousTo s.ctx.lastLogSlot
  recorded : ∀ p m, s.matchSlot? p = some m →
    m ≤ s.ctx.lastLogSlot ∧ Agree s.wal (s.followerWal p) m
  committed : s.ctx.committedSlot ≤ s.ctx.lastLogSlot
  board : s.BoardOfPeers
  ids : ∀ p, (s.followerCtx p).memberId = p
  sent : ∀ p, ∀ request ∈ s.requests p, ∃ minNextTs, Leader.Sent s.ctx minNextTs request
  responses : ∀ p, s.responses p = []

namespace RefinedStart
variable {s : Tenure}

theorem extends_of_le (hs : RefinedStart s) {m : Nat} (h : m ≤ s.ctx.lastLogSlot) :
    s.Extends m := by
  rcases Nat.eq_zero_or_pos m with hzero | hpos
  · exact Or.inl hzero
  · obtain ⟨e, he⟩ := (hs.contiguous m).mpr ⟨hpos, h⟩
    exact Or.inr ⟨m, e, Nat.le_refl m, he⟩

theorem matchInv (hs : RefinedStart s) : s.MatchInv where
  logs := ⟨hs.matching.1, fun p request hmem =>
    let ⟨_, hsent⟩ := hs.sent p request hmem
    .of_sent hsent⟩
  followers := hs.matching.2
  own p k e hk he ht := by
    obtain ⟨e', he', ht'⟩ := hs.noNewer p k e he ht
    rw [← (hs.matching.1 p).entry_eq hk he' he (by rw [ht, ht'])]
    exact he'
  last k e he := ((hs.contiguous k).mp ⟨e, he⟩).2

theorem sound (hs : RefinedStart s) : (start s).Sound 0 0 where
  logs := hs.matchInv
  held := {
    logs := hs.matchInv.logs
    recorded := fun p m hm => Or.inr ((hs.recorded p m hm).2.sameUpTo (hs.matching.1 p))
    acked := fun p response hmem => by
      rw [start, hs.responses p] at hmem
      cases hmem
    sender := fun p response hmem => by
      rw [start, hs.responses p] at hmem
      cases hmem
    ids := hs.ids }
  inOrder := .start (Or.inl rfl) hs.sent
    (fun p m hm => hs.extends_of_le (hs.recorded p m hm).1) hs.responses
  board := hs.board
  harmless := Or.inl (Nat.zero_le _)

/-- The abstract log of the tenure, and what is known of its copies. -/
theorem refines (hs : RefinedStart s) :
    (start s).Refines s.ctx.peerIds s.ctx.getQuorumSize s.commitLog := by
  obtain ⟨hlength, hget⟩ := Tenure.commitLog_log hs.contiguous
  have hcopy : ∀ p, s.commitLog.copy p = 0 ∨ s.matchSlot? p = some (s.commitLog.copy p) := by
    intro p
    show (s.matchSlot? p).getD 0 = 0 ∨ s.matchSlot? p = some ((s.matchSlot? p).getD 0)
    cases hm : s.matchSlot? p with
    | none => exact Or.inl rfl
    | some m => exact Or.inr rfl
  have hend : ∀ p, s.commitLog.copy p ≤ s.ctx.lastLogSlot := by
    intro p
    rcases hcopy p with hzero | hm
    · omega
    · exact (hs.recorded p _ hm).1
  refine ⟨hget, hlength.symm, rfl, rfl, rfl, fun p => hlength.symm ▸ hend p, fun p => ?_,
    fun p => ?_, fun p m hm => ?_, fun p response hmem => ?_⟩
  · rcases hcopy p with hzero | hm
    · rw [hzero]
      exact .zero _ _
    · exact (hs.recorded p _ hm).2.sameUpTo (hs.matching.1 p)
  · refine ⟨hs.extends_of_le (hend p), fun i request _ hrequest => ?_⟩
    obtain ⟨_, hsent⟩ := hs.sent p request (List.mem_of_getElem? hrequest)
    exact (hs.extends_of_le (hend p)).le_reach hsent
  · show m ≤ (s.matchSlot? p).getD 0
    rw [show s.matchSlot? p = some m from hm]
    exact Nat.le_refl m
  · rw [start, hs.responses p] at hmem
    cases hmem

end RefinedStart

/-- What a run of the tenure comes to, from where it stands for an abstract log. -/
theorem Refines.of_exec (hr : o.Refines members quorum a) (ho : o.Sound 0 floor)
    {ls : List Tenure.Label} (h : exec Ordered.step o ls = some o') :
    o'.Sound 0 floor ∧
      ∃ a', Runs CommitLog.step (CommitLog.Allows members quorum) a a' ∧
        o'.Refines members quorum a' ∧
        a'.log.map LogEntry.entry = a.log.map LogEntry.entry ++ ls.flatMap Tenure.Label.written := by
  induction ls generalizing o a with
  | nil =>
    cases Option.some.inj h
    exact ⟨ho, a, .refl a, hr, (List.append_nil _).symm⟩
  | cons l ls ih =>
    obtain ⟨mid, hmid, hrest⟩ := Option.bind_eq_some_iff.mp h
    obtain ⟨a₁, hfirst, hr₁, hlog₁⟩ := hr.step ho hmid
    obtain ⟨ho', a₂, hlater, hr₂, hlog₂⟩ := ih hr₁ (ho.step hmid) hrest
    refine ⟨ho', a₂, hfirst.trans hlater, hr₂, ?_⟩
    rw [hlog₂, hlog₁, List.append_assoc, List.flatMap_cons]

/-- **A tenure whose messages arrive in order is a replicated log**: any run of it is a run
of the abstract log, which holds what the log held and then what the clients wrote, in the
order of their writes. -/
theorem refines_of_exec {s : Tenure} (hs : RefinedStart s) {ls : List Tenure.Label}
    (h : exec Ordered.step (start s) ls = some o) :
    ∃ a, Runs CommitLog.step (CommitLog.Allows s.ctx.peerIds s.ctx.getQuorumSize) s.commitLog a ∧
      o.Refines s.ctx.peerIds s.ctx.getQuorumSize a ∧
      a.log.map LogEntry.entry =
        (s.wal.getEntriesFrom 1).map LogEntry.entry ++ ls.flatMap Tenure.Label.written :=
  (hs.refines.of_exec hs.sound h).2

/-- Member 1 has just come to lead term 1 of a group of three; all logs are empty, and
the leases run for a minute. -/
def freshOfThree : Tenure where
  leader := some (Leader.new (Candidate.new (.memberOfThree 1)).scoreBoard)
  ctx := { PaxosSharedContext.memberOfThree 1 with
    term := 1
    leaseExpiry := some (Duration.seconds 60) }
  follower _ := Follower.new (some 1)
  followerCtx p := { PaxosSharedContext.memberOfThree p with
    term := 1
    leaseExpiry := some (Duration.seconds 60) }
  requests _ := []
  responses _ := []

theorem freshOfThree_refinedStart : RefinedStart freshOfThree where
  matching := by
    refine ⟨?_, ?_⟩
    · intro p k e e' he
      cases he
    · intro p q k e e' he
      cases he
  noNewer _ _ _ he := by cases he
  contiguous := WriteAheadLog.contiguousTo_new
  recorded p m hm := by
    obtain ⟨fs, hget, hslot⟩ := Option.map_eq_some_iff.mp hm
    rw [Leader.new, Candidate.new, AssocMap.get?_mapValues, AssocMap.get?_ofKeys] at hget
    split at hget
    · rw [← hslot, ← Option.some.inj hget]
      exact ⟨Nat.le_refl _, fun _ _ _ => rfl⟩
    · cases hget
  committed := Nat.le_refl _
  board leader hleader := by
    cases Option.some.inj hleader
    rfl
  ids _ := rfl
  sent _ _ hmem := by cases hmem
  responses _ := rfl

/-- The first write is replicated to member 2 and committed. -/
def firstCommit : List Tenure.Label :=
  [Tenure.write "a" (Duration.seconds 1), .writeFlush (.steady (Duration.seconds 1)),
    .deliverRequest 2 0 (.steady (Duration.seconds 2)),
    .deliverResponse 2 0 (.steady (Duration.seconds 3))]

theorem refines_of_exec_firstCommit :
    ∃ o a, exec Ordered.step (start freshOfThree) firstCommit = some o ∧
      o.Refines [2, 3] 2 a ∧ a.committed = 1 ∧ a.log.map LogEntry.entry = ["a"] := by
  have hrun : exec Ordered.step (start freshOfThree) firstCommit = some _ := rfl
  obtain ⟨a, _, hr, hlog⟩ := refines_of_exec freshOfThree_refinedStart hrun
  exact ⟨_, a, hrun, hr, hr.committed, hlog⟩

/-! ## What is committed stays -/

/-- What the abstract log holds, the leader's log goes on holding. -/
theorem Refines.sameUpTo (hr : o.Refines members quorum a) {a' : CommitLog.State LogEntry Uuid}
    (hr' : o'.Refines members quorum a') (hgrows : CommitLog.Grows a a') :
    SameUpTo o.tenure.wal.log o'.tenure.wal.log a.log.length := by
  intro k hk hle
  obtain ⟨k, rfl⟩ := Nat.exists_eq_add_of_le' hk
  obtain ⟨new, hnew⟩ := hgrows.log
  have hget := hr'.log k
  rw [← hnew, List.getElem?_append_left (by omega), hr.log k] at hget
  exact hget

/-- **No quorum forgets a commit**: once a slot is committed, the leader's log goes on
holding what it held up to it, the commit point does not go back, and every quorum of
followers has one among it that holds the same, in every later state. -/
theorem committed_durable {s : Tenure} (hs : RefinedStart s) {ls ls' : List Tenure.Label}
    (h : exec Ordered.step (start s) ls = some o) (h' : exec Ordered.step o ls' = some o') :
    o.tenure.ctx.committedSlot ≤ o'.tenure.ctx.committedSlot ∧
      (∀ k, 1 ≤ k → k ≤ o.tenure.ctx.committedSlot → ∃ e, o.tenure.wal.get? k = some e ∧
        o'.tenure.wal.get? k = some e) ∧
      (s.ctx.committedSlot < o.tenure.ctx.committedSlot → ∀ S : List Uuid, S.Nodup →
        (∀ p ∈ S, p ∈ s.ctx.peerIds) → s.ctx.getQuorumSize ≤ S.length →
        ∃ p ∈ S, SameUpTo o'.tenure.wal.log (o'.tenure.followerWal p).log
          o.tenure.ctx.committedSlot) := by
  obtain ⟨ho, a, hruns, hr, _⟩ := hs.refines.of_exec hs.sound h
  obtain ⟨_, a', hlater, hr', _⟩ := hr.of_exec ho h'
  have hgrows := CommitLog.grows_of_runs hlater
  have hstart : s.commitLog.committed ≤ s.commitLog.log.length := by
    rw [(Tenure.commitLog_log hs.contiguous).1]
    exact hs.committed
  have hsound := CommitLog.sound_of_runs hruns hstart
  rw [← hr.committed, ← hr'.committed]
  refine ⟨hgrows.committed, fun k hk hle => ?_, fun hraised S hS hsub hlarge => ?_⟩
  · have hlt : k - 1 < a.log.length := by
      have hcommitted := hsound.le
      omega
    have hget := hr.log (k - 1)
    rw [List.getElem?_eq_getElem hlt, Nat.sub_add_cancel hk] at hget
    refine ⟨_, hget.symm, ?_⟩
    rw [hget]
    exact (hr.sameUpTo hr' hgrows k hk (by omega)).symm
  · -- a quorum holds it, and two quorums of the group share a follower or the leader
    have hheld := hgrows.held (hsound.held hraised)
    have hsize : s.ctx.peerIds.length < S.length + (s.ctx.getQuorumSize - 1) := by
      unfold PaxosSharedContext.getQuorumSize at hlarge ⊢
      omega
    obtain ⟨p, hp, hcopy⟩ := hheld.exists_mem s.ctx.peerIds_nodup hS hsub hsize
    exact ⟨p, hp, (hr'.held p).mono hcopy⟩

/-- Member 3 has missed the first write, but a quorum without the leader takes member 2. -/
theorem committed_durable_firstCommit :
    ∃ o o', exec Ordered.step (start freshOfThree) firstCommit = some o ∧
      exec Ordered.step o [Tenure.write "b" (Duration.seconds 4)] = some o' ∧
      ∃ p ∈ [2, 3], SameUpTo o'.tenure.wal.log (o'.tenure.followerWal p).log 1 := by
  obtain ⟨o, hrun, hnext⟩ : ∃ o, exec Ordered.step (start freshOfThree) firstCommit = some o ∧
      (exec Ordered.step o [Tenure.write "b" (Duration.seconds 4)]).isSome = true ∧
      o.tenure.ctx.committedSlot = 1 := ⟨_, rfl, rfl, rfl⟩
  obtain ⟨o', hlater⟩ := Option.isSome_iff_exists.mp hnext.1
  obtain ⟨_, _, hquorum⟩ := committed_durable freshOfThree_refinedStart hrun hlater
  rw [hnext.2] at hquorum
  exact ⟨o, o', hrun, hlater, hquorum (by decide) [2, 3] (by decide) (by decide) (by decide)⟩

end Ordered
end SpannerPaxos
