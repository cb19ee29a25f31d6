import SpannerPaxos.Tenure
import SpannerPaxos.ReplicatedLog

/-! # Log matching

A log of the program, read through `get?`, is a replicated log.  Every accept
request of a tenure ships a stretch of the leader's log behind one of its
anchors (`Batch`), however old the request is, because the leader only appends;
and a follower that finds the anchor in its own log agrees with the leader up to
it, since the logs match.  So writing a batch is taking over a stretch, and logs
that match go on matching.
-/
namespace SpannerPaxos

open ReplicatedLog

/-- The log of a write-ahead log: the entry at each slot. -/
abbrev WriteAheadLog.log (wal : WriteAheadLog) : Nat → Option LogEntry := wal.get?

/-- Two members' logs match. -/
abbrev LogsMatch (wal wal' : WriteAheadLog) : Prop := Matching LogEntry.term wal.log wal'.log

theorem WriteAheadLog.log_append (wal : WriteAheadLog) (e : LogEntry) :
    (wal.append e).log = ReplicatedLog.append wal.log e.slot e := by
  funext slot
  simp only [log, get?_append, ReplicatedLog.append, Function.update_apply]

/-- Dropping the tail and appending the source's is taking over a stretch of the
source that reaches its end. -/
theorem WriteAheadLog.log_appendAll_truncateFrom (source wal : WriteAheadLog) {p r : Nat}
    (hend : ∀ k e, source.get? k = some e → p < k → k ≤ r) :
    ((wal.truncateFrom (p + 1)).appendAll (source.getEntriesFrom (p + 1))).log =
      splice wal.log source.log p r := by
  funext k
  by_cases hp : k ≤ p
  · rw [splice_of_le _ _ hp]
    have hne : ∀ e ∈ source.getEntriesFrom (p + 1), e.slot ≠ k := by
      intro e he
      have hfrom := (source.mem_getEntriesFrom.mp he).1
      omega
    rw [log, WriteAheadLog.get?_appendAll_of_forall_ne _ hne, get?_truncateFrom,
      if_pos (by omega)]
  · cases hk : source.get? k with
    | some e =>
      rw [splice_of_lt_of_le _ _ (by omega) (hend k e hk (by omega))]
      have hslot := slot_of_get? hk
      subst hslot
      have hmem : e ∈ source.getEntriesFrom (p + 1) :=
        source.mem_getEntriesFrom.mpr ⟨by omega, hk⟩
      rw [log, log, hk]
      refine WriteAheadLog.get?_appendAll_of_mem _ hmem ?_
      intro e' he' hs
      have hget := (source.mem_getEntriesFrom.mp he').2
      rw [hs, hk] at hget
      exact (Option.some.inj hget).symm
    | none =>
      have hne : ∀ e ∈ source.getEntriesFrom (p + 1), e.slot ≠ k := by
        intro e he hs
        have hget := (source.mem_getEntriesFrom.mp he).2
        rw [hs, hk] at hget
        cases hget
      rw [log, WriteAheadLog.get?_appendAll_of_forall_ne _ hne, get?_truncateFrom,
        if_neg (by omega)]
      by_cases hr : k ≤ r
      · rw [splice_of_lt_of_le _ _ (by omega) hr, log, hk]
      · rw [splice_of_gt _ _ (by omega) (by omega)]

/-! ## Batches -/

/-- The request ships the stretch of a log behind one of its anchors. -/
structure Batch (source : WriteAheadLog) (request : AcceptRequest) : Prop where
  anchor : request.prevLogSlot = 0 ∨
    source.getTerm request.prevLogSlot = some request.prevLogTerm
  prev_le : request.prevLogSlot ≤ request.reach
  reach : request.reach = 0 ∨ ∃ e, source.get? request.reach = some e
  written : ∀ wal, (Follower.writtenWal request wal).log =
    splice wal.log source.log request.prevLogSlot request.reach

namespace Batch
variable {source : WriteAheadLog} {request : AcceptRequest}

/-- The stretch behind an anchor ends at the anchor or with the log. -/
theorem reach_makeAcceptRequest (ctx : PaxosSharedContext) (prevLogSlot prevLogTerm : Nat)
    (minNextTs : Option DateTime) (utc : DateTime) :
    let reach := (Leader.makeAcceptRequest ctx prevLogSlot prevLogTerm minNextTs utc).reach
    prevLogSlot ≤ reach ∧ (reach = prevLogSlot ∨ ∃ e, ctx.wal.get? reach = some e) ∧
      ∀ k e, ctx.wal.get? k = some e → prevLogSlot < k → k ≤ reach := by
  unfold AcceptRequest.reach Leader.makeAcceptRequest
  simp only [List.getLast?_map]
  cases hlast : (ctx.wal.getEntriesFrom (prevLogSlot + 1)).getLast? with
  | none =>
    refine ⟨Nat.le_refl _, Or.inl rfl, ?_⟩
    intro k e hk hlt
    have hslot := WriteAheadLog.slot_of_get? hk
    subst hslot
    have hmem : e ∈ ctx.wal.getEntriesFrom (prevLogSlot + 1) :=
      ctx.wal.mem_getEntriesFrom.mpr ⟨by omega, hk⟩
    rw [List.getLast?_eq_none_iff.mp hlast] at hmem
    cases hmem
  | some e =>
    obtain ⟨hfrom, hget⟩ := ctx.wal.mem_getEntriesFrom.mp (List.mem_of_getLast? hlast)
    refine ⟨?_, Or.inr ⟨e, hget⟩, ?_⟩
    · show prevLogSlot ≤ e.slot
      omega
    · intro k e' hk _
      exact ctx.wal.le_of_getEntriesFrom_getLast? hlast hk

/-- **What a leader sends is a batch of its log.** -/
theorem of_sent {ctx : PaxosSharedContext} {minNextTs : Option DateTime}
    (h : Leader.Sent ctx minNextTs request) : Batch ctx.wal request := by
  obtain ⟨prevLogSlot, prevLogTerm, utc, hanchor, rfl⟩ := h
  obtain ⟨hle, hreach, hend⟩ :=
    reach_makeAcceptRequest ctx prevLogSlot prevLogTerm minNextTs utc
  have hprev : prevLogSlot = 0 ∨ ctx.wal.getTerm prevLogSlot = some prevLogTerm := by
    unfold Leader.prevLogTerm? at hanchor
    split at hanchor
    · exact Or.inl ‹_›
    · exact Or.inr hanchor
  refine ⟨hprev, hle, ?_, ?_⟩
  · rcases hreach with heq | hget
    · rw [heq]
      rcases hprev with h0 | hterm
      · exact Or.inl h0
      · obtain ⟨e, he, _⟩ := WriteAheadLog.getTerm_eq_some_iff.mp hterm
        exact Or.inr ⟨e, he⟩
    · exact Or.inr hget
  · intro wal
    have hentries : (Leader.makeAcceptRequest ctx prevLogSlot prevLogTerm minNextTs
        utc).entries.map AcceptLogEntry.toLogEntry = ctx.wal.getEntriesFrom (prevLogSlot + 1) := by
      simp [Leader.makeAcceptRequest, Function.comp_def]
    rw [Follower.writtenWal, hentries]
    exact ctx.wal.log_appendAll_truncateFrom wal hend

/-- The batch of a log is a batch of every log that agrees with it up to the
batch's reach. -/
theorem congr {source' : WriteAheadLog} (h : Batch source request)
    (hsame : SameUpTo source.log source'.log request.reach) : Batch source' request := by
  have hget : ∀ k, 1 ≤ k → k ≤ request.reach → source'.get? k = source.get? k :=
    fun k hk hr => (hsame k hk hr).symm
  refine ⟨?_, h.prev_le, ?_, ?_⟩
  · rcases h.anchor with h0 | hterm
    · exact Or.inl h0
    · by_cases h0 : request.prevLogSlot = 0
      · exact Or.inl h0
      · refine Or.inr ?_
        rw [WriteAheadLog.getTerm, hget _ (by omega) h.prev_le]
        exact hterm
  · rcases h.reach with h0 | ⟨e, he⟩
    · exact Or.inl h0
    · by_cases h0 : request.reach = 0
      · exact Or.inl h0
      · exact Or.inr ⟨e, by rw [hget _ (by omega) (Nat.le_refl _), he]⟩
  · intro wal
    rw [h.written wal]
    exact splice_congr hsame

/-- A batch stays one when an entry is appended behind the end of the log. -/
theorem append (h : Batch source request) {e : LogEntry}
    (hend : ∀ k e', source.get? k = some e' → k < e.slot) (hpos : 0 < e.slot) :
    Batch (source.append e) request := by
  refine h.congr ?_
  rw [WriteAheadLog.log_append]
  refine sameUpTo_append e ?_
  rcases h.reach with h0 | ⟨e', he'⟩
  · omega
  · exact hend _ e' he'

/-- **The anchor test is sound**: a follower whose log matches the source's and
holds the anchor agrees with the source up to it. -/
theorem sameUpTo_anchor (h : Batch source request) {wal : WriteAheadLog}
    (hmatch : LogsMatch source wal) (hanchor : Follower.AnchorMatches request wal) :
    SameUpTo source.log wal.log request.prevLogSlot := by
  rcases h.anchor with h0 | hterm
  · rw [h0]
    exact .zero _ _
  · rcases hanchor with h0 | hterm'
    · rw [h0]
      exact .zero _ _
    · obtain ⟨e, he, ht⟩ := WriteAheadLog.getTerm_eq_some_iff.mp hterm
      obtain ⟨e', he', ht'⟩ := WriteAheadLog.getTerm_eq_some_iff.mp hterm'
      exact hmatch _ e e' he he' (by rw [ht, ht'])

/-- A follower that writes a batch agrees with the source up to its reach. -/
theorem sameUpTo_written (h : Batch source request) {wal : WriteAheadLog}
    (hmatch : LogsMatch source wal) (hanchor : Follower.AnchorMatches request wal) :
    SameUpTo source.log (Follower.writtenWal request wal).log request.reach := by
  rw [h.written wal]
  exact sameUpTo_splice (h.sameUpTo_anchor hmatch hanchor)

/-- A follower that writes a batch matches whatever the source matches. -/
theorem matching_written (h : Batch source request) {wal wal' : WriteAheadLog}
    (hmatch : LogsMatch source wal) (hanchor : Follower.AnchorMatches request wal)
    (hother : LogsMatch source wal') : LogsMatch (Follower.writtenWal request wal) wal' := by
  rw [LogsMatch, h.written wal]
  exact hother.splice (h.sameUpTo_anchor hmatch hanchor) h.prev_le

end Batch
/-! ## The logs of a tenure -/

namespace Tenure

/-- Any two members' logs match. -/
def LogMatching (s : Tenure) : Prop :=
  (∀ p, LogsMatch s.wal (s.followerWal p)) ∧
    ∀ p q, LogsMatch (s.followerWal p) (s.followerWal q)

/-- No accept message is in flight. -/
def Idle (s : Tenure) : Prop := ∀ p, s.requests p = [] ∧ s.responses p = []

/-- The next slot is new: nothing of the leader's log stands above its log
position, and no follower holds an entry of the leader's term there. -/
def FreshSlot (s : Tenure) : Prop :=
  (∀ k e, s.wal.get? k = some e → k ≤ s.ctx.lastLogSlot) ∧
    ∀ p e, (s.followerWal p).get? (s.ctx.lastLogSlot + 1) = some e → e.term ≠ s.ctx.term

/-- What a step does to the logs: the leader appends an entry, the leader only
sends, or a follower answers a request. -/
inductive LogNext (s s' : Tenure) : Prop
  | appends (e : LogEntry) (hterm : e.term = s.ctx.term) (hslot : e.slot = s.ctx.lastLogSlot + 1)
      (hwal : s'.wal = s.wal.append e) (hlast : s'.ctx.lastLogSlot = s.ctx.lastLogSlot + 1)
      (hsame : s.ctx.SameMember s'.ctx) (hrequests : s'.requests = s.requests)
      (hfollowers : s'.followerCtx = s.followerCtx) (hresponses : s'.responses = s.responses)
  | ships (hwal : s'.wal = s.wal) (hlast : s'.ctx.lastLogSlot = s.ctx.lastLogSlot)
      (hsame : s.ctx.SameMember s'.ctx)
      (hrequests : ∀ p request, request ∈ s'.requests p →
        request ∈ s.requests p ∨ ∃ minNextTs, Leader.Sent s.ctx minNextTs request)
      (hfollowers : s'.followerCtx = s.followerCtx) (hresponses : s'.responses = s.responses)
  | answers (p : Uuid) (request : AcceptRequest) (f : Follower) (env : Env)
      (hrequest : request ∈ s.requests p)
      (hf : f.currentLeaderId = (s.follower p).currentLeaderId)
      (hanswered : Answered s s' p (f.handleAcceptRequest request (s.admittingCtx p request) env))

theorem Led.ships {s s' : Tenure} {a : Attempt (Leader × PaxosSharedContext)}
    {minNextTs : Option DateTime} (h : Led s s' a) (hr : Leader.Replicates s.ctx minNextTs a) :
    LogNext s s' := by
  refine .ships ?_ ?_ ?_ ?_ h.followerCtx h.responses
  · rw [wal, h.ctx, hr.wal]
  · rw [h.ctx, hr.lastLogSlot]
  · rw [h.ctx]
    exact hr.same
  · intro p request hmem
    rw [h.requests, List.mem_append] at hmem
    rcases hmem with hold | hnew
    · exact Or.inl hold
    · exact Or.inr ⟨minNextTs, hr.sent p request (mem_sentTo.mp hnew)⟩

/-- A client write appends an entry of the leader's term at the next slot, and
sends nothing. -/
theorem Led.append_spec {s s' : Tenure} {leader : Leader}
    {command : PaxosCommand ClientWriteRequest} {env : Env}
    (h : Led s s' (leader.handleClientWrite command s.ctx env)) :
    s'.wal = s.wal.append ⟨s.ctx.term, s.ctx.lastLogSlot + 1, command.request.value,
        (TrueTime.now (env.clock 0)).latest⟩ ∧
      s'.ctx.lastLogSlot = s.ctx.lastLogSlot + 1 ∧ s.ctx.SameMember s'.ctx ∧
      s'.requests = s.requests := by
  refine ⟨?_, ?_, ?_, ?_⟩
  · rw [wal, h.ctx]
    rfl
  · rw [h.ctx]
    rfl
  · rw [h.ctx]
    exact ⟨rfl, rfl, rfl, id⟩
  · funext p
    rw [h.requests]
    unfold Leader.handleClientWrite
    dsimp only
    split <;> simp [sentTo]

theorem Next.logNext {s s' : Tenure} {l : Label} (h : Next s s' l) : LogNext s s' := by
  cases h with
  | clientWrite leader hleader hled =>
    obtain ⟨hwal, hlast, hsame, hrequests⟩ := hled.append_spec
    exact .appends _ rfl rfl hwal hlast hsame hrequests hled.followerCtx hled.responses
  | writeFlush leader hleader hled => exact hled.ships (leader.handleWriteFlush_replicates _ _)
  | heartbeat leader hleader hled =>
    exact hled.ships (leader.handleHeartbeatTimer_replicates _ _)
  | timeoutCheck leader hleader hled =>
    exact hled.ships (leader.handleAcceptTimeoutCheck_replicates _ _)
  | deliverRequest request hrequest f hf hanswered =>
    exact .answers _ request f _ (List.mem_of_getElem? hrequest) hf hanswered
  | deliverResponse response hresponse leader hleader hterm hled =>
    exact hled.ships (leader.handleAcceptResponse_replicates _ _ response)

/-- Only a client write changes the leader's log. -/
theorem Next.wal_eq {s s' : Tenure} {l : Label} (h : Next s s' l)
    (hl : ∀ command env, l ≠ .clientWrite command env) : s'.wal = s.wal := by
  cases h with
  | clientWrite leader hleader hled => exact absurd rfl (hl _ _)
  | writeFlush leader hleader hled =>
    exact (congrArg _ hled.ctx).trans (leader.handleWriteFlush_replicates _ _).wal
  | heartbeat leader hleader hled =>
    exact (congrArg _ hled.ctx).trans (leader.handleHeartbeatTimer_replicates _ _).wal
  | timeoutCheck leader hleader hled => exact congrArg PaxosSharedContext.wal hled.ctx
  | deliverRequest request hrequest f hf hanswered =>
    exact congrArg PaxosSharedContext.wal hanswered.ctx
  | deliverResponse response hresponse leader hleader hterm hled =>
    exact (congrArg _ hled.ctx).trans (leader.handleAcceptResponse_replicates _ _ response).wal

/-- A slot of the leader's log that holds an entry goes on holding one. -/
theorem LogNext.get?_of_get? {s s' : Tenure} (h : LogNext s s') {k : Nat} {e : LogEntry}
    (he : s.wal.get? k = some e) : ∃ e', s'.wal.get? k = some e' := by
  cases h with
  | appends e' hterm hslot hwal =>
    rw [hwal, WriteAheadLog.get?_append]
    split
    · exact ⟨_, rfl⟩
    · exact ⟨e, he⟩
  | ships hwal => exact ⟨e, by rw [hwal, he]⟩
  | answers p request f env hrequest hf hanswered => exact ⟨e, by rw [wal, hanswered.ctx, he]⟩

/-- **What is under way stays a batch of the leader's log**, if the leader writes
behind the end of its log only. -/
theorem LogNext.batch {s s' : Tenure} (h : LogNext s s')
    (hlast : s'.wal ≠ s.wal → ∀ k e, s.wal.get? k = some e → k ≤ s.ctx.lastLogSlot) {p : Uuid}
    (hs : ∀ request ∈ s.requests p, Batch s.wal request) {request : AcceptRequest}
    (hmem : request ∈ s'.requests p) : Batch s'.wal request := by
  cases h with
  | appends e hterm hslot hwal _ hsame hrequests =>
    have hbatch := hs request (hrequests ▸ hmem)
    by_cases hkept : s'.wal = s.wal
    · rw [hkept]
      exact hbatch
    · rw [hwal]
      refine hbatch.append ?_ (by omega)
      intro k e' hk
      have hle := hlast hkept k e' hk
      omega
  | ships hwal _ hsame hrequests =>
    rw [hwal]
    rcases hrequests p request hmem with hold | ⟨minNextTs, hsent⟩
    · exact hs request hold
    · exact .of_sent hsent
  | answers q r f env hrequest hf hanswered =>
    rw [wal, hanswered.ctx]
    exact hs request (hanswered.requests ▸ hmem)

/-- The leader's log stays below its log position. -/
theorem LogNext.appendOnly {s s' : Tenure} (h : LogNext s s')
    (hs : ∀ k e, s.wal.get? k = some e → k ≤ s.ctx.lastLogSlot) :
    ∀ k e, s'.wal.get? k = some e → k ≤ s'.ctx.lastLogSlot := by
  intro k e he
  cases h with
  | appends e' hterm hslot hwal hlast =>
    rw [hwal, WriteAheadLog.get?_append] at he
    rw [hlast]
    split at he
    · omega
    · have hle := hs k e he
      omega
  | ships hwal hlast =>
    rw [hlast]
    exact hs k e (hwal ▸ he)
  | answers q request f env hrequest hf hanswered =>
    rw [wal, hanswered.ctx] at he
    rw [hanswered.ctx]
    exact hs k e he

/-- The leader's log matches every follower's, and every request is a batch of
it. -/
structure LogInv (s : Tenure) : Prop where
  matching : ∀ p, LogsMatch s.wal (s.followerWal p)
  batches : ∀ p request, request ∈ s.requests p → Batch s.wal request

theorem LogInv.start {s : Tenure} (hm : s.LogMatching) (hidle : s.Idle) : s.LogInv := by
  refine ⟨hm.1, ?_⟩
  intro p request hmem
  rw [(hidle p).1] at hmem
  cases hmem

/-- The logs after a follower has answered: its own, or the batch written into it. -/
theorem followerWal_of_answered {s s' : Tenure} {p : Uuid} {request : AcceptRequest}
    {f : Follower} {env : Env} (hf : f.currentLeaderId = (s.follower p).currentLeaderId)
    (h : Answered s s' p (f.handleAcceptRequest request (s.admittingCtx p request) env)) :
    (∀ q, q ≠ p → s'.followerWal q = s.followerWal q) ∧
      (s'.followerWal p = s.followerWal p ∨
        s.Writes p request env ∧
          s'.followerWal p = Follower.writtenWal request (s.followerWal p)) := by
  refine ⟨?_, ?_⟩
  · intro q hq
    rw [followerWal, h.followerCtx, Function.update_of_ne hq]
  · rw [followerWal, h.followerCtx, Function.update_self]
    obtain ⟨_, _, ⟨_, hwal, _⟩ | ⟨hwrites, hwal, _⟩⟩ := s.answer_cases request env hf
    · exact Or.inl hwal
    · exact Or.inr ⟨hwrites, hwal⟩

/-- **Whatever matches the leader's log and a follower's matches the follower's
afterwards**: it writes a stretch of the leader's log, or nothing. -/
theorem LogInv.matching_answered {s s' : Tenure} (hs : s.LogInv) {p : Uuid}
    {request : AcceptRequest} {f : Follower} {env : Env} (hrequest : request ∈ s.requests p)
    (hf : f.currentLeaderId = (s.follower p).currentLeaderId)
    (h : Answered s s' p (f.handleAcceptRequest request (s.admittingCtx p request) env))
    {wal : WriteAheadLog} (hleader : LogsMatch s.wal wal)
    (hfollower : LogsMatch (s.followerWal p) wal) : LogsMatch (s'.followerWal p) wal := by
  obtain ⟨_, hown⟩ := followerWal_of_answered hf h
  rcases hown with hkept | ⟨hwrites, hwritten⟩
  · rwa [hkept]
  · rw [hwritten]
    exact (hs.batches p request hrequest).matching_written (hs.matching p) hwrites.2 hleader

/-- **Matching and batches survive every step** that appends at a new slot only. -/
theorem LogInv.step {s s' : Tenure} (hs : s.LogInv) (h : LogNext s s')
    (hfresh : s'.wal ≠ s.wal → s.FreshSlot) : s'.LogInv := by
  refine ⟨?_, fun p request => h.batch (fun hne => (hfresh hne).1) (hs.batches p)⟩
  cases h with
  | appends e hterm hslot hwal hlast hsame hrequests hfollowers =>
    intro p
    rw [followerWal, hfollowers]
    by_cases hkept : s'.wal = s.wal
    · rw [hkept]
      exact hs.matching p
    · obtain ⟨hend, hnew⟩ := hfresh hkept
      rw [LogsMatch, hwal, WriteAheadLog.log_append]
      refine (hs.matching p).append ?_ ?_
      · intro k e' hk
        have hle := hend k e' hk
        omega
      · intro e' he'
        rw [hterm]
        exact hnew p e' (hslot ▸ he')
  | ships hwal hlast hsame hrequests hfollowers =>
    intro p
    rw [hwal, followerWal, hfollowers]
    exact hs.matching p
  | answers p request f env hrequest hf hanswered =>
    obtain ⟨hother, _⟩ := followerWal_of_answered hf hanswered
    intro q
    rw [wal, hanswered.ctx]
    by_cases hq : q = p
    · subst hq
      exact (hs.matching_answered hrequest hf hanswered (.refl _) (hs.matching q).symm).symm
    · rw [hother q hq]
      exact hs.matching q

/-- The invariant of a tenure whose logs match: matching logs and batches, every
entry of the leader's term is the leader's, and nothing stands above the leader's
log position. -/
structure MatchInv (s : Tenure) : Prop where
  logs : s.LogInv
  followers : ∀ p q, LogsMatch (s.followerWal p) (s.followerWal q)
  own : ∀ p k e, 1 ≤ k → (s.followerWal p).get? k = some e → e.term = s.ctx.term →
    s.wal.get? k = some e
  last : ∀ k e, s.wal.get? k = some e → k ≤ s.ctx.lastLogSlot

theorem MatchInv.freshSlot {s : Tenure} (hs : s.MatchInv) : s.FreshSlot := by
  refine ⟨hs.last, ?_⟩
  intro p e he hterm
  have hle := hs.last _ e (hs.own p _ e (by omega) he hterm)
  omega

/-- An entry of the leader's term that a follower holds after an answer has come
from the leader, with the answered request or before. -/
theorem MatchInv.own_answered {s s' : Tenure} (hs : s.MatchInv) {p : Uuid}
    {request : AcceptRequest} {f : Follower} {env : Env} (hrequest : request ∈ s.requests p)
    (hf : f.currentLeaderId = (s.follower p).currentLeaderId)
    (h : Answered s s' p (f.handleAcceptRequest request (s.admittingCtx p request) env))
    {k : Nat} {e : LogEntry} (hk : 1 ≤ k) (he : (s'.followerWal p).get? k = some e)
    (ht : e.term = s.ctx.term) : s.wal.get? k = some e := by
  have hbatch := hs.logs.batches p request hrequest
  obtain ⟨_, hkept | ⟨hwrites, hwritten⟩⟩ := followerWal_of_answered hf h
  · exact hs.own p k e hk (hkept ▸ he) ht
  · have hcaught := hbatch.sameUpTo_written (hs.logs.matching p) hwrites.2
    rw [hwritten] at he
    -- nothing is left above what the request reaches
    have hreach : k ≤ request.reach := by
      have hsplice := congrFun (hbatch.written (s.followerWal p)) k
      rw [WriteAheadLog.log, he] at hsplice
      exact le_of_splice hbatch.prev_le hsplice.symm
    rw [← he]
    exact hcaught k hk hreach

theorem MatchInv.step {s s' : Tenure} (hs : s.MatchInv) (h : LogNext s s') : s'.MatchInv := by
  have hlogs := hs.logs.step h fun _ => hs.freshSlot
  have hlast := h.appendOnly hs.last
  cases h with
  | appends e hterm hslot hwal _ hsame hrequests hfollowers hresponses =>
    refine ⟨hlogs, ?_, ?_, hlast⟩
    · rw [show s'.followerWal = s.followerWal from funext fun p => by
        rw [followerWal, hfollowers]]
      exact hs.followers
    · intro p k e' hk he' ht
      rw [followerWal, hfollowers] at he'
      rw [hsame.term] at ht
      have hold := hs.own p k e' hk he' ht
      have hle := hs.last k e' hold
      rw [hwal, WriteAheadLog.get?_append, if_neg (by omega)]
      exact hold
  | ships hwal _ hsame hrequests hfollowers hresponses =>
    refine ⟨hlogs, ?_, ?_, hlast⟩
    · intro p q
      rw [followerWal, followerWal, hfollowers]
      exact hs.followers p q
    · intro p k e hk he ht
      rw [followerWal, hfollowers] at he
      rw [hsame.term] at ht
      rw [hwal]
      exact hs.own p k e hk he ht
  | answers p request f env hrequest hf hanswered =>
    obtain ⟨hother, _⟩ := followerWal_of_answered hf hanswered
    have hnew : ∀ r, LogsMatch (s'.followerWal p) (s.followerWal r) := fun r =>
      hs.logs.matching_answered hrequest hf hanswered (hs.logs.matching r) (hs.followers p r)
    refine ⟨hlogs, ?_, ?_, hlast⟩
    · intro q r
      by_cases hq : q = p
      · subst hq
        by_cases hr : r = q
        · subst hr
          exact .refl _
        · rw [hother r hr]
          exact hnew r
      · rw [hother q hq]
        by_cases hr : r = p
        · subst hr
          exact (hnew q).symm
        · rw [hother r hr]
          exact hs.followers q r
    · intro q k e hk he ht
      rw [wal, hanswered.ctx]
      rw [hanswered.ctx] at ht
      by_cases hq : q = p
      · subst hq
        exact hs.own_answered hrequest hf hanswered hk he ht
      · exact hs.own q k e hk (hother q hq ▸ he) ht

/-- Where a tenure may start for its logs to match throughout. -/
structure MatchingStart (s : Tenure) : Prop where
  matching : s.LogMatching
  /-- No follower holds an entry of the leader's term that the leader lacks. -/
  noNewer : ∀ p k e, (s.followerWal p).get? k = some e → e.term = s.ctx.term →
    ∃ e', s.wal.get? k = some e' ∧ e'.term = s.ctx.term
  /-- The leader's log is contiguous from slot 1 to its log position. -/
  contiguous : ∀ k, (∃ e, s.wal.get? k = some e) ↔ 1 ≤ k ∧ k ≤ s.ctx.lastLogSlot
  idle : s.Idle

theorem MatchingStart.matchInv {s : Tenure} (h : s.MatchingStart) : s.MatchInv where
  logs := .start h.matching h.idle
  followers := h.matching.2
  own p k e hk he ht := by
    obtain ⟨e', he', ht'⟩ := h.noNewer p k e he ht
    rw [← (h.matching.1 p).entry_eq hk he' he (by rw [ht, ht'])]
    exact he'
  last k e he := ((h.contiguous k).mp ⟨e, he⟩).2

/-- **Log matching**, in every state a tenure reaches. -/
theorem logMatching_of_reaches {s t : Tenure} (h : s.MatchingStart)
    (hrun : Reaches Tenure.step s t) : t.LogMatching := by
  have hinv : t.MatchInv :=
    hrun.invariant h.matchInv fun _ _ _ ha _ hstep => ha.step (step_next hstep).logNext
  exact ⟨hinv.logs.matching, hinv.followers⟩

theorem fresh_matchingStart : fresh.MatchingStart where
  matching := by
    refine ⟨?_, ?_⟩
    · intro p k e e' he
      cases he
    · intro p q k e e' he
      cases he
  noNewer _ _ _ he := by cases he
  contiguous k := by
    constructor
    · rintro ⟨e, he⟩
      cases he
    · intro hk
      have hlast : fresh.ctx.lastLogSlot = 0 := rfl
      omega
  idle _ := ⟨rfl, rfl⟩

/-- The logs match once the first write has reached the follower. -/
theorem logMatching_of_reaches_first :
    ∃ t, exec Tenure.step fresh [write "a" (Duration.seconds 1),
        .writeFlush (.steady (Duration.seconds 1)),
        .deliverRequest 2 0 (.steady (Duration.seconds 2))] = some t ∧
      t.followerWal 2 = t.wal ∧ (t.wal.get? 1).isSome = true ∧ t.LogMatching :=
  ⟨_, rfl, rfl, rfl, logMatching_of_reaches fresh_matchingStart (Runs.of_exec
    [write "a" (Duration.seconds 1), .writeFlush (.steady (Duration.seconds 1)),
      .deliverRequest 2 0 (.steady (Duration.seconds 2))] rfl)⟩

end Tenure
end SpannerPaxos
