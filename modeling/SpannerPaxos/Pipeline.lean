import SpannerPaxos.Anchors
import Mathlib.Data.List.Chain

/-! # Pipelined batches

The leader sends a batch without waiting for the acknowledgement of the one before it, and
remembers in `sent_slot` how far it has come.  Every batch goes to the end of the log, and
an acknowledgement never reaches further than what has been sent, so the next batch is to
start behind `sent_slot`.  It does so if `sent_slot` is above `next_slot`, and if
`next_slot` is right behind it; where the two are equal, the last slot is sent again.
-/
namespace SpannerPaxos

/-! ## Batches in sequence -/

/-- The slots of a request's entries. -/
def AcceptRequest.slots (request : AcceptRequest) : List Nat :=
  request.entries.map AcceptLogEntry.slot

/-- The batch starts right behind the highest slot of the one before, and has no gaps. -/
def Follows (before batch : List Nat) : Prop :=
  ∃ highest, before.max? = some highest ∧ batch = List.range' (highest + 1) batch.length

/-- Every batch follows the one before it, so that behind the first one no slot is sent
twice, and none is skipped. -/
structure InSequence (batches : List (List Nat)) : Prop where
  follows : batches.IsChain Follows
  once : ∀ first rest highest, batches = first :: rest → first.max? = some highest →
    rest.flatten = List.range' (highest + 1) rest.flatten.length

theorem max?_range' (start n : Nat) : (List.range' start (n + 1)).max? = some (start + n) := by
  rw [List.max?_eq_some_iff]
  refine ⟨?_, fun k hk => ?_⟩
  · rw [List.mem_range'_1]
    omega
  · rw [List.mem_range'_1] at hk
    omega

/-- Batches that follow each other are one range. -/
theorem flatten_of_follows {first : List Nat} {rest : List (List Nat)} {highest : Nat}
    (hchain : (first :: rest).IsChain Follows) (hne : ∀ batch ∈ rest, batch ≠ [])
    (hmax : first.max? = some highest) :
    rest.flatten = List.range' (highest + 1) rest.flatten.length := by
  induction rest generalizing first highest with
  | nil => rfl
  | cons batch rest ih =>
    rw [List.isChain_cons_cons] at hchain
    obtain ⟨⟨highest', hmax', hbatch⟩, hrest⟩ := hchain
    cases Option.some.inj (hmax'.symm.trans hmax)
    obtain ⟨n, hn⟩ : ∃ n, batch.length = n + 1 := by
      refine Nat.exists_eq_succ_of_ne_zero fun hzero => ?_
      exact hne batch List.mem_cons_self (List.length_eq_zero_iff.mp hzero)
    rw [hn] at hbatch
    have hflatten := ih hrest (fun b hb => hne b (List.mem_cons_of_mem _ hb))
      (by rw [hbatch, max?_range'])
    rw [List.flatten_cons, List.length_append, hflatten, List.length_range', hn]
    conv_lhs => rw [hbatch]
    rw [show highest + 1 + n + 1 = highest + 1 + (n + 1) by omega, List.range'_append_1]

theorem inSequence_iff {batches : List (List Nat)} (hne : ∀ batch ∈ batches, batch ≠ []) :
    InSequence batches ↔ batches.IsChain Follows := by
  refine ⟨InSequence.follows, fun hchain => ⟨hchain, ?_⟩⟩
  rintro first rest highest rfl hmax
  exact flatten_of_follows hchain (fun b hb => hne b (List.mem_cons_of_mem _ hb)) hmax

namespace Leader
variable {ctx : PaxosSharedContext} {last : Nat}

/-- A request ships the entries of the log behind its anchor. -/
theorem mem_makeAcceptRequest_slots {prevLogSlot prevLogTerm : Nat} {minNextTs : Option DateTime}
    {utc : DateTime} {slot : Nat} :
    slot ∈ (makeAcceptRequest ctx prevLogSlot prevLogTerm minNextTs utc).slots ↔
      prevLogSlot < slot ∧ ∃ e, ctx.wal.get? slot = some e := by
  unfold AcceptRequest.slots makeAcceptRequest
  dsimp only
  rw [List.map_map, List.mem_map]
  constructor
  · rintro ⟨e, he, rfl⟩
    obtain ⟨hle, hget⟩ := (ctx.wal.mem_getEntriesFrom).mp he
    exact ⟨hle, e, hget⟩
  · rintro ⟨hlt, e, he⟩
    have hslot := WriteAheadLog.slot_of_get? he
    exact ⟨e, (ctx.wal.mem_getEntriesFrom).mpr ⟨by omega, hslot ▸ he⟩, hslot⟩

/-- Behind an anchor from which on the log has no gaps, they stand at consecutive slots. -/
theorem makeAcceptRequest_slots {prevLogSlot prevLogTerm : Nat} {minNextTs : Option DateTime}
    {utc : DateTime}
    (h : ∀ k, prevLogSlot + 1 ≤ k → ((∃ e, ctx.wal.get? k = some e) ↔ k ≤ last)) :
    (makeAcceptRequest ctx prevLogSlot prevLogTerm minNextTs utc).slots =
      List.range' (prevLogSlot + 1) (last - prevLogSlot) := by
  unfold AcceptRequest.slots makeAcceptRequest
  dsimp only
  rw [List.map_map]
  have hslots := ctx.wal.getEntriesFrom_range h
  rw [Nat.add_sub_add_right] at hslots
  exact hslots

/-- A request reaches the end of the log, or its anchor if it has no entries. -/
theorem makeAcceptRequest_reach (hwal : ctx.wal.EndsAt last) {prevLogSlot prevLogTerm : Nat}
    {minNextTs : Option DateTime} {utc : DateTime} :
    (makeAcceptRequest ctx prevLogSlot prevLogTerm minNextTs utc).reach =
      if (makeAcceptRequest ctx prevLogSlot prevLogTerm minNextTs utc).slots = [] then prevLogSlot
      else last := by
  unfold AcceptRequest.reach AcceptRequest.slots
  cases hlast : (makeAcceptRequest ctx prevLogSlot prevLogTerm minNextTs utc).entries.getLast? with
  | none =>
    rw [List.getLast?_eq_none_iff.mp hlast]
    rfl
  | some log =>
    rw [if_neg]
    · exact makeAcceptRequest_getLast? hwal hlast
    · rw [List.map_eq_nil_iff]
      intro hnil
      rw [hnil] at hlast
      cases hlast

end Leader

namespace Tenure

/-- The batches of the requests: a request without entries has none. -/
def batchesOf (requests : List AcceptRequest) : List (List Nat) :=
  (requests.map AcceptRequest.slots).filter fun batch => decide (batch ≠ [])

@[simp] theorem batchesOf_append (requests sent : List AcceptRequest) :
    batchesOf (requests ++ sent) = batchesOf requests ++ batchesOf sent := by
  rw [batchesOf, List.map_append, List.filter_append]
  rfl

theorem ne_nil_of_mem_batchesOf {requests : List AcceptRequest} {batch : List Nat}
    (h : batch ∈ batchesOf requests) : batch ≠ [] :=
  of_decide_eq_true (List.mem_filter.mp h).2

/-- The batches sent to the follower since `s₀`. -/
def batchesSince (s₀ s : Tenure) (q : Uuid) : List (List Nat) :=
  batchesOf ((s.requests q).drop (s₀.requests q).length)

/-- The label makes this leader dispatch to every follower. -/
def Label.Dispatches (leader : Leader) : Label → Prop
  | .writeFlush _ => leader.pendingWriteCount ≠ 0
  | .heartbeat _ => True
  | _ => False

/-- No rejection of the follower, and no timeout of a batch for it. -/
def Smooth (s : Tenure) (q : Uuid) : Label → Prop
  | .timeoutCheck env => ∀ leader fs, s.leader = some leader →
    leader.scoreBoard.get? q = some fs → Leader.isTimedOut (env.clock 0) fs = false
  | .deliverResponse p i _ => ∀ response, (s.responses p)[i]? = some response →
    response.memberId = q → response.success = true
  | _ => True

/-- After the first batch since `s₀`, the leader dispatches to the follower only where what
has been sent does not end at `next_slot`. -/
def Ahead (s₀ s : Tenure) (q : Uuid) (l : Label) : Prop :=
  batchesSince s₀ s q ≠ [] → ∀ leader fs, s.leader = some leader →
    leader.scoreBoard.get? q = some fs → l.Dispatches leader →
    fs.logPosition.sentSlot ≠ fs.logPosition.nextSlot

/-- A tenure at its start: the log position is that of the highest entry, the follower is
on the board, and no follower has answered yet. -/
structure PipelineStart (s : Tenure) (q : Uuid) : Prop where
  wal : s.wal.EndsAt s.ctx.lastLogSlot
  board : ∀ leader, s.leader = some leader → ∃ fs, leader.scoreBoard.get? q = some fs
  /-- A follower's context carries the follower's own id. -/
  ids : ∀ p, (s.followerCtx p).memberId = p
  /-- The recovered entries may be under way. -/
  requests : ∀ p, ∀ request ∈ s.requests p, request.reach ≤ s.ctx.lastLogSlot
  responses : ∀ p, s.responses p = []

/-- What a tenure keeps of the log and of the messages under way. -/
structure PipelineInv (s : Tenure) (q : Uuid) : Prop where
  wal : s.wal.EndsAt s.ctx.lastLogSlot
  board : ∀ leader, s.leader = some leader → ∃ fs, leader.scoreBoard.get? q = some fs
  ids : ∀ p, (s.followerCtx p).memberId = p
  requests : ∀ p, ∀ request ∈ s.requests p, request.reach ≤ s.ctx.lastLogSlot
  responses : ∀ p, ∀ response ∈ s.responses p, response.memberId = p ∧
    (response.success = true → ∃ request ∈ s.requests p, response.lastWrittenSlot = request.reach)

variable {s s' : Tenure} {q : Uuid} {l : Label}

theorem PipelineStart.inv (h : s.PipelineStart q) : s.PipelineInv q where
  wal := h.wal
  board := h.board
  ids := h.ids
  requests := h.requests
  responses p response hmem := by
    rw [h.responses p] at hmem
    cases hmem

/-! ## What a step does -/

/-- The log and its position stay, or get one entry more. -/
def Grows (ctx ctx' : PaxosSharedContext) : Prop :=
  (ctx'.wal = ctx.wal ∧ ctx'.lastLogSlot = ctx.lastLogSlot) ∨
    ∃ e, e.slot = ctx.lastLogSlot + 1 ∧ ctx'.wal = ctx.wal.append e ∧
      ctx'.lastLogSlot = ctx.lastLogSlot + 1

theorem Grows.endsAt {ctx ctx' : PaxosSharedContext} (h : Grows ctx ctx')
    (hwal : ctx.wal.EndsAt ctx.lastLogSlot) : ctx'.wal.EndsAt ctx'.lastLogSlot := by
  rcases h with ⟨hsame, hlast⟩ | ⟨e, hslot, happend, hlast⟩
  · rw [hsame, hlast]
    exact hwal
  · rw [happend, hlast]
    exact hwal.append hslot

theorem Grows.le {ctx ctx' : PaxosSharedContext} (h : Grows ctx ctx') :
    ctx.lastLogSlot ≤ ctx'.lastLogSlot := by
  rcases h with ⟨_, hlast⟩ | ⟨_, _, _, hlast⟩ <;> omega

/-- The leader has handled the event of a label with the method `a`. -/
structure LedBy (s s' : Tenure) (l : Label) (leader : Leader) (event : PaxosEvent)
    (a : Attempt (Leader × PaxosSharedContext)) : Prop where
  leads : s.leader = some leader
  led : Led s s' a
  moves : leader.Moves s.ctx event a
  grows : Grows s.ctx a.state.2
  sent : ∀ p, ∀ request ∈ sentTo p a.effects, ∃ minNextTs, Leader.Sent s.ctx minNextTs request
  response : ∀ response, event = .acceptResponseReceived response →
    ∃ p i env, l = .deliverResponse p i env ∧ (s.responses p)[i]? = some response
  check : event = .acceptTimeoutCheckFired → ∃ env, l = .timeoutCheck env ∧
    a = .ok (leader.handleAcceptTimeoutCheck env, s.ctx)
  dispatches : ∀ p, sentTo p a.effects ≠ [] →
    l.Dispatches leader ∨ ∃ response, event = .acceptResponseReceived response

theorem LedBy.of_replicates {leader : Leader} {event : PaxosEvent}
    {a : Attempt (Leader × PaxosSharedContext)} {minNextTs : Option DateTime}
    (hleader : s.leader = some leader) (hled : Led s s' a) (hmoves : leader.Moves s.ctx event a)
    (hreplicates : Leader.Replicates s.ctx minNextTs a)
    (hresponse : ∀ response, event = .acceptResponseReceived response →
      ∃ p i env, l = .deliverResponse p i env ∧ (s.responses p)[i]? = some response)
    (hcheck : event = .acceptTimeoutCheckFired → ∃ env, l = .timeoutCheck env ∧
      a = .ok (leader.handleAcceptTimeoutCheck env, s.ctx))
    (hdispatches : ∀ p, sentTo p a.effects ≠ [] →
      l.Dispatches leader ∨ ∃ response, event = .acceptResponseReceived response) :
    LedBy s s' l leader event a where
  leads := hleader
  led := hled
  moves := hmoves
  grows := Or.inl ⟨hreplicates.wal, hreplicates.lastLogSlot⟩
  sent p request hmem := ⟨minNextTs, hreplicates.sent p request (mem_sentTo.mp hmem)⟩
  response := hresponse
  check := hcheck
  dispatches := hdispatches

/-- A step is the leader's, or a follower answers a request. -/
theorem Next.ledBy_or_answered (h : Next s s' l) :
    (∃ leader event a, LedBy s s' l leader event a) ∨
    ∃ p i env request, ∃ f : Follower, l = .deliverRequest p i env ∧
      (s.requests p)[i]? = some request ∧
      f.currentLeaderId = (s.follower p).currentLeaderId ∧
      Answered s s' p (f.handleAcceptRequest request (s.admittingCtx p request) env) := by
  cases h with
  | clientWrite leader hleader hled =>
    rename_i command env
    have hnone : ∀ p, sentTo p (leader.handleClientWrite command s.ctx env).effects = [] := by
      intro p
      unfold Leader.handleClientWrite
      dsimp only
      split <;> rfl
    refine Or.inl ⟨leader, _, _, hleader, hled, leader.handleClientWrite_moves s.ctx env command,
      Or.inr ⟨_, rfl, rfl, rfl⟩, ?_, by simp, by simp, ?_⟩
    · intro p request hmem
      rw [hnone p] at hmem
      cases hmem
    · exact fun p hne => absurd (hnone p) hne
  | writeFlush leader hleader hled =>
    rename_i env
    refine Or.inl ⟨leader, _, _, .of_replicates hleader hled
      (leader.handleWriteFlush_moves s.ctx env) (leader.handleWriteFlush_replicates s.ctx env)
      (by simp) (by simp) ?_⟩
    intro p hne
    refine Or.inl fun hzero => hne ?_
    unfold Leader.handleWriteFlush
    rw [if_pos hzero]
    rfl
  | heartbeat leader hleader hled =>
    rename_i env
    exact Or.inl ⟨leader, _, _, .of_replicates hleader hled
      (leader.handleHeartbeatTimer_moves s.ctx env)
      (leader.handleHeartbeatTimer_replicates s.ctx env) (by simp) (by simp)
      fun _ _ => Or.inl trivial⟩
  | timeoutCheck leader hleader hled =>
    rename_i env
    exact Or.inl ⟨leader, _, _, .of_replicates hleader hled
      (leader.handleAcceptTimeoutCheck_moves s.ctx env)
      (leader.handleAcceptTimeoutCheck_replicates s.ctx env) (by simp) (fun _ => ⟨env, rfl, rfl⟩)
      fun _ hne => absurd rfl hne⟩
  | deliverResponse response hresponse leader hleader hterm hled =>
    rename_i p i env
    refine Or.inl ⟨leader, _, _, .of_replicates hleader hled
      (leader.handleAcceptResponse_moves s.ctx env response)
      (leader.handleAcceptResponse_replicates s.ctx env response) ?_ (by simp)
      fun _ _ => Or.inr ⟨response, rfl⟩⟩
    intro response' hevent
    cases hevent
    exact ⟨p, i, env, rfl, hresponse⟩
  | deliverRequest request hrequest f hf hanswered =>
    exact Or.inr ⟨_, _, _, request, f, rfl, hrequest, hf, hanswered⟩

/-- No request that is sent reaches further than the log. -/
theorem LedBy.reach_le {leader : Leader} {event : PaxosEvent}
    {a : Attempt (Leader × PaxosSharedContext)} (h : LedBy s s' l leader event a)
    (hwal : s.wal.EndsAt s.ctx.lastLogSlot) {p : Uuid} {request : AcceptRequest}
    (hmem : request ∈ sentTo p a.effects) : request.reach ≤ s.ctx.lastLogSlot := by
  obtain ⟨minNextTs, prevLogSlot, prevLogTerm, utc, hanchor, rfl⟩ := h.sent p request hmem
  rw [Leader.makeAcceptRequest_reach hwal]
  split
  · exact Leader.prevLogSlot_le hwal hanchor
  · exact le_refl _

theorem PipelineInv.led {leader : Leader} {event : PaxosEvent}
    {a : Attempt (Leader × PaxosSharedContext)} (hs : s.PipelineInv q)
    (h : LedBy s s' l leader event a) : s'.PipelineInv q := by
  have hctx := h.led.ctx
  refine ⟨?_, ?_, ?_, ?_, ?_⟩
  · rw [Tenure.wal, hctx]
    exact h.grows.endsAt hs.wal
  · intro leader' hleader'
    obtain ⟨fs, hget⟩ := hs.board leader h.leads
    obtain ⟨fs', hget', _⟩ := h.moves q fs hget
    rcases h.led.leader with hnew | hnew
    · rw [hnew] at hleader'
      cases hleader'
      exact ⟨fs', hget'⟩
    · rw [hnew] at hleader'
      cases hleader'
  · intro p
    rw [h.led.followerCtx]
    exact hs.ids p
  · intro p request hmem
    rw [h.led.requests p, List.mem_append] at hmem
    rw [hctx]
    refine Nat.le_trans ?_ h.grows.le
    rcases hmem with hold | hnew
    · exact hs.requests p request hold
    · exact h.reach_le hs.wal hnew
  · intro p response hmem
    rw [h.led.responses] at hmem
    obtain ⟨hid, hsuccess⟩ := hs.responses p response hmem
    refine ⟨hid, fun hok => ?_⟩
    obtain ⟨request, hrequest, hreach⟩ := hsuccess hok
    refine ⟨request, ?_, hreach⟩
    rw [h.led.requests p]
    exact List.mem_append_left _ hrequest

/-- A success acknowledges the request that is answered. -/
theorem PipelineInv.answered {p : Uuid} {i : Nat} {env : Env} {request : AcceptRequest}
    {f : Follower} (hs : s.PipelineInv q) (hids : ∀ r, (s'.followerCtx r).memberId = r)
    (hrequest : (s.requests p)[i]? = some request)
    (hf : f.currentLeaderId = (s.follower p).currentLeaderId)
    (h : Answered s s' p (f.handleAcceptRequest request (s.admittingCtx p request) env)) :
    s'.PipelineInv q := by
  have hcases := s.answer_cases request env hf
  refine ⟨?_, ?_, hids, ?_, ?_⟩
  · rw [Tenure.wal, h.ctx]
    exact hs.wal
  · rw [h.leader]
    exact hs.board
  · rw [h.requests, h.ctx]
    exact hs.requests
  · intro r response hmem
    rw [h.responses] at hmem
    rw [h.requests]
    by_cases hr : r = p
    · subst hr
      rw [Function.update_self, List.mem_append] at hmem
      rcases hmem with hold | hnew
      · exact hs.responses r response hold
      · rw [List.mem_singleton.mp hnew]
        refine ⟨hcases.1.trans (hs.ids r), fun hok => ?_⟩
        rcases hcases.2.2 with ⟨_, _, hfail⟩ | ⟨_, _, _, hreach⟩
        · rw [hok] at hfail
          cases hfail
        · exact ⟨request, List.mem_of_getElem? hrequest, hreach⟩
    · rw [Function.update_of_ne hr] at hmem
      exact hs.responses r response hmem

theorem PipelineInv.step (hs : s.PipelineInv q) (h : Next s s' l) : s'.PipelineInv q := by
  rcases h.ledBy_or_answered with
    ⟨leader, event, a, hled⟩ | ⟨p, i, env, request, f, _, hrequest, hf, hanswered⟩
  · exact hs.led hled
  · exact hs.answered (fun r => (h.followerId r).trans (hs.ids r)) hrequest hf hanswered

/-! ## What is sent to one follower -/

/-- The last batch ends at `sent_slot`, the log has no gaps from there on, the next probe is
no further than right behind it, and no request reaches further. -/
structure CaughtUp (ctx : PaxosSharedContext) (batches : List (List Nat))
    (requests : List AcceptRequest) (fs : FollowerState) : Prop where
  ends : ∃ batch, batches.getLast? = some batch ∧ batch.max? = some fs.logPosition.sentSlot
  sent_pos : 0 < fs.logPosition.sentSlot
  sent_le : fs.logPosition.sentSlot ≤ ctx.lastLogSlot
  held : ∀ slot, fs.logPosition.sentSlot ≤ slot → slot ≤ ctx.lastLogSlot →
    ∃ e, ctx.wal.get? slot = some e
  next_le : fs.logPosition.nextSlot ≤ fs.logPosition.sentSlot + 1
  reach_le : ∀ request ∈ requests, request.reach ≤ fs.logPosition.sentSlot

variable {ctx ctx' : PaxosSharedContext} {batches : List (List Nat)}
  {requests sent : List AcceptRequest} {fs fs' : FollowerState}

theorem CaughtUp.grow (h : CaughtUp ctx batches requests fs) (hgrows : Grows ctx ctx') :
    CaughtUp ctx' batches requests fs where
  ends := h.ends
  sent_pos := h.sent_pos
  sent_le := Nat.le_trans h.sent_le hgrows.le
  held slot hge hle := by
    rcases hgrows with ⟨hwal, hlast⟩ | ⟨e, hslot, hwal, hlast⟩
    · rw [hwal]
      exact h.held slot hge (by omega)
    · rw [hwal, WriteAheadLog.get?_append]
      split
      · exact ⟨e, rfl⟩
      · exact h.held slot hge (by omega)
  next_le := h.next_le
  reach_le := h.reach_le

theorem prevLogSlot_eq (fs : FollowerState) : fs.prevLogSlot =
    if fs.logPosition.sentSlot > fs.logPosition.nextSlot then fs.logPosition.sentSlot
    else fs.logPosition.nextSlot - 1 := rfl

/-- The next batch goes on behind `sent_slot`, unless that is at the next slot. -/
theorem CaughtUp.prevLogSlot (h : CaughtUp ctx batches requests fs)
    (hahead : fs.logPosition.sentSlot ≠ fs.logPosition.nextSlot) :
    fs.prevLogSlot = fs.logPosition.sentSlot := by
  have hnext := h.next_le
  rw [prevLogSlot_eq]
  split <;> omega

theorem batchesOf_singleton (request : AcceptRequest) :
    batchesOf [request] = if request.slots = [] then [] else [request.slots] := by
  unfold batchesOf
  by_cases hnil : request.slots = []
  · rw [if_pos hnil, List.map_cons, List.filter_cons_of_neg (by simp [hnil])]
    rfl
  · rw [if_neg hnil, List.map_cons, List.filter_cons_of_pos (by simp [hnil])]
    rfl

section Batch
variable {minNextTs : Option DateTime} {prevLogTerm : Nat} {utc : DateTime}
  {request : AcceptRequest}

/-- A batch anchored at `sent_slot` follows the last one. -/
theorem CaughtUp.follows (h : CaughtUp ctx batches requests fs) (hsame : ctx'.wal = ctx.wal)
    (hwal : ctx.wal.EndsAt ctx.lastLogSlot)
    (hrequest : request = Leader.makeAcceptRequest ctx' fs.prevLogSlot prevLogTerm minNextTs utc)
    (hanchored : fs.prevLogSlot = fs.logPosition.sentSlot) :
    ∀ before ∈ batches.getLast?, Follows before request.slots := by
  intro before hbefore
  obtain ⟨before', hbefore', hmax⟩ := h.ends
  cases Option.some.inj (hbefore'.symm.trans hbefore)
  refine ⟨_, hmax, ?_⟩
  have hrange : request.slots =
      List.range' (fs.prevLogSlot + 1) (ctx.lastLogSlot - fs.prevLogSlot) := by
    rw [hrequest]
    refine Leader.makeAcceptRequest_slots fun k hk => ?_
    rw [hsame]
    refine ⟨?_, fun hle => ?_⟩
    · rintro ⟨e, he⟩
      exact hwal.le k e he
    · exact h.held k (by omega) hle
  rw [hrange, List.length_range', hanchored]

/-- After a batch `sent_slot` is at the end of the log. -/
theorem caughtUp_of_sent (hsame : ctx'.wal = ctx.wal) (hwal : ctx.wal.EndsAt ctx.lastLogSlot)
    (hreach : ∀ r ∈ requests, r.reach ≤ ctx.lastLogSlot)
    (hrequest : request = Leader.makeAcceptRequest ctx' fs.prevLogSlot prevLogTerm minNextTs utc)
    (hne : request.slots ≠ []) :
    CaughtUp ctx (batches ++ [request.slots]) (requests ++ [request])
      (fs.recordSent request.entries.getLast? request.tSend) := by
  have hwal' : ctx'.wal.EndsAt ctx.lastLogSlot := hsame.symm ▸ hwal
  have hslot : ∀ slot, slot ∈ request.slots ↔
      fs.prevLogSlot < slot ∧ ∃ e, ctx.wal.get? slot = some e := by
    intro slot
    rw [hrequest, ← hsame]
    exact Leader.mem_makeAcceptRequest_slots
  have hreaches : request.reach = ctx.lastLogSlot := by
    rw [hrequest] at hne ⊢
    rw [Leader.makeAcceptRequest_reach hwal', if_neg hne]
  obtain ⟨log, hlast⟩ : ∃ log, request.entries.getLast? = some log :=
    Option.ne_none_iff_exists'.mp fun hnone =>
      hne (List.map_eq_nil_iff.mpr (List.getLast?_eq_none_iff.mp hnone))
  have hlog : log.slot = ctx.lastLogSlot := by
    rw [hrequest] at hlast
    exact Leader.makeAcceptRequest_getLast? hwal' hlast
  have hmem : ctx.lastLogSlot ∈ request.slots :=
    hlog ▸ List.mem_map_of_mem (List.mem_of_getLast? hlast)
  obtain ⟨hlt, hheld⟩ := (hslot _).mp hmem
  rw [hlast]
  refine ⟨⟨request.slots, List.getLast?_concat, ?_⟩, ?_, ?_, ?_, ?_, ?_⟩
  · show request.slots.max? = some log.slot
    rw [hlog]
    refine List.max?_eq_some_iff.mpr ⟨hmem, fun slot hin => ?_⟩
    obtain ⟨_, e, he⟩ := (hslot slot).mp hin
    exact hwal.le slot e he
  · show 0 < log.slot
    omega
  · exact le_of_eq hlog
  · intro slot hge hle
    change log.slot ≤ slot at hge
    rw [show slot = ctx.lastLogSlot by omega]
    exact hheld
  · show fs.logPosition.nextSlot ≤ log.slot + 1
    rw [prevLogSlot_eq] at hlt
    split at hlt <;> omega
  · intro r hr
    show r.reach ≤ log.slot
    rw [hlog]
    rcases List.mem_append.mp hr with hold | hnew
    · exact hreach r hold
    · rw [List.mem_singleton.mp hnew, hreaches]

/-- A request without entries changes nothing. -/
theorem CaughtUp.of_empty (h : CaughtUp ctx batches requests fs) (hsame : ctx'.wal = ctx.wal)
    (hwal : ctx.wal.EndsAt ctx.lastLogSlot)
    (hrequest : request = Leader.makeAcceptRequest ctx' fs.prevLogSlot prevLogTerm minNextTs utc)
    (hanchored : fs.prevLogSlot = fs.logPosition.sentSlot) (hnil : request.slots = []) :
    CaughtUp ctx batches (requests ++ [request]) fs := by
  refine ⟨h.ends, h.sent_pos, h.sent_le, h.held, h.next_le, fun r hr => ?_⟩
  rcases List.mem_append.mp hr with hold | hnew
  · exact h.reach_le r hold
  · have hwal' : ctx'.wal.EndsAt ctx.lastLogSlot := hsame.symm ▸ hwal
    rw [hrequest] at hnil
    rw [List.mem_singleton.mp hnew, hrequest, Leader.makeAcceptRequest_reach hwal', if_pos hnil,
      hanchored]

end Batch

/-- **A dispatch goes on where the last batch has ended**, unless that is at the next slot. -/
theorem dispatched_inSequence {minNextTs : Option DateTime}
    (h : Leader.Dispatched ctx' minNextTs fs fs' sent) (hsame : ctx'.wal = ctx.wal)
    (hwal : ctx.wal.EndsAt ctx.lastLogSlot)
    (hreach : ∀ request ∈ requests, request.reach ≤ ctx.lastLogSlot)
    (hchain : batches.IsChain Follows) (hends : batches ≠ [] → CaughtUp ctx batches requests fs)
    (hahead : batches ≠ [] → sent ≠ [] →
      fs.logPosition.sentSlot ≠ fs.logPosition.nextSlot) :
    (batches ++ batchesOf sent).IsChain Follows ∧ (batches ++ batchesOf sent ≠ [] →
      CaughtUp ctx (batches ++ batchesOf sent) (requests ++ sent) fs') := by
  cases h with
  | silent =>
    rw [show batchesOf [] = [] from rfl, List.append_nil, List.append_nil]
    exact ⟨hchain, hends⟩
  | sends prevLogTerm utc hanchor hrequest =>
    rename_i request
    have hanchored : batches ≠ [] → fs.prevLogSlot = fs.logPosition.sentSlot :=
      fun hne => (hends hne).prevLogSlot (hahead hne (List.cons_ne_nil _ _))
    rw [batchesOf_singleton]
    by_cases hnil : request.slots = []
    · have hlast : request.entries.getLast? = none :=
        List.getLast?_eq_none_iff.mpr (List.map_eq_nil_iff.mp hnil)
      rw [if_pos hnil, List.append_nil, hlast]
      exact ⟨hchain, fun hne =>
        (hends hne).of_empty hsame hwal hrequest (hanchored hne) hnil⟩
    · rw [if_neg hnil]
      refine ⟨hchain.append (List.isChain_singleton _) ?_, fun _ =>
        caughtUp_of_sent hsame hwal hreach hrequest hnil⟩
      intro before hbefore batch hbatch
      cases Option.some.inj hbatch
      have hne : batches ≠ [] := by
        rintro rfl
        cases hbefore
      exact (hends hne).follows hsame hwal hrequest (hanchored hne) before hbefore

/-- **Where the last batch has ended at the next slot, a dispatch sends that slot again.** -/
theorem dispatched_overlaps {minNextTs : Option DateTime}
    (h : Leader.Dispatched ctx' minNextTs fs fs' sent) (hsame : ctx'.wal = ctx.wal)
    (hsent : sent ≠ [])
    (hends : CaughtUp ctx batches requests fs)
    (hequal : fs.logPosition.sentSlot = fs.logPosition.nextSlot) :
    ¬ (batches ++ batchesOf sent).IsChain Follows := by
  cases h with
  | silent => exact absurd rfl hsent
  | sends prevLogTerm utc hanchor hrequest =>
    rename_i request
    have hpos := hends.sent_pos
    have hagain : fs.logPosition.sentSlot ∈ request.slots := by
      rw [hrequest, Leader.mem_makeAcceptRequest_slots, prevLogSlot_eq, if_neg (by omega), hsame]
      exact ⟨by omega, hends.held _ (le_refl _) hends.sent_le⟩
    obtain ⟨before, hbefore, hmax⟩ := hends.ends
    rw [batchesOf_singleton, if_neg (List.ne_nil_of_mem hagain), List.isChain_append]
    rintro ⟨_, _, hfollows⟩
    obtain ⟨highest, hmax', hrange⟩ := hfollows before hbefore request.slots rfl
    cases Option.some.inj (hmax'.symm.trans hmax)
    rw [hrange, List.mem_range'_1] at hagain
    omega

/-- An acknowledgement of what has been sent moves the next slot at most behind it. -/
theorem CaughtUp.recordMatch (h : CaughtUp ctx batches requests fs) {slot : Nat}
    (hle : slot ≤ fs.logPosition.sentSlot) :
    CaughtUp ctx batches requests (fs.recordMatch slot) := by
  have hsent : (fs.recordMatch slot).logPosition.sentSlot = fs.logPosition.sentSlot :=
    max_eq_left hle
  refine ⟨?_, ?_, ?_, ?_, ?_, ?_⟩
  · rw [hsent]
    exact h.ends
  · rw [hsent]
    exact h.sent_pos
  · rw [hsent]
    exact h.sent_le
  · rw [hsent]
    exact h.held
  · rw [hsent]
    exact Nat.succ_le_succ hle
  · rw [hsent]
    exact h.reach_le

/-! ## The stretch -/

/-- **What a step of a smooth stretch does to the follower**: a dispatch, nothing, or the
acknowledgement of a request that has been sent to it. -/
theorem LedBy.smooth_cases {leader : Leader} {event : PaxosEvent}
    {a : Attempt (Leader × PaxosSharedContext)} (h : LedBy s s' l leader event a)
    (hs : s.PipelineInv q) (hsmooth : s.Smooth q l)
    (hget : leader.scoreBoard.get? q = some fs) :
    ∃ fs', a.state.1.scoreBoard.get? q = some fs' ∧
      ((∃ ctx' minNextTs, ctx'.wal = s.wal ∧
          Leader.Dispatched ctx' minNextTs fs fs' (sentTo q a.effects) ∧
          (sentTo q a.effects ≠ [] → l.Dispatches leader)) ∨
        (sentTo q a.effects = [] ∧
          (fs' = fs ∨ ∃ request ∈ s.requests q, fs' = fs.recordMatch request.reach))) := by
  obtain ⟨fs', hget', hmove⟩ := h.moves q fs hget
  refine ⟨fs', hget', ?_⟩
  have hsuccess : ∀ response, event = .acceptResponseReceived response →
      response.memberId = q → response.success = true ∧ response ∈ s.responses q := by
    intro response hevent hsender
    obtain ⟨p, i, env, rfl, hresponse⟩ := h.response response hevent
    have hmem := List.mem_of_getElem? hresponse
    have hp : p = q := (hs.responses p response hmem).1.symm.trans hsender
    exact ⟨hsmooth response hresponse hsender, hp ▸ hmem⟩
  generalize hsent : sentTo q a.effects = sent at hmove
  cases hmove with
  | dispatches hwal hother hdispatched =>
    refine Or.inl ⟨_, _, hwal, hdispatched, fun hne => ?_⟩
    rcases h.dispatches q (hsent ▸ hne) with hlabel | ⟨response, hevent⟩
    · exact hlabel
    · exact absurd hevent (hother response)
  | keeps => exact Or.inr ⟨rfl, Or.inl rfl⟩
  | clears hevent =>
    obtain ⟨env, rfl, rfl⟩ := h.check hevent
    refine Or.inr ⟨rfl, Or.inl ?_⟩
    have hchecked := leader.handleAcceptTimeoutCheck_get? env hget
    rw [hsmooth leader fs h.leads hget] at hchecked
    exact Option.some.inj (hget'.symm.trans hchecked)
  | matched response hevent hsender hok hlt =>
    obtain ⟨_, hmem⟩ := hsuccess response hevent hsender
    obtain ⟨request, hrequest, hreach⟩ := (hs.responses q response hmem).2 hok
    exact Or.inr ⟨rfl, Or.inr ⟨request, hrequest, by rw [hreach]⟩⟩
  | retries response hint hevent hsender hfail =>
    have hok := (hsuccess response hevent hsender).1
    rw [hfail] at hok
    cases hok

/-- What holds after a stretch since `s₀`. -/
structure Stretch (s₀ s : Tenure) (q : Uuid) : Prop where
  inv : s.PipelineInv q
  length_le : (s₀.requests q).length ≤ (s.requests q).length
  chain : (batchesSince s₀ s q).IsChain Follows
  caughtUp : batchesSince s₀ s q ≠ [] → ∀ leader fs, s.leader = some leader →
    leader.scoreBoard.get? q = some fs →
    CaughtUp s.ctx (batchesSince s₀ s q) (s.requests q) fs

variable {s₀ : Tenure}

theorem Stretch.start (h : s.PipelineInv q) : Stretch s s q := by
  have hnone : batchesSince s s q = [] := by
    unfold batchesSince
    rw [List.drop_length]
    rfl
  refine ⟨h, le_refl _, ?_, ?_⟩
  · rw [hnone]
    exact List.isChain_nil
  · exact fun hne => absurd hnone hne

theorem Stretch.batchesSince_append (h : Stretch s₀ s q)
    (hrequests : s'.requests q = s.requests q ++ sent) :
    batchesSince s₀ s' q = batchesSince s₀ s q ++ batchesOf sent := by
  unfold batchesSince
  rw [hrequests, List.drop_append_of_le_length h.length_le, batchesOf_append]

/-- **A smooth step that is ahead keeps the batches in sequence.** -/
theorem Stretch.step (h : Stretch s₀ s q) (hsmooth : s.Smooth q l) (hahead : Ahead s₀ s q l)
    (hnext : Next s s' l) : Stretch s₀ s' q := by
  have hinv := h.inv.step hnext
  rcases hnext.ledBy_or_answered with
    ⟨leader, event, a, hled⟩ | ⟨p, i, env, request, f, _, _, _, hanswered⟩
  · obtain ⟨fs, hget⟩ := h.inv.board leader hled.leads
    obtain ⟨fs', hget', hcases⟩ := hled.smooth_cases h.inv hsmooth hget
    have hrequests := hled.led.requests q
    have hbatches := h.batchesSince_append hrequests
    have hlength : (s₀.requests q).length ≤ (s'.requests q).length := by
      rw [hrequests, List.length_append]
      exact Nat.le_add_right_of_le h.length_le
    have hcaught : (batchesSince s₀ s q ++ batchesOf (sentTo q a.effects)).IsChain Follows ∧
        (batchesSince s₀ s q ++ batchesOf (sentTo q a.effects) ≠ [] →
          CaughtUp s.ctx (batchesSince s₀ s q ++ batchesOf (sentTo q a.effects))
            (s.requests q ++ sentTo q a.effects) fs') := by
      rcases hcases with ⟨ctx', minNextTs, hwal, hdispatched, hlabel⟩ | ⟨hnone, hfs'⟩
      · exact dispatched_inSequence hdispatched hwal h.inv.wal (h.inv.requests q) h.chain
          (fun hne => h.caughtUp hne leader fs hled.leads hget)
          fun hne hsent => hahead hne leader fs hled.leads hget (hlabel hsent)
      · rw [hnone, show batchesOf [] = [] from rfl, List.append_nil, List.append_nil]
        refine ⟨h.chain, fun hne => ?_⟩
        have hbefore := h.caughtUp hne leader fs hled.leads hget
        rcases hfs' with rfl | ⟨request, hmem, rfl⟩
        · exact hbefore
        · exact hbefore.recordMatch (hbefore.reach_le request hmem)
    rw [← hbatches, ← hrequests] at hcaught
    refine ⟨hinv, hlength, hcaught.1, ?_⟩
    intro hne leader' fs'' hleader' hget''
    rcases hled.led.leader with hnew | hnew
    · rw [hnew] at hleader'
      cases hleader'
      cases Option.some.inj (hget'.symm.trans hget'')
      rw [hled.led.ctx]
      exact (hcaught.2 hne).grow hled.grows
    · rw [hnew] at hleader'
      cases hleader'
  · have hsame : batchesSince s₀ s' q = batchesSince s₀ s q := by
      unfold batchesSince
      rw [hanswered.requests]
    refine ⟨hinv, ?_, ?_, ?_⟩
    · rw [hanswered.requests]
      exact h.length_le
    · rw [hsame]
      exact h.chain
    · rw [hsame, hanswered.leader, hanswered.ctx, hanswered.requests]
      exact h.caughtUp

/-- **A smooth step that sends a request and is not ahead breaks the sequence.** -/
theorem Stretch.not_inSequence (h : Stretch s₀ s q) (hsmooth : s.Smooth q l)
    (hnext : Next s s' l) (hsends : s'.requests q ≠ s.requests q) (hahead : ¬ Ahead s₀ s q l) :
    ¬ InSequence (batchesSince s₀ s' q) := by
  obtain ⟨hne, leader, fs, hleader, hget, hlabel, hequal⟩ :
      batchesSince s₀ s q ≠ [] ∧ ∃ leader fs, s.leader = some leader ∧
        leader.scoreBoard.get? q = some fs ∧ l.Dispatches leader ∧
        fs.logPosition.sentSlot = fs.logPosition.nextSlot := by
    simpa [Ahead] using hahead
  rcases hnext.ledBy_or_answered with
    ⟨leader', event, a, hled⟩ | ⟨p, i, env, request, f, _, _, _, hanswered⟩
  · cases Option.some.inj (hled.leads.symm.trans hleader)
    obtain ⟨fs', _, hcases⟩ := hled.smooth_cases h.inv hsmooth hget
    have hrequests := hled.led.requests q
    rcases hcases with ⟨ctx', minNextTs, hwal, hdispatched, _⟩ | ⟨hnone, _⟩
    · rw [h.batchesSince_append hrequests]
      refine fun hsequence => dispatched_overlaps hdispatched hwal ?_
        (h.caughtUp hne leader fs hleader hget) hequal hsequence.follows
      intro hnone
      rw [hnone, List.append_nil] at hrequests
      exact hsends hrequests
    · rw [hnone, List.append_nil] at hrequests
      exact absurd hrequests hsends
  · exact absurd (congrFun hanswered.requests q) hsends

/-- **In a smooth stretch whose steps are ahead the batches for the follower are in
sequence**, and a further step that sends it a request keeps them so exactly if it is
ahead. -/
theorem inSequence_of_ahead {t : Tenure} (h₀ : s₀.PipelineStart q)
    (hreach : Reaches Tenure.step s₀ s)
    (hrun : Runs Tenure.step (fun u l => u.Smooth q l ∧ Ahead s u q l) s t) :
    InSequence (batchesSince s t q) ∧ ∀ l t', t.Smooth q l → t.step l = some t' →
      t'.requests q ≠ t.requests q → (InSequence (batchesSince s t' q) ↔ Ahead s t q l) := by
  have hinv : ∀ u l u', PipelineInv u q → True → Tenure.step u l = some u' → PipelineInv u' q :=
    fun _ _ _ hu _ hstep => hu.step (step_next hstep)
  have hstretch : ∀ u l u', Stretch s u q → (u.Smooth q l ∧ Ahead s u q l) →
      Tenure.step u l = some u' → Stretch s u' q :=
    fun _ _ _ hu hok hstep => hu.step hok.1 hok.2 (step_next hstep)
  have ht : Stretch s t q := hrun.invariant (.start (hreach.invariant h₀.inv hinv)) hstretch
  have hsequence : ∀ {u : Tenure}, Stretch s u q → InSequence (batchesSince s u q) :=
    fun hu => (inSequence_iff fun _ => ne_nil_of_mem_batchesOf).mpr hu.chain
  refine ⟨hsequence ht, fun l t' hsmooth hstep hsends => ⟨fun hin => ?_, fun hahead => ?_⟩⟩
  · by_contra hahead
    exact ht.not_inSequence hsmooth (step_next hstep) hsends hahead hin
  · exact hsequence (ht.step hsmooth hahead (step_next hstep))

theorem fresh_pipelineStart : fresh.PipelineStart 2 where
  wal := WriteAheadLog.contiguousTo_new.endsAt
  board leader hleader := by
    cases Option.some.inj hleader
    exact ⟨_, rfl⟩
  ids _ := rfl
  requests _ _ hmem := by cases hmem
  responses _ := rfl

/-- The first write is flushed and acknowledged, and then a second one is flushed. -/
theorem inSequence_of_ahead_acknowledged :
    ∃ t, exec Tenure.step fresh [write "a" (Duration.seconds 1),
        .writeFlush (.steady (Duration.seconds 1)),
        .deliverRequest 2 0 (.steady (Duration.seconds 2)),
        .deliverResponse 2 0 (.steady (Duration.seconds 3)), write "b" (Duration.seconds 4),
        .writeFlush (.steady (Duration.seconds 4))] = some t ∧
      batchesSince fresh t 2 = [[1], [2]] ∧ InSequence (batchesSince fresh t 2) := by
  refine ⟨_, rfl, by decide, (inSequence_of_ahead fresh_pipelineStart (.refl _) ?_).1⟩
  refine .head (write "a" (Duration.seconds 1)) ⟨trivial, ?_⟩ rfl ?_
  · exact fun _ _ _ _ _ hlabel => hlabel.elim
  refine .head (.writeFlush (.steady (Duration.seconds 1))) ⟨trivial, ?_⟩ rfl ?_
  · exact fun hne => absurd rfl hne
  refine .head (.deliverRequest 2 0 (.steady (Duration.seconds 2))) ⟨trivial, ?_⟩ rfl ?_
  · exact fun _ _ _ _ _ hlabel => hlabel.elim
  refine .head (.deliverResponse 2 0 (.steady (Duration.seconds 3))) ⟨?_, ?_⟩ rfl ?_
  · intro response hresponse _
    cases hresponse
    rfl
  · exact fun _ _ _ _ _ hlabel => hlabel.elim
  refine .head (write "b" (Duration.seconds 4)) ⟨trivial, ?_⟩ rfl ?_
  · exact fun _ _ _ _ _ hlabel => hlabel.elim
  refine .head (.writeFlush (.steady (Duration.seconds 4))) ⟨trivial, ?_⟩ rfl (.refl _)
  intro _ leader fs hleader hget _
  cases hleader
  cases hget
  decide

/-- A second write is flushed before the first batch is acknowledged: that batch ends at
the next slot, which is sent again. -/
theorem not_inSequence_unacknowledged :
    ¬ ∀ (s₀ s t : Tenure) (q : Uuid), s₀.PipelineStart q → Reaches Tenure.step s₀ s →
      Runs Tenure.step (fun u l => u.Smooth q l) s t → InSequence (batchesSince s t q) := by
  intro hall
  have hrun : Runs Tenure.step (fun u l => u.Smooth 2 l) fresh _ :=
    .head (write "a" (Duration.seconds 1)) trivial rfl <|
      .head (.writeFlush (.steady (Duration.seconds 1))) trivial rfl <|
        .head (write "b" (Duration.seconds 2)) trivial rfl <|
          .head (.writeFlush (.steady (Duration.seconds 2))) trivial rfl (.refl _)
  have hsequence := (hall _ _ _ 2 fresh_pipelineStart (.refl _) hrun).once [1] [[1, 2]] 1
    (by decide) rfl
  cases hsequence

end Tenure
end SpannerPaxos
