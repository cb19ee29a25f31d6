import SpannerPaxos.CommitQuorum

/-! # What a follower has committed

A follower's commit point follows the leader's, as far as the batch at hand
reaches, so everything a follower holds up to it is the leader's.  It does not
keep all of it: the accept handler drops what stands above a matching anchor, so
a late request that reaches less far than the commit point takes committed
entries away.
-/
namespace SpannerPaxos

open ReplicatedLog

namespace Tenure

/-- **A delivery moves the commit point with the log**: both stay, or the batch is
written and the commit point goes as far with the leader's as the batch reaches. -/
theorem committed_of_answered {s s' : Tenure} {p : Uuid} {request : AcceptRequest}
    {f : Follower} {env : Env} (hf : f.currentLeaderId = (s.follower p).currentLeaderId)
    (h : Answered s s' p (f.handleAcceptRequest request (s.admittingCtx p request) env)) :
    (∀ q, q ≠ p → s'.followerCtx q = s.followerCtx q) ∧
      (s'.followerWal p = s.followerWal p ∧
          (s'.followerCtx p).committedSlot = (s.followerCtx p).committedSlot ∨
        s.Writes p request env ∧
          s'.followerWal p = Follower.writtenWal request (s.followerWal p) ∧
          (s'.followerCtx p).committedSlot = max (s.followerCtx p).committedSlot
            (min request.leaderCommitSlot request.reach)) := by
  refine ⟨?_, ?_⟩
  · intro q hq
    rw [h.followerCtx, Function.update_of_ne hq]
  · rw [followerWal, h.followerCtx, Function.update_self]
    rcases f.handleAcceptRequest_cases request (s.admittingCtx p request) env with
      ⟨_, heq⟩ | ⟨_, _, hint, heq⟩ | ⟨hadmits, hanchor, heq⟩
    · -- not admitted
      rw [heq]
      exact Or.inl ⟨rfl, rfl⟩
    · -- a conflict at the anchor
      rw [heq]
      exact Or.inl ⟨rfl, rfl⟩
    · rw [heq]
      refine Or.inr ⟨⟨⟨hadmits.term, hadmits.lease, hf ▸ hadmits.leader⟩, hanchor⟩, ?_, ?_⟩
      · exact Follower.writeBatch_wal request (s.admittingCtx p request)
      · exact Follower.writeBatch_committedSlot request (s.admittingCtx p request)

/-! ## Everything committed is the leader's -/

/-- A follower's commit point is not ahead of the leader's, and what it holds up to
it is the leader's. -/
def CommitAgreement (s : Tenure) : Prop :=
  ∀ p, (s.followerCtx p).committedSlot ≤ s.ctx.committedSlot ∧
    Within s.wal.log (s.followerWal p).log (s.followerCtx p).committedSlot

/-- Where a tenure may start for its commits to agree throughout. -/
structure AgreeingStart (s : Tenure) : Prop where
  logs : s.MatchingStart
  agreement : s.CommitAgreement

/-- The invariant: no request under way is ahead of the leader's commit point. -/
structure AgreementInv (s : Tenure) : Prop where
  logs : s.MatchInv
  requests : ∀ p, ∀ request ∈ s.requests p, request.leaderCommitSlot ≤ s.ctx.committedSlot
  agreement : s.CommitAgreement

theorem AgreeingStart.agreementInv {s : Tenure} (h : s.AgreeingStart) : s.AgreementInv where
  logs := h.logs.matchInv
  requests p request hmem := by
    rw [(h.logs.idle p).1] at hmem
    cases hmem
  agreement := h.agreement

/-- What a replica holds of the leader's log stays part of it: the leader only
appends, and only behind the end of its log. -/
theorem LogNext.within {s s' : Tenure} (h : LogNext s s')
    (hlast : ∀ k e, s.wal.get? k = some e → k ≤ s.ctx.lastLogSlot) {l : Nat → Option LogEntry}
    {m : Nat} (hm : Within s.wal.log l m) : Within s'.wal.log l m := by
  cases h with
  | appends e hterm hslot hwal =>
    rw [hwal, WriteAheadLog.log_append]
    refine hm.append ?_
    intro k e' he'
    have hle := hlast k e' he'
    omega
  | ships hwal =>
    rw [hwal]
    exact hm
  | answers p request f env hrequest hf hanswered =>
    rw [wal, hanswered.ctx]
    exact hm

/-- A follower's context changes with an answer only. -/
theorem LogNext.followerCtx_cases {s s' : Tenure} (h : LogNext s s') :
    s'.followerCtx = s.followerCtx ∨ ∃ p request env, ∃ f : Follower,
      request ∈ s.requests p ∧ f.currentLeaderId = (s.follower p).currentLeaderId ∧
      Answered s s' p (f.handleAcceptRequest request (s.admittingCtx p request) env) := by
  cases h with
  | appends e hterm hslot hwal hlast hsame hrequests hfollowers => exact Or.inl hfollowers
  | ships hwal hlast hsame hrequests hfollowers => exact Or.inl hfollowers
  | answers p request f env hrequest hf hanswered =>
    exact Or.inr ⟨p, request, env, f, hrequest, hf, hanswered⟩

/-- A request was under way before, or carries the leader's commit point. -/
theorem LogNext.leaderCommitSlot_le {s s' : Tenure} (h : LogNext s s')
    (hs : ∀ p, ∀ request ∈ s.requests p, request.leaderCommitSlot ≤ s.ctx.committedSlot)
    (hle : s.ctx.committedSlot ≤ s'.ctx.committedSlot) {p : Uuid} {request : AcceptRequest}
    (hmem : request ∈ s'.requests p) : request.leaderCommitSlot ≤ s'.ctx.committedSlot := by
  have hold : request ∈ s.requests p → request.leaderCommitSlot ≤ s'.ctx.committedSlot :=
    fun hmem => (hs p request hmem).trans hle
  cases h with
  | appends e hterm hslot hwal hlast hsame hrequests => exact hold (hrequests ▸ hmem)
  | ships hwal hlast hsame hrequests =>
    rcases hrequests p request hmem with hmem | ⟨minNextTs, _, _, _, _, rfl⟩
    · exact hold hmem
    · exact hle
  | answers q r f env hrequest hf hanswered => exact hold (hanswered.requests ▸ hmem)

/-- **Commit agreement survives every step.** -/
theorem AgreementInv.step {s s' : Tenure} {l : Label} (hs : s.AgreementInv)
    (h : Next s s' l) : s'.AgreementInv := by
  have hnext := h.logNext
  have hle := h.committedSlot_le
  refine ⟨hs.logs.step hnext, fun p request => hnext.leaderCommitSlot_le hs.requests hle, ?_⟩
  have hcarry : ∀ p, s'.followerCtx p = s.followerCtx p →
      (s'.followerCtx p).committedSlot ≤ s'.ctx.committedSlot ∧
        Within s'.wal.log (s'.followerWal p).log (s'.followerCtx p).committedSlot := by
    intro p heq
    obtain ⟨hcommitted, hwithin⟩ := hs.agreement p
    rw [followerWal, heq]
    exact ⟨hcommitted.trans hle, hnext.within hs.logs.last hwithin⟩
  intro p
  rcases hnext.followerCtx_cases with hsame | ⟨q, request, env, f, hrequest, hf, hanswered⟩
  · exact hcarry p (congrFun hsame p)
  obtain ⟨hother, hkept | ⟨hwrites, hwal, hcommitted⟩⟩ := committed_of_answered hf hanswered
  · by_cases hp : p = q
    · subst hp
      obtain ⟨hbound, hwithin⟩ := hs.agreement p
      rw [hkept.1, hkept.2]
      exact ⟨hbound.trans hle, hnext.within hs.logs.last hwithin⟩
    · exact hcarry p (hother p hp)
  · by_cases hp : p = q
    · subst hp
      obtain ⟨hbound, _⟩ := hs.agreement p
      have hbatch := hs.logs.logs.batches p request hrequest
      have hsent := hs.requests p request hrequest
      -- the anchor is sound, and nothing is left above what the batch reaches
      have hanchor := hbatch.sameUpTo_anchor (hs.logs.logs.matching p) hwrites.2
      rw [hwal, hcommitted, hbatch.written]
      refine ⟨by omega, hnext.within hs.logs.last ?_⟩
      exact (Within.of_sameUpTo hanchor).splice _
    · exact hcarry p (hother p hp)

/-- **Commit agreement**, in every state a tenure reaches. -/
theorem commitAgreement_of_reaches {s t : Tenure} (h : s.AgreeingStart)
    (hrun : Reaches Tenure.step s t) : t.CommitAgreement := by
  have hinv : t.AgreementInv :=
    hrun.invariant h.agreementInv fun _ _ _ ha _ hstep => ha.step (step_next hstep)
  exact hinv.agreement

theorem fresh_agreeingStart : fresh.AgreeingStart where
  logs := fresh_matchingStart
  agreement p := by
    refine ⟨Nat.le_refl _, ?_⟩
    intro k e _ _ he
    cases he

/-- The first write, committed by the leader and, after the next heartbeat, by the
follower. -/
def firstCommit : List Label :=
  [write "a" (Duration.seconds 1), .writeFlush (.steady (Duration.seconds 1)),
    .deliverRequest 2 0 (.steady (Duration.seconds 2)),
    .deliverResponse 2 0 (.steady (Duration.seconds 3)),
    .heartbeat (.steady (Duration.seconds 4)),
    .deliverRequest 2 1 (.steady (Duration.seconds 5))]

theorem commitAgreement_of_reaches_first :
    ∃ t, exec Tenure.step fresh firstCommit = some t ∧ (t.followerCtx 2).committedSlot = 1 ∧
      t.CommitAgreement :=
  ⟨_, rfl, rfl, commitAgreement_of_reaches fresh_agreeingStart (Runs.of_exec firstCommit rfl)⟩

/-! ## What is committed is not kept -/

/-- The step neither removes nor changes what the follower has committed. -/
def KeepsCommitted (s s' : Tenure) (p : Uuid) : Prop :=
  ∀ k e, k ≤ (s.followerCtx p).committedSlot → (s.followerWal p).get? k = some e →
    (s'.followerWal p).get? k = some e

/-- Whenever a follower gets a request in a run under the guard, it keeps what it has
committed. -/
def CommittedKept (ok : Tenure → Label → Prop) (p : Uuid) (s : Tenure) : Prop :=
  ∀ t t' l, Runs Tenure.step ok s t → ok t l → t.step l = some t' → t.KeepsCommitted t' p

/-- A follower that agrees with the leader on what it has committed, in a tenure
whose leader only appends.  Requests sent before may be under way. -/
structure CommittedStart (p : Uuid) (s : Tenure) : Prop where
  agree : SameUpTo s.wal.log (s.followerWal p).log (s.followerCtx p).committedSlot
  sent : ∀ request ∈ s.requests p, Batch s.wal request
  appendOnly : ∀ k e, s.wal.get? k = some e → k ≤ s.ctx.lastLogSlot

/-- A request is written only if the follower's log is the leader's up to its anchor,
and only if it reaches every entry the follower has committed. -/
def ReachesCommitted (p : Uuid) (s : Tenure) : Label → Prop
  | .deliverRequest q i env => q = p → ∀ request, (s.requests p)[i]? = some request →
    s.Writes p request env →
      Within s.wal.log (s.followerWal p).log request.prevLogSlot ∧
        ∀ k, request.reach < k → k ≤ (s.followerCtx p).committedSlot →
          (s.followerWal p).get? k = none
  | _ => True

structure CommittedInv (p : Uuid) (s : Tenure) : Prop where
  within : Within s.wal.log (s.followerWal p).log (s.followerCtx p).committedSlot
  sent : ∀ request ∈ s.requests p, Batch s.wal request
  appendOnly : ∀ k e, s.wal.get? k = some e → k ≤ s.ctx.lastLogSlot

theorem CommittedStart.committedInv {p : Uuid} {s : Tenure} (h : s.CommittedStart p) :
    s.CommittedInv p :=
  ⟨.of_sameUpTo h.agree, h.sent, h.appendOnly⟩

/-- **What writing a batch keeps**: everything committed, exactly if the batch reaches
it all. -/
theorem CommittedInv.written_iff {p : Uuid} {s : Tenure} (hs : s.CommittedInv p)
    {request : AcceptRequest} (hrequest : request ∈ s.requests p) :
    (∀ k e, k ≤ (s.followerCtx p).committedSlot → (s.followerWal p).get? k = some e →
      (Follower.writtenWal request (s.followerWal p)).get? k = some e) ↔
    ∀ k, request.reach < k → k ≤ (s.followerCtx p).committedSlot →
      (s.followerWal p).get? k = none := by
  have hbatch := hs.sent request hrequest
  have hwritten := hbatch.written (s.followerWal p)
  constructor
  · intro hkeeps k hreach hk
    rw [Option.eq_none_iff_forall_ne_some]
    intro e he
    have hsplice := (congrFun hwritten k).symm.trans (hkeeps k e hk he)
    exact absurd (le_of_splice hbatch.prev_le hsplice) (Nat.not_le.mpr hreach)
  · intro hnone k e hk he
    refine (congrFun hwritten k).trans (hs.within.splice_eq_some hk ?_ he)
    by_contra hreach
    rw [hnone k (Nat.lt_of_not_le hreach) hk] at he
    cases he

/-- **A step keeps what is committed**, and what it commits is the leader's. -/
theorem CommittedInv.step {p : Uuid} {s s' : Tenure} {l : Label} (hs : s.CommittedInv p)
    (hok : s.ReachesCommitted p l) (h : Next s s' l) : s'.CommittedInv p ∧ s.KeepsCommitted s' p := by
  have hnext := h.logNext
  have hsent : ∀ request ∈ s'.requests p, Batch s'.wal request :=
    fun request => hnext.batch (fun _ => hs.appendOnly) hs.sent
  have hcarry : s'.followerWal p = s.followerWal p →
      (s'.followerCtx p).committedSlot = (s.followerCtx p).committedSlot →
      s'.CommittedInv p ∧ s.KeepsCommitted s' p := by
    intro hwal hcommitted
    refine ⟨⟨?_, hsent, hnext.appendOnly hs.appendOnly⟩, ?_⟩
    · rw [hwal, hcommitted]
      exact hnext.within hs.appendOnly hs.within
    · intro k e _ he
      rwa [hwal]
  have hstays : s'.followerCtx p = s.followerCtx p → s'.CommittedInv p ∧ s.KeepsCommitted s' p :=
    fun hsame => hcarry (by rw [followerWal, hsame]) (by rw [hsame])
  cases h with
  | deliverRequest request hrequest f hf hanswered =>
    rename_i q i env
    obtain ⟨hother, hkept | ⟨hwrites, hwal, hcommitted⟩⟩ := committed_of_answered hf hanswered
    · by_cases hp : p = q
      · subst hp
        exact hcarry hkept.1 hkept.2
      · exact hstays (hother p hp)
    · by_cases hp : p = q
      · subst hp
        obtain ⟨hanchor, hreach⟩ := hok rfl request hrequest hwrites
        have hmem := List.mem_of_getElem? hrequest
        refine ⟨⟨?_, hsent, hnext.appendOnly hs.appendOnly⟩, ?_⟩
        · rw [hwal, (hs.sent request hmem).written]
          exact hnext.within hs.appendOnly (hanchor.splice _)
        · rw [KeepsCommitted, hwal]
          exact (hs.written_iff hmem).mpr hreach
      · exact hstays (hother p hp)
  | clientWrite leader hleader h => exact hstays (by rw [h.followerCtx])
  | writeFlush leader hleader h => exact hstays (by rw [h.followerCtx])
  | heartbeat leader hleader h => exact hstays (by rw [h.followerCtx])
  | timeoutCheck leader hleader h => exact hstays (by rw [h.followerCtx])
  | deliverResponse response hresponse leader hleader hterm h =>
    exact hstays (by rw [h.followerCtx])

/-- **A follower keeps what it has committed**, if it writes no request that reaches
less far. -/
theorem committedKept_of_reachesCommitted {p : Uuid} {s : Tenure} (h : s.CommittedStart p) :
    s.CommittedKept (ReachesCommitted p) p := by
  intro t t' l hrun hok hstep
  have hinv : t.CommittedInv p := hrun.invariant h.committedInv fun _ _ _ ha hok hstep =>
    (ha.step hok (step_next hstep)).1
  exact (hinv.step hok (step_next hstep)).2

theorem fresh_committedStart (p : Uuid) : fresh.CommittedStart p where
  agree := .zero _ _
  sent request hmem := by cases hmem
  appendOnly k e he := by cases he

/-- The first write stays with the follower that has committed it. -/
theorem committedKept_of_reachesCommitted_first :
    ∃ t t', exec Tenure.step fresh [write "a" (Duration.seconds 1),
        .writeFlush (.steady (Duration.seconds 1))] = some t ∧
      t.step (.deliverRequest 2 0 (.steady (Duration.seconds 2))) = some t' ∧
      t.KeepsCommitted t' 2 := by
  refine ⟨_, _, rfl, rfl, committedKept_of_reachesCommitted (fresh_committedStart 2) _ _
    (.deliverRequest 2 0 (.steady (Duration.seconds 2))) ?_ ?_ rfl⟩
  · exact .head (write "a" (Duration.seconds 1)) trivial rfl
      (.head (.writeFlush (.steady (Duration.seconds 1))) trivial rfl (.refl _))
  · intro _ request hrequest _
    cases Option.some.inj hrequest
    refine ⟨?_, ?_⟩
    · intro k e hpos hk
      exact absurd (Nat.le_trans hpos hk) (Nat.not_succ_le_zero 0)
    · intro k hreach hk
      exact absurd (Nat.lt_of_lt_of_le hreach hk) (Nat.not_lt_zero _)

/-- The heartbeat sent before the first write comes in once more when the write is
committed: the follower drops the committed entry. -/
theorem not_committedKept_late :
    ¬ ∀ (s : Tenure) (p : Uuid), s.CommittedStart p → s.CommittedKept (fun _ _ => True) p := by
  intro hall
  have hrun : Reaches Tenure.step fresh _ := Runs.of_exec
    (.heartbeat (.steady (Duration.seconds 1)) :: [write "a" (Duration.seconds 1),
      .writeFlush (.steady (Duration.seconds 1)),
      .deliverRequest 2 1 (.steady (Duration.seconds 2)),
      .deliverResponse 2 0 (.steady (Duration.seconds 3)),
      .heartbeat (.steady (Duration.seconds 4)),
      .deliverRequest 2 2 (.steady (Duration.seconds 5))]) rfl
  have hkept := hall fresh 2 (fresh_committedStart 2) _ _
    (.deliverRequest 2 0 (.steady (Duration.seconds 6))) hrun trivial rfl 1 _ (by decide) rfl
  cases hkept

end Tenure
end SpannerPaxos
