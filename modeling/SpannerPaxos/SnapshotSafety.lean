import SpannerPaxos.SafeTime
import Mathlib

/-! # Snapshot safety

A tenure with the leader's clock.  The leader vouches for the safe time of every
member: each promise it sends is settled at the commit point sent with it, each
commit takes over the stamp of the leader's own entry, and what is settled stays
settled while the clock and the stamps go forward.  The leader's code sees to
none of the last three: it promises up to its clock whatever it has still to
commit.
-/
namespace SpannerPaxos

open ReplicatedLog

namespace Tenure

/-- What the leader's handler reads, if the event is the leader's. -/
def Label.leaderEnv? : Label → Option Env
  | .clientWrite _ env | .writeFlush env | .heartbeat env | .timeoutCheck env
  | .deliverResponse _ _ env => some env
  | .deliverRequest _ _ _ => none

/-- The readings of the leader's clock during the event do not run backwards: they
lie between `now`, where the last event left it, and `now'`. -/
def Label.ClockForward (l : Label) (now now' : DateTime) : Prop :=
  now ≤ now' ∧ ∀ env, l.leaderEnv? = some env →
    Monotone env.clock ∧ ∀ i, now ≤ env.clock i ∧ env.clock i ≤ now'

/-- The leader's log is stamped in slot order; a client write is stamped later
than all of it; and a heartbeat comes when what is stamped up to its promise is
committed. -/
def SettlesFirst (s : Tenure) (l : Label) : Prop :=
  StampedInOrder s.wal ∧ match l with
    | .clientWrite _ env => ∀ slot e, s.wal.get? slot = some e →
        e.timestamp < (TrueTime.now (env.clock 0)).latest
    | .heartbeat env => ∀ slot e, s.wal.get? slot = some e →
        e.timestamp ≤ Leader.heartbeatTs s.ctx (env.clock 0) - Duration.milliseconds 1 →
          slot ≤ s.ctx.committedSlot
    | _ => True

/-- The tenure with the messages under way left out. -/
def withoutMessages (s : Tenure) : Tenure :=
  { s with requests := fun _ => [], responses := fun _ => [] }

/-- Where a tenure may start for its safe times to be safe throughout: the logs
match, the uncommitted entries are those of the logs, and the requests under way
are what the leader sends in this state, such as the batches of a new leader. -/
structure SafeStart (s : Tenure) : Prop where
  logs : s.withoutMessages.MatchingStart
  leader : s.ctx.Consistent
  followers : ∀ p, (s.followerCtx p).Consistent
  sent : ∀ p request, request ∈ s.requests p → Leader.Sent s.ctx none request

theorem SafeStart.matchInv {s : Tenure} (h : s.SafeStart) : s.MatchInv := by
  have hlogs := h.logs.matchInv
  refine ⟨⟨hlogs.logs.matching, ?_⟩, hlogs.followers, hlogs.own, hlogs.last⟩
  intro p request hmem
  exact .of_sent (h.sent p request hmem)

/-- The invariant of a tenure whose safe times are safe. -/
structure SafeInv (s₀ s : Tenure) (now : DateTime) : Prop where
  logs : s.MatchInv
  full : ∀ slot, 1 ≤ slot → slot ≤ s.ctx.lastLogSlot → ∃ e, s.wal.get? slot = some e
  leaderConsistent : s.ctx.Consistent
  followerConsistent : ∀ p, (s.followerCtx p).Consistent
  promises : ∀ p request minNextTs, request ∈ s.requests p → request.minNextTs = some minNextTs →
    Settled s.wal now (minNextTs - Duration.milliseconds 1)
      (min request.leaderCommitSlot request.reach)
  leader : Vouched s.wal now s₀.ctx s.ctx
  followers : ∀ p, Vouched s.wal now (s₀.followerCtx p) (s.followerCtx p)

theorem SafeStart.safeInv {s : Tenure} (h : s.SafeStart) (now : DateTime) : SafeInv s s now where
  logs := h.matchInv
  full slot hpos hle := (h.logs.contiguous slot).mpr ⟨hpos, hle⟩
  leaderConsistent := h.leader
  followerConsistent := h.followers
  promises p request minNextTs hmem hmin := by
    obtain ⟨_, _, _, _, rfl⟩ := h.sent p request hmem
    cases hmin
  leader := .refl _ _ _
  followers p := .refl _ _ _

section
variable {s s' : Tenure} {l : Label} {now now' : DateTime}

/-- A request was there before, or the leader has just sent it; only a heartbeat
promises anything. -/
theorem Next.mem_requests (h : Next s s' l) {p : Uuid} {request : AcceptRequest}
    (hmem : request ∈ s'.requests p) :
    request ∈ s.requests p ∨ Leader.Sent s.ctx none request ∨
      ∃ env, l = .heartbeat env ∧
        Leader.Sent s.ctx (some (Leader.heartbeatTs s.ctx (env.clock 0))) request := by
  have hled : ∀ (a : Attempt (Leader × PaxosSharedContext)) (minNextTs : Option DateTime),
      Led s s' a → Leader.Replicates s.ctx minNextTs a →
      request ∈ s.requests p ∨ Leader.Sent s.ctx minNextTs request := by
    intro a minNextTs hled hr
    rw [hled.requests, List.mem_append] at hmem
    rcases hmem with hold | hnew
    · exact Or.inl hold
    · exact Or.inr (hr.sent p request (mem_sentTo.mp hnew))
  cases h with
  | clientWrite leader hleader h => exact Or.inl (h.append_spec.2.2.2 ▸ hmem)
  | writeFlush leader hleader h =>
    rcases hled _ _ h (leader.handleWriteFlush_replicates _ _) with hold | hnew
    · exact Or.inl hold
    · exact Or.inr (Or.inl hnew)
  | heartbeat leader hleader h =>
    rcases hled _ _ h (leader.handleHeartbeatTimer_replicates _ _) with hold | hnew
    · exact Or.inl hold
    · exact Or.inr (Or.inr ⟨_, rfl, hnew⟩)
  | timeoutCheck leader hleader h =>
    rcases hled _ _ h (leader.handleAcceptTimeoutCheck_replicates _ _) with hold | hnew
    · exact Or.inl hold
    · exact Or.inr (Or.inl hnew)
  | deliverRequest r hr f hf hanswered => exact Or.inl (hanswered.requests ▸ hmem)
  | deliverResponse response hresponse leader hleader hterm h =>
    rcases hled _ _ h (leader.handleAcceptResponse_replicates _ _ response) with hold | hnew
    · exact Or.inl hold
    · exact Or.inr (Or.inl hnew)

/-- **Settled timestamps stay settled** over every event. -/
theorem Next.settled (h : Next s s' l) (hs : s.MatchInv) (hclock : l.ClockForward now now')
    (hok : s.SettlesFirst l) {ts : DateTime} {slot : Nat} (hset : Settled s.wal now ts slot) :
    Settled s'.wal now' ts slot := by
  by_cases hwrite : ∃ command env, l = .clientWrite command env
  · obtain ⟨command, env, rfl⟩ := hwrite
    cases h with
    | clientWrite leader hleader hled =>
      rw [hled.append_spec.1]
      refine (hset.append (TrueTime.latest_le ((hclock.2 env rfl).2 0).1) hok.2 ?_).later hclock.1
      intro k e he hk
      have hle := hs.last k e he
      simp only at hk
      omega
  · rw [h.wal_eq fun command env hl => hwrite ⟨command, env, hl⟩]
    exact hset.later hclock.1

/-- The log stays stamped in order. -/
theorem Next.stampedInOrder (h : Next s s' l) (hs : s.MatchInv) (hok : s.SettlesFirst l) :
    StampedInOrder s'.wal := by
  by_cases hwrite : ∃ command env, l = .clientWrite command env
  · obtain ⟨command, env, rfl⟩ := hwrite
    cases h with
    | clientWrite leader hleader hled =>
      rw [hled.append_spec.1]
      refine hok.1.append ?_
      intro slot e he
      have hle := hs.last slot e he
      refine ⟨?_, hok.2 slot e he⟩
      show slot < s.ctx.lastLogSlot + 1
      omega
  · rw [h.wal_eq fun command env hl => hwrite ⟨command, env, hl⟩]
    exact hok.1

/-- A promise made now is settled at what the leader has committed. -/
theorem settled_promise (hclock : l.ClockForward now now') (hok : s.SettlesFirst l) {env : Env}
    (hl : l = .heartbeat env) :
    Settled s.wal now' (Leader.heartbeatTs s.ctx (env.clock 0) - Duration.milliseconds 1)
      s.ctx.committedSlot := by
  subst hl
  refine ⟨hok.2, Or.inl ?_⟩
  have hcap : Leader.heartbeatTs s.ctx (env.clock 0) ≤ (TrueTime.now (env.clock 0)).latest := by
    unfold Leader.heartbeatTs
    split
    · exact min_le_left _ _
    · exact le_refl _
  have hlater := TrueTime.latest_le ((hclock.2 env rfl).2 0).2
  have hms : 0 < Duration.milliseconds 1 := by decide
  exact lt_of_lt_of_le (Int.sub_lt_self _ hms) (le_trans hcap hlater)

/-- **How the leader's safe time moves.** -/
theorem SafeInv.leaderMove {s₀ : Tenure} (hs : SafeInv s₀ s now) (h : Next s s' l)
    (hclock : l.ClockForward now now') (hok : s.SettlesFirst l) :
    SafeMove s'.wal now' s.ctx s'.ctx := by
  cases h with
  | clientWrite leader hleader hled =>
    rw [hled.ctx]
    exact .keeps rfl rfl
  | writeFlush leader hleader hled =>
    rw [hled.ctx, leader.handleWriteFlush_ctx]
    exact .keeps rfl rfl
  | timeoutCheck leader hleader hled =>
    rw [hled.ctx]
    exact .keeps rfl rfl
  | heartbeat leader hleader hled =>
    rename_i env
    rw [(Next.heartbeat leader hleader hled).wal_eq (by simp), hled.ctx]
    exact .promises _ (s.ctx.advanceTSafe_committedSlot _) (s.ctx.advanceTSafe_tSafe _)
      (settled_promise hclock hok rfl)
  | deliverRequest request hrequest f hf hanswered =>
    rw [hanswered.ctx]
    exact .keeps rfl rfl
  | deliverResponse response hresponse leader hleader hterm hled =>
    rw [(Next.deliverResponse response hresponse leader hleader hterm hled).wal_eq (by simp),
      hled.ctx]
    obtain ⟨lease, hctx | ⟨slot, hlt, hle, hctx⟩⟩ :=
      leader.handleAcceptResponse_ctx s.ctx _ response
    · rw [hctx]
      exact .keeps rfl rfl
    · rw [hctx]
      refine .commits (by simpa using hlt) ?_
      rw [PaxosSharedContext.commitTo_committedSlot]
      rcases PaxosSharedContext.commitTo_tSafe { s.ctx with leaseExpiry := lease } slot with
        hsame | ⟨e, he, hts⟩
      · exact Or.inl hsame
      · -- the uncommitted entry at the slot is the one in the log
        obtain ⟨e', he'⟩ := hs.full slot (by omega) hle
        have heq := hs.leaderConsistent slot e e' he he'
        exact Or.inr ⟨e', he', heq ▸ hts⟩

/-- **What writing a batch does to a follower's safe time.** -/
theorem SafeInv.writeMove {s₀ : Tenure} (hs : SafeInv s₀ s now) {p : Uuid}
    {request : AcceptRequest} (hrequest : request ∈ s.requests p)
    (hanchor : Follower.AnchorMatches request (s.followerWal p)) :
    SafeMove s.wal now (s.followerCtx p)
      (Follower.writeBatch request (s.admittingCtx p request)).2 := by
  have hbatch := hs.logs.logs.batches p request hrequest
  have hcaught := hbatch.sameUpTo_written (hs.logs.logs.matching p) hanchor
  have hadmitting : (s.admittingCtx p request).Consistent := hs.followerConsistent p
  have hconsistent := hadmitting.replaceTail request
  have heq := (s.admittingCtx p request).replaceTail_eq request
  have hcommitted : ((s.admittingCtx p request).replaceTail request).committedSlot =
      (s.followerCtx p).committedSlot := by rw [heq]; rfl
  have htSafe : ((s.admittingCtx p request).replaceTail request).tSafe =
      (s.followerCtx p).tSafe := by rw [heq]; rfl
  have hwal : ((s.admittingCtx p request).replaceTail request).wal =
      Follower.writtenWal request (s.followerWal p) := by rw [heq]; rfl
  unfold Follower.writeBatch
  rcases ((s.admittingCtx p request).replaceTail request).followCommit_cases request with
    ⟨hlt, hctx⟩ | ⟨hle, ⟨minNextTs, hmin, hctx⟩ | hctx⟩
  · rw [hctx]
    refine .commits (by rwa [PaxosSharedContext.commitTo_committedSlot, ← hcommitted]) ?_
    rw [PaxosSharedContext.commitTo_committedSlot, ← htSafe]
    rcases PaxosSharedContext.commitTo_tSafe _ _ with hsame | ⟨e, he, hts⟩
    · exact Or.inl hsame
    · -- the leader's log holds an entry there, which the batch has brought along
      have hpos : 1 ≤ min request.leaderCommitSlot request.reach := by omega
      have hreach : min request.leaderCommitSlot request.reach ≤ request.reach :=
        min_le_right _ _
      have hlast : request.reach ≤ s.ctx.lastLogSlot := by
        rcases hbatch.reach with h0 | ⟨e', he'⟩
        · omega
        · exact hs.logs.last _ e' he'
      obtain ⟨e', he'⟩ := hs.full _ hpos (hreach.trans hlast)
      have hown : (Follower.writtenWal request (s.followerWal p)).get?
          (min request.leaderCommitSlot request.reach) = some e' := by
        rw [← he']
        exact (hcaught _ hpos hreach).symm
      have hsame := hconsistent _ e e' he (hwal ▸ hown)
      exact Or.inr ⟨e', he', hsame ▸ hts⟩
  · rw [hctx]
    refine .promises _ ?_ ?_ ((hs.promises p request minNextTs hrequest hmin).mono ?_)
    · rw [PaxosSharedContext.advanceTSafe_committedSlot, hcommitted]
    · rw [← htSafe]
      exact PaxosSharedContext.advanceTSafe_tSafe _ _
    · rwa [← hcommitted]
  · rw [hctx]
    exact .keeps hcommitted htSafe

/-- **How a follower's safe time moves.** -/
theorem SafeInv.followerMove {s₀ : Tenure} (hs : SafeInv s₀ s now) (h : Next s s' l)
    (p : Uuid) : SafeMove s.wal now (s.followerCtx p) (s'.followerCtx p) := by
  have hkept : s'.followerCtx = s.followerCtx →
      SafeMove s.wal now (s.followerCtx p) (s'.followerCtx p) :=
    fun heq => .keeps (by rw [heq]) (by rw [heq])
  cases h with
  | clientWrite leader hleader hled => exact hkept hled.followerCtx
  | writeFlush leader hleader hled => exact hkept hled.followerCtx
  | heartbeat leader hleader hled => exact hkept hled.followerCtx
  | timeoutCheck leader hleader hled => exact hkept hled.followerCtx
  | deliverResponse response hresponse leader hleader hterm hled => exact hkept hled.followerCtx
  | deliverRequest request hrequest f hf hanswered =>
    rename_i q i env
    rw [hanswered.followerCtx]
    by_cases hp : p = q
    · subst hp
      rw [Function.update_self]
      rcases f.handleAcceptRequest_cases request (s.admittingCtx p request) env with
        ⟨_, heq⟩ | ⟨_, _, hint, heq⟩ | ⟨_, hanchor, heq⟩
      · rw [heq]
        exact .keeps rfl rfl
      · rw [heq]
        exact .keeps rfl rfl
      · rw [heq]
        exact (hs.writeMove (List.mem_of_getElem? hrequest) hanchor).congr rfl rfl
    · rw [Function.update_of_ne hp]
      exact .keeps rfl rfl

/-- The members' uncommitted entries stay those of their logs. -/
theorem SafeInv.consistent_next {s₀ : Tenure} (hs : SafeInv s₀ s now) (h : Next s s' l) :
    s'.ctx.Consistent ∧ ∀ p, (s'.followerCtx p).Consistent := by
  cases h with
  | clientWrite leader hleader hled =>
    rw [hled.ctx, hled.followerCtx]
    exact ⟨hs.leaderConsistent.write _ rfl rfl, hs.followerConsistent⟩
  | writeFlush leader hleader hled =>
    rw [hled.ctx, hled.followerCtx, leader.handleWriteFlush_ctx]
    exact ⟨hs.leaderConsistent, hs.followerConsistent⟩
  | heartbeat leader hleader hled =>
    rw [hled.ctx, hled.followerCtx]
    exact ⟨hs.leaderConsistent.advanceTSafe _, hs.followerConsistent⟩
  | timeoutCheck leader hleader hled =>
    rw [hled.ctx, hled.followerCtx]
    exact ⟨hs.leaderConsistent, hs.followerConsistent⟩
  | deliverResponse response hresponse leader hleader hterm hled =>
    rw [hled.ctx, hled.followerCtx]
    refine ⟨?_, hs.followerConsistent⟩
    obtain ⟨lease, hctx | ⟨slot, _, _, hctx⟩⟩ := leader.handleAcceptResponse_ctx s.ctx _ response
    · rw [hctx]
      exact hs.leaderConsistent
    · rw [hctx]
      have hrenewed : PaxosSharedContext.Consistent { s.ctx with leaseExpiry := lease } :=
        hs.leaderConsistent
      exact hrenewed.commitTo slot
  | deliverRequest request hrequest f hf hanswered =>
    rename_i q i env
    rw [hanswered.ctx, hanswered.followerCtx]
    refine ⟨hs.leaderConsistent, ?_⟩
    intro p
    by_cases hp : p = q
    · subst hp
      rw [Function.update_self]
      have hctx : (s.admittingCtx p request).Consistent := hs.followerConsistent p
      rcases f.handleAcceptRequest_cases request (s.admittingCtx p request) env with
        ⟨_, heq⟩ | ⟨_, _, hint, heq⟩ | ⟨_, _, heq⟩
      · rw [heq]
        exact hctx
      · rw [heq]
        exact hctx
      · rw [heq]
        exact (hctx.replaceTail request).followCommit request
    · rw [Function.update_of_ne hp]
      exact hs.followerConsistent p

/-- **The invariant survives every event** that settles first. -/
theorem SafeInv.next {s₀ : Tenure} (hs : SafeInv s₀ s now) (h : Next s s' l)
    (hclock : l.ClockForward now now') (hok : s.SettlesFirst l) : SafeInv s₀ s' now' := by
  have hcarry : ∀ ts slot, Settled s.wal now ts slot → Settled s'.wal now' ts slot :=
    fun ts slot => h.settled hs.logs hclock hok
  have hord := h.stampedInOrder hs.logs hok
  obtain ⟨hleader, hfollowers⟩ := hs.consistent_next h
  refine ⟨hs.logs.step h.logNext, ?_, hleader, hfollowers, ?_, ?_, ?_⟩
  · intro slot hpos hle
    cases h.logNext with
    | appends e hterm hslot hwal hlast =>
      by_cases hnew : slot = e.slot
      · exact ⟨e, by rw [hwal, WriteAheadLog.get?_append, if_pos hnew]⟩
      · obtain ⟨e', he'⟩ := hs.full slot hpos (by omega)
        exact ⟨e', by rw [hwal, WriteAheadLog.get?_append, if_neg hnew, he']⟩
    | ships hwal hlast =>
      rw [hwal]
      exact hs.full slot hpos (by omega)
    | answers p request f env hrequest hf hanswered =>
      rw [wal, hanswered.ctx]
      exact hs.full slot hpos (hanswered.ctx ▸ hle)
  · intro p request minNextTs hmem hmin
    rcases h.mem_requests hmem with hold | ⟨_, _, _, _, rfl⟩ | ⟨env, hl, hsent⟩
    · exact hcarry _ _ (hs.promises p request minNextTs hold hmin)
    · cases hmin
    · subst hl
      obtain ⟨prevLogSlot, prevLogTerm, utc, _, rfl⟩ := hsent
      cases hmin
      rw [h.wal_eq (by simp)]
      have hpromise := settled_promise hclock hok rfl
      obtain ⟨hle, _, hend⟩ := Batch.reach_makeAcceptRequest s.ctx prevLogSlot prevLogTerm
        (some (Leader.heartbeatTs s.ctx (env.clock 0))) utc
      refine ⟨?_, hpromise.past⟩
      intro k e he hts
      refine le_min (hpromise.covered k e he hts) ?_
      -- the request reaches to the end of the leader's log
      by_cases hk : k ≤ prevLogSlot
      · exact hk.trans hle
      · exact hend k e he (by omega)
  · exact (hs.leader.carry hcarry).move hord (hs.leaderMove h hclock hok)
  · intro p
    exact ((hs.followers p).move hok.1 (hs.followerMove h p)).carry hcarry

end

theorem Label.clockForward_of_steady {l : Label} {now utc : DateTime} (h : now ≤ utc)
    (hl : ∀ env, l.leaderEnv? = some env → env = .steady utc) : l.ClockForward now utc := by
  refine ⟨h, ?_⟩
  intro env henv
  rw [hl env henv]
  exact ⟨monotone_const, fun _ => ⟨h, le_refl _⟩⟩

theorem fresh_safeStart : fresh.SafeStart where
  logs := fresh_matchingStart
  leader _ _ _ he := by cases he
  followers _ _ _ _ he := by cases he
  sent _ _ hmem := by cases hmem

end Tenure

/-- A tenure whose accept messages arrive in order, and the leader's clock. -/
structure Clocked where
  ordered : Ordered
  /-- Where the leader's last event left its clock. -/
  now : DateTime

namespace Clocked

abbrev tenure (s : Clocked) : Tenure := s.ordered.tenure

/-- A label of the tenure, and where it leaves the leader's clock. -/
def step (s : Clocked) (l : Tenure.Label × DateTime) : Option Clocked :=
  (s.ordered.step l.1).map fun ordered => ⟨ordered, l.2⟩

/-- The leader's clock never runs backwards. -/
def Forward (s : Clocked) (l : Tenure.Label × DateTime) : Prop := l.1.ClockForward s.now l.2

/-- It never runs backwards, and the leader settles first. -/
def Settling (s : Clocked) (l : Tenure.Label × DateTime) : Prop :=
  s.Forward l ∧ s.tenure.SettlesFirst l.1

/-- Every member has committed what the leader's log stamps up to the member's
`t_safe`, now or later in the tenure. -/
def SnapshotSafe (ok : Clocked → Tenure.Label × DateTime → Prop) (s : Clocked) : Prop :=
  ∀ t, Runs step ok s t → s.tenure.ctx.Covers t.tenure.wal ∧
    ∀ p, (s.tenure.followerCtx p).Covers t.tenure.wal

theorem step_tenure {s s' : Clocked} {l : Tenure.Label × DateTime} (h : s.step l = some s') :
    Tenure.Next s.tenure s'.tenure l.1 ∧ s'.now = l.2 := by
  obtain ⟨ordered, hordered, rfl⟩ := Option.map_eq_some_iff.mp h
  exact ⟨Tenure.step_next (Ordered.step_tenure hordered), rfl⟩

/-- Settled timestamps stay settled over a run. -/
theorem settled_of_runs {s t : Clocked} (hlogs : s.tenure.MatchInv) (hrun : Runs step Settling s t)
    {ts : DateTime} {slot : Nat} (hset : Settled s.tenure.wal s.now ts slot) :
    Settled t.tenure.wal t.now ts slot := by
  have hboth : t.tenure.MatchInv ∧ Settled t.tenure.wal t.now ts slot := by
    refine hrun.invariant (P := fun u => u.tenure.MatchInv ∧ Settled u.tenure.wal u.now ts slot)
      ⟨hlogs, hset⟩ ?_
    intro a l b ha hok hstep
    obtain ⟨hnext, hnow⟩ := step_tenure hstep
    rw [hnow]
    exact ⟨ha.1.step hnext.logNext, hnext.settled ha.1 hok.1 hok.2 ha.2⟩
  exact hboth.2

/-- **Snapshot safety of `t_safe`**, in a tenure whose leader settles first. -/
theorem snapshotSafe_of_settling {s t : Clocked} (h : s.tenure.SafeStart)
    (hsafe : SnapshotSafe Settling s) (hrun : Runs step Settling s t) :
    SnapshotSafe Settling t := by
  have hinv : Tenure.SafeInv s.tenure t.tenure t.now := by
    refine hrun.invariant (P := fun u => Tenure.SafeInv s.tenure u.tenure u.now)
      (h.safeInv s.now) ?_
    intro a l b ha hok hstep
    obtain ⟨hnext, hnow⟩ := step_tenure hstep
    rw [hnow]
    exact ha.next hnext hok.1 hok.2
  intro u hu
  obtain ⟨hleader, hfollowers⟩ := hsafe u (hrun.trans hu)
  refine ⟨?_, ?_⟩
  · exact (hinv.leader.carry fun _ _ => settled_of_runs hinv.logs hu).covers hleader
  · intro p
    exact ((hinv.followers p).carry fun _ _ => settled_of_runs hinv.logs hu).covers (hfollowers p)

/-- A fresh tenure, the leader's clock at the epoch. -/
def fresh : Clocked := ⟨Ordered.start Tenure.fresh, 0⟩

/-- Before the first heartbeat there is no safe time. -/
theorem fresh_snapshotSafe (ok : Clocked → Tenure.Label × DateTime → Prop) :
    SnapshotSafe ok fresh := by
  intro t _
  refine ⟨?_, ?_⟩
  · intro ts hts
    cases hts
  · intro p ts hts
    cases hts

/-- A heartbeat to an idle group moves the follower's safe time, and the write
after it is stamped later. -/
theorem snapshotSafe_of_settling_idle :
    ∃ t, exec step fresh
        [(.heartbeat (.steady (Duration.seconds 1)), Duration.seconds 1),
          (.deliverRequest 2 0 (.steady (Duration.seconds 1)), Duration.seconds 1),
          (Tenure.write "a" (Duration.seconds 2), Duration.seconds 2)] = some t ∧
      (t.tenure.followerCtx 2).tSafe =
        some (Duration.seconds 1 + Duration.milliseconds 6) ∧
      (t.tenure.wal.get? 1).isSome = true ∧ SnapshotSafe Settling t := by
  refine ⟨_, rfl, by decide, rfl, snapshotSafe_of_settling Tenure.fresh_safeStart
    (fresh_snapshotSafe _) ?_⟩
  have hempty : ∀ slot e, WriteAheadLog.new.get? slot = some e → False := by
    intro slot e he
    cases he
  refine .head (.heartbeat (.steady (Duration.seconds 1)), Duration.seconds 1)
    ⟨Tenure.Label.clockForward_of_steady (by decide) ?_, .new, ?_⟩ rfl ?_
  · intro env henv
    exact (Option.some.inj henv).symm
  · exact fun slot e he => (hempty slot e he).elim
  refine .head (.deliverRequest 2 0 (.steady (Duration.seconds 1)), Duration.seconds 1)
    ⟨Tenure.Label.clockForward_of_steady (le_refl _) ?_, .new, trivial⟩ rfl ?_
  · intro env henv
    cases henv
  refine .head (Tenure.write "a" (Duration.seconds 2), Duration.seconds 2)
    ⟨Tenure.Label.clockForward_of_steady (by decide) ?_, .new, ?_⟩ rfl (.refl _)
  · intro env henv
    exact (Option.some.inj henv).symm
  · exact fun slot e he => (hempty slot e he).elim

/-- The heartbeat after a write moves the leader's own safe time past the write,
which nobody has acknowledged. -/
theorem not_snapshotSafe_pending :
    ¬ ∀ s t : Clocked, s.tenure.SafeStart → SnapshotSafe Forward s → Runs step Forward s t →
      SnapshotSafe Forward t := by
  intro hall
  have hrun : Runs step Forward fresh _ :=
    .head (Tenure.write "a" (Duration.seconds 1), Duration.seconds 1)
      (Tenure.Label.clockForward_of_steady (by decide) fun env henv =>
        (Option.some.inj henv).symm) rfl
      (.head (.heartbeat (.steady (Duration.seconds 9)), Duration.seconds 9)
        (Tenure.Label.clockForward_of_steady (by decide) fun env henv =>
          (Option.some.inj henv).symm) rfl (.refl _))
  have hcovers := (hall _ _ Tenure.fresh_safeStart (fresh_snapshotSafe _) hrun _ (.refl _)).1
  have hslot := hcovers _ rfl 1 _ rfl (by decide)
  revert hslot
  decide

end Clocked
end SpannerPaxos
