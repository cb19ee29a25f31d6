import SpannerPaxos.InOrder
import SpannerPaxos.Recovery

/-! # What a win starts

The match slots of a new leader are seeds: the Promises of voters with the
Candidate's own last term, cut to its log.  The win restamps what it recovers, and
a voter's copy of a restamped entry is not the leader's any more.  So the seeds
are worth what they say only below everything recovered.
-/
namespace SpannerPaxos

open ReplicatedLog

/-- The log position is that of the last entry of the log. -/
structure PaxosSharedContext.TruthfulPosition (ctx : PaxosSharedContext) : Prop where
  last : ctx.lastLogSlot = 0 ∨ ctx.wal.getTerm ctx.lastLogSlot = some ctx.lastLogTerm
  le : ∀ k e, ctx.wal.get? k = some e → k ≤ ctx.lastLogSlot

namespace Tenure

/-- Nobody leads yet, the logs match, and the log positions are those of the logs. -/
structure BeforeWin (s : Tenure) : Prop where
  leader : s.leader = none
  idle : s.Idle
  matching : s.LogMatching
  position : s.ctx.TruthfulPosition
  positions : ∀ p, (s.followerCtx p).TruthfulPosition
  /-- Uncommitted entries are kept under their slots. -/
  keyed : KeyedBySlot s.ctx.uncommittedLogs
  keyeds : ∀ p, KeyedBySlot (s.followerCtx p).uncommittedLogs
  /-- A follower's context carries the follower's own id. -/
  ids : ∀ p, (s.followerCtx p).memberId = p

/-- Before the win there is nobody to send an accept message. -/
theorem BeforeWin.step_eq_none {s : Tenure} (h : s.BeforeWin) (l : Label) :
    s.step l = none := by
  have hevent : ∀ event env, s.leaderEvent event env = none := by
    intro event env
    rw [leaderEvent, h.leader]
  cases l with
  | clientWrite command env => exact hevent (.clientWriteRequestReceived command) env
  | writeFlush env => exact hevent .writeFlushTimerFired env
  | heartbeat env => exact hevent .heartbeatTimerFired env
  | timeoutCheck env => exact hevent .acceptTimeoutCheckFired env
  | deliverRequest p i env => simp only [step, (h.idle p).1, List.getElem?_nil]
  | deliverResponse p i env => simp only [step, (h.idle p).2, List.getElem?_nil]

/-- The slots a win with these promisers recovers. -/
def Recoverable (s : Tenure) (promisers : List Uuid) (slot : Nat) : Prop :=
  (∃ e, s.ctx.uncommittedLogs.get? slot = some e) ∨
    s.ctx.committedSlot < slot ∧
      ∃ p ∈ promisers, ∃ e, (s.followerCtx p).uncommittedLogs.get? slot = some e

/-- The match slot that a Promise of this member seeds. -/
def seed (s : Tenure) (p : Uuid) : Nat :=
  min (s.followerCtx p).lastLogSlot s.ctx.lastLogSlot

/-- The condition on the logs of the campaign and its promisers: the term is new
to the followers' logs, what is recovered is a tail of the Candidate's log, and,
unless the group has at most three members, a seed above the commit point is at a
slot where the two logs share the term, below everything recovered. -/
structure SeedsLast (s : Tenure) (promisers : List Uuid) : Prop where
  newTerm : ∀ p k e, (s.followerWal p).get? k = some e → e.term ≠ s.ctx.term
  tail : ∀ slot k e, s.Recoverable promisers slot → s.ctx.wal.get? k = some e →
    k < slot ∨ s.Recoverable promisers k
  seeds : s.ctx.getQuorumSize ≤ 2 ∨ ∀ p ∈ promisers,
    (s.followerCtx p).lastLogTerm = s.ctx.lastLogTerm → s.ctx.committedSlot < s.seed p →
      s.ctx.wal.getTerm (s.seed p) = (s.followerWal p).getTerm (s.seed p) ∧
        ∀ slot, s.Recoverable promisers slot → s.seed p < slot

/-- The promisers once a response has come in. -/
def promisersWith (promisers : List Uuid) (response : VoteResponse) : List Uuid :=
  if response.outcome.isPromise then response.memberId :: promisers else promisers

/-- What the Candidate has collected: seeds and uncommitted entries of promisers. -/
structure Collected (s : Tenure) (c : Candidate) (promisers : List Uuid) : Prop where
  keys : c.scoreBoard.keys = s.ctx.peerIds
  seeds : ∀ p pos, c.scoreBoard.get? p = some pos → pos.matchSlot = 0 ∨
    p ∈ promisers ∧ (s.followerCtx p).lastLogTerm = s.ctx.lastLogTerm ∧
      pos.matchSlot = s.seed p
  keyed : KeyedBySlot c.pendingUncommittedLogs
  pending : ∀ slot, (∃ e, c.pendingUncommittedLogs.get? slot = some e) ↔
    ∃ p ∈ promisers, ∃ e, (s.followerCtx p).uncommittedLogs.get? slot = some e

/-- A new Candidate has collected nothing. -/
theorem Collected.new (s : Tenure) (dispatchTime : Option DateTime) (clock : CountDownClock) :
    s.Collected { Candidate.new s.ctx with
      voteDispatchTime := dispatchTime, voteCdClock := clock } [] := by
  refine ⟨AssocMap.keys_ofKeys _ s.ctx.peerIds_nodup _, ?_, ?_, ?_⟩
  · intro p pos hget
    simp only [Candidate.new, AssocMap.get?_ofKeys] at hget
    split at hget
    · cases Option.some.inj hget
      exact Or.inl rfl
    · cases hget
  · intro slot e he
    cases he
  · intro slot
    constructor
    · rintro ⟨e, he⟩
      cases he
    · rintro ⟨p, hp, _⟩
      cases hp

/-- Recording a truthful response collects what its sender reports. -/
theorem Collected.record {s : Tenure} {c c' : Candidate} {promisers : List Uuid}
    {response : VoteResponse} (hs : s.Collected c promisers)
    (hkeyed : ∀ p, KeyedBySlot (s.followerCtx p).uncommittedLogs)
    (htruth : response.outcome.isPromise = true →
      response.outcome = (s.followerCtx response.memberId).promiseVote.outcome)
    (h : c.recordVote response s.ctx = some c') :
    s.Collected c' (promisersWith promisers response) := by
  have hkeys := (Candidate.recordVote_keeps h).2
  unfold promisersWith
  by_cases hpromise : response.outcome.isPromise = true
  · rw [if_pos hpromise]
    obtain ⟨hpending, hboard⟩ := Candidate.recordVote_promise h (htruth hpromise)
    refine ⟨hkeys.trans hs.keys, ?_, ?_, ?_⟩
    · intro p pos hget
      rcases hboard p pos hget with hold | ⟨rfl, hterm, hslot⟩
      · rcases hs.seeds p pos hold with h0 | ⟨hp, hterm, hslot⟩
        · exact Or.inl h0
        · exact Or.inr ⟨List.mem_cons_of_mem _ hp, hterm, hslot⟩
      · exact Or.inr ⟨List.mem_cons_self, hterm, hslot⟩
    · rw [hpending]
      exact Candidate.keyed_mergeUncommittedLogs hs.keyed _
    · intro slot
      rw [hpending, Candidate.mergeUncommittedLogs_get?, hs.pending slot]
      -- the entries of the Promise are the sender's uncommitted ones
      have hsender : (∃ e ∈ (s.followerCtx response.memberId).uncommittedLogs.values,
          e.slot = slot) ↔ ∃ e, (s.followerCtx response.memberId).uncommittedLogs.get?
            slot = some e := by
        constructor
        · rintro ⟨e, he, rfl⟩
          obtain ⟨k, hk⟩ := OrderedMap.mem_values_iff.mp he
          exact ⟨e, by rw [hkeyed _ k e hk]; exact hk⟩
        · rintro ⟨e, he⟩
          exact ⟨e, OrderedMap.mem_values_iff.mpr ⟨slot, he⟩, hkeyed _ slot e he⟩
      rw [hsender]
      constructor
      · rintro (⟨p, hp, he⟩ | he)
        · exact ⟨p, List.mem_cons_of_mem _ hp, he⟩
        · exact ⟨_, List.mem_cons_self, he⟩
      · rintro ⟨p, hp, he⟩
        rcases List.mem_cons.mp hp with rfl | hold
        · exact Or.inr he
        · exact Or.inl ⟨p, hold, he⟩
  · rw [if_neg hpromise]
    obtain ⟨hpending, hboard⟩ := Candidate.recordVote_rejection h (by simpa using hpromise)
    refine ⟨hkeys.trans hs.keys, ?_, ?_, ?_⟩
    · rw [hboard]
      exact hs.seeds
    · rw [hpending]
      exact hs.keyed
    · rw [hpending]
      exact hs.pending

/-- What the Candidate would recover is what the promisers let it. -/
theorem Collected.recovers_iff {s : Tenure} {c : Candidate} {promisers : List Uuid}
    (hs : s.Collected c promisers) (slot : Nat) :
    c.Recovers s.ctx slot ↔ s.Recoverable promisers slot :=
  or_congr_right (and_congr_right fun _ => hs.pending slot)

/-! ## The win -/

/-- The tenure that a win starts. -/
def led (s : Tenure) (leader : Leader) (ctx : PaxosSharedContext) (effects : List Effect) :
    Tenure :=
  { s with
    leader := some leader
    ctx := ctx
    requests := fun p => s.requests p ++ sentTo p effects }

section Win
variable {s : Tenure} {c : Candidate} {promisers : List Uuid} {leader : Leader}
  {ctx : PaxosSharedContext} {effects : List Effect}

/-- A win replaces a tail of the Candidate's log by entries of the new term. -/
theorem newTail_of_won (hc : s.Collected c promisers) (hl : s.SeedsLast promisers)
    (hw : c.Won s.ctx leader ctx effects) :
    NewTail LogEntry.term s.ctx.wal.log ctx.wal.log (s.Recoverable promisers) s.ctx.term where
  changed slot hslot := hw.recovered slot ((hc.recovers_iff slot).mpr hslot)
  kept slot hno := hw.kept slot fun hslot => hno ((hc.recovers_iff slot).mp hslot)
  tail k slot e hslot he := hl.tail slot k e hslot he

/-- The new log ends at the new log position. -/
theorem le_lastLogSlot_of_won (hb : s.BeforeWin) (hc : s.Collected c promisers)
    (hl : s.SeedsLast promisers) (hw : c.Won s.ctx leader ctx effects) {k : Nat} {e : LogEntry}
    (he : ctx.wal.get? k = some e) : k ≤ ctx.lastLogSlot := by
  by_cases hk : c.Recovers s.ctx k
  · rcases hw.lastLogSlot with ⟨hnone, _⟩ | ⟨_, hmax⟩
    · exact absurd hk (hnone k)
    · exact hmax k hk
  · have hold : s.ctx.wal.get? k = some e := (hw.kept k hk).symm.trans he
    rcases hw.lastLogSlot with ⟨_, hlast⟩ | ⟨hmem, _⟩
    · rw [hlast]
      exact hb.position.le k e hold
    · rcases hl.tail _ k e ((hc.recovers_iff _).mp hmem) hold with hlt | hrecoverable
      · omega
      · exact absurd ((hc.recovers_iff k).mpr hrecoverable) hk

/-- The logs match after a win, and the term is the leader's own. -/
theorem matchInv_of_won (hb : s.BeforeWin) (hc : s.Collected c promisers)
    (hl : s.SeedsLast promisers) (hw : c.Won s.ctx leader ctx effects) :
    (s.led leader ctx effects).MatchInv where
  logs := by
    refine ⟨?_, ?_⟩
    · intro p
      exact (newTail_of_won hc hl hw).matching (hl.newTerm p) (hb.matching.1 p)
    · intro p request hmem
      rcases List.mem_append.mp hmem with hold | hnew
      · rw [(hb.idle p).1] at hold
        cases hold
      · exact .of_sent (hw.sent p request (mem_sentTo.mp hnew))
  followers := hb.matching.2
  own p k e _ he hterm := absurd (hterm.trans hw.same.term) (hl.newTerm p k e he)
  last _ _ he := le_lastLogSlot_of_won hb hc hl hw he

/-- A match slot of the new leader is 0 or the seed of a promiser. -/
theorem matchSlot_of_won (hc : s.Collected c promisers) (hw : c.Won s.ctx leader ctx effects)
    {p : Uuid} {m : Nat}
    (hm : (s.led leader ctx effects).matchSlot? p = some m) :
    m = 0 ∨ p ∈ promisers ∧ (s.followerCtx p).lastLogTerm = s.ctx.lastLogTerm ∧
      m = s.seed p := by
  obtain ⟨pos, hget, rfl⟩ := hw.matchSlot p m hm
  exact hc.seeds p pos hget

/-- A seed at which the two logs share the term is a slot they agree up to. -/
theorem sameUpTo_seed (hb : s.BeforeWin) {p : Uuid} (hpos : 0 < s.seed p)
    (hterm : s.ctx.wal.getTerm (s.seed p) = (s.followerWal p).getTerm (s.seed p)) :
    SameUpTo s.ctx.wal.log (s.followerWal p).log (s.seed p) := by
  -- the seed is the last slot of one of the two logs
  have hends : ∃ term, s.ctx.wal.getTerm (s.seed p) = some term := by
    rcases Nat.le_total (s.followerCtx p).lastLogSlot s.ctx.lastLogSlot with hle | hle
    · have hseed : s.seed p = (s.followerCtx p).lastLogSlot := min_eq_left hle
      rcases (hb.positions p).last with h0 | hlast
      · omega
      · rw [hterm, hseed]
        exact ⟨_, hlast⟩
    · have hseed : s.seed p = s.ctx.lastLogSlot := min_eq_right hle
      rcases hb.position.last with h0 | hlast
      · rw [hseed, h0] at hpos
        omega
      · rw [hseed]
        exact ⟨_, hlast⟩
  obtain ⟨term, hown⟩ := hends
  obtain ⟨e, he, ht⟩ := WriteAheadLog.getTerm_eq_some_iff.mp hown
  obtain ⟨e', he', ht'⟩ := WriteAheadLog.getTerm_eq_some_iff.mp (hterm.symm.trans hown)
  exact hb.matching.1 p _ e e' he he' (ht.trans ht'.symm)

/-- The Candidate's log position is still one of the log. -/
theorem extends_of_won (hb : s.BeforeWin) (hc : s.Collected c promisers)
    (hl : s.SeedsLast promisers) (hw : c.Won s.ctx leader ctx effects) {m : Nat}
    (hm : m ≤ s.ctx.lastLogSlot) : (s.led leader ctx effects).Extends m := by
  rcases hb.position.last with h0 | hlast
  · rw [h0] at hm
    exact Or.inl (Nat.le_zero.mp hm)
  · obtain ⟨e, he, _⟩ := WriteAheadLog.getTerm_eq_some_iff.mp hlast
    obtain ⟨e', he'⟩ := (newTail_of_won hc hl hw).exists_of_some he
    exact Or.inr ⟨_, e', hm, he'⟩

theorem inOrder_of_won (hb : s.BeforeWin) (hc : s.Collected c promisers)
    (hl : s.SeedsLast promisers) (hw : c.Won s.ctx leader ctx effects) {floor : Nat}
    (hfloor : floor ≤ s.ctx.lastLogSlot) (nextRequest nextResponse : Uuid → Nat) :
    Ordered.InOrder floor ⟨s.led leader ctx effects, nextRequest, nextResponse⟩ := by
  refine .start (extends_of_won hb hc hl hw hfloor) ?_ ?_ fun p => (hb.idle p).2
  · intro p request hmem
    rcases List.mem_append.mp hmem with hold | hnew
    · rw [(hb.idle p).1] at hold
      cases hold
    · exact ⟨none, hw.sent p request (mem_sentTo.mp hnew)⟩
  · intro p m hm
    refine extends_of_won hb hc hl hw ?_
    rcases matchSlot_of_won hc hw hm with h0 | ⟨_, _, rfl⟩
    · omega
    · exact min_le_right _ _

/-- The followers hold the seeds above `base`. -/
theorem heldInv_of_won (hb : s.BeforeWin) (hc : s.Collected c promisers)
    (hl : s.SeedsLast promisers) (hw : c.Won s.ctx leader ctx effects) {base : Nat}
    (hseeds : ∀ p ∈ promisers, (s.followerCtx p).lastLogTerm = s.ctx.lastLogTerm →
      base < s.seed p →
        s.ctx.wal.getTerm (s.seed p) = (s.followerWal p).getTerm (s.seed p) ∧
          ∀ slot, s.Recoverable promisers slot → s.seed p < slot) :
    (s.led leader ctx effects).HeldInv base where
  logs := (matchInv_of_won hb hc hl hw).logs
  recorded p m hm := by
    by_cases hle : m ≤ base
    · exact Or.inl hle
    · rcases matchSlot_of_won hc hw hm with h0 | ⟨hp, hlast, rfl⟩
      · omega
      · obtain ⟨hterm, hbelow⟩ := hseeds p hp hlast (by omega)
        exact Or.inr (((newTail_of_won hc hl hw).sameUpTo hbelow).trans
          (sameUpTo_seed hb (by omega) hterm))
  acked p response hmem := by
    have hnone : response ∈ s.responses p := hmem
    rw [(hb.idle p).2] at hnone
    cases hnone
  sender p response hmem := by
    have hnone : response ∈ s.responses p := hmem
    rw [(hb.idle p).2] at hnone
    cases hnone
  ids := hb.ids

/-- **A win whose seeds lie below what it recovers starts a sound tenure.** -/
theorem sound_of_won (hb : s.BeforeWin) (hc : s.Collected c promisers)
    (hl : s.SeedsLast promisers) (hw : c.Won s.ctx leader ctx effects)
    (nextRequest nextResponse : Uuid → Nat) :
    ∃ base floor,
      Ordered.Sound base floor ⟨s.led leader ctx effects, nextRequest, nextResponse⟩ := by
  have hlogs := matchInv_of_won hb hc hl hw
  have hboard : (s.led leader ctx effects).BoardOfPeers := by
    intro leader' hleader'
    cases Option.some.inj hleader'
    exact (hw.keys.trans hc.keys).trans hw.same.peerIds.symm
  rcases hl.seeds with hsmall | hseeds
  · -- no seed is above the Candidate's log, and every batch reaches as far
    refine ⟨s.ctx.lastLogSlot, s.ctx.lastLogSlot, hlogs, heldInv_of_won hb hc hl hw ?_,
      inOrder_of_won hb hc hl hw (Nat.le_refl _) _ _, hboard, Or.inr ⟨?_, Nat.le_refl _⟩⟩
    · intro p _ _ hlt
      have hle : s.seed p ≤ s.ctx.lastLogSlot := min_le_right _ _
      omega
    · show ctx.getQuorumSize ≤ 2
      unfold PaxosSharedContext.getQuorumSize
      rw [hw.same.peerIds]
      exact hsmall
  · exact ⟨s.ctx.committedSlot, 0, hlogs, heldInv_of_won hb hc hl hw hseeds,
      inOrder_of_won hb hc hl hw (Nat.zero_le _) _ _, hboard,
      Or.inl (le_of_eq hw.committedSlot.symm)⟩

end Win

end Tenure
end SpannerPaxos
