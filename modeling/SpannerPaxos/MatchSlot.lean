import SpannerPaxos.LogMatching

/-! # What a match slot is worth

A follower that acknowledges a batch agrees with the leader up to the batch's
reach.  It keeps doing so only as long as it writes no batch that reaches less
far: the accept handler drops everything above the anchor, also what the batch
does not conflict with, so a late or repeated request takes acknowledged entries
away.  A tenure in which no such request is written, and in which the leader
writes at new slots only, holds every entry up to every recorded match slot.
-/
namespace SpannerPaxos

open ReplicatedLog

/-- The part of an entry that a replica is compared by. -/
def LogEntry.termAndValue (e : LogEntry) : Nat × String := (e.term, e.entry)

/-- The two logs have the same terms and values on the slots `1, …, m`. -/
def Agree (wal wal' : WriteAheadLog) (m : Nat) : Prop :=
  ∀ k, 1 ≤ k → k ≤ m →
    (wal.get? k).map LogEntry.termAndValue = (wal'.get? k).map LogEntry.termAndValue

/-- Logs that match and agree on terms and values agree on the entries. -/
theorem Agree.sameUpTo {wal wal' : WriteAheadLog} {m : Nat} (h : Agree wal wal' m)
    (hmatch : LogsMatch wal wal') : SameUpTo wal.log wal'.log m := by
  intro k hk hm
  have hkey := h k hk hm
  show wal.get? k = wal'.get? k
  cases he : wal.get? k with
  | none =>
    rw [he] at hkey
    exact (Option.map_eq_none_iff.mp hkey.symm).symm
  | some e =>
    rw [he] at hkey
    obtain ⟨e', he', hkey'⟩ := Option.map_eq_some_iff.mp hkey.symm
    rw [he', hmatch.entry_eq hk he he' (congrArg Prod.fst hkey').symm]

namespace Tenure

/-- Every follower holds the leader's entries up to its recorded match slot. -/
def MatchHeld (s : Tenure) : Prop :=
  ∀ p m, s.matchSlot? p = some m → SameUpTo s.wal.log (s.followerWal p).log m

/-- Where a tenure may start for its match slots to be worth something. -/
structure HeldStart (s : Tenure) : Prop where
  matching : s.LogMatching
  agree : ∀ p m, s.matchSlot? p = some m → Agree s.wal (s.followerWal p) m
  idle : s.Idle
  /-- A follower's context carries the follower's own id. -/
  ids : ∀ p, (s.followerCtx p).memberId = p

/-- The leader writes at a new slot above every match slot, and a follower writes
a batch only if it reaches as far as everything acknowledged. -/
def KeepsAcked (s : Tenure) : Label → Prop
  | .clientWrite _ _ =>
    s.FreshSlot ∧ ∀ p m, s.matchSlot? p = some m → m ≤ s.ctx.lastLogSlot
  | .deliverRequest p i env => ∀ request, (s.requests p)[i]? = some request →
    s.Writes p request env →
      (∀ m, s.matchSlot? p = some m → m ≤ request.reach) ∧
        ∀ response ∈ s.responses p, response.success = true →
          response.lastWrittenSlot ≤ request.reach
  | _ => True

/-- A new match slot was there before, or the leader has got its acknowledgement. -/
theorem Next.matchSlot {s s' : Tenure} {l : Label} (h : Next s s' l) {p : Uuid} {m : Nat}
    (hm : s'.matchSlot? p = some m) :
    s.matchSlot? p = some m ∨ ∃ q, ∃ response ∈ s.responses q,
      p = response.memberId ∧ response.success = true ∧ m = response.lastWrittenSlot := by
  have hled : ∀ (leader : Leader) (a : Attempt (Leader × PaxosSharedContext)),
      s.leader = some leader → Led s s' a →
      (a.state.1.matchSlot? p = some m → leader.matchSlot? p = some m) →
      s.matchSlot? p = some m := by
    intro leader a hleader hled hsame
    rw [matchSlot?, hleader]
    rcases hled.leader with hl | hl
    · rw [matchSlot?, hl] at hm
      exact hsame hm
    · rw [matchSlot?, hl] at hm
      cases hm
  cases h with
  | clientWrite leader hleader h => exact Or.inl (hled leader _ hleader h id)
  | writeFlush leader hleader h =>
    exact Or.inl (hled leader _ hleader h fun hm =>
      (leader.handleWriteFlush_standing _ _).matchSlot p ▸ hm)
  | heartbeat leader hleader h =>
    exact Or.inl (hled leader _ hleader h fun hm =>
      (leader.handleHeartbeatTimer_standing _ _).matchSlot p ▸ hm)
  | timeoutCheck leader hleader h =>
    exact Or.inl (hled leader _ hleader h fun hm =>
      (leader.handleAcceptTimeoutCheck_standing _).matchSlot p ▸ hm)
  | deliverRequest request hrequest f hf hanswered =>
    refine Or.inl ?_
    rw [matchSlot?, ← hanswered.leader]
    exact hm
  | deliverResponse response hresponse leader hleader hterm h =>
    -- the only event that moves a match slot
    rcases h.leader with hl | hl
    · rw [matchSlot?, hl] at hm
      rcases leader.handleAcceptResponse_matchSlot _ _ response hm with hold | hacked
      · refine Or.inl ?_
        rw [matchSlot?, hleader]
        exact hold
      · exact Or.inr ⟨_, response, List.mem_of_getElem? hresponse, hacked⟩
    · rw [matchSlot?, hl] at hm
      cases hm

/-- The followers agree with the leader up to everything acknowledged, and up to
everything recorded that is above `base`. -/
structure HeldInv (base : Nat) (s : Tenure) : Prop where
  logs : s.LogInv
  recorded : ∀ p m, s.matchSlot? p = some m →
    m ≤ base ∨ SameUpTo s.wal.log (s.followerWal p).log m
  acked : ∀ p, ∀ response ∈ s.responses p, response.success = true →
    SameUpTo s.wal.log (s.followerWal p).log response.lastWrittenSlot ∧
      (response.lastWrittenSlot = 0 ∨ ∃ e, s.wal.get? response.lastWrittenSlot = some e)
  sender : ∀ p, ∀ response ∈ s.responses p, response.memberId = p
  ids : ∀ p, (s.followerCtx p).memberId = p

theorem HeldStart.heldInv {s : Tenure} (h : s.HeldStart) : s.HeldInv 0 where
  logs := .start h.matching h.idle
  recorded p m hm := Or.inr ((h.agree p m hm).sameUpTo (h.matching.1 p))
  acked p response hmem := by
    rw [(h.idle p).2] at hmem
    cases hmem
  sender p response hmem := by
    rw [(h.idle p).2] at hmem
    cases hmem
  ids := h.ids

/-- An agreement survives a step, if it does not reach the slot of a client write
and a batch written over it reaches as far. -/
theorem sameUpTo_step {s s' : Tenure} {l : Label} {p : Uuid} {m : Nat} (hs : s.LogInv)
    (h : Next s s' l) (hm : SameUpTo s.wal.log (s.followerWal p).log m)
    (hwrite : ∀ command env, l = .clientWrite command env → m ≤ s.ctx.lastLogSlot)
    (hreach : ∀ i env request, l = .deliverRequest p i env →
      (s.requests p)[i]? = some request → s.Writes p request env → m ≤ request.reach) :
    SameUpTo s'.wal.log (s'.followerWal p).log m := by
  cases h with
  | clientWrite leader hleader hled =>
    -- the new entry is behind everything that agrees
    obtain ⟨hwal, _⟩ := hled.append_spec
    have hle := hwrite _ _ rfl
    rw [hwal, WriteAheadLog.log_append, followerWal, hled.followerCtx]
    refine (sameUpTo_append _ ?_).symm.trans hm
    show m < s.ctx.lastLogSlot + 1
    omega
  | writeFlush leader hleader hled =>
    rw [(Next.writeFlush leader hleader hled).wal_eq (by simp), followerWal, hled.followerCtx]
    exact hm
  | heartbeat leader hleader hled =>
    rw [(Next.heartbeat leader hleader hled).wal_eq (by simp), followerWal, hled.followerCtx]
    exact hm
  | timeoutCheck leader hleader hled =>
    rw [(Next.timeoutCheck leader hleader hled).wal_eq (by simp), followerWal, hled.followerCtx]
    exact hm
  | deliverResponse response hresponse leader hleader hterm hled =>
    rw [(Next.deliverResponse response hresponse leader hleader hterm hled).wal_eq (by simp),
      followerWal, hled.followerCtx]
    exact hm
  | deliverRequest request hrequest f hf hanswered =>
    rename_i q i env
    obtain ⟨hother, hown⟩ := followerWal_of_answered hf hanswered
    rw [wal, hanswered.ctx]
    by_cases hp : p = q
    · subst hp
      rcases hown with hkept | ⟨hwrites, hwritten⟩
      · rw [hkept]
        exact hm
      · -- the batch is the leader's, and reaches as far as the agreement did
        rw [hwritten]
        exact ((hs.batches p request (List.mem_of_getElem? hrequest)).sameUpTo_written
          (hs.matching p) hwrites.2).mono (hreach i env request rfl hrequest hwrites)
    · rw [hother p hp]
      exact hm

/-- A new slot is written under the guard only. -/
theorem KeepsAcked.freshSlot {s s' : Tenure} {l : Label} (hok : s.KeepsAcked l)
    (h : Next s s' l) (hwal : s'.wal ≠ s.wal) : s.FreshSlot := by
  cases l with
  | clientWrite command env => exact hok.1
  | _ => exact absurd (h.wal_eq (by simp)) hwal

theorem HeldInv.step {base : Nat} {s s' : Tenure} {l : Label} (hs : s.HeldInv base)
    (hok : s.KeepsAcked l) (h : s.step l = some s') : s'.HeldInv base := by
  have hnext := step_next h
  have hlogs := hs.logs.step hnext.logNext (hok.freshSlot hnext)
  -- what is recorded or acknowledged is what the guard protects
  have hcarry : ∀ p m, SameUpTo s.wal.log (s.followerWal p).log m →
      (s.matchSlot? p = some m ∨ ∃ response ∈ s.responses p, response.success = true ∧
        response.lastWrittenSlot = m) →
      SameUpTo s'.wal.log (s'.followerWal p).log m := by
    intro p m hm hwhy
    refine sameUpTo_step hs.logs hnext hm ?_ ?_
    · rintro command env rfl
      rcases hwhy with hmatch | ⟨response, hmem, hsuccess, rfl⟩
      · exact hok.2 p m hmatch
      · rcases (hs.acked p response hmem hsuccess).2 with h0 | ⟨e, he⟩
        · omega
        · exact hok.1.1 _ e he
    · rintro i env request rfl hrequest hwrites
      obtain ⟨hmatches, hacks⟩ := hok request hrequest hwrites
      rcases hwhy with hmatch | ⟨response, hmem, hsuccess, rfl⟩
      · exact hmatches m hmatch
      · exact hacks response hmem hsuccess
  refine ⟨hlogs, ?_, ?_, ?_, ?_⟩
  · intro p m hm
    rcases hnext.matchSlot hm with hold | ⟨q, response, hmem, hp, hsuccess, hslot⟩
    · rcases hs.recorded p m hold with hbase | hsame
      · exact Or.inl hbase
      · exact Or.inr (hcarry p m hsame (Or.inl hold))
    · have hq : p = q := hp.trans (hs.sender q response hmem)
      subst hq
      exact Or.inr (hcarry p m (hslot ▸ (hs.acked p response hmem hsuccess).1)
        (Or.inr ⟨response, hmem, hsuccess, hslot.symm⟩))
  · intro p response hmem hsuccess
    rcases hnext.mem_responses hmem with hold | ⟨i, env, request, f, rfl, hrequest, hf, hctx, rfl⟩
    · obtain ⟨hsame, hslot⟩ := hs.acked p response hold hsuccess
      refine ⟨hcarry p _ hsame (Or.inr ⟨response, hold, hsuccess, rfl⟩), ?_⟩
      rcases hslot with h0 | ⟨e, he⟩
      · exact Or.inl h0
      · exact Or.inr (hnext.logNext.get?_of_get? he)
    · obtain ⟨_, _, ⟨_, _, hno⟩ | ⟨hwrites, hwritten, _, hreach⟩⟩ :=
        s.answer_cases request env hf
      · rw [hno] at hsuccess
        cases hsuccess
      · have hbatch := hs.logs.batches p request (List.mem_of_getElem? hrequest)
        rw [hreach, hnext.wal_eq (by simp), followerWal, hctx, hwritten]
        exact ⟨hbatch.sameUpTo_written (hs.logs.matching p) hwrites.2, hbatch.reach⟩
  · intro p response hmem
    rcases hnext.mem_responses hmem with hold | ⟨i, env, request, f, _, _, hf, _, rfl⟩
    · exact hs.sender p response hold
    · exact (s.answer_cases _ _ hf).1.trans (hs.ids p)
  · intro p
    exact (hnext.followerId p).trans (hs.ids p)

/-- **Every match slot is held**, in a tenure that keeps what is acknowledged. -/
theorem matchHeld_of_keepsAcked {s t : Tenure} (h : s.HeldStart)
    (hrun : Runs Tenure.step KeepsAcked s t) : t.MatchHeld := by
  have hinv : t.HeldInv 0 := hrun.invariant h.heldInv fun _ _ _ ha hok hstep => ha.step hok hstep
  intro p m hm
  rcases hinv.recorded p m hm with hzero | hsame
  · rw [Nat.le_zero.mp hzero]
    exact .zero _ _
  · exact hsame

theorem fresh_heldStart : fresh.HeldStart where
  matching := fresh_matchingStart.matching
  agree _ _ _ _ _ _ := rfl
  idle _ := ⟨rfl, rfl⟩
  ids _ := rfl

/-- A first write is at a new slot. -/
theorem fresh_keepsAcked (value : String) (utc : DateTime) :
    fresh.KeepsAcked (write value utc) := by
  refine ⟨⟨?_, ?_⟩, ?_⟩
  · intro k e he
    cases he
  · intro p e he
    cases he
  · intro p m hm
    simp only [matchSlot?, fresh, Option.bind_some, Leader.matchSlot?, Leader.new,
      AssocMap.get?_mapValues, AssocMap.get?_ofKeys] at hm
    split at hm
    · cases Option.some.inj hm
      exact Nat.le_refl 0
    · cases hm

/-- The first write is held by the follower once its batch has been delivered. -/
theorem matchHeld_of_keepsAcked_first :
    ∃ t, exec Tenure.step fresh [write "a" (Duration.seconds 1),
        .writeFlush (.steady (Duration.seconds 1)),
        .deliverRequest 2 0 (.steady (Duration.seconds 2)),
        .deliverResponse 2 0 (.steady (Duration.seconds 3))] = some t ∧
      t.matchSlot? 2 = some 1 ∧ t.MatchHeld := by
  refine ⟨_, rfl, rfl, matchHeld_of_keepsAcked fresh_heldStart ?_⟩
  refine .head _ (fresh_keepsAcked "a" (Duration.seconds 1)) rfl ?_
  refine .head (.writeFlush (.steady (Duration.seconds 1))) trivial rfl ?_
  refine .head (.deliverRequest 2 0 (.steady (Duration.seconds 2))) ?_ rfl ?_
  · intro request hrequest _
    refine ⟨?_, ?_⟩
    · intro m hm
      cases Option.some.inj (show some 0 = some m from hm)
      exact Nat.zero_le _
    · intro response hmem
      cases hmem
  exact .head (.deliverResponse 2 0 (.steady (Duration.seconds 3))) trivial rfl (.refl _)

/-- A heartbeat with nothing to ship is overtaken by the first write.  When it
comes in at last, the follower drops the entry it has acknowledged. -/
theorem not_matchHeld_overtaken :
    ¬ ∀ s t : Tenure, s.HeldStart → Reaches Tenure.step s t → t.MatchHeld := by
  intro hall
  have hrun : Reaches Tenure.step fresh _ := Runs.of_exec
    [.heartbeat (.steady (Duration.seconds 1)), write "a" (Duration.seconds 1),
      .writeFlush (.steady (Duration.seconds 1)),
      .deliverRequest 2 1 (.steady (Duration.seconds 2)),
      .deliverResponse 2 0 (.steady (Duration.seconds 3)),
      .deliverRequest 2 0 (.steady (Duration.seconds 3))] rfl
  have hsame := hall _ _ fresh_heldStart hrun 2 1 rfl 1 (by decide) (by decide)
  cases hsame

end Tenure
end SpannerPaxos
