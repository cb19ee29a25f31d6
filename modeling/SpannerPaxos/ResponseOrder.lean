import SpannerPaxos.ClientReplies
import SpannerPaxos.LeaderStability
import Mathlib.Order.MinMax

/-! # The order of accept responses

What a Leader makes of successful responses does not depend on their order, nor on
how often each arrives.  After any number of them its records have a closed form in
the set of responses: the newest contact and the highest acknowledged slot of every
follower are greatest elements, and lease and commit point are what these give.
-/
theorem List.dropWhile_dropWhile_of_imp {α : Type} {p q : α → Bool}
    (h : ∀ a, p a = true → q a = true) (l : List α) :
    (l.dropWhile p).dropWhile q = l.dropWhile q := by
  induction l with
  | nil => rfl
  | cons a l ih =>
    by_cases hp : p a = true
    · rw [List.dropWhile_cons_of_pos hp, List.dropWhile_cons_of_pos (h a hp), ih]
    · rw [List.dropWhile_cons_of_neg hp]

namespace SpannerPaxos

namespace FollowerState
variable (self : FollowerState)

/-- The follower's state once it has acknowledged `slot`. -/
def acked (slot : Nat) : FollowerState :=
  if self.logPosition.matchSlot < slot then self.recordMatch slot else self

@[simp] theorem acked_matchSlot (slot : Nat) :
    (self.acked slot).logPosition.matchSlot = max self.logPosition.matchSlot slot := by
  unfold acked
  split
  · rename_i hlt
    exact (max_eq_right (Nat.le_of_lt hlt)).symm
  · rename_i hle
    exact (max_eq_left (Nat.not_lt.mp hle)).symm

/-- Of two acknowledgements, the higher one counts. -/
theorem acked_acked (slot slot' : Nat) :
    (self.acked slot).acked slot' = self.acked (max slot slot') := by
  by_cases hfirst : self.logPosition.matchSlot < slot
  · have hacked : self.acked slot = self.recordMatch slot := if_pos hfirst
    by_cases hsecond : slot < slot'
    · have hmax : max slot slot' = slot' := max_eq_right (Nat.le_of_lt hsecond)
      have hboth : self.acked slot' = self.recordMatch slot' := if_pos (Nat.lt_trans hfirst hsecond)
      have hmatch : (self.recordMatch slot).logPosition.matchSlot < slot' := hsecond
      have hbatches : ∀ b : InFlightBatch, decide (b.highestSlot ≤ slot) = true →
          decide (b.highestSlot ≤ slot') = true := by
        intro b hb
        rw [decide_eq_true_eq] at hb ⊢
        omega
      rw [hmax, hboth, hacked, acked, if_pos hmatch]
      simp only [recordMatch, ackBatchesUpTo, List.dropWhile_dropWhile_of_imp hbatches,
        max_assoc, hmax]
    · have hmax : max slot slot' = slot := max_eq_left (Nat.not_lt.mp hsecond)
      have hmatch : ¬ (self.recordMatch slot).logPosition.matchSlot < slot' := hsecond
      rw [hmax, hacked, acked, if_neg hmatch]
  · have hacked : self.acked slot = self := if_neg hfirst
    rw [hacked]
    unfold acked
    by_cases hsecond : self.logPosition.matchSlot < slot'
    · have hmax : max slot slot' = slot' := max_eq_right (by omega)
      rw [hmax]
    · have hmax : ¬ self.logPosition.matchSlot < max slot slot' := by omega
      rw [if_neg hsecond, if_neg hmax]

end FollowerState

/-! ## What a set of responses says -/

/-- The value is set, and at least `t`. -/
def AtLeast {α : Type} [LE α] (o : Option α) (t : α) : Prop := ∃ c, o = some c ∧ t ≤ c

theorem eq_of_atLeast {α : Type} [PartialOrder α] {o o' : Option α}
    (h : ∀ t, AtLeast o t ↔ AtLeast o' t) : o = o' := by
  cases o with
  | none =>
    cases o' with
    | none => rfl
    | some c' =>
      obtain ⟨_, hc, _⟩ := (h c').mpr ⟨c', rfl, le_refl _⟩
      cases hc
  | some c =>
    obtain ⟨c', rfl, hle⟩ := (h c).mp ⟨c, rfl, le_refl _⟩
    obtain ⟨_, hc, hge⟩ := (h c').mpr ⟨c', rfl, le_refl _⟩
    cases hc
    rw [le_antisymm hle hge]

/-- The highest slot that member `p` acknowledges in the responses. -/
def ackedSlot (p : Uuid) (responses : List AcceptResponse) : Nat :=
  responses.foldr (fun r slot => if r.memberId = p then max r.lastWrittenSlot slot else slot) 0

theorem le_ackedSlot_iff {p : Uuid} {responses : List AcceptResponse} {slot : Nat} :
    slot ≤ ackedSlot p responses ↔
      slot = 0 ∨ ∃ r ∈ responses, r.memberId = p ∧ slot ≤ r.lastWrittenSlot := by
  induction responses with
  | nil => simp [ackedSlot]
  | cons r responses ih =>
    rw [ackedSlot, List.foldr_cons, ← ackedSlot, List.exists_mem_cons_iff]
    split
    · rename_i hp
      rw [le_max_iff, ih]
      simp only [hp, true_and]
      exact or_left_comm
    · rename_i hp
      simp only [ih, hp, false_and, false_or]

/-- Only the set of the responses counts. -/
theorem ackedSlot_congr {p : Uuid} {xs ys : List AcceptResponse} (h : ∀ r, r ∈ xs ↔ r ∈ ys) :
    ackedSlot p xs = ackedSlot p ys := by
  refine eq_of_forall_le_iff fun slot => ?_
  rw [le_ackedSlot_iff, le_ackedSlot_iff]
  simp only [h]

theorem ackedSlot_concat (p : Uuid) (responses : List AcceptResponse) (r : AcceptResponse) :
    ackedSlot p (responses ++ [r]) =
      if r.memberId = p then max (ackedSlot p responses) r.lastWrittenSlot
      else ackedSlot p responses := by
  refine eq_of_forall_le_iff fun slot => ?_
  split
  · rename_i hp
    simp only [le_ackedSlot_iff, le_max_iff, List.mem_append, List.mem_singleton, or_and_right,
      exists_or, exists_eq_left, hp, true_and]
    exact or_assoc.symm
  · rename_i hp
    simp only [le_ackedSlot_iff, List.mem_append, List.mem_singleton, or_and_right, exists_or,
      exists_eq_left, hp, false_and, or_false]

namespace Leader
variable {l l' : Leader} {ctx ctx' : PaxosSharedContext}

/-! ## Lease and quorum slot as counts -/

/-- The weakest contact of a quorum is at least `t` if enough followers have one. -/
theorem atLeast_contactTimes_iff {i : Nat} {t : DateTime} :
    AtLeast l.contactTimes[i]? t ↔ i < l.lastContact.values.countP fun c => decide (t ≤ c) := by
  constructor
  · rintro ⟨c, hc, hle⟩
    refine lt_of_lt_of_le (Quorum.lt_countP_of_getElem? hc) (List.countP_mono_left ?_)
    intro b _ hb
    exact decide_eq_true (le_trans hle (of_decide_eq_true hb))
  · exact Quorum.exists_getElem?_of_lt_countP

/-- **The lease after a renewal** is the later of the old one and the quorum's. -/
theorem atLeast_renewLease_iff {t : DateTime} :
    AtLeast (l.renewLease ctx).leaseExpiry t ↔ AtLeast ctx.leaseExpiry t ∨
      ctx.getQuorumSize - 2 < l.lastContact.values.countP fun c =>
        decide (t - PaxosSharedContext.leaseLength ≤ c) := by
  rw [← atLeast_contactTimes_iff]
  have hshift : ∀ c : DateTime, t - PaxosSharedContext.leaseLength ≤ c ↔
      t ≤ c + PaxosSharedContext.leaseLength := fun _ => Int.sub_right_le_iff_le_add
  unfold renewLease
  cases hquorum : l.contactTimes[ctx.getQuorumSize - 2]? with
  | none => simp [AtLeast]
  | some tQuorum =>
    cases hlease : ctx.leaseExpiry with
    | none => simp [AtLeast, PaxosSharedContext.updateLeaderLeaseExpiryTime, hshift]
    | some current =>
      simp only [AtLeast, Option.some.injEq, exists_eq_left', hshift]
      split
      · rename_i hlater
        simp only [PaxosSharedContext.updateLeaderLeaseExpiryTime, Option.some.injEq,
          exists_eq_left']
        exact (or_iff_right_of_imp fun h => le_trans h (le_of_lt hlater)).symm
      · rename_i hearlier
        simp only [hlease, Option.some.injEq, exists_eq_left']
        exact (or_iff_left_of_imp fun h => le_trans h (not_lt.mp hearlier)).symm

/-- The quorum slot reaches what the leader's log and enough followers reach. -/
theorem le_minQuorumSlot_iff {slot : Nat} :
    slot ≤ l.minQuorumSlot ctx ↔ slot ≤ ctx.lastLogSlot ∧
      min (ctx.getQuorumSize - 1) l.scoreBoard.size ≤
        l.scoreBoard.values.countP fun fs => decide (slot ≤ fs.logPosition.matchSlot) := by
  have hmin : slot ≤ l.minQuorumSlot ctx ↔
      ∀ b ∈ l.followerSlots.take (ctx.getQuorumSize - 1) ++ [ctx.lastLogSlot], slot ≤ b := by
    unfold minQuorumSlot
    cases h : (l.followerSlots.take (ctx.getQuorumSize - 1) ++ [ctx.lastLogSlot]).min? with
    | none => simp at h
    | some m => exact List.le_min?_iff h
  rw [hmin, List.forall_mem_append, List.forall_mem_singleton, followerSlots,
    Quorum.forall_take_iff, List.length_map, List.countP_map, AssocMap.length_values]
  exact and_comm

/-! ## Moving the commit point -/

/-- The commit point has moved to `slot`: what it has passed is no longer uncommitted
and no longer in flight, and who waited for a write in flight has been answered. -/
structure CommitsTo (l : Leader) (ctx : PaxosSharedContext) (slot : Nat) (l' : Leader)
    (ctx' : PaxosSharedContext) (effects : List Effect) : Prop where
  committedSlot : ctx'.committedSlot = slot
  uncommittedLogs : ctx'.uncommittedLogs = ctx.uncommittedLogs.dropTo ctx.committedSlot slot
  inFlightWrites : l'.inFlightWrites = l.inFlightWrites.dropTo ctx.committedSlot slot
  answers : ∀ tx, tx ∈ acknowledged effects ↔ ctx.committedSlot < slot ∧
    tx.receiverAlive = true ∧ ∃ s w, l.inFlightWrites.get? s = some w ∧ s ≤ slot ∧
      w.2.responseTx = tx

namespace CommitsTo
variable {l'' : Leader} {ctx'' : PaxosSharedContext} {slot slot' : Nat} {effects effects' : List Effect}

theorem refl (hcommitted : ctx'.committedSlot = ctx.committedSlot)
    (huncommitted : ctx'.uncommittedLogs = ctx.uncommittedLogs)
    (hwrites : l'.inFlightWrites = l.inFlightWrites) :
    CommitsTo l ctx ctx.committedSlot l' ctx' [] where
  committedSlot := hcommitted
  uncommittedLogs := by rw [huncommitted, OrderedMap.dropTo, if_neg (Nat.lt_irrefl _)]
  inFlightWrites := by rw [hwrites, OrderedMap.dropTo, if_neg (Nat.lt_irrefl _)]
  answers tx := iff_of_false List.not_mem_nil fun h => Nat.lt_irrefl _ h.1

theorem of_eq (h : CommitsTo l' ctx' slot l'' ctx'' effects)
    (hcommitted : ctx'.committedSlot = ctx.committedSlot)
    (huncommitted : ctx'.uncommittedLogs = ctx.uncommittedLogs)
    (hwrites : l'.inFlightWrites = l.inFlightWrites) : CommitsTo l ctx slot l'' ctx'' effects where
  committedSlot := h.committedSlot
  uncommittedLogs := by rw [h.uncommittedLogs, huncommitted, hcommitted]
  inFlightWrites := by rw [h.inFlightWrites, hwrites, hcommitted]
  answers tx := by rw [h.answers, hwrites, hcommitted]

/-- A write in flight is answered by the first commit that reaches it. -/
theorem trans (h : CommitsTo l ctx slot l' ctx' effects)
    (h' : CommitsTo l' ctx' slot' l'' ctx'' effects') (hle : ctx.committedSlot ≤ slot)
    (hle' : slot ≤ slot') : CommitsTo l ctx slot' l'' ctx'' (effects ++ effects') where
  committedSlot := h'.committedSlot
  uncommittedLogs := by
    rw [h'.uncommittedLogs, h.uncommittedLogs, h.committedSlot, OrderedMap.dropTo_dropTo hle hle']
  inFlightWrites := by
    rw [h'.inFlightWrites, h.inFlightWrites, h.committedSlot, OrderedMap.dropTo_dropTo hle hle']
  answers tx := by
    have hget : ∀ s w, l'.inFlightWrites.get? s = some w ↔
        l.inFlightWrites.get? s = some w ∧ (ctx.committedSlot < slot → slot < s) := by
      intro s w
      rw [h.inFlightWrites, OrderedMap.dropTo]
      split
      · rename_i hlt
        simp [hlt, and_comm]
      · rename_i hnot
        simp [hnot]
    rw [acknowledged_append, List.mem_append, h.answers, h'.answers, h.committedSlot]
    constructor
    · rintro (⟨hlt, halive, s, w, hw, hs, htx⟩ | ⟨hlt, halive, s, w, hw, hs, htx⟩)
      · exact ⟨Nat.lt_of_lt_of_le hlt hle', halive, s, w, hw, Nat.le_trans hs hle', htx⟩
      · exact ⟨Nat.lt_of_le_of_lt hle hlt, halive, s, w, ((hget s w).mp hw).1, hs, htx⟩
    · rintro ⟨hlt, halive, s, w, hw, hs, htx⟩
      by_cases hfirst : ctx.committedSlot < slot ∧ s ≤ slot
      · exact Or.inl ⟨hfirst.1, halive, s, w, hw, hfirst.2, htx⟩
      · refine Or.inr ⟨by omega, halive, s, w, (hget s w).mpr ⟨hw, fun _ => by omega⟩, hs, htx⟩

end CommitsTo

theorem mem_awaited_iff {writes : List (DateTime × PaxosCommand ClientWriteRequest)}
    {tx : ReplyChannel} :
    tx ∈ awaited writes ↔ tx.receiverAlive = true ∧ ∃ w ∈ writes, w.2.responseTx = tx := by
  rw [awaited, List.mem_filter, List.mem_map]
  exact and_comm

/-- **The commit point moves to the quorum slot**, unless it is there already. -/
theorem advanceCommit_commitsTo {env : Env} (h : (l.advanceCommit ctx env).fault = none) :
    CommitsTo l ctx (max ctx.committedSlot (l.minQuorumSlot ctx)) (l.advanceCommit ctx env).state.1
      (l.advanceCommit ctx env).state.2 (l.advanceCommit ctx env).effects := by
  unfold advanceCommit at h ⊢
  dsimp only at h ⊢
  by_cases hlt : l.minQuorumSlot ctx > ctx.committedSlot
  · rw [if_pos hlt] at h ⊢
    rw [max_eq_right (Nat.le_of_lt hlt)]
    refine ⟨ctx.commitTo_committedSlot _, ?_, ?_, fun tx => ?_⟩
    · rw [OrderedMap.dropTo, if_pos hlt]
      exact ctx.commitTo_uncommittedLogs _
    · rw [OrderedMap.dropTo, if_pos hlt]
      rfl
    · have hanswered := acknowledged_replyCommitted _ _ h
      rw [Attempt.map_effects, resolveInFlightWrites, Attempt.map_effects, hanswered,
        mem_awaited_iff]
      refine (and_iff_right hlt).symm.trans (and_congr_right fun _ => and_congr_right fun _ => ?_)
      constructor
      · rintro ⟨w, hw, htx⟩
        obtain ⟨s, hs⟩ := OrderedMap.mem_values_iff.mp hw
        rw [OrderedMap.get?_filterKeys, Option.ite_none_right_eq_some, decide_eq_true_eq] at hs
        exact ⟨s, w, hs.2, Nat.lt_succ_iff.mp hs.1, htx⟩
      · rintro ⟨s, w, hw, hs, htx⟩
        refine ⟨w, OrderedMap.mem_values_iff.mpr ⟨s, ?_⟩, htx⟩
        rw [OrderedMap.get?_filterKeys, if_pos (decide_eq_true (Nat.lt_succ_of_le hs)), hw]
  · rw [if_neg hlt, max_eq_left (Nat.not_lt.mp hlt)]
    exact .refl rfl rfl rfl

/-- What a commit leaves alone. -/
theorem advanceCommit_keeps (l : Leader) (ctx : PaxosSharedContext) (env : Env) :
    (l.advanceCommit ctx env).state.1.lastContact = l.lastContact ∧
      (l.advanceCommit ctx env).state.2.lastLogSlot = ctx.lastLogSlot ∧
      (l.advanceCommit ctx env).state.2.leaseExpiry = ctx.leaseExpiry := by
  unfold advanceCommit
  dsimp only
  split
  · exact ⟨rfl, ctx.commitTo_lastLogSlot _, ctx.commitTo_leaseExpiry _⟩
  · exact ⟨rfl, rfl, rfl⟩

/-- Of the leader's state, the quorum slot depends on the score board alone; of the
context, on the group and the end of the log. -/
theorem minQuorumSlot_congr (hboard : l'.scoreBoard = l.scoreBoard)
    (hpeers : ctx'.peerIds = ctx.peerIds) (hslot : ctx'.lastLogSlot = ctx.lastLogSlot) :
    l'.minQuorumSlot ctx' = l.minQuorumSlot ctx := by
  simp only [minQuorumSlot, followerSlots, PaxosSharedContext.getQuorumSize, hboard, hpeers, hslot]

/-! ## One response -/

/-- A successful response of the current term from a member of the group. -/
structure Credits (l : Leader) (ctx : PaxosSharedContext) (r : AcceptResponse) : Prop where
  success : r.success = true
  term : r.term = ctx.term
  member : r.memberId ∈ l.scoreBoard.keys

/-- What a successful response leaves behind. -/
structure Takes (l : Leader) (ctx : PaxosSharedContext) (r : AcceptResponse) (l' : Leader)
    (ctx' : PaxosSharedContext) (effects : List Effect) : Prop where
  sameMember : ctx.SameMember ctx'
  lastLogSlot : ctx'.lastLogSlot = ctx.lastLogSlot
  lastContact : l'.lastContact = (l.recordContact r).lastContact
  followers : ∀ p, l'.scoreBoard.get? p =
    if p = r.memberId then (l.scoreBoard.get? p).map fun fs => fs.acked r.lastWrittenSlot
    else l.scoreBoard.get? p
  lease : ctx'.leaseExpiry = ((l.recordContact r).renewLease ctx).leaseExpiry
  commits : ∃ fs, l.scoreBoard.get? r.memberId = some fs ∧
    CommitsTo l ctx (if fs.logPosition.matchSlot < r.lastWrittenSlot then
      max ctx.committedSlot (l'.minQuorumSlot ctx) else ctx.committedSlot) l' ctx' effects

/-- What the handler does with a successful response: record the contact, renew the
lease, and look at the commit point if the follower has more than was known. -/
theorem Credits.handleAcceptResponse_eq {r : AcceptResponse} {env : Env} {fs : FollowerState}
    (hpeers : 1 ≤ ctx.peerIds.length) (hr : Credits l ctx r)
    (hfs : l.scoreBoard.get? r.memberId = some fs) :
    l.handleAcceptResponse r ctx env =
      if r.lastWrittenSlot > fs.logPosition.matchSlot then
        ((l.recordContact r).setFollower r.memberId (fs.recordMatch r.lastWrittenSlot)).advanceCommit
          ((l.recordContact r).renewLease ctx) env
      else .ok (l.recordContact r, (l.recordContact r).renewLease ctx) := by
  have hsize : ¬ ctx.getQuorumSize < 2 := by
    unfold PaxosSharedContext.getQuorumSize
    omega
  have hfresh : ¬ r.term < ctx.term := by
    rw [hr.term]
    exact Nat.lt_irrefl _
  have hhint : ¬ (¬ r.success = true ∧ r.conflictHint = none) := fun h => h.1 hr.success
  have hboard : (l.recordContact r).scoreBoard.get? r.memberId = some fs := hfs
  unfold handleAcceptResponse
  simp only [if_neg hfresh, if_neg hhint, if_neg hsize, if_pos hr.success, hboard]
  rfl

/-- A response that says more about the follower than was known. -/
theorem Takes.improving {r : AcceptResponse} {env : Env} {fs : FollowerState}
    {a : Attempt (Leader × PaxosSharedContext)}
    (ha : a = ((l.recordContact r).setFollower r.memberId
      (fs.recordMatch r.lastWrittenSlot)).advanceCommit ((l.recordContact r).renewLease ctx) env)
    (hfs : l.scoreBoard.get? r.memberId = some fs)
    (hnew : fs.logPosition.matchSlot < r.lastWrittenSlot) (hsame : ctx.SameMember a.state.2)
    (hfault : a.fault = none) : Takes l ctx r a.state.1 a.state.2 a.effects := by
  subst ha
  have hrenew := (l.recordContact r).renewLease_sameMember ctx
  have hlast := (l.recordContact r).renewLease_lastLogSlot ctx
  have hcommitted := (l.recordContact r).renewLease_committedSlot ctx
  have huncommitted := (l.recordContact r).renewLease_uncommittedLogs ctx
  have hboard := advanceCommit_scoreBoard ((l.recordContact r).setFollower r.memberId
    (fs.recordMatch r.lastWrittenSlot)) ((l.recordContact r).renewLease ctx) env
  obtain ⟨hcontact, hslot, hlease⟩ := advanceCommit_keeps ((l.recordContact r).setFollower
    r.memberId (fs.recordMatch r.lastWrittenSlot)) ((l.recordContact r).renewLease ctx) env
  refine ⟨hsame, hslot.trans hlast, hcontact, fun p => ?_, hlease, fs, hfs, ?_⟩
  · rw [hboard, setFollower, AssocMap.get?_insert]
    split
    · rename_i hp
      rw [hp, hfs, Option.map_some, FollowerState.acked, if_pos hnew]
    · rfl
  · -- neither the renewal nor the commit changes what the quorum slot depends on
    have hcommits : CommitsTo l ctx _ _ _ _ :=
      (advanceCommit_commitsTo hfault).of_eq hcommitted huncommitted rfl
    rw [hcommitted] at hcommits
    rw [if_pos hnew, minQuorumSlot_congr hboard rfl rfl]
    rwa [minQuorumSlot_congr rfl hrenew.peerIds hlast] at hcommits

/-- A response that says nothing new about the follower. -/
theorem Takes.repeating {r : AcceptResponse} {fs : FollowerState}
    (hfs : l.scoreBoard.get? r.memberId = some fs)
    (hold : ¬ fs.logPosition.matchSlot < r.lastWrittenSlot) :
    Takes l ctx r (l.recordContact r) ((l.recordContact r).renewLease ctx) [] := by
  refine ⟨(l.recordContact r).renewLease_sameMember ctx,
    (l.recordContact r).renewLease_lastLogSlot ctx, rfl, fun p => ?_, rfl, fs, hfs, ?_⟩
  · split
    · rename_i hp
      rw [hp, hfs, Option.map_some, FollowerState.acked, if_neg hold]
      exact hfs
    · rfl
  · rw [if_neg hold]
    exact .refl ((l.recordContact r).renewLease_committedSlot ctx)
      ((l.recordContact r).renewLease_uncommittedLogs ctx) rfl

/-- **A successful response is taken in**, once the writes it commits are past their
commit wait. -/
theorem handleAcceptResponse_takes {r : AcceptResponse} {env : Env} (hpeers : 1 ≤ ctx.peerIds.length)
    (hr : Credits l ctx r) (hwait : (l.handleAcceptResponse r ctx env).fault ≠ some .waiting) :
    (l.handleAcceptResponse r ctx env).fault = none ∧
      Takes l ctx r (l.handleAcceptResponse r ctx env).state.1
        (l.handleAcceptResponse r ctx env).state.2 (l.handleAcceptResponse r ctx env).effects := by
  have hsame := l.handleAcceptResponse_sameMember ctx env r
  obtain ⟨fs, hfs⟩ := AssocMap.mem_keys_iff.mp hr.member
  have heq : l.handleAcceptResponse r ctx env = _ := hr.handleAcceptResponse_eq hpeers hfs
  by_cases hnew : fs.logPosition.matchSlot < r.lastWrittenSlot
  · rw [if_pos hnew] at heq
    have hfault : (l.handleAcceptResponse r ctx env).fault = none := by
      refine (Attempt.survives_iff_of_ne_waiting hwait).mp ?_
      rw [heq]
      exact advanceCommit_survives _ _ _
    exact ⟨hfault, .improving heq hfs hnew hsame hfault⟩
  · rw [if_neg hnew] at heq
    rw [heq]
    exact ⟨rfl, .repeating hfs hnew⟩

/-! ## Any number of responses -/

/-- Handling responses one after another. -/
def absorb : Leader × PaxosSharedContext → List (AcceptResponse × Env) →
    Attempt (Leader × PaxosSharedContext)
  | s, [] => .ok s
  | s, (response, env) :: rest =>
    (s.1.handleAcceptResponse response s.2 env).andThen fun s => absorb s rest

/-- Some follower acknowledges more than the leader knows it to have. -/
def Improves (l : Leader) (responses : List AcceptResponse) : Prop :=
  ∃ p fs, l.scoreBoard.get? p = some fs ∧ fs.logPosition.matchSlot < ackedSlot p responses

/-- **What responses leave behind**, in closed form: every contact and every
follower's log position is the best that the set of the responses gives, the lease is
what the contacts give, and the commit point what the followers give. -/
structure Absorbed (l : Leader) (ctx : PaxosSharedContext) (responses : List AcceptResponse)
    (l' : Leader) (ctx' : PaxosSharedContext) (effects : List Effect) : Prop where
  sameMember : ctx.SameMember ctx'
  lastLogSlot : ctx'.lastLogSlot = ctx.lastLogSlot
  contacts : ∀ p t, AtLeast (l'.lastContact.get? p) t ↔ AtLeast (l.lastContact.get? p) t ∨
    ∃ r ∈ responses, r.memberId = p ∧ t ≤ r.echoedTSend
  followers : ∀ p, l'.scoreBoard.get? p =
    (l.scoreBoard.get? p).map fun fs => fs.acked (ackedSlot p responses)
  lease : ∀ t, AtLeast ctx'.leaseExpiry t ↔ AtLeast ctx.leaseExpiry t ∨ responses ≠ [] ∧
    ctx.getQuorumSize - 2 < l'.lastContact.values.countP fun c =>
      decide (t - PaxosSharedContext.leaseLength ≤ c)
  commits : ∃ slot, CommitsTo l ctx slot l' ctx' effects ∧
    (Improves l responses → slot = max ctx.committedSlot (l'.minQuorumSlot ctx)) ∧
    (¬ Improves l responses → slot = ctx.committedSlot)

namespace Absorbed
variable {l'' : Leader} {ctx'' : PaxosSharedContext} {responses : List AcceptResponse}
  {r : AcceptResponse} {effects effects' : List Effect}

theorem nil (l : Leader) (ctx : PaxosSharedContext) : Absorbed l ctx [] l ctx [] where
  sameMember := .refl ctx
  lastLogSlot := rfl
  contacts p t := by simp
  followers p := by
    cases l.scoreBoard.get? p with
    | none => rfl
    | some fs =>
      have hzero : fs.acked (ackedSlot p []) = fs := if_neg (Nat.not_lt_zero _)
      rw [Option.map_some, hzero]
  lease t := by simp
  commits := by
    refine ⟨ctx.committedSlot, .refl rfl rfl rfl, ?_, fun _ => rfl⟩
    rintro ⟨p, fs, _, hlt⟩
    exact absurd hlt (Nat.not_lt_zero _)

/-- Contacts only get newer. -/
theorem atLeast_recordContact_iff (l : Leader) (r : AcceptResponse) (p : Uuid) (t : DateTime) :
    AtLeast ((l.recordContact r).lastContact.get? p) t ↔
      AtLeast (l.lastContact.get? p) t ∨ r.memberId = p ∧ t ≤ r.echoedTSend := by
  rw [recordContact, AssocMap.get?_insert]
  by_cases hp : p = r.memberId
  · subst hp
    cases l.lastContact.get? r.memberId with
    | none => simp [AtLeast]
    | some c => simp [AtLeast]
  · rw [if_neg hp]
    exact (or_iff_left fun h => hp h.1.symm).symm

theorem concat_contacts (h : Absorbed l ctx responses l' ctx' effects)
    (hr : Takes l' ctx' r l'' ctx'' effects') (p : Uuid) (t : DateTime) :
    AtLeast (l''.lastContact.get? p) t ↔ AtLeast (l.lastContact.get? p) t ∨
      ∃ r' ∈ responses ++ [r], r'.memberId = p ∧ t ≤ r'.echoedTSend := by
  rw [hr.lastContact, atLeast_recordContact_iff, h.contacts]
  simp only [List.mem_append, List.mem_singleton, or_and_right, exists_or, exists_eq_left]
  exact or_assoc

theorem concat_followers (h : Absorbed l ctx responses l' ctx' effects)
    (hr : Takes l' ctx' r l'' ctx'' effects') (p : Uuid) :
    l''.scoreBoard.get? p =
      (l.scoreBoard.get? p).map fun fs => fs.acked (ackedSlot p (responses ++ [r])) := by
  rw [hr.followers, h.followers, ackedSlot_concat]
  by_cases hp : p = r.memberId
  · rw [if_pos hp, if_pos hp.symm, Option.map_map]
    congr 1
    funext fs
    exact fs.acked_acked _ _
  · rw [if_neg hp, if_neg (Ne.symm hp)]

theorem concat_lease (h : Absorbed l ctx responses l' ctx' effects)
    (hr : Takes l' ctx' r l'' ctx'' effects') (t : DateTime) :
    AtLeast ctx''.leaseExpiry t ↔ AtLeast ctx.leaseExpiry t ∨ responses ++ [r] ≠ [] ∧
      ctx.getQuorumSize - 2 < l''.lastContact.values.countP fun c =>
        decide (t - PaxosSharedContext.leaseLength ≤ c) := by
  have hsize : ctx'.getQuorumSize = ctx.getQuorumSize := by
    rw [PaxosSharedContext.getQuorumSize, h.sameMember.peerIds, PaxosSharedContext.getQuorumSize]
  have hmono : l'.lastContact.values.countP
        (fun c => decide (t - PaxosSharedContext.leaseLength ≤ c)) ≤
      l''.lastContact.values.countP fun c => decide (t - PaxosSharedContext.leaseLength ≤ c) := by
    rw [hr.lastContact]
    refine l'.lastContact.countP_values_le_insert fun c hc hle => ?_
    rw [hc, decide_eq_true_eq]
    exact le_trans (of_decide_eq_true hle) (le_max_left _ _)
  rw [hr.lease, atLeast_renewLease_iff, h.lease, hsize, ← hr.lastContact,
    and_iff_right (List.append_ne_nil_of_right_ne_nil _ (List.cons_ne_nil r []))]
  constructor
  · rintro ((hold | ⟨_, hcount⟩) | hcount)
    · exact Or.inl hold
    · exact Or.inr (Nat.lt_of_lt_of_le hcount hmono)
    · exact Or.inr hcount
  · rintro (hold | hcount)
    · exact Or.inl (Or.inl hold)
    · exact Or.inr hcount

end Absorbed

/-- The quorum slot does not depend on the order of the score board. -/
theorem minQuorumSlot_eq_of_get? (h : ∀ p, l'.scoreBoard.get? p = l.scoreBoard.get? p) :
    l'.minQuorumSlot ctx = l.minQuorumSlot ctx := by
  have hslots : l'.followerSlots = l.followerSlots :=
    Quorum.insertionSort_congr ((AssocMap.values_perm h).map _)
  rw [minQuorumSlot, hslots, minQuorumSlot]

/-- Acknowledgements only move the quorum slot up. -/
theorem Takes.minQuorumSlot_le {r : AcceptResponse} {effects : List Effect}
    (h : Takes l ctx r l' ctx' effects) (c : PaxosSharedContext) :
    l.minQuorumSlot c ≤ l'.minQuorumSlot c := by
  obtain ⟨fs, hfs, _⟩ := h.commits
  have hperm : l'.scoreBoard.values.Perm
      (l.scoreBoard.insert r.memberId (fs.acked r.lastWrittenSlot)).values := by
    refine AssocMap.values_perm fun p => ?_
    rw [h.followers, AssocMap.get?_insert]
    split
    · rename_i hp
      rw [hp, hfs, Option.map_some]
    · rfl
  have hkeys := l.scoreBoard.keys_insert_of_mem (AssocMap.mem_keys_iff.mpr ⟨fs, hfs⟩)
    (fs.acked r.lastWrittenSlot)
  have hsize : l'.scoreBoard.size = l.scoreBoard.size := by
    rw [← AssocMap.length_values, hperm.length_eq, AssocMap.length_values,
      AssocMap.size_eq_length_keys, hkeys, AssocMap.size_eq_length_keys]
  obtain ⟨hlast, hcount⟩ := le_minQuorumSlot_iff.mp (le_refl (l.minQuorumSlot c))
  refine le_minQuorumSlot_iff.mpr ⟨hlast, ?_⟩
  rw [hsize, hperm.countP_eq]
  refine Nat.le_trans hcount (l.scoreBoard.countP_values_le_insert fun fs' hfs' hle => ?_)
  cases Option.some.inj (hfs.symm.trans hfs')
  rw [decide_eq_true_eq] at hle ⊢
  rw [FollowerState.acked_matchSlot]
  exact Nat.le_trans hle (Nat.le_max_left _ _)

theorem improves_concat_iff {responses : List AcceptResponse} {r : AcceptResponse}
    {fs : FollowerState} (hfs : l.scoreBoard.get? r.memberId = some fs) :
    Improves l (responses ++ [r]) ↔
      Improves l responses ∨ fs.logPosition.matchSlot < r.lastWrittenSlot := by
  constructor
  · rintro ⟨p, fs', hget, hlt⟩
    rw [ackedSlot_concat] at hlt
    split at hlt
    · rename_i hp
      subst hp
      cases Option.some.inj (hfs.symm.trans hget)
      rcases lt_max_iff.mp hlt with hold | hnew
      · exact Or.inl ⟨_, fs, hfs, hold⟩
      · exact Or.inr hnew
    · exact Or.inl ⟨p, fs', hget, hlt⟩
  · rintro (⟨p, fs', hget, hlt⟩ | hlt)
    · refine ⟨p, fs', hget, ?_⟩
      rw [ackedSlot_concat]
      split
      · exact lt_max_of_lt_left hlt
      · exact hlt
    · refine ⟨_, fs, hfs, ?_⟩
      rw [ackedSlot_concat, if_pos rfl]
      exact lt_max_of_lt_right hlt

namespace Absorbed
variable {l'' : Leader} {ctx'' : PaxosSharedContext} {responses : List AcceptResponse}
  {r : AcceptResponse} {effects effects' : List Effect}

theorem concat_commits (h : Absorbed l ctx responses l' ctx' effects)
    (hr : Takes l' ctx' r l'' ctx'' effects') :
    ∃ slot, CommitsTo l ctx slot l'' ctx'' (effects ++ effects') ∧
      (Improves l (responses ++ [r]) → slot = max ctx.committedSlot (l''.minQuorumSlot ctx)) ∧
      (¬ Improves l (responses ++ [r]) → slot = ctx.committedSlot) := by
  obtain ⟨slot, hcommits, himproved, hnot⟩ := h.commits
  obtain ⟨fs', hfs', hcommits'⟩ := hr.commits
  obtain ⟨fs, hfs, hacked⟩ : ∃ fs, l.scoreBoard.get? r.memberId = some fs ∧
      fs.acked (ackedSlot r.memberId responses) = fs' := by
    rwa [h.followers, Option.map_eq_some_iff] at hfs'
  have hmatch : fs'.logPosition.matchSlot =
      max fs.logPosition.matchSlot (ackedSlot r.memberId responses) := by
    rw [← hacked, FollowerState.acked_matchSlot]
  have hle : ctx.committedSlot ≤ slot := by
    by_cases hold : Improves l responses
    · rw [himproved hold]
      exact Nat.le_max_left _ _
    · rw [hnot hold]
  have hmono := hr.minQuorumSlot_le ctx
  rw [hcommits.committedSlot, minQuorumSlot_congr rfl h.sameMember.peerIds h.lastLogSlot]
    at hcommits'
  by_cases hnew : fs'.logPosition.matchSlot < r.lastWrittenSlot
  · -- this response improves, so the commit point is computed from the board as it is now
    rw [if_pos hnew] at hcommits'
    have himproves : Improves l (responses ++ [r]) :=
      (improves_concat_iff hfs).mpr (Or.inr (by omega))
    refine ⟨_, hcommits.trans hcommits' hle (Nat.le_max_left _ _), fun _ => ?_,
      fun hno => absurd himproves hno⟩
    by_cases hold : Improves l responses
    · rw [himproved hold]
      omega
    · rw [hnot hold]
  · -- it says nothing new: the board, and with it the quorum slot, stays
    rw [if_neg hnew] at hcommits'
    have hboard : ∀ p, l''.scoreBoard.get? p = l'.scoreBoard.get? p := by
      intro p
      rw [hr.followers]
      split
      · rename_i hp
        rw [hp, hfs', Option.map_some, FollowerState.acked, if_neg hnew]
      · rfl
    have hiff : Improves l (responses ++ [r]) ↔ Improves l responses := by
      rw [improves_concat_iff hfs]
      exact or_iff_left_of_imp fun hlt => ⟨r.memberId, fs, hfs, by omega⟩
    rw [hiff, minQuorumSlot_eq_of_get? hboard]
    exact ⟨slot, hcommits.trans hcommits' hle (Nat.le_refl _), himproved, hnot⟩

/-- **One more response.** -/
theorem concat (h : Absorbed l ctx responses l' ctx' effects)
    (hr : Takes l' ctx' r l'' ctx'' effects') :
    Absorbed l ctx (responses ++ [r]) l'' ctx'' (effects ++ effects') where
  sameMember := h.sameMember.trans hr.sameMember
  lastLogSlot := hr.lastLogSlot.trans h.lastLogSlot
  contacts := h.concat_contacts hr
  followers := h.concat_followers hr
  lease := h.concat_lease hr
  commits := h.concat_commits hr

theorem credits (h : Absorbed l ctx responses l' ctx' effects) (hr : Credits l ctx r) :
    Credits l' ctx' r where
  success := hr.success
  term := hr.term.trans h.sameMember.term.symm
  member := by
    obtain ⟨fs, hfs⟩ := AssocMap.mem_keys_iff.mp hr.member
    exact AssocMap.mem_keys_iff.mpr ⟨_, by rw [h.followers, hfs, Option.map_some]⟩

/-- **A run of responses**, none of which is left waiting, is taken in as a whole. -/
theorem absorb (hpeers : 1 ≤ ctx.peerIds.length) (arrivals : List (AcceptResponse × Env))
    (hall : ∀ x ∈ arrivals, Credits l ctx x.1) (h : Absorbed l ctx responses l' ctx' effects)
    (hwait : (Leader.absorb (l', ctx') arrivals).fault ≠ some .waiting) :
    (Leader.absorb (l', ctx') arrivals).fault = none ∧
      Absorbed l ctx (responses ++ arrivals.map Prod.fst)
        (Leader.absorb (l', ctx') arrivals).state.1 (Leader.absorb (l', ctx') arrivals).state.2
        (effects ++ (Leader.absorb (l', ctx') arrivals).effects) := by
  induction arrivals generalizing responses l' ctx' effects with
  | nil =>
    rw [List.map_nil, List.append_nil]
    refine ⟨rfl, ?_⟩
    rw [Leader.absorb, Attempt.ok, List.append_nil]
    exact h
  | cons x rest ih =>
    obtain ⟨hx, hrest⟩ := List.forall_mem_cons.mp hall
    have hpeers' : 1 ≤ ctx'.peerIds.length := by
      rw [h.sameMember.peerIds]
      exact hpeers
    have hfirst : (l'.handleAcceptResponse x.1 ctx' x.2).fault ≠ some .waiting := by
      intro hno
      apply hwait
      rw [Leader.absorb, Attempt.andThen, hno]
      exact hno
    obtain ⟨hfault, htakes⟩ := handleAcceptResponse_takes hpeers' (h.credits hx) hfirst
    rw [Leader.absorb, Attempt.andThen, hfault] at hwait ⊢
    obtain ⟨hnone, habsorbed⟩ := ih hrest (h.concat htakes) hwait
    rw [List.append_assoc, List.append_assoc] at habsorbed
    exact ⟨hnone, habsorbed⟩

end Absorbed

/-! ## The order does not matter -/

/-- Two ways to handle responses end with the same records of the followers, commit
point, lease and pending writes, and have answered the same clients. -/
structure SameProgress (a b : Attempt (Leader × PaxosSharedContext)) : Prop where
  followers : ∀ p, a.state.1.scoreBoard.get? p = b.state.1.scoreBoard.get? p
  committedSlot : a.state.2.committedSlot = b.state.2.committedSlot
  uncommittedLogs : a.state.2.uncommittedLogs = b.state.2.uncommittedLogs
  inFlightWrites : a.state.1.inFlightWrites = b.state.1.inFlightWrites
  answers : ∀ tx, tx ∈ acknowledged a.effects ↔ tx ∈ acknowledged b.effects
  leaseExpiry : a.state.2.leaseExpiry = b.state.2.leaseExpiry

/-- **What responses leave behind depends on their set alone.** -/
theorem Absorbed.sameProgress {xs ys : List AcceptResponse} {l₁ l₂ : Leader}
    {ctx₁ ctx₂ : PaxosSharedContext} {effects₁ effects₂ : List Effect} {fault₁ fault₂ : Option Fault}
    (hset : ∀ r, r ∈ xs ↔ r ∈ ys) (h₁ : Absorbed l ctx xs l₁ ctx₁ effects₁)
    (h₂ : Absorbed l ctx ys l₂ ctx₂ effects₂) :
    SameProgress ⟨(l₁, ctx₁), effects₁, fault₁⟩ ⟨(l₂, ctx₂), effects₂, fault₂⟩ := by
  have hfollowers : ∀ p, l₁.scoreBoard.get? p = l₂.scoreBoard.get? p := by
    intro p
    rw [h₁.followers, h₂.followers, ackedSlot_congr hset]
  have hcontacts : ∀ p, l₁.lastContact.get? p = l₂.lastContact.get? p := by
    refine fun p => eq_of_atLeast fun t => ?_
    rw [h₁.contacts, h₂.contacts]
    simp only [hset]
  have hempty : xs ≠ [] ↔ ys ≠ [] := by
    simp only [ne_eq, List.eq_nil_iff_forall_not_mem, hset]
  have himproves : Improves l xs ↔ Improves l ys := by
    simp only [Improves, ackedSlot_congr hset]
  obtain ⟨slot₁, hcommits₁, himproved₁, hnot₁⟩ := h₁.commits
  obtain ⟨slot₂, hcommits₂, himproved₂, hnot₂⟩ := h₂.commits
  have hslot : slot₁ = slot₂ := by
    by_cases h : Improves l xs
    · rw [himproved₁ h, himproved₂ (himproves.mp h), minQuorumSlot_eq_of_get? hfollowers]
    · rw [hnot₁ h, hnot₂ fun h' => h (himproves.mpr h')]
  subst hslot
  exact {
    followers := hfollowers
    committedSlot := hcommits₁.committedSlot.trans hcommits₂.committedSlot.symm
    uncommittedLogs := hcommits₁.uncommittedLogs.trans hcommits₂.uncommittedLogs.symm
    inFlightWrites := hcommits₁.inFlightWrites.trans hcommits₂.inFlightWrites.symm
    answers := fun tx => (hcommits₁.answers tx).trans (hcommits₂.answers tx).symm
    leaseExpiry := eq_of_atLeast fun t => by
      rw [h₁.lease, h₂.lease, hempty, (AssocMap.values_perm hcontacts).countP_eq] }

/-- **Successful responses may come in any order and any number of times.**  The
leader's records of its followers, its commit point, its lease, what is uncommitted
and in flight and whom it has answered are the same in the end. -/
theorem handled_in_any_order (l : Leader) (ctx : PaxosSharedContext)
    (hpeers : 1 ≤ ctx.peerIds.length) (xs ys : List (AcceptResponse × Env))
    (hset : ∀ r, r ∈ xs.map Prod.fst ↔ r ∈ ys.map Prod.fst)
    (hcredits : ∀ r ∈ xs.map Prod.fst, Credits l ctx r)
    (hxs : (absorb (l, ctx) xs).fault ≠ some .waiting)
    (hys : (absorb (l, ctx) ys).fault ≠ some .waiting) :
    (absorb (l, ctx) xs).fault = none ∧ (absorb (l, ctx) ys).fault = none ∧
      SameProgress (absorb (l, ctx) xs) (absorb (l, ctx) ys) := by
  obtain ⟨hnone₁, h₁⟩ := (Absorbed.nil l ctx).absorb hpeers xs
    (fun x hx => hcredits _ (List.mem_map_of_mem hx)) hxs
  obtain ⟨hnone₂, h₂⟩ := (Absorbed.nil l ctx).absorb hpeers ys
    (fun x hx => hcredits _ ((hset _).mpr (List.mem_map_of_mem hx))) hys
  exact ⟨hnone₁, hnone₂, h₁.sameProgress hset h₂⟩

/-- A Leader of a group of three with one write in flight, at slot 1. -/
def oneWrite : Leader × PaxosSharedContext :=
  (newOfThree.1.handleClientWrite ⟨⟨"a"⟩, ⟨7, true⟩⟩ newOfThree.2
    (.steady (Duration.seconds 1))).state

/-- A follower says a second later that it has the write. -/
def oneAnswer (p : Uuid) : AcceptResponse × Env :=
  (⟨p, 1, true, 1, none, Duration.seconds 1⟩, .steady (Duration.seconds 2))

/-- Member 2 before member 3 or member 3 before member 2, which repeats itself. -/
theorem handled_in_any_order_oneWrite :
    acknowledged (absorb oneWrite [oneAnswer 2, oneAnswer 3]).effects = [⟨7, true⟩] ∧
      SameProgress (absorb oneWrite [oneAnswer 2, oneAnswer 3])
        (absorb oneWrite [oneAnswer 3, oneAnswer 2, oneAnswer 3]) := by
  have hset : ∀ r, r ∈ [oneAnswer 2, oneAnswer 3].map Prod.fst ↔
      r ∈ [oneAnswer 3, oneAnswer 2, oneAnswer 3].map Prod.fst := by
    intro r
    simp only [List.map_cons, List.map_nil, List.mem_cons, List.not_mem_nil, or_false]
    tauto
  have hcredits : ∀ r ∈ [oneAnswer 2, oneAnswer 3].map Prod.fst,
      Credits oneWrite.1 oneWrite.2 r := by
    intro r hr
    rcases List.mem_cons.mp hr with rfl | hr
    · exact ⟨rfl, rfl, by decide⟩
    · cases List.mem_singleton.mp hr
      exact ⟨rfl, rfl, by decide⟩
  exact ⟨rfl, (handled_in_any_order oneWrite.1 oneWrite.2 (by decide) _ _ hset hcredits
    (by decide) (by decide)).2.2⟩

end Leader
end SpannerPaxos
