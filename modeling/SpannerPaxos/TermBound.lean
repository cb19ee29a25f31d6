import SpannerPaxos.ColdStart
import Mathlib.Data.Finset.Card

/-! # Half the group bounds the terms

A pre-vote is granted only by a member that is still in term 0: its request carries the
last log term of an empty log, and the voter compares it with the term it is in.  A term is
won once by every member at most, so a member that campaigns in term `t` leaves `t + 1`
members behind that are past term 0 and grant it nothing, and its quorum has to fit into
the others.
-/
namespace SpannerPaxos
namespace Group
namespace Cluster

variable {g : Group} {s s' : Cluster} {memberId p : Uuid} {event : PaxosEvent} {env : Env}

/-- The members past term 0 that have no campaign left. -/
def spent (g : Group) (s : Cluster) : Finset Uuid :=
  g.ids.toFinset.filter fun p => 1 ≤ s.term p ∧ s.stake p = 0

theorem mem_spent : p ∈ spent g s ↔ p ∈ g.ids ∧ 1 ≤ s.term p ∧ s.stake p = 0 := by
  simp [spent]

theorem Later.spent_subset (h : Later s s') : spent g s ⊆ spent g s' := by
  intro p hp
  obtain ⟨hmem, hterm, hstake⟩ := mem_spent.mp hp
  exact mem_spent.mpr
    ⟨hmem, hterm.trans (h.term p), Nat.le_zero.mp (hstake ▸ h.stake p)⟩

/-- The member `q` has granted `p` a pre-vote, and the answer is on its way. -/
def Grants (s : Cluster) (q p : Uuid) : Prop :=
  ∃ mail ∈ s.sent, mail.sender = q ∧ mail.receiver = p ∧ ∃ response,
    mail.event = .preVoteResponseReceived response ∧ response.voteGranted = true

/-- The members of `S` are past term 0, more than `p` has terms behind it, and have not
granted `p` the pre-vote that it collects on `c`. -/
structure Denied (g : Group) (s : Cluster) (p : Uuid) (c : PreCandidate) (S : Finset Uuid) :
    Prop where
  sub : S ⊆ g.ids.toFinset
  card : s.term p + 1 ≤ S.card
  past : ∀ q ∈ S, 1 ≤ s.term q
  mail : ∀ q ∈ S, ¬ s.Grants q p
  board : ∀ q ∈ S, ∀ v, c.preVoteBoard.get? q = some v → PreCandidate.isGranted v = false

/-- No term passes the members that have won one, or half the group; the pre-votes of a
PreCandidate come from members, and past term 0 from members that are not. -/
structure Capped (g : Group) (s : Cluster) : Prop where
  term : ∀ p ∈ g.ids, s.term p ≤ (spent g s).card
  half : ∀ p ∈ g.ids, s.term p ≤ g.ids.length - g.ids.length / 2
  granters : ∀ p c, (s.member p).role = .preCandidate c → ∀ q v,
    c.preVoteBoard.get? q = some v → PreCandidate.isGranted v = true → q ∈ g.ids
  denied : ∀ p ∈ g.ids, ∀ c, (s.member p).role = .preCandidate c → s.failed p = false →
    1 ≤ s.term p → ∃ S, Denied g s p c S

theorem Capped.start : Capped g (start g) where
  term _ _ := Nat.zero_le _
  half _ _ := Nat.zero_le _
  granters _ _ h := nomatch h
  denied _ _ _ h := nomatch h

/-- A member that completes a pre-vote quorum past term 0 has half the group against it. -/
theorem Capped.succ_term_le_of_wins (hs : Inv g s) (hc : Capped g s) (hmem : memberId ∈ g.ids)
    (halive : s.failed memberId = false) (hin : Incoming s memberId event)
    (hwins : (s.member memberId).role.WinsPreVote event) (hpos : 1 ≤ s.term memberId) :
    s.term memberId + 1 ≤ g.ids.length - g.ids.length / 2 := by
  obtain ⟨c, response, hrole, hevent, hquorum⟩ := hwins
  obtain ⟨S, hS⟩ := hc.denied memberId hmem c hrole halive hpos
  obtain ⟨mail, hmail, hsender, hreceiver, hanswer⟩ := hin.answer response hevent
  obtain ⟨Q, hnodup, hlength, hQ⟩ :=
    (c.updatePreVoteBoard response).preVoteBoard.exists_keys_of_countP PreCandidate.isGranted
  -- who has granted the pre-vote is a member, and not one of those past term 0
  have hgranter : ∀ q ∈ Q, q ∈ g.ids ∧ q ∉ S := by
    intro q hq
    obtain ⟨_, v, hv, hgrant⟩ := hQ q hq
    rw [PreCandidate.updatePreVoteBoard, AssocMap.get?_insert] at hv
    split at hv
    · rename_i heq
      cases Option.some.inj hv
      refine ⟨?_, fun hqS => hS.mail q hqS
        ⟨mail, hmail, hsender.trans heq.symm, hreceiver, response, hanswer.trans hevent, hgrant⟩⟩
      rw [heq, ← hsender]
      exact (hs.plain mail hmail).sender
    · refine ⟨hc.granters memberId c hrole q v hv hgrant, fun hqS => ?_⟩
      rw [hS.board q hqS v hv] at hgrant
      cases hgrant
  have hdisjoint : Disjoint Q.toFinset S :=
    Finset.disjoint_left.mpr fun q hq => (hgranter q (List.mem_toFinset.mp hq)).2
  have hunion : Q.toFinset ∪ S ⊆ g.ids.toFinset := by
    refine Finset.union_subset (fun q hq => ?_) hS.sub
    exact List.mem_toFinset.mpr (hgranter q (List.mem_toFinset.mp hq)).1
  have hcard := Finset.card_le_card hunion
  rw [Finset.card_union_of_disjoint hdisjoint, List.toFinset_card_of_nodup hnodup,
    List.toFinset_card_of_nodup g.nodup, hlength] at hcard
  have hsize := ((hs.cold memberId).board c hrole).trans
    (c.preVoteBoard.size_le_size_insert response.memberId (some response))
  have hpeers : (g.peers memberId).length = g.ids.length - 1 := List.length_erase_of_mem hmem
  have hquorum := of_decide_eq_true hquorum
  have hmany := hS.card
  change (g.peers memberId).length ≤ (c.updatePreVoteBoard response).preVoteBoard.size at hsize
  omega

/-- How a member comes to its term: it was in it, it was told of it, or it has won it. -/
theorem term_cases (hin : Incoming s memberId event)
    (h : s.handle g memberId event env = some s') :
    s'.term memberId = s.term memberId ∨
      (∃ mail ∈ s.sent, s'.term memberId ≤ s.term mail.sender) ∨
      (s.member memberId).role.WinsPreVote event ∧
        s'.term memberId = s.term memberId + 1 := by
  obtain ⟨_, _, _, _, role, hmember, _⟩ := handle_next h
  obtain ⟨term, _, hfits, hwhy⟩ :=
    (s.member memberId).role.processEvent_fits event (s.member memberId).ctx env
  have hterm : s'.term memberId = term := by
    rw [Cluster.term, hmember]
    exact hfits.same.term
  rw [hterm]
  rcases hwhy with hsame | htold | hwins
  · exact Or.inl hsame
  · exact Or.inr (Or.inl (hin.told term htold))
  · exact Or.inr (Or.inr hwins)

/-- **Winning a term spends the winner.** -/
theorem Capped.term_handle (hs : Inv g s) (hc : Capped g s) (hin : Incoming s memberId event)
    (h : s.handle g memberId event env = some s') :
    s'.term memberId ≤ (spent g s').card ∧
      s'.term memberId ≤ g.ids.length - g.ids.length / 2 := by
  have hlater := hs.later_handle hin h
  have hcard := Finset.card_le_card (hlater.spent_subset (g := g))
  obtain ⟨hmem, halive, _⟩ := handle_next h
  rcases term_cases hin h with hsame | ⟨mail, hmail, hle⟩ | ⟨hwins, hnext⟩
  · rw [hsame]
    exact ⟨(hc.term memberId hmem).trans hcard, hc.half memberId hmem⟩
  · have hsender := (hs.plain mail hmail).sender
    exact ⟨hle.trans ((hc.term _ hsender).trans hcard), hle.trans (hc.half _ hsender)⟩
  · rw [hnext]
    refine ⟨?_, ?_⟩
    · have hcost := (hs.chances_handle hin h).2.2 hwins
      have hone := hs.stake memberId
      have hnot : memberId ∉ spent g s := fun hspent => by
        have hzero := (mem_spent.mp hspent).2.2
        omega
      have hnow : memberId ∈ spent g s' := mem_spent.mpr ⟨hmem, by omega, by omega⟩
      have hinsert := Finset.card_le_card
        (Finset.insert_subset hnow (hlater.spent_subset (g := g)))
      rw [Finset.card_insert_of_notMem hnot] at hinsert
      exact (Nat.succ_le_succ (hc.term memberId hmem)).trans hinsert
    · by_cases hpos : 1 ≤ s.term memberId
      · exact hc.succ_term_le_of_wins hs hmem halive hin hwins hpos
      · have htwo := g.two
        omega

/-- Who grants a pre-vote is in term 0, and so none of those past it. -/
theorem Inv.not_grants_handle (hs : Inv g s) (hin : Incoming s memberId event)
    (h : s.handle g memberId event env = some s') {q : Uuid} (hq : 1 ≤ s.term q)
    (hnot : ¬ s.Grants q p) : ¬ s'.Grants q p := by
  obtain ⟨_, _, _, hsent, _⟩ := handle_next h
  rintro ⟨mail, hmail, rfl, hreceiver, response, hresponse, hgranted⟩
  rw [hsent] at hmail
  rcases List.mem_append.mp hmail with hnew | hold
  · obtain ⟨_, _, _, hzero⟩ := hs.answer_posted hin hnew hresponse
    rw [(mem_posted hnew).1, hzero hgranted] at hq
    omega
  · exact hnot ⟨mail, hold, rfl, hreceiver, response, hresponse, hgranted⟩

/-- A PreCandidate has just started its campaign, or was one and has recorded at most one more
answer. -/
theorem preCandidate_cases {self : PaxosState} {ctx : PaxosSharedContext} {c : PreCandidate}
    (h : (self.processEvent event ctx false env).result = .ok (.preCandidate c)) :
    (self.processEvent event ctx false env).ctx = ctx ∧
      (event = .electionCountdownExpired ∧
          c.preVoteBoard = (PreCandidate.new ctx).preVoteBoard ∨
        ∃ c₀, self = .preCandidate c₀ ∧
          (c.preVoteBoard = (PreCandidate.new ctx).preVoteBoard ∨
            c.preVoteBoard = c₀.preVoteBoard ∨
            ∃ response, event = .preVoteResponseReceived response ∧
              c.preVoteBoard = (c₀.updatePreVoteBoard response).preVoteBoard)) := by
  have heq := PaxosState.processEvent_of_not_follower h nofun
  rw [heq] at h ⊢
  have hboard := PaxosState.preCandidate_of_handleEvent h
  cases self with
  | follower f =>
    cases Follower.handleEvent_next h with
    | campaigns hevent _ hctx => exact ⟨hctx, Or.inl ⟨hevent, rfl⟩⟩
  | preCandidate c₀ =>
    have hctx : ((PaxosState.preCandidate c₀).handleEvent event ctx env).ctx = ctx := by
      cases PreCandidate.handleEvent_next h with
      | votes _ _ _ hctx => exact hctx
      | stays _ _ hctx => exact hctx
    refine ⟨hctx, Or.inr ⟨c₀, rfl, ?_⟩⟩
    rcases hboard with hnew | ⟨c₁, hc₁, hold⟩
    · exact Or.inl hnew
    · cases hc₁
      exact Or.inr hold
  | candidate c₀ => cases Candidate.handleEvent_next h
  | leader l => cases Leader.handleEvent_next h

/-- A board that nobody has answered on. -/
theorem isGranted_new {ctx : PaxosSharedContext} {q : Uuid} {v : Option PreVoteResponse}
    (hv : (PreCandidate.new ctx).preVoteBoard.get? q = some v) :
    PreCandidate.isGranted v = false := by
  rw [PreCandidate.new, AssocMap.get?_ofKeys] at hv
  split at hv
  · cases hv
    rfl
  · cases hv

/-- The answers on a board that an event leaves. -/
theorem Capped.granters_handle (hs : Inv g s) (hc : Capped g s)
    (hin : Incoming s memberId event) {c : PreCandidate} (h : (s.outcome memberId event env).result =
      .ok (.preCandidate c)) {q : Uuid} {v : Option PreVoteResponse}
    (hv : c.preVoteBoard.get? q = some v) (hgrant : PreCandidate.isGranted v = true) :
    q ∈ g.ids := by
  obtain ⟨_, ⟨_, hnew⟩ | ⟨c₀, hrole, hnew | hkept | ⟨response, hevent, hupdated⟩⟩⟩ :=
    preCandidate_cases h
  · rw [hnew] at hv
    rw [isGranted_new hv] at hgrant
    cases hgrant
  · rw [hnew] at hv
    rw [isGranted_new hv] at hgrant
    cases hgrant
  · rw [hkept] at hv
    exact hc.granters memberId c₀ hrole q v hv hgrant
  · rw [hupdated, PreCandidate.updatePreVoteBoard, AssocMap.get?_insert] at hv
    split at hv
    · rename_i heq
      obtain ⟨mail, hmail, hsender, _, _⟩ := hin.answer response hevent
      rw [heq, ← hsender]
      exact (hs.plain mail hmail).sender
    · exact hc.granters memberId c₀ hrole q v hv hgrant

/-- **A campaign past term 0 is denied by those that are past it.** -/
theorem Capped.denied_handle (hs : Inv g s) (hc : Capped g s)
    (hin : Incoming s memberId event) (h : s.handle g memberId event env = some s')
    {c : PreCandidate} (hresult : (s.outcome memberId event env).result = .ok (.preCandidate c))
    (hpos : 1 ≤ s'.term memberId) : ∃ S, Denied g s' memberId c S := by
  have hlater := hs.later_handle hin h
  obtain ⟨hmem, halive, _, hsent, role, hmember, _⟩ := handle_next h
  obtain ⟨hctx, hboard⟩ := preCandidate_cases hresult
  have hterm : s'.term memberId = s.term memberId := by
    rw [Cluster.term, hmember]
    exact congrArg PaxosSharedContext.term hctx
  rw [hterm] at hpos
  rcases hboard with ⟨hevent, hnew⟩ | ⟨c₀, hrole, hold⟩
  · -- a campaign starts: those that have won a term, and the member itself, are past term 0
    have hchance : 1 ≤ s.chances memberId := by
      have hcost := (hs.chances_handle hin h).1
      rw [hevent, decide_eq_true rfl, Bool.toNat_true] at hcost
      exact (Nat.le_add_left _ _).trans hcost
    have hstake := hchance.trans (s.chances_le_stake memberId)
    have hnot : memberId ∉ spent g s := fun hspent => by
      have hzero := (mem_spent.mp hspent).2.2
      omega
    have hpast : ∀ q ∈ insert memberId (spent g s), 1 ≤ s.term q := by
      intro q hq
      rcases Finset.mem_insert.mp hq with rfl | hq
      · exact hpos
      · exact (mem_spent.mp hq).2.1
    refine ⟨insert memberId (spent g s), ?_, ?_, fun q hq => (hpast q hq).trans (hlater.term q),
      fun q hq => hs.not_grants_handle hin h (hpast q hq) ?_, fun q _ v hv => ?_⟩
    · refine Finset.insert_subset (List.mem_toFinset.mpr hmem) (fun q hq => ?_)
      exact List.mem_toFinset.mpr (mem_spent.mp hq).1
    · rw [hterm, Finset.card_insert_of_notMem hnot]
      exact Nat.succ_le_succ (hc.term memberId hmem)
    · -- nobody has answered a member that has not asked
      rintro ⟨mail, hmail, _, rfl, response, hresponse, _⟩
      have hzero := hs.answered mail hmail response hresponse
      omega
    · rw [hnew] at hv
      exact isGranted_new hv
  · obtain ⟨S, hS⟩ := hc.denied memberId hmem c₀ hrole halive hpos
    refine ⟨S, hS.sub, hterm ▸ hS.card, fun q hq => (hS.past q hq).trans (hlater.term q),
      fun q hq => hs.not_grants_handle hin h (hS.past q hq) (hS.mail q hq), fun q hq v hv => ?_⟩
    rcases hold with hnew | hkept | ⟨response, hevent, hupdated⟩
    · rw [hnew] at hv
      exact isGranted_new hv
    · rw [hkept] at hv
      exact hS.board q hq v hv
    · rw [hupdated, PreCandidate.updatePreVoteBoard, AssocMap.get?_insert] at hv
      split at hv
      · rename_i heq
        cases Option.some.inj hv
        obtain ⟨mail, hmail, hsender, hreceiver, hanswer⟩ := hin.answer response hevent
        rw [← Bool.not_eq_true]
        exact fun hgrant => hS.mail q hq ⟨mail, hmail, hsender.trans heq.symm, hreceiver,
          response, hanswer.trans hevent, hgrant⟩
      · exact hS.board q hq v hv

theorem Capped.handle (hs : Inv g s) (hc : Capped g s) (hin : Incoming s memberId event)
    (h : s.handle g memberId event env = some s') : Capped g s' := by
  have hlater := hs.later_handle hin h
  have hcard := Finset.card_le_card (hlater.spent_subset (g := g))
  obtain ⟨hspent, hhalf⟩ := hc.term_handle hs hin h
  obtain ⟨_, halive, hother, _, role, hmember, hrole⟩ := handle_next h
  refine ⟨fun p hp => ?_, fun p hp => ?_, fun p c hpre q v hv hgrant => ?_,
    fun p hp c hpre hgoes hpos => ?_⟩
  · by_cases hself : p = memberId
    · exact hself ▸ hspent
    · rw [(unchanged (hother p hself).1 (hother p hself).2).1]
      exact (hc.term p hp).trans hcard
  · by_cases hself : p = memberId
    · exact hself ▸ hhalf
    · rw [(unchanged (hother p hself).1 (hother p hself).2).1]
      exact hc.half p hp
  · by_cases hself : p = memberId
    · subst hself
      rw [hmember] at hpre
      dsimp only at hpre
      rcases hrole with ⟨hresult, _⟩ | ⟨hkept, _⟩
      · exact hc.granters_handle hs hin (hpre ▸ hresult) hv hgrant
      · exact hc.granters p c (hkept ▸ hpre) q v hv hgrant
    · rw [(hother p hself).1] at hpre
      exact hc.granters p c hpre q v hv hgrant
  · by_cases hself : p = memberId
    · subst hself
      rw [hmember] at hpre
      dsimp only at hpre
      rcases hrole with ⟨hresult, _⟩ | ⟨_, hends⟩
      · exact hc.denied_handle hs hin h (hpre ▸ hresult) hpos
      · rw [hends] at hgoes
        cases hgoes
    · obtain ⟨hterm, _, _⟩ := unchanged (hother p hself).1 (hother p hself).2
      rw [(hother p hself).1] at hpre
      rw [(hother p hself).2] at hgoes
      rw [hterm] at hpos
      obtain ⟨S, hS⟩ := hc.denied p hp c hpre hgoes hpos
      exact ⟨S, hS.sub, hterm ▸ hS.card, fun q hq => (hS.past q hq).trans (hlater.term q),
        fun q hq => hs.not_grants_handle hin h (hS.past q hq) (hS.mail q hq), hS.board⟩

/-- A timer leaves terms, mail and PreCandidates as they are. -/
theorem Capped.move (hc : Capped g s) {l : Member.Label} (hl : ∀ event env, l ≠ .event event env)
    (h : s.move g memberId l = some s') : Capped g s' := by
  have hlater := later_move hl h
  have hcard := Finset.card_le_card (hlater.spent_subset (g := g))
  obtain ⟨_, _, hother, hfailed, hsent, hstep⟩ := move_next h
  have hsame : ∀ p, s'.term p = s.term p ∧
      ∀ c, (s'.member p).role = .preCandidate c → (s.member p).role = .preCandidate c := by
    intro p
    by_cases hp : p = memberId
    · subst hp
      rcases Member.step_cases hstep with ⟨event, env, hevent, _⟩ | ⟨_, ⟨lease, hctx⟩, hrole⟩
      · exact absurd hevent (hl event env)
      · refine ⟨by rw [Cluster.term, Cluster.term, hctx], fun c hpre => ?_⟩
        rcases hrole with hrole | ⟨f, hrole⟩
        · exact hrole.symm.trans hpre
        · rw [hrole] at hpre
          cases hpre
    · rw [Cluster.term, Cluster.term, hother p hp]
      exact ⟨rfl, fun _ => id⟩
  refine ⟨fun p hp => ?_, fun p hp => ?_, fun p c hpre => hc.granters p c ((hsame p).2 c hpre),
    fun p hp c hpre hgoes hpos => ?_⟩
  · rw [(hsame p).1]
    exact (hc.term p hp).trans hcard
  · rw [(hsame p).1]
    exact hc.half p hp
  · obtain ⟨S, hS⟩ := hc.denied p hp c ((hsame p).2 c hpre) (hfailed ▸ hgoes)
      ((hsame p).1 ▸ hpos)
    refine ⟨S, hS.sub, (hsame p).1 ▸ hS.card, fun q hq => (hS.past q hq).trans (hlater.term q),
      fun q hq => ?_, hS.board⟩
    rintro ⟨mail, hmail, hgrants⟩
    exact hS.mail q hq ⟨mail, hsent ▸ hmail, hgrants⟩

theorem Capped.of_reaches (h : Reaches (Cluster.step g) (Cluster.start g) s) : Capped g s := by
  have hboth : Inv g s ∧ Capped g s :=
    h.invariant (P := fun s => Inv g s ∧ Capped g s) ⟨Inv.start, Capped.start⟩ ?_
  · exact hboth.2
  · intro a l b hab _ hb
    obtain ⟨ha, hc⟩ := hab
    refine ⟨ha.step hb, ?_⟩
    rcases ha.step_next hb with ⟨p, event, env, hin, hhandle⟩ | ⟨p, l', hl, hmove⟩
    · exact hc.handle ha hin hhandle
    · exact hc.move hl hmove

/-- **Half the group bounds the terms** of every run of a group that starts. -/
theorem term_le_of_reaches (h : Reaches (step g) (start g) s) (hp : p ∈ g.ids) :
    s.term p ≤ g.ids.length - g.ids.length / 2 :=
  (Capped.of_reaches h).half p hp

/-- A group of three. -/
def trio : Group := ⟨[1, 2, 3], by decide, by decide⟩

/-- Member 1 wins the first term with the pre-vote of member 2.  Member 2, whose own
countdown has run out by then, hears of it and wins the second with the pre-vote of
member 3, which has heard of nothing. -/
def twoTerms : List Label :=
  let now := Env.steady (Duration.seconds 1)
  [.leaseWatcher 1 (Duration.seconds 1), .wakeup 1 .leaderLeaseExpired now, .countdownFires 1 true,
    .leaseWatcher 2 (Duration.seconds 1), .wakeup 2 .leaderLeaseExpired now,
    .countdownFires 2 true,
    .wakeup 1 .electionCountdownExpired now,
    .deliver ⟨1, 2, .preVoteRequestReceived ⟨⟨1, 1, 0, 0⟩, ⟨1, true⟩⟩⟩ true now,
    .deliver ⟨2, 1, .preVoteResponseReceived ⟨2, 0, true, none, none, none⟩⟩ true now,
    .deliver ⟨1, 2, .voteRequestReceived ⟨⟨1, 1, 0, 0⟩, ⟨1, true⟩⟩⟩ true now,
    .wakeup 2 .electionCountdownExpired now,
    .deliver ⟨2, 3, .preVoteRequestReceived ⟨⟨2, 2, 0, 0⟩, ⟨2, true⟩⟩⟩ true now,
    .deliver ⟨3, 2, .preVoteResponseReceived ⟨3, 0, true, none, none, none⟩⟩ true now]

/-- Two members of three reach the bound. -/
theorem term_le_of_reaches_twoTerms : ∃ s, exec (step trio) (start trio) twoTerms = some s ∧
    s.term 2 = 2 ∧ s.term 2 ≤ trio.ids.length - trio.ids.length / 2 :=
  ⟨_, rfl, rfl, term_le_of_reaches (Runs.of_exec twoTerms rfl) (by decide)⟩

end Cluster
end Group
end SpannerPaxos
