import SpannerPaxos.ExternalConsistency
import SpannerPaxos.Wakeup

/-! # What becomes of client writes

A client write that a member handles is answered, handed on to the known leader, or held
back until a commit reaches it; a Leader that leaves its role drops what it holds.  Nothing
else takes a write away, and nothing settles it a second time, so the books of a member
balance over every run.
-/
namespace SpannerPaxos

/-- The channel of the write that an effect answers or hands on. -/
def Effect.settles : Effect → Option ReplyChannel
  | .clientReply tx _ => some tx
  | .dispatchClientWrite _ _ tx => some tx
  | _ => none

/-- The channels of the writes answered or handed on, where somebody still waits. -/
def settledBy (effects : List Effect) : List ReplyChannel :=
  (effects.filterMap Effect.settles).filter ReplyChannel.receiverAlive

/-- The channel of the write that an event brings, if somebody waits for the answer. -/
def PaxosEvent.brings : PaxosEvent → List ReplyChannel
  | clientWriteRequestReceived command => [command.responseTx].filter ReplyChannel.receiverAlive
  | _ => []

/-- The channels of the writes that a member holds back. -/
def PaxosState.holds : PaxosState → List ReplyChannel
  | leader l => awaited l.inFlightWrites.values
  | follower _ | preCandidate _ | candidate _ => []

theorem settledBy_eq_nil {effects : List Effect} (h : ∀ e ∈ effects, e.settles = none) :
    settledBy effects = [] := by
  rw [settledBy, List.filterMap_eq_nil_iff.mpr h]
  rfl

/-- Answers to other members settle nothing. -/
theorem Effect.settles_of_isPeerReply {e : Effect} (h : e.isPeerReply = true) :
    e.settles = none := by
  cases e with
  | clientReply tx response => cases h
  | dispatchClientWrite leaderId request tx => cases h
  | _ => rfl

theorem Leader.IsDispatch.settles {ctx : PaxosSharedContext} {minNextTs : Option DateTime}
    {env : Env} {e : Effect} (h : IsDispatch ctx minNextTs env e) : e.settles = none := by
  obtain ⟨_, _, _, _, _, rfl⟩ := h
  rfl

theorem Outcome.settledBy_reply {tx : ReplyChannel} {effect : Effect} {state : PaxosState}
    {ctx : PaxosSharedContext} (h : effect.settles = none) :
    settledBy (Outcome.reply tx effect state ctx).effects = [] := by
  refine settledBy_eq_nil fun e he => ?_
  rw [Outcome.eq_of_mem_reply he]
  exact h

/-- An answer is given where somebody waits for it. -/
theorem settledBy_sendIgnoring (tx : ReplyChannel) (response : ClientWriteResponse) :
    settledBy (sendIgnoring tx (.clientReply tx response)) =
      [tx].filter ReplyChannel.receiverAlive := by
  unfold sendIgnoring
  cases halive : tx.receiverAlive with
  | false => simp [settledBy, halive]
  | true => simp [settledBy, Effect.settles, halive]

theorem settledBy_stepDownOnAccept {stay : PaxosState} {command : PaxosCommand AcceptRequest}
    {ctx : PaxosSharedContext} {env : Env} :
    settledBy (stepDownOnAccept stay command ctx env).effects = [] := by
  unfold stepDownOnAccept
  split <;> exact Outcome.settledBy_reply rfl

section
variable {event : PaxosEvent} {ctx : PaxosSharedContext} {env : Env} {role' : PaxosState}

/-! ## Members that lead nobody -/

/-- A Follower answers a write or hands it on. -/
theorem Follower.settledBy_handleEvent (self : Follower)
    (h : (self.handleEvent event ctx env).result = .ok role') :
    settledBy (self.handleEvent event ctx env).effects = event.brings := by
  cases event with
  | voteRequestReceived command | preVoteRequestReceived command
  | acceptRequestReceived command => exact Outcome.settledBy_reply rfl
  | electionCountdownExpired =>
    rw [handleEvent, Attempt.toOutcome_effects, Attempt.map_effects,
      handleElectionCountdownExpired]
    split
    · rfl
    · rw [Attempt.map_effects, PreCandidate.dispatchPreVote]
      split <;> rfl
  | clientWriteRequestReceived command =>
    rw [handleEvent, Attempt.toOutcome_effects, Attempt.map_effects]
    simp only [handleEvent, handleClientWrite] at h ⊢
    split
    · exact settledBy_sendIgnoring _ _
    · rename_i leaderId hleader
      split
      · rfl
      · rename_i hlost
        -- a write that cannot be handed on ends the member
        rw [hleader] at h
        simp only [hlost] at h
        cases h
  | leaderLeaseExpired | preVoteCampaignExpired | voteCampaignExpired | writeFlushTimerFired
  | acceptTimeoutCheckFired | heartbeatTimerFired | preVoteResponseReceived response
  | voteResponseReceived response | acceptResponseReceived response => rfl

/-- A PreCandidate refuses. -/
theorem PreCandidate.settledBy_handleEvent (self : PreCandidate) :
    settledBy (self.handleEvent event ctx env).effects = event.brings := by
  cases event with
  | voteRequestReceived command | preVoteRequestReceived command =>
    exact Outcome.settledBy_reply rfl
  | acceptRequestReceived command => exact settledBy_stepDownOnAccept
  | clientWriteRequestReceived command => exact settledBy_sendIgnoring _ _
  | preVoteResponseReceived response =>
    rw [handleEvent, handlePreVoteResponse]
    dsimp only
    split
    · rw [Attempt.toOutcome_effects, Attempt.map_effects, Candidate.dispatchVote]
      split <;> rfl
    · split <;> rfl
  | leaderLeaseExpired | electionCountdownExpired | preVoteCampaignExpired | voteCampaignExpired
  | writeFlushTimerFired | acceptTimeoutCheckFired | heartbeatTimerFired
  | voteResponseReceived response | acceptResponseReceived response => rfl

/-- A win replicates, and settles nothing. -/
theorem Candidate.settledBy_becomeLeader (self : Candidate) :
    settledBy (self.becomeLeader ctx env).effects = [] := by
  rw [becomeLeader, Attempt.toOutcome_effects, Attempt.map_effects, Leader.processUncommittedLogs]
  dsimp only
  split
  all_goals
    rw [Attempt.map_effects]
    exact settledBy_eq_nil fun e he => ((Leader.dispatchAcceptRequest_spec _ _ _ _).2 e he).settles

/-- A Candidate refuses. -/
theorem Candidate.settledBy_handleEvent (self : Candidate) :
    settledBy (self.handleEvent event ctx env).effects = event.brings := by
  cases event with
  | voteRequestReceived command | preVoteRequestReceived command =>
    exact Outcome.settledBy_reply rfl
  | acceptRequestReceived command => exact settledBy_stepDownOnAccept
  | clientWriteRequestReceived command => exact settledBy_sendIgnoring _ _
  | voteResponseReceived response =>
    rw [handleEvent, handleVoteResponse]
    cases self.recordVote response ctx with
    | none => rfl
    | some c =>
      dsimp only
      split
      · cases c.voteDispatchTime with
        | none => rfl
        | some dispatchTime =>
          dsimp only
          split
          · rfl
          · exact c.settledBy_becomeLeader
      · split <;> rfl
  | leaderLeaseExpired | electionCountdownExpired | preVoteCampaignExpired | voteCampaignExpired
  | writeFlushTimerFired | acceptTimeoutCheckFired | heartbeatTimerFired
  | preVoteResponseReceived response | acceptResponseReceived response => rfl

/-! ## Leaders -/

/-- Of writes a Leader only tells a client of success. -/
def Effect.OfLeader (e : Effect) : Prop :=
  e.settles = none ∨ ∃ tx : ReplyChannel, tx.receiverAlive = true ∧ e = .clientReply tx ⟨true, none⟩

theorem settledBy_of_leader {effects : List Effect} (h : ∀ e ∈ effects, e.OfLeader) :
    settledBy effects = acknowledged effects := by
  induction effects with
  | nil => rfl
  | cons e effects ih =>
    have hrest := ih fun e' he' => h e' (List.mem_cons_of_mem _ he')
    rcases h e List.mem_cons_self with hnone | ⟨tx, halive, rfl⟩
    · have hquiet : settledBy (e :: effects) = settledBy effects := by
        rw [settledBy, List.filterMap_cons_none hnone]
        rfl
      rw [hquiet, hrest]
      cases e with
      | clientReply tx response => cases hnone
      | _ => rfl
    · have htold : settledBy (.clientReply tx ⟨true, none⟩ :: effects) = tx :: settledBy effects := by
        rw [settledBy, List.filterMap_cons_some (show Effect.settles _ = some tx from rfl),
          List.filter_cons_of_pos halive]
        rfl
      rw [htold, hrest]
      rfl

theorem Leader.replyCommitted_ofLeader
    (writes : List (DateTime × PaxosCommand ClientWriteRequest)) (env : Env) :
    ∀ e ∈ (replyCommitted writes env).effects, e.OfLeader := by
  induction writes generalizing env with
  | nil => exact List.forall_mem_nil _
  | cons w rest ih =>
    unfold replyCommitted
    split
    · refine (Attempt.andThen_spec (P := fun _ => True) trivial (fun e he => ?_)
        fun _ _ => ⟨trivial, ih (env.skip 1)⟩).2
      unfold sendIgnoring at he
      split at he
      · rename_i halive
        exact Or.inr ⟨_, halive, List.mem_singleton.mp he⟩
      · cases he
    · exact List.forall_mem_nil _

theorem Leader.handleEvent_ofLeader (self : Leader) :
    ∀ e ∈ (self.handleEvent event ctx env).effects, e.OfLeader := by
  intro e he
  rcases self.leads_or_quiet event ctx env with ⟨a, hleads, heq⟩ | ⟨hquiet, _⟩
  · rw [heq, handleEvent.stay, Attempt.toOutcome_effects, Attempt.map_effects] at he
    cases hleads with
    | heeds response =>
      rcases self.handleAcceptResponse_cases response ctx env with
        ⟨_, hcase⟩ | ⟨_, _, fault, hcase⟩ |
          ⟨_, _, ⟨fault, hcase⟩ | ⟨fs, _, _, _, hcase⟩ | ⟨fs, hint, _, _, _, hcase⟩⟩
      · rw [hcase] at he
        cases he
      · rw [hcase] at he
        cases he
      · rw [hcase] at he
        cases he
      · -- a commit answers the writes it settles
        rw [hcase, advanceCommit] at he
        split at he
        · exact replyCommitted_ofLeader _ _ e he
        · cases he
      · rw [hcase, Attempt.map_effects] at he
        exact Or.inl ((dispatchAcceptRequestToFollower_spec _ _ _ _ _).2 e he).settles
    | writes command =>
      unfold handleClientWrite at he
      dsimp only at he
      split at he
      · exact Or.inl (List.mem_singleton.mp he ▸ rfl)
      · cases he
    | flushes =>
      unfold handleWriteFlush at he
      split at he
      · cases he
      · exact Or.inl ((self.dispatchThen_spec ctx none env (fun l => { l with pendingWriteCount := 0 })
          fun _ => ⟨rfl, fun _ => rfl, rfl, rfl⟩).2 e he).settles
    | beats =>
      exact Or.inl ((self.dispatchThen_spec _ _ _
        (fun l => { l with heartbeatCdClock := l.heartbeatCdClock.start })
        fun _ => ⟨rfl, fun _ => rfl, rfl, rfl⟩).2 e he).settles
  · exact Or.inl (Effect.settles_of_isPeerReply (hquiet e he))

/-! ## One event -/

/-- What a Leader holds back is in its log. -/
def PaxosState.HoldsBelow (self : PaxosState) (slot : Nat) : Prop :=
  ∀ l, self = .leader l → ∀ e ∈ l.inFlightWrites.entries, e.1 ≤ slot

/-- The writes that an event has the member drop: those of a Leader that leaves its role. -/
def PaxosState.drops (self next : PaxosState) : List ReplyChannel :=
  if next.isLeader then [] else self.holds

/-- A Leader that has left its role holds nothing. -/
theorem PaxosState.holds_of_not_leader {self : PaxosState} (h : self.isLeader = false) :
    self.holds = [] := by
  cases self with
  | leader l => cases h
  | _ => rfl

/-- A write that is accepted is held back, and a commit settles what it reaches. -/
theorem Leader.WriteMove.balance {self l' : Leader} {ctx' : PaxosSharedContext}
    {effects : List Effect} (h : WriteMove self ctx env event l' ctx' effects)
    (hbelow : ∀ e ∈ self.inFlightWrites.entries, e.1 ≤ ctx.lastLogSlot) :
    (awaited self.inFlightWrites.values ++ event.brings).Perm
        (acknowledged effects ++ awaited l'.inFlightWrites.values) ∧
      ∀ e ∈ l'.inFlightWrites.entries, e.1 ≤ ctx'.lastLogSlot := by
  cases h with
  | accepts command hwrites _ hslot _ _ hquiet =>
    have hentries := self.inFlightWrites.entries_insert_of_forall_lt
      ((TrueTime.now (env.clock 0)).latest, command)
      fun e he => Nat.lt_succ_of_le (hbelow e he)
    refine ⟨?_, fun e he => ?_⟩
    · rw [hquiet, hwrites, OrderedMap.values, OrderedMap.values, hentries, List.map_append, awaited,
        awaited, List.map_append, List.filter_append]
      exact .refl _
    · rw [hwrites, hentries] at he
      rw [hslot]
      rcases List.mem_append.mp he with hold | hnew
      · exact (hbelow e hold).trans (Nat.le_succ _)
      · rw [List.mem_singleton.mp hnew]
  | commits response _ hwrites hslot _ _ _ hanswered =>
    refine ⟨?_, fun e he => ?_⟩
    · rw [hanswered, hwrites, show PaxosEvent.brings (.acceptResponseReceived response) = [] from rfl,
        List.append_nil]
      -- the settled and the unsettled writes are all there are
      have hsplit := List.filter_append_perm (fun e => decide (e.1 < ctx'.committedSlot + 1))
        self.inFlightWrites.entries
      have hrest : self.inFlightWrites.entries.filter
          (fun e => !decide (e.1 < ctx'.committedSlot + 1)) =
          (self.unsettled ctx'.committedSlot).entries := by
        refine List.filter_congr fun e _ => ?_
        rw [← decide_not]
        exact decide_eq_decide.mpr Nat.not_lt
      rw [hrest] at hsplit
      refine (((hsplit.map Prod.snd).map _).filter _).symm.trans (.of_eq ?_)
      rw [List.map_append, List.map_append, List.filter_append]
      rfl
    · rw [hwrites] at he
      rw [hslot]
      exact hbelow e (List.mem_of_mem_filter he)
  | keeps hevent hwrites hslot _ _ hquiet =>
    refine ⟨?_, fun e he => ?_⟩
    · have hnone : event.brings = [] := by
        cases event with
        | clientWriteRequestReceived command => exact absurd rfl (hevent command)
        | _ => rfl
      rw [hquiet, hwrites, hnone, List.append_nil]
      exact .refl _
    · rw [hslot]
      exact hbelow e (hwrites ▸ he)

/-- A Leader's books balance. -/
theorem Leader.balance {self : Leader}
    (h : (self.handleEvent event ctx env).result = .ok role')
    (hbelow : ∀ e ∈ self.inFlightWrites.entries, e.1 ≤ ctx.lastLogSlot) :
    (awaited self.inFlightWrites.values ++ event.brings).Perm
        (settledBy (self.handleEvent event ctx env).effects ++ role'.holds ++
          (PaxosState.leader self).drops role') ∧
      role'.HoldsBelow (self.handleEvent event ctx env).ctx.lastLogSlot := by
  rw [settledBy_of_leader self.handleEvent_ofLeader]
  cases hleader : role'.isLeader with
  | true =>
    obtain ⟨l', rfl⟩ : ∃ l', role' = .leader l' := by
      cases role' with
      | leader l' => exact ⟨l', rfl⟩
      | _ => cases hleader
    obtain ⟨hbalance, hbelow'⟩ := (handleEvent_writeMove h).balance hbelow
    refine ⟨?_, fun l hl => ?_⟩
    · rw [PaxosState.drops, if_pos hleader, List.append_nil]
      exact hbalance
    · cases hl
      exact hbelow'
  | false =>
    -- only a request of another member ends the role
    have hquiet : acknowledged (self.handleEvent event ctx env).effects = [] ∧ event.brings = [] := by
      rcases self.leads_or_quiet event ctx env with ⟨a, _, heq⟩ | ⟨hquiet, _⟩
      · rw [heq] at h
        rw [stay_result h] at hleader
        cases hleader
      · refine ⟨acknowledged_of_peerReplies hquiet, ?_⟩
        cases event with
        | clientWriteRequestReceived command =>
          rw [stay_result (show (handleEvent.stay _).result = .ok role' from h)] at hleader
          cases hleader
        | _ => rfl
    refine ⟨?_, fun l hl => ?_⟩
    · rw [hquiet.1, hquiet.2, PaxosState.holds_of_not_leader hleader, PaxosState.drops, hleader,
        List.append_nil]
      exact .refl _
    · rw [hl] at hleader
      cases hleader

namespace PaxosState

/-- **The books of one event balance**: what was held back and what the event brings is
settled, held back, or dropped. -/
theorem balance {self : PaxosState} (h : (self.processEvent event ctx false env).result = .ok role')
    (hbelow : self.HoldsBelow ctx.lastLogSlot) :
    (self.holds ++ event.brings).Perm
        (settledBy (self.processEvent event ctx false env).effects ++ role'.holds ++
          self.drops role') ∧
      role'.HoldsBelow (self.processEvent event ctx false env).ctx.lastLogSlot := by
  rw [processEvent_eq] at h ⊢
  rcases self.adoptTerm_cases event ctx with hkept | ⟨term, hterm, _, hadopt⟩
  · rw [hkept] at h ⊢
    have hnobody : ∀ {role : PaxosState} {effects : List Effect} {slot : Nat},
        self.holds = [] → settledBy effects = event.brings →
        (∀ l, role = .leader l → l.inFlightWrites = .empty) →
        (self.holds ++ event.brings).Perm (settledBy effects ++ role.holds ++ self.drops role) ∧
          role.HoldsBelow slot := by
      intro role effects slot hnone hsettled hwins
      have hholds : role.holds = [] := by
        cases role with
        | leader l =>
          rw [holds, hwins l rfl]
          rfl
        | _ => rfl
      refine ⟨?_, fun l hl e he => ?_⟩
      · rw [hnone, hsettled, hholds, drops, hnone, ite_self, List.append_nil, List.append_nil]
        exact .refl _
      · rw [hwins l hl] at he
        cases he
    cases self with
    | follower f =>
      refine hnobody rfl (f.settledBy_handleEvent h) fun l hl => ?_
      rw [hl] at h
      cases Follower.handleEvent_next h
    | preCandidate p =>
      refine hnobody rfl p.settledBy_handleEvent fun l hl => ?_
      rw [hl] at h
      cases PreCandidate.handleEvent_next h
    | candidate c =>
      refine hnobody rfl c.settledBy_handleEvent fun l hl => ?_
      rw [hl] at h
      have hresult : (c.handleEvent event ctx env).result = .ok (.leader l) := h
      cases Candidate.handleEvent_next hresult with
      | wins response c' l hevent =>
        subst hevent
        exact Candidate.inFlightWrites_of_win hresult
    | leader l => exact Leader.balance h (hbelow l rfl)
  · -- a larger term ends the role, and its event is no client write
    rw [hadopt] at h ⊢
    have hnone : event.brings = [] := by
      cases event with
      | clientWriteRequestReceived command => cases hterm
      | _ => rfl
    have hnot : ∀ l, role' ≠ .leader l := by
      rintro l rfl
      cases Follower.handleEvent_next h
    have hleader : role'.isLeader = false := by
      cases role' with
      | leader l => exact absurd rfl (hnot l)
      | _ => rfl
    refine ⟨?_, fun l hl => absurd hl (hnot l)⟩
    rw [handleEvent, Follower.settledBy_handleEvent _ h, hnone, holds_of_not_leader hleader, drops,
      hleader, List.append_nil]
    exact .refl _

end PaxosState
end

/-! ## A run of a member -/

/-- A member, with the channels of the writes it has been brought, has answered or handed
on, and has dropped. -/
structure ClientLedger where
  member : Member
  received : List ReplyChannel
  settled : List ReplyChannel
  dropped : List ReplyChannel

namespace ClientLedger

/-- A member whose books are opened. -/
def opened (member : Member) : ClientLedger := ⟨member, [], [], []⟩

/-- The member takes a step. -/
def step (s : ClientLedger) (l : Member.Label) : Option ClientLedger :=
  (s.member.step l).map fun member =>
    match l with
    | .event event env =>
      { member := member
        received := s.received ++ event.brings
        settled := s.settled ++
          settledBy (s.member.role.processEvent event s.member.ctx false env).effects
        dropped := s.dropped ++ s.member.role.drops member.role }
    | .leaseWatcher _ | .countdownFires _ | .countdownClears => { s with member := member }

/-- The books balance. -/
structure Balanced (held : List ReplyChannel) (s : ClientLedger) : Prop where
  below : s.member.role.HoldsBelow s.member.ctx.lastLogSlot
  perm : (held ++ s.received).Perm (s.settled ++ s.member.role.holds ++ s.dropped)

/-- A timer changes neither the log nor what is held back. -/
theorem holds_of_timer {m m' : Member} {l : Member.Label}
    (hl : ∀ event env, l ≠ .event event env) (h : m.step l = some m') :
    m'.role.holds = m.role.holds ∧
      (m.role.HoldsBelow m.ctx.lastLogSlot → m'.role.HoldsBelow m'.ctx.lastLogSlot) := by
  cases l with
  | event event env => exact absurd rfl (hl event env)
  | leaseWatcher utc =>
    simp only [Member.step] at h
    split at h
    · cases h
    · split at h
      · cases Option.some.inj h
        exact ⟨rfl, id⟩
      · cases h
  | countdownFires delivered =>
    simp only [Member.step] at h
    split at h
    · rename_i f hrole
      split at h
      · cases Option.some.inj h
        rw [hrole]
        exact ⟨rfl, fun _ l hl => by cases hl⟩
      · cases h
    · cases h
  | countdownClears =>
    simp only [Member.step] at h
    split at h
    · rename_i f hrole
      split at h
      · cases Option.some.inj h
        rw [hrole]
        exact ⟨rfl, fun _ l hl => by cases hl⟩
      · cases h
    · cases h

theorem Balanced.step {held : List ReplyChannel} {s s' : ClientLedger} {l : Member.Label}
    (hs : s.Balanced held) (h : s.step l = some s') : s'.Balanced held := by
  obtain ⟨m', hm', rfl⟩ := Option.map_eq_some_iff.mp h
  cases l with
  | event event env =>
    obtain ⟨event', env', hl, hresult, hctx⟩ | ⟨hnot, _⟩ := Member.step_cases hm'
    · cases hl
      obtain ⟨hbalance, hbelow⟩ := PaxosState.balance hresult hs.below
      refine ⟨hctx ▸ hbelow, ?_⟩
      -- what was held back before is on both sides
      have hall : (held ++ s.received ++ event.brings).Perm
          (s.settled ++ s.dropped ++ (s.member.role.holds ++ event.brings)) := by
        refine (hs.perm.append_right event.brings).trans ?_
        rw [List.append_assoc, List.append_assoc, List.append_assoc]
        refine List.Perm.append_left _ ?_
        rw [← List.append_assoc, ← List.append_assoc]
        exact List.perm_append_comm.append_right _
      dsimp only
      rw [← List.append_assoc]
      refine (hall.trans (hbalance.append_left _)).trans ?_
      refine List.perm_iff_count.mpr fun tx => ?_
      simp only [List.count_append]
      omega
    · exact absurd rfl (hnot event env)
  | leaseWatcher utc =>
    obtain ⟨hholds, hbelow⟩ := holds_of_timer (fun _ _ hl => by cases hl) hm'
    exact ⟨hbelow hs.below, hholds ▸ hs.perm⟩
  | countdownFires delivered =>
    obtain ⟨hholds, hbelow⟩ := holds_of_timer (fun _ _ hl => by cases hl) hm'
    exact ⟨hbelow hs.below, hholds ▸ hs.perm⟩
  | countdownClears =>
    obtain ⟨hholds, hbelow⟩ := holds_of_timer (fun _ _ hl => by cases hl) hm'
    exact ⟨hbelow hs.below, hholds ▸ hs.perm⟩

/-- **No client write is lost or settled twice**: over any run of a member, the writes held
back at first and those brought since are, each of them once, answered or handed on, held
back, or dropped when a Leader left its role. -/
theorem balanced_of_reaches {m : Member} {s : ClientLedger}
    (hbelow : m.role.HoldsBelow m.ctx.lastLogSlot)
    (hrun : Reaches ClientLedger.step (opened m) s) :
    (m.role.holds ++ s.received).Perm (s.settled ++ s.member.role.holds ++ s.dropped) := by
  have hstart : (opened m).Balanced m.role.holds := ⟨hbelow, by
    show (m.role.holds ++ []).Perm ([] ++ m.role.holds ++ [])
    rw [List.nil_append]⟩
  have hend : s.Balanced m.role.holds :=
    hrun.invariant hstart fun _ _ _ ha _ hstep => ha.step hstep
  exact hend.perm

/-- A new Leader of three that accepts a write, and is then heard of by one of a larger
term: the write is dropped. -/
theorem balanced_of_reaches_deposed :
    ∃ m s, exec ClientLedger.step (opened m) [
        .event (.clientWriteRequestReceived ⟨⟨"a"⟩, ⟨9, true⟩⟩) (.steady (Duration.seconds 1)),
        .event (.preVoteResponseReceived ⟨2, 2, false, none, none, none⟩) (.steady (Duration.seconds 2))] =
          some s ∧
      s.received = [⟨9, true⟩] ∧ s.dropped = [⟨9, true⟩] ∧
      (m.role.holds ++ s.received).Perm (s.settled ++ s.member.role.holds ++ s.dropped) := by
  obtain ⟨s, hrun, hreceived, hdropped⟩ : ∃ s, exec ClientLedger.step
      (opened ⟨.leader (Leader.new (Candidate.new (.memberOfThree 1)).scoreBoard),
        { PaxosSharedContext.memberOfThree 1 with term := 1 }, []⟩)
      [.event (.clientWriteRequestReceived ⟨⟨"a"⟩, ⟨9, true⟩⟩) (.steady (Duration.seconds 1)),
        .event (.preVoteResponseReceived ⟨2, 2, false, none, none, none⟩) (.steady (Duration.seconds 2))] =
          some s ∧ s.received = [⟨9, true⟩] ∧ s.dropped = [⟨9, true⟩] := ⟨_, rfl, rfl, rfl⟩
  exact ⟨_, s, hrun, hreceived, hdropped, balanced_of_reaches
    (fun l hl e he => by cases hl; cases he) (Runs.of_exec _ hrun)⟩

end ClientLedger
end SpannerPaxos
