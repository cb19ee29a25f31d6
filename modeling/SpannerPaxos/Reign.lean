import SpannerPaxos.Win

/-! # From an election to its commits

A reign is a campaign and the tenure that follows if it is won.  Whether a commit
of the tenure is held by a quorum is decided when the votes are counted: a seed
that covers a recovered slot goes on counting, although the copy it stands for is
not the leader's any more.
-/
namespace SpannerPaxos

structure Reign where
  /-- The Candidate, until it has won. -/
  candidate : Option Candidate
  /-- The members whose Promise has come in. -/
  promisers : List Uuid
  /-- The members' states, and the tenure once there is a leader. -/
  ordered : Ordered

namespace Reign

abbrev tenure (s : Reign) : Tenure := s.ordered.tenure

abbrev ctx (s : Reign) : PaxosSharedContext := s.tenure.ctx

inductive Label where
  | vote (response : VoteResponse) (env : Env)
  | accept (l : Tenure.Label)

/-- The Candidate processes a vote response; it goes on campaigning or leads. -/
def vote (s : Reign) (response : VoteResponse) (env : Env) : Option Reign :=
  match s.candidate with
  | none => none
  | some candidate =>
    let o := (PaxosState.candidate candidate).processEvent (.voteResponseReceived response) s.ctx
      false env
    match o.result with
    | .ok (.candidate candidate) => some
      { candidate := some candidate
        promisers := Tenure.promisersWith s.promisers response
        ordered := { s.ordered with tenure := { s.tenure with ctx := o.ctx } } }
    | .ok (.leader leader) => some
      { candidate := none
        promisers := Tenure.promisersWith s.promisers response
        ordered := { s.ordered with tenure := s.tenure.led leader o.ctx o.effects } }
    | _ => none

def step (s : Reign) : Label → Option Reign
  | .vote response env => s.vote response env
  | .accept l => (s.ordered.step l).map fun ordered => { s with ordered := ordered }

/-- Responses come from peers, Promises report their logs, and no accept message
is lost or duplicated. -/
def Faithful (s : Reign) : Label → Prop
  | .vote response _ => response.memberId ∈ s.ctx.peerIds ∧
      (response.outcome.isPromise = true →
        response.outcome = (s.tenure.followerCtx response.memberId).promiseVote.outcome)
  | .accept l => s.ordered.Lossless l

/-- A campaign that has just been started. -/
structure Campaigning (s : Reign) : Prop where
  candidate : ∃ dispatchTime clock, s.candidate = some { Candidate.new s.ctx with
    voteDispatchTime := dispatchTime, voteCdClock := clock }
  promisers : s.promisers = []
  tenure : s.tenure.BeforeWin

/-- Every vote response leaves the promisers' seeds below what is recovered. -/
def SeedsBelowRecovery (s : Reign) (l : Label) : Prop :=
  s.Faithful l ∧ ∀ response env, l = .vote response env →
    s.tenure.SeedsLast (Tenure.promisersWith s.promisers response)

/-! ## Runs -/

theorem vote_cases {s s' : Reign} {response : VoteResponse} {env : Env}
    (h : s.vote response env = some s') :
    ∃ c, s.candidate = some c ∧
      ((∃ c', c.recordVote response s.ctx = some c' ∧
          s' = ⟨some c', Tenure.promisersWith s.promisers response, s.ordered⟩) ∨
        ∃ leader,
          (c.handleEvent (.voteResponseReceived response) s.ctx env).result =
            .ok (.leader leader) ∧
          s' = ⟨none, Tenure.promisersWith s.promisers response, { s.ordered with
            tenure := s.tenure.led leader
              (c.handleEvent (.voteResponseReceived response) s.ctx env).ctx
              (c.handleEvent (.voteResponseReceived response) s.ctx env).effects }⟩) := by
  unfold vote at h
  cases hc : s.candidate with
  | none =>
    rw [hc] at h
    cases h
  | some c =>
    simp only [hc] at h
    refine ⟨c, rfl, ?_⟩
    split at h
    · rename_i c' hresult
      have heq := PaxosState.processEvent_of_not_follower hresult fun _ => nofun
      rw [heq] at hresult
      obtain ⟨hrecord, hctx⟩ := Candidate.recordVote_of_stays hresult
      cases Option.some.inj h
      refine Or.inl ⟨c', hrecord, ?_⟩
      rw [heq, show ((PaxosState.candidate c).handleEvent (.voteResponseReceived response) s.ctx
        env).ctx = s.ctx from hctx]
    · rename_i leader hresult
      have heq := PaxosState.processEvent_of_not_follower hresult fun _ => nofun
      rw [heq] at hresult
      cases Option.some.inj h
      refine Or.inr ⟨leader, hresult, ?_⟩
      rw [heq]
      rfl
    · cases h

/-- A campaign under way, or a sound tenure. -/
inductive Inv (s : Reign) : Prop
  | campaigns (c : Candidate) (hc : s.candidate = some c) (hbefore : s.tenure.BeforeWin)
      (hcollected : s.tenure.Collected c s.promisers)
  | leads (hnone : s.candidate = none) (base floor : Nat) (hsound : s.ordered.Sound base floor)

theorem Campaigning.inv {s : Reign} (h : s.Campaigning) : s.Inv := by
  obtain ⟨dispatchTime, clock, hc⟩ := h.candidate
  refine .campaigns _ hc h.tenure ?_
  rw [h.promisers]
  exact .new s.tenure dispatchTime clock

theorem Inv.step {s s' : Reign} {l : Label} (hs : s.Inv) (hok : s.SeedsBelowRecovery l)
    (h : s.step l = some s') : s'.Inv := by
  cases l with
  | vote response env =>
    obtain ⟨c, hc, hcases⟩ := vote_cases h
    cases hs with
    | leads hnone =>
      rw [hnone] at hc
      cases hc
    | campaigns c₀ hc₀ hbefore hcollected =>
      have hsame : c₀ = c := Option.some.inj (hc₀.symm.trans hc)
      subst hsame
      have hrecorded : ∀ c', c₀.recordVote response s.ctx = some c' →
          s.tenure.Collected c' (Tenure.promisersWith s.promisers response) :=
        fun c' => hcollected.record hbefore.keyeds hok.1.2
      rcases hcases with ⟨c', hrecord, rfl⟩ | ⟨leader, hwin, rfl⟩
      · exact .campaigns c' rfl hbefore (hrecorded c' hrecord)
      · obtain ⟨c', hrecord, hwon⟩ := Candidate.won_of_handleEvent hwin hbefore.keyed
          fun c' hrecord => (hrecorded c' hrecord).keyed
        obtain ⟨base, floor, hsound⟩ :=
          Tenure.sound_of_won hbefore (hrecorded c' hrecord) (hok.2 response env rfl) hwon
            s.ordered.nextRequest s.ordered.nextResponse
        exact .leads rfl base floor hsound
  | accept l =>
    obtain ⟨o', hstep, rfl⟩ := Option.map_eq_some_iff.mp h
    cases hs with
    | leads hnone base floor hsound => exact .leads hnone base floor (hsound.step hstep)
    | campaigns c hc hbefore hcollected =>
      have hnone := hbefore.step_eq_none l
      rw [Ordered.step_tenure hstep] at hnone
      cases hnone

/-- Whenever the commit point is raised under the guard, a quorum holds the leader's
terms and values up to it. -/
def CommitsHeld (ok : Reign → Label → Prop) (s : Reign) : Prop :=
  ∀ t t' l, Runs step ok s t → ok t l → t.step l = some t' →
    t.ctx.committedSlot < t'.ctx.committedSlot → t'.tenure.CommitHeld

/-- **Every commit of a reign is held by a quorum**, if the seeds of its leader lie
below what it recovered. -/
theorem commitsHeld_of_seedsBelowRecovery {s : Reign} (h : s.Campaigning) :
    s.CommitsHeld SeedsBelowRecovery := by
  intro t t' l hrun hok hstep hraise
  have hinv : t.Inv := hrun.invariant h.inv fun _ _ _ ha hok hstep => ha.step hok hstep
  cases l with
  | vote response env =>
    obtain ⟨c, hc, ⟨c', _, rfl⟩ | ⟨leader, hwin, rfl⟩⟩ := vote_cases hstep
    · exact absurd hraise (lt_irrefl _)
    · have hle := le_of_eq (Candidate.committedSlot_of_win hwin)
      exact absurd hraise (not_lt_of_ge hle)
  | accept l =>
    obtain ⟨o', hordered, rfl⟩ := Option.map_eq_some_iff.mp hstep
    cases hinv with
    | leads _ base floor hsound => exact hsound.commitHeld hordered hraise
    | campaigns c _ hbefore _ =>
      have hnone := hbefore.step_eq_none l
      rw [Ordered.step_tenure hordered] at hnone
      cases hnone

/-- Accept messages delivered in order without loss are a run of the reign. -/
theorem runs_accept {ok : Reign → Label → Prop}
    (hok : ∀ t l, t.ordered.Lossless l → ok t (.accept l)) {s : Reign} {o : Ordered}
    (h : Runs Ordered.step Ordered.Lossless s.ordered o) :
    Runs step ok s { s with ordered := o } := by
  refine h.simulate (P := fun _ => True) (fun o => { s with ordered := o }) Label.accept trivial
    (fun _ _ _ _ _ _ => trivial) ?_
  intro o₁ l o₂ _ hlossless hstep
  refine ⟨hok { s with ordered := o₁ } l hlossless, ?_⟩
  show (o₁.step l).map _ = _
  rw [hstep]
  rfl

/-! ## A second term -/

/-- The entry that member 1 has written as the leader of term 1. -/
def ofTermOne : LogEntry := ⟨1, 1, "a", Duration.seconds 1⟩

/-- A member of a group of four in term 2, with the entry or without. -/
def memberOfFour (holds : Uuid → Bool) (p : Uuid) : PaxosSharedContext :=
  let ctx := { PaxosSharedContext.new p (List.erase [1, 2, 3, 4] p)
      (List.Nodup.erase p (by decide)) with
    term := 2
    leaseExpiry := some (Duration.seconds 110) }
  if holds p then { ctx with
      lastLogTerm := 1
      lastLogSlot := 1
      uncommittedLogs := OrderedMap.empty.insert 1 ofTermOne
      wal := WriteAheadLog.new.append ofTermOne }
  else ctx

/-- Member 1 campaigns again after its tenure in term 1 is over. -/
def secondTerm (holds : Uuid → Bool) : Reign where
  candidate := some { Candidate.new (memberOfFour holds 1) with
    voteDispatchTime := some (Duration.seconds 100)
    voteCdClock := CountDownClock.new.start }
  promisers := []
  ordered := Ordered.start
    { leader := none
      ctx := memberOfFour holds 1
      follower := fun _ => Follower.new (some 1)
      followerCtx := memberOfFour holds
      requests := fun _ => []
      responses := fun _ => [] }

/-- A log of the group is the entry or nothing. -/
theorem memberOfFour_get? (holds : Uuid → Bool) (p : Uuid) {k : Nat} {e : LogEntry}
    (h : (memberOfFour holds p).wal.get? k = some e) :
    holds p = true ∧ k = 1 ∧ e = ofTermOne := by
  unfold memberOfFour at h
  by_cases hp : holds p = true
  · simp only [hp, if_true, WriteAheadLog.get?_append, WriteAheadLog.get?_new] at h
    split at h
    · rename_i hk
      exact ⟨hp, hk, (Option.some.inj h).symm⟩
    · cases h
  · simp only [hp] at h
    cases h

theorem secondTerm_campaigning (holds : Uuid → Bool) : (secondTerm holds).Campaigning := by
  have hmatch : ∀ p q, LogsMatch (memberOfFour holds p).wal (memberOfFour holds q).wal := by
    intro p q k e e' he he' _
    obtain ⟨hp, _, _⟩ := memberOfFour_get? holds p he
    obtain ⟨hq, _, _⟩ := memberOfFour_get? holds q he'
    intro j _ _
    show (memberOfFour holds p).wal.get? j = (memberOfFour holds q).wal.get? j
    simp only [memberOfFour, hp, hq, if_true]
  have hposition : ∀ p, (memberOfFour holds p).TruthfulPosition := by
    intro p
    refine ⟨?_, ?_⟩
    · unfold memberOfFour
      by_cases hp : holds p = true
      · rw [if_pos hp]
        exact Or.inr rfl
      · rw [if_neg hp]
        exact Or.inl rfl
    · intro k e he
      obtain ⟨hp, rfl, _⟩ := memberOfFour_get? holds p he
      simp only [memberOfFour, hp, if_true]
      exact Nat.le_refl 1
  have hkeyed : ∀ p, KeyedBySlot (memberOfFour holds p).uncommittedLogs := by
    intro p slot e he
    unfold memberOfFour at he
    by_cases hp : holds p = true
    · simp only [hp, if_true, OrderedMap.get?_insert, OrderedMap.get?_empty] at he
      split at he
      · rename_i hslot
        rw [← Option.some.inj he, hslot]
        rfl
      · cases he
    · simp only [hp] at he
      cases he
  have hid : ∀ p, (memberOfFour holds p).memberId = p := by
    intro p
    unfold memberOfFour
    dsimp only
    split <;> rfl
  exact ⟨⟨_, _, rfl⟩, rfl, rfl, fun _ => ⟨rfl, rfl⟩, ⟨hmatch 1, hmatch⟩, hposition 1, hposition,
    hkeyed 1, hkeyed, hid⟩

/-- The followers answer the requests of the win: their logs are too short, and then
they write the entry. -/
def followed (p : Uuid) : List Tenure.Label :=
  [.deliverRequest p 0 (.steady (Duration.seconds 102)),
    .deliverResponse p 0 (.steady (Duration.seconds 103)),
    .deliverRequest p 1 (.steady (Duration.seconds 104)),
    .deliverResponse p 1 (.steady (Duration.seconds 105))]

/-- Member `p` promises. -/
def promises (holds : Uuid → Bool) (p : Uuid) : Label :=
  .vote (memberOfFour holds p).promiseVote (.steady (Duration.seconds 101))

/-- Only member 1 has its entry: its followers have no seeds. -/
theorem seedsLast_alone {promisers : List Uuid} (h : ∀ p ∈ promisers, p ≠ 1) :
    (secondTerm fun p => decide (p = 1)).tenure.SeedsLast promisers := by
  refine ⟨?_, ?_, Or.inr ?_⟩
  · intro p k e he
    obtain ⟨_, _, rfl⟩ := memberOfFour_get? _ p he
    decide
  · intro slot k e _ he
    obtain ⟨_, rfl, _⟩ := memberOfFour_get? _ 1 he
    exact Or.inr (Or.inl ⟨ofTermOne, rfl⟩)
  · intro p hp hterm
    have hshort : memberOfFour (fun p => decide (p = 1)) p = memberOfFour (fun _ => false) p := by
      simp only [memberOfFour, h p hp, decide_false]
    rw [show (secondTerm fun p => decide (p = 1)).tenure.followerCtx p = _ from hshort] at hterm
    cases hterm

/-- The recovered entry is committed once two followers have written it. -/
theorem commitsHeld_of_seedsBelowRecovery_recovered :
    ∃ t t', Runs step SeedsBelowRecovery (secondTerm fun p => decide (p = 1)) t ∧
      t.step (.accept (.deliverResponse 3 1 (.steady (Duration.seconds 105)))) = some t' ∧
      t.ctx.committedSlot = 0 ∧ t'.ctx.committedSlot = 1 ∧ t'.tenure.CommitHeld := by
  have hstart : Runs step SeedsBelowRecovery (secondTerm fun p => decide (p = 1)) _ := .refl _
  have hsecond := hstart.tail (promises (fun p => decide (p = 1)) 2)
    ⟨⟨by decide, fun _ => rfl⟩, fun _ _ hl => by cases hl; exact seedsLast_alone (by decide)⟩ rfl
  have hthird := hsecond.tail (promises (fun p => decide (p = 1)) 3)
    ⟨⟨by decide, fun _ => rfl⟩, fun _ _ hl => by cases hl; exact seedsLast_alone (by decide)⟩ rfl
  have hrun := hthird.trans (runs_accept (fun _ _ hlossless => ⟨hlossless, nofun⟩)
    (.of_execOk (followed 2 ++ followed 3).dropLast rfl))
  exact ⟨_, _, hrun, rfl, rfl, rfl,
    commitsHeld_of_seedsBelowRecovery (secondTerm_campaigning fun p => decide (p = 1)) _ _
      (.accept (.deliverResponse 3 1 (.steady (Duration.seconds 105)))) hrun ⟨rfl, nofun⟩ rfl
      (Nat.lt_succ_self 0)⟩

/-- Members 1 and 2 have the entry.  The Promise of member 2 seeds slot 1, the win
restamps the entry there, and the acknowledgement of member 3 commits it although
member 2 still has it in the old term. -/
theorem not_commitsHeld_restamped : ¬ ∀ s : Reign, s.Campaigning → s.CommitsHeld Faithful := by
  intro hall
  have hstart : Runs step Faithful (secondTerm fun p => decide (p ≤ 2)) _ := .refl _
  have hsecond := hstart.tail (promises (fun p => decide (p ≤ 2)) 2) ⟨by decide, fun _ => rfl⟩ rfl
  have hthird := hsecond.tail (promises (fun p => decide (p ≤ 2)) 3) ⟨by decide, fun _ => rfl⟩ rfl
  have hrun := hthird.trans (runs_accept (fun _ _ hlossless => hlossless)
    (.of_execOk (followed 3).dropLast rfl))
  obtain ⟨Q, hnodup, hsub, hlen, hagree⟩ := hall _ (secondTerm_campaigning fun p => decide (p ≤ 2))
    _ _ (.accept (.deliverResponse 3 1 (.steady (Duration.seconds 105)))) hrun rfl rfl
    (Nat.lt_succ_self 0)
  have honly : ∀ p ∈ Q, p ∈ [3] := by
    intro p hp
    have hpeer : p ∈ [2, 3, 4] := hsub p hp
    rcases List.mem_cons.mp hpeer with rfl | hpeer
    · have hslot : some (2, "a") = some (1, "a") := hagree 2 hp 1 (Nat.le_refl 1) (Nat.le_refl 1)
      cases hslot
    · rcases List.mem_cons.mp hpeer with rfl | hpeer
      · exact List.mem_cons_self
      · cases List.mem_singleton.mp hpeer
        have hslot : some (2, "a") = none := hagree 4 hp 1 (Nat.le_refl 1) (Nat.le_refl 1)
        cases hslot
  have hone : Q.length ≤ 1 := (List.subperm_of_subset hnodup honly).length_le
  have hquorum : 3 ≤ Q.length + 1 := hlen
  exact absurd (hquorum.trans (Nat.succ_le_succ hone)) (by decide)

end Reign
end SpannerPaxos
