import SpannerPaxos.ClientReplies

/-! # Acknowledged writes

A Leader's tenure as its clients see it: the writes it has accepted, with the slots
it gave them, and the answers it has sent.  What is pending is what has been accepted
above the commit point, and a commit answers exactly the writes it passes.
-/
namespace SpannerPaxos

/-- A Leader, with the writes of its tenure and the channels answered with success,
oldest first. -/
structure Serving where
  leader : Leader
  ctx : PaxosSharedContext
  accepted : List (Nat × PaxosCommand ClientWriteRequest)
  answered : List ReplyChannel

namespace Serving

/-- The write an event brings, with the slot of the entry the Leader has written. -/
def writeOf (ctx : PaxosSharedContext) : PaxosEvent →
    List (Nat × PaxosCommand ClientWriteRequest)
  | .clientWriteRequestReceived command => [(ctx.lastLogSlot, command)]
  | _ => []

/-- The Leader handles an event and stays Leader. -/
def step (s : Serving) (l : PaxosEvent × Env) : Option Serving :=
  let o := (PaxosState.leader s.leader).processEvent l.1 s.ctx false l.2
  match o.result with
  | .ok (.leader leader) => some ⟨leader, o.ctx, s.accepted ++ writeOf o.ctx l.1,
      s.answered ++ acknowledged o.effects⟩
  | _ => none

/-- A tenure starts without pending writes, committed no further than its log goes,
and with every other member on the score board. -/
structure Start (s : Serving) : Prop where
  pending : s.leader.inFlightWrites = .empty
  committed : s.ctx.committedSlot ≤ s.ctx.lastLogSlot
  board : s.leader.scoreBoard.keys = s.ctx.peerIds
  accepted : s.accepted = []
  answered : s.answered = []

/-- The channels of these writes that someone waits on. -/
def channels (writes : List (Nat × PaxosCommand ClientWriteRequest)) : List ReplyChannel :=
  (writes.map fun w => w.2.responseTx).filter ReplyChannel.receiverAlive

/-- What a step does to the tenure. -/
inductive Next (s s' : Serving) : Prop
  | accepts (ts : DateTime) (command : PaxosCommand ClientWriteRequest)
      (hwrites : s'.leader.inFlightWrites =
        s.leader.inFlightWrites.insert (s.ctx.lastLogSlot + 1) (ts, command))
      (haccepted : s'.accepted = s.accepted ++ [(s.ctx.lastLogSlot + 1, command)])
      (hslot : s'.ctx.lastLogSlot = s.ctx.lastLogSlot + 1)
      (hcommitted : s'.ctx.committedSlot = s.ctx.committedSlot)
      (hanswered : s'.answered = s.answered)
  | commits (hlt : s.ctx.committedSlot < s'.ctx.committedSlot)
      (hwrites : s'.leader.inFlightWrites = s.leader.unsettled s'.ctx.committedSlot)
      (haccepted : s'.accepted = s.accepted) (hslot : s'.ctx.lastLogSlot = s.ctx.lastLogSlot)
      (hquorum : s'.ctx.committedSlot = s'.leader.minQuorumSlot s'.ctx)
      (hsize : 2 ≤ s.ctx.getQuorumSize)
      (hanswered : s'.answered =
        s.answered ++ awaited (s.leader.settled s'.ctx.committedSlot).values)
  | keeps (hwrites : s'.leader.inFlightWrites = s.leader.inFlightWrites)
      (haccepted : s'.accepted = s.accepted) (hslot : s'.ctx.lastLogSlot = s.ctx.lastLogSlot)
      (hcommitted : s'.ctx.committedSlot = s.ctx.committedSlot)
      (hanswered : s'.answered = s.answered)

/-- What every step keeps of the group. -/
structure SameGroup (s s' : Serving) : Prop where
  peerIds : s'.ctx.peerIds = s.ctx.peerIds
  keys : s'.leader.scoreBoard.keys = s.leader.scoreBoard.keys

theorem step_next {s s' : Serving} {l : PaxosEvent × Env} (h : s.step l = some s') :
    Next s s' ∧ SameGroup s s' := by
  obtain ⟨event, env⟩ := l
  unfold step at h
  dsimp only at h
  split at h
  · rename_i leader hresult
    have hown := PaxosState.processEvent_of_not_follower hresult fun f hf => by cases hf
    rw [hown] at h hresult
    cases Option.some.inj h
    have hmove := Leader.handleEvent_writeMove hresult
    have hsame := (PaxosState.leader_of_handleEvent hresult).1
    change Leader.WriteMove s.leader s.ctx env event leader
      ((PaxosState.leader s.leader).handleEvent event s.ctx env).ctx
      ((PaxosState.leader s.leader).handleEvent event s.ctx env).effects at hmove
    generalize (PaxosState.leader s.leader).handleEvent event s.ctx env = o at hmove hsame
    cases hmove with
    | accepts command hwrites hentry hslot hcommitted hkeys hquiet =>
      refine ⟨.accepts _ command hwrites ?_ hslot hcommitted ?_, ⟨hsame.peerIds, hkeys⟩⟩
      · rw [← hslot]
        rfl
      · simp only [hquiet, List.append_nil]
    | commits response hlt hwrites hslot hquorum hsize hkeys hanswered =>
      refine ⟨.commits hlt hwrites ?_ hslot hquorum hsize ?_, ⟨hsame.peerIds, hkeys⟩⟩
      · simp only [writeOf, List.append_nil]
      · simp only [hanswered]
    | keeps hevent hwrites hslot hcommitted hkeys hquiet =>
      refine ⟨.keeps hwrites ?_ hslot hcommitted ?_, ⟨hsame.peerIds, hkeys⟩⟩
      · have hnone : writeOf o.ctx event = [] := by
          cases event with
          | clientWriteRequestReceived command => exact absurd rfl (hevent command)
          | _ => rfl
        simp only [hnone, List.append_nil]
      · simp only [hquiet, List.append_nil]
  · cases h

/-! ## What is pending, and what has been answered -/

/-- Pending are the writes accepted above the commit point; answered are the others;
the slots are consecutive from the one after `base`. -/
structure Inv (base : Nat) (s : Serving) : Prop where
  slots : s.accepted.map Prod.fst = List.range' (base + 1) s.accepted.length
  last : s.ctx.lastLogSlot = base + s.accepted.length
  committed : s.ctx.committedSlot ≤ s.ctx.lastLogSlot
  pending : s.leader.inFlightWrites.entries.map (fun e => (e.1, e.2.2)) =
    s.accepted.filter fun w => decide (s.ctx.committedSlot < w.1)
  answered : s.answered =
    channels (s.accepted.filter fun w => decide (w.1 ≤ s.ctx.committedSlot))
  board : s.leader.scoreBoard.keys = s.ctx.peerIds

theorem Start.inv {s : Serving} (h : s.Start) : s.Inv s.ctx.lastLogSlot where
  slots := by rw [h.accepted]; rfl
  last := by rw [h.accepted]; rfl
  committed := h.committed
  pending := by rw [h.accepted, h.pending]; rfl
  answered := by rw [h.accepted, h.answered]; rfl
  board := h.board

namespace Inv
variable {base : Nat} {s s' : Serving}

/-- Every accepted slot is above the start and in the log. -/
theorem bounds (h : s.Inv base) {w : Nat × PaxosCommand ClientWriteRequest}
    (hw : w ∈ s.accepted) : base < w.1 ∧ w.1 ≤ s.ctx.lastLogSlot := by
  have hmem : w.1 ∈ s.accepted.map Prod.fst := List.mem_map.mpr ⟨w, hw, rfl⟩
  rw [h.slots, List.mem_range'] at hmem
  obtain ⟨i, hi, heq⟩ := hmem
  have hlast := h.last
  omega

/-- The accepted writes stand in slot order. -/
theorem sorted (h : s.Inv base) : s.accepted.Pairwise fun w w' => w.1 < w'.1 := by
  have hslots : (s.accepted.map Prod.fst).Pairwise (· < ·) := by
    rw [h.slots]
    exact List.pairwise_lt_range'
  exact List.pairwise_map.mp hslots

/-- The pending writes at the keys that satisfy `p`, as accepted writes. -/
theorem entries_filterKeys (h : s.Inv base) (p : Nat → Bool) :
    (s.leader.inFlightWrites.filterKeys p).entries.map (fun e => (e.1, e.2.2)) =
      (s.accepted.filter fun w => decide (s.ctx.committedSlot < w.1)).filter fun w => p w.1 := by
  rw [← h.pending, List.filter_map]
  rfl

theorem awaited_settled (h : s.Inv base) (slot : Nat) :
    awaited (s.leader.settled slot).values = channels
      ((s.accepted.filter fun w => decide (s.ctx.committedSlot < w.1)).filter
        fun w => decide (w.1 < slot + 1)) := by
  have hentries := h.entries_filterKeys fun k => decide (k < slot + 1)
  rw [channels, ← hentries, List.map_map, awaited, OrderedMap.values, List.map_map]
  rfl

/-- In slot order, what is reached by `c'` is what is reached by `c`, and what comes
after it. -/
theorem filter_le (h : s.Inv base) {c c' : Nat} (hle : c ≤ c') :
    s.accepted.filter (fun w => decide (w.1 ≤ c')) =
      s.accepted.filter (fun w => decide (w.1 ≤ c)) ++
        s.accepted.filter fun w => decide (c < w.1 ∧ w.1 ≤ c') := by
  have hsorted := h.sorted
  generalize s.accepted = writes at hsorted
  induction writes with
  | nil => rfl
  | cons w writes ih =>
    obtain ⟨hfirst, hrest⟩ := List.pairwise_cons.mp hsorted
    by_cases hw : w.1 ≤ c
    · have hw' : w.1 ≤ c' := by omega
      have hnew : ¬ c < w.1 := by omega
      simp only [List.filter_cons, hw, hw', hnew, false_and, decide_true, decide_false, if_true,
        Bool.false_eq_true, if_false, List.cons_append, ih hrest]
    · -- everything from here on comes after `c`
      have habove : ∀ v ∈ w :: writes, c < v.1 := by
        intro v hv
        rcases List.mem_cons.mp hv with rfl | hv
        · omega
        · have hlt := hfirst v hv
          omega
      have hnone : (w :: writes).filter (fun w => decide (w.1 ≤ c)) = [] := by
        refine List.filter_eq_nil_iff.mpr fun v hv => ?_
        have hlt := habove v hv
        simp only [decide_eq_true_eq]
        omega
      rw [hnone, List.nil_append]
      refine List.filter_congr fun v hv => decide_eq_decide.mpr ?_
      have hlt := habove v hv
      omega

/-- Every pending slot is in the log. -/
theorem pending_le (h : s.Inv base) {e : Nat × (DateTime × PaxosCommand ClientWriteRequest)}
    (he : e ∈ s.leader.inFlightWrites.entries) : e.1 ≤ s.ctx.lastLogSlot := by
  have hmem : (e.1, e.2.2) ∈ s.leader.inFlightWrites.entries.map fun e => (e.1, e.2.2) :=
    List.mem_map.mpr ⟨e, he, rfl⟩
  rw [h.pending] at hmem
  exact (h.bounds (List.mem_of_mem_filter hmem)).2

/-- Of the writes above `c`, those that `c'` reaches. -/
theorem filter_between {writes : List (Nat × PaxosCommand ClientWriteRequest)} (c c' : Nat) :
    (writes.filter fun w => decide (c < w.1)).filter (fun w => decide (w.1 < c' + 1)) =
      writes.filter fun w => decide (c < w.1 ∧ w.1 ≤ c') := by
  rw [List.filter_filter]
  refine List.filter_congr fun w _ => ?_
  rw [← Bool.decide_and]
  refine decide_eq_decide.mpr ?_
  omega

theorem step (h : s.Inv base) (hnext : Next s s') (hgroup : SameGroup s s') : s'.Inv base := by
  have hboard : s'.leader.scoreBoard.keys = s'.ctx.peerIds := by
    rw [hgroup.keys, hgroup.peerIds, h.board]
  have hlast := h.last
  have hle := h.committed
  cases hnext with
  | accepts ts command hwrites haccepted hslot hcommitted hanswered =>
    refine ⟨?_, ?_, ?_, ?_, ?_, hboard⟩
    · rw [haccepted, List.map_append, h.slots, List.length_append, List.length_singleton,
        List.range'_concat]
      simp only [List.map_cons, List.map_nil, hlast, Nat.one_mul]
      congr 2
      omega
    · rw [haccepted, hslot, List.length_append, List.length_singleton]
      omega
    · rw [hcommitted, hslot]
      omega
    · -- the new slot is above all that are pending, so it comes last
      have hbelow : ∀ e ∈ s.leader.inFlightWrites.entries, e.1 < s.ctx.lastLogSlot + 1 :=
        fun e he => Nat.lt_succ_of_le (h.pending_le he)
      rw [hwrites, OrderedMap.entries_insert_of_forall_lt _ hbelow, List.map_append, h.pending,
        haccepted, hcommitted, List.filter_append]
      simp [Nat.lt_succ_of_le hle]
    · rw [hanswered, h.answered, haccepted, hcommitted, List.filter_append]
      have hnew : ¬ s.ctx.lastLogSlot + 1 ≤ s.ctx.committedSlot := by omega
      simp [hnew]
  | commits hlt hwrites haccepted hslot hquorum hsize hanswered =>
    have hreach := s'.leader.minQuorumSlot_le s'.ctx
    refine ⟨?_, ?_, by omega, ?_, ?_, hboard⟩
    · rw [haccepted, h.slots]
    · rw [haccepted, hslot, hlast]
    · rw [hwrites, Leader.unsettled, h.entries_filterKeys, haccepted, List.filter_filter]
      refine List.filter_congr fun w _ => ?_
      rw [← Bool.decide_and]
      refine decide_eq_decide.mpr ?_
      omega
    · rw [hanswered, h.awaited_settled, h.answered, haccepted, h.filter_le (Nat.le_of_lt hlt),
        filter_between]
      simp only [channels, List.map_append, List.filter_append]
  | keeps hwrites haccepted hslot hcommitted hanswered =>
    refine ⟨?_, ?_, ?_, ?_, ?_, hboard⟩
    · rw [haccepted, h.slots]
    · rw [haccepted, hslot, hlast]
    · rw [hcommitted, hslot]
      exact hle
    · rw [hwrites, haccepted, hcommitted, h.pending]
    · rw [hanswered, haccepted, hcommitted, h.answered]

end Inv

/-- **What an event settles**: the writes pending behind it, the slots given so far,
and the answers it gives, each backed by a quorum. -/
structure Acknowledges (base : Nat) (s s' : Serving) : Prop where
  /-- Pending are the accepted writes above the commit point. -/
  pending : s'.leader.inFlightWrites.keys =
    (s'.accepted.map Prod.fst).filter fun slot => decide (s'.ctx.committedSlot < slot)
  /-- The accepted writes have consecutive slots. -/
  slots : s'.accepted.map Prod.fst = List.range' (base + 1) s'.accepted.length
  /-- The commit point does not move back. -/
  committed : s.ctx.committedSlot ≤ s'.ctx.committedSlot
  /-- Answered are the writes that the commit point has passed, once each. -/
  answered : s'.answered =
    channels (s'.accepted.filter fun w => decide (w.1 ≤ s'.ctx.committedSlot))
  /-- This event has answered those that it has passed now. -/
  now : s'.answered = s.answered ++ channels (s'.accepted.filter fun w =>
    decide (s.ctx.committedSlot < w.1 ∧ w.1 ≤ s'.ctx.committedSlot))
  /-- A quorum has matched them. -/
  quorum : ∀ slot, s.ctx.committedSlot < slot → slot ≤ s'.ctx.committedSlot →
    ∃ Q : List Uuid, Q.Nodup ∧ (∀ p ∈ Q, p ∈ s'.ctx.peerIds) ∧
      s'.ctx.getQuorumSize ≤ Q.length + 1 ∧
      ∀ p ∈ Q, ∃ m, s'.leader.matchSlot? p = some m ∧ slot ≤ m

theorem Next.committed {s s' : Serving} (h : Next s s') :
    s.ctx.committedSlot ≤ s'.ctx.committedSlot := by
  cases h with
  | accepts _ _ _ _ _ hcommitted => rw [hcommitted]
  | commits hlt => exact Nat.le_of_lt hlt
  | keeps _ _ _ hcommitted => rw [hcommitted]

/-- A commit is backed by the match slots of a quorum. -/
theorem Next.quorum {s s' : Serving} {slot : Nat} (h : Next s s') (hgroup : SameGroup s s')
    (hboard : s'.leader.scoreBoard.keys = s'.ctx.peerIds) (hlt : s.ctx.committedSlot < slot)
    (hle : slot ≤ s'.ctx.committedSlot) :
    ∃ Q : List Uuid, Q.Nodup ∧ (∀ p ∈ Q, p ∈ s'.ctx.peerIds) ∧
      s'.ctx.getQuorumSize ≤ Q.length + 1 ∧
      ∀ p ∈ Q, ∃ m, s'.leader.matchSlot? p = some m ∧ slot ≤ m := by
  cases h with
  | accepts _ _ _ _ _ hcommitted =>
    rw [hcommitted] at hle
    omega
  | commits _ _ _ _ hquorum hsize =>
    rw [hquorum] at hle
    refine s'.leader.exists_quorum_of_le_minQuorumSlot s'.ctx hboard (by omega) hle ?_
    rw [PaxosSharedContext.getQuorumSize, hgroup.peerIds]
    exact hsize
  | keeps _ _ _ hcommitted =>
    rw [hcommitted] at hle
    omega

theorem Inv.acknowledges {base : Nat} {s s' : Serving} (h : s.Inv base) (hnext : Next s s')
    (hgroup : SameGroup s s') : Acknowledges base s s' := by
  have h' := h.step hnext hgroup
  have hcommitted := hnext.committed
  -- a write accepted now is not among those that were answered before
  have hold : s'.accepted.filter (fun w => decide (w.1 ≤ s.ctx.committedSlot)) =
      s.accepted.filter fun w => decide (w.1 ≤ s.ctx.committedSlot) := by
    cases hnext with
    | accepts ts command _ haccepted =>
      have hnew : ¬ s.ctx.lastLogSlot + 1 ≤ s.ctx.committedSlot := by
        have hle := h.committed
        omega
      rw [haccepted, List.filter_append]
      simp [hnew]
    | commits _ _ haccepted => rw [haccepted]
    | keeps _ haccepted => rw [haccepted]
  refine ⟨?_, h'.slots, hcommitted, h'.answered, ?_, fun slot => hnext.quorum hgroup h'.board⟩
  · have hkeys := congrArg (List.map Prod.fst) h'.pending
    rw [List.map_map] at hkeys
    rw [OrderedMap.keys, List.filter_map]
    exact hkeys
  · rw [h'.answered, h'.filter_le hcommitted, hold, h.answered]
    simp only [channels, List.map_append, List.filter_append]

/-- **Acknowledgement**, after every event of a tenure. -/
theorem acknowledges_of_reaches {s₀ s s' : Serving} (h : s₀.Start) (hrun : Reaches step s₀ s)
    (l : PaxosEvent × Env) (hstep : s.step l = some s') :
    Acknowledges s₀.ctx.lastLogSlot s s' := by
  have hinv : s.Inv s₀.ctx.lastLogSlot :=
    hrun.invariant h.inv fun _ _ _ ha _ hb => ha.step (step_next hb).1 (step_next hb).2
  exact hinv.acknowledges (step_next hstep).1 (step_next hstep).2

/-- The new Leader of a group of three, with an empty log. -/
def fresh : Serving where
  leader := Leader.new (Candidate.new (.memberOfThree 1)).scoreBoard
  ctx := { PaxosSharedContext.memberOfThree 1 with
    term := 1, leaseExpiry := some PaxosSharedContext.leaseLength }
  accepted := []
  answered := []

theorem fresh_start : fresh.Start := ⟨rfl, Nat.le_refl _, rfl, rfl, rfl⟩

/-- The first write, and the answer of the follower that has it. -/
def firstWrite : PaxosEvent × Env :=
  (.clientWriteRequestReceived ⟨⟨"a"⟩, ⟨7, true⟩⟩, .steady (Duration.seconds 1))

def firstAnswer : PaxosEvent × Env :=
  (.acceptResponseReceived ⟨2, 1, true, 1, none, 0⟩, .steady (Duration.seconds 2))

/-- The first write of a tenure is answered when the follower has it. -/
theorem acknowledges_of_reaches_first :
    ∃ s s', exec step fresh [firstWrite] = some s ∧ s.step firstAnswer = some s' ∧
      s'.answered = [⟨7, true⟩] ∧ Acknowledges 0 s s' :=
  ⟨_, _, rfl, rfl, rfl,
    acknowledges_of_reaches fresh_start (Runs.of_exec [firstWrite] rfl) firstAnswer rfl⟩

end Serving
end SpannerPaxos
