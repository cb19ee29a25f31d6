import SpannerPaxos.Group
import SpannerPaxos.MessageTerms
import Mathlib.Data.Finset.Card
import Mathlib.Data.Finset.Lattice.Fold
import Mathlib.Order.Lattice.Nat

/-! # The pre-vote shields the term

A group with its mail: every message with its sender, delivered at any time, in any
order and any number of times, to members that can also fail while they handle one.
A minority that hears from nobody outside never completes a pre-vote quorum, so none
of its members gets past the highest term among them, however many campaigns they
start.
-/
namespace SpannerPaxos

/-- The event as it arrives: whoever waits for the answer to it may be gone by then. -/
def PaxosEvent.arriving (awaited : Bool) : PaxosEvent → PaxosEvent
  | preVoteRequestReceived command => preVoteRequestReceived
    { command with responseTx := { command.responseTx with receiverAlive := awaited } }
  | voteRequestReceived command => voteRequestReceived
    { command with responseTx := { command.responseTx with receiverAlive := awaited } }
  | acceptRequestReceived command => acceptRequestReceived
    { command with responseTx := { command.responseTx with receiverAlive := awaited } }
  | clientWriteRequestReceived command => clientWriteRequestReceived
    { command with responseTx := { command.responseTx with receiverAlive := awaited } }
  | event => event

namespace PaxosEvent
variable {event : PaxosEvent} {awaited : Bool}

@[simp] theorem getTerm_arriving : (event.arriving awaited).getTerm = event.getTerm := by
  cases event <;> rfl

theorem eq_of_arriving {response : PreVoteResponse}
    (h : event.arriving awaited = .preVoteResponseReceived response) :
    event = .preVoteResponseReceived response := by
  cases event with
  | preVoteResponseReceived r => exact h
  | _ => cases h

theorem asked_of_arriving {command : PaxosCommand PreVoteRequest}
    (h : event.arriving awaited = .preVoteRequestReceived command) :
    ∃ c, event = .preVoteRequestReceived c ∧
      command.responseTx.receiver = c.responseTx.receiver := by
  cases event with
  | preVoteRequestReceived c =>
    cases h
    exact ⟨c, rfl, rfl⟩
  | _ => cases h

end PaxosEvent

namespace Group
variable (g : Group)

/-- A message on its way. -/
structure Mail where
  sender : Uuid
  receiver : Uuid
  event : PaxosEvent
  deriving DecidableEq

structure Net where
  role : Uuid → PaxosState
  ctx : Uuid → PaxosSharedContext
  /-- Whether an event has ended the member. -/
  failed : Uuid → Bool
  sent : List Mail

namespace Net

/-- Every member as `PaxosStateMachine::start` sets it up. -/
def start : Net where
  role := g.start.role
  ctx := g.start.ctx
  failed _ := false
  sent := []

inductive Label where
  | timer (memberId : Uuid) (event : PaxosEvent) (env : Env)
  /-- The lease watcher clears an expired lease. -/
  | leaseWatcher (memberId : Uuid) (utc : DateTime)
  | clientWrite (memberId : Uuid) (command : PaxosCommand ClientWriteRequest) (env : Env)
  | deliver (mail : Mail) (awaited : Bool) (env : Env)

/-- The mail with which a member shows an effect. -/
def posted (memberId : Uuid) (effects : List Effect) : List Mail :=
  (effects.flatMap (g.messages memberId)).map fun m => ⟨memberId, m.1, m.2⟩

/-- A member that is still there handles an event.  An error ends it; what it had
sent by then is on its way. -/
def handle (s : Net) (memberId : Uuid) (event : PaxosEvent) (env : Env) : Option Net :=
  if s.failed memberId then none
  else
    let o := (s.role memberId).processEvent event (s.ctx memberId) false env
    some
      { role := match o.result with
          | .ok role => Function.update s.role memberId role
          | .error _ => s.role
        ctx := Function.update s.ctx memberId o.ctx
        failed := match o.result with
          | .ok _ => s.failed
          | .error _ => Function.update s.failed memberId true
        sent := posted g memberId o.effects ++ s.sent }

def step (s : Net) : Label → Option Net
  | .timer memberId event env => if isTimer event then s.handle g memberId event env else none
  | .leaseWatcher memberId utc =>
    if (s.ctx memberId).isLeaderLeaseExpired utc then
      some { s with
        ctx := Function.update s.ctx memberId { s.ctx memberId with leaseExpiry := none } }
    else none
  | .clientWrite memberId command env =>
    s.handle g memberId (.clientWriteRequestReceived command) env
  | .deliver mail awaited env =>
    if mail ∈ s.sent then s.handle g mail.receiver (mail.event.arriving awaited) env else none

/-! ## Honest mail -/

/-- The mail carries no term that its sender has not reached, and pre-votes go from
one member to another and back, under the name of who answers. -/
structure Honest (mail : Mail) (term : Nat) : Prop where
  term : ∀ t, mail.event.getTerm = some t → t ≤ term
  asks : ∀ command, mail.event = .preVoteRequestReceived command →
    command.responseTx.receiver = mail.sender ∧ mail.receiver ≠ mail.sender
  answers : ∀ response, mail.event = .preVoteResponseReceived response →
    response.memberId = mail.sender ∧ mail.receiver ≠ mail.sender

theorem Honest.mono {mail : Mail} {term term' : Nat} (h : Honest mail term) (hle : term ≤ term') :
    Honest mail term' :=
  ⟨fun t ht => Nat.le_trans (h.term t ht) hle, h.asks, h.answers⟩

/-- A message in the sender's term that is no pre-vote. -/
theorem Honest.of_term {mail : Mail} {term : Nat} (hterm : mail.event.getTerm = some term)
    (hask : ∀ command, mail.event ≠ .preVoteRequestReceived command)
    (hanswer : ∀ response, mail.event ≠ .preVoteResponseReceived response) : Honest mail term where
  term _ ht := Nat.le_of_eq (Option.some.inj (ht.symm.trans hterm))
  asks command h := absurd h (hask command)
  answers response h := absurd h (hanswer response)

/-- **What fits is honest mail**, if a pre-vote request is never one's own. -/
theorem honest_of_fits {memberId : Uuid} {event : PaxosEvent} {ctx : PaxosSharedContext}
    {effects : List Effect} (hfits : ∀ e ∈ effects, e.Fits event ctx)
    (hid : ctx.memberId = memberId)
    (hasked : ∀ command, event = .preVoteRequestReceived command →
      command.responseTx.receiver ≠ memberId)
    {mail : Mail} (hmail : mail ∈ posted g memberId effects) :
    mail.sender = memberId ∧ Honest mail ctx.term := by
  obtain ⟨⟨receiver, ev⟩, hmem, rfl⟩ := List.mem_map.mp hmail
  obtain ⟨e, he, hmsg⟩ := List.mem_flatMap.mp hmem
  have hfit := hfits e he
  refine ⟨rfl, ?_⟩
  cases e with
  | preVoteReply tx response =>
    cases List.mem_singleton.mp hmsg
    obtain ⟨hsender, hterm, command, hevent, rfl⟩ := hfit
    refine ⟨?_, nofun, ?_⟩
    · intro t ht
      cases ht
      exact Nat.le_of_eq hterm
    · intro response' h
      cases h
      exact ⟨hsender.trans hid, hasked command hevent⟩
  | voteReply tx response =>
    cases List.mem_singleton.mp hmsg
    exact .of_term (congrArg some hfit) nofun nofun
  | acceptReply tx response =>
    cases List.mem_singleton.mp hmsg
    exact .of_term (congrArg some hfit) nofun nofun
  | dispatchPreVote request =>
    -- it goes to the peers, so never to the member itself
    obtain ⟨p, hp, heq⟩ := List.mem_map.mp hmsg
    cases heq
    refine ⟨nofun, ?_, nofun⟩
    intro command h
    cases h
    exact ⟨rfl, (g.nodup.mem_erase_iff.mp hp).1⟩
  | dispatchVote request =>
    obtain ⟨p, hp, heq⟩ := List.mem_map.mp hmsg
    cases heq
    exact .of_term (congrArg some hfit) nofun nofun
  | dispatchAccept p request =>
    cases List.mem_singleton.mp hmsg
    exact .of_term (congrArg some hfit) nofun nofun
  | dispatchClientWrite leaderId request tx =>
    cases List.mem_singleton.mp hmsg
    exact ⟨nofun, nofun, nofun⟩
  | clientReply tx response => cases hmsg
  | signalWriteFlush => cases hmsg

/-! ## What holds throughout a run -/

/-- Members are who they are, their mail is honest, and a pre-vote board has a place
for every other member. -/
structure Inv (s : Net) : Prop where
  memberId : ∀ p, (s.ctx p).memberId = p
  peerIds : ∀ p, (s.ctx p).peerIds = g.peers p
  honest : ∀ mail ∈ s.sent, Honest mail (s.ctx mail.sender).term
  board : ∀ p c, s.role p = .preCandidate c → (g.peers p).length ≤ c.preVoteBoard.size

theorem Inv.start : Inv g (start g) where
  memberId _ := rfl
  peerIds _ := rfl
  honest _ h := absurd h List.not_mem_nil
  board _ _ h := nomatch h

variable {g} {s s' : Net} {memberId : Uuid} {event : PaxosEvent} {env : Env}

/-- What handling an event changes. -/
theorem handle_next (h : s.handle g memberId event env = some s') :
    s'.ctx = Function.update s.ctx memberId
        ((s.role memberId).processEvent event (s.ctx memberId) false env).ctx ∧
      s'.sent = posted g memberId
        ((s.role memberId).processEvent event (s.ctx memberId) false env).effects ++ s.sent ∧
      ∀ p, s'.role p = s.role p ∨ p = memberId ∧
        ((s.role memberId).processEvent event (s.ctx memberId) false env).result =
          .ok (s'.role p) := by
  unfold handle at h
  split at h
  · cases h
  · cases Option.some.inj h
    refine ⟨rfl, rfl, fun p => ?_⟩
    dsimp only
    cases hresult : ((s.role memberId).processEvent event (s.ctx memberId) false env).result with
    | error fault => exact Or.inl rfl
    | ok role =>
      by_cases hp : p = memberId
      · subst hp
        exact Or.inr ⟨rfl, by simp⟩
      · exact Or.inl (by simp [hp])

/-- The event does not come from the member itself: its pre-votes do not. -/
def FromOthers (memberId : Uuid) (event : PaxosEvent) : Prop :=
  (∀ command, event = .preVoteRequestReceived command →
    command.responseTx.receiver ≠ memberId) ∧
  ∀ response, event = .preVoteResponseReceived response → response.memberId ≠ memberId

theorem Inv.board_handle (hs : Inv g s) {c : PreCandidate}
    (h : ((s.role memberId).processEvent event (s.ctx memberId) false env).result =
      .ok (.preCandidate c)) : (g.peers memberId).length ≤ c.preVoteBoard.size := by
  rw [PaxosState.processEvent_of_not_follower h nofun] at h
  rcases PaxosState.preCandidate_of_handleEvent h with
    hnew | ⟨c₀, hrole, hkept | ⟨response, _, hupdated⟩⟩
  · rw [hnew, AssocMap.size_eq_length_keys, PreCandidate.new, AssocMap.keys_ofKeys, hs.peerIds]
  · rw [hkept]
    exact hs.board memberId c₀ hrole
  · rw [hupdated]
    exact (hs.board memberId c₀ hrole).trans (c₀.preVoteBoard.size_le_size_insert _ _)

theorem Inv.handle (hs : Inv g s) (hevent : FromOthers memberId event)
    (h : s.handle g memberId event env = some s') : Inv g s' := by
  obtain ⟨hctx, hsent, hrole⟩ := handle_next h
  obtain ⟨term, hle, hfits, _⟩ :=
    (s.role memberId).processEvent_fits event (s.ctx memberId) env
  have hself : s'.ctx memberId =
      ((s.role memberId).processEvent event (s.ctx memberId) false env).ctx := by
    rw [hctx, Function.update_self]
  have hother : ∀ p, p ≠ memberId → s'.ctx p = s.ctx p := by
    intro p hp
    rw [hctx, Function.update_of_ne hp]
  have hterm : ∀ p, (s.ctx p).term ≤ (s'.ctx p).term := by
    intro p
    by_cases hp : p = memberId
    · subst hp
      rw [hself, hfits.same.term]
      exact hle
    · rw [hother p hp]
  refine ⟨fun p => ?_, fun p => ?_, fun mail hmail => ?_, fun p c hc => ?_⟩
  · by_cases hp : p = memberId
    · subst hp
      rw [hself, hfits.same.memberId]
      exact hs.memberId p
    · rw [hother p hp, hs.memberId]
  · by_cases hp : p = memberId
    · subst hp
      rw [hself, hfits.same.peerIds]
      exact hs.peerIds p
    · rw [hother p hp, hs.peerIds]
  · rw [hsent] at hmail
    rcases List.mem_append.mp hmail with hnew | hold
    · obtain ⟨hsender, hhonest⟩ := honest_of_fits g hfits.effects (hs.memberId memberId)
        hevent.1 hnew
      rw [hsender, hself, hfits.same.term]
      exact hhonest
    · exact (hs.honest mail hold).mono (hterm _)
  · rcases hrole p with hkept | ⟨rfl, hresult⟩
    · exact hs.board p c (hkept.symm.trans hc)
    · rw [hc] at hresult
      exact hs.board_handle hresult

/-- A step is a member handling an event that does not come from itself, or the lease
watcher clearing a lease. -/
theorem step_next {l : Label} (hs : Inv g s) (h : s.step g l = some s') :
    (∃ p event env, FromOthers p event ∧ s.handle g p event env = some s' ∧
      (event.getTerm = none ∧ (∀ response, event ≠ .preVoteResponseReceived response) ∨
        ∃ mail ∈ s.sent, ∃ awaited, l = .deliver mail awaited env ∧ p = mail.receiver ∧
          event = mail.event.arriving awaited)) ∨
    ∃ p, s' = { s with ctx := Function.update s.ctx p { s.ctx p with leaseExpiry := none } } := by
  cases l with
  | timer p event env =>
    simp only [Net.step] at h
    split at h
    · rename_i htimer
      refine Or.inl ⟨p, event, env, ⟨?_, ?_⟩, h, Or.inl ⟨?_, ?_⟩⟩
      · rintro command rfl
        cases htimer
      · rintro response rfl
        cases htimer
      · cases event <;> first | rfl | cases htimer
      · rintro response rfl
        cases htimer
    · cases h
  | leaseWatcher p utc =>
    simp only [Net.step] at h
    split at h
    · exact Or.inr ⟨p, (Option.some.inj h).symm⟩
    · cases h
  | clientWrite p command env =>
    refine Or.inl ⟨p, .clientWriteRequestReceived command, env, ⟨?_, ?_⟩, h, Or.inl ⟨rfl, ?_⟩⟩
    · rintro command' ⟨⟩
    · rintro response ⟨⟩
    · rintro response ⟨⟩
  | deliver mail awaited env =>
    simp only [Net.step] at h
    split at h
    · rename_i hmail
      have hhonest := hs.honest mail hmail
      refine Or.inl ⟨mail.receiver, _, env, ⟨fun command he => ?_, fun response he => ?_⟩, h,
        Or.inr ⟨mail, hmail, awaited, rfl, rfl, rfl⟩⟩
      · obtain ⟨c, hc, hreceiver⟩ := PaxosEvent.asked_of_arriving he
        obtain ⟨hasker, hne⟩ := hhonest.asks c hc
        rw [hreceiver, hasker]
        exact hne.symm
      · obtain ⟨hsender, hne⟩ := hhonest.answers response (PaxosEvent.eq_of_arriving he)
        rw [hsender]
        exact hne.symm
    · cases h

theorem Inv.leaseWatcher (hs : Inv g s) (p : Uuid) :
    Inv g { s with ctx := Function.update s.ctx p { s.ctx p with leaseExpiry := none } } := by
  have hsame : ∀ q, (Function.update s.ctx p { s.ctx p with leaseExpiry := none } q).memberId =
        (s.ctx q).memberId ∧
      (Function.update s.ctx p { s.ctx p with leaseExpiry := none } q).peerIds =
        (s.ctx q).peerIds ∧
      (Function.update s.ctx p { s.ctx p with leaseExpiry := none } q).term = (s.ctx q).term := by
    intro q
    by_cases hq : q = p
    · subst hq
      simp
    · simp [hq]
  refine ⟨fun q => ?_, fun q => ?_, fun mail hmail => ?_, hs.board⟩
  · exact (hsame q).1.trans (hs.memberId q)
  · exact (hsame q).2.1.trans (hs.peerIds q)
  · show Honest mail (Function.update s.ctx p _ mail.sender).term
    rw [(hsame mail.sender).2.2]
    exact hs.honest mail hmail

theorem Inv.step {l : Label} (hs : Inv g s) (h : s.step g l = some s') : Inv g s' := by
  rcases step_next hs h with ⟨p, event, env, hevent, hhandle, _⟩ | ⟨p, rfl⟩
  · exact hs.handle hevent hhandle
  · exact hs.leaseWatcher p

/-! ## A minority on its own -/

/-- Nobody in `S` hears from a member outside. -/
def Isolated (S : Finset Uuid) (_ : Net) : Label → Prop
  | .deliver mail _ _ => mail.receiver ∈ S → mail.sender ∈ S
  | .timer _ _ _ | .leaseWatcher _ _ | .clientWrite _ _ _ => True

/-- A minority below a term: what its PreCandidates have been granted, other members of
it have granted. -/
structure Shielded (S : Finset Uuid) (bound : Nat) (s : Net) : Prop where
  term : ∀ p ∈ S, (s.ctx p).term ≤ bound
  granted : ∀ p ∈ S, ∀ c, s.role p = .preCandidate c → ∀ q v, c.preVoteBoard.get? q = some v →
    PreCandidate.isGranted v = true → q ∈ S ∧ q ≠ p

variable {S : Finset Uuid} {bound : Nat}

/-- **The others of a minority are no pre-vote quorum.** -/
theorem not_hasPreVoteQuorum {p : Uuid} {c : PreCandidate} (hp : p ∈ S)
    (hminority : S.card < ((g.peers p).length + 1) / 2 + 1)
    (hboard : (g.peers p).length ≤ c.preVoteBoard.size)
    (hgranted : ∀ q v, c.preVoteBoard.get? q = some v → PreCandidate.isGranted v = true →
      q ∈ S ∧ q ≠ p) : c.hasPreVoteQuorum = false := by
  obtain ⟨Q, hnodup, hlength, hQ⟩ := c.preVoteBoard.exists_keys_of_countP PreCandidate.isGranted
  have hsub : Q.toFinset ⊆ S.erase p := by
    intro q hq
    obtain ⟨_, v, hv, hgrant⟩ := hQ q (List.mem_toFinset.mp hq)
    obtain ⟨hmem, hne⟩ := hgranted q v hv hgrant
    exact Finset.mem_erase.mpr ⟨hne, hmem⟩
  have hcard := Finset.card_le_card hsub
  rw [List.toFinset_card_of_nodup hnodup, Finset.card_erase_of_mem hp, hlength] at hcard
  have hpos := Finset.card_pos.mpr ⟨p, hp⟩
  rw [PreCandidate.hasPreVoteQuorum]
  exact decide_eq_false (by omega)

/-- The event tells the member nothing from above the bound and brings no pre-vote from
outside. -/
structure Heard (S : Finset Uuid) (bound : Nat) (memberId : Uuid) (event : PaxosEvent) : Prop where
  term : ∀ t, event.getTerm = some t → t ≤ bound
  answer : ∀ response, event = .preVoteResponseReceived response →
    response.memberId ∈ S ∧ response.memberId ≠ memberId

theorem Shielded.granted_update (hs : Shielded S bound s) (hp : memberId ∈ S) {c : PreCandidate}
    (hc : s.role memberId = .preCandidate c) {response : PreVoteResponse}
    (hanswer : response.memberId ∈ S ∧ response.memberId ≠ memberId) {q : Uuid}
    {v : Option PreVoteResponse}
    (hv : (c.updatePreVoteBoard response).preVoteBoard.get? q = some v)
    (hgrant : PreCandidate.isGranted v = true) : q ∈ S ∧ q ≠ memberId := by
  rw [PreCandidate.updatePreVoteBoard, AssocMap.get?_insert] at hv
  split at hv
  · rename_i hq
    rw [hq]
    exact hanswer
  · exact hs.granted memberId hp c hc q v hv hgrant

theorem Shielded.handle (hinv : Inv g s) (hs : Shielded S bound s)
    (hminority : ∀ p ∈ S, S.card < ((g.peers p).length + 1) / 2 + 1)
    (hheard : memberId ∈ S → Heard S bound memberId event)
    (h : s.handle g memberId event env = some s') : Shielded S bound s' := by
  obtain ⟨hctx, _, hrole⟩ := handle_next h
  obtain ⟨term, _, hfits, hwhy⟩ := (s.role memberId).processEvent_fits event (s.ctx memberId) env
  refine ⟨fun p hp => ?_, fun p hp c hc => ?_⟩
  · -- a term comes with the event, or from a pre-vote that is won
    by_cases hself : p = memberId
    · subst hself
      rw [hctx, Function.update_self, hfits.same.term]
      rcases hwhy with hsame | htold | ⟨⟨c, response, hc, rfl, hquorum⟩, _⟩
      · exact hsame ▸ hs.term p hp
      · exact (hheard hp).term term htold
      · -- a minority wins no pre-vote
        have hboard := (hinv.board p c hc).trans (c.preVoteBoard.size_le_size_insert
          response.memberId (some response))
        rw [not_hasPreVoteQuorum hp (hminority p hp) hboard fun q v hv hgrant =>
          hs.granted_update hp hc ((hheard hp).answer response rfl) hv hgrant] at hquorum
        cases hquorum
    · rw [hctx, Function.update_of_ne hself]
      exact hs.term p hp
  · rcases hrole p with hkept | ⟨rfl, hresult⟩
    · exact hs.granted p hp c (hkept.symm.trans hc)
    · rw [hc] at hresult
      rw [PaxosState.processEvent_of_not_follower hresult nofun] at hresult
      rcases PaxosState.preCandidate_of_handleEvent hresult with
        hnew | ⟨c₀, hold, hkept | ⟨response, he, hupdated⟩⟩
      · -- a new campaign has been granted nothing yet
        intro q v hv hgrant
        rw [hnew, PreCandidate.new, AssocMap.get?_ofKeys] at hv
        split at hv
        · cases hv
          cases hgrant
        · cases hv
      · rw [hkept]
        exact hs.granted p hp c₀ hold
      · intro q v hv hgrant
        rw [hupdated] at hv
        exact hs.granted_update hp hold ((hheard hp).answer response he) hv hgrant

theorem Shielded.step {l : Label} (hinv : Inv g s) (hs : Shielded S bound s)
    (hminority : ∀ p ∈ S, S.card < ((g.peers p).length + 1) / 2 + 1) (hok : Isolated S s l)
    (h : s.step g l = some s') : Shielded S bound s' := by
  rcases step_next hinv h with
    ⟨p, event, env, _, hhandle, ⟨hterm, hanswer⟩ | ⟨mail, hmail, awaited, rfl, rfl, rfl⟩⟩ |
      ⟨p, rfl⟩
  · refine hs.handle hinv hminority (fun _ => ⟨fun t ht => ?_, fun r hr => ?_⟩) hhandle
    · rw [hterm] at ht
      cases ht
    · exact absurd hr (hanswer r)
  · have hhonest := hinv.honest mail hmail
    refine hs.handle hinv hminority (fun hp => ⟨fun t ht => ?_, fun r hr => ?_⟩) hhandle
    · rw [PaxosEvent.getTerm_arriving] at ht
      exact (hhonest.term t ht).trans (hs.term mail.sender (hok hp))
    · obtain ⟨hsender, hne⟩ := hhonest.answers r (PaxosEvent.eq_of_arriving hr)
      rw [hsender]
      exact ⟨hok hp, hne.symm⟩
  · refine ⟨fun q hq => ?_, hs.granted⟩
    dsimp only
    by_cases hqp : q = p
    · subst hqp
      rw [Function.update_self]
      exact hs.term q hq
    · rw [Function.update_of_ne hqp]
      exact hs.term q hq

/-- **The pre-vote shields the term.**  From the moment on when a minority without
PreCandidates hears from nobody outside, none of its members gets past the highest
term that one of them had then. -/
theorem term_le_of_isolated {s₀ s : Net} {S : Finset Uuid} (hstart : Reaches (step g) (start g) s₀)
    (hminority : ∀ p ∈ S, S.card < (s₀.ctx p).getQuorumSize)
    (hquiet : ∀ p ∈ S, ∀ c, s₀.role p ≠ .preCandidate c)
    (hrun : Runs (step g) (Isolated S) s₀ s) (p : Uuid) (hp : p ∈ S) :
    (s.ctx p).term ≤ S.sup fun q => (s₀.ctx q).term := by
  have hinv₀ : Inv g s₀ := hstart.invariant (Inv.start g) fun _ _ _ ha _ hb => ha.step hb
  have hpeers : ∀ p ∈ S, S.card < ((g.peers p).length + 1) / 2 + 1 := by
    intro p hp
    rw [← hinv₀.peerIds p]
    exact hminority p hp
  have hshield₀ : Shielded S (S.sup fun q => (s₀.ctx q).term) s₀ :=
    ⟨fun q hq => Finset.le_sup (f := fun q => (s₀.ctx q).term) hq,
      fun q hq c hc => absurd hc (hquiet q hq c)⟩
  have hshield := hrun.invariant
    (P := fun s => Inv g s ∧ Shielded S (S.sup fun q => (s₀.ctx q).term) s)
    ⟨hinv₀, hshield₀⟩ fun _ _ _ ha hok hb => ⟨ha.1.step hb, ha.2.step ha.1 hpeers hok hb⟩
  exact hshield.2.term p hp

/-- A group of four, where three are a quorum. -/
def four : Group := ⟨[1, 2, 3, 4], by decide, by decide⟩

/-- Member 1 campaigns, and member 2 grants it the pre-vote. -/
def campaign : List Label :=
  [.timer 1 .electionCountdownExpired (.steady (Duration.seconds 1)),
    .deliver ⟨1, 2, .preVoteRequestReceived ⟨⟨1, 1, 0, 0⟩, ⟨1, true⟩⟩⟩ true
      (.steady (Duration.seconds 1)),
    .deliver ⟨2, 1, .preVoteResponseReceived ⟨2, 0, true, none, none, none⟩⟩ true
      (.steady (Duration.seconds 1))]

instance (S : Finset Uuid) (s : Net) : (l : Label) → Decidable (Isolated S s l)
  | .deliver mail _ _ => inferInstanceAs (Decidable (mail.receiver ∈ S → mail.sender ∈ S))
  | .timer _ _ _ | .leaseWatcher _ _ | .clientWrite _ _ _ => inferInstanceAs (Decidable True)

/-- Members 1 and 2 on their own: the grant of member 2 takes member 1 nowhere. -/
theorem term_le_of_isolated_campaign :
    ∃ s c, execOk (step four) (Isolated {1, 2}) (start four) campaign = some s ∧
      s.role 1 = .preCandidate c ∧
      c.preVoteBoard.get? 2 = some (some ⟨2, 0, true, none, none, none⟩) ∧
      (s.ctx 1).term ≤ ({1, 2} : Finset Uuid).sup fun q => ((start four).ctx q).term :=
  ⟨_, _, rfl, rfl, rfl, term_le_of_isolated (.refl _) (by decide) (fun _ _ _ => nofun)
    (Runs.of_execOk campaign rfl) 1 (by decide)⟩

end Net
end Group
end SpannerPaxos
