import SpannerPaxos.CampaignBudget
import SpannerPaxos.PreVoteShield

/-! # A group that starts

The members of a group from their start on, with their timers: a wakeup is handled only
after it was raised, and a campaign only follows an election countdown that ran out.  Mail
is lost, repeated and reordered at will, and members fail.  No such run elects anybody, so
the group never has a leader, a lease or an entry in a log; every member asks for pre-votes
once, and the terms never pass half the group.
-/
namespace SpannerPaxos

namespace PaxosEvent

def isPreVoteRequest : PaxosEvent → Bool
  | preVoteRequestReceived _ => true
  | _ => false

def isVoteRequest : PaxosEvent → Bool
  | voteRequestReceived _ => true
  | _ => false

@[simp] theorem leaderless_arriving {event : PaxosEvent} {awaited : Bool} :
    (event.arriving awaited).Leaderless ↔ event.Leaderless := by
  cases event <;> exact Iff.rfl

@[simp] theorem isWakeup_arriving {event : PaxosEvent} {awaited : Bool} :
    (event.arriving awaited).isWakeup = event.isWakeup := by
  cases event <;> rfl

/-- A pre-vote request arrives as it was sent. -/
theorem preVoteRequest_of_arriving {event : PaxosEvent} {awaited : Bool}
    {command : PaxosCommand PreVoteRequest}
    (h : event.arriving awaited = .preVoteRequestReceived command) :
    ∃ c, event = .preVoteRequestReceived c ∧ command.request = c.request ∧
      command.responseTx.receiver = c.responseTx.receiver := by
  cases event with
  | preVoteRequestReceived c =>
    cases h
    exact ⟨c, rfl, rfl, rfl⟩
  | _ => cases h

end PaxosEvent

namespace Group
variable (g : Group)

/-- The members of a group with their timers, and the mail they have sent. -/
structure Cluster where
  member : Uuid → Member
  /-- Whether an event has ended the member. -/
  failed : Uuid → Bool
  sent : List Mail

/-- A timer's event says nothing about the others. -/
theorem local_of_isTimer {event : PaxosEvent} (h : isTimer event = true) :
    event.Leaderless ∧ event.getTerm = none ∧
      ∀ command, event ≠ .preVoteRequestReceived command := by
  cases event <;> simp_all [isTimer, PaxosEvent.Leaderless, PaxosEvent.getTerm]

theorem isTimer_of_isWakeup {event : PaxosEvent} (h : event.isWakeup = true) :
    isTimer event = true := by
  cases event <;> first | rfl | cases h

namespace Cluster

/-- Every member as `PaxosStateMachine::start` sets it up. -/
def start : Cluster where
  member memberId := Member.start memberId (g.peers memberId) (g.peers_nodup memberId)
  failed _ := false
  sent := []

inductive Label where
  /-- A wakeup that has been raised is handled. -/
  | wakeup (memberId : Uuid) (event : PaxosEvent) (env : Env)
  /-- Any other timer's event is handled. -/
  | timer (memberId : Uuid) (event : PaxosEvent) (env : Env)
  | leaseWatcher (memberId : Uuid) (utc : DateTime)
  | countdownFires (memberId : Uuid) (delivered : Bool)
  | countdownClears (memberId : Uuid)
  | clientWrite (memberId : Uuid) (command : PaxosCommand ClientWriteRequest) (env : Env)
  | deliver (mail : Mail) (awaited : Bool) (env : Env)

/-- What a member makes of an event. -/
def outcome (s : Cluster) (memberId : Uuid) (event : PaxosEvent) (env : Env) : Outcome :=
  (s.member memberId).role.processEvent event (s.member memberId).ctx false env

/-- A member of the group that is still there handles an event.  An error ends it; what it
had sent by then is on its way. -/
def handle (s : Cluster) (memberId : Uuid) (event : PaxosEvent) (env : Env) : Option Cluster :=
  if memberId ∈ g.ids ∧ s.failed memberId = false then
    let o := s.outcome memberId event env
    some
      { member := Function.update s.member memberId
          ⟨match o.result with
            | .ok role => role
            | .error _ => (s.member memberId).role, o.ctx,
            (s.member memberId).pending.erase event⟩
        failed := match o.result with
          | .ok _ => s.failed
          | .error _ => Function.update s.failed memberId true
        sent := Net.posted g memberId o.effects ++ s.sent }
  else none

/-- A timer of a member that is still there moves. -/
def move (s : Cluster) (memberId : Uuid) (l : Member.Label) : Option Cluster :=
  if memberId ∈ g.ids ∧ s.failed memberId = false then
    ((s.member memberId).step l).map fun m =>
      { s with member := Function.update s.member memberId m }
  else none

def step (s : Cluster) : Label → Option Cluster
  | .wakeup memberId event env =>
    if event.isWakeup ∧ event ∈ (s.member memberId).pending then s.handle g memberId event env
    else none
  | .timer memberId event env =>
    if isTimer event ∧ event.isWakeup = false then s.handle g memberId event env else none
  | .leaseWatcher memberId utc => s.move g memberId (.leaseWatcher utc)
  | .countdownFires memberId delivered => s.move g memberId (.countdownFires delivered)
  | .countdownClears memberId => s.move g memberId .countdownClears
  | .clientWrite memberId command env =>
    s.handle g memberId (.clientWriteRequestReceived command) env
  | .deliver mail awaited env =>
    if mail ∈ s.sent then s.handle g mail.receiver (mail.event.arriving awaited) env else none

/-- The term of a member. -/
def term (s : Cluster) (p : Uuid) : Nat := (s.member p).ctx.term

/-- The campaigns a member can still start; one that failed starts none. -/
def chances (s : Cluster) (p : Uuid) : Nat :=
  if s.failed p then 0 else (s.member p).chances

def stake (s : Cluster) (p : Uuid) : Nat :=
  if s.failed p then 0 else (s.member p).stake

theorem chances_le_stake (s : Cluster) (p : Uuid) : s.chances p ≤ s.stake p := by
  unfold chances stake
  split
  · exact Nat.le_refl 0
  · exact (s.member p).chances_le_stake

variable {g} {s s' : Cluster} {memberId p : Uuid} {event : PaxosEvent} {env : Env}

theorem alive_eq (h : s.failed p = false) :
    s.chances p = (s.member p).chances ∧ s.stake p = (s.member p).stake := by
  simp [chances, stake, h]

theorem failed_eq (h : s.failed p = true) : s.chances p = 0 ∧ s.stake p = 0 := by
  simp [chances, stake, h]

/-! ## What a step changes -/

/-- **Handling an event** changes one member: it goes on in the role it is left in, or it
fails. -/
theorem handle_next (h : s.handle g memberId event env = some s') :
    memberId ∈ g.ids ∧ s.failed memberId = false ∧
      (∀ p, p ≠ memberId → s'.member p = s.member p ∧ s'.failed p = s.failed p) ∧
      s'.sent = Net.posted g memberId (s.outcome memberId event env).effects ++ s.sent ∧
      ∃ role, s'.member memberId =
          ⟨role, (s.outcome memberId event env).ctx, (s.member memberId).pending.erase event⟩ ∧
        ((s.outcome memberId event env).result = .ok role ∧ s'.failed memberId = false ∨
          role = (s.member memberId).role ∧ s'.failed memberId = true) := by
  unfold handle at h
  split at h
  · rename_i hthere
    cases Option.some.inj h
    refine ⟨hthere.1, hthere.2, ?_, rfl, ?_⟩
    · intro p hp
      refine ⟨Function.update_of_ne hp _ _, ?_⟩
      dsimp only
      cases (s.outcome memberId event env).result with
      | ok role => rfl
      | error fault => exact Function.update_of_ne hp _ _
    · dsimp only
      rw [Function.update_self]
      cases (s.outcome memberId event env).result with
      | ok role => exact ⟨role, rfl, Or.inl ⟨rfl, hthere.2⟩⟩
      | error fault => exact ⟨_, rfl, Or.inr ⟨rfl, Function.update_self _ _ _⟩⟩
  · cases h

theorem move_next {l : Member.Label} (h : s.move g memberId l = some s') :
    memberId ∈ g.ids ∧ s.failed memberId = false ∧
      (∀ p, p ≠ memberId → s'.member p = s.member p) ∧
      s'.failed = s.failed ∧ s'.sent = s.sent ∧
      (s.member memberId).step l = some (s'.member memberId) := by
  unfold move at h
  split at h
  · rename_i hthere
    obtain ⟨m, hm, rfl⟩ := Option.map_eq_some_iff.mp h
    refine ⟨hthere.1, hthere.2, fun p hp => Function.update_of_ne hp _ _, rfl, rfl, ?_⟩
    dsimp only
    rw [hm, Function.update_self]
  · cases h

/-! ## Mail -/

theorem mem_posted {effects : List Effect} {mail : Mail}
    (h : mail ∈ Net.posted g memberId effects) :
    mail.sender = memberId ∧ ∃ e ∈ effects, (mail.receiver, mail.event) ∈ g.messages memberId e := by
  obtain ⟨⟨receiver, ev⟩, hmem, rfl⟩ := List.mem_map.mp h
  obtain ⟨e, he, hmsg⟩ := List.mem_flatMap.mp hmem
  exact ⟨rfl, e, he, hmsg⟩

/-- An effect sends nobody two messages. -/
theorem nodup_receivers (e : Effect) : ((g.messages memberId e).map Prod.fst).Nodup := by
  cases e with
  | dispatchPreVote request =>
    simpa [messages, Function.comp_def] using g.peers_nodup memberId
  | dispatchVote request =>
    simpa [messages, Function.comp_def] using g.peers_nodup memberId
  | _ => simp [messages]

/-- The mail that `p` has sent to `q` with an event of one kind. -/
def isFromTo (kind : PaxosEvent → Bool) (p q : Uuid) (mail : Mail) : Bool :=
  decide (mail.sender = p) && decide (mail.receiver = q) && kind mail.event

theorem isFromTo_iff {kind : PaxosEvent → Bool} {p q : Uuid} {mail : Mail} :
    isFromTo kind p q mail = true ↔
      mail.sender = p ∧ mail.receiver = q ∧ kind mail.event = true := by
  simp [isFromTo, and_assoc]

/-- **An event that shows one effect sends nobody two messages.** -/
theorem countP_posted_le {effects : List Effect} (hsingle : effects.length ≤ 1)
    (kind : PaxosEvent → Bool) (p q : Uuid) :
    (Net.posted g memberId effects).countP (isFromTo kind p q) ≤ 1 := by
  have hreceiver : (Net.posted g memberId effects).countP (isFromTo kind p q) ≤
      ((effects.flatMap (g.messages memberId)).map Prod.fst).count q := by
    rw [List.count, List.countP_map, Net.posted, List.countP_map]
    refine List.countP_mono_left fun m _ hm => ?_
    obtain ⟨_, hq, _⟩ := isFromTo_iff.mp hm
    simpa using hq
  refine hreceiver.trans ?_
  match effects, hsingle with
  | [], _ => exact Nat.zero_le 1
  | [e], _ =>
    rw [List.flatMap_singleton]
    exact List.nodup_iff_count_le_one.mp (nodup_receivers e) q

/-! ## Members that nobody has led -/

/-- A member that nobody has led: its context is the one it started with, but for the term
and a lease that has expired. -/
structure Cold (g : Group) (memberId : Uuid) (m : Member) : Prop where
  unled : m.role.Unled
  ctx : m.ctx = { PaxosSharedContext.new memberId (g.peers memberId) (g.peers_nodup memberId) with
    term := m.ctx.term, leaseExpiry := m.ctx.leaseExpiry }
  lease : m.ctx.leaseExpiry = none ∨ m.ctx.leaseExpiry = some DateTime.unixEpoch
  board : ∀ c, m.role = .preCandidate c → (g.peers memberId).length ≤ c.preVoteBoard.size

theorem Cold.start (p : Uuid) : Cold g p ((start g).member p) where
  unled := .follower rfl
  ctx := rfl
  lease := Or.inr rfl
  board := nofun

namespace Cold
variable {m : Member}

theorem memberId_eq (hm : Cold g memberId m) : m.ctx.memberId = memberId := by rw [hm.ctx]; rfl

theorem peerIds_eq (hm : Cold g memberId m) : m.ctx.peerIds = g.peers memberId := by
  rw [hm.ctx]; rfl

theorem lastLogTerm_eq (hm : Cold g memberId m) : m.ctx.lastLogTerm = 0 := by rw [hm.ctx]; rfl

variable (env) in
theorem leaderless (hm : Cold g memberId m) (hevent : event.Leaderless) :
    (m.role.processEvent event m.ctx false env).Leaderless m.role event m.ctx :=
  hm.unled.processEvent hevent (hm.peerIds_eq ▸ g.one_le_length_peers memberId)

/-- An event that tells of no leader leaves the member cold. -/
theorem handled (hm : Cold g memberId m) (hevent : event.Leaderless) {role : PaxosState}
    {pending : List PaxosEvent} (hrole : role = m.role ∨
      (m.role.processEvent event m.ctx false env).result = .ok role) :
    Cold g memberId ⟨role, (m.role.processEvent event m.ctx false env).ctx, pending⟩ := by
  have hout := hm.leaderless env hevent
  refine ⟨?_, ?_, ?_, ?_⟩
  · rcases hrole with rfl | hresult
    · exact hm.unled
    · exact hout.next role hresult
  · dsimp only
    rw [hout.ctx, hm.ctx]
  · dsimp only
    rw [hout.ctx]
    exact hm.lease
  · intro c hc
    rcases hrole with rfl | hresult
    · exact hm.board c hc
    · cases hc
      rw [PaxosState.processEvent_of_not_follower hresult nofun] at hresult
      rcases PaxosState.preCandidate_of_handleEvent hresult with
        hnew | ⟨c₀, hold, hkept | ⟨response, _, hupdated⟩⟩
      · rw [hnew, AssocMap.size_eq_length_keys, PreCandidate.new, AssocMap.keys_ofKeys,
          hm.peerIds_eq]
      · rw [hkept]
        exact hm.board c₀ hold
      · rw [hupdated]
        exact (hm.board c₀ hold).trans (c₀.preVoteBoard.size_le_size_insert _ _)

/-- A timer leaves the member cold. -/
theorem moved (hm : Cold g memberId m) {m' : Member} {l : Member.Label}
    (hl : ∀ event env, l ≠ .event event env) (h : m.step l = some m') : Cold g memberId m' := by
  cases l with
  | event event env => exact absurd rfl (hl event env)
  | leaseWatcher utc =>
    simp only [Member.step] at h
    split at h
    · cases h
    · split at h
      · cases h
        refine ⟨hm.unled, ?_, Or.inl rfl, hm.board⟩
        dsimp only
        rw [hm.ctx]
      · cases h
  | countdownFires delivered =>
    simp only [Member.step] at h
    split at h
    · rename_i f hrole
      split at h
      · cases h
        have hleader := hm.unled.leaderId
        rw [hrole] at hleader
        refine ⟨.follower hleader, hm.ctx, hm.lease, ?_⟩
        intro c hc
        cases hc
      · cases h
    · cases h
  | countdownClears =>
    simp only [Member.step] at h
    split at h
    · rename_i f hrole
      split at h
      · cases h
        have hleader := hm.unled.leaderId
        rw [hrole] at hleader
        refine ⟨.follower hleader, hm.ctx, hm.lease, ?_⟩
        intro c hc
        cases hc
      · cases h
    · cases h

end Cold

/-! ## What holds throughout a run -/

/-- Mail from a member that nobody has led. -/
structure Plain (g : Group) (s : Cluster) (mail : Mail) : Prop where
  sender : mail.sender ∈ g.ids
  honest : Net.Honest mail (s.term mail.sender)
  leaderless : mail.event.Leaderless
  empty : ∀ command, mail.event = .preVoteRequestReceived command → command.request.lastLogTerm = 0
  noWrite : ∀ command, mail.event ≠ .clientWriteRequestReceived command
  noWakeup : mail.event.isWakeup = false

/-- Nobody has been led.  A member asks another for a pre-vote, and for a vote, while it has a
chance or a stake left, and is answered when it has asked. -/
structure Inv (g : Group) (s : Cluster) : Prop where
  cold : ∀ p, Cold g p (s.member p)
  plain : ∀ mail ∈ s.sent, Plain g s mail
  stake : ∀ p, s.stake p ≤ 1
  asked : ∀ p q, s.sent.countP (isFromTo PaxosEvent.isPreVoteRequest p q) + s.chances p ≤ 1
  voted : ∀ p q, s.sent.countP (isFromTo PaxosEvent.isVoteRequest p q) + s.stake p ≤ 1
  answered : ∀ mail ∈ s.sent, ∀ response, mail.event = .preVoteResponseReceived response →
    s.chances mail.receiver = 0

theorem Inv.start : Inv g (start g) where
  cold := Cold.start
  plain _ h := absurd h List.not_mem_nil
  stake _ := Nat.le_refl 1
  asked _ _ := Nat.le_refl 1
  voted _ _ := Nat.le_refl 1
  answered _ h := absurd h List.not_mem_nil

/-- An event as a step hands it to a member. -/
structure Incoming (s : Cluster) (memberId : Uuid) (event : PaxosEvent) : Prop where
  leaderless : event.Leaderless
  others : Net.FromOthers memberId event
  raises : (s.member memberId).Raises event
  told : ∀ t, event.getTerm = some t → ∃ mail ∈ s.sent, t ≤ s.term mail.sender
  asked : ∀ command, event = .preVoteRequestReceived command →
    command.request.lastLogTerm = 0 ∧ s.chances command.responseTx.receiver = 0
  answer : ∀ response, event = .preVoteResponseReceived response →
    ∃ mail ∈ s.sent, mail.sender = response.memberId ∧ mail.receiver = memberId ∧
      mail.event = event

/-- An event that no member has sent. -/
theorem Incoming.of_local (hleaderless : event.Leaderless)
    (hraises : (s.member memberId).Raises event) (hterm : event.getTerm = none)
    (hask : ∀ command, event ≠ .preVoteRequestReceived command) : Incoming s memberId event where
  leaderless := hleaderless
  others := by
    refine ⟨fun command h => absurd h (hask command), ?_⟩
    rintro response rfl
    cases hterm
  raises := hraises
  told t ht := by
    rw [hterm] at ht
    cases ht
  asked command h := absurd h (hask command)
  answer response h := by
    subst h
    cases hterm

/-- The event of a message. -/
theorem Inv.incoming (hs : Inv g s) {mail : Mail} (hmail : mail ∈ s.sent) (awaited : Bool) :
    Incoming s mail.receiver (mail.event.arriving awaited) where
  leaderless := PaxosEvent.leaderless_arriving.mpr (hs.plain mail hmail).leaderless
  others := by
    have hhonest := (hs.plain mail hmail).honest
    refine ⟨fun command he => ?_, fun response he => ?_⟩
    · obtain ⟨c, hc, hreceiver⟩ := PaxosEvent.asked_of_arriving he
      obtain ⟨hasker, hne⟩ := hhonest.asks c hc
      rw [hreceiver, hasker]
      exact hne.symm
    · obtain ⟨hsender, hne⟩ := hhonest.answers response (PaxosEvent.eq_of_arriving he)
      rw [hsender]
      exact hne.symm
  raises h := by
    rw [PaxosEvent.isWakeup_arriving, (hs.plain mail hmail).noWakeup] at h
    cases h
  told t ht := by
    rw [PaxosEvent.getTerm_arriving] at ht
    exact ⟨mail, hmail, (hs.plain mail hmail).honest.term t ht⟩
  asked command he := by
    obtain ⟨c, hc, hrequest, hreceiver⟩ := PaxosEvent.preVoteRequest_of_arriving he
    refine ⟨hrequest ▸ (hs.plain mail hmail).empty c hc, ?_⟩
    rw [hreceiver, ((hs.plain mail hmail).honest.asks c hc).1]
    have hpos := List.countP_pos_iff.mpr ⟨mail, hmail, isFromTo_iff.mpr
      ⟨rfl, rfl, (show PaxosEvent.isPreVoteRequest mail.event = true by rw [hc]; rfl)⟩⟩
    have hasked := hs.asked mail.sender mail.receiver
    omega
  answer response he := by
    have hevent := PaxosEvent.eq_of_arriving he
    obtain ⟨hsender, _⟩ := (hs.plain mail hmail).honest.answers response hevent
    exact ⟨mail, hmail, hsender.symm, rfl, hevent.trans he.symm⟩

/-- What time does to a group: terms grow, chances and stakes shrink, mail stays. -/
structure Later (s s' : Cluster) : Prop where
  term : ∀ p, s.term p ≤ s'.term p
  chances : ∀ p, s'.chances p ≤ s.chances p
  stake : ∀ p, s'.stake p ≤ s.stake p

/-- What is the same of a member that a step leaves alone. -/
theorem unchanged (hmember : s'.member p = s.member p) (hfailed : s'.failed p = s.failed p) :
    s'.term p = s.term p ∧ s'.chances p = s.chances p ∧ s'.stake p = s.stake p := by
  unfold term chances stake
  rw [hmember, hfailed]
  exact ⟨rfl, rfl, rfl⟩

/-- A change of one member that raises its term and costs it chances is one in time. -/
theorem Later.of_one (hother : ∀ p, p ≠ memberId →
      s'.member p = s.member p ∧ s'.failed p = s.failed p)
    (hterm : s.term memberId ≤ s'.term memberId)
    (hchances : s'.chances memberId ≤ s.chances memberId)
    (hstake : s'.stake memberId ≤ s.stake memberId) : Later s s' := by
  refine ⟨fun p => ?_, fun p => ?_, fun p => ?_⟩
  all_goals
    by_cases hp : p = memberId
    · rwa [hp]
    · obtain ⟨hterm, hchances, hstake⟩ := unchanged (hother p hp).1 (hother p hp).2
      omega

/-- **An event costs a chance** when it is an election countdown, and a stake when it wins a
pre-vote. -/
theorem Inv.chances_handle (hs : Inv g s) (hin : Incoming s memberId event)
    (h : s.handle g memberId event env = some s') :
    s'.chances memberId + (decide (event = .electionCountdownExpired)).toNat ≤
        s.chances memberId ∧
      s'.stake memberId ≤ s.stake memberId ∧
      ((s.member memberId).role.WinsPreVote event →
        s'.stake memberId + 1 ≤ s.stake memberId) := by
  obtain ⟨_, halive, _, _, role, hmember, hrole⟩ := handle_next h
  obtain ⟨hchance₀, hstake₀⟩ := alive_eq halive
  have hlease : (s.outcome memberId event env).ctx.leaseExpiry =
      (s.member memberId).ctx.leaseExpiry := by
    rw [outcome, ((hs.cold memberId).leaderless env hin.leaderless).ctx]
  have hpre : (s.member memberId).role.WinsPreVote event →
      (s.member memberId).stake = (s.member memberId).chances + 1 := by
    rintro ⟨p, response, hp, _⟩
    rw [Member.stake, hp]
    rfl
  rcases hrole with ⟨hresult, hgoes⟩ | ⟨_, hends⟩
  · obtain ⟨hchance₁, hstake₁⟩ := alive_eq hgoes
    obtain ⟨hchances, hstake⟩ := Member.chances_event hin.raises hlease hresult
    rw [hchance₀, hstake₀, hchance₁, hstake₁, hmember]
    refine ⟨hchances, hstake, fun hwins => ?_⟩
    rw [hpre hwins, Member.stake, PaxosState.not_preCandidate_of_wins hwins hresult]
    exact Nat.succ_le_succ ((Nat.le_add_right _ _).trans hchances)
  · obtain ⟨hchance₁, hstake₁⟩ := failed_eq hends
    rw [hchance₀, hstake₀, hchance₁, hstake₁]
    refine ⟨?_, Nat.zero_le _, fun hwins => by rw [hpre hwins]; exact Nat.le_add_left _ _⟩
    have hraised := hin.raises.count_erase
      (show PaxosEvent.electionCountdownExpired.isWakeup = true from rfl)
    rw [Member.chances]
    omega

theorem Inv.later_handle (hs : Inv g s) (hin : Incoming s memberId event)
    (h : s.handle g memberId event env = some s') : Later s s' := by
  obtain ⟨_, _, hother, _, role, hmember, _⟩ := handle_next h
  obtain ⟨hchances, hstake, _⟩ := hs.chances_handle hin h
  obtain ⟨_, hle, hfits, _⟩ :=
    (s.member memberId).role.processEvent_fits event (s.member memberId).ctx env
  refine .of_one hother ?_ ((Nat.le_add_right _ _).trans hchances) hstake
  rw [term, term, hmember]
  exact hle.trans (Nat.le_of_eq hfits.same.term.symm)

theorem later_move {l : Member.Label} (hl : ∀ event env, l ≠ .event event env)
    (h : s.move g memberId l = some s') : Later s s' := by
  obtain ⟨_, halive, hother, hfailed, _, hstep⟩ := move_next h
  obtain ⟨hchance₀, hstake₀⟩ := alive_eq halive
  obtain ⟨hchance₁, hstake₁⟩ := alive_eq ((congrFun hfailed memberId).trans halive)
  obtain ⟨hchances, hrole⟩ := Member.chances_timer hl hstep
  refine .of_one (fun p hp => ⟨hother p hp, congrFun hfailed p⟩) ?_ ?_ ?_
  · rcases Member.step_cases hstep with ⟨event, env, hevent, _⟩ | ⟨_, ⟨lease, hctx⟩, _⟩
    · exact absurd hevent (hl event env)
    · rw [term, term, hctx]
  · rwa [hchance₀, hchance₁]
  · rw [hstake₀, hstake₁, Member.stake, Member.stake, hrole]
    exact Nat.add_le_add_right hchances _

theorem Plain.mono {mail : Mail} (h : Plain g s mail) (hlater : Later s s') : Plain g s' mail :=
  { h with honest := h.honest.mono (hlater.term _) }

/-- What a member that nobody has led puts on its way. -/
theorem plain_messages {role : PaxosState} {ctx : PaxosSharedContext} (hempty : ctx.lastLogTerm = 0)
    {e : Effect} (he : e.Leaderless role event ctx) {m : Uuid × PaxosEvent}
    (hm : m ∈ g.messages memberId e) :
    m.2.Leaderless ∧ (∀ command, m.2 = .preVoteRequestReceived command →
        command.request.lastLogTerm = 0) ∧
      (∀ command, m.2 ≠ .clientWriteRequestReceived command) ∧ m.2.isWakeup = false := by
  cases e with
  | preVoteReply tx response =>
    cases List.mem_singleton.mp hm
    exact ⟨he.1, nofun, nofun, rfl⟩
  | voteReply tx response =>
    cases List.mem_singleton.mp hm
    exact ⟨he, nofun, nofun, rfl⟩
  | dispatchPreVote request =>
    obtain ⟨q, _, rfl⟩ := List.mem_map.mp hm
    refine ⟨trivial, ?_, nofun, rfl⟩
    rintro command hcommand
    cases hcommand
    exact he.1.trans hempty
  | dispatchVote request =>
    obtain ⟨q, _, rfl⟩ := List.mem_map.mp hm
    exact ⟨trivial, nofun, nofun, rfl⟩
  | clientReply tx response => cases hm
  | acceptReply tx response => exact he.elim
  | dispatchAccept p request => exact he.elim
  | dispatchClientWrite p request tx => exact he.elim
  | signalWriteFlush => exact he.elim

theorem Inv.plain_posted (hs : Inv g s) (hin : Incoming s memberId event)
    (h : s.handle g memberId event env = some s') {mail : Mail}
    (hmail : mail ∈ Net.posted g memberId (s.outcome memberId event env).effects) :
    Plain g s' mail := by
  obtain ⟨hmem, _, _, _, role, hmember, _⟩ := handle_next h
  obtain ⟨term, _, hfits, _⟩ :=
    (s.member memberId).role.processEvent_fits event (s.member memberId).ctx env
  obtain ⟨hsender, hhonest⟩ := Net.honest_of_fits g hfits.effects (hs.cold memberId).memberId_eq
    hin.others.1 hmail
  obtain ⟨_, e, he, hmsg⟩ := mem_posted hmail
  obtain ⟨hleaderless, hempty, hwrite, hwakeup⟩ := plain_messages (hs.cold memberId).lastLogTerm_eq
    (((hs.cold memberId).leaderless env hin.leaderless).effects e he) hmsg
  refine ⟨hsender ▸ hmem, ?_, hleaderless, hempty, hwrite, hwakeup⟩
  rw [hsender, Cluster.term, hmember]
  exact hhonest.mono (Nat.le_of_eq hfits.same.term.symm)

/-- **A ledger of messages**: where sending a message of a kind costs one of what the sender
had left, and it had at most one left to everybody, nobody is sent two. -/
theorem Inv.count_handle (hs : Inv g s) (hin : Incoming s memberId event)
    (h : s.handle g memberId event env = some s') {kind : PaxosEvent → Bool} {p q : Uuid}
    {left left' : Nat} (hcount : s.sent.countP (isFromTo kind p q) + left ≤ 1)
    (hleft : left' ≤ left)
    (hcost : p = memberId → (∃ e ∈ (s.outcome memberId event env).effects,
      ∃ m ∈ g.messages memberId e, kind m.2 = true) → left' + 1 ≤ left) :
    s'.sent.countP (isFromTo kind p q) + left' ≤ 1 := by
  obtain ⟨_, _, _, hsent, _⟩ := handle_next h
  have hout := (hs.cold memberId).leaderless env hin.leaderless
  have hone : (Net.posted g memberId (s.outcome memberId event env).effects).countP
      (isFromTo kind p q) ≤ 1 := countP_posted_le hout.single kind p q
  rw [hsent, List.countP_append]
  rcases Nat.eq_zero_or_pos ((Net.posted g memberId
      (s.outcome memberId event env).effects).countP (isFromTo kind p q)) with hnone | hpos
  · omega
  · obtain ⟨mail, hmail, hkind⟩ := List.countP_pos_iff.mp hpos
    obtain ⟨hp, _, hkind⟩ := isFromTo_iff.mp hkind
    obtain ⟨hsender, e, he, hmsg⟩ := mem_posted hmail
    have hpaid := hcost (hp.symm.trans hsender) ⟨e, he, _, hmsg, hkind⟩
    omega

/-- Pre-vote requests are sent when an election countdown has run out, and vote requests when
a pre-vote is won. -/
theorem request_of_messages {role : PaxosState} {ctx : PaxosSharedContext} {e : Effect}
    (he : e.Leaderless role event ctx) {m : Uuid × PaxosEvent} (hm : m ∈ g.messages memberId e) :
    (m.2.isPreVoteRequest = true → event = .electionCountdownExpired) ∧
      (m.2.isVoteRequest = true → role.WinsPreVote event) := by
  cases e with
  | dispatchPreVote request =>
    obtain ⟨q, _, rfl⟩ := List.mem_map.mp hm
    exact ⟨fun _ => he.2, nofun⟩
  | dispatchVote request =>
    obtain ⟨q, _, rfl⟩ := List.mem_map.mp hm
    exact ⟨nofun, fun _ => he⟩
  | preVoteReply tx response =>
    cases List.mem_singleton.mp hm
    exact ⟨nofun, nofun⟩
  | voteReply tx response =>
    cases List.mem_singleton.mp hm
    exact ⟨nofun, nofun⟩
  | clientReply tx response => cases hm
  | acceptReply tx response => exact he.elim
  | dispatchAccept p request => exact he.elim
  | dispatchClientWrite p request tx => exact he.elim
  | signalWriteFlush => exact he.elim

/-- A pre-vote is answered to who has asked for it, and granted by a member whose term the
request's last log term has not fallen behind. -/
theorem answer_of_messages {role : PaxosState} {ctx ctx' : PaxosSharedContext} {e : Effect}
    (hfit : e.Fits event ctx') (he : e.Leaderless role event ctx) {m : Uuid × PaxosEvent}
    (hm : m ∈ g.messages memberId e) {response : PreVoteResponse}
    (hresponse : m.2 = .preVoteResponseReceived response) :
    ∃ command, event = .preVoteRequestReceived command ∧ command.responseTx.receiver = m.1 ∧
      (response.voteGranted = true → ctx.term ≤ command.request.lastLogTerm) := by
  cases e with
  | preVoteReply tx r =>
    cases List.mem_singleton.mp hm
    cases hresponse
    obtain ⟨_, _, command, hevent, rfl⟩ := hfit
    refine ⟨command, hevent, rfl, fun hgranted => ?_⟩
    obtain ⟨command', hevent', hle⟩ := he.2 hgranted
    rw [hevent] at hevent'
    cases hevent'
    exact hle
  | voteReply tx r =>
    cases List.mem_singleton.mp hm
    cases hresponse
  | dispatchPreVote request =>
    obtain ⟨q, _, rfl⟩ := List.mem_map.mp hm
    cases hresponse
  | dispatchVote request =>
    obtain ⟨q, _, rfl⟩ := List.mem_map.mp hm
    cases hresponse
  | clientReply tx response => cases hm
  | acceptReply tx response => exact he.elim
  | dispatchAccept p request => exact he.elim
  | dispatchClientWrite p request tx => exact he.elim
  | signalWriteFlush => exact he.elim

/-- A pre-vote that a member has answered is on its way. -/
theorem Inv.answer_posted (hs : Inv g s) (hin : Incoming s memberId event) {mail : Mail}
    (hmail : mail ∈ Net.posted g memberId (s.outcome memberId event env).effects)
    {response : PreVoteResponse} (hresponse : mail.event = .preVoteResponseReceived response) :
    ∃ command, event = .preVoteRequestReceived command ∧
      command.responseTx.receiver = mail.receiver ∧
      (response.voteGranted = true → s.term memberId = 0) := by
  obtain ⟨_, e, he, hmsg⟩ := mem_posted hmail
  obtain ⟨_, _, hfits, _⟩ :=
    (s.member memberId).role.processEvent_fits event (s.member memberId).ctx env
  obtain ⟨command, hevent, hreceiver, hgrant⟩ := answer_of_messages (hfits.effects e he)
    (((hs.cold memberId).leaderless env hin.leaderless).effects e he) hmsg hresponse
  refine ⟨command, hevent, hreceiver, fun hgranted => ?_⟩
  have hle := hgrant hgranted
  rw [(hin.asked command hevent).1] at hle
  exact Nat.le_zero.mp hle

theorem Inv.handle (hs : Inv g s) (hin : Incoming s memberId event)
    (h : s.handle g memberId event env = some s') : Inv g s' := by
  have hlater := hs.later_handle hin h
  have hout := (hs.cold memberId).leaderless env hin.leaderless
  obtain ⟨hchances, _, hwins⟩ := hs.chances_handle hin h
  obtain ⟨_, _, hother, hsent, role, hmember, hrole⟩ := handle_next h
  refine ⟨fun p => ?_, fun mail hmail => ?_, fun p => (hlater.stake p).trans (hs.stake p),
    fun p q => ?_, fun p q => ?_, fun mail hmail response hresponse => ?_⟩
  · by_cases hp : p = memberId
    · subst hp
      rw [hmember]
      refine (hs.cold p).handled hin.leaderless ?_
      rcases hrole with ⟨hresult, _⟩ | ⟨hkept, _⟩
      · exact Or.inr hresult
      · exact Or.inl hkept
    · rw [(hother p hp).1]
      exact hs.cold p
  · rw [hsent] at hmail
    rcases List.mem_append.mp hmail with hnew | hold
    · exact hs.plain_posted hin h hnew
    · exact (hs.plain mail hold).mono hlater
  · refine hs.count_handle hin h (hs.asked p q) (hlater.chances p) ?_
    rintro rfl ⟨e, he, m, hm, hkind⟩
    rw [(request_of_messages (hout.effects e he) hm).1 hkind] at hchances
    simpa using hchances
  · refine hs.count_handle hin h (hs.voted p q) (hlater.stake p) ?_
    rintro rfl ⟨e, he, m, hm, hkind⟩
    exact hwins ((request_of_messages (hout.effects e he) hm).2 hkind)
  · rw [hsent] at hmail
    rcases List.mem_append.mp hmail with hnew | hold
    · -- who is answered has asked
      obtain ⟨command, hevent, hreceiver, _⟩ := hs.answer_posted hin hnew hresponse
      have hzero := (hin.asked command hevent).2
      rw [hreceiver] at hzero
      exact Nat.le_zero.mp (hzero ▸ hlater.chances mail.receiver)
    · have hzero := hs.answered mail hold response hresponse
      exact Nat.le_zero.mp (hzero ▸ hlater.chances mail.receiver)

theorem Inv.move (hs : Inv g s) {l : Member.Label} (hl : ∀ event env, l ≠ .event event env)
    (h : s.move g memberId l = some s') : Inv g s' := by
  have hlater := later_move hl h
  obtain ⟨_, _, hother, _, hsent, hstep⟩ := move_next h
  refine ⟨fun p => ?_, fun mail hmail => ?_, fun p => (hlater.stake p).trans (hs.stake p),
    fun p q => ?_, fun p q => ?_, fun mail hmail response hresponse => ?_⟩
  · by_cases hp : p = memberId
    · subst hp
      exact (hs.cold p).moved hl hstep
    · rw [hother p hp]
      exact hs.cold p
  · exact (hs.plain mail (hsent ▸ hmail)).mono hlater
  · rw [hsent]
    exact (Nat.add_le_add_left (hlater.chances p) _).trans (hs.asked p q)
  · rw [hsent]
    exact (Nat.add_le_add_left (hlater.stake p) _).trans (hs.voted p q)
  · have hzero := hs.answered mail (hsent ▸ hmail) response hresponse
    exact Nat.le_zero.mp (hzero ▸ hlater.chances mail.receiver)

/-- A step is a member handling an event, or one of its timers moving. -/
theorem Inv.step_next (hs : Inv g s) {l : Label} (h : s.step g l = some s') :
    (∃ p event env, Incoming s p event ∧ s.handle g p event env = some s') ∨
    ∃ p l', (∀ event env, l' ≠ .event event env) ∧ s.move g p l' = some s' := by
  cases l with
  | wakeup p event env =>
    simp only [Cluster.step] at h
    split at h
    · rename_i hwakeup
      obtain ⟨hleaderless, hterm, hask⟩ := local_of_isTimer (isTimer_of_isWakeup hwakeup.1)
      exact Or.inl ⟨p, event, env, .of_local hleaderless (fun _ => hwakeup.2) hterm hask, h⟩
    · cases h
  | timer p event env =>
    simp only [Cluster.step] at h
    split at h
    · rename_i htimer
      obtain ⟨hleaderless, hterm, hask⟩ := local_of_isTimer htimer.1
      refine Or.inl ⟨p, event, env, .of_local hleaderless (fun hwakeup => ?_) hterm hask, h⟩
      rw [htimer.2] at hwakeup
      cases hwakeup
    · cases h
  | leaseWatcher p utc => exact Or.inr ⟨p, .leaseWatcher utc, nofun, h⟩
  | countdownFires p delivered => exact Or.inr ⟨p, .countdownFires delivered, nofun, h⟩
  | countdownClears p => exact Or.inr ⟨p, .countdownClears, nofun, h⟩
  | clientWrite p command env =>
    exact Or.inl ⟨p, .clientWriteRequestReceived command, env,
      .of_local trivial nofun rfl nofun, h⟩
  | deliver mail awaited env =>
    simp only [Cluster.step] at h
    split at h
    · rename_i hmail
      exact Or.inl ⟨mail.receiver, _, env, hs.incoming hmail awaited, h⟩
    · cases h

theorem Inv.step (hs : Inv g s) {l : Label} (h : s.step g l = some s') : Inv g s' := by
  rcases hs.step_next h with ⟨p, event, env, hin, hhandle⟩ | ⟨p, l', hl, hmove⟩
  · exact hs.handle hin hhandle
  · exact hs.move hl hmove

theorem Inv.of_reaches (h : Reaches (Cluster.step g) (Cluster.start g) s) : Inv g s :=
  h.invariant Inv.start fun _ _ _ ha _ hb => ha.step hb

/-! ## What a group that starts never does -/

/-- **A group that starts stays silent.**  In every run nobody leads or knows a leader, every
context is still the one of the start but for its term and its lease, every client write is
refused at once, and no mail is an accept request, a forwarded write or a Promise. -/
theorem silent_of_reaches (h : Reaches (Cluster.step g) (Cluster.start g) s) (p : Uuid) :
    (s.member p).role.isLeader = false ∧ (s.member p).role.getLeaderId = none ∧
      (∃ term lease, (s.member p).ctx =
        { PaxosSharedContext.new p (g.peers p) (g.peers_nodup p) with
          term := term, leaseExpiry := lease }) ∧
      (∀ command env, s.outcome p (.clientWriteRequestReceived command) env =
        .ok (s.member p).role (s.member p).ctx
          (sendIgnoring command.responseTx
            (.clientReply command.responseTx .noActiveLeader))) ∧
      ∀ mail ∈ s.sent, mail.event.Leaderless ∧
        ∀ command, mail.event ≠ .clientWriteRequestReceived command := by
  have hinv := Inv.of_reaches h
  have hcold := hinv.cold p
  refine ⟨?_, hcold.unled.leaderId, ⟨_, _, hcold.ctx⟩,
    fun command env => hcold.unled.clientWrite command, fun mail hmail => ?_⟩
  · cases hrole : (s.member p).role with
    | leader l => exact absurd hrole (hcold.unled.noLeader l)
    | _ => rfl
  · exact ⟨(hinv.plain mail hmail).leaderless, (hinv.plain mail hmail).noWrite⟩

/-- Member 1 of a pair campaigns, and member 2 grants it the pre-vote. -/
def firstCampaign : List Label :=
  let now := Env.steady (Duration.seconds 1)
  [.leaseWatcher 1 (Duration.seconds 1), .wakeup 1 .leaderLeaseExpired now, .countdownFires 1 true,
    .wakeup 1 .electionCountdownExpired now,
    .deliver ⟨1, 2, .preVoteRequestReceived ⟨⟨1, 1, 0, 0⟩, ⟨1, true⟩⟩⟩ true now,
    .deliver ⟨2, 1, .preVoteResponseReceived ⟨2, 0, true, none, none, none⟩⟩ true now]

/-- The Candidate it becomes refuses a client write like everybody else. -/
theorem silent_of_reaches_firstCampaign :
    ∃ s c, exec (Cluster.step pair) (Cluster.start pair) firstCampaign = some s ∧
      (s.member 1).role = .candidate c ∧ (s.member 1).role.isLeader = false ∧
      ∀ command env, s.outcome 1 (.clientWriteRequestReceived command) env =
        .ok (s.member 1).role (s.member 1).ctx
          (sendIgnoring command.responseTx
            (.clientReply command.responseTx .noActiveLeader)) := by
  refine ⟨_, _, rfl, rfl, ?_⟩
  obtain ⟨hleader, _, _, hrefuse, _⟩ :=
    silent_of_reaches (g := pair) (Runs.of_exec firstCampaign rfl) 1
  exact ⟨hleader, hrefuse⟩

/-- **Everybody campaigns once.**  In every run a member sends another at most one pre-vote
request and at most one vote request. -/
theorem requests_le_one (h : Reaches (Cluster.step g) (Cluster.start g) s) (p q : Uuid) :
    s.sent.countP (isFromTo PaxosEvent.isPreVoteRequest p q) ≤ 1 ∧
      s.sent.countP (isFromTo PaxosEvent.isVoteRequest p q) ≤ 1 := by
  have hinv := Inv.of_reaches h
  exact ⟨(Nat.le_add_right _ _).trans (hinv.asked p q),
    (Nat.le_add_right _ _).trans (hinv.voted p q)⟩

/-- Member 1 has asked member 2 once for each. -/
theorem requests_le_one_firstCampaign :
    ∃ s, exec (Cluster.step pair) (Cluster.start pair) firstCampaign = some s ∧
      s.sent.countP (isFromTo PaxosEvent.isVoteRequest 1 2) = 1 ∧
      s.sent.countP (isFromTo PaxosEvent.isPreVoteRequest 1 2) ≤ 1 ∧
      s.sent.countP (isFromTo PaxosEvent.isVoteRequest 1 2) ≤ 1 :=
  ⟨_, rfl, rfl, requests_le_one (g := pair) (Runs.of_exec firstCampaign rfl) 1 2⟩

end Cluster
end Group
end SpannerPaxos
