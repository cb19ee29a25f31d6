import SpannerPaxos.Faults
import SpannerPaxos.FollowerMoves

/-! # Requests to all peers

Two loops send to every peer: the dispatcher's, for pre-votes and votes, and the Leader's,
for accept requests.  Both stop at the first peer that fails.  A peer is then served
exactly if it and all before it, in the order of the hash map, can be.
-/

/-- The loop over `l` that stops at the first element which is not `ok` gets past `b`. -/
def List.GetsPast {α : Type} (ok : α → Prop) : List α → α → Prop
  | [], _ => False
  | a :: l, b => ok a ∧ (b = a ∨ GetsPast ok l b)

namespace List
variable {α : Type} {ok ok' want : α → Prop}

theorem getsPast_congr {l : List α} (h : ∀ a ∈ l, (ok a ↔ ok' a)) (b : α) :
    l.GetsPast ok b ↔ l.GetsPast ok' b := by
  induction l with
  | nil => exact Iff.rfl
  | cons a l ih =>
    obtain ⟨ha, hl⟩ := List.forall_mem_cons.mp h
    rw [GetsPast, GetsPast, ha, ih hl]

/-- **The loop gets past all that it should exactly if** none of these comes after one that
is not `ok`. -/
theorem forall_getsPast_iff {l : List α} (hnodup : l.Nodup) :
    (∀ b ∈ l, want b → l.GetsPast ok b) ↔
      l.Pairwise (fun a b => want b → ok a) ∧ ∀ b ∈ l, want b → ok b := by
  induction l with
  | nil => simp
  | cons a l ih =>
    obtain ⟨hhead, htail⟩ := List.nodup_cons.mp hnodup
    rw [List.forall_mem_cons, List.pairwise_cons, List.forall_mem_cons]
    constructor
    · rintro ⟨ha, hl⟩
      have hrest : ∀ b ∈ l, want b → l.GetsPast ok b := by
        intro b hb hwant
        refine (hl b hb hwant).2.resolve_left ?_
        rintro rfl
        exact hhead hb
      obtain ⟨hpairwise, hok⟩ := (ih htail).mp hrest
      exact ⟨⟨fun b hb hwant => (hl b hb hwant).1, hpairwise⟩, fun hwant => (ha hwant).1, hok⟩
    · rintro ⟨⟨hbefore, hpairwise⟩, ha, hok⟩
      refine ⟨fun hwant => ⟨ha hwant, Or.inl rfl⟩, ?_⟩
      intro b hb hwant
      exact ⟨hbefore b hb hwant, Or.inr ((ih htail).mpr ⟨hpairwise, hok⟩ b hb hwant)⟩

end List

namespace SpannerPaxos

open Tenure (sentTo)

/-! ## The dispatcher -/

/-- The members requests go to, in the iteration order of the hash map, and for each
whether its cell holds a connected client. -/
structure GrpcPaxosDispatcher where
  paxosClients : AssocMap Uuid Bool
  deriving DecidableEq

/-- What a dispatch leaves behind: the clients, the requests a task was started for, and
the fault if it stopped early. -/
structure GrpcPaxosDispatcher.Dispatch (R : Type) where
  dispatcher : GrpcPaxosDispatcher
  started : List (Uuid × R)
  fault : Option Fault

namespace GrpcPaxosDispatcher

def new (memberIds : List Uuid) (h : memberIds.Nodup) : GrpcPaxosDispatcher :=
  ⟨.ofKeys memberIds h fun _ => false⟩

variable (self : GrpcPaxosDispatcher) (connects : Uuid → Bool) {R : Type} (request : R)

/-- The member's client, connected by now; `connects` says which connections succeed. -/
def getPaxosClient (memberId : Uuid) : Except Fault GrpcPaxosDispatcher :=
  match self.paxosClients.get? memberId with
  | none => .error (.panicked "called `Option::unwrap()` on a `None` value")
  | some true => .ok self
  | some false =>
    if connects memberId then .ok ⟨self.paxosClients.insert memberId true⟩
    else .error .dispatchFailed

def dispatchLoop (self : GrpcPaxosDispatcher) : List Uuid → Dispatch R
  | [] => ⟨self, [], none⟩
  | id :: ids =>
    match self.getPaxosClient connects id with
    | .error fault => ⟨self, [], some fault⟩
    | .ok self =>
      let rest := dispatchLoop self ids
      ⟨rest.dispatcher, (id, request) :: rest.started, rest.fault⟩

def dispatchRequest : Dispatch R := self.dispatchLoop connects request self.paxosClients.keys

def dispatchPrevoteRequest (request : PreVoteRequest) : Dispatch PreVoteRequest :=
  self.dispatchRequest connects request

def dispatchVoteRequest (request : VoteRequest) : Dispatch VoteRequest :=
  self.dispatchRequest connects request

/-- The member has a client, or can be connected to. -/
def CanReach (memberId : Uuid) : Prop :=
  self.paxosClients.get? memberId = some true ∨
    self.paxosClients.get? memberId = some false ∧ connects memberId = true

instance (memberId : Uuid) : Decidable (self.CanReach connects memberId) :=
  inferInstanceAs (Decidable (_ ∨ _))

/-- Every peer that can be reached gets the pre-vote and the vote request. -/
def IsolatesFaults : Prop :=
  (∀ (request : PreVoteRequest), ∀ p ∈ self.paxosClients.keys, self.CanReach connects p →
    (p, request) ∈ (self.dispatchPrevoteRequest connects request).started) ∧
  (∀ (request : VoteRequest), ∀ p ∈ self.paxosClients.keys, self.CanReach connects p →
    (p, request) ∈ (self.dispatchVoteRequest connects request).started)

variable {self connects request}

/-- A member that can be reached has a client afterwards, and members without it are not
touched. -/
theorem getPaxosClient_cases (self : GrpcPaxosDispatcher) (connects : Uuid → Bool)
    (memberId : Uuid) :
    (self.CanReach connects memberId ∧ ∃ self', self.getPaxosClient connects memberId = .ok self' ∧
      ∀ ids : List Uuid, memberId ∉ ids →
        ∀ q ∈ ids, (self'.CanReach connects q ↔ self.CanReach connects q)) ∨
    (¬ self.CanReach connects memberId ∧
      ∃ fault, self.getPaxosClient connects memberId = .error fault) := by
  unfold getPaxosClient CanReach
  cases hget : self.paxosClients.get? memberId with
  | none => exact Or.inr ⟨by simp, _, rfl⟩
  | some connected =>
    cases connected with
    | true => exact Or.inl ⟨Or.inl rfl, self, rfl, fun _ _ _ _ => Iff.rfl⟩
    | false =>
      by_cases hconnects : connects memberId = true
      · refine Or.inl ⟨Or.inr ⟨rfl, hconnects⟩, ⟨self.paxosClients.insert memberId true⟩,
          if_pos hconnects, ?_⟩
        intro ids hids q hq
        have hne : q ≠ memberId := fun h => hids (h ▸ hq)
        rw [AssocMap.get?_insert, if_neg hne]
      · exact Or.inr ⟨by simp [hconnects], _, if_neg hconnects⟩

/-- **Who a request is started to**: whoever the loop gets past. -/
theorem mem_dispatchLoop_started (ids : List Uuid) (hnodup : ids.Nodup)
    (self : GrpcPaxosDispatcher) {p : Uuid} :
    (p, request) ∈ (self.dispatchLoop connects request ids).started ↔
      ids.GetsPast (self.CanReach connects) p := by
  induction ids generalizing self with
  | nil => exact iff_of_false List.not_mem_nil id
  | cons id ids ih =>
    obtain ⟨hhead, htail⟩ := List.nodup_cons.mp hnodup
    rw [dispatchLoop, List.GetsPast]
    rcases self.getPaxosClient_cases connects id with
      ⟨hreach, self', heq, hother⟩ | ⟨hno, fault, heq⟩
    · have hsame := hother ids hhead
      rw [heq]
      simp only [List.mem_cons, Prod.mk.injEq, and_true, ih htail self',
        List.getsPast_congr hsame, hreach, true_and]
    · rw [heq]
      exact iff_of_false List.not_mem_nil fun h => hno h.1

/-- The dispatch succeeds exactly if every member can be reached. -/
theorem dispatchLoop_fault (ids : List Uuid) (hnodup : ids.Nodup) (self : GrpcPaxosDispatcher) :
    (self.dispatchLoop connects request ids).fault = none ↔
      ∀ p ∈ ids, self.CanReach connects p := by
  induction ids generalizing self with
  | nil => simp [dispatchLoop]
  | cons id ids ih =>
    obtain ⟨hhead, htail⟩ := List.nodup_cons.mp hnodup
    rw [dispatchLoop, List.forall_mem_cons]
    rcases self.getPaxosClient_cases connects id with
      ⟨hreach, self', heq, hother⟩ | ⟨hno, fault, heq⟩
    · have hsame := hother ids hhead
      rw [heq, and_iff_right hreach]
      exact (ih htail self').trans (forall₂_congr hsame)
    · rw [heq]
      exact iff_of_false (Option.some_ne_none fault) fun h => hno h.1

theorem isolatesFaults_iff (self : GrpcPaxosDispatcher) (connects : Uuid → Bool) :
    self.IsolatesFaults connects ↔
      self.paxosClients.keys.Pairwise fun p q => self.CanReach connects q →
        self.CanReach connects p := by
  have hnodup := self.paxosClients.keys_nodup
  have hall : ∀ {R : Type} (request : R),
      (∀ p ∈ self.paxosClients.keys, self.CanReach connects p →
        (p, request) ∈ (self.dispatchRequest connects request).started) ↔
      self.paxosClients.keys.Pairwise fun p q => self.CanReach connects q →
        self.CanReach connects p := by
    intro R request
    simp only [dispatchRequest, mem_dispatchLoop_started _ hnodup]
    rw [List.forall_getsPast_iff hnodup]
    exact and_iff_left fun _ _ h => h
  constructor
  · intro h
    exact (hall _).mp (h.1 ⟨0, 0, 0, 0⟩)
  · intro h
    exact ⟨fun request => (hall request).mpr h, fun request => (hall request).mpr h⟩

end GrpcPaxosDispatcher

/-! ## The Leader -/

namespace Leader
variable {ctx : PaxosSharedContext} {minNextTs : Option DateTime} {env : Env}

/-- The follower gets one request, which is made from its state, and the state records it:
the last entry sent, if there is one, moves `sent_slot` and joins the batches in flight. -/
def GetsRequest (self : Leader) (ctx : PaxosSharedContext) (minNextTs : Option DateTime)
    (a : Attempt Leader) (memberId : Uuid) : Prop :=
  ∃ fs prevLogTerm utc, self.scoreBoard.get? memberId = some fs ∧
    prevLogTerm? ctx fs.prevLogSlot = some prevLogTerm ∧
    sentTo memberId a.effects =
      [makeAcceptRequest ctx fs.prevLogSlot prevLogTerm minNextTs utc] ∧
    a.state.scoreBoard.get? memberId = some (fs.recordSent
      (makeAcceptRequest ctx fs.prevLogSlot prevLogTerm minNextTs utc).entries.getLast?
      (makeAcceptRequest ctx fs.prevLogSlot prevLogTerm minNextTs utc).tSend)

/-- Every follower that can be reached gets its request. -/
def IsolatesFaults (self : Leader) (ctx : PaxosSharedContext) (minNextTs : Option DateTime)
    (env : Env) : Prop :=
  ∀ p ∈ self.scoreBoard.keys, env.reachable p = true →
    self.GetsRequest ctx minNextTs (self.dispatchAcceptRequest ctx minNextTs env) p

/-- A dispatch that can be made serves the follower; one that cannot leaves nothing behind. -/
theorem dispatchAcceptRequestToFollower_serves (self : Leader) (memberId : Uuid)
    (ctx : PaxosSharedContext) (minNextTs : Option DateTime) (env : Env) :
    let a := self.dispatchAcceptRequestToFollower memberId ctx minNextTs env
    (self.CanDispatch ctx env memberId ∧ a.fault = none ∧
      self.GetsRequest ctx minNextTs a memberId) ∨
    (¬ self.CanDispatch ctx env memberId ∧ ∃ fault, a = ⟨self, [], some fault⟩) := by
  have hfault : (self.dispatchAcceptRequestToFollower memberId ctx minNextTs env).fault = none ↔
      self.CanDispatch ctx env memberId := dispatchAcceptRequestToFollower_fault
  unfold dispatchAcceptRequestToFollower at hfault ⊢
  cases hget : self.scoreBoard.get? memberId with
  | none =>
    rw [hget] at hfault
    exact Or.inr ⟨fun h => Option.some_ne_none _ (hfault.mpr h), _, rfl⟩
  | some fs =>
    rw [hget] at hfault
    dsimp only at hfault ⊢
    cases hanchor : prevLogTerm? ctx fs.prevLogSlot with
    | none =>
      rw [hanchor] at hfault
      exact Or.inr ⟨fun h => Option.some_ne_none _ (hfault.mpr h), _, rfl⟩
    | some prevLogTerm =>
      rw [hanchor] at hfault
      dsimp only at hfault ⊢
      by_cases hreach : env.reachable memberId = true
      · rw [if_pos hreach] at hfault ⊢
        refine Or.inl ⟨hfault.mp rfl, rfl, fs, prevLogTerm, env.clock 0, hget, hanchor,
          Tenure.sentTo_self _ _, ?_⟩
        show (self.scoreBoard.insert memberId _).get? memberId = _
        rw [AssocMap.get?_insert, if_pos rfl]
      · rw [if_neg hreach] at hfault ⊢
        exact Or.inr ⟨fun h => Option.some_ne_none _ (hfault.mpr h), _, rfl⟩

/-- **Which followers are served**: those the loop gets past. -/
theorem dispatchLoop_getsRequest_iff (memberIds : List Uuid) (hnodup : memberIds.Nodup)
    (self : Leader) (env : Env) (q : Uuid) :
    self.GetsRequest ctx minNextTs (dispatchLoop ctx minNextTs self memberIds env) q ↔
      memberIds.GetsPast (self.CanDispatch ctx env) q := by
  induction memberIds generalizing self env with
  | nil =>
    refine iff_of_false ?_ id
    rintro ⟨_, _, _, _, _, hsent, _⟩
    cases hsent
  | cons memberId memberIds ih =>
    obtain ⟨hhead, htail⟩ := List.nodup_cons.mp hnodup
    rw [dispatchLoop, List.GetsPast]
    rcases self.dispatchAcceptRequestToFollower_serves memberId ctx minNextTs env with
      ⟨hcan, hfault, hserved⟩ | ⟨hcannot, fault, heq⟩
    · rw [Attempt.andThen, hfault, and_iff_right hcan]
      by_cases hq : q = memberId
      · subst hq
        -- the rest of the loop is for others
        obtain ⟨hrest, hsent⟩ := dispatchLoop_other ctx minNextTs memberIds hhead
          (self.dispatchAcceptRequestToFollower q ctx minNextTs env).state (env.skip 1)
        refine iff_of_true ?_ (Or.inl rfl)
        obtain ⟨fs, prevLogTerm, utc, hget, hanchor, hsent', hget'⟩ := hserved
        refine ⟨fs, prevLogTerm, utc, hget, hanchor, ?_, hrest.trans hget'⟩
        show sentTo q (_ ++ _) = _
        rw [Tenure.sentTo_append, hsent, List.append_nil]
        exact hsent'
      · obtain ⟨hsame, hsent⟩ := dispatchAcceptRequestToFollower_other ctx minNextTs self env hq
        rw [or_iff_right hq]
        have hcongr : ∀ p ∈ memberIds, ((self.dispatchAcceptRequestToFollower memberId ctx minNextTs
            env).state.CanDispatch ctx (env.skip 1) p ↔ self.CanDispatch ctx env p) := by
          intro p hp
          have hne : p ≠ memberId := fun h => hhead (h ▸ hp)
          simp only [CanDispatch, dispatchAcceptRequestToFollower_get? hne]
          rfl
        rw [← List.getsPast_congr hcongr, ← ih htail]
        simp only [GetsRequest, Tenure.sentTo_append, hsent, hsame, List.nil_append]
    · refine iff_of_false ?_ fun h => hcannot h.1
      rw [heq]
      rintro ⟨_, _, _, _, _, hsent, _⟩
      cases hsent

theorem isolatesFaults_iff (self : Leader) (ctx : PaxosSharedContext)
    (minNextTs : Option DateTime) (env : Env) :
    self.IsolatesFaults ctx minNextTs env ↔
      self.scoreBoard.keys.Pairwise (fun p q => env.reachable q = true →
        self.CanDispatch ctx env p) ∧
      ∀ p ∈ self.scoreBoard.keys, env.reachable p = true → self.CanDispatch ctx env p := by
  have hnodup := self.scoreBoard.keys_nodup
  rw [← List.forall_getsPast_iff hnodup]
  refine forall₂_congr fun p _ => imp_congr_right fun _ => ?_
  exact dispatchLoop_getsRequest_iff _ hnodup self env p

end Leader

/-- **Faults stay with the peers that fail exactly if these come last.**  In the order of
the hash map, no peer that can be reached comes after one that fails. -/
theorem faults_isolated_iff (d : GrpcPaxosDispatcher) (connects : Uuid → Bool) (l : Leader)
    (ctx : PaxosSharedContext) (minNextTs : Option DateTime) (env : Env) :
    (d.IsolatesFaults connects ↔
      d.paxosClients.keys.Pairwise fun p q => d.CanReach connects q → d.CanReach connects p) ∧
    (l.IsolatesFaults ctx minNextTs env ↔
      l.scoreBoard.keys.Pairwise (fun p q => env.reachable q = true →
        l.CanDispatch ctx env p) ∧
      ∀ p ∈ l.scoreBoard.keys, env.reachable p = true → l.CanDispatch ctx env p) :=
  ⟨d.isolatesFaults_iff connects, l.isolatesFaults_iff ctx minNextTs env⟩

/-- Of two peers the first one fails: the other one gets no vote request, and no accept
request of a new leader. -/
theorem not_faults_isolated_first :
    (¬ ∀ (d : GrpcPaxosDispatcher) (connects : Uuid → Bool), d.IsolatesFaults connects) ∧
    ¬ ∀ (l : Leader) (ctx : PaxosSharedContext) (minNextTs : Option DateTime) (env : Env),
      l.IsolatesFaults ctx minNextTs env := by
  constructor
  · intro h
    have horder := (GrpcPaxosDispatcher.isolatesFaults_iff _ _).mp
      (h (.new [2, 3] (by decide)) fun p => decide (p ≠ 2))
    revert horder
    decide
  · intro h
    have horder := ((Leader.isolatesFaults_iff _ _ _ _).mp
      (h (Leader.new (.ofKeys [2, 3] (by decide) fun _ => LogPosition.withNextSlot 1))
        (.memberOfThree 1) none ⟨fun _ => 0, fun p => decide (p ≠ 2), true⟩)).1
    obtain ⟨_, _, _, hreach⟩ := (List.pairwise_cons.mp horder).1 3 (by decide) (by decide)
    exact absurd hreach (by decide)

end SpannerPaxos
