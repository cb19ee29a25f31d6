import SpannerPaxos.WriteAheadLog

/-! # The shared context

`PaxosSharedContext` is the state a member keeps whatever its role: terms, log
position, write-ahead log, leader lease.  The lease watcher, the flush and
heartbeat notifications and the dispatcher of the source are not data here: a
timer firing is a step of the machine that the context belongs to, and what a
handler signals or dispatches is an effect (`SpannerPaxos.Roles`).
-/
namespace SpannerPaxos

structure PaxosSharedContext where
  memberId : Uuid
  /-- The other members of the group, in the iteration order of the hash set. -/
  peerIds : List Uuid
  peerIds_nodup : peerIds.Nodup
  term : Nat
  tSafe : Option DateTime
  /-- The expiry of the leader lease as this member sees it (`lease.expiry`). -/
  leaseExpiry : Option DateTime
  lastLogTerm : Nat
  lastLogSlot : Nat
  committedSlot : Nat
  uncommittedLogs : OrderedMap Nat LogEntry
  wal : WriteAheadLog
  deriving DecidableEq

namespace PaxosSharedContext
variable (ctx : PaxosSharedContext)

/-- The context of a member that starts: term 0, an empty log and a lease that
expired at the epoch, so that `LeaderLeaseExpired` fires at once. -/
def new (memberId : Uuid) (peerIds : List Uuid) (h : peerIds.Nodup) : PaxosSharedContext where
  memberId := memberId
  peerIds := peerIds
  peerIds_nodup := h
  term := 0
  tSafe := none
  leaseExpiry := some DateTime.unixEpoch
  lastLogTerm := 0
  lastLogSlot := 0
  committedSlot := 0
  uncommittedLogs := OrderedMap.empty
  wal := WriteAheadLog.new

/-- A member of the group of 1, 2 and 3 that starts. -/
def memberOfThree (memberId : Uuid) : PaxosSharedContext :=
  new memberId (List.erase [1, 2, 3] memberId) (List.Nodup.erase memberId (by decide))

/-- `new` sets the lease length to ten seconds and nothing changes it. -/
def leaseLength : Duration := Duration.seconds 10

def getQuorumSize : Nat := (ctx.peerIds.length + 1) / 2 + 1

def updateLeaderLeaseExpiryTime (expiry : DateTime) : PaxosSharedContext :=
  { ctx with leaseExpiry := some expiry }

def extendLeaderLeaseExpiryTime (utc : DateTime) : PaxosSharedContext :=
  ctx.updateLeaderLeaseExpiryTime ((TrueTime.now utc).latest + leaseLength)

/-- An unset lease counts as expired. -/
def isLeaderLeaseExpired (utc : DateTime) : Bool :=
  match ctx.leaseExpiry with
  | none => true
  | some expiry => TrueTime.after expiry utc

def createPreVote : PreVoteRequest :=
  ⟨ctx.memberId, ctx.term + 1, ctx.lastLogTerm, ctx.lastLogSlot⟩

def createVote : VoteRequest :=
  ⟨ctx.memberId, ctx.term, ctx.lastLogTerm, ctx.lastLogSlot⟩

/-- `t_safe` moves to `ts` only if `ts` is later. -/
def advanceTSafe (ts : DateTime) : PaxosSharedContext :=
  match ctx.tSafe with
  | none => { ctx with tSafe := some ts }
  | some current => if ts > current then { ctx with tSafe := some ts } else ctx

/-- The commit point moves to `slot`: `t_safe` follows to the timestamp of the
entry at it, and committed entries leave `uncommitted_logs`.  The leader and the
follower spell this out alike. -/
def commitTo (slot : Nat) : PaxosSharedContext :=
  let ctx := { ctx with committedSlot := slot }
  let ctx := match ctx.uncommittedLogs.get? slot with
    | some entry => ctx.advanceTSafe entry.timestamp
    | none => ctx
  { ctx with uncommittedLogs := ctx.uncommittedLogs.filterKeys fun s => decide (slot < s) }

/-- A group with a peer needs somebody else for a quorum. -/
theorem two_le_getQuorumSize {peer : Uuid} (h : peer ∈ ctx.peerIds) : 2 ≤ ctx.getQuorumSize := by
  have hpos := List.length_pos_of_mem h
  unfold getQuorumSize
  omega

/-- A lease that is not expired is set, and the reading has not passed it. -/
theorem isLeaderLeaseExpired_eq_false_iff {utc : DateTime} :
    ctx.isLeaderLeaseExpired utc = false ↔
      ∃ expiry, ctx.leaseExpiry = some expiry ∧ (TrueTime.now utc).earliest ≤ expiry := by
  unfold isLeaderLeaseExpired
  cases ctx.leaseExpiry <;> simp [TrueTime.after]

/-- A lease that a correct clock calls expired is over. -/
theorem lt_of_isLeaderLeaseExpired {utc t expiry : DateTime} (hread : TrueTime.Reads utc t)
    (hexpired : ctx.isLeaderLeaseExpired utc = true) (hlease : ctx.leaseExpiry = some expiry) :
    expiry < t := by
  unfold isLeaderLeaseExpired at hexpired
  rw [hlease] at hexpired
  exact TrueTime.lt_of_after hread hexpired

/-- What `advance_t_safe` leaves alone. -/
theorem advanceTSafe_eq (ts : DateTime) :
    ctx.advanceTSafe ts = { ctx with tSafe := (ctx.advanceTSafe ts).tSafe } := by
  unfold advanceTSafe
  split
  · rfl
  · split <;> rfl

/-- `t_safe` after an advance is the old value or `ts`. -/
theorem advanceTSafe_tSafe (ts : DateTime) :
    (ctx.advanceTSafe ts).tSafe = ctx.tSafe ∨ (ctx.advanceTSafe ts).tSafe = some ts := by
  unfold advanceTSafe
  split
  · exact Or.inr rfl
  · split
    · exact Or.inr rfl
    · exact Or.inl rfl

section
variable (ts : DateTime)

@[simp] theorem advanceTSafe_memberId : (ctx.advanceTSafe ts).memberId = ctx.memberId := by
  rw [advanceTSafe_eq]

@[simp] theorem advanceTSafe_peerIds : (ctx.advanceTSafe ts).peerIds = ctx.peerIds := by
  rw [advanceTSafe_eq]

@[simp] theorem advanceTSafe_term : (ctx.advanceTSafe ts).term = ctx.term := by
  rw [advanceTSafe_eq]

@[simp] theorem advanceTSafe_leaseExpiry :
    (ctx.advanceTSafe ts).leaseExpiry = ctx.leaseExpiry := by
  rw [advanceTSafe_eq]

@[simp] theorem advanceTSafe_lastLogTerm :
    (ctx.advanceTSafe ts).lastLogTerm = ctx.lastLogTerm := by
  rw [advanceTSafe_eq]

@[simp] theorem advanceTSafe_lastLogSlot :
    (ctx.advanceTSafe ts).lastLogSlot = ctx.lastLogSlot := by
  rw [advanceTSafe_eq]

@[simp] theorem advanceTSafe_committedSlot :
    (ctx.advanceTSafe ts).committedSlot = ctx.committedSlot := by
  rw [advanceTSafe_eq]

@[simp] theorem advanceTSafe_uncommittedLogs :
    (ctx.advanceTSafe ts).uncommittedLogs = ctx.uncommittedLogs := by
  rw [advanceTSafe_eq]

@[simp] theorem advanceTSafe_wal : (ctx.advanceTSafe ts).wal = ctx.wal := by
  rw [advanceTSafe_eq]

end

/-- What a commit touches. -/
theorem commitTo_eq (slot : Nat) : ctx.commitTo slot = { ctx with
    committedSlot := slot
    tSafe := (ctx.commitTo slot).tSafe
    uncommittedLogs := ctx.uncommittedLogs.filterKeys fun s => decide (slot < s) } := by
  unfold commitTo
  cases h : ctx.uncommittedLogs.get? slot with
  | none => simp only [h]
  | some entry => simp [h]

/-- `t_safe` after a commit is the old value, or the timestamp of the uncommitted
entry at the slot. -/
theorem commitTo_tSafe (slot : Nat) : (ctx.commitTo slot).tSafe = ctx.tSafe ∨
    ∃ e, ctx.uncommittedLogs.get? slot = some e ∧
      (ctx.commitTo slot).tSafe = some e.timestamp := by
  unfold commitTo
  dsimp only
  cases h : ctx.uncommittedLogs.get? slot with
  | none => exact Or.inl rfl
  | some entry =>
    rcases advanceTSafe_tSafe { ctx with committedSlot := slot } entry.timestamp with hold | hnew
    · exact Or.inl hold
    · exact Or.inr ⟨entry, rfl, hnew⟩

section
variable (slot : Nat)

@[simp] theorem commitTo_leaseExpiry : (ctx.commitTo slot).leaseExpiry = ctx.leaseExpiry := by
  rw [commitTo_eq]

@[simp] theorem commitTo_lastLogTerm : (ctx.commitTo slot).lastLogTerm = ctx.lastLogTerm := by
  rw [commitTo_eq]

@[simp] theorem commitTo_lastLogSlot : (ctx.commitTo slot).lastLogSlot = ctx.lastLogSlot := by
  rw [commitTo_eq]

@[simp] theorem commitTo_committedSlot : (ctx.commitTo slot).committedSlot = slot := by
  rw [commitTo_eq]

@[simp] theorem commitTo_uncommittedLogs : (ctx.commitTo slot).uncommittedLogs =
    ctx.uncommittedLogs.filterKeys fun s => decide (slot < s) := by
  rw [commitTo_eq]

@[simp] theorem commitTo_wal : (ctx.commitTo slot).wal = ctx.wal := by
  rw [commitTo_eq]

end

/-- The second context is the first one's member, in the same term, and has a
lease set if the first one has: what every handler but one keeps. -/
structure SameMember (ctx ctx' : PaxosSharedContext) : Prop where
  memberId : ctx'.memberId = ctx.memberId
  peerIds : ctx'.peerIds = ctx.peerIds
  term : ctx'.term = ctx.term
  leaseSet : ctx.leaseExpiry ≠ none → ctx'.leaseExpiry ≠ none

namespace SameMember
variable {ctx ctx' ctx'' : PaxosSharedContext}

theorem refl (ctx : PaxosSharedContext) : SameMember ctx ctx := ⟨rfl, rfl, rfl, id⟩

theorem trans (h : SameMember ctx ctx') (h' : SameMember ctx' ctx'') : SameMember ctx ctx'' where
  memberId := h'.memberId.trans h.memberId
  peerIds := h'.peerIds.trans h.peerIds
  term := h'.term.trans h.term
  leaseSet hset := h'.leaseSet (h.leaseSet hset)

/-- Setting the lease. -/
theorem updateLease (ctx : PaxosSharedContext) (expiry : DateTime) :
    SameMember ctx (ctx.updateLeaderLeaseExpiryTime expiry) :=
  ⟨rfl, rfl, rfl, fun _ => Option.some_ne_none _⟩

theorem advanceTSafe (ctx : PaxosSharedContext) (ts : DateTime) :
    SameMember ctx (ctx.advanceTSafe ts) := by
  rw [advanceTSafe_eq]
  exact ⟨rfl, rfl, rfl, id⟩

theorem commitTo (ctx : PaxosSharedContext) (slot : Nat) : SameMember ctx (ctx.commitTo slot) := by
  rw [commitTo_eq]
  exact ⟨rfl, rfl, rfl, id⟩

end SameMember
end PaxosSharedContext

/-- A member's log as the leader sees it. -/
structure LogPosition where
  matchSlot : Nat
  nextSlot : Nat
  sentSlot : Nat
  deriving DecidableEq

def LogPosition.withNextSlot (nextSlot : Nat) : LogPosition := ⟨0, nextSlot, 0⟩

end SpannerPaxos
