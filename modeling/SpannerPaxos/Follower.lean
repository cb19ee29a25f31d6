import SpannerPaxos.Roles

/-! # The Follower's handlers

`Follower` votes, pre-votes and replicates.  Its accept handler is the data path
of the protocol: it checks the anchor of a request against the local log, drops
everything above it, writes the batch and moves the commit point.
-/
namespace SpannerPaxos

/-- The highest slot a request covers: its last entry's, or its anchor. -/
def AcceptRequest.reach (request : AcceptRequest) : Nat :=
  match request.entries.getLast? with
  | some e => e.slot
  | none => request.prevLogSlot

namespace PaxosSharedContext

/-- A pre-vote rejection, with the hints it carries. -/
def rejectPreVote (ctx : PaxosSharedContext) (leaderId : Option Uuid)
    (lastLogTerm lastLogSlot : Option Nat) : PreVoteResponse :=
  ⟨ctx.memberId, ctx.term, false, leaderId, lastLogTerm, lastLogSlot⟩

/-- A vote rejection, with the hints it carries. -/
def rejectVote (ctx : PaxosSharedContext) (leaderId : Option Uuid)
    (lastLogTerm lastLogSlot : Option Nat) (votedForId : Option Uuid) : VoteResponse :=
  ⟨ctx.memberId, ctx.term, .rejection ⟨leaderId, lastLogTerm, lastLogSlot, votedForId⟩⟩

/-- A Promise for the log this member holds. -/
def promiseVote (ctx : PaxosSharedContext) : VoteResponse :=
  ⟨ctx.memberId, ctx.term,
    .promise ⟨ctx.lastLogTerm, ctx.lastLogSlot, ctx.uncommittedLogs.values⟩⟩

/-- The answer to an accept request that is not looked at. -/
def ignoreAccept (ctx : PaxosSharedContext) (request : AcceptRequest) : AcceptResponse :=
  ⟨ctx.memberId, ctx.term, false, 0, none, request.tSend⟩

/-- The loop over the entries of an accept request: each goes to the log and to
the uncommitted entries. -/
def writeEntries (ctx : PaxosSharedContext) (batch : List AcceptLogEntry) : PaxosSharedContext :=
  batch.foldl (fun ctx e => { ctx with
    wal := ctx.wal.append e.toLogEntry
    uncommittedLogs := ctx.uncommittedLogs.insert e.slot e.toLogEntry }) ctx

/-- The log position follows the last entry written. -/
def setLogPosition (ctx : PaxosSharedContext) (last : Option AcceptLogEntry) :
    PaxosSharedContext :=
  match last with
  | some e => { ctx with lastLogSlot := e.slot, lastLogTerm := e.term }
  | none => ctx

/-- The batch replaces what stands above its anchor. -/
def replaceTail (ctx : PaxosSharedContext) (request : AcceptRequest) : PaxosSharedContext :=
  let ctx := { ctx with wal := ctx.wal.truncateFrom (request.prevLogSlot + 1) }
  let ctx := ctx.writeEntries request.entries
  ctx.setLogPosition request.entries.getLast?

/-- The commit point follows the leader's as far as the batch reaches; when it
does not move, `t_safe` follows the leader's promise. -/
def followCommit (ctx : PaxosSharedContext) (request : AcceptRequest) : PaxosSharedContext :=
  let newCommittedSlot := min request.leaderCommitSlot request.reach
  if newCommittedSlot > ctx.committedSlot then ctx.commitTo newCommittedSlot
  else match request.minNextTs with
    | some minNextTs => ctx.advanceTSafe (minNextTs - Duration.milliseconds 1)
    | none => ctx

end PaxosSharedContext

namespace Follower
variable (self : Follower)

def handlePreVoteRequest (request : PreVoteRequest) (ctx : PaxosSharedContext) (env : Env) :
    PreVoteResponse :=
  if ¬ ctx.isLeaderLeaseExpired (env.clock 0) then
    ctx.rejectPreVote self.currentLeaderId none none
  else if request.nextTerm ≤ ctx.term then
    ctx.rejectPreVote self.currentLeaderId none none
  -- the source compares the candidate's last log term with the voter's *current* term here
  else if request.lastLogTerm < ctx.term then
    ctx.rejectPreVote self.currentLeaderId (some ctx.lastLogTerm) none
  else if request.lastLogSlot < ctx.lastLogSlot then
    ctx.rejectPreVote self.currentLeaderId (some ctx.lastLogTerm) (some ctx.lastLogSlot)
  else
    ⟨ctx.memberId, ctx.term, true, none, none, none⟩

/-- The vote this follower has granted in a term no lower than `term`. -/
def votedSince (term : Nat) : Option VoteRecord :=
  self.voteRecord.filter fun record => decide (term ≤ record.term)

def handleVoteRequest (request : VoteRequest) (ctx : PaxosSharedContext) (env : Env) :
    Follower × VoteResponse × PaxosSharedContext :=
  match self.votedSince request.term with
  | some record =>
    (self, ctx.rejectVote self.currentLeaderId none none (some record.candidateId), ctx)
  | none =>
    if ¬ ctx.isLeaderLeaseExpired (env.clock 0) then
      (self, ctx.rejectVote self.currentLeaderId none none none, ctx)
    else if request.term ≤ ctx.term then
      (self, ctx.rejectVote self.currentLeaderId none none none, ctx)
    else if request.lastLogTerm < ctx.lastLogTerm then
      (self, ctx.rejectVote self.currentLeaderId (some ctx.lastLogTerm) none none, ctx)
    else if request.lastLogSlot < ctx.lastLogSlot then
      (self, ctx.rejectVote self.currentLeaderId (some ctx.lastLogTerm)
        (some ctx.lastLogSlot) none, ctx)
    else
      ({ self with voteRecord := some ⟨request.term, request.memberId⟩ }, ctx.promiseVote,
        ctx.extendLeaderLeaseExpiryTime (env.clock 1))

def handlePreVoteResponse (response : PreVoteResponse) (ctx : PaxosSharedContext) (env : Env) :
    Follower :=
  if response.term < ctx.term then self
  else if ¬ ctx.isLeaderLeaseExpired (env.clock 0) then self
  else
    match response.tryGetLeader fun term => decide (term ≥ ctx.term) with
    | none => self
    | some leaderId => { self with currentLeaderId := some leaderId }

def handleVoteResponse (response : VoteResponse) (ctx : PaxosSharedContext) (env : Env) :
    Follower :=
  if response.term < ctx.term then self
  else if ¬ ctx.isLeaderLeaseExpired (env.clock 0) then self
  else
    match response.tryGetLeader fun term => decide (term ≥ ctx.term) with
    | none => self
    | some leaderId => { self with currentLeaderId := some leaderId }

/-- The anchor matches: drop what stands above it, write the batch, move the
commit point. -/
def writeBatch (request : AcceptRequest) (ctx : PaxosSharedContext) :
    AcceptResponse × PaxosSharedContext :=
  (⟨ctx.memberId, ctx.term, true, request.reach, none, request.tSend⟩,
    (ctx.replaceTail request).followCommit request)

/-- The three answers to an admitted request: the log is too short, the term at
the anchor differs, or the anchor matches.  The `expect`s of the source are the
defaults below; the entry at the anchor is present where they stand. -/
def answerAcceptRequest (request : AcceptRequest) (ctx : PaxosSharedContext) :
    AcceptResponse × PaxosSharedContext :=
  let prevLogSlot := request.prevLogSlot
  if prevLogSlot > 0 ∧ ¬ ctx.wal.hasEntry prevLogSlot then
    (⟨ctx.memberId, ctx.term, false, 0, some ⟨0, ctx.lastLogSlot + 1⟩, request.tSend⟩, ctx)
  else if prevLogSlot > 0 ∧ ctx.wal.getTerm prevLogSlot ≠ some request.prevLogTerm then
    let localTerm := (ctx.wal.getTerm prevLogSlot).getD 0
    let conflictFirstSlot := (ctx.wal.findLowestSlotForTerm localTerm).getD 0
    (⟨ctx.memberId, ctx.term, false, 0, some ⟨localTerm, conflictFirstSlot⟩, request.tSend⟩, ctx)
  else
    writeBatch request ctx

def handleAcceptRequest (request : AcceptRequest) (ctx : PaxosSharedContext) (env : Env) :
    AcceptResponse × PaxosSharedContext :=
  if request.term < ctx.term then
    (ctx.ignoreAccept request, ctx)
  else if ctx.isLeaderLeaseExpired (env.clock 0) ∨
      self.currentLeaderId ≠ some request.leaderId then
    (ctx.ignoreAccept request, ctx)
  else
    let (response, ctx) := answerAcceptRequest request ctx
    (response, ctx.extendLeaderLeaseExpiryTime (env.clock 1))

def handleClientWrite (command : PaxosCommand ClientWriteRequest) (env : Env) : Attempt Unit :=
  match self.currentLeaderId with
  | none =>
    ⟨(), sendIgnoring command.responseTx (.clientReply command.responseTx ⟨false,
      some "no active leader in the current Paxos group, rejecting incoming write request"⟩),
      none⟩
  | some leaderId =>
    if env.reachable leaderId then
      ⟨(), [.dispatchClientWrite leaderId command.request command.responseTx], none⟩
    else ⟨(), [], some .dispatchFailed⟩

/-! ## What the accept handler does -/

/-- The request gets past the term, lease and leader checks. -/
structure Admits (f : Follower) (request : AcceptRequest) (ctx : PaxosSharedContext)
    (utc : DateTime) : Prop where
  term : ctx.term ≤ request.term
  lease : ctx.isLeaderLeaseExpired utc = false
  leader : f.currentLeaderId = some request.leaderId

/-- The log holds the anchor of the request: slot 0 anchors the first entry. -/
def AnchorMatches (request : AcceptRequest) (wal : WriteAheadLog) : Prop :=
  request.prevLogSlot = 0 ∨ wal.getTerm request.prevLogSlot = some request.prevLogTerm

instance (request : AcceptRequest) (wal : WriteAheadLog) :
    Decidable (AnchorMatches request wal) :=
  inferInstanceAs (Decidable (_ ∨ _))

/-- An admitted request is rejected with a hint, and then changes nothing, or
its anchor matches and its batch is written. -/
theorem answerAcceptRequest_cases (request : AcceptRequest) (ctx : PaxosSharedContext) :
    (¬ AnchorMatches request ctx.wal ∧ ∃ hint, answerAcceptRequest request ctx =
      (⟨ctx.memberId, ctx.term, false, 0, some hint, request.tSend⟩, ctx)) ∨
    (AnchorMatches request ctx.wal ∧
      answerAcceptRequest request ctx = writeBatch request ctx) := by
  unfold answerAcceptRequest AnchorMatches
  dsimp only
  split
  · rename_i hshort
    obtain ⟨hpos, hno⟩ := hshort
    refine Or.inl ⟨?_, _, rfl⟩
    rintro (h0 | hterm)
    · omega
    · obtain ⟨e, he, _⟩ := WriteAheadLog.getTerm_eq_some_iff.mp hterm
      exact hno (WriteAheadLog.hasEntry_iff.mpr ⟨e, he⟩)
  · split
    · rename_i hdiffers
      refine Or.inl ⟨?_, _, rfl⟩
      rintro (h0 | hterm)
      · omega
      · exact hdiffers.2 hterm
    · rename_i hmatch
      refine Or.inr ⟨?_, rfl⟩
      by_cases h0 : request.prevLogSlot = 0
      · exact Or.inl h0
      · refine Or.inr ?_
        by_contra hne
        exact hmatch ⟨by omega, hne⟩

/-- **The accept handler.**  A request is ignored, rejected with a hint, or
written; the lease is extended in the last two cases. -/
theorem handleAcceptRequest_cases (self : Follower) (request : AcceptRequest)
    (ctx : PaxosSharedContext) (env : Env) :
    (¬ self.Admits request ctx (env.clock 0) ∧
      self.handleAcceptRequest request ctx env = (ctx.ignoreAccept request, ctx)) ∨
    (self.Admits request ctx (env.clock 0) ∧ ¬ AnchorMatches request ctx.wal ∧
      ∃ hint, self.handleAcceptRequest request ctx env =
        (⟨ctx.memberId, ctx.term, false, 0, some hint, request.tSend⟩,
          ctx.extendLeaderLeaseExpiryTime (env.clock 1))) ∨
    (self.Admits request ctx (env.clock 0) ∧ AnchorMatches request ctx.wal ∧
      self.handleAcceptRequest request ctx env =
        ((writeBatch request ctx).1,
          (writeBatch request ctx).2.extendLeaderLeaseExpiryTime (env.clock 1))) := by
  unfold handleAcceptRequest
  split
  · rename_i hterm
    exact Or.inl ⟨fun h => absurd h.term (by omega), rfl⟩
  · rename_i hterm
    split
    · rename_i hstop
      refine Or.inl ⟨fun h => ?_, rfl⟩
      rcases hstop with hlease | hleader
      · rw [h.lease] at hlease
        cases hlease
      · exact hleader h.leader
    · rename_i hgo
      obtain ⟨hlease, hleader⟩ := not_or.mp hgo
      have hadmits : self.Admits request ctx (env.clock 0) :=
        ⟨by omega, by simpa using hlease, by simpa using hleader⟩
      rcases answerAcceptRequest_cases request ctx with ⟨hno, hint, h⟩ | ⟨hyes, h⟩
      · exact Or.inr (Or.inl ⟨hadmits, hno, hint, by rw [h]⟩)
      · exact Or.inr (Or.inr ⟨hadmits, hyes, by rw [h]⟩)

end Follower

namespace PaxosSharedContext
variable (ctx : PaxosSharedContext)

/-- Writing entries touches the log and the uncommitted entries only. -/
theorem writeEntries_eq (batch : List AcceptLogEntry) :
    ctx.writeEntries batch = { ctx with
      wal := ctx.wal.appendAll (batch.map AcceptLogEntry.toLogEntry)
      uncommittedLogs := (ctx.writeEntries batch).uncommittedLogs } := by
  induction batch generalizing ctx with
  | nil => rfl
  | cons e batch ih => exact ih _

theorem setLogPosition_eq (last : Option AcceptLogEntry) :
    ctx.setLogPosition last = { ctx with
      lastLogSlot := (ctx.setLogPosition last).lastLogSlot
      lastLogTerm := (ctx.setLogPosition last).lastLogTerm } := by
  cases last <;> rfl

/-- What replacing the tail touches: the log, the uncommitted entries and the
log position. -/
theorem replaceTail_eq (request : AcceptRequest) : ctx.replaceTail request = { ctx with
    wal := (ctx.wal.truncateFrom (request.prevLogSlot + 1)).appendAll
      (request.entries.map AcceptLogEntry.toLogEntry)
    uncommittedLogs := (ctx.writeEntries request.entries).uncommittedLogs
    lastLogSlot := (ctx.setLogPosition request.entries.getLast?).lastLogSlot
    lastLogTerm := (ctx.setLogPosition request.entries.getLast?).lastLogTerm } := by
  have huncommitted : ∀ (batch : List AcceptLogEntry) (a b : PaxosSharedContext),
      a.uncommittedLogs = b.uncommittedLogs →
      (a.writeEntries batch).uncommittedLogs = (b.writeEntries batch).uncommittedLogs := by
    intro batch
    induction batch with
    | nil => exact fun _ _ h => h
    | cons e batch ih => exact fun a b h => ih _ _ (by simp [h])
  unfold replaceTail
  dsimp only
  rw [writeEntries_eq]
  cases request.entries.getLast? with
  | none => simp only [setLogPosition]; congr 1; exact huncommitted _ _ _ rfl
  | some e => simp only [setLogPosition]; congr 1; exact huncommitted _ _ _ rfl

/-- What following the leader's commit point touches. -/
theorem followCommit_eq (request : AcceptRequest) : ctx.followCommit request = { ctx with
    committedSlot := (ctx.followCommit request).committedSlot
    tSafe := (ctx.followCommit request).tSafe
    uncommittedLogs := (ctx.followCommit request).uncommittedLogs } := by
  unfold followCommit
  dsimp only
  split
  · rw [commitTo_eq]
  · cases request.minNextTs with
    | none => rfl
    | some minNextTs =>
      simp only [advanceTSafe_committedSlot, advanceTSafe_uncommittedLogs]
      exact ctx.advanceTSafe_eq _

/-- **How a follower's commit point moves**: as far as the batch reaches, or else
`t_safe` takes over the promise that came with it. -/
theorem followCommit_cases (request : AcceptRequest) :
    (ctx.committedSlot < min request.leaderCommitSlot request.reach ∧
      ctx.followCommit request =
        ctx.commitTo (min request.leaderCommitSlot request.reach)) ∨
    (min request.leaderCommitSlot request.reach ≤ ctx.committedSlot ∧
      ((∃ minNextTs, request.minNextTs = some minNextTs ∧
          ctx.followCommit request =
            ctx.advanceTSafe (minNextTs - Duration.milliseconds 1)) ∨
        ctx.followCommit request = ctx)) := by
  unfold followCommit
  dsimp only
  split
  · rename_i hlt
    exact Or.inl ⟨hlt, rfl⟩
  · rename_i hle
    refine Or.inr ⟨by omega, ?_⟩
    cases request.minNextTs with
    | none => exact Or.inr rfl
    | some minNextTs => exact Or.inl ⟨minNextTs, rfl, rfl⟩

end PaxosSharedContext

namespace Follower
variable (self : Follower) (request : AcceptRequest) (ctx : PaxosSharedContext) (env : Env)

/-- The log a batch leaves behind. -/
def writtenWal (request : AcceptRequest) (wal : WriteAheadLog) : WriteAheadLog :=
  (wal.truncateFrom (request.prevLogSlot + 1)).appendAll
    (request.entries.map AcceptLogEntry.toLogEntry)

@[simp] theorem writeBatch_wal :
    (writeBatch request ctx).2.wal = writtenWal request ctx.wal := by
  rw [writeBatch, PaxosSharedContext.followCommit_eq, PaxosSharedContext.replaceTail_eq]
  rfl

/-- The commit point follows the leader's, as far as the batch reaches. -/
theorem writeBatch_committedSlot : (writeBatch request ctx).2.committedSlot =
    max ctx.committedSlot (min request.leaderCommitSlot request.reach) := by
  rw [writeBatch, PaxosSharedContext.replaceTail_eq, PaxosSharedContext.followCommit]
  dsimp only
  split
  · rename_i hlt
    rw [PaxosSharedContext.commitTo_committedSlot]
    exact (max_eq_right (Nat.le_of_lt hlt)).symm
  · rename_i hle
    have hkept := (max_eq_left (Nat.not_lt.mp hle)).symm
    cases request.minNextTs with
    | none => exact hkept
    | some minNextTs =>
      rw [PaxosSharedContext.advanceTSafe_committedSlot]
      exact hkept

theorem writeBatch_sameMember : ctx.SameMember (writeBatch request ctx).2 := by
  rw [writeBatch, PaxosSharedContext.followCommit_eq, PaxosSharedContext.replaceTail_eq]
  exact ⟨rfl, rfl, rfl, id⟩

theorem handleAcceptRequest_sameMember :
    ctx.SameMember (self.handleAcceptRequest request ctx env).2 := by
  rcases self.handleAcceptRequest_cases request ctx env with
    ⟨_, h⟩ | ⟨_, _, hint, h⟩ | ⟨_, _, h⟩
  · rw [h]
    exact .refl ctx
  · rw [h]
    exact .updateLease ctx _
  · rw [h]
    exact (writeBatch_sameMember request ctx).trans (.updateLease _ _)

end Follower
end SpannerPaxos
