import SpannerPaxos.Codec
import SpannerPaxos.Messages

/-! # Messages on the wire

The conversions between the messages and their protocol buffers.  Identifiers travel as
text and timestamps as milliseconds.  Decoding panics on text that is no identifier, on
milliseconds that are no timestamp and on an outcome that is missing; a panic is `none`
here.

An accept message loses the part of a timestamp below the millisecond
(`SpannerPaxos.AcceptWire`).  A log entry in a Promise loses its timestamp: the schema has
no field for it.
-/
namespace SpannerPaxos

/-! ## Identifiers and timestamps -/

/-- `Uuid::to_string` and `Uuid::parse_str`, as far as the codecs rely on them. -/
structure UuidText where
  toString : Uuid → String
  parseStr : String → Option Uuid
  parseStr_toString : ∀ id, parseStr (toString id) = some id

/-- Five hyphenated groups of hexadecimal digits. -/
def UuidText.hyphenated : UuidText := ⟨HexText.print, HexText.parse, HexText.parse_print⟩

namespace DateTime
variable {t t' : DateTime}

/-- The milliseconds of `DateTime::<Utc>::MIN_UTC`. -/
def minMillis : Int := -8334601228800000

/-- The milliseconds of `DateTime::<Utc>::MAX_UTC`. -/
def maxMillis : Int := 8210266876799999

/-- Whole milliseconds since the epoch, rounded down. -/
def timestampMillis (t : DateTime) : Int := t / 1000000

def fromTimestampMillis (ms : Int) : Option DateTime :=
  if minMillis ≤ ms ∧ ms ≤ maxMillis then some (Duration.milliseconds ms) else none

/-- The timestamp without what is below the millisecond. -/
def floorMillis (t : DateTime) : DateTime := Duration.milliseconds t.timestampMillis

/-- The timestamp is one of the clock's. -/
def InRange (t : DateTime) : Prop :=
  minMillis ≤ t.timestampMillis ∧ t.timestampMillis ≤ maxMillis

instance (t : DateTime) : Decidable t.InRange := inferInstanceAs (Decidable (_ ∧ _))

theorem fromTimestampMillis_timestampMillis (h : t.InRange) :
    fromTimestampMillis t.timestampMillis = some t.floorMillis := if_pos h

@[simp] theorem timestampMillis_floorMillis (t : DateTime) :
    t.floorMillis.timestampMillis = t.timestampMillis :=
  Int.mul_ediv_cancel _ (by decide)

@[simp] theorem floorMillis_floorMillis (t : DateTime) :
    t.floorMillis.floorMillis = t.floorMillis := by
  rw [floorMillis, timestampMillis_floorMillis, ← floorMillis]

theorem InRange.floorMillis (h : t.InRange) : t.floorMillis.InRange := by
  rwa [InRange, timestampMillis_floorMillis]

theorem floorMillis_le (t : DateTime) : t.floorMillis ≤ t := Int.ediv_mul_le t (by decide)

theorem floorMillis_mono (h : t ≤ t') : t.floorMillis ≤ t'.floorMillis :=
  Int.mul_le_mul_of_nonneg_right (Int.ediv_le_ediv (by decide) h) (by decide)

/-- What decodes was in range, and lost what is below the millisecond. -/
theorem eq_floorMillis_of_fromTimestampMillis
    (h : fromTimestampMillis t.timestampMillis = some t') : t.InRange ∧ t' = t.floorMillis := by
  unfold fromTimestampMillis at h
  split at h
  · rename_i hrange
    exact ⟨hrange, (Option.some.inj h).symm⟩
  · cases h

end DateTime

/-! ## Vote messages -/

namespace Proto

structure LogEntry where
  term : Nat
  slot : Nat
  entry : String
  deriving DecidableEq

structure RequestVoteRequest where
  memberId : String
  term : Nat
  lastLogTerm : Nat
  lastLogSlot : Nat
  deriving DecidableEq

structure Promise where
  lastLogTerm : Nat
  lastLogSlot : Nat
  uncommittedEntries : List LogEntry
  deriving DecidableEq

structure Rejection where
  currentLeaderId : Option String
  memberLastLogTerm : Option Nat
  memberLastLogSlot : Option Nat
  votedForId : Option String
  deriving DecidableEq

/-- The `oneof` of a vote response. -/
inductive Outcome where
  | promise (p : Promise)
  | rejection (r : Rejection)
  deriving DecidableEq

structure RequestVoteResponse where
  term : Nat
  memberId : String
  outcome : Option Outcome
  deriving DecidableEq

end Proto

namespace Wire
variable (text : UuidText)

def logEntryToProto (e : LogEntry) : Proto.LogEntry := ⟨e.term, e.slot, e.entry⟩

def logEntryFromProto (e : Proto.LogEntry) : LogEntry :=
  ⟨e.term, e.slot, e.entry, DateTime.unixEpoch⟩

def voteRequestToProto (r : VoteRequest) : Proto.RequestVoteRequest :=
  ⟨text.toString r.memberId, r.term, r.lastLogTerm, r.lastLogSlot⟩

def voteRequestFromProto (r : Proto.RequestVoteRequest) : Option VoteRequest :=
  (text.parseStr r.memberId).map fun memberId => ⟨memberId, r.term, r.lastLogTerm, r.lastLogSlot⟩

def voteOutcomeToProto : VoteOutcome → Proto.Outcome
  | .promise promise => .promise ⟨promise.lastLogTerm, promise.lastLogSlot,
      promise.uncommittedEntries.map logEntryToProto⟩
  | .rejection rejection => .rejection ⟨rejection.currentLeaderId.map text.toString,
      rejection.memberLastLogTerm, rejection.memberLastLogSlot,
      rejection.votedForId.map text.toString⟩

def voteOutcomeFromProto : Proto.Outcome → Option VoteOutcome
  | .promise promise => some (.promise ⟨promise.lastLogTerm, promise.lastLogSlot,
      promise.uncommittedEntries.map logEntryFromProto⟩)
  | .rejection rejection =>
    (decodeOption text.parseStr rejection.currentLeaderId).bind fun currentLeaderId =>
      (decodeOption text.parseStr rejection.votedForId).map fun votedForId =>
        .rejection ⟨currentLeaderId, rejection.memberLastLogTerm, rejection.memberLastLogSlot,
          votedForId⟩

def voteResponseToProto (r : VoteResponse) : Proto.RequestVoteResponse :=
  ⟨r.term, text.toString r.memberId, some (voteOutcomeToProto text r.outcome)⟩

def voteResponseFromProto (r : Proto.RequestVoteResponse) : Option VoteResponse :=
  (text.parseStr r.memberId).bind fun memberId =>
    match r.outcome with
    | some outcome => (voteOutcomeFromProto text outcome).map fun outcome =>
        ⟨memberId, r.term, outcome⟩
    | none => none

end Wire

/-- The entry with another timestamp. -/
def LogEntry.stamped (e : LogEntry) (stamp : DateTime → DateTime) : LogEntry :=
  { e with timestamp := stamp e.timestamp }

/-- The response with the timestamps of its uncommitted entries changed. -/
def VoteResponse.stamped (r : VoteResponse) (stamp : DateTime → DateTime) : VoteResponse :=
  { r with outcome := match r.outcome with
      | .promise promise => .promise { promise with
          uncommittedEntries := promise.uncommittedEntries.map fun e => e.stamped stamp }
      | .rejection rejection => .rejection rejection }

namespace Wire
variable (text : UuidText)

theorem voteRequest_roundTrips (r : VoteRequest) :
    RoundTrips (voteRequestToProto text) (voteRequestFromProto text) id r := by
  rw [RoundTrips, voteRequestFromProto, voteRequestToProto, text.parseStr_toString]
  rfl

/-- **A vote response comes back with every timestamp at the epoch.** -/
theorem voteResponse_roundTrips (r : VoteResponse) :
    RoundTrips (voteResponseToProto text) (voteResponseFromProto text)
      (fun r => r.stamped fun _ => DateTime.unixEpoch) r := by
  obtain ⟨memberId, term, outcome⟩ := r
  rw [RoundTrips, voteResponseFromProto, voteResponseToProto, text.parseStr_toString]
  cases outcome with
  | promise promise =>
    show some (VoteResponse.mk _ _ (.promise _)) = some (VoteResponse.mk _ _ (.promise _))
    rw [List.map_map]
    rfl
  | rejection rejection =>
    have hid : ∀ o : Option Uuid, decodeOption text.parseStr (o.map text.toString) = some o :=
      fun o => RoundTrips.option_id text.parseStr_toString
    simp only [Option.bind_some, voteOutcomeToProto, voteOutcomeFromProto, hid, Option.map_some,
      VoteResponse.stamped]

/-- The response comes back as it was, up to the part of its timestamps below the
millisecond. -/
def VoteResponseKept (r : VoteResponse) : Prop :=
  RoundTrips (voteResponseToProto text) (voteResponseFromProto text)
    (fun r => r.stamped DateTime.floorMillis) r

/-- **A vote response is kept exactly when it has no timestamp to lose.** -/
theorem voteResponseKept_iff (r : VoteResponse) :
    VoteResponseKept text r ↔ ∀ promise, r.outcome = .promise promise →
      ∀ e ∈ promise.uncommittedEntries, e.timestamp.floorMillis = DateTime.unixEpoch := by
  have hdecoded := voteResponse_roundTrips text r
  rw [RoundTrips] at hdecoded
  rw [VoteResponseKept, RoundTrips, hdecoded, Option.some.injEq]
  obtain ⟨memberId, term, outcome⟩ := r
  cases outcome with
  | promise promise =>
    simp only [VoteResponse.stamped, VoteResponse.mk.injEq, VoteOutcome.promise.injEq,
      VotePromise.mk.injEq, true_and, List.map_inj_left, LogEntry.stamped, LogEntry.mk.injEq,
      forall_eq']
    exact forall₂_congr fun e _ => eq_comm
  | rejection rejection =>
    refine ⟨?_, fun _ => rfl⟩
    intro _ promise hpromise
    cases hpromise

/-- A Promise of member 2 with one uncommitted entry, of five seconds after the epoch. -/
theorem not_voteResponseKept_promise :
    ¬ ∀ (text : UuidText) (r : VoteResponse), VoteResponseKept text r := by
  intro h
  have hkept := (voteResponseKept_iff .hyphenated _).mp
    (h .hyphenated ⟨2, 1, .promise ⟨1, 1, [⟨1, 1, "x", Duration.seconds 5⟩]⟩⟩) _ rfl
    _ (List.mem_singleton_self _)
  exact absurd hkept (by decide)

end Wire
end SpannerPaxos
