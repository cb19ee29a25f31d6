import SpannerPaxos.Wire
import SpannerPaxos.ResponseOrder

/-! # Accept messages on the wire

An accept message comes back with each timestamp rounded down to the millisecond.  That is
the safe side twice.  A send time that comes back early makes the leader's lease end
early.  A promised timestamp that comes back early still leaves every later entry above
what the follower makes of it, because the follower takes a whole millisecond off and the
entry is rounded too.
-/
namespace SpannerPaxos

namespace Proto

structure AcceptLogEntry where
  term : Nat
  slot : Nat
  entry : String
  timestamp : Int
  deriving DecidableEq

structure AcceptRequest where
  term : Nat
  leaderId : String
  prevLogSlot : Nat
  prevLogTerm : Nat
  entries : List AcceptLogEntry
  leaderCommitSlot : Nat
  tSend : Int
  minNextTs : Option Int
  deriving DecidableEq

structure ConflictHint where
  conflictTerm : Nat
  conflictFirstSlot : Nat
  deriving DecidableEq

structure AcceptResponse where
  memberId : String
  term : Nat
  success : Bool
  lastWrittenSlot : Nat
  conflictHint : Option ConflictHint
  echoedTSend : Int
  deriving DecidableEq

end Proto

namespace Wire
variable (text : UuidText)

def millisToDatetime (ms : Int) : Option DateTime := DateTime.fromTimestampMillis ms

def acceptLogEntryToProto (e : AcceptLogEntry) : Proto.AcceptLogEntry :=
  ⟨e.term, e.slot, e.entry, e.timestamp.timestampMillis⟩

def acceptLogEntryFromProto (e : Proto.AcceptLogEntry) : Option AcceptLogEntry :=
  (millisToDatetime e.timestamp).map fun timestamp => ⟨e.term, e.slot, e.entry, timestamp⟩

def acceptRequestToProto (r : AcceptRequest) : Proto.AcceptRequest where
  term := r.term
  leaderId := text.toString r.leaderId
  prevLogSlot := r.prevLogSlot
  prevLogTerm := r.prevLogTerm
  entries := r.entries.map acceptLogEntryToProto
  leaderCommitSlot := r.leaderCommitSlot
  tSend := r.tSend.timestampMillis
  minNextTs := r.minNextTs.map DateTime.timestampMillis

def acceptRequestFromProto (r : Proto.AcceptRequest) : Option AcceptRequest :=
  (text.parseStr r.leaderId).bind fun leaderId =>
    (decodeList acceptLogEntryFromProto r.entries).bind fun entries =>
      (millisToDatetime r.tSend).bind fun tSend =>
        (decodeOption millisToDatetime r.minNextTs).map fun minNextTs =>
          ⟨r.term, leaderId, r.prevLogSlot, r.prevLogTerm, entries, r.leaderCommitSlot, tSend,
            minNextTs⟩

def acceptResponseToProto (r : AcceptResponse) : Proto.AcceptResponse where
  memberId := text.toString r.memberId
  term := r.term
  success := r.success
  lastWrittenSlot := r.lastWrittenSlot
  conflictHint := r.conflictHint.map fun h => ⟨h.conflictTerm, h.conflictFirstSlot⟩
  echoedTSend := r.echoedTSend.timestampMillis

def acceptResponseFromProto (r : Proto.AcceptResponse) : Option AcceptResponse :=
  (text.parseStr r.memberId).bind fun memberId =>
    (millisToDatetime r.echoedTSend).map fun echoedTSend =>
      ⟨memberId, r.term, r.success, r.lastWrittenSlot,
        r.conflictHint.map fun h => ⟨h.conflictTerm, h.conflictFirstSlot⟩, echoedTSend⟩

end Wire

/-! ## Messages rounded down to the millisecond -/

def AcceptLogEntry.floored (e : AcceptLogEntry) : AcceptLogEntry :=
  { e with timestamp := e.timestamp.floorMillis }

def AcceptRequest.floored (r : AcceptRequest) : AcceptRequest :=
  { r with
    entries := r.entries.map AcceptLogEntry.floored
    tSend := r.tSend.floorMillis
    minNextTs := r.minNextTs.map DateTime.floorMillis }

def AcceptResponse.floored (r : AcceptResponse) : AcceptResponse :=
  { r with echoedTSend := r.echoedTSend.floorMillis }

/-- Every timestamp of the request is one of the clock's. -/
structure AcceptRequest.InRange (r : AcceptRequest) : Prop where
  entries : ∀ e ∈ r.entries, e.timestamp.InRange
  tSend : r.tSend.InRange
  minNextTs : ∀ t, r.minNextTs = some t → t.InRange

@[simp] theorem AcceptLogEntry.floored_floored (e : AcceptLogEntry) :
    e.floored.floored = e.floored := by
  simp [floored]

@[simp] theorem AcceptRequest.floored_floored (r : AcceptRequest) :
    r.floored.floored = r.floored := by
  simp [floored, Function.comp_def]

@[simp] theorem AcceptResponse.floored_floored (r : AcceptResponse) :
    r.floored.floored = r.floored := by
  simp [floored]

theorem AcceptRequest.InRange.floored {r : AcceptRequest} (h : r.InRange) : r.floored.InRange where
  entries := by
    intro e he
    obtain ⟨e₀, he₀, rfl⟩ := List.mem_map.mp he
    exact (h.entries e₀ he₀).floorMillis
  tSend := h.tSend.floorMillis
  minNextTs := by
    intro t ht
    obtain ⟨t₀, ht₀, rfl⟩ := Option.map_eq_some_iff.mp ht
    exact (h.minNextTs t₀ ht₀).floorMillis

namespace Wire
variable (text : UuidText)

theorem millis_roundTrips {t : DateTime} (h : t.InRange) :
    RoundTrips DateTime.timestampMillis millisToDatetime DateTime.floorMillis t :=
  DateTime.fromTimestampMillis_timestampMillis h

theorem acceptLogEntry_roundTrips {e : AcceptLogEntry} (h : e.timestamp.InRange) :
    RoundTrips acceptLogEntryToProto acceptLogEntryFromProto AcceptLogEntry.floored e := by
  have htimestamp : millisToDatetime e.timestamp.timestampMillis = some e.timestamp.floorMillis :=
    millis_roundTrips h
  rw [RoundTrips, acceptLogEntryFromProto, acceptLogEntryToProto, htimestamp]
  rfl

theorem acceptRequest_roundTrips {r : AcceptRequest} (h : r.InRange) :
    RoundTrips (acceptRequestToProto text) (acceptRequestFromProto text)
      AcceptRequest.floored r := by
  have hentries : decodeList acceptLogEntryFromProto (r.entries.map acceptLogEntryToProto) =
      some (r.entries.map AcceptLogEntry.floored) :=
    RoundTrips.list fun e he => acceptLogEntry_roundTrips (h.entries e he)
  have htSend : millisToDatetime r.tSend.timestampMillis = some r.tSend.floorMillis :=
    millis_roundTrips h.tSend
  have hminNextTs : decodeOption millisToDatetime (r.minNextTs.map DateTime.timestampMillis) =
      some (r.minNextTs.map DateTime.floorMillis) :=
    RoundTrips.option fun t ht => millis_roundTrips (h.minNextTs t ht)
  simp only [RoundTrips, acceptRequestFromProto, acceptRequestToProto, text.parseStr_toString,
    hentries, htSend, hminNextTs, Option.bind_some, Option.map_some, AcceptRequest.floored]

theorem acceptResponse_roundTrips {r : AcceptResponse} (h : r.echoedTSend.InRange) :
    RoundTrips (acceptResponseToProto text) (acceptResponseFromProto text)
      AcceptResponse.floored r := by
  have hechoed : millisToDatetime r.echoedTSend.timestampMillis = some r.echoedTSend.floorMillis :=
    millis_roundTrips h
  have hhint : ∀ hint : Option ConflictHint,
      (hint.map fun h => Proto.ConflictHint.mk h.conflictTerm h.conflictFirstSlot).map
        (fun h => ConflictHint.mk h.conflictTerm h.conflictFirstSlot) = hint := by
    intro hint
    cases hint <;> rfl
  simp only [RoundTrips, acceptResponseFromProto, acceptResponseToProto, text.parseStr_toString,
    hechoed, hhint, Option.bind_some, Option.map_some, AcceptResponse.floored]

/-! ## What decodes -/

variable {text}

/-- An entry that decodes had its timestamp in range and comes back rounded. -/
theorem acceptLogEntry_of_decoded {e e' : AcceptLogEntry}
    (h : acceptLogEntryFromProto (acceptLogEntryToProto e) = some e') : e' = e.floored := by
  obtain ⟨t, ht, rfl⟩ := Option.map_eq_some_iff.mp h
  obtain ⟨_, rfl⟩ := DateTime.eq_floorMillis_of_fromTimestampMillis ht
  rfl

/-- What a request that decodes keeps of its send time and of its promise. -/
theorem acceptRequest_of_decoded {r r' : AcceptRequest}
    (h : acceptRequestFromProto text (acceptRequestToProto text r) = some r') :
    r'.tSend = r.tSend.floorMillis ∧
      ∀ m, r.minNextTs = some m → r'.minNextTs = some m.floorMillis := by
  obtain ⟨_, _, h⟩ := Option.bind_eq_some_iff.mp h
  obtain ⟨_, _, h⟩ := Option.bind_eq_some_iff.mp h
  obtain ⟨tSend, htSend, h⟩ := Option.bind_eq_some_iff.mp h
  obtain ⟨minNextTs, hminNextTs, rfl⟩ := Option.map_eq_some_iff.mp h
  refine ⟨(DateTime.eq_floorMillis_of_fromTimestampMillis htSend).2, ?_⟩
  intro m hm
  simp only [acceptRequestToProto, hm] at hminNextTs
  obtain ⟨t, ht, rfl⟩ := Option.map_eq_some_iff.mp hminNextTs
  rw [(DateTime.eq_floorMillis_of_fromTimestampMillis ht).2]

theorem acceptResponse_of_decoded {r r' : AcceptResponse}
    (h : acceptResponseFromProto text (acceptResponseToProto text r) = some r') :
    r'.echoedTSend = r.echoedTSend.floorMillis := by
  obtain ⟨_, _, h⟩ := Option.bind_eq_some_iff.mp h
  obtain ⟨t, ht, rfl⟩ := Option.map_eq_some_iff.mp h
  exact (DateTime.eq_floorMillis_of_fromTimestampMillis ht).2

end Wire

/-! ## Rounding down is safe -/

/-- A contact that comes back earlier counts no more towards the lease. -/
theorem Leader.lease_recordContact_mono (l : Leader) (ctx : PaxosSharedContext)
    (r' r : AcceptResponse) (hid : r'.memberId = r.memberId)
    (hecho : r'.echoedTSend ≤ r.echoedTSend) {t : DateTime}
    (h : AtLeast ((l.recordContact r').renewLease ctx).leaseExpiry t) :
    AtLeast ((l.recordContact r).renewLease ctx).leaseExpiry t := by
  -- the later contact on top of the earlier one is the later contact alone
  have hboth : ∀ p, ((l.recordContact r').recordContact r).lastContact.get? p =
      (l.recordContact r).lastContact.get? p := by
    intro p
    refine eq_of_atLeast fun t => ?_
    simp only [Absorbed.atLeast_recordContact_iff, hid]
    rw [or_assoc]
    refine or_congr_right (or_iff_right_of_imp ?_)
    rintro ⟨hp, hle⟩
    exact ⟨hp, le_trans hle hecho⟩
  rw [atLeast_renewLease_iff] at h ⊢
  refine h.imp_right fun hquorum => lt_of_lt_of_le hquorum ?_
  rw [← (AssocMap.values_perm hboth).countP_eq]
  apply @AssocMap.countP_values_le_insert Uuid
  intro c hc hreach
  rw [hc]
  exact decide_eq_true (le_trans (of_decide_eq_true hreach) (le_max_left c _))

/-- A follower answers with the send time of the request. -/
theorem Follower.handleAcceptRequest_echoedTSend (f : Follower) (request : AcceptRequest)
    (ctx : PaxosSharedContext) (env : Env) :
    (f.handleAcceptRequest request ctx env).1.echoedTSend = request.tSend := by
  rcases f.handleAcceptRequest_cases request ctx env with
    ⟨_, heq⟩ | ⟨_, _, hint, heq⟩ | ⟨_, _, heq⟩
  · rw [heq]
    rfl
  · rw [heq]
  · rw [heq]
    rfl

namespace Wire
variable {text : UuidText}

/-- There and back, a send time only gets earlier. -/
theorem echoedTSend_le {request received : AcceptRequest} {response : AcceptResponse}
    (hrequest : acceptRequestFromProto text (acceptRequestToProto text request) = some received)
    (f : Follower) (ctx : PaxosSharedContext) (env : Env)
    (hresponse : acceptResponseFromProto text (acceptResponseToProto text
      (f.handleAcceptRequest received ctx env).1) = some response) :
    response.echoedTSend ≤ request.tSend := by
  rw [acceptResponse_of_decoded hresponse, f.handleAcceptRequest_echoedTSend,
    (acceptRequest_of_decoded hrequest).1, DateTime.floorMillis_floorMillis]
  exact DateTime.floorMillis_le _

/-- A promise of a timestamp stays below the entries that keep it. -/
theorem floorMillis_sub_lt {m t : DateTime} (h : m ≤ t) :
    m.floorMillis - Duration.milliseconds 1 < t.floorMillis :=
  lt_of_lt_of_le (Int.sub_lt_self _ (by decide)) (DateTime.floorMillis_mono h)

/-- **Accept messages lose the part of their timestamps below the millisecond, and lose it
on the safe side.** -/
theorem accept_roundTrips_safely (text : UuidText) :
    (∀ r : AcceptRequest, r.InRange →
      acceptRequestFromProto text (acceptRequestToProto text r) = some r.floored ∧
        acceptRequestFromProto text (acceptRequestToProto text r.floored) = some r.floored) ∧
    (∀ r : AcceptResponse, r.echoedTSend.InRange →
      acceptResponseFromProto text (acceptResponseToProto text r) = some r.floored ∧
        acceptResponseFromProto text (acceptResponseToProto text r.floored) = some r.floored) ∧
    (∀ (request received : AcceptRequest) (response : AcceptResponse),
      acceptRequestFromProto text (acceptRequestToProto text request) = some received →
      ∀ (f : Follower) (ctx : PaxosSharedContext) (env : Env),
      acceptResponseFromProto text (acceptResponseToProto text
        (f.handleAcceptRequest received ctx env).1) = some response →
      ∀ (l : Leader) (leaderCtx : PaxosSharedContext) (expiry : DateTime),
      AtLeast ((l.recordContact response).renewLease leaderCtx).leaseExpiry expiry →
        AtLeast ((l.recordContact { response with echoedTSend := request.tSend }).renewLease
          leaderCtx).leaseExpiry expiry) ∧
    (∀ (request received : AcceptRequest) (m : DateTime),
      acceptRequestFromProto text (acceptRequestToProto text request) = some received →
      request.minNextTs = some m →
      ∃ m', received.minNextTs = some m' ∧ ∀ e e' : AcceptLogEntry,
        acceptLogEntryFromProto (acceptLogEntryToProto e) = some e' → m ≤ e.timestamp →
          m' - Duration.milliseconds 1 < e'.timestamp) := by
  refine ⟨?_, ?_, ?_, ?_⟩
  · intro r h
    have hagain := acceptRequest_roundTrips text h.floored
    rw [RoundTrips, AcceptRequest.floored_floored] at hagain
    exact ⟨acceptRequest_roundTrips text h, hagain⟩
  · intro r h
    have hagain := acceptResponse_roundTrips text (r := r.floored) h.floorMillis
    rw [RoundTrips, AcceptResponse.floored_floored] at hagain
    exact ⟨acceptResponse_roundTrips text h, hagain⟩
  · intro request received response hrequest f ctx env hresponse l leaderCtx expiry h
    exact l.lease_recordContact_mono leaderCtx response
      { response with echoedTSend := request.tSend } rfl
      (echoedTSend_le hrequest f ctx env hresponse) h
  · intro request received m hrequest hm
    refine ⟨m.floorMillis, (acceptRequest_of_decoded hrequest).2 m hm, ?_⟩
    intro e e' he hle
    rw [acceptLogEntry_of_decoded he]
    exact floorMillis_sub_lt hle

/-- A batch of one entry, every timestamp of it a nanosecond short of the next millisecond. -/
def lateInTheMillisecond : AcceptRequest :=
  ⟨1, 2, 0, 0, [⟨1, 1, "x", 3999999⟩], 0, 1999999, some 2999999⟩

/-- The batch comes back rounded down, and its promise stays below its entry. -/
theorem accept_roundTrips_safely_late :
    acceptRequestFromProto .hyphenated (acceptRequestToProto .hyphenated lateInTheMillisecond) =
      some ⟨1, 2, 0, 0, [⟨1, 1, "x", 3000000⟩], 0, 1000000, some 2000000⟩ ∧
    ∃ m', some (2000000 : DateTime) = some m' ∧ ∀ e e' : AcceptLogEntry,
      acceptLogEntryFromProto (acceptLogEntryToProto e) = some e' → 2999999 ≤ e.timestamp →
        m' - Duration.milliseconds 1 < e'.timestamp := by
  obtain ⟨hrequest, _, _, hpromise⟩ := accept_roundTrips_safely .hyphenated
  have hrange : lateInTheMillisecond.InRange := by
    refine ⟨by decide, by decide, ?_⟩
    intro t ht
    cases ht
    decide
  have hdecoded := (hrequest lateInTheMillisecond hrange).1
  exact ⟨hdecoded, hpromise lateInTheMillisecond _ 2999999 hdecoded rfl⟩

end Wire
end SpannerPaxos
