import SpannerPaxos.AcceptWire

/-! # The messages of the four calls

Pre-votes, votes, accepts and client writes go over the wire as protocol buffers.  A message
arrives as it was but for its timestamps, which are rounded down or, in a Promise, lost, and
but for the text of an empty error, which stands for none.  What has come over the wire once
goes over it unchanged from then on, as the answer to a forwarded client write does.
-/
namespace SpannerPaxos

namespace Proto

structure PreVoteRequest where
  memberId : String
  nextTerm : Nat
  lastLogTerm : Nat
  lastLogSlot : Nat
  deriving DecidableEq

structure PreVoteResponse where
  memberId : String
  term : Nat
  voteGranted : Bool
  currentLeaderId : Option String
  memberLastLogTerm : Option Nat
  memberLastLogSlot : Option Nat
  deriving DecidableEq

structure ClientWriteRequest where
  value : String
  deriving DecidableEq

structure ClientWriteResponse where
  success : Bool
  error : String
  deriving DecidableEq

/-- A message of one of the four calls. -/
inductive Message where
  | preVoteRequest (r : PreVoteRequest)
  | preVoteResponse (r : PreVoteResponse)
  | voteRequest (r : RequestVoteRequest)
  | voteResponse (r : RequestVoteResponse)
  | acceptRequest (r : AcceptRequest)
  | acceptResponse (r : AcceptResponse)
  | clientWriteRequest (r : ClientWriteRequest)
  | clientWriteResponse (r : ClientWriteResponse)
  deriving DecidableEq

end Proto

/-- A message of one of the four calls. -/
inductive Message where
  | preVoteRequest (r : PreVoteRequest)
  | preVoteResponse (r : PreVoteResponse)
  | voteRequest (r : VoteRequest)
  | voteResponse (r : VoteResponse)
  | acceptRequest (r : AcceptRequest)
  | acceptResponse (r : AcceptResponse)
  | clientWriteRequest (r : ClientWriteRequest)
  | clientWriteResponse (r : ClientWriteResponse)
  deriving DecidableEq

namespace Wire
variable (text : UuidText)

def preVoteRequestToProto (r : PreVoteRequest) : Proto.PreVoteRequest :=
  ⟨text.toString r.memberId, r.nextTerm, r.lastLogTerm, r.lastLogSlot⟩

def preVoteRequestFromProto (r : Proto.PreVoteRequest) : Option PreVoteRequest :=
  (text.parseStr r.memberId).map fun memberId =>
    ⟨memberId, r.nextTerm, r.lastLogTerm, r.lastLogSlot⟩

def preVoteResponseToProto (r : PreVoteResponse) : Proto.PreVoteResponse where
  memberId := text.toString r.memberId
  term := r.term
  voteGranted := r.voteGranted
  currentLeaderId := r.currentLeaderId.map text.toString
  memberLastLogTerm := r.memberLastLogTerm
  memberLastLogSlot := r.memberLastLogSlot

def preVoteResponseFromProto (r : Proto.PreVoteResponse) : Option PreVoteResponse :=
  (text.parseStr r.memberId).bind fun memberId =>
    (decodeOption text.parseStr r.currentLeaderId).map fun currentLeaderId =>
      ⟨memberId, r.term, r.voteGranted, currentLeaderId, r.memberLastLogTerm,
        r.memberLastLogSlot⟩

def clientWriteRequestToProto (r : ClientWriteRequest) : Proto.ClientWriteRequest := ⟨r.value⟩

def clientWriteRequestFromProto (r : Proto.ClientWriteRequest) : ClientWriteRequest := ⟨r.value⟩

/-- No error travels as the empty text. -/
def clientWriteResponseToProto (r : ClientWriteResponse) : Proto.ClientWriteResponse :=
  ⟨r.success, r.error.getD ""⟩

def clientWriteResponseFromProto (r : Proto.ClientWriteResponse) : ClientWriteResponse :=
  ⟨r.success, if r.error.isEmpty then none else some r.error⟩

def toProto : Message → Proto.Message
  | .preVoteRequest r => .preVoteRequest (preVoteRequestToProto text r)
  | .preVoteResponse r => .preVoteResponse (preVoteResponseToProto text r)
  | .voteRequest r => .voteRequest (voteRequestToProto text r)
  | .voteResponse r => .voteResponse (voteResponseToProto text r)
  | .acceptRequest r => .acceptRequest (acceptRequestToProto text r)
  | .acceptResponse r => .acceptResponse (acceptResponseToProto text r)
  | .clientWriteRequest r => .clientWriteRequest (clientWriteRequestToProto r)
  | .clientWriteResponse r => .clientWriteResponse (clientWriteResponseToProto r)

def fromProto : Proto.Message → Option Message
  | .preVoteRequest r => (preVoteRequestFromProto text r).map .preVoteRequest
  | .preVoteResponse r => (preVoteResponseFromProto text r).map .preVoteResponse
  | .voteRequest r => (voteRequestFromProto text r).map .voteRequest
  | .voteResponse r => (voteResponseFromProto text r).map .voteResponse
  | .acceptRequest r => (acceptRequestFromProto text r).map .acceptRequest
  | .acceptResponse r => (acceptResponseFromProto text r).map .acceptResponse
  | .clientWriteRequest r => some (.clientWriteRequest (clientWriteRequestFromProto r))
  | .clientWriteResponse r => some (.clientWriteResponse (clientWriteResponseFromProto r))

end Wire

/-- The answer as it arrives: an empty error is none. -/
def ClientWriteResponse.received (r : ClientWriteResponse) : ClientWriteResponse :=
  { r with error := r.error.filter fun error => !error.isEmpty }

namespace Message

/-- The message as it arrives. -/
def received : Message → Message
  | voteResponse r => voteResponse (r.stamped fun _ => DateTime.unixEpoch)
  | acceptRequest r => acceptRequest r.floored
  | acceptResponse r => acceptResponse r.floored
  | clientWriteResponse r => clientWriteResponse r.received
  | m => m

/-- The timestamps that travel are the clock's. -/
def InRange : Message → Prop
  | acceptRequest r => r.InRange
  | acceptResponse r => r.echoedTSend.InRange
  | _ => True

end Message

namespace Wire
variable (text : UuidText)

/-! ## What arrives -/

theorem preVoteRequest_roundTrips (r : PreVoteRequest) :
    RoundTrips (preVoteRequestToProto text) (preVoteRequestFromProto text) id r := by
  rw [RoundTrips, preVoteRequestFromProto, preVoteRequestToProto, text.parseStr_toString]
  rfl

theorem preVoteResponse_roundTrips (r : PreVoteResponse) :
    RoundTrips (preVoteResponseToProto text) (preVoteResponseFromProto text) id r := by
  have hleader : decodeOption text.parseStr (r.currentLeaderId.map text.toString) =
      some r.currentLeaderId := RoundTrips.option_id text.parseStr_toString
  simp only [RoundTrips, preVoteResponseFromProto, preVoteResponseToProto, text.parseStr_toString,
    hleader, Option.bind_some, Option.map_some, id]

theorem clientWriteResponse_received (r : ClientWriteResponse) :
    clientWriteResponseFromProto (clientWriteResponseToProto r) = r.received := by
  obtain ⟨success, error⟩ := r
  cases error with
  | none => rfl
  | some error =>
    by_cases hempty : error.isEmpty
    · simp [clientWriteResponseFromProto, clientWriteResponseToProto, ClientWriteResponse.received,
        Option.filter, hempty]
    · simp [clientWriteResponseFromProto, clientWriteResponseToProto, ClientWriteResponse.received,
        Option.filter, hempty]

theorem roundTrips_of_inRange {m : Message} (h : m.InRange) :
    RoundTrips (toProto text) (fromProto text) Message.received m := by
  cases m with
  | preVoteRequest r => exact congrArg (Option.map _) (preVoteRequest_roundTrips text r)
  | preVoteResponse r => exact congrArg (Option.map _) (preVoteResponse_roundTrips text r)
  | voteRequest r => exact congrArg (Option.map _) (voteRequest_roundTrips text r)
  | voteResponse r => exact congrArg (Option.map _) (voteResponse_roundTrips text r)
  | acceptRequest r => exact congrArg (Option.map _) (acceptRequest_roundTrips text h)
  | acceptResponse r => exact congrArg (Option.map _) (acceptResponse_roundTrips text h)
  | clientWriteRequest r => rfl
  | clientWriteResponse r =>
    exact congrArg (fun r => some (Message.clientWriteResponse r)) (clientWriteResponse_received r)

/-! ## What decodes -/

variable {text}

/-- Milliseconds decode to a timestamp of the clock, with nothing below the millisecond. -/
theorem inRange_of_millisToDatetime {ms : Int} {t : DateTime}
    (h : millisToDatetime ms = some t) : t.InRange ∧ t.floorMillis = t := by
  unfold millisToDatetime DateTime.fromTimestampMillis at h
  split at h
  · rename_i hrange
    have hms : DateTime.timestampMillis (Duration.milliseconds ms) = ms :=
      Int.mul_ediv_cancel ms (by decide)
    rw [← Option.some.inj h, DateTime.InRange, DateTime.floorMillis, hms]
    exact ⟨hrange, rfl⟩
  · cases h

theorem acceptLogEntry_of_wire {p : Proto.AcceptLogEntry} {e : AcceptLogEntry}
    (h : acceptLogEntryFromProto p = some e) : e.timestamp.InRange ∧ e.floored = e := by
  obtain ⟨t, ht, rfl⟩ := Option.map_eq_some_iff.mp h
  obtain ⟨hrange, hfloor⟩ := inRange_of_millisToDatetime ht
  refine ⟨hrange, ?_⟩
  rw [AcceptLogEntry.floored, hfloor]

theorem acceptRequest_of_wire {p : Proto.AcceptRequest} {r : AcceptRequest}
    (h : acceptRequestFromProto text p = some r) : r.InRange ∧ r.floored = r := by
  obtain ⟨_, _, h⟩ := Option.bind_eq_some_iff.mp h
  obtain ⟨entries, hentries, h⟩ := Option.bind_eq_some_iff.mp h
  obtain ⟨tSend, htSend, h⟩ := Option.bind_eq_some_iff.mp h
  obtain ⟨minNextTs, hminNextTs, rfl⟩ := Option.map_eq_some_iff.mp h
  have he := forall_of_decodeList (fun _ _ => acceptLogEntry_of_wire) hentries
  have ht := inRange_of_millisToDatetime htSend
  have hm := forall_of_decodeOption (fun _ _ => inRange_of_millisToDatetime) hminNextTs
  refine ⟨⟨fun e hmem => (he e hmem).1, ht.1, fun t heq => (hm t heq).1⟩, ?_⟩
  have hentries' : entries.map AcceptLogEntry.floored = entries :=
    (List.map_congr_left fun e hmem => (he e hmem).2).trans (List.map_id entries)
  have hmin' : minNextTs.map DateTime.floorMillis = minNextTs := by
    cases minNextTs with
    | none => rfl
    | some t => exact congrArg some (hm t rfl).2
  rw [AcceptRequest.floored, hentries', ht.2, hmin']

theorem acceptResponse_of_wire {p : Proto.AcceptResponse} {r : AcceptResponse}
    (h : acceptResponseFromProto text p = some r) : r.echoedTSend.InRange ∧ r.floored = r := by
  obtain ⟨_, _, h⟩ := Option.bind_eq_some_iff.mp h
  obtain ⟨t, ht, rfl⟩ := Option.map_eq_some_iff.mp h
  obtain ⟨hrange, hfloor⟩ := inRange_of_millisToDatetime ht
  refine ⟨hrange, ?_⟩
  rw [AcceptResponse.floored, hfloor]

theorem voteResponse_of_wire {p : Proto.RequestVoteResponse} {r : VoteResponse}
    (h : voteResponseFromProto text p = some r) :
    (r.stamped fun _ => DateTime.unixEpoch) = r := by
  obtain ⟨memberId, _, h⟩ := Option.bind_eq_some_iff.mp h
  cases houtcome : p.outcome with
  | none =>
    rw [houtcome] at h
    cases h
  | some outcome =>
    rw [houtcome] at h
    obtain ⟨decoded, hdecoded, rfl⟩ := Option.map_eq_some_iff.mp h
    cases outcome with
    | promise promise =>
      cases Option.some.inj hdecoded
      simp only [VoteResponse.stamped, List.map_map]
      rfl
    | rejection rejection =>
      obtain ⟨_, _, hdecoded⟩ := Option.bind_eq_some_iff.mp hdecoded
      obtain ⟨_, _, rfl⟩ := Option.map_eq_some_iff.mp hdecoded
      rfl

theorem clientWriteResponse_of_wire (p : Proto.ClientWriteResponse) :
    (clientWriteResponseFromProto p).received = clientWriteResponseFromProto p := by
  by_cases hempty : p.error.isEmpty
  · simp [clientWriteResponseFromProto, ClientWriteResponse.received, hempty]
  · simp [clientWriteResponseFromProto, ClientWriteResponse.received, Option.filter, hempty]

/-- A message that has come over the wire is in range, and arrives as it was. -/
theorem received_of_wire {p : Proto.Message} {m : Message} (h : fromProto text p = some m) :
    m.InRange ∧ m.received = m := by
  cases p with
  | preVoteRequest p | preVoteResponse p | voteRequest p =>
    obtain ⟨r, _, rfl⟩ := Option.map_eq_some_iff.mp h
    exact ⟨trivial, rfl⟩
  | voteResponse p =>
    obtain ⟨r, hr, rfl⟩ := Option.map_eq_some_iff.mp h
    exact ⟨trivial, congrArg Message.voteResponse (voteResponse_of_wire hr)⟩
  | acceptRequest p =>
    obtain ⟨r, hr, rfl⟩ := Option.map_eq_some_iff.mp h
    obtain ⟨hrange, hsame⟩ := acceptRequest_of_wire hr
    exact ⟨hrange, congrArg Message.acceptRequest hsame⟩
  | acceptResponse p =>
    obtain ⟨r, hr, rfl⟩ := Option.map_eq_some_iff.mp h
    obtain ⟨hrange, hsame⟩ := acceptResponse_of_wire hr
    exact ⟨hrange, congrArg Message.acceptResponse hsame⟩
  | clientWriteRequest p =>
    cases Option.some.inj h
    exact ⟨trivial, rfl⟩
  | clientWriteResponse p =>
    cases Option.some.inj h
    exact ⟨trivial, congrArg Message.clientWriteResponse (clientWriteResponse_of_wire p)⟩

end Wire

theorem AcceptRequest.inRange_of_floored {r : AcceptRequest} (h : r.floored.InRange) :
    r.InRange where
  entries e he := by
    have hfloored := h.entries e.floored (List.mem_map_of_mem he)
    rwa [AcceptLogEntry.floored, DateTime.InRange, DateTime.timestampMillis_floorMillis] at hfloored
  tSend := by
    have hfloored := h.tSend
    rwa [AcceptRequest.floored, DateTime.InRange, DateTime.timestampMillis_floorMillis] at hfloored
  minNextTs t ht := by
    have hfloored := h.minNextTs t.floorMillis (by rw [floored, ht]; rfl)
    rwa [DateTime.InRange, DateTime.timestampMillis_floorMillis] at hfloored

theorem Message.inRange_of_received {m : Message} (h : m.received.InRange) : m.InRange := by
  cases m with
  | acceptRequest r => exact AcceptRequest.inRange_of_floored h
  | acceptResponse r =>
    rw [Message.received, Message.InRange, AcceptResponse.floored, DateTime.InRange,
      DateTime.timestampMillis_floorMillis] at h
    exact h
  | _ => trivial

namespace Wire

/-- **What the wire does to a message**: it arrives, as `received` says, exactly if the
timestamps that travel are in range, and whatever has arrived goes over the wire again
unchanged. -/
theorem message_roundTrips (text : UuidText) :
    (∀ m, RoundTrips (toProto text) (fromProto text) Message.received m ↔ m.InRange) ∧
      ∀ p m, fromProto text p = some m → RoundTrips (toProto text) (fromProto text) id m := by
  refine ⟨fun m => ⟨fun h => ?_, roundTrips_of_inRange text⟩, fun p m h => ?_⟩
  · exact Message.inRange_of_received (received_of_wire h).1
  · obtain ⟨hrange, hsame⟩ := received_of_wire h
    have harrives := roundTrips_of_inRange text hrange
    rwa [RoundTrips, hsame] at harrives

end Wire
end SpannerPaxos
