import SpannerPaxos.LogMatching
import SpannerPaxos.Ordered

/-! # Safe time

A member answers strong reads up to its `t_safe` from what it has committed, so
whatever is stamped no later must stand at or below its commit point, entries
still to be written included.  A timestamp is settled at a slot when nothing
above the slot is stamped so early, and nothing will be: every entry to come is
stamped later than the log and no earlier than the clock.  A member's `t_safe`
moves to the stamp of an entry it commits or to a promise of the leader; both are
settled as long as stamps grow with the slots and the leader makes no promise
past an entry it has not committed.
-/
namespace SpannerPaxos

namespace PaxosSharedContext

/-- What the log stamps no later than the member's `t_safe` is committed there. -/
def Covers (ctx : PaxosSharedContext) (wal : WriteAheadLog) : Prop :=
  ∀ ts, ctx.tSafe = some ts →
    ∀ slot e, wal.get? slot = some e → e.timestamp ≤ ts → slot ≤ ctx.committedSlot

/-- Where the uncommitted entries and the log share a slot they hold one entry. -/
def Consistent (ctx : PaxosSharedContext) : Prop :=
  ∀ slot e e', ctx.uncommittedLogs.get? slot = some e → ctx.wal.get? slot = some e' → e = e'

namespace Consistent
variable {ctx ctx' : PaxosSharedContext}

theorem of_subset (h : ctx.Consistent)
    (hwal : ∀ slot e, ctx'.wal.get? slot = some e → ctx.wal.get? slot = some e)
    (huncommitted : ∀ slot e, ctx'.uncommittedLogs.get? slot = some e →
      ctx.uncommittedLogs.get? slot = some e) : ctx'.Consistent :=
  fun slot e e' he he' => h slot e e' (huncommitted slot e he) (hwal slot e' he')

/-- An entry is written to the log and to the uncommitted entries together. -/
theorem write (h : ctx.Consistent) (entry : LogEntry) (hwal : ctx'.wal = ctx.wal.append entry)
    (huncommitted : ctx'.uncommittedLogs = ctx.uncommittedLogs.insert entry.slot entry) :
    ctx'.Consistent := by
  intro slot e e' he he'
  rw [huncommitted, OrderedMap.get?_insert] at he
  rw [hwal, WriteAheadLog.get?_append] at he'
  by_cases hslot : slot = entry.slot
  · rw [if_pos hslot] at he he'
    exact Option.some.inj (he.symm.trans he')
  · rw [if_neg hslot] at he he'
    exact h slot e e' he he'

theorem writeEntries (h : ctx.Consistent) (batch : List AcceptLogEntry) :
    (ctx.writeEntries batch).Consistent := by
  induction batch generalizing ctx with
  | nil => exact h
  | cons e batch ih => exact ih (h.write e.toLogEntry rfl rfl)

theorem advanceTSafe (h : ctx.Consistent) (ts : DateTime) : (ctx.advanceTSafe ts).Consistent := by
  refine h.of_subset ?_ ?_
  · simp
  · simp

theorem commitTo (h : ctx.Consistent) (slot : Nat) : (ctx.commitTo slot).Consistent := by
  refine h.of_subset ?_ ?_
  · simp
  · intro s e he
    rw [commitTo_uncommittedLogs, OrderedMap.get?_filterKeys] at he
    split at he
    · exact he
    · cases he

/-- The tail is dropped from the log only, and written to both. -/
theorem replaceTail (h : ctx.Consistent) (request : AcceptRequest) :
    (ctx.replaceTail request).Consistent := by
  have htruncated : Consistent { ctx with
      wal := ctx.wal.truncateFrom (request.prevLogSlot + 1) } := by
    refine h.of_subset ?_ fun _ _ => id
    intro slot e he
    rw [WriteAheadLog.get?_truncateFrom] at he
    split at he
    · exact he
    · cases he
  have hwritten := htruncated.writeEntries request.entries
  unfold PaxosSharedContext.replaceTail
  dsimp only
  rw [setLogPosition_eq]
  exact hwritten

end Consistent

theorem Consistent.followCommit {ctx : PaxosSharedContext} (h : ctx.Consistent)
    (request : AcceptRequest) : (ctx.followCommit request).Consistent := by
  rcases ctx.followCommit_cases request with ⟨_, heq⟩ | ⟨_, ⟨minNextTs, _, heq⟩ | heq⟩
  · rw [heq]
    exact h.commitTo _
  · rw [heq]
    exact h.advanceTSafe _
  · rw [heq]
    exact h

end PaxosSharedContext

/-! ## Settled timestamps -/

/-- The entries of the log are stamped in slot order. -/
def StampedInOrder (wal : WriteAheadLog) : Prop :=
  ∀ slot slot' e e', wal.get? slot = some e → wal.get? slot' = some e' → slot < slot' →
    e.timestamp < e'.timestamp

theorem StampedInOrder.new : StampedInOrder .new := by
  intro slot slot' e e' he
  cases he

theorem StampedInOrder.append {wal : WriteAheadLog} (h : StampedInOrder wal) {entry : LogEntry}
    (hnew : ∀ slot e, wal.get? slot = some e →
      slot < entry.slot ∧ e.timestamp < entry.timestamp) : StampedInOrder (wal.append entry) := by
  intro slot slot' e e' he he' hlt
  rw [WriteAheadLog.get?_append] at he he'
  split at he
  · split at he'
    · omega
    · have hold := (hnew slot' e' he').1
      omega
  · split at he'
    · cases he'
      exact (hnew slot e he).2
    · exact h slot slot' e e' he he' hlt

/-- Nothing above `slot` is stamped `ts` or earlier, and nothing will be by a
leader whose clock has come to `now`. -/
structure Settled (wal : WriteAheadLog) (now : DateTime) (ts : DateTime) (slot : Nat) : Prop where
  covered : ∀ k e, wal.get? k = some e → e.timestamp ≤ ts → k ≤ slot
  past : ts < (TrueTime.now now).latest ∨ ∃ k e, wal.get? k = some e ∧ ts ≤ e.timestamp

theorem TrueTime.latest_le {utc utc' : DateTime} (h : utc ≤ utc') :
    (TrueTime.now utc).latest ≤ (TrueTime.now utc').latest :=
  Int.add_le_add_right h _

namespace Settled
variable {wal wal' : WriteAheadLog} {now now' ts : DateTime} {slot slot' : Nat}

theorem mono (h : Settled wal now ts slot) (hslot : slot ≤ slot') : Settled wal now ts slot' :=
  ⟨fun k e he hts => Nat.le_trans (h.covered k e he hts) hslot, h.past⟩

theorem later (h : Settled wal now ts slot) (hnow : now ≤ now') : Settled wal now' ts slot := by
  refine ⟨h.covered, ?_⟩
  rcases h.past with hpast | hstamped
  · exact Or.inl (lt_of_lt_of_le hpast (TrueTime.latest_le hnow))
  · exact Or.inr hstamped

/-- **A settled timestamp stays settled** when the log grows by an entry with a
new stamp, taken no earlier than `now`. -/
theorem append (h : Settled wal now ts slot) {entry : LogEntry}
    (hnow : (TrueTime.now now).latest ≤ entry.timestamp)
    (hnew : ∀ k e, wal.get? k = some e → e.timestamp < entry.timestamp)
    (hslot : ∀ k e, wal.get? k = some e → k ≠ entry.slot) :
    Settled (wal.append entry) now ts slot := by
  -- the new stamp is after `ts`: by the clock, or by the entry that settled it
  have hlt : ts < entry.timestamp := by
    rcases h.past with hpast | ⟨k, e, he, hle⟩
    · exact lt_of_lt_of_le hpast hnow
    · exact lt_of_le_of_lt hle (hnew k e he)
  refine ⟨?_, ?_⟩
  · intro k e he hts
    rw [WriteAheadLog.get?_append] at he
    split at he
    · cases he
      exact absurd hlt (not_lt_of_ge hts)
    · exact h.covered k e he hts
  · rcases h.past with hpast | ⟨k, e, he, hle⟩
    · exact Or.inl hpast
    · refine Or.inr ⟨k, e, ?_, hle⟩
      rw [WriteAheadLog.get?_append, if_neg (hslot k e he), he]

/-- The stamp of an entry is settled at its slot. -/
theorem of_entry (hord : StampedInOrder wal) {e : LogEntry} (he : wal.get? slot = some e)
    (now : DateTime) : Settled wal now e.timestamp slot := by
  refine ⟨?_, Or.inr ⟨slot, e, he, le_refl _⟩⟩
  intro k e' he' hts
  by_contra hk
  exact absurd (hord slot k e e' he he' (by omega)) (not_lt_of_ge hts)

end Settled

/-- What one event does to a member's safe time: nothing; it commits, and takes
over the stamp of the leader's entry there; or it takes over a settled promise. -/
inductive SafeMove (wal : WriteAheadLog) (now : DateTime) (ctx ctx' : PaxosSharedContext) : Prop
  | keeps (hcommitted : ctx'.committedSlot = ctx.committedSlot) (htSafe : ctx'.tSafe = ctx.tSafe)
  | commits (hlt : ctx.committedSlot < ctx'.committedSlot)
      (htSafe : ctx'.tSafe = ctx.tSafe ∨
        ∃ e, wal.get? ctx'.committedSlot = some e ∧ ctx'.tSafe = some e.timestamp)
  | promises (ts : DateTime) (hcommitted : ctx'.committedSlot = ctx.committedSlot)
      (htSafe : ctx'.tSafe = ctx.tSafe ∨ ctx'.tSafe = some ts)
      (hsettled : Settled wal now ts ctx.committedSlot)

/-- The rest of the context does not matter. -/
theorem SafeMove.congr {wal : WriteAheadLog} {now : DateTime}
    {ctx ctx' ctx'' : PaxosSharedContext} (h : SafeMove wal now ctx ctx')
    (hcommitted : ctx''.committedSlot = ctx'.committedSlot) (htSafe : ctx''.tSafe = ctx'.tSafe) :
    SafeMove wal now ctx ctx'' := by
  cases h with
  | keeps h1 h2 => exact .keeps (hcommitted.trans h1) (htSafe.trans h2)
  | commits hlt h2 => exact .commits (hcommitted ▸ hlt) (by rwa [htSafe, hcommitted])
  | promises ts h1 h2 h3 => exact .promises ts (hcommitted.trans h1) (by rwa [htSafe]) h3

/-- The member still has the safe time it started with, or a settled one. -/
structure Vouched (wal : WriteAheadLog) (now : DateTime) (start ctx : PaxosSharedContext) :
    Prop where
  committed : start.committedSlot ≤ ctx.committedSlot
  tSafe : ctx.tSafe = start.tSafe ∨
    ∃ ts, ctx.tSafe = some ts ∧ Settled wal now ts ctx.committedSlot

namespace Vouched
variable {wal wal' : WriteAheadLog} {now now' : DateTime} {start ctx ctx' : PaxosSharedContext}

theorem refl (wal : WriteAheadLog) (now : DateTime) (ctx : PaxosSharedContext) :
    Vouched wal now ctx ctx :=
  ⟨Nat.le_refl _, Or.inl rfl⟩

/-- What keeps timestamps settled keeps members vouched for. -/
theorem carry (h : Vouched wal now start ctx)
    (hsettled : ∀ ts slot, Settled wal now ts slot → Settled wal' now' ts slot) :
    Vouched wal' now' start ctx := by
  refine ⟨h.committed, ?_⟩
  rcases h.tSafe with hold | ⟨ts, hts, hs⟩
  · exact Or.inl hold
  · exact Or.inr ⟨ts, hts, hsettled ts _ hs⟩

/-- **Every move of the safe time is to a settled timestamp.** -/
theorem move (h : Vouched wal now start ctx) (hord : StampedInOrder wal)
    (hmove : SafeMove wal now ctx ctx') : Vouched wal now start ctx' := by
  have hkept : ctx.committedSlot ≤ ctx'.committedSlot → ctx'.tSafe = ctx.tSafe →
      ctx'.tSafe = start.tSafe ∨
        ∃ ts, ctx'.tSafe = some ts ∧ Settled wal now ts ctx'.committedSlot := by
    intro hle heq
    rw [heq]
    rcases h.tSafe with hold | ⟨ts, hts, hs⟩
    · exact Or.inl hold
    · exact Or.inr ⟨ts, hts, hs.mono hle⟩
  have hstart := h.committed
  cases hmove with
  | keeps hcommitted htSafe => exact ⟨by omega, hkept (by omega) htSafe⟩
  | commits hlt htSafe =>
    refine ⟨by omega, ?_⟩
    rcases htSafe with hsame | ⟨e, he, hts⟩
    · exact hkept (by omega) hsame
    · exact Or.inr ⟨e.timestamp, hts, .of_entry hord he now⟩
  | promises ts hcommitted htSafe hsettled =>
    refine ⟨by omega, ?_⟩
    rcases htSafe with hsame | hts
    · exact hkept (by omega) hsame
    · exact Or.inr ⟨ts, hts, hcommitted ▸ hsettled⟩

/-- A member that is vouched for covers the log, if its start does. -/
theorem covers (h : Vouched wal now start ctx) (hstart : start.Covers wal) : ctx.Covers wal := by
  intro ts hts slot e he hle
  rcases h.tSafe with hold | ⟨ts', hts', hsettled⟩
  · have hslot := hstart ts (hold ▸ hts) slot e he hle
    exact hslot.trans h.committed
  · cases Option.some.inj (hts'.symm.trans hts)
    exact hsettled.covered slot e he hle

end Vouched
end SpannerPaxos
