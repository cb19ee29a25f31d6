import SpannerPaxos.FiniteMap
import SpannerPaxos.Messages

/-! # The write-ahead log

`WriteAheadLog` is a tree of entries keyed by slot.  Entries enter it through
`append` only, so a key is always its entry's slot; the structure carries that.
A log is read through `get?`, and the `get?_…` lemmas say what each operation
does to every slot.  Slots count from 1: slot 0 is the anchor of the first
entry and names no entry.
-/
namespace SpannerPaxos

structure WriteAheadLog where
  entries : OrderedMap Nat LogEntry
  keyed : ∀ slot e, entries.get? slot = some e → e.slot = slot
  deriving DecidableEq

namespace WriteAheadLog
variable (wal : WriteAheadLog)

def new : WriteAheadLog := ⟨OrderedMap.empty, by simp⟩

/-- The entry at a slot. -/
def get? (slot : Nat) : Option LogEntry := wal.entries.get? slot

def append (entry : LogEntry) : WriteAheadLog :=
  ⟨wal.entries.insert entry.slot entry, by
    intro slot e h
    rw [OrderedMap.get?_insert] at h
    split at h
    · rename_i hs
      rw [← Option.some.inj h, hs]
    · exact wal.keyed slot e h⟩

def hasEntry (slot : Nat) : Bool := (wal.get? slot).isSome

def getTerm (slot : Nat) : Option Nat := (wal.get? slot).map LogEntry.term

/-- The entries from `fromSlot` on, in slot order. -/
def getEntriesFrom (fromSlot : Nat) : List LogEntry :=
  (wal.entries.filterKeys fun slot => decide (fromSlot ≤ slot)).values

/-- `split_off`: what stands at `startingSlot` or above is dropped. -/
def truncateFrom (startingSlot : Nat) : WriteAheadLog :=
  ⟨wal.entries.filterKeys fun slot => decide (slot < startingSlot), by
    intro slot e h
    rw [OrderedMap.get?_filterKeys] at h
    split at h
    · exact wal.keyed slot e h
    · cases h⟩

/-- The slots that hold an entry of a term, in slot order. -/
def slotsForTerm (term : Nat) : List Nat :=
  (wal.entries.entries.filter fun e => decide (e.2.term = term)).map Prod.fst

def findHighestSlotForTerm (term : Nat) : Option Nat := (wal.slotsForTerm term).max?

def findLowestSlotForTerm (term : Nat) : Option Nat := (wal.slotsForTerm term).min?

variable {wal}

theorem slot_of_get? {slot : Nat} {e : LogEntry} (h : wal.get? slot = some e) : e.slot = slot :=
  wal.keyed slot e h

theorem getTerm_eq_some_iff {slot term : Nat} :
    wal.getTerm slot = some term ↔ ∃ e, wal.get? slot = some e ∧ e.term = term := by
  simp [getTerm]

theorem hasEntry_iff {slot : Nat} : wal.hasEntry slot = true ↔ ∃ e, wal.get? slot = some e := by
  simp [hasEntry, Option.isSome_iff_exists]

@[ext] theorem ext {w w' : WriteAheadLog} (h : ∀ slot, w.get? slot = w'.get? slot) : w = w' := by
  have he : w.entries = w'.entries := OrderedMap.ext h
  cases w
  cases w'
  cases he
  rfl

variable (wal)

@[simp] theorem get?_new (slot : Nat) : new.get? slot = none := rfl

@[simp] theorem get?_append (entry : LogEntry) (slot : Nat) :
    (wal.append entry).get? slot = if slot = entry.slot then some entry else wal.get? slot :=
  wal.entries.get?_insert entry.slot slot entry

@[simp] theorem get?_truncateFrom (startingSlot slot : Nat) :
    (wal.truncateFrom startingSlot).get? slot =
      if slot < startingSlot then wal.get? slot else none := by
  show (wal.entries.filterKeys _).get? slot = _
  simp [get?]

theorem mem_getEntriesFrom {fromSlot : Nat} {e : LogEntry} :
    e ∈ wal.getEntriesFrom fromSlot ↔ fromSlot ≤ e.slot ∧ wal.get? e.slot = some e := by
  rw [getEntriesFrom, OrderedMap.mem_values_iff]
  constructor
  · rintro ⟨slot, hslot⟩
    rw [OrderedMap.get?_filterKeys] at hslot
    split at hslot
    · rename_i hle
      have hs := wal.keyed slot e hslot
      exact ⟨hs ▸ of_decide_eq_true hle, hs ▸ hslot⟩
    · cases hslot
  · rintro ⟨hle, hget⟩
    exact ⟨e.slot, by rw [OrderedMap.get?_filterKeys, decide_eq_true hle]; exact hget⟩

/-- A shipped tail ends at the log's highest slot. -/
theorem le_of_getEntriesFrom_getLast? {fromSlot slot : Nat} {e e' : LogEntry}
    (hlast : (wal.getEntriesFrom fromSlot).getLast? = some e)
    (hget : wal.get? slot = some e') : slot ≤ e.slot := by
  rcases Nat.lt_or_ge slot fromSlot with hlt | hge
  · have hmem := (wal.mem_getEntriesFrom).mp (List.mem_of_getLast? hlast)
    omega
  · rcases (wal.entries.filterKeys fun slot => decide (fromSlot ≤ slot)).getLast?_values_cases with
      ⟨hnone, _⟩ | ⟨k, v, hv, hk, hmax⟩
    · cases hnone.symm.trans hlast
    · cases Option.some.inj (hv.symm.trans hlast)
      have hkeyed := hk
      rw [OrderedMap.get?_filterKeys] at hkeyed
      split at hkeyed
      · rw [wal.keyed k e hkeyed]
        refine hmax slot e' ?_
        rw [OrderedMap.get?_filterKeys, decide_eq_true hge]
        exact hget
      · cases hkeyed

/-! ## Writing a batch -/

/-- Append a batch, entry by entry. -/
def appendAll (batch : List LogEntry) : WriteAheadLog := batch.foldl append wal

@[simp] theorem appendAll_cons (e : LogEntry) (batch : List LogEntry) :
    wal.appendAll (e :: batch) = (wal.append e).appendAll batch := rfl

/-- A slot the batch does not write keeps its entry. -/
theorem get?_appendAll_of_forall_ne {batch : List LogEntry} {slot : Nat}
    (h : ∀ e ∈ batch, e.slot ≠ slot) : (wal.appendAll batch).get? slot = wal.get? slot := by
  induction batch generalizing wal with
  | nil => rfl
  | cons e batch ih =>
    rw [appendAll_cons, ih _ fun e' he' => h e' (List.mem_cons_of_mem _ he'), get?_append,
      if_neg (Ne.symm (h e List.mem_cons_self))]

/-- A slot the batch writes consistently holds the batch's entry. -/
theorem get?_appendAll_of_mem {batch : List LogEntry} {e : LogEntry} (he : e ∈ batch)
    (huniq : ∀ e' ∈ batch, e'.slot = e.slot → e' = e) :
    (wal.appendAll batch).get? e.slot = some e := by
  induction batch generalizing wal with
  | nil => cases he
  | cons x batch ih =>
    rw [appendAll_cons]
    -- the last entry written for the slot counts
    by_cases hin : e ∈ batch
    · exact ih _ hin fun e' he' => huniq e' (List.mem_cons_of_mem _ he')
    · have hx : x = e := by
        rcases List.mem_cons.mp he with h | h
        · exact h.symm
        · exact absurd h hin
      have hne : ∀ e' ∈ batch, e'.slot ≠ e.slot := fun e' he' hs =>
        hin (huniq e' (List.mem_cons_of_mem _ he') hs ▸ he')
      rw [get?_appendAll_of_forall_ne _ hne, get?_append, hx, if_pos rfl]

/-! ## The slots of a term -/

theorem mem_slotsForTerm {term slot : Nat} :
    slot ∈ wal.slotsForTerm term ↔ ∃ e, wal.get? slot = some e ∧ e.term = term := by
  unfold slotsForTerm
  simp only [List.mem_map, List.mem_filter, decide_eq_true_eq]
  constructor
  · rintro ⟨⟨k, e⟩, ⟨hmem, hterm⟩, rfl⟩
    exact ⟨e, OrderedMap.get?_eq_some_iff.mpr hmem, hterm⟩
  · rintro ⟨e, he, hterm⟩
    exact ⟨(slot, e), ⟨OrderedMap.get?_eq_some_iff.mp he, hterm⟩, rfl⟩

/-- What holds of the slots of a term holds of its entries' slots. -/
theorem forall_slotsForTerm_iff {term : Nat} {P : Nat → Prop} :
    (∀ k ∈ wal.slotsForTerm term, P k) ↔ ∀ k e, wal.get? k = some e → e.term = term → P k := by
  constructor
  · intro h k e he ht
    exact h k (wal.mem_slotsForTerm.mpr ⟨e, he, ht⟩)
  · intro h k hk
    obtain ⟨e, he, ht⟩ := wal.mem_slotsForTerm.mp hk
    exact h k e he ht

theorem findHighestSlotForTerm_eq_some_iff {term slot : Nat} :
    wal.findHighestSlotForTerm term = some slot ↔
      (∃ e, wal.get? slot = some e ∧ e.term = term) ∧
      ∀ k e, wal.get? k = some e → e.term = term → k ≤ slot := by
  rw [findHighestSlotForTerm, List.max?_eq_some_iff, mem_slotsForTerm, forall_slotsForTerm_iff]

theorem findHighestSlotForTerm_eq_none_iff {term : Nat} :
    wal.findHighestSlotForTerm term = none ↔ ∀ slot e, wal.get? slot = some e → e.term ≠ term := by
  rw [findHighestSlotForTerm, List.max?_eq_none_iff, List.eq_nil_iff_forall_not_mem]
  exact wal.forall_slotsForTerm_iff

theorem findLowestSlotForTerm_eq_some_iff {term slot : Nat} :
    wal.findLowestSlotForTerm term = some slot ↔
      (∃ e, wal.get? slot = some e ∧ e.term = term) ∧
      ∀ k e, wal.get? k = some e → e.term = term → slot ≤ k := by
  rw [findLowestSlotForTerm, List.min?_eq_some_iff, mem_slotsForTerm, forall_slotsForTerm_iff]

theorem findLowestSlotForTerm_eq_none_iff {term : Nat} :
    wal.findLowestSlotForTerm term = none ↔ ∀ slot e, wal.get? slot = some e → e.term ≠ term := by
  rw [← findHighestSlotForTerm_eq_none_iff, findLowestSlotForTerm, findHighestSlotForTerm,
    List.min?_eq_none_iff, List.max?_eq_none_iff]

/-! ## The end of the log -/

/-- No entry stands above `last`, and unless the log is empty one stands there. -/
structure EndsAt (last : Nat) : Prop where
  le : ∀ slot e, wal.get? slot = some e → slot ≤ last
  held : ∀ slot e, wal.get? slot = some e → ∃ e', wal.get? last = some e'

theorem EndsAt.append {wal : WriteAheadLog} {last : Nat} (h : wal.EndsAt last) {e : LogEntry}
    (hslot : e.slot = last + 1) : (wal.append e).EndsAt (last + 1) where
  le slot e' he' := by
    rw [get?_append] at he'
    split at he'
    · omega
    · have hle := h.le slot e' he'
      omega
  held _ _ _ := ⟨e, by rw [get?_append, if_pos hslot.symm]⟩

/-- The shipped tail ends at the end of the log. -/
theorem EndsAt.getEntriesFrom_getLast? {wal : WriteAheadLog} {last : Nat} (h : wal.EndsAt last)
    {slot : Nat} {e : LogEntry} (hlast : (wal.getEntriesFrom slot).getLast? = some e) :
    e.slot = last := by
  have hmem := (wal.mem_getEntriesFrom).mp (List.mem_of_getLast? hlast)
  obtain ⟨top, htop⟩ := h.held _ _ hmem.2
  exact Nat.le_antisymm (h.le _ _ hmem.2) (wal.le_of_getEntriesFrom_getLast? hlast htop)

/-- The shipped tail has consecutive slots, if the log holds them all up to `last`. -/
theorem getEntriesFrom_range {slot last : Nat}
    (h : ∀ k, slot ≤ k → ((∃ e, wal.get? k = some e) ↔ k ≤ last)) :
    (wal.getEntriesFrom slot).map LogEntry.slot = List.range' slot (last + 1 - slot) := by
  have hsorted : ((wal.getEntriesFrom slot).map LogEntry.slot).Pairwise (· < ·) := by
    have hkeys : (wal.getEntriesFrom slot).map LogEntry.slot =
        (wal.entries.filterKeys fun k => decide (slot ≤ k)).entries.map Prod.fst := by
      rw [getEntriesFrom, OrderedMap.values, List.map_map]
      refine List.map_congr_left fun e he => ?_
      have hget := OrderedMap.get?_eq_some_iff.mpr he
      rw [OrderedMap.get?_filterKeys] at hget
      split at hget
      · exact wal.keyed e.1 e.2 hget
      · cases hget
    rw [hkeys]
    exact OrderedMap.sorted _
  have hrange : (List.range' slot (last + 1 - slot)).Pairwise (· < ·) := List.pairwise_lt_range'
  have hperm : ((wal.getEntriesFrom slot).map LogEntry.slot).Perm
      (List.range' slot (last + 1 - slot)) := by
    refine (List.perm_ext_iff_of_nodup (hsorted.imp ne_of_lt) (hrange.imp ne_of_lt)).mpr ?_
    intro k
    rw [List.mem_range'_1, List.mem_map]
    constructor
    · rintro ⟨e, he, rfl⟩
      obtain ⟨hle, hget⟩ := (wal.mem_getEntriesFrom).mp he
      have hlast := (h _ hle).mp ⟨e, hget⟩
      omega
    · intro hk
      obtain ⟨e, he⟩ := (h k hk.1).mpr (by omega)
      have hslot := slot_of_get? he
      exact ⟨e, (wal.mem_getEntriesFrom).mpr ⟨by omega, hslot ▸ he⟩, hslot⟩
  exact hperm.eq_of_pairwise (fun _ _ _ _ hab hba => absurd hba (not_lt_of_gt hab)) hsorted hrange

/-! ## Logs without gaps -/

/-- The log holds the slots from 1 to `last`, and no others. -/
def ContiguousTo (last : Nat) : Prop :=
  ∀ slot, (∃ e, wal.get? slot = some e) ↔ 1 ≤ slot ∧ slot ≤ last

theorem contiguousTo_new : new.ContiguousTo 0 := by
  intro slot
  constructor
  · rintro ⟨e, he⟩
    cases he
  · intro hslot
    omega

namespace ContiguousTo
variable {wal : WriteAheadLog} {last : Nat}

theorem le (h : wal.ContiguousTo last) {slot : Nat} {e : LogEntry}
    (he : wal.get? slot = some e) : 1 ≤ slot ∧ slot ≤ last :=
  (h slot).mp ⟨e, he⟩

theorem append (h : wal.ContiguousTo last) {e : LogEntry} (hslot : e.slot = last + 1) :
    (wal.append e).ContiguousTo (last + 1) := by
  intro slot
  rw [get?_append]
  by_cases hs : slot = e.slot
  · rw [if_pos hs]
    exact ⟨fun _ => by omega, fun _ => ⟨e, rfl⟩⟩
  · rw [if_neg hs, h slot]
    omega

theorem endsAt (h : wal.ContiguousTo last) : wal.EndsAt last where
  le slot e he := (h.le he).2
  held slot e he := by
    have hbounds := h.le he
    exact (h last).mpr ⟨by omega, le_refl last⟩

end ContiguousTo

end WriteAheadLog
end SpannerPaxos
