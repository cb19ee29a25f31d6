import SpannerPaxos.Loops
import SpannerPaxos.WriteAheadLog
import Mathlib.Order.Bounds.Basic

/-! # The highest anchor

`find_highest_anchor` goes down from a term until the log holds an entry of the
term it is at, and returns that term with the highest slot that holds one.  A
turn scans the whole log for one term, so the log's terms may stand in any order
and have any gaps; what a search has behind it is that no term of the log is
above the one it is at and at most the one it began with (`RuledOut`).  The
terms of a search are machine words: a subtraction below zero would wrap around
to the highest term, and the search ends where the checked one refuses.
-/

/-- `checked_sub`: the difference, if it is not below zero. -/
def UInt32.checkedSub (a b : UInt32) : Option UInt32 := if b ≤ a then some (a - b) else none

/-- A checked difference has not wrapped around. -/
theorem UInt32.checkedSub_eq_some {a b c : UInt32} (h : a.checkedSub b = some c) :
    c.toNat + b.toNat = a.toNat := by
  unfold checkedSub at h
  split at h
  · rename_i hle
    have hle' := UInt32.le_iff_toNat_le.mp hle
    rw [← Option.some.inj h, UInt32.toNat_sub_of_le a b hle]
    omega
  · cases h

theorem UInt32.checkedSub_eq_none {a b : UInt32} (h : a.checkedSub b = none) :
    a.toNat < b.toNat := by
  unfold checkedSub at h
  split at h
  · cases h
  · rename_i hle
    exact Nat.lt_of_not_le fun h' => hle (UInt32.le_iff_toNat_le.mpr h')

namespace SpannerPaxos.WriteAheadLog
variable (wal : WriteAheadLog)

/-- One turn of the search: the highest slot of the current term, else one term down. -/
def anchorTurn (currentTerm : UInt32) : Turn UInt32 (Option (UInt32 × Nat)) :=
  match wal.findHighestSlotForTerm currentTerm.toNat with
  | some slot => .leave (some (currentTerm, slot))
  | none =>
    match currentTerm.checkedSub 1 with
    | some lower => .again lower
    | none => .leave none

/-- What the search returns, if it returns within so many turns. -/
def findHighestAnchor (turns : Nat) (term : UInt32) : Option (Option (UInt32 × Nat)) :=
  loop wal.anchorTurn turns term

/-- The terms of the log that are not above a term. -/
def termsUpTo (term : UInt32) : Set Nat :=
  {t | t ≤ term.toNat ∧ ∃ slot, wal.getTerm slot = some t}

/-- The slots that hold an entry of a term. -/
def slotsOf (term : UInt32) : Set Nat := {slot | wal.getTerm slot = some term.toNat}

/-- The greatest term of the log that is not above `term`, and the greatest slot that
holds an entry of it. -/
structure IsHighestAnchor (term anchorTerm : UInt32) (anchorSlot : Nat) : Prop where
  greatestTerm : IsGreatest (wal.termsUpTo term) anchorTerm.toNat
  greatestSlot : IsGreatest (wal.slotsOf anchorTerm) anchorSlot

/-- The search has come from `term` to `currentTerm`: no term of the log is between. -/
structure RuledOut (term currentTerm : UInt32) : Prop where
  le : currentTerm.toNat ≤ term.toNat
  below : ∀ t ∈ wal.termsUpTo term, t ≤ currentTerm.toNat

variable {wal}

theorem findHighestSlotForTerm_isGreatest {term : UInt32} {slot : Nat}
    (h : wal.findHighestSlotForTerm term.toNat = some slot) :
    IsGreatest (wal.slotsOf term) slot := by
  obtain ⟨hheld, hmax⟩ := wal.findHighestSlotForTerm_eq_some_iff.mp h
  refine ⟨getTerm_eq_some_iff.mpr hheld, fun k hk => ?_⟩
  obtain ⟨e, he, hterm⟩ := getTerm_eq_some_iff.mp hk
  exact hmax k e he hterm

theorem findHighestSlotForTerm_absent {term : UInt32}
    (h : wal.findHighestSlotForTerm term.toNat = none) (slot : Nat) :
    wal.getTerm slot ≠ some term.toNat := by
  intro hslot
  obtain ⟨e, he, hterm⟩ := getTerm_eq_some_iff.mp hslot
  exact wal.findHighestSlotForTerm_eq_none_iff.mp h slot e he hterm

/-- A turn that goes round again found nothing, and goes down by exactly one term. -/
theorem anchorTurn_again {currentTerm lower : UInt32}
    (h : wal.anchorTurn currentTerm = .again lower) :
    lower.toNat + 1 = currentTerm.toNat ∧ ∀ slot, wal.getTerm slot ≠ some currentTerm.toNat := by
  unfold anchorTurn at h
  split at h
  · cases h
  · rename_i habsent
    split at h
    · rename_i hsub
      cases h
      exact ⟨UInt32.checkedSub_eq_some hsub, findHighestSlotForTerm_absent habsent⟩
    · cases h

/-- A turn that leaves found the highest slot of its term, or has no term below it. -/
theorem anchorTurn_leave {currentTerm : UInt32} {found : Option (UInt32 × Nat)}
    (h : wal.anchorTurn currentTerm = .leave found) :
    (∃ slot, found = some (currentTerm, slot) ∧ IsGreatest (wal.slotsOf currentTerm) slot) ∨
    found = none ∧ currentTerm.toNat = 0 ∧ ∀ slot, wal.getTerm slot ≠ some currentTerm.toNat := by
  unfold anchorTurn at h
  split at h
  · rename_i slot hslot
    cases h
    exact Or.inl ⟨slot, rfl, findHighestSlotForTerm_isGreatest hslot⟩
  · rename_i habsent
    split at h
    · cases h
    · rename_i hsub
      cases h
      have hlt := UInt32.checkedSub_eq_none hsub
      exact Or.inr ⟨rfl, Nat.lt_one_iff.mp hlt, findHighestSlotForTerm_absent habsent⟩

/-! ## What a search has behind it -/

namespace RuledOut
variable {term currentTerm lower : UInt32}

theorem start (term : UInt32) : wal.RuledOut term term where
  le := le_refl _
  below _ ht := ht.1

/-- The step: the term left behind is ruled out too. -/
theorem again (h : wal.RuledOut term currentTerm)
    (hturn : wal.anchorTurn currentTerm = .again lower) : wal.RuledOut term lower := by
  obtain ⟨hlower, habsent⟩ := anchorTurn_again hturn
  have hle := h.le
  refine ⟨by omega, fun t ht => ?_⟩
  have hbelow := h.below t ht
  obtain ⟨slot, hslot⟩ := ht.2
  have hne : t ≠ currentTerm.toNat := by
    rintro rfl
    exact habsent slot hslot
  omega

/-- An entry found where everything above is ruled out is the highest anchor. -/
theorem isHighestAnchor (h : wal.RuledOut term currentTerm) {slot : Nat}
    (hslot : IsGreatest (wal.slotsOf currentTerm) slot) :
    wal.IsHighestAnchor term currentTerm slot where
  greatestTerm := ⟨⟨h.le, slot, hslot.1⟩, h.below⟩
  greatestSlot := hslot

/-- Nothing found at term 0 rules every term out. -/
theorem termsUpTo_empty (h : wal.RuledOut term currentTerm) (hzero : currentTerm.toNat = 0)
    (habsent : ∀ slot, wal.getTerm slot ≠ some currentTerm.toNat) {t : Nat} :
    t ∉ wal.termsUpTo term := by
  intro ht
  have hle := h.below t ht
  obtain ⟨slot, hslot⟩ := ht.2
  have heq : t = currentTerm.toNat := by omega
  exact habsent slot (heq ▸ hslot)

end RuledOut

/-- There is one highest anchor at most. -/
theorem IsHighestAnchor.unique {term t t' : UInt32} {slot slot' : Nat}
    (h : wal.IsHighestAnchor term t slot) (h' : wal.IsHighestAnchor term t' slot') :
    t = t' ∧ slot = slot' := by
  have hterm : t = t' := UInt32.toNat_inj.mp (h.greatestTerm.unique h'.greatestTerm)
  subst hterm
  exact ⟨rfl, h.greatestSlot.unique h'.greatestSlot⟩

/-- A search that leaves found the highest anchor, or there is nothing to find. -/
theorem findHighestAnchor_cases {turns : Nat} {term : UInt32} {found : Option (UInt32 × Nat)}
    (h : wal.findHighestAnchor turns term = some found) :
    (∃ t slot, found = some (t, slot) ∧ wal.IsHighestAnchor term t slot) ∨
    found = none ∧ ∀ t, t ∉ wal.termsUpTo term := by
  obtain ⟨currentTerm, hvisits, hleave⟩ := exists_visits_of_loop h
  have hruled : wal.RuledOut term currentTerm :=
    hvisits.invariant (RuledOut.start term) fun _ _ => RuledOut.again
  rcases anchorTurn_leave hleave with ⟨slot, hfound, hslot⟩ | ⟨hfound, hzero, habsent⟩
  · exact Or.inl ⟨currentTerm, slot, hfound, hruled.isHighestAnchor hslot⟩
  · exact Or.inr ⟨hfound, fun _ => hruled.termsUpTo_empty hzero habsent⟩

/-- **The search for the highest anchor**: it ends within one turn more than the term
counts, no subtraction on its way wraps around, and what it returns is the highest
anchor, or none exactly if every term of the log is above the one searched for. -/
theorem findHighestAnchor_highest (wal : WriteAheadLog) (term : UInt32) :
    (∃ found, wal.findHighestAnchor (term.toNat + 1) term = some found) ∧
    (∀ currentTerm lower, Visits wal.anchorTurn term currentTerm →
      wal.anchorTurn currentTerm = .again lower → lower.toNat + 1 = currentTerm.toNat) ∧
    ∀ turns found, wal.findHighestAnchor turns term = some found →
      (∀ t slot, found = some (t, slot) ↔ wal.IsHighestAnchor term t slot) ∧
      (found = none ↔ ∀ slot t, wal.getTerm slot = some t → term.toNat < t) := by
  refine ⟨?_, fun _ _ _ hturn => (anchorTurn_again hturn).1, fun turns found h => ?_⟩
  · refine loop_leaves UInt32.toNat (fun a b _ hturn => ?_) (Nat.lt_succ_self _)
    have hlower := (anchorTurn_again hturn).1
    omega
  · rcases findHighestAnchor_cases h with ⟨t, slot, rfl, hanchor⟩ | ⟨rfl, hempty⟩
    · refine ⟨fun t' slot' => ⟨?_, fun h' => ?_⟩, ?_⟩
      · rintro ⟨⟩
        exact hanchor
      · obtain ⟨rfl, rfl⟩ := hanchor.unique h'
        rfl
      · -- the anchor's own term is not above the one searched for
        refine iff_of_false (by simp) fun habove => ?_
        have hlt := habove slot t.toNat hanchor.greatestSlot.1
        have hle := hanchor.greatestTerm.1.1
        omega
    · refine ⟨fun t slot => iff_of_false (by simp) fun h' => hempty _ h'.greatestTerm.1, ?_⟩
      refine iff_of_true rfl fun slot t hslot => Nat.lt_of_not_le fun hle => ?_
      exact hempty t ⟨hle, slot, hslot⟩

-- the terms stand out of order, and the search from 4 passes over 3
example : ((new.append ⟨5, 1, "a", 0⟩).append ⟨2, 2, "b", 0⟩).findHighestAnchor 3 4 =
    some (some (2, 2)) := by decide

end SpannerPaxos.WriteAheadLog
