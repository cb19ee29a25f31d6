import SpannerPaxos.Recovery

/-! # The recovered entries are the highest-term ones

A Candidate merges the uncommitted entries of its voters, flushes what is not committed
into its own, and as a Leader writes all of it to the log under the new term.  Each loop
keeps an entry unless one of a higher term comes for its slot, so what is left at a slot
is an entry of the highest term there, whatever the order.
-/
namespace SpannerPaxos

/-- An entry of the highest term for a slot, among those that satisfy `P`. -/
structure IsHighest (P : LogEntry → Prop) (slot : Nat) (e : LogEntry) : Prop where
  mem : P e
  slot_eq : e.slot = slot
  le : ∀ e', P e' → e'.slot = slot → e'.term ≤ e.term

/-- The map holds an entry of the highest term at every slot that has one. -/
def HoldsHighest (logs : OrderedMap Nat LogEntry) (P : LogEntry → Prop) : Prop :=
  ∀ slot, (∀ e, logs.get? slot = some e → IsHighest P slot e) ∧
    (logs.get? slot = none → ∀ e, P e → e.slot ≠ slot)

namespace HoldsHighest
variable {logs : OrderedMap Nat LogEntry} {P Q : LogEntry → Prop}

theorem empty : HoldsHighest .empty fun _ => False := by
  intro slot
  refine ⟨?_, fun _ e he => he.elim⟩
  intro e he
  simp at he

theorem keyed (h : HoldsHighest logs P) : KeyedBySlot logs :=
  fun slot e he => ((h slot).1 e he).slot_eq

theorem congr (h : HoldsHighest logs P) (hiff : ∀ e, P e ↔ Q e) : HoldsHighest logs Q := by
  have hPQ : P = Q := funext fun e => propext (hiff e)
  rwa [← hPQ]

/-- The entries of a map at their own slots, as a set. -/
theorem of_keyed (h : KeyedBySlot logs) :
    HoldsHighest logs fun e => logs.get? e.slot = some e := by
  intro slot
  constructor
  · intro e he
    have hslot := h slot e he
    refine ⟨by rw [hslot]; exact he, hslot, ?_⟩
    intro e' he' hs
    rw [hs, he] at he'
    rw [Option.some.inj he']
  · intro hnone e he hs
    rw [hs, hnone] at he
    cases he

/-- One more entry. -/
theorem keep (h : HoldsHighest logs P) (x : LogEntry) :
    HoldsHighest (Candidate.keepHighestTerm logs x) fun e => P e ∨ e = x := by
  have hinserted : (∀ e, P e → e.slot = x.slot → e.term ≤ x.term) →
      HoldsHighest (logs.insert x.slot x) fun e => P e ∨ e = x := by
    intro hmax slot
    rw [OrderedMap.get?_insert]
    split
    · rename_i hslot
      refine ⟨?_, fun hnone => by cases hnone⟩
      intro e he
      cases Option.some.inj he
      refine ⟨Or.inr rfl, hslot.symm, ?_⟩
      rintro e' (he' | rfl) hs
      · exact hmax e' he' (hs.trans hslot)
      · exact le_refl _
    · rename_i hslot
      constructor
      · intro e he
        obtain ⟨hmem, heq, hle⟩ := (h slot).1 e he
        refine ⟨Or.inl hmem, heq, ?_⟩
        rintro e' (he' | rfl) hs
        · exact hle e' he' hs
        · exact absurd hs.symm hslot
      · rintro hnone e (he | rfl)
        · exact (h slot).2 hnone e he
        · exact Ne.symm hslot
  unfold Candidate.keepHighestTerm
  cases hget : logs.get? x.slot with
  | none => exact hinserted fun e he hs => absurd hs ((h x.slot).2 hget e he)
  | some existing =>
    have hexisting := (h x.slot).1 existing hget
    dsimp only
    split
    · rename_i hlt
      refine hinserted fun e he hs => ?_
      have hle := hexisting.le e he hs
      omega
    · rename_i hle
      intro slot
      constructor
      · intro e he
        obtain ⟨hmem, heq, hmax⟩ := (h slot).1 e he
        refine ⟨Or.inl hmem, heq, ?_⟩
        rintro e' (he' | rfl) hs
        · exact hmax e' he' hs
        · -- the new entry is for the slot of the existing one
          rw [hs] at hget
          cases Option.some.inj (hget.symm.trans he)
          omega
      · rintro hnone e (he | rfl)
        · exact (h slot).2 hnone e he
        · intro hs
          rw [hs, hnone] at hget
          cases hget

/-- Any number of entries. -/
theorem foldl (h : HoldsHighest logs P) (entries : List LogEntry) :
    HoldsHighest (entries.foldl Candidate.keepHighestTerm logs) fun e => P e ∨ e ∈ entries := by
  induction entries generalizing logs P with
  | nil => exact h.congr fun e => by simp
  | cons x entries ih =>
    refine (ih (h.keep x)).congr fun e => ?_
    rw [List.mem_cons, or_assoc]

/-- Two maps that hold the highest-term entries of one set are the same, if its entries
are determined by slot and term. -/
theorem unique {logs' : OrderedMap Nat LogEntry} (h : HoldsHighest logs P)
    (h' : HoldsHighest logs' P)
    (hconsistent : ∀ e e', P e → P e' → e.slot = e'.slot → e.term = e'.term → e = e') :
    logs = logs' := by
  refine OrderedMap.ext fun slot => ?_
  cases hget : logs.get? slot with
  | none =>
    cases hget' : logs'.get? slot with
    | none => rfl
    | some e' =>
      have he' := (h' slot).1 e' hget'
      exact absurd he'.slot_eq ((h slot).2 hget e' he'.mem)
  | some e =>
    have he := (h slot).1 e hget
    cases hget' : logs'.get? slot with
    | none => exact absurd he.slot_eq ((h' slot).2 hget' e he.mem)
    | some e' =>
      have he' := (h' slot).1 e' hget'
      have hterm := le_antisymm (he'.le e he.mem he.slot_eq) (he.le e' he'.mem he'.slot_eq)
      rw [hconsistent e e' he.mem he'.mem (he.slot_eq.trans he'.slot_eq.symm) hterm]

end HoldsHighest

namespace Candidate

/-- Flushing is keeping the highest term, over the pending entries that are not
committed. -/
theorem flushLoop_eq_foldl (committedSlot : Nat) (logs : OrderedMap Nat LogEntry)
    {pending : List (Nat × LogEntry)} (hkeyed : ∀ e ∈ pending, e.2.slot = e.1) :
    flushLoop committedSlot logs pending =
      ((pending.map Prod.snd).filter fun e => decide (committedSlot < e.slot)).foldl
        keepHighestTerm logs := by
  induction pending generalizing logs with
  | nil => rfl
  | cons x pending ih =>
    have hslot := hkeyed x List.mem_cons_self
    have htail := fun logs => ih logs fun e he => hkeyed e (List.mem_cons_of_mem _ he)
    by_cases hle : x.1 ≤ committedSlot
    · have hskip : ¬ committedSlot < x.2.slot := by omega
      rw [List.map_cons, List.filter_cons, if_neg (by simpa using hskip), ← htail]
      show pending.foldl _ (if x.1 ≤ committedSlot then logs else _) = _
      rw [if_pos hle]
      rfl
    · have hkeep : committedSlot < x.2.slot := by omega
      rw [List.map_cons, List.filter_cons, if_pos (by simpa using hkeep), List.foldl_cons,
        ← htail, keepHighestTerm, hslot]
      show pending.foldl _ (if x.1 ≤ committedSlot then logs else _) = _
      rw [if_neg hle]
      rfl

/-- An entry of the Candidate's own that is uncommitted, or of one of the Promises. -/
def Proposed (ctx : PaxosSharedContext) (promises : List VotePromise) (e : LogEntry) : Prop :=
  ctx.uncommittedLogs.get? e.slot = some e ∨ ∃ p ∈ promises, e ∈ p.uncommittedEntries

/-- The Candidate with the entries of the Promises merged, one Promise after the other. -/
def mergePromises (self : Candidate) (promises : List VotePromise) : Candidate :=
  promises.foldl (fun c promise => c.mergeUncommittedLogs promise.uncommittedEntries) self

/-- The context after the entries of the Promises have been merged, flushed and written. -/
def recoveredCtx (self : Candidate) (promises : List VotePromise) (ctx : PaxosSharedContext)
    (env : Env) : PaxosSharedContext :=
  ((Leader.new (self.mergePromises promises).scoreBoard).processUncommittedLogs
    ((self.mergePromises promises).flushUncommittedLogs ctx) env).state.2

variable {self : Candidate} {ctx : PaxosSharedContext} {promises : List VotePromise}

theorem mergePromises_pending (self : Candidate) (promises : List VotePromise) :
    (self.mergePromises promises).pendingUncommittedLogs =
      (promises.flatMap VotePromise.uncommittedEntries).foldl keepHighestTerm
        self.pendingUncommittedLogs := by
  unfold mergePromises
  induction promises generalizing self with
  | nil => rfl
  | cons promise promises ih =>
    rw [List.foldl_cons, ih, List.flatMap_cons, List.foldl_append]
    rfl

/-- What is flushed holds the highest-term entries above the commit point. -/
theorem flushUncommittedLogs_holdsHighest (promises : List VotePromise)
    (hpending : self.pendingUncommittedLogs = .empty)
    (hkeyed : KeyedBySlot ctx.uncommittedLogs)
    (hown : ∀ slot e, ctx.uncommittedLogs.get? slot = some e → ctx.committedSlot < slot) :
    HoldsHighest ((self.mergePromises promises).flushUncommittedLogs ctx).uncommittedLogs
      fun e => Proposed ctx promises e ∧ ctx.committedSlot < e.slot := by
  have hmerged : HoldsHighest (self.mergePromises promises).pendingUncommittedLogs
      fun e => ∃ p ∈ promises, e ∈ p.uncommittedEntries := by
    rw [mergePromises_pending, hpending]
    refine (HoldsHighest.empty.foldl _).congr fun e => ?_
    rw [false_or, List.mem_flatMap]
  have hpairs : ∀ e ∈ (self.mergePromises promises).pendingUncommittedLogs.entries,
      e.2.slot = e.1 := fun e he => hmerged.keyed e.1 e.2 (OrderedMap.get?_eq_some_iff.mpr he)
  show HoldsHighest (flushLoop ctx.committedSlot ctx.uncommittedLogs _) _
  rw [flushLoop_eq_foldl _ _ hpairs]
  -- what is flushed at a slot has the highest term of all that was merged for it
  have hflushed := (HoldsHighest.of_keyed hkeyed).foldl
    (((self.mergePromises promises).pendingUncommittedLogs.entries.map Prod.snd).filter
      fun e => decide (ctx.committedSlot < e.slot))
  have hmem : ∀ e, e ∈ ((self.mergePromises promises).pendingUncommittedLogs.entries.map
      Prod.snd).filter (fun e => decide (ctx.committedSlot < e.slot)) ↔
        (self.mergePromises promises).pendingUncommittedLogs.get? e.slot = some e ∧
          ctx.committedSlot < e.slot := by
    intro e
    rw [List.mem_filter, decide_eq_true_eq]
    refine and_congr_left fun _ => ?_
    refine (OrderedMap.mem_values_iff (v := e)).trans ⟨?_, fun h => ⟨e.slot, h⟩⟩
    rintro ⟨slot, hslot⟩
    rwa [hmerged.keyed slot e hslot]
  intro slot
  obtain ⟨hsome, hnone⟩ := hflushed slot
  constructor
  · intro e he
    obtain ⟨hin, hslot, hle⟩ := hsome e he
    refine ⟨?_, hslot, ?_⟩
    · rcases hin with hmine | hpromised
      · exact ⟨Or.inl hmine, hown _ e hmine⟩
      · obtain ⟨hget, hlt⟩ := (hmem e).mp hpromised
        exact ⟨Or.inr ((hmerged e.slot).1 e hget).mem, hlt⟩
    · rintro e' ⟨hmine | hpromised, hlt⟩ hs
      · exact hle e' (Or.inl hmine) hs
      · cases hget : (self.mergePromises promises).pendingUncommittedLogs.get? slot with
        | none => exact absurd hs ((hmerged slot).2 hget e' hpromised)
        | some best =>
          have hbest := (hmerged slot).1 best hget
          have hslot' := hbest.slot_eq
          refine le_trans (hbest.le e' hpromised hs) (hle best (Or.inr ((hmem best).mpr ?_)) hslot')
          exact ⟨by rw [hslot']; exact hget, by omega⟩
  · rintro hget e ⟨hmine | hpromised, hlt⟩ hs
    · exact hnone hget e (Or.inl hmine) hs
    · cases hbest : (self.mergePromises promises).pendingUncommittedLogs.get? slot with
      | none => exact (hmerged slot).2 hbest e hpromised hs
      | some best =>
        have hslot' := ((hmerged slot).1 best hbest).slot_eq
        refine hnone hget best (Or.inr ((hmem best).mpr ?_)) hslot'
        exact ⟨by rw [hslot']; exact hbest, by omega⟩

end Candidate

namespace Leader

/-- Equal uncommitted entries and equal logs are written alike. -/
theorem processUncommittedLogs_congr {self self' : Leader} {ctx ctx' : PaxosSharedContext}
    (env : Env) (h : ctx = ctx') :
    (self.processUncommittedLogs ctx env).state.2 =
      (self'.processUncommittedLogs ctx' env).state.2 := by
  subst h
  unfold processUncommittedLogs
  dsimp only
  split <;> rfl

end Leader

namespace Candidate
variable {self : Candidate} {ctx : PaxosSharedContext} {promises : List VotePromise}

/-- **Recovery picks the highest term.**  Where an entry is proposed above the commit point,
the log and the uncommitted entries hold the value and the timestamp of the highest-term
one, under the new term; the order of the Promises does not matter; what is committed
stays. -/
theorem recoveredCtx_highest (self : Candidate) (ctx : PaxosSharedContext)
    (promises : List VotePromise) (env : Env) (hpending : self.pendingUncommittedLogs = .empty)
    (hkeyed : KeyedBySlot ctx.uncommittedLogs)
    (hown : ∀ slot e, ctx.uncommittedLogs.get? slot = some e → ctx.committedSlot < slot)
    (hconsistent : ∀ e e', Proposed ctx promises e → Proposed ctx promises e' →
      e.slot = e'.slot → e.term = e'.term → e = e') :
    (∀ slot, ctx.committedSlot < slot → (∃ e, Proposed ctx promises e ∧ e.slot = slot) →
      ∃ e, IsHighest (Proposed ctx promises) slot e ∧
        (self.recoveredCtx promises ctx env).wal.get? slot = some { e with term := ctx.term } ∧
        (self.recoveredCtx promises ctx env).uncommittedLogs.get? slot =
          some { e with term := ctx.term }) ∧
    (∀ promises', promises'.Perm promises →
      self.recoveredCtx promises' ctx env = self.recoveredCtx promises ctx env) ∧
    ∀ slot, slot ≤ ctx.committedSlot →
      (self.recoveredCtx promises ctx env).wal.get? slot = ctx.wal.get? slot := by
  have hflushed := flushUncommittedLogs_holdsHighest promises hpending hkeyed hown
  obtain ⟨hrestamped, hkept⟩ := (Leader.new
    (self.mergePromises promises).scoreBoard).processUncommittedLogs_wal env hflushed.keyed
  refine ⟨?_, ?_, ?_⟩
  · rintro slot hlt ⟨e₀, hproposed, hslot₀⟩
    cases hget : ((self.mergePromises promises).flushUncommittedLogs
        ctx).uncommittedLogs.get? slot with
    | none => exact absurd hslot₀ ((hflushed slot).2 hget e₀ ⟨hproposed, by omega⟩)
    | some e =>
      obtain ⟨⟨hmem, _⟩, hslot, hle⟩ := (hflushed slot).1 e hget
      refine ⟨e, ⟨hmem, hslot, fun e' he' hs => hle e' ⟨he', by omega⟩ hs⟩,
        hrestamped slot e hget, ?_⟩
      rw [recoveredCtx, Leader.processUncommittedLogs_uncommittedLogs, OrderedMap.get?_mapValues,
        hget]
      rfl
  · intro promises' hperm
    have hsame : ∀ e, Proposed ctx promises' e ↔ Proposed ctx promises e := fun e =>
      or_congr_right (exists_congr fun p => and_congr_left fun _ => hperm.mem_iff)
    have hflushed' : HoldsHighest ((self.mergePromises promises').flushUncommittedLogs
        ctx).uncommittedLogs fun e => Proposed ctx promises e ∧ ctx.committedSlot < e.slot :=
      (flushUncommittedLogs_holdsHighest promises' hpending hkeyed hown).congr fun e =>
        and_congr_left fun _ => hsame e
    have hlogs := hflushed'.unique hflushed fun e e' he he' =>
      hconsistent e e' he.1 he'.1
    refine Leader.processUncommittedLogs_congr env ?_
    rw [flushUncommittedLogs, flushUncommittedLogs] at hlogs ⊢
    dsimp only at hlogs
    rw [hlogs]
  · intro slot hle
    refine hkept slot ?_
    cases hget : ((self.mergePromises promises).flushUncommittedLogs
        ctx).uncommittedLogs.get? slot with
    | none => rfl
    | some e =>
      obtain ⟨⟨_, hlt⟩, hslot, _⟩ := (hflushed slot).1 e hget
      omega

/-- A Candidate of term 3 with an uncommitted entry of term 1 at slot 1. -/
def overtaken : PaxosSharedContext :=
  { PaxosSharedContext.memberOfThree 1 with
    term := 3
    lastLogTerm := 1
    lastLogSlot := 1
    uncommittedLogs := OrderedMap.empty.insert 1 ⟨1, 1, "old", 0⟩
    wal := WriteAheadLog.new.append ⟨1, 1, "old", 0⟩ }

/-- A voter has an entry of term 2 there. -/
def overtaking : VotePromise := ⟨2, 1, [⟨2, 1, "new", 0⟩]⟩

theorem proposed_overtaken {e : LogEntry} (h : Proposed overtaken [overtaking] e) :
    e = ⟨1, 1, "old", 0⟩ ∨ e = ⟨2, 1, "new", 0⟩ := by
  rcases h with hmine | ⟨p, hp, he⟩
  · have hget : (OrderedMap.empty.insert 1 (⟨1, 1, "old", 0⟩ : LogEntry)).get? e.slot = some e :=
      hmine
    rw [OrderedMap.get?_insert] at hget
    split at hget
    · exact Or.inl (Option.some.inj hget).symm
    · simp at hget
  · cases List.mem_singleton.mp hp
    exact Or.inr (List.mem_singleton.mp he)

/-- The value of term 2 is recovered. -/
theorem recoveredCtx_highest_overtaken :
    ((new overtaken).recoveredCtx [overtaking] overtaken (.steady 0)).wal.get? 1 =
      some ⟨3, 1, "new", 0⟩ := by
  obtain ⟨hhighest, _, _⟩ := recoveredCtx_highest (new overtaken) overtaken [overtaking]
    (.steady 0) rfl
    (by
      intro slot e he
      rw [overtaken, OrderedMap.get?_insert] at he
      split at he
      · rename_i hslot
        cases Option.some.inj he
        exact hslot.symm
      · simp at he)
    (by
      intro slot e he
      rw [overtaken, OrderedMap.get?_insert] at he
      split at he
      · rename_i hslot
        rw [hslot]
        decide
      · simp at he)
    (by
      intro e e' he he' _ hterm
      rcases proposed_overtaken he with rfl | rfl
      · rcases proposed_overtaken he' with rfl | rfl
        · rfl
        · cases hterm
      · rcases proposed_overtaken he' with rfl | rfl
        · cases hterm
        · rfl)
  have hnew : Proposed overtaken [overtaking] ⟨2, 1, "new", 0⟩ :=
    Or.inr ⟨overtaking, List.mem_singleton.mpr rfl, List.mem_singleton.mpr rfl⟩
  obtain ⟨e, hbest, hwal, _⟩ := hhighest 1 (by decide) ⟨_, hnew, rfl⟩
  rcases proposed_overtaken hbest.mem with rfl | rfl
  · exact absurd (hbest.le _ hnew rfl) (by decide)
  · exact hwal

end Candidate
end SpannerPaxos
