import Mathlib.Data.List.Sort
import Mathlib.Data.List.Nodup
import Mathlib.Data.List.Perm.Subperm

/-! # Quorums and order statistics

A value that stands `i`-th among values in descending order is reached by more
than `i` of them: this is what a protocol relies on that takes "the weakest value
of a quorum" from a sorted list.  A quorum of members without a property leaves
only the others to have it.
-/
namespace Quorum

section
variable {α : Type} [LinearOrder α] {l : List α} {i : Nat} {a : α}

/-- More than `i` values reach the `i`-th in descending order. -/
theorem lt_countP_of_getElem? (h : (l.insertionSort (· ≥ ·))[i]? = some a) :
    i < l.countP fun b => decide (a ≤ b) := by
  obtain ⟨hi, ha⟩ := List.getElem?_eq_some_iff.mp h
  have hsorted := List.pairwise_insertionSort (· ≥ ·) l
  have hreach : ∀ b ∈ (l.insertionSort (· ≥ ·)).take (i + 1), decide (a ≤ b) = true := by
    intro b hb
    obtain ⟨j, hj, rfl⟩ := List.mem_iff_getElem.mp hb
    rw [List.length_take] at hj
    rw [List.getElem_take, decide_eq_true_eq, ← ha]
    rcases Nat.lt_or_ge j i with hlt | hge
    · exact List.pairwise_iff_getElem.mp hsorted j i (by omega) hi hlt
    · have heq : j = i := by omega
      subst heq
      exact le_refl _
  have htake : ((l.insertionSort (· ≥ ·)).take (i + 1)).countP (fun b => decide (a ≤ b)) =
      i + 1 := by
    rw [List.countP_eq_length.mpr hreach, List.length_take]
    omega
  have hle := (List.take_sublist (i + 1) (l.insertionSort (· ≥ ·))).countP_le
    (p := fun b => decide (a ≤ b))
  have hperm := (List.perm_insertionSort (· ≥ ·) l).countP_eq fun b => decide (a ≤ b)
  omega

/-- The order of the values does not matter. -/
theorem insertionSort_congr {l' : List α} (h : l.Perm l') :
    l.insertionSort (· ≥ ·) = l'.insertionSort (· ≥ ·) := by
  refine List.Perm.eq_of_pairwise' (List.pairwise_insertionSort _ l)
    (List.pairwise_insertionSort _ l') ?_
  exact (List.perm_insertionSort _ l).trans (h.trans (List.perm_insertionSort _ l').symm)

/-- A value that the `k` greatest values reach is reached by `k` of the values. -/
theorem le_countP_of_forall_take {k : Nat} (hk : k ≤ l.length)
    (h : ∀ b ∈ (l.insertionSort (· ≥ ·)).take k, a ≤ b) :
    k ≤ l.countP fun b => decide (a ≤ b) := by
  rcases Nat.eq_zero_or_pos k with rfl | hpos
  · exact Nat.zero_le _
  have hlt : k - 1 < (l.insertionSort (· ≥ ·)).length := by
    rw [List.length_insertionSort]
    omega
  have hmem : (l.insertionSort (· ≥ ·))[k - 1] ∈ (l.insertionSort (· ≥ ·)).take k := by
    refine List.mem_iff_getElem.mpr ⟨k - 1, ?_, ?_⟩
    · rw [List.length_take]
      omega
    · rw [List.getElem_take]
  have hcount := lt_countP_of_getElem? (List.getElem?_eq_getElem hlt)
  have hmono : l.countP (fun b => decide ((l.insertionSort (· ≥ ·))[k - 1] ≤ b)) ≤
      l.countP fun b => decide (a ≤ b) := by
    refine List.countP_mono_left ?_
    intro b _ hb
    exact decide_eq_true (le_trans (h _ hmem) (of_decide_eq_true hb))
  omega

/-- Conversely, a value reached by more than `i` values is reached by the `i`-th. -/
theorem exists_getElem?_of_lt_countP (h : i < l.countP fun b => decide (a ≤ b)) :
    ∃ b, (l.insertionSort (· ≥ ·))[i]? = some b ∧ a ≤ b := by
  have hlen : i < (l.insertionSort (· ≥ ·)).length := by
    rw [List.length_insertionSort]
    exact lt_of_lt_of_le h List.countP_le_length
  refine ⟨_, List.getElem?_eq_getElem hlen, ?_⟩
  by_contra hlow
  have hsorted := List.pairwise_insertionSort (· ≥ ·) l
  -- everything from the `i`-th value on is too small to count
  have hnone : ((l.insertionSort (· ≥ ·)).drop i).countP (fun b => decide (a ≤ b)) = 0 := by
    refine List.countP_eq_zero.mpr ?_
    intro b hb
    obtain ⟨j, hj, rfl⟩ := List.mem_iff_getElem.mp hb
    rw [List.length_drop] at hj
    rw [List.getElem_drop, decide_eq_true_eq, not_le]
    refine lt_of_le_of_lt ?_ (not_le.mp hlow)
    rcases Nat.eq_zero_or_pos j with rfl | hpos
    · exact le_refl _
    · exact List.pairwise_iff_getElem.mp hsorted i (i + j) hlen (by omega) (by omega)
  have hsplit := congrArg (List.countP fun b => decide (a ≤ b))
    (List.take_append_drop i (l.insertionSort (· ≥ ·)))
  rw [List.countP_append, hnone, Nat.add_zero] at hsplit
  have htake : ((l.insertionSort (· ≥ ·)).take i).countP (fun b => decide (a ≤ b)) ≤ i :=
    le_trans List.countP_le_length (List.length_take_le i _)
  have hperm := (List.perm_insertionSort (· ≥ ·) l).countP_eq fun b => decide (a ≤ b)
  omega

/-- The `k` greatest values reach exactly what `k` of the values reach, as far as there
are so many. -/
theorem forall_take_iff {k : Nat} :
    (∀ b ∈ (l.insertionSort (· ≥ ·)).take k, a ≤ b) ↔
      min k l.length ≤ l.countP fun b => decide (a ≤ b) := by
  constructor
  · intro h
    refine le_countP_of_forall_take (min_le_right k l.length) fun b hb => h b ?_
    rw [List.take_eq_take_min, List.length_insertionSort]
    exact hb
  · intro h b hb
    obtain ⟨j, hj, rfl⟩ := List.mem_iff_getElem.mp hb
    rw [List.length_take, List.length_insertionSort] at hj
    obtain ⟨b', hb', hle⟩ := exists_getElem?_of_lt_countP (lt_of_lt_of_le hj h)
    rw [List.getElem_take]
    rwa [← (List.getElem?_eq_some_iff.mp hb').2] at hle

end

/-- The members with a property and a set of members without it fit into the group. -/
theorem length_filter_add_le {α : Type} {group Q : List α} {p : α → Bool} (hQ : Q.Nodup)
    (hsub : ∀ q ∈ Q, q ∈ group) (hnot : ∀ q ∈ Q, p q = false) :
    (group.filter p).length + Q.length ≤ group.length := by
  have hle : Q.length ≤ (group.filter fun q => !p q).length := by
    refine (List.subperm_of_subset hQ ?_).length_le
    intro q hq
    exact List.mem_filter.mpr ⟨hsub q hq, by rw [hnot q hq]; rfl⟩
  have hsplit := List.length_eq_countP_add_countP p (l := group)
  rw [← List.countP_eq_length_filter] at hle ⊢
  have hneg : group.countP (fun q => !p q) = group.countP fun q => decide (¬ p q = true) := by
    congr 1
    funext q
    cases p q <;> rfl
  omega

end Quorum
