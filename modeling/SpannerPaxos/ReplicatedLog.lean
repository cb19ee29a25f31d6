import Mathlib.Logic.Function.Basic

/-! # Replicated logs

A log is a partial function from slots to entries, and an entry has a term.
Slots count from 1, so an agreement up to a slot says nothing about slot 0.  Two
logs match if a shared slot and term means that they agree up to it.  A replica
that agrees with its source up to an anchor may take over any stretch of the
source behind it: it then agrees with the source up to the end of the stretch,
and it matches whatever the source matches.  A new tail keeps a log matching only if
its term is new to the others.
-/
namespace ReplicatedLog

variable {ε τ : Type}

/-- The two logs are the same on the slots `1, …, s`. -/
def SameUpTo (l l' : Nat → Option ε) (s : Nat) : Prop := ∀ k, 1 ≤ k → k ≤ s → l k = l' k

namespace SameUpTo
variable {l l' l'' : Nat → Option ε} {s s' : Nat}

theorem refl (l : Nat → Option ε) (s : Nat) : SameUpTo l l s := fun _ _ _ => rfl

theorem zero (l l' : Nat → Option ε) : SameUpTo l l' 0 := fun k hk hk' => by omega

theorem symm (h : SameUpTo l l' s) : SameUpTo l' l s := fun k hk hk' => (h k hk hk').symm

theorem trans (h : SameUpTo l l' s) (h' : SameUpTo l' l'' s) : SameUpTo l l'' s :=
  fun k hk hk' => (h k hk hk').trans (h' k hk hk')

theorem mono (h : SameUpTo l l' s) (hle : s' ≤ s) : SameUpTo l l' s' :=
  fun k hk hk' => h k hk (Nat.le_trans hk' hle)

end SameUpTo

/-- A shared slot and term means agreement up to it. -/
def Matching (term : ε → τ) (l l' : Nat → Option ε) : Prop :=
  ∀ s e e', l s = some e → l' s = some e' → term e = term e' → SameUpTo l l' s

/-- The replica `l` takes over the source's slots `p + 1, …, r` and drops the rest
above `p`. -/
def splice (l source : Nat → Option ε) (p r : Nat) : Nat → Option ε := fun k =>
  if k ≤ p then l k else if k ≤ r then source k else none

section
variable (l source : Nat → Option ε) {p r k : Nat}

theorem splice_of_le (h : k ≤ p) : splice l source p r k = l k := if_pos h

theorem splice_of_lt_of_le (h : p < k) (h' : k ≤ r) : splice l source p r k = source k := by
  rw [splice, if_neg (by omega), if_pos h']

theorem splice_of_gt (h : p < k) (h' : r < k) : splice l source p r k = none := by
  rw [splice, if_neg (by omega), if_neg (by omega)]

end

/-- What a replica takes over does not depend on the source above the stretch. -/
theorem splice_congr {l source source' : Nat → Option ε} {p r : Nat}
    (h : SameUpTo source source' r) : splice l source p r = splice l source' p r := by
  funext k
  unfold splice
  split
  · rfl
  · split
    · rename_i hp hr
      exact h k (by omega) hr
    · rfl

/-- **The replica catches up**: from agreement up to the anchor to agreement up to
the end of the stretch. -/
theorem sameUpTo_splice {l source : Nat → Option ε} {p r : Nat} (h : SameUpTo source l p) :
    SameUpTo source (splice l source p r) r := by
  intro k hk hr
  by_cases hp : k ≤ p
  · rw [splice_of_le l source hp]
    exact h k hk hp
  · rw [splice_of_lt_of_le l source (by omega) hr]

/-- A replica that has caught up holds nothing beyond the stretch. -/
theorem le_of_splice {l source : Nat → Option ε} {p r k : Nat} {e : ε} (hpr : p ≤ r)
    (h : splice l source p r k = some e) : k ≤ r := by
  by_contra hk
  rw [splice_of_gt l source (by omega) (by omega)] at h
  cases h

/-- The source's log with one more entry. -/
def append (source : Nat → Option ε) (s : Nat) (e : ε) : Nat → Option ε :=
  Function.update source s (some e)

/-- An entry behind the end changes nothing before it. -/
theorem sameUpTo_append {source : Nat → Option ε} {s n : Nat} (e : ε) (h : n < s) :
    SameUpTo source (append source s e) n := by
  intro k _ hk
  rw [append, Function.update_of_ne (by omega)]

/-- On the slots `1, …, s` the replica holds nothing but entries of the source. -/
def Within (source l : Nat → Option ε) (s : Nat) : Prop :=
  ∀ k e, 1 ≤ k → k ≤ s → l k = some e → source k = some e

namespace Within
variable {source l : Nat → Option ε} {s p r : Nat}

theorem of_sameUpTo (h : SameUpTo source l s) : Within source l s := by
  intro k e hk hs he
  rw [h k hk hs, he]

/-- A replica that is within the source up to the anchor is within it everywhere
once it has taken over a stretch: it keeps nothing above. -/
theorem splice (h : Within source l p) (s : Nat) :
    Within source (ReplicatedLog.splice l source p r) s := by
  intro k e hk _ he
  by_cases hp : k ≤ p
  · rw [splice_of_le l source hp] at he
    exact h k e hk hp he
  · by_cases hr : k ≤ r
    · rwa [splice_of_lt_of_le l source (by omega) hr] at he
    · rw [splice_of_gt l source (by omega) (by omega)] at he
      cases he

/-- An entry behind the end of the source leaves the replica within it. -/
theorem append (h : Within source l s) {slot : Nat} {e : ε}
    (hend : ∀ k e', source k = some e' → k < slot) :
    Within (ReplicatedLog.append source slot e) l s := by
  intro k e' hk hs he
  have hold := h k e' hk hs he
  have hlt := hend k e' hold
  rw [ReplicatedLog.append, Function.update_of_ne (by omega)]
  exact hold

/-- **What taking over a stretch keeps**: an entry within the source, if the stretch
reaches its slot. -/
theorem splice_eq_some (h : Within source l s) {k : Nat} {e : ε} (hs : k ≤ s) (hr : k ≤ r)
    (he : l k = some e) : ReplicatedLog.splice l source p r k = some e := by
  by_cases hp : k ≤ p
  · rwa [splice_of_le l source hp]
  · rw [splice_of_lt_of_le l source (by omega) hr]
    exact h k e (by omega) hs he

end Within

namespace Matching
variable {term : ε → τ} {l l' source : Nat → Option ε}

theorem refl (l : Nat → Option ε) : Matching term l l := fun s _ _ _ _ _ => .refl l s

theorem symm (h : Matching term l l') : Matching term l' l :=
  fun s e e' he he' ht => (h s e' e he' he ht.symm).symm

/-- Matching logs hold the same entry where they share a slot and a term. -/
theorem entry_eq (h : Matching term l l') {s : Nat} {e e' : ε} (hs : 1 ≤ s) (he : l s = some e)
    (he' : l' s = some e') (ht : term e = term e') : e = e' := by
  have hsame := h s e e' he he' ht s hs (Nat.le_refl s)
  rw [he, he'] at hsame
  exact Option.some.inj hsame

/-- **Catching up keeps logs matching**: the replica matches whatever the source
matches. -/
theorem splice {p r : Nat} (hsame : SameUpTo source l p) (hpr : p ≤ r)
    (h : Matching term source l') :
    Matching term (splice l source p r) l' := by
  intro s e e' he he' ht
  rcases Nat.eq_zero_or_pos s with rfl | hs
  · exact .zero _ _
  have hr := le_of_splice hpr he
  have hcaught := sameUpTo_splice hsame (r := r)
  have hsource : source s = some e := by rw [hcaught s hs hr, he]
  exact ((hcaught.mono hr).symm).trans (h s e e' hsource he' ht)

/-- **Appending keeps logs matching**, when nothing stands at or above the new
slot in the source, and the other log has no entry of the new term there. -/
theorem append {s : Nat} {e : ε} (h : Matching term source l')
    (hend : ∀ k e, source k = some e → k < s)
    (hfresh : ∀ e', l' s = some e' → term e' ≠ term e) :
    Matching term (append source s e) l' := by
  intro k e₁ e₂ he₁ he₂ ht
  by_cases hk : k = s
  · subst hk
    rw [ReplicatedLog.append, Function.update_self] at he₁
    cases he₁
    exact absurd ht.symm (hfresh e₂ he₂)
  · rw [ReplicatedLog.append, Function.update_of_ne hk] at he₁
    exact ((sameUpTo_append e (hend k e₁ he₁)).symm).trans (h k e₁ e₂ he₁ he₂ ht)

end Matching

/-- Entries of one term come from one log: wherever the two logs have entries of one term,
they agree up to the lower of the slots. -/
def Coherent (term : ε → τ) (l l' : Nat → Option ε) : Prop :=
  ∀ s s' e e', l s = some e → l' s' = some e' → term e = term e' → SameUpTo l l' (min s s')

namespace Coherent
variable {term : ε → τ} {l l' source : Nat → Option ε}

theorem refl (l : Nat → Option ε) : Coherent term l l := fun _ _ _ _ _ _ _ => .refl l _

theorem symm (h : Coherent term l l') : Coherent term l' l := by
  intro s s' e e' he he' ht
  rw [Nat.min_comm]
  exact (h s' s e' e he' he ht.symm).symm

/-- **Catching up keeps logs coherent**: the replica holds nothing but what the source
holds. -/
theorem splice {p r : Nat} (hsame : SameUpTo source l p) (hpr : p ≤ r)
    (h : Coherent term source l') : Coherent term (splice l source p r) l' := by
  intro s s' e e' he he' ht
  rcases Nat.eq_zero_or_pos s with rfl | hs
  · rw [Nat.zero_min]
    exact .zero _ _
  have hr := le_of_splice hpr he
  have hcaught := sameUpTo_splice hsame (r := r)
  have hsource : source s = some e := by rw [hcaught s hs hr, he]
  exact (hcaught.mono (by omega)).symm.trans (h s s' e e' hsource he' ht)

/-- **Appending keeps logs coherent**, when nothing stands at or above the new slot in the
source, and what the other log has of the new term is the source's. -/
theorem append {s : Nat} {e : ε} (h : Coherent term source l')
    (hend : ∀ k e, source k = some e → k < s)
    (hown : ∀ k e', 1 ≤ k → l' k = some e' → term e' = term e → source k = some e') :
    Coherent term (append source s e) l' := by
  intro k k' e₁ e₂ he₁ he₂ ht
  by_cases hk : k = s
  · subst hk
    rw [ReplicatedLog.append, Function.update_self] at he₁
    cases he₁
    rcases Nat.eq_zero_or_pos k' with rfl | hpos
    · rw [Nat.min_zero]
      exact .zero _ _
    · have hold := hown k' e₂ hpos he₂ ht.symm
      have hlt := hend k' e₂ hold
      have hsame := h k' k' e₂ e₂ hold he₂ rfl
      rw [Nat.min_self] at hsame
      rw [Nat.min_eq_right (Nat.le_of_lt hlt)]
      exact (sameUpTo_append e hlt).symm.trans hsame
  · rw [ReplicatedLog.append, Function.update_of_ne hk] at he₁
    have hlt := hend k e₁ he₁
    exact ((sameUpTo_append e (by omega)).symm).trans (h k k' e₁ e₂ he₁ he₂ ht)

end Coherent

/-- The log `l'` has entries of the term `t` on the slots in `R`, above everything
else of the log `l`, and is `l` off them. -/
structure NewTail (term : ε → τ) (l l' : Nat → Option ε) (R : Nat → Prop) (t : τ) : Prop where
  changed : ∀ k, R k → ∃ e, l' k = some e ∧ term e = t
  kept : ∀ k, ¬ R k → l' k = l k
  tail : ∀ k k' e, R k' → l k = some e → k < k' ∨ R k

namespace NewTail
variable {term : ε → τ} {l l' other : Nat → Option ε} {R : Nat → Prop} {t : τ}

/-- Below the tail nothing changes. -/
theorem sameUpTo (h : NewTail term l l' R t) {m : Nat} (hm : ∀ k, R k → m < k) :
    SameUpTo l' l m := by
  intro k _ hk
  refine h.kept k ?_
  intro hR
  have hlt := hm k hR
  omega

/-- **A tail of a new term keeps logs matching**: the other log cannot share it. -/
theorem matching (h : NewTail term l l' R t) (hnew : ∀ k e, other k = some e → term e ≠ t)
    (hmatch : Matching term l other) : Matching term l' other := by
  intro k e e' he he' ht
  by_cases hR : R k
  · obtain ⟨e₁, he₁, ht₁⟩ := h.changed k hR
    cases Option.some.inj (he.symm.trans he₁)
    exact absurd (ht.symm.trans ht₁) (hnew k e' he')
  · have hold : l k = some e := (h.kept k hR).symm.trans he
    refine (h.sameUpTo ?_).trans (hmatch k e e' hold he' ht)
    intro k' hR'
    rcases h.tail k k' e hR' hold with hlt | hR''
    · exact hlt
    · exact absurd hR'' hR

/-- A slot that held an entry goes on holding one. -/
theorem exists_of_some (h : NewTail term l l' R t) {k : Nat} {e : ε} (he : l k = some e) :
    ∃ e', l' k = some e' := by
  by_cases hR : R k
  · obtain ⟨e', he', _⟩ := h.changed k hR
    exact ⟨e', he'⟩
  · exact ⟨e, (h.kept k hR).trans he⟩

end NewTail
end ReplicatedLog
