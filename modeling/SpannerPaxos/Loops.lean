import Mathlib.Logic.Relation

/-! # Loops

A loop without a condition repeats its body on the state it carries: a turn goes
round again with the next state or leaves with the loop's result.  `loop` takes
at most the turns it is given and has no result if it has not left by then, so
that a loop need not end; `Visits` relates a state to those the loop comes to
from it.  An invariant says in which state a loop that leaves does so, a variant
that it leaves at all.
-/

/-- What one turn of a loop does. -/
inductive Turn (σ ρ : Type) where
  | again (s : σ)
  | leave (r : ρ)

/-- The result of the loop, if it leaves within so many turns. -/
def loop {σ ρ : Type} (body : σ → Turn σ ρ) : Nat → σ → Option ρ
  | 0, _ => none
  | turns + 1, s =>
    match body s with
    | .again t => loop body turns t
    | .leave r => some r

/-- The loop comes to a state: so many turns go round again before it. -/
abbrev Visits {σ ρ : Type} (body : σ → Turn σ ρ) : σ → σ → Prop :=
  Relation.ReflTransGen fun s t => body s = .again t

section
variable {σ ρ : Type} {body : σ → Turn σ ρ} {I : σ → Prop} {s t : σ}

/-- What holds at the start and is kept by every turn holds wherever the loop comes. -/
theorem Visits.invariant (h : Visits body s t) (h0 : I s)
    (hagain : ∀ a b, I a → body a = .again b → I b) : I t := by
  induction h with
  | refl => exact h0
  | tail _ hturn ih => exact hagain _ _ ih hturn

/-- A result is that of the turn which leaves. -/
theorem exists_visits_of_loop {turns : Nat} {r : ρ} (h : loop body turns s = some r) :
    ∃ t, Visits body s t ∧ body t = .leave r := by
  induction turns generalizing s with
  | zero => cases h
  | succ turns ih =>
    rw [loop] at h
    split at h
    · rename_i t hturn
      obtain ⟨u, hvisits, hleave⟩ := ih h
      exact ⟨u, .head hturn hvisits, hleave⟩
    · rename_i r' hturn
      exact ⟨s, .refl, Option.some.inj h ▸ hturn⟩

/-- **The termination rule for loops**: if every turn the loop comes to decreases the
variant or leaves, the loop leaves, within one turn more than the variant counts. -/
theorem loop_leaves (variant : σ → Nat)
    (hagain : ∀ a b, Visits body s a → body a = .again b → variant b < variant a)
    {turns : Nat} (h : variant s < turns) : ∃ r, loop body turns s = some r := by
  induction turns generalizing s with
  | zero => omega
  | succ turns ih =>
    cases hturn : body s with
    | again t =>
      have hlt := hagain s t .refl hturn
      obtain ⟨r, hr⟩ := ih (fun a b ha hb => hagain a b (.head hturn ha) hb)
        (show variant t < turns by omega)
      exact ⟨r, by rw [loop, hturn]; exact hr⟩
    | leave r => exact ⟨r, by rw [loop, hturn]⟩

end
