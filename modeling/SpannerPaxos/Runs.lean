import Mathlib.Data.Option.Basic

/-! # Runs of a labelled machine

A machine is a partial step function `step : σ → ℓ → Option σ`: every choice
the environment makes is in the label, and `none` means that the label is not
enabled.  `Runs step ok s t` says that `t` is reached from `s` by steps each of
which satisfies the guard `ok` on the state it is taken in.  An invariant needs
its step lemma only for guarded steps, and a simulation carries a guarded run of
one machine to a guarded run of another.
-/

/-- Guarded reachability. -/
inductive Runs {σ ℓ : Type} (step : σ → ℓ → Option σ) (ok : σ → ℓ → Prop) : σ → σ → Prop
  | refl (s : σ) : Runs step ok s s
  | tail {s t u : σ} (l : ℓ) : Runs step ok s t → ok t l → step t l = some u → Runs step ok s u

/-- Unguarded reachability. -/
abbrev Reaches {σ ℓ : Type} (step : σ → ℓ → Option σ) : σ → σ → Prop :=
  Runs step fun _ _ => True

/-- Run the machine over a list of labels. -/
def exec {σ ℓ : Type} (step : σ → ℓ → Option σ) (s : σ) : List ℓ → Option σ
  | [] => some s
  | l :: ls => (step s l).bind fun t => exec step t ls

/-- Run the machine over a list of labels, each of which must meet the guard. -/
def execOk {σ ℓ : Type} (step : σ → ℓ → Option σ) (ok : σ → ℓ → Prop)
    [∀ s l, Decidable (ok s l)] (s : σ) : List ℓ → Option σ
  | [] => some s
  | l :: ls => if ok s l then (step s l).bind fun t => execOk step ok t ls else none

namespace Runs
variable {σ ℓ σ' ℓ' : Type} {step : σ → ℓ → Option σ} {ok : σ → ℓ → Prop} {s t u : σ}

theorem trans (h : Runs step ok s t) (h' : Runs step ok t u) : Runs step ok s u := by
  induction h' with
  | refl => exact h
  | tail l _ hok hstep ih => exact ih.tail l hok hstep

theorem head (l : ℓ) (hok : ok s l) (hstep : step s l = some t) (h : Runs step ok t u) :
    Runs step ok s u :=
  ((Runs.refl s).tail l hok hstep).trans h

/-- A run under a guard is a run under a weaker one. -/
theorem mono {okTo : σ → ℓ → Prop} (h : Runs step ok s t) (hok : ∀ a l, ok a l → okTo a l) :
    Runs step okTo s t := by
  induction h with
  | refl => exact .refl _
  | tail l _ hl hstep ih => exact ih.tail l (hok _ l hl) hstep

/-- **The invariant rule**: what holds at the start and is kept by every guarded
step holds wherever a guarded run ends. -/
theorem invariant {P : σ → Prop} (h : Runs step ok s t) (h0 : P s)
    (hstep : ∀ a l b, P a → ok a l → step a l = some b → P b) : P t := by
  induction h with
  | refl => exact h0
  | tail l _ hok hs ih => exact hstep _ _ _ ih hok hs

/-- **The simulation rule**: under an invariant, guarded steps that map to
guarded steps map runs to runs. -/
theorem simulate {step' : σ' → ℓ' → Option σ'} {okTo : σ' → ℓ' → Prop} {P : σ → Prop}
    (f : σ → σ') (g : ℓ → ℓ') (h : Runs step ok s t) (h0 : P s)
    (hP : ∀ a l b, P a → ok a l → step a l = some b → P b)
    (hsim : ∀ a l b, P a → ok a l → step a l = some b →
      okTo (f a) (g l) ∧ step' (f a) (g l) = some (f b)) :
    Runs step' okTo (f s) (f t) := by
  induction h with
  | refl => exact .refl _
  | tail l hrun hok hs ih =>
    obtain ⟨hok', hs'⟩ := hsim _ _ _ (hrun.invariant h0 hP) hok hs
    exact ih.tail (g l) hok' hs'

/-- An executed list of labels is a run, if they meet the guard in every state. -/
theorem of_exec_of_forall (ls : List ℓ) (hok : ∀ l ∈ ls, ∀ a, ok a l)
    (h : exec step s ls = some t) : Runs step ok s t := by
  induction ls generalizing s with
  | nil => exact Option.some.inj h ▸ Runs.refl s
  | cons l ls ih =>
    obtain ⟨m, hm, hrest⟩ := Option.bind_eq_some_iff.mp h
    obtain ⟨hhead, htail⟩ := List.forall_mem_cons.mp hok
    exact .head l (hhead s) hm (ih htail hrest)

/-- An executed list of labels is a run. -/
theorem of_exec (ls : List ℓ) (h : exec step s ls = some t) : Reaches step s t :=
  of_exec_of_forall ls (fun _ _ _ => trivial) h

theorem exec_append (ls ls' : List ℓ) :
    exec step s (ls ++ ls') = (exec step s ls).bind fun t => exec step t ls' := by
  induction ls generalizing s with
  | nil => rfl
  | cons l ls ih =>
    rw [List.cons_append, exec, exec]
    cases step s l with
    | none => rfl
    | some t => exact ih

/-- A run is an executed list of labels. -/
theorem exists_exec (h : Runs step ok s t) : ∃ ls, exec step s ls = some t := by
  induction h with
  | refl => exact ⟨[], rfl⟩
  | tail l _ _ hstep ih =>
    obtain ⟨ls, hls⟩ := ih
    refine ⟨ls ++ [l], ?_⟩
    rw [exec_append, hls, Option.bind_some, exec, hstep]
    rfl

/-- Labels executed under the guard are a guarded run. -/
theorem of_execOk [∀ s l, Decidable (ok s l)] (ls : List ℓ) (h : execOk step ok s ls = some t) :
    Runs step ok s t := by
  induction ls generalizing s with
  | nil => exact Option.some.inj h ▸ Runs.refl s
  | cons l ls ih =>
    unfold execOk at h
    split at h
    · rename_i hok
      obtain ⟨m, hm, hrest⟩ := Option.bind_eq_some_iff.mp h
      exact .head l hok hm (ih hrest)
    · cases h

end Runs

/-- The state after `n` steps with the labels `ls 0`, `ls 1`, …, if none of them is
refused. -/
def follow {σ ℓ : Type} (step : σ → ℓ → Option σ) (ls : Nat → ℓ) (s : σ) : Nat → Option σ
  | 0 => some s
  | n + 1 => (follow step ls s n).bind fun t => step t (ls n)

/-- Nothing follows a refused label. -/
theorem follow_eq_none_of_le {σ ℓ : Type} {step : σ → ℓ → Option σ} {ls : Nat → ℓ} {s : σ}
    {m n : Nat} (h : follow step ls s m = none) (hle : m ≤ n) : follow step ls s n = none := by
  induction hle with
  | refl => exact h
  | step _ ih =>
    rw [follow, ih]
    rfl

/-- **The termination rule**: a machine whose steps decrease a measure comes to a state
that refuses its label, within as many steps as the measure is large. -/
theorem follow_stops {σ ℓ : Type} {step : σ → ℓ → Option σ} {P : σ → Prop} (measure : σ → Nat)
    (ls : Nat → ℓ) {s : σ} (h0 : P s)
    (hstep : ∀ a l b, P a → step a l = some b → P b ∧ measure b < measure a) :
    ∃ n t, n ≤ measure s ∧ follow step ls s n = some t ∧ P t ∧ step t (ls n) = none := by
  have hgo : ∀ n, (∃ m t, m < n ∧ follow step ls s m = some t ∧ P t ∧ step t (ls m) = none) ∨
      ∃ t, follow step ls s n = some t ∧ P t ∧ measure t + n ≤ measure s := by
    intro n
    induction n with
    | zero => exact Or.inr ⟨s, rfl, h0, Nat.le_refl _⟩
    | succ n ih =>
      rcases ih with ⟨m, t, hlt, hstop⟩ | ⟨t, hfollow, ht, hle⟩
      · exact Or.inl ⟨m, t, Nat.lt_succ_of_lt hlt, hstop⟩
      · cases hnext : step t (ls n) with
        | none => exact Or.inl ⟨n, t, Nat.lt_succ_self n, hfollow, ht, hnext⟩
        | some u =>
          obtain ⟨hu, hlt⟩ := hstep t (ls n) u ht hnext
          refine Or.inr ⟨u, ?_, hu, by omega⟩
          rw [follow, hfollow]
          exact hnext
  rcases hgo (measure s + 1) with ⟨m, t, hlt, hstop⟩ | ⟨t, _, _, hle⟩
  · exact ⟨m, t, Nat.le_of_lt_succ hlt, hstop⟩
  · omega
