import SpannerPaxos.EventLoop
import SpannerPaxos.Loops

/-! # The lease watcher

`wait_until_expired` reads the lease and waits, until the lease is over or somebody has moved
it; then it reads it again.  The lease may move whenever the watcher is not being polled,
and the watcher still waits on the lease that it has read before.  But whoever moves the
lease says so, and the watcher listens before it looks at the clock: its polls come to what
the event loop takes them for, one look at the lease as it stands.
-/
namespace SpannerPaxos
namespace LeaseWatcher

/-- Where a wait for the end of the lease stands. -/
inductive Wait where
  /-- The lease is read next. -/
  | reading
  /-- It waits on the lease that it has read, and may be asleep between two looks at the
  clock. -/
  | on (lease : Option DateTime) (asleep : Bool)
  deriving DecidableEq

end LeaseWatcher

/-- The lease of a member, and the wait for its end that is under way. -/
structure LeaseWatcher where
  expiry : Option DateTime
  notify : Notify
  /-- Whether the token is cancelled. -/
  cancelled : Bool
  wait : Option LeaseWatcher.Wait
  deriving DecidableEq

namespace LeaseWatcher

/-- `LeaseState::new_expired`. -/
def newExpired : LeaseWatcher := ⟨some DateTime.unixEpoch, Notify.new, false, none⟩

/-- The wait is over, or given up. -/
def finish (s : LeaseWatcher) : LeaseWatcher := { s with notify := s.notify.abandon, wait := none }

/-- A part of a poll: the lease is read, or what the wait is on is looked at.  It answers
whether the wait is over.  `elapsed` says that the sleep is over. -/
def turn (utc : DateTime) (elapsed : Bool) (s : LeaseWatcher) :
    Turn LeaseWatcher (Bool × LeaseWatcher) :=
  match s.wait with
  | none => .leave (false, s)
  | some .reading => .again { s with wait := some (.on s.expiry false) }
  | some (.on lease asleep) =>
    if s.cancelled then .leave (true, s.finish)
    else if s.notify.poll.1 then .again { s with notify := s.notify.poll.2, wait := some .reading }
    else
      let s := { s with notify := s.notify.poll.2 }
      match lease with
      | none => .leave (false, s)
      | some expiry =>
        if asleep ∧ ¬ elapsed then .leave (false, s)
        else if TrueTime.commitWait expiry utc then .leave (true, { s with expiry := none }.finish)
        else .leave (false, { s with wait := some (.on lease true) })

/-- A poll of the wait, in enough turns (`exists_poll`). -/
def poll (s : LeaseWatcher) (utc : DateTime) (elapsed : Bool) : Option (Bool × LeaseWatcher) :=
  loop (turn utc elapsed) (2 * s.notify.signals + 2) s

inductive Label where
  /-- `select!` makes a new wait. -/
  | watch
  | poll (utc : DateTime) (elapsed : Bool)
  /-- Another arm of `select!` is ready. -/
  | giveUp
  /-- `update_leader_lease_expiry_time`. -/
  | update (expiry : DateTime)
  | cancel
  deriving DecidableEq

def step (s : LeaseWatcher) : Label → Option LeaseWatcher
  | .watch => if s.wait = none then some { s with wait := some .reading } else none
  | .poll utc elapsed => if s.wait = none then none else (s.poll utc elapsed).map Prod.snd
  | .giveUp => if s.wait = none then none else some s.finish
  | .update expiry => some { s with expiry := some expiry, notify := s.notify.notifyOne }
  | .cancel => some { s with cancelled := true }

variable {s s' t : LeaseWatcher} {utc : DateTime} {elapsed : Bool}

/-! ## A poll ends -/

/-- What is left of a poll: a signal is taken and the lease is read again. -/
def variant (s : LeaseWatcher) : Nat :=
  2 * s.notify.signals + if s.wait = some .reading then 1 else 0

/-- A turn that goes round again has read the lease, or has taken a signal. -/
theorem again_cases (h : s.turn utc elapsed = .again t) :
    s.wait = some .reading ∧ t = { s with wait := some (.on s.expiry false) } ∨
    s.cancelled = false ∧ 0 < s.notify.signals ∧
      t = { s with notify := s.notify.poll.2, wait := some .reading } := by
  obtain ⟨hready, _⟩ := s.notify.poll_spec
  unfold turn at h
  split at h
  · cases h
  · rename_i hwait
    cases h
    exact Or.inl ⟨hwait, rfl⟩
  · split at h
    · cases h
    · rename_i hcancelled
      split at h
      · rename_i hfound
        cases h
        exact Or.inr ⟨Bool.eq_false_of_not_eq_true hcancelled,
          of_decide_eq_true (hready.symm.trans hfound), rfl⟩
      · split at h
        · cases h
        · split at h
          · cases h
          · split at h
            · cases h
            · cases h

theorem variant_turn (h : s.turn utc elapsed = .again t) : t.variant < s.variant := by
  rcases again_cases h with ⟨hwait, rfl⟩ | ⟨_, hsignals, rfl⟩
  · simp [variant, hwait]
  · obtain ⟨hready, htaken⟩ := s.notify.poll_spec
    rw [hready, decide_eq_true hsignals, Bool.toNat_true] at htaken
    unfold variant
    split <;> simp only <;> omega

theorem exists_poll (s : LeaseWatcher) (utc : DateTime) (elapsed : Bool) :
    ∃ r, s.poll utc elapsed = some r := by
  apply loop_leaves variant fun _ _ _ h => variant_turn h
  unfold variant
  split <;> omega

/-! ## What a poll comes to -/

/-- A wait is on the lease as it stands, or there is something to be heard. -/
def Informed (s : LeaseWatcher) : Prop :=
  ∀ lease asleep, s.wait = some (.on lease asleep) → lease = s.expiry ∨ 0 < s.notify.signals

/-- What a poll keeps before it is over. -/
structure Polling (s t : LeaseWatcher) : Prop where
  informed : t.Informed
  waits : t.wait ≠ none
  expiry : t.expiry = s.expiry
  cancelled : t.cancelled = s.cancelled
  /-- A sleep is not begun before the clock is looked at. -/
  asleep : ∀ lease, t.wait = some (.on lease true) → s.wait = some (.on lease true)

namespace Polling

theorem refl (h : s.Informed) (hwaits : s.wait ≠ none) : s.Polling s :=
  ⟨h, hwaits, rfl, rfl, fun _ => id⟩

theorem again {u : LeaseWatcher} (h : s.Polling t) (hturn : t.turn utc elapsed = .again u) :
    s.Polling u := by
  rcases again_cases hturn with ⟨_, rfl⟩ | ⟨_, _, rfl⟩
  · refine ⟨fun lease asleep hwait => ?_, (fun heq => by cases heq), h.expiry, h.cancelled,
      fun lease hwait => ?_⟩
    · cases hwait
      exact Or.inl rfl
    · cases hwait
  · refine ⟨fun lease asleep hwait => ?_, (fun heq => by cases heq), h.expiry, h.cancelled,
      fun lease hwait => ?_⟩
    · cases hwait
    · cases hwait

end Polling

/-- What a poll that is over has found. -/
inductive Found (s : LeaseWatcher) (utc : DateTime) (elapsed : Bool) : Bool × LeaseWatcher → Prop
  | cancelled (notify : Notify) (h : s.cancelled = true) :
      Found s utc elapsed (true, { s with notify := notify, wait := none })
  | expired (notify : Notify) (h : s.cancelled = false) {expiry : DateTime}
      (hexpiry : s.expiry = some expiry) (hover : TrueTime.commitWait expiry utc = true) :
      Found s utc elapsed (true, { s with expiry := none, notify := notify, wait := none })
  /-- There is nothing to wait for but a signal. -/
  | off (notify : Notify) (h : s.cancelled = false) (hsignals : notify.signals = 0) (asleep : Bool)
      (hexpiry : s.expiry = none) :
      Found s utc elapsed (false, { s with notify := notify, wait := some (.on none asleep) })
  | sleeps (notify : Notify) (h : s.cancelled = false) (hsignals : notify.signals = 0)
      {expiry : DateTime} (hexpiry : s.expiry = some expiry)
      (hclock : TrueTime.commitWait expiry utc = false ∨
        elapsed = false ∧ s.wait = some (.on (some expiry) true)) :
      Found s utc elapsed
        (false, { s with notify := notify, wait := some (.on (some expiry) true) })

theorem Polling.leave {r : Bool × LeaseWatcher} (h : s.Polling t)
    (hturn : t.turn utc elapsed = .leave r) : s.Found utc elapsed r := by
  obtain ⟨expiry, notify, cancelled, wait⟩ := t
  obtain rfl : expiry = s.expiry := h.expiry
  obtain rfl : cancelled = s.cancelled := h.cancelled
  obtain ⟨hready, htaken⟩ := notify.poll_spec
  unfold turn at hturn
  split at hturn
  · rename_i hwait
    exact absurd hwait h.waits
  · cases hturn
  · rename_i lease asleep hwait
    split at hturn
    · rename_i hcancelled
      cases hturn
      exact .cancelled _ hcancelled
    · rename_i hcancelled
      have hno : s.cancelled = false := Bool.eq_false_of_not_eq_true hcancelled
      split at hturn
      · cases hturn
      · rename_i hfound
        have hnone : notify.poll.1 = false := Bool.eq_false_of_not_eq_true hfound
        have hsignals : ¬ 0 < notify.signals := of_decide_eq_false (hready.symm.trans hnone)
        have hleft : notify.poll.2.signals = 0 := by
          rw [hnone, Bool.toNat_false] at htaken
          omega
        -- nothing is to be heard: the wait is on the lease as it stands
        have hlease : s.expiry = lease := by
          rcases h.informed lease asleep hwait with heq | hheard
          · exact heq.symm
          · exact absurd hheard hsignals
        obtain rfl : wait = some (.on lease asleep) := hwait
        split at hturn
        · cases hturn
          exact .off _ hno hleft asleep hlease
        · rename_i expiry
          split at hturn
          · rename_i hasleep
            obtain ⟨rfl, helapsed⟩ := hasleep
            cases hturn
            exact .sleeps _ hno hleft hlease
              (Or.inr ⟨Bool.eq_false_of_not_eq_true helapsed, h.asleep _ rfl⟩)
          · split at hturn
            · rename_i hover
              cases hturn
              exact .expired _ hno hlease hover
            · rename_i hover
              cases hturn
              exact .sleeps _ hno hleft hlease (Or.inl (Bool.eq_false_of_not_eq_true hover))

/-- What a poll comes to, whatever it goes through. -/
theorem found (h : s.Informed) (hwaits : s.wait ≠ none) (utc : DateTime) (elapsed : Bool) :
    ∃ r, s.poll utc elapsed = some r ∧ s.Found utc elapsed r := by
  obtain ⟨r, hr⟩ := s.exists_poll utc elapsed
  obtain ⟨t, hvisits, hleave⟩ := exists_visits_of_loop hr
  have hpolling : s.Polling t :=
    hvisits.invariant (.refl h hwaits) fun _ _ ha hturn => ha.again hturn
  exact ⟨r, hr, hpolling.leave hleave⟩

/-! ## Whoever moves the lease says so -/

theorem Informed.of_not_waiting (h : s.wait = none ∨ s.wait = some .reading) : s.Informed := by
  intro lease asleep hwait
  rw [hwait] at h
  rcases h with h | h
  · cases h
  · cases h

theorem Found.informed {r : Bool × LeaseWatcher} (h : s.Found utc elapsed r) : r.2.Informed := by
  cases h with
  | cancelled => exact .of_not_waiting (Or.inl rfl)
  | expired => exact .of_not_waiting (Or.inl rfl)
  | off _ _ _ _ hexpiry =>
    intro lease _ hwait
    cases hwait
    exact Or.inl hexpiry.symm
  | sleeps _ _ _ hexpiry =>
    intro lease _ hwait
    cases hwait
    exact Or.inl hexpiry.symm

theorem Informed.step (h : s.Informed) {l : Label} (hstep : s.step l = some s') :
    s'.Informed := by
  cases l with
  | watch =>
    simp only [LeaseWatcher.step] at hstep
    split at hstep
    · cases Option.some.inj hstep
      exact .of_not_waiting (Or.inr rfl)
    · cases hstep
  | poll utc elapsed =>
    simp only [LeaseWatcher.step] at hstep
    split at hstep
    · cases hstep
    · rename_i hwaits
      obtain ⟨r, hr, hfound⟩ := found h hwaits utc elapsed
      rw [hr] at hstep
      cases Option.some.inj hstep
      exact hfound.informed
  | giveUp =>
    simp only [LeaseWatcher.step] at hstep
    split at hstep
    · cases hstep
    · cases Option.some.inj hstep
      exact .of_not_waiting (Or.inl rfl)
  | update expiry =>
    cases Option.some.inj hstep
    -- the signal is there, wherever the wait stands
    exact fun _ _ _ => Or.inr s.notify.signals_notifyOne.1
  | cancel =>
    cases Option.some.inj hstep
    exact h

theorem informed_of_reaches (h : Reaches LeaseWatcher.step newExpired s) : s.Informed :=
  h.invariant (.of_not_waiting (Or.inl rfl)) fun _ _ _ (ha : Informed _) _ hstep => ha.step hstep

/-! ## One look at the lease -/

theorem poll_lease_of_cancelled (l : EventLoop) (utc : DateTime) (h : l.cancelled = true) :
    l.poll utc .lease = l.take .lease .leaderLeaseExpired := by
  simp only [EventLoop.poll, if_pos h]

theorem poll_lease_off (l : EventLoop) (utc : DateTime) (h : l.cancelled = false)
    (hexpiry : l.ctx.leaseExpiry = none) : l.poll utc .lease = l.goOn (.timer .heartbeat) := by
  simp only [EventLoop.poll, h, Bool.false_eq_true, if_false, hexpiry]

theorem poll_lease_on (l : EventLoop) (utc : DateTime) (h : l.cancelled = false)
    {expiry : DateTime} (hexpiry : l.ctx.leaseExpiry = some expiry) :
    l.poll utc .lease =
      if TrueTime.commitWait expiry utc then
        { l with ctx := { l.ctx with leaseExpiry := none } }.take .lease .leaderLeaseExpired
      else l.goOn (.timer .heartbeat) := by
  simp only [EventLoop.poll, h, Bool.false_eq_true, if_false, hexpiry]

/-- **A poll of the watcher is one look at the lease**: it ends, and does what the arm of the
event loop does on the lease as it stands, whatever the watcher had read.  The look is at the
reading of the poll, unless the watcher sleeps on that very lease.  A watcher that goes on
waiting has heard every signal, and with a lease to wait for it has a sleep to wake it. -/
theorem look_of_poll (hrun : Reaches LeaseWatcher.step newExpired s) (hwaits : s.wait ≠ none)
    (utc : DateTime) (elapsed : Bool) :
    ∃ ready s' utc', s.poll utc elapsed = some (ready, s') ∧
      (utc' = utc ∨ elapsed = false ∧ s.wait = some (.on s.expiry true)) ∧
      (∀ l : EventLoop, l.ctx.leaseExpiry = s.expiry → l.cancelled = s.cancelled →
        l.poll utc' .lease =
          if ready then
            { l with ctx := { l.ctx with leaseExpiry := s'.expiry } }.take .lease
              .leaderLeaseExpired
          else l.goOn (.timer .heartbeat)) ∧
      (ready = false → s'.expiry = s.expiry ∧ s'.notify.signals = 0 ∧
        ∃ asleep, s'.wait = some (.on s'.expiry asleep) ∧ (s'.expiry ≠ none → asleep = true)) := by
  obtain ⟨⟨ready, s'⟩, hpoll, hfound⟩ := found (informed_of_reaches hrun) hwaits utc elapsed
  cases hfound with
  | cancelled notify h =>
    refine ⟨true, _, utc, hpoll, Or.inl rfl, fun l hexpiry hcancelled => ?_,
      fun hready => by cases hready⟩
    rw [poll_lease_of_cancelled l utc (hcancelled.trans h), if_pos rfl, ← hexpiry]
  | expired notify h hexpiry hover =>
    refine ⟨true, _, utc, hpoll, Or.inl rfl, fun l hlease hcancelled => ?_,
      fun hready => by cases hready⟩
    rw [poll_lease_on l utc (hcancelled.trans h) (hlease.trans hexpiry), if_pos hover, if_pos rfl]
  | off notify h hsignals asleep hexpiry =>
    refine ⟨false, _, utc, hpoll, Or.inl rfl, fun l hlease hcancelled => ?_, fun _ => ?_⟩
    · rw [poll_lease_off l utc (hcancelled.trans h) (hlease.trans hexpiry), if_neg Bool.false_ne_true]
    · exact ⟨rfl, hsignals, asleep, by rw [hexpiry], fun hsome => absurd hexpiry hsome⟩
  | @sleeps notify h hsignals expiry hexpiry hclock =>
    have hkeeps : ∀ utc', TrueTime.commitWait expiry utc' = false → ∀ l : EventLoop,
        l.ctx.leaseExpiry = s.expiry → l.cancelled = s.cancelled →
        l.poll utc' .lease = l.goOn (.timer .heartbeat) := by
      intro utc' hnot l hlease hcancelled
      rw [poll_lease_on l utc' (hcancelled.trans h) (hlease.trans hexpiry), hnot,
        if_neg Bool.false_ne_true]
    have hwaiting : ∃ asleep, some (Wait.on (some expiry) true) = some (.on s.expiry asleep) ∧
        (s.expiry ≠ none → asleep = true) := ⟨true, by rw [hexpiry], fun _ => rfl⟩
    rcases hclock with hnot | ⟨helapsed, hasleep⟩
    · exact ⟨false, _, utc, hpoll, Or.inl rfl, hkeeps utc hnot, fun _ => ⟨rfl, hsignals, hwaiting⟩⟩
    · -- no look at the clock: at its own end a lease is not over
      have hnot : TrueTime.commitWait expiry expiry = false := by
        apply decide_eq_false
        apply Int.not_lt.mpr
        exact (TrueTime.reads_self expiry).1
      exact ⟨false, _, expiry, hpoll, Or.inr ⟨helapsed, hexpiry ▸ hasleep⟩, hkeeps expiry hnot,
        fun _ => ⟨rfl, hsignals, hwaiting⟩⟩

/-- The lease is moved under a watcher that sleeps on the old one: at a reading where that one
is over, the watcher goes on waiting, on the new one. -/
theorem look_of_poll_moved :
    ∃ s s', exec LeaseWatcher.step newExpired
        [.watch, .poll 0 false, .update (DateTime.unixEpoch + Duration.seconds 10)] = some s ∧
      s.wait = some (.on (some DateTime.unixEpoch) true) ∧
      s.poll (Duration.seconds 1) true = some (false, s') ∧
      s'.wait = some (.on (some (Duration.seconds 10)) true) := by
  obtain ⟨s, hs, hwait, hexpiry, t, hpoll⟩ : ∃ s, exec LeaseWatcher.step newExpired
      [.watch, .poll 0 false, .update (DateTime.unixEpoch + Duration.seconds 10)] = some s ∧
      s.wait = some (.on (some DateTime.unixEpoch) true) ∧
      s.expiry = some (Duration.seconds 10) ∧
      ∃ t, s.poll (Duration.seconds 1) true = some (false, t) := ⟨_, rfl, rfl, rfl, _, rfl⟩
  obtain ⟨ready, s', _, hpoll', _, _, hgoes⟩ := look_of_poll (Runs.of_exec _ hs)
    (fun hnone => by rw [hnone] at hwait; cases hwait) (Duration.seconds 1) true
  rw [hpoll] at hpoll'
  obtain ⟨rfl, rfl⟩ := Prod.mk.inj (Option.some.inj hpoll')
  obtain ⟨hkept, _, asleep, hon, hasleep⟩ := hgoes rfl
  rw [hkept, hexpiry] at hon hasleep
  exact ⟨s, t, hs, hwait, hpoll, by rw [hon, hasleep (fun hnone => by cases hnone)]⟩

end LeaseWatcher
end SpannerPaxos
