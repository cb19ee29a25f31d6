import Mathlib.Data.Bool.Basic
import Mathlib.Data.List.Perm.Basic
import SpannerPaxos.Runs

/-! # The task dispatcher

A dispatched input is executed by a task of its own, which sends the output into a bounded
channel.  A worker takes the outputs from the channel and has them handled, until its token
is cancelled.  Workers may be started again and again, a new one before the last has ended:
they wait for one another at the lock of the receiver.  So the outputs are handled one at a
time and in the order in which they were sent, and none is lost while the dispatcher lives.
-/
namespace SpannerPaxos
namespace TaskDispatcher

/-- How a worker has ended. -/
inductive Ending where
  | cancelled
  /-- The channel was found closed. -/
  | closed
  /-- The handler panicked. -/
  | panicked
  | aborted
  deriving DecidableEq

/-- Where a worker stands. -/
inductive Stage where
  /-- It waits for the receiver. -/
  | locking
  /-- The token is looked at next. -/
  | atToken
  /-- The channel is looked at next. -/
  | atChannel
  | suspended
  | handling
  | ended (ending : Ending)
  deriving DecidableEq

/-- Whether the worker has the receiver. -/
def Stage.holds : Stage → Bool
  | .atToken | .atChannel | .suspended | .handling => true
  | .locking | .ended _ => false

def Stage.isEnded : Stage → Bool
  | .ended _ => true
  | .locking | .atToken | .atChannel | .suspended | .handling => false

theorem Stage.not_isEnded_of_holds {stage : Stage} (h : stage.holds = true) :
    ¬ stage.isEnded = true := by
  cases stage with
  | locking | ended _ => cases h
  | atToken | atChannel | suspended | handling => exact Bool.false_ne_true

structure Worker where
  /-- Whether the token is cancelled. -/
  cancelled : Bool
  stage : Stage
  deriving DecidableEq

/-- The size of the channel of the outputs. -/
def capacity : Nat := 1024

end TaskDispatcher

/-- A dispatcher with its tasks, the `n`-th dispatched input being the input of task `n`. -/
structure TaskDispatcher (I O : Type) where
  executing : List (Nat × I)
  /-- The outputs of the tasks that wait to send. -/
  sending : List (Nat × O)
  channel : List (Nat × O)
  /-- How many senders of the channel there are. -/
  senders : Nat
  /-- The worker that has locked the receiver. -/
  holder : Option Nat
  workers : List TaskDispatcher.Worker
  /-- The dispatcher, and the receiver with it, is gone. -/
  dropped : Bool
  spawned : Nat
  /-- The tasks whose executor panicked. -/
  panicked : List Nat
  /-- What the executors have returned. -/
  produced : List (Nat × O)
  /-- What has entered the channel, oldest first. -/
  sent : List (Nat × O)
  /-- What could not be sent. -/
  lost : List (Nat × O)
  /-- What the handler has been called with, oldest first. -/
  calls : List (Nat × O)
  deriving DecidableEq

namespace TaskDispatcher
variable {I O : Type}

inductive Label (I O : Type) where
  | dispatch (input : I)
  /-- The executor of the `i`-th task at work returns. -/
  | finishes (i : Nat) (output : O)
  | panics (i : Nat)
  /-- The `i`-th task that waits to send does so. -/
  | sends (i : Nat)
  | start
  | cancel (w : Nat)
  /-- The worker locks the receiver. -/
  | lock (w : Nat)
  /-- The worker looks at what it waits for next. -/
  | look (w : Nat)
  | wake (w : Nat)
  /-- The handler that the worker has called returns or panics. -/
  | handled (w : Nat) (returns : Bool)
  | abort (w : Nat)
  /-- The last handle of the dispatcher is dropped. -/
  | drop
  deriving DecidableEq

def new : TaskDispatcher I O where
  executing := []
  sending := []
  channel := []
  senders := 1
  holder := none
  workers := []
  dropped := false
  spawned := 0
  panicked := []
  produced := []
  sent := []
  lost := []
  calls := []

/-- The worker goes on, with the receiver in hand. -/
def goOn (s : TaskDispatcher I O) (w : Nat) (worker : Worker) (stage : Stage) :
    TaskDispatcher I O :=
  { s with workers := s.workers.set w { worker with stage } }

/-- The worker ends and lets go of the receiver. -/
def leave (s : TaskDispatcher I O) (w : Nat) (worker : Worker) (ending : Ending) :
    TaskDispatcher I O :=
  { s with workers := s.workers.set w { worker with stage := .ended ending }, holder := none }

def look (s : TaskDispatcher I O) (w : Nat) (worker : Worker) : Option (TaskDispatcher I O) :=
  match worker.stage with
  | .atToken =>
    if worker.cancelled then some (s.leave w worker .cancelled)
    else some (s.goOn w worker .atChannel)
  | .atChannel =>
    match s.channel with
    | output :: channel =>
      some { s.goOn w worker .handling with channel, calls := s.calls ++ [output] }
    | [] =>
      if s.senders = 0 then some (s.leave w worker .closed) else some (s.goOn w worker .suspended)
  | .locking | .suspended | .handling | .ended _ => none

def abort (s : TaskDispatcher I O) (w : Nat) (worker : Worker) : Option (TaskDispatcher I O) :=
  match worker.stage with
  | .locking => some (s.goOn w worker (.ended .aborted))
  | .suspended | .handling => some (s.leave w worker .aborted)
  | .atToken | .atChannel | .ended _ => none

/-- What an executor makes of its input is left open. -/
def step (s : TaskDispatcher I O) : Label I O → Option (TaskDispatcher I O)
  | .dispatch input =>
    if s.dropped then none
    else some { s with
      executing := s.executing ++ [(s.spawned, input)]
      senders := s.senders + 1
      spawned := s.spawned + 1 }
  | .finishes i output =>
    s.executing[i]?.map fun task =>
      { s with
        executing := s.executing.eraseIdx i
        sending := s.sending ++ [(task.1, output)]
        produced := s.produced ++ [(task.1, output)] }
  | .panics i =>
    s.executing[i]?.map fun task =>
      { s with
        executing := s.executing.eraseIdx i
        senders := s.senders - 1
        panicked := s.panicked ++ [task.1] }
  | .sends i =>
    s.sending[i]?.bind fun output =>
      if s.dropped then
        some { s with
          sending := s.sending.eraseIdx i
          senders := s.senders - 1
          lost := s.lost ++ [output] }
      else if s.channel.length < capacity then
        some { s with
          sending := s.sending.eraseIdx i
          senders := s.senders - 1
          channel := s.channel ++ [output]
          sent := s.sent ++ [output] }
      else none
  | .start =>
    if s.dropped then none else some { s with workers := s.workers ++ [⟨false, .locking⟩] }
  | .cancel w =>
    s.workers[w]?.map fun worker =>
      { s with workers := s.workers.set w { worker with cancelled := true } }
  | .lock w =>
    s.workers[w]?.bind fun worker =>
      if worker.stage = .locking ∧ s.holder = none then
        some { s.goOn w worker .atToken with holder := some w }
      else none
  | .look w => s.workers[w]?.bind (s.look w)
  | .wake w =>
    s.workers[w]?.bind fun worker =>
      if worker.stage = .suspended then some (s.goOn w worker .atToken) else none
  | .handled w returns =>
    s.workers[w]?.bind fun worker =>
      if worker.stage = .handling then
        some (if returns then s.goOn w worker .atToken else s.leave w worker .panicked)
      else none
  | .abort w => s.workers[w]?.bind (s.abort w)
  | .drop =>
    -- a worker has a handle of its own
    if s.dropped ∨ ∃ worker ∈ s.workers, worker.stage.isEnded = false then none
    else some { s with dropped := true, senders := s.senders - 1 }

variable {s s' t : TaskDispatcher I O}

/-! ## What a step can do -/

/-- **What a step can do.** -/
inductive Moves (s : TaskDispatcher I O) : Label I O → TaskDispatcher I O → Prop
  | dispatches (input : I) (halive : s.dropped = false) :
    Moves s (.dispatch input) { s with
      executing := s.executing ++ [(s.spawned, input)]
      senders := s.senders + 1
      spawned := s.spawned + 1 }
  | finishes (i : Nat) (task : Nat × I) (output : O) (htask : s.executing[i]? = some task) :
    Moves s (.finishes i output) { s with
      executing := s.executing.eraseIdx i
      sending := s.sending ++ [(task.1, output)]
      produced := s.produced ++ [(task.1, output)] }
  | panics (i : Nat) (task : Nat × I) (htask : s.executing[i]? = some task) :
    Moves s (.panics i) { s with
      executing := s.executing.eraseIdx i
      senders := s.senders - 1
      panicked := s.panicked ++ [task.1] }
  | sends (i : Nat) (output : Nat × O) (houtput : s.sending[i]? = some output)
      (halive : s.dropped = false) (hroom : s.channel.length < capacity) :
    Moves s (.sends i) { s with
      sending := s.sending.eraseIdx i
      senders := s.senders - 1
      channel := s.channel ++ [output]
      sent := s.sent ++ [output] }
  | loses (i : Nat) (output : Nat × O) (houtput : s.sending[i]? = some output)
      (hdropped : s.dropped = true) :
    Moves s (.sends i) { s with
      sending := s.sending.eraseIdx i
      senders := s.senders - 1
      lost := s.lost ++ [output] }
  | starts (halive : s.dropped = false) :
    Moves s .start { s with workers := s.workers ++ [⟨false, .locking⟩] }
  | cancels (w : Nat) (worker : Worker) (hworker : s.workers[w]? = some worker) :
    Moves s (.cancel w) { s with workers := s.workers.set w { worker with cancelled := true } }
  | locks (w : Nat) (worker : Worker) (hworker : s.workers[w]? = some worker)
      (hstage : worker.stage = .locking) (hfree : s.holder = none) :
    Moves s (.lock w) { s.goOn w worker .atToken with holder := some w }
  /-- The channel is looked at only with the token uncancelled. -/
  | goesOn (l : Label I O) (w : Nat) (worker : Worker) (stage : Stage)
      (hworker : s.workers[w]? = some worker) (hfrom : worker.stage.holds = true)
      (hto : stage = .atToken ∨ stage = .atChannel ∧ worker.cancelled = false ∨
        stage = .suspended) :
    Moves s l (s.goOn w worker stage)
  | takes (w : Nat) (worker : Worker) (output : Nat × O) (channel : List (Nat × O))
      (hworker : s.workers[w]? = some worker) (hstage : worker.stage = .atChannel)
      (hchannel : s.channel = output :: channel) :
    Moves s (.look w) { s.goOn w worker .handling with channel, calls := s.calls ++ [output] }
  | leaves (l : Label I O) (w : Nat) (worker : Worker) (ending : Ending)
      (hworker : s.workers[w]? = some worker) (hfrom : worker.stage.holds = true)
      (hclosed : ending = .closed → s.senders = 0) :
    Moves s l (s.leave w worker ending)
  | givesUp (w : Nat) (worker : Worker) (hworker : s.workers[w]? = some worker)
      (hstage : worker.stage = .locking) :
    Moves s (.abort w) (s.goOn w worker (.ended .aborted))
  | drops (halive : s.dropped = false)
      (hended : ∀ worker ∈ s.workers, worker.stage.isEnded = true) :
    Moves s .drop { s with dropped := true, senders := s.senders - 1 }

theorem moves_of_look {w : Nat} {worker : Worker} (hworker : s.workers[w]? = some worker)
    (hlook : s.look w worker = some s') : Moves s (.look w) s' := by
  cases hstage : worker.stage with
  | locking | suspended | handling | ended _ =>
    simp only [look, hstage, reduceCtorEq] at hlook
  | atToken =>
    have hfrom : worker.stage.holds = true := by rw [hstage]; rfl
    simp only [look, hstage] at hlook
    by_cases hcancelled : worker.cancelled
    · rw [if_pos hcancelled] at hlook
      cases Option.some.inj hlook
      exact .leaves _ w worker .cancelled hworker hfrom (fun h => by cases h)
    · rw [if_neg hcancelled] at hlook
      cases Option.some.inj hlook
      exact .goesOn _ w worker .atChannel hworker hfrom
        (Or.inr (Or.inl ⟨rfl, Bool.eq_false_of_not_eq_true hcancelled⟩))
  | atChannel =>
    have hfrom : worker.stage.holds = true := by rw [hstage]; rfl
    cases hchannel : s.channel with
    | cons output channel =>
      simp only [look, hstage, hchannel, Option.some.injEq] at hlook
      rw [← hlook]
      exact .takes w worker output channel hworker hstage hchannel
    | nil =>
      simp only [look, hstage, hchannel] at hlook
      by_cases hsenders : s.senders = 0
      · rw [if_pos hsenders] at hlook
        cases Option.some.inj hlook
        exact .leaves _ w worker .closed hworker hfrom fun _ => hsenders
      · rw [if_neg hsenders] at hlook
        cases Option.some.inj hlook
        exact .goesOn _ w worker .suspended hworker hfrom (Or.inr (Or.inr rfl))

theorem moves_of_abort {w : Nat} {worker : Worker} (hworker : s.workers[w]? = some worker)
    (habort : s.abort w worker = some s') : Moves s (.abort w) s' := by
  cases hstage : worker.stage with
  | atToken | atChannel | ended _ => simp only [abort, hstage, reduceCtorEq] at habort
  | locking =>
    simp only [abort, hstage, Option.some.injEq] at habort
    rw [← habort]
    exact .givesUp w worker hworker hstage
  | suspended | handling =>
    simp only [abort, hstage, Option.some.injEq] at habort
    rw [← habort]
    exact .leaves _ w worker .aborted hworker (by rw [hstage]; rfl) (fun h => by cases h)

theorem moves_of_step {l : Label I O} (hstep : s.step l = some s') : Moves s l s' := by
  cases l with
  | dispatch input =>
    by_cases hdropped : s.dropped
    · simp only [step, if_pos hdropped, reduceCtorEq] at hstep
    · simp only [step, if_neg hdropped, Option.some.injEq] at hstep
      rw [← hstep]
      exact .dispatches input (Bool.eq_false_of_not_eq_true hdropped)
  | finishes i output =>
    obtain ⟨task, htask, rfl⟩ := Option.map_eq_some_iff.mp hstep
    exact .finishes i task output htask
  | panics i =>
    obtain ⟨task, htask, rfl⟩ := Option.map_eq_some_iff.mp hstep
    exact .panics i task htask
  | sends i =>
    obtain ⟨output, houtput, hsend⟩ := Option.bind_eq_some_iff.mp hstep
    by_cases hdropped : s.dropped
    · rw [if_pos hdropped] at hsend
      cases Option.some.inj hsend
      exact .loses i output houtput hdropped
    · rw [if_neg hdropped] at hsend
      by_cases hroom : s.channel.length < capacity
      · rw [if_pos hroom] at hsend
        cases Option.some.inj hsend
        exact .sends i output houtput (Bool.eq_false_of_not_eq_true hdropped) hroom
      · rw [if_neg hroom] at hsend
        cases hsend
  | start =>
    by_cases hdropped : s.dropped
    · simp only [step, if_pos hdropped, reduceCtorEq] at hstep
    · simp only [step, if_neg hdropped, Option.some.injEq] at hstep
      rw [← hstep]
      exact .starts (Bool.eq_false_of_not_eq_true hdropped)
  | cancel w =>
    obtain ⟨worker, hworker, rfl⟩ := Option.map_eq_some_iff.mp hstep
    exact .cancels w worker hworker
  | lock w =>
    obtain ⟨worker, hworker, hlock⟩ := Option.bind_eq_some_iff.mp hstep
    by_cases hfree : worker.stage = .locking ∧ s.holder = none
    · rw [if_pos hfree] at hlock
      cases Option.some.inj hlock
      exact .locks w worker hworker hfree.1 hfree.2
    · rw [if_neg hfree] at hlock
      cases hlock
  | look w =>
    obtain ⟨worker, hworker, hlook⟩ := Option.bind_eq_some_iff.mp hstep
    exact moves_of_look hworker hlook
  | wake w =>
    obtain ⟨worker, hworker, hwake⟩ := Option.bind_eq_some_iff.mp hstep
    by_cases hstage : worker.stage = .suspended
    · rw [if_pos hstage] at hwake
      cases Option.some.inj hwake
      exact .goesOn _ w worker .atToken hworker (by rw [hstage]; rfl) (Or.inl rfl)
    · rw [if_neg hstage] at hwake
      cases hwake
  | handled w returns =>
    obtain ⟨worker, hworker, hhandled⟩ := Option.bind_eq_some_iff.mp hstep
    by_cases hstage : worker.stage = .handling
    · rw [if_pos hstage] at hhandled
      have hfrom : worker.stage.holds = true := by rw [hstage]; rfl
      cases Option.some.inj hhandled
      cases returns with
      | true => exact .goesOn _ w worker .atToken hworker hfrom (Or.inl rfl)
      | false => exact .leaves _ w worker .panicked hworker hfrom (fun h => by cases h)
    · rw [if_neg hstage] at hhandled
      cases hhandled
  | abort w =>
    obtain ⟨worker, hworker, habort⟩ := Option.bind_eq_some_iff.mp hstep
    exact moves_of_abort hworker habort
  | drop =>
    simp only [step] at hstep
    split at hstep
    · cases hstep
    · rename_i hkept
      cases Option.some.inj hstep
      apply Moves.drops
      · exact Bool.eq_false_of_not_eq_true fun hdropped => hkept (Or.inl hdropped)
      · intro worker hmem
        apply Bool.eq_true_of_not_eq_false
        intro hlive
        exact hkept (Or.inr ⟨worker, hmem, hlive⟩)

/-! ## What becomes of the outputs -/

/-- What is taken out of a pool is what it has more. -/
theorem perm_eraseIdx {α : Type} {pool : List α} {i : Nat} {a : α} (h : pool[i]? = some a) :
    pool.Perm (a :: pool.eraseIdx i) := by
  obtain ⟨hi, rfl⟩ := List.getElem?_eq_some_iff.mp h
  exact (List.getElem_cons_eraseIdx_perm hi).symm

/-- The tasks and their outputs are accounted for, each once. -/
structure Ledger (s : TaskDispatcher I O) : Prop where
  /-- A task is at work, has panicked or has returned. -/
  tasks : (s.executing.map Prod.fst ++ s.panicked ++ s.produced.map Prod.fst).Perm
    (List.range s.spawned)
  outputs : (s.sending ++ s.lost ++ s.sent).Perm s.produced
  /-- What has entered the channel is handled in this order. -/
  order : s.calls ++ s.channel = s.sent
  room : s.channel.length ≤ capacity
  kept : s.dropped = false → s.lost = []

theorem Ledger.start : (new : TaskDispatcher I O).Ledger :=
  ⟨.refl _, .refl _, rfl, Nat.zero_le _, fun _ => rfl⟩

/-- What enters the pool is accounted for there. -/
theorem perm_of_added {α : Type} {pool kept done all : List α} (a : α)
    (h : (pool ++ kept ++ done).Perm all) : (pool ++ [a] ++ kept ++ done).Perm (all ++ [a]) := by
  have hfront : (pool ++ [a] ++ kept ++ done).Perm (a :: (pool ++ kept ++ done)) := by
    rw [List.append_assoc, List.append_assoc, List.append_assoc pool]
    exact List.perm_middle
  exact (hfront.trans (h.cons a)).trans (List.perm_append_singleton a all).symm

/-- What leaves the pool is accounted for elsewhere. -/
theorem perm_of_taken {α : Type} {pool rest kept done all account : List α} {a : α}
    (h : (pool ++ kept ++ done).Perm all) (hpool : pool.Perm (a :: rest))
    (haccount : account.Perm (a :: (rest ++ kept ++ done))) : account.Perm all := by
  have hsame : (a :: (rest ++ kept ++ done)).Perm (pool ++ kept ++ done) :=
    ((hpool.append_right kept).append_right done).symm
  exact (haccount.trans hsame).trans h

theorem Ledger.step (h : s.Ledger) {l : Label I O} (hstep : s.step l = some s') : s'.Ledger := by
  obtain ⟨htasks, houtputs, horder, hroom, hkept⟩ := h
  cases moves_of_step hstep with
  | starts | cancels | locks | goesOn | leaves | givesUp =>
    exact ⟨htasks, houtputs, horder, hroom, hkept⟩
  | dispatches input halive =>
    refine ⟨?_, houtputs, horder, hroom, hkept⟩
    show ((s.executing ++ [(s.spawned, input)]).map Prod.fst ++ s.panicked ++
      s.produced.map Prod.fst).Perm (List.range (s.spawned + 1))
    rw [List.map_append, List.range_succ]
    exact perm_of_added s.spawned htasks
  | finishes i task output htask =>
    refine ⟨?_, ?_, horder, hroom, hkept⟩
    · apply perm_of_taken htasks ((perm_eraseIdx htask).map Prod.fst)
      rw [List.map_append, ← List.append_assoc]
      exact List.perm_append_singleton _ _
    · exact perm_of_added (task.1, output) houtputs
  | panics i task htask =>
    refine ⟨?_, houtputs, horder, hroom, hkept⟩
    apply perm_of_taken htasks ((perm_eraseIdx htask).map Prod.fst)
    show (_ ++ (s.panicked ++ [task.1]) ++ _).Perm _
    rw [← List.append_assoc, List.append_assoc (_ ++ _)]
    exact List.perm_middle
  | sends i output houtput halive hspace =>
    refine ⟨htasks, ?_, ?_, ?_, hkept⟩
    · apply perm_of_taken houtputs (perm_eraseIdx houtput)
      rw [← List.append_assoc]
      exact List.perm_append_singleton _ _
    · show s.calls ++ (s.channel ++ [output]) = s.sent ++ [output]
      rw [← List.append_assoc, horder]
    · show (s.channel ++ [output]).length ≤ capacity
      rw [List.length_append]
      exact hspace
  | loses i output houtput hdropped =>
    refine ⟨htasks, ?_, horder, hroom, fun halive => ?_⟩
    · apply perm_of_taken houtputs (perm_eraseIdx houtput)
      show (_ ++ (s.lost ++ [output]) ++ _).Perm _
      rw [← List.append_assoc, List.append_assoc (_ ++ _)]
      exact List.perm_middle
    · rw [hdropped] at halive
      cases halive
  | takes w worker output channel hworker hstage hchannel =>
    rw [hchannel] at horder hroom
    refine ⟨htasks, houtputs, ?_, Nat.le_of_succ_le hroom, hkept⟩
    show s.calls ++ [output] ++ channel = s.sent
    rw [List.append_assoc]
    exact horder
  | drops halive hended =>
    exact ⟨htasks, houtputs, horder, hroom, fun h => by cases h⟩

/-- **No output is lost, and none is handled twice**: the tasks and their outputs stay
accounted for, whatever the tasks, the workers and the owner do. -/
theorem ledger_of_reaches (hrun : Reaches step (new : TaskDispatcher I O) t) : t.Ledger :=
  hrun.invariant Ledger.start fun _ _ _ ha _ hstep => ha.step hstep

/-- The second task's output is handled first, the first task's by the next worker. -/
theorem ledger_of_reaches_restarted :
    ∃ t : TaskDispatcher Nat Nat,
      exec step new
        [.dispatch 7, .dispatch 8, .finishes 1 80, .sends 0, .start, .lock 0, .look 0, .look 0,
          .cancel 0, .handled 0 true, .look 0, .finishes 0 70, .sends 0, .start, .lock 1, .look 1,
          .look 1] = some t ∧
      t.calls = [(1, 80), (0, 70)] ∧ t.Ledger :=
  ⟨_, rfl, rfl, ledger_of_reaches (Runs.of_exec
    [.dispatch 7, .dispatch 8, .finishes 1 80, .sends 0, .start, .lock 0, .look 0, .look 0,
      .cancel 0, .handled 0 true, .look 0, .finishes 0 70, .sends 0, .start, .lock 1, .look 1,
      .look 1] rfl)⟩

/-! ## One worker at a time -/

/-- The receiver is locked by the worker that is past the lock; the dispatcher has a sender
of its own while it lives, and workers only then. -/
structure Serial (s : TaskDispatcher I O) : Prop where
  holder : ∀ w worker, s.workers[w]? = some worker →
    (worker.stage.holds = true ↔ s.holder = some w)
  locked : ∀ w, s.holder = some w → w < s.workers.length
  senders : s.senders = s.executing.length + s.sending.length + (!s.dropped).toNat
  ended : s.dropped = true → ∀ worker ∈ s.workers, worker.stage.isEnded = true
  closed : ∀ worker ∈ s.workers, worker.stage ≠ .ended .closed

theorem Serial.start : (new : TaskDispatcher I O).Serial where
  holder w worker h := by cases h
  locked w h := by cases h
  senders := rfl
  ended h := by cases h
  closed worker h := by cases h

/-- One worker is replaced, and the lock is passed accordingly. -/
theorem Serial.replace (h : s.Serial) {w : Nat} {worker a : Worker} {holder : Option Nat}
    (hworker : s.workers[w]? = some worker)
    (hholder : a.stage.holds = true ↔ holder = some w)
    (hothers : ∀ v, v ≠ w → (s.holder = some v ↔ holder = some v))
    (hended : worker.stage.isEnded = true → a.stage.isEnded = true)
    (hclosed : a.stage ≠ .ended .closed) :
    ({ s with workers := s.workers.set w a, holder := holder } : TaskDispatcher I O).Serial := by
  have hmem : ∀ {other}, other ∈ s.workers.set w a → other = a ∨ other ∈ s.workers :=
    fun {other} hother => (List.mem_or_eq_of_mem_set hother).symm
  have hw : w < s.workers.length := (List.getElem?_eq_some_iff.mp hworker).1
  refine ⟨fun v other hv => ?_, fun v hv => ?_, h.senders, fun hdropped other hother => ?_,
    fun other hother => ?_⟩
  · by_cases hvw : v = w
    · rw [hvw, List.getElem?_set_self hw] at hv
      rw [hvw, ← Option.some.inj hv]
      exact hholder
    · rw [List.getElem?_set_ne (Ne.symm hvw)] at hv
      rw [h.holder v other hv]
      exact hothers v hvw
  · show v < (s.workers.set w a).length
    rw [List.length_set]
    by_cases hvw : v = w
    · rw [hvw]
      exact hw
    · exact h.locked v ((hothers v hvw).mpr hv)
  · rcases hmem hother with heq | hother
    · rw [heq]
      exact hended (h.ended hdropped worker (List.mem_of_getElem? hworker))
    · exact h.ended hdropped other hother
  · rcases hmem hother with heq | hother
    · rw [heq]
      exact hclosed
    · exact h.closed other hother

/-- The worker that has the receiver goes on with it. -/
theorem Serial.goOn (h : s.Serial) {w : Nat} {worker : Worker} {stage : Stage}
    (hworker : s.workers[w]? = some worker) (hfrom : worker.stage.holds = true)
    (hto : stage.holds = true) : (s.goOn w worker stage).Serial := by
  have hlocked : s.holder = some w := (h.holder w worker hworker).mp hfrom
  apply h.replace hworker
  · exact ⟨fun _ => hlocked, fun _ => hto⟩
  · exact fun _ _ => Iff.rfl
  · exact fun hended => absurd hended (Stage.not_isEnded_of_holds hfrom)
  · intro heq
    rw [show stage = .ended .closed from heq] at hto
    cases hto

/-- The worker that has the receiver lets go of it. -/
theorem Serial.leave (h : s.Serial) {w : Nat} {worker : Worker} {ending : Ending}
    (hworker : s.workers[w]? = some worker) (hfrom : worker.stage.holds = true)
    (hending : ending ≠ .closed) : (s.leave w worker ending).Serial := by
  have hlocked : s.holder = some w := (h.holder w worker hworker).mp hfrom
  apply h.replace hworker
  · constructor <;> intro hholds <;> cases hholds
  · intro v hv
    rw [hlocked]
    exact ⟨fun heq => absurd (Option.some.inj heq).symm hv, fun heq => (by cases heq)⟩
  · exact fun _ => rfl
  · intro heq
    cases heq
    exact hending rfl

theorem Serial.step (h : s.Serial) {l : Label I O} (hstep : s.step l = some s') : s'.Serial := by
  have hsenders := h.senders
  cases moves_of_step hstep with
  | dispatches input halive =>
    refine ⟨h.holder, h.locked, ?_, h.ended, h.closed⟩
    show s.senders + 1 = (s.executing ++ [(s.spawned, input)]).length + s.sending.length +
      (!s.dropped).toNat
    rw [List.length_append, List.length_singleton]
    omega
  | finishes i task output htask =>
    refine ⟨h.holder, h.locked, ?_, h.ended, h.closed⟩
    have hi := (List.getElem?_eq_some_iff.mp htask).1
    show s.senders = (s.executing.eraseIdx i).length + (s.sending ++ [(task.1, output)]).length +
      (!s.dropped).toNat
    rw [List.length_append, List.length_singleton, List.length_eraseIdx_of_lt hi]
    omega
  | panics i task htask =>
    refine ⟨h.holder, h.locked, ?_, h.ended, h.closed⟩
    have hi := (List.getElem?_eq_some_iff.mp htask).1
    show s.senders - 1 = (s.executing.eraseIdx i).length + s.sending.length + (!s.dropped).toNat
    rw [List.length_eraseIdx_of_lt hi]
    omega
  | sends i output houtput | loses i output houtput =>
    refine ⟨h.holder, h.locked, ?_, h.ended, h.closed⟩
    have hi := (List.getElem?_eq_some_iff.mp houtput).1
    show s.senders - 1 = s.executing.length + (s.sending.eraseIdx i).length + (!s.dropped).toNat
    rw [List.length_eraseIdx_of_lt hi]
    omega
  | starts halive =>
    refine ⟨fun w worker hworker => ?_, fun w hw => ?_, hsenders, fun hdropped => ?_,
      fun worker hworker => ?_⟩
    · by_cases hw : w < s.workers.length
      · rw [List.getElem?_append_left hw] at hworker
        exact h.holder w worker hworker
      · -- it is the new worker, which waits for the lock
        have hnew : worker = ⟨false, .locking⟩ := by
          rw [List.getElem?_append_right (Nat.le_of_not_lt hw)] at hworker
          exact List.mem_singleton.mp (List.mem_of_getElem? hworker)
        rw [hnew]
        exact ⟨fun hholds => (by cases hholds), fun hlocked => absurd (h.locked w hlocked) hw⟩
    · show w < (s.workers ++ [(⟨false, .locking⟩ : Worker)]).length
      rw [List.length_append]
      exact Nat.lt_add_right _ (h.locked w hw)
    · rw [halive] at hdropped
      cases hdropped
    · rcases List.mem_append.mp hworker with hold | hnew
      · exact h.closed worker hold
      · rw [List.mem_singleton.mp hnew]
        exact fun heq => by cases heq
  | cancels w worker hworker =>
    exact h.replace hworker (h.holder w worker hworker) (fun _ _ => Iff.rfl) (fun hended => hended)
      (h.closed worker (List.mem_of_getElem? hworker))
  | locks w worker hworker hstage hfree =>
    apply h.replace hworker
    · exact ⟨fun _ => rfl, fun _ => rfl⟩
    · intro v hv
      rw [hfree]
      exact ⟨fun heq => (by cases heq), fun heq => absurd (Option.some.inj heq).symm hv⟩
    · intro hended
      rw [hstage] at hended
      cases hended
    · exact fun heq => by cases heq
  | goesOn l w worker stage hworker hfrom hto =>
    apply h.goOn hworker hfrom
    rcases hto with rfl | ⟨rfl, _⟩ | rfl <;> rfl
  | takes w worker output channel hworker hstage hchannel =>
    have hgone : (s.goOn w worker .handling).Serial := h.goOn hworker (by rw [hstage]; rfl) rfl
    exact ⟨hgone.holder, hgone.locked, hgone.senders, hgone.ended, hgone.closed⟩
  | leaves l w worker ending hworker hfrom hclosed =>
    apply h.leave hworker hfrom
    intro heq
    -- a worker that has not ended keeps the dispatcher alive, and with it a sender
    by_cases hdropped : s.dropped
    · exact Stage.not_isEnded_of_holds hfrom
        (h.ended hdropped worker (List.mem_of_getElem? hworker))
    · rw [hclosed heq, Bool.eq_false_of_not_eq_true hdropped] at hsenders
      cases hsenders
  | givesUp w worker hworker hstage =>
    apply h.replace hworker
    · rw [← h.holder w worker hworker, hstage]
      exact Iff.rfl
    · exact fun _ _ => Iff.rfl
    · exact fun _ => rfl
    · exact fun heq => by cases heq
  | drops halive hended =>
    refine ⟨h.holder, h.locked, ?_, fun _ => hended, h.closed⟩
    rw [halive] at hsenders
    show s.senders - 1 = s.executing.length + s.sending.length + 0
    rw [hsenders]
    rfl

theorem serial_of_reaches (hrun : Reaches step (new : TaskDispatcher I O) t) : t.Serial :=
  hrun.invariant Serial.start fun _ _ _ ha _ hstep => ha.step hstep

theorem Serial.eq_of_holds (h : s.Serial) {v w : Nat} {other worker : Worker}
    (hother : s.workers[v]? = some other) (hworker : s.workers[w]? = some worker)
    (hv : other.stage.holds = true) (hw : worker.stage.holds = true) : v = w := by
  have hlocked : s.holder = some v := (h.holder v other hother).mp hv
  rw [(h.holder w worker hworker).mp hw] at hlocked
  exact (Option.some.inj hlocked).symm

/-- **One output is handled at a time**: however often the dispatcher is started, of its
workers one at most is past the lock of the receiver; and no worker ends because it found
the channel closed. -/
theorem eq_of_holds_of_reaches (hrun : Reaches step (new : TaskDispatcher I O) t) :
    (∀ v w : Nat, ∀ other worker : Worker, t.workers[v]? = some other →
      t.workers[w]? = some worker → other.stage.holds = true → worker.stage.holds = true → v = w) ∧
    ∀ worker ∈ t.workers, worker.stage ≠ .ended .closed := by
  have hend : t.Serial := serial_of_reaches hrun
  exact ⟨fun _ _ _ _ hother hworker hv hw => hend.eq_of_holds hother hworker hv hw, hend.closed⟩

/-- A second worker, started while the first is at work, gets the receiver when the first
is aborted. -/
theorem eq_of_holds_of_reaches_aborted :
    ∃ t : TaskDispatcher Nat Nat,
      exec step new
        [.start, .start, .lock 0, .look 0, .look 0, .abort 0, .lock 1] = some t ∧
      t.workers = [⟨false, .ended .aborted⟩, ⟨false, .atToken⟩] ∧
      ((∀ v w : Nat, ∀ other worker : Worker, t.workers[v]? = some other →
          t.workers[w]? = some worker → other.stage.holds = true → worker.stage.holds = true →
          v = w) ∧
        ∀ worker ∈ t.workers, worker.stage ≠ .ended .closed) :=
  ⟨_, rfl, rfl, eq_of_holds_of_reaches (Runs.of_exec
    [.start, .start, .lock 0, .look 0, .look 0, .abort 0, .lock 1] rfl)⟩

/-! ## Cancellation -/

/-- A worker has looked past its token. -/
def Exposed (s : TaskDispatcher I O) : Prop := ∃ worker ∈ s.workers, worker.stage = .atChannel

theorem exposed_of_set {w : Nat} {a : Worker} (ha : a.stage = .atChannel → s.Exposed)
    (h : ∃ worker ∈ s.workers.set w a, worker.stage = .atChannel) : s.Exposed := by
  obtain ⟨worker, hworker, hstage⟩ := h
  rcases List.mem_or_eq_of_mem_set hworker with hold | hnew
  · exact ⟨worker, hold, hstage⟩
  · rw [hnew] at hstage
    exact ha hstage

/-- The dispatcher is stopped: since the handler's calls were `base` it has been called once
at most, by a worker that had looked past its token, and none has done so since. -/
structure Stopped (exposed : Prop) (base : List (Nat × O)) (s : TaskDispatcher I O) : Prop where
  serial : s.Serial
  cancelled : ∀ worker ∈ s.workers, worker.cancelled = true
  calls : s.calls = base ∧ (s.Exposed → exposed) ∨
    exposed ∧ (∃ output, s.calls = base ++ [output]) ∧ ¬ s.Exposed

/-- What neither calls the handler nor looks past a token keeps the dispatcher stopped. -/
theorem Stopped.kept {exposed : Prop} {base : List (Nat × O)} (h : s.Stopped exposed base)
    (hserial : s'.Serial) (hcancelled : ∀ worker ∈ s'.workers, worker.cancelled = true)
    (hcalls : s'.calls = s.calls) (hexposed : s'.Exposed → s.Exposed) :
    s'.Stopped exposed base := by
  refine ⟨hserial, hcancelled, ?_⟩
  rw [hcalls]
  rcases h.calls with ⟨hbase, himp⟩ | ⟨hyes, hmore, hnone⟩
  · exact Or.inl ⟨hbase, fun hs' => himp (hexposed hs')⟩
  · exact Or.inr ⟨hyes, hmore, fun hs' => hnone (hexposed hs')⟩

theorem Stopped.step {exposed : Prop} {base : List (Nat × O)} (h : s.Stopped exposed base)
    {l : Label I O} (hl : l ≠ .start) (hstep : s.step l = some s') :
    s'.Stopped exposed base := by
  have hserial : s'.Serial := h.serial.step hstep
  have hset : ∀ {w : Nat} {worker a : Worker}, s.workers[w]? = some worker →
      (worker.cancelled = true → a.cancelled = true) →
      ∀ other ∈ s.workers.set w a, other.cancelled = true := by
    intro w worker a hworker ha other hother
    rcases List.mem_or_eq_of_mem_set hother with hold | hnew
    · exact h.cancelled other hold
    · rw [hnew]
      exact ha (h.cancelled worker (List.mem_of_getElem? hworker))
  cases moves_of_step hstep with
  | dispatches | finishes | panics | sends | loses | drops =>
    exact h.kept hserial h.cancelled rfl fun hs' => hs'
  | starts => exact absurd rfl hl
  | cancels w worker hworker =>
    apply h.kept hserial (hset hworker fun _ => rfl) rfl
    exact exposed_of_set fun hstage => ⟨worker, List.mem_of_getElem? hworker, hstage⟩
  | locks w worker hworker =>
    apply h.kept hserial (hset hworker id) rfl
    exact exposed_of_set fun hstage => by cases hstage
  | goesOn l w worker stage hworker hfrom hto =>
    apply h.kept hserial (hset hworker id) rfl
    apply exposed_of_set
    intro hstage
    rcases hto with rfl | ⟨rfl, hgoing⟩ | rfl
    · cases hstage
    · rw [h.cancelled worker (List.mem_of_getElem? hworker)] at hgoing
      cases hgoing
    · cases hstage
  | takes w worker output channel hworker hstage hchannel =>
    have hyes : s.Exposed := ⟨worker, List.mem_of_getElem? hworker, hstage⟩
    refine ⟨hserial, hset hworker id, Or.inr ?_⟩
    rcases h.calls with ⟨hbase, himp⟩ | ⟨_, _, hnone⟩
    · refine ⟨himp hyes, ⟨output, by rw [← hbase]⟩, ?_⟩
      -- whoever looks at the channel has the receiver, as the worker at work has
      rintro ⟨other, hother, hlooks⟩
      obtain ⟨v, hv⟩ := List.mem_iff_getElem?.mp hother
      have hw : w < s.workers.length := (List.getElem?_eq_some_iff.mp hworker).1
      have hself : (s.workers.set w { worker with stage := .handling })[w]? =
          some { worker with stage := .handling } := List.getElem?_set_self hw
      have hvw : v = w := hserial.eq_of_holds hv hself (by rw [hlooks]; rfl) rfl
      rw [hvw] at hv
      rw [← Option.some.inj (hself.symm.trans hv)] at hlooks
      cases hlooks
    · exact absurd hyes hnone
  | leaves l w worker ending hworker hfrom =>
    apply h.kept hserial (hset hworker id) rfl
    exact exposed_of_set fun hstage => by cases hstage
  | givesUp w worker hworker hstage =>
    apply h.kept hserial (hset hworker id) rfl
    exact exposed_of_set fun hstage => by cases hstage

/-- **Cancellation is final**: once every worker is cancelled, and until the dispatcher is
started again, the handler is called once more at most, and only if a worker had looked past
its token. -/
theorem calls_of_cancelled (hrun : Reaches step (new : TaskDispatcher I O) s)
    (hcancelled : ∀ worker ∈ s.workers, worker.cancelled = true)
    (hlater : Runs step (fun _ l => l ≠ .start) s t) :
    t.calls = s.calls ∨ s.Exposed ∧ ∃ output, t.calls = s.calls ++ [output] := by
  have hstart : s.Stopped s.Exposed s.calls :=
    ⟨serial_of_reaches hrun, hcancelled, Or.inl ⟨rfl, id⟩⟩
  have hend : t.Stopped s.Exposed s.calls :=
    hlater.invariant hstart fun _ _ _ ha hl hstep => ha.step hl hstep
  rcases hend.calls with ⟨hbase, _⟩ | ⟨hyes, hmore, _⟩
  · exact Or.inl hbase
  · exact Or.inr ⟨hyes, hmore⟩

/-- The worker is cancelled when it has looked past its token: one more output is handled,
and the other is not. -/
theorem calls_of_cancelled_looked_past :
    ∃ s t : TaskDispatcher Nat Nat,
      exec step new
        [.dispatch 7, .dispatch 8, .finishes 0 70, .finishes 0 80, .sends 0, .sends 0, .start,
          .lock 0, .look 0, .cancel 0] = some s ∧
      exec step s [.look 0, .handled 0 true, .look 0] = some t ∧
      t.workers = [⟨true, .ended .cancelled⟩] ∧ t.channel = [(1, 80)] ∧
      (t.calls = s.calls ∨ s.Exposed ∧ ∃ output, t.calls = s.calls ++ [output]) := by
  refine ⟨_, _, rfl, rfl, rfl, rfl, ?_⟩
  apply calls_of_cancelled
  · exact Runs.of_exec
      [.dispatch 7, .dispatch 8, .finishes 0 70, .finishes 0 80, .sends 0, .sends 0, .start,
        .lock 0, .look 0, .cancel 0] rfl
  · intro worker hworker
    rw [List.mem_singleton.mp hworker]
  · refine Runs.of_exec_of_forall [.look 0, .handled 0 true, .look 0] (fun l hl _ hstart => ?_) rfl
    rw [hstart] at hl
    simp only [List.mem_cons, reduceCtorEq, List.not_mem_nil, or_self] at hl

end TaskDispatcher
end SpannerPaxos
