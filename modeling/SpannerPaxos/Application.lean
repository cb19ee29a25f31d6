import SpannerPaxos.Runs
import SpannerPaxos.TokenTree

/-! # The application

`main` starts the gRPC server, the state machine and the manager, waits for the shutdown
token and stops the manager.  The server cancels the shutdown token when it fails; the
manager listens for the signals of the operating system.  But it holds a child of the
shutdown token, and cancels that one: a signal ends the manager's own task, and the
application goes on.  And when the server has failed, what the manager stops is a state
machine whose `on_stop` is not there yet.
-/
namespace SpannerPaxos
namespace Application

/-- Where a background task stands. -/
inductive TaskStage where
  | idle
  | running
  /-- It is over, with an error or without. -/
  | ended (failed : Bool)
  deriving DecidableEq

inductive MainEnd where
  /-- An `.expect` of the start failed. -/
  | expectFailed
  /-- `todo!()` in the state machine's `on_stop`. -/
  | notImplemented
  /-- A signal that nobody listens for ends the process. -/
  | killed
  | returned
  deriving DecidableEq

/-- What `main` does next. -/
inductive MainStage where
  | startPaxosServer
  | runMachine
  | startManager
  /-- It waits for the shutdown token. -/
  | waiting
  | stopManager
  | ended (how : MainEnd)
  deriving DecidableEq

/-- `shutdown_token`. -/
def shutdownToken : List Nat := []

/-- The state machine's own token, the runner's child of the one it is run with. -/
def machineToken : List Nat := TokenTree.child (TokenTree.child shutdownToken 0) 0

/-- The manager's own token, the runner's child of the shutdown token. -/
def managerToken : List Nat := TokenTree.child shutdownToken 1

/-- The token of the `k`-th Leader that the member has been. -/
def leaderToken (k : Nat) : List Nat := TokenTree.child machineToken k

/-- What a poll of the manager's task finds. -/
inductive Ready where
  | cancelled
  | sigint
  | sigterm
  | nothing
  deriving DecidableEq

inductive Label where
  /-- `main` goes on; `ok` is whether the call that may fail succeeds. -/
  | main (ok : Bool)
  | serverFails
  | serverShutsDown
  /-- The event loop has returned or panicked. -/
  | machineEnds
  | leads
  | leaderDrops (k : Nat)
  /-- The operating system sends the signal. -/
  | sigint
  | sigterm
  /-- The manager's task is polled; `ctrlC` says that the poll came to the branch of
  `ctrl_c`, which from then on keeps the signal from ending the process. -/
  | managerPoll (ready : Ready) (ctrlC : Bool)
  deriving DecidableEq

end Application

structure Application where
  tokens : TokenTree
  main : Application.MainStage
  server : Application.TaskStage
  machine : Application.TaskStage
  manager : Application.TaskStage
  sigintHandled : Bool
  sigtermHandled : Bool
  /-- The signals that the manager has yet to see. -/
  sigintPending : Bool
  sigtermPending : Bool
  /-- How often the member has become a Leader. -/
  leaders : Nat
  /-- The Leaders that have been dropped. -/
  dropped : List Nat
  deriving DecidableEq

namespace Application

def start : Application where
  tokens := .new
  main := .startPaxosServer
  server := .idle
  machine := .idle
  manager := .idle
  sigintHandled := false
  sigtermHandled := false
  sigintPending := false
  sigtermPending := false
  leaders := 0
  dropped := []

/-- The next step of `main`. -/
def mainStep (s : Application) (ok : Bool) : Option Application :=
  match s.main with
  | .startPaxosServer =>
    if ok then some { s with server := .running, main := .runMachine }
    else some { s with main := .ended .expectFailed }
  -- `on_start` of the state machine does not fail
  | .runMachine => some { s with machine := .running, main := .startManager }
  | .startManager =>
    if ok then some { s with manager := .running, sigtermHandled := true, main := .waiting }
    else some { s with main := .ended .expectFailed }
  | .waiting =>
    if s.tokens.isCancelled shutdownToken then some { s with main := .stopManager } else none
  -- the runner of the manager cancels its token, and then `on_stop` stops the state machine
  | .stopManager => some { s with
    tokens := (s.tokens.cancel managerToken).cancel machineToken
    main := .ended .notImplemented }
  | .ended _ => none

/-- A poll of the manager's task. -/
def managerPoll (s : Application) (ready : Ready) (ctrlC : Bool) : Option Application :=
  if s.manager = .running then
    let s := { s with sigintHandled := s.sigintHandled || ctrlC }
    match ready with
    | .cancelled =>
      if s.tokens.isCancelled managerToken then some { s with manager := .ended false } else none
    | .sigint =>
      if s.sigintPending then
        some { s with tokens := s.tokens.cancel managerToken, manager := .ended false }
      else none
    | .sigterm =>
      if s.sigtermPending then
        some { s with tokens := s.tokens.cancel managerToken, manager := .ended false }
      else none
    | .nothing =>
      if ctrlC ∧ ¬ s.tokens.isCancelled managerToken ∧ ¬ s.sigintPending ∧ ¬ s.sigtermPending then
        some s
      else none
  else none

def step (s : Application) (l : Label) : Option Application :=
  match s.main with
  | .ended _ => none
  | _ =>
    match l with
    | .main ok => s.mainStep ok
    | .serverFails =>
      if s.server = .running then
        some { s with server := .ended true, tokens := s.tokens.cancel shutdownToken }
      else none
    | .serverShutsDown =>
      if s.server = .running ∧ s.tokens.isCancelled shutdownToken then
        some { s with server := .ended false }
      else none
    | .machineEnds =>
      if s.machine = .running then some { s with machine := .ended false } else none
    | .leads =>
      if s.machine = .running then some { s with leaders := s.leaders + 1 } else none
    | .leaderDrops k =>
      if k < s.leaders ∧ k ∉ s.dropped then
        some { s with tokens := s.tokens.cancel (leaderToken k), dropped := k :: s.dropped }
      else none
    | .sigint =>
      if s.sigintHandled then some { s with sigintPending := true }
      else some { s with main := .ended .killed }
    | .sigterm =>
      if s.sigtermHandled then some { s with sigtermPending := true }
      else some { s with main := .ended .killed }
    | .managerPoll ready ctrlC => s.managerPoll ready ctrlC

/-! ## Who cancels what -/

/-- Where `main` stands, something has to hold. -/
def MainStage.isCritical : MainStage → Bool
  | startPaxosServer | stopManager | ended .notImplemented | ended .returned => true
  | runMachine | startManager | waiting | ended .expectFailed | ended .killed => false

/-- What every step keeps. -/
structure Contained (s : Application) : Prop where
  cancelled : ∀ token ∈ s.tokens.cancelled,
    token = managerToken ∨ (∃ k ∈ s.dropped, token = leaderToken k) ∨ s.server = .ended true
  failed : s.server = .ended true → s.tokens.isCancelled shutdownToken = true
  dropped : ∀ k ∈ s.dropped, s.tokens.isCancelled (leaderToken k) = true
  starts : s.main = .startPaxosServer → s.server = .idle
  stops : s.main = .stopManager ∨ s.main = .ended .notImplemented → s.server = .ended true
  returns : s.main ≠ .ended .returned

variable {s s' : Application}

namespace Contained

theorem start_contained : start.Contained where
  cancelled _ hmem := by cases hmem
  failed hfailed := by cases hfailed
  dropped _ hmem := by cases hmem
  starts _ := rfl
  stops hmain := by rcases hmain with hmain | hmain <;> cases hmain
  returns hmain := by cases hmain

/-- A step that cancels nothing, and neither starts nor ends the server. -/
theorem kept (h : s.Contained) (htokens : s'.tokens = s.tokens) (hserver : s'.server = s.server)
    (hdropped : s'.dropped = s.dropped)
    (hstarts : s'.main = .startPaxosServer → s.main = .startPaxosServer)
    (hstops : s'.main = .stopManager ∨ s'.main = .ended .notImplemented →
      s.server = .ended true)
    (hreturns : s'.main ≠ .ended .returned) : s'.Contained where
  cancelled := by
    rw [htokens, hserver, hdropped]
    exact h.cancelled
  failed := by
    rw [htokens, hserver]
    exact h.failed
  dropped := by
    rw [htokens, hdropped]
    exact h.dropped
  starts hmain := hserver.trans (h.starts (hstarts hmain))
  stops hmain := hserver.trans (hstops hmain)
  returns := hreturns

/-- `main` goes on to where nothing has to hold. -/
theorem goesOn (h : s.Contained) (htokens : s'.tokens = s.tokens) (hserver : s'.server = s.server)
    (hdropped : s'.dropped = s.dropped) (hmain : s'.main.isCritical = false) : s'.Contained := by
  apply h.kept htokens hserver hdropped
  · intro heq
    rw [heq] at hmain
    cases hmain
  · rintro (heq | heq)
    · rw [heq] at hmain
      cases hmain
    · rw [heq] at hmain
      cases hmain
  · intro heq
    rw [heq] at hmain
    cases hmain

/-- A step beside `main` that cancels nothing, and neither starts nor ends the server. -/
theorem beside (h : s.Contained) (htokens : s'.tokens = s.tokens) (hserver : s'.server = s.server)
    (hdropped : s'.dropped = s.dropped) (hmain : s'.main = s.main) : s'.Contained :=
  h.kept htokens hserver hdropped (fun heq => hmain ▸ heq) (fun heq => h.stops (hmain ▸ heq))
    (hmain ▸ h.returns)

/-- A cancelled token stays cancelled. -/
theorem cancels (h : s.Contained) {token : List Nat}
    (htoken : token = managerToken ∨ s.server = .ended true)
    (htokens : s'.tokens = s.tokens.cancel token) (hserver : s'.server = s.server)
    (hdropped : s'.dropped = s.dropped) (hmain : s'.main = s.main) : s'.Contained where
  cancelled above hmem := by
    rw [htokens] at hmem
    rw [hserver, hdropped]
    rcases List.mem_cons.mp hmem with rfl | hmem
    · rcases htoken with heq | hfailed
      · exact Or.inl heq
      · exact Or.inr (Or.inr hfailed)
    · exact h.cancelled above hmem
  failed hfailed := by
    rw [htokens]
    exact TokenTree.isCancelled_cancel.mpr (Or.inr (h.failed (hserver ▸ hfailed)))
  dropped k hmem := by
    rw [htokens]
    exact TokenTree.isCancelled_cancel.mpr (Or.inr (h.dropped k (hdropped ▸ hmem)))
  starts hstarts := hserver.trans (h.starts (hmain ▸ hstarts))
  stops hstops := hserver.trans (h.stops (hmain ▸ hstops))
  returns := hmain ▸ h.returns

/-- The shutdown token is cancelled by the server only. -/
theorem shutdown_iff (h : s.Contained) :
    s.tokens.isCancelled shutdownToken = true ↔ s.server = .ended true := by
  constructor
  · intro hcancelled
    obtain ⟨above, hmem, hprefix⟩ := TokenTree.isCancelled_iff.mp hcancelled
    obtain rfl := List.prefix_nil.mp hprefix
    rcases h.cancelled [] hmem with heq | ⟨k, _, heq⟩ | hfailed
    · cases heq
    · cases heq
    · exact hfailed
  · exact h.failed

/-- The token of the state machine is below none that is cancelled, unless the server has
failed. -/
theorem machine_iff (h : s.Contained) :
    s.tokens.isCancelled machineToken = true ↔ s.server = .ended true := by
  constructor
  · intro hcancelled
    obtain ⟨above, hmem, hprefix⟩ := TokenTree.isCancelled_iff.mp hcancelled
    rcases h.cancelled above hmem with rfl | ⟨k, _, rfl⟩ | hfailed
    · exact absurd hprefix (by decide)
    · have hle : 3 ≤ 2 := hprefix.length_le
      omega
    · exact hfailed
  · intro hfailed
    exact TokenTree.isCancelled_child (TokenTree.isCancelled_child (h.failed hfailed) 0) 0

/-- A Leader's token is cancelled with the Leader, and not before. -/
theorem leader_iff (h : s.Contained) (k : Nat) :
    s.tokens.isCancelled (leaderToken k) = true ↔ k ∈ s.dropped ∨ s.server = .ended true := by
  constructor
  · intro hcancelled
    obtain ⟨above, hmem, hprefix⟩ := TokenTree.isCancelled_iff.mp hcancelled
    rcases h.cancelled above hmem with rfl | ⟨j, hj, rfl⟩ | hfailed
    · have hhead : (1 : Nat) = 0 := (List.cons_prefix_cons.mp hprefix).1
      omega
    · have heq : leaderToken j = leaderToken k := hprefix.eq_of_length rfl
      obtain rfl : j = k := by simpa [leaderToken, TokenTree.child] using heq
      exact Or.inl hj
    · exact Or.inr hfailed
  · rintro (hdropped | hfailed)
    · exact h.dropped k hdropped
    · exact TokenTree.isCancelled_child (h.machine_iff.mpr hfailed) k

/-- A server that has not been started has not failed. -/
theorem startServer (h : s.Contained) (hmain : s.main = .startPaxosServer) :
    ({ s with server := .running, main := .runMachine } : Application).Contained where
  cancelled token hmem := by
    rcases h.cancelled token hmem with heq | hleader | hfailed
    · exact Or.inl heq
    · exact Or.inr (Or.inl hleader)
    · rw [h.starts hmain] at hfailed
      cases hfailed
  failed hfailed := by cases hfailed
  dropped := h.dropped
  starts heq := by cases heq
  stops heq := by rcases heq with heq | heq <;> cases heq
  returns heq := by cases heq

theorem mainStep (h : s.Contained) {ok : Bool} (hstep : s.mainStep ok = some s') :
    s'.Contained := by
  unfold Application.mainStep at hstep
  split at hstep
  · rename_i hmain
    split at hstep
    · cases hstep
      exact h.startServer hmain
    · cases hstep
      exact h.goesOn rfl rfl rfl rfl
  · cases hstep
    exact h.goesOn rfl rfl rfl rfl
  · split at hstep
    · cases hstep
      exact h.goesOn rfl rfl rfl rfl
    · cases hstep
      exact h.goesOn rfl rfl rfl rfl
  · split at hstep
    · rename_i hcancelled
      cases hstep
      have hfailed := h.shutdown_iff.mp hcancelled
      exact h.kept rfl rfl rfl (fun heq => by cases heq) (fun _ => hfailed) (fun heq => by cases heq)
    · cases hstep
  · rename_i hmain
    cases hstep
    have hfailed := h.stops (Or.inl hmain)
    have hmanager : ({ s with tokens := s.tokens.cancel managerToken } : Application).Contained :=
      h.cancels (Or.inl rfl) rfl rfl rfl rfl
    have hmachine : ({ s with
        tokens := (s.tokens.cancel managerToken).cancel machineToken } : Application).Contained :=
      hmanager.cancels (Or.inr hfailed) rfl rfl rfl rfl
    exact hmachine.kept rfl rfl rfl (fun heq => by cases heq) (fun _ => hfailed)
      (fun heq => by cases heq)
  · cases hstep

theorem managerPoll (h : s.Contained) {ready : Ready} {ctrlC : Bool}
    (hstep : s.managerPoll ready ctrlC = some s') : s'.Contained := by
  unfold Application.managerPoll at hstep
  split at hstep
  · cases ready with
    | cancelled =>
      dsimp only at hstep
      split at hstep
      · cases hstep
        exact h.beside rfl rfl rfl rfl
      · cases hstep
    | sigint | sigterm =>
      dsimp only at hstep
      split at hstep
      · cases hstep
        exact h.cancels (Or.inl rfl) rfl rfl rfl rfl
      · cases hstep
    | nothing =>
      dsimp only at hstep
      split at hstep
      · cases hstep
        exact h.beside rfl rfl rfl rfl
      · cases hstep
  · cases hstep

/-- The server cancels the shutdown token when it fails. -/
theorem serverFails (h : s.Contained) (hrunning : s.server = .running) :
    ({ s with server := .ended true, tokens := s.tokens.cancel shutdownToken } :
      Application).Contained where
  cancelled _ _ := Or.inr (Or.inr rfl)
  failed _ := TokenTree.isCancelled_cancel.mpr (Or.inl (List.prefix_refl _))
  dropped _ _ := TokenTree.isCancelled_cancel.mpr (Or.inl List.nil_prefix)
  starts hmain := by
    rw [h.starts hmain] at hrunning
    cases hrunning
  stops _ := rfl
  returns := h.returns

theorem leaderDrops (h : s.Contained) (k : Nat) :
    ({ s with tokens := s.tokens.cancel (leaderToken k), dropped := k :: s.dropped } :
      Application).Contained where
  cancelled token hmem := by
    rcases List.mem_cons.mp hmem with rfl | hmem
    · exact Or.inr (Or.inl ⟨k, List.mem_cons_self, rfl⟩)
    · rcases h.cancelled token hmem with heq | ⟨j, hj, heq⟩ | hfailed
      · exact Or.inl heq
      · exact Or.inr (Or.inl ⟨j, List.mem_cons_of_mem k hj, heq⟩)
      · exact Or.inr (Or.inr hfailed)
  failed hfailed := TokenTree.isCancelled_cancel.mpr (Or.inr (h.failed hfailed))
  dropped j hmem := by
    apply TokenTree.isCancelled_cancel.mpr
    rcases List.mem_cons.mp hmem with rfl | hmem
    · exact Or.inl (List.prefix_refl _)
    · exact Or.inr (h.dropped j hmem)
  starts := h.starts
  stops := h.stops
  returns := h.returns

theorem step (h : s.Contained) {l : Label} (hstep : s.step l = some s') : s'.Contained := by
  unfold Application.step at hstep
  split at hstep
  · cases hstep
  · cases l with
    | main ok => exact h.mainStep hstep
    | serverFails =>
      dsimp only at hstep
      split at hstep
      · rename_i hrunning
        cases hstep
        exact h.serverFails hrunning
      · cases hstep
    | serverShutsDown =>
      dsimp only at hstep
      split at hstep
      · rename_i hshuts
        -- only a server that has failed cancels the shutdown token
        have hfailed := h.shutdown_iff.mp hshuts.2
        rw [hshuts.1] at hfailed
        cases hfailed
      · cases hstep
    | machineEnds | leads =>
      dsimp only at hstep
      split at hstep
      · cases hstep
        exact h.beside rfl rfl rfl rfl
      · cases hstep
    | leaderDrops k =>
      dsimp only at hstep
      split at hstep
      · cases hstep
        exact h.leaderDrops k
      · cases hstep
    | sigint | sigterm =>
      dsimp only at hstep
      split at hstep
      · cases hstep
        exact h.beside rfl rfl rfl rfl
      · cases hstep
        exact h.goesOn rfl rfl rfl rfl
    | managerPoll ready ctrlC => exact h.managerPoll hstep

end Contained

/-- **Only a failure of the server shuts the application down**, no signal: until then `main`
waits, and neither the state machine's token nor that of a Leader in office is cancelled.
And `main` never returns. -/
theorem shutdown_of_reaches (h : Reaches Application.step start s) :
    s.main ≠ .ended .returned ∧
    (s.tokens.isCancelled machineToken = true ↔ s.server = .ended true) ∧
    (∀ k, s.tokens.isCancelled (leaderToken k) = true ↔
      k ∈ s.dropped ∨ s.server = .ended true) ∧
    (s.main = .waiting → ∀ ok, (s.step (.main ok)).isSome = true ↔ s.server = .ended true) := by
  have hcontained : s.Contained :=
    h.invariant .start_contained fun _ _ _ (ha : Contained _) _ hstep => ha.step hstep
  refine ⟨hcontained.returns, hcontained.machine_iff, hcontained.leader_iff, fun hmain ok => ?_⟩
  rw [← hcontained.shutdown_iff]
  simp only [Application.step, hmain, Application.mainStep]
  split
  · rename_i hcancelled
    exact iff_of_true rfl hcancelled
  · rename_i hcancelled
    exact iff_of_false Bool.false_ne_true hcancelled

/-- The manager sees a SIGTERM, and its task ends; the member leads on, and `main` waits. -/
theorem shutdown_of_reaches_sigterm :
    ∃ s, exec Application.step start [.main true, .main true, .main true,
        .managerPoll .nothing true, .leads, .sigterm, .managerPoll .sigterm false] = some s ∧
      s.manager = .ended false ∧ s.tokens.isCancelled (leaderToken 0) = false ∧
      ∀ ok, s.step (.main ok) = none := by
  obtain ⟨s, hs, hmanager, hserver, hdropped, hmain⟩ : ∃ s, exec Application.step start
      [.main true, .main true, .main true, .managerPoll .nothing true, .leads, .sigterm,
        .managerPoll .sigterm false] = some s ∧ s.manager = .ended false ∧
      s.server = .running ∧ s.dropped = [] ∧ s.main = .waiting :=
    ⟨_, rfl, rfl, rfl, rfl, rfl⟩
  obtain ⟨_, _, hleader, hwaits⟩ := shutdown_of_reaches (Runs.of_exec _ hs)
  have hserver' : ¬ s.server = .ended true := by simp [hserver]
  refine ⟨s, hs, hmanager, ?_, fun ok => ?_⟩
  · rw [Bool.eq_false_iff, ne_eq, hleader 0, hdropped]
    rintro (hmem | hfailed)
    · cases hmem
    · exact hserver' hfailed
  · by_contra hsome
    exact hserver' ((hwaits hmain ok).mp (Option.isSome_iff_ne_none.mpr hsome))

end Application
end SpannerPaxos
