import P2pDriver.Driver
import P2pDriver.Library.Ledger
import P2pDriver.Library.Threads

/-!
# The driver as a process

`main`, the two session threads and the signal handler, running over the global
variables they share: `control_data`, `run_command_loop`, `connection_is_valid`.
What the library, the peers and the scheduler do is left open. A read of a
variable finds what was last stored there, each access being one step.

`signal` makes a signal's handler run on top of a thread; while it runs there
the same signal is blocked on that thread, and all others may arrive. `exit`
does not return, and until the process is gone the other threads go on.

The store also keeps the books of the `wpa_ctrl` handles, which no program reads.
-/

namespace P2pDriver

open Resumable Prog

/-- The global variables, the signals that have a handler, and the books of the
handles `wpa_ctrl_open` has returned. -/
structure Shared where
  controlData : Option Handle := none
  runCommandLoop : Bool := false
  connectionIsValid : Bool := false
  registered : List Signal := []
  handles : Books Handle := .clean ∅

/-- What a call of the `wpa_ctrl` library does with handles when `control_data`
is `control`. -/
def handleAccess (control : Option Handle) : Call → Answer → Access Handle
  | .wpaCtrlOpen _, r => { hands := r.handle }
  | .wpaCtrlAttach, _ | .wpaCtrlDetach, _ | .wpaCtrlPending, _ | .wpaCtrlRecv _, _ =>
    { on := some control }
  | .wpaCtrlClose, _ => { on := some control, frees := true }
  | _, _ => {}

namespace Shared

/-- The variables after a call. -/
def assign (s : Shared) : Call → Shared
  | .setControlData h => { s with controlData := h }
  | .setListenForCommands val => { s with runCommandLoop := val }
  | .setConnectionIsValid val => { s with connectionIsValid := val }
  | .signal signum => { s with registered := signum :: s.registered }
  | _ => s

def effect (s : Shared) (c : Call) (r : Answer) : Shared :=
  { s.assign c with handles := s.handles.record (handleAccess s.controlData c r) false }

/-- The answers a call may get. -/
def answers (s : Shared) : Call → Answer → Bool
  | .controlData, r => r.handle = s.controlData
  | .isListeningForCommands, r => r.isSet = s.runCommandLoop
  | .wpaCtrlOpen _, r => r.handle.all fun h => h ∉ s.handles.held
  | .exit _, _ => false
  | _, _ => true

end Shared

/-- The process. -/
def process : System Call Answer Shared Thread Signal Empty where
  text := threadBody
  handler := signalCallbackHandler
  spawns
    | .spawn t => some t
    | _ => none
  joins
    | .join t => some t
    | _ => none
  answers := Shared.answers
  effect := Shared.effect
  delivers s signum := signum ∈ s.registered
  outside _ e := e.elim

abbrev State := Config Call Answer Shared Thread Signal
abbrev Move := Label Call Answer Thread Signal Empty

/-- The process when `main` is called. -/
def initial (ip : IpExchange) : State where
  store := {}
  threads
    | .main => some ⟨(main ip).bind fun _ => .ret (), []⟩
    | _ => none

/-- The moves of a thread that is given some answers. -/
def movesOf {α : Type} (t : Thread) (p : Drv α) (answers : List Answer) : List Move :=
  (p.trace answers).map fun e => .call t e.1 e.2

/-- The calls of the session threads. -/
def Call.isWorker : Call → Bool
  | .wpaCtrlPending | .wpaCtrlRecv _ | .setConnectionIsValid _ | .print _ => true
  | c => c.isCommandHandling

namespace ProcessLemmas

variable {s : Shared} {c : Call} {r : Answer}

theorem worker_of_isCommandHandling (h : c.isCommandHandling = true) : c.isWorker = true := by
  cases c <;> first | exact h | rfl

theorem only_connectedLoop : Only Call.isWorker True connectedLoop := by
  have hstop : Only Call.isWorker True stopRound := by
    refine only_call rfl fun listening => ?_
    split
    · exact only_ret _
    · exact only_call rfl fun _ => only_ret _
  refine only_loop rfl (fun pending => keeps_bind ?_) fun _ => only_ret _
  have hpoll : Only Call.isWorker True (if pending.isSet then recieveMessage else .ret none) := by
    split
    · exact only_call rfl fun r => only_ret _
    · exact only_ret _
  refine hpoll.mono fun o _ _ => ?_
  cases o with
  | none => exact hstop
  | some m =>
    refine keeps_bind ((ConnectLemmas.only_testType m _).mono fun disconnected _ _ => ?_)
    cases disconnected with
    | true => exact only_call rfl fun _ => only_call rfl fun _ => only_call rfl fun _ => only_ret _
    | false => exact hstop

theorem only_threadBody (t : Thread) : Only Call.isWorker True (threadBody t) := by
  cases t with
  | main => exact only_ret _
  | commandHandler =>
    exact CommandHandlerLemmas.only_listenForCommands fun _ hc => worker_of_isCommandHandling hc
  | connectionListener => exact only_connectedLoop

theorem effect_controlData (h : ∀ control, c ≠ .setControlData control) :
    (s.effect c r).controlData = s.controlData := by
  cases c <;> first | rfl | exact absurd rfl (h _)

end ProcessLemmas

end P2pDriver
