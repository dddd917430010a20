import P2pDriver.Connect
import P2pDriver.CommandHandler

/-!
# The driver

`main`, `enter_connected_state`, the life cycle of the control interface and the
signal handler of `connect.cpp`.

Results:
1. `only_initAndAttachCtrl`, `only_signalCallbackHandler`: the calls of the setup
   and of the signal handler.
-/

namespace P2pDriver

open Resumable Prog

/-! ## 1. `init_and_attach_ctrl`, `dispose_p2p` and the signal handler -/

/-- The attach loop of `init_and_attach_ctrl` with `n` attempts left. It goes on
while an attempt times out (`-2`), and breaks when none is left. -/
def attachLoop : Nat → Drv Int
  | 0 => .ret (-2)
  | n + 1 => .call .wpaCtrlAttach fun attachStatus =>
    if attachStatus.ret = -2 then attachLoop n else .ret attachStatus.ret

def initAndAttachCtrl : Drv Unit := do
  let control ← .ask .controlData
  if control.handle ≠ none then return ()
  else
    let opened ← .ask (.wpaCtrlOpen controlPath)
    perform (.setControlData opened.handle)
    if opened.handle = none then return ()
    else
      let attachStatus ← attachLoop maxTimeoutAttempts
      if attachStatus ≠ 0 then
        perform .wpaCtrlClose
        perform (.setControlData none)
      else return ()

def disposeP2p : Drv Unit := do
  let control ← .ask .controlData
  if control.handle = none then return ()
  else
    perform .wpaCtrlDetach
    perform .wpaCtrlClose
    system (sudoBash ++ scriptDisposeP2p)
    perform (.setControlData none)

def initTerminationSignals : Drv Unit := do
  perform (.signal .SIGABRT)
  perform (.signal .SIGFPE)
  perform (.signal .SIGILL)
  perform (.signal .SIGINT)
  perform (.signal .SIGSEGV)
  perform (.signal .SIGTERM)

def signalCallbackHandler (signum : Signal) : Drv Unit := do
  disposeP2p
  perform (.exit signum)

/-! ## 2. `main` -/

def enterConnectedState : Drv Unit := do
  perform (.mark .enterConnectedState)
  perform (.setListenForCommands true)
  perform (.spawn .commandHandler)
  perform (.spawn .connectionListener)
  perform (.join .commandHandler)
  perform (.join .connectionListener)

/-- A call of `ip_exchange_fun`. -/
def callIpExchange (ip : IpExchange) : Drv Bool := do
  perform (.mark .ipExchangeCalled)
  let success ← ipExchangeFun ip
  perform (.mark (.ipExchangeReturned success))
  return success

/-- The `while (!handshake_success)` loop of `main`. -/
def retryHandshake (ip : IpExchange) (handshakeSuccess : Bool) : Drv Unit :=
  if handshakeSuccess then .ret ()
  else .forever do
    connectLoop
    let handshakeSuccess ← callIpExchange ip
    return if handshakeSuccess then some () else none

/-- The `while (true)` loop of `main`. -/
def masterLoop (ip : IpExchange) : Drv Int :=
  .forever do
    connectLoop
    let handshakeSuccess ← callIpExchange ip
    retryHandshake ip handshakeSuccess
    enterConnectedState
    return none

/-- `main`. The `dispose_p2p` behind the `while (true)` loop is not reached. -/
def main (ip : IpExchange) : Drv Int := do
  initAndAttachCtrl
  let control ← .ask .controlData
  if control.handle = none then return -1
  else
    initTerminationSignals
    masterLoop ip

/-- The text of each of the two session threads. -/
def threadBody : Thread → Drv Unit
  | .commandHandler => listenForCommands
  | .connectionListener => connectedLoop
  | .main => .ret ()

/-! ## 3. Which calls they make -/

/-- The calls of `init_and_attach_ctrl`. -/
def Call.isSetup : Call → Bool
  | .controlData | .setControlData _ | .wpaCtrlOpen _ | .wpaCtrlAttach | .wpaCtrlClose => true
  | _ => false

/-- The calls of the signal handler. -/
def Call.isDisposal : Call → Bool
  | .controlData | .setControlData _ | .wpaCtrlDetach | .wpaCtrlClose | .system _ | .exit _ => true
  | _ => false

namespace DriverLemmas

section Setup

variable {P : Call → Bool} (hP : ∀ c, c.isSetup = true → P c = true)
include hP

theorem only_attachLoop (n : Nat) : Only P False (attachLoop n) := by
  induction n with
  | zero => exact only_ret _
  | succ n ih =>
    refine only_call (hP _ rfl) fun r => ?_
    split
    · exact ih
    · exact only_ret _

theorem only_initAndAttachCtrl : Only P False initAndAttachCtrl := by
  simp only [initAndAttachCtrl, bind_eq, ask_bind, perform_bind]
  refine only_call (hP _ rfl) fun control => ?_
  split
  · exact only_ret _
  · refine only_call (hP _ rfl) fun opened => only_call (hP _ rfl) fun _ => ?_
    split
    · exact only_ret _
    · refine only_bind (only_attachLoop hP _) fun attachStatus => ?_
      split
      · exact only_call (hP _ rfl) fun _ => only_call (hP _ rfl) fun _ => only_ret _
      · exact only_ret _

end Setup

theorem only_initTerminationSignals {P : Call → Bool} (hP : ∀ signum, P (.signal signum) = true) :
    Only P False initTerminationSignals :=
  only_call (hP _) fun _ => only_call (hP _) fun _ => only_call (hP _) fun _ =>
    only_call (hP _) fun _ => only_call (hP _) fun _ => only_call (hP _) fun _ => only_ret _

theorem only_callIpExchange {P : Call → Bool} (hP : ∀ c, c.isHandshake = true → P c = true)
    (hcalled : P (.mark .ipExchangeCalled) = true)
    (hreturned : ∀ success, P (.mark (.ipExchangeReturned success)) = true) (ip : IpExchange) :
    Only P True (callIpExchange ip) := by
  simp only [callIpExchange, bind_eq, perform_bind]
  exact only_call hcalled fun _ => only_bind (SocketLemmas.only_ipExchangeFun hP ip) fun _ =>
    only_call (hreturned _) fun _ => only_ret _

theorem only_signalCallbackHandler (signum : Signal) :
    Only Call.isDisposal False (signalCallbackHandler signum) := by
  refine only_bind (only_call rfl fun control => ?_) fun _ => only_call rfl fun _ => only_ret _
  simp only [ret_bind]
  split
  · exact only_ret _
  · exact only_call rfl fun _ => only_call rfl fun _ =>
      only_call rfl fun _ => only_call rfl fun _ => only_ret _

end DriverLemmas

end P2pDriver
