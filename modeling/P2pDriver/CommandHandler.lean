import P2pDriver.Sockets

/-!
# The command handler

`listen_for_commands` and `execute_command` of `command_handler.cpp`.

Results:
1. `only_executeCommand`, `only_listenForCommands`: the calls they make.
-/

namespace P2pDriver

open Resumable Prog

/-! ## 1. Constants -/

def commandMaxRecv : Nat := 64

namespace ControlOptions

def controlByte : Byte := 77  -- 'M'
def flashlight : Byte := 70   -- 'F'
def leftLed : Byte := 76      -- 'L'
def rightLed : Byte := 82     -- 'R'
def ready : Byte := 66        -- 'B'
def stop : Byte := 83         -- 'S'
def terminate : Byte := 84    -- 'T'
def on : Byte := 79           -- 'O'
def off : Byte := 88          -- 'X'
def noOption : Byte := 78     -- 'N'

end ControlOptions

open ControlOptions

/-! ## 2. `execute_command` -/

/-- The `switch` of `execute_command`: the executor function for a command byte
and a toggle value. A byte that no case names falls out of it. -/
def switchCommand (command : Byte) (toggleVal : Bool) : Option Executor :=
  if command = flashlight then some (.flashlightToggle toggleVal)
  else if command = leftLed then some (.leftLedToggle toggleVal)
  else if command = rightLed then some (.rightLedToggle toggleVal)
  else if command = ready then some .runStream
  else if command = stop then some .stopStream
  else if command = terminate then some .terminateExecution
  else none

/-- `execute_command`. The buffer is only read when the length test passes. -/
def executeCommand {cap : Nat} (commandBuffer : Buffer cap) (bytesReceived : Int) : Drv Unit := do
  perform (.mark .executeCommand)
  if bytesReceived > 2 then
    let b0 ← .ofOption (commandBuffer.read 0)
    if b0 = controlByte then
      let command ← .ofOption (commandBuffer.read 1)
      let b2 ← .ofOption (commandBuffer.read 2)
      match switchCommand command (b2 = on) with
      | some e => perform (.execute e)
      | none => return ()
    else return ()
  else return ()

/-! ## 3. `listen_for_commands` -/

/-- The part of a round between `select` and the update of the loop variable.
`command_recv_timeout` sets the descriptor in the set before it selects, so what
`FD_ISSET` reads is what `select` left. -/
def receiveCommand (newFd : Int) (inSet : Bool) : Drv Unit := do
  if inSet then
    let r ← .ask (.recv newFd commandMaxRecv)
    let received := Delivery.ofOffer commandMaxRecv r.offer r.stale
    if r.ret < 0 then return ()
    else if received.bytes.length > 0 then
      let buffer ← .ofOption (received.buffer.write received.bytes.length 0)
      executeCommand buffer received.bytes.length
    else return ()
  else return ()

/-- The `while (run_placeholder)` loop. -/
def commandLoop (newFd : Int) (runPlaceholder : Bool) : Drv Unit :=
  if runPlaceholder then
    .forever <| .call (.select newFd) fun inSet => do
      receiveCommand newFd inSet.isSet
      let runPlaceholder ← .ask .isListeningForCommands
      return if runPlaceholder.isSet then none else some ()
  else .ret ()

def listenForCommands : Drv Unit := do
  let (sockFd, newFd, _) ← tcpInitAcceptSocket commandPort
  if newFd = nlosSocketErr then perform (.setListenForCommands false)
  else
    let runPlaceholder ← .ask .isListeningForCommands
    commandLoop newFd runPlaceholder.isSet
    perform (.close newFd)
    perform (.close sockFd)

/-! ## 4. Which calls it makes -/

/-- The calls of `execute_command`. -/
def Call.isExecution : Call → Bool
  | .mark .executeCommand | .execute _ => true
  | _ => false

theorem only_executeCommand {P : Call → Bool} (hP : ∀ c, c.isExecution = true → P c = true)
    {cap : Nat} (commandBuffer : Buffer cap) (bytesReceived : Int) :
    Only P True (executeCommand commandBuffer bytesReceived) := by
  simp only [executeCommand, bind_eq, perform_bind]
  refine only_call (hP _ rfl) fun _ => ?_
  split
  · refine only_bind (only_ofOption fun _ => trivial) fun b0 => ?_
    split
    · refine only_bind (only_ofOption fun _ => trivial) fun command => ?_
      refine only_bind (only_ofOption fun _ => trivial) fun b2 => ?_
      split
      · exact only_call (hP _ rfl) fun _ => only_ret _
      · exact only_ret _
    · exact only_ret _
  · exact only_ret _

/-- The calls of its loop. -/
def Call.isCommandRound : Call → Bool
  | .isListeningForCommands | .select _ | .recv _ _ => true
  | c => c.isExecution

/-- The calls of `listen_for_commands`. -/
def Call.isCommandHandling : Call → Bool
  | .isListeningForCommands | .select _ | .recv _ _ => true
  | .setListenForCommands val => !val
  | c => c.isSocketSetup || c.isExecution

namespace CommandHandlerLemmas

theorem round_of_isExecution {c : Call} (h : c.isExecution = true) : c.isCommandRound = true := by
  cases c <;> first | exact h | exact Bool.noConfusion h

theorem handling_of_isCommandRound {c : Call} (h : c.isCommandRound = true) :
    c.isCommandHandling = true := by
  cases c <;> first | exact h | exact Bool.noConfusion h

theorem handling_of_isSocketSetup {c : Call} (h : c.isSocketSetup = true) :
    c.isCommandHandling = true := by
  cases c <;> first | rfl | exact Bool.noConfusion h

section Round

variable {P : Call → Bool} (hP : ∀ c, c.isCommandRound = true → P c = true)
include hP

theorem only_receiveCommand (newFd : Int) (inSet : Bool) :
    Only P True (receiveCommand newFd inSet) := by
  cases inSet with
  | false => exact only_ret _
  | true =>
    refine only_call (hP _ rfl) fun r => ?_
    simp only [ret_bind]
    split
    · exact only_ret _
    · split
      · refine only_bind (only_ofOption fun _ => trivial) fun buffer => ?_
        exact only_executeCommand (fun c hc => hP c (round_of_isExecution hc)) _ _
      · exact only_ret _

theorem only_commandLoop (newFd : Int) (runPlaceholder : Bool) :
    Only P True (commandLoop newFd runPlaceholder) := by
  cases runPlaceholder with
  | false => exact only_ret _
  | true =>
    refine only_loop (hP _ rfl) (fun inSet => ?_) fun _ => only_ret _
    refine only_bind (only_receiveCommand hP newFd inSet.isSet) fun _ => ?_
    exact only_call (hP _ rfl) fun _ => only_ret _

end Round

section Listen

variable {P : Call → Bool} (hP : ∀ c, c.isCommandHandling = true → P c = true)
include hP

theorem only_listenForCommands : Only P True listenForCommands := by
  have hround : ∀ c, c.isCommandRound = true → P c = true :=
    fun c hc => hP c (handling_of_isCommandRound hc)
  have hsetup : ∀ c, c.isSocketSetup = true → P c = true :=
    fun c hc => hP c (handling_of_isSocketSetup hc)
  refine only_bind (SocketLemmas.only_tcpInitAcceptSocket hsetup commandPort)
    fun (sockFd, newFd, addr) => ?_
  dsimp only
  split
  · exact only_call (hP _ rfl) fun _ => only_ret _
  · simp only [bind_eq, ask_bind, perform_bind]
    refine only_call (hP _ rfl) fun flag => only_bind (only_commandLoop hround newFd _) fun _ => ?_
    exact only_call (hP _ rfl) fun _ => only_call (hP _ rfl) fun _ => only_ret _

end Listen

end CommandHandlerLemmas

end P2pDriver
