import P2pDriver.Messages
import P2pDriver.Library.Monitor

/-!
# The connection loops

`connect_loop`, `connect_to_device` and `connected_loop` of `connect.cpp`. All
three poll the control interface in the same way: `wpa_ctrl_pending`, then
`recieve_message`, then the body of the loop on the message.

Results:
1. `only_connectLoop`: the calls `connect_loop` makes.
-/

namespace P2pDriver

open Resumable Prog

/-! ## 1. Fetching a message -/

/-- `wpa_ctrl_recv`: a negative count is handed back, otherwise the count is
stored to `*reply_len` and 0 returned. The answer to the underlying `recv` is at
most as long as the buffer. -/
def wpaCtrlRecv : Drv (Int × Message) :=
  .call (.wpaCtrlRecv messageCap) fun r =>
    .ret (if r.ret < 0 then r.ret else 0, Delivery.ofOffer messageCap r.offer r.stale)

/-- `recieve_message`. `none` is the return value `false`, after which no caller
looks at the buffer. -/
def recieveMessage : Drv (Option Message) := do
  let (returnVal, message) ← wpaCtrlRecv
  return if returnVal = 0 then some message else none

/-- The two tests every polling loop starts with: a message is pending, and it
could be received. -/
def fetchMessage : Drv (Option Message) :=
  .call .wpaCtrlPending fun pending =>
    if pending.isSet then recieveMessage else .ret none

/-- `is_message_type` on a message. -/
def testType (m : Message) (t : Bytes) : Drv Bool :=
  .ofOption (isMessageType m.buffer m.bytes.length t)

/-! ## 2. `connect_to_device` and `connect_loop` -/

/-- One round of `connect_to_device` with a message. -/
def negotiationRound (m : Message) : Drv (Option Bool) := do
  perform (.print m.buffer.cells)
  if ← testType m groupStarted then
    let name ← .ofOption (getGroupNameFromGroupStarted m.buffer)
    perform (.setGroupName name)
    return some true
  else if ← testType m groupFormationFailure then return some false
  else if ← testType m goNegFailure then return some false
  else return none

/-- The polling loop of `connect_to_device`. -/
def negotiationLoop : Drv Bool :=
  .forever do
    match ← fetchMessage with
    | none => return none
    | some m => negotiationRound m

def connectCommand (macAddress : Bytes) : Bytes := wpaCliPrefix ++ p2pConnect ++ macAddress ++ pbc

def connectToDevice (macAddress : Bytes) : Drv Bool := do
  system (connectCommand macAddress)
  let connected ← negotiationLoop
  perform (.mark (.connectToDeviceReturned connected))
  return connected

def startP2pCommand : Bytes := sudoBash ++ scriptStartP2pSearch

/-- One round of `connect_loop` with a message. -/
def searchRound (m : Message) : Drv (Option Unit) := do
  if ← testType m goNegRequest then
    let macAddress ← .ofOption (getMacFromNegRequest m.buffer)
    if ← connectToDevice macAddress then return some ()
    else
      system startP2pCommand
      return none
  else return none

/-- The polling loop of `connect_loop`. -/
def searchLoop : Drv Unit :=
  .forever do
    match ← fetchMessage with
    | none => return none
    | some m => searchRound m

def connectLoop : Drv Unit :=
  .call .controlData fun control =>
    if control.handle = none then .ret ()
    else do
      system startP2pCommand
      searchLoop

/-! ## 3. `connected_loop` -/

/-- The end of every round of `connected_loop`: whether we still listen for
commands. -/
def stopRound : Drv (Option Unit) :=
  .call .isListeningForCommands fun listening =>
    if listening.isSet then .ret none
    else do
      perform (.setConnectionIsValid false)
      return some ()

/-- `connected_loop` on an `AP_STA_DISCONNECTED` event. -/
def disconnectRound (m : Message) : Drv (Option Unit) := do
  perform (.print m.buffer.cells)
  perform (.setConnectionIsValid false)
  perform (.setListenForCommands false)
  return some ()

def connectedLoop : Drv Unit :=
  .forever do
    match ← fetchMessage with
    | none => stopRound
    | some m =>
      if ← testType m deviceDisconnected then disconnectRound m
      else stopRound

/-! ## 4. Which calls they make -/

/-- The calls of the loop of `connect_to_device`. -/
def Call.isNegotiation : Call → Bool
  | .wpaCtrlPending | .wpaCtrlRecv _ | .print _ | .setGroupName _ => true
  | _ => false

/-- The calls of `connect_loop`. -/
def Call.isSearch : Call → Bool
  | .controlData | .system _ | .mark (.connectToDeviceReturned _) => true
  | c => c.isNegotiation

namespace ConnectLemmas

/-- Fetching a message, for a monitor that ignores it. -/
theorem keeps_fetchMessage_ignored {M α : Type} {S : Spec Call Answer M} {m : M}
    {k : Option Message → Drv α} {Q : α → M → Prop}
    (hpending : ∀ r, S.step m .wpaCtrlPending r = some m)
    (hrecv : ∀ r, S.step m (.wpaCtrlRecv messageCap) r = some m)
    (hk : ∀ o, Keeps S m (k o) Q) : Keeps S m (fetchMessage.bind k) Q := by
  refine keeps_call fun pending _ => ⟨m, hpending pending, ?_⟩
  dsimp only
  split
  · refine keeps_call fun r _ => ⟨m, hrecv r, ?_⟩
    simp only [ret_bind]
    split <;> exact hk _
  · exact hk none

section Negotiation

variable {P : Call → Bool} (hP : ∀ c, c.isNegotiation = true → P c = true)
include hP

theorem only_fetch {α : Type} {k : Option Message → Drv α} (hk : ∀ o, Only P True (k o))
    (r : Answer) :
    Only P True ((if r.isSet then recieveMessage else .ret none).bind k) := by
  refine only_bind ?_ hk
  split
  · refine only_call (hP _ rfl) fun r => ?_
    simp only [ret_bind]
    split <;> exact only_ret _
  · exact only_ret _

omit hP in
theorem only_testType (m : Message) (t : Bytes) : Only P True (testType m t) :=
  only_ofOption fun _ => trivial

theorem only_negotiationRound (m : Message) : Only P True (negotiationRound m) := by
  simp only [negotiationRound, bind_eq, perform_bind]
  refine only_call (hP _ rfl) fun _ => only_bind (only_testType m _) fun started => ?_
  split
  · refine only_bind (only_ofOption fun _ => trivial) fun name => ?_
    exact only_call (hP _ rfl) fun _ => only_ret _
  · refine only_bind (only_testType m _) fun formationFailed => ?_
    split
    · exact only_ret _
    · refine only_bind (only_testType m _) fun negotiationFailed => ?_
      split <;> exact only_ret _

theorem only_negotiationLoop : Only P True negotiationLoop := by
  refine only_loop (hP _ rfl) (fun pending => only_fetch hP (fun o => ?_) pending)
    fun _ => only_ret _
  cases o with
  | none => exact only_ret _
  | some m => exact only_negotiationRound hP m

end Negotiation

theorem search_of_isNegotiation {c : Call} (h : c.isNegotiation = true) : c.isSearch = true := by
  cases c <;> first | rfl | exact Bool.noConfusion h

section Search

variable {P : Call → Bool} (hP : ∀ c, c.isSearch = true → P c = true)
include hP

theorem only_connectToDevice (macAddress : Bytes) : Only P True (connectToDevice macAddress) := by
  simp only [connectToDevice, bind_eq, system_bind]
  exact only_call (hP _ rfl) fun _ =>
    only_bind (only_negotiationLoop fun c hc => hP c (search_of_isNegotiation hc)) fun _ =>
    only_call (hP _ rfl) fun _ => only_ret _

theorem only_searchRound (m : Message) : Only P True (searchRound m) := by
  refine only_bind (only_testType m _) fun request => ?_
  split
  · refine only_bind (only_ofOption fun _ => trivial) fun macAddress => ?_
    refine only_bind (only_connectToDevice hP macAddress) fun connected => ?_
    split
    · exact only_ret _
    · exact only_call (hP _ rfl) fun _ => only_ret _
  · exact only_ret _

theorem only_searchLoop : Only P True searchLoop := by
  have hfetch : ∀ c, c.isNegotiation = true → P c = true :=
    fun c hc => hP c (search_of_isNegotiation hc)
  refine only_loop (hP _ rfl) (fun pending => only_fetch hfetch (fun o => ?_) pending)
    fun _ => only_ret _
  cases o with
  | none => exact only_ret _
  | some m => exact only_searchRound hP m

theorem only_connectLoop : Only P True connectLoop := by
  refine only_call (hP _ rfl) fun control => ?_
  split
  · exact only_ret _
  · exact only_call (hP _ rfl) fun _ => only_searchLoop hP

end Search

end ConnectLemmas

end P2pDriver
