import P2pDriver.Library.Monitor
import P2pDriver.Connect

/-!
# The polling loops as one flat machine

`connect_loop` calls `connect_to_device` from inside its loop, and both poll the
same control interface. Seen from outside there is one loop that fetches event
messages, with a phase that says whose loop it is. This module defines that
machine and proves that the nested loops make exactly its calls, whatever the
answers are. What a run does is then a question about `react`, the reaction to
one message.

Results:
1. `keeps_negotiationLoop`, `keeps_searchLoop`, `keeps_connectedLoop`: the loops
   keep the machine.
2. `connectLoop_trace`, `connectLoop_pending`: on every list of answers the calls
   of `connect_loop` are the calls of the machine, and so is the call it waits on.
3. `connectLoop_returned_iff`, `connectLoop_fault_iff`: and it ends as the machine does.
4. `connectedLoop_trace`, `connectedLoop_pending`, `connectedLoop_returned_iff`: the same
   for `connected_loop`.
-/

namespace P2pDriver

open Resumable Prog

/-! ## 1. The machine -/

/-- Whose loop the driver is in, or how it was left. -/
inductive Phase where
  /-- `connect_loop` -/
  | searching
  /-- `connect_to_device` -/
  | negotiating
  /-- `connect_loop` has returned -/
  | established
  /-- `connected_loop` -/
  | monitoring
  /-- `connected_loop` has returned -/
  | ended
  /-- the program has run into undefined behaviour -/
  | faulted
deriving DecidableEq, Repr

/-- Where in a round of the loop it is. -/
inductive Stage where
  | poll
  | recv
  | check
deriving DecidableEq, Repr

/-- A state of the machine: the calls still to be made before the round that
`stage` names. -/
structure LoopState where
  phase : Phase
  stage : Stage
  owed : List Call
deriving DecidableEq, Repr

/-- The head of a round. -/
def atPoll (φ : Phase) : LoopState := ⟨φ, .poll, []⟩

/-- The search script. -/
def startCall : Call := .system (cStr startP2pCommand)

/-- `p2p_connect` for an address. -/
def connectCall (mac : Bytes) : Call := .system (cStr (connectCommand mac))

/-- The reaction to one message. -/
def react (φ : Phase) (m : Message) : LoopState :=
  match φ with
  | .searching =>
    if isType m goNegRequest then ⟨.negotiating, .poll, [connectCall (macWindow m)]⟩
    else atPoll .searching
  | .negotiating =>
    if isType m groupStarted then
      if space ∈ nameCells m then
        ⟨.established, .poll, [.print m.buffer.cells,
          .setGroupName ((nameCells m).takeWhile (· ≠ space)),
          .mark (.connectToDeviceReturned true)]⟩
      else ⟨.faulted, .poll, [.print m.buffer.cells]⟩
    else if isType m groupFormationFailure || isType m goNegFailure then
      ⟨.searching, .poll, [.print m.buffer.cells, .mark (.connectToDeviceReturned false),
        startCall]⟩
    else ⟨.negotiating, .poll, [.print m.buffer.cells]⟩
  | .monitoring =>
    if isType m deviceDisconnected then
      ⟨.ended, .poll, [.print m.buffer.cells, .setConnectionIsValid false,
        .setListenForCommands false]⟩
    else ⟨.monitoring, .check, []⟩
  | φ => atPoll φ

/-- The rest of a round without a message. -/
def idle (φ : Phase) : LoopState :=
  match φ with
  | .monitoring => ⟨.monitoring, .check, []⟩
  | φ => atPoll φ

/-- The message an answer to `wpa_ctrl_recv` delivers. -/
def delivered (r : Answer) : Option Message :=
  if r.ret < 0 then none else some (Delivery.ofOffer messageCap r.offer r.stale)

/-- The bytes a call has received from the control interface. -/
def receivedBy : Call × Answer → Option Bytes
  | (.wpaCtrlRecv _, r) => (delivered r).map Delivery.bytes
  | _ => none

/-- What an answer does to the machine. -/
def LoopState.next (s : LoopState) (r : Answer) : LoopState :=
  match s.owed, s.stage with
  | _ :: cs, _ => { s with owed := cs }
  | [], .poll => if r.isSet then { s with stage := .recv } else idle s.phase
  | [], .recv =>
    match delivered r with
    | none => idle s.phase
    | some m => react s.phase m
  | [], .check =>
    if r.isSet then atPoll s.phase else ⟨.ended, .poll, [.setConnectionIsValid false]⟩

/-- The call of a stage. -/
def Stage.call : Stage → Call
  | .poll => .wpaCtrlPending
  | .recv => .wpaCtrlRecv messageCap
  | .check => .isListeningForCommands

/-- The call the machine makes next. -/
def LoopState.expects (s : LoopState) : Option Call :=
  match s.owed with
  | c :: _ => some c
  | [] =>
    match s.phase with
    | .established | .ended | .faulted => none
    | _ => some s.stage.call

/-- The machine of the polling loops. -/
def eventLoop : Machine Call Answer LoopState where
  expects := LoopState.expects
  next := LoopState.next

/-- The machine may only stop in undefined behaviour when its phase says so. -/
def loopFaults (s : LoopState) : Prop := s = atPoll .faulted

abbrev loopSpec : Spec Call Answer LoopState := eventLoop.spec loopFaults

/-! ## 2. The loops keep the machine -/

namespace EventLoopLemmas

theorem next_poll (φ : Phase) (r : Answer) :
    eventLoop.next (atPoll φ) r = if r.isSet then ⟨φ, .recv, []⟩ else idle φ := rfl

theorem next_recv (φ : Phase) (r : Answer) :
    eventLoop.next ⟨φ, .recv, []⟩ r = match delivered r with
      | none => idle φ
      | some m => react φ m := rfl

theorem next_check (φ : Phase) (r : Answer) :
    eventLoop.next ⟨φ, .check, []⟩ r =
      if r.isSet then atPoll φ else ⟨.ended, .poll, [.setConnectionIsValid false]⟩ := rfl

theorem connectCommand_no_nul {m : Bytes} (h : 0 ∉ m) : 0 ∉ connectCommand m := by
  simp only [connectCommand, List.mem_append, not_or]
  exact ⟨⟨⟨by decide, by decide⟩, h⟩, by decide⟩

theorem startCall_eq : startCall = .system (sudoBash ++ scriptStartP2pSearch) := by decide

/-- A `p2p_connect` command is never mistaken for the search script. -/
theorem connectCall_ne_start (mac : Bytes) :
    cStr (connectCommand mac) ≠ sudoBash ++ scriptStartP2pSearch := by
  -- the first bytes differ: 'w' and 's'
  have hhead : (cStr (connectCommand mac)).head? = some 119 := by
    rw [show connectCommand mac = 119 :: (wpaCliPrefix.tail ++ p2pConnect ++ mac ++ pbc) from rfl]
    rfl
  intro he
  rw [he] at hhead
  exact absurd hhead (by decide)

/-- With nothing owed the machine makes the call of its stage. -/
theorem expects_nil {φ : Phase} {st : Stage} {c : Call}
    (h : eventLoop.expects ⟨φ, st, []⟩ = some c) : c = st.call := by
  cases φ with
  | searching => exact (Option.some.inj h).symm
  | negotiating => exact (Option.some.inj h).symm
  | monitoring => exact (Option.some.inj h).symm
  | established => exact nomatch h
  | ended => exact nomatch h
  | faulted => exact nomatch h

theorem testType_eq (m : Message) {t : Bytes} (ht : prefixLen + t.length ≤ messageCap) :
    testType m t = .ret (isType m t) := by
  rw [testType, isMessageType_eq m ht, ofOption_some]

/-- `recieve_message` hands on what the call delivers. -/
theorem recieveMessage_eq :
    recieveMessage = .call (.wpaCtrlRecv messageCap) fun r => .ret (delivered r) := by
  simp only [recieveMessage, wpaCtrlRecv, bind_eq, call_bind, ret_bind]
  congr
  funext r
  by_cases hneg : r.ret < 0
  · have hne : ¬ r.ret = 0 := by omega
    simp [delivered, hneg, hne]
  · simp [delivered, hneg]

/-- The rule for the round of a polling loop, for any monitor. -/
theorem keeps_poll {M α : Type} {S : Spec Call Answer M} {m : M} {k : Option Message → Drv α}
    {Q : α → M → Prop} {r : Answer} (hnone : r.isSet = false → Keeps S m (k none) Q)
    (hrecv : r.isSet = true → ∀ r', S.admits m (.wpaCtrlRecv messageCap) r' →
      ∃ m', S.step m (.wpaCtrlRecv messageCap) r' = some m' ∧ Keeps S m' (k (delivered r')) Q) :
    Keeps S m ((if r.isSet then recieveMessage else .ret none).bind k) Q := by
  cases hset : r.isSet with
  | false => exact hnone hset
  | true =>
    rw [if_pos rfl, recieveMessage_eq]
    exact keeps_call (hrecv hset)

/-- A call the machine owes. -/
theorem keeps_owed {α : Type} {φ : Phase} {st : Stage} {c : Call} {cs : List Call}
    {k : Answer → Drv α} {Q : α → LoopState → Prop}
    (h : ∀ r, Keeps loopSpec ⟨φ, st, cs⟩ (k r) Q) :
    Keeps loopSpec ⟨φ, st, c :: cs⟩ (.call c k) Q :=
  keeps_expected rfl h

/-- A round starts by fetching a message: the machine reaches its reaction, or
the end of the round without one. -/
theorem keeps_fetch {α : Type} {φ : Phase} {k : Option Message → Drv α} {Q : α → LoopState → Prop}
    (hφ : φ = .searching ∨ φ = .negotiating ∨ φ = .monitoring)
    (hnone : Keeps loopSpec (idle φ) (k none) Q)
    (hsome : ∀ m, Keeps loopSpec (react φ m) (k (some m)) Q) (r : Answer) :
    Keeps loopSpec (eventLoop.next (atPoll φ) r)
      ((if r.isSet then recieveMessage else .ret none).bind k) Q := by
  have hexp : eventLoop.expects ⟨φ, .recv, []⟩ = some (.wpaCtrlRecv messageCap) := by
    rcases hφ with rfl | rfl | rfl <;> rfl
  rw [next_poll]
  refine keeps_poll (fun hset => ?_) fun hset r' _ => ?_
  · rw [hset]
    exact hnone
  · rw [if_pos hset]
    refine ⟨eventLoop.next ⟨φ, .recv, []⟩ r', if_pos hexp, ?_⟩
    rw [next_recv]
    cases delivered r' with
    | none => exact hnone
    | some m => exact hsome m

end EventLoopLemmas

open EventLoopLemmas

/-- `connect_to_device` after its command: it returns with the machine owing the
return, and the search script when the attempt has failed. -/
theorem keeps_negotiationLoop :
    Keeps loopSpec (atPoll .negotiating) negotiationLoop fun connected s =>
      s = if connected then ⟨.established, .poll, [.mark (.connectToDeviceReturned true)]⟩
        else ⟨.searching, .poll, [.mark (.connectToDeviceReturned false), startCall]⟩ := by
  refine keeps_loop_head rfl (keeps_fetch (.inr (.inl rfl)) (keeps_ret rfl) fun m => ?_)
  simp only [negotiationRound, bind_eq, perform_bind, react]
  rw [testType_eq m (by decide), testType_eq m (by decide), testType_eq m (by decide)]
  simp only [ret_bind]
  cases isType m groupStarted with
  | true =>
    by_cases hn : space ∈ nameCells m
    · rw [getGroupName_eq, if_pos hn]
      simp only [hn, if_true]
      exact keeps_owed fun _ => keeps_owed fun _ => keeps_ret (keeps_ret rfl)
    · rw [getGroupName_eq, if_neg hn]
      simp only [hn, if_true, if_false]
      exact keeps_owed fun _ => keeps_fault rfl
  | false =>
    cases isType m groupFormationFailure with
    | true => exact keeps_owed fun _ => keeps_ret (keeps_ret rfl)
    | false =>
      cases isType m goNegFailure with
      | true => exact keeps_owed fun _ => keeps_ret (keeps_ret rfl)
      | false => exact keeps_owed fun _ => keeps_ret rfl

/-- `connect_to_device`: the machine owes its command, and the search script when
the attempt has failed. -/
theorem keeps_connectToDevice (mac : Bytes) :
    Keeps loopSpec ⟨.negotiating, .poll, [connectCall mac]⟩ (connectToDevice mac)
      fun connected s => s = if connected then atPoll .established
        else ⟨.searching, .poll, [startCall]⟩ := by
  simp only [connectToDevice, bind_eq, system_bind]
  refine keeps_owed fun _ => keeps_bind (keeps_negotiationLoop.mono fun connected s hs => ?_)
  subst hs
  cases connected with
  | true => exact keeps_owed fun _ => keeps_ret rfl
  | false => exact keeps_owed fun _ => keeps_ret rfl

/-- `connect_loop` after its first run of the search script. -/
theorem keeps_searchLoop :
    Keeps loopSpec (atPoll .searching) searchLoop fun _ s => s = atPoll .established := by
  refine keeps_loop_head rfl (keeps_fetch (.inl rfl) (keeps_ret rfl) fun m => ?_)
  simp only [searchRound, bind_eq, react]
  rw [testType_eq m (by decide)]
  simp only [ret_bind]
  cases isType m goNegRequest with
  | false => exact keeps_ret rfl
  | true =>
    simp only [if_true, getMac_eq, ofOption_some, ret_bind]
    refine keeps_bind ((keeps_connectToDevice _).mono fun connected s hs => ?_)
    subst hs
    cases connected with
    | true => exact keeps_ret (keeps_ret rfl)
    | false => exact keeps_owed fun _ => keeps_ret rfl

theorem keeps_stopRound :
    Keeps loopSpec ⟨.monitoring, .check, []⟩ stopRound
      (RoundPost loopSpec (· = atPoll .monitoring) .ret fun _ s => s = atPoll .ended) := by
  refine keeps_expected rfl fun r => ?_
  rw [next_check]
  cases r.isSet with
  | true => exact keeps_ret rfl
  | false => exact keeps_owed fun _ => keeps_ret (keeps_ret rfl)

/-- `connected_loop`. -/
theorem keeps_connectedLoop :
    Keeps loopSpec (atPoll .monitoring) connectedLoop fun _ s => s = atPoll .ended := by
  refine keeps_loop_head rfl (keeps_fetch (.inr (.inr rfl)) keeps_stopRound fun m => ?_)
  simp only [bind_eq, react]
  rw [testType_eq m (by decide)]
  simp only [ret_bind]
  cases isType m deviceDisconnected with
  | true => exact keeps_owed fun _ => keeps_owed fun _ => keeps_owed fun _ =>
      keeps_ret (keeps_ret rfl)
  | false => exact keeps_stopRound

/-! ## 3. Runs of the loops are runs of the machine -/

namespace EventLoopLemmas

theorem expects_faults {s : LoopState} (h : loopFaults s) : eventLoop.expects s = none := by
  rw [show s = atPoll .faulted from h]
  rfl

section Runs

variable {p : Drv Unit} {s : LoopState} {φ : Phase}

theorem loop_keeps (hφ : eventLoop.expects (atPoll φ) = none)
    (h : Keeps loopSpec s p fun _ s => s = atPoll φ) (rs : List Answer) :
    p.trace rs = eventLoop.trace s rs ∧
      Keeps loopSpec (eventLoop.after s rs) (p.after rs) fun _ s => s = atPoll φ :=
  h.trace_eq (fun _ _ hs => hs ▸ hφ) (fun _ => expects_faults) rs

theorem loop_pending (hφ : eventLoop.expects (atPoll φ) = none)
    (h : Keeps loopSpec s p fun _ s => s = atPoll φ) (rs : List Answer) :
    (p.after rs).pending = eventLoop.expects (eventLoop.after s rs) :=
  (loop_keeps hφ h rs).2.pending_eq (fun _ _ hs => hs ▸ hφ) fun _ => expects_faults

theorem loop_returned_iff (hφ : eventLoop.expects (atPoll φ) = none) (hne : φ ≠ .faulted)
    (h : Keeps loopSpec s p fun _ s => s = atPoll φ) (rs : List Answer) :
    p.after rs = .ret () ↔ eventLoop.after s rs = atPoll φ := by
  have hk := (loop_keeps hφ h rs).2
  have hp := loop_pending hφ h rs
  constructor
  · intro hret
    rw [hret] at hk
    exact hk.result
  · intro hs
    rw [hs, hφ] at hp
    rcases pending_eq_none hp with ⟨_, hret⟩ | hfault
    · exact hret
    · rw [hfault] at hk
      exact absurd (congrArg LoopState.phase (hs.symm.trans hk.faults)) hne

theorem loop_fault_iff (hφ : eventLoop.expects (atPoll φ) = none) (hne : φ ≠ .faulted)
    (h : Keeps loopSpec s p fun _ s => s = atPoll φ) (rs : List Answer) :
    p.after rs = .fault ↔ eventLoop.after s rs = atPoll .faulted := by
  have hk := (loop_keeps hφ h rs).2
  have hp := loop_pending hφ h rs
  constructor
  · intro hfault
    rw [hfault] at hk
    exact hk.faults
  · intro hs
    rw [hs, expects_faults rfl] at hp
    rcases pending_eq_none hp with ⟨_, hret⟩ | hfault
    · rw [hret] at hk
      exact absurd (congrArg LoopState.phase (hk.result.symm.trans hs)) hne
    · exact hfault

end Runs

end EventLoopLemmas

/-- Where `connect_loop` starts once `control_data` was found not null. -/
def connectStart : LoopState := ⟨.searching, .poll, [startCall]⟩

/-- The state of the polling loops after a run of `connect_loop`: there is none
before `control_data` has been read, nor when it is null. -/
def connectState : List Answer → Option LoopState
  | [] => none
  | control :: rs =>
    if control.handle = none then none else some (eventLoop.after connectStart rs)

section ConnectLoop

variable {control : Answer} (h : control.handle ≠ none) (rs : List Answer)
include h

theorem keeps_connectLoop :
    Keeps loopSpec connectStart (connectLoop.resume control)
      fun _ s => s = atPoll .established := by
  rw [show connectLoop.resume control = (system startP2pCommand).bind fun _ => searchLoop from
    if_neg h]
  exact keeps_owed fun _ => keeps_searchLoop

/-- The calls of `connect_loop` are the calls of the machine. -/
theorem connectLoop_trace :
    connectLoop.trace (control :: rs) =
      (.controlData, control) :: eventLoop.trace connectStart rs := by
  rw [trace_cons (p := connectLoop) rfl, (loop_keeps rfl (keeps_connectLoop h) rs).1]

/-- And so is the call it waits on. -/
theorem connectLoop_pending :
    (connectLoop.after (control :: rs)).pending =
      eventLoop.expects (eventLoop.after connectStart rs) := by
  rw [after_cons (p := connectLoop) rfl, loop_pending rfl (keeps_connectLoop h)]

/-- `connect_loop` has returned exactly when a group has been started. -/
theorem connectLoop_returned_iff :
    connectLoop.after (control :: rs) = .ret () ↔
      eventLoop.after connectStart rs = atPoll .established := by
  rw [after_cons (p := connectLoop) rfl,
    loop_returned_iff rfl (by decide) (keeps_connectLoop h)]

/-- It runs into undefined behaviour exactly when the machine does. -/
theorem connectLoop_fault_iff :
    connectLoop.after (control :: rs) = .fault ↔
      eventLoop.after connectStart rs = atPoll .faulted := by
  rw [after_cons (p := connectLoop) rfl, loop_fault_iff rfl (by decide) (keeps_connectLoop h)]

end ConnectLoop

/-- The state of the polling loops after a run of `connected_loop`. -/
def monitorState (rs : List Answer) : Option LoopState :=
  some (eventLoop.after (atPoll .monitoring) rs)

section ConnectedLoop

variable (rs : List Answer)

/-- The calls of `connected_loop` are the calls of the machine. -/
theorem connectedLoop_trace : connectedLoop.trace rs = eventLoop.trace (atPoll .monitoring) rs :=
  (loop_keeps rfl keeps_connectedLoop rs).1

/-- And so is the call it waits on. -/
theorem connectedLoop_pending :
    (connectedLoop.after rs).pending =
      eventLoop.expects (eventLoop.after (atPoll .monitoring) rs) :=
  loop_pending rfl keeps_connectedLoop rs

/-- `connected_loop` has returned exactly when the machine has ended. -/
theorem connectedLoop_returned_iff :
    connectedLoop.after rs = .ret () ↔ eventLoop.after (atPoll .monitoring) rs = atPoll .ended :=
  loop_returned_iff rfl (by decide) keeps_connectedLoop rs

end ConnectedLoop

end P2pDriver
