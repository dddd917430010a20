import P2pDriver.CtrlWorld
import P2pDriver.Recovery
import P2pDriver.EventLoop

/-!
# The driver on its operating system

The process linked with the control interface library: its threads make the calls of
the operating system, and the messages of the control interface wait in a socket,
from where the library takes them too. The peer is the one of `Surroundings`, and as
there the receives on the sockets of the driver itself do not fail. Signals are left
out, so that `select` is not interrupted.

Results:
1. `keeps_mainDuties`: `main` attaches before it takes an event, takes a message exactly
   when one is pending, and makes no other call of the library.
-/

namespace P2pDriver

open Resumable Prog ConnectLemmas DriverLemmas EventLoopLemmas

/-! ## 1. The process -/

/-- The operating system with the variables of the driver, and the peer. -/
structure Host where
  ctrl : CtrlWorld := {}
  around : Surroundings := {}

namespace Host

/-- What surrounds the driver. The messages of the control interface wait in the socket. -/
def seen (h : Host) : Surroundings := { h.around with events := h.ctrl.kernel.queue }

def answers (h : Host) : SysCall → SysAnswer → Bool
  | .drv c, r => h.ctrl.answers (.drv c) r && h.seen.answers c r.toAnswer
  | c, r => h.ctrl.answers c r && h.ctrl.kernel.delivers c r

def effect (h : Host) : SysCall → SysAnswer → Host
  | .drv c, r => ⟨h.ctrl.effect (.drv c) r, h.around.effect c r.toAnswer⟩
  | c, r => { h with ctrl := h.ctrl.effect c r }

/-- A message of the control interface is put into the socket. -/
def arrive (h : Host) (message : Bytes) : Host :=
  { h with ctrl.kernel.queue := h.ctrl.kernel.queue ++ [message] }

def outside (h : Host) : Outside → Option Host
  | .event message => some (h.arrive message)
  | e => (h.seen.outside e).map fun around => { h with around := around }

end Host

/-- The threads of the driver, linked with the library. -/
def host : System SysCall SysAnswer Host Thread Signal Outside where
  text t := linked (threadBody t)
  handler signum := linked (signalCallbackHandler signum)
  spawns
    | .drv (.spawn t) => some t
    | _ => none
  joins
    | .drv (.join t) => some t
    | _ => none
  answers := Host.answers
  effect := Host.effect
  delivers _ _ := false
  outside := Host.outside

abbrev HostState := Config SysCall SysAnswer Host Thread Signal
abbrev HostMove := Label SysCall SysAnswer Thread Signal Outside

/-- The process when `main` is called. -/
def hostStart : HostState where
  store := {}
  threads
    | .main => some ⟨linked ((main .udp).bind fun _ => .ret ()), []⟩
    | _ => none

/-! ## 2. What `main` does with the library -/

/-- The functions of the library. -/
def Call.isCtrl : Call → Bool
  | .wpaCtrlOpen _ | .wpaCtrlAttach | .wpaCtrlDetach | .wpaCtrlClose | .wpaCtrlPending
  | .wpaCtrlRecv _ => true
  | _ => false

/-- The calls of a driver that is attached, apart from those that poll. -/
def Call.isServing : Call → Bool
  | .setControlData _ => false
  | c => !c.isCtrl

/-- Where `main` is with the control interface: what `control_data` holds and what the last
`wpa_ctrl_attach` has returned, or that it is attached, and whether a message is pending
that it takes next. -/
inductive MainDuty where
  | setup (control : Option Handle) (attachStatus : Option Int)
  | serving (due : Bool)
deriving DecidableEq

def MainDuty.step : MainDuty → Call → Answer → Option MainDuty
  | setup control attachStatus, .controlData, _ | setup control attachStatus, .wpaCtrlOpen _, _
  | setup control attachStatus, .wpaCtrlClose, _ => some (setup control attachStatus)
  | setup _ attachStatus, .setControlData control, _ => some (setup control attachStatus)
  | setup control none, .wpaCtrlAttach, r | setup control (some (-2)), .wpaCtrlAttach, r =>
    some (setup control (some r.ret))
  | setup _ (some 0), .signal _, _ => some (serving false)
  | serving false, .wpaCtrlPending, r => some (serving r.isSet)
  | serving false, c, _ => if c.isServing then some (serving false) else none
  | serving true, .wpaCtrlRecv len, _ => if len = messageCap then some (serving false) else none
  | _, _, _ => none

/-- The monitor of `main`. Its reads of `control_data` find what it has stored. -/
def dutySpec : Spec Call Answer MainDuty where
  admits m c r :=
    ∀ control attachStatus, m = .setup control attachStatus → c = .controlData → r.handle = control
  step := MainDuty.step
  faults m := m = .serving false

/-- A message is received into a buffer of `messageCap` bytes. -/
def Call.receivesMessage : Call → Bool
  | .wpaCtrlRecv len => len = messageCap
  | _ => true

/-- Where `main` has not attached. -/
def MainDuty.before : MainDuty → Prop
  | .setup _ _ => True
  | .serving _ => False

namespace CtrlProcessLemmas

theorem serving_step {c : Call} (h : c.isServing = true) (r : Answer) :
    (MainDuty.serving false).step c r = some (.serving false) := by
  cases c <;> first | rfl | exact Bool.noConfusion h

/-- What `main` does apart from polling. -/
theorem keeps_serving {α : Type} {F : Prop} {p : Drv α} (h : Only Call.isServing F p) :
    Keeps dutySpec (.serving false) p fun _ m => m = .serving false :=
  h.keeps (fun _ r hc => serving_step hc r) fun _ => rfl

/-- What `main` does behind a call that does not concern the library. -/
theorem keeps_served {α : Type} {c : Call} {k : Answer → Drv α} {Q : α → MainDuty → Prop}
    (hc : c.isServing = true) (h : ∀ r, Keeps dutySpec (.serving false) (k r) Q) :
    Keeps dutySpec (.serving false) (.call c k) Q :=
  keeps_call fun r _ => ⟨.serving false, serving_step hc r, h r⟩

/-- A round of a polling loop. -/
theorem keeps_fetch_duty {α : Type} {k : Option Message → Drv α} {Q : α → MainDuty → Prop}
    (hk : ∀ o, Keeps dutySpec (.serving false) (k o) Q) :
    Keeps dutySpec (.serving false) (fetchMessage.bind k) Q := by
  refine keeps_call fun pending _ => ⟨.serving pending.isSet, rfl, ?_⟩
  exact keeps_poll (fun hset => by rw [hset]; exact hk none) fun hset _ _ =>
    ⟨.serving false, by rw [hset]; rfl, hk _⟩

/-- What the end of a round establishes. -/
abbrev DutyRound {β : Type} : Option β → MainDuty → Prop :=
  RoundPost dutySpec (· = .serving false) (.ret : β → Drv β) fun _ m => m = .serving false

/-- The rule for a polling loop. -/
theorem keeps_polling_duty {β : Type} {round : Message → Drv (Option β)}
    (h : ∀ m, Keeps dutySpec (.serving false) (round m) DutyRound) :
    Keeps dutySpec (.serving false)
      (.forever (fetchMessage.bind fun o => match o with | none => .ret none | some m => round m))
      fun _ m => m = .serving false := by
  refine keeps_forever (c := .wpaCtrlPending) (· = .serving false) rfl rfl fun m hm => ?_
  subst hm
  refine keeps_fetch_duty fun o => ?_
  cases o with
  | none => exact keeps_ret rfl
  | some m => exact h m

theorem keeps_testType_duty {α : Type} {m : Message} {t : Bytes} {k : Bool → Drv α}
    {Q : α → MainDuty → Prop} (h : ∀ b, Keeps dutySpec (.serving false) (k b) Q) :
    Keeps dutySpec (.serving false) ((testType m t).bind k) Q :=
  keeps_bind (keeps_ofOption (fun b _ => h b) fun _ => rfl)

theorem keeps_negotiationLoop_duty :
    Keeps dutySpec (.serving false) negotiationLoop fun _ m => m = .serving false := by
  refine keeps_polling_duty fun m => ?_
  simp only [negotiationRound, bind_eq, perform_bind]
  refine keeps_served rfl fun _ => keeps_testType_duty fun started => ?_
  split
  · exact keeps_bind
      (keeps_ofOption (fun name _ => keeps_served rfl fun _ => keeps_ret (keeps_ret rfl))
        fun _ => rfl)
  · refine keeps_testType_duty fun formationFailed => ?_
    split
    · exact keeps_ret (keeps_ret rfl)
    · refine keeps_testType_duty fun negotiationFailed => ?_
      split
      · exact keeps_ret (keeps_ret rfl)
      · exact keeps_ret rfl

theorem keeps_connectToDevice_duty (macAddress : Bytes) :
    Keeps dutySpec (.serving false) (connectToDevice macAddress) fun _ m => m = .serving false := by
  simp only [connectToDevice, bind_eq, system_bind, perform_bind]
  refine keeps_served rfl fun _ =>
    keeps_bind (keeps_negotiationLoop_duty.mono fun connected m hm => ?_)
  subst hm
  exact keeps_served rfl fun _ => keeps_ret rfl

theorem keeps_searchLoop_duty :
    Keeps dutySpec (.serving false) searchLoop fun _ m => m = .serving false := by
  refine keeps_polling_duty fun m => keeps_testType_duty fun request => ?_
  split
  · refine keeps_bind (keeps_ofOption (fun macAddress _ => ?_) fun _ => rfl)
    refine keeps_bind ((keeps_connectToDevice_duty macAddress).mono fun connected m hm => ?_)
    subst hm
    cases connected with
    | true => exact keeps_ret (keeps_ret rfl)
    | false => exact keeps_served rfl fun _ => keeps_ret rfl
  · exact keeps_ret rfl

theorem keeps_connectLoop_duty :
    Keeps dutySpec (.serving false) connectLoop fun _ m => m = .serving false := by
  refine keeps_served rfl fun control => ?_
  split
  · exact keeps_ret rfl
  · exact keeps_served rfl fun _ => keeps_searchLoop_duty

theorem serving_of_isHandshake {c : Call} (h : c.isHandshake = true) : c.isServing = true := by
  cases c <;> first | rfl | exact Bool.noConfusion h

/-- A round of `connect_loop` and the handshake behind it. -/
theorem keeps_attempt_duty {α : Type} {ip : IpExchange} {k : Bool → Drv α} {Q : α → MainDuty → Prop}
    (h : ∀ success, Keeps dutySpec (.serving false) (k success) Q) :
    Keeps dutySpec (.serving false) (connectLoop.bind fun _ => (callIpExchange ip).bind k) Q := by
  refine keeps_bind (keeps_connectLoop_duty.mono fun _ m hm => ?_)
  subst hm
  refine keeps_bind ((keeps_serving (only_callIpExchange (fun _ => serving_of_isHandshake) rfl
    (fun _ => rfl) ip)).mono fun success m hm => ?_)
  subst hm
  exact h success

theorem keeps_retryHandshake_duty (ip : IpExchange) (success : Bool) :
    Keeps dutySpec (.serving false) (retryHandshake ip success) fun _ m => m = .serving false := by
  cases success with
  | true => exact keeps_ret rfl
  | false =>
    rw [retryHandshake, if_neg Bool.false_ne_true]
    refine keeps_forever (· = .serving false) rfl rfl fun m hm => ?_
    subst hm
    refine keeps_attempt_duty fun success => ?_
    cases success with
    | true => exact keeps_ret (keeps_ret rfl)
    | false => exact keeps_ret rfl

theorem keeps_masterLoop_duty (ip : IpExchange) :
    Keeps dutySpec (.serving false) (masterLoop ip) fun _ _ => False := by
  refine keeps_forever (· = .serving false) rfl rfl fun m hm => ?_
  subst hm
  refine keeps_attempt_duty fun success => ?_
  refine keeps_bind ((keeps_retryHandshake_duty ip success).mono fun _ m hm => ?_)
  subst hm
  simp only [enterConnectedState, bind_eq, perform_bind]
  exact keeps_served rfl fun _ => keeps_served rfl fun _ => keeps_served rfl fun _ =>
    keeps_served rfl fun _ => keeps_served rfl fun _ => keeps_served rfl fun _ => keeps_ret rfl

/-- The attach loop goes on while an attempt times out. -/
theorem keeps_attachLoop_duty (control : Option Handle) {attachStatus : Option Int}
    (hstatus : attachStatus = none ∨ attachStatus = some (-2)) (n : Nat) :
    Keeps dutySpec (.setup control attachStatus) (attachLoop n) fun status m =>
      ∃ attachStatus', m = .setup control attachStatus' ∧
        (status = 0 → attachStatus' = some 0) := by
  induction n generalizing attachStatus with
  | zero => exact keeps_ret ⟨_, rfl, fun h => absurd h (by decide)⟩
  | succ n ih =>
    refine keeps_call fun r _ => ⟨.setup control (some r.ret), ?_, ?_⟩
    · rcases hstatus with rfl | rfl <;> rfl
    · split
      · rename_i htimeout
        exact ih (.inr (congrArg some htimeout))
      · exact keeps_ret ⟨_, rfl, fun h => congrArg some h⟩

/-- `init_and_attach_ctrl` leaves `control_data` null, unless it is attached. -/
theorem keeps_initAndAttachCtrl_duty :
    Keeps dutySpec (.setup none none) initAndAttachCtrl fun _ m => ∃ control attachStatus,
      m = .setup control attachStatus ∧ (control = none ∨ attachStatus = some 0) := by
  simp only [initAndAttachCtrl, bind_eq, ask_bind, perform_bind]
  refine keeps_call fun control hcontrol => ⟨.setup none none, rfl, ?_⟩
  rw [if_neg (not_not.mpr (hcontrol none none rfl rfl))]
  refine keeps_call fun opened _ =>
    ⟨.setup none none, rfl, keeps_call fun _ _ => ⟨.setup opened.handle none, rfl, ?_⟩⟩
  split
  · rename_i hnull
    exact keeps_ret ⟨_, _, rfl, .inl hnull⟩
  · refine keeps_bind ((keeps_attachLoop_duty _ (.inl rfl) _).mono ?_)
    rintro attachStatus _ ⟨attachStatus', rfl, hzero⟩
    split
    · exact keeps_call fun _ _ => ⟨.setup opened.handle attachStatus', rfl,
        keeps_call fun _ _ => ⟨.setup none attachStatus', rfl, keeps_ret ⟨_, _, rfl, .inl rfl⟩⟩⟩
    · rename_i hstatus
      exact keeps_ret ⟨_, _, rfl, .inr (hzero (not_not.mp hstatus))⟩

theorem keeps_mainDuties :
    Keeps dutySpec (.setup none none) ((main .udp).bind fun _ => .ret ()) fun _ m => m.before := by
  refine keeps_bind (keeps_bind (keeps_initAndAttachCtrl_duty.mono ?_))
  rintro _ _ ⟨control, attachStatus, rfl, hattached⟩
  refine keeps_call fun read hread => ⟨.setup control attachStatus, rfl, ?_⟩
  have hcontrol := hread control attachStatus rfl rfl
  simp only [ret_bind]
  split
  · exact keeps_ret (keeps_ret trivial)
  · rename_i hset
    obtain rfl := hattached.resolve_left fun h => hset (hcontrol.trans h)
    simp only [initTerminationSignals, bind_eq, perform_bind, call_bind]
    refine keeps_call fun _ _ => ⟨.serving false, rfl, ?_⟩
    refine keeps_served rfl fun _ => keeps_served rfl fun _ => keeps_served rfl fun _ =>
      keeps_served rfl fun _ => keeps_served rfl fun _ => ?_
    exact (keeps_masterLoop_duty .udp).mono fun _ _ h => h.elim

/-! ## 3. What `connected_loop` receives -/

theorem only_connectedLoop_receives : Only Call.receivesMessage True connectedLoop := by
  have hstop : Only Call.receivesMessage True stopRound := by
    refine only_call rfl fun listening => ?_
    split
    · exact only_ret _
    · exact only_call rfl fun _ => only_ret _
  refine only_loop rfl (fun pending => keeps_poll (fun _ => hstop) fun _ r _ => ⟨(), rfl, ?_⟩)
    fun _ => only_ret _
  cases delivered r with
  | none => exact hstop
  | some m =>
    refine keeps_bind ((only_testType m _).mono fun disconnected _ _ => ?_)
    cases disconnected with
    | true => exact only_call rfl fun _ => only_call rfl fun _ => only_call rfl fun _ => only_ret _
    | false => exact hstop

end CtrlProcessLemmas

end P2pDriver
