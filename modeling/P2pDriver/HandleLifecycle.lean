import P2pDriver.SessionMachine
import P2pDriver.SessionProtocol

/-!
# The life cycle of the handle

`control_data` is checked, used, closed and cleared in separate steps. On `main`
alone, and with the two session threads beside it, every call of the `wpa_ctrl`
library is made on the handle that is open. A signal changes that: its handler
closes the handle, then runs a script, and only then clears `control_data`. A
second signal in between, or a session thread that polls, meets a handle that
has been closed, or none.

Results:
1. `handle_closed_twice`: two signals are enough to close a handle twice.
2. `handles_proper`: as long as every signal arrives when the handle is open and
   no other thread will use it, or when it is gone, all calls are made on an open
   handle, and no handle is closed twice.
-/

namespace P2pDriver

open Resumable Prog ConnectLemmas CommandHandlerLemmas DriverLemmas SessionMachineLemmas

/-! ## 1. When a signal is harmless -/

/-- Whether a thread that waits on a call, or on none, will make no more calls of
the `wpa_ctrl` library before it ends. `connected_loop` leaves once it has read
`run_command_loop` false or seen the device disconnect. -/
def leavesHandle (runCommandLoop : Bool) : Option Call → Bool
  | some .wpaCtrlPending | some (.wpaCtrlRecv _) => false
  | some .isListeningForCommands => !runCommandLoop
  | _ => true

/-- The call a thread waits on, apart from its handlers. -/
def waitsOn (C : State) (t : Thread) : Option Call := (C.threads t).bind fun s => s.base.pending

/-- Whether the threads other than `t` make no more calls on the handle while
`t` does not go on. -/
def othersLeave (C : State) : Thread → Bool
  | .main => leavesHandle C.store.runCommandLoop (waitsOn C .connectionListener)
  | .commandHandler => waitsOn C .main = some (.join .commandHandler) &&
      leavesHandle C.store.runCommandLoop (waitsOn C .connectionListener)
  | .connectionListener => true

/-- Whether no thread other than `t` is in a signal handler. -/
def onlyHandles (C : State) (t : Thread) : Bool :=
  [Thread.main, .commandHandler, .connectionListener].all fun u =>
    u = t || (C.threads u).all fun s => s.handlers.isEmpty

/-- A signal that arrives on `t` is harmless if the handle is gone, or if it is
open and nothing but this handler will use it any more. -/
def harmlessOn (C : State) (t : Thread) : Bool :=
  match C.store.controlData with
  | none => true
  | some h => h ∈ C.store.handles.held && onlyHandles C t && othersLeave C t

/-- The steps under which the handle is kept: every signal is harmless. -/
def harmless (C : State) : Move → Bool
  | .interrupt t _ => harmlessOn C t
  | _ => true

/-! ## 2. Phases -/

/-- The calls of `main` once it runs with a handle. -/
def Call.keepsHandle : Call → Bool
  | .wpaCtrlOpen _ | .wpaCtrlClose | .setControlData _ => false
  | _ => true

/-- The calls that have nothing to do with the handle. -/
def Call.isApart : Call → Bool
  | .wpaCtrlAttach | .wpaCtrlDetach | .wpaCtrlPending | .wpaCtrlRecv _ => false
  | c => c.keepsHandle

/-- Where `main` is with the handle. -/
inductive SetupPhase where
  | fresh
  | opening
  | opened (control : Option Handle)
  | attaching (h : Handle)
  | closed (h : Handle)
  | failed
  | live (h : Handle)

namespace SetupPhase

/-- What `control_data` holds. -/
def control : SetupPhase → Option Handle
  | attaching h | closed h | live h => some h
  | _ => none

/-- The handles that are open. -/
def held : SetupPhase → Finset Handle
  | opened (some h) | attaching h | live h => {h}
  | _ => ∅

def step : SetupPhase → Call → Answer → Option SetupPhase
  | fresh, .controlData, _ => some opening
  | opening, .wpaCtrlOpen _, r => some (opened r.handle)
  | opened none, .setControlData none, _ => some failed
  | opened (some h), .setControlData (some h'), _ => if h = h' then some (attaching h) else none
  | attaching h, .wpaCtrlAttach, _ => some (attaching h)
  | attaching h, .wpaCtrlClose, _ => some (closed h)
  | attaching h, .controlData, _ => some (live h)
  | closed _, .setControlData none, _ => some failed
  | failed, .controlData, _ => some failed
  | live h, c, _ => if c.keepsHandle then some (live h) else none
  | _, _, _ => none

end SetupPhase

/-- The monitor of `main`. Its reads of `control_data` find what it has stored. -/
def setupSpec : Spec Call Answer SetupPhase where
  admits m c r := c = .controlData → r.handle = m.control
  step := SetupPhase.step
  faults _ := True

/-- Whether `connected_loop` may still use the handle. -/
inductive PollingPhase where
  | polling
  | leaving

def PollingPhase.step : PollingPhase → Call → Answer → Option PollingPhase
  | polling, .wpaCtrlPending, _ | polling, .wpaCtrlRecv _, _ => some polling
  | polling, .isListeningForCommands, r => some (if r.isSet then polling else leaving)
  | _, .print _, _ | _, .setConnectionIsValid _, _ | _, .setListenForCommands false, _ =>
    some leaving
  | _, _, _ => none

abbrev pollingSpec : Spec Call Answer PollingPhase := phaseSpec PollingPhase.step

/-- Where a signal handler is in `dispose_p2p`, or behind it. -/
inductive DisposalPhase where
  | reading
  | detaching
  | closing
  | cleaning
  | clearing
  | exiting
deriving DecidableEq

namespace DisposalPhase

/-- The handles that are open while a handler disposes of `h`. -/
def held (h : Handle) : DisposalPhase → Finset Handle
  | reading | detaching | closing => {h}
  | cleaning | clearing | exiting => ∅

def step : DisposalPhase → Call → Answer → Option DisposalPhase
  | reading, .controlData, r => some (if r.handle = none then exiting else detaching)
  | detaching, .wpaCtrlDetach, _ => some closing
  | closing, .wpaCtrlClose, _ => some cleaning
  | cleaning, .system _, _ => some clearing
  | clearing, .setControlData none, _ => some exiting
  | exiting, .exit _, _ => some exiting
  | _, _, _ => none

end DisposalPhase

/-- The monitor of a signal handler. `exit` does not return. -/
def disposalSpec : Spec Call Answer DisposalPhase where
  admits _ c _ := ∀ code, c ≠ .exit code
  step := DisposalPhase.step
  faults _ := False

/-! ## 3. The threads keep their phases -/

namespace HandleLifecycleLemmas

theorem keepsHandle_of_isSearch {c : Call} (h : c.isSearch = true) : c.keepsHandle = true := by
  cases c <;> first | rfl | exact Bool.noConfusion h

theorem keepsHandle_of_isHandshake {c : Call} (h : c.isHandshake = true) :
    c.keepsHandle = true := by
  cases c <;> first | rfl | exact Bool.noConfusion h

/-- A program that leaves the handle to others, run by `main`. -/
theorem keeps_live {α : Type} {F : Prop} {h : Handle} {p : Drv α} (hp : Only Call.keepsHandle F p) :
    Keeps setupSpec (.live h) p fun _ m => m = .live h :=
  hp.keeps (fun _ _ hc => if_pos hc) fun _ => trivial

theorem only_retryHandshake (ip : IpExchange) (success : Bool) :
    Only Call.keepsHandle True (retryHandshake ip success) := by
  cases success with
  | true => exact only_ret _
  | false =>
    rw [retryHandshake, if_neg Bool.false_ne_true]
    refine keeps_forever (fun _ => True) trivial rfl fun m _ => ?_
    refine keeps_bind ((only_connectLoop fun _ => keepsHandle_of_isSearch).mono fun _ _ _ => ?_)
    refine keeps_bind ((only_callIpExchange (fun _ => keepsHandle_of_isHandshake) rfl
      (fun _ => rfl) ip).mono fun success _ _ => ?_)
    cases success with
    | true => exact keeps_ret (keeps_ret trivial)
    | false => exact keeps_ret trivial

theorem only_masterLoop (ip : IpExchange) : Only Call.keepsHandle True (masterLoop ip) := by
  refine keeps_forever (fun _ => True) trivial rfl fun m _ => ?_
  refine keeps_bind ((only_connectLoop fun _ => keepsHandle_of_isSearch).mono fun _ _ _ => ?_)
  refine keeps_bind ((only_callIpExchange (fun _ => keepsHandle_of_isHandshake) rfl
    (fun _ => rfl) ip).mono fun success _ _ => ?_)
  refine keeps_bind ((only_retryHandshake ip success).mono fun _ _ _ => ?_)
  have henter : Only Call.keepsHandle True enterConnectedState :=
    only_call rfl fun _ => only_call rfl fun _ => only_call rfl fun _ => only_call rfl fun _ =>
      only_call rfl fun _ => only_call rfl fun _ => only_ret _
  exact keeps_bind (henter.mono fun _ _ _ => keeps_ret trivial)

theorem keeps_attachLoop_handle (h : Handle) (n : Nat) :
    Keeps setupSpec (.attaching h) (attachLoop n) fun _ m => m = .attaching h := by
  induction n with
  | zero => exact keeps_ret rfl
  | succ n ih =>
    refine keeps_call fun r _ => ⟨.attaching h, rfl, ?_⟩
    split
    · exact ih
    · exact keeps_ret rfl

/-- `init_and_attach_ctrl` leaves an open handle in `control_data`, or null. -/
theorem keeps_initAndAttachCtrl_handle : Keeps setupSpec .fresh initAndAttachCtrl fun _ m =>
    m = .failed ∨ ∃ h, m = .attaching h := by
  simp only [initAndAttachCtrl, bind_eq, ask_bind, perform_bind]
  refine keeps_call fun control hcontrol => ⟨.opening, rfl, ?_⟩
  have hnull : control.handle = none := hcontrol rfl
  rw [if_neg (not_not.mpr hnull)]
  refine keeps_call fun opened _ => ⟨.opened opened.handle, rfl, ?_⟩
  cases hopened : opened.handle with
  | none => exact keeps_call fun _ _ => ⟨.failed, rfl, keeps_ret (.inl rfl)⟩
  | some h =>
    refine keeps_call fun _ _ => ⟨.attaching h, if_pos rfl, ?_⟩
    rw [if_neg (Option.some_ne_none h)]
    refine keeps_bind
      ((keeps_attachLoop_handle h maxTimeoutAttempts).mono fun attachStatus m hm => ?_)
    subst hm
    split
    · exact keeps_call fun _ _ => ⟨.closed h, rfl, keeps_call fun _ _ => ⟨.failed, rfl,
        keeps_ret (.inl rfl)⟩⟩
    · exact keeps_ret (.inr ⟨h, rfl⟩)

theorem keeps_setupPhases (ip : IpExchange) :
    Keeps setupSpec .fresh ((main ip).bind fun _ => .ret ()) fun _ _ => True := by
  refine keeps_bind (keeps_bind (keeps_initAndAttachCtrl_handle.mono fun _ m hm => ?_))
  rcases hm with rfl | ⟨h, rfl⟩
  · refine keeps_call fun control hcontrol => ⟨.failed, rfl, ?_⟩
    have hnull : control.handle = none := hcontrol rfl
    simp only [ret_bind]
    rw [if_pos hnull]
    exact keeps_ret (keeps_ret trivial)
  · refine keeps_call fun control hcontrol => ⟨.live h, rfl, ?_⟩
    have hopen : control.handle = some h := hcontrol rfl
    simp only [ret_bind]
    rw [if_neg (by rw [hopen]; exact Option.some_ne_none h)]
    refine keeps_bind
      ((keeps_live (only_initTerminationSignals fun _ => rfl)).mono fun _ m hm => ?_)
    subst hm
    exact (keeps_live (only_masterLoop ip)).mono fun _ _ _ => keeps_ret trivial

/-- What the end of a round of `connected_loop` establishes. -/
abbrev PollingRound : Option Unit → PollingPhase → Prop :=
  RoundPost pollingSpec (· = .polling) (.ret : Unit → Drv Unit) fun _ _ => True

theorem keeps_stopRound_polling : Keeps pollingSpec .polling stopRound PollingRound := by
  refine keeps_call fun listening _ => ⟨if listening.isSet then .polling else .leaving, rfl, ?_⟩
  cases listening.isSet with
  | true => exact keeps_ret rfl
  | false => exact keeps_call fun _ _ => ⟨.leaving, rfl, keeps_ret (keeps_ret trivial)⟩

theorem keeps_pollingPhases : Keeps pollingSpec .polling connectedLoop fun _ _ => True := by
  refine keeps_forever (c := .wpaCtrlPending) (· = .polling) rfl rfl fun k hk => ?_
  subst hk
  refine keeps_fetchMessage_ignored (fun _ => rfl) (fun _ => rfl) fun o => ?_
  cases o with
  | none => exact keeps_stopRound_polling
  | some m =>
    refine keeps_bind (keeps_ofOption (fun disconnected _ => ?_) fun _ => trivial)
    cases disconnected with
    | true =>
      exact keeps_call fun _ _ => ⟨.leaving, rfl, keeps_call fun _ _ => ⟨.leaving, rfl,
        keeps_call fun _ _ => ⟨.leaving, rfl, keeps_ret (keeps_ret trivial)⟩⟩⟩
    | false => exact keeps_stopRound_polling

/-- A signal handler does not return. -/
theorem keeps_disposalPhases (signum : Signal) :
    Keeps disposalSpec .reading (signalCallbackHandler signum) fun _ _ => False := by
  have hexit : Keeps disposalSpec .exiting (perform (.exit signum)) fun _ _ => False :=
    keeps_call fun _ hr => absurd rfl (hr signum)
  refine keeps_bind (keeps_call fun control _ => ⟨_, rfl, ?_⟩)
  simp only [ret_bind]
  split
  · exact keeps_ret hexit
  · exact keeps_call fun _ _ => ⟨.closing, rfl, keeps_call fun _ _ => ⟨.cleaning, rfl,
      keeps_call fun _ _ => ⟨.clearing, rfl,
        keeps_call fun _ _ => ⟨.exiting, rfl, keeps_ret hexit⟩⟩⟩⟩

end HandleLifecycleLemmas

open HandleLifecycleLemmas

/-! ## 4. The states of the process -/

/-- `connected_loop` makes no more calls on the handle. -/
def Retiring (flag : Bool) (p : Drv Unit) : Prop :=
  Keeps pollingSpec .leaving p (fun _ _ => True) ∨
    Keeps pollingSpec .polling p (fun _ _ => True) ∧ p.pending = some .isListeningForCommands ∧
      flag = false

/-- The program of a thread `u` that leaves the handle alone while `t` does not go on. -/
def Waiting (flag : Bool) (t : Thread) : Thread → Drv Unit → Prop
  | .main, p => ∃ m, Keeps mainSpec m p (fun _ _ => True) ∧
      (m = .watched ∨ m = .joining ∧ t = .connectionListener)
  | .commandHandler, p => Only Call.isCommandHandling True p
  | .connectionListener, p => Retiring flag p

/-- `t` is in a handler, from which it does not return, and no other thread uses
the handle before it ends. -/
structure Quiet (C : State) (t : Thread) : Prop where
  busy : ∃ s, C.threads t = some s ∧ s.handlers ≠ []
  others : ∀ u, u ≠ t → ∀ s, C.threads u = some s → Waiting C.store.runCommandLoop t u s.base

/-- No signal has arrived, and `main` is in the phase `m`. -/
structure Running (C : State) (m : SetupPhase) : Prop where
  control : C.store.controlData = m.control
  handles : C.store.handles = .clean m.held
  main : Stack.Calm (fun p => Keeps setupSpec m p fun _ _ => True) (C.threads .main)
  handler : Stack.Calm (Only Call.isCommandHandling True) (C.threads .commandHandler)
  listener : Stack.Calm (fun p => ∃ k, Keeps pollingSpec k p fun _ _ => True)
    (C.threads .connectionListener)
  early : (∀ h, m ≠ .live h) → C.store.registered = [] ∧
    C.threads .commandHandler = none ∧ C.threads .connectionListener = none

/-- `t` is in a handler that disposes of `h`, and no other thread is in one. -/
structure Disposing (C : State) (t : Thread) (d : DisposalPhase) (h : Handle) : Prop where
  handler : ∃ s, C.threads t = some s ∧ s.Handles disposalSpec d
  alone : ∀ u, u ≠ t → ∀ s, C.threads u = some s → s.handlers = []
  before : d ≠ .exiting
  control : C.store.controlData = some h
  handles : C.store.handles = .clean (d.held h)
  quiet : Quiet C t

/-- `t` has disposed of the handle. Handlers that start now find it gone. -/
structure Disposed (C : State) (t : Thread) : Prop where
  control : C.store.controlData = none
  handles : C.store.handles = .clean ∅
  handlers : ∀ u s, C.threads u = some s → s.handlers = [] ∨
    s.Handles disposalSpec .reading ∨ s.Handles disposalSpec .exiting
  quiet : Quiet C t

/-- The states of the process in which no call has been improper. -/
inductive Lifecycle (C : State) : Prop where
  | running {m : SetupPhase} (h : Running C m)
  | disposing {t : Thread} {d : DisposalPhase} {h : Handle} (hd : Disposing C t d h)
  | disposed {t : Thread} (h : Disposed C t)

/-! ## 5. Calls and the books -/

namespace HandleLifecycleLemmas

/-- The calls a thread makes while it leaves the handle alone. -/
def isIdle : Call → Bool
  | .spawn _ | .setListenForCommands true => false
  | c => c.isApart

variable {s : Shared} {c : Call} {r : Answer}

theorem store_apart (hc : c.isApart = true) :
    (s.effect c r).controlData = s.controlData ∧ (s.effect c r).handles = s.handles := by
  cases c <;> first | exact ⟨rfl, Books.record_apart _⟩ | exact Bool.noConfusion hc

theorem store_keepsHandle {h : Handle} (hc : c.keepsHandle = true)
    (hcontrol : s.controlData = some h) (hheld : h ∈ s.handles.held) :
    (s.effect c r).controlData = s.controlData ∧ (s.effect c r).handles = s.handles := by
  have huse : s.handles.record { on := some s.controlData } false = s.handles := by
    rw [hcontrol]
    exact Books.record_use hheld
  cases c <;>
    first | exact ⟨rfl, Books.record_apart _⟩ | exact ⟨rfl, huse⟩ | exact Bool.noConfusion hc

theorem apart_of_isIdle (hc : isIdle c = true) : c.isApart = true := by
  unfold isIdle at hc
  split at hc
  · exact Bool.noConfusion hc
  · exact Bool.noConfusion hc
  · exact hc

theorem spawns_of_isIdle (hc : isIdle c = true) : process.spawns c = none := by
  cases c <;> first | rfl | exact Bool.noConfusion hc

theorem flagAfter_of_isIdle (hc : isIdle c = true) : flagAfter false c = false := by
  cases c with
  | setListenForCommands val => cases val <;> first | rfl | exact Bool.noConfusion hc
  | _ => rfl

theorem isIdle_of_isCommandHandling (hc : c.isCommandHandling = true) : isIdle c = true := by
  cases c with
  | setListenForCommands val => cases val <;> first | rfl | exact Bool.noConfusion hc
  | _ => first | rfl | exact Bool.noConfusion hc

theorem handles_open {path : Bytes} (hhandles : s.handles = .clean ∅) :
    (s.effect (.wpaCtrlOpen path) r).handles = .clean (SetupPhase.opened r.handle).held := by
  have hrecord : (s.effect (.wpaCtrlOpen path) r).handles =
      s.handles.record { hands := r.handle } false :=
    rfl
  rw [hrecord, hhandles]
  cases r.handle <;> rfl

theorem handles_close {h : Handle} (hcontrol : s.controlData = some h)
    (hhandles : s.handles = .clean {h}) : (s.effect .wpaCtrlClose r).handles = .clean ∅ := by
  have hrecord : (s.effect .wpaCtrlClose r).handles =
      s.handles.record { on := some s.controlData, frees := true } false := rfl
  rw [hrecord, hhandles, hcontrol]
  simp [Books.record, Books.clean, Access.apply, Access.proper]

/-- What `main` does to `control_data` and the books. -/
theorem store_setup {m m' : SetupPhase} (h : m.step c r = some m')
    (hcontrol : s.controlData = m.control)
    (hhandles : s.handles = .clean m.held) :
    (s.effect c r).controlData = m'.control ∧ (s.effect c r).handles = .clean m'.held := by
  have hkeep : ∀ h', c.keepsHandle = true → m.control = some h' → m.held = {h'} →
      (s.effect c r).controlData = m.control ∧ (s.effect c r).handles = .clean m.held := by
    intro h' hc hh' hheld
    have hmem : h' ∈ s.handles.held := by
      rw [hhandles, hheld]
      exact Finset.mem_singleton_self h'
    rw [← hcontrol, ← hhandles]
    exact store_keepsHandle hc (hcontrol.trans hh') hmem
  unfold SetupPhase.step at h
  split at h
  · obtain rfl := Option.some.inj h
    exact ⟨hcontrol, (store_apart rfl).2.trans hhandles⟩
  · obtain rfl := Option.some.inj h
    exact ⟨hcontrol, handles_open hhandles⟩
  · obtain rfl := Option.some.inj h
    exact ⟨rfl, (Books.record_apart _).trans hhandles⟩
  · split at h
    · rename_i heq
      obtain rfl := Option.some.inj h
      subst heq
      exact ⟨rfl, (Books.record_apart _).trans hhandles⟩
    · cases h
  · obtain rfl := Option.some.inj h
    exact hkeep _ rfl rfl rfl
  · obtain rfl := Option.some.inj h
    exact ⟨hcontrol, handles_close hcontrol hhandles⟩
  · obtain rfl := Option.some.inj h
    exact hkeep _ rfl rfl rfl
  · obtain rfl := Option.some.inj h
    exact ⟨rfl, (Books.record_apart _).trans hhandles⟩
  · obtain rfl := Option.some.inj h
    exact ⟨hcontrol, (store_apart rfl).2.trans hhandles⟩
  · split at h
    · rename_i hc
      obtain rfl := Option.some.inj h
      exact hkeep _ hc rfl rfl
    · cases h
  · cases h

/-- Before it runs with a handle, `main` starts no thread and registers no signal. -/
theorem setup_early {m m' : SetupPhase} (h : m.step c r = some m') (hm' : ∀ h, m' ≠ .live h) :
    (∀ h, m ≠ .live h) ∧ process.spawns c = none ∧ (s.effect c r).registered = s.registered := by
  unfold SetupPhase.step at h
  split at h
  case h_7 => exact absurd (Option.some.inj h).symm (hm' _)
  case h_4 =>
    refine ⟨fun _ hm => ?_, rfl, rfl⟩
    cases hm
  case h_10 =>
    split at h
    · exact absurd (Option.some.inj h).symm (hm' _)
    · cases h
  case h_11 => cases h
  all_goals
    refine ⟨fun _ hm => ?_, rfl, rfl⟩
    cases hm

/-- What a handler does to `control_data` and the books. -/
theorem store_disposal {d d' : DisposalPhase} {h : Handle} (hd : d.step c r = some d')
    (hbefore : d ≠ .exiting)
    (hcontrol : s.controlData = some h) (hhandles : s.handles = .clean (d.held h))
    (hread : c = .controlData → r.handle = s.controlData) :
    (d' ≠ .exiting ∧ (s.effect c r).controlData = some h ∧
      (s.effect c r).handles = .clean (d'.held h)) ∨
    (d' = .exiting ∧ (s.effect c r).controlData = none ∧ (s.effect c r).handles = .clean ∅) := by
  unfold DisposalPhase.step at hd
  split at hd
  · obtain rfl := Option.some.inj hd
    rw [hread rfl, hcontrol, if_neg (Option.some_ne_none h)]
    exact .inl ⟨by decide, hcontrol, (store_apart rfl).2.trans hhandles⟩
  · obtain rfl := Option.some.inj hd
    have hmem : h ∈ s.handles.held := by
      rw [hhandles]
      exact Finset.mem_singleton_self h
    exact .inl ⟨by decide, hcontrol, (store_keepsHandle rfl hcontrol hmem).2.trans hhandles⟩
  · obtain rfl := Option.some.inj hd
    exact .inl ⟨by decide, hcontrol, handles_close hcontrol hhandles⟩
  · obtain rfl := Option.some.inj hd
    exact .inl ⟨by decide, hcontrol, (store_apart rfl).2.trans hhandles⟩
  · obtain rfl := Option.some.inj hd
    exact .inr ⟨rfl, rfl, (Books.record_apart _).trans hhandles⟩
  · exact absurd rfl hbefore
  · cases hd

theorem keepsHandle_of_polling {k k' : PollingPhase} (h : k.step c r = some k') :
    c.keepsHandle = true ∧ process.spawns c = none := by
  unfold PollingPhase.step at h
  split at h
  all_goals first | exact ⟨rfl, rfl⟩ | cases h

/-! ## 6. Threads that leave the handle alone -/

theorem leaving_step {k : PollingPhase} (h : PollingPhase.leaving.step c r = some k) :
    isIdle c = true ∧ k = .leaving := by
  cases c with
  | print buffer => exact ⟨rfl, (Option.some.inj h).symm⟩
  | setConnectionIsValid val => exact ⟨rfl, (Option.some.inj h).symm⟩
  | setListenForCommands val =>
    cases val with
    | false => exact ⟨rfl, (Option.some.inj h).symm⟩
    | true => cases h
  | _ => cases h

/-- A step of a program that leaves the handle alone. -/
theorem retiring_resume {flag : Bool} {p : Drv Unit} (h : Retiring flag p) (hc : p.pending = some c)
    (hread : c = .isListeningForCommands → r.isSet = flag) :
    isIdle c = true ∧ Keeps pollingSpec .leaving (p.resume r) (fun _ _ => True) := by
  rcases h with h | ⟨h, hpend, hflag⟩
  · obtain ⟨k, hk, hp⟩ := h.resume hc (r := r) trivial
    obtain ⟨hidle, rfl⟩ := leaving_step hk
    exact ⟨hidle, hp⟩
  · obtain rfl := Option.some.inj (hpend.symm.trans hc)
    obtain ⟨k, hk, hp⟩ := h.resume hc (r := r) trivial
    obtain rfl := Option.some.inj hk
    rw [hread rfl, hflag] at hp
    exact ⟨rfl, hp⟩

theorem waiting_resume {flag : Bool} {t u : Thread} {p : Drv Unit} (h : Waiting flag t u p)
    (hne : u ≠ t) (hc : p.pending = some c) (hread : c = .isListeningForCommands → r.isSet = flag)
    (hjoin : process.joins c ≠ some t) :
    isIdle c = true ∧ ∀ flag', Waiting flag' t u (p.resume r) := by
  cases u with
  | main =>
    obtain ⟨m, hm, hwaits⟩ := h
    obtain ⟨m', hm', hp⟩ := hm.resume hc (r := r) trivial
    rcases main_step_cases hm' with ⟨rfl, -, -⟩ | ⟨rfl, -, -⟩ | ⟨rfl, -, -⟩ | ⟨rfl, -, -⟩ |
      ⟨rfl, rfl, rfl⟩ | ⟨rfl, rfl, rfl⟩
    · simp at hwaits
    · simp at hwaits
    · simp at hwaits
    · simp at hwaits
    · refine ⟨rfl, fun _ => ⟨.joining, hp, .inr ⟨rfl, ?_⟩⟩⟩
      cases t with
      | main => exact absurd rfl hne
      | commandHandler => exact absurd rfl hjoin
      | connectionListener => rfl
    · obtain rfl : t = .connectionListener := by simpa using hwaits
      exact absurd rfl hjoin
  | commandHandler =>
    obtain ⟨hidle, hp⟩ := Only.resume h hc r
    exact ⟨isIdle_of_isCommandHandling hidle, fun _ => hp⟩
  | connectionListener =>
    obtain ⟨hidle, hp⟩ := retiring_resume h hc hread
    exact ⟨hidle, fun _ => .inl hp⟩

theorem waiting_flag {flag flag' : Bool} {t u : Thread} {p : Drv Unit} (h : Waiting flag t u p)
    (hflag : flag = false → flag' = false) : Waiting flag' t u p := by
  cases u with
  | main => exact h
  | commandHandler => exact h
  | connectionListener =>
    rcases h with h | ⟨h, hpend, hf⟩
    · exact .inl h
    · exact .inr ⟨h, hpend, hflag hf⟩

variable {C : State} {t u : Thread} {x : Stack Call Answer Signal}

/-- A call of a thread that leaves the handle alone. -/
theorem quiet_call (h : Quiet C t) (hx : C.threads u = some x) (hne : u ≠ t)
    (hnil : x.handlers = []) (hpend : x.running.pending = some c)
    (hans : process.answers C.store c r = true)
    (hjoin : ∀ v, process.joins c = some v → C.threads v = none) :
    isIdle c = true ∧ (∀ x', x.resume r = some x' → x'.handlers = []) ∧
      Quiet ⟨process.effect C.store c r, process.threadsAfter C.threads u x c r⟩ t := by
  rw [Stack.running_of_nil hnil] at hpend
  obtain ⟨y, hy, hbusy⟩ := h.busy
  have hjoint : process.joins c ≠ some t := fun hj => by
    rw [hjoin t hj] at hy
    cases hy
  have hread : c = .isListeningForCommands → r.isSet = C.store.runCommandLoop := by
    rintro rfl
    exact of_decide_eq_true hans
  obtain ⟨hidle, hnext⟩ := waiting_resume (h.others u hne x hx) hne hpend hread hjoint
  have hcalm : Stack.Calm (fun p => ∀ flag, Waiting flag t u p) (x.resume r) :=
    Stack.calm_resume hnil hnext
  have hflag : C.store.runCommandLoop = false →
      (process.effect C.store c r).runCommandLoop = false :=
    fun hf => (effect_flag _ _ _).trans (hf ▸ flagAfter_of_isIdle hidle)
  refine ⟨hidle, fun x' hx' => (hcalm x' hx').1, ?_⟩
  rw [threadsAfter_eq (spawns_of_isIdle hidle)]
  refine ⟨⟨y, ?_, hbusy⟩, fun v hv z hz => ?_⟩
  · rw [← hy]
    exact Function.update_of_ne (Ne.symm hne) ..
  · dsimp only at hz
    by_cases hvu : v = u
    · subst hvu
      rw [Function.update_self] at hz
      exact (hcalm z hz).2 _
    · rw [Function.update_of_ne hvu] at hz
      exact waiting_flag (h.others v hv z hz) hflag

/-- A call of a handler, or a signal that arrives, changes no thread's own program. -/
theorem quiet_handler (h : Quiet C t) (hx : C.threads u = some x) {x' : Stack Call Answer Signal}
    (hbase : x'.base = x.base) (hhandlers : x'.handlers ≠ []) {store : Shared}
    (hflag : store.runCommandLoop = C.store.runCommandLoop) :
    Quiet ⟨store, Function.update C.threads u (some x')⟩ t := by
  obtain ⟨y, hy, hbusy⟩ := h.busy
  refine ⟨?_, fun v hv z hz => ?_⟩
  · by_cases htu : t = u
    · subst htu
      exact ⟨x', Function.update_self .., hhandlers⟩
    · refine ⟨y, ?_, hbusy⟩
      rw [← hy]
      exact Function.update_of_ne htu ..
  · dsimp only at hz
    rw [hflag]
    by_cases hvu : v = u
    · subst hvu
      obtain rfl : x' = z := by simpa using hz
      rw [hbase]
      exact h.others v hv x hx
    · rw [Function.update_of_ne hvu] at hz
      exact h.others v hv z hz

theorem handlers_ne_nil {d : DisposalPhase} (h : x.Handles disposalSpec d) : x.handlers ≠ [] := by
  obtain ⟨_, _, _, hcons, -⟩ := h
  rw [hcons]
  exact List.cons_ne_nil _ _

/-- A call of a thread in a handler. -/
theorem disposal_call {d : DisposalPhase} (hd : x.Handles disposalSpec d)
    (hpend : x.running.pending = some c) (hans : process.answers C.store c r = true) :
    c.isDisposal = true ∧ ∃ d' x', d.step c r = some d' ∧ x.resume r = some x' ∧ x'.base = x.base ∧
      x'.Handles disposalSpec d' := by
  have hexit : ∀ code, c ≠ .exit code := by
    rintro code rfl
    exact Bool.noConfusion hans
  obtain ⟨d', x', hstep, hrest⟩ := hd.call hpend (r := r) hexit
  refine ⟨?_, d', x', hstep, hrest⟩
  simp only [disposalSpec] at hstep
  unfold DisposalPhase.step at hstep
  split at hstep
  all_goals first | rfl | cases hstep

/-! ## 7. Steps -/

/-- A call of `main` before any signal has arrived. -/
theorem running_main {m : SetupPhase} (h : Running C m) (hx : C.threads .main = some x)
    (hpend : x.running.pending = some c) (hans : process.answers C.store c r = true) :
    ∃ m', Running ⟨process.effect C.store c r, process.threadsAfter C.threads .main x c r⟩ m' := by
  obtain ⟨hnil, hmain⟩ := h.main x hx
  rw [Stack.running_of_nil hnil] at hpend
  have hread : c = .controlData → r.handle = m.control := by
    rintro rfl
    exact (of_decide_eq_true hans).trans h.control
  obtain ⟨m', hm', hnext⟩ := hmain.resume hpend hread
  obtain ⟨hcontrol, hhandles⟩ := store_setup hm' h.control h.handles
  refine ⟨m', hcontrol, hhandles, ?_, ?_, ?_, fun hearly => ?_⟩
  · dsimp only
    rw [System.threadsAfter_self]
    exact Stack.calm_resume hnil hnext
  · dsimp only
    rw [System.threadsAfter_of_ne (by decide)]
    split
    · exact Stack.calm_start (only_listenForCommands fun _ hc => hc)
    · exact h.handler
  · dsimp only
    rw [System.threadsAfter_of_ne (by decide)]
    split
    · exact Stack.calm_start ⟨_, keeps_pollingPhases⟩
    · exact h.listener
  · obtain ⟨hbefore, hspawns, hregistered⟩ := setup_early (s := C.store) hm' hearly
    obtain ⟨hnone, hhandler, hlistener⟩ := h.early hbefore
    dsimp only
    rw [threadsAfter_eq hspawns]
    exact ⟨hregistered.trans hnone, hhandler, hlistener⟩

/-- `main` runs with a handle once there is another thread, or a signal may arrive. -/
theorem live_of_running {m : SetupPhase} (h : Running C m)
    (hlate : C.store.registered ≠ [] ∨ C.threads .commandHandler ≠ none ∨
      C.threads .connectionListener ≠ none) : ∃ h, m = .live h := by
  by_contra hno
  obtain ⟨hregistered, hhandler, hlistener⟩ := h.early fun h hm => hno ⟨h, hm⟩
  rcases hlate with hne | hne | hne
  · exact hne hregistered
  · exact hne hhandler
  · exact hne hlistener

/-- A call of a session thread before any signal has arrived. -/
theorem running_session {h : Handle} (hrun : Running C (.live h)) (hc : c.keepsHandle = true)
    (hspawns : process.spawns c = none) (hne : u ≠ .main)
    (hhandler : u = .commandHandler → Stack.Calm (Only Call.isCommandHandling True) (x.resume r))
    (hlistener : u = .connectionListener →
      Stack.Calm (fun p => ∃ k, Keeps pollingSpec k p fun _ _ => True) (x.resume r)) :
    Running ⟨process.effect C.store c r, process.threadsAfter C.threads u x c r⟩ (.live h) := by
  have hmem : h ∈ C.store.handles.held := by
    rw [hrun.handles]
    exact Finset.mem_singleton_self h
  obtain ⟨hcontrol, hhandles⟩ := store_keepsHandle (r := r) hc hrun.control hmem
  rw [threadsAfter_eq hspawns]
  refine ⟨hcontrol.trans hrun.control, hhandles.trans hrun.handles, ?_, ?_, ?_,
    fun hearly => absurd rfl (hearly h)⟩
  · simpa [Function.update_of_ne (Ne.symm hne)] using hrun.main
  · by_cases hu : u = .commandHandler
    · subst hu
      simpa using hhandler rfl
    · simpa [Function.update_of_ne (Ne.symm hu)] using hrun.handler
  · by_cases hu : u = .connectionListener
    · subst hu
      simpa using hlistener rfl
    · simpa [Function.update_of_ne (Ne.symm hu)] using hrun.listener

theorem running_call {m : SetupPhase} (h : Running C m) (hx : C.threads u = some x)
    (hpend : x.running.pending = some c) (hans : process.answers C.store c r = true) :
    ∃ m', Running ⟨process.effect C.store c r, process.threadsAfter C.threads u x c r⟩ m' := by
  cases u with
  | main => exact running_main h hx hpend hans
  | commandHandler =>
    obtain ⟨control, rfl⟩ := live_of_running h (.inr (.inl (by simp [hx])))
    obtain ⟨hnil, honly⟩ := h.handler x hx
    rw [Stack.running_of_nil hnil] at hpend
    obtain ⟨hc, hnext⟩ := Only.resume honly hpend r
    have hidle := isIdle_of_isCommandHandling hc
    have hkeeps : c.keepsHandle = true := by
      cases c <;> first | rfl | exact Bool.noConfusion hc
    exact ⟨_, running_session h hkeeps (spawns_of_isIdle hidle) (by decide)
      (fun _ => Stack.calm_resume hnil hnext) fun hu => Thread.noConfusion hu⟩
  | connectionListener =>
    obtain ⟨control, rfl⟩ := live_of_running h (.inr (.inr (by simp [hx])))
    obtain ⟨hnil, k, hk⟩ := h.listener x hx
    rw [Stack.running_of_nil hnil] at hpend
    obtain ⟨k', hk', hnext⟩ := hk.resume hpend (r := r) trivial
    obtain ⟨hkeeps, hspawns⟩ := keepsHandle_of_polling hk'
    exact ⟨_, running_session h hkeeps hspawns (by decide) (fun hu => Thread.noConfusion hu)
      fun _ => Stack.calm_resume hnil ⟨k', hnext⟩⟩

/-- A call of the thread that disposes of the handle, or of one that leaves it alone. -/
theorem disposing_call {d : DisposalPhase} {h : Handle} (hd : Disposing C t d h)
    (hx : C.threads u = some x) (hpend : x.running.pending = some c)
    (hans : process.answers C.store c r = true)
    (hjoin : ∀ v, process.joins c = some v → C.threads v = none) :
    Lifecycle ⟨process.effect C.store c r, process.threadsAfter C.threads u x c r⟩ := by
  by_cases hu : u = t
  · subst hu
    obtain ⟨y, hy, hphase⟩ := hd.handler
    obtain rfl := Option.some.inj (hx.symm.trans hy)
    obtain ⟨hdisposal, d', x', hstep, hresume, hbase, hphase'⟩ := disposal_call hphase hpend hans
    have hsession := disposal_not_session hdisposal
    have hquiet := quiet_handler hd.quiet hx hbase (handlers_ne_nil hphase')
      ((effect_flag C.store c r).trans (flagAfter_of_not_session hsession _))
    have halone : ∀ v, v ≠ u → ∀ z, Function.update C.threads u (some x') v = some z →
        z.handlers = [] := by
      intro v hv z hz
      rw [Function.update_of_ne hv] at hz
      exact hd.alone v hv z hz
    have hread : c = .controlData → r.handle = C.store.controlData := by
      rintro rfl
      exact of_decide_eq_true hans
    rw [threadsAfter_eq (spawns_of_not_session hsession), hresume]
    rcases store_disposal hstep hd.before hd.control hd.handles hread with
      ⟨hbefore, hcontrol, hhandles⟩ | ⟨rfl, hcontrol, hhandles⟩
    · exact .disposing ⟨⟨x', Function.update_self .., hphase'⟩, halone, hbefore, hcontrol,
      hhandles, hquiet⟩
    · refine .disposed ⟨hcontrol, hhandles, fun v z hz => ?_, hquiet⟩
      by_cases hv : v = u
      · subst hv
        obtain rfl : x' = z := by simpa using hz
        exact .inr (.inr hphase')
      · exact .inl (halone v hv z hz)
  · have hnil := hd.alone u hu x hx
    obtain ⟨hidle, hcalm, hquiet⟩ := quiet_call hd.quiet hx hu hnil hpend hans hjoin
    obtain ⟨hcontrol, hhandles⟩ := store_apart (s := C.store) (r := r) (apart_of_isIdle hidle)
    rw [threadsAfter_eq (spawns_of_isIdle hidle)] at hquiet ⊢
    obtain ⟨y, hy, hphase⟩ := hd.handler
    refine .disposing ⟨⟨y, ?_, hphase⟩, fun v hv z hz => ?_, hd.before, hcontrol.trans hd.control,
      hhandles.trans hd.handles, hquiet⟩
    · rw [← hy]
      exact Function.update_of_ne (Ne.symm hu) ..
    · dsimp only at hz
      by_cases hvu : v = u
      · subst hvu
        exact hcalm z (by simpa using hz)
      · rw [Function.update_of_ne hvu] at hz
        exact hd.alone v hv z hz

/-- A call of any thread once the handle is gone. -/
theorem disposed_call (hd : Disposed C t) (hx : C.threads u = some x)
    (hpend : x.running.pending = some c)
    (hans : process.answers C.store c r = true)
    (hjoin : ∀ v, process.joins c = some v → C.threads v = none) :
    Disposed ⟨process.effect C.store c r, process.threadsAfter C.threads u x c r⟩ t := by
  have hhandlers : ∀ (x' : Option (Stack Call Answer Signal)),
      (∀ z, x' = some z → z.handlers = [] ∨ z.Handles disposalSpec .reading ∨
        z.Handles disposalSpec .exiting) →
      ∀ v z, Function.update C.threads u x' v = some z → z.handlers = [] ∨
        z.Handles disposalSpec .reading ∨ z.Handles disposalSpec .exiting := by
    intro x' hx' v z hz
    by_cases hv : v = u
    · subst hv
      exact hx' z (by simpa using hz)
    · rw [Function.update_of_ne hv] at hz
      exact hd.handlers v z hz
  have hhandling : ∀ d, (d = .reading ∨ d = .exiting) → x.Handles disposalSpec d →
      Disposed ⟨process.effect C.store c r, process.threadsAfter C.threads u x c r⟩ t := by
    intro d hcases hphase
    obtain ⟨hdisposal, d', x', hstep, hresume, hbase, hphase'⟩ := disposal_call hphase hpend hans
    have hsession := disposal_not_session hdisposal
    -- the handler finds null, and goes on to `exit`
    have hend : c.isApart = true ∧ d' = .exiting := by
      rcases hcases with rfl | rfl
      · cases c with
        | controlData =>
          have hnull : r.handle = none := (of_decide_eq_true hans).trans hd.control
          refine ⟨rfl, (Option.some.inj hstep).symm.trans (if_pos hnull)⟩
        | _ => cases hstep
      · cases c with
        | exit code => exact Bool.noConfusion hans
        | _ => cases hstep
    obtain ⟨hapart, rfl⟩ := hend
    obtain ⟨hcontrol, hhandles⟩ := store_apart (s := C.store) (r := r) hapart
    rw [threadsAfter_eq (spawns_of_not_session hsession), hresume]
    refine ⟨hcontrol.trans hd.control, hhandles.trans hd.handles, hhandlers _ fun z hz => ?_,
      quiet_handler hd.quiet hx hbase (handlers_ne_nil hphase')
        ((effect_flag C.store c r).trans (flagAfter_of_not_session hsession _))⟩
    obtain rfl := Option.some.inj hz
    exact .inr (.inr hphase')
  rcases hd.handlers u x hx with hnil | hphase | hphase
  · have hu : u ≠ t := by
      rintro rfl
      obtain ⟨y, hy, hbusy⟩ := hd.quiet.busy
      exact hbusy (Option.some.inj (hx.symm.trans hy) ▸ hnil)
    obtain ⟨hidle, hcalm, hquiet⟩ := quiet_call hd.quiet hx hu hnil hpend hans hjoin
    obtain ⟨hcontrol, hhandles⟩ := store_apart (s := C.store) (r := r) (apart_of_isIdle hidle)
    rw [threadsAfter_eq (spawns_of_isIdle hidle)] at hquiet ⊢
    exact ⟨hcontrol.trans hd.control, hhandles.trans hd.handles,
      hhandlers _ fun z hz => .inl (hcalm z hz), hquiet⟩
  · exact hhandling _ (.inl rfl) hphase
  · exact hhandling _ (.inr rfl) hphase

/-- `connected_loop` leaves the handle alone once its next call says so. -/
theorem retiring_of_leaves {k : PollingPhase} {flag : Bool} {p : Drv Unit}
    (hk : Keeps pollingSpec k p fun _ _ => True) (hleave : leavesHandle flag p.pending = true) :
    Retiring flag p := by
  cases k with
  | leaving => exact .inl hk
  | polling =>
    by_cases hread : p.pending = some .isListeningForCommands
    · rw [hread] at hleave
      exact .inr ⟨hk, hread, by simpa [leavesHandle] using hleave⟩
    · refine .inl (keeps_of_resume (fun _ _ => trivial) (fun _ => trivial) fun c hc r _ => ?_)
      obtain ⟨k', hk', hnext⟩ := hk.resume hc (r := r) trivial
      rw [hc] at hleave hread
      cases c with
      | print buffer => exact ⟨k', hk', hnext⟩
      | setConnectionIsValid val => exact ⟨k', hk', hnext⟩
      | setListenForCommands val => cases val <;> exact ⟨k', hk', hnext⟩
      | isListeningForCommands => exact absurd rfl hread
      | wpaCtrlPending => exact Bool.noConfusion hleave
      | wpaCtrlRecv replyLen => exact Bool.noConfusion hleave
      | _ => cases hk'

theorem waitsOn_eq (hx : C.threads u = some x) : waitsOn C u = x.base.pending := by
  rw [waitsOn, hx]
  rfl

/-- What the other threads do when a signal arrives on `t` at a harmless moment. -/
theorem waiting_of_othersLeave {a : SessionState} {m : SetupPhase} (h : Running C m)
    (htracks : Tracks C a) (hcoherent : Coherent a) (ht : C.threads t ≠ none)
    (hleave : othersLeave C t = true) (hne : u ≠ t) (hx : C.threads u = some x) :
    Waiting C.store.runCommandLoop t u x.base := by
  cases u with
  | commandHandler => exact (h.handler x hx).2
  | connectionListener =>
    obtain ⟨-, k, hk⟩ := h.listener x hx
    refine retiring_of_leaves hk (waitsOn_eq hx ▸ ?_)
    cases t with
    | main => exact hleave
    | commandHandler => exact (Bool.and_eq_true_iff.mp hleave).2
    | connectionListener => exact absurd rfl hne
  | main =>
    have hmain := (htracks.main x hx).base
    cases t with
    | main => exact absurd rfl hne
    | commandHandler =>
      have hwaits : waitsOn C .main = some (.join .commandHandler) :=
        of_decide_eq_true (Bool.and_eq_true_iff.mp hleave).1
      obtain ⟨m', hm', -⟩ := hmain.resume ((waitsOn_eq hx).symm.trans hwaits) (r := {}) trivial
      rcases main_step_cases hm' with ⟨-, hc, -⟩ | ⟨-, hc, -⟩ | ⟨-, hc, -⟩ | ⟨-, hc, -⟩ |
        ⟨hm, -, -⟩ | ⟨-, hc, -⟩
      · cases hc
      · cases hc
      · cases hc
      · cases hc
      · exact ⟨a.main, hmain, .inl hm⟩
      · cases hc
    | connectionListener =>
      obtain ⟨y, hy⟩ := Option.ne_none_iff_exists'.mp ht
      obtain ⟨k, hk, -⟩ := inPhase_some (hy ▸ htracks.watcher)
      cases hm : a.main with
      | outside => exact absurd (hk.symm.trans (hcoherent.outside hm).2.1) (Option.some_ne_none k)
      | armed => exact absurd (hk.symm.trans (hcoherent.armed hm).2) (Option.some_ne_none k)
      | handling => exact absurd (hk.symm.trans (hcoherent.handling hm).1) (Option.some_ne_none k)
      | watched => exact ⟨.watched, hm ▸ hmain, .inl rfl⟩
      | joining => exact ⟨.joining, hm ▸ hmain, .inr ⟨rfl, rfl⟩⟩

theorem handlers_of_onlyHandles (h : onlyHandles C t = true) (hu : u ≠ t)
    (hx : C.threads u = some x) :
    x.handlers = [] := by
  have hmem : u ∈ [Thread.main, .commandHandler, .connectionListener] := by
    cases u <;> decide
  have hall := List.all_eq_true.mp h u hmem
  rw [hx] at hall
  simpa [hu] using hall

/-- A signal that arrives while the handle is there. -/
theorem disposing_interrupt {h : Handle} {signum : Signal} (x : Stack Call Answer Signal)
    (hcontrol : C.store.controlData = some h) (hhandles : C.store.handles = .clean {h})
    (halone : ∀ u, u ≠ t → ∀ z, C.threads u = some z → z.handlers = [])
    (hothers : ∀ u, u ≠ t → ∀ z, C.threads u = some z → Waiting C.store.runCommandLoop t u z.base) :
    Disposing ⟨C.store, Function.update C.threads t
      (some ⟨x.base, (signum, signalCallbackHandler signum) :: x.handlers⟩)⟩ t .reading h where
  handler := ⟨_, Function.update_self ..,
    Stack.handles_interrupt (keeps_disposalPhases signum) signum⟩
  alone u hu z hz := halone u hu z (by simpa [Function.update_of_ne hu] using hz)
  before := by decide
  control := hcontrol
  handles := hhandles
  quiet := ⟨⟨_, Function.update_self .., List.cons_ne_nil _ _⟩,
    fun u hu z hz => hothers u hu z (by simpa [Function.update_of_ne hu] using hz)⟩

/-- A harmless signal. -/
theorem lifecycle_interrupt {a : SessionState} {signum : Signal} (hlife : Lifecycle C)
    (htracks : Tracks C a)
    (hcoherent : Coherent a) (hx : C.threads t = some x)
    (hdelivers : process.delivers C.store signum = true)
    (hharmless : harmlessOn C t = true) :
    Lifecycle ⟨C.store, Function.update C.threads t
      (some ⟨x.base, (signum, signalCallbackHandler signum) :: x.handlers⟩)⟩ := by
  cases hlife with
  | running hrun =>
    have hregistered : C.store.registered ≠ [] :=
      List.ne_nil_of_mem (of_decide_eq_true hdelivers)
    obtain ⟨h, rfl⟩ := live_of_running hrun (.inl hregistered)
    have hcontrol : C.store.controlData = some h := hrun.control
    rw [harmlessOn, hcontrol] at hharmless
    obtain ⟨⟨-, halone⟩, hleave⟩ := by simpa only [Bool.and_eq_true] using hharmless
    exact .disposing <| disposing_interrupt x hcontrol hrun.handles
      (fun u hu z hz => handlers_of_onlyHandles halone hu hz)
      fun u hu z hz => waiting_of_othersLeave hrun htracks hcoherent (by simp [hx]) hleave hu hz
  | @disposing t₀ d h hd =>
    rw [harmlessOn, hd.control] at hharmless
    obtain ⟨⟨hheld, halone⟩, -⟩ := by simpa only [Bool.and_eq_true] using hharmless
    -- the signal arrives on the thread that disposes of the handle, which is still open
    obtain rfl : t₀ = t := by
      by_contra hne
      obtain ⟨y, hy, hphase⟩ := hd.handler
      exact handlers_ne_nil hphase (handlers_of_onlyHandles halone hne hy)
    have hhandles : C.store.handles = .clean {h} := by
      rw [hd.handles] at hheld ⊢
      cases d <;> first | rfl | simp [Books.clean, DisposalPhase.held] at hheld
    exact .disposing <| disposing_interrupt x hd.control hhandles hd.alone hd.quiet.others
  | @disposed t₀ hd =>
    have hquiet : Quiet ⟨C.store, Function.update C.threads t
        (some ⟨x.base, (signum, signalCallbackHandler signum) :: x.handlers⟩)⟩ t₀ := by
      refine quiet_handler hd.quiet hx ?_ (List.cons_ne_nil _ _) rfl
      rfl
    refine .disposed (t := t₀) ⟨hd.control, hd.handles, fun u z hz => ?_, hquiet⟩
    by_cases hu : u = t
    · subst hu
      obtain rfl : _ = z := by simpa using hz
      exact .inr (.inl (Stack.handles_interrupt (keeps_disposalPhases signum) signum))
    · exact hd.handlers u z (by simpa [Function.update_of_ne hu] using hz)

theorem lifecycle_step {a : SessionState} {C' : State} {l : Move} (hlife : Lifecycle C)
    (htracks : Tracks C a) (hcoherent : Coherent a) (hharmless : harmless C l = true)
    (hstep : process.step C l = some C') : Lifecycle C' := by
  cases l with
  | call u c r =>
    obtain ⟨x, hx, hpend, hans, hjoin, rfl⟩ := System.step_call hstep
    cases hlife with
    | running h =>
      obtain ⟨m', h'⟩ := running_call h hx hpend hans
      exact .running h'
    | disposing hd => exact disposing_call hd hx hpend hans hjoin
    | disposed hd => exact .disposed (disposed_call hd hx hpend hans hjoin)
  | interrupt t signum =>
    obtain ⟨x, hx, hdelivers, -, rfl⟩ := System.step_interrupt hstep
    exact lifecycle_interrupt hlife htracks hcoherent hx hdelivers hharmless
  | outside e => exact e.elim

theorem lifecycle_initial (ip : IpExchange) : Lifecycle (initial ip) := by
  refine .running (m := .fresh) ⟨rfl, rfl, fun x hx => ?_, fun x hx => ?_, fun x hx => ?_,
    fun _ => ⟨rfl, rfl, rfl⟩⟩
  · obtain rfl := Option.some.inj hx
    exact ⟨rfl, keeps_setupPhases ip⟩
  · cases hx
  · cases hx

theorem proper_of_lifecycle (h : Lifecycle C) : C.store.handles.misused = false := by
  cases h with
  | running h => exact h.handles ▸ rfl
  | disposing hd => exact hd.handles ▸ rfl
  | disposed hd => exact hd.handles ▸ rfl

end HandleLifecycleLemmas

/-- As long as every signal is harmless, every call of the `wpa_ctrl` library is
made on the open handle, and none is closed twice. -/
theorem handles_proper {ip : IpExchange} {ls : List Move} {C : State}
    (hrun : process.run (initial ip) ls = some C)
    (hharmless : process.guarded harmless (initial ip) ls = true) :
    C.store.handles.misused = false := by
  obtain ⟨hlife, -⟩ := System.guarded_induction hrun hharmless
    (P := fun C => Lifecycle C ∧ ∃ a, Tracks C a ∧ Coherent a)
    ⟨lifecycle_initial ip, sessionStart, tracks_initial ip, coherent_start⟩ (by
      rintro C₁ l C₂ ⟨hlife, a, htracks, hcoherent⟩ hharmless hstep
      obtain ⟨a', hmoves, htracks'⟩ := moves_step htracks hstep
      exact ⟨lifecycle_step hlife htracks hcoherent hharmless hstep, a', htracks',
        coherent_moves hcoherent hmoves⟩)
  exact proper_of_lifecycle hlife

/-- A session whose device disconnects: `connected_loop` has returned, and `main` waits for
the thread of `listen_for_commands`. -/
def sampleDeparture : List Move :=
  movesOf .main (main .udp) (sampleMainRun ++ List.replicate 4 ({} : Answer)) ++
    movesOf .connectionListener connectedLoop
      [{ isSet := true }, { offer := bytes "<3>AP-STA-DISCONNECTED 02:00:00:00:00:01" },
        {}, {}, {}] ++
    movesOf .commandHandler listenForCommands [{}, { ret := 3 }, {}]

/-- A signal that arrives on that thread then, and another on `main` when the handle is gone. -/
def sampleSignal : List Move :=
  sampleDeparture ++ [.interrupt .commandHandler .SIGTERM] ++
    movesOf .commandHandler (signalCallbackHandler .SIGTERM)
      [{ handle := some 7 }, {}, {}, {}, {}] ++
    [.interrupt .main .SIGINT] ++ movesOf .main (signalCallbackHandler .SIGINT) [{}]

theorem sampleSignal_proper : ∃ C, process.run (initial .udp) sampleSignal = some C ∧
    C.store.handles.misused = false := by
  obtain ⟨C, hC⟩ := Option.isSome_iff_exists.mp
    (show (process.run (initial .udp) sampleSignal).isSome = true by decide +kernel)
  exact ⟨C, hC, handles_proper hC (by decide +kernel)⟩

/-- `main` until it waits for a request. -/
def sampleSearch : List Move := movesOf .main (main .udp) (sampleMainRun.take 13)

/-- A second signal that arrives while the first one's script runs. -/
def sampleSecondSignal : List Move :=
  sampleSearch ++ [.interrupt .main .SIGINT] ++
    movesOf .main (signalCallbackHandler .SIGINT) [{ handle := some 7 }, {}, {}] ++
    [.interrupt .main .SIGTERM] ++
    movesOf .main (signalCallbackHandler .SIGTERM) [{ handle := some 7 }, {}, {}]

theorem handle_closed_twice : ¬ ∀ (ip : IpExchange) (ls : List Move) (C : State),
    process.run (initial ip) ls = some C → C.store.handles.misused = false := by
  intro h
  have hmisused : (process.run (initial .udp) sampleSecondSignal).any
      (fun C => C.store.handles.misused) = true := by decide +kernel
  cases hC : process.run (initial .udp) sampleSecondSignal with
  | none =>
    rw [hC] at hmisused
    exact Bool.noConfusion hmisused
  | some C =>
    rw [hC, Option.any_some, h _ _ _ hC] at hmisused
    exact Bool.noConfusion hmisused

end P2pDriver
