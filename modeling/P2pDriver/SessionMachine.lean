import P2pDriver.Process

/-!
# Sessions as an abstract machine

What a session is apart from the messages and packets it moves: the flag, how far
`main` is in `enter_connected_state`, and how far its two threads are. Each
thread is known here by a monitor of a few phases. The machine puts the phases
and the flag together, and every run of the process is one of the machine.

Results:
1. `keeps_mainPhases`, `keeps_listenerPhases`, `keeps_watcherPhases`: the threads
   keep their monitors.
2. `moves_step`, `moves_run`: every run of the process, with any signals in it, is a
   run of the machine.
3. `Coherent`, `session_run`: what the phases say about the flag.
-/

namespace P2pDriver

open Resumable Prog ConnectLemmas SocketLemmas DriverLemmas ProcessLemmas

/-! ## 1. Phases of the threads -/

/-- The calls that sessions are made of. -/
def Call.isSession : Call → Bool
  | .setListenForCommands _ | .isListeningForCommands | .setConnectionIsValid _ | .spawn _
  | .join _ => true
  | _ => false

/-- Where `main` is: outside of `enter_connected_state`, or in it after it has
set the flag, started the handler, started the listener, joined the handler. -/
inductive MainPhase where
  | outside
  | armed
  | handling
  | watched
  | joining
deriving DecidableEq, Repr

def MainPhase.step : MainPhase → Call → Option MainPhase
  | .outside, .setListenForCommands true => some .armed
  | .outside, c => if c.isSession then none else some .outside
  | .armed, .spawn .commandHandler => some .handling
  | .handling, .spawn .connectionListener => some .watched
  | .watched, .join .commandHandler => some .joining
  | .joining, .join .connectionListener => some .outside
  | _, _ => none

/-- Where `listen_for_commands` is: it has not read the flag, it has read it true
and executed no command or one since, or it has read it false or cleared it. -/
inductive ListenerPhase where
  | accepting
  | ready
  | spent
  | stopped
deriving DecidableEq, Repr

def ListenerPhase.step : ListenerPhase → Call → Answer → Option ListenerPhase
  | .accepting, .setListenForCommands false, _ => some .stopped
  | .stopped, .isListeningForCommands, _ => none
  | _, .isListeningForCommands, r => some (if r.isSet then .ready else .stopped)
  | .ready, .mark .executeCommand, _ => some .spent
  | _, .mark .executeCommand, _ => none
  | l, c, _ => if c.isSession then none else some l

/-- Where `connected_loop` is: it watches, it has read the flag false, it has
seen the device disconnect, or it has done what it does then. -/
inductive WatcherPhase where
  | watching
  | refused
  | dropped
  | finished
deriving DecidableEq, Repr

def WatcherPhase.step : WatcherPhase → Call → Answer → Option WatcherPhase
  | .watching, .isListeningForCommands, r => some (if r.isSet then .watching else .refused)
  | .refused, .setConnectionIsValid false, _ => some .finished
  | .watching, .setConnectionIsValid false, _ => some .dropped
  | .dropped, .setListenForCommands false, _ => some .finished
  | .watching, c, _ => if c.isSession then none else some .watching
  | _, _, _ => none

/-- The monitor with the phases of a thread. -/
def phaseSpec {φ : Type} (step : φ → Call → Answer → Option φ) : Spec Call Answer φ where
  admits _ _ _ := True
  step := step
  faults _ := True

abbrev mainSpec : Spec Call Answer MainPhase := phaseSpec fun m c _ => m.step c
abbrev listenerSpec : Spec Call Answer ListenerPhase := phaseSpec ListenerPhase.step
abbrev watcherSpec : Spec Call Answer WatcherPhase := phaseSpec WatcherPhase.step

/-! ## 2. The threads keep their phases -/

namespace SessionMachineLemmas

theorem not_session_of_isSearch {c : Call} (h : c.isSearch = true) : c.isSession = false := by
  cases c <;> first | rfl | exact Bool.noConfusion h

theorem not_session_of_isSetup {c : Call} (h : c.isSetup = true) : c.isSession = false := by
  cases c <;> first | rfl | exact Bool.noConfusion h

theorem not_session_of_isHandshake {c : Call} (h : c.isHandshake = true) : c.isSession = false := by
  cases c <;> first | rfl | exact Bool.noConfusion h

theorem outside_step {c : Call} (h : c.isSession = false) :
    MainPhase.outside.step c = some .outside := by
  cases c <;> first | rfl | exact Bool.noConfusion h

/-- Outside of `enter_connected_state` nothing happens to a session. -/
theorem keeps_outside {α : Type} {F : Prop} {p : Drv α} (h : Only (fun c => !c.isSession) F p) :
    Keeps mainSpec .outside p fun _ m => m = .outside :=
  h.keeps (fun _ _ hc => outside_step (by simpa using hc)) fun _ => trivial

theorem keeps_connectLoop_phases : Keeps mainSpec .outside connectLoop fun _ m => m = .outside :=
  keeps_outside (only_connectLoop fun _ hc => by simp [not_session_of_isSearch hc])

theorem keeps_callIpExchange_phases (ip : IpExchange) :
    Keeps mainSpec .outside (callIpExchange ip) fun _ m => m = .outside :=
  keeps_outside <| only_callIpExchange (fun _ hc => by simp [not_session_of_isHandshake hc]) rfl
    (fun _ => rfl) ip

theorem keeps_retryHandshake_phases (ip : IpExchange) (success : Bool) :
    Keeps mainSpec .outside (retryHandshake ip success) fun _ m => m = .outside := by
  cases success with
  | true => exact keeps_ret rfl
  | false =>
    rw [retryHandshake, if_neg Bool.false_ne_true]
    refine keeps_forever (· = .outside) rfl rfl fun m hm => ?_
    subst hm
    refine keeps_bind (keeps_connectLoop_phases.mono fun _ m hm => ?_)
    subst hm
    refine keeps_bind ((keeps_callIpExchange_phases ip).mono fun success m hm => ?_)
    subst hm
    cases success with
    | true => exact keeps_ret (keeps_ret rfl)
    | false => exact keeps_ret rfl

theorem keeps_enterConnectedState_phases :
    Keeps mainSpec .outside enterConnectedState fun _ m => m = .outside := by
  simp only [enterConnectedState, bind_eq, perform_bind]
  exact keeps_call fun _ _ => ⟨.outside, rfl, keeps_call fun _ _ => ⟨.armed, rfl,
    keeps_call fun _ _ => ⟨.handling, rfl, keeps_call fun _ _ => ⟨.watched, rfl,
      keeps_call fun _ _ =>
        ⟨.joining, rfl, keeps_call fun _ _ => ⟨.outside, rfl, keeps_ret rfl⟩⟩⟩⟩⟩⟩

theorem keeps_masterLoop_phases (ip : IpExchange) :
    Keeps mainSpec .outside (masterLoop ip) fun _ _ => True := by
  refine keeps_forever (· = .outside) rfl rfl fun m hm => ?_
  subst hm
  refine keeps_bind (keeps_connectLoop_phases.mono fun _ m hm => ?_)
  subst hm
  refine keeps_bind ((keeps_callIpExchange_phases ip).mono fun success m hm => ?_)
  subst hm
  refine keeps_bind ((keeps_retryHandshake_phases ip success).mono fun _ m hm => ?_)
  subst hm
  exact keeps_bind (keeps_enterConnectedState_phases.mono fun _ m hm => keeps_ret hm)

theorem keeps_mainPhases (ip : IpExchange) :
    Keeps mainSpec .outside ((main ip).bind fun _ => .ret ()) fun _ _ => True := by
  have hinit : Only (fun c => !c.isSession) False initAndAttachCtrl :=
    only_initAndAttachCtrl fun _ hc => by simp [not_session_of_isSetup hc]
  refine keeps_bind (keeps_bind ((keeps_outside hinit).mono fun _ m hm => ?_))
  subst hm
  refine keeps_call fun control _ => ⟨.outside, rfl, ?_⟩
  simp only [ret_bind]
  split
  · exact keeps_ret (keeps_ret trivial)
  · refine keeps_bind
      ((keeps_outside (only_initTerminationSignals fun _ => rfl)).mono fun _ m hm => ?_)
    subst hm
    exact (keeps_masterLoop_phases ip).mono fun _ _ _ => keeps_ret trivial

theorem listener_step {l : ListenerPhase} {c : Call} (h : c.isSession = false)
    (hmark : c ≠ .mark .executeCommand) (r : Answer) : l.step c r = some l := by
  cases c with
  | mark m => cases m <;> first | (cases l <;> rfl) | exact absurd rfl hmark
  | _ => cases l <;> first | rfl | exact Bool.noConfusion h

/-- Executing a command takes the one that was allowed. -/
theorem keeps_executeCommand_phases {cap : Nat} (commandBuffer : Buffer cap) (bytesReceived : Int) :
    Keeps listenerSpec .ready (executeCommand commandBuffer bytesReceived)
      fun _ l => l = .spent := by
  simp only [executeCommand, bind_eq, perform_bind]
  refine keeps_call fun r _ => ⟨.spent, rfl, ?_⟩
  split
  · refine keeps_bind (keeps_ofOption (fun b0 _ => ?_) fun _ => trivial)
    split
    · refine keeps_bind (keeps_ofOption (fun command _ => ?_) fun _ => trivial)
      refine keeps_bind (keeps_ofOption (fun b2 _ => ?_) fun _ => trivial)
      split
      · exact keeps_call fun _ _ => ⟨.spent, rfl, keeps_ret rfl⟩
      · exact keeps_ret rfl
    · exact keeps_ret rfl
  · exact keeps_ret rfl

theorem keeps_receiveCommand_phases (newFd : Int) (inSet : Bool) :
    Keeps listenerSpec .ready (receiveCommand newFd inSet)
      fun _ l => l = .ready ∨ l = .spent := by
  cases inSet with
  | false => exact keeps_ret (.inl rfl)
  | true =>
    refine keeps_call fun r _ => ⟨.ready, rfl, ?_⟩
    simp only [ret_bind]
    split
    · exact keeps_ret (.inl rfl)
    · split
      · refine keeps_bind (keeps_ofOption (fun buffer _ => ?_) fun _ => trivial)
        exact (keeps_executeCommand_phases buffer _).mono fun _ _ h => .inr h
      · exact keeps_ret (.inl rfl)

/-- The command loop, after a first read of the flag. -/
theorem keeps_commandLoop_phases (newFd : Int) (runPlaceholder : Bool) :
    Keeps listenerSpec (if runPlaceholder then .ready else .stopped)
      (commandLoop newFd runPlaceholder) fun _ l => l = .stopped := by
  cases runPlaceholder with
  | false => exact keeps_ret rfl
  | true =>
    refine keeps_loop (· = .ready) rfl fun l hl r _ => ?_
    subst hl
    refine ⟨.ready, rfl, ?_⟩
    simp only [bind_eq, ask_bind, pure_eq]
    refine keeps_bind ((keeps_receiveCommand_phases newFd r.isSet).mono fun _ l hl => ?_)
    refine keeps_call fun flag _ => ⟨if flag.isSet then .ready else .stopped, ?_, ?_⟩
    · rcases hl with rfl | rfl <;> rfl
    · cases flag.isSet with
      | true => exact keeps_ret rfl
      | false => exact keeps_ret (keeps_ret rfl)

theorem keeps_listenerPhases :
    Keeps listenerSpec .accepting listenForCommands fun _ l => l = .stopped := by
  have hsetup : Only Call.isSocketSetup False (tcpInitAcceptSocket commandPort) :=
    only_tcpInitAcceptSocket (fun _ h => h) commandPort
  refine keeps_bind ((hsetup.keeps (fun c r hc => ?_) fun h => h.elim).mono
    fun (sockFd, newFd, addr) l hl => ?_)
  · refine listener_step ?_ ?_ r
    · cases c <;> first | rfl | exact Bool.noConfusion hc
    · rintro rfl
      exact Bool.noConfusion hc
  · subst hl
    dsimp only
    split
    · exact keeps_call fun _ _ => ⟨.stopped, rfl, keeps_ret rfl⟩
    · simp only [bind_eq, ask_bind, perform_bind]
      refine keeps_call fun flag _ => ⟨_, rfl, ?_⟩
      refine keeps_bind ((keeps_commandLoop_phases newFd flag.isSet).mono fun _ l hl => ?_)
      subst hl
      exact keeps_call fun _ _ =>
        ⟨.stopped, rfl, keeps_call fun _ _ => ⟨.stopped, rfl, keeps_ret rfl⟩⟩

/-- What the end of a round of `connected_loop` establishes. -/
abbrev WatcherRound : Option Unit → WatcherPhase → Prop :=
  RoundPost watcherSpec (· = .watching) (.ret : Unit → Drv Unit) fun _ k => k = .finished

theorem keeps_stopRound_phases : Keeps watcherSpec .watching stopRound WatcherRound := by
  refine keeps_call fun listening _ => ⟨if listening.isSet then .watching else .refused, rfl, ?_⟩
  cases listening.isSet with
  | true => exact keeps_ret rfl
  | false => exact keeps_call fun _ _ => ⟨.finished, rfl, keeps_ret (keeps_ret rfl)⟩

theorem keeps_disconnectRound_phases (m : Message) :
    Keeps watcherSpec .watching (disconnectRound m) WatcherRound :=
  keeps_call fun _ _ => ⟨.watching, rfl, keeps_call fun _ _ => ⟨.dropped, rfl,
    keeps_call fun _ _ => ⟨.finished, rfl, keeps_ret (keeps_ret rfl)⟩⟩⟩

theorem keeps_watcherPhases :
    Keeps watcherSpec .watching connectedLoop fun _ k => k = .finished := by
  refine keeps_forever (c := .wpaCtrlPending) (· = .watching) rfl rfl fun k hk => ?_
  subst hk
  refine keeps_fetchMessage_ignored (fun _ => rfl) (fun _ => rfl) fun o => ?_
  cases o with
  | none => exact keeps_stopRound_phases
  | some m =>
    refine keeps_bind (keeps_ofOption (fun disconnected _ => ?_) fun _ => trivial)
    cases disconnected with
    | true => exact keeps_disconnectRound_phases m
    | false => exact keeps_stopRound_phases

end SessionMachineLemmas

open SessionMachineLemmas

/-! ## 3. The machine -/

/-- The flag `run_command_loop`, `connection_is_valid`, and the phases of the
threads. A session thread that is not running has none. -/
structure SessionState where
  flag : Bool
  valid : Bool
  main : MainPhase
  listener : Option ListenerPhase
  watcher : Option WatcherPhase
deriving DecidableEq, Repr

/-- The flag after a call. -/
def flagAfter (flag : Bool) : Call → Bool
  | .setListenForCommands val => val
  | _ => flag

/-- `connection_is_valid` after a call. -/
def validAfter (valid : Bool) : Call → Bool
  | .setConnectionIsValid val => val
  | _ => valid

/-- The phase of a thread after a call of `main`, which may start it. -/
def startedBy {φ : Type} (c : Call) (t : Thread) (first : φ) (phase : Option φ) : Option φ :=
  if c = .spawn t then some first else phase

/-- A step of the machine. Signals, and what their handlers do, leave it where it is. -/
inductive SessionState.Moves (a : SessionState) : Move → SessionState → Prop where
  | interrupt {t : Thread} {x : Signal} : Moves a (.interrupt t x) a
  | handler {t : Thread} {c : Call} {r : Answer} (hc : c.isDisposal = true) :
    Moves a (.call t c r) a
  | main {c : Call} {r : Answer} {m : MainPhase} (hm : a.main.step c = some m)
      (hlistener : c = .join .commandHandler → a.listener = none)
      (hwatcher : c = .join .connectionListener → a.watcher = none) :
      Moves a (.call .main c r) { a with
        flag := flagAfter a.flag c
        main := m
        listener := startedBy c .commandHandler .accepting a.listener
        watcher := startedBy c .connectionListener .watching a.watcher }
  | listener {c : Call} {r : Answer} {l l' : ListenerPhase} {o : Option ListenerPhase}
      (hl : a.listener = some l) (hl' : l.step c r = some l')
      (hread : c = .isListeningForCommands → r.isSet = a.flag)
      (ho : o = some l' ∨ o = none ∧ l' = .stopped) :
      Moves a (.call .commandHandler c r) { a with flag := flagAfter a.flag c, listener := o }
  | watcher {c : Call} {r : Answer} {k k' : WatcherPhase} {o : Option WatcherPhase}
      (hk : a.watcher = some k) (hk' : k.step c r = some k')
      (hread : c = .isListeningForCommands → r.isSet = a.flag)
      (ho : o = some k' ∨ o = none ∧ k' = .finished) :
      Moves a (.call .connectionListener c r) { a with
        flag := flagAfter a.flag c
        valid := validAfter a.valid c
        watcher := o }

/-! ## 4. The process runs the machine -/

/-- A thread in a phase. -/
def InPhase {φ : Type} (Sp : Spec Call Answer φ) (Q : φ → Prop) :
    Option (Stack Call Answer Signal) → Option φ → Prop
  | none, none => True
  | some s, some m => s.Obeys Sp Call.isDisposal Q m
  | _, _ => False

/-- A state of the process, seen as one of the machine. -/
structure Tracks (C : State) (a : SessionState) : Prop where
  flag : C.store.runCommandLoop = a.flag
  valid : C.store.connectionIsValid = a.valid
  main : ∀ s, C.threads .main = some s → s.Obeys mainSpec Call.isDisposal (fun _ => True) a.main
  listener : InPhase listenerSpec (· = .stopped) (C.threads .commandHandler) a.listener
  watcher : InPhase watcherSpec (· = .finished) (C.threads .connectionListener) a.watcher

namespace SessionMachineLemmas

section InPhase

variable {φ : Type} {Sp : Spec Call Answer φ} {Q : φ → Prop} {x : Option (Stack Call Answer Signal)}
  {s : Stack Call Answer Signal} {o : Option φ}

theorem inPhase_some (h : InPhase Sp Q (some s) o) :
    ∃ m, o = some m ∧ s.Obeys Sp Call.isDisposal Q m := by
  cases o with
  | none => exact h.elim
  | some m => exact ⟨m, rfl, h⟩

theorem inPhase_none (h : InPhase Sp Q none o) : o = none := by
  cases o with
  | none => rfl
  | some m => exact h.elim

theorem none_of_inPhase (h : InPhase Sp Q x none) : x = none := by
  cases x with
  | none => rfl
  | some s => exact h.elim

end InPhase

theorem effect_flag (s : Shared) (c : Call) (r : Answer) :
    (s.effect c r).runCommandLoop = flagAfter s.runCommandLoop c := by
  cases c <;> rfl

theorem effect_valid (s : Shared) (c : Call) (r : Answer) :
    (s.effect c r).connectionIsValid = validAfter s.connectionIsValid c := by
  cases c <;> rfl

theorem disposal_not_session {c : Call} (hc : c.isDisposal = true) : c.isSession = false := by
  cases c <;> first | rfl | exact Bool.noConfusion hc

theorem flagAfter_of_not_session {c : Call} (hc : c.isSession = false) (flag : Bool) :
    flagAfter flag c = flag := by
  cases c <;> first | rfl | exact Bool.noConfusion hc

theorem validAfter_of_not_session {c : Call} (hc : c.isSession = false) (valid : Bool) :
    validAfter valid c = valid := by
  cases c <;> first | rfl | exact Bool.noConfusion hc

theorem spawns_of_not_session {c : Call} (hc : c.isSession = false) : process.spawns c = none := by
  cases c <;> first | rfl | exact Bool.noConfusion hc

/-- The threads after a call that starts none. -/
theorem threadsAfter_eq {threads : Thread → Option (Stack Call Answer Signal)} {t : Thread}
    {s : Stack Call Answer Signal} {c : Call} (hc : process.spawns c = none) (r : Answer) :
    process.threadsAfter threads t s c r = Function.update threads t (s.resume r) := by
  rw [System.threadsAfter, hc]

variable {C C' : State} {a : SessionState}

/-- A step of a signal handler. -/
theorem tracks_handler (h : Tracks C a) {t : Thread} {c : Call} {r : Answer}
    {s s' : Stack Call Answer Signal} (hc : c.isDisposal = true) (hs' : s.resume r = some s')
    (hobeys : Tracks ⟨C.store, Function.update C.threads t (some s')⟩ a) :
    Tracks ⟨process.effect C.store c r, process.threadsAfter C.threads t s c r⟩ a := by
  have hsession := disposal_not_session hc
  rw [threadsAfter_eq (spawns_of_not_session hsession), hs']
  refine ⟨?_, ?_, hobeys.main, hobeys.listener, hobeys.watcher⟩
  · exact (effect_flag _ _ _).trans ((flagAfter_of_not_session hsession _).trans h.flag)
  · exact (effect_valid _ _ _).trans ((validAfter_of_not_session hsession _).trans h.valid)

/-- A call may start a thread, which is then in its first phase. -/
theorem inPhase_startedBy {φ : Type} {Sp : Spec Call Answer φ} {Q : φ → Prop} {t : Thread}
    {first : φ} (hkeeps : Keeps Sp first (threadBody t) fun _ m => Q m) (hQ : ¬ Q first)
    {x : Option (Stack Call Answer Signal)} {o : Option φ} (h : InPhase Sp Q x o) (c : Call) :
    InPhase Sp Q (if process.spawns c = some t then Stack.start (threadBody t) else x)
      (startedBy c t first o) := by
  have hiff : process.spawns c = some t ↔ c = .spawn t := by
    cases c <;> simp [process]
  simp only [hiff, startedBy]
  split
  · have hstart := Stack.Obeys.start (P := Call.isDisposal) (π := Signal) hkeeps
    rcases hstart with ⟨s, hs, hobeys⟩ | ⟨-, hq⟩
    · rw [hs]
      exact hobeys
    · exact absurd hq hQ
  · exact h

theorem main_step_valid {m m' : MainPhase} {c : Call} (h : m.step c = some m') (valid : Bool) :
    validAfter valid c = valid := by
  cases c with
  | setConnectionIsValid val =>
    cases m <;> exact absurd h (by simp [MainPhase.step, Call.isSession])
  | _ => rfl

theorem moves_main (h : Tracks C a) {s : Stack Call Answer Signal} (hs : C.threads .main = some s)
    {c : Call} {r : Answer} (hpend : s.running.pending = some c)
    (hjoin : ∀ u, process.joins c = some u → C.threads u = none) :
    ∃ a', a.Moves (.call .main c r) a' ∧
      Tracks ⟨process.effect C.store c r, process.threadsAfter C.threads .main s c r⟩ a' := by
  rcases (h.main s hs).call (r := r) hpend trivial with ⟨hc, s', hs', hobeys⟩ | ⟨m, hm, hend⟩
  · refine ⟨a, .handler hc, tracks_handler h hc hs' ⟨h.flag, h.valid, fun s'' hs'' => ?_, ?_, ?_⟩⟩
    · obtain rfl : s' = s'' := by simpa using hs''
      exact hobeys
    · simpa using h.listener
    · simpa using h.watcher
  · have hlistener : c = .join .commandHandler → a.listener = none := by
      rintro rfl
      exact inPhase_none ((hjoin _ rfl) ▸ h.listener)
    have hwatcher : c = .join .connectionListener → a.watcher = none := by
      rintro rfl
      exact inPhase_none ((hjoin _ rfl) ▸ h.watcher)
    refine ⟨_, .main hm hlistener hwatcher, ⟨?_, ?_, fun s'' hs'' => ?_, ?_, ?_⟩⟩
    · exact (effect_flag _ _ _).trans (by rw [h.flag])
    · exact (effect_valid _ _ _).trans (by rw [h.valid, main_step_valid hm])
    · dsimp only at hs''
      rw [System.threadsAfter_self] at hs''
      rcases hend with ⟨s', hs', hobeys⟩ | ⟨hnone, -⟩
      · obtain rfl : s' = s'' := by simpa [hs'] using hs''
        exact hobeys
      · rw [hnone] at hs''
        cases hs''
    · dsimp only
      rw [System.threadsAfter_of_ne (by decide)]
      exact inPhase_startedBy (t := .commandHandler) keeps_listenerPhases (by decide) h.listener c
    · dsimp only
      rw [System.threadsAfter_of_ne (by decide)]
      exact inPhase_startedBy (t := .connectionListener) keeps_watcherPhases (by decide) h.watcher c

theorem listener_step_valid {l l' : ListenerPhase} {c : Call} {r : Answer}
    (h : l.step c r = some l') (valid : Bool) : validAfter valid c = valid := by
  cases c with
  | setConnectionIsValid val =>
    cases l <;> exact absurd h (by simp [ListenerPhase.step, Call.isSession])
  | _ => rfl

/-- The session threads start no threads. -/
theorem spawns_of_listener_step {l l' : ListenerPhase} {c : Call} {r : Answer}
    (h : l.step c r = some l') : process.spawns c = none := by
  cases c with
  | spawn u => cases l <;> exact absurd h (by simp [ListenerPhase.step, Call.isSession])
  | _ => rfl

theorem spawns_of_watcher_step {k k' : WatcherPhase} {c : Call} {r : Answer}
    (h : k.step c r = some k') : process.spawns c = none := by
  cases c with
  | spawn u => cases k <;> exact absurd h (by simp [WatcherPhase.step, Call.isSession])
  | _ => rfl

/-- A session thread after a call of its own program. -/
theorem inPhase_ended {φ : Type} {Sp : Spec Call Answer φ} {last m : φ}
    {x : Option (Stack Call Answer Signal)}
    (h : (∃ s', x = some s' ∧ s'.Obeys Sp Call.isDisposal (· = last) m) ∨ x = none ∧ m = last) :
    ∃ o, (o = some m ∨ o = none ∧ m = last) ∧ InPhase Sp (· = last) x o := by
  rcases h with ⟨s', rfl, hobeys⟩ | ⟨rfl, hlast⟩
  · exact ⟨some m, .inl rfl, hobeys⟩
  · exact ⟨none, .inr ⟨rfl, hlast⟩, trivial⟩

theorem moves_listener (h : Tracks C a) {s : Stack Call Answer Signal}
    (hs : C.threads .commandHandler = some s) {c : Call} {r : Answer}
    (hpend : s.running.pending = some c) (hread : process.answers C.store c r = true) :
    ∃ a', a.Moves (.call .commandHandler c r) a' ∧
      Tracks
        ⟨process.effect C.store c r, process.threadsAfter C.threads .commandHandler s c r⟩ a' := by
  obtain ⟨l, hl, hphase⟩ := inPhase_some (hs ▸ h.listener)
  rcases hphase.call (r := r) hpend trivial with ⟨hc, s', hs', hobeys⟩ | ⟨l', hl', hend⟩
  · refine ⟨a, .handler hc, tracks_handler h hc hs' ⟨h.flag, h.valid, ?_, ?_, ?_⟩⟩
    · simpa using h.main
    · simpa [hl, InPhase] using hobeys
    · simpa using h.watcher
  · have hflag : c = .isListeningForCommands → r.isSet = a.flag := by
      rintro rfl
      exact (of_decide_eq_true hread).trans h.flag
    obtain ⟨o, ho, hphase'⟩ := inPhase_ended hend
    refine ⟨_, .listener hl hl' hflag ho, ⟨?_, ?_, ?_, ?_, ?_⟩⟩
    · exact (effect_flag _ _ _).trans (by rw [h.flag])
    · exact (effect_valid _ _ _).trans (by rw [h.valid, listener_step_valid hl'])
    · simpa [threadsAfter_eq (spawns_of_listener_step hl')] using h.main
    · simpa using hphase'
    · simpa [threadsAfter_eq (spawns_of_listener_step hl')] using h.watcher

theorem moves_watcher (h : Tracks C a) {s : Stack Call Answer Signal}
    (hs : C.threads .connectionListener = some s) {c : Call} {r : Answer}
    (hpend : s.running.pending = some c) (hread : process.answers C.store c r = true) :
    ∃ a', a.Moves (.call .connectionListener c r) a' ∧
      Tracks ⟨process.effect C.store c r, process.threadsAfter C.threads .connectionListener s c r⟩
        a' := by
  obtain ⟨k, hk, hphase⟩ := inPhase_some (hs ▸ h.watcher)
  rcases hphase.call (r := r) hpend trivial with ⟨hc, s', hs', hobeys⟩ | ⟨k', hk', hend⟩
  · refine ⟨a, .handler hc, tracks_handler h hc hs' ⟨h.flag, h.valid, ?_, ?_, ?_⟩⟩
    · simpa using h.main
    · simpa using h.listener
    · simpa [hk, InPhase] using hobeys
  · have hflag : c = .isListeningForCommands → r.isSet = a.flag := by
      rintro rfl
      exact (of_decide_eq_true hread).trans h.flag
    obtain ⟨o, ho, hphase'⟩ := inPhase_ended hend
    refine ⟨_, .watcher hk hk' hflag ho, ⟨?_, ?_, ?_, ?_, ?_⟩⟩
    · exact (effect_flag _ _ _).trans (by rw [h.flag])
    · exact (effect_valid _ _ _).trans (by rw [h.valid])
    · simpa [threadsAfter_eq (spawns_of_watcher_step hk')] using h.main
    · simpa [threadsAfter_eq (spawns_of_watcher_step hk')] using h.listener
    · simpa using hphase'

/-- A signal that arrives leaves every thread in its phase. -/
theorem tracks_interrupt (h : Tracks C a) {t : Thread} {s : Stack Call Answer Signal}
    (hs : C.threads t = some s) (x : Signal) :
    Tracks ⟨C.store, Function.update C.threads t
      (some ⟨s.base, (x, signalCallbackHandler x) :: s.handlers⟩)⟩ a := by
  have honly := only_signalCallbackHandler x
  cases t with
  | main =>
    refine ⟨h.flag, h.valid, fun s' hs' => ?_, by simpa using h.listener, by simpa using h.watcher⟩
    obtain rfl : _ = s' := by simpa using hs'
    exact (h.main s hs).interrupt honly
  | commandHandler =>
    obtain ⟨l, hl, hphase⟩ := inPhase_some (hs ▸ h.listener)
    refine ⟨h.flag, h.valid, by simpa using h.main, ?_, by simpa using h.watcher⟩
    simpa [hl, InPhase] using hphase.interrupt honly
  | connectionListener =>
    obtain ⟨k, hk, hphase⟩ := inPhase_some (hs ▸ h.watcher)
    refine ⟨h.flag, h.valid, by simpa using h.main, by simpa using h.listener, ?_⟩
    simpa [hk, InPhase] using hphase.interrupt honly

end SessionMachineLemmas

open SessionMachineLemmas

/-- Every step of the process is one of the machine. -/
theorem moves_step {C C' : State} {a : SessionState} {l : Move} (h : Tracks C a)
    (hstep : process.step C l = some C') : ∃ a', a.Moves l a' ∧ Tracks C' a' := by
  cases l with
  | call t c r =>
    obtain ⟨s, hs, hpend, hans, hjoin, rfl⟩ := System.step_call hstep
    cases t with
    | main => exact moves_main h hs hpend hjoin
    | commandHandler => exact moves_listener h hs hpend hans
    | connectionListener => exact moves_watcher h hs hpend hans
  | interrupt t x =>
    obtain ⟨s, hs, -, -, rfl⟩ := System.step_interrupt hstep
    exact ⟨a, .interrupt, tracks_interrupt h hs x⟩
  | outside e => exact e.elim

/-- The machine when `main` is called. -/
def sessionStart : SessionState := ⟨false, false, .outside, none, none⟩

theorem tracks_initial (ip : IpExchange) : Tracks (initial ip) sessionStart where
  flag := rfl
  valid := rfl
  main s hs := by
    obtain rfl : _ = s := Option.some.inj hs
    exact ⟨keeps_mainPhases ip, fun _ hx => absurd hx List.not_mem_nil⟩
  listener := trivial
  watcher := trivial

/-! ## 5. Runs -/

/-- A run of the machine. -/
inductive SessionState.Reaches (a : SessionState) : List Move → SessionState → Prop where
  | nil : Reaches a [] a
  | snoc {ls : List Move} {l : Move} {b c : SessionState} (h : Reaches a ls b) (hl : b.Moves l c) :
      Reaches a (ls ++ [l]) c

/-- Every run of the process is one of the machine. -/
theorem moves_run {C C' : State} {a : SessionState} {ls : List Move} (h : Tracks C a)
    (hrun : process.run C ls = some C') : ∃ a', a.Reaches ls a' ∧ Tracks C' a' := by
  refine System.run_induction hrun (P := fun ls C' => ∃ a', a.Reaches ls a' ∧ Tracks C' a')
    ⟨a, .nil, h⟩ ?_
  rintro ls l C₁ C₂ ⟨a₁, ha₁, htracks⟩ hstep
  obtain ⟨a₂, hmoves, htracks'⟩ := moves_step htracks hstep
  exact ⟨a₂, .snoc ha₁ hmoves, htracks'⟩

/-- What the phases say about the flag: it is false once a session thread has
stopped, both threads run inside of `enter_connected_state` only, and
`connection_is_valid` is never set. -/
structure Coherent (a : SessionState) : Prop where
  valid : a.valid = false
  stopped : a.listener = some .stopped → a.flag = false
  refused : a.watcher = some .refused ∨ a.watcher = some .finished → a.flag = false
  outside : a.main = .outside → a.listener = none ∧ a.watcher = none ∧ a.flag = false
  armed : a.main = .armed → a.listener = none ∧ a.watcher = none
  handling : a.main = .handling → a.watcher = none ∧ (a.listener = none → a.flag = false)
  watched : a.main = .watched →
    (a.listener = none → a.flag = false) ∧ (a.watcher = none → a.flag = false)
  joining : a.main = .joining → a.listener = none ∧ a.flag = false

theorem coherent_start : Coherent sessionStart := by
  constructor <;> simp [sessionStart]

namespace SessionMachineLemmas

/-- What `main` may do to a session. -/
theorem main_step_cases {m m' : MainPhase} {c : Call} (h : m.step c = some m') :
    (m = .outside ∧ c = .setListenForCommands true ∧ m' = .armed) ∨
    (m = .outside ∧ c.isSession = false ∧ m' = .outside) ∨
    (m = .armed ∧ c = .spawn .commandHandler ∧ m' = .handling) ∨
    (m = .handling ∧ c = .spawn .connectionListener ∧ m' = .watched) ∨
    (m = .watched ∧ c = .join .commandHandler ∧ m' = .joining) ∨
    (m = .joining ∧ c = .join .connectionListener ∧ m' = .outside) := by
  unfold MainPhase.step at h
  split at h
  · exact .inl ⟨rfl, rfl, (Option.some.inj h).symm⟩
  · split at h
    · cases h
    · rename_i hc
      exact .inr (.inl ⟨rfl, by simpa using hc, (Option.some.inj h).symm⟩)
  all_goals first | (cases h; done) | simpa using h.symm

/-- What `listen_for_commands` may do to a session. -/
theorem listener_step_cases {l l' : ListenerPhase} {c : Call} {r : Answer}
    (h : l.step c r = some l') :
    (l = .accepting ∧ c = .setListenForCommands false ∧ l' = .stopped) ∨
    (l ≠ .stopped ∧ c = .isListeningForCommands ∧ l' = if r.isSet then .ready else .stopped) ∨
    (l = .ready ∧ c = .mark .executeCommand ∧ l' = .spent) ∨
    (c.isSession = false ∧ c ≠ .mark .executeCommand ∧ l' = l) := by
  unfold ListenerPhase.step at h
  split at h
  · exact .inl ⟨rfl, rfl, (Option.some.inj h).symm⟩
  · cases h
  · rename_i hne
    exact .inr (.inl ⟨hne, rfl, (Option.some.inj h).symm⟩)
  · simpa using h.symm
  · cases h
  · split at h
    · cases h
    · rename_i hmark _ _ _ hc
      exact .inr (.inr (.inr ⟨by simpa using hc, hmark, (Option.some.inj h).symm⟩))

/-- What `connected_loop` may do to a session. -/
theorem watcher_step_cases {k k' : WatcherPhase} {c : Call} {r : Answer}
    (h : k.step c r = some k') :
    (k = .watching ∧ c = .isListeningForCommands ∧ k' = if r.isSet then .watching else .refused) ∨
    (k = .refused ∧ c = .setConnectionIsValid false ∧ k' = .finished) ∨
    (k = .watching ∧ c = .setConnectionIsValid false ∧ k' = .dropped) ∨
    (k = .dropped ∧ c = .setListenForCommands false ∧ k' = .finished) ∨
    (k = .watching ∧ c.isSession = false ∧ k' = .watching) := by
  unfold WatcherPhase.step at h
  split at h
  · exact .inl ⟨rfl, rfl, (Option.some.inj h).symm⟩
  · exact .inr (.inl ⟨rfl, rfl, (Option.some.inj h).symm⟩)
  · exact .inr (.inr (.inl ⟨rfl, rfl, (Option.some.inj h).symm⟩))
  · exact .inr (.inr (.inr (.inl ⟨rfl, rfl, (Option.some.inj h).symm⟩)))
  · split at h
    · cases h
    · rename_i hc
      exact .inr (.inr (.inr (.inr ⟨rfl, by simpa using hc, (Option.some.inj h).symm⟩)))
  · cases h

/-- `listen_for_commands` only ever clears the flag. -/
theorem flag_of_listener_step {l l' : ListenerPhase} {c : Call} {r : Answer}
    (h : l.step c r = some l') {flag : Bool} (hf : flag = false) : flagAfter flag c = false := by
  rcases listener_step_cases h with ⟨-, rfl, -⟩ | ⟨-, rfl, -⟩ | ⟨-, rfl, -⟩ | ⟨hc, -, -⟩
  · rfl
  · exact hf
  · exact hf
  · exact (flagAfter_of_not_session hc flag).trans hf

/-- `connected_loop` only ever clears the flag. -/
theorem flag_of_watcher_step {k k' : WatcherPhase} {c : Call} {r : Answer}
    (h : k.step c r = some k') {flag : Bool} (hf : flag = false) : flagAfter flag c = false := by
  rcases watcher_step_cases h with ⟨-, rfl, -⟩ | ⟨-, rfl, -⟩ | ⟨-, rfl, -⟩ | ⟨-, rfl, -⟩ |
    ⟨-, hc, -⟩
  · exact hf
  · exact hf
  · exact hf
  · rfl
  · exact (flagAfter_of_not_session hc flag).trans hf

theorem startedBy_of_not_session {φ : Type} {c : Call} (hc : c.isSession = false) (t : Thread)
    (first : φ) (phase : Option φ) : startedBy c t first phase = phase := by
  refine if_neg ?_
  rintro rfl
  exact Bool.noConfusion hc

variable {a a' : SessionState}

theorem coherent_main (h : Coherent a) {c : Call} {m : MainPhase} (hm : a.main.step c = some m)
    (hlistener : c = .join .commandHandler → a.listener = none)
    (hwatcher : c = .join .connectionListener → a.watcher = none) :
    Coherent { a with
      flag := flagAfter a.flag c
      main := m
      listener := startedBy c .commandHandler .accepting a.listener
      watcher := startedBy c .connectionListener .watching a.watcher } := by
  obtain ⟨flag, valid, phase, listener, watcher⟩ := a
  have hvalid := h.valid
  rcases main_step_cases hm with ⟨rfl, rfl, rfl⟩ | ⟨rfl, hc, rfl⟩ | ⟨rfl, rfl, rfl⟩ |
    ⟨rfl, rfl, rfl⟩ | ⟨rfl, rfl, rfl⟩ | ⟨rfl, rfl, rfl⟩
  · -- the flag is set while no session thread runs
    obtain ⟨hl, hk, -⟩ := h.outside rfl
    constructor <;> simp_all [startedBy]
  · rw [startedBy_of_not_session hc, startedBy_of_not_session hc, flagAfter_of_not_session hc]
    exact h
  · obtain ⟨hl, hk⟩ := h.armed rfl
    constructor <;> simp_all [startedBy, flagAfter]
  · obtain ⟨hk, hflag⟩ := h.handling rfl
    have hstopped := h.stopped
    constructor <;> simp_all [startedBy, flagAfter]
  · have hl : listener = none := hlistener rfl
    obtain ⟨hflag, -⟩ := h.watched rfl
    constructor <;> simp_all [startedBy, flagAfter]
  · have hk : watcher = none := hwatcher rfl
    obtain ⟨hl, hflag⟩ := h.joining rfl
    constructor <;> simp_all [startedBy, flagAfter]

theorem coherent_listener (h : Coherent a) {c : Call} {r : Answer} {l l' : ListenerPhase}
    {o : Option ListenerPhase} (hl : a.listener = some l) (hl' : l.step c r = some l')
    (hread : c = .isListeningForCommands → r.isSet = a.flag)
    (ho : o = some l' ∨ o = none ∧ l' = .stopped) :
    Coherent { a with flag := flagAfter a.flag c, listener := o } := by
  -- the flag is only ever cleared, and is false when the listener has stopped
  have hcleared : a.flag = false → flagAfter a.flag c = false := flag_of_listener_step hl'
  have hstopped : l' = .stopped → flagAfter a.flag c = false := by
    rintro rfl
    rcases listener_step_cases hl' with ⟨-, rfl, -⟩ | ⟨-, rfl, hr⟩ | ⟨-, -, hr⟩ | ⟨hc, -, rfl⟩
    · rfl
    · rw [hread rfl] at hr
      cases hf : a.flag with
      | true => rw [hf] at hr; cases hr
      | false => rfl
    · cases hr
    · rw [flagAfter_of_not_session hc]
      exact h.stopped hl
  have hnone : o = none → flagAfter a.flag c = false := by
    rintro rfl
    rcases ho with ho | ⟨-, rfl⟩
    · cases ho
    · exact hstopped rfl
  have hsome : o = some .stopped → flagAfter a.flag c = false := by
    rintro rfl
    rcases ho with ho | ⟨ho, -⟩
    · exact hstopped (Option.some.inj ho).symm
    · cases ho
  refine ⟨h.valid, hsome, fun hk => hcleared (h.refused hk), fun hm => ?_, fun hm => ?_,
    fun hm => ?_, fun hm => ?_, fun hm => ?_⟩
  · exact absurd (hl.symm.trans (h.outside hm).1) (Option.some_ne_none l)
  · exact absurd (hl.symm.trans (h.armed hm).1) (Option.some_ne_none l)
  · exact ⟨(h.handling hm).1, hnone⟩
  · exact ⟨hnone, fun hk => hcleared ((h.watched hm).2 hk)⟩
  · exact absurd (hl.symm.trans (h.joining hm).1) (Option.some_ne_none l)

theorem coherent_watcher (h : Coherent a) {c : Call} {r : Answer} {k k' : WatcherPhase}
    {o : Option WatcherPhase} (hk : a.watcher = some k) (hk' : k.step c r = some k')
    (hread : c = .isListeningForCommands → r.isSet = a.flag)
    (ho : o = some k' ∨ o = none ∧ k' = .finished) :
    Coherent
      { a with flag := flagAfter a.flag c, valid := validAfter a.valid c, watcher := o } := by
  have hcleared : a.flag = false → flagAfter a.flag c = false := flag_of_watcher_step hk'
  have hvalid : validAfter a.valid c = false := by
    rcases watcher_step_cases hk' with ⟨-, rfl, -⟩ | ⟨-, rfl, -⟩ | ⟨-, rfl, -⟩ | ⟨-, rfl, -⟩ |
      ⟨-, hc, -⟩
    · exact h.valid
    · rfl
    · rfl
    · exact h.valid
    · rw [validAfter_of_not_session hc, h.valid]
  have hover : k' = .refused ∨ k' = .finished → flagAfter a.flag c = false := by
    intro hend
    rcases watcher_step_cases hk' with ⟨-, rfl, hr⟩ | ⟨rfl, rfl, -⟩ | ⟨-, -, rfl⟩ | ⟨-, rfl, -⟩ |
      ⟨-, -, rfl⟩
    · rw [hread rfl] at hr
      cases hf : a.flag with
      | true =>
        rw [hf] at hr
        subst hr
        simp at hend
      | false => rfl
    · exact h.refused (.inl hk)
    · simp at hend
    · rfl
    · simp at hend
  have hnone : o = none → flagAfter a.flag c = false := by
    rintro rfl
    rcases ho with ho | ⟨-, rfl⟩
    · cases ho
    · exact hover (.inr rfl)
  have hsome : o = some .refused ∨ o = some .finished → flagAfter a.flag c = false := by
    intro hend
    rcases ho with rfl | ⟨rfl, -⟩
    · exact hover (by simpa using hend)
    · simp at hend
  refine ⟨hvalid, fun hl => hcleared (h.stopped hl), hsome, fun hm => ?_, fun hm => ?_,
    fun hm => ?_, fun hm => ?_, fun hm => ?_⟩
  · exact absurd (hk.symm.trans (h.outside hm).2.1) (Option.some_ne_none k)
  · exact absurd (hk.symm.trans (h.armed hm).2) (Option.some_ne_none k)
  · exact absurd (hk.symm.trans (h.handling hm).1) (Option.some_ne_none k)
  · exact ⟨fun hl => hcleared ((h.watched hm).1 hl), hnone⟩
  · exact ⟨(h.joining hm).1, hcleared (h.joining hm).2⟩

theorem coherent_moves {l : Move} (h : Coherent a) (hl : a.Moves l a') : Coherent a' := by
  cases hl with
  | interrupt => exact h
  | handler hc => exact h
  | main hm hlistener hwatcher => exact coherent_main h hm hlistener hwatcher
  | listener hphase hstep hread ho => exact coherent_listener h hphase hstep hread ho
  | watcher hphase hstep hread ho => exact coherent_watcher h hphase hstep hread ho

theorem coherent_reaches {ls : List Move} (h : Coherent a) (hrun : a.Reaches ls a') :
    Coherent a' := by
  induction hrun with
  | nil => exact h
  | snoc _ hl ih => exact coherent_moves ih hl

end SessionMachineLemmas

open SessionMachineLemmas

/-- Every run of the process is a coherent run of the machine. -/
theorem session_run {ip : IpExchange} {ls : List Move} {C : State}
    (hrun : process.run (initial ip) ls = some C) :
    ∃ a, sessionStart.Reaches ls a ∧ Coherent a ∧ Tracks C a := by
  obtain ⟨a, hreaches, htracks⟩ := moves_run (tracks_initial ip) hrun
  exact ⟨a, hreaches, coherent_reaches coherent_start hreaches, htracks⟩

end P2pDriver
