import P2pDriver.Driver
import P2pDriver.SessionMachine
import P2pDriver.Surroundings

/-!
# The way back to a search

How far each thread is from letting the driver search again. Between the return
of `connect_loop` and the next search every thread has only a bounded way to go,
apart from the calls it may block in, and from a loop it leaves once
`run_command_loop` is false. The stages of a thread count the calls that are left.

Results:
1. `keeps_mainStages`: `main` from the return of `connect_loop` to the next search.
2. `keeps_handlerStages`: `listen_for_commands`, whatever it receives.
3. `keeps_watcherStages`: `connected_loop`, up to the event that ends it.
4. `greeting_step`, `preparing_step`, `judging_step` and so on: the calls of a stage.
-/

namespace P2pDriver

open Resumable Prog ConnectLemmas SocketLemmas DriverLemmas EventLoopLemmas

/-! ## 1. Stages -/

/-- Where `main` is since `connect_loop` has returned: before the handshake, in it
before its socket and then before the hello of the peer, behind that with `n` calls
to go, in `enter_connected_state` as in `MainPhase`, or behind it. The receive may
have overrun its buffer. -/
inductive MainStage where
  | searching
  | connected
  | resolving
  | greeting
  | greeted (n : Nat)
  | armed
  | handling
  | watched
  | joining
  | rejoined (n : Nat)
  | overrun

/-- The calls behind the receive of a handshake, up to the next session or search. -/
def Call.isFollowUp : Call → Bool
  | .close _ | .setClientIp _ | .print _ | .sleepFor _ | .sendto _ _ _ | .controlData => true
  | .mark (.ipExchangeReturned _) | .mark .enterConnectedState => true
  | _ => false

/-- The calls with which `main` does not leave its search. -/
def Call.staysSearching : Call → Bool
  | .mark (.connectToDeviceReturned true) => false
  | _ => true

def MainStage.step : MainStage → Call → Answer → Option MainStage
  | searching, .mark (.connectToDeviceReturned true), _ => some connected
  | searching, _, _ => some searching
  | connected, .mark .ipExchangeCalled, _ => some resolving
  | resolving, .getaddrinfo _ _, r => some (if r.ret = 0 then greeting else greeted 9)
  | greeting, .socket _, r => some (if r.ret < 0 then greeted 9 else greeting)
  | greeting, .bind _, r => some (if r.ret < 0 then greeted 9 else greeting)
  | greeting, .recvfrom _ len, r => some (if r.offer.length < len then greeted 9 else overrun)
  | greeted _, .setListenForCommands true, _ => some armed
  | greeted n, c, _ =>
    if c = startCall then some searching
    else match n with
      | 0 => none
      | n + 1 => if c.isFollowUp then some (greeted n) else none
  | armed, .spawn .commandHandler, _ => some handling
  | handling, .spawn .connectionListener, _ => some watched
  | watched, .join .commandHandler, _ => some joining
  | joining, .join .connectionListener, _ => some (rejoined 1)
  | rejoined n, c, _ =>
    if c = startCall then some searching
    else match n with
      | 0 => none
      | n + 1 => if c = .controlData then some (rejoined n) else none
  | _, _, _ => none

/-- `main` finds `control_data` set, and a datagram when it has received one. -/
def mainStageSpec : Spec Call Answer MainStage where
  admits
    | .greeting, .recvfrom _ _, r => 0 ≤ r.ret
    | .greeted _, .controlData, r | .rejoined _, .controlData, r => r.handle ≠ none
    | _, _, _ => True
  step := MainStage.step
  faults m := m = .searching ∨ m = .overrun

/-- Where `listen_for_commands` is: before it listens, before it has accepted,
turned down with `n` calls to go, `n` calls before it reads the flag, about to
receive, or behind its loop with `n` calls to go. -/
inductive HandlerStage where
  | preparing
  | freeing
  | accepting
  | refused (n : Nat)
  | reading (n : Nat)
  | receiving
  | closing (n : Nat)
  | overrun

def HandlerStage.step : HandlerStage → Call → Answer → Option HandlerStage
  | preparing, .getaddrinfo _ _, r => some (if r.ret = 0 then preparing else refused 2)
  | preparing, .socket _, r | preparing, .bind _, r =>
    some (if r.ret < 0 then refused 2 else preparing)
  | preparing, .listen _, r => some (if r.ret < 0 then refused 2 else freeing)
  | freeing, .freeaddrinfo, _ => some accepting
  | accepting, .accept _, r => some (if r.ret < 0 then refused 2 else reading 0)
  | refused (n + 1), .close _, _ | refused (n + 1), .setListenForCommands false, _ =>
    some (refused n)
  | reading _, .isListeningForCommands, r => some (if r.isSet then reading 4 else closing 2)
  | reading (n + 1), .select _, r => some (if r.isSet then receiving else reading n)
  | reading (n + 1), .mark .executeCommand, _ | reading (n + 1), .execute _, _ => some (reading n)
  | receiving, .recv _ len, r =>
    if len = commandMaxRecv then
      some (if r.ret < 0 ∨ r.offer.length < len then reading 2 else overrun)
    else none
  | closing (n + 1), .close _, _ => some (closing n)
  | _, _, _ => none

/-- Where `listen_for_commands` may return. -/
def HandlerStage.ends : HandlerStage → Prop
  | refused _ | closing _ => True
  | _ => False

def handlerStageSpec : Spec Call Answer HandlerStage where
  admits _ _ _ := True
  step := HandlerStage.step
  faults l := l = .overrun

/-- Where `connected_loop` is: at the start of a round, about to fetch a message,
behind it, on its way out after the event it waits for, or after it has read the
flag false. -/
inductive WatcherStage where
  | head
  | fetching
  | judging
  | dropping (n : Nat)
  | leaving
  | ended

def WatcherStage.step : WatcherStage → Call → Answer → Option WatcherStage
  | head, .wpaCtrlPending, r => some (if r.isSet then fetching else judging)
  | fetching, .wpaCtrlRecv _, r =>
    some (if 0 ≤ r.ret ∧ tellsDisconnect r.offer = true then dropping 2 else judging)
  | judging, .isListeningForCommands, r => some (if r.isSet then head else leaving)
  | judging, .print _, _ => some (dropping 1)
  | dropping (n + 1), .print _, _ | dropping (n + 1), .setConnectionIsValid false, _ =>
    some (dropping n)
  | dropping _, .setListenForCommands false, _ => some ended
  | leaving, .setConnectionIsValid false, _ => some ended
  | _, _, _ => none

def watcherStageSpec : Spec Call Answer WatcherStage where
  admits _ _ _ := True
  step := WatcherStage.step
  faults _ := False

/-! ## 2. `main` -/

namespace RecoveryLemmas

theorem staysSearching_of_isSetup {c : Call} (h : c.isSetup = true) : c.staysSearching = true := by
  cases c <;> first | rfl | exact Bool.noConfusion h

theorem staysSearching_of_isNegotiation {c : Call} (h : c.isNegotiation = true) :
    c.staysSearching = true := by
  cases c <;> first | rfl | exact Bool.noConfusion h

theorem searching_step {c : Call} (h : c.staysSearching = true) (r : Answer) :
    MainStage.searching.step c r = some .searching := by
  unfold MainStage.step
  split
  case h_1 => exact Bool.noConfusion h
  case h_2 => rfl
  all_goals simp_all

/-- What `main` does apart from sessions while it searches. -/
theorem keeps_searching {α : Type} {F : Prop} {p : Drv α} (h : Only Call.staysSearching F p) :
    Keeps mainStageSpec .searching p fun _ m => m = .searching :=
  h.keeps (fun _ r hc => searching_step hc r) fun _ => .inl rfl

theorem keeps_connectToDevice_stage (macAddress : Bytes) :
    Keeps mainStageSpec .searching (connectToDevice macAddress) fun connected m =>
      m = if connected then .connected else .searching := by
  have hloop : Only Call.staysSearching True negotiationLoop :=
    only_negotiationLoop fun _ => staysSearching_of_isNegotiation
  simp only [connectToDevice, bind_eq, system_bind, perform_bind]
  refine keeps_call fun _ _ => ⟨.searching, rfl, ?_⟩
  refine keeps_bind ((keeps_searching hloop).mono fun connected m hm => ?_)
  subst hm
  cases connected with
  | true => exact keeps_call fun _ _ => ⟨.connected, rfl, keeps_ret rfl⟩
  | false => exact keeps_call fun _ _ => ⟨.searching, rfl, keeps_ret rfl⟩

/-- What the end of a round of `connect_loop` establishes. -/
abbrev SearchRound : Option Unit → MainStage → Prop :=
  RoundPost mainStageSpec (· = .searching) (.ret : Unit → Drv Unit) fun _ m => m = .connected

theorem keeps_searchRound_stage (m : Message) :
    Keeps mainStageSpec .searching (searchRound m) SearchRound := by
  refine keeps_bind (keeps_ofOption (fun request _ => ?_) fun _ => .inl rfl)
  cases request with
  | false => exact keeps_ret rfl
  | true =>
    refine keeps_bind (keeps_ofOption (fun macAddress _ => ?_) fun _ => .inl rfl)
    refine keeps_bind ((keeps_connectToDevice_stage macAddress).mono fun connected m hm => ?_)
    subst hm
    cases connected with
    | true => exact keeps_ret (keeps_ret rfl)
    | false => exact keeps_call fun _ _ => ⟨.searching, rfl, keeps_ret rfl⟩

theorem keeps_searchLoop_stage :
    Keeps mainStageSpec .searching searchLoop fun _ m => m = .connected := by
  refine keeps_forever (c := .wpaCtrlPending) (· = .searching) rfl rfl fun m hm => ?_
  subst hm
  refine keeps_fetchMessage_ignored (fun _ => rfl) (fun _ => rfl) fun o => ?_
  cases o with
  | none => exact keeps_ret rfl
  | some m => exact keeps_searchRound_stage m

/-- Where `main` may be when it calls `connect_loop`. -/
def Resting (m : MainStage) : Prop := m = .searching ∨ (∃ n, m = .greeted (n + 1)) ∨ m = .rejoined 1

theorem keeps_connectLoop_stage {m : MainStage} (hm : Resting m) :
    Keeps mainStageSpec m connectLoop fun _ m' => m' = .searching ∨ m' = .connected := by
  have hsearch : Keeps mainStageSpec .searching searchLoop fun _ m' => m' = .searching ∨
    m' = .connected :=
    keeps_searchLoop_stage.mono fun _ _ => .inr
  rcases hm with rfl | ⟨n, rfl⟩ | rfl
  · refine keeps_call fun control _ => ⟨.searching, rfl, ?_⟩
    split
    · exact keeps_ret (.inl rfl)
    · exact keeps_call fun _ _ => ⟨.searching, rfl, hsearch⟩
  · refine keeps_call fun control hcontrol => ⟨.greeted n, rfl, ?_⟩
    rw [if_neg hcontrol]
    exact keeps_call fun _ _ => ⟨.searching, rfl, hsearch⟩
  · refine keeps_call fun control hcontrol => ⟨.rejoined 0, rfl, ?_⟩
    rw [if_neg hcontrol]
    exact keeps_call fun _ _ => ⟨.searching, rfl, hsearch⟩

theorem keeps_udpInitSocket_stage (port : Bytes) :
    Keeps mainStageSpec .resolving (udpInitSocket port) fun sockFd m =>
      0 ≤ sockFd ∧ m = .greeting ∨ sockFd < 0 ∧ ∃ n, m = .greeted (n + 8) := by
  have hopen : Keeps mainStageSpec .resolving (openSocket port true) fun sockFd m =>
      0 ≤ sockFd ∧ m = .greeting ∨ sockFd < 0 ∧ m = .greeted 9 :=
    keeps_openSocket_of (fun _ => rfl) fun _ => rfl
  refine keeps_bind (hopen.mono fun sockFd m hm => ?_)
  rcases hm with ⟨hfd, rfl⟩ | ⟨hfd, rfl⟩
  · rw [if_neg (not_lt.mpr hfd)]
    refine keeps_call fun bound _ => ⟨_, rfl, ?_⟩
    simp only [ret_bind]
    by_cases hbound : bound.ret < 0
    · rw [if_pos hbound, if_pos hbound]
      exact keeps_call fun _ _ => ⟨.greeted 8, rfl, keeps_ret (.inr ⟨by decide, 0, rfl⟩)⟩
    · rw [if_neg hbound, if_neg hbound]
      exact keeps_ret (.inl ⟨hfd, rfl⟩)
  · rw [if_pos hfd]
    exact keeps_ret (.inr ⟨by decide, 1, rfl⟩)

/-- A datagram that fits leaves room for the NUL behind it. -/
theorem keeps_udpReceiveMsg_stage (sockFd : Int) :
    Keeps mainStageSpec .greeting (udpReceiveMsg sockFd) fun received m =>
      0 ≤ received.1 ∧ m = .greeted 9 := by
  refine keeps_call fun r hr => ⟨_, rfl, ?_⟩
  have hret : ¬ r.ret < 0 := not_lt.mpr hr
  simp only [ret_bind]
  rw [if_neg hret]
  refine keeps_bind (keeps_ofOption (fun buffer hbuffer => ?_) fun hnone => ?_)
  · have hfits : r.offer.length < maxRecv := by
      by_contra hno
      have hnone := (Delivery.write_terminator_eq_none_iff r.offer r.stale 0).mpr (not_lt.mp hno)
      exact absurd (hnone.symm.trans hbuffer) (Option.some_ne_none buffer).symm
    exact keeps_ret ⟨Int.natCast_nonneg _, if_pos hfits⟩
  · have hfull := (Delivery.write_terminator_eq_none_iff r.offer r.stale 0).mp hnone
    exact .inr (if_neg (not_lt.mpr hfull))

theorem keeps_udpConnectionHandshake_stage :
    Keeps mainStageSpec .resolving udpConnectionHandshake fun _ m => ∃ n, m = .greeted (n + 2) := by
  refine keeps_bind ((keeps_udpInitSocket_stage generalPort).mono fun sockFd m hm => ?_)
  rcases hm with ⟨hfd, rfl⟩ | ⟨hfd, n, rfl⟩
  · rw [if_neg (not_lt.mpr hfd)]
    refine keeps_bind
      ((keeps_udpReceiveMsg_stage sockFd).mono fun (received, buffer, addr) m hm => ?_)
    obtain ⟨hreceived, rfl⟩ := hm
    dsimp only at hreceived ⊢
    rw [if_neg (not_lt.mpr hreceived)]
    -- the address, the message, two confirm messages with their pauses, and `close`
    simp only [bind_eq, perform_bind, maxConfirmMsgs, times, sendConfirm, udpSendString, call_bind,
      ret_bind, pure_eq]
    exact keeps_call fun _ _ => ⟨.greeted 8, rfl, keeps_call fun _ _ => ⟨.greeted 7, rfl,
      keeps_call fun _ _ => ⟨.greeted 6, rfl, keeps_call fun _ _ => ⟨.greeted 5, rfl,
        keeps_call fun _ _ => ⟨.greeted 4, rfl, keeps_call fun _ _ => ⟨.greeted 3, rfl,
          keeps_call fun _ _ => ⟨.greeted 2, rfl, keeps_ret ⟨0, rfl⟩⟩⟩⟩⟩⟩⟩⟩
  · rw [if_pos hfd]
    exact keeps_ret ⟨n + 6, rfl⟩

theorem keeps_callIpExchange_stage {m : MainStage} (hm : m = .searching ∨ m = .connected) :
    Keeps mainStageSpec m (callIpExchange .udp) fun _ m' =>
      m' = .searching ∨ ∃ n, m' = .greeted (n + 1) := by
  rcases hm with rfl | rfl
  · have hstays : ∀ c : Call, c.isHandshake = true → c.staysSearching = true := by
      intro c hc
      cases c <;> first | rfl | exact Bool.noConfusion hc
    exact (keeps_searching (only_callIpExchange hstays rfl (fun _ => rfl) .udp)).mono
      fun _ _ => .inl
  · simp only [callIpExchange, bind_eq, perform_bind]
    refine keeps_call fun _ _ => ⟨.resolving, rfl, ?_⟩
    refine keeps_bind (keeps_udpConnectionHandshake_stage.mono fun success m hm => ?_)
    obtain ⟨n, rfl⟩ := hm
    exact keeps_call fun _ _ => ⟨.greeted (n + 1), rfl, keeps_ret (.inr ⟨n, rfl⟩)⟩

theorem keeps_retryHandshake_stage {m : MainStage} (hm : m = .searching ∨ ∃ n, m = .greeted (n + 1))
    (success : Bool) : Keeps mainStageSpec m (retryHandshake .udp success) fun _ m' =>
      m' = .searching ∨ ∃ n, m' = .greeted (n + 1) := by
  cases success with
  | true => exact keeps_ret hm
  | false =>
    rw [retryHandshake, if_neg Bool.false_ne_true]
    refine keeps_forever (fun m => m = .searching ∨ ∃ n, m = .greeted (n + 1)) hm rfl fun m hm => ?_
    have hrest : Resting m := hm.imp_right .inl
    refine keeps_bind ((keeps_connectLoop_stage hrest).mono fun _ m hm => ?_)
    refine keeps_bind ((keeps_callIpExchange_stage hm).mono fun success m hm => ?_)
    cases success with
    | true => exact keeps_ret (keeps_ret hm)
    | false => exact keeps_ret hm

theorem keeps_enterConnectedState_stage {m : MainStage}
    (hm : m = .searching ∨ ∃ n, m = .greeted (n + 1)) :
    Keeps mainStageSpec m enterConnectedState fun _ m' => m' = .searching ∨ m' = .rejoined 1 := by
  rcases hm with rfl | ⟨n, rfl⟩
  · have hstays : Only Call.staysSearching True enterConnectedState :=
      only_call rfl fun _ => only_call rfl fun _ => only_call rfl fun _ => only_call rfl fun _ =>
        only_call rfl fun _ => only_call rfl fun _ => only_ret _
    exact (keeps_searching hstays).mono fun _ _ => .inl
  · simp only [enterConnectedState, bind_eq, perform_bind]
    exact keeps_call fun _ _ => ⟨.greeted n, rfl, keeps_call fun _ _ => ⟨.armed, rfl,
      keeps_call fun _ _ => ⟨.handling, rfl, keeps_call fun _ _ => ⟨.watched, rfl,
        keeps_call fun _ _ => ⟨.joining, rfl, keeps_call fun _ _ => ⟨.rejoined 1, rfl,
          keeps_ret (.inr rfl)⟩⟩⟩⟩⟩⟩

theorem keeps_masterLoop_stage :
    Keeps mainStageSpec .searching (masterLoop .udp) fun _ m => m = .searching := by
  refine keeps_forever (fun m => m = .searching ∨ m = .rejoined 1) (.inl rfl) rfl fun m hm => ?_
  have hrest : Resting m := hm.imp_right .inr
  refine keeps_bind ((keeps_connectLoop_stage hrest).mono fun _ m hm => ?_)
  refine keeps_bind ((keeps_callIpExchange_stage hm).mono fun success m hm => ?_)
  refine keeps_bind ((keeps_retryHandshake_stage hm success).mono fun _ m hm => ?_)
  exact keeps_bind ((keeps_enterConnectedState_stage hm).mono fun _ m hm => keeps_ret hm)

theorem keeps_mainStages :
    Keeps mainStageSpec .searching ((main .udp).bind fun _ => .ret ())
      fun _ m => m = .searching := by
  have hinit : Only Call.staysSearching False initAndAttachCtrl :=
    only_initAndAttachCtrl fun _ => staysSearching_of_isSetup
  refine keeps_bind (keeps_bind ((keeps_searching hinit).mono fun _ m hm => ?_))
  subst hm
  refine keeps_call fun control _ => ⟨.searching, rfl, ?_⟩
  simp only [ret_bind]
  split
  · exact keeps_ret (keeps_ret rfl)
  · refine keeps_bind ((keeps_searching (only_initTerminationSignals fun _ => rfl)).mono
      fun _ m hm => ?_)
    subst hm
    exact keeps_masterLoop_stage.mono fun _ m hm => keeps_ret hm

/-! ## 3. `listen_for_commands` -/

theorem keeps_tcpInitSocket_stage (port : Bytes) :
    Keeps handlerStageSpec .preparing (tcpInitSocket port) fun sockFd l =>
      l = .accepting ∧ 0 ≤ sockFd ∨ sockFd = nlosSocketErr ∧ ∃ n, l = .refused (n + 1) := by
  have hopen : Keeps handlerStageSpec .preparing (openSocket port false) fun sockFd l =>
      0 ≤ sockFd ∧ l = .preparing ∨ sockFd < 0 ∧ l = .refused 2 :=
    keeps_openSocket_of (fun _ => rfl) fun _ => rfl
  refine keeps_bind (hopen.mono fun sockFd l hl => ?_)
  rcases hl with ⟨hfd, rfl⟩ | ⟨hfd, rfl⟩
  · rw [if_neg (not_lt.mpr hfd)]
    refine keeps_call fun bound _ => ⟨_, rfl, ?_⟩
    simp only [ret_bind]
    by_cases hbound : bound.ret < 0
    · rw [if_pos hbound, if_pos hbound]
      exact keeps_call fun _ _ => ⟨.refused 1, rfl, keeps_ret (.inr ⟨rfl, 0, rfl⟩)⟩
    · rw [if_neg hbound, if_neg hbound]
      refine keeps_call fun listening _ => ⟨_, rfl, ?_⟩
      simp only [ret_bind]
      by_cases hlistening : listening.ret < 0
      · rw [if_pos hlistening, if_pos hlistening]
        exact keeps_call fun _ _ => ⟨.refused 1, rfl, keeps_ret (.inr ⟨rfl, 0, rfl⟩)⟩
      · rw [if_neg hlistening, if_neg hlistening]
        exact keeps_call fun _ _ => ⟨.accepting, rfl, keeps_ret (.inl ⟨rfl, hfd⟩)⟩
  · rw [if_pos hfd]
    exact keeps_ret (.inr ⟨rfl, 1, rfl⟩)

theorem keeps_tcpInitAcceptSocket_stage (port : Bytes) :
    Keeps handlerStageSpec .preparing (tcpInitAcceptSocket port) fun fds l =>
      l = .reading 0 ∧ fds.2.1 ≠ nlosSocketErr ∨ fds.2.1 = nlosSocketErr ∧
        ∃ n, l = .refused (n + 1) := by
  refine keeps_bind ((keeps_tcpInitSocket_stage port).mono fun origSockFd l hl => ?_)
  rcases hl with ⟨rfl, hfd⟩ | ⟨rfl, n, rfl⟩
  · have hopen : origSockFd ≠ nlosSocketErr := by
      rintro rfl
      exact absurd hfd (by decide)
    rw [if_neg hopen]
    refine keeps_call fun r _ => ⟨_, rfl, ?_⟩
    simp only [ret_bind]
    by_cases hr : r.ret < 0
    · rw [if_pos hr, if_pos hr]
      exact keeps_ret (.inr ⟨rfl, 1, rfl⟩)
    · rw [if_neg hr, if_neg hr]
      refine keeps_ret (.inl ⟨rfl, ?_⟩)
      simp only [nlosSocketErr]
      omega
  · rw [if_pos rfl]
    exact keeps_ret (.inr ⟨rfl, n, rfl⟩)

/-- Executing a command takes two calls at most, and reads received bytes only. -/
theorem keeps_executeCommand_stage (commandBuffer : Buffer commandMaxRecv) (bytesReceived : Int) :
    Keeps handlerStageSpec (.reading 2) (executeCommand commandBuffer bytesReceived)
      fun _ l => ∃ n, l = .reading n := by
  have hread : ∀ i, i < commandMaxRecv → commandBuffer.read i ≠ none := fun i hi hnone =>
    absurd ((Buffer.read_eq_none_iff _ _).mp hnone) (not_le.mpr hi)
  simp only [executeCommand, bind_eq, perform_bind]
  refine keeps_call fun _ _ => ⟨.reading 1, rfl, ?_⟩
  split
  · refine keeps_bind
      (keeps_ofOption (fun b0 _ => ?_) fun hnone => absurd hnone (hread 0 (by decide)))
    split
    · refine keeps_bind (keeps_ofOption (fun command _ => ?_)
        fun hnone => absurd hnone (hread 1 (by decide)))
      refine keeps_bind (keeps_ofOption (fun b2 _ => ?_) fun hnone => absurd hnone
        (hread 2 (by decide)))
      split
      · exact keeps_call fun _ _ => ⟨.reading 0, rfl, keeps_ret ⟨0, rfl⟩⟩
      · exact keeps_ret ⟨1, rfl⟩
    · exact keeps_ret ⟨1, rfl⟩
  · exact keeps_ret ⟨1, rfl⟩

theorem keeps_receiveCommand_stage (newFd : Int) (inSet : Bool) :
    Keeps handlerStageSpec (if inSet then .receiving else .reading 3) (receiveCommand newFd inSet)
      fun _ l => ∃ n, l = .reading n := by
  cases inSet with
  | false => exact keeps_ret ⟨3, rfl⟩
  | true =>
    rw [if_pos rfl]
    have hrecv : ∀ r, HandlerStage.receiving.step (.recv newFd commandMaxRecv) r =
        some (if r.ret < 0 ∨ r.offer.length < commandMaxRecv then .reading 2 else .overrun) :=
      fun _ => by rw [HandlerStage.step, if_pos rfl]
    refine keeps_call fun r _ => ⟨_, hrecv r, ?_⟩
    simp only [ret_bind]
    by_cases hret : r.ret < 0
    · rw [if_pos (Or.inl hret), if_pos hret]
      exact keeps_ret ⟨2, rfl⟩
    · rw [if_neg hret]
      by_cases hfits : r.offer.length < commandMaxRecv
      · rw [if_pos (Or.inr hfits)]
        split
        · refine keeps_bind (keeps_ofOption (fun buffer _ => ?_) fun hnone => ?_)
          · exact keeps_executeCommand_stage buffer _
          · have hfull := (Delivery.write_terminator_eq_none_iff r.offer r.stale 0).mp hnone
            exact absurd hfits (not_lt.mpr hfull)
        · exact keeps_ret ⟨2, rfl⟩
      · -- the terminator is stored outside of the buffer
        rw [if_neg (not_or.mpr ⟨hret, hfits⟩)]
        have hfull : commandMaxRecv ≤ r.offer.length := not_lt.mp hfits
        have hpos : (Delivery.ofOffer commandMaxRecv r.offer r.stale).bytes.length > 0 := by
          rw [Delivery.ofOffer, List.length_take, Nat.min_eq_left hfull]
          decide
        rw [if_pos hpos, (Delivery.write_terminator_eq_none_iff r.offer r.stale 0).mpr hfull]
        exact keeps_fault rfl

/-- The command loop, after a first read of the flag. -/
theorem keeps_commandLoop_stage (newFd : Int) (runPlaceholder : Bool) :
    Keeps handlerStageSpec (if runPlaceholder then .reading 4 else .closing 2)
      (commandLoop newFd runPlaceholder) fun _ l => l = .closing 2 := by
  cases runPlaceholder with
  | false => exact keeps_ret rfl
  | true =>
    refine keeps_loop (· = .reading 4) rfl fun l hl r _ => ?_
    subst hl
    refine ⟨_, rfl, ?_⟩
    simp only [bind_eq, ask_bind, pure_eq]
    refine keeps_bind ((keeps_receiveCommand_stage newFd r.isSet).mono fun _ l hl => ?_)
    obtain ⟨n, rfl⟩ := hl
    refine keeps_call fun flag _ => ⟨_, rfl, ?_⟩
    cases flag.isSet with
    | true => exact keeps_ret rfl
    | false => exact keeps_ret (keeps_ret rfl)

theorem keeps_handlerStages :
    Keeps handlerStageSpec .preparing listenForCommands fun _ l => l.ends := by
  refine keeps_bind ((keeps_tcpInitAcceptSocket_stage commandPort).mono
    fun (sockFd, newFd, addr) l hl => ?_)
  dsimp only at hl ⊢
  rcases hl with ⟨rfl, hfd⟩ | ⟨hfd, n, rfl⟩
  · rw [if_neg hfd]
    simp only [bind_eq, ask_bind, perform_bind]
    refine keeps_call fun flag _ => ⟨_, rfl, ?_⟩
    refine keeps_bind ((keeps_commandLoop_stage newFd flag.isSet).mono fun _ l hl => ?_)
    subst hl
    exact keeps_call fun _ _ => ⟨.closing 1, rfl, keeps_call fun _ _ => ⟨.closing 0, rfl,
      keeps_ret trivial⟩⟩
  · rw [if_pos hfd]
    exact keeps_call fun _ _ => ⟨.refused n, rfl, keeps_ret trivial⟩

/-! ## 4. `connected_loop` -/

/-- The event that a device has disconnected is recognised. -/
theorem isType_of_tellsDisconnect {message stale : Bytes} (h : tellsDisconnect message = true) :
    isType (Delivery.ofOffer messageCap message stale) deviceDisconnected = true := by
  have hpre : deviceDisconnected <+: message.drop prefixLen := of_decide_eq_true h
  have hlen := length_of_type (by decide) hpre
  have htake : (Delivery.ofOffer messageCap message stale).bytes.drop prefixLen =
      (message.drop prefixLen).take (messageCap - prefixLen) := List.drop_take
  have hreach : prefixLen ≤ (Delivery.ofOffer messageCap message stale).bytes.length := by
    rw [Delivery.ofOffer, List.length_take]
    exact le_min (by decide) (Nat.le_of_add_right_le hlen)
  rw [isType_iff_received hreach, htake]
  refine List.prefix_of_prefix_length_le hpre (List.take_prefix _ _) ?_
  rw [List.length_take]
  exact le_min (by decide) hpre.length_le

/-- What the end of a round of `connected_loop` establishes. -/
abbrev WatcherStageRound : Option Unit → WatcherStage → Prop :=
  RoundPost watcherStageSpec (· = .head) (.ret : Unit → Drv Unit) fun _ k => k = .ended

theorem keeps_stopRound_stage : Keeps watcherStageSpec .judging stopRound WatcherStageRound := by
  refine keeps_call fun listening _ => ⟨_, rfl, ?_⟩
  cases listening.isSet with
  | true => exact keeps_ret rfl
  | false => exact keeps_call fun _ _ => ⟨.ended, rfl, keeps_ret (keeps_ret rfl)⟩

theorem keeps_disconnectRound_stage (m : Message) {k : WatcherStage}
    (hk : k = .judging ∨ k = .dropping 2) :
    Keeps watcherStageSpec k (disconnectRound m) WatcherStageRound := by
  have hdrop : ∀ (r : Answer), k.step (.print m.buffer.cells) r = some (.dropping 1) := by
    rcases hk with rfl | rfl <;> exact fun _ => rfl
  exact keeps_call fun r _ => ⟨_, hdrop r, keeps_call fun _ _ => ⟨.dropping 0, rfl,
    keeps_call fun _ _ => ⟨.ended, rfl, keeps_ret (keeps_ret rfl)⟩⟩⟩

theorem keeps_watcherStages :
    Keeps watcherStageSpec .head connectedLoop fun _ k => k = .ended := by
  refine keeps_forever (c := .wpaCtrlPending) (· = .head) rfl rfl fun k hk => ?_
  subst hk
  refine keeps_call fun pending _ => ⟨_, rfl, keeps_poll (fun hset => ?_) fun hset => ?_⟩
  · rw [hset]
    exact keeps_stopRound_stage
  · rw [if_pos hset]
    refine fun r _ => ⟨_, rfl, ?_⟩
    by_cases hret : r.ret < 0
    · rw [if_neg fun h => absurd h.1 (not_le.mpr hret), delivered, if_pos hret]
      exact keeps_stopRound_stage
    · rw [delivered, if_neg hret]
      dsimp only
      rw [bind_eq, testType_eq _ (by decide), ret_bind]
      by_cases htells : tellsDisconnect r.offer = true
      · rw [if_pos ⟨not_lt.mp hret, htells⟩, if_pos (isType_of_tellsDisconnect htells)]
        exact keeps_disconnectRound_stage _ (.inr rfl)
      · rw [if_neg fun h => htells h.2]
        -- a message shorter than its prefix may still be taken for the event
        split
        · exact keeps_disconnectRound_stage _ (.inl rfl)
        · exact keeps_stopRound_stage

/-! ## 5. What a step may be -/

/-- The calls that leave alone what the stages depend on. -/
def isAway : Call → Bool
  | .setControlData _ | .wpaCtrlRecv _ | .listen _ | .accept _ | .recv _ _ | .system _
  | .mark (.connectToDeviceReturned true) => false
  | _ => true

section Effect

variable {w : Surroundings} {c : Call} {r : Answer}

theorem effect_of_isAway (hc : isAway c = true) :
    (w.effect c r).events = w.events ∧ (w.effect c r).readable = w.readable ∧
      (w.effect c r).connections = w.connections ∧ (w.effect c r).joined = w.joined ∧
      (w.effect c r).gone = w.gone := by
  cases c with
  | mark m =>
    cases m with
    | connectToDeviceReturned connected =>
      cases connected <;> first | exact ⟨rfl, rfl, rfl, rfl, rfl⟩ | cases hc
    | _ => exact ⟨rfl, rfl, rfl, rfl, rfl⟩
  | _ => first | exact ⟨rfl, rfl, rfl, rfl, rfl⟩ | cases hc

theorem joined_of_effect (hc : c ≠ .mark (.connectToDeviceReturned true))
    (h : (w.effect c r).joined = true) : w.joined = true ∧ c ≠ startCall := by
  cases c with
  | mark m =>
    cases m with
    | connectToDeviceReturned connected =>
      cases connected with
      | true => exact absurd rfl hc
      | false => exact ⟨h, by simp [startCall]⟩
    | _ => exact ⟨h, by simp [startCall]⟩
  | system command =>
    by_cases hstart : Call.system command = startCall
    · have hnot : (w.effect (.system command) r).joined = false := by
        simp only [Surroundings.effect, if_pos hstart]
      rw [hnot] at h
      exact Bool.noConfusion h
    · refine ⟨?_, hstart⟩
      simpa only [Surroundings.effect, if_neg hstart] using h
  | wpaCtrlRecv replyLen =>
    refine ⟨?_, by simp [startCall]⟩
    unfold Surroundings.effect at h
    dsimp only at h
    split at h <;> exact h
  | _ => exact ⟨h, by simp [startCall]⟩

end Effect

section MainSteps

variable {m m' : MainStage} {c : Call} {r : Answer}

theorem searching_step_cases (h : MainStage.searching.step c r = some m') :
    (c = .mark (.connectToDeviceReturned true) ∧ m' = .connected) ∨
      (c ≠ .mark (.connectToDeviceReturned true) ∧ m' = .searching) := by
  by_cases hc : c = .mark (.connectToDeviceReturned true)
  · subst hc
    exact .inl ⟨rfl, (Option.some.inj h).symm⟩
  · refine .inr ⟨hc, ?_⟩
    have hstays : c.staysSearching = true := by
      unfold Call.staysSearching
      split
      · exact absurd rfl hc
      · rfl
    exact (Option.some.inj ((searching_step hstays r).symm.trans h)).symm

theorem away_of_isFollowUp (h : c.isFollowUp = true) : isAway c = true := by
  cases c with
  | mark m => cases m <;> first | rfl | exact Bool.noConfusion h
  | _ => first | rfl | exact Bool.noConfusion h

theorem connected_step (h : MainStage.connected.step c r = some m') :
    c = .mark .ipExchangeCalled ∧ m' = .resolving := by
  cases c with
  | mark m => cases m <;> first | exact ⟨rfl, (Option.some.inj h).symm⟩ | cases h
  | _ => cases h

theorem resolving_step (h : MainStage.resolving.step c r = some m') :
    ∃ port udp, c = .getaddrinfo port udp ∧ m' = if r.ret = 0 then .greeting else .greeted 9 := by
  cases c with
  | getaddrinfo port udp => exact ⟨port, udp, rfl, (Option.some.inj h).symm⟩
  | _ => cases h

/-- Before the hello every call but the receive may fail. -/
theorem greeting_step (h : MainStage.greeting.step c r = some m') :
    ((∃ udp, c = .socket udp) ∨ ∃ fd, c = .bind fd) ∧
      (m' = if r.ret < 0 then .greeted 9 else .greeting) ∨
    (∃ fd len, c = .recvfrom fd len ∧
      m' = if r.offer.length < len then .greeted 9 else .overrun) := by
  cases c with
  | socket udp => exact .inl ⟨.inl ⟨udp, rfl⟩, (Option.some.inj h).symm⟩
  | bind fd => exact .inl ⟨.inr ⟨fd, rfl⟩, (Option.some.inj h).symm⟩
  | recvfrom fd len => exact .inr ⟨fd, len, rfl, (Option.some.inj h).symm⟩
  | _ => cases h

theorem greeted_step {n : Nat} (h : (MainStage.greeted n).step c r = some m') :
    c = startCall ∧ m' = .searching ∨ c = .setListenForCommands true ∧ m' = .armed ∨
      c.isFollowUp = true ∧ ∃ n', n = n' + 1 ∧ m' = .greeted n' := by
  unfold MainStage.step at h
  split at h
  case h_8 heq => exact .inr (.inl ⟨rfl, (Option.some.inj h).symm⟩)
  case h_9 heq _ =>
    obtain rfl := MainStage.greeted.inj heq
    split at h
    · rename_i hc
      exact .inl ⟨hc, (Option.some.inj h).symm⟩
    · split at h
      · cases h
      · split at h
        · rename_i hc
          exact .inr (.inr ⟨hc, _, rfl, (Option.some.inj h).symm⟩)
        · cases h
  all_goals simp_all

theorem armed_step (h : MainStage.armed.step c r = some m') :
    c = .spawn .commandHandler ∧ m' = .handling := by
  cases c with
  | spawn t => cases t <;> first | exact ⟨rfl, (Option.some.inj h).symm⟩ | cases h
  | _ => cases h

theorem handling_step (h : MainStage.handling.step c r = some m') :
    c = .spawn .connectionListener ∧ m' = .watched := by
  cases c with
  | spawn t => cases t <;> first | exact ⟨rfl, (Option.some.inj h).symm⟩ | cases h
  | _ => cases h

theorem watched_step (h : MainStage.watched.step c r = some m') :
    c = .join .commandHandler ∧ m' = .joining := by
  cases c with
  | join t => cases t <;> first | exact ⟨rfl, (Option.some.inj h).symm⟩ | cases h
  | _ => cases h

theorem joining_step (h : MainStage.joining.step c r = some m') :
    c = .join .connectionListener ∧ m' = .rejoined 1 := by
  cases c with
  | join t => cases t <;> first | exact ⟨rfl, (Option.some.inj h).symm⟩ | cases h
  | _ => cases h

theorem rejoined_step {n : Nat} (h : (MainStage.rejoined n).step c r = some m') :
    c = startCall ∧ m' = .searching ∨ c = .controlData ∧ ∃ n', n = n' + 1 ∧ m' = .rejoined n' := by
  unfold MainStage.step at h
  split at h
  case h_14 heq =>
    obtain rfl := MainStage.rejoined.inj heq
    split at h
    · rename_i hc
      exact .inl ⟨hc, (Option.some.inj h).symm⟩
    · split at h
      · cases h
      · split at h
        · rename_i hc
          exact .inr ⟨hc, _, rfl, (Option.some.inj h).symm⟩
        · cases h
  all_goals simp_all

theorem overrun_step : MainStage.overrun.step c r = none := by
  cases c <;> rfl

/-- What `main` does between the return of `connect_loop` and the next search. -/
theorem main_step_away (hm : m ≠ .searching) (h : m.step c r = some m') :
    c = startCall ∧ m' = .searching ∨ isAway c = true ∧ m' ≠ .searching := by
  have haway : ∀ {m'' : MainStage}, isAway c = true → m' = m'' → m'' ≠ .searching →
      c = startCall ∧ m' = .searching ∨ isAway c = true ∧ m' ≠ .searching :=
    fun hc he hne => .inr ⟨hc, he ▸ hne⟩
  cases m with
  | searching => exact absurd rfl hm
  | connected =>
    obtain ⟨rfl, he⟩ := connected_step h
    exact haway rfl he (by simp)
  | resolving =>
    obtain ⟨_, _, rfl, he⟩ := resolving_step h
    refine haway rfl he ?_
    split <;> simp
  | greeting =>
    rcases greeting_step h with ⟨⟨_, rfl⟩ | ⟨_, rfl⟩, he⟩ | ⟨_, _, rfl, he⟩
    all_goals
      refine haway rfl he ?_
      split <;> simp
  | greeted n =>
    rcases greeted_step h with hstart | ⟨rfl, he⟩ | ⟨hc, _, -, he⟩
    · exact .inl hstart
    · exact haway rfl he (by simp)
    · exact haway (away_of_isFollowUp hc) he (by simp)
  | armed =>
    obtain ⟨rfl, he⟩ := armed_step h
    exact haway rfl he (by simp)
  | handling =>
    obtain ⟨rfl, he⟩ := handling_step h
    exact haway rfl he (by simp)
  | watched =>
    obtain ⟨rfl, he⟩ := watched_step h
    exact haway rfl he (by simp)
  | joining =>
    obtain ⟨rfl, he⟩ := joining_step h
    exact haway rfl he (by simp)
  | rejoined n =>
    rcases rejoined_step h with hstart | ⟨rfl, _, -, he⟩
    · exact .inl hstart
    · exact haway rfl he (by simp)
  | overrun =>
    rw [overrun_step] at h
    cases h

end MainSteps

section HandlerSteps

variable {l l' : HandlerStage} {n : Nat} {c : Call} {r : Answer}

/-- Before it listens every call of `listen_for_commands` may fail. -/
theorem preparing_step (h : HandlerStage.preparing.step c r = some l') :
    (∃ port udp, c = .getaddrinfo port udp ∧ l' = if r.ret = 0 then .preparing else .refused 2) ∨
    ((∃ udp, c = .socket udp) ∨ ∃ fd, c = .bind fd) ∧
      (l' = if r.ret < 0 then .refused 2 else .preparing) ∨
    (∃ fd, c = .listen fd ∧ l' = if r.ret < 0 then .refused 2 else .freeing) := by
  cases c with
  | getaddrinfo port udp => exact .inl ⟨port, udp, rfl, (Option.some.inj h).symm⟩
  | socket udp => exact .inr (.inl ⟨.inl ⟨udp, rfl⟩, (Option.some.inj h).symm⟩)
  | bind fd => exact .inr (.inl ⟨.inr ⟨fd, rfl⟩, (Option.some.inj h).symm⟩)
  | listen fd => exact .inr (.inr ⟨fd, rfl, (Option.some.inj h).symm⟩)
  | _ => cases h

theorem freeing_step (h : HandlerStage.freeing.step c r = some l') :
    c = .freeaddrinfo ∧ l' = .accepting := by
  cases c with
  | freeaddrinfo => exact ⟨rfl, (Option.some.inj h).symm⟩
  | _ => cases h

theorem accepting_step (h : HandlerStage.accepting.step c r = some l') :
    ∃ fd, c = .accept fd ∧ l' = if r.ret < 0 then .refused 2 else .reading 0 := by
  cases c with
  | accept fd => exact ⟨fd, rfl, (Option.some.inj h).symm⟩
  | _ => cases h

theorem refused_step (h : (HandlerStage.refused n).step c r = some l') :
    ∃ n', n = n' + 1 ∧ l' = .refused n' ∧ ((∃ fd, c = .close fd) ∨
      c = .setListenForCommands false) := by
  cases n with
  | zero => cases c <;> cases h
  | succ n =>
    cases c with
    | close fd => exact ⟨n, rfl, (Option.some.inj h).symm, .inl ⟨fd, rfl⟩⟩
    | setListenForCommands val =>
      cases val with
      | false => exact ⟨n, rfl, (Option.some.inj h).symm, .inr rfl⟩
      | true => cases h
    | _ => cases h

theorem reading_step (h : (HandlerStage.reading n).step c r = some l') :
    (c = .isListeningForCommands ∧ l' = if r.isSet then .reading 4 else .closing 2) ∨
    ∃ n', n = n' + 1 ∧
      ((∃ fd, c = .select fd) ∧ (l' = if r.isSet then .receiving else .reading n') ∨
        (c = .mark .executeCommand ∨ ∃ e, c = .execute e) ∧ l' = .reading n') := by
  cases n with
  | zero =>
    cases c with
    | isListeningForCommands => exact .inl ⟨rfl, (Option.some.inj h).symm⟩
    | mark m => cases m <;> cases h
    | _ => cases h
  | succ n =>
    cases c with
    | isListeningForCommands => exact .inl ⟨rfl, (Option.some.inj h).symm⟩
    | select fd => exact .inr ⟨n, rfl, .inl ⟨⟨fd, rfl⟩, (Option.some.inj h).symm⟩⟩
    | mark m =>
      cases m <;> first | exact .inr ⟨n, rfl, .inr ⟨.inl rfl, (Option.some.inj h).symm⟩⟩ | cases h
    | execute e => exact .inr ⟨n, rfl, .inr ⟨.inr ⟨e, rfl⟩, (Option.some.inj h).symm⟩⟩
    | _ => cases h

theorem receiving_step (h : HandlerStage.receiving.step c r = some l') :
    ∃ fd, c = .recv fd commandMaxRecv ∧
      l' = if r.ret < 0 ∨ r.offer.length < commandMaxRecv then .reading 2 else .overrun := by
  cases c with
  | recv fd len =>
    simp only [HandlerStage.step] at h
    split at h
    · rename_i hlen
      subst hlen
      exact ⟨fd, rfl, (Option.some.inj h).symm⟩
    · cases h
  | _ => cases h

theorem closing_step (h : (HandlerStage.closing n).step c r = some l') :
    ∃ n' fd, n = n' + 1 ∧ c = .close fd ∧ l' = .closing n' := by
  cases n with
  | zero => cases c <;> cases h
  | succ n =>
    cases c with
    | close fd => exact ⟨n, fd, rfl, rfl, (Option.some.inj h).symm⟩
    | _ => cases h

theorem handler_overrun_step : HandlerStage.overrun.step c r = none := by
  cases c <;> rfl

theorem handling_of_handler_step (h : l.step c r = some l') : c.isCommandHandling = true := by
  cases l with
  | preparing =>
    rcases preparing_step h with ⟨_, _, rfl, -⟩ | ⟨⟨_, rfl⟩ | ⟨_, rfl⟩, -⟩ | ⟨_, rfl, -⟩ <;> rfl
  | freeing => exact (freeing_step h).1 ▸ rfl
  | accepting =>
    obtain ⟨fd, rfl, -⟩ := accepting_step h
    rfl
  | refused n => obtain ⟨_, -, -, ⟨_, rfl⟩ | rfl⟩ := refused_step h <;> rfl
  | reading n =>
    rcases reading_step h with ⟨rfl, -⟩ | ⟨_, -, ⟨⟨_, rfl⟩, -⟩ | ⟨rfl | ⟨_, rfl⟩, -⟩⟩ <;> rfl
  | receiving =>
    obtain ⟨_, rfl, -⟩ := receiving_step h
    rfl
  | closing n =>
    obtain ⟨_, _, -, rfl, -⟩ := closing_step h
    rfl
  | overrun =>
    rw [handler_overrun_step] at h
    cases h

end HandlerSteps

section WatcherSteps

variable {k k' : WatcherStage} {n : Nat} {c : Call} {r : Answer}

theorem head_step (h : WatcherStage.head.step c r = some k') :
    c = .wpaCtrlPending ∧ k' = if r.isSet then .fetching else .judging := by
  cases c with
  | wpaCtrlPending => exact ⟨rfl, (Option.some.inj h).symm⟩
  | _ => cases h

theorem fetching_step (h : WatcherStage.fetching.step c r = some k') :
    ∃ len, c = .wpaCtrlRecv len ∧
      k' = if 0 ≤ r.ret ∧ tellsDisconnect r.offer = true then .dropping 2 else .judging := by
  cases c with
  | wpaCtrlRecv len => exact ⟨len, rfl, (Option.some.inj h).symm⟩
  | _ => cases h

theorem judging_step (h : WatcherStage.judging.step c r = some k') :
    (c = .isListeningForCommands ∧ k' = if r.isSet then .head else .leaving) ∨
      (∃ buffer, c = .print buffer) ∧ k' = .dropping 1 := by
  cases c with
  | isListeningForCommands => exact .inl ⟨rfl, (Option.some.inj h).symm⟩
  | print buffer => exact .inr ⟨⟨buffer, rfl⟩, (Option.some.inj h).symm⟩
  | _ => cases h

theorem dropping_step (h : (WatcherStage.dropping n).step c r = some k') :
    (∃ n', n = n' + 1 ∧ k' = .dropping n' ∧
      ((∃ buffer, c = .print buffer) ∨ c = .setConnectionIsValid false)) ∨
    c = .setListenForCommands false ∧ k' = .ended := by
  cases c with
  | print buffer =>
    cases n with
    | zero => cases h
    | succ n => exact .inl ⟨n, rfl, (Option.some.inj h).symm, .inl ⟨buffer, rfl⟩⟩
  | setConnectionIsValid val =>
    cases n <;> cases val <;>
      first | exact .inl ⟨_, rfl, (Option.some.inj h).symm, .inr rfl⟩ | cases h
  | setListenForCommands val =>
    cases n <;> cases val <;> first | exact .inr ⟨rfl, (Option.some.inj h).symm⟩ | cases h
  | _ => cases n <;> cases h

theorem leaving_stage_step (h : WatcherStage.leaving.step c r = some k') :
    c = .setConnectionIsValid false ∧ k' = .ended := by
  cases c with
  | setConnectionIsValid val =>
    cases val <;> first | exact ⟨rfl, (Option.some.inj h).symm⟩ | cases h
  | _ => cases h

theorem ended_step : WatcherStage.ended.step c r = none := by
  cases c <;> rfl

/-- What `connected_loop` does: it fetches a message, or leaves the queue alone. -/
theorem watcher_step_away (h : k.step c r = some k') :
    (k = .fetching ∧ ∃ len, c = .wpaCtrlRecv len) ∨
      isAway c = true ∧ c ≠ .setListenForCommands true ∧ process.spawns c = none ∧
        process.joins c = none := by
  cases k with
  | head =>
    obtain ⟨rfl, -⟩ := head_step h
    exact .inr ⟨rfl, by simp, rfl, rfl⟩
  | fetching =>
    obtain ⟨len, rfl, -⟩ := fetching_step h
    exact .inl ⟨rfl, len, rfl⟩
  | judging =>
    rcases judging_step h with ⟨rfl, -⟩ | ⟨⟨_, rfl⟩, -⟩ <;> exact .inr ⟨rfl, by simp, rfl, rfl⟩
  | dropping n =>
    rcases dropping_step h with ⟨_, -, -, ⟨_, rfl⟩ | rfl⟩ | ⟨rfl, -⟩ <;>
      exact .inr ⟨rfl, by simp, rfl, rfl⟩
  | leaving =>
    obtain ⟨rfl, -⟩ := leaving_stage_step h
    exact .inr ⟨rfl, by simp, rfl, rfl⟩
  | ended =>
    rw [ended_step] at h
    cases h

end WatcherSteps

end RecoveryLemmas

end P2pDriver
