import P2pDriver.SessionMachine
import P2pDriver.Library.Decimal

/-!
# What a client reads in a confirm message

A client may not know its own address: it broadcasts, and takes its address from the
confirm message. So the message has to give back the address it was made from, and has
to be sent to the peer that has it.

Results:
1. `readConfirm_getConfirmMessage`: a confirm message gives back its address.
2. `confirms_peer`: in every run of the process all that is sent to a peer is confirm
   messages, each of which gives back the address of the peer last heard from.
-/

namespace P2pDriver

open Resumable Prog SessionMachineLemmas

/-! ## 1. Reading a confirm message -/

/-- A number of one byte. -/
def readByte (l : Bytes) : Option (Byte × Bytes) :=
  match Decimal.read l with
  | some (n, rest) => if n < 256 then some (n.toUInt8, rest) else none
  | none => none

/-- What is behind the dot a text begins with. -/
def readDot : Bytes → Option Bytes
  | 46 :: rest => some rest
  | _ => none

/-- An address in dotted decimal notation. -/
def readAddress (l : Bytes) : Option (Ipv4 × Bytes) := do
  let (a, l) ← readByte l
  let (b, l) ← readByte (← readDot l)
  let (c, l) ← readByte (← readDot l)
  let (d, l) ← readByte (← readDot l)
  return (⟨a, b, c, d⟩, l)

/-- The address in a confirm message, which a line end may close. -/
def readConfirm (msg : Bytes) : Option Ipv4 :=
  if confirmConnectionMsg ++ bytes " " <+: msg then
    match readAddress (msg.drop (confirmConnectionMsg ++ bytes " ").length) with
    | some (addr, rest) => if rest = [] ∨ rest = bytes "\n" then some addr else none
    | none => none
  else none

namespace ConfirmMessageLemmas

/-- No digit follows. -/
def Ends (rest : Bytes) : Prop := ∀ b ∈ rest.head?, Decimal.isDigit b = false

theorem decimal_eq (b : Byte) : decimal b = Decimal.digits b.toNat := by
  simp [decimal, bytes, Decimal.digits, Nat.toList_repr]

theorem readByte_decimal (b : Byte) {rest : Bytes} (h : Ends rest) :
    readByte (decimal b ++ rest) = some (b, rest) := by
  unfold readByte
  rw [decimal_eq, Decimal.read_digits b.toNat h]
  dsimp only
  rw [if_pos b.toNat_lt, Nat.toUInt8_eq, UInt8.ofNat_toNat]

theorem readAddress_getSockaddrIp (addr : Ipv4) {rest : Bytes} (h : Ends rest) :
    readAddress (getSockaddrIp addr ++ rest) = some (addr, rest) := by
  have hdot : ∀ l : Bytes, Ends (bytes "." ++ l) := by
    intro l b hb
    obtain rfl : (46 : UInt8) = b := by simpa [bytes] using hb
    decide
  have hread : ∀ l : Bytes, readDot (bytes "." ++ l) = some l := fun l => rfl
  unfold readAddress getSockaddrIp
  simp only [List.append_assoc, Option.bind_eq_bind, Option.pure_def, Option.bind_some,
    readByte_decimal _ (hdot _), hread, readByte_decimal _ h]

end ConfirmMessageLemmas

open ConfirmMessageLemmas

/-- A confirm message gives back the address it was made from. -/
theorem readConfirm_getConfirmMessage (addr : Ipv4) (addNewlineChar : Bool) :
    readConfirm (getConfirmMessage (getSockaddrIp addr) addNewlineChar) = some addr := by
  have hmsg : getConfirmMessage (getSockaddrIp addr) addNewlineChar =
      (confirmConnectionMsg ++ bytes " ") ++
        (getSockaddrIp addr ++ if addNewlineChar then bytes "\n" else []) := by
    simp [getConfirmMessage]
  have hends : Ends (if addNewlineChar then bytes "\n" else []) := by
    intro b hb
    cases addNewlineChar with
    | true =>
      obtain rfl : (10 : UInt8) = b := by simpa [bytes] using hb
      decide
    | false => cases hb
  unfold readConfirm
  rw [hmsg, if_pos (List.prefix_append _ _), List.drop_left, readAddress_getSockaddrIp addr hends]
  cases addNewlineChar <;> rfl

/-! ## 2. What is sent to a peer -/

/-- What a call sends: through which descriptor, to whom if it says so, and the text. -/
def Call.sends : Call → Option (Int × Option Ipv4 × Bytes)
  | .sendto fd addr message => some (fd, some addr, message)
  | .send fd message => some (fd, none, message)
  | _ => none

/-- The peer last heard from, and the descriptor that leads to it. -/
def heardAfter (heard : Option (Int × Ipv4)) : Call → Answer → Option (Int × Ipv4)
  | .recvfrom fd _, r => if r.ret < 0 then none else some (fd, r.addr)
  | .accept _, r => if r.ret < 0 then none else some (r.ret, r.addr)
  | _, _ => heard

/-- A text that is sent gives back the address of the peer last heard from, and is sent to
it. Nothing is sent through -1. -/
def confirms (heard : Option (Int × Ipv4)) (c : Call) : Prop :=
  ∀ fd dest message, c.sends = some (fd, dest, message) → 0 ≤ fd →
    ∃ addr, heard = some (fd, addr) ∧ readConfirm message = some addr ∧ ∀ peer ∈ dest, peer = addr

open Classical in
/-- The monitor that remembers the peer. -/
noncomputable def confirmSpec : Spec Call Answer (Option (Int × Ipv4)) where
  admits _ _ _ := True
  step heard c r := if confirms heard c then some (heardAfter heard c r) else none
  faults _ := True

namespace ConfirmMessageLemmas

variable {heard : Option (Int × Ipv4)} {c : Call}

theorem confirms_of_silent (hc : c.sends = none) : confirms heard c := by
  intro fd dest message hsends
  cases hc.symm.trans hsends

theorem step_confirms {r : Answer} (h : confirms heard c) :
    confirmSpec.step heard c r = some (heardAfter heard c r) := if_pos h

theorem confirms_of_step {r : Answer} {heard' : Option (Int × Ipv4)}
    (h : confirmSpec.step heard c r = some heard') :
    confirms heard c ∧ heard' = heardAfter heard c r := by
  simp only [confirmSpec] at h
  split at h
  · rename_i hc
    exact ⟨hc, (Option.some.inj h).symm⟩
  · cases h

/-- A call that sends nothing. -/
theorem keeps_silent_call {α : Type} {k : Answer → Drv α} {Q : α → Option (Int × Ipv4) → Prop}
    (hc : c.sends = none) (h : ∀ r, Keeps confirmSpec (heardAfter heard c r) (k r) Q) :
    Keeps confirmSpec heard (.call c k) Q :=
  keeps_call fun r _ => ⟨_, step_confirms (confirms_of_silent hc), h r⟩

/-- A program that sends nothing. -/
theorem keeps_silent {α : Type} {F : Prop} {p : Drv α} (h : Only (fun c => c.sends.isNone) F p) :
    Keeps confirmSpec heard p fun _ _ => True :=
  h.keeps_inv (fun _ => True) trivial
    (fun _ _ _ _ hc _ => ⟨_, step_confirms (confirms_of_silent (by simpa using hc)), trivial⟩)
    fun _ _ _ => trivial

theorem silent_of_isSocketSetup (hc : c.isSocketSetup = true) : c.sends = none := by
  cases c <;> first | rfl | exact Bool.noConfusion hc

theorem keeps_udpConfirms : Keeps confirmSpec heard udpConnectionHandshake fun _ _ => True := by
  have hinit := SocketLemmas.only_udpInitSocket (F := False) (P := fun c => c.sends.isNone)
    (fun c hc => by simp [silent_of_isSocketSetup hc]) generalPort
  refine keeps_bind ((keeps_silent hinit).mono fun sockFd heard₁ _ => ?_)
  split
  · exact keeps_ret trivial
  · simp only [udpReceiveMsg, bind_eq, ask_bind, call_bind]
    refine keeps_silent_call rfl fun r => ?_
    split
    · refine keeps_silent_call rfl fun _ => ?_
      simp only [pure_eq, ret_bind, nlosRecvErr]
      exact keeps_silent_call rfl fun _ => keeps_ret trivial
    · rename_i hret
      refine keeps_bind
        (keeps_bind (keeps_ofOption (fun buffer _ => keeps_ret ?_) fun _ => trivial))
      dsimp only
      rw [if_neg (by omega)]
      have hheard : heardAfter heard₁ (.recvfrom sockFd maxRecv) r = some (sockFd, r.addr) :=
        if_neg hret
      rw [hheard]
      -- both messages are sent to the sender of the datagram
      have hsend : confirms (some (sockFd, r.addr))
          (.sendto sockFd r.addr (getConfirmMessage (getSockaddrIp r.addr) false)) := by
        rintro fd dest message ⟨⟩ -
        exact ⟨r.addr, rfl, readConfirm_getConfirmMessage r.addr false, by simp⟩
      refine keeps_silent_call rfl fun _ => keeps_silent_call rfl fun _ => ?_
      refine keeps_silent_call rfl fun _ => keeps_call fun _ _ => ⟨_, step_confirms hsend, ?_⟩
      refine keeps_silent_call rfl fun _ => keeps_call fun _ _ => ⟨_, step_confirms hsend, ?_⟩
      exact keeps_silent_call rfl fun _ => keeps_ret trivial

theorem keeps_tcpInitAcceptSocket (port : Bytes) :
    Keeps confirmSpec heard (tcpInitAcceptSocket port)
    fun (_, newFd, addr) heard' => newFd < 0 ∨ heard' = some (newFd, addr) := by
  have hinit := SocketLemmas.only_tcpInitSocket (F := False) (P := fun c => c.sends.isNone)
    (fun c hc => by simp [silent_of_isSocketSetup (SocketLemmas.setup_of_opening hc)]) port
  refine keeps_bind ((keeps_silent hinit).mono fun origSockFd heard₁ _ => ?_)
  have hneg : nlosSocketErr < 0 := by decide
  split
  · exact keeps_ret (.inl hneg)
  · refine keeps_silent_call rfl fun r => ?_
    simp only [ret_bind]
    split
    · exact keeps_ret (.inl hneg)
    · rename_i hret
      exact keeps_ret (.inr (if_neg hret))

theorem keeps_tcpConfirms : Keeps confirmSpec heard tcpConnectionHandshake fun _ _ => True := by
  refine keeps_bind
    ((keeps_tcpInitAcceptSocket generalPort).mono fun (sockFd, newFd, addr) heard₁ hheard => ?_)
  refine keeps_silent_call rfl fun _ => keeps_silent_call rfl fun r => ?_
  simp only [ret_bind]
  split
  · exact keeps_silent_call rfl fun _ => keeps_silent_call rfl fun _ => keeps_ret trivial
  · have hsend : confirms heard₁ (.send newFd (getConfirmMessage (getSockaddrIp addr) true)) := by
      rintro fd dest message ⟨⟩ hfd
      rcases hheard with hneg | rfl
      · exact absurd hfd (Int.not_le.mpr hneg)
      · exact ⟨addr, rfl, readConfirm_getConfirmMessage addr true, by simp⟩
    refine keeps_silent_call rfl fun _ => keeps_call fun _ _ => ⟨_, step_confirms hsend, ?_⟩
    exact keeps_silent_call rfl fun _ => keeps_silent_call rfl fun _ => keeps_ret trivial

theorem keeps_callConfirms (ip : IpExchange) :
    Keeps confirmSpec heard (callIpExchange ip) fun _ _ => True := by
  simp only [callIpExchange, bind_eq, perform_bind]
  refine keeps_silent_call rfl fun _ => keeps_bind ?_
  have hexchange : Keeps confirmSpec heard (ipExchangeFun ip) fun _ _ => True := by
    cases ip with
    | udp => exact keeps_udpConfirms
    | tcp => exact keeps_tcpConfirms
  exact hexchange.mono fun _ _ _ => keeps_silent_call rfl fun _ => keeps_ret trivial

/-- `connect_loop` and the handshake behind it. -/
theorem keeps_attemptConfirms {α : Type} {ip : IpExchange} {k : Bool → Drv α}
    {Q : α → Option (Int × Ipv4) → Prop}
    (h : ∀ success heard', Keeps confirmSpec heard' (k success) Q) :
    Keeps confirmSpec heard (connectLoop.bind fun _ => (callIpExchange ip).bind k) Q := by
  have hsearch : Only (fun c => c.sends.isNone) True connectLoop :=
    ConnectLemmas.only_connectLoop fun c hc => by
      cases c <;> first | rfl | exact Bool.noConfusion hc
  refine keeps_bind ((keeps_silent hsearch).mono fun _ heard₁ _ => ?_)
  exact keeps_bind ((keeps_callConfirms ip).mono fun success heard₂ _ => h success heard₂)

theorem keeps_mainConfirms (ip : IpExchange) :
    Keeps confirmSpec none ((main ip).bind fun _ => .ret ()) fun _ _ => True := by
  have hinit : Only (fun c => c.sends.isNone) False initAndAttachCtrl :=
    DriverLemmas.only_initAndAttachCtrl fun c hc => by
      cases c <;> first | rfl | exact Bool.noConfusion hc
  have hsignals : Only (fun c => c.sends.isNone) False initTerminationSignals :=
    DriverLemmas.only_initTerminationSignals fun _ => rfl
  have henter : Only (fun c => c.sends.isNone) False enterConnectedState :=
    only_call rfl fun _ => only_call rfl fun _ => only_call rfl fun _ => only_call rfl fun _ =>
      only_call rfl fun _ => only_call rfl fun _ => only_ret _
  refine keeps_bind (keeps_bind ((keeps_silent hinit).mono fun _ heard₁ _ => ?_))
  refine keeps_silent_call rfl fun control => ?_
  simp only [ret_bind]
  split
  · exact keeps_ret (keeps_ret trivial)
  · refine keeps_bind ((keeps_silent hsignals).mono fun _ heard₂ _ => ?_)
    have hmaster : Keeps confirmSpec heard₂ (masterLoop ip) fun _ _ => True := by
      refine keeps_forever (fun _ => True) trivial rfl fun heard₃ _ => ?_
      refine keeps_attemptConfirms fun success heard₄ => keeps_bind ?_
      have hretry : Keeps confirmSpec heard₄ (retryHandshake ip success) fun _ _ => True := by
        unfold retryHandshake
        split
        · exact keeps_ret trivial
        · refine keeps_forever (fun _ => True) trivial rfl fun heard₅ _ => ?_
          refine keeps_attemptConfirms fun success heard₆ => ?_
          cases success with
          | true => exact keeps_ret (keeps_ret trivial)
          | false => exact keeps_ret trivial
      refine hretry.mono fun _ heard₅ _ => keeps_bind ?_
      exact (keeps_silent henter).mono fun _ _ _ => keeps_ret trivial
    exact hmaster.mono fun _ _ _ => keeps_ret trivial

/-- The calls that neither send nor start a thread. -/
def isMute (c : Call) : Bool := c.sends.isNone && (process.spawns c).isNone

theorem mute_of_isWorker (h : c.isWorker = true) : isMute c = true := by
  cases c <;> first | rfl | exact Bool.noConfusion h

/-- What the session threads call, with their signal handlers. -/
theorem mute_of_mem {ip : IpExchange} {ls : List Move} {C : State}
    (hrun : process.run (initial ip) ls = some C) {t : Thread} (ht : t ≠ .main) {c : Call}
    {r : Answer} (hmem : .call t c r ∈ ls) : isMute c = true := by
  have hnone : (initial ip).threads t = none := by
    cases t with
    | main => exact absurd rfl ht
    | commandHandler => rfl
    | connectionListener => rfl
  have hcalls := (System.watched_run (Q := fun _ => True) DriverLemmas.only_signalCallbackHandler
    ((ProcessLemmas.only_threadBody t).weaken (fun _ => mute_of_isWorker) id)
    (fun s hs => absurd (hs.symm.trans hnone) (Option.some_ne_none s)) hrun
    fun _ _ _ _ => trivial).2 c r hmem
  rcases hcalls with hdisposal | ⟨_, _, hstep⟩
  · cases c <;> first | rfl | exact Bool.noConfusion hdisposal
  · by_contra hno
    rw [onlySpec] at hstep
    simp [hno] at hstep

end ConfirmMessageLemmas

/-- In every run of the process, all that is sent through a socket is sent by `main`, to the
peer it has last heard from, and gives back the address of that peer. -/
theorem confirms_peer {ip : IpExchange} {before after : List Move} {t : Thread} {c : Call}
    {r : Answer} {C : State}
    (hrun : process.run (initial ip) (before ++ .call t c r :: after) = some C) {fd : Int}
    {dest : Option Ipv4} {message : Bytes} (hsends : c.sends = some (fd, dest, message))
    (hfd : 0 ≤ fd) :
    t = .main ∧ ∃ addr, System.follow heardAfter .main none before = some (fd, addr) ∧
      readConfirm message = some addr ∧ ∀ peer ∈ dest, peer = addr := by
  have hmem : (.call t c r : Move) ∈ before ++ .call t c r :: after := by simp
  have ht : t = .main := by
    by_contra ht
    have hmute := mute_of_mem hrun ht hmem
    rw [isMute, hsends] at hmute
    cases hmute
  subst ht
  refine ⟨rfl, ?_⟩
  have hfollowed := System.followed_run (t := .main) (m := none) (Q := fun _ => True)
    (fun _ _ _ _ h => (confirms_of_step h).2) (fun heard c r hc => ?_)
    DriverLemmas.only_signalCallbackHandler ?_ hrun ?_ fun _ _ _ _ => trivial
  · rcases hfollowed.2 before c r after rfl with hdisposal | ⟨_, hstep⟩
    · cases c <;> first | (cases hsends; done) | exact Bool.noConfusion hdisposal
    · exact (confirms_of_step hstep).1 fd dest message hsends hfd
  · cases c <;> first | rfl | exact Bool.noConfusion hc
  · intro s hs
    obtain rfl : _ = s := Option.some.inj hs
    exact ⟨keeps_mainConfirms ip, fun _ hx => absurd hx List.not_mem_nil⟩
  · intro u c' r' hmem' hu
    have hmute := mute_of_mem hrun hu hmem'
    have hnone := Option.isNone_iff_eq_none.mp (Bool.and_eq_true_iff.mp hmute).2
    rw [hnone]
    exact Option.some_ne_none _ |>.symm

/-- `main` until it sends the first confirm message. -/
def sampleHeard : List Move := movesOf .main (main .udp)
  [{}, { handle := some 7 }, {}, {}, { handle := some 7 }, {}, {}, {}, {}, {}, {},
    { handle := some 7 }, {}, { isSet := true },
    { offer := bytes "<3>P2P-GO-NEG-REQUEST 02:00:00:00:00:01" }, {}, { isSet := true },
    { offer := bytes "<3>P2P-GROUP-STARTED p2p-wlan0-0 GO" }, {}, {}, {}, {}, {}, { ret := 3 }, {},
    { ret := 5, offer := bytes "HELLO", addr := ⟨192, 168, 49, 23⟩ }, {}, {}, {}]

theorem sampleHeard_confirmed : Thread.main = .main ∧ ∃ addr,
    System.follow heardAfter .main none sampleHeard = some (3, addr) ∧
      readConfirm (bytes "NLOS_CONNECTION_CONFIRM 192.168.49.23") = some addr ∧
      ∀ peer ∈ some (⟨192, 168, 49, 23⟩ : Ipv4), peer = addr := by
  let sent : Call := .sendto 3 ⟨192, 168, 49, 23⟩ (bytes "NLOS_CONNECTION_CONFIRM 192.168.49.23")
  have hsome :
      (process.run (initial .udp) (sampleHeard ++ .call .main sent {} :: [])).isSome = true := by
    decide +kernel
  obtain ⟨C, hrun⟩ := Option.isSome_iff_exists.mp hsome
  exact confirms_peer hrun rfl (by decide)

end P2pDriver
