import P2pDriver.Calls
import P2pDriver.Library.Monitor

/-!
# The sockets and the two handshakes

The helpers of `p2p_go_socket_utils.cpp`, `udp_p2p_go_socket.cpp` and
`tcp_p2p_go_socket.cpp`, and `udp_connection_handshake` and
`tcp_connection_handshake` of `ip_exchanger.cpp`. Fixed texts printed to
`std::cout` are left out; inserting a receive buffer is not.

Results:
1. `only_tcpInitAcceptSocket`, `only_ipExchangeFun`: the calls these functions make.
-/

namespace P2pDriver

open Resumable Prog

/-! ## 1. Constants -/

def generalPort : Bytes := bytes "8988"
def commandPort : Bytes := bytes "8488"
def maxRecv : Nat := 1024
def nlosSocketErr : Int := -1
def nlosRecvErr : Int := -2
def confirmConnectionMsg : Bytes := bytes "NLOS_CONNECTION_CONFIRM"

/-- `MAX_CONFIRM_MSGS` of `ip_exchanger.cpp`. -/
def maxConfirmMsgs : Nat := 2

/-! ## 2. `p2p_go_socket_utils.cpp` -/

/-- The decimal digits of a byte. -/
def decimal (b : Byte) : Bytes := bytes (toString b.toNat)

/-- `get_sockaddr_ip`: `inet_ntop` of the address. -/
def getSockaddrIp (addr : Ipv4) : Bytes :=
  decimal addr.a ++ bytes "." ++ decimal addr.b ++ bytes "." ++ decimal addr.c ++ bytes "." ++
    decimal addr.d

def getConfirmMessage (ipAddress : Bytes) (addNewlineChar : Bool) : Bytes :=
  confirmConnectionMsg ++ bytes " " ++ ipAddress ++ if addNewlineChar then bytes "\n" else []

/-- `udp_fill_addr_info` and `tcp_fill_addr_info`. -/
def fillAddrInfo (port : Bytes) (udp : Bool) : Drv Bool :=
  .call (.getaddrinfo port udp) fun addrFilled => .ret (addrFilled.ret = 0)

def openSocket (port : Bytes) (udp : Bool) : Drv Int := do
  if ← fillAddrInfo port udp then .call (.socket udp) fun sockFd => .ret sockFd.ret
  else return -1

/-! ## 3. `udp_p2p_go_socket.cpp` -/

def udpInitSocket (port : Bytes) : Drv Int := do
  let sockFd ← openSocket port true
  if sockFd < 0 then return nlosSocketErr
  else
    let bound ← .ask (.bind sockFd)
    if bound.ret < 0 then
      perform (.close sockFd)
      return nlosSocketErr
    else return sockFd

def udpSendString (sockFd : Int) (udpClientAddr : Ipv4) (message : Bytes) : Drv Int :=
  .call (.sendto sockFd udpClientAddr message) fun bytesSent => .ret bytesSent.ret

/-- `udp_receive_msg`: the count or an error, the buffer as it is left, and the
sender. The terminating NUL is stored behind the bytes received. -/
def udpReceiveMsg (sockFd : Int) : Drv (Int × Buffer maxRecv × Ipv4) := do
  let r ← .ask (.recvfrom sockFd maxRecv)
  let received := Delivery.ofOffer maxRecv r.offer r.stale
  if r.ret < 0 then
    perform (.close sockFd)
    return (nlosRecvErr, received.buffer, r.addr)
  else
    let buffer ← .ofOption (received.buffer.write received.bytes.length 0)
    return (received.bytes.length, buffer, r.addr)

/-! ## 4. `tcp_p2p_go_socket.cpp` -/

def tcpSendString (sockFd : Int) (message : Bytes) : Drv Int :=
  .call (.send sockFd message) fun bytesSent => .ret bytesSent.ret

def tcpInitSocket (port : Bytes) : Drv Int := do
  let sockFd ← openSocket port false
  if sockFd < 0 then return nlosSocketErr
  else
    let bound ← .ask (.bind sockFd)
    if bound.ret < 0 then
      perform (.close sockFd)
      return nlosSocketErr
    else
      let listening ← .ask (.listen sockFd)
      if listening.ret < 0 then
        perform (.close sockFd)
        return nlosSocketErr
      else
        perform .freeaddrinfo
        return sockFd

/-- `tcp_init_accept_socket`: the value left in `*orig_sock_fd`, the descriptor
returned, and the client. -/
def tcpInitAcceptSocket (port : Bytes) : Drv (Int × Int × Ipv4) := do
  let origSockFd ← tcpInitSocket port
  if origSockFd = nlosSocketErr then return (origSockFd, nlosSocketErr, Ipv4.zero)
  else
    let r ← .ask (.accept origSockFd)
    if r.ret < 0 then return (origSockFd, nlosSocketErr, Ipv4.zero)
    else return (origSockFd, r.ret, r.addr)

/-! ## 5. `ip_exchanger.cpp` -/

/-- One confirm message, a quarter of a second after the last one. -/
def sendConfirm (sockFd : Int) (addr : Ipv4) (confirmMessage : Bytes) : Drv Unit := do
  perform (.sleepFor 250)
  let _ ← udpSendString sockFd addr confirmMessage
  return ()

def udpConnectionHandshake : Drv Bool := do
  let sockFd ← udpInitSocket generalPort
  if sockFd < 0 then return false
  else
    let (received, buffer, addr) ← udpReceiveMsg sockFd
    if received < 0 then
      perform (.close sockFd)
      return false
    else
      let clientIp := getSockaddrIp addr
      perform (.setClientIp clientIp)
      perform (.print buffer.cells)
      .times maxConfirmMsgs (sendConfirm sockFd addr (getConfirmMessage clientIp false))
      perform (.close sockFd)
      return true

def tcpConnectionHandshake : Drv Bool := do
  let (sockFd, newFd, addr) ← tcpInitAcceptSocket generalPort
  let clientIp := getSockaddrIp addr
  perform (.setClientIp clientIp)
  let r ← .ask (.recv newFd maxRecv)
  if r.ret < 0 then
    perform (.close newFd)
    perform (.close sockFd)
    return false
  else
    perform (.print (Delivery.ofOffer maxRecv r.offer r.stale).buffer.cells)
    let bytesSent ← tcpSendString newFd (getConfirmMessage clientIp true)
    perform (.close newFd)
    perform (.close sockFd)
    return bytesSent > 0

/-- The two admissible values of `ip_exchange_fun`. -/
inductive IpExchange where
  | udp
  | tcp
deriving DecidableEq, Repr

def ipExchangeFun : IpExchange → Drv Bool
  | .udp => udpConnectionHandshake
  | .tcp => tcpConnectionHandshake

/-! ## 6. Which calls they make -/

/-- The calls that set up a socket. -/
def Call.isSocketSetup : Call → Bool
  | .getaddrinfo _ _ | .freeaddrinfo | .socket _ | .bind _ | .listen _ | .accept _
  | .close _ => true
  | _ => false

/-- Those of them before a client is accepted. -/
def Call.isSocketOpening : Call → Bool
  | .accept _ => false
  | c => c.isSocketSetup

/-- The calls of a handshake. -/
def Call.isHandshake : Call → Bool
  | .recv _ _ | .recvfrom _ _ | .send _ _ | .sendto _ _ _ | .sleepFor _ | .setClientIp _
  | .print _ => true
  | c => c.isSocketSetup

namespace SocketLemmas

theorem setup_of_opening {c : Call} (h : c.isSocketOpening = true) : c.isSocketSetup = true := by
  cases c <;> first | exact h | exact Bool.noConfusion h

/-- Opening a socket, for a monitor with one state where it is open so far and one
where it has failed. -/
theorem keeps_openSocket_of {M : Type} {S : Spec Call Answer M} {start opened failed : M}
    {port : Bytes} {udp : Bool}
    (hfilled : ∀ r, S.step start (.getaddrinfo port udp) r =
      some (if r.ret = 0 then opened else failed))
    (hsocket : ∀ r, S.step opened (.socket udp) r = some (if r.ret < 0 then failed else opened)) :
    Keeps S start (openSocket port udp) fun sockFd m =>
      0 ≤ sockFd ∧ m = opened ∨ sockFd < 0 ∧ m = failed := by
  simp only [openSocket, fillAddrInfo, bind_eq, call_bind, ret_bind]
  refine keeps_call fun filled _ => ⟨_, hfilled filled, ?_⟩
  by_cases hzero : filled.ret = 0
  · rw [if_pos (decide_eq_true hzero), if_pos hzero]
    refine keeps_call fun sockFd _ => ⟨_, hsocket sockFd, keeps_ret ?_⟩
    by_cases hfd : sockFd.ret < 0
    · exact .inr ⟨hfd, if_pos hfd⟩
    · exact .inl ⟨Int.not_lt.mp hfd, if_neg hfd⟩
  · rw [if_neg hzero, if_neg (by simpa using hzero)]
    exact keeps_ret (.inr ⟨by decide, rfl⟩)

section Opening

variable {P : Call → Bool} {F : Prop} (hP : ∀ c, c.isSocketOpening = true → P c = true)
include hP

theorem only_openSocket (port : Bytes) (udp : Bool) : Only P F (openSocket port udp) := by
  refine only_call (hP _ rfl) fun r => ?_
  simp only [ret_bind]
  split
  · exact only_call (hP _ rfl) fun _ => only_ret _
  · exact only_ret _

theorem only_tcpInitSocket (port : Bytes) : Only P F (tcpInitSocket port) := by
  refine only_bind (only_openSocket hP port false) fun sockFd => ?_
  split
  · exact only_ret _
  · refine only_call (hP _ rfl) fun bound => ?_
    simp only [ret_bind]
    split
    · exact only_call (hP _ rfl) fun _ => only_ret _
    · refine only_call (hP _ rfl) fun listening => ?_
      simp only [ret_bind]
      split
      · exact only_call (hP _ rfl) fun _ => only_ret _
      · exact only_call (hP _ rfl) fun _ => only_ret _

end Opening

section Setup

variable {P : Call → Bool} {F : Prop} (hP : ∀ c, c.isSocketSetup = true → P c = true)
include hP

theorem only_udpInitSocket (port : Bytes) : Only P F (udpInitSocket port) := by
  refine only_bind (only_openSocket (fun c hc => hP c (setup_of_opening hc)) port true)
    fun sockFd => ?_
  split
  · exact only_ret _
  · refine only_call (hP _ rfl) fun bound => ?_
    simp only [ret_bind]
    split
    · exact only_call (hP _ rfl) fun _ => only_ret _
    · exact only_ret _

theorem only_tcpInitAcceptSocket (port : Bytes) : Only P F (tcpInitAcceptSocket port) := by
  refine only_bind (only_tcpInitSocket (fun c hc => hP c (setup_of_opening hc)) port)
    fun origSockFd => ?_
  split
  · exact only_ret _
  · refine only_call (hP _ rfl) fun r => ?_
    simp only [ret_bind]
    split
    · exact only_ret _
    · exact only_ret _

end Setup

section Handshake

variable {P : Call → Bool} (hP : ∀ c, c.isHandshake = true → P c = true)
include hP

theorem setup_of_handshake (c : Call) (h : c.isSocketSetup = true) : P c = true := by
  refine hP c ?_
  cases c <;> first | exact h | rfl

/-- The NUL behind a datagram of 1024 bytes is stored outside the buffer. -/
theorem only_udpReceiveMsg (sockFd : Int) : Only P True (udpReceiveMsg sockFd) := by
  refine only_call (hP _ rfl) fun r => ?_
  simp only [ret_bind]
  split
  · exact only_call (hP _ rfl) fun _ => only_ret _
  · exact only_bind (only_ofOption fun _ => trivial) fun _ => only_ret _

theorem only_udpConnectionHandshake : Only P True udpConnectionHandshake := by
  refine only_bind (only_udpInitSocket (setup_of_handshake hP) _) fun sockFd => ?_
  split
  · exact only_ret _
  · refine only_bind (only_udpReceiveMsg hP _) fun (received, buffer, addr) => ?_
    dsimp only
    split
    · exact only_call (hP _ rfl) fun _ => only_ret _
    · simp only [bind_eq, perform_bind]
      refine only_call (hP _ rfl) fun _ => only_call (hP _ rfl) fun _ => only_bind ?_ fun _ =>
        only_call (hP _ rfl) fun _ => only_ret _
      have hconfirm : ∀ ip, Only P True (sendConfirm sockFd addr ip) := fun ip =>
        only_call (hP _ rfl) fun _ => only_call (hP _ rfl) fun _ => only_ret _
      generalize maxConfirmMsgs = n
      induction n with
      | zero => exact only_ret _
      | succ n ih => exact only_bind (hconfirm _) fun _ => ih

theorem only_tcpConnectionHandshake : Only P True tcpConnectionHandshake := by
  refine only_bind (only_tcpInitAcceptSocket (setup_of_handshake hP) _)
    fun (sockFd, newFd, addr) => ?_
  refine only_call (hP _ rfl) fun _ => only_call (hP _ rfl) fun r => ?_
  simp only [ret_bind]
  split
  · exact only_call (hP _ rfl) fun _ => only_call (hP _ rfl) fun _ => only_ret _
  · refine only_call (hP _ rfl) fun _ => only_call (hP _ rfl) fun _ => only_call (hP _ rfl) fun _ =>
      only_call (hP _ rfl) fun _ => only_ret _

theorem only_ipExchangeFun (ip : IpExchange) : Only P True (ipExchangeFun ip) := by
  cases ip with
  | udp => exact only_udpConnectionHandshake hP
  | tcp => exact only_tcpConnectionHandshake hP

end Handshake

end SocketLemmas

end P2pDriver
