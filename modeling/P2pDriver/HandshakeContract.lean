import P2pDriver.Sockets

/-!
# What a handshake promises

Both handshakes return whether they have succeeded and leave the address of the
client in `client_ip`. This module says what a caller may conclude, for every
outcome of the calls they make.

Results:
1. `handshake_contract`: a successful handshake has stored the address of the peer
   it has heard from, and has sent that peer the confirm message; a failed one over
   UDP has not touched `client_ip`.
2. `confirm_not_accepted`: that a confirm message was accepted is not promised, by
   neither of them.
-/

namespace P2pDriver

open Resumable Prog

/-! ## 1. The contract -/

/-- The value of `client_ip` after a run that starts with `ip`. -/
def clientIpAfter (ip : Bytes) (tr : List (Call × Answer)) : Bytes :=
  tr.foldl (fun ip e => match e.1 with | .setClientIp clientIp => clientIp | _ => ip) ip

/-- In the run `tr` a message of the peer `addr` was received through `fd`. -/
inductive HeardFrom (tr : List (Call × Answer)) : IpExchange → Int → Ipv4 → Prop where
  | datagram {fd : Int} {r : Answer} (hr : (.recvfrom fd maxRecv, r) ∈ tr) (hret : 0 ≤ r.ret) :
      HeardFrom tr .udp fd r.addr
  | stream {fd : Int} {a r : Answer} (ha : (.accept fd, a) ∈ tr) (hfd : 0 ≤ a.ret)
      (hr : (.recv a.ret maxRecv, r) ∈ tr) (hret : 0 ≤ r.ret) : HeardFrom tr .tcp a.ret a.addr

/-- The call that sends the confirm message for the address `ip` to a peer. -/
def confirmCall (fd : Int) (addr : Ipv4) (ip : Bytes) : IpExchange → Call
  | .udp => .sendto fd addr (getConfirmMessage ip false)
  | .tcp => .send fd (getConfirmMessage ip true)

/-- How long the confirm message is. -/
def confirmLength (ip : Bytes) : IpExchange → Nat
  | .udp => (getConfirmMessage ip false).length
  | .tcp => (getConfirmMessage ip true).length

/-- What a handshake promises that has returned `success` in the run `tr`. A send
over TCP has not failed; one over UDP may have. -/
structure Contract (ipExchange : IpExchange) (ip : Bytes) (tr : List (Call × Answer))
    (success : Bool) : Prop where
  confirmed : success = true → ∃ fd addr s, HeardFrom tr ipExchange fd addr ∧
    clientIpAfter ip tr = getSockaddrIp addr ∧
    (confirmCall fd addr (clientIpAfter ip tr) ipExchange, s) ∈ tr ∧ (ipExchange = .tcp → 0 < s.ret)
  unchanged : success = false → ipExchange = .udp → clientIpAfter ip tr = ip

/-- A call of `recv` on a descriptor that is not one fails with `EBADF`. -/
def badDescriptorFails : Call × Answer → Bool
  | (.recv fd _, r) => decide (fd < 0 → r.ret < 0)
  | _ => true

/-! ## 2. The two handshakes -/

/-- All calls are allowed and remembered. -/
def logSpec : Spec Call Answer (List (Call × Answer)) :=
  historySpec (fun _ c r => badDescriptorFails (c, r) = true) fun _ _ => true

namespace HandshakeContractLemmas

variable {past : List (Call × Answer)} {ip : Bytes}

theorem clientIpAfter_cons {c : Call} (r : Answer) (hc : ∀ clientIp, c ≠ .setClientIp clientIp) :
    clientIpAfter ip ((c, r) :: past).reverse = clientIpAfter ip past.reverse := by
  rw [List.reverse_cons, clientIpAfter, List.foldl_append, List.foldl_cons, List.foldl_nil]
  cases c <;> first | rfl | exact absurd rfl (hc _)

theorem clientIpAfter_set (clientIp : Bytes) (r : Answer) :
    clientIpAfter ip ((.setClientIp clientIp, r) :: past).reverse = clientIp := by
  rw [List.reverse_cons, clientIpAfter, List.foldl_append, List.foldl_cons, List.foldl_nil]

/-- Setting up a socket leaves `client_ip` alone. -/
theorem keeps_setup {α : Type} {p : Drv α} (h : Only Call.isSocketSetup True p)
    (hip : clientIpAfter ip past.reverse = ip) :
    Keeps logSpec past p fun _ past' => clientIpAfter ip past'.reverse = ip := by
  refine h.keeps_inv (fun past : List (Call × Answer) => clientIpAfter ip past.reverse = ip) hip
    (fun past c r hpast hc _ => ⟨(c, r) :: past, rfl, ?_⟩) fun _ _ _ => trivial
  rwa [clientIpAfter_cons r (by rintro _ rfl; exact Bool.noConfusion hc)]

theorem keeps_udpConnectionHandshake (ip : Bytes) :
    Keeps logSpec [] udpConnectionHandshake fun success past =>
      Contract .udp ip past.reverse success := by
  refine keeps_bind ((@keeps_setup _ ip _ _
    (SocketLemmas.only_udpInitSocket (fun _ hc => hc) generalPort) rfl).mono
    fun sockFd past hip => ?_)
  split
  · exact keeps_ret ⟨fun h => Bool.noConfusion h, fun _ _ => hip⟩
  · simp only [udpReceiveMsg, bind_eq, ask_bind, call_bind]
    refine keeps_allowed rfl fun r _ => ?_
    have hip' : clientIpAfter ip ((.recvfrom sockFd maxRecv, r) :: past).reverse = ip := by
      rw [clientIpAfter_cons r (by simp), hip]
    split
    · refine keeps_allowed rfl fun _ _ => ?_
      simp only [pure_eq, ret_bind, nlosRecvErr]
      refine keeps_allowed rfl fun _ _ => keeps_ret ⟨fun h => Bool.noConfusion h, fun _ _ => ?_⟩
      rw [clientIpAfter_cons _ (by simp), clientIpAfter_cons _ (by simp), hip']
    · rename_i hret
      refine keeps_bind
        (keeps_bind (keeps_ofOption (fun buffer _ => keeps_ret ?_) fun _ => trivial))
      dsimp only
      rw [if_neg (by omega)]
      -- the address is stored, and nothing behind it stores another
      refine keeps_allowed rfl fun _ _ => keeps_allowed rfl fun _ _ => ?_
      refine keeps_allowed rfl fun _ _ => keeps_allowed rfl fun s _ => ?_
      refine keeps_allowed rfl fun _ _ => keeps_allowed rfl fun _ _ => ?_
      refine keeps_allowed rfl fun _ _ => keeps_ret ⟨fun _ => ?_, fun h => Bool.noConfusion h⟩
      rw [clientIpAfter_cons _ (by simp), clientIpAfter_cons _ (by simp),
        clientIpAfter_cons _ (by simp), clientIpAfter_cons _ (by simp),
        clientIpAfter_cons _ (by simp), clientIpAfter_cons _ (by simp), clientIpAfter_set]
      exact ⟨sockFd, r.addr, s, .datagram (r := r) (by simp) (Int.not_lt.mp hret), rfl,
        by simp [confirmCall], fun h => nomatch h⟩

/-- The descriptor that `tcp_init_accept_socket` returns is that of a connection,
or -1. -/
theorem keeps_tcpInitAcceptSocket (port : Bytes) :
    Keeps logSpec past (tcpInitAcceptSocket port) fun (_, newFd, addr) past' =>
      newFd = nlosSocketErr ∨
        ∃ fd a, (.accept fd, a) ∈ past' ∧ 0 ≤ a.ret ∧ newFd = a.ret ∧ addr = a.addr := by
  have hinit : Keeps logSpec past (tcpInitSocket port) fun _ _ => True :=
    (SocketLemmas.only_tcpInitSocket (F := True) (P := fun _ => true)
      (fun _ _ => rfl) port).keeps_inv (fun _ => True) trivial
      (fun past c r _ _ _ => ⟨(c, r) :: past, rfl, trivial⟩) fun _ _ _ => trivial
  refine keeps_bind (hinit.mono fun origSockFd past _ => ?_)
  split
  · exact keeps_ret (.inl rfl)
  · refine keeps_allowed rfl fun r _ => ?_
    simp only [ret_bind]
    split
    · exact keeps_ret (.inl rfl)
    · rename_i hret
      exact keeps_ret (.inr ⟨origSockFd, r, List.mem_cons_self, Int.not_lt.mp hret, rfl, rfl⟩)

theorem keeps_tcpConnectionHandshake (ip : Bytes) :
    Keeps logSpec [] tcpConnectionHandshake fun success past =>
      Contract .tcp ip past.reverse success := by
  refine keeps_bind ((keeps_tcpInitAcceptSocket generalPort).mono ?_)
  rintro ⟨sockFd, newFd, addr⟩ past hnew
  refine keeps_allowed rfl fun _ _ => keeps_allowed rfl fun r hr => ?_
  simp only [ret_bind]
  split
  · refine keeps_allowed rfl fun _ _ => keeps_allowed rfl fun _ _ => keeps_ret ?_
    exact ⟨fun h => Bool.noConfusion h, fun _ h => nomatch h⟩
  · rename_i hret
    obtain ⟨fd, a, ha, hfd, rfl, rfl⟩ : ∃ fd a, (.accept fd, a) ∈ past ∧ 0 ≤ a.ret ∧
        newFd = a.ret ∧ addr = a.addr := by
      rcases hnew with rfl | haccepted
      · exact absurd (of_decide_eq_true hr (by decide)) hret
      · exact haccepted
    refine keeps_allowed rfl fun _ _ => keeps_allowed rfl fun s _ => ?_
    refine keeps_allowed rfl fun _ _ => keeps_allowed rfl fun _ _ => keeps_ret ?_
    refine ⟨fun hsent => ?_, fun _ h => nomatch h⟩
    rw [clientIpAfter_cons _ (by simp), clientIpAfter_cons _ (by simp),
      clientIpAfter_cons _ (by simp), clientIpAfter_cons _ (by simp),
      clientIpAfter_cons _ (by simp), clientIpAfter_set]
    refine ⟨a.ret, a.addr, s, @HeardFrom.stream _ fd a r ?_ hfd (by simp) (Int.not_lt.mp hret), rfl,
      by simp [confirmCall], fun _ => of_decide_eq_true hsent⟩
    simp [ha]

theorem admits_log {tr : List (Call × Answer)} (h : tr.all badDescriptorFails = true)
    (past : List (Call × Answer)) : logSpec.Admits past tr :=
  admits_of_forall (fun e he _ => List.all_eq_true.mp h e he) past

end HandshakeContractLemmas

open HandshakeContractLemmas

/-- The contract of the two handshakes, for every run in which they return. -/
theorem handshake_contract (ipExchange : IpExchange) (ip : Bytes) {rs : List Answer}
    {success : Bool}
    (hfails : ((ipExchangeFun ipExchange).trace rs).all badDescriptorFails = true)
    (hreturned : (ipExchangeFun ipExchange).after rs = .ret success) :
    Contract ipExchange ip ((ipExchangeFun ipExchange).trace rs) success := by
  cases ipExchange with
  | udp =>
    have h := (keeps_udpConnectionHandshake ip).returned (admits_log hfails []) hreturned
    rwa [List.reverse_reverse] at h
  | tcp =>
    have h := (keeps_tcpConnectionHandshake ip).returned (admits_log hfails []) hreturned
    rwa [List.reverse_reverse] at h

/-- A handshake over TCP with a peer that says hello. -/
def tcpHello : List Answer :=
  [{}, { ret := 3 }, {}, {}, {}, { ret := 4, addr := ⟨192, 168, 49, 10⟩ }, {},
    { ret := 5, offer := bytes "HELLO" }, {}, { ret := 38 }, {}, {}]

theorem tcpHello_contract :
    Contract .tcp [] ((ipExchangeFun .tcp).trace tcpHello) true :=
  handshake_contract .tcp [] (by decide +kernel) rfl

/-- What `ip_exchange_fun` would promise if a success told that a send has accepted the
whole of the confirm message, and a failure that `client_ip` is as it was. -/
def AcceptedContract (ipExchange : IpExchange) : Prop :=
  ∀ (ip : Bytes) (rs : List Answer) (success : Bool),
    ((ipExchangeFun ipExchange).trace rs).all badDescriptorFails = true →
    (ipExchangeFun ipExchange).after rs = .ret success →
      (success = true → ∃ fd addr s,
        HeardFrom ((ipExchangeFun ipExchange).trace rs) ipExchange fd addr ∧
        clientIpAfter ip ((ipExchangeFun ipExchange).trace rs) = getSockaddrIp addr ∧
        (confirmCall fd addr (clientIpAfter ip ((ipExchangeFun ipExchange).trace rs)) ipExchange,
          s) ∈ (ipExchangeFun ipExchange).trace rs ∧
        s.ret = confirmLength (clientIpAfter ip ((ipExchangeFun ipExchange).trace rs))
          ipExchange) ∧
      (success = false → clientIpAfter ip ((ipExchangeFun ipExchange).trace rs) = ip)

/-- A handshake over UDP none of whose sends is accepted. -/
def udpUnsent : List Answer :=
  [{}, { ret := 3 }, {}, { ret := 5, offer := bytes "HELLO", addr := ⟨192, 168, 49, 10⟩ }, {}, {},
    {}, { ret := -1 }, {}, { ret := -1 }, {}]

/-- A handshake over TCP with a peer that closes its side without a message, and takes one
byte of the confirm message. -/
def tcpShort : List Answer :=
  [{}, { ret := 3 }, {}, {}, {}, { ret := 4, addr := ⟨192, 168, 49, 10⟩ }, {},
    { ret := 0 }, {}, { ret := 1 }, {}, {}]

/-- Both succeed. -/
theorem confirm_not_accepted : ¬ AcceptedContract .udp ∧ ¬ AcceptedContract .tcp := by
  constructor
  · intro h
    obtain ⟨fd, addr, s, -, -, hsend, hlen⟩ := (h [] udpUnsent true (by decide +kernel) rfl).1 rfl
    -- every send of the run has failed
    have hfailed : ((ipExchangeFun .udp).trace udpUnsent).all (fun e =>
        match e.1 with | .sendto _ _ _ => decide (e.2.ret < 0) | _ => true) = true := by
      decide +kernel
    have hneg : s.ret < 0 := of_decide_eq_true (List.all_eq_true.mp hfailed _ hsend)
    rw [hlen] at hneg
    omega
  · intro h
    obtain ⟨fd, addr, s, -, -, hsend, hlen⟩ := (h [] tcpShort true (by decide +kernel) rfl).1 rfl
    -- the only send of the run was short
    have hshort : ((ipExchangeFun .tcp).trace tcpShort).all (fun e =>
        match e.1 with | .send _ _ => decide (e.2.ret = 1) | _ => true) = true := by
      decide +kernel
    have hone : s.ret = 1 := of_decide_eq_true (List.all_eq_true.mp hshort _ hsend)
    rw [hlen] at hone
    revert hone
    decide +kernel

end P2pDriver
