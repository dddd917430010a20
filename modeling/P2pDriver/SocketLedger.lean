import P2pDriver.Library.Ledger
import P2pDriver.CommandHandler

/-!
# Who closes the sockets

A descriptor is opened in one function and closed in another: `udp_receive_msg`
closes the socket of its caller, `tcp_init_accept_socket` returns with one of its
two sockets open. This module keeps the books of the three functions that own
sockets and says on which outcomes they balance.

Results:
1. `keeps_udpConnectionHandshake`, `keeps_tcpConnectionHandshake`,
   `keeps_listenForCommands_books`: the books of one call.
2. `sessions_conserve_iff`: a sequence of calls closes every descriptor once, and
   calls nothing on a closed one, exactly when none of them has one of the
   outcomes its cleanup gets wrong.
3. `double_close`: a failed `recvfrom` closes its socket twice.
-/

namespace P2pDriver

open Resumable Prog

/-! ## 1. Descriptors -/

/-- The descriptor an `int` names. -/
def descriptor : Int → Option ℕ
  | .ofNat n => some n
  | .negSucc _ => none

/-- What a socket call does with descriptors. -/
def socketAccess : Call → Answer → Access ℕ
  | .socket _, r => { hands := descriptor r.ret }
  | .accept fd, r => { on := some (descriptor fd), hands := descriptor r.ret }
  | .bind fd, _ | .listen fd, _ | .select fd, _ | .recv fd _, _ | .recvfrom fd _, _ | .send fd _, _
  | .sendto fd _ _, _ => { on := some (descriptor fd) }
  | .close fd, _ => { on := some (descriptor fd), frees := true }
  | _, _ => {}

/-- The functions that own sockets. -/
inductive SocketFn where
  | udpConnectionHandshake
  | tcpConnectionHandshake
  | listenForCommands
deriving DecidableEq, Repr

/-- The program of a function, without its result. -/
def SocketFn.prog : SocketFn → Drv Unit
  | .udpConnectionHandshake => do
    let _ ← P2pDriver.udpConnectionHandshake
    return ()
  | .tcpConnectionHandshake => do
    let _ ← P2pDriver.tcpConnectionHandshake
    return ()
  | .listenForCommands => P2pDriver.listenForCommands

/-- One of the calls before `accept` fails. -/
def setupFailed : Call → Answer → Bool
  | .getaddrinfo _ _, r => r.ret ≠ 0
  | .socket _, r | .bind _, r | .listen _, r => r.ret < 0
  | _, _ => false

def acceptFailed : Call → Answer → Bool
  | .accept _, r => r.ret < 0
  | _, _ => false

def recvfromFailed : Call → Answer → Bool
  | .recvfrom _ _, r => r.ret < 0
  | _, _ => false

/-- The outcomes a function does not clean up after: `udp_connection_handshake`
when `recvfrom` fails, `tcp_connection_handshake` when no connection comes about,
and `listen_for_commands` when `accept` fails. -/
def SocketFn.fails : SocketFn → Call → Answer → Bool
  | .udpConnectionHandshake, c, r => recvfromFailed c r
  | .tcpConnectionHandshake, c, r => setupFailed c r || acceptFailed c r
  | .listenForCommands, c, r => acceptFailed c r

/-- Whether a function fails as soon as its setup does. -/
def SocketFn.strict : SocketFn → Bool
  | .tcpConnectionHandshake => true
  | _ => false

abbrev socketSpec (fn : SocketFn) : Spec Call Answer (Books ℕ) := auditSpec socketAccess fn.fails

/-! ## 2. Opening sockets -/

namespace SocketLedgerLemmas

variable {fn : SocketFn} {O : Finset ℕ}

/-- How the books stand when a socket was to be opened: it is held, or nothing is
and the failure is noted where it counts. -/
def Opened (fn : SocketFn) (O : Finset ℕ) (sockFd : Int) (b : Books ℕ) : Prop :=
  (∃ n : ℕ, sockFd = n ∧ n ∉ O ∧ b = .clean (insert n O)) ∨ sockFd = -1 ∧ b = ⟨O, false, fn.strict⟩

theorem fails_getaddrinfo (fn : SocketFn) (port : Bytes) (udp : Bool) (r : Answer) :
    fn.fails (.getaddrinfo port udp) r = (fn.strict && decide (r.ret ≠ 0)) := by
  cases fn <;> simp [SocketFn.fails, SocketFn.strict, setupFailed, acceptFailed, recvfromFailed]

theorem fails_socket (fn : SocketFn) (udp : Bool) (r : Answer) :
    fn.fails (.socket udp) r = (fn.strict && decide (r.ret < 0)) := by
  cases fn <;> simp [SocketFn.fails, SocketFn.strict, setupFailed, acceptFailed, recvfromFailed]

theorem fails_bind (fn : SocketFn) (fd : Int) (r : Answer) :
    fn.fails (.bind fd) r = (fn.strict && decide (r.ret < 0)) := by
  cases fn <;> simp [SocketFn.fails, SocketFn.strict, setupFailed, acceptFailed, recvfromFailed]

theorem fails_listen (fn : SocketFn) (fd : Int) (r : Answer) :
    fn.fails (.listen fd) r = (fn.strict && decide (r.ret < 0)) := by
  cases fn <;> simp [SocketFn.fails, SocketFn.strict, setupFailed, acceptFailed, recvfromFailed]

theorem fails_close (fn : SocketFn) (fd : Int) (r : Answer) : fn.fails (.close fd) r = false := by
  cases fn <;> rfl

@[simp] theorem descriptor_natCast (n : ℕ) : descriptor (n : Int) = some n := rfl

/-- An `int` is a descriptor or negative. -/
theorem descriptor_cases (fd : Int) :
    (∃ n : ℕ, fd = n ∧ descriptor fd = some n) ∨ fd < 0 ∧ descriptor fd = none := by
  cases fd with
  | ofNat n => exact .inl ⟨n, rfl, rfl⟩
  | negSucc n => exact .inr ⟨Int.negSucc_lt_zero n, rfl⟩

/-- `open_socket` returns what `socket` does, and `-1` when it is not called. -/
theorem keeps_openSocket (port : Bytes) (udp : Bool) :
    Keeps (socketSpec fn) (.clean O) (openSocket port udp) fun sockFd b =>
      (∃ n : ℕ, sockFd = n ∧ n ∉ O ∧ b = .clean (insert n O)) ∨
        sockFd < 0 ∧ b = ⟨O, false, fn.strict⟩ := by
  refine keeps_call fun r _ => ⟨⟨O, false, fn.strict && decide (r.ret ≠ 0)⟩, ?_, ?_⟩
  · simp [auditSpec, Books.record, Books.clean, socketAccess, Access.apply, Access.proper,
      fails_getaddrinfo]
  · simp only [ret_bind]
    by_cases hr : r.ret = 0
    · simp only [hr]
      refine keeps_hands (fun _ => rfl) (fun _ => rfl) fun r' hfresh => ?_
      rcases descriptor_cases r'.ret with ⟨n, hn, hd⟩ | ⟨hneg, hd⟩
      · have hfresh' : n ∉ O := hfresh n hd
        refine keeps_ret (.inl ⟨n, hn, hfresh', ?_⟩)
        simp [socketAccess, fails_socket, Books.clean, hn]
      · refine keeps_ret (.inr ⟨hneg, ?_⟩)
        simp [socketAccess, hd, fails_socket, hneg]
    · simp only [hr, decide_false, Bool.false_eq_true, if_false]
      exact keeps_ret (.inr ⟨by decide, by simp [hr]⟩)

/-- The socket is closed again when a later step of its setup fails. -/
theorem keeps_closeSetup {n : ℕ} (hn : n ∉ O) {failed : Bool} (hf : failed = fn.strict) :
    Keeps (socketSpec fn) ⟨insert n O, false, failed⟩
      ((perform (.close n)).bind fun _ => (.ret nlosSocketErr : Drv Int)) (Opened fn O) := by
  refine keeps_frees (a := n) (Finset.mem_insert_self n O) (fun _ => rfl) (fails_close fn _)
    fun _ => keeps_ret (.inr ⟨rfl, ?_⟩)
  rw [Finset.erase_insert hn, hf]

/-- A setup call on the new socket: it succeeds, or the socket is closed. -/
theorem keeps_setupCall {n : ℕ} (hn : n ∉ O) {c : Call}
    (hc : ∀ r, socketAccess c r = { on := some (some n) })
    (hf : ∀ r, fn.fails c r = (fn.strict && decide (r.ret < 0))) {k : Drv Int}
    (hk : Keeps (socketSpec fn) (.clean (insert n O)) k (Opened fn O)) :
    Keeps (socketSpec fn) (.clean (insert n O))
      (.call c fun r =>
        if r.ret < 0 then (perform (.close n)).bind fun _ => .ret nlosSocketErr else k)
      (Opened fn O) := by
  refine keeps_uses (a := n) (Finset.mem_insert_self n O) hc fun r => ?_
  rw [hf]
  by_cases hr : r.ret < 0
  · simp only [hr, if_true]
    exact keeps_closeSetup hn (by simp [Books.clean])
  · simpa [hr, Books.clean] using hk

theorem keeps_udpInitSocket (port : Bytes) :
    Keeps (socketSpec fn) (.clean O) (udpInitSocket port) (Opened fn O) := by
  refine keeps_bind ((keeps_openSocket port true).mono fun sockFd b h => ?_)
  rcases h with ⟨n, rfl, hn, rfl⟩ | ⟨hneg, rfl⟩
  · rw [if_neg (by omega)]
    exact keeps_setupCall hn (fun _ => rfl) (fails_bind fn _) (keeps_ret (.inl ⟨n, rfl, hn, rfl⟩))
  · rw [if_pos hneg]
    exact keeps_ret (.inr ⟨rfl, rfl⟩)

theorem keeps_tcpInitSocket (port : Bytes) :
    Keeps (socketSpec fn) (.clean O) (tcpInitSocket port) (Opened fn O) := by
  refine keeps_bind ((keeps_openSocket port false).mono fun sockFd b h => ?_)
  rcases h with ⟨n, rfl, hn, rfl⟩ | ⟨hneg, rfl⟩
  · rw [if_neg (by omega)]
    refine keeps_setupCall hn (fun _ => rfl) (fails_bind fn _) ?_
    refine keeps_setupCall hn (fun _ => rfl) (fails_listen fn _) ?_
    refine keeps_apart (fun _ => rfl) (fun _ => by cases fn <;> rfl) fun _ => ?_
    exact keeps_ret (.inl ⟨n, rfl, hn, rfl⟩)
  · rw [if_pos hneg]
    exact keeps_ret (.inr ⟨rfl, rfl⟩)

/-- How the books stand when a connection was to be accepted: both sockets are
held, or none, or the first one when it was `accept` that failed. -/
def Accepted (fn : SocketFn) (O : Finset ℕ) (sockFd newFd : Int) (b : Books ℕ) : Prop :=
  (∃ n k : ℕ, sockFd = n ∧ newFd = k ∧ n ∉ O ∧ k ∉ insert n O ∧
      b = .clean (insert k (insert n O))) ∨
    newFd = -1 ∧ (b = ⟨O, false, fn.strict⟩ ∨ ∃ n ∉ O, b = ⟨insert n O, false, true⟩)

theorem keeps_tcpInitAcceptSocket (hfn : fn ≠ .udpConnectionHandshake) (port : Bytes) :
    Keeps (socketSpec fn) (.clean O) (tcpInitAcceptSocket port)
      fun (sockFd, newFd, _) b => Accepted fn O sockFd newFd b := by
  have hfails : ∀ fd r, fn.fails (.accept fd) r = decide (r.ret < 0) := by
    intro fd r
    cases fn with
    | udpConnectionHandshake => exact absurd rfl hfn
    | tcpConnectionHandshake => rfl
    | listenForCommands => rfl
  refine keeps_bind ((keeps_tcpInitSocket port).mono fun origSockFd b h => ?_)
  rcases h with ⟨n, rfl, hn, rfl⟩ | ⟨rfl, rfl⟩
  · rw [if_neg (by simp only [nlosSocketErr]; omega)]
    refine keeps_hands (fun _ => ?_) (fun _ => rfl) fun r hfresh => ?_
    · simp [socketAccess, Access.proper, Books.clean]
    · simp only [ret_bind]
      rcases descriptor_cases r.ret with ⟨k, hk, hd⟩ | ⟨hneg, hd⟩
      · have hfresh' : k ∉ insert n O := hfresh k hd
        rw [if_neg (by omega)]
        refine keeps_ret (.inl ⟨n, k, rfl, hk, hn, hfresh', ?_⟩)
        simp [socketAccess, hfails, Books.clean, hk]
      · rw [if_pos hneg]
        refine keeps_ret (.inr ⟨rfl, .inr ⟨n, hn, ?_⟩⟩)
        simp [socketAccess, hd, hfails, Books.clean, hneg]
  · rw [if_pos (show (-1 : Int) = nlosSocketErr from rfl)]
    exact keeps_ret (.inr ⟨rfl, .inl rfl⟩)

/-! ## 3. The handshakes -/

/-- The books balance exactly when none of the outcomes has occurred that the
function does not clean up after. -/
def InBalance (O : Finset ℕ) (b : Books ℕ) : Prop :=
  b.failed = false ↔ b.misused = false ∧ b.held = O

theorem inBalance_of_wrong {b : Books ℕ} (hm : b.misused = true) (hf : b.failed = true) :
    InBalance O b := by
  simp [InBalance, hm, hf]

theorem inBalance_clean (O : Finset ℕ) : InBalance O (.clean O) := by
  simp [InBalance, Books.clean]

/-- A call on a descriptor that is not held is noted for good. -/
theorem keeps_improper {b : Books ℕ} {c : Call} {k : Answer → Drv Bool}
    (hc : ∀ r, (socketAccess c r).proper b.held = false) (hf : b.failed = true) :
    Keeps (socketSpec fn) b (.call c k) fun _ b => InBalance O b := by
  refine keeps_call fun r _ => ⟨_, rfl, ?_⟩
  refine (keeps_misused ?_ ?_).mono fun _ b hb => inBalance_of_wrong hb.1 hb.2
  · simp [Books.record, hc]
  · simp [Books.record, hf]

/-- `udp_receive_msg` closes the socket when nothing is received. -/
theorem keeps_udpReceiveMsg {n : ℕ} (hn : n ∉ O) :
    Keeps (socketSpec .udpConnectionHandshake) (.clean (insert n O)) (udpReceiveMsg n)
      fun (received, _, _) b => received < 0 ∧ b = ⟨O, false, true⟩ ∨
        0 ≤ received ∧ b = .clean (insert n O) := by
  refine keeps_uses (a := n) (Finset.mem_insert_self n O) (fun _ => rfl) fun r => ?_
  simp only [ret_bind]
  have hfails : (SocketFn.udpConnectionHandshake).fails (.recvfrom n maxRecv) r =
      decide (r.ret < 0) :=
    rfl
  rw [hfails]
  by_cases hr : r.ret < 0
  · simp only [hr, if_true]
    refine keeps_frees (a := n) (Finset.mem_insert_self n O) (fun _ => rfl)
      (fun _ => rfl) fun _ => ?_
    refine keeps_ret (.inl ⟨show nlosRecvErr < 0 by decide, ?_⟩)
    simp [Books.clean, Finset.erase_insert hn]
  · simp only [hr, if_false]
    refine keeps_bind (keeps_ofOption (fun buffer _ => keeps_ret (.inr ⟨?_, ?_⟩)) fun _ => trivial)
    · exact Int.natCast_nonneg _
    · simp [Books.clean]

theorem keeps_sendConfirm {n : ℕ} {b : Books ℕ} (hn : n ∈ b.held) (addr : Ipv4) (message : Bytes) :
    Keeps (socketSpec .udpConnectionHandshake) b (sendConfirm n addr message)
      fun _ b' => b' = b := by
  refine keeps_apart (fun _ => rfl) (fun _ => rfl) fun _ => ?_
  refine keeps_uses (a := n) hn (fun _ => rfl) fun _ => keeps_ret ?_
  simp [SocketFn.fails, recvfromFailed]

theorem keeps_udpConnectionHandshake :
    Keeps (socketSpec .udpConnectionHandshake) (.clean O) P2pDriver.udpConnectionHandshake
      fun _ b => InBalance O b := by
  refine keeps_bind ((keeps_udpInitSocket _).mono fun sockFd b h => ?_)
  rcases h with ⟨n, rfl, hn, rfl⟩ | ⟨rfl, rfl⟩
  · rw [if_neg (by omega)]
    refine keeps_bind ((keeps_udpReceiveMsg hn).mono fun (received, buffer, addr) b h => ?_)
    dsimp only at h ⊢
    rcases h with ⟨hneg, rfl⟩ | ⟨hpos, rfl⟩
    · -- the socket is closed a second time
      rw [if_pos hneg]
      exact keeps_improper (fun _ => by simp [socketAccess, Access.proper, hn]) rfl
    · rw [if_neg (by omega)]
      simp only [bind_eq, perform_bind]
      refine keeps_apart (fun _ => rfl) (fun _ => rfl) fun _ => ?_
      refine keeps_apart (fun _ => rfl) (fun _ => rfl) fun _ => ?_
      have htimes : ∀ m, Keeps (socketSpec .udpConnectionHandshake) (.clean (insert n O))
          (Prog.times m (sendConfirm n addr (getConfirmMessage (getSockaddrIp addr) false)))
          fun _ b => b = .clean (insert n O) := by
        intro m
        induction m with
        | zero => exact keeps_ret rfl
        | succ m ih =>
          refine keeps_bind
            ((keeps_sendConfirm (Finset.mem_insert_self n O) _ _).mono fun _ b hb => ?_)
          rw [hb]
          exact ih
      refine keeps_bind ((htimes _).mono fun _ b hb => ?_)
      rw [hb]
      refine keeps_frees (a := n) (Finset.mem_insert_self n O) (fun _ => rfl)
        (fun _ => rfl) fun _ => ?_
      refine keeps_ret ?_
      simp [InBalance, Books.clean, Finset.erase_insert hn]
  · rw [if_pos (by decide)]
    exact keeps_ret (inBalance_clean O)

/-- Both sockets of a connection are closed. -/
theorem keeps_closeBoth {n k : ℕ} (hn : n ∉ O) (hk : k ∉ insert n O) {γ : Type} (x : γ) :
    Keeps (socketSpec fn) (.clean (insert k (insert n O)))
      ((perform (.close k)).bind fun _ => (perform (.close n)).bind fun _ => .ret x)
      fun _ b => InBalance O b := by
  refine keeps_frees (a := k) (Finset.mem_insert_self k _) (fun _ => rfl)
    (fails_close fn _) fun _ => ?_
  refine keeps_frees (a := n) ?_ (fun _ => rfl) (fails_close fn _) fun _ => keeps_ret ?_
  · simp only [Books.clean, Finset.erase_insert hk]
    exact Finset.mem_insert_self n O
  · simp [InBalance, Books.clean, Finset.erase_insert hk, Finset.erase_insert hn]

theorem keeps_tcpConnectionHandshake :
    Keeps (socketSpec .tcpConnectionHandshake) (.clean O) P2pDriver.tcpConnectionHandshake
      fun _ b => InBalance O b := by
  refine keeps_bind ((keeps_tcpInitAcceptSocket (by decide) _).mono
    fun (sockFd, newFd, addr) b h => ?_)
  dsimp only at h ⊢
  simp only [bind_eq, perform_bind, ask_bind]
  refine keeps_apart (fun _ => rfl) (fun _ => rfl) fun _ => ?_
  rcases h with ⟨n, k, rfl, rfl, hn, hk, rfl⟩ | ⟨rfl, h⟩
  · refine keeps_uses (a := k) (Finset.mem_insert_self k _) (fun _ => rfl) fun r => ?_
    simp only [SocketFn.fails, setupFailed, acceptFailed, Books.clean, Bool.or_false]
    split
    · exact keeps_closeBoth hn hk false
    · refine keeps_apart (fun _ => rfl) (fun _ => rfl) fun _ => ?_
      refine keeps_uses (a := k) (Finset.mem_insert_self k _) (fun _ => rfl) fun sent => ?_
      simp only [SocketFn.fails, setupFailed, acceptFailed, Bool.or_false]
      exact keeps_closeBoth hn hk _
  · -- there is no connection, and `recv` is called on -1
    refine keeps_improper (fun _ => rfl) ?_
    rcases h with rfl | ⟨n, -, rfl⟩ <;> rfl

/-! ## 4. `listen_for_commands` -/

/-- Executing a command does not touch sockets. -/
theorem step_execution (b : Books ℕ) {c : Call} (hc : c.isExecution = true) (r : Answer) :
    (socketSpec .listenForCommands).step b c r = some b := by
  have hapart : socketAccess c r = {} ∧ acceptFailed c r = false := by
    cases c <;> first | exact ⟨rfl, rfl⟩ | exact Bool.noConfusion hc
  simp [auditSpec, Books.record, hapart, SocketFn.fails, Access.apply, Access.proper]

/-- A round of the command loop leaves the books as they are. -/
theorem keeps_receiveCommand {k : ℕ} {b : Books ℕ} (hk : k ∈ b.held) (inSet : Bool) :
    Keeps (socketSpec .listenForCommands) b (receiveCommand k inSet) fun _ b' => b' = b := by
  cases inSet with
  | false => exact keeps_ret rfl
  | true =>
    refine keeps_uses (a := k) hk (fun _ => rfl) fun r => ?_
    simp only [SocketFn.fails, acceptFailed, Bool.or_false, ret_bind]
    split
    · exact keeps_ret rfl
    · split
      · refine keeps_bind (keeps_ofOption (fun buffer _ => ?_) fun _ => trivial)
        exact (only_executeCommand (fun _ h => h) _ _).keeps
          (fun _ r hc => step_execution b hc r) fun _ => trivial
      · exact keeps_ret rfl

theorem keeps_commandLoop {k : ℕ} {b : Books ℕ} (hk : k ∈ b.held) (runPlaceholder : Bool) :
    Keeps (socketSpec .listenForCommands) b (commandLoop k runPlaceholder) fun _ b' => b' = b := by
  cases runPlaceholder with
  | false => exact keeps_ret rfl
  | true =>
    refine keeps_loop (· = b) rfl fun b' hb' r _ => ⟨b', ?_, ?_⟩
    · subst hb'
      simp [auditSpec, Books.record, socketAccess, Access.apply, Access.proper, SocketFn.fails,
        acceptFailed, hk]
    · subst hb'
      simp only [bind_eq, ask_bind, pure_eq]
      refine keeps_bind ((keeps_receiveCommand hk r.isSet).mono fun _ b'' hb'' => ?_)
      subst hb''
      refine keeps_apart (fun _ => rfl) (fun _ => rfl) fun flag => ?_
      cases flag.isSet with
      | true => exact keeps_ret rfl
      | false => exact keeps_ret (keeps_ret rfl)

theorem keeps_listenForCommands_books :
    Keeps (socketSpec .listenForCommands) (.clean O) P2pDriver.listenForCommands
      fun _ b => InBalance O b := by
  refine keeps_bind ((keeps_tcpInitAcceptSocket (by decide) _).mono
    fun (sockFd, newFd, addr) b h => ?_)
  dsimp only at h ⊢
  rcases h with ⟨n, k, rfl, rfl, hn, hk, rfl⟩ | ⟨rfl, h⟩
  · rw [if_neg (by simp only [nlosSocketErr]; omega)]
    simp only [bind_eq, ask_bind]
    refine keeps_apart (fun _ => rfl) (fun _ => rfl) fun r => ?_
    refine keeps_bind
      ((keeps_commandLoop (Finset.mem_insert_self k _) r.isSet).mono fun _ b hb => ?_)
    subst hb
    exact keeps_closeBoth hn hk ()
  · rw [if_pos (show (-1 : Int) = nlosSocketErr from rfl)]
    refine keeps_apart (fun _ => rfl) (fun _ => rfl) fun _ => keeps_ret ?_
    rcases h with rfl | ⟨n, hn, rfl⟩
    · exact inBalance_clean O
    · -- the listening socket is still open
      have hne : insert n O ≠ O := fun he => hn (he ▸ Finset.mem_insert_self n O)
      simp [InBalance, hne]

theorem keeps_prog (fn : SocketFn) :
    Keeps (socketSpec fn) (.clean O) fn.prog fun _ b => InBalance O b := by
  cases fn with
  | udpConnectionHandshake =>
    exact keeps_bind (keeps_udpConnectionHandshake.mono fun _ _ h => keeps_ret h)
  | tcpConnectionHandshake =>
    exact keeps_bind (keeps_tcpConnectionHandshake.mono fun _ _ h => keeps_ret h)
  | listenForCommands => exact keeps_listenForCommands_books

end SocketLedgerLemmas

open SocketLedgerLemmas

/-! ## 5. Calls of the three functions, one after the other -/

/-- A call of a function, by the answers it is given. -/
structure Session where
  fn : SocketFn
  answers : List Answer

def Session.trace (s : Session) : List (Call × Answer) := s.fn.prog.trace s.answers

/-- The descriptors open after a call, from those that are open before it. -/
def Session.leaves (O : Finset ℕ) (s : Session) : Finset ℕ := heldAfter socketAccess O s.trace

/-- One of the outcomes occurs that the function does not clean up after. -/
def Session.fails (s : Session) : Bool := s.trace.any fun e => s.fn.fails e.1 e.2

/-- The calls all return, and the system hands out closed descriptors only. -/
def Ran : Finset ℕ → List Session → Prop
  | _, [] => True
  | O, s :: ss => s.fn.prog.after s.answers = .ret () ∧ Granted socketAccess O s.trace ∧
      Ran (s.leaves O) ss

/-- A call closes every descriptor it opens, and calls nothing on a closed one. -/
def Conserves (O : Finset ℕ) (s : Session) : Prop :=
  misuses socketAccess O s.trace = false ∧ s.leaves O = O

/-- All calls do. -/
def AllConserve : Finset ℕ → List Session → Prop
  | _, [] => True
  | O, s :: ss => Conserves O s ∧ AllConserve (s.leaves O) ss

theorem session_conserves_iff {O : Finset ℕ} {s : Session}
    (hret : s.fn.prog.after s.answers = .ret ()) (hg : Granted socketAccess O s.trace) :
    Conserves O s ↔ s.fails = false := by
  have hb : InBalance O _ := (keeps_prog s.fn).audited (b := .clean O) hg hret
  rw [InBalance, audit_failed, audit_misused, audit_held] at hb
  simp only [Books.clean, Bool.false_or] at hb
  exact hb.symm

/-- A sequence of calls conserves the descriptors exactly when no call has one of
the outcomes its function does not clean up after. -/
theorem sessions_conserve_iff {O : Finset ℕ} {ss : List Session} (h : Ran O ss) :
    AllConserve O ss ↔ ∀ s ∈ ss, s.fails = false := by
  induction ss generalizing O with
  | nil => simp [AllConserve]
  | cons s ss ih =>
    obtain ⟨hret, hg, hrest⟩ := h
    rw [AllConserve, List.forall_mem_cons, session_conserves_iff hret hg, ih hrest]

/-- A handshake whose sockets are opened by the system as `3`. -/
def sampleHandshake : Session :=
  ⟨.udpConnectionHandshake,
    [{}, { ret := 3 }, {}, { ret := 1, offer := bytes "H" }, {}, {}, {}, {}, {}, {}, {}]⟩

/-- A session that is cancelled while its client connects. -/
def sampleSession : Session :=
  ⟨.listenForCommands, [{}, { ret := 3 }, {}, {}, {}, { ret := 4 }, {}, {}, {}]⟩

theorem session_conserved : AllConserve ∅ [sampleHandshake, sampleSession] := by
  refine (sessions_conserve_iff ?_).mpr ?_
  · exact ⟨rfl, by decide, rfl, by decide, trivial⟩
  · decide

/-- A handshake whose `recvfrom` fails. -/
def sampleTimeout : Session :=
  ⟨.udpConnectionHandshake, [{}, { ret := 3 }, {}, { ret := -1 }, {}, {}]⟩

/-- When `recvfrom` fails, its socket is closed by `udp_receive_msg`, and again by
its caller. -/
theorem double_close : Ran ∅ [sampleTimeout] ∧ ¬ AllConserve ∅ [sampleTimeout] := by
  refine ⟨⟨rfl, by decide, trivial⟩, fun h => ?_⟩
  exact absurd h.1.1 (by decide)

end P2pDriver
