import P2pDriver.EventLoop
import P2pDriver.CommandStream

/-!
# The receive buffers

The handshakes, the command handler and the two event loops of a session receive
into arrays. Two of them store a NUL behind what was received, and all but the
command handler print the array as a C string. This module says after which
receives the stores stay within the array and the prints within the message.

Results:
1. `printsBounded_iff`: prints of a message as it was received.
2. `receiveBuffers_bounded_iff`: the exact condition for each of the five functions.
3. `full_datagram_overflows`: a datagram that fills its array has no room for the NUL.
-/

namespace P2pDriver

open Resumable Prog EventLoopLemmas

/-! ## 1. Accesses in bounds -/

/-- How many cells at the front of its buffer a call has had written for the
message it received: those received, and over UDP the NUL behind them. -/
def writtenBy : Call × Answer → Option Nat
  | (.wpaCtrlRecv _, r) => (delivered r).map fun m => m.bytes.length
  | (.recvfrom _ len, r) => if r.ret < 0 then none else some ((r.offer.take len).length + 1)
  | (.recv _ len, r) => if r.ret < 0 then none else some (r.offer.take len).length
  | _ => none

/-- The same for the last message of a run. -/
def writtenLast (tr : List (Call × Answer)) : Nat :=
  tr.foldl (fun n e => (writtenBy e).getD n) 0

/-- Every buffer that is printed in the run holds a NUL among the cells written
for the last message. -/
def PrintsBounded {α : Type} (p : Drv α) (rs : List Answer) : Prop :=
  ∀ rs' cells, rs' <+: rs → (p.after rs').pending = some (.print cells) →
    0 ∈ cells.take (writtenLast (p.trace rs'))

/-- No access of the run leaves its buffer, nor a print its message. -/
structure InBounds {α : Type} (p : Drv α) (rs : List Answer) : Prop where
  stores : p.after rs ≠ .fault
  prints : PrintsBounded p rs

/-- A datagram of the handshake that fills its buffer. -/
def fillsDatagram : Call × Answer → Bool
  | (.recvfrom _ len, r) => decide (0 ≤ r.ret) && decide (len ≤ r.offer.length)
  | _ => false

/-- A chunk of the command stream that fills its buffer. -/
def fillsChunk (e : Call × Answer) : Bool :=
  (chunkOf e).any fun b => decide (commandMaxRecv ≤ b.length)

/-- The message of the client, where it is printed as it was received. -/
def clientMessage : Call × Answer → Option (Delivery maxRecv)
  | (.recv _ len, r) =>
    if r.ret < 0 ∨ len ≠ maxRecv then none else some (Delivery.ofOffer maxRecv r.offer r.stale)
  | _ => none

/-- The event that `connect_to_device` prints. -/
def printedEvent : Call × Answer → Option Message
  | (.wpaCtrlRecv _, r) => delivered r
  | _ => none

/-- The event that `connected_loop` prints. -/
def printedDisconnect (e : Call × Answer) : Option Message :=
  (printedEvent e).filter fun m => isType m deviceDisconnected

/-! ## 2. Prints of messages as they were received -/

namespace ReceiveBuffersLemmas

/-- The calls that use a buffer as a C string. -/
def isPrint : Call → Bool
  | .print _ => true
  | _ => false

/-- The print that an answer demands. -/
def printOf {cap : Nat} (message : Call × Answer → Option (Delivery cap))
    (e : Call × Answer) : Option Call :=
  (message e).map fun m => .print m.buffer.cells

theorem writtenLast_snoc {tr : List (Call × Answer)} {e : Call × Answer} {n : Nat}
    (h : writtenBy e = some n) : writtenLast (tr ++ [e]) = n := by
  rw [writtenLast, List.foldl_append, List.foldl_cons, List.foldl_nil, h, Option.getD_some]

/-- A program that prints each message once, right after it was received, is in
bounds exactly when every message holds a NUL. -/
theorem printsBounded_iff {α : Type} {cap : Nat} {p : Drv α} {F : Prop}
    {message : Call × Answer → Option (Delivery cap)}
    (hwritten : ∀ e m, message e = some m → writtenBy e = some m.bytes.length)
    (h : Keeps (demandSpec (printOf message) isPrint F) none p fun _ due => due = none)
    (rs : List Answer) :
    PrintsBounded p rs ↔ ∀ e ∈ p.trace rs, ∀ m, message e = some m → 0 ∈ m.bytes := by
  have hcells : ∀ (tr : List (Call × Answer)) e m, message e = some m →
      m.buffer.cells.take (writtenLast (tr ++ [e])) = m.bytes := by
    intro tr e m hm
    rw [writtenLast_snoc (hwritten e m hm), m.take_cells]
  constructor
  · intro hbounded e he m hm
    obtain ⟨rs', hpre, tr, htr⟩ := exists_cut he
    have hprint := (h.pending_iff_demanded rs' (c := .print m.buffer.cells) rfl).mpr
      ⟨tr, e, htr, by rw [printOf, hm, Option.map_some]⟩
    have hnul := hbounded rs' _ hpre hprint
    rwa [htr, hcells tr e m hm] at hnul
  · intro hnul rs' cells hpre hprint
    obtain ⟨tr, e, htr, hdemand⟩ := (h.pending_iff_demanded rs' rfl).mp hprint
    obtain ⟨m, hm, hcall⟩ := Option.map_eq_some_iff.mp hdemand
    obtain rfl := Call.print.inj hcall
    rw [htr, hcells tr e m hm]
    obtain ⟨rest, rfl⟩ := hpre
    refine hnul e ?_ m hm
    rw [trace_append, htr]
    exact List.mem_append_left _ (List.mem_append_right _ List.mem_cons_self)

/-- What is not printed on demand may be called. -/
theorem step_demand {cap : Nat} {message : Call × Answer → Option (Delivery cap)} {F : Prop}
    {c : Call} (r : Answer) (hc : isPrint c = false) :
    (demandSpec (printOf message) isPrint F).step none c r = some (printOf message (c, r)) :=
  if_pos (.inr ⟨rfl, hc⟩)

theorem step_print {cap : Nat} {message : Call × Answer → Option (Delivery cap)}
    {F : Prop} {cells : Bytes}
    (hother : ∀ cells r, message (.print cells, r) = none) (r : Answer) :
    (demandSpec (printOf message) isPrint F).step (some (.print cells))
      (.print cells) r = some none := by
  refine (if_pos (.inl rfl)).trans ?_
  rw [printOf, hother, Option.map_none]

theorem keeps_tcpConnectionHandshake_demand :
    Keeps (demandSpec (printOf clientMessage) isPrint False) none tcpConnectionHandshake
      fun _ due => due = none := by
  have hsetup := SocketLemmas.only_tcpInitAcceptSocket (F := False) (P := Call.isSocketSetup)
    (fun _ hc => hc) generalPort
  refine keeps_bind ((hsetup.keeps (fun c r hc => ?_) fun h => h.elim).mono
    fun (sockFd, newFd, addr) due hdue => ?_)
  · cases c <;> first | rfl | exact Bool.noConfusion hc
  · subst hdue
    refine keeps_call fun r _ => ⟨none, rfl, keeps_call fun r _ => ⟨_, step_demand r rfl, ?_⟩⟩
    simp only [ret_bind]
    by_cases hret : r.ret < 0
    · have hnone : printOf clientMessage (.recv newFd maxRecv, r) = none := by
        simp [printOf, clientMessage, hret]
      rw [if_pos hret, hnone]
      exact keeps_call fun _ _ => ⟨none, rfl, keeps_call fun _ _ => ⟨none, rfl, keeps_ret rfl⟩⟩
    · have hsome : printOf clientMessage (.recv newFd maxRecv, r) =
          some (.print (Delivery.ofOffer maxRecv r.offer r.stale).buffer.cells) := by
        simp [printOf, clientMessage, hret]
      rw [if_neg hret, hsome]
      exact keeps_call fun r _ => ⟨none, step_print (fun _ _ => rfl) r,
        keeps_call fun _ _ => ⟨none, rfl,
        keeps_call fun _ _ => ⟨none, rfl, keeps_call fun _ _ => ⟨none, rfl, keeps_ret rfl⟩⟩⟩⟩

/-- Polling the control interface for an event. -/
theorem keeps_fetch_demand {α : Type} {F : Prop} {message : Call × Answer → Option Message}
    {k : Option Message → Drv α} {Q : α → Option Call → Prop}
    (hnone : Keeps (demandSpec (printOf message) isPrint F) none (k none) Q)
    (hsome : ∀ r m, delivered r = some m → Keeps (demandSpec (printOf message) isPrint F)
      (printOf message (.wpaCtrlRecv messageCap, r)) (k (some m)) Q)
    (hfailed : ∀ r, delivered r = none → message (.wpaCtrlRecv messageCap, r) = none)
    (pending : Answer) :
    Keeps (demandSpec (printOf message) isPrint F) none
      ((if pending.isSet then recieveMessage else .ret none).bind k) Q := by
  refine keeps_poll (fun _ => hnone) fun _ r _ => ⟨_, step_demand r rfl, ?_⟩
  cases hd : delivered r with
  | none =>
    rw [printOf, hfailed r hd]
    exact hnone
  | some m => exact hsome r m hd

theorem keeps_negotiationRound_demand {r : Answer} {m : Message} (hm : delivered r = some m) :
    Keeps (demandSpec (printOf printedEvent) isPrint True)
      (printOf printedEvent (.wpaCtrlRecv messageCap, r))
        (negotiationRound m) fun _ due => due = none := by
  have hdue : printOf printedEvent (.wpaCtrlRecv messageCap, r) = some (.print m.buffer.cells) := by
    simp [printOf, printedEvent, hm]
  rw [hdue]
  simp only [negotiationRound, bind_eq, perform_bind]
  rw [testType_eq m (by decide), testType_eq m (by decide), testType_eq m (by decide)]
  simp only [ret_bind]
  refine keeps_call fun r _ => ⟨none, step_print (fun _ _ => rfl) r, ?_⟩
  split
  · refine keeps_bind (keeps_ofOption (fun name _ => ?_) fun _ => ⟨trivial, rfl⟩)
    exact keeps_call fun _ _ => ⟨none, rfl, keeps_ret rfl⟩
  · split
    · exact keeps_ret rfl
    · split <;> exact keeps_ret rfl

theorem keeps_negotiationLoop_demand :
    Keeps (demandSpec (printOf printedEvent) isPrint True) none negotiationLoop
      fun _ due => due = none := by
  refine keeps_loop (· = none) rfl fun due hdue pending _ => ⟨none, by subst hdue; rfl, ?_⟩
  refine (keeps_fetch_demand (Q := fun (_ : Option Bool) due => due = none) (by exact keeps_ret rfl)
    (fun r m hm => keeps_negotiationRound_demand hm) (fun r hr => hr) pending).mono ?_
  rintro o due rfl
  cases o with
  | none => rfl
  | some connected => exact keeps_ret rfl

theorem keeps_connectToDevice_demand (mac : Bytes) :
    Keeps (demandSpec (printOf printedEvent) isPrint True) none (connectToDevice mac)
      fun _ due => due = none := by
  simp only [connectToDevice, bind_eq, system_bind]
  refine keeps_call fun r _ => ⟨none, rfl, keeps_bind (keeps_negotiationLoop_demand.mono ?_)⟩
  rintro connected due rfl
  exact keeps_call fun _ _ => ⟨none, rfl, keeps_ret rfl⟩

theorem keeps_stopRound_demand :
    Keeps (demandSpec (printOf printedDisconnect) isPrint False) none stopRound
      fun _ due => due = none := by
  refine keeps_call fun listening _ => ⟨none, rfl, ?_⟩
  split
  · exact keeps_ret rfl
  · exact keeps_call fun _ _ => ⟨none, rfl, keeps_ret rfl⟩

theorem keeps_connectedLoop_demand :
    Keeps (demandSpec (printOf printedDisconnect) isPrint False) none connectedLoop
      fun _ due => due = none := by
  refine keeps_loop (· = none) rfl fun due hdue pending _ => ⟨none, by subst hdue; rfl, ?_⟩
  refine (keeps_fetch_demand (Q := fun _ due => due = none) keeps_stopRound_demand
    (fun r m hm => ?_) (fun r hr => by simp [printedDisconnect, printedEvent, hr]) pending).mono ?_
  · simp only [bind_eq]
    rw [testType_eq m (by decide)]
    simp only [ret_bind]
    cases ht : isType m deviceDisconnected with
    | true =>
      have hdue : printOf printedDisconnect (.wpaCtrlRecv messageCap, r) =
          some (.print m.buffer.cells) := by
        simp [printOf, printedDisconnect, printedEvent, hm, ht]
      rw [hdue]
      exact keeps_call fun r _ => ⟨none, step_print (fun _ _ => rfl) r,
        keeps_call fun _ _ => ⟨none, rfl,
        keeps_call fun _ _ => ⟨none, rfl, keeps_ret rfl⟩⟩⟩
    | false =>
      have hdue : printOf printedDisconnect (.wpaCtrlRecv messageCap, r) = none := by
        simp [printOf, printedDisconnect, printedEvent, hm, ht]
      rw [hdue]
      exact keeps_stopRound_demand
  · rintro o due rfl
    cases o with
    | none => rfl
    | some u => exact keeps_ret rfl

/-! ## 3. Stores behind what was received -/

/-- The NUL of a message finds room unless the message fills the buffer. -/
theorem keeps_write {α : Type} {fatal : Call × Answer → Bool} {cap : Nat}
    {offer stale : Bytes} {full : Bool}
    (hfull : full = true ↔ cap ≤ offer.length) {k : Buffer cap → Drv α} {Q : α → Bool → Prop}
    (hk : ∀ buffer, full = false → Keeps (fatalSpec fatal) false (k buffer) Q) :
    Keeps (fatalSpec fatal) full ((Prog.ofOption ((Delivery.ofOffer cap offer stale).buffer.write
      (Delivery.ofOffer cap offer stale).bytes.length 0)).bind k) Q := by
  refine keeps_bind (keeps_ofOption (fun buffer hbuffer => ?_) fun hnone => ?_)
  · have hroom : full = false := by
      rw [Bool.eq_false_iff, ne_eq, hfull, ← Delivery.write_terminator_eq_none_iff offer stale 0]
      rw [hbuffer]
      exact Option.some_ne_none buffer
    rw [hroom]
    exact hk buffer hroom
  · exact hfull.mpr ((Delivery.write_terminator_eq_none_iff offer stale 0).mp hnone)

theorem keeps_udpConnectionHandshake_fatal :
    Keeps (fatalSpec fillsDatagram) false udpConnectionHandshake
      fun _ undone => undone = false := by
  have hsetup := SocketLemmas.only_udpInitSocket (F := False) (P := Call.isSocketSetup)
    (fun _ hc => hc) generalPort
  refine keeps_bind ((hsetup.keeps (fun c r hc => ?_) fun h => h.elim).mono
    fun sockFd undone hundone => ?_)
  · cases c <;> first | rfl | exact Bool.noConfusion hc
  · subst hundone
    split
    · exact keeps_ret rfl
    · simp only [udpReceiveMsg, bind_eq, ask_bind, call_bind]
      refine keeps_call fun r _ => ⟨_, rfl, ?_⟩
      split
      · rename_i hret
        have hfine : fillsDatagram (.recvfrom sockFd maxRecv, r) = false := by
          rw [fillsDatagram, decide_eq_false (Int.not_le.mpr hret), Bool.false_and]
        rw [hfine]
        exact keeps_call fun _ _ => ⟨false, rfl, keeps_call fun _ _ => ⟨false, rfl, keeps_ret rfl⟩⟩
      · rename_i hret
        rw [Prog.bind_assoc]
        refine keeps_write (by simp [fillsDatagram, Int.not_lt.mp hret]) fun buffer _ => ?_
        simp only [pure_eq, ret_bind]
        rw [if_neg (by omega)]
        refine keeps_call fun _ _ => ⟨false, rfl, keeps_call fun _ _ => ⟨false, rfl, ?_⟩⟩
        refine keeps_call fun _ _ => ⟨false, rfl, keeps_call fun _ _ => ⟨false, rfl, ?_⟩⟩
        refine keeps_call fun _ _ => ⟨false, rfl, keeps_call fun _ _ => ⟨false, rfl, ?_⟩⟩
        exact keeps_call fun _ _ => ⟨false, rfl, keeps_ret rfl⟩

theorem keeps_executeChunk_fatal (b : Bytes) :
    Keeps (fatalSpec fillsChunk) false (executeChunk b) fun _ undone => undone = false := by
  refine keeps_call fun _ _ => ⟨false, rfl, ?_⟩
  split
  · exact keeps_call fun _ _ => ⟨false, rfl, keeps_ret rfl⟩
  · exact keeps_ret rfl

theorem keeps_receiveCommand_fatal (newFd : Int) (inSet : Bool) :
    Keeps (fatalSpec fillsChunk) false (receiveCommand newFd inSet)
      fun _ undone => undone = false := by
  cases inSet with
  | false => exact keeps_ret rfl
  | true =>
    change Keeps _ _ (.call (.recv newFd commandMaxRecv) fun r =>
      (receiveCommand newFd true).resume r) _
    refine keeps_call fun r _ => ⟨_, rfl, ?_⟩
    rw [receiveCommand_eq, fillsChunk]
    cases chunkOf (.recv newFd commandMaxRecv, r) with
    | none => exact keeps_ret rfl
    | some b =>
      by_cases hroom : b.length < commandMaxRecv
      · simp only [hroom, if_true, Option.any_some, Nat.not_le.mpr hroom, decide_false]
        exact keeps_executeChunk_fatal b
      · simp only [hroom, if_false, Option.any_some, Nat.not_lt.mp hroom, decide_true]
        exact keeps_fault rfl

theorem keeps_commandLoop_fatal (newFd : Int) (runPlaceholder : Bool) :
    Keeps (fatalSpec fillsChunk) false (commandLoop newFd runPlaceholder)
      fun _ undone => undone = false := by
  cases runPlaceholder with
  | false => exact keeps_ret rfl
  | true =>
    refine keeps_loop (· = false) rfl fun undone hundone r _ => ⟨false, by subst hundone; rfl, ?_⟩
    simp only [bind_eq, ask_bind, pure_eq]
    refine keeps_bind ((keeps_receiveCommand_fatal newFd r.isSet).mono fun _ undone hundone => ?_)
    subst hundone
    refine keeps_call fun flag _ => ⟨false, rfl, ?_⟩
    cases flag.isSet with
    | true => exact keeps_ret rfl
    | false => exact keeps_ret (keeps_ret rfl)

theorem keeps_listenForCommands_fatal :
    Keeps (fatalSpec fillsChunk) false listenForCommands fun _ undone => undone = false := by
  have hsetup := SocketLemmas.only_tcpInitAcceptSocket (F := False) (P := Call.isSocketSetup)
    (fun _ hc => hc) commandPort
  refine keeps_bind ((hsetup.keeps (fun c r hc => ?_) fun h => h.elim).mono
    fun (sockFd, newFd, addr) undone hundone => ?_)
  · cases c <;> first | rfl | exact Bool.noConfusion hc
  · subst hundone
    dsimp only
    split
    · exact keeps_call fun _ _ => ⟨false, rfl, keeps_ret rfl⟩
    · simp only [bind_eq, ask_bind, perform_bind]
      refine keeps_call fun flag _ => ⟨false, rfl, keeps_bind ?_⟩
      refine (keeps_commandLoop_fatal newFd flag.isSet).mono fun _ undone hundone => ?_
      subst hundone
      exact keeps_call fun _ _ => ⟨false, rfl, keeps_call fun _ _ => ⟨false, rfl, keeps_ret rfl⟩⟩

/-! ## 4. Prints of messages with a NUL stored behind them -/

/-- A print meets a NUL among what was written for the last message. -/
def printsSpec : Spec Call Answer (List (Call × Answer)) :=
  historySpec (fun _ _ _ => True) fun past c =>
    match c with
    | .print cells => decide (0 ∈ cells.take (writtenLast past.reverse))
    | _ => true

theorem printsBounded_of_keeps {α : Type} {p : Drv α} {Q : α → List (Call × Answer) → Prop}
    (h : Keeps printsSpec [] p Q) (rs : List Answer) : PrintsBounded p rs := by
  intro rs' cells _ hprint
  have hallowed := h.pending_allowed (fun _ _ => ⟨default, trivial⟩)
    (admits_of_true (fun _ _ _ => trivial) _ _) hprint
  rw [List.reverse_reverse] at hallowed
  exact of_decide_eq_true hallowed

theorem keeps_listenForCommands_prints :
    Keeps printsSpec [] listenForCommands fun _ _ => True := by
  have honly := CommandHandlerLemmas.only_listenForCommands (P := Call.isCommandHandling)
    fun _ hc => hc
  refine honly.keeps_inv (fun _ => True) trivial
    (fun past c r _ hc _ => ⟨(c, r) :: past, ?_, trivial⟩) fun _ _ _ => trivial
  cases c <;> first | rfl | exact Bool.noConfusion hc

theorem keeps_udpConnectionHandshake_prints :
    Keeps printsSpec [] udpConnectionHandshake fun _ _ => True := by
  have honly := SocketLemmas.only_udpInitSocket (F := False) (P := Call.isSocketSetup)
    (fun _ hc => hc) generalPort
  refine keeps_bind ((honly.keeps_inv (fun _ => True) trivial (fun past c r _ hc _ =>
    ⟨(c, r) :: past, ?_, trivial⟩) fun _ _ _ => trivial).mono fun sockFd past _ => ?_)
  · cases c <;> first | rfl | exact Bool.noConfusion hc
  · split
    · exact keeps_ret trivial
    · simp only [udpReceiveMsg, bind_eq, ask_bind, call_bind]
      refine keeps_allowed rfl fun r _ => ?_
      split
      · exact keeps_allowed rfl fun _ _ => keeps_allowed rfl fun _ _ => keeps_ret trivial
      · rename_i hret
        rw [Prog.bind_assoc]
        refine keeps_bind (keeps_ofOption (fun buffer hbuffer => ?_) fun _ => trivial)
        simp only [pure_eq, ret_bind]
        rw [if_neg (by omega)]
        refine keeps_allowed rfl fun set _ => keeps_allowed ?_ fun _ _ => ?_
        · -- storing the address writes nothing to the buffer
          have hwritten : writtenLast (((.setClientIp (getSockaddrIp r.addr), set) ::
              (.recvfrom sockFd maxRecv, r) :: past).reverse) =
              (r.offer.take maxRecv).length + 1 := by
            rw [List.reverse_cons, List.reverse_cons, writtenLast, List.foldl_append, ← writtenLast]
            refine writtenLast_snoc (e := (.recvfrom sockFd maxRecv, r)) ?_
            rw [writtenBy, if_neg hret]
          refine decide_eq_true ?_
          rw [hwritten]
          exact Buffer.mem_take_of_write hbuffer
        · refine keeps_allowed rfl fun _ _ => keeps_allowed rfl fun _ _ => ?_
          refine keeps_allowed rfl fun _ _ => keeps_allowed rfl fun _ _ => ?_
          exact keeps_allowed rfl fun _ _ => keeps_ret trivial

/-! ## 5. Both -/

theorem inBounds_iff_stores {α : Type} {p : Drv α} {rs : List Answer} {fatal : Call × Answer → Bool}
    (h : Keeps (fatalSpec fatal) false p fun _ undone => undone = false)
    (hprints : PrintsBounded p rs) :
    InBounds p rs ↔ ∀ e ∈ p.trace rs, fatal e = false := by
  constructor
  · intro hbounds e he
    rw [Bool.eq_false_iff]
    exact fun hfatal => hbounds.stores ((h.fault_iff_fatal rs).mpr ⟨e, he, hfatal⟩)
  · intro hfine
    refine ⟨fun hfault => ?_, hprints⟩
    obtain ⟨e, he, hfatal⟩ := (h.fault_iff_fatal rs).mp hfault
    exact Bool.noConfusion (hfatal.symm.trans (hfine e he))

theorem inBounds_iff_prints {α : Type} {cap : Nat} {p : Drv α}
    {message : Call × Answer → Option (Delivery cap)}
    (hwritten : ∀ e m, message e = some m → writtenBy e = some m.bytes.length)
    (h : Keeps (demandSpec (printOf message) isPrint False) none p fun _ due => due = none)
    (rs : List Answer) :
    InBounds p rs ↔ ∀ e ∈ p.trace rs, ∀ m, message e = some m → 0 ∈ m.bytes := by
  rw [← printsBounded_iff hwritten h rs]
  refine ⟨InBounds.prints, fun hprints => ⟨?_, hprints⟩⟩
  exact h.after_ne_fault (fun _ _ _ => trivial) (fun _ hfaults => hfaults.1) rs

theorem writtenBy_clientMessage (e : Call × Answer) (m : Delivery maxRecv)
    (hm : clientMessage e = some m) : writtenBy e = some m.bytes.length := by
  obtain ⟨c, r⟩ := e
  cases c <;> try cases hm
  simp only [clientMessage] at hm
  split at hm
  · cases hm
  · rename_i len hno
    obtain ⟨hret, hlen⟩ := not_or.mp hno
    obtain rfl := Option.some.inj hm
    obtain rfl := Decidable.not_not.mp hlen
    exact if_neg hret

theorem writtenBy_printedEvent (e : Call × Answer) (m : Message) (hm : printedEvent e = some m) :
    writtenBy e = some m.bytes.length := by
  obtain ⟨c, r⟩ := e
  cases c <;> try cases hm
  exact congrArg (Option.map fun m => m.bytes.length) hm

theorem writtenBy_printedDisconnect (e : Call × Answer) (m : Message)
    (hm : printedDisconnect e = some m) : writtenBy e = some m.bytes.length :=
  writtenBy_printedEvent e m (Option.filter_eq_some_iff.mp hm).1

end ReceiveBuffersLemmas

open ReceiveBuffersLemmas

/-! ## 6. The five functions -/

/-- For which receives the accesses to the buffers stay in bounds. Over UDP and for
commands it is the NUL stored behind the message, elsewhere the NUL a print looks
for. `connect_to_device` stores nothing itself. -/
theorem receiveBuffers_bounded_iff (mac : Bytes) (rs : List Answer) :
    (InBounds udpConnectionHandshake rs ↔
      ∀ e ∈ udpConnectionHandshake.trace rs, fillsDatagram e = false) ∧
    (InBounds tcpConnectionHandshake rs ↔
      ∀ e ∈ tcpConnectionHandshake.trace rs, ∀ m, clientMessage e = some m → 0 ∈ m.bytes) ∧
    (InBounds listenForCommands rs ↔ ∀ e ∈ listenForCommands.trace rs, fillsChunk e = false) ∧
    (PrintsBounded (connectToDevice mac) rs ↔
      ∀ e ∈ (connectToDevice mac).trace rs, ∀ m, printedEvent e = some m → 0 ∈ m.bytes) ∧
    (InBounds connectedLoop rs ↔
      ∀ e ∈ connectedLoop.trace rs, ∀ m, printedDisconnect e = some m → 0 ∈ m.bytes) := by
  refine ⟨?_, ?_, ?_, ?_, ?_⟩
  · exact inBounds_iff_stores keeps_udpConnectionHandshake_fatal
      (printsBounded_of_keeps keeps_udpConnectionHandshake_prints rs)
  · exact inBounds_iff_prints writtenBy_clientMessage keeps_tcpConnectionHandshake_demand rs
  · exact inBounds_iff_stores keeps_listenForCommands_fatal
      (printsBounded_of_keeps keeps_listenForCommands_prints rs)
  · exact printsBounded_iff writtenBy_printedEvent (keeps_connectToDevice_demand mac) rs
  · exact inBounds_iff_prints writtenBy_printedDisconnect keeps_connectedLoop_demand rs

/-- A datagram as long as the buffer of `udp_receive_msg`. -/
def fullDatagram : List Answer :=
  [{}, { ret := 3 }, {}, { ret := 1024, offer := List.replicate 1024 65 }]

/-- Its NUL is stored behind the buffer. -/
theorem full_datagram_overflows : ¬ ∀ rs, InBounds udpConnectionHandshake rs := by
  intro h
  refine (h fullDatagram).stores ?_
  rw [keeps_udpConnectionHandshake_fatal.fault_iff_fatal]
  refine ⟨(.recvfrom 3 maxRecv, { ret := 1024, offer := List.replicate 1024 65 }), ?_, ?_⟩
  · decide +kernel
  · decide +kernel

end P2pDriver
