import P2pDriver.Library.Monitor
import P2pDriver.CommandHandler
import Mathlib.Data.List.Flatten

/-!
# Commands and TCP segments

The client sends packets of three bytes over a TCP stream. `listen_for_commands`
takes what one `recv` returns for one packet. This module says what it executes
on every segmentation of a stream, and when that is what the client sent.

Results:
1. `receiveCommand_eq`: what one `recv` returns leads to at most one command, that
   of its first three bytes.
2. `executed_eq`: a run executes the commands of its chunks, in order.
3. `listenForCommands_executes_iff`: these are the commands sent exactly when every
   chunk is one packet.
4. `coalesced_packets`: two packets that arrive together are one command.
-/

namespace P2pDriver

open Resumable Prog ControlOptions

/-! ## 1. Packets and segmentations -/

/-- What a packet switches. -/
inductive Light where
  | flashlight
  | left
  | right
deriving DecidableEq, Repr

/-- A packet without a value. -/
inductive Action where
  | ready
  | stop
  | terminate
deriving DecidableEq, Repr

/-- A packet: one that switches a light on or off, or one whose third byte has
no meaning. -/
inductive Packet where
  | toggle (light : Light) (value : Bool)
  | action (a : Action) (option : Byte)
deriving DecidableEq, Repr

/-- The three bytes of a packet. -/
def Packet.bytes : Packet → Bytes
  | .toggle light value =>
    [controlByte,
      match light with | .flashlight => flashlight | .left => leftLed | .right => rightLed,
      if value then on else off]
  | .action a option =>
    [controlByte, match a with | .ready => ready | .stop => stop | .terminate => terminate, option]

/-- The command a packet stands for. -/
def Packet.executor : Packet → Executor
  | .toggle .flashlight value => .flashlightToggle value
  | .toggle .left value => .leftLedToggle value
  | .toggle .right value => .rightLedToggle value
  | .action .ready _ => .runStream
  | .action .stop _ => .stopStream
  | .action .terminate _ => .terminateExecution

/-- A way of cutting a packet stream into what single calls of `recv` return. -/
structure Segmentation (packets : List Packet) where
  chunks : List Bytes
  nonempty : ∀ b ∈ chunks, b ≠ []
  fits : ∀ b ∈ chunks, b.length ≤ commandMaxRecv
  whole : chunks.flatten = packets.flatMap Packet.bytes

/-- The chunk an answered call has received. -/
def chunkOf : Call × Answer → Option Bytes
  | (.recv _ len, r) =>
    if r.ret < 0 ∨ r.offer.take len = [] then none else some (r.offer.take len)
  | _ => none

/-- The chunks received in a run. -/
def receivedChunks (tr : List (Call × Answer)) : List Bytes := tr.filterMap chunkOf

def executorOf : Call × Answer → Option Executor
  | (.execute e, _) => some e
  | _ => none

/-- The commands executed in a run. -/
def executed (tr : List (Call × Answer)) : List Executor := tr.filterMap executorOf

/-- A run of `listen_for_commands` whose calls of `recv` return `chunks`, up to
where the last one has been dealt with. -/
structure Delivers (chunks : List Bytes) (rs : List Answer) : Prop where
  received : receivedChunks (listenForCommands.trace rs) <+: chunks
  settled : listenForCommands.after rs = .fault ∨
    receivedChunks (listenForCommands.trace rs) = chunks ∧
      (listenForCommands.after rs = .ret () ∨
        ∃ fd, (listenForCommands.after rs).pending = some (.select fd))

/-! ## 2. One chunk -/

/-- The command of the first three bytes of a chunk. -/
def parseChunk : Bytes → Option Executor
  | b0 :: b1 :: b2 :: _ => if b0 = controlByte then switchCommand b1 (b2 = on) else none
  | _ => none

/-- The command a chunk leads to. A chunk that fills the buffer leads to none: the
NUL behind it is stored outside the buffer. -/
def chunkCommand (b : Bytes) : Option Executor :=
  if b.length < commandMaxRecv then parseChunk b else none

/-- The `execute_command` of a chunk. -/
def executeChunk (b : Bytes) : Drv Unit :=
  .call (.mark .executeCommand) fun _ =>
    match parseChunk b with
    | some e => .call (.execute e) fun _ => .ret ()
    | none => .ret ()

namespace CommandStreamLemmas

/-- The command of a buffer of which `bytesReceived` bytes count. -/
def parseBuffer (cells : Bytes) (bytesReceived : Int) : Option Executor :=
  if bytesReceived > 2 then parseChunk cells else none

theorem executeCommand_eq_parse {cap : Nat} (commandBuffer : Buffer cap) {bytesReceived : Int}
    (h : bytesReceived ≤ cap) : executeCommand commandBuffer bytesReceived =
      .call (.mark .executeCommand) fun _ =>
        match parseBuffer commandBuffer.cells bytesReceived with
        | some e => .call (.execute e) fun _ => .ret ()
        | none => .ret () := by
  simp only [executeCommand, bind_eq, perform_bind, parseBuffer]
  by_cases hlen : bytesReceived > 2
  · -- three cells are there to be read
    have hcap : 2 < cap := by omega
    obtain ⟨b0, hd0, h0⟩ := commandBuffer.drop_eq_cons (i := 0) (by omega)
    obtain ⟨b1, hd1, h1⟩ := commandBuffer.drop_eq_cons (i := 1) (by omega)
    obtain ⟨b2, hd2, h2⟩ := commandBuffer.drop_eq_cons hcap
    rw [List.drop_zero, hd1, hd2] at hd0
    simp only [if_pos hlen, h0, h1, h2, ofOption_some, ret_bind]
    rw [hd0, parseChunk]
    split
    · cases switchCommand b1 (decide (b2 = on)) <;> rfl
    · rfl
  · simp only [if_neg hlen]
    rfl

/-- The head of a chunk is not touched by the NUL behind it. -/
theorem parseBuffer_write {received : Delivery commandMaxRecv} {buffer : Buffer commandMaxRecv}
    (h : received.buffer.write received.bytes.length 0 = some buffer) :
    parseBuffer buffer.cells received.bytes.length = parseChunk received.bytes := by
  obtain ⟨b, stale, fits⟩ := received
  have hcells : buffer.cells = (b ++ (Delivery.mk b stale fits).residue).set b.length 0 := by
    unfold Buffer.write at h
    split at h
    · rw [← Option.some.inj h]
      rfl
    · cases h
  rw [hcells, List.set_append_right _ _ (Nat.le_refl _)]
  rcases b with _ | ⟨b0, _ | ⟨b1, _ | ⟨b2, rest⟩⟩⟩
  · rfl
  · rfl
  · rfl
  · have hlen : ((b0 :: b1 :: b2 :: rest).length : Int) > 2 := by
      rw [List.length_cons, List.length_cons, List.length_cons]
      omega
    exact if_pos hlen

theorem executeCommand_eq {received : Delivery commandMaxRecv} {buffer : Buffer commandMaxRecv}
    (h : received.buffer.write received.bytes.length 0 = some buffer) :
    executeCommand buffer received.bytes.length = executeChunk received.bytes := by
  have hfits : (received.bytes.length : Int) ≤ commandMaxRecv := Int.ofNat_le.mpr received.fits
  rw [executeCommand_eq_parse buffer hfits, parseBuffer_write h, executeChunk]

end CommandStreamLemmas

open CommandStreamLemmas

/-- A chunk that leaves room for its NUL is executed as one packet, and one that
does not is stored beyond the buffer. -/
theorem receiveCommand_eq (newFd : Int) (r : Answer) :
    (receiveCommand newFd true).resume r =
      match chunkOf (.recv newFd commandMaxRecv, r) with
      | none => .ret ()
      | some b => if b.length < commandMaxRecv then executeChunk b else .fault := by
  change (if r.ret < 0 then _ else _ : Drv Unit) = _
  by_cases hret : r.ret < 0
  · simp [chunkOf, hret]
  · by_cases hnil : r.offer.take commandMaxRecv = []
    · simp [chunkOf, hret, hnil, Delivery.ofOffer]
    · have hchunk : chunkOf (.recv newFd commandMaxRecv, r) =
          some (r.offer.take commandMaxRecv) := by
        simp [chunkOf, hret, hnil]
      let received := Delivery.ofOffer commandMaxRecv r.offer r.stale
      have hpos : received.bytes.length > 0 := List.length_pos_iff.mpr hnil
      rw [if_neg hret, hchunk]
      change (if received.bytes.length > 0 then _ else _ : Drv Unit) =
        if received.bytes.length < _ then executeChunk received.bytes else _
      rw [if_pos hpos]
      cases hw : received.buffer.write received.bytes.length 0 with
      | none =>
        rw [if_neg (Nat.not_lt.mpr ((Buffer.write_eq_none_iff _ _ _).mp hw))]
        rfl
      | some buffer =>
        have hroom : received.bytes.length < commandMaxRecv := by
          by_contra hfull
          rw [(Buffer.write_eq_none_iff _ _ 0).mpr (Nat.not_lt.mp hfull)] at hw
          cases hw
        rw [if_pos hroom, ← executeCommand_eq hw]
        rfl

/-! ## 3. Runs -/

/-- What a run has received and executed, and the command it has still to execute. -/
structure CommandLog where
  received : List Bytes
  executed : List Executor
  due : Option Executor

namespace CommandLog

/-- Nothing has happened. -/
def empty : CommandLog := ⟨[], [], none⟩

/-- The chunk `b` is received. -/
def receive (log : CommandLog) (b : Bytes) : CommandLog :=
  ⟨log.received ++ [b], log.executed, chunkCommand b⟩

/-- The due command is executed. -/
def execute (log : CommandLog) (e : Executor) : CommandLog :=
  ⟨log.received, log.executed ++ [e], none⟩

/-- All commands but the due one are executed. -/
def Consistent (log : CommandLog) : Prop :=
  log.executed ++ log.due.toList = log.received.filterMap chunkCommand

end CommandLog

/-- A command is executed once it is due, and nothing is received or waited for
before that. -/
def commandSpec : Spec Call Answer CommandLog where
  admits _ _ _ := True
  step log c r :=
    match c with
    | .recv fd len =>
      match chunkOf (.recv fd len, r) with
      | none => some log
      | some b => if log.due = none then some (log.receive b) else none
    | .execute e => if log.due = some e then some (log.execute e) else none
    | .select _ | .isListeningForCommands => if log.due = none then some log else none
    | _ => some log
  faults log := log.due = none ∧ ∃ b ∈ log.received, b.length = commandMaxRecv

namespace CommandStreamLemmas

/-- The calls of the loops that have to do with commands. -/
def isCommandCall : Call → Bool
  | .recv _ _ | .execute _ | .select _ | .isListeningForCommands => true
  | _ => false

theorem commandSpec_neutral {c : Call} (h : isCommandCall c = false) (log : CommandLog)
    (r : Answer) :
    commandSpec.step log c r = some log := by
  cases c <;> first | rfl | exact nomatch h

theorem keeps_executeChunk {log : CommandLog} {b : Bytes} (hroom : b.length < commandMaxRecv) :
    Keeps commandSpec (log.receive b) (executeChunk b) fun _ log' => log'.due = none := by
  have hdue : (log.receive b).due = parseChunk b := if_pos hroom
  refine keeps_call fun _ _ => ⟨_, rfl, ?_⟩
  cases he : parseChunk b with
  | none => exact keeps_ret (hdue.trans he)
  | some e => exact keeps_call fun _ _ => ⟨_, if_pos (hdue.trans he), keeps_ret rfl⟩

/-- The part of a round between two reads of the flag. -/
theorem keeps_receiveCommand {log : CommandLog} (hdue : log.due = none) (newFd : Int)
    (inSet : Bool) :
    Keeps commandSpec log (receiveCommand newFd inSet) fun _ log' => log'.due = none := by
  cases inSet with
  | false => exact keeps_ret hdue
  | true =>
    change Keeps _ _ (.call (.recv newFd commandMaxRecv) fun r =>
      (receiveCommand newFd true).resume r) _
    refine keeps_call fun r _ => ?_
    rw [receiveCommand_eq]
    cases hb : chunkOf (.recv newFd commandMaxRecv, r) with
    | none => exact ⟨log, by simp only [commandSpec, hb], keeps_ret hdue⟩
    | some b =>
      refine ⟨log.receive b, by simp only [commandSpec, hb, if_pos hdue], ?_⟩
      by_cases hroom : b.length < commandMaxRecv
      · simp only [if_pos hroom]
        exact keeps_executeChunk hroom
      · -- the chunk fills the buffer, and its NUL does not fit
        simp only [if_neg hroom]
        refine keeps_fault ⟨if_neg hroom, b, List.mem_append_right _ List.mem_cons_self, ?_⟩
        have hle : b.length ≤ commandMaxRecv := by
          simp only [chunkOf] at hb
          split at hb
          · exact nomatch hb
          · exact Option.some.inj hb ▸ List.length_take_le _ _
        exact Nat.le_antisymm hle (Nat.not_lt.mp hroom)

theorem keeps_commandLoop {log : CommandLog} (hdue : log.due = none) (newFd : Int)
    (runPlaceholder : Bool) :
    Keeps commandSpec log (commandLoop newFd runPlaceholder) fun _ log' => log'.due = none := by
  cases runPlaceholder with
  | false => exact keeps_ret hdue
  | true =>
    -- at the head of every round no command is due
    refine keeps_loop (fun log => log.due = none) hdue fun log hdue r _ =>
      ⟨log, by simp only [commandSpec, if_pos hdue], ?_⟩
    simp only [bind_eq, ask_bind, pure_eq]
    refine keeps_bind ((keeps_receiveCommand hdue newFd r.isSet).mono fun _ log' hdue' => ?_)
    refine keeps_call fun flag _ => ⟨log', by simp only [commandSpec, if_pos hdue'], ?_⟩
    cases flag.isSet with
    | true => exact keeps_ret hdue'
    | false => exact keeps_ret (keeps_ret hdue')

theorem keeps_listenForCommands :
    Keeps commandSpec .empty listenForCommands fun _ log => log.due = none := by
  have hsetup : Only (fun c => !isCommandCall c) False (tcpInitAcceptSocket commandPort) :=
    SocketLemmas.only_tcpInitAcceptSocket
      (fun c hc => by cases c <;> first | rfl | exact nomatch hc) _
  refine keeps_bind ((hsetup.keeps (S := commandSpec) (m := .empty) (fun c r hc => ?_) nofun).mono
    fun (sockFd, newFd, addr) log hlog => ?_)
  · exact commandSpec_neutral (by simpa using hc) _ r
  · subst hlog
    dsimp only
    split
    · exact keeps_call fun _ _ => ⟨_, rfl, keeps_ret rfl⟩
    · simp only [bind_eq, ask_bind]
      refine keeps_call fun r _ => ⟨_, rfl, ?_⟩
      refine keeps_bind ((keeps_commandLoop rfl newFd r.isSet).mono fun _ log hdue => ?_)
      exact keeps_call fun _ _ => ⟨_, rfl, keeps_call fun _ _ => ⟨_, rfl, keeps_ret hdue⟩⟩

/-- One step of the monitor keeps its books. -/
theorem commandSpec_step {log log' : CommandLog} {c : Call} {r : Answer}
    (h : commandSpec.step log c r = some log') (hlog : log.Consistent) :
    log'.Consistent ∧ log'.received = log.received ++ (chunkOf (c, r)).toList ∧
      log'.executed = log.executed ++ (executorOf (c, r)).toList := by
  have hsame : log' = log → chunkOf (c, r) = none → executorOf (c, r) = none →
      log'.Consistent ∧ log'.received = log.received ++ (chunkOf (c, r)).toList ∧
        log'.executed = log.executed ++ (executorOf (c, r)).toList := by
    rintro rfl hchunk hexec
    rw [hchunk, hexec, Option.toList_none, Option.toList_none, List.append_nil, List.append_nil]
    exact ⟨hlog, rfl, rfl⟩
  cases hc : isCommandCall c with
  | false =>
    rw [commandSpec_neutral hc] at h
    refine hsame (Option.some.inj h).symm ?_ ?_
    · cases c <;> first | rfl | exact nomatch hc
    · cases c <;> first | rfl | exact nomatch hc
  | true =>
    cases c with
    | recv fd len =>
      simp only [commandSpec] at h
      cases hb : chunkOf (.recv fd len, r) with
      | none =>
        rw [hb] at h
        exact hb ▸ hsame (Option.some.inj h).symm hb rfl
      | some b =>
        simp only [hb] at h
        split at h
        · rename_i hdue
          obtain rfl := Option.some.inj h
          rw [CommandLog.Consistent, hdue, Option.toList_none, List.append_nil] at hlog
          refine ⟨?_, rfl, (List.append_nil _).symm⟩
          simp only [CommandLog.Consistent, CommandLog.receive, List.filterMap_append, ← hlog]
          cases hb' : chunkCommand b <;> simp [hb']
        · exact nomatch h
    | execute e =>
      simp only [commandSpec] at h
      split at h
      · rename_i hdue
        obtain rfl := Option.some.inj h
        rw [CommandLog.Consistent, hdue] at hlog
        refine ⟨?_, (List.append_nil _).symm, rfl⟩
        simpa [CommandLog.Consistent, CommandLog.execute] using hlog
      · exact nomatch h
    | select fd =>
      simp only [commandSpec] at h
      split at h
      · exact hsame (Option.some.inj h).symm rfl rfl
      · exact nomatch h
    | isListeningForCommands =>
      simp only [commandSpec] at h
      split at h
      · exact hsame (Option.some.inj h).symm rfl rfl
      · exact nomatch h
    | _ => exact nomatch hc

theorem commandSpec_exec {log log' : CommandLog} {tr : List (Call × Answer)}
    (h : commandSpec.exec log tr = some log') (hlog : log.Consistent) :
    log'.Consistent ∧ log'.received = log.received ++ receivedChunks tr ∧
      log'.executed = log.executed ++ executed tr := by
  induction tr generalizing log with
  | nil =>
    obtain rfl := Option.some.inj h
    exact ⟨hlog, (List.append_nil _).symm, (List.append_nil _).symm⟩
  | cons e tr ih =>
    obtain ⟨c, r⟩ := e
    rw [Spec.exec_cons] at h
    obtain ⟨log₁, hstep, hexec⟩ := Option.bind_eq_some_iff.mp h
    obtain ⟨hlog₁, hrecv, hdone⟩ := commandSpec_step hstep hlog
    obtain ⟨hlog', hrecv', hdone'⟩ := ih hexec hlog₁
    refine ⟨hlog', ?_, ?_⟩
    · rw [hrecv', hrecv, List.append_assoc]
      cases hb : chunkOf (c, r) <;> simp [receivedChunks, hb]
    · rw [hdone', hdone, List.append_assoc]
      cases he : executorOf (c, r) <;> simp [executed, he]

end CommandStreamLemmas

/-- A run executes the commands of the chunks it receives, in order, up to the
one that may still be due; nothing is due where it waits, returns or faults. -/
theorem executed_eq {rs : List Answer}
    (h : listenForCommands.after rs = .fault ∨ listenForCommands.after rs = .ret () ∨
      ∃ fd, (listenForCommands.after rs).pending = some (.select fd)) :
    executed (listenForCommands.trace rs) =
        (receivedChunks (listenForCommands.trace rs)).filterMap chunkCommand ∧
      (listenForCommands.after rs = .fault →
        ∃ b ∈ receivedChunks (listenForCommands.trace rs), b.length = commandMaxRecv) := by
  obtain ⟨log, hexec, hk⟩ :=
    keeps_listenForCommands.exec rs (admits_of_true (fun _ _ _ => trivial) _ _)
  obtain ⟨hlog, hrecv, hdone⟩ := commandSpec_exec hexec rfl
  have hdue : log.due = none := by
    rcases h with hfault | hret | ⟨fd, hselect⟩
    · rw [hfault] at hk
      exact hk.faults.1
    · rw [hret] at hk
      exact hk.result
    · obtain ⟨log', hstep, -⟩ := hk.resume hselect (r := default) trivial
      simp only [commandSpec] at hstep
      split at hstep
      · assumption
      · exact nomatch hstep
  rw [CommandLog.Consistent, hdue, Option.toList_none, List.append_nil, hrecv, hdone] at hlog
  refine ⟨hlog, fun hfault => ?_⟩
  rw [hfault] at hk
  obtain ⟨b, hb, hlen⟩ := hk.faults.2
  rw [hrecv] at hb
  exact ⟨b, hb, hlen⟩

/-! ## 4. Segmentations -/

namespace CommandStreamLemmas

theorem parseChunk_bytes (p : Packet) : parseChunk p.bytes = some p.executor := by
  cases p with
  | toggle light value => cases light <;> cases value <;> rfl
  | action a option => cases a <;> rfl

theorem bytes_length (p : Packet) : p.bytes.length = 3 := by
  cases p <;> rfl

theorem chunkCommand_bytes (p : Packet) : chunkCommand p.bytes = some p.executor := by
  rw [chunkCommand, if_pos (by rw [bytes_length]; decide), parseChunk_bytes]

/-- A chunk with a command has three bytes. -/
theorem length_of_command {b : Bytes} {e : Executor} (h : chunkCommand b = some e) :
    3 ≤ b.length := by
  rw [chunkCommand] at h
  split at h
  · match b with
    | [] => exact nomatch h
    | [_] => exact nomatch h
    | [_, _] => exact nomatch h
    | b0 :: b1 :: b2 :: rest => simp
  · exact nomatch h

/-- Every command costs three bytes, and every chunk of another length at least
one more. -/
theorem cost_le (chunks : List Bytes) (h : ∀ b ∈ chunks, b ≠ []) :
    3 * (chunks.filterMap chunkCommand).length + chunks.countP (fun b => b.length ≠ 3) ≤
      chunks.flatten.length := by
  induction chunks with
  | nil => simp
  | cons b chunks ih =>
    have ih' := ih fun b' hb' => h b' (List.mem_cons_of_mem _ hb')
    have hpos : 0 < b.length := List.length_pos_iff.mpr (h b List.mem_cons_self)
    rw [List.countP_cons, List.flatten_cons, List.length_append]
    cases hb : chunkCommand b with
    | none =>
      rw [List.filterMap_cons_none hb]
      split <;> omega
    | some e =>
      have hlen := length_of_command hb
      rw [List.filterMap_cons_some hb, List.length_cons]
      split
      · rename_i hne
        have hne' : b.length ≠ 3 := by simpa using hne
        omega
      · omega

theorem flatMap_bytes_length (packets : List Packet) :
    (packets.flatMap Packet.bytes).length = 3 * packets.length := by
  induction packets with
  | nil => rfl
  | cons p packets ih =>
    rw [List.flatMap_cons, List.length_append, bytes_length, ih, List.length_cons]
    omega

/-- Lists of texts of three bytes are told apart by what they spell. -/
theorem eq_of_flatten_eq {l l' : List Bytes} (h : ∀ b ∈ l, b.length = 3)
    (h' : ∀ b ∈ l', b.length = 3) (he : l.flatten = l'.flatten) : l = l' := by
  have hlen : ∀ l : List Bytes, (∀ b ∈ l, b.length = 3) →
    l.map List.length = List.replicate l.length 3 :=
    fun l hl => List.eq_replicate_iff.mpr ⟨List.length_map .., by simpa using hl⟩
  have hcount : l.length = l'.length := by
    have hsum := congrArg List.length he
    rw [List.length_flatten, List.length_flatten, hlen l h, hlen l' h',
      List.sum_replicate_nat, List.sum_replicate_nat] at hsum
    exact Nat.eq_of_mul_eq_mul_right (by decide) hsum
  rw [List.eq_iff_flatten_eq]
  exact ⟨he, by rw [hlen l h, hlen l' h', hcount]⟩

theorem filterMap_packets (packets : List Packet) :
    (packets.map Packet.bytes).filterMap chunkCommand = packets.map Packet.executor := by
  rw [List.filterMap_map]
  exact List.filterMap_eq_map_iff_forall_eq_some.mpr fun p _ => chunkCommand_bytes p

end CommandStreamLemmas

/-- What a run executes on a segmentation of a packet stream is what the client
has sent exactly when every `recv` returns one packet. -/
theorem listenForCommands_executes_iff {packets : List Packet} (s : Segmentation packets)
    {rs : List Answer} (h : Delivers s.chunks rs) :
    executed (listenForCommands.trace rs) = packets.map Packet.executor ↔
      s.chunks = packets.map Packet.bytes := by
  obtain ⟨hpre, hsettled⟩ := h
  obtain ⟨hexec, hfault⟩ := executed_eq (hsettled.imp_right And.right)
  constructor
  · intro hall
    rw [hexec] at hall
    -- as many commands as packets leave room for chunks of three bytes only
    have hcount : packets.length ≤ (s.chunks.filterMap chunkCommand).length := by
      rw [← List.length_map (f := Packet.executor), ← hall]
      exact (hpre.filterMap _).length_le
    have hcost := cost_le s.chunks s.nonempty
    rw [s.whole, flatMap_bytes_length] at hcost
    have hzero : s.chunks.countP (fun b => b.length ≠ 3) = 0 := by omega
    have hthree : ∀ b ∈ s.chunks, b.length = 3 := by simpa [List.countP_eq_zero] using hzero
    refine eq_of_flatten_eq hthree ?_ ?_
    · simp only [List.mem_map, forall_exists_index, and_imp, forall_apply_eq_imp_iff₂]
      exact fun p _ => bytes_length p
    · rw [s.whole, List.flatMap_def]
  · intro hchunks
    rcases hsettled with hf | ⟨hreceived, -⟩
    · -- no chunk of a packet fills the buffer
      obtain ⟨b, hb, hlen⟩ := hfault hf
      have hmem := hpre.subset hb
      rw [hchunks, List.mem_map] at hmem
      obtain ⟨p, -, rfl⟩ := hmem
      rw [bytes_length] at hlen
      exact absurd hlen (by decide)
    · rw [hexec, hreceived, hchunks, filterMap_packets]

/-- Two packets, each in a segment of its own. -/
def separate : Segmentation [.toggle .flashlight true, .action .terminate 78] where
  chunks := [[controlByte, flashlight, on], [controlByte, terminate, noOption]]
  nonempty := by decide
  fits := by decide
  whole := rfl

/-- The answers of a session in which the client connects, `recv` returns one of `chunks`
after the other, and the flag stays true. -/
def session (chunks : List Bytes) : List Answer :=
  let accepted : List Answer := [{}, { ret := 3 }, {}, {}, {}, { ret := 4 }]
  let received (chunk : Bytes) : List Answer :=
    [{ isSet := true }, { isSet := true }, { ret := chunk.length, offer := chunk }, {}, {}]
  accepted ++ chunks.flatMap received ++ [{ isSet := true }]

theorem separate_executed :
    executed (listenForCommands.trace (session separate.chunks)) =
        [.flashlightToggle true, .terminateExecution] ↔
      separate.chunks = [[controlByte, flashlight, on], [controlByte, terminate, noOption]] :=
  listenForCommands_executes_iff separate ⟨by decide, .inr ⟨by decide, .inr ⟨4, by decide⟩⟩⟩

/-- Two packets that arrive in one segment. -/
def coalesced : Segmentation [.toggle .flashlight true, .action .terminate 78] where
  chunks := [[controlByte, flashlight, on, controlByte, terminate, noOption]]
  nonempty := by decide
  fits := by decide
  whole := rfl

/-- The second one is lost. -/
theorem coalesced_packets :
    ¬ ∀ (packets : List Packet) (s : Segmentation packets) (rs : List Answer),
      Delivers s.chunks rs →
      executed (listenForCommands.trace rs) = packets.map Packet.executor := by
  intro h
  have hall := h _ coalesced
    (session [[controlByte, flashlight, on, controlByte, terminate, noOption]])
    ⟨by decide, .inr ⟨by decide, .inr ⟨4, by decide⟩⟩⟩
  exact absurd hall (by decide)

end P2pDriver
