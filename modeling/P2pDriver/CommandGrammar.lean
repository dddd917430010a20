import P2pDriver.CommandStream

/-!
# Which packets are executed

`execute_command` takes the bytes of a packet apart with a length test, a
comparison, a decoding of the option byte and a `switch`. This module says as a
grammar which packets it acts on and what it does.

Results:
1. `parseChunk_eq_some_iff`: the code reads a command out of exactly the packets
   of the grammar.
2. `executeCommand_accepts`: it calls the function the grammar names, and none for
   any other buffer or length.
3. `no_option_toggles`: the grammar is not that of the control options, as a light
   is switched off by every option but `on`.
-/

namespace P2pDriver

open Resumable Prog ControlOptions

/-! ## 1. The grammar -/

/-- The command byte of a light, and the function that switches it. -/
def Light.code : Light → Byte
  | .flashlight => ControlOptions.flashlight
  | .left => leftLed
  | .right => rightLed

def Light.toggle : Light → Bool → Executor
  | .flashlight => .flashlightToggle
  | .left => .leftLedToggle
  | .right => .rightLedToggle

/-- The command byte of an action, and its function. -/
def Action.code : Action → Byte
  | .ready => ControlOptions.ready
  | .stop => ControlOptions.stop
  | .terminate => ControlOptions.terminate

def Action.executor : Action → Executor
  | .ready => .runStream
  | .stop => .stopStream
  | .terminate => .terminateExecution

/-- What the bytes of a packet order. The option byte switches a light on when it
is `on`, and off whatever else it is. -/
inductive Orders : Bytes → Executor → Prop where
  | toggle (light : Light) (option : Byte) (rest : Bytes) :
      Orders (controlByte :: light.code :: option :: rest) (light.toggle (option = on))
  | action (a : Action) (option : Byte) (rest : Bytes) :
      Orders (controlByte :: a.code :: option :: rest) a.executor

/-- The same by the control options, where a light is switched by `on` and `off`
only. -/
inductive OrdersByOption : Bytes → Executor → Prop where
  | on (light : Light) (rest : Bytes) :
      OrdersByOption (controlByte :: light.code :: on :: rest) (light.toggle true)
  | off (light : Light) (rest : Bytes) :
      OrdersByOption (controlByte :: light.code :: off :: rest) (light.toggle false)
  | action (a : Action) (option : Byte) (rest : Bytes) :
      OrdersByOption (controlByte :: a.code :: option :: rest) a.executor

/-! ## 2. The code and the grammar -/

namespace CommandGrammarLemmas

/-- The cases of the `switch`. -/
theorem switchCommand_eq_some_iff {command : Byte} {value : Bool} {e : Executor} :
    switchCommand command value = some e ↔
      (∃ light : Light, command = light.code ∧ e = light.toggle value) ∨
        ∃ a : Action, command = a.code ∧ e = a.executor := by
  constructor
  · intro h
    unfold switchCommand at h
    split_ifs at h with hf hl hr hb hs ht
    · exact .inl ⟨.flashlight, hf, (Option.some.inj h).symm⟩
    · exact .inl ⟨.left, hl, (Option.some.inj h).symm⟩
    · exact .inl ⟨.right, hr, (Option.some.inj h).symm⟩
    · exact .inr ⟨.ready, hb, (Option.some.inj h).symm⟩
    · exact .inr ⟨.stop, hs, (Option.some.inj h).symm⟩
    · exact .inr ⟨.terminate, ht, (Option.some.inj h).symm⟩
  · rintro (⟨light, rfl, rfl⟩ | ⟨a, rfl, rfl⟩)
    · cases light <;> cases value <;> rfl
    · cases a <;> cases value <;> rfl

end CommandGrammarLemmas

open CommandStreamLemmas CommandGrammarLemmas

/-- A command is read out of exactly the packets of the grammar. -/
theorem parseChunk_eq_some_iff {b : Bytes} {e : Executor} : parseChunk b = some e ↔ Orders b e := by
  constructor
  · intro h
    match b with
    | [] => cases h
    | [_] => cases h
    | [_, _] => cases h
    | b0 :: b1 :: b2 :: rest =>
      simp only [parseChunk] at h
      split at h
      · rename_i h0
        subst h0
        rcases switchCommand_eq_some_iff.mp h with ⟨light, rfl, rfl⟩ | ⟨a, rfl, rfl⟩
        · exact .toggle light b2 rest
        · exact .action a b2 rest
      · cases h
  · rintro (⟨light, option, rest⟩ | ⟨a, option, rest⟩)
    · rw [parseChunk, if_pos rfl]
      exact switchCommand_eq_some_iff.mpr (.inl ⟨light, rfl, rfl⟩)
    · rw [parseChunk, if_pos rfl]
      exact switchCommand_eq_some_iff.mpr (.inr ⟨a, rfl, rfl⟩)

namespace CommandGrammarLemmas

section Execute

variable {cap : Nat} (commandBuffer : Buffer cap) {bytesReceived : Int}

/-- Every run of `execute_command` that is answered returns, and has called the
function that was read out of the buffer. -/
theorem executed_executeCommand (h : bytesReceived ≤ cap) {rs : List Answer} (hrs : 2 ≤ rs.length) :
    (executeCommand commandBuffer bytesReceived).after rs = .ret () ∧
      executed ((executeCommand commandBuffer bytesReceived).trace rs) =
        (parseBuffer commandBuffer.cells bytesReceived).toList := by
  rw [executeCommand_eq_parse commandBuffer h]
  match rs with
  | [] => exact absurd hrs (by simp)
  | [_] => exact absurd hrs (by simp)
  | r :: r' :: rs =>
    rw [after_cons rfl, trace_cons rfl, resume_call]
    cases parseBuffer commandBuffer.cells bytesReceived with
    | none => exact ⟨rfl, rfl⟩
    | some e =>
      dsimp only
      rw [after_cons rfl, trace_cons rfl, resume_call, after_of_pending_none rfl,
        trace_of_pending_none rfl]
      exact ⟨rfl, rfl⟩

theorem parseBuffer_eq_some_iff {e : Executor} :
    parseBuffer commandBuffer.cells bytesReceived = some e ↔
      bytesReceived > 2 ∧ Orders commandBuffer.cells e := by
  rw [parseBuffer, ← parseChunk_eq_some_iff]
  by_cases hlen : bytesReceived > 2 <;> simp [hlen]

end Execute

end CommandGrammarLemmas

/-- `execute_command` calls exactly one function, the one the grammar names, when
more than two bytes count and the buffer starts with a packet, and none otherwise. -/
theorem executeCommand_accepts {cap : Nat} (commandBuffer : Buffer cap) {bytesReceived : Int}
    (h : bytesReceived ≤ cap) {rs : List Answer} (hrs : 2 ≤ rs.length) :
    (executeCommand commandBuffer bytesReceived).after rs = .ret () ∧
      (∀ e, executed ((executeCommand commandBuffer bytesReceived).trace rs) = [e] ↔
        bytesReceived > 2 ∧ Orders commandBuffer.cells e) ∧
      ((¬ ∃ e, bytesReceived > 2 ∧ Orders commandBuffer.cells e) →
        executed ((executeCommand commandBuffer bytesReceived).trace rs) = []) := by
  obtain ⟨hreturned, hexecuted⟩ := executed_executeCommand commandBuffer h hrs
  simp only [← parseBuffer_eq_some_iff, hexecuted]
  refine ⟨hreturned, fun e => ?_, fun hnone => ?_⟩
  · cases parseBuffer commandBuffer.cells bytesReceived <;> simp
  · rw [Option.eq_none_iff_forall_not_mem.mpr fun e he => hnone ⟨e, he⟩]
    rfl

/-- A packet with `no_option`. -/
def noOptionBuffer : Buffer commandMaxRecv :=
  (Delivery.ofOffer commandMaxRecv [controlByte, flashlight, noOption] []).buffer

theorem noOption_accepted :
    (executeCommand noOptionBuffer 3).after [{}, {}] = .ret () ∧
      (∀ e, executed ((executeCommand noOptionBuffer 3).trace [{}, {}]) = [e] ↔
        (3 : Int) > 2 ∧ Orders noOptionBuffer.cells e) ∧
      ((¬ ∃ e, (3 : Int) > 2 ∧ Orders noOptionBuffer.cells e) →
        executed ((executeCommand noOptionBuffer 3).trace [{}, {}]) = []) :=
  executeCommand_accepts noOptionBuffer (by decide) (by decide)

/-- It switches the flashlight off. -/
theorem no_option_toggles :
    ¬ ∀ (commandBuffer : Buffer commandMaxRecv) (bytesReceived : Int), 0 < bytesReceived →
      bytesReceived ≤ commandMaxRecv → ∀ rs : List Answer, 2 ≤ rs.length → ∀ e,
        (executed ((executeCommand commandBuffer bytesReceived).trace rs) = [e] ↔
          bytesReceived > 2 ∧ OrdersByOption commandBuffer.cells e) := by
  intro h
  have hcall : executed ((executeCommand noOptionBuffer 3).trace [{}, {}]) =
    [.flashlightToggle false] :=
    (executed_executeCommand noOptionBuffer (by decide) (by decide)).2
  have horder := ((h noOptionBuffer 3 (by decide) (by decide) [{}, {}] (by decide)
    (.flashlightToggle false)).mp hcall).2
  generalize hcells : noOptionBuffer.cells = cells at horder
  generalize Executor.flashlightToggle false = e at horder
  have hoption : cells[2]? = some noOption := hcells ▸ by decide
  have hcommand : cells[1]? = some flashlight := hcells ▸ by decide
  cases horder with
  | on light rest => exact absurd (Option.some.inj hoption) (by decide)
  | off light rest => exact absurd (Option.some.inj hoption) (by decide)
  | action a option rest => cases a <;> exact absurd (Option.some.inj hcommand) (by decide)

end P2pDriver
