import P2pDriver.EventLoop

/-!
# The connection loops refine an abstract event machine

What the driver is for can be said without bytes: it searches, negotiates with
the device that asks for it, and stays connected until the device leaves. This
module defines that machine over parsed events, and proves that the loops over
256-byte buffers do what it does on every queue of well-formed datagrams.

Results:
1. `isType_encode`: on a well-formed datagram the five type tests tell the types
   apart, although `is_message_type` only compares a prefix.
2. `react_parse`: one message, read from the buffer, has the effect of its event.
3. `polling_refines_eventMachine`: every run over a queue makes the steps of the
   machine in order and ends as it does, and there is such a run.
-/

namespace P2pDriver

open Resumable Prog EventLoopLemmas

/-! ## 1. The abstract machine -/

/-- A parsed event. -/
inductive Event where
  | goNegRequest (mac : Bytes)
  | groupStarted (ifname : Bytes)
  | formationFailure
  | goNegFailure
  | staDisconnected
  | other
deriving DecidableEq, Repr

/-- What the driver is doing. -/
inductive Mode where
  | searching
  | negotiating
  | groupFormed
  | connected
  | disconnected
deriving DecidableEq, Repr

/-- What the driver does to its surroundings. -/
inductive Output where
  | startSearch
  | connect (mac : Bytes)
  | storeGroupName (name : Bytes)
  | invalidateConnection
  | stopListening
deriving DecidableEq, Repr

/-- The reaction to one event. -/
def Mode.step : Mode → Event → Mode × List Output
  | .searching, .goNegRequest mac => (.negotiating, [.connect mac])
  | .negotiating, .groupStarted name => (.groupFormed, [.storeGroupName name])
  | .negotiating, .formationFailure => (.searching, [.startSearch])
  | .negotiating, .goNegFailure => (.searching, [.startSearch])
  | .connected, .staDisconnected => (.disconnected, [.invalidateConnection, .stopListening])
  | μ, _ => (μ, [])

/-- The modes in which no event is consumed any more. -/
def Mode.final : Mode → Bool
  | .groupFormed | .disconnected => true
  | _ => false

/-- The mode after a queue of events. -/
def finalMode : Mode → List Event → Mode
  | μ, [] => μ
  | μ, e :: es => finalMode (μ.step e).1 es

/-- How many events of a queue are consumed. -/
def consumedCount : Mode → List Event → Nat
  | _, [] => 0
  | μ, e :: es => if μ.final then 0 else consumedCount (μ.step e).1 es + 1

/-- A step that can be seen: an event is consumed, or something is done. -/
inductive Visible (ε : Type) where
  | consume
  | emit (e : ε)
deriving DecidableEq, Repr

/-- The visible steps of the machine on a queue of events. -/
def schedule : Mode → List Event → List (Visible Output)
  | _, [] => []
  | μ, e :: es =>
    if μ.final then [] else .consume :: ((μ.step e).2.map .emit ++ schedule (μ.step e).1 es)

namespace RefinementLemmas

variable {μ : Mode}

theorem step_final (h : μ.final = true) (e : Event) : μ.step e = (μ, []) := by
  cases μ with
  | groupFormed => cases e <;> rfl
  | disconnected => cases e <;> rfl
  | searching => exact nomatch h
  | negotiating => exact nomatch h
  | connected => exact nomatch h

theorem finalMode_final (h : μ.final = true) (es : List Event) : finalMode μ es = μ := by
  induction es with
  | nil => rfl
  | cons e es ih => rw [finalMode, step_final h, ih]

theorem schedule_final (h : μ.final = true) (es : List Event) : schedule μ es = [] := by
  cases es with
  | nil => rfl
  | cons e es => exact if_pos h

theorem consumedCount_final (h : μ.final = true) (es : List Event) : consumedCount μ es = 0 := by
  cases es with
  | nil => rfl
  | cons e es => exact if_pos h

theorem finalMode_append (μ : Mode) (es es' : List Event) :
    finalMode μ (es ++ es') = finalMode (finalMode μ es) es' := by
  induction es generalizing μ with
  | nil => rfl
  | cons e es ih => exact ih (μ.step e).1

theorem schedule_append (μ : Mode) (es es' : List Event) :
    schedule μ (es ++ es') = schedule μ es ++ schedule (finalMode μ es) es' := by
  induction es generalizing μ with
  | nil => rfl
  | cons e es ih =>
    rw [List.cons_append, schedule, schedule, finalMode]
    split_ifs with h
    · rw [step_final h, finalMode_final h, schedule_final h, List.nil_append]
    · rw [ih, List.cons_append, List.append_assoc]

theorem consumedCount_append (μ : Mode) (es es' : List Event) :
    consumedCount μ (es ++ es') = consumedCount μ es + consumedCount (finalMode μ es) es' := by
  induction es generalizing μ with
  | nil => exact (Nat.zero_add _).symm
  | cons e es ih =>
    rw [List.cons_append, consumedCount, consumedCount, finalMode]
    split_ifs with h
    · rw [step_final h, finalMode_final h, consumedCount_final h]
    · rw [ih, Nat.add_right_comm]

end RefinementLemmas

/-! ## 2. Well-formed datagrams -/

/-- A datagram `<digit>TYPE payload`, of at most 256 bytes. A negotiation request
starts with an address, and a started group with the name of its interface. -/
structure Datagram where
  digit : Byte
  type : Bytes
  payload : Bytes
  isDigit : 48 ≤ digit ∧ digit ≤ 57
  type_noSpace : space ∉ type
  fits : prefixLen + (type ++ space :: payload).length ≤ messageCap
  request : type ++ [space] = goNegRequest → macAddressLen ≤ payload.length
  started : type ++ [space] = groupStarted → space ∈ payload

namespace Datagram

/-- The text in front of the payload, as the constants of the driver have it. -/
def header (d : Datagram) : Bytes := d.type ++ [space]

/-- The bytes of a datagram. -/
def encode (d : Datagram) : Bytes := 60 :: d.digit :: 62 :: (d.type ++ space :: d.payload)

/-- The event a datagram stands for. -/
def parse (d : Datagram) : Event :=
  if d.header = P2pDriver.goNegRequest then .goNegRequest (d.payload.take macAddressLen)
  else if d.header = P2pDriver.groupStarted then
    .groupStarted (d.payload.takeWhile (· ≠ space))
  else if d.header = groupFormationFailure then .formationFailure
  else if d.header = P2pDriver.goNegFailure then .goNegFailure
  else if d.header = deviceDisconnected then .staDisconnected
  else .other

end Datagram

/-! ## 3. What is seen of the driver -/

/-- The call an output stands for. -/
def Output.call : Output → Call
  | .startSearch => startCall
  | .connect mac => connectCall mac
  | .storeGroupName name => .setGroupName name
  | .invalidateConnection => .setConnectionIsValid false
  | .stopListening => .setListenForCommands false

/-- Calls with an effect on the surroundings or on the global variables. -/
def Call.isEffect : Call → Bool
  | .system _ | .setGroupName _ | .setConnectionIsValid _ | .setListenForCommands _ => true
  | _ => false

/-- The two calls that fetch an event. -/
def Call.isFetch : Call → Bool
  | .wpaCtrlPending | .wpaCtrlRecv _ => true
  | _ => false

/-- What is seen of an answered call. -/
def visible (e : Call × Answer) : Option (Visible Call) :=
  if (receivedBy e).isSome then some .consume
  else if e.1.isEffect then some (.emit e.1) else none

def Visible.concrete : Visible Output → Visible Call
  | .consume => .consume
  | .emit o => .emit o.call

/-- The bytes received in a run. -/
def receivedBytes (tr : List (Call × Answer)) : List Bytes := tr.filterMap receivedBy

/-- A run over the queue `q`: what it receives is what `q` has next, `control_data`
is not null and the flag is left true. Polls without a result, failed receives and
residual bytes are arbitrary. -/
structure Fed (p : Drv Unit) (q : List Datagram) (rs : List Answer) : Prop where
  queue : receivedBytes (p.trace rs) <+: q.map Datagram.encode
  listening : ∀ e ∈ p.trace rs, e.1 = .isListeningForCommands → e.2.isSet = true
  control : ∀ e ∈ p.trace rs, e.1 = .controlData → e.2.handle ≠ none

/-- The run has nothing left to do: it has returned, or waits for an event when
all of the queue is consumed. -/
def Complete (p : Drv Unit) (q : List Datagram) (rs : List Answer) : Prop :=
  p.after rs = .ret () ∨
    (p.after rs).pending = some .wpaCtrlPending ∧ (receivedBytes (p.trace rs)).length = q.length

/-- The run does what the machine does from `μ`, after the outputs `start`. -/
structure Follows (p : Drv Unit) (start : List Output) (μ : Mode) (q : List Datagram)
    (rs : List Answer) : Prop where
  consumed : (receivedBytes (p.trace rs)).length = consumedCount μ (q.map Datagram.parse)
  steps : (p.trace rs).filterMap visible =
    (start.map Visible.emit ++ schedule μ (q.map Datagram.parse)).map Visible.concrete
  ends : p.after rs = .ret () ↔ (finalMode μ (q.map Datagram.parse)).final = true

/-- Every run over `q` is defined and, when it has nothing left to do, has done what
the machine does; and there is such a run. -/
def Refines (p : Drv Unit) (start : List Output) (μ : Mode) (q : List Datagram) : Prop :=
  (∀ rs, Fed p q rs → p.after rs ≠ .fault ∧ (Complete p q rs → Follows p start μ q rs)) ∧
    ∃ rs, Fed p q rs ∧ Complete p q rs

/-- The phase of the loops in a mode. -/
def Mode.phase : Mode → Phase
  | .searching => .searching
  | .negotiating => .negotiating
  | .groupFormed => .established
  | .connected => .monitoring
  | .disconnected => .ended

/-! ## 4. One message -/

namespace RefinementLemmas

/-- Words that end in the same delimiter are told apart by their prefix. -/
theorem word_prefix_iff {a : Byte} {t w v : Bytes} (ht : a ∉ t) (hw : a ∉ w) :
    t ++ [a] <+: w ++ a :: v ↔ w ++ [a] = t ++ [a] := by
  induction t generalizing w with
  | nil =>
    cases w with
    | nil => simp
    | cons c w =>
      have hc : c ≠ a := fun e => hw (e ▸ List.mem_cons_self)
      simp [List.cons_prefix_cons, hc, Ne.symm hc]
  | cons b t ih =>
    rw [List.mem_cons, not_or] at ht
    cases w with
    | nil => simp [List.cons_prefix_cons, Ne.symm ht.1, ht.1]
    | cons c w =>
      rw [List.mem_cons, not_or] at hw
      rw [List.cons_append, List.cons_append, List.cons_prefix_cons, ih ht.2 hw.2, List.cons_append,
        List.cons.injEq]
      exact and_congr_left' eq_comm

theorem encode_drop (d : Datagram) : d.encode.drop prefixLen = d.type ++ space :: d.payload := rfl

theorem encode_fits (d : Datagram) : d.encode.length ≤ messageCap := by
  have hfits := d.fits
  simp only [Datagram.encode, prefixLen, List.length_cons] at hfits ⊢
  omega

theorem encode_length (d : Datagram) : prefixLen ≤ d.encode.length := by
  simp only [Datagram.encode, prefixLen, List.length_cons]
  omega

/-- What stands behind the header of a datagram is its payload. -/
theorem encode_drop_header (d : Datagram) :
    d.encode.drop (prefixLen + d.header.length) = d.payload := by
  have hsplit : d.type ++ space :: d.payload = d.header ++ d.payload := by
    rw [Datagram.header, List.append_assoc, List.singleton_append]
  rw [← List.drop_drop, encode_drop, hsplit, List.drop_left]

theorem header_length_le (d : Datagram) :
    prefixLen + d.header.length + d.payload.length = d.encode.length := by
  simp only [Datagram.encode, Datagram.header, prefixLen, List.length_cons, List.length_append,
    List.length_nil]
  omega

end RefinementLemmas

open RefinementLemmas

section Message

variable {d : Datagram} {m : Message} (hm : m.bytes = d.encode)
include hm

/-- The type test tells the types of well-formed datagrams apart. -/
theorem isType_encode {t : Bytes} (ht : space ∉ t) :
    isType m (t ++ [space]) = decide (d.header = t ++ [space]) := by
  have hlen : prefixLen ≤ m.bytes.length := hm ▸ encode_length d
  rw [Bool.eq_iff_iff, isType_iff_received hlen, hm, encode_drop, decide_eq_true_eq]
  exact word_prefix_iff ht d.type_noSpace

/-- The window of a negotiation request is the address at the head of its payload. -/
theorem macWindow_encode (h : d.header = goNegRequest) :
    macWindow m = d.payload.take macAddressLen := by
  have hlen : prefixLen + goNegRequest.length + macAddressLen ≤ m.bytes.length := by
    rw [hm, ← header_length_le d, h]
    exact Nat.add_le_add_left (d.request h) _
  rw [macWindow_eq_received hlen, macField, hm, ← h, encode_drop_header]

/-- The cells behind the header of a started group start with its payload. -/
theorem nameCells_encode (h : d.header = groupStarted) :
    nameCells m = d.payload ++ m.residue := by
  have hlen : prefixLen + groupStarted.length ≤ m.bytes.length := by
    rw [hm, ← header_length_le d, h]
    exact Nat.le_add_right _ _
  rw [nameCells_eq hlen, hm, ← h, encode_drop_header]

end Message

/-- What is seen of the calls a state owes. -/
def effectsOf (cs : List Call) : List (Visible Call) := (cs.filter Call.isEffect).map .emit

namespace RefinementLemmas

/-- `o` is what the machine does on one event, from the mode `μ` to `μ'`. -/
structure Reacts (s : LoopState) (μ' : Mode) (o : List Output) : Prop where
  phase : s.phase = μ'.phase
  stage : s.stage = .poll ∨ s.stage = .check ∧ μ' = .connected
  effects : effectsOf s.owed = o.map fun o => .emit o.call
  owed : ∀ c ∈ s.owed, c.isFetch = false

theorem reacts_nothing (μ : Mode) : Reacts (atPoll μ.phase) μ [] :=
  ⟨rfl, .inl rfl, rfl, fun _ hc => absurd hc List.not_mem_nil⟩

theorem step_searching_other {d : Datagram} (h : d.header ≠ goNegRequest) :
    Mode.searching.step d.parse = (.searching, []) := by
  rw [Datagram.parse, if_neg h]
  split_ifs <;> rfl

theorem step_connected_other {d : Datagram} (h : d.header ≠ deviceDisconnected) :
    Mode.connected.step d.parse = (.connected, []) := by
  rw [Datagram.parse, if_neg h]
  split_ifs <;> rfl

theorem step_negotiating_other {d : Datagram} (hs : d.header ≠ groupStarted)
    (hf : d.header ≠ groupFormationFailure) (hn : d.header ≠ goNegFailure) :
    Mode.negotiating.step d.parse = (.negotiating, []) := by
  rw [Datagram.parse, if_neg hs, if_neg hf, if_neg hn]
  split_ifs <;> rfl

theorem step_negotiating_failure {d : Datagram}
    (h : d.header = groupFormationFailure ∨ d.header = goNegFailure) :
    Mode.negotiating.step d.parse = (.searching, [.startSearch]) := by
  rcases h with h | h
  · rw [Datagram.parse, h, if_neg (by decide), if_neg (by decide), if_pos rfl]
    rfl
  · rw [Datagram.parse, h, if_neg (by decide), if_neg (by decide), if_neg (by decide), if_pos rfl]
    rfl

theorem step_negotiating_started {d : Datagram} (h : d.header = groupStarted) :
    Mode.negotiating.step d.parse =
      (.groupFormed, [.storeGroupName (d.payload.takeWhile (· ≠ space))]) := by
  rw [Datagram.parse, h, if_neg (by decide), if_pos rfl]
  rfl

theorem step_connected_disconnected {d : Datagram} (h : d.header = deviceDisconnected) :
    Mode.connected.step d.parse = (.disconnected, [.invalidateConnection, .stopListening]) := by
  rw [Datagram.parse, h, if_neg (by decide), if_neg (by decide), if_neg (by decide),
    if_neg (by decide), if_pos rfl]
  rfl

section Message

variable {d : Datagram} {m : Message} (hm : m.bytes = d.encode)
include hm

theorem isType_goNegRequest : isType m goNegRequest = decide (d.header = goNegRequest) :=
  isType_encode hm (t := bytes "P2P-GO-NEG-REQUEST") (by decide)

theorem isType_groupStarted : isType m groupStarted = decide (d.header = groupStarted) :=
  isType_encode hm (t := bytes "P2P-GROUP-STARTED") (by decide)

theorem isType_groupFormationFailure :
    isType m groupFormationFailure = decide (d.header = groupFormationFailure) :=
  isType_encode hm (t := bytes "P2P-GROUP-FORMATION-FAILURE") (by decide)

theorem isType_goNegFailure : isType m goNegFailure = decide (d.header = goNegFailure) :=
  isType_encode hm (t := bytes "P2P-GO-NEG-FAILURE") (by decide)

theorem isType_deviceDisconnected :
    isType m deviceDisconnected = decide (d.header = deviceDisconnected) :=
  isType_encode hm (t := bytes "AP-STA-DISCONNECTED") (by decide)

theorem reacts_searching :
    Reacts (react .searching m) (Mode.searching.step d.parse).1
      (Mode.searching.step d.parse).2 := by
  have ht := isType_goNegRequest hm
  by_cases h : d.header = goNegRequest
  · rw [decide_eq_true h] at ht
    have hparse : d.parse = .goNegRequest (d.payload.take macAddressLen) := if_pos h
    simp only [react, ht, if_true, macWindow_encode hm h, hparse]
    exact ⟨rfl, .inl rfl, rfl, by simp [Call.isFetch, connectCall]⟩
  · rw [decide_eq_false h] at ht
    rw [react, ht, step_searching_other h]
    exact reacts_nothing .searching

theorem reacts_negotiating :
    Reacts (react .negotiating m) (Mode.negotiating.step d.parse).1
      (Mode.negotiating.step d.parse).2 := by
  have hs := isType_groupStarted hm
  have hf := isType_groupFormationFailure hm
  have hn := isType_goNegFailure hm
  by_cases hstarted : d.header = groupStarted
  · rw [decide_eq_true hstarted] at hs
    have hspace := d.started hstarted
    have hmem : space ∈ nameCells m := by
      rw [nameCells_encode hm hstarted]
      exact List.mem_append_left _ hspace
    simp only [react, hs, hmem, if_true, step_negotiating_started hstarted]
    rw [nameCells_encode hm hstarted, takeWhile_append_of_mem hspace]
    exact ⟨rfl, .inl rfl, rfl, by simp [Call.isFetch]⟩
  · rw [decide_eq_false hstarted] at hs
    by_cases hfail : d.header = groupFormationFailure ∨ d.header = goNegFailure
    · have htest : (isType m groupFormationFailure || isType m goNegFailure) = true := by
        rw [hf, hn, Bool.or_eq_true, decide_eq_true_eq, decide_eq_true_eq]
        exact hfail
      simp only [react, hs, htest, if_true, step_negotiating_failure hfail]
      exact ⟨rfl, .inl rfl, rfl, by simp [Call.isFetch, startCall]⟩
    · rw [not_or] at hfail
      have htest : (isType m groupFormationFailure || isType m goNegFailure) = false := by
        rw [hf, hn, decide_eq_false hfail.1, decide_eq_false hfail.2]
        rfl
      simp only [react, hs, htest, step_negotiating_other hstarted hfail.1 hfail.2]
      exact ⟨rfl, .inl rfl, rfl, by simp [Call.isFetch]⟩

theorem reacts_connected :
    Reacts (react .monitoring m) (Mode.connected.step d.parse).1
      (Mode.connected.step d.parse).2 := by
  have ht := isType_deviceDisconnected hm
  by_cases h : d.header = deviceDisconnected
  · rw [decide_eq_true h] at ht
    simp only [react, ht, if_true, step_connected_disconnected h]
    exact ⟨rfl, .inl rfl, rfl, by simp [Call.isFetch]⟩
  · rw [decide_eq_false h] at ht
    rw [react, ht, step_connected_other h]
    exact ⟨rfl, .inr ⟨rfl, rfl⟩, rfl, fun _ hc => absurd hc List.not_mem_nil⟩

end Message

end RefinementLemmas

/-- One message has the effect of its event. -/
theorem react_parse {d : Datagram} {m : Message} (hm : m.bytes = d.encode) (μ : Mode) :
    Reacts (react μ.phase m) (μ.step d.parse).1 (μ.step d.parse).2 := by
  cases μ with
  | searching => exact reacts_searching hm
  | negotiating => exact reacts_negotiating hm
  | groupFormed =>
    have hstep : Mode.groupFormed.step d.parse = (.groupFormed, []) := by cases d.parse <;> rfl
    rw [hstep]
    exact reacts_nothing .groupFormed
  | connected => exact reacts_connected hm
  | disconnected =>
    have hstep : Mode.disconnected.step d.parse = (.disconnected, []) := by cases d.parse <;> rfl
    rw [hstep]
    exact reacts_nothing .disconnected

/-! ## 5. Runs -/

namespace RefinementLemmas

/-- The run `tr` into the state `s` has consumed the datagrams `l` and done what
the machine does on them, but for the calls still owed. -/
structure Tracks (μ : Mode) (start : List Output) (l : List Datagram) (tr : List (Call × Answer))
    (s : LoopState) : Prop where
  received : receivedBytes tr = l.map Datagram.encode
  count : consumedCount μ (l.map Datagram.parse) = l.length
  phase : s.phase = (finalMode μ (l.map Datagram.parse)).phase
  steps : tr.filterMap visible ++ effectsOf s.owed =
    (start.map Visible.emit ++ schedule μ (l.map Datagram.parse)).map Visible.concrete
  owed : ∀ c ∈ s.owed, c.isFetch = false

variable {μ : Mode} {start : List Output} {l : List Datagram} {tr : List (Call × Answer)}
  {s : LoopState} {c : Call} {r : Answer}

theorem receivedBy_of_not_fetch (h : c.isFetch = false) (r : Answer) :
    receivedBy (c, r) = none := by
  cases c with
  | wpaCtrlRecv n => exact nomatch h
  | _ => rfl

theorem receivedBytes_snoc (tr : List (Call × Answer)) (e : Call × Answer) :
    receivedBytes (tr ++ [e]) = receivedBytes tr ++ (receivedBy e).toList := by
  cases he : receivedBy e <;> simp [receivedBytes, List.filterMap_append, he]

/-- A call that receives nothing and is not seen. -/
theorem Tracks.silent (h : Tracks μ start l tr s) (hr : receivedBy (c, r) = none)
    (hc : c.isEffect = false) {s' : LoopState} (hs : s'.phase = s.phase) (ho : s'.owed = s.owed) :
    Tracks μ start l (tr ++ [(c, r)]) s' where
  received := by rw [receivedBytes_snoc, hr, h.received, Option.toList_none, List.append_nil]
  count := h.count
  phase := hs.trans h.phase
  steps := by
    have hv : visible (c, r) = none := by simp [visible, hr, hc]
    rw [List.filterMap_append, List.filterMap_cons_none hv, List.filterMap_nil, List.append_nil, ho]
    exact h.steps
  owed := ho ▸ h.owed

/-- A call the state owes. -/
theorem Tracks.pay {cs : List Call} {φ : Phase} {st : Stage}
    (h : Tracks μ start l tr ⟨φ, st, c :: cs⟩) : Tracks μ start l (tr ++ [(c, r)]) ⟨φ, st, cs⟩ := by
  have hr := receivedBy_of_not_fetch (h.owed c List.mem_cons_self) r
  refine ⟨?_, h.count, h.phase, ?_, fun c' hc' => h.owed c' (List.mem_cons_of_mem _ hc')⟩
  · rw [receivedBytes_snoc, hr, h.received, Option.toList_none, List.append_nil]
  · rw [← h.steps, List.filterMap_append]
    cases hc : c.isEffect <;> simp [effectsOf, visible, hr, hc]

/-- An event is consumed. -/
theorem Tracks.consume (h : Tracks μ start l tr ⟨s.phase, .recv, []⟩)
    (hlive : (finalMode μ (l.map Datagram.parse)).final = false) {m : Message} {n : Nat}
    (hd : delivered r = some m) {d : Datagram} (hm : m.bytes = d.encode) :
    Tracks μ start (l ++ [d]) (tr ++ [(.wpaCtrlRecv n, r)]) (react s.phase m) := by
  have hr : receivedBy (.wpaCtrlRecv n, r) = some m.bytes := by rw [receivedBy, hd, Option.map_some]
  have hreact := react_parse hm (finalMode μ (l.map Datagram.parse))
  rw [← h.phase] at hreact
  constructor
  · rw [receivedBytes_snoc, hr, h.received, hm, List.map_append]
    rfl
  · rw [List.map_append, consumedCount_append, h.count, List.length_append]
    simp [consumedCount, hlive]
  · rw [List.map_append, finalMode_append]
    exact hreact.phase
  · have hsteps := h.steps
    rw [effectsOf, List.filter_nil, List.map_nil, List.append_nil] at hsteps
    have hv : visible (.wpaCtrlRecv n, r) = some .consume := by simp [visible, hr]
    rw [List.filterMap_append, hsteps, List.filterMap_cons_some hv, List.filterMap_nil,
      hreact.effects, show (l ++ [d]).map Datagram.parse = l.map Datagram.parse ++ [d.parse] from
        List.map_append, schedule_append]
    simp [schedule, hlive, Visible.concrete]
  · exact hreact.owed

theorem live_of_expects {μ : Mode} {st : Stage} {c : Call}
    (h : eventLoop.expects ⟨μ.phase, st, []⟩ = some c) : μ.final = false := by
  cases μ with
  | groupFormed => exact nomatch h
  | disconnected => exact nomatch h
  | searching => rfl
  | negotiating => rfl
  | connected => rfl

/-- The next datagram of the queue is the one a run receives next. -/
theorem next_datagram {q l : List Datagram} {b : Bytes}
    (h : l.map Datagram.encode ++ [b] <+: q.map Datagram.encode) (hl : l <+: q) :
    ∃ d, b = d.encode ∧ l ++ [d] <+: q := by
  obtain ⟨rest, rfl⟩ := hl
  rw [List.map_append, List.prefix_append_right_inj] at h
  cases rest with
  | nil => exact absurd (List.prefix_nil.mp h) (by simp)
  | cons d rest =>
    refine ⟨d, (List.cons_prefix_cons.mp h).1, rest, ?_⟩
    rw [List.append_assoc, List.singleton_append]

theorem idle_spec (φ : Phase) : (idle φ).phase = φ ∧ (idle φ).owed = [] := by
  cases φ <;> exact ⟨rfl, rfl⟩

/-- One answered call of a run over the queue `q`. -/
theorem tracks_next {q : List Datagram} (hl : l <+: q) (h : Tracks μ start l tr s)
    (hexp : eventLoop.expects s = some c)
    (hq : receivedBytes (tr ++ [(c, r)]) <+: q.map Datagram.encode)
    (hflag : c = .isListeningForCommands → r.isSet = true) :
    ∃ l, l <+: q ∧ Tracks μ start l (tr ++ [(c, r)]) (eventLoop.next s r) := by
  obtain ⟨φ, st, owed⟩ := s
  cases owed with
  | cons c' cs =>
    obtain rfl : c' = c := Option.some.inj hexp
    exact ⟨l, hl, h.pay⟩
  | nil =>
    have hlive : (finalMode μ (l.map Datagram.parse)).final = false := by
      have hphase : φ = _ := h.phase
      exact live_of_expects (hphase ▸ hexp)
    have hc : c = st.call := expects_nil hexp
    obtain ⟨hidle, hidle'⟩ := idle_spec φ
    cases st with
    | poll =>
      refine ⟨l, hl, h.silent (by rw [hc]; rfl) (by rw [hc]; rfl) ?_ ?_⟩
      · rw [show (⟨φ, .poll, []⟩ : LoopState) = atPoll φ from rfl, next_poll]
        split
        · rfl
        · exact hidle
      · rw [show (⟨φ, .poll, []⟩ : LoopState) = atPoll φ from rfl, next_poll]
        split
        · rfl
        · exact hidle'
    | check =>
      have hset : r.isSet = true := hflag hc
      refine ⟨l, hl, h.silent (by rw [hc]; rfl) (by rw [hc]; rfl) ?_ ?_⟩
      · rw [next_check, if_pos hset]
        rfl
      · rw [next_check, if_pos hset]
        rfl
    | recv =>
      obtain rfl : c = .wpaCtrlRecv messageCap := hc
      rw [next_recv]
      cases hd : delivered r with
      | none =>
        exact ⟨l, hl, h.silent (by rw [receivedBy, hd, Option.map_none]) rfl hidle hidle'⟩
      | some m =>
        rw [receivedBytes_snoc, h.received, receivedBy, hd, Option.map_some] at hq
        obtain ⟨d, hm, hl'⟩ := next_datagram hq hl
        exact ⟨l ++ [d], hl', Tracks.consume (s := ⟨φ, .recv, []⟩) h hlive hd hm⟩

/-- A run over the queue `q` has done what the machine does on the part of the
queue it has consumed. -/
theorem tracks_run {q : List Datagram} {rs : List Answer} (h : Tracks μ start [] [] s)
    (hq : receivedBytes (eventLoop.trace s rs) <+: q.map Datagram.encode)
    (hflag : ∀ e ∈ eventLoop.trace s rs, e.1 = .isListeningForCommands → e.2.isSet = true) :
    ∃ l, l <+: q ∧ Tracks μ start l (eventLoop.trace s rs) (eventLoop.after s rs) := by
  refine eventLoop.run_induction rs (P := fun tr s' =>
    receivedBytes tr <+: q.map Datagram.encode →
      (∀ e ∈ tr, e.1 = .isListeningForCommands → e.2.isSet = true) →
        ∃ l, l <+: q ∧ Tracks μ start l tr s') ?_ ?_ hq hflag
  · exact fun _ _ => ⟨[], List.nil_prefix, h⟩
  · intro rs' r c _ hexp ih hq' hflag'
    have hpre : receivedBytes (eventLoop.trace s rs') <+: q.map Datagram.encode := by
      rw [receivedBytes_snoc] at hq'
      exact (List.prefix_append _ _).trans hq'
    obtain ⟨l, hl, ht⟩ := ih hpre fun e he => hflag' e (List.mem_append_left _ he)
    exact tracks_next hl ht hexp hq' fun hc =>
      hflag' (c, r) (List.mem_append_right _ List.mem_cons_self) hc

theorem phase_final {μ : Mode} (h : eventLoop.expects (atPoll μ.phase) = none) :
    μ.final = true := by
  cases μ with
  | groupFormed => rfl
  | disconnected => rfl
  | searching => exact nomatch h
  | negotiating => exact nomatch h
  | connected => exact nomatch h

/-- Once nothing is left to do, what was done on the consumed part of the queue
is what the machine does on all of it. -/
theorem Tracks.whole {q : List Datagram} (hl : l <+: q) (h : Tracks μ start l tr s)
    (howed : s.owed = [])
    (hdone : (finalMode μ (l.map Datagram.parse)).final = true ∨ l.length = q.length) :
    (receivedBytes tr).length = consumedCount μ (q.map Datagram.parse) ∧
      tr.filterMap visible =
        (start.map Visible.emit ++ schedule μ (q.map Datagram.parse)).map Visible.concrete ∧
      finalMode μ (q.map Datagram.parse) = finalMode μ (l.map Datagram.parse) := by
  have hsteps := h.steps
  rw [howed, effectsOf, List.filter_nil, List.map_nil, List.append_nil] at hsteps
  have hreceived : (receivedBytes tr).length = consumedCount μ (l.map Datagram.parse) := by
    rw [h.received, List.length_map, h.count]
  rcases hdone with hfinal | hlen
  · obtain ⟨rest, rfl⟩ := hl
    rw [List.map_append, consumedCount_append, schedule_append, finalMode_append,
      consumedCount_final hfinal, schedule_final hfinal, finalMode_final hfinal, List.append_nil]
    exact ⟨hreceived, hsteps, rfl⟩
  · obtain rfl := hl.eq_of_length hlen
    exact ⟨hreceived, hsteps, rfl⟩

/-- Waiting for an event, the loops owe nothing and are in a mode that goes on. -/
theorem owed_nil_of_poll (howed : ∀ c ∈ s.owed, c.isFetch = false)
    (h : eventLoop.expects s = some .wpaCtrlPending) : s.owed = [] := by
  obtain ⟨φ, st, owed⟩ := s
  cases owed with
  | nil => rfl
  | cons c cs =>
    obtain rfl : c = .wpaCtrlPending := Option.some.inj h
    exact nomatch howed _ List.mem_cons_self

section Program

variable {p : Drv Unit} {φ : Phase} {q : List Datagram} {rs : List Answer}

theorem notFault_of_tracks (hφ : eventLoop.expects (atPoll φ) = none) (hne : φ ≠ .faulted)
    (hk : Keeps loopSpec s p fun _ s => s = atPoll φ)
    (h : Tracks μ start l tr (eventLoop.after s rs)) : p.after rs ≠ .fault := by
  intro hfault
  have hphase := h.phase
  rw [(loop_fault_iff hφ hne hk rs).mp hfault] at hphase
  revert hphase
  generalize finalMode μ (l.map Datagram.parse) = μ'
  cases μ' <;> exact nofun

theorem follows_of_tracks (hφ : eventLoop.expects (atPoll φ) = none) (hne : φ ≠ .faulted)
    (hk : Keeps loopSpec s p fun _ s => s = atPoll φ) (hl : l <+: q)
    (h : Tracks μ start l (p.trace rs) (eventLoop.after s rs)) (hcomplete : Complete p q rs) :
    Follows p start μ q rs := by
  have hret := loop_returned_iff hφ hne hk rs
  have hphase := h.phase
  rcases hcomplete with hdone | ⟨hpoll, hlen⟩
  · have hat := hret.mp hdone
    have hfinal : (finalMode μ (l.map Datagram.parse)).final = true := by
      rw [hat] at hphase
      exact phase_final (by rw [← hphase]; exact hφ)
    obtain ⟨hcount, hsteps, hmode⟩ := h.whole hl (by rw [hat]; rfl) (.inl hfinal)
    exact ⟨hcount, hsteps, ⟨fun _ => hmode ▸ hfinal, fun _ => hdone⟩⟩
  · have hexp := hpoll
    rw [loop_pending hφ hk] at hexp
    have howed := owed_nil_of_poll h.owed hexp
    rw [h.received, List.length_map] at hlen
    obtain ⟨hcount, hsteps, hmode⟩ := h.whole hl howed (.inr hlen)
    refine ⟨hcount, hsteps, ⟨fun hdone => ?_, fun hfinal => ?_⟩⟩
    · rw [hdone] at hpoll
      exact nomatch hpoll
    · rw [hmode] at hfinal
      -- a final mode waits for nothing
      have hlive : (finalMode μ (l.map Datagram.parse)).final = false := by
        refine @live_of_expects _ (eventLoop.after s rs).stage .wpaCtrlPending ?_
        rw [← hphase, ← howed]
        exact hexp
      rw [hlive] at hfinal
      exact nomatch hfinal

end Program

/-- Answers under which the queue is served at once and the flag stays true. -/
def Prompt (rs : List Answer) : Prop := ∀ r ∈ rs, r.isSet = true ∧ r.handle ≠ none

/-- `rs` serves the queue `q` to the machine in the state `s` until nothing is left
to do. -/
structure Serves (q : List Datagram) (s : LoopState) (rs : List Answer) : Prop where
  prompt : Prompt rs
  queue : receivedBytes (eventLoop.trace s rs) <+: q.map Datagram.encode
  done : eventLoop.expects (eventLoop.after s rs) = none ∨
    eventLoop.expects (eventLoop.after s rs) = some .wpaCtrlPending ∧
      (receivedBytes (eventLoop.trace s rs)).length = q.length

/-- The answer that serves the datagram `d`. -/
def serve (d : Bytes) : Answer := { isSet := true, handle := some 0, offer := d }

theorem receivedBytes_cons (e : Call × Answer) (tr : List (Call × Answer)) :
    receivedBytes (e :: tr) = (receivedBy e).toList ++ receivedBytes tr := by
  cases he : receivedBy e <;> simp [receivedBytes, he]

theorem Serves.silent {q : List Datagram} {b : Bytes} {rs : List Answer}
    (hexp : eventLoop.expects s = some c) (hr : receivedBy (c, serve b) = none)
    (h : Serves q (eventLoop.next s (serve b)) rs) : Serves q s (serve b :: rs) := by
  obtain ⟨hprompt, hqueue, hdone⟩ := h
  refine ⟨?_, ?_, ?_⟩
  · intro r hr'
    rcases List.mem_cons.mp hr' with rfl | hmem
    · exact ⟨rfl, nofun⟩
    · exact hprompt r hmem
  · rwa [eventLoop.trace_cons hexp, receivedBytes_cons, hr]
  · rwa [eventLoop.after_cons hexp, eventLoop.trace_cons hexp, receivedBytes_cons, hr]

theorem Serves.receive {q : List Datagram} {d : Datagram} {rs : List Answer} {n : Nat}
    (hexp : eventLoop.expects s = some (.wpaCtrlRecv n))
    (h : Serves q (eventLoop.next s (serve d.encode)) rs) :
    Serves (d :: q) s (serve d.encode :: rs) := by
  obtain ⟨hprompt, hqueue, hdone⟩ := h
  have hr : receivedBy (.wpaCtrlRecv n, serve d.encode) = some d.encode :=
    congrArg some (List.take_of_length_le (encode_fits d))
  refine ⟨?_, ?_, ?_⟩
  · intro r hr'
    rcases List.mem_cons.mp hr' with rfl | hmem
    · exact ⟨rfl, nofun⟩
    · exact hprompt r hmem
  · rw [eventLoop.trace_cons hexp, receivedBytes_cons, hr]
    exact List.cons_prefix_cons.mpr ⟨rfl, hqueue⟩
  · rw [eventLoop.after_cons hexp, eventLoop.trace_cons hexp, receivedBytes_cons, hr]
    refine hdone.imp_right fun ⟨hpoll, hlen⟩ => ⟨hpoll, ?_⟩
    rw [Option.toList_some, List.singleton_append, List.length_cons, List.length_cons, hlen]

/-- What is owed is paid first. -/
theorem serves_owed {q : List Datagram} {φ : Phase} {st : Stage} {cs : List Call}
    (hcs : ∀ c ∈ cs, c.isFetch = false) (h : ∃ rs, Serves q ⟨φ, st, []⟩ rs) :
    ∃ rs, Serves q ⟨φ, st, cs⟩ rs := by
  induction cs with
  | nil => exact h
  | cons c cs ih =>
    obtain ⟨rs, hrs⟩ := ih fun c' hc' => hcs c' (List.mem_cons_of_mem _ hc')
    exact ⟨serve [] :: rs, .silent rfl (receivedBy_of_not_fetch (hcs c List.mem_cons_self) _) hrs⟩

theorem serves_poll (q : List Datagram) (μ : Mode) : ∃ rs, Serves q (atPoll μ.phase) rs := by
  induction q generalizing μ with
  | nil =>
    refine ⟨[], nofun, List.prefix_refl _, ?_⟩
    cases μ with
    | groupFormed => exact .inl rfl
    | disconnected => exact .inl rfl
    | searching => exact .inr ⟨rfl, rfl⟩
    | negotiating => exact .inr ⟨rfl, rfl⟩
    | connected => exact .inr ⟨rfl, rfl⟩
  | cons d q ih =>
    cases hμ : μ.final with
    | true =>
      refine ⟨[], nofun, List.nil_prefix, .inl ?_⟩
      cases μ with
      | groupFormed => rfl
      | disconnected => rfl
      | searching => exact nomatch hμ
      | negotiating => exact nomatch hμ
      | connected => exact nomatch hμ
    | false =>
      have hexp : ∀ st, eventLoop.expects ⟨μ.phase, st, []⟩ = some st.call := by
        intro st
        cases μ with
        | groupFormed => exact nomatch hμ
        | disconnected => exact nomatch hμ
        | searching => rfl
        | negotiating => rfl
        | connected => rfl
      -- poll and receive, pay what the reaction owes, and go on with the queue
      obtain ⟨hphase, hstage, -, howed⟩ :=
        react_parse (m := Delivery.ofOffer messageCap d.encode [])
          (List.take_of_length_le (encode_fits d)) μ
      obtain ⟨rs, hrs⟩ : ∃ rs, Serves q (react μ.phase
        (Delivery.ofOffer messageCap d.encode [])) rs := by
        generalize react μ.phase (Delivery.ofOffer messageCap d.encode []) = s' at *
        obtain ⟨φ, st, owed⟩ := s'
        refine serves_owed howed ?_
        obtain rfl : φ = (μ.step d.parse).1.phase := hphase
        rcases hstage with rfl | ⟨rfl, hconn⟩
        · exact ih _
        · obtain ⟨rs, hrs⟩ := ih .connected
          rw [hconn]
          exact ⟨serve [] :: rs, .silent (c := .isListeningForCommands) rfl rfl hrs⟩
      exact ⟨serve [] :: serve d.encode :: rs,
        .silent (hexp .poll) rfl (.receive (hexp .recv) hrs)⟩

section Program

variable {p : Drv Unit} {φ : Phase} {q : List Datagram} {rs : List Answer}

theorem fed_of_serves (hφ : eventLoop.expects (atPoll φ) = none)
    (hk : Keeps loopSpec s p fun _ s => s = atPoll φ) (h : Serves q s rs) : Fed p q rs := by
  have hmem : ∀ e ∈ p.trace rs, e.2 ∈ rs := fun e he =>
    (p.trace_answers rs).subset (List.mem_map_of_mem he)
  refine ⟨?_, fun e he _ => (h.prompt _ (hmem e he)).1, fun e he _ => (h.prompt _ (hmem e he)).2⟩
  rw [(loop_keeps hφ hk rs).1]
  exact h.queue

theorem refines_of_keeps (hφ : eventLoop.expects (atPoll φ) = none) (hne : φ ≠ .faulted)
    (hk : Keeps loopSpec s p fun _ s => s = atPoll φ) (hs : Tracks μ start [] [] s)
    (hserves : ∃ rs, Serves q s rs) : Refines p start μ q := by
  have hall : ∀ rs, Fed p q rs →
      p.after rs ≠ .fault ∧ (Complete p q rs → Follows p start μ q rs) := by
    intro rs hfed
    have htrace := (loop_keeps hφ hk rs).1
    obtain ⟨l, hl, ht⟩ := tracks_run hs (htrace ▸ hfed.queue) (htrace ▸ hfed.listening)
    exact ⟨notFault_of_tracks hφ hne hk ht, follows_of_tracks hφ hne hk hl (htrace ▸ ht)⟩
  obtain ⟨rs, hrs⟩ := hserves
  have hfed := fed_of_serves hφ hk hrs
  refine ⟨hall, rs, hfed, ?_⟩
  have hpend := loop_pending hφ hk rs
  rcases hrs.done with hnone | ⟨hpoll, hlen⟩
  · rw [hnone] at hpend
    rcases pending_eq_none hpend with ⟨_, hret⟩ | hfault
    · exact .inl hret
    · exact absurd hfault (hall rs hfed).1
  · rw [hpoll] at hpend
    rw [Complete, (loop_keeps hφ hk rs).1]
    exact .inr ⟨hpend, hlen⟩

theorem tracks_start : Tracks .searching [.startSearch] [] [] connectStart :=
  ⟨rfl, rfl, rfl, rfl, by simp [connectStart, startCall, Call.isFetch]⟩

theorem tracks_monitor : Tracks .connected [] [] [] (atPoll .monitoring) :=
  ⟨rfl, rfl, rfl, rfl, fun _ hc => absurd hc List.not_mem_nil⟩

/-- `connect_loop` after it has read a `control_data` that is not null. -/
theorem refines_control {control : Answer} (hcontrol : control.handle ≠ none) (q : List Datagram) :
    Refines (connectLoop.resume control) [.startSearch] .searching q :=
  refines_of_keeps rfl (by decide) (keeps_connectLoop hcontrol) tracks_start
    (serves_owed (by simp [startCall, Call.isFetch]) (serves_poll q .searching))

theorem refines_connectLoop (q : List Datagram) :
    Refines connectLoop [.startSearch] .searching q := by
  have htrace : ∀ control rs, connectLoop.trace (control :: rs) =
      (.controlData, control) :: (connectLoop.resume control).trace rs :=
    fun control rs => trace_cons (p := connectLoop) rfl control rs
  have hafter : ∀ control rs, connectLoop.after (control :: rs) =
      (connectLoop.resume control).after rs := fun control rs =>
        after_cons (p := connectLoop) rfl control rs
  have hreceived : ∀ control tr, receivedBytes ((.controlData, control) :: tr) = receivedBytes tr :=
    fun _ _ => rfl
  constructor
  · intro rs hfed
    cases rs with
    | nil => exact ⟨nofun, fun hcomplete => hcomplete.elim nofun fun h => nomatch h.1⟩
    | cons control rs =>
      obtain ⟨hqueue, hlisten, hcontrol⟩ := hfed
      rw [htrace] at hqueue hlisten hcontrol
      have hfed' : Fed (connectLoop.resume control) q rs :=
        ⟨hqueue, fun e he => hlisten e (List.mem_cons_of_mem _ he),
          fun e he => hcontrol e (List.mem_cons_of_mem _ he)⟩
      obtain ⟨hdef, hfollows⟩ :=
        (refines_control (hcontrol _ List.mem_cons_self rfl) q).1 rs hfed'
      rw [hafter]
      refine ⟨hdef, fun hcomplete => ?_⟩
      rw [Complete, hafter, htrace, hreceived] at hcomplete
      obtain ⟨hconsumed, hsteps, hends⟩ := hfollows hcomplete
      exact ⟨by rwa [htrace, hreceived], by rw [htrace]; exact hsteps, by rwa [hafter]⟩
  · obtain ⟨rs, hfed, hcomplete⟩ :=
      (refines_control (show (serve []).handle ≠ none by decide) q).2
    refine ⟨serve [] :: rs, ⟨?_, ?_, ?_⟩, ?_⟩
    · rw [htrace]
      exact hfed.queue
    · rw [htrace]
      exact List.forall_mem_cons.mpr ⟨nofun, hfed.listening⟩
    · rw [htrace]
      exact List.forall_mem_cons.mpr ⟨fun _ => by decide, hfed.control⟩
    · rw [Complete, hafter, htrace, hreceived]
      exact hcomplete

theorem refines_connectedLoop (q : List Datagram) : Refines connectedLoop [] .connected q :=
  refines_of_keeps rfl (by decide) keeps_connectedLoop tracks_monitor (serves_poll q .connected)

end Program

end RefinementLemmas

/-- On every queue of well-formed datagrams the two polling loops do what the
event machine does on the parsed events. -/
theorem polling_refines_eventMachine (q : List Datagram) :
    Refines connectLoop [.startSearch] .searching q ∧ Refines connectedLoop [] .connected q :=
  ⟨refines_connectLoop q, refines_connectedLoop q⟩

end P2pDriver
