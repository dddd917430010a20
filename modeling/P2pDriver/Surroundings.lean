import P2pDriver.Process
import P2pDriver.EventLoop

/-!
# The process and its peer

The process together with what it receives: the event messages of the control
interface, in the order they were sent, and the datagrams, connections and bytes
of the peer. A blocking receive is only answered when there is something to
receive, `accept` when there is a connection, a `join` when the thread has ended.
`select` finds the connection readable only if it is, and may always time out.
The calls that set up sockets may fail, and so may sends; receives from the peer do not.

An `AP_STA_DISCONNECTED` event tells that a station has disconnected. When that is
the peer, it sends nothing until the driver has started a new search. Signals are
left out.

Results:
1. `world_refines`: the process in its surroundings is the process.
-/

namespace P2pDriver

open Resumable Prog

/-! ## 1. What there is to receive -/

/-- `datagrams` and `connections` are those that wait for the open sockets, and
`stream` and `shut` are what the connection holds. `joined`: `connect_loop` has
returned since the last search was started. `gone`: the peer has left since. -/
structure Surroundings where
  events : List Bytes := []
  datagrams : List Bytes := []
  connections : Nat := 0
  stream : Bytes := []
  shut : Bool := false
  joined : Bool := false
  gone : Bool := false

/-- What happens outside of the driver. -/
inductive Outside where
  | event (message : Bytes)
  | leave
  | datagram (message : Bytes)
  | connect
  | send (message : Bytes)
  | shutdown
deriving DecidableEq

/-- Whether an event message tells that a station has disconnected. -/
def tellsDisconnect (message : Bytes) : Bool := deviceDisconnected <+: message.drop prefixLen

namespace Surroundings

/-- Whether a `recv` on the connection returns at once. -/
def readable (w : Surroundings) : Bool := w.stream ≠ [] || w.shut

/-- The answers a call may get. -/
def answers (w : Surroundings) : Call → Answer → Bool
  | .wpaCtrlPending, r => !r.isSet || w.events ≠ []
  | .wpaCtrlRecv _, r => w.events.head? = some r.offer
  | .recvfrom _ len, r => w.datagrams.head? = some r.offer && r.ret = (min len r.offer.length : Nat)
  | .accept _, _ => 0 < w.connections
  | .select _, r => !r.isSet || w.readable
  | .recv _ len, r => r.offer <+: w.stream && r.offer.length ≤ len && r.ret = r.offer.length &&
      (r.offer ≠ [] || w.shut && w.stream = [])
  | _, _ => true

/-- What is left after a call. A socket that is bound or listened on is new. -/
def effect (w : Surroundings) (c : Call) (r : Answer) : Surroundings :=
  match c with
  | .wpaCtrlRecv _ => if r.ret < 0 then w else { w with events := w.events.tail }
  | .bind _ => { w with datagrams := [] }
  | .recvfrom _ _ => { w with datagrams := w.datagrams.tail }
  | .listen _ => { w with connections := 0, stream := [], shut := false }
  | .accept _ => { w with connections := w.connections - 1 }
  | .recv _ _ => { w with stream := w.stream.drop r.offer.length }
  | .mark (.connectToDeviceReturned true) => { w with joined := true, gone := false }
  | c => if c = startCall then { w with joined := false, gone := false } else w

/-- What the peer and the control interface do. The peer has left when an event that
waits tells of it; of which station an event tells does not matter to the driver. -/
def outside (w : Surroundings) : Outside → Option Surroundings
  | .event message => some { w with events := w.events ++ [message] }
  | .leave =>
    if w.joined && w.events.any tellsDisconnect then some { w with gone := true } else none
  | .datagram message =>
    if w.gone then none else some { w with datagrams := w.datagrams ++ [message] }
  | .connect => if w.gone then none else some { w with connections := w.connections + 1 }
  | .send message => if w.gone then none else some { w with stream := w.stream ++ message }
  | .shutdown => if w.gone then none else some { w with shut := true }

end Surroundings

/-! ## 2. The process in its surroundings -/

structure World where
  shared : Shared
  around : Surroundings

/-- The process in its surroundings. -/
def world : System Call Answer World Thread Signal Outside where
  text := process.text
  handler := process.handler
  spawns := process.spawns
  joins := process.joins
  answers s c r := s.shared.answers c r && s.around.answers c r
  effect s c r := ⟨s.shared.effect c r, s.around.effect c r⟩
  delivers _ _ := false
  outside s e := (s.around.outside e).map fun around => ⟨s.shared, around⟩

abbrev WorldState := Config Call Answer World Thread Signal
abbrev WorldMove := Label Call Answer Thread Signal Outside

/-- The process when `main` is called, with `udp_connection_handshake` as
`ip_exchange_fun`. -/
def worldStart : WorldState := ⟨⟨{}, {}⟩, (initial .udp).threads⟩

theorem world_answers {s : World} {c : Call} {r : Answer} : world.answers s c r = true ↔
    s.shared.answers c r = true ∧ s.around.answers c r = true :=
  Bool.and_eq_true_iff

/-- The process in its surroundings is the process. -/
theorem world_refines : world.Refines process World.shared where
  text := rfl
  handler := rfl
  spawns := rfl
  joins := rfl
  answers _ _ _ h := (world_answers.mp h).1
  effect _ _ _ := rfl
  delivers _ _ h := Bool.noConfusion h
  outside s e s' h := by
    obtain ⟨around, -, rfl⟩ := Option.map_eq_some_iff.mp h
    rfl

/-- The next execution of `SCRIPT_START_P2P_SEARCH`. -/
def StartsSearch (l : WorldMove) : Prop := ∃ r, l = .call .main startCall r

/-- The driver gets to the next search by calls of its own threads alone. -/
def Recovers (C : WorldState) : Prop := world.LeadsTo StartsSearch C

end P2pDriver
