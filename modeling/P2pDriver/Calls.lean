import P2pDriver.Library.Prog
import P2pDriver.Library.Buffer
import Mathlib.Data.List.TakeWhile

/-!
# The driver and its surroundings

What the driver calls outside of its own logic: the `wpa_ctrl` library, the
socket interface, the standard library, its threads, and the global variables it
shares between them. The functions of `connect.cpp`, `ip_exchanger.cpp`, the
socket helpers and `command_handler.cpp` are programs over these calls.

Every answer has the same shape, as a C call has: a status, and possibly bytes
stored through a pointer. A call reads the parts of the answer it uses.
-/

namespace P2pDriver

open Resumable

abbrev Byte := UInt8
abbrev Bytes := List Byte

/-- The bytes of an ASCII text. -/
def bytes (s : String) : Bytes := s.toList.map fun c => c.toNat.toUInt8

/-- A `wpa_ctrl*` that is not null, by the number of the `wpa_ctrl_open` that returned it. -/
abbrev Handle := Nat

/-- `sin_addr` of a `sockaddr_in`. -/
structure Ipv4 where
  a : Byte
  b : Byte
  c : Byte
  d : Byte
deriving DecidableEq, Repr, Inhabited

/-- A `sockaddr_in` that `memset` has cleared. -/
def Ipv4.zero : Ipv4 := ⟨0, 0, 0, 0⟩

/-- The three threads of the driver: `main`, and the two that `enter_connected_state`
starts. -/
inductive Thread where
  | main
  | commandHandler
  | connectionListener
deriving DecidableEq, Repr

/-- The signals `init_termination_signals` registers. -/
inductive Signal where
  | SIGABRT
  | SIGFPE
  | SIGILL
  | SIGINT
  | SIGSEGV
  | SIGTERM
deriving DecidableEq, Repr

/-- The functions of `command_executor.h`. -/
inductive Executor where
  | flashlightToggle (value : Bool)
  | leftLedToggle (value : Bool)
  | rightLedToggle (value : Bool)
  | runStream
  | stopStream
  | terminateExecution
deriving DecidableEq, Repr

/-- Entries to functions and returns from them. They have no effect, they only
let a run say where it is. -/
inductive Mark where
  | connectToDeviceReturned (connected : Bool)
  | ipExchangeCalled
  | ipExchangeReturned (success : Bool)
  | enterConnectedState
  | executeCommand
deriving DecidableEq, Repr

/-- The calls of the driver. Those of the `wpa_ctrl` library take the handle
that `control_data` holds at the time of the call. -/
inductive Call where
  | wpaCtrlOpen (path : Bytes)
  | wpaCtrlAttach
  | wpaCtrlDetach
  | wpaCtrlClose
  | wpaCtrlPending
  | wpaCtrlRecv (replyLen : Nat)
  /-- Reading `control_data`, to compare it with `nullptr`. -/
  | controlData
  | setControlData (h : Option Handle)
  | system (command : Bytes)
  | exit (code : Signal)
  | signal (signum : Signal)
  /-- Inserting a `char*` into `std::cout`. The call is handed the whole buffer. -/
  | print (buffer : Bytes)
  | setGroupName (name : Bytes)
  | setConnectionIsValid (val : Bool)
  | setClientIp (ip : Bytes)
  | setListenForCommands (val : Bool)
  | isListeningForCommands
  | getaddrinfo (port : Bytes) (udp : Bool)
  | freeaddrinfo
  | socket (udp : Bool)
  | bind (fd : Int)
  | listen (fd : Int)
  | accept (fd : Int)
  | select (fd : Int)
  | recv (fd : Int) (len : Nat)
  | recvfrom (fd : Int) (len : Nat)
  | send (fd : Int) (message : Bytes)
  | sendto (fd : Int) (addr : Ipv4) (message : Bytes)
  | close (fd : Int)
  | sleepFor (milliseconds : Nat)
  | spawn (t : Thread)
  | join (t : Thread)
  | execute (e : Executor)
  | mark (m : Mark)
deriving DecidableEq, Repr

/-- An answer. `ret` is the integer returned. `isSet` is the value of a Boolean
variable, or what `FD_ISSET` reads after `select`. `handle` is a `wpa_ctrl*`.
`offer` is what there is to receive, `stale` what the receiving buffer held
before, and `addr` the peer a socket call reports. -/
structure Answer where
  ret : Int := 0
  isSet : Bool := false
  handle : Option Handle := none
  offer : Bytes := []
  stale : Bytes := []
  addr : Ipv4 := Ipv4.zero
deriving DecidableEq, Repr, Inhabited

/-- A function of the driver that returns an `α`. -/
abbrev Drv (α : Type) := Prog Call Answer α

/-- A call whose answer is not used. -/
def perform (c : Call) : Drv Unit := .call c fun _ => .ret ()

@[simp] theorem perform_bind {β : Type} (c : Call) (f : Unit → Drv β) :
    (perform c).bind f = .call c fun _ => f () := rfl

/-- `c_str()` handed to a C function: the text ends at its first NUL. -/
def cStr (s : Bytes) : Bytes := s.takeWhile (· ≠ 0)

/-- A text without a NUL is passed on whole. -/
theorem cStr_eq_self {s : Bytes} (h : 0 ∉ s) : cStr s = s := by
  rw [cStr, List.takeWhile_eq_self_iff]
  intro b hb
  simpa using fun e : b = 0 => h (e ▸ hb)

/-- What is cut off at the first `a` does not depend on what follows it. -/
theorem takeWhile_append_of_mem {a : Byte} {s t : Bytes} (h : a ∈ s) :
    (s ++ t).takeWhile (· ≠ a) = s.takeWhile (· ≠ a) := by
  induction s with
  | nil => exact nomatch h
  | cons b s ih =>
    by_cases hb : b = a
    · simp [hb]
    · have hs : a ∈ s := (List.mem_cons.mp h).resolve_left fun e => hb e.symm
      simp only [List.cons_append, List.takeWhile_cons, ih hs]

/-- `system(command.c_str())`. -/
def system (command : Bytes) : Drv Unit := perform (.system (cStr command))

@[simp] theorem system_bind {β : Type} (command : Bytes) (f : Unit → Drv β) :
    (system command).bind f = .call (.system (cStr command)) fun _ => f () := rfl

end P2pDriver
