import P2pDriver.StopRequest

/-!
# What `connection_is_valid` says

The variable is declared to say that the client and the driver have exchanged
their addresses. This module compares it, in every state of every run of the
process, with what the run has seen of handshakes, disconnects and stop requests.

Results:
1. `never_valid`: the variable is false in every state, as nothing sets it.
2. `validity_iff_no_handshake`: it says what it is declared to say exactly in the
   runs in which no handshake succeeds.
-/

namespace P2pDriver

open Resumable Prog SessionMachineLemmas

/-! ## 1. What the variable should say -/

/-- A handshake of `main` has returned true. -/
def handshakeSucceeds : Move → Bool
  | .call .main (.mark (.ipExchangeReturned success)) _ => success
  | _ => false

/-- `connected_loop` has received an `AP_STA_DISCONNECTED` event, or read the flag false. -/
def connectionLost : Move → Bool
  | .call .connectionListener (.wpaCtrlRecv _) r =>
    (delivered r).any fun m => isType m deviceDisconnected
  | .call .connectionListener .isListeningForCommands r => !r.isSet
  | _ => false

/-- Whether the last handshake has succeeded, and the connection was not lost since. -/
def connectionStands (stands : Bool) : Move → Bool
  | .call .main (.mark (.ipExchangeReturned success)) _ => success
  | l => stands && !connectionLost l

def connectionExpected (ls : List Move) : Bool := ls.foldl connectionStands false

/-- The variable says what it should in every state of the run `ls`. -/
def ValidityKept (ip : IpExchange) (ls : List Move) : Prop :=
  ∀ ls' C, ls' <+: ls → process.run (initial ip) ls' = some C →
    C.store.connectionIsValid = connectionExpected ls'

/-! ## 2. What it says -/

/-- `connection_is_valid` is false in every state of the process. -/
theorem never_valid {ip : IpExchange} {ls : List Move} {C : State}
    (h : process.run (initial ip) ls = some C) : C.store.connectionIsValid = false := by
  obtain ⟨a, -, hcoherent, htracks⟩ := session_run h
  exact htracks.valid.trans hcoherent.valid

namespace ConnectionValidityLemmas

/-- Only a handshake makes a connection stand. -/
theorem not_stands {l : Move} (h : handshakeSucceeds l = false) :
    connectionStands false l = false := by
  unfold connectionStands
  split
  · exact h
  · exact Bool.false_and _

theorem stands_of_succeeds {l : Move} (h : handshakeSucceeds l = true) (stands : Bool) :
    connectionStands stands l = true := by
  unfold handshakeSucceeds at h
  split at h
  · exact h
  · exact Bool.noConfusion h

theorem not_expected {ls : List Move} (h : ∀ l ∈ ls, handshakeSucceeds l = false) :
    connectionExpected ls = false := by
  induction ls with
  | nil => rfl
  | cons l ls ih =>
    rw [connectionExpected, List.foldl_cons, not_stands (h l List.mem_cons_self)]
    exact ih fun l' hl' => h l' (List.mem_cons_of_mem _ hl')

theorem expected_of_succeeds (ls : List Move) {l : Move} (h : handshakeSucceeds l = true) :
    connectionExpected (ls ++ [l]) = true := by
  rw [connectionExpected, List.foldl_append, List.foldl_cons, List.foldl_nil]
  exact stands_of_succeeds h _

/-- A part of a run is a run. -/
theorem run_of_prefix {ip : IpExchange} {ls ls' : List Move}
    (h : (process.run (initial ip) ls).isSome = true) (hpre : ls' <+: ls) :
    ∃ C, process.run (initial ip) ls' = some C := by
  obtain ⟨rest, rfl⟩ := hpre
  obtain ⟨C', hC'⟩ := Option.isSome_iff_exists.mp h
  obtain ⟨C, hC, -⟩ := System.run_append_eq_some.mp hC'
  exact ⟨C, hC⟩

end ConnectionValidityLemmas

open ConnectionValidityLemmas

/-- `connection_is_valid` says what it is declared to say in every state of a run
exactly when no handshake of the run succeeds. -/
theorem validity_iff_no_handshake (ip : IpExchange) {ls : List Move}
    (h : (process.run (initial ip) ls).isSome = true) :
    ValidityKept ip ls ↔ ∀ l ∈ ls, handshakeSucceeds l = false := by
  constructor
  · intro hkept l hl
    by_contra hsucceeds
    obtain ⟨before, after, rfl⟩ := List.append_of_mem hl
    have hpre : before ++ [l] <+: before ++ l :: after := ⟨after, by simp⟩
    obtain ⟨C, hC⟩ := run_of_prefix h hpre
    have hvalid := hkept _ C hpre hC
    -- the state after the handshake
    rw [never_valid hC,
      expected_of_succeeds before (Bool.eq_true_of_not_eq_false hsucceeds)] at hvalid
    exact Bool.noConfusion hvalid
  · intro hnone ls' C hpre hC
    rw [never_valid hC, not_expected fun l hl => hnone l (hpre.subset hl)]

/-- `main` attaches, searches, connects to the first device, and fails to open the
socket of the handshake. -/
def failedHandshake : List Move :=
  movesOf .main (main .udp)
    [{}, { handle := some 7 }, {}, {}, { handle := some 7 }, {}, {}, {}, {}, {}, {},
    { handle := some 7 }, {}, { isSet := true },
    { offer := bytes "<3>P2P-GO-NEG-REQUEST 02:00:00:00:00:01" }, {}, { isSet := true },
    { offer := bytes "<3>P2P-GROUP-STARTED p2p-wlan0-0 GO" }, {}, {}, {}, {}, { ret := -1 }, {}]

theorem failedHandshake_kept :
    ValidityKept .udp failedHandshake ↔ ∀ l ∈ failedHandshake, handshakeSucceeds l = false :=
  validity_iff_no_handshake .udp (by decide +kernel)

/-- After a handshake that succeeds the variable is still false. -/
theorem handshake_leaves_invalid :
    ¬ ∀ (ip : IpExchange) (ls : List Move), (process.run (initial ip) ls).isSome = true →
      ValidityKept ip ls := by
  intro h
  have hrun : (process.run (initial .udp) sampleBefore).isSome = true := by decide +kernel
  have hexpected : connectionExpected sampleBefore = true := by decide +kernel
  obtain ⟨C, hC⟩ := Option.isSome_iff_exists.mp hrun
  have hvalid := h .udp sampleBefore hrun sampleBefore C (List.prefix_refl _) hC
  rw [never_valid hC, hexpected] at hvalid
  exact Bool.noConfusion hvalid

end P2pDriver
