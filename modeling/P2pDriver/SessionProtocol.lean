import P2pDriver.EventLoop
import P2pDriver.Driver

/-!
# The session protocol of `main`

In which order `main` runs its scripts, tries a handshake and enters the
connected state. The order comes about in four nested loops; here it is one
condition on each call, in terms of the calls before it.

Results:
1. `keeps_main`: every call of `main` is in order.
2. `main_session_protocol`: the shell commands of a run, and what comes
   immediately before a `p2p_connect`, a handshake and a session.
-/

namespace P2pDriver

open Resumable Prog EventLoopLemmas DriverLemmas

/-! ## 1. What is assumed of a run -/

/-- An event message with its prefix, and with its address if it is a request. -/
def WholeMessage (received : Bytes) : Prop :=
  prefixLen ≤ received.length ∧
    (goNegRequest <+: received.drop prefixLen →
      prefixLen + goNegRequest.length + macAddressLen ≤ received.length)

instance (received : Bytes) : Decidable (WholeMessage received) :=
  inferInstanceAs (Decidable (_ ∧ _))

/-- The value of `control_data` after some calls, the last call first. -/
def controlOf : List (Call × Answer) → Option Handle
  | [] => none
  | (.setControlData h, _) :: _ => h
  | _ :: past => controlOf past

/-- What a call may answer: `control_data` is what it was last set to, and every
event message is whole. -/
def Expected (past : List (Call × Answer)) (c : Call) (r : Answer) : Prop :=
  (c = .controlData → r.handle = controlOf past) ∧ ∀ b ∈ receivedBy (c, r), WholeMessage b

/-- In a run that starts with the value `h`, every read of `control_data` finds
what it was last set to. -/
def readsControl : Option Handle → List (Call × Answer) → Bool
  | _, [] => true
  | h, (.controlData, r) :: tr => r.handle = h && readsControl h tr
  | _, (.setControlData h, _) :: tr => readsControl h tr
  | h, _ :: tr => readsControl h tr

/-! ## 2. Calls in order -/

/-- Whether the last shell command was the search script. -/
def searchStarted : List (Call × Answer) → Bool
  | [] => false
  | (.system cmd, _) :: _ => cmd = cStr startP2pCommand
  | _ :: past => searchStarted past

/-- A call that receives a message of a type. -/
def receives (t : Bytes) (e : Call × Answer) : Bool :=
  (receivedBy e).any fun b => decide (t <+: b.drop prefixLen)

/-- `cmd` connects to the address in the request that was received last. -/
def carriesRequest (past : List (Call × Answer)) (cmd : Bytes) : Bool :=
  match past with
  | e :: _ => receives goNegRequest e &&
      (receivedBy e).any fun b => cmd = cStr (connectCommand (macField b))
  | [] => false

/-- `connect_to_device` has just returned true, after a group was started. -/
def groupJustStarted : List (Call × Answer) → Bool
  | (.mark (.connectToDeviceReturned true), _) :: (.setGroupName _, _) :: (.print _, _) :: e :: _ =>
    receives groupStarted e
  | _ => false

/-- A handshake has just returned true. -/
def handshakeJustSucceeded : List (Call × Answer) → Bool
  | (.mark (.ipExchangeReturned true), _) :: _ => true
  | _ => false

/-- A call is in order after the calls before it, the last one first. -/
def inOrder (past : List (Call × Answer)) : Call → Bool
  | .system cmd =>
    if searchStarted past then carriesRequest past cmd else cmd = cStr startP2pCommand
  | .mark .ipExchangeCalled => groupJustStarted past
  | .mark .enterConnectedState => handshakeJustSucceeded past
  | _ => true

/-- The commands among some calls. -/
def shellCommands (calls : List Call) : List Bytes :=
  calls.filterMap fun
    | .system cmd => some cmd
    | _ => none

/-- `start, connect(m₁), …, start, connect(mₙ)` -/
def rounds (macs : List Bytes) : List Bytes :=
  macs.flatMap fun mac => [cStr startP2pCommand, cStr (connectCommand mac)]

/-- What the calls of a run are like, where `tr` has the answers of all but the
one it waits on. -/
structure SessionProtocol (tr : List (Call × Answer)) (calls : List Call) : Prop where
  /-- the search script and `p2p_connect` take turns -/
  commands : ∃ macs, shellCommands calls <+: rounds macs ++ [cStr startP2pCommand]
  /-- a `p2p_connect` carries the address of the request received immediately before it -/
  connects : ∀ i cmd, calls[i]? = some (.system cmd) → cmd ≠ cStr startP2pCommand →
    ∃ before e received, tr.take i = before ++ [e] ∧ receivedBy e = some received ∧
      goNegRequest <+: received.drop prefixLen ∧ cmd = cStr (connectCommand (macField received)) ∧
      (0 ∉ macField received → cmd = connectCommand (macField received))
  /-- a handshake is tried immediately after `connect_to_device` has received the
  event that a group was started, and returned true -/
  handshakes : ∀ i, calls[i]? = some (.mark .ipExchangeCalled) →
    ∃ before e received cells name r₁ r₂ r₃, tr.take i = before ++ [e, (.print cells, r₁),
        (.setGroupName name, r₂), (.mark (.connectToDeviceReturned true), r₃)] ∧
      receivedBy e = some received ∧ groupStarted <+: received.drop prefixLen
  /-- a session is entered immediately after a handshake has returned true -/
  sessions : ∀ i, calls[i]? = some (.mark .enterConnectedState) →
    ∃ before r, tr.take i = before ++ [(.mark (.ipExchangeReturned true), r)]

abbrev orderSpec : Spec Call Answer (List (Call × Answer)) := historySpec Expected inOrder

/-! ## 3. `main` keeps the order -/

namespace SessionProtocolLemmas

/-- A call that matters to neither the order nor `control_data`. -/
def plain : Call → Bool
  | .system _ | .setControlData _ | .mark _ => false
  | _ => true

/-- A call of the setup and the clean-up. -/
def noCommand : Call → Bool
  | .system _ | .mark _ => false
  | _ => true

/-- `control_data` is set, and the last shell command was the search script if `b`. -/
def Stands (b : Bool) (past : List (Call × Answer)) : Prop :=
  searchStarted past = b ∧ controlOf past ≠ none

theorem searchStarted_cons {c : Call} (hc : ∀ cmd, c ≠ .system cmd) (r : Answer)
    (past : List (Call × Answer)) : searchStarted ((c, r) :: past) = searchStarted past := by
  cases c <;> first | rfl | exact absurd rfl (hc _)

theorem controlOf_cons {c : Call} (hc : ∀ h, c ≠ .setControlData h) (r : Answer)
    (past : List (Call × Answer)) : controlOf ((c, r) :: past) = controlOf past := by
  cases c <;> first | rfl | exact absurd rfl (hc _)

variable {past : List (Call × Answer)} {b : Bool} {α : Type}

theorem Stands.plain {c : Call} (h : Stands b past) (hc : plain c = true) (r : Answer) :
    Stands b ((c, r) :: past) := by
  rw [Stands, searchStarted_cons (by rintro _ rfl; exact Bool.noConfusion hc),
    controlOf_cons (by rintro _ rfl; exact Bool.noConfusion hc)]
  exact h

theorem Stands.mark {m : Mark} (h : Stands b past) (r : Answer) :
    Stands b ((.mark m, r) :: past) := h

theorem inOrder_noCommand {c : Call} (hc : noCommand c = true) : inOrder past c = true := by
  cases c <;> first | rfl | exact Bool.noConfusion hc

theorem noCommand_of_plain {c : Call} (hc : plain c = true) : noCommand c = true := by
  cases c <;> first | rfl | exact Bool.noConfusion hc

theorem plain_of_isHandshake {c : Call} (hc : c.isHandshake = true) : plain c = true := by
  cases c <;> first | rfl | exact Bool.noConfusion hc

/-- A plain call is in order, and changes nothing. -/
theorem keeps_plain {c : Call} {k : Answer → Drv α} {Q : α → List (Call × Answer) → Prop}
    (hc : plain c = true) (hpast : Stands b past)
    (h : ∀ r, Expected past c r → Stands b ((c, r) :: past) →
        Keeps orderSpec ((c, r) :: past) (k r) Q) :
    Keeps orderSpec past (.call c k) Q :=
  keeps_allowed (inOrder_noCommand (noCommand_of_plain hc)) fun r hr => h r hr (hpast.plain hc r)

/-- A program of plain calls stays where it is. -/
theorem keeps_only {F : Prop} {p : Drv α} (h : Only plain F p) (hpast : Stands b past) :
    Keeps orderSpec past p fun _ past' => Stands b past' :=
  h.keeps_inv (Stands b) hpast
    (fun _ _ r hm hc _ => ⟨_, if_pos (inOrder_noCommand (noCommand_of_plain hc)), hm.plain hc r⟩)
    fun _ _ _ => trivial

/-- The search script may run when the last command was not the search script. -/
theorem keeps_start {k : Unit → Drv α} {Q : α → List (Call × Answer) → Prop}
    (hpast : Stands false past) (h : ∀ past', Stands true past' → Keeps orderSpec past' (k ()) Q) :
    Keeps orderSpec past ((system startP2pCommand).bind k) Q := by
  refine keeps_allowed (c := .system (cStr startP2pCommand)) ?_ fun r _ => h _ ⟨?_, ?_⟩
  · simp [inOrder, hpast.1]
  · simp [searchStarted]
  · rw [controlOf_cons (by intro _ h; cases h)]
    exact hpast.2

/-- A polling loop sees every message right after it has been received. -/
theorem keeps_fetchMessage {k : Option Message → Drv α} {Q : α → List (Call × Answer) → Prop}
    (hpast : Stands b past) (hnone : ∀ past', Stands b past' → Keeps orderSpec past' (k none) Q)
    (hsome : ∀ past' e m, Stands b (e :: past') → receivedBy e = some m.bytes →
      WholeMessage m.bytes → Keeps orderSpec (e :: past') (k (some m)) Q) (r : Answer) :
    Keeps orderSpec ((.wpaCtrlPending, r) :: past)
      ((if r.isSet then recieveMessage else .ret none).bind k) Q := by
  have hpast' : Stands b ((.wpaCtrlPending, r) :: past) := hpast.plain rfl r
  refine keeps_poll (fun _ => hnone _ hpast') fun _ r' hr' => ⟨_, rfl, ?_⟩
  have hstands := hpast'.plain (c := .wpaCtrlRecv messageCap) rfl r'
  cases hd : delivered r' with
  | none => exact hnone _ hstands
  | some m =>
    have hrecv : receivedBy (.wpaCtrlRecv messageCap, r') = some m.bytes := by
      simp [receivedBy, hd]
    exact hsome _ (.wpaCtrlRecv messageCap, r') m hstands hrecv (hr'.2 _ hrecv)

theorem receives_of_isType {e : Call × Answer} {m : Message} {t : Bytes}
    (he : receivedBy e = some m.bytes) (hm : WholeMessage m.bytes) (h : isType m t = true) :
    receives t e = true := by
  simpa [receives, he] using (isType_iff_received hm.1 t).mp h

/-- `connect_to_device` after its command. -/
theorem keeps_negotiationLoop_order (hpast : Stands false past) :
    Keeps orderSpec past negotiationLoop fun connected past' => Stands false past' ∧
      (connected = true →
        ∀ r, groupJustStarted ((.mark (.connectToDeviceReturned true), r) :: past') = true) := by
  refine keeps_loop (Stands false) hpast fun past hpast r _ => ⟨_, rfl, ?_⟩
  refine keeps_fetchMessage hpast (fun _ h => ?_) (fun past' e m h he hm => ?_) r
  · exact keeps_ret h
  simp only [negotiationRound, bind_eq, perform_bind]
  rw [testType_eq m (by decide), testType_eq m (by decide), testType_eq m (by decide)]
  simp only [ret_bind]
  refine keeps_plain rfl h fun _ _ hprint => ?_
  cases hstarted : isType m groupStarted with
  | true =>
    refine keeps_bind (keeps_ofOption (fun name _ => ?_) fun _ => trivial)
    refine keeps_plain rfl hprint fun _ _ hname => keeps_ret (keeps_ret ⟨hname, fun _ _ => ?_⟩)
    exact receives_of_isType he hm hstarted
  | false =>
    cases isType m groupFormationFailure with
    | true => exact keeps_ret (keeps_ret ⟨hprint, fun h => Bool.noConfusion h⟩)
    | false =>
      cases isType m goNegFailure with
      | true => exact keeps_ret (keeps_ret ⟨hprint, fun h => Bool.noConfusion h⟩)
      | false => exact keeps_ret hprint

/-- `connect_to_device`, called on the address of a request that was just received. -/
theorem keeps_connectToDevice_order {e : Call × Answer} {m : Message} (h : Stands true (e :: past))
    (he : receivedBy e = some m.bytes) (hrequest : receives goNegRequest e = true) :
    Keeps orderSpec (e :: past) (connectToDevice (macField m.bytes)) fun connected past' =>
      Stands false past' ∧ (connected = true → groupJustStarted past' = true) := by
  simp only [connectToDevice, bind_eq, system_bind]
  refine keeps_allowed ?_ fun r _ => keeps_bind ((keeps_negotiationLoop_order ⟨?_, ?_⟩).mono ?_)
  · simp [inOrder, h.1, carriesRequest, he, hrequest]
  · -- the last command is a `p2p_connect` now
    rw [searchStarted, Call.system.inj startCall_eq]
    exact decide_eq_false (connectCall_ne_start (macField m.bytes))
  · rw [controlOf_cons (by intro _ h; cases h)]
    exact h.2
  · rintro connected past' ⟨hpast', hconnected⟩
    refine keeps_allowed rfl fun r _ => keeps_ret ⟨hpast'.mark r, fun hc => ?_⟩
    subst hc
    exact hconnected rfl r

/-- `connect_loop` after its first run of the search script. -/
theorem keeps_searchLoop_order (hpast : Stands true past) :
    Keeps orderSpec past searchLoop fun _ past' =>
      Stands false past' ∧ groupJustStarted past' = true := by
  refine keeps_loop (Stands true) hpast fun past hpast r _ => ⟨_, rfl, ?_⟩
  refine keeps_fetchMessage hpast (fun _ h => ?_) (fun past' e m h he hm => ?_) r
  · exact keeps_ret h
  simp only [searchRound, bind_eq]
  rw [testType_eq m (by decide)]
  simp only [ret_bind]
  cases hrequest : isType m goNegRequest with
  | false => exact keeps_ret h
  | true =>
    have hmac : macWindow m = macField m.bytes :=
      macWindow_eq_received (hm.2 ((isType_iff_received hm.1 _).mp hrequest))
    simp only [if_true, getMac_eq, ofOption_some, ret_bind, hmac]
    refine keeps_bind
      ((keeps_connectToDevice_order h he (receives_of_isType he hm hrequest)).mono ?_)
    rintro connected past' ⟨hpast', hconnected⟩
    cases connected with
    | true => exact keeps_ret (keeps_ret ⟨hpast', hconnected rfl⟩)
    | false => exact keeps_start hpast' fun _ h => keeps_ret h

/-- `connect_loop`, when it is called with `control_data` set. -/
theorem keeps_connectLoop_order (hpast : Stands false past) :
    Keeps orderSpec past connectLoop fun _ past' =>
      Stands false past' ∧ groupJustStarted past' = true := by
  refine keeps_plain rfl hpast fun r hr hstands => ?_
  have hcontrol : r.handle ≠ none := by
    rw [hr.1 rfl]
    exact hpast.2
  rw [if_neg hcontrol]
  exact keeps_start hstands fun _ h => keeps_searchLoop_order h

theorem keeps_callIpExchange (ip : IpExchange) (hpast : Stands false past)
    (hstarted : groupJustStarted past = true) :
    Keeps orderSpec past (callIpExchange ip) fun success past' =>
      Stands false past' ∧ (success = true → handshakeJustSucceeded past' = true) := by
  simp only [callIpExchange, bind_eq, perform_bind]
  refine keeps_allowed hstarted fun r _ => keeps_bind (?_)
  refine (keeps_only (SocketLemmas.only_ipExchangeFun (fun _ => plain_of_isHandshake) ip)
    (hpast.mark r)).mono fun success past' hpast' => ?_
  refine keeps_allowed rfl fun r _ => keeps_ret ⟨hpast'.mark r, fun hs => ?_⟩
  subst hs
  rfl

theorem keeps_retryHandshake (ip : IpExchange) {success : Bool} (hpast : Stands false past)
    (hsuccess : success = true → handshakeJustSucceeded past = true) :
    Keeps orderSpec past (retryHandshake ip success) fun _ past' =>
      Stands false past' ∧ handshakeJustSucceeded past' = true := by
  cases success with
  | true => exact keeps_ret ⟨hpast, hsuccess rfl⟩
  | false =>
    rw [retryHandshake, if_neg Bool.false_ne_true]
    refine keeps_forever (Stands false) hpast rfl fun past hpast => ?_
    refine keeps_bind ((keeps_connectLoop_order hpast).mono fun _ past' h => ?_)
    refine keeps_bind ((keeps_callIpExchange ip h.1 h.2).mono fun success past' h' => ?_)
    cases success with
    | true => exact keeps_ret (keeps_ret ⟨h'.1, h'.2 rfl⟩)
    | false => exact keeps_ret h'.1

theorem keeps_enterConnectedState (hpast : Stands false past)
    (hsuccess : handshakeJustSucceeded past = true) :
    Keeps orderSpec past enterConnectedState fun _ past' => Stands false past' := by
  simp only [enterConnectedState, bind_eq, perform_bind]
  refine keeps_allowed hsuccess fun r _ => ?_
  refine keeps_only (F := False) ?_ (hpast.mark r)
  exact only_call rfl fun _ => only_call rfl fun _ => only_call rfl fun _ => only_call rfl fun _ =>
    only_call rfl fun _ => only_ret _

theorem keeps_masterLoop (ip : IpExchange) (hpast : Stands false past) :
    Keeps orderSpec past (masterLoop ip) fun _ _ => True := by
  refine keeps_forever (Stands false) hpast rfl fun past hpast => ?_
  refine keeps_bind ((keeps_connectLoop_order hpast).mono fun _ past' h => ?_)
  refine keeps_bind ((keeps_callIpExchange ip h.1 h.2).mono fun success past' h' => ?_)
  refine keeps_bind ((keeps_retryHandshake ip h'.1 h'.2).mono fun _ past' h => ?_)
  exact keeps_bind ((keeps_enterConnectedState h.1 h.2).mono fun _ past' h => keeps_ret h)

theorem noCommand_of_isSetup {c : Call} (hc : c.isSetup = true) : noCommand c = true := by
  cases c <;> first | rfl | exact Bool.noConfusion hc

end SessionProtocolLemmas

open SessionProtocolLemmas

/-- Every call of `main` is in order. -/
theorem keeps_main (ip : IpExchange) : Keeps orderSpec [] (main ip) fun _ _ => True := by
  have hinit : Keeps orderSpec [] initAndAttachCtrl fun _ past => searchStarted past = false :=
    (only_initAndAttachCtrl fun _ => noCommand_of_isSetup).keeps_inv (searchStarted · = false) rfl
      (fun past c r hm hc _ => ⟨_, if_pos (inOrder_noCommand hc), by
        rwa [searchStarted_cons (by rintro _ rfl; exact Bool.noConfusion hc)]⟩)
      fun hF => hF.elim
  refine keeps_bind (hinit.mono fun _ past hpast => ?_)
  refine keeps_allowed rfl fun control hcontrol => ?_
  simp only [ret_bind]
  split
  · exact keeps_ret trivial
  · rename_i hne
    have hstands : Stands false ((.controlData, control) :: past) :=
      ⟨hpast, show controlOf past ≠ none from hcontrol.1 rfl ▸ hne⟩
    exact keeps_bind ((keeps_only (only_initTerminationSignals fun _ => rfl) hstands).mono
      fun _ past' h => keeps_masterLoop ip h)

/-! ## 4. Runs of `main` -/

namespace SessionProtocolLemmas

/-- Some answer is always expected. -/
theorem expected_live (past : List (Call × Answer)) (c : Call) : ∃ r, Expected past c r := by
  refine ⟨{ ret := -1, handle := controlOf past }, fun _ => rfl, fun b hb => ?_⟩
  cases c <;> exact absurd hb (by simp [receivedBy, delivered])

theorem admits_of_reads {past tr : List (Call × Answer)}
    (hreads : readsControl (controlOf past) tr = true)
    (hwhole : ∀ e ∈ tr, ∀ b ∈ receivedBy e, WholeMessage b) : orderSpec.Admits past tr := by
  induction tr generalizing past with
  | nil => trivial
  | cons e tr ih =>
    obtain ⟨c, r⟩ := e
    have hrest : readsControl (controlOf ((c, r) :: past)) tr = true := by
      cases c <;> first | exact hreads | exact (Bool.and_eq_true _ _ ▸ hreads).2
    refine ⟨⟨?_, hwhole _ List.mem_cons_self⟩, fun past' hpast' => ?_⟩
    · rintro rfl
      exact of_decide_eq_true (Bool.and_eq_true _ _ ▸ hreads).1
    · have hexec : orderSpec.exec past [(c, r)] = some past' := by simpa using hpast'
      rw [show past' = (c, r) :: past by simpa using exec_history hexec]
      exact ih hrest fun e he => hwhole e (List.mem_cons_of_mem _ he)

theorem shellCommands_append (cs cs' : List Call) :
    shellCommands (cs ++ cs') = shellCommands cs ++ shellCommands cs' := List.filterMap_append

theorem shellCommands_other {c : Call} (hc : ∀ cmd, c ≠ .system cmd) : shellCommands [c] = [] := by
  cases c <;> first | rfl | exact absurd rfl (hc _)

theorem receives_iff {t : Bytes} {e : Call × Answer} :
    receives t e = true ↔ ∃ b, receivedBy e = some b ∧ t <+: b.drop prefixLen := by
  simp [receives, Option.any_eq_true]

theorem exists_of_carriesRequest {past : List (Call × Answer)} {cmd : Bytes}
    (h : carriesRequest past cmd = true) : ∃ e rest b, past = e :: rest ∧ receivedBy e = some b ∧
      goNegRequest <+: b.drop prefixLen ∧ cmd = cStr (connectCommand (macField b)) := by
  cases past with
  | nil => exact Bool.noConfusion h
  | cons e rest =>
    simp only [carriesRequest, Bool.and_eq_true, receives_iff] at h
    obtain ⟨⟨b, he, hrequest⟩, hcmd⟩ := h
    exact ⟨e, rest, b, rfl, he, hrequest, by simpa [he] using hcmd⟩

theorem inOrder_system (past : List (Call × Answer)) (cmd : Bytes) :
    inOrder past (.system cmd) =
      if searchStarted past then carriesRequest past cmd
      else decide (cmd = cStr startP2pCommand) := rfl

/-- After the search script comes a `p2p_connect`. -/
theorem connect_of_started {past : List (Call × Answer)} {cmd : Bytes} (r : Answer)
    (hs : searchStarted past = true) (h : inOrder past (.system cmd) = true) :
    (∃ mac, cmd = cStr (connectCommand mac)) ∧
      searchStarted ((.system cmd, r) :: past) = false := by
  rw [inOrder_system, if_pos hs] at h
  obtain ⟨e, rest, b, -, -, -, rfl⟩ := exists_of_carriesRequest h
  refine ⟨⟨_, rfl⟩, ?_⟩
  rw [searchStarted, Call.system.inj startCall_eq]
  exact decide_eq_false (connectCall_ne_start (macField b))

/-- The first command is the search script, and so is the one after a `p2p_connect`. -/
theorem start_of_not_started {past : List (Call × Answer)} {cmd : Bytes} (r : Answer)
    (hs : searchStarted past = false) (h : inOrder past (.system cmd) = true) :
    cmd = cStr startP2pCommand ∧ searchStarted ((.system cmd, r) :: past) = true := by
  rw [inOrder_system, hs, if_neg Bool.false_ne_true] at h
  exact ⟨of_decide_eq_true h, h⟩

/-- Commands that are all in order take turns. -/
theorem commands_alternate {tr : List (Call × Answer)}
    (h : ∀ i e, tr[i]? = some e → inOrder (tr.take i).reverse e.1 = true) :
    ∃ macs, shellCommands (tr.map Prod.fst) =
      rounds macs ++ if searchStarted tr.reverse then [cStr startP2pCommand] else [] := by
  induction tr using List.reverseRecOn with
  | nil => exact ⟨[], rfl⟩
  | append_singleton tr e ih =>
    have hlast : inOrder tr.reverse e.1 = true := by
      simpa using h tr.length e (by simp)
    obtain ⟨macs, hmacs⟩ := ih fun i e' he' => by
      have hi := (List.getElem?_eq_some_iff.mp he').1
      have := h i e' (by rw [List.getElem?_append_left hi]; exact he')
      rwa [List.take_append_of_le_length (Nat.le_of_lt hi)] at this
    obtain ⟨c, r⟩ := e
    rw [List.map_append, shellCommands_append, hmacs, List.reverse_append, List.reverse_singleton,
      List.singleton_append]
    by_cases hc : ∃ cmd, c = .system cmd
    · obtain ⟨cmd, rfl⟩ := hc
      cases hs : searchStarted tr.reverse with
      | true =>
        obtain ⟨⟨mac, rfl⟩, hnow⟩ := connect_of_started r hs hlast
        refine ⟨macs ++ [mac], ?_⟩
        simp [hnow, rounds, shellCommands]
      | false =>
        obtain ⟨rfl, hnow⟩ := start_of_not_started r hs hlast
        refine ⟨macs, ?_⟩
        simp [hnow, shellCommands]
    · refine ⟨macs, ?_⟩
      have hother : ∀ cmd, c ≠ .system cmd := fun cmd hcmd => hc ⟨cmd, hcmd⟩
      rw [searchStarted_cons hother, List.map_singleton, shellCommands_other hother,
        List.append_nil]

theorem exists_of_groupJustStarted {past : List (Call × Answer)}
    (h : groupJustStarted past = true) :
    ∃ before e received cells name r₁ r₂ r₃, past.reverse = before ++ [e, (.print cells, r₁),
        (.setGroupName name, r₂), (.mark (.connectToDeviceReturned true), r₃)] ∧
      receivedBy e = some received ∧ groupStarted <+: received.drop prefixLen := by
  unfold groupJustStarted at h
  split at h
  · rename_i r₃ name r₂ cells r₁ e before
    obtain ⟨received, he, ht⟩ := receives_iff.mp h
    exact ⟨before.reverse, e, received, cells, name, r₁, r₂, r₃, by simp, he, ht⟩
  · exact Bool.noConfusion h

theorem exists_of_handshakeJustSucceeded {past : List (Call × Answer)}
    (h : handshakeJustSucceeded past = true) :
    ∃ before r, past.reverse = before ++ [(.mark (.ipExchangeReturned true), r)] := by
  unfold handshakeJustSucceeded at h
  split at h
  · exact ⟨_, _, List.reverse_cons⟩
  · exact Bool.noConfusion h

/-- A run whose calls are all in order follows the protocol. -/
theorem sessionProtocol_of_inOrder {p : Drv Int} {rs : List Answer}
    (h : ∀ i c, (p.issued rs)[i]? = some c → inOrder ((p.trace rs).take i).reverse c = true) :
    SessionProtocol (p.trace rs) (p.issued rs) := by
  refine ⟨?_, fun i cmd hcmd hne => ?_, fun i hi => ?_, fun i hi => ?_⟩
  · -- the call waited on is entered in the trace as if it were answered
    let waiting : List (Call × Answer) := (p.after rs).pending.toList.map (·, default)
    have hissued : (p.trace rs ++ waiting).map Prod.fst = p.issued rs := by
      cases hp : (p.after rs).pending <;> simp [issued, waiting, hp]
    have hin : ∀ i e, (p.trace rs ++ waiting)[i]? = some e →
        inOrder ((p.trace rs ++ waiting).take i).reverse e.1 = true := by
      intro i e he
      have hc : (p.issued rs)[i]? = some e.1 := by
        rw [← hissued, List.getElem?_map, he]
        rfl
      have hi : i ≤ (p.trace rs).length := by
        have hlt := (List.getElem?_eq_some_iff.mp hc).1
        cases hp : (p.after rs).pending <;> simp [issued, hp] at hlt <;> omega
      rw [List.take_append_of_le_length hi]
      exact h i e.1 hc
    obtain ⟨macs, hmacs⟩ := commands_alternate hin
    refine ⟨macs, ?_⟩
    rw [← hissued, hmacs]
    refine List.prefix_append_right_inj _ |>.mpr ?_
    split
    · exact List.prefix_refl _
    · exact List.nil_prefix
  · have horder := h i _ hcmd
    rw [inOrder_system] at horder
    split at horder
    · obtain ⟨e, rest, received, hpast, he, ht, rfl⟩ := exists_of_carriesRequest horder
      refine ⟨rest.reverse, e, received, ?_, he, ht, rfl, fun hnul => cStr_eq_self ?_⟩
      · simpa using congrArg List.reverse hpast
      · exact connectCommand_no_nul hnul
    · exact absurd (of_decide_eq_true horder) hne
  · obtain ⟨before, e, received, cells, name, r₁, r₂, r₃, hpast, he, ht⟩ :=
      exists_of_groupJustStarted (h i _ hi)
    exact ⟨before, e, received, cells, name, r₁, r₂, r₃, by simpa using hpast, he, ht⟩
  · obtain ⟨before, r, hpast⟩ := exists_of_handshakeJustSucceeded (h i _ hi)
    exact ⟨before, r, by simpa using hpast⟩

end SessionProtocolLemmas

/-- The session protocol of `main`, for every run in which `control_data` is
changed by `main` only and the event messages are whole. -/
theorem main_session_protocol (ip : IpExchange) (rs : List Answer)
    (hreads : readsControl none ((main ip).trace rs) = true)
    (hwhole : ∀ e ∈ (main ip).trace rs, ∀ b ∈ receivedBy e, WholeMessage b) :
    SessionProtocol ((main ip).trace rs) ((main ip).issued rs) :=
  sessionProtocol_of_inOrder fun _ _ hc =>
    (keeps_main ip).issued_allowed expected_live (admits_of_reads hreads hwhole) hc

/-- A driver that is attached, searches, and connects to the first device. -/
def sampleMainRun : List Answer :=
  [{}, { handle := some 7 }, {}, {}, { handle := some 7 }, {}, {}, {}, {}, {}, {},
    { handle := some 7 }, {}, { isSet := true },
    { offer := bytes "<3>P2P-GO-NEG-REQUEST 02:00:00:00:00:01" }, {}, { isSet := true },
    { offer := bytes "<3>P2P-GROUP-STARTED p2p-wlan0-0 GO" }, {}, {}, {}, {},
    {}, { ret := 3 }, {}, { ret := 5, offer := bytes "HELLO" }, {}, {}, {}, {}, {}, {}, {}, {}]

theorem sampleMainRun_protocol :
    SessionProtocol ((main .udp).trace sampleMainRun) ((main .udp).issued sampleMainRun) :=
  main_session_protocol .udp sampleMainRun (by decide +kernel) (by decide +kernel)

end P2pDriver
