import P2pDriver.EventLoop

/-!
# What reaches the shell

`connect_loop` and `connect_to_device` hand two kinds of strings to `system`:
the search script, and a `p2p_connect` command with 17 bytes of the buffer in
it. This module says when those bytes are a received MAC address.

Results:
1. `react_system`: what a message can put on the command line.
2. `connectLoop_shellSafe_iff`: the strings of a run are safe exactly when every
   negotiation request it reacts to carries its address.
3. `shellSafe_truncated_request`: a request cut after its type puts bytes on the
   command line that were not received.
-/

namespace P2pDriver

open Resumable Prog EventLoopLemmas

/-! ## 1. Safe commands -/

/-- A string that may reach the shell after the message `received`. -/
def SafeCommand (received command : Bytes) : Prop :=
  command = sudoBash ++ scriptStartP2pSearch ∨
    ∃ mac, isMac mac = true ∧ mac = macField received ∧
      command = wpaCliPrefix ++ p2pConnect ++ mac ++ pbc

/-- A call that neither receives a message nor runs a command. -/
def Call.quiet : Call → Bool
  | .wpaCtrlRecv _ | .system _ => false
  | _ => true

/-- The message received last in a run. -/
def lastReceived (tr : List (Call × Answer)) : Bytes :=
  tr.foldl (fun last e => (receivedBy e).getD last) []

/-- Every string the run hands to `system` is safe. -/
def ShellSafe (p : Drv Unit) (rs : List Answer) : Prop :=
  ∀ rs' cmd, rs' <+: rs → (p.after rs').pending = some (.system cmd) →
    SafeCommand (lastReceived (p.trace rs')) cmd

/-- Every message that `connect_loop` takes for a negotiation request contains a
whole address field, with a MAC address in it. -/
def RequestsCarryMac (rs : List Answer) : Prop :=
  ∀ rs' r m, rs' ++ [r] <+: rs → connectState rs' = some ⟨.searching, .recv, []⟩ →
    delivered r = some m → isType m goNegRequest = true →
    prefixLen + goNegRequest.length + macAddressLen ≤ m.bytes.length ∧ isMac (macWindow m) = true

/-! ## 2. What a message can put on the command line -/

namespace ShellSafetyLemmas

theorem lastReceived_append (tr : List (Call × Answer)) (e : Call × Answer) :
    lastReceived (tr ++ [e]) = (receivedBy e).getD (lastReceived tr) := by
  rw [lastReceived, List.foldl_append]
  rfl

end ShellSafetyLemmas

open ShellSafetyLemmas

/-- What a message makes the driver do: quiet calls, the search script, or the
command for its address window when `connect_loop` takes it for a request. -/
theorem react_system {φ : Phase} {m : Message} {c : Call} (h : c ∈ (react φ m).owed) :
    c.quiet = true ∨ c = startCall ∨
      φ = .searching ∧ isType m goNegRequest = true ∧ c = connectCall (macWindow m) := by
  cases φ with
  | searching =>
    cases ht : isType m goNegRequest with
    | false => simp [react, ht, atPoll] at h
    | true =>
      have hc : c = connectCall (macWindow m) := by simpa [react, ht] using h
      exact .inr (.inr ⟨rfl, rfl, hc⟩)
  | negotiating =>
    simp only [react] at h
    split at h
    · split at h
      · simp only [List.mem_cons, List.not_mem_nil, or_false] at h
        rcases h with rfl | rfl | rfl <;> exact .inl rfl
      · obtain rfl := List.mem_singleton.mp h
        exact .inl rfl
    · split at h
      · simp only [List.mem_cons, List.not_mem_nil, or_false] at h
        rcases h with rfl | rfl | rfl
        · exact .inl rfl
        · exact .inl rfl
        · exact .inr (.inl rfl)
      · obtain rfl := List.mem_singleton.mp h
        exact .inl rfl
  | monitoring =>
    simp only [react] at h
    split at h
    · simp only [List.mem_cons, List.not_mem_nil, or_false] at h
      rcases h with rfl | rfl | rfl <;> exact .inl rfl
    · cases h
  | established => cases h
  | ended => cases h
  | faulted => cases h

/-! ## 3. The strings of a run -/

namespace ShellSafetyLemmas

theorem receivedBy_quiet {c : Call} (h : c.quiet = true) (r : Answer) :
    receivedBy (c, r) = none := by
  cases c with
  | wpaCtrlRecv n => exact nomatch h
  | _ => rfl

/-- Every string still to be handed to `system` is safe after the message
received last, and no message is received before. -/
def OwesSafe (last : Bytes) (s : LoopState) : Prop :=
  ∀ c ∈ s.owed, c.quiet = true ∨ ∃ cmd, c = .system cmd ∧ SafeCommand last cmd

theorem owesSafe_nil (last : Bytes) (φ : Phase) (st : Stage) : OwesSafe last ⟨φ, st, []⟩ :=
  fun _ hc => absurd hc List.not_mem_nil

theorem startCall_safe (last : Bytes) :
    ∃ cmd, startCall = .system cmd ∧ SafeCommand last cmd :=
  ⟨_, startCall_eq, .inl rfl⟩

theorem idle_eq (φ : Phase) : ∃ st, idle φ = ⟨φ, st, []⟩ := by
  cases φ <;> exact ⟨_, rfl⟩

/-- A request that carries its address leads to a safe command. -/
theorem safeCommand_of_mac {m : Message}
    (hlen : prefixLen + goNegRequest.length + macAddressLen ≤ m.bytes.length)
    (hmac : isMac (macWindow m) = true) :
    SafeCommand m.bytes (cStr (connectCommand (macWindow m))) := by
  refine .inr ⟨macWindow m, hmac, macWindow_eq_received hlen, ?_⟩
  rw [cStr_eq_self (connectCommand_no_nul (isMac_no_nul hmac))]
  rfl

/-- And no other request does. -/
theorem mac_of_safeCommand {m : Message}
    (h : SafeCommand m.bytes (cStr (connectCommand (macWindow m)))) :
    prefixLen + goNegRequest.length + macAddressLen ≤ m.bytes.length ∧
      isMac (macWindow m) = true := by
  rcases h with hstart | ⟨mac, hmac, hfield, -⟩
  · exact absurd hstart (connectCall_ne_start _)
  · have hlen := isMac_length hmac
    rw [hfield, macField, List.length_take, List.length_drop] at hlen
    have hle : prefixLen + goNegRequest.length + macAddressLen ≤ m.bytes.length := by
      simp only [macAddressLen] at hlen ⊢
      omega
    refine ⟨hle, ?_⟩
    rw [macWindow_eq_received hle]
    rwa [hfield] at hmac

/-- One answered call. -/
theorem owesSafe_next {last : Bytes} {s : LoopState} {c : Call} {r : Answer}
    (hc : eventLoop.expects s = some c) (h : OwesSafe last s)
    (hreq : s = ⟨.searching, .recv, []⟩ → ∀ m, delivered r = some m →
      isType m goNegRequest = true → SafeCommand m.bytes (cStr (connectCommand (macWindow m)))) :
    OwesSafe ((receivedBy (c, r)).getD last) (eventLoop.next s r) := by
  obtain ⟨φ, st, owed⟩ := s
  cases owed with
  | cons c' cs =>
    obtain rfl : c' = c := Option.some.inj hc
    have hrecv : receivedBy (c', r) = none := by
      rcases h c' List.mem_cons_self with hquiet | ⟨cmd, rfl, -⟩
      · exact receivedBy_quiet hquiet r
      · rfl
    rw [hrecv]
    exact fun c'' hc'' => h c'' (List.mem_cons_of_mem _ hc'')
  | nil =>
    cases st with
    | poll =>
      change OwesSafe _ (if r.isSet then ⟨φ, .recv, []⟩ else idle φ)
      obtain ⟨st, hidle⟩ := idle_eq φ
      rw [hidle]
      split <;> exact owesSafe_nil _ _ _
    | check =>
      change OwesSafe _
        (if r.isSet then atPoll φ else ⟨.ended, .poll, [.setConnectionIsValid false]⟩)
      split
      · exact owesSafe_nil _ _ _
      · intro c'' hc''
        obtain rfl := List.mem_singleton.mp hc''
        exact .inl rfl
    | recv =>
      rw [next_recv]
      cases hd : delivered r with
      | none =>
        obtain ⟨st, hidle⟩ := idle_eq φ
        rw [hidle]
        exact owesSafe_nil _ _ _
      | some m =>
        intro c'' hc''
        rcases react_system hc'' with hquiet | rfl | ⟨rfl, ht, rfl⟩
        · exact .inl hquiet
        · exact .inr (startCall_safe _)
        · obtain rfl : Call.wpaCtrlRecv messageCap = c := Option.some.inj hc
          refine .inr ⟨_, rfl, ?_⟩
          simpa only [receivedBy, hd, Option.map_some, Option.getD_some] using hreq rfl m hd ht

/-- The invariant of a run whose requests carry their address. -/
theorem owesSafe_run {control : Answer} (hcontrol : control.handle ≠ none) {rs : List Answer}
    (h : RequestsCarryMac (control :: rs)) :
    OwesSafe (lastReceived (eventLoop.trace connectStart rs))
      (eventLoop.after connectStart rs) := by
  refine eventLoop.run_induction rs (P := fun tr s => OwesSafe (lastReceived tr) s) ?_ ?_
  · intro c hc
    obtain rfl := List.mem_singleton.mp hc
    exact .inr (startCall_safe _)
  · intro rs' r c hpre hexp hinv
    rw [lastReceived_append]
    refine owesSafe_next hexp hinv fun hs m hd ht => ?_
    have hstate : connectState (control :: rs') = some ⟨.searching, .recv, []⟩ := by
      rw [connectState, if_neg hcontrol, hs]
    obtain ⟨hlen, hmac⟩ :=
      h (control :: rs') r m (List.cons_prefix_cons.mpr ⟨rfl, hpre⟩) hstate hd ht
    exact safeCommand_of_mac hlen hmac

theorem requestsCarryMac_mono {rs rs' : List Answer} (hpre : rs' <+: rs)
    (h : RequestsCarryMac rs) : RequestsCarryMac rs' :=
  fun rs'' r m hpre' => h rs'' r m (hpre'.trans hpre)

/-- Where the run hands the address of a request to `system`. -/
theorem connectLoop_after_request {rs : List Answer} {r : Answer} {m : Message}
    (hs : connectState rs = some ⟨.searching, .recv, []⟩) (hd : delivered r = some m)
    (ht : isType m goNegRequest = true) :
    (connectLoop.after (rs ++ [r])).pending = some (connectCall (macWindow m)) ∧
      lastReceived (connectLoop.trace (rs ++ [r])) = m.bytes := by
  cases rs with
  | nil => exact nomatch hs
  | cons control rs =>
    by_cases hcontrol : control.handle = none
    · rw [connectState, if_pos hcontrol] at hs
      exact nomatch hs
    · rw [connectState, if_neg hcontrol] at hs
      have hafter := Option.some.inj hs
      have hexp : eventLoop.expects (eventLoop.after connectStart rs) =
          some (.wpaCtrlRecv messageCap) := by
        rw [hafter]
        rfl
      have hnext : eventLoop.next ⟨.searching, .recv, []⟩ r =
          ⟨.negotiating, .poll, [connectCall (macWindow m)]⟩ := by
        rw [next_recv, hd]
        simp only [react, ht, if_true]
      rw [List.cons_append, connectLoop_pending hcontrol, connectLoop_trace hcontrol,
        eventLoop.after_append, eventLoop.trace_append, eventLoop.after_cons hexp,
        eventLoop.trace_cons hexp, hafter, hnext, ← List.cons_append]
      refine ⟨rfl, ?_⟩
      rw [show eventLoop.trace ⟨.negotiating, .poll, [connectCall (macWindow m)]⟩ [] = [] from rfl,
        lastReceived_append]
      simp only [receivedBy, hd, Option.map_some, Option.getD_some]

theorem requestsCarryMac_of_shellSafe {rs : List Answer} (h : ShellSafe connectLoop rs) :
    RequestsCarryMac rs := by
  intro rs' r m hpre hs hd ht
  obtain ⟨hpend, hlast⟩ := connectLoop_after_request hs hd ht
  have hsafe := h _ _ hpre hpend
  rw [hlast] at hsafe
  exact mac_of_safeCommand hsafe

theorem shellSafe_of_requestsCarryMac {rs : List Answer} (h : RequestsCarryMac rs) :
    ShellSafe connectLoop rs := by
  intro rs' cmd hpre hpend
  cases rs' with
  | nil => exact nomatch hpend
  | cons control rs' =>
    by_cases hcontrol : control.handle = none
    · rw [after_cons (p := connectLoop) rfl] at hpend
      rw [show connectLoop.resume control = .ret () from if_pos hcontrol,
        after_of_pending_none rfl] at hpend
      exact nomatch hpend
    · have hinv := owesSafe_run hcontrol (requestsCarryMac_mono hpre h)
      rw [connectLoop_pending hcontrol] at hpend
      -- the string waited on is the next call owed
      obtain ⟨cs, howed⟩ : ∃ cs, (eventLoop.after connectStart rs').owed = .system cmd :: cs := by
        revert hpend
        generalize eventLoop.after connectStart rs' = s
        obtain ⟨φ, st, owed⟩ := s
        intro hpend
        cases owed with
        | cons c cs => exact ⟨cs, by rw [Option.some.inj hpend]⟩
        | nil => cases φ <;> cases st <;> exact nomatch hpend
      rw [connectLoop_trace hcontrol]
      rcases hinv (.system cmd) (howed ▸ List.mem_cons_self) with hquiet | ⟨cmd', hcmd, hsafe⟩
      · exact nomatch hquiet
      · obtain rfl := Call.system.inj hcmd
        exact hsafe

end ShellSafetyLemmas

/-- Every string of a run of `connect_loop` that reaches the shell is safe
exactly when every request the loop reacts to carries its address. -/
theorem connectLoop_shellSafe_iff (rs : List Answer) :
    ShellSafe connectLoop rs ↔ RequestsCarryMac rs :=
  ⟨requestsCarryMac_of_shellSafe, shellSafe_of_requestsCarryMac⟩

/-- A run that receives a request cut after its type into a buffer that holds
`;reboot;#` from an earlier datagram. -/
def truncatedRequest : List Answer :=
  [{ handle := some 1 }, {}, { isSet := true },
    { offer := bytes "<3>P2P-GO-NEG-REQUEST ",
      stale := bytes "<3>P2P-DEVICE-LOST p2p;reboot;#         " }]

/-- The command line then holds bytes that were not received. -/
theorem shellSafe_truncated_request : ¬ ∀ rs, ShellSafe connectLoop rs := by
  intro h
  have hreq := requestsCarryMac_of_shellSafe (h truncatedRequest)
  have hlen := (hreq (truncatedRequest.take 3) _ _ (by exact List.prefix_append _ _) rfl rfl rfl).1
  exact absurd hlen (by decide)

end P2pDriver
