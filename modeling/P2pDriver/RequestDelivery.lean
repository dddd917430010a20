import P2pDriver.CtrlRefinement
import P2pDriver.SessionProtocol

/-!
# From a request to a connection

A peer asks for a connection with a message to the control socket, and the driver answers
with a `p2p_connect`. Between the two are the kernel's queue, the library and two threads
that take messages. This module carries the order in which `main` makes its calls to the
process with its library, and follows the requests through it.

Results:
1. `requests_of_ordered`: the requests that the shell commands of `main` answer.
2. `ordered_run`: in every run `main` makes its calls in order.
3. `requests_answered`: the `p2p_connect` commands of the process answer requests that
   have arrived, in the order they have arrived, and no request twice.
-/

namespace P2pDriver

open Resumable Prog SessionProtocolLemmas CtrlRefinementLemmas

/-! ## 1. Requests and shell commands -/

/-- Each of some calls, the last one first, was in order when it was made. -/
def Ordered : List (Call × Answer) → Prop
  | [] => True
  | (c, _) :: past => inOrder past c = true ∧ Ordered past

/-- What the driver has received in some calls, the last one first. -/
def messagesIn (past : List (Call × Answer)) : List Bytes := past.reverse.filterMap receivedBy

/-- The calls before the last shell command. -/
def beforeCommand : List (Call × Answer) → List (Call × Answer)
  | [] => []
  | (.system _, _) :: past => past
  | _ :: past => beforeCommand past

/-- The shell commands in some calls, the last one first. -/
def commandsIn (past : List (Call × Answer)) : List Bytes :=
  shellCommands (past.reverse.map Prod.fst)

/-- `requests` are the requests that the commands of `past` answer: a `p2p_connect` each,
to the address it carries, with the search script before it. -/
def Answers (past : List (Call × Answer)) (requests : List Bytes) : Prop :=
  (∀ m ∈ requests, goNegRequest <+: m.drop prefixLen) ∧
    commandsIn past = rounds (requests.map macField) ++
      if searchStarted past then [cStr startP2pCommand] else []

namespace RequestDeliveryLemmas

variable {past : List (Call × Answer)} {c : Call} {r : Answer} {requests : List Bytes}

theorem messagesIn_cons (e : Call × Answer) :
    messagesIn (e :: past) = messagesIn past ++ (receivedBy e).toList := by
  rw [messagesIn, List.reverse_cons, List.filterMap_append]
  cases h : receivedBy e <;> simp [messagesIn, h]

theorem beforeCommand_cons (hc : ∀ cmd, c ≠ .system cmd) :
    beforeCommand ((c, r) :: past) = beforeCommand past := by
  cases c <;> first | rfl | exact absurd rfl (hc _)

theorem messages_before_sublist : (messagesIn (beforeCommand past)).Sublist (messagesIn past) := by
  induction past with
  | nil => exact List.Sublist.refl _
  | cons e past ih =>
    rw [messagesIn_cons]
    by_cases hc : ∃ cmd, e.1 = .system cmd
    · obtain ⟨c, r⟩ := e
      obtain ⟨cmd, rfl⟩ := hc
      exact List.sublist_append_left _ _
    · rw [show beforeCommand (e :: past) = beforeCommand past from
        beforeCommand_cons fun cmd h => hc ⟨cmd, h⟩]
      exact ih.trans (List.sublist_append_left _ _)

theorem commandsIn_cons (e : Call × Answer) :
    commandsIn (e :: past) = commandsIn past ++ shellCommands [e.1] := by
  simp [commandsIn, shellCommands_append]

/-- A call that is no shell command. -/
theorem answers_other (h : Answers past requests) (hc : ∀ cmd, c ≠ .system cmd) (r : Answer) :
    Answers ((c, r) :: past) requests := by
  refine ⟨h.1, ?_⟩
  rw [commandsIn_cons, shellCommands_other hc, List.append_nil, searchStarted_cons hc]
  exact h.2

/-- The search script. -/
theorem answers_start (h : Answers past requests) (hs : searchStarted past = false) (r : Answer) :
    Answers ((.system (cStr startP2pCommand), r) :: past) requests := by
  refine ⟨h.1, ?_⟩
  rw [commandsIn_cons, h.2, hs]
  simp [shellCommands, searchStarted]

/-- A `p2p_connect` answers the request that was received last. -/
theorem answers_connect {m : Bytes} (h : Answers past requests) (hs : searchStarted past = true)
    (hm : goNegRequest <+: m.drop prefixLen)
    (hnow : searchStarted ((.system (cStr (connectCommand (macField m))), r) :: past) = false) :
    Answers ((.system (cStr (connectCommand (macField m))), r) :: past) (requests ++ [m]) := by
  refine ⟨fun m' hm' => ?_, ?_⟩
  · rcases List.mem_append.mp hm' with hold | hnew
    · exact h.1 m' hold
    · exact List.mem_singleton.mp hnew ▸ hm
  · rw [commandsIn_cons, h.2, hs, hnow]
    simp [rounds, shellCommands]

end RequestDeliveryLemmas

open RequestDeliveryLemmas

/-- Calls in order answer requests that were received one after the other, each of them once. -/
theorem requests_of_ordered {past : List (Call × Answer)} (h : Ordered past) :
    ∃ requests, requests.Sublist (messagesIn (beforeCommand past)) ∧ Answers past requests := by
  induction past with
  | nil => exact ⟨[], List.Sublist.refl _, fun m hm => absurd hm List.not_mem_nil, rfl⟩
  | cons e past ih =>
    obtain ⟨c, r⟩ := e
    obtain ⟨horder, hpast⟩ := h
    obtain ⟨requests, hsub, hanswers⟩ := ih hpast
    by_cases hc : ∃ cmd, c = .system cmd
    · obtain ⟨cmd, rfl⟩ := hc
      cases hs : searchStarted past with
      | true =>
        obtain ⟨-, hnow⟩ := connect_of_started r hs horder
        rw [inOrder_system, if_pos hs] at horder
        obtain ⟨e, rest, m, rfl, hreceived, hm, rfl⟩ := exists_of_carriesRequest horder
        refine ⟨requests ++ [m], ?_, answers_connect hanswers hs hm hnow⟩
        -- the request was received after the last command
        have hcall : ∀ cmd, e.1 ≠ .system cmd := by
          rintro cmd hcmd
          obtain ⟨c, r⟩ := e
          obtain rfl : c = .system cmd := hcmd
          cases hreceived
        rw [show beforeCommand (e :: rest) = beforeCommand rest from beforeCommand_cons hcall]
          at hsub
        change (requests ++ [m]).Sublist (messagesIn (e :: rest))
        rw [messagesIn_cons, hreceived]
        exact (hsub.trans messages_before_sublist).append (List.Sublist.refl _)
      | false =>
        obtain ⟨rfl, -⟩ := start_of_not_started r hs horder
        exact ⟨requests, hsub.trans messages_before_sublist, answers_start hanswers hs r⟩
    · have hother : ∀ cmd, c ≠ .system cmd := fun cmd hcmd => hc ⟨cmd, hcmd⟩
      rw [beforeCommand_cons hother]
      exact ⟨requests, hsub, answers_other hanswers hother r⟩

/-! ## 2. Runs of the process -/

/-- The calls of `main` in a run, the last one first. -/
def mainPast (us : List WorldMove) : List (Call × Answer) :=
  System.follow (fun past c r => (c, r) :: past) .main [] us

/-- `main` makes its calls in order, and the other threads make none that matter to it. -/
structure InTurn (us : List WorldMove) (C : WorldState) : Prop where
  main : Stack.Calm (fun p => Keeps orderSpec (mainPast us) p fun _ _ => True) (C.threads .main)
  workers : ∀ t, t ≠ .main → Stack.Calm (Only Call.isWorker True) (C.threads t)
  control : controlOf (mainPast us) = C.store.shared.controlData
  ordered : Ordered (mainPast us)
  commands : shellCommands ((us.filterMap driverCall).map fun e => e.2.1) = commandsIn (mainPast us)
  messages : (messagesIn (mainPast us)).Sublist ((us.filterMap received).map (List.take messageCap))

namespace RequestDeliveryLemmas

variable {us : List WorldMove} {C C' : WorldState} {l : WorldMove} {t : Thread} {c : Call}
  {r : Answer}

theorem quiet_world : ∀ s x, world.delivers s x = false := fun _ _ => rfl

theorem mainPast_call : mainPast (us ++ [.call .main c r]) = (c, r) :: mainPast us :=
  System.follow_append ..

theorem mainPast_other (hl : ∀ c r, l ≠ .call .main c r) : mainPast (us ++ [l]) = mainPast us := by
  rw [mainPast, System.follow_append]
  cases l with
  | call t c r =>
    by_cases ht : t = .main
    · exact absurd (ht ▸ rfl) (hl c r)
    · exact if_neg ht
  | _ => rfl

/-- What `main` receives is among what the driver receives. -/
theorem received_of_receivedBy {m : Bytes} (h : receivedBy (c, r) = some m) :
    ∃ offer, received (.call t c r) = some offer ∧ m = offer.take messageCap := by
  cases c with
  | wpaCtrlRecv len =>
    simp only [receivedBy, delivered] at h
    split at h
    · cases h
    · rename_i hret
      exact ⟨r.offer, if_neg hret, (Option.some.inj h).symm⟩
  | _ => cases h

@[simp] theorem shellCommands_nil : shellCommands [] = [] := rfl

theorem shellCommands_worker (hc : c.isWorker = true) : shellCommands [c] = [] := by
  cases c <;> first | rfl | exact Bool.noConfusion hc

theorem shellCommands_ctrl (hc : c.isCtrl = true) : shellCommands [c] = [] := by
  cases c <;> first | rfl | exact Bool.noConfusion hc

/-- A read of `control_data` finds what `main` has stored last, and messages are whole. -/
theorem expected_of_step (h : InTurn us C) (hstep : world.step C (.call .main c r) = some C')
    (hwhole : ∀ m, received (.call .main c r) = some m → WholeMessage (m.take messageCap)) :
    Expected (mainPast us) c r := by
  obtain ⟨s, -, -, hans, -⟩ := System.step_call hstep
  refine ⟨?_, fun b hb => ?_⟩
  · rintro rfl
    exact (of_decide_eq_true (world_answers.mp hans).1).trans h.control.symm
  · obtain ⟨offer, hoffer, rfl⟩ := received_of_receivedBy hb
    exact hwhole offer hoffer

/-- A step of another thread, or of what surrounds the process. -/
theorem inTurn_other (h : InTurn us C) (hl : ∀ c r, l ≠ .call .main c r)
    (hworker : ∀ t c r, l = .call t c r → c.isWorker = true) (hstep : world.step C l = some C')
    (hmain : Stack.Calm (fun p => Keeps orderSpec (mainPast (us ++ [l])) p fun _ _ => True)
      (C'.threads .main))
    (hworkers : ∀ t, t ≠ .main → Stack.Calm (Only Call.isWorker True) (C'.threads t)) :
    InTurn (us ++ [l]) C' := by
  have hpast : mainPast (us ++ [l]) = mainPast us := mainPast_other hl
  refine ⟨hmain, hworkers, ?_, hpast ▸ h.ordered, ?_, ?_⟩
  · rw [hpast, h.control]
    cases l with
    | call t c r =>
      obtain ⟨_, -, -, -, -, rfl⟩ := System.step_call hstep
      refine (ProcessLemmas.effect_controlData ?_).symm
      rintro control rfl
      cases hworker _ _ _ rfl
    | interrupt t signum =>
      obtain ⟨_, -, -, -, rfl⟩ := System.step_interrupt hstep
      rfl
    | outside e =>
      obtain ⟨store, hstore, rfl⟩ := System.step_outside hstep
      obtain ⟨around, -, rfl⟩ := Option.map_eq_some_iff.mp hstore
      rfl
  · rw [hpast, ← h.commands, filterMap_concat, List.map_append, shellCommands_append]
    cases l with
    | call t c r =>
      have hnone := shellCommands_worker (hworker t c r rfl)
      cases hc : c.isCtrl <;> simp [driverCall, hc, hnone]
    | _ => exact List.append_nil _
  · rw [hpast, filterMap_concat, List.map_append]
    exact h.messages.trans (List.sublist_append_left _ _)

/-- A call of `main`. -/
theorem inTurn_main (h : InTurn us C) (hstep : world.step C (.call .main c r) = some C')
    (horder : inOrder (mainPast us) c = true)
    (hmain : Stack.Calm
      (fun p => Keeps orderSpec (mainPast (us ++ [.call .main c r])) p fun _ _ => True)
      (C'.threads .main))
    (hworkers : ∀ t, t ≠ .main → Stack.Calm (Only Call.isWorker True) (C'.threads t)) :
    InTurn (us ++ [.call .main c r]) C' := by
  obtain ⟨_, -, -, -, -, rfl⟩ := System.step_call hstep
  refine ⟨hmain, hworkers, ?_, mainPast_call ▸ ⟨horder, h.ordered⟩, ?_, ?_⟩
  · rw [mainPast_call]
    by_cases hc : ∃ control, c = .setControlData control
    · obtain ⟨control, rfl⟩ := hc
      rfl
    · have hother : ∀ control, c ≠ .setControlData control :=
        fun control hcontrol => hc ⟨control, hcontrol⟩
      rw [controlOf_cons hother, h.control]
      exact (ProcessLemmas.effect_controlData hother).symm
  · rw [mainPast_call, commandsIn_cons, ← h.commands, filterMap_concat, List.map_append,
      shellCommands_append]
    congr 1
    cases hc : c.isCtrl with
    | true => simp [driverCall, hc, shellCommands_ctrl hc]
    | false => simp [driverCall, hc]
  · rw [mainPast_call, messagesIn_cons, filterMap_concat, List.map_append]
    refine h.messages.append ?_
    cases hreceived : receivedBy (c, r) with
    | none => exact List.nil_sublist _
    | some m =>
      obtain ⟨offer, hoffer, rfl⟩ := received_of_receivedBy (t := .main) hreceived
      rw [hoffer]
      exact List.Sublist.refl _

theorem step_order {past past' : List (Call × Answer)} (h : orderSpec.step past c r = some past') :
    inOrder past c = true ∧ past' = (c, r) :: past := by
  simp only [orderSpec, historySpec] at h
  split at h
  · rename_i horder
    exact ⟨horder, (Option.some.inj h).symm⟩
  · cases h

theorem inTurn_step (h : InTurn us C) (hstep : world.step C l = some C')
    (hwhole : ∀ m, received l = some m → WholeMessage (m.take messageCap)) :
    InTurn (us ++ [l]) C' := by
  have hworkers : ∀ t, t ≠ .main → Stack.Calm (Only Call.isWorker True) (C'.threads t) ∧
      ∀ c r, l = .call t c r → c.isWorker = true := fun t ht =>
    System.only_step quiet_world (ProcessLemmas.only_threadBody t) (h.workers t ht) hstep
  have hspawns : ∀ u c r, l = .call u c r → u ≠ .main → world.spawns c = some .main →
      Keeps orderSpec (mainPast us) (world.text .main) fun _ _ => True := by
    intro u c r hl hu hspawn
    have hworker := (hworkers u hu).2 c r hl
    cases c <;> first | exact Bool.noConfusion hworker | cases hspawn
  have hexpected : ∀ c r, l = .call .main c r → Expected (mainPast us) c r := by
    rintro c r rfl
    exact expected_of_step h hstep hwhole
  obtain ⟨hmain, hcalls⟩ :=
    System.uninterrupted_step (fun _ _ _ _ hpast => (step_order hpast).2) quiet_world h.main
    hstep hspawns hexpected
  rw [mainPast, ← System.follow_append] at hmain
  by_cases hl : ∃ c r, l = .call .main c r
  · obtain ⟨c, r, rfl⟩ := hl
    obtain ⟨_, horder⟩ := hcalls c r rfl
    exact inTurn_main h hstep (step_order horder).1 hmain fun t ht => (hworkers t ht).1
  · refine inTurn_other h (fun c r hcall => hl ⟨c, r, hcall⟩) (fun t c r hcall => ?_) hstep hmain
      fun t ht => (hworkers t ht).1
    exact (hworkers t fun ht => hl ⟨c, r, ht ▸ hcall⟩).2 c r hcall

end RequestDeliveryLemmas

theorem inTurn_start : InTurn [] worldStart where
  main s hs := by
    obtain rfl := Option.some.inj hs
    exact ⟨rfl, keeps_bind ((keeps_main .udp).mono fun _ _ _ => keeps_ret trivial)⟩
  workers t ht s hs := by
    cases t with
    | main => exact absurd rfl ht
    | commandHandler => cases hs
    | connectionListener => cases hs
  control := rfl
  ordered := trivial
  commands := rfl
  messages := List.Sublist.refl _

/-- In every run in which the messages are whole, `main` makes its calls in order. -/
theorem ordered_run {us : List WorldMove} {C : WorldState} (hrun : world.run worldStart us = some C)
    (hwhole : ∀ m ∈ us.filterMap received, WholeMessage (m.take messageCap)) : InTurn us C := by
  refine System.run_induction hrun (P := fun us C =>
    (∀ m ∈ us.filterMap received, WholeMessage (m.take messageCap)) → InTurn us C)
    (fun _ => inTurn_start) ?_ hwhole
  intro us l C₁ C₂ ih hstep hwhole
  rw [filterMap_concat] at hwhole
  refine inTurn_step (ih fun m hm => hwhole m (List.mem_append_left _ hm)) hstep fun m hm => ?_
  exact hwhole m (List.mem_append_right _ (by simp [hm]))

/-! ## 3. Runs of the process with its library -/

/-- In every run of the process with its library, whatever the threads do and when, the shell
commands are the search script and `p2p_connect` in turn. Each `p2p_connect` answers a
request that has arrived at the control socket, with the address it carries, in the order
the requests have arrived, and no request is answered twice. -/
theorem requests_answered {ls : List HostMove} {D : HostState}
    (hrun : host.run hostStart ls = some D)
    (hwhole : ∀ m ∈ ls.filterMap arrival, WholeMessage (m.take messageCap)) :
    ∃ requests : List Bytes, requests.Sublist ((ls.filterMap arrival).map (List.take messageCap)) ∧
      (∀ m ∈ requests, goNegRequest <+: m.drop prefixLen) ∧
      ∃ started : Bool, shellCommands ((ls.filterMap hostCall).map fun e => e.2.1) =
        rounds (requests.map macField) ++ if started then [cStr startP2pCommand] else [] := by
  obtain ⟨us, C, tr, -, -, h⟩ := host_links.run linked_start embeds_start hrun
  have harrived : (us.filterMap received).Sublist (ls.filterMap arrival) := by
    rw [h.received, h.arrived]
    exact (List.sublist_append_right _ _).trans (List.sublist_append_left _ _)
  have hturn := ordered_run h.run fun m hm => hwhole m (harrived.mem hm)
  obtain ⟨requests, hsub, hrequests, hcommands⟩ := requests_of_ordered hturn.ordered
  refine ⟨requests, ?_, hrequests, searchStarted (mainPast us), ?_⟩
  · have hmain : requests.Sublist ((us.filterMap received).map (List.take messageCap)) :=
      (hsub.trans messages_before_sublist).trans hturn.messages
    exact hmain.trans (harrived.map _)
  · rw [← h.calls, hturn.commands, hcommands]

/-- `main` takes the request of a device, and connects to it. -/
def sampleAnswered : List HostMove :=
  sampleHostRun ++ [sampleHostRecv, .call .main (.drv (connectCall (bytes "02:00:00:00:00:01"))) {}]

theorem sampleAnswered_answers : ∃ requests : List Bytes,
    requests.Sublist ((sampleAnswered.filterMap arrival).map (List.take messageCap)) ∧
      (∀ m ∈ requests, goNegRequest <+: m.drop prefixLen) ∧
      ∃ started : Bool, shellCommands ((sampleAnswered.filterMap hostCall).map fun e => e.2.1) =
        rounds (requests.map macField) ++ if started then [cStr startP2pCommand] else [] := by
  have hrun : (host.run hostStart sampleAnswered).isSome = true := by decide +kernel
  obtain ⟨D, hD⟩ := Option.isSome_iff_exists.mp hrun
  exact requests_answered hD (by decide +kernel)

end P2pDriver
