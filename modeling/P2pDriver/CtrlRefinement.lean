import P2pDriver.CtrlProcess
import P2pDriver.CtrlRequest
import P2pDriver.CtrlLedger
import P2pDriver.Library.LinkedThreads

/-!
# The driver and its library refine the driver

Every run of the process with the control interface library is a run of the process
whose calls of the library are single steps. A function takes effect at its last call,
and the messages that wait when the driver has attached are the first it may receive.

Results:
1. `host_links`: what holds of the two processes at every step.
2. `ctrl_refines`: the driver makes the same calls, apart from the library, gets the same
   answers, and receives the same messages.
3. `received_in_order`: between the socket and the driver no message is lost, doubled or
   overtaken, but for those that the library takes while it attaches.
4. `recv_finds_message`: where a thread is about to receive a message, one waits.
-/

namespace P2pDriver

open Resumable Prog HandleLifecycleLemmas RecoveryLemmas CtrlProcessLemmas

/-! ## 1. What the two processes share -/

/-- The state of the process without the library: the books of the handles are `b`, and
`events` are the messages it has been sent. -/
def Host.world (h : Host) (b : Books Handle) (events : List Bytes) : World :=
  ⟨{ h.ctrl.shared with handles := b }, { h.around with events := events }⟩

/-- The messages left after a call. -/
def eventsAfter (events : List Bytes) : Call → Answer → List Bytes
  | .wpaCtrlRecv _, r => if r.ret < 0 then events else events.tail
  | _, _ => events

namespace CtrlRefinementLemmas

variable (es : List Bytes) {h h' : Host} {b : Books Handle} {c : Call} {r : SysAnswer}

/-- A call of the driver itself gets the same answers. -/
theorem answers_drv (hc : c.isCtrl = false) (hans : host.answers h (.drv c) r = true) :
    world.answers (h.world b es) c r.toAnswer = true := by
  obtain ⟨hshared, haround⟩ := Bool.and_eq_true_iff.mp hans
  refine world_answers.mpr ⟨?_, ?_⟩
  · cases c <;> first | exact hshared | exact Bool.noConfusion hc
  · cases c <;> first | exact haround | exact Bool.noConfusion hc

/-- A call of the driver itself leaves the messages alone. -/
theorem around_effect (hc : c.isCtrl = false) (w : Surroundings) (r : Answer) :
    ({ w with events := es } : Surroundings).effect c r = { w.effect c r with events := es } := by
  cases c with
  | system command =>
    simp only [Surroundings.effect]
    split <;> rfl
  | mark m =>
    cases m with
    | connectToDeviceReturned connected => cases connected <;> rfl
    | _ => rfl
  | _ => first | rfl | exact Bool.noConfusion hc

/-- And has the same effect. -/
theorem effect_drv (hc : c.isCtrl = false) :
    ∃ b', world.effect (h.world b es) c r.toAnswer = (host.effect h (.drv c) r).world b' es := by
  refine ⟨((h.world b es).shared.effect c r.toAnswer).handles, ?_⟩
  have hshared : (h.world b es).shared.effect c r.toAnswer =
      { h.ctrl.shared.effect c r.toAnswer with
        handles := ((h.world b es).shared.effect c r.toAnswer).handles } := by
    cases c <;> rfl
  have haround : (h.world b es).around.effect c r.toAnswer =
      { h.around.effect c r.toAnswer with events := es } := around_effect es hc _ _
  exact congrArg₂ World.mk hshared haround

/-- A function of the library takes a message, or none. -/
theorem effect_ctrl (hc : c.isCtrl = true) (hshared : h'.ctrl.shared = h.ctrl.shared)
    (haround : h'.around = h.around) (r : Answer) :
    ∃ b', world.effect (h.world b es) c r = h'.world b' (eventsAfter es c r) := by
  refine ⟨((h.world b es).shared.effect c r).handles, ?_⟩
  have hstore : (h.world b es).shared.effect c r =
      { h'.ctrl.shared with handles := ((h.world b es).shared.effect c r).handles } := by
    rw [hshared]
    cases c <;> first | rfl | exact Bool.noConfusion hc
  have hevents : (h.world b es).around.effect c r =
      { h'.around with events := eventsAfter es c r } := by
    rw [haround]
    cases c with
    | wpaCtrlRecv len =>
      simp only [Surroundings.effect, eventsAfter]
      split <;> rfl
    | _ => first | rfl | exact Bool.noConfusion hc
  exact congrArg₂ World.mk hstore hevents

section Outside

variable {w w' : Surroundings} {e : Outside}

/-- What happens outside, apart from messages, leaves these alone. -/
theorem events_of_outside (he : ∀ m, e ≠ .event m) (h : w.outside e = some w') :
    w'.events = w.events ∧ w'.joined = w.joined := by
  cases e with
  | event m => exact absurd rfl (he m)
  | _ =>
    simp only [Surroundings.outside] at h
    split at h <;> first | (obtain rfl := Option.some.inj h; exact ⟨rfl, rfl⟩) | cases h

/-- Until a peer has joined it does not depend on them. -/
theorem outside_before (he : ∀ m, e ≠ .event m) (hjoined : w.joined = false)
    (h : w.outside e = some w') :
    ({ w with events := es } : Surroundings).outside e = some { w' with events := es } := by
  cases e with
  | event m => exact absurd rfl (he m)
  | leave =>
    simp only [Surroundings.outside, hjoined, Bool.false_and] at h
    exact nomatch h
  | _ =>
    simp only [Surroundings.outside] at h ⊢
    split at h <;> first | (obtain rfl := Option.some.inj h; simp only [*]; rfl) | cases h

end Outside

/-- Messages that are sent one after the other. -/
theorem run_events (C : WorldState) (msgs : List Bytes) :
    world.run C ((msgs.map Outside.event).map .outside) =
      some ⟨⟨C.store.shared, { C.store.around with events := C.store.around.events ++ msgs }⟩,
        C.threads⟩ := by
  induction msgs generalizing C with
  | nil => simp [System.run]
  | cons m msgs ih =>
    refine (ih ⟨⟨C.store.shared,
      { C.store.around with events := C.store.around.events ++ [m] }⟩, C.threads⟩).trans ?_
    simp

end CtrlRefinementLemmas

/-! ## 2. The functions of the library, call by call -/

/-- The functions the driver polls with. -/
def Call.isPoll : Call → Bool
  | .wpaCtrlPending | .wpaCtrlRecv _ => true
  | _ => false

/-- The call a function that polls makes on the socket, and what it makes of the answer. -/
def pollCall (ctrl : WpaCtrl) : Call → SysCall
  | .wpaCtrlRecv len => .recv ctrl.s len
  | _ => .select ctrl.s 0

def pollAnswer (r : SysAnswer) : Call → Answer
  | .wpaCtrlRecv _ => r.toAnswer
  | _ => { isSet := r.isSet }

/-- A message taken into a buffer of `len` bytes. -/
def Exchange.into (len : Nat) : Exchange → Option Bytes
  | .took len' message => if len' = len then some message else none
  | _ => none

def takenInto (len : Nat) (e : SysCall × SysAnswer) : Option Bytes :=
  (exchange e).bind (Exchange.into len)

/-- The calls of the library while the driver attaches. -/
def SysCall.isSetup : SysCall → Bool
  | .drv _ => false
  | .recv _ len => len = attachCap
  | _ => true

namespace CtrlRefinementLemmas

variable {c : Call} {c' : SysCall} {r' : SysAnswer} {r : Answer} {tr : List (SysCall × SysAnswer)}
  {rs : List SysAnswer}

theorem text_drv (hc : c.isCtrl = false) :
    ctrlIface.text c = .call (.drv c) fun r' => .ret r'.toAnswer := by
  cases c <;> first | rfl | exact Bool.noConfusion hc

theorem trace_drv (hc : c.isCtrl = false) (htr : (ctrlIface.text c).trace rs = tr ++ [(c', r')]) :
    tr = [] ∧ c' = .drv c ∧ (ctrlIface.text c).after rs = .ret r'.toAnswer := by
  rw [text_drv hc] at htr ⊢
  cases rs with
  | nil => simp at htr
  | cons r₀ rs =>
    rw [trace_cons rfl, resume_call, trace_of_pending_none rfl] at htr
    obtain ⟨rfl, hlast⟩ := List.append_inj' (show [] ++ [_] = tr ++ [_] from htr) rfl
    obtain ⟨rfl, rfl⟩ := Prod.mk.inj (List.singleton_injective hlast)
    rw [after_cons rfl, resume_call, after_of_pending_none rfl]
    exact ⟨rfl, rfl, rfl⟩

theorem text_poll (hc : c.isPoll = true) : ctrlIface.text c =
    .call .load
      (onControl fun ctrl => .call (pollCall ctrl c) fun r' => .ret (pollAnswer r' c)) := by
  cases c <;> first | rfl | exact Bool.noConfusion hc

/-- A function that polls reads `control_data`, makes one call on the socket and returns. -/
theorem trace_poll (hc : c.isPoll = true) (htr : (ctrlIface.text c).trace rs = tr ++ [(c', r')]) :
    (tr = [] ∧ c' = .load ∧ ∀ r, (ctrlIface.text c).after rs ≠ .ret r) ∨
      ∃ load ctrl, tr = [(.load, load)] ∧ load.ctrl = some ctrl ∧ c' = pollCall ctrl c ∧
        (ctrlIface.text c).after rs = .ret (pollAnswer r' c) := by
  rw [text_poll hc] at htr ⊢
  cases rs with
  | nil => simp at htr
  | cons load rs =>
    rw [trace_cons rfl, resume_call, onControl] at htr
    rw [after_cons rfl, resume_call, onControl]
    cases hload : load.ctrl with
    | none =>
      rw [hload] at htr
      rw [trace_of_pending_none rfl] at htr
      obtain ⟨rfl, hlast⟩ := List.append_inj' (show [] ++ [_] = tr ++ [_] from htr) rfl
      obtain ⟨rfl, rfl⟩ := Prod.mk.inj (List.singleton_injective hlast)
      refine .inl ⟨rfl, rfl, fun r => ?_⟩
      rw [after_of_pending_none rfl]
      intro hret
      cases hret
    | some ctrl =>
      rw [hload] at htr
      cases rs with
      | nil =>
        rw [trace_nil] at htr
        obtain ⟨rfl, hlast⟩ := List.append_inj' (show [] ++ [_] = tr ++ [_] from htr) rfl
        obtain ⟨rfl, rfl⟩ := Prod.mk.inj (List.singleton_injective hlast)
        exact .inl ⟨rfl, rfl, fun r hret => by cases hret⟩
      | cons r₁ rs =>
        rw [trace_cons rfl, resume_call, trace_of_pending_none rfl] at htr
        obtain ⟨rfl, hlast⟩ := List.append_inj' (show [_] ++ [_] = tr ++ [_] from htr) rfl
        obtain ⟨rfl, rfl⟩ := Prod.mk.inj (List.singleton_injective hlast)
        rw [after_cons rfl, resume_call, after_of_pending_none rfl]
        exact .inr ⟨load, ctrl, rfl, hload, rfl, rfl⟩

theorem only_onControl {P : SysCall → Bool} {f : WpaCtrl → Sys Answer}
    (h : ∀ ctrl, Only P True (f ctrl)) (control : SysAnswer) :
    Only P True (onControl f control) := by
  unfold onControl
  cases control.ctrl with
  | none => exact keeps_fault trivial
  | some ctrl => exact h ctrl

theorem only_text_setup (hc : c.isCtrl = true) (hpoll : c.isPoll = false) :
    Only SysCall.isSetup True (ctrlIface.text c) := by
  have hholding : ∀ c' : SysCall, c'.isHolding = true → c'.isSetup = true := fun c' h => by
    cases c' <;> first | rfl | exact Bool.noConfusion h
  have hrequest : ∀ fd, ∀ c' : SysCall, c'.isRequest fd attachCap = true → c'.isSetup = true :=
      fun fd c' h => by
    cases c' with
    | recv fd' len => exact (Bool.and_eq_true_iff.mp h).2
    | _ => first | rfl | exact Bool.noConfusion h
  have hattach : ∀ ctrl attach, Only SysCall.isSetup True (wpaCtrlAttachHelper ctrl attach) :=
    fun ctrl => CtrlIfaceLemmas.only_wpaCtrlAttachHelper (hrequest ctrl.s)
  cases c with
  | wpaCtrlOpen path =>
    rw [text_wpaCtrlOpen]
    refine only_bind (only_call rfl fun allocated => ?_) fun _ => only_ret _
    simp only [ret_bind]
    split
    · exact only_ret _
    · exact CtrlIfaceLemmas.only_open2With hholding _ _ _
  | wpaCtrlAttach =>
    exact only_call rfl
      (only_onControl fun ctrl => only_bind (hattach ctrl true) fun _ => only_ret _)
  | wpaCtrlDetach =>
    exact only_call rfl
      (only_onControl fun ctrl => only_bind (hattach ctrl false) fun _ => only_ret _)
  | wpaCtrlClose =>
    refine only_call rfl fun control => ?_
    simp only [ctrlIface]
    split
    · exact only_ret _
    · exact only_onControl
        (fun ctrl => only_bind (CtrlIfaceLemmas.only_wpaCtrlClose hholding) fun _ =>
        only_ret _) control
  | _ => first | exact Bool.noConfusion hc | exact Bool.noConfusion hpoll

theorem takenInto_eq_none {len : Nat} {e : SysCall × SysAnswer}
    (h : ∀ fd len', e.1 ≠ .recv fd len') :
    takenInto len e = none := by
  obtain ⟨c', r'⟩ := e
  cases c' with
  | recv fd len' => exact absurd rfl (h fd len')
  | send fd cmd =>
    simp only [takenInto, exchange]
    split <;> rfl
  | _ => rfl

/-- Opening and closing take no message. -/
theorem taken_of_holding (hc : (∃ path, c = .wpaCtrlOpen path) ∨ c = .wpaCtrlClose) (len : Nat) :
    ((ctrlIface.text c).trace rs).filterMap (takenInto len) = [] := by
  let P : SysCall → Bool := fun c' => c'.isHolding || c' == .load
  have hholding : ∀ c' : SysCall, c'.isHolding = true → P c' = true := fun c' h => by simp [P, h]
  have honly : Only P True (ctrlIface.text c) := by
    rcases hc with ⟨path, rfl⟩ | rfl
    · rw [text_wpaCtrlOpen]
      refine only_bind (only_call rfl fun allocated => ?_) fun _ => only_ret _
      simp only [ret_bind]
      split
      · exact only_ret _
      · exact CtrlIfaceLemmas.only_open2With hholding _ _ _
    · refine only_call rfl fun control => ?_
      simp only [ctrlIface]
      split
      · exact only_ret _
      · exact only_onControl
          (fun ctrl => only_bind (CtrlIfaceLemmas.only_wpaCtrlClose hholding) fun _ =>
          only_ret _) control
  rw [List.filterMap_eq_nil_iff]
  intro e he
  refine takenInto_eq_none fun fd len' hrecv => ?_
  have hP := honly.of_mem_trace he
  rw [hrecv] at hP
  exact Bool.noConfusion hP

/-- What `wpa_ctrl_attach` has taken when it returns. -/
theorem taken_of_attach (hret : (ctrlIface.text .wpaCtrlAttach).after rs = .ret r) :
    Attempted r.ret
      (((ctrlIface.text .wpaCtrlAttach).trace rs).filterMap (takenInto attachCap)) := by
  cases rs with
  | nil => exact absurd hret nofun
  | cons load rs =>
    have htext : (ctrlIface.text .wpaCtrlAttach).pending = some .load := rfl
    have hresume : (ctrlIface.text .wpaCtrlAttach).resume load =
        onControl (fun ctrl => (wpaCtrlAttach ctrl).bind fun ret => .ret { ret := ret }) load := rfl
    rw [after_cons htext, hresume] at hret
    rw [trace_cons htext, hresume, List.filterMap_cons_none (by rfl)]
    unfold onControl at hret ⊢
    cases hload : load.ctrl with
    | none =>
      rw [hload, after_of_pending_none rfl] at hret
      exact absurd hret nofun
    | some ctrl =>
      rw [hload] at hret
      have hlog : Keeps (eventLog exchange) []
          ((wpaCtrlAttach ctrl).bind fun ret => .ret ({ ret := ret } : Answer))
          fun r log => ∃ taken, Attempted r.ret taken ∧
            log.filterMap (Exchange.into attachCap) = taken := by
        refine keeps_bind ((keeps_attachHelper_log ctrl true).mono ?_)
        rintro ret log ⟨taken, hattempted, hlog⟩
        refine keeps_ret ⟨taken, hattempted, ?_⟩
        rcases hlog with ⟨rfl, rfl, -⟩ | rfl
        · rfl
        · rw [List.filterMap_cons_none rfl, List.filterMap_map]
          exact List.filterMap_some
      obtain ⟨taken, hattempted, htaken⟩ := hlog.logged rs hret
      rw [List.filterMap_filterMap] at htaken
      rw [← htaken] at hattempted
      exact hattempted

/-- A call of the library leaves all but the system calls alone. -/
theorem effect_library (h : Host) (r' : SysAnswer) (hc : ∀ c, c' ≠ .drv c) :
    (host.effect h c' r').ctrl.shared = h.ctrl.shared ∧ (host.effect h c' r').around = h.around ∧
      host.spawns c' = none ∧ host.joins c' = none := by
  cases c' with
  | drv c => exact absurd rfl (hc c)
  | _ => exact ⟨rfl, rfl, rfl, rfl⟩

theorem answers_library {h : Host} (hc : ∀ c, c' ≠ .drv c) (hans : host.answers h c' r' = true) :
    h.ctrl.answers c' r' = true ∧ h.ctrl.kernel.delivers c' r' = true := by
  cases c' with
  | drv c => exact absurd rfl (hc c)
  | _ => exact Bool.and_eq_true_iff.mp hans

theorem delivers_recv {k : Kernel} {fd : Int} {len : Nat}
    (h : k.delivers (.recv fd len) r' = true) :
    r'.offer = k.queue.headD [] ∧ (r'.ret < 0 ∨ k.queue ≠ []) := by
  simp only [Kernel.delivers, Bool.and_eq_true, Bool.or_eq_true, decide_eq_true_eq] at h
  exact ⟨h.1, h.2.imp_right And.left⟩

/-- The calls but `recv` leave the messages in the socket. -/
theorem queue_effect {h : Host} (hrecv : ∀ fd len, c' ≠ .recv fd len) :
    (host.effect h c' r').ctrl.kernel.queue = h.ctrl.kernel.queue := by
  cases c' with
  | recv fd len => exact absurd rfl (hrecv fd len)
  | zalloc =>
    simp only [host, Host.effect, CtrlWorld.effect, Kernel.effect]
    split <;> rfl
  | socket =>
    simp only [host, Host.effect, CtrlWorld.effect, Kernel.effect]
    split <;> rfl
  | bind fd path =>
    simp only [host, Host.effect, CtrlWorld.effect, Kernel.effect]
    split <;> rfl
  | _ => rfl

/-- The socket gives its messages in their order. -/
theorem queue_taken {h : Host} {len : Nat} (hlen : ∀ fd len', c' = .recv fd len' → len' = len)
    (hans : host.answers h c' r' = true) : h.ctrl.kernel.queue =
      (takenInto len (c', r')).toList ++ (host.effect h c' r').ctrl.kernel.queue := by
  by_cases hrecv : ∃ fd len', c' = .recv fd len'
  · obtain ⟨fd, len', rfl⟩ := hrecv
    obtain rfl := hlen fd len' rfl
    have hdrv : ∀ c, SysCall.recv fd len' ≠ .drv c := fun _ h => by cases h
    obtain ⟨hoffer, hready⟩ := delivers_recv (answers_library hdrv hans).2
    by_cases hneg : r'.ret < 0
    · simp [takenInto, exchange, host, Host.effect, CtrlWorld.effect, Kernel.effect,
        Kernel.touch, hneg]
    · obtain ⟨m, rest, hqueue⟩ := List.exists_cons_of_ne_nil (hready.resolve_left hneg)
      simp [takenInto, exchange, Exchange.into, host, Host.effect, CtrlWorld.effect, Kernel.effect,
        Kernel.touch, hneg, hoffer, hqueue]
  · have hno : ∀ fd len', c' ≠ .recv fd len' := fun fd len' h => hrecv ⟨fd, len', h⟩
    rw [takenInto_eq_none hno, queue_effect hno, Option.toList_none, List.nil_append]

theorem takenInto_of_ne {len len' : Nat} (hlen : ∀ fd len₁, c' = .recv fd len₁ → len₁ = len)
    (hne : len ≠ len') :
    takenInto len' (c', r') = none := by
  by_cases hrecv : ∃ fd len₁, c' = .recv fd len₁
  · obtain ⟨fd, len₁, rfl⟩ := hrecv
    obtain rfl := hlen fd len₁ rfl
    simp only [takenInto, exchange]
    split
    · rfl
    · exact if_neg hne
  · exact takenInto_eq_none fun fd len₁ h => hrecv ⟨fd, len₁, h⟩

end CtrlRefinementLemmas

/-! ## 3. The relation -/

/-- The messages taken into buffers of `len` bytes, and those that have arrived. -/
def takenBy (len : Nat) : HostMove → Option Bytes
  | .call _ c r => takenInto len (c, r)
  | _ => none

def arrival : HostMove → Option Bytes
  | .outside (.event message) => some message
  | _ => none

/-- The calls of the driver, apart from those of the library. -/
def hostCall : HostMove → Option (Thread × Call × Answer)
  | .call t (.drv c) r => some (t, c, r.toAnswer)
  | _ => none

def driverCall : WorldMove → Option (Thread × Call × Answer)
  | .call t c r => if c.isCtrl then none else some (t, c, r)
  | _ => none

/-- The messages the driver receives. -/
def received : WorldMove → Option Bytes
  | .call _ (.wpaCtrlRecv _) r => if r.ret < 0 then none else some r.offer
  | _ => none

/-- What the library has taken, once the last `wpa_ctrl_attach` has returned `attachStatus`. -/
def TakenBefore (attachStatus : Option Int) (taken : List Bytes) : Prop :=
  (attachStatus = none ∨ attachStatus = some (-2) → ∀ m ∈ taken, unsolicited m) ∧
    (attachStatus = some 0 → ∃ skipped : List Bytes, (∀ m ∈ skipped, unsolicited m) ∧
      taken = skipped ++ [okReply])

/-- How the messages stand when `main` is at `duty`: before it has attached the driver
receives none, and then it receives those that wait in the socket. -/
inductive Course (ls : List HostMove) (C : WorldState)
    (tr : Thread → List (SysCall × SysAnswer)) (h : Host) : Option MainDuty → Prop where
  | before {duty : Option MainDuty} (hduty : ∀ m, duty = some m → m.before)
      (store : ∃ b, C.store = h.world b []) (joined : h.around.joined = false)
      (alone : C.threads .commandHandler = none ∧ C.threads .connectionListener = none)
      (received : ls.filterMap (takenBy messageCap) = [])
      (control : ∀ control attachStatus, duty = some (.setup control attachStatus) →
        h.ctrl.shared.controlData = control)
      (taken : ∀ control attachStatus, duty = some (.setup control attachStatus) → ∃ taken,
        TakenBefore attachStatus taken ∧
          ls.filterMap (takenBy attachCap) = taken ++ (tr .main).filterMap (takenInto attachCap)) :
      Course ls C tr h duty
  | serving {due : Bool} (store : ∃ b, C.store = h.world b h.ctrl.kernel.queue)
      (ready : due = true → h.ctrl.kernel.queue ≠ [])
      (taken : TakenBefore (some 0) (ls.filterMap (takenBy attachCap))) :
      Course ls C tr h (some (.serving due))

/-- The relation between the runs, and the states, of the two processes. -/
structure Embeds (ls : List HostMove) (us : List WorldMove) (C : WorldState)
    (tr : Thread → List (SysCall × SysAnswer)) (h : Host) : Prop where
  run : world.run worldStart us = some C
  calls : us.filterMap driverCall = ls.filterMap hostCall
  received : us.filterMap received = ls.filterMap (takenBy messageCap)
  arrived : ls.filterMap arrival =
    ls.filterMap (takenBy attachCap) ++ ls.filterMap (takenBy messageCap) ++ h.ctrl.kernel.queue
  listener : Stack.Calm (Only Call.receivesMessage True) (C.threads .connectionListener)
  duty : ∃ duty, Stack.At dutySpec MainDuty.before (C.threads .main) duty ∧ Course ls C tr h duty

/-! ## 4. What the threads wait on -/

namespace CtrlRefinementLemmas

variable {ls : List HostMove} {us : List WorldMove} {C C₁ : WorldState} {w w' : Host}
  {tr : Thread → List (SysCall × SysAnswer)} {duty : Option MainDuty} {due : Bool} {t : Thread}
  {c : Call} {c' : SysCall} {r' : SysAnswer} {r : Answer} {rs : List SysAnswer}

theorem filterMap_concat {α β : Type} (f : α → Option β) (l : List α) (a : α) :
    (l ++ [a]).filterMap f = l.filterMap f ++ (f a).toList := by
  rw [List.filterMap_append]
  cases h : f a with
  | none => rw [List.filterMap_cons_none h]; rfl
  | some b => rw [List.filterMap_cons_some h]; rfl

/-- What happens outside of the driver is no call. -/
theorem filterMap_outside {α : Type} (f : WorldMove → Option α) (hf : ∀ e, f (.outside e) = none)
    (us : List WorldMove) (es : List Outside) :
    List.filterMap f (us ++ es.map .outside) = us.filterMap f := by
  have hquiet : List.filterMap (f ∘ .outside) es = [] :=
    List.filterMap_eq_nil_iff.mpr fun e _ => hf e
  rw [List.filterMap_append, List.filterMap_map, hquiet, List.append_nil]

theorem main_of_alone
    (alone : C.threads .commandHandler = none ∧ C.threads .connectionListener = none)
    (hw : Waits C t c) : t = .main := by
  obtain ⟨p, hp, -⟩ := hw
  cases t with
  | main => rfl
  | commandHandler => exact nomatch alone.1.symm.trans hp
  | connectionListener => exact nomatch alone.2.symm.trans hp

/-- What `main` waits on is a call of its duty. -/
theorem main_waits (hmain : Stack.At dutySpec MainDuty.before (C.threads .main) duty)
    (hw : Waits C .main c)
    (hread : ∀ control attachStatus, duty = some (.setup control attachStatus) → c = .controlData →
      r.handle = control) : ∃ m m', duty = some m ∧ m.step c r = some m' := by
  obtain ⟨p, hp, hpend⟩ := hw
  rw [hp] at hmain
  obtain ⟨m, rfl, hat⟩ := Stack.some_of_at hmain
  obtain ⟨m', -, hm', -⟩ := Stack.at_call (s := ⟨p, []⟩) hat hpend (r := r)
    fun control attachStatus hm hc => hread control attachStatus (congrArg some hm) hc
  exact ⟨m, m', rfl, hm'⟩

/-- Where a call leaves `main`. -/
theorem main_call {m m' : MainDuty}
    (hmain : Stack.At dutySpec MainDuty.before (C.threads .main) (some m))
    (hm' : m.step c r = some m')
    (hread : ∀ control attachStatus, m = .setup control attachStatus → c = .controlData →
      r.handle = control)
    (hstep : world.step C (.call .main c r) = some C₁) :
    ∃ o, Stack.At dutySpec MainDuty.before (C₁.threads .main) o ∧
      (o = some m' ∨ o = none ∧ m'.before) := by
  obtain ⟨s, hs, hpend, -, -, rfl⟩ := System.step_call hstep
  rw [hs] at hmain
  obtain ⟨m₁, o, hm₁, ho, hend⟩ := Stack.at_call hmain hpend hread
  obtain rfl := Option.some.inj (hm'.symm.trans hm₁)
  dsimp only
  rw [System.threadsAfter_self]
  exact ⟨o, ho, hend⟩

/-- Once the driver is attached, it polls. -/
theorem poll_of_serving (hrun : world.run worldStart us = some C)
    (hmain : Stack.At dutySpec MainDuty.before (C.threads .main) (some (.serving due)))
    (hw : Waits C t c) (hc : c.isCtrl = true) : c.isPoll = true := by
  obtain ⟨_, _, _, hstages⟩ := stages_run hrun
  obtain ⟨_, hrunning⟩ := hstages.running
  obtain ⟨p, hp, hpend⟩ := hw
  cases t with
  | main =>
    rw [hp] at hmain
    obtain ⟨m', -, hm', -⟩ :=
      Stack.at_call (s := ⟨p, []⟩) hmain hpend (r := {}) fun _ _ h => nomatch h
    cases due <;> cases c <;> first | rfl | exact Bool.noConfusion hc | cases hm'
  | commandHandler =>
    obtain ⟨-, honly⟩ := hrunning.handler _ hp
    have hhandling := (Only.resume honly hpend {}).1
    cases c <;> first | exact Bool.noConfusion hc | exact Bool.noConfusion hhandling
  | connectionListener =>
    obtain ⟨-, k, hk⟩ := hrunning.listener _ hp
    obtain ⟨k', hk', -⟩ := hk.resume hpend (r := {}) trivial
    cases c <;> first | rfl | exact Bool.noConfusion hc | cases k <;> cases hk'

/-- What a function of the library calls before its last call. -/
theorem setup_of_inside {log : List (SysCall × SysAnswer)}
    (htr : (ctrlIface.text c).trace rs = log ++ [(c', r')])
    (hne : ∀ r, (ctrlIface.text c).after rs ≠ .ret r) :
    c.isCtrl = true ∧ c'.isSetup = true ∧ (c.isPoll = true → c' = .load) := by
  have hctrl : c.isCtrl = true := by
    by_contra hno
    exact hne _ (trace_drv (by simpa using hno) htr).2.2
  by_cases hpoll : c.isPoll = true
  · rcases trace_poll hpoll htr with ⟨-, rfl, -⟩ | ⟨_, _, -, -, -, hret⟩
    · exact ⟨hctrl, rfl, fun _ => rfl⟩
    · exact absurd hret (hne _)
  · refine ⟨hctrl, ?_, fun h => absurd h hpoll⟩
    have hlast : (c', r') ∈ (ctrlIface.text c).trace rs := by simp [htr]
    exact (only_text_setup hctrl (by simpa using hpoll)).of_mem_trace hlast

theorem drv_of_isSetup (hc : c'.isSetup = true) (c : Call) : c' ≠ .drv c := by
  rintro rfl
  exact Bool.noConfusion hc

theorem len_of_isSetup (hc : c'.isSetup = true) (fd : Int) (len : Nat) (h : c' = .recv fd len) :
    len = attachCap := by
  subst h
  exact of_decide_eq_true hc

theorem hostCall_library (hdrv : ∀ c, c' ≠ .drv c) : hostCall (.call t c' r') = none := by
  cases c' with
  | drv c => exact absurd rfl (hdrv c)
  | _ => rfl

theorem world_library (hdrv : ∀ c, c' ≠ .drv c) (b : Books Handle) (events : List Bytes) :
    (host.effect w c' r').world b events = w.world b events := by
  obtain ⟨hshared, haround, -, -⟩ := effect_library w r' hdrv
  simp only [Host.world, hshared, haround]

/-! ## 5. Steps -/

/-- What the library takes, it takes from the socket. -/
theorem arrived_call (h : Embeds ls us C tr w)
    (hqueue : w.ctrl.kernel.queue = (takenInto attachCap (c', r')).toList ++
      (takenInto messageCap (c', r')).toList ++ w'.ctrl.kernel.queue)
    (hnone : ls.filterMap (takenBy messageCap) = [] ∨ takenInto attachCap (c', r') = none) :
    List.filterMap arrival (ls ++ [.call t c' r']) =
      List.filterMap (takenBy attachCap) (ls ++ [.call t c' r']) ++
        List.filterMap (takenBy messageCap) (ls ++ [.call t c' r']) ++ w'.ctrl.kernel.queue := by
  have harrived := h.arrived
  rw [hqueue] at harrived
  rw [filterMap_concat, filterMap_concat, filterMap_concat, harrived]
  rcases hnone with hnone | hnone <;> simp [hnone, arrival, takenBy]

/-- The messages in the socket after a call with which the library does not poll. -/
theorem queue_setup (hc : c'.isSetup = true) (hans : host.answers w c' r' = true) :
    takenInto messageCap (c', r') = none ∧
      w.ctrl.kernel.queue = (takenInto attachCap (c', r')).toList ++
        (takenInto messageCap (c', r')).toList ++ (host.effect w c' r').ctrl.kernel.queue := by
  have hmessage : takenInto messageCap (c', r') = none :=
    takenInto_of_ne (len_of_isSetup hc) (by decide)
  refine ⟨hmessage, ?_⟩
  rw [hmessage, Option.toList_none, List.append_nil]
  exact queue_taken (len_of_isSetup hc) hans

/-- What a function of the library that is called while the driver sets up has taken. -/
theorem taken_of_setup {control : Option Handle} {attachStatus : Option Int} {m' : MainDuty}
    (hctrl : c.isCtrl = true) (hret : (ctrlIface.text c).after rs = .ret r)
    (hm' : (MainDuty.setup control attachStatus).step c r = some m') :
    ∃ attachStatus', m' = .setup control attachStatus' ∧ ∀ before, TakenBefore attachStatus before →
      TakenBefore attachStatus'
        (before ++ ((ctrlIface.text c).trace rs).filterMap (takenInto attachCap)) := by
  cases c with
  | wpaCtrlOpen path =>
    refine ⟨attachStatus, (Option.some.inj hm').symm, fun before hbefore => ?_⟩
    rw [taken_of_holding (.inl ⟨path, rfl⟩), List.append_nil]
    exact hbefore
  | wpaCtrlClose =>
    refine ⟨attachStatus, (Option.some.inj hm').symm, fun before hbefore => ?_⟩
    rw [taken_of_holding (.inr rfl), List.append_nil]
    exact hbefore
  | wpaCtrlAttach =>
    have hattempted := taken_of_attach hret
    have hstatus : (attachStatus = none ∨ attachStatus = some (-2)) ∧
        m' = .setup control (some r.ret) := by
      unfold MainDuty.step at hm'
      split at hm' <;> simp_all
    obtain ⟨hstatus, rfl⟩ := hstatus
    refine ⟨_, rfl, fun before hbefore => ⟨fun htimeout m hm => ?_, fun hzero => ?_⟩⟩
    · have hret : r.ret = -2 := Option.some.inj (htimeout.resolve_left (Option.some_ne_none _))
      rw [Attempted, hret, if_neg (by decide)] at hattempted
      rcases List.mem_append.mp hm with hm | hm
      · exact hbefore.1 hstatus m hm
      · exact hattempted.resolve_right (fun h => absurd h.1 (by decide)) m hm
    · rw [Attempted, if_pos (Option.some.inj hzero)] at hattempted
      obtain ⟨skipped, hskipped, htaken⟩ := hattempted
      refine ⟨before ++ skipped, fun m hm => ?_, by rw [htaken, List.append_assoc]⟩
      rcases List.mem_append.mp hm with hm | hm
      · exact hbefore.1 hstatus m hm
      · exact hskipped m hm
  | wpaCtrlDetach => cases hm'
  | wpaCtrlPending => cases hm'
  | wpaCtrlRecv len => cases hm'
  | _ => exact Bool.noConfusion hctrl

/-- Inside a function. -/
theorem course_inside (h : Course ls C tr w duty) (hw : Waits C t c)
    (htr : (ctrlIface.text c).trace rs = tr t ++ [(c', r')])
    (hne : ∀ r, (ctrlIface.text c).after rs ≠ .ret r)
    (hpoll : ∀ due, duty = some (.serving due) → c.isPoll = true) :
    Course (ls ++ [.call t c' r']) C (Function.update tr t (tr t ++ [(c', r')]))
      (host.effect w c' r') duty := by
  obtain ⟨-, hsetup, hload⟩ := setup_of_inside htr hne
  have hdrv := drv_of_isSetup hsetup
  obtain ⟨hshared, haround, -, -⟩ := effect_library w r' hdrv
  cases h with
  | before hduty store joined alone received control taken =>
    obtain rfl := main_of_alone alone hw
    refine .before hduty ?_ (haround ▸ joined) alone ?_ (hshared ▸ control)
      fun control attachStatus hd => ?_
    · simpa only [world_library hdrv] using store
    · rw [filterMap_concat, received]
      exact congrArg Option.toList (takenInto_of_ne (len_of_isSetup hsetup) (by decide))
    · obtain ⟨before, hbefore, heq⟩ := taken control attachStatus hd
      refine ⟨before, hbefore, ?_⟩
      rw [Function.update_self, filterMap_concat, filterMap_concat, heq, List.append_assoc]
      rfl
  | serving store ready taken =>
    obtain rfl := hload (hpoll _ rfl)
    refine .serving store ready ?_
    rw [filterMap_concat]
    simpa [takenBy, takenInto, exchange] using taken

/-- A function of the library that returns while the driver sets up. -/
theorem course_setup {control : Option Handle} {attachStatus : Option Int} {m' : MainDuty}
    {o : Option MainDuty} (h : Course ls C tr w (some (.setup control attachStatus)))
    (hctrl : c.isCtrl = true) (hpoll : c.isPoll = false)
    (htr : (ctrlIface.text c).trace rs = tr .main ++ [(c', r')])
    (hret : (ctrlIface.text c).after rs = .ret r)
    (hm' : (MainDuty.setup control attachStatus).step c r = some m')
    (ho : o = some m' ∨ o = none ∧ m'.before) (hstep : world.step C (.call .main c r) = some C₁) :
    Course (ls ++ [.call .main c' r']) C₁ (world.tracesAfter tr .main c)
      (host.effect w c' r') o := by
  have hlast : (c', r') ∈ (ctrlIface.text c).trace rs := by simp [htr]
  have hsetup := (only_text_setup hctrl hpoll).of_mem_trace hlast
  have hdrv := drv_of_isSetup hsetup
  obtain ⟨hshared, haround, -, -⟩ := effect_library w r' hdrv
  obtain ⟨s, hs, -, -, -, rfl⟩ := System.step_call hstep
  have hspawns : world.spawns c = none := by cases c <;> first | rfl | exact Bool.noConfusion hctrl
  obtain ⟨attachStatus', rfl, hstatus⟩ := taken_of_setup hctrl hret hm'
  have hduty : ∀ m, o = some m → m = .setup control attachStatus' := by
    rintro m rfl
    rcases ho with heq | ⟨heq, -⟩ <;> cases heq
    rfl
  cases h with
  | before _ store joined alone received hcontrol taken =>
    obtain ⟨b, hb⟩ := store
    refine .before ?_ ?_ (haround ▸ joined) ?_ ?_ ?_ fun control' attachStatus'' hd => ?_
    · intro m hm
      rw [hduty m hm]
      trivial
    · obtain ⟨b', hb'⟩ := effect_ctrl [] (h := w) (b := b) hctrl hshared haround r
      refine ⟨b', ?_⟩
      dsimp only
      rw [hb, hb']
      cases c <;> first | rfl | exact Bool.noConfusion hpoll
    · dsimp only
      rw [System.threadsAfter_of_ne (by decide), System.threadsAfter_of_ne (by decide), hspawns]
      exact alone
    · rw [filterMap_concat, received]
      exact congrArg Option.toList (takenInto_of_ne (len_of_isSetup hsetup) (by decide))
    · intro control' attachStatus'' hd
      cases hduty _ hd
      exact (congrArg Shared.controlData hshared).trans (hcontrol _ _ rfl)
    · cases hduty _ hd
      obtain ⟨before, hbefore, heq⟩ := taken _ _ rfl
      refine ⟨_, hstatus before hbefore, ?_⟩
      rw [filterMap_concat, heq, htr, filterMap_concat, List.append_assoc]
      simp [System.tracesAfter, hspawns, takenBy]

/-- What the driver itself calls while it sets up. -/
theorem setup_step_drv {control : Option Handle} {attachStatus : Option Int} {m' : MainDuty}
    (hc : c.isCtrl = false) (h : (MainDuty.setup control attachStatus).step c r = some m') :
    (∃ control', m' = .setup control' attachStatus ∧
      (c = .controlData ∧ control' = control ∨ c = .setControlData control')) ∨
    attachStatus = some 0 ∧ (∃ signum, c = .signal signum) ∧ m' = .serving false := by
  unfold MainDuty.step at h
  split at h <;> simp_all [Call.isCtrl]

/-- A call of the driver while it sets up. When it starts to serve, the messages that
wait in the socket are what it may receive. -/
theorem course_drv_before {control : Option Handle} {attachStatus : Option Int} {m' : MainDuty}
    {o : Option MainDuty} (h : Course ls C tr w (some (.setup control attachStatus)))
    (hc : c.isCtrl = false) (hnil : tr .main = [])
    (hm' : (MainDuty.setup control attachStatus).step c r'.toAnswer = some m')
    (ho : o = some m' ∨ o = none ∧ m'.before)
    (hstep : world.step C (.call .main c r'.toAnswer) = some C₁) :
    ∃ (es : List Bytes) (C₂ : WorldState),
      world.run C₁ ((es.map Outside.event).map .outside) = some C₂ ∧
      Course (ls ++ [.call .main (.drv c) r']) C₂ (world.tracesAfter tr .main c)
        (host.effect w (.drv c) r') o := by
  obtain ⟨s, hs, -, -, -, rfl⟩ := System.step_call hstep
  cases h with
  | before _ store joined alone received hcontrol taken =>
    obtain ⟨b, hb⟩ := store
    obtain ⟨b', hb'⟩ := effect_drv [] (h := w) (b := b) (r := r') hc
    obtain ⟨before, hbefore, heq⟩ := taken _ _ rfl
    rw [hnil, List.filterMap_nil, List.append_nil] at heq
    have hquiet : ∀ len, List.filterMap (takenBy len) (ls ++ [.call .main (.drv c) r']) =
        ls.filterMap (takenBy len) :=
      fun len => by rw [filterMap_concat]; simp [takenBy, takenInto, exchange]
    rcases setup_step_drv hc hm' with ⟨control', rfl, hcall⟩ | ⟨rfl, ⟨signum, rfl⟩, rfl⟩
    · have hduty : ∀ m, o = some m → m = .setup control' attachStatus := by
        rintro m rfl
        rcases ho with heq | ⟨heq, -⟩ <;> cases heq
        rfl
      have hspawns : world.spawns c = none := by rcases hcall with ⟨rfl, -⟩ | rfl <;> rfl
      refine ⟨[], _, rfl, .before (fun m hm => hduty m hm ▸ trivial)
        ⟨b', by rw [hb, hb']⟩ ?_ ?_ ?_ ?_ ?_⟩
      · rcases hcall with ⟨rfl, -⟩ | rfl <;> exact joined
      · dsimp only
        rw [System.threadsAfter_of_ne (by decide), System.threadsAfter_of_ne (by decide), hspawns]
        exact alone
      · rw [hquiet, received]
      · intro control₁ attachStatus₁ hd
        cases hduty _ hd
        rcases hcall with ⟨rfl, rfl⟩ | rfl
        · exact hcontrol _ _ rfl
        · rfl
      · intro control₁ attachStatus₁ hd
        cases hduty _ hd
        refine ⟨before, hbefore, ?_⟩
        rw [hquiet, heq]
        simp [System.tracesAfter, hspawns]
    · obtain rfl := ho.resolve_right fun h => h.2
      refine ⟨w.ctrl.kernel.queue, _, run_events _ _,
        .serving ⟨b', ?_⟩ (fun h => Bool.noConfusion h) ?_⟩
      · dsimp only
        rw [hb, hb']
        rfl
      · rw [hquiet, heq]
        exact hbefore

/-- A call of the driver once it is attached. -/
theorem course_drv_serving (h : Course ls C tr w (some (.serving due))) (hc : c.isCtrl = false)
    {due' : Bool} (hdue : due' = true → due = true)
    (hstep : world.step C (.call t c r'.toAnswer) = some C₁) :
    Course (ls ++ [.call t (.drv c) r']) C₁ (world.tracesAfter tr t c) (host.effect w (.drv c) r')
      (some (.serving due')) := by
  obtain ⟨s, hs, -, -, -, rfl⟩ := System.step_call hstep
  cases h with
  | before hduty => exact (hduty _ rfl).elim
  | serving store ready taken =>
    obtain ⟨b, hb⟩ := store
    obtain ⟨b', hb'⟩ := effect_drv w.ctrl.kernel.queue (h := w) (b := b) (r := r') hc
    refine .serving ⟨b', ?_⟩ (fun h => ready (hdue h)) ?_
    · dsimp only
      rw [hb, hb']
      rfl
    · rw [filterMap_concat]
      simpa [takenBy, takenInto, exchange] using taken

/-- Where a message is received there is one, and only one thread is about to take it. -/
theorem recv_ready {len : Nat} (h : Embeds ls us C tr w)
    (hmain : Stack.At dutySpec MainDuty.before (C.threads .main) (some (.serving due)))
    (hcourse : Course ls C tr w (some (.serving due))) (hw : Waits C t (.wpaCtrlRecv len)) :
    len = messageCap ∧ w.ctrl.kernel.queue ≠ [] ∧ (due = true → t = .main) := by
  obtain ⟨_, _, _, hstages⟩ := stages_run h.run
  cases hcourse with
  | before hduty => exact (hduty _ rfl).elim
  | serving store ready taken =>
    obtain ⟨b, hb⟩ := store
    cases t with
    | main =>
      obtain ⟨m, m', hm, hm'⟩ := main_waits (r := {}) hmain hw fun _ _ h => nomatch h
      obtain rfl := Option.some.inj hm
      cases due with
      | false => cases hm'
      | true =>
        refine ⟨?_, ready rfl, fun _ => rfl⟩
        by_contra hlen
        rw [MainDuty.step, if_neg hlen] at hm'
        cases hm'
    | commandHandler =>
      obtain ⟨_, hrunning⟩ := hstages.running
      obtain ⟨p, hp, hpend⟩ := hw
      exact Bool.noConfusion (Only.resume (hrunning.handler _ hp).2 hpend {}).1
    | connectionListener =>
      obtain ⟨p, hp, hpend⟩ := hw
      have hwatcher := hstages.watcher
      rw [hp] at hwatcher
      obtain ⟨k, rfl, hat⟩ := Stack.some_of_at hwatcher
      obtain ⟨k', -, hk', -⟩ := Stack.at_call (s := ⟨p, []⟩) hat hpend (r := {}) trivial
      refine ⟨of_decide_eq_true (Only.resume (h.listener _ hp).2 hpend {}).1, ?_, fun hdue => ?_⟩
      · rcases watcher_step_away hk' with ⟨rfl, -⟩ | ⟨haway, -⟩
        · have hfetch := hstages.fetchable rfl
          rw [hb] at hfetch
          exact hfetch
        · exact Bool.noConfusion haway
      · -- `main` is about to take it, and then no session runs
        subst hdue
        obtain ⟨s, c, hs, hnil, hc, hsteps⟩ := Stack.waits_of_at hmain (fun hf => nomatch hf)
        obtain ⟨m', hm'⟩ := hsteps {} fun _ _ h => nomatch h
        have hown : c.isSession = false := by
          cases c <;> first | rfl | cases hm'
        exact nomatch (company_of_own_call hstages.session hs hnil hc hown).2.symm.trans hp

variable {ctrl : WpaCtrl}

/-- A poll gets an answer the driver may get. -/
theorem answers_poll (h : Course ls C tr w (some (.serving due))) (hpoll : c.isPoll = true)
    (hans : host.answers w (pollCall ctrl c) r' = true)
    (hready : ∀ len, c = .wpaCtrlRecv len → w.ctrl.kernel.queue ≠ []) :
    world.answers C.store c (pollAnswer r' c) = true := by
  cases h with
  | before hduty => exact (hduty _ rfl).elim
  | serving store ready taken =>
    obtain ⟨b, hb⟩ := store
    rw [hb]
    refine world_answers.mpr ?_
    cases c with
    | wpaCtrlPending =>
      have hdrv : ∀ c, SysCall.select ctrl.s 0 ≠ .drv c := fun _ h => by cases h
      have hdelivers := (answers_library hdrv hans).2
      exact ⟨rfl, (Bool.and_eq_true_iff.mp hdelivers).2⟩
    | wpaCtrlRecv len =>
      have hdrv : ∀ c, SysCall.recv ctrl.s len ≠ .drv c := fun _ h => by cases h
      have hdelivers := (answers_library hdrv hans).2
      have hoffer := (delivers_recv hdelivers).1
      obtain ⟨m, rest, hqueue⟩ := List.exists_cons_of_ne_nil (hready len rfl)
      rw [hqueue, List.headD_cons] at hoffer
      refine ⟨rfl, decide_eq_true ?_⟩
      simp only [Host.world, hqueue, List.head?_cons, pollAnswer]
      exact congrArg some hoffer.symm
    | _ => exact Bool.noConfusion hpoll

theorem len_of_poll (hcap : ∀ len, c = .wpaCtrlRecv len → len = messageCap) (fd : Int) (len : Nat)
    (h : pollCall ctrl c = .recv fd len) : len = messageCap := by
  cases c <;> cases h
  exact hcap _ rfl

/-- A poll takes from the socket what it takes from the messages. -/
theorem queue_poll (hpoll : c.isPoll = true) : eventsAfter w.ctrl.kernel.queue c (pollAnswer r' c) =
    (host.effect w (pollCall ctrl c) r').ctrl.kernel.queue := by
  cases c with
  | wpaCtrlRecv len =>
    have hret : (pollAnswer r' (.wpaCtrlRecv len)).ret = r'.ret := rfl
    by_cases hneg : r'.ret < 0 <;>
      simp [eventsAfter, pollCall, host, Host.effect, CtrlWorld.effect, Kernel.effect,
        Kernel.touch, hret, hneg]
  | wpaCtrlPending => rfl
  | _ => exact Bool.noConfusion hpoll

/-- A poll of a driver that is attached. -/
theorem course_poll (h : Course ls C tr w (some (.serving due))) (hpoll : c.isPoll = true)
    (hcap : ∀ len, c = .wpaCtrlRecv len → len = messageCap) {due' : Bool}
    (hready : due' = true → (host.effect w (pollCall ctrl c) r').ctrl.kernel.queue ≠ [])
    (hstep : world.step C (.call t c (pollAnswer r' c)) = some C₁) :
    Course (ls ++ [.call t (pollCall ctrl c) r']) C₁ (world.tracesAfter tr t c)
      (host.effect w (pollCall ctrl c) r') (some (.serving due')) := by
  obtain ⟨s, hs, -, -, -, rfl⟩ := System.step_call hstep
  cases h with
  | before hduty => exact (hduty _ rfl).elim
  | serving store ready taken =>
    obtain ⟨b, hb⟩ := store
    have hctrl : c.isCtrl = true := by cases c <;> first | rfl | exact Bool.noConfusion hpoll
    have hdrv : ∀ c₁, pollCall ctrl c ≠ .drv c₁ := fun c₁ h => by cases c <;> cases h
    obtain ⟨hshared, haround, -, -⟩ := effect_library w r' hdrv
    obtain ⟨b', hb'⟩ :=
      effect_ctrl w.ctrl.kernel.queue (b := b) hctrl hshared haround (pollAnswer r' c)
    refine .serving ⟨b', ?_⟩ hready ?_
    · dsimp only
      rw [hb, hb']
      rw [queue_poll hpoll]
    · have hnone : takenBy attachCap (.call t (pollCall ctrl c) r') = none :=
        takenInto_of_ne (len_of_poll hcap) (by decide)
      rw [filterMap_concat, hnone]
      simpa using taken

/-- The driver receives what the library takes for it. -/
theorem received_poll (hcap : ∀ len, c = .wpaCtrlRecv len → len = messageCap) :
    received (.call t c (pollAnswer r' c)) = takenInto messageCap (pollCall ctrl c, r') := by
  cases c with
  | wpaCtrlRecv len =>
    obtain rfl := hcap len rfl
    have hret : (pollAnswer r' (.wpaCtrlRecv messageCap)).ret = r'.ret := rfl
    by_cases hneg : r'.ret < 0
    · simp [received, pollCall, takenInto, exchange, hret, hneg]
    · simp [received, pollCall, takenInto, exchange, Exchange.into, hret, hneg]
      rfl
  | _ => rfl

/-- What happens outside of the driver. -/
theorem course_outside (h : Course ls C tr w duty) {e : Outside}
    (hout : host.outside w e = some w') :
    w'.ctrl.kernel.queue = w.ctrl.kernel.queue ++ (arrival (.outside e)).toList ∧
      ∃ (es : List Outside) (C₂ : WorldState), world.run C (es.map .outside) = some C₂ ∧
        Course (ls ++ [.outside e]) C₂ tr w' duty := by
  have hquiet : ∀ len, List.filterMap (takenBy len) (ls ++ [.outside e]) =
      ls.filterMap (takenBy len) :=
    fun len => by rw [filterMap_concat]; simp [takenBy]
  by_cases hevent : ∃ m, e = .event m
  · obtain ⟨m, rfl⟩ := hevent
    obtain rfl := Option.some.inj hout
    refine ⟨rfl, ?_⟩
    cases h with
    | before hduty store joined alone received control taken =>
      refine ⟨[], C, rfl, .before hduty store joined alone ?_ control ?_⟩
      · rw [hquiet, received]
      · rw [hquiet]
        exact taken
    | serving store ready taken =>
      obtain ⟨b, hb⟩ := store
      refine ⟨[.event m], _, run_events C [m], .serving ⟨b, ?_⟩ (fun h => ?_) ?_⟩
      · rw [hb]
        rfl
      · simp [Host.arrive]
      · rw [hquiet]
        exact taken
  · have he : ∀ m, e ≠ .event m := fun m h => hevent ⟨m, h⟩
    have hmap : (w.seen.outside e).map (fun around => { w with around := around }) = some w' := by
      cases e with
      | event m => exact absurd rfl (he m)
      | _ => exact hout
    obtain ⟨around, haround, rfl⟩ := Option.map_eq_some_iff.mp hmap
    refine ⟨by cases e <;> first | exact absurd rfl (he _) | exact (List.append_nil _).symm, ?_⟩
    cases h with
    | before hduty store joined alone received control taken =>
      obtain ⟨b, hb⟩ := store
      have hstep : world.step C (.outside e) =
          some ⟨⟨C.store.shared, { around with events := [] }⟩, C.threads⟩ := by
        have hnext := outside_before [] (w := w.seen) he joined haround
        simp only [System.step, world, hb, Host.world]
        exact congrArg (Option.map _) (congrArg (Option.map _) hnext)
      refine ⟨[e], _, System.run_cons_eq_some.mpr ⟨_, hstep, rfl⟩,
        .before hduty ⟨b, by rw [hb]; rfl⟩ ?_ alone ?_ control ?_⟩
      · exact (events_of_outside he haround).2.trans joined
      · rw [hquiet, received]
      · rw [hquiet]
        exact taken
    | serving store ready taken =>
      obtain ⟨b, hb⟩ := store
      have hstep : world.step C (.outside e) = some ⟨⟨C.store.shared, around⟩, C.threads⟩ := by
        simp only [System.step, world, hb, Host.world]
        exact congrArg (Option.map _) (congrArg (Option.map _) haround)
      refine ⟨[e], _, System.run_cons_eq_some.mpr ⟨_, hstep, rfl⟩, .serving ⟨b, ?_⟩ ready ?_⟩
      · have hevents : around.events = w.ctrl.kernel.queue := (events_of_outside he haround).1
        rw [hb, ← hevents]
        rfl
      · rw [hquiet]
        exact taken

/-- A call of the two processes, and what arrives behind it. -/
theorem embeds_call (h : Embeds ls us C tr w)
    (hcalls : driverCall (.call t c r) = hostCall (.call t c' r'))
    (hreceived : received (.call t c r) = takenInto messageCap (c', r'))
    (hqueue : w.ctrl.kernel.queue = (takenInto attachCap (c', r')).toList ++
      (takenInto messageCap (c', r')).toList ++ w'.ctrl.kernel.queue)
    (hnone : ls.filterMap (takenBy messageCap) = [] ∨ takenInto attachCap (c', r') = none)
    (hstep : world.step C (.call t c r) = some C₁) {es : List Outside} {C₂ : WorldState}
    (hrun : world.run C₁ (es.map .outside) = some C₂)
    {tr' : Thread → List (SysCall × SysAnswer)}
    (hduty : ∃ duty, Stack.At dutySpec MainDuty.before (C₂.threads .main) duty ∧
      Course (ls ++ [.call t c' r']) C₂ tr' w' duty) :
    Embeds (ls ++ [.call t c' r']) (us ++ .call t c r :: es.map .outside) C₂ tr' w' := by
  refine ⟨?_, ?_, ?_, arrived_call h hqueue hnone, ?_, hduty⟩
  · exact System.run_append_eq_some.mpr ⟨C, h.run, System.run_cons_eq_some.mpr ⟨C₁, hstep, hrun⟩⟩
  · rw [List.append_cons, filterMap_outside driverCall fun _ => rfl, filterMap_concat,
      filterMap_concat, h.calls, hcalls]
  · rw [List.append_cons, filterMap_outside received fun _ => rfl, filterMap_concat,
      filterMap_concat, h.received, hreceived]
    rfl
  · rw [System.threads_of_outside hrun]
    obtain ⟨s, hs, hpend, -, -, rfl⟩ := System.step_call hstep
    dsimp only
    by_cases ht : t = .connectionListener
    · subst ht
      rw [System.threadsAfter_self]
      obtain ⟨hnil, honly⟩ := h.listener s hs
      rw [Stack.running_of_nil hnil] at hpend
      exact Stack.calm_resume hnil (Only.resume honly hpend r).2
    · rw [System.threadsAfter_of_ne (Ne.symm ht)]
      split
      · exact Stack.calm_start (only_bind only_connectedLoop_receives fun _ => only_ret _)
      · exact h.listener

/-- A call of a thread other than `main` leaves `main` where it is. -/
theorem main_of_ne (ht : t ≠ .main) (hspawns : world.spawns c ≠ some .main)
    (hstep : world.step C (.call t c r) = some C₁) : C₁.threads .main = C.threads .main := by
  obtain ⟨s, hs, -, -, -, rfl⟩ := System.step_call hstep
  dsimp only
  rw [System.threadsAfter_of_ne (Ne.symm ht), if_neg hspawns]

theorem store_of_course (h : Course ls C tr w duty) : ∃ b events, C.store = w.world b events := by
  cases h with
  | before _ store => exact store.imp fun _ hb => ⟨_, hb⟩
  | serving store => exact store.imp fun _ hb => ⟨_, hb⟩

/-- A session thread runs once the driver is attached, and starts no thread. -/
theorem serving_of_ne (hrun : world.run worldStart us = some C) (h : Course ls C tr w duty)
    (hw : Waits C t c) (ht : t ≠ .main) :
    (∃ due, duty = some (.serving due)) ∧ world.spawns c = none := by
  refine ⟨?_, ?_⟩
  · cases h with
    | before _ _ _ alone => exact absurd (main_of_alone alone hw) ht
    | serving => exact ⟨_, rfl⟩
  · obtain ⟨_, _, _, hstages⟩ := stages_run hrun
    obtain ⟨_, hrunning⟩ := hstages.running
    obtain ⟨p, hp, hpend⟩ := hw
    cases t with
    | main => exact absurd rfl ht
    | commandHandler =>
      have hhandling := (Only.resume (hrunning.handler _ hp).2 hpend {}).1
      exact spawns_of_isIdle (isIdle_of_isCommandHandling hhandling)
    | connectionListener =>
      obtain ⟨-, k, hk⟩ := hrunning.listener _ hp
      obtain ⟨k', hk', -⟩ := hk.resume hpend (r := {}) trivial
      cases c <;> first | rfl | cases k <;> cases hk'

/-- The driver polls once it is attached. -/
theorem serving_of_poll (hrun : world.run worldStart us = some C)
    (hmain : Stack.At dutySpec MainDuty.before (C.threads .main) duty)
    (hcourse : Course ls C tr w duty) (hw : Waits C t c) (hpoll : c.isPoll = true) :
    ∃ due, duty = some (.serving due) := by
  by_cases ht : t = .main
  · subst ht
    obtain ⟨m, m', rfl, hm'⟩ := main_waits (r := {}) hmain hw
      (by rintro _ _ - rfl; exact Bool.noConfusion hpoll)
    cases m with
    | serving due => exact ⟨due, rfl⟩
    | setup control attachStatus => cases c <;> first | exact Bool.noConfusion hpoll | cases hm'
  · exact (serving_of_ne hrun hcourse hw ht).1

/-- What the driver reads of `control_data` is what `main` has stored. -/
theorem read_of_answers (h : Course ls C tr w duty) (hans : host.answers w (.drv c) r' = true)
    (control : Option Handle) (attachStatus : Option Int)
    (hd : duty = some (.setup control attachStatus)) (hc : c = .controlData) :
    r'.toAnswer.handle = control := by
  subst hc
  cases h with
  | before _ _ _ _ _ hcontrol =>
    exact (of_decide_eq_true (Bool.and_eq_true_iff.mp hans).1).trans (hcontrol _ _ hd)
  | serving => cases hd

/-- A call of the driver itself. -/
theorem concludes_drv (h : Embeds ls us C tr w) (hw : Waits C t c) (hc : c.isCtrl = false)
    (hnil : tr t = []) (hans : host.answers w (.drv c) r' = true) :
    host.Concludes world Embeds ls us C tr w t c r'.toAnswer (.drv c) r' := by
  obtain ⟨duty, hmain, hcourse⟩ := h.duty
  obtain ⟨b, events, hb⟩ := store_of_course hcourse
  refine ⟨hb ▸ answers_drv events hc hans, by cases c <;> rfl, by cases c <;> rfl,
    fun C₁ hstep => ?_⟩
  obtain ⟨es, C₂, hrun, hduty⟩ : ∃ (es : List Bytes) (C₂ : WorldState),
      world.run C₁ ((es.map Outside.event).map .outside) = some C₂ ∧
      ∃ duty, Stack.At dutySpec MainDuty.before (C₂.threads .main) duty ∧
        Course (ls ++ [.call t (.drv c) r']) C₂ (world.tracesAfter tr t c)
          (host.effect w (.drv c) r') duty := by
    by_cases ht : t = .main
    · subst ht
      obtain ⟨m, m', rfl, hm'⟩ := main_waits hmain hw (read_of_answers hcourse hans)
      obtain ⟨o, ho, hend⟩ := main_call hmain hm'
        (fun control attachStatus hm => read_of_answers hcourse hans control attachStatus
          (congrArg some hm)) hstep
      cases m with
      | setup control attachStatus =>
        obtain ⟨es, C₂, hrun, hnext⟩ := course_drv_before hcourse hc hnil hm' hend hstep
        exact ⟨es, C₂, hrun, o, System.threads_of_outside hrun ▸ ho, hnext⟩
      | serving due =>
        obtain rfl : m' = .serving false := by
          cases due <;> cases c <;>
            first | exact Bool.noConfusion hc | exact (Option.some.inj hm').symm | cases hm'
        obtain rfl := hend.resolve_right fun h => h.2
        exact ⟨[], C₁, rfl, _, ho,
          course_drv_serving hcourse hc (fun h => Bool.noConfusion h) hstep⟩
    · obtain ⟨⟨due, rfl⟩, hspawns⟩ := serving_of_ne h.run hcourse hw ht
      have hsame := main_of_ne ht (hspawns ▸ nofun) hstep
      exact ⟨[], C₁, rfl, _, hsame ▸ hmain, course_drv_serving hcourse hc id hstep⟩
  have hreceived : received (.call t c r'.toAnswer) = none := by
    cases c <;> first | rfl | exact Bool.noConfusion hc
  refine ⟨es.map .event, C₂, hrun, embeds_call h ?_ hreceived rfl (.inr rfl) hstep hrun hduty⟩
  simp [driverCall, hostCall, hc]

/-- A handle the library hands out is new, as `main` opens when it holds none. -/
theorem answers_setup (hrun : world.run worldStart us = some C) (hw : Waits C .main c)
    (hctrl : c.isCtrl = true) (hpoll : c.isPoll = false) : world.answers C.store c r = true := by
  obtain ⟨_, _, _, hstages⟩ := stages_run hrun
  obtain ⟨phase, hrunning⟩ := hstages.running
  obtain ⟨p, hp, hpend⟩ := hw
  refine world_answers.mpr ?_
  cases c with
  | wpaCtrlOpen path =>
    obtain ⟨p', hp', -⟩ :=
      (hrunning.main _ hp).2.resume hpend (r := {}) fun hc => Call.noConfusion hc
    have hclean : C.store.shared.handles = .clean ∅ := by
      have hhandles : C.store.shared.handles = .clean phase.held := hrunning.handles
      cases phase with
      | opening => exact hhandles
      | opened control => cases control <;> cases hp'
      | _ => cases hp'
    refine ⟨?_, rfl⟩
    rw [Shared.answers, hclean]
    cases r.handle with
    | none => rfl
    | some handle => exact decide_eq_true (Finset.notMem_empty handle)
  | wpaCtrlAttach => exact ⟨rfl, rfl⟩
  | wpaCtrlDetach => exact ⟨rfl, rfl⟩
  | wpaCtrlClose => exact ⟨rfl, rfl⟩
  | _ => first | exact Bool.noConfusion hctrl | exact Bool.noConfusion hpoll

/-- A function with which the driver sets up returns. -/
theorem concludes_setup (h : Embeds ls us C tr w) (hw : Waits C t c) (hctrl : c.isCtrl = true)
    (hpoll : c.isPoll = false) (htr : (ctrlIface.text c).trace rs = tr t ++ [(c', r')])
    (hret : (ctrlIface.text c).after rs = .ret r) (hans : host.answers w c' r' = true) :
    host.Concludes world Embeds ls us C tr w t c r c' r' := by
  obtain ⟨duty, hmain, hcourse⟩ := h.duty
  have hserving : ∀ due, duty ≠ some (.serving due) := by
    rintro due rfl
    exact Bool.noConfusion (hpoll.symm.trans (poll_of_serving h.run hmain hw hctrl))
  obtain rfl : t = .main := by
    by_contra ht
    obtain ⟨due, hdue⟩ := (serving_of_ne h.run hcourse hw ht).1
    exact hserving due hdue
  have hlast : (c', r') ∈ (ctrlIface.text c).trace rs := by simp [htr]
  have hsetup := (only_text_setup hctrl hpoll).of_mem_trace hlast
  have hdrv := drv_of_isSetup hsetup
  obtain ⟨-, -, hspawns, hjoins⟩ := effect_library w r' hdrv
  have hapart : world.spawns c = none ∧ world.joins c = none := by
    cases c <;> first | exact ⟨rfl, rfl⟩ | exact Bool.noConfusion hctrl
  refine ⟨answers_setup h.run hw hctrl hpoll, hspawns.trans hapart.1.symm,
    hjoins.trans hapart.2.symm, fun C₁ hstep => ?_⟩
  have hread : ∀ m : MainDuty, ∀ control attachStatus, m = .setup control attachStatus →
      c = .controlData → r.handle = control := by
    rintro m control attachStatus - rfl
    exact Bool.noConfusion hctrl
  obtain ⟨m, m', rfl, hm'⟩ := main_waits hmain hw fun control attachStatus _ =>
    hread _ control attachStatus rfl
  obtain ⟨o, ho, hend⟩ := main_call hmain hm' (hread m) hstep
  cases m with
  | serving due => exact absurd rfl (hserving due)
  | setup control attachStatus =>
    have hnone : ls.filterMap (takenBy messageCap) = [] := by
      cases hcourse with
      | before _ _ _ _ received => exact received
    obtain ⟨hmessage, hqueue⟩ := queue_setup hsetup hans
    have hnext := course_setup hcourse hctrl hpoll htr hret hm' hend hstep
    refine ⟨[], C₁, rfl, embeds_call h ?_ ?_ hqueue (.inl hnone) hstep rfl ⟨o, ho, hnext⟩⟩
    · rw [hostCall_library hdrv, driverCall, if_pos hctrl]
    · rw [hmessage]
      cases c <;> first | rfl | exact Bool.noConfusion hpoll

/-- A poll returns. -/
theorem concludes_poll (h : Embeds ls us C tr w) (hw : Waits C t c) (hpoll : c.isPoll = true)
    (hans : host.answers w (pollCall ctrl c) r' = true) :
    host.Concludes world Embeds ls us C tr w t c (pollAnswer r' c) (pollCall ctrl c) r' := by
  have hctrl : c.isCtrl = true := by cases c <;> first | rfl | exact Bool.noConfusion hpoll
  have hdrv : ∀ c₁, pollCall ctrl c ≠ .drv c₁ := fun c₁ h => by cases c <;> cases h
  obtain ⟨duty, hmain, hcourse⟩ := h.duty
  obtain ⟨due, rfl⟩ := serving_of_poll h.run hmain hcourse hw hpoll
  have hready : ∀ len, c = .wpaCtrlRecv len →
      len = messageCap ∧ w.ctrl.kernel.queue ≠ [] ∧ (due = true → t = .main) := by
    rintro len rfl
    exact recv_ready h hmain hcourse hw
  have hcap : ∀ len, c = .wpaCtrlRecv len → len = messageCap := fun len hc => (hready len hc).1
  obtain ⟨-, -, hspawns, hjoins⟩ := effect_library w r' hdrv
  have hapart : world.spawns c = none ∧ world.joins c = none := by
    cases c <;> first | exact ⟨rfl, rfl⟩ | exact Bool.noConfusion hctrl
  refine ⟨answers_poll hcourse hpoll hans fun len hc => (hready len hc).2.1,
    hspawns.trans hapart.1.symm, hjoins.trans hapart.2.symm, fun C₁ hstep => ?_⟩
  have hduty : ∃ duty, Stack.At dutySpec MainDuty.before (C₁.threads .main) duty ∧
      Course (ls ++ [.call t (pollCall ctrl c) r']) C₁ (world.tracesAfter tr t c)
        (host.effect w (pollCall ctrl c) r') duty := by
    by_cases ht : t = .main
    · subst ht
      have hread : ∀ control attachStatus, MainDuty.serving due = .setup control attachStatus →
          c = .controlData → (pollAnswer r' c).handle = control := fun _ _ h => nomatch h
      obtain ⟨m, m', hm, hm'⟩ := main_waits (r := pollAnswer r' c) hmain hw fun _ _ h => nomatch h
      obtain rfl := Option.some.inj hm
      obtain ⟨o, ho, hend⟩ := main_call hmain hm' hread hstep
      obtain ⟨due', rfl, hdue'⟩ : ∃ due', m' = .serving due' ∧
          (due' = true → (host.effect w (pollCall ctrl c) r').ctrl.kernel.queue ≠ []) := by
        cases c with
        | wpaCtrlPending =>
          cases due with
          | true => cases hm'
          | false =>
            have hdelivers := (answers_library hdrv hans).2
            refine ⟨r'.isSet, (Option.some.inj hm').symm, fun hset => ?_⟩
            have hfound := (Bool.and_eq_true_iff.mp hdelivers).2
            rw [hset] at hfound
            exact of_decide_eq_true hfound
        | wpaCtrlRecv len =>
          cases due with
          | false => cases hm'
          | true =>
            rw [MainDuty.step, if_pos (hcap len rfl)] at hm'
            exact ⟨false, (Option.some.inj hm').symm, fun h => Bool.noConfusion h⟩
        | _ => exact Bool.noConfusion hpoll
      obtain rfl := hend.resolve_right fun h => h.2
      exact ⟨_, ho, course_poll hcourse hpoll hcap hdue' hstep⟩
    · have hsame := main_of_ne ht (hapart.1 ▸ nofun) hstep
      refine ⟨_, hsame ▸ hmain, course_poll hcourse hpoll hcap (fun hdue => ?_) hstep⟩
      cases c with
      | wpaCtrlPending =>
        cases hcourse with
        | before hduty => exact (hduty _ rfl).elim
        | serving store ready => exact ready hdue
      | wpaCtrlRecv len => exact absurd ((hready len rfl).2.2 hdue) ht
      | _ => exact Bool.noConfusion hpoll
  have hnone : takenInto attachCap (pollCall ctrl c, r') = none :=
    takenInto_of_ne (len_of_poll hcap) (by decide)
  refine ⟨[], C₁, rfl, embeds_call h ?_ (received_poll hcap) ?_ (.inr hnone) hstep rfl hduty⟩
  · rw [hostCall_library hdrv, driverCall, if_pos hctrl]
  · rw [hnone, Option.toList_none, List.nil_append]
    exact queue_taken (len_of_poll hcap) hans

end CtrlRefinementLemmas

open CtrlRefinementLemmas

/-- What holds of the process with its library, and of the process whose calls of it are
single steps, in every run. -/
theorem host_links : host.Links world ctrlIface Embeds where
  text _ := rfl
  calm _ _ := rfl
  inside {ls us C tr w t c rs c' r'} h hw htr hne hans := by
    obtain ⟨hctrl, hsetup, hload⟩ := setup_of_inside htr hne
    have hdrv := drv_of_isSetup hsetup
    obtain ⟨duty, hmain, hcourse⟩ := h.duty
    have hpoll : ∀ due, duty = some (.serving due) → c.isPoll = true := by
      rintro due rfl
      exact poll_of_serving h.run hmain hw hctrl
    obtain ⟨hmessage, hqueue⟩ := queue_setup hsetup hans
    have hnone : ls.filterMap (takenBy messageCap) = [] ∨ takenInto attachCap (c', r') = none := by
      cases hcourse with
      | before _ _ _ _ received => exact .inl received
      | serving =>
        obtain rfl := hload (hpoll _ rfl)
        exact .inr rfl
    refine ⟨(effect_library w r' hdrv).2.2.1, h.run, ?_, ?_, arrived_call h hqueue hnone,
      h.listener, duty, hmain, course_inside hcourse hw htr hne hpoll⟩
    · rw [filterMap_concat, hostCall_library hdrv, Option.toList_none, List.append_nil]
      exact h.calls
    · rw [filterMap_concat, show takenBy messageCap (.call t c' r') = none from hmessage,
        Option.toList_none, List.append_nil]
      exact h.received
  final {ls us C tr w t c rs c' r' r} h hw htr hret hans := by
    cases hc : c.isCtrl with
    | false =>
      obtain ⟨hnil, rfl, hlast⟩ := trace_drv hc htr
      obtain rfl : r'.toAnswer = r := by
        rw [hlast] at hret
        exact Prog.ret.inj hret
      exact concludes_drv h hw hc hnil hans
    | true =>
      cases hpoll : c.isPoll with
      | false => exact concludes_setup h hw hc hpoll htr hret hans
      | true =>
        rcases trace_poll hpoll htr with ⟨-, -, hno⟩ | ⟨_, ctrl, -, -, rfl, hlast⟩
        · exact absurd hret (hno r)
        · obtain rfl : pollAnswer r' c = r := by
            rw [hlast] at hret
            exact Prog.ret.inj hret
          exact concludes_poll h hw hpoll hans
  outside {ls us C tr w e w'} h hout := by
    obtain ⟨duty, hmain, hcourse⟩ := h.duty
    obtain ⟨hqueue, es, C₂, hrun, hnext⟩ := course_outside hcourse hout
    have hsame := System.threads_of_outside hrun
    refine ⟨es, C₂, hrun, System.run_append_eq_some.mpr ⟨C, h.run, hrun⟩, ?_, ?_, ?_,
      hsame ▸ h.listener, duty, hsame ▸ hmain, hnext⟩
    · rw [filterMap_outside driverCall fun _ => rfl, filterMap_concat, h.calls]
      exact (List.append_nil _).symm
    · rw [filterMap_outside received fun _ => rfl, filterMap_concat, h.received]
      exact (List.append_nil _).symm
    · rw [filterMap_concat, filterMap_concat, filterMap_concat, h.arrived, hqueue]
      simp [takenBy]

theorem embeds_start : Embeds [] [] worldStart (fun _ => []) hostStart.store where
  run := rfl
  calls := rfl
  received := rfl
  arrived := rfl
  listener _ h := nomatch h
  duty := by
    refine ⟨some (.setup none none), ⟨rfl, rfl, keeps_mainDuties⟩,
      .before (fun m hm => ?_) ⟨_, rfl⟩ rfl ⟨rfl, rfl⟩ rfl (fun control attachStatus hd => ?_)
        fun control attachStatus hd => ?_⟩
    · obtain rfl := Option.some.inj hm
      trivial
    · cases hd
      rfl
    · cases hd
      exact ⟨[], ⟨fun _ m hm => absurd hm List.not_mem_nil, fun h => nomatch h⟩, rfl⟩

theorem linked_start (t : Thread) :
    LinkedThread ctrlIface (worldStart.threads t) [] (hostStart.threads t) := by
  cases t with
  | main => exact .running nofun .between
  | commandHandler => exact .absent
  | connectionListener => exact .absent

/-! ## 6. Runs -/

section Runs

variable {ls : List HostMove} {D : HostState}

/-- Every run of the process with its library is a run of the process whose calls of it are
single steps: the driver makes the same calls, gets the same answers and receives the
same messages, and its threads are where they are there, or inside a function. -/
theorem ctrl_refines (hrun : host.run hostStart ls = some D) :
    ∃ us C, ∃ tr : Thread → List (SysCall × SysAnswer), world.run worldStart us = some C ∧
      us.filterMap driverCall = ls.filterMap hostCall ∧
      us.filterMap received = ls.filterMap (takenBy messageCap) ∧
      (∀ t, LinkedThread ctrlIface (C.threads t) (tr t) (D.threads t)) ∧
      ∃ b events, C.store = D.store.world b events := by
  obtain ⟨us, C, tr, -, hthreads, h⟩ := host_links.run linked_start embeds_start hrun
  obtain ⟨duty, -, hcourse⟩ := h.duty
  exact ⟨us, C, tr, h.run, h.calls, h.received, hthreads, store_of_course hcourse⟩

/-- `main` attaches, while a scan is reported, and finds that a message is pending. -/
def sampleHostRun : List HostMove :=
  [.outside (.event (bytes "<3>CTRL-EVENT-SCAN-STARTED")), .outside (.event okReply),
    .outside (.event (bytes "<3>P2P-GO-NEG-REQUEST 02:00:00:00:00:01"))] ++
  ((linked (main .udp)).trace ({} :: sampleOpen ++ [{}, sampleLoad, { ret := 6 }, { isSet := true },
    { ret := 10, offer := bytes "<3>CTRL-EVENT-SCAN-STARTED" }, { isSet := true },
    { ret := 3, offer := okReply }, { handle := some 7 }, {}, {}, {}, {}, {}, {},
    { handle := some 7 }, {}, sampleLoad, { isSet := true }, sampleLoad])).map
      fun e => .call .main e.1 e.2

/-- It takes the message. -/
def sampleHostRecv : HostMove :=
  .call .main (.recv 3 messageCap)
    { ret := 39, offer := bytes "<3>P2P-GO-NEG-REQUEST 02:00:00:00:00:01" }

theorem sampleHostRun_refines : ∃ us C, world.run worldStart us = some C ∧
    us.filterMap received = [bytes "<3>P2P-GO-NEG-REQUEST 02:00:00:00:00:01"] := by
  have hrun : (host.run hostStart (sampleHostRun ++ [sampleHostRecv])).isSome = true := by
    decide +kernel
  obtain ⟨D, hD⟩ := Option.isSome_iff_exists.mp hrun
  obtain ⟨us, C, -, hC, -, hreceived, -⟩ := ctrl_refines hD
  exact ⟨us, C, hC, hreceived.trans (by decide +kernel)⟩

/-- The messages of the control interface are taken in the order they have arrived, none is
lost and none is taken twice: first by the library while it attaches, which takes its
reply and the unsolicited messages before it, and then for the driver. -/
theorem received_in_order (hrun : host.run hostStart ls = some D) :
    ls.filterMap arrival = ls.filterMap (takenBy attachCap) ++ ls.filterMap (takenBy messageCap) ++
        D.store.ctrl.kernel.queue ∧
      (ls.filterMap (takenBy messageCap) ≠ [] →
        ∃ skipped : List Bytes, (∀ m ∈ skipped, unsolicited m) ∧
          ls.filterMap (takenBy attachCap) = skipped ++ [okReply]) := by
  obtain ⟨us, C, tr, -, -, h⟩ := host_links.run linked_start embeds_start hrun
  refine ⟨h.arrived, fun hne => ?_⟩
  obtain ⟨duty, -, hcourse⟩ := h.duty
  cases hcourse with
  | before _ _ _ _ hnone => exact absurd hnone hne
  | serving _ _ taken => exact taken.2 rfl

theorem sampleHostRun_in_order : ∃ skipped : List Bytes, (∀ m ∈ skipped, unsolicited m) ∧
    List.filterMap (takenBy attachCap) (sampleHostRun ++ [sampleHostRecv]) =
      skipped ++ [okReply] := by
  have hrun : (host.run hostStart (sampleHostRun ++ [sampleHostRecv])).isSome = true := by
    decide +kernel
  obtain ⟨D, hD⟩ := Option.isSome_iff_exists.mp hrun
  exact (received_in_order hD).2 (by decide +kernel)

/-- Where a thread is about to receive a message, one waits in the socket. -/
theorem recv_finds_message (hrun : host.run hostStart ls = some D) {t : Thread}
    {s : Stack SysCall SysAnswer Signal} (hs : D.threads t = some s) {fd : Int}
    (hpend : s.running.pending = some (.recv fd messageCap)) : D.store.ctrl.kernel.queue ≠ [] := by
  obtain ⟨us, C, tr, -, hthreads, h⟩ := host_links.run linked_start embeds_start hrun
  have hthread := hthreads t
  rw [hs] at hthread
  obtain ⟨p, c, rs, hp, hc, htr, -⟩ := hthread.call hpend {}
  have hw : Waits C t c := ⟨p, hp, hc⟩
  have hctrl : c.isCtrl = true := by
    by_contra hno
    exact nomatch (trace_drv (by simpa using hno) htr).2.1
  have hpoll : c.isPoll = true := by
    by_contra hno
    have hlast : (SysCall.recv fd messageCap, ({} : SysAnswer)) ∈ (ctrlIface.text c).trace rs := by
      simp [htr]
    have hsetup := (only_text_setup hctrl (by simpa using hno)).of_mem_trace hlast
    exact absurd (len_of_isSetup hsetup fd messageCap rfl) (by decide)
  obtain ⟨duty, hmain, hcourse⟩ := h.duty
  obtain ⟨due, rfl⟩ := serving_of_poll h.run hmain hcourse hw hpoll
  cases c with
  | wpaCtrlRecv len => exact (recv_ready h hmain hcourse hw).2.1
  | wpaCtrlPending =>
    rcases trace_poll hpoll htr with ⟨-, hload, -⟩ | ⟨_, _, -, -, hselect, -⟩
    · cases hload
    · cases hselect
  | _ => exact Bool.noConfusion hpoll

theorem sampleHostRun_finds :
    ∃ D, host.run hostStart sampleHostRun = some D ∧ D.store.ctrl.kernel.queue ≠ [] := by
  have hend : (host.run hostStart sampleHostRun).any (fun D =>
      (D.threads .main).any fun s => s.running.pending == some (.recv 3 messageCap)) = true := by
    decide +kernel
  obtain ⟨D, hD, hthread⟩ := (Option.any_eq_true _ _).mp hend
  obtain ⟨s, hs, hpend⟩ := (Option.any_eq_true _ _).mp hthread
  exact ⟨D, hD, recv_finds_message hD hs (eq_of_beq hpend)⟩

end Runs

end P2pDriver
