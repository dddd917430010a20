import P2pDriver.CtrlRefinement

/-!
# What the process does to its operating system

Until it is attached only `main` runs, and the books of `CtrlWorld` follow it. Then
three threads use the control interface at once, and none of them gives it back: each
of their calls finds the structure, its socket and its socket file where they are.

Results:
1. `keeps_mainStand`: what `main` does to the operating system.
2. `kernel_safe`: in every reachable state of the process the control interface has
   accessed nothing that is not there, and holds what `control_data` points to.
-/

namespace P2pDriver

open Resumable Prog DriverLemmas CtrlProcessLemmas CtrlRefinementLemmas

/-! ## 1. The monitor -/

/-- Where a thread stands: it follows the world alone, or it is one of those that use the
control interface that `ctrl` is. `starts`: whether it may start threads. -/
inductive Stand where
  | setup (w : CtrlWorld)
  | serving (ctrl : WpaCtrl) (starts : Bool)

/-- The calls of a thread that uses the control interface. -/
def SysCall.serves (ctrl : WpaCtrl) (starts : Bool) : SysCall → Bool
  | .drv c => c.isServing && (starts || (process.spawns c).isNone)
  | .load => true
  | .select fd _ | .recv fd _ => fd = ctrl.s
  | _ => false

/-- The driver is attached through `ctrl`, and holds nothing else. -/
def Attached (w : CtrlWorld) (ctrl : WpaCtrl) : Prop :=
  0 ≤ ctrl.s ∧ ∃ q, w = CtrlWorld.attachedTo {} ctrl q

open Classical in
/-- The monitor of a thread. `main` leaves the setup when it registers the first signal. -/
noncomputable def standSpec : Spec SysCall SysAnswer Stand where
  admits
    | .setup w, c, r => w.answers c r = true
    | .serving ctrl _, c, r => c = .load → r.ctrl = some ctrl ∧ r.handle = some ctrl.ptr
  step
    | .setup w, .drv (.signal _), _ =>
      if h : ∃ ctrl, Attached w ctrl then some (.serving h.choose true) else none
    | .setup _, .drv (.spawn _), _ => none
    | .setup w, c, r => if w.kernel.provides c then some (.setup (w.effect c r)) else none
    | .serving ctrl starts, c, _ =>
      if c.serves ctrl starts then some (.serving ctrl starts) else none
  faults
    | .setup _ => False
    | .serving _ _ => True

/-- Where `main` may return: it has not attached, and nothing is held. -/
def Stand.ended : Stand → Prop
  | setup w => Released {} w
  | serving _ _ => False

namespace CtrlSafetyLemmas

/-! ## 2. The threads while the driver is attached -/

section Serving

variable {ctrl : WpaCtrl} {starts : Bool}

theorem serving_stand_step {c : SysCall} (h : c.serves ctrl starts = true) (r : SysAnswer) :
    standSpec.step (.serving ctrl starts) c r = some (.serving ctrl starts) := if_pos h

/-- A call of the driver, or one of the functions with which it polls. -/
theorem keeps_text_serving {c : Call}
    (hc : c.isPoll = true ∨ c.isServing = true ∧ (starts = true ∨ process.spawns c = none)) :
    Keeps standSpec (.serving ctrl starts) (ctrlIface.text c)
      fun _ m => m = .serving ctrl starts := by
  rcases hc with hpoll | ⟨hserving, hstarts⟩
  · rw [text_poll hpoll]
    refine keeps_call fun load hload => ⟨_, serving_stand_step rfl load, ?_⟩
    simp only [onControl, (hload rfl).1]
    have hserves : (pollCall ctrl c).serves ctrl starts = true := by
      cases c <;> exact decide_eq_true rfl
    exact keeps_call fun r _ => ⟨_, serving_stand_step hserves r, keeps_ret rfl⟩
  · have hctrl : c.isCtrl = false := by
      cases c <;> first | rfl | exact Bool.noConfusion hserving
    have hserves : (SysCall.drv c).serves ctrl starts = true := by
      refine Bool.and_eq_true_iff.mpr ⟨hserving, ?_⟩
      rcases hstarts with rfl | hnone
      · rfl
      · rw [hnone]
        exact Bool.or_true _
    rw [text_drv hctrl]
    exact keeps_call fun r _ => ⟨_, serving_stand_step hserves r, keeps_ret rfl⟩

/-- A program of the driver whose monitor allows only such calls, in the states `I`. -/
theorem keeps_linked_serving {M α : Type} {S : Spec Call Answer M} (I : M → Prop)
    (hadmits : ∀ m c r, I m → S.admits m c r)
    (hstep : ∀ m c r m', I m → S.step m c r = some m' →
      I m' ∧ (c.isPoll = true ∨ c.isServing = true ∧ (starts = true ∨ process.spawns c = none)))
    {p : Drv α} {Q : α → M → Prop} {m : M} (h : Keeps S m p Q) (hm : I m) :
    Keeps standSpec (.serving ctrl starts) (linked p) fun a m' =>
      m' = .serving ctrl starts ∧ ∃ m, Q a m := by
  have htext : ∀ m m' c, (I m ∧ m' = Stand.serving ctrl starts) →
      (∀ r, S.admits m c r → ∃ m₁, S.step m c r = some m₁) →
      Keeps standSpec m' (ctrlIface.text c) fun r m₁' => S.admits m c r ∧
        ∀ m₁, S.step m c r = some m₁ → I m₁ ∧ m₁' = Stand.serving ctrl starts := by
    rintro m m' c ⟨hI, rfl⟩ hallowed
    obtain ⟨m₁, hm₁⟩ := hallowed {} (hadmits _ _ _ hI)
    refine (keeps_text_serving (hstep _ _ _ _ hI hm₁).2).mono fun r m₁' hm₁' => ?_
    exact ⟨hadmits _ _ _ hI, fun m₁ hm₁ => ⟨(hstep _ _ _ _ hI hm₁).1, hm₁'⟩⟩
  refine (Keeps.link (fun m m' => I m ∧ m' = .serving ctrl starts) htext
    (fun m m' hR _ => hR.2 ▸ trivial) h ⟨hm, rfl⟩).mono ?_
  rintro a m' ⟨m, ⟨-, rfl⟩, hQ⟩
  exact ⟨rfl, m, hQ⟩

end Serving

theorem keeps_listenForCommands_stand (ctrl : WpaCtrl) :
    Keeps standSpec (.serving ctrl false) (linked listenForCommands) fun _ _ => True := by
  have honly : Only Call.isCommandHandling True listenForCommands :=
    CommandHandlerLemmas.only_listenForCommands fun _ hc => hc
  refine (keeps_linked_serving (fun _ => True) (fun _ _ _ _ => trivial)
    (fun _ c _ _ _ hstep => ?_) honly trivial).mono fun _ _ _ => trivial
  have hc : c.isCommandHandling = true := by
    by_contra hno
    rw [show (onlySpec Answer Call.isCommandHandling True).step _ c _ = none from if_neg hno]
      at hstep
    cases hstep
  refine ⟨trivial, .inr ⟨?_, .inr (HandleLifecycleLemmas.spawns_of_isIdle
    (HandleLifecycleLemmas.isIdle_of_isCommandHandling hc))⟩⟩
  cases c <;> first | rfl | exact Bool.noConfusion hc

theorem keeps_connectedLoop_stand (ctrl : WpaCtrl) :
    Keeps standSpec (.serving ctrl false) (linked connectedLoop) fun _ _ => True := by
  refine (keeps_linked_serving (fun _ => True) (fun _ _ _ _ => trivial)
    (fun m c _ _ _ hstep => ⟨trivial, ?_⟩)
    HandleLifecycleLemmas.keeps_pollingPhases trivial).mono fun _ _ _ => trivial
  cases c <;> first | exact .inl rfl | exact .inr ⟨rfl, .inr rfl⟩ | cases m <;> cases hstep

/-! ## 3. `main` -/

theorem keeps_masterLoop_stand (ctrl : WpaCtrl) :
    Keeps standSpec (.serving ctrl true) (linked (masterLoop .udp)) fun _ _ => False := by
  refine (keeps_linked_serving (fun m => ∃ due, m = MainDuty.serving due) ?_ ?_
    (keeps_masterLoop_duty .udp) ⟨false, rfl⟩).mono fun _ _ h => h.2.elim fun _ hf => hf
  · rintro _ c r ⟨due, rfl⟩ control attachStatus h
    cases h
  · rintro _ c r m' ⟨due, rfl⟩ hstep
    cases due with
    | false =>
      cases c <;> first
        | exact ⟨⟨_, (Option.some.inj hstep).symm⟩, .inl rfl⟩
        | exact ⟨⟨_, (Option.some.inj hstep).symm⟩, .inr ⟨rfl, .inl rfl⟩⟩
        | cases hstep
    | true =>
      cases c with
      | wpaCtrlRecv len =>
        simp only [dutySpec, MainDuty.step] at hstep
        split at hstep
        · exact ⟨⟨_, (Option.some.inj hstep).symm⟩, .inl rfl⟩
        · cases hstep
      | _ => cases hstep

/-- The calls with which the driver sets up. -/
def isSettingUp : SysCall → Bool
  | .drv c => c.isSetup
  | _ => true

theorem only_linked_initAndAttachCtrl : Only isSettingUp True (linked initAndAttachCtrl) := by
  refine Only.link False.elim (fun c hc => ?_)
    (only_initAndAttachCtrl (P := Call.isSetup) fun _ hc => hc)
  cases hctrl : c.isCtrl with
  | false =>
    rw [text_drv hctrl]
    exact only_call hc fun _ => only_ret _
  | true =>
    have hpoll : c.isPoll = false := by cases c <;> first | rfl | exact Bool.noConfusion hc
    refine (only_text_setup hctrl hpoll).weaken (fun c' hc' => ?_) fun _ => trivial
    cases c' with
    | drv c => exact absurd rfl (drv_of_isSetup hc' c)
    | _ => rfl

theorem setup_stand_step {w : CtrlWorld} {c : SysCall} (hc : isSettingUp c = true) (r : SysAnswer) :
    standSpec.step (.setup w) c r =
      if w.kernel.provides c then some (.setup (w.effect c r)) else none := by
  cases c with
  | drv c => cases c <;> first | rfl | exact Bool.noConfusion hc
  | _ => rfl

theorem keeps_initAndAttachCtrl_stand :
    Keeps standSpec (.setup {}) (linked initAndAttachCtrl)
      fun _ m => ∃ w, m = .setup w ∧ Settled {} w := by
  have hctrl : Keeps ctrlSpec {} (linked initAndAttachCtrl) fun _ w => Settled {} w :=
    CtrlLemmas.keeps_initAndAttachCtrl rfl fun _ => Finset.notMem_empty _
  refine (Keeps.both (fun w _ m => m = Stand.setup w) ?_ ?_ hctrl
    only_linked_initAndAttachCtrl rfl).mono ?_
  · rintro w _ _ c r rfl hans
    refine ⟨trivial, fun _ honly => ⟨hans, fun w' hw' => ⟨.setup w', ?_, rfl⟩⟩⟩
    have hc : isSettingUp c = true := by
      by_contra hno
      rw [show (onlySpec SysAnswer isSettingUp True).step _ c _ = none from if_neg hno] at honly
      cases honly
    rw [setup_stand_step hc]
    simp only [ctrlSpec] at hw'
    split at hw'
    · rename_i hprovides
      rw [if_pos hprovides, Option.some.inj hw']
    · cases hw'
  · rintro _ _ _ _ hf -
    exact hf.elim
  · rintro _ m ⟨w, _, rfl, hsettled, -⟩
    exact ⟨w, rfl, hsettled⟩

/-- The registration of a signal, behind the first. -/
theorem keeps_served_stand {α : Type} {ctrl : WpaCtrl} {signum : Signal} {f : Answer → Drv α}
    {Q : α → Stand → Prop} (h : ∀ r, Keeps standSpec (.serving ctrl true) (linked (f r)) Q) :
    Keeps standSpec (.serving ctrl true) (linked (.call (.signal signum) f)) Q :=
  keeps_call fun r _ => ⟨_, serving_stand_step rfl r, h r.toAnswer⟩

theorem keeps_mainStand : Keeps standSpec (.setup {}) (linked ((main .udp).bind fun _ => .ret ()))
    fun _ m => m.ended := by
  rw [linked, link_bind, main, bind_eq, link_bind]
  refine keeps_bind (keeps_bind (keeps_initAndAttachCtrl_stand.mono ?_))
  rintro _ _ ⟨w, rfl, hsettled⟩
  refine keeps_call fun control (hread : w.answers _ control = true) => ⟨.setup w, ?_, ?_⟩
  · have hsame : w.effect (.drv .controlData) control = w := by
      simp only [CtrlWorld.effect, Shared.effect, Shared.assign, handleAccess, Books.record_apart]
    exact (setup_stand_step rfl control).trans (congrArg some (congrArg Stand.setup hsame))
  · have hcontrol : control.toAnswer.handle = w.shared.controlData := of_decide_eq_true hread
    change Keeps standSpec _ (link ctrlIface (if control.toAnswer.handle = none then .ret (-1) else
      initTerminationSignals.bind fun _ => masterLoop .udp)) _
    rcases hsettled with ⟨hshared, hkernel⟩ | ⟨ctrl, q, hfresh, -, rfl⟩
    · rw [if_pos (hcontrol.trans (congrArg Shared.controlData hshared))]
      exact keeps_ret (keeps_ret ⟨hshared, hkernel⟩)
    · have hsome : control.toAnswer.handle = some ctrl.ptr := hcontrol
      have hattached : ∃ ctrl', Attached (CtrlWorld.attachedTo {} ctrl q) ctrl' :=
        ⟨ctrl, hfresh.socket, q, rfl⟩
      rw [if_neg (by rw [hsome]; exact Option.some_ne_none _)]
      simp only [initTerminationSignals, bind_eq, perform_bind, call_bind]
      refine keeps_call fun _ _ => ⟨.serving hattached.choose true, dif_pos hattached, ?_⟩
      refine keeps_served_stand fun _ => keeps_served_stand fun _ => keeps_served_stand fun _ =>
        keeps_served_stand fun _ => keeps_served_stand fun _ => ?_
      exact (keeps_masterLoop_stand _).mono fun _ _ h => h.elim

end CtrlSafetyLemmas

/-! ## 4. The process -/

/-- The world without the messages that wait. -/
def CtrlWorld.still (w : CtrlWorld) : CtrlWorld := { w with kernel.queue := [] }

/-- `control_data` points to `ctrl`, and nothing else is held. -/
def Holds (w : CtrlWorld) (ctrl : WpaCtrl) : Prop :=
  w.shared.controlData = some ctrl.ptr ∧ 0 ≤ ctrl.s ∧
    ∃ q, w.kernel = ({ queue := q } : Kernel).holding ctrl {ctrl.localPath}

/-- The threads fit the operating system. -/
inductive Sound (D : HostState) : Prop where
  | setup {w : CtrlWorld}
    (main : Stack.At standSpec Stand.ended (D.threads .main) (some (.setup w)))
      (follows : D.store.ctrl.still = w.still) (proper : w.kernel.misused = false)
      (unregistered : w.shared.registered = [])
      (alone : D.threads .commandHandler = none ∧ D.threads .connectionListener = none)
  | serving {ctrl : WpaCtrl}
      (main : Stack.At standSpec Stand.ended (D.threads .main) (some (.serving ctrl true)))
      (sessions : ∀ t, t ≠ .main →
        Stack.Calm (fun p => Keeps standSpec (.serving ctrl false) p fun _ _ => True) (D.threads t))
      (holds : Holds D.store.ctrl ctrl)
  | ended (main : D.threads .main = none)
      (alone : D.threads .commandHandler = none ∧ D.threads .connectionListener = none)
      (released : Released {} D.store.ctrl)

namespace CtrlSafetyLemmas

section Still

variable {w w' : CtrlWorld} {c : SysCall} {r : SysAnswer}

theorem answers_still (h : w.still = w'.still) : w.answers c r = w'.answers c r := by
  have hstill : ∀ w : CtrlWorld, w.answers c r = w.still.answers c r := fun w => by cases c <;> rfl
  rw [hstill w, h, ← hstill w']

theorem effect_still (h : w.still = w'.still) : (w.effect c r).still = (w'.effect c r).still := by
  have hstill : ∀ w : CtrlWorld, (w.effect c r).still = (w.still.effect c r).still := fun w => by
    cases c with
    | zalloc => cases hr : r.handle <;> simp [CtrlWorld.effect, CtrlWorld.still, Kernel.effect, hr]
    | socket => simp only [CtrlWorld.effect, CtrlWorld.still, Kernel.effect]; split <;> rfl
    | bind fd path => simp only [CtrlWorld.effect, CtrlWorld.still, Kernel.effect]; split <;> rfl
    | recv fd len => simp only [CtrlWorld.effect, CtrlWorld.still, Kernel.effect]; split <;> rfl
    | _ => rfl
  rw [hstill w, h, ← hstill w']

/-- Worlds that differ in the messages that wait. -/
theorem eq_of_still (h : w.still = w'.still) :
    w'.shared = w.shared ∧ w'.kernel = { w.kernel with queue := w'.kernel.queue } := by
  have hshared := congrArg (fun w : CtrlWorld => w.shared) h
  have hkernel := congrArg (fun w₁ : CtrlWorld => { w₁.kernel with queue := w'.kernel.queue }) h
  exact ⟨hshared.symm, hkernel.symm⟩

theorem released_still (h : w.still = w'.still) (hw : Released {} w) : Released {} w' := by
  obtain ⟨hshared, n, q, hkernel⟩ := hw
  obtain ⟨hsame, hqueue⟩ := eq_of_still h
  refine ⟨hsame.trans hshared, n, w'.kernel.queue, ?_⟩
  rw [hqueue, hkernel]

theorem holds_still {ctrl : WpaCtrl} (h : w.still = w'.still) (hw : Holds w ctrl) :
    Holds w' ctrl := by
  obtain ⟨hcontrol, hsocket, q, hkernel⟩ := hw
  obtain ⟨hsame, hqueue⟩ := eq_of_still h
  refine ⟨hsame ▸ hcontrol, hsocket, w'.kernel.queue, ?_⟩
  rw [hqueue, hkernel]
  rfl

end Still

section Steps

variable {D D' : HostState} {h : Host} {w : CtrlWorld} {ctrl : WpaCtrl} {starts : Bool} {t : Thread}
  {c : SysCall} {r : SysAnswer} {m' : Stand}

theorem ctrl_answers (hans : host.answers h c r = true) : h.ctrl.answers c r = true := by
  by_cases hdrv : ∃ c₁, c = .drv c₁
  · obtain ⟨c₁, rfl⟩ := hdrv
    exact (Bool.and_eq_true_iff.mp hans).1
  · exact (answers_library (fun c₁ hc => hdrv ⟨c₁, hc⟩) hans).1

theorem ctrl_effect : (host.effect h c r).ctrl = h.ctrl.effect c r := by
  cases c <;> rfl

/-- What `main` calls while only it runs. -/
theorem setup_stand_cases (hm' : standSpec.step (.setup w) c r = some m') :
    host.spawns c = none ∧ ((∃ signum ctrl, c = .drv (.signal signum) ∧ Attached w ctrl ∧
        m' = .serving ctrl true) ∨
      w.kernel.provides c = true ∧ m' = .setup (w.effect c r) ∧
        (w.effect c r).shared.registered = w.shared.registered) := by
  by_cases hsignal : ∃ signum, c = .drv (.signal signum)
  · obtain ⟨signum, rfl⟩ := hsignal
    simp only [standSpec] at hm'
    split at hm'
    · rename_i hattached
      exact ⟨rfl, .inl ⟨signum, _, rfl, hattached.choose_spec, (Option.some.inj hm').symm⟩⟩
    · cases hm'
  · have hspawns : host.spawns c = none := by
      cases c with
      | drv c => cases c <;> first | rfl | cases hm'
      | _ => rfl
    have hstep : standSpec.step (.setup w) c r =
        if w.kernel.provides c then some (.setup (w.effect c r)) else none := by
      cases c with
      | drv c => cases c <;> first | rfl | exact absurd ⟨_, rfl⟩ hsignal | cases hm'
      | _ => rfl
    rw [hstep] at hm'
    split at hm'
    · rename_i hprovides
      refine ⟨hspawns, .inr ⟨hprovides, (Option.some.inj hm').symm, ?_⟩⟩
      cases c with
      | drv c => cases c <;> first | rfl | exact absurd ⟨_, rfl⟩ hsignal
      | _ => rfl
    · cases hm'

/-- A call of a thread that uses the control interface leaves it held. -/
theorem holds_effect (hw : Holds w ctrl) (hc : c.serves ctrl starts = true) (r : SysAnswer) :
    Holds (w.effect c r) ctrl := by
  obtain ⟨hcontrol, hsocket, q, hkernel⟩ := hw
  have htouch : ∀ q, (({ queue := q } : Kernel).holding ctrl {ctrl.localPath}).touch ctrl.s =
      ({ queue := q } : Kernel).holding ctrl {ctrl.localPath} := fun q => Kernel.touch_holding
  cases c with
  | drv c =>
    refine ⟨?_, hsocket, q, hkernel⟩
    have hserving : c.isServing = true := (Bool.and_eq_true_iff.mp hc).1
    cases c <;> first | exact hcontrol | exact Bool.noConfusion hserving
  | load => exact ⟨hcontrol, hsocket, q, hkernel⟩
  | select fd seconds =>
    obtain rfl : fd = ctrl.s := of_decide_eq_true hc
    refine ⟨hcontrol, hsocket, q, ?_⟩
    change w.kernel.touch ctrl.s = _
    rw [hkernel]
    exact htouch q
  | recv fd len =>
    obtain rfl : fd = ctrl.s := of_decide_eq_true hc
    refine ⟨hcontrol, hsocket, if r.ret < 0 then q else q.tail, ?_⟩
    simp only [CtrlWorld.effect, Kernel.effect, hkernel, htouch]
    split <;> rfl
  | _ => exact Bool.noConfusion hc

/-- What such a call reads of `control_data`. -/
theorem load_of_holds (hw : Holds w ctrl) (hans : w.answers c r = true) (hc : c = .load) :
    r.ctrl = some ctrl ∧ r.handle = some ctrl.ptr := by
  subst hc
  obtain ⟨hcontrol, -, q, hkernel⟩ := hw
  obtain ⟨hhandle, hload⟩ := CtrlWorld.answers_load.mp hans
  rw [hcontrol] at hhandle hload
  refine ⟨hload.trans ?_, hhandle⟩
  rw [hkernel]
  exact Function.update_self ..

theorem serving_stand_cases (hm' : standSpec.step (.serving ctrl starts) c r = some m') :
    c.serves ctrl starts = true ∧ m' = .serving ctrl starts := by
  simp only [standSpec] at hm'
  split at hm'
  · rename_i hserves
    exact ⟨hserves, (Option.some.inj hm').symm⟩
  · cases hm'

/-- A call while only `main` runs. -/
theorem sound_setup {m : CtrlWorld}
    (main : Stack.At standSpec Stand.ended (D.threads .main) (some (.setup m)))
    (follows : D.store.ctrl.still = m.still) (proper : m.kernel.misused = false)
    (unregistered : m.shared.registered = [])
    (alone : D.threads .commandHandler = none ∧ D.threads .connectionListener = none)
    (hstep : host.step D (.call t c r) = some D') : Sound D' := by
  obtain ⟨s, hs, hpend, hans, -, rfl⟩ := System.step_call hstep
  obtain rfl : t = .main := by
    cases t with
    | main => rfl
    | commandHandler => exact nomatch alone.1.symm.trans hs
    | connectionListener => exact nomatch alone.2.symm.trans hs
  rw [hs] at main
  have hadmits : m.answers c r = true := (answers_still follows).symm.trans (ctrl_answers hans)
  obtain ⟨m', o, hm', ho, hend⟩ := Stack.at_call main hpend (r := r) hadmits
  obtain ⟨hspawns, hcases⟩ := setup_stand_cases hm'
  have hothers : ∀ u, u ≠ .main → host.threadsAfter D.threads .main s c r u = D.threads u :=
      fun u hu => by
    rw [System.threadsAfter_of_ne hu, hspawns, if_neg (Option.some_ne_none u).symm]
  have halone : host.threadsAfter D.threads .main s c r .commandHandler = none ∧
      host.threadsAfter D.threads .main s c r .connectionListener = none :=
    ⟨(hothers _ (by decide)).trans alone.1, (hothers _ (by decide)).trans alone.2⟩
  rw [← System.threadsAfter_self (S := host) D.threads .main s c r] at ho
  have hstill : (host.effect D.store c r).ctrl.still = (m.effect c r).still :=
    (congrArg CtrlWorld.still ctrl_effect).trans (effect_still follows)
  rcases hcases with ⟨signum, ctrl, rfl, ⟨hsocket, q, rfl⟩, rfl⟩ | ⟨hprovides, rfl, hregistered⟩
  · -- the first signal is registered
    obtain rfl := hend.resolve_right fun h => h.2
    refine .serving ho (fun u hu y hy => ?_) ?_
    · dsimp only at hy
      rw [hothers u hu] at hy
      cases u with
      | main => exact absurd rfl hu
      | commandHandler => exact nomatch alone.1.symm.trans hy
      | connectionListener => exact nomatch alone.2.symm.trans hy
    · exact holds_still hstill.symm ⟨rfl, hsocket, q, rfl⟩
  · rcases hend with rfl | ⟨rfl, hended⟩
    · refine .setup ho hstill ?_ (hregistered.trans unregistered) halone
      rw [← proper]
      cases c with
      | drv c => rfl
      | _ => exact Kernel.misused_effect hprovides r
    · exact .ended (Stack.absent_of_at ho) halone (released_still hstill.symm hended)

/-- A call while the driver is attached. -/
theorem sound_serving
    (main : Stack.At standSpec Stand.ended (D.threads .main) (some (.serving ctrl true)))
    (sessions : ∀ t, t ≠ .main →
      Stack.Calm (fun p => Keeps standSpec (.serving ctrl false) p fun _ _ => True) (D.threads t))
    (holds : Holds D.store.ctrl ctrl) (hstep : host.step D (.call t c r) = some D') : Sound D' := by
  obtain ⟨s, hs, hpend, hans, -, rfl⟩ := System.step_call hstep
  have hload := load_of_holds holds (ctrl_answers hans)
  have hholds : ∀ {starts}, c.serves ctrl starts = true →
      Holds (host.effect D.store c r).ctrl ctrl := fun hc => by
    rw [ctrl_effect]
    exact holds_effect holds hc r
  by_cases ht : t = .main
  · subst ht
    rw [hs] at main
    obtain ⟨m', o, hm', ho, hend⟩ := Stack.at_call main hpend (r := r) hload
    obtain ⟨hserves, rfl⟩ := serving_stand_cases hm'
    obtain rfl := hend.resolve_right fun h => h.2
    refine .serving ?_ (fun u hu => ?_) (hholds hserves)
    · dsimp only
      rw [System.threadsAfter_self]
      exact ho
    · dsimp only
      rw [System.threadsAfter_of_ne hu]
      split
      · cases u with
        | main => exact absurd rfl hu
        | commandHandler => exact Stack.calm_start (keeps_listenForCommands_stand ctrl)
        | connectionListener => exact Stack.calm_start (keeps_connectedLoop_stand ctrl)
      · exact sessions u hu
  · obtain ⟨hnil, hk⟩ := sessions t ht s hs
    rw [Stack.running_of_nil hnil] at hpend
    obtain ⟨m', hm', hnext⟩ := hk.resume hpend (r := r) hload
    obtain ⟨hserves, rfl⟩ := serving_stand_cases hm'
    have hspawns : host.spawns c = none := by
      cases c with
      | drv c =>
        have hnone := (Bool.and_eq_true_iff.mp hserves).2
        cases c <;> first | rfl | exact Bool.noConfusion hnone
      | _ => rfl
    refine .serving ?_ (fun u hu => ?_) (hholds hserves)
    · dsimp only
      rw [System.threadsAfter_of_ne (Ne.symm ht), hspawns, if_neg (Option.some_ne_none _).symm]
      exact main
    · dsimp only
      by_cases hut : u = t
      · subst hut
        rw [System.threadsAfter_self]
        exact Stack.calm_resume hnil hnext
      · rw [System.threadsAfter_of_ne hut, hspawns, if_neg (Option.some_ne_none _).symm]
        exact sessions u hu

/-- What happens outside changes at most the messages that wait. -/
theorem still_of_outside {h' : Host} {e : Outside} (hout : host.outside h e = some h') :
    h.ctrl.still = h'.ctrl.still := by
  cases e with
  | event m =>
    obtain rfl := Option.some.inj hout
    rfl
  | _ =>
    obtain ⟨around, -, rfl⟩ := Option.map_eq_some_iff.mp hout
    rfl

end Steps

end CtrlSafetyLemmas

open CtrlSafetyLemmas

theorem sound_start : Sound hostStart :=
  .setup (w := {}) ⟨rfl, rfl, keeps_mainStand⟩ rfl rfl rfl ⟨rfl, rfl⟩

theorem sound_step {D D' : HostState} {l : HostMove} (h : Sound D)
    (hstep : host.step D l = some D') : Sound D' := by
  cases l with
  | call t c r =>
    cases h with
    | setup main follows proper unregistered alone =>
      exact sound_setup main follows proper unregistered alone hstep
    | serving main sessions holds => exact sound_serving main sessions holds hstep
    | ended main alone released =>
      obtain ⟨s, hs, -⟩ := System.step_call hstep
      cases t with
      | main => exact nomatch main.symm.trans hs
      | commandHandler => exact nomatch alone.1.symm.trans hs
      | connectionListener => exact nomatch alone.2.symm.trans hs
  | interrupt t signum =>
    obtain ⟨_, -, hdelivers, -, -⟩ := System.step_interrupt hstep
    exact Bool.noConfusion hdelivers
  | outside e =>
    obtain ⟨store, hstore, rfl⟩ := System.step_outside hstep
    have hstill := still_of_outside hstore
    cases h with
    | setup main follows proper unregistered alone =>
      exact .setup main (hstill.symm.trans follows) proper unregistered alone
    | serving main sessions holds => exact .serving main sessions (holds_still hstill holds)
    | ended main alone released => exact .ended main alone (released_still hstill released)

theorem misused_of_sound {D : HostState} (h : Sound D) : D.store.ctrl.kernel.misused = false := by
  cases h with
  | setup main follows proper unregistered alone =>
    obtain ⟨-, hqueue⟩ := eq_of_still follows.symm
    rw [hqueue]
    exact proper
  | serving main sessions holds =>
    obtain ⟨-, -, q, hkernel⟩ := holds
    rw [hkernel]
    rfl
  | ended main alone released =>
    obtain ⟨-, n, q, hkernel⟩ := released
    rw [hkernel]

/-- In every reachable state of the process the control interface has accessed nothing that
is not there. A `main` that has returned has given back all it has acquired of it, and
while a session runs the interface holds one structure, which `control_data` points to,
its socket and its socket file, and nothing else. -/
theorem kernel_safe {ls : List HostMove} {D : HostState} (hrun : host.run hostStart ls = some D) :
    D.store.ctrl.kernel.misused = false ∧ (D.threads .main = none → Released {} D.store.ctrl) ∧
      ((D.threads .commandHandler ≠ none ∨ D.threads .connectionListener ≠ none) →
        ∃ ctrl, Holds D.store.ctrl ctrl) := by
  have hsound : Sound D := System.run_induction hrun (P := fun _ D => Sound D) sound_start
    fun _ _ _ _ h hstep => sound_step h hstep
  refine ⟨misused_of_sound hsound, ?_⟩
  cases hsound with
  | setup main follows proper unregistered alone =>
    refine ⟨fun hnone => ?_, fun hsession => ?_⟩
    · rw [hnone] at main
      exact main.elim
    · exact (hsession.elim (fun h => h alone.1) fun h => h alone.2).elim
  | serving main sessions holds =>
    refine ⟨fun hnone => ?_, fun _ => ⟨_, holds⟩⟩
    rw [hnone] at main
    exact main.elim
  | ended main alone released =>
    exact ⟨fun _ => released,
      fun hsession => (hsession.elim (fun h => h alone.1) fun h => h alone.2).elim⟩

theorem sampleHostRun_safe :
    ∃ D, host.run hostStart sampleHostRun = some D ∧ D.store.ctrl.kernel.misused = false := by
  have hrun : (host.run hostStart sampleHostRun).isSome = true := by decide +kernel
  obtain ⟨D, hD⟩ := Option.isSome_iff_exists.mp hrun
  exact ⟨D, hD, (kernel_safe hD).1⟩

end P2pDriver
