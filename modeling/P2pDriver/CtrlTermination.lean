import P2pDriver.CtrlSafety

/-!
# What a signal leaves behind

A signal handler disposes of the control interface and ends the process. While no session
thread runs only `main` uses the interface, and the handler runs on top of it, wherever in
the driver or in the library it was.

Results:
1. `keeps_signalCallbackHandler`: the handler gives back all that the control interface
   holds before `exit`.
2. `exit_releases`: so does every run in which a signal arrives while no session runs.
-/

namespace P2pDriver

open Resumable Prog CtrlRefinementLemmas CtrlSafetyLemmas

/-! ## 1. The signal handler -/

/-- The control interface holds no structure, no socket and no socket file, and
`control_data` is null. -/
def HoldsNothing (w : CtrlWorld) : Prop :=
  w.shared.controlData = none ∧ ∃ n q, w.kernel = { opened := n, queue := q }

def SysCall.exits : SysCall → Bool
  | .drv (.exit _) => true
  | _ => false

/-- The calls of a signal handler before `exit`. -/
def SysCall.disposes : SysCall → Bool
  | .drv (.exit _) => false
  | .drv c => c.isDisposal
  | _ => true

open Classical in
/-- The monitor of a signal handler. It may call `exit` when nothing is held, and is done
with it. -/
noncomputable def exitSpec : Spec SysCall SysAnswer (Option CtrlWorld) where
  admits m c r := ∀ w, m = some w → c.exits = false → w.answers c r = true
  step
    | some w, c, r =>
      if c.exits = true then if HoldsNothing w then some none else none
      else if c.disposes = true ∧ w.kernel.provides c = true then
        some (some (w.effect c r)) else none
    | none, _, _ => none
  faults _ := False

namespace CtrlTerminationLemmas

variable {w w' : CtrlWorld} {ctrl : WpaCtrl} {c : SysCall} {r : SysAnswer}

theorem exits_of_disposes (h : c.disposes = true) : c.exits = false := by
  cases c with
  | drv c => cases c <;> first | rfl | exact Bool.noConfusion h
  | _ => rfl

/-- What a signal handler may call: `exit`, or what is there. -/
theorem exit_step_cases {m : Option CtrlWorld} (h : exitSpec.step (some w) c r = some m) :
    (c.exits = true ∧ HoldsNothing w) ∨ (c.exits = false ∧ c.disposes = true ∧
      w.kernel.provides c = true ∧ m = some (w.effect c r)) := by
  unfold exitSpec at h
  dsimp only at h
  split at h
  · rename_i hexits
    split at h
    · rename_i hnothing
      exact .inl ⟨hexits, hnothing⟩
    · cases h
  · rename_i hexits
    split at h
    · rename_i hc
      exact .inr ⟨by simpa using hexits, hc.1, hc.2, (Option.some.inj h).symm⟩
    · cases h

/-- A program that keeps the books and does not call `exit`. -/
theorem keeps_exit {α : Type} {F : Prop} {p : Sys α} {Q : α → CtrlWorld → Prop}
    (h : Keeps ctrlSpec w p Q) (honly : Only SysCall.disposes F p) :
    Keeps exitSpec (some w) p fun a m => ∃ w', m = some w' ∧ Q a w' := by
  refine (Keeps.both (fun w _ m => m = some w) ?_ ?_ h honly rfl).mono ?_
  · rintro w _ _ c r rfl hans
    refine ⟨trivial, fun _ hdisposes => ?_⟩
    have hc : c.disposes = true := by
      by_contra hno
      rw [show (onlySpec SysAnswer SysCall.disposes F).step _ c _ = none from if_neg hno]
        at hdisposes
      cases hdisposes
    have hexits := exits_of_disposes hc
    refine ⟨hans w rfl hexits, fun w' hw' => ⟨some w', ?_, rfl⟩⟩
    simp only [ctrlSpec] at hw'
    split at hw'
    · rename_i hprovides
      simp [exitSpec, hexits, hc, hprovides, Option.some.inj hw']
    · cases hw'
  · rintro _ _ _ _ hf -
    exact hf.elim
  · rintro a m ⟨w', _, rfl, hQ, -⟩
    exact ⟨w', rfl, hQ⟩

/-- The calls of `dispose_p2p`. -/
def isDisposing (c : Call) : Bool := c.isDisposal && !(SysCall.drv c).exits

theorem only_linked_disposeP2p : Only SysCall.disposes True (linked disposeP2p) := by
  have honly : Only isDisposing False disposeP2p := by
    refine only_call rfl fun control => ?_
    simp only [ret_bind]
    split
    · exact only_ret _
    · exact only_call rfl fun _ => only_call rfl fun _ =>
        only_call rfl fun _ => only_call rfl fun _ => only_ret _
  refine Only.link False.elim (fun c hc => ?_) honly
  cases hctrl : c.isCtrl with
  | false =>
    rw [text_drv hctrl]
    refine only_call ?_ fun _ => only_ret _
    cases c <;> first | rfl | exact Bool.noConfusion hc
  | true =>
    have hpoll : c.isPoll = false := by cases c <;> first | rfl | exact Bool.noConfusion hc
    refine (only_text_setup hctrl hpoll).weaken (fun c' hc' => ?_) fun _ => trivial
    cases c' with
    | drv c => exact absurd rfl (drv_of_isSetup hc' c)
    | _ => rfl

/-- The handler gives back all that is held, and then calls `exit`. -/
theorem keeps_signalCallbackHandler (hw : Holds w ctrl) (signum : Signal) :
    Keeps exitSpec (some w) (linked (signalCallbackHandler signum)) fun _ m => m = none := by
  obtain ⟨hcontrol, hsocket, q, hkernel⟩ := hw
  let v : CtrlWorld := ⟨{ w.shared with controlData := none }, {}⟩
  have hv : w = v.attachedTo ctrl q := by
    obtain ⟨⟨control, _, _, _, _⟩, kernel⟩ := w
    dsimp only at hcontrol hkernel
    subst hkernel hcontrol
    rfl
  have hdispose : Keeps ctrlSpec w (linked disposeP2p) fun _ w' => Released v w' :=
    hv ▸ CtrlLemmas.keeps_disposeP2p ⟨rfl, hsocket, Finset.notMem_empty _⟩
      (Finset.notMem_empty _) rfl q
  rw [linked, signalCallbackHandler, bind_eq, link_bind]
  refine keeps_bind ((keeps_exit hdispose only_linked_disposeP2p).mono ?_)
  rintro _ _ ⟨w', rfl, hshared, n, q', hkernel'⟩
  have hnothing : HoldsNothing w' := ⟨congrArg Shared.controlData hshared, n, q', hkernel'⟩
  exact keeps_call fun r _ => ⟨none, if_pos hnothing, keeps_ret rfl⟩

end CtrlTerminationLemmas

/-! ## 2. The process with its signals -/

/-- The process, in which signals arrive that have been registered. -/
def interruptible : System SysCall SysAnswer Host Thread Signal Outside :=
  { host with delivers := fun h signum => signum ∈ h.ctrl.shared.registered }

/-- A signal arrives while no session thread runs, and no other is being handled. -/
def betweenSessions (D : HostState) : HostMove → Bool
  | .interrupt _ _ =>
    (D.threads .commandHandler).isNone && (D.threads .connectionListener).isNone &&
      (D.threads .main).all fun s => s.handlers.isEmpty
  | _ => true

/-- No signal has arrived, or `main` is in its handler. -/
inductive Interrupted (D : HostState) : Prop where
  | running (sound : Sound D)
  | handling {base p : Sys Unit} {signum : Signal} {w : CtrlWorld}
      (main : D.threads .main = some ⟨base, [(signum, p)]⟩)
      (handler : Keeps exitSpec (some w) p fun _ m => m = none)
      (follows : D.store.ctrl.still = w.still) (proper : w.kernel.misused = false)
      (alone : D.threads .commandHandler = none ∧ D.threads .connectionListener = none)

namespace CtrlTerminationLemmas

variable {D D' : HostState} {l : HostMove}

theorem holdsNothing_still {w w' : CtrlWorld} (h : w.still = w'.still) (hw : HoldsNothing w) :
    HoldsNothing w' := by
  obtain ⟨hcontrol, n, q, hkernel⟩ := hw
  obtain ⟨hsame, hqueue⟩ := eq_of_still h
  refine ⟨hsame ▸ hcontrol, n, w'.kernel.queue, ?_⟩
  rw [hqueue, hkernel]

theorem misused_still {w w' : CtrlWorld} (h : w.still = w'.still) :
    w'.kernel.misused = w.kernel.misused := by
  obtain ⟨-, hqueue⟩ := eq_of_still h
  rw [hqueue]

/-- A signal arrives at `main`, which holds the interface or has registered no signal. -/
theorem interrupted_interrupt {t : Thread} {signum : Signal} (h : Sound D)
    (hguard : betweenSessions D (.interrupt t signum) = true)
    (hstep : interruptible.step D (.interrupt t signum) = some D') : Interrupted D' := by
  obtain ⟨s, hs, hdelivers, -, rfl⟩ := System.step_interrupt hstep
  have hregistered : signum ∈ D.store.ctrl.shared.registered := of_decide_eq_true hdelivers
  simp only [betweenSessions, Bool.and_eq_true, Option.isNone_iff_eq_none] at hguard
  obtain ⟨alone, -⟩ := hguard
  obtain rfl : t = .main := by
    cases t with
    | main => rfl
    | commandHandler => cases alone.1.symm.trans hs
    | connectionListener => cases alone.2.symm.trans hs
  cases h with
  | setup main follows proper unregistered _ =>
    rw [← (eq_of_still follows).1, unregistered] at hregistered
    cases hregistered
  | ended main _ released => cases main.symm.trans hs
  | serving main sessions holds =>
    have hsound := misused_of_sound (.serving main sessions holds)
    rw [hs] at main
    have hmain : Function.update D.threads .main (some { s with handlers :=
        (signum, interruptible.handler signum) :: s.handlers }) .main =
          some ⟨s.base, [(signum, linked (signalCallbackHandler signum))]⟩ := by
      rw [Function.update_self, main.1]
      rfl
    refine .handling hmain (keeps_signalCallbackHandler holds signum) rfl hsound ⟨?_, ?_⟩
    · simpa using alone.1
    · simpa using alone.2

/-- A call of the handler. -/
theorem interrupted_call {base p : Sys Unit} {signum : Signal} {w : CtrlWorld} {t : Thread}
    {c : SysCall} {r : SysAnswer} (main : D.threads .main = some ⟨base, [(signum, p)]⟩)
    (handler : Keeps exitSpec (some w) p fun _ m => m = none)
    (follows : D.store.ctrl.still = w.still) (proper : w.kernel.misused = false)
    (alone : D.threads .commandHandler = none ∧ D.threads .connectionListener = none)
    (hstep : interruptible.step D (.call t c r) = some D') : Interrupted D' := by
  obtain ⟨s, hs, hpend, hans, -, rfl⟩ := System.step_call hstep
  obtain rfl : t = .main := by
    cases t with
    | main => rfl
    | commandHandler => cases alone.1.symm.trans hs
    | connectionListener => cases alone.2.symm.trans hs
  obtain rfl : s = ⟨base, [(signum, p)]⟩ := Option.some.inj (hs.symm.trans main)
  have hanswers : w.answers c r = true := (answers_still follows).symm.trans (ctrl_answers hans)
  obtain ⟨m', hm', hnext⟩ :=
    handler.resume hpend (r := r) fun w' hw' _ => Option.some.inj hw' ▸ hanswers
  rcases exit_step_cases hm' with ⟨hexits, -⟩ | ⟨-, hdisposes, hprovides, rfl⟩
  · -- `exit` does not return
    cases c with
    | drv c => cases c <;> first | exact Bool.noConfusion hexits | exact Bool.noConfusion hanswers
    | _ => cases hexits
  · have hret : (p.resume r).returned = false := by
      cases hp : p.resume r with
      | ret u =>
        rw [hp] at hnext
        cases hnext.result
      | _ => rfl
    have hspawns : interruptible.spawns c = none := by
      cases c with
      | drv c => cases c <;> first | rfl | exact Bool.noConfusion hdisposes
      | _ => rfl
    have hothers : ∀ u, u ≠ .main →
        interruptible.threadsAfter D.threads .main ⟨base, [(signum, p)]⟩ c r u =
          D.threads u := fun u hu => by
      rw [System.threadsAfter_of_ne hu, hspawns, if_neg (Option.some_ne_none u).symm]
    have hmain : interruptible.threadsAfter D.threads .main ⟨base, [(signum, p)]⟩ c r .main =
        some ⟨base, [(signum, p.resume r)]⟩ := by
      rw [System.threadsAfter_self, Stack.resume]
      simp [hret]
    refine .handling hmain hnext ?_ ?_ ⟨?_, ?_⟩
    · exact (congrArg CtrlWorld.still ctrl_effect).trans (effect_still follows)
    · rw [← proper]
      cases c with
      | drv c => rfl
      | _ => exact Kernel.misused_effect hprovides r
    · exact (hothers _ (by decide)).trans alone.1
    · exact (hothers _ (by decide)).trans alone.2

theorem interrupted_step (h : Interrupted D) (hguard : betweenSessions D l = true)
    (hstep : interruptible.step D l = some D') : Interrupted D' := by
  cases h with
  | running sound =>
    cases l with
    | call t c r => exact .running (sound_step sound (l := .call t c r) hstep)
    | interrupt t signum => exact interrupted_interrupt sound hguard hstep
    | outside e => exact .running (sound_step sound (l := .outside e) hstep)
  | handling main handler follows proper alone =>
    cases l with
    | call t c r => exact interrupted_call main handler follows proper alone hstep
    | interrupt t signum =>
      rw [betweenSessions, main] at hguard
      simp at hguard
    | outside e =>
      obtain ⟨store, hstore, rfl⟩ := System.step_outside hstep
      exact .handling main handler ((still_of_outside hstore).symm.trans follows) proper alone

/-- Before a signal has arrived none is handled. -/
theorem handlers_of_sound {t : Thread} {s : Stack SysCall SysAnswer Signal} (h : Sound D)
    (hs : D.threads t = some s) : s.handlers = [] := by
  have hsession : D.threads .commandHandler = none ∧ D.threads .connectionListener = none →
      t = .main := by
    intro alone
    cases t with
    | main => rfl
    | commandHandler => cases alone.1.symm.trans hs
    | connectionListener => cases alone.2.symm.trans hs
  cases h with
  | setup main _ _ _ alone =>
    obtain rfl := hsession alone
    rw [hs] at main
    exact main.1
  | serving main sessions _ =>
    by_cases ht : t = .main
    · subst ht
      rw [hs] at main
      exact main.1
    · exact (sessions t ht s hs).1
  | ended main alone _ =>
    obtain rfl := hsession alone
    cases main.symm.trans hs

end CtrlTerminationLemmas

open CtrlTerminationLemmas

/-- In every run in which a signal arrives while no session thread runs, the control
interface accesses nothing that is not there, and a handler that has come to `exit` has
given back all that it held. -/
theorem exit_releases {ls : List HostMove} {D : HostState}
    (hrun : interruptible.run hostStart ls = some D)
    (hguard : interruptible.guarded betweenSessions hostStart ls = true) :
    D.store.ctrl.kernel.misused = false ∧ ∀ t s signum, D.threads t = some s → s.handlers ≠ [] →
      s.running.pending = some (.drv (.exit signum)) → HoldsNothing D.store.ctrl := by
  have h : Interrupted D := System.guarded_induction hrun hguard (.running sound_start)
    fun _ _ _ h hl hstep => interrupted_step h hl hstep
  cases h with
  | running sound =>
    exact ⟨misused_of_sound sound, fun t s signum hs hne _ =>
      absurd (handlers_of_sound sound hs) hne⟩
  | @handling base p signum w main handler follows proper alone =>
    refine ⟨(misused_still follows.symm).trans proper, fun t s signum' hs _ hpend => ?_⟩
    obtain rfl : t = .main := by
      cases t with
      | main => rfl
      | commandHandler => cases alone.1.symm.trans hs
      | connectionListener => cases alone.2.symm.trans hs
    obtain rfl : s = ⟨base, [(signum, p)]⟩ := Option.some.inj (hs.symm.trans main)
    obtain ⟨m', hm', -⟩ := handler.resume hpend (r := {}) fun w' _ hexits => Bool.noConfusion hexits
    obtain ⟨-, hnothing⟩ | ⟨hexits, -⟩ := exit_step_cases hm'
    · exact holdsNothing_still follows.symm hnothing
    · cases hexits

/-- `main` attaches and registers the signals. -/
def sampleRegistered : List SysAnswer :=
  sampleSetup.append ({ handle := some 7 } :: List.replicate 6 {})

/-- It is interrupted, and the handler comes to `exit`. -/
def sampleInterrupted : List HostMove :=
  [.outside (.event okReply)] ++
  ((linked (main .udp)).trace sampleRegistered).map (fun e => .call .main e.1 e.2) ++
  [.interrupt .main .SIGINT, .outside (.event (bytes "<3>X")), .outside (.event okReply)] ++
  ((linked (signalCallbackHandler .SIGINT)).trace
    [sampleLoad, sampleLoad, { ret := 6 }, { isSet := true }, { ret := 4, offer := bytes "<3>X" },
      { isSet := true }, { ret := 3, offer := okReply }, sampleLoad, {}, {}, {}, {}, {}]).map
    fun e => .call .main e.1 e.2

theorem sampleInterrupted_releases : ∃ D, interruptible.run hostStart sampleInterrupted = some D ∧
    HoldsNothing D.store.ctrl := by
  have hend : (interruptible.run hostStart sampleInterrupted).any (fun D =>
      (D.threads .main).any fun s =>
        !s.handlers.isEmpty && s.running.pending == some (.drv (.exit .SIGINT))) = true := by
    decide +kernel
  obtain ⟨D, hD, hthread⟩ := (Option.any_eq_true _ _).mp hend
  obtain ⟨s, hs, hexit⟩ := (Option.any_eq_true _ _).mp hthread
  obtain ⟨hhandles, hpend⟩ := Bool.and_eq_true_iff.mp hexit
  refine ⟨D, hD, (exit_releases hD (by decide +kernel)).2 .main s .SIGINT hs ?_ (eq_of_beq hpend)⟩
  intro hnil
  rw [hnil] at hhandles
  cases hhandles

end P2pDriver
