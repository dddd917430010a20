import P2pDriver.CtrlIface
import P2pDriver.Process
import Mathlib.Data.Finset.Insert

/-!
# The operating system under the control interface

What the control interface leaves in the operating system: the structures that are
allocated, the descriptors and the socket files of the library, and the messages that
wait in the control socket. An access to something that is not there is noted. The
sockets of the driver itself are not in these books.

The operating system hands out no structure, descriptor or socket file that is in
use, and reads of a variable find what was stored there. That is all the books rely
on. What it delivers from the control socket is said apart.

Results:
1. `keeps_sys`: the rule for one call.
2. `Keeps.world`: a whole run.
-/

namespace P2pDriver

open Resumable Prog

/-! ## 1. The state of the operating system -/

/-- `INT_MAX`. -/
def intMax : Int := 2147483647

/-- What `++` makes of an `int`. The standard leaves it undefined behind `INT_MAX`: it
wraps around here, as the processor has it. -/
def intSucc (n : Int) : Int := if n = intMax then -intMax - 1 else n + 1

theorem intSucc_of_lt {n : Int} (h : n < intMax) : intSucc n = n + 1 := if_neg h.ne

theorem intSucc_sub_one {n : Int} (h : n ≤ intMax) : intSucc (n - 1) = n := by
  rw [intSucc_of_lt (Int.sub_one_lt_of_le h), Int.sub_add_cancel]

/-- What is held by the control interface. `opened` is the counter of `wpa_ctrl_open2`, and
`queue` holds the messages that wait in the control socket. -/
structure Kernel where
  structs : Handle → Option WpaCtrl := fun _ => none
  sockets : Finset Int := ∅
  files : Finset Bytes := ∅
  opened : Int := 1
  queue : List Bytes := []
  misused : Bool := false

namespace Kernel

/-- A call on a descriptor. -/
def touch (k : Kernel) (fd : Int) : Kernel :=
  { k with misused := k.misused || decide (fd ∉ k.sockets) }

/-- An access to a structure. -/
def reach (k : Kernel) (ptr : Handle) : Kernel :=
  { k with misused := k.misused || (k.structs ptr).isNone }

/-- The state after a call. -/
def effect (k : Kernel) : SysCall → SysAnswer → Kernel
  | .zalloc, r =>
    match r.handle with
    | none => k
    | some ptr => { k with structs := Function.update k.structs ptr (some ⟨ptr, 0, []⟩) }
  | .store ctrl, _ =>
    { k.reach ctrl.ptr with structs := Function.update k.structs ctrl.ptr (some ctrl) }
  | .free ptr, _ => { k.reach ptr with structs := Function.update k.structs ptr none }
  | .socket, r => if r.ret < 0 then k else { k with sockets := insert r.ret k.sockets }
  | .counter, _ => { k with opened := intSucc k.opened }
  | .bind fd path, r =>
    if r.ret < 0 then k.touch fd else { k.touch fd with files := insert path k.files }
  | .unlink path, _ => { k with files := k.files.erase path }
  | .close fd, _ => { k.touch fd with sockets := k.sockets.erase fd }
  | .connect fd _, _ | .getFlags fd, _ | .setFlags fd _, _ | .send fd _, _ | .select fd _, _ =>
    k.touch fd
  | .recv fd _, r => if r.ret < 0 then k.touch fd else { k.touch fd with queue := k.queue.tail }
  | _, _ => k

/-- Whether what a call accesses is there. -/
def provides (k : Kernel) : SysCall → Bool
  | .store ctrl => (k.structs ctrl.ptr).isSome
  | .free ptr => (k.structs ptr).isSome
  | .bind fd _ | .close fd | .connect fd _ | .getFlags fd | .setFlags fd _ | .send fd _
  | .select fd _ | .recv fd _ => fd ∈ k.sockets
  | _ => true

theorem touch_eq {k : Kernel} {fd : Int} (h : fd ∈ k.sockets) : k.touch fd = k := by
  simp [touch, h]

theorem reach_eq {k : Kernel} {ptr : Handle} (h : (k.structs ptr).isSome = true) :
    k.reach ptr = k := by
  rw [reach, Option.isNone_eq_false_iff.mpr h, Bool.or_false]

/-- An access to what is there is not noted. -/
theorem misused_effect {k : Kernel} {c : SysCall} (h : k.provides c = true) (r : SysAnswer) :
    (k.effect c r).misused = k.misused := by
  cases c with
  | store ctrl => simp only [effect, reach_eq h]
  | free ptr => simp only [effect, reach_eq h]
  | bind fd path => simp only [effect, touch_eq (of_decide_eq_true h)]; split <;> rfl
  | close fd => simp only [effect, touch_eq (of_decide_eq_true h)]
  | connect fd path => simp only [effect, touch_eq (of_decide_eq_true h)]
  | getFlags fd => simp only [effect, touch_eq (of_decide_eq_true h)]
  | setFlags fd flags => simp only [effect, touch_eq (of_decide_eq_true h)]
  | send fd cmd => simp only [effect, touch_eq (of_decide_eq_true h)]
  | select fd seconds => simp only [effect, touch_eq (of_decide_eq_true h)]
  | recv fd len => simp only [effect, touch_eq (of_decide_eq_true h)]; split <;> rfl
  | zalloc => simp only [effect]; split <;> rfl
  | socket => simp only [effect]; split <;> rfl
  | _ => rfl

/-- What is handed out is not in use. -/
def grants (k : Kernel) : SysCall → SysAnswer → Bool
  | .zalloc, r => r.handle.all fun ptr => (k.structs ptr).isNone
  | .socket, r => r.ret < 0 || r.ret ∉ k.sockets
  | .counter, r => r.ret = k.opened
  | .bind _ path, r => r.ret < 0 || path ∉ k.files
  | _, _ => true

/-- What the control socket delivers: a message is cut at the capacity of the buffer,
and a socket is readable only when a message waits. `select` is not interrupted. -/
def delivers (k : Kernel) : SysCall → SysAnswer → Bool
  | .select _ _, r => 0 ≤ r.ret && (!r.isSet || k.queue ≠ [])
  | .recv _ len, r => r.offer = k.queue.headD [] &&
      (r.ret < 0 || k.queue ≠ [] && r.ret = (min len r.offer.length : Nat))
  | _, _ => true

end Kernel

/-- The operating system, and the variables of the driver. -/
structure CtrlWorld where
  shared : Shared := {}
  kernel : Kernel := {}

namespace CtrlWorld

/-- The state after a call. -/
def effect (w : CtrlWorld) : SysCall → SysAnswer → CtrlWorld
  | .drv c, r => { w with shared := w.shared.effect c r.toAnswer }
  | c, r => { w with kernel := w.kernel.effect c r }

/-- The answers a call may get, whatever the control socket delivers. -/
def answers (w : CtrlWorld) : SysCall → SysAnswer → Bool
  | .drv c, r => w.shared.answers c r.toAnswer
  | .load, r => r.handle = w.shared.controlData &&
      r.ctrl = w.shared.controlData.bind w.kernel.structs
  | c, r => w.kernel.grants c r

theorem answers_load {w : CtrlWorld} {r : SysAnswer} : w.answers .load r = true ↔
    r.handle = w.shared.controlData ∧ r.ctrl = w.shared.controlData.bind w.kernel.structs := by
  simp only [answers, Bool.and_eq_true, decide_eq_true_eq]

end CtrlWorld

/-! ## 2. Programs over it -/

/-- The monitor that follows the state. No call reaches what is not there, and nothing
undefined is tolerated. -/
def ctrlSpec : Spec SysCall SysAnswer CtrlWorld where
  admits w c r := w.answers c r = true
  step w c r := if w.kernel.provides c then some (w.effect c r) else none
  faults _ := False

/-- Every answer of a run is one that may be given. -/
def Answered : CtrlWorld → List (SysCall × SysAnswer) → Prop
  | _, [] => True
  | w, (c, r) :: tr => w.answers c r = true ∧ Answered (w.effect c r) tr

/-- The state after a run. -/
def CtrlWorld.after (w : CtrlWorld) (tr : List (SysCall × SysAnswer)) : CtrlWorld :=
  tr.foldl (fun w e => w.effect e.1 e.2) w

instance decidableAnswered : (w : CtrlWorld) → (tr : List (SysCall × SysAnswer)) →
    Decidable (Answered w tr)
  | _, [] => isTrue trivial
  | w, (c, r) :: tr =>
    have := decidableAnswered (w.effect c r) tr
    inferInstanceAs (Decidable (w.answers c r = true ∧ Answered (w.effect c r) tr))

section Rules

variable {α : Type} {w w' : CtrlWorld} {Q : α → CtrlWorld → Prop}

theorem step_ctrl {c : SysCall} {r : SysAnswer} (h : ctrlSpec.step w c r = some w') :
    w' = w.effect c r ∧ w'.kernel.misused = w.kernel.misused := by
  simp only [ctrlSpec] at h
  split at h
  · rename_i hprovides
    obtain rfl := Option.some.inj h
    refine ⟨rfl, ?_⟩
    cases c with
    | drv c => rfl
    | _ => exact Kernel.misused_effect hprovides r
  · cases h

theorem keeps_sys {c : SysCall} {k : SysAnswer → Sys α} (hc : w.kernel.provides c = true)
    (h : ∀ r, w.answers c r = true → Keeps ctrlSpec (w.effect c r) (k r) Q) :
    Keeps ctrlSpec w (.call c k) Q :=
  keeps_call fun r hr => ⟨_, if_pos hc, h r hr⟩

theorem admits_of_answered {tr : List (SysCall × SysAnswer)} (h : Answered w tr) :
    ctrlSpec.Admits w tr := by
  induction tr generalizing w with
  | nil => trivial
  | cons e tr ih =>
    refine ⟨h.1, fun w' hw' => ?_⟩
    obtain ⟨rfl, -⟩ := step_ctrl hw'
    exact ih h.2

theorem exec_ctrl {tr : List (SysCall × SysAnswer)} (h : ctrlSpec.exec w tr = some w') :
    w' = w.after tr ∧ w'.kernel.misused = w.kernel.misused := by
  induction tr generalizing w with
  | nil =>
    obtain rfl := Option.some.inj h
    exact ⟨rfl, rfl⟩
  | cons e tr ih =>
    obtain ⟨w₁, hw₁, hrest⟩ := Option.bind_eq_some_iff.mp h
    obtain ⟨rfl, hmisused⟩ := step_ctrl hw₁
    obtain ⟨rfl, hsame⟩ := ih hrest
    exact ⟨rfl, hsame.trans hmisused⟩

/-- What a program is shown to leave, every run of it leaves. However far it has got, it has
accessed nothing that is not there. -/
theorem Keeps.world {p : Sys α} {rs : List SysAnswer} (h : Keeps ctrlSpec w p Q)
    (hrs : Answered w (p.trace rs)) :
    (p.after rs ≠ .fault) ∧ (w.after (p.trace rs)).kernel.misused = w.kernel.misused ∧
      ∀ a, p.after rs = .ret a → Q a (w.after (p.trace rs)) := by
  obtain ⟨w', hexec, hk⟩ := h.exec rs (admits_of_answered hrs)
  obtain ⟨rfl, hmisused⟩ := exec_ctrl hexec
  refine ⟨fun hfault => ?_, hmisused, fun a ha => ?_⟩
  · rw [hfault] at hk
    exact hk.faults
  · rw [ha] at hk
    exact hk.result

end Rules

end P2pDriver
