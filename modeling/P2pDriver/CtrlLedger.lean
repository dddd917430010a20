import P2pDriver.CtrlWorld

/-!
# What the control interface holds

`wpa_ctrl_open2` acquires a structure, a socket and a socket file one after the
other, and has an exit behind each of them. `wpa_ctrl_close` gives them back. This
module keeps their books, for the library alone and for the driver linked with it.

Results:
1. `keeps_open2With`, `keeps_wpaCtrlClose`: the books of one function.
2. `open2_conserves`: on every path a failed `wpa_ctrl_open2` has given back all it
   acquired, but for the socket file when the path of the control interface is too long.
3. `setup_conserves`: `init_and_attach_ctrl` and `dispose_p2p`, linked with the library.
-/

namespace P2pDriver

open Resumable Prog

/-! ## 1. `wpa_ctrl_open2` -/

namespace Kernel

/-- The state while `ctrl` is held, with its socket, and `files` are the socket files. -/
def holding (k : Kernel) (ctrl : WpaCtrl) (files : Finset Bytes) : Kernel :=
  { k with structs := Function.update k.structs ctrl.ptr (some ctrl),
           sockets := insert ctrl.s k.sockets, opened := intSucc k.opened, files := files }

/-- The state when nothing is held any more. -/
def passed (k : Kernel) (files : Finset Bytes) : Kernel :=
  { k with opened := intSucc k.opened, files := files }

/-- The structure and the socket of `ctrl` are not in use. -/
structure Fresh (k : Kernel) (ctrl : WpaCtrl) : Prop where
  ptr : k.structs ctrl.ptr = none
  socket : 0 ≤ ctrl.s
  s : ctrl.s ∉ k.sockets

section Holding

variable {k : Kernel} {ctrl : WpaCtrl} {F : Finset Bytes}

@[simp] theorem touch_holding : (k.holding ctrl F).touch ctrl.s = k.holding ctrl F := by
  simp [touch, holding]

@[simp] theorem holding_files (F' : Finset Bytes) :
    { k.holding ctrl F with files := F' } = k.holding ctrl F' := rfl

@[simp] theorem files_holding : (k.holding ctrl F).files = F := rfl

@[simp] theorem files_passed : (k.passed F).files = F := rfl

theorem provides_socket : decide (ctrl.s ∈ (k.holding ctrl F).sockets) = true :=
  decide_eq_true (Finset.mem_insert_self _ _)

theorem provides_struct (r : SysAnswer) :
    (((k.holding ctrl F).effect (.close ctrl.s) r).structs ctrl.ptr).isSome = true := by
  simp [effect, holding, touch]

/-- Giving back the socket and the structure. -/
theorem release (h : k.Fresh ctrl) (r r' : SysAnswer) :
    ((k.holding ctrl F).effect (.close ctrl.s) r).effect (.free ctrl.ptr) r' = k.passed F := by
  simp [effect, reach, holding, touch, passed, Finset.erase_insert h.s, h.ptr]

end Holding

end Kernel

/-- A world with another kernel. -/
def CtrlWorld.at (w : CtrlWorld) (k : Kernel) : CtrlWorld := { w with kernel := k }

@[simp] theorem CtrlWorld.at_self (w : CtrlWorld) : w.at w.kernel = w := rfl

/-- What `wpa_ctrl_open2` leaves behind: a structure that is held, or nothing, but for a
socket file when the path to connect to does not fit. -/
def Opened (ctrlPath : Bytes) (cliPath : Option Bytes) (k : Kernel) : Option WpaCtrl → Kernel → Prop
  | some ctrl, k' => k.Fresh ctrl ∧ ctrl.localPath ∉ k.files ∧
      (∃ pid, ctrl.localPath = clientPath cliPath pid k.opened) ∧
      k' = k.holding ctrl (insert ctrl.localPath k.files)
  | none, k' => k' = k ∨ ∃ F, k' = k.passed F ∧
      (F = k.files ∨ destPath ctrlPath = none ∧
        ∃ pid, F = insert (clientPath cliPath pid k.opened) k.files)

namespace CtrlLemmas

variable {w : CtrlWorld} {k : Kernel} {ctrl : WpaCtrl} {F : Finset Bytes}

theorem keeps_abandon (h : k.Fresh ctrl) (unlinks : Bool) :
    Keeps ctrlSpec (w.at (k.holding ctrl F)) (abandon ctrl unlinks) fun o w' =>
      o = none ∧ w' = w.at (k.passed (if unlinks then F.erase ctrl.localPath else F)) := by
  simp only [abandon, bind_eq, invoke_bind]
  refine keeps_sys Kernel.provides_socket fun closed _ => ?_
  cases unlinks with
  | true =>
    refine keeps_sys rfl fun unlinked _ =>
      keeps_sys (Kernel.provides_struct (F := F) closed) fun freed _ => keeps_ret ⟨rfl, ?_⟩
    exact congrArg w.at (Kernel.release (F := F.erase ctrl.localPath) h closed freed)
  | false =>
    refine keeps_sys (Kernel.provides_struct closed) fun freed _ => keeps_ret ⟨rfl, ?_⟩
    exact congrArg w.at (Kernel.release h closed freed)

/-- The `try_again` loop leaves the socket file if and only if it has bound the socket. -/
theorem keeps_bindLocal (hF : ctrl.localPath ∉ F) (n : Nat) :
    Keeps ctrlSpec (w.at (k.holding ctrl F)) (bindLocal ctrl n) fun bound w' =>
      w' = w.at (k.holding ctrl (if bound then insert ctrl.localPath F else F)) := by
  induction n with
  | zero => exact keeps_ret rfl
  | succ n ih =>
    refine keeps_sys Kernel.provides_socket fun bound _ => ?_
    by_cases hbound : bound.ret < 0
    · have heffect : (w.at (k.holding ctrl F)).effect (.bind ctrl.s ctrl.localPath) bound =
          w.at (k.holding ctrl F) := by
        simp [CtrlWorld.effect, CtrlWorld.at, Kernel.effect, hbound]
      rw [if_pos hbound, heffect]
      split
      · -- the file of an earlier run is removed
        refine keeps_sys rfl fun unlinked _ => ?_
        have herase : (w.at (k.holding ctrl F)).effect (.unlink ctrl.localPath) unlinked =
            w.at (k.holding ctrl F) := by
          simp [CtrlWorld.effect, CtrlWorld.at, Kernel.effect, Finset.erase_eq_of_notMem hF]
        rw [herase]
        exact ih
      · exact keeps_ret rfl
    · rw [if_neg hbound]
      exact keeps_ret (by simp [CtrlWorld.effect, CtrlWorld.at, Kernel.effect, hbound])

theorem keeps_setNonblocking : Keeps ctrlSpec (w.at (k.holding ctrl F)) (setNonblocking ctrl)
    fun _ w' => w' = w.at (k.holding ctrl F) := by
  have htouch : ∀ r, (w.at (k.holding ctrl F)).effect (.getFlags ctrl.s) r =
      w.at (k.holding ctrl F) :=
    fun r => congrArg w.at Kernel.touch_holding
  refine keeps_sys Kernel.provides_socket fun flags _ => ?_
  rw [htouch]
  split
  · refine keeps_sys Kernel.provides_socket fun r _ => ?_
    rw [show (w.at (k.holding ctrl F)).effect (.setFlags ctrl.s _) r = w.at (k.holding ctrl F) from
      congrArg w.at Kernel.touch_holding]
    split
    · exact keeps_sys rfl fun _ _ => keeps_ret rfl
    · exact keeps_ret rfl
  · exact keeps_ret rfl

/-- The failing exits. -/
theorem opened_of_passed {ctrlPath : Bytes} {cliPath : Option Bytes} (hF : F = k.files ∨
    destPath ctrlPath = none ∧ ∃ pid, F = insert (clientPath cliPath pid k.opened) k.files) :
    Opened ctrlPath cliPath k none (k.passed F) :=
  .inr ⟨F, rfl, hF⟩

/-- What follows once the structure is filled. -/
theorem keeps_openFilled {ctrlPath : Bytes} {cliPath : Option Bytes} {pid : Int} (h : k.Fresh ctrl)
    (hpath : ctrl.localPath = clientPath cliPath pid k.opened) (hfree : ctrl.localPath ∉ k.files) :
    Keeps ctrlSpec (w.at (k.holding ctrl k.files)) (openFilled ctrlPath ctrl) fun o w' =>
      ∃ k', w' = w.at k' ∧ Opened ctrlPath cliPath k o k' := by
  simp only [openFilled, bind_eq, ask_bind]
  refine keeps_bind ((keeps_bindLocal hfree 2).mono fun bound w' hw' => ?_)
  subst hw'
  cases bound with
  | false =>
    refine (keeps_abandon h false).mono ?_
    rintro o w' ⟨ho, hw'⟩
    exact ⟨_, hw', ho ▸ opened_of_passed (.inl rfl)⟩
  | true =>
    simp only [if_true]
    cases hdest : destPath ctrlPath with
    | none =>
      refine (keeps_abandon h false).mono ?_
      rintro o w' ⟨ho, hw'⟩
      exact ⟨_, hw', ho ▸ opened_of_passed (.inr ⟨hdest, pid, congrArg (insert · k.files) hpath⟩)⟩
    | some dest =>
      refine keeps_sys Kernel.provides_socket fun connected _ => ?_
      have htouch : (w.at (k.holding ctrl (insert ctrl.localPath k.files))).effect
          (.connect ctrl.s dest) connected =
          w.at (k.holding ctrl (insert ctrl.localPath k.files)) :=
        congrArg w.at Kernel.touch_holding
      rw [htouch]
      split
      · refine (keeps_abandon h true).mono ?_
        rintro o w' ⟨ho, hw'⟩
        refine ⟨_, hw', ho ▸ opened_of_passed (.inl ?_)⟩
        exact Finset.erase_insert hfree
      · refine keeps_bind (keeps_setNonblocking.mono fun _ w' hw' => ?_)
        subst hw'
        exact keeps_ret ⟨_, rfl, h, hfree, ⟨pid, hpath⟩, rfl⟩

theorem keeps_open2With (ctrlPath : Bytes) (cliPath : Option Bytes) {ptr : Handle}
    (hptr : k.structs ptr = none) (hfree : ∀ pid, clientPath cliPath pid k.opened ∉ k.files) :
    Keeps ctrlSpec (w.at { k with structs := Function.update k.structs ptr (some ⟨ptr, 0, []⟩) })
      (open2With ctrlPath cliPath ptr)
      fun o w' => ∃ k', w' = w.at k' ∧ Opened ctrlPath cliPath k o k' := by
  simp only [open2With, bind_eq, ask_bind, invoke_bind]
  refine keeps_sys rfl fun s hs => keeps_sys ?_ fun cleared _ => ?_
  · simp [CtrlWorld.effect, CtrlWorld.at, Kernel.effect, Kernel.provides]
    split <;> simp
  by_cases hneg : s.ret < 0
  · rw [if_pos hneg]
    refine keeps_sys ?_ fun _ _ => keeps_ret ⟨k, ?_, .inl rfl⟩
    · simp [CtrlWorld.effect, CtrlWorld.at, Kernel.effect, Kernel.reach, Kernel.provides, hneg]
    have hnone : Function.update k.structs ptr none = k.structs :=
      Function.update_eq_self_iff.mpr hptr.symm
    simp [CtrlWorld.effect, CtrlWorld.at, Kernel.effect, Kernel.reach, hneg, hnone]
  · rw [if_neg hneg]
    refine keeps_sys rfl fun counter hcounter => keeps_sys rfl fun pid _ => ?_
    have hopened : counter.ret = k.opened := by
      simpa [CtrlWorld.effect, CtrlWorld.at, CtrlWorld.answers, Kernel.grants, Kernel.effect,
        Kernel.reach, hneg] using hcounter
    have hfresh : s.ret ∉ k.sockets := by
      simp only [CtrlWorld.at, CtrlWorld.answers, Kernel.grants, hneg, decide_false,
        Bool.false_or] at hs
      exact of_decide_eq_true hs
    rw [hopened]
    generalize hpath : clientPath cliPath pid.ret k.opened = path
    have hctrl : k.Fresh ⟨ptr, s.ret, path.take (sunPathCap - 1)⟩ :=
      ⟨hptr, Int.not_lt.mp hneg, hfresh⟩
    refine keeps_sys ?_ fun stored _ => ?_
    · simp [CtrlWorld.effect, CtrlWorld.at, Kernel.effect, Kernel.reach, Kernel.provides, hneg]
    have hstate :
        (((((w.at { k with structs := Function.update k.structs ptr (some ⟨ptr, 0, []⟩) }).effect
          .socket s).effect (.store ⟨ptr, s.ret, []⟩) cleared).effect .counter counter).effect
          .getpid pid).effect (.store ⟨ptr, s.ret, path.take (sunPathCap - 1)⟩) stored =
        w.at (k.holding ⟨ptr, s.ret, path.take (sunPathCap - 1)⟩ k.files) := by
      simp [CtrlWorld.effect, CtrlWorld.at, Kernel.effect, Kernel.reach, Kernel.holding, hneg]
    rw [hstate]
    split
    · refine (keeps_abandon hctrl false).mono ?_
      rintro o w' ⟨ho, hw'⟩
      exact ⟨_, hw', ho ▸ opened_of_passed (.inl rfl)⟩
    · -- the text was not cut
      rename_i hfits
      have hlt : path.length < sunPathCap := by
        simpa [osSnprintfError] using hfits
      have hname : path.take (sunPathCap - 1) = clientPath cliPath pid.ret k.opened := by
        rw [List.take_of_length_le (Nat.le_sub_one_of_lt hlt), hpath]
      exact keeps_openFilled hctrl hname (hname ▸ hfree pid.ret)

theorem keeps_wpaCtrlOpen2 (ctrlPath : Bytes) (cliPath : Option Bytes)
    (hfree : ∀ pid, clientPath cliPath pid k.opened ∉ k.files) :
    Keeps ctrlSpec (w.at k) (wpaCtrlOpen2 ctrlPath cliPath) fun o w' =>
      ∃ k', w' = w.at k' ∧ Opened ctrlPath cliPath k o k' := by
  simp only [wpaCtrlOpen2, bind_eq, ask_bind]
  refine keeps_sys rfl fun allocated hallocated => ?_
  cases hptr : allocated.handle with
  | none =>
    refine keeps_ret ⟨k, ?_, .inl rfl⟩
    simp [CtrlWorld.effect, CtrlWorld.at, Kernel.effect, hptr]
  | some ptr =>
    have hnone : k.structs ptr = none := by
      simpa [CtrlWorld.answers, CtrlWorld.at, Kernel.grants, hptr] using hallocated
    rw [show (w.at k).effect .zalloc allocated =
        w.at { k with structs := Function.update k.structs ptr (some ⟨ptr, 0, []⟩) } by
      simp [CtrlWorld.effect, CtrlWorld.at, Kernel.effect, hptr]]
    exact keeps_open2With ctrlPath cliPath hnone hfree

/-! ## 2. `wpa_ctrl_close` -/

theorem keeps_wpaCtrlClose (h : k.Fresh ctrl) (hfree : ctrl.localPath ∉ k.files) :
    Keeps ctrlSpec (w.at (k.holding ctrl (insert ctrl.localPath k.files))) (wpaCtrlClose ctrl)
      fun _ w' => w' = w.at (k.passed k.files) := by
  simp only [wpaCtrlClose, bind_eq, invoke_bind, if_pos h.socket]
  refine keeps_sys rfl fun unlinked _ => keeps_sys Kernel.provides_socket fun closed _ =>
    keeps_sys (Kernel.provides_struct closed) fun freed _ => keeps_ret ?_
  have hfiles : (insert ctrl.localPath k.files).erase ctrl.localPath = k.files :=
    Finset.erase_insert hfree
  have hunlink : (k.holding ctrl (insert ctrl.localPath k.files)).effect
      (.unlink ctrl.localPath) unlinked = k.holding ctrl k.files := by
    simp only [Kernel.effect, Kernel.files_holding, hfiles]
    rfl
  have hrelease := Kernel.release (F := k.files) h closed freed
  rw [← hunlink] at hrelease
  exact congrArg w.at hrelease

end CtrlLemmas

/-! ## 3. The driver linked with the library -/

/-- The world while the driver is attached through `ctrl`, and `q` waits in its socket. -/
def CtrlWorld.attachedTo (w : CtrlWorld) (ctrl : WpaCtrl) (q : List Bytes) : CtrlWorld :=
  ⟨{ w.shared with controlData := some ctrl.ptr },
    { w.kernel with queue := q }.holding ctrl (insert ctrl.localPath w.kernel.files)⟩

/-- Nothing more is held than before, and `control_data` is as it was. Messages may have
been taken. -/
def Released (w w' : CtrlWorld) : Prop :=
  w'.shared = w.shared ∧ ∃ n q, w'.kernel = { w.kernel with opened := n, queue := q }

/-- What `init_and_attach_ctrl` may leave: nothing, with `control_data` null, or a
structure that `control_data` points to, with its socket and its socket file. -/
def Settled (w w' : CtrlWorld) : Prop :=
  Released w w' ∨ ∃ ctrl q, w.kernel.Fresh ctrl ∧ ctrl.localPath ∉ w.kernel.files ∧
    w' = w.attachedTo ctrl q

namespace CtrlLemmas

variable {w : CtrlWorld} {k : Kernel} {ctrl : WpaCtrl} {F : Finset Bytes}

/-- A request leaves what is held alone, and may take messages. -/
theorem keeps_request {α : Type} {len : Nat} {p : Sys α}
    (h : Only (SysCall.isRequest ctrl.s len) False p) :
    Keeps ctrlSpec (w.at (k.holding ctrl F)) p fun _ w' =>
      ∃ q, w' = w.at ({ k with queue := q }.holding ctrl F) := by
  refine h.keeps_inv (fun w' => ∃ q, w' = w.at ({ k with queue := q }.holding ctrl F))
    ⟨k.queue, rfl⟩ ?_ fun hf => hf.elim
  rintro _ c r ⟨q, rfl⟩ hc -
  have htouch : ({ k with queue := q }.holding ctrl F).touch ctrl.s =
      { k with queue := q }.holding ctrl F :=
    Kernel.touch_holding
  cases c with
  | send fd _ =>
    obtain rfl : fd = ctrl.s := of_decide_eq_true hc
    exact ⟨_, if_pos Kernel.provides_socket, q, congrArg w.at htouch⟩
  | select fd _ =>
    obtain rfl : fd = ctrl.s := of_decide_eq_true hc
    exact ⟨_, if_pos Kernel.provides_socket, q, congrArg w.at htouch⟩
  | recv fd _ =>
    obtain rfl : fd = ctrl.s := of_decide_eq_true (Bool.and_eq_true_iff.mp hc).1
    refine ⟨_, if_pos Kernel.provides_socket, if r.ret < 0 then q else q.tail, ?_⟩
    simp only [CtrlWorld.effect, CtrlWorld.at, Kernel.effect, htouch]
    split <;> rfl
  | clockId => exact ⟨_, rfl, q, rfl⟩
  | setClockId _ => exact ⟨_, rfl, q, rfl⟩
  | clockGettime _ => exact ⟨_, rfl, q, rfl⟩
  | sleep _ => exact ⟨_, rfl, q, rfl⟩
  | msgCb _ => exact ⟨_, rfl, q, rfl⟩
  | _ => cases hc

/-- A function of the library on the structure that `control_data` points to. -/
theorem keeps_onControl {f : WpaCtrl → Sys Answer} {Q : Answer → CtrlWorld → Prop}
    (hcontrol : w.shared.controlData = some ctrl.ptr)
    (hctrl : w.kernel.structs ctrl.ptr = some ctrl) (h : Keeps ctrlSpec w (f ctrl) Q) :
    Keeps ctrlSpec w (.call .load fun control => onControl f control) Q := by
  refine keeps_sys rfl fun control hload => ?_
  have hsome : control.ctrl = some ctrl := by
    rw [(CtrlWorld.answers_load.mp hload).2, hcontrol]
    exact hctrl
  simp only [onControl, hsome]
  exact h

theorem structs_attachedTo (q : List Bytes) :
    (w.attachedTo ctrl q).kernel.structs ctrl.ptr = some ctrl :=
  Function.update_self ..

/-- `ATTACH` and `DETACH`. -/
theorem keeps_attachHelper (q : List Bytes) (attach : Bool) :
    Keeps ctrlSpec (w.attachedTo ctrl q) (wpaCtrlAttachHelper ctrl attach) fun _ w' =>
      ∃ q', w' = w.attachedTo ctrl q' :=
  keeps_request (w := ⟨{ w.shared with controlData := some ctrl.ptr }, w.kernel⟩)
    (k := { w.kernel with queue := q })
    (CtrlIfaceLemmas.only_wpaCtrlAttachHelper (fun _ hc => hc) attach)

theorem keeps_attachLoop (n : Nat) (q : List Bytes) :
    Keeps ctrlSpec (w.attachedTo ctrl q) (linked (attachLoop n)) fun _ w' =>
      ∃ q', w' = w.attachedTo ctrl q' := by
  induction n generalizing q with
  | zero => exact keeps_ret ⟨q, rfl⟩
  | succ n ih =>
    have hattach : Keeps ctrlSpec (w.attachedTo ctrl q) (ctrlIface.text .wpaCtrlAttach) fun _ w' =>
        ∃ q', w' = w.attachedTo ctrl q' :=
      keeps_onControl rfl (structs_attachedTo q)
        (keeps_bind ((keeps_attachHelper q true).mono fun _ _ hw' => keeps_ret hw'))
    rw [attachLoop, linked, link_call]
    refine keeps_bind (hattach.mono ?_)
    rintro attachStatus _ ⟨q', rfl⟩
    split
    · exact ih q'
    · exact keeps_ret ⟨q', rfl⟩

theorem keeps_text_close (h : w.kernel.Fresh ctrl) (hfree : ctrl.localPath ∉ w.kernel.files)
    (q : List Bytes) :
    Keeps ctrlSpec (w.attachedTo ctrl q) (ctrlIface.text .wpaCtrlClose) fun _ w' =>
      w' = ⟨{ w.shared with controlData := some ctrl.ptr },
        { w.kernel with queue := q }.passed w.kernel.files⟩ := by
  have hclose : Keeps ctrlSpec (w.attachedTo ctrl q) (wpaCtrlClose ctrl) fun _ w' =>
      w' = ⟨{ w.shared with controlData := some ctrl.ptr },
        { w.kernel with queue := q }.passed w.kernel.files⟩ :=
    keeps_wpaCtrlClose (w := ⟨{ w.shared with controlData := some ctrl.ptr }, w.kernel⟩)
      (k := { w.kernel with queue := q }) ⟨h.ptr, h.socket, h.s⟩ hfree
  refine keeps_sys (c := .load) rfl fun control hload => ?_
  obtain ⟨hhandle, hload⟩ := CtrlWorld.answers_load.mp hload
  have hctrl : control.ctrl = some ctrl := hload.trans (structs_attachedTo q)
  have hsome : control.handle = some ctrl.ptr := hhandle
  simp only [ctrlIface, hsome, onControl, hctrl, reduceCtorEq, if_false]
  exact keeps_bind (hclose.mono fun _ _ hw' => keeps_ret hw')

/-- Storing to `control_data`. -/
theorem keeps_setControlData {α : Type} {f : Answer → Drv α} {Q : α → CtrlWorld → Prop}
    {control : Option Handle}
    (h : ∀ r, Keeps ctrlSpec ⟨{ w.shared with controlData := control }, w.kernel⟩
      (linked (f r)) Q) :
    Keeps ctrlSpec w (linked (.call (.setControlData control) f)) Q := by
  refine keeps_sys (c := .drv (.setControlData control)) rfl fun r _ => ?_
  have hshared : w.effect (.drv (.setControlData control)) r =
      ⟨{ w.shared with controlData := control }, w.kernel⟩ := by
    simp only [CtrlWorld.effect, Shared.effect, Shared.assign, handleAccess, Books.record_apart]
  rw [hshared]
  exact h r.toAnswer

/-- Reading `control_data`. -/
theorem keeps_controlData {α : Type} {f : Answer → Drv α} {Q : α → CtrlWorld → Prop}
    (h : ∀ control : Answer, control.handle = w.shared.controlData →
      Keeps ctrlSpec w (linked (f control)) Q) :
    Keeps ctrlSpec w (linked (.call .controlData f)) Q := by
  refine keeps_sys (c := .drv .controlData) rfl fun control hread => ?_
  have hsame : w.effect (.drv .controlData) control = w := by
    simp only [CtrlWorld.effect, Shared.effect, Shared.assign, handleAccess, Books.record_apart]
  rw [hsame]
  exact h control.toAnswer (of_decide_eq_true hread)

theorem keeps_initAndAttachCtrl (hcontrol : w.shared.controlData = none)
    (hfree : ∀ pid, clientPath none pid w.kernel.opened ∉ w.kernel.files) :
    Keeps ctrlSpec w (linked initAndAttachCtrl) fun _ w' => Settled w w' := by
  have hshared : { w.shared with controlData := none } = w.shared := by rw [← hcontrol]
  have hdest : destPath controlPath ≠ none := by decide
  simp only [initAndAttachCtrl, bind_eq, ask_bind, perform_bind]
  refine keeps_controlData fun control hread => ?_
  rw [if_neg (not_not.mpr (hread.trans hcontrol)), linked, link_call, text_wpaCtrlOpen]
  refine keeps_bind (keeps_bind ((keeps_wpaCtrlOpen2 (w := w) controlPath none hfree).mono ?_))
  rintro (_ | ctrl) _ ⟨k', rfl, hopened⟩
  · -- nothing was opened
    refine keeps_ret (keeps_setControlData fun _ => ?_)
    refine keeps_ret (.inl ?_)
    obtain rfl | ⟨F, rfl, hF⟩ := hopened
    · exact ⟨hshared, _, _, rfl⟩
    · obtain rfl := hF.resolve_right fun h => hdest h.1
      exact ⟨hshared, _, w.kernel.queue, rfl⟩
  · obtain ⟨hfresh, hpath, -, rfl⟩ := hopened
    refine keeps_ret (keeps_setControlData fun _ => ?_)
    simp only [Option.map_some, reduceCtorEq, if_false, link_bind]
    refine keeps_bind ((keeps_attachLoop (w := w) _ w.kernel.queue).mono ?_)
    rintro attachStatus _ ⟨q, rfl⟩
    split
    · -- the driver is not attached, and closes
      rw [link_call]
      refine keeps_bind ((keeps_text_close hfresh hpath q).mono fun _ w' hw' => ?_)
      subst hw'
      refine keeps_setControlData fun _ => ?_
      exact keeps_ret (.inl ⟨hshared, _, q, rfl⟩)
    · exact keeps_ret (.inr ⟨ctrl, q, hfresh, hpath, rfl⟩)

theorem keeps_disposeP2p (h : w.kernel.Fresh ctrl) (hfree : ctrl.localPath ∉ w.kernel.files)
    (hcontrol : w.shared.controlData = none) (q : List Bytes) :
    Keeps ctrlSpec (w.attachedTo ctrl q) (linked disposeP2p) fun _ w' => Released w w' := by
  have hshared : { w.shared with controlData := none } = w.shared := by rw [← hcontrol]
  have hdetach : Keeps ctrlSpec (w.attachedTo ctrl q) (ctrlIface.text .wpaCtrlDetach) fun _ w' =>
      ∃ q', w' = w.attachedTo ctrl q' :=
    keeps_onControl rfl (structs_attachedTo q)
      (keeps_bind ((keeps_attachHelper q false).mono fun _ _ hw' => keeps_ret hw'))
  simp only [disposeP2p, bind_eq, ask_bind, perform_bind, system_bind]
  refine keeps_controlData fun control hread => ?_
  have hsome : control.handle = some ctrl.ptr := hread
  rw [if_neg (by rw [hsome]; exact Option.some_ne_none _), linked, link_call]
  refine keeps_bind (hdetach.mono ?_)
  rintro _ _ ⟨q', rfl⟩
  rw [link_call]
  refine keeps_bind ((keeps_text_close h hfree q').mono fun _ w' hw' => ?_)
  subst hw'
  refine keeps_sys (c := .drv (.system _)) rfl fun r _ => ?_
  refine keeps_setControlData fun _ => keeps_ret ⟨?_, _, q', rfl⟩
  simp only [CtrlWorld.effect, Shared.effect, Shared.assign, handleAccess, Books.record_apart]
  exact hshared

/-- `dispose_p2p` where there is nothing to dispose of. -/
theorem keeps_disposeP2p_null (hcontrol : w.shared.controlData = none) :
    Keeps ctrlSpec w (linked disposeP2p) fun _ w' => w' = w := by
  simp only [disposeP2p, bind_eq, ask_bind]
  refine keeps_controlData fun control hread => ?_
  rw [if_pos (hread.trans hcontrol)]
  exact keeps_ret rfl

end CtrlLemmas

/-- On every outcome of its calls, `wpa_ctrl_open2` accesses nothing that is not there, and
returns a structure that holds its socket and its socket file, or gives back all it has
acquired. A path of the control interface that is too long is the one thing that leaves
a file behind. -/
theorem open2_conserves (ctrlPath : Bytes) (cliPath : Option Bytes) {w : CtrlWorld}
    (hfree : ∀ pid, clientPath cliPath pid w.kernel.opened ∉ w.kernel.files) {rs : List SysAnswer}
    (hrs : Answered w ((wpaCtrlOpen2 ctrlPath cliPath).trace rs)) :
    (w.after ((wpaCtrlOpen2 ctrlPath cliPath).trace rs)).kernel.misused = w.kernel.misused ∧
      ∀ o, (wpaCtrlOpen2 ctrlPath cliPath).after rs = .ret o →
        (w.after ((wpaCtrlOpen2 ctrlPath cliPath).trace rs)).shared = w.shared ∧
          Opened ctrlPath cliPath w.kernel o
            (w.after ((wpaCtrlOpen2 ctrlPath cliPath).trace rs)).kernel := by
  obtain ⟨-, hmisused, hreturns⟩ :=
    Keeps.world (CtrlLemmas.keeps_wpaCtrlOpen2 (w := w) ctrlPath cliPath hfree) hrs
  refine ⟨hmisused, fun o hret => ?_⟩
  obtain ⟨k', hk', hopened⟩ := hreturns o hret
  rw [CtrlWorld.at_self] at hk'
  rw [hk']
  exact ⟨rfl, hopened⟩

/-- A `wpa_ctrl_open` that succeeds on its second `bind`: the file of an earlier run is in
the way of the first. -/
def sampleOpen : List SysAnswer :=
  [{ handle := some 7 }, { ret := 3 }, {}, { ret := 1 }, { ret := 250 }, {},
    { ret := -1, errno := .EADDRINUSE }, {}, {}, {}, { ret := 2 }, {}]

def sampleCtrl : WpaCtrl := ⟨7, 3, bytes "/tmp/wpa_ctrl_250-1"⟩

theorem sampleOpen_holds :
    (CtrlWorld.after {} ((wpaCtrlOpen2 controlPath none).trace sampleOpen)).shared = {} ∧
    Opened controlPath none {} (some sampleCtrl)
      (CtrlWorld.after {} ((wpaCtrlOpen2 controlPath none).trace sampleOpen)).kernel :=
  (open2_conserves controlPath none (fun _ => Finset.notMem_empty _) (by decide)).2 _ rfl

/-- `init_and_attach_ctrl`, linked with the library, on every outcome of the calls of the
library: nothing is accessed that is not there, and in the end `control_data` is null and
nothing is held, or it points to a structure that holds its socket and its socket file. -/
theorem setup_conserves {w : CtrlWorld} (hcontrol : w.shared.controlData = none)
    (hfree : ∀ pid, clientPath none pid w.kernel.opened ∉ w.kernel.files) {rs : List SysAnswer}
    (hrs : Answered w ((linked initAndAttachCtrl).trace rs)) :
    (linked initAndAttachCtrl).after rs ≠ .fault ∧
      (w.after ((linked initAndAttachCtrl).trace rs)).kernel.misused = w.kernel.misused ∧
      ∀ u, (linked initAndAttachCtrl).after rs = .ret u →
        Settled w (w.after ((linked initAndAttachCtrl).trace rs)) :=
  Keeps.world (CtrlLemmas.keeps_initAndAttachCtrl hcontrol hfree) hrs

/-- What a read of `control_data` finds after `sampleOpen`. -/
def sampleLoad : SysAnswer := { handle := some 7, ctrl := some sampleCtrl }

/-- Attaching after `sampleOpen`. -/
def sampleSetup : List SysAnswer :=
  {} :: sampleOpen ++
    [{}, sampleLoad, { ret := 6 }, { isSet := true }, { ret := 3, offer := okReply }]

theorem sampleSetup_settled :
    Settled {} (CtrlWorld.after {} ((linked initAndAttachCtrl).trace sampleSetup)) :=
  (setup_conserves rfl (fun _ => Finset.notMem_empty _) (by decide)).2.2 () rfl

/-- And `dispose_p2p` gives back all that is held. -/
theorem disposal_conserves {w : CtrlWorld} (hcontrol : w.shared.controlData = none)
    (hfree : ∀ pid, clientPath none pid w.kernel.opened ∉ w.kernel.files) {rs : List SysAnswer}
    (hrs : Answered w ((linked (initAndAttachCtrl.bind fun _ => disposeP2p)).trace rs)) :
    (linked (initAndAttachCtrl.bind fun _ => disposeP2p)).after rs ≠ .fault ∧
      (w.after ((linked (initAndAttachCtrl.bind fun _ => disposeP2p)).trace rs)).kernel.misused =
        w.kernel.misused ∧
      ∀ u, (linked (initAndAttachCtrl.bind fun _ => disposeP2p)).after rs = .ret u →
        Released w (w.after ((linked (initAndAttachCtrl.bind fun _ => disposeP2p)).trace rs)) := by
  refine Keeps.world ?_ hrs
  rw [linked, link_bind]
  refine keeps_bind ((CtrlLemmas.keeps_initAndAttachCtrl hcontrol hfree).mono ?_)
  rintro _ w' (⟨hshared, n, q, hkernel⟩ | ⟨ctrl, q, hfresh, hpath, rfl⟩)
  · refine (CtrlLemmas.keeps_disposeP2p_null (by rw [hshared, hcontrol])).mono fun _ w'' hw'' => ?_
    rw [hw'']
    exact ⟨hshared, n, q, hkernel⟩
  · exact CtrlLemmas.keeps_disposeP2p hfresh hpath hcontrol q

/-- Detaching while an event waits, and closing. -/
def sampleDisposal : List SysAnswer :=
  sampleSetup ++ [sampleLoad, sampleLoad, { ret := 6 }, { isSet := true },
    { ret := 4, offer := bytes "<3>X" }, { isSet := true }, { ret := 3, offer := okReply },
    sampleLoad, {}, {}, {}, {}, {}]

theorem sampleDisposal_released : Released {} (CtrlWorld.after {}
    ((linked (initAndAttachCtrl.bind fun _ => disposeP2p)).trace sampleDisposal)) :=
  (disposal_conserves rfl (fun _ => Finset.notMem_empty _) (by decide)).2.2 () rfl

end P2pDriver
