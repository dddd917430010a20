import P2pDriver.Driver
import P2pDriver.Library.Linking

/-!
# The control interface library

`wpa_ctrl.c` as it is built here, with a UNIX domain socket, and the helpers of
`os.h` and `os_unix.c` it uses. Its functions are programs over the calls of the
operating system. The driver is linked with them: where it calls a function of the
library, it runs the text of that function.

Results:
1. `osStrlcpy_eq`: what `os_strlcpy` copies, and what it returns.
2. `destPath_eq_none_iff`: which paths `wpa_ctrl_open` refuses.
3. `only_attachHelper`, `only_open2`, ..: the calls the functions make.
-/

namespace P2pDriver

open Resumable Prog

/-! ## 1. The operating system -/

/-- `errno`, as far as the library looks at it. `EWOULDBLOCK` is `EAGAIN`. -/
inductive Errno where
  | EAGAIN
  | EBUSY
  | EINTR
  | EADDRINUSE
  | other
deriving DecidableEq, Repr, Inhabited

/-- `struct os_reltime`. -/
structure OsReltime where
  sec : Int := 0
  usec : Int := 0
deriving DecidableEq, Repr, Inhabited

/-- `struct timespec`. -/
structure Timespec where
  sec : Int := 0
  nsec : Int := 0
deriving DecidableEq, Repr, Inhabited

/-- The clocks `os_get_reltime` reads. -/
inductive ClockId where
  | CLOCK_BOOTTIME
  | CLOCK_MONOTONIC
  | CLOCK_REALTIME
deriving DecidableEq, Repr, Inhabited

/-- `struct wpa_ctrl`: its address, the socket, and the text of `local.sun_path`. -/
structure WpaCtrl where
  ptr : Handle
  s : Int := 0
  localPath : Bytes := []
deriving DecidableEq, Repr, Inhabited

/-- The calls of the library, and those the driver makes itself. -/
inductive SysCall where
  | drv (c : Call)
  /-- Reading `control_data`, and the structure it points to. -/
  | load
  /-- Storing to the fields of a structure. -/
  | store (ctrl : WpaCtrl)
  | zalloc
  | free (ptr : Handle)
  | socket
  | getpid
  /-- `counter++` on the static counter of `wpa_ctrl_open2`. -/
  | counter
  | bind (fd : Int) (path : Bytes)
  | connect (fd : Int) (path : Bytes)
  | unlink (path : Bytes)
  | getFlags (fd : Int)
  | setFlags (fd : Int) (flags : Nat)
  | perror
  | close (fd : Int)
  | send (fd : Int) (cmd : Bytes)
  | select (fd : Int) (seconds : Nat)
  | recv (fd : Int) (len : Nat)
  /-- Reading the static `clock_id` of `os_get_reltime`, and storing to it. -/
  | clockId
  | setClockId (id : ClockId)
  | clockGettime (id : ClockId)
  | sleep (sec : Nat)
  | msgCb (msg : Bytes)
deriving DecidableEq, Repr

/-- An answer. `handle` is also the address `os_zalloc` returns, and `isSet` what
`FD_ISSET` reads after `select`. `unset` is what a structure holds that is not filled. -/
structure SysAnswer extends Answer where
  errno : Errno := .other
  ts : Timespec := {}
  clock : ClockId := .CLOCK_BOOTTIME
  unset : OsReltime := {}
  ctrl : Option WpaCtrl := none
deriving DecidableEq, Repr, Inhabited

abbrev Sys (α : Type) := Prog SysCall SysAnswer α

/-- A call whose answer is not used. -/
def invoke (c : SysCall) : Sys Unit := .call c fun _ => .ret ()

@[simp] theorem invoke_bind {β : Type} (c : SysCall) (f : Unit → Sys β) :
    (invoke c).bind f = .call c fun _ => f () := rfl

/-! ## 2. `os.h` and `os_unix.c` -/

def osReltimeSub (a b : OsReltime) : OsReltime :=
  if a.usec - b.usec < 0 then ⟨a.sec - b.sec - 1, a.usec - b.usec + 1000000⟩
  else ⟨a.sec - b.sec, a.usec - b.usec⟩

def osReltimeExpired (now ts : OsReltime) (timeoutSecs : Int) : Bool :=
  let age := osReltimeSub now ts
  age.sec > timeoutSecs || (age.sec == timeoutSecs && age.usec > 0)

/-- `os_get_reltime`: its value, and what is left in the structure of its caller, which
held `t`. A clock that fails is given up for good. -/
def osGetReltime (t : OsReltime) : Sys (Int × OsReltime) :=
  .forever do
    let clockId ← .ask .clockId
    let res ← .ask (.clockGettime clockId.clock)
    if res.ret = 0 then return some (0, ⟨res.ts.sec, res.ts.nsec / 1000⟩)
    else
      match clockId.clock with
      | .CLOCK_BOOTTIME =>
        invoke (.setClockId .CLOCK_MONOTONIC)
        return none
      | .CLOCK_MONOTONIC =>
        invoke (.setClockId .CLOCK_REALTIME)
        return none
      | .CLOCK_REALTIME => return some (-1, t)

def osSnprintfError (size : Nat) (res : Int) : Bool := res < 0 || res.toNat ≥ size

/-- The first loop of `os_strlcpy`, with `left` bytes of room: the bytes stored, and
the source behind them, unless the NUL at its end was reached. -/
def strlcpyLoop : Nat → Bytes → Bytes × Option Bytes
  | 0, src => ([], some src)
  | _ + 1, [] => ([], none)
  | left + 1, b :: src => (b :: (strlcpyLoop left src).1, (strlcpyLoop left src).2)

/-- `os_strlcpy`: the text stored to `dest`, and the length of `src`, which is what
was copied and what was then skipped. -/
def osStrlcpy (src : Bytes) (siz : Nat) : Bytes × Nat :=
  match strlcpyLoop (siz - 1) src with
  | (dest, none) => (dest, dest.length)
  | (dest, some rest) => (dest, dest.length + rest.length)

theorem strlcpyLoop_eq (left : Nat) (src : Bytes) : strlcpyLoop left src =
    (src.take left, if left ≤ src.length then some (src.drop left) else none) := by
  induction left generalizing src with
  | zero => simp [strlcpyLoop]
  | succ left ih =>
    cases src with
    | nil => simp [strlcpyLoop]
    | cons b src => simp [strlcpyLoop, ih]

theorem osStrlcpy_eq (src : Bytes) (siz : Nat) :
    osStrlcpy src siz = (src.take (siz - 1), src.length) := by
  rw [osStrlcpy, strlcpyLoop_eq]
  by_cases h : siz - 1 ≤ src.length
  · simp only [if_pos h, List.length_take, List.length_drop]
    congr
    omega
  · simp only [if_neg h, List.length_take]
    congr
    omega

/-! ## 3. `wpa_ctrl_open` and `wpa_ctrl_close` -/

/-- `sizeof` of `sun_path`. -/
def sunPathCap : Nat := 108

/-- `O_NONBLOCK`. -/
def nonblock : Nat := 2048

/-- The text `os_snprintf` is to write to `local.sun_path`. -/
def clientPath (cliPath : Option Bytes) (pid counter : Int) : Bytes :=
  let dir := match cliPath with
    | some dir => if dir.head? = some 47 then dir else bytes "/tmp"
    | none => bytes "/tmp"
  dir ++ bytes "/wpa_ctrl_" ++ bytes (toString pid) ++ bytes "-" ++ bytes (toString counter)

/-- The text stored to `dest.sun_path`. `none` is a path that does not fit. -/
def destPath (ctrlPath : Bytes) : Option Bytes :=
  if bytes "@abstract:" <+: ctrlPath then
    some (0 :: (osStrlcpy (ctrlPath.drop 10) (sunPathCap - 1)).1)
  else if (osStrlcpy ctrlPath sunPathCap).2 ≥ sunPathCap then none
  else some (osStrlcpy ctrlPath sunPathCap).1

/-- The `try_again` loop of `wpa_ctrl_open2`, with `n` tries left. -/
def bindLocal (ctrl : WpaCtrl) : Nat → Sys Bool
  | 0 => .ret false
  | n + 1 => .call (.bind ctrl.s ctrl.localPath) fun bound =>
    if bound.ret < 0 then
      if bound.errno = .EADDRINUSE ∧ n ≠ 0 then
        .call (.unlink ctrl.localPath) fun _ => bindLocal ctrl n
      else .ret false
    else .ret true

/-- The failing exits of `wpa_ctrl_open2`. -/
def abandon (ctrl : WpaCtrl) (unlinks : Bool) : Sys (Option WpaCtrl) := do
  invoke (.close ctrl.s)
  if unlinks then invoke (.unlink ctrl.localPath) else .ret ()
  invoke (.free ctrl.ptr)
  return none

/-- Making the socket non-blocking. An error is printed and otherwise ignored. -/
def setNonblocking (ctrl : WpaCtrl) : Sys Unit :=
  .call (.getFlags ctrl.s) fun flags =>
    if 0 ≤ flags.ret then
      .call (.setFlags ctrl.s (flags.ret.toNat ||| nonblock)) fun r =>
        if r.ret < 0 then invoke .perror else .ret ()
    else .ret ()

/-- `wpa_ctrl_open2` once its structure is filled. -/
def openFilled (ctrlPath : Bytes) (ctrl : WpaCtrl) : Sys (Option WpaCtrl) := do
  if ← bindLocal ctrl 2 then
    match destPath ctrlPath with
    | none => abandon ctrl false
    | some dest =>
      let connected ← .ask (.connect ctrl.s dest)
      if connected.ret < 0 then abandon ctrl true
      else
        setNonblocking ctrl
        return some ctrl
  else abandon ctrl false

/-- `wpa_ctrl_open2` once its structure is allocated. -/
def open2With (ctrlPath : Bytes) (cliPath : Option Bytes) (ptr : Handle) :
    Sys (Option WpaCtrl) := do
  let s ← .ask .socket
  invoke (.store ⟨ptr, s.ret, []⟩)
  if s.ret < 0 then
    invoke (.free ptr)
    return none
  else
    let counter ← .ask .counter
    let pid ← .ask .getpid
    let path := clientPath cliPath pid.ret counter.ret
    let ctrl : WpaCtrl := ⟨ptr, s.ret, path.take (sunPathCap - 1)⟩
    invoke (.store ctrl)
    if osSnprintfError sunPathCap path.length then abandon ctrl false
    else openFilled ctrlPath ctrl

def wpaCtrlOpen2 (ctrlPath : Bytes) (cliPath : Option Bytes) : Sys (Option WpaCtrl) := do
  let allocated ← .ask .zalloc
  match allocated.handle with
  | none => return none
  | some ptr => open2With ctrlPath cliPath ptr

def wpaCtrlClose (ctrl : WpaCtrl) : Sys Unit := do
  invoke (.unlink ctrl.localPath)
  if 0 ≤ ctrl.s then invoke (.close ctrl.s) else .ret ()
  invoke (.free ctrl.ptr)

theorem destPath_eq_none_iff {ctrlPath : Bytes} (h : ¬ bytes "@abstract:" <+: ctrlPath) :
    destPath ctrlPath = none ↔ sunPathCap ≤ ctrlPath.length := by
  rw [destPath, if_neg h, osStrlcpy_eq]
  simp

/-! ## 4. `wpa_ctrl_request` -/

/-- Whether a `send` has failed because the socket is busy. -/
def SysAnswer.busy (r : SysAnswer) : Bool := r.errno == .EAGAIN || r.errno == .EBUSY

/-- The rounds of `retry_send` in which `started_at` is not set: it is set by the
first reading of the clock that is not in its first second. -/
def firstSends (ctrl : WpaCtrl) (cmd : Bytes) : Sys (Bool ⊕ OsReltime) :=
  .forever do
    let sent ← .ask (.send ctrl.s cmd)
    if sent.ret < 0 then
      if sent.busy then
        let (_, startedAt) ← osGetReltime {}
        invoke (.sleep 1)
        return if startedAt.sec = 0 then none else some (.inr startedAt)
      else return some (.inl false)
    else return some (.inl true)

/-- The rounds of `retry_send` in which `started_at` is set. -/
def laterSends (ctrl : WpaCtrl) (cmd : Bytes) (startedAt : OsReltime) : Sys Bool :=
  .forever do
    let sent ← .ask (.send ctrl.s cmd)
    if sent.ret < 0 then
      if sent.busy then
        let (_, n) ← osGetReltime sent.unset
        if osReltimeExpired n startedAt 5 then return some false
        else
          invoke (.sleep 1)
          return none
      else return some false
    else return some true

def sendCommand (ctrl : WpaCtrl) (cmd : Bytes) : Sys Bool := do
  match ← firstSends ctrl cmd with
  | .inl sent => return sent
  | .inr startedAt => laterSends ctrl cmd startedAt

/-- Whether a message is one that `wpa_supplicant` sends unasked. -/
def unsolicited (reply : Bytes) : Bool := bytes "<" <+: reply || bytes "IFNAME=" <+: reply

theorem length_pos_of_unsolicited {reply : Bytes} (h : unsolicited reply = true) :
    0 < reply.length := by
  cases reply with
  | nil => exact absurd h (by decide)
  | cons b l => exact Nat.succ_pos _

/-- What `wpa_ctrl_request` leaves to its caller: its value, and the reply if it is 0. -/
structure Reply where
  ret : Int
  reply : Bytes := []
deriving DecidableEq, Repr

/-- Handing an unsolicited message to `msg_cb`, with a NUL behind it. -/
def report {cap : Nat} (d : Delivery cap) : Sys Unit := do
  let res := if d.bytes.length = cap then cap - 1 else d.bytes.length
  let buffer ← .ofOption (d.buffer.write res 0)
  invoke (.msgCb (buffer.cells.take res))

/-- The loop of `wpa_ctrl_request` that waits for the reply. -/
def awaitReply (ctrl : WpaCtrl) (replyLen : Nat) (msgCb : Bool) : Sys Reply :=
  .forever do
    let res ← .ask (.select ctrl.s 10)
    if res.ret < 0 then return if res.errno = .EINTR then none else some ⟨res.ret, []⟩
    else if res.isSet then
      let r ← .ask (.recv ctrl.s replyLen)
      if r.ret < 0 then return some ⟨r.ret, []⟩
      else
        let received := Delivery.ofOffer replyLen r.offer r.stale
        if unsolicited received.bytes then
          if msgCb then report received else .ret ()
          return none
        else return some ⟨0, received.bytes⟩
    else return some ⟨-2, []⟩

def wpaCtrlRequest (ctrl : WpaCtrl) (cmd : Bytes) (replyLen : Nat) (msgCb : Bool) : Sys Reply := do
  if ← sendCommand ctrl cmd then awaitReply ctrl replyLen msgCb
  else return ⟨-1, []⟩

/-! ## 5. The other functions -/

/-- `char buf[10]` of `wpa_ctrl_attach_helper`. -/
def attachCap : Nat := 10

def okReply : Bytes := bytes "OK\n"

def wpaCtrlAttachHelper (ctrl : WpaCtrl) (attach : Bool) : Sys Int := do
  let r ← wpaCtrlRequest ctrl (if attach then bytes "ATTACH" else bytes "DETACH") attachCap false
  return if r.ret < 0 then r.ret else if r.reply = okReply then 0 else -1

def wpaCtrlAttach (ctrl : WpaCtrl) : Sys Int := wpaCtrlAttachHelper ctrl true

def wpaCtrlDetach (ctrl : WpaCtrl) : Sys Int := wpaCtrlAttachHelper ctrl false

/-- `wpa_ctrl_recv`, whose caller looks at the answer to its `recv`. -/
def wpaCtrlRecvFrom (ctrl : WpaCtrl) (replyLen : Nat) : Sys Answer :=
  .call (.recv ctrl.s replyLen) fun r => .ret r.toAnswer

def wpaCtrlPending (ctrl : WpaCtrl) : Sys Bool :=
  .call (.select ctrl.s 0) fun r => .ret r.isSet

/-! ## 6. The driver and the library -/

/-- A function of the library on `control_data`. A null pointer is dereferenced, as
is one to a structure that is not there. -/
def onControl (f : WpaCtrl → Sys Answer) (control : SysAnswer) : Sys Answer :=
  match control.ctrl with
  | none => .fault
  | some ctrl => f ctrl

/-- The library as the driver calls it. `wpa_ctrl_close` looks at its argument before
it dereferences it. -/
def ctrlIface : Linkage Call Answer SysCall SysAnswer where
  first
    | .wpaCtrlOpen _ => .zalloc
    | .wpaCtrlAttach | .wpaCtrlDetach | .wpaCtrlClose | .wpaCtrlPending | .wpaCtrlRecv _ => .load
    | c => .drv c
  rest
    | .wpaCtrlOpen path, allocated =>
      match allocated.handle with
      | none => .ret {}
      | some ptr => do
        let ctrl ← open2With path none ptr
        return { handle := ctrl.map WpaCtrl.ptr }
    | .wpaCtrlAttach, control =>
      onControl (fun ctrl => do return { ret := ← wpaCtrlAttach ctrl }) control
    | .wpaCtrlDetach, control =>
      onControl (fun ctrl => do return { ret := ← wpaCtrlDetach ctrl }) control
    | .wpaCtrlClose, control =>
      if control.handle = none then .ret {}
      else onControl (fun ctrl => do wpaCtrlClose ctrl; return {}) control
    | .wpaCtrlPending, control =>
      onControl (fun ctrl => do return { isSet := ← wpaCtrlPending ctrl }) control
    | .wpaCtrlRecv len, control => onControl (fun ctrl => wpaCtrlRecvFrom ctrl len) control
    | _, r => .ret r.toAnswer

/-- A program of the driver, linked with the library. -/
abbrev linked {α : Type} (p : Drv α) : Sys α := p.link ctrlIface

/-- `wpa_ctrl_open` is `wpa_ctrl_open2` without a path for the client. -/
theorem text_wpaCtrlOpen (path : Bytes) : ctrlIface.text (.wpaCtrlOpen path) =
    (wpaCtrlOpen2 path none).bind fun ctrl => .ret { handle := ctrl.map WpaCtrl.ptr } := by
  simp only [Linkage.text, ctrlIface, wpaCtrlOpen2, bind_eq, ask_bind, call_bind]
  congr
  funext allocated
  cases allocated.handle <;> rfl

/-! ## 7. Which calls they make -/

/-- The calls of `os_get_reltime`. -/
def SysCall.isClock : SysCall → Bool
  | .clockId | .setClockId _ | .clockGettime _ => true
  | _ => false

/-- The calls that acquire what a `wpa_ctrl` holds, or give it back. -/
def SysCall.isHolding : SysCall → Bool
  | .store _ | .zalloc | .free _ | .socket | .getpid | .counter | .bind _ _ | .connect _ _
  | .unlink _ | .getFlags _ | .setFlags _ _ | .perror | .close _ => true
  | _ => false

/-- The calls that wait on the socket `fd` for a reply of `len` bytes at most. -/
def SysCall.isReceive (fd : Int) (len : Nat) : SysCall → Bool
  | .select fd' _ => fd' = fd
  | .recv fd' len' => fd' = fd && len' = len
  | .msgCb _ => true
  | _ => false

/-- The calls of a request on the socket `fd`, with a reply of `len` bytes at most. -/
def SysCall.isRequest (fd : Int) (len : Nat) : SysCall → Bool
  | .send fd' _ => fd' = fd
  | .sleep _ => true
  | c => c.isClock || c.isReceive fd len

theorem SysCall.isRequest_of_isClock {c : SysCall} (h : c.isClock = true) (fd : Int) (len : Nat) :
    c.isRequest fd len = true := by
  cases c <;> first | rfl | exact nomatch h

theorem SysCall.isRequest_of_isReceive {c : SysCall} {fd : Int} {len : Nat}
    (h : c.isReceive fd len = true) :
    c.isRequest fd len = true := by
  cases c <;> first | exact h | exact nomatch h

namespace CtrlIfaceLemmas

theorem only_osGetReltime {P : SysCall → Bool} {F : Prop} (hP : ∀ c, c.isClock = true → P c = true)
    (t : OsReltime) : Only P F (osGetReltime t) := by
  refine only_loop (hP _ rfl) (fun clockId => ?_) fun _ => only_ret _
  simp only [ret_bind]
  refine only_call (hP _ rfl) fun res => ?_
  simp only [ret_bind]
  split
  · exact only_ret _
  · split
    · exact only_call (hP _ rfl) fun _ => only_ret _
    · exact only_call (hP _ rfl) fun _ => only_ret _
    · exact only_ret _

section Holding

variable {ctrl : WpaCtrl} {P : SysCall → Bool} {F : Prop}
  (hP : ∀ c, c.isHolding = true → P c = true)
include hP

theorem only_bindLocal (n : Nat) : Only P F (bindLocal ctrl n) := by
  induction n with
  | zero => exact only_ret _
  | succ n ih =>
    refine only_call (hP _ rfl) fun bound => ?_
    split
    · split
      · exact only_call (hP _ rfl) fun _ => ih
      · exact only_ret _
    · exact only_ret _

theorem only_abandon (unlinks : Bool) : Only P F (abandon ctrl unlinks) := by
  have hfree : Only P F
      ((invoke (.free ctrl.ptr)).bind fun _ => .ret (none : Option WpaCtrl) : Sys _) :=
    only_call (hP _ rfl) fun _ => only_ret _
  refine only_call (hP _ rfl) fun _ => ?_
  simp only [ret_bind]
  split
  · exact only_call (hP _ rfl) fun _ => hfree
  · exact hfree

theorem only_setNonblocking : Only P F (setNonblocking ctrl) := by
  refine only_call (hP _ rfl) fun flags => ?_
  split
  · refine only_call (hP _ rfl) fun r => ?_
    split
    · exact only_call (hP _ rfl) fun _ => only_ret _
    · exact only_ret _
  · exact only_ret _

theorem only_openFilled (ctrlPath : Bytes) : Only P F (openFilled ctrlPath ctrl) := by
  refine only_bind (only_bindLocal hP 2) fun bound => ?_
  split
  · split
    · exact only_abandon hP false
    · refine only_call (hP _ rfl) fun connected => ?_
      simp only [ret_bind]
      split
      · exact only_abandon hP true
      · exact only_bind (only_setNonblocking hP) fun _ => only_ret _
  · exact only_abandon hP false

theorem only_open2With (ctrlPath : Bytes) (cliPath : Option Bytes) (ptr : Handle) :
    Only P F (open2With ctrlPath cliPath ptr) := by
  refine only_call (hP _ rfl) fun s => only_call (hP _ rfl) fun _ => ?_
  simp only [ret_bind]
  split
  · exact only_call (hP _ rfl) fun _ => only_ret _
  · refine only_call (hP _ rfl) fun counter => only_call (hP _ rfl) fun pid =>
      only_call (hP _ rfl) fun _ => ?_
    simp only [ret_bind]
    split
    · exact only_abandon hP false
    · exact only_openFilled hP ctrlPath

theorem only_wpaCtrlClose : Only P F (wpaCtrlClose ctrl) := by
  refine only_call (hP _ rfl) fun _ => ?_
  simp only [ret_bind]
  split
  · exact only_call (hP _ rfl) fun _ => only_call (hP _ rfl) fun _ => only_ret _
  · exact only_call (hP _ rfl) fun _ => only_ret _

end Holding

section Receive

variable {ctrl : WpaCtrl} {replyLen : Nat} {P : SysCall → Bool} {F : Prop}
  (hP : ∀ c, c.isReceive ctrl.s replyLen = true → P c = true)
include hP

/-- The NUL behind an unsolicited message is stored inside the buffer. -/
theorem only_report {cap : Nat} (d : Delivery cap) (h : unsolicited d.bytes = true) :
    Only P F (report d) := by
  have hpos := length_pos_of_unsolicited h
  have hfits := d.fits
  refine only_bind (only_ofOption fun hnone => ?_)
    fun buffer => only_call (hP _ rfl) fun _ => only_ret _
  rw [Buffer.write_eq_none_iff] at hnone
  split at hnone <;> omega

theorem only_awaitReply (msgCb : Bool) : Only P F (awaitReply ctrl replyLen msgCb) := by
  have honSocket : ∀ c, c = .select ctrl.s 10 ∨ c = .recv ctrl.s replyLen → P c = true := by
    rintro c (rfl | rfl) <;> exact hP _ (by simp [SysCall.isReceive])
  refine only_loop (honSocket _ (.inl rfl)) (fun res => ?_) fun _ => only_ret _
  simp only [ret_bind]
  split
  · exact only_ret _
  · split
    · refine only_call (honSocket _ (.inr rfl)) fun r => ?_
      simp only [ret_bind]
      split
      · exact only_ret _
      · split
        · rename_i hunsolicited
          split
          · exact only_bind (only_report hP _ hunsolicited) fun _ => only_ret _
          · exact only_ret _
        · exact only_ret _
    · exact only_ret _

end Receive

section Request

variable {ctrl : WpaCtrl} {replyLen : Nat} {P : SysCall → Bool} {F : Prop}
  (hP : ∀ c, c.isRequest ctrl.s replyLen = true → P c = true)
include hP

theorem only_firstSends (cmd : Bytes) : Only P F (firstSends ctrl cmd) := by
  refine only_loop (hP _ (by simp [SysCall.isRequest])) (fun sent => ?_) fun _ => only_ret _
  simp only [ret_bind]
  split
  · split
    · exact only_bind (only_osGetReltime (fun c hc => hP c (SysCall.isRequest_of_isClock hc _ _)) _)
        fun startedAt => only_call (hP _ rfl) fun _ => only_ret _
    · exact only_ret _
  · exact only_ret _

theorem only_laterSends (cmd : Bytes) (startedAt : OsReltime) :
    Only P F (laterSends ctrl cmd startedAt) := by
  refine only_loop (hP _ (by simp [SysCall.isRequest])) (fun sent => ?_) fun _ => only_ret _
  simp only [ret_bind]
  split
  · split
    · refine only_bind
        (only_osGetReltime (fun c hc => hP c (SysCall.isRequest_of_isClock hc _ _)) _) fun n => ?_
      split
      · exact only_ret _
      · exact only_call (hP _ rfl) fun _ => only_ret _
    · exact only_ret _
  · exact only_ret _

theorem only_sendCommand (cmd : Bytes) : Only P F (sendCommand ctrl cmd) := by
  refine only_bind (only_firstSends hP cmd) fun sent => ?_
  cases sent with
  | inl sent => exact only_ret _
  | inr startedAt => exact only_laterSends hP cmd startedAt

theorem only_wpaCtrlRequest (cmd : Bytes) (msgCb : Bool) :
    Only P F (wpaCtrlRequest ctrl cmd replyLen msgCb) := by
  refine only_bind (only_sendCommand hP cmd) fun sent => ?_
  split
  · exact only_awaitReply (fun c hc => hP c (SysCall.isRequest_of_isReceive hc)) msgCb
  · exact only_ret _

end Request

theorem only_wpaCtrlAttachHelper {ctrl : WpaCtrl} {P : SysCall → Bool} {F : Prop}
    (hP : ∀ c, c.isRequest ctrl.s attachCap = true → P c = true) (attach : Bool) :
    Only P F (wpaCtrlAttachHelper ctrl attach) :=
  only_bind (only_wpaCtrlRequest hP _ _) fun _ => only_ret _

end CtrlIfaceLemmas

end P2pDriver
