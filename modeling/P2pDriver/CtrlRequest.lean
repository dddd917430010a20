import P2pDriver.CtrlIface

/-!
# Requests on the control interface

`wpa_ctrl_request` sends a command on a socket that events come in on as well. It
tries again while the socket is busy, and passes over what it did not ask for.

Results:
1. `request_contract`: what every request has sent, taken from the socket and handed on
   when it returns, in that order.
2. `attachHelper_eq_zero_iff`: when the driver believes it is attached.
3. `retry_bounded`: on a clock that runs a command is tried at most eight times, and
   not given up before five seconds have passed.
-/

namespace P2pDriver

open Resumable Prog

/-! ## 1. What a request exchanges -/

/-- A command the socket accepted, a message taken from the socket into a buffer of `len`
bytes, and a message handed to `msg_cb`. -/
inductive Exchange where
  | sent (cmd : Bytes)
  | took (len : Nat) (msg : Bytes)
  | reported (msg : Bytes)
deriving DecidableEq, Repr

def exchange : SysCall × SysAnswer → Option Exchange
  | (.send _ cmd, r) => if r.ret < 0 then none else some (.sent cmd)
  | (.recv _ len, r) => if r.ret < 0 then none else some (.took len r.offer)
  | (.msgCb msg, _) => some (.reported msg)
  | _ => none

/-- Messages that are passed over: each is taken, and handed on if there is a `msg_cb`. -/
def passedOver (replyLen : Nat) (msgCb : Bool) (msgs : List Bytes) : List Exchange :=
  msgs.flatMap fun msg =>
    .took replyLen msg :: if msgCb then [.reported (msg.take (replyLen - 1))] else []

/-- What a request may have exchanged when it returns. It sees of a message what fits the
buffer. -/
inductive Requested (cmd : Bytes) (replyLen : Nat) (msgCb : Bool) :
    Reply → List Exchange → Prop where
  | unsent : Requested cmd replyLen msgCb ⟨-1, []⟩ []
  | unanswered {ret : Int} {skipped : List Bytes} (hret : ret < 0)
      (hskipped : ∀ m ∈ skipped, unsolicited (m.take replyLen)) :
      Requested cmd replyLen msgCb ⟨ret, []⟩ (.sent cmd :: passedOver replyLen msgCb skipped)
  | answered {message : Bytes} {skipped : List Bytes}
      (hskipped : ∀ m ∈ skipped, unsolicited (m.take replyLen))
      (hreply : ¬ unsolicited (message.take replyLen)) :
      Requested cmd replyLen msgCb ⟨0, message.take replyLen⟩
        (.sent cmd :: (passedOver replyLen msgCb skipped ++ [.took replyLen message]))

theorem passedOver_false (replyLen : Nat) (msgs : List Bytes) :
    passedOver replyLen false msgs = msgs.map (.took replyLen) := by
  induction msgs with
  | nil => rfl
  | cons m msgs ih => exact congrArg (.took replyLen m :: ·) ih

theorem passedOver_concat (replyLen : Nat) (msgCb : Bool) (msgs : List Bytes) (m : Bytes) :
    passedOver replyLen msgCb (msgs ++ [m]) =
      passedOver replyLen msgCb msgs ++
        .took replyLen m :: if msgCb then [.reported (m.take (replyLen - 1))] else [] := by
  simp only [passedOver, List.flatMap_append, List.flatMap_cons, List.flatMap_nil, List.append_nil]

namespace RequestLemmas

variable {ctrl : WpaCtrl} {log : List Exchange}

/-- Reading the clock exchanges nothing. -/
theorem keeps_osGetReltime (t : OsReltime) :
    Keeps (eventLog exchange) log (osGetReltime t) fun _ log' => log' = log :=
  (CtrlIfaceLemmas.only_osGetReltime (P := SysCall.isClock) (fun _ hc => hc) t).logged
    fun c r hc => by cases c <;> first | rfl | exact nomatch hc

/-- What an attempt to send the command has exchanged. -/
def ofSent (cmd : Bytes) (sent : Bool) : List Exchange := if sent then [.sent cmd] else []

theorem exchange_send (cmd : Bytes) (r : SysAnswer) :
    (exchange (.send ctrl.s cmd, r)).toList = ofSent cmd (decide (0 ≤ r.ret)) := by
  by_cases hneg : r.ret < 0
  · simp [exchange, ofSent, hneg]
  · simp [exchange, ofSent, hneg, Int.not_lt.mp hneg]

theorem keeps_laterSends (cmd : Bytes) (startedAt : OsReltime) :
    Keeps (eventLog exchange) log (laterSends ctrl cmd startedAt) fun sent log' =>
      log' = log ++ ofSent cmd sent := by
  refine keeps_loop (· = log) rfl ?_
  rintro log rfl r -
  refine ⟨_, rfl, ?_⟩
  rw [exchange_send]
  by_cases hneg : r.ret < 0
  · have hno : ofSent cmd (decide (0 ≤ r.ret)) = [] := by simp [ofSent, Int.not_le.mpr hneg]
    simp only [hno, ret_bind, if_pos hneg, List.append_nil]
    split
    · refine keeps_bind ((keeps_osGetReltime _).mono ?_)
      rintro ⟨_, n⟩ log rfl
      split
      · exact keeps_ret (keeps_ret (List.append_nil _).symm)
      · exact keeps_logged fun _ => keeps_ret (List.append_nil _)
    · exact keeps_ret (keeps_ret (List.append_nil _).symm)
  · simp only [ret_bind, if_neg hneg]
    exact keeps_ret (keeps_ret (by simp [Int.not_lt.mp hneg]))

theorem keeps_firstSends (cmd : Bytes) : Keeps (eventLog exchange) log (firstSends ctrl cmd)
    fun o log' => log' = log ++ o.elim (ofSent cmd) fun _ => [] := by
  refine keeps_loop (· = log) rfl ?_
  rintro log rfl r -
  refine ⟨_, rfl, ?_⟩
  rw [exchange_send]
  by_cases hneg : r.ret < 0
  · have hno : ofSent cmd (decide (0 ≤ r.ret)) = [] := by simp [ofSent, Int.not_le.mpr hneg]
    simp only [hno, ret_bind, if_pos hneg, List.append_nil]
    split
    · refine keeps_bind ((keeps_osGetReltime _).mono ?_)
      rintro ⟨_, startedAt⟩ log rfl
      refine keeps_logged fun _ => keeps_ret ?_
      split
      · exact List.append_nil _
      · exact keeps_ret rfl
    · exact keeps_ret (keeps_ret (List.append_nil _).symm)
  · simp only [ret_bind, if_neg hneg]
    exact keeps_ret (keeps_ret (by simp [Int.not_lt.mp hneg]))

theorem keeps_sendCommand (cmd : Bytes) :
    Keeps (eventLog exchange) log (sendCommand ctrl cmd)
      fun sent log' => log' = log ++ ofSent cmd sent := by
  refine keeps_bind ((keeps_firstSends cmd).mono ?_)
  rintro (sent | startedAt) _ rfl
  · exact keeps_ret rfl
  · rw [Sum.elim_inr, List.append_nil]
    exact keeps_laterSends cmd startedAt

/-- The message handed on is cut where the NUL stands. -/
theorem keeps_report {cap : Nat} (d : Delivery cap) (h : unsolicited d.bytes = true) :
    Keeps (eventLog exchange) log (report d) fun _ log' =>
      log' = log ++ [.reported (d.bytes.take (cap - 1))] := by
  have hpos := length_pos_of_unsolicited h
  have hfits := d.fits
  generalize hres : (if d.bytes.length = cap then cap - 1 else d.bytes.length) = res
  have hle : res ≤ d.bytes.length := by split at hres <;> omega
  have htake : d.bytes.take res = d.bytes.take (cap - 1) := by
    rw [List.take_eq_take_iff]
    split at hres <;> omega
  simp only [report, bind_eq, hres]
  refine keeps_bind (keeps_ofOption (fun buffer hbuffer => ?_) fun hnone => ?_)
  · have hcells : buffer.cells.take res = d.bytes.take res := by
      rw [Buffer.take_of_write hbuffer, d.cells_eq, List.take_append_of_le_length hle]
    refine keeps_logged fun _ => keeps_ret ?_
    rw [hcells, htake]
    rfl
  · rw [Buffer.write_eq_none_iff] at hnone
    split at hres <;> omega

theorem keeps_awaitReply (replyLen : Nat) (msgCb : Bool) :
    Keeps (eventLog exchange) log (awaitReply ctrl replyLen msgCb) fun res log' =>
      ∃ exchanged, log' = log ++ exchanged ∧
        ∀ cmd, Requested cmd replyLen msgCb res (.sent cmd :: exchanged) := by
  -- at the head of each round some messages have been passed over
  refine keeps_loop (fun log' => ∃ skipped : List Bytes,
    (∀ m ∈ skipped, unsolicited (m.take replyLen)) ∧
      log' = log ++ passedOver replyLen msgCb skipped) ⟨[], nofun, (List.append_nil _).symm⟩ ?_
  rintro _ ⟨skipped, hskipped, rfl⟩ res -
  refine ⟨_, rfl, ?_⟩
  rw [show exchange (.select ctrl.s 10, res) = none from rfl, Option.toList_none, List.append_nil]
  simp only [ret_bind]
  split
  · rename_i hneg
    split
    · exact keeps_ret ⟨skipped, hskipped, rfl⟩
    · exact keeps_ret (keeps_ret ⟨_, rfl, fun cmd => .unanswered hneg hskipped⟩)
  · split
    · refine keeps_logged fun r => ?_
      simp only [ret_bind]
      by_cases hneg : r.ret < 0
      · rw [if_pos hneg, exchange, if_pos hneg, Option.toList_none, List.append_nil]
        exact keeps_ret (keeps_ret ⟨_, rfl, fun cmd => .unanswered hneg hskipped⟩)
      · rw [if_neg hneg, exchange, if_neg hneg, Option.toList_some, List.append_assoc]
        generalize hreceived : Delivery.ofOffer replyLen r.offer r.stale = received
        have hbytes : received.bytes = r.offer.take replyLen := hreceived ▸ rfl
        split
        · rename_i hunsolicited
          have hskipped' : ∀ m ∈ skipped ++ [r.offer], unsolicited (m.take replyLen) := by
            intro m hm
            rcases List.mem_append.mp hm with hm | hm
            · exact hskipped m hm
            · rw [List.mem_singleton.mp hm, ← hbytes]
              exact hunsolicited
          cases msgCb with
          | true =>
            have hcut : received.bytes.take (replyLen - 1) = r.offer.take (replyLen - 1) := by
              rw [hbytes, List.take_take, Nat.min_eq_left (Nat.sub_le replyLen 1)]
            refine keeps_bind ((keeps_report received hunsolicited).mono ?_)
            rintro _ _ rfl
            refine keeps_ret ⟨_, hskipped', ?_⟩
            simp [passedOver_concat, hcut]
          | false => exact keeps_ret ⟨_, hskipped', by rw [passedOver_concat]; rfl⟩
        · rename_i hreply
          rw [hbytes] at hreply ⊢
          exact keeps_ret (keeps_ret ⟨_, rfl, fun cmd => .answered hskipped hreply⟩)
    · exact keeps_ret (keeps_ret ⟨_, rfl, fun cmd => .unanswered (by decide) hskipped⟩)

theorem keeps_wpaCtrlRequest (cmd : Bytes) (replyLen : Nat) (msgCb : Bool) :
    Keeps (eventLog exchange) [] (wpaCtrlRequest ctrl cmd replyLen msgCb)
      (Requested cmd replyLen msgCb) := by
  refine keeps_bind ((keeps_sendCommand cmd).mono ?_)
  rintro (_ | _) _ rfl
  · exact keeps_ret .unsent
  · refine (keeps_awaitReply replyLen msgCb).mono ?_
    rintro res _ ⟨exchanged, rfl, h⟩
    exact h cmd

end RequestLemmas

/-- Every request that returns has sent nothing, or its command once. What it then took
from the socket is unsolicited messages, and at the end the reply, if there is one. The
messages passed over are handed to `msg_cb`, in their order. -/
theorem request_contract (ctrl : WpaCtrl) (cmd : Bytes) (replyLen : Nat) (msgCb : Bool)
    {rs : List SysAnswer} {res : Reply}
    (hret : (wpaCtrlRequest ctrl cmd replyLen msgCb).after rs = .ret res) :
    Requested cmd replyLen msgCb res
      (((wpaCtrlRequest ctrl cmd replyLen msgCb).trace rs).filterMap exchange) :=
  (RequestLemmas.keeps_wpaCtrlRequest cmd replyLen msgCb).logged rs hret

/-- A status request whose first `send` finds the socket busy, and whose reply waits
behind an event that fills the buffer. -/
def sampleRequest : List SysAnswer :=
  [{ ret := -1, errno := .EAGAIN }, {}, { ts := ⟨40, 0⟩ }, {}, {}, { isSet := true },
    { ret := 5, offer := bytes "<3>AP" }, {}, { isSet := true }, { ret := 3, offer := okReply }]

theorem sampleRequest_requested : Requested (bytes "STATUS") 5 true ⟨0, okReply⟩
    (((wpaCtrlRequest ⟨7, 3, []⟩ (bytes "STATUS") 5 true).trace sampleRequest).filterMap
      exchange) :=
  request_contract ⟨7, 3, []⟩ (bytes "STATUS") 5 true rfl

/-! ## 2. Attaching -/

/-- A buffer of seven bytes is enough to tell unsolicited messages from others. -/
theorem unsolicited_take {len : Nat} (h : 7 ≤ len) (m : Bytes) :
    unsolicited (m.take len) = unsolicited m := by
  have hshort : ∀ t : Bytes, t.length ≤ len → (t <+: m.take len ↔ t <+: m) := fun t ht => by
    rw [List.prefix_take_iff]
    exact and_iff_left ht
  unfold unsolicited
  simp only [hshort (bytes "<") (by simp [bytes]; omega),
    hshort (bytes "IFNAME=") (by simp [bytes]; omega)]

theorem take_eq_okReply_iff (m : Bytes) : m.take attachCap = okReply ↔ m = okReply := by
  constructor
  · intro h
    have hlen : (m.take attachCap).length = 3 := by rw [h]; rfl
    rw [List.length_take] at hlen
    rw [← h, List.take_of_length_le (by simp only [attachCap] at hlen ⊢; omega)]
  · rintro rfl
    rfl

/-- What attaching or detaching has taken when it returns `ret`. -/
def Attempted (ret : Int) (taken : List Bytes) : Prop :=
  if ret = 0 then
    ∃ skipped : List Bytes, (∀ m ∈ skipped, unsolicited m) ∧ taken = skipped ++ [okReply]
  else (∀ m ∈ taken, unsolicited m) ∨
    ret = -1 ∧ ∃ skipped reply, (∀ m ∈ skipped, unsolicited m) ∧ taken = skipped ++ [reply] ∧
      reply ≠ okReply ∧ ¬ unsolicited reply

theorem keeps_attachHelper_log (ctrl : WpaCtrl) (attach : Bool) :
    Keeps (eventLog exchange) [] (wpaCtrlAttachHelper ctrl attach) fun ret log => ∃ taken,
      Attempted ret taken ∧ (log = [] ∧ taken = [] ∧ ret ≠ 0 ∨
        log = .sent (if attach then bytes "ATTACH" else bytes "DETACH") ::
          taken.map (.took attachCap)) := by
  refine keeps_bind
    ((RequestLemmas.keeps_wpaCtrlRequest _ attachCap false).mono fun res log hres => keeps_ret ?_)
  have hseen : ∀ skipped : List Bytes, (∀ m ∈ skipped, unsolicited (m.take attachCap)) →
      ∀ m ∈ skipped, unsolicited m := fun skipped h m hm => by
    rw [← unsolicited_take (show 7 ≤ attachCap by decide)]
    exact h m hm
  cases hres with
  | unsent => exact ⟨[], .inl nofun, .inl ⟨rfl, rfl, by decide⟩⟩
  | @unanswered ret skipped hneg hskipped =>
    refine ⟨skipped, ?_, .inr (by rw [passedOver_false])⟩
    simp only [if_pos hneg]
    rw [Attempted, if_neg (Int.ne_of_lt hneg)]
    exact .inl (hseen skipped hskipped)
  | @answered message skipped hskipped hreply =>
    refine ⟨skipped ++ [message], ?_,
      .inr (by rw [passedOver_false, List.map_append, List.map_singleton])⟩
    simp only [if_neg (Int.lt_irrefl 0), take_eq_okReply_iff]
    by_cases hok : message = okReply
    · rw [if_pos hok, hok, Attempted, if_pos rfl]
      exact ⟨skipped, hseen skipped hskipped, rfl⟩
    · rw [if_neg hok, Attempted, if_neg (by decide)]
      rw [unsolicited_take (by decide)] at hreply
      exact .inr ⟨rfl, skipped, message, hseen skipped hskipped, rfl, hok, hreply⟩

/-- `wpa_ctrl_attach` and `wpa_ctrl_detach` return 0 exactly when their command was
accepted and the first message behind the unsolicited ones is `OK\n`. -/
theorem attachHelper_eq_zero_iff (ctrl : WpaCtrl) (attach : Bool) {rs : List SysAnswer} {ret : Int}
    (hret : (wpaCtrlAttachHelper ctrl attach).after rs = .ret ret) :
    ret = 0 ↔ ∃ skipped : List Bytes, (∀ m ∈ skipped, unsolicited m) ∧
      ((wpaCtrlAttachHelper ctrl attach).trace rs).filterMap exchange =
        .sent (if attach then bytes "ATTACH" else bytes "DETACH") ::
          (skipped ++ [okReply]).map (.took attachCap) := by
  obtain ⟨taken, hattempted, hlog⟩ := (keeps_attachHelper_log ctrl attach).logged rs hret
  generalize ((wpaCtrlAttachHelper ctrl attach).trace rs).filterMap exchange = log at hlog ⊢
  have hok : ¬ unsolicited okReply := by decide
  unfold Attempted at hattempted
  constructor
  · intro hzero
    rw [if_pos hzero] at hattempted
    obtain ⟨skipped, hskipped, rfl⟩ := hattempted
    rcases hlog with ⟨-, -, hno⟩ | rfl
    · exact absurd hzero hno
    · exact ⟨skipped, hskipped, rfl⟩
  · rintro ⟨skipped, hskipped, heq⟩
    rcases hlog with ⟨hnil, -, -⟩ | hsome
    · rw [hnil] at heq
      exact nomatch heq
    · have hinj : Function.Injective (Exchange.took attachCap) := fun _ _ h => by injection h
      have htaken : taken = skipped ++ [okReply] :=
        (List.map_injective_iff.mpr hinj) (List.cons.inj (hsome.symm.trans heq)).2
      by_contra hzero
      rw [if_neg hzero] at hattempted
      -- `OK\n` would have been passed over, or taken for another reply
      rcases hattempted with hall | ⟨-, skipped', reply, -, htaken', hne, -⟩
      · exact hok (hall okReply (by rw [htaken]; simp))
      · have hlast := (List.append_inj' (htaken'.symm.trans htaken) rfl).2
        exact hne (List.singleton_injective hlast)

/-- Detaching while two events wait. -/
def sampleDetach : List SysAnswer :=
  [{ ret := 6 }, { isSet := true }, { ret := 10, offer := bytes "<3>P2P-GROUP" }, { isSet := true },
    { ret := 4, offer := bytes "<3>X" }, { isSet := true }, { ret := 3, offer := okReply }]

theorem sampleDetach_skips :
    (0 : Int) = 0 ↔ ∃ skipped : List Bytes, (∀ m ∈ skipped, unsolicited m) ∧
    ((wpaCtrlAttachHelper ⟨7, 3, []⟩ false).trace sampleDetach).filterMap exchange =
      .sent (if false then bytes "ATTACH" else bytes "DETACH") ::
        (skipped ++ [okReply]).map (.took attachCap) :=
  attachHelper_eq_zero_iff ⟨7, 3, []⟩ false rfl

/-! ## 3. How often a command is tried -/

/-- Microseconds. -/
def OsReltime.micros (t : OsReltime) : Int := t.sec * 1000000 + t.usec

/-- The borrow of `os_reltime_sub` does not matter to `os_reltime_expired`. -/
theorem osReltimeExpired_iff {now ts : OsReltime} (hnow : 0 ≤ now.usec ∧ now.usec < 1000000)
    (hts : 0 ≤ ts.usec ∧ ts.usec < 1000000) (timeoutSecs : Int) :
    osReltimeExpired now ts timeoutSecs = true ↔
      ts.micros + timeoutSecs * 1000000 < now.micros := by
  unfold osReltimeExpired osReltimeSub OsReltime.micros
  split <;> simp only [Bool.or_eq_true, Bool.and_eq_true, decide_eq_true_eq, beq_iff_eq] <;> omega

/-- The time a clock shows. -/
def shown (r : SysAnswer) : OsReltime := ⟨r.ts.sec, r.ts.nsec / 1000⟩

/-- The readings of the clock. -/
def reading : SysCall × SysAnswer → Option Int
  | (.clockGettime _, r) => some (shown r).micros
  | _ => none

def readings (tr : List (SysCall × SysAnswer)) : List Int := tr.filterMap reading

@[simp] theorem readings_append (tr tr' : List (SysCall × SysAnswer)) :
    readings (tr ++ tr') = readings tr ++ readings tr' := List.filterMap_append

/-- A reading succeeds, and is not before `now`. -/
def runs (now : Int) : SysCall × SysAnswer → Bool
  | (.clockGettime _, r) =>
    r.ret = 0 && 0 ≤ r.ts.sec && 0 ≤ r.ts.nsec && r.ts.nsec < 1000000000 && now ≤ (shown r).micros
  | _ => true

/-- The time it is at least after a call. -/
def elapse (now : Int) : SysCall × SysAnswer → Int
  | (.clockGettime _, r) => (shown r).micros
  | (.sleep sec, _) => now + sec * 1000000
  | _ => now

/-- From the time `now` on the clock runs, and sleeping takes the time it is to take. -/
def Clocked : Int → List (SysCall × SysAnswer) → Prop
  | _, [] => True
  | now, e :: tr => runs now e = true ∧ Clocked (elapse now e) tr

instance decidableClocked :
    (now : Int) → (tr : List (SysCall × SysAnswer)) → Decidable (Clocked now tr)
  | _, [] => isTrue trivial
  | now, e :: tr =>
    have := decidableClocked (elapse now e) tr
    inferInstanceAs (Decidable (runs now e = true ∧ Clocked (elapse now e) tr))

def isSend : SysCall × SysAnswer → Bool
  | (.send _ _, _) => true
  | _ => false

/-- A `send` that fails, and not because the socket is busy. -/
def refuses : SysCall × SysAnswer → Bool
  | (.send _ _, r) => r.ret < 0 && !r.busy
  | _ => false

/-- A `send` was refused, or more than five seconds lie between the first and the last
reading of the clock. -/
def GaveUp (tr : List (SysCall × SysAnswer)) : Prop :=
  (∃ e ∈ tr, refuses e = true) ∨ ∃ first last, (readings tr).head? = some first ∧
    (readings tr).getLast? = some last ∧ first + 5000000 < last

/-- The time it is at least, the number of times a command may still be tried, and what
has been called. -/
structure Watch where
  now : Int
  left : Nat
  past : List (SysCall × SysAnswer) := []

/-- The monitor that counts the tries, on a clock that runs. -/
def watchSpec : Spec SysCall SysAnswer Watch where
  admits w c r := runs w.now (c, r) = true
  step w c r :=
    if isSend (c, r) && w.left == 0 then none
    else some ⟨elapse w.now (c, r), w.left - (isSend (c, r)).toNat, w.past ++ [(c, r)]⟩
  faults _ := False

theorem admits_of_clocked {now : Int} {tr : List (SysCall × SysAnswer)} (h : Clocked now tr)
    {w : Watch} (hw : w.now = now) : watchSpec.Admits w tr := by
  induction tr generalizing now w with
  | nil => trivial
  | cons e tr ih =>
    subst hw
    refine ⟨h.1, fun w' hw' => ?_⟩
    simp only [watchSpec] at hw'
    split at hw'
    · exact nomatch hw'
    · obtain rfl := Option.some.inj hw'
      exact ih h.2 rfl

theorem exec_watch {w w' : Watch} {tr : List (SysCall × SysAnswer)}
    (h : watchSpec.exec w tr = some w') :
    w'.past = w.past ++ tr ∧ w'.left + tr.countP isSend = w.left := by
  induction tr generalizing w with
  | nil =>
    obtain rfl := Option.some.inj h
    exact ⟨(List.append_nil _).symm, rfl⟩
  | cons e tr ih =>
    obtain ⟨w₁, hstep, hexec⟩ := Option.bind_eq_some_iff.mp h
    obtain ⟨hpast, hleft⟩ := ih hexec
    simp only [watchSpec] at hstep
    split at hstep
    · exact nomatch hstep
    · rename_i hgo
      obtain rfl := Option.some.inj hstep
      refine ⟨by simp [hpast], ?_⟩
      cases he : isSend e <;> simp [he] at hgo hleft ⊢ <;> omega

/-- How the attempts to send a command end. -/
def Ended (sent : Bool) (tr : List (SysCall × SysAnswer)) : Prop :=
  if sent then ∃ e ∈ tr, (exchange e).isSome else GaveUp tr

/-- The head of a round once `started_at` is set. Each of the tries before it has taken a second. -/
def Trying (startedAt : OsReltime) (w : Watch) : Prop :=
  1 ≤ w.left ∧ startedAt.micros + (7 - w.left) * 1000000 ≤ w.now ∧
    ∃ first, (readings w.past).head? = some first ∧ first ≤ startedAt.micros

namespace RequestLemmas

variable {ctrl : WpaCtrl} {w : Watch}

/-- Reading a clock that runs. -/
theorem watch_osGetReltime {α : Type} {t : OsReltime} {f : Int × OsReltime → Sys α}
    {Q : α → Watch → Prop}
    (h : ∀ t' past, 0 ≤ t'.sec → 0 ≤ t'.usec ∧ t'.usec < 1000000 → w.now ≤ t'.micros →
      readings past = [t'.micros] →
      Keeps watchSpec ⟨t'.micros, w.left, w.past ++ past⟩ (f (0, t')) Q) :
    Keeps watchSpec w ((osGetReltime t).bind f) Q := by
  refine keeps_bind (keeps_loop (· = w) rfl ?_)
  rintro w rfl clockId -
  refine ⟨_, rfl, ?_⟩
  simp only [ret_bind]
  refine keeps_call fun res hres => ⟨_, rfl, ?_⟩
  obtain ⟨⟨⟨⟨hret, hsec⟩, hnsec⟩, hlt⟩, hnow⟩ :
      (((res.ret = 0 ∧ 0 ≤ res.ts.sec) ∧ 0 ≤ res.ts.nsec) ∧ res.ts.nsec < 1000000000) ∧
        w.now ≤ (shown res).micros := by
    simpa only [watchSpec, runs, elapse, Bool.and_eq_true, decide_eq_true_eq] using hres
  simp only [ret_bind, if_pos hret, List.append_assoc]
  have husec : 0 ≤ res.ts.nsec / 1000 ∧ res.ts.nsec / 1000 < 1000000 := by omega
  exact keeps_ret (keeps_ret (h (shown res) _ hsec husec hnow rfl))

/-- Trying once more. -/
theorem watch_send {α : Type} {cmd : Bytes} {k : SysAnswer → Sys α} {Q : α → Watch → Prop}
    (hleft : 1 ≤ w.left)
    (h : ∀ r, Keeps watchSpec ⟨w.now, w.left - 1, w.past ++ [(.send ctrl.s cmd, r)]⟩ (k r) Q) :
    Keeps watchSpec w (.call (.send ctrl.s cmd) k) Q :=
  keeps_call fun r _ => ⟨_, if_neg (by simp [isSend]; omega), h r⟩

theorem ended_of_refused {cmd : Bytes} {r : SysAnswer} (past : List (SysCall × SysAnswer))
    (hneg : r.ret < 0) (hbusy : ¬ r.busy = true) : Ended false (past ++ [(.send ctrl.s cmd, r)]) :=
  .inl ⟨_, List.mem_append_right _ (List.mem_singleton_self _), by simp [refuses, hneg, hbusy]⟩

theorem ended_of_sent {cmd : Bytes} {r : SysAnswer} (past : List (SysCall × SysAnswer))
    (hneg : ¬ r.ret < 0) :
    Ended true (past ++ [(.send ctrl.s cmd, r)]) :=
  ⟨_, List.mem_append_right _ (List.mem_singleton_self _), by simp [exchange, hneg]⟩

theorem watch_laterSends (cmd : Bytes) {startedAt : OsReltime}
    (hstarted : 0 ≤ startedAt.usec ∧ startedAt.usec < 1000000) (h : Trying startedAt w) :
    Keeps watchSpec w (laterSends ctrl cmd startedAt) fun sent w' => Ended sent w'.past := by
  refine keeps_forever (Trying startedAt) h rfl ?_
  rintro w ⟨hleft, hnow, first, hfirst, hle⟩
  refine watch_send hleft fun r => ?_
  simp only [ret_bind]
  split
  · rename_i hneg
    split
    · refine watch_osGetReltime fun n past hsec husec hread hpast => ?_
      dsimp only at hread ⊢
      have hreadings : readings (w.past ++ [(SysCall.send ctrl.s cmd, r)] ++ past) =
          readings w.past ++ [n.micros] := by
        rw [readings_append, readings_append, hpast]
        exact congrArg (· ++ _) (List.append_nil _)
      have hhead : (readings w.past ++ [n.micros]).head? = some first := by
        rw [List.head?_append, hfirst, Option.some_or]
      have hexpired := osReltimeExpired_iff husec hstarted 5
      split
      · -- the five seconds are over
        rename_i hover
        refine keeps_ret (keeps_ret (.inr ⟨first, n.micros, ?_, ?_, ?_⟩))
        · rw [hreadings, hhead]
        · rw [hreadings, List.getLast?_concat]
        · have := hexpired.mp hover
          omega
      · rename_i hover
        rw [hexpired] at hover
        refine keeps_call fun _ _ => ⟨_, rfl, keeps_ret ⟨?_, ?_, first, ?_, hle⟩⟩
        · show 1 ≤ w.left - 1
          omega
        · show startedAt.micros + (7 - (w.left - 1 : Nat)) * 1000000 ≤ n.micros + 1 * 1000000
          omega
        · rw [readings_append, hreadings, List.head?_append, hhead, Option.some_or]
    · rename_i hbusy
      exact keeps_ret (keeps_ret (ended_of_refused _ hneg hbusy))
  · rename_i hneg
    exact keeps_ret (keeps_ret (ended_of_sent _ hneg))

/-- The clock may be in its first second once. -/
theorem watch_sendCommand (cmd : Bytes) (hleft : w.left = 8 ∨ w.left = 7 ∧ 1000000 ≤ w.now)
    (hpast : w.past = []) :
    Keeps watchSpec w (sendCommand ctrl cmd) fun sent w' => Ended sent w'.past := by
  refine keeps_bind (keeps_forever (fun w => (w.left = 8 ∧ readings w.past = []) ∨
    w.left = 7 ∧ 1000000 ≤ w.now ∧ ∀ first ∈ (readings w.past).head?, first ≤ w.now) ?_ rfl ?_)
  · rw [hpast]
    exact hleft.imp (⟨·, rfl⟩) fun h => ⟨h.1, h.2, nofun⟩
  intro w hw
  refine watch_send (by omega) fun r => ?_
  simp only [ret_bind]
  split
  · rename_i hneg
    split
    · refine watch_osGetReltime fun startedAt past hsec husec hread hpast => ?_
      dsimp only at hread ⊢
      have hreadings : readings (w.past ++ [(SysCall.send ctrl.s cmd, r)] ++ past) =
          readings w.past ++ [startedAt.micros] := by
        rw [readings_append, readings_append, hpast]
        exact congrArg (· ++ _) (List.append_nil _)
      obtain ⟨first, hfirst, hle⟩ : ∃ first,
          (readings w.past ++ [startedAt.micros]).head? = some first ∧
            first ≤ startedAt.micros := by
        cases hpast : readings w.past with
        | nil => exact ⟨_, rfl, Int.le_refl _⟩
        | cons first rest =>
          rcases hw with ⟨-, hnil⟩ | ⟨-, -, hle⟩
          · rw [hnil] at hpast
            exact nomatch hpast
          · exact ⟨first, rfl, Int.le_trans (hle first (by rw [hpast]; rfl)) hread⟩
      have hmicros : startedAt.micros = startedAt.sec * 1000000 + startedAt.usec := rfl
      refine keeps_call fun _ _ => ⟨_, rfl, keeps_ret ?_⟩
      split
      · refine .inr ⟨?_, ?_, ?_⟩
        · show w.left - 1 = 7
          omega
        · show (1000000 : Int) ≤ startedAt.micros + 1 * 1000000
          omega
        · intro first' hfirst'
          rw [readings_append, hreadings, List.head?_append, hfirst, Option.some_or] at hfirst'
          obtain rfl := Option.some.inj hfirst'
          show first ≤ startedAt.micros + 1 * 1000000
          omega
      · refine keeps_ret (watch_laterSends cmd husec ⟨?_, ?_, first, ?_, hle⟩)
        · show 1 ≤ w.left - 1
          omega
        · show startedAt.micros + (7 - (w.left - 1 : Nat)) * 1000000 ≤
              startedAt.micros + 1 * 1000000
          omega
        · rw [readings_append, hreadings, List.head?_append, hfirst, Option.some_or]
    · rename_i hbusy
      exact keeps_ret (keeps_ret (keeps_ret (ended_of_refused _ hneg hbusy)))
  · rename_i hneg
    exact keeps_ret (keeps_ret (keeps_ret (ended_of_sent _ hneg)))

/-- Waiting for the reply tries nothing more. -/
theorem watch_wpaCtrlRequest (cmd : Bytes) (replyLen : Nat) (msgCb : Bool)
    (hleft : w.left = 8 ∨ w.left = 7 ∧ 1000000 ≤ w.now) (hpast : w.past = []) :
    Keeps watchSpec w (wpaCtrlRequest ctrl cmd replyLen msgCb) fun _ w' =>
      (∀ e ∈ w'.past, exchange e = none) → GaveUp w'.past := by
  refine keeps_bind ((watch_sendCommand cmd hleft hpast).mono ?_)
  rintro (_ | _) w' hended
  · exact keeps_ret fun _ => hended
  · have hwait := CtrlIfaceLemmas.only_awaitReply (P := SysCall.isReceive ctrl.s replyLen)
      (F := False) (fun _ hc => hc) msgCb
    refine (hwait.keeps_inv (fun w' => Ended true w'.past) hended ?_ False.elim).mono ?_
    · rintro w' c r ⟨e, he, hsome⟩ hc -
      cases c <;> first | exact ⟨_, rfl, e, List.mem_append_left _ he, hsome⟩ | exact nomatch hc
    · rintro _ w' ⟨e, he, hsome⟩ hnone
      rw [hnone e he] at hsome
      exact nomatch hsome

end RequestLemmas

/-- On a clock that runs, a request tries its command at most eight times, and at most
seven times if the clock is past its first second. One that has exchanged nothing was
refused by the socket, or has found it busy for more than five seconds. -/
theorem retry_bounded (ctrl : WpaCtrl) (cmd : Bytes) (replyLen : Nat) (msgCb : Bool) {now : Int}
    {rs : List SysAnswer}
    (hclock : Clocked now ((wpaCtrlRequest ctrl cmd replyLen msgCb).trace rs)) :
    ((wpaCtrlRequest ctrl cmd replyLen msgCb).trace rs).countP isSend ≤
        (if now < 1000000 then 8 else 7) ∧
      ∀ res, (wpaCtrlRequest ctrl cmd replyLen msgCb).after rs = .ret res →
        ((wpaCtrlRequest ctrl cmd replyLen msgCb).trace rs).filterMap exchange = [] →
          GaveUp ((wpaCtrlRequest ctrl cmd replyLen msgCb).trace rs) := by
  let w : Watch := { now := now, left := if now < 1000000 then 8 else 7 }
  have hleft : w.left = 8 ∨ w.left = 7 ∧ 1000000 ≤ w.now := by
    by_cases h : now < 1000000
    · exact .inl (if_pos h)
    · exact .inr ⟨if_neg h, Int.not_lt.mp h⟩
  have hwatch : Keeps watchSpec w (wpaCtrlRequest ctrl cmd replyLen msgCb) _ :=
    RequestLemmas.watch_wpaCtrlRequest cmd replyLen msgCb hleft rfl
  obtain ⟨w', hexec, hk⟩ := hwatch.exec rs (admits_of_clocked hclock rfl)
  obtain ⟨hpast, hcount⟩ := exec_watch hexec
  rw [List.nil_append] at hpast
  refine ⟨?_, fun res hret hnone => ?_⟩
  · exact Nat.le.intro ((Nat.add_comm _ _).trans hcount)
  · rw [hret] at hk
    rw [← hpast]
    refine hk.result fun e he => ?_
    rw [hpast] at he
    exact List.filterMap_eq_nil_iff.mp hnone e he

/-- A socket that stays busy, on a clock that starts in its first second and stops
between its ticks. -/
def sampleBusy : List SysAnswer :=
  let busy : SysAnswer := { ret := -1, errno := .EBUSY }
  let round (sec : Int) : List SysAnswer := [busy, {}, { ts := ⟨sec, 0⟩ }, {}]
  round 0 ++ round 1 ++ round 2 ++ round 3 ++ round 4 ++ round 5 ++ round 6 ++ round 7

theorem sampleBusy_bounded :
    ((wpaCtrlRequest ⟨7, 3, []⟩ (bytes "ATTACH") 10 false).trace sampleBusy).countP isSend ≤
        (if (0 : Int) < 1000000 then 8 else 7) ∧
      ∀ res, (wpaCtrlRequest ⟨7, 3, []⟩ (bytes "ATTACH") 10 false).after sampleBusy = .ret res →
        ((wpaCtrlRequest ⟨7, 3, []⟩ (bytes "ATTACH") 10 false).trace sampleBusy).filterMap
          exchange = [] →
          GaveUp ((wpaCtrlRequest ⟨7, 3, []⟩ (bytes "ATTACH") 10 false).trace sampleBusy) :=
  retry_bounded ⟨7, 3, []⟩ (bytes "ATTACH") 10 false (by decide)

end P2pDriver
