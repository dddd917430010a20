import P2pDriver.EventLoop
import Mathlib.Data.List.Forall2

/-!
# Which bytes of the message buffer matter

Behind the bytes of a message the 256-byte buffer holds what was there before.
Two runs that receive the same bytes should not differ. This module says for
every message whether its residue can be seen, and proves that a run depends on
the received bytes alone exactly when no message of it lets the residue in.

Results:
1. `react_blurred`: on a self-contained message the residue has no effect.
2. `exists_apart_or_fault`: on any other message it has.
3. `polling_onlyReceived_iff`: the same for whole runs of the two loops.
4. `onlyReceived_cut_request`: a request without its address shows what an
   earlier datagram has left.
-/

namespace P2pDriver

open Resumable Prog EventLoopLemmas

/-! ## 1. Runs that differ in residual bytes -/

/-- Two answers that differ at most in what the receiving buffer held before. -/
def SameReceived (r r' : Answer) : Prop := { r with stale := [] } = { r' with stale := [] }

/-- A call as it is compared. The text that `std::cout` is handed is left out. -/
def Call.blurred : Call → Call
  | .print _ => .print []
  | c => c

/-- Two runs that cannot be told apart, now or later, and are both defined:
they make the same calls and end in the same way, whatever answers follow, and
neither has read outside the buffer. -/
structure Agree (p : Drv Unit) (rs rs' : List Answer) : Prop where
  calls : ∀ rest, (p.issued (rs ++ rest)).map Call.blurred =
    (p.issued (rs' ++ rest)).map Call.blurred
  returned : ∀ rest, p.after (rs ++ rest) = .ret () ↔ p.after (rs' ++ rest) = .ret ()
  defined : ∀ n, p.after (rs ++ List.replicate n default) ≠ .fault

/-- Of what `rs` delivers to `p`, only the received bytes matter. -/
def OnlyReceived (p : Drv Unit) (rs : List Answer) : Prop :=
  ∀ rs₁ rs₂, List.Forall₂ SameReceived rs rs₁ → List.Forall₂ SameReceived rs rs₂ → Agree p rs₁ rs₂

/-! ## 2. Self-contained messages -/

/-- The received bytes decide what the loop of a phase does. They reach past the
prefix; of a negotiation request the whole address is received, or a NUL that
ends the command line within it; of a started group the name is received up to
the space that ends it. -/
def SelfContained (φ : Phase) (received : Bytes) : Prop :=
  match φ with
  | .searching => prefixLen ≤ received.length ∧
      (goNegRequest <+: received.drop prefixLen →
        prefixLen + goNegRequest.length + macAddressLen ≤ received.length ∨ 0 ∈ macField received)
  | .negotiating => prefixLen ≤ received.length ∧
      (groupStarted <+: received.drop prefixLen →
        space ∈ received.drop (prefixLen + groupStarted.length))
  | .monitoring => prefixLen ≤ received.length
  | _ => True

/-- Every message of a run is self-contained where it is received. `state` is
the state of the loops after a list of answers. -/
def SelfContainedRun (state : List Answer → Option LoopState) (rs : List Answer) : Prop :=
  ∀ rs' r m φ, rs' ++ [r] <+: rs → state rs' = some ⟨φ, .recv, []⟩ → delivered r = some m →
    SelfContained φ m.bytes

/-- A state of the machine as it is compared. -/
def LoopState.blurred (s : LoopState) : LoopState := { s with owed := s.owed.map Call.blurred }

namespace StaleBytesLemmas

theorem cStr_append_of_mem {s t : Bytes} (h : 0 ∈ s) : cStr (s ++ t) = cStr s :=
  takeWhile_append_of_mem h

theorem isType_congr {m m' : Message} (hb : m.bytes = m'.bytes) (h : prefixLen ≤ m.bytes.length)
    (t : Bytes) : isType m t = isType m' t := by
  rw [Bool.eq_iff_iff, isType_iff_received h, isType_iff_received (hb ▸ h), hb]

/-- The command for a request is decided by its received bytes. -/
theorem connectCall_congr {m m' : Message} (hb : m.bytes = m'.bytes)
    (hlen : prefixLen + goNegRequest.length ≤ m.bytes.length)
    (h : prefixLen + goNegRequest.length + macAddressLen ≤ m.bytes.length ∨ 0 ∈ macField m.bytes) :
    connectCall (macWindow m) = connectCall (macWindow m') := by
  rcases h with hfull | hnul
  · rw [macWindow_eq_received hfull, macWindow_eq_received (hb ▸ hfull), hb]
  · -- the shell sees the address only up to the NUL
    have hcut : ∀ rest, cStr (connectCommand (macField m.bytes ++ rest)) =
        cStr (wpaCliPrefix ++ p2pConnect ++ macField m.bytes) := by
      intro rest
      rw [connectCommand, ← List.append_assoc, List.append_assoc]
      exact cStr_append_of_mem (List.mem_append_right _ hnul)
    rw [macWindow_eq hlen, macWindow_eq (hb ▸ hlen), ← hb, connectCall, connectCall, hcut, hcut]

end StaleBytesLemmas

open StaleBytesLemmas

/-- On a self-contained message the residue has no effect. -/
theorem react_blurred {φ : Phase} {m m' : Message} (hb : m.bytes = m'.bytes)
    (h : SelfContained φ m.bytes) : (react φ m).blurred = (react φ m').blurred := by
  cases φ with
  | searching =>
    obtain ⟨hlen, hreq⟩ := h
    simp only [react, ← isType_congr hb hlen]
    cases ht : isType m goNegRequest with
    | false => rfl
    | true =>
      have hpre := (isType_iff_received hlen _).mp ht
      simp only [if_true, connectCall_congr hb (length_of_type (by decide) hpre) (hreq hpre)]
  | negotiating =>
    obtain ⟨hlen, hname⟩ := h
    simp only [react, ← isType_congr hb hlen]
    cases ht : isType m groupStarted with
    | false => cases isType m groupFormationFailure || isType m goNegFailure <;> rfl
    | true =>
      have hpre := (isType_iff_received hlen _).mp ht
      have hlen' := length_of_type (by decide) hpre
      have hspace := hname hpre
      have hmem : ∀ rest, space ∈ m.bytes.drop (prefixLen + groupStarted.length) ++ rest :=
        fun rest => List.mem_append_left _ hspace
      simp only [nameCells_eq hlen', nameCells_eq (hb ▸ hlen'), ← hb, hmem, if_true,
        takeWhile_append_of_mem hspace]
      rfl
  | monitoring =>
    simp only [react, ← isType_congr hb h]
    cases isType m deviceDisconnected <;> rfl
  | established => rfl
  | ended => rfl
  | faulted => rfl

/-! ## 3. Where the residue can be seen -/

/-- Two states that differ in one of their next two calls, whatever the answer. -/
def Apart (s s' : LoopState) : Prop :=
  ∀ a, (eventLoop.expects s).map Call.blurred ≠ (eventLoop.expects s').map Call.blurred ∨
    (eventLoop.expects (eventLoop.after s [a])).map Call.blurred ≠
      (eventLoop.expects (eventLoop.after s' [a])).map Call.blurred

namespace StaleBytesLemmas

/-- The bytes `b` received into a buffer with `t` behind them. -/
def withResidue (b t : Bytes) (hb : b.length ≤ messageCap) : Message := ⟨b, b ++ t, hb⟩

/-- The bytes `b` received into a buffer of NULs. -/
def blank (b : Bytes) (hb : b.length ≤ messageCap) : Message := ⟨b, [], hb⟩

variable {b : Bytes} (hb : b.length ≤ messageCap)

/-- The residue that puts the text `u` behind the prefix. -/
def padded (b u : Bytes) : Bytes := List.replicate (prefixLen - b.length) 0 ++ u

/-- A message shorter than the prefix can have any text behind it. -/
theorem over_drop (hlen : b.length < prefixLen) {u : Bytes}
    (hu : prefixLen + u.length ≤ messageCap) :
    u <+: (withResidue b (padded b u) hb).buffer.cells.drop prefixLen := by
  have hpad : b.length + (prefixLen - b.length) = prefixLen :=
    Nat.add_sub_cancel' (Nat.le_of_lt hlen)
  have hfit : b.length + (padded b u).length ≤ messageCap := by
    rw [padded, List.length_append, List.length_replicate]
    omega
  obtain ⟨x, hx⟩ := Delivery.prefix_residue hb hfit
  have hcells : (withResidue b (padded b u) hb).buffer.cells =
      (b ++ List.replicate (prefixLen - b.length) 0) ++ (u ++ x) := by
    rw [Delivery.cells_eq, withResidue, ← hx, padded]
    simp only [List.append_assoc]
  rw [hcells, List.drop_left' (by rw [List.length_append, List.length_replicate, hpad])]
  exact List.prefix_append _ _

theorem isType_over (hlen : b.length < prefixLen) {t u : Bytes} (ht : t <+: u)
    (hu : prefixLen + u.length ≤ messageCap) : isType (withResidue b (padded b u) hb) t = true := by
  rw [isType, decide_eq_true_eq]
  exact ⟨.inl hlen, ht.trans (over_drop hb hlen hu)⟩

/-- And it can have nothing but NULs there. -/
theorem isType_blank (hlen : b.length < prefixLen) {c : Byte} (hc : c ≠ 0) (t : Bytes) :
    isType (blank b hb) (c :: t) = false := by
  have hdrop : b.drop prefixLen = [] := List.drop_eq_nil_of_le (Nat.le_of_lt hlen)
  rw [isType, decide_eq_false_iff_not]
  rintro ⟨-, hpre⟩
  rw [Delivery.cells_eq, blank, Delivery.residue_blank, List.drop_append, hdrop, List.nil_append,
    List.drop_replicate] at hpre
  exact hc (List.eq_of_mem_replicate (hpre.subset List.mem_cons_self))

/-- A request whose address is cut before its end takes the next byte from the
residue. -/
theorem connectCall_over (hlen : prefixLen + goNegRequest.length ≤ b.length)
    (hshort : b.length < prefixLen + goNegRequest.length + macAddressLen) (hnul : 0 ∉ macField b)
    (hfit : b.length + 1 ≤ messageCap) {v : Byte} (hv : v ≠ 0) :
    ∃ rest, connectCall (macWindow (withResidue b [v] hb)) =
      .system (wpaCliPrefix ++ p2pConnect ++ macField b ++ v :: rest) := by
  obtain ⟨x, hx⟩ := Delivery.prefix_residue (t := [v]) hb hfit
  obtain ⟨n, hn⟩ : ∃ n,
      macAddressLen - (b.drop (prefixLen + goNegRequest.length)).length = n + 1 := by
    rw [List.length_drop]
    exact ⟨macAddressLen - (b.length - (prefixLen + goNegRequest.length)) - 1, by omega⟩
  have hhead : ∀ c ∈ wpaCliPrefix ++ p2pConnect ++ macField b, decide (c ≠ 0) = true := by
    have h0 : 0 ∉ wpaCliPrefix ++ p2pConnect := by decide
    intro c hc
    rw [decide_eq_true_eq]
    rintro rfl
    exact (List.mem_append.mp hc).elim h0 hnul
  refine ⟨cStr (x.take n ++ pbc), ?_⟩
  rw [macWindow_eq hlen, withResidue, ← hx, hn, connectCall, connectCommand]
  have hsplit : wpaCliPrefix ++ p2pConnect ++ (macField b ++ ([v] ++ x).take (n + 1)) ++ pbc =
      wpaCliPrefix ++ p2pConnect ++ macField b ++ (v :: (x.take n ++ pbc)) := by
    simp only [List.take_succ_cons, List.append_assoc, List.cons_append, List.nil_append]
  rw [hsplit, cStr, List.takeWhile_append_of_pos hhead,
    List.takeWhile_cons_of_pos (by simpa using hv)]
  rfl

end StaleBytesLemmas

/-- On a message that is not self-contained the residue can be seen: two
residues lead to different calls, or one makes the driver read outside the buffer. -/
theorem exists_apart_or_fault {φ : Phase} {b : Bytes} (hb : b.length ≤ messageCap)
    (h : ¬ SelfContained φ b) : ∃ stale stale' : Bytes,
      Apart (react φ ⟨b, stale, hb⟩) (react φ ⟨b, stale', hb⟩) ∨
        ∃ c, react φ ⟨b, stale, hb⟩ = ⟨.faulted, .poll, [c]⟩ := by
  rcases Nat.lt_or_ge b.length prefixLen with hlen | hlen
  · -- the header is read from the residue
    cases φ with
    | searching =>
      have ht : isType (withResidue b (padded b goNegRequest) hb) goNegRequest = true :=
        isType_over hb hlen (List.prefix_refl _) (by decide)
      have ht' : isType (blank b hb) goNegRequest = false := isType_blank hb hlen (by decide) _
      refine ⟨b ++ padded b goNegRequest, [], .inl fun a => .inl ?_⟩
      change _ ≠ (eventLoop.expects (react .searching (blank b hb))).map _
      rw [← withResidue]
      simp [react, ht, ht', connectCall, Call.blurred, eventLoop, LoopState.expects,
        Stage.call, atPoll]
    | negotiating =>
      have ht : isType (withResidue b (padded b (groupStarted ++ [space])) hb)
          groupStarted = true :=
        isType_over hb hlen (List.prefix_append _ _) (by decide)
      have hname : space ∈ nameCells (withResidue b (padded b (groupStarted ++ [space])) hb) := by
        obtain ⟨x, hx⟩ := over_drop hb hlen (u := groupStarted ++ [space]) (by decide)
        rw [nameCells, ← List.drop_drop, ← hx, List.append_assoc, List.drop_left]
        exact List.mem_cons_self
      have ht' : ∀ c t, c ≠ 0 → isType (blank b hb) (c :: t) = false :=
        fun c t hc => isType_blank hb hlen hc t
      refine ⟨b ++ padded b (groupStarted ++ [space]), [], .inl fun a => .inr ?_⟩
      change _ ≠ (eventLoop.expects (eventLoop.after (react .negotiating (blank b hb)) [a])).map _
      rw [← withResidue]
      have hstarted : isType (blank b hb) groupStarted = false := ht' _ _ (by decide)
      have hformation : isType (blank b hb) groupFormationFailure = false := ht' _ _ (by decide)
      have hneg : isType (blank b hb) goNegFailure = false := ht' _ _ (by decide)
      simp [react, ht, hname, hstarted, hformation, hneg, Call.blurred, eventLoop,
        LoopState.expects, LoopState.next, Stage.call, Machine.after]
    | monitoring =>
      have ht : isType (withResidue b (padded b deviceDisconnected) hb) deviceDisconnected = true :=
        isType_over hb hlen (List.prefix_refl _) (by decide)
      have ht' : isType (blank b hb) deviceDisconnected = false :=
        isType_blank hb hlen (by decide) _
      refine ⟨b ++ padded b deviceDisconnected, [], .inl fun a => .inl ?_⟩
      change _ ≠ (eventLoop.expects (react .monitoring (blank b hb))).map _
      rw [← withResidue]
      simp [react, ht, ht', Call.blurred, eventLoop, LoopState.expects, Stage.call]
    | established => exact absurd trivial h
    | ended => exact absurd trivial h
    | faulted => exact absurd trivial h
  · cases φ with
    | searching =>
      -- the end of the address is read from the residue
      obtain ⟨hpre, hshort, hnul⟩ : goNegRequest <+: b.drop prefixLen ∧
          b.length < prefixLen + goNegRequest.length + macAddressLen ∧ 0 ∉ macField b := by
        by_contra hno
        refine h ⟨hlen, fun hpre => ?_⟩
        by_contra hor
        rw [not_or] at hor
        exact hno ⟨hpre, Nat.lt_of_not_le hor.1, hor.2⟩
      have hlen' := length_of_type (by decide) hpre
      have hfit : b.length + 1 ≤ messageCap := Nat.le_trans hshort (by decide)
      have ht : ∀ v, isType (withResidue b [v] hb) goNegRequest = true :=
        fun v => (isType_iff_received (m := withResidue b [v] hb) hlen _).mpr hpre
      obtain ⟨x, hx⟩ := connectCall_over hb hlen' hshort hnul hfit (v := 1) (by decide)
      obtain ⟨y, hy⟩ := connectCall_over hb hlen' hshort hnul hfit (v := 2) (by decide)
      refine ⟨b ++ [1], b ++ [2], .inl fun a => .inl fun he => ?_⟩
      change (eventLoop.expects (react .searching (withResidue b [1] hb))).map _ =
        (eventLoop.expects (react .searching (withResidue b [2] hb))).map _ at he
      simp only [react, ht, if_true, hx, hy] at he
      have hcmd := List.append_cancel_left (Call.system.inj (Option.some.inj he))
      exact absurd (List.cons.inj hcmd).1 (by decide)
    | negotiating =>
      -- the end of the name is read from the residue, or from beyond
      obtain ⟨hpre, hspace⟩ : groupStarted <+: b.drop prefixLen ∧
          space ∉ b.drop (prefixLen + groupStarted.length) := by
        by_contra hno
        refine h ⟨hlen, fun hpre => ?_⟩
        by_contra hspace
        exact hno ⟨hpre, hspace⟩
      have ht : isType (blank b hb) groupStarted = true := (isType_iff_received hlen _).mpr hpre
      have hname : space ∉ nameCells (blank b hb) := by
        rw [nameCells_eq (length_of_type (by decide) hpre), blank, Delivery.residue_blank]
        exact fun hmem => (List.mem_append.mp hmem).elim hspace
          fun hres => absurd (List.eq_of_mem_replicate hres) (by decide)
      refine ⟨[], [], .inr ⟨.print (blank b hb).buffer.cells, ?_⟩⟩
      change react .negotiating (blank b hb) = _
      simp only [react, ht, hname, if_true, if_false]
    | monitoring => exact absurd hlen h
    | established => exact absurd trivial h
    | ended => exact absurd trivial h
    | faulted => exact absurd trivial h

/-! ## 4. Runs -/

namespace StaleBytesLemmas

theorem sameReceived_iff {r r' : Answer} (h : SameReceived r r') :
    r.isSet = r'.isSet ∧ r.handle = r'.handle ∧ r.ret = r'.ret ∧ r.offer = r'.offer := by
  cases r
  cases r'
  simp only [SameReceived, Answer.mk.injEq] at h
  exact ⟨h.2.1, h.2.2.1, h.1, h.2.2.2.1⟩

/-- Two receives of the same bytes both fail, or deliver the same bytes. -/
theorem delivered_congr {r r' : Answer} (h : SameReceived r r') :
    delivered r = none ∧ delivered r' = none ∨
      ∃ m m', delivered r = some m ∧ delivered r' = some m' ∧ m.bytes = m'.bytes := by
  obtain ⟨-, -, hret, hoffer⟩ := sameReceived_iff h
  unfold delivered
  rw [← hret, ← hoffer]
  split
  · exact .inl ⟨rfl, rfl⟩
  · exact .inr ⟨_, _, rfl, rfl, rfl⟩

theorem expects_blurred (s : LoopState) :
    eventLoop.expects s.blurred = (eventLoop.expects s).map Call.blurred := by
  obtain ⟨φ, st, owed⟩ := s
  cases owed with
  | cons c cs => rfl
  | nil => cases φ <;> cases st <;> rfl

/-- States that look alike expect calls that look alike. -/
theorem expects_congr {s s' : LoopState} (h : s.blurred = s'.blurred) :
    (eventLoop.expects s).map Call.blurred = (eventLoop.expects s').map Call.blurred := by
  rw [← expects_blurred, ← expects_blurred, h]

theorem expects_cases {s s' : LoopState} (h : s.blurred = s'.blurred) :
    eventLoop.expects s = none ∧ eventLoop.expects s' = none ∨
      ∃ c c', eventLoop.expects s = some c ∧ eventLoop.expects s' = some c' := by
  have hexp := expects_congr h
  cases hc : eventLoop.expects s with
  | none =>
    rw [hc] at hexp
    exact .inl ⟨rfl, Option.map_eq_none_iff.mp hexp.symm⟩
  | some c =>
    rw [hc] at hexp
    obtain ⟨c', hc', -⟩ := Option.map_eq_some_iff.mp hexp.symm
    exact .inr ⟨c, c', rfl, hc'⟩

/-- States that look alike still do after answers that have the same effect. -/
theorem next_congr {s s' : LoopState} (h : s.blurred = s'.blurred) {r r' : Answer}
    (hset : r.isSet = r'.isSet)
    (hrecv : s = ⟨s.phase, .recv, []⟩ → delivered r = none ∧ delivered r' = none ∨
      ∃ m m', delivered r = some m ∧ delivered r' = some m' ∧
        (react s.phase m).blurred = (react s.phase m').blurred) :
    (eventLoop.next s r).blurred = (eventLoop.next s' r').blurred := by
  obtain ⟨φ, st, owed⟩ := s
  obtain ⟨φ', st', owed'⟩ := s'
  simp only [LoopState.blurred, LoopState.mk.injEq] at h
  obtain ⟨rfl, rfl, howed⟩ := h
  cases owed with
  | cons c cs =>
    cases owed' with
    | nil => exact nomatch howed
    | cons c' cs' =>
      change LoopState.blurred ⟨φ, st, cs⟩ = LoopState.blurred ⟨φ, st, cs'⟩
      rw [LoopState.blurred, LoopState.blurred, (List.cons.inj howed).2]
  | nil =>
    obtain rfl : owed' = [] := List.map_eq_nil_iff.mp howed.symm
    cases st with
    | poll => rw [show (⟨φ, .poll, []⟩ : LoopState) = atPoll φ from rfl, next_poll, next_poll, hset]
    | check => rw [next_check, next_check, hset]
    | recv =>
      rw [next_recv, next_recv]
      rcases hrecv rfl with ⟨hd, hd'⟩ | ⟨m, m', hd, hd', hreact⟩
      · rw [hd, hd']
      · rw [hd, hd']
        exact hreact

/-- The run of the machine from `s`, as `SelfContainedRun` looks at it. -/
abbrev stateFrom (s : LoopState) (rs : List Answer) : Option LoopState :=
  some (eventLoop.after s rs)

theorem selfContainedRun_mono {state : List Answer → Option LoopState} {rs rs' : List Answer}
    (hpre : rs' <+: rs) (h : SelfContainedRun state rs) : SelfContainedRun state rs' :=
  fun rs'' r m φ hpre' => h rs'' r m φ (hpre'.trans hpre)

theorem selfContainedRun_tail {s : LoopState} {c : Call} (hc : eventLoop.expects s = some c)
    {r : Answer} {rs : List Answer} (h : SelfContainedRun (stateFrom s) (r :: rs)) :
    SelfContainedRun (stateFrom (eventLoop.next s r)) rs := by
  intro rs' r' m φ hpre hs hd
  refine h (r :: rs') r' m φ (List.cons_prefix_cons.mpr ⟨rfl, hpre⟩) ?_ hd
  rw [stateFrom, eventLoop.after_cons hc]
  exact hs

/-- The message a state receives from the head of a self-contained run. -/
theorem selfContained_head {s : LoopState} (hs : s = ⟨s.phase, .recv, []⟩) {r : Answer}
    {rs : List Answer} (h : SelfContainedRun (stateFrom s) (r :: rs)) {m : Message}
    (hd : delivered r = some m) : SelfContained s.phase m.bytes :=
  h [] r m s.phase ⟨rs, rfl⟩ (congrArg some hs) hd

/-- Runs that receive the same self-contained messages stay alike. -/
theorem after_congr {s s' : LoopState} (hs : s.blurred = s'.blurred) {rs rs' : List Answer}
    (hrs : List.Forall₂ SameReceived rs rs') (h : SelfContainedRun (stateFrom s) rs) :
    (eventLoop.after s rs).blurred = (eventLoop.after s' rs').blurred := by
  induction hrs generalizing s s' with
  | nil => exact hs
  | @cons r r' rs rs' hr _ ih =>
    rcases expects_cases hs with ⟨hc, hc'⟩ | ⟨c, c', hc, hc'⟩
    · rw [eventLoop.after_of_expects_none hc, eventLoop.after_of_expects_none hc', hs]
    · rw [eventLoop.after_cons hc, eventLoop.after_cons hc']
      refine ih (next_congr hs (sameReceived_iff hr).1 fun hrecv => ?_) (selfContainedRun_tail hc h)
      rcases delivered_congr hr with hnone | ⟨m, m', hd, hd', hb⟩
      · exact .inl hnone
      · exact .inr ⟨m, m', hd, hd', react_blurred hb (selfContained_head hrecv h hd)⟩

/-- And so do runs on the very same answers. -/
theorem after_congr_same {s s' : LoopState} (hs : s.blurred = s'.blurred) (rs : List Answer) :
    (eventLoop.after s rs).blurred = (eventLoop.after s' rs).blurred := by
  induction rs generalizing s s' with
  | nil => exact hs
  | cons r rs ih =>
    rcases expects_cases hs with ⟨hc, hc'⟩ | ⟨c, c', hc, hc'⟩
    · rw [eventLoop.after_of_expects_none hc, eventLoop.after_of_expects_none hc', hs]
    · rw [eventLoop.after_cons hc, eventLoop.after_cons hc']
      refine ih (next_congr hs rfl fun _ => ?_)
      cases delivered r with
      | none => exact .inl ⟨rfl, rfl⟩
      | some m => exact .inr ⟨m, m, rfl, rfl, rfl⟩

/-- A self-contained message is read inside the buffer. -/
theorem react_defined {φ : Phase} {m : Message} (hφ : φ ≠ .faulted) (h : SelfContained φ m.bytes) :
    (react φ m).phase ≠ .faulted := by
  cases φ with
  | searching =>
    simp only [react]
    split <;> exact fun h => Phase.noConfusion h
  | negotiating =>
    obtain ⟨hlen, hname⟩ := h
    simp only [react]
    split
    · rename_i ht
      have hpre := (isType_iff_received hlen _).mp ht
      have hspace : space ∈ nameCells m := by
        rw [nameCells_eq (length_of_type (by decide) hpre)]
        exact List.mem_append_left _ (hname hpre)
      rw [if_pos hspace]
      exact fun h => Phase.noConfusion h
    · split <;> exact fun h => Phase.noConfusion h
  | monitoring =>
    simp only [react]
    split <;> exact fun h => Phase.noConfusion h
  | established => exact fun h => Phase.noConfusion h
  | ended => exact fun h => Phase.noConfusion h
  | faulted => exact hφ

/-- The machine leaves defined behaviour only by a message. -/
theorem next_defined {s : LoopState} (hs : s.phase ≠ .faulted) {r : Answer}
    (hrecv : s = ⟨s.phase, .recv, []⟩ → ∀ m, delivered r = some m →
      (react s.phase m).phase ≠ .faulted) : (eventLoop.next s r).phase ≠ .faulted := by
  obtain ⟨φ, st, owed⟩ := s
  have hidle : (idle φ).phase = φ := by cases φ <;> rfl
  cases owed with
  | cons c cs => exact hs
  | nil =>
    cases st with
    | poll =>
      rw [show (⟨φ, .poll, []⟩ : LoopState) = atPoll φ from rfl, next_poll]
      split
      · exact hs
      · rwa [hidle]
    | check =>
      rw [next_check]
      split
      · exact hs
      · exact fun h => Phase.noConfusion h
    | recv =>
      rw [next_recv]
      cases hd : delivered r with
      | none => simpa only [hidle] using hs
      | some m => exact hrecv rfl m hd

theorem after_defined {s : LoopState} (hs : s.phase ≠ .faulted) {rs : List Answer}
    (h : SelfContainedRun (stateFrom s) rs) : (eventLoop.after s rs).phase ≠ .faulted := by
  induction rs generalizing s with
  | nil => exact hs
  | cons r rs ih =>
    cases hc : eventLoop.expects s with
    | none => rwa [eventLoop.after_of_expects_none hc]
    | some c =>
      rw [eventLoop.after_cons hc]
      exact ih (next_defined hs fun hrecv m hd => react_defined hs (selfContained_head hrecv h hd))
        (selfContainedRun_tail hc h)

/-- Where nothing more arrives, nothing more is read. -/
theorem after_default_defined {s : LoopState} (hs : s.phase ≠ .faulted) (n : Nat) :
    (eventLoop.after s (List.replicate n default)).phase ≠ .faulted := by
  induction n generalizing s with
  | zero => exact hs
  | succ n ih =>
    rw [List.replicate_succ]
    cases hc : eventLoop.expects s with
    | none => rwa [eventLoop.after_of_expects_none hc]
    | some c =>
      rw [eventLoop.after_cons hc]
      refine ih (next_defined hs fun _ m hd => ?_)
      obtain rfl : Delivery.ofOffer messageCap [] [] = m := Option.some.inj hd
      revert hs
      generalize s.phase = φ
      cases φ <;> decide

variable {p : Drv Unit} {s : LoopState} {φ : Phase} {rs : List Answer}

/-- A program that keeps the machine and receives self-contained messages only
depends on the bytes received. -/
theorem onlyReceived_of_selfContained (hφ : eventLoop.expects (atPoll φ) = none)
    (hne : φ ≠ .faulted) (hk : Keeps loopSpec s p fun _ s => s = atPoll φ) (hs : s.phase ≠ .faulted)
    (h : SelfContainedRun (stateFrom s) rs) : OnlyReceived p rs := by
  intro rs₁ rs₂ h₁ h₂
  have hlen : rs₁.length = rs₂.length := h₁.length_eq.symm.trans h₂.length_eq
  -- the two runs are alike at every point, whatever follows
  have htake : ∀ rest i, (eventLoop.after s ((rs₁ ++ rest).take i)).blurred =
      (eventLoop.after s ((rs₂ ++ rest).take i)).blurred := by
    intro rest i
    have hi := selfContainedRun_mono (List.take_prefix i rs) h
    have hsim := (after_congr rfl (List.forall₂_take i h₁) hi).symm.trans
      (after_congr rfl (List.forall₂_take i h₂) hi)
    rw [List.take_append, List.take_append, eventLoop.after_append, eventLoop.after_append, hlen]
    exact after_congr_same hsim _
  have hwhole : ∀ rest, (eventLoop.after s (rs₁ ++ rest)).blurred =
      (eventLoop.after s (rs₂ ++ rest)).blurred := by
    intro rest
    have hall := htake rest (rs₁ ++ rest).length
    rwa [List.take_length, List.length_append, hlen, ← List.length_append, List.take_length] at hall
  constructor
  · intro rest
    have hlen' : (rs₁ ++ rest).length = (rs₂ ++ rest).length := by simp [hlen]
    refine List.ext_getElem? fun i => ?_
    rw [List.getElem?_map, List.getElem?_map]
    by_cases hi : i ≤ (rs₁ ++ rest).length
    · rw [p.issued_getElem? hi, p.issued_getElem? (hlen' ▸ hi), loop_pending hφ hk,
        loop_pending hφ hk]
      exact expects_congr (htake rest i)
    · rw [List.getElem?_eq_none ((p.issued_length_le _).trans (by omega)),
        List.getElem?_eq_none ((p.issued_length_le _).trans (by omega))]
  · intro rest
    rw [loop_returned_iff hφ hne hk, loop_returned_iff hφ hne hk]
    have hiff : ∀ s : LoopState, s = atPoll φ ↔ s.blurred = atPoll φ := by
      rintro ⟨φ', st, owed⟩
      simp [LoopState.blurred, atPoll]
    rw [hiff, hiff (eventLoop.after s (rs₂ ++ rest)), hwhole]
  · intro n hfault
    rw [loop_fault_iff hφ hne hk, eventLoop.after_append] at hfault
    have hphase : (eventLoop.after s rs).blurred.phase = (eventLoop.after s rs₁).blurred.phase := by
      rw [after_congr rfl h₁ h]
    change (eventLoop.after s rs).phase = (eventLoop.after s rs₁).phase at hphase
    exact after_default_defined (hphase ▸ after_defined hs h) n (congrArg LoopState.phase hfault)

/-- Runs with the same calls wait on the same call at every point. -/
theorem pending_of_issued {rs₁ rs₂ : List Answer} (hlen : rs₁.length = rs₂.length)
    (h : (p.issued rs₁).map Call.blurred = (p.issued rs₂).map Call.blurred) {i : Nat}
    (hi : i ≤ rs₁.length) : (p.after (rs₁.take i)).pending.map Call.blurred =
      (p.after (rs₂.take i)).pending.map Call.blurred := by
  rw [← p.issued_getElem? hi, ← p.issued_getElem? (hlen ▸ hi), ← List.getElem?_map,
    ← List.getElem?_map, h]

/-- The run that reaches `r` in the state `s`, over another residue. -/
def runOver (before : List Answer) (r : Answer) (x : Bytes) (rest : List Answer) : List Answer :=
  before ++ { r with stale := x } :: rest

theorem sameReceived_runOver (before : List Answer) (r : Answer) (x : Bytes) (rest : List Answer) :
    List.Forall₂ SameReceived (before ++ r :: rest) (runOver before r x rest) :=
  have hrefl : ∀ l : List Answer, List.Forall₂ SameReceived l l :=
    fun _ => List.forall₂_same.mpr fun _ _ => rfl
  List.rel_append (hrefl before) (.cons rfl (hrefl rest))

theorem after_runOver {before : List Answer} {r : Answer} {m : Message} {φ' : Phase}
    (hat : eventLoop.after s before = ⟨φ', .recv, []⟩) (hd : delivered r = some m)
    (hexp : eventLoop.expects ⟨φ', .recv, []⟩ = some (.wpaCtrlRecv messageCap)) (x : Bytes)
    (rest : List Answer) : eventLoop.after s (runOver before r x rest) =
      eventLoop.after (react φ' ⟨m.bytes, x, m.fits⟩) rest := by
  have hdx : delivered { r with stale := x } = some ⟨m.bytes, x, m.fits⟩ := by
    simp only [delivered] at hd ⊢
    by_cases hret : r.ret < 0
    · rw [if_pos hret] at hd
      cases hd
    · rw [if_neg hret] at hd ⊢
      cases hd
      rfl
  rw [runOver, eventLoop.after_append, hat, eventLoop.after_cons hexp, next_recv, hdx]

/-- Two runs over residues that lead apart can be told apart by their calls. -/
theorem issued_ne_of_apart (hφ : eventLoop.expects (atPoll φ) = none)
    (hk : Keeps loopSpec s p fun _ s => s = atPoll φ) {before rest : List Answer} {r : Answer}
    {m : Message} {φ' : Phase} (hat : eventLoop.after s before = ⟨φ', .recv, []⟩)
    (hd : delivered r = some m)
    (hexp : eventLoop.expects ⟨φ', .recv, []⟩ = some (.wpaCtrlRecv messageCap)) {x x' : Bytes}
    (h : Apart (react φ' ⟨m.bytes, x, m.fits⟩) (react φ' ⟨m.bytes, x', m.fits⟩)) (a : Answer) :
    (p.issued (runOver before r x (a :: rest))).map Call.blurred ≠
      (p.issued (runOver before r x' (a :: rest))).map Call.blurred := by
  intro he
  have htake : ∀ (x : Bytes) (t t' : List Answer),
      (runOver before r x (t ++ t')).take (before.length + 1 + t.length) =
        runOver before r x t := by
    intro x t t'
    have hcut : runOver before r x (t ++ t') = runOver before r x t ++ t' := by
      simp only [runOver, List.append_assoc, List.cons_append]
    rw [hcut]
    exact List.take_left' (by simp only [runOver, List.length_append, List.length_cons]; omega)
  have hlen : (runOver before r x (a :: rest)).length =
      (runOver before r x' (a :: rest)).length := by
    simp only [runOver, List.length_append, List.length_cons]
  have hpend : ∀ t t', a :: rest = t ++ t' →
      (eventLoop.expects (eventLoop.after (react φ' ⟨m.bytes, x, m.fits⟩) t)).map Call.blurred =
        (eventLoop.expects (eventLoop.after (react φ' ⟨m.bytes, x', m.fits⟩) t)).map
          Call.blurred := by
    intro t t' ht
    have hi : before.length + 1 + t.length ≤ (runOver before r x (a :: rest)).length := by
      rw [ht]
      simp only [runOver, List.length_append, List.length_cons]
      omega
    have hp := pending_of_issued hlen he hi
    rwa [ht, htake, htake, loop_pending hφ hk, loop_pending hφ hk, after_runOver hat hd hexp,
      after_runOver hat hd hexp] at hp
  rcases h a with hfirst | hsecond
  · exact hfirst (hpend [] _ rfl)
  · exact hsecond (hpend [a] rest rfl)

/-- A program that keeps the machine and only depends on the bytes received gets
self-contained messages: any other one is a run that can be told apart. -/
theorem selfContained_of_onlyReceived (hφ : eventLoop.expects (atPoll φ) = none)
    (hne : φ ≠ .faulted) (hk : Keeps loopSpec s p fun _ s => s = atPoll φ)
    (h : OnlyReceived p rs) : SelfContainedRun (stateFrom s) rs := by
  intro before r m φ' hpre hstate hd
  by_contra hno
  obtain ⟨tail, rfl⟩ := hpre
  rw [List.append_assoc, List.singleton_append] at h
  have hat : eventLoop.after s before = ⟨φ', .recv, []⟩ := Option.some.inj hstate
  have hexp : eventLoop.expects ⟨φ', .recv, []⟩ = some (.wpaCtrlRecv messageCap) := by
    cases φ' with
    | searching => rfl
    | negotiating => rfl
    | monitoring => rfl
    | established => exact absurd trivial hno
    | ended => exact absurd trivial hno
    | faulted => exact absurd trivial hno
  -- one more answer shows the call behind the print
  obtain ⟨a, rest, hrest⟩ : ∃ a rest, tail ++ [default] = a :: rest := by
    cases tail with
    | nil => exact ⟨_, _, rfl⟩
    | cons a tail => exact ⟨_, _, rfl⟩
  have hmore : ∀ x, runOver before r x tail ++ [default] = runOver before r x (a :: rest) := by
    intro x
    rw [← hrest]
    simp only [runOver, List.append_assoc, List.cons_append]
  obtain ⟨x, x', hcase⟩ := exists_apart_or_fault m.fits hno
  have hagree := h _ _ (sameReceived_runOver before r x tail)
    (sameReceived_runOver before r x' tail)
  rcases hcase with hapart | ⟨c, hfault⟩
  · have hcalls := hagree.calls [default]
    rw [hmore, hmore] at hcalls
    exact issued_ne_of_apart hφ hk hat hd hexp hapart a hcalls
  · refine hagree.defined 1 ((loop_fault_iff hφ hne hk _).mpr ?_)
    rw [show List.replicate 1 default = [(default : Answer)] from rfl, hmore,
      after_runOver hat hd hexp, hfault, eventLoop.after_cons rfl]
    exact eventLoop.after_of_expects_none rfl rest

theorem onlyReceived_iff (hφ : eventLoop.expects (atPoll φ) = none) (hne : φ ≠ .faulted)
    (hk : Keeps loopSpec s p fun _ s => s = atPoll φ) (hs : s.phase ≠ .faulted) :
    OnlyReceived p rs ↔ SelfContainedRun (stateFrom s) rs :=
  ⟨selfContained_of_onlyReceived hφ hne hk, onlyReceived_of_selfContained hφ hne hk hs⟩

/-- A first call whose answer carries no bytes does not matter. -/
theorem onlyReceived_cons {c : Call} (hc : p.pending = some c) {r : Answer}
    (hres : ∀ r', SameReceived r r' → p.resume r' = p.resume r) :
    OnlyReceived p (r :: rs) ↔ OnlyReceived (p.resume r) rs := by
  have hissued : ∀ r' rs', SameReceived r r' →
      p.issued (r' :: rs') = c :: (p.resume r).issued rs' := by
    intro r' rs' hr'
    rw [issued, trace_cons hc, after_cons hc, hres r' hr']
    rfl
  have hafter : ∀ r' rs', SameReceived r r' → p.after (r' :: rs') = (p.resume r).after rs' := by
    intro r' rs' hr'
    rw [after_cons hc, hres r' hr']
  constructor
  · intro h rs₁ rs₂ h₁ h₂
    obtain ⟨hcalls, hret, hdef⟩ := h _ _ (.cons (rfl : SameReceived r r) h₁)
      (.cons (rfl : SameReceived r r) h₂)
    constructor
    · intro rest
      have htail := hcalls rest
      rw [List.cons_append, List.cons_append, hissued r _ rfl, hissued r _ rfl] at htail
      exact (List.cons.inj htail).2
    · intro rest
      have htail := hret rest
      rwa [List.cons_append, List.cons_append, hafter r _ rfl, hafter r _ rfl] at htail
    · intro n hfault
      refine hdef n ?_
      rwa [List.cons_append, hafter r _ rfl]
  · intro h rs₁ rs₂ h₁ h₂
    cases h₁ with
    | @cons _ r₁ _ rs₁ hr₁ h₁ =>
      cases h₂ with
      | @cons _ r₂ _ rs₂ hr₂ h₂ =>
        obtain ⟨hcalls, hret, hdef⟩ := h _ _ h₁ h₂
        constructor
        · intro rest
          rw [List.cons_append, List.cons_append, hissued r₁ _ hr₁, hissued r₂ _ hr₂, List.map_cons,
            List.map_cons, hcalls rest]
        · intro rest
          rw [List.cons_append, List.cons_append, hafter r₁ _ hr₁, hafter r₂ _ hr₂]
          exact hret rest
        · intro n
          rw [List.cons_append, hafter r₁ _ hr₁]
          exact hdef n

/-- `connect_loop` with a null `control_data` returns at once. -/
theorem onlyReceived_ret (rs : List Answer) : OnlyReceived (.ret ()) rs := by
  intro rs₁ rs₂ _ _
  have hafter : ∀ l, (Prog.ret () : Drv Unit).after l = .ret () :=
    fun l => after_of_pending_none rfl l
  have hissued : ∀ l, (Prog.ret () : Drv Unit).issued l = [] := by
    intro l
    rw [issued, trace_of_pending_none rfl, hafter]
    rfl
  exact ⟨fun rest => by rw [hissued, hissued], fun rest => by rw [hafter, hafter],
    fun n => by rw [hafter]; exact ret_ne_fault _⟩

theorem onlyReceived_connectLoop (rs : List Answer) :
    OnlyReceived connectLoop rs ↔ SelfContainedRun connectState rs := by
  cases rs with
  | nil =>
    constructor
    · intro _ rs' r m φ hpre
      exact absurd (List.prefix_nil.mp hpre) (by simp)
    · intro _ rs₁ rs₂ h₁ h₂
      cases h₁
      cases h₂
      refine ⟨fun _ => rfl, fun _ => Iff.rfl, fun n => ?_⟩
      cases n with
      | zero => exact call_ne_fault _ _
      | succ n =>
        rw [List.nil_append, List.replicate_succ, after_cons (p := connectLoop) rfl,
          show connectLoop.resume default = .ret () from rfl, after_of_pending_none rfl]
        exact ret_ne_fault _
  | cons control rs =>
    have hres : ∀ r', SameReceived control r' →
        connectLoop.resume r' = connectLoop.resume control := by
      intro r' hr'
      simp only [connectLoop, resume_call, (sameReceived_iff hr').2.1]
    rw [onlyReceived_cons (p := connectLoop) rfl hres]
    by_cases hcontrol : control.handle = none
    · rw [show connectLoop.resume control = .ret () from if_pos hcontrol]
      refine ⟨fun _ rs' r m φ hpre hs hd => ?_, fun _ => onlyReceived_ret rs⟩
      cases rs' with
      | nil => exact nomatch hs
      | cons c rs' =>
        obtain rfl := (List.cons_prefix_cons.mp hpre).1
        rw [connectState, if_pos hcontrol] at hs
        exact nomatch hs
    · rw [onlyReceived_iff rfl (by decide) (keeps_connectLoop hcontrol) (by decide)]
      constructor
      · intro h rs' r m φ hpre hs hd
        cases rs' with
        | nil => exact nomatch hs
        | cons c rs' =>
          obtain ⟨rfl, hpre'⟩ := List.cons_prefix_cons.mp hpre
          rw [connectState, if_neg hcontrol] at hs
          exact h rs' r m φ hpre' hs hd
      · intro h rs' r m φ hpre hs hd
        refine h (control :: rs') r m φ (List.cons_prefix_cons.mpr ⟨rfl, hpre⟩) ?_ hd
        rw [connectState, if_neg hcontrol]
        exact hs

theorem onlyReceived_connectedLoop (rs : List Answer) :
    OnlyReceived connectedLoop rs ↔ SelfContainedRun monitorState rs :=
  onlyReceived_iff rfl (by decide) keeps_connectedLoop (by decide)

end StaleBytesLemmas

/-- A run of `connect_loop`, and one of `connected_loop`, depends on the received
bytes alone exactly when every message is self-contained where it is received. -/
theorem polling_onlyReceived_iff (rs : List Answer) :
    (OnlyReceived connectLoop rs ↔ SelfContainedRun connectState rs) ∧
      (OnlyReceived connectedLoop rs ↔ SelfContainedRun monitorState rs) :=
  ⟨onlyReceived_connectLoop rs, onlyReceived_connectedLoop rs⟩

/-- A run that receives a request cut after its type. -/
def cutRequest (stale : Bytes) : List Answer :=
  [{ handle := some 1 }, {}, { isSet := true },
    { offer := bytes "<3>P2P-GO-NEG-REQUEST ", stale := stale }]

/-- What an earlier datagram has left in the buffer decides whom the driver
connects to. -/
theorem onlyReceived_cut_request : ¬ OnlyReceived connectLoop (cutRequest []) := by
  intro h
  have hagree := h (cutRequest []) (cutRequest (bytes "<3>P2P-GO-NEG-REQUEST 02:00:00:00:00:01"))
    (List.forall₂_same.mpr fun _ _ => rfl) (.cons rfl (.cons rfl (.cons rfl (.cons rfl .nil))))
  exact absurd (hagree.calls []) (by decide)

end P2pDriver
