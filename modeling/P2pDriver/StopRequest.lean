import P2pDriver.SessionMachine
import P2pDriver.SessionProtocol

/-!
# Stop requests

A session ends when `run_command_loop` is cleared. Both session threads clear it,
both read it, and either may come first. This module says what a cleared flag is
good for, in every run of the process: it stays cleared, both threads end, and
at most one more command is executed.

Results:
1. `connectedLoop_left`: why `connected_loop` returns.
2. `stopRequests_kept`: sessions end by a stop request, and do not leak into each other.
3. `commands_after_stop`: the commands executed after a stop request.
-/

namespace P2pDriver

open Resumable Prog EventLoopLemmas SessionMachineLemmas

/-! ## 1. Why `connected_loop` returns -/

/-- The last calls of `connected_loop`: it has handled an `AP_STA_DISCONNECTED`
event, or it has read the flag false. -/
def LeftProperly (tr : List (Call × Answer)) : Prop :=
  (∃ before r m r₁ r₂ r₃, tr = before ++ [(.wpaCtrlRecv messageCap, r), (.print m.buffer.cells, r₁),
      (.setConnectionIsValid false, r₂), (.setListenForCommands false, r₃)] ∧
    delivered r = some m ∧ isType m deviceDisconnected = true ∧
    (prefixLen ≤ m.bytes.length → deviceDisconnected <+: m.bytes.drop prefixLen)) ∨
  ∃ before r r₁, tr = before ++ [(.isListeningForCommands, r), (.setConnectionIsValid false, r₁)] ∧
    r.isSet = false

namespace StopRequestLemmas

/-- The monitor that remembers, and forbids nothing. -/
abbrev recorder : Spec Call Answer (List (Call × Answer)) :=
  historySpec (fun _ _ _ => True) fun _ _ => true

abbrev LeftRound : Option Unit → List (Call × Answer) → Prop :=
  RoundPost recorder (fun _ => True) (.ret : Unit → Drv Unit) fun _ past =>
    LeftProperly past.reverse

theorem keeps_stopRound_left (past : List (Call × Answer)) :
    Keeps recorder past stopRound LeftRound := by
  refine keeps_allowed rfl fun listening _ => ?_
  split
  · exact keeps_ret trivial
  · rename_i hread
    refine keeps_allowed rfl fun r _ => keeps_ret (keeps_ret
      (.inr ⟨past.reverse, listening, r, ?_, ?_⟩))
    · simp
    · simpa using hread

theorem keeps_disconnectRound_left {past : List (Call × Answer)} {r : Answer} {m : Message}
    (hm : delivered r = some m) (htype : isType m deviceDisconnected = true) :
    Keeps recorder ((.wpaCtrlRecv messageCap, r) :: past) (disconnectRound m) LeftRound := by
  refine keeps_allowed rfl fun r₁ _ => keeps_allowed rfl fun r₂ _ =>
    keeps_allowed rfl fun r₃ _ => ?_
  refine keeps_ret
    (keeps_ret (.inl ⟨past.reverse, r, m, r₁, r₂, r₃, ?_, hm, htype, fun hlen => ?_⟩))
  · simp
  · exact (isType_iff_received hlen _).mp htype

theorem keeps_connectedLoop_left (past : List (Call × Answer)) :
    Keeps recorder past connectedLoop fun _ past => LeftProperly past.reverse := by
  refine keeps_forever (c := .wpaCtrlPending) (fun _ => True) trivial rfl fun past _ => ?_
  refine keeps_allowed rfl fun pending _ => ?_
  refine keeps_poll (fun _ => keeps_stopRound_left _) fun _ r _ => ⟨_, rfl, ?_⟩
  cases hm : delivered r with
  | none => exact keeps_stopRound_left _
  | some m =>
    simp only [bind_eq]
    rw [testType_eq _ (by decide), ret_bind]
    split
    · rename_i htype
      exact keeps_disconnectRound_left hm htype
    · exact keeps_stopRound_left _

end StopRequestLemmas

open StopRequestLemmas

/-- `connected_loop` returns after a disconnect, or after it has read the flag false. -/
theorem connectedLoop_left {rs : List Answer} (hret : connectedLoop.after rs = .ret ()) :
    LeftProperly (connectedLoop.trace rs) := by
  obtain ⟨past, hexec, hk⟩ :=
    (keeps_connectedLoop_left []).exec rs (admits_of_true (fun _ _ _ => trivial) _ _)
  obtain rfl := exec_history hexec
  rw [hret] at hk
  simpa using hk.result

/-! ## 2. Within a session -/

/-- `enter_connected_state` sets the flag. -/
def startsSession : Move → Bool
  | .call .main (.setListenForCommands true) _ => true
  | _ => false

/-- `enter_connected_state` joins its second thread, and returns. -/
def endsSession : Move → Bool
  | .call .main (.join .connectionListener) _ => true
  | _ => false

/-- `listen_for_commands` reads the flag. -/
def readsFlag : Move → Bool
  | .call .commandHandler .isListeningForCommands _ => true
  | _ => false

/-- `listen_for_commands` calls `execute_command`. -/
def executes : Move → Bool
  | .call .commandHandler (.mark .executeCommand) _ => true
  | _ => false

namespace StopRequestLemmas

variable {a a' : SessionState} {l : Move} {ls : List Move}

/-- The commands that may still be executed once the flag is false. -/
def remaining (a : SessionState) : Nat :=
  match a.listener with
  | some .ready => 1
  | _ => 0

theorem main_inside {m m' : MainPhase} {c : Call} {r : Answer} (hin : m ≠ .outside)
    (hm : m.step c = some m') (hl : endsSession (.call .main c r) = false) :
    m' ≠ .outside ∧ ∀ flag, flagAfter flag c = flag := by
  rcases main_step_cases hm with ⟨rfl, -, -⟩ | ⟨rfl, -, -⟩ | ⟨rfl, rfl, rfl⟩ | ⟨rfl, rfl, rfl⟩ |
    ⟨rfl, rfl, rfl⟩ | ⟨rfl, rfl, rfl⟩
  · exact absurd rfl hin
  · exact absurd rfl hin
  · exact ⟨by decide, fun _ => rfl⟩
  · exact ⟨by decide, fun _ => rfl⟩
  · exact ⟨by decide, fun _ => rfl⟩
  · cases hl

/-- A step within a session: `main` stays inside, and a false flag stays false. -/
theorem inside_moves (h : a.Moves l a') (hin : a.main ≠ .outside) (hl : endsSession l = false) :
    a'.main ≠ .outside ∧ (a.flag = false → a'.flag = false) := by
  cases h with
  | interrupt => exact ⟨hin, id⟩
  | handler hc => exact ⟨hin, id⟩
  | main hm _ _ =>
    obtain ⟨hin', hflag⟩ := main_inside hin hm hl
    exact ⟨hin', fun hf => by rw [hflag, hf]⟩
  | listener _ hstep _ _ => exact ⟨hin, flag_of_listener_step hstep⟩
  | watcher _ hstep _ _ => exact ⟨hin, flag_of_watcher_step hstep⟩

/-- A session starts while no thread of an earlier one runs. -/
theorem starts_moves (h : a.Moves l a') (hc : Coherent a) (hl : startsSession l = true) :
    (a.listener = none ∧ a.watcher = none) ∧ a'.main ≠ .outside ∧ a'.listener = none := by
  cases h with
  | interrupt => exact Bool.noConfusion hl
  | @handler t c r hdisposal =>
    cases c <;> first | exact Bool.noConfusion hdisposal | (cases t <;> exact Bool.noConfusion hl)
  | listener _ _ _ _ => exact Bool.noConfusion hl
  | watcher _ _ _ _ => exact Bool.noConfusion hl
  | @main c r m hm _ _ =>
    rcases main_step_cases hm with ⟨hmain, rfl, rfl⟩ | ⟨-, hsession, -⟩ | ⟨-, rfl, -⟩ |
      ⟨-, rfl, -⟩ | ⟨-, rfl, -⟩ | ⟨-, rfl, -⟩
    · obtain ⟨hlistener, hwatcher, -⟩ := hc.outside hmain
      exact ⟨⟨hlistener, hwatcher⟩, fun h => MainPhase.noConfusion h, hlistener⟩
    · cases c <;> first | exact Bool.noConfusion hsession | exact Bool.noConfusion hl
    all_goals exact Bool.noConfusion hl

theorem ends_moves (h : a.Moves l a') (hl : endsSession l = true) : a'.main = .outside := by
  cases h with
  | interrupt => exact Bool.noConfusion hl
  | @handler t c r hdisposal =>
    cases c <;> first | exact Bool.noConfusion hdisposal | (cases t <;> exact Bool.noConfusion hl)
  | listener _ _ _ _ => exact Bool.noConfusion hl
  | watcher _ _ _ _ => exact Bool.noConfusion hl
  | @main c r m hm _ _ =>
    rcases main_step_cases hm with ⟨-, rfl, -⟩ | ⟨-, -, rfl⟩ | ⟨-, rfl, -⟩ | ⟨-, rfl, -⟩ |
      ⟨-, rfl, -⟩ | ⟨-, -, rfl⟩
    all_goals first | rfl | exact Bool.noConfusion hl

/-- Once the flag is false, a command takes one of those that remain. -/
theorem remaining_moves (h : a.Moves l a') (hflag : a.flag = false) :
    (if executes l then 1 else 0) + remaining a' ≤ remaining a := by
  cases h with
  | interrupt => simp [executes]
  | @handler t c r hdisposal =>
    have hexec : executes (.call t c r) = false := by
      cases c <;> first | exact Bool.noConfusion hdisposal | (cases t <;> rfl)
    simp [hexec]
  | @main c r m hm _ _ =>
    by_cases hspawn : c = .spawn .commandHandler
    · simp [executes, remaining, startedBy, hspawn]
    · simp [executes, remaining, startedBy, hspawn]
  | @watcher c r k k' o _ _ _ _ => simp [executes, remaining]
  | @listener c r p p' o hphase hstep hread ho =>
    have hother : c ≠ .mark .executeCommand → executes (.call .commandHandler c r) = false := by
      intro hc
      cases c with
      | mark m => cases m <;> first | rfl | exact absurd rfl hc
      | _ => rfl
    rcases listener_step_cases hstep with ⟨-, rfl, rfl⟩ | ⟨-, rfl, rfl⟩ | ⟨rfl, rfl, rfl⟩ |
      ⟨-, hc, rfl⟩
    · rcases ho with rfl | ⟨rfl, -⟩ <;> simp [executes, remaining]
    · -- the flag is read false, so the listener stops
      rw [hread rfl, hflag] at ho
      rcases ho with rfl | ⟨rfl, -⟩ <;> simp [executes, remaining]
    · rcases ho with rfl | ⟨rfl, -⟩ <;> simp [executes, remaining, hphase]
    · rw [hother hc]
      rcases ho with rfl | ⟨rfl, rfl⟩ <;> simp [remaining, hphase]

/-- Until the listener has read the flag it may not execute a command. -/
theorem unread_moves (h : a.Moves l a') (hl : readsFlag l = false)
    (ha : a.listener ≠ some .ready ∧ a.listener ≠ some .spent) :
    a'.listener ≠ some .ready ∧ a'.listener ≠ some .spent := by
  cases h with
  | interrupt => exact ha
  | handler => exact ha
  | watcher => exact ha
  | @main c r m hm _ _ =>
    by_cases hspawn : c = .spawn .commandHandler
    · simp [startedBy, hspawn]
    · simpa [startedBy, hspawn] using ha
  | @listener c r p p' o hphase hstep hread ho =>
    rw [hphase] at ha
    rcases listener_step_cases hstep with ⟨-, rfl, rfl⟩ | ⟨-, rfl, rfl⟩ | ⟨rfl, rfl, rfl⟩ |
      ⟨-, hc, rfl⟩
    · rcases ho with rfl | ⟨rfl, -⟩ <;> simp
    · exact Bool.noConfusion hl
    · exact absurd rfl ha.1
    · rcases ho with rfl | ⟨rfl, -⟩
      · exact ha
      · simp

theorem remaining_of_unread (ha : a.listener ≠ some .ready ∧ a.listener ≠ some .spent) :
    remaining a = 0 := by
  unfold remaining
  split
  · rename_i hready
    exact absurd hready ha.1
  · rfl

/-- A run within a session. -/
theorem inside_reaches (h : a.Reaches ls a') (hin : a.main ≠ .outside)
    (hls : ∀ l ∈ ls, endsSession l = false) :
    a'.main ≠ .outside ∧ (a.flag = false → a'.flag = false) := by
  induction h with
  | nil => exact ⟨hin, id⟩
  | snoc _ hl ih =>
    obtain ⟨hin', hflag⟩ := ih fun l hl => hls l (List.mem_append_left _ hl)
    obtain ⟨hin'', hflag'⟩ :=
      inside_moves hl hin' (hls _ (List.mem_append_right _ List.mem_cons_self))
    exact ⟨hin'', fun hf => hflag' (hflag hf)⟩

theorem unread_reaches (h : a.Reaches ls a') (hls : ∀ l ∈ ls, readsFlag l = false)
    (ha : a.listener ≠ some .ready ∧ a.listener ≠ some .spent) :
    a'.listener ≠ some .ready ∧ a'.listener ≠ some .spent := by
  induction h with
  | nil => exact ha
  | snoc _ hl ih =>
    exact unread_moves hl (hls _ (List.mem_append_right _ List.mem_cons_self))
      (ih fun l hl => hls l (List.mem_append_left _ hl))

theorem remaining_reaches (h : a.Reaches ls a') (hin : a.main ≠ .outside)
    (hls : ∀ l ∈ ls, endsSession l = false) (hflag : a.flag = false) :
    ls.countP executes + remaining a' ≤ remaining a := by
  induction h with
  | nil => simp
  | @snoc ls l b c hreach hl ih =>
    have hls' : ∀ l' ∈ ls, endsSession l' = false :=
      fun l' hl' => hls l' (List.mem_append_left _ hl')
    have hstep := remaining_moves hl ((inside_reaches hreach hin hls').2 hflag)
    have hrun := ih hls'
    simp only [List.countP_append, List.countP_cons, List.countP_nil, Nat.zero_add]
    omega

end StopRequestLemmas

open StopRequestLemmas

/-! ## 3. Runs of the process -/

/-- The flag after a run, where there is such a run. -/
def flagOf (ip : IpExchange) (ls : List Move) : Option Bool :=
  (process.run (initial ip) ls).map fun C => C.store.runCommandLoop

/-- What stop requests do, in every run. -/
structure StopRequestsKept (ip : IpExchange) : Prop where
  /-- within a session, a flag that has become false stays false -/
  kept : ∀ before l d₁ d₂, startsSession l = true → (∀ l' ∈ d₁ ++ d₂, endsSession l' = false) →
    flagOf ip (before ++ l :: d₁) = some false →
    ∀ flag, flagOf ip (before ++ l :: d₁ ++ d₂) = some flag → flag = false
  /-- `connected_loop` has a reason to return -/
  left : ∀ rs, connectedLoop.after rs = .ret () → LeftProperly (connectedLoop.trace rs)
  /-- when `enter_connected_state` returns, both threads have, and the flag and
  `connection_is_valid` are false -/
  ended : ∀ before l C, endsSession l = true → process.run (initial ip) (before ++ [l]) = some C →
    C.threads .commandHandler = none ∧ C.threads .connectionListener = none ∧
      C.store.runCommandLoop = false ∧ C.store.connectionIsValid = false
  /-- when the flag is set, no thread of an earlier session is there to see it -/
  started : ∀ before l C C', startsSession l = true → process.run (initial ip) before = some C →
    process.step C l = some C' →
    C.threads .commandHandler = none ∧ C.threads .connectionListener = none

namespace StopRequestLemmas

theorem flagOf_eq_some {ip : IpExchange} {ls : List Move} {flag : Bool} :
    flagOf ip ls = some flag ↔ ∃ C, process.run (initial ip) ls = some C ∧
      C.store.runCommandLoop = flag := by
  rw [flagOf, Option.map_eq_some_iff]

theorem threads_none {C : State} {a : SessionState} (h : Tracks C a) (hl : a.listener = none)
    (hk : a.watcher = none) :
    C.threads .commandHandler = none ∧ C.threads .connectionListener = none := by
  have hlistener := h.listener
  have hwatcher := h.watcher
  rw [hl] at hlistener
  rw [hk] at hwatcher
  constructor
  · cases hC : C.threads .commandHandler with
    | none => rfl
    | some s => rw [hC] at hlistener; exact hlistener.elim
  · cases hC : C.threads .connectionListener with
    | none => rfl
    | some s => rw [hC] at hwatcher; exact hwatcher.elim

/-- A run into a session, seen as runs of the machine before and after a point of it. -/
theorem session_split {ip : IpExchange} {before d₁ d₂ : List Move} {l : Move} {C₂ : State}
    (hl : startsSession l = true)
    (hrun : process.run (initial ip) (before ++ l :: d₁ ++ d₂) = some C₂) :
    ∃ (a₀ : SessionState) (C₁ : State) (a₁ a₂ : SessionState),
      (a₀.main ≠ .outside ∧ a₀.listener = none) ∧ a₀.Reaches d₁ a₁ ∧
      process.run (initial ip) (before ++ l :: d₁) = some C₁ ∧ Tracks C₁ a₁ ∧ a₁.Reaches d₂ a₂ ∧
      Tracks C₂ a₂ := by
  obtain ⟨C₁, hC₁, hd₂⟩ := System.run_append_eq_some.mp hrun
  obtain ⟨C, hC, hrest⟩ := System.run_append_eq_some.mp hC₁
  obtain ⟨C₀, hC₀, hd₁⟩ := System.run_cons_eq_some.mp hrest
  obtain ⟨a, -, hcoherent, htracks⟩ := session_run hC
  obtain ⟨a₀, hmoves, htracks₀⟩ := moves_step htracks hC₀
  obtain ⟨a₁, hreach₁, htracks₁⟩ := moves_run htracks₀ hd₁
  obtain ⟨a₂, hreach₂, htracks₂⟩ := moves_run htracks₁ hd₂
  exact ⟨a₀, C₁, a₁, a₂, (starts_moves hmoves hcoherent hl).2, hreach₁, hC₁, htracks₁,
    hreach₂, htracks₂⟩

end StopRequestLemmas

/-- Sessions end by a stop request, and do not leak into each other. -/
theorem stopRequests_kept (ip : IpExchange) : StopRequestsKept ip where
  kept before l d₁ d₂ hl hd hflag flag hflag₂ := by
    obtain ⟨C₂, hrun, rfl⟩ := flagOf_eq_some.mp hflag₂
    obtain ⟨a₀, C₁, a₁, a₂, ⟨hin, -⟩, hreach₁, hC₁, htracks₁, hreach₂, htracks₂⟩ :=
      session_split hl hrun
    obtain ⟨C, hC, hf⟩ := flagOf_eq_some.mp hflag
    obtain rfl : C = C₁ := Option.some.inj (hC.symm.trans hC₁)
    have hin₁ := (inside_reaches hreach₁ hin fun l' hl' => hd l' (List.mem_append_left _ hl')).1
    rw [htracks₂.flag]
    exact (inside_reaches hreach₂ hin₁ fun l' hl' => hd l' (List.mem_append_right _ hl')).2
      (htracks₁.flag ▸ hf)
  left _ hret := connectedLoop_left hret
  ended before l C hl hrun := by
    obtain ⟨C₀, hC₀, hlast⟩ := System.run_append_eq_some.mp hrun
    obtain ⟨C', hstep, hend⟩ := System.run_cons_eq_some.mp hlast
    obtain rfl := Option.some.inj hend
    obtain ⟨a, -, hcoherent, htracks⟩ := session_run hC₀
    obtain ⟨a', hmoves, htracks'⟩ := moves_step htracks hstep
    have hcoherent' := coherent_moves hcoherent hmoves
    obtain ⟨hlistener, hwatcher, hflag⟩ := hcoherent'.outside (ends_moves hmoves hl)
    obtain ⟨hhandler, hconnection⟩ := threads_none htracks' hlistener hwatcher
    exact ⟨hhandler, hconnection, htracks'.flag.trans hflag, htracks'.valid.trans hcoherent'.valid⟩
  started before l C C' hl hrun hstep := by
    obtain ⟨a, -, hcoherent, htracks⟩ := session_run hrun
    obtain ⟨a', hmoves, -⟩ := moves_step htracks hstep
    obtain ⟨hlistener, hwatcher⟩ := (starts_moves hmoves hcoherent hl).1
    exact threads_none htracks hlistener hwatcher

/-- Within a session, at most one command is executed once the flag is false, and
none if the listener has not read the flag by then. -/
theorem commands_after_stop (ip : IpExchange) {before d₁ d₂ : List Move} {l : Move}
    (hl : startsSession l = true) (hd : ∀ l' ∈ d₁ ++ d₂, endsSession l' = false)
    (hflag : flagOf ip (before ++ l :: d₁) = some false)
    (hrun : (flagOf ip (before ++ l :: d₁ ++ d₂)).isSome = true) :
    d₂.countP executes ≤ 1 ∧ ((∀ l' ∈ d₁, readsFlag l' = false) → d₂.countP executes = 0) := by
  obtain ⟨flag, hflag₂⟩ := Option.isSome_iff_exists.mp hrun
  obtain ⟨C₂, hrun, -⟩ := flagOf_eq_some.mp hflag₂
  obtain ⟨a₀, C₁, a₁, a₂, ⟨hin, hlistener⟩, hreach₁, hC₁, htracks₁, hreach₂, -⟩ :=
    session_split hl hrun
  obtain ⟨C, hC, hf⟩ := flagOf_eq_some.mp hflag
  obtain rfl : C = C₁ := Option.some.inj (hC.symm.trans hC₁)
  have hin₁ := (inside_reaches hreach₁ hin fun l' hl' => hd l' (List.mem_append_left _ hl')).1
  have hbound := remaining_reaches hreach₂ hin₁ (fun l' hl' => hd l' (List.mem_append_right _ hl'))
    (htracks₁.flag ▸ hf)
  constructor
  · have hone : remaining a₁ ≤ 1 := by
      unfold remaining
      split <;> simp
    omega
  · intro hunread
    have hzero := remaining_of_unread
      (unread_reaches hreach₁ hunread (by simp [hlistener]))
    omega

/-- `main` until it enters the connected state. -/
def sampleBefore : List Move := movesOf .main (main .udp) (sampleMainRun ++ [({} : Answer)])

def sampleStart : Move := .call .main (.setListenForCommands true) {}

/-- The listener receives a command, and the device disconnects. -/
def sampleUntil : List Move :=
  [.call .main (.spawn .commandHandler) {}, .call .main (.spawn .connectionListener) {}] ++
    movesOf .commandHandler listenForCommands
      [{}, { ret := 3 }, {}, {}, {}, { ret := 4 }, { isSet := true }, { isSet := true },
        { ret := 3, offer := bytes "MFO" }] ++
    movesOf .connectionListener connectedLoop
      [{ isSet := true }, { offer := bytes "<3>AP-STA-DISCONNECTED 02:00:00:00:00:01" }, {}, {}, {}]

/-- The command is executed all the same. -/
def sampleLate : List Move :=
  [.call .commandHandler (.mark .executeCommand) {},
    .call .commandHandler (.execute (.flashlightToggle true)) {},
    .call .commandHandler .isListeningForCommands {}]

theorem sampleLate_one_command :
    sampleLate.countP executes ≤ 1 ∧
      ((∀ l' ∈ sampleUntil, readsFlag l' = false) → sampleLate.countP executes = 0) :=
  @commands_after_stop .udp sampleBefore sampleUntil sampleLate sampleStart rfl (by decide +kernel)
    (by decide +kernel) (by decide +kernel)

end P2pDriver
