import P2pDriver.StopRequest
import P2pDriver.CommandStream
import P2pDriver.Library.Quota

/-!
# How soon a session ends

Both loops read `run_command_loop` once in a round. When it is false there is the rest
of a round, and what is behind the loop: at most nine more calls of `listen_for_commands`,
and at most five of `connected_loop`. Either may not have started by then.

Results:
1. `quota_listener`, `quota_watcher`: what a thread calls from one read of true to the next.
2. `stop_prompt`: what both threads still call once the flag is false.
-/

namespace P2pDriver

open Resumable Prog EventLoopLemmas SessionMachineLemmas StopRequestLemmas

/-! ## 1. What a thread calls from one read of true to the next -/

/-- The flag is read true. -/
def readsTrue : Call × Answer → Bool
  | (.isListeningForCommands, r) => r.isSet
  | _ => false

namespace StopLatencyLemmas

section Takes

variable {quota : Nat}

theorem takes_tcpInitAcceptSocket (port : Bytes) :
    Takes readsTrue quota 6 (tcpInitAcceptSocket port) := by
  have hopen : Takes readsTrue quota 2 (openSocket port false) := by
    simp only [openSocket, fillAddrInfo, bind_eq, call_bind, ret_bind]
    refine takes_call (fun _ => rfl) fun filled => ?_
    split
    · exact takes_call (fun _ => rfl) fun _ => takes_ret (k := 0) _
    · exact takes_ret _
  have hinit : Takes readsTrue quota 5 (tcpInitSocket port) := by
    refine takes_bind (j := 3) hopen fun sockFd => ?_
    split
    · exact takes_ret _
    · refine takes_call (fun _ => rfl) fun bound => ?_
      simp only [ret_bind]
      split
      · exact takes_call (fun _ => rfl) fun _ => takes_ret _
      · refine takes_call (fun _ => rfl) fun listening => ?_
        simp only [ret_bind]
        split
        · exact takes_call (fun _ => rfl) fun _ => takes_ret (k := 0) _
        · exact takes_call (fun _ => rfl) fun _ => takes_ret (k := 0) _
  refine takes_bind (j := 1) hinit fun origSockFd => ?_
  split
  · exact takes_ret _
  · refine takes_call (k := 0) (fun _ => rfl) fun r => ?_
    simp only [ret_bind]
    split <;> exact takes_ret _

theorem takes_receiveCommand (newFd : Int) (inSet : Bool) :
    Takes readsTrue quota 3 (receiveCommand newFd inSet) := by
  cases inSet with
  | false => exact takes_ret _
  | true =>
    change Takes _ _ _
      (.call (.recv newFd commandMaxRecv) fun r => (receiveCommand newFd true).resume r)
    refine takes_call (fun _ => rfl) fun r => ?_
    rw [receiveCommand_eq]
    split
    · exact takes_ret _
    · split
      · refine takes_call (fun _ => rfl) fun _ => ?_
        split
        · exact takes_call (fun _ => rfl) fun _ => takes_ret (k := 0) _
        · exact takes_ret _
      · exact fun _ _ => keeps_fault trivial

end Takes

/-- The monitors of both threads. -/
abbrev listenerQuota : Spec Call Answer Nat := quotaSpec readsTrue 9
abbrev watcherQuota : Spec Call Answer Nat := quotaSpec readsTrue 5

/-- A read of the flag that is not the first call of a quota. -/
theorem read_step {quota n : Nat} (hn : n < quota) (r : Answer) :
    (quotaSpec readsTrue quota).step n .isListeningForCommands r =
      some (if r.isSet then 0 else n + 1) := by
  cases hset : r.isSet with
  | true => exact quota_step_of_renews hset
  | false => exact quota_step_of_lt hset hn

theorem keeps_commandLoop_quota (newFd : Int) (runPlaceholder : Bool) {n : Nat} (hn : n ≤ 7) :
    Keeps listenerQuota (if runPlaceholder then 0 else n) (commandLoop newFd runPlaceholder)
      fun _ m => m ≤ 7 := by
  cases runPlaceholder with
  | false => exact keeps_ret hn
  | true =>
    refine keeps_loop (· = 0) rfl fun m hm inSet _ => ?_
    subst hm
    refine ⟨1, rfl, ?_⟩
    simp only [bind_eq, ask_bind, pure_eq]
    refine keeps_bind ((takes_receiveCommand newFd inSet.isSet 1 (by decide)).mono fun _ m hm => ?_)
    refine keeps_call fun r _ => ⟨_, read_step (by omega) r, ?_⟩
    cases r.isSet with
    | true => exact keeps_ret rfl
    | false => exact keeps_ret (keeps_ret (show m + 1 ≤ 7 by omega))

theorem quota_listener : Keeps listenerQuota 0 listenForCommands fun _ _ => True := by
  refine keeps_bind ((takes_tcpInitAcceptSocket commandPort 0 (by decide)).mono
    fun (sockFd, newFd, addr) n hn => ?_)
  dsimp only
  split
  · exact keeps_call fun r _ => ⟨n + 1, quota_step_of_lt rfl (by omega), keeps_ret trivial⟩
  · simp only [bind_eq, ask_bind, perform_bind]
    refine keeps_call fun flag _ => ⟨_, read_step (by omega) flag, keeps_bind ?_⟩
    refine (keeps_commandLoop_quota newFd flag.isSet (n := n + 1) (by omega)).mono fun _ m hm => ?_
    exact keeps_call fun _ _ => ⟨m + 1, quota_step_of_lt rfl (by omega),
      keeps_call fun _ _ => ⟨m + 2, quota_step_of_lt rfl (by omega), keeps_ret trivial⟩⟩

/-- What the end of a round of `connected_loop` establishes. -/
abbrev QuotaRound : Option Unit → Nat → Prop :=
  RoundPost watcherQuota (· = 0) (.ret : Unit → Drv Unit) fun _ _ => True

theorem keeps_stopRound_quota {n : Nat} (hn : n ≤ 2) :
    Keeps watcherQuota n stopRound QuotaRound := by
  refine keeps_call fun listening _ => ⟨_, read_step (by omega) listening, ?_⟩
  cases listening.isSet with
  | true => exact keeps_ret rfl
  | false =>
    exact keeps_call fun _ _ => ⟨n + 2, quota_step_of_lt rfl (show n + 1 < 5 by omega),
      keeps_ret (keeps_ret trivial)⟩

theorem quota_watcher : Keeps watcherQuota 0 connectedLoop fun _ _ => True := by
  refine keeps_forever (c := .wpaCtrlPending) (· = 0) rfl rfl fun n hn => ?_
  subst hn
  refine keeps_call fun pending _ => ⟨1, rfl, ?_⟩
  refine keeps_poll (fun _ => keeps_stopRound_quota (by decide)) fun _ r _ => ⟨2, rfl, ?_⟩
  cases delivered r with
  | none => exact keeps_stopRound_quota (by decide)
  | some m =>
    refine keeps_bind (keeps_ofOption (fun disconnected _ => ?_) fun _ => trivial)
    cases disconnected with
    | true =>
      exact keeps_call fun _ _ => ⟨3, rfl, keeps_call fun _ _ => ⟨4, rfl, keeps_call fun _ _ =>
        ⟨5, rfl, keeps_ret (keeps_ret trivial)⟩⟩⟩
    | false => exact keeps_stopRound_quota (by decide)

/-! ## 2. A session whose flag is false -/

/-- In a session, the flag is false and `main` has started the handler. -/
structure Stopping (a : SessionState) : Prop where
  flag : a.flag = false
  inside : a.main ≠ .outside
  started : a.main ≠ .armed

/-- How often `main` is still to start the listener. -/
def unstarted : MainPhase → Nat
  | .handling => 1
  | _ => 0

variable {a a' : SessionState} {l : Move} {ls : List Move}

/-- While the handler is not started, the flag is as `main` has set it. -/
theorem armed_moves (hc : Coherent a) (h : a.Moves l a') (ha : a.main = .armed → a.flag = true) :
    a'.main = .armed → a'.flag = true := by
  intro harmed
  cases h with
  | interrupt => exact ha harmed
  | handler => exact ha harmed
  | main hm _ _ =>
    rcases main_step_cases hm with ⟨-, rfl, -⟩ | ⟨-, -, rfl⟩ | ⟨-, -, rfl⟩ | ⟨-, -, rfl⟩ |
      ⟨-, -, rfl⟩ | ⟨-, -, rfl⟩
    · rfl
    all_goals cases harmed
  | listener hl _ _ _ => exact absurd (hl.symm.trans (hc.armed harmed).1) (Option.some_ne_none _)
  | watcher hk _ _ _ => exact absurd (hk.symm.trans (hc.armed harmed).2) (Option.some_ne_none _)

theorem armed_reaches (hc : Coherent a) (h : a.Reaches ls a')
    (ha : a.main = .armed → a.flag = true) :
    a'.main = .armed → a'.flag = true := by
  induction h with
  | nil => exact ha
  | snoc hreach hl ih => exact armed_moves (coherent_reaches hc hreach) hl ih

theorem stopping_moves (hs : Stopping a) (h : a.Moves l a') (hl : endsSession l = false) :
    Stopping a' := by
  obtain ⟨hin, hflag⟩ := inside_moves h hs.inside hl
  refine ⟨hflag hs.flag, hin, ?_⟩
  cases h with
  | interrupt => exact hs.started
  | handler => exact hs.started
  | main hm _ _ =>
    rcases main_step_cases hm with ⟨hout, -, -⟩ | ⟨-, -, rfl⟩ | ⟨-, -, rfl⟩ | ⟨-, -, rfl⟩ |
      ⟨-, -, rfl⟩ | ⟨-, -, rfl⟩
    · exact absurd hout hs.inside
    all_goals exact fun harmed => MainPhase.noConfusion harmed
  | listener => exact hs.started
  | watcher => exact hs.started

/-- `main` starts no handler then, and the listener if it has not. -/
theorem starts_of_stopping (hs : Stopping a) (h : a.Moves l a') :
    process.starts .commandHandler l = false ∧
      (process.starts .connectionListener l).toNat + unstarted a'.main ≤ unstarted a.main := by
  cases h with
  | interrupt => exact ⟨rfl, by simp [System.starts]⟩
  | @handler t c r hc =>
    have hnone := spawns_of_not_session (disposal_not_session hc)
    simp [System.starts, hnone]
  | @main c r m hm _ _ =>
    rcases main_step_cases hm with ⟨hout, -, -⟩ | ⟨hout, -, -⟩ | ⟨harmed, -, -⟩ |
      ⟨hmain, rfl, rfl⟩ | ⟨hmain, rfl, rfl⟩ | ⟨hmain, rfl, rfl⟩
    · exact absurd hout hs.inside
    · exact absurd hout hs.inside
    · exact absurd harmed hs.started
    all_goals simp [System.starts, process, unstarted, hmain]
  | listener _ hstep _ _ =>
    have hnone := spawns_of_listener_step hstep
    simp [System.starts, hnone]
  | watcher _ hstep _ _ =>
    have hnone := spawns_of_watcher_step hstep
    simp [System.starts, hnone]

/-- And nobody reads it true. -/
theorem unread_of_stopping (hs : Stopping a) {t : Thread} {c : Call} {r : Answer}
    (h : a.Moves (.call t c r) a') : readsTrue (c, r) = false := by
  cases c with
  | isListeningForCommands =>
    cases h with
    | handler hc => exact Bool.noConfusion hc
    | main hm _ _ =>
      rcases main_step_cases hm with ⟨-, hc, -⟩ | ⟨-, hc, -⟩ | ⟨-, hc, -⟩ | ⟨-, hc, -⟩ |
        ⟨-, hc, -⟩ | ⟨-, hc, -⟩
      all_goals cases hc
    | listener _ _ hread _ => exact (hread rfl).trans hs.flag
    | watcher _ _ hread _ => exact (hread rfl).trans hs.flag
  | _ => rfl

/-- A run in a session whose flag is false. -/
theorem stopping_reaches (hs : Stopping a) (h : a.Reaches ls a')
    (hls : ∀ l ∈ ls, endsSession l = false) :
    Stopping a' ∧ ls.countP (process.starts .commandHandler) = 0 ∧
      ls.countP (process.starts .connectionListener) + unstarted a'.main ≤ unstarted a.main ∧
      ∀ t c r, .call t c r ∈ ls → readsTrue (c, r) = false := by
  induction h with
  | nil => exact ⟨hs, rfl, by simp, fun _ _ _ hmem => absurd hmem List.not_mem_nil⟩
  | @snoc ls l b b' hreach hl ih =>
    obtain ⟨hb, hhandler, hlistener, hread⟩ := ih fun l' hl' => hls l' (List.mem_append_left _ hl')
    obtain ⟨hnone, hone⟩ := starts_of_stopping hb hl
    refine ⟨stopping_moves hb hl (hls l (List.mem_append_right _ List.mem_cons_self)), ?_, ?_, ?_⟩
    · rw [countP_concat, hhandler, hnone]
      rfl
    · rw [countP_concat]
      omega
    · intro t c r hmem
      rcases List.mem_append.mp hmem with hmem | hmem
      · exact hread t c r hmem
      · obtain rfl := List.mem_singleton.mp hmem
        exact unread_of_stopping hb hl

end StopLatencyLemmas

/-! ## 3. Runs of the process -/

/-- How many calls a thread makes, apart from those of signal handlers. -/
def callsOf (t : Thread) (ls : List Move) : Nat := ls.countP (Label.ownCall Call.isDisposal t)

namespace StopLatencyLemmas

/-- A point of a session at which the flag is false, seen in the machine. -/
theorem stopping_of_run {ip : IpExchange} {before d : List Move} {l : Move} {C : State}
    (hl : startsSession l = true) (hd : ∀ l' ∈ d, endsSession l' = false)
    (hrun : process.run (initial ip) (before ++ l :: d) = some C)
    (hflag : C.store.runCommandLoop = false) :
    ∃ a, Coherent a ∧ Tracks C a ∧ Stopping a := by
  obtain ⟨C₀, hC₀, hrest⟩ := System.run_append_eq_some.mp hrun
  obtain ⟨C₁, hC₁, hlast⟩ := System.run_cons_eq_some.mp hrest
  obtain ⟨a₀, hreach₀, hcoherent₀, htracks₀⟩ := session_run hC₀
  obtain ⟨a₁, hmoves, htracks₁⟩ := moves_step htracks₀ hC₁
  obtain ⟨a, hreach, htracks⟩ := moves_run htracks₁ hlast
  have hcoherent₁ := coherent_moves hcoherent₀ hmoves
  have harmed : a.main = .armed → a.flag = true :=
    armed_reaches hcoherent₁ hreach <| armed_moves hcoherent₀ hmoves <|
      armed_reaches coherent_start hreach₀ fun h => MainPhase.noConfusion h
  have hfalse : a.flag = false := htracks.flag.symm.trans hflag
  refine ⟨a, coherent_reaches hcoherent₁ hreach, htracks, hfalse, ?_, fun h => ?_⟩
  · exact (inside_reaches hreach (starts_moves hmoves hcoherent₀ hl).2.1 hd).1
  · exact Bool.noConfusion ((harmed h).symm.trans hfalse)

/-- What a session thread calls while the flag is not read true. -/
theorem callsOf_le {ip : IpExchange} {t : Thread} {quota : Nat} (ht : t ≠ .main)
    (hkeeps : Keeps (quotaSpec readsTrue quota) 0 (threadBody t) fun _ _ => True)
    {ls d : List Move} {C C' : State} (hC : process.run (initial ip) ls = some C)
    (hrun : process.run C d = some C') (hread : ∀ c r, .call t c r ∈ d → readsTrue (c, r) = false)
    (hone : (C.threads t).isSome.toNat + d.countP (process.starts t) ≤ 1) :
    callsOf t d ≤ quota := by
  have hnone : (initial ip).threads t = none := by
    cases t with
    | main => exact absurd rfl ht
    | commandHandler => rfl
    | connectionListener => rfl
  have hwatched := (System.watched_run (Q := fun _ => True)
    DriverLemmas.only_signalCallbackHandler hkeeps
    (fun s hs => absurd (hs.symm.trans hnone) (Option.some_ne_none s)) hC fun _ _ _ _ => trivial).1
  calc callsOf t d
      ≤ quota * ((C.threads t).isSome.toNat + d.countP (process.starts t)) :=
        System.quota_run DriverLemmas.only_signalCallbackHandler hkeeps hwatched hrun hread
    _ ≤ quota * 1 := Nat.mul_le_mul_left quota hone
    _ = quota := Nat.mul_one quota

/-- The listener runs, or it is still to be started. -/
theorem unstarted_of_running {C : State} {a : SessionState} (hc : Coherent a) (h : Tracks C a) :
    (C.threads .connectionListener).isSome.toNat + unstarted a.main ≤ 1 := by
  cases hC : C.threads .connectionListener with
  | none =>
    unfold unstarted
    split <;> simp
  | some s =>
    obtain ⟨k, hk, -⟩ := inPhase_some (hC ▸ h.watcher)
    have hmain : a.main ≠ .handling := fun hm =>
      Option.some_ne_none k (hk.symm.trans (hc.handling hm).1)
    unfold unstarted
    split
    · rename_i hm
      exact absurd hm hmain
    · simp

end StopLatencyLemmas

open StopLatencyLemmas

/-- Once the flag is false, `listen_for_commands` makes at most nine calls to the end of the
session and `connected_loop` five, in every order of their steps, with any signals between. -/
theorem stop_prompt {ip : IpExchange} {before d₁ d₂ : List Move} {l : Move} {C : State}
    (hl : startsSession l = true) (hd : ∀ l' ∈ d₁ ++ d₂, endsSession l' = false)
    (hflag : flagOf ip (before ++ l :: d₁) = some false)
    (hrun : process.run (initial ip) (before ++ l :: d₁ ++ d₂) = some C) :
    callsOf .commandHandler d₂ ≤ 9 ∧ callsOf .connectionListener d₂ ≤ 5 := by
  obtain ⟨C₁, hC₁, hfalse⟩ := flagOf_eq_some.mp hflag
  obtain ⟨a, hcoherent, htracks, hs⟩ :=
    stopping_of_run hl (fun l' hl' => hd l' (List.mem_append_left _ hl')) hC₁ hfalse
  obtain ⟨C', hC', hrest⟩ := System.run_append_eq_some.mp hrun
  obtain rfl : C₁ = C' := Option.some.inj (hC₁.symm.trans hC')
  obtain ⟨a', hreach, -⟩ := moves_run htracks hrest
  obtain ⟨-, hhandler, hlistener, hread⟩ :=
    stopping_reaches hs hreach fun l' hl' => hd l' (List.mem_append_right _ hl')
  constructor
  · refine callsOf_le (by decide) quota_listener hC₁ hrest (hread _) ?_
    rw [hhandler]
    exact Bool.toNat_le _
  · refine callsOf_le (by decide) quota_watcher hC₁ hrest (hread _) ?_
    have hrunning := unstarted_of_running hcoherent htracks
    omega

theorem sampleLate_prompt :
    callsOf .commandHandler sampleLate ≤ 9 ∧ callsOf .connectionListener sampleLate ≤ 5 := by
  obtain ⟨flag, hflag⟩ := Option.isSome_iff_exists.mp
    (show (flagOf .udp (sampleBefore ++ sampleStart :: sampleUntil ++ sampleLate)).isSome = true by
      decide +kernel)
  obtain ⟨C, hrun, -⟩ := flagOf_eq_some.mp hflag
  exact stop_prompt (l := sampleStart) (by decide) (by decide +kernel) (by decide +kernel) hrun

end P2pDriver
