import P2pDriver.RecoveryStages
import P2pDriver.HandleLifecycle

/-!
# The stages in every state

The stages of the three threads fit each other and the store in every reachable
state. Session threads run only where `main` is in `enter_connected_state`, a
thread that is about to receive has something to receive, and the event that the
peer has gone waits in the queue until `connected_loop` acts on it.

Results:
1. `stages_main`, `stages_handler`, `stages_watcher`: a call of one thread.
2. `stages_run`: the stages of the threads in every reachable state.
-/

namespace P2pDriver

open Resumable Prog ProcessLemmas SessionMachineLemmas HandleLifecycleLemmas RecoveryLemmas

/-! ## 1. States without their peer -/

/-- The process without its surroundings. -/
abbrev inside (C : WorldState) : State := C.map World.shared

/-- `connect_loop` has returned, and the peer has gone since. -/
def Lost (C : WorldState) : Prop := C.store.around.joined = true ∧ C.store.around.gone = true

/-! ## 2. The stages in every state -/

/-- While the event that the peer has gone is not handled, it waits in the queue. -/
def Told (w : Surroundings) (flag : Bool) (k : Option WatcherStage) : MainStage → Prop
  | .connected | .resolving | .greeting | .greeted _ => w.events.any tellsDisconnect = true
  | .armed | .handling | .watched | .joining =>
    w.events.any tellsDisconnect = true ∨ (∃ n, k = some (.dropping n)) ∨ flag = false
  | .searching | .rejoined _ | .overrun => True

/-- Which session threads run in a stage of `main`. -/
def Company (l : Option HandlerStage) (k : Option WatcherStage) : MainStage → Prop
  | .connected | .resolving | .greeting | .greeted _ | .armed | .rejoined _ => l = none ∧ k = none
  | .handling => k = none
  | .joining => l = none
  | .searching | .watched | .overrun => True

/-- The threads are in the stages `m`, `l` and `k`, and the store fits them. -/
structure InStages (C : WorldState) (m : Option MainStage) (l : Option HandlerStage)
    (k : Option WatcherStage) : Prop where
  main : Stack.At mainStageSpec (· = .searching) (C.threads .main) m
  handler : Stack.At handlerStageSpec HandlerStage.ends (C.threads .commandHandler) l
  watcher : Stack.At watcherStageSpec (· = .ended) (C.threads .connectionListener) k
  running : ∃ p, Running (inside C) p
  session : ∃ a, Tracks (inside C) a ∧ Coherent a
  control : ∀ m', m = some m' → m' ≠ .searching → ∃ h, C.store.shared.controlData = some h
  joined : C.store.around.joined = true → ∃ m', m = some m' ∧ m' ≠ .searching
  company : ∀ m', m = some m' → Company l k m'
  readable : l = some .receiving → C.store.around.readable = true
  fetchable : k = some .fetching → C.store.around.events ≠ []
  told : Lost C → ∀ m', m = some m' → Told C.store.around C.store.shared.runCommandLoop k m'

namespace RecoveryLemmas

variable {C C' : WorldState} {m : MainStage} {l : Option HandlerStage} {k : Option WatcherStage}
  {t : Thread} {x : Stack Call Answer Signal} {c : Call} {r : Answer}

/-- The state after a call of `t`, of which `x` is the thread. -/
abbrev afterCall (C : WorldState) (t : Thread) (x : Stack Call Answer Signal) (c : Call)
    (r : Answer) : WorldState :=
  ⟨world.effect C.store c r, world.threadsAfter C.threads t x c r⟩

theorem afterCall_shared : (afterCall C t x c r).store.shared = C.store.shared.effect c r := rfl

theorem afterCall_around : (afterCall C t x c r).store.around = C.store.around.effect c r := rfl

/-! ## 3. Calls of the process -/

/-- Without its surroundings the process goes on as before. -/
theorem inside_call (hrunning : ∃ p, Running (inside C) p)
    (hsession : ∃ a, Tracks (inside C) a ∧ Coherent a)
    (hstep : world.step C (.call t c r) = some C') :
    (∃ p, Running (inside C') p) ∧ ∃ a, Tracks (inside C') a ∧ Coherent a := by
  have hinside := world_refines.call hstep
  constructor
  · obtain ⟨p, hp⟩ := hrunning
    obtain ⟨y, hy, hpend, hans, -, hC'⟩ := System.step_call hinside
    rw [inside, hC']
    exact running_call hp hy hpend hans
  · obtain ⟨a, htracks, hcoherent⟩ := hsession
    obtain ⟨a', hmoves, htracks'⟩ := moves_step htracks hinside
    exact ⟨a', htracks', coherent_moves hcoherent hmoves⟩

/-- A call of `main` that is not one of `enter_connected_state` is made while no
session thread runs. -/
theorem company_of_own_call (hsession : ∃ a, Tracks (inside C) a ∧ Coherent a)
    (hx : C.threads .main = some x) (hnil : x.handlers = []) (hpend : x.running.pending = some c)
    (hc : c.isSession = false) :
    C.threads .commandHandler = none ∧ C.threads .connectionListener = none := by
  obtain ⟨a, htracks, hcoherent⟩ := hsession
  rw [Stack.running_of_nil hnil] at hpend
  obtain ⟨m', hm', -⟩ := (htracks.main x hx).base.resume hpend (r := {}) trivial
  have hout : a.main = .outside := by
    rcases main_step_cases hm' with ⟨hm, -, -⟩ | ⟨hm, -, -⟩ | ⟨-, rfl, -⟩ | ⟨-, rfl, -⟩ |
      ⟨-, rfl, -⟩ | ⟨-, rfl, -⟩
    · exact hm
    · exact hm
    all_goals exact Bool.noConfusion hc
  obtain ⟨hl, hk, -⟩ := hcoherent.outside hout
  have hlistener := htracks.listener
  have hwatcher := htracks.watcher
  rw [hl] at hlistener
  rw [hk] at hwatcher
  exact ⟨none_of_inPhase hlistener, none_of_inPhase hwatcher⟩

/-- A call may start a thread, which is then in its first stage. -/
theorem at_startedBy {φ : Type} {Sp : Spec Call Answer φ} {Q : φ → Prop} {first : φ}
    (hkeeps : Keeps Sp first (threadBody t) fun _ φ => Q φ) (hQ : ¬ Q first)
    {y : Option (Stack Call Answer Signal)} {o : Option φ} (h : Stack.At Sp Q y o) (c : Call) :
    Stack.At Sp Q (if world.spawns c = some t then Stack.start (threadBody t) else y)
      (startedBy c t first o) := by
  have hiff : world.spawns c = some t ↔ c = .spawn t := by
    cases c <;> simp [world, process]
  simp only [hiff, startedBy]
  split
  · obtain ⟨o', ho', rfl | ⟨-, hq⟩⟩ := Stack.at_start (π := Signal) hkeeps
    · exact ho'
    · exact absurd hq hQ
  · exact h

/-! ## 4. Calls of `main` -/

theorem main_admits (h : InStages C (some m) l k) (hans : world.answers C.store c r = true) :
    mainStageSpec.admits m c r := by
  have hcontrol : m ≠ .searching → c = .controlData → r.handle ≠ none := by
    rintro hm rfl
    obtain ⟨handle, hhandle⟩ := h.control m rfl hm
    have hread : r.handle = C.store.shared.controlData :=
      of_decide_eq_true (world_answers.mp hans).1
    rw [hread, hhandle]
    exact Option.some_ne_none handle
  simp only [mainStageSpec]
  split
  · have hret := (Bool.and_eq_true_iff.mp (world_answers.mp hans).2).2
    rw [of_decide_eq_true hret]
    exact Int.natCast_nonneg _
  · exact hcontrol (by simp) rfl
  · exact hcontrol (by simp) rfl
  · trivial

theorem startedBy_of_ne {φ : Type} {first : φ} {o : Option φ} (hc : c ≠ .spawn t) :
    startedBy c t first o = o := if_neg hc

theorem of_startedBy {φ : Type} {first φ' : φ} {o : Option φ} (h : startedBy c t first o = some φ')
    (hne : first ≠ φ') : o = some φ' := by
  unfold startedBy at h
  split at h
  · exact absurd (Option.some.inj h) hne
  · exact h

theorem setup_live {p p' : SetupPhase}
    (h : p.step (.mark (.connectToDeviceReturned true)) r = some p') :
    ∃ handle, p = .live handle := by
  cases p with
  | live handle => exact ⟨handle, rfl⟩
  | opened control => cases control <;> cases h
  | _ => cases h

/-- Once `connect_loop` has returned, `control_data` is set. -/
theorem control_main (h : InStages C (some m) l k) {m' : MainStage} (hx : C.threads .main = some x)
    (hpend : x.running.pending = some c) (hm' : m.step c r = some m') (hne : m' ≠ .searching) :
    ∃ handle, (C.store.shared.effect c r).controlData = some handle := by
  by_cases hm : m = .searching
  · subst hm
    rcases searching_step_cases hm' with ⟨rfl, -⟩ | ⟨-, he⟩
    · obtain ⟨p, hp⟩ := h.running
      obtain ⟨hnil, hk⟩ := hp.main x hx
      rw [Stack.running_of_nil hnil] at hpend
      obtain ⟨p', hp', -⟩ := hk.resume hpend (r := r) (fun hc => Call.noConfusion hc)
      obtain ⟨handle, rfl⟩ := setup_live hp'
      exact ⟨handle, hp.control⟩
    · exact absurd he hne
  · rcases main_step_away hm hm' with ⟨-, he⟩ | ⟨haway, -⟩
    · exact absurd he hne
    · rw [effect_controlData (by rintro control rfl; exact Bool.noConfusion haway)]
      exact h.control m rfl hm

theorem company_step {m' : MainStage} (hm' : m.step c r = some m') (hcompany : Company l k m)
    (hown : c.isSession = false → l = none ∧ k = none) (hl : c = .join .commandHandler → l = none)
    (hk : c = .join .connectionListener → k = none) :
    Company (startedBy c .commandHandler .preparing l)
      (startedBy c .connectionListener .head k) m' := by
  have hkeep : c.isSession = false → l = none ∧ k = none →
      startedBy c .commandHandler HandlerStage.preparing l = none ∧
        startedBy c .connectionListener WatcherStage.head k = none := fun hc hnone => by
    rw [startedBy_of_not_session hc, startedBy_of_not_session hc]
    exact hnone
  cases m with
  | searching =>
    rcases searching_step_cases hm' with ⟨rfl, rfl⟩ | ⟨-, rfl⟩
    · exact hkeep rfl (hown rfl)
    · trivial
  | connected =>
    obtain ⟨rfl, rfl⟩ := connected_step hm'
    exact hkeep rfl hcompany
  | resolving =>
    obtain ⟨_, _, rfl, rfl⟩ := resolving_step hm'
    split <;> exact hkeep rfl hcompany
  | greeting =>
    rcases greeting_step hm' with ⟨⟨_, rfl⟩ | ⟨_, rfl⟩, rfl⟩ | ⟨_, _, rfl, rfl⟩
    · split <;> exact hkeep rfl hcompany
    · split <;> exact hkeep rfl hcompany
    · split
      · exact hkeep rfl hcompany
      · trivial
  | greeted n =>
    rcases greeted_step hm' with ⟨-, rfl⟩ | ⟨rfl, rfl⟩ | ⟨hc, _, -, rfl⟩
    · trivial
    · rw [Company, startedBy_of_ne (by simp), startedBy_of_ne (by simp)]
      exact hcompany
    · refine hkeep ?_ hcompany
      cases c <;> first | rfl | exact Bool.noConfusion hc
  | armed =>
    obtain ⟨rfl, rfl⟩ := armed_step hm'
    exact (startedBy_of_ne (by simp)).trans hcompany.2
  | handling =>
    obtain ⟨rfl, rfl⟩ := handling_step hm'
    trivial
  | watched =>
    obtain ⟨rfl, rfl⟩ := watched_step hm'
    exact (startedBy_of_ne (by simp)).trans (hl rfl)
  | joining =>
    obtain ⟨rfl, rfl⟩ := joining_step hm'
    exact ⟨(startedBy_of_ne (by simp)).trans hcompany, (startedBy_of_ne (by simp)).trans (hk rfl)⟩
  | rejoined n =>
    rcases rejoined_step hm' with ⟨-, rfl⟩ | ⟨rfl, _, -, rfl⟩
    · trivial
    · exact hkeep rfl hcompany
  | overrun =>
    rw [overrun_step] at hm'
    cases hm'

/-- A call of `main` after `connect_loop` has returned. -/
theorem told_step {m' : MainStage} {w w' : Surroundings} {flag : Bool} (hm : m ≠ .searching)
    (hm' : m.step c r = some m') (htold : Told w flag k m) (hcompany : Company l k m)
    (hw : w'.events = w.events) :
    Told w' (flagAfter flag c) (startedBy c .connectionListener .head k) m' := by
  have hsame : Told w' flag k m := by
    cases m <;> first | trivial | simpa only [Told, hw] using htold
  cases m with
  | searching => exact absurd rfl hm
  | connected =>
    obtain ⟨rfl, rfl⟩ := connected_step hm'
    exact hsame
  | resolving =>
    obtain ⟨_, _, rfl, rfl⟩ := resolving_step hm'
    split <;> exact hsame
  | greeting =>
    rcases greeting_step hm' with ⟨-, rfl⟩ | ⟨_, _, rfl, rfl⟩
    · split <;> exact hsame
    · split
      · exact hsame
      · trivial
  | greeted n =>
    rcases greeted_step hm' with ⟨-, rfl⟩ | ⟨rfl, rfl⟩ | ⟨hc, _, -, rfl⟩
    · trivial
    · exact .inl hsame
    · exact hsame
  | armed =>
    obtain ⟨rfl, rfl⟩ := armed_step hm'
    rw [startedBy_of_ne (by simp)]
    exact hsame
  | handling =>
    obtain ⟨rfl, rfl⟩ := handling_step hm'
    rcases hsame with hevents | ⟨n, hn⟩ | hflag
    · exact .inl hevents
    · exact absurd (hcompany.symm.trans hn) (Option.some_ne_none _).symm
    · exact .inr (.inr hflag)
  | watched =>
    obtain ⟨rfl, rfl⟩ := watched_step hm'
    rw [startedBy_of_ne (by simp)]
    exact hsame
  | joining =>
    obtain ⟨rfl, rfl⟩ := joining_step hm'
    trivial
  | rejoined n =>
    rcases rejoined_step hm' with ⟨-, rfl⟩ | ⟨rfl, _, -, rfl⟩ <;> trivial
  | overrun =>
    rw [overrun_step] at hm'
    cases hm'

theorem stages_main (h : InStages C (some m) l k) (hx : C.threads .main = some x)
    (hpend : x.running.pending = some c) (hans : world.answers C.store c r = true)
    (hjoin : ∀ u, world.joins c = some u → C.threads u = none) :
    ∃ m' o, m.step c r = some m' ∧ (o = some m' ∨ o = none ∧ m' = .searching) ∧
      InStages (afterCall C .main x c r) o (startedBy c .commandHandler .preparing l)
        (startedBy c .connectionListener .head k) := by
  have hat := h.main
  rw [hx] at hat
  obtain ⟨m', o, hm', ho, hend⟩ := Stack.at_call hat hpend (main_admits h hans)
  have hmain : ∀ m'', o = some m'' → m'' = m' := by
    rintro m'' rfl
    rcases hend with he | ⟨he, -⟩
    · exact Option.some.inj he
    · cases he
  obtain ⟨hrunning, hsession⟩ :=
    inside_call h.running h.session (System.step_of_call hx hpend hans hjoin)
  -- apart from sessions, `main` makes its calls alone
  have halone : c.isSession = false → l = none ∧ k = none := by
    intro hc
    obtain ⟨hl, hk⟩ := company_of_own_call h.session hx hat.1 hpend hc
    have hlistener := h.handler
    have hwatcher := h.watcher
    rw [hl] at hlistener
    rw [hk] at hwatcher
    exact ⟨Stack.none_of_at hlistener, Stack.none_of_at hwatcher⟩
  have hsame : c.isSession = true → C.store.around.effect c r = C.store.around := by
    intro hc
    cases c <;> first | rfl | exact Bool.noConfusion hc
  refine ⟨m', o, hm', hend, ?_, ?_, ?_, hrunning, hsession, ?_, ?_, ?_, ?_, ?_, ?_⟩
  · dsimp only [afterCall]
    rw [System.threadsAfter_self]
    exact ho
  · dsimp only [afterCall]
    rw [System.threadsAfter_of_ne (by decide)]
    exact at_startedBy keeps_handlerStages (fun h => h) h.handler c
  · dsimp only [afterCall]
    rw [System.threadsAfter_of_ne (by decide)]
    exact at_startedBy keeps_watcherStages (by simp) h.watcher c
  · intro m'' ho' hne
    obtain rfl := hmain m'' ho'
    exact control_main h hx hpend hm' hne
  · intro hjoined
    have hne : m' ≠ .searching := by
      by_cases hm : m = .searching
      · subst hm
        rcases searching_step_cases hm' with ⟨-, rfl⟩ | ⟨hc, -⟩
        · simp
        · obtain ⟨m'', hm'', hne⟩ := h.joined (joined_of_effect hc hjoined).1
          exact absurd (Option.some.inj hm'').symm hne
      · rcases main_step_away hm hm' with ⟨rfl, -⟩ | ⟨-, hne⟩
        · exact absurd rfl (joined_of_effect (by simp [startCall]) hjoined).2
        · exact hne
    rcases hend with rfl | ⟨-, he⟩
    · exact ⟨m', rfl, hne⟩
    · exact absurd he hne
  · intro m'' ho'
    obtain rfl := hmain m'' ho'
    refine company_step hm' (h.company m rfl) halone (fun hc => ?_) fun hc => ?_
    · subst hc
      have hnone := h.handler
      rw [hjoin .commandHandler rfl] at hnone
      exact Stack.none_of_at hnone
    · subst hc
      have hnone := h.watcher
      rw [hjoin .connectionListener rfl] at hnone
      exact Stack.none_of_at hnone
  · intro hl
    cases hc : c.isSession with
    | false =>
      rw [startedBy_of_not_session hc, (halone hc).1] at hl
      cases hl
    | true =>
      rw [afterCall_around, hsame hc]
      exact h.readable (of_startedBy hl (by simp))
  · intro hk
    cases hc : c.isSession with
    | false =>
      rw [startedBy_of_not_session hc, (halone hc).2] at hk
      cases hk
    | true =>
      rw [afterCall_around, hsame hc]
      exact h.fetchable (of_startedBy hk (by simp))
  · intro hlost m'' ho'
    obtain rfl := hmain m'' ho'
    rw [afterCall_around, afterCall_shared, effect_flag]
    by_cases hm : m = .searching
    · subst hm
      rcases searching_step_cases hm' with ⟨rfl, rfl⟩ | ⟨-, rfl⟩
      · exact Bool.noConfusion hlost.2
      · trivial
    · rcases main_step_away hm hm' with ⟨-, rfl⟩ | ⟨haway, -⟩
      · trivial
      · obtain ⟨hevents, -, -, hjoined, hgone⟩ :=
          effect_of_isAway (w := C.store.around) (r := r) haway
        have hbefore : Lost C := ⟨hjoined.symm.trans hlost.1, hgone.symm.trans hlost.2⟩
        exact told_step hm hm' (h.told hbefore m rfl) (h.company m rfl) hevents

/-! ## 5. Calls of the session threads -/

theorem effect_of_handling {w : Surroundings} (hc : c.isCommandHandling = true) :
    (w.effect c r).events = w.events ∧ (w.effect c r).joined = w.joined ∧
      (w.effect c r).gone = w.gone := by
  cases c with
  | mark m => cases m <;> first | exact ⟨rfl, rfl, rfl⟩ | exact Bool.noConfusion hc
  | _ => first | exact ⟨rfl, rfl, rfl⟩ | exact Bool.noConfusion hc

/-- A call of a session thread, which can only clear the flag. -/
theorem told_of_events {m : MainStage} {w w' : Surroundings} {flag flag' : Bool}
    (htold : Told w flag k m)
    (hw : w'.events = w.events) (hflag : flag = false → flag' = false) : Told w' flag' k m := by
  unfold Told at htold ⊢
  rw [hw]
  cases m with
  | armed => exact htold.imp_right (Or.imp_right hflag)
  | handling => exact htold.imp_right (Or.imp_right hflag)
  | watched => exact htold.imp_right (Or.imp_right hflag)
  | joining => exact htold.imp_right (Or.imp_right hflag)
  | _ => exact htold

/-- The listener receives when `select` has found something to receive. -/
theorem receiving_from {l : HandlerStage} (h : l.step c r = some .receiving) :
    ∃ fd, c = .select fd ∧ r.isSet = true := by
  cases l with
  | preparing =>
    rcases preparing_step h with ⟨_, _, -, he⟩ | ⟨-, he⟩ | ⟨_, -, he⟩ <;> split at he <;> cases he
  | freeing => cases (freeing_step h).2
  | accepting =>
    obtain ⟨_, -, he⟩ := accepting_step h
    split at he <;> cases he
  | refused n =>
    obtain ⟨_, -, he, -⟩ := refused_step h
    cases he
  | reading n =>
    rcases reading_step h with ⟨-, he⟩ | ⟨_, -, ⟨⟨fd, rfl⟩, he⟩ | ⟨-, he⟩⟩
    · split at he <;> cases he
    · split at he
      · rename_i hset
        exact ⟨fd, rfl, hset⟩
      · cases he
    · cases he
  | receiving =>
    obtain ⟨_, -, he⟩ := receiving_step h
    split at he <;> cases he
  | closing n =>
    obtain ⟨_, _, -, -, he⟩ := closing_step h
    cases he
  | overrun =>
    rw [handler_overrun_step] at h
    cases h

/-- A call of a thread that starts none leaves the other threads alone. -/
theorem threads_of_ne {u : Thread} (hspawns : process.spawns c = none) (hu : u ≠ t) :
    (afterCall C t x c r).threads u = C.threads u := by
  dsimp only [afterCall]
  rw [System.threadsAfter_of_ne hu, if_neg]
  rw [show world.spawns c = none from hspawns]
  exact (Option.some_ne_none u).symm

/-- While a session thread runs, `main` is in `enter_connected_state` or has failed. -/
theorem company_cases {m : MainStage} (h : Company l k m) (hne : l ≠ none ∨ k ≠ none) :
    m = .searching ∨ m = .handling ∨ m = .watched ∨ m = .joining ∨ m = .overrun := by
  have hnone : ¬ (l = none ∧ k = none) := fun ⟨hl, hk⟩ => hne.elim (fun h => h hl) fun h => h hk
  cases m <;> first | exact absurd h hnone | simp

theorem stages_handler {m : Option MainStage} {l : HandlerStage} (h : InStages C m (some l) k)
    (hx : C.threads .commandHandler = some x) (hpend : x.running.pending = some c)
    (hans : world.answers C.store c r = true)
    (hjoin : ∀ u, world.joins c = some u → C.threads u = none) :
    ∃ l' o, l.step c r = some l' ∧ (o = some l' ∨ o = none ∧ l'.ends) ∧
      InStages (afterCall C .commandHandler x c r) m o k := by
  have hat := h.handler
  rw [hx] at hat
  obtain ⟨l', o, hl', ho, hend⟩ := Stack.at_call hat hpend (r := r) trivial
  obtain ⟨hrunning, hsession⟩ :=
    inside_call h.running h.session (System.step_of_call hx hpend hans hjoin)
  have hhandling := handling_of_handler_step hl'
  have hidle := isIdle_of_isCommandHandling hhandling
  obtain ⟨hevents, hjoined, hgone⟩ := effect_of_handling (w := C.store.around) (r := r) hhandling
  have hcontrol : (C.store.shared.effect c r).controlData = C.store.shared.controlData :=
    (store_apart (apart_of_isIdle hidle)).1
  refine ⟨l', o, hl', hend, ?_, ?_, ?_, hrunning, hsession, fun m' hm' hne => ?_, fun hj => ?_,
    fun m' hm' => ?_, fun hl => ?_, fun hk => ?_, fun hlost m' hm' => ?_⟩
  · rw [threads_of_ne (spawns_of_isIdle hidle) (by decide)]
    exact h.main
  · dsimp only [afterCall]
    rw [System.threadsAfter_self]
    exact ho
  · rw [threads_of_ne (spawns_of_isIdle hidle) (by decide)]
    exact h.watcher
  · rw [afterCall_shared, hcontrol]
    exact h.control m' hm' hne
  · exact h.joined (hjoined.symm.trans hj)
  · rcases company_cases (h.company m' hm') (.inl (Option.some_ne_none l)) with rfl | rfl |
    rfl | rfl | rfl
    · trivial
    · exact h.company _ hm'
    · trivial
    · exact absurd (h.company _ hm') (Option.some_ne_none l)
    · trivial
  · have hreceiving : l' = .receiving := by
      rcases hend with he | ⟨he, -⟩
      · exact Option.some.inj (he.symm.trans hl)
      · exact absurd (he.symm.trans hl) (Option.some_ne_none _).symm
    obtain ⟨fd, rfl, hset⟩ := receiving_from (hreceiving ▸ hl')
    have hfound := (world_answers.mp hans).2
    simp only [Surroundings.answers, hset, Bool.not_true, Bool.false_or] at hfound
    exact hfound
  · rw [afterCall_around, hevents]
    exact h.fetchable hk
  · rw [afterCall_shared, effect_flag]
    exact told_of_events
      (h.told ⟨hjoined.symm.trans hlost.1, hgone.symm.trans hlost.2⟩ m' hm') hevents
      fun hf => hf ▸ flagAfter_of_isIdle hidle

theorem fetching_from {k : WatcherStage} (h : k.step c r = some .fetching) :
    c = .wpaCtrlPending ∧ r.isSet = true := by
  cases k with
  | head =>
    obtain ⟨rfl, he⟩ := head_step h
    split at he
    · rename_i hset
      exact ⟨rfl, hset⟩
    · cases he
  | fetching =>
    obtain ⟨_, -, he⟩ := fetching_step h
    split at he <;> cases he
  | judging =>
    rcases judging_step h with ⟨-, he⟩ | ⟨-, he⟩
    · split at he <;> cases he
    · cases he
  | dropping n => rcases dropping_step h with ⟨_, -, he, -⟩ | ⟨-, he⟩ <;> cases he
  | leaving => cases (leaving_stage_step h).2
  | ended =>
    rw [ended_step] at h
    cases h

/-- The event that the peer has gone is in the queue until `connected_loop` acts on it. -/
theorem told_watcher {k k' : WatcherStage} {o : Option WatcherStage} {w : Surroundings}
    {flag : Bool} (hk' : k.step c r = some k') (ho : o = some k' ∨ o = none ∧ k' = .ended)
    (hans : w.answers c r = true)
    (hin : w.events.any tellsDisconnect = true ∨ (∃ n, some k = some (.dropping n)) ∨
      flag = false) :
    (w.effect c r).events.any tellsDisconnect = true ∨ (∃ n, o = some (.dropping n)) ∨
      flagAfter flag c = false := by
  have hsome : ∀ n, k' = .dropping n → o = some (.dropping n) := by
    rintro n rfl
    rcases ho with rfl | ⟨-, he⟩
    · rfl
    · cases he
  rcases watcher_step_away hk' with ⟨rfl, len, rfl⟩ | ⟨haway, hclear, -, -⟩
  · obtain ⟨_, -, he⟩ := fetching_step hk'
    rcases hin with hevents | ⟨n, hn⟩ | hflag
    · by_cases htold : 0 ≤ r.ret ∧ tellsDisconnect r.offer = true
      · exact .inr (.inl ⟨2, hsome 2 (he.trans (if_pos htold))⟩)
      · left
        simp only [Surroundings.effect]
        split
        · exact hevents
        · rename_i hret
          have hhead : w.events.head? = some r.offer := of_decide_eq_true hans
          obtain ⟨rest, hrest⟩ : ∃ rest, w.events = r.offer :: rest :=
            List.head?_eq_some_iff.mp hhead
          rw [hrest, List.any_cons, Bool.or_eq_true] at hevents
          rw [hrest]
          exact hevents.resolve_left fun htells => htold ⟨not_lt.mp hret, htells⟩
    · cases hn
    · exact .inr (.inr hflag)
  · rcases hin with hevents | ⟨n, hn⟩ | hflag
    · exact .inl ((congrArg (List.any · tellsDisconnect) (effect_of_isAway haway).1).trans hevents)
    · obtain rfl := Option.some.inj hn
      rcases dropping_step hk' with ⟨n', -, he, -⟩ | ⟨rfl, -⟩
      · exact .inr (.inl ⟨n', hsome n' he⟩)
      · exact .inr (.inr rfl)
    · right
      right
      cases c with
      | setListenForCommands val =>
        cases val with
        | true => exact absurd rfl hclear
        | false => rfl
      | _ => exact hflag

/-- What a call of `connected_loop` leaves alone. -/
theorem effect_of_watcher {k k' : WatcherStage} {w : Surroundings} (hk' : k.step c r = some k') :
    (w.effect c r).readable = w.readable ∧ (w.effect c r).connections = w.connections ∧
      (w.effect c r).joined = w.joined ∧ (w.effect c r).gone = w.gone := by
  rcases watcher_step_away hk' with ⟨-, len, rfl⟩ | ⟨haway, -⟩
  · simp only [Surroundings.effect]
    split <;> exact ⟨rfl, rfl, rfl, rfl⟩
  · exact (effect_of_isAway haway).2

theorem stages_watcher {m : Option MainStage} {k : WatcherStage} (h : InStages C m l (some k))
    (hx : C.threads .connectionListener = some x) (hpend : x.running.pending = some c)
    (hans : world.answers C.store c r = true)
    (hjoin : ∀ u, world.joins c = some u → C.threads u = none) :
    ∃ k' o, k.step c r = some k' ∧ (o = some k' ∨ o = none ∧ k' = .ended) ∧
      InStages (afterCall C .connectionListener x c r) m l o := by
  have hat := h.watcher
  rw [hx] at hat
  obtain ⟨k', o, hk', ho, hend⟩ := Stack.at_call hat hpend (r := r) trivial
  obtain ⟨hrunning, hsession⟩ :=
    inside_call h.running h.session (System.step_of_call hx hpend hans hjoin)
  have hcall : process.spawns c = none ∧
      (C.store.shared.effect c r).controlData = C.store.shared.controlData := by
    rcases watcher_step_away hk' with ⟨-, len, rfl⟩ | ⟨haway, -, hspawns, -⟩
    · exact ⟨rfl, rfl⟩
    · exact ⟨hspawns, effect_controlData (by rintro control rfl; exact Bool.noConfusion haway)⟩
  obtain ⟨hspawns, hcontrol⟩ := hcall
  obtain ⟨hreadable, -, hjoined, hgone⟩ := effect_of_watcher (w := C.store.around) hk'
  refine ⟨k', o, hk', hend, ?_, ?_, ?_, hrunning, hsession, fun m' hm' hne => ?_, fun hj => ?_,
    fun m' hm' => ?_, fun hl => ?_, fun hfetch => ?_, fun hlost m' hm' => ?_⟩
  · rw [threads_of_ne hspawns (by decide)]
    exact h.main
  · rw [threads_of_ne hspawns (by decide)]
    exact h.handler
  · dsimp only [afterCall]
    rw [System.threadsAfter_self]
    exact ho
  · rw [afterCall_shared, hcontrol]
    exact h.control m' hm' hne
  · exact h.joined (hjoined.symm.trans hj)
  · rcases company_cases (h.company m' hm') (.inr (Option.some_ne_none k)) with rfl | rfl |
    rfl | rfl | rfl
    · trivial
    · exact absurd (h.company _ hm') (Option.some_ne_none k)
    · trivial
    · exact h.company _ hm'
    · trivial
  · rw [afterCall_around, hreadable]
    exact h.readable hl
  · have hfetching : k' = .fetching := by
      rcases hend with he | ⟨he, -⟩
      · exact Option.some.inj (he.symm.trans hfetch)
      · exact absurd (he.symm.trans hfetch) (Option.some_ne_none _).symm
    obtain ⟨rfl, hset⟩ := fetching_from (hfetching ▸ hk')
    have hfound := (world_answers.mp hans).2
    simp only [Surroundings.answers, hset, Bool.not_true, Bool.false_or] at hfound
    exact of_decide_eq_true hfound
  · have htold := h.told ⟨hjoined.symm.trans hlost.1, hgone.symm.trans hlost.2⟩ m' hm'
    rw [afterCall_shared, effect_flag, afterCall_around]
    rcases company_cases (h.company m' hm') (.inr (Option.some_ne_none k)) with rfl | rfl |
      rfl | rfl | rfl
    · trivial
    · exact told_watcher hk' hend (world_answers.mp hans).2 htold
    · exact told_watcher hk' hend (world_answers.mp hans).2 htold
    · exact told_watcher hk' hend (world_answers.mp hans).2 htold
    · trivial

/-! ## 6. Runs -/

/-- What happens outside of the driver takes nothing away, and the event that the peer
has gone is there when it goes. -/
theorem outside_grows {w w' : Surroundings} {e : Outside} (h : w.outside e = some w') :
    (w.readable = true → w'.readable = true) ∧ (w.events ≠ [] → w'.events ≠ []) ∧
      w'.joined = w.joined ∧
      (w.events.any tellsDisconnect = true → w'.events.any tellsDisconnect = true) ∧
      (w'.gone = true → w.gone = true ∨ w'.events.any tellsDisconnect = true) := by
  have hpeer : ∀ {w₁ : Surroundings}, (if w.gone then none else some w₁) = some w' → w₁ = w' := by
    intro w₁ hsends
    split at hsends
    · cases hsends
    · exact Option.some.inj hsends
  cases e with
  | event message =>
    obtain rfl := Option.some.inj h
    exact ⟨fun h => h, fun h => by simp [h], rfl, fun h => by simp [h], .inl⟩
  | leave =>
    unfold Surroundings.outside at h
    dsimp only at h
    split at h
    · rename_i hleaves
      obtain rfl := Option.some.inj h
      exact ⟨fun h => h, fun h => h, rfl, fun h => h,
        fun _ => .inr (Bool.and_eq_true_iff.mp hleaves).2⟩
    · cases h
  | datagram message =>
    obtain rfl := hpeer h
    exact ⟨fun h => h, fun h => h, rfl, fun h => h, .inl⟩
  | connect =>
    obtain rfl := hpeer h
    exact ⟨fun h => h, fun h => h, rfl, fun h => h, .inl⟩
  | send message =>
    obtain rfl := hpeer h
    refine ⟨fun h => ?_, fun h => h, rfl, fun h => h, .inl⟩
    simp only [Surroundings.readable, Bool.or_eq_true, decide_eq_true_eq] at h ⊢
    exact h.imp_left fun hne he => hne (List.append_eq_nil_iff.mp he).1
  | shutdown =>
    obtain rfl := hpeer h
    exact ⟨fun _ => by simp [Surroundings.readable], fun h => h, rfl, fun h => h, .inl⟩

/-- What happens outside of the driver. -/
theorem stages_outside {m : Option MainStage} (h : InStages C m l k) {e : Outside}
    (hstep : world.step C (.outside e) = some C') : InStages C' m l k := by
  obtain ⟨store, hstore, rfl⟩ := System.step_outside hstep
  obtain ⟨around, haround, rfl⟩ := Option.map_eq_some_iff.mp hstore
  obtain ⟨hreadable, hevents, hjoined, hkept, hgone⟩ := outside_grows haround
  refine ⟨h.main, h.handler, h.watcher, h.running, h.session, h.control,
    fun hj => h.joined (hjoined.symm.trans hj), h.company, fun hl => hreadable (h.readable hl),
    fun hk => hevents (h.fetchable hk), fun hlost m' hm' => ?_⟩
  have hj : C.store.around.joined = true := hjoined.symm.trans hlost.1
  have hin : around.events.any tellsDisconnect = true ∨
      Told C.store.around C.store.shared.runCommandLoop k m' := by
    rcases hgone hlost.2 with hg | htells
    · exact .inr (h.told ⟨hj, hg⟩ m' hm')
    · exact .inl htells
  unfold Told at hin ⊢
  cases m' with
  | connected => exact hin.elim id hkept
  | resolving => exact hin.elim id hkept
  | greeting => exact hin.elim id hkept
  | greeted n => exact hin.elim id hkept
  | armed => exact hin.elim .inl fun htold => htold.imp_left hkept
  | handling => exact hin.elim .inl fun htold => htold.imp_left hkept
  | watched => exact hin.elim .inl fun htold => htold.imp_left hkept
  | joining => exact hin.elim .inl fun htold => htold.imp_left hkept
  | _ => trivial

theorem stages_call {m : Option MainStage} (h : InStages C m l k)
    (hstep : world.step C (.call t c r) = some C') : ∃ m' l' k', InStages C' m' l' k' := by
  obtain ⟨x, hx, hpend, hans, hjoin, rfl⟩ := System.step_call hstep
  cases t with
  | main =>
    obtain ⟨m, rfl, -⟩ := Stack.some_of_at (hx ▸ h.main)
    obtain ⟨_, _, -, -, hnext⟩ := stages_main h hx hpend hans hjoin
    exact ⟨_, _, _, hnext⟩
  | commandHandler =>
    obtain ⟨l, rfl, -⟩ := Stack.some_of_at (hx ▸ h.handler)
    obtain ⟨_, _, -, -, hnext⟩ := stages_handler h hx hpend hans hjoin
    exact ⟨_, _, _, hnext⟩
  | connectionListener =>
    obtain ⟨k, rfl, -⟩ := Stack.some_of_at (hx ▸ h.watcher)
    obtain ⟨_, _, -, -, hnext⟩ := stages_watcher h hx hpend hans hjoin
    exact ⟨_, _, _, hnext⟩

theorem stages_start : InStages worldStart (some .searching) none none where
  main := ⟨rfl, rfl, keeps_mainStages⟩
  handler := trivial
  watcher := trivial
  running := by
    refine ⟨.fresh, rfl, rfl, fun y hy => ?_, fun y hy => ?_, fun y hy => ?_,
      fun _ => ⟨rfl, rfl, rfl⟩⟩
    · obtain rfl := Option.some.inj hy
      exact ⟨rfl, keeps_setupPhases .udp⟩
    · cases hy
    · cases hy
  session := ⟨sessionStart, tracks_initial .udp, coherent_start⟩
  control _ hm hne := absurd (Option.some.inj hm).symm hne
  joined hj := Bool.noConfusion hj
  company _ hm := (Option.some.inj hm) ▸ trivial
  readable hl := absurd hl.symm (Option.some_ne_none _)
  fetchable hk := absurd hk.symm (Option.some_ne_none _)
  told hlost := Bool.noConfusion hlost.1

end RecoveryLemmas

open RecoveryLemmas

/-- In every reachable state the threads are in their stages. -/
theorem stages_run {ls : List WorldMove} {C : WorldState}
    (hrun : world.run worldStart ls = some C) :
    ∃ m l k, InStages C m l k := by
  refine System.run_induction hrun (P := fun _ C => ∃ m l k, InStages C m l k)
    ⟨_, _, _, stages_start⟩ ?_
  rintro ls move C₁ C₂ ⟨m, l, k, h⟩ hstep
  cases move with
  | call t c r => exact stages_call h hstep
  | interrupt t signum =>
    obtain ⟨_, -, hdelivers, -, -⟩ := System.step_interrupt hstep
    exact Bool.noConfusion hdelivers
  | outside e => exact ⟨m, l, k, stages_outside h hstep⟩

end P2pDriver
