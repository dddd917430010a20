import P2pDriver.Library.Monitor
import Mathlib.Logic.Function.Basic

/-!
# Threads

Programs that run as threads over a store they share. A step is one call of one
thread with its answer, or the arrival of an interrupt on a thread, or something
the surroundings do to the store. An interrupt suspends its thread: the handler
runs on top of what the thread was doing, and may be interrupted in turn by an
interrupt that is not being handled there already.

Which answers a call may get, and what it does to the store, is given by a
`System`. A call that `joins` a thread is only answered once that thread has
returned; a call with no possible answer blocks for good.

Results:
1. `step_call`, `step_interrupt`, `step_outside`: what a step can be.
2. `run_induction`: what holds at the start and is kept by every step holds after
   every run.
3. `Stack.Obeys.call`: a step of a thread that keeps a monitor.
4. `Stack.Handles.call`: a step of a thread in a handler that does not return.
5. `guarded_induction`: the rule for runs whose steps are all taken under a guard.
6. `Refines.call`, `Refines.run`: a system over a larger store runs the smaller one.
7. `LeadsTo.of_descent`, `LeadsTo.avoids`: what gets the threads somewhere on their
   own, and what keeps them from it.
8. `watched_run`: what a thread that keeps a monitor calls in a run.
9. `followed_run`: the same for a monitor that is a function of what was called before.
-/

namespace Resumable

open Prog

variable {κ ρ σ τ π ε M : Type}

/-! ## 1. Threads and their stacks -/

/-- Whether a program has returned. -/
def Prog.returned {α : Type} : Prog κ ρ α → Bool
  | .ret _ => true
  | _ => false

/-- A thread that has not returned: its own program, and those of the interrupts
it is handling, the latest first. -/
structure Stack (κ ρ π : Type) where
  base : Prog κ ρ Unit
  handlers : List (π × Prog κ ρ Unit)

/-- A thread that starts a program. -/
def Stack.start (p : Prog κ ρ Unit) : Option (Stack κ ρ π) :=
  if p.returned then none else some ⟨p, []⟩

/-- The program a thread is in. -/
def Stack.running (s : Stack κ ρ π) : Prog κ ρ Unit :=
  match s.handlers with
  | [] => s.base
  | (_, h) :: _ => h

/-- A thread once its pending call is answered. -/
def Stack.resume (s : Stack κ ρ π) (r : ρ) : Option (Stack κ ρ π) :=
  match s.handlers with
  | [] => Stack.start (s.base.resume r)
  | (x, h) :: hs =>
    some ⟨s.base, if (h.resume r).returned then hs else (x, h.resume r) :: hs⟩

/-- What the threads of a system run, and how their calls act on the store. -/
structure System (κ ρ σ τ π ε : Type) where
  text : τ → Prog κ ρ Unit
  handler : π → Prog κ ρ Unit
  spawns : κ → Option τ
  joins : κ → Option τ
  answers : σ → κ → ρ → Bool
  effect : σ → κ → ρ → σ
  delivers : σ → π → Bool
  outside : σ → ε → Option σ

/-- A state of a system. A thread that has returned, or was never started, is `none`. -/
structure Config (κ ρ σ τ π : Type) where
  store : σ
  threads : τ → Option (Stack κ ρ π)

inductive Label (κ ρ τ π ε : Type) where
  | call (t : τ) (c : κ) (r : ρ)
  | interrupt (t : τ) (x : π)
  | outside (e : ε)
deriving DecidableEq

namespace System

variable [DecidableEq κ] [DecidableEq τ] [DecidableEq π] (S : System κ ρ σ τ π ε)

/-- The threads after a call of `t`. -/
def threadsAfter (threads : τ → Option (Stack κ ρ π)) (t : τ) (s : Stack κ ρ π) (c : κ) (r : ρ) :
    τ → Option (Stack κ ρ π) :=
  match S.spawns c with
  | none => Function.update threads t (s.resume r)
  | some u => Function.update (Function.update threads u (Stack.start (S.text u))) t (s.resume r)

def step (C : Config κ ρ σ τ π) : Label κ ρ τ π ε → Option (Config κ ρ σ τ π)
  | .call t c r =>
    match C.threads t with
    | none => none
    | some s =>
      if s.running.pending = some c ∧ S.answers C.store c r = true ∧
          (S.joins c).all (fun u => (C.threads u).isNone) = true then
        some ⟨S.effect C.store c r, S.threadsAfter C.threads t s c r⟩
      else none
  | .interrupt t x =>
    match C.threads t with
    | none => none
    | some s =>
      if S.delivers C.store x = true ∧ x ∉ s.handlers.map Prod.fst then
        some ⟨C.store, Function.update C.threads t (some ⟨s.base, (x, S.handler x) :: s.handlers⟩)⟩
      else none
  | .outside e => (S.outside C.store e).map fun store => ⟨store, C.threads⟩

def run (C : Config κ ρ σ τ π) : List (Label κ ρ τ π ε) → Option (Config κ ρ σ τ π)
  | [] => some C
  | l :: ls => (S.step C l).bind fun C' => run C' ls

/-- Every step of a run is taken in a state where `G` allows it. -/
def guarded (G : Config κ ρ σ τ π → Label κ ρ τ π ε → Bool) (C : Config κ ρ σ τ π) :
    List (Label κ ρ τ π ε) → Bool
  | [] => true
  | l :: ls => G C l && (S.step C l).all fun C' => guarded G C' ls

/-! ## 2. Steps and runs -/

variable {S} {C C' : Config κ ρ σ τ π}

omit [DecidableEq κ] [DecidableEq π] in
@[simp] theorem threadsAfter_self (threads : τ → Option (Stack κ ρ π)) (t : τ) (s : Stack κ ρ π)
    (c : κ) (r : ρ) : S.threadsAfter threads t s c r t = s.resume r := by
  unfold threadsAfter
  cases S.spawns c with
  | none => exact Function.update_self ..
  | some u => exact Function.update_self ..

omit [DecidableEq κ] [DecidableEq π] in
/-- What a call does to a thread other than its own. -/
theorem threadsAfter_of_ne {t u : τ} (hne : u ≠ t) (threads : τ → Option (Stack κ ρ π))
    (s : Stack κ ρ π)
    (c : κ) (r : ρ) : S.threadsAfter threads t s c r u =
      if S.spawns c = some u then Stack.start (S.text u) else threads u := by
  unfold threadsAfter
  cases S.spawns c with
  | none => simp [Function.update_of_ne hne]
  | some v =>
    dsimp only
    rw [Function.update_of_ne hne]
    by_cases hv : v = u
    · subst hv
      simp
    · simp [hv, Function.update_of_ne (Ne.symm hv)]

theorem step_call {t : τ} {c : κ} {r : ρ} (h : S.step C (.call t c r) = some C') :
    ∃ s, C.threads t = some s ∧ s.running.pending = some c ∧ S.answers C.store c r = true ∧
      (∀ u, S.joins c = some u → C.threads u = none) ∧
      C' = ⟨S.effect C.store c r, S.threadsAfter C.threads t s c r⟩ := by
  unfold step at h
  cases hs : C.threads t with
  | none =>
    simp only [hs] at h
    cases h
  | some s =>
    simp only [hs] at h
    split at h
    · rename_i hc
      obtain ⟨hpend, hans, hjoin⟩ := hc
      refine ⟨s, rfl, hpend, hans, fun u hu => ?_, (Option.some.inj h).symm⟩
      rw [hu] at hjoin
      simpa using hjoin
    · cases h

/-- A call that is not blocked. -/
theorem step_of_call {t : τ} {c : κ} {r : ρ} {s : Stack κ ρ π} (hs : C.threads t = some s)
    (hpend : s.running.pending = some c) (hans : S.answers C.store c r = true)
    (hjoin : ∀ u, S.joins c = some u → C.threads u = none) :
    S.step C (.call t c r) = some ⟨S.effect C.store c r, S.threadsAfter C.threads t s c r⟩ := by
  have hjoin' : (S.joins c).all (fun u => (C.threads u).isNone) = true := by
    cases hu : S.joins c with
    | none => rfl
    | some u => simp [hjoin u hu]
  unfold step
  simp only [hs]
  exact if_pos ⟨hpend, hans, hjoin'⟩

theorem step_interrupt {t : τ} {x : π} (h : S.step C (.interrupt t x) = some C') :
    ∃ s, C.threads t = some s ∧ S.delivers C.store x = true ∧ x ∉ s.handlers.map Prod.fst ∧
      C' = ⟨C.store, Function.update C.threads t
        (some ⟨s.base, (x, S.handler x) :: s.handlers⟩)⟩ := by
  unfold step at h
  cases hs : C.threads t with
  | none =>
    simp only [hs] at h
    cases h
  | some s =>
    simp only [hs] at h
    split at h
    · rename_i hx
      exact ⟨s, rfl, hx.1, hx.2, (Option.some.inj h).symm⟩
    · cases h

theorem step_outside {e : ε} (h : S.step C (.outside e) = some C') :
    ∃ store, S.outside C.store e = some store ∧ C' = ⟨store, C.threads⟩ := by
  obtain ⟨store, hstore, hC'⟩ := Option.map_eq_some_iff.mp h
  exact ⟨store, hstore, hC'.symm⟩

theorem run_append (C : Config κ ρ σ τ π) (ls ls' : List (Label κ ρ τ π ε)) :
    S.run C (ls ++ ls') = (S.run C ls).bind fun C' => S.run C' ls' := by
  induction ls generalizing C with
  | nil => rfl
  | cons l ls ih =>
    simp only [List.cons_append, run]
    cases S.step C l with
    | none => rfl
    | some C' => exact ih C'

theorem run_append_eq_some {ls ls' : List (Label κ ρ τ π ε)} :
    S.run C (ls ++ ls') = some C' ↔ ∃ C₁, S.run C ls = some C₁ ∧ S.run C₁ ls' = some C' := by
  rw [run_append, Option.bind_eq_some_iff]

theorem run_cons_eq_some {l : Label κ ρ τ π ε} {ls : List (Label κ ρ τ π ε)} :
    S.run C (l :: ls) = some C' ↔ ∃ C₁, S.step C l = some C₁ ∧ S.run C₁ ls = some C' := by
  rw [run, Option.bind_eq_some_iff]

/-- The rule for runs: what holds at the start and is kept by every step. -/
theorem run_induction {P : List (Label κ ρ τ π ε) → Config κ ρ σ τ π → Prop}
    {ls : List (Label κ ρ τ π ε)}
    (hrun : S.run C ls = some C') (h : P [] C)
    (hstep : ∀ ls l C₁ C₂, P ls C₁ → S.step C₁ l = some C₂ → P (ls ++ [l]) C₂) : P ls C' := by
  induction ls using List.reverseRecOn generalizing C' with
  | nil => exact Option.some.inj hrun ▸ h
  | append_singleton ls l ih =>
    obtain ⟨C₁, hC₁, hlast⟩ := run_append_eq_some.mp hrun
    obtain ⟨C₂, hC₂, hend⟩ := run_cons_eq_some.mp hlast
    obtain rfl := Option.some.inj hend
    exact hstep ls l C₁ C₂ (ih hC₁) hC₂

/-- The rule for guarded runs: what every allowed step keeps. -/
theorem guarded_induction {G : Config κ ρ σ τ π → Label κ ρ τ π ε → Bool}
    {P : Config κ ρ σ τ π → Prop} {ls : List (Label κ ρ τ π ε)} (hrun : S.run C ls = some C')
    (hguard : S.guarded G C ls = true) (h : P C)
    (hstep : ∀ C₁ l C₂, P C₁ → G C₁ l = true → S.step C₁ l = some C₂ → P C₂) : P C' := by
  induction ls generalizing C with
  | nil => exact Option.some.inj hrun ▸ h
  | cons l ls ih =>
    obtain ⟨C₁, hC₁, hrest⟩ := run_cons_eq_some.mp hrun
    obtain ⟨hl, hguard⟩ := Bool.and_eq_true_iff.mp hguard
    rw [hC₁] at hguard
    exact ih hrest hguard (hstep C l C₁ h hl hC₁)

/-- The threads get from `C` to a step of the kind `G` on their own. -/
inductive LeadsTo (S : System κ ρ σ τ π ε) (G : Label κ ρ τ π ε → Prop) :
    Config κ ρ σ τ π → Prop where
  | now {C C' : Config κ ρ σ τ π} {l : Label κ ρ τ π ε} (hl : G l) (h : S.step C l = some C') :
      LeadsTo S G C
  | next {C C' : Config κ ρ σ τ π} {t : τ} {c : κ} {r : ρ} (h : S.step C (.call t c r) = some C')
      (hC' : LeadsTo S G C') : LeadsTo S G C

/-- A step of the kind `G`, or a call to a state that has `P` at a lower rank. -/
def Approaches (S : System κ ρ σ τ π ε) (G : Label κ ρ τ π ε → Prop) {β : Type} (lt : β → β → Prop)
    (P : β → Config κ ρ σ τ π → Prop) (b : β) (C : Config κ ρ σ τ π) : Prop :=
  (∃ l C', G l ∧ S.step C l = some C') ∨
    ∃ t c r C' b', S.step C (.call t c r) = some C' ∧ lt b' b ∧ P b' C'

/-- What approaches a step of the kind `G` leads to it. -/
theorem LeadsTo.of_descent {G : Label κ ρ τ π ε → Prop} {β : Type} {lt : β → β → Prop}
    (hwf : WellFounded lt) {P : β → Config κ ρ σ τ π → Prop}
    (hstep : ∀ b C, P b C → S.Approaches G lt P b C) {b : β} (h : P b C) : S.LeadsTo G C := by
  induction b using hwf.induction generalizing C with
  | _ b ih =>
    rcases hstep b C h with ⟨l, C', hl, hs⟩ | ⟨t, c, r, C', b', hs, hlt, hP⟩
    · exact .now hl hs
    · exact .next hs (ih b' hlt hP)

/-- What every call keeps, and what allows no step of the kind `G`, is not left. -/
theorem LeadsTo.avoids {G : Label κ ρ τ π ε → Prop} (P : Config κ ρ σ τ π → Prop) (h : P C)
    (hstep : ∀ C C' t c r, P C → S.step C (.call t c r) = some C' → P C')
    (hgoal : ∀ C l C', P C → G l → S.step C l ≠ some C') : ¬ S.LeadsTo G C := by
  intro hleads
  induction hleads with
  | now hl hs => exact hgoal _ _ _ h hl hs
  | next hs _ ih => exact ih (hstep _ _ _ _ _ h hs)

end System

/-! ## 3. Systems over a larger store -/

section Refines

variable {σ' ε' : Type}

/-- A state of a system, of whose store less is seen. -/
def Config.map (f : σ' → σ) (C : Config κ ρ σ' τ π) : Config κ ρ σ τ π := ⟨f C.store, C.threads⟩

/-- A step of a system as one of another, unless it is one of the surroundings. -/
def Label.inner : Label κ ρ τ π ε' → Option (Label κ ρ τ π ε)
  | .call t c r => some (.call t c r)
  | .interrupt t x => some (.interrupt t x)
  | .outside _ => none

/-- The threads of `S` are those of `T`, and its store has a part that is a store
of `T`. The other part may make it refuse answers, and is all that the
surroundings act on. -/
structure System.Refines (S : System κ ρ σ' τ π ε') (T : System κ ρ σ τ π ε) (f : σ' → σ) :
    Prop where
  text : S.text = T.text
  handler : S.handler = T.handler
  spawns : S.spawns = T.spawns
  joins : S.joins = T.joins
  answers : ∀ w c r, S.answers w c r = true → T.answers (f w) c r = true
  effect : ∀ w c r, f (S.effect w c r) = T.effect (f w) c r
  delivers : ∀ w x, S.delivers w x = true → T.delivers (f w) x = true
  outside : ∀ w e w', S.outside w e = some w' → f w' = f w

namespace System

variable [DecidableEq κ] [DecidableEq τ] [DecidableEq π] {S : System κ ρ σ' τ π ε'}
  {T : System κ ρ σ τ π ε} {f : σ' → σ} {C C' : Config κ ρ σ' τ π}

omit [DecidableEq κ] [DecidableEq π] in
theorem Refines.threadsAfter (h : S.Refines T f) (threads : τ → Option (Stack κ ρ π)) (t : τ)
    (s : Stack κ ρ π) (c : κ) (r : ρ) :
    S.threadsAfter threads t s c r = T.threadsAfter threads t s c r := by
  unfold System.threadsAfter
  rw [h.spawns, h.text]

theorem Refines.call (h : S.Refines T f) {t : τ} {c : κ} {r : ρ}
    (hstep : S.step C (.call t c r) = some C') :
    T.step (C.map f) (.call t c r) = some (C'.map f) := by
  obtain ⟨s, hs, hpend, hans, hjoin, rfl⟩ := step_call hstep
  rw [step_of_call (C := C.map f) hs hpend (h.answers _ _ _ hans)
    (fun u hu => hjoin u (by rw [h.joins]; exact hu))]
  simp only [Config.map, h.effect, h.threadsAfter]

theorem Refines.interrupt (h : S.Refines T f) {t : τ} {x : π}
    (hstep : S.step C (.interrupt t x) = some C') :
    T.step (C.map f) (.interrupt t x) = some (C'.map f) := by
  obtain ⟨s, hs, hdelivers, hx, rfl⟩ := step_interrupt hstep
  unfold System.step
  simp only [Config.map, hs, h.handler]
  exact if_pos ⟨h.delivers _ _ hdelivers, hx⟩

/-- Every run of the larger system is one of the smaller one. -/
theorem Refines.run (h : S.Refines T f) {ls : List (Label κ ρ τ π ε')}
    (hrun : S.run C ls = some C') :
    T.run (C.map f) (ls.filterMap Label.inner) = some (C'.map f) := by
  induction ls generalizing C with
  | nil => exact congrArg (Option.map (Config.map f)) hrun
  | cons l ls ih =>
    obtain ⟨C₁, hC₁, hrest⟩ := run_cons_eq_some.mp hrun
    cases l with
    | call t c r => exact run_cons_eq_some.mpr ⟨_, h.call hC₁, ih hrest⟩
    | interrupt t x => exact run_cons_eq_some.mpr ⟨_, h.interrupt hC₁, ih hrest⟩
    | outside e =>
      obtain ⟨w, hw, rfl⟩ := step_outside hC₁
      have hsame : Config.map f ⟨w, C.threads⟩ = C.map f := by
        rw [Config.map, Config.map, h.outside _ _ _ hw]
      exact hsame ▸ ih hrest

end System

end Refines

/-! ## 4. Threads that keep a monitor -/

/-- A thread whose own program keeps a monitor, and whose handlers make calls of
the kind `P` only. -/
structure Stack.Obeys (Sp : Spec κ ρ M) (P : κ → Bool) (Q : M → Prop) (m : M) (s : Stack κ ρ π) :
    Prop where
  base : Keeps Sp m s.base fun _ m' => Q m'
  handlers : ∀ h ∈ s.handlers, Only P False h.2

namespace Stack

variable {Sp : Spec κ ρ M} {P : κ → Bool} {Q : M → Prop} {m : M} {s : Stack κ ρ π}

/-- What a thread that has been resumed does with its monitor. -/
theorem Obeys.start {p : Prog κ ρ Unit} (h : Keeps Sp m p fun _ m' => Q m') :
    (∃ s, Stack.start p = some s ∧ s.Obeys Sp P Q m (π := π)) ∨
      (Stack.start p : Option (Stack κ ρ π)) = none ∧ Q m := by
  unfold Stack.start
  cases p with
  | ret u => exact .inr ⟨rfl, h.result⟩
  | call c k => exact .inl ⟨_, rfl, h, fun _ hx => absurd hx List.not_mem_nil⟩
  | loop c body k => exact .inl ⟨_, rfl, h, fun _ hx => absurd hx List.not_mem_nil⟩
  | fault => exact .inl ⟨_, rfl, h, fun _ hx => absurd hx List.not_mem_nil⟩

/-- A thread that is interrupted. -/
theorem Obeys.interrupt (h : s.Obeys Sp P Q m) {x : π} {p : Prog κ ρ Unit} (hp : Only P False p) :
    Stack.Obeys Sp P Q m ⟨s.base, (x, p) :: s.handlers⟩ := by
  refine ⟨h.base, fun y hy => ?_⟩
  rcases List.mem_cons.mp hy with rfl | hy
  · exact hp
  · exact h.handlers y hy

/-- A call of a thread is one of a handler, which leaves the monitor where it is,
or one of the thread's own program, which the monitor allows. -/
theorem Obeys.call (h : s.Obeys Sp P Q m) {c : κ} (hc : s.running.pending = some c) {r : ρ}
    (hr : Sp.admits m c r) :
    (P c = true ∧ ∃ s', s.resume r = some s' ∧ s'.Obeys Sp P Q m) ∨
      ∃ m', Sp.step m c r = some m' ∧
        ((∃ s', s.resume r = some s' ∧ s'.Obeys Sp P Q m') ∨ s.resume r = none ∧ Q m') := by
  obtain ⟨base, handlers⟩ := s
  cases handlers with
  | nil =>
    obtain ⟨m', hm', hk⟩ := h.base.resume hc hr
    exact .inr ⟨m', hm', Obeys.start hk⟩
  | cons top hs =>
    obtain ⟨x, p⟩ := top
    have honly := h.handlers (x, p) List.mem_cons_self
    obtain ⟨hPc, hk⟩ := Only.resume honly hc r
    refine .inl ⟨hPc, _, rfl, h.base, fun y hy => ?_⟩
    have htail : ∀ y ∈ hs, Only P False y.2 := fun y hy => h.handlers y (List.mem_cons_of_mem _ hy)
    dsimp only at hy
    split at hy
    · exact htail y hy
    · rcases List.mem_cons.mp hy with rfl | hy
      · exact hk
      · exact htail y hy

/-- What is known of a thread that is resumed. -/
theorem Obeys.resumed (h : s.Obeys Sp P Q m) {c : κ} (hc : s.running.pending = some c) {r : ρ}
    (hr : Sp.admits m c r) : (∀ s', s.resume r = some s' → ∃ m', s'.Obeys Sp P Q m') ∧
      (P c = true ∨ ∃ m', Sp.step m c r = some m') := by
  rcases h.call hc hr with ⟨hPc, s', hs', hobeys⟩ | ⟨m', hm', hend⟩
  · refine ⟨fun s'' hs'' => ?_, .inl hPc⟩
    obtain rfl := Option.some.inj (hs'.symm.trans hs'')
    exact ⟨m, hobeys⟩
  · refine ⟨fun s'' hs'' => ?_, .inr ⟨m', hm'⟩⟩
    rcases hend with ⟨s', hs', hobeys⟩ | ⟨hnone, -⟩
    · obtain rfl := Option.some.inj (hs'.symm.trans hs'')
      exact ⟨m', hobeys⟩
    · cases hnone.symm.trans hs''

/-- A thread that handles no interrupt, and whose program has the property `R`. -/
def Calm (R : Prog κ ρ Unit → Prop) (x : Option (Stack κ ρ π)) : Prop :=
  ∀ s, x = some s → s.handlers = [] ∧ R s.base

/-- A thread whose latest handler keeps a monitor, and does not return. -/
def Handles (Sp : Spec κ ρ M) (m : M) (s : Stack κ ρ π) : Prop :=
  ∃ x p hs, s.handlers = (x, p) :: hs ∧ Keeps Sp m p fun _ _ => False

theorem running_of_nil (h : s.handlers = []) : s.running = s.base := by
  rw [running, h]

theorem base_of_start {p : Prog κ ρ Unit} (h : Stack.start p = some s) : s = ⟨p, []⟩ := by
  unfold start at h
  split at h
  · cases h
  · exact (Option.some.inj h).symm

theorem calm_start {R : Prog κ ρ Unit → Prop} {p : Prog κ ρ Unit} (h : R p) :
    Calm R (Stack.start p : Option (Stack κ ρ π)) := by
  intro s hs
  obtain rfl := base_of_start hs
  exact ⟨rfl, h⟩

/-- A call of a thread that handles no interrupt is one of its own program. -/
theorem calm_resume {R : Prog κ ρ Unit → Prop} (hs : s.handlers = []) {r : ρ}
    (h : R (s.base.resume r)) :
    Calm R (s.resume r) := by
  unfold resume
  rw [hs]
  exact calm_start h

/-- A thread that handles no interrupt, and keeps a monitor while it runs. -/
def At (Sp : Spec κ ρ M) (Q : M → Prop) : Option (Stack κ ρ π) → Option M → Prop
  | none, none => True
  | some s, some m => s.handlers = [] ∧ s.base.returned = false ∧ Keeps Sp m s.base fun _ m' => Q m'
  | _, _ => False

theorem some_of_at {o : Option M} (h : At Sp Q (some s) o) :
    ∃ m, o = some m ∧ At Sp Q (some s) (some m) := by
  cases o with
  | none => exact h.elim
  | some m => exact ⟨m, rfl, h⟩

theorem none_of_at {o : Option M} (h : At Sp Q (none : Option (Stack κ ρ π)) o) : o = none := by
  cases o with
  | none => rfl
  | some m => exact h.elim

theorem absent_of_at {x : Option (Stack κ ρ π)} (h : At Sp Q x none) : x = none := by
  cases x with
  | none => rfl
  | some s => exact h.elim

theorem runs_of_at {x : Option (Stack κ ρ π)} (h : At Sp Q x (some m)) : ∃ s, x = some s := by
  cases x with
  | none => exact h.elim
  | some s => exact ⟨s, rfl⟩

/-- A thread that has been started or resumed. -/
theorem at_start {p : Prog κ ρ Unit} (h : Keeps Sp m p fun _ m' => Q m') :
    ∃ o, At Sp Q (Stack.start p : Option (Stack κ ρ π)) o ∧ (o = some m ∨ o = none ∧ Q m) := by
  unfold Stack.start
  cases p with
  | ret u => exact ⟨none, trivial, .inr ⟨rfl, h.result⟩⟩
  | call c k => exact ⟨some m, ⟨rfl, rfl, h⟩, .inl rfl⟩
  | loop c body k => exact ⟨some m, ⟨rfl, rfl, h⟩, .inl rfl⟩
  | fault => exact ⟨some m, ⟨rfl, rfl, h⟩, .inl rfl⟩

/-- A thread waits on a call where its monitor lets it not fault. -/
theorem pending_of_at (h : At Sp Q (some s) (some m)) (hF : ¬ Sp.faults m) :
    ∃ c, s.running.pending = some c := by
  obtain ⟨hnil, hret, hk⟩ := h
  rw [running_of_nil hnil]
  cases hp : s.base.pending with
  | some c => exact ⟨c, rfl⟩
  | none =>
    rcases pending_eq_none hp with ⟨a, ha⟩ | hf
    · rw [ha] at hret
      exact Bool.noConfusion hret
    · rw [hf] at hk
      exact absurd hk.faults hF

/-- What a thread waits on where its monitor lets it not fault. -/
theorem waits_of_at {x : Option (Stack κ ρ π)} (h : At Sp Q x (some m)) (hF : ¬ Sp.faults m) :
    ∃ s c, x = some s ∧ s.handlers = [] ∧ s.running.pending = some c ∧
      ∀ r, Sp.admits m c r → ∃ m', Sp.step m c r = some m' := by
  obtain ⟨s, rfl⟩ := runs_of_at h
  obtain ⟨c, hc⟩ := pending_of_at h hF
  refine ⟨s, c, rfl, h.1, hc, fun r hr => ?_⟩
  rw [running_of_nil h.1] at hc
  obtain ⟨m', hm', -⟩ := h.2.2.resume hc hr
  exact ⟨m', hm'⟩

/-- A thread that waits on no call has faulted. -/
theorem faults_of_at (h : At Sp Q (some s) (some m)) (hnone : s.base.pending = none) :
    Sp.faults m := by
  by_contra hF
  obtain ⟨c, hc⟩ := pending_of_at h hF
  rw [running_of_nil h.1, hnone] at hc
  cases hc

/-- A thread whose monitor allows no call waits on none. -/
theorem stalled_of_at [Inhabited ρ] (h : At Sp Q (some s) (some m))
    (hadmits : ∀ c r, Sp.admits m c r) (hstep : ∀ c r, Sp.step m c r = none) :
    s.base.pending = none := by
  by_contra hpend
  obtain ⟨c, hc⟩ := Option.ne_none_iff_exists'.mp hpend
  obtain ⟨m', hm', -⟩ := h.2.2.resume hc (hadmits c default)
  cases (hstep c default).symm.trans hm'

/-- A call of a thread that keeps a monitor. -/
theorem at_call (h : At Sp Q (some s) (some m)) {c : κ} (hc : s.running.pending = some c) {r : ρ}
    (hr : Sp.admits m c r) :
    ∃ m' o, Sp.step m c r = some m' ∧ At Sp Q (s.resume r) o ∧ (o = some m' ∨ o = none ∧ Q m') := by
  obtain ⟨hnil, -, hk⟩ := h
  rw [running_of_nil hnil] at hc
  obtain ⟨m', hm', hnext⟩ := hk.resume hc hr
  obtain ⟨o, ho, hend⟩ := at_start (π := π) hnext
  refine ⟨m', o, hm', ?_, hend⟩
  unfold resume
  rw [hnil]
  exact ho

/-- A call of a thread in a handler. -/
theorem Handles.call (h : s.Handles Sp m) {c : κ} (hc : s.running.pending = some c) {r : ρ}
    (hr : Sp.admits m c r) :
    ∃ m' s', Sp.step m c r = some m' ∧ s.resume r = some s' ∧ s'.base = s.base ∧
      s'.Handles Sp m' := by
  obtain ⟨base, handlers⟩ := s
  obtain ⟨x, p, hs, rfl, hp⟩ := h
  obtain ⟨m', hm', hk⟩ := hp.resume hc hr
  refine ⟨m', _, hm', rfl, rfl, x, p.resume r, hs, ?_, hk⟩
  have hret : (p.resume r).returned = false := by
    cases hpr : p.resume r with
    | ret u =>
      rw [hpr] at hk
      exact hk.result.elim
    | call c k => rfl
    | loop c body k => rfl
    | fault => rfl
  simp [hret]

/-- An interrupt puts a thread in a handler. -/
theorem handles_interrupt {p : Prog κ ρ Unit} (hp : Keeps Sp m p fun _ _ => False) (x : π) :
    Stack.Handles Sp m ⟨s.base, (x, p) :: s.handlers⟩ :=
  ⟨x, p, s.handlers, rfl, hp⟩

end Stack

/-! ## 5. Runs in which a thread keeps a monitor -/

namespace System

variable [DecidableEq κ] [DecidableEq τ] [DecidableEq π] {S : System κ ρ σ τ π ε}
  {C C' : Config κ ρ σ τ π}
  {Sp : Spec κ ρ M} {P : κ → Bool} {Q : M → Prop} {t : τ}

/-- The thread is not there, or it keeps its monitor. -/
def Watched (Sp : Spec κ ρ M) (P : κ → Bool) (Q : M → Prop) (t : τ) (C : Config κ ρ σ τ π) : Prop :=
  ∀ s, C.threads t = some s → ∃ m, s.Obeys Sp P Q m

/-- What is known of a step when a thread is watched: it stays so, and what it
calls is allowed to its handlers or by its monitor. -/
theorem watched_step {m₀ : M} (hhandler : ∀ x, Only P False (S.handler x))
    (hkeeps : Keeps Sp m₀ (S.text t) fun _ m => Q m) {l : Label κ ρ τ π ε} (h : Watched Sp P Q t C)
    (hstep : S.step C l = some C') (hadmits : ∀ c r, l = .call t c r → ∀ m, Sp.admits m c r) :
    Watched Sp P Q t C' ∧
      ∀ c r, l = .call t c r → P c = true ∨ ∃ m m', Sp.step m c r = some m' := by
  cases l with
  | call u c r =>
    obtain ⟨s, hs, hpend, -, -, rfl⟩ := step_call hstep
    by_cases hu : t = u
    · subst hu
      obtain ⟨m, hobeys⟩ := h s hs
      obtain ⟨hresumed, hcall⟩ := hobeys.resumed hpend (hadmits c r rfl m)
      refine ⟨fun s' hs' => ?_, ?_⟩
      · dsimp only at hs'
        rw [threadsAfter_self] at hs'
        exact hresumed s' hs'
      · rintro _ _ ⟨⟩
        exact hcall.imp_right fun hm => ⟨m, hm⟩
    · refine ⟨fun s' hs' => ?_, ?_⟩
      · dsimp only at hs'
        rw [threadsAfter_of_ne hu] at hs'
        split at hs'
        · rcases Stack.Obeys.start (P := P) (π := π) hkeeps with ⟨s'', hs'', hobeys⟩ | ⟨hnone, -⟩
          · obtain rfl := Option.some.inj (hs''.symm.trans hs')
            exact ⟨m₀, hobeys⟩
          · cases hnone.symm.trans hs'
        · exact h s' hs'
      · rintro _ _ ⟨⟩
        exact absurd rfl hu
  | interrupt u x =>
    obtain ⟨s, hs, -, -, rfl⟩ := step_interrupt hstep
    refine ⟨fun s' hs' => ?_, fun _ _ hl => by cases hl⟩
    by_cases hu : t = u
    · subst hu
      obtain ⟨m, hobeys⟩ := h s hs
      obtain rfl : _ = s' := by simpa using hs'
      exact ⟨m, hobeys.interrupt (hhandler x)⟩
    · exact h s' (by simpa [Function.update_of_ne hu] using hs')
  | outside e =>
    obtain ⟨store, -, rfl⟩ := step_outside hstep
    exact ⟨h, fun _ _ hl => by cases hl⟩

/-- What a thread calls in a run is allowed to its handlers or by its monitor. -/
theorem watched_run {m₀ : M} (hhandler : ∀ x, Only P False (S.handler x))
    (hkeeps : Keeps Sp m₀ (S.text t) fun _ m => Q m) {ls : List (Label κ ρ τ π ε)}
    (h : Watched Sp P Q t C) (hrun : S.run C ls = some C')
    (hadmits : ∀ c r, .call t c r ∈ ls → ∀ m, Sp.admits m c r) :
    Watched Sp P Q t C' ∧
      ∀ c r, .call t c r ∈ ls → P c = true ∨ ∃ m m', Sp.step m c r = some m' := by
  refine System.run_induction hrun
    (P := fun ls C' => (∀ c r, .call t c r ∈ ls → ∀ m, Sp.admits m c r) → Watched Sp P Q t C' ∧
      ∀ c r, .call t c r ∈ ls → P c = true ∨ ∃ m m', Sp.step m c r = some m')
    (fun _ => ⟨h, fun c r hmem => absurd hmem List.not_mem_nil⟩) ?_ hadmits
  intro ls l C₁ C₂ ih hstep hadmits
  obtain ⟨hwatched, hcalls⟩ := ih fun c r hmem => hadmits c r (List.mem_append_left _ hmem)
  obtain ⟨hwatched', hcall⟩ := watched_step hhandler hkeeps hwatched hstep fun c r hl =>
    hadmits c r (hl ▸ List.mem_append_right _ List.mem_cons_self)
  refine ⟨hwatched', fun c r hmem => ?_⟩
  rcases List.mem_append.mp hmem with hmem | hmem
  · exact hcalls c r hmem
  · exact hcall c r (List.mem_singleton.mp hmem).symm

/-- What the calls of a thread in a run make of `m`. -/
def follow (update : M → κ → ρ → M) (t : τ) (m : M) (ls : List (Label κ ρ τ π ε)) : M :=
  ls.foldl (fun m l => match l with | .call u c r => if u = t then update m c r else m | _ => m) m

omit [DecidableEq κ] [DecidableEq π] in
@[simp] theorem follow_append (update : M → κ → ρ → M) (t : τ) (m : M)
    (ls ls' : List (Label κ ρ τ π ε)) :
    follow update t m (ls ++ ls') = follow update t (follow update t m ls) ls' := List.foldl_append

/-- A step of a thread whose monitor is a function of what was called. -/
theorem followed_step {update : M → κ → ρ → M} {m : M}
    (hupdate : ∀ m c r m', Sp.step m c r = some m' → m' = update m c r)
    (hhandling : ∀ m c r, P c = true → update m c r = m)
    (hhandler : ∀ x, Only P False (S.handler x)) {l : Label κ ρ τ π ε}
    (h : ∀ s, C.threads t = some s → s.Obeys Sp P Q m) (hstep : S.step C l = some C')
    (hspawns : ∀ u c r, l = .call u c r → u ≠ t → S.spawns c ≠ some t)
    (hadmits : ∀ c r, l = .call t c r → Sp.admits m c r) :
    (∀ s, C'.threads t = some s → s.Obeys Sp P Q (follow update t m [l])) ∧
      ∀ c r, l = .call t c r → P c = true ∨ ∃ m', Sp.step m c r = some m' := by
  cases l with
  | call u c r =>
    obtain ⟨s, hs, hpend, -, -, rfl⟩ := step_call hstep
    by_cases hu : u = t
    · subst hu
      have hfollow : follow update u m [(.call u c r : Label κ ρ τ π ε)] = update m c r :=
        if_pos rfl
      rw [hfollow]
      rcases (h s hs).call hpend (hadmits c r rfl) with ⟨hP, s', hs', hobeys⟩ | ⟨m', hm', hend⟩
      · refine ⟨fun s'' hs'' => ?_, fun _ _ hl => by cases hl; exact .inl hP⟩
        obtain rfl : s' = s'' := by simpa [hs'] using hs''
        rw [hhandling m c r hP]
        exact hobeys
      · obtain rfl := hupdate m c r m' hm'
        refine ⟨fun s'' hs'' => ?_, fun _ _ hl => by cases hl; exact .inr ⟨_, hm'⟩⟩
        dsimp only at hs''
        rw [threadsAfter_self] at hs''
        rcases hend with ⟨s', hs', hobeys⟩ | ⟨hnone, -⟩
        · obtain rfl := Option.some.inj (hs'.symm.trans hs'')
          exact hobeys
        · cases hnone.symm.trans hs''
    · have hfollow : follow update t m [(.call u c r : Label κ ρ τ π ε)] = m := if_neg hu
      rw [hfollow]
      refine ⟨fun s' hs' => h s' ?_, fun _ _ hl => absurd (by cases hl; rfl) hu⟩
      dsimp only at hs'
      rwa [threadsAfter_of_ne (Ne.symm hu), if_neg (hspawns u c r rfl hu)] at hs'
  | interrupt u x =>
    obtain ⟨s, hs, -, -, rfl⟩ := step_interrupt hstep
    refine ⟨fun s' hs' => ?_, fun _ _ hl => by cases hl⟩
    by_cases hu : t = u
    · subst hu
      obtain rfl : _ = s' := by simpa using hs'
      exact (h s hs).interrupt (hhandler x)
    · exact h s' (by simpa [Function.update_of_ne hu] using hs')
  | outside e =>
    obtain ⟨store, -, rfl⟩ := step_outside hstep
    exact ⟨h, fun _ _ hl => by cases hl⟩

/-- What a thread calls in a run is allowed to its handlers, or by its monitor after what
was called before. No other thread starts it anew. -/
theorem followed_run {update : M → κ → ρ → M} {m : M}
    (hupdate : ∀ m c r m', Sp.step m c r = some m' → m' = update m c r)
    (hhandling : ∀ m c r, P c = true → update m c r = m)
    (hhandler : ∀ x, Only P False (S.handler x)) {ls : List (Label κ ρ τ π ε)}
    (h : ∀ s, C.threads t = some s → s.Obeys Sp P Q m) (hrun : S.run C ls = some C')
    (hspawns : ∀ u c r, .call u c r ∈ ls → u ≠ t → S.spawns c ≠ some t)
    (hadmits : ∀ c r, .call t c r ∈ ls → ∀ m, Sp.admits m c r) :
    (∀ s, C'.threads t = some s → s.Obeys Sp P Q (follow update t m ls)) ∧
      ∀ before c r after, ls = before ++ .call t c r :: after →
        P c = true ∨ ∃ m', Sp.step (follow update t m before) c r = some m' := by
  induction ls generalizing C m with
  | nil =>
    obtain rfl := Option.some.inj hrun
    exact ⟨h, fun before c r after hls => by simp at hls⟩
  | cons l ls ih =>
    obtain ⟨C₁, hC₁, hrest⟩ := run_cons_eq_some.mp hrun
    obtain ⟨hobeys, hcall⟩ := followed_step hupdate hhandling hhandler h hC₁
      (fun u c r hl => hspawns u c r (hl ▸ List.mem_cons_self))
      fun c r hl => hadmits c r (hl ▸ List.mem_cons_self) m
    obtain ⟨hend, hcalls⟩ :=
      ih hobeys hrest (fun u c r hmem => hspawns u c r (List.mem_cons_of_mem l hmem))
      fun c r hmem => hadmits c r (List.mem_cons_of_mem l hmem)
    refine ⟨hend, fun before c r after hls => ?_⟩
    cases before with
    | nil => exact hcall c r (List.cons.inj hls).1
    | cons l' before =>
      obtain ⟨hl, hrest'⟩ := List.cons.inj hls
      subst hl
      exact hcalls before c r after hrest'

/-- A step of a thread that nothing interrupts, and whose monitor is a function of what was
called. Where it is started, its program keeps the monitor. -/
theorem uninterrupted_step {update : M → κ → ρ → M} {m : M}
    (hupdate : ∀ m c r m', Sp.step m c r = some m' → m' = update m c r)
    (hquiet : ∀ s x, S.delivers s x = false) {l : Label κ ρ τ π ε}
    (h : Stack.Calm (fun p => Keeps Sp m p fun _ _ => True) (C.threads t))
    (hstep : S.step C l = some C')
    (hspawns : ∀ u c r, l = .call u c r → u ≠ t → S.spawns c = some t →
      Keeps Sp m (S.text t) fun _ _ => True)
    (hadmits : ∀ c r, l = .call t c r → Sp.admits m c r) :
    Stack.Calm (fun p => Keeps Sp (follow update t m [l]) p fun _ _ => True) (C'.threads t) ∧
      ∀ c r, l = .call t c r → ∃ m', Sp.step m c r = some m' := by
  cases l with
  | call u c r =>
    obtain ⟨s, hs, hpend, -, -, rfl⟩ := step_call hstep
    by_cases hu : u = t
    · subst hu
      obtain ⟨hnil, hkeeps⟩ := h s hs
      rw [Stack.running_of_nil hnil] at hpend
      obtain ⟨m', hm', hnext⟩ := hkeeps.resume hpend (hadmits c r rfl)
      rw [show follow update u m [(.call u c r : Label κ ρ τ π ε)] = update m c r from if_pos rfl,
        ← hupdate m c r m' hm']
      refine ⟨?_, fun _ _ hl => by cases hl; exact ⟨m', hm'⟩⟩
      dsimp only
      rw [threadsAfter_self]
      exact Stack.calm_resume hnil hnext
    · rw [show follow update t m [(.call u c r : Label κ ρ τ π ε)] = m from if_neg hu]
      refine ⟨?_, fun _ _ hl => absurd (by cases hl; rfl) hu⟩
      dsimp only
      rw [threadsAfter_of_ne (Ne.symm hu)]
      split
      · rename_i hspawn
        exact Stack.calm_start (hspawns u c r rfl hu hspawn)
      · exact h
  | interrupt u x =>
    obtain ⟨_, -, hdelivers, -⟩ := step_interrupt hstep
    rw [hquiet] at hdelivers
    cases hdelivers
  | outside e =>
    obtain ⟨store, -, rfl⟩ := step_outside hstep
    exact ⟨h, fun _ _ hl => by cases hl⟩

/-- A step of a thread that nothing interrupts, and that makes calls of one kind. -/
theorem only_step {F : Prop} (hquiet : ∀ s x, S.delivers s x = false) (htext : Only P F (S.text t))
    {l : Label κ ρ τ π ε} (h : Stack.Calm (Only P F) (C.threads t)) (hstep : S.step C l = some C') :
    Stack.Calm (Only P F) (C'.threads t) ∧ ∀ c r, l = .call t c r → P c = true := by
  have hupdate : ∀ u c r u', (onlySpec ρ P F).step u c r = some u' → u' = u := fun _ _ _ _ _ => rfl
  obtain ⟨hcalm, hcalls⟩ :=
    uninterrupted_step hupdate hquiet h hstep (fun _ _ _ _ _ _ => htext) fun _ _ _ => trivial
  refine ⟨hcalm, fun c r hl => ?_⟩
  obtain ⟨_, hcall⟩ := hcalls c r hl
  by_contra hno
  rw [show (onlySpec ρ P F).step _ c r = none from if_neg hno] at hcall
  cases hcall

end System

end Resumable
