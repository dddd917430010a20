import P2pDriver.Library.Prog
import Mathlib.Data.List.Induction

/-!
# Monitors

What a program may do, said as an automaton over its calls, and the rules that
show a program stays inside it.

A monitor reads the calls of a run with their answers. `Keeps S m p Q` says: as
long as the answers are ones `S` admits, every call of `p` is one `S` allows,
starting from the state `m`, and when `p` returns `a` in the state `m'`, `Q a m'`
holds. The rules follow the text of the program: one for a result, one for a
call, one for a sequence and one for a loop, whose invariant is a set of monitor
states.

Results:
1. `keeps_call`, `keeps_bind`, `keeps_loop`, `Keeps.mono`: the rules.
2. `Keeps.resume`: a program that keeps its monitor still does after each step.
   This is what a thread of a larger system is known by.
3. `Keeps.exec`: a whole run is accepted, and the rest of the program keeps the
   monitor from the state reached. `Keeps.both`: two monitors make a third.
4. `Only.keeps`: a program whose calls a monitor ignores leaves it where it is.
5. `Keeps.issued_allowed`, `Keeps.logged`: a monitor that remembers all calls so far,
   or the events among them.
6. `Keeps.trace_eq`: a program that keeps the monitor of a machine makes the
   calls of the machine, call by call.
7. `Keeps.pending_iff_demanded`, `Keeps.fault_iff_fatal`: answers after which there is
   only one way on.
-/

namespace Resumable

open Prog

/-- A monitor with states `M`: the answers it expects, the state after a call
(`none`: the call is not allowed), and whether undefined behaviour is tolerated. -/
structure Spec (κ ρ M : Type) where
  admits : M → κ → ρ → Prop
  step : M → κ → ρ → Option M
  faults : M → Prop

variable {κ ρ M α β : Type}

namespace Spec

/-- The answers of a run are ones the monitor expects. -/
def Admits (S : Spec κ ρ M) : M → List (κ × ρ) → Prop
  | _, [] => True
  | m, (c, r) :: tr => S.admits m c r ∧ ∀ m', S.step m c r = some m' → S.Admits m' tr

theorem Admits.take {S : Spec κ ρ M} {m : M} {tr : List (κ × ρ)} (h : S.Admits m tr) (i : Nat) :
    S.Admits m (tr.take i) := by
  induction tr generalizing m i with
  | nil => simpa using h
  | cons e tr ih =>
    cases i with
    | zero => trivial
    | succ i => exact ⟨h.1, fun m' hm' => ih (h.2 m' hm') i⟩

/-- The state of the monitor after a run. -/
def exec (S : Spec κ ρ M) : M → List (κ × ρ) → Option M
  | m, [] => some m
  | m, (c, r) :: tr => (S.step m c r).bind fun m' => S.exec m' tr

@[simp] theorem exec_nil (S : Spec κ ρ M) (m : M) : S.exec m [] = some m := rfl

@[simp] theorem exec_cons (S : Spec κ ρ M) (m : M) (c : κ) (r : ρ) (tr : List (κ × ρ)) :
    S.exec m ((c, r) :: tr) = (S.step m c r).bind fun m' => S.exec m' tr := rfl

theorem exec_append (S : Spec κ ρ M) (m : M) (tr tr' : List (κ × ρ)) :
    S.exec m (tr ++ tr') = (S.exec m tr).bind fun m' => S.exec m' tr' := by
  induction tr generalizing m with
  | nil => rfl
  | cons e tr ih =>
    obtain ⟨c, r⟩ := e
    simp only [List.cons_append, exec_cons]
    cases S.step m c r with
    | none => rfl
    | some m' => exact ih m'

/-- A run cut at one of its calls. -/
theorem exec_append_cons {S : Spec κ ρ M} {m m' : M} {tr tr' : List (κ × ρ)} {e : κ × ρ} :
    S.exec m (tr ++ e :: tr') = some m' ↔ ∃ m₁ m₂, S.exec m tr = some m₁ ∧
      S.step m₁ e.1 e.2 = some m₂ ∧ S.exec m₂ tr' = some m' := by
  obtain ⟨c, r⟩ := e
  rw [exec_append, Option.bind_eq_some_iff]
  constructor
  · rintro ⟨m₁, hexec, hrest⟩
    obtain ⟨m₂, hstep, hend⟩ := Option.bind_eq_some_iff.mp hrest
    exact ⟨m₁, m₂, hexec, hstep, hend⟩
  · rintro ⟨m₁, m₂, hexec, hstep, hend⟩
    exact ⟨m₁, hexec, Option.bind_eq_some_iff.mpr ⟨m₂, hstep, hend⟩⟩

end Spec

/-- `p` keeps `S` from `m` for its next `n` steps. -/
def KeepsFor (S : Spec κ ρ M) : Nat → M → Prog κ ρ α → (α → M → Prop) → Prop
  | 0, _, _, _ => True
  | n + 1, m, p, Q =>
    (∀ a, p = .ret a → Q a m) ∧ (p = .fault → S.faults m) ∧
    ∀ c, p.pending = some c → ∀ r, S.admits m c r →
      ∃ m', S.step m c r = some m' ∧ KeepsFor S n m' (p.resume r) Q

/-- `p` keeps `S` from `m`, and returns `a` only in states `m'` with `Q a m'`. -/
def Keeps (S : Spec κ ρ M) (m : M) (p : Prog κ ρ α) (Q : α → M → Prop) : Prop :=
  ∀ n, KeepsFor S n m p Q

/-! ## 1. Rules -/

section Rules

variable {S : Spec κ ρ M} {m : M}

theorem keepsFor_le {n n' : Nat} (hn : n' ≤ n) {p : Prog κ ρ α} {Q : α → M → Prop}
    (h : KeepsFor S n m p Q) : KeepsFor S n' m p Q := by
  induction n' generalizing n m p with
  | zero => trivial
  | succ n' ih =>
    obtain ⟨n, rfl⟩ : ∃ k, n = k + 1 := ⟨n - 1, by omega⟩
    obtain ⟨hret, hfault, hstep⟩ := h
    refine ⟨hret, hfault, fun c hc r hr => ?_⟩
    obtain ⟨m', hm', hk⟩ := hstep c hc r hr
    exact ⟨m', hm', ih (by omega) hk⟩

theorem keepsFor_bind {n : Nat} {p : Prog κ ρ α} {P : α → M → Prop} {f : α → Prog κ ρ β}
    {Q : β → M → Prop} (h : KeepsFor S n m p P)
    (hf : ∀ a m', P a m' → KeepsFor S n m' (f a) Q) : KeepsFor S n m (p.bind f) Q := by
  induction n generalizing m p with
  | zero => trivial
  | succ n ih =>
    obtain ⟨hret, hfault, hstep⟩ := h
    cases hp : p.pending with
    | none =>
      rcases pending_eq_none hp with ⟨a, rfl⟩ | rfl
      · exact hf a m (hret a rfl)
      · exact ⟨fun _ h => (nomatch h), fun _ => hfault rfl, fun _ h => (nomatch h)⟩
    | some c =>
      have hpb : (p.bind f).pending = some c := pending_bind hp f
      refine ⟨fun b hb => ?_, fun hb => ?_, fun c' hc' r hr => ?_⟩
      · rw [hb] at hpb; exact nomatch hpb
      · rw [hb] at hpb; exact nomatch hpb
      · obtain rfl : c = c' := Option.some.inj (hpb.symm.trans hc')
        obtain ⟨m', hm', hk⟩ := hstep c hp r hr
        refine ⟨m', hm', ?_⟩
        rw [resume_bind hp]
        exact ih hk fun a m'' ha => keepsFor_le (Nat.le_succ n) (hf a m'' ha)

theorem Keeps.mono {p : Prog κ ρ α} {Q Q' : α → M → Prop} (h : Keeps S m p Q)
    (hq : ∀ a m', Q a m' → Q' a m') : Keeps S m p Q' := by
  intro n
  have h' := keepsFor_bind (f := Prog.ret) (Q := Q') (h n) fun a m' ha => by
    cases n with
    | zero => trivial
    | succ n =>
      exact ⟨fun b hb => by cases hb; exact hq a m' ha, fun hb => (nomatch hb),
        fun _ hc => (nomatch hc)⟩
  rwa [bind_ret] at h'

theorem keeps_ret {a : α} {Q : α → M → Prop} (h : Q a m) : Keeps S m (.ret a) Q := by
  intro n
  cases n with
  | zero => trivial
  | succ n =>
    exact ⟨fun b hb => by cases hb; exact h, fun hb => (nomatch hb), fun _ hc => (nomatch hc)⟩

theorem keeps_fault {Q : α → M → Prop} (h : S.faults m) : Keeps S m .fault Q := by
  intro n
  cases n with
  | zero => trivial
  | succ n => exact ⟨fun _ hb => (nomatch hb), fun _ => h, fun _ hc => (nomatch hc)⟩

theorem keeps_call {c : κ} {k : ρ → Prog κ ρ α} {Q : α → M → Prop}
    (h : ∀ r, S.admits m c r → ∃ m', S.step m c r = some m' ∧ Keeps S m' (k r) Q) :
    Keeps S m (.call c k) Q := by
  intro n
  cases n with
  | zero => trivial
  | succ n =>
    refine ⟨fun _ hb => (nomatch hb), fun hb => (nomatch hb), fun c' hc r hr => ?_⟩
    cases hc
    obtain ⟨m', hm', hk⟩ := h r hr
    exact ⟨m', hm', hk n⟩

theorem keeps_bind {p : Prog κ ρ α} {f : α → Prog κ ρ β} {Q : β → M → Prop}
    (h : Keeps S m p fun a m' => Keeps S m' (f a) Q) : Keeps S m (p.bind f) Q :=
  fun n => keepsFor_bind (h n) fun _ _ ha => ha n

/-- What the end of a round has to establish: `I` to go round again, and that
the rest of the program keeps the monitor to leave. -/
def RoundPost (S : Spec κ ρ M) (I : M → Prop) (k : β → Prog κ ρ α) (Q : α → M → Prop) :
    Option β → M → Prop
  | none, m => I m
  | some b, m => Keeps S m (k b) Q

/-- The rule for a loop: `I` holds at the head of every round. -/
theorem keeps_loop (I : M → Prop) {c : κ} {body : ρ → Prog κ ρ (Option β)} {k : β → Prog κ ρ α}
    {Q : α → M → Prop} (hm : I m)
    (hbody : ∀ m, I m → ∀ r, S.admits m c r → ∃ m', S.step m c r = some m' ∧
      Keeps S m' (body r) (RoundPost S I k Q)) :
    Keeps S m (.loop c body k) Q := by
  intro n
  induction n generalizing m with
  | zero => trivial
  | succ n ih =>
    refine ⟨fun _ hb => (nomatch hb), fun hb => (nomatch hb), fun c' hc r hr => ?_⟩
    cases hc
    obtain ⟨m', hm', hk⟩ := hbody m hm r hr
    refine ⟨m', hm', keepsFor_bind (hk n) fun o m'' ho => ?_⟩
    cases o with
    | none => exact ih ho
    | some b => exact ho n

/-- One step of a program that keeps its monitor. -/
theorem Keeps.resume {p : Prog κ ρ α} {Q : α → M → Prop} (h : Keeps S m p Q) {c : κ}
    (hc : p.pending = some c) {r : ρ} (hr : S.admits m c r) :
    ∃ m', S.step m c r = some m' ∧ Keeps S m' (p.resume r) Q := by
  obtain ⟨m', hm', -⟩ := (h 1).2.2 c hc r hr
  refine ⟨m', hm', fun n => ?_⟩
  obtain ⟨m'', hm'', hk⟩ := (h (n + 1)).2.2 c hc r hr
  obtain rfl : m' = m'' := Option.some.inj (hm'.symm.trans hm'')
  exact hk

/-- A program is known by its first step. -/
theorem keeps_of_resume {p : Prog κ ρ α} {Q : α → M → Prop} (hret : ∀ a, p = .ret a → Q a m)
    (hfault : p = .fault → S.faults m)
    (hstep : ∀ c, p.pending = some c → ∀ r, S.admits m c r →
      ∃ m', S.step m c r = some m' ∧ Keeps S m' (p.resume r) Q) : Keeps S m p Q := by
  intro n
  cases n with
  | zero => trivial
  | succ n =>
    refine ⟨hret, hfault, fun c hc r hr => ?_⟩
    obtain ⟨m', hm', hk⟩ := hstep c hc r hr
    exact ⟨m', hm', hk n⟩

/-- The rule for a program that is run until it returns `some b`. -/
theorem keeps_forever (I : M → Prop) {p : Prog κ ρ (Option β)} {Q : β → M → Prop} (hm : I m) {c : κ}
    (hc : p.pending = some c) (h : ∀ m, I m → Keeps S m p (RoundPost S I .ret Q)) :
    Keeps S m (forever p) Q := by
  have hloop : forever p = .loop c p.resume .ret := by
    cases p with
    | ret a => exact nomatch hc
    | call c' k => cases hc; rfl
    | loop c' body k => cases hc; rfl
    | fault => exact nomatch hc
  rw [hloop]
  exact keeps_loop I hm fun m hm r hr => (h m hm).resume hc hr

theorem keeps_ofOption {o : Option α} {Q : α → M → Prop} (hsome : ∀ a, o = some a → Q a m)
    (hnone : o = none → S.faults m) : Keeps S m (ofOption o) Q := by
  cases o with
  | none => exact keeps_fault (hnone rfl)
  | some a => exact keeps_ret (hsome a rfl)

/-- A set of states no call leaves is kept by every program. -/
theorem keeps_of_inv (I : M → Prop) (hm : I m)
    (hstep : ∀ m c r, I m → S.admits m c r → ∃ m', S.step m c r = some m' ∧ I m')
    (hfault : ∀ m, I m → S.faults m) {p : Prog κ ρ α} : Keeps S m p fun _ m' => I m' := by
  intro n
  induction n generalizing m p with
  | zero => trivial
  | succ n ih =>
    refine ⟨fun _ _ => hm, fun _ => hfault m hm, fun c _ r hr => ?_⟩
    obtain ⟨m', hm', hI⟩ := hstep m c r hm hr
    exact ⟨m', hm', ih hI⟩

end Rules

/-! ## 2. What a program that keeps a monitor does -/

section Runs

variable {S : Spec κ ρ M} {m : M} {p : Prog κ ρ α} {Q : α → M → Prop}

theorem Keeps.result {a : α} (h : Keeps S m (.ret a) Q) : Q a m := (h 1).1 a rfl

theorem Keeps.faults (h : Keeps S m (.fault : Prog κ ρ α) Q) : S.faults m := (h 1).2.1 rfl

/-- Where the monitor tolerates no end, and no call but one, this call is next. -/
theorem Keeps.pending_of_forced (h : Keeps S m p Q) {c : κ} {r : ρ} (hQ : ∀ a, ¬ Q a m)
    (hF : ¬ S.faults m) (hadmits : ∀ c, S.admits m c r)
    (hstep : ∀ c' m', S.step m c' r = some m' → c' = c) : p.pending = some c := by
  cases hp : p.pending with
  | none =>
    rcases pending_eq_none hp with ⟨a, rfl⟩ | rfl
    · exact absurd h.result (hQ a)
    · exact absurd h.faults hF
  | some c' =>
    obtain ⟨m', hm', -⟩ := h.resume hp (hadmits c')
    rw [hstep c' m' hm']

/-- A run is admitted if its answers are expected in every state. -/
theorem admits_of_forall {tr : List (κ × ρ)} (h : ∀ e ∈ tr, ∀ m, S.admits m e.1 e.2) (m : M) :
    S.Admits m tr := by
  induction tr generalizing m with
  | nil => trivial
  | cons e tr ih =>
    exact ⟨h e List.mem_cons_self m,
      fun m' _ => ih (fun e he => h e (List.mem_cons_of_mem _ he)) m'⟩

theorem admits_of_true (h : ∀ m c r, S.admits m c r) (m : M) (tr : List (κ × ρ)) : S.Admits m tr :=
  admits_of_forall (fun e _ m => h m e.1 e.2) m

/-- A whole run of a program that keeps its monitor. -/
theorem Keeps.exec (h : Keeps S m p Q) (rs : List ρ) (hrs : S.Admits m (p.trace rs)) :
    ∃ m', S.exec m (p.trace rs) = some m' ∧ Keeps S m' (p.after rs) Q := by
  induction rs generalizing m p with
  | nil => exact ⟨m, rfl, h⟩
  | cons r rs ih =>
    cases hp : p.pending with
    | none =>
      rw [trace_of_pending_none hp, after_of_pending_none hp]
      exact ⟨m, rfl, h⟩
    | some c =>
      rw [trace_cons hp] at hrs ⊢
      rw [after_cons hp]
      obtain ⟨m', hm', hk⟩ := h.resume hp hrs.1
      obtain ⟨m'', hm'', hk'⟩ := ih hk (hrs.2 m' hm')
      exact ⟨m'', by rw [Spec.exec_cons, hm']; exact hm'', hk'⟩

/-- A program whose monitor tolerates nothing undefined. -/
theorem Keeps.after_ne_fault (h : Keeps S m p Q) (hadmits : ∀ m c r, S.admits m c r)
    (hF : ∀ m, ¬ S.faults m) (rs : List ρ) : p.after rs ≠ .fault := by
  intro hfault
  obtain ⟨m', -, hk⟩ := h.exec rs (admits_of_true hadmits m _)
  rw [hfault] at hk
  exact hF m' hk.faults

end Runs

/-- A program that keeps two monitors keeps a third whose states are related to both of
theirs, if each of its steps is one of them. -/
theorem Keeps.both {M₁ M₂ M : Type} {S₁ : Spec κ ρ M₁} {S₂ : Spec κ ρ M₂} {S : Spec κ ρ M}
    (R : M₁ → M₂ → M → Prop)
    (hstep : ∀ m₁ m₂ m c r, R m₁ m₂ m → S.admits m c r → S₂.admits m₂ c r ∧
      ∀ m₂', S₂.step m₂ c r = some m₂' → S₁.admits m₁ c r ∧
        ∀ m₁', S₁.step m₁ c r = some m₁' → ∃ m', S.step m c r = some m' ∧ R m₁' m₂' m')
    (hfaults : ∀ m₁ m₂ m, R m₁ m₂ m → S₁.faults m₁ → S₂.faults m₂ → S.faults m)
    {p : Prog κ ρ α} {Q₁ : α → M₁ → Prop} {Q₂ : α → M₂ → Prop} {m₁ : M₁} {m₂ : M₂} {m : M}
    (h₁ : Keeps S₁ m₁ p Q₁) (h₂ : Keeps S₂ m₂ p Q₂) (hR : R m₁ m₂ m) :
    Keeps S m p fun a m' => ∃ m₁' m₂', R m₁' m₂' m' ∧ Q₁ a m₁' ∧ Q₂ a m₂' := by
  intro n
  induction n generalizing p m₁ m₂ m with
  | zero => trivial
  | succ n ih =>
    refine ⟨fun a ha => ?_, fun hf => ?_, fun c hc r hr => ?_⟩
    · subst ha
      exact ⟨m₁, m₂, hR, h₁.result, h₂.result⟩
    · subst hf
      exact hfaults _ _ _ hR h₁.faults h₂.faults
    · obtain ⟨hr₂, hnext⟩ := hstep _ _ _ _ _ hR hr
      obtain ⟨m₂', hm₂', hk₂⟩ := h₂.resume hc hr₂
      obtain ⟨hr₁, hlast⟩ := hnext _ hm₂'
      obtain ⟨m₁', hm₁', hk₁⟩ := h₁.resume hc hr₁
      obtain ⟨m', hm', hR'⟩ := hlast _ hm₁'
      exact ⟨m', hm', ih hk₁ hk₂ hR'⟩

/-! ## 3. Programs that make calls of one kind -/

/-- The monitor that allows the calls `P`, and undefined behaviour if `F`. -/
def onlySpec (ρ : Type) (P : κ → Bool) (F : Prop) : Spec κ ρ Unit where
  admits _ _ _ := True
  step _ c _ := if P c then some () else none
  faults _ := F

/-- `p` makes calls of the kind `P` only. -/
abbrev Only (P : κ → Bool) (F : Prop) (p : Prog κ ρ α) : Prop :=
  Keeps (onlySpec ρ P F) () p fun _ _ => True

section Only

variable {P : κ → Bool} {F : Prop}

theorem only_ret (a : α) : Only P F (.ret a : Prog κ ρ α) := keeps_ret trivial

theorem only_call {c : κ} {k : ρ → Prog κ ρ α} (hc : P c = true) (h : ∀ r, Only P F (k r)) :
    Only P F (.call c k) :=
  keeps_call fun r _ => ⟨(), if_pos hc, h r⟩

theorem only_bind {p : Prog κ ρ α} {f : α → Prog κ ρ β} (hp : Only P F p)
    (hf : ∀ a, Only P F (f a)) : Only P F (p.bind f) :=
  keeps_bind (hp.mono fun a _ _ => hf a)

theorem only_loop {c : κ} {body : ρ → Prog κ ρ (Option β)} {k : β → Prog κ ρ α} (hc : P c = true)
    (hbody : ∀ r, Only P F (body r)) (hk : ∀ b, Only P F (k b)) : Only P F (.loop c body k) :=
  keeps_loop (fun _ => True) trivial fun _ _ r _ => ⟨(), if_pos hc, (hbody r).mono fun o _ _ => by
    cases o with
    | none => trivial
    | some b => exact hk b⟩

theorem only_ofOption {o : Option α} (h : o = none → F) : Only P F (ofOption o : Prog κ ρ α) :=
  keeps_ofOption (fun _ _ => trivial) h

/-- One step of a program that makes calls of one kind. -/
theorem Only.resume {p : Prog κ ρ α} (h : Only P F p) {c : κ} (hc : p.pending = some c) (r : ρ) :
    P c = true ∧ Only P F (p.resume r) := by
  obtain ⟨u, hu, hk⟩ := Keeps.resume h hc (r := r) trivial
  refine ⟨?_, hk⟩
  by_contra hno
  rw [show (onlySpec ρ P F).step () c r = none from if_neg hno] at hu
  exact nomatch hu

/-- The calls of a run are of that kind. -/
theorem Only.of_mem_trace {p : Prog κ ρ α} (h : Only P F p) {rs : List ρ} {e : κ × ρ}
    (he : e ∈ p.trace rs) : P e.1 = true := by
  induction rs generalizing p with
  | nil => exact absurd he List.not_mem_nil
  | cons r rs ih =>
    cases hp : p.pending with
    | none =>
      rw [trace_of_pending_none hp] at he
      exact absurd he List.not_mem_nil
    | some c =>
      obtain ⟨hc, hnext⟩ := h.resume hp r
      rw [trace_cons hp] at he
      rcases List.mem_cons.mp he with rfl | he
      · exact hc
      · exact ih hnext he

/-- A program stays in a set of states that none of its calls leaves. -/
theorem Only.keeps_inv {S : Spec κ ρ M} {m : M} {p : Prog κ ρ α} (h : Only P F p) (I : M → Prop)
    (hm : I m)
    (hstep : ∀ m c r, I m → P c = true → S.admits m c r → ∃ m', S.step m c r = some m' ∧ I m')
    (hF : F → ∀ m, I m → S.faults m) : Keeps S m p fun _ m' => I m' := by
  intro n
  induction n generalizing m p with
  | zero => trivial
  | succ n ih =>
    refine ⟨fun _ _ => hm, fun hp => hF ?_ m hm, fun c hc r hr => ?_⟩
    · subst hp
      exact Keeps.faults h
    · obtain ⟨hPc, hk⟩ := Only.resume h hc r
      obtain ⟨m', hm', hI⟩ := hstep m c r hm hPc hr
      exact ⟨m', hm', ih hk hI⟩

/-- A program whose calls a monitor ignores leaves the monitor where it is. -/
theorem Only.keeps {S : Spec κ ρ M} {m : M} {p : Prog κ ρ α} (h : Only P F p)
    (hstep : ∀ c r, P c = true → S.step m c r = some m) (hF : F → S.faults m) :
    Keeps S m p fun _ m' => m' = m :=
  h.keeps_inv (· = m) rfl (fun _ c r hm hc _ => ⟨m, hm ▸ hstep c r hc, rfl⟩)
    fun hf _ hm => hm ▸ hF hf

/-- More calls may be allowed. -/
theorem Only.weaken {P' : κ → Bool} {F' : Prop} {p : Prog κ ρ α} (h : Only P F p)
    (hP : ∀ c, P c = true → P' c = true) (hF : F → F') : Only P' F' p :=
  (h.keeps (fun c _ hc => if_pos (hP c hc)) hF).mono fun _ _ _ => trivial

end Only

/-! ## 4. Monitors that remember -/

/-- The monitor that remembers the calls made, the last one first. -/
def historySpec (admits : List (κ × ρ) → κ → ρ → Prop) (allowed : List (κ × ρ) → κ → Bool) :
    Spec κ ρ (List (κ × ρ)) where
  admits := admits
  step past c r := if allowed past c then some ((c, r) :: past) else none
  faults _ := True

section History

variable {admits : List (κ × ρ) → κ → ρ → Prop} {allowed : List (κ × ρ) → κ → Bool}

/-- A call that is allowed after what has been called so far. -/
theorem keeps_allowed {past : List (κ × ρ)} {c : κ} {k : ρ → Prog κ ρ α}
    {Q : α → List (κ × ρ) → Prop} (hc : allowed past c = true)
    (h : ∀ r, admits past c r → Keeps (historySpec admits allowed) ((c, r) :: past) (k r) Q) :
    Keeps (historySpec admits allowed) past (.call c k) Q :=
  keeps_call fun r hr => ⟨_, if_pos hc, h r hr⟩

theorem exec_history {past past' : List (κ × ρ)} {tr : List (κ × ρ)}
    (h : (historySpec admits allowed).exec past tr = some past') : past' = tr.reverse ++ past := by
  induction tr generalizing past with
  | nil => exact (Option.some.inj h).symm
  | cons e tr ih =>
    obtain ⟨c, r⟩ := e
    rw [Spec.exec_cons] at h
    cases hs : (historySpec admits allowed).step past c r with
    | none =>
      rw [hs] at h
      exact nomatch h
    | some past'' =>
      rw [hs] at h
      have hpast : past'' = (c, r) :: past := by
        simp only [historySpec] at hs
        split at hs
        · exact (Option.some.inj hs).symm
        · exact nomatch hs
      rw [ih h, hpast, List.reverse_cons, List.append_assoc, List.singleton_append]

/-- What a program that has returned has done. -/
theorem Keeps.returned {p : Prog κ ρ α} {Q : α → List (κ × ρ) → Prop}
    (h : Keeps (historySpec admits allowed) [] p Q) {rs : List ρ}
    (hrs : (historySpec admits allowed).Admits [] (p.trace rs)) {a : α} (ha : p.after rs = .ret a) :
    Q a (p.trace rs).reverse := by
  obtain ⟨past, hexec, hk⟩ := h.exec rs hrs
  obtain rfl := exec_history hexec
  rw [ha, List.append_nil] at hk
  exact hk.result

/-- The call a run ends with is allowed after the calls before it. -/
theorem Keeps.pending_allowed {p : Prog κ ρ α} {Q : α → List (κ × ρ) → Prop}
    (h : Keeps (historySpec admits allowed) [] p Q) (hlive : ∀ past c, ∃ r, admits past c r)
    {rs : List ρ} (hrs : (historySpec admits allowed).Admits [] (p.trace rs)) {c : κ}
    (hc : (p.after rs).pending = some c) : allowed (p.trace rs).reverse c = true := by
  obtain ⟨past, hexec, hk⟩ := h.exec rs hrs
  obtain rfl := exec_history hexec
  rw [List.append_nil] at hk
  obtain ⟨r, hr⟩ := hlive (p.trace rs).reverse c
  obtain ⟨m', hm', -⟩ := hk.resume hc hr
  by_contra hno
  rw [show (historySpec admits allowed).step _ c r = none from if_neg hno] at hm'
  exact nomatch hm'

/-- Every call of a run, and the one it ends with, is allowed after the calls before it. -/
theorem Keeps.issued_allowed {p : Prog κ ρ α} {Q : α → List (κ × ρ) → Prop}
    (h : Keeps (historySpec admits allowed) [] p Q) (hlive : ∀ past c, ∃ r, admits past c r)
    {rs : List ρ} (hrs : (historySpec admits allowed).Admits [] (p.trace rs)) {i : Nat} {c : κ}
    (hc : (p.issued rs)[i]? = some c) : allowed ((p.trace rs).take i).reverse c = true := by
  have hi : i ≤ rs.length := by
    have hlen := (List.getElem?_eq_some_iff.mp hc).1
    have hle := p.issued_length_le rs
    omega
  rw [issued_getElem? p hi] at hc
  rw [trace_take]
  refine h.pending_allowed hlive ?_ hc
  rw [← trace_take]
  exact hrs.take i

end History

/-- The monitor that keeps the events of a run, in order. Nothing undefined is tolerated. -/
def eventLog {ε : Type} (event : κ × ρ → Option ε) : Spec κ ρ (List ε) where
  admits _ _ _ := True
  step past c r := some (past ++ (event (c, r)).toList)
  faults _ := False

section Log

variable {ε : Type} {event : κ × ρ → Option ε} {past : List ε}

theorem keeps_logged {c : κ} {k : ρ → Prog κ ρ α} {Q : α → List ε → Prop}
    (h : ∀ r, Keeps (eventLog event) (past ++ (event (c, r)).toList) (k r) Q) :
    Keeps (eventLog event) past (.call c k) Q :=
  keeps_call fun r _ => ⟨_, rfl, h r⟩

/-- A program that makes no call of interest. -/
theorem Only.logged {P : κ → Bool} {p : Prog κ ρ α} (h : Only P False p)
    (hsilent : ∀ c r, P c = true → event (c, r) = none) :
    Keeps (eventLog event) past p fun _ past' => past' = past :=
  h.keeps (fun c r hc => by simp [eventLog, hsilent c r hc]) False.elim

theorem exec_log (past : List ε) (tr : List (κ × ρ)) :
    (eventLog event).exec past tr = some (past ++ tr.filterMap event) := by
  induction tr generalizing past with
  | nil => rw [List.filterMap_nil, List.append_nil, Spec.exec_nil]
  | cons e tr ih =>
    refine (ih (past ++ (event e).toList)).trans ?_
    cases he : event e with
    | none => rw [List.filterMap_cons_none he, Option.toList_none, List.append_nil]
    | some v =>
      rw [List.filterMap_cons_some he, Option.toList_some, List.append_assoc,
        List.singleton_append]

/-- What a program that has returned has done. -/
theorem Keeps.logged {p : Prog κ ρ α} {Q : α → List ε → Prop} (h : Keeps (eventLog event) [] p Q)
    (rs : List ρ) {a : α} (ha : p.after rs = .ret a) : Q a ((p.trace rs).filterMap event) := by
  obtain ⟨past, hexec, hk⟩ := h.exec rs (admits_of_true (fun _ _ _ => trivial) _ _)
  rw [exec_log, List.nil_append] at hexec
  obtain rfl := Option.some.inj hexec
  rw [ha] at hk
  exact hk.result

end Log

/-! ## 5. Machines -/

/-- A deterministic machine: the call it makes next, and where an answer takes it. -/
structure Machine (κ ρ M : Type) where
  expects : M → Option κ
  next : M → ρ → M

namespace Machine

variable (A : Machine κ ρ M)

/-- The calls of a machine on a list of answers. -/
def trace : M → List ρ → List (κ × ρ)
  | _, [] => []
  | m, r :: rs =>
    match A.expects m with
    | none => []
    | some c => (c, r) :: trace (A.next m r) rs

/-- The state of a machine after a list of answers. -/
def after : M → List ρ → M
  | m, [] => m
  | m, r :: rs =>
    match A.expects m with
    | none => m
    | some _ => after (A.next m r) rs

theorem trace_cons {m : M} {c : κ} (h : A.expects m = some c) (r : ρ) (rs : List ρ) :
    A.trace m (r :: rs) = (c, r) :: A.trace (A.next m r) rs := by
  simp only [trace, h]

theorem after_cons {m : M} {c : κ} (h : A.expects m = some c) (r : ρ) (rs : List ρ) :
    A.after m (r :: rs) = A.after (A.next m r) rs := by
  simp only [after, h]

theorem trace_of_expects_none {m : M} (h : A.expects m = none) (rs : List ρ) :
    A.trace m rs = [] := by
  cases rs <;> simp [trace, h]

theorem after_of_expects_none {m : M} (h : A.expects m = none) (rs : List ρ) :
    A.after m rs = m := by
  cases rs <;> simp [after, h]

theorem after_append (m : M) (rs rs' : List ρ) :
    A.after m (rs ++ rs') = A.after (A.after m rs) rs' := by
  induction rs generalizing m with
  | nil => rfl
  | cons r rs ih =>
    cases hm : A.expects m with
    | none => simp only [List.cons_append, A.after_of_expects_none hm]
    | some c => rw [List.cons_append, A.after_cons hm, A.after_cons hm, ih]

theorem trace_append (m : M) (rs rs' : List ρ) :
    A.trace m (rs ++ rs') = A.trace m rs ++ A.trace (A.after m rs) rs' := by
  induction rs generalizing m with
  | nil => rfl
  | cons r rs ih =>
    cases hm : A.expects m with
    | none =>
      simp only [List.cons_append, A.trace_of_expects_none hm, A.after_of_expects_none hm,
        List.nil_append]
    | some c =>
      rw [List.cons_append, A.trace_cons hm, A.trace_cons hm, A.after_cons hm, ih]
      rfl

/-- The rule for the runs of a machine: what holds at the start and is kept by
every answered call holds after every run. `P` sees the calls so far. The step
is only taken inside the run at hand, so that it may use what is known of it. -/
theorem run_induction {m : M} {P : List (κ × ρ) → M → Prop} (rs : List ρ) (h : P [] m)
    (hstep : ∀ rs' r c, rs' ++ [r] <+: rs → A.expects (A.after m rs') = some c →
      P (A.trace m rs') (A.after m rs') →
      P (A.trace m rs' ++ [(c, r)]) (A.next (A.after m rs') r)) :
    P (A.trace m rs) (A.after m rs) := by
  induction rs using List.reverseRecOn with
  | nil => exact h
  | append_singleton rs r ih =>
    have hP := ih fun rs' r' c hpre => hstep rs' r' c (hpre.trans (List.prefix_append _ _))
    rw [A.trace_append, A.after_append]
    cases hc : A.expects (A.after m rs) with
    | none =>
      rw [A.trace_of_expects_none hc, A.after_of_expects_none hc, List.append_nil]
      exact hP
    | some c =>
      rw [A.trace_cons hc, A.after_cons hc]
      exact hstep rs r c (List.prefix_refl _) hc hP

/-- The monitor that allows exactly the calls of a machine. -/
def spec [DecidableEq κ] (F : M → Prop) : Spec κ ρ M where
  admits _ _ _ := True
  step m c r := if A.expects m = some c then some (A.next m r) else none
  faults := F

end Machine

section MachineRuns

variable [DecidableEq κ] {A : Machine κ ρ M} {F : M → Prop} {m : M}

/-- A call the machine makes next. -/
theorem keeps_expected {c : κ} {k : ρ → Prog κ ρ α} {Q : α → M → Prop}
    (hc : A.expects m = some c) (h : ∀ r, Keeps (A.spec F) (A.next m r) (k r) Q) :
    Keeps (A.spec F) m (.call c k) Q :=
  keeps_call fun r _ => ⟨A.next m r, if_pos hc, h r⟩

/-- A loop whose rounds all start in the machine state `m`. -/
theorem keeps_loop_head {c : κ} {body : ρ → Prog κ ρ (Option β)} {k : β → Prog κ ρ α}
    {Q : α → M → Prop} (hc : A.expects m = some c)
    (hbody : ∀ r, Keeps (A.spec F) (A.next m r) (body r) (RoundPost (A.spec F) (· = m) k Q)) :
    Keeps (A.spec F) m (.loop c body k) Q := by
  refine keeps_loop (· = m) rfl ?_
  rintro _ rfl r -
  exact ⟨_, if_pos hc, hbody r⟩

variable {p : Prog κ ρ α} {Q : α → M → Prop}

/-- A program that keeps the monitor of a machine waits for the same call, once
the machine stops where the program may return or fault. -/
theorem Keeps.pending_eq [Inhabited ρ] (h : Keeps (A.spec F) m p Q)
    (hQ : ∀ a m, Q a m → A.expects m = none) (hF : ∀ m, F m → A.expects m = none) :
    p.pending = A.expects m := by
  cases hp : p.pending with
  | none =>
    rcases pending_eq_none hp with ⟨a, rfl⟩ | rfl
    · exact (hQ a m h.result).symm
    · exact (hF m h.faults).symm
  | some c =>
    obtain ⟨m', hm', -⟩ := h.resume hp (r := default) trivial
    by_contra hne
    rw [show (A.spec F).step m c default = none from if_neg fun e => hne e.symm] at hm'
    exact nomatch hm'

/-- A program that keeps the monitor of a machine makes its calls, call by call. -/
theorem Keeps.trace_eq [Inhabited ρ] (h : Keeps (A.spec F) m p Q)
    (hQ : ∀ a m, Q a m → A.expects m = none) (hF : ∀ m, F m → A.expects m = none) (rs : List ρ) :
    p.trace rs = A.trace m rs ∧ Keeps (A.spec F) (A.after m rs) (p.after rs) Q := by
  induction rs generalizing m p with
  | nil => exact ⟨rfl, h⟩
  | cons r rs ih =>
    have hpend := h.pending_eq hQ hF
    cases hp : p.pending with
    | none =>
      rw [hp] at hpend
      rw [trace_of_pending_none hp, after_of_pending_none hp, A.trace_of_expects_none hpend.symm,
        A.after_of_expects_none hpend.symm]
      exact ⟨rfl, h⟩
    | some c =>
      rw [hp] at hpend
      obtain ⟨m', hm', hk⟩ := h.resume hp (r := r) trivial
      rw [show (A.spec F).step m c r = some (A.next m r) from if_pos hpend.symm] at hm'
      obtain rfl := Option.some.inj hm'
      rw [trace_cons hp, after_cons hp, A.trace_cons hpend.symm, A.after_cons hpend.symm, (ih hk).1]
      exact ⟨rfl, (ih hk).2⟩

end MachineRuns

/-! ## 6. Answers after which there is only one way on -/

/-- A run that has made a call can be cut behind it. -/
theorem Prog.exists_cut {p : Prog κ ρ α} {rs : List ρ} {e : κ × ρ} (h : e ∈ p.trace rs) :
    ∃ rs', rs' <+: rs ∧ ∃ tr, p.trace rs' = tr ++ [e] := by
  obtain ⟨before, rest, hsplit⟩ := List.append_of_mem h
  refine ⟨rs.take (before.length + 1), List.take_prefix _ _, before, ?_⟩
  rw [← trace_take, hsplit, List.take_length_add_append, List.take_succ_cons, List.take_zero]

/-- After an answer that demands a call this call is made, and a call that is
`marked` is made only on demand. -/
def demandSpec [DecidableEq κ] (demands : κ × ρ → Option κ) (marked : κ → Bool) (F : Prop) :
    Spec κ ρ (Option κ) where
  admits _ _ _ := True
  step due c r :=
    if due = some c ∨ due = none ∧ marked c = false then some (demands (c, r)) else none
  faults due := F ∧ due = none

/-- After a `fatal` answer the program is undefined, and in no other way. -/
def fatalSpec (fatal : κ × ρ → Bool) : Spec κ ρ Bool where
  admits _ _ _ := True
  step undone c r := if undone then none else some (fatal (c, r))
  faults undone := undone = true

section Answers

variable {p : Prog κ ρ α} {demands : κ × ρ → Option κ} {marked : κ → Bool} {F : Prop}
  {fatal : κ × ρ → Bool}

theorem exec_demand [DecidableEq κ] {tr : List (κ × ρ)} {e : κ × ρ} {due due' : Option κ}
    (h : (demandSpec demands marked F).exec due (tr ++ [e]) = some due') : due' = demands e := by
  obtain ⟨due₁, due₂, -, hstep, hend⟩ := Spec.exec_append_cons.mp h
  simp only [demandSpec] at hstep
  split at hstep
  · exact (Option.some.inj hend).symm.trans (Option.some.inj hstep).symm
  · cases hstep

/-- A marked call is waited on exactly after an answer that demands it. -/
theorem Keeps.pending_iff_demanded [DecidableEq κ] [Inhabited ρ]
    (h : Keeps (demandSpec demands marked F) none p fun _ due => due = none) (rs : List ρ) {c : κ}
    (hc : marked c = true) : (p.after rs).pending = some c ↔
      ∃ tr e, p.trace rs = tr ++ [e] ∧ demands e = some c := by
  obtain ⟨due, hexec, hk⟩ := h.exec rs (admits_of_true (fun _ _ _ => trivial) _ _)
  constructor
  · intro hpend
    obtain ⟨due', hstep, -⟩ := hk.resume hpend (r := default) trivial
    have hdue : due = some c := by
      simp only [demandSpec, hc] at hstep
      split at hstep
      · rename_i hor
        exact hor.resolve_right fun hno => Bool.noConfusion hno.2
      · cases hstep
    rcases List.eq_nil_or_concat (p.trace rs) with hnil | ⟨tr, e, htr⟩
    · rw [hnil] at hexec
      cases (Option.some.inj hexec).trans hdue
    · rw [List.concat_eq_append] at htr
      rw [htr] at hexec
      exact ⟨tr, e, htr, (exec_demand hexec).symm.trans hdue⟩
  · rintro ⟨tr, e, htr, hdemands⟩
    rw [htr] at hexec
    obtain rfl := (exec_demand hexec).trans hdemands
    cases hpend : (p.after rs).pending with
    | none =>
      rcases pending_eq_none hpend with ⟨a, ha⟩ | hfault
      · rw [ha] at hk
        cases hk.result
      · rw [hfault] at hk
        cases hk.faults.2
    | some c' =>
      obtain ⟨due', hstep, -⟩ := hk.resume hpend (r := default) trivial
      simp only [demandSpec] at hstep
      split at hstep
      · rename_i hor
        rcases hor with hsame | hno
        · exact congrArg some (Option.some.inj hsame).symm
        · cases hno.1
      · cases hstep

theorem exec_fatal {tr : List (κ × ρ)} {undone undone' : Bool}
    (h : (fatalSpec fatal).exec undone tr = some undone') : undone' = (undone || tr.any fatal) := by
  induction tr generalizing undone with
  | nil =>
    obtain rfl := Option.some.inj h
    exact (Bool.or_false _).symm
  | cons e tr ih =>
    rw [Spec.exec_cons] at h
    obtain ⟨undone₁, hstep, hexec⟩ := Option.bind_eq_some_iff.mp h
    cases undone with
    | true => cases hstep
    | false =>
      obtain rfl := Option.some.inj hstep
      rw [ih hexec, List.any_cons, Bool.false_or]

/-- A run is undefined exactly when it has had a fatal answer. -/
theorem Keeps.fault_iff_fatal [Inhabited ρ]
    (h : Keeps (fatalSpec fatal) false p fun _ undone => undone = false) (rs : List ρ) :
    p.after rs = .fault ↔ ∃ e ∈ p.trace rs, fatal e = true := by
  obtain ⟨undone, hexec, hk⟩ := h.exec rs (admits_of_true (fun _ _ _ => trivial) _ _)
  rw [← List.any_eq_true, ← Bool.false_or ((p.trace rs).any fatal), ← exec_fatal hexec]
  constructor
  · intro hfault
    rw [hfault] at hk
    exact hk.faults
  · rintro rfl
    cases hpend : (p.after rs).pending with
    | none =>
      rcases pending_eq_none hpend with ⟨a, ha⟩ | hfault
      · rw [ha] at hk
        cases hk.result
      · exact hfault
    | some c =>
      obtain ⟨undone', hstep, -⟩ := hk.resume hpend (r := default) trivial
      cases hstep

end Answers

end Resumable
