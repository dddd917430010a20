import P2pDriver.Library.Linking
import P2pDriver.Library.Threads

/-!
# Threads that are linked with a library

The threads of a system, each of them linked with the same library, run over the
calls of a lower level. While one of them is inside a function of the library, the
others go on. A relation between the two levels says at which of its calls a
function takes effect: here it is the last one, at which it returns.

Results:
1. `LinkedThread.call`: one call of a linked thread.
2. `Links.step`, `Links.run`: every run of a linked system is one of the system it is
   linked from, if the relation is kept by the calls inside a function, and every last
   call is an answer the upper level may give.
-/

namespace Resumable

open Prog

variable {κ ρ κ' ρ' σ σ' τ π ε ε' : Type}

/-! ## 1. One thread -/

/-- A thread of a linked system, and of the system it is linked from. `tr` is what it
has called inside the function it is in. It is in no handler. -/
inductive LinkedThread (L : Linkage κ ρ κ' ρ') :
    Option (Stack κ ρ π) → List (κ' × ρ') → Option (Stack κ' ρ' π) → Prop where
  | absent : LinkedThread L none [] none
  | running {p : Prog κ ρ Unit} {tr : List (κ' × ρ')} {q : Prog κ' ρ' Unit} (hret : ∀ a, p ≠ .ret a)
      (h : L.Within p tr q) : LinkedThread L (some ⟨p, []⟩) tr (some ⟨q, []⟩)

/-- A thread that waits for the answer to `c`, and is in no handler. -/
def Waits (C : Config κ ρ σ τ π) (t : τ) (c : κ) : Prop :=
  ∃ p, C.threads t = some ⟨p, []⟩ ∧ p.pending = some c

namespace LinkedThread

variable {L : Linkage κ ρ κ' ρ'} {x : Option (Stack κ ρ π)} {tr : List (κ' × ρ')}
  {y : Option (Stack κ' ρ' π)}

theorem start (p : Prog κ ρ Unit) :
    LinkedThread (π := π) L (Stack.start p) [] (Stack.start (p.link L)) := by
  cases p with
  | ret a => exact .absent
  | call c k => exact .running nofun .between
  | loop c body k => exact .running nofun .between
  | fault => exact .running nofun .between

theorem start_of_ne_ret {q : Prog κ' ρ' Unit} (h : ∀ a, q ≠ .ret a) :
    (Stack.start q : Option (Stack κ' ρ' π)) = some ⟨q, []⟩ := by
  cases q with
  | ret a => exact absurd rfl (h a)
  | _ => rfl

theorem none_iff (h : LinkedThread L x tr y) : x = none ↔ y = none := by
  cases h <;> simp

/-- A call of a linked thread: it is made inside the function for the call the upper
thread waits on, which it ends or goes on with. -/
theorem call {s : Stack κ' ρ' π} (h : LinkedThread L x tr (some s)) {c' : κ'}
    (hpend : s.running.pending = some c') (r' : ρ') :
    ∃ p c rs, x = some ⟨p, []⟩ ∧ p.pending = some c ∧ (L.text c).trace rs = tr ++ [(c', r')] ∧
      ((∃ r, (L.text c).after rs = .ret r ∧
          LinkedThread L (Stack.resume ⟨p, []⟩ r : Option (Stack κ ρ π)) [] (s.resume r')) ∨
        ((∀ r, (L.text c).after rs ≠ .ret r) ∧
          LinkedThread L x (tr ++ [(c', r')]) (s.resume r'))) := by
  cases h with
  | @running p tr q hret hwithin =>
    obtain ⟨c, rs, hp, htr, ⟨r, hr, hres⟩ | ⟨hne, hnext⟩⟩ := hwithin.call hpend r'
    · refine ⟨p, c, rs, rfl, hp, htr, .inl ⟨r, hr, ?_⟩⟩
      have hstart := start (π := π) (L := L) (p.resume r)
      rw [← hres] at hstart
      exact hstart
    · refine ⟨p, c, rs, rfl, hp, htr, .inr ⟨hne, ?_⟩⟩
      have hstart : (Stack.resume ⟨q, []⟩ r' : Option (Stack κ' ρ' π)) = some ⟨q.resume r', []⟩ :=
        start_of_ne_ret (hnext.returned hret)
      rw [hstart]
      exact .running hret hnext

end LinkedThread

/-! ## 2. Linked systems -/

/-- What the threads have called inside their functions, after `t` has returned from the
function for `c`. -/
def System.tracesAfter [DecidableEq τ] (T : System κ ρ σ τ π ε) (tr : τ → List (κ' × ρ'))
    (t : τ) (c : κ) : τ → List (κ' × ρ') :=
  match T.spawns c with
  | none => Function.update tr t []
  | some u => Function.update (Function.update tr u []) t []

/-- The last call of a function, which returns `r`: `T` may answer so, starts and joins
the same threads, and may then see more of what has happened outside, so that `R` holds. -/
def System.Concludes [DecidableEq κ] [DecidableEq τ] [DecidableEq π] (S : System κ' ρ' σ' τ π ε')
    (T : System κ ρ σ τ π ε)
    (R : List (Label κ' ρ' τ π ε') → List (Label κ ρ τ π ε) → Config κ ρ σ τ π →
      (τ → List (κ' × ρ')) → σ' → Prop)
    (ls : List (Label κ' ρ' τ π ε')) (us : List (Label κ ρ τ π ε)) (C : Config κ ρ σ τ π)
    (tr : τ → List (κ' × ρ')) (w : σ') (t : τ) (c : κ) (r : ρ) (c' : κ') (r' : ρ') : Prop :=
  T.answers C.store c r = true ∧ S.spawns c' = T.spawns c ∧ S.joins c' = T.joins c ∧
    ∀ C₁, T.step C (.call t c r) = some C₁ → ∃ (es : List ε) (C₂ : Config κ ρ σ τ π),
      T.run C₁ (es.map .outside) = some C₂ ∧
      R (ls ++ [.call t c' r']) (us ++ .call t c r :: es.map .outside) C₂ (T.tracesAfter tr t c)
        (S.effect w c' r')

/-- `S` runs the threads of `T` linked with `L`. `R` relates the runs so far, the state
of `T`, what each thread has called inside the function it is in, and the store of `S`. -/
structure System.Links [DecidableEq κ] [DecidableEq τ] [DecidableEq π] (S : System κ' ρ' σ' τ π ε')
    (T : System κ ρ σ τ π ε) (L : Linkage κ ρ κ' ρ')
    (R : List (Label κ' ρ' τ π ε') → List (Label κ ρ τ π ε) → Config κ ρ σ τ π →
      (τ → List (κ' × ρ')) → σ' → Prop) : Prop where
  text : ∀ t, S.text t = (T.text t).link L
  calm : ∀ w x, S.delivers w x = false
  inside : ∀ {ls us C tr w t c rs c' r'}, R ls us C tr w → Waits C t c →
    (L.text c).trace rs = tr t ++ [(c', r')] → (∀ r, (L.text c).after rs ≠ .ret r) →
    S.answers w c' r' = true → S.spawns c' = none ∧
      R (ls ++ [.call t c' r']) us C (Function.update tr t (tr t ++ [(c', r')])) (S.effect w c' r')
  final : ∀ {ls us C tr w t c rs c' r' r}, R ls us C tr w → Waits C t c →
    (L.text c).trace rs = tr t ++ [(c', r')] → (L.text c).after rs = .ret r →
    S.answers w c' r' = true → S.Concludes T R ls us C tr w t c r c' r'
  outside : ∀ {ls us C tr w e w'}, R ls us C tr w → S.outside w e = some w' →
    ∃ (es : List ε) (C₂ : _),
    T.run C (es.map .outside) = some C₂ ∧ R (ls ++ [.outside e]) (us ++ es.map .outside) C₂ tr w'

namespace System

variable [DecidableEq κ] [DecidableEq κ'] [DecidableEq τ] [DecidableEq π]
  {S : System κ' ρ' σ' τ π ε'} {T : System κ ρ σ τ π ε} {L : Linkage κ ρ κ' ρ'}
  {R : List (Label κ' ρ' τ π ε') → List (Label κ ρ τ π ε) → Config κ ρ σ τ π →
    (τ → List (κ' × ρ')) → σ' → Prop}
  {ls : List (Label κ' ρ' τ π ε')} {us : List (Label κ ρ τ π ε)}
  {C C' : Config κ ρ σ τ π} {D D' : Config κ' ρ' σ' τ π} {tr : τ → List (κ' × ρ')}

/-- What happens outside leaves the threads alone. -/
theorem threads_of_outside {es : List ε} (hrun : T.run C (es.map .outside) = some C') :
    C'.threads = C.threads := by
  induction es generalizing C with
  | nil =>
    obtain rfl := Option.some.inj hrun
    rfl
  | cons e es ih =>
    obtain ⟨C₁, hC₁, hrest⟩ := run_cons_eq_some.mp hrun
    obtain ⟨store, -, rfl⟩ := step_outside hC₁
    exact ih (C := ⟨store, C.threads⟩) hrest

omit [DecidableEq κ] [DecidableEq κ'] [DecidableEq π] in
/-- The threads of the two systems after a call of `t` that is the last of its function. -/
theorem linked_threadsAfter (htext : ∀ t, S.text t = (T.text t).link L)
    (hthreads : ∀ u, LinkedThread L (C.threads u) (tr u) (D.threads u)) {t : τ} {x : Stack κ ρ π}
    {s : Stack κ' ρ' π} {c : κ} {r : ρ} {c' : κ'} {r' : ρ'} (hspawns : S.spawns c' = T.spawns c)
    (hself : LinkedThread L (x.resume r) [] (s.resume r')) (u : τ) :
    LinkedThread L (T.threadsAfter C.threads t x c r u) (T.tracesAfter tr t c u)
      (S.threadsAfter D.threads t s c' r' u) := by
  unfold threadsAfter tracesAfter
  rw [hspawns]
  cases T.spawns c with
  | none =>
    by_cases hu : u = t
    · subst hu
      simpa using hself
    · simpa [hu] using hthreads u
  | some v =>
    by_cases hu : u = t
    · subst hu
      simpa using hself
    · by_cases hv : u = v
      · subst hv
        simpa [hu, htext] using LinkedThread.start (T.text u)
      · simpa [hu, hv] using hthreads u

/-- A step of a linked system: the system it is linked from makes a call, or none, and
may see what happens outside. -/
theorem Links.step (h : S.Links T L R)
    (hthreads : ∀ u, LinkedThread L (C.threads u) (tr u) (D.threads u))
    (hR : R ls us C tr D.store) {l : Label κ' ρ' τ π ε'} (hstep : S.step D l = some D') :
    ∃ us' C' tr', T.run C us' = some C' ∧
      (∀ u, LinkedThread L (C'.threads u) (tr' u) (D'.threads u)) ∧
      R (ls ++ [l]) (us ++ us') C' tr' D'.store := by
  cases l with
  | interrupt t x =>
    obtain ⟨_, -, hdelivers, -, -⟩ := step_interrupt hstep
    exact Bool.noConfusion ((h.calm D.store x).symm.trans hdelivers)
  | outside e =>
    obtain ⟨w', hw', rfl⟩ := step_outside hstep
    obtain ⟨es, C₂, hrun, hR'⟩ := h.outside hR hw'
    refine ⟨es.map .outside, C₂, tr, hrun, fun u => ?_, hR'⟩
    rw [threads_of_outside hrun]
    exact hthreads u
  | call t c' r' =>
    obtain ⟨s, hs, hpend, hans, hjoin, rfl⟩ := step_call hstep
    have hthread := hthreads t
    rw [hs] at hthread
    obtain ⟨p, c, rs, hp, hpc, htr, ⟨r, hr, hself⟩ | ⟨hne, hself⟩⟩ := hthread.call hpend r'
    · -- the function returns
      obtain ⟨hans', hspawns, hjoins, hnext⟩ := h.final hR ⟨p, hp, hpc⟩ htr hr hans
      have hjoin' : ∀ u, T.joins c = some u → C.threads u = none := fun u hu =>
        (hthreads u).none_iff.mpr (hjoin u (hjoins.trans hu))
      have hcall := step_of_call (S := T) hp hpc hans' hjoin'
      obtain ⟨es, C₂, hrun, hR'⟩ := hnext _ hcall
      refine ⟨.call t c r :: es.map .outside, C₂, _, run_cons_eq_some.mpr ⟨_, hcall, hrun⟩,
        fun u => ?_, hR'⟩
      rw [threads_of_outside hrun]
      exact linked_threadsAfter h.text hthreads hspawns hself u
    · -- it goes on
      obtain ⟨hspawns, hR'⟩ := h.inside hR ⟨p, hp, hpc⟩ htr hne hans
      refine ⟨[], C, _, rfl, fun u => ?_, (List.append_nil us).symm ▸ hR'⟩
      unfold threadsAfter
      rw [hspawns]
      by_cases hu : u = t
      · subst hu
        simpa using hself
      · simpa [hu] using hthreads u

/-- Every run of a linked system is a run of the system it is linked from. -/
theorem Links.run (h : S.Links T L R)
    (hthreads : ∀ u, LinkedThread L (C.threads u) (tr u) (D.threads u))
    (hR : R [] [] C tr D.store) (hrun : S.run D ls = some D') :
    ∃ us C' tr', T.run C us = some C' ∧
      (∀ u, LinkedThread L (C'.threads u) (tr' u) (D'.threads u)) ∧
      R ls us C' tr' D'.store := by
  refine run_induction hrun (P := fun ls D' => ∃ us C' tr', T.run C us = some C' ∧
    (∀ u, LinkedThread L (C'.threads u) (tr' u) (D'.threads u)) ∧ R ls us C' tr' D'.store)
    ⟨[], C, tr, rfl, hthreads, hR⟩ ?_
  rintro ls l D₁ D₂ ⟨us, C₁, tr₁, hrun₁, hthreads₁, hR₁⟩ hstep
  obtain ⟨us', C₂, tr₂, hrun₂, hthreads₂, hR₂⟩ := h.step hthreads₁ hR₁ hstep
  exact ⟨us ++ us', C₂, tr₂, run_append_eq_some.mpr ⟨C₁, hrun₁, hrun₂⟩, hthreads₂, hR₂⟩

end System

end Resumable
