import P2pDriver.Library.Threads

/-!
# Quotas

How much a thread still does. Some of its calls, with their answers, renew its quota,
such as a flag that is read true; without them it makes no more calls than the quota.

Results:
1. `takes_call`, `takes_bind`: the rules for the programs that renew nothing.
2. `quota_run`: what a thread calls in a run in which its quota is not renewed.
-/

namespace Resumable

open Prog

variable {κ ρ σ τ π ε α β : Type}

/-! ## 1. The monitor -/

/-- The monitor that counts the calls since the last one that renews the quota. -/
def quotaSpec (renews : κ × ρ → Bool) (quota : Nat) : Spec κ ρ Nat where
  admits _ _ _ := True
  step n c r := if renews (c, r) then some 0 else if n < quota then some (n + 1) else none
  faults _ := True

variable {renews : κ × ρ → Bool} {quota : Nat}

theorem quota_step_of_renews {n : Nat} {c : κ} {r : ρ} (h : renews (c, r) = true) :
    (quotaSpec renews quota).step n c r = some 0 := if_pos h

theorem quota_step_of_lt {n : Nat} {c : κ} {r : ρ} (h : renews (c, r) = false) (hn : n < quota) :
    (quotaSpec renews quota).step n c r = some (n + 1) := by
  simp [quotaSpec, h, hn]

/-- What a call takes of the quota that it does not renew. -/
theorem lt_of_quota_step {n n' : Nat} {c : κ} {r : ρ} (h : renews (c, r) = false)
    (hstep : (quotaSpec renews quota).step n c r = some n') : n < quota ∧ n' = n + 1 := by
  simp only [quotaSpec, h, Bool.false_eq_true, if_false] at hstep
  split at hstep
  · rename_i hn
    exact ⟨hn, (Option.some.inj hstep).symm⟩
  · cases hstep

/-! ## 2. Programs that renew nothing -/

/-- The program takes at most `k` calls of the quota. -/
def Takes (renews : κ × ρ → Bool) (quota k : Nat) (p : Prog κ ρ α) : Prop :=
  ∀ n, n + k ≤ quota → Keeps (quotaSpec renews quota) n p fun _ m => m ≤ n + k

section Takes

variable {k j : Nat}

theorem takes_ret (a : α) : Takes renews quota k (.ret a : Prog κ ρ α) :=
  fun n _ => keeps_ret (Nat.le_add_right n k)

theorem takes_call {c : κ} {f : ρ → Prog κ ρ α} (hc : ∀ r, renews (c, r) = false)
    (h : ∀ r, Takes renews quota k (f r)) : Takes renews quota (k + 1) (.call c f) := by
  intro n hn
  refine keeps_call fun r _ => ⟨n + 1, quota_step_of_lt (hc r) (by omega), ?_⟩
  refine (h r (n + 1) (by omega)).mono fun _ m hm => ?_
  omega

theorem takes_bind {p : Prog κ ρ α} {f : α → Prog κ ρ β} (hp : Takes renews quota k p)
    (h : ∀ a, Takes renews quota j (f a)) : Takes renews quota (k + j) (p.bind f) := by
  intro n hn
  refine keeps_bind ((hp n (by omega)).mono fun a m hm => ?_)
  refine (h a m (by omega)).mono fun _ m' hm' => ?_
  omega

theorem Takes.mono {p : Prog κ ρ α} (h : Takes renews quota k p) (hkj : k ≤ j) :
    Takes renews quota j p := by
  intro n hn
  refine (h n (by omega)).mono fun _ m hm => ?_
  omega

end Takes

/-! ## 3. Runs -/

section Runs

variable [DecidableEq κ] [DecidableEq τ] [DecidableEq π] {S : System κ ρ σ τ π ε}
  {C C' : Config κ ρ σ τ π} {P : κ → Bool} {t : τ}

/-- A call of the thread, apart from those of its handlers. -/
def Label.ownCall (P : κ → Bool) (t : τ) : Label κ ρ τ π ε → Bool
  | .call u c _ => u = t && !P c
  | _ => false

/-- A call that starts the thread. -/
def System.starts (S : System κ ρ σ τ π ε) (t : τ) : Label κ ρ τ π ε → Bool
  | .call _ c _ => S.spawns c = some t
  | _ => false

theorem countP_concat (p : α → Bool) (ls : List α) (l : α) :
    (ls ++ [l]).countP p = ls.countP p + (p l).toNat := by
  rw [List.countP_append, List.countP_singleton]
  cases p l <;> rfl

namespace System

/-- A thread that is watched has at most `n` calls of its quota left. -/
def Left (renews : κ × ρ → Bool) (quota : Nat) (P : κ → Bool) (t : τ) (n : Nat)
    (C : Config κ ρ σ τ π) : Prop :=
  ∀ s, C.threads t = some s → ∃ m, s.Obeys (quotaSpec renews quota) P (fun _ => True) m ∧
    quota ≤ m + n

/-- A step that starts the thread adds a quota, and a call of its own takes one. -/
theorem left_step (hhandler : ∀ x, Only P False (S.handler x))
    (hkeeps : Keeps (quotaSpec renews quota) 0 (S.text t) fun _ _ => True) {n : Nat}
    {l : Label κ ρ τ π ε} (h : Left renews quota P t n C) (hstep : S.step C l = some C')
    (hfew : ∀ c r, l = .call t c r → renews (c, r) = false) :
    ∃ n', (l.ownCall P t).toNat + n' ≤ n + quota * (S.starts t l).toNat ∧
      Left renews quota P t n' C' := by
  cases l with
  | call u c r =>
    obtain ⟨s, hs, hpend, -, -, rfl⟩ := step_call hstep
    by_cases hu : t = u
    · subst hu
      obtain ⟨m, hobeys, hm⟩ := h s hs
      rcases hobeys.call (r := r) hpend trivial with ⟨hP, s', hs', hobeys'⟩ | ⟨m', hm', hend⟩
      · refine ⟨n, by simp [Label.ownCall, hP], fun s'' hs'' => ⟨m, ?_, hm⟩⟩
        obtain rfl : s' = s'' := by simpa [hs'] using hs''
        exact hobeys'
      · obtain ⟨hlt, rfl⟩ := lt_of_quota_step (hfew c r rfl) hm'
        refine ⟨n - 1, ?_, fun s'' hs'' => ⟨m + 1, ?_, by omega⟩⟩
        · have := Bool.toNat_le (Label.ownCall P t (.call t c r : Label κ ρ τ π ε))
          omega
        · dsimp only at hs''
          rw [threadsAfter_self] at hs''
          rcases hend with ⟨s', hs', hobeys'⟩ | ⟨hnone, -⟩
          · obtain rfl : s' = s'' := by simpa [hs'] using hs''
            exact hobeys'
          · cases hnone.symm.trans hs''
    · have hown : Label.ownCall P t (.call u c r : Label κ ρ τ π ε) = false := by
        simp [Label.ownCall, Ne.symm hu]
      by_cases hspawn : S.spawns c = some t
      · refine ⟨n + quota, by simp [hown, starts, hspawn], fun s' hs' => ?_⟩
        dsimp only at hs'
        rw [threadsAfter_of_ne hu, if_pos hspawn] at hs'
        rcases Stack.Obeys.start (P := P) (π := π) hkeeps with ⟨s'', hs'', hobeys⟩ | ⟨hnone, -⟩
        · obtain rfl := Option.some.inj (hs''.symm.trans hs')
          exact ⟨0, hobeys, by omega⟩
        · cases hnone.symm.trans hs'
      · refine ⟨n, by simp [hown], fun s' hs' => h s' ?_⟩
        dsimp only at hs'
        rwa [threadsAfter_of_ne hu, if_neg hspawn] at hs'
  | interrupt u x =>
    obtain ⟨s, hs, -, -, rfl⟩ := step_interrupt hstep
    refine ⟨n, by simp [Label.ownCall], fun s' hs' => ?_⟩
    by_cases hu : t = u
    · subst hu
      obtain ⟨m, hobeys, hm⟩ := h s hs
      obtain rfl : _ = s' := by simpa using hs'
      exact ⟨m, hobeys.interrupt (hhandler x), hm⟩
    · exact h s' (by simpa [Function.update_of_ne hu] using hs')
  | outside e =>
    obtain ⟨store, -, rfl⟩ := step_outside hstep
    exact ⟨n, by simp [Label.ownCall], h⟩

/-- What a thread calls in a run in which its quota is not renewed: one quota if it is
running, and one for each time it is started. -/
theorem quota_run (hhandler : ∀ x, Only P False (S.handler x))
    (hkeeps : Keeps (quotaSpec renews quota) 0 (S.text t) fun _ _ => True)
    {ls : List (Label κ ρ τ π ε)} (h : Watched (quotaSpec renews quota) P (fun _ => True) t C)
    (hrun : S.run C ls = some C') (hfew : ∀ c r, .call t c r ∈ ls → renews (c, r) = false) :
    ls.countP (Label.ownCall P t) ≤
      quota * ((C.threads t).isSome.toNat + ls.countP (S.starts t)) := by
  have hleft : Left renews quota P t (quota * (C.threads t).isSome.toNat) C := by
    intro s hs
    obtain ⟨m, hobeys⟩ := h s hs
    exact ⟨m, hobeys, by simp [hs]⟩
  suffices hrest : ∃ n, ls.countP (Label.ownCall P t) + n ≤
      quota * ((C.threads t).isSome.toNat + ls.countP (S.starts t)) ∧ Left renews quota P t n C' by
    obtain ⟨n, hn, -⟩ := hrest
    exact Nat.le_of_add_right_le hn
  refine run_induction hrun (P := fun ls C' => (∀ c r, .call t c r ∈ ls → renews (c, r) = false) →
    ∃ n, ls.countP (Label.ownCall P t) + n ≤
      quota * ((C.threads t).isSome.toNat + ls.countP (S.starts t)) ∧ Left renews quota P t n C')
    (fun _ => ⟨_, by simp, hleft⟩) ?_ hfew
  intro ls l C₁ C₂ ih hstep hfew
  obtain ⟨n, hn, hleft₁⟩ := ih fun c r hmem => hfew c r (List.mem_append_left _ hmem)
  obtain ⟨n', hn', hleft₂⟩ := left_step hhandler hkeeps hleft₁ hstep fun c r hl =>
    hfew c r (hl ▸ List.mem_append_right _ List.mem_cons_self)
  refine ⟨n', ?_, hleft₂⟩
  calc (ls ++ [l]).countP (Label.ownCall P t) + n'
      = ls.countP (Label.ownCall P t) + ((l.ownCall P t).toNat + n') := by
        rw [countP_concat, Nat.add_assoc]
    _ ≤ ls.countP (Label.ownCall P t) + (n + quota * (S.starts t l).toNat) :=
      Nat.add_le_add_left hn' _
    _ ≤ quota * ((C.threads t).isSome.toNat + ls.countP (S.starts t)) +
          quota * (S.starts t l).toNat := by
      omega
    _ = quota * ((C.threads t).isSome.toNat + (ls ++ [l]).countP (S.starts t)) := by
      rw [countP_concat, ← Nat.mul_add, Nat.add_assoc]

end System

end Runs

end Resumable
