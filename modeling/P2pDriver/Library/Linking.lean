import P2pDriver.Library.Monitor

/-!
# Linking

A program makes calls of an upper level, and a library says what each of them is:
a program over the calls of a lower level. Linking puts the text of the library in
the place of the calls.

That the text of a library function starts with a call is part of its type, so
that linking does not make a loop unproductive.

Results:
1. `link_bind`, `pending_link`, `resume_link`: a linked program, one call at a time.
2. `Keeps.link`: a program keeps a monitor of the lower level if the library turns
   every call its own monitor allows into calls of the lower one.
3. `Within.call`: a call of a linked program is made inside the library function for one
   call of the program.
-/

namespace Resumable

open Prog

variable {κ ρ κ' ρ' M M' α β γ : Type}

/-- A library: the first call of the function for each call of the upper level, and
the rest of it. -/
structure Linkage (κ ρ κ' ρ' : Type) where
  first : κ → κ'
  rest : κ → ρ' → Prog κ' ρ' ρ

/-- The text of the function for a call. -/
def Linkage.text (L : Linkage κ ρ κ' ρ') (c : κ) : Prog κ' ρ' ρ := .call (L.first c) (L.rest c)

namespace Prog

/-- A program with the text of the library in the place of its calls. -/
def link (L : Linkage κ ρ κ' ρ') : {α : Type} → Prog κ ρ α → Prog κ' ρ' α
  | _, ret a => ret a
  | _, call c k => call (L.first c) fun r' => (L.rest c r').bind fun r => (k r).link L
  | _, loop c body k =>
    loop (L.first c) (fun r' => (L.rest c r').bind fun r => (body r).link L) fun b => (k b).link L
  | _, fault => fault

variable (L : Linkage κ ρ κ' ρ')

/-! ## 1. One call at a time -/

@[simp] theorem link_ret (a : α) : (ret a : Prog κ ρ α).link L = ret a := rfl
@[simp] theorem link_fault : (fault : Prog κ ρ α).link L = fault := rfl

theorem link_call (c : κ) (k : ρ → Prog κ ρ α) :
    (call c k).link L = (L.text c).bind fun r => (k r).link L := rfl

theorem link_bind (p : Prog κ ρ α) (f : α → Prog κ ρ β) :
    (p.bind f).link L = (p.link L).bind fun a => (f a).link L := by
  induction p with
  | ret a => rfl
  | call c k ih => simp only [call_bind, link, bind_assoc, ih]
  | loop c body k _ ih => simp only [loop_bind, link, ih]
  | fault => rfl

@[simp] theorem pending_link (p : Prog κ ρ α) : (p.link L).pending = p.pending.map L.first := by
  cases p <;> rfl

/-- A call of a linked program is the first call of a library function, which is
followed by the rest of it. -/
theorem resume_link {p : Prog κ ρ α} {c : κ} (h : p.pending = some c) (r' : ρ') :
    (p.link L).resume r' = (L.rest c r').bind fun r => (p.resume r).link L := by
  cases p with
  | ret a => exact nomatch h
  | fault => exact nomatch h
  | call c k =>
    cases h
    rfl
  | loop c body k =>
    cases h
    simp only [link, resume_loop, bind_assoc, link_bind]
    congr
    funext r
    congr
    funext o
    cases o <;> rfl

@[simp] theorem link_ofOption (o : Option α) : (ofOption o : Prog κ ρ α).link L = ofOption o := by
  cases o <;> rfl

end Prog

/-! ## 2. Monitors of the two levels -/

section Rules

variable {L : Linkage κ ρ κ' ρ'} {S : Spec κ ρ M} {S' : Spec κ' ρ' M'}

/-- `R` relates the states of the two monitors between the calls of the upper level.
Each library function, run where its call is allowed, keeps the lower monitor, gives
an answer that is expected, and leads to related states. -/
theorem Keeps.link (R : M → M' → Prop)
    (htext : ∀ m m' c, R m m' → (∀ r, S.admits m c r → ∃ m₁, S.step m c r = some m₁) →
      Keeps S' m' (L.text c) fun r m₁' =>
        S.admits m c r ∧ ∀ m₁, S.step m c r = some m₁ → R m₁ m₁')
    (hfault : ∀ m m', R m m' → S.faults m → S'.faults m') {p : Prog κ ρ α}
    {Q : α → M → Prop} {m : M} {m' : M'} (h : Keeps S m p Q) (hR : R m m') :
    Keeps S' m' (p.link L) fun a m₁' => ∃ m₁, R m₁ m₁' ∧ Q a m₁ := by
  intro n
  induction n generalizing p m m' with
  | zero => trivial
  | succ n ih =>
    cases hp : p.pending with
    | none =>
      rcases pending_eq_none hp with ⟨a, rfl⟩ | rfl
      · exact ⟨fun b hb => by cases hb; exact ⟨m, hR, h.result⟩, fun hb => (nomatch hb),
          fun _ hc => (nomatch hc)⟩
      · exact ⟨fun _ hb => (nomatch hb), fun _ => hfault m m' hR h.faults, fun _ hc => (nomatch hc)⟩
    | some c =>
      have hlink : (p.link L).pending = some (L.first c) := by rw [pending_link, hp]; rfl
      have hstep : ∀ r, S.admits m c r → ∃ m₁, S.step m c r = some m₁ := fun r hr =>
        let ⟨m₁, hm₁, _⟩ := h.resume hp hr
        ⟨m₁, hm₁⟩
      have htext' := htext m m' c hR hstep
      refine ⟨fun b hb => ?_, fun hb => ?_, fun c' hc' r' hr' => ?_⟩
      · rw [hb] at hlink; exact nomatch hlink
      · rw [hb] at hlink; exact nomatch hlink
      · obtain rfl : L.first c = c' := Option.some.inj (hlink.symm.trans hc')
        obtain ⟨m₁', hm₁', hrest⟩ := htext'.resume (c := L.first c) rfl hr'
        refine ⟨m₁', hm₁', ?_⟩
        rw [resume_link L hp]
        -- the rest of the function, and then the rest of the program with one step less
        refine keepsFor_bind (hrest n) fun r m₂' hr => ?_
        obtain ⟨m₂, hm₂, hk⟩ := h.resume hp hr.1
        exact ih hk (hr.2 m₂ hm₂)

/-- A program that makes calls of one kind, each of which is calls of one kind below. -/
theorem Only.link {P : κ → Bool} {P' : κ' → Bool} {F F' : Prop} (hF : F → F')
    (htext : ∀ c, P c = true → Only P' F' (L.text c)) {p : Prog κ ρ α} [Inhabited ρ]
    (h : Only P F p) : Only P' F' (p.link L) := by
  have htext' : ∀ (m m' : Unit) (c : κ), True →
      (∀ r, (onlySpec ρ P F).admits m c r → ∃ m₁, (onlySpec ρ P F).step m c r = some m₁) →
      Keeps (onlySpec ρ' P' F') m' (L.text c) fun r m₁' =>
        (onlySpec ρ P F).admits m c r ∧ ∀ m₁, (onlySpec ρ P F).step m c r = some m₁ → True := ?_
  · exact (Keeps.link (fun _ _ => True) htext' (fun _ _ _ hf => hF hf) h trivial).mono
      fun _ _ _ => trivial
  intro m m' c _ hallowed
  refine (htext c ?_).mono fun r _ _ => ⟨trivial, fun _ _ => trivial⟩
  obtain ⟨m₁, hm₁⟩ := hallowed default trivial
  by_contra hno
  rw [show (onlySpec ρ P F).step m c default = none from if_neg hno] at hm₁
  exact nomatch hm₁

end Rules

/-! ## 3. Runs of a linked program -/

section Runs

variable (L : Linkage κ ρ κ' ρ')

/-- How far a linked program is: `tr` is what it has called since the program it is
linked from was `p`. -/
inductive Linkage.Within (p : Prog κ ρ α) : List (κ' × ρ') → Prog κ' ρ' α → Prop where
  | between : Within p [] (p.link L)
  | inside {c : κ} {tr : List (κ' × ρ')} {q : Prog κ' ρ' ρ} (hp : p.pending = some c)
      (rs : List ρ') (htr : (L.text c).trace rs = tr) (hq : (L.text c).after rs = q)
      (hne : ∀ r, q ≠ .ret r) : Within p tr (q.bind fun r => (p.resume r).link L)

/-- A call of a linked program is made inside the function for one call of the program
it is linked from, which it ends or goes on with. -/
theorem Linkage.Within.call {L : Linkage κ ρ κ' ρ'} {p : Prog κ ρ α} {tr : List (κ' × ρ')}
    {q : Prog κ' ρ' α} (h : L.Within p tr q) {c' : κ'} (hq : q.pending = some c') (r' : ρ') :
    ∃ c rs, p.pending = some c ∧ (L.text c).trace rs = tr ++ [(c', r')] ∧
      ((∃ r, (L.text c).after rs = .ret r ∧ q.resume r' = (p.resume r).link L) ∨
        ((∀ r, (L.text c).after rs ≠ .ret r) ∧ L.Within p (tr ++ [(c', r')]) (q.resume r'))) := by
  obtain ⟨c, rs, hp, htr, hres⟩ : ∃ c rs, p.pending = some c ∧
      (L.text c).trace rs = tr ++ [(c', r')] ∧
      q.resume r' = ((L.text c).after rs).bind fun r => (p.resume r).link L := by
    cases h with
    | between =>
      rw [pending_link] at hq
      obtain ⟨c, hp, rfl⟩ := Option.map_eq_some_iff.mp hq
      refine ⟨c, [r'], hp, rfl, ?_⟩
      rw [resume_link L hp]
      rfl
    | @inside c _ q₀ hp rs htr hq₀ hne =>
      have hpend : q₀.pending = some c' := by
        cases hq₀' : q₀.pending with
        | none =>
          rcases pending_eq_none hq₀' with ⟨r, rfl⟩ | rfl
          · exact absurd rfl (hne r)
          · exact nomatch hq
        | some c₁ => exact (pending_bind hq₀' _).symm.trans hq
      refine ⟨c, rs ++ [r'], hp, ?_, ?_⟩
      · rw [trace_append, htr, hq₀, trace_cons hpend, trace_nil]
      · rw [after_append, hq₀, after_cons hpend, after_nil, resume_bind hpend]
  refine ⟨c, rs, hp, htr, ?_⟩
  by_cases hret : ∃ r, (L.text c).after rs = .ret r
  · obtain ⟨r, hr⟩ := hret
    exact .inl ⟨r, hr, by rw [hres, hr, ret_bind]⟩
  · refine .inr ⟨fun r hr => hret ⟨r, hr⟩, ?_⟩
    rw [hres]
    exact .inside hp rs htr rfl fun r hr => hret ⟨r, hr⟩

/-- A linked program waits on a call unless the program has returned, or it has faulted. -/
theorem Linkage.Within.returned {L : Linkage κ ρ κ' ρ'} {p : Prog κ ρ α} {tr : List (κ' × ρ')}
    {q : Prog κ' ρ' α} (h : L.Within p tr q) (hret : ∀ a, p ≠ .ret a) (a : α) : q ≠ .ret a := by
  cases h with
  | between => cases p <;> first | exact absurd rfl (hret _) | exact nofun
  | @inside c _ q₀ _ _ _ _ hne => cases q₀ <;> first | exact absurd rfl (hne _) | exact nofun

end Runs

end Resumable
