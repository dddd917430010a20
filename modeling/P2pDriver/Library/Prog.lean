import Mathlib.Data.List.Basic

/-!
# Resumable programs

A program that acts on its surroundings through calls only. It is a finite tree
over an alphabet `κ` of calls and a type `ρ` of answers: it has returned, or it
waits for the answer to a call, or it goes round a loop whose round starts with
a call, or it has run into undefined behaviour (`fault`).

The same text is read in two ways:

* alone, against a list of answers (`trace`, `after`);
* as one thread of a larger system, one call at a time (`pending`, `resume`).

Results:
1. `bind_assoc`, `bind_ret`: sequencing is a monad.
2. `pending_bind`, `resume_bind`: a sequence acts as its first part does.
3. `trace_append`, `after_append`: a run can be cut at any answer.
4. `issued_getElem?`: the calls of a run, one by one.
-/

namespace Resumable

/-! ## 1. Programs -/

/-- A program with calls in `κ`, answers in `ρ` and a result in `α`.

`loop c body k` makes the call `c` and runs `body` on its answer. When `body`
returns `none` it goes round again, when it returns `some b` it goes on with
`k b`. That a round starts with a call is what makes every run productive. -/
inductive Prog (κ ρ : Type) : Type → Type 1 where
  | ret {α : Type} (a : α) : Prog κ ρ α
  | call {α : Type} (c : κ) (k : ρ → Prog κ ρ α) : Prog κ ρ α
  | loop {α β : Type} (c : κ) (body : ρ → Prog κ ρ (Option β)) (k : β → Prog κ ρ α) :
      Prog κ ρ α
  | fault {α : Type} : Prog κ ρ α

namespace Prog

variable {κ ρ α β γ : Type}

/-- Sequencing. -/
def bind : Prog κ ρ α → (α → Prog κ ρ β) → Prog κ ρ β
  | ret a, f => f a
  | call c k, f => call c fun r => (k r).bind f
  | loop c body k, f => loop c body fun b => (k b).bind f
  | fault, _ => fault

instance : Monad (Prog κ ρ) where
  pure := ret
  bind := bind

@[simp] theorem pure_eq (a : α) : (pure a : Prog κ ρ α) = ret a := rfl

@[simp] theorem bind_eq (p : Prog κ ρ α) (f : α → Prog κ ρ β) : (p >>= f) = p.bind f := rfl

@[simp] theorem ret_bind (a : α) (f : α → Prog κ ρ β) : (ret a : Prog κ ρ α).bind f = f a := rfl

@[simp] theorem call_bind (c : κ) (k : ρ → Prog κ ρ α) (f : α → Prog κ ρ β) :
    (call c k).bind f = call c fun r => (k r).bind f := rfl

@[simp] theorem loop_bind (c : κ) (body : ρ → Prog κ ρ (Option γ)) (k : γ → Prog κ ρ α)
    (f : α → Prog κ ρ β) : (loop c body k).bind f = loop c body fun b => (k b).bind f := rfl

@[simp] theorem bind_ret (p : Prog κ ρ α) : p.bind ret = p := by
  induction p with
  | ret a => rfl
  | call c k ih => simp only [call_bind, ih]
  | loop c body k _ ih => simp only [loop_bind, ih]
  | fault => rfl

theorem bind_assoc (p : Prog κ ρ α) (f : α → Prog κ ρ β) (g : β → Prog κ ρ γ) :
    (p.bind f).bind g = p.bind fun a => (f a).bind g := by
  induction p with
  | ret a => rfl
  | call c k ih => simp only [call_bind, ih]
  | loop c body k _ ih => simp only [loop_bind, ih]
  | fault => rfl

/-- A single call, returning its answer. -/
def ask (c : κ) : Prog κ ρ ρ := call c ret

@[simp] theorem ask_bind (c : κ) (f : ρ → Prog κ ρ β) : (ask c).bind f = call c f := rfl

/-- The result of a computation that may be undefined. -/
def ofOption : Option α → Prog κ ρ α
  | some a => ret a
  | none => fault

@[simp] theorem ofOption_some (a : α) : (ofOption (some a) : Prog κ ρ α) = ret a := rfl

/-- Where a loop goes at the end of a round. -/
def again (c : κ) (body : ρ → Prog κ ρ (Option β)) (k : β → Prog κ ρ α) :
    Option β → Prog κ ρ α
  | none => loop c body k
  | some b => k b

@[simp] theorem again_none (c : κ) (body : ρ → Prog κ ρ (Option β)) (k : β → Prog κ ρ α) :
    again c body k none = loop c body k := rfl

@[simp] theorem again_some (c : κ) (body : ρ → Prog κ ρ (Option β)) (k : β → Prog κ ρ α) (b : β) :
    again c body k (some b) = k b := rfl

/-- `forever p` runs `p` until it returns `some b`. A round that makes no call
at all either leaves at once or spins without an observable effect, which the
language leaves undefined. -/
def forever : Prog κ ρ (Option β) → Prog κ ρ β
  | ret (some b) => ret b
  | ret none => fault
  | call c k => loop c k ret
  | loop c body k => loop c (fun r => (body r).bind (again c body k)) ret
  | fault => fault

/-- `times n p` runs `p` `n` times. -/
def times : Nat → Prog κ ρ Unit → Prog κ ρ Unit
  | 0, _ => ret ()
  | n + 1, p => p.bind fun _ => times n p

/-! ## 2. One call at a time -/

/-- The call a program waits on. -/
def pending : Prog κ ρ α → Option κ
  | call c _ => some c
  | loop c _ _ => some c
  | _ => none

/-- The program once its pending call is answered. -/
def resume : Prog κ ρ α → ρ → Prog κ ρ α
  | call _ k, r => k r
  | loop c body k, r => (body r).bind (again c body k)
  | p, _ => p

@[simp] theorem pending_ret (a : α) : (ret a : Prog κ ρ α).pending = none := rfl
@[simp] theorem pending_fault : (fault : Prog κ ρ α).pending = none := rfl
@[simp] theorem pending_call (c : κ) (k : ρ → Prog κ ρ α) : (call c k).pending = some c := rfl
@[simp] theorem pending_loop (c : κ) (body : ρ → Prog κ ρ (Option β)) (k : β → Prog κ ρ α) :
    (loop c body k).pending = some c := rfl

@[simp] theorem resume_call (c : κ) (k : ρ → Prog κ ρ α) (r : ρ) : (call c k).resume r = k r := rfl
@[simp] theorem resume_loop (c : κ) (body : ρ → Prog κ ρ (Option β)) (k : β → Prog κ ρ α) (r : ρ) :
    (loop c body k).resume r = (body r).bind (again c body k) := rfl

theorem ret_ne_fault (a : α) : (ret a : Prog κ ρ α) ≠ fault := by
  intro h
  cases h

theorem call_ne_fault (c : κ) (k : ρ → Prog κ ρ α) : call c k ≠ fault := by
  intro h
  cases h

/-- A program that waits on nothing has returned or faulted. -/
theorem pending_eq_none {p : Prog κ ρ α} (h : p.pending = none) : (∃ a, p = ret a) ∨ p = fault := by
  cases p with
  | ret a => exact .inl ⟨a, rfl⟩
  | call c k => exact absurd h (by simp)
  | loop c body k => exact absurd h (by simp)
  | fault => exact .inr rfl

theorem pending_bind {p : Prog κ ρ α} {c : κ} (h : p.pending = some c) (f : α → Prog κ ρ β) :
    (p.bind f).pending = some c := by
  cases p <;> simp_all

theorem resume_bind {p : Prog κ ρ α} {c : κ} (h : p.pending = some c) (f : α → Prog κ ρ β) (r : ρ) :
    (p.bind f).resume r = (p.resume r).bind f := by
  cases p with
  | ret a => exact absurd h (by simp)
  | call c k => rfl
  | fault => rfl
  | loop c body k =>
    simp only [loop_bind, resume_loop, bind_assoc]
    congr
    funext o
    cases o <;> rfl

/-! ## 3. Runs against a list of answers -/

/-- The calls made, each with its answer, and the program left, when the
answers `rs` arrive in order. Answers after the end are not read. -/
def run : Prog κ ρ α → List ρ → List (κ × ρ) × Prog κ ρ α
  | p, [] => ([], p)
  | p, r :: rs =>
    match p.pending with
    | none => ([], p)
    | some c => ((c, r) :: ((p.resume r).run rs).1, ((p.resume r).run rs).2)

/-- The calls made and their answers. -/
def trace (p : Prog κ ρ α) (rs : List ρ) : List (κ × ρ) := (p.run rs).1

/-- The program left after the answers. -/
def after (p : Prog κ ρ α) (rs : List ρ) : Prog κ ρ α := (p.run rs).2

/-- The calls made, and the one it waits on at the end. -/
def issued (p : Prog κ ρ α) (rs : List ρ) : List κ :=
  (p.trace rs).map Prod.fst ++ (p.after rs).pending.toList

@[simp] theorem trace_nil (p : Prog κ ρ α) : p.trace [] = [] := rfl
@[simp] theorem after_nil (p : Prog κ ρ α) : p.after [] = p := rfl

theorem trace_cons {p : Prog κ ρ α} {c : κ} (h : p.pending = some c) (r : ρ) (rs : List ρ) :
    p.trace (r :: rs) = (c, r) :: (p.resume r).trace rs := by
  simp only [trace, run, h]

theorem after_cons {p : Prog κ ρ α} {c : κ} (h : p.pending = some c) (r : ρ) (rs : List ρ) :
    p.after (r :: rs) = (p.resume r).after rs := by
  simp only [after, run, h]

theorem trace_of_pending_none {p : Prog κ ρ α} (h : p.pending = none) (rs : List ρ) :
    p.trace rs = [] := by
  cases rs <;> simp [trace, run, h]

theorem after_of_pending_none {p : Prog κ ρ α} (h : p.pending = none) (rs : List ρ) :
    p.after rs = p := by
  cases rs <;> simp [after, run, h]

/-- A run goes on where it was cut. -/
theorem run_append (p : Prog κ ρ α) (rs rs' : List ρ) :
    p.trace (rs ++ rs') = p.trace rs ++ (p.after rs).trace rs' ∧
      p.after (rs ++ rs') = (p.after rs).after rs' := by
  induction rs generalizing p with
  | nil => exact ⟨rfl, rfl⟩
  | cons r rs ih =>
    cases hp : p.pending with
    | none =>
      simp only [trace_of_pending_none hp, after_of_pending_none hp, List.nil_append, and_self]
    | some c =>
      rw [List.cons_append, trace_cons hp, after_cons hp, trace_cons hp, after_cons hp]
      exact ⟨congrArg _ (ih (p.resume r)).1, (ih (p.resume r)).2⟩

theorem trace_append (p : Prog κ ρ α) (rs rs' : List ρ) :
    p.trace (rs ++ rs') = p.trace rs ++ (p.after rs).trace rs' := (p.run_append rs rs').1

theorem after_append (p : Prog κ ρ α) (rs rs' : List ρ) :
    p.after (rs ++ rs') = (p.after rs).after rs' := (p.run_append rs rs').2

/-- A sequence whose first part returns in a run goes on with its second part there. -/
theorem exists_run_bind {p : Prog κ ρ α} {rs : List ρ} {a : α} (h : p.after rs = ret a) :
    ∃ rs', p.trace rs' = p.trace rs ∧ ∀ (f : α → Prog κ ρ β) rest,
      (p.bind f).trace (rs' ++ rest) = p.trace rs ++ (f a).trace rest ∧
        (p.bind f).after (rs' ++ rest) = (f a).after rest := by
  induction rs generalizing p with
  | nil =>
    obtain rfl : p = ret a := h
    exact ⟨[], rfl, fun f rest => ⟨rfl, rfl⟩⟩
  | cons r rs ih =>
    cases hp : p.pending with
    | none =>
      rw [after_of_pending_none hp] at h
      subst h
      exact ⟨[], by rw [trace_of_pending_none hp, trace_of_pending_none hp],
        fun f rest => ⟨rfl, rfl⟩⟩
    | some c =>
      rw [after_cons hp] at h
      obtain ⟨rs', htrace, hbind⟩ := ih h
      refine ⟨r :: rs', by rw [trace_cons hp, trace_cons hp, htrace], fun f rest => ?_⟩
      obtain ⟨htrace', hafter'⟩ := hbind f rest
      have hp' := pending_bind hp f
      rw [List.cons_append, trace_cons hp', after_cons hp', resume_bind hp, trace_cons hp, htrace',
        hafter']
      exact ⟨rfl, rfl⟩

/-- A prefix of a trace is the trace of a shorter run. -/
theorem trace_take (p : Prog κ ρ α) (rs : List ρ) (i : Nat) :
    (p.trace rs).take i = p.trace (rs.take i) := by
  induction rs generalizing p i with
  | nil => simp
  | cons r rs ih =>
    cases i with
    | zero => rfl
    | succ i =>
      cases hp : p.pending with
      | none => simp only [trace_of_pending_none hp, List.take_nil]
      | some c =>
        rw [List.take_succ_cons, trace_cons hp, trace_cons hp, List.take_succ_cons, ih]

/-- The answers in a trace are those of the run, up to its end. -/
theorem trace_answers (p : Prog κ ρ α) (rs : List ρ) : (p.trace rs).map Prod.snd <+: rs := by
  induction rs generalizing p with
  | nil => exact List.prefix_refl _
  | cons r rs ih =>
    cases hp : p.pending with
    | none =>
      rw [trace_of_pending_none hp]
      exact List.nil_prefix
    | some c =>
      rw [trace_cons hp, List.map_cons]
      exact List.cons_prefix_cons.mpr ⟨rfl, ih (p.resume r)⟩

/-- The calls issued in a run, one by one: the call waited on after `i` answers. -/
theorem issued_getElem? (p : Prog κ ρ α) {rs : List ρ} {i : Nat} (h : i ≤ rs.length) :
    (p.issued rs)[i]? = (p.after (rs.take i)).pending := by
  induction rs generalizing p i with
  | nil =>
    obtain rfl : i = 0 := Nat.le_zero.mp h
    cases hp : p.pending <;> simp [issued, hp]
  | cons r rs ih =>
    cases hp : p.pending with
    | none =>
      simp only [issued, trace_of_pending_none hp, after_of_pending_none hp, hp]
      rfl
    | some c =>
      have hcons : p.issued (r :: rs) = c :: (p.resume r).issued rs := by
        simp only [issued, trace_cons hp, after_cons hp, List.map_cons, List.cons_append]
      rw [hcons]
      cases i with
      | zero => exact hp.symm
      | succ i => rw [List.getElem?_cons_succ, List.take_succ_cons, after_cons hp,
          ih _ (Nat.le_of_succ_le_succ h)]

theorem issued_length_le (p : Prog κ ρ α) (rs : List ρ) : (p.issued rs).length ≤ rs.length + 1 := by
  induction rs generalizing p with
  | nil => cases hp : p.pending <;> simp [issued, hp]
  | cons r rs ih =>
    cases hp : p.pending with
    | none => simp [issued, trace_of_pending_none hp, after_of_pending_none hp, hp]
    | some c =>
      have := ih (p.resume r)
      simp only [issued, trace_cons hp, after_cons hp, List.map_cons, List.cons_append,
        List.length_cons] at this ⊢
      omega

end Prog

end Resumable
