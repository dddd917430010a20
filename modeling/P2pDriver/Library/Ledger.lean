import P2pDriver.Library.Monitor
import Mathlib.Data.Finset.Basic

/-!
# Ledgers

Resources that are handed out and given back. Every call says which resource it
is made on, whether it gives that one back, and which one it hands out. The
books of a run hold the resources handed out and not given back, and note
whether a call was made on anything else. They also note whether one of the
outcomes occurred that a run is judged by.

Whoever hands out resources does not hand out one that is still held
(`Granted`); that is all that is assumed of it.

Results:
1. `keeps_uses`, `keeps_frees`, `keeps_hands`, `keeps_apart`: the rules for one call.
2. `Keeps.audited`: what a program is shown to leave in the books is what the
   books of every run say.
-/

namespace Resumable

open Prog

variable {α κ ρ β : Type} [DecidableEq α]

/-- What a call does with resources. `on` is the name it is made on, where
`some none` is the name of no resource. -/
structure Access (α : Type) where
  on : Option (Option α) := none
  frees : Bool := false
  hands : Option α := none

/-- The resources held after a call. -/
def Access.apply (e : Access α) (held : Finset α) : Finset α :=
  let kept := match e.frees, e.on with
    | true, some (some a) => held.erase a
    | _, _ => held
  match e.hands with
  | some a => insert a kept
  | none => kept

/-- A call is proper when it is made on a resource that is held, or on none. -/
def Access.proper (e : Access α) (held : Finset α) : Bool :=
  match e.on with
  | none => true
  | some none => false
  | some (some a) => a ∈ held

/-- The resources held, whether a call was improper, and whether an outcome
occurred that the run is judged by. -/
structure Books (α : Type) where
  held : Finset α
  misused : Bool
  failed : Bool

/-- Books in which nothing has gone wrong. -/
def Books.clean (held : Finset α) : Books α := ⟨held, false, false⟩

/-- A call is entered. -/
def Books.record (b : Books α) (e : Access α) (fails : Bool) : Books α :=
  ⟨e.apply b.held, b.misused || !e.proper b.held, b.failed || fails⟩

theorem Books.record_apart (b : Books α) : b.record {} false = b := by
  simp [record, Access.apply, Access.proper]

theorem Books.record_use {b : Books α} {a : α} (ha : a ∈ b.held) :
    b.record { on := some (some a) } false = b := by
  simp [record, Access.apply, Access.proper, ha]

section Audit

variable (access : κ → ρ → Access α) (fails : κ → ρ → Bool)

/-- The books after a run. -/
def Books.audit (b : Books α) (tr : List (κ × ρ)) : Books α :=
  tr.foldl (fun b e => b.record (access e.1 e.2) (fails e.1 e.2)) b

/-- What is handed out in a run is not held at the time. -/
def Granted : Finset α → List (κ × ρ) → Prop
  | _, [] => True
  | held, e :: tr => (∀ a, (access e.1 e.2).hands = some a → a ∉ held) ∧
      Granted ((access e.1 e.2).apply held) tr

instance decidableFresh (hands : Option α) (held : Finset α) :
    Decidable (∀ a, hands = some a → a ∉ held) :=
  match hands with
  | none => isTrue fun _ h => absurd h.symm (Option.some_ne_none _)
  | some a => decidable_of_iff (a ∉ held)
      ⟨fun h _ hb => Option.some.inj hb ▸ h, fun h => h a rfl⟩

instance decidableGranted :
    (held : Finset α) → (tr : List (κ × ρ)) → Decidable (Granted access held tr)
  | _, [] => isTrue trivial
  | held, e :: tr =>
    have : Decidable (Granted access ((access e.1 e.2).apply held) tr) := decidableGranted _ tr
    inferInstanceAs (Decidable (_ ∧ _))

/-- The resources held after a run. -/
def heldAfter (held : Finset α) (tr : List (κ × ρ)) : Finset α :=
  tr.foldl (fun held e => (access e.1 e.2).apply held) held

/-- Whether a run makes an improper call. -/
def misuses : Finset α → List (κ × ρ) → Bool
  | _, [] => false
  | held, e :: tr => !(access e.1 e.2).proper held || misuses ((access e.1 e.2).apply held) tr

/-- The monitor that keeps books. -/
def auditSpec : Spec κ ρ (Books α) where
  admits b c r := ∀ a, (access c r).hands = some a → a ∉ b.held
  step b c r := some (b.record (access c r) (fails c r))
  faults _ := True

end Audit

/-! ## 1. One call -/

section Rules

variable {access : κ → ρ → Access α} {fails : κ → ρ → Bool} {b : Books α} {c : κ}
  {k : ρ → Prog κ ρ β} {Q : β → Books α → Prop}

/-- A call that has nothing to do with resources. -/
theorem keeps_apart
    (hc : ∀ r, access c r = {}) (hf : ∀ r, fails c r = false)
    (h : ∀ r, Keeps (auditSpec access fails) b (k r) Q) :
    Keeps (auditSpec access fails) b (.call c k) Q := by
  refine keeps_call fun r _ => ⟨b, ?_, h r⟩
  simp only [auditSpec, Books.record, hc, hf]
  simp [Access.apply, Access.proper]

/-- A call on a resource that is held. -/
theorem keeps_uses {a : α} (ha : a ∈ b.held) (hc : ∀ r, access c r = { on := some (some a) })
    (h : ∀ r, Keeps (auditSpec access fails) { b with failed := b.failed || fails c r } (k r) Q) :
    Keeps (auditSpec access fails) b (.call c k) Q := by
  refine keeps_call fun r _ => ⟨_, ?_, h r⟩
  simp only [auditSpec, Books.record, hc]
  simp [Access.apply, Access.proper, ha]

/-- A call that gives back a resource that is held. -/
theorem keeps_frees {a : α} (ha : a ∈ b.held)
    (hc : ∀ r, access c r = { on := some (some a), frees := true }) (hf : ∀ r, fails c r = false)
    (h : ∀ r, Keeps (auditSpec access fails) { b with held := b.held.erase a } (k r) Q) :
    Keeps (auditSpec access fails) b (.call c k) Q := by
  refine keeps_call fun r _ => ⟨_, ?_, h r⟩
  simp only [auditSpec, Books.record, hc, hf]
  simp [Access.apply, Access.proper, ha]

/-- A call that may hand out a resource, made on one that is held or on none. -/
theorem keeps_hands (hon : ∀ r, (access c r).proper b.held = true)
    (hfrees : ∀ r, (access c r).frees = false)
    (h : ∀ r, (∀ a, (access c r).hands = some a → a ∉ b.held) →
      Keeps (auditSpec access fails) ⟨match (access c r).hands with
        | some a => insert a b.held
        | none => b.held, b.misused, b.failed || fails c r⟩ (k r) Q) :
    Keeps (auditSpec access fails) b (.call c k) Q := by
  refine keeps_call fun r hr => ⟨_, ?_, h r hr⟩
  simp only [auditSpec, Books.record, Access.apply, hon, hfrees, Bool.not_true, Bool.or_false]

/-- Books in which something has gone wrong stay so. -/
theorem keeps_misused {p : Prog κ ρ β} (hm : b.misused = true) (hf : b.failed = true) :
    Keeps (auditSpec access fails) b p fun _ b' => b'.misused = true ∧ b'.failed = true :=
  keeps_of_inv (fun b : Books α => b.misused = true ∧ b.failed = true) ⟨hm, hf⟩
    (fun _ _ _ h _ => ⟨_, rfl, by simp [Books.record, h.1], by simp [Books.record, h.2]⟩)
    fun _ _ => trivial

end Rules

/-! ## 2. Runs -/

section Runs

variable {access : κ → ρ → Access α} {fails : κ → ρ → Bool}

theorem admits_of_granted {b : Books α} {tr : List (κ × ρ)} (h : Granted access b.held tr) :
    (auditSpec access fails).Admits b tr := by
  induction tr generalizing b with
  | nil => trivial
  | cons e tr ih =>
    obtain ⟨c, r⟩ := e
    refine ⟨h.1, fun b' hb' => ?_⟩
    obtain rfl := Option.some.inj hb'
    exact ih h.2

theorem exec_audit (b : Books α) (tr : List (κ × ρ)) :
    (auditSpec access fails).exec b tr = some (b.audit access fails tr) := by
  induction tr generalizing b with
  | nil => rfl
  | cons e tr ih => exact ih _

theorem audit_held (b : Books α) (tr : List (κ × ρ)) :
    (b.audit access fails tr).held = heldAfter access b.held tr := by
  induction tr generalizing b with
  | nil => rfl
  | cons e tr ih => exact ih _

theorem audit_misused (b : Books α) (tr : List (κ × ρ)) :
    (b.audit access fails tr).misused = (b.misused || misuses access b.held tr) := by
  induction tr generalizing b with
  | nil => simp [Books.audit, misuses]
  | cons e tr ih =>
    rw [misuses, ← Bool.or_assoc]
    exact ih _

/-- The books fail exactly when an outcome of the run is one it is judged by. -/
theorem audit_failed (b : Books α) (tr : List (κ × ρ)) :
    (b.audit access fails tr).failed = (b.failed || tr.any fun e => fails e.1 e.2) := by
  induction tr generalizing b with
  | nil => simp [Books.audit]
  | cons e tr ih =>
    rw [List.any_cons, ← Bool.or_assoc]
    exact ih _

/-- What a program is shown to leave in the books, every run of it leaves there. -/
theorem Keeps.audited {b : Books α} {p : Prog κ ρ β} {Q : β → Books α → Prop} {rs : List ρ} {x : β}
    (h : Keeps (auditSpec access fails) b p Q) (hg : Granted access b.held (p.trace rs))
    (hret : p.after rs = .ret x) : Q x (b.audit access fails (p.trace rs)) := by
  obtain ⟨b', hexec, hk⟩ := h.exec rs (admits_of_granted hg)
  rw [exec_audit] at hexec
  obtain rfl := Option.some.inj hexec
  rw [hret] at hk
  exact hk.result

end Runs

end Resumable
