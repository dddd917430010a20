import Mathlib.Data.List.TakeDrop

/-!
# Byte buffers with checked accesses

A buffer of fixed capacity whose accesses fail outside of it, and what one
receive leaves in it: the bytes received at the front, and behind them whatever
the memory held before.

Results:
1. `read_eq_none_iff`, `write_eq_none_iff`: an access fails exactly outside the buffer.
2. `Delivery.take_cells`, `Delivery.drop_cells`: the front of the buffer is what was received.
3. `matchesAt_eq`, `scanUntil_eq`: the two loops over a buffer that parsers
   are made of, a comparison with a text and a scan for a delimiter, say what
   they say of the list of cells.
4. `scanReads_lt_iff`: a scan stays below an index when there is a delimiter below it.
-/

namespace Resumable

/-- A byte array of capacity `cap`. -/
structure Buffer (cap : Nat) where
  cells : List UInt8
  length_cells : cells.length = cap
deriving DecidableEq

namespace Buffer

variable {cap : Nat}

theorem eq_of_cells {b b' : Buffer cap} (h : b.cells = b'.cells) : b = b' := by
  cases b
  cases b'
  cases h
  rfl

/-- Reading a cell. `none` is an access outside the buffer. -/
def read (b : Buffer cap) (i : Nat) : Option UInt8 := b.cells[i]?

/-- Storing to a cell. `none` is an access outside the buffer. -/
def write (b : Buffer cap) (i : Nat) (v : UInt8) : Option (Buffer cap) :=
  if i < cap then some ⟨b.cells.set i v, by rw [List.length_set, b.length_cells]⟩ else none

theorem read_eq_none_iff (b : Buffer cap) (i : Nat) : b.read i = none ↔ cap ≤ i := by
  rw [read, List.getElem?_eq_none_iff, b.length_cells]

theorem write_eq_none_iff (b : Buffer cap) (i : Nat) (v : UInt8) :
    b.write i v = none ↔ cap ≤ i := by
  unfold write
  split <;> simp <;> omega

/-- What was stored stands below the next index. -/
theorem mem_take_of_write {b b' : Buffer cap} {i : Nat} {v : UInt8} (h : b.write i v = some b') :
    v ∈ b'.cells.take (i + 1) := by
  unfold write at h
  split at h
  · rename_i hi
    obtain rfl := Option.some.inj h
    have hset : i < (b.cells.set i v).length := by rw [List.length_set, b.length_cells]; exact hi
    refine List.mem_take_iff_getElem.mpr ⟨i, Nat.lt_min.mpr ⟨Nat.lt_succ_self i, hset⟩, ?_⟩
    exact List.getElem_set_self hset
  · cases h

/-- Storing to a cell leaves those below it. -/
theorem take_of_write {b b' : Buffer cap} {i : Nat} {v : UInt8} (h : b.write i v = some b') :
    b'.cells.take i = b.cells.take i := by
  unfold write at h
  split at h
  · obtain rfl := Option.some.inj h
    exact List.take_set_of_le (Nat.le_refl i)
  · cases h

/-- `matchesAt b i text`: the cells from `i` on, read one by one, equal `text`.
The loop stops at the first difference. -/
def matchesAt (b : Buffer cap) : Nat → List UInt8 → Option Bool
  | _, [] => some true
  | i, c :: text => do
    let v ← b.read i
    if v ≠ c then some false else b.matchesAt (i + 1) text

/-- The cells from `i` on, read one by one up to the first `delim`. With
`fuel = cap - i` every read inside the buffer is covered, and what is left when
the fuel is gone is a read outside of it. -/
def scanUntil (b : Buffer cap) (delim : UInt8) : Nat → Nat → Option (List UInt8)
  | 0, _ => none
  | fuel + 1, i => do
    let v ← b.read i
    if v = delim then some [] else do
      let rest ← b.scanUntil delim fuel (i + 1)
      some (v :: rest)

/-- The indices `scanUntil` reads at. The last one may lie outside the buffer. -/
def scanReads (b : Buffer cap) (delim : UInt8) : Nat → Nat → List Nat
  | 0, i => [i]
  | fuel + 1, i =>
    match b.read i with
    | none => [i]
    | some v => if v = delim then [i] else i :: b.scanReads delim fuel (i + 1)

/-- `n` cells from `i` on, read one by one. -/
def readRange (b : Buffer cap) : Nat → Nat → Option (List UInt8)
  | 0, _ => some []
  | n + 1, i => do
    let v ← b.read i
    let rest ← b.readRange n (i + 1)
    some (v :: rest)

/-- Reading inside the buffer takes the first of the cells from there on. -/
theorem drop_eq_cons (b : Buffer cap) {i : Nat} (h : i < cap) :
    ∃ v, b.cells.drop i = v :: b.cells.drop (i + 1) ∧ b.read i = some v := by
  have hi : i < b.cells.length := by rw [b.length_cells]; exact h
  exact ⟨b.cells[i], List.drop_eq_getElem_cons hi, List.getElem?_eq_getElem hi⟩

theorem matchesAt_eq (b : Buffer cap) {i : Nat} {text : List UInt8} (h : i + text.length ≤ cap) :
    b.matchesAt i text = some (decide (text <+: b.cells.drop i)) := by
  induction text generalizing i with
  | nil => simp [matchesAt]
  | cons c text ih =>
    rw [List.length_cons] at h
    obtain ⟨v, hd, hr⟩ := b.drop_eq_cons (i := i) (by omega)
    have ih' := ih (i := i + 1) (by omega)
    rw [matchesAt, hr, hd]
    by_cases hc : v = c
    · simp [hc, ih', List.cons_prefix_cons]
    · have hc' : ¬ c = v := fun e => hc e.symm
      simp [hc, hc', List.cons_prefix_cons]

theorem readRange_eq (b : Buffer cap) {n i : Nat} (h : i + n ≤ cap) :
    b.readRange n i = some ((b.cells.drop i).take n) := by
  induction n generalizing i with
  | zero => simp [readRange]
  | succ n ih =>
    obtain ⟨v, hd, hr⟩ := b.drop_eq_cons (i := i) (by omega)
    rw [readRange, hr, hd]
    simp [ih (i := i + 1) (by omega)]

/-- A scan from `i` finds the cells before the first delimiter, and fails when
there is none up to the end of the buffer. -/
theorem scanUntil_eq (b : Buffer cap) (delim : UInt8) {fuel i : Nat} (h : i + fuel = cap) :
    b.scanUntil delim fuel i =
      if delim ∈ b.cells.drop i then some ((b.cells.drop i).takeWhile (· ≠ delim)) else none := by
  induction fuel generalizing i with
  | zero =>
    have : b.cells.drop i = [] := List.drop_eq_nil_of_le (by rw [b.length_cells]; omega)
    simp [scanUntil, this]
  | succ fuel ih =>
    obtain ⟨v, hd, hr⟩ := b.drop_eq_cons (i := i) (by omega)
    rw [scanUntil, hr, hd]
    by_cases hc : v = delim
    · simp [hc]
    · have hc' : ¬ delim = v := fun e => hc e.symm
      have ih' := ih (i := i + 1) (by omega)
      by_cases hm : delim ∈ b.cells.drop (i + 1)
      · rw [if_pos hm] at ih'
        simp [hc, ih', hm]
      · rw [if_neg hm] at ih'
        simp [hc, hc', ih', hm]

/-- A scan from `i` reads nothing at `n` or behind it exactly when a delimiter
stands between `i` and `n`. -/
theorem scanReads_lt_iff (b : Buffer cap) (delim : UInt8) {fuel i n : Nat} (h : i + fuel = cap)
    (hn : n ≤ cap) :
    (∀ j ∈ b.scanReads delim fuel i, j < n) ↔ delim ∈ (b.cells.take n).drop i := by
  have hend : ∀ i, n ≤ i → (b.cells.take n).drop i = [] := fun i hi =>
    List.drop_eq_nil_of_le (Nat.le_trans (List.length_take_le n _) hi)
  induction fuel generalizing i with
  | zero =>
    have hi : ¬ i < n := by omega
    simp [scanReads, hend i (by omega), hi]
  | succ fuel ih =>
    obtain ⟨v, hd, hr⟩ := b.drop_eq_cons (i := i) (by omega)
    rw [scanReads, hr]
    rcases Nat.lt_or_ge i n with hi | hi
    · have hcons : (b.cells.take n).drop i = v :: (b.cells.take n).drop (i + 1) := by
        rw [List.drop_take, hd, List.drop_take, show n - i = n - (i + 1) + 1 by omega,
          List.take_succ_cons]
      rw [hcons, List.mem_cons]
      by_cases hv : v = delim
      · simp [hv, hi]
      · have hv' : ¬ delim = v := fun e => hv e.symm
        simp only [hv, hv', if_false, List.forall_mem_cons, hi, true_and, false_or]
        exact ih (by omega)
    · -- the scan starts behind `n`
      have hi' : ¬ i < n := Nat.not_lt.mpr hi
      rw [hend i hi]
      by_cases hv : v = delim <;> simp [hv, hi']

end Buffer

/-! ## What a receive leaves behind -/

/-- One receive into a buffer of capacity `cap`: the bytes received, and what
the buffer held before. -/
structure Delivery (cap : Nat) where
  bytes : List UInt8
  stale : List UInt8
  fits : bytes.length ≤ cap
deriving DecidableEq

namespace Delivery

variable {cap : Nat}

/-- The receive delivers at most `cap` of the bytes on offer. -/
def ofOffer (cap : Nat) (offer stale : List UInt8) : Delivery cap :=
  ⟨offer.take cap, stale, List.length_take_le cap offer⟩

/-- What is left behind the bytes received. -/
def residue (d : Delivery cap) : List UInt8 :=
  (d.stale.drop d.bytes.length).takeD (cap - d.bytes.length) 0

/-- The buffer after the receive. Only the front is written. -/
def buffer (d : Delivery cap) : Buffer cap where
  cells := d.bytes ++ d.residue
  length_cells := by
    have := d.fits
    simp only [residue, List.length_append, List.takeD_length]
    omega

/-- There is room for a terminator behind the bytes received, unless they fill the buffer. -/
theorem write_terminator_eq_none_iff (offer stale : List UInt8) (v : UInt8) :
    (ofOffer cap offer stale).buffer.write (ofOffer cap offer stale).bytes.length v = none ↔
      cap ≤ offer.length := by
  rw [Buffer.write_eq_none_iff, ofOffer, List.length_take]
  omega

/-- A buffer of whose cells the first `n` were received. -/
def ofBuffer (b : Buffer cap) (n : Nat) : Delivery cap :=
  ⟨b.cells.take n, b.cells, by rw [List.length_take, b.length_cells]; exact Nat.min_le_right n cap⟩

theorem ofBuffer_length (b : Buffer cap) {n : Nat} (h : n ≤ cap) :
    (ofBuffer b n).bytes.length = n := by
  rw [ofBuffer, List.length_take, b.length_cells, Nat.min_eq_left h]

theorem cells_eq (d : Delivery cap) : d.buffer.cells = d.bytes ++ d.residue := rfl

theorem buffer_ofBuffer (b : Buffer cap) {n : Nat} (h : n ≤ cap) : (ofBuffer b n).buffer = b := by
  have hlen := ofBuffer_length b h
  have hrest : (ofBuffer b n).residue = b.cells.drop n := by
    have hdrop : (b.cells.drop n).length = cap - n := by rw [List.length_drop, b.length_cells]
    rw [residue, hlen, ofBuffer, ← hdrop, List.takeD_eq_take _ (Nat.le_refl _), List.take_length]
  have hcells : (ofBuffer b n).buffer.cells = b.cells := by
    rw [cells_eq, hrest, ofBuffer, List.take_append_drop]
  exact Buffer.eq_of_cells hcells

theorem drop_cells (d : Delivery cap) {i : Nat} (h : i ≤ d.bytes.length) :
    d.buffer.cells.drop i = d.bytes.drop i ++ d.residue :=
  List.drop_append_of_le_length h

theorem take_cells (d : Delivery cap) : d.buffer.cells.take d.bytes.length = d.bytes := by
  simp [buffer]

/-- What the buffer held can be chosen: `t` behind the bytes received. -/
theorem prefix_residue {b t : List UInt8} (hb : b.length ≤ cap) (h : b.length + t.length ≤ cap) :
    t <+: (Delivery.mk b (b ++ t) hb).residue := by
  have hdrop : (b ++ t).drop b.length = t := List.drop_left
  rw [residue, hdrop]
  have hn : t.length ≤ cap - b.length := by omega
  generalize cap - b.length = n at hn
  induction t generalizing n with
  | nil => exact List.nil_prefix
  | cons v t ih =>
    cases n with
    | zero => exact absurd hn (by simp)
    | succ n =>
      rw [List.takeD_succ]
      exact List.cons_prefix_cons.mpr ⟨rfl, ih (by rw [List.length_cons] at h; omega)
        (by simp) n (Nat.le_of_succ_le_succ hn)⟩

/-- A buffer that held nothing but NULs. -/
theorem residue_blank (b : List UInt8) (hb : b.length ≤ cap) :
    (Delivery.mk b [] hb).residue = List.replicate (cap - b.length) 0 := by
  rw [residue, List.drop_nil, List.takeD_nil]

end Delivery

end Resumable
