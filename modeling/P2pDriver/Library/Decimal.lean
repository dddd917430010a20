import Mathlib.Data.List.Basic

/-!
# Decimal numbers

A number as the bytes of its decimal digits, and how it is read back from a text.

Results:
1. `value_digits`, `digits_injective`, `digits_of_append`: the digits of a number stand for it
   alone, also at the end of a text.
2. `read_digits`: a number is read from a text as far as its digits go.
-/

namespace Decimal

/-! ## 1. Digits -/

/-- The decimal digits of a number. -/
def digits (n : Nat) : List UInt8 := (Nat.toDigits 10 n).map fun c => c.toNat.toUInt8

def isDigit (b : UInt8) : Bool := 48 ≤ b && b ≤ 57

/-- The number that digits stand for. -/
def value (l : List UInt8) : Nat := l.foldl (fun n b => 10 * n + (b.toNat - 48)) 0

theorem toNat_of_isDigit {c : Char} (h : c.isDigit = true) :
    c.toNat.toUInt8.toNat = c.toNat ∧ 48 ≤ c.toNat ∧ c.toNat ≤ 57 := by
  have hrange : 48 ≤ c.toNat ∧ c.toNat ≤ 57 := by
    simpa [Char.isDigit, UInt32.le_iff_toNat_le] using h
  refine ⟨?_, hrange⟩
  rw [Nat.toUInt8, UInt8.toNat_ofNat']
  exact Nat.mod_eq_of_lt (by omega)

theorem isDigit_of_mem {n : Nat} {b : UInt8} (h : b ∈ digits n) : isDigit b = true := by
  obtain ⟨c, hc, rfl⟩ := List.mem_map.mp h
  obtain ⟨hbyte, hlow, hhigh⟩ :=
    toNat_of_isDigit (Nat.isDigit_of_mem_toDigits (by decide) (by decide) hc)
  simp only [isDigit, Bool.and_eq_true, decide_eq_true_eq, UInt8.le_iff_toNat_le, hbyte]
  exact ⟨hlow, hhigh⟩

theorem digits_ne_nil (n : Nat) : digits n ≠ [] := by
  intro h
  exact Nat.toDigits_ne_nil (List.map_eq_nil_iff.mp h)

theorem foldl_digits (l : List Char) (hl : ∀ c ∈ l, c.isDigit = true) (n : Nat) :
    (l.map fun c => c.toNat.toUInt8).foldl (fun n b => 10 * n + (b.toNat - 48)) n =
      Nat.ofDigitChars 10 l n := by
  induction l generalizing n with
  | nil => simp
  | cons c l ih =>
    have hbyte := (toNat_of_isDigit (hl c List.mem_cons_self)).1
    rw [List.map_cons, List.foldl_cons, ih (fun c' hc' => hl c' (List.mem_cons_of_mem c hc')),
      Nat.ofDigitChars_cons, hbyte]
    rfl

theorem value_digits (n : Nat) : value (digits n) = n := by
  unfold value digits
  rw [foldl_digits _ (fun c hc => Nat.isDigit_of_mem_toDigits (by decide) (by decide) hc)]
  exact Nat.ofDigitChars_ten_toDigits

theorem digits_injective : Function.Injective digits := by
  intro n m h
  rw [← value_digits n, h, value_digits]

/-- Digits behind a byte that is none stand apart from what is before it. -/
theorem digits_of_append {x y : List UInt8} {a b : UInt8} {n m : Nat} (ha : isDigit a = false)
    (hb : isDigit b = false) (h : x ++ a :: digits n = y ++ b :: digits m) : n = m := by
  have htail : ∀ {x : List UInt8} {a : UInt8} (n : Nat), isDigit a = false →
      (x ++ a :: digits n).reverse.takeWhile isDigit = (digits n).reverse := fun {x a} n ha => by
    rw [List.reverse_append, List.reverse_cons, List.append_assoc, List.singleton_append,
      List.takeWhile_append_of_pos fun b hb => isDigit_of_mem (List.mem_reverse.mp hb),
      List.takeWhile_cons_of_neg (by simp [ha]), List.append_nil]
  have hdigits : (digits n).reverse = (digits m).reverse := by rw [← htail n ha, h, htail m hb]
  exact digits_injective (List.reverse_injective hdigits)

/-! ## 2. Reading -/

/-- The number a text begins with, and the text behind it. -/
def read (l : List UInt8) : Option (Nat × List UInt8) :=
  let text := l.takeWhile isDigit
  if text = [] then none else some (value text, l.dropWhile isDigit)

/-- The digits of a number are read up to what is behind them. -/
theorem read_digits (n : Nat) {rest : List UInt8} (h : ∀ b ∈ rest.head?, isDigit b = false) :
    read (digits n ++ rest) = some (n, rest) := by
  have hall : ∀ b ∈ digits n, isDigit b = true := fun b hb => isDigit_of_mem hb
  have hstop : rest.takeWhile isDigit = [] ∧ rest.dropWhile isDigit = rest := by
    cases rest with
    | nil => exact ⟨rfl, rfl⟩
    | cons b rest =>
      have hb : isDigit b = false := h b rfl
      exact ⟨List.takeWhile_cons_of_neg (by simp [hb]), List.dropWhile_cons_of_neg (by simp [hb])⟩
  unfold read
  rw [List.takeWhile_append_of_pos hall, List.dropWhile_append_of_pos hall, hstop.1, hstop.2,
    List.append_nil, if_neg (digits_ne_nil n), value_digits]

end Decimal
