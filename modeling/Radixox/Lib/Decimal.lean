import Mathlib.Data.Nat.Digits.Defs
import Mathlib.Tactic.Common

/-!
# Decimal notation in bytes

The ASCII digits of a number, most significant first, and the number that a run of digits
stands for. Reading what was written gives the number back.
-/

namespace Radixox.Decimal
set_option autoImplicit false

/-- A byte from `0` to `9`. -/
def IsDigit (b : UInt8) : Prop := 48 ≤ b ∧ b ≤ 57

instance (b : UInt8) : Decidable (IsDigit b) := inferInstanceAs (Decidable (_ ∧ _))

/-- One more digit on the right. -/
def shift (n : Nat) (b : UInt8) : Nat := n * 10 + (b.toNat - 48)

/-- The number that a run of digits stands for; the empty run is 0. -/
def value (bytes : List UInt8) : Nat := bytes.foldl shift 0

def digit (d : Nat) : UInt8 := UInt8.ofNat (48 + d)

/-- The digits of a number without leading zeros; 0 has none. -/
def digits (n : Nat) : List UInt8 := (Nat.digits 10 n).reverse.map digit

/-- The notation of a number. -/
def text (n : Nat) : List UInt8 := if n = 0 then [48] else digits n

theorem toNat_digit {d : Nat} (small : d < 10) : (digit d).toNat = 48 + d := by
  rw [digit, UInt8.toNat_ofNat']
  omega

theorem isDigit_digit {d : Nat} (small : d < 10) : IsDigit (digit d) := by
  rw [IsDigit, UInt8.le_iff_toNat_le, UInt8.le_iff_toNat_le, toNat_digit small]
  show 48 ≤ 48 + d ∧ 48 + d ≤ 57
  omega

theorem shift_digit (n : Nat) {d : Nat} (small : d < 10) : shift n (digit d) = n * 10 + d := by
  rw [shift, toNat_digit small]
  omega

theorem value_concat (bytes : List UInt8) (b : UInt8) : value (bytes ++ [b]) = shift (value bytes) b := by
  rw [value, List.foldl_append]
  rfl

theorem digits_zero : digits 0 = [] := by
  rw [digits, Nat.digits_zero]
  rfl

theorem digits_of_ne_zero {n : Nat} (positive : n ≠ 0) : digits n = digits (n / 10) ++ [digit (n % 10)] := by
  rw [digits, Nat.digits_eq_cons_digits_div (by decide) positive, List.reverse_cons, List.map_append]
  rfl

theorem value_digits (n : Nat) : value (digits n) = n := by
  induction n using Nat.strongRecOn with
  | ind n ih =>
    by_cases zero : n = 0
    · rw [zero, digits_zero]
      rfl
    · rw [digits_of_ne_zero zero, value_concat, ih _ (Nat.div_lt_self (Nat.pos_of_ne_zero zero) (by decide)),
        shift_digit _ (Nat.mod_lt n (by decide))]
      omega

theorem isDigit_of_mem_digits {n : Nat} {b : UInt8} (member : b ∈ digits n) : IsDigit b := by
  obtain ⟨d, inside, rfl⟩ := List.mem_map.1 member
  exact isDigit_digit (Nat.digits_lt_base (by decide) (List.mem_reverse.1 inside))

theorem value_text (n : Nat) : value (text n) = n := by
  unfold text
  split
  next zero => rw [zero]; rfl
  next => exact value_digits n

theorem isDigit_of_mem_text {n : Nat} {b : UInt8} (member : b ∈ text n) : IsDigit b := by
  unfold text at member
  split at member
  · obtain rfl := List.mem_singleton.1 member
    decide
  · exact isDigit_of_mem_digits member

theorem text_ne_nil (n : Nat) : text n ≠ [] := by
  unfold text
  split
  next => simp
  next positive => simp [digits_of_ne_zero positive]

theorem length_text_le (n : Nat) : (text n).length ≤ n + 1 := by
  have length_digits_le : ∀ n, (digits n).length ≤ n := by
    intro n
    induction n using Nat.strongRecOn with
    | ind n ih =>
      by_cases zero : n = 0
      · rw [zero, digits_zero]
        exact Nat.le_refl 0
      · have := ih (n / 10) (Nat.div_lt_self (Nat.pos_of_ne_zero zero) (by decide))
        rw [digits_of_ne_zero zero, List.length_append, List.length_singleton]
        omega
  unfold text
  split
  · exact Nat.le_add_left 1 n
  · exact Nat.le_succ_of_le (length_digits_le n)

/-- The notation begins with a digit. -/
theorem exists_text_eq_cons (n : Nat) : ∃ b rest, text n = b :: rest ∧ IsDigit b := by
  cases written : text n with
  | nil => exact absurd written (text_ne_nil n)
  | cons b rest => exact ⟨b, rest, rfl, isDigit_of_mem_text (written ▸ List.mem_cons_self)⟩

/-! ## Reading -/

/-- The number of a text of digits. -/
def read (bytes : List UInt8) : Option Nat :=
  if bytes.isEmpty = false ∧ bytes.all (fun b => decide (IsDigit b)) = true then some (value bytes) else none

theorem read_text (n : Nat) : read (text n) = some n := by
  have some' : (text n).isEmpty = false := List.isEmpty_eq_false_iff.2 (text_ne_nil n)
  have all : (text n).all (fun b => decide (IsDigit b)) = true :=
    List.all_eq_true.2 fun b member => decide_eq_true (isDigit_of_mem_text member)
  rw [read, if_pos ⟨some', all⟩, value_text]

end Radixox.Decimal
