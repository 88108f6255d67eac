import Radixox.Server.SetOpts
import Radixox.Server.Wire

/-!
# Signed arguments

`arg_i64` adds the digits up as a positive `i64` and negates the sum at the end. What it reads is
the number that the text stands for, and it reads every number of the type but one: the digits of
the least `i64` are one too large for the sum.
-/

namespace Radixox.Server.Cmd
set_option autoImplicit false
open Radixox.Oxidart Radixox.Decimal Resp

/-- An optional minus sign, at least one digit, and the number that they stand for. -/
inductive Numeral : SharedByte → Int → Prop where
  | plain {digits : SharedByte} (some : digits ≠ []) (all : ∀ b ∈ digits, IsDigit b) : Numeral digits (value digits)
  | negated {digits : SharedByte} (some : digits ≠ []) (all : ∀ b ∈ digits, IsDigit b) :
    Numeral (45 :: digits) (-(value digits : Int))

/-! ## The digit loop -/

/-- The sum of the digits, when all are digits. -/
theorem parseDigits_eq_some : ∀ (s : SharedByte) (n m : Nat),
    parseDigits s n = some m ↔ (∀ b ∈ s, IsDigit b) ∧ s.foldl shift n = m
  | [], n, m => ⟨fun read => ⟨fun _ member => (nomatch member), Option.some.inj read⟩, fun read => congrArg some read.2⟩
  | b :: rest, n, m => by
    simp only [parseDigits, List.forall_mem_cons, List.foldl_cons]
    by_cases digit : IsDigit b
    · rw [if_pos (show 48 ≤ b ∧ b ≤ 57 from digit), parseDigits_eq_some rest]
      simp only [digit, true_and, shift]
    · rw [if_neg (show ¬ (48 ≤ b ∧ b ≤ 57) from digit)]
      exact iff_of_false (Option.some_ne_none m).symm fun read => digit read.1.1

/-- The loop reads digits whose number is below the bound, and each of its sums is. -/
theorem argDigits_eq_some {bound : Nat} (positive : 0 < bound) {s : SharedByte} {n : Nat} :
    argDigits bound s 0 = some n ↔ (∀ b ∈ s, IsDigit b) ∧ value s = n ∧ n < bound := by
  rw [argDigits_eq bound s positive, Option.filter_eq_some_iff, decide_eq_true_eq, parseDigits_eq_some, and_assoc]
  rfl

theorem toInt_ofInt_of_lt {n : Nat} (small : n < 2 ^ 63) : (Int64.ofInt n).toInt = n :=
  Int64.toInt_ofInt_of_le (by omega) (by omega)

theorem toInt_ofInt_neg_of_lt {n : Nat} (small : n < 2 ^ 63) : (Int64.ofInt (-(n : Int))).toInt = -n :=
  Int64.toInt_ofInt_of_le (by omega) (by omega)

theorem map_lift {γ : Type} (f : Int → γ) (read : Option Nat) :
    (do let n ← read; pure (n : Int)).map f = read.map fun n : Nat => f n := by
  cases read <;> rfl

/-- A text without a minus sign in front is all digits. -/
theorem argI64_of_ne {s : SharedByte} (plain : s.head? ≠ some 45) :
    argI64 s = if s.isEmpty then none else (argDigits (2 ^ 63) s 0).map fun n : Nat => Int64.ofInt n := by
  unfold argI64
  simp only [map_lift]
  split
  · exact absurd rfl plain
  · rfl

theorem argI64_negative (digits : SharedByte) :
    argI64 (45 :: digits) =
      if digits.isEmpty then none else (argDigits (2 ^ 63) digits 0).map fun n : Nat => Int64.ofInt (-(n : Int)) := by
  unfold argI64
  simp only [map_lift]
  rfl

/-! ## What is read -/

theorem Numeral.isDigit_head {s : SharedByte} {n : Int} (numeral : Numeral s n) (plain : s.head? ≠ some 45) :
    s ≠ [] ∧ (∀ b ∈ s, IsDigit b) ∧ n = value s := by
  cases numeral with
  | plain some all => exact ⟨some, all, rfl⟩
  | negated some all => exact absurd rfl plain

theorem Numeral.of_minus {digits : SharedByte} {n : Int} (numeral : Numeral (45 :: digits) n) :
    digits ≠ [] ∧ (∀ b ∈ digits, IsDigit b) ∧ n = -(value digits : Int) := by
  cases numeral with
  | plain _ all => exact absurd (all 45 List.mem_cons_self) (by decide)
  | negated some all => exact ⟨some, all, rfl⟩

theorem ne_minValue_iff (v : Int64) : v ≠ Int64.minValue ↔ v.toInt ≠ -2 ^ 63 := by
  rw [ne_eq, ne_eq, ← Int64.toInt_inj]
  rfl

/-- What is read is what the text stands for, and nothing but the least number is refused. -/
theorem argI64_eq_some (s : SharedByte) (v : Int64) :
    argI64 s = some v ↔ Numeral s v.toInt ∧ v ≠ Int64.minValue := by
  rw [ne_minValue_iff]
  have low := Int64.le_toInt v
  have high := Int64.toInt_lt v
  by_cases minus : s.head? = some 45
  · obtain ⟨digits, rfl⟩ : ∃ digits, s = 45 :: digits := ⟨s.tail, List.eq_cons_of_mem_head? minus⟩
    rw [argI64_negative]
    constructor
    · intro read
      split at read
      next => cases read
      next some' =>
        obtain ⟨n, summed, rfl⟩ := Option.map_eq_some_iff.1 read
        obtain ⟨all, rfl, small⟩ := (argDigits_eq_some (by decide)).1 summed
        rw [toInt_ofInt_neg_of_lt small]
        exact ⟨.negated (fun empty => some' (List.isEmpty_iff.2 empty)) all, by omega⟩
    · rintro ⟨numeral, large⟩
      obtain ⟨some', all, stands⟩ := numeral.of_minus
      rw [if_neg fun empty => some' (List.isEmpty_iff.1 empty),
        (argDigits_eq_some (by decide)).2 ⟨all, rfl, (by omega : value digits < 2 ^ 63)⟩, Option.map_some, ← stands,
        Int64.ofInt_toInt]
  · rw [argI64_of_ne minus]
    constructor
    · intro read
      split at read
      next => cases read
      next some' =>
        obtain ⟨n, summed, rfl⟩ := Option.map_eq_some_iff.1 read
        obtain ⟨all, rfl, small⟩ := (argDigits_eq_some (by decide)).1 summed
        rw [toInt_ofInt_of_lt small]
        exact ⟨.plain (fun empty => some' (List.isEmpty_iff.2 empty)) all, by omega⟩
    · rintro ⟨numeral, large⟩
      obtain ⟨some', all, stands⟩ := numeral.isDigit_head minus
      rw [if_neg fun empty => some' (List.isEmpty_iff.1 empty),
        (argDigits_eq_some (by decide)).2 ⟨all, rfl, (by omega : value s < 2 ^ 63)⟩, Option.map_some, ← stands,
        Int64.ofInt_toInt]

/-- `i64::to_string` stands for its number. -/
theorem numeral_integerText (n : Int64) : Numeral (integerText n) n.toInt := by
  have digits : ∀ b ∈ text n.toInt.natAbs, IsDigit b := fun _ => isDigit_of_mem_text
  unfold integerText
  split
  next negative =>
    have read := Numeral.negated (text_ne_nil _) digits
    rwa [value_text, Int.ofNat_natAbs_of_nonpos (by omega), Int.neg_neg] at read
  next positive =>
    have read := Numeral.plain (text_ne_nil _) digits
    rwa [value_text, Int.natAbs_of_nonneg (by omega)] at read

/-- Every number but the least one is read back, and what is read is what the text stands for. -/
theorem argI64_integerText (n : Int64) (s : SharedByte) (v : Int64) :
    (argI64 (integerText n) = some n ↔ n ≠ Int64.minValue) ∧
      (argI64 s = some v ↔ Numeral s v.toInt ∧ v ≠ Int64.minValue) :=
  ⟨(argI64_eq_some _ n).trans (and_iff_right (numeral_integerText n)), argI64_eq_some s v⟩

/-- `-9223372036854775808` is refused; the reader of the server's own commands takes it. -/
theorem argI64_refuses_minValue :
    argI64 (integerText Int64.minValue) = none ∧ parseI64 (integerText Int64.minValue) = some Int64.minValue ∧
      ¬ ∀ n : Int64, argI64 (integerText n) = some n := by
  have refused : argI64 (integerText Int64.minValue) = none := by decide +kernel
  refine ⟨refused, by decide +kernel, fun reads => ?_⟩
  rw [reads] at refused
  cases refused

end Radixox.Server.Cmd
