import Mathlib.Data.BitVec
import Mathlib.Tactic.Linarith

/-!
# Expiry and parent radix in one word

`ExpAndRadix` packs the expiry second of a node into the 56 low bits of a `u64`
and the radix byte under which its parent links it into the 8 high bits. All
ones in the low part (`NO_EXPIRACY`) means that the node never expires.
A failing assertion or `expect` of the crate is a `Panic`.
-/

namespace Radixox.Oxidart
set_option autoImplicit false

/-- The places where the crate panics. -/
inductive Panic where
  /-- `get_node`, `get_node_mut`: "Call to unfailable get_node failed". -/
  | getNode
  /-- `ensure_key`: "idx exist so node should exist". -/
  | ensureKey
  /-- `assert!(!self.is_full() && radix != 0)` in `Childs::push`. -/
  | childsPush
  /-- "overflow_idx must be valid". -/
  | overflowIdx
  /-- "big_overflow_idx must be valid". -/
  | bigOverflowIdx
  /-- `ArrayVec::push` beyond `HUGE_OVERFLOW_CAPACITY`. -/
  | hugeFull
  /-- `unreachable!("free_head points to occupied slot")`. -/
  | freeHead
  /-- `assert!(exp & Self::RADIX_MASK == 0)`. -/
  | expTooLarge
  /-- A slice or array index out of range. -/
  | index
  /-- `unwrap` of an absent value in the get-or-create helpers. -/
  | unwrapNone
  /-- A recursion over a cyclic graph: the stack overflows. -/
  | stackOverflow
deriving DecidableEq, Repr

/-- A call of the crate: its result, or the panic that ends it. -/
abbrev Exec (α : Type) := Except Panic α

structure ExpAndRadix where
  inner : BitVec 64
deriving DecidableEq

namespace ExpAndRadix

def NO_EXPIRACY : BitVec 64 := 0x00FFFFFFFFFFFFFF#64

def RADIX_MASK : BitVec 64 := ~~~NO_EXPIRACY

def EXP_LENGTH : Nat := 56

def noExpiracy (parentRadix : UInt8) : ExpAndRadix :=
  ⟨(parentRadix.toBitVec.zeroExtend 64 <<< 56) ||| NO_EXPIRACY⟩

def exp (e : ExpAndRadix) : Option Nat :=
  let exp := e.inner &&& NO_EXPIRACY
  if exp = NO_EXPIRACY then none else some exp.toNat

def parentRadix (e : ExpAndRadix) : UInt8 :=
  UInt8.ofBitVec (((e.inner &&& RADIX_MASK) >>> EXP_LENGTH).truncate 8)

def doesExpire (e : ExpAndRadix) : Bool := e.inner &&& NO_EXPIRACY ≠ NO_EXPIRACY

/-- The `u64` argument `exp` is a natural number below `2 ^ 64`. -/
def setExp (e : ExpAndRadix) (exp : Nat) : Exec ExpAndRadix :=
  if BitVec.ofNat 64 exp &&& RADIX_MASK = 0 then .ok ⟨e.inner &&& RADIX_MASK ||| BitVec.ofNat 64 exp⟩
  else .error .expTooLarge

def setNoExpiracy (e : ExpAndRadix) : ExpAndRadix := ⟨e.inner ||| NO_EXPIRACY⟩

def new (exp : Nat) (parentRadix : UInt8) : Exec ExpAndRadix :=
  if BitVec.ofNat 64 exp &&& RADIX_MASK = 0 then
    .ok ⟨(parentRadix.toBitVec.zeroExtend 64 <<< EXP_LENGTH) ||| BitVec.ofNat 64 exp⟩
  else .error .expTooLarge

/-! ## The two parts do not disturb each other -/

/-- `NO_EXPIRACY` as an expiry argument. -/
def noExp : Nat := NO_EXPIRACY.toNat

theorem noExp_eq : noExp = 2 ^ 56 - 1 := by decide

theorem and_noExpiracy_toNat (x : BitVec 64) : (x &&& NO_EXPIRACY).toNat = x.toNat % 2 ^ 56 := by
  have mask : NO_EXPIRACY.toNat = 2 ^ 56 - 1 := by decide
  rw [BitVec.toNat_and, mask, Nat.and_two_pow_sub_one_eq_mod]

theorem noExpiracy_and_mask : NO_EXPIRACY &&& RADIX_MASK = 0#64 := by decide

theorem mask_and_noExpiracy : RADIX_MASK &&& NO_EXPIRACY = 0#64 := by decide

/-- The mask splits a word into its two parts. -/
theorem split_parts (x : BitVec 64) : x &&& NO_EXPIRACY ||| x &&& RADIX_MASK = x := by
  rw [RADIX_MASK, ← BitVec.and_or_distrib_left, BitVec.or_not_self, BitVec.and_allOnes]

theorem and_noExpiracy_eq_self {x : BitVec 64} : x &&& RADIX_MASK = 0#64 ↔ x &&& NO_EXPIRACY = x := by
  constructor
  · intro high
    have parts := split_parts x
    rwa [high, BitVec.or_zero] at parts
  · intro low
    rw [← low, BitVec.and_assoc, noExpiracy_and_mask, BitVec.and_zero]

/-- The assertion on an expiry holds exactly below `2 ^ 56`. -/
theorem and_mask_eq_zero {n : Nat} (word : n < 2 ^ 64) : BitVec.ofNat 64 n &&& RADIX_MASK = 0#64 ↔ n < 2 ^ 56 := by
  rw [and_noExpiracy_eq_self, ← BitVec.toNat_inj, and_noExpiracy_toNat, BitVec.toNat_ofNat, Nat.mod_eq_of_lt word]
  omega

theorem and_low {e x : BitVec 64} (high : x &&& RADIX_MASK = 0#64) :
    (e &&& RADIX_MASK ||| x) &&& NO_EXPIRACY = x := by
  rw [BitVec.and_or_distrib_right, and_noExpiracy_eq_self.1 high, BitVec.and_assoc,
    mask_and_noExpiracy, BitVec.and_zero, BitVec.zero_or]

theorem and_high {e x : BitVec 64} (high : x &&& RADIX_MASK = 0#64) :
    (e &&& RADIX_MASK ||| x) &&& RADIX_MASK = e &&& RADIX_MASK := by
  rw [BitVec.and_or_distrib_right, high, BitVec.or_zero, BitVec.and_assoc, BitVec.and_self]

theorem radix_low (r : BitVec 8) : (r.zeroExtend 64 <<< 56) &&& NO_EXPIRACY = 0#64 := by
  revert r; decide

theorem radix_high (r : BitVec 8) : (((r.zeroExtend 64 <<< 56) &&& RADIX_MASK) >>> 56).truncate 8 = r := by
  revert r; decide

/-- A radix part is its own high part. -/
theorem radix_mask (r : BitVec 8) : (r.zeroExtend 64 <<< 56) &&& RADIX_MASK = r.zeroExtend 64 <<< 56 := by
  have parts := split_parts (r.zeroExtend 64 <<< 56)
  rwa [radix_low, BitVec.zero_or] at parts

theorem exp_of_low {e : ExpAndRadix} {n : Nat} (small : n < 2 ^ 56)
    (low : e.inner &&& NO_EXPIRACY = BitVec.ofNat 64 n) : e.exp = if n = noExp then none else some n := by
  have number : (BitVec.ofNat 64 n).toNat = n := by rw [BitVec.toNat_ofNat]; omega
  have top : BitVec.ofNat 64 n = NO_EXPIRACY ↔ n = noExp := by
    rw [← BitVec.toNat_inj, number]
    rfl
  simp only [exp, low, top, number]

@[simp] theorem exp_noExpiracy (r : UInt8) : (noExpiracy r).exp = none := by
  have low : (noExpiracy r).inner &&& NO_EXPIRACY = NO_EXPIRACY := by
    rw [noExpiracy, BitVec.and_or_distrib_right, radix_low, BitVec.zero_or, BitVec.and_self]
  simp [exp, low]

@[simp] theorem parentRadix_noExpiracy (r : UInt8) : (noExpiracy r).parentRadix = r := by
  have high : (noExpiracy r).inner &&& RADIX_MASK = (r.toBitVec.zeroExtend 64 <<< 56) &&& RADIX_MASK := by
    rw [noExpiracy, BitVec.and_or_distrib_right, noExpiracy_and_mask, BitVec.or_zero]
  rw [parentRadix, high, EXP_LENGTH, radix_high]

@[simp] theorem exp_setNoExpiracy (e : ExpAndRadix) : e.setNoExpiracy.exp = none := by
  have low : e.setNoExpiracy.inner &&& NO_EXPIRACY = NO_EXPIRACY := by
    apply BitVec.eq_of_getLsbD_eq
    intro i _
    simp only [setNoExpiracy, BitVec.getLsbD_and, BitVec.getLsbD_or]
    cases e.inner.getLsbD i <;> simp
  simp [exp, low]

theorem doesExpire_eq (e : ExpAndRadix) : e.doesExpire = e.exp.isSome := by
  simp only [doesExpire, exp]
  split <;> simp_all

/-- `set_exp` succeeds below `2 ^ 56` and changes the expiry only. -/
theorem setExp_ok (e : ExpAndRadix) {n : Nat} (small : n < 2 ^ 56) :
    ∃ e', e.setExp n = .ok e' ∧ e'.exp = (if n = noExp then none else some n) ∧ e'.parentRadix = e.parentRadix := by
  have high := (and_mask_eq_zero (by omega : n < 2 ^ 64)).2 small
  refine ⟨_, if_pos high, exp_of_low small (and_low high), ?_⟩
  simp only [parentRadix, and_high high]

/-- `new` succeeds below `2 ^ 56` and stores both parts. -/
theorem new_ok {n : Nat} (small : n < 2 ^ 56) (r : UInt8) :
    ∃ e, new n r = .ok e ∧ e.exp = (if n = noExp then none else some n) ∧ e.parentRadix = r := by
  have high := (and_mask_eq_zero (by omega : n < 2 ^ 64)).2 small
  have same : (r.toBitVec.zeroExtend 64 <<< EXP_LENGTH) ||| BitVec.ofNat 64 n =
      (r.toBitVec.zeroExtend 64 <<< 56) &&& RADIX_MASK ||| BitVec.ofNat 64 n := by rw [radix_mask]; rfl
  refine ⟨_, if_pos high, exp_of_low small ?_, ?_⟩
  · rw [same, and_low high]
  · rw [parentRadix, same, and_high high, EXP_LENGTH, radix_high]

end ExpAndRadix

end Radixox.Oxidart
