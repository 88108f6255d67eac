import Mathlib.Algebra.Group.Nat.Defs
import Mathlib.Tactic.Common

/-!
# Little-endian numbers

A number in a fixed count of bytes, least significant first, and the number that bytes stand for.
-/

namespace Radixox.LittleEndian
set_option autoImplicit false

/-- The low `w` bytes of a number. -/
def bytes : Nat → Nat → List UInt8
  | 0, _ => []
  | w + 1, n => UInt8.ofNat n :: bytes w (n / 256)

def number : List UInt8 → Nat
  | [] => 0
  | b :: rest => b.toNat + 256 * number rest

theorem length_bytes (w : Nat) : ∀ n, (bytes w n).length = w := by
  induction w with
  | zero => exact fun _ => rfl
  | succ w ih => exact fun n => congrArg Nat.succ (ih (n / 256))

theorem number_bytes (w : Nat) : ∀ {n : Nat}, n < 256 ^ w → number (bytes w n) = n := by
  induction w with
  | zero =>
    intro n small
    exact (Nat.lt_one_iff.1 small).symm
  | succ w ih =>
    intro n small
    rw [bytes, number, UInt8.toNat_ofNat', ih (by rw [Nat.pow_succ] at small; omega)]
    omega

end Radixox.LittleEndian
