import Radixox.Oxidart.Deadlines
import Radixox.Oxidart.TypedReference

/-!
# Ranges of ranks

`ZRANGE` brings both indexes into the list before it compares them. A negative index before the first member becomes 0, which
is right for `start`; for `stop` it makes a range that ends before the list end at its first member.
-/

namespace Radixox.Oxidart
set_option autoImplicit false
open Radixox.Runs

namespace OxidArt

/-! ## The arithmetic -/

/-- An `i64`, or nothing where the operation overflows. -/
def asI64 (n : Int) : Option Int := if -2 ^ 63 ≤ n ∧ n < 2 ^ 63 then some n else none

/-- A `usize`, or nothing where the operation overflows. -/
def asUsize (n : Int) : Option Nat := if 0 ≤ n ∧ n < 2 ^ 64 then some n.toNat else none

/-- The normalisation of `start`. -/
def startChecked (len : Int) (start : Int64) : Option Nat :=
  if start.toInt < 0 then (asI64 (len + start.toInt)).bind fun sum => asUsize (max sum 0) else asUsize (min start.toInt len)

/-- The normalisation of `stop`. -/
def stopChecked (len : Int) (stop : Int64) : Option Nat :=
  if stop.toInt < 0 then (asI64 (len + stop.toInt)).bind fun sum => asUsize (max sum 0)
  else (asI64 (len - 1)).bind fun last => asUsize (min stop.toInt last)

/-- The arguments of `skip` and `take`; none for an empty range. -/
def spanChecked (start stop : Nat) : Option (Option (Nat × Nat)) :=
  if start > stop then some none
  else (asUsize ((stop : Int) - start)).bind fun span => (asUsize ((span : Int) + 1)).map fun count => some (start, count)

/-- The bounds of `cmd_zrange` with every operation checked. -/
def zrangeChecked (len : Nat) (start stop : Int64) : Option (Option (Nat × Nat)) := do
  let len ← asI64 len
  if len = 0 then return none
  let start ← startChecked len start
  let stop ← stopChecked len stop
  spanChecked start stop

theorem asI64_eq {n : Int} (low : -2 ^ 63 ≤ n) (high : n < 2 ^ 63) : asI64 n = some n := if_pos ⟨low, high⟩

theorem asUsize_eq {n : Int} (low : 0 ≤ n) (high : n < 2 ^ 64) : asUsize n = some n.toNat := if_pos ⟨low, high⟩

theorem startChecked_eq {len : Nat} (fits : len < 2 ^ 63) (start : Int64) : startChecked len start =
    some (if start.toInt < 0 then (max (len + start.toInt) 0).toNat else (min start.toInt len).toNat) := by
  have low := Int64.le_toInt start
  have high := Int64.toInt_lt start
  unfold startChecked
  split
  · rw [asI64_eq (by omega) (by omega), Option.bind_some]
    exact asUsize_eq (by omega) (by omega)
  · exact asUsize_eq (by omega) (by omega)

theorem stopChecked_eq {len : Nat} (some' : len ≠ 0) (fits : len < 2 ^ 63) (stop : Int64) : stopChecked len stop =
    some (if stop.toInt < 0 then (max (len + stop.toInt) 0).toNat else (min stop.toInt (len - 1)).toNat) := by
  have low := Int64.le_toInt stop
  have high := Int64.toInt_lt stop
  unfold stopChecked
  split
  · rw [asI64_eq (by omega) (by omega), Option.bind_some]
    exact asUsize_eq (by omega) (by omega)
  · rw [asI64_eq (by omega) (by omega), Option.bind_some]
    exact asUsize_eq (by omega) (by omega)

theorem spanChecked_eq {start stop : Nat} (bound : stop < 2 ^ 63) : spanChecked start stop =
    some ((if start > stop then none else some (start, stop)).map fun p => (p.1, p.2 - p.1 + 1)) := by
  unfold spanChecked
  split
  · rfl
  next some' =>
    have count : ((((stop : Int) - start).toNat : Int) + 1).toNat = stop - start + 1 := by omega
    rw [asUsize_eq (by omega) (by omega), Option.bind_some, asUsize_eq (by omega) (by omega), count, Option.map_some, Option.map_some]

/-- No operation overflows for a length that a collection can have. -/
theorem zrangeChecked_eq {len : Nat} (fits : len < 2 ^ 63) (start stop : Int64) :
    zrangeChecked len start stop = some ((zrangeBounds len start stop).map fun p => (p.1, p.2 - p.1 + 1)) := by
  unfold zrangeChecked zrangeBounds
  rw [asI64_eq (by omega) (by omega)]
  by_cases none' : len = 0
  · subst none'
    rfl
  · have some' : ¬ (len : Int) = 0 := by omega
    have bound : (if stop.toInt < 0 then (max (len + stop.toInt) 0).toNat else (min stop.toInt (len - 1)).toNat) < 2 ^ 63 := by
      split <;> omega
    simp only [startChecked_eq fits, stopChecked_eq none' fits, if_neg none', if_neg some', Option.bind_eq_bind, Option.bind_some]
    exact spanChecked_eq bound

/-! ## The members of a range -/

section Typed

variable {P : Policy} {S : Type} [Score S] {order : HashOrder} {st : OxidArt P (Value S)} {key : Bytes}

/-- What a read of a live key answers. -/
theorem readAs_live {C α : Type} (rooted : st.Rooted) {v : Value S} {e : Option Nat} (live : st.live key = some (v, e))
    (view : Value S → Except RedisType C) (absent : α) (read : C → α) :
    st.readAs key view absent read = .ok ((view v).map read, st) := by
  obtain ⟨i, n, here, current, held⟩ := rooted.at_of_live live
  simp only [readAs, here.getMut current, held, bind, Except.bind]
  rfl

/-- `ZRANGE` answers exactly the members at the positions of the range, in ascending order, unless the range ends before the
first member and does not start behind it; and no operation on the indexes overflows. -/
theorem cmdZrange_iff (reached : Reachable order st) {z : InnerZCommand S} {e : Option Nat}
    (live : st.live key = some (.zset z, e)) (ok : z.Ok) {ranked : List (ZItem S)} (ranks : Ranks ranked z.score)
    (start stop : Int64) (withScores : Bool) :
    (replyOf (st.cmdZrange key start stop withScores) = .ok (.ok (listed (between ranked start stop) withScores)) ↔
      RangeOk ranked.length start stop) ∧
    (ranked.length < 2 ^ 63 → zrangeChecked ranked.length start stop =
      some ((zrangeBounds z.len start stop).map fun p => (p.1, p.2 - p.1 + 1))) := by
  obtain rfl := ranks_unique ranks (InnerZCommand.ranks_iter ok)
  have answer : replyOf (st.cmdZrange key start stop withScores) = .ok (.ok (zrangeItems z start stop withScores)) := by
    rw [cmdZrange, readAs_live reached.isSound.rooted live]
    rfl
  rw [answer, Except.ok.injEq, Except.ok.injEq, ← InnerZCommand.len_eq ok]
  exact ⟨zrangeItems_iff ok start stop withScores, fun fits => zrangeChecked_eq fits start stop⟩

end Typed

/-- The last two of three members. -/
theorem cmdZrange_iff_lastTwo : ∃ replies st,
    run (exec .stored) [.zadd [122] [(3, [99]), (1, [97]), (2, [98])] none] (new : OxidArt .lowest (Value Int)) = .ok (replies, st) ∧
    replyOf (st.cmdZrange [122] (-2) (-1) false) = .ok (.ok [[98], [99]]) := by
  have sound : Meets (exec .stored) (fun st c => c.Sound st) [.zadd [122] [(3, [99]), (1, [97]), (2, [98])] none]
    (new : OxidArt .lowest (Value Int)) := by decide +kernel
  have ok : (InnerZCommand.small [.mk 1 [97], .mk 2 [98], .mk 3 [99]] : InnerZCommand Int).Ok :=
    show List.Pairwise (· < ·) _ ∧ (List.map ZItem.member _).Nodup by decide +kernel
  have items : listed (between [ZItem.mk (1 : Int) [97], .mk 2 [98], .mk 3 [99]] (-2) (-1)) false = [[98], [99]] := by decide +kernel
  rw [← items]
  exact ⟨_, _, rfl, (cmdZrange_iff (.run .refl sound rfl) rfl ok (InnerZCommand.ranks_iter ok) (-2) (-1) false).1.2 (by decide +kernel)⟩

/-- Three members, and a range that ends before the first of them. -/
theorem zrange_early_stop : ∃ replies st,
    run (exec .stored) [.zadd [122] [(3, [99]), (1, [97]), (2, [98])] none] (new : OxidArt .lowest (Value Int)) = .ok (replies, st) ∧
    st.live [122] = some (.zset (.small [.mk 1 [97], .mk 2 [98], .mk 3 [99]]), none) ∧
    replyOf (st.cmdZrange [122] 0 (-10) false) = .ok (.ok [[97]]) ∧
    listed (between [ZItem.mk (1 : Int) [97], .mk 2 [98], .mk 3 [99]] 0 (-10)) false = [] := by
  refine ⟨_, _, rfl, rfl, by rfl, by decide +kernel⟩

end OxidArt

end Radixox.Oxidart
