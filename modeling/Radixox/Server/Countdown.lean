import Radixox.Oxidart.Frames
import Radixox.Server.Lifetimes

/-!
# Counting down

`TTL` and `PTTL` subtract the clock from the expiry that the node of the key stores. `PTTL` multiplies the difference by
1000, in 64 bits, and reads the product as a signed number.
-/

namespace Radixox.Server.Resp
set_option autoImplicit false

open Radixox.Oxidart Radixox.Oxidart.OxidArt Radixox.Runs

section Data

variable {P : Policy} {S : Type} [Score S] {order : HashOrder} {st : OxidArt P (Value S)} {key : SharedByte}

/-- The answers to `TTL` and `PTTL` are the time that is left until `last`. -/
def CountsDown (st : OxidArt P (Value S)) (key : SharedByte) (last : Nat) : Prop :=
  ∃ secs millis : Int64, cmdTtl [key] st = .ok (.integer secs, st) ∧ cmdPttl [key] st = .ok (.integer millis, st) ∧
    secs.toInt = (last : Int) - st.now ∧ millis.toInt = 1000 * ((last : Int) - st.now)

theorem toInt_ofNat_small {n : Nat} (small : n < 2 ^ 63) : (Int64.ofNat n).toInt = n := Int64.toInt_ofNat_of_lt small

/-- What a key with an expiry is answered. -/
theorem timeToLive_of_entry (sound : IsSound st) {v : Value S} {last : Nat} (held : st.entry key = some (v, some last))
    (current : st.now ≤ last) (name : String) (unit : Nat) :
    timeToLive name unit [key] st = .ok (integer ((last - st.now) * unit % 2 ^ 64), st) := by
  have status : st.getTtl key = .ok (.keyWithTtl (last - st.now)) := by
    cases target : st.traverseToKey key with
    | none =>
      rw [entry_of_traverse_none target] at held
      cases held
    | some i =>
      obtain ⟨n, here⟩ := sound.rooted.occupied target
      rw [here.entry] at held
      obtain ⟨w, -, same⟩ := Option.map_eq_some_iff.1 held
      have exp : n.expAndRadix.exp = some last := (Prod.mk.inj same).2
      have fresh : n.isExpired st.now = false := by
        rw [Node.isExpired_eq, exp, expired, Option.any_some, decide_eq_false_iff_not]
        omega
      rw [here.getTtl, fresh, if_neg Bool.false_ne_true, exp]
  simp only [timeToLive, status, bind, Except.bind]
  rfl

/-- An expiry of the field is counted down exactly as long as its milliseconds fit the answer. -/
theorem countsDown_iff (sound : IsSound st) {v : Value S} {last : Nat} (held : st.entry key = some (v, some last))
    (current : st.now ≤ last) (fits : last < 2 ^ 56) : CountsDown st key last ↔ 1000 * (last - st.now) < 2 ^ 63 := by
  have ttl : cmdTtl [key] st = .ok (.integer (Int64.ofNat (last - st.now)), st) := by
    rw [cmdTtl, timeToLive_of_entry sound held current, Nat.mul_one, Nat.mod_eq_of_lt (by omega)]
    rfl
  have pttl : cmdPttl [key] st = .ok (.integer (Int64.ofNat ((last - st.now) * 1000 % 2 ^ 64)), st) :=
    timeToLive_of_entry sound held current "PTTL" 1000
  constructor
  · rintro ⟨secs, millis, -, answered, -, exact'⟩
    have bound := Int64.toInt_lt millis
    omega
  · intro small
    refine ⟨_, _, ttl, pttl, ?_, ?_⟩
    · rw [toInt_ofNat_small (by omega)]
      omega
    · rw [Nat.mod_eq_of_lt (by omega), toInt_ofNat_small (by omega)]
      omega

/-- Set with a lifetime that fits the field, a key counts down through every run of commands on other keys, exactly as long as
the milliseconds that are left fit the answer. -/
theorem run_countsDown_iff (reached : Reachable order st) (bytes : KeyOk key) (v : Value S) {d : Nat}
    (fits : st.now + d < 2 ^ 56 - 1) :
    ∃ st₁, st.setTtl key d v = .ok st₁ ∧ ∀ st', Reaches (exec order) (fun s c => c.Elsewhere key (st.now + d) s) st₁ st' →
      (CountsDown st' key (st.now + d) ↔ 1000 * (st.now + d - st'.now) < 2 ^ 63) := by
  obtain ⟨path, I⟩ := reached.isSound
  have sum := saturatingAdd_eq fits
  obtain ⟨st₁, path₁, run, step, entries⟩ := setInternal_ok I (fun _ => True) bytes
    (show saturatingAdd st.now d < 2 ^ 56 by omega) v
  refine ⟨st₁, run, fun st' later => ?_⟩
  have held : st₁.entry key = some (v, some (st.now + d)) := by
    rw [entries, Function.update_self, sum, expOf_eq fits]
  have current : st₁.now ≤ st.now + d := by rw [step.stays.now]; omega
  obtain ⟨sound', held', current'⟩ := run_outlasts step.keeps.isSound held current later
  exact countsDown_iff sound' held' current' (by omega)

end Data

/-- Twenty seconds later, with a key written below, forty are left. -/
theorem run_countsDown_iff_minute : ∃ st₁ replies st',
    (new : OxidArt .lowest (Value Int)).setTtl (ascii "k") 60 (.int 1) = .ok st₁ ∧
    run (exec .stored) [.tree (.set (ascii "ka") (.int 2)), .tree (.setNow 20)] st₁ = .ok (replies, st') ∧
    CountsDown st' (ascii "k") 60 := by
  have bytes : KeyOk (ascii "k") := by decide +kernel
  obtain ⟨st₁, set, counts⟩ := @run_countsDown_iff .lowest Int _ .stored _ _ .refl bytes (.int 1) _
    (show (new : OxidArt .lowest (Value Int)).now + 60 < 2 ^ 56 - 1 by decide)
  obtain rfl := Except.ok.inj set
  refine ⟨_, _, _, rfl, rfl, (counts _ ?_).2 (by decide +kernel)⟩
  refine .run .refl (show Meets (exec .stored) (fun s c => Command.Elsewhere (ascii "k") 60 s c)
    [.tree (.set (ascii "ka") (.int 2)), .tree (.setNow 20)] _ from .cons ?_ fun _ _ _ => .cons ?_ fun _ _ _ => trivial) rfl
  · exact ⟨show KeyOk (ascii "ka") by decide +kernel, fun h => absurd h (fun h => h), show ascii "ka" ≠ ascii "k" by decide +kernel,
      by decide +kernel⟩
  · exact ⟨trivial, fun h => absurd h (fun h => h), fun h => h, show 20 ≤ 60 by decide⟩

/-- A lifetime that the field holds, and that `PTTL` answers with a negative number. -/
theorem pttl_wraps : ∃ st₁, (new : OxidArt .lowest (Value Int)).setTtl (ascii "k") (2 ^ 55) (.int 1) = .ok st₁ ∧
    cmdTtl [ascii "k"] st₁ = .ok (.integer 36028797018963968, st₁) ∧
    cmdPttl [ascii "k"] st₁ = .ok (.integer (-864691128455135232), st₁) ∧ ¬ CountsDown st₁ (ascii "k") (2 ^ 55) := by
  refine ⟨_, rfl, by rfl, by rfl, ?_⟩
  rintro ⟨secs, millis, -, -, -, exact'⟩
  have bound := Int64.toInt_lt millis
  rw [exact'] at bound
  revert bound
  decide +kernel

end Radixox.Server.Resp
