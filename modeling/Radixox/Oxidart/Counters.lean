import Radixox.Oxidart.EmptyKey

/-!
# Counters

`incrby` adds in place with a checked addition. `decrby` is `incrby` with the negated delta, and the negation wraps: the least
delta is its own negation.
-/

namespace Radixox.Oxidart
set_option autoImplicit false

/-! ## Arithmetic -/

/-- The integers of `i64`. -/
def FitsI64 (n : Int) : Prop := -2 ^ 63 ≤ n ∧ n < 2 ^ 63

instance (n : Int) : Decidable (FitsI64 n) := inferInstanceAs (Decidable (_ ∧ _))

theorem checkedAdd_eq_some {a b : Int64} (fits : FitsI64 (a.toInt + b.toInt)) :
    ∃ n, checkedAdd a b = some n ∧ n.toInt = a.toInt + b.toInt :=
  ⟨_, if_pos fits, Int64.toInt_ofInt_of_le fits.1 fits.2⟩

theorem checkedAdd_eq_none {a b : Int64} (large : ¬ FitsI64 (a.toInt + b.toInt)) : checkedAdd a b = none := if_neg large

/-- The negation is exact except at the least integer. -/
theorem toInt_neg_eq {d : Int64} (inner : d ≠ Int64.minValue) : (-d).toInt = -d.toInt := by
  have low := Int64.le_toInt d
  have high := Int64.toInt_lt d
  have differ : d.toInt ≠ -2 ^ 63 := fun same => inner (Int64.toInt_inj.1 (same.trans Int64.toInt_minValue.symm))
  rw [Int64.toInt_neg]
  exact Int.bmod_eq_of_le (by omega) (by omega)

theorem neg_minValue : -Int64.minValue = Int64.minValue := by decide

namespace Value

variable {S : Type} [Score S]

/-- The integer that a value denotes. -/
def denotes : Value S → Option Int64
  | int n => some n
  | string bytes => parseI64 bytes
  | _ => none

theorem incr_eq (v : Value S) (delta : Int64) : v.incr delta = match v.denotes with
    | none => .error .notAnInteger
    | some n => match checkedAdd n delta with
      | some sum => .ok sum
      | none => .error .overflow := by
  unfold incr denotes
  cases v with
  | string bytes =>
    simp only [bind, Except.bind]
    cases parseI64 bytes <;> rfl
  | _ => rfl

end Value

/-! ## The operations -/

/-- The operations of `counter.rs`. -/
inductive CounterOp where
  | incr
  | decr
  | incrby (delta : Int64)
  | decrby (delta : Int64)
deriving DecidableEq

/-- The integer that is asked for. -/
def CounterOp.on (v : Int) : CounterOp → Int
  | .incr => v + 1
  | .decr => v - 1
  | .incrby delta => v + delta.toInt
  | .decrby delta => v - delta.toInt

namespace OxidArt

variable {P : Policy} {S : Type} [Score S] {st : OxidArt P (Value S)} {path : Nat → Option Bytes} {key : Bytes}

/-- Increments the integer value of a key by 1. -/
def incr (st : OxidArt P (Value S)) (key : Bytes) : Exec (Except IntError Int64 × OxidArt P (Value S)) := st.incrby key 1

/-- Decrements the integer value of a key by 1. -/
def decr (st : OxidArt P (Value S)) (key : Bytes) : Exec (Except IntError Int64 × OxidArt P (Value S)) := st.incrby key (-1)

/-- `wrapping_neg` is the negation of the fixed-width type. -/
def decrby (st : OxidArt P (Value S)) (key : Bytes) (delta : Int64) : Exec (Except IntError Int64 × OxidArt P (Value S)) :=
  st.incrby key (-delta)

def execCounter (st : OxidArt P (Value S)) (key : Bytes) : CounterOp → Exec (Except IntError Int64 × OxidArt P (Value S))
  | .incr => st.incr key
  | .decr => st.decr key
  | .incrby delta => st.incrby key delta
  | .decrby delta => st.decrby key delta

/-- The integer under the key: 0 if it is not live, nothing if it holds no integer. -/
def counterOf (st : OxidArt P (Value S)) (key : Bytes) : Option Int64 := (st.live key).elim (some 0) fun c => c.1.denotes

/-- The operation stores and returns the exact result under the old lifetime, or refuses and changes nothing. -/
def Counts (st : OxidArt P (Value S)) (key : Bytes) (op : CounterOp) : Prop :=
  match st.counterOf key with
  | none => st.execCounter key op = .ok (.error .notAnInteger, st)
  | some v =>
    if FitsI64 (op.on v.toInt) then
      ∃ n st', st.execCounter key op = .ok (.ok n, st') ∧ n.toInt = op.on v.toInt ∧
        st'.live key = some (.int n, (st.live key).bind Prod.snd)
    else st.execCounter key op = .ok (.error .overflow, st)

/-- `incrby` is exact for every delta. -/
theorem incrby_counts (I : Inv st [] path) (bytes : st.live key = none → KeyOk key) (delta : Int64) :
    Counts st key (.incrby delta) := by
  unfold Counts counterOf
  cases live : st.live key with
  | none =>
    have small : FitsI64 (CounterOp.on (0 : Int64).toInt (.incrby delta)) := by
      have low := Int64.le_toInt delta
      have high := Int64.toInt_lt delta
      constructor <;> simp only [CounterOp.on, Int64.toInt_zero] <;> omega
    obtain ⟨st', path', run, step, entries⟩ := incrby_ok I (fun _ => True) (bytes live) delta
    rw [live] at run entries
    dsimp only at run entries
    simp only [Option.elim_none, if_pos small]
    refine ⟨delta, st', run, by simp [CounterOp.on], ?_⟩
    rw [OxidArt.live, entries, Function.update_self]
    rfl
  | some held =>
    obtain ⟨w, e'⟩ := held
    rcases incrby_cases I key delta with ⟨dead, -⟩ | ⟨i, v, e, H, run⟩
    · cases dead.symm.trans live
    obtain ⟨rfl, rfl⟩ := Prod.mk.inj (Option.some.inj ((H.live I).symm.trans live))
    rw [Value.incr_eq] at run
    simp only [Option.elim_some]
    cases number : v.denotes with
    | none =>
      rw [number] at run
      exact run
    | some n =>
      rw [number] at run
      dsimp only at run ⊢
      split
      next fits =>
        obtain ⟨sum, added, exact'⟩ := checkedAdd_eq_some fits
        obtain ⟨st', put, step, -, entries⟩ := putVal_holds I (fun _ => True) H (.int sum)
        simp only [added, put] at run
        refine ⟨sum, st', run, exact', ?_⟩
        rw [OxidArt.live, entries, Function.update_self, step.stays.now, liveAt, Option.filter_some_pos (by simp [H.current])]
        rfl
      next large =>
        simp only [checkedAdd_eq_none large] at run
        exact run

/-- What a counter that holds a number answers to the least delta is never the difference. -/
theorem decrby_minValue_miscounts (I : Inv st [] path) (bytes : st.live key = none → KeyOk key) {v : Int64}
    (number : st.counterOf key = some v) : ¬ Counts st key (.decrby Int64.minValue) := by
  have added := incrby_counts I bytes Int64.minValue
  have same : st.execCounter key (.decrby Int64.minValue) = st.execCounter key (.incrby Int64.minValue) := by
    rw [execCounter, execCounter, decrby, neg_minValue]
  have low := Int64.le_toInt v
  have high := Int64.toInt_lt v
  intro honest
  unfold Counts at honest added
  rw [number] at honest added
  simp only [same, CounterOp.on, Int64.toInt_minValue, FitsI64] at honest added
  -- Exactly one of the difference and the sum fits.
  by_cases negative : v.toInt < 0
  · rw [if_pos (by omega)] at honest
    rw [if_neg (by omega)] at added
    obtain ⟨n, st', ran, -⟩ := honest
    rw [added] at ran
    cases ran
  · rw [if_neg (by omega)] at honest
    rw [if_pos (by omega)] at added
    obtain ⟨n, st', ran, -⟩ := added
    rw [honest] at ran
    cases ran

/-- Counters are exact, except that the least integer cannot be subtracted from a number. -/
theorem counts_iff {order : HashOrder} (reached : Reachable order st) (bytes : st.live key = none → KeyOk key) (op : CounterOp) :
    Counts st key op ↔ op ≠ .decrby Int64.minValue ∨ st.counterOf key = none := by
  obtain ⟨path, I⟩ := reached.isSound
  cases op with
  | incr => exact ⟨fun _ => .inl (by simp), fun _ => incrby_counts I bytes 1⟩
  | decr => exact ⟨fun _ => .inl (by simp), fun _ => incrby_counts I bytes (-1)⟩
  | incrby delta => exact ⟨fun _ => .inl (by simp), fun _ => incrby_counts I bytes delta⟩
  | decrby delta =>
    by_cases least : delta = Int64.minValue
    · subst least
      cases number : st.counterOf key with
      | some v => simpa using decrby_minValue_miscounts I bytes number
      | none =>
        have refused := incrby_counts I bytes (-Int64.minValue)
        simp only [Counts, number] at refused
        simp only [or_true, iff_true, Counts, number]
        exact refused
    · refine ⟨fun _ => .inl (by simpa using least), fun _ => ?_⟩
      have added := incrby_counts I bytes (-delta)
      have difference : ∀ v, CounterOp.on v (.incrby (-delta)) = CounterOp.on v (.decrby delta) := by
        intro v
        simp only [CounterOp.on, toInt_neg_eq least]
        omega
      simp only [Counts, difference] at added
      exact added

/-- A counter with a lifetime. -/
theorem counts_iff_lifetime : ∃ replies st,
    Runs.run (exec .stored) [.tree (.setTtl [97] 60 (.string [52, 49]))] (new : OxidArt .lowest (Value Int)) = .ok (replies, st) ∧
    Counts st [97] (.decrby (-1)) := by
  have sound : Runs.Meets (exec .stored) (fun st c => c.Sound st) [.tree (.setTtl [97] 60 (.string [52, 49]))]
    (new : OxidArt .lowest (Value Int)) := by decide +kernel
  exact ⟨_, _, rfl, (counts_iff (.run .refl sound rfl) (fun dead => by cases dead) _).2 (.inl (by decide))⟩

/-- Subtracting the least integer from an absent counter gives the least integer. -/
theorem decrby_least_wraps : ∃ st', (new : OxidArt .lowest (Value Int)).decrby [97] Int64.minValue = .ok (.ok Int64.minValue, st') ∧
    Reachable .stored (new : OxidArt .lowest (Value Int)) ∧
    ¬ Counts (new : OxidArt .lowest (Value Int)) [97] (.decrby Int64.minValue) := by
  refine ⟨_, rfl, .refl, fun honest => ?_⟩
  have refused : (new : OxidArt .lowest (Value Int)).decrby [97] Int64.minValue = .ok (.error .overflow, new) := honest
  cases refused

end OxidArt

end Radixox.Oxidart
