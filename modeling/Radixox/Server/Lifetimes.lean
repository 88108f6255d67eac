import Radixox.Oxidart.EmptyKey
import Radixox.Oxidart.Horizon
import Radixox.Server.DataCommands

/-!
# Lifetimes

`SET EX`, `SET PX`, `SETEX`, `EXPIRE` and `PEXPIRE` turn a number into an expiry: the clock plus whole
seconds, saturated at 64 bits, stored in 56. Above the field the write panics, and
the largest value of the field means that the key never expires.
-/

namespace Radixox.Server.Resp
set_option autoImplicit false

open Radixox.Oxidart Radixox.Oxidart.OxidArt Radixox.Outcomes Radixox.Runs

/-! ## The requests -/

/-- A request that gives a lifetime: `SET` with `EX` or `PX` and `SETEX`, or `EXPIRE` and `PEXPIRE`. -/
inductive TtlRequest where
  | set (key val : SharedByte) (secs : Nat) (condition : SetCondition)
  | expire (key : SharedByte) (secs : Nat)

/-- Whether the old value lets the `SET` go on. -/
def SetCondition.meets : SetCondition → Bool → Bool
  | .always, _ => true
  | .ifNotExists, old => !old
  | .ifExists, old => old

namespace TtlRequest

/-- The request behind a handler and its arguments, in whole seconds. -/
def parse : DataFn → List SharedByte → Option TtlRequest
  | .cmdSet, key :: val :: options => match parseSetOptions options with
    | .ok ⟨some duration, condition⟩ => some (.set key val duration.asSecs condition)
    | _ => none
  | .cmdSetex, key :: secs :: val :: _ => (parseU64 secs).map fun secs => .set key val (Duration.fromSecs secs).asSecs .always
  | .cmdExpire, key :: secs :: _ => (parseU64 secs).map fun secs => .expire key (Duration.fromSecs secs).asSecs
  | .cmdPexpire, key :: ms :: _ => (parseU64 ms).map fun ms => .expire key (Duration.fromMillis ms).asSecs
  | _, _ => none

def key : TtlRequest → SharedByte
  | .set key .. | .expire key _ => key

def secs : TtlRequest → Nat
  | .set _ _ secs _ | .expire _ secs => secs

section Data

variable {P : Policy} {S : Type} [Score S]

/-- What the handlers do with the request. -/
def run : TtlRequest → OxidArt P (Value S) → Answer P S
  | .set key val secs condition, st =>
    if condition = .always then do return (respOk, ← st.setTtl key secs (.string val))
    else do
      let (old, st) ← st.get key
      if condition.meets old.isSome then return (respOk, ← st.setTtl key secs (.string val)) else return (.null, st)
  | .expire key secs, st => answer boolean (st.expire key secs)

theorem run_of_parse {lib : Library S} {f : DataFn} {args : List SharedByte} {r : TtlRequest} (parsed : parse f args = some r)
    (st : OxidArt P (Value S)) : f.run lib args st = r.run st := by
  unfold parse at parsed
  split at parsed
  next key val options =>
    split at parsed
    next duration condition options' =>
      obtain rfl := Option.some.inj parsed
      simp only [DataFn.run, cmdSet, options', run, setWith]
      split
      · rfl
      next conditional =>
        cases st.get key with
        | error e => rfl
        | ok p =>
          obtain ⟨old, st'⟩ := p
          cases condition with
          | always => exact absurd rfl conditional
          | ifNotExists => cases old <;> rfl
          | ifExists => cases old <;> rfl
    · cases parsed
  next key secs val rest =>
    obtain ⟨n, number, rfl⟩ := Option.map_eq_some_iff.1 parsed
    simp only [DataFn.run, cmdSetex, number, run, if_true]
  next key secs rest =>
    obtain ⟨n, number, rfl⟩ := Option.map_eq_some_iff.1 parsed
    simp only [DataFn.run, cmdExpire, expireIn, number, run]
  next key ms rest =>
    obtain ⟨n, number, rfl⟩ := Option.map_eq_some_iff.1 parsed
    simp only [DataFn.run, cmdPexpire, expireIn, number, run]
  · cases parsed

/-- A `SET` links no byte 0. -/
def Storable : TtlRequest → Prop
  | .set key .. => KeyOk key
  | .expire .. => True

/-- The request gets as far as writing an expiry. -/
def Writes (st : OxidArt P (Value S)) : TtlRequest → Prop
  | .set key _ _ condition => condition.meets (st.live key).isSome = true
  | .expire key _ => st.Expirable key

/-- A written expiry is reported as a success; `EXPIRE` does so only for a key that had none. -/
def Reports (st : OxidArt P (Value S)) : TtlRequest → Prop
  | .set .. => True
  | .expire key _ => st.keyExp key = none

/-- The answer comes, and a success means that the key expires after the seconds asked for. -/
def Honest (st : OxidArt P (Value S)) (r : TtlRequest) (run : Answer P S) : Prop :=
  ∃ reply st', run = .ok (reply, st') ∧
    (reply = respOk ∨ reply = .integer 1 → st'.keyExp r.key = some (st.now + r.secs))

variable {st : OxidArt P (Value S)} {path : Nat → Option Bytes} {r : TtlRequest}

theorem expOf_sum_iff {now secs : Nat} (small : saturatingAdd now secs < 2 ^ 56) :
    expOf (saturatingAdd now secs) = some (now + secs) ↔ now + secs < 2 ^ 56 - 1 := by
  have sum : saturatingAdd now secs = now + secs := by
    unfold saturatingAdd at small ⊢
    omega
  unfold expOf
  rw [ExpAndRadix.noExp_eq, sum]
  split
  · constructor <;> intro h
    · cases h
    · omega
  · rw [sum] at small
    exact ⟨fun _ => by omega, fun _ => rfl⟩

/-- The two outcomes of a request that writes. -/
structure Stores (st : OxidArt P (Value S)) (r : TtlRequest) (run : Answer P S) : Prop where
  large : 2 ^ 56 ≤ saturatingAdd st.now r.secs → Fails run
  small : saturatingAdd st.now r.secs < 2 ^ 56 → ∃ reply st', run = .ok (reply, st') ∧
    (reply = respOk ∨ reply = .integer 1 ↔ r.Reports st) ∧ st'.keyExp r.key = expOf (saturatingAdd st.now r.secs)

theorem Stores.honest_iff {run : Answer P S} (stores : Stores st r run) :
    Honest st r run ↔ st.now + r.secs < 2 ^ 56 - 1 ∨ st.now + r.secs = 2 ^ 56 - 1 ∧ ¬ r.Reports st := by
  by_cases small : saturatingAdd st.now r.secs < 2 ^ 56
  · have bound : st.now + r.secs < 2 ^ 56 := by
      unfold saturatingAdd at small
      omega
    obtain ⟨reply, st', ran, success, exp⟩ := stores.small small
    have honest : Honest st r run ↔ (r.Reports st → st.now + r.secs < 2 ^ 56 - 1) := by
      unfold Honest
      rw [ran, ← expOf_sum_iff small, ← exp, ← success]
      constructor
      · rintro ⟨reply', st'', same, truthful⟩
        obtain ⟨rfl, rfl⟩ := Prod.mk.inj (Except.ok.inj same)
        exact truthful
      · exact fun truthful => ⟨reply, st', rfl, truthful⟩
    rw [honest]
    by_cases reports : r.Reports st
    · simp only [reports, true_implies, not_true_eq_false, and_false, or_false]
    · simp only [reports, false_implies, not_false_eq_true, and_true, true_iff]
      omega
  · have failed := stores.large (Nat.le_of_not_lt small)
    constructor
    · rintro ⟨reply, st', ran, -⟩
      exact (failed.of_ok ran).elim
    · unfold saturatingAdd at small
      omega

/-- The write of a `SET`, from a state with the same clock. -/
theorem stores_set {st₁ : OxidArt P (Value S)} (keeps : Keeps st [] st₁) {key val : SharedByte}
    (bytes : KeyOk key) (secs : Nat) (condition : SetCondition) :
    Stores st (.set key val secs condition) (do return (respOk, ← st₁.setTtl key secs (.string val))) := by
  obtain ⟨stays, path₁, I₁⟩ := keeps
  unfold setTtl
  rw [stays.now]
  constructor
  · intro large
    refine (setInternal_large ?_ large st₁ key _).bind fun _ absurd => absurd.elim
    unfold saturatingAdd
    omega
  · intro small
    change saturatingAdd st.now secs < 2 ^ 56 at small
    obtain ⟨st', path', ran, -, entries⟩ := setInternal_ok I₁ (fun _ => True) bytes small (.string val)
    refine ⟨respOk, st', ?_, ?_, ?_⟩
    · simp only [ran, bind, Except.bind, pure, Except.pure]
    · simp only [true_or, Reports]
    · show st'.keyExp key = expOf (saturatingAdd st.now secs)
      apply keyExp_of_entry
      rw [entries, Function.update_self]

theorem stores_of_writes (I : Inv st [] path) (storable : r.Storable) (writes : r.Writes st) : Stores st r (r.run st) := by
  cases r with
  | set key val secs condition =>
    simp only [run]
    split
    · exact stores_set ⟨.refl st, path, I⟩ storable secs condition
    · obtain ⟨v, st₁, got, keeps, -⟩ := get_keeps I key
      have reply := get_reply I key
      rw [got] at reply
      have same : v = (st.live key).map Prod.fst := Except.ok.inj reply
      have met : condition.meets v.isSome = true := by
        rw [same, Option.isSome_map]
        exact writes
      simp only [got, bind, Except.bind, met, if_true]
      exact stores_set keeps storable secs condition
  | expire key secs =>
    constructor
    · intro large
      exact (expire_large writes large).map fun _ absurd => absurd
    · intro small
      change saturatingAdd st.now secs < 2 ^ 56 at small
      obtain ⟨st', ran, exp, -⟩ := expire_sets I writes small
      refine ⟨boolean (st.keyExp key).isNone, st', ?_, ?_, exp⟩
      · simp only [run, answer, ran, Except.map]
      · show _ ↔ st.keyExp key = none
        cases before : st.keyExp key with
        | none => simp [boolean]
        | some e => simp [boolean, respOk]

theorem honest_of_idle (I : Inv st [] path) (idle : ¬ r.Writes st) : Honest st r (r.run st) := by
  cases r with
  | set key val secs condition =>
    simp only [run]
    split
    next always =>
      subst always
      exact absurd rfl idle
    next conditional =>
      obtain ⟨v, st₁, got, keeps, -⟩ := get_keeps I key
      have reply := get_reply I key
      rw [got] at reply
      have same : v = (st.live key).map Prod.fst := Except.ok.inj reply
      have unmet : ¬ condition.meets v.isSome = true := by
        rw [same, Option.isSome_map]
        exact idle
      simp only [got, bind, Except.bind, unmet]
      refine ⟨.null, st₁, rfl, ?_⟩
      simp [respOk]
  | expire key secs =>
    refine ⟨boolean false, st, ?_, ?_⟩
    · simp only [run, answer, expire_idle I idle, Except.map]
    · simp [boolean, respOk]

end Data

end TtlRequest

section Data

variable {P : Policy} {S : Type} [Score S] {order : HashOrder} {st : OxidArt P (Value S)}

/-- A request with a lifetime is answered honestly exactly when it writes nothing, or the expiry is below the value that means
never, or is that value and the answer is not a success. -/
theorem ttlRequest_honest_iff (reached : Reachable order st) (lib : Library S) {f : DataFn} {args : List SharedByte}
    {r : TtlRequest} (parsed : TtlRequest.parse f args = some r) (storable : r.Storable) :
    r.Honest st (f.run lib args st) ↔
      ¬ r.Writes st ∨ st.now + r.secs < 2 ^ 56 - 1 ∨ st.now + r.secs = 2 ^ 56 - 1 ∧ ¬ r.Reports st := by
  obtain ⟨path, I⟩ := reached.isSound
  rw [TtlRequest.run_of_parse parsed]
  by_cases writes : r.Writes st
  · rw [(TtlRequest.stores_of_writes I storable writes).honest_iff]
    simp only [writes, not_true_eq_false, false_or]
  · simp only [writes, not_false_eq_true, true_or, iff_true]
    exact TtlRequest.honest_of_idle I writes

end Data

/-- A minute is kept. -/
theorem ttlRequest_honest_iff_minute :
    (TtlRequest.set (ascii "k") (ascii "v") 60 .always).Honest (new : OxidArt .lowest (Value Int))
      (DataFn.cmdSetex.run ⟨.stored, fun _ => none⟩ [ascii "k", ascii "60", ascii "v"] new) := by
  have reached : Reachable .stored (new : OxidArt .lowest (Value Int)) := .refl
  have parsed : TtlRequest.parse .cmdSetex [ascii "k", ascii "60", ascii "v"] =
    some (.set (ascii "k") (ascii "v") 60 .always) := by rfl
  have storable : KeyOk (ascii "k") := by decide +kernel
  exact (ttlRequest_honest_iff reached ⟨.stored, fun _ => none⟩ parsed storable).2 (.inr (.inl (by decide +kernel)))

/-- The largest value of the field is answered with `OK` and means never; the next one panics. -/
theorem set_ex_beyond_field :
    (∃ st', DataFn.cmdSet.run ⟨.stored, fun _ => none⟩ [ascii "k", ascii "v", ascii "EX", ascii "72057594037927935"]
      (new : OxidArt .lowest (Value Int)) = .ok (respOk, st') ∧ st'.keyExp (ascii "k") = none) ∧
    DataFn.cmdSet.run ⟨.stored, fun _ => none⟩ [ascii "k", ascii "v", ascii "EX", ascii "72057594037927936"]
      (new : OxidArt .lowest (Value Int)) = .error .expTooLarge := by
  constructor
  · exact ⟨_, rfl, by decide +kernel⟩
  · rfl

/-- `TTL` says of the node between two longer keys that it is there and permanent; `get` finds nothing. -/
theorem ttl_of_inner_node : ∃ replies st,
    run (exec .stored) [.tree (.set (ascii "ab") (.int 1)), .tree (.set (ascii "ac") (.int 2))]
      (new : OxidArt .lowest (Value Int)) = .ok (replies, st) ∧
    Reachable .stored st ∧ replyOf (st.get (ascii "a")) = .ok none ∧ st.getTtl (ascii "a") = .ok .keyWithoutTtl ∧
    cmdTtl [ascii "a"] st = .ok (.integer (-1), st) ∧ cmdPttl [ascii "a"] st = .ok (.integer (-1), st) := by
  have sound : Meets (exec .stored) (fun st c => c.Sound st) [.tree (.set (ascii "ab") (.int 1)),
    .tree (.set (ascii "ac") (.int 2))] (new : OxidArt .lowest (Value Int)) := by decide +kernel
  exact ⟨_, _, rfl, .run .refl sound rfl, rfl, rfl, rfl, rfl⟩

end Radixox.Server.Resp
