import Radixox.Oxidart.TypedReference
import Radixox.Oxidart.EmptyKey
import Radixox.Oxidart.Deadlines
import Radixox.Server.DataCommands

/-!
# Collections that are never empty

`HDEL`, `SREM` and `ZREM` delete the key of a collection that they emptied, and a writing command creates a
collection only to fill it. `SPOP` does neither: it creates the set of an absent key, and leaves the set it emptied.
-/

namespace Radixox.Server.Resp
set_option autoImplicit false

open Radixox.Oxidart Radixox.Oxidart.OxidArt Radixox.Runs

/-! ## The runs in question -/

/-- What happens to the store: a request, or the clock. -/
inductive Turn where
  | request (f : DataFn) (args : List SharedByte)
  | tick (now : Nat)

/-- The commands on collections, `DEL` and the reads. -/
def DataFn.OnCollections : DataFn → Prop
  | .cmdSadd | .cmdSrem | .cmdSpop | .cmdHset | .cmdHmset | .cmdHdel | .cmdHincrby | .cmdZadd | .cmdZrem | .cmdZincrby | .cmdDel
  | .cmdGet | .cmdMget | .cmdExists | .cmdType | .cmdTtl | .cmdPttl | .cmdHget | .cmdHgetall | .cmdHexists | .cmdHlen
  | .cmdHkeys | .cmdHvals | .cmdHmget | .cmdSismember | .cmdScard | .cmdSmembers | .cmdZcard | .cmdZrange | .cmdZscore => True
  | .cmdSet | .cmdSetnx | .cmdSetex | .cmdMset | .cmdIncr | .cmdDecr | .cmdIncrby | .cmdDecrby | .cmdExpire | .cmdPexpire
  | .cmdPersist => False

instance (f : DataFn) : Decidable f.OnCollections := by
  unfold DataFn.OnCollections
  cases f <;> infer_instance

/-- The arguments that are keys. -/
def DataFn.keys : DataFn → List SharedByte → List SharedByte
  | .cmdDel, args | .cmdExists, args | .cmdMget, args => args
  | _, args => args.take 1

def Turn.Permitted : Turn → Prop
  | .request f args => f.OnCollections ∧ ∀ key ∈ f.keys args, PlainKey key
  | .tick _ => True

instance (t : Turn) : Decidable t.Permitted := by
  unfold Turn.Permitted
  cases t <;> infer_instance

/-- How many members `SPOP` is to take; `none` for a text that is no positive number. -/
def popCount : Option SharedByte → Option Nat
  | some bytes => (parseU32 bytes).filter (0 < ·)
  | none => some 1

section Data

variable {P : Policy} {S : Type} [Score S] {st st' : OxidArt P (Value S)} {ref : RefStore S} {key : SharedByte}

/-- One turn; the clock gets no answer. -/
def serve (lib : Library S) (st : OxidArt P (Value S)) : Turn → Exec (Option SharedFrame × OxidArt P (Value S))
  | .request f args => (f.run lib args st).map fun p => (some p.1, p.2)
  | .tick now => .ok (none, st.setNow now)

/-- The elements of a collection. -/
def size : Value S → Option Nat
  | .hash inner => some inner.len
  | .set members => some members.len
  | .zset inner => some inner.len
  | _ => none

/-- A key for which `EXISTS` answers 1 holds a value of the type that `TYPE` answers, and no empty collection. -/
def NoneEmpty (st : OxidArt P (Value S)) : Prop :=
  ∀ key, replyOf (cmdExists [key] st) = .ok (.integer 1) → ∃ v e, st.live key = some (v, e) ∧
    replyOf (cmdType [key] st) = .ok (.simpleString (ascii (redisTypeStr v.redisType))) ∧ size v ≠ some 0

/-- A `SPOP` that takes members leaves one: its key is live, and a set there has more members than it takes. -/
def LeavesSome (st : OxidArt P (Value S)) : Turn → Prop
  | .request .cmdSpop (key :: rest) => ∀ n, popCount rest[0]? = some n →
      ∃ v e, st.live key = some (v, e) ∧ ∀ members, v.asSet = .ok members → n < members.len
  | _ => True

/-- The store shows a map of full collections, and nothing expires. -/
def Tidy (st : OxidArt P (Value S)) : Prop := ∃ ref, Shows st ref

/-! ## What `EXISTS` and `TYPE` answer -/

theorem exists_iff_live (sound : IsSound st) (key : SharedByte) :
    replyOf (cmdExists [key] st) = .ok (.integer 1) ↔ ∃ v e, st.live key = some (v, e) := by
  obtain ⟨path, I⟩ := sound
  obtain ⟨v, st', ran, -⟩ := get_keeps I key
  have same := get_reply I key
  rw [ran] at same
  obtain rfl : v = _ := Except.ok.inj same
  have answered : replyOf (cmdExists [key] st) =
      .ok (integer ([(st.live key).map Prod.fst].countP Option.isSome)) := by
    simp only [cmdExists, countHits, List.isEmpty_cons, Bool.false_eq_true, if_false, answer, forEach, ran, bind, Except.bind]
    rfl
  rw [answered]
  cases st.live key with
  | none =>
    refine ⟨fun h => ?_, fun ⟨v, e, h⟩ => by cases h⟩
    cases h
  | some held =>
    refine ⟨fun _ => ⟨held.1, held.2, rfl⟩, fun _ => rfl⟩

theorem type_of_live (sound : IsSound st) {v : Value S} {e : Option Nat} (live : st.live key = some (v, e)) :
    replyOf (cmdType [key] st) = .ok (.simpleString (ascii (redisTypeStr v.redisType))) := by
  obtain ⟨path, I⟩ := sound
  obtain ⟨w, st', ran, -⟩ := get_keeps I key
  have same := get_reply I key
  rw [ran, live] at same
  obtain rfl : w = some v := Except.ok.inj same
  simp only [cmdType, answer, ran]
  rfl

/-- A container with an element has a size. -/
theorem size_ne_zero {v : Value S} (ok : v.Ok) (full : v.meaning.Full) : size v ≠ some 0 := by
  cases v with
  | hash inner =>
    intro none'
    exact full ((InnerHCommand.isEmpty_iff ok).1 (beq_iff_eq.2 (Option.some.inj none')))
  | set members =>
    intro none'
    exact full ((isEmpty_iff_memberMap members).1 (List.isEmpty_iff_length_eq_zero.2 (Option.some.inj none')))
  | zset inner =>
    intro none'
    exact full ((InnerZCommand.isEmpty_iff ok).1 (beq_iff_eq.2 (Option.some.inj none')))
  | _ => exact nofun

theorem Tidy.noneEmpty (tidy : Tidy st) : NoneEmpty st := by
  obtain ⟨ref, R⟩ := tidy
  intro key found
  obtain ⟨v, e, live⟩ := (exists_iff_live R.sound key).1 found
  refine ⟨v, e, live, type_of_live R.sound live, ?_⟩
  rw [R.permanent.live] at live
  refine size_ne_zero (R.ok key v e live) (R.full key _ ?_)
  rw [← R.values, live]
  rfl

theorem tidy_new : Tidy (new : OxidArt P (Value S)) := ⟨_, shows_new⟩

theorem Tidy.setNow (tidy : Tidy st) (now : Nat) : Tidy (st.setNow now) := by
  obtain ⟨ref, R⟩ := tidy
  obtain ⟨path, I⟩ := R.sound
  exact ⟨ref, R.same ⟨path, I.setNow now⟩ R.permanent (entry_setNow I now)⟩

/-! ## Turns that keep the store tidy -/

/-- The handler returns and leaves a tidy store. -/
def Settles (run : Answer P S) : Prop := ∃ frame st', run = .ok (frame, st') ∧ Tidy st'

theorem Tidy.refuses (tidy : Tidy st) (frame : SharedFrame) : Settles (.ok (frame, st)) := ⟨frame, st, rfl, tidy⟩

theorem settles_answer {α : Type} {frame : α → SharedFrame} {run : Exec (α × OxidArt P (Value S))} {a : α}
    (ran : run = .ok (a, st')) (tidy : Tidy st') : Settles (answer frame run) := ⟨frame a, st', by rw [ran]; rfl, tidy⟩

/-- A handler that makes a typed command of its arguments. -/
theorem settles_typed (order : HashOrder) (tidy : Tidy st) {c : Command S} (typed : c.Typed) {α : Type} {wrap : α → Reply S}
    {run : Exec (α × OxidArt P (Value S))} (same : exec order st c = wrapReply wrap run) {frame : α → SharedFrame} :
    Settles (answer frame run) := by
  obtain ⟨ref, R⟩ := tidy
  obtain ⟨reply, st', ran, -, R'⟩ := exec_shows order R typed
  rw [same] at ran
  cases outcome : run with
  | error =>
    rw [outcome] at ran
    cases ran
  | ok p =>
    rw [outcome] at ran
    obtain ⟨-, rfl⟩ := Prod.mk.inj (Except.ok.inj ran)
    exact ⟨frame p.1, p.2, rfl, _, R'⟩

theorem settles_withKey (tidy : Tidy st) {name : String} {args : List SharedByte} {run : SharedByte → Answer P S}
    (each : ∀ key ∈ args.take 1, Settles (run key)) : Settles (withKey name args st run) := by
  cases args with
  | nil => exact tidy.refuses _
  | cons key rest => exact each key (by simp)

theorem settles_withField (tidy : Tidy st) {name : String} {args : List SharedByte} {run : SharedByte → SharedByte → Answer P S}
    (each : ∀ key ∈ args.take 1, ∀ field, Settles (run key field)) : Settles (withField name args st run) := by
  unfold withField
  split
  · exact each _ (by simp) _
  · exact tidy.refuses _

theorem settles_withItems (tidy : Tidy st) {name : String} {args : List SharedByte}
    {run : SharedByte → List SharedByte → Answer P S}
    (each : ∀ key ∈ args.take 1, ∀ items, items ≠ [] → Settles (run key items)) : Settles (withItems name args st run) := by
  unfold withItems
  split
  · exact each _ (by simp) _ (List.cons_ne_nil _ _)
  · exact tidy.refuses _

theorem settles_withPairs (tidy : Tidy st) {name : String} {args : List SharedByte}
    {run : SharedByte → List (SharedByte × SharedByte) → Answer P S}
    (each : ∀ key ∈ args.take 1, ∀ pairs, pairs ≠ [] → Settles (run key pairs)) : Settles (withPairs name args st run) := by
  unfold withPairs
  split
  next key rest =>
    split
    · exact tidy.refuses _
    next enough =>
      refine each key (by simp) _ ?_
      rcases rest with _ | ⟨a, _ | ⟨b, rest⟩⟩
      · simp at enough
      · simp at enough
      · exact List.cons_ne_nil _ _
  · exact tidy.refuses _

theorem Tidy.get (tidy : Tidy st) (plain : PlainKey key) : ∃ v st', st.get key = .ok (v, st') ∧ Tidy st' := by
  obtain ⟨ref, R⟩ := tidy
  obtain ⟨path, I⟩ := R.sound
  obtain ⟨st', path', ran, step, sheds, -⟩ := get_ok I plain.1
  exact ⟨_, st', ran, ref, R.sheds step.keeps (R.permanent.get key _ ran) sheds⟩

theorem Tidy.del (tidy : Tidy st) (plain : PlainKey key) : ∃ v st', st.del key = .ok (v, st') ∧ Tidy st' := by
  obtain ⟨ref, R⟩ := tidy
  obtain ⟨path, I⟩ := R.sound
  obtain ⟨st', path', ran, step, entries, -⟩ := del_ok I plain.1
  exact ⟨_, st', ran, _, R.drop step.keeps.isSound (R.permanent.del key _ ran) entries⟩

theorem settles_forEach {α : Type} {act : OxidArt P (Value S) → SharedByte → Exec (α × OxidArt P (Value S))}
    (each : ∀ st key, Tidy st → PlainKey key → ∃ a st', act st key = .ok (a, st') ∧ Tidy st') (keys : List SharedByte) :
    ∀ st, Tidy st → (∀ key ∈ keys, PlainKey key) → ∃ vals st', forEach act keys st = .ok (vals, st') ∧ Tidy st' := by
  induction keys with
  | nil => exact fun st tidy _ => ⟨[], st, rfl, tidy⟩
  | cons key rest ih =>
    intro st tidy plain
    obtain ⟨a, st₁, first, tidy₁⟩ := each st key tidy (plain key List.mem_cons_self)
    obtain ⟨vals, st', later, tidy'⟩ := ih st₁ tidy₁ fun k member => plain k (List.mem_cons_of_mem key member)
    refine ⟨a :: vals, st', ?_, tidy'⟩
    simp only [forEach, first, later, bind, Except.bind]
    rfl

/-- `TTL` and `PTTL` only look. -/
theorem settles_timeToLive (tidy : Tidy st) (name : String) (unit : Nat) (args : List SharedByte) :
    Settles (timeToLive name unit args st) := by
  unfold timeToLive
  split
  · exact tidy.refuses _
  next key rest =>
    obtain ⟨ref, R⟩ := tidy
    obtain ⟨t, ran⟩ : ∃ t, st.getTtl key = .ok t := by
      cases target : st.traverseToKey key with
      | none => exact ⟨.keyNotExist, by simp only [getTtl, target]⟩
      | some i =>
        obtain ⟨n, here⟩ := R.sound.rooted.occupied target
        exact ⟨_, here.getTtl⟩
    simp only [ran, bind, Except.bind]
    cases t <;> exact ⟨_, st, rfl, ref, R⟩

/-- Every request but `SPOP`. -/
theorem settles_request (lib : Library S) (tidy : Tidy st) {f : DataFn} {args : List SharedByte}
    (permitted : (Turn.request f args).Permitted) (taken : f ≠ .cmdSpop) : Settles (f.run lib args st) := by
  obtain ⟨on, plain⟩ := permitted
  have all : ∀ {α : Type} {act : OxidArt P (Value S) → SharedByte → Exec (α × OxidArt P (Value S))} {frame : List α → SharedFrame},
      (∀ st key, Tidy st → PlainKey key → ∃ a st', act st key = .ok (a, st') ∧ Tidy st') → (∀ key ∈ args, PlainKey key) →
      Settles (answer frame (forEach act args st)) := by
    intro α act frame each keys
    obtain ⟨vals, st', ran, tidy'⟩ := settles_forEach each args st tidy keys
    exact settles_answer ran tidy'
  have get := fun (st : OxidArt P (Value S)) key (tidy : Tidy st) (here : PlainKey key) => tidy.get here
  have del := fun (st : OxidArt P (Value S)) key (tidy : Tidy st) (here : PlainKey key) => tidy.del here
  cases f with
  | cmdGet | cmdType =>
    rcases args with _ | ⟨key, rest⟩
    · exact tidy.refuses _
    · obtain ⟨v, st', ran, tidy'⟩ := tidy.get (plain key (by simp [DataFn.keys]))
      simp only [DataFn.run, Resp.cmdGet, Resp.cmdType]
      exact settles_answer ran tidy'
  | cmdMget | cmdExists =>
    simp only [DataFn.run, cmdMget, cmdExists, countHits]
    split
    · exact tidy.refuses _
    · exact all get plain
  | cmdDel =>
    simp only [DataFn.run, cmdDel, countHits]
    split
    · exact tidy.refuses _
    · exact all del plain
  | cmdTtl => exact settles_timeToLive tidy "TTL" 1 args
  | cmdPttl => exact settles_timeToLive tidy "PTTL" 1000 args
  | cmdHset =>
    exact settles_withPairs tidy fun key member pairs some' =>
      settles_typed lib.order tidy (c := .hset key pairs none) ⟨plain key member, some', rfl⟩ rfl
  | cmdHmset =>
    exact settles_withPairs tidy fun key member pairs some' =>
      settles_typed lib.order tidy (c := .hset key pairs none) ⟨plain key member, some', rfl⟩ rfl
  | cmdHget =>
    exact settles_withField tidy fun key member field => settles_typed lib.order tidy (c := .hget key field) (plain key member) rfl
  | cmdHgetall => exact settles_withKey tidy fun key member => settles_typed lib.order tidy (c := .hgetall key) (plain key member) rfl
  | cmdHdel =>
    exact settles_withItems tidy fun key member fields _ =>
      settles_typed lib.order tidy (c := .hdel key fields) (plain key member) rfl
  | cmdHexists =>
    exact settles_withField tidy fun key member field =>
      settles_typed lib.order tidy (c := .hexists key field) (plain key member) rfl
  | cmdHlen => exact settles_withKey tidy fun key member => settles_typed lib.order tidy (c := .hlen key) (plain key member) rfl
  | cmdHkeys => exact settles_withKey tidy fun key member => settles_typed lib.order tidy (c := .hkeys key) (plain key member) rfl
  | cmdHvals => exact settles_withKey tidy fun key member => settles_typed lib.order tidy (c := .hvals key) (plain key member) rfl
  | cmdHmget =>
    exact settles_withItems tidy fun key member fields _ =>
      settles_typed lib.order tidy (c := .hmget key fields) (plain key member) rfl
  | cmdHincrby =>
    simp only [DataFn.run, Resp.cmdHincrby]
    split
    next key field increment rest =>
      split
      · exact tidy.refuses _
      next n parsed =>
        exact settles_typed lib.order tidy (c := .hincrby key field n) (plain key (by simp [DataFn.keys])) rfl
    · exact tidy.refuses _
  | cmdSadd =>
    exact settles_withItems tidy fun key member members some' =>
      settles_typed lib.order tidy (c := .sadd key members none) ⟨plain key member, some', rfl⟩ rfl
  | cmdSrem =>
    exact settles_withItems tidy fun key member members _ =>
      settles_typed lib.order tidy (c := .srem key members) (plain key member) rfl
  | cmdSismember =>
    exact settles_withField tidy fun key member m => settles_typed lib.order tidy (c := .sismember key m) (plain key member) rfl
  | cmdScard => exact settles_withKey tidy fun key member => settles_typed lib.order tidy (c := .scard key) (plain key member) rfl
  | cmdSmembers =>
    exact settles_withKey tidy fun key member => settles_typed lib.order tidy (c := .smembers key) (plain key member) rfl
  | cmdSpop => exact absurd rfl taken
  | cmdZadd =>
    simp only [DataFn.run, Resp.cmdZadd]
    refine settles_withPairs tidy fun key member pairs some' => ?_
    split
    · exact tidy.refuses _
    next scoreMembers read =>
      refine settles_typed lib.order tidy (c := .zadd key scoreMembers none) ⟨plain key member, ?_, rfl⟩ rfl
      rintro rfl
      cases pairs with
      | nil => exact some' rfl
      | cons pair rest => simp [List.mapM_cons, Option.bind_eq_some_iff] at read
  | cmdZcard =>
    simp only [DataFn.run, Resp.cmdZcard]
    split
    next key => exact settles_typed lib.order tidy (c := .zcard key) (plain key (by simp [DataFn.keys])) rfl
    · exact tidy.refuses _
  | cmdZrange =>
    simp only [DataFn.run, Resp.cmdZrange]
    split
    next key start stop options =>
      split
      next first last _ _ =>
        exact settles_typed lib.order tidy (c := .zrange key first last _) (plain key (by simp [DataFn.keys])) rfl
      · exact tidy.refuses _
    · exact tidy.refuses _
  | cmdZscore =>
    simp only [DataFn.run, Resp.cmdZscore]
    split
    next key member => exact settles_typed lib.order tidy (c := .zscore key member) (plain key (by simp [DataFn.keys])) rfl
    · exact tidy.refuses _
  | cmdZrem =>
    exact settles_withItems tidy fun key member members _ =>
      settles_typed lib.order tidy (c := .zrem key members) (plain key member) rfl
  | cmdZincrby =>
    simp only [DataFn.run, Resp.cmdZincrby]
    split
    next key increment member =>
      split
      · exact tidy.refuses _
      next score read =>
        exact settles_typed lib.order tidy (c := .zincrby key score member) (plain key (by simp [DataFn.keys])) rfl
    · exact tidy.refuses _
  | cmdSet | cmdSetnx | cmdSetex | cmdMset | cmdIncr | cmdDecr | cmdIncrby | cmdDecrby | cmdExpire | cmdPexpire | cmdPersist =>
    exact absurd on (fun h => h)

/-! ## `SPOP` -/

/-- What `SPOP` does with the set. -/
def pop (n : Nat) (members : SortedSet Bytes) : SPOPResult × SortedSet Bytes :=
  if n = 1 then (.single members.popLast.1, members.popLast.2) else (.multiple (members.popMany n).1, (members.popMany n).2)

theorem len_pop (n : Nat) (members : SortedSet Bytes) : (pop n members).2.len = members.len - n := by
  unfold pop
  split
  next one => rw [one, SortedSet.len_popLast]
  next => rw [SortedSet.len_popMany]

theorem cmdSpop_eq {arg : Option SharedByte} {n : Nat} (count : popCount arg = some n) :
    st.cmdSpop key arg = changeIn (st.getBtreeSetMut none key) .set fun members => .ok (pop n members) := by
  have change : (fun members : SortedSet Bytes => (if n = 1 then .ok (.single members.popLast.1, members.popLast.2)
      else .ok (.multiple (members.popMany n).1, (members.popMany n).2) : Except TypeError (SPOPResult × SortedSet Bytes))) =
      fun members => .ok (pop n members) := by
    funext members
    unfold pop
    split <;> rfl
  rw [← change]
  cases arg with
  | none =>
    obtain rfl := Option.some.inj count
    rfl
  | some bytes =>
    have valid : (parseU32 bytes).filter (0 < ·) = some n := count
    simp only [OxidArt.cmdSpop, valid]

theorem cmdSpop_refuses {arg : Option SharedByte} (count : popCount arg = none) :
    st.cmdSpop key arg = .ok (.error .notAInt, st) := by
  cases arg with
  | none => cases count
  | some bytes =>
    have invalid : (parseU32 bytes).filter (0 < ·) = none := count
    simp only [OxidArt.cmdSpop, invalid]

/-- A `SPOP` with a valid number: of a collection of another type it takes nothing; else it takes what it can, also from a set
that it has just created. -/
theorem cmdSpop_takes (R : Shows st ref) (plain : PlainKey key) {arg : Option SharedByte} {n : Nat} (count : popCount arg = some n) :
    (∃ v e t, st.live key = some (v, e) ∧ v.asSet = .error t ∧ st.cmdSpop key arg = .ok (.error .valueNotSet, st)) ∨
    ∃ members e left reply st', (st.live key = none ∧ members = .empty ∨ st.live key = some (.set members, e)) ∧
      left.len = members.len - n ∧ st.cmdSpop key arg = .ok (.ok reply, st') ∧ IsSound st' ∧ AllPermanent st' ∧
      st'.entry = Function.update st.entry key (some (.set left, none)) := by
  obtain ⟨path, I⟩ := R.sound
  have absent : ∀ t, (none : Option Nat) = some t → t < 2 ^ 56 := by simp
  have H := changeIn_ok I (getBtreeSetMut_gets I plain.2 absent) fun members => .ok (pop n members)
  have lasts := AllPermanent.changeIn (R.permanent.getBtreeSetMut key) Value.set fun members => .ok (pop n members)
  rw [← cmdSpop_eq count] at H lasts
  cases live : st.live key with
  | none =>
    have exp : st.madeExp none key = none := R.permanent.keyExp key
    obtain ⟨st', path', ran, step, entries⟩ := H.made (fun _ => True) live (by rw [exp]; rfl)
    rw [exp] at entries
    exact .inr ⟨.empty, none, _, _, st', .inl ⟨rfl, rfl⟩, len_pop n .empty, ran, step.keeps.isSound, lasts _ ran, entries⟩
  | some held =>
    obtain ⟨v, e⟩ := held
    cases view : v.asSet with
    | error t => exact .inl ⟨v, e, t, rfl, view, H.wrongType v e t live view⟩
    | ok members =>
      obtain rfl := (Kind.set S).eq_wrap v members view
      obtain ⟨st', ran, step, entries⟩ := H.changed (fun _ => True) _ e members _ _ live view rfl
      have held : st.entry key = some (.set members, e) := R.permanent.live ▸ live
      rw [R.permanent.entry held] at entries
      exact .inr ⟨members, e, _, _, st', .inr rfl, len_pop n members, ran, step.keeps.isSound, lasts _ ran, entries⟩

/-- Every turn returns; the store is tidy again if it leaves some, and has an empty set if it does not. -/
theorem serve_noneEmpty (lib : Library S) (tidy : Tidy st) {t : Turn} (permitted : t.Permitted) :
    ∃ frame st', serve lib st t = .ok (frame, st') ∧ (LeavesSome st t → Tidy st') ∧ (NoneEmpty st' → LeavesSome st t) := by
  cases t with
  | tick now => exact ⟨none, st.setNow now, rfl, fun _ => tidy.setNow now, fun _ => trivial⟩
  | request f args =>
    by_cases taken : f = .cmdSpop
    · subst taken
      obtain ⟨ref, R⟩ := tidy
      rcases args with _ | ⟨key, rest⟩
      · exact ⟨_, st, rfl, fun _ => ⟨ref, R⟩, fun _ => trivial⟩
      · have plain : PlainKey key := permitted.2 key (by simp [DataFn.keys])
        have served : ∀ {reply st'}, st.cmdSpop key rest[0]? = .ok (reply, st') →
            serve lib st (.request .cmdSpop (key :: rest)) = .ok (some (popped reply), st') := by
          intro reply st' ran
          simp only [serve, DataFn.run, Resp.cmdSpop, withKey, answer, List.getElem?_cons_succ, ran]
          rfl
        cases count : popCount rest[0]? with
        | none =>
          refine ⟨_, st, served (cmdSpop_refuses count), fun _ => ⟨ref, R⟩, fun _ n valid => ?_⟩
          rw [count] at valid
          cases valid
        | some n =>
          rcases cmdSpop_takes R plain count with ⟨v, e, t, live, other, ran⟩ |
            ⟨members, e, left, reply, st', before, fewer, ran, sound, permanent, entries⟩
          · refine ⟨_, st, served ran, fun _ => ⟨ref, R⟩, fun _ n' _ => ⟨v, e, live, fun members view => ?_⟩⟩
            rw [other] at view
            cases view
          · have live' : st'.live key = some (.set left, none) := by rw [permanent.live, entries, Function.update_self]
            refine ⟨_, st', served ran, fun leaves => ?_, fun full n' valid => ?_⟩
            · obtain ⟨v, e', live, more⟩ := leaves n count
              rcases before with ⟨dead, -⟩ | held
              · rw [dead] at live
                cases live
              · rw [held] at live
                obtain ⟨rfl, -⟩ := Prod.mk.inj (Option.some.inj live)
                have some' := more members rfl
                refine ⟨_, R.put sound permanent entries trivial fun none' => ?_⟩
                have none'' : left.len = 0 := List.isEmpty_iff_length_eq_zero.1 ((isEmpty_iff_memberMap left).2 none')
                omega
            · obtain rfl : n = n' := Option.some.inj (count.symm.trans valid)
              obtain ⟨v, e', live, -, filled⟩ := full key ((exists_iff_live sound key).2 ⟨_, _, live'⟩)
              rw [live'] at live
              obtain ⟨rfl, -⟩ := Prod.mk.inj (Option.some.inj live)
              have some' : left.len ≠ 0 := fun none' => filled (congrArg some none')
              rcases before with ⟨-, rfl⟩ | held
              · exact absurd (fewer.trans (Nat.zero_sub n)) some'
              · refine ⟨_, e, held, fun members' view => ?_⟩
                obtain rfl : members = members' := Except.ok.inj view
                omega
    · obtain ⟨frame, st', ran, tidy'⟩ := settles_request lib tidy permitted taken
      refine ⟨some frame, st', by simp only [serve, ran]; rfl, fun _ => tidy', fun _ => ?_⟩
      cases f <;> trivial

/-- In every run whose `SPOP`s leave something, no key holds an empty collection; and the next turn keeps it so exactly if it is
no `SPOP` that takes all there is. Strings are values here, their counters are not part of the store. -/
theorem run_noneEmpty {lib : Library S} (reached : Reaches (serve lib) (fun st t => t.Permitted ∧ LeavesSome st t) new st) :
    NoneEmpty st ∧ ∀ t : Turn, t.Permitted →
      ∃ frame st', serve lib st t = .ok (frame, st') ∧ (NoneEmpty st' ↔ LeavesSome st t) := by
  have tidy : Tidy st := by
    refine reached.invariant tidy_new fun s s' t frame before ok ran => ?_
    obtain ⟨frame', st', ran', kept, -⟩ := serve_noneEmpty lib before ok.1
    rw [ran] at ran'
    obtain ⟨-, rfl⟩ := Prod.mk.inj (Except.ok.inj ran')
    exact kept ok.2
  refine ⟨tidy.noneEmpty, fun t permitted => ?_⟩
  obtain ⟨frame, st', ran, kept, exact'⟩ := serve_noneEmpty lib tidy permitted
  exact ⟨frame, st', ran, exact', fun leaves => (kept leaves).noneEmpty⟩

end Data

/-- Scores that are whole numbers. -/
def wholeScores : Library Int := ⟨.stored, fun bytes => (parseI64 bytes).map Int64.toInt⟩

/-- A set that keeps a member, and a hash that goes with its last field. -/
def filledRun : List Turn :=
  [.request .cmdSadd [ascii "s", ascii "a", ascii "b"], .request .cmdSpop [ascii "s"],
    .request .cmdHset [ascii "h", ascii "f", ascii "1"], .request .cmdHdel [ascii "h", ascii "f"]]

theorem run_noneEmpty_filledRun : ∃ frames st,
    run (serve wholeScores) filledRun (new : OxidArt .lowest (Value Int)) = .ok (frames, st) ∧ NoneEmpty st := by
  have permitted : ∀ t ∈ filledRun, t.Permitted := by
    have plain : PlainKey (ascii "s") ∧ PlainKey (ascii "h") := by decide +kernel
    simp [filledRun, Turn.Permitted, DataFn.OnCollections, DataFn.keys, plain]
  refine ⟨_, _, rfl, (run_noneEmpty (.run .refl (show Meets (serve wholeScores) (fun s t => t.Permitted ∧ LeavesSome s t)
    filledRun new from ?_) rfl)).1⟩
  refine .cons ⟨permitted _ (by simp [filledRun]), trivial⟩ fun frame st ran => ?_
  obtain ⟨rfl, rfl⟩ := Prod.mk.inj (Except.ok.inj ran)
  refine .cons ⟨permitted _ (by simp [filledRun]), ?_⟩ fun _ _ _ => .cons ⟨permitted _ (by simp [filledRun]), trivial⟩ fun _ _ _ =>
    .cons ⟨permitted _ (by simp [filledRun]), trivial⟩ fun _ _ _ => trivial
  intro n valid
  obtain rfl := Option.some.inj valid
  refine ⟨_, _, rfl, fun members view => ?_⟩
  obtain rfl := Except.ok.inj view
  decide +kernel

/-- `SPOP` of a key that is not there, and of a last member. -/
theorem spop_leaves_empty : ∃ st frames st',
    serve wholeScores (new : OxidArt .lowest (Value Int)) (.request .cmdSpop [ascii "s"]) = .ok (some .null, st) ∧
    st.live (ascii "s") = some (.set .empty, none) ∧ ¬ NoneEmpty st ∧
    run (serve wholeScores) [.request .cmdSadd [ascii "s", ascii "a"], .request .cmdSpop [ascii "s"]]
      (new : OxidArt .lowest (Value Int)) = .ok (frames, st') ∧
    st'.live (ascii "s") = some (.set .empty, none) ∧ ¬ NoneEmpty st' := by
  have broken : ∀ {st : OxidArt .lowest (Value Int)}, replyOf (cmdExists [ascii "s"] st) = .ok (.integer 1) →
      st.live (ascii "s") = some (.set .empty, none) → ¬ NoneEmpty st := by
    intro st found live full
    obtain ⟨v, e, held, -, filled⟩ := full _ found
    rw [live] at held
    obtain ⟨rfl, -⟩ := Prod.mk.inj (Option.some.inj held)
    exact filled rfl
  exact ⟨_, _, _, rfl, rfl, broken rfl rfl, rfl, rfl, broken rfl rfl⟩

end Radixox.Server.Resp
