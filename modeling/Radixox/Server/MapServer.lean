import Radixox.Oxidart.TimedReference
import Radixox.Server.Scripts

/-!
# The server over a map

The same scripts over the reference map: what a client sees of the radix tree, the slabs and the container representations under the
data commands is a map from keys to typed values. Where expiries are used, the values are strings and integers, and the map keeps
the second in which each of them ends.
-/

namespace Radixox.Server.Resp
set_option autoImplicit false

open Radixox.Oxidart Radixox.Oxidart.OxidArt Radixox.Programs Radixox.Runs

/-! ## What a request asks the store -/

/-- The keys that a request names. -/
def DataFn.named : DataFn → List SharedByte → List SharedByte
  | .cmdMset, args => (chunksExact args).map Prod.fst
  | f, args => f.keys args

/-- The lifetimes that a request may give a key. -/
def DataFn.durations : DataFn → List SharedByte → List Duration
  | .cmdSet, args => match parseSetOptions (args.drop 2) with
    | .ok opts => opts.ttl.toList
    | .error _ => []
  | .cmdSetex, args | .cmdExpire, args => (args[1]?.bind parseU64).toList.map .fromSecs
  | .cmdPexpire, args => (args[1]?.bind parseU64).toList.map .fromMillis
  | _, _ => []

/-- The range of ranks that a request asks for, and of which key. -/
def DataFn.ranks : DataFn → List SharedByte → List (SharedByte × Int64 × Int64)
  | .cmdZrange, key :: start :: stop :: _ => match parseI64 start, parseI64 stop with
    | some start, some stop => [(key, start, stop)]
    | _, _ => []
  | _, _ => []

/-- The commands that make a container where there is none. -/
def DataFn.Makes : DataFn → Prop
  | .cmdHset | .cmdHmset | .cmdHincrby | .cmdSadd | .cmdZadd | .cmdZincrby => True
  | _ => False

/-- The commands of the store that a request may come to. -/
def DataFn.Issues {S : Type} [Score S] (f : DataFn) (args : List SharedByte) : Command S → Prop
  | .tree (.set key v) => key ∈ f.named args ∧ ∃ b, v = .string b
  | .tree (.setTtl key ttl v) => key ∈ f.named args ∧ (∃ d ∈ f.durations args, ttl = d.asSecs) ∧ ∃ b, v = .string b
  | .tree (.expire key ttl) => key ∈ f.named args ∧ ∃ d ∈ f.durations args, ttl = d.asSecs
  | .tree (.persist key) => key ∈ f.named args ∧ f = .cmdPersist
  | .tree (.getTtl key) => key ∈ f.named args ∧ (f = .cmdTtl ∨ f = .cmdPttl)
  | .tree (.get key) | .tree (.del key) => key ∈ f.named args
  | .tree (.getn _) | .tree (.deln _) | .tree (.setNow _) | .tree (.evict _) => False
  | .hset key items ttl => key ∈ f.named args ∧ items ≠ [] ∧ ttl = none ∧ f.Makes
  | .sadd key items ttl => key ∈ f.named args ∧ items ≠ [] ∧ ttl = none ∧ f.Makes
  | .zadd key items ttl => key ∈ f.named args ∧ items ≠ [] ∧ ttl = none ∧ f.Makes
  | .hincrby key _ _ | .zincrby key _ _ => key ∈ f.named args ∧ f.Makes
  | .spop key _ => key ∈ f.named args ∧ f = .cmdSpop
  | .incrby key _ | .hget key _ | .hgetall key | .hdel key _ | .hexists key _ | .hlen key | .hkeys key | .hvals key
  | .hmget key _ | .srem key _ | .smembers key | .sismember key _ | .scard key | .zcard key | .zscore key _ | .zrem key _ =>
    key ∈ f.named args
  | .zrange key start stop _ => key ∈ f.named args ∧ (key, start, stop) ∈ f.ranks args

section Calls

variable {S : Type} [Score S] {kind : Command S → Prop} {args : List SharedByte} {name : String}

theorem calls_ask {α : Type} {c : Command S} {read : Reply S → α} (ok : kind c) : (ask c read).Calls kind := ⟨ok, fun _ => trivial⟩

theorem calls_withKey {run : SharedByte → Script S} (each : ∀ key ∈ args.take 1, (run key).Calls kind) :
    (Script.withKey name args run).Calls kind := by
  cases args with
  | nil => trivial
  | cons key rest => exact each key (by simp)

theorem calls_withField {run : SharedByte → SharedByte → Script S} (each : ∀ key ∈ args.take 1, ∀ field, (run key field).Calls kind) :
    (Script.withField name args run).Calls kind := by
  rcases args with _ | ⟨key, _ | ⟨field, rest⟩⟩
  · trivial
  · trivial
  · exact each key (by simp) field

theorem calls_withItems {run : SharedByte → List SharedByte → Script S}
    (each : ∀ key ∈ args.take 1, ∀ items, items ≠ [] → (run key items).Calls kind) : (Script.withItems name args run).Calls kind := by
  rcases args with _ | ⟨key, _ | ⟨item, rest⟩⟩
  · trivial
  · trivial
  · exact each key (by simp) _ (List.cons_ne_nil _ _)

theorem calls_withPairs {run : SharedByte → List (SharedByte × SharedByte) → Script S}
    (each : ∀ key ∈ args.take 1, ∀ pairs, pairs ≠ [] → (run key pairs).Calls kind) : (Script.withPairs name args run).Calls kind := by
  rcases args with _ | ⟨key, rest⟩
  · trivial
  · simp only [Script.withPairs]
    split
    · trivial
    next enough =>
      refine each key (by simp) _ ?_
      rcases rest with _ | ⟨a, _ | ⟨b, rest⟩⟩
      · simp at enough
      · simp at enough
      · exact List.cons_ne_nil _ _

theorem calls_setWith {opts : SetOptions} {key val : SharedByte} (plain : kind (.tree (.set key (.string val))))
    (timed : ∀ duration, opts.ttl = some duration → kind (.tree (.setTtl key duration.asSecs (.string val)))) :
    (Script.setWith opts key val).Calls kind := by
  unfold Script.setWith
  cases held : opts.ttl with
  | none => exact calls_ask plain
  | some duration => exact calls_ask (timed duration held)

theorem calls_set {key val : SharedByte} {options : List SharedByte} (read : kind (.tree (.get key)))
    (plain : kind (.tree (.set key (.string val)))) (timed : ∀ opts duration, parseSetOptions options = .ok opts →
      opts.ttl = some duration → kind (.tree (.setTtl key duration.asSecs (.string val)))) :
    (Script.set (key :: val :: options)).Calls kind := by
  simp only [Script.set]
  cases parsed : parseSetOptions options with
  | error e => trivial
  | ok opts =>
    simp only
    have writes : (Script.setWith opts key val).Calls kind := calls_setWith plain fun duration => timed opts duration parsed
    split
    · exact writes
    · refine (calls_ask read).bind fun old => ?_
      cases opts.condition <;> cases old.isSome <;> first | exact writes | trivial

theorem calls_mset {pairs : List (SharedByte × SharedByte)} (each : ∀ p ∈ pairs, kind (.tree (.set p.1 (.string p.2)))) :
    ((Program.forEach (fun p => ask (S := S) (.tree (.set p.1 (.string p.2))) fun _ => ()) pairs).map fun _ => respOk).Calls kind :=
  (Program.Calls.forEach fun p member => calls_ask (each p member)).map _

end Calls

section Issues

variable {S : Type} [Score S]

theorem mem_take_one (key : SharedByte) (rest : List SharedByte) : key ∈ (key :: rest).take 1 := List.mem_cons_self

/-- A request comes to nothing but the commands it issues. -/
theorem calls_issues (parseF64 : SharedByte → Option S) (f : DataFn) (args : List SharedByte) :
    (Script.of parseF64 f args).Calls (f.Issues args) := by
  cases f with
  | cmdGet | cmdType => cases args with
    | nil => trivial
    | cons key rest => exact Program.Calls.map _ (calls_ask (mem_take_one key rest))
  | cmdSet =>
    rcases args with _ | ⟨key, _ | ⟨val, options⟩⟩
    · trivial
    · trivial
    · refine calls_set (mem_take_one key _) ⟨mem_take_one key _, val, rfl⟩ fun opts duration parsed timed => ?_
      refine ⟨mem_take_one key _, ⟨duration, ?_, rfl⟩, val, rfl⟩
      simp [DataFn.durations, parsed, timed]
  | cmdSetnx =>
    rcases args with _ | ⟨key, _ | ⟨val, rest⟩⟩
    · trivial
    · trivial
    · refine Program.Calls.bind (calls_ask (mem_take_one key _)) fun old => ?_
      split
      · trivial
      · exact calls_ask ⟨mem_take_one key _, val, rfl⟩
  | cmdSetex =>
    rcases args with _ | ⟨key, _ | ⟨secs, _ | ⟨val, rest⟩⟩⟩
    · trivial
    · trivial
    · trivial
    · simp only [Script.of, Script.setex]
      cases parsed : parseU64 secs with
      | none => trivial
      | some n => exact calls_ask ⟨mem_take_one key _, ⟨.fromSecs n, by simp [DataFn.durations, parsed], rfl⟩, val, rfl⟩
  | cmdMget =>
    simp only [Script.of, Script.mget]
    split
    · trivial
    · exact Program.Calls.map _ (.forEach fun key member => calls_ask member)
  | cmdMset =>
    simp only [Script.of, Script.mset]
    split
    · trivial
    · exact calls_mset fun p member => ⟨List.mem_map_of_mem member, p.2, rfl⟩
  | cmdDel | cmdExists =>
    simp only [Script.of, Script.countHits]
    split
    · trivial
    · exact Program.Calls.map _ (.forEach fun key member => calls_ask member)
  | cmdIncr | cmdDecr => cases args with
    | nil => trivial
    | cons key rest => exact calls_ask (mem_take_one key _)
  | cmdIncrby | cmdDecrby =>
    rcases args with _ | ⟨key, _ | ⟨delta, rest⟩⟩
    · trivial
    · trivial
    · simp only [Script.of, Script.incrby, Script.decrby]
      cases parseI64 delta with
      | none => trivial
      | some delta => exact calls_ask (mem_take_one key _)
  | cmdTtl | cmdPttl => cases args with
    | nil => trivial
    | cons key rest => exact calls_ask ⟨mem_take_one key _, by simp⟩
  | cmdExpire | cmdPexpire =>
    rcases args with _ | ⟨key, _ | ⟨n, rest⟩⟩
    · trivial
    · trivial
    · simp only [Script.of, Script.expireIn]
      cases parsed : parseU64 n with
      | none => trivial
      | some n => exact calls_ask ⟨mem_take_one key _, _, by simp [DataFn.durations, parsed], rfl⟩
  | cmdPersist => cases args with
    | nil => trivial
    | cons key rest => exact calls_ask ⟨mem_take_one key _, rfl⟩
  | cmdHset | cmdHmset =>
    simp only [Script.of]
    exact calls_withPairs fun key member pairs some' => calls_ask ⟨member, some', rfl, trivial⟩
  | cmdHget | cmdHexists | cmdSismember => exact calls_withField fun key member _ => calls_ask member
  | cmdHgetall | cmdHlen | cmdHkeys | cmdHvals | cmdScard | cmdSmembers => exact calls_withKey fun key member => calls_ask member
  | cmdHdel | cmdHmget | cmdSrem | cmdZrem => exact calls_withItems fun key member _ _ => calls_ask member
  | cmdSadd =>
    simp only [Script.of]
    exact calls_withItems fun key member _ some' => calls_ask ⟨member, some', rfl, trivial⟩
  | cmdSpop => exact calls_withKey fun key member => calls_ask ⟨member, rfl⟩
  | cmdHincrby =>
    rcases args with _ | ⟨key, _ | ⟨field, _ | ⟨increment, rest⟩⟩⟩
    · trivial
    · trivial
    · trivial
    · simp only [Script.of, Script.hincrby]
      cases parseI64 increment with
      | none => trivial
      | some increment => exact calls_ask ⟨mem_take_one key _, trivial⟩
  | cmdZadd =>
    simp only [Script.of, Script.zadd]
    refine calls_withPairs fun key member pairs some' => ?_
    cases parsed : pairs.mapM fun p => (parseF64 p.1).map fun score => (score, p.2) with
    | none => trivial
    | some scoreMembers =>
      refine calls_ask ⟨member, ?_, rfl, trivial⟩
      rintro rfl
      cases pairs with
      | nil => exact some' rfl
      | cons p rest => simp [List.mapM_cons, Option.bind_eq_some_iff] at parsed
  | cmdZcard =>
    rcases args with _ | ⟨key, _ | ⟨more, rest⟩⟩
    · trivial
    · exact calls_ask (mem_take_one key _)
    · trivial
  | cmdZrange =>
    rcases args with _ | ⟨key, _ | ⟨start, _ | ⟨stop, options⟩⟩⟩
    · trivial
    · trivial
    · trivial
    · simp only [Script.of, Script.zrange]
      cases first : parseI64 start with
      | none => trivial
      | some lo => cases last : parseI64 stop with
        | none => trivial
        | some hi => exact calls_ask ⟨mem_take_one key _, by simp [DataFn.ranks, first, last]⟩
  | cmdZscore =>
    rcases args with _ | ⟨key, _ | ⟨member, _ | ⟨more, rest⟩⟩⟩
    · trivial
    · trivial
    · exact calls_ask (mem_take_one key _)
    · trivial
  | cmdZincrby =>
    rcases args with _ | ⟨key, _ | ⟨increment, _ | ⟨member, _ | ⟨more, rest⟩⟩⟩⟩
    · trivial
    · trivial
    · trivial
    · simp only [Script.of, Script.zincrby]
      cases parseF64 increment with
      | none => trivial
      | some increment => exact calls_ask ⟨mem_take_one key _, trivial⟩
    · trivial

end Issues

/-! ## Without expiries -/

/-- A handler may clone a stored string for each of its arguments, and the counter of the string has 16 bits. -/
def Clonable (args : List SharedByte) : Prop := args.length < 2 ^ 15

instance (args : List SharedByte) : Decidable (Clonable args) := inferInstanceAs (Decidable (args.length < 2 ^ 15))

/-- Neither sets an expiry nor asks for one, and does not pop. -/
def DataFn.Lasting (f : DataFn) (args : List SharedByte) : Prop :=
  f.durations args = [] ∧ f ≠ .cmdTtl ∧ f ≠ .cmdPttl ∧ f ≠ .cmdPersist ∧ f ≠ .cmdSpop

def Turn.Lasting : Turn → Prop
  | .request f args => f.Lasting args ∧ Clonable args ∧ ∀ key ∈ f.named args, PlainKey key
  | .tick _ => True

/-- No range of ranks that a request asks for ends too early. -/
def DataFn.InRange {P : Policy} {S : Type} [Score S] (st : OxidArt P (Value S)) (f : DataFn) (args : List SharedByte) : Prop :=
  ∀ range ∈ f.ranks args, st.RangeIn range.1 range.2.1 range.2.2

instance {P : Policy} {S : Type} [Score S] (st : OxidArt P (Value S)) (f : DataFn) (args : List SharedByte) : Decidable (f.InRange st args) :=
  List.decidableBAll _ _

def Turn.InRange {P : Policy} {S : Type} [Score S] (st : OxidArt P (Value S)) : Turn → Prop
  | .request f args => f.InRange st args
  | .tick _ => True

instance {P : Policy} {S : Type} [Score S] (st : OxidArt P (Value S)) : (t : Turn) → Decidable (t.InRange st)
  | .request f args => inferInstanceAs (Decidable (f.InRange st args))
  | .tick _ => isTrue trivial

section Lasting

variable {P : Policy} {S : Type} [Score S] {st st' : OxidArt P (Value S)} {ref : RefStore S}

/-- A lasting request only issues commands that the typed map knows. -/
theorem DataFn.Lasting.typed {f : DataFn} {args : List SharedByte} (lasting : f.Lasting args)
    (plain : ∀ key ∈ f.named args, PlainKey key) {c : Command S} (issues : f.Issues args c) : c.Typed := by
  obtain ⟨forever, noTtl, noPttl, noPersist, noSpop⟩ := lasting
  have untimed : ∀ d, d ∉ f.durations args := by simp [forever]
  cases c with
  | tree op => cases op with
    | set key v =>
      obtain ⟨member, b, rfl⟩ := issues
      exact ⟨plain key member, trivial, trivial⟩
    | setTtl key ttl v =>
      obtain ⟨-, ⟨d, member, -⟩, -⟩ := issues
      exact (untimed d member).elim
    | expire key ttl =>
      obtain ⟨-, d, member, -⟩ := issues
      exact (untimed d member).elim
    | get key => exact plain key issues
    | del key => exact plain key issues
    | persist key => exact noPersist issues.2
    | getTtl key => exact issues.2.elim noTtl noPttl
    | getn | deln | setNow | evict => exact issues.elim
  | hset key items ttl => exact ⟨plain key issues.1, issues.2.1, issues.2.2.1⟩
  | sadd key items ttl => exact ⟨plain key issues.1, issues.2.1, issues.2.2.1⟩
  | zadd key items ttl => exact ⟨plain key issues.1, issues.2.1, issues.2.2.1⟩
  | hincrby key => exact plain key issues.1
  | zincrby key => exact plain key issues.1
  | spop => exact noSpop issues.2
  | zrange key => exact plain key issues.1
  | _ => exact plain _ issues

theorem DataFn.InRange.command {f : DataFn} {args : List SharedByte} (inside : f.InRange st args) {c : Command S}
    (issues : f.Issues args c) : c.InRange st := by
  cases c with
  | zrange key start stop => exact inside (key, start, stop) issues.2
  | _ => trivial

end Lasting

/-- Plain keys, few enough arguments, lifetimes that fit the field, no pop; a command that makes a container comes to a live key or to
one whose node, if there is one, has no expiry, and a range of ranks does not end too early. -/
def Turn.Timely {P : Policy} {S : Type} [Score S] (st : OxidArt P (Value S)) : Turn → Prop
  | .request f args => f ≠ .cmdSpop ∧ Clonable args ∧ (∀ key ∈ f.named args, PlainKey key) ∧
      (∀ d ∈ f.durations args, st.now + d.asSecs < 2 ^ 56 - 1) ∧ (f.Makes → ∀ key ∈ f.named args, st.FreshAt key) ∧
      f.InRange st args
  | .tick _ => True

instance (f : DataFn) : Decidable f.Makes := by
  unfold DataFn.Makes
  cases f <;> infer_instance

instance {P : Policy} {S : Type} [Score S] (st : OxidArt P (Value S)) : (t : Turn) → Decidable (t.Timely st)
  | .request _ _ => inferInstanceAs (Decidable (_ ∧ _ ∧ _ ∧ _ ∧ _ ∧ _))
  | .tick _ => inferInstanceAs (Decidable True)

section Timely

variable {P : Policy} {S : Type} [Score S] {st st' : OxidArt P (Value S)}

/-- The commands that a timely request issues. -/
theorem Turn.Timely.command {f : DataFn} {args : List SharedByte} (timely : (Turn.request f args).Timely st) {c : Command S}
    (issues : f.Issues args c) : c.Timely st := by
  obtain ⟨noSpop, -, plain, fits, fresh, inside⟩ := timely
  cases c with
  | tree op => cases op with
    | set key v =>
      obtain ⟨member, b, rfl⟩ := issues
      exact ⟨plain key member, trivial, trivial⟩
    | setTtl key ttl v =>
      obtain ⟨member, ⟨d, here, rfl⟩, b, rfl⟩ := issues
      exact ⟨plain key member, fits d here, trivial, trivial⟩
    | expire key ttl =>
      obtain ⟨member, d, here, rfl⟩ := issues
      exact ⟨plain key member, fits d here⟩
    | get key => exact plain key issues
    | del key => exact plain key issues
    | persist key => exact plain key issues.1
    | getTtl key => exact plain key issues.1
    | getn | deln | setNow | evict => exact issues.elim
  | hset key items ttl => exact ⟨plain key issues.1, issues.2.1, issues.2.2.1, fresh issues.2.2.2 key issues.1⟩
  | sadd key items ttl => exact ⟨plain key issues.1, issues.2.1, issues.2.2.1, fresh issues.2.2.2 key issues.1⟩
  | zadd key items ttl => exact ⟨plain key issues.1, issues.2.1, issues.2.2.1, fresh issues.2.2.2 key issues.1⟩
  | hincrby key => exact ⟨plain key issues.1, fresh issues.2 key issues.1⟩
  | zincrby key => exact ⟨plain key issues.1, fresh issues.2 key issues.1⟩
  | spop => exact noSpop issues.2
  | zrange key => exact ⟨plain key issues.1, inside.command issues⟩
  | _ => exact plain _ issues

end Timely

/-- A string that ends, a hash with a deadline of its own that goes on, and a key that is made to stay. -/
def timelyRun : List Turn :=
  [.request .cmdSet [ascii "s", ascii "1", ascii "EX", ascii "5"], .request .cmdHset [ascii "h", ascii "f", ascii "1"],
    .request .cmdExpire [ascii "h", ascii "30"], .request .cmdSetex [ascii "t", ascii "9", ascii "2"], .tick 3,
    .request .cmdIncr [ascii "s"], .request .cmdTtl [ascii "s"], .request .cmdPersist [ascii "t"], .tick 20,
    .request .cmdHset [ascii "h", ascii "g", ascii "2"], .request .cmdMget [ascii "s", ascii "t"]]

end Radixox.Server.Resp
