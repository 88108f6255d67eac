import Radixox.Lib.Programs
import Radixox.Server.Collections

/-!
# Handlers as scripts

A handler of a data command comes to the store only through its public operations. So it is a program over `Command`: which ones it
calls, what it asks next, and the frame in the end. What two stores answer alike, the server over them answers alike.
-/

namespace Radixox.Server.Resp
set_option autoImplicit false

open Radixox.Oxidart Radixox.Oxidart.OxidArt Radixox.Programs Radixox.Runs

/-! ## What a reply holds -/

section Replies

variable {S : Type} [Score S]

/-- Each command has one kind of reply; what is read off a reply of another kind does not matter. -/
def replyValue : Reply S → Option (Value S)
  | .tree (.value v) => v
  | _ => none

def replyFlag : Reply S → Bool
  | .tree (.flag b) => b
  | _ => false

def replyTtl : Reply S → TtlResult
  | .tree (.ttl t) => t
  | _ => .keyNotExist

def replyCounter : Reply S → Except IntError Int64
  | .counter r => r
  | _ => .error .notAnInteger

def replyAdded : Reply S → Except TypeError UInt32
  | .added r => r
  | _ => .error .valueNotSet

def replyInteger : Reply S → Except TypeError Int64
  | .integer r => r
  | _ => .error .valueNotSet

def replyNewScore : Reply S → Except TypeError S
  | .newScore r => r
  | _ => .error .valueNotSet

def replyPopped : Reply S → Except TypeError SPOPResult
  | .popped r => r
  | _ => .error .valueNotSet

def replyCount : Reply S → Except RedisType UInt32
  | .count r => r
  | _ => .error .none

def replyBytes : Reply S → Except RedisType (Option Bytes)
  | .bytes r => r
  | _ => .error .none

def replyList : Reply S → Except RedisType (List Bytes)
  | .list r => r
  | _ => .error .none

def replyMember : Reply S → Except RedisType Bool
  | .flag r => r
  | _ => .error .none

def replyOptions : Reply S → Except RedisType (List (Option Bytes))
  | .options r => r
  | _ => .error .none

def replyScore : Reply S → Except RedisType (Option S)
  | .score r => r
  | _ => .error .none

end Replies

/-! ## The scripts -/

/-- A program that asks the store and ends with a result. -/
abbrev Asks (S : Type) [Score S] (α : Type) := Program (Command S) (Reply S) α

abbrev Script (S : Type) [Score S] := Asks S SharedFrame

section Script

variable {S : Type} [Score S] {α : Type}

def ask (c : Command S) (read : Reply S → α) : Asks S α := .call c fun reply => .answer (read reply)

def askValue (key : SharedByte) : Asks S (Option (Value S)) := ask (.tree (.get key)) replyValue

def askDel (key : SharedByte) : Asks S (Option (Value S)) := ask (.tree (.del key)) replyValue

/-- The write of a value, without a reply. -/
def write (c : Command S) (frame : SharedFrame) : Script S := ask c fun _ => frame

namespace Script

def get (args : List SharedByte) : Script S :=
  match args with
  | [] => .answer (wrongArgs "GET")
  | key :: _ => (askValue key).map fun
      | some val => match asBytes val with
        | some b => .bulkString b
        | none => wrongType
      | none => .null

def setWith (opts : SetOptions) (key val : SharedByte) : Script S :=
  match opts.ttl with
  | some duration => write (.tree (.setTtl key duration.asSecs (.string val))) respOk
  | none => write (.tree (.set key (.string val))) respOk

def set (args : List SharedByte) : Script S :=
  match args with
  | key :: val :: options => match parseSetOptions options with
    | .error e => .answer e
    | .ok opts =>
      if opts.condition = .always then setWith opts key val
      else (askValue key).bind fun old => match opts.condition, old.isSome with
        | .ifNotExists, true => .answer .null
        | .ifExists, false => .answer .null
        | _, _ => setWith opts key val
  | _ => .answer (wrongArgs "SET")

def setnx (args : List SharedByte) : Script S :=
  match args with
  | key :: val :: _ => (askValue key).bind fun old =>
    if old.isSome then .answer (.integer 0) else write (.tree (.set key (.string val))) (.integer 1)
  | _ => .answer (wrongArgs "SETNX")

def setex (args : List SharedByte) : Script S :=
  match args with
  | key :: secs :: val :: _ => match parseU64 secs with
    | none => .answer notAnInteger
    | some secs => write (.tree (.setTtl key (Duration.fromSecs secs).asSecs (.string val))) respOk
  | _ => .answer (wrongArgs "SETEX")

def mget (args : List SharedByte) : Script S :=
  if args.isEmpty then .answer (wrongArgs "MGET")
  else (Program.forEach askValue args).map fun vals => .array (vals.map fun val => bulkOrNull (val.bind asBytes))

def mset (args : List SharedByte) : Script S :=
  if args.isEmpty || args.length % 2 ≠ 0 then .answer (wrongArgs "MSET")
  else (Program.forEach (fun p => ask (.tree (.set p.1 (.string p.2))) fun _ => ()) (chunksExact args)).map fun _ => respOk

def countHits (name : String) (act : SharedByte → Asks S (Option (Value S))) (args : List SharedByte) : Script S :=
  if args.isEmpty then .answer (wrongArgs name)
  else (Program.forEach act args).map fun vals => integer (vals.countP Option.isSome)

def type (args : List SharedByte) : Script S :=
  match args with
  | [] => .answer (wrongArgs "TYPE")
  | key :: _ => (askValue key).map fun val => .simpleString (ascii (redisTypeStr ((val.map Value.redisType).getD .none)))

def counted : Except IntError Int64 → SharedFrame
  | .ok val => .integer val
  | .error e => counterErr e

def count (key : SharedByte) (delta : Int64) : Script S := ask (.incrby key delta) (counted ∘ replyCounter)

def incr (args : List SharedByte) : Script S :=
  match args with
  | [] => .answer (wrongArgs "INCR")
  | key :: _ => count key 1

def decr (args : List SharedByte) : Script S :=
  match args with
  | [] => .answer (wrongArgs "DECR")
  | key :: _ => count key (-1)

def incrby (args : List SharedByte) : Script S :=
  match args with
  | key :: delta :: _ => match parseI64 delta with
    | none => .answer notAnInteger
    | some delta => count key delta
  | _ => .answer (wrongArgs "INCRBY")

def decrby (args : List SharedByte) : Script S :=
  match args with
  | key :: delta :: _ => match parseI64 delta with
    | none => .answer notAnInteger
    | some delta => count key (-delta)
  | _ => .answer (wrongArgs "DECRBY")

def timeToLive (name : String) (unit : Nat) (args : List SharedByte) : Script S :=
  match args with
  | [] => .answer (wrongArgs name)
  | key :: _ => ask (.tree (.getTtl key)) fun reply => match replyTtl reply with
    | .keyNotExist => .integer (-2)
    | .keyWithoutTtl => .integer (-1)
    | .keyWithTtl secs => integer (secs * unit % 2 ^ 64)

def expireIn (name : String) (refused : SharedFrame) (duration : Nat → Duration) (args : List SharedByte) : Script S :=
  match args with
  | key :: n :: _ => match parseU64 n with
    | none => .answer refused
    | some n => ask (.tree (.expire key (duration n).asSecs)) (boolean ∘ replyFlag)
  | _ => .answer (wrongArgs name)

def persist (args : List SharedByte) : Script S :=
  match args with
  | [] => .answer (wrongArgs "PERSIST")
  | key :: _ => ask (.tree (.persist key)) (boolean ∘ replyFlag)

/-! The checks of the arguments, before a script. -/

def withKey (name : String) (args : List SharedByte) (run : SharedByte → Script S) : Script S :=
  match args with
  | [] => .answer (wrongArgs name)
  | key :: _ => run key

def withField (name : String) (args : List SharedByte) (run : SharedByte → SharedByte → Script S) : Script S :=
  match args with
  | key :: field :: _ => run key field
  | _ => .answer (wrongArgs name)

def withItems (name : String) (args : List SharedByte) (run : SharedByte → List SharedByte → Script S) : Script S :=
  match args with
  | key :: item :: items => run key (item :: items)
  | _ => .answer (wrongArgs name)

def withPairs (name : String) (args : List SharedByte) (run : SharedByte → List (SharedByte × SharedByte) → Script S) : Script S :=
  match args with
  | key :: rest =>
    if args.length < 3 || args.length % 2 = 0 then .answer (wrongArgs name) else run key (chunksExact rest)
  | [] => .answer (wrongArgs name)

def hincrby (args : List SharedByte) : Script S :=
  match args with
  | key :: field :: increment :: _ => match parseI64 increment with
    | none => .answer notAnInteger
    | some increment => ask (.hincrby key field increment) (orWrongType .integer ∘ replyInteger)
  | _ => .answer (wrongArgs "HINCRBY")

def zadd (parseF64 : SharedByte → Option S) (args : List SharedByte) : Script S :=
  withPairs "ZADD" args fun key pairs => match pairs.mapM (fun p => (parseF64 p.1).map fun score => (score, p.2)) with
    | none => .answer notAFloat
    | some scoreMembers => ask (.zadd key scoreMembers none) (orInternal count32 ∘ replyAdded)

def zcard (args : List SharedByte) : Script S :=
  match args with
  | [key] => ask (.zcard key) (orExpected "zset" count32 ∘ replyCount)
  | _ => .answer (wrongArgs "ZCARD")

def zrange (args : List SharedByte) : Script S :=
  match args with
  | key :: start :: stop :: options => match parseI64 start, parseI64 stop with
    | some start, some stop =>
      let withScores := (options.head?).any (eqIgnoreAsciiCase · "WITHSCORES")
      ask (.zrange key start stop withScores) (orExpected "zset" bulks ∘ replyList)
    | _, _ => .answer notAnInteger
  | _ => .answer (wrongArgs "ZRANGE")

def zscore (args : List SharedByte) : Script S :=
  match args with
  | [key, member] => ask (.zscore key member) ((orExpected "zset" fun score => bulkOrNull (score.map Score.text)) ∘ replyScore)
  | _ => .answer (wrongArgs "ZSCORE")

def zincrby (parseF64 : SharedByte → Option S) (args : List SharedByte) : Script S :=
  match args with
  | [key, increment, member] => match parseF64 increment with
    | none => .answer notAFloat
    | some increment =>
      ask (.zincrby key increment member) ((orInternal fun score => .bulkString (Score.text score)) ∘ replyNewScore)
  | _ => .answer (wrongArgs "ZINCRBY")

/-- The script of a handler. The order of a `HashMap` belongs to the store. -/
def of (parseF64 : SharedByte → Option S) (f : DataFn) (args : List SharedByte) : Script S :=
  match f with
  | .cmdGet => get args
  | .cmdSet => set args
  | .cmdSetnx => setnx args
  | .cmdSetex => setex args
  | .cmdMget => mget args
  | .cmdMset => mset args
  | .cmdDel => countHits "DEL" askDel args
  | .cmdExists => countHits "EXISTS" askValue args
  | .cmdType => type args
  | .cmdIncr => incr args
  | .cmdDecr => decr args
  | .cmdIncrby => incrby args
  | .cmdDecrby => decrby args
  | .cmdTtl => timeToLive "TTL" 1 args
  | .cmdPttl => timeToLive "PTTL" 1000 args
  | .cmdExpire => expireIn "EXPIRE" (.error (ascii "ERR value is not an integer")) .fromSecs args
  | .cmdPexpire => expireIn "PEXPIRE" notAnInteger .fromMillis args
  | .cmdPersist => persist args
  | .cmdHset => withPairs "HSET" args fun key fvs => ask (.hset key fvs none) (orInternal count32 ∘ replyAdded)
  | .cmdHmset => withPairs "HMSET" args fun key fvs => ask (.hset key fvs none) ((orInternal fun _ => respOk) ∘ replyAdded)
  | .cmdHget => withField "HGET" args fun key field => ask (.hget key field) (orWrongType bulkOrNull ∘ replyBytes)
  | .cmdHgetall => withKey "HGETALL" args fun key => ask (.hgetall key) (orWrongType bulks ∘ replyList)
  | .cmdHdel => withItems "HDEL" args fun key fields => ask (.hdel key fields) (orWrongType count32 ∘ replyCount)
  | .cmdHexists => withField "HEXISTS" args fun key field => ask (.hexists key field) (orWrongType boolean ∘ replyMember)
  | .cmdHlen => withKey "HLEN" args fun key => ask (.hlen key) (orWrongType count32 ∘ replyCount)
  | .cmdHkeys => withKey "HKEYS" args fun key => ask (.hkeys key) (orWrongType bulks ∘ replyList)
  | .cmdHvals => withKey "HVALS" args fun key => ask (.hvals key) (orWrongType bulks ∘ replyList)
  | .cmdHmget => withItems "HMGET" args fun key fields =>
      ask (.hmget key fields) ((orWrongType fun values => .array (values.map bulkOrNull)) ∘ replyOptions)
  | .cmdHincrby => hincrby args
  | .cmdSadd => withItems "SADD" args fun key members => ask (.sadd key members none) (orInternal count32 ∘ replyAdded)
  | .cmdSrem => withItems "SREM" args fun key members => ask (.srem key members) (orExpected "set" count32 ∘ replyCount)
  | .cmdSismember => withField "SISMEMBER" args fun key member => ask (.sismember key member) (orExpected "set" boolean ∘ replyMember)
  | .cmdScard => withKey "SCARD" args fun key => ask (.scard key) (orExpected "set" count32 ∘ replyCount)
  | .cmdSmembers => withKey "SMEMBERS" args fun key => ask (.smembers key) (orExpected "set" bulks ∘ replyList)
  | .cmdSpop => withKey "SPOP" args fun key => ask (.spop key args[1]?) (popped ∘ replyPopped)
  | .cmdZadd => zadd parseF64 args
  | .cmdZcard => zcard args
  | .cmdZrange => zrange args
  | .cmdZscore => zscore args
  | .cmdZrem => withItems "ZREM" args fun key members => ask (.zrem key members) (orExpected "zset" count32 ∘ replyCount)
  | .cmdZincrby => zincrby parseF64 args

end Script

end Script

/-! ## The handlers run their scripts -/

section Runs

variable {P : Policy} {S : Type} [Score S] {order : HashOrder} {st : OxidArt P (Value S)} {α β : Type}

/-- The script over the store. -/
def played (order : HashOrder) (p : Asks S α) (st : OxidArt P (Value S)) : Exec (α × OxidArt P (Value S)) := p.exec (OxidArt.exec order) st

theorem played_answer (a : α) : played order (.answer a) st = .ok (a, st) := rfl

theorem played_bind (p : Asks S α) (rest : α → Asks S β) :
    played order (p.bind rest) st = played order p st >>= fun q => played order (rest q.1) q.2 := Program.exec_bind p rest st

theorem played_map (p : Asks S α) (f : α → β) : played order (p.map f) st = (played order p st).map fun q => (f q.1, q.2) :=
  Program.exec_map p f st

theorem played_ask (c : Command S) (read : Reply S → α) :
    played order (ask c read) st = (OxidArt.exec order st c).map fun q => (read q.1, q.2) := by
  simp only [played, ask, Program.exec]
  cases OxidArt.exec order st c <;> rfl

/-- A command whose replies are wrapped results. -/
theorem played_ask_wrapped {c : Command S} {wrap : α → Reply S} {run : Exec (α × OxidArt P (Value S))}
    (runs : OxidArt.exec order st c = wrapReply wrap run) (read : Reply S → β) :
    played order (ask c read) st = run.map fun q => (read (wrap q.1), q.2) := by
  rw [played_ask, runs, wrapReply]
  cases run <;> rfl

theorem played_askValue (key : SharedByte) : played order (askValue key) st = st.get key := by
  rw [askValue, played_ask]
  simp only [OxidArt.exec, execTree, wrapReply]
  cases st.get key <;> rfl

theorem played_askDel (key : SharedByte) : played order (askDel key) st = st.del key := by
  rw [askDel, played_ask]
  simp only [OxidArt.exec, execTree, wrapReply]
  cases st.del key <;> rfl

theorem played_forEach {act : SharedByte → Asks S α} {run : OxidArt P (Value S) → SharedByte → Exec (α × OxidArt P (Value S))}
    (each : ∀ st arg, played order (act arg) st = run st arg) (args : List SharedByte) :
    ∀ st, played order (Program.forEach act args) st = forEach run args st := by
  induction args with
  | nil => exact fun _ => rfl
  | cons arg rest ih =>
    intro st
    rw [Program.forEach, forEach, played_bind, each]
    refine congrArg _ (funext fun q => ?_)
    rw [played_bind, ih]
    rfl

theorem played_set (key val : SharedByte) (a : α) :
    played order (ask (.tree (.set key (.string val))) fun _ => a) st = (st.set key (.string val)).map fun st => (a, st) := by
  rw [played_ask]
  simp only [OxidArt.exec, execTree, wrapReply]
  cases st.set key (.string val) <;> rfl

theorem played_setTtl (key val : SharedByte) (ttl : Nat) (a : α) :
    played order (ask (.tree (.setTtl key ttl (.string val))) fun _ => a) st = (st.setTtl key ttl (.string val)).map fun st => (a, st) := by
  rw [played_ask]
  simp only [OxidArt.exec, execTree, wrapReply]
  cases st.setTtl key ttl (.string val) <;> rfl

theorem played_setWith (opts : SetOptions) (key val : SharedByte) :
    played order (Script.setWith opts key val) st = setWith opts key val st := by
  unfold Script.setWith setWith write
  cases opts.ttl with
  | none =>
    rw [played_set]
    cases st.set key (.string val) <;> rfl
  | some duration =>
    rw [played_setTtl]
    simp only
    cases st.setTtl key duration.asSecs (.string val) <;> rfl

theorem played_withKey {name : String} {args : List SharedByte} {run : SharedByte → Answer P S} {p : SharedByte → Script S}
    (each : ∀ key, run key = played order (p key) st) : withKey name args st run = played order (Script.withKey name args p) st := by
  cases args with
  | nil => rfl
  | cons key rest => exact each key

theorem played_withField {name : String} {args : List SharedByte} {run : SharedByte → SharedByte → Answer P S}
    {p : SharedByte → SharedByte → Script S} (each : ∀ key field, run key field = played order (p key field) st) :
    withField name args st run = played order (Script.withField name args p) st := by
  rcases args with _ | ⟨key, _ | ⟨field, rest⟩⟩
  · rfl
  · rfl
  · exact each key field

theorem played_withItems {name : String} {args : List SharedByte} {run : SharedByte → List SharedByte → Answer P S}
    {p : SharedByte → List SharedByte → Script S} (each : ∀ key items, run key items = played order (p key items) st) :
    withItems name args st run = played order (Script.withItems name args p) st := by
  rcases args with _ | ⟨key, _ | ⟨item, rest⟩⟩
  · rfl
  · rfl
  · exact each key (item :: rest)

theorem played_withPairs {name : String} {args : List SharedByte} {run : SharedByte → List (SharedByte × SharedByte) → Answer P S}
    {p : SharedByte → List (SharedByte × SharedByte) → Script S} (each : ∀ key pairs, run key pairs = played order (p key pairs) st) :
    withPairs name args st run = played order (Script.withPairs name args p) st := by
  rcases args with _ | ⟨key, rest⟩
  · rfl
  · simp only [Script.withPairs, withPairs]
    split
    · rfl
    · exact each key (chunksExact rest)

theorem answer_ask {c : Command S} {wrap : α → Reply S} {run : Exec (α × OxidArt P (Value S))}
    (runs : OxidArt.exec order st c = wrapReply wrap run) {read : Reply S → α} (left : ∀ a, read (wrap a) = a)
    (frame : α → SharedFrame) : answer frame run = played order (ask c (frame ∘ read)) st := by
  rw [played_ask_wrapped runs, answer]
  simp only [Function.comp_apply, left]

theorem played_countHits {name : String} {act : SharedByte → Asks S (Option (Value S))}
    {run : OxidArt P (Value S) → SharedByte → Exec (Option (Value S) × OxidArt P (Value S))}
    (each : ∀ st arg, played order (act arg) st = run st arg) (args : List SharedByte) :
    countHits name run args st = played order (Script.countHits name act args) st := by
  unfold countHits Script.countHits
  split
  · rfl
  · rw [played_map, played_forEach each]
    rfl

theorem played_mset (order : HashOrder) (pairs : List (SharedByte × SharedByte)) : ∀ st : OxidArt P (Value S),
    (setAll pairs st).map (fun st => ((), st)) = (played order
      (Program.forEach (fun p => ask (.tree (.set p.1 (.string p.2))) fun _ => ()) pairs) st).map fun q => ((), q.2) := by
  induction pairs with
  | nil => exact fun _ => rfl
  | cons p rest ih =>
    intro st
    rw [setAll, Program.forEach, played_bind, played_set]
    cases st.set p.1 (.string p.2) with
    | error e => rfl
    | ok st₁ =>
      have later := ih st₁
      simp only [bind, Except.bind, Except.map, played_bind, played_answer] at later ⊢
      rw [later]
      cases played order (Program.forEach (fun p => ask (.tree (.set p.1 (.string p.2))) fun _ => ()) rest) st₁ <;> rfl

theorem played_count (key : SharedByte) (delta : Int64) : count st key delta = played order (Script.count key delta) st :=
  answer_ask rfl (fun _ => rfl) Script.counted

theorem played_set_command (args : List SharedByte) : cmdSet args st = played order (Script.set args) st := by
  rcases args with _ | ⟨key, _ | ⟨val, options⟩⟩
  · rfl
  · rfl
  · simp only [cmdSet, Script.set]
    cases parseSetOptions options with
    | error e => rfl
    | ok opts =>
      simp only
      split
      · exact (played_setWith opts key val).symm
      · rw [played_bind, played_askValue]
        refine congrArg _ (funext fun q => ?_)
        cases opts.condition <;> cases q.1.isSome <;> first | rfl | exact (played_setWith opts key val).symm

theorem played_setnx (args : List SharedByte) : cmdSetnx args st = played order (Script.setnx args) st := by
  rcases args with _ | ⟨key, _ | ⟨val, rest⟩⟩
  · rfl
  · rfl
  · simp only [cmdSetnx, Script.setnx]
    rw [played_bind, played_askValue]
    refine congrArg _ (funext fun q => ?_)
    cases q.1.isSome with
    | true => rfl
    | false =>
      simp only [Bool.false_eq_true, if_false, write, played_set]
      cases q.2.set key (.string val) <;> rfl

theorem played_setex (args : List SharedByte) : cmdSetex args st = played order (Script.setex args) st := by
  rcases args with _ | ⟨key, _ | ⟨secs, _ | ⟨val, rest⟩⟩⟩
  · rfl
  · rfl
  · rfl
  · simp only [cmdSetex, Script.setex]
    cases parseU64 secs with
    | none => rfl
    | some secs =>
      simp only [write, played_setTtl]
      cases st.setTtl key (Duration.fromSecs secs).asSecs (.string val) <;> rfl

theorem played_timeToLive (name : String) (unit : Nat) (args : List SharedByte) :
    timeToLive name unit args st = played order (Script.timeToLive name unit args) st := by
  rcases args with _ | ⟨key, rest⟩
  · rfl
  · simp only [timeToLive, Script.timeToLive]
    rw [played_ask]
    simp only [OxidArt.exec, execTree, wrapReply, bind, Except.bind]
    cases st.getTtl key with
    | error e => rfl
    | ok t => cases t <;> rfl

theorem played_expireIn (name : String) (refused : SharedFrame) (duration : Nat → Duration) (args : List SharedByte) :
    expireIn name refused duration args st = played order (Script.expireIn name refused duration args) st := by
  rcases args with _ | ⟨key, _ | ⟨n, rest⟩⟩
  · rfl
  · rfl
  · simp only [expireIn, Script.expireIn]
    cases parseU64 n with
    | none => rfl
    | some n =>
      simp only [played_ask, OxidArt.exec, execTree, wrapReply, bind, Except.bind, answer]
      cases st.expire key (duration n).asSecs <;> rfl

/-- The two that parse an integer before they touch the store. -/
theorem played_incrby (args : List SharedByte) : cmdIncrby args st = played order (Script.incrby args) st := by
  rcases args with _ | ⟨key, _ | ⟨delta, rest⟩⟩
  · rfl
  · rfl
  · simp only [cmdIncrby, Script.incrby]
    cases parseI64 delta with
    | none => rfl
    | some delta => exact played_count key delta

theorem played_decrby (args : List SharedByte) : cmdDecrby args st = played order (Script.decrby args) st := by
  rcases args with _ | ⟨key, _ | ⟨delta, rest⟩⟩
  · rfl
  · rfl
  · simp only [cmdDecrby, Script.decrby]
    cases parseI64 delta with
    | none => rfl
    | some delta => exact played_count key (-delta)

/-- A handler runs its script. -/
theorem run_eq_played (lib : Library S) (f : DataFn) (args : List SharedByte) :
    f.run lib args st = played lib.order (Script.of lib.parseF64 f args) st := by
  cases f with
  | cmdGet =>
    rcases args with _ | ⟨key, rest⟩
    · rfl
    · exact ((played_map _ _).trans (by rw [played_askValue]; rfl)).symm
  | cmdSet => exact played_set_command args
  | cmdSetnx => exact played_setnx args
  | cmdSetex => exact played_setex args
  | cmdMget =>
    simp only [DataFn.run, Script.of, cmdMget, Script.mget]
    split
    · rfl
    · rw [played_map, played_forEach fun _ _ => played_askValue _]
      rfl
  | cmdMset =>
    simp only [DataFn.run, Script.of, cmdMset, Script.mset]
    split
    · rfl
    · rw [played_map]
      have sets := played_mset lib.order (chunksExact args) st
      revert sets
      cases setAll (chunksExact args) st <;>
        cases played lib.order (Program.forEach (fun p => ask (.tree (.set p.1 (.string p.2))) fun _ => ()) (chunksExact args)) st <;>
        intro sets <;> cases sets <;> rfl
  | cmdDel => exact played_countHits (fun _ _ => played_askDel _) args
  | cmdExists => exact played_countHits (fun _ _ => played_askValue _) args
  | cmdType =>
    rcases args with _ | ⟨key, rest⟩
    · rfl
    · exact ((played_map _ _).trans (by rw [played_askValue]; rfl)).symm
  | cmdIncr => cases args with
    | nil => rfl
    | cons key rest => exact played_count key 1
  | cmdDecr => cases args with
    | nil => rfl
    | cons key rest => exact played_count key (-1)
  | cmdIncrby => exact played_incrby args
  | cmdDecrby => exact played_decrby args
  | cmdTtl => exact played_timeToLive "TTL" 1 args
  | cmdPttl => exact played_timeToLive "PTTL" 1000 args
  | cmdExpire => exact played_expireIn _ _ _ args
  | cmdPexpire => exact played_expireIn _ _ _ args
  | cmdPersist =>
    rcases args with _ | ⟨key, rest⟩
    · rfl
    · simp only [DataFn.run, Script.of, cmdPersist, Script.persist, played_ask, OxidArt.exec, execTree, wrapReply, bind, Except.bind, answer]
      cases st.persist key <;> rfl
  | cmdHset | cmdHmset =>
    simp only [DataFn.run, Script.of, cmdHset, cmdHmset]
    exact played_withPairs fun _ _ => answer_ask rfl (fun _ => rfl) _
  | cmdHget | cmdHexists | cmdSismember => exact played_withField fun _ _ => answer_ask rfl (fun _ => rfl) _
  | cmdHgetall | cmdHlen | cmdHkeys | cmdHvals | cmdScard | cmdSmembers | cmdSpop =>
    exact played_withKey fun _ => answer_ask rfl (fun _ => rfl) _
  | cmdHdel | cmdHmget | cmdSadd | cmdSrem | cmdZrem =>
    simp only [DataFn.run, Script.of, cmdHdel, cmdHmget, cmdSadd, cmdSrem, cmdZrem]
    exact played_withItems fun _ _ => answer_ask rfl (fun _ => rfl) _
  | cmdHincrby =>
    rcases args with _ | ⟨key, _ | ⟨field, _ | ⟨increment, rest⟩⟩⟩
    · rfl
    · rfl
    · rfl
    · simp only [DataFn.run, Script.of, cmdHincrby, Script.hincrby]
      cases parseI64 increment with
      | none => rfl
      | some increment => exact answer_ask rfl (fun _ => rfl) _
  | cmdZadd =>
    simp only [DataFn.run, Script.of, cmdZadd, Script.zadd]
    refine played_withPairs fun key pairs => ?_
    cases pairs.mapM fun p => (lib.parseF64 p.1).map fun score => (score, p.2) with
    | none => rfl
    | some scoreMembers => exact answer_ask rfl (fun _ => rfl) _
  | cmdZcard =>
    rcases args with _ | ⟨key, _ | ⟨more, rest⟩⟩
    · rfl
    · exact answer_ask rfl (fun _ => rfl) _
    · rfl
  | cmdZrange =>
    rcases args with _ | ⟨key, _ | ⟨start, _ | ⟨stop, options⟩⟩⟩
    · rfl
    · rfl
    · rfl
    · simp only [DataFn.run, Script.of, cmdZrange, Script.zrange]
      cases parseI64 start with
      | none => rfl
      | some start => cases parseI64 stop with
        | none => rfl
        | some stop => exact answer_ask rfl (fun _ => rfl) _
  | cmdZscore =>
    rcases args with _ | ⟨key, _ | ⟨member, _ | ⟨more, rest⟩⟩⟩
    · rfl
    · rfl
    · exact answer_ask rfl (fun _ => rfl) _
    · rfl
  | cmdZincrby =>
    rcases args with _ | ⟨key, _ | ⟨increment, _ | ⟨member, _ | ⟨more, rest⟩⟩⟩⟩
    · rfl
    · rfl
    · rfl
    · simp only [DataFn.run, Script.of, cmdZincrby, Script.zincrby]
      cases lib.parseF64 increment with
      | none => rfl
      | some increment => exact answer_ask rfl (fun _ => rfl) _
    · rfl

end Runs

end Radixox.Server.Resp
