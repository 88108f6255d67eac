import Radixox.Oxidart.Operations
import Radixox.Server.Resp

/-!
# Data commands

`bin/resp_cmd`: the handlers that take the arguments of a request and the store, check the arguments and
turn the result of the store into a frame. With them the options of `SET` and the
numbers of `resp.rs`. Floating point texts are not modelled: what `parse_f64` makes of one
is a parameter.
-/

namespace Radixox.Server.Resp
set_option autoImplicit false

open Radixox.Oxidart

/-! ## Numbers and options -/

/-- `parse_int` at `u64`: an optional plus sign, at least one digit, no overflow. -/
def parseU64 (arg : SharedByte) : Option Nat :=
  let digits := match arg with
    | 43 :: rest => rest
    | _ => arg
  if digits.isEmpty then none else (parseDigits digits 0).filter (· < 2 ^ 64)

/-- `std::time::Duration`, whole seconds and the milliseconds after them. -/
structure Duration where
  secs : Nat
  millis : Nat

namespace Duration

def fromSecs (secs : Nat) : Duration := ⟨secs, 0⟩

def fromMillis (ms : Nat) : Duration := ⟨ms / 1000, ms % 1000⟩

def asSecs (d : Duration) : Nat := d.secs

end Duration

inductive SetCondition where
  | always
  | ifNotExists
  | ifExists
deriving DecidableEq

structure SetOptions where
  ttl : Option Duration
  condition : SetCondition

def SetOptions.default : SetOptions := ⟨none, .always⟩

def eqIgnoreAsciiCase (a : SharedByte) (b : String) : Bool := toUppercase a = toUppercase (ascii b)

def syntaxError : SharedFrame := .error (ascii "ERR syntax error")

def notAnInteger : SharedFrame := .error (ascii "ERR value is not an integer or out of range")

/-- The loop of `parse_set_options`. An argument that is no option is skipped. -/
def parseSetOptionsFrom (opts : SetOptions) : List SharedByte → Except SharedFrame SetOptions
  | [] => .ok opts
  | arg :: rest =>
    if eqIgnoreAsciiCase arg "EX" then match rest with
      | [] => .error syntaxError
      | secs :: rest => match parseU64 secs with
        | none => .error notAnInteger
        | some secs => parseSetOptionsFrom { opts with ttl := some (.fromSecs secs) } rest
    else if eqIgnoreAsciiCase arg "PX" then match rest with
      | [] => .error syntaxError
      | ms :: rest => match parseU64 ms with
        | none => .error notAnInteger
        | some ms => parseSetOptionsFrom { opts with ttl := some (.fromMillis ms) } rest
    else if eqIgnoreAsciiCase arg "NX" then parseSetOptionsFrom { opts with condition := .ifNotExists } rest
    else if eqIgnoreAsciiCase arg "XX" then parseSetOptionsFrom { opts with condition := .ifExists } rest
    else parseSetOptionsFrom opts rest

def parseSetOptions (args : List SharedByte) : Except SharedFrame SetOptions := parseSetOptionsFrom .default args

/-! ## Frames -/

def wrongArgs (name : String) : SharedFrame := .error (ascii ("ERR wrong number of arguments for '" ++ name ++ "' command"))

def wrongType : SharedFrame := .error (ascii "WRONGTYPE Operation against a key holding the wrong kind of value")

def internalError : SharedFrame := .error (ascii "ERR internal error")

def notAFloat : SharedFrame := .error (ascii "ERR value is not a valid float")

def redisTypeStr : RedisType → String
  | .none => "none"
  | .string => "string"
  | .hash => "hash"
  | .list => "list"
  | .set => "set"
  | .zset => "zset"

/-- The text that also names the two types. -/
def wrongTypeGot (expected : String) (got : RedisType) : SharedFrame :=
  .error (ascii ("WRONGTYPE Operation against a key holding the wrong kind of value (expected " ++ expected ++ ", got " ++
    redisTypeStr got ++ ")"))

def integer (n : Nat) : SharedFrame := .integer (Int64.ofNat n)

def boolean (b : Bool) : SharedFrame := .integer (if b then 1 else 0)

def bulkOrNull : Option SharedByte → SharedFrame
  | some b => .bulkString b
  | none => .null

def bulks (l : List SharedByte) : SharedFrame := .array (l.map .bulkString)

def counterErr : IntError → SharedFrame
  | .notAnInteger => notAnInteger
  | .overflow => .error (ascii "ERR increment or decrement would overflow")

/-- `chunks_exact(2)`, each as a pair. -/
def chunksExact : List SharedByte → List (SharedByte × SharedByte)
  | a :: b :: rest => (a, b) :: chunksExact rest
  | _ => []

section Data

variable {P : Policy} {S : Type} [Score S]

/-- What a handler answers, with the store after it. -/
abbrev Answer (P : Policy) (S : Type) [Score S] := Exec (SharedFrame × OxidArt P (Value S))

/-- The frame for a result of the store. -/
def answer {α : Type} (frame : α → SharedFrame) (run : Exec (α × OxidArt P (Value S))) : Answer P S :=
  run.map fun p => (frame p.1, p.2)

/-- The three ways the results of the store become frames: errors of `TypeError` name the wrong type or are internal, those of
`RedisType` have a short or a long text. -/
def orInternal {α : Type} (frame : α → SharedFrame) : Except TypeError α → SharedFrame
  | .ok a => frame a
  | .error .valueNotSet => wrongType
  | .error .notAInt => internalError

def orWrongType {ε α : Type} (frame : α → SharedFrame) : Except ε α → SharedFrame
  | .ok a => frame a
  | .error _ => wrongType

def orExpected {α : Type} (expected : String) (frame : α → SharedFrame) : Except RedisType α → SharedFrame
  | .ok a => frame a
  | .error got => wrongTypeGot expected got

/-- A step of the store for each argument, in order. -/
def forEach {α : Type} (act : OxidArt P (Value S) → SharedByte → Exec (α × OxidArt P (Value S))) :
    List SharedByte → OxidArt P (Value S) → Exec (List α × OxidArt P (Value S))
  | [], st => .ok ([], st)
  | arg :: rest, st => do
    let (a, st) ← act st arg
    let (later, st) ← forEach act rest st
    return (a :: later, st)

/-! ## Strings -/

def asBytes : Value S → Option SharedByte
  | .string b => some b
  | .int n => some (i64Text n)
  | _ => none

def cmdGet (args : List SharedByte) (st : OxidArt P (Value S)) : Answer P S :=
  match args with
  | [] => .ok (wrongArgs "GET", st)
  | key :: _ => answer (fun
      | some val => match asBytes val with
        | some b => .bulkString b
        | none => wrongType
      | none => .null) (st.get key)

/-- Writing with the options: `set_ttl` if there is a duration, else `set`. -/
def setWith (opts : SetOptions) (key val : SharedByte) (st : OxidArt P (Value S)) : Answer P S := do
  let st ← match opts.ttl with
    | some duration => st.setTtl key duration.asSecs (.string val)
    | none => st.set key (.string val)
  return (respOk, st)

def cmdSet (args : List SharedByte) (st : OxidArt P (Value S)) : Answer P S :=
  match args with
  | key :: val :: options => match parseSetOptions options with
    | .error e => .ok (e, st)
    | .ok opts =>
      if opts.condition = .always then setWith opts key val st
      else do
        let (old, st) ← st.get key
        match opts.condition, old.isSome with
        | .ifNotExists, true => return (.null, st)
        | .ifExists, false => return (.null, st)
        | _, _ => setWith opts key val st
  | _ => .ok (wrongArgs "SET", st)

def cmdSetnx (args : List SharedByte) (st : OxidArt P (Value S)) : Answer P S :=
  match args with
  | key :: val :: _ => do
    let (old, st) ← st.get key
    if old.isSome then return (.integer 0, st) else return (.integer 1, ← st.set key (.string val))
  | _ => .ok (wrongArgs "SETNX", st)

def cmdSetex (args : List SharedByte) (st : OxidArt P (Value S)) : Answer P S :=
  match args with
  | key :: secs :: val :: _ => match parseU64 secs with
    | none => .ok (notAnInteger, st)
    | some secs => do return (respOk, ← st.setTtl key (Duration.fromSecs secs).asSecs (.string val))
  | _ => .ok (wrongArgs "SETEX", st)

def cmdMget (args : List SharedByte) (st : OxidArt P (Value S)) : Answer P S :=
  if args.isEmpty then .ok (wrongArgs "MGET", st)
  else answer (fun vals => .array (vals.map fun val => bulkOrNull (val.bind asBytes))) (forEach OxidArt.get args st)

/-- The loop of `MSET`. -/
def setAll : List (SharedByte × SharedByte) → OxidArt P (Value S) → Exec (OxidArt P (Value S))
  | [], st => .ok st
  | (key, val) :: rest, st => do setAll rest (← st.set key (.string val))

def cmdMset (args : List SharedByte) (st : OxidArt P (Value S)) : Answer P S :=
  if args.isEmpty || args.length % 2 ≠ 0 then .ok (wrongArgs "MSET", st)
  else do return (respOk, ← setAll (chunksExact args) st)

/-- The shape of `DEL` and `EXISTS`: how many of the keys gave a value. -/
def countHits (name : String) (act : OxidArt P (Value S) → SharedByte → Exec (Option (Value S) × OxidArt P (Value S)))
    (args : List SharedByte) (st : OxidArt P (Value S)) : Answer P S :=
  if args.isEmpty then .ok (wrongArgs name, st)
  else answer (fun vals => integer (vals.countP Option.isSome)) (forEach act args st)

def cmdDel (args : List SharedByte) (st : OxidArt P (Value S)) : Answer P S := countHits "DEL" OxidArt.del args st

def cmdExists (args : List SharedByte) (st : OxidArt P (Value S)) : Answer P S := countHits "EXISTS" OxidArt.get args st

def cmdType (args : List SharedByte) (st : OxidArt P (Value S)) : Answer P S :=
  match args with
  | [] => .ok (wrongArgs "TYPE", st)
  | key :: _ => answer (fun val => .simpleString (ascii (redisTypeStr ((val.map Value.redisType).getD .none)))) (st.get key)

/-! ## Counters -/

/-- What the four counters do with the key and the delta. -/
def count (st : OxidArt P (Value S)) (key : SharedByte) (delta : Int64) : Answer P S :=
  answer (fun
    | .ok val => .integer val
    | .error e => counterErr e) (st.incrby key delta)

def cmdIncr (args : List SharedByte) (st : OxidArt P (Value S)) : Answer P S :=
  match args with
  | [] => .ok (wrongArgs "INCR", st)
  | key :: _ => count st key 1

def cmdDecr (args : List SharedByte) (st : OxidArt P (Value S)) : Answer P S :=
  match args with
  | [] => .ok (wrongArgs "DECR", st)
  | key :: _ => count st key (-1)

def cmdIncrby (args : List SharedByte) (st : OxidArt P (Value S)) : Answer P S :=
  match args with
  | key :: delta :: _ => match parseI64 delta with
    | none => .ok (notAnInteger, st)
    | some delta => count st key delta
  | _ => .ok (wrongArgs "INCRBY", st)

/-- The negation wraps. -/
def cmdDecrby (args : List SharedByte) (st : OxidArt P (Value S)) : Answer P S :=
  match args with
  | key :: delta :: _ => match parseI64 delta with
    | none => .ok (notAnInteger, st)
    | some delta => count st key (-delta)
  | _ => .ok (wrongArgs "DECRBY", st)

/-! ## Expiry -/

/-- The shape of `TTL` and `PTTL`; `unit` is how many of the units a second has. A release build wraps the product. -/
def timeToLive (name : String) (unit : Nat) (args : List SharedByte) (st : OxidArt P (Value S)) : Answer P S :=
  match args with
  | [] => .ok (wrongArgs name, st)
  | key :: _ => do
    match ← st.getTtl key with
    | .keyNotExist => return (.integer (-2), st)
    | .keyWithoutTtl => return (.integer (-1), st)
    | .keyWithTtl secs => return (integer (secs * unit % 2 ^ 64), st)

def cmdTtl (args : List SharedByte) (st : OxidArt P (Value S)) : Answer P S := timeToLive "TTL" 1 args st

def cmdPttl (args : List SharedByte) (st : OxidArt P (Value S)) : Answer P S := timeToLive "PTTL" 1000 args st

/-- The shape of `EXPIRE` and `PEXPIRE`. -/
def expireIn (name : String) (refused : SharedFrame) (duration : Nat → Duration) (args : List SharedByte)
    (st : OxidArt P (Value S)) : Answer P S :=
  match args with
  | key :: n :: _ => match parseU64 n with
    | none => .ok (refused, st)
    | some n => answer boolean (st.expire key (duration n).asSecs)
  | _ => .ok (wrongArgs name, st)

def cmdExpire (args : List SharedByte) (st : OxidArt P (Value S)) : Answer P S :=
  expireIn "EXPIRE" (.error (ascii "ERR value is not an integer")) .fromSecs args st

def cmdPexpire (args : List SharedByte) (st : OxidArt P (Value S)) : Answer P S :=
  expireIn "PEXPIRE" notAnInteger .fromMillis args st

def cmdPersist (args : List SharedByte) (st : OxidArt P (Value S)) : Answer P S :=
  match args with
  | [] => .ok (wrongArgs "PERSIST", st)
  | key :: _ => answer boolean (st.persist key)

/-! ## Hashes -/

/-- The checks of the arguments most handlers share: a key, a key with a field, a key with at least one item. -/
def withKey (name : String) (args : List SharedByte) (st : OxidArt P (Value S)) (run : SharedByte → Answer P S) : Answer P S :=
  match args with
  | [] => .ok (wrongArgs name, st)
  | key :: _ => run key

def withField (name : String) (args : List SharedByte) (st : OxidArt P (Value S))
    (run : SharedByte → SharedByte → Answer P S) : Answer P S :=
  match args with
  | key :: field :: _ => run key field
  | _ => .ok (wrongArgs name, st)

def withItems (name : String) (args : List SharedByte) (st : OxidArt P (Value S))
    (run : SharedByte → List SharedByte → Answer P S) : Answer P S :=
  match args with
  | key :: item :: items => run key (item :: items)
  | _ => .ok (wrongArgs name, st)

/-- A key and at least one pair, as `HSET`, `HMSET` and `ZADD` take them. -/
def withPairs (name : String) (args : List SharedByte) (st : OxidArt P (Value S))
    (run : SharedByte → List (SharedByte × SharedByte) → Answer P S) : Answer P S :=
  match args with
  | key :: rest =>
    if args.length < 3 || args.length % 2 = 0 then .ok (wrongArgs name, st) else run key (chunksExact rest)
  | [] => .ok (wrongArgs name, st)

def count32 (n : UInt32) : SharedFrame := integer n.toNat

def cmdHset (args : List SharedByte) (st : OxidArt P (Value S)) : Answer P S :=
  withPairs "HSET" args st fun key fieldValues => answer (orInternal count32) (st.cmdHset key fieldValues none)

/-- The legacy command. -/
def cmdHmset (args : List SharedByte) (st : OxidArt P (Value S)) : Answer P S :=
  withPairs "HMSET" args st fun key fieldValues => answer (orInternal fun _ => respOk) (st.cmdHset key fieldValues none)

def cmdHget (args : List SharedByte) (st : OxidArt P (Value S)) : Answer P S :=
  withField "HGET" args st fun key field => answer (orWrongType bulkOrNull) (st.cmdHget key field)

def cmdHgetall (order : HashOrder) (args : List SharedByte) (st : OxidArt P (Value S)) : Answer P S :=
  withKey "HGETALL" args st fun key => answer (orWrongType bulks) (st.cmdHgetall order key)

def cmdHdel (args : List SharedByte) (st : OxidArt P (Value S)) : Answer P S :=
  withItems "HDEL" args st fun key fields => answer (orWrongType count32) (st.cmdHdel key fields)

def cmdHexists (args : List SharedByte) (st : OxidArt P (Value S)) : Answer P S :=
  withField "HEXISTS" args st fun key field => answer (orWrongType boolean) (st.cmdHexists key field)

def cmdHlen (args : List SharedByte) (st : OxidArt P (Value S)) : Answer P S :=
  withKey "HLEN" args st fun key => answer (orWrongType count32) (st.cmdHlen key)

def cmdHkeys (order : HashOrder) (args : List SharedByte) (st : OxidArt P (Value S)) : Answer P S :=
  withKey "HKEYS" args st fun key => answer (orWrongType bulks) (st.cmdHkeys order key)

def cmdHvals (order : HashOrder) (args : List SharedByte) (st : OxidArt P (Value S)) : Answer P S :=
  withKey "HVALS" args st fun key => answer (orWrongType bulks) (st.cmdHvals order key)

def cmdHmget (args : List SharedByte) (st : OxidArt P (Value S)) : Answer P S :=
  withItems "HMGET" args st fun key fields =>
    answer (orWrongType fun values => .array (values.map bulkOrNull)) (st.cmdHmget key fields)

/-- A field that is no integer is also reported as the wrong type. -/
def cmdHincrby (args : List SharedByte) (st : OxidArt P (Value S)) : Answer P S :=
  match args with
  | key :: field :: increment :: _ => match parseI64 increment with
    | none => .ok (notAnInteger, st)
    | some increment => answer (orWrongType .integer) (st.cmdHincrby key field increment)
  | _ => .ok (wrongArgs "HINCRBY", st)

/-! ## Sets -/

def cmdSadd (args : List SharedByte) (st : OxidArt P (Value S)) : Answer P S :=
  withItems "SADD" args st fun key members => answer (orInternal count32) (st.cmdSadd key members none)

def cmdSrem (args : List SharedByte) (st : OxidArt P (Value S)) : Answer P S :=
  withItems "SREM" args st fun key members => answer (orExpected "set" count32) (st.cmdSrem key members)

def cmdSismember (args : List SharedByte) (st : OxidArt P (Value S)) : Answer P S :=
  withField "SISMEMBER" args st fun key member => answer (orExpected "set" boolean) (st.cmdSismember key member)

def cmdScard (args : List SharedByte) (st : OxidArt P (Value S)) : Answer P S :=
  withKey "SCARD" args st fun key => answer (orExpected "set" count32) (st.cmdScard key)

def cmdSmembers (args : List SharedByte) (st : OxidArt P (Value S)) : Answer P S :=
  withKey "SMEMBERS" args st fun key => answer (orExpected "set" bulks) (st.cmdSmembers key)

def popped : Except TypeError OxidArt.SPOPResult → SharedFrame
  | .ok (.single member) => bulkOrNull member
  | .ok (.multiple members) => bulks members
  | .error .valueNotSet => wrongType
  | .error .notAInt => notAnInteger

def cmdSpop (args : List SharedByte) (st : OxidArt P (Value S)) : Answer P S :=
  withKey "SPOP" args st fun key => answer popped (st.cmdSpop key args[1]?)

/-! ## Sorted sets -/

def cmdZadd (parseF64 : SharedByte → Option S) (args : List SharedByte) (st : OxidArt P (Value S)) : Answer P S :=
  withPairs "ZADD" args st fun key pairs => match pairs.mapM (fun p => (parseF64 p.1).map fun score => (score, p.2)) with
    | none => .ok (notAFloat, st)
    | some scoreMembers => answer (orInternal count32) (st.cmdZadd key scoreMembers none)

def cmdZcard (args : List SharedByte) (st : OxidArt P (Value S)) : Answer P S :=
  match args with
  | [key] => answer (orExpected "zset" count32) (st.cmdZcard key)
  | _ => .ok (wrongArgs "ZCARD", st)

def cmdZrange (args : List SharedByte) (st : OxidArt P (Value S)) : Answer P S :=
  match args with
  | key :: start :: stop :: options => match parseI64 start, parseI64 stop with
    | some start, some stop =>
      let withScores := (options.head?).any (eqIgnoreAsciiCase · "WITHSCORES")
      answer (orExpected "zset" bulks) (st.cmdZrange key start stop withScores)
    | _, _ => .ok (notAnInteger, st)
  | _ => .ok (wrongArgs "ZRANGE", st)

def cmdZscore (args : List SharedByte) (st : OxidArt P (Value S)) : Answer P S :=
  match args with
  | [key, member] => answer (orExpected "zset" fun score => bulkOrNull (score.map Score.text)) (st.cmdZscore key member)
  | _ => .ok (wrongArgs "ZSCORE", st)

def cmdZrem (args : List SharedByte) (st : OxidArt P (Value S)) : Answer P S :=
  withItems "ZREM" args st fun key members => answer (orExpected "zset" count32) (st.cmdZrem key members)

def cmdZincrby (parseF64 : SharedByte → Option S) (args : List SharedByte) (st : OxidArt P (Value S)) : Answer P S :=
  match args with
  | [key, increment, member] => match parseF64 increment with
    | none => .ok (notAFloat, st)
    | some increment => answer (orInternal fun score => .bulkString (Score.text score)) (st.cmdZincrby key increment member)
  | _ => .ok (wrongArgs "ZINCRBY", st)

/-! ## The functions of the table -/

/-- What the functions behind `Handler::Data` take from the machine: the order of a `HashMap` and the reading of a float. -/
structure Library (S : Type) where
  order : HashOrder
  parseF64 : SharedByte → Option S

def DataFn.run (lib : Library S) : DataFn → List SharedByte → OxidArt P (Value S) → Answer P S
  | .cmdGet => Resp.cmdGet
  | .cmdSet => Resp.cmdSet
  | .cmdSetnx => Resp.cmdSetnx
  | .cmdSetex => Resp.cmdSetex
  | .cmdMget => Resp.cmdMget
  | .cmdMset => Resp.cmdMset
  | .cmdDel => Resp.cmdDel
  | .cmdExists => Resp.cmdExists
  | .cmdType => Resp.cmdType
  | .cmdIncr => Resp.cmdIncr
  | .cmdDecr => Resp.cmdDecr
  | .cmdIncrby => Resp.cmdIncrby
  | .cmdDecrby => Resp.cmdDecrby
  | .cmdTtl => Resp.cmdTtl
  | .cmdPttl => Resp.cmdPttl
  | .cmdExpire => Resp.cmdExpire
  | .cmdPexpire => Resp.cmdPexpire
  | .cmdPersist => Resp.cmdPersist
  | .cmdHset => Resp.cmdHset
  | .cmdHmset => Resp.cmdHmset
  | .cmdHget => Resp.cmdHget
  | .cmdHgetall => Resp.cmdHgetall lib.order
  | .cmdHdel => Resp.cmdHdel
  | .cmdHexists => Resp.cmdHexists
  | .cmdHlen => Resp.cmdHlen
  | .cmdHkeys => Resp.cmdHkeys lib.order
  | .cmdHvals => Resp.cmdHvals lib.order
  | .cmdHmget => Resp.cmdHmget
  | .cmdHincrby => Resp.cmdHincrby
  | .cmdSadd => Resp.cmdSadd
  | .cmdSrem => Resp.cmdSrem
  | .cmdSismember => Resp.cmdSismember
  | .cmdScard => Resp.cmdScard
  | .cmdSmembers => Resp.cmdSmembers
  | .cmdSpop => Resp.cmdSpop
  | .cmdZadd => Resp.cmdZadd lib.parseF64
  | .cmdZcard => Resp.cmdZcard
  | .cmdZrange => Resp.cmdZrange
  | .cmdZscore => Resp.cmdZscore
  | .cmdZrem => Resp.cmdZrem
  | .cmdZincrby => Resp.cmdZincrby lib.parseF64

/-- `ECHO`, `DBSIZE` and `FLUSHDB`. -/
def cmdEcho (args : List SharedByte) : SharedFrame :=
  match args with
  | [] => wrongArgs "ECHO"
  | arg :: _ => .bulkString arg

def cmdDbsize (st : OxidArt P (Value S)) : Answer P S := do
  let pairs ← st.getn []
  return (integer pairs.length, st)

def cmdFlushdb (st : OxidArt P (Value S)) : Answer P S := answer (fun _ => respOk) (st.deln [])

end Data

end Radixox.Server.Resp
