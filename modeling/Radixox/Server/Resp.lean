import Radixox.Server.Registry

/-!
# Commands

`bin/resp.rs` from a decoded frame to the handler of its command: the words of the
frame, their case and the table of `get_handler`. What the handlers of data commands
answer is not decided here.
-/

namespace Radixox.Server.Resp
set_option autoImplicit false

/-- A frame as `decode_bytes_mut` gives it. -/
inductive BytesFrame where
  | simpleString (s : SharedByte)
  | error (s : SharedByte)
  | integer (i : Int64)
  | bulkString (b : SharedByte)
  | array (frames : List BytesFrame)
  | null

/-- The two kinds of frames that are words of a command. -/
def BytesFrame.word : BytesFrame → Option SharedByte
  | .bulkString b => some b
  | .simpleString s => some s
  | _ => none

def frameToArgs : BytesFrame → Option (SharedByte × List SharedByte)
  | .array (first :: rest) => do
    let cmd ← first.word
    let args ← rest.mapM BytesFrame.word
    return (cmd, args)
  | .bulkString b => some (b, [])
  | .simpleString s => some (s, [])
  | _ => none

def toAsciiUppercase (b : UInt8) : UInt8 := if 97 ≤ b ∧ b ≤ 122 then b - 32 else b

def toUppercase (cmd : SharedByte) : SharedByte := cmd.map toAsciiUppercase

/-! ## The table of handlers -/

/-- The functions behind `Handler::Data`. -/
inductive DataFn where
  | cmdGet | cmdSet | cmdSetnx | cmdSetex | cmdMget | cmdMset | cmdDel | cmdExists | cmdType
  | cmdIncr | cmdDecr | cmdIncrby | cmdDecrby
  | cmdTtl | cmdPttl | cmdExpire | cmdPexpire | cmdPersist
  | cmdHset | cmdHmset | cmdHget | cmdHgetall | cmdHdel | cmdHexists | cmdHlen | cmdHkeys | cmdHvals | cmdHmget | cmdHincrby
  | cmdSadd | cmdSrem | cmdSismember | cmdScard | cmdSmembers | cmdSpop
  | cmdZadd | cmdZcard | cmdZrange | cmdZscore | cmdZrem | cmdZincrby
deriving DecidableEq

inductive DataOnlyFn where
  | cmdDbsize | cmdFlushdb
deriving DecidableEq

inductive AsyncFn where
  | cmdKeys | cmdUnlink
deriving DecidableEq

inductive Handler where
  /-- `SELECT`, which only answers OK. -/
  | static
  /-- `ECHO`. -/
  | args
  | data (f : DataFn)
  | dataOnly (f : DataOnlyFn)
  | async (f : AsyncFn)
  | ping
  | quit
  | subscribe
  | unsubscribe
  | publish
deriving DecidableEq

/-- The arms of `get_handler`. -/
def handlers : List (String × Handler) := [
  ("PING", .ping), ("QUIT", .quit), ("SELECT", .static), ("ECHO", .args),
  ("SUBSCRIBE", .subscribe), ("UNSUBSCRIBE", .unsubscribe), ("PUBLISH", .publish),
  ("GET", .data .cmdGet), ("SET", .data .cmdSet), ("SETNX", .data .cmdSetnx), ("SETEX", .data .cmdSetex),
  ("MGET", .data .cmdMget), ("MSET", .data .cmdMset), ("DEL", .data .cmdDel), ("EXISTS", .data .cmdExists),
  ("TYPE", .data .cmdType), ("KEYS", .async .cmdKeys), ("UNLINK", .async .cmdUnlink),
  ("INCR", .data .cmdIncr), ("DECR", .data .cmdDecr), ("INCRBY", .data .cmdIncrby), ("DECRBY", .data .cmdDecrby),
  ("TTL", .data .cmdTtl), ("PTTL", .data .cmdPttl), ("EXPIRE", .data .cmdExpire), ("PEXPIRE", .data .cmdPexpire),
  ("PERSIST", .data .cmdPersist), ("DBSIZE", .dataOnly .cmdDbsize), ("FLUSHDB", .dataOnly .cmdFlushdb),
  ("HSET", .data .cmdHset), ("HMSET", .data .cmdHmset), ("HGET", .data .cmdHget), ("HGETALL", .data .cmdHgetall),
  ("HDEL", .data .cmdHdel), ("HEXISTS", .data .cmdHexists), ("HLEN", .data .cmdHlen), ("HKEYS", .data .cmdHkeys),
  ("HVALS", .data .cmdHvals), ("HMGET", .data .cmdHmget), ("HINCRBY", .data .cmdHincrby),
  ("SADD", .data .cmdSadd), ("SREM", .data .cmdSrem), ("SISMEMBER", .data .cmdSismember), ("SCARD", .data .cmdScard),
  ("SMEMBERS", .data .cmdSmembers), ("SPOP", .data .cmdSpop),
  ("ZADD", .data .cmdZadd), ("ZCARD", .data .cmdZcard), ("ZRANGE", .data .cmdZrange), ("ZSCORE", .data .cmdZscore),
  ("ZREM", .data .cmdZrem), ("ZINCRBY", .data .cmdZincrby)]

def getHandler (cmd : SharedByte) : Option Handler := (handlers.find? fun arm => ascii arm.1 = cmd).map Prod.snd

/-! ## Replies of the connection itself -/

def respPong : SharedFrame := .simpleString (ascii "PONG")

def respOk : SharedFrame := .simpleString (ascii "OK")

def ERR_EMPTY_CMD : SharedByte := ascii "ERR empty command"

/-- The ranges of the bytes that follow a first byte in UTF-8. `none` if no character starts with it. -/
def utf8Follow (b : UInt8) : Option (List (UInt8 × UInt8)) :=
  let tail : UInt8 × UInt8 := (0x80, 0xBF)
  if b < 0x80 then some []
  else if 0xC2 ≤ b ∧ b ≤ 0xDF then some [tail]
  else if b = 0xE0 then some [(0xA0, 0xBF), tail]
  else if b = 0xED then some [(0x80, 0x9F), tail]
  else if 0xE1 ≤ b ∧ b ≤ 0xEF then some [tail, tail]
  else if b = 0xF0 then some [(0x90, 0xBF), tail, tail]
  else if 0xF1 ≤ b ∧ b ≤ 0xF3 then some [tail, tail, tail]
  else if b = 0xF4 then some [(0x80, 0x8F), tail, tail]
  else none

/-- How many of the bytes that are to follow do. -/
def utf8Matched : List (UInt8 × UInt8) → SharedByte → Nat
  | (low, high) :: ranges, b :: rest => if low ≤ b ∧ b ≤ high then utf8Matched ranges rest + 1 else 0
  | _, _ => 0

/-- `String::from_utf8_lossy`: each longest start of a character that is not one becomes U+FFFD. -/
def fromUtf8Lossy (bytes : SharedByte) : SharedByte :=
  loop bytes.length bytes
where
  loop : Nat → SharedByte → SharedByte
  | fuel + 1, b :: rest => match utf8Follow b with
    | none => [0xEF, 0xBF, 0xBD] ++ loop fuel rest
    | some ranges =>
      let n := utf8Matched ranges rest
      (if n = ranges.length then b :: rest.take n else [0xEF, 0xBF, 0xBD]) ++ loop fuel (rest.drop n)
  | _, _ => []

end Radixox.Server.Resp
