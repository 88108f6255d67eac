import Radixox.Oxidart.Value

/-!
# Typed commands

`counter.rs`, `hcommand.rs`, `scommand.rs` and `zcommand.rs` over the store. A
`&mut` into a node's value becomes the node's index with the value read there; the
command writes the changed value back (`putVal`).
-/

namespace Radixox.Oxidart
set_option autoImplicit false

namespace OxidArt

variable {P : Policy} {V : Type}

/-- Writing through the `&mut` into the value of the node `idx`. -/
def putVal (st : OxidArt P V) (idx : Nat) (v : V) : Exec (OxidArt P V) := do
  let node ← st.getNode idx
  return st.setNode idx { node with val := some v }

/-- `get_mut`: the node of a live key with its value. -/
def getMut (st : OxidArt P V) (key : Bytes) : Exec (Option (Nat × V) × OxidArt P V) := do
  let (idx, st) ← st.getIdx key
  match idx with
  | none => return (none, st)
  | some idx =>
    let node ← st.getNode idx
    return ((node.getValue st.now).map fun v => (idx, v), st)

/-- The shape of `get_hash_mut`, `get_btree_set_mut` and `get_zset_mut`: the node of the key with its
container, made from `empty` if the key holds nothing live; the flag says whether it was made. -/
def getOrCreate (st : OxidArt P V) (isContainer : V → Bool) (empty : V) (ttl : Option Nat) (key : Bytes) :
    Exec (Except TypeError (Nat × V × Bool) × OxidArt P V) := do
  let (nodeKey, st) ← st.ensureKey key
  let node ← st.getNode nodeKey
  match node.getValue st.now with
  | some v => if isContainer v then return (.ok (nodeKey, v, false), st) else return (.error .valueNotSet, st)
  | none =>
    let e ← match ttl with
      | some ttl => node.expAndRadix.setExp ttl
      | none => pure node.expAndRadix
    let node := { node with val := some empty, expAndRadix := e }
    let st := st.setNode nodeKey node
    -- The second `get_value_mut(now).unwrap()`.
    match node.getValue st.now with
    | some v => return (.ok (nodeKey, v, true), st)
    | none => .error .unwrapNone

variable {S : Type} [Score S]

/-! ## Counters -/

/-- `decrby` and the unit steps are `incrby` with another delta. -/
def incrby (st : OxidArt P (Value S)) (key : Bytes) (delta : Int64) :
    Exec (Except IntError Int64 × OxidArt P (Value S)) := do
  let live ← match st.traverseToKey key with
    | none => pure none
    | some idx =>
      let node ← st.getNode idx
      pure ((node.getValue st.now).map fun v => (idx, v))
  match live with
  | some (idx, v) => match v.incr delta with
    | .ok n => return (.ok n, ← st.putVal idx (.int n))
    | .error e => return (.error e, st)
  | none => return (.ok delta, ← st.set key (.int delta))

/-! ## The shapes of the commands -/

/-- `get_hash_mut`, `get_btree_set_mut` and `get_zset_mut` up to the `as_…_mut` that ends them. -/
def getContainer {C : Type} (st : OxidArt P (Value S)) (view : Value S → Except RedisType C) (empty : Value S)
    (ttl : Option Nat) (key : Bytes) : Exec (Except TypeError (Nat × C × Bool) × OxidArt P (Value S)) := do
  let (res, st) ← st.getOrCreate (fun v => (view v).isOk) empty ttl key
  match res with
  | .error e => return (.error e, st)
  | .ok (idx, v, created) => match view v with
    | .error _ => return (.error .valueNotSet, st)
    | .ok c => return (.ok (idx, c, created), st)

/-- What the writing commands do with the container they got: change it in place, unless `change` refuses. -/
def changeIn {C α : Type} (got : Exec (Except TypeError (Nat × C) × OxidArt P (Value S))) (wrap : C → Value S)
    (change : C → Except TypeError (α × C)) : Exec (Except TypeError α × OxidArt P (Value S)) := do
  let (res, st) ← got
  match res with
  | .error e => return (.error e, st)
  | .ok (idx, c) => match change c with
    | .error e => return (.error e, st)
    | .ok (reply, c) => return (.ok reply, ← st.putVal idx (wrap c))

/-- The loop over the arguments of a command: how often `act` reported true, and the container after it. -/
def countLoop {C ι : Type} (act : C → ι → Bool × C) (c : C) (items : List ι) : UInt32 × C :=
  items.foldl (fun (count, c) item =>
    let (hit, c) := act c item
    (if hit then count + 1 else count, c)) (0, c)

/-- The common shape of the reading commands: `absent` for a missing key, an error for another type. -/
def readAs {C α : Type} (st : OxidArt P (Value S)) (key : Bytes) (view : Value S → Except RedisType C) (absent : α)
    (read : C → α) : Exec (Except RedisType α × OxidArt P (Value S)) := do
  let (val, st) ← st.getMut key
  match val with
  | none => return (.ok absent, st)
  | some (_, v) => return ((view v).map read, st)

/-- The common shape of the removing commands: remove each item, then delete the key of an emptied container. -/
def removeFrom {C : Type} (st : OxidArt P (Value S)) (key : Bytes) (view : Value S → Except RedisType C)
    (wrap : C → Value S) (remove : C → Bytes → Bool × C) (isEmpty : C → Bool) (items : List Bytes) :
    Exec (Except RedisType UInt32 × OxidArt P (Value S)) := do
  let (val, st) ← st.getMut key
  match val with
  | none => return (.ok 0, st)
  | some (idx, v) => match view v with
    | .error e => return (.error e, st)
    | .ok c =>
      let (count, c) := countLoop remove c items
      let st ← st.putVal idx (wrap c)
      if isEmpty c then
        let (_, st) ← st.del key
        return (.ok count, st)
      else return (.ok count, st)

/-- `SMEMBERS` and `SCARD` delete an empty set on the way. -/
def readSet {α : Type} (st : OxidArt P (Value S)) (key : Bytes) (absent : α) (read : SortedSet Bytes → α) :
    Exec (Except RedisType α × OxidArt P (Value S)) := do
  let (val, st) ← st.getMut key
  match val with
  | none => return (.ok absent, st)
  | some (_, v) => match v.asSet with
    | .error e => return (.error e, st)
    | .ok set =>
      if set.isEmpty then
        let (_, st) ← st.del key
        return (.ok (read set), st)
      else return (.ok (read set), st)

/-! ## Hashes -/

def getHashMut (st : OxidArt P (Value S)) (ttl : Option Nat) (key : Bytes) :
    Exec (Except TypeError (Nat × InnerHCommand) × OxidArt P (Value S)) := do
  let (res, st) ← st.getContainer Value.asHash (.hash .new) ttl key
  return (res.map fun (idx, inner, _) => (idx, inner), st)

/-- `HSET`: the number of fields that were added (not updated). -/
def cmdHset (st : OxidArt P (Value S)) (key : Bytes) (fieldValues : List (Bytes × Bytes)) (ttl : Option Nat) :
    Exec (Except TypeError UInt32 × OxidArt P (Value S)) :=
  changeIn (st.getHashMut ttl key) .hash fun inner =>
    .ok (countLoop (fun inner (field, value) => inner.insert field value) inner fieldValues)

def cmdHget (st : OxidArt P (Value S)) (key field : Bytes) : Exec (Except RedisType (Option Bytes) × OxidArt P (Value S)) :=
  st.readAs key Value.asHash none (·.get field)

/-- `HGETALL`: a flat list of fields and values. -/
def cmdHgetall (order : HashOrder) (st : OxidArt P (Value S)) (key : Bytes) :
    Exec (Except RedisType (List Bytes) × OxidArt P (Value S)) :=
  st.readAs key Value.asHash [] (·.all order)

/-- `HDEL`: the number of fields that were removed. -/
def cmdHdel (st : OxidArt P (Value S)) (key : Bytes) (fields : List Bytes) :
    Exec (Except RedisType UInt32 × OxidArt P (Value S)) :=
  st.removeFrom key Value.asHash .hash InnerHCommand.discard InnerHCommand.isEmpty fields

def cmdHexists (st : OxidArt P (Value S)) (key field : Bytes) : Exec (Except RedisType Bool × OxidArt P (Value S)) :=
  st.readAs key Value.asHash false (·.containsKey field)

def cmdHlen (st : OxidArt P (Value S)) (key : Bytes) : Exec (Except RedisType UInt32 × OxidArt P (Value S)) :=
  st.readAs key Value.asHash 0 fun inner => UInt32.ofNat inner.len

def cmdHkeys (order : HashOrder) (st : OxidArt P (Value S)) (key : Bytes) :
    Exec (Except RedisType (List Bytes) × OxidArt P (Value S)) :=
  st.readAs key Value.asHash [] (·.keys order)

def cmdHvals (order : HashOrder) (st : OxidArt P (Value S)) (key : Bytes) :
    Exec (Except RedisType (List Bytes) × OxidArt P (Value S)) :=
  st.readAs key Value.asHash [] (·.values order)

def cmdHmget (st : OxidArt P (Value S)) (key : Bytes) (fields : List Bytes) :
    Exec (Except RedisType (List (Option Bytes)) × OxidArt P (Value S)) :=
  st.readAs key Value.asHash (fields.map fun _ => none) fun inner => fields.map inner.get

/-- `HINCRBY`: a missing field counts as 0. -/
def cmdHincrby (st : OxidArt P (Value S)) (key field : Bytes) (increment : Int64) :
    Exec (Except TypeError Int64 × OxidArt P (Value S)) :=
  changeIn (st.getHashMut none key) .hash fun inner =>
    let current := match inner.get field with
      | some bytes => parseI64 bytes
      | none => some 0
    match current.bind (checkedAdd · increment) with
    | none => .error .notAInt
    | some newVal => .ok (newVal, (inner.insert field (i64Text newVal)).2)

/-! ## Sets -/

def getBtreeSetMut (st : OxidArt P (Value S)) (ttl : Option Nat) (key : Bytes) :
    Exec (Except TypeError (Nat × SortedSet Bytes) × OxidArt P (Value S)) := do
  let (res, st) ← st.getContainer Value.asSet (.set .empty) ttl key
  return (res.map fun (idx, members, _) => (idx, members), st)

/-- Decimal digits with a value that fits `u32`. -/
def parseU32 (data : Bytes) : Option Nat :=
  if data.isEmpty then none else (parseDigits data 0).filter (· < 2 ^ 32)

inductive SPOPResult where
  | single (member : Option Bytes)
  | multiple (members : List Bytes)
deriving DecidableEq

/-- `SPOP`: the largest members; a set that becomes empty stays. -/
def cmdSpop (st : OxidArt P (Value S)) (key : Bytes) (count : Option Bytes) :
    Exec (Except TypeError SPOPResult × OxidArt P (Value S)) :=
  match (match count with
    | some bytes => (parseU32 bytes).filter (0 < ·)
    | none => some 1) with
  | none => .ok (.error .notAInt, st)
  | some count => changeIn (st.getBtreeSetMut none key) .set fun set =>
      if count = 1 then
        let (member, set) := set.popLast
        .ok (.single member, set)
      else
        let (members, set) := set.popMany count
        .ok (.multiple members, set)

/-- `SADD`: the number of members that were added. -/
def cmdSadd (st : OxidArt P (Value S)) (key : Bytes) (members : List Bytes) (ttl : Option Nat) :
    Exec (Except TypeError UInt32 × OxidArt P (Value S)) :=
  changeIn (st.getBtreeSetMut ttl key) .set fun set => .ok (countLoop SortedSet.insert set members)

def cmdSrem (st : OxidArt P (Value S)) (key : Bytes) (members : List Bytes) :
    Exec (Except RedisType UInt32 × OxidArt P (Value S)) :=
  st.removeFrom key Value.asSet .set SortedSet.remove SortedSet.isEmpty members

def cmdSmembers (st : OxidArt P (Value S)) (key : Bytes) :
    Exec (Except RedisType (List Bytes) × OxidArt P (Value S)) :=
  st.readSet key [] SortedSet.items

def cmdSismember (st : OxidArt P (Value S)) (key member : Bytes) : Exec (Except RedisType Bool × OxidArt P (Value S)) :=
  st.readAs key Value.asSet false (·.contains member)

def cmdScard (st : OxidArt P (Value S)) (key : Bytes) : Exec (Except RedisType UInt32 × OxidArt P (Value S)) :=
  st.readSet key 0 fun set => UInt32.ofNat set.len

/-! ## Sorted sets -/

/-- Unlike its siblings, it also tags the node for the evictor when it sets an expiry. -/
def getZsetMut (st : OxidArt P (Value S)) (ttl : Option Nat) (key : Bytes) :
    Exec (Except TypeError (Nat × InnerZCommand S) × OxidArt P (Value S)) := do
  let (res, st) ← st.getContainer Value.asZset (.zset .new) ttl key
  match res with
  | .error e => return (.error e, st)
  | .ok (idx, zset, created) =>
    let st := if created && ttl.isSome then { st with map := st.map.tag idx } else st
    return (.ok (idx, zset), st)

/-- `ZADD`: the number of new members (not including updates). -/
def cmdZadd (st : OxidArt P (Value S)) (key : Bytes) (scoreMembers : List (S × Bytes)) (ttl : Option Nat) :
    Exec (Except TypeError UInt32 × OxidArt P (Value S)) :=
  changeIn (st.getZsetMut ttl key) .zset fun zset =>
    .ok (countLoop (fun zset (score, member) => zset.insert score member) zset scoreMembers)

def cmdZcard (st : OxidArt P (Value S)) (key : Bytes) : Exec (Except RedisType UInt32 × OxidArt P (Value S)) :=
  st.readAs key Value.asZset 0 fun zset => UInt32.ofNat zset.len

/-- The normalized bounds of `ZRANGE`; `none` for an empty range. -/
def zrangeBounds (len : Nat) (start stop : Int64) : Option (Nat × Nat) :=
  if len = 0 then none
  else
    let start := if start.toInt < 0 then (max (len + start.toInt) 0).toNat else (min start.toInt len).toNat
    let stop := if stop.toInt < 0 then (max (len + stop.toInt) 0).toNat else (min stop.toInt (len - 1)).toNat
    if start > stop then none else some (start, stop)

/-- The members of the range, each followed by its score if asked for. -/
def zrangeItems (zset : InnerZCommand S) (start stop : Int64) (withScores : Bool) : List Bytes :=
  match zrangeBounds zset.len start stop with
  | none => []
  | some (start, stop) => ((zset.iter.drop start).take (stop - start + 1)).flatMap fun x =>
      if withScores then [x.member, Score.text x.score] else [x.member]

def cmdZrange (st : OxidArt P (Value S)) (key : Bytes) (start stop : Int64) (withScores : Bool) :
    Exec (Except RedisType (List Bytes) × OxidArt P (Value S)) :=
  st.readAs key Value.asZset [] fun zset => zrangeItems zset start stop withScores

def cmdZscore (st : OxidArt P (Value S)) (key member : Bytes) :
    Exec (Except RedisType (Option S) × OxidArt P (Value S)) :=
  st.readAs key Value.asZset none (·.score member)

def cmdZrem (st : OxidArt P (Value S)) (key : Bytes) (members : List Bytes) :
    Exec (Except RedisType UInt32 × OxidArt P (Value S)) :=
  st.removeFrom key Value.asZset .zset InnerZCommand.remove InnerZCommand.isEmpty members

/-- `ZINCRBY`: a missing member starts from the increment. -/
def cmdZincrby (st : OxidArt P (Value S)) (key : Bytes) (increment : S) (member : Bytes) :
    Exec (Except TypeError S × OxidArt P (Value S)) :=
  changeIn (st.getZsetMut none key) .zset fun zset =>
    let newScore := match zset.score member with
      | some current => Score.add current increment
      | none => increment
    .ok (newScore, (zset.insert newScore member).2)

end OxidArt

end Radixox.Oxidart
