import Radixox.Oxidart.RawValues

/-!
# All commands over the slabs

The rest of the typed commands as the code runs them: a node gives a tag with an index, a container is read and changed in its slot,
and what leaves the tree gives its slot back. With `RawValues` this is every operation of `Command`.
-/

namespace Radixox.Oxidart
set_option autoImplicit false

/-- `Tag::redis_type`. -/
def RawVal.redisType : RawVal → RedisType
  | int _ | bytes _ => .string
  | slot .hash _ => .hash
  | slot .set _ => .set
  | slot .zset _ => .zset
  | slot .list _ => .list

/-- `NodeValMut::as_hash`, `as_hash_mut` and their siblings: the index of a container with what its slot stores. -/
def Slabs.view {P : Policy} {S : Type} [Score S] (slabs : Slabs P S) (kind : SlabKind) (v : RawVal) :
    Exec (Except RedisType (Nat × kind.Content S)) :=
  match v.slotOf kind with
  | none => .ok (.error v.redisType)
  | some idx => match (slabs kind).get idx with
    | some content => .ok (.ok (idx, content))
    | none => .error .unwrapNone

namespace RawStore

variable {P : Policy} {S : Type} [Score S]

/-! ## The tree -/

def expire (s : RawStore P S) (key : Bytes) (ttl : Nat) : Exec (Bool × RawStore P S) := do
  let (b, tree) ← s.tree.expire key ttl
  return (b, { s with tree := tree })

def persist (s : RawStore P S) (key : Bytes) : Exec (Bool × RawStore P S) := do
  let (b, tree) ← s.tree.persist key
  return (b, { s with tree := tree })

/-- Each live value on the way is cloned. -/
def getn (s : RawStore P S) (pfx : Bytes) : Exec (List (Bytes × Value S)) := do
  let pairs ← s.tree.getn pfx
  pairs.mapM fun p => do return (p.1, ← s.slabs.valueFromRawRef p.2)

/-- An evicted node drops its value, with `clear_val` or with the node itself. -/
def evictSampled (s : RawStore P S) (idx : Nat) (node : Node RawVal) : Exec (Bool × RawStore P S) :=
  if node.isExpired s.tree.now then match node.parentIdx with
    | none => .ok (false, s)
    | some parentIdx => do
      let tree ← s.tree.deleteNodeForEviction idx parentIdx node.expAndRadix.parentRadix
      return (true, ⟨tree, s.slabs.dropAll node.val.toList⟩)
  else .ok (false, s)

def evictCycle (draws : Nat → Nat) : Nat → RawStore P S → Exec (Nat × Nat × RawStore P S)
  | 0, s => .ok (0, 0, s)
  | turns + 1, s => match s.tree.map.randomTagged (draws turns) with
    | none => .ok (0, 0, s)
    | some (idx, node) => do
      let (hit, s) ← s.evictSampled idx node
      let (evicted, sampled, s) ← evictCycle draws turns s
      return (evicted + (if hit then 1 else 0), sampled + 1, s)

def evictRounds (draws : Nat → Nat → Nat) : Nat → RawStore P S → Exec (Nat × RawStore P S)
  | 0, s => .ok (0, s)
  | rounds + 1, s => do
    let (evicted, sampled, s) ← evictCycle (draws rounds) OxidArt.SAMPLE_SIZE s
    if sampled < OxidArt.SAMPLE_SIZE ∨ evicted < OxidArt.THRESHOLD then return (evicted, s)
    else
      let (total, s) ← evictRounds draws rounds s
      return (evicted + total, s)

def evictExpired (s : RawStore P S) (draws : Nat → Nat → Nat) : Exec (Nat × RawStore P S) := evictRounds draws OxidArt.MAX_SAMPLE s

def execTree (s : RawStore P S) : TreeOp (Value S) → Exec (TreeReply (Value S) × RawStore P S)
  | .set key v => do return (.done, ← s.set key v)
  | .setTtl key ttl v => do return (.done, ← s.setTtl key ttl v)
  | .expire key ttl => do
    let (b, s) ← s.expire key ttl
    return (.flag b, s)
  | .persist key => do
    let (b, s) ← s.persist key
    return (.flag b, s)
  | .get key => do
    let (v, s) ← s.get key
    return (.value v, s)
  | .getTtl key => do return (.ttl (← s.tree.getTtl key), s)
  | .getn pfx => do return (.pairs (← s.getn pfx), s)
  | .del key => do
    let (v, s) ← s.del key
    return (.value v, s)
  | .deln pfx => do
    let (n, s) ← s.deln pfx
    return (.count n, s)
  | .setNow now => .ok (.done, s.setNow now)
  | .evict draws => do
    let (n, s) ← s.evictExpired draws
    return (.count n, s)

/-! ## The shapes of the commands -/

/-- `get_mut`: the tag with its union; the value of an expired node is dropped on the way. -/
def getMut (s : RawStore P S) (key : Bytes) : Exec (Option RawVal × RawStore P S) := do
  let slabs := s.slabs.dropAll (s.tree.lapsed key).toList
  let (found, tree) ← s.tree.getMut key
  return (found.map Prod.snd, ⟨tree, slabs⟩)

/-- `changeIn` for a change that may refuse. -/
def tryChangeIn {α : Type} (got : Exec (Except TypeError Nat × RawStore P S)) (kind : SlabKind)
    (change : kind.Content S → Except TypeError (α × kind.Content S)) : Exec (Except TypeError α × RawStore P S) := do
  let (res, s) ← got
  match res with
  | .error e => return (.error e, s)
  | .ok idx => match (s.slabs kind).get idx with
    | none => .error .unwrapNone
    | some content => match change content with
      | .error e => return (.error e, s)
      | .ok (reply, content) => return (.ok reply, { s with slabs := s.slabs.write kind idx content })

def readAs {α : Type} (s : RawStore P S) (key : Bytes) (kind : SlabKind) (absent : α) (read : kind.Content S → α) :
    Exec (Except RedisType α × RawStore P S) := do
  let (val, s) ← s.getMut key
  match val with
  | none => return (.ok absent, s)
  | some v =>
    let seen ← s.slabs.view kind v
    return (seen.map fun p => read p.2, s)

def removeFrom (s : RawStore P S) (key : Bytes) (kind : SlabKind) (remove : kind.Content S → Bytes → Bool × kind.Content S)
    (isEmpty : kind.Content S → Bool) (items : List Bytes) : Exec (Except RedisType UInt32 × RawStore P S) := do
  let (val, s) ← s.getMut key
  match val with
  | none => return (.ok 0, s)
  | some v => match ← s.slabs.view kind v with
    | .error e => return (.error e, s)
    | .ok (idx, content) =>
      let (count, content) := OxidArt.countLoop remove content items
      let s := { s with slabs := s.slabs.write kind idx content }
      if isEmpty content then
        let (_, s) ← s.del key
        return (.ok count, s)
      else return (.ok count, s)

def readSet {α : Type} (s : RawStore P S) (key : Bytes) (absent : α) (read : SortedSet Bytes → α) :
    Exec (Except RedisType α × RawStore P S) := do
  let (val, s) ← s.getMut key
  match val with
  | none => return (.ok absent, s)
  | some v => match ← s.slabs.view .set v with
    | .error e => return (.error e, s)
    | .ok (_, set) =>
      if SortedSet.isEmpty set then
        let (_, s) ← s.del key
        return (.ok (read set), s)
      else return (.ok (read set), s)

/-! ## The commands -/

def cmdHincrby (s : RawStore P S) (key field : Bytes) (increment : Int64) : Exec (Except TypeError Int64 × RawStore P S) :=
  tryChangeIn (s.getHashMut none key) .hash fun inner =>
    let current := match InnerHCommand.get inner field with
      | some bytes => parseI64 bytes
      | none => some 0
    match current.bind (checkedAdd · increment) with
    | none => .error .notAInt
    | some newVal => .ok (newVal, (InnerHCommand.insert inner field (i64Text newVal)).2)

def cmdSpop (s : RawStore P S) (key : Bytes) (count : Option Bytes) : Exec (Except TypeError OxidArt.SPOPResult × RawStore P S) :=
  match (match count with
    | some bytes => (OxidArt.parseU32 bytes).filter (0 < ·)
    | none => some 1) with
  | none => .ok (.error .notAInt, s)
  | some count => changeIn (s.getBtreeSetMut none key) .set fun set =>
      if count = 1 then
        let (member, set) := SortedSet.popLast set
        (.single member, set)
      else
        let (members, set) := SortedSet.popMany count set
        (.multiple members, set)

def cmdZincrby (s : RawStore P S) (key : Bytes) (increment : S) (member : Bytes) : Exec (Except TypeError S × RawStore P S) :=
  changeIn (s.getZsetMut none key) .zset fun zset =>
    let newScore := match InnerZCommand.score zset member with
      | some current => Score.add current increment
      | none => increment
    (newScore, (InnerZCommand.insert zset newScore member).2)

/-- Every command, with the tree over raw values. -/
def command (order : HashOrder) (s : RawStore P S) : Command S → Exec (Reply S × RawStore P S)
  | .tree op => (s.execTree op).map fun p => (.tree p.1, p.2)
  | .incrby key delta => (s.incrby key delta).map fun p => (.counter p.1, p.2)
  | .hset key fieldValues ttl => (s.cmdHset key fieldValues ttl).map fun p => (.added p.1, p.2)
  | .hget key field => (s.readAs key .hash none (InnerHCommand.get · field)).map fun p => (.bytes p.1, p.2)
  | .hgetall key => (s.readAs key .hash [] (InnerHCommand.all order)).map fun p => (.list p.1, p.2)
  | .hdel key fields => (s.removeFrom key .hash InnerHCommand.discard InnerHCommand.isEmpty fields).map fun p => (.count p.1, p.2)
  | .hexists key field => (s.readAs key .hash false (InnerHCommand.containsKey · field)).map fun p => (.flag p.1, p.2)
  | .hlen key => (s.readAs key .hash 0 fun inner => UInt32.ofNat (InnerHCommand.len inner)).map fun p => (.count p.1, p.2)
  | .hkeys key => (s.readAs key .hash [] (InnerHCommand.keys order)).map fun p => (.list p.1, p.2)
  | .hvals key => (s.readAs key .hash [] (InnerHCommand.values order)).map fun p => (.list p.1, p.2)
  | .hmget key fields => (s.readAs key .hash (fields.map fun _ => none) fun inner => fields.map (InnerHCommand.get inner)).map
      fun p => (.options p.1, p.2)
  | .hincrby key field increment => (s.cmdHincrby key field increment).map fun p => (.integer p.1, p.2)
  | .spop key count => (s.cmdSpop key count).map fun p => (.popped p.1, p.2)
  | .sadd key members ttl => (s.cmdSadd key members ttl).map fun p => (.added p.1, p.2)
  | .srem key members => (s.removeFrom key .set SortedSet.remove SortedSet.isEmpty members).map fun p => (.count p.1, p.2)
  | .smembers key => (s.readSet key [] SortedSet.items).map fun p => (.list p.1, p.2)
  | .sismember key member => (s.readAs key .set false (SortedSet.contains · member)).map fun p => (.flag p.1, p.2)
  | .scard key => (s.readSet key 0 fun set => UInt32.ofNat set.len).map fun p => (.count p.1, p.2)
  | .zadd key scoreMembers ttl => (s.cmdZadd key scoreMembers ttl).map fun p => (.added p.1, p.2)
  | .zcard key => (s.readAs key .zset 0 fun zset => UInt32.ofNat (InnerZCommand.len zset)).map fun p => (.count p.1, p.2)
  | .zrange key start stop withScores => (s.readAs key .zset [] fun zset => OxidArt.zrangeItems zset start stop withScores).map
      fun p => (.list p.1, p.2)
  | .zscore key member => (s.readAs key .zset none (InnerZCommand.score · member)).map fun p => (.score p.1, p.2)
  | .zrem key members => (s.removeFrom key .zset InnerZCommand.remove InnerZCommand.isEmpty members).map fun p => (.count p.1, p.2)
  | .zincrby key increment member => (s.cmdZincrby key increment member).map fun p => (.newScore p.1, p.2)

end RawStore

end Radixox.Oxidart
