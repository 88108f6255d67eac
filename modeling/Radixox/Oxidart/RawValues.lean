import Radixox.Oxidart.Holdings
import Radixox.Oxidart.Operations

/-!
# Values as tags with indices

How `value.rs` stores what the typed commands see: a node holds a tag and a union (`RawVal`), and a container lives in the slab of its
tag, under an index that the node owns. The tree functions move raw values and never look into them, so each public operation is the
one of the tree over raw values, with the slots that it takes and gives back on the way.
-/

namespace Radixox.Oxidart
set_option autoImplicit false

/-- The tags whose values have a slab of their own. -/
inductive SlabKind where
  | hash | set | zset | list
deriving DecidableEq

/-- What the slab of a tag stores. -/
def SlabKind.Content (S : Type) [Score S] : SlabKind → Type
  | .hash => InnerHCommand
  | .set => SortedSet Bytes
  | .zset => InnerZCommand S
  | .list => List Bytes

/-- A `Tag` other than `Tag::None` with its `ValUnion`. -/
inductive RawVal where
  | int (n : Int64)
  | bytes (b : Bytes)
  | slot (kind : SlabKind) (idx : Nat)

namespace RawVal

/-- The index that the value owns in the slab of a tag. -/
def slotOf (kind : SlabKind) : RawVal → Option Nat
  | slot kind' idx => if kind' = kind then some idx else none
  | _ => none

/-- `NodeValMut::incr`: the new integer, which also becomes the value. -/
def incr (v : RawVal) (delta : Int64) : Except IntError Int64 := do
  let current ← match v with
    | int n => .ok n
    | bytes b => match parseI64 b with
      | some n => .ok n
      | none => .error .notAnInteger
    | slot .. => .error .notAnInteger
  match checkedAdd current delta with
  | some n => .ok n
  | none => .error .overflow

end RawVal

/-! ## The slabs -/

/-- `HASH_SLAB`, `SET_SLAB`, `ZSET_SLAB` and `LIST_SLAB`. -/
abbrev Slabs (P : Policy) (S : Type) [Score S] : Type := (kind : SlabKind) → TaggedHiSlab P (kind.Content S)

namespace Slabs

variable {P : Policy} {S : Type} [Score S]

/-- `init_slabs`. -/
def init : Slabs P S := fun _ => .empty

/-- `alloc_hash` and its siblings. -/
def alloc (slabs : Slabs P S) (kind : SlabKind) (content : kind.Content S) : Nat × Slabs P S :=
  let (idx, slab) := (slabs kind).insert content
  (idx, Function.update slabs kind slab)

/-- `free_hash` and its siblings. -/
def free (slabs : Slabs P S) (kind : SlabKind) (idx : Nat) : Slabs P S :=
  Function.update slabs kind ((slabs kind).remove idx).2

/-- Writing through `hash_mut` and its siblings. -/
def write (slabs : Slabs P S) (kind : SlabKind) (idx : Nat) (content : kind.Content S) : Slabs P S :=
  Function.update slabs kind ((slabs kind).set idx content)

/-- The value of a slot. -/
def valueOf : (kind : SlabKind) → kind.Content S → Value S
  | .hash, inner => .hash inner
  | .set, members => .set members
  | .zset, inner => .zset inner
  | .list, items => .list items

/-- Converts an owned `Value`. Containers are allocated into their slab; the returned index owns the slot. -/
def valueIntoRaw (slabs : Slabs P S) : Value S → RawVal × Slabs P S
  | .int n => (.int n, slabs)
  | .string bytes => (.bytes bytes, slabs)
  | .hash inner =>
    let (idx, slabs) := slabs.alloc .hash inner
    (.slot .hash idx, slabs)
  | .set members =>
    let (idx, slabs) := slabs.alloc .set members
    (.slot .set idx, slabs)
  | .zset inner =>
    let (idx, slabs) := slabs.alloc .zset inner
    (.slot .zset idx, slabs)
  | .list items =>
    let (idx, slabs) := slabs.alloc .list items
    (.slot .list idx, slabs)

/-- Constructs an owned `Value` from a shared raw one, cloning heap data. -/
def valueFromRawRef (slabs : Slabs P S) : RawVal → Exec (Value S)
  | .int n => .ok (.int n)
  | .bytes b => .ok (.string b)
  | .slot kind idx => match (slabs kind).get idx with
    | some content => .ok (valueOf kind content)
    | none => .error .unwrapNone

/-- Consumes a raw value and returns the owned `Value`, removing any slab slot. -/
def valueTakeRaw (slabs : Slabs P S) : RawVal → Exec (Value S × Slabs P S)
  | .int n => .ok (.int n, slabs)
  | .bytes b => .ok (.string b, slabs)
  | .slot kind idx => match (slabs kind).get idx with
    | some content => .ok (valueOf kind content, slabs.free kind idx)
    | none => .error .unwrapNone

/-- Drops the resources owned by a raw value without constructing a `Value`. -/
def dropRaw (slabs : Slabs P S) : RawVal → Slabs P S
  | .slot kind idx => slabs.free kind idx
  | _ => slabs

/-- The values of several nodes are dropped one after the other. -/
def dropAll (slabs : Slabs P S) (vals : List RawVal) : Slabs P S := vals.foldl dropRaw slabs

end Slabs

/-! ## The operations -/

/-- The tree over raw values, with the static slabs. -/
structure RawStore (P : Policy) (S : Type) [Score S] where
  tree : OxidArt P RawVal
  slabs : Slabs P S

namespace RawStore

variable {P : Policy} {S : Type} [Score S]

def new : RawStore P S := ⟨.new, .init⟩

def setNow (s : RawStore P S) (now : Nat) : RawStore P S := { s with tree := s.tree.setNow now }

/-- `set_val` clears the value of the node before it takes a slot for the new one. -/
def setInternal (s : RawStore P S) (key : Bytes) (ttl : Nat) (val : Value S) : Exec (RawStore P S) := do
  let slabs := s.slabs.dropAll (s.tree.occupant key).toList
  let (raw, slabs) := slabs.valueIntoRaw val
  let tree ← s.tree.setInternal key ttl raw
  return ⟨tree, slabs⟩

def set (s : RawStore P S) (key : Bytes) (val : Value S) : Exec (RawStore P S) := s.setInternal key ExpAndRadix.noExp val

def setTtl (s : RawStore P S) (key : Bytes) (ttl : Nat) (val : Value S) : Exec (RawStore P S) :=
  s.setInternal key (saturatingAdd s.tree.now ttl) val

/-- The value of an expired node is dropped, by `clear_val` or with its node; a live one is cloned. -/
def get (s : RawStore P S) (key : Bytes) : Exec (Option (Value S) × RawStore P S) := do
  let slabs := s.slabs.dropAll (s.tree.lapsed key).toList
  let (raw, tree) ← s.tree.get key
  match raw with
  | none => return (none, ⟨tree, slabs⟩)
  | some raw => return (some (← slabs.valueFromRawRef raw), ⟨tree, slabs⟩)

/-- `take_val` on the value that leaves the tree. -/
def takeVal (slabs : Slabs P S) : Option RawVal → Exec (Option (Value S) × Slabs P S)
  | none => .ok (none, slabs)
  | some raw => do
    let (val, slabs) ← slabs.valueTakeRaw raw
    return (some val, slabs)

def del (s : RawStore P S) (key : Bytes) : Exec (Option (Value S) × RawStore P S) := do
  let (raw, tree) ← s.tree.del key
  let (val, slabs) ← takeVal s.slabs raw
  return (val, ⟨tree, slabs⟩)

/-- The freed nodes drop their values; an empty prefix also takes the value of the root. -/
def deln (s : RawStore P S) (pfx : Bytes) : Exec (Nat × RawStore P S) := do
  let (_, slabs) ← takeVal s.slabs (if pfx.isEmpty then s.tree.occupant pfx else none)
  let slabs := slabs.dropAll (s.tree.delnValues pfx)
  let (count, tree) ← s.tree.deln pfx
  return (count, ⟨tree, slabs⟩)

def incrby (s : RawStore P S) (key : Bytes) (delta : Int64) : Exec (Except IntError Int64 × RawStore P S) := do
  let live ← match s.tree.traverseToKey key with
    | none => pure none
    | some idx =>
      let node ← s.tree.getNode idx
      pure ((node.getValue s.tree.now).map fun v => (idx, v))
  match live with
  | some (idx, v) => match v.incr delta with
    | .ok n => return (.ok n, { s with tree := ← s.tree.putVal idx (.int n) })
    | .error e => return (.error e, s)
  | none => return (.ok delta, ← s.set key (.int delta))

/-! ## Containers -/

/-- The shape of `get_hash_mut`, `get_btree_set_mut` and `get_zset_mut`: the node of the key and the slot of its container, with a
flag that says whether the container was made. A new one overwrites tag and union of its node. -/
def getContainer (s : RawStore P S) (kind : SlabKind) (empty : kind.Content S) (ttl : Option Nat) (key : Bytes) :
    Exec (Except TypeError (Nat × Nat × Bool) × RawStore P S) := do
  let (fresh, grown) := s.slabs.alloc kind empty
  let (res, tree) ← s.tree.getOrCreate (fun v => (v.slotOf kind).isSome) (.slot kind fresh) ttl key
  match res with
  | .error e => return (.error e, { s with tree := tree })
  | .ok (node, v, created) =>
    -- The slot is taken when the container is made.
    let s := ⟨tree, if created then grown else s.slabs⟩
    match v.slotOf kind with
    | none => return (.error .valueNotSet, s)
    | some idx => return (.ok (node, idx, created), s)

/-- What the writing commands do with the container they got: change it in its slot. -/
def changeIn {α : Type} (got : Exec (Except TypeError Nat × RawStore P S)) (kind : SlabKind)
    (change : kind.Content S → α × kind.Content S) : Exec (Except TypeError α × RawStore P S) := do
  let (res, s) ← got
  match res with
  | .error e => return (.error e, s)
  | .ok idx => match (s.slabs kind).get idx with
    | none => .error .unwrapNone
    | some content =>
      let (reply, content) := change content
      return (.ok reply, { s with slabs := s.slabs.write kind idx content })

def getHashMut (s : RawStore P S) (ttl : Option Nat) (key : Bytes) : Exec (Except TypeError Nat × RawStore P S) := do
  let (res, s) ← s.getContainer .hash InnerHCommand.new ttl key
  return (res.map fun (_, idx, _) => idx, s)

def cmdHset (s : RawStore P S) (key : Bytes) (fieldValues : List (Bytes × Bytes)) (ttl : Option Nat) :
    Exec (Except TypeError UInt32 × RawStore P S) :=
  changeIn (s.getHashMut ttl key) .hash fun inner =>
    OxidArt.countLoop (fun inner (field, value) => InnerHCommand.insert inner field value) inner fieldValues

def getBtreeSetMut (s : RawStore P S) (ttl : Option Nat) (key : Bytes) : Exec (Except TypeError Nat × RawStore P S) := do
  let (res, s) ← s.getContainer .set (SortedSet.empty : SortedSet Bytes) ttl key
  return (res.map fun (_, idx, _) => idx, s)

def cmdSadd (s : RawStore P S) (key : Bytes) (members : List Bytes) (ttl : Option Nat) :
    Exec (Except TypeError UInt32 × RawStore P S) :=
  changeIn (s.getBtreeSetMut ttl key) .set fun set => OxidArt.countLoop (SortedSet.insert (α := Bytes)) set members

/-- Unlike its siblings, it also tags the node for the evictor when it sets an expiry. -/
def getZsetMut (s : RawStore P S) (ttl : Option Nat) (key : Bytes) : Exec (Except TypeError Nat × RawStore P S) := do
  let (res, s) ← s.getContainer .zset (InnerZCommand.new : InnerZCommand S) ttl key
  match res with
  | .error e => return (.error e, s)
  | .ok (node, idx, created) =>
    let tree := if created && ttl.isSome then { s.tree with map := s.tree.map.tag node } else s.tree
    return (.ok idx, { s with tree := tree })

def cmdZadd (s : RawStore P S) (key : Bytes) (scoreMembers : List (S × Bytes)) (ttl : Option Nat) :
    Exec (Except TypeError UInt32 × RawStore P S) :=
  changeIn (s.getZsetMut ttl key) .zset fun zset =>
    OxidArt.countLoop (fun zset (score, member) => InnerZCommand.insert zset score member) zset scoreMembers

end RawStore

/-- The operations on a key that take, move or give back slots, and the clock. -/
inductive SlotOp (S : Type) [Score S] where
  | set (key : Bytes) (val : Value S)
  | setTtl (key : Bytes) (ttl : Nat) (val : Value S)
  | incrby (key : Bytes) (delta : Int64)
  | get (key : Bytes)
  | del (key : Bytes)
  | deln (pfx : Bytes)
  | hset (key : Bytes) (fieldValues : List (Bytes × Bytes)) (ttl : Option Nat)
  | sadd (key : Bytes) (members : List Bytes) (ttl : Option Nat)
  | zadd (key : Bytes) (scoreMembers : List (S × Bytes)) (ttl : Option Nat)
  | setNow (now : Nat)

namespace RawStore

variable {P : Policy} {S : Type} [Score S]

def exec (s : RawStore P S) : SlotOp S → Exec (Reply S × RawStore P S)
  | .set key val => do return (.tree .done, ← s.set key val)
  | .setTtl key ttl val => do return (.tree .done, ← s.setTtl key ttl val)
  | .incrby key delta => (s.incrby key delta).map fun p => (.counter p.1, p.2)
  | .get key => (s.get key).map fun p => (.tree (.value p.1), p.2)
  | .del key => (s.del key).map fun p => (.tree (.value p.1), p.2)
  | .deln pfx => (s.deln pfx).map fun p => (.tree (.count p.1), p.2)
  | .hset key fieldValues ttl => (s.cmdHset key fieldValues ttl).map fun p => (.added p.1, p.2)
  | .sadd key members ttl => (s.cmdSadd key members ttl).map fun p => (.added p.1, p.2)
  | .zadd key scoreMembers ttl => (s.cmdZadd key scoreMembers ttl).map fun p => (.added p.1, p.2)
  | .setNow now => .ok (.tree .done, s.setNow now)

end RawStore

end Radixox.Oxidart
