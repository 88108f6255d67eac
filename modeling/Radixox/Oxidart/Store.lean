import Radixox.Oxidart.NodeChilds

/-!
# The store: `OxidArt`

The functions of `oxidart/src/lib.rs` over an explicit state: the node slab, the
overflow arena, the thread-local huge slab, the clock and the root index. A
`&mut self` method takes the state and returns the new one; `Exec` carries the
panics. The value type `V` is a parameter here: the tree moves values and never
looks into them. A node's `tag` and value union together are an `Option V`
(`Tag::None` is `none`).

The nine traversal loops of the source differ only in what they do where the
walk ends, so the loop is one function, `walk`, and each operation matches on
its outcome.
-/

namespace Radixox.Oxidart
set_option autoImplicit false

abbrev Bytes := List UInt8

/-! ## Nodes -/

structure Node (V : Type) where
  compression : Bytes
  childs : Childs
  val : Option V
  expAndRadix : ExpAndRadix
  overflowIdx : Option Nat
  /-- Parent node index (for TTL eviction). -/
  parentIdx : Option Nat

inductive CompResult where
  /-- The compression is completely part of the key: travel on. -/
  | path
  | final
  | partialAt (commonLen : Nat)
deriving DecidableEq

namespace Node

variable {V : Type}

/-- `Node::default`. -/
def default : Node V := ⟨[], .default, none, .noExpiracy 0, none, none⟩

def getCommonLen (n : Node V) (keyRest : Bytes) : Nat :=
  ((n.compression.zip keyRest).findIdx? (fun p => p.1 ≠ p.2)).getD (min n.compression.length keyRest.length)

def compareCompressionKey (n : Node V) (keyRest : Bytes) : CompResult :=
  let commonLen := n.getCommonLen keyRest
  match compare n.compression.length keyRest.length with
  | .eq => if commonLen = keyRest.length then .final else .partialAt commonLen
  | .gt => .partialAt commonLen
  | .lt => if commonLen = n.compression.length then .path else .partialAt commonLen

def setVal (n : Node V) (val : V) (exp : Nat) : Exec (Node V) := do
  let e ← n.expAndRadix.setExp exp
  return { n with val := some val, expAndRadix := e }

/-- `clear_val`, and `take_val` seen from the node: the expiry stays. -/
def clearVal (n : Node V) : Node V := { n with val := none }

def isExpired (n : Node V) (now : Nat) : Bool :=
  match n.expAndRadix.exp with
  | some exp => exp < now
  | none => false

def getValue (n : Node V) (now : Nat) : Option V := if n.isExpired now then none else n.val

def newLeaf (compression : Bytes) (val : V) (ttl : Nat) (parentIdx : Nat) (parentRadix : UInt8) :
    Exec (Node V) := do
  let e ← ExpAndRadix.new ttl parentRadix
  return ⟨compression, .default, some val, e, none, some parentIdx⟩

def newEmptyLeaf (compression : Bytes) (parentIdx : Nat) (parentRadix : UInt8) : Node V :=
  ⟨compression, .default, none, .noExpiracy parentRadix, none, some parentIdx⟩

def hasChildren (n : Node V) : Bool := !n.childs.isEmpty || n.overflowIdx.isSome

def getSingleChild (n : Node V) : Option (UInt8 × Nat) :=
  match n.childs.oldGetSingleChild, n.overflowIdx with
  | some ret, none => some ret
  | _, _ => none

end Node

/-! ## The state and its slab accesses -/

structure OxidArt (P : Policy) (V : Type) where
  map : TaggedHiSlab P (Node V)
  overflowArena : OverflowArena
  /-- The thread-local `HUGE_OVF`. -/
  hugeOvf : HugeOvf P
  /-- Current timestamp (seconds since the UNIX epoch). -/
  now : Nat
  rootIdx : Nat

/-- `u64::saturating_add`. -/
def saturatingAdd (a b : Nat) : Nat := min (a + b) (2 ^ 64 - 1)

namespace OxidArt

variable {P : Policy} {V : Type}

def new : OxidArt P V :=
  let (rootIdx, map) := (TaggedHiSlab.empty : TaggedHiSlab P (Node V)).insert .default
  ⟨map, .new, .empty, 0, rootIdx⟩

def setNow (st : OxidArt P V) (now : Nat) : OxidArt P V := { st with now := now }

def tryGetNode (st : OxidArt P V) (idx : Nat) : Option (Node V) := st.map.get idx

def getNode (st : OxidArt P V) (idx : Nat) : Exec (Node V) :=
  match st.tryGetNode idx with
  | some n => .ok n
  | none => .error .getNode

/-- Writing through `get_node_mut`. -/
def setNode (st : OxidArt P V) (idx : Nat) (n : Node V) : OxidArt P V := { st with map := st.map.set idx n }

def insert (st : OxidArt P V) (n : Node V) : Nat × OxidArt P V :=
  let (idx, map) := st.map.insert n
  (idx, { st with map := map })

def insertTagged (st : OxidArt P V) (n : Node V) : Nat × OxidArt P V :=
  let (idx, map) := st.map.insertTagged n
  (idx, { st with map := map })

def removeNode (st : OxidArt P V) (idx : Nat) : OxidArt P V := { st with map := (st.map.remove idx).2 }

def find (st : OxidArt P V) (idx : Nat) (radix : UInt8) : Option Nat := do
  let node ← st.tryGetNode idx
  match node.childs.find radix with
  | some index => return index
  | none =>
    let overflowIdx ← node.overflowIdx
    let overflow ← st.overflowArena.get overflowIdx
    overflow.find st.hugeOvf radix

/-- The links of a node in the order of `iter_all_children`: inline, light, huge. -/
def iterAllChildren (st : OxidArt P V) (idx : Nat) : Links :=
  match st.tryGetNode idx with
  | none => []
  | some node => node.childs.items ++
    ((node.overflowIdx.bind st.overflowArena.get).map (·.iter st.hugeOvf)).getD []

def collectChildIndices (st : OxidArt P V) (idx : Nat) : List Nat := (st.iterAllChildren idx).map Prod.snd

/-! ## Linking and unlinking children -/

def allocOverflowWithFirst (st : OxidArt P V) (radix : UInt8) (idx : Nat) : Exec (Nat × OxidArt P V) := do
  let (slot, arena) ← st.overflowArena.alloc
  match arena.get slot with
  | none => .error .overflowIdx
  | some overflow =>
    let (overflow, huge) ← overflow.push st.hugeOvf radix idx
    return (slot, { st with overflowArena := arena.set slot overflow, hugeOvf := huge })

def pushChildIdx (st : OxidArt P V) (parentIdx idx : Nat) (radix : UInt8) : Exec (OxidArt P V) := do
  let node ← st.getNode parentIdx
  if node.childs.isFull = false then
    let childs ← node.childs.push radix idx
    return st.setNode parentIdx { node with childs := childs }
  else match node.overflowIdx with
    | none =>
      let (slot, st) ← st.allocOverflowWithFirst radix idx
      let node ← st.getNode parentIdx
      return st.setNode parentIdx { node with overflowIdx := some slot }
    | some overflowIdx => match st.overflowArena.get overflowIdx with
      | none => .error .overflowIdx
      | some overflow =>
        let (overflow, huge) ← overflow.push st.hugeOvf radix idx
        return { st with overflowArena := st.overflowArena.set overflowIdx overflow, hugeOvf := huge }

def removeChild (st : OxidArt P V) (parentIdx : Nat) (radix : UInt8) : OxidArt P V :=
  match st.tryGetNode parentIdx with
  | none => st
  | some parent => match parent.childs.remove radix with
    | some (_, childs) => st.setNode parentIdx { parent with childs := childs }
    | none => match parent.overflowIdx with
      | none => st
      | some overflowIdx => match st.overflowArena.get overflowIdx with
        | none => st
        | some overflow =>
          let (_, overflow, huge) := overflow.remove st.hugeOvf radix
          let arena := st.overflowArena.set overflowIdx overflow
          if overflow.isEmpty then
            let (arena, huge) := arena.free huge overflowIdx
            { st with overflowArena := arena, hugeOvf := huge }.setNode parentIdx { parent with overflowIdx := none }
          else { st with overflowArena := arena, hugeOvf := huge }

/-- Point the parent link of each listed node to `parentIdx`. -/
def reparent (st : OxidArt P V) (parentIdx : Nat) : Links → OxidArt P V
  | [] => st
  | (_, idx) :: rest => match st.tryGetNode idx with
    | some n => (st.setNode idx { n with parentIdx := some parentIdx }).reparent parentIdx rest
    | none => st.reparent parentIdx rest

/-- If the node has exactly one child and no value, absorb the child. -/
def tryRecompress (st : OxidArt P V) (nodeIdx : Nat) : Exec (OxidArt P V) :=
  match st.tryGetNode nodeIdx with
  | none => .ok st
  | some node =>
    if node.val.isSome then .ok st
    else match node.getSingleChild with
      | none => .ok st
      | some (childRadix, childIdx) => match st.tryGetNode childIdx with
        | none => .ok st
        | some child => do
          let grandchildren := st.iterAllChildren childIdx
          let st := (st.removeNode childIdx).reparent nodeIdx grandchildren
          let node ← st.getNode nodeIdx
          return st.setNode nodeIdx { node with
            compression := node.compression ++ childRadix :: child.compression
            expAndRadix := child.expAndRadix
            childs := child.childs
            overflowIdx := child.overflowIdx
            val := child.val }

/-! ## The traversal loop -/

/-- Where a traversal ends. `parentIdx` and `radix` are the last link taken, `keyPath` the bytes of the
links and compressions passed before the node `idx` (its own radix included, its compression not). -/
inductive Walk where
  /-- `CompResult::Final` at `idx`. -/
  | found (idx parentIdx : Nat) (radix : UInt8) (keyPath : Bytes)
  /-- `CompResult::Partial` at `idx`, with `keyRest` left to compare. -/
  | partialAt (idx parentIdx : Nat) (radix : UInt8) (commonLen : Nat) (keyRest keyPath : Bytes)
  /-- `find` gives no child of `idx` for the first byte of `keyRest`. -/
  | noChild (idx : Nat) (keyRest : Bytes)
  /-- The link to `idx` leads to a free slot. -/
  | gone (idx : Nat)

/-- The loop of `get_idx`, `traverse_to_key`, `ensure_key`, `set_internal`, `del`, `deln`, `getn`,
`find_prefix_node` and `find_and_cut_prefix`: every turn consumes at least one byte of the key, so the
key length bounds the turns. -/
def walkFrom (st : OxidArt P V) : Nat → Nat → Bytes → Bytes → Walk
  | fuel + 1, idx, radix :: keyRest, keyPath => match st.find idx radix with
    | none => .noChild idx (radix :: keyRest)
    | some child => match st.tryGetNode child with
      | none => .gone child
      | some node => match node.compareCompressionKey keyRest with
        | .final => .found child idx radix (keyPath ++ [radix])
        | .partialAt commonLen => .partialAt child idx radix commonLen keyRest (keyPath ++ [radix])
        | .path => st.walkFrom fuel child (keyRest.drop node.compression.length)
            (keyPath ++ radix :: node.compression)
  | _, idx, keyRest, _ => .noChild idx keyRest

def walk (st : OxidArt P V) (key : Bytes) : Walk := st.walkFrom key.length st.rootIdx key []

/-- Traverses to a key and returns the node index if found. -/
def traverseToKey (st : OxidArt P V) (key : Bytes) : Option Nat :=
  if key.isEmpty then some st.rootIdx
  else match st.walk key with
    | .found idx _ _ _ => some idx
    | _ => none

/-! ## Insertion -/

def createNodeWithVal (st : OxidArt P V) (parentIdx : Nat) (radix : UInt8) (val : V) (compression : Bytes)
    (ttl : Nat) : Exec (Nat × OxidArt P V) := do
  let father ← st.getNode parentIdx
  let newLeaf ← Node.newLeaf compression val ttl parentIdx radix
  -- Tag the node if it has a real TTL.
  let (insertedIdx, st) := if ttl ≠ ExpAndRadix.noExp then st.insertTagged newLeaf else st.insert newLeaf
  match father.childs.isFull, father.overflowIdx with
  | false, _ =>
    let father ← st.getNode parentIdx
    let childs ← father.childs.push radix insertedIdx
    return (insertedIdx, st.setNode parentIdx { father with childs := childs })
  | true, none =>
    let (newOverflowIdx, st) ← st.allocOverflowWithFirst radix insertedIdx
    let father ← st.getNode parentIdx
    return (insertedIdx, st.setNode parentIdx { father with overflowIdx := some newOverflowIdx })
  | true, some oi => match st.overflowArena.get oi with
    | none => .error .overflowIdx
    | some overflow =>
      let (overflow, huge) ← overflow.push st.hugeOvf radix insertedIdx
      return (insertedIdx, { st with overflowArena := st.overflowArena.set oi overflow, hugeOvf := huge })

/-- The node left at the split point: the common part of the compression, without children, with the
new value if the key ends here. -/
def splitIntermediate (old : Node V) (commonLen : Nat) (valOnIntermediate : Bool) (ttl : Option Nat)
    (val : Option V) : Exec (Node V) :=
  let node : Node V := { old with
    compression := old.compression.take commonLen
    val := none
    expAndRadix := old.expAndRadix.setNoExpiracy
    childs := .default
    overflowIdx := none }
  match valOnIntermediate, val, ttl with
  | true, some val, some ttl => node.setVal val ttl
  | true, some val, none => .ok { node with val := some val }
  | _, _, _ => .ok node

/-- The new leaf below the split point, when the key does not end there. -/
def splitLeaf (st : OxidArt P V) (commonLen : Nat) (keyRest : Bytes) (idx : Nat) (ttl : Option Nat)
    (val : Option V) : Exec (Nat × OxidArt P V) :=
  match keyRest[commonLen]?, val with
  | none, _ => .error .index
  | some newRadix, some val =>
    st.createNodeWithVal idx newRadix val (keyRest.drop (commonLen + 1)) (ttl.getD ExpAndRadix.noExp)
  | some newRadix, none => do
    let (newNodeIdx, st) := st.insert (.newEmptyLeaf (keyRest.drop (commonLen + 1)) idx newRadix)
    let st ← st.pushChildIdx idx newNodeIdx newRadix
    return (newNodeIdx, st)

def splitNode (st : OxidArt P V) (commonLen : Nat) (keyRest : Bytes) (idx : Nat) (ttl : Option Nat)
    (val : Option V) : Exec (Nat × OxidArt P V) := do
  let valOnIntermediate := commonLen == keyRest.length
  let old ← st.getNode idx
  let node ← splitIntermediate old commonLen valOnIntermediate ttl val
  let st := st.setNode idx node
  match old.compression[commonLen]? with
  | none => .error .index
  | some oldRadix =>
    -- Create a node for the old content; it keeps the old expiry, and with it the old radix part.
    let oldChild : Node V := { old with
      compression := old.compression.drop (commonLen + 1)
      parentIdx := some idx }
    let (oldChildIdx, st) := if old.expAndRadix.doesExpire then st.insertTagged oldChild else st.insert oldChild
    let st ← st.pushChildIdx idx oldChildIdx oldRadix
    if valOnIntermediate then return (idx, st) else st.splitLeaf commonLen keyRest idx ttl val

def setInternal (st : OxidArt P V) (key : Bytes) (ttl : Nat) (val : V) : Exec (OxidArt P V) :=
  if key.isEmpty then do
    let root ← st.getNode st.rootIdx
    let root ← root.setVal val ttl
    return st.setNode st.rootIdx root
  else match st.walk key with
    | .noChild idx (radix :: rest) => return (← st.createNodeWithVal idx radix val rest ttl).2
    | .noChild _ [] => .error .index
    | .gone _ => .error .getNode
    | .found idx _ _ _ => do
      let node ← st.getNode idx
      let node ← node.setVal val ttl
      return st.setNode idx node
    | .partialAt idx _ _ commonLen keyRest _ => return (← st.splitNode commonLen keyRest idx (some ttl) (some val)).2

def set (st : OxidArt P V) (key : Bytes) (val : V) : Exec (OxidArt P V) := st.setInternal key ExpAndRadix.noExp val

/-- `ttl` is `Duration::as_secs`. -/
def setTtl (st : OxidArt P V) (key : Bytes) (ttl : Nat) (val : V) : Exec (OxidArt P V) :=
  st.setInternal key (saturatingAdd st.now ttl) val

def ensure (st : OxidArt P V) (keyRest : Bytes) (parentIdx : Nat) : Exec (Nat × OxidArt P V) :=
  match keyRest with
  | radix :: rest => do
    let (idx, st) := st.insert (.newEmptyLeaf rest parentIdx radix)
    let st ← st.pushChildIdx parentIdx idx radix
    return (idx, st)
  | [] => .error .index

def ensureKey (st : OxidArt P V) (key : Bytes) : Exec (Nat × OxidArt P V) :=
  if key.isEmpty then .ok (st.rootIdx, st)
  else match st.walk key with
    | .noChild idx keyRest => st.ensure keyRest idx
    | .gone _ => .error .ensureKey
    | .found idx _ _ _ => .ok (idx, st)
    | .partialAt idx _ _ commonLen keyRest _ => st.splitNode commonLen keyRest idx none none

/-! ## Lookup with lazy expiry -/

/-- Deletes a node inline (used for TTL expiration cleanup). -/
def deleteNodeInline (st : OxidArt P V) (targetIdx parentIdx : Nat) (parentRadix : UInt8) :
    Exec (OxidArt P V) := do
  let node ← st.getNode targetIdx
  if node.hasChildren then (st.setNode targetIdx node.clearVal).tryRecompress targetIdx
  else
    let st := (st.removeNode targetIdx).removeChild parentIdx parentRadix
    if parentIdx ≠ st.rootIdx then st.tryRecompress parentIdx else return st

def getIdx (st : OxidArt P V) (key : Bytes) : Exec (Option Nat × OxidArt P V) :=
  if key.isEmpty then do
    let root ← st.getNode st.rootIdx
    if root.isExpired st.now then
      let st ← (st.setNode st.rootIdx root.clearVal).tryRecompress st.rootIdx
      return (none, st)
    else return (some st.rootIdx, st)
  else match st.walk key with
    | .found idx parentIdx parentRadix _ => do
      let node ← st.getNode idx
      if node.isExpired st.now then
        let st ← st.deleteNodeInline idx parentIdx parentRadix
        return (none, st)
      else return (some idx, st)
    | _ => .ok (none, st)

def get (st : OxidArt P V) (key : Bytes) : Exec (Option V × OxidArt P V) := do
  let (idx, st) ← st.getIdx key
  match idx with
  | none => return (none, st)
  | some idx =>
    let node ← st.getNode idx
    return (node.getValue st.now, st)

inductive TtlResult where
  | keyNotExist
  | keyWithTtl (remaining : Nat)
  | keyWithoutTtl
deriving DecidableEq, Repr

/-- The TTL status of a key; it does not ask whether the node holds a value. -/
def getTtl (st : OxidArt P V) (key : Bytes) : Exec TtlResult :=
  match st.traverseToKey key with
  | none => .ok .keyNotExist
  | some idx => do
    let node ← st.getNode idx
    if node.isExpired st.now then return .keyNotExist
    else match node.expAndRadix.exp with
      | some exp => return .keyWithTtl (exp - st.now)
      | none => return .keyWithoutTtl

/-- Sets a TTL on the node of a key; the reply says whether the node was permanent. -/
def expire (st : OxidArt P V) (key : Bytes) (ttl : Nat) : Exec (Bool × OxidArt P V) :=
  match st.traverseToKey key with
  | none => .ok (false, st)
  | some idx => do
    let node ← st.getNode idx
    if node.isExpired st.now then return (false, st)
    else
      let newExpiry := saturatingAdd st.now ttl
      let wasPermanent := !node.expAndRadix.doesExpire
      let e ← node.expAndRadix.setExp newExpiry
      let st := st.setNode idx { node with expAndRadix := e }
      let st := if wasPermanent then { st with map := st.map.tag idx } else st
      return (wasPermanent, st)

/-- Removes the TTL from a key. -/
def persist (st : OxidArt P V) (key : Bytes) : Exec (Bool × OxidArt P V) :=
  match st.traverseToKey key with
  | none => .ok (false, st)
  | some idx => do
    let node ← st.getNode idx
    if node.expAndRadix.doesExpire then
      let st := st.setNode idx { node with expAndRadix := node.expAndRadix.setNoExpiracy }
      if node.val.isSome then return (true, { st with map := st.map.untag idx }) else return (false, st)
    else return (false, st)

/-! ## Deletion -/

def del (st : OxidArt P V) (key : Bytes) : Exec (Option V × OxidArt P V) :=
  if key.isEmpty then do
    let root ← st.getNode st.rootIdx
    let st ← (st.setNode st.rootIdx root.clearVal).tryRecompress st.rootIdx
    return (root.val, st)
  else match st.walk key with
    | .found targetIdx parentIdx parentRadix _ => do
      let node ← st.getNode targetIdx
      if node.hasChildren then match node.val with
        -- `take_val()?` returns early when there is no value.
        | none => return (none, st)
        | some oldVal =>
          let st ← (st.setNode targetIdx node.clearVal).tryRecompress targetIdx
          return (some oldVal, st)
      else
        let st := (st.removeNode targetIdx).removeChild parentIdx parentRadix
        let st ← if parentIdx ≠ st.rootIdx then st.tryRecompress parentIdx else pure st
        return (node.val, st)
    | _ => .ok (none, st)

/-- One turn of the freeing loop, at the popped index: the node leaves the slab together with its overflow
slot; the result is its child indices and whether it held a value. A free index is skipped. -/
def freeNode (st : OxidArt P V) (nodeIdx : Nat) : Option (List Nat × Bool × OxidArt P V) :=
  match st.tryGetNode nodeIdx with
  | none => none
  | some node =>
    let children := st.collectChildIndices nodeIdx
    let st := match node.overflowIdx with
      | none => st
      | some oi =>
        let (arena, huge) := st.overflowArena.free st.hugeOvf oi
        { st with overflowArena := arena, hugeOvf := huge }
    some (children, node.val.isSome, st.removeNode nodeIdx)

/-- The most links one node can have. -/
def MAX_LINKS : Nat := CHILDS_SIZE + LIGHT_OVERFLOW_SIZE + HUGE_OVERFLOW_CAPACITY

/-- The loop of `free_subtree_iterative` and `free_chunk`; the end of the list is the top of the stack. Only
a freed node counts against the budget (`none`: no budget); a popped index that is free does not. -/
def freeLoop : Nat → Option Nat → OxidArt P V → List Nat → Nat → Nat × List Nat × OxidArt P V
  | 0, _, st, stack, count => (count, stack, st)
  | fuel + 1, budget, st, stack, count =>
    if budget = some 0 then (count, stack, st)
    else match stack.getLast? with
      | none => (count, stack, st)
      | some nodeIdx => match st.freeNode nodeIdx with
        | none => freeLoop fuel budget st stack.dropLast count
        | some (children, hasVal, st) =>
          freeLoop fuel (budget.map (· - 1)) st (stack.dropLast ++ children) (if hasVal then count + 1 else count)

/-- Enough turns for the loop: a turn pops an index, and pushes new ones only when it removes a node. -/
def freeFuel (st : OxidArt P V) (stack : List Nat) : Nat := stack.length + MAX_LINKS * st.map.len

/-- Frees a subtree iteratively (DFS), returns the number of deleted values. -/
def freeSubtreeIterative (st : OxidArt P V) (initialNodes : List Nat) : Nat × OxidArt P V :=
  let (count, _, st) := freeLoop (st.freeFuel initialNodes) none st initialNodes 0
  (count, st)

/-- `deln` from the cutting of the link on. -/
def delnSubtree (st : OxidArt P V) (targetIdx parentIdx : Nat) (parentRadix : UInt8) :
    Exec (Nat × OxidArt P V) := do
  let st := st.removeChild parentIdx parentRadix
  let (count, st) := st.freeSubtreeIterative [targetIdx]
  -- Recompression of parent (except root since get doesn't handle root with compression).
  let st ← if parentIdx ≠ st.rootIdx then st.tryRecompress parentIdx else pure st
  return (count, st)

def deln (st : OxidArt P V) (pfx : Bytes) : Exec (Nat × OxidArt P V) :=
  if pfx.isEmpty then do
    let root ← st.getNode st.rootIdx
    let hadVal := root.val.isSome
    let childsToFree := st.collectChildIndices st.rootIdx
    -- The root's overflow slot is not detached.
    let st := st.setNode st.rootIdx { root.clearVal with childs := .default }
    let (freed, st) := st.freeSubtreeIterative childsToFree
    return (freed + (if hadVal then 1 else 0), st)
  else match st.walk pfx with
    | .found targetIdx parentIdx parentRadix _ => st.delnSubtree targetIdx parentIdx parentRadix
    | .partialAt targetIdx parentIdx parentRadix commonLen prefixRest _ =>
      if commonLen = prefixRest.length then st.delnSubtree targetIdx parentIdx parentRadix
      else .ok (0, st)
    | _ => .ok (0, st)

/-! ## Prefix scan -/

/-- Collects a node whose key is complete in `keyPath`, then its children with `collectAll`. -/
def collectNode (st : OxidArt P V) (collectAll : Nat → Bytes → Exec (List (Bytes × V))) (nodeIdx : Nat)
    (node : Node V) (keyPath : Bytes) : Exec (List (Bytes × V)) := do
  let own := (node.getValue st.now).toList.map fun val => (keyPath, val)
  let below ← (st.iterAllChildren nodeIdx).mapM fun p => collectAll p.2 (keyPath ++ [p.1])
  return own ++ below.flatten

/-- The recursion depth is the height of the subtree, so `fuel` runs out on a cyclic graph only. -/
def collectAll (st : OxidArt P V) : Nat → Nat → Bytes → Exec (List (Bytes × V))
  | 0, _, _ => .error .stackOverflow
  | fuel + 1, nodeIdx, keyPrefix => match st.tryGetNode nodeIdx with
    | none => .ok []
    | some node => st.collectNode (st.collectAll fuel) nodeIdx node (keyPrefix ++ node.compression)

/-- Collects from a node whose key is already complete in `keyPath`. -/
def collectAllFrom (st : OxidArt P V) (fuel nodeIdx : Nat) (keyPath : Bytes) : Exec (List (Bytes × V)) :=
  match st.tryGetNode nodeIdx with
  | none => .ok []
  | some node => st.collectNode (st.collectAll fuel) nodeIdx node keyPath

/-- The node that covers `prefix` and the whole path of its key, as `getn` and `find_prefix_node` find it. -/
def findPrefixNode (st : OxidArt P V) (pfx : Bytes) : Option (Nat × Bytes) :=
  if pfx.isEmpty then some (st.rootIdx, [])
  else match st.walk pfx with
    | .found idx _ _ keyPath => do
      let node ← st.tryGetNode idx
      return (idx, keyPath ++ node.compression)
    | .partialAt idx _ _ commonLen prefixRest keyPath => do
      let node ← st.tryGetNode idx
      if commonLen = prefixRest.length then return (idx, keyPath ++ node.compression) else none
    | _ => none

/-- Returns all key-value pairs where the key starts with the given prefix. -/
def getn (st : OxidArt P V) (pfx : Bytes) : Exec (List (Bytes × V)) :=
  let fuel := st.map.len + 1
  if pfx.isEmpty then st.collectAll fuel st.rootIdx []
  else match st.findPrefixNode pfx with
    | none => .ok []
    | some (idx, keyPath) => st.collectAllFrom fuel idx keyPath

/-! ## Active expiry -/

def MAX_SAMPLE : Nat := 20
def SAMPLE_SIZE : Nat := 20
def THRESHOLD : Nat := SAMPLE_SIZE / 4

/-- Delete a node during TTL eviction, by its stored parent link. -/
def deleteNodeForEviction (st : OxidArt P V) (targetIdx parentIdx : Nat) (parentRadix : UInt8) :
    Exec (OxidArt P V) :=
  match st.tryGetNode targetIdx with
  | none => .ok st
  | some node =>
    if node.hasChildren then
      let st := st.setNode targetIdx node.clearVal
      { st with map := st.map.untag targetIdx }.tryRecompress targetIdx
    else
      let st := (st.removeNode targetIdx).removeChild parentIdx parentRadix
      if parentIdx ≠ st.rootIdx then st.tryRecompress parentIdx else .ok st

/-- One turn of `evict_cycle` at a sampled node: whether it was evicted, and the state after. -/
def evictSampled (st : OxidArt P V) (idx : Nat) (node : Node V) : Exec (Bool × OxidArt P V) :=
  if node.isExpired st.now then match node.parentIdx with
    -- Don't try to delete root.
    | none => .ok (false, st)
    | some parentIdx => return (true, ← st.deleteNodeForEviction idx parentIdx node.expAndRadix.parentRadix)
  else .ok (false, st)

/-- `evict_cycle` under the draws `draws i` of `random_tagged`: `(evicted_this_round, sampled)`. -/
def evictCycle (draws : Nat → Nat) : Nat → OxidArt P V → Exec (Nat × Nat × OxidArt P V)
  | 0, st => .ok (0, 0, st)
  | turns + 1, st => match st.map.randomTagged (draws turns) with
    | none => .ok (0, 0, st)
    | some (idx, node) => do
      let (hit, st) ← st.evictSampled idx node
      let (evicted, sampled, st) ← evictCycle draws turns st
      return (evicted + (if hit then 1 else 0), sampled + 1, st)

def evictRounds (draws : Nat → Nat → Nat) : Nat → OxidArt P V → Exec (Nat × OxidArt P V)
  | 0, st => .ok (0, st)
  | rounds + 1, st => do
    let (evicted, sampled, st) ← evictCycle (draws rounds) SAMPLE_SIZE st
    if sampled < SAMPLE_SIZE ∨ evicted < THRESHOLD then return (evicted, st)
    else
      let (total, st) ← evictRounds draws rounds st
      return (evicted + total, st)

/-- Evicts expired entries by sampling; `draws` are the choices of `random_tagged`, by round and sample. -/
def evictExpired (st : OxidArt P V) (draws : Nat → Nat → Nat) : Exec (Nat × OxidArt P V) :=
  evictRounds draws MAX_SAMPLE st

end OxidArt

end Radixox.Oxidart
