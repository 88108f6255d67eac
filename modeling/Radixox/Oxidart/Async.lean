import Radixox.Oxidart.Store

/-!
# Cooperative commands

`async_command.rs`: `getn_async` and `deln_async` work on their own stack of slab indices
in chunks and yield between two of them. A future is a task together with a function
that polls it; whatever other tasks do to the store happens between two polls.
-/

namespace Radixox.Oxidart
set_option autoImplicit false

/-- What a poll of a future gives. -/
inductive Poll (τ α : Type) where
  | pending (task : τ)
  | ready (result : α)

/-- Number of nodes visited per borrow before yielding. -/
def YIELD_BUDGET : Nat := 256

namespace OxidArt

variable {P : Policy} {V : Type}

/-! ## `deln_async` -/

/-- Severs the subtree covered by `pfx`: the indices to free, the node to recompress afterwards (the root: none) and what
is already counted. The value of the root is counted but stays, and so does its overflow slot. -/
def findAndCutPrefix (st : OxidArt P V) (pfx : Bytes) : Exec ((List Nat × Nat × Nat) × OxidArt P V) :=
  if pfx.isEmpty then do
    let root ← st.getNode st.rootIdx
    let hadVal := (root.getValue st.now).isSome
    let childs := st.collectChildIndices st.rootIdx
    return ((childs, st.rootIdx, if hadVal then 1 else 0), st.setNode st.rootIdx { root with childs := .default })
  else match st.walk pfx with
    | .found targetIdx parentIdx parentRadix _ => .ok (([targetIdx], parentIdx, 0), st.removeChild parentIdx parentRadix)
    | .partialAt targetIdx parentIdx parentRadix commonLen prefixRest _ =>
      if commonLen = prefixRest.length then .ok (([targetIdx], parentIdx, 0), st.removeChild parentIdx parentRadix)
      else .ok (([], st.rootIdx, 0), st)
    | _ => .ok (([], st.rootIdx, 0), st)

/-- Frees up to `budget` nodes from the stack. -/
def freeChunk (st : OxidArt P V) (stack : List Nat) (budget : Nat) : Nat × List Nat × OxidArt P V :=
  freeLoop (st.freeFuel stack) (some budget) st stack 0

/-- What `deln_async` holds across a yield. -/
structure DelnTask where
  stack : List Nat
  parentIdx : Nat
  total : Nat

/-- One turn of the chunk loop; the last one also recompresses the parent. -/
def pollDeln (budget : Nat) (st : OxidArt P V) (task : DelnTask) : Exec (Poll DelnTask Nat × OxidArt P V) := do
  let (count, stack, st) := st.freeChunk task.stack budget
  let total := task.total + count
  if stack.isEmpty then
    let st ← if task.parentIdx ≠ st.rootIdx then st.tryRecompress task.parentIdx else pure st
    return (.ready total, st)
  else return (.pending { task with stack := stack, total := total }, st)

/-- The first poll: the cut and the first chunk. -/
def startDeln (budget : Nat) (st : OxidArt P V) (pfx : Bytes) : Exec (Poll DelnTask Nat × OxidArt P V) := do
  let ((stack, parentIdx, initial), st) ← st.findAndCutPrefix pfx
  if stack.isEmpty then return (.ready initial, st) else st.pollDeln budget ⟨stack, parentIdx, initial⟩

/-- Polls without another task in between; every poll pops at least one index, so `freeFuel` polls are enough. -/
def finishDeln (budget : Nat) : Nat → OxidArt P V → DelnTask → Exec (Nat × OxidArt P V)
  | 0, _, _ => .error .stackOverflow
  | fuel + 1, st, task => do
    match ← st.pollDeln budget task with
    | (.ready count, st) => return (count, st)
    | (.pending task, st) => finishDeln budget fuel st task

/-- `deln_async` with no other task interleaved. -/
def delnAsync (budget : Nat) (st : OxidArt P V) (pfx : Bytes) : Exec (Nat × OxidArt P V) := do
  let ((stack, parentIdx, initial), st) ← st.findAndCutPrefix pfx
  if stack.isEmpty then return (initial, st)
  else finishDeln budget (st.freeFuel stack) st ⟨stack, parentIdx, initial⟩

/-! ## `getn_async` -/

/-- What `getn_async` holds across a yield: indices with the path before their compression, and the keys found. -/
structure GetnTask where
  stack : List (Nat × Bytes)
  keys : List Bytes

/-- The keys and the children a visited node adds; `full` is its whole key. -/
def visit (st : OxidArt P V) (idx : Nat) (node : Node V) (full : Bytes) : GetnTask :=
  ⟨(st.iterAllChildren idx).map fun p => (p.2, full ++ [p.1]), if (node.getValue st.now).isSome then [full] else []⟩

def initKeysStack (st : OxidArt P V) (startIdx : Nat) (keyPath : Bytes) : GetnTask :=
  match st.tryGetNode startIdx with
  | none => ⟨[], []⟩
  | some node => st.visit startIdx node keyPath

/-- The loop of `collect_keys_chunk`; a popped index that is free does not count against the budget. -/
def collectKeysLoop (st : OxidArt P V) : Nat → Nat → GetnTask → GetnTask
  | fuel + 1, budget + 1, task => match task.stack.getLast? with
    | none => task
    | some (nodeIdx, keyPrefix) => match st.tryGetNode nodeIdx with
      | none => collectKeysLoop st fuel (budget + 1) { task with stack := task.stack.dropLast }
      | some node =>
        let seen := st.visit nodeIdx node (keyPrefix ++ node.compression)
        collectKeysLoop st fuel budget ⟨task.stack.dropLast ++ seen.stack, task.keys ++ seen.keys⟩
  | _, _, task => task

/-- Every turn pops an index, and pushes new ones only against the budget. -/
def collectKeysChunk (st : OxidArt P V) (task : GetnTask) (budget : Nat) : GetnTask :=
  st.collectKeysLoop (task.stack.length + MAX_LINKS * budget) budget task

def pollGetn (budget : Nat) (st : OxidArt P V) (task : GetnTask) : Poll GetnTask (List Bytes) :=
  let task := st.collectKeysChunk task budget
  if task.stack.isEmpty then .ready task.keys else .pending task

/-- The first poll: the start node and the first chunk. -/
def startGetn (budget : Nat) (st : OxidArt P V) (pfx : Bytes) : Poll GetnTask (List Bytes) :=
  match st.findPrefixNode pfx with
  | none => .ready []
  | some (startIdx, keyPath) =>
    let task := st.initKeysStack startIdx keyPath
    if task.stack.isEmpty then .ready task.keys else st.pollGetn budget task

def finishGetn (budget : Nat) (st : OxidArt P V) : Nat → GetnTask → Exec (List Bytes)
  | 0, _ => .error .stackOverflow
  | fuel + 1, task => match st.pollGetn budget task with
    | .ready keys => .ok keys
    | .pending task => finishGetn budget st fuel task

/-- `getn_async` with no other task interleaved; a tree is scanned after as many polls as it has nodes. -/
def getnAsync (budget : Nat) (st : OxidArt P V) (pfx : Bytes) : Exec (List Bytes) :=
  match st.findPrefixNode pfx with
  | none => .ok []
  | some (startIdx, keyPath) =>
    let task := st.initKeysStack startIdx keyPath
    if task.stack.isEmpty then .ok task.keys else st.finishGetn budget (st.map.len + 1) task

end OxidArt

end Radixox.Oxidart
