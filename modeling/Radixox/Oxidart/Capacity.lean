import Radixox.Oxidart.Upkeep

/-!
# Room for every link

The arrays that hold the links of a node have fixed sizes, and the inline one refuses the byte 0. `Tiered` is what is left
of the invariant when nothing is assumed of the tree: the tiers of different nodes are apart and their bytes are distinct and
ASCII. It survives every operation, also on a tree with stale links, and under it a link always finds room.
-/

namespace Radixox.Oxidart
set_option autoImplicit false
open Radixox.Assoc Radixox.Outcomes Radixox.Runs

namespace OxidArt

variable {P : Policy} {V : Type} {st st' : OxidArt P V}

/-- The call does not panic while linking, and what it returns is `good`. -/
abbrev Safe {α : Type} (good : α → Prop) (run : Exec α) : Prop := Yields (fun e => ¬ e.Linking) good run

structure Tiered (st : OxidArt P V) : Prop where
  kids : KidsInvOf Ascii st
  labels : ∀ {i n}, st.tryGetNode i = some n → ∀ b ∈ n.compression, Ascii b

theorem safe_getNode (st : OxidArt P V) (i : Nat) : Safe (fun n => st.tryGetNode i = some n) (st.getNode i) := by
  unfold getNode
  cases found : st.tryGetNode i with
  | none => exact .error id
  | some n => exact .ok rfl

/-! ## Writing nodes -/

/-- Nodes may leave; those that stay keep their links and their compression. -/
theorem Tiered.of_nodes (T : Tiered st) (S : SameStores st st') (nodes : ∀ i n', st'.tryGetNode i = some n' →
    ∃ n, st.tryGetNode i = some n ∧ n'.childs = n.childs ∧ n'.overflowIdx = n.overflowIdx ∧ n'.compression = n.compression) :
    Tiered st' := by
  constructor
  · refine T.kids.same S fun i t here => ?_
    obtain ⟨n', found', rfl⟩ := Option.map_eq_some_iff.1 here
    obtain ⟨n, found, childs, overflow, -⟩ := nodes i n' found'
    rw [tier_eq found, childs, overflow]
  · intro i n' found'
    obtain ⟨n, found, -, -, compression⟩ := nodes i n' found'
    rw [compression]
    exact T.labels found

theorem Tiered.setNode (T : Tiered st) {i : Nat} {n n' : Node V} (found : st.tryGetNode i = some n)
    (childs : n'.childs = n.childs) (overflow : n'.overflowIdx = n.overflowIdx) (compression : n'.compression = n.compression) :
    Tiered (st.setNode i n') := by
  refine T.of_nodes (.setNode st i n') fun j m here => ?_
  rw [tryGetNode_setNode, found] at here
  split at here
  next same =>
    obtain rfl := Option.some.inj here
    exact ⟨n, same ▸ found, childs, overflow, compression⟩
  next => exact ⟨m, here, rfl, rfl, rfl⟩

theorem Tiered.removeNode (T : Tiered st) (i : Nat) : Tiered (st.removeNode i) := by
  refine T.of_nodes (.removeNode st i) fun j m here => ?_
  rw [tryGetNode_removeNode] at here
  split at here
  · cases here
  · exact ⟨m, here, rfl, rfl, rfl⟩

theorem Tiered.same (T : Tiered st) (S : SameTree st st') : Tiered st' := by
  refine T.of_nodes S.stores fun i m here => ?_
  rw [S.nodes] at here
  exact ⟨m, here, rfl, rfl, rfl⟩

theorem Tiered.setNow (T : Tiered st) (now : Nat) : Tiered (st.setNow now) := ⟨T.kids, T.labels⟩

theorem Tiered.inserted (T : Tiered st) {idx : Nat} {leaf : Node V} (ins : Inserted st idx leaf st')
    (childs : leaf.childs = .default) (overflow : leaf.overflowIdx = none) (bytes : ∀ b ∈ leaf.compression, Ascii b) :
    Tiered st' ∧ st'.find = st.find := by
  obtain ⟨K', finds⟩ := ins.leaf_links T.kids childs overflow
  refine ⟨⟨K', fun {i n} here => ?_⟩, finds⟩
  rw [ins.nodes] at here
  split at here
  · obtain rfl := Option.some.inj here
    exact bytes
  · exact T.labels here

/-! ## Links -/

/-- The inline array of `p` takes no byte 0. -/
def admits (st : OxidArt P V) (p : Nat) (r : UInt8) : Bool :=
  r != 0 || (st.tryGetNode p).any fun n => n.childs.isFull

theorem admits_of_ne {p : Nat} {r : UInt8} (nonzero : r ≠ 0) : st.admits p r = true := by
  unfold admits
  rw [bne_iff_ne.2 nonzero]
  rfl

theorem Tiered.pushChildIdx (T : Tiered st) {p : Nat} {r : UInt8} (new : st.find p r = none) (byte : Ascii r)
    (allowed : st.admits p r = true) (idx : Nat) :
    Safe (fun st' => Tiered st' ∧ ∀ s, s ≠ r → st'.find p s = st.find p s) (st.pushChildIdx p idx r) := by
  cases found : st.tryGetNode p with
  | none =>
    have run : st.pushChildIdx p idx r = .error .getNode := by
      unfold OxidArt.pushChildIdx getNode
      rw [found]
      rfl
    rw [run]
    exact .error id
  | some n =>
    have room : r ≠ 0 ∨ n.childs.isFull = true := by
      simpa [admits, found] using allowed
    obtain ⟨st', run, K', R, perm⟩ := pushChildIdx_links T.kids (fun _ ascii => ascii) found new byte room idx
    rw [run]
    refine .ok ⟨⟨K', fun {i m'} here' => ?_⟩, fun s other => ?_⟩
    · obtain ⟨m, here, same⟩ := R.node here'
      rw [(Node.core_eq same).1]
      exact T.labels here
    · rw [R.find_of_push K' perm, if_neg fun both => other both.2]

theorem Tiered.removeChild (T : Tiered st) (p : Nat) (r : UInt8) : Tiered (st.removeChild p r) := by
  cases edge : st.find p r with
  | none =>
    rw [removeChild_absent T.kids edge]
    exact T
  | some y =>
    obtain ⟨n, found⟩ : ∃ n, st.tryGetNode p = some n := by
      cases found : st.tryGetNode p with
      | none => rw [find_of_free found] at edge; cases edge
      | some n => exact ⟨n, rfl⟩
    obtain ⟨K', R, -⟩ := removeChild_ok T.kids found edge
    refine ⟨K', fun {i m'} here' => ?_⟩
    obtain ⟨m, here, same⟩ := R.node here'
    rw [(Node.core_eq same).1]
    exact T.labels here

/-! ## Recompression and freeing -/

/-- The node takes over the links of its child. -/
theorem Tiered.tryRecompress (T : Tiered st) (x : Nat) : Safe Tiered (st.tryRecompress x) := by
  rcases tryRecompress_cases st x with run | ⟨n, r, y, child, found, empty, single, occupied, ⟨-, run⟩ | ⟨other, run⟩⟩
  · rw [run]
    exact .ok T
  · rw [run]
    exact .error id
  · obtain ⟨-, -, links⟩ := links_of_single found single
    rw [run]
    refine .ok ⟨T.kids.moveUp (sameStores_absorbed st x y r n child) (tier_absorbed found other occupied), fun {i m} here => ?_⟩
    rw [tryGetNode_absorbed found other] at here
    split at here
    · obtain rfl := Option.some.inj here
      obtain ⟨parent, adopted⟩ := adopt_eq x (st.iterAllChildren y) x n
      rw [adopted]
      intro b member
      rcases List.mem_append.1 member with front | back
      · exact T.labels found b front
      · rcases List.mem_cons.1 back with rfl | tail
        · exact T.kids.keyByte (p := (b, y)) (i := x) (links ▸ List.mem_singleton.2 rfl)
        · exact T.labels occupied b tail
    · split at here
      · cases here
      · obtain ⟨m', old, rfl⟩ := Option.map_eq_some_iff.1 here
        obtain ⟨parent, adopted⟩ := adopt_eq x (st.iterAllChildren y) i m'
        rw [adopted]
        exact fun b member => T.labels old b member

/-- Freeing a node gives its slot back. -/
theorem Tiered.freeNode (T : Tiered st) {i : Nat} {children : List Nat} {hasVal : Bool}
    (freed : st.freeNode i = some (children, hasVal, st')) : Tiered st' := by
  cases found : st.tryGetNode i with
  | none =>
    simp only [OxidArt.freeNode, found] at freed
    cases freed
  | some n =>
    obtain ⟨st₁, run, K', nodes, -⟩ := freeNode_links T.kids found
    obtain ⟨-, -, rfl⟩ : _ ∧ _ ∧ st₁ = st' := by simpa using run.symm.trans freed
    refine ⟨K', fun {j m} here => ?_⟩
    rw [nodes] at here
    split at here
    · cases here
    · exact T.labels here

/-- The flush empties the inline array of the root and keeps its overflow slot. -/
theorem Tiered.clearInline (T : Tiered st) {i : Nat} {n n' : Node V} (found : st.tryGetNode i = some n)
    (childs : n'.childs = .default) (overflow : n'.overflowIdx = n.overflowIdx) (compression : n'.compression = n.compression) :
    Tiered (st.setNode i n') := by
  refine ⟨T.kids.clearInline found childs overflow, fun {j m} here => ?_⟩
  rw [tryGetNode_setNode, found] at here
  split at here
  · obtain rfl := Option.some.inj here
    rw [compression]
    exact fun b member => T.labels found b member
  · exact T.labels here

/-! ## Insertion -/

theorem safe_setExp (e : ExpAndRadix) (exp : Nat) : Safe (fun _ => True) (e.setExp exp) := by
  unfold ExpAndRadix.setExp
  split
  · exact .ok trivial
  · exact .error id

/-- Storing a value leaves the links and the compression. -/
theorem safe_setVal (n : Node V) (v : V) (exp : Nat) :
    Safe (fun n' => n'.childs = n.childs ∧ n'.overflowIdx = n.overflowIdx ∧ n'.compression = n.compression)
      (n.setVal v exp) :=
  (safe_setExp n.expAndRadix exp).bind fun _ _ => .ok ⟨rfl, rfl, rfl⟩

theorem safe_newLeaf (c : Bytes) (v : V) (ttl p : Nat) (r : UInt8) :
    Safe (fun leaf => leaf.compression = c ∧ leaf.childs = .default ∧ leaf.overflowIdx = none ∧
      Node.newLeaf c v ttl p r = .ok leaf) (Node.newLeaf c v ttl p r) := by
  unfold Node.newLeaf ExpAndRadix.new
  split
  · exact .ok ⟨rfl, rfl, rfl, rfl⟩
  · exact .error id

/-- A leaf is hung below `p`, in a state that already holds it. -/
theorem Tiered.hang (T : Tiered st) {st₁ : OxidArt P V} {idx p : Nat} {r : UInt8} {leaf : Node V} (ins : Inserted st idx leaf st₁)
    (childs : leaf.childs = .default) (overflow : leaf.overflowIdx = none) (bytes : ∀ b ∈ leaf.compression, Ascii b)
    {n : Node V} (found : st.tryGetNode p = some n) (new : st.find p r = none) (byte : Ascii r)
    (allowed : st.admits p r = true) : Safe Tiered (st₁.pushChildIdx p idx r) := by
  obtain ⟨T₁, finds⟩ := T.inserted ins childs overflow bytes
  have allowed₁ : st₁.admits p r = true := by
    unfold admits at allowed ⊢
    rwa [ins.nodes, if_neg (ins.ne found)]
  exact (T₁.pushChildIdx (by rw [finds]; exact new) byte allowed₁ idx).imp fun _ both => both.1

theorem Tiered.createNodeWithVal (T : Tiered st) {p : Nat} {r : UInt8} {c : Bytes} (new : st.find p r = none) (byte : Ascii r)
    (bytes : ∀ b ∈ c, Ascii b) (allowed : st.admits p r = true) (v : V) (ttl : Nat) :
    Safe (fun q => Tiered q.2) (st.createNodeWithVal p r v c ttl) := by
  cases found : st.tryGetNode p with
  | none =>
    have run : st.createNodeWithVal p r v c ttl = .error .getNode := by
      unfold OxidArt.createNodeWithVal getNode
      rw [found]
      rfl
    rw [run]
    exact .error id
  | some n =>
    have shape := safe_newLeaf c v ttl p r
    cases made : Node.newLeaf c v ttl p r with
    | error e =>
      have run : st.createNodeWithVal p r v c ttl = .error e := by
        unfold OxidArt.createNodeWithVal
        rw [getNode_ok found, made]
        rfl
      rw [run]
      exact .error (shape.of_error made)
    | ok leaf =>
      obtain ⟨rfl, childs, overflow, -⟩ := shape.of_ok made
      obtain ⟨idx, st₁, ins, eq⟩ := createNodeWithVal_eq found made
      rw [eq]
      exact (T.hang ins childs overflow bytes found new byte allowed).map fun _ T' => T'

theorem safe_splitIntermediate (old : Node V) (common : Nat) (onNode : Bool) (ttl : Option Nat) (val : Option V) :
    Safe (fun node => node.compression = old.compression.take common ∧ node.childs = .default ∧ node.overflowIdx = none)
      (splitIntermediate old common onNode ttl val) := by
  unfold splitIntermediate
  split
  · exact (safe_setVal _ _ _).imp fun _ same => ⟨same.2.2, same.1, same.2.1⟩
  · exact .ok ⟨rfl, rfl, rfl⟩
  · exact .ok ⟨rfl, rfl, rfl⟩

/-- The old content of `x` moves to `y`; its links go with it. -/
theorem Tiered.moveDown (T : Tiered st) {st₁ : OxidArt P V} {x y : Nat} {old node oldChild : Node V}
    (found : st.tryGetNode x = some old) (ins : Inserted (st.setNode x node) y oldChild st₁)
    (compression : ∀ b ∈ node.compression, Ascii b) (childs : node.childs = .default) (overflow : node.overflowIdx = none)
    (compression' : ∀ b ∈ oldChild.compression, Ascii b) (childs' : oldChild.childs = old.childs)
    (overflow' : oldChild.overflowIdx = old.overflowIdx) : Tiered st₁ ∧ ∀ r, st₁.find x r = none := by
  have nodes : ∀ j, st₁.tryGetNode j = if j = y then some oldChild else if j = x then some node else st.tryGetNode j := by
    intro j
    rw [ins.nodes, tryGetNode_setNode, found]
    rfl
  obtain ⟨kids, find⟩ := T.kids.moveDown found ins childs overflow childs' overflow'
  refine ⟨⟨kids, ?_⟩, fun r => by rw [find, if_pos rfl]⟩
  intro i n here
  rw [nodes] at here
  split at here
  · obtain rfl := Option.some.inj here
    exact compression'
  · split at here
    · obtain rfl := Option.some.inj here
      exact compression
    · exact T.labels here

theorem Tiered.splitLeaf (T : Tiered st) {common : Nat} {keyRest : Bytes} {x : Nat}
    (new : ∀ r, keyRest[common]? = some r → st.find x r = none ∧ r ≠ 0) (bytes : ∀ b ∈ keyRest, Ascii b)
    (ttl : Option Nat) (val : Option V) : Safe (fun q => Tiered q.2) (st.splitLeaf common keyRest x ttl val) := by
  have rest : ∀ b ∈ keyRest.drop (common + 1), Ascii b := fun b member => bytes b (List.mem_of_mem_drop member)
  unfold OxidArt.splitLeaf
  split
  · exact .error id
  next r v here =>
    obtain ⟨unused, nonzero⟩ := new r here
    exact T.createNodeWithVal unused (bytes r (List.mem_of_getElem? here)) rest (admits_of_ne nonzero) v _
  next r here =>
    obtain ⟨unused, nonzero⟩ := new r here
    have ins := inserted_insert st (.newEmptyLeaf (keyRest.drop (common + 1)) x r)
    obtain ⟨T₁, finds⟩ := T.inserted ins rfl rfl rest
    have pushed := T₁.pushChildIdx (p := x) (by rw [finds]; exact unused) (bytes r (List.mem_of_getElem? here))
      (admits_of_ne nonzero) (st.insert (.newEmptyLeaf (keyRest.drop (common + 1)) x r)).1
    exact pushed.bind fun _ both => .ok both.1

/-- A split links two bytes below an empty inline array, so neither may be 0. -/
theorem Tiered.splitNode (T : Tiered st) {common : Nat} {keyRest : Bytes} {x : Nat} {old : Node V}
    (found : st.tryGetNode x = some old) (parts : Node.PartsAt old.compression keyRest common)
    (oldRadix : old.compression[common]? ≠ some 0) (newRadix : keyRest[common]? ≠ some 0) (bytes : ∀ b ∈ keyRest, Ascii b)
    (ttl : Option Nat) (val : Option V) : Safe (fun q => Tiered q.2) (st.splitNode common keyRest x ttl val) := by
  unfold OxidArt.splitNode
  simp only [getNode_ok found, bind, Except.bind]
  refine (safe_splitIntermediate old common _ ttl val).bind fun node shape => ?_
  obtain ⟨compression, childs, overflow⟩ := shape
  cases here : old.compression[common]? with
  | none => exact .error id
  | some r =>
    have byte : Ascii r := T.labels found r (List.mem_of_getElem? here)
    have nonzero : r ≠ 0 := fun zero => oldRadix (zero ▸ here)
    obtain ⟨oldChild, eqc⟩ : ∃ oldChild : Node V, oldChild = { old with
      compression := old.compression.drop (common + 1)
      parentIdx := some x } := ⟨_, rfl⟩
    obtain ⟨y, st₁, inserted, ins⟩ := inserted_either (st.setNode x node) oldChild old.expAndRadix.doesExpire
    obtain ⟨T₁, alone⟩ := T.moveDown found ins
      (fun b member => T.labels found b (List.mem_of_mem_take (compression ▸ member))) childs overflow
      (fun b member => T.labels found b (List.mem_of_mem_drop (by rw [eqc] at member; exact member))) (by rw [eqc]) (by rw [eqc])
    simp only [← eqc, inserted]
    refine (T₁.pushChildIdx (alone r) byte (admits_of_ne nonzero) y).bind fun st₂ both => ?_
    obtain ⟨T₂, finds⟩ := both
    split
    · exact .ok T₂
    next inner =>
      refine T₂.splitLeaf (fun s next => ⟨?_, fun zero => newRadix (zero ▸ next)⟩) bytes ttl val
      have differ : s ≠ r := by
        rintro rfl
        rcases parts.leave with last | differ
        · exact inner (beq_iff_eq.2 last)
        · exact differ (here.trans next.symm)
      rw [finds s differ]
      exact alone s

/-! ## The operations -/

/-- Whether the key can be linked where the walk ends: below a node with a full inline array under any byte, else under a byte
other than 0, and at a split under two such bytes. -/
def linkable (st : OxidArt P V) (key : Bytes) : Bool :=
  match st.walk key with
  | .noChild idx (r :: _) => st.admits idx r
  | .partialAt idx _ _ common keyRest _ =>
    keyRest[common]? != some 0 && (st.tryGetNode idx).all fun n => n.compression[common]? != some 0
  | _ => true

section Insert

variable {key : Bytes} (T : Tiered st) (bytes : ∀ b ∈ key, Ascii b)

include bytes

/-- The rest of the key where the walk finds no link. -/
theorem walk_noChild (nonempty : key ≠ []) {idx : Nat} {keyRest : Bytes} (outcome : st.walk key = .noChild idx keyRest) :
    ∃ r rest, keyRest = r :: rest ∧ st.find idx r = none ∧ Ascii r ∧ ∀ b ∈ rest, Ascii b := by
  have spec := walk_spec st nonempty
  rw [outcome] at spec
  obtain ⟨way, -, whole, r, rest, rfl, new⟩ := spec
  rw [whole] at bytes
  exact ⟨r, rest, rfl, new, bytes r (by simp), fun b member => bytes b (by simp [member])⟩

include T

theorem Tiered.walk_partialAt (nonempty : key ≠ []) {idx parent common : Nat} {radix : UInt8} {keyRest keyPath : Bytes}
    (outcome : st.walk key = .partialAt idx parent radix common keyRest keyPath) (fits : st.linkable key = true)
    (ttl : Option Nat) (val : Option V) : Safe (fun q => Tiered q.2) (st.splitNode common keyRest idx ttl val) := by
  have spec := walk_spec st nonempty
  rw [outcome] at spec
  obtain ⟨way, n, -, -, found, whole, parts, -⟩ := spec
  simp only [linkable, outcome, found, Option.all_some, Bool.and_eq_true, bne_iff_ne] at fits
  rw [whole] at bytes
  exact T.splitNode found parts fits.2 fits.1 (fun b member => bytes b (by simp [member])) ttl val

theorem Tiered.setInternal (fits : st.linkable key = true) (ttl : Nat) (v : V) : Safe Tiered (st.setInternal key ttl v) := by
  have write : ∀ i, Safe Tiered ((st.getNode i).bind fun n => (n.setVal v ttl).bind fun n' => .ok (st.setNode i n')) := by
    intro i
    refine (safe_getNode st i).bind fun n found => (safe_setVal n v ttl).bind fun n' same => .ok ?_
    exact T.setNode found same.1 same.2.1 same.2.2
  unfold OxidArt.setInternal
  split
  · exact write st.rootIdx
  next inner =>
    have nonempty : key ≠ [] := by simpa using inner
    split
    next idx r rest outcome =>
      obtain ⟨r', rest', same, new, byte, others⟩ := walk_noChild bytes nonempty outcome
      obtain ⟨rfl, rfl⟩ := List.cons.inj same
      simp only [linkable, outcome] at fits
      exact (T.createNodeWithVal new byte others fits v ttl).bind fun _ T' => .ok T'
    · exact .error id
    · exact .error id
    next idx _ _ _ _ => exact write idx
    next outcome => exact (T.walk_partialAt bytes nonempty outcome fits _ _).bind fun _ T' => .ok T'

theorem Tiered.ensureKey (fits : st.linkable key = true) : Safe (fun q => Tiered q.2) (st.ensureKey key) := by
  unfold OxidArt.ensureKey
  split
  · exact .ok T
  next inner =>
    have nonempty : key ≠ [] := by simpa using inner
    split
    next idx keyRest outcome =>
      obtain ⟨r, rest, rfl, new, byte, others⟩ := walk_noChild bytes nonempty outcome
      simp only [linkable, outcome] at fits
      have ins := inserted_insert st (.newEmptyLeaf rest idx r)
      unfold ensure
      cases found : st.tryGetNode idx with
      | none =>
        obtain ⟨T₁, finds⟩ := T.inserted ins rfl rfl others
        have nonzero : r ≠ 0 := by simpa [admits, found] using fits
        exact (T₁.pushChildIdx (by rw [finds]; exact new) byte (admits_of_ne nonzero) _).bind fun _ both => .ok both.1
      | some n => exact (T.hang ins rfl rfl others found new byte fits).bind fun _ T' => .ok T'
    · exact .error id
    · exact .ok T
    next outcome => exact T.walk_partialAt bytes nonempty outcome fits _ _

end Insert

/-- `Tiered` survives everything, and nothing panics while linking a key that can be linked. -/
theorem upkeep_tiered : Upkeep (fun e => ¬ e.Linking) (fun (st : OxidArt P V) key => (∀ b ∈ key, Ascii b) ∧ st.linkable key = true)
    Tiered where
  panics := id
  setNode T := T.setNode
  clearInline T := T.clearInline
  same T := T.same
  setNow T := T.setNow _
  removeLeaf T _ _ := T.removeNode _
  removeChild T := T.removeChild
  freeNode T := T.freeNode
  tryRecompress T := T.tryRecompress
  setInternal T fits := T.setInternal fits.1 fits.2
  ensureKey T fits := T.ensureKey fits.1 fits.2

end OxidArt

open OxidArt

section Runs

variable {P : Policy} {S : Type} [Score S]

/-- The commands in question, with a condition on the keys they may have to link. -/
def Command.Linkable (st : OxidArt P (Value S)) : Command S → Prop
  | .tree (.set key _) | .tree (.setTtl key _ _) | .hset key _ _ | .sadd key _ _ | .zadd key _ _ =>
    (∀ b ∈ key, Ascii b) ∧ st.linkable key = true
  | .tree (.del _) | .tree (.deln _) | .tree (.setNow _) => True
  | _ => False

instance (st : OxidArt P (Value S)) : (c : Command S) → Decidable (c.Linkable st)
  | .tree (.set key _) | .tree (.setTtl key _ _) | .hset key _ _ | .sadd key _ _ | .zadd key _ _ =>
    inferInstanceAs (Decidable ((∀ b ∈ key, Ascii b) ∧ _))
  | .tree (.del _) | .tree (.deln _) | .tree (.setNow _) => inferInstanceAs (Decidable True)
  | .tree (.expire ..) | .tree (.persist _) | .tree (.get _) | .tree (.getTtl _) | .tree (.getn _) | .tree (.evict _)
  | .incrby .. | .hget .. | .hgetall .. | .hdel .. | .hexists .. | .hlen .. | .hkeys .. | .hvals .. | .hmget .. | .hincrby ..
  | .spop .. | .srem .. | .smembers .. | .sismember .. | .scard .. | .zcard .. | .zrange .. | .zscore .. | .zrem ..
  | .zincrby .. => inferInstanceAs (Decidable False)

end Runs

namespace OxidArt

section Runs

variable {P : Policy} {S : Type} [Score S] {order : HashOrder} {st : OxidArt P (Value S)}

theorem tiered_new {V : Type} : Tiered (new : OxidArt P V) := by
  have I : Inv (new : OxidArt P V) [] _ := inv_new
  refine ⟨?_, fun found b member => (I.labels found b member).2⟩
  exact ⟨TierInv.nodup I.kids, fun found p member => (TierInv.keyByte I.kids found p member).2, TierInv.slotOk I.kids,
    TierInv.owner I.kids, TierInv.hugeOwner I.kids, TierInv.freeList I.kids⟩

theorem Tiered.exec (T : Tiered st) {c : Command S} (fits : c.Linkable st) :
    Safe (fun q => Tiered q.2) (exec order st c) := by
  refine upkeep_tiered.exec T fun key links => ?_
  unfold Command.Linkable at fits
  split at fits
  case h_9 => exact fits.elim
  case h_6 | h_7 | h_8 => cases links
  all_goals
    obtain rfl := Option.some.inj links
    exact fits

/-- In a run in which every key finds an inline array that admits its byte, no panic comes from linking. -/
theorem run_links (inputs : List (Command S)) (meets : Meets (OxidArt.exec order) (fun st c => c.Linkable st) inputs
    (new : OxidArt P (Value S))) : Safe (fun q => Tiered q.2) (run (OxidArt.exec order) inputs (new : OxidArt P (Value S))) := by
  have sound : ∀ {st : OxidArt P (Value S)}, Reaches (OxidArt.exec order) (fun st c => c.Linkable st) new st → Tiered st :=
    fun reached => reached.invariant tiered_new fun _ _ _ _ T fits taken => (T.exec fits).of_ok taken
  cases ran : run (OxidArt.exec order) inputs (new : OxidArt P (Value S)) with
  | ok q => exact .ok (sound (Reaches.run .refl meets ran))
  | error e =>
    obtain ⟨st, c, reached, fits, taken⟩ := Reaches.run_error .refl meets ran
    exact .error (((sound reached).exec fits).of_error taken)

end Runs

/-- Six inline links first, then the byte 0 below them. -/
theorem run_links_seventhByte :
    Safe (fun q => Tiered q.2) (run (OxidArt.exec .stored) [.tree (.set [97] (.int 1)), .sadd [98] [[120]] none,
      .hset [99] [([120], [121])] none, .tree (.setTtl [100] 5 (.int 2)), .tree (.set [101] (.int 3)), .tree (.set [102] (.int 4)),
      .tree (.set [0] (.int 5)), .tree (.del [97])] (new : OxidArt .lowest (Value Int))) := by
  apply run_links
  decide +kernel

/-- The byte 0 is ASCII, and the inline array refuses it. -/
theorem set_zeroByte_panics :
    run (OxidArt.exec .stored) [.tree (.set [0] (.int 1))] (new : OxidArt .lowest (Value Int)) = .error .childsPush := by
  rfl

end OxidArt

end Radixox.Oxidart
