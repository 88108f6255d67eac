import Radixox.Oxidart.Traversal

/-!
# The tree invariant and the surgeries on the store

`Inv st cut path` ties the state to a forest of paths: `path` gives the key of
every node of the tree, `cut` lists the roots of detached subtrees (the free
stack of a running deletion, empty otherwise). Each writing function of the store is
one surgery of the forest: this module gives, for each of them, the resulting
state, its paths and what every node holds afterwards.
-/

namespace Radixox.Oxidart
set_option autoImplicit false
open Radixox.Assoc Radixox.PathForest

/-- What a node stores for its own key: the value with its expiry. -/
def Node.content {V : Type} (n : Node V) : Option (V × Option Nat) := n.val.map (·, n.expAndRadix.exp)

theorem Node.core_eq {V : Type} {n n' : Node V} (same : n'.core = n.core) :
    n'.compression = n.compression ∧ n'.content = n.content ∧ n'.parentIdx = n.parentIdx ∧
      n'.expAndRadix = n.expAndRadix := by
  simp only [Node.core, Node.mk.injEq, true_and] at same
  obtain ⟨compression, val, exp, parent⟩ := same
  exact ⟨compression, by rw [Node.content, Node.content, val, exp], parent, exp⟩

namespace OxidArt

variable {P : Policy} {V : Type} {st st' : OxidArt P V}

def content (st : OxidArt P V) (i : Nat) : Option (V × Option Nat) := (st.tryGetNode i).bind Node.content

theorem content_eq {i : Nat} {n : Node V} (found : st.tryGetNode i = some n) : st.content i = n.content := by
  simp [content, found]

structure Inv (st : OxidArt P V) (cut : List Nat) (path : Nat → Option Bytes) : Prop where
  kids : KidsInv st
  forest : Forest st.graph st.rootIdx cut path
  labels : ∀ {i n}, st.tryGetNode i = some n → ∀ b ∈ n.compression, KeyByte b
  rootTop : ∀ {n}, st.tryGetNode st.rootIdx = some n → n.parentIdx = none

/-- The clock and the root stay. -/
structure Stays (st st' : OxidArt P V) : Prop where
  now : st'.now = st.now
  rootIdx : st'.rootIdx = st.rootIdx

theorem Stays.refl (st : OxidArt P V) : Stays st st := ⟨rfl, rfl⟩

theorem Stays.trans {st'' : OxidArt P V} (first : Stays st st') (second : Stays st' st'') : Stays st st'' :=
  ⟨second.now.trans first.now, second.rootIdx.trans first.rootIdx⟩

/-! ## What a relinked state keeps -/

namespace Relinks

variable {p : Nat}

theorem stays (R : Relinks st st' p) : Stays st st' := ⟨R.now, R.rootIdx⟩

theorem node (R : Relinks st st' p) {i : Nat} {n' : Node V} (found : st'.tryGetNode i = some n') :
    ∃ n, st.tryGetNode i = some n ∧ n'.core = n.core := by
  have same := R.core i
  simp only [OxidArt.core, found, Option.map_some] at same
  obtain ⟨n, here, eq⟩ := Option.map_eq_some_iff.1 same.symm
  exact ⟨n, here, eq.symm⟩

theorem node_of (R : Relinks st st' p) {i : Nat} {n : Node V} (found : st.tryGetNode i = some n) :
    ∃ n', st'.tryGetNode i = some n' ∧ n'.core = n.core := by
  have same := R.core i
  simp only [OxidArt.core, found, Option.map_some] at same
  exact Option.map_eq_some_iff.1 same

theorem free_iff (R : Relinks st st' p) {i : Nat} : st'.tryGetNode i = none ↔ st.tryGetNode i = none := by
  have same := R.core i
  simp only [OxidArt.core] at same
  rw [← Option.map_eq_none_iff (f := Node.core), same, Option.map_eq_none_iff]

theorem label (R : Relinks st st' p) : st'.graph.label = st.graph.label := by
  funext i
  have same := congrArg (Option.map Node.compression) (R.core i)
  simpa [OxidArt.core, graph, Node.core, Function.comp_def] using same

theorem content (R : Relinks st st' p) (i : Nat) : st'.content i = st.content i := by
  cases found : st'.tryGetNode i with
  | none => rw [OxidArt.content, OxidArt.content, found, R.free_iff.1 found]
  | some n' =>
    obtain ⟨n, here, same⟩ := R.node found
    rw [content_eq found, content_eq here, (Node.core_eq same).2.1]

theorem find_of_push {B : UInt8 → Prop} (R : Relinks st st' p) (K' : KidsInvOf B st') {r : UInt8} {idx : Nat}
    (perm : (st'.iterAllChildren p).Perm ((r, idx) :: st.iterAllChildren p)) (x : Nat) (s : UInt8) :
    st'.find x s = if x = p ∧ s = r then some idx else st.find x s := by
  by_cases here : x = p
  · subst here
    rw [find_eq_lookup, lookup_perm perm (K'.nodup x), List.lookup_cons, find_eq_lookup]
    by_cases same : s = r
    · simp [same]
    · simp [same, beq_eq_false_iff_ne.2 same]
  · rw [find_eq_lookup, R.others x here, ← find_eq_lookup]
    simp [here]

theorem find_of_remove {B : UInt8 → Prop} (R : Relinks st st' p) (K : KidsInvOf B st) {r : UInt8} {y : Nat}
    (perm : (st.iterAllChildren p).Perm ((r, y) :: st'.iterAllChildren p)) (x : Nat) (s : UInt8) :
    st'.find x s = if x = p ∧ s = r then none else st.find x s := by
  by_cases here : x = p
  · subst here
    have nodup := K.nodup x
    rw [(perm.map Prod.fst).nodup_iff, List.map_cons, List.nodup_cons] at nodup
    by_cases same : s = r
    · subst same
      simp only [and_self, if_true]
      exact find_eq_none_iff.2 nodup.1
    · have before : st.find x s = st'.find x s := by
        rw [find_eq_lookup, lookup_perm perm (K.nodup x), List.lookup_cons, find_eq_lookup,
          beq_eq_false_iff_ne.2 same]
      simp [same, before]
  · rw [find_eq_lookup, R.others x here, ← find_eq_lookup]
    simp [here]

/-- The conditions on single nodes carry over. -/
theorem inv (R : Relinks st st' p) {cut cut' : List Nat} {path path' : Nat → Option Bytes} (I : Inv st cut path)
    (K' : KidsInv st') (F' : Forest st'.graph st'.rootIdx cut' path') : Inv st' cut' path' := by
  refine ⟨K', F', ?_, ?_⟩
  · intro i n' found
    obtain ⟨n, here, same⟩ := R.node found
    rw [(Node.core_eq same).1]
    exact I.labels here
  · intro n' found
    rw [R.rootIdx] at found
    obtain ⟨n, here, same⟩ := R.node found
    exact (Node.core_eq same).2.2.1.trans (I.rootTop here)

end Relinks

/-! ## States that share the link stores -/

/-- Same overflow stores, clock and root; only the node slab may differ. -/
structure SameStores (st st' : OxidArt P V) : Prop where
  arena : st'.overflowArena = st.overflowArena
  huge : st'.hugeOvf = st.hugeOvf
  stays : Stays st st'

theorem SameStores.setNode (st : OxidArt P V) (i : Nat) (n : Node V) : SameStores st (st.setNode i n) :=
  ⟨rfl, rfl, rfl, rfl⟩

theorem SameStores.removeNode (st : OxidArt P V) (i : Nat) : SameStores st (st.removeNode i) := ⟨rfl, rfl, rfl, rfl⟩

theorem SameStores.trans {st'' : OxidArt P V} (first : SameStores st st') (second : SameStores st' st'') :
    SameStores st st'' :=
  ⟨second.arena.trans first.arena, second.huge.trans first.huge, first.stays.trans second.stays⟩

theorem SameStores.links (S : SameStores st st') {i j : Nat} (same : st'.tier i = st.tier j) :
    st'.iterAllChildren i = st.iterAllChildren j := by
  rw [iterAllChildren_eq, iterAllChildren_eq, same, S.arena, S.huge]

theorem SameStores.find (S : SameStores st st') {i j : Nat} (same : st'.tier i = st.tier j) (r : UInt8) :
    st'.find i r = st.find j r := by
  rw [find_eq_lookup, find_eq_lookup, S.links same]

theorem KidsInvOf.rename {B : UInt8 → Prop} (K : KidsInvOf B st) (S : SameStores st st') (src : Nat → Nat)
    (origin : ∀ i t, st'.tier i = some t → t = (.default, none) ∨ st.tier (src i) = some t)
    (inj : ∀ i j t t', st'.tier i = some t → st'.tier j = some t' → t ≠ (.default, none) → t' ≠ (.default, none) →
      src i = src j → i = j) : KidsInvOf B st' := by
  unfold KidsInvOf
  rw [S.arena, S.huge]
  exact TierInv.rename K src origin inj

/-- A state whose nodes have the same tiers. -/
theorem KidsInvOf.same {B : UInt8 → Prop} (K : KidsInvOf B st) (S : SameStores st st') (tiers : ∀ i t, st'.tier i = some t → st.tier i = some t) :
    KidsInvOf B st' :=
  K.rename S id (fun i t found => .inr (tiers i t found)) (fun _ _ _ _ _ _ _ _ same => same)

theorem KidsInvOf.removeNode {B : UInt8 → Prop} (K : KidsInvOf B st) (i : Nat) : KidsInvOf B (st.removeNode i) := by
  refine K.same (.removeNode st i) fun j t here => ?_
  rw [tier, tryGetNode_removeNode] at here
  split at here
  · cases here
  · exact here

/-- A node drops its inline links and keeps its slot. -/
theorem KidsInvOf.clearInline {B : UInt8 → Prop} (K : KidsInvOf B st) {i : Nat} {n n' : Node V} (found : st.tryGetNode i = some n)
    (childs : n'.childs = .default) (overflow : n'.overflowIdx = n.overflowIdx) : KidsInvOf B (st.setNode i n') := by
  have sub : List.Sublist (linksOf st.overflowArena st.hugeOvf (.default, n.overflowIdx))
      (linksOf st.overflowArena st.hugeOvf (n.childs, n.overflowIdx)) := List.sublist_append_right _ _
  have new : (st.setNode i n').tier i = some (.default, n.overflowIdx) := by
    rw [tier_setNode found, if_pos rfl, childs, overflow]
  refine (TierInv.update K (tier_eq found) new (fun j other => ?_) ⟨fun _ _ _ => rfl, fun _ _ _ => rfl,
    fun _ same => .inl same, fun _ same => .inl same, fun s slot => TierInv.slotOk K (tier_eq found) s slot, K.freeList⟩ ?_ ?_).1
  · rw [tier_setNode found, if_neg other]
  · exact (TierInv.nodup K (tier_eq found)).sublist (sub.map Prod.fst)
  · exact fun q member => TierInv.keyByte K (tier_eq found) q (sub.subset member)

theorem find_of_default {i : Nat} (empty : st.tier i = some (.default, none)) (r : UInt8) : st.find i r = none := by
  rw [find_eq_lookup, iterAllChildren_of_tier empty]
  rfl

/-! ## Writing one node -/

section Write

variable {cut : List Nat} {path : Nat → Option Bytes} {i : Nat} {n n' : Node V}

/-- Only the value and the expiry of a node change. -/
theorem Inv.setNode (I : Inv st cut path) (found : st.tryGetNode i = some n) (compression : n'.compression = n.compression)
    (childs : n'.childs = n.childs) (overflow : n'.overflowIdx = n.overflowIdx) (parent : n'.parentIdx = n.parentIdx) :
    Inv (st.setNode i n') cut path := by
  have nodes := tryGetNode_setNode st i n'
  simp only [found, Option.map_some] at nodes
  have tiers : ∀ j, (st.setNode i n').tier j = st.tier j := by
    intro j
    simp only [tier, nodes]
    split
    next here => rw [here, found, Option.map_some, Option.map_some, childs, overflow]
    next => rfl
  have graphs : (st.setNode i n').graph = st.graph := by
    unfold graph
    congr 1
    · funext j
      simp only [nodes]
      split
      next here => rw [here, found, Option.map_some, Option.map_some, compression]
      next => rfl
    · funext j r
      exact (SameStores.setNode st i n').find (tiers j) r
  refine ⟨I.kids.same (.setNode st i n') (fun j t here => (tiers j).symm.trans here), ?_, ?_, ?_⟩
  · rw [graphs]
    exact I.forest
  · intro j m here
    rw [nodes] at here
    split at here
    · obtain rfl := Option.some.inj here
      rw [compression]
      exact I.labels found
    · exact I.labels here
  · intro m here
    rw [nodes] at here
    split at here
    next top =>
      obtain rfl := Option.some.inj here
      rw [parent]
      exact I.rootTop (top ▸ found)
    next => exact I.rootTop here

theorem content_setNode (found : st.tryGetNode i = some n) (n' : Node V) (j : Nat) :
    (st.setNode i n').content j = if j = i then n'.content else st.content j := by
  simp only [content, tryGetNode_setNode, found]
  split <;> rfl

end Write

/-! ## Hanging a new leaf -/

/-- `st'` is `st` with the node `n` at the free index `idx`. -/
structure Inserted (st : OxidArt P V) (idx : Nat) (n : Node V) (st' : OxidArt P V) : Prop where
  free : st.tryGetNode idx = none
  nodes : ∀ j, st'.tryGetNode j = if j = idx then some n else st.tryGetNode j
  stores : SameStores st st'

theorem inserted_insert (st : OxidArt P V) (n : Node V) : Inserted st (st.insert n).1 n (st.insert n).2 :=
  ⟨tryGetNode_nextIdx st, tryGetNode_insert st n, rfl, rfl, rfl, rfl⟩

theorem inserted_insertTagged (st : OxidArt P V) (n : Node V) :
    Inserted st (st.insertTagged n).1 n (st.insertTagged n).2 :=
  ⟨tryGetNode_nextIdx st, tryGetNode_insertTagged st n, rfl, rfl, rfl, rfl⟩

/-- The node goes into the arena of the expiring ones or into the other. -/
theorem inserted_either (st : OxidArt P V) (n : Node V) (expires : Prop) [Decidable expires] :
    ∃ idx st', (if expires then st.insertTagged n else st.insert n) = (idx, st') ∧ Inserted st idx n st' := by
  split
  · exact ⟨_, _, rfl, inserted_insertTagged st n⟩
  · exact ⟨_, _, rfl, inserted_insert st n⟩

section Leaf

variable {cut : List Nat} {path : Nat → Option Bytes} {p idx : Nat} {r : UInt8} {leaf n : Node V}

theorem Inserted.tier (ins : Inserted st idx leaf st') (j : Nat) :
    st'.tier j = if j = idx then some (leaf.childs, leaf.overflowIdx) else st.tier j := by
  simp only [OxidArt.tier, ins.nodes]
  split <;> rfl

theorem Inserted.ne (ins : Inserted st idx leaf st') (found : st.tryGetNode p = some n) : p ≠ idx := by
  rintro rfl
  exact absurd (ins.free.symm.trans found) (by simp)

/-- A leaf without links leaves all links as they are. -/
theorem Inserted.leaf_links {B : UInt8 → Prop} (ins : Inserted st idx leaf st') (K : KidsInvOf B st) (childs : leaf.childs = .default)
    (overflow : leaf.overflowIdx = none) : KidsInvOf B st' ∧ st'.find = st.find := by
  constructor
  · refine K.rename ins.stores id ?_ (fun _ _ _ _ _ _ _ _ same => same)
    intro i t here
    rw [ins.tier] at here
    split at here
    · rw [childs, overflow] at here
      exact .inl (Option.some.inj here).symm
    · exact .inr here
  · funext x s
    by_cases new : x = idx
    · rw [new, find_of_free ins.free, find_of_default]
      rw [ins.tier, if_pos rfl, childs, overflow]
    · exact ins.stores.find (by rw [ins.tier, if_neg new]) s

theorem Inv.pushLeaf (I : Inv st cut path) (ins : Inserted st idx leaf st') (childs : leaf.childs = .default)
    (overflow : leaf.overflowIdx = none) (bytes : ∀ b ∈ leaf.compression, KeyByte b)
    (found : st.tryGetNode p = some n) (unused : st.find p r = none) (byte : KeyByte r) :
    ∃ st'', st'.pushChildIdx p idx r = .ok st'' ∧
      Inv st'' cut (Function.update path idx ((path p).map (· ++ r :: leaf.compression))) ∧
      st''.graph = st.graph.addLeaf p r idx leaf.compression ∧
      (∃ m, st''.tryGetNode idx = some m ∧ m.core = leaf.core) ∧
      (∀ j, st''.content j = if j = idx then leaf.content else st.content j) ∧ Stays st st'' := by
  obtain ⟨K', finds⟩ := ins.leaf_links I.kids childs overflow
  have found' : st'.tryGetNode p = some n := by rw [ins.nodes, if_neg (ins.ne found), found]
  obtain ⟨st'', pushed, K'', R, perm⟩ := pushChildIdx_ok K' found' (by rw [finds]; exact unused) byte idx
  have graphs : st''.graph = st.graph.addLeaf p r idx leaf.compression := by
    unfold Graph.addLeaf
    have kids : st''.graph.kid = fun x s => if x = p ∧ s = r then some idx else st.graph.kid x s := by
      funext x s
      change st''.find x s = _
      rw [R.find_of_push K'' perm, finds]
      rfl
    have labels : st''.graph.label = Function.update st.graph.label idx (some leaf.compression) := by
      rw [R.label]
      funext j
      simp only [graph, ins.nodes, Function.update_apply]
      split <;> rfl
    rw [← kids, ← labels]
  have F := I.forest.addLeaf (l := leaf.compression) (graph_label found)
    (by simp [graph, ins.free] : st.graph.label idx = none) unused
  rw [← graphs] at F
  refine ⟨st'', pushed, ?_, graphs, R.node_of (by rw [ins.nodes, if_pos rfl]), ?_, ins.stores.stays.trans R.stays⟩
  · have root : st''.rootIdx = st.rootIdx := (ins.stores.stays.trans R.stays).rootIdx
    refine ⟨K'', root ▸ F, ?_, ?_⟩
    · intro i m' here'
      obtain ⟨m, here, same⟩ := R.node here'
      rw [(Node.core_eq same).1]
      rw [ins.nodes] at here
      split at here
      · obtain rfl := Option.some.inj here
        exact bytes
      · exact I.labels here
    · intro m' here'
      obtain ⟨m, here, same⟩ := R.node here'
      rw [(Node.core_eq same).2.2.1]
      rw [ins.nodes, root] at here
      obtain ⟨l, read⟩ := I.forest.rootLabel
      obtain ⟨top, occupied, -⟩ := graph_label_iff.1 read
      rw [if_neg (ins.ne occupied)] at here
      exact I.rootTop here
  · intro j
    rw [R.content, content, ins.nodes]
    split <;> rfl

end Leaf

/-! ## Splitting a compression -/

section Split

variable {cut : List Nat} {path : Nat → Option Bytes} {x y : Nat} {r : UInt8} {a b : Bytes} {old node oldChild : Node V}

/-- Where the links are after the old content of `x` has moved to the new node `y`. -/
theorem tier_moveDown (found : st.tryGetNode x = some old) (ins : Inserted (st.setNode x node) y oldChild st')
    (childs : node.childs = .default) (overflow : node.overflowIdx = none) (childs' : oldChild.childs = old.childs)
    (overflow' : oldChild.overflowIdx = old.overflowIdx) (j : Nat) :
    st'.tier j = if j = y then st.tier x else if j = x then some (.default, none) else st.tier j := by
  simp only [tier, ins.nodes, tryGetNode_setNode, found]
  split
  · rw [Option.map_some, Option.map_some, childs', overflow']
  · split
    · rw [Option.map_some, Option.map_some, childs, overflow]
    · rfl

/-- The links of `x` move to the new node `y`. -/
theorem KidsInvOf.moveDown {B : UInt8 → Prop} (K : KidsInvOf B st) (found : st.tryGetNode x = some old)
    (ins : Inserted (st.setNode x node) y oldChild st') (childs : node.childs = .default) (overflow : node.overflowIdx = none)
    (childs' : oldChild.childs = old.childs) (overflow' : oldChild.overflowIdx = old.overflowIdx) :
    KidsInvOf B st' ∧ ∀ z s, st'.find z s = if z = x then none else if z = y then st.find x s else st.find z s := by
  have ne : x ≠ y := ins.ne (n := node) (by rw [tryGetNode_setNode, if_pos rfl, found]; rfl)
  have S : SameStores st st' := (SameStores.setNode st x node).trans ins.stores
  have tiers := tier_moveDown found ins childs overflow childs' overflow'
  constructor
  · refine K.rename S (fun i => if i = y then x else i) ?_ ?_
    · intro i t here
      rw [tiers] at here
      split at here
      next new => rw [if_pos new]; exact .inr here
      next new =>
        split at here
        next => exact .inl (Option.some.inj here).symm
        next => rw [if_neg new]; exact .inr here
    · intro i j t t' herei herej busyi busyj same
      rw [tiers] at herei herej
      grind
  · intro z s
    split
    next here => exact find_of_default (by rw [tiers, here, if_neg ne, if_pos rfl]) s
    next other =>
      split
      next here => exact S.find (by rw [tiers, if_pos here]) s
      next other' => exact S.find (by rw [tiers, if_neg other', if_neg other]) s

/-- The node `x` keeps the first part of its compression, the new node `y` takes the rest and all links. -/
theorem Inv.split (I : Inv st cut path) (found : st.tryGetNode x = some old) (inner : x ≠ st.rootIdx)
    (whole : old.compression = a ++ r :: b) (compression : node.compression = a) (childs : node.childs = .default)
    (overflow : node.overflowIdx = none) (ins : Inserted (st.setNode x node) y oldChild st')
    (compression' : oldChild.compression = b) (childs' : oldChild.childs = old.childs)
    (overflow' : oldChild.overflowIdx = old.overflowIdx) :
    ∃ st'', st'.pushChildIdx x y r = .ok st'' ∧
      Inv st'' cut (Function.update (Function.update path x
        ((path x).map fun p => p.take (p.length - (b.length + 1)))) y (path x)) ∧
      st''.graph = st.graph.split x a r y b ∧ (∃ m, st''.tryGetNode x = some m ∧ m.core = node.core) ∧
      (∀ j, st''.content j = if j = y then oldChild.content else if j = x then node.content else st.content j) ∧
      Stays st st'' := by
  have nodes1 := tryGetNode_setNode st x node
  simp only [found, Option.map_some] at nodes1
  have nodes : ∀ j, st'.tryGetNode j = if j = y then some oldChild else if j = x then some node else st.tryGetNode j := by
    intro j
    rw [ins.nodes, nodes1]
  have ne : x ≠ y := ins.ne (n := node) (by rw [nodes1, if_pos rfl])
  have free : st.tryGetNode y = none := by
    have := ins.free
    rwa [nodes1, if_neg ne.symm] at this
  have S : SameStores st st' := (SameStores.setNode st x node).trans ins.stores
  obtain ⟨K', find'⟩ := I.kids.moveDown found ins childs overflow childs' overflow'
  have found' : st'.tryGetNode x = some node := by rw [nodes, if_neg ne, if_pos rfl]
  have byte : KeyByte r := I.labels found r (by rw [whole]; simp)
  obtain ⟨st'', pushed, K'', R, perm⟩ := pushChildIdx_ok K' found' (by rw [find', if_pos rfl]) byte y
  have graphs : st''.graph = st.graph.split x a r y b := by
    unfold Graph.split
    have kids : st''.graph.kid = fun z s => if z = x then (if s = r then some y else none)
        else if z = y then st.graph.kid x s else st.graph.kid z s := by
      funext z s
      change st''.find z s = _
      rw [R.find_of_push K'' perm, find']
      by_cases here : z = x
      · simp [here]
      · simp [here, graph]
    have labels : st''.graph.label = Function.update (Function.update st.graph.label x (some a)) y (some b) := by
      rw [R.label]
      funext j
      simp only [graph, nodes, Function.update_apply]
      split
      · rw [Option.map_some, compression']
      · split
        · rw [Option.map_some, compression]
        · rfl
    rw [← kids, ← labels]
  have F := I.forest.split (b := b) (a := a) (r := r) (by rw [graph_label found, whole])
    (by simp [graph, free] : st.graph.label y = none) inner
  rw [← graphs] at F
  have root : st''.rootIdx = st.rootIdx := (S.stays.trans R.stays).rootIdx
  refine ⟨st'', pushed, ⟨K'', root ▸ F, ?_, ?_⟩, graphs, R.node_of found', ?_, S.stays.trans R.stays⟩
  · intro i m' here'
    obtain ⟨m, here, same⟩ := R.node here'
    rw [(Node.core_eq same).1]
    have sub := I.labels found
    rw [whole] at sub
    rw [nodes] at here
    split at here
    · obtain rfl := Option.some.inj here
      rw [compression']
      exact fun c member => sub c (by simp [member])
    · split at here
      · obtain rfl := Option.some.inj here
        rw [compression]
        exact fun c member => sub c (by simp [member])
      · exact I.labels here
  · intro m' here'
    obtain ⟨m, here, same⟩ := R.node here'
    rw [(Node.core_eq same).2.2.1]
    obtain ⟨l, read⟩ := I.forest.rootLabel
    obtain ⟨top, occupied, -⟩ := graph_label_iff.1 read
    have apart : st.rootIdx ≠ y := by
      intro same
      rw [same, free] at occupied
      cases occupied
    rw [nodes, root, if_neg apart, if_neg inner.symm] at here
    exact I.rootTop here
  · intro j
    rw [R.content, content, nodes]
    split
    · rfl
    · split <;> rfl

end Split

/-! ## Recompression -/

section Merge

variable {cut : List Nat} {path : Nat → Option Bytes} {x y : Nat} {r : UInt8} {n child : Node V}

/-- The links of `y` move to `x`, and `y` is gone. -/
theorem KidsInvOf.moveUp {B : UInt8 → Prop} (K : KidsInvOf B st) (S : SameStores st st')
    (tiers : ∀ j, st'.tier j = if j = x then st.tier y else if j = y then none else st.tier j) : KidsInvOf B st' := by
  refine K.rename S (fun i => if i = x then y else i) ?_ ?_
  · intro i t here
    rw [tiers] at here
    grind
  · intro i j t t' herei herej busyi busyj same
    rw [tiers] at herei herej
    grind

theorem links_of_single (found : st.tryGetNode x = some n) (single : n.getSingleChild = some (r, y)) :
    n.childs.items = [(r, y)] ∧ n.overflowIdx = none ∧ st.iterAllChildren x = [(r, y)] := by
  unfold Node.getSingleChild Childs.oldGetSingleChild at single
  split at single
  next ret one none' =>
    split at one
    next q items =>
      obtain rfl : q = (r, y) := by
        rw [Option.some.inj one]
        exact Option.some.inj single
      refine ⟨items, none', ?_⟩
      simp [iterAllChildren, found, items, none']
    next => cases one
  next => cases single

theorem sameStores_reparent (st : OxidArt P V) (p : Nat) (l : Links) : SameStores st (st.reparent p l) := by
  induction l generalizing st with
  | nil => exact ⟨rfl, rfl, .refl st⟩
  | cons q rest ih =>
    simp only [reparent]
    split
    · exact (SameStores.setNode st _ _).trans (ih _)
    · exact ih st

/-- `reparent` changes the parent link of the listed nodes. -/
theorem tryGetNode_reparent (st : OxidArt P V) (p : Nat) (l : Links) (j : Nat) :
    (st.reparent p l).tryGetNode j = (st.tryGetNode j).map fun m =>
      if j ∈ l.map Prod.snd then { m with parentIdx := some p } else m := by
  induction l generalizing st with
  | nil => simp [reparent]
  | cons q rest ih =>
    obtain ⟨s, i⟩ := q
    cases found : st.tryGetNode i with
    | none =>
      simp only [reparent, found, ih, List.map_cons, List.mem_cons]
      by_cases here : j = i
      · simp [here, found]
      · simp only [here, false_or]
    | some m =>
      simp only [reparent, found, ih, tryGetNode_setNode, Option.map_some, List.map_cons, List.mem_cons]
      by_cases here : j = i
      · simp [here, found]
      · simp only [here, if_false, false_or]

/-- The node at `j` after `reparent`. -/
def adopt (p : Nat) (l : Links) (j : Nat) (m : Node V) : Node V :=
  if j ∈ l.map Prod.snd then { m with parentIdx := some p } else m

theorem adopt_eq (p : Nat) (l : Links) (j : Nat) (m : Node V) : ∃ parent, adopt p l j m = { m with parentIdx := parent } := by
  unfold adopt
  split
  · exact ⟨some p, rfl⟩
  · exact ⟨m.parentIdx, rfl⟩

/-- The node that takes over what its only child holds. -/
def merged (n : Node V) (r : UInt8) (child : Node V) : Node V :=
  { n with
    compression := n.compression ++ r :: child.compression
    expAndRadix := child.expAndRadix
    childs := child.childs
    overflowIdx := child.overflowIdx
    val := child.val }

/-- The state in which `x` has absorbed its only child `y`. -/
def absorbed (st : OxidArt P V) (x y : Nat) (r : UInt8) (n child : Node V) : OxidArt P V :=
  ((st.removeNode y).reparent x (st.iterAllChildren y)).setNode x (merged (adopt x (st.iterAllChildren y) x n) r child)

theorem sameStores_absorbed (st : OxidArt P V) (x y : Nat) (r : UInt8) (n child : Node V) : SameStores st (st.absorbed x y r n child) :=
  ((SameStores.removeNode st y).trans (sameStores_reparent _ _ _)).trans (.setNode _ _ _)

theorem tryGetNode_orphaned (found : st.tryGetNode x = some n) (other : y ≠ x) (l : Links) :
    ((st.removeNode y).reparent x l).tryGetNode x = some (adopt x l x n) := by
  rw [tryGetNode_reparent, tryGetNode_removeNode, if_neg other.symm, found]
  rfl

theorem tryGetNode_absorbed (found : st.tryGetNode x = some n) (other : y ≠ x) (child : Node V) (j : Nat) :
    (st.absorbed x y r n child).tryGetNode j = if j = x then some (merged (adopt x (st.iterAllChildren y) x n) r child)
      else if j = y then none else (st.tryGetNode j).map (adopt x (st.iterAllChildren y) j) := by
  rw [absorbed, tryGetNode_setNode, tryGetNode_orphaned found other, tryGetNode_reparent, tryGetNode_removeNode]
  by_cases gone : j = y
  · rw [if_pos gone, if_pos gone]
    rfl
  · rw [if_neg gone, if_neg gone]
    rfl

theorem tier_absorbed (found : st.tryGetNode x = some n) (other : y ≠ x) {child : Node V} (occupied : st.tryGetNode y = some child) (j : Nat) :
    (st.absorbed x y r n child).tier j = if j = x then st.tier y else if j = y then none else st.tier j := by
  simp only [tier, tryGetNode_absorbed found other]
  split
  · rw [occupied]
    rfl
  · split
    · rfl
    · rw [Option.map_map]
      congr 1
      funext m
      obtain ⟨parent, same⟩ := adopt_eq x (st.iterAllChildren y) j m
      rw [Function.comp_apply, same]

theorem tryRecompress_absorbs (found : st.tryGetNode x = some n) (empty : n.val = none) (single : n.getSingleChild = some (r, y))
    {child : Node V} (occupied : st.tryGetNode y = some child) (other : y ≠ x) :
    st.tryRecompress x = .ok (st.absorbed x y r n child) := by
  unfold tryRecompress
  simp only [found, empty, Option.isSome_none, Bool.false_eq_true, if_false, single, occupied,
    getNode_ok (tryGetNode_orphaned found other _)]
  rfl

/-- A node that is its own child is taken out of the slab under it. -/
theorem tryRecompress_self (found : st.tryGetNode x = some n) (empty : n.val = none) (single : n.getSingleChild = some (r, x)) :
    st.tryRecompress x = .error .getNode := by
  have gone : ((st.removeNode x).reparent x (st.iterAllChildren x)).tryGetNode x = none := by
    rw [tryGetNode_reparent, tryGetNode_removeNode, if_pos rfl]
    rfl
  unfold tryRecompress
  simp only [found, empty, Option.isSome_none, Bool.false_eq_true, if_false, single, getNode, gone]
  rfl

/-- All that `try_recompress` can do: nothing, or let `x` absorb its only child. -/
theorem tryRecompress_cases (st : OxidArt P V) (x : Nat) :
    st.tryRecompress x = .ok st ∨ ∃ n r y child, st.tryGetNode x = some n ∧ n.val = none ∧ n.getSingleChild = some (r, y) ∧
      st.tryGetNode y = some child ∧
      (y = x ∧ st.tryRecompress x = .error .getNode ∨ y ≠ x ∧ st.tryRecompress x = .ok (st.absorbed x y r n child)) := by
  cases found : st.tryGetNode x with
  | none => exact .inl (by simp only [tryRecompress, found])
  | some n =>
    cases empty : n.val with
    | some v => exact .inl (by simp only [tryRecompress, found, empty, Option.isSome_some, if_true])
    | none =>
      cases single : n.getSingleChild with
      | none =>
        exact .inl (by simp only [tryRecompress, found, empty, Option.isSome_none, Bool.false_eq_true, if_false, single])
      | some link =>
        obtain ⟨r, y⟩ := link
        cases occupied : st.tryGetNode y with
        | none =>
          exact .inl (by simp only [tryRecompress, found, empty, Option.isSome_none, Bool.false_eq_true, if_false, single, occupied])
        | some child =>
          refine .inr ⟨n, r, y, child, rfl, empty, single, occupied, ?_⟩
          by_cases same : y = x
          · obtain rfl := same
            exact .inl ⟨rfl, tryRecompress_self found empty single⟩
          · exact .inr ⟨same, tryRecompress_absorbs found empty single occupied same⟩

/-- `x` absorbs its only child `y`: the state after, up to its forest. -/
theorem Inv.absorb (I : Inv st cut path) (found : st.tryGetNode x = some n) (empty : n.val = none)
    (single : n.getSingleChild = some (r, y)) :
    ∃ st' child, st.tryRecompress x = .ok st' ∧ st.tryGetNode y = some child ∧ st.find x r = some y ∧
      (∀ s, s ≠ r → st.graph.kid x s = none) ∧
      st'.graph = st.graph.merge x y (n.compression ++ r :: child.compression) ∧
      (∀ {cut' path'}, Forest st'.graph st'.rootIdx cut' path' → Inv st' cut' path') ∧
      (∀ j, st'.content j = if j = x then st.content y else if j = y then none else st.content j) ∧ Stays st st' := by
  obtain ⟨items, overflow, links⟩ := links_of_single found single
  have edge : st.find x r = some y := by rw [I.kids.find_iff, links]; exact List.mem_singleton.2 rfl
  have only : ∀ s, s ≠ r → st.graph.kid x s = none := by
    intro s other
    change st.find x s = none
    rw [find_eq_none_iff, links]
    simpa using other
  obtain ⟨l, read⟩ := I.forest.kidOcc edge
  obtain ⟨child, occupied, rfl⟩ := graph_label_iff.1 read
  obtain ⟨rank, lower⟩ := I.forest.acyclic
  have ne : x ≠ y := by
    rintro rfl
    exact Nat.lt_irrefl _ (lower edge)
  have grand : ∀ j, j ∈ (st.iterAllChildren y).map Prod.snd → j ≠ x ∧ j ≠ st.rootIdx := by
    intro j member
    obtain ⟨⟨s, j'⟩, inside, rfl⟩ := List.mem_map.1 member
    have below := I.kids.find_iff.2 inside
    constructor
    · intro same
      have near := lower edge
      have far := lower (below.trans (congrArg some same))
      omega
    · intro same
      exact I.forest.kidRoot (below.trans (congrArg some same))
  obtain ⟨st', eq⟩ : ∃ st', st' = st.absorbed x y r n child := ⟨_, rfl⟩
  have run : st.tryRecompress x = .ok st' := eq ▸ tryRecompress_absorbs found empty single occupied ne.symm
  have S : SameStores st st' := eq ▸ sameStores_absorbed st x y r n child
  have nodes : ∀ j, st'.tryGetNode j = if j = x then some (merged (adopt x (st.iterAllChildren y) x n) r child)
      else if j = y then none else (st.tryGetNode j).map (adopt x (st.iterAllChildren y) j) :=
    eq ▸ tryGetNode_absorbed found ne.symm child
  have tiers : ∀ j, st'.tier j = if j = x then st.tier y else if j = y then none else st.tier j :=
    eq ▸ tier_absorbed found ne.symm occupied
  have same : adopt x (st.iterAllChildren y) x n = n := if_neg fun member => (grand x member).1 rfl
  rw [same] at nodes
  have K : KidsInv st' := I.kids.moveUp S tiers
  have graphs : st'.graph = st.graph.merge x y (n.compression ++ r :: child.compression) := by
    unfold Graph.merge
    have kids : st'.graph.kid = fun z s => if z = x then st.graph.kid y s else if z = y then none else st.graph.kid z s := by
      funext z s
      change st'.find z s = _
      split
      next here => exact S.find (by rw [tiers, if_pos here]) s
      next other =>
        split
        next here => exact find_of_free (by rw [nodes, if_neg other, if_pos here]) s
        next other' => exact S.find (by rw [tiers, if_neg other, if_neg other']) s
    have labels : st'.graph.label = Function.update (Function.update st.graph.label y none) x
        (some (n.compression ++ r :: child.compression)) := by
      funext j
      simp only [graph, nodes, Function.update_apply]
      split
      · rfl
      · split
        · rfl
        · rw [Option.map_map]
          congr 1
          funext m
          obtain ⟨parent, adopted⟩ := adopt_eq x (st.iterAllChildren y) j m
          rw [Function.comp_apply, adopted]
    rw [← kids, ← labels]
  refine ⟨st', child, run, occupied, edge, only, graphs, fun F => ⟨K, F, ?_, ?_⟩, ?_, S.stays⟩
  · intro i m here
    rw [nodes] at here
    split at here
    · obtain rfl := Option.some.inj here
      intro c member
      rcases List.mem_append.1 member with front | back
      · exact I.labels found c front
      · rcases List.mem_cons.1 back with rfl | tail
        · exact I.kids.keyByte (I.kids.find_iff.1 edge)
        · exact I.labels occupied c tail
    · split at here
      · cases here
      · obtain ⟨m', old, rfl⟩ := Option.map_eq_some_iff.1 here
        obtain ⟨parent, adopted⟩ := adopt_eq x (st.iterAllChildren y) i m'
        rw [adopted]
        exact fun c member => I.labels old c member
  · intro m here
    rw [nodes, S.stays.rootIdx] at here
    split at here
    next top =>
      have above : n.parentIdx = none := I.rootTop (top ▸ found)
      obtain rfl := Option.some.inj here
      exact above
    next =>
      split at here
      · cases here
      · obtain ⟨m', old, rfl⟩ := Option.map_eq_some_iff.1 here
        rw [adopt, if_neg (fun member => (grand _ member).2 rfl)]
        exact I.rootTop old
  · intro j
    rw [content, nodes]
    split
    · rw [content_eq occupied]
      rfl
    · split
      · rfl
      · rw [content, Option.bind_map]
        congr 1
        funext m
        obtain ⟨parent, adopted⟩ := adopt_eq x (st.iterAllChildren y) j m
        rw [Function.comp_apply, adopted]
        rfl

/-- An inner node absorbs its only child. -/
theorem Inv.recompress (I : Inv st cut path) (found : st.tryGetNode x = some n) (inner : x ≠ st.rootIdx)
    (empty : n.val = none) (single : n.getSingleChild = some (r, y)) :
    ∃ st' child, st.tryRecompress x = .ok st' ∧ st.tryGetNode y = some child ∧ st.find x r = some y ∧
      (∀ s, s ≠ r → st.graph.kid x s = none) ∧
      Inv st' cut (Function.update (Function.update path y none) x (path y)) ∧
      st'.graph = st.graph.merge x y (n.compression ++ r :: child.compression) ∧
      (∀ j, st'.content j = if j = x then st.content y else if j = y then none else st.content j) ∧ Stays st st' := by
  obtain ⟨st', child, run, occupied, edge, only, graphs, close, contents, stays⟩ := I.absorb found empty single
  have F := I.forest.merge inner (graph_label found) edge only (graph_label occupied)
  rw [← graphs] at F
  exact ⟨st', child, run, occupied, edge, only, close (stays.rootIdx ▸ F), graphs, contents, stays⟩

/-- The root absorbs its only child: every key loses the way to that child. -/
theorem Inv.rebaseRoot (I : Inv st cut path) (found : st.tryGetNode st.rootIdx = some n) (empty : n.val = none)
    (single : n.getSingleChild = some (r, y)) :
    ∃ st' child, st.tryRecompress st.rootIdx = .ok st' ∧ st.tryGetNode y = some child ∧
      st.find st.rootIdx r = some y ∧ (∀ s, s ≠ r → st.graph.kid st.rootIdx s = none) ∧
      Inv st' cut (fun i => if i = st.rootIdx then some [] else if i = y then none
        else (path i).map (·.drop (r :: child.compression).length)) ∧
      (∀ j, st'.content j = if j = st.rootIdx then st.content y else if j = y then none else st.content j) ∧
      Stays st st' := by
  obtain ⟨st', child, run, occupied, edge, only, graphs, close, contents, stays⟩ := I.absorb found empty single
  have F := I.forest.rebase (l := n.compression ++ r :: child.compression) edge only (graph_label occupied)
  rw [← graphs] at F
  exact ⟨st', child, run, occupied, edge, only, close (stays.rootIdx ▸ F), contents, stays⟩

end Merge

/-! ## Removing a leaf, a subtree, a detached node -/

section Remove

variable {cut : List Nat} {path : Nat → Option Bytes} {p y : Nat} {r : UInt8} {n child : Node V}

/-- `remove_child` cuts the subtree of `y` off. -/
theorem Inv.cutLink (I : Inv st cut path) {q : Bytes} (edge : st.find p r = some y) (live : path p = some q)
    (found : st.tryGetNode y = some child) :
    Inv (st.removeChild p r) (cut ++ [y]) (Forest.without path (q ++ r :: child.compression)) ∧
      (st.removeChild p r).graph = st.graph.unlink p r ∧
      (∀ j, (st.removeChild p r).content j = st.content j) ∧ Stays st (st.removeChild p r) := by
  obtain ⟨l, read⟩ := I.forest.kidDom edge
  obtain ⟨n, occupied, -⟩ := graph_label_iff.1 read
  obtain ⟨K', R, perm⟩ := removeChild_ok I.kids occupied edge
  have graphs : (st.removeChild p r).graph = st.graph.unlink p r := by
    unfold Graph.unlink
    have kids : (st.removeChild p r).graph.kid = fun z s => if z = p ∧ s = r then none else st.graph.kid z s := by
      funext z s
      exact R.find_of_remove I.kids perm z s
    rw [← kids, ← R.label]
  have F := I.forest.cutLink edge live (graph_label found)
  rw [← graphs] at F
  exact ⟨R.inv I K' (R.rootIdx ▸ F), graphs, R.content, R.stays⟩

/-- Removing a leaf from the slab and its link from the parent. -/
theorem Inv.dropLeaf (I : Inv st cut path) (edge : st.find p r = some y) (found : st.tryGetNode y = some child)
    (leaf : child.hasChildren = false) :
    Inv ((st.removeNode y).removeChild p r) cut (Function.update path y none) ∧
      ((st.removeNode y).removeChild p r).graph = st.graph.dropLeaf p r y ∧
      (∀ j, ((st.removeNode y).removeChild p r).content j = if j = y then none else st.content j) ∧
      Stays st ((st.removeNode y).removeChild p r) := by
  obtain ⟨items, overflow⟩ : child.childs.items = [] ∧ child.overflowIdx = none := by
    simpa [Node.hasChildren, Childs.isEmpty] using leaf
  have links : st.iterAllChildren y = [] := by simp [iterAllChildren, found, items, overflow]
  have alone : ∀ s, st.graph.kid y s = none := by
    intro s
    change st.find y s = none
    rw [find_eq_lookup, links]
    rfl
  have ne : p ≠ y := by
    rintro rfl
    exact absurd ((alone r).symm.trans edge) (by simp)
  obtain ⟨l, read⟩ := I.forest.kidDom edge
  obtain ⟨n, occupied, -⟩ := graph_label_iff.1 read
  have nodes := tryGetNode_removeNode st y
  have S := SameStores.removeNode st y
  have tiers : ∀ j, (st.removeNode y).tier j = if j = y then none else st.tier j := by
    intro j
    simp only [tier, nodes]
    split <;> rfl
  have K1 : KidsInv (st.removeNode y) := I.kids.removeNode y
  have find1 : ∀ z s, (st.removeNode y).find z s = st.find z s := by
    intro z s
    by_cases here : z = y
    · rw [here, find_of_free (by rw [nodes, if_pos rfl])]
      exact (alone s).symm
    · exact S.find (by rw [tiers, if_neg here]) s
  obtain ⟨K', R, perm⟩ := removeChild_ok (y := y) (r := r) K1 (by rw [nodes, if_neg ne]; exact occupied)
    (by rw [find1]; exact edge)
  have graphs : ((st.removeNode y).removeChild p r).graph = st.graph.dropLeaf p r y := by
    unfold Graph.dropLeaf
    have kids : ((st.removeNode y).removeChild p r).graph.kid =
        fun z s => if z = p ∧ s = r then none else st.graph.kid z s := by
      funext z s
      change OxidArt.find _ z s = _
      rw [R.find_of_remove K1 perm, find1]
      rfl
    have labels : ((st.removeNode y).removeChild p r).graph.label = Function.update st.graph.label y none := by
      rw [R.label]
      funext j
      simp only [graph, nodes, Function.update_apply]
      split <;> rfl
    rw [← kids, ← labels]
  have F := I.forest.dropLeaf edge alone
  rw [← graphs] at F
  have root : ((st.removeNode y).removeChild p r).rootIdx = st.rootIdx := R.rootIdx
  refine ⟨⟨K', root ▸ F, ?_, ?_⟩, graphs, ?_, R.now, R.rootIdx⟩
  · intro i m' here'
    obtain ⟨m, here, same⟩ := R.node here'
    rw [(Node.core_eq same).1]
    rw [nodes] at here
    split at here
    · cases here
    · exact I.labels here
  · intro m' here'
    obtain ⟨m, here, same⟩ := R.node here'
    rw [(Node.core_eq same).2.2.1]
    rw [nodes, root] at here
    split at here
    · cases here
    · exact I.rootTop here
  · intro j
    rw [R.content, content, nodes]
    split <;> rfl

theorem mem_collectChildIndices {B : UInt8 → Prop} (K : KidsInvOf B st) {j : Nat} :
    j ∈ st.collectChildIndices y ↔ ∃ r, st.graph.kid y r = some j := by
  simp only [collectChildIndices, List.mem_map]
  constructor
  · rintro ⟨⟨r, j'⟩, member, rfl⟩
    exact ⟨r, K.find_iff.2 member⟩
  · rintro ⟨r, edge⟩
    exact ⟨(r, j), K.find_iff.1 edge, rfl⟩

theorem Inv.nodup_children (I : Inv st cut path) (y : Nat) : (st.collectChildIndices y).Nodup := by
  have nodup := I.kids.nodup y
  unfold collectChildIndices
  rw [List.nodup_iff_pairwise_ne, List.pairwise_map] at nodup ⊢
  refine nodup.imp_of_mem ?_
  rintro ⟨r, i⟩ ⟨s, j⟩ left right differ same
  obtain rfl : i = j := same
  exact differ (I.forest.kidInj (I.kids.find_iff.2 left) (I.kids.find_iff.2 right)).2

/-- Freeing a node gives its slot back to the arena and its huge entry to the slab; the other nodes keep their links. -/
theorem freeNode_links {B : UInt8 → Prop} (K : KidsInvOf B st) (found : st.tryGetNode y = some n) :
    ∃ st', st.freeNode y = some (st.collectChildIndices y, n.val.isSome, st') ∧ KidsInvOf B st' ∧
      (∀ j, st'.tryGetNode j = if j = y then none else st.tryGetNode j) ∧
      (∀ j, st'.iterAllChildren j = if j = y then [] else st.iterAllChildren j) ∧ Stays st st' ∧
      st'.map = (st.removeNode y).map := by
  have old := tier_eq found
  have ok := TierInv.slotOk K old
  have released : ∃ arena huge, n.overflowIdx.elim st (fun oi =>
        { st with
          overflowArena := (st.overflowArena.free st.hugeOvf oi).1
          hugeOvf := (st.overflowArena.free st.hugeOvf oi).2 }) =
        { st with overflowArena := arena, hugeOvf := huge } ∧
      TierStep st.overflowArena st.hugeOvf (n.childs, n.overflowIdx) arena huge (.default, none) := by
    cases slot : n.overflowIdx with
    | none =>
      refine ⟨st.overflowArena, st.hugeOvf, rfl, fun _ _ _ => rfl, fun _ _ _ => rfl, ?_, ?_, ?_, K.freeList⟩
      all_goals
        intro j here
        cases here
    | some s =>
      obtain ⟨o, read, -, sound⟩ := ok s slot
      have big : bigOf st.overflowArena (n.childs, some s) = o.bigOverflowIdx := by simp [bigOf, read]
      have drop : (st.overflowArena.free st.hugeOvf s).2 = o.dropHuge st.hugeOvf := by simp [OverflowArena.free, read]
      refine ⟨_, _, rfl, ?_, ?_, ?_, ?_, ?_, OverflowArena.freeList_free K.freeList read _⟩
      · intro j other _
        rw [OverflowArena.get_free read, if_neg]
        rintro rfl
        exact other rfl
      · intro h other _
        rw [drop]
        exact Overflow.get_dropHuge _ (big ▸ other)
      all_goals
        intro j here
        cases here
  obtain ⟨arena, huge, eq, step⟩ := released
  obtain ⟨st', eq'⟩ : ∃ st', st' = ({ st with overflowArena := arena, hugeOvf := huge } : OxidArt P V).removeNode y :=
    ⟨_, rfl⟩
  have nodes : ∀ j, st'.tryGetNode j = if j = y then none else st.tryGetNode j := by
    rw [eq']
    exact tryGetNode_removeNode _ y
  -- First the links of the node go, then the node.
  have emptied : (fun j => if j = y then some (.default, none) else st.tier j) y = some (.default, none) := if_pos rfl
  obtain ⟨K1, frame⟩ := TierInv.update K old emptied (fun i other => if_neg other) step List.nodup_nil
    (fun _ member => by cases member)
  refine ⟨st', ?_, ?_, nodes, ?_, ?_, ?_⟩
  · unfold OxidArt.freeNode
    simp only [found]
    have same := congrArg (fun u : OxidArt P V => some (st.collectChildIndices y, n.val.isSome, u.removeNode y)) eq
    refine Eq.trans ?_ (same.trans (by rw [eq']))
    cases n.overflowIdx <;> rfl
  · have stores : st'.overflowArena = arena ∧ st'.hugeOvf = huge := by
      rw [eq']
      exact ⟨rfl, rfl⟩
    unfold KidsInvOf
    rw [stores.1, stores.2]
    refine TierInv.rename K1 id ?_ (fun _ _ _ _ _ _ _ _ same => same)
    intro i t here
    simp only [tier, nodes] at here
    split at here
    · cases here
    next other => exact .inr ((if_neg other).trans here)
  · intro j
    rw [iterAllChildren_eq, iterAllChildren_eq]
    simp only [tier, nodes]
    split
    · rfl
    next other =>
      cases here : st.tryGetNode j with
      | none => rfl
      | some m =>
        have same := congrArg Shelf.links (frame j other _ (tier_eq here))
        rw [← linksOf_eq, ← linksOf_eq] at same
        rw [eq']
        exact same
  · rw [eq']
    exact ⟨rfl, rfl⟩
  · rw [eq']
    rfl

/-- One turn of the freeing loop at the top of the stack. -/
theorem Inv.freeNode {rest : List Nat} (I : Inv st (rest ++ [y]) path) (found : st.tryGetNode y = some n) :
    ∃ st', st.freeNode y = some (st.collectChildIndices y, n.val.isSome, st') ∧
      Inv st' (rest ++ st.collectChildIndices y) path ∧ st'.graph = st.graph.free y ∧
      (∀ j, st'.content j = if j = y then none else st.content j) ∧ Stays st st' ∧
      st'.map = (st.removeNode y).map := by
  obtain ⟨st', run, K', nodes, links, stays, slab⟩ := freeNode_links I.kids found
  have graphs : st'.graph = st.graph.free y := by
    unfold Graph.free
    have kids : st'.graph.kid = fun z s => if z = y then none else st.graph.kid z s := by
      funext z s
      change st'.find z s = if z = y then none else st.find z s
      rw [find_eq_lookup, links, find_eq_lookup]
      split <;> rfl
    have labels : st'.graph.label = Function.update st.graph.label y none := by
      funext j
      simp only [graph, nodes, Function.update_apply]
      split <;> rfl
    rw [← kids, ← labels]
  have F := I.forest.free rfl (I.nodup_children y) (fun j => mem_collectChildIndices I.kids)
  rw [← graphs] at F
  refine ⟨st', run, ⟨K', stays.rootIdx ▸ F, ?_, ?_⟩, graphs, ?_, stays, slab⟩
  · intro i m here
    rw [nodes] at here
    split at here
    · cases here
    · exact I.labels here
  · intro m here
    rw [nodes, stays.rootIdx] at here
    split at here
    · cases here
    · exact I.rootTop here
  · intro j
    rw [content, nodes]
    split <;> rfl

/-- Emptying the root: every subtree below it is detached. -/
theorem Inv.stripRoot (I : Inv st cut path) (found : st.tryGetNode st.rootIdx = some n) (n' : Node V)
    (compression : n'.compression = n.compression) (childs : n'.childs = .default)
    (overflow' : n'.overflowIdx = none) (parent : n'.parentIdx = n.parentIdx) :
    Inv (st.setNode st.rootIdx n') (cut ++ st.collectChildIndices st.rootIdx)
      (fun i => if i = st.rootIdx then some [] else none) := by
  have nodes := tryGetNode_setNode st st.rootIdx n'
  simp only [found, Option.map_some] at nodes
  have S := SameStores.setNode st st.rootIdx n'
  have tiers : ∀ j, (st.setNode st.rootIdx n').tier j = if j = st.rootIdx then some (.default, none) else st.tier j := by
    intro j
    simp only [tier, nodes]
    split
    · rw [Option.map_some, childs, overflow']
    · rfl
  have K' : KidsInv (st.setNode st.rootIdx n') := by
    refine I.kids.rename S id ?_ (fun _ _ _ _ _ _ _ _ same => same)
    intro i t here
    rw [tiers] at here
    split at here
    · exact .inl (Option.some.inj here).symm
    · exact .inr here
  have graphs : (st.setNode st.rootIdx n').graph = st.graph.strip st.rootIdx := by
    unfold Graph.strip
    have kids : (st.setNode st.rootIdx n').graph.kid =
        fun z s => if z = st.rootIdx then none else st.graph.kid z s := by
      funext z s
      change OxidArt.find _ z s = _
      split
      next here => exact find_of_default (by rw [tiers, if_pos here]) s
      next other => exact S.find (by rw [tiers, if_neg other]) s
    have labels : (st.setNode st.rootIdx n').graph.label = st.graph.label := by
      funext j
      simp only [graph, nodes]
      split
      next here => rw [here, found, Option.map_some, Option.map_some, compression]
      next => rfl
    rw [← kids, ← labels]
  have F := I.forest.strip (I.nodup_children st.rootIdx) (fun j => mem_collectChildIndices I.kids)
  rw [← graphs] at F
  refine ⟨K', F, ?_, ?_⟩
  · intro i m here
    rw [nodes] at here
    split at here
    · obtain rfl := Option.some.inj here
      rw [compression]
      exact I.labels found
    · exact I.labels here
  · intro m here
    change (st.setNode st.rootIdx n').tryGetNode st.rootIdx = some m at here
    rw [nodes, if_pos rfl] at here
    obtain rfl := Option.some.inj here
    rw [parent]
    exact I.rootTop found

end Remove

end OxidArt

end Radixox.Oxidart
