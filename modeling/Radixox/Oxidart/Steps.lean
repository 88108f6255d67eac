import Radixox.Oxidart.Entries

/-!
# Steps of the tree

`Step` collects what every operation guarantees besides its effect on the table:
the invariant with the same detached trees, the clock and the root, and that
each node that stays keeps the way to it. The way to a node is its key without its own
compression; a split or a merge changes the compression and the key together.
-/

namespace Radixox.Oxidart
set_option autoImplicit false
open Radixox.PathForest

namespace OxidArt

variable {P : Policy} {V : Type} {st st₁ st' : OxidArt P V}
variable {cut cut₁ cut' : List Nat} {path path₁ path' : Nat → Option Bytes}

/-- An inner node that stays keeps the way to it, and stays above those keys of `K` it was above. -/
def Moves (K : Bytes → Prop) (st : OxidArt P V) (path : Nat → Option Bytes) (st' : OxidArt P V)
    (path' : Nat → Option Bytes) : Prop :=
  ∀ i p l l', i ≠ st.rootIdx → path i = some p → st.graph.label i = some l → st'.graph.label i = some l' →
    ∃ way p', path' i = some p' ∧ p = way ++ l ∧ p' = way ++ l' ∧ ∀ k, K k → p <+: k → p' <+: k

/-- The way to an inner node of the tree. -/
theorem Inv.way (I : Inv st cut path) {i : Nat} {p l : Bytes} (inner : i ≠ st.rootIdx) (live : path i = some p)
    (read : st.graph.label i = some l) : ∃ way, p = way ++ l := by
  obtain ⟨j, r, q, l', -, -, read', rfl⟩ := I.forest.parent_live live inner
  obtain rfl := Option.some.inj (read.symm.trans read')
  exact ⟨q ++ [r], by simp⟩

theorem moves_same (I : Inv st cut path) (K : Bytes → Prop)
    (same : ∀ i p l l', path i = some p → st.graph.label i = some l → st'.graph.label i = some l' →
      path' i = some p ∧ l' = l) : Moves K st path st' path' := by
  intro i p l l' inner live read read'
  obtain ⟨way, rfl⟩ := I.way inner live read
  obtain ⟨live', label⟩ := same i _ l l' live read read'
  exact ⟨way, _, live', rfl, by rw [label], fun _ _ below => below⟩

theorem Moves.mono {K L : Bytes → Prop} (M : Moves K st path st' path') (sub : ∀ k, L k → K k) :
    Moves L st path st' path' := by
  intro i p l l' inner live read read'
  obtain ⟨way, p', live', eq, eq', below⟩ := M i p l l' inner live read read'
  exact ⟨way, p', live', eq, eq', fun k inside => below k (sub k inside)⟩

theorem Moves.trans {K : Bytes → Prop} (first : Moves K st path st₁ path₁) (second : Moves K st₁ path₁ st' path')
    (root : st₁.rootIdx = st.rootIdx)
    (between : ∀ i l l', st.graph.label i = some l → st'.graph.label i = some l' → ∃ l₁, st₁.graph.label i = some l₁) :
    Moves K st path st' path' := by
  intro i p l l' inner live read read'
  obtain ⟨l₁, read₁⟩ := between i l l' read read'
  obtain ⟨way, p₁, live₁, eq, eq₁, below⟩ := first i p l l₁ inner live read read₁
  obtain ⟨way', p', live', eq₁', eq', below'⟩ := second i p₁ l₁ l' (root ▸ inner) live₁ read₁ read'
  obtain rfl : way = way' := by
    rw [eq₁] at eq₁'
    exact List.append_cancel_right eq₁'
  exact ⟨way, p', live', eq, eq', fun k inside above => below' k inside (below k inside above)⟩

structure Step (K : Bytes → Prop) (st : OxidArt P V) (cut : List Nat) (path : Nat → Option Bytes) (st' : OxidArt P V)
    (path' : Nat → Option Bytes) : Prop where
  inv : Inv st' cut path'
  stays : Stays st st'
  moves : Moves K st path st' path'
  /-- The root keeps its compression. -/
  top : st'.graph.label st.rootIdx = st.graph.label st.rootIdx

theorem Step.refl (I : Inv st cut path) (K : Bytes → Prop) : Step K st cut path st path := by
  refine ⟨I, .refl st, moves_same I K ?_, rfl⟩
  intro i p l l' live read read'
  exact ⟨live, Option.some.inj (read'.symm.trans read)⟩

theorem Step.mono {K L : Bytes → Prop} (S : Step K st cut path st' path') (sub : ∀ k, L k → K k) :
    Step L st cut path st' path' :=
  ⟨S.inv, S.stays, S.moves.mono sub, S.top⟩

theorem Step.trans {K : Bytes → Prop} (first : Step K st cut path st₁ path₁) (second : Step K st₁ cut path₁ st' path')
    (between : ∀ i l l', st.graph.label i = some l → st'.graph.label i = some l' → ∃ l₁, st₁.graph.label i = some l₁) :
    Step K st cut path st' path' :=
  ⟨second.inv, first.stays.trans second.stays, first.moves.trans second.moves first.stays.rootIdx between,
    (first.stays.rootIdx ▸ second.top).trans first.top⟩

/-! ## Tags are invisible -/

/-- The same tree; the tags of the slab may differ. -/
structure SameTree (st st' : OxidArt P V) : Prop where
  nodes : st'.tryGetNode = st.tryGetNode
  stores : SameStores st st'

theorem SameTree.refl (st : OxidArt P V) : SameTree st st := ⟨rfl, rfl, rfl, .refl st⟩

theorem sameTree_tag (st : OxidArt P V) (i : Nat) : SameTree st { st with map := st.map.tag i } :=
  ⟨funext fun _ => TaggedHiSlab.get_tag _ _ _, rfl, rfl, rfl, rfl⟩

theorem sameTree_untag (st : OxidArt P V) (i : Nat) : SameTree st { st with map := st.map.untag i } :=
  ⟨funext fun _ => TaggedHiSlab.get_untag _ _ _, rfl, rfl, rfl, rfl⟩

namespace SameTree

theorem graph (T : SameTree st st') : st'.graph = st.graph := by
  unfold OxidArt.graph
  rw [T.nodes]
  congr 1
  funext i r
  exact T.stores.find (by simp only [tier, T.nodes]) r

theorem content (T : SameTree st st') : st'.content = st.content := by
  funext i
  simp only [OxidArt.content, T.nodes]

theorem inv (T : SameTree st st') (I : Inv st cut path) : Inv st' cut path := by
  refine ⟨I.kids.same T.stores (fun i t found => ?_), ?_, ?_, ?_⟩
  · simpa only [tier, T.nodes] using found
  · rw [T.graph, T.stores.stays.rootIdx]
    exact I.forest
  · rw [T.nodes]
    exact I.labels
  · rw [T.nodes, T.stores.stays.rootIdx]
    exact I.rootTop

theorem entry (T : SameTree st st') (I : Inv st cut path) : st'.entry = st.entry :=
  entry_of_detached I (T.inv I) rfl fun _ _ _ => congrFun T.content _

end SameTree

theorem Step.same {K : Bytes → Prop} {st'' : OxidArt P V} (S : Step K st cut path st' path') (T : SameTree st' st'') :
    Step K st cut path st'' path' := by
  refine ⟨T.inv S.inv, S.stays.trans T.stores.stays, ?_, ?_⟩
  · intro i p l l' inner live read read'
    rw [T.graph] at read'
    exact S.moves i p l l' inner live read read'
  · rw [T.graph]
    exact S.top

/-! ## Writing a node -/

section Write

variable {i : Nat} {k : Bytes} {n m : Node V}

theorem label_setNode (found : st.tryGetNode i = some n) (compression : m.compression = n.compression) :
    (st.setNode i m).graph.label = st.graph.label := by
  funext j
  simp only [graph, tryGetNode_setNode, found]
  split
  next here => rw [here, found, Option.map_some, Option.map_some, Option.map_some, compression]
  next => rfl

theorem Step.setNode (I : Inv st cut path) (K : Bytes → Prop) (found : st.tryGetNode i = some n)
    (compression : m.compression = n.compression) (childs : m.childs = n.childs)
    (overflow : m.overflowIdx = n.overflowIdx) (parent : m.parentIdx = n.parentIdx) :
    Step K st cut path (st.setNode i m) path := by
  refine ⟨I.setNode found compression childs overflow parent, ⟨rfl, rfl⟩, moves_same I K ?_,
    by rw [label_setNode found compression]⟩
  intro j p l l' live read read'
  refine ⟨live, ?_⟩
  rw [label_setNode found compression] at read'
  exact Option.some.inj (read'.symm.trans read)

/-- Writing the node of the key `k`. -/
theorem entry_setNode (I : Inv st cut path) (found : st.tryGetNode i = some n) (live : path i = some k)
    (compression : m.compression = n.compression) (childs : m.childs = n.childs)
    (overflow : m.overflowIdx = n.overflowIdx) (parent : m.parentIdx = n.parentIdx) :
    (st.setNode i m).entry = Function.update st.entry k m.content :=
  entry_of_write I (I.setNode found compression childs overflow parent) rfl (content_setNode found m) live

end Write

/-! ## Insertions -/

/-- The expiry a `set_exp` argument stands for. -/
def expOf (ttl : Nat) : Option Nat := if ttl = ExpAndRadix.noExp then none else some ttl

theorem Node.setVal_ok (n : Node V) (v : V) {ttl : Nat} (small : ttl < 2 ^ 56) :
    ∃ n', n.setVal v ttl = .ok n' ∧ n'.content = some (v, expOf ttl) ∧ n'.compression = n.compression ∧
      n'.childs = n.childs ∧ n'.overflowIdx = n.overflowIdx ∧ n'.parentIdx = n.parentIdx := by
  obtain ⟨e, ok, exp, -⟩ := n.expAndRadix.setExp_ok small
  refine ⟨{ n with val := some v, expAndRadix := e }, ?_, ?_, rfl, rfl, rfl, rfl⟩
  · simp only [Node.setVal, ok]
    rfl
  · simp only [Node.content, Option.map_some, exp, expOf]

theorem Node.newLeaf_ok (compression : Bytes) (v : V) {ttl : Nat} (small : ttl < 2 ^ 56) (parent : Nat) (radix : UInt8) :
    ∃ leaf, Node.newLeaf compression v ttl parent radix = .ok leaf ∧ leaf.content = some (v, expOf ttl) ∧
      leaf.compression = compression ∧ leaf.childs = .default ∧ leaf.overflowIdx = none := by
  obtain ⟨e, ok, exp, -⟩ := ExpAndRadix.new_ok small radix
  refine ⟨⟨compression, .default, some v, e, none, some parent⟩, ?_, ?_, rfl, rfl, rfl⟩
  · simp only [Node.newLeaf, ok]
    rfl
  · simp only [Node.content, Option.map_some, exp, expOf]

section Insert

variable {p : Nat} {n leaf : Node V} {r : UInt8} {q c : Bytes}

/-- A new leaf below a node of the tree. -/
theorem Step.pushLeaf {idx : Nat} (I : Inv st cut path) (K : Bytes → Prop) (ins : Inserted st idx leaf st₁)
    (childs : leaf.childs = .default) (overflow : leaf.overflowIdx = none) (bytes : ∀ b ∈ leaf.compression, KeyByte b)
    (found : st.tryGetNode p = some n) (live : path p = some q) (unused : st.find p r = none) (byte : KeyByte r) :
    ∃ st' path', st₁.pushChildIdx p idx r = .ok st' ∧ Step K st cut path st' path' ∧
      st'.entry = Function.update st.entry (q ++ r :: leaf.compression) leaf.content ∧
      path' idx = some (q ++ r :: leaf.compression) ∧ (∃ m, st'.tryGetNode idx = some m ∧ m.core = leaf.core) ∧
      (∀ j l, st.graph.label j = some l → st'.graph.label j = some l) := by
  obtain ⟨st', pushed, I', graphs, node, contents, stays⟩ := I.pushLeaf ins childs overflow bytes found unused byte
  rw [live, Option.map_some] at I'
  have new : ∀ {j l}, st.graph.label j = some l → j ≠ idx := by
    intro j l read
    obtain ⟨m, here, -⟩ := graph_label_iff.1 read
    exact ins.ne here
  have kept : ∀ j l, st.graph.label j = some l → st'.graph.label j = some l := by
    intro j l read
    rw [graphs]
    exact (Function.update_of_ne (new read) _ _).trans read
  obtain ⟨l, rootLabel⟩ := I.forest.rootLabel
  refine ⟨st', _, pushed, ⟨I', stays, moves_same I K ?_, (kept _ l rootLabel).trans rootLabel.symm⟩,
    entry_of_pushLeaf I I' ins.free rfl contents, ?_, node, kept⟩
  · intro j s l l' livej read read'
    rw [Function.update_of_ne (new read)]
    exact ⟨livej, Option.some.inj (read'.symm.trans (kept j l read))⟩
  · rw [Function.update_self]

/-- `create_node_with_val` is an insertion, tagged if the value expires, followed by a push. -/
theorem createNodeWithVal_inserts {v : V} {ttl idx : Nat} {st₁ : OxidArt P V} (found : st.tryGetNode p = some n)
    (made : Node.newLeaf c v ttl p r = .ok leaf) (eq : (if ttl ≠ ExpAndRadix.noExp then st.insertTagged leaf else st.insert leaf) = (idx, st₁))
    (ins : Inserted st idx leaf st₁) : st.createNodeWithVal p r v c ttl = (st₁.pushChildIdx p idx r).map fun st' => (idx, st') := by
  have found₁ : st₁.tryGetNode p = some n := by rw [ins.nodes, if_neg (ins.ne found), found]
  unfold createNodeWithVal pushChildIdx
  simp only [getNode_ok found, made, eq, getNode_ok found₁, bind, Except.bind, pure, Except.pure]
  cases full : n.childs.isFull with
  | false =>
    simp only [if_true]
    cases n.childs.push r idx <;> rfl
  | true =>
    simp only [Bool.true_eq_false, if_false]
    cases slot : n.overflowIdx with
    | none =>
      simp only
      cases st₁.allocOverflowWithFirst r idx with
      | error => rfl
      | ok q =>
        obtain ⟨s, st₂⟩ := q
        simp only
        cases st₂.getNode p <;> rfl
    | some s =>
      simp only
      cases st₁.overflowArena.get s with
      | none => rfl
      | some o =>
        simp only
        cases o.push st₁.hugeOvf r idx <;> rfl

theorem createNodeWithVal_eq {v : V} {ttl : Nat} (found : st.tryGetNode p = some n)
    (made : Node.newLeaf c v ttl p r = .ok leaf) :
    ∃ idx st₁, Inserted st idx leaf st₁ ∧
      st.createNodeWithVal p r v c ttl = (st₁.pushChildIdx p idx r).map fun st' => (idx, st') := by
  obtain ⟨idx, st₁, eq, ins⟩ := inserted_either st leaf (ttl ≠ ExpAndRadix.noExp)
  exact ⟨idx, st₁, ins, createNodeWithVal_inserts found made eq ins⟩

theorem createNodeWithVal_ok (I : Inv st cut path) (K : Bytes → Prop) {v : V} {ttl : Nat} (small : ttl < 2 ^ 56)
    (bytes : ∀ b ∈ c, KeyByte b) (found : st.tryGetNode p = some n) (live : path p = some q)
    (unused : st.find p r = none) (byte : KeyByte r) :
    ∃ idx st' path', st.createNodeWithVal p r v c ttl = .ok (idx, st') ∧ Step K st cut path st' path' ∧
      st'.entry = Function.update st.entry (q ++ r :: c) (some (v, expOf ttl)) ∧
      path' idx = some (q ++ r :: c) ∧ (∀ j l, st.graph.label j = some l → st'.graph.label j = some l) := by
  obtain ⟨leaf, made, content, rfl, childs, overflow⟩ := Node.newLeaf_ok c v small p r
  obtain ⟨idx, st₁, ins, eq⟩ := createNodeWithVal_eq found made
  obtain ⟨st', path', pushed, S, entries, key, -, kept⟩ :=
    Step.pushLeaf I K ins childs overflow bytes found live unused byte
  refine ⟨idx, st', path', ?_, S, content ▸ entries, key, kept⟩
  rw [eq, pushed]
  rfl

end Insert

/-! ## `split_node` -/

section Split

variable {x : Nat} {old : Node V} {q keyRest : Bytes} {common : Nat}

/-- What `split_node` is asked to store: a value with its expiry (`set`), or nothing (`ensure_key`). -/
abbrev Request (V : Type) := Option (V × Nat)

def Request.content (request : Request V) : Option (V × Option Nat) := request.map fun p => (p.1, expOf p.2)

def Request.Small (request : Request V) : Prop := ∀ v ttl, request = some (v, ttl) → ttl < 2 ^ 56

theorem splitIntermediate_ok (old : Node V) (common : Nat) (onNode : Bool) {request : Request V} (small : Request.Small request) :
    ∃ node, splitIntermediate old common onNode (request.map Prod.snd) (request.map Prod.fst) = .ok node ∧
      node.compression = old.compression.take common ∧ node.childs = .default ∧ node.overflowIdx = none ∧
      node.content = (if onNode then Request.content request else none) ∧
      (request = none → node.expAndRadix.exp = none) := by
  cases request with
  | none =>
    have run : splitIntermediate old common onNode none none = .ok ({ old with
        compression := old.compression.take common
        val := none
        expAndRadix := old.expAndRadix.setNoExpiracy
        childs := .default
        overflowIdx := none } : Node V) := by cases onNode <;> rfl
    exact ⟨_, run, rfl, rfl, rfl, by cases onNode <;> rfl, fun _ => ExpAndRadix.exp_setNoExpiracy _⟩
  | some p =>
    obtain ⟨v, ttl⟩ := p
    cases onNode with
    | false =>
      refine ⟨_, rfl, ?_, ?_, ?_, ?_, by simp⟩
      all_goals rfl
    | true =>
      obtain ⟨node, ok, content, compression, childs, overflow, -⟩ := Node.setVal_ok
        ({ old with
          compression := old.compression.take common
          val := none
          expAndRadix := old.expAndRadix.setNoExpiracy
          childs := .default
          overflowIdx := none } : Node V) v (small v ttl rfl)
      exact ⟨node, ok, compression, childs, overflow, content, by simp⟩

/-- The node at `i` has no expiry. -/
def Permanent (st : OxidArt P V) (i : Nat) : Prop := ∃ m, st.tryGetNode i = some m ∧ m.expAndRadix.exp = none

theorem permanent_of_core {i : Nat} {n : Node V} (node : ∃ m, st.tryGetNode i = some m ∧ m.core = n.core)
    (none' : n.expAndRadix.exp = none) : Permanent st i := by
  obtain ⟨m, found, same⟩ := node
  exact ⟨m, found, by rw [(Node.core_eq same).2.2.2, none']⟩

/-- The leaf of a split hangs below the node at the split point. -/
theorem splitLeaf_ok (I : Inv st cut path) (K : Bytes → Prop) {request : Request V} (small : Request.Small request)
    {n : Node V} (found : st.tryGetNode x = some n) (live : path x = some q) {r : UInt8} (next : keyRest[common]? = some r)
    (unused : st.find x r = none) (bytes : ∀ b ∈ keyRest, KeyByte b) :
    ∃ i st' path', st.splitLeaf common keyRest x (request.map Prod.snd) (request.map Prod.fst) = .ok (i, st') ∧
      Step K st cut path st' path' ∧ path' i = some (q ++ r :: keyRest.drop (common + 1)) ∧
      st'.entry = Function.update st.entry (q ++ r :: keyRest.drop (common + 1)) (Request.content request) ∧
      (request = none → Permanent st' i) ∧ (∀ j l, st.graph.label j = some l → st'.graph.label j = some l) := by
  have byte : KeyByte r := bytes r (List.mem_of_getElem? next)
  have bytes' : ∀ b ∈ keyRest.drop (common + 1), KeyByte b := fun b member => bytes b (List.mem_of_mem_drop member)
  unfold splitLeaf
  cases request with
  | none =>
    have ins := inserted_insert st (.newEmptyLeaf (keyRest.drop (common + 1)) x r)
    obtain ⟨st', path', pushed, S, entries, key, node, kept⟩ :=
      Step.pushLeaf I K ins rfl rfl bytes' found live unused byte
    refine ⟨_, st', path', ?_, S, key, entries, fun _ => permanent_of_core node (ExpAndRadix.exp_noExpiracy r), kept⟩
    simp only [next, Option.map_none, pushed, bind, Except.bind]
    rfl
  | some p =>
    obtain ⟨v, ttl⟩ := p
    obtain ⟨i, st', path', made, S, entries, key, kept⟩ :=
      createNodeWithVal_ok (v := v) I K (small v ttl rfl) bytes' found live unused byte
    refine ⟨i, st', path', ?_, S, key, entries, by simp, kept⟩
    simp only [next, Option.map_some, Option.getD_some]
    exact made

/-- `split_node` writes the node, inserts one for the rest of the compression and pushes it; a leaf follows unless the key ends here. -/
theorem splitNode_eq (keyRest : Bytes) (request : Request V) (small : Request.Small request) (found : st.tryGetNode x = some old)
    (inside : common < old.compression.length) :
    ∃ node r y st₁,
      splitIntermediate old common (common == keyRest.length) (request.map Prod.snd) (request.map Prod.fst) = .ok node ∧
      old.compression[common]? = some r ∧
      old.compression = old.compression.take common ++ r :: old.compression.drop (common + 1) ∧
      Inserted (st.setNode x node) y { old with
        compression := old.compression.drop (common + 1)
        parentIdx := some x } st₁ ∧
      ∀ st₂, st₁.pushChildIdx x y r = .ok st₂ →
        st.splitNode common keyRest x (request.map Prod.snd) (request.map Prod.fst) =
          if (common == keyRest.length) = true then .ok (x, st₂)
          else st₂.splitLeaf common keyRest x (request.map Prod.snd) (request.map Prod.fst) := by
  obtain ⟨node, made, -⟩ := splitIntermediate_ok old common (common == keyRest.length) small
  have here : old.compression[common]? = some old.compression[common] := List.getElem?_eq_getElem inside
  obtain ⟨oldChild, eq⟩ : ∃ oldChild : Node V, oldChild = { old with
    compression := old.compression.drop (common + 1)
    parentIdx := some x } := ⟨_, rfl⟩
  obtain ⟨y, st₁, inserted, ins⟩ := inserted_either (st.setNode x node) oldChild old.expAndRadix.doesExpire
  refine ⟨node, old.compression[common], y, st₁, made, here, ?_, eq ▸ ins, fun st₂ pushed => ?_⟩
  · conv_lhs => rw [← List.take_append_drop common old.compression, List.drop_eq_getElem_cons inside]
  · unfold splitNode
    simp only [getNode_ok found, made, here, ← eq, inserted, pushed, bind, Except.bind]
    rfl

theorem splitNode_ok (request : Request V) (I : Inv st cut path) (K : Bytes → Prop) (small : Request.Small request)
    (found : st.tryGetNode x = some old) (inner : x ≠ st.rootIdx) (live : path x = some (q ++ old.compression))
    (parts : Node.PartsAt old.compression keyRest common) (bytes : ∀ b ∈ keyRest, KeyByte b) :
    ∃ i st' path', st.splitNode common keyRest x (request.map Prod.snd) (request.map Prod.fst) = .ok (i, st') ∧
      Step K st cut path st' path' ∧ path' i = some (q ++ keyRest) ∧
      st'.entry = Function.update st.entry (q ++ keyRest) (Request.content request) ∧
      (request = none → Permanent st' i) := by
  obtain ⟨node, r, y, st₁, made, here, whole, ins, run⟩ := splitNode_eq keyRest request small found parts.inside
  obtain ⟨_, made', compression, childs, overflow, content, permanent⟩ :=
    splitIntermediate_ok old common (common == keyRest.length) small
  obtain rfl := Except.ok.inj (made.symm.trans made')
  obtain ⟨st₂, pushed, I₂, graphs, atx, contents, stays⟩ := I.split found inner whole compression childs overflow ins rfl rfl rfl
  have run := run st₂ pushed
  have ne : x ≠ y := ins.ne (n := node) (by rw [tryGetNode_setNode, if_pos rfl, found]; rfl)
  have free : st.tryGetNode y = none := by
    have := ins.free
    rwa [tryGetNode_setNode, if_neg ne.symm] at this
  have front : (q ++ old.compression).take ((q ++ old.compression).length - ((old.compression.drop (common + 1)).length + 1)) =
      q ++ old.compression.take common := by
    have three : q ++ old.compression =
        (q ++ old.compression.take common) ++ r :: old.compression.drop (common + 1) := by
      rw [List.append_assoc, ← whole]
    rw [three, Forest.take_tail]
  rw [live, Option.map_some, front] at I₂
  obtain ⟨path₂, eqp⟩ : ∃ path₂ : Nat → Option Bytes, path₂ = Function.update (Function.update path x
    (some (q ++ old.compression.take common))) y (some (q ++ old.compression)) := ⟨_, rfl⟩
  rw [← eqp] at I₂
  have live₂ : path₂ x = some (q ++ old.compression.take common) := by
    rw [eqp, Function.update_of_ne ne, Function.update_self]
  have oldContent : Node.content { old with compression := old.compression.drop (common + 1), parentIdx := some x } = st.content x :=
    (content_eq found).symm
  have entries₂ : st₂.entry = Function.update st.entry (q ++ old.compression.take common) node.content :=
    entry_of_split I I₂ free ⟨old, found⟩ (by rw [eqp, live]) (by rw [← oldContent]; exact contents)
  -- Other nodes keep their paths; the path of `x` gets shorter together with its compression.
  have S₂ : Step K st cut path st₂ path₂ := by
    refine ⟨I₂, stays, ?_, ?_⟩
    rotate_left
    · have notY : st.rootIdx ≠ y := by
        rintro rfl
        obtain ⟨l, read⟩ := I.forest.rootLabel
        simp [graph, free] at read
      rw [graphs]
      simp [Graph.split, notY, Ne.symm inner]
    intro i p l l' _ livei read read'
    have notY : i ≠ y := by
      rintro rfl
      obtain ⟨m, occupied, -⟩ := graph_label_iff.1 read
      exact absurd (free.symm.trans occupied) (by simp)
    by_cases same : i = x
    · subst same
      obtain rfl := Option.some.inj (livei.symm.trans live)
      obtain rfl := Option.some.inj (read.symm.trans (graph_label found))
      have label : st₂.graph.label i = some (old.compression.take common) := by
        rw [graphs]
        simp [Graph.split, ne]
      obtain rfl := Option.some.inj (read'.symm.trans label)
      refine ⟨q, _, live₂, rfl, rfl, fun k _ below => ?_⟩
      exact ((List.prefix_append_right_inj q).2 (List.take_prefix _ _)).trans below
    · obtain ⟨way, rfl⟩ := I.way ‹_› livei read
      have label : st₂.graph.label i = some l := by
        rw [graphs]
        simp [Graph.split, notY, same, read]
      obtain rfl := Option.some.inj (read'.symm.trans label)
      refine ⟨way, way ++ l', ?_, rfl, rfl, fun k _ below => below⟩
      rw [eqp, Function.update_of_ne notY, Function.update_of_ne same, livei]
  by_cases ends : common = keyRest.length
  · -- The key ends at the split point.
    have onNode : (common == keyRest.length) = true := by simp [ends]
    have key : old.compression.take common = keyRest := by
      rw [parts.agree, ends, List.take_length]
    rw [key] at live₂ entries₂
    rw [onNode, if_pos rfl] at content
    exact ⟨x, st₂, path₂, run.trans (if_pos onNode), S₂, live₂, content ▸ entries₂,
      fun none' => permanent_of_core atx (permanent none')⟩
  · have below : (common == keyRest.length) = false := by simp [ends]
    have inside : common < keyRest.length := Nat.lt_of_le_of_ne parts.bound ends
    obtain ⟨r', next⟩ : ∃ r', keyRest[common]? = some r' := ⟨_, List.getElem?_eq_getElem inside⟩
    have other : r' ≠ r := by
      rintro rfl
      exact (parts.leave.resolve_left ends) (here.trans next.symm)
    obtain ⟨l, read⟩ := I₂.forest.pathOcc live₂
    obtain ⟨m, found₂, -⟩ := graph_label_iff.1 read
    have unused : st₂.find x r' = none := by
      change st₂.graph.kid x r' = none
      rw [graphs]
      simp [Graph.split, other]
    obtain ⟨i, st₃, path₃, leaf, S₃, key₃, entries₃, new, kept⟩ :=
      splitLeaf_ok I₂ K small found₂ live₂ next unused bytes
    have rest : old.compression.take common ++ r' :: keyRest.drop (common + 1) = keyRest := by
      obtain ⟨bound, rfl⟩ := List.getElem?_eq_some_iff.1 next
      rw [parts.agree, ← List.drop_eq_getElem_cons bound, List.take_append_drop]
    rw [List.append_assoc, rest] at key₃ entries₃
    have nothing : node.content = none := by
      rw [content, below]
      rfl
    -- The intermediate node stores nothing, and its key was not there before.
    have absent : st.entry (q ++ old.compression.take common) = none := by
      apply I.entry_eq_none
      intro j livej
      by_cases same : j = x
      · rw [same, live] at livej
        have := congrArg List.length (Option.some.inj livej)
        have := parts.inside
        simp only [List.length_append, List.length_take] at *
        omega
      · have noY : j ≠ y := by
          rintro rfl
          rw [(I.forest.fresh (by simp [graph, free])).1] at livej
          cases livej
        have live' : path₂ j = some (q ++ old.compression.take common) := by
          rw [eqp, Function.update_of_ne noY, Function.update_of_ne same, livej]
        exact same (I₂.forest.path_inj live' live₂)
    rw [nothing, ← absent, Function.update_eq_self] at entries₂
    rw [entries₂] at entries₃
    refine ⟨i, st₃, path₃, run.trans (by rw [below]; exact leaf), S₂.trans S₃ ?_, key₃, entries₃, new⟩
    intro j l l' readj _
    rw [graphs]
    by_cases same : j = x
    · exact ⟨old.compression.take common, by simp [Graph.split, same, ne]⟩
    · by_cases same' : j = y
      · exact ⟨old.compression.drop (common + 1), by simp [Graph.split, same']⟩
      · exact ⟨l, by simp [Graph.split, same, same', readj]⟩

end Split

end OxidArt

end Radixox.Oxidart
