import Radixox.Oxidart.Operations
import Radixox.Oxidart.Views

/-!
# Stores that differ in their slots only

Two stores are `Twins` when they hold the same tree in other slots at the same time. No operation of `set`, `get`, `del`
and `getn` tells them apart: the replies are equal, and the stores are twins again.
-/

namespace Radixox.Oxidart
set_option autoImplicit false
open Radixox.Assoc Radixox.Outcomes Radixox.Renaming Radixox.Runs

/-- The everyday operations: reads and writes of single keys, scans, and the clock. -/
def TreeOp.Everyday {P : Policy} {V : Type} (st : OxidArt P V) : TreeOp V → Prop
  | .set key _ => KeyOk key
  | .setTtl key ttl _ => KeyOk key ∧ saturatingAdd st.now ttl < 2 ^ 56
  | .get _ | .del _ | .getn _ | .setNow _ => True
  | _ => False

instance {P : Policy} {V : Type} (st : OxidArt P V) : (op : TreeOp V) → Decidable (op.Everyday st)
  | .set key _ => inferInstanceAs (Decidable (KeyOk key))
  | .setTtl key .. => inferInstanceAs (Decidable (KeyOk key ∧ _))
  | .get _ | .del _ | .getn _ | .setNow _ => inferInstanceAs (Decidable True)
  | .expire .. | .persist _ | .getTtl _ | .deln _ | .evict _ => inferInstanceAs (Decidable False)

namespace OxidArt

variable {P : Policy} {V : Type} {g : Nat → Nat} {st st' st₀ st₀' : OxidArt P V} {i : Nat} {r : UInt8} {n : Node V} {key : Bytes}

/-! ## Calls as steps -/

section Calls

variable {v : V} {ttl : Nat} {pfx : Bytes} {reply : Option V} {l : List (Bytes × V)}

theorem execTree_set (ran : st.set key v = .ok st') : st.execTree (.set key v) = .ok (.done, st') := by
  simp only [execTree, ran, bind, Except.bind]
  rfl

theorem execTree_setTtl (ran : st.setTtl key ttl v = .ok st') : st.execTree (.setTtl key ttl v) = .ok (.done, st') := by
  simp only [execTree, ran, bind, Except.bind]
  rfl

theorem execTree_get (ran : st.get key = .ok (reply, st')) : st.execTree (.get key) = .ok (.value reply, st') := by
  simp only [execTree, ran, bind, Except.bind]
  rfl

theorem execTree_getn (ran : st.getn pfx = .ok l) : st.execTree (.getn pfx) = .ok (.pairs l, st) := by
  simp only [execTree, ran, bind, Except.bind]
  rfl

theorem execTree_del (ran : st.del key = .ok (reply, st')) : st.execTree (.del key) = .ok (.value reply, st') := by
  simp only [execTree, ran, bind, Except.bind]
  rfl

end Calls

/-! ## Reading -/

def Walk.rename (g : Nat → Nat) : Walk → Walk
  | .found idx parentIdx radix keyPath => .found (g idx) (g parentIdx) radix keyPath
  | .partialAt idx parentIdx radix commonLen keyRest keyPath => .partialAt (g idx) (g parentIdx) radix commonLen keyRest keyPath
  | .noChild idx keyRest => .noChild (g idx) keyRest
  | .gone idx => .gone (g idx)

theorem compareCompressionKey_congr {n' : Node V} (same : n'.compression = n.compression) (rest : Bytes) :
    n'.compareCompressionKey rest = n.compareCompressionKey rest := by
  rw [Node.compareCompressionKey, Node.compareCompressionKey, Node.getCommonLen, Node.getCommonLen, same]

theorem mapM_congr {α β : Type} {f f' : α → Exec β} {l : List α} (all : ∀ x ∈ l, f x = f' x) : l.mapM f = l.mapM f' := by
  induction l with
  | nil => rfl
  | cons x l ih =>
    rw [List.mapM_cons, List.mapM_cons, all x List.mem_cons_self, ih fun y member => all y (List.mem_cons_of_mem _ member)]

section Node

variable {n₀ : Node V} (now : st₀.now = st.now) (same : st₀.viewOf n₀ = (View.cells V).rename g (st.viewOf n))

include now same

theorem isExpired_renames : n₀.isExpired st₀.now = n.isExpired st.now := by
  have exp : n₀.expAndRadix.exp = n.expAndRadix.exp := congrArg View.exp same
  rw [Node.isExpired_eq, Node.isExpired_eq, exp, now]

/-- What readers see of two nodes with the same view. -/
theorem getValue_renames : n₀.getValue st₀.now = n.getValue st.now := by
  have val : n₀.val = n.val := congrArg View.val same
  rw [Node.getValue, Node.getValue, isExpired_renames now same, val]

end Node

/-- More fuel does not change what a scan returns. -/
theorem collectAll_more (st : OxidArt P V) (fuel : Nat) : ∀ (i : Nat) (pre : Bytes),
    Outcomes.Refines (st.collectAll fuel i pre) (st.collectAll (fuel + 1) i pre) := by
  induction fuel with
  | zero => exact fun _ _ => .error _
  | succ fuel ih =>
    intro i pre
    rw [collectAll, collectAll]
    cases st.tryGetNode i with
    | none => exact .ok []
    | some n => exact (Outcomes.Refines.mapM (fun p : UInt8 × Nat => ih p.2 _) _).bind fun below => .ok _

theorem collectAll_le (st : OxidArt P V) {fuel fuel' : Nat} (le : fuel ≤ fuel') (i : Nat) (pre : Bytes) :
    Outcomes.Refines (st.collectAll fuel i pre) (st.collectAll fuel' i pre) := by
  induction le with
  | refl => exact fun _ same => same
  | step _ ih => exact fun l ran => st.collectAll_more _ i pre l (ih l ran)

/-- `getn` with the fuel as an argument. -/
def scan (st : OxidArt P V) (fuel : Nat) (pfx : Bytes) : Exec (List (Bytes × V)) :=
  if pfx.isEmpty then st.collectAll fuel st.rootIdx []
  else match st.findPrefixNode pfx with
    | none => .ok []
    | some (idx, keyPath) => st.collectAllFrom fuel idx keyPath

theorem getn_eq_scan (st : OxidArt P V) (pfx : Bytes) : st.getn pfx = st.scan (st.map.len + 1) pfx := rfl

theorem scan_le (st : OxidArt P V) {fuel fuel' : Nat} (le : fuel ≤ fuel') (pfx : Bytes) :
    Outcomes.Refines (st.scan fuel pfx) (st.scan fuel' pfx) := by
  unfold scan
  refine .ite (fun _ => st.collectAll_le le _ _) fun _ => ?_
  cases st.findPrefixNode pfx with
  | none => exact .ok []
  | some target =>
    obtain ⟨i, keyPath⟩ := target
    simp only [collectAllFrom]
    cases st.tryGetNode i with
    | none => exact .ok []
    | some n => exact (Outcomes.Refines.mapM (fun p : UInt8 × Nat => st.collectAll_le le p.2 _) _).bind fun below => .ok _

section Reading

variable (R : Renames (View.cells V) g st.view st₀.view)

include R

theorem node_renames (found : st.tryGetNode i = some n) :
    ∃ n₀, st₀.tryGetNode (g i) = some n₀ ∧ st₀.viewOf n₀ = (View.cells V).rename g (st.viewOf n) := by
  obtain ⟨n₀, found₀, same⟩ := node_of_view (R.cell (view_eq found))
  exact ⟨n₀, found₀, same.symm⟩

theorem iterAllChildren_renames (found : st.tryGetNode i = some n) : st₀.iterAllChildren (g i) = mapValues g (st.iterAllChildren i) := by
  obtain ⟨n₀, found₀, same⟩ := node_renames R found
  rw [iterAllChildren_view found₀, iterAllChildren_view found, same]
  exact Shelf.links_rename g _

theorem find_renames (found : st.tryGetNode i = some n) (r : UInt8) : st₀.find (g i) r = (st.find i r).map g := by
  rw [find_eq_lookup, find_eq_lookup, iterAllChildren_renames R found, lookup_mapValues]

variable {cut : List Nat} {path : Nat → Option Bytes} (I : Inv st cut path)

include I

theorem walkFrom_renames (fuel : Nat) : ∀ (i : Nat) (n : Node V) (rest path : Bytes), st.tryGetNode i = some n →
    st₀.walkFrom fuel (g i) rest path = (st.walkFrom fuel i rest path).rename g := by
  induction fuel with
  | zero => exact fun _ _ _ _ _ => rfl
  | succ fuel ih =>
    intro i n rest path found
    cases rest with
    | nil => rfl
    | cons radix rest =>
      simp only [walkFrom, find_renames R found]
      cases edge : st.find i radix with
      | none => rfl
      | some j =>
        obtain ⟨l, label⟩ := I.forest.kidOcc edge
        obtain ⟨m, occupied, -⟩ := graph_label_iff.1 label
        obtain ⟨m₀, occupied₀, same⟩ := node_renames R occupied
        have compression : m₀.compression = m.compression := congrArg View.compression same
        simp only [Option.map_some, occupied, occupied₀, compareCompressionKey_congr compression]
        cases m.compareCompressionKey rest with
        | final => rfl
        | partialAt common => rfl
        | path =>
          simp only [compression]
          exact ih j m _ _ occupied

/-! ### Scans -/

variable (now : st₀.now = st.now)

include now

theorem collectNode_renames {collect collect₀ : Nat → Bytes → Exec (List (Bytes × V))} (found : st.tryGetNode i = some n)
    {n₀ : Node V} (same : st₀.viewOf n₀ = (View.cells V).rename g (st.viewOf n))
    (agree : ∀ j m pre, st.tryGetNode j = some m → collect₀ (g j) pre = collect j pre) (keyPath : Bytes) :
    st₀.collectNode collect₀ (g i) n₀ keyPath = st.collectNode collect i n keyPath := by
  have below : (st₀.iterAllChildren (g i)).mapM (fun p => collect₀ p.2 (keyPath ++ [p.1])) =
      (st.iterAllChildren i).mapM fun p => collect p.2 (keyPath ++ [p.1]) := by
    rw [iterAllChildren_renames R found, mapValues, List.mapM_map]
    refine mapM_congr fun p member => ?_
    obtain ⟨l, label⟩ := I.forest.kidOcc (I.kids.find_iff.2 member)
    obtain ⟨m, occupied, -⟩ := graph_label_iff.1 label
    exact agree p.2 m _ occupied
  rw [collectNode, collectNode, below, getValue_renames now same]

theorem collectAll_renames (fuel : Nat) : ∀ (i : Nat) (n : Node V) (pre : Bytes), st.tryGetNode i = some n →
    st₀.collectAll fuel (g i) pre = st.collectAll fuel i pre := by
  induction fuel with
  | zero => exact fun _ _ _ _ => rfl
  | succ fuel ih =>
    intro i n pre found
    obtain ⟨n₀, found₀, same⟩ := node_renames R found
    have compression : n₀.compression = n.compression := congrArg View.compression same
    simp only [collectAll, found, found₀, compression]
    exact collectNode_renames R I now found same ih _

end Reading

/-! ## Twins -/

theorem view_writeVal {i ttl : Nat} {v : V} (small : ttl < 2 ^ 56) (ran : (do
    let node ← st.getNode i
    let node ← node.setVal v ttl
    return st.setNode i node) = Except.ok st') : st.view i ≠ none ∧ st'.view = modify st.view i (View.put (some v) (expOf ttl)) := by
  obtain ⟨n, node, ran⟩ := exists_of_bind ran
  obtain ⟨n', written, ran⟩ := exists_of_bind ran
  obtain rfl := Except.ok.inj ran
  have found := tryGetNode_of_getNode node
  exact ⟨view_ne_none found, view_write found (viewOf_setVal small written)⟩

/-- The same tree in other slots, at the same time. -/
structure Twins (g : Nat → Nat) (st st₀ : OxidArt P V) : Prop where
  sound : IsSound st
  sound₀ : IsSound st₀
  cells : Renames (View.cells V) g st.view st₀.view
  root : g st.rootIdx = st₀.rootIdx
  now : st₀.now = st.now

namespace Twins

variable (T : Twins g st st₀)

include T

theorem walk (key : Bytes) : st₀.walk key = (st.walk key).rename g := by
  obtain ⟨path, I⟩ := T.sound
  obtain ⟨root, found⟩ := I.root_node
  rw [OxidArt.walk, ← T.root]
  exact walkFrom_renames T.cells I _ _ root _ _ found

theorem findPrefixNode (pfx : Bytes) : st₀.findPrefixNode pfx = (st.findPrefixNode pfx).map fun p => (g p.1, p.2) := by
  obtain ⟨path, I⟩ := T.sound
  simp only [OxidArt.findPrefixNode, ← T.root, T.walk]
  split
  · rfl
  next nonempty =>
    cases outcome : st.walk pfx with
    | noChild => rfl
    | gone => rfl
    | found i p r keyPath =>
      obtain ⟨-, n, -, -, found, -⟩ := I.walk_found (by simpa using nonempty) outcome
      obtain ⟨n₀, found₀, same⟩ := node_renames T.cells found
      have compression : n₀.compression = n.compression := congrArg View.compression same
      simp [Walk.rename, found, found₀, compression]
    | partialAt i p r common rest keyPath =>
      obtain ⟨-, n, -, -, found, -⟩ := I.walk_partialAt (by simpa using nonempty) outcome
      obtain ⟨n₀, found₀, same⟩ := node_renames T.cells found
      have compression : n₀.compression = n.compression := congrArg View.compression same
      simp only [Walk.rename, found, found₀, compression, bind, Option.bind]
      split <;> rfl

theorem scan (fuel : Nat) (pfx : Bytes) : st₀.scan fuel pfx = st.scan fuel pfx := by
  obtain ⟨path, I⟩ := T.sound
  obtain ⟨root, found⟩ := I.root_node
  simp only [OxidArt.scan, T.findPrefixNode, ← T.root, collectAll_renames T.cells I T.now fuel _ root [] found]
  split
  · rfl
  next nonempty =>
    rcases I.findPrefixNode_ok pfx with ⟨i, n, p, target, at', -⟩ | ⟨target, -⟩
    · obtain ⟨n₀, at₀, same⟩ := node_renames T.cells at'
      simp only [target, Option.map_some, collectAllFrom, at', at₀]
      exact collectNode_renames T.cells I T.now at' same (collectAll_renames T.cells I T.now fuel) p
    · simp only [target, Option.map_none]

/-- `getn` lists the same. -/
theorem getn (pfx : Bytes) : ∃ l, st.getn pfx = .ok l ∧ st₀.getn pfx = .ok l := by
  obtain ⟨path, I⟩ := T.sound
  obtain ⟨path₀, I₀⟩ := T.sound₀
  obtain ⟨root, found⟩ := I.root_node
  obtain ⟨root₀, found₀⟩ := I₀.root_node
  obtain ⟨l, ran, -⟩ := getn_ok I pfx found
  obtain ⟨l₀, ran₀, -⟩ := getn_ok I₀ pfx found₀
  refine ⟨l, ran, ?_⟩
  -- With the larger of the two fuels both return what they return with their own.
  have more := st.scan_le (le_max_left _ (st₀.map.len + 1)) pfx l ran
  have more₀ := st₀.scan_le (le_max_right (st.map.len + 1) _) pfx l₀ ran₀
  rw [T.scan, more] at more₀
  rw [ran₀, Except.ok.inj more₀]

/-- A link that is new on one side is new on the other. -/
theorem unused {i : Nat} {n : Node V} {r : UInt8} (found : st.tryGetNode i = some n) (absent : st.find i r = none) :
    st₀.find (g i) r = none := by
  rw [find_renames T.cells found, absent, Option.map_none]

/-! ### Writing -/

/-- The write of a value at the node of its key. -/
theorem writeVal {i ttl : Nat} {v : V} (small : ttl < 2 ^ 56) (ran : (do
    let node ← st.getNode i
    let node ← node.setVal v ttl
    return st.setNode i node) = Except.ok st') (ran₀ : (do
    let node ← st₀.getNode (g i)
    let node ← node.setVal v ttl
    return st₀.setNode (g i) node) = Except.ok st₀') : Renames (View.cells V) g st'.view st₀'.view := by
  obtain ⟨used, view⟩ := view_writeVal small ran
  obtain ⟨-, view₀⟩ := view_writeVal small ran₀
  rw [view, view₀]
  exact T.cells.modify used fun _ _ => rfl

/-- Both sides go on. -/
theorem next {g' : Nat → Nat} (keeps : Keeps st [] st') (keeps₀ : Keeps st₀ [] st₀') (R : Renames (View.cells V) g' st'.view st₀'.view)
    (root : g' st.rootIdx = st₀.rootIdx) : Twins g' st' st₀' :=
  ⟨keeps.isSound, keeps₀.isSound, R, by rw [keeps.1.rootIdx, keeps₀.1.rootIdx, root], by rw [keeps.1.now, keeps₀.1.now, T.now]⟩

theorem root_used : st.view st.rootIdx ≠ none := by
  obtain ⟨path, I⟩ := T.sound
  obtain ⟨root, found⟩ := I.root_node
  exact view_ne_none found

theorem renames_setInternal (bytes : KeyOk key) {ttl : Nat} (small : ttl < 2 ^ 56) {v : V} (ran : st.setInternal key ttl v = .ok st')
    (ran₀ : st₀.setInternal key ttl v = .ok st₀') :
    ∃ g', Renames (View.cells V) g' st'.view st₀'.view ∧ g' st.rootIdx = st₀.rootIdx := by
  obtain ⟨path, I⟩ := T.sound
  obtain ⟨path₀, I₀⟩ := T.sound₀
  by_cases empty : key = []
  · subst empty
    simp only [setInternal, List.isEmpty_nil, if_true, ← T.root] at ran ran₀
    exact ⟨g, T.writeVal small ran ran₀, T.root⟩
  have notEmpty : key.isEmpty = false := by simpa using empty
  simp only [setInternal, notEmpty, Bool.false_eq_true, if_false, T.walk] at ran ran₀
  cases outcome : st.walk key with
  | gone i => exact absurd outcome (walk_ne_gone I.forest empty i)
  | found i p r keyPath =>
    rw [outcome] at ran ran₀
    exact ⟨g, T.writeVal small ran ran₀, T.root⟩
  | noChild i rest =>
    obtain ⟨q, r, rest, n, rfl, -, found, rfl, absent⟩ := I.walk_noChild empty outcome
    have byte : KeyByte r := bytes r (by simp)
    obtain ⟨n₀, found₀, -⟩ := node_renames T.cells found
    rw [outcome] at ran ran₀
    obtain ⟨⟨j, st₁⟩, made, same⟩ := exists_of_bind ran
    obtain rfl := Except.ok.inj same
    obtain ⟨⟨j₀, st₁₀⟩, made₀, same⟩ := exists_of_bind ran₀
    obtain rfl := Except.ok.inj same
    obtain ⟨free, view⟩ := view_createNodeWithVal I.kids found absent byte small made
    obtain ⟨free₀, view₀⟩ := view_createNodeWithVal I₀.kids found₀ (T.unused found absent) byte small made₀
    refine ⟨Function.update g j j₀, ?_, (update_of_used T.root_used free).trans T.root⟩
    rw [view, view₀]
    exact Heap.renames_hang T.cells I.closed (view_ne_none found) free free₀
  | partialAt i p r common rest keyPath =>
    have outcome₀ : st₀.walk key = .partialAt (g i) (g p) r common rest keyPath := by
      rw [T.walk, outcome]
      rfl
    obtain ⟨-, n₀, -, edge₀, found₀, -, parts₀, -, -⟩ := I₀.walk_partialAt empty outcome₀
    obtain ⟨q, n, -, edge, found, rfl, parts, -, -⟩ := I.walk_partialAt empty outcome
    have bytes' : ∀ b ∈ rest, KeyByte b := fun b member => bytes b (by simp [member])
    have compression : n₀.compression = n.compression := by
      obtain ⟨m₀, found', same⟩ := node_renames T.cells found
      obtain rfl := Option.some.inj (found₀.symm.trans found')
      exact congrArg View.compression same
    rw [outcome] at ran ran₀
    obtain ⟨⟨j, st₁⟩, made, same⟩ := exists_of_bind ran
    obtain rfl := Except.ok.inj same
    obtain ⟨⟨j₀, st₁₀⟩, made₀, same⟩ := exists_of_bind ran₀
    obtain rfl := Except.ok.inj same
    obtain ⟨s, y, next, free, view⟩ := view_splitNode I small found (I.kid_ne_root edge) parts bytes' made
    obtain ⟨s₀, y₀, next₀, free₀, view₀⟩ := view_splitNode I₀ small found₀ (I₀.kid_ne_root edge₀) parts₀ bytes' made₀
    obtain rfl : s₀ = s := by
      rw [compression] at next₀
      exact Option.some.inj (next₀.symm.trans next)
    have used := view_ne_none found
    have root : Function.update g y y₀ st.rootIdx = st₀.rootIdx := (update_of_used T.root_used free).trans T.root
    split at view
    next ends =>
      rw [if_pos ends] at view₀
      refine ⟨Function.update g y y₀, ?_, root⟩
      rw [view, view₀]
      exact Heap.renames_splitAt T.cells I.closed used free free₀
    next ends =>
      rw [if_neg ends] at view₀
      obtain ⟨t, z, below, free', view⟩ := view
      obtain ⟨t₀, z₀, below₀, free₀', view₀⟩ := view₀
      obtain rfl := Option.some.inj (below.symm.trans below₀)
      have halves : Renames (View.cells V) (Function.update g y y₀) (Heap.splitAt st.view i common s₀ y none none)
          (Heap.splitAt st₀.view (g i) common s₀ y₀ none none) := Heap.renames_splitAt T.cells I.closed used free free₀
      have closed : Closed (View.cells V) (Heap.splitAt st.view i common s₀ y none none) := Heap.closed_splitAt I.closed used free
      refine ⟨Function.update (Function.update g y y₀) z z₀, ?_, (update_of_used (Heap.splitAt_ne_none T.root_used) free').trans root⟩
      have same : g i = Function.update g y y₀ i := (update_of_used used free).symm
      rw [view, view₀]
      nth_rewrite 2 [same]
      exact Heap.renames_hang halves closed (Heap.splitAt_ne_none used) free' free₀'

/-- `set` and `set_ttl` do the same. -/
theorem setInternal (bytes : KeyOk key) {ttl : Nat} (small : ttl < 2 ^ 56) (v : V) :
    ∃ g' st' st₀', st.setInternal key ttl v = .ok st' ∧ st₀.setInternal key ttl v = .ok st₀' ∧ Twins g' st' st₀' := by
  obtain ⟨path, I⟩ := T.sound
  obtain ⟨path₀, I₀⟩ := T.sound₀
  obtain ⟨st', path', ran, S, -⟩ := setInternal_ok I (fun _ => True) bytes small v
  obtain ⟨st₀', path₀', ran₀, S₀, -⟩ := setInternal_ok I₀ (fun _ => True) bytes small v
  obtain ⟨g', R, root⟩ := T.renames_setInternal bytes small ran ran₀
  exact ⟨g', st', st₀', ran, ran₀, T.next S.keeps S₀.keeps R root⟩

/-! ### Removing -/

theorem hasChildren {n₀ : Node V} (found : st.tryGetNode i = some n) (found₀ : st₀.tryGetNode (g i) = some n₀) :
    n₀.hasChildren = n.hasChildren := by
  obtain ⟨path, I⟩ := T.sound
  obtain ⟨path₀, I₀⟩ := T.sound₀
  obtain ⟨m, found', same⟩ := node_renames T.cells found
  obtain rfl := Option.some.inj (found₀.symm.trans found')
  have links : (st₀.viewOf n₀).shelf.links = mapValues g (st.viewOf n).shelf.links := by
    rw [same]
    exact Shelf.links_rename g _
  rw [hasChildren_viewOf (TierInv.slotOk I₀.kids (tier_eq found₀)), hasChildren_viewOf (TierInv.slotOk I.kids (tier_eq found)), links,
    mapValues, List.isEmpty_map]

theorem clear {n₀ : Node V} (found : st.tryGetNode i = some n) (found₀ : st₀.tryGetNode (g i) = some n₀)
    (ran : (st.setNode i n.clearVal).tryRecompress i = .ok st') (ran₀ : (st₀.setNode (g i) n₀.clearVal).tryRecompress (g i) = .ok st₀') :
    Renames (View.cells V) g st'.view st₀'.view := by
  obtain ⟨path, I⟩ := T.sound
  obtain ⟨path₀, I₀⟩ := T.sound₀
  have I₁ : Inv (st.setNode i n.clearVal) [] path := I.setNode found rfl rfl rfl rfl
  have view₁ := view_write found (viewOf_clearVal st n)
  have used := view_ne_none found
  rw [view_clearNode I found ran, view_clearNode I₀ found₀ ran₀]
  refine Heap.renames_recompress (T.cells.modify used fun _ _ => rfl) (modify_ne_none used _) ?_
  rw [← view₁]
  exact fun b r j read single => I₁.single_live read single

/-- A leaf goes, and its parent is recompressed unless it is the root. -/
theorem removeLeaf {p y : Nat} {r : UInt8} {child child₀ : Node V} (edge : st.find p r = some y) (found : st.tryGetNode y = some child)
    (found₀ : st₀.tryGetNode (g y) = some child₀) (leaf : child.hasChildren = false)
    (ran : (if p ≠ ((st.removeNode y).removeChild p r).rootIdx then ((st.removeNode y).removeChild p r).tryRecompress p
      else .ok ((st.removeNode y).removeChild p r)) = .ok st')
    (ran₀ : (if g p ≠ ((st₀.removeNode (g y)).removeChild (g p) r).rootIdx then
        ((st₀.removeNode (g y)).removeChild (g p) r).tryRecompress (g p)
      else .ok ((st₀.removeNode (g y)).removeChild (g p) r)) = .ok st₀') : Renames (View.cells V) g st'.view st₀'.view := by
  obtain ⟨path, I⟩ := T.sound
  obtain ⟨path₀, I₀⟩ := T.sound₀
  obtain ⟨l, label⟩ := I.forest.kidDom edge
  obtain ⟨n, foundp, -⟩ := graph_label_iff.1 label
  obtain ⟨n₀, foundp₀, -⟩ := node_renames T.cells foundp
  have edge₀ : st₀.find (g p) r = some (g y) := by rw [find_renames T.cells foundp, edge, Option.map_some]
  obtain ⟨I₁, -, -, stays⟩ := I.dropLeaf edge found leaf
  obtain ⟨I₁₀, -, -, stays₀⟩ := I₀.dropLeaf edge₀ found₀ ((T.hasChildren found found₀).trans leaf)
  have view₁ := view_removeLeaf I.kids y p r
  have view₁₀ := view_removeLeaf I₀.kids (g y) (g p) r
  have other : p ≠ y := by
    obtain ⟨rank, lower⟩ := I.forest.acyclic
    rintro rfl
    exact Nat.lt_irrefl _ (lower edge)
  have used : Function.update st.view y none p ≠ none := by
    rw [Function.update_of_ne other]
    exact view_ne_none foundp
  have R₁ : Renames (View.cells V) g ((st.removeNode y).removeChild p r).view ((st₀.removeNode (g y)).removeChild (g p) r).view := by
    rw [view₁, view₁₀]
    refine (T.cells.free (view_ne_none found)).modify used fun b _ => ?_
    simp only [View.cells, View.remove, Shelf.remove_rename]
  by_cases top : p = st.rootIdx
  · rw [if_neg (by rw [stays.rootIdx]; exact fun h => h top)] at ran
    rw [if_neg (by rw [stays₀.rootIdx, ← T.root, top]; exact fun h => h rfl)] at ran₀
    rw [← Except.ok.inj ran, ← Except.ok.inj ran₀]
    exact R₁
  · have top₀ : g p ≠ st₀.rootIdx := fun same => top (T.cells.inj (view_ne_none foundp) T.root_used (same.trans T.root.symm))
    rw [if_pos (by rw [stays.rootIdx]; exact top)] at ran
    rw [if_pos (by rw [stays₀.rootIdx]; exact top₀)] at ran₀
    rw [view_tryRecompress I₁.kids ran, view_tryRecompress I₁₀.kids ran₀]
    refine Heap.renames_recompress R₁ ?_ fun b s j read single => I₁.single_live read single
    rw [view₁]
    exact modify_ne_none used _

theorem deleteNodeInline {p y : Nat} {r : UInt8} {child : Node V} (edge : st.find p r = some y) (found : st.tryGetNode y = some child)
    (ran : st.deleteNodeInline y p r = .ok st') (ran₀ : st₀.deleteNodeInline (g y) (g p) r = .ok st₀') :
    Renames (View.cells V) g st'.view st₀'.view := by
  obtain ⟨child₀, found₀, -⟩ := node_renames T.cells found
  unfold OxidArt.deleteNodeInline at ran ran₀
  simp only [getNode_ok found, getNode_ok found₀, bind, Except.bind, T.hasChildren found found₀] at ran ran₀
  cases kids : child.hasChildren with
  | true =>
    rw [kids] at ran ran₀
    exact T.clear found found₀ ran ran₀
  | false =>
    rw [kids] at ran ran₀
    exact T.removeLeaf edge found found₀ kids ran ran₀

/-- `get_idx` ends at the same node, or at none. -/
theorem getIdx (key : Bytes) : ∃ at' st' st₀', st.getIdx key = .ok (at', st') ∧ st₀.getIdx key = .ok (at'.map g, st₀') ∧
    Twins g st' st₀' := by
  obtain ⟨path, I⟩ := T.sound
  obtain ⟨path₀, I₀⟩ := T.sound₀
  obtain ⟨at', st', ran, keeps, -⟩ := getIdx_keeps I key
  obtain ⟨at₀, st₀', ran₀, keeps₀, -⟩ := getIdx_keeps I₀ key
  have follows : at₀ = at'.map g ∧ Renames (View.cells V) g st'.view st₀'.view := by
    by_cases empty : key = []
    · subst empty
      obtain ⟨root, found⟩ := I.root_node
      obtain ⟨root₀, found₀, same⟩ := node_renames T.cells found
      simp only [OxidArt.getIdx, List.isEmpty_nil, if_true, ← T.root, getNode_ok found, getNode_ok found₀, bind, Except.bind,
        isExpired_renames T.now same] at ran ran₀
      cases past : root.isExpired st.now with
      | true =>
        rw [past] at ran ran₀
        obtain ⟨st₁, run, same⟩ := exists_of_bind ran
        obtain ⟨st₁₀, run₀, same₀⟩ := exists_of_bind ran₀
        obtain ⟨rfl, rfl⟩ := Prod.mk.inj (Except.ok.inj same)
        obtain ⟨rfl, rfl⟩ := Prod.mk.inj (Except.ok.inj same₀)
        exact ⟨rfl, T.clear found found₀ run run₀⟩
      | false =>
        rw [past] at ran ran₀
        obtain ⟨rfl, rfl⟩ := Prod.mk.inj (Except.ok.inj ran)
        obtain ⟨rfl, rfl⟩ := Prod.mk.inj (Except.ok.inj ran₀)
        exact ⟨rfl, T.cells⟩
    · have notEmpty : key.isEmpty = false := by simpa using empty
      simp only [OxidArt.getIdx, notEmpty, Bool.false_eq_true, if_false, T.walk] at ran ran₀
      cases outcome : st.walk key with
      | found i p r keyPath =>
        obtain ⟨-, n, -, edge, found, -⟩ := I.walk_found empty outcome
        obtain ⟨n₀, found₀, same⟩ := node_renames T.cells found
        simp only [outcome, Walk.rename, getNode_ok found, getNode_ok found₀, bind, Except.bind, isExpired_renames T.now same] at ran ran₀
        cases past : n.isExpired st.now with
        | true =>
          rw [past] at ran ran₀
          obtain ⟨st₁, run, same⟩ := exists_of_bind ran
          obtain ⟨st₁₀, run₀, same₀⟩ := exists_of_bind ran₀
          obtain ⟨rfl, rfl⟩ := Prod.mk.inj (Except.ok.inj same)
          obtain ⟨rfl, rfl⟩ := Prod.mk.inj (Except.ok.inj same₀)
          exact ⟨rfl, T.deleteNodeInline edge found run run₀⟩
        | false =>
          rw [past] at ran ran₀
          obtain ⟨rfl, rfl⟩ := Prod.mk.inj (Except.ok.inj ran)
          obtain ⟨rfl, rfl⟩ := Prod.mk.inj (Except.ok.inj ran₀)
          exact ⟨rfl, T.cells⟩
      | _ =>
        simp only [outcome, Walk.rename] at ran ran₀
        obtain ⟨rfl, rfl⟩ := Prod.mk.inj (Except.ok.inj ran)
        obtain ⟨rfl, rfl⟩ := Prod.mk.inj (Except.ok.inj ran₀)
        exact ⟨rfl, T.cells⟩
  obtain ⟨rfl, R⟩ := follows
  exact ⟨at', st', st₀', ran, ran₀, T.next keeps keeps₀ R T.root⟩

/-- `get` returns the same. -/
theorem get (key : Bytes) : ∃ v st' st₀', st.get key = .ok (v, st') ∧ st₀.get key = .ok (v, st₀') ∧ Twins g st' st₀' := by
  obtain ⟨path, I⟩ := T.sound
  obtain ⟨at', st', st₀', ran, ran₀, T'⟩ := T.getIdx key
  obtain ⟨v, st'', whole, -⟩ := get_keeps I key
  simp only [OxidArt.get, ran, ran₀, bind, Except.bind] at whole ⊢
  cases at' with
  | none => exact ⟨none, st', st₀', rfl, rfl, T'⟩
  | some i =>
    obtain ⟨n, node, -⟩ := exists_of_bind whole
    have found := tryGetNode_of_getNode node
    obtain ⟨n₀, found₀, same⟩ := node_renames T'.cells found
    simp only [Option.map_some, getNode_ok found, getNode_ok found₀, getValue_renames T'.now same]
    exact ⟨_, st', st₀', rfl, rfl, T'⟩

/-- `del` returns the same. -/
theorem del (key : Bytes) : ∃ v st' st₀', st.del key = .ok (v, st') ∧ st₀.del key = .ok (v, st₀') ∧ Twins g st' st₀' := by
  obtain ⟨path, I⟩ := T.sound
  obtain ⟨path₀, I₀⟩ := T.sound₀
  obtain ⟨v, st', ran, keeps⟩ := del_keeps I key
  obtain ⟨v₀, st₀', ran₀, keeps₀⟩ := del_keeps I₀ key
  have follows : v₀ = v ∧ Renames (View.cells V) g st'.view st₀'.view := by
    by_cases empty : key = []
    · subst empty
      obtain ⟨root, found⟩ := I.root_node
      obtain ⟨root₀, found₀, same⟩ := node_renames T.cells found
      have val : root₀.val = root.val := congrArg View.val same
      simp only [OxidArt.del, List.isEmpty_nil, if_true, ← T.root, getNode_ok found, getNode_ok found₀, bind, Except.bind, val] at ran ran₀
      obtain ⟨st₁, run, same⟩ := exists_of_bind ran
      obtain ⟨st₁₀, run₀, same₀⟩ := exists_of_bind ran₀
      obtain ⟨rfl, rfl⟩ := Prod.mk.inj (Except.ok.inj same)
      obtain ⟨rfl, rfl⟩ := Prod.mk.inj (Except.ok.inj same₀)
      exact ⟨rfl, T.clear found found₀ run run₀⟩
    · have notEmpty : key.isEmpty = false := by simpa using empty
      simp only [OxidArt.del, notEmpty, Bool.false_eq_true, if_false, T.walk] at ran ran₀
      cases outcome : st.walk key with
      | found i p r keyPath =>
        obtain ⟨-, n, -, edge, found, -⟩ := I.walk_found empty outcome
        obtain ⟨n₀, found₀, same⟩ := node_renames T.cells found
        have val : n₀.val = n.val := congrArg View.val same
        simp only [outcome, Walk.rename, getNode_ok found, getNode_ok found₀, bind, Except.bind, T.hasChildren found found₀, val] at ran ran₀
        cases kids : n.hasChildren with
        | true =>
          rw [kids] at ran ran₀
          cases held : n.val with
          | none =>
            rw [held] at ran ran₀
            obtain ⟨rfl, rfl⟩ := Prod.mk.inj (Except.ok.inj ran)
            obtain ⟨rfl, rfl⟩ := Prod.mk.inj (Except.ok.inj ran₀)
            exact ⟨rfl, T.cells⟩
          | some w =>
            rw [held] at ran ran₀
            obtain ⟨st₁, run, same⟩ := exists_of_bind ran
            obtain ⟨st₁₀, run₀, same₀⟩ := exists_of_bind ran₀
            obtain ⟨rfl, rfl⟩ := Prod.mk.inj (Except.ok.inj same)
            obtain ⟨rfl, rfl⟩ := Prod.mk.inj (Except.ok.inj same₀)
            exact ⟨rfl, T.clear found found₀ run run₀⟩
        | false =>
          rw [kids, if_neg Bool.false_ne_true] at ran ran₀
          obtain ⟨st₁, run, same⟩ := exists_of_optional ran
          obtain ⟨st₁₀, run₀, same₀⟩ := exists_of_optional ran₀
          obtain ⟨rfl, rfl⟩ := Prod.mk.inj (Except.ok.inj same)
          obtain ⟨rfl, rfl⟩ := Prod.mk.inj (Except.ok.inj same₀)
          exact ⟨rfl, T.removeLeaf edge found found₀ kids run run₀⟩
      | _ =>
        simp only [outcome, Walk.rename] at ran ran₀
        obtain ⟨rfl, rfl⟩ := Prod.mk.inj (Except.ok.inj ran)
        obtain ⟨rfl, rfl⟩ := Prod.mk.inj (Except.ok.inj ran₀)
        exact ⟨rfl, T.cells⟩
  obtain ⟨rfl, R⟩ := follows
  exact ⟨v₀, st', st₀', ran, ran₀, T.next keeps keeps₀ R T.root⟩

theorem setNow (now : Nat) : Twins g (st.setNow now) (st₀.setNow now) := by
  obtain ⟨path, I⟩ := T.sound
  obtain ⟨path₀, I₀⟩ := T.sound₀
  exact ⟨⟨path, I.setNow now⟩, ⟨path₀, I₀.setNow now⟩, T.cells, T.root, rfl⟩

/-! ### Steps and runs -/

theorem step {op : TreeOp V} (ok : op.Everyday st₀) : ∃ g' reply st' st₀', st.execTree op = .ok (reply, st') ∧
    st₀.execTree op = .ok (reply, st₀') ∧ Twins g' st' st₀' := by
  cases op with
  | set key v =>
    obtain ⟨g', st', st₀', ran, ran₀, T'⟩ := T.setInternal ok (by decide : ExpAndRadix.noExp < 2 ^ 56) v
    exact ⟨g', .done, st', st₀', execTree_set ran, execTree_set ran₀, T'⟩
  | setTtl key ttl v =>
    obtain ⟨g', st', st₀', ran, ran₀, T'⟩ := T.setInternal ok.1 ok.2 v
    rw [T.now] at ran
    exact ⟨g', .done, st', st₀', execTree_setTtl ran, execTree_setTtl ran₀, T'⟩
  | get key =>
    obtain ⟨v, st', st₀', ran, ran₀, T'⟩ := T.get key
    exact ⟨g, .value v, st', st₀', execTree_get ran, execTree_get ran₀, T'⟩
  | getn pfx =>
    obtain ⟨l, ran, ran₀⟩ := T.getn pfx
    exact ⟨g, .pairs l, st, st₀, execTree_getn ran, execTree_getn ran₀, T⟩
  | del key =>
    obtain ⟨v, st', st₀', ran, ran₀, T'⟩ := T.del key
    exact ⟨g, .value v, st', st₀', execTree_del ran, execTree_del ran₀, T'⟩
  | setNow now => exact ⟨g, .done, _, _, rfl, rfl, T.setNow now⟩
  | expire | persist | getTtl | deln | evict => exact ok.elim

end Twins

/-- Twins give the same replies in every run. -/
theorem Twins.run {ops : List (TreeOp V)} : ∀ {g : Nat → Nat} {st st₀ : OxidArt P V}, Twins g st st₀ →
    Meets execTree (fun s op => op.Everyday s) ops st₀ →
    ∃ replies st' st₀', Runs.run execTree ops st = .ok (replies, st') ∧ Runs.run execTree ops st₀ = .ok (replies, st₀') := by
  induction ops with
  | nil => exact fun {_ st st₀} _ _ => ⟨[], st, st₀, rfl, rfl⟩
  | cons op ops ih =>
    intro g st st₀ T meets
    obtain ⟨g', reply, st', st₀', ran, ran₀, T'⟩ := T.step meets.1
    obtain ⟨replies, st'', st₀'', later, later₀⟩ := ih T' (meets.next ran₀)
    exact ⟨reply :: replies, st'', st₀'', run_cons ran later, run_cons ran₀ later₀⟩

end OxidArt

end Radixox.Oxidart
