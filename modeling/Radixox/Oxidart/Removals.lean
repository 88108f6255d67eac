import Radixox.Oxidart.Writes

/-!
# The removing operations

Recompression, lazy deletion in `get`, `del`, `deln` and one eviction turn. Each removes
its own key or keys from the table; the merges that follow are invisible there,
except at the root: the root has no link above it that could carry the absorbed
bytes, so absorbing its only child cuts them off every key (`clearRoot_ok`).
-/

namespace Radixox.Oxidart
set_option autoImplicit false
open Radixox.PathForest

namespace OxidArt

variable {P : Policy} {V : Type} {st st₁ st' : OxidArt P V} {cut : List Nat} {path path₁ path' : Nat → Option Bytes} {key : Bytes}

/-- The keys with a value, expired or not. -/
def Present (st : OxidArt P V) (k : Bytes) : Prop := ∃ c, st.entry k = some c

/-- No node is new. -/
def Shrinks (st st' : OxidArt P V) : Prop := ∀ i, st.graph.label i = none → st'.graph.label i = none

theorem Shrinks.trans (first : Shrinks st st₁) (second : Shrinks st₁ st') : Shrinks st st' :=
  fun i free => second i (first i free)

/-- Steps without new nodes compose. -/
theorem Step.then {K : Bytes → Prop} (first : Step K st cut path st₁ path₁) (second : Step K st₁ cut path₁ st' path')
    (shrinks : Shrinks st₁ st') : Step K st cut path st' path' := by
  refine first.trans second ?_
  intro i l l' _ read'
  cases read : st₁.graph.label i with
  | some l₁ => exact ⟨l₁, rfl⟩
  | none => exact absurd ((shrinks i read).symm.trans read') (by simp)

/-! ## Recompression -/

section Recompress

variable {x : Nat}

theorem tryRecompress_notSingle {n : Node V} (found : st.tryGetNode x = some n) (single : n.getSingleChild = none) :
    st.tryRecompress x = .ok st := by
  simp only [tryRecompress, found, single]
  split <;> rfl

theorem tryRecompress_ok (I : Inv st cut path) (inner : x ≠ st.rootIdx) :
    ∃ st' path', st.tryRecompress x = .ok st' ∧ Step (Present st) st cut path st' path' ∧ st'.entry = st.entry ∧
      Shrinks st st' := by
  have idle : ∃ path', Step (Present st) st cut path st path' ∧ st.entry = st.entry ∧ Shrinks st st :=
    ⟨path, .refl I _, rfl, fun _ free => free⟩
  cases found : st.tryGetNode x with
  | none => exact ⟨st, _, by simp only [tryRecompress, found], idle.choose_spec⟩
  | some n =>
    cases val : n.val with
    | some v => exact ⟨st, _, by simp [tryRecompress, found, val], idle.choose_spec⟩
    | none =>
      cases single : n.getSingleChild with
      | none => exact ⟨st, _, tryRecompress_notSingle found single, idle.choose_spec⟩
      | some link =>
        obtain ⟨r, y⟩ := link
        obtain ⟨st', child, run, occupied, edge, only, I', graphs, contents, stays⟩ := I.recompress found inner val single
        obtain ⟨rank, lower⟩ := I.forest.acyclic
        have ne : x ≠ y := by
          rintro rfl
          exact Nat.lt_irrefl _ (lower edge)
        have empty : st.content x = none := by rw [content_eq found, Node.content, val]; rfl
        refine ⟨st', _, run, ⟨I', stays, ?_, ?_⟩, entry_of_merge I I' ne rfl empty contents, ?_⟩
        · intro i p l l' inner' live read read'
          obtain ⟨way, rfl⟩ := I.way inner' live read
          by_cases here : i = x
          · subst here
            obtain rfl := Option.some.inj (read.symm.trans (graph_label found))
            have label : st'.graph.label i = some (n.compression ++ r :: child.compression) := by
              rw [graphs]
              simp [Graph.merge]
            obtain rfl := Option.some.inj (read'.symm.trans label)
            have below : path y = some ((way ++ n.compression) ++ r :: child.compression) := by
              rw [I.forest.kidPath edge (graph_label occupied), live]
              rfl
            refine ⟨way, _, by rw [Function.update_self, below], rfl, by simp, ?_⟩
            -- A present key at or below `x` is below its only child.
            rintro k ⟨c, held⟩ ⟨t, rfl⟩
            obtain ⟨j, livej, heldj⟩ := I.entry_iff.1 held
            have reach := I.forest.reach_below live livej
            cases t with
            | nil =>
              rw [reach.nil_inv, empty] at heldj
              cases heldj
            | cons s t =>
              obtain ⟨z, m, t', edge', read', rfl, -⟩ := reach.cons_inv
              obtain rfl : s = r := by
                by_contra differ
                simp [only s differ] at edge'
              obtain rfl := Option.some.inj (edge.symm.trans edge')
              obtain rfl := Option.some.inj (read'.symm.trans (graph_label occupied))
              exact ⟨t', by simp⟩
          · have there : i ≠ y := by
              rintro rfl
              rw [graphs] at read'
              simp [Graph.merge, here] at read'
            have label : st'.graph.label i = some l := by
              rw [graphs]
              simp [Graph.merge, here, there, read]
            obtain rfl := Option.some.inj (read'.symm.trans label)
            refine ⟨way, _, ?_, rfl, rfl, fun k _ below => below⟩
            rw [Function.update_of_ne here, Function.update_of_ne there, live]
        · rw [graphs]
          simp [Graph.merge, Ne.symm inner, (I.kid_ne_root edge).symm]
        · intro i free
          rw [graphs]
          have notx : i ≠ x := by
            rintro rfl
            simp [graph_label found] at free
          by_cases there : i = y
          · simp [Graph.merge, there, ne.symm]
          · simp [Graph.merge, notx, there, free]

/-- Clearing the value of an inner node and recompressing it. -/
theorem clearNode_ok (I : Inv st cut path) {n : Node V} (found : st.tryGetNode x = some n) (inner : x ≠ st.rootIdx)
    (T : SameTree (st.setNode x n.clearVal) st₁) :
    ∃ st' path', st₁.tryRecompress x = .ok st' ∧ Step (Present st') st cut path st' path' ∧
      (st'.entry = fun q => if path x = some q then none else st.entry q) ∧ Shrinks st st' := by
  have S₁ : Step (Present st₁) st cut path st₁ path :=
    (Step.setNode (m := n.clearVal) I _ found rfl rfl rfl rfl).same T
  have entries₁ : st₁.entry = fun q => if path x = some q then none else st.entry q := by
    rw [T.entry (I.setNode found rfl rfl rfl rfl)]
    funext q
    cases live : path x with
    | none =>
      rw [if_neg (by simp)]
      have same : (st.setNode x n.clearVal).entry = st.entry :=
        entry_of_detached I (I.setNode found rfl rfl rfl rfl) rfl (by
          intro j k livej
          rw [content_setNode found, if_neg]
          rintro rfl
          rw [live] at livej
          cases livej)
      rw [same]
    | some k =>
      rw [entry_setNode (m := n.clearVal) I found live rfl rfl rfl rfl, Function.update_apply]
      by_cases same : q = k
      · simp [same, Node.content, Node.clearVal]
      · rw [if_neg same, if_neg (fun h => same (Option.some.inj h).symm)]
  obtain ⟨st', path', run, S₂, entries₂, shrinks⟩ := tryRecompress_ok S₁.inv (x := x) (S₁.stays.rootIdx ▸ inner)
  have present : Present st' = Present st₁ := by
    unfold Present
    rw [entries₂]
  refine ⟨st', path', run, ?_, entries₂.trans entries₁, ?_⟩
  · rw [present]
    exact S₁.then S₂ shrinks
  · have labels : st₁.graph.label = st.graph.label := by
      rw [T.graph]
      exact label_setNode found rfl
    intro i free
    exact shrinks i (by rw [labels]; exact free)

end Recompress

/-! ## Removing a leaf -/

/-- A leaf leaves the slab, its parent loses the link and is recompressed unless it is the root. -/
theorem removeLeaf_ok (I : Inv st cut path) {p y : Nat} {r : UInt8} {child : Node V} (edge : st.find p r = some y)
    (found : st.tryGetNode y = some child) (leaf : child.hasChildren = false) :
    ∃ st' path', (if p ≠ ((st.removeNode y).removeChild p r).rootIdx then ((st.removeNode y).removeChild p r).tryRecompress p
        else .ok ((st.removeNode y).removeChild p r)) = .ok st' ∧
      Step (Present st') st cut path st' path' ∧
      (st'.entry = fun q => if path y = some q then none else st.entry q) ∧ Shrinks st st' := by
  obtain ⟨I₁, graphs, contents, stays⟩ := I.dropLeaf edge found leaf
  obtain ⟨st₁, eq⟩ : ∃ st₁, st₁ = (st.removeNode y).removeChild p r := ⟨_, rfl⟩
  rw [← eq] at I₁ graphs contents stays ⊢
  have entries₁ := entry_of_drop I I₁ rfl contents
  have shrinks₁ : Shrinks st st₁ := by
    intro i free
    rw [graphs]
    simp only [Graph.dropLeaf, Function.update_apply]
    split
    · rfl
    · exact free
  have S₁ : ∀ K, Step K st cut path st₁ (Function.update path y none) := by
    intro K
    have top : st₁.graph.label st.rootIdx = st.graph.label st.rootIdx := by
      rw [graphs]
      exact Function.update_of_ne (I.kid_ne_root edge).symm _ _
    refine ⟨I₁, stays, moves_same I K ?_, top⟩
    intro i q l l' live read read'
    have other : i ≠ y := by
      rintro rfl
      rw [graphs] at read'
      simp [Graph.dropLeaf] at read'
    rw [graphs] at read'
    simp only [Graph.dropLeaf, Function.update_of_ne other] at read'
    rw [Function.update_of_ne other]
    exact ⟨live, Option.some.inj (read'.symm.trans read)⟩
  by_cases top : p = st₁.rootIdx
  · rw [if_neg (fun h => h top)]
    exact ⟨st₁, _, rfl, S₁ _, entries₁, shrinks₁⟩
  · rw [if_pos top]
    obtain ⟨st', path', run, S₂, entries₂, shrinks₂⟩ := tryRecompress_ok I₁ top
    have present : Present st' = Present st₁ := by
      unfold Present
      rw [entries₂]
    refine ⟨st', path', run, ?_, entries₂.trans entries₁, shrinks₁.trans shrinks₂⟩
    rw [present]
    exact (S₁ _).then S₂ shrinks₂

/-! ## The empty key -/

/-- Clearing the root. With a single child the root absorbs it, and the bytes up to it vanish from every key. -/
theorem clearRoot_ok (I : Inv st cut path) {n : Node V} (found : st.tryGetNode st.rootIdx = some n) :
    ∃ st' path', (st.setNode st.rootIdx n.clearVal).tryRecompress st.rootIdx = .ok st' ∧ Inv st' cut path' ∧
      Stays st st' ∧
      (n.getSingleChild = none → path' = path ∧ st' = st.setNode st.rootIdx n.clearVal ∧
        st'.entry = Function.update st.entry [] none) ∧
      (∀ r y, n.getSingleChild = some (r, y) → ∃ p, p ≠ [] ∧ path y = some p ∧
        (∀ i k, path i = some k → i ≠ st.rootIdx → p <+: k) ∧ st'.entry = fun k => st.entry (p ++ k)) := by
  have I₁ : Inv (st.setNode st.rootIdx n.clearVal) cut path := I.setNode found rfl rfl rfl rfl
  have found₁ : (st.setNode st.rootIdx n.clearVal).tryGetNode st.rootIdx = some n.clearVal := by
    rw [tryGetNode_setNode, if_pos rfl, found]
    rfl
  have entries₁ : (st.setNode st.rootIdx n.clearVal).entry = Function.update st.entry [] none :=
    entry_setNode (m := n.clearVal) I found I.forest.rootPath rfl rfl rfl rfl
  have links : n.clearVal.getSingleChild = n.getSingleChild := rfl
  cases single : n.getSingleChild with
  | none =>
    exact ⟨_, path, tryRecompress_notSingle found₁ (links.trans single), I₁, ⟨rfl, rfl⟩, fun _ => ⟨rfl, rfl, entries₁⟩,
      nofun⟩
  | some link =>
    obtain ⟨r, y⟩ := link
    obtain ⟨st', child, run, occupied, edge, only, I', contents, stays⟩ :=
      I₁.rebaseRoot found₁ rfl (by rw [links, single])
    have pathy : path y = some (r :: child.compression) := by
      rw [I₁.forest.kidPath edge (graph_label occupied)]
      change Option.map _ (path st.rootIdx) = _
      rw [I.forest.rootPath]
      rfl
    have below : ∀ i k, path i = some k → i ≠ st.rootIdx → r :: child.compression <+: k := by
      intro i k live inner
      obtain ⟨k', rfl, -⟩ := I₁.forest.prefix_of_only edge only (graph_label occupied) live inner
      exact List.prefix_append _ _
    have entries := entry_of_rebase I₁ I' pathy below rfl contents (List.cons_ne_nil _ _)
    refine ⟨st', _, run, I', ⟨stays.now, stays.rootIdx⟩, nofun, ?_⟩
    rintro _ _ ⟨⟩
    refine ⟨_, List.cons_ne_nil _ _, pathy, below, ?_⟩
    rw [entries, entries₁]
    funext k
    exact Function.update_of_ne (by simp) _ _

/-! ## Lookup with lazy deletion -/

/-- The entry as a reader sees it at the time `now`. -/
def liveAt (now : Nat) (e : Option (V × Option Nat)) : Option (V × Option Nat) := e.filter fun c => !expired now c.2

/-- What a reader sees under a key. -/
def live (st : OxidArt P V) (k : Bytes) : Option (V × Option Nat) := liveAt st.now (st.entry k)

/-- Only dead entries go. -/
def Sheds (st st' : OxidArt P V) : Prop :=
  ∀ k, st'.entry k = st.entry k ∨ st'.entry k = none ∧ st.live k = none

theorem Sheds.live (sheds : Sheds st st') (now : st'.now = st.now) : st'.live = st.live := by
  funext k
  rw [OxidArt.live, OxidArt.live, now]
  rcases sheds k with same | ⟨gone, dead⟩
  · rw [same]
  · rw [gone]
    exact dead.symm

theorem Sheds.refl (st : OxidArt P V) : Sheds st st := fun _ => .inl rfl

/-- Erasing a key that is not live. -/
theorem sheds_of_erase {i : Nat} (dead : ∀ k, path i = some k → st.live k = none)
    (entries : st'.entry = fun q => if path i = some q then none else st.entry q) : Sheds st st' := by
  intro k
  rw [entries]
  by_cases here : path i = some k
  · exact .inr ⟨if_pos here, dead k here⟩
  · exact .inl (if_neg here)

/-- A node whose expiry is past holds nothing for a reader. -/
theorem Inv.live_of_expired (I : Inv st cut path) {i : Nat} {n : Node V} (found : st.tryGetNode i = some n)
    (past : n.isExpired st.now = true) {k : Bytes} (at' : path i = some k) : st.live k = none := by
  rw [live, I.entry_of_path at', content_eq found, Node.content]
  rw [Node.isExpired_eq] at past
  cases n.val with
  | none => rfl
  | some v => simp [liveAt, past]

theorem Inv.live_of_current (I : Inv st cut path) {i : Nat} {n : Node V} (found : st.tryGetNode i = some n)
    (current : n.isExpired st.now = false) {k : Bytes} (at' : path i = some k) :
    st.live k = n.content ∧ n.getValue st.now = n.val := by
  constructor
  · rw [live, I.entry_of_path at', content_eq found, Node.content]
    rw [Node.isExpired_eq] at current
    cases n.val with
    | none => rfl
    | some v => simp [liveAt, current]
  · simp [Node.getValue, current]

theorem deleteNodeInline_ok (I : Inv st cut path) {p y : Nat} {r : UInt8} {child : Node V} (edge : st.find p r = some y)
    (found : st.tryGetNode y = some child) :
    ∃ st' path', st.deleteNodeInline y p r = .ok st' ∧ Step (Present st') st cut path st' path' ∧
      (st'.entry = fun q => if path y = some q then none else st.entry q) ∧ Shrinks st st' := by
  unfold deleteNodeInline
  simp only [getNode_ok found, bind, Except.bind]
  cases kids : child.hasChildren with
  | true => exact clearNode_ok I found (I.kid_ne_root edge) (.refl _)
  | false => exact removeLeaf_ok I edge found kids

/-- `get_idx` of a non-empty key: the node of a current entry, after removing an expired one. -/
theorem getIdx_ok (I : Inv st cut path) (nonempty : key ≠ []) :
    ∃ i st' path', st.getIdx key = .ok (i, st') ∧ Step (Present st') st cut path st' path' ∧ Sheds st st' ∧
      Shrinks st st' ∧
      (i = none ∧ st.live key = none ∨
        ∃ j n, i = some j ∧ st' = st ∧ path j = some key ∧ st.tryGetNode j = some n ∧ n.isExpired st.now = false) := by
  have notEmpty : key.isEmpty = false := by simpa using nonempty
  have miss : st.traverseToKey key = none → st.live key = none := by
    intro none'
    rw [live, entry_of_traverse_none none']
    rfl
  simp only [traverseToKey, notEmpty, Bool.false_eq_true, if_false] at miss
  simp only [getIdx, notEmpty, Bool.false_eq_true, if_false]
  cases outcome : st.walk key with
  | found idx parent radix keyPath =>
    obtain ⟨q, n, -, edge, found, -, at', -⟩ := I.walk_found nonempty outcome
    simp only [getNode_ok found, bind, Except.bind]
    cases past : n.isExpired st.now with
    | true =>
      obtain ⟨st', path', run, S, entries, shrinks⟩ := deleteNodeInline_ok I edge found
      have dead : ∀ k, path idx = some k → st.live k = none := fun k here => I.live_of_expired found past here
      exact ⟨none, st', path', by simp only [if_true, run]; rfl, S, sheds_of_erase dead entries, shrinks,
        .inl ⟨rfl, dead key at'⟩⟩
    | false =>
      exact ⟨some idx, st, path, rfl, .refl I _, .refl st, fun _ free => free, .inr ⟨idx, n, rfl, rfl, at', found, past⟩⟩
  | _ =>
    rw [outcome] at miss
    exact ⟨none, st, path, rfl, .refl I _, .refl st, fun _ free => free, .inl ⟨rfl, miss rfl⟩⟩

/-- `get` of a non-empty key returns the live value and removes at most dead entries. -/
theorem get_ok (I : Inv st cut path) (nonempty : key ≠ []) :
    ∃ st' path', st.get key = .ok ((st.live key).map Prod.fst, st') ∧ Step (Present st') st cut path st' path' ∧
      Sheds st st' ∧ Shrinks st st' := by
  obtain ⟨i, st', path', run, S, sheds, shrinks, outcome⟩ := getIdx_ok I nonempty
  refine ⟨st', path', ?_, S, sheds, shrinks⟩
  simp only [get, run, bind, Except.bind]
  rcases outcome with ⟨rfl, dead⟩ | ⟨j, n, rfl, rfl, at', found, current⟩
  · rw [dead]
    rfl
  · obtain ⟨held, value⟩ := I.live_of_current found current at'
    simp only [getNode_ok found, value, held, Node.content, Option.map_map]
    cases n.val <;> rfl

/-! ## `del` -/

theorem del_ok (I : Inv st cut path) (nonempty : key ≠ []) :
    ∃ st' path', st.del key = .ok ((st.entry key).map Prod.fst, st') ∧ Step (Present st') st cut path st' path' ∧
      st'.entry = Function.update st.entry key none ∧ Shrinks st st' := by
  have notEmpty : key.isEmpty = false := by simpa using nonempty
  have same : st.entry key = none → st.entry = Function.update st.entry key none := by
    intro none'
    conv_rhs => rw [← none', Function.update_eq_self]
  have miss : st.traverseToKey key = none → st.entry key = none := entry_of_traverse_none
  simp only [traverseToKey, notEmpty, Bool.false_eq_true, if_false] at miss
  simp only [del, notEmpty, Bool.false_eq_true, if_false]
  cases outcome : st.walk key with
  | found idx parent radix keyPath =>
    obtain ⟨q, n, -, edge, found, -, at', -⟩ := I.walk_found nonempty outcome
    have held : st.entry key = n.content := (I.entry_of_path at').trans (content_eq found)
    have reply : (st.entry key).map Prod.fst = n.val := by
      rw [held, Node.content, Option.map_map]
      cases n.val <;> rfl
    have erase : ∀ {st' : OxidArt P V}, (st'.entry = fun q => if path idx = some q then none else st.entry q) →
        st'.entry = Function.update st.entry key none := by
      intro st' entries
      rw [entries, at']
      funext q
      rw [Function.update_apply]
      by_cases here : q = key
      · simp [here]
      · rw [if_neg here, if_neg (fun h => here (Option.some.inj h).symm)]
    simp only [getNode_ok found, bind, Except.bind, reply]
    cases kids : n.hasChildren with
    | true =>
      simp only [if_true]
      cases val : n.val with
      | none =>
        have none' : st.entry key = none := by rw [held, Node.content, val]; rfl
        exact ⟨st, path, rfl, .refl I _, same none', fun _ free => free⟩
      | some v =>
        obtain ⟨st', path', run, S, entries, shrinks⟩ := clearNode_ok I found (I.kid_ne_root edge) (.refl _)
        exact ⟨st', path', by simp only [run]; rfl, S, erase entries, shrinks⟩
    | false =>
      obtain ⟨st', path', run, S, entries, shrinks⟩ := removeLeaf_ok I edge found kids
      refine ⟨st', path', ?_, S, erase entries, shrinks⟩
      simp only [Bool.false_eq_true, if_false]
      split at run
      next inner => simp only [if_pos inner, run]; rfl
      next top =>
        simp only [if_neg top]
        rw [Except.ok.inj run]
        rfl
  | _ =>
    rw [outcome] at miss
    exact ⟨st, path, by rw [miss rfl]; rfl, .refl I _, same (miss rfl), fun _ free => free⟩

end OxidArt

end Radixox.Oxidart
