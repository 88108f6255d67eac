import Mathlib.Data.Finset.Card
import Mathlib.Data.Finset.Dedup
import Mathlib.Data.Finset.Image
import Radixox.Oxidart.Removals

/-!
# Deleting whole subtrees

The freeing loop takes the detached trees apart from the top of its stack: what is on
the stack is exactly what is detached, before and after every turn. `deln`
cuts the subtree that covers its prefix off and runs the loop to the end.
-/

namespace Radixox.Oxidart
set_option autoImplicit false
open Radixox.PathForest

namespace OxidArt

variable {P : Policy} {V : Type} {st st' : OxidArt P V} {cut base stack : List Nat} {path : Nat → Option Bytes}

theorem length_linksOf_le (arena : OverflowArena) (huge : HugeOvf P) (t : Tier) :
    (linksOf arena huge t).length ≤ MAX_LINKS := by
  have inline := t.1.bound
  simp only [linksOf, List.length_append, MAX_LINKS]
  cases found : t.2.bind arena.get with
  | none =>
    simp only [Option.map_none, Option.getD_none, List.length_nil]
    omega
  | some o =>
    have light := o.bound
    simp only [Option.map_some, Option.getD_some, Overflow.iter, List.length_append]
    cases o.bigOverflowIdx.bind huge.get with
    | none =>
      simp only [Option.map_none, Option.getD_none, List.length_nil]
      omega
    | some e =>
      have bound := e.bound
      simp only [Option.map_some, Option.getD_some]
      omega

theorem length_collectChildIndices_le (st : OxidArt P V) (i : Nat) : (st.collectChildIndices i).length ≤ MAX_LINKS := by
  rw [collectChildIndices, List.length_map, iterAllChildren_eq]
  cases st.tier i with
  | none => exact Nat.zero_le _
  | some t => exact length_linksOf_le _ _ _

/-- What the freeing of detached nodes leaves alone. -/
structure Frees (st : OxidArt P V) (path : Nat → Option Bytes) (st' : OxidArt P V) : Prop where
  stays : Stays st st'
  nodes : ∀ j k, path j = some k → st'.tryGetNode j = st.tryGetNode j
  labels : ∀ i l, st'.graph.label i = some l → st.graph.label i = some l
  links : ∀ i r j, st'.find i r = some j → st.find i r = some j
  tiers : ∀ t, linksOf st'.overflowArena st'.hugeOvf t ⊆ linksOf st.overflowArena st.hugeOvf t

theorem Frees.refl (st : OxidArt P V) (path : Nat → Option Bytes) : Frees st path st :=
  ⟨.refl st, fun _ _ _ => rfl, fun _ _ read => read, fun _ _ _ edge => edge, fun _ => List.Subset.refl _⟩

theorem Frees.trans {st₁ : OxidArt P V} (first : Frees st path st₁) (second : Frees st₁ path st') : Frees st path st' :=
  ⟨first.stays.trans second.stays, fun j k live => (second.nodes j k live).trans (first.nodes j k live),
    fun i l read => first.labels i l (second.labels i l read),
    fun i r j edge => first.links i r j (second.links i r j edge), fun t => List.Subset.trans (second.tiers t) (first.tiers t)⟩

theorem Frees.contents (F : Frees st path st') {j : Nat} {k : Bytes} (live : path j = some k) :
    st'.content j = st.content j := by
  rw [content, content, F.nodes j k live]

/-! ## Counting values -/

/-- With nothing detached, every node is in the tree. -/
theorem Inv.path_of_label (I : Inv st [] path) {i : Nat} {l : Bytes} (read : st.graph.label i = some l) :
    ∃ k, path i = some k := by
  obtain ⟨rank, lower⟩ := I.forest.acyclic
  generalize hn : rank i = n
  induction n using Nat.strongRecOn generalizing i l with
  | ind n ih =>
    by_cases top : i = st.rootIdx
    · exact ⟨[], top ▸ I.forest.rootPath⟩
    · rcases I.forest.parent read top with member | ⟨j, r, edge⟩
      · cases member
      · obtain ⟨m, readj⟩ := I.forest.kidDom edge
        have up := lower edge
        obtain ⟨k, live⟩ := ih (rank j) (by omega) readj rfl
        exact ⟨k ++ r :: l, by rw [I.forest.kidPath edge read, live]; rfl⟩

/-- The nodes that hold a value. -/
def valued (st : OxidArt P V) : Finset Nat := st.map.cells.keys.toFinset.filter fun i => (st.content i).isSome

theorem mem_valued {i : Nat} : i ∈ st.valued ↔ (st.content i).isSome = true := by
  rw [valued, Finset.mem_filter, List.mem_toFinset, and_iff_right_iff_imp]
  intro held
  by_contra free
  rw [content_eq_none_of_free (TaggedHiSlab.get_eq_none_iff.2 free)] at held
  cases held

/-- With nothing detached, the nodes with a value are as many as the keys with an entry. -/
theorem Inv.card_valued (I : Inv st [] path) {keys : Finset Bytes} (entries : ∀ k, k ∈ keys ↔ (st.entry k).isSome = true) :
    st.valued.card = keys.card := by
  have located : ∀ i, (st.content i).isSome = true → ∃ k, path i = some k := by
    intro i held
    cases found : st.tryGetNode i with
    | none => rw [content_eq_none_of_free found] at held; cases held
    | some n => exact I.path_of_label (graph_label found)
  refine Finset.card_bij (fun i _ => (path i).getD []) ?_ ?_ ?_
  · intro i member
    obtain ⟨k, live⟩ := located i (mem_valued.1 member)
    rw [live, Option.getD_some, entries, I.entry_of_path live]
    exact mem_valued.1 member
  · intro i member j member' same
    obtain ⟨k, live⟩ := located i (mem_valued.1 member)
    obtain ⟨k', live'⟩ := located j (mem_valued.1 member')
    rw [live, live', Option.getD_some, Option.getD_some] at same
    subst same
    have := (traverseToKey_iff I.forest).2 live
    rw [(traverseToKey_iff I.forest).2 live'] at this
    exact (Option.some.inj this).symm
  · intro k member
    obtain ⟨c, held⟩ := Option.isSome_iff_exists.1 ((entries k).1 member)
    obtain ⟨i, live, content⟩ := I.entry_iff.1 held
    exact ⟨i, mem_valued.2 (by rw [content]; rfl), by rw [live]; rfl⟩

theorem Inv.exists_keys (I : Inv st [] path) : ∃ keys : Finset Bytes, ∀ k, k ∈ keys ↔ (st.entry k).isSome = true := by
  refine ⟨st.valued.image fun i => (path i).getD [], fun k => ?_⟩
  rw [Finset.mem_image]
  constructor
  · rintro ⟨i, member, rfl⟩
    have held := mem_valued.1 member
    cases found : st.tryGetNode i with
    | none => rw [content_eq_none_of_free found] at held; cases held
    | some n =>
      obtain ⟨k, live⟩ := I.path_of_label (graph_label found)
      rw [live, Option.getD_some, I.entry_of_path live]
      exact held
  · intro held
    obtain ⟨c, held⟩ := Option.isSome_iff_exists.1 held
    obtain ⟨i, live, content⟩ := I.entry_iff.1 held
    exact ⟨i, mem_valued.2 (by rw [content]; rfl), by rw [live]; rfl⟩

/-- A deletion that accounts for every value counts the keys with its prefix. -/
theorem count_of_entries {st' : OxidArt P V} {path' : Nat → Option Bytes} (I : Inv st [] path) (I' : Inv st' [] path')
    {pfx : Bytes} (entries : st'.entry = fun k => if pfx <+: k then none else st.entry k) {count : Nat}
    (values : count + st'.valued.card = st.valued.card) :
    ∃ keys : Finset Bytes, (∀ k, k ∈ keys ↔ pfx <+: k ∧ (st.entry k).isSome = true) ∧ count = keys.card := by
  obtain ⟨keys, mem⟩ := I.exists_keys
  refine ⟨keys.filter (pfx <+: ·), fun k => by rw [Finset.mem_filter, mem, and_comm], ?_⟩
  have rest : ∀ k, k ∈ keys.filter (fun k => ¬ pfx <+: k) ↔ (st'.entry k).isSome = true := by
    intro k
    rw [Finset.mem_filter, mem, entries]
    by_cases inside : pfx <+: k <;> simp [inside]
  rw [I.card_valued mem, I'.card_valued rest, ← Finset.card_filter_add_card_filter_not (s := keys) (pfx <+: ·)] at values
  exact Nat.add_right_cancel (values.trans (by congr))

/-! ## The freeing loop -/

/-- A freed slot holds nothing, the others what they held. -/
theorem get_free_of_some {a : OverflowArena} {huge : HugeOvf P} {i j : Nat} {o : Overflow} (held : (a.free huge i).1.get j = some o) :
    a.get j = some o := by
  rw [OverflowArena.get_eq_some] at held ⊢
  by_cases same : i = j
  · subst same
    simp only [OverflowArena.free, List.getElem?_set_self'] at held
    cases read : a.slots[i]? with
    | none => rw [read] at held; cases held
    | some slot => rw [read] at held; cases held
  · simpa only [OverflowArena.free, List.getElem?_set_ne same] using held

theorem get_dropHuge_of_some {huge : HugeOvf P} {o : Overflow} {j : Nat} {e : HugeOverflow} (held : (o.dropHuge huge).get j = some e) :
    huge.get j = some e := by
  unfold Overflow.dropHuge at held
  split at held
  · exact held
  · rw [TaggedHiSlab.get_remove] at held
    split at held
    · cases held
    · exact held

/-- Freeing a slot adds no link anywhere. -/
theorem linksOf_free (a : OverflowArena) (huge : HugeOvf P) (i : Nat) (t : Tier) :
    linksOf (a.free huge i).1 (a.free huge i).2 t ⊆ linksOf a huge t := by
  have entries : ∀ {j e}, (a.free huge i).2.get j = some e → huge.get j = some e := by
    intro j e held
    simp only [OverflowArena.free] at held
    split at held
    · exact get_dropHuge_of_some held
    · exact held
  unfold linksOf
  refine List.append_subset.2 ⟨List.subset_append_left _ _, ?_⟩
  cases read : t.2.bind (a.free huge i).1.get with
  | none => exact List.nil_subset _
  | some o =>
    obtain ⟨slot, owned, held⟩ := Option.bind_eq_some_iff.1 read
    rw [owned, Option.bind_some, get_free_of_some held]
    refine List.Subset.trans ?_ (List.subset_append_right _ _)
    simp only [Option.map_some, Option.getD_some, Overflow.iter]
    refine List.append_subset.2 ⟨List.subset_append_left _ _, ?_⟩
    cases big : o.bigOverflowIdx.bind (a.free huge i).2.get with
    | none => exact List.nil_subset _
    | some e =>
      obtain ⟨j, named, held'⟩ := Option.bind_eq_some_iff.1 big
      rw [named, Option.bind_some, entries held']
      exact List.subset_append_right _ _

theorem freeNode_tiers {i : Nat} {children : List Nat} {hasVal : Bool} (run : st.freeNode i = some (children, hasVal, st'))
    (t : Tier) : linksOf st'.overflowArena st'.hugeOvf t ⊆ linksOf st.overflowArena st.hugeOvf t := by
  unfold freeNode at run
  split at run
  · cases run
  · cases run
    simp only [removeNode]
    split
    · exact List.Subset.refl _
    · exact linksOf_free _ _ _ t

/-- One turn of the loop. -/
theorem freeTurn {y : Nat} (I : Inv st (base ++ (stack ++ [y])) path) :
    ∃ hasVal st', st.freeNode y = some (st.collectChildIndices y, hasVal, st') ∧
      Inv st' (base ++ (stack ++ st.collectChildIndices y)) path ∧ Frees st path st' ∧ st'.map.len + 1 = st.map.len ∧
      (if hasVal then 1 else 0) + st'.valued.card = st.valued.card := by
  rw [← List.append_assoc] at I
  obtain ⟨l, read⟩ := I.forest.cutOcc (List.mem_append_right _ (List.mem_singleton.2 rfl) : y ∈ base ++ stack ++ [y])
  obtain ⟨n, found, -⟩ := graph_label_iff.1 read
  obtain ⟨st', run, I', graphs, contents, stays, map⟩ := I.freeNode found
  rw [List.append_assoc] at I'
  refine ⟨_, st', run, I', ⟨stays, ?_, ?_, ?_, freeNode_tiers run⟩, ?_, ?_⟩
  · intro j k live
    have other : j ≠ y := by
      rintro rfl
      rw [I.forest.cutPath (by simp)] at live
      cases live
    have removed := tryGetNode_removeNode st y j
    rw [if_neg other] at removed
    rw [← removed, tryGetNode, tryGetNode, map]
  · intro i l' read'
    rw [graphs] at read'
    simp only [Graph.free, Function.update_apply] at read'
    split at read'
    · cases read'
    · exact read'
  · intro i r j edge
    change st'.graph.kid i r = some j at edge
    rw [graphs] at edge
    simp only [Graph.free] at edge
    split at edge
    · cases edge
    · exact edge
  · rw [map]
    exact TaggedHiSlab.len_remove found
  · have rest : st'.valued = st.valued.erase y := by
      ext j
      rw [Finset.mem_erase, mem_valued, mem_valued, contents]
      by_cases same : j = y <;> simp [same]
    have held : y ∈ st.valued ↔ n.val.isSome = true := by
      rw [mem_valued, content_eq found, Node.content, Option.isSome_map]
    rw [rest]
    split
    next has => rw [Nat.add_comm, Finset.card_erase_add_one (held.2 has)]
    next lacks => rw [Finset.erase_eq_of_notMem (fun member => lacks (held.1 member)), Nat.zero_add]

/-- The loop keeps the detached trees on its stack. -/
theorem freeLoop_inv (fuel : Nat) : ∀ (budget : Option Nat) (st : OxidArt P V) (stack : List Nat) (count : Nat),
    Inv st (base ++ stack) path →
    Inv (freeLoop fuel budget st stack count).2.2 (base ++ (freeLoop fuel budget st stack count).2.1) path ∧
      Frees st path (freeLoop fuel budget st stack count).2.2 ∧
      (freeLoop fuel budget st stack count).1 + (freeLoop fuel budget st stack count).2.2.valued.card = count + st.valued.card := by
  induction fuel with
  | zero => exact fun _ st _ _ I => ⟨I, .refl st path, rfl⟩
  | succ fuel ih =>
    intro budget st stack count I
    rw [freeLoop]
    by_cases spent : budget = some 0
    · rw [if_pos spent]
      exact ⟨I, .refl st path, rfl⟩
    · rw [if_neg spent]
      rcases List.eq_nil_or_concat stack with rfl | ⟨rest, y, rfl⟩
      · exact ⟨I, .refl st path, rfl⟩
      · rw [List.concat_eq_append] at I ⊢
        obtain ⟨hasVal, st', run, I', F, -, values⟩ := freeTurn I
        simp only [List.getLast?_concat, run, List.dropLast_concat]
        obtain ⟨I'', F', values'⟩ := ih (budget.map (· - 1)) st' (rest ++ st.collectChildIndices y)
          (if hasVal then count + 1 else count) I'
        refine ⟨I'', F.trans F', values'.trans ?_⟩
        rw [← values]
        split <;> omega

/-- Without a budget, enough turns empty the stack. -/
theorem freeLoop_done (fuel : Nat) : ∀ (st : OxidArt P V) (stack : List Nat) (count : Nat),
    Inv st (base ++ stack) path → st.freeFuel stack ≤ fuel → (freeLoop fuel none st stack count).2.1 = [] := by
  induction fuel with
  | zero =>
    intro st stack count I enough
    simp only [freeFuel, Nat.le_zero, Nat.add_eq_zero_iff, List.length_eq_zero_iff] at enough
    exact enough.1
  | succ fuel ih =>
    intro st stack count I enough
    rw [freeLoop, if_neg (by simp)]
    rcases List.eq_nil_or_concat stack with rfl | ⟨rest, y, rfl⟩
    · rfl
    · rw [List.concat_eq_append] at I enough ⊢
      obtain ⟨hasVal, st', run, I', F, shorter, -⟩ := freeTurn I
      simp only [List.getLast?_concat, run, List.dropLast_concat]
      apply ih st' _ _ I'
      -- The turn removes a node, which pays for the links it pushes.
      have links := length_collectChildIndices_le st y
      simp only [freeFuel, List.length_append, List.length_singleton] at enough ⊢
      rw [← shorter, Nat.mul_add, Nat.mul_one] at enough
      omega

theorem freeSubtreeIterative_ok (I : Inv st (base ++ stack) path) :
    ∃ count st', st.freeSubtreeIterative stack = (count, st') ∧ Inv st' base path ∧ Frees st path st' ∧
      count + st'.valued.card = st.valued.card := by
  obtain ⟨I', F, values⟩ := freeLoop_inv (st.freeFuel stack) none st stack 0 I
  rw [freeLoop_done _ st stack 0 I (Nat.le_refl _), List.append_nil] at I'
  exact ⟨_, _, rfl, I', F, by rw [values, Nat.zero_add]⟩

/-! ## `deln` -/

/-- What `deln` and `deln_async` do after the freeing: recompression of the parent, except the root. -/
def recompressParent (st : OxidArt P V) (parentIdx : Nat) : Exec (OxidArt P V) :=
  if parentIdx ≠ st.rootIdx then st.tryRecompress parentIdx else pure st

/-- A cut subtree, freed: the keys below `q` are gone. -/
theorem cutFreed_ok (I : Inv st [] path) {p y : Nat} {r : UInt8} {q : Bytes} {child : Node V}
    (edge : st.find p r = some y) (at' : path p = some q) (found : st.tryGetNode y = some child) {count : Nat}
    {st₂ : OxidArt P V} (I₂ : Inv st₂ [] (Forest.without path (q ++ r :: child.compression)))
    (F : Frees (st.removeChild p r) (Forest.without path (q ++ r :: child.compression)) st₂)
    (values : count + st₂.valued.card = (st.removeChild p r).valued.card) :
    ∃ st' path', st₂.recompressParent p = .ok st' ∧ Step (Present st') st [] path st' path' ∧
      (st'.entry = fun k => if q ++ r :: child.compression <+: k then none else st.entry k) ∧ Shrinks st st' ∧
      count + st'.valued.card = st.valued.card := by
  obtain ⟨-, graphs, contents, stays⟩ := I.cutLink edge at' found
  obtain ⟨path₁, eqp⟩ : ∃ path₁, path₁ = Forest.without path (q ++ r :: child.compression) := ⟨_, rfl⟩
  rw [← eqp] at I₂ F
  have values₂ : count + st₂.valued.card = st.valued.card := by
    rw [values]
    congr 1
    ext j
    rw [mem_valued, mem_valued, contents]
  have entries₂ : st₂.entry = fun k => if q ++ r :: child.compression <+: k then none else st.entry k :=
    entry_of_cut I I₂ eqp fun j k live => (F.contents live).trans (contents j)
  have labels₂ : ∀ i l, st₂.graph.label i = some l → st.graph.label i = some l := by
    intro i l read
    have := F.labels i l read
    rwa [graphs] at this
  have shrinks₂ : Shrinks st st₂ := by
    intro i free
    cases read : st₂.graph.label i with
    | none => rfl
    | some l => exact absurd (free.symm.trans (labels₂ i l read)) (by simp)
  -- A node that is left is in the tree, so it kept its path.
  have S₂ : ∀ K, Step K st [] path st₂ path₁ := by
    intro K
    have top : st₂.graph.label st.rootIdx = st.graph.label st.rootIdx := by
      obtain ⟨l, read⟩ := I₂.forest.rootLabel
      rw [(stays.trans F.stays).rootIdx] at read
      exact read.trans (labels₂ _ l read).symm
    refine ⟨I₂, stays.trans F.stays, moves_same I K ?_, top⟩
    intro i k l l' live read read'
    obtain ⟨k', live'⟩ := I₂.path_of_label read'
    have old := live'
    rw [eqp, Forest.without_eq_some] at old
    obtain rfl := Option.some.inj (live.symm.trans old.1)
    exact ⟨live', Option.some.inj ((labels₂ i l' read').symm.trans read)⟩
  unfold recompressParent
  by_cases top : p = st₂.rootIdx
  · refine ⟨st₂, path₁, ?_, S₂ _, entries₂, shrinks₂, values₂⟩
    simp only [top, ne_eq, not_true_eq_false, if_false]
    rfl
  · obtain ⟨st₃, path₃, run, S₃, entries₃, shrinks₃⟩ := tryRecompress_ok I₂ top
    have present : Present st₃ = Present st₂ := by
      unfold Present
      rw [entries₃]
    refine ⟨st₃, path₃, ?_, ?_, entries₃.trans entries₂, shrinks₂.trans shrinks₃, ?_⟩
    · simp only [ne_eq, top, not_false_eq_true, if_true, run]
    · rw [present]
      exact (S₂ _).then S₃ shrinks₃
    · obtain ⟨keys, mem⟩ := I₂.exists_keys
      rw [S₃.inv.card_valued fun k => (mem k).trans (by rw [entries₃]), ← I₂.card_valued mem, values₂]

/-- The link whose cutting takes the keys with the prefix `pfx` away: the node below it, the node above and the radix. -/
def cutPoint (st : OxidArt P V) (pfx : Bytes) : Option (Nat × Nat × UInt8) :=
  match st.walk pfx with
  | .found targetIdx parentIdx parentRadix _ => some (targetIdx, parentIdx, parentRadix)
  | .partialAt targetIdx parentIdx parentRadix commonLen prefixRest _ =>
    if commonLen = prefixRest.length then some (targetIdx, parentIdx, parentRadix) else none
  | _ => none

/-- `deln` cuts there, or deletes nothing. -/
theorem deln_of_cutPoint (st : OxidArt P V) {pfx : Bytes} (nonempty : pfx ≠ []) :
    st.deln pfx = (st.cutPoint pfx).elim (.ok (0, st)) fun c => st.delnSubtree c.1 c.2.1 c.2.2 := by
  have notEmpty : pfx.isEmpty = false := by simpa using nonempty
  simp only [deln, notEmpty, Bool.false_eq_true, if_false, cutPoint]
  cases st.walk pfx with
  | partialAt => dsimp only; split <;> rfl
  | gone | found | noChild => rfl

/-- Below the cut point are exactly the nodes whose path has the prefix. -/
theorem Inv.cutPoint_some (I : Inv st cut path) {pfx : Bytes} (nonempty : pfx ≠ []) {y p : Nat} {r : UInt8}
    (target : st.cutPoint pfx = some (y, p, r)) :
    ∃ q child, path p = some q ∧ st.find p r = some y ∧ st.tryGetNode y = some child ∧
      ∀ i k, path i = some k → (pfx <+: k ↔ q ++ r :: child.compression <+: k) := by
  unfold cutPoint at target
  cases outcome : st.walk pfx with
  | gone idx => simp only [outcome] at target; cases target
  | noChild idx keyRest => simp only [outcome] at target; cases target
  | found idx parent radix keyPath =>
    simp only [outcome] at target
    cases target
    obtain ⟨q, n, at', edge, found, rfl, -, -⟩ := I.walk_found nonempty outcome
    exact ⟨q, n, at', edge, found, fun _ _ _ => Iff.rfl⟩
  | partialAt idx parent radix common keyRest keyPath =>
    obtain ⟨q, n, at', edge, found, rfl, parts, -, -⟩ := I.walk_partialAt nonempty outcome
    simp only [outcome] at target
    split at target
    next ends =>
      cases target
      have covered : keyRest <+: n.compression := by
        have agree := parts.agree
        rw [ends, List.take_length] at agree
        exact agree ▸ List.take_prefix _ _
      refine ⟨q, n, at', edge, found, fun i k livei => ⟨?_, ?_⟩⟩
      · rintro ⟨t, rfl⟩
        -- A node with the prefix goes through the target.
        rw [List.append_assoc] at livei
        obtain ⟨y, l, t', edge', read', same, -⟩ := (I.forest.reach_below at' livei).cons_inv
        obtain rfl := Option.some.inj (edge.symm.trans edge')
        obtain rfl := Option.some.inj ((graph_label found).symm.trans read')
        refine ⟨t', ?_⟩
        rw [List.append_assoc, List.append_assoc, List.cons_append, List.cons_append]
        exact congrArg (fun k => q ++ r :: k) same.symm
      · exact (((List.prefix_append_right_inj q).2 ((List.prefix_cons_inj r).2 covered)).trans ·)
    next => cases target

/-- Without a cut point no node has the prefix. -/
theorem Inv.cutPoint_none (I : Inv st cut path) {pfx : Bytes} (nonempty : pfx ≠ []) (target : st.cutPoint pfx = none)
    {i : Nat} {k : Bytes} (livei : path i = some k) : ¬ pfx <+: k := by
  unfold cutPoint at target
  cases outcome : st.walk pfx with
  | gone idx => exact absurd outcome (walk_ne_gone I.forest nonempty idx)
  | found idx parent radix keyPath => simp only [outcome] at target; cases target
  | noChild idx keyRest =>
    obtain ⟨q, radix, rest, n, rfl, at', found, rfl, absent⟩ := I.walk_noChild nonempty outcome
    rintro ⟨t, rfl⟩
    rw [List.append_assoc] at livei
    obtain ⟨y, l, t', edge, -⟩ := (I.forest.reach_below at' livei).cons_inv
    exact absurd (absent.symm.trans edge) (by simp)
  | partialAt idx parent radix common keyRest keyPath =>
    obtain ⟨q, n, at', edge, found, rfl, parts, -, -⟩ := I.walk_partialAt nonempty outcome
    simp only [outcome] at target
    split at target
    next => cases target
    next ends =>
      rintro ⟨t, rfl⟩
      rw [List.append_assoc] at livei
      obtain ⟨y, l, t', edge', read', same, -⟩ := (I.forest.reach_below at' livei).cons_inv
      obtain rfl := Option.some.inj (edge.symm.trans edge')
      obtain rfl := Option.some.inj ((graph_label found).symm.trans read')
      -- The compression and the rest of the prefix part before either ends.
      rcases List.prefix_or_prefix_of_prefix ⟨t', same.symm⟩ (List.prefix_append keyRest t) with shorter | ⟨t, same⟩
      · exact parts.not_prefix shorter
      · have bound : common < keyRest.length := Nat.lt_of_le_of_ne parts.bound ends
        refine (parts.leave.resolve_left ends) ?_
        rw [← same, List.getElem?_append_left bound]

/-- The effect of a deletion by prefix. -/
structure DeletesPrefix (st : OxidArt P V) (path : Nat → Option Bytes) (pfx : Bytes) (count : Nat) (st' : OxidArt P V)
    (path' : Nat → Option Bytes) : Prop where
  step : Step (Present st') st [] path st' path'
  entries : st'.entry = fun k => if pfx <+: k then none else st.entry k
  shrinks : Shrinks st st'
  counts : ∃ keys : Finset Bytes, (∀ k, k ∈ keys ↔ pfx <+: k ∧ (st.entry k).isSome = true) ∧ count = keys.card

/-- Cutting at the cut point and freeing deletes by prefix. -/
theorem deletesPrefix_cut (I : Inv st [] path) {pfx : Bytes} {y p : Nat} {r : UInt8} {q : Bytes}
    {child : Node V} (edge : st.find p r = some y) (at' : path p = some q) (found : st.tryGetNode y = some child)
    (below : ∀ i k, path i = some k → (pfx <+: k ↔ q ++ r :: child.compression <+: k)) {count : Nat} {st₂ : OxidArt P V}
    (I₂ : Inv st₂ [] (Forest.without path (q ++ r :: child.compression)))
    (F : Frees (st.removeChild p r) (Forest.without path (q ++ r :: child.compression)) st₂)
    (values : count + st₂.valued.card = (st.removeChild p r).valued.card) :
    ∃ st' path', st₂.recompressParent p = .ok st' ∧ DeletesPrefix st path pfx count st' path' := by
  obtain ⟨st', path', run, S, entries, shrinks, values'⟩ := cutFreed_ok I edge at' found I₂ F values
  have entries' : st'.entry = fun k => if pfx <+: k then none else st.entry k := by
    rw [entries]
    funext k
    cases held : st.entry k with
    | none => rw [ite_self, ite_self]
    | some c =>
      obtain ⟨i, livei, -⟩ := I.entry_iff.1 held
      rw [if_congr (below i k livei) rfl rfl]
  exact ⟨st', path', run, S, entries', shrinks, count_of_entries I S.inv entries' values'⟩

theorem deletesPrefix_nothing (I : Inv st [] path) {pfx : Bytes} (nothing : ∀ i k, path i = some k → ¬ pfx <+: k) :
    DeletesPrefix st path pfx 0 st path := by
  have entries : st.entry = fun k => if pfx <+: k then none else st.entry k := by
    funext k
    split
    next inside => exact I.entry_eq_none fun i live => nothing i k live inside
    next => rfl
  exact ⟨.refl I _, entries, fun _ free => free, count_of_entries I I entries (Nat.zero_add _)⟩

/-- `deln` of a non-empty prefix removes the keys with that prefix and counts them. -/
theorem deln_ok (I : Inv st [] path) {pfx : Bytes} (nonempty : pfx ≠ []) :
    ∃ count st' path', st.deln pfx = .ok (count, st') ∧ DeletesPrefix st path pfx count st' path' := by
  have shape := st.deln_of_cutPoint nonempty
  cases target : st.cutPoint pfx with
  | none =>
    rw [target] at shape
    exact ⟨0, st, path, shape, deletesPrefix_nothing I fun _ _ => I.cutPoint_none nonempty target⟩
  | some link =>
    obtain ⟨y, p, r⟩ := link
    rw [target, Option.elim_some] at shape
    obtain ⟨q, child, at', edge, found, below⟩ := I.cutPoint_some nonempty target
    obtain ⟨I₁, -⟩ := I.cutLink edge at' found
    obtain ⟨count, st₂, freed, I₂, F, values⟩ := freeSubtreeIterative_ok I₁
    obtain ⟨st', path', run, D⟩ := deletesPrefix_cut I edge at' found below I₂ F values
    refine ⟨count, st', path', ?_, D⟩
    rw [shape, delnSubtree]
    unfold recompressParent at run
    split at run
    next inner =>
      simp only [freed, if_pos inner, run]
      rfl
    next top =>
      simp only [freed, if_neg top]
      cases run
      rfl

/-! ## `deln` of the empty prefix -/

/-- Flushing a store whose root has no overflow slot leaves the root alone, without value and links. -/
theorem flush_ok (I : Inv st [] path) {root : Node V} (found : st.tryGetNode st.rootIdx = some root)
    (inline : root.overflowIdx = none) :
    ∃ count st', st.deln [] = .ok (count, st') ∧ Stays st st' ∧
      Inv st' [] (fun i => if i = st.rootIdx then some [] else none) ∧
      st'.tryGetNode st.rootIdx = some { root.clearVal with childs := .default } := by
  have I₁ := I.stripRoot found { root.clearVal with childs := .default } rfl rfl inline rfl
  obtain ⟨count, st', freed, I', F, -⟩ := freeSubtreeIterative_ok I₁
  have atRoot : (st.setNode st.rootIdx { root.clearVal with childs := .default }).tryGetNode st.rootIdx =
      some { root.clearVal with childs := .default } := by
    rw [tryGetNode_setNode, if_pos rfl, found]
    rfl
  refine ⟨count + (if root.val.isSome then 1 else 0), st', ?_, ⟨F.stays.now, F.stays.rootIdx⟩, I',
    (F.nodes st.rootIdx [] (if_pos rfl)).trans atRoot⟩
  simp only [deln, List.isEmpty_nil, if_true, getNode_ok found, freed, bind, Except.bind]
  rfl

end OxidArt

end Radixox.Oxidart
