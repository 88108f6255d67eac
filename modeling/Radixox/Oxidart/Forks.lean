import Mathlib.Data.Finset.Max
import Radixox.Oxidart.Recompressions
import Radixox.Oxidart.Reference
import Radixox.Oxidart.Tenancy
import Radixox.Oxidart.Twins

/-!
# Inner nodes that branch

A node without a value has to branch: it is there for the keys of two children. The root is exempt, and so is, within an operation,
the node that has lost its value or a link. `tryRecompress` settles the debt of that node where its last link is inline. A last link
in an overflow tier is not seen, and the node stays.
-/

namespace Radixox.Oxidart
set_option autoImplicit false
open Radixox.Assoc Radixox.Outcomes Radixox.PathForest Radixox.Renaming Radixox.Runs

/-! ## Heaps in which nodes branch -/

theorem Shelf.length_push (s : Shelf) (r : UInt8) (idx : Nat) : (s.push r idx).links.length = s.links.length + 1 := by
  unfold push
  split
  · simp only [links, List.length_append, List.length_singleton]
    omega
  · split <;>
    · simp only [links, List.length_append, List.length_singleton]
      omega

/-- One link goes, at most. -/
theorem Shelf.length_le_remove (s : Shelf) (r : UInt8) : s.links.length ≤ (s.remove r).links.length + 1 := by
  have shorter : ∀ {l rest : Links} {v : Nat}, removeKey l r = some (v, rest) → l.length = rest.length + 1 := fun removed =>
    (removeKey_perm removed).length_eq.trans (List.length_cons ..)
  unfold Shelf.remove
  split
  next inline => simp only [links, List.length_append, shorter inline]; omega
  next light => simp only [links, List.length_append, shorter light]; omega
  next big => simp only [links, List.length_append, shorter big]; omega
  next => omega

namespace Heap

variable {V : Type} {w : Heap V} {exempt : List Nat} {p i j x : Nat} {r : UInt8} {b leaf : View V}

/-- A cell stores a value or links two others. -/
def Branches (b : View V) : Prop := b.val = none → 2 ≤ b.shelf.links.length

/-- Every cell does, but the exempt ones. -/
def Forks (w : Heap V) (exempt : List Nat) : Prop := ∀ i b, w i = some b → i ∉ exempt → Branches b

theorem branches_of_val (held : b.val.isSome = true) : Branches b := by
  intro none'
  rw [none'] at held
  cases held

theorem Branches.push (B : Branches b) (r : UInt8) (j : Nat) : Branches (b.push r j) := by
  intro none'
  have before := B none'
  rw [View.push, Shelf.length_push]
  omega

theorem Forks.mono {exempt' : List Nat} (F : Forks w exempt) (more : ∀ i, i ∈ exempt → i ∈ exempt') : Forks w exempt' :=
  fun i b read other => F i b read fun member => other (more i member)

/-- A cell that branches needs no exemption. -/
theorem Forks.settle (F : Forks w (x :: exempt)) (branches : ∀ b, w x = some b → Branches b) : Forks w exempt := by
  intro i b read other
  by_cases same : i = x
  · exact branches b (same ▸ read)
  · exact F i b read (List.not_mem_cons_of_ne_of_not_mem same other)

theorem Forks.update (F : Forks w exempt) (branches : i ∉ exempt → Branches b) : Forks (Function.update w i (some b)) exempt := by
  intro k c read other
  rw [Function.update_apply] at read
  split at read
  next same =>
    obtain rfl := Option.some.inj read
    exact branches (same ▸ other)
  next => exact F k c read other

theorem Forks.free (F : Forks w exempt) (i : Nat) : Forks (Function.update w i none) exempt := by
  intro k c read other
  rw [Function.update_apply] at read
  split at read
  · cases read
  · exact F k c read other

theorem Forks.modify {f : View V → View V} (F : Forks w exempt) (keeps : ∀ b, w i = some b → i ∉ exempt → Branches (f b)) :
    Forks (Renaming.modify w i f) exempt := by
  cases read : w i with
  | none =>
    rw [Renaming.modify, read, Option.map_none]
    exact F.free i
  | some b =>
    rw [modify_eq read]
    exact F.update (keeps b read)

/-- A new cell below one that has links already. -/
theorem Forks.hang (F : Forks w exempt) (branches : Branches leaf) : Forks (hang w p r j leaf) exempt := by
  have grown : Forks (Function.update w j (some leaf)) exempt := F.update fun _ => branches
  exact grown.modify fun b read other => (grown p b read other).push r j

theorem hang_self (used : w p = some b) (unused : w j = none) : hang w p r j leaf p = some (b.push r j) := by
  have other : p ≠ j := by
    rintro rfl
    rw [used] at unused
    cases unused
  rw [Heap.hang, modify_eq (by rw [Function.update_of_ne other, used]), Function.update_self]

/-- The upper half of a split node has one link, the lower half those of the node. -/
theorem Forks.splitAt (F : Forks w exempt) (common : Nat) (r : UInt8) (val : Option V) (exp : Option Nat) (used : w p = some b)
    (unused : w j = none) (apart : p ∉ exempt) : Forks (splitAt w p common r j val exp) (p :: exempt) ∧
      ∃ c, splitAt w p common r j val exp p = some c ∧ c.val = val ∧ c.shelf.links.length = 1 := by
  have other : j ≠ p := by
    rintro rfl
    rw [used] at unused
    cases unused
  have wider : Forks w (p :: exempt) := F.mono fun i member => List.mem_cons_of_mem p member
  have upper := wider.update (i := p) (b := .leaf (b.compression.take common) val exp) fun absent => absurd List.mem_cons_self absent
  simp only [Heap.splitAt, used]
  refine ⟨upper.hang (F p b used apart), _, hang_self (Function.update_self ..) ?_, rfl, ?_⟩
  · rw [Function.update_of_ne other, unused]
  · rw [View.push, Shelf.length_push]
    rfl

/-- A recompression settles what the node owes, if the last link is the inline one. -/
theorem Forks.recompress (F : Forks w (x :: exempt))
    (owes : ∀ b, w x = some b → b.val = none → b.shelf.links.length < 2 → b.shelf.single.isSome = true)
    (live : ∀ b r j, w x = some b → b.shelf.single = some (r, j) → w j ≠ none ∧ j ≠ x ∧ j ∉ exempt) :
    Forks (recompress w x) exempt := by
  unfold Heap.recompress
  cases read : w x with
  | none => exact F.settle fun b read' => by rw [read] at read'; cases read'
  | some b =>
    dsimp only
    split
    next held =>
      refine F.settle fun c read' => ?_
      obtain rfl := Option.some.inj (read.symm.trans read')
      exact branches_of_val held
    next empty =>
      have empty' : b.val = none := Option.not_isSome_iff_eq_none.1 empty
      cases single : b.shelf.single with
      | none =>
        refine F.settle fun c read' => ?_
        obtain rfl := Option.some.inj (read.symm.trans read')
        intro _
        by_contra few
        have inline := owes b read empty' (Nat.lt_of_not_le few)
        rw [single] at inline
        cases inline
      | some q =>
        obtain ⟨r, j⟩ := q
        obtain ⟨held, other, inner⟩ := live b r j read single
        obtain ⟨c, below⟩ := Option.ne_none_iff_exists'.1 held
        have child : Branches c := F j c below (List.not_mem_cons_of_ne_of_not_mem other inner)
        simp only [below]
        intro i d read' outside
        rw [Function.update_apply] at read'
        split at read'
        next =>
          obtain rfl := Option.some.inj read'
          exact child
        next same => exact (F.free j) i d read' (List.not_mem_cons_of_ne_of_not_mem same outside)

end Heap

namespace OxidArt

variable {P : Policy} {V : Type} {st st₁ st' : OxidArt P V} {path : Nat → Option Bytes} {B : UInt8 → Prop} {i j p x : Nat}
variable {r : UInt8} {key : Bytes}

/-- Every node but the root stores a value or has two children. -/
def Forked (st : OxidArt P V) : Prop := Heap.Forks st.view [st.rootIdx]

/-! ## Writes -/

theorem Forked.writeVal (F : Forked st) {ttl : Nat} {v : V} (small : ttl < 2 ^ 56) (ran : (do
    let node ← st.getNode i
    let node ← node.setVal v ttl
    return st.setNode i node) = Except.ok st') : Heap.Forks st'.view [st.rootIdx] := by
  obtain ⟨-, view⟩ := view_writeVal small ran
  rw [view]
  exact Heap.Forks.modify F fun _ _ _ => Heap.branches_of_val rfl

/-- A write hangs a leaf, or splits a node; the upper half of it gets the value or a second link. -/
theorem Forked.setInternal (F : Forked st) (I : Inv st [] path) (plain : PlainKey key) {ttl : Nat} (small : ttl < 2 ^ 56) {v : V}
    (ran : st.setInternal key ttl v = .ok st') : Heap.Forks st'.view [st.rootIdx] := by
  obtain ⟨nonempty, bytes⟩ := plain
  have notEmpty : key.isEmpty = false := by simpa using nonempty
  simp only [OxidArt.setInternal, notEmpty, Bool.false_eq_true, if_false] at ran
  cases outcome : st.walk key with
  | gone i => exact absurd outcome (walk_ne_gone I.forest nonempty i)
  | found i p r keyPath =>
    rw [outcome] at ran
    exact F.writeVal small ran
  | noChild i rest =>
    obtain ⟨q, r, rest, n, rfl, -, found, rfl, absent⟩ := I.walk_noChild nonempty outcome
    rw [outcome] at ran
    obtain ⟨⟨j, st₁⟩, made, same⟩ := exists_of_bind ran
    obtain rfl := Except.ok.inj same
    obtain ⟨-, view⟩ := view_createNodeWithVal I.kids found absent (bytes r (by simp)) small made
    rw [view]
    exact Heap.Forks.hang F (Heap.branches_of_val rfl)
  | partialAt i p r common rest keyPath =>
    obtain ⟨q, n, -, edge, found, rfl, parts, -, -⟩ := I.walk_partialAt nonempty outcome
    have inner : i ∉ [st.rootIdx] := fun member => I.kid_ne_root edge (List.mem_singleton.1 member)
    rw [outcome] at ran
    obtain ⟨⟨j, st₁⟩, made, same⟩ := exists_of_bind ran
    obtain rfl := Except.ok.inj same
    have bytes' : ∀ b ∈ rest, KeyByte b := fun b member => bytes b (by simp [member])
    obtain ⟨s, y, -, free, view⟩ := view_splitNode I small found (I.kid_ne_root edge) parts bytes' made
    split at view
    next =>
      obtain ⟨split, c, upper, val, -⟩ := Heap.Forks.splitAt F common s (some v) (expOf ttl) (view_eq found) free inner
      rw [view]
      refine split.settle fun c' read => ?_
      obtain rfl := Option.some.inj (upper.symm.trans read)
      exact Heap.branches_of_val (by rw [val]; rfl)
    next =>
      obtain ⟨t, z, -, free', view⟩ := view
      obtain ⟨split, c, upper, -, single⟩ := Heap.Forks.splitAt F common s none none (view_eq found) free inner
      rw [view]
      refine (split.hang (Heap.branches_of_val rfl)).settle fun c' read _ => ?_
      rw [Heap.hang_self upper free'] at read
      rw [← Option.some.inj read, View.push, Shelf.length_push, single]

/-! ## Removals -/

/-- Where the operation leaves the node that it recompresses with one link, this link is inline. -/
def LastInline (st : OxidArt P V) (op : TreeOp V) : Prop :=
  ∀ q ∈ st.recompressed op, q.2.links.length = 1 → q.2.single.isSome = true

instance (st : OxidArt P V) (op : TreeOp V) : Decidable (st.LastInline op) :=
  inferInstanceAs (Decidable (∀ q ∈ st.recompressed op, q.2.links.length = 1 → q.2.single.isSome = true))

theorem Inv.single_ne_root (I : Inv st [] path) {b : View V} (read : st.view p = some b) (single : b.shelf.single = some (r, j)) :
    j ≠ st.rootIdx := by
  have member := Shelf.single_mem single
  obtain ⟨n, found, rfl⟩ := node_of_view read
  rw [← iterAllChildren_view found] at member
  exact I.kid_ne_root (I.kids.find_iff.2 member)

/-- A recompression pays for a node that has a link left, if it finds the last one. -/
theorem forks_tryRecompress (I : Inv st [] path) (F : Heap.Forks st.view [x, st.rootIdx])
    (owes : ∀ b, st.view x = some b → b.val = none → b.shelf.links ≠ [] ∧ (b.shelf.links.length = 1 → b.shelf.single.isSome = true))
    (ran : st.tryRecompress x = .ok st') : Heap.Forks st'.view [st.rootIdx] := by
  rw [view_tryRecompress I.kids ran]
  refine F.recompress (fun b read empty few => ?_) fun b r j read single => ?_
  · obtain ⟨some', inline⟩ := owes b read empty
    have := List.length_pos_iff.2 some'
    exact inline (by omega)
  · obtain ⟨held, other⟩ := I.single_live read single
    exact ⟨held, other, fun member => I.single_ne_root read single (List.mem_singleton.1 member)⟩

theorem Thinned.inv (I : Inv st [] path) (edge : st.find p r = some i) (T : Thinned st i p r x st₁) :
    (∃ path₁, Inv st₁ [] path₁) ∧ st₁.rootIdx = st.rootIdx := by
  cases T with
  | cleared found inner => exact ⟨⟨path, I.setNode found rfl rfl rfl rfl⟩, rfl⟩
  | unlinked found leaf below =>
    obtain ⟨I₁, -, -, stays⟩ := I.dropLeaf edge found leaf
    exact ⟨⟨_, I₁⟩, stays.rootIdx⟩

/-- The node to recompress has a link left: it had two, or one that was not removed. -/
theorem Thinned.owes (F : Forked st) (K : KidsInvOf B st) (T : Thinned st i p r x st₁) : Heap.Forks st₁.view [x, st.rootIdx] ∧
    ∀ b, st₁.view x = some b → b.val = none → b.shelf.links ≠ [] := by
  have exempt : Heap.Forks st.view [x, st.rootIdx] := Heap.Forks.mono F fun j member => List.mem_cons_of_mem x member
  cases T with
  | @cleared n found inner =>
    rw [view_setNode found n.clearVal]
    refine ⟨exempt.update fun absent => absurd List.mem_cons_self absent, fun b read _ => ?_⟩
    rw [Function.update_self] at read
    obtain rfl := Option.some.inj read
    rw [hasChildren_viewOf (TierInv.slotOk K (tier_eq found)), Bool.not_eq_true', List.isEmpty_eq_false_iff] at inner
    exact inner
  | @unlinked n found leaf below =>
    rw [view_removeLeaf K i p r]
    refine ⟨(exempt.free i).modify fun _ _ absent => absurd List.mem_cons_self absent, fun b read empty => ?_⟩
    rw [Renaming.modify, Function.update_self] at read
    obtain ⟨a, before, rfl⟩ := Option.map_eq_some_iff.1 read
    have two := Heap.Forks.free F i p a before (fun member => below (List.mem_singleton.1 member)) empty
    have fewer := Shelf.length_le_remove a.shelf r
    exact List.length_pos_iff.1 (show 0 < (a.shelf.remove r).links.length by omega)

theorem Forked.deleteNodeInline (F : Forked st) (I : Inv st [] path) (edge : st.find p r = some i)
    (settles : ∀ q ∈ st.leftBy i p r, q.2.links.length = 1 → q.2.single.isSome = true) (ran : st.deleteNodeInline i p r = .ok st') :
    Heap.Forks st'.view [st.rootIdx] := by
  rcases deleteNodeInline_cases ran with ⟨n, found, leaf, top, rfl⟩ | ⟨x, st₁, T, ran'⟩
  · rw [view_removeLeaf I.kids, top]
    exact (Heap.Forks.free F i).modify fun _ _ absent => absurd (List.mem_singleton.2 rfl) absent
  · obtain ⟨⟨path₁, I₁⟩, root⟩ := T.inv I edge
    obtain ⟨F₁, left⟩ := T.owes F I.kids
    rw [← root] at F₁ ⊢
    refine forks_tryRecompress I₁ F₁ (fun b read empty => ⟨left b read empty, fun one => ?_⟩) ran'
    exact settles _ (T.left I.kids read empty).1 one

/-! ## Deleting subtrees -/

/-- The freeing leaves the nodes of the tree their links. -/
theorem Frees.find {cut : List Nat} (F : Frees st path st') (I : Inv st cut path) (I' : Inv st' [] path) {k : Bytes}
    (live : path i = some k) (edge : st.find i r = some j) : st'.find i r = some j := by
  obtain ⟨l, label⟩ := I.forest.kidOcc edge
  obtain ⟨m, found, -⟩ := graph_label_iff.1 label
  have below : path j = some (k ++ r :: l) := by
    rw [I.forest.kidPath edge label, live]
    rfl
  have found' : st'.tryGetNode j = some m := (F.nodes j _ below).trans found
  have inner : j ≠ st'.rootIdx := by
    rw [F.stays.rootIdx]
    exact I.kid_ne_root edge
  rcases I'.forest.parent (graph_label found') inner with member | ⟨i', r', edge'⟩
  · cases member
  · obtain ⟨rfl, rfl⟩ := I.forest.kidInj edge (F.links i' r' j edge')
    exact edge'

/-- So it leaves them what the operations read. -/
theorem Frees.view {cut : List Nat} (F : Frees st path st') (I : Inv st cut path) (I' : Inv st' [] path) {b' : View V}
    (read : st'.view i = some b') : ∃ b, st.view i = some b ∧ b.val = b'.val ∧ b.shelf.single = b'.shelf.single ∧
      b.shelf.links.length ≤ b'.shelf.links.length := by
  obtain ⟨n, found', rfl⟩ := node_of_view read
  obtain ⟨k, live⟩ := I'.path_of_label (graph_label found')
  have found : st.tryGetNode i = some n := (F.nodes i k live).symm.trans found'
  refine ⟨_, view_eq found, rfl, ?_, ?_⟩
  · rw [← single_viewOf (TierInv.slotOk I.kids (tier_eq found)), ← single_viewOf (TierInv.slotOk I'.kids (tier_eq found'))]
  · rw [← iterAllChildren_view found, ← iterAllChildren_view found']
    have nodup : (st.iterAllChildren i).Nodup := List.Nodup.of_map Prod.fst (I.kids.nodup i)
    exact (nodup.subperm fun q member => I'.kids.find_iff.1 (F.find I I' live (I.kids.find_iff.2 member))).length_le

theorem recompressed_deln (st : OxidArt P V) (pfx : Bytes) :
    st.recompressed (.deln pfx) = (st.cutPoint pfx).bind fun c => st.parentLeft c.2.1 c.2.2 := by
  simp only [recompressed, cutPoint]
  cases st.walk pfx with
  | partialAt => dsimp only; split <;> rfl
  | gone | found | noChild => rfl

/-- The node above the cut, with the links that stay. -/
theorem recompressed_of_cut (K : KidsInvOf B st) {pfx : Bytes} {y : Nat} (target : st.cutPoint pfx = some (y, p, r))
    (inner : p ≠ st.rootIdx) {b : View V} (read : (st.removeChild p r).view p = some b) (empty : b.val = none) :
    ∃ a, st.view p = some a ∧ a.val = none ∧ b.shelf = a.shelf.remove r ∧ st.recompressed (.deln pfx) = some (p, b.shelf) := by
  rw [view_removeChild K, Renaming.modify, Function.update_self] at read
  obtain ⟨a, above, rfl⟩ := Option.map_eq_some_iff.1 read
  have bare : a.val = none := empty
  refine ⟨a, above, bare, rfl, ?_⟩
  simp only [recompressed_deln, target, Option.bind_some, parentLeft, if_neg inner, above, bare, Option.isSome_none,
    Bool.false_eq_true, if_false]
  rfl

theorem Forked.deln (F : Forked st) (I : Inv st [] path) {pfx : Bytes} (nonempty : pfx ≠ []) (inline : st.LastInline (.deln pfx))
    {count : Nat} (ran : st.deln pfx = .ok (count, st')) : Heap.Forks st'.view [st.rootIdx] := by
  rw [st.deln_of_cutPoint nonempty] at ran
  cases target : st.cutPoint pfx with
  | none =>
    rw [target] at ran
    obtain ⟨-, rfl⟩ := Prod.mk.inj (Except.ok.inj ran)
    exact F
  | some link =>
    obtain ⟨y, p, r⟩ := link
    obtain ⟨q, child, at', edge, found, -⟩ := I.cutPoint_some nonempty target
    obtain ⟨I₁, -, -, stays⟩ := I.cutLink edge at' found
    obtain ⟨count₂, st₂, freed, I₂, frees, -⟩ := freeSubtreeIterative_ok I₁
    have root : st₂.rootIdx = st.rootIdx := (stays.trans frees.stays).rootIdx
    have view := view_removeChild I.kids p r
    have F₁ : Heap.Forks (st.removeChild p r).view [p, st.rootIdx] := by
      have wider : Heap.Forks st.view [p, st.rootIdx] := Heap.Forks.mono F fun j member => List.mem_cons_of_mem p member
      rw [view]
      exact wider.modify fun _ _ absent => absurd List.mem_cons_self absent
    have F₂ : Heap.Forks st₂.view [p, st.rootIdx] := by
      intro i b₂ read other empty
      obtain ⟨b, before, val, -, links⟩ := frees.view I₁ I₂ read
      exact (F₁ i b before other (val.trans empty)).trans links
    simp only [target, Option.elim_some, delnSubtree, freed] at ran
    split at ran
    next inner =>
      obtain ⟨st₃, run, same⟩ := exists_of_bind ran
      obtain ⟨-, rfl⟩ := Prod.mk.inj (Except.ok.inj same)
      rw [root] at inner
      rw [← root] at F₂ ⊢
      refine forks_tryRecompress I₂ F₂ (fun b₂ read empty => ?_) run
      obtain ⟨b, before, val, single, links⟩ := frees.view I₁ I₂ read
      obtain ⟨a, above, bare, shelf, chosen⟩ := recompressed_of_cut I.kids target inner before (val.trans empty)
      have two := F p a above (fun member => inner (List.mem_singleton.1 member)) bare
      have fewer := Shelf.length_le_remove a.shelf r
      rw [← shelf] at fewer
      refine ⟨List.length_pos_iff.1 (by omega), fun one => ?_⟩
      rw [← single]
      exact inline _ chosen (show b.shelf.links.length = 1 by omega)
    next top =>
      obtain ⟨-, rfl⟩ := Prod.mk.inj (Except.ok.inj ran)
      rw [root, not_not] at top
      rw [top] at F₂
      exact F₂.mono fun j member => List.mem_singleton.2 (by simpa using member)

/-! ## Runs -/

end OxidArt

/-- Writes, lookups and removals over plain keys, with expiries that fit the field. -/
def TreeOp.Branching {P : Policy} {V : Type} (st : OxidArt P V) : TreeOp V → Prop
  | .set key _ | .get key | .del key => PlainKey key
  | .setTtl key ttl _ => PlainKey key ∧ saturatingAdd st.now ttl < 2 ^ 56
  | .deln pfx => pfx ≠ []
  | .setNow _ => True
  | _ => False

instance {P : Policy} {V : Type} (st : OxidArt P V) : (op : TreeOp V) → Decidable (op.Branching st)
  | .set key _ | .get key | .del key => inferInstanceAs (Decidable (PlainKey key))
  | .setTtl key .. => inferInstanceAs (Decidable (PlainKey key ∧ _))
  | .deln pfx => inferInstanceAs (Decidable (pfx ≠ []))
  | .setNow _ => inferInstanceAs (Decidable True)
  | .expire .. | .persist _ | .getTtl _ | .getn _ | .evict _ => inferInstanceAs (Decidable False)

namespace OxidArt

variable {P : Policy} {V : Type} {st st' : OxidArt P V} {path : Nat → Option Bytes}

theorem Keeps.forked (keeps : Keeps st [] st') (F : Heap.Forks st'.view [st.rootIdx]) : IsSound st' ∧ Forked st' :=
  ⟨keeps.isSound, by rwa [Forked, keeps.1.rootIdx]⟩

theorem Forked.execTree (F : Forked st) (I : Inv st [] path) {op : TreeOp V} (plain : op.Branching st) (inline : st.LastInline op)
    {reply : TreeReply V} (ran : st.execTree op = .ok (reply, st')) : IsSound st' ∧ Forked st' := by
  cases op with
  | set key v =>
    have small : ExpAndRadix.noExp < 2 ^ 56 := by decide
    obtain ⟨st₁, path₁, run, S, -⟩ := setInternal_ok I (fun _ => True) plain.2 small v
    obtain ⟨-, rfl⟩ := Prod.mk.inj (Except.ok.inj (ran.symm.trans (execTree_set run)))
    exact S.keeps.forked (F.setInternal I plain small run)
  | setTtl key ttl v =>
    obtain ⟨st₁, path₁, run, S, -⟩ := setInternal_ok I (fun _ => True) plain.1.2 plain.2 v
    obtain ⟨-, rfl⟩ := Prod.mk.inj (Except.ok.inj (ran.symm.trans (execTree_setTtl run)))
    exact S.keeps.forked (F.setInternal I plain.1 plain.2 run)
  | get key =>
    obtain ⟨v, st₁, run, keeps, -⟩ := get_keeps I key
    obtain ⟨-, rfl⟩ := Prod.mk.inj (Except.ok.inj (ran.symm.trans (execTree_get run)))
    refine keeps.forked ?_
    rcases get_removes plain.1 run with rfl | ⟨i, p, r, keyPath, outcome, chosen, removed⟩
    · exact F
    · obtain ⟨-, n, -, edge, -⟩ := I.walk_found plain.1 outcome
      exact F.deleteNodeInline I edge (chosen ▸ inline) removed
  | del key =>
    obtain ⟨v, st₁, run, keeps⟩ := del_keeps I key
    obtain ⟨-, rfl⟩ := Prod.mk.inj (Except.ok.inj (ran.symm.trans (execTree_del run)))
    refine keeps.forked ?_
    rcases del_removes_node I.kids plain.1 run with rfl | ⟨i, p, r, keyPath, outcome, chosen, removed⟩
    · exact F
    · obtain ⟨-, n, -, edge, -⟩ := I.walk_found plain.1 outcome
      exact F.deleteNodeInline I edge (chosen ▸ inline) removed
  | deln pfx =>
    obtain ⟨count, st₁, path₁, run, D⟩ := deln_ok I (show pfx ≠ [] from plain)
    simp only [OxidArt.execTree, run, bind, Except.bind] at ran
    obtain ⟨-, rfl⟩ := Prod.mk.inj (Except.ok.inj ran)
    exact D.step.keeps.forked (F.deln I plain inline run)
  | setNow now =>
    obtain ⟨-, rfl⟩ := Prod.mk.inj (Except.ok.inj ran)
    exact ⟨⟨path, I.setNow now⟩, F⟩
  | expire | persist | getTtl | getn | evict => exact plain.elim

theorem forked_new : Forked (new : OxidArt P V) := by
  intro i b read inner
  obtain ⟨n, found, -⟩ := node_of_view read
  obtain ⟨k, live⟩ := Inv.path_of_label (inv_new : Inv (new : OxidArt P V) [] _) (graph_label found)
  split at live
  next top => exact absurd (List.mem_singleton.2 top) inner
  next => cases live

theorem reached_forked (reached : Reaches execTree (fun st op => op.Branching st ∧ st.LastInline op) (new : OxidArt P V) st) :
    IsSound st ∧ Tenanted st ∧ Forked st := by
  induction reached with
  | refl => exact ⟨⟨_, inv_new⟩, tenanted_new, forked_new⟩
  | @step s s' op reply _ ok taken ih =>
    obtain ⟨⟨path, I⟩, T, F⟩ := ih
    obtain ⟨sound, F'⟩ := F.execTree I ok.1 ok.2 taken
    refine ⟨sound, (upkeep_tenanted.execTree T ?_).of_ok taken, F'⟩
    cases op <;> trivial

/-! ## The empty store -/

/-- `node_count`. -/
def nodeCount (st : OxidArt P V) : Nat := st.map.len

/-- Without entries no node has children: one of the lowest would have to branch. -/
theorem Forked.alone (F : Forked st) (I : Inv st [] path) (noEntry : ∀ key, st.entry key = none) {i : Nat} {n : Node V}
    (found : st.tryGetNode i = some n) : i = st.rootIdx := by
  by_contra inner
  obtain ⟨rank, lower⟩ := I.forest.acyclic
  obtain ⟨nodes, eq⟩ : ∃ nodes, nodes = st.map.cells.keys.toFinset.erase st.rootIdx := ⟨_, rfl⟩
  have member : ∀ {j m}, st.tryGetNode j = some m → j ≠ st.rootIdx → j ∈ nodes := fun occupied other => by
    rw [eq, Finset.mem_erase, List.mem_toFinset]
    exact ⟨other, TaggedHiSlab.mem_keys_of_get occupied⟩
  obtain ⟨j, inside, lowest⟩ := nodes.exists_max_image rank ⟨i, member found inner⟩
  rw [eq, Finset.mem_erase, List.mem_toFinset] at inside
  cases occupied : st.tryGetNode j with
  | none => exact TaggedHiSlab.get_eq_none_iff.1 occupied inside.2
  | some m =>
    obtain ⟨k, live⟩ := I.path_of_label (graph_label occupied)
    have blank : m.val = none := by
      have content := (I.entry_of_path live).symm.trans (noEntry k)
      rwa [content_eq occupied, Node.content, Option.map_eq_none_iff] at content
    have two := F j _ (view_eq occupied) (fun same => inside.1 (List.mem_singleton.1 same)) blank
    obtain ⟨q, link⟩ := List.exists_mem_of_length_pos (show 0 < (st.viewOf m).shelf.links.length by omega)
    rw [← iterAllChildren_view occupied] at link
    have edge := I.kids.find_iff.2 link
    obtain ⟨l, label⟩ := I.forest.kidOcc edge
    obtain ⟨c, below, -⟩ := graph_label_iff.1 label
    exact absurd (lower edge) (Nat.not_lt.2 (lowest _ (member below (I.kid_ne_root edge))))

theorem Forked.empties (F : Forked st) (I : Inv st [] path) (T : Tenanted st) (noEntry : ∀ key, st.entry key = none) :
    st.nodeCount = 1 ∧ st.overflowCount = 0 := by
  obtain ⟨root, found⟩ := I.root_node
  have only : ∀ i, i ∈ st.map.cells.keys ↔ i = st.rootIdx := by
    refine fun i => ⟨fun member => ?_, fun same => same ▸ TaggedHiSlab.mem_keys_of_get found⟩
    cases occupied : st.tryGetNode i with
    | none => exact absurd member (TaggedHiSlab.get_eq_none_iff.1 occupied)
    | some n => exact F.alone I noEntry occupied
  have keys : st.map.cells.keys = [st.rootIdx] :=
    List.perm_singleton.1 ((List.perm_ext_iff_of_nodup st.map.cells.keys_nodup (List.nodup_singleton _)).2 fun i => by
      rw [only, List.mem_singleton])
  have bare : (st.viewOf root).shelf.links = [] := by
    rw [← iterAllChildren_view found]
    refine List.eq_nil_iff_forall_not_mem.2 fun q link => ?_
    have edge := I.kids.find_iff.2 link
    obtain ⟨l, label⟩ := I.forest.kidOcc edge
    obtain ⟨c, below, -⟩ := graph_label_iff.1 label
    exact I.kid_ne_root edge (F.alone I noEntry below)
  have slot : root.overflowIdx = none := by
    rw [Shelf.links, List.append_eq_nil_iff, List.append_eq_nil_iff] at bare
    exact (slot_none_iff (TierInv.slotOk I.kids (tier_eq found))).2 bare.2
  refine ⟨congrArg List.length keys, ?_⟩
  rw [T.count, slotted, keys, List.countP_singleton, found, Option.bind_some, slot]
  rfl

/-- Where every removal finds the last link that it leaves, a node without a value other than the root has two children, and a store
without entries is the root alone, without overflow slots. -/
theorem run_branches {ops : List (TreeOp V)} {replies : List (TreeReply V)}
    (meets : Meets OxidArt.execTree (fun st op => op.Branching st ∧ st.LastInline op) ops (new : OxidArt P V))
    (ran : run OxidArt.execTree ops (new : OxidArt P V) = .ok (replies, st)) :
    (∀ i n, st.tryGetNode i = some n → i ≠ st.rootIdx → n.val = none → 2 ≤ (st.iterAllChildren i).length) ∧
      ((∀ key, st.entry key = none) → st.nodeCount = 1 ∧ st.overflowCount = 0) := by
  obtain ⟨⟨path, I⟩, T, F⟩ := reached_forked (Reaches.run .refl meets ran)
  refine ⟨fun i n found inner empty => ?_, F.empties I T⟩
  rw [iterAllChildren_view found]
  exact F i _ (view_eq found) (fun member => inner (List.mem_singleton.1 member)) empty

/-- One child more than the inline slots take. -/
def sevenChildren : List Bytes := [[120, 97], [120, 98], [120, 99], [120, 100], [120, 101], [120, 102], [120, 103]]

/-- The child in the overflow tier goes before the last inline one. -/
def trimmedRun : List (TreeOp Unit) :=
  sevenChildren.map (.set · ()) ++
    [.del [120, 97], .del [120, 103], .deln [120, 98], .del [120, 99], .del [120, 100], .del [120, 101], .del [120, 102]]

theorem run_branches_trimmedRun : ∃ replies st, run OxidArt.execTree trimmedRun (new : OxidArt .lowest Unit) = .ok (replies, st) ∧
    st.nodeCount = 1 ∧ st.overflowCount = 0 := by
  have meets : Meets OxidArt.execTree (fun st op => op.Branching st ∧ st.LastInline op) trimmedRun
      (new : OxidArt .lowest Unit) := by decide +kernel
  have seen : (run OxidArt.execTree trimmedRun (new : OxidArt .lowest Unit)).toOption.map
      (fun q => (q.2.map.cells.keys, q.2.content 0)) = some ([0], none) := by decide +kernel
  cases ran : run OxidArt.execTree trimmedRun (new : OxidArt .lowest Unit) with
  | error e =>
    rw [ran] at seen
    cases seen
  | ok q =>
    obtain ⟨replies, st⟩ := q
    rw [ran] at seen
    obtain ⟨keys, empty⟩ := Prod.mk.inj (Option.some.inj seen)
    refine ⟨replies, st, rfl, (run_branches meets ran).2 fun key => ?_⟩
    refine Option.bind_eq_none_iff.2 fun i _ => ?_
    by_cases top : i = 0
    · rw [top]
      exact empty
    · exact content_eq_none_of_free (TaggedHiSlab.get_eq_none_iff.2 (by rw [keys]; simpa using top))

/-- The six inline children go. -/
def sixGone : List (TreeOp Unit) := sevenChildren.map (.set · ()) ++ (sevenChildren.take 6).map .del

/-- Six of seven siblings go; the last one is in the overflow tier, and the node above it stays. -/
theorem del_leaves_single_child : ¬ ∀ (P : Policy) (V : Type) (ops : List (TreeOp V)) (replies : List (TreeReply V))
    (st : OxidArt P V), (∀ op ∈ ops, ∃ key, PlainKey key ∧ ((∃ v, op = .set key v) ∨ op = .del key ∨ op = .deln key)) →
    run OxidArt.execTree ops (new : OxidArt P V) = .ok (replies, st) →
    (∀ i n, st.tryGetNode i = some n → i ≠ st.rootIdx → n.val = none → 2 ≤ (st.iterAllChildren i).length) ∧
      ((∀ key, st.entry key = none) → st.nodeCount = 1 ∧ st.overflowCount = 0) := by
  intro all
  have plain : ∀ key ∈ sevenChildren, PlainKey key := by decide +kernel
  have seen : (run OxidArt.execTree sixGone (new : OxidArt .lowest Unit)).toOption.map (fun q => (q.2.rootIdx,
      (q.2.tryGetNode 1).map Node.val, (q.2.iterAllChildren 1).length)) = some (0, some none, 1) := by decide +kernel
  cases ran : run OxidArt.execTree sixGone (new : OxidArt .lowest Unit) with
  | error e =>
    rw [ran] at seen
    cases seen
  | ok q =>
    obtain ⟨replies, st⟩ := q
    rw [ran] at seen
    obtain ⟨root, seen⟩ := Prod.mk.inj (Option.some.inj seen)
    obtain ⟨node, length⟩ := Prod.mk.inj seen
    have single : (st.iterAllChildren 1).length = 1 := length
    obtain ⟨n, found, empty⟩ := Option.map_eq_some_iff.1 node
    have two := (all .lowest Unit _ replies st ?_ ran).1 1 n found (by rw [root]; decide) empty
    · omega
    · intro op member
      rcases List.mem_append.1 member with written | removed
      · obtain ⟨key, inside, rfl⟩ := List.mem_map.1 written
        exact ⟨key, plain key inside, .inl ⟨(), rfl⟩⟩
      · obtain ⟨key, inside, rfl⟩ := List.mem_map.1 removed
        exact ⟨key, plain key (List.mem_of_mem_take inside), .inr (.inl rfl)⟩

end OxidArt

end Radixox.Oxidart
