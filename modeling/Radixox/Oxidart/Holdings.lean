import Mathlib.Algebra.Order.Group.Multiset
import Radixox.Lib.Outcomes
import Radixox.Oxidart.Commands
import Radixox.Oxidart.Slots
import Radixox.Oxidart.Steps

/-!
# What the nodes hold

The tree moves values and never looks into them, so what it does with them is told by the multiset of the values that its nodes
hold: a write adds one and may replace another, a deletion takes one out, and a split or a recompression changes nothing. None of
this needs an invariant of the tree.
-/

namespace Radixox.Oxidart
set_option autoImplicit false
open Radixox.Outcomes

/-- At most one occurrence. -/
def occurrence {α : Type} (o : Option α) : Multiset α := ↑o.toList

@[simp] theorem occurrence_none {α : Type} : occurrence (none : Option α) = 0 := rfl

@[simp] theorem occurrence_some {α : Type} (a : α) : occurrence (some a) = {a} := rfl

theorem filterMap_cons_occurrence {α β : Type} (f : α → Option β) (a : α) (s : Multiset α) :
    (a ::ₘ s).filterMap f = occurrence (f a) + s.filterMap f := by
  cases read : f a with
  | none => rw [Multiset.filterMap_cons_none a s read, occurrence_none, zero_add]
  | some b => rw [Multiset.filterMap_cons_some f a s read, occurrence_some, Multiset.singleton_add]

theorem filterMap_occurrence {α β : Type} (f : α → Option β) (o : Option α) :
    (occurrence o).filterMap f = occurrence (o.bind f) := by
  cases o with
  | none => rfl
  | some a =>
    show (a ::ₘ 0).filterMap f = occurrence (f a)
    rw [filterMap_cons_occurrence, Multiset.filterMap_zero, add_zero]

/-! ## The items of a slab -/

namespace TaggedHiSlab

variable {P : Policy} {α : Type} {s : TaggedHiSlab P α} {i : Nat} {x : α}

/-- The items of the occupied slots. -/
def items (s : TaggedHiSlab P α) : Multiset α := ↑(s.cells.entries.map fun e => e.2.item)

/-- The indices of the occupied slots. -/
def occupied (s : TaggedHiSlab P α) : Multiset Nat := ↑s.cells.keys

theorem nodup_occupied (s : TaggedHiSlab P α) : s.occupied.Nodup := Multiset.coe_nodup.2 s.cells.keys_nodup

theorem mem_occupied : i ∈ s.occupied ↔ s.get i ≠ none := by
  rw [Ne, get_eq_none_iff, not_not]
  exact Multiset.mem_coe

theorem mem_items : x ∈ s.items ↔ ∃ i, s.get i = some x := by
  rw [items, Multiset.mem_coe, List.mem_map]
  constructor
  · rintro ⟨⟨i, y⟩, member, rfl⟩
    exact ⟨i, by rw [get, AList.mem_lookup_iff.2 member]; rfl⟩
  · rintro ⟨i, found⟩
    obtain ⟨y, read, rfl⟩ := Option.map_eq_some_iff.1 found
    exact ⟨⟨i, y⟩, AList.mem_lookup_iff.1 read, rfl⟩

theorem items_insertSlot (s : TaggedHiSlab P α) (y : Slot α) : (s.insertSlot y).items = y.item ::ₘ s.items := by
  have free : s.nextIdx ∉ s.cells.entries.keys := P.pick_free s.policy s.cells.keys
  have entries : (s.insertSlot y).cells.entries = ⟨s.nextIdx, y⟩ :: s.cells.entries :=
    congrArg (_ :: ·) (List.kerase_of_notMem_keys free)
  rw [items, entries]
  rfl

theorem occupied_insertSlot (s : TaggedHiSlab P α) (y : Slot α) : (s.insertSlot y).occupied = s.nextIdx ::ₘ s.occupied := by
  have free : s.nextIdx ∉ s.cells.keys := P.pick_free s.policy s.cells.keys
  show (↑(s.cells.insert s.nextIdx y).keys : Multiset Nat) = s.nextIdx ::ₘ ↑s.cells.keys
  rw [AList.keys_insert, List.erase_of_not_mem free, Multiset.cons_coe]

/-- An occupied slot is one of the entries, besides those that are left without it. -/
theorem entries_perm {y : Slot α} (read : s.cells.lookup i = some y) : s.cells.entries.Perm (⟨i, y⟩ :: (s.cells.erase i).entries) := by
  have key : i ∈ s.cells.entries.keys := AList.lookup_isSome.1 (by rw [read]; rfl)
  obtain ⟨y', before, after, -, split, erased⟩ := List.exists_of_kerase key
  have there : (⟨i, y'⟩ : Sigma fun _ : Nat => Slot α) ∈ s.cells.entries := by
    rw [split]
    exact List.mem_append_right _ List.mem_cons_self
  obtain rfl := Option.some.inj (read.symm.trans (AList.mem_lookup_iff.2 there))
  show s.cells.entries.Perm (_ :: List.kerase i s.cells.entries)
  rw [erased, split]
  exact List.perm_middle

theorem items_erase {y : Slot α} (read : s.cells.lookup i = some y) :
    s.items = y.item ::ₘ ↑((s.cells.erase i).entries.map fun e => e.2.item) :=
  Multiset.coe_eq_coe.2 ((entries_perm read).map _)

theorem items_modify {y : Slot α} (read : s.cells.lookup i = some y) (f : Slot α → Slot α) :
    y.item ::ₘ (s.modify i f).items = (f y).item ::ₘ s.items := by
  have after : (s.modify i f).items = (f y).item ::ₘ ↑((s.cells.erase i).entries.map fun e => e.2.item) := by
    unfold modify
    rw [read]
    rfl
  rw [after, items_erase read, Multiset.cons_swap]

theorem items_modify_same {f : Slot α → Slot α} (same : ∀ y, (f y).item = y.item) : (s.modify i f).items = s.items := by
  cases read : s.cells.lookup i with
  | none =>
    unfold modify
    rw [read]
  | some y => exact (Multiset.cons_inj_right y.item).1 ((items_modify read f).trans (by rw [same]))

@[simp] theorem items_tag : (s.tag i).items = s.items := items_modify_same fun _ => rfl

@[simp] theorem items_untag : (s.untag i).items = s.items := items_modify_same fun _ => rfl

/-- A write replaces an item. -/
theorem items_set (found : s.get i = some x) (x' : α) : x ::ₘ (s.set i x').items = x' ::ₘ s.items := by
  obtain ⟨y, read, rfl⟩ := Option.map_eq_some_iff.1 found
  exact items_modify read _

theorem items_remove (found : s.get i = some x) : s.items = x ::ₘ (s.remove i).2.items := by
  obtain ⟨y, read, rfl⟩ := Option.map_eq_some_iff.1 found
  exact items_erase read

theorem occupied_remove (found : s.get i = some x) : s.occupied = i ::ₘ (s.remove i).2.occupied := by
  have key : i ∈ s.cells.keys := mem_keys_of_get found
  show ↑s.cells.keys = i ::ₘ ↑(s.cells.erase i).keys
  rw [AList.keys_erase, Multiset.cons_coe]
  exact Multiset.coe_eq_coe.2 (List.perm_cons_erase key)

theorem occupied_set (s : TaggedHiSlab P α) (i : Nat) (x' : α) : (s.set i x').occupied = s.occupied := by
  unfold set modify
  cases read : s.cells.lookup i with
  | none => rfl
  | some y =>
    have key : i ∈ s.cells.keys := AList.lookup_isSome.1 (by rw [read]; rfl)
    show ↑(s.cells.insert i _).keys = (↑s.cells.keys : Multiset Nat)
    rw [AList.keys_insert]
    exact Multiset.coe_eq_coe.2 (List.perm_cons_erase key).symm

end TaggedHiSlab

/-! ## The values of the nodes -/

namespace OxidArt

variable {P : Policy} {V : Type} {st st' : OxidArt P V} {n n' : Node V} {i : Nat} {key : Bytes}

/-- The values that the nodes hold. -/
def holdings (st : OxidArt P V) : Multiset V := st.map.items.filterMap Node.val

theorem holdings_insertSlot (st : OxidArt P V) (y : Slot (Node V)) :
    ({ st with map := st.map.insertSlot y } : OxidArt P V).holdings = occurrence y.item.val + st.holdings := by
  show (st.map.insertSlot y).items.filterMap Node.val = _
  rw [TaggedHiSlab.items_insertSlot, filterMap_cons_occurrence]
  rfl

theorem holdings_insert (st : OxidArt P V) (n : Node V) : (st.insert n).2.holdings = occurrence n.val + st.holdings :=
  holdings_insertSlot st ⟨n, false⟩

theorem holdings_insertTagged (st : OxidArt P V) (n : Node V) : (st.insertTagged n).2.holdings = occurrence n.val + st.holdings :=
  holdings_insertSlot st ⟨n, true⟩

theorem holdings_insertEither {c : Prop} [Decidable c] {idx : Nat} (ran : (if c then st.insertTagged n else st.insert n) = (idx, st')) :
    st'.holdings = occurrence n.val + st.holdings := by
  split at ran
  · exact (Prod.mk.inj ran).2 ▸ holdings_insertTagged st n
  · exact (Prod.mk.inj ran).2 ▸ holdings_insert st n

/-- A write to a node replaces its value. -/
theorem holdings_setNode (found : st.tryGetNode i = some n) (n' : Node V) :
    occurrence n.val + (st.setNode i n').holdings = occurrence n'.val + st.holdings := by
  show occurrence n.val + (st.map.set i n').items.filterMap Node.val = occurrence n'.val + st.map.items.filterMap Node.val
  rw [← filterMap_cons_occurrence, ← filterMap_cons_occurrence, TaggedHiSlab.items_set found]

theorem holdings_removeNode (found : st.tryGetNode i = some n) : st.holdings = occurrence n.val + (st.removeNode i).holdings := by
  show st.map.items.filterMap Node.val = occurrence n.val + (st.map.remove i).2.items.filterMap Node.val
  rw [← filterMap_cons_occurrence, ← TaggedHiSlab.items_remove found]

theorem holdings_of_map (same : st'.map = st.map) : st'.holdings = st.holdings := by rw [holdings, same, holdings]

@[simp] theorem holdings_tag (st : OxidArt P V) (i : Nat) : ({ st with map := st.map.tag i } : OxidArt P V).holdings = st.holdings :=
  congrArg (Multiset.filterMap Node.val) TaggedHiSlab.items_tag

/-- A write that leaves the value of the node alone. -/
theorem holdings_setNode_same (found : st.tryGetNode i = some n) (same : n'.val = n.val) :
    (st.setNode i n').holdings = st.holdings := by
  have traded := holdings_setNode found n'
  rw [same] at traded
  exact add_left_cancel traded

theorem holdings_setNode_stores (found : st.tryGetNode i = some n) (arena : OverflowArena) (huge : HugeOvf P) (same : n'.val = n.val) :
    (({ st with overflowArena := arena, hugeOvf := huge } : OxidArt P V).setNode i n').holdings = st.holdings := by
  have found' : ({ st with overflowArena := arena, hugeOvf := huge } : OxidArt P V).tryGetNode i = some n := found
  exact holdings_setNode_same found' same

theorem holdings_clear (found : st.tryGetNode i = some n) : st.holdings = occurrence n.val + (st.setNode i n.clearVal).holdings := by
  have traded := holdings_setNode found n.clearVal
  rw [show n.clearVal.val = none from rfl, occurrence_none, zero_add] at traded
  exact traded.symm

/-! ## Links -/

theorem holdings_reparent (p : Nat) (l : Links) : ∀ st : OxidArt P V, (st.reparent p l).holdings = st.holdings := by
  induction l with
  | nil => exact fun _ => rfl
  | cons link rest ih =>
    intro st
    rw [OxidArt.reparent]
    split
    next n found =>
      refine (ih _).trans ?_
      exact holdings_setNode_same found rfl
    next => exact ih st

/-- A link is pushed by writing fields of the parent other than its value. -/
theorem holdings_pushChildIdx {p idx : Nat} {r : UInt8} (ran : st.pushChildIdx p idx r = .ok st') : st'.holdings = st.holdings := by
  obtain ⟨n, read, rest⟩ := exists_of_bind ran
  have found := tryGetNode_of_getNode read
  split at rest
  · obtain ⟨childs, -, same⟩ := exists_of_bind rest
    obtain rfl := Except.ok.inj same
    exact holdings_setNode_same found rfl
  · split at rest
    · obtain ⟨q, allocated, rest⟩ := exists_of_bind rest
      have same := Rewires.map_allocOverflowWithFirst allocated
      obtain ⟨n₁, read₁, same₁⟩ := exists_of_bind rest
      obtain rfl := Except.ok.inj same₁
      refine Eq.trans ?_ (holdings_of_map same)
      exact holdings_setNode_same (tryGetNode_of_getNode read₁) rfl
    · split at rest
      · cases rest
      · obtain ⟨q, -, same⟩ := exists_of_bind rest
        obtain rfl := Except.ok.inj same
        rfl

theorem holdings_removeChild (st : OxidArt P V) (p : Nat) (r : UInt8) : (st.removeChild p r).holdings = st.holdings := by
  unfold OxidArt.removeChild
  split
  · rfl
  next parent found =>
    split
    · exact holdings_setNode_same found rfl
    · split
      · rfl
      · split
        · rfl
        · dsimp only
          split
          · exact holdings_setNode_stores found _ _ rfl
          · exact holdings_of_map rfl

/-- The value of an absorbed child moves to the node. -/
theorem holdings_tryRecompress {x : Nat} (ran : st.tryRecompress x = .ok st') : st'.holdings = st.holdings := by
  rcases tryRecompress_cases st x with idle | ⟨n, r, y, child, found, empty, -, occupied, ⟨-, fails⟩ | ⟨other, merges⟩⟩
  · exact Except.ok.inj (idle.symm.trans ran) ▸ rfl
  · rw [fails] at ran
    cases ran
  · obtain rfl := Except.ok.inj (merges.symm.trans ran)
    have traded := holdings_setNode (tryGetNode_orphaned found other (st.iterAllChildren y))
      (merged (adopt x (st.iterAllChildren y) x n) r child)
    have moved : (st.absorbed x y r n child).holdings = occurrence child.val + ((st.removeNode y).reparent x (st.iterAllChildren y)).holdings := by
      obtain ⟨parent, same⟩ := adopt_eq x (st.iterAllChildren y) x n
      have none' : (adopt x (st.iterAllChildren y) x n).val = none := by rw [same, empty]
      rw [none', occurrence_none, zero_add] at traded
      exact traded
    rw [moved, holdings_reparent, ← holdings_removeNode occupied]

/-! ## Writing a key -/

theorem holdings_createNodeWithVal {p idx : Nat} {r : UInt8} {v : V} {c : Bytes} {ttl : Nat}
    (ran : st.createNodeWithVal p r v c ttl = .ok (idx, st')) : st'.holdings = {v} + st.holdings := by
  obtain ⟨father, found, rest⟩ := exists_of_bind ran
  obtain ⟨leaf, made, -⟩ := exists_of_bind rest
  obtain ⟨y, st₁, inserted, ins⟩ := inserted_either st leaf (ttl ≠ ExpAndRadix.noExp)
  rw [createNodeWithVal_inserts (tryGetNode_of_getNode found) made inserted ins] at ran
  obtain ⟨st₂, pushed, same⟩ := exists_of_map ran
  obtain ⟨-, rfl⟩ := Prod.mk.inj same
  have held : leaf.val = some v := by
    obtain ⟨e, -, shape⟩ := exists_of_bind made
    rw [← Except.ok.inj shape]
  rw [holdings_pushChildIdx pushed, holdings_insertEither inserted, held, occurrence_some]

/-- A new node without a value, under its parent. -/
theorem holdings_linkEmpty {c : Bytes} {p idx : Nat} {r : UInt8} (ran : (do
      let (idx, st) := st.insert (.newEmptyLeaf c p r)
      let st ← st.pushChildIdx p idx r
      return (idx, st)) = (Except.ok (idx, st') : Exec _)) : st'.holdings = st.holdings := by
  obtain ⟨st₁, pushed, same⟩ := exists_of_bind ran
  obtain ⟨-, rfl⟩ := Prod.mk.inj (Except.ok.inj same)
  refine (holdings_pushChildIdx pushed).trans ((holdings_insert st (.newEmptyLeaf c p r)).trans ?_)
  exact zero_add _

theorem holdings_splitLeaf {common x idx : Nat} {rest : Bytes} {ttl : Option Nat} {v : Option V}
    (ran : st.splitLeaf common rest x ttl v = .ok (idx, st')) : st'.holdings = occurrence v + st.holdings := by
  unfold splitLeaf at ran
  split at ran
  · cases ran
  · exact holdings_createNodeWithVal ran
  · exact (holdings_linkEmpty ran).trans (zero_add _).symm

theorem val_splitIntermediate {old node : Node V} {common : Nat} {onNode : Bool} {ttl : Option Nat} {v : Option V}
    (made : splitIntermediate old common onNode ttl v = .ok node) : node.val = if onNode then v else none := by
  cases onNode with
  | false =>
    obtain rfl := Except.ok.inj made
    rfl
  | true =>
    cases v with
    | none =>
      obtain rfl := Except.ok.inj made
      rfl
    | some v =>
      cases ttl with
      | none =>
        obtain rfl := Except.ok.inj made
        rfl
      | some t =>
        obtain ⟨e, -, shape⟩ := exists_of_bind made
        obtain rfl := Except.ok.inj shape
        rfl

/-- The value of a node that is split moves to the new child. -/
theorem holdings_splitNode {common x idx : Nat} {rest : Bytes} {ttl : Option Nat} {v : Option V}
    (ran : st.splitNode common rest x ttl v = .ok (idx, st')) : st'.holdings = occurrence v + st.holdings := by
  obtain ⟨old, read, ran⟩ := exists_of_bind ran
  obtain ⟨node, made, ran⟩ := exists_of_bind ran
  have found := tryGetNode_of_getNode read
  have val := val_splitIntermediate made
  dsimp only at ran
  split at ran
  · cases ran
  next r here =>
    obtain ⟨oldChild, eqc⟩ : ∃ oldChild : Node V, oldChild = { old with
      compression := old.compression.drop (common + 1)
      parentIdx := some x } := ⟨_, rfl⟩
    obtain ⟨y, st₁, inserted, -⟩ := inserted_either (st.setNode x node) oldChild old.expAndRadix.doesExpire
    simp only [← eqc, inserted] at ran
    obtain ⟨st₂, pushed, ran⟩ := exists_of_bind ran
    have moved : st₂.holdings = occurrence node.val + st.holdings := by
      rw [holdings_pushChildIdx pushed, holdings_insertEither inserted, eqc]
      exact holdings_setNode found node
    split at ran
    next onNode =>
      obtain ⟨-, rfl⟩ := Prod.mk.inj (Except.ok.inj ran)
      rw [moved, val, onNode, if_pos rfl]
    next inner =>
      rw [holdings_splitLeaf ran, moved, val, if_neg inner, occurrence_none, zero_add]

/-- The node that the walk to the key ends at. -/
def nodeOf (st : OxidArt P V) (key : Bytes) : Option (Node V) := (st.traverseToKey key).bind st.tryGetNode

theorem nodeOf_root (empty : key.isEmpty = true) : st.nodeOf key = st.tryGetNode st.rootIdx := by
  rw [nodeOf, traverseToKey, if_pos empty, Option.bind_some]

theorem nodeOf_found {i p : Nat} {r : UInt8} {path : Bytes} (nonempty : ¬ key.isEmpty = true)
    (walked : st.walk key = .found i p r path) : st.nodeOf key = st.tryGetNode i := by
  simp only [nodeOf, traverseToKey, if_neg nonempty, walked, Option.bind_some]

theorem nodeOf_lost (nonempty : ¬ key.isEmpty = true) (lost : ∀ i p r path, st.walk key ≠ .found i p r path) : st.nodeOf key = none := by
  unfold nodeOf traverseToKey
  rw [if_neg nonempty]
  split
  next i p r path walked => exact absurd walked (lost i p r path)
  next => rfl

/-- The value under the key, live or not. -/
def occupant (st : OxidArt P V) (key : Bytes) : Option V := (st.nodeOf key).bind Node.val

/-- The value under the key, if it has expired. -/
def lapsed (st : OxidArt P V) (key : Bytes) : Option V := (st.nodeOf key).bind fun n => if n.isExpired st.now then n.val else none

theorem holdings_part (found : st.tryGetNode i = some n) : ∃ rest, st.holdings = occurrence n.val + rest :=
  ⟨_, holdings_removeNode found⟩

theorem holdings_occupant (st : OxidArt P V) (key : Bytes) : ∃ rest, st.holdings = occurrence (st.occupant key) + rest := by
  cases target : st.traverseToKey key with
  | none => exact ⟨st.holdings, by rw [occupant, nodeOf, target, Option.bind_none]; exact (zero_add _).symm⟩
  | some i =>
    cases found : st.tryGetNode i with
    | none => exact ⟨st.holdings, by rw [occupant, nodeOf, target, Option.bind_some, found]; exact (zero_add _).symm⟩
    | some n =>
      rw [occupant, nodeOf, target, Option.bind_some, found]
      exact holdings_part found

theorem holdings_setVal {ttl : Nat} {v : V} (found : st.tryGetNode i = some n) (set : n.setVal v ttl = .ok n') :
    occurrence n.val + (st.setNode i n').holdings = {v} + st.holdings := by
  obtain ⟨e, -, shape⟩ := exists_of_bind set
  obtain rfl := Except.ok.inj shape
  exact holdings_setNode found _

/-- A write puts its value in the place of the occupant. -/
theorem holdings_setInternal {ttl : Nat} {v : V} (ran : st.setInternal key ttl v = .ok st') :
    occurrence (st.occupant key) + st'.holdings = {v} + st.holdings := by
  unfold setInternal at ran
  split at ran
  next empty =>
    obtain ⟨root, read, ran⟩ := exists_of_bind ran
    obtain ⟨root', set, same⟩ := exists_of_bind ran
    obtain rfl := Except.ok.inj same
    have found := tryGetNode_of_getNode read
    rw [occupant, nodeOf_root empty, found]
    exact holdings_setVal found set
  next nonempty =>
    split at ran
    next i r rest walked =>
      obtain ⟨q, made, same⟩ := exists_of_bind ran
      obtain rfl := Except.ok.inj same
      rw [occupant, nodeOf_lost nonempty (by rw [walked]; nofun), holdings_createNodeWithVal made]
      exact zero_add _
    · cases ran
    · cases ran
    next i p r path walked =>
      obtain ⟨n, read, ran⟩ := exists_of_bind ran
      obtain ⟨n', set, same⟩ := exists_of_bind ran
      obtain rfl := Except.ok.inj same
      have found := tryGetNode_of_getNode read
      rw [occupant, nodeOf_found nonempty walked, found]
      exact holdings_setVal found set
    next i p r common rest path walked =>
      obtain ⟨q, split, same⟩ := exists_of_bind ran
      obtain rfl := Except.ok.inj same
      rw [occupant, nodeOf_lost nonempty (by rw [walked]; nofun), holdings_splitNode split]
      exact zero_add _

/-- The node of a key that gets one comes without a value. -/
theorem holdings_ensureKey (ran : st.ensureKey key = .ok (i, st')) : st'.holdings = st.holdings := by
  unfold ensureKey at ran
  split at ran
  · exact (Prod.mk.inj (Except.ok.inj ran)).2 ▸ rfl
  · split at ran
    · unfold ensure at ran
      split at ran
      · exact holdings_linkEmpty ran
      · cases ran
    · cases ran
    · exact (Prod.mk.inj (Except.ok.inj ran)).2 ▸ rfl
    · exact (holdings_splitNode ran).trans (zero_add _)

theorem holdings_putVal {v : V} (found : st.tryGetNode i = some n) (ran : st.putVal i v = .ok st') :
    occurrence n.val + st'.holdings = {v} + st.holdings := by
  obtain ⟨n', read, same⟩ := exists_of_bind ran
  obtain rfl := Except.ok.inj same
  obtain rfl := Option.some.inj (found.symm.trans (tryGetNode_of_getNode read))
  exact holdings_setNode found _

/-! ## Deleting -/

theorem holdings_clearNode (found : st.tryGetNode i = some n) (ran : (st.setNode i n.clearVal).tryRecompress i = .ok st') :
    st.holdings = occurrence n.val + st'.holdings := by
  rw [holdings_tryRecompress ran]
  exact holdings_clear found

/-- A leaf leaves the tree with its value. -/
theorem holdings_removeLeaf {p : Nat} {r : UInt8} (found : st.tryGetNode i = some n)
    (ran : (if p ≠ ((st.removeNode i).removeChild p r).rootIdx then ((st.removeNode i).removeChild p r).tryRecompress p
      else .ok ((st.removeNode i).removeChild p r)) = .ok st') : st.holdings = occurrence n.val + st'.holdings := by
  have kept : st'.holdings = ((st.removeNode i).removeChild p r).holdings := by
    split at ran
    · exact holdings_tryRecompress ran
    · exact Except.ok.inj ran ▸ rfl
  rw [kept, holdings_removeChild]
  exact holdings_removeNode found

theorem holdings_deleteNodeInline {p : Nat} {r : UInt8} (found : st.tryGetNode i = some n)
    (ran : st.deleteNodeInline i p r = .ok st') : st.holdings = occurrence n.val + st'.holdings := by
  unfold deleteNodeInline at ran
  simp only [getNode_ok found, bind, Except.bind, pure, Except.pure] at ran
  split at ran
  · exact holdings_clearNode found ran
  · exact holdings_removeLeaf found ran

/-- A lookup drops the value that it finds expired. -/
theorem holdings_getIdx {at' : Option Nat} (ran : st.getIdx key = .ok (at', st')) :
    st.holdings = occurrence (st.lapsed key) + st'.holdings := by
  unfold getIdx at ran
  split at ran
  next empty =>
    obtain ⟨root, read, ran⟩ := exists_of_bind ran
    have found := tryGetNode_of_getNode read
    rw [lapsed, nodeOf_root empty, found, Option.bind_some]
    split at ran
    next past =>
      obtain ⟨st₁, cleared, same⟩ := exists_of_bind ran
      obtain ⟨-, rfl⟩ := Prod.mk.inj (Except.ok.inj same)
      rw [if_pos past]
      exact holdings_clearNode found cleared
    next current =>
      obtain ⟨-, rfl⟩ := Prod.mk.inj (Except.ok.inj ran)
      rw [if_neg current, occurrence_none, zero_add]
  next nonempty =>
    split at ran
    next i p r path walked =>
      obtain ⟨n, read, ran⟩ := exists_of_bind ran
      have found := tryGetNode_of_getNode read
      rw [lapsed, nodeOf_found nonempty walked, found, Option.bind_some]
      split at ran
      next past =>
        obtain ⟨st₁, deleted, same⟩ := exists_of_bind ran
        obtain ⟨-, rfl⟩ := Prod.mk.inj (Except.ok.inj same)
        rw [if_pos past]
        exact holdings_deleteNodeInline found deleted
      next current =>
        obtain ⟨-, rfl⟩ := Prod.mk.inj (Except.ok.inj ran)
        rw [if_neg current, occurrence_none, zero_add]
    next lost =>
      obtain ⟨-, rfl⟩ := Prod.mk.inj (Except.ok.inj ran)
      rw [lapsed, nodeOf_lost nonempty lost]
      exact (zero_add _).symm

theorem holdings_get {v : Option V} (ran : st.get key = .ok (v, st')) : st.holdings = occurrence (st.lapsed key) + st'.holdings := by
  obtain ⟨⟨at', st₁⟩, looked, ran⟩ := exists_of_bind ran
  refine (holdings_getIdx looked).trans ?_
  cases at' with
  | none =>
    obtain ⟨-, rfl⟩ := Prod.mk.inj (Except.ok.inj ran)
    rfl
  | some i =>
    obtain ⟨n, -, same⟩ := exists_of_bind ran
    obtain ⟨-, rfl⟩ := Prod.mk.inj (Except.ok.inj same)
    rfl

/-- A deletion hands out the value that it takes from the tree. -/
theorem holdings_del {v : Option V} (ran : st.del key = .ok (v, st')) : st.holdings = occurrence v + st'.holdings := by
  unfold del at ran
  split at ran
  · obtain ⟨root, read, ran⟩ := exists_of_bind ran
    obtain ⟨st₁, cleared, same⟩ := exists_of_bind ran
    obtain ⟨rfl, rfl⟩ := Prod.mk.inj (Except.ok.inj same)
    exact holdings_clearNode (tryGetNode_of_getNode read) cleared
  · split at ran
    next i p r path walked =>
      obtain ⟨n, read, ran⟩ := exists_of_bind ran
      have found := tryGetNode_of_getNode read
      split at ran
      · split at ran
        next none' =>
          obtain ⟨rfl, rfl⟩ := Prod.mk.inj (Except.ok.inj ran)
          exact (zero_add _).symm
        next old held =>
          obtain ⟨st₁, cleared, same⟩ := exists_of_bind ran
          obtain ⟨rfl, rfl⟩ := Prod.mk.inj (Except.ok.inj same)
          rw [← held]
          exact holdings_clearNode found cleared
      · obtain ⟨st₁, removed, same⟩ := exists_of_optional ran
        obtain ⟨rfl, rfl⟩ := Prod.mk.inj (Except.ok.inj same)
        exact holdings_removeLeaf found removed
    · obtain ⟨rfl, rfl⟩ := Prod.mk.inj (Except.ok.inj ran)
      exact (zero_add _).symm

/-! ## Freeing subtrees -/

theorem holdings_freeNode {children : List Nat} {hasVal : Bool} (ran : st.freeNode i = some (children, hasVal, st')) :
    st.holdings = occurrence ((st.tryGetNode i).bind Node.val) + st'.holdings := by
  cases found : st.tryGetNode i with
  | none =>
    simp only [freeNode, found] at ran
    cases ran
  | some n =>
    simp only [freeNode, found, Option.some.injEq, Prod.mk.injEq] at ran
    obtain ⟨-, -, rfl⟩ := ran
    split <;> exact holdings_removeNode found

/-- The values that the freeing loop drops, node after node. -/
def freedValues : Nat → OxidArt P V → List Nat → List V
  | 0, _, _ => []
  | fuel + 1, st, stack => match stack.getLast? with
    | none => []
    | some i => match st.freeNode i with
      | none => freedValues fuel st stack.dropLast
      | some (children, _, st') => ((st.tryGetNode i).bind Node.val).toList ++ freedValues fuel st' (stack.dropLast ++ children)

theorem holdings_freeLoop (fuel : Nat) : ∀ (st : OxidArt P V) (stack : List Nat) (count : Nat),
    st.holdings = ↑(freedValues fuel st stack) + (freeLoop fuel none st stack count).2.2.holdings := by
  induction fuel with
  | zero => exact fun st _ _ => (zero_add _).symm
  | succ fuel ih =>
    intro st stack count
    unfold freedValues freeLoop
    rw [if_neg nofun]
    cases top : stack.getLast? with
    | none => exact (zero_add _).symm
    | some i =>
      cases freed : st.freeNode i with
      | none =>
        simp only [freed]
        exact ih st _ _
      | some q =>
        obtain ⟨children, hasVal, st'⟩ := q
        simp only [freed]
        rw [holdings_freeNode freed, ih st' (stack.dropLast ++ children), ← Multiset.coe_add, add_assoc]
        rfl

/-- The values of the subtrees below the nodes. -/
def subtreeValues (st : OxidArt P V) (nodes : List Nat) : List V := freedValues (st.freeFuel nodes) st nodes

theorem holdings_freeSubtreeIterative (st : OxidArt P V) (nodes : List Nat) :
    st.holdings = ↑(st.subtreeValues nodes) + (st.freeSubtreeIterative nodes).2.holdings := holdings_freeLoop _ st nodes 0

/-- The values that a deletion by prefix drops with their nodes. -/
def delnValues (st : OxidArt P V) (pfx : Bytes) : List V :=
  if pfx.isEmpty then match st.tryGetNode st.rootIdx with
    | none => []
    | some root => (st.setNode st.rootIdx { root.clearVal with childs := .default }).subtreeValues (st.collectChildIndices st.rootIdx)
  else match st.walk pfx with
    | .found target parent radix _ => (st.removeChild parent radix).subtreeValues [target]
    | .partialAt target parent radix common rest _ =>
      if common = rest.length then (st.removeChild parent radix).subtreeValues [target] else []
    | _ => []

theorem holdings_delnSubtree {target parent count : Nat} {radix : UInt8} (ran : st.delnSubtree target parent radix = .ok (count, st')) :
    st.holdings = ↑((st.removeChild parent radix).subtreeValues [target]) + st'.holdings := by
  rw [← holdings_removeChild st parent radix, holdings_freeSubtreeIterative _ [target]]
  unfold delnSubtree at ran
  obtain ⟨st₁, recompressed, same⟩ := exists_of_optional ran
  obtain ⟨-, rfl⟩ := Prod.mk.inj (Except.ok.inj same)
  refine congrArg (_ + ·) ?_
  split at recompressed
  · exact (holdings_tryRecompress recompressed).symm
  · exact congrArg holdings (Except.ok.inj recompressed)

/-- With the empty prefix, the value of the root is taken out as well. -/
theorem holdings_deln {pfx : Bytes} {count : Nat} (ran : st.deln pfx = .ok (count, st')) :
    st.holdings = occurrence (if pfx.isEmpty then st.occupant pfx else none) + (↑(st.delnValues pfx) + st'.holdings) := by
  unfold deln at ran
  unfold delnValues
  split at ran
  next empty =>
    obtain ⟨root, read, same⟩ := exists_of_bind ran
    obtain ⟨-, rfl⟩ := Prod.mk.inj (Except.ok.inj same)
    have found := tryGetNode_of_getNode read
    rw [if_pos empty, if_pos empty, occupant, nodeOf_root empty, found]
    have traded := holdings_setNode found { root.clearVal with childs := .default }
    rw [show ({ root.clearVal with childs := .default } : Node V).val = none from rfl, occurrence_none, zero_add] at traded
    rw [← traded]
    exact congrArg (occurrence root.val + ·) (holdings_freeSubtreeIterative _ _)
  next nonempty =>
    rw [if_neg nonempty, if_neg nonempty, occurrence_none, zero_add]
    cases walked : st.walk pfx with
    | found target parent radix path =>
      rw [walked] at ran
      exact holdings_delnSubtree ran
    | partialAt target parent radix common rest path =>
      simp only [walked] at ran ⊢
      split at ran
      next whole =>
        rw [if_pos whole]
        exact holdings_delnSubtree ran
      next inside =>
        obtain ⟨-, rfl⟩ := Prod.mk.inj (Except.ok.inj ran)
        rw [if_neg inside]
        exact (zero_add _).symm
    | noChild | gone =>
      rw [walked] at ran
      obtain ⟨-, rfl⟩ := Prod.mk.inj (Except.ok.inj ran)
      exact (zero_add _).symm

/-! ## Containers -/

theorem lapsed_of_dead (dead : n.getValue st.now = none) (here : st.nodeOf key = some n) : st.lapsed key = n.val := by
  rw [lapsed, here, Option.bind_some]
  unfold Node.getValue at dead
  split at dead
  next past => rw [if_pos past]
  next current => rw [if_neg current, dead]

theorem lapsed_of_live {v : V} (live : n.getValue st.now = some v) (here : st.nodeOf key = some n) : st.lapsed key = none := by
  rw [lapsed, here, Option.bind_some]
  unfold Node.getValue at live
  split at live
  next => cases live
  next current => rw [if_neg current]

/-- The node that `ensure_key` gives holds the value under the key, if there is one. -/
theorem val_ensureKey (ensured : st.ensureKey key = .ok (i, st')) (found : st'.tryGetNode i = some n) :
    st' = st ∧ st.nodeOf key = some n ∨ st.nodeOf key = none ∧ n.val = none := by
  rcases ensureKey_node ensured with ⟨rfl, target⟩ | ⟨none', blank⟩
  · exact .inl ⟨rfl, by rw [nodeOf, target, Option.bind_some, found]⟩
  · exact .inr ⟨by rw [nodeOf, none', Option.bind_none], (blank n found).1⟩

/-- The container that a call has made. -/
def madeBy (empty : V) : Except TypeError (Nat × V × Bool) → Option V
  | .ok (_, _, true) => some empty
  | _ => none

/-- A new container takes the place of the value that has expired under its key. -/
theorem holdings_getOrCreate {isContainer : V → Bool} {empty : V} {ttl : Option Nat} {res : Except TypeError (Nat × V × Bool)}
    (ran : st.getOrCreate isContainer empty ttl key = .ok (res, st')) :
    occurrence (st.lapsed key) + st'.holdings = occurrence (madeBy empty res) + st.holdings := by
  obtain ⟨⟨i, st₁⟩, ensured, ran⟩ := exists_of_bind ran
  obtain ⟨n, read, ran⟩ := exists_of_bind ran
  have found := tryGetNode_of_getNode read
  have kept := holdings_ensureKey ensured
  have held := val_ensureKey ensured found
  dsimp only at ran
  cases seen : n.getValue st₁.now with
  | some v =>
    have current : st.lapsed key = none := by
      rcases held with ⟨rfl, here⟩ | ⟨none', -⟩
      · exact lapsed_of_live seen here
      · rw [lapsed, none', Option.bind_none]
    simp only [seen] at ran
    rw [current]
    split at ran <;>
    · obtain ⟨rfl, rfl⟩ := Prod.mk.inj (Except.ok.inj ran)
      exact congrArg (0 + ·) kept
  | none =>
    have past : st.lapsed key = n.val := by
      rcases held with ⟨rfl, here⟩ | ⟨none', blank⟩
      · exact lapsed_of_dead seen here
      · rw [lapsed, none', Option.bind_none, blank]
    simp only [seen] at ran
    have put (e : ExpAndRadix) : occurrence n.val + (st₁.setNode i { n with val := some empty, expAndRadix := e }).holdings =
        occurrence (some empty) + st.holdings := by
      rw [← kept]
      exact holdings_setNode found _
    rw [past]
    cases ttl <;>
    · obtain ⟨e, -, ran⟩ := exists_of_bind ran
      split at ran
      · obtain ⟨rfl, rfl⟩ := Prod.mk.inj (Except.ok.inj ran)
        exact put e
      · cases ran

end OxidArt

end Radixox.Oxidart
