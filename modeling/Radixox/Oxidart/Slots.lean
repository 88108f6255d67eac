import Radixox.Lib.Outcomes
import Radixox.Oxidart.Expiry
import Radixox.Oxidart.Surgery

/-!
# Node by node

Some invariants speak of each node apart from the others: of its value, its expiry and its tag in the slab. `EverySlot` is their shape.
The functions that move links leave all three alone (`Rewires`), so only a write, an insertion and a recompression need an argument.
-/

namespace Radixox.Oxidart
set_option autoImplicit false
open Radixox.Outcomes

namespace OxidArt

variable {P : Policy} {V : Type} {st st' : OxidArt P V}

/-- Every occupied slot, with its tag, meets `Q`. -/
def EverySlot (Q : Node V → Bool → Prop) (st : OxidArt P V) : Prop := ∀ i n, st.tryGetNode i = some n → Q n (st.map.isTagged i)

/-- `Q` looks at the value, the expiry and the tag only. -/
def IgnoresLinks (Q : Node V → Bool → Prop) : Prop :=
  ∀ (n n' : Node V) (tagged : Bool), n'.val = n.val → n'.expAndRadix = n.expAndRadix → Q n tagged → Q n' tagged

/-- An insertion leaves the other tags alone. -/
theorem isTagged_insertEither {n : Node V} {c : Prop} [Decidable c] {idx j : Nat}
    (ran : (if c then st.insertTagged n else st.insert n) = (idx, st')) (other : j ≠ idx) :
    st'.map.isTagged j = st.map.isTagged j := by
  split at ran
  · obtain ⟨rfl, rfl⟩ := Prod.mk.inj ran
    exact (TaggedHiSlab.isTagged_insertSlot st.map ⟨n, true⟩ j).trans (if_neg other)
  · obtain ⟨rfl, rfl⟩ := Prod.mk.inj ran
    exact (TaggedHiSlab.isTagged_insertSlot st.map ⟨n, false⟩ j).trans (if_neg other)

/-- The nodes of `st'` are nodes of `st`, with the value, the expiry and the tag they had. -/
structure Rewires (st st' : OxidArt P V) : Prop where
  node : ∀ {i n'}, st'.tryGetNode i = some n' → ∃ n, st.tryGetNode i = some n ∧ n'.val = n.val ∧ n'.expAndRadix = n.expAndRadix
  tag : ∀ {i n'}, st'.tryGetNode i = some n' → st'.map.isTagged i = st.map.isTagged i

namespace Rewires

theorem of_map (same : st'.map = st.map) : Rewires st st' := by
  refine ⟨fun {i n'} found => ⟨n', ?_, rfl, rfl⟩, fun _ => by rw [same]⟩
  rw [tryGetNode, ← same]
  exact found

theorem refl (st : OxidArt P V) : Rewires st st := of_map rfl

theorem trans {st'' : OxidArt P V} (first : Rewires st st') (second : Rewires st' st'') : Rewires st st'' := by
  refine ⟨fun found => ?_, fun found => ?_⟩
  · obtain ⟨m, found', val, exp⟩ := second.node found
    obtain ⟨n, found'', val', exp'⟩ := first.node found'
    exact ⟨n, found'', val.trans val', exp.trans exp'⟩
  · obtain ⟨m, found', -⟩ := second.node found
    exact (second.tag found).trans (first.tag found')

theorem setNode {i : Nat} {n n' : Node V} (found : st.tryGetNode i = some n) (val : n'.val = n.val)
    (exp : n'.expAndRadix = n.expAndRadix) : Rewires st (st.setNode i n') := by
  refine ⟨fun {j m} read => ?_, fun _ => TaggedHiSlab.isTagged_set _ _ _ _⟩
  rw [tryGetNode_setNode, found, Option.map_some] at read
  split at read
  next here => exact ⟨n, here ▸ found, Option.some.inj read ▸ val, Option.some.inj read ▸ exp⟩
  next => exact ⟨m, read, rfl, rfl⟩

theorem setNode_stores {i : Nat} {n n' : Node V} (found : st.tryGetNode i = some n) (arena : OverflowArena) (huge : HugeOvf P)
    (val : n'.val = n.val) (exp : n'.expAndRadix = n.expAndRadix) :
    Rewires st (({ st with overflowArena := arena, hugeOvf := huge } : OxidArt P V).setNode i n') := by
  have found' : ({ st with overflowArena := arena, hugeOvf := huge } : OxidArt P V).tryGetNode i = some n := found
  have same : ({ st with overflowArena := arena, hugeOvf := huge } : OxidArt P V).map = st.map := rfl
  exact (of_map same).trans (setNode found' val exp)

theorem removeNode (st : OxidArt P V) (i : Nat) : Rewires st (st.removeNode i) := by
  refine ⟨fun {j m} read => ?_, fun {j m} read => ?_⟩
  · rw [tryGetNode_removeNode] at read
    split at read
    · cases read
    · exact ⟨m, read, rfl, rfl⟩
  · rw [tryGetNode_removeNode] at read
    refine (TaggedHiSlab.isTagged_remove _ _ _).trans ?_
    split at read
    · cases read
    next other => rw [if_neg other]

theorem reparent (p : Nat) (l : Links) : ∀ st : OxidArt P V, Rewires st (st.reparent p l) := by
  induction l with
  | nil => exact refl
  | cons link rest ih =>
    intro st
    rw [OxidArt.reparent]
    split
    next n found =>
      refine trans ?_ (ih _)
      exact setNode found rfl rfl
    next => exact ih st

theorem map_allocOverflowWithFirst {r : UInt8} {i slot : Nat} (ran : st.allocOverflowWithFirst r i = .ok (slot, st')) :
    st'.map = st.map := by
  unfold allocOverflowWithFirst at ran
  cases alloc : st.overflowArena.alloc with
  | error => rw [alloc] at ran; cases ran
  | ok p =>
    simp only [alloc, bind, Except.bind] at ran
    split at ran
    · cases ran
    · split at ran
      · cases ran
      · obtain ⟨-, rfl⟩ := Prod.mk.inj (Except.ok.inj ran)
        rfl

theorem pushChildIdx {p idx : Nat} {r : UInt8} (ran : st.pushChildIdx p idx r = .ok st') : Rewires st st' := by
  cases found : st.tryGetNode p with
  | none =>
    unfold OxidArt.pushChildIdx getNode at ran
    rw [found] at ran
    cases ran
  | some n =>
    unfold OxidArt.pushChildIdx at ran
    simp only [getNode_ok found, bind, Except.bind, pure, Except.pure] at ran
    split at ran
    · cases pushed : n.childs.push r idx with
      | error e =>
        rw [pushed] at ran
        cases ran
      | ok c =>
        rw [pushed] at ran
        exact Except.ok.inj ran ▸ setNode found rfl rfl
    · cases slot : n.overflowIdx with
      | none =>
        cases allocated : st.allocOverflowWithFirst r idx with
        | error e =>
          simp only [slot, allocated] at ran
          cases ran
        | ok q =>
          obtain ⟨s, st₁⟩ := q
          have same := map_allocOverflowWithFirst allocated
          have found₁ : st₁.tryGetNode p = some n := by rw [tryGetNode, same, ← found, tryGetNode]
          simp only [slot, allocated, getNode_ok found₁] at ran
          exact Except.ok.inj ran ▸ (of_map same).trans (setNode found₁ rfl rfl)
      | some s =>
        cases read : st.overflowArena.get s with
        | none =>
          simp only [slot, read] at ran
          cases ran
        | some o =>
          simp only [slot, read] at ran
          cases pushed : o.push st.hugeOvf r idx with
          | error e =>
            rw [pushed] at ran
            cases ran
          | ok q =>
            rw [pushed] at ran
            exact Except.ok.inj ran ▸ of_map rfl

theorem removeChild (st : OxidArt P V) (p : Nat) (r : UInt8) : Rewires st (st.removeChild p r) := by
  unfold OxidArt.removeChild
  split
  · exact refl st
  next parent found =>
    split
    · exact setNode found rfl rfl
    · split
      · exact refl st
      · split
        · exact refl st
        · dsimp only
          split
          · exact setNode_stores found _ _ rfl rfl
          · exact of_map rfl

end Rewires

/-! ## The node of a key that gets one -/

section Blank

variable {c : Bytes} {p idx x common : Nat} {r : UInt8} {rest : Bytes} {ttl : Option Nat}

theorem blank_newEmptyLeaf (c : Bytes) (p : Nat) (r : UInt8) :
    (Node.newEmptyLeaf c p r : Node V).val = none ∧ (Node.newEmptyLeaf c p r : Node V).expAndRadix.exp = none :=
  ⟨rfl, ExpAndRadix.exp_noExpiracy r⟩

/-- A rewired node is as blank as it was. -/
theorem Rewires.blank (R : Rewires st st') {i : Nat} {n : Node V} (before : st.tryGetNode i = some n)
    (blank : n.val = none ∧ n.expAndRadix.exp = none) : ∀ n', st'.tryGetNode i = some n' → n'.val = none ∧ n'.expAndRadix.exp = none := by
  intro n' found
  obtain ⟨m, before', val, exp⟩ := R.node found
  obtain rfl := Option.some.inj (before'.symm.trans before)
  exact ⟨val.trans blank.1, exp.symm ▸ blank.2⟩

theorem linkEmpty_blank (ran : (do
      let (idx, st) := st.insert (.newEmptyLeaf c p r)
      let st ← st.pushChildIdx p idx r
      return (idx, st)) = (Except.ok (idx, st') : Exec _)) :
    ∀ n, st'.tryGetNode idx = some n → n.val = none ∧ n.expAndRadix.exp = none := by
  obtain ⟨st₁, pushed, same⟩ := exists_of_bind ran
  obtain ⟨rfl, rfl⟩ := Prod.mk.inj (Except.ok.inj same)
  refine (Rewires.pushChildIdx pushed).blank ?_ (blank_newEmptyLeaf c p r)
  exact (tryGetNode_insert st (.newEmptyLeaf c p r) _).trans (if_pos rfl)

theorem splitIntermediate_blank {old node : Node V} {onNode : Bool} (made : splitIntermediate old common onNode ttl none = .ok node) :
    node.val = none ∧ node.expAndRadix.exp = none := by
  cases onNode <;>
  · obtain rfl := Except.ok.inj made
    exact ⟨rfl, ExpAndRadix.exp_setNoExpiracy old.expAndRadix⟩

/-- The old content goes down to a new node; a split without a value hands out a node that is blank. -/
theorem splitNode_blank (ran : st.splitNode common rest x ttl none = .ok (idx, st')) :
    ∀ n, st'.tryGetNode idx = some n → n.val = none ∧ n.expAndRadix.exp = none := by
  obtain ⟨old, read, ran⟩ := exists_of_bind ran
  obtain ⟨node, made, ran⟩ := exists_of_bind ran
  have found := tryGetNode_of_getNode read
  have blank := splitIntermediate_blank made
  dsimp only at ran
  split at ran
  · cases ran
  next s here =>
    obtain ⟨oldChild, eqc⟩ : ∃ oldChild : Node V, oldChild = { old with
      compression := old.compression.drop (common + 1)
      parentIdx := some x } := ⟨_, rfl⟩
    obtain ⟨y, st₁, inserted, ins⟩ := inserted_either (st.setNode x node) oldChild old.expAndRadix.doesExpire
    simp only [← eqc, inserted] at ran
    obtain ⟨st₂, pushed, ran⟩ := exists_of_bind ran
    split at ran
    · obtain ⟨rfl, rfl⟩ := Prod.mk.inj (Except.ok.inj ran)
      have there : (st.setNode x node).tryGetNode x = some node := by
        rw [tryGetNode_setNode, if_pos rfl, found]
        rfl
      refine (Rewires.pushChildIdx pushed).blank ?_ blank
      rw [ins.nodes, if_neg (ins.ne there), there]
    · unfold splitLeaf at ran
      split at ran
      · cases ran
      next none' => cases none'
      · exact linkEmpty_blank ran

/-- `ensure_key` gives the node that a traversal finds, or a blank one. -/
theorem ensureKey_node {key : Bytes} {i : Nat} (ran : st.ensureKey key = .ok (i, st')) :
    st' = st ∧ st.traverseToKey key = some i ∨
      st.traverseToKey key = none ∧ ∀ n, st'.tryGetNode i = some n → n.val = none ∧ n.expAndRadix.exp = none := by
  unfold ensureKey at ran
  unfold traverseToKey
  split at ran
  next empty =>
    obtain ⟨rfl, rfl⟩ := Prod.mk.inj (Except.ok.inj ran)
    exact .inl ⟨rfl, if_pos empty⟩
  next nonempty =>
    rw [if_neg nonempty]
    cases walked : st.walk key with
    | found j p r path =>
      rw [walked] at ran
      obtain ⟨rfl, rfl⟩ := Prod.mk.inj (Except.ok.inj ran)
      exact .inl ⟨rfl, rfl⟩
    | partialAt j p r common rest path =>
      rw [walked] at ran
      exact .inr ⟨rfl, splitNode_blank ran⟩
    | noChild j rest =>
      rw [walked] at ran
      cases rest with
      | nil => cases ran
      | cons r rest => exact .inr ⟨rfl, linkEmpty_blank ran⟩
    | gone j =>
      rw [walked] at ran
      cases ran

end Blank

/-! ## What the writes have to respect -/

namespace EverySlot

variable {Q : Node V → Bool → Prop} (H : EverySlot Q st)

include H

theorem rewires (blind : IgnoresLinks Q) (R : Rewires st st') : EverySlot Q st' := by
  intro i n' found
  obtain ⟨n, before, val, exp⟩ := R.node found
  rw [R.tag found]
  exact blind n n' _ val exp (H i n before)

theorem setNode {i : Nat} {n' : Node V} (here : Q n' (st.map.isTagged i)) : EverySlot Q (st.setNode i n') := by
  intro j m found
  have tag : (st.setNode i n').map.isTagged j = st.map.isTagged j := TaggedHiSlab.isTagged_set _ _ _ _
  rw [tag]
  rw [tryGetNode_setNode] at found
  split at found
  next same =>
    obtain ⟨-, -, rfl⟩ := Option.map_eq_some_iff.1 found
    exact same ▸ here
  next => exact H j m found

theorem insertSlot {n : Node V} {tagged : Bool} (here : Q n tagged) : EverySlot Q { st with map := st.map.insertSlot ⟨n, tagged⟩ } := by
  intro j m found
  have tag := TaggedHiSlab.isTagged_insertSlot st.map ⟨n, tagged⟩ j
  rw [tryGetNode, TaggedHiSlab.get_insertSlot] at found
  rw [tag]
  split at found
  next same =>
    rw [if_pos same, ← Option.some.inj found]
    exact here
  next other =>
    rw [if_neg other]
    exact H j m found

theorem insert {n : Node V} (here : Q n false) : EverySlot Q (st.insert n).2 := H.insertSlot here

theorem insertTagged {n : Node V} (here : Q n true) : EverySlot Q (st.insertTagged n).2 := H.insertSlot here

theorem insertEither {n : Node V} {c : Prop} [Decidable c] (yes : c → Q n true) (no : ¬ c → Q n false) {idx : Nat}
    (ran : (if c then st.insertTagged n else st.insert n) = (idx, st')) : EverySlot Q st' := by
  split at ran
  next holds =>
    obtain ⟨-, rfl⟩ := Prod.mk.inj ran
    exact H.insertTagged (yes holds)
  next fails =>
    obtain ⟨-, rfl⟩ := Prod.mk.inj ran
    exact H.insert (no fails)

/-- A write to a node that is then tagged. -/
theorem setNode_tag {i : Nat} {n' : Node V} (here : Q n' true) :
    EverySlot Q { st.setNode i n' with map := (st.setNode i n').map.tag i } := by
  intro j m found
  rw [tryGetNode, TaggedHiSlab.get_tag] at found
  have held : (st.setNode i n').tryGetNode j = some m := found
  have tag := TaggedHiSlab.isTagged_tag (st.setNode i n').map i j
  have kept : (st.setNode i n').map.isTagged j = st.map.isTagged j := TaggedHiSlab.isTagged_set _ _ _ _
  rw [tag]
  rw [tryGetNode_setNode] at held
  split at held
  next same =>
    obtain ⟨-, -, rfl⟩ := Option.map_eq_some_iff.1 held
    rw [same] at found
    rw [if_pos same, found, Option.isSome_some]
    exact here
  next other =>
    rw [if_neg other, kept]
    exact H j m held

theorem untag {i : Nat} (here : ∀ n, st.tryGetNode i = some n → Q n false) : EverySlot Q { st with map := st.map.untag i } := by
  intro j m found
  rw [tryGetNode, TaggedHiSlab.get_untag] at found
  have tag := TaggedHiSlab.isTagged_untag st.map i j
  rw [tag]
  split
  next same => exact here m (same ▸ found)
  next => exact H j m found

/-- A recompression gives the value and the expiry of the child to a node with a tag of its own. -/
theorem tryRecompress (blind : IgnoresLinks Q) {x : Nat} (ran : st.tryRecompress x = .ok st')
    (absorbs : ∀ n r y child, st.tryGetNode x = some n → n.val = none → n.getSingleChild = some (r, y) →
      st.tryGetNode y = some child → Q child (st.map.isTagged x)) : EverySlot Q st' := by
  rcases tryRecompress_cases st x with idle | ⟨n, r, y, child, found, empty, single, occupied, ⟨-, fails⟩ | ⟨other, merges⟩⟩
  · exact Except.ok.inj (idle.symm.trans ran) ▸ H
  · rw [fails] at ran
    cases ran
  · obtain rfl := Except.ok.inj (merges.symm.trans ran)
    have R : Rewires st ((st.removeNode y).reparent x (st.iterAllChildren y)) := (Rewires.removeNode st y).trans (.reparent _ _ _)
    refine (H.rewires blind R).setNode ?_
    rw [R.tag (tryGetNode_orphaned found other _)]
    exact blind child _ _ rfl rfl (absorbs n r y child found empty single occupied)

end EverySlot

end OxidArt

end Radixox.Oxidart
