import Radixox.Oxidart.Operations
import Radixox.Oxidart.Views

/-!
# What a removal leaves to recompress

`get` of an expired key, `del` and `deln` end with a recompression: of the node that lost its value, or of the node that lost a link.
`recompressed` tells which node that is and which links it has by then, from the state before the operation.
-/

namespace Radixox.Oxidart
set_option autoImplicit false
open Radixox.Renaming Radixox.Outcomes

namespace OxidArt

variable {P : Policy} {V : Type} {st st₁ st' : OxidArt P V} {B : UInt8 → Prop} {i p x : Nat} {r : UInt8} {key : Bytes}

/-- The node above a link that goes, with its other links. The root stays as it is, and so does a node with a value. -/
def parentLeft (st : OxidArt P V) (p : Nat) (r : UInt8) : Option (Nat × Shelf) :=
  if p = st.rootIdx then none
  else (st.view p).bind fun b => if b.val.isSome then none else some (p, b.shelf.remove r)

/-- What a removal of node `i` leaves: the node itself while it has links, else the one above. -/
def leftBy (st : OxidArt P V) (i p : Nat) (r : UInt8) : Option (Nat × Shelf) :=
  (st.view i).bind fun b => if b.shelf.links.isEmpty then st.parentLeft p r else some (i, b.shelf)

/-- The node that the operation tries to recompress, with the links it has by then. -/
def recompressed (st : OxidArt P V) : TreeOp V → Option (Nat × Shelf)
  | .get key => match st.walk key with
    | .found i p r _ => (st.view i).bind fun b => if expired st.now b.exp then st.leftBy i p r else none
    | _ => none
  | .del key => match st.walk key with
    -- An inner node without a value is not deleted.
    | .found i p r _ => (st.view i).bind fun b => if b.val.isSome || b.shelf.links.isEmpty then st.leftBy i p r else none
    | _ => none
  | .deln pfx => match st.walk pfx with
    | .found _ p r _ => st.parentLeft p r
    | .partialAt _ p r common rest _ => if common = rest.length then st.parentLeft p r else none
    | _ => none
  | _ => none

/-- The state in which the removal of node `i` recompresses `x`. -/
inductive Thinned (st : OxidArt P V) (i p : Nat) (r : UInt8) : Nat → OxidArt P V → Prop
  | cleared {n : Node V} (found : st.tryGetNode i = some n) (inner : n.hasChildren = true) : Thinned st i p r i (st.setNode i n.clearVal)
  | unlinked {n : Node V} (found : st.tryGetNode i = some n) (leaf : n.hasChildren = false) (below : p ≠ st.rootIdx) :
    Thinned st i p r p ((st.removeNode i).removeChild p r)

/-! ## From the calls to the removals -/

theorem rootIdx_removeChild (st : OxidArt P V) (p : Nat) (r : UInt8) : (st.removeChild p r).rootIdx = st.rootIdx := by
  unfold removeChild
  split
  · rfl
  · split
    · rfl
    · split
      · rfl
      · split
        · rfl
        · dsimp only
          split <;> rfl

theorem deleteNodeInline_cases (ran : st.deleteNodeInline i p r = .ok st') :
    (∃ n, st.tryGetNode i = some n ∧ n.hasChildren = false ∧ p = st.rootIdx ∧ st' = (st.removeNode i).removeChild p r) ∨
      ∃ x st₁, Thinned st i p r x st₁ ∧ st₁.tryRecompress x = .ok st' := by
  obtain ⟨n, found, ran⟩ := exists_of_bind ran
  have held := tryGetNode_of_getNode found
  cases inner : n.hasChildren with
  | true =>
    rw [inner, if_pos rfl] at ran
    exact .inr ⟨i, _, .cleared held inner, ran⟩
  | false =>
    rw [inner, if_neg Bool.false_ne_true] at ran
    dsimp only at ran
    have top : ((st.removeNode i).removeChild p r).rootIdx = st.rootIdx := rootIdx_removeChild (st.removeNode i) p r
    rw [top] at ran
    split at ran
    next below => exact .inr ⟨p, _, .unlinked held inner below, ran⟩
    next above => exact .inl ⟨n, held, inner, not_not.1 above, (Except.ok.inj ran).symm⟩

theorem getIdx_cases (nonempty : key ≠ []) {found : Option Nat} (ran : st.getIdx key = .ok (found, st')) :
    st' = st ∨ ∃ i p r path n, st.walk key = .found i p r path ∧ st.tryGetNode i = some n ∧ n.isExpired st.now = true ∧
      st.deleteNodeInline i p r = .ok st' := by
  have notEmpty : key.isEmpty = false := by simpa using nonempty
  unfold getIdx at ran
  rw [notEmpty, if_neg Bool.false_ne_true] at ran
  cases outcome : st.walk key with
  | found i p r path =>
    rw [outcome] at ran
    obtain ⟨n, found, ran⟩ := exists_of_bind ran
    cases past : n.isExpired st.now with
    | true =>
      rw [past, if_pos rfl] at ran
      obtain ⟨st₁, removed, same⟩ := exists_of_bind ran
      obtain ⟨-, rfl⟩ := Prod.mk.inj (Except.ok.inj same)
      exact .inr ⟨i, p, r, path, n, rfl, tryGetNode_of_getNode found, past, removed⟩
    | false =>
      rw [past, if_neg Bool.false_ne_true] at ran
      exact .inl (Prod.mk.inj (Except.ok.inj ran)).2.symm
  | partialAt | noChild | gone =>
    rw [outcome] at ran
    exact .inl (Prod.mk.inj (Except.ok.inj ran)).2.symm

theorem get_getIdx {v : Option V} (ran : st.get key = .ok (v, st')) : ∃ found, st.getIdx key = .ok (found, st') := by
  obtain ⟨⟨found, st₁⟩, looked, ran⟩ := exists_of_bind ran
  cases found with
  | none =>
    obtain ⟨-, rfl⟩ := Prod.mk.inj (Except.ok.inj ran)
    exact ⟨none, looked⟩
  | some i =>
    obtain ⟨n, -, ran⟩ := exists_of_bind ran
    obtain ⟨-, rfl⟩ := Prod.mk.inj (Except.ok.inj ran)
    exact ⟨some i, looked⟩

/-- A lookup changes nothing, or removes the expired node that it found. -/
theorem get_removes (nonempty : key ≠ []) {v : Option V} (ran : st.get key = .ok (v, st')) :
    st' = st ∨ ∃ i p r path, st.walk key = .found i p r path ∧ st.recompressed (.get key) = st.leftBy i p r ∧
      st.deleteNodeInline i p r = .ok st' := by
  obtain ⟨found, looked⟩ := get_getIdx ran
  refine (getIdx_cases nonempty looked).imp_right ?_
  rintro ⟨i, p, r, path, n, outcome, held, past, removed⟩
  refine ⟨i, p, r, path, outcome, ?_, removed⟩
  have exp : (st.viewOf n).exp = n.expAndRadix.exp := rfl
  simp only [recompressed, outcome, view_eq held, Option.bind_some, exp, ← Node.isExpired_eq, past, if_true]

/-- A deletion changes nothing, or removes the node that it found. -/
theorem del_removes_node (K : KidsInvOf B st) (nonempty : key ≠ []) {v : Option V} (ran : st.del key = .ok (v, st')) :
    st' = st ∨ ∃ i p r path, st.walk key = .found i p r path ∧ st.recompressed (.del key) = st.leftBy i p r ∧
      st.deleteNodeInline i p r = .ok st' := by
  have notEmpty : key.isEmpty = false := by simpa using nonempty
  unfold OxidArt.del at ran
  rw [notEmpty, if_neg Bool.false_ne_true] at ran
  cases outcome : st.walk key with
  | found i p r path =>
    rw [outcome] at ran
    obtain ⟨n, found, ran⟩ := exists_of_bind ran
    have held := tryGetNode_of_getNode found
    have inner := hasChildren_viewOf (TierInv.slotOk K (tier_eq held))
    have chosen : (n.val.isSome || !n.hasChildren) = true → st.recompressed (.del key) = st.leftBy i p r := by
      intro removes
      have val : (st.viewOf n).val = n.val := rfl
      rw [inner, Bool.not_not] at removes
      simp only [recompressed, outcome, view_eq held, Option.bind_some, val, removes, if_true]
    cases children : n.hasChildren with
    | true =>
      rw [children, if_pos rfl] at ran
      cases stored : n.val with
      | none =>
        rw [stored] at ran
        exact .inl (Prod.mk.inj (Except.ok.inj ran)).2.symm
      | some old =>
        rw [stored] at ran
        obtain ⟨st₁, removed, same⟩ := exists_of_bind ran
        obtain ⟨-, rfl⟩ := Prod.mk.inj (Except.ok.inj same)
        refine .inr ⟨i, p, r, path, rfl, chosen (by rw [stored]; rfl), ?_⟩
        simp only [deleteNodeInline, found, bind, Except.bind, children, if_true]
        exact removed
    | false =>
      rw [children, if_neg Bool.false_ne_true] at ran
      dsimp only at ran
      refine .inr ⟨i, p, r, path, rfl, chosen (by rw [children]; simp), ?_⟩
      simp only [deleteNodeInline, found, bind, Except.bind, children, Bool.false_eq_true, if_false]
      split at ran
      next below =>
        obtain ⟨st₁, removed, same⟩ := exists_of_bind ran
        obtain ⟨-, rfl⟩ := Prod.mk.inj (Except.ok.inj same)
        rw [if_pos below]
        exact removed
      next above =>
        obtain ⟨-, rfl⟩ := Prod.mk.inj (Except.ok.inj ran)
        rw [if_neg above]
        rfl
  | partialAt | noChild | gone =>
    rw [outcome] at ran
    exact .inl (Prod.mk.inj (Except.ok.inj ran)).2.symm

/-! ## What is left -/

theorem KidsInvOf.removeChild (K : KidsInvOf B st) (p : Nat) (r : UInt8) : KidsInvOf B (st.removeChild p r) := by
  cases edge : st.find p r with
  | none =>
    rw [removeChild_absent K edge]
    exact K
  | some y =>
    cases found : st.tryGetNode p with
    | none =>
      rw [find_of_free found] at edge
      cases edge
    | some n => exact (removeChild_ok K found edge).1

theorem Thinned.kids (K : KidsInvOf B st) (T : Thinned st i p r x st₁) : KidsInvOf B st₁ := by
  cases T with
  | @cleared n found inner =>
    refine K.same (.setNode st i n.clearVal) fun j t here => ?_
    rw [tier_setNode found] at here
    split at here
    next same => rw [same, tier_eq found, ← here]; rfl
    next => exact here
  | unlinked found leaf below => exact (K.removeNode i).removeChild p r

/-- The node to recompress and its links, as announced; every other node is as it was. -/
theorem Thinned.left (K : KidsInvOf B st) (T : Thinned st i p r x st₁) {b : View V} (read : st₁.view x = some b) (empty : b.val = none) :
    st.leftBy i p r = some (x, b.shelf) ∧ ∀ j c, j ≠ x → st₁.view j = some c → st.view j = some c := by
  cases T with
  | @cleared n found inner =>
    have view := view_setNode found n.clearVal
    have shelf : (st.viewOf n.clearVal).shelf = (st.viewOf n).shelf := rfl
    rw [hasChildren_viewOf (TierInv.slotOk K (tier_eq found)), Bool.not_eq_true'] at inner
    rw [view, Function.update_self] at read
    refine ⟨?_, fun j c other here => ?_⟩
    · rw [leftBy, view_eq found, Option.bind_some, inner, if_neg Bool.false_ne_true, ← Option.some.inj read, shelf]
    · rw [view, Function.update_of_ne other] at here
      exact here
  | @unlinked n found leaf below =>
    have view := view_removeLeaf K i p r
    rw [hasChildren_viewOf (TierInv.slotOk K (tier_eq found)), Bool.not_eq_false'] at leaf
    rw [view, Renaming.modify, Function.update_self] at read
    obtain ⟨a, before, rfl⟩ := Option.map_eq_some_iff.1 read
    have apart : p ≠ i := by
      rintro rfl
      rw [Function.update_self] at before
      cases before
    rw [Function.update_of_ne apart] at before
    have val : a.val = none := empty
    refine ⟨?_, fun j c other here => ?_⟩
    · rw [leftBy, view_eq found, Option.bind_some, leaf, if_pos rfl, parentLeft, if_neg below, before, Option.bind_some, val]
      rfl
    · rw [view, Renaming.modify, Function.update_of_ne other] at here
      have kept : j ≠ i := by
        rintro rfl
        rw [Function.update_self] at here
        cases here
      rwa [Function.update_of_ne kept] at here

end OxidArt

end Radixox.Oxidart
