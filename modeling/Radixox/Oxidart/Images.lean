import Radixox.Lib.Lockstep
import Radixox.Oxidart.Holdings

/-!
# The tree does not look into values

A store is the image of another under a function on values when it holds the same nodes in the same slots, with the images for
values. No function of the tree leaves the two apart: what it computes on the one is the image of what it computes on the other, and
it fails on both or on neither. In which order the occupied slots are listed does not matter, if it does not matter to the slab.
-/

namespace Radixox.Oxidart
set_option autoImplicit false
open Radixox.Lockstep

/-- Which free index an insertion gets does not depend on the order of the occupied ones. -/
def Policy.Unordered (P : Policy) : Prop := ∀ s l l', l.Perm l' → P.pick s l = P.pick s l'

theorem Policy.lowest_unordered : Policy.lowest.Unordered := by
  intro s l l' perm
  simp only [Policy.lowest, lowestFree, perm.length_eq, perm.contains_eq]

/-! ## Slabs -/

namespace TaggedHiSlab

/-- Nothing is drawn from a slab without a tag only. -/
theorem taggedIdxs_eq_nil {P : Policy} {α : Type} {s : TaggedHiSlab P α} {d : Nat} (drawn : s.randomTagged d = none) :
    s.taggedIdxs = [] := by
  by_contra some'
  have inside := Nat.mod_lt d (List.length_pos_of_ne_nil some')
  have occupied : s.get s.taggedIdxs[d % s.taggedIdxs.length] ≠ none := by
    rw [Ne, get_eq_none_iff, not_not]
    exact (List.mem_filter.1 (List.getElem_mem inside)).1
  obtain ⟨x, found⟩ := Option.ne_none_iff_exists'.1 occupied
  simp only [randomTagged, List.getElem?_eq_getElem inside, Option.bind_eq_bind, Option.bind_some, found] at drawn
  cases drawn

theorem randomTagged_of_nil {P : Policy} {α : Type} {s : TaggedHiSlab P α} (nothing : s.taggedIdxs = []) (d : Nat) :
    s.randomTagged d = none := by
  rw [randomTagged, nothing]
  rfl

/-- The same slots with the same tags and images for contents. -/
structure Images {P : Policy} {α β : Type} (f : α → β) (s : TaggedHiSlab P α) (s' : TaggedHiSlab P β) : Prop where
  cells : ∀ i, s'.cells.lookup i = (s.cells.lookup i).map fun x => ⟨f x.item, x.tagged⟩
  policy : s'.policy = s.policy

namespace Images

variable {P : Policy} {α β : Type} {f : α → β} {s : TaggedHiSlab P α} {s' : TaggedHiSlab P β} (M : Images f s s')

include M

theorem get (i : Nat) : s'.get i = (s.get i).map f := by
  rw [TaggedHiSlab.get, TaggedHiSlab.get, M.cells, Option.map_map, Option.map_map]
  rfl

theorem keys : s'.cells.keys.Perm s.cells.keys := by
  refine (List.perm_ext_iff_of_nodup s'.cells.keys_nodup s.cells.keys_nodup).2 fun i => ?_
  rw [← AList.mem_keys, ← AList.mem_keys, ← AList.lookup_isSome, ← AList.lookup_isSome, M.cells, Option.isSome_map]

theorem len : s'.len = s.len := M.keys.length_eq

theorem modify (i : Nat) {g : Slot α → Slot α} {g' : Slot β → Slot β}
    (same : ∀ x, g' ⟨f x.item, x.tagged⟩ = ⟨f (g x).item, (g x).tagged⟩) : Images f (s.modify i g) (s'.modify i g') := by
  unfold TaggedHiSlab.modify
  rw [M.cells]
  cases here : s.cells.lookup i with
  | none => exact M
  | some x =>
    refine ⟨fun j => ?_, M.policy⟩
    simp only [Option.map_some]
    by_cases at' : j = i
    · rw [at', AList.lookup_insert, AList.lookup_insert, Option.map_some, same]
    · rw [AList.lookup_insert_ne at', AList.lookup_insert_ne at', M.cells]

theorem set (i : Nat) (x : α) : Images f (s.set i x) (s'.set i (f x)) := M.modify i fun _ => rfl

theorem tag (i : Nat) : Images f (s.tag i) (s'.tag i) := M.modify i fun _ => rfl

theorem untag (i : Nat) : Images f (s.untag i) (s'.untag i) := M.modify i fun _ => rfl

theorem remove (i : Nat) : Images f (s.remove i).2 (s'.remove i).2 := by
  refine ⟨fun j => ?_, M.policy⟩
  by_cases at' : j = i
  · subst at'
    simp only [TaggedHiSlab.remove, AList.lookup_erase, Option.map_none]
  · simp only [TaggedHiSlab.remove, AList.lookup_erase_ne at', M.cells]

/-- A content is replaced by one with the same image. -/
theorem set_same {i : Nat} {x y : α} (found : s.get i = some x) (same : f y = f x) : Images f (s.set i y) s' := by
  obtain ⟨slot, read, rfl⟩ := Option.map_eq_some_iff.1 found
  refine ⟨fun j => ?_, ?_⟩
  · rw [TaggedHiSlab.set, TaggedHiSlab.modify, read]
    by_cases at' : j = i
    · rw [at', AList.lookup_insert, M.cells, read, Option.map_some, Option.map_some, same]
    · rw [AList.lookup_insert_ne at', M.cells]
  · rw [TaggedHiSlab.set, TaggedHiSlab.modify, read]
    exact M.policy

theorem isTagged (i : Nat) : s'.isTagged i = s.isTagged i := by
  rw [TaggedHiSlab.isTagged, TaggedHiSlab.isTagged, M.cells]
  cases s.cells.lookup i <;> rfl

theorem taggedIdxs : s'.taggedIdxs.Perm s.taggedIdxs := by
  have same : s'.isTagged = s.isTagged := funext M.isTagged
  rw [TaggedHiSlab.taggedIdxs, TaggedHiSlab.taggedIdxs, same]
  exact M.keys.filter _

section Insertion

variable (U : P.Unordered)

include U

theorem nextIdx : s'.nextIdx = s.nextIdx := by
  rw [TaggedHiSlab.nextIdx, TaggedHiSlab.nextIdx, M.policy, U _ _ _ M.keys]

theorem insertSlot (x : Slot α) : Images f (s.insertSlot x) (s'.insertSlot ⟨f x.item, x.tagged⟩) := by
  refine ⟨fun j => ?_, ?_⟩
  · simp only [TaggedHiSlab.insertSlot, M.nextIdx U]
    by_cases at' : j = s.nextIdx
    · rw [at', AList.lookup_insert, AList.lookup_insert, Option.map_some]
    · rw [AList.lookup_insert_ne at', AList.lookup_insert_ne at', M.cells]
  · simp only [TaggedHiSlab.insertSlot, M.policy, U _ _ _ M.keys]

end Insertion

end Images

theorem images_empty {P : Policy} {α β : Type} (f : α → β) : Images f (empty : TaggedHiSlab P α) (empty : TaggedHiSlab P β) :=
  ⟨fun _ => rfl, rfl⟩

end TaggedHiSlab

/-! ## Nodes -/

namespace Node

variable {V W : Type}

def mapVal (f : V → W) (n : Node V) : Node W := ⟨n.compression, n.childs, n.val.map f, n.expAndRadix, n.overflowIdx, n.parentIdx⟩

theorem getValue_mapVal (f : V → W) (n : Node V) (now : Nat) : (n.mapVal f).getValue now = (n.getValue now).map f := by
  unfold getValue
  change (if n.isExpired now then none else n.val.map f) = _
  split <;> rfl

theorem getSingleChild_mapVal (f : V → W) (n : Node V) : (n.mapVal f).getSingleChild = n.getSingleChild := rfl

theorem setVal_images (f : V → W) (n : Node V) (v : V) (exp : Nat) : Carries (mapVal f) (n.setVal v exp) ((n.mapVal f).setVal (f v) exp) := by
  simp only [setVal, mapVal]
  cases n.expAndRadix.setExp exp with
  | error e => exact .error e
  | ok e => exact .ok _

theorem newLeaf_images (f : V → W) (c : Bytes) (v : V) (ttl p : Nat) (r : UInt8) :
    Carries (mapVal f) (newLeaf c v ttl p r) (newLeaf c (f v) ttl p r) := by
  simp only [newLeaf]
  cases ExpAndRadix.new ttl r with
  | error e => exact .error e
  | ok e => exact .ok _

end Node

/-! ## Stores -/

namespace OxidArt

theorem splitIntermediate_images {V W : Type} (f : V → W) (old : Node V) (common : Nat) (onNode : Bool) (ttl : Option Nat) (v : Option V) :
    Carries (Node.mapVal f) (splitIntermediate old common onNode ttl v) (splitIntermediate (old.mapVal f) common onNode ttl (v.map f)) := by
  cases onNode with
  | false => exact .ok _
  | true =>
    cases v with
    | none => exact .ok _
    | some v =>
      cases ttl with
      | none => exact .ok _
      | some ttl => exact Node.setVal_images f _ v ttl

theorem now_setNode {P : Policy} {V : Type} (st : OxidArt P V) (i : Nat) (n : Node V) : (st.setNode i n).now = st.now := rfl

/-- The same nodes in the same slots, with images for values. -/
structure Images {P : Policy} {V W : Type} (f : V → W) (st : OxidArt P V) (st' : OxidArt P W) : Prop where
  map : TaggedHiSlab.Images (Node.mapVal f) st.map st'.map
  overflowArena : st'.overflowArena = st.overflowArena
  hugeOvf : st'.hugeOvf = st.hugeOvf
  now : st'.now = st.now
  rootIdx : st'.rootIdx = st.rootIdx

/-- Two calls that return images, and stores that are images again. -/
abbrev Both {P : Policy} {V W α β : Type} (f : V → W) (g : α → β) : Exec (α × OxidArt P V) → Exec (β × OxidArt P W) → Prop :=
  Agree fun p q => q.1 = g p.1 ∧ Images f p.2 q.2

namespace Images

variable {P : Policy} {V W : Type} {f : V → W}

section Steps

variable {st : OxidArt P V} {st' : OxidArt P W} (M : Images f st st')

include M

theorem withMap {map : TaggedHiSlab P (Node V)} {map' : TaggedHiSlab P (Node W)} (M' : TaggedHiSlab.Images (Node.mapVal f) map map') :
    Images f { st with map := map } { st' with map := map' } :=
  ⟨M', M.overflowArena, M.hugeOvf, M.now, M.rootIdx⟩

theorem withStores (arena : OverflowArena) (huge : HugeOvf P) :
    Images f { st with overflowArena := arena, hugeOvf := huge } { st' with overflowArena := arena, hugeOvf := huge } :=
  ⟨M.map, rfl, rfl, M.now, M.rootIdx⟩

theorem setNow (now : Nat) : Images f (st.setNow now) (st'.setNow now) := ⟨M.map, M.overflowArena, M.hugeOvf, rfl, M.rootIdx⟩

theorem tryGetNode (i : Nat) : st'.tryGetNode i = (st.tryGetNode i).map (Node.mapVal f) := M.map.get i

theorem getNode (i : Nat) : Carries (Node.mapVal f) (st.getNode i) (st'.getNode i) := by
  simp only [OxidArt.getNode, M.tryGetNode]
  cases st.tryGetNode i with
  | none => exact .error _
  | some n => exact .ok n

theorem setNode (i : Nat) (n : Node V) : Images f (st.setNode i n) (st'.setNode i (n.mapVal f)) := M.withMap (M.map.set i n)

/-- A node is replaced by one with the same image. -/
theorem setNode_same {i : Nat} {n n' : Node V} (found : st.tryGetNode i = some n) (same : n'.mapVal f = n.mapVal f) :
    Images f (st.setNode i n') st' :=
  ⟨M.map.set_same found same, M.overflowArena, M.hugeOvf, M.now, M.rootIdx⟩

theorem tag (i : Nat) : Images f { st with map := st.map.tag i } { st' with map := st'.map.tag i } := M.withMap (M.map.tag i)

theorem untag (i : Nat) : Images f { st with map := st.map.untag i } { st' with map := st'.map.untag i } := M.withMap (M.map.untag i)

theorem removeNode (i : Nat) : Images f (st.removeNode i) (st'.removeNode i) := M.withMap (M.map.remove i)

theorem find (i : Nat) (r : UInt8) : st'.find i r = st.find i r := by
  simp only [OxidArt.find, M.tryGetNode, M.overflowArena, M.hugeOvf]
  cases st.tryGetNode i <;> rfl

theorem iterAllChildren (i : Nat) : st'.iterAllChildren i = st.iterAllChildren i := by
  simp only [OxidArt.iterAllChildren, M.tryGetNode, M.overflowArena, M.hugeOvf]
  cases st.tryGetNode i <;> rfl

theorem walkFrom (fuel : Nat) : ∀ (i : Nat) (rest path : Bytes), st'.walkFrom fuel i rest path = st.walkFrom fuel i rest path := by
  induction fuel with
  | zero => exact fun _ _ _ => rfl
  | succ fuel ih =>
    intro i rest path
    cases rest with
    | nil => rfl
    | cons r rest =>
      simp only [OxidArt.walkFrom, M.find, ih]
      cases st.find i r with
      | none => rfl
      | some child =>
        simp only [M.tryGetNode]
        cases st.tryGetNode child <;> rfl

theorem walk (key : Bytes) : st'.walk key = st.walk key := by rw [OxidArt.walk, OxidArt.walk, M.rootIdx, M.walkFrom]

theorem traverseToKey (key : Bytes) : st'.traverseToKey key = st.traverseToKey key := by
  rw [OxidArt.traverseToKey, OxidArt.traverseToKey, M.rootIdx, M.walk]

/-! ### Links -/

theorem allocOverflowWithFirst (r : UInt8) (i : Nat) :
    Both f id (st.allocOverflowWithFirst r i) (st'.allocOverflowWithFirst r i) := by
  simp only [OxidArt.allocOverflowWithFirst, M.overflowArena, M.hugeOvf]
  refine .bind_same fun p => ?_
  cases p.2.get p.1 with
  | none => exact .error _
  | some o => exact .bind_same fun q => .ok ⟨rfl, M.withStores _ _⟩

theorem pushChildIdx (p i : Nat) (r : UInt8) : Agree (Images f) (st.pushChildIdx p i r) (st'.pushChildIdx p i r) := by
  simp only [OxidArt.pushChildIdx, M.overflowArena, M.hugeOvf]
  refine Agree.bind (M.getNode p) ?_
  rintro n _ rfl
  refine .ite (fun _ => .bind_same fun childs => .ok (M.setNode p _)) fun _ => ?_
  cases slot : n.overflowIdx with
  | none =>
    simp only [Node.mapVal, slot]
    refine Agree.bind (M.allocOverflowWithFirst r i) ?_
    rintro ⟨s, st₁⟩ ⟨_, st₁'⟩ ⟨rfl, M₁⟩
    refine Agree.bind (M₁.getNode p) ?_
    rintro n₁ _ rfl
    exact .ok (M₁.setNode p _)
  | some s =>
    simp only [Node.mapVal, slot]
    cases st.overflowArena.get s with
    | none => exact .error _
    | some o => exact .bind_same fun q => .ok (M.withStores _ _)

theorem removeChild (p : Nat) (r : UInt8) : Images f (st.removeChild p r) (st'.removeChild p r) := by
  simp only [OxidArt.removeChild, M.tryGetNode, M.overflowArena, M.hugeOvf]
  cases st.tryGetNode p with
  | none => exact M
  | some n =>
    simp only [Option.map_some, Node.mapVal]
    cases n.childs.remove r with
    | some q => exact M.setNode p { n with childs := q.2 }
    | none =>
      cases n.overflowIdx with
      | none => exact M
      | some s =>
        simp only
        cases st.overflowArena.get s with
        | none => exact M
        | some o =>
          simp only
          split
          · exact (M.withStores _ _).setNode p { n with overflowIdx := none }
          · exact M.withStores _ _

end Steps

theorem reparent (p : Nat) (l : Links) : ∀ {st : OxidArt P V} {st' : OxidArt P W}, Images f st st' →
    Images f (st.reparent p l) (st'.reparent p l) := by
  induction l with
  | nil => exact fun M => M
  | cons link rest ih =>
    intro st st' M
    simp only [OxidArt.reparent, M.tryGetNode]
    cases st.tryGetNode link.2 with
    | none => exact ih M
    | some n => exact ih (M.setNode link.2 { n with parentIdx := some p })

section Repairs

variable {st : OxidArt P V} {st' : OxidArt P W} (M : Images f st st')

include M

theorem tryRecompress (i : Nat) : Agree (Images f) (st.tryRecompress i) (st'.tryRecompress i) := by
  simp only [OxidArt.tryRecompress, M.tryGetNode, M.iterAllChildren]
  cases st.tryGetNode i with
  | none => exact .ok M
  | some n =>
    simp only [Option.map_some, Node.getSingleChild_mapVal]
    have same : (n.mapVal f).val.isSome = n.val.isSome := Option.isSome_map
    rw [same]
    refine .ite (fun _ => .ok M) fun _ => ?_
    cases n.getSingleChild with
    | none => exact .ok M
    | some link =>
      obtain ⟨r, c⟩ := link
      simp only
      cases st.tryGetNode c with
      | none => exact .ok M
      | some child =>
        have M₁ := reparent i (st.iterAllChildren c) (M.removeNode c)
        refine Agree.bind (M₁.getNode i) ?_
        rintro m _ rfl
        exact .ok (M₁.setNode i _)

theorem collectChildIndices (i : Nat) : st'.collectChildIndices i = st.collectChildIndices i := by
  rw [OxidArt.collectChildIndices, OxidArt.collectChildIndices, M.iterAllChildren]

/-! ### Lookups -/

theorem clearVal (i : Nat) (n : Node V) : Images f (st.setNode i n.clearVal) (st'.setNode i (n.mapVal f).clearVal) :=
  M.setNode i n.clearVal

theorem deleteNodeInline (i p : Nat) (r : UInt8) : Agree (Images f) (st.deleteNodeInline i p r) (st'.deleteNodeInline i p r) := by
  simp only [OxidArt.deleteNodeInline]
  refine Agree.bind (M.getNode i) ?_
  rintro n _ rfl
  have M₁ := (M.removeNode i).removeChild p r
  rw [M₁.rootIdx]
  exact .ite (fun _ => (M.clearVal i n).tryRecompress i) fun _ => .ite (fun _ => M₁.tryRecompress p) fun _ => .ok M₁

theorem getIdx (key : Bytes) : Both f id (st.getIdx key) (st'.getIdx key) := by
  simp only [OxidArt.getIdx, M.rootIdx, M.now, M.walk]
  refine .ite (fun _ => ?_) fun _ => ?_
  · refine Agree.bind (M.getNode st.rootIdx) ?_
    rintro n _ rfl
    refine .ite (fun _ => ?_) fun _ => .ok ⟨rfl, M⟩
    exact Agree.bind ((M.clearVal st.rootIdx n).tryRecompress st.rootIdx) fun _ _ M₁ => .ok ⟨rfl, M₁⟩
  · cases st.walk key with
    | found i p r _ =>
      refine Agree.bind (M.getNode i) ?_
      rintro n _ rfl
      refine .ite (fun _ => ?_) fun _ => .ok ⟨rfl, M⟩
      exact Agree.bind (M.deleteNodeInline i p r) fun _ _ M₁ => .ok ⟨rfl, M₁⟩
    | _ => exact .ok ⟨rfl, M⟩

theorem get (key : Bytes) : Both f (Option.map f) (st.get key) (st'.get key) := by
  simp only [OxidArt.get]
  refine Agree.bind (M.getIdx key) ?_
  rintro ⟨idx, st₁⟩ ⟨idx', st₁'⟩ ⟨same, M₁⟩
  obtain rfl : idx' = idx := same
  cases idx' with
  | none => exact .ok ⟨rfl, M₁⟩
  | some i =>
    refine Agree.bind (M₁.getNode i) ?_
    rintro n _ rfl
    exact .ok ⟨by rw [M₁.now, Node.getValue_mapVal], M₁⟩

theorem getTtl (key : Bytes) : Carries id (st.getTtl key) (st'.getTtl key) := by
  simp only [OxidArt.getTtl, M.traverseToKey, M.now]
  cases st.traverseToKey key with
  | none => exact .ok _
  | some i =>
    refine Agree.bind (M.getNode i) ?_
    rintro n _ rfl
    refine .ite (fun _ => .ok rfl) fun _ => ?_
    simp only [Node.mapVal]
    cases n.expAndRadix.exp with
    | none => exact .ok rfl
    | some exp => exact .ok rfl

theorem expire (key : Bytes) (ttl : Nat) : Both f id (st.expire key ttl) (st'.expire key ttl) := by
  simp only [OxidArt.expire, M.traverseToKey, M.now]
  cases st.traverseToKey key with
  | none => exact .ok ⟨rfl, M⟩
  | some i =>
    refine Agree.bind (M.getNode i) ?_
    rintro n _ rfl
    refine .ite (fun _ => .ok ⟨rfl, M⟩) fun _ => .bind_same fun e => .ok ⟨rfl, ?_⟩
    have M₁ := M.setNode i { n with expAndRadix := e }
    change Images f (if (!n.expAndRadix.doesExpire) = true then _ else _) (if (!n.expAndRadix.doesExpire) = true then _ else _)
    split
    · exact M₁.tag i
    · exact M₁

theorem persist (key : Bytes) : Both f id (st.persist key) (st'.persist key) := by
  simp only [OxidArt.persist, M.traverseToKey]
  cases st.traverseToKey key with
  | none => exact .ok ⟨rfl, M⟩
  | some i =>
    refine Agree.bind (M.getNode i) ?_
    rintro n _ rfl
    have same : (n.mapVal f).val.isSome = n.val.isSome := Option.isSome_map
    have M₁ := M.setNode i { n with expAndRadix := n.expAndRadix.setNoExpiracy }
    rw [same]
    exact .ite (fun _ => .ite (fun _ => .ok ⟨rfl, M₁.untag i⟩) fun _ => .ok ⟨rfl, M₁⟩) fun _ => .ok ⟨rfl, M⟩

/-! ### Deletions -/

theorem del (key : Bytes) : Both f (Option.map f) (st.del key) (st'.del key) := by
  simp only [OxidArt.del, M.rootIdx, M.walk]
  refine .ite (fun _ => ?_) fun _ => ?_
  · refine Agree.bind (M.getNode st.rootIdx) ?_
    rintro n _ rfl
    exact Agree.bind ((M.clearVal st.rootIdx n).tryRecompress st.rootIdx) fun _ _ M₁ => .ok ⟨rfl, M₁⟩
  · cases st.walk key with
    | found i p r _ =>
      refine Agree.bind (M.getNode i) ?_
      rintro n _ rfl
      refine .ite (fun _ => ?_) fun _ => ?_
      · simp only [Node.mapVal]
        cases n.val with
        | none => exact .ok ⟨rfl, M⟩
        | some v => exact Agree.bind ((M.clearVal i n).tryRecompress i) fun _ _ M₁ => .ok ⟨rfl, M₁⟩
      · have M₁ := (M.removeNode i).removeChild p r
        rw [M₁.rootIdx]
        exact .ite (fun _ => Agree.bind (M₁.tryRecompress p) fun _ _ M₂ => .ok ⟨rfl, M₂⟩) fun _ => .ok ⟨rfl, M₁⟩
    | _ => exact .ok ⟨rfl, M⟩

theorem freeNode (i : Nat) :
    Option.Rel (fun p q => q.1 = p.1 ∧ q.2.1 = p.2.1 ∧ Images f p.2.2 q.2.2) (st.freeNode i) (st'.freeNode i) := by
  simp only [OxidArt.freeNode, M.tryGetNode, M.collectChildIndices, M.overflowArena, M.hugeOvf]
  cases st.tryGetNode i with
  | none => exact .none
  | some n =>
    refine .some ⟨rfl, Option.isSome_map, ?_⟩
    simp only [Node.mapVal]
    cases n.overflowIdx with
    | none => exact M.removeNode i
    | some s => exact (M.withStores _ _).removeNode i

end Repairs

/-- The loop pops the same indices. -/
theorem freeLoop (fuel : Nat) : ∀ (budget : Option Nat) {st : OxidArt P V} {st' : OxidArt P W}, Images f st st' →
    ∀ (stack : List Nat) (count : Nat),
      (OxidArt.freeLoop fuel budget st' stack count).1 = (OxidArt.freeLoop fuel budget st stack count).1 ∧
      (OxidArt.freeLoop fuel budget st' stack count).2.1 = (OxidArt.freeLoop fuel budget st stack count).2.1 ∧
      Images f (OxidArt.freeLoop fuel budget st stack count).2.2 (OxidArt.freeLoop fuel budget st' stack count).2.2 := by
  induction fuel with
  | zero => exact fun _ _ _ M _ _ => ⟨rfl, rfl, M⟩
  | succ fuel ih =>
    intro budget st st' M stack count
    simp only [OxidArt.freeLoop]
    by_cases spent : budget = some 0
    · rw [if_pos spent, if_pos spent]
      exact ⟨rfl, rfl, M⟩
    · simp only [if_neg spent]
      cases stack.getLast? with
      | none => exact ⟨rfl, rfl, M⟩
      | some i =>
        have both := M.freeNode i
        simp only
        generalize st.freeNode i = freed at both ⊢
        generalize st'.freeNode i = freed' at both ⊢
        cases both with
        | none => exact ih budget M _ _
        | @some p q same =>
          obtain ⟨children, hasVal, st₁⟩ := p
          obtain ⟨children', hasVal', st₁'⟩ := q
          obtain ⟨sameChildren, sameVal, M₁⟩ := same
          obtain rfl : children' = children := sameChildren
          obtain rfl : hasVal' = hasVal := sameVal
          exact ih _ M₁ _ _

section Listings

variable {st : OxidArt P V} {st' : OxidArt P W} (M : Images f st st')

include M

theorem freeSubtreeIterative (nodes : List Nat) :
    (st'.freeSubtreeIterative nodes).1 = (st.freeSubtreeIterative nodes).1 ∧
    Images f (st.freeSubtreeIterative nodes).2 (st'.freeSubtreeIterative nodes).2 := by
  have fuel : st'.freeFuel nodes = st.freeFuel nodes := by rw [freeFuel, freeFuel, M.map.len]
  obtain ⟨count, -, M₁⟩ := freeLoop (st.freeFuel nodes) none M nodes 0
  rw [OxidArt.freeSubtreeIterative, OxidArt.freeSubtreeIterative, fuel]
  exact ⟨count, M₁⟩

theorem delnSubtree (i p : Nat) (r : UInt8) : Both f id (st.delnSubtree i p r) (st'.delnSubtree i p r) := by
  obtain ⟨count, M₁⟩ := (M.removeChild p r).freeSubtreeIterative [i]
  simp only [OxidArt.delnSubtree, count, M₁.rootIdx]
  exact .ite (fun _ => Agree.bind (M₁.tryRecompress p) fun _ _ M₂ => .ok ⟨rfl, M₂⟩) fun _ => .ok ⟨rfl, M₁⟩

theorem deln (pfx : Bytes) : Both f id (st.deln pfx) (st'.deln pfx) := by
  simp only [OxidArt.deln, M.rootIdx, M.walk]
  refine .ite (fun _ => ?_) fun _ => ?_
  · refine Agree.bind (M.getNode st.rootIdx) ?_
    rintro n _ rfl
    have same : (n.mapVal f).val.isSome = n.val.isSome := Option.isSome_map
    obtain ⟨count, M₁⟩ := (M.setNode st.rootIdx { n.clearVal with childs := .default }).freeSubtreeIterative (st.collectChildIndices st.rootIdx)
    rw [same, M.collectChildIndices]
    exact .ok ⟨congrArg (· + _) count, M₁⟩
  · cases st.walk pfx with
    | found i p r _ => exact M.delnSubtree i p r
    | partialAt i p r common rest _ => exact .ite (fun _ => M.delnSubtree i p r) fun _ => .ok ⟨rfl, M⟩
    | _ => exact .ok ⟨rfl, M⟩

end Listings

section Writes

variable {st : OxidArt P V} {st' : OxidArt P W} (M : Images f st st')

include M

theorem putVal (i : Nat) (v : V) : Agree (Images f) (st.putVal i v) (st'.putVal i (f v)) := by
  simp only [OxidArt.putVal]
  refine Agree.bind (M.getNode i) ?_
  rintro n _ rfl
  exact .ok (M.setNode i { n with val := some v })

theorem getMut (key : Bytes) : Both f (Option.map (Prod.map id f)) (st.getMut key) (st'.getMut key) := by
  simp only [OxidArt.getMut]
  refine Agree.bind (M.getIdx key) ?_
  rintro ⟨idx, st₁⟩ ⟨idx', st₁'⟩ ⟨same, M₁⟩
  obtain rfl : idx' = idx := same
  cases idx' with
  | none => exact .ok ⟨rfl, M₁⟩
  | some i =>
    refine Agree.bind (M₁.getNode i) ?_
    rintro n _ rfl
    refine .ok ⟨?_, M₁⟩
    rw [M₁.now, Node.getValue_mapVal, Option.map_map, Option.map_map]
    rfl

theorem nodeOf (key : Bytes) : st'.nodeOf key = (st.nodeOf key).map (Node.mapVal f) := by
  rw [OxidArt.nodeOf, OxidArt.nodeOf, M.traverseToKey]
  cases st.traverseToKey key with
  | none => rfl
  | some i => exact M.tryGetNode i

theorem occupant (key : Bytes) : st'.occupant key = (st.occupant key).map f := by
  rw [OxidArt.occupant, OxidArt.occupant, M.nodeOf]
  cases st.nodeOf key <;> rfl

theorem lapsed (key : Bytes) : st'.lapsed key = (st.lapsed key).map f := by
  rw [OxidArt.lapsed, OxidArt.lapsed, M.nodeOf, M.now]
  cases st.nodeOf key with
  | none => rfl
  | some n =>
    simp only [Option.map_some, Option.bind_some]
    change (if n.isExpired st.now then n.val.map f else none) = _
    split <;> rfl

end Writes

/-- The freed nodes drop the images. -/
theorem freedValues (fuel : Nat) : ∀ {st : OxidArt P V} {st' : OxidArt P W}, Images f st st' →
    ∀ stack : List Nat, OxidArt.freedValues fuel st' stack = (OxidArt.freedValues fuel st stack).map f := by
  induction fuel with
  | zero => exact fun _ _ => rfl
  | succ fuel ih =>
    intro st st' M stack
    simp only [OxidArt.freedValues, M.tryGetNode]
    cases stack.getLast? with
    | none => rfl
    | some i =>
      have both := M.freeNode i
      simp only
      generalize st.freeNode i = freed at both ⊢
      generalize st'.freeNode i = freed' at both ⊢
      cases both with
      | none => exact ih M _
      | @some p q same =>
        obtain ⟨children, hasVal, st₁⟩ := p
        obtain ⟨children', hasVal', st₁'⟩ := q
        obtain ⟨sameChildren, -, M₁⟩ := same
        obtain rfl : children' = children := sameChildren
        rw [List.map_append]
        refine congrArg₂ (· ++ ·) ?_ (ih M₁ _)
        cases st.tryGetNode i with
        | none => rfl
        | some n => exact Option.toList_map ..

section Values

variable {st : OxidArt P V} {st' : OxidArt P W} (M : Images f st st')

include M

theorem subtreeValues (nodes : List Nat) : st'.subtreeValues nodes = (st.subtreeValues nodes).map f := by
  have fuel : st'.freeFuel nodes = st.freeFuel nodes := by rw [freeFuel, freeFuel, M.map.len]
  rw [OxidArt.subtreeValues, OxidArt.subtreeValues, fuel, freedValues _ M]

theorem delnValues (pfx : Bytes) : st'.delnValues pfx = (st.delnValues pfx).map f := by
  simp only [OxidArt.delnValues, M.rootIdx, M.walk, M.tryGetNode, M.collectChildIndices]
  split
  · cases st.tryGetNode st.rootIdx with
    | none => rfl
    | some n => exact (M.setNode st.rootIdx { n.clearVal with childs := .default }).subtreeValues _
  · cases st.walk pfx with
    | found i p r _ => exact (M.removeChild p r).subtreeValues [i]
    | partialAt i p r common rest _ =>
      simp only
      split
      · exact (M.removeChild p r).subtreeValues [i]
      · rfl
    | _ => rfl

/-! ### Listings -/

theorem findPrefixNode (pfx : Bytes) : st'.findPrefixNode pfx = st.findPrefixNode pfx := by
  simp only [OxidArt.findPrefixNode, M.rootIdx, M.walk, M.tryGetNode]
  split
  · rfl
  · cases st.walk pfx with
    | found i p r path =>
      simp only
      cases st.tryGetNode i <;> rfl
    | partialAt i p r common rest path =>
      simp only
      cases st.tryGetNode i <;> rfl
    | _ => rfl

theorem collectNode {collect : Nat → Bytes → Exec (List (Bytes × V))} {collect' : Nat → Bytes → Exec (List (Bytes × W))}
    (below : ∀ i path, Carries (List.map (Prod.map id f)) (collect i path) (collect' i path)) (i : Nat) (n : Node V) (path : Bytes) :
    Carries (List.map (Prod.map id f)) (st.collectNode collect i n path) (st'.collectNode collect' i (n.mapVal f) path) := by
  simp only [OxidArt.collectNode, M.iterAllChildren, M.now, Node.getValue_mapVal]
  have all : Carries (List.map (List.map (Prod.map id f))) ((st.iterAllChildren i).mapM fun link => collect link.2 (path ++ [link.1]))
      (((st.iterAllChildren i).map id).mapM fun link => collect' link.2 (path ++ [link.1])) :=
    Carries.mapM _ fun link _ => below link.2 (path ++ [link.1])
  rw [List.map_id] at all
  refine all.bind fun lists => .of_eq ?_
  refine congrArg Except.ok ?_
  rw [List.map_append, List.map_flatten]
  refine congrArg (· ++ _) ?_
  cases n.getValue st.now <;> rfl

theorem collectAll (fuel : Nat) : ∀ (i : Nat) (path : Bytes),
    Carries (List.map (Prod.map id f)) (st.collectAll fuel i path) (st'.collectAll fuel i path) := by
  induction fuel with
  | zero => exact fun _ _ => .error _
  | succ fuel ih =>
    intro i path
    simp only [OxidArt.collectAll, M.tryGetNode]
    cases st.tryGetNode i with
    | none => exact .ok []
    | some n => exact M.collectNode ih i n _

theorem getn (pfx : Bytes) : Carries (List.map (Prod.map id f)) (st.getn pfx) (st'.getn pfx) := by
  simp only [OxidArt.getn, M.rootIdx, M.map.len, M.findPrefixNode]
  refine .ite (fun _ => M.collectAll _ _ _) fun _ => ?_
  cases st.findPrefixNode pfx with
  | none => exact .ok rfl
  | some q =>
    simp only [OxidArt.collectAllFrom, M.tryGetNode]
    cases st.tryGetNode q.1 with
    | none => exact .ok rfl
    | some n => exact M.collectNode (M.collectAll _) q.1 n _

/-! ### Evictions -/

theorem deleteNodeForEviction (i p : Nat) (r : UInt8) :
    Agree (Images f) (st.deleteNodeForEviction i p r) (st'.deleteNodeForEviction i p r) := by
  simp only [OxidArt.deleteNodeForEviction, M.tryGetNode]
  cases st.tryGetNode i with
  | none => exact .ok M
  | some n =>
    have M₁ := (M.removeNode i).removeChild p r
    simp only [Option.map_some, M₁.rootIdx]
    exact .ite (fun _ => ((M.clearVal i n).untag i).tryRecompress i) fun _ => .ite (fun _ => M₁.tryRecompress p) fun _ => .ok M₁

end Values

/-! ### Insertions -/

section Insertions

variable {st : OxidArt P V} {st' : OxidArt P W} (M : Images f st st') (U : P.Unordered)

include M U

theorem insert (n : Node V) : (st'.insert (n.mapVal f)).1 = (st.insert n).1 ∧ Images f (st.insert n).2 (st'.insert (n.mapVal f)).2 :=
  ⟨M.map.nextIdx U, M.withMap (M.map.insertSlot U ⟨n, false⟩)⟩

theorem insertTagged (n : Node V) :
    (st'.insertTagged (n.mapVal f)).1 = (st.insertTagged n).1 ∧ Images f (st.insertTagged n).2 (st'.insertTagged (n.mapVal f)).2 :=
  ⟨M.map.nextIdx U, M.withMap (M.map.insertSlot U ⟨n, true⟩)⟩

/-- A node with a deadline is tagged. -/
theorem insertEither {c : Prop} [Decidable c] (n : Node V) :
    (if c then st'.insertTagged (n.mapVal f) else st'.insert (n.mapVal f)).1 = (if c then st.insertTagged n else st.insert n).1 ∧
    Images f (if c then st.insertTagged n else st.insert n).2 (if c then st'.insertTagged (n.mapVal f) else st'.insert (n.mapVal f)).2 := by
  split
  · exact M.insertTagged U n
  · exact M.insert U n

theorem linkEither {c : Prop} [Decidable c] (n : Node V) (p : Nat) (r : UInt8) :
    Agree (Images f)
      ((if c then st.insertTagged n else st.insert n).2.pushChildIdx p (if c then st.insertTagged n else st.insert n).1 r)
      ((if c then st'.insertTagged (n.mapVal f) else st'.insert (n.mapVal f)).2.pushChildIdx p
        (if c then st'.insertTagged (n.mapVal f) else st'.insert (n.mapVal f)).1 r) := by
  obtain ⟨same, M₁⟩ := M.insertEither U (c := c) n
  rw [same]
  exact M₁.pushChildIdx p _ r

theorem createNodeWithVal (p : Nat) (r : UInt8) (v : V) (c : Bytes) (ttl : Nat) :
    Both f id (st.createNodeWithVal p r v c ttl) (st'.createNodeWithVal p r (f v) c ttl) := by
  simp only [OxidArt.createNodeWithVal]
  refine Agree.bind (M.getNode p) ?_
  rintro father _ rfl
  refine Agree.bind (Node.newLeaf_images f c v ttl p r) ?_
  rintro leaf _ rfl
  obtain ⟨same, M₁⟩ := M.insertEither U (c := ttl ≠ ExpAndRadix.noExp) leaf
  rw [same]
  generalize (if ttl ≠ ExpAndRadix.noExp then st.insertTagged leaf else st.insert leaf) = inserted at M₁ ⊢
  generalize (if ttl ≠ ExpAndRadix.noExp then st'.insertTagged (leaf.mapVal f) else st'.insert (leaf.mapVal f)) = inserted' at M₁ ⊢
  simp only [Node.mapVal]
  cases father.childs.isFull with
  | false =>
    refine Agree.bind (M₁.getNode p) ?_
    rintro n _ rfl
    exact .bind_same fun childs => .ok ⟨rfl, M₁.setNode p { n with childs := childs }⟩
  | true =>
    cases father.overflowIdx with
    | none =>
      refine Agree.bind (M₁.allocOverflowWithFirst r inserted.1) ?_
      rintro ⟨s, st₂⟩ ⟨s', st₂'⟩ ⟨same, M₂⟩
      obtain rfl : s' = s := same
      refine Agree.bind (M₂.getNode p) ?_
      rintro n _ rfl
      exact .ok ⟨rfl, M₂.setNode p { n with overflowIdx := some s' }⟩
    | some s =>
      simp only [M₁.overflowArena, M₁.hugeOvf]
      cases inserted.2.overflowArena.get s with
      | none => exact .error _
      | some o => exact .bind_same fun q => .ok ⟨rfl, M₁.withStores _ _⟩

theorem linkEmpty (c : Bytes) (p : Nat) (r : UInt8) :
    Both f id (do
        let (idx, st) := st.insert (.newEmptyLeaf c p r)
        let st ← st.pushChildIdx p idx r
        return (idx, st))
      (do
        let (idx, st) := st'.insert (.newEmptyLeaf c p r)
        let st ← st.pushChildIdx p idx r
        return (idx, st)) := by
  obtain ⟨same, M₁⟩ := M.insert U (.newEmptyLeaf c p r)
  have same : (st'.insert (.newEmptyLeaf c p r)).1 = (st.insert (.newEmptyLeaf c p r)).1 := same
  simp only [same]
  exact Agree.bind (M₁.pushChildIdx p _ r) fun _ _ M₂ => .ok ⟨rfl, M₂⟩

theorem splitLeaf (common : Nat) (rest : Bytes) (i : Nat) (ttl : Option Nat) (v : Option V) :
    Both f id (st.splitLeaf common rest i ttl v) (st'.splitLeaf common rest i ttl (v.map f)) := by
  simp only [OxidArt.splitLeaf]
  cases rest[common]? with
  | none => exact .error _
  | some r =>
    cases v with
    | none => exact M.linkEmpty U _ i r
    | some v => exact M.createNodeWithVal U i r v _ _

theorem splitNode (common : Nat) (rest : Bytes) (i : Nat) (ttl : Option Nat) (v : Option V) :
    Both f id (st.splitNode common rest i ttl v) (st'.splitNode common rest i ttl (v.map f)) := by
  simp only [OxidArt.splitNode]
  refine Agree.bind (M.getNode i) ?_
  rintro old _ rfl
  refine Agree.bind (splitIntermediate_images f old common (common == rest.length) ttl v) ?_
  rintro node _ rfl
  have M₁ := M.setNode i node
  simp only [Node.mapVal]
  cases old.compression[common]? with
  | none => exact .error _
  | some r =>
    let child : Node V := { old with compression := old.compression.drop (common + 1), parentIdx := some i }
    refine Agree.bind (M₁.linkEither U (c := old.expAndRadix.doesExpire = true) child i r) fun st₃ st₃' M₃ => ?_
    exact .ite (fun _ => .ok ⟨rfl, M₃⟩) fun _ => M₃.splitLeaf U common rest i ttl v

theorem setInternal (key : Bytes) (ttl : Nat) (v : V) : Agree (Images f) (st.setInternal key ttl v) (st'.setInternal key ttl (f v)) := by
  simp only [OxidArt.setInternal, M.rootIdx, M.walk]
  refine .ite (fun _ => ?_) fun _ => ?_
  · refine Agree.bind (M.getNode st.rootIdx) ?_
    rintro n _ rfl
    refine Agree.bind (Node.setVal_images f n v ttl) ?_
    rintro n' _ rfl
    exact .ok (M.setNode st.rootIdx n')
  · cases st.walk key with
    | found i p r _ =>
      refine Agree.bind (M.getNode i) ?_
      rintro n _ rfl
      refine Agree.bind (Node.setVal_images f n v ttl) ?_
      rintro n' _ rfl
      exact .ok (M.setNode i n')
    | partialAt i p r common rest _ =>
      exact Agree.bind (M.splitNode U common rest i (some ttl) (some v)) fun _ _ both => .ok both.2
    | noChild i rest =>
      cases rest with
      | nil => exact .error _
      | cons r rest => exact Agree.bind (M.createNodeWithVal U i r v rest ttl) fun _ _ both => .ok both.2
    | gone i => exact .error _

theorem set (key : Bytes) (v : V) : Agree (Images f) (st.set key v) (st'.set key (f v)) := M.setInternal U key _ v

theorem setTtl (key : Bytes) (ttl : Nat) (v : V) : Agree (Images f) (st.setTtl key ttl v) (st'.setTtl key ttl (f v)) := by
  rw [OxidArt.setTtl, OxidArt.setTtl, M.now]
  exact M.setInternal U key _ v

theorem ensureKey (key : Bytes) : Both f id (st.ensureKey key) (st'.ensureKey key) := by
  simp only [OxidArt.ensureKey, M.rootIdx, M.walk]
  refine .ite (fun _ => .ok ⟨rfl, M⟩) fun _ => ?_
  cases st.walk key with
  | found i p r _ => exact .ok ⟨rfl, M⟩
  | partialAt i p r common rest _ => exact M.splitNode U common rest i none none
  | noChild i rest =>
    cases rest with
    | nil => exact .error _
    | cons r rest => exact M.linkEmpty U rest i r
  | gone i => exact .error _

/-- A container is found or made on both sides, where the images of containers are containers and of others are none. -/
theorem getOrCreate (isContainer : V → Bool) (isContainer' : W → Bool) (kept : ∀ v, isContainer' (f v) = isContainer v)
    (empty : V) (ttl : Option Nat) (key : Bytes) :
    Both f (Except.map fun q : Nat × V × Bool => (q.1, f q.2.1, q.2.2)) (st.getOrCreate isContainer empty ttl key)
      (st'.getOrCreate isContainer' (f empty) ttl key) := by
  simp only [OxidArt.getOrCreate]
  refine Agree.bind (M.ensureKey U key) ?_
  rintro ⟨i, st₁⟩ ⟨i', st₁'⟩ ⟨same, M₁⟩
  obtain rfl : i' = i := same
  change Images f st₁ st₁' at M₁
  refine Agree.bind (M₁.getNode i') ?_
  rintro n _ rfl
  simp only [M₁.now, Node.getValue_mapVal]
  cases n.getValue st₁.now with
  | some v =>
    simp only [Option.map_some, kept]
    exact .ite (fun _ => .ok ⟨rfl, M₁⟩) fun _ => .ok ⟨rfl, M₁⟩
  | none =>
    have seen (e : ExpAndRadix) : (⟨n.compression, n.childs, some (f empty), e, n.overflowIdx, n.parentIdx⟩ : Node W).getValue st₁.now =
        ((⟨n.compression, n.childs, some empty, e, n.overflowIdx, n.parentIdx⟩ : Node V).getValue st₁.now).map f :=
      Node.getValue_mapVal f ⟨n.compression, n.childs, some empty, e, n.overflowIdx, n.parentIdx⟩ st₁.now
    have made (e : ExpAndRadix) := M₁.setNode i' ⟨n.compression, n.childs, some empty, e, n.overflowIdx, n.parentIdx⟩
    rcases ttl with _ | ttl
    · simp only [Option.map_none, Node.mapVal, pure_bind, now_setNode, M₁.now, seen]
      cases Node.getValue _ st₁.now with
      | none => exact .error _
      | some v => exact .ok ⟨rfl, made n.expAndRadix⟩
    · refine Agree.bind_same fun e => ?_
      simp only [Node.mapVal, now_setNode, M₁.now, seen]
      cases Node.getValue _ st₁.now with
      | none => exact .error _
      | some v => exact .ok ⟨rfl, made e⟩

end Insertions

end Images

/-- Two new stores are the same, whatever their values are. -/
theorem images_new {P : Policy} {V W : Type} (f : V → W) (U : P.Unordered) : Images f (new : OxidArt P V) (new : OxidArt P W) := by
  refine ⟨(TaggedHiSlab.images_empty (Node.mapVal f)).insertSlot U ⟨.default, false⟩, rfl, rfl, rfl, rfl⟩

end OxidArt

end Radixox.Oxidart
