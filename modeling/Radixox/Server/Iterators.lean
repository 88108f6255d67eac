import Radixox.Server.Storages

/-!
# The iterator of the small vector

`into_iter` takes the address of the last element and then moves the vector into the iterator. The
block of the heap form stays where it is; the inline cells go with the vector, to the place of the
iterator, and a pointer to the place before is left behind.
-/

namespace Radixox.Server
set_option autoImplicit false
open Radixox.Blocks Runs

variable {S : Nat} {T : Type}

/-! ## The code -/

/-- Where elements lie: inside the vector that a place holds, or in a block. -/
inductive Region where
  | place (p : Nat)
  | block (b : Nat)
deriving DecidableEq

/-- The address of an element. -/
structure Pointer where
  region : Region
  index : Int
deriving DecidableEq

/-- `ptr.add(n)`, and `ptr.sub(n)` for a negative number. -/
def Pointer.add (ptr : Pointer) (n : Int) : Pointer := { ptr with index := ptr.index + n }

structure SmallVecIterator (S : Nat) (T : Type) where
  ptr : Pointer
  vec : StoredVec S T

/-- `get_ptr` of a vector that a place holds. -/
def StoredVec.getPtr (v : StoredVec S T) (place : Nat) : Except StorageFault Pointer :=
  if v.isHeap then do return ⟨.block (← v.data.block), 0⟩ else .ok ⟨.place place, 0⟩

/-- `into_iter` of a vector that a place holds. -/
def StoredVec.intoIter (v : StoredVec S T) (place : Nat) : Except StorageFault (SmallVecIterator S T) := do
  let first ← v.getPtr place
  return ⟨if v.len = 0 then first else first.add (v.len - 1), v⟩

namespace SmallVecIterator

/-- `ptr.read()`, while a place holds the iterator. -/
def readPtr (it : SmallVecIterator S T) (place : Nat) (mem : ElementMemory T) : Except StorageFault (List T) :=
  if it.ptr.index < 0 then .error .outOfBounds
  else match it.ptr.region with
    | .block b => access .outOfBounds (load mem b it.ptr.index.toNat 1)
    | .place p => if p = place then do access .outOfBounds (read (← it.vec.data.cells) it.ptr.index.toNat 1) else .error .dangling

/-- `next`: the item, if any. -/
def next (it : SmallVecIterator S T) (place : Nat) (mem : ElementMemory T) :
    Except StorageFault (Option T × SmallVecIterator S T) :=
  if it.vec.len = 0 then .ok (none, it)
  else do
    let vec := { it.vec with len := it.vec.len - 1 }
    let item ← it.readPtr place mem
    return (item.head?, ⟨it.ptr.add (-1), vec⟩)

end SmallVecIterator

/-- An iterator and the place that holds it. Places are numbered in the order in which the value comes to them. -/
structure Held (S : Nat) (T : Type) where
  it : SmallVecIterator S T
  place : Nat

/-- What a program does with an iterator. -/
inductive Use where
  | next
  | move
deriving DecidableEq

namespace Held

/-- The iterator of a vector at place `here`, whose cells go with it to the next place. -/
def start (v : StoredVec S T) (here : Nat) : Except StorageFault (Held S T) := do
  let it ← v.intoIter here
  return ⟨it, here + 1⟩

/-- One use, with what it yields. -/
def step (mem : ElementMemory T) (h : Held S T) : Use → Except StorageFault (List (Option T) × Held S T)
  | .next => do
    let (item, it) ← h.it.next h.place mem
    return ([item], { h with it := it })
  | .move => .ok ([], { h with place := h.place + 1 })

/-- The pointer refers to the last element of the storage that the iterator owns. -/
def PointsToLast (h : Held S T) : Prop :=
  h.it.vec.len ≠ 0 → ∃ first, h.it.vec.getPtr h.place = .ok first ∧ h.it.ptr = first.add (h.it.vec.len - 1)

/-- What `k` calls of `next` are meant to yield: the last `k` elements, the last one first. -/
def lastOnes (items : List T) (k : Nat) : List (Option T) := (List.range k).map fun i => items.reverse[i]?

/-- After these uses the pointer is right, `next` has yielded the last elements, and dropping the
iterator drops the others, each once. -/
def Drains (base mem : ElementMemory T) (items : List T) (h : Held S T) (uses : List Use) : Prop :=
  ∃ replies h', run (step mem) uses h = .ok (replies, h') ∧ h'.PointsToLast ∧
    replies.flatten = lastOnes items (uses.count .next) ∧
    ∀ needsDrop, h'.it.vec.drop needsDrop mem = .ok (if needsDrop then items.take (items.length - uses.count .next) else [], base)

variable {base mem : ElementMemory T} {v : StoredVec S T} {h : Held S T} {items : List T} {size : Nat}

/-! ## One call of `next` -/

/-- The vector without its last element. -/
def pop (v : StoredVec S T) : StoredVec S T := { v with len := v.len - 1 }

theorem stands_pop {last : T} (stands : StoredVec.Stands base mem v ⟨size, items ++ [last]⟩) :
    StoredVec.Stands base mem (pop v) ⟨size, items⟩ := by
  cases stands with
  | @inline len cells _ length fits front =>
    rw [List.length_append, List.length_singleton] at length
    exact .inline (show items.length = len - 1 by omega) (Nat.le_trans (Nat.sub_le len 1) fits) front.dropLast
  | @heap _ len block c _ length large free front =>
    rw [List.length_append, List.length_singleton] at length
    exact .heap (show items.length = len - 1 by omega) large free front.dropLast

/-- What `take` and `last` say of a list that loses its last element. -/
theorem lastOnes_succ (items : List T) (last : T) (k : Nat) : lastOnes (items ++ [last]) (k + 1) = some last :: lastOnes items k := by
  rw [lastOnes, lastOnes, List.range_succ_eq_map, List.map_cons, List.map_map, List.reverse_append]
  rfl

theorem lastOnes_nil (k : Nat) : lastOnes ([] : List T) k = List.replicate k none := by
  rw [lastOnes, List.eq_replicate_iff]
  exact ⟨by rw [List.length_map, List.length_range], fun b member => by
    obtain ⟨i, _, rfl⟩ := List.mem_map.1 member
    rfl⟩

theorem getPtr_heap {len block : Nat} (large : S % 2 ^ 32 < size) (place : Nat) :
    (⟨size, len, .ptr block⟩ : StoredVec S T).getPtr place = .ok ⟨.block block, 0⟩ := by
  rw [StoredVec.getPtr, if_pos (StoredVec.isHeap_of_lt large)]
  rfl

theorem getPtr_inline (len : Nat) (cells : List (Option T)) (place : Nat) :
    (⟨S % 2 ^ 32, len, .inline cells⟩ : StoredVec S T).getPtr place = .ok ⟨.place place, 0⟩ := by
  rw [StoredVec.getPtr, if_neg (StoredVec.isHeap_inline _ _)]

theorem pointsToLast_heap {len block place : Nat} {ptr : Pointer} (large : S % 2 ^ 32 < size) :
    PointsToLast (⟨⟨ptr, ⟨size, len, .ptr block⟩⟩, place⟩ : Held S T) ↔ (len ≠ 0 → ptr = ⟨.block block, len - 1⟩) := by
  refine imp_congr_right fun _ => ⟨?_, fun right => ⟨_, getPtr_heap large place, ?_⟩⟩
  · rintro ⟨first, got, right⟩
    obtain rfl := Except.ok.inj ((getPtr_heap large place).symm.trans got)
    rw [show ptr = _ from right, Pointer.add, Int.zero_add]
  · rw [Pointer.add, Int.zero_add]
    exact right

/-- The iterator of a vector on the heap, with its pointer at the last element. -/
structure OnHeap (base mem : ElementMemory T) (h : Held S T) (size : Nat) (items : List T) : Prop where
  stands : StoredVec.Stands base mem h.it.vec ⟨size, items⟩
  large : S % 2 ^ 32 < size
  points : h.PointsToLast

/-- The block stays where it is when the iterator is moved. -/
theorem OnHeap.move (on : OnHeap base mem h size items) : OnHeap base mem ⟨h.it, h.place + 1⟩ size items := by
  obtain ⟨⟨ptr, vec⟩, place⟩ := h
  obtain ⟨stands, large, points⟩ := on
  refine ⟨stands, large, ?_⟩
  cases stands with
  | inline _ _ _ => exact absurd large (Nat.lt_irrefl _)
  | heap length _ free front => exact (pointsToLast_heap large).2 ((pointsToLast_heap large).1 points)

/-- `next` yields the last element and steps back to the one before. -/
theorem next_heap {last : T} (on : OnHeap base mem h size (items ++ [last])) :
    ∃ it, h.it.next h.place mem = .ok (some last, it) ∧ OnHeap base mem ⟨it, h.place⟩ size items := by
  obtain ⟨⟨ptr, vec⟩, place⟩ := h
  obtain ⟨stands, large, points⟩ := on
  have popped := stands_pop stands
  cases stands with
  | inline _ _ _ => exact absurd large (Nat.lt_irrefl _)
  | @heap _ len block c _ length _ free front =>
    rw [List.length_append, List.length_singleton] at length
    subst length
    obtain rfl := (pointsToLast_heap large).1 points (Nat.succ_ne_zero _)
    have here : Function.update base block (some c) block = some c := Function.update_self ..
    have item := load_front here front
    rw [List.length_singleton] at item
    have index : ((items.length + 1 : Nat) - 1 : Int) = items.length := by omega
    have nonneg : ¬ (items.length : Int) < 0 := Int.not_lt.2 (Int.natCast_nonneg _)
    refine ⟨⟨⟨.block block, items.length - 1⟩, pop ⟨size, items.length + 1, .ptr block⟩⟩, ?_, popped, large,
      (pointsToLast_heap large).2 fun _ => rfl⟩
    simp only [SmallVecIterator.next, SmallVecIterator.readPtr, index, if_neg nonneg, Int.toNat_natCast, item, access, Option.elim,
      if_neg (Nat.succ_ne_zero _), bind, Except.bind, pure, Except.pure, List.head?_cons]
    rfl

/-! ## Runs -/

theorem Drains.nil (stands : StoredVec.Stands base mem h.it.vec ⟨size, items⟩) (points : h.PointsToLast) :
    Drains base mem items h [] :=
  ⟨[], h, rfl, points, rfl, fun needsDrop => by rw [stands.drop, List.count_nil, Nat.sub_zero, List.take_length]⟩

theorem Drains.move {uses : List Use} (rest : Drains base mem items ⟨h.it, h.place + 1⟩ uses) : Drains base mem items h (.move :: uses) := by
  obtain ⟨replies, h', ran, points, yielded, dropped⟩ := rest
  exact ⟨[] :: replies, h', run_cons rfl ran, points, yielded, dropped⟩

/-- A call of `next`, then the uses of an iterator over what is left. -/
theorem Drains.next {uses : List Use} {item : Option T} {it : SmallVecIterator S T} {left : List T}
    (taken : h.it.next h.place mem = .ok (item, it)) (yields : ∀ k, lastOnes items (k + 1) = item :: lastOnes left k)
    (leaves : ∀ k, items.take (items.length - (k + 1)) = left.take (left.length - k))
    (rest : Drains base mem left ⟨it, h.place⟩ uses) : Drains base mem items h (.next :: uses) := by
  obtain ⟨replies, h', ran, points, yielded, dropped⟩ := rest
  have first : step mem h .next = .ok ([item], ⟨it, h.place⟩) := by
    simp only [step, taken, bind, Except.bind, pure, Except.pure]
  refine ⟨[item] :: replies, h', run_cons first ran, points, ?_, fun needsDrop => ?_⟩
  · rw [List.count_cons_self, yields, ← yielded]
    rfl
  · rw [List.count_cons_self, leaves]
    exact dropped needsDrop

/-- An iterator without elements yields none, wherever it points. -/
theorem drains_empty (uses : List Use) : ∀ {h : Held S T},
    StoredVec.Stands base mem h.it.vec ⟨size, []⟩ → Drains base mem [] h uses := by
  induction uses with
  | nil => exact fun stands => .nil stands fun some => absurd stands.len some
  | cons use rest ih =>
    intro h stands
    cases use with
    | move => exact .move (ih stands)
    | next =>
      have nothing : h.it.next h.place mem = .ok (none, h.it) := if_pos stands.len
      exact .next nothing (fun k => by rw [lastOnes_nil, lastOnes_nil, List.replicate_succ]) (fun _ => by simp) (ih stands)

theorem drains_heap (uses : List Use) : ∀ {h : Held S T} {items : List T},
    OnHeap base mem h size items → Drains base mem items h uses := by
  induction uses with
  | nil => exact fun on => .nil on.stands on.points
  | cons use rest ih =>
    intro h items on
    rcases List.eq_nil_or_concat items with rfl | ⟨left, last, rfl⟩
    · exact drains_empty _ on.stands
    · cases use with
      | next =>
        rw [List.concat_eq_append] at on ⊢
        obtain ⟨it, taken, on'⟩ := next_heap on
        refine .next taken (lastOnes_succ left last) (fun k => ?_) (ih on')
        rw [List.length_append, List.length_singleton, Nat.add_sub_add_right, List.take_append_of_le_length (Nat.sub_le _ _)]
      | move =>
        exact .move (ih (on.move))

theorem start_eq {here : Nat} {first : Pointer} (got : v.getPtr here = .ok first) :
    start v here = .ok ⟨⟨if v.len = 0 then first else first.add (v.len - 1), v⟩, here + 1⟩ := by
  simp only [start, StoredVec.intoIter, got, bind, Except.bind, pure, Except.pure]

/-- The iterator of any vector works, through any uses and moves, if and only if the vector is on the
heap or empty: the pointer into the inline cells is taken before they move with the vector. -/
theorem intoIter_drains {w : SmallVec S T} (stands : StoredVec.Stands base mem v w) (here : Nat) :
    ∃ h : Held S T, start v here = .ok h ∧ ((∀ uses, Drains base mem w.items h uses) ↔ S % 2 ^ 32 < v.size ∨ w.items = []) := by
  have standing := stands
  cases stands with
  | @inline len cells items length fits front =>
    have got := getPtr_inline (S := S) len cells here
    refine ⟨_, start_eq got, fun drains => ?_, ?_⟩
    · obtain ⟨_, h', ran, points, _⟩ := drains []
      obtain rfl := (Prod.mk.inj (Except.ok.inj ran)).2
      refine .inr (List.eq_nil_of_length_eq_zero (length.trans (Decidable.byContradiction fun some => ?_)))
      -- The pointer is at the place before the move.
      obtain ⟨first, own, same⟩ := points some
      obtain rfl := Except.ok.inj ((getPtr_inline len cells (here + 1)).symm.trans own)
      have region := congrArg Pointer.region same
      simp only [if_neg some, Pointer.add] at region
      exact Nat.succ_ne_self here (Region.place.inj region).symm
    · rintro (large | rfl)
      · exact absurd large (Nat.lt_irrefl _)
      · exact fun uses => drains_empty uses standing
  | @heap size len block c items length large free front =>
    have got : (⟨size, len, .ptr block⟩ : StoredVec S T).getPtr here = .ok ⟨.block block, 0⟩ := getPtr_heap large here
    refine ⟨_, start_eq got, fun _ => .inl large,
      fun _ uses => drains_heap uses ⟨standing, large, (pointsToLast_heap large).2 fun some => ?_⟩⟩
    rw [if_neg some, Pointer.add, Int.zero_add]

/-- Five elements on the heap: any calls and moves. -/
theorem intoIter_drains_heap :
    ∃ h : Held 2 Nat, start (⟨8, 5, .ptr 3⟩ : StoredVec 2 Nat) 0 = .ok h ∧
      ((∀ uses, Drains (fun _ => none)
          (Function.update (fun _ => none) 3 (some [some 1, some 2, some 3, some 4, some 5, none, none, none])) [1, 2, 3, 4, 5] h uses) ↔
        2 % 2 ^ 32 < 8 ∨ [1, 2, 3, 4, 5] = []) := by
  have front : Front [some 1, some 2, some 3, some 4, some 5, none, none, none] [1, 2, 3, 4, 5] 8 := ⟨[none, none, none], rfl, rfl⟩
  have stands : StoredVec.Stands (fun _ => none) _ (⟨8, 5, .ptr 3⟩ : StoredVec 2 Nat) ⟨8, [1, 2, 3, 4, 5]⟩ :=
    .heap rfl (by decide) rfl front
  exact intoIter_drains stands 0

/-- Three elements inline: the first call of `next` reads where the vector was before it moved. -/
theorem intoIter_dangles :
    ∃ h : Held 4 Nat, start (⟨4, 3, .inline [some 1, some 2, some 3, none]⟩ : StoredVec 4 Nat) 0 = .ok h ∧
      (match step (fun _ => none) h .next with | .ok _ => none | .error fault => some fault) = some .dangling ∧
      ¬ ∀ uses, Drains (fun _ => none) (fun _ => none) [1, 2, 3] h uses := by
  refine ⟨⟨⟨⟨.place 0, 2⟩, ⟨4, 3, .inline [some 1, some 2, some 3, none]⟩⟩, 1⟩, rfl, rfl, fun drains => ?_⟩
  obtain ⟨replies, h', ran, _⟩ := drains [.next]
  cases ran

end Held

end Radixox.Server
