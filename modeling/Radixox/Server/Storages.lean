import Radixox.Lib.Blocks
import Radixox.Lib.Runs
import Radixox.Server.SmallVec

/-!
# The storages of the small vector

`small_vec.rs` once more, with the cells that the elements lie in: `S` cells inside the vector, then
a block of the allocator. Nothing but `size` tells which of the two the union holds. `SmallVec` is
the size and the list of the elements; `Stands` says which one a stored vector stands for.
-/

namespace Radixox.Server
set_option autoImplicit false
open Radixox.Blocks Runs

variable {S : Nat} {T : Type}

/-! ## The code -/

/-- The union, with the form that was stored last; a pointer is the address of a block. -/
inductive SmallVecData (T : Type) where
  | inline (cells : List (Option T))
  | ptr (block : Nat)

/-- What stops the code, or must not happen: the other field of the union, a cell that is not there
or not written, a failed assertion, a place that was left, a size that does not fit. -/
inductive StorageFault where
  | form
  | outOfBounds
  | assertion
  | dangling
  | overflow (e : SizeOverflow)
deriving DecidableEq

/-- The blocks of the allocator. -/
abbrev ElementMemory (T : Type) := Memory Nat T

structure StoredVec (S : Nat) (T : Type) where
  size : Nat
  len : Nat
  data : SmallVecData T

namespace SmallVecData

/-- `data.inline`. -/
def cells : SmallVecData T → Except StorageFault (List (Option T))
  | inline cells => .ok cells
  | ptr _ => .error .form

/-- `data.ptr`. -/
def block : SmallVecData T → Except StorageFault Nat
  | inline _ => .error .form
  | ptr block => .ok block

def pointsTo : SmallVecData T → Nat → Bool
  | inline _, _ => false
  | ptr block, b => block == b

theorem pointsTo_iff (data : SmallVecData T) (b : Nat) : data.pointsTo b = true ↔ data = ptr b := by
  cases data with
  | inline cells => exact iff_of_false Bool.false_ne_true fun same => nomatch same
  | ptr block => exact beq_iff_eq.trans ⟨congrArg ptr, ptr.inj⟩

end SmallVecData

namespace StoredVec

/-- `S as u32` for the size. -/
def new : StoredVec S T := ⟨S % 2 ^ 32, 0, .inline (List.replicate S none)⟩

def isHeap (v : StoredVec S T) : Bool := S % 2 ^ 32 < v.size

def isInline (v : StoredVec S T) : Bool := v.size ≤ S

/-- `promote`; `block` is the answer of `alloc`. -/
def promote (v : StoredVec S T) (mem : ElementMemory T) (block : Nat) : Except StorageFault (StoredVec S T × ElementMemory T) :=
  if v.size * 2 < 2 ^ 32 then do
    let heapSize := max 4 (v.size * 2)
    let mem := allocate mem block heapSize
    let items ← access .outOfBounds (read (← v.data.cells) 0 v.len)
    let mem ← access .outOfBounds (store mem block 0 items)
    return ({ v with data := .ptr block, size := heapSize }, mem)
  else .error (.overflow .promote)

/-- `growth`; `block` is the answer of `realloc`. -/
def growth (v : StoredVec S T) (mem : ElementMemory T) (block : Nat) : Except StorageFault (StoredVec S T × ElementMemory T) :=
  if v.isHeap then
    if v.size * 2 < 2 ^ 32 then do
      let newSize := v.size * 2
      let mem ← access .outOfBounds (reallocate mem (← v.data.block) v.size block newSize)
      return ({ v with data := .ptr block, size := newSize }, mem)
    else .error (.overflow .growth)
  else .error .assertion

/-- The heap part of `push`. -/
def pushHeap (v : StoredVec S T) (mem : ElementMemory T) (item : T) (block : Nat) :
    Except StorageFault (StoredVec S T × ElementMemory T) := do
  let (v, mem) ← if v.len = v.size then v.growth mem block else pure (v, mem)
  let mem ← access .outOfBounds (store mem (← v.data.block) v.len [item])
  return ({ v with len := v.len + 1 }, mem)

/-- `push`, with the answer of the allocator. -/
def push (v : StoredVec S T) (mem : ElementMemory T) (item : T) (block : Nat) :
    Except StorageFault (StoredVec S T × ElementMemory T) :=
  if v.isInline then
    if v.len < v.size then do
      let cells ← access .outOfBounds (splice (← v.data.cells) v.len [some item])
      return ({ v with data := .inline cells, len := v.len + 1 }, mem)
    else do
      let (v, mem) ← v.promote mem block
      v.pushHeap mem item block
  else v.pushHeap mem item block

/-- The slice view. -/
def deref (v : StoredVec S T) (mem : ElementMemory T) : Except StorageFault (List T) := do
  if v.isHeap then access .outOfBounds (load mem (← v.data.block) 0 v.len)
  else access .outOfBounds (read (← v.data.cells) 0 v.len)

/-- `free_inline`: the elements that are dropped, if the type has something to drop. -/
def freeInline (needsDrop : Bool) (v : StoredVec S T) : Except StorageFault (List T) :=
  if needsDrop then do access .outOfBounds (read (← v.data.cells) 0 v.len) else .ok []

/-- `free_heap`. -/
def freeHeap (needsDrop : Bool) (v : StoredVec S T) (mem : ElementMemory T) : Except StorageFault (List T × ElementMemory T) := do
  let block ← v.data.block
  let dropped ← if needsDrop then access .outOfBounds (load mem block 0 v.len) else .ok []
  let mem ← access .outOfBounds (release mem block v.size)
  return (dropped, mem)

/-- The destructor: the elements it drops and the memory it leaves. -/
def drop (needsDrop : Bool) (v : StoredVec S T) (mem : ElementMemory T) : Except StorageFault (List T × ElementMemory T) :=
  if v.isHeap then v.freeHeap needsDrop mem else do
    let dropped ← v.freeInline needsDrop
    return (dropped, mem)

/-- One push, with the answer of the allocator. -/
def pushStep (st : StoredVec S T × ElementMemory T) (p : T × Nat) : Except StorageFault (Unit × StoredVec S T × ElementMemory T) := do
  let st ← st.1.push st.2 p.1 p.2
  return ((), st)

/-- What the allocator promises when it is asked: an address that no live block has, or for
`realloc` also the one that the block has. -/
def Served (st : StoredVec S T × ElementMemory T) (p : T × Nat) : Prop :=
  st.1.len = st.1.size → st.2 p.2 = none ∨ st.1.data = .ptr p.2

instance (st : StoredVec S T × ElementMemory T) (p : T × Nat) : Decidable (Served st p) :=
  decidable_of_iff (st.1.len = st.1.size → (st.2 p.2).isNone = true ∨ st.1.data.pointsTo p.2 = true)
    (imp_congr_right fun _ => or_congr Option.isNone_iff_eq_none (SmallVecData.pointsTo_iff _ _))

/-! ## What a stored vector stands for -/

/-- The elements lie in the cells of the form that the size tells, in a memory that is `base` but
for the block of the vector. -/
inductive Stands (base : ElementMemory T) : ElementMemory T → StoredVec S T → SmallVec S T → Prop where
  | inline {len : Nat} {cells : List (Option T)} {items : List T} (length : items.length = len) (fits : len ≤ S % 2 ^ 32)
      (front : Front cells items S) : Stands base base ⟨S % 2 ^ 32, len, .inline cells⟩ ⟨S % 2 ^ 32, items⟩
  | heap {size len block : Nat} {c : List (Option T)} {items : List T} (length : items.length = len) (large : S % 2 ^ 32 < size)
      (free : base block = none) (front : Front c items size) :
      Stands base (Function.update base block (some c)) ⟨size, len, .ptr block⟩ ⟨size, items⟩

theorem stands_new (base : ElementMemory T) : Stands base base (new : StoredVec S T) ⟨S % 2 ^ 32, []⟩ :=
  .inline rfl (Nat.zero_le _) (front_uninit S)

theorem isHeap_of_lt {v : StoredVec S T} (large : S % 2 ^ 32 < v.size) : v.isHeap = true := decide_eq_true large

theorem isHeap_inline (len : Nat) (data : SmallVecData T) : ¬ (⟨S % 2 ^ 32, len, data⟩ : StoredVec S T).isHeap = true :=
  fun heap => Nat.lt_irrefl _ (of_decide_eq_true heap)

namespace Stands

variable {base mem : ElementMemory T} {v : StoredVec S T} {w : SmallVec S T}

theorem len (stands : Stands base mem v w) : v.len = w.items.length := by
  cases stands with
  | inline length _ _ => exact length.symm
  | heap length _ _ _ => exact length.symm

theorem size (stands : Stands base mem v w) : v.size = w.size := by cases stands <;> rfl

theorem len_le (stands : Stands base mem v w) : v.len ≤ v.size := by
  cases stands with
  | inline _ fits _ => exact fits
  | heap length _ _ front => exact length ▸ front.le

theorem heap_iff (stands : Stands base mem v w) : S % 2 ^ 32 < v.size ↔ ∃ block, v.data = .ptr block := by
  cases stands with
  | inline _ _ _ => exact iff_of_false (Nat.lt_irrefl _) fun ⟨_, same⟩ => nomatch same
  | heap _ large _ _ => exact iff_of_true large ⟨_, rfl⟩

theorem deref (stands : Stands base mem v w) : v.deref mem = .ok w.items := by
  cases stands with
  | @inline len cells items length fits front =>
    subst length
    rw [StoredVec.deref, if_neg (isHeap_inline _ _)]
    simp only [SmallVecData.cells, front.read_all, access, bind, Except.bind, Option.elim]
  | @heap size len block c items length large free front =>
    subst length
    have here : Function.update base block (some c) block = some c := Function.update_self ..
    rw [StoredVec.deref, if_pos (isHeap_of_lt large)]
    simp only [SmallVecData.block, load_all here front, access, bind, Except.bind, Option.elim]

/-- The destructor drops the elements, each once, and gives the block back. -/
theorem drop (stands : Stands base mem v w) (needsDrop : Bool) :
    v.drop needsDrop mem = .ok (if needsDrop then w.items else [], base) := by
  cases stands with
  | @inline len cells items length fits front =>
    subst length
    rw [StoredVec.drop, if_neg (isHeap_inline _ _)]
    cases needsDrop with
    | false => rfl
    | true =>
      simp only [freeInline, if_true, SmallVecData.cells, front.read_all, access, bind, Except.bind, Option.elim]
      rfl
  | @heap size len block c items length large free front =>
    subst length
    have here : Function.update base block (some c) block = some c := Function.update_self ..
    have freed : Function.update base block none = base := Function.update_eq_self_iff.2 free.symm
    rw [StoredVec.drop, if_pos (isHeap_of_lt large)]
    cases needsDrop <;>
      simp [freeHeap, SmallVecData.block, load_all here front, release_front here front, freed, access, bind, Except.bind] <;> rfl

end Stands

/-! ## Pushing -/

/-- What the heap part of `push` does to size and elements. -/
theorem pushHeap_cases {w w' : SmallVec S T} {item : T} (pushed : w.pushHeap item = .ok w') :
    (w.len = w.size ∧ w.size * 2 < 2 ^ 32 ∧ w' = ⟨w.size * 2, w.items ++ [item]⟩) ∨
      (w.len ≠ w.size ∧ w' = ⟨w.size, w.items ++ [item]⟩) := by
  unfold SmallVec.pushHeap SmallVec.growth at pushed
  split at pushed
  next full =>
    split at pushed
    next small => exact .inl ⟨full, small, (Except.ok.inj pushed).symm⟩
    next => cases pushed
  next room => exact .inr ⟨room, (Except.ok.inj pushed).symm⟩

/-- The ways of a push: inline, from inline to the heap, on the heap. -/
theorem push_cases {w w' : SmallVec S T} {item : T} (pushed : w.push item = .ok w') :
    (w.size ≤ S ∧ w.len < w.size ∧ w' = ⟨w.size, w.items ++ [item]⟩) ∨
      (w.size ≤ S ∧ w.size ≤ w.len ∧ w.size * 2 < 2 ^ 32 ∧
        (⟨max 4 (w.size * 2), w.items⟩ : SmallVec S T).pushHeap item = .ok w') ∨
      (S < w.size ∧ w.pushHeap item = .ok w') := by
  unfold SmallVec.push at pushed
  split at pushed
  next inline =>
    split at pushed
    next room => exact .inl ⟨of_decide_eq_true inline, room, (Except.ok.inj pushed).symm⟩
    next full =>
      unfold SmallVec.promote at pushed
      split at pushed
      next small => exact .inr (.inl ⟨of_decide_eq_true inline, Nat.le_of_not_lt full, small, pushed⟩)
      next => cases pushed
  next heap => exact .inr (.inr ⟨Nat.lt_of_not_le fun le => heap (decide_eq_true le), pushed⟩)

/-- A push cannot overflow a size while there are fewer than `2 ^ 31` elements. -/
theorem push_fits {w : SmallVec S T} (fits : w.len ≤ w.size) (few : w.len < 2 ^ 31) (item : T) : ∃ w', w.push item = .ok w' := by
  have pushes : ∀ u : SmallVec S T, (u.len = u.size → u.size * 2 < 2 ^ 32) → ∃ w', u.pushHeap item = .ok w' := by
    intro u room
    unfold SmallVec.pushHeap SmallVec.growth
    split
    next full =>
      rw [if_pos (room full)]
      exact ⟨_, rfl⟩
    next => exact ⟨_, rfl⟩
  unfold SmallVec.push
  split
  · split
    · exact ⟨_, rfl⟩
    · rw [SmallVec.promote, if_pos (by omega)]
      refine pushes { w with size := max 4 (w.size * 2) } fun full => ?_
      have same : w.len = max 4 (w.size * 2) := full
      show max 4 (w.size * 2) * 2 < 2 ^ 32
      omega
  · exact pushes w fun full => by omega

/-- A write behind the last element, in a block that has room for it. -/
theorem store_stands {base : ElementMemory T} {size block : Nat} {c : List (Option T)} {items : List T} (large : S % 2 ^ 32 < size)
    (free : base block = none) (front : Front c items size) (room : items.length < size) (item : T) :
    ∃ mem', access .outOfBounds (store (Function.update base block (some c)) block items.length [item]) =
        (.ok mem' : Except StorageFault _) ∧
      Stands base mem' (⟨size, items.length + 1, .ptr block⟩ : StoredVec S T) ⟨size, items ++ [item]⟩ := by
  have here : Function.update base block (some c) block = some c := Function.update_self ..
  have fits : items.length + [item].length ≤ size := room
  obtain ⟨c', stored, front'⟩ := store_front here front fits
  rw [Function.update_idem] at stored
  exact ⟨_, by rw [stored]; rfl, .heap List.length_append large free front'⟩

/-- A full block is doubled, at the address that `realloc` gave. -/
theorem growth_stands {base : ElementMemory T} {size place block : Nat} {c : List (Option T)} {items : List T}
    (large : S % 2 ^ 32 < size) (free : base place = none) (front : Front c items size) (small : size * 2 < 2 ^ 32)
    (served : Function.update base place (some c) block = none ∨ place = block) :
    ∃ c', (⟨size, items.length, .ptr place⟩ : StoredVec S T).growth (Function.update base place (some c)) block =
        .ok (⟨size * 2, items.length, .ptr block⟩, Function.update base block (some c')) ∧
      base block = none ∧ Front c' items (size * 2) := by
  have here : Function.update base place (some c) place = some c := Function.update_self ..
  have vacant : Function.update base place none = base := Function.update_eq_self_iff.2 free.symm
  have free' : base block = none := by
    rcases served with unused | rfl
    · by_cases same : block = place
      · exact same ▸ free
      · rwa [Function.update_of_ne same] at unused
    · exact free
  have fits : items.length ≤ size * 2 := Nat.le_trans front.le (Nat.le_mul_of_pos_right size (by decide))
  obtain ⟨c', grown, front'⟩ := reallocate_front here front fits block
  rw [Function.update_idem, vacant] at grown
  refine ⟨c', ?_, free', front'⟩
  rw [growth, if_pos (isHeap_of_lt large), if_pos small]
  simp only [SmallVecData.block, grown, access, bind, Except.bind, pure, Except.pure, Option.elim]

/-- The heap part of `push`. -/
theorem pushHeap_stands {base mem : ElementMemory T} {v : StoredVec S T} {w w' : SmallVec S T} {item : T} {block : Nat}
    (stands : Stands base mem v w) (heap : S % 2 ^ 32 < v.size) (served : Served (v, mem) (item, block))
    (pushed : w.pushHeap item = .ok w') : ∃ v' mem', v.pushHeap mem item block = .ok (v', mem') ∧ Stands base mem' v' w' := by
  cases stands with
  | inline _ _ _ => exact absurd heap (Nat.lt_irrefl _)
  | @heap size len place c items length large free front =>
    subst length
    rcases pushHeap_cases pushed with ⟨full, small, rfl⟩ | ⟨room, rfl⟩
    · have full' : items.length = size := full
      obtain ⟨c', grown, free', front'⟩ := growth_stands large free front small
        ((served full').imp_right fun same => SmallVecData.ptr.inj same)
      have more : items.length < size * 2 := by omega
      have large' : S % 2 ^ 32 < size * 2 := by omega
      obtain ⟨mem', stored, stands'⟩ := store_stands large' free' front' more item
      simp only [pushHeap, if_pos full', grown, SmallVecData.block, stored, bind, Except.bind, pure, Except.pure]
      exact ⟨_, _, rfl, stands'⟩
    · have room' : items.length ≠ size := room
      obtain ⟨mem', stored, stands'⟩ := store_stands large free front (Nat.lt_of_le_of_ne front.le room') item
      simp only [pushHeap, if_neg room', SmallVecData.block, stored, bind, Except.bind, pure, Except.pure]
      exact ⟨_, _, rfl, stands'⟩

/-- The elements go from the vector to a new block. -/
theorem promote_stands {base : ElementMemory T} {size block : Nat} {cells : List (Option T)} {items : List T}
    (front : Front cells items S) (inline : S % 2 ^ 32 = size) (fits : items.length ≤ size) (small : size * 2 < 2 ^ 32)
    (free : base block = none) :
    ∃ v' mem', (⟨size, items.length, .inline cells⟩ : StoredVec S T).promote base block = .ok (v', mem') ∧
      Stands base mem' v' ⟨max 4 (size * 2), items⟩ ∧ v'.len < v'.size := by
  have room : ([] : List T).length + items.length ≤ max 4 (size * 2) := by
    rw [List.length_nil]
    omega
  have here : allocate base block (max 4 (size * 2)) block = some (List.replicate (max 4 (size * 2)) none) := Function.update_self ..
  obtain ⟨c, stored, front'⟩ := store_front here (front_uninit (max 4 (size * 2))) room
  rw [allocate, Function.update_idem] at stored
  have stored' : store (allocate base block (max 4 (size * 2))) block 0 items = some (Function.update base block (some c)) := stored
  refine ⟨⟨max 4 (size * 2), items.length, .ptr block⟩, _, ?_, .heap rfl (by omega) free front', ?_⟩
  · rw [promote, if_pos small]
    simp only [SmallVecData.cells, front.read_all, stored', access, bind, Except.bind, pure, Except.pure, Option.elim]
  · show items.length < max 4 (size * 2)
    omega

/-- A push of the stored vector is a push of the one it stands for. -/
theorem push_stands {base mem : ElementMemory T} {v : StoredVec S T} {w w' : SmallVec S T} {item : T} {block : Nat}
    (word : S < 2 ^ 32) (stands : Stands base mem v w) (served : Served (v, mem) (item, block))
    (pushed : w.push item = .ok w') : ∃ v' mem', v.push mem item block = .ok (v', mem') ∧ Stands base mem' v' w' := by
  have same : S % 2 ^ 32 = S := Nat.mod_eq_of_lt word
  rcases push_cases pushed with ⟨inline, room, rfl⟩ | ⟨inline, full, small, pushed⟩ | ⟨large, pushed⟩
  · cases stands with
    | heap _ large _ _ => exact absurd (same ▸ large) (Nat.not_lt.2 inline)
    | @inline len cells items length fits front =>
      subst length
      have within : items.length + [item].length ≤ S := Nat.le_trans room (Nat.mod_le S _)
      obtain ⟨cells', written, front'⟩ := front.splice within
      rw [List.map_singleton] at written
      rw [push, if_pos (show isInline _ = true from decide_eq_true inline), if_pos (show len _ < size _ from room)]
      simp only [SmallVecData.cells, written, access, bind, Except.bind, pure, Except.pure, Option.elim]
      exact ⟨_, _, rfl, .inline List.length_append room front'⟩
  · cases stands with
    | heap _ large _ _ => exact absurd (same ▸ large) (Nat.not_lt.2 inline)
    | @inline len cells items length fits front =>
      subst length
      have filled : items.length = S % 2 ^ 32 := Nat.le_antisymm fits full
      have free : base block = none := (served filled).resolve_right fun same => nomatch same
      obtain ⟨v₁, mem₁, promoted, stands₁, less⟩ := promote_stands front rfl fits small free
      have heap : S % 2 ^ 32 < v₁.size := by
        rw [stands₁.size]
        show S % 2 ^ 32 < max 4 (S % 2 ^ 32 * 2)
        omega
      obtain ⟨v', mem', pushed', stands'⟩ := pushHeap_stands stands₁ heap (fun same => absurd same (Nat.ne_of_lt less)) pushed
      rw [push, if_pos (show isInline _ = true from decide_eq_true inline),
        if_neg (show ¬ len _ < size _ from Nat.not_lt.2 full)]
      simp only [promoted, bind, Except.bind]
      exact ⟨v', mem', pushed', stands'⟩
  · have large' : S < v.size := stands.size ▸ large
    have outside : ¬ v.isInline = true := fun inline => Nat.not_lt.2 (of_decide_eq_true inline) large'
    rw [push, if_neg outside]
    exact pushHeap_stands stands (same.symm ▸ large') served pushed

/-- Any sequence of pushes, each with the answer of the allocator. -/
theorem run_stands {base : ElementMemory T} (word : S < 2 ^ 32) (pushes : List (T × Nat)) :
    ∀ {st : StoredVec S T × ElementMemory T} {w : SmallVec S T}, Stands base st.2 st.1 w →
      w.len + pushes.length ≤ 2 ^ 31 → Meets pushStep Served pushes st →
      ∃ replies st' w', run pushStep pushes st = .ok (replies, st') ∧ Stands base st'.2 st'.1 w' ∧
        w'.items = w.items ++ pushes.map Prod.fst := by
  induction pushes with
  | nil => exact fun {_ w} stands _ _ => ⟨_, _, w, rfl, stands, (List.append_nil _).symm⟩
  | cons p rest ih =>
    intro st w stands few served
    rw [List.length_cons] at few
    have fits : w.len ≤ w.size := by
      have le := stands.len_le
      rwa [stands.len, stands.size] at le
    obtain ⟨w₁, pushed⟩ := push_fits fits (by omega) p.1
    obtain ⟨v₁, mem₁, taken, stands₁⟩ := push_stands word stands served.1 pushed
    have items := SmallVec.items_of_push pushed
    have first : pushStep st p = .ok ((), v₁, mem₁) := by
      simp only [pushStep, taken, bind, Except.bind, pure, Except.pure]
    have longer : w₁.len = w.len + 1 := by
      rw [SmallVec.len, items, List.length_append]
      rfl
    obtain ⟨replies, st', w', later, stands', all⟩ := ih stands₁ (by omega) (served.next first)
    exact ⟨_, st', w', run_cons first later, stands', by rw [all, items, List.append_assoc]; rfl⟩

/-- However many elements were pushed, the slice view has them in order, the length fits the size, the
form is the one that the size tells, and the destructor drops each element once and frees the block.
No access of any push was outside its storage. -/
theorem pushes_kept (small : S < 2 ^ 30) (base : ElementMemory T) (pushes : List (T × Nat)) (few : pushes.length < 2 ^ 31)
    (served : Meets pushStep Served pushes ((new : StoredVec S T), base)) :
    ∃ replies v mem, run pushStep pushes ((new : StoredVec S T), base) = .ok (replies, v, mem) ∧
      v.deref mem = .ok (pushes.map Prod.fst) ∧ v.len = pushes.length ∧ v.len ≤ v.size ∧
      (S < v.size ↔ ∃ block, v.data = .ptr block) ∧
      ∀ needsDrop, v.drop needsDrop mem = .ok (if needsDrop then pushes.map Prod.fst else [], base) := by
  have word : S < 2 ^ 32 := Nat.lt_trans small (by decide)
  have room : (⟨S % 2 ^ 32, []⟩ : SmallVec S T).len + pushes.length ≤ 2 ^ 31 := by
    show 0 + pushes.length ≤ 2 ^ 31
    omega
  obtain ⟨replies, st, w, ran, stands, items⟩ := run_stands word pushes (stands_new base) room served
  have all : w.items = pushes.map Prod.fst := items
  have form := stands.heap_iff
  rw [Nat.mod_eq_of_lt word] at form
  refine ⟨replies, st.1, st.2, ran, all ▸ stands.deref, ?_, stands.len_le, form, fun needsDrop => all ▸ stands.drop needsDrop⟩
  rw [stands.len, all, List.length_map]

/-- One element inline, three on a block of four, the fifth on a block of eight somewhere else. -/
theorem pushes_kept_growing :
    ∃ replies v mem, run pushStep [('a', 0), ('b', 7), ('c', 0), ('d', 0), ('e', 9)] ((new : StoredVec 1 Char), fun _ => none) =
        .ok (replies, v, mem) ∧
      v.deref mem = .ok ['a', 'b', 'c', 'd', 'e'] ∧ v.len = 5 ∧ v.len ≤ v.size ∧
      (1 < v.size ↔ ∃ block, v.data = .ptr block) ∧
      ∀ needsDrop, v.drop needsDrop mem = .ok (if needsDrop then ['a', 'b', 'c', 'd', 'e'] else [], fun _ => none) := by
  refine pushes_kept (by decide) (fun _ => none) [('a', 0), ('b', 7), ('c', 0), ('d', 0), ('e', 9)] (by decide) ?_
  decide +kernel

end StoredVec

end Radixox.Server
