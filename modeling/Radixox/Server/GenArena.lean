import Mathlib.Algebra.Group.Nat.Defs
import Mathlib.Data.List.Basic
import Mathlib.Tactic.Common
import Radixox.Lib.FreeList

/-!
# The generational arena

`gen_arena.rs`. An index is a `u32`, and `u32::MAX` for "no slot" is `none`: an entry stands for an open
connection, of which there are fewer than that at a time. A generation is a `u32` that
wraps around.
-/

namespace Radixox.Server
set_option autoImplicit false

/-- Generational key. Stale after the slot is removed. -/
structure Key where
  idx : Nat
  generation : Nat
deriving DecidableEq, Repr

structure Slot (T : Type) where
  data : Option T
  generation : Nat
  /-- Next free slot index. Only meaningful when `data` is none. -/
  nextFree : Option Nat

structure GenArena (T : Type) where
  slots : List (Slot T)
  freeHead : Option Nat
  len : Nat

namespace GenArena

variable {T : Type}

def new : GenArena T := ⟨[], none, 0⟩

/-- Grow to hold at least `cap` slots, adding free slots in bulk. -/
def growTo (a : GenArena T) (cap : Nat) : GenArena T :=
  let start := a.slots.length
  if cap ≤ start then a
  else
    let additional := cap - start
    let slot (i : Nat) : Slot T := ⟨none, 0, if i + 1 < additional then some (start + i + 1) else a.freeHead⟩
    { a with slots := a.slots ++ (List.range additional).map slot, freeHead := some start }

def withCapacity (cap : Nat) : GenArena T := new.growTo cap

/-- Insert a value and return its key; `none` is an index out of range. -/
def insert (a : GenArena T) (value : T) : Option (Key × GenArena T) :=
  let a := if a.freeHead.isNone then a.growTo (a.slots.length + 1) else a
  do
    let idx ← a.freeHead
    let slot ← a.slots[idx]?
    return (⟨idx, slot.generation⟩,
      ⟨a.slots.set idx { slot with data := some value }, slot.nextFree, a.len + 1⟩)

def slot (a : GenArena T) (key : Key) : Option (Slot T) :=
  (a.slots[key.idx]?).filter fun s => s.generation == key.generation && s.data.isSome

def get (a : GenArena T) (key : Key) : Option T := (a.slot key).bind Slot.data

/-- Writing through `get_mut`: nothing happens for a stale key. -/
def set (a : GenArena T) (key : Key) (value : T) : GenArena T :=
  match a.slot key with
  | none => a
  | some s => { a with slots := a.slots.set key.idx { s with data := some value } }

/-- Remove a value by key. Returns `none` if the key is stale. -/
def remove (a : GenArena T) (key : Key) : Option T × GenArena T :=
  match a.slot key with
  | none => (none, a)
  | some s => (s.data, ⟨a.slots.set key.idx ⟨none, (s.generation + 1) % 2 ^ 32, a.freeHead⟩, some key.idx, a.len - 1⟩)

/-! ## What the operations do to `get` -/

/-- The free list through a slot; `none` for a slot in use. -/
def nextOf (a : GenArena T) (i : Nat) : Option (Option Nat) :=
  ((a.slots[i]?).filter fun s => s.data.isNone).map Slot.nextFree

def FreeList (a : GenArena T) : Prop := ∃ l, FreeChain a.nextOf a.freeHead l

variable {a : GenArena T}

theorem get_eq_some {key : Key} {v : T} :
    a.get key = some v ↔ ∃ s, a.slots[key.idx]? = some s ∧ s.generation = key.generation ∧ s.data = some v := by
  simp only [get, slot, Option.bind_eq_some_iff, Option.filter_eq_some_iff, Bool.and_eq_true, beq_iff_eq]
  constructor
  · rintro ⟨s, ⟨found, generation, -⟩, data⟩
    exact ⟨s, found, generation, data⟩
  · rintro ⟨s, found, generation, data⟩
    exact ⟨s, ⟨found, generation, by rw [data]; rfl⟩, data⟩

theorem slot_of_get {key : Key} {v : T} (held : a.get key = some v) :
    ∃ s, a.slot key = some s ∧ a.slots[key.idx]? = some s ∧ s.generation = key.generation ∧ s.data = some v := by
  obtain ⟨s, found, generation, data⟩ := get_eq_some.1 held
  refine ⟨s, ?_, found, generation, data⟩
  rw [slot, found, Option.filter_some_pos]
  simp [generation, data]

/-- Two states of the arena that differ in one slot. -/
theorem get_congr {a' : GenArena T} {key : Key} (same : a'.slots[key.idx]? = a.slots[key.idx]?) : a'.get key = a.get key := by
  simp only [get, slot, same]

theorem get_set {key : Key} {v : T} (held : a.get key = some v) (w : T) (k : Key) :
    (a.set key w).get k = if k = key then some w else a.get k := by
  obtain ⟨s, here, found, generation, data⟩ := slot_of_get held
  obtain ⟨bound, -⟩ := List.getElem?_eq_some_iff.1 found
  have slots : (a.set key w).slots = a.slots.set key.idx { s with data := some w } := by
    simp only [set, here]
  by_cases same : k.idx = key.idx
  · have read : (a.set key w).slots[k.idx]? = some { s with data := some w } := by
      rw [slots, same, List.getElem?_set_self bound]
    apply Option.ext
    intro u
    rw [get_eq_some, read]
    split
    next equal =>
      subst equal
      simp [generation, eq_comm]
    next differ =>
      have other : s.generation ≠ k.generation := by
        intro match'
        apply differ
        obtain ⟨i, g⟩ := k
        obtain ⟨j, h⟩ := key
        simp_all
      rw [get_eq_some, same, found]
      simp [other]
  · rw [if_neg (fun equal => same (congrArg Key.idx equal))]
    apply get_congr
    rw [slots, List.getElem?_set_ne (fun equal => same equal.symm)]

theorem freeList_set {key : Key} {v : T} (free : a.FreeList) (held : a.get key = some v) (w : T) : (a.set key w).FreeList := by
  obtain ⟨s, here, found, -, data⟩ := slot_of_get held
  obtain ⟨l, chain⟩ := free
  have used : a.nextOf key.idx = none := by simp [nextOf, found, data]
  refine ⟨l, ?_⟩
  have head : (a.set key w).freeHead = a.freeHead := by simp only [set, here]
  rw [head]
  refine chain.congr fun j member => ?_
  have other : key.idx ≠ j := fun same => chain.notMem_of_used used (same ▸ member)
  simp only [nextOf, set, here, List.getElem?_set_ne other]

theorem get_remove {key : Key} {v : T} (held : a.get key = some v) (k : Key) :
    (a.remove key).2.get k = if k = key then none else a.get k := by
  obtain ⟨s, here, found, generation, data⟩ := slot_of_get held
  obtain ⟨bound, -⟩ := List.getElem?_eq_some_iff.1 found
  simp only [remove, here]
  by_cases same : k.idx = key.idx
  · have gone : ∀ {a' : GenArena T} (s' : Slot T), a'.slots[k.idx]? = some s' → s'.data = none → a'.get k = none := by
      intro a' s' read none'
      cases outcome : a'.get k with
      | none => rfl
      | some u =>
        obtain ⟨s'', read', -, data'⟩ := get_eq_some.1 outcome
        rw [read, Option.some.injEq] at read'
        rw [← read', none'] at data'
        cases data'
    rw [gone ⟨none, (s.generation + 1) % 2 ^ 32, a.freeHead⟩ (by rw [same, List.getElem?_set_self bound]) rfl]
    split
    · rfl
    next differ =>
      cases outcome : a.get k with
      | none => rfl
      | some u =>
        obtain ⟨s', read', generation', -⟩ := get_eq_some.1 outcome
        rw [same, found, Option.some.injEq] at read'
        subst read'
        refine absurd ?_ differ
        obtain ⟨i, g⟩ := k
        obtain ⟨j, h⟩ := key
        simp_all
  · rw [if_neg (fun equal => same (congrArg Key.idx equal))]
    apply get_congr
    rw [List.getElem?_set_ne (fun equal => same equal.symm)]

theorem remove_ok {key : Key} {v : T} (free : a.FreeList) (held : a.get key = some v) :
    (a.remove key).1 = some v ∧ (a.remove key).2.FreeList ∧
      ∀ k, (a.remove key).2.get k = if k = key then none else a.get k := by
  obtain ⟨s, here, found, generation, data⟩ := slot_of_get held
  obtain ⟨bound, -⟩ := List.getElem?_eq_some_iff.1 found
  obtain ⟨l, chain⟩ := free
  have used : a.nextOf key.idx = none := by simp [nextOf, found, data]
  refine ⟨?_, ⟨key.idx :: l, ?_⟩, get_remove held⟩
  · simp only [remove, here]
    exact data
  · simp only [remove, here]
    refine chain.push used ?_ fun j other => ?_
    · simp [nextOf, bound]
    · simp only [nextOf, List.getElem?_set_ne other.symm]

/-! ## Growing -/

theorem length_growTo (a : GenArena T) (cap : Nat) : (a.growTo cap).slots.length = max a.slots.length cap := by
  unfold growTo
  dsimp only
  split
  · omega
  · rw [List.length_append, List.length_map, List.length_range]
    omega

theorem freeHead_growTo (a : GenArena T) (cap : Nat) :
    (a.growTo cap).freeHead = if cap ≤ a.slots.length then a.freeHead else some a.slots.length := by
  unfold growTo
  dsimp only
  split <;> rfl

theorem len_growTo (a : GenArena T) (cap : Nat) : (a.growTo cap).len = a.len := by
  unfold growTo
  dsimp only
  split <;> rfl

/-- The old slots stay, the new ones are empty and linked in order. -/
theorem slots_growTo (a : GenArena T) (cap i : Nat) :
    (a.growTo cap).slots[i]? = if i < a.slots.length then a.slots[i]?
      else if i < cap then some ⟨none, 0, if i + 1 < cap then some (i + 1) else a.freeHead⟩ else none := by
  unfold growTo
  dsimp only
  split
  next enough =>
    split
    · rfl
    next outside =>
      rw [if_neg (by omega)]
      exact List.getElem?_eq_none (by omega)
  next more =>
    split
    next old => exact List.getElem?_append_left old
    next new =>
      rw [List.getElem?_append_right (by omega), List.getElem?_map]
      split
      next inside =>
        rw [List.getElem?_range (by omega), Option.map_some]
        have place : a.slots.length + (i - a.slots.length) = i := by omega
        have last : i - a.slots.length + 1 < cap - a.slots.length ↔ i + 1 < cap := by omega
        simp only [place, last]
      next outside =>
        rw [List.getElem?_eq_none (by rw [List.length_range]; omega)]
        rfl

/-- New slots go in front of the free list. -/
theorem growTo_chain {l : List Nat} (chain : FreeChain a.nextOf a.freeHead l) (cap : Nat) :
    FreeChain (a.growTo cap).nextOf (a.growTo cap).freeHead (List.range' a.slots.length (cap - a.slots.length) ++ l) := by
  have inside : ∀ i ∈ l, i < a.slots.length := by
    intro i member
    have := chain.isSome_of_mem member
    by_contra outside
    simp [nextOf, List.getElem?_eq_none (Nat.le_of_not_lt outside)] at this
  -- The new slots from `cap - n` on, then the old list.
  have tail : ∀ n, n ≤ cap - a.slots.length → FreeChain (a.growTo cap).nextOf (if n = 0 then a.freeHead else some (cap - n))
      (List.range' (cap - n) n ++ l) := by
    intro n
    induction n with
    | zero =>
      intro _
      refine chain.congr fun i member => ?_
      simp only [nextOf, slots_growTo, if_pos (inside i member)]
    | succ n ih =>
      intro bound
      have rest := ih (Nat.le_of_succ_le bound)
      have place : cap - (n + 1) + 1 = cap - n := by omega
      rw [List.range'_succ, List.cons_append, place]
      refine .cons ?_ rest ?_
      · have new : ¬ cap - (n + 1) < a.slots.length := by omega
        have below : cap - (n + 1) < cap := by omega
        simp only [nextOf, slots_growTo, if_neg new, if_pos below, place]
        by_cases last : n = 0
        · rw [if_pos last, if_neg (by omega)]
          rfl
        · rw [if_neg last, if_pos (by omega)]
          rfl
      · rw [List.mem_append, not_or]
        constructor
        · rw [List.mem_range'_1]
          omega
        · intro member
          have := inside _ member
          omega
  have whole := tail (cap - a.slots.length) (Nat.le_refl _)
  rw [freeHead_growTo]
  by_cases enough : cap ≤ a.slots.length
  · rw [if_pos (by omega), show cap - a.slots.length = 0 by omega] at whole
    rw [if_pos enough, show cap - a.slots.length = 0 by omega]
    exact whole
  · rw [if_neg (by omega), show cap - (cap - a.slots.length) = a.slots.length by omega] at whole
    rw [if_neg enough]
    exact whole

theorem get_growTo (a : GenArena T) (cap : Nat) (k : Key) : (a.growTo cap).get k = a.get k := by
  by_cases old : k.idx < a.slots.length
  · exact get_congr (by rw [slots_growTo, if_pos old])
  · have absent : a.get k = none := by
      simp [get, slot, List.getElem?_eq_none (Nat.le_of_not_lt old)]
    rw [absent]
    cases held : (a.growTo cap).get k with
    | none => rfl
    | some v =>
      obtain ⟨s, read, -, data⟩ := get_eq_some.1 held
      rw [slots_growTo, if_neg old] at read
      split at read
      · rw [← Option.some.inj read] at data
        cases data
      · cases read

/-- Growing is not noticed by `get`. -/
theorem growTo_ok (free : a.FreeList) (cap : Nat) : (a.growTo cap).FreeList ∧ ∀ k, (a.growTo cap).get k = a.get k := by
  obtain ⟨l, chain⟩ := free
  exact ⟨⟨_, growTo_chain chain cap⟩, get_growTo a cap⟩

/-! ## Inserting -/

/-- The arena in which an insertion takes the first free slot. -/
def ready (a : GenArena T) : GenArena T := if a.freeHead.isNone then a.growTo (a.slots.length + 1) else a

theorem get_ready (a : GenArena T) (k : Key) : a.ready.get k = a.get k := by
  unfold ready
  split
  · exact get_growTo a _ k
  · rfl

theorem len_ready (a : GenArena T) : a.ready.len = a.len := by
  unfold ready
  split
  · exact len_growTo a _
  · rfl

/-- The insertion: the first slot of the free list, the one behind it as the new head. -/
theorem insert_takes {l : List Nat} (chain : FreeChain a.nextOf a.freeHead l) (v : T) :
    ∃ idx s rest, a.ready.slots[idx]? = some s ∧ s.data = none ∧ FreeChain a.ready.nextOf a.ready.freeHead (idx :: rest) ∧
      FreeChain a.ready.nextOf s.nextFree rest ∧ idx ∉ rest ∧
      a.insert v = some (⟨idx, s.generation⟩, ⟨a.ready.slots.set idx { s with data := some v }, s.nextFree, a.ready.len + 1⟩) := by
  obtain ⟨b, eqb⟩ : ∃ b, b = a.ready := ⟨_, rfl⟩
  obtain ⟨idx, rest, chainB⟩ : ∃ idx rest, FreeChain b.nextOf b.freeHead (idx :: rest) := by
    rw [eqb, ready]
    split
    next =>
      have := growTo_chain chain (a.slots.length + 1)
      rw [Nat.add_sub_cancel_left] at this
      exact ⟨_, _, this⟩
    next filled =>
      cases l with
      | nil =>
        obtain ⟨idx, first⟩ := Option.ne_none_iff_exists'.1 (by simpa using filled)
        rw [first] at chain
        cases chain
      | cons idx rest => exact ⟨idx, rest, chain⟩
  rw [← eqb]
  obtain ⟨head, eqHead⟩ : ∃ head, head = b.freeHead := ⟨_, rfl⟩
  have whole := chainB
  rw [← eqHead] at chainB
  cases chainB with
  | @cons _ succ _ free later fresh =>
    obtain ⟨s, read, next⟩ := Option.map_eq_some_iff.1 free
    obtain ⟨read, empty⟩ := Option.filter_eq_some_iff.1 read
    have data : s.data = none := by simpa using empty
    refine ⟨idx, s, rest, read, data, whole, next ▸ later, fresh, ?_⟩
    have shape : a.insert v = (do
      let idx ← b.freeHead
      let slot ← b.slots[idx]?
      return (⟨idx, slot.generation⟩, ⟨b.slots.set idx { slot with data := some v }, slot.nextFree, b.len + 1⟩)) := by
      rw [eqb]
      rfl
    rw [shape, ← eqHead]
    simp only [read, Option.bind_eq_bind, Option.bind_some]
    rfl

/-- A slot that is filled is the value of its key, and of no other. -/
theorem get_fill {s : Slot T} {idx : Nat} (read : a.slots[idx]? = some s) (data : s.data = none) (v : T) (head : Option Nat)
    (len : Nat) (k : Key) : (⟨a.slots.set idx { s with data := some v }, head, len⟩ : GenArena T).get k =
      if k = ⟨idx, s.generation⟩ then some v else a.get k := by
  obtain ⟨bound, -⟩ := List.getElem?_eq_some_iff.1 read
  by_cases here : k.idx = idx
  · have absent : a.get k = none := by
      cases held : a.get k with
      | none => rfl
      | some u =>
        obtain ⟨s', read', -, data'⟩ := get_eq_some.1 held
        rw [here, read, Option.some.injEq] at read'
        rw [← read', data] at data'
        cases data'
    apply Option.ext
    intro u
    rw [get_eq_some, here, List.getElem?_set_self bound, absent]
    split
    next equal => simp [equal, eq_comm]
    next differ =>
      have other : s.generation ≠ k.generation := by
        intro match'
        apply differ
        obtain ⟨i, g⟩ := k
        simp_all
      simp [other]
  · rw [if_neg (fun equal => here (congrArg Key.idx equal))]
    apply get_congr
    rw [List.getElem?_set_ne (fun equal => here equal.symm)]

theorem insert_ok (free : a.FreeList) (v : T) :
    ∃ key a', a.insert v = some (key, a') ∧ a.get key = none ∧ a'.FreeList ∧
      ∀ k, a'.get k = if k = key then some v else a.get k := by
  obtain ⟨l, chain⟩ := free
  obtain ⟨idx, s, rest, read, data, -, later, fresh, run⟩ := insert_takes chain v
  refine ⟨_, _, run, ?_, ⟨rest, ?_⟩, fun k => ?_⟩
  · rw [← get_ready]
    cases held : a.ready.get ⟨idx, s.generation⟩ with
    | none => rfl
    | some u =>
      obtain ⟨s', read', -, data'⟩ := get_eq_some.1 held
      rw [read, Option.some.injEq] at read'
      rw [← read', data] at data'
      cases data'
  · refine later.congr fun j member => ?_
    have other : idx ≠ j := fun equal => fresh (equal ▸ member)
    simp only [nextOf, List.getElem?_set_ne other]
  · rw [get_fill read data, get_ready]

theorem freeList_withCapacity (cap : Nat) : (withCapacity cap : GenArena T).FreeList := (growTo_ok ⟨[], .nil⟩ cap).1

theorem get_withCapacity (cap : Nat) (k : Key) : (withCapacity cap : GenArena T).get k = none :=
  (growTo_ok ⟨[], .nil⟩ cap).2 k

end GenArena

end Radixox.Server
