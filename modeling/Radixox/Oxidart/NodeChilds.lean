import Radixox.Lib.Assoc
import Radixox.Oxidart.Hislab
import Radixox.Oxidart.Expiry

/-!
# Child links in three tiers

A node keeps up to six links inline (`Childs`). Further links go to an
`Overflow` slot of the `OverflowArena` (up to ten), and beyond these to a
`HugeOverflow` entry of the thread-local slab `HUGE_OVF`. Each tier is a list of
`(radix, index)` pairs, the used part of the source's parallel arrays, with the
array size as a bound in the type. `u32::MAX` as "no slot" is `none`: the slab
holds at most 25000000 nodes, so it is never a real index.
-/

namespace Radixox.Oxidart
set_option autoImplicit false
open Radixox.Assoc

def CHILDS_SIZE : Nat := 6
def ASCII_MAX_CHAR : Nat := 127
def EXA_DIGIT_COUNT : Nat := 16
def LIGHT_OVERFLOW_SIZE : Nat := EXA_DIGIT_COUNT - CHILDS_SIZE
def HUGE_OVERFLOW_CAPACITY : Nat := ASCII_MAX_CHAR - CHILDS_SIZE

/-- The used `(radix, idx)` pairs of one tier. -/
abbrev Links := List (UInt8 × Nat)

theorem length_removeKey_le {l l' : Links} {r : UInt8} {i n : Nat} (removed : removeKey l r = some (i, l'))
    (bound : l.length ≤ n) : l'.length ≤ n := by
  have := (removeKey_perm removed).length_eq
  simp only [List.length_cons] at this
  omega

/-! ## `Childs` -/

structure Childs where
  items : Links
  bound : items.length ≤ CHILDS_SIZE

namespace Childs

/-- `Childs::default`. -/
def default : Childs := ⟨[], Nat.zero_le _⟩

def find (c : Childs) (radix : UInt8) : Option Nat := c.items.lookup radix

def isFull (c : Childs) : Bool := c.items.length == CHILDS_SIZE

def isEmpty (c : Childs) : Bool := c.items.isEmpty

def push (c : Childs) (radix : UInt8) (idx : Nat) : Exec Childs :=
  if h : c.items.length < CHILDS_SIZE ∧ radix ≠ 0 then
    .ok ⟨c.items ++ [(radix, idx)], by rw [List.length_append]; exact h.1⟩
  else .error .childsPush

def remove (c : Childs) (radix : UInt8) : Option (Nat × Childs) :=
  match h : removeKey c.items radix with
  | none => none
  | some (idx, rest) => some (idx, ⟨rest, length_removeKey_le h c.bound⟩)

def oldGetSingleChild (c : Childs) : Option (UInt8 × Nat) :=
  match c.items with
  | [p] => some p
  | _ => none

end Childs

/-! ## `HugeOverflow` -/

structure HugeOverflow where
  entries : Links
  bound : entries.length ≤ HUGE_OVERFLOW_CAPACITY

namespace HugeOverflow

def new (radix : UInt8) (idx : Nat) : HugeOverflow := ⟨[(radix, idx)], by rw [List.length_singleton]; decide⟩

def find (h : HugeOverflow) (radix : UInt8) : Option Nat := h.entries.lookup radix

def push (h : HugeOverflow) (radix : UInt8) (idx : Nat) : Exec HugeOverflow :=
  if room : h.entries.length < HUGE_OVERFLOW_CAPACITY then
    .ok ⟨h.entries ++ [(radix, idx)], by rw [List.length_append]; exact room⟩
  else .error .hugeFull

def remove (h : HugeOverflow) (radix : UInt8) : Option (Nat × HugeOverflow) :=
  match eq : removeKey h.entries radix with
  | none => none
  | some (idx, rest) => some (idx, ⟨rest, length_removeKey_le eq h.bound⟩)

def isEmpty (h : HugeOverflow) : Bool := h.entries.isEmpty

end HugeOverflow

/-- The thread-local slab `HUGE_OVF`. -/
abbrev HugeOvf (P : Policy) := TaggedHiSlab P HugeOverflow

/-! ## `Overflow` -/

structure Overflow where
  items : Links
  bound : items.length ≤ LIGHT_OVERFLOW_SIZE
  bigOverflowIdx : Option Nat

namespace Overflow

variable {P : Policy}

def default : Overflow := ⟨[], Nat.zero_le _, none⟩

def find (o : Overflow) (s : HugeOvf P) (radix : UInt8) : Option Nat :=
  match o.items.lookup radix with
  | some idx => some idx
  | none => do
    let hugeIdx ← o.bigOverflowIdx
    let huge ← s.get hugeIdx
    huge.find radix

def push (o : Overflow) (s : HugeOvf P) (radix : UInt8) (idx : Nat) : Exec (Overflow × HugeOvf P) :=
  if room : o.items.length < LIGHT_OVERFLOW_SIZE then
    .ok (⟨o.items ++ [(radix, idx)], by rw [List.length_append]; exact room, o.bigOverflowIdx⟩, s)
  else match o.bigOverflowIdx with
    | some hugeIdx => match s.get hugeIdx with
      | none => .error .bigOverflowIdx
      | some huge => do
        let huge ← huge.push radix idx
        .ok (o, s.set hugeIdx huge)
    | none =>
      let (newHugeIdx, s) := s.insert (HugeOverflow.new radix idx)
      .ok ({ o with bigOverflowIdx := some newHugeIdx }, s)

def remove (o : Overflow) (s : HugeOvf P) (radix : UInt8) : Option Nat × Overflow × HugeOvf P :=
  match h : removeKey o.items radix with
  | some (val, rest) => (some val, ⟨rest, length_removeKey_le h o.bound, o.bigOverflowIdx⟩, s)
  | none => match o.bigOverflowIdx with
    | none => (none, o, s)
    | some hugeIdx => match (s.get hugeIdx).bind (·.remove radix) with
      | none => (none, o, s)
      | some (val, huge) =>
        let s := s.set hugeIdx huge
        if huge.isEmpty then (some val, { o with bigOverflowIdx := none }, (s.remove hugeIdx).2)
        else (some val, o, s)

def isEmpty (o : Overflow) : Bool := o.items.isEmpty && o.bigOverflowIdx.isNone

def iter (o : Overflow) (s : HugeOvf P) : Links :=
  o.items ++ ((o.bigOverflowIdx.bind s.get).map HugeOverflow.entries).getD []

/-- `drop_huge`, seen from the slab. -/
def dropHuge (o : Overflow) (s : HugeOvf P) : HugeOvf P :=
  match o.bigOverflowIdx with
  | none => s
  | some hugeIdx => (s.remove hugeIdx).2

end Overflow

/-! ## `OverflowArena` -/

inductive OverflowSlot where
  | item (overflow : Overflow)
  | nextFree (next : Option Nat)

structure OverflowArena where
  slots : List OverflowSlot
  freeHead : Option Nat
  count : Nat

namespace OverflowArena

variable {P : Policy}

def new : OverflowArena := ⟨[], none, 0⟩

/-- `slots[idx]` is never out of range: an index comes from `alloc` and `slots` never shrinks. -/
def get (a : OverflowArena) (idx : Nat) : Option Overflow :=
  match a.slots[idx]? with
  | some (.item o) => some o
  | _ => none

/-- Writing through `get_mut`. -/
def set (a : OverflowArena) (idx : Nat) (o : Overflow) : OverflowArena :=
  { a with slots := a.slots.set idx (.item o) }

def alloc (a : OverflowArena) : Exec (Nat × OverflowArena) :=
  match a.freeHead with
  | some idx => match a.slots[idx]? with
    | some (.nextFree next) =>
      .ok (idx, { slots := a.slots.set idx (.item .default), freeHead := next, count := a.count + 1 })
    | some (.item _) => .error .freeHead
    | none => .error .index
  | none =>
    .ok (a.slots.length, { a with slots := a.slots ++ [.item .default], count := a.count + 1 })

/-- Frees the slot and its huge entry, if any. -/
def free (a : OverflowArena) (s : HugeOvf P) (idx : Nat) : OverflowArena × HugeOvf P :=
  let s := match a.get idx with
    | some overflow => overflow.dropHuge s
    | none => s
  ({ slots := a.slots.set idx (.nextFree a.freeHead), freeHead := some idx, count := a.count - 1 }, s)

end OverflowArena

end Radixox.Oxidart
