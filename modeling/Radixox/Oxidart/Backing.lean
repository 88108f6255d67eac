import Radixox.Oxidart.Holdings
import Radixox.Oxidart.RawCommands

/-!
# What stands behind a raw value

The typed value of a raw one is what its slot stores. A multiset of raw values is backed when each slot stores what is said, and no
slot belongs to two of them; this is what taking, giving back and writing slots preserve, whatever slots are lost meanwhile.
-/

namespace Radixox.Oxidart
set_option autoImplicit false

section Stored

variable {S : Type} [Score S]

/-- A raw value with what its slot stores. -/
inductive Stored (S : Type) [Score S] where
  | int (n : Int64)
  | bytes (b : Bytes)
  | slot (kind : SlabKind) (idx : Nat) (content : kind.Content S)

namespace Stored

def raw : Stored S → RawVal
  | int n => .int n
  | bytes b => .bytes b
  | slot kind idx _ => .slot kind idx

def value : Stored S → Value S
  | int n => .int n
  | bytes b => .string b
  | slot kind _ content => Slabs.valueOf kind content

/-- The index that the value owns in the slab of a tag. -/
def slotOf (kind : SlabKind) (x : Stored S) : Option Nat := x.raw.slotOf kind

theorem slotOf_slot (kind : SlabKind) (idx : Nat) (content : kind.Content S) : (slot kind idx content).slotOf kind = some idx := if_pos rfl

theorem eq_slot {kind : SlabKind} {idx : Nat} {x : Stored S} (owns : x.slotOf kind = some idx) : ∃ content, x = slot kind idx content := by
  cases x with
  | int n => cases owns
  | bytes b => cases owns
  | slot kind' idx' content =>
    change (if kind' = kind then some idx' else none) = some idx at owns
    split at owns
    next same =>
      subst same
      exact ⟨content, by rw [Option.some.inj owns]⟩
    next => cases owns

theorem redisType_raw (x : Stored S) : x.raw.redisType = x.value.redisType := by
  cases x with
  | slot kind idx content => cases kind <;> rfl
  | _ => rfl

end Stored

/-- `Value::as_hash` and its siblings. -/
def SlabKind.view : (kind : SlabKind) → Value S → Except RedisType (kind.Content S)
  | .hash, v => v.asHash
  | .set, v => v.asSet
  | .zset, v => v.asZset
  | .list, .list items => .ok items
  | .list, v => .error v.redisType

namespace Stored

theorem view_slot (kind : SlabKind) (idx : Nat) (content : kind.Content S) : kind.view (slot kind idx content).value = .ok content := by
  cases kind <;> rfl

theorem view_other {kind : SlabKind} {x : Stored S} (other : x.slotOf kind = none) : kind.view x.value = .error x.value.redisType := by
  cases x with
  | int n => cases kind <;> rfl
  | bytes b => cases kind <;> rfl
  | slot kind' idx content =>
    change (if kind' = kind then some idx else none) = none at other
    split at other
    next => cases other
    next differ =>
      cases kind' <;> cases kind <;> first | rfl | exact absurd rfl differ

/-- A node holds a container for the slabs when it holds one for the commands. -/
theorem isOk_view (kind : SlabKind) (x : Stored S) : (kind.view x.value).isOk = (x.slotOf kind).isSome := by
  cases owns : x.slotOf kind with
  | none => rw [view_other owns]; rfl
  | some idx =>
    obtain ⟨content, rfl⟩ := eq_slot owns
    rw [view_slot]
    rfl

end Stored

end Stored

/-! ## The slabs -/

namespace Slabs

variable {P : Policy} {S : Type} [Score S] {slabs : Slabs P S} {kind kind' : SlabKind} {idx j : Nat}

theorem get_alloc (slabs : Slabs P S) (kind : SlabKind) (content : kind.Content S) :
    ((slabs.alloc kind content).2 kind).get (slabs.alloc kind content).1 = some content := by
  simp only [alloc, Function.update_self, TaggedHiSlab.insert, TaggedHiSlab.get_insertSlot, if_true]

/-- A free index is taken. -/
theorem alloc_free (slabs : Slabs P S) (kind : SlabKind) (content : kind.Content S) : (slabs kind).get (slabs.alloc kind content).1 = none :=
  TaggedHiSlab.get_eq_none_iff.2 (P.pick_free (slabs kind).policy (slabs kind).cells.keys)

theorem get_alloc_of_some (content : kind.Content S) {x : kind'.Content S} (read : (slabs kind').get j = some x) :
    ((slabs.alloc kind content).2 kind').get j = some x := by
  by_cases same : kind' = kind
  · subst same
    have other : j ≠ (slabs kind').nextIdx := by
      rintro rfl
      exact absurd ((slabs.alloc_free kind' content).symm.trans read) (by simp)
    simp only [alloc, Function.update_self, TaggedHiSlab.insert, TaggedHiSlab.get_insertSlot, if_neg other, read]
  · simp only [alloc, Function.update_of_ne same, read]

theorem get_free_of_ne (other : kind' = kind → j ≠ idx) : ((slabs.free kind idx) kind').get j = (slabs kind').get j := by
  by_cases same : kind' = kind
  · subst same
    simp only [free, Function.update_self, TaggedHiSlab.get, TaggedHiSlab.remove, AList.lookup_erase_ne (other rfl)]
  · rw [free, Function.update_of_ne same]

theorem get_write {x : kind.Content S} (read : (slabs kind).get idx = some x) (content : kind.Content S) :
    ((slabs.write kind idx content) kind).get idx = some content := by
  rw [write, Function.update_self, TaggedHiSlab.get_set, if_pos rfl, read]
  rfl

theorem get_write_of_ne (content : kind.Content S) (other : kind' = kind → j ≠ idx) :
    ((slabs.write kind idx content) kind').get j = (slabs kind').get j := by
  by_cases same : kind' = kind
  · subst same
    rw [write, Function.update_self, TaggedHiSlab.get_set, if_neg (other rfl)]
  · rw [write, Function.update_of_ne same]

end Slabs

/-! ## Backed values -/

/-- Each slot stores what is said, and belongs to one value. -/
structure Backed {P : Policy} {S : Type} [Score S] (slabs : Slabs P S) (held : Multiset (Stored S)) : Prop where
  reads : ∀ kind idx content, Stored.slot kind idx content ∈ held → (slabs kind).get idx = some content
  once : ∀ kind, (held.filterMap (Stored.slotOf kind)).Nodup

namespace Backed

variable {P : Policy} {S : Type} [Score S] {slabs : Slabs P S} {held held' : Multiset (Stored S)} {x : Stored S}

theorem empty : Backed (.init : Slabs P S) 0 := ⟨fun _ _ _ member => absurd member (Multiset.notMem_zero _), fun _ => Multiset.nodup_zero⟩

section Held

variable (B : Backed slabs held)

include B

/-- Some values are forgotten, and their slots with them. -/
theorem mono (le : held' ≤ held) : Backed slabs held' :=
  ⟨fun kind idx content member => B.reads kind idx content (Multiset.mem_of_le le member),
    fun kind => Multiset.nodup_of_le (Multiset.filterMap_le_filterMap _ le) (B.once kind)⟩

theorem valueFromRawRef (member : x ∈ held) : slabs.valueFromRawRef x.raw = .ok x.value := by
  cases x with
  | int n => rfl
  | bytes b => rfl
  | slot kind idx content =>
    simp only [Stored.raw, Slabs.valueFromRawRef, B.reads kind idx content member]
    rfl

theorem valueTakeRaw (member : x ∈ held) : slabs.valueTakeRaw x.raw = .ok (x.value, slabs.dropRaw x.raw) := by
  cases x with
  | int n => rfl
  | bytes b => rfl
  | slot kind idx content =>
    simp only [Stored.raw, Slabs.valueTakeRaw, B.reads kind idx content member]
    rfl

/-- The view of a container is that of the typed value, with its index. -/
theorem view (member : x ∈ held) (kind : SlabKind) :
    slabs.view kind x.raw = .ok ((kind.view x.value).map fun content => ((x.slotOf kind).getD 0, content)) := by
  cases owns : x.slotOf kind with
  | none =>
    have none' : x.raw.slotOf kind = none := owns
    rw [Slabs.view, none', Stored.view_other owns, Stored.redisType_raw]
    rfl
  | some idx =>
    obtain ⟨content, rfl⟩ := Stored.eq_slot owns
    have some' : (Stored.slot kind idx content).raw.slotOf kind = some idx := owns
    rw [Slabs.view, some', Stored.view_slot]
    simp only [B.reads kind idx content member]
    rfl

end Held

theorem notMem_slots {kind : SlabKind} {idx : Nat} {content : kind.Content S} (B : Backed slabs (.slot kind idx content ::ₘ held)) :
    idx ∉ held.filterMap (Stored.slotOf kind) := by
  have once := B.once kind
  rw [filterMap_cons_occurrence, Stored.slotOf_slot, occurrence_some, Multiset.singleton_add] at once
  exact (Multiset.nodup_cons.1 once).1

theorem ne_of_mem {kind kind' : SlabKind} {idx j : Nat} {content : kind'.Content S} (absent : idx ∉ held.filterMap (Stored.slotOf kind))
    (member : Stored.slot kind' j content ∈ held) (same : kind' = kind) : j ≠ idx := by
  rintro rfl
  subst same
  exact absent ((Multiset.mem_filterMap _ _).2 ⟨_, member, Stored.slotOf_slot ..⟩)

/-- A value leaves, and its slot is given back. -/
theorem drop (B : Backed slabs (x ::ₘ held)) : Backed (slabs.dropRaw x.raw) held := by
  have rest := B.mono (Multiset.le_cons_self held x)
  cases x with
  | int n => exact rest
  | bytes b => exact rest
  | slot kind idx content =>
    refine ⟨fun kind' j content' member => ?_, rest.once⟩
    exact (Slabs.get_free_of_ne (ne_of_mem B.notMem_slots member)).trans (rest.reads kind' j content' member)

theorem dropAll (xs : List (Stored S)) : ∀ {slabs : Slabs P S}, Backed slabs (↑xs + held) → Backed (slabs.dropAll (xs.map Stored.raw)) held := by
  induction xs with
  | nil => exact fun {slabs} B => B.mono (zero_add held).ge
  | cons x xs ih =>
    intro slabs B
    have B : Backed slabs (x ::ₘ (↑xs + held)) := by rwa [← Multiset.cons_add, Multiset.cons_coe]
    exact ih B.drop

/-- A container gets a slot. -/
theorem alloc (B : Backed slabs held) (kind : SlabKind) (content : kind.Content S) :
    Backed (slabs.alloc kind content).2 (.slot kind (slabs.alloc kind content).1 content ::ₘ held) := by
  refine ⟨fun kind' j content' member => ?_, fun kind' => ?_⟩
  · rcases Multiset.mem_cons.1 member with same | member
    · cases same
      exact slabs.get_alloc kind content
    · exact Slabs.get_alloc_of_some content (B.reads kind' j content' member)
  · rw [filterMap_cons_occurrence]
    by_cases same : kind' = kind
    · subst same
      rw [Stored.slotOf_slot, occurrence_some, Multiset.singleton_add, Multiset.nodup_cons]
      refine ⟨fun member => ?_, B.once kind'⟩
      obtain ⟨y, there, owns⟩ := (Multiset.mem_filterMap _ _).1 member
      obtain ⟨content', rfl⟩ := Stored.eq_slot owns
      exact absurd ((slabs.alloc_free kind' content).symm.trans (B.reads _ _ _ there)) (by simp)
    · have none' : (Stored.slot kind (slabs.alloc kind content).1 content).slotOf kind' = none := if_neg (Ne.symm same)
      rw [none', occurrence_none, zero_add]
      exact B.once kind'

/-- A container changes in its slot. -/
theorem write {kind : SlabKind} {idx : Nat} {content : kind.Content S} (B : Backed slabs (.slot kind idx content ::ₘ held))
    (content' : kind.Content S) : Backed (slabs.write kind idx content') (.slot kind idx content' ::ₘ held) := by
  have same (kind') : (Stored.slot kind idx content').slotOf kind' = (Stored.slot kind idx content).slotOf kind' := rfl
  refine ⟨fun kind' j content'' member => ?_, fun kind' => ?_⟩
  swap
  · rw [filterMap_cons_occurrence, same, ← filterMap_cons_occurrence]
    exact B.once kind'
  rcases Multiset.mem_cons.1 member with same | member
  · cases same
    exact Slabs.get_write (B.reads kind idx content (Multiset.mem_cons_self _ _)) content'
  · exact (Slabs.get_write_of_ne content' (ne_of_mem B.notMem_slots member)).trans
      (B.reads kind' j content'' (Multiset.mem_cons_of_mem member))

end Backed

/-- What `value_into_raw` makes of a value. -/
def Slabs.stored {P : Policy} {S : Type} [Score S] (slabs : Slabs P S) : Value S → Stored S
  | .int n => .int n
  | .string b => .bytes b
  | .hash inner => .slot .hash (slabs.alloc .hash inner).1 inner
  | .set members => .slot .set (slabs.alloc .set members).1 members
  | .zset inner => .slot .zset (slabs.alloc .zset inner).1 inner
  | .list items => .slot .list (slabs.alloc .list items).1 items

section Into

variable {P : Policy} {S : Type} [Score S] {slabs : Slabs P S} {held : Multiset (Stored S)}

theorem raw_stored (slabs : Slabs P S) (v : Value S) : (slabs.stored v).raw = (slabs.valueIntoRaw v).1 := by cases v <;> rfl

theorem value_stored (slabs : Slabs P S) (v : Value S) : (slabs.stored v).value = v := by cases v <;> rfl

/-- A value moves into the slabs. -/
theorem Backed.into (B : Backed slabs held) (v : Value S) : Backed (slabs.valueIntoRaw v).2 (slabs.stored v ::ₘ held) := by
  have plain (x : Stored S) (free : ∀ kind, x.slotOf kind = none) : Backed slabs (x ::ₘ held) := by
    refine ⟨fun kind idx content member => ?_, fun kind => ?_⟩
    · rcases Multiset.mem_cons.1 member with same | member
      · exact absurd ((same ▸ free kind).symm.trans (Stored.slotOf_slot kind idx content)) (by simp)
      · exact B.reads kind idx content member
    · rw [filterMap_cons_occurrence, free, occurrence_none, zero_add]
      exact B.once kind
  cases v with
  | int n => exact plain (.int n) fun _ => rfl
  | string b => exact plain (.bytes b) fun _ => rfl
  | hash inner => exact B.alloc .hash inner
  | set members => exact B.alloc .set members
  | zset inner => exact B.alloc .zset inner
  | list items => exact B.alloc .list items

end Into

end Radixox.Oxidart
