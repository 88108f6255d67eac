import Mathlib.Data.List.AList

/-!
# The external `hislab` slab

`TaggedHiSlab` is a third-party crate. What the store relies on is: an
insertion returns an index that is not occupied, `get`, `get_mut` and `remove`
act on their own index only, and a tag belongs to an occupied slot
(`insert_tagged` and `tag` set it, `untag` and `remove` clear it). Which free
index an insertion gets is left open: it is a `Policy`, and the results about
the store hold for every policy or, where they say so, for every unordered one.
There is always a free index: the maximum of a slab is not part of the model.
-/

namespace Radixox.Oxidart
set_option autoImplicit false

/-- How the slab chooses among its free indices. The hidden state may depend on
the whole history, so any sequence of free indices is the choice of some policy. -/
structure Policy where
  State : Type
  init : State
  pick : State → List Nat → Nat × State
  pick_free : ∀ s occupied, (pick s occupied).1 ∉ occupied

/-- The lowest free index, as the crate's bitmap search finds it. -/
def lowestFree (occupied : List Nat) : Nat :=
  ((List.range (occupied.length + 1)).find? (fun i => !occupied.contains i)).getD 0

theorem lowestFree_notMem (occupied : List Nat) : lowestFree occupied ∉ occupied := by
  unfold lowestFree
  cases found : (List.range (occupied.length + 1)).find? (fun i => !occupied.contains i) with
  | some i => simpa using List.find?_some found
  | none =>
    -- Otherwise `occupied` would hold more distinct indices than it is long.
    exfalso
    rw [List.find?_eq_none] at found
    have sub : List.range (occupied.length + 1) ⊆ occupied := by
      intro i member
      simpa using found i member
    have bound := (List.subperm_of_subset List.nodup_range sub).length_le
    simp only [List.length_range] at bound
    omega

/-- The policy of the crate itself. -/
def Policy.lowest : Policy where
  State := Unit
  init := ()
  pick _ occupied := (lowestFree occupied, ())
  pick_free _ occupied := lowestFree_notMem occupied

structure Slot (α : Type) where
  item : α
  tagged : Bool

structure TaggedHiSlab (P : Policy) (α : Type) where
  cells : AList (fun _ : Nat => Slot α)
  policy : P.State

namespace TaggedHiSlab

variable {P : Policy} {α : Type}

def empty : TaggedHiSlab P α := ⟨∅, P.init⟩

def get (s : TaggedHiSlab P α) (i : Nat) : Option α := (s.cells.lookup i).map Slot.item

def isTagged (s : TaggedHiSlab P α) (i : Nat) : Bool := ((s.cells.lookup i).map Slot.tagged).getD false

/-- The number of occupied slots. -/
def len (s : TaggedHiSlab P α) : Nat := s.cells.keys.length

/-- The index the next insertion gets. -/
def nextIdx (s : TaggedHiSlab P α) : Nat := (P.pick s.policy s.cells.keys).1

def insertSlot (s : TaggedHiSlab P α) (x : Slot α) : TaggedHiSlab P α :=
  ⟨s.cells.insert s.nextIdx x, (P.pick s.policy s.cells.keys).2⟩

def insert (s : TaggedHiSlab P α) (x : α) : Nat × TaggedHiSlab P α := (s.nextIdx, s.insertSlot ⟨x, false⟩)

def insertTagged (s : TaggedHiSlab P α) (x : α) : Nat × TaggedHiSlab P α :=
  (s.nextIdx, s.insertSlot ⟨x, true⟩)

/-- Writing through `get_mut`: nothing happens at a free index. -/
def modify (s : TaggedHiSlab P α) (i : Nat) (f : Slot α → Slot α) : TaggedHiSlab P α :=
  match s.cells.lookup i with
  | none => s
  | some x => ⟨s.cells.insert i (f x), s.policy⟩

def set (s : TaggedHiSlab P α) (i : Nat) (x : α) : TaggedHiSlab P α := s.modify i fun slot => { slot with item := x }

def tag (s : TaggedHiSlab P α) (i : Nat) : TaggedHiSlab P α := s.modify i fun slot => { slot with tagged := true }

def untag (s : TaggedHiSlab P α) (i : Nat) : TaggedHiSlab P α := s.modify i fun slot => { slot with tagged := false }

def remove (s : TaggedHiSlab P α) (i : Nat) : Option α × TaggedHiSlab P α := (s.get i, ⟨s.cells.erase i, s.policy⟩)

/-- The tagged indices, in the slab's own order. -/
def taggedIdxs (s : TaggedHiSlab P α) : List Nat := s.cells.keys.filter s.isTagged

/-- `random_tagged` under the draw `c`: some tagged slot, none when there is no tag. -/
def randomTagged (s : TaggedHiSlab P α) (c : Nat) : Option (Nat × α) := do
  let i ← s.taggedIdxs[c % s.taggedIdxs.length]?
  let x ← s.get i
  return (i, x)

theorem get_eq_none_iff {s : TaggedHiSlab P α} {i : Nat} : s.get i = none ↔ i ∉ s.cells.keys := by
  rw [get, Option.map_eq_none_iff, AList.lookup_eq_none, AList.mem_keys]

theorem mem_keys_of_get {s : TaggedHiSlab P α} {i : Nat} {x : α} (found : s.get i = some x) : i ∈ s.cells.keys := by
  by_contra absent
  rw [get_eq_none_iff.2 absent] at found
  cases found

@[simp] theorem get_empty (i : Nat) : (empty : TaggedHiSlab P α).get i = none := rfl

/-- The next index is free. -/
@[simp] theorem get_nextIdx (s : TaggedHiSlab P α) : s.get s.nextIdx = none :=
  get_eq_none_iff.2 (P.pick_free s.policy s.cells.keys)

theorem get_insertSlot (s : TaggedHiSlab P α) (x : Slot α) (i : Nat) :
    (s.insertSlot x).get i = if i = s.nextIdx then some x.item else s.get i := by
  unfold insertSlot get
  split
  next same => subst same; simp
  next other => simp only [AList.lookup_insert_ne other]

theorem get_modify (s : TaggedHiSlab P α) (i j : Nat) (f : Slot α → Slot α) :
    (s.modify i f).get j = if j = i then (s.cells.lookup i).map (fun x => (f x).item) else s.get j := by
  unfold modify get
  by_cases same : j = i
  · subst same
    cases found : s.cells.lookup j <;> simp [found]
  · cases found : s.cells.lookup i <;> simp [same, AList.lookup_insert_ne same]

theorem get_set (s : TaggedHiSlab P α) (i j : Nat) (x : α) :
    (s.set i x).get j = if j = i then (s.get i).map (fun _ => x) else s.get j := by
  rw [set, get_modify]
  simp only [get, Option.map_map]
  rfl

@[simp] theorem get_tag (s : TaggedHiSlab P α) (i j : Nat) : (s.tag i).get j = s.get j := by
  rw [tag, get_modify]
  split
  next same => subst same; rfl
  next => rfl

@[simp] theorem get_untag (s : TaggedHiSlab P α) (i j : Nat) : (s.untag i).get j = s.get j := by
  rw [untag, get_modify]
  split
  next same => subst same; rfl
  next => rfl

theorem get_remove (s : TaggedHiSlab P α) (i j : Nat) :
    (s.remove i).2.get j = if j = i then none else s.get j := by
  unfold remove get
  split
  next same => subst same; simp
  next other => simp only [AList.lookup_erase_ne other]

/-- Removing an occupied slot leaves one slot fewer. -/
theorem len_remove {s : TaggedHiSlab P α} {i : Nat} {x : α} (found : s.get i = some x) :
    (s.remove i).2.len + 1 = s.len := by
  have member := mem_keys_of_get found
  simp only [remove, len, AList.keys_erase, List.length_erase_of_mem member]
  have := List.length_pos_of_mem member
  omega

theorem len_set (s : TaggedHiSlab P α) (i : Nat) (x : α) : (s.set i x).len = s.len := by
  unfold set modify
  cases found : s.cells.lookup i with
  | none => rfl
  | some y =>
    have member : i ∈ s.cells.keys := AList.lookup_isSome.1 (by rw [found]; rfl)
    have := List.length_pos_of_mem member
    simp only [len, AList.keys_insert, List.length_cons, List.length_erase_of_mem member]
    omega

theorem set_set (s : TaggedHiSlab P α) (i : Nat) (x y : α) : (s.set i x).set i y = s.set i y := by
  unfold set modify
  cases found : s.cells.lookup i with
  | none => simp only [found]
  | some z => simp only [AList.lookup_insert, AList.insert_insert]

/-- Writing to one slot and removing another commute. -/
theorem remove_set {i j : Nat} (other : i ≠ j) (s : TaggedHiSlab P α) (x : α) :
    ((s.set j x).remove i).2 = (s.remove i).2.set j x := by
  unfold set modify remove
  simp only [AList.lookup_erase_ne other.symm]
  cases found : s.cells.lookup j with
  | none => rfl
  | some y =>
    congr 1
    refine AList.ext ?_
    show List.kerase i (⟨j, _⟩ :: List.kerase j s.cells.entries) = ⟨j, _⟩ :: List.kerase j (List.kerase i s.cells.entries)
    rw [List.kerase_cons_ne other, List.kerase_comm]

/-! ## Tags -/

theorem isTagged_insertSlot (s : TaggedHiSlab P α) (x : Slot α) (i : Nat) :
    (s.insertSlot x).isTagged i = if i = s.nextIdx then x.tagged else s.isTagged i := by
  unfold insertSlot isTagged
  split
  next same => subst same; simp
  next other => simp only [AList.lookup_insert_ne other]

theorem isTagged_modify (s : TaggedHiSlab P α) (i j : Nat) (f : Slot α → Slot α) :
    (s.modify i f).isTagged j = if j = i then ((s.cells.lookup i).map fun x => (f x).tagged).getD false else s.isTagged j := by
  unfold modify isTagged
  by_cases same : j = i
  · subst same
    cases found : s.cells.lookup j <;> simp [found]
  · cases found : s.cells.lookup i <;> simp [same, AList.lookup_insert_ne same]

@[simp] theorem isTagged_set (s : TaggedHiSlab P α) (i j : Nat) (x : α) : (s.set i x).isTagged j = s.isTagged j := by
  rw [set, isTagged_modify]
  split
  next same => rw [same, isTagged]
  next => rfl

theorem isTagged_tag (s : TaggedHiSlab P α) (i j : Nat) : (s.tag i).isTagged j = if j = i then (s.get i).isSome else s.isTagged j := by
  rw [tag, isTagged_modify, get]
  cases s.cells.lookup i <;> rfl

theorem isTagged_untag (s : TaggedHiSlab P α) (i j : Nat) : (s.untag i).isTagged j = if j = i then false else s.isTagged j := by
  rw [untag, isTagged_modify]
  cases s.cells.lookup i <;> rfl

theorem isTagged_remove (s : TaggedHiSlab P α) (i j : Nat) :
    (s.remove i).2.isTagged j = if j = i then false else s.isTagged j := by
  unfold remove isTagged
  split
  next same => subst same; simp
  next other => simp only [AList.lookup_erase_ne other]

/-- `random_tagged` can return every tagged slot. -/
theorem exists_randomTagged {s : TaggedHiSlab P α} {i : Nat} {x : α} (found : s.get i = some x) (tagged : s.isTagged i = true) :
    ∃ c, s.randomTagged c = some (i, x) := by
  have member : i ∈ s.taggedIdxs := List.mem_filter.2 ⟨mem_keys_of_get found, tagged⟩
  obtain ⟨c, inside, here⟩ := List.mem_iff_getElem.1 member
  refine ⟨c, ?_⟩
  rw [randomTagged, Nat.mod_eq_of_lt inside, List.getElem?_eq_getElem inside, here, Option.bind_eq_bind, Option.bind_some, found]
  rfl

/-- `random_tagged` returns an occupied, tagged slot. -/
theorem randomTagged_spec {s : TaggedHiSlab P α} {c i : Nat} {x : α} (drawn : s.randomTagged c = some (i, x)) :
    s.get i = some x ∧ s.isTagged i = true := by
  simp only [randomTagged, Option.bind_eq_bind, Option.bind_eq_some_iff, Option.pure_def, Option.some.injEq,
    Prod.mk.injEq] at drawn
  obtain ⟨j, chosen, y, found, rfl, rfl⟩ := drawn
  exact ⟨found, (List.mem_filter.1 (List.mem_of_getElem? chosen)).2⟩

end TaggedHiSlab

end Radixox.Oxidart
