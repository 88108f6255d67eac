import Mathlib.Data.List.Perm.Basic
import Radixox.Lib.Runs
import Radixox.Server.Resp

/-!
# Shared byte strings

`shared_byte.rs`: a handle is a pointer to a cell of bytes and a counter of 16 bits, on any
heap and with any number of handles. Elsewhere a `SharedByte` is taken for its bytes; here are the
handles themselves, and when their counters are right.
-/

namespace Radixox.Server
set_option autoImplicit false
open Runs Resp

/-! ## The code -/

/-- What a handle points to. -/
structure SharedCell where
  bytes : SharedByte
  rc : UInt16
deriving DecidableEq

/-- The live cells, and the pointer of each handle that the program holds. -/
structure Handles where
  cells : Nat → Option SharedCell
  ptrs : List Nat

inductive HandleFault where
  | noHandle
  | freed
deriving DecidableEq

/-- What a program does with handles; `a` is the answer of the allocator, if it is asked. -/
inductive HandleOp where
  | fromSlice (data : SharedByte) (a : Nat)
  | clone (i : Nat)
  | drop (i : Nat)
  | toUppercase (i a : Nat)

namespace Handles

def empty : Handles := ⟨fun _ => none, []⟩

/-- The pointer of a handle. -/
def ptr (st : Handles) (i : Nat) : Except HandleFault Nat := st.ptrs[i]?.elim (.error .noHandle) .ok

/-- The cell that a pointer refers to. -/
def cell (st : Handles) (p : Nat) : Except HandleFault SharedCell := (st.cells p).elim (.error .freed) .ok

/-- The bytes that are seen through a handle. -/
def seen (st : Handles) (i : Nat) : Option SharedByte := (st.ptrs[i]?.bind st.cells).map SharedCell.bytes

/-- `from_byte`; a slice that is too long fails the assertion, and there is no handle. -/
def fromSlice (st : Handles) (data : SharedByte) (a : Nat) : Handles :=
  if data.length < 2 ^ 32 then ⟨Function.update st.cells a (some ⟨data, 1⟩), st.ptrs ++ [a]⟩ else st

/-- `clone`, in a release build: the counter wraps. -/
def clone (st : Handles) (i : Nat) : Except HandleFault Handles := do
  let p ← st.ptr i
  let c ← st.cell p
  return ⟨Function.update st.cells p (some { c with rc := c.rc + 1 }), st.ptrs ++ [p]⟩

/-- `drop`: the cell is freed when its counter comes to 0. -/
def drop (st : Handles) (i : Nat) : Except HandleFault Handles := do
  let p ← st.ptr i
  let c ← st.cell p
  let rc := c.rc - 1
  return ⟨Function.update st.cells p (if rc = 0 then none else some { c with rc := rc }), st.ptrs.eraseIdx i⟩

/-- `to_uppercase`: in place, or in a new cell. The counter of the old cell is not touched. -/
def toUppercase (st : Handles) (i a : Nat) : Except HandleFault Handles := do
  let p ← st.ptr i
  let c ← st.cell p
  if c.rc = 1 then return { st with cells := Function.update st.cells p (some { c with bytes := Resp.toUppercase c.bytes }) }
  else return ⟨Function.update st.cells a (some ⟨Resp.toUppercase c.bytes, 1⟩), st.ptrs.set i a⟩

def step (st : Handles) : HandleOp → Except HandleFault (Unit × Handles)
  | .fromSlice data a => .ok ((), st.fromSlice data a)
  | .clone i => do return ((), ← st.clone i)
  | .drop i => do return ((), ← st.drop i)
  | .toUppercase i a => do return ((), ← st.toUppercase i a)

/-- A program uses handles that it has, and the allocator answers with an address that is free. -/
def Possible (st : Handles) : HandleOp → Prop
  | .fromSlice _ a => st.cells a = none
  | .clone i | .drop i => i < st.ptrs.length
  | .toUppercase i a => i < st.ptrs.length ∧ st.cells a = none

instance (st : Handles) : (op : HandleOp) → Decidable (st.Possible op)
  | .fromSlice _ a => decEq (st.cells a) none
  | .clone i | .drop i => Nat.decLt i st.ptrs.length
  | .toUppercase i a => inferInstanceAs (Decidable (i < st.ptrs.length ∧ st.cells a = none))

/-- The counter of a handle's cell. -/
def rc (st : Handles) (i : Nat) : Option UInt16 := (st.ptrs[i]?.bind st.cells).map SharedCell.rc

/-- A clone finds the counter below its top, and `to_uppercase` finds it at 1. -/
def Counted (st : Handles) : HandleOp → Prop
  | .clone i => st.rc i ≠ some 65535
  | .toUppercase i _ => st.rc i = some 1
  | .fromSlice .. | .drop _ => True

instance (st : Handles) : (op : HandleOp) → Decidable (st.Counted op)
  | .clone i => inferInstanceAs (Decidable (st.rc i ≠ some 65535))
  | .toUppercase i _ => decEq (st.rc i) (some 1)
  | .fromSlice .. | .drop _ => isTrue trivial

/-- Every live cell counts the handles that point to it, and there is one; no handle points anywhere else. -/
structure Exact (st : Handles) : Prop where
  counts : ∀ p c, st.cells p = some c → c.rc.toNat = st.ptrs.count p
  held : ∀ p, (st.cells p).isSome = true ↔ p ∈ st.ptrs

/-- The step is taken, leaves the counters exact, and as `to_uppercase` changes what no other handle shows. -/
def Proper (st : Handles) (op : HandleOp) : Prop :=
  ∃ st', st.step op = .ok ((), st') ∧ st'.Exact ∧ ∀ i a, op = .toUppercase i a → ∀ j, j ≠ i → st'.seen j = st.seen j

/-! ## Counting handles -/

theorem exact_empty : empty.Exact := ⟨fun _ _ live => (nomatch live), fun _ => ⟨fun live => (nomatch live), fun held => (nomatch held)⟩⟩

theorem count_eraseIdx {l : List Nat} {i : Nat} (inside : i < l.length) (p : Nat) :
    l.count p = (l.eraseIdx i).count p + if l[i] = p then 1 else 0 := by
  rw [← (List.getElem_cons_eraseIdx_perm inside).count_eq p, List.count_cons]
  simp only [beq_iff_eq]

theorem count_set {l : List Nat} {i : Nat} (inside : i < l.length) (a p : Nat) :
    (l.set i a).count p + (if l[i] = p then 1 else 0) = l.count p + if a = p then 1 else 0 := by
  have counted := List.count_set (a := a) (b := p) inside
  have member : l[i] = p → 0 < l.count p := fun same => List.count_pos_iff.2 (same ▸ List.getElem_mem inside)
  simp only [beq_iff_eq] at counted
  split at counted <;> split at counted <;> simp_all

/-- What is counted once stands in one place. -/
theorem getElem_ne_of_count {l : List Nat} {i j p : Nat} (inside : i < l.length) (here : l[i] = p) (one : l.count p = 1)
    (other : j ≠ i) : l[j]? ≠ some p := by
  intro there
  obtain ⟨inside', same⟩ := List.getElem?_eq_some_iff.1 there
  have left := count_eraseIdx inside p
  have member : p ∈ l.eraseIdx i := List.mem_eraseIdx_iff_getElem.2 ⟨j, inside', other, same⟩
  rw [if_pos here, one] at left
  exact absurd (List.count_pos_iff.2 member) (by omega)

namespace Exact

variable {st : Handles}

/-- The pointer and the cell of a handle. -/
theorem cell (exact : st.Exact) {i : Nat} (inside : i < st.ptrs.length) :
    ∃ p c, st.ptrs[i] = p ∧ st.ptrs[i]? = some p ∧ st.cells p = some c ∧ st.ptr i = .ok p ∧ st.cell p = .ok c ∧ st.rc i = some c.rc := by
  have at' := List.getElem?_eq_getElem inside
  obtain ⟨c, live⟩ := Option.isSome_iff_exists.1 ((exact.held _).2 (List.getElem_mem inside))
  refine ⟨st.ptrs[i], c, rfl, at', live, ?_, ?_, ?_⟩
  · rw [Handles.ptr, at']
    rfl
  · rw [Handles.cell, live]
    rfl
  · rw [Handles.rc, at', Option.bind_some, live]
    rfl

/-- When one cell is written and only the handles to it change, nothing but that cell is to be checked. -/
theorem update_iff (exact : st.Exact) (p : Nat) (c : Option SharedCell) (ptrs : List Nat)
    (others : ∀ q, q ≠ p → ptrs.count q = st.ptrs.count q) :
    Exact ⟨Function.update st.cells p c, ptrs⟩ ↔
      (∀ d, c = some d → d.rc.toNat = ptrs.count p) ∧ (c.isSome = true ↔ p ∈ ptrs) := by
  constructor
  · intro exact'
    have live : (Function.update st.cells p c p).isSome = true ↔ p ∈ ptrs := exact'.held p
    rw [Function.update_self] at live
    exact ⟨fun d same => exact'.counts p d (same ▸ Function.update_self ..), live⟩
  · rintro ⟨counted, live⟩
    constructor
    · intro q d live'
      have found : Function.update st.cells p c q = some d := live'
      show d.rc.toNat = ptrs.count q
      by_cases same : q = p
      · subst same
        exact counted d (by rwa [Function.update_self] at found)
      · rw [Function.update_of_ne same] at found
        rw [exact.counts q d found, others q same]
    · intro q
      show (Function.update st.cells p c q).isSome = true ↔ q ∈ ptrs
      by_cases same : q = p
      · subst same
        rwa [Function.update_self]
      · rw [Function.update_of_ne same, exact.held, ← List.count_pos_iff, ← others q same, List.count_pos_iff]

theorem notMem_of_free (exact : st.Exact) {a : Nat} (free : st.cells a = none) : a ∉ st.ptrs := by
  rw [← exact.held, free]
  exact Bool.false_ne_true

end Exact

/-! ## One operation -/

section

variable {st : Handles}

theorem fromSlice_proper (exact : st.Exact) (data : SharedByte) {a : Nat} (free : st.cells a = none) :
    st.Proper (.fromSlice data a) := by
  refine ⟨_, rfl, ?_, fun i a same => nomatch same⟩
  unfold fromSlice
  split
  · refine (exact.update_iff a _ _ fun q other => ?_).2 ⟨?_, ?_⟩
    · rw [List.count_append, List.count_singleton, if_neg (by simpa using Ne.symm other), Nat.add_zero]
    · rintro d ⟨⟩
      rw [List.count_append, List.count_eq_zero.2 (exact.notMem_of_free free), List.count_singleton_self]
      rfl
    · simp
  · exact exact

/-- A clone is right unless the counter wraps. -/
theorem clone_proper_iff (exact : st.Exact) {i : Nat} (inside : i < st.ptrs.length) : st.Proper (.clone i) ↔ st.rc i ≠ some 65535 := by
  obtain ⟨p, c, _, at', live, isPtr, isCell, rc⟩ := exact.cell inside
  have cloned : st.step (.clone i) =
      .ok ((), ⟨Function.update st.cells p (some { c with rc := c.rc + 1 }), st.ptrs ++ [p]⟩) := by
    simp only [step, clone, isPtr, isCell, bind, Except.bind, pure, Except.pure]
  have counts := exact.counts p c live
  have bound := c.rc.toNat_lt
  have right := exact.update_iff p (some { c with rc := c.rc + 1 }) (st.ptrs ++ [p]) fun q other => by
    rw [List.count_append, List.count_singleton, if_neg (by simpa using Ne.symm other), Nat.add_zero]
  have sum : (c.rc + 1).toNat = (st.ptrs ++ [p]).count p ↔ st.rc i ≠ some 65535 := by
    rw [rc, List.count_append, List.count_singleton_self, ← counts, UInt16.toNat_add, ne_eq, Option.some_inj, ← UInt16.toNat_inj]
    show (c.rc.toNat + 1) % 2 ^ 16 = c.rc.toNat + 1 ↔ ¬ c.rc.toNat = 65535
    omega
  rw [← sum]
  constructor
  · rintro ⟨st', taken, exact', _⟩
    obtain rfl := (Prod.mk.inj (Except.ok.inj (cloned.symm.trans taken))).2
    exact (right.1 exact').1 _ rfl
  · intro same
    refine ⟨_, cloned, right.2 ⟨fun d found => ?_, by simp⟩, fun i a same => nomatch same⟩
    obtain rfl := Option.some.inj found
    exact same

/-- A drop is always right. -/
theorem drop_proper (exact : st.Exact) {i : Nat} (inside : i < st.ptrs.length) : st.Proper (.drop i) := by
  obtain ⟨p, c, here, _, live, isPtr, isCell, _⟩ := exact.cell inside
  have counts := exact.counts p c live
  have left := count_eraseIdx inside p
  rw [if_pos here] at left
  have rc : (c.rc - 1).toNat = (st.ptrs.eraseIdx i).count p := by
    rw [UInt16.toNat_sub_of_le _ _ (UInt16.le_iff_toNat_le.2 (by rw [counts, left]; exact Nat.le_add_left 1 _)), counts, left]
    rfl
  have last : c.rc - 1 = 0 ↔ (st.ptrs.eraseIdx i).count p = 0 := by
    rw [← rc, ← UInt16.toNat_inj]
    rfl
  have dropped : st.step (.drop i) =
      .ok ((), ⟨Function.update st.cells p (if c.rc - 1 = 0 then none else some { c with rc := c.rc - 1 }), st.ptrs.eraseIdx i⟩) := by
    simp only [step, drop, isPtr, isCell, bind, Except.bind, pure, Except.pure]
  refine ⟨_, dropped, (exact.update_iff p _ _ fun q other => ?_).2 ⟨fun d found => ?_, ?_⟩, fun i a same => nomatch same⟩
  · rw [count_eraseIdx inside q, if_neg (here ▸ Ne.symm other), Nat.add_zero]
  · split at found
    · cases found
    · obtain rfl := Option.some.inj found
      exact rc
  · rw [← List.count_pos_iff]
    split
    next zero => exact iff_of_false Bool.false_ne_true (by rw [last.1 zero]; exact Nat.lt_irrefl 0)
    next more => exact iff_of_true rfl (Nat.pos_of_ne_zero fun none => more (last.2 none))

/-- `to_uppercase` is right when it works in place: otherwise the cell that the handle leaves counts it still. -/
theorem toUppercase_proper_iff (exact : st.Exact) {i a : Nat} (inside : i < st.ptrs.length) (free : st.cells a = none) :
    st.Proper (.toUppercase i a) ↔ st.rc i = some 1 := by
  obtain ⟨p, c, here, at', live, isPtr, isCell, rc⟩ := exact.cell inside
  have counts := exact.counts p c live
  rw [rc, Option.some_inj]
  constructor
  · rintro ⟨st', taken, exact', _⟩
    refine Decidable.byContradiction fun shared => ?_
    have moved : st.step (.toUppercase i a) =
        .ok ((), ⟨Function.update st.cells a (some ⟨Resp.toUppercase c.bytes, 1⟩), st.ptrs.set i a⟩) := by
      simp only [step, toUppercase, isPtr, isCell, if_neg shared, bind, Except.bind, pure, Except.pure]
    obtain rfl := (Prod.mk.inj (Except.ok.inj (moved.symm.trans taken))).2
    have apart : a ≠ p := by
      rintro rfl
      rw [free] at live
      cases live
    have live' : Function.update st.cells a (some ⟨Resp.toUppercase c.bytes, 1⟩) p = some c := by rw [Function.update_of_ne apart.symm, live]
    have counts' : c.rc.toNat = (st.ptrs.set i a).count p := exact'.counts p c live'
    have fewer := count_set inside a p
    rw [if_pos here, if_neg apart] at fewer
    omega
  · intro one
    have changed : st.step (.toUppercase i a) =
        .ok ((), ⟨Function.update st.cells p (some { c with bytes := Resp.toUppercase c.bytes }), st.ptrs⟩) := by
      simp only [step, toUppercase, isPtr, isCell, if_pos one, bind, Except.bind, pure, Except.pure]
    have single : st.ptrs.count p = 1 := by
      rw [← counts, one]
      rfl
    refine ⟨_, changed, (exact.update_iff p _ _ fun q _ => rfl).2 ⟨fun d found => ?_, ?_⟩, fun k b same j other => ?_⟩
    · obtain rfl := Option.some.inj found
      exact counts
    · exact iff_of_true rfl (here ▸ List.getElem_mem inside)
    · obtain ⟨rfl, rfl⟩ := HandleOp.toUppercase.inj same
      have elsewhere := getElem_ne_of_count inside here single other
      unfold seen
      cases handle : st.ptrs[j]? with
      | none => rfl
      | some q =>
        have apart : q ≠ p := fun same => elsewhere (same ▸ handle)
        show (Function.update st.cells p _ q).map SharedCell.bytes = (st.cells q).map SharedCell.bytes
        rw [Function.update_of_ne apart]

/-- A step of exact handles is proper if and only if it meets the condition. -/
theorem proper_iff (exact : st.Exact) {op : HandleOp} (possible : st.Possible op) : st.Proper op ↔ st.Counted op := by
  cases op with
  | fromSlice data a => exact iff_of_true (fromSlice_proper exact data possible) trivial
  | clone i => exact clone_proper_iff exact possible
  | drop i => exact iff_of_true (drop_proper exact possible) trivial
  | toUppercase i a => exact toUppercase_proper_iff exact possible.1 possible.2

end

/-! ## Runs -/

theorem meets_proper_iff (ops : List HandleOp) : ∀ {st : Handles}, st.Exact → Meets step Possible ops st →
    (Meets step Proper ops st ↔ Meets step Counted ops st) := by
  induction ops with
  | nil => exact fun _ _ => Iff.rfl
  | cons op rest ih =>
    intro st exact possible
    have first := proper_iff exact possible.1
    constructor
    · intro proper
      obtain ⟨st', taken, exact', _⟩ := proper.1
      refine .cons (first.1 proper.1) fun reply st'' taken' => ?_
      obtain ⟨rfl, rfl⟩ := Prod.mk.inj (Except.ok.inj (taken.symm.trans taken'))
      exact (ih exact' (possible.next taken)).1 (proper.next taken)
    · intro counted
      obtain ⟨st', taken, exact', _⟩ := first.2 counted.1
      refine .cons (first.2 counted.1) fun reply st'' taken' => ?_
      obtain ⟨rfl, rfl⟩ := Prod.mk.inj (Except.ok.inj (taken.symm.trans taken'))
      exact (ih exact' (possible.next taken)).2 (counted.next taken)

/-- Every step of a run keeps the counters exact, if and only if no clone finds a counter at its top
and `to_uppercase` is called on handles that share with no other. -/
theorem run_exact_iff (ops : List HandleOp) (possible : Meets step Possible ops empty) :
    Meets step Proper ops empty ↔ Meets step Counted ops empty :=
  meets_proper_iff ops exact_empty possible

/-- Uppercase before cloning, and every handle dropped. -/
def ownFirst : List HandleOp := [.fromSlice [97, 98] 0, .toUppercase 0 1, .clone 0, .drop 0, .fromSlice [99] 1, .drop 0, .drop 0]

theorem run_exact_iff_ownFirst : Meets step Counted ownFirst empty ∧ Meets step Proper ownFirst empty := by
  have counted : Meets step Counted ownFirst empty := by decide +kernel
  exact ⟨counted, (run_exact_iff ownFirst (by decide +kernel)).2 counted⟩

/-- A handle that was cloned turns to a new cell, and the old one keeps counting two with one left. -/
theorem toUppercase_leaks :
    Meets step Possible [.fromSlice [97] 0, .clone 0, .toUppercase 0 1] empty ∧
      ∃ replies st, run step [.fromSlice [97] 0, .clone 0, .toUppercase 0 1] empty = .ok (replies, st) ∧
        st.cells 0 = some ⟨[97], 2⟩ ∧ st.ptrs = [1, 0] ∧ ¬ st.Exact := by
  refine ⟨by decide +kernel, _, _, rfl, by decide +kernel, rfl, fun exact => ?_⟩
  have counts := exact.counts 0 ⟨[97], 2⟩ (by decide +kernel)
  exact absurd counts (by decide)

end Handles

end Radixox.Server
