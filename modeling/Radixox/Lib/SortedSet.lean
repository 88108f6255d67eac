import Mathlib.Order.Lattice
import Mathlib.Data.List.Perm.Basic
import Mathlib.Data.List.Pairwise
import Mathlib.Data.List.Nodup
import Mathlib.Data.List.TakeWhile

/-!
# Finite sets as sorted lists

An ordered set in the sense of a balanced search tree, without the tree: the elements in
strictly increasing order. Iteration is the list itself.
-/

namespace Radixox
set_option autoImplicit false

section SortedList

variable {α : Type} [LinearOrder α]

/-- How many leading elements satisfy `p`; on a partitioned list, the partition point of `p`. -/
def partitionPoint (l : List α) (p : α → Bool) : Nat := (l.takeWhile p).length

/-- Insert at the partition point of "less than `a`". -/
def insertSorted (l : List α) (a : α) : List α := l.insertIdx (partitionPoint l (· < a)) a

theorem insertSorted_eq (l : List α) (a : α) :
    insertSorted l a = l.takeWhile (· < a) ++ a :: l.dropWhile (· < a) := by
  unfold insertSorted partitionPoint
  induction l with
  | nil => rfl
  | cons x l ih =>
    by_cases less : x < a
    · simp [less, ih]
    · simp [less]

theorem insertSorted_perm (l : List α) (a : α) : (insertSorted l a).Perm (a :: l) := by
  rw [insertSorted_eq]
  refine List.perm_middle.trans ?_
  rw [List.takeWhile_append_dropWhile]

theorem insertSorted_sorted {l : List α} {a : α} (sorted : l.Pairwise (· < ·)) (absent : a ∉ l) :
    (insertSorted l a).Pairwise (· < ·) := by
  rw [insertSorted_eq]
  induction l with
  | nil => simp
  | cons x l ih =>
    rw [List.pairwise_cons] at sorted
    rw [List.mem_cons, not_or] at absent
    by_cases less : x < a
    · simp only [List.takeWhile_cons, List.dropWhile_cons, less, decide_true, if_true, List.cons_append]
      rw [List.pairwise_cons]
      refine ⟨?_, ih sorted.2 absent.2⟩
      intro y member
      rw [← insertSorted_eq, (insertSorted_perm l a).mem_iff] at member
      rcases List.mem_cons.1 member with rfl | old
      · exact less
      · exact sorted.1 y old
    · simp only [List.takeWhile_cons, List.dropWhile_cons, less, decide_false, Bool.false_eq_true, if_false,
        List.nil_append]
      have first : a < x := lt_of_le_of_ne (not_lt.1 less) absent.1
      rw [List.pairwise_cons]
      refine ⟨?_, List.pairwise_cons.2 sorted⟩
      intro y member
      rcases List.mem_cons.1 member with rfl | old
      · exact first
      · exact first.trans (sorted.1 y old)

theorem nodup_of_sorted {l : List α} (sorted : l.Pairwise (· < ·)) : l.Nodup :=
  sorted.imp fun less => ne_of_lt less

/-- A strictly sorted list is determined by its elements. -/
theorem sorted_ext {l l' : List α} (sorted : l.Pairwise (· < ·)) (sorted' : l'.Pairwise (· < ·))
    (same : ∀ a, a ∈ l ↔ a ∈ l') : l = l' := by
  have perm : l.Perm l' := (List.perm_ext_iff_of_nodup (nodup_of_sorted sorted) (nodup_of_sorted sorted')).2 same
  exact perm.eq_of_pairwise (fun a b _ _ less less' => absurd less (lt_asymm less')) sorted sorted'

end SortedList

structure SortedSet (α : Type) [LinearOrder α] where
  items : List α
  sorted : items.Pairwise (· < ·)

namespace SortedSet

variable {α : Type} [LinearOrder α]

def empty : SortedSet α := ⟨[], List.Pairwise.nil⟩

def contains (s : SortedSet α) (a : α) : Bool := decide (a ∈ s.items)

def len (s : SortedSet α) : Nat := s.items.length

def isEmpty (s : SortedSet α) : Bool := s.items.isEmpty

/-- Whether the element is new, and the set with it. -/
def insert (s : SortedSet α) (a : α) : Bool × SortedSet α :=
  if h : a ∈ s.items then (false, s) else (true, ⟨insertSorted s.items a, insertSorted_sorted s.sorted h⟩)

/-- Whether the element was there, and the set without it. -/
def remove (s : SortedSet α) (a : α) : Bool × SortedSet α :=
  (s.contains a, ⟨s.items.erase a, s.sorted.sublist List.erase_sublist⟩)

/-- The largest element, and the set without it. -/
def popLast (s : SortedSet α) : Option α × SortedSet α :=
  (s.items.getLast?, ⟨s.items.dropLast, s.sorted.sublist s.items.dropLast_sublist⟩)

/-- Up to `n` largest elements, the largest first. -/
def popMany : Nat → SortedSet α → List α × SortedSet α
  | 0, s => ([], s)
  | n + 1, s => match s.popLast with
    | (none, s) => ([], s)
    | (some a, s) =>
      let (popped, s) := popMany n s
      (a :: popped, s)

@[simp] theorem mem_insert (s : SortedSet α) (a b : α) : b ∈ (s.insert a).2.items ↔ b = a ∨ b ∈ s.items := by
  unfold insert
  split
  next inside =>
    constructor
    · exact .inr
    · rintro (rfl | old)
      · exact inside
      · exact old
  next => simp only [(insertSorted_perm s.items a).mem_iff, List.mem_cons]

@[simp] theorem insert_fst (s : SortedSet α) (a : α) : (s.insert a).1 = !s.contains a := by
  unfold insert contains
  split <;> simp [*]

@[simp] theorem mem_remove (s : SortedSet α) (a b : α) : b ∈ (s.remove a).2.items ↔ b ≠ a ∧ b ∈ s.items :=
  (nodup_of_sorted s.sorted).mem_erase_iff

@[simp] theorem len_popLast (s : SortedSet α) : s.popLast.2.len = s.len - 1 := List.length_dropLast

@[simp] theorem len_popMany (n : Nat) : ∀ s : SortedSet α, (s.popMany n).2.len = s.len - n := by
  induction n with
  | zero => exact fun _ => rfl
  | succ n ih =>
    intro s
    have fewer := len_popLast s
    unfold popMany
    split
    next s' none' =>
      rw [none'] at fewer
      have empty : s.len = 0 := List.length_eq_zero_iff.2 (List.getLast?_eq_none_iff.1 (congrArg Prod.fst none'))
      rw [empty] at fewer ⊢
      rw [fewer, Nat.zero_sub, Nat.zero_sub]
    next a s' some' =>
      rw [some'] at fewer
      rw [ih, fewer, Nat.sub_sub, Nat.add_comm]

end SortedSet

end Radixox
