import Mathlib.Logic.Function.Basic
import Mathlib.Tactic.Common

/-!
# Memory in blocks

A block is a run of cells that hold nothing until they are written. A read wants cells that are
inside the block and written, a write wants them inside. `Front` says what the first cells of a
block hold: writes that go on where the last one ended extend it, and reading gives it back.
-/

namespace Radixox.Blocks
set_option autoImplicit false

variable {A α β : Type}

/-- The result of an access, or the fault of one that cannot be. -/
def access {ε : Type} (fault : ε) (result : Option α) : Except ε α := result.elim (.error fault) .ok

/-! ## Runs of cells -/

/-- Items over the old ones from position `i` on; nothing goes past the end. -/
def splice (l : List β) (i : Nat) (items : List β) : Option (List β) :=
  if i + items.length ≤ l.length then some (l.take i ++ items ++ l.drop (i + items.length)) else none

/-- The values of cells that are all written. -/
def values : List (Option α) → Option (List α)
  | [] => some []
  | none :: _ => none
  | some a :: rest => (values rest).map (a :: ·)

/-- `n` values from cell `i` on. -/
def read (c : List (Option α)) (i n : Nat) : Option (List α) :=
  if i + n ≤ c.length then values ((c.drop i).take n) else none

/-- The block begins with these items and has `n` cells. -/
def Front (c : List (Option α)) (items : List α) (n : Nat) : Prop := ∃ rest, c = items.map some ++ rest ∧ c.length = n

theorem splice_front (front : List β) {rest items : List β} (fits : items.length ≤ rest.length) :
    splice (front ++ rest) front.length items = some (front ++ items ++ rest.drop items.length) := by
  have inside : front.length + items.length ≤ (front ++ rest).length := by
    rw [List.length_append]
    omega
  rw [splice, if_pos inside, List.take_left, List.drop_length_add_append]

theorem length_splice {l l' items : List β} {i : Nat} (spliced : splice l i items = some l') : l'.length = l.length := by
  unfold splice at spliced
  split at spliced
  next fits =>
    obtain rfl := Option.some.inj spliced
    simp only [List.length_append, List.length_take, List.length_drop]
    omega
  next => cases spliced

theorem values_map_some (items : List α) : values (items.map some) = some items := by
  induction items with
  | nil => rfl
  | cons a rest ih => rw [List.map_cons, values, ih, Option.map_some]

theorem front_uninit (n : Nat) : Front (List.replicate n (none : Option α)) [] n := ⟨_, rfl, List.length_replicate⟩

namespace Front

variable {c : List (Option α)} {items : List α} {n : Nat}

theorem le (front : Front c items n) : items.length ≤ n := by
  obtain ⟨rest, rfl, rfl⟩ := front
  rw [List.length_append, List.length_map]
  exact Nat.le_add_right _ _

theorem splice (front : Front c items n) {new : List α} (fits : items.length + new.length ≤ n) :
    ∃ c', Blocks.splice c items.length (new.map some) = some c' ∧ Front c' (items ++ new) n := by
  obtain ⟨rest, rfl, rfl⟩ := front
  rw [List.length_append, List.length_map] at fits
  have spliced := splice_front (items.map some) (by rw [List.length_map]; omega : (new.map some).length ≤ rest.length)
  rw [List.length_map] at spliced
  exact ⟨_, spliced, _, by rw [List.map_append], length_splice spliced⟩

/-- Items in the middle of the front. -/
theorem read {before : List α} (front : Front c (before ++ items) n) : Blocks.read c before.length items.length = some items := by
  obtain ⟨rest, rfl, rfl⟩ := front
  rw [List.map_append, List.append_assoc, Blocks.read, if_pos (by simp only [List.length_append, List.length_map]; omega),
    List.drop_left' (List.length_map _), List.take_left' (List.length_map _), values_map_some]

/-- All items of the front. -/
theorem read_all (front : Front c items n) : Blocks.read c 0 items.length = some items := by
  have whole : Front c ([] ++ items) n := front
  exact whole.read

/-- The items but the last ones. -/
theorem dropLast {more : List α} (front : Front c (items ++ more) n) : Front c items n := by
  obtain ⟨rest, rfl, length⟩ := front
  exact ⟨more.map some ++ rest, by rw [List.map_append, List.append_assoc], length⟩

/-- `realloc`: the cells are kept as far as they fit. -/
theorem resize (front : Front c items n) {m : Nat} (fits : items.length ≤ m) :
    Front (c.take m ++ List.replicate (m - c.length) none) items m := by
  obtain ⟨rest, rfl, rfl⟩ := front
  refine ⟨rest.take (m - items.length) ++ List.replicate (m - (items.map some ++ rest).length) none, ?_, ?_⟩
  · rw [List.take_append, List.length_map, List.take_of_length_le (by rw [List.length_map]; exact fits), List.append_assoc]
  · simp only [List.length_append, List.length_take, List.length_map, List.length_replicate]
    omega

end Front

/-! ## Memory -/

/-- The live blocks under their addresses. -/
abbrev Memory (A α : Type) := A → Option (List (Option α))

def load (m : Memory A α) (a : A) (i n : Nat) : Option (List α) := do
  let c ← m a
  read c i n

theorem load_front {m : Memory A α} {a : A} {c : List (Option α)} {before items : List α} {n : Nat} (here : m a = some c)
    (front : Front c (before ++ items) n) : load m a before.length items.length = some items := by
  simp only [load, here, bind, Option.bind]
  exact front.read

theorem load_all {m : Memory A α} {a : A} {c : List (Option α)} {items : List α} {n : Nat} (here : m a = some c)
    (front : Front c items n) : load m a 0 items.length = some items := by
  simp only [load, here, bind, Option.bind]
  exact front.read_all

variable [DecidableEq A]

/-- A block of `n` cells that hold nothing. -/
def allocate (m : Memory A α) (a : A) (n : Nat) : Memory A α := Function.update m a (some (List.replicate n none))

def store (m : Memory A α) (a : A) (i : Nat) (items : List α) : Option (Memory A α) := do
  let c ← m a
  let c ← splice c i (items.map some)
  return Function.update m a (some c)

/-- `realloc` of a block of `n` cells: it goes to another address or stays. -/
def reallocate (m : Memory A α) (a : A) (n : Nat) (a' : A) (size : Nat) : Option (Memory A α) := do
  let c ← m a
  if c.length = n then
    some (Function.update (Function.update m a none) a' (some (c.take size ++ List.replicate (size - c.length) none)))
  else none

/-- `dealloc` of a block of `n` cells. -/
def release (m : Memory A α) (a : A) (n : Nat) : Option (Memory A α) := do
  let c ← m a
  if c.length = n then some (Function.update m a none) else none

section

variable {m : Memory A α} {a : A} {c : List (Option α)} {items : List α} {n : Nat}

/-- A write that goes on where the front ends. -/
theorem store_front (here : m a = some c) (front : Front c items n) {new : List α} (fits : items.length + new.length ≤ n) :
    ∃ c', store m a items.length new = some (Function.update m a (some c')) ∧ Front c' (items ++ new) n := by
  obtain ⟨c', spliced, front'⟩ := front.splice fits
  refine ⟨c', ?_, front'⟩
  simp only [store, here, spliced, bind, Option.bind]
  rfl

theorem release_front (here : m a = some c) (front : Front c items n) : release m a n = some (Function.update m a none) := by
  obtain ⟨_, _, length⟩ := front
  simp only [release, here, bind, Option.bind, if_pos length]

theorem reallocate_front (here : m a = some c) (front : Front c items n) {size : Nat} (fits : items.length ≤ size) (a' : A) :
    ∃ c', reallocate m a n a' size = some (Function.update (Function.update m a none) a' (some c')) ∧ Front c' items size := by
  have resized := front.resize fits
  obtain ⟨_, _, length⟩ := front
  refine ⟨_, ?_, resized⟩
  simp only [reallocate, here, bind, Option.bind, if_pos length]

end

end Radixox.Blocks
