import Mathlib.Algebra.Group.Nat.Defs
import Mathlib.Tactic.Common

/-!
# The small vector

`small_vec.rs`: a vector that keeps its first `S` elements inline and moves to the heap with the next one. Size and length
are `u32`, and the heap form doubles its size without a check.
-/

namespace Radixox.Server
set_option autoImplicit false

/-- `items` are the first `len` elements of the storage, wherever it is. -/
structure SmallVec (S : Nat) (α : Type) where
  size : Nat
  items : List α

/-- A new size that does not fit a `u32`: a debug build panics, a release build goes on with the wrapped size. -/
inductive SizeOverflow where
  | promote
  | growth
deriving DecidableEq

namespace SmallVec

variable {S : Nat} {α : Type}

def new : SmallVec S α := ⟨S, []⟩

def len (v : SmallVec S α) : Nat := v.items.length

def isInline (v : SmallVec S α) : Bool := v.size ≤ S

/-- Moves the elements to the heap. -/
def promote (v : SmallVec S α) : Except SizeOverflow (SmallVec S α) :=
  if v.size * 2 < 2 ^ 32 then .ok { v with size := max 4 (v.size * 2) } else .error .promote

/-- Doubles the heap form. -/
def growth (v : SmallVec S α) : Except SizeOverflow (SmallVec S α) :=
  if v.size * 2 < 2 ^ 32 then .ok { v with size := v.size * 2 } else .error .growth

/-- The heap part of `push`. -/
def pushHeap (v : SmallVec S α) (item : α) : Except SizeOverflow (SmallVec S α) := do
  let v ← if v.len = v.size then v.growth else pure v
  return { v with items := v.items ++ [item] }

def push (v : SmallVec S α) (item : α) : Except SizeOverflow (SmallVec S α) :=
  if v.isInline then
    if v.len < v.size then .ok { v with items := v.items ++ [item] }
    else do (← v.promote).pushHeap item
  else v.pushHeap item

/-- One push for each item. -/
def pushAll : SmallVec S α → List α → Except SizeOverflow (SmallVec S α)
  | v, [] => .ok v
  | v, item :: rest => do pushAll (← v.push item) rest

/-! ## What a push does -/

theorem items_of_pushHeap {v w : SmallVec S α} {item : α} (pushed : v.pushHeap item = .ok w) : w.items = v.items ++ [item] := by
  unfold pushHeap growth at pushed
  split at pushed
  · split at pushed
    · exact (Except.ok.inj pushed) ▸ rfl
    · cases pushed
  · exact (Except.ok.inj pushed) ▸ rfl

theorem items_of_push {v w : SmallVec S α} {item : α} (pushed : v.push item = .ok w) : w.items = v.items ++ [item] := by
  unfold push promote at pushed
  split at pushed
  · split at pushed
    · exact (Except.ok.inj pushed) ▸ rfl
    · split at pushed
      · exact items_of_pushHeap (v := { v with size := max 4 (v.size * 2) }) pushed
      · cases pushed
  · exact items_of_pushHeap pushed

/-- The elements fit the storage, whose size is the inline one, doubled some times. -/
structure Sized (v : SmallVec S α) : Prop where
  fits : v.len ≤ v.size
  doubled : ∃ k, v.size = S * 2 ^ k
  word : v.size < 2 ^ 32

theorem sized_new (word : S < 2 ^ 32) : Sized (new : SmallVec S α) := ⟨Nat.zero_le _, ⟨0, (Nat.mul_one S).symm⟩, word⟩

theorem sized_append {size : Nat} {items : List α} (room : items.length < size) (doubled : ∃ k, size = S * 2 ^ k)
    (word : size < 2 ^ 32) (item : α) : Sized (⟨size, items ++ [item]⟩ : SmallVec S α) := by
  refine ⟨?_, doubled, word⟩
  show (items ++ [item]).length ≤ size
  rw [List.length_append, List.length_singleton]
  exact room

namespace Sized

variable {v : SmallVec S α}

theorem twice (sized : Sized v) : ∃ k, v.size * 2 = S * 2 ^ k := by
  obtain ⟨k, size⟩ := sized.doubled
  exact ⟨k + 1, by rw [size, Nat.pow_succ, Nat.mul_assoc]⟩

theorem least (sized : Sized v) : S ≤ v.size := by
  obtain ⟨k, size⟩ := sized.doubled
  rw [size]
  exact Nat.le_mul_of_pos_right S (Nat.two_pow_pos k)

/-- A push succeeds while the doubled length fits, and appends. -/
theorem push_ok (sized : Sized v) (wide : 2 ≤ S) (room : v.len < 2 ^ 31) (item : α) :
    ∃ w, v.push item = .ok w ∧ w.items = v.items ++ [item] ∧ Sized w := by
  have least := sized.least
  by_cases free : v.len < v.size
  · refine ⟨⟨v.size, v.items ++ [item]⟩, ?_, rfl, sized_append free sized.doubled sized.word item⟩
    have busy : v.len ≠ v.size := Nat.ne_of_lt free
    unfold push pushHeap
    rw [if_pos free, if_neg busy]
    split <;> rfl
  · have full : v.len = v.size := Nat.le_antisymm sized.fits (Nat.not_lt.1 free)
    have small : v.size * 2 < 2 ^ 32 := by omega
    have more : v.len < v.size * 2 := by omega
    refine ⟨⟨v.size * 2, v.items ++ [item]⟩, ?_, rfl, sized_append more sized.twice small item⟩
    unfold push
    rw [if_neg free]
    split
    · have four : max 4 (v.size * 2) = v.size * 2 := by omega
      have busy : (⟨v.size * 2, v.items⟩ : SmallVec S α).len ≠ v.size * 2 := Nat.ne_of_lt more
      simp only [promote, if_pos small, four, bind, Except.bind, pushHeap, if_neg busy]
      rfl
    · simp only [pushHeap, growth, if_pos full, if_pos small, bind, Except.bind]
      rfl

/-- From an inline size that is a power of two, the heap form cannot grow past `2 ^ 31` elements. -/
theorem push_full {s : Nat} {v : SmallVec (2 ^ s) α} (sized : Sized v) (inline : s < 31) (full : v.len = 2 ^ 31) (item : α) :
    ∃ e, v.push item = .error e := by
  obtain ⟨k, size⟩ := sized.doubled
  have fits := sized.fits
  have word := sized.word
  rw [← Nat.pow_add] at size
  rw [full, size] at fits
  rw [size] at word
  have low := (Nat.pow_le_pow_iff_right (by decide)).1 fits
  have high := (Nat.pow_lt_pow_iff_right (by decide)).1 word
  have top : v.size = 2 ^ 31 := by rw [size, show s + k = 31 by omega]
  have heap : v.isInline = false := by
    have below : 2 ^ s < 2 ^ 31 := Nat.pow_lt_pow_right (by decide) inline
    simp only [isInline, top, decide_eq_false_iff_not]
    omega
  refine ⟨.growth, ?_⟩
  simp only [push, heap, Bool.false_eq_true, if_false, pushHeap, full, top, growth, bind, Except.bind]
  rfl

theorem len_le {s : Nat} {v : SmallVec (2 ^ s) α} (sized : Sized v) : v.len ≤ 2 ^ 31 := by
  obtain ⟨k, size⟩ := sized.doubled
  have word := sized.word
  have fits := sized.fits
  rw [← Nat.pow_add] at size
  rw [size] at word fits
  have high := (Nat.pow_lt_pow_iff_right (by decide)).1 word
  exact Nat.le_trans fits (Nat.pow_le_pow_right (by decide) (by omega))

/-- What a push that succeeds has done. -/
theorem of_push {s : Nat} {v w : SmallVec (2 ^ s) α} (sized : Sized v) (wide : 1 ≤ s) (inline : s < 31) {item : α}
    (pushed : v.push item = .ok w) : v.len < 2 ^ 31 ∧ w.items = v.items ++ [item] ∧ Sized w := by
  have room : v.len < 2 ^ 31 := by
    refine Nat.lt_of_le_of_ne sized.len_le fun full => ?_
    obtain ⟨e, failed⟩ := sized.push_full inline full item
    rw [pushed] at failed
    cases failed
  obtain ⟨u, pushed', appended, sizedU⟩ := sized.push_ok (Nat.le_self_pow (by omega) 2) room item
  obtain rfl := Except.ok.inj (pushed.symm.trans pushed')
  exact ⟨room, appended, sizedU⟩

theorem pushAll_ok (wide : 2 ≤ S) (items : List α) : ∀ {v : SmallVec S α}, Sized v → v.len + items.length ≤ 2 ^ 31 →
    ∃ w, v.pushAll items = .ok w ∧ w.items = v.items ++ items ∧ Sized w := by
  induction items with
  | nil => exact fun {v} sized _ => ⟨v, rfl, (List.append_nil _).symm, sized⟩
  | cons item rest ih =>
    intro v sized room
    rw [List.length_cons] at room
    obtain ⟨w, pushed, appended, sizedW⟩ := sized.push_ok wide (by omega) item
    have len : w.len = v.len + 1 := by rw [len, appended, List.length_append]; rfl
    obtain ⟨u, later, all, sizedU⟩ := ih sizedW (by omega)
    refine ⟨u, ?_, by rw [all, appended, List.append_assoc]; rfl, sizedU⟩
    simp only [pushAll, pushed, bind, Except.bind, later]

theorem pushAll_full {s : Nat} (wide : 1 ≤ s) (inline : s < 31) (items : List α) : ∀ {v : SmallVec (2 ^ s) α}, Sized v →
    v.len ≤ 2 ^ 31 → 2 ^ 31 < v.len + items.length → ∃ e, v.pushAll items = .error e := by
  have two : 2 ≤ 2 ^ s := Nat.le_self_pow (by omega) 2
  induction items with
  | nil =>
    intro v sized below above
    rw [List.length_nil] at above
    omega
  | cons item rest ih =>
    intro v sized below above
    rw [List.length_cons] at above
    by_cases full : v.len = 2 ^ 31
    · obtain ⟨e, failed⟩ := sized.push_full inline full item
      exact ⟨e, by simp only [pushAll, failed, bind, Except.bind]⟩
    · obtain ⟨w, pushed, appended, sizedW⟩ := sized.push_ok two (by omega) item
      have len : w.len = v.len + 1 := by rw [len, appended, List.length_append]; rfl
      obtain ⟨e, failed⟩ := ih sizedW (by omega) (by omega)
      exact ⟨e, by simp only [pushAll, pushed, bind, Except.bind, failed]⟩

end Sized

end SmallVec

end Radixox.Server
