import Mathlib.Data.List.Perm.Basic
import Mathlib.Data.List.Nodup

/-!
# Association lists with unordered removal

A small array of `(key, value)` pairs in which a key occurs once. New pairs are
appended; a pair is removed by moving the last one into its place
(`swapRemove`), so removal keeps the pairs but not their order. Everything a
client needs is stated up to permutation or through membership.
-/

namespace Radixox.Assoc
set_option autoImplicit false

section SwapRemove

variable {α : Type}

/-- Drop position `i`, filling the hole with the last element. -/
def swapRemove (l : List α) (i : Nat) : List α :=
  match l.getLast? with
  | none => []
  | some last => (l.set i last).dropLast

theorem swapRemove_concat (init : List α) (last : α) (i : Nat) :
    swapRemove (init ++ [last]) i = if i < init.length then init.set i last else init := by
  simp only [swapRemove, List.getLast?_concat, List.set_append]
  split
  · rw [List.dropLast_concat]
  · cases h : i - init.length <;> simp

theorem swapRemove_perm {l : List α} {i : Nat} {x : α} (found : l[i]? = some x) : l.Perm (x :: swapRemove l i) := by
  rcases List.eq_nil_or_concat l with rfl | ⟨init, last, rfl⟩
  · simp at found
  rw [List.concat_eq_append, swapRemove_concat]
  rw [List.concat_eq_append, List.getElem?_append] at found
  split
  next inside =>
    -- The removed element and the last one trade places.
    rw [if_pos inside, List.getElem?_eq_some_iff] at found
    obtain ⟨_, rfl⟩ := found
    rw [List.set_eq_take_append_cons_drop, if_pos inside]
    conv_lhs => rw [← List.take_append_drop i init, List.drop_eq_getElem_cons inside]
    have moved : (List.drop (i + 1) init ++ [last]).Perm (last :: List.drop (i + 1) init) :=
      List.perm_append_singleton _ _
    rw [List.append_assoc, List.cons_append]
    exact List.perm_middle.trans ((List.Perm.append_left _ moved).cons _)
  next outside =>
    rw [if_neg outside] at found
    obtain rfl : last = x := by
      cases h : i - init.length with
      | zero => simpa [h] using found
      | succ n => simp [h] at found
    exact List.perm_append_singleton _ _

theorem swapRemove_map {β : Type} (f : α → β) (l : List α) (i : Nat) : swapRemove (l.map f) i = (swapRemove l i).map f := by
  simp only [swapRemove, List.getLast?_map]
  cases l.getLast? with
  | none => rfl
  | some last => simp [List.map_dropLast, List.map_set]

end SwapRemove

variable {κ β : Type}

section Lookup

variable [BEq κ] [LawfulBEq κ]

theorem lookup_eq_some_iff_mem {l : List (κ × β)} (nodup : (l.map Prod.fst).Nodup) {k : κ} {v : β} :
    l.lookup k = some v ↔ (k, v) ∈ l := by
  induction l with
  | nil => simp
  | cons p rest ih =>
    obtain ⟨a, b⟩ := p
    simp only [List.map_cons, List.nodup_cons] at nodup
    rw [List.lookup_cons, List.mem_cons, Prod.mk.injEq]
    by_cases same : k = a
    · subst same
      simp only [beq_self_eq_true, Option.some.injEq, true_and]
      constructor
      · exact fun h => .inl h.symm
      · rintro (rfl | member)
        · rfl
        · exact absurd (List.mem_map_of_mem (f := Prod.fst) member) nodup.1
    · simp only [beq_eq_false_iff_ne.2 same, same, false_and, false_or]
      exact ih nodup.2

theorem lookup_eq_none_iff_notMem {l : List (κ × β)} {k : κ} : l.lookup k = none ↔ k ∉ l.map Prod.fst := by
  induction l with
  | nil => simp
  | cons p rest ih =>
    obtain ⟨a, b⟩ := p
    rw [List.lookup_cons, List.map_cons, List.mem_cons]
    by_cases same : k = a
    · simp [same]
    · simpa only [beq_eq_false_iff_ne.2 same, same, false_or] using ih

/-- Lookup does not depend on the order of the pairs. -/
theorem lookup_perm {l l' : List (κ × β)} (perm : l.Perm l') (nodup : (l.map Prod.fst).Nodup) (k : κ) :
    l.lookup k = l'.lookup k := by
  have nodup' := (perm.map Prod.fst).nodup_iff.1 nodup
  apply Option.ext
  intro v
  rw [lookup_eq_some_iff_mem nodup, lookup_eq_some_iff_mem nodup', perm.mem_iff]

end Lookup

variable [DecidableEq κ]

/-- Remove the pair of `k`, if any, and return its value. -/
def removeKey (l : List (κ × β)) (k : κ) : Option (β × List (κ × β)) := do
  let i ← l.findIdx? (fun p => p.1 = k)
  let p ← l[i]?
  return (p.2, swapRemove l i)

theorem removeKey_eq_none {l : List (κ × β)} {k : κ} : removeKey l k = none ↔ k ∉ l.map Prod.fst := by
  constructor
  · intro none' member
    obtain ⟨p, inside, rfl⟩ := List.mem_map.1 member
    simp only [removeKey, Option.bind_eq_bind] at none'
    cases found : l.findIdx? (fun q => q.1 = p.1) with
    | none =>
      rw [List.findIdx?_eq_none_iff] at found
      simpa using found p inside
    | some i =>
      obtain ⟨bound, -⟩ := List.findIdx?_eq_some_iff_getElem.1 found
      simp [found, List.getElem?_eq_getElem bound] at none'
  · intro absent
    have found : l.findIdx? (fun q => q.1 = k) = none := by
      rw [List.findIdx?_eq_none_iff]
      intro p inside
      simp only [decide_eq_false_iff_not]
      rintro rfl
      exact absent (List.mem_map_of_mem (f := Prod.fst) inside)
    simp [removeKey, found]

theorem removeKey_perm {l l' : List (κ × β)} {k : κ} {v : β} (removed : removeKey l k = some (v, l')) :
    l.Perm ((k, v) :: l') := by
  simp only [removeKey, Option.bind_eq_bind, Option.bind_eq_some_iff, Option.pure_def, Option.some.injEq,
    Prod.mk.injEq] at removed
  obtain ⟨i, found, p, inside, rfl, rfl⟩ := removed
  obtain ⟨bound, key, -⟩ := List.findIdx?_eq_some_iff_getElem.1 found
  have same : p = (k, p.2) := by
    obtain ⟨_, rfl⟩ := List.getElem?_eq_some_iff.1 inside
    exact Prod.ext (of_decide_eq_true key) rfl
  rw [same] at inside
  exact swapRemove_perm inside

theorem keys_set_findIdx {l : List (κ × β)} {i : Nat} {k : κ} (found : l.findIdx? (fun p => p.1 = k) = some i) (v : β) :
    (l.set i (k, v)).map Prod.fst = l.map Prod.fst := by
  obtain ⟨bound, key, -⟩ := List.findIdx?_eq_some_iff_getElem.1 found
  have same : l[i].1 = k := of_decide_eq_true key
  rw [List.map_set]
  apply List.ext_getElem (by simp)
  intro j bound' _
  rw [List.getElem_set]
  split
  next here => subst here; simp [same]
  next => rfl

variable [BEq κ] [LawfulBEq κ]

/-- Replacing the pair of `k` in its place. -/
theorem lookup_set_findIdx {l : List (κ × β)} {i : Nat} {k : κ} (found : l.findIdx? (fun p => p.1 = k) = some i) (v : β) :
    (fun q => (l.set i (k, v)).lookup q) = Function.update (fun q => l.lookup q) k (some v) := by
  funext q
  rw [Function.update_apply]
  induction l generalizing i with
  | nil => simp at found
  | cons p rest ih =>
    obtain ⟨a, b⟩ := p
    rw [List.findIdx?_cons] at found
    by_cases here : a = k
    · simp only [here, decide_true, if_true, Option.some.injEq] at found
      subst here
      rw [← found, List.set_cons_zero, List.lookup_cons, List.lookup_cons]
      by_cases same : q = a
      · simp [same]
      · simp [same, beq_eq_false_iff_ne.2 same]
    · simp only [here, decide_false, Bool.false_eq_true, if_false, Option.map_eq_some_iff] at found
      obtain ⟨j, found, rfl⟩ := found
      rw [List.set_cons_succ, List.lookup_cons, List.lookup_cons, ih found]
      by_cases same : q = a
      · simp [same, here]
      · simp [beq_eq_false_iff_ne.2 same]

theorem lookup_removeKey {l l' : List (κ × β)} {k : κ} {v : β} (nodup : (l.map Prod.fst).Nodup)
    (removed : removeKey l k = some (v, l')) :
    (l'.map Prod.fst).Nodup ∧ l.lookup k = some v ∧ (fun q => l'.lookup q) = Function.update (fun q => l.lookup q) k none := by
  have perm := removeKey_perm removed
  have nodup' := (perm.map Prod.fst).nodup_iff.1 nodup
  rw [List.map_cons, List.nodup_cons] at nodup'
  refine ⟨nodup'.2, ?_, ?_⟩
  · rw [lookup_perm perm nodup, List.lookup_cons_self]
  · funext q
    rw [Function.update_apply, lookup_perm perm nodup, List.lookup_cons]
    by_cases same : q = k
    · subst same
      simpa using lookup_eq_none_iff_notMem.2 nodup'.1
    · simp [same, beq_eq_false_iff_ne.2 same]

/-! ## Replacing the values -/

section Values

variable {γ : Type}

def mapValues (f : β → γ) (l : List (κ × β)) : List (κ × γ) := l.map fun p => (p.1, f p.2)

omit [DecidableEq κ] [LawfulBEq κ] in
theorem lookup_mapValues (f : β → γ) (l : List (κ × β)) (k : κ) : (mapValues f l).lookup k = (l.lookup k).map f := by
  induction l with
  | nil => rfl
  | cons p rest ih =>
    rw [mapValues, List.map_cons, List.lookup_cons, List.lookup_cons]
    cases k == p.1 with
    | true => rfl
    | false => exact ih

omit [BEq κ] [LawfulBEq κ] in
theorem removeKey_mapValues (f : β → γ) (l : List (κ × β)) (k : κ) :
    removeKey (mapValues f l) k = (removeKey l k).map fun q => (f q.1, mapValues f q.2) := by
  have place : (mapValues f l).findIdx? (fun p => p.1 = k) = l.findIdx? fun p => p.1 = k := by
    rw [mapValues, List.findIdx?_map]
    rfl
  simp only [removeKey, place]
  cases l.findIdx? fun p => p.1 = k with
  | none => rfl
  | some i =>
    simp only [Option.bind_eq_bind, Option.bind_some, mapValues, List.getElem?_map, swapRemove_map]
    cases l[i]? <;> rfl

end Values

end Radixox.Assoc
