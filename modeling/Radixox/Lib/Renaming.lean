import Mathlib.Logic.Function.Basic

/-!
# Heaps up to the names of their cells

Two heaps that differ only in where their cells lie. `Renames` says that a function on addresses carries one heap
into the other, the addresses inside the cells included. Writing, freeing and allocating the same on both sides keeps them so.
-/

namespace Radixox.Renaming
set_option autoImplicit false

variable {α β : Type}

/-- The addresses that a cell names, and how to replace them. -/
structure Cells (α β : Type) where
  names : β → α → Prop
  rename : (α → α) → β → β
  congr : ∀ {f h : α → α} {b : β}, (∀ a, names b a → f a = h a) → rename f b = rename h b

/-- No cell names an address without a cell. -/
def Closed (C : Cells α β) (w : α → Option β) : Prop := ∀ i b a, w i = some b → C.names b a → w a ≠ none

/-- `g` carries the cells of `w` to cells of `w'`, different ones to different ones. -/
structure Renames (C : Cells α β) (g : α → α) (w w' : α → Option β) : Prop where
  cell : ∀ {i : α} {b : β}, w i = some b → w' (g i) = some (C.rename g b)
  inj : ∀ {i j : α}, w i ≠ none → w j ≠ none → g i = g j → i = j

variable [DecidableEq α] {C : Cells α β} {g : α → α} {w w' : α → Option β} {i j : α} {b c : β}

/-- A cell of the heap does not name an address without a cell. -/
theorem Closed.rename_update (closed : Closed C w) {k : α} (found : w k = some b) (unused : w i = none) (g : α → α) (j : α) :
    C.rename (Function.update g i j) b = C.rename g b := by
  refine C.congr fun a named => Function.update_of_ne ?_ _ _
  rintro rfl
  exact closed _ _ _ found named unused

/-- The cell at `i`, if there is one, gets another content. -/
def modify (w : α → Option β) (i : α) (f : β → β) : α → Option β := Function.update w i ((w i).map f)

theorem modify_eq (found : w i = some b) (f : β → β) : modify w i f = Function.update w i (some (f b)) := by
  rw [modify, found, Option.map_some]

theorem update_ne_none {k : α} (held : w k ≠ none) : Function.update w i (some c) k ≠ none := by
  by_cases same : k = i
  · rw [same, Function.update_self]
    exact Option.some_ne_none c
  · rwa [Function.update_of_ne same]

theorem modify_ne_none {k : α} (held : w k ≠ none) (f : β → β) : modify w i f k ≠ none := by
  by_cases same : k = i
  · subst same
    rw [modify, Function.update_self]
    exact fun none' => held (Option.map_eq_none_iff.1 none')
  · rwa [modify, Function.update_of_ne same]

/-- A cell that names only cells may be written or added. -/
theorem Closed.write (closed : Closed C w) (i : α) (named : ∀ a, C.names c a → a = i ∨ w a ≠ none) :
    Closed C (Function.update w i (some c)) := by
  have kept : ∀ a, a = i ∨ w a ≠ none → Function.update w i (some c) a ≠ none := by
    rintro a (rfl | held)
    · rw [Function.update_self]
      exact Option.some_ne_none c
    · exact update_ne_none held
  intro j b a found mentions
  by_cases same : j = i
  · rw [same, Function.update_self] at found
    exact kept a (named a (Option.some.inj found ▸ mentions))
  · rw [Function.update_of_ne same] at found
    exact kept a (.inr (closed _ _ _ found mentions))

/-- A new cell does not change where the others lie. -/
theorem update_of_used {k : α} (used : w k ≠ none) (unused : w i = none) : Function.update g i j k = g k := by
  refine Function.update_of_ne ?_ _ _
  rintro rfl
  exact used unused

theorem ne_none_of_update_some {k : α} (used : w i ≠ none) (held : Function.update w i (some c) k ≠ none) : w k ≠ none := by
  by_cases same : k = i
  · exact same ▸ used
  · rwa [Function.update_of_ne same] at held

namespace Renames

theorem write (R : Renames C g w w') (used : w i ≠ none) (c : β) :
    Renames C g (Function.update w i (some c)) (Function.update w' (g i) (some (C.rename g c))) := by
  constructor
  · intro j b found
    by_cases same : j = i
    · subst same
      rw [Function.update_self] at found ⊢
      obtain rfl := Option.some.inj found
      rfl
    · rw [Function.update_of_ne same] at found
      have other : g j ≠ g i := fun clash => same (R.inj (by rw [found]; exact Option.some_ne_none b) used clash)
      rw [Function.update_of_ne other]
      exact R.cell found
  · exact fun first second => R.inj (ne_none_of_update_some used first) (ne_none_of_update_some used second)

/-- Both sides change a cell in the same way. -/
theorem modify (R : Renames C g w w') (used : w i ≠ none) {f f' : β → β} (same : ∀ b, w i = some b → C.rename g (f b) = f' (C.rename g b)) :
    Renames C g (modify w i f) (Renaming.modify w' (g i) f') := by
  obtain ⟨b, found⟩ := Option.ne_none_iff_exists'.1 used
  rw [modify_eq found, modify_eq (R.cell found), ← same b found]
  exact R.write used (f b)

theorem free (R : Renames C g w w') (used : w i ≠ none) :
    Renames C g (Function.update w i none) (Function.update w' (g i) none) := by
  have kept : ∀ {j}, Function.update w i none j ≠ none → j ≠ i ∧ w j ≠ none := by
    intro j held
    have other : j ≠ i := by
      rintro rfl
      exact held (Function.update_self _ _ _)
    exact ⟨other, by rwa [Function.update_of_ne other] at held⟩
  constructor
  · intro j b found
    obtain ⟨other, held⟩ := kept (by rw [found]; exact Option.some_ne_none b)
    rw [Function.update_of_ne other] at found
    rw [Function.update_of_ne fun clash => other (R.inj held used clash)]
    exact R.cell found
  · exact fun first second => R.inj (kept first).2 (kept second).2

/-- A new cell may lie anywhere. -/
theorem alloc (R : Renames C g w w') (closed : Closed C w) (unused : w i = none) (unused' : w' j = none) (c : β) :
    Renames C (Function.update g i j) (Function.update w i (some c))
      (Function.update w' j (some (C.rename (Function.update g i j) c))) := by
  have old : ∀ {k}, w k ≠ none → k ≠ i ∧ g k ≠ j := by
    intro k held
    obtain ⟨b, found⟩ := Option.ne_none_iff_exists'.1 held
    constructor
    · rintro rfl
      exact held unused
    · intro clash
      have taken := R.cell found
      rw [clash, unused'] at taken
      cases taken
  constructor
  · intro k b found
    by_cases same : k = i
    · subst same
      rw [Function.update_self] at found ⊢
      obtain rfl := Option.some.inj found
      exact Function.update_self _ _ _
    · rw [Function.update_of_ne same] at found ⊢
      rw [Function.update_of_ne (old (by rw [found]; exact Option.some_ne_none b)).2, R.cell found,
        closed.rename_update found unused]
  · intro k l first second same
    by_cases here : k = i <;> by_cases there : l = i
    · exact here.trans there.symm
    · rw [Function.update_of_ne there] at second
      rw [here, Function.update_self, Function.update_of_ne there] at same
      exact absurd same.symm (old second).2
    · rw [Function.update_of_ne here] at first
      rw [there, Function.update_self, Function.update_of_ne here] at same
      exact absurd same (old first).2
    · rw [Function.update_of_ne here] at first
      rw [Function.update_of_ne there] at second
      rw [Function.update_of_ne here, Function.update_of_ne there] at same
      exact R.inj first second same

end Renames

end Radixox.Renaming
