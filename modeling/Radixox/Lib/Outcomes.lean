import Mathlib.Tactic.Basic

/-!
# Outcomes of fallible calls

A call in `Except` either returns or fails. `Yields bad good` says what holds of the
result in the first case and of the error in the second, with a rule for each way a
call is put together.
-/

namespace Radixox.Outcomes
set_option autoImplicit false

variable {ε α β : Type} {bad : ε → Prop} {good : α → Prop} {mid : β → Prop}

/-- If the call returns, `good` holds of the result; if it fails, `bad` holds of the error. -/
def Yields (bad : ε → Prop) (good : α → Prop) : Except ε α → Prop
  | .ok a => good a
  | .error e => bad e

/-- Only the result matters. -/
abbrev Returns (good : α → Prop) : Except ε α → Prop := Yields (fun _ => True) good

theorem Yields.ok {a : α} (holds : good a) : Yields bad good (.ok a) := holds

theorem Yields.error {e : ε} (holds : bad e) : Yields bad good (.error e) := holds

theorem Yields.of_ok {run : Except ε α} (yields : Yields bad good run) {a : α} (ran : run = .ok a) : good a := by
  subst ran
  exact yields

theorem Yields.of_error {run : Except ε α} (yields : Yields bad good run) {e : ε} (failed : run = .error e) : bad e := by
  subst failed
  exact yields

theorem Yields.imp {run : Except ε α} {good' : α → Prop} (yields : Yields bad good run) (weaker : ∀ a, good a → good' a) :
    Yields bad good' run := by
  cases run with
  | error e => exact yields
  | ok a => exact weaker a yields

theorem Yields.mono {run : Except ε α} {bad' : ε → Prop} (yields : Yields bad good run) (weaker : ∀ e, bad e → bad' e) :
    Yields bad' good run := by
  cases run with
  | error e => exact weaker e yields
  | ok a => exact yields

theorem Yields.bind {run : Except ε β} {rest : β → Except ε α} (first : Yields bad mid run)
    (later : ∀ b, mid b → Yields bad good (rest b)) : Yields bad good (run.bind rest) := by
  cases run with
  | error e => exact first
  | ok b => exact later b first

theorem Yields.map {run : Except ε β} {f : β → α} (first : Yields bad mid run) (later : ∀ b, mid b → good (f b)) :
    Yields bad good (run.map f) := by
  cases run with
  | error e => exact first
  | ok b => exact later b first

/-- A call on each element. -/
theorem Yields.mapM {f : β → Except ε α} (each : ∀ b, Yields bad (fun _ => True) (f b)) (l : List β) :
    Yields bad (fun _ => True) (l.mapM f) := by
  induction l with
  | nil => exact .ok trivial
  | cons b l ih =>
    rw [List.mapM_cons]
    exact (each b).bind fun _ _ => ih.bind fun _ _ => .ok trivial

/-- Another error for the same call. -/
theorem Yields.mapError {ε' : Type} {run : Except ε α} {f : ε → ε'} (yields : Returns good run) : Returns good (run.mapError f) := by
  cases run with
  | error e => trivial
  | ok a => exact yields

/-- A sequence that returns does so step by step. -/
theorem exists_of_bind {run : Except ε β} {rest : β → Except ε α} {a : α} (ran : run >>= rest = .ok a) :
    ∃ b, run = .ok b ∧ rest b = .ok a := by
  cases run with
  | error e => cases ran
  | ok b => exact ⟨b, rfl, ran⟩

theorem exists_of_map {run : Except ε β} {f : β → α} {a : α} (ran : run.map f = .ok a) : ∃ b, run = .ok b ∧ f b = a := by
  cases run with
  | error e => cases ran
  | ok b => exact ⟨b, rfl, Except.ok.inj ran⟩

/-- A step that is taken or left out. -/
theorem exists_of_optional {c : Prop} [Decidable c] {run : Except ε β} {b : β} {rest : β → Except ε α} {a : α}
    (ran : (if c then run >>= rest else rest b) = .ok a) : ∃ b', (if c then run else .ok b) = .ok b' ∧ rest b' = .ok a := by
  split at ran
  next taken =>
    rw [if_pos taken]
    exact exists_of_bind ran
  next left =>
    rw [if_neg left]
    exact ⟨b, rfl, ran⟩

/-- What holds of some result holds of the one that is returned. -/
theorem exists_ok_iff {run : Except ε (α × β)} {a : α} {b : β} (ran : run = .ok (a, b)) {good : α → β → Prop} :
    (∃ a b, run = .ok (a, b) ∧ good a b) ↔ good a b := by
  constructor
  · rintro ⟨a', b', ran', holds⟩
    obtain ⟨rfl, rfl⟩ := Prod.mk.inj (Except.ok.inj (ran.symm.trans ran'))
    exact holds
  · exact fun holds => ⟨a, b, ran, holds⟩

theorem exists_of_isOk (run : Except ε α) (returned : run.isOk = true) : ∃ a, run = .ok a := by
  cases run with
  | error e => cases returned
  | ok a => exact ⟨a, rfl⟩

/-- What is returned, is returned by the call. -/
theorem returns_self (run : Except ε α) : Returns (fun a => run = .ok a) run := by
  cases run with
  | error e => trivial
  | ok a => rfl

/-! ## Two calls -/

section Refines

variable {δ : Type} {run : Except ε α} {run' : Except δ α}

/-- Where the first call returns, the second one returns the same: it fails less often, or with another error. -/
def Refines (run : Except ε α) (run' : Except δ α) : Prop := ∀ a, run = .ok a → run' = .ok a

theorem Refines.ok (a : α) : Refines (.ok a : Except ε α) (.ok a : Except δ α) := fun _ same => congrArg Except.ok (Except.ok.inj same)

theorem Refines.error (e : ε) : Refines (.error e) run' := nofun

theorem Refines.ite {c : Prop} [Decidable c] {other : Except ε α} {other' : Except δ α} (yes : c → Refines run run')
    (no : ¬ c → Refines other other') : Refines (if c then run else other) (if c then run' else other') := by
  by_cases here : c
  · rw [if_pos here, if_pos here]
    exact yes here
  · rw [if_neg here, if_neg here]
    exact no here

/-- The first call asks something more before. -/
theorem Refines.guard {c : Prop} [Decidable c] {e : ε} (passed : ¬ c → Refines run run') :
    Refines (if c then .error e else run) run' := by
  by_cases here : c
  · rw [if_pos here]
    exact .error e
  · rw [if_neg here]
    exact passed here

/-- A step of the first call that returns nothing but what the second one goes on with. -/
theorem Refines.step {first : Except ε β} {rest : β → Except ε α} {b : β} (only : ∀ b', first = .ok b' → b' = b)
    (later : Refines (rest b) run') : Refines (first.bind rest) run' := by
  cases first with
  | error e => exact .error e
  | ok b' => exact only b' rfl ▸ later

theorem Refines.map {run : Except ε β} {run' : Except δ β} (refines : Refines run run') (f : β → α) :
    Refines (run.map f) (run'.map f) := by
  cases run with
  | error e => exact .error e
  | ok b =>
    rw [refines b rfl]
    exact .ok (f b)

theorem Refines.bind {first : Except ε β} {first' : Except δ β} {rest : β → Except ε α} {rest' : β → Except δ α}
    (refines : Refines first first') (later : ∀ b, Refines (rest b) (rest' b)) : Refines (first >>= rest) (first' >>= rest') := by
  cases first with
  | error e => exact .error e
  | ok b =>
    rw [refines b rfl]
    exact later b

theorem Refines.mapM {f : β → Except ε α} {f' : β → Except δ α} (refines : ∀ b, Refines (f b) (f' b)) (l : List β) :
    Refines (l.mapM f) (l.mapM f') := by
  induction l with
  | nil => exact .ok []
  | cons b l ih =>
    rw [List.mapM_cons, List.mapM_cons]
    exact (refines b).bind fun a => ih.bind fun as => .ok (a :: as)

end Refines

end Radixox.Outcomes
