import Mathlib.Data.List.Forall2
import Radixox.Lib.Runs

/-!
# Machines in lockstep

Two calls agree when both return, with related results, or both fail with the same error. Two machines whose steps agree give the
same replies in every run, and fail at the same step of it or not at all.
-/

namespace Radixox.Lockstep
set_option autoImplicit false
open Radixox.Runs

variable {ε α β γ δ : Type} {R : α → β → Prop} {Q : γ → δ → Prop}

/-- Both calls return related results, or both fail with the same error. -/
inductive Agree (R : α → β → Prop) : Except ε α → Except ε β → Prop
  | ok {a : α} {b : β} (related : R a b) : Agree R (.ok a) (.ok b)
  | error (e : ε) : Agree R (.error e) (.error e)

namespace Agree

variable {run : Except ε α} {run' : Except ε β}

theorem refl {R : α → α → Prop} (refl : ∀ a, R a a) : (run : Except ε α) → Agree R run run
  | .ok a => .ok (refl a)
  | .error e => .error e

theorem mono {R' : α → β → Prop} (agree : Agree R run run') (weaker : ∀ a b, R a b → R' a b) : Agree R' run run' := by
  cases agree with
  | ok related => exact .ok (weaker _ _ related)
  | error e => exact .error e

theorem bind {rest : α → Except ε γ} {rest' : β → Except ε δ} (first : Agree R run run')
    (later : ∀ a b, R a b → Agree Q (rest a) (rest' b)) : Agree Q (run >>= rest) (run' >>= rest') := by
  cases first with
  | ok related => exact later _ _ related
  | error e => exact .error e

/-- Both sides make the same call first. -/
theorem bind_same {rest : α → Except ε γ} {rest' : α → Except ε δ} (later : ∀ a, Agree Q (rest a) (rest' a)) :
    Agree Q (run >>= rest) (run >>= rest') := by
  cases run with
  | ok a => exact later a
  | error e => exact .error e

theorem map {f : α → γ} {f' : β → δ} (agree : Agree R run run') (later : ∀ a b, R a b → Q (f a) (f' b)) :
    Agree Q (run.map f) (run'.map f') := by
  cases agree with
  | ok related => exact .ok (later _ _ related)
  | error e => exact .error e

theorem ite {c : Prop} [Decidable c] {other : Except ε α} {other' : Except ε β} (yes : c → Agree R run run')
    (no : ¬ c → Agree R other other') : Agree R (if c then run else other) (if c then run' else other') := by
  by_cases here : c
  · rw [if_pos here, if_pos here]
    exact yes here
  · rw [if_neg here, if_neg here]
    exact no here

/-- What one call returns, the other one returns too. -/
theorem of_ok (agree : Agree R run run') {a : α} (ran : run = .ok a) : ∃ b, run' = .ok b ∧ R a b := by
  cases agree with
  | ok related =>
    obtain rfl := Except.ok.inj ran
    exact ⟨_, rfl, related⟩
  | error e => cases ran

theorem of_error (agree : Agree R run run') {e : ε} (failed : run = .error e) : run' = .error e := by
  cases agree with
  | ok related => cases failed
  | error e' => exact congrArg Except.error (Except.error.inj failed)

/-- Only one side goes on. -/
theorem bind_left {Q : γ → β → Prop} {rest : α → Except ε γ} (first : Agree R run run')
    (later : ∀ a b, R a b → Agree Q (rest a) (.ok b)) : Agree Q (run >>= rest) run' := by
  cases first with
  | ok related => exact later _ _ related
  | error e => exact .error e

/-- Two calls that agree with a third one agree, by way of its result. -/
theorem span {Q : α → γ → Prop} {run'' : Except ε γ} (left : Agree R run run') (right : Agree Q run run'') :
    Agree (fun b c => ∃ a, run = .ok a ∧ R a b ∧ Q a c) run' run'' := by
  cases left with
  | ok related =>
    obtain ⟨c, rfl, related'⟩ := right.of_ok rfl
    exact .ok ⟨_, rfl, related, related'⟩
  | error e =>
    rw [right.of_error rfl]
    exact .error e

end Agree

/-! ## Images of a call -/

/-- The second call is the first one, seen through a function. -/
abbrev Carries (f : α → β) (run : Except ε α) (run' : Except ε β) : Prop := Agree (fun a b => b = f a) run run'

namespace Carries

variable {f : α → β} {run : Except ε α} {run' : Except ε β}

theorem ok (a : α) : Carries f (.ok a : Except ε α) (.ok (f a)) := Agree.ok rfl

theorem eq (carries : Carries f run run') : run' = run.map f := by
  cases carries with
  | ok same => rw [same]; rfl
  | error e => rfl

theorem of_eq (same : run' = run.map f) : Carries f run run' := by
  rw [same]
  cases run with
  | error e => exact Agree.error e
  | ok a => exact Agree.ok rfl

theorem bind {g : γ → δ} {rest : α → Except ε γ} {rest' : β → Except ε δ} (first : Carries f run run')
    (later : ∀ a, Carries g (rest a) (rest' (f a))) : Carries g (run >>= rest) (run' >>= rest') :=
  Agree.bind first fun a _ same => same ▸ later a

/-- A call on each element. -/
theorem mapM {ι κ : Type} {g : ι → κ} {call : ι → Except ε α} {call' : κ → Except ε β} (l : List ι)
    (each : ∀ i ∈ l, Carries f (call i) (call' (g i))) : Carries (List.map f) (l.mapM call) ((l.map g).mapM call') := by
  induction l with
  | nil => exact .ok []
  | cons i l ih =>
    rw [List.mapM_cons, List.map_cons, List.mapM_cons]
    refine (each i List.mem_cons_self).bind fun a => ?_
    exact (ih fun j member => each j (List.mem_cons_of_mem i member)).bind fun as => .ok (a :: as)

end Carries

/-- Each result of a list of calls is the result of one of them. -/
theorem exists_of_mapM {call : α → Except ε β} : ∀ {l : List α} {results : List β}, l.mapM call = .ok results →
    ∀ b ∈ results, ∃ a ∈ l, call a = .ok b := by
  intro l
  induction l with
  | nil =>
    intro results ran b member
    obtain rfl := Except.ok.inj ran
    cases member
  | cons a l ih =>
    intro results ran b member
    rw [List.mapM_cons] at ran
    cases first : call a with
    | error e =>
      rw [first] at ran
      cases ran
    | ok b' =>
      rw [first] at ran
      change (l.mapM call >>= _) = _ at ran
      cases others : l.mapM call with
      | error e =>
        rw [others] at ran
        cases ran
      | ok rest =>
        rw [others] at ran
        obtain rfl := Except.ok.inj ran
        rcases List.mem_cons.1 member with rfl | member
        · exact ⟨a, List.mem_cons_self, first⟩
        · obtain ⟨a', there, ran'⟩ := ih others b member
          exact ⟨a', List.mem_cons_of_mem a there, ran'⟩

/-! ## Runs -/

section Runs

variable {σ σ' ι ρ : Type} {step : σ → ι → Except ε (ρ × σ)} {step' : σ' → ι → Except ε (ρ × σ')} {guard : σ → ι → Prop}

/-- Equal replies, and related states after them. -/
def Alike (related : σ → σ' → Prop) (p : ρ × σ) (q : ρ × σ') : Prop := p.1 = q.1 ∧ related p.2 q.2

theorem run_agree {related : σ → σ' → Prop}
    (steps : ∀ s s' i, related s s' → guard s i → Agree (Alike related) (step s i) (step' s' i)) (inputs : List ι) :
    ∀ s s', related s s' → Meets step guard inputs s → Agree (Alike related) (run step inputs s) (run step' inputs s') := by
  induction inputs with
  | nil => exact fun s s' rel _ => .ok ⟨rfl, rel⟩
  | cons i rest ih =>
    intro s s' rel meets
    simp only [run]
    have first := steps s s' i rel meets.1
    cases taken : step s i with
    | error e =>
      rw [first.of_error taken]
      exact .error e
    | ok p =>
      obtain ⟨q, taken', same, rel₁⟩ := first.of_ok taken
      rw [taken']
      change Agree _ (run step rest p.2 >>= _) (run step' rest q.2 >>= _)
      refine Agree.bind (ih p.2 q.2 rel₁ (meets.next taken)) ?_
      rintro ⟨replies, s₂⟩ ⟨replies', s₂'⟩ ⟨others, rel₂⟩
      obtain rfl : replies = replies' := others
      exact .ok ⟨congrArg (· :: replies) same, rel₂⟩

/-- The second machine is given inputs that are like those of the first one. -/
theorem run_agree_choosing {step' : σ' → ι → Except ε (ρ × σ')} {related : σ → σ' → Prop} {like : ι → ι → Prop} (refl : ∀ i, like i i)
    (steps : ∀ s s' i, related s s' → ∃ i', like i i' ∧ Agree (Alike related) (step s i) (step' s' i')) (inputs : List ι) :
    ∀ s s', related s s' → ∃ inputs', List.Forall₂ like inputs inputs' ∧ Agree (Alike related) (run step inputs s) (run step' inputs' s') := by
  induction inputs with
  | nil => exact fun s s' rel => ⟨[], .nil, .ok ⟨rfl, rel⟩⟩
  | cons i rest ih =>
    intro s s' rel
    obtain ⟨i', like', first⟩ := steps s s' i rel
    cases taken : step s i with
    | error e =>
      refine ⟨i' :: rest, .cons like' (List.forall₂_same.2 fun j _ => refl j), ?_⟩
      simp only [run, taken, first.of_error taken]
      exact .error e
    | ok p =>
      obtain ⟨q, taken', same, rel₁⟩ := first.of_ok taken
      obtain ⟨rest', likes, others⟩ := ih p.2 q.2 rel₁
      refine ⟨i' :: rest', .cons like' likes, ?_⟩
      simp only [run, taken, taken']
      change Agree _ (run step rest p.2 >>= _) (run step' rest' q.2 >>= _)
      refine Agree.bind others ?_
      rintro ⟨replies, s₂⟩ ⟨replies', s₂'⟩ ⟨sameReplies, rel₂⟩
      obtain rfl : replies = replies' := sameReplies
      exact .ok ⟨congrArg (· :: replies) same, rel₂⟩

/-- Where only the replies are looked at, the two calls are the same. -/
theorem Agree.replies {related : σ → σ' → Prop} {call : Except ε (ρ × σ)} {call' : Except ε (ρ × σ')}
    (agree : Agree (Alike related) call call') : call.map Prod.fst = call'.map Prod.fst := by
  cases agree with
  | ok both => exact congrArg Except.ok both.1
  | error e => rfl

end Runs

end Radixox.Lockstep
