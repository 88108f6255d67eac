import Radixox.Lib.Lockstep

/-!
# Programs that call a machine

A program gives inputs to a machine, goes on with the replies, and ends with an answer. What it does over one machine it does over
every machine that gives the same replies, and over an abstract machine that allows them.
-/

namespace Radixox.Programs
set_option autoImplicit false
open Radixox.Runs Radixox.Lockstep

/-- Calls with what follows each reply. -/
inductive Program (ι ρ α : Type) where
  | answer (a : α)
  | call (i : ι) (next : ρ → Program ι ρ α)

namespace Program

variable {ι ρ α β ε σ σ' τ : Type}

def bind : Program ι ρ α → (α → Program ι ρ β) → Program ι ρ β
  | .answer a, rest => rest a
  | .call i next, rest => .call i fun reply => (next reply).bind rest

/-- The answer is changed in the end. -/
def map (f : α → β) (p : Program ι ρ α) : Program ι ρ β := p.bind fun a => .answer (f a)

/-- One call for each item, in order. -/
def forEach {κ : Type} (act : κ → Program ι ρ α) : List κ → Program ι ρ (List α)
  | [] => .answer []
  | k :: rest => (act k).bind fun a => (forEach act rest).bind fun later => .answer (a :: later)

/-- The program over a machine. -/
def exec (step : σ → ι → Except ε (ρ × σ)) : Program ι ρ α → σ → Except ε (α × σ)
  | .answer a, s => .ok (a, s)
  | .call i next, s => do
    let (reply, s) ← step s i
    (next reply).exec step s

/-- Every call that the program may come to, whatever the replies, is of this kind. -/
def Calls (kind : ι → Prop) : Program ι ρ α → Prop
  | .answer _ => True
  | .call i next => kind i ∧ ∀ reply, (next reply).Calls kind

section Exec

variable {step : σ → ι → Except ε (ρ × σ)}

theorem exec_bind (p : Program ι ρ α) (rest : α → Program ι ρ β) :
    ∀ s, (p.bind rest).exec step s = p.exec step s >>= fun q => (rest q.1).exec step q.2 := by
  induction p with
  | answer a => exact fun s => rfl
  | call i next ih =>
    intro s
    simp only [bind, exec]
    cases step s i with
    | error e => rfl
    | ok q => exact ih q.1 q.2

theorem exec_map (p : Program ι ρ α) (f : α → β) (s : σ) :
    (p.map f).exec step s = (p.exec step s).map fun q => (f q.1, q.2) := by
  rw [map, exec_bind]
  cases p.exec step s <;> rfl

end Exec

section Calls

variable {kind : ι → Prop}

theorem Calls.mono {kind' : ι → Prop} (weaker : ∀ i, kind i → kind' i) : ∀ {p : Program ι ρ α}, p.Calls kind → p.Calls kind'
  | .answer _, _ => trivial
  | .call _ _, calls => ⟨weaker _ calls.1, fun reply => (calls.2 reply).mono weaker⟩

theorem Calls.bind {p : Program ι ρ α} {rest : α → Program ι ρ β} (first : p.Calls kind) (later : ∀ a, (rest a).Calls kind) :
    (p.bind rest).Calls kind := by
  induction p with
  | answer a => exact later a
  | call i next ih => exact ⟨first.1, fun reply => ih reply (first.2 reply)⟩

theorem Calls.map {p : Program ι ρ α} (f : α → β) (first : p.Calls kind) : (p.map f).Calls kind := first.bind fun _ => trivial

theorem Calls.forEach {κ : Type} {act : κ → Program ι ρ α} {l : List κ} (each : ∀ k ∈ l, (act k).Calls kind) :
    (Program.forEach act l).Calls kind := by
  induction l with
  | nil => trivial
  | cons k l ih =>
    refine (each k List.mem_cons_self).bind fun a => ?_
    exact (ih fun k' member => each k' (List.mem_cons_of_mem k member)).bind fun _ => trivial

end Calls

/-! ## Two machines -/

/-- Machines that agree on the calls of a program agree on the program. -/
theorem exec_agree {step : σ → ι → Except ε (ρ × σ)} {step' : σ' → ι → Except ε (ρ × σ')} {kind : ι → Prop} {related : σ → σ' → Prop}
    (steps : ∀ s s' i, related s s' → kind i → Agree (Alike related) (step s i) (step' s' i)) {p : Program ι ρ α}
    (calls : p.Calls kind) : ∀ {s s'}, related s s' → Agree (Alike related) (p.exec step s) (p.exec step' s') := by
  induction p with
  | answer a => exact fun {s s'} rel => .ok ⟨rfl, rel⟩
  | call i next ih =>
    intro s s' rel
    simp only [exec]
    refine Agree.bind (steps s s' i rel calls.1) ?_
    rintro ⟨reply, s₁⟩ ⟨reply', s₁'⟩ ⟨same, rel₁⟩
    obtain rfl : reply = reply' := same
    exact ih reply (calls.2 reply) rel₁

/-! ## An abstract machine -/

section Abstract

variable (chooses : τ → ι → ρ → τ → Prop)

/-- What the program may answer over a machine that chooses, and the state after it. -/
def Outcome : Program ι ρ α → τ → α → τ → Prop
  | .answer a, t, a', t' => a' = a ∧ t' = t
  | .call i rest, t, a', t' => ∃ reply t₁, chooses t i reply t₁ ∧ (rest reply).Outcome t₁ a' t'

/-- Every call of the program over the machine meets a condition on the state before it. -/
def Meets (step : σ → ι → Except ε (ρ × σ)) (guard : σ → ι → Prop) : Program ι ρ α → σ → Prop
  | .answer _, _ => True
  | .call i rest, s => guard s i ∧ ∀ reply s', step s i = .ok (reply, s') → (rest reply).Meets step guard s'

variable {chooses} {step : σ → ι → Except ε (ρ × σ)} {guard : σ → ι → Prop}

/-- Calls that keep an invariant and meet the condition wherever it holds. -/
theorem Calls.meets {inv : σ → Prop} {kind : ι → Prop}
    (keeps : ∀ s i reply s', inv s → kind i → step s i = .ok (reply, s') → inv s') (meets : ∀ s i, inv s → kind i → guard s i)
    {p : Program ι ρ α} (calls : p.Calls kind) : ∀ {s}, inv s → p.Meets step guard s := by
  induction p with
  | answer a => exact fun _ => trivial
  | call i rest ih =>
    exact fun {s} holds => ⟨meets s i holds calls.1, fun reply s' taken => ih reply (calls.2 reply) (keeps s i reply s' holds calls.1 taken)⟩

/-- A program over a machine that the abstract one simulates. -/
theorem exec_refines {related : σ → τ → Prop} (simulates : ∀ s t i, related s t → guard s i →
    ∃ reply s' t', step s i = .ok (reply, s') ∧ chooses t i reply t' ∧ related s' t') {p : Program ι ρ α} :
    ∀ {s : σ} {t : τ}, related s t → p.Meets step guard s →
      ∃ a s' t', p.exec step s = .ok (a, s') ∧ Outcome chooses p t a t' ∧ related s' t' := by
  induction p with
  | answer a => exact fun {s t} rel _ => ⟨a, s, t, rfl, ⟨rfl, rfl⟩, rel⟩
  | call i rest ih =>
    intro s t rel meets
    obtain ⟨reply, s₁, t₁, taken, chosen, rel₁⟩ := simulates s t i rel meets.1
    obtain ⟨a, s', t', ran, outcome, rel'⟩ := ih reply rel₁ (meets.2 reply s₁ taken)
    exact ⟨a, s', t', by simp only [exec, taken]; exact ran, ⟨reply, t₁, chosen, outcome⟩, rel'⟩

end Abstract

end Program

end Radixox.Programs
