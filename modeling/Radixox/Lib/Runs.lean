import Radixox.Lib.Outcomes

/-!
# Runs of a machine that may fail

A machine takes an input in a state and gives a reply with the next state, or
fails. `Meets` says that every step of a run meets a condition on the state before it.
`run_simulates` lifts a step-by-step simulation by an abstract machine to
whole runs.
-/

namespace Radixox.Runs
set_option autoImplicit false
open Radixox.Outcomes

variable {σ ι ρ ε α : Type}

/-- The replies of a run and the state it ends in. -/
def run (step : σ → ι → Except ε (ρ × σ)) : List ι → σ → Except ε (List ρ × σ)
  | [], s => .ok ([], s)
  | i :: rest, s => do
    let (reply, s) ← step s i
    let (replies, s) ← run step rest s
    return (reply :: replies, s)

/-- Every step of the run meets the condition. -/
def Meets (step : σ → ι → Except ε (ρ × σ)) (guard : σ → ι → Prop) : List ι → σ → Prop
  | [], _ => True
  | i :: rest, s => guard s i ∧ match step s i with
    | .ok (_, s') => Meets step guard rest s'
    | .error _ => True

instance decidableMeets (step : σ → ι → Except ε (ρ × σ)) (guard : σ → ι → Prop) [∀ s i, Decidable (guard s i)] :
    (inputs : List ι) → (s : σ) → Decidable (Meets step guard inputs s)
  | [], _ => inferInstanceAs (Decidable True)
  | i :: rest, s =>
    have : Decidable (match step s i with
        | .ok (_, s') => Meets step guard rest s'
        | .error _ => True) :=
      match step s i with
      | .ok (_, s') => decidableMeets step guard rest s'
      | .error _ => inferInstanceAs (Decidable True)
    inferInstanceAs (Decidable (guard s i ∧ _))

/-- Every input is one that the abstract machine permits at its own state. -/
def Admits (next : α → ι → α) (permitted : α → ι → Prop) : α → List ι → Prop
  | _, [] => True
  | a, i :: rest => permitted a i ∧ Admits next permitted (next a i) rest

instance decidableAdmits (next : α → ι → α) (permitted : α → ι → Prop) [∀ a i, Decidable (permitted a i)] :
    (a : α) → (inputs : List ι) → Decidable (Admits next permitted a inputs)
  | _, [] => inferInstanceAs (Decidable True)
  | a, i :: rest =>
    have := decidableAdmits next permitted (next a i) rest
    inferInstanceAs (Decidable (permitted a i ∧ Admits next permitted (next a i) rest))

/-- The states that runs from `init` reach when all their steps meet the condition. -/
inductive Reaches (step : σ → ι → Except ε (ρ × σ)) (guard : σ → ι → Prop) (init : σ) : σ → Prop
  | refl : Reaches step guard init init
  | step {s s' : σ} {i : ι} {reply : ρ} (before : Reaches step guard init s) (ok : guard s i)
      (taken : step s i = .ok (reply, s')) : Reaches step guard init s'

/-- Each reply is one that the abstract machine allows at its own state. -/
def Answers (next : α → ι → α) (allowed : α → ι → ρ → Prop) : α → List ι → List ρ → Prop
  | _, [], [] => True
  | a, i :: rest, reply :: replies => allowed a i reply ∧ Answers next allowed (next a i) rest replies
  | _, _, _ => False

variable {step : σ → ι → Except ε (ρ × σ)} {guard : σ → ι → Prop}

theorem run_cons {s s' s'' : σ} {i : ι} {rest : List ι} {reply : ρ} {replies : List ρ} (first : step s i = .ok (reply, s'))
    (others : run step rest s' = .ok (replies, s'')) : run step (i :: rest) s = .ok (reply :: replies, s'') := by
  simp only [run, first, others, bind, Except.bind]
  rfl

theorem run_append {before after : List ι} {replies later : List ρ} :
    ∀ {s s' s'' : σ}, run step before s = .ok (replies, s') → run step after s' = .ok (later, s'') →
      run step (before ++ after) s = .ok (replies ++ later, s'') := by
  induction before generalizing replies with
  | nil =>
    intro s s' s'' first second
    obtain ⟨rfl, rfl⟩ := Prod.mk.inj (Except.ok.inj first)
    exact second
  | cons i rest ih =>
    intro s s' s'' first second
    simp only [run, bind, Except.bind] at first
    cases taken : step s i with
    | error => rw [taken] at first; cases first
    | ok p =>
      rw [taken] at first
      dsimp only at first
      cases ran : run step rest p.2 with
      | error => rw [ran] at first; cases first
      | ok q =>
        rw [ran] at first
        obtain ⟨rfl, rfl⟩ := Prod.mk.inj (Except.ok.inj first)
        exact run_cons taken (ih ran second)

theorem Answers.append {next : α → ι → α} {allowed : α → ι → ρ → Prop} {before after : List ι} {later : List ρ} :
    ∀ {a : α} {replies : List ρ}, Answers next allowed a before replies → Answers next allowed (before.foldl next a) after later →
      Answers next allowed a (before ++ after) (replies ++ later) := by
  induction before with
  | nil =>
    intro a replies first second
    cases replies with
    | nil => exact second
    | cons => exact first.elim
  | cons i rest ih =>
    intro a replies first second
    cases replies with
    | nil => exact first.elim
    | cons reply replies => exact ⟨first.1, ih first.2 second⟩

theorem Meets.next {i : ι} {rest : List ι} {s s' : σ} {reply : ρ} (meets : Meets step guard (i :: rest) s)
    (taken : step s i = .ok (reply, s')) : Meets step guard rest s' := by
  have later := meets.2
  rwa [taken] at later

theorem Meets.cons {i : ι} {rest : List ι} {s : σ} (first : guard s i)
    (later : ∀ reply s', step s i = .ok (reply, s') → Meets step guard rest s') : Meets step guard (i :: rest) s := by
  refine ⟨first, ?_⟩
  cases taken : step s i with
  | error => trivial
  | ok p => exact later p.1 p.2 taken

/-- A condition that some inputs meet in every state. -/
theorem Meets.of_forall {inputs : List ι} (all : ∀ i ∈ inputs, ∀ s, guard s i) : ∀ s : σ, Meets step guard inputs s := by
  induction inputs with
  | nil => exact fun _ => trivial
  | cons i rest ih =>
    exact fun s => .cons (all i List.mem_cons_self s) fun _ s' _ => ih (fun j member => all j (List.mem_cons_of_mem i member)) s'

theorem Meets.mono {weaker : σ → ι → Prop} (implies : ∀ s i, guard s i → weaker s i) {inputs : List ι} :
    ∀ {s : σ}, Meets step guard inputs s → Meets step weaker inputs s := by
  induction inputs with
  | nil => exact fun _ => trivial
  | cons i rest ih => exact fun meets => .cons (implies _ _ meets.1) fun _ _ taken => ih (meets.next taken)

theorem Meets.and {also : σ → ι → Prop} {inputs : List ι} :
    ∀ {s : σ}, Meets step guard inputs s → Meets step also inputs s → Meets step (fun s i => guard s i ∧ also s i) inputs s := by
  induction inputs with
  | nil => exact fun _ _ => trivial
  | cons i rest ih =>
    exact fun meets others => .cons ⟨meets.1, others.1⟩ fun _ _ taken => ih (meets.next taken) (others.next taken)

/-- Inputs that the abstract machine permits at every state. -/
theorem Admits.of_forall {next : α → ι → α} {permitted : α → ι → Prop} {inputs : List ι}
    (all : ∀ i ∈ inputs, ∀ a, permitted a i) : ∀ a : α, Admits next permitted a inputs := by
  induction inputs with
  | nil => exact fun _ => trivial
  | cons i rest ih =>
    exact fun a => ⟨all i List.mem_cons_self a, ih (fun j member => all j (List.mem_cons_of_mem i member)) (next a i)⟩

/-- What holds initially and survives every allowed step holds in every state that is reached. -/
theorem Reaches.invariant {inv : σ → Prop} {init s : σ} (reached : Reaches step guard init s) (initial : inv init)
    (preserved : ∀ s s' i reply, inv s → guard s i → step s i = .ok (reply, s') → inv s') : inv s := by
  induction reached with
  | refl => exact initial
  | step before ok taken ih => exact preserved _ _ _ _ ih ok taken

/-- A run whose steps meet the condition leads to a state that is reached. -/
theorem Reaches.run {init : σ} {inputs : List ι} : ∀ {s s' : σ} {replies : List ρ}, Reaches step guard init s →
    Meets step guard inputs s → run step inputs s = .ok (replies, s') → Reaches step guard init s' := by
  induction inputs with
  | nil =>
    intro s s' replies reached _ ran
    obtain ⟨-, rfl⟩ := Prod.mk.inj (Except.ok.inj ran)
    exact reached
  | cons i rest ih =>
    intro s s' replies reached meets ran
    simp only [Runs.run, bind, Except.bind] at ran
    cases taken : step s i with
    | error => rw [taken] at ran; cases ran
    | ok p =>
      obtain ⟨reply, s₁⟩ := p
      simp only [taken] at ran
      cases others : Runs.run step rest s₁ with
      | error => rw [others] at ran; cases ran
      | ok q =>
        simp only [others] at ran
        obtain ⟨-, rfl⟩ := Prod.mk.inj (Except.ok.inj ran)
        exact ih (.step reached meets.1 taken) (meets.next taken) others

/-- A run that fails does so at a state that is reached. -/
theorem Reaches.run_error {init : σ} {inputs : List ι} {e : ε} : ∀ {s : σ}, Reaches step guard init s →
    Meets step guard inputs s → Runs.run step inputs s = .error e →
    ∃ s' i, Reaches step guard init s' ∧ guard s' i ∧ step s' i = .error e := by
  induction inputs with
  | nil => exact fun _ _ ran => by cases ran
  | cons i rest ih =>
    intro s reached meets ran
    simp only [Runs.run, bind, Except.bind] at ran
    cases taken : step s i with
    | error e' =>
      rw [taken] at ran
      obtain rfl := Except.error.inj ran
      exact ⟨s, i, reached, meets.1, taken⟩
    | ok p =>
      simp only [taken] at ran
      cases others : Runs.run step rest p.2 with
      | error e' =>
        rw [others] at ran
        obtain rfl := Except.error.inj ran
        exact ih (.step reached meets.1 taken) (meets.next taken) others
      | ok q => rw [others] at ran; cases ran

/-- Every step keeps an invariant, and its reply tells how an observation of the state changes: so does the run. -/
theorem run_observes {bad : ε → Prop} (inv : σ → Prop) (observe : σ → α) (next : α → ρ → α)
    (preserved : ∀ s i, inv s → guard s i → Yields bad (fun q => inv q.2 ∧ observe q.2 = next (observe s) q.1) (step s i))
    (inputs : List ι) : ∀ s, inv s → Meets step guard inputs s →
      Yields bad (fun q => inv q.2 ∧ observe q.2 = q.1.foldl next (observe s)) (run step inputs s) := by
  induction inputs with
  | nil => exact fun s holds _ => .ok ⟨holds, rfl⟩
  | cons i rest ih =>
    intro s holds meets
    have first := preserved s i holds meets.1
    cases taken : step s i with
    | error e =>
      simp only [run, taken, bind, Except.bind]
      exact .error (first.of_error taken)
    | ok q =>
      obtain ⟨holds', seen⟩ := first.of_ok taken
      simp only [run, taken, bind, Except.bind]
      refine (ih q.2 holds' (meets.next taken)).bind fun later both => .ok ⟨both.1, ?_⟩
      rw [List.foldl_cons, ← seen]
      exact both.2

/-- A simulation: related states stay related, and the replies are the abstract machine's. -/
theorem run_simulates {next : α → ι → α} {permitted : α → ι → Prop} {allowed : α → ι → ρ → Prop} {related : σ → α → Prop}
    (simulates : ∀ s a i, related s a → permitted a i → guard s i →
      ∃ reply s', step s i = .ok (reply, s') ∧ allowed a i reply ∧ related s' (next a i)) (inputs : List ι) :
    ∀ s a, related s a → Admits next permitted a inputs → Meets step guard inputs s →
      ∃ replies s', run step inputs s = .ok (replies, s') ∧ Answers next allowed a inputs replies ∧
        related s' (inputs.foldl next a) := by
  induction inputs with
  | nil => exact fun s a rel _ _ => ⟨[], s, rfl, trivial, rel⟩
  | cons i rest ih =>
    intro s a rel admits meets
    obtain ⟨reply, s₁, taken, answer, rel₁⟩ := simulates s a i rel admits.1 meets.1
    obtain ⟨replies, s', others, answers, rel'⟩ := ih s₁ (next a i) rel₁ admits.2 (meets.next taken)
    exact ⟨reply :: replies, s', run_cons taken others, ⟨answer, answers⟩, rel'⟩

/-- A simulation whose replies are the abstract machine's exactly at the steps that meet a condition. -/
theorem run_simulates_iff {next : α → ι → α} {permitted : α → ι → Prop} {allowed : α → ι → ρ → Prop} {related : σ → α → Prop}
    (simulates : ∀ s a i, related s a → permitted a i →
      ∃ reply s', step s i = .ok (reply, s') ∧ (allowed a i reply ↔ guard s i) ∧ related s' (next a i)) (inputs : List ι) :
    ∀ s a, related s a → Admits next permitted a inputs →
      ∃ replies s', run step inputs s = .ok (replies, s') ∧ (Answers next allowed a inputs replies ↔ Meets step guard inputs s) ∧
        related s' (inputs.foldl next a) := by
  induction inputs with
  | nil => exact fun s a rel _ => ⟨[], s, rfl, Iff.rfl, rel⟩
  | cons i rest ih =>
    intro s a rel admits
    obtain ⟨reply, s₁, taken, answer, rel₁⟩ := simulates s a i rel admits.1
    obtain ⟨replies, s', others, answers, rel'⟩ := ih s₁ (next a i) rel₁ admits.2
    refine ⟨reply :: replies, s', run_cons taken others, ?_, rel'⟩
    rw [Meets, taken]
    exact and_congr answer answers

/-! ## Machines that choose -/

/-- A run of a machine whose step may choose its reply and its next state. -/
inductive Follows (chooses : α → ι → ρ → α → Prop) : α → List ι → List ρ → α → Prop
  | nil {a : α} : Follows chooses a [] [] a
  | cons {a a' a'' : α} {i : ι} {rest : List ι} {reply : ρ} {replies : List ρ} (first : chooses a i reply a')
      (later : Follows chooses a' rest replies a'') : Follows chooses a (i :: rest) (reply :: replies) a''

/-- A condition that survives every step survives a run. -/
theorem Follows.invariant {chooses : α → ι → ρ → α → Prop} {a a' : α} {inputs : List ι} {replies : List ρ}
    (follows : Follows chooses a inputs replies a') (inv : α → Prop) (preserved : ∀ b i reply b', inv b → chooses b i reply b' → inv b')
    (initial : inv a) : inv a' := by
  induction follows with
  | nil => exact initial
  | cons first _ ih => exact ih (preserved _ _ _ _ initial first)

/-- A step in the middle of a run. -/
theorem Follows.split {chooses : α → ι → ρ → α → Prop} {a a' : α} {inputs : List ι} {replies : List ρ}
    (follows : Follows chooses a inputs replies a') :
    ∀ {n : Nat} {i : ι} {reply : ρ}, inputs[n]? = some i → replies[n]? = some reply →
      ∃ b b', Follows chooses a (inputs.take n) (replies.take n) b ∧ chooses b i reply b' ∧
        Follows chooses b' (inputs.drop (n + 1)) (replies.drop (n + 1)) a' := by
  induction follows with
  | nil =>
    intro n i reply input _
    cases input
  | cons first later ih =>
    intro n i reply input answer
    cases n with
    | zero =>
      obtain rfl := Option.some.inj input
      obtain rfl := Option.some.inj answer
      exact ⟨_, _, .nil, first, later⟩
    | succ n =>
      obtain ⟨b, b', before, chosen, after⟩ := ih input answer
      exact ⟨b, b', .cons first before, chosen, after⟩

/-- A simulation with a budget of steps: states that are related with a step to spare take it together. -/
theorem run_follows {chooses : α → ι → ρ → α → Prop} (related : Nat → σ → α → Prop)
    (simulates : ∀ n s a i, related (n + 1) s a →
      ∃ reply s' a', step s i = .ok (reply, s') ∧ chooses a i reply a' ∧ related n s' a') (inputs : List ι) :
    ∀ s a, related inputs.length s a →
      ∃ replies s' a', run step inputs s = .ok (replies, s') ∧ Follows chooses a inputs replies a' ∧ related 0 s' a' := by
  induction inputs with
  | nil => exact fun s a rel => ⟨[], s, a, rfl, .nil, rel⟩
  | cons i rest ih =>
    intro s a rel
    obtain ⟨reply, s₁, a₁, taken, chosen, rel₁⟩ := simulates _ s a i rel
    obtain ⟨replies, s', a', others, follows, rel'⟩ := ih s₁ a₁ rel₁
    exact ⟨reply :: replies, s', a', run_cons taken others, .cons chosen follows, rel'⟩

end Radixox.Runs
