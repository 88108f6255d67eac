import Radixox.Lib.Lockstep

/-!
# Sampling loops

A loop that draws an item each turn and acts on it, and rounds of such loops until one was not worth it. Which items come up is left
to the draws. Two loops agree when each draw of the one is matched by a draw of the other, whatever order they number their items in.
-/

namespace Radixox.Sampling
set_option autoImplicit false
open Radixox.Lockstep

variable {σ τ ι κ ε : Type}

/-- At most `turns` draws: how many were hits, and how many there were. -/
def cycle (pick : σ → Nat → Option ι) (act : σ → ι → Except ε (Bool × σ)) (draws : Nat → Nat) : Nat → σ → Except ε (Nat × Nat × σ)
  | 0, s => .ok (0, 0, s)
  | turns + 1, s => match pick s (draws turns) with
    | none => .ok (0, 0, s)
    | some i => do
      let (hit, s) ← act s i
      let (hits, sampled, s) ← cycle pick act draws turns s
      return (hits + (if hit then 1 else 0), sampled + 1, s)

/-- At most `n` rounds, each under its own draws; the last one is the first that `last` says so of. -/
def rounds (round : (Nat → Nat) → σ → Except ε (Nat × Nat × σ)) (last : Nat → Nat → Bool) (draws : Nat → Nat → Nat) :
    Nat → σ → Except ε (Nat × σ)
  | 0, s => .ok (0, s)
  | n + 1, s => do
    let (hits, sampled, s) ← round (draws n) s
    if last hits sampled then return (hits, s)
    else
      let (total, s) ← rounds round last draws n s
      return (hits + total, s)

/-! ## Draws that are not used -/

theorem cycle_congr {pick : σ → Nat → Option ι} {act : σ → ι → Except ε (Bool × σ)} {draws draws' : Nat → Nat} (turns : Nat) :
    (∀ i < turns, draws i = draws' i) → ∀ s, cycle pick act draws turns s = cycle pick act draws' turns s := by
  induction turns with
  | zero => exact fun _ _ => rfl
  | succ turns ih =>
    intro same s
    have rest := ih fun i less => same i (Nat.lt_succ_of_lt less)
    simp only [cycle, same turns (Nat.lt_succ_self turns), rest]

theorem rounds_congr {round : (Nat → Nat) → σ → Except ε (Nat × Nat × σ)} {last : Nat → Nat → Bool} {draws draws' : Nat → Nat → Nat}
    (n : Nat) : (∀ i < n, draws i = draws' i) → ∀ s, rounds round last draws n s = rounds round last draws' n s := by
  induction n with
  | zero => exact fun _ _ => rfl
  | succ n ih =>
    intro same s
    have rest := ih fun i less => same i (Nat.lt_succ_of_lt less)
    simp only [rounds, same n (Nat.lt_succ_self n), rest]

/-! ## Two loops -/

section Simulation

variable {related : σ → τ → Prop}

/-- Equal counts, and related states after them. -/
def Counted (related : σ → τ → Prop) (p : Nat × Nat × σ) (q : Nat × Nat × τ) : Prop :=
  p.1 = q.1 ∧ p.2.1 = q.2.1 ∧ related p.2.2 q.2.2

/-- A draw on each side that finds nothing, or items on which the loops do the same. -/
def Matched (related : σ → τ → Prop) (pick : σ → Nat → Option ι) (act : σ → ι → Except ε (Bool × σ)) (pick' : τ → Nat → Option κ)
    (act' : τ → κ → Except ε (Bool × τ)) (s : σ) (t : τ) (d d' : Nat) : Prop :=
  pick s d = none ∧ pick' t d' = none ∨
    ∃ i j, pick s d = some i ∧ pick' t d' = some j ∧ Agree (Alike related) (act s i) (act' t j)

variable {pick : σ → Nat → Option ι} {act : σ → ι → Except ε (Bool × σ)} {pick' : τ → Nat → Option κ} {act' : τ → κ → Except ε (Bool × τ)}

theorem cycle_agree (turn : ∀ s t d, related s t → ∃ d', Matched related pick act pick' act' s t d d') (draws : Nat → Nat) (turns : Nat) :
    ∀ s t, related s t → ∃ draws', Agree (Counted related) (cycle pick act draws turns s) (cycle pick' act' draws' turns t) := by
  induction turns with
  | zero => exact fun s t rel => ⟨draws, .ok ⟨rfl, rfl, rel⟩⟩
  | succ turns ih =>
    intro s t rel
    obtain ⟨d', matched⟩ := turn s t (draws turns) rel
    rcases matched with ⟨drawn, drawn'⟩ | ⟨i, j, drawn, drawn', acted⟩
    · refine ⟨fun _ => d', ?_⟩
      simp only [cycle, drawn, drawn']
      exact .ok ⟨rfl, rfl, rel⟩
    · cases first : act s i with
      | error e =>
        refine ⟨fun _ => d', ?_⟩
        simp only [cycle, drawn, drawn', first, acted.of_error first]
        exact .error e
      | ok p =>
        obtain ⟨hit, s₁⟩ := p
        obtain ⟨⟨hit', t₁⟩, first', same, rel₁⟩ := acted.of_ok first
        obtain rfl : hit = hit' := same
        obtain ⟨draws', rest⟩ := ih s₁ t₁ rel₁
        -- The draw of this turn is put before those of the others.
        have others : ∀ i < turns, draws' i = (fun i => if i = turns then d' else draws' i) i := fun i less => (if_neg (Nat.ne_of_lt less)).symm
        refine ⟨fun i => if i = turns then d' else draws' i, ?_⟩
        rw [cycle_congr turns others] at rest
        simp only [cycle, if_true, drawn, drawn', first, first']
        change Agree _ (cycle pick act draws turns s₁ >>= _) (cycle pick' act' _ turns t₁ >>= _)
        refine Agree.bind rest ?_
        rintro ⟨hits, sampled, s₂⟩ ⟨hits', sampled', t₂⟩ ⟨hitsSame, sampledSame, rel₂⟩
        exact .ok ⟨congrArg (· + _) hitsSame, congrArg (· + 1) sampledSame, rel₂⟩

theorem rounds_agree {round : (Nat → Nat) → σ → Except ε (Nat × Nat × σ)} {round' : (Nat → Nat) → τ → Except ε (Nat × Nat × τ)}
    {last : Nat → Nat → Bool} (each : ∀ draws s t, related s t → ∃ draws', Agree (Counted related) (round draws s) (round' draws' t))
    (draws : Nat → Nat → Nat) (n : Nat) :
    ∀ s t, related s t → ∃ draws', Agree (Alike related) (rounds round last draws n s) (rounds round' last draws' n t) := by
  induction n with
  | zero => exact fun s t rel => ⟨draws, .ok ⟨rfl, rel⟩⟩
  | succ n ih =>
    intro s t rel
    obtain ⟨first, agree⟩ := each (draws n) s t rel
    cases ran : round (draws n) s with
    | error e =>
      refine ⟨fun _ => first, ?_⟩
      simp only [rounds, ran, agree.of_error ran]
      exact .error e
    | ok p =>
      obtain ⟨hits, sampled, s₁⟩ := p
      obtain ⟨⟨hits', sampled', t₁⟩, ran', hitsSame, sampledSame, rel₁⟩ := agree.of_ok ran
      obtain rfl : hits = hits' := hitsSame
      obtain rfl : sampled = sampled' := sampledSame
      obtain ⟨draws', rest⟩ := ih s₁ t₁ rel₁
      have others : ∀ i < n, draws' i = (fun i => if i = n then first else draws' i) i := fun i less => (if_neg (Nat.ne_of_lt less)).symm
      refine ⟨fun i => if i = n then first else draws' i, ?_⟩
      rw [rounds_congr n others] at rest
      simp only [rounds, if_true, ran, ran']
      refine .ite (fun _ => .ok ⟨rfl, rel₁⟩) fun _ => Agree.bind rest ?_
      rintro ⟨total, s₂⟩ ⟨total', t₂⟩ ⟨totalSame, rel₂⟩
      exact .ok ⟨congrArg (hits + ·) totalSame, rel₂⟩

end Simulation

end Radixox.Sampling
