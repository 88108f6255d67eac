import Mathlib.Data.List.Basic
import Mathlib.Tactic.Common

/-!
# Double buffering

Frames wait in one buffer while a writer holds another. The lists are flat: that they
consist of whole frames, each of them once, is what `Holds` says, up to a
relation between the frames found and the frames appended.
-/

namespace Radixox.DoubleBuffer
set_option autoImplicit false

/-- What has been written, what a writer holds and what waits. -/
@[ext] structure Buffers (β : Type) where
  written : List β
  inflight : List β
  pending : List β

variable {β : Type}

namespace Buffers

def append (b : Buffers β) (frames : List (List β)) : Buffers β := { b with pending := b.pending ++ frames.flatten }

/-- A writer takes all that waits. -/
def take (b : Buffers β) : Buffers β := { b with inflight := b.pending, pending := [] }

def swap (b : Buffers β) : Buffers β := { b with inflight := b.pending, pending := b.inflight }

def complete (b : Buffers β) : Buffers β := { b with written := b.written ++ b.inflight, inflight := [] }

@[simp] theorem append_nil (b : Buffers β) : b.append [] = b := by
  simp [append]

@[simp] theorem append_singleton (w f p frame : List β) : (⟨w, f, p⟩ : Buffers β).append [frame] = ⟨w, f, p ++ frame⟩ := by
  simp [append]

end Buffers

/-- What may happen to the buffers between two appends. -/
inductive Moves (allowed : Buffers β → Prop) (b : Buffers β) : Buffers β → Prop
  | stay : Moves allowed b b
  | take (idle : b.inflight = []) : Moves allowed b b.take
  | swap (ok : allowed b) : Moves allowed b b.swap
  | complete : Moves allowed b b.complete

/-- The buffers are made of whole frames, which `R` relates to the frames appended. -/
def Holds (R : List (List β) → List (List β) → Prop) (history : List (List β)) (b : Buffers β) : Prop :=
  ∃ written inflight pending : List (List β), b.written = written.flatten ∧ b.inflight = inflight.flatten ∧
    b.pending = pending.flatten ∧ R (written ++ inflight ++ pending) history

variable {R : List (List β) → List (List β) → Prop} {history : List (List β)} {b b' : Buffers β}

theorem Holds.append (grows : ∀ l h more, R l h → R (l ++ more) (h ++ more)) (holds : Holds R history b)
    (frames : List (List β)) : Holds R (history ++ frames) (b.append frames) := by
  obtain ⟨W, F, P, written, inflight, pending, related⟩ := holds
  refine ⟨W, F, P ++ frames, written, inflight, ?_, ?_⟩
  · rw [Buffers.append, List.flatten_append, pending]
  · rw [← List.append_assoc]
    exact grows _ _ frames related

theorem Holds.take (holds : Holds R history b) (idle : b.inflight = []) : Holds R history b.take := by
  obtain ⟨W, F, P, written, inflight, pending, related⟩ := holds
  refine ⟨W, F ++ P, [], written, ?_, rfl, ?_⟩
  · rw [Buffers.take, List.flatten_append, ← inflight, idle, pending, List.nil_append]
  · rwa [List.append_nil, ← List.append_assoc]

theorem Holds.complete (holds : Holds R history b) : Holds R history b.complete := by
  obtain ⟨W, F, P, written, inflight, pending, related⟩ := holds
  refine ⟨W ++ F, [], P, ?_, rfl, pending, ?_⟩
  · rw [Buffers.complete, List.flatten_append, written, inflight]
  · rwa [List.append_nil]

/-- A swap with one side empty keeps the order of the frames. -/
theorem Holds.swap (holds : Holds R history b) (one : b.inflight = [] ∨ b.pending = []) : Holds R history b.swap := by
  obtain ⟨W, F, P, written, inflight, pending, related⟩ := holds
  rcases one with idle | idle
  · refine ⟨W, F ++ P, [], written, ?_, ?_, ?_⟩
    · rw [Buffers.swap, List.flatten_append, ← inflight, idle, pending, List.nil_append]
    · rw [Buffers.swap, idle, List.flatten_nil]
    · rwa [List.append_nil, ← List.append_assoc]
  · refine ⟨W, [], F ++ P, written, ?_, ?_, ?_⟩
    · rw [Buffers.swap, idle, List.flatten_nil]
    · rw [Buffers.swap, List.flatten_append, ← pending, idle, inflight, List.append_nil]
    · rwa [List.append_nil, ← List.append_assoc]

/-- Any swap keeps the frames. -/
theorem Holds.swap_perm (holds : Holds List.Perm history b) : Holds List.Perm history b.swap := by
  obtain ⟨W, F, P, written, inflight, pending, related⟩ := holds
  refine ⟨W, P, F, written, pending, inflight, ?_⟩
  have exchanged : (W ++ P ++ F).Perm (W ++ F ++ P) := by
    rw [List.append_assoc, List.append_assoc]
    exact List.perm_append_comm.append_left W
  exact exchanged.trans related

/-- In order, what has been written is what was appended first. -/
theorem Holds.starts (holds : Holds (· = ·) history b) : b.written <+: history.flatten := by
  obtain ⟨W, F, P, written, -, -, rfl⟩ := holds
  rw [written, List.append_assoc, List.flatten_append]
  exact List.prefix_append ..

theorem Holds.moves {allowed : Buffers β → Prop} (holds : Holds R history b) (moves : Moves allowed b b')
    (swaps : allowed b → Holds R history b.swap) : Holds R history b' := by
  cases moves with
  | stay => exact holds
  | take idle => exact holds.take idle
  | swap ok => exact swaps ok
  | complete => exact holds.complete

end Radixox.DoubleBuffer
