import Radixox.Oxidart.RawRefinement
import Radixox.Server.MapServer

/-!
# The server over the slabs

The handlers as the code has them: they call the store whose nodes hold tags and indices. A handler asks for no eviction, so what it
answers is what it answers over the typed store, and what is proved of the one holds of the other.
-/

namespace Radixox.Server.Resp
set_option autoImplicit false

open Radixox.Oxidart Radixox.Programs Radixox.Runs Radixox.Lockstep

variable {P : Policy} {S : Type} [Score S]

/-- One turn over the slabs. -/
def rawServe (lib : Library S) (s : RawStore P S) : Turn → Exec (Option SharedFrame × RawStore P S)
  | .request f args => ((Script.of lib.parseF64 f args).exec (RawStore.command lib.order) s).map fun p => (some p.1, p.2)
  | .tick now => .ok (none, s.setNow now)

/-- The commands that draw nothing. -/
def Steady (c : Command S) : Prop := ∀ draws, c ≠ .tree (.evict draws)

theorem steady_of_issues {f : DataFn} {args : List SharedByte} {c : Command S} (issues : f.Issues args c) : Steady c := by
  rintro draws rfl
  exact issues

theorem Redrawn.eq_of_steady {c c' : Command S} (redrawn : Redrawn c c') (steady : Steady c) : c' = c := by
  cases redrawn with
  | same => rfl
  | evict draws => exact absurd rfl (steady draws)

theorem command_agree (U : P.Unordered) (order : HashOrder) (s : RawStore P S) (t : OxidArt P (Value S)) (c : Command S)
    (rep : Represents s t) (steady : Steady c) : Agree (Alike Represents) (s.command order c) (OxidArt.exec order t c) := by
  obtain ⟨c', redrawn, same⟩ := command_matches U order rep c
  rwa [Redrawn.eq_of_steady redrawn steady] at same

/-- One turn, on both sides. -/
theorem rawServe_agree (U : P.Unordered) (lib : Library S) (s : RawStore P S) (t : OxidArt P (Value S)) (turn : Turn)
    (rep : Represents s t) : Agree (Alike Represents) (rawServe lib s turn) (serve lib t turn) := by
  cases turn with
  | tick now =>
    obtain ⟨T, stands⟩ := rep
    exact .ok ⟨rfl, stands.setNow now⟩
  | request f args =>
    have steady : (Script.of lib.parseF64 f args).Calls (Steady (S := S)) :=
      (calls_issues lib.parseF64 f args).mono fun _ issues => steady_of_issues issues
    simp only [rawServe, serve, run_eq_played, played]
    refine Agree.map (Program.exec_agree (command_agree U lib.order) steady rep) ?_
    rintro p q ⟨same, rep'⟩
    exact ⟨congrArg some same, rep'⟩

/-- In every run, the server over the slabs answers what the server over the typed store answers, under a policy that does not see in
which order the occupied slots are listed. Strings are values on both sides, without their counters. -/
theorem run_rawServe (U : P.Unordered) (lib : Library S) (turns : List Turn) :
    (run (rawServe lib) turns (RawStore.new : RawStore P S)).map Prod.fst =
      (run (serve lib) turns (OxidArt.new : OxidArt P (Value S))).map Prod.fst := by
  have steps : ∀ (s : RawStore P S) (t : OxidArt P (Value S)) (turn : Turn), Represents s t → True →
      Agree (Alike Represents) (rawServe lib s turn) (serve lib t turn) := fun s t turn rep _ => rawServe_agree U lib s t turn rep
  exact (run_agree steps turns _ _ (represents_new U) (Meets.of_forall (fun _ _ _ => trivial) _)).replies

/-- The requests of a run with deadlines, answered over the slabs. -/
theorem run_rawServe_timelyRun : (run (rawServe wholeScores) timelyRun (RawStore.new : RawStore .lowest Int)).map Prod.fst =
    (run (serve wholeScores) timelyRun (OxidArt.new : OxidArt .lowest (Value Int))).map Prod.fst :=
  run_rawServe Policy.lowest_unordered wholeScores timelyRun

end Radixox.Server.Resp
