import Radixox.Oxidart.EmptyKey
import Radixox.Oxidart.Horizon
import Radixox.Oxidart.Reference
import Radixox.Oxidart.Regex

/-!
# Enumerations

Three scans list keys: `getn` recursively, `getn_async` in chunks with its own stack, `getn_regex` along an automaton.
While all keys are plain, the root keeps an empty compression, and each of the three lists the live keys it is asked for,
each once. Nothing is assumed of expiries: a write beyond the field does not return.
-/

namespace Radixox.Oxidart
set_option autoImplicit false
open Radixox.Runs Radixox.Outcomes

section Typed

variable {S : Type} [Score S]

/-- The operations over plain keys, at any clock and with any expiry. -/
def Command.OverPlain : Command S → Prop
  | .tree (.set key _) | .tree (.setTtl key _ _) | .tree (.expire key _) | .tree (.get key) | .tree (.del key)
  | .incrby key _ => PlainKey key
  | .tree (.deln pfx) => pfx ≠ []
  | .tree (.setNow _) => True
  | _ => False

instance (c : Command S) : Decidable c.OverPlain := by
  unfold Command.OverPlain
  split <;> infer_instance

end Typed

namespace OxidArt

variable {P : Policy} {V : Type} {st st' : OxidArt P V} {path : Nat → Option Bytes}

/-- A sound tree whose root has no compression. -/
structure Settled (st : OxidArt P V) : Prop where
  sound : IsSound st
  top : st.graph.label st.rootIdx = some []

theorem settled_new : Settled (new : OxidArt P V) := ⟨refines_new.sound, refines_new.top⟩

theorem Settled.step (settled : Settled st) {path' : Nat → Option Bytes} {K : Bytes → Prop}
    (step : Step K st [] path st' path') : Settled st' := by
  refine ⟨step.keeps.isSound, ?_⟩
  rw [step.stays.rootIdx, step.top]
  exact settled.top

theorem Settled.setNow (settled : Settled st) (now : Nat) : Settled (st.setNow now) := by
  obtain ⟨path, I⟩ := settled.sound
  exact ⟨⟨path, I.setNow now⟩, settled.top⟩

/-- A write of a plain key that returns is one whose expiry fits. -/
theorem Settled.setInternal (settled : Settled st) {key : Bytes} (plain : PlainKey key) {exp : Nat} (word : exp < 2 ^ 64)
    {v : V} (ran : st.setInternal key exp v = .ok st') : Settled st' := by
  obtain ⟨path, I⟩ := settled.sound
  rcases Nat.lt_or_ge exp (2 ^ 56) with small | large
  · obtain ⟨st₁, path₁, run, step, -⟩ := setInternal_ok I (fun _ => True) plain.2 small v
    obtain rfl := Except.ok.inj (run.symm.trans ran)
    exact settled.step step
  · exact (Yields.of_ok (setInternal_large word large st key v) ran).elim

theorem Settled.execTree {S : Type} [Score S] {st st' : OxidArt P (Value S)} (settled : Settled st) {op : TreeOp (Value S)}
    (plain : (Command.tree op).OverPlain) {reply : TreeReply (Value S)} (ran : st.execTree op = .ok (reply, st')) :
    Settled st' := by
  obtain ⟨path, I⟩ := settled.sound
  cases op with
  | set key v =>
    obtain ⟨st₁, run, same⟩ := exists_of_bind ran
    obtain ⟨-, rfl⟩ := Prod.mk.inj (Except.ok.inj same)
    exact settled.setInternal plain (by decide : ExpAndRadix.noExp < 2 ^ 64) run
  | setTtl key ttl v =>
    obtain ⟨st₁, run, same⟩ := exists_of_bind ran
    obtain ⟨-, rfl⟩ := Prod.mk.inj (Except.ok.inj same)
    have word : saturatingAdd st.now ttl < 2 ^ 64 := by
      unfold saturatingAdd
      omega
    exact settled.setInternal plain word run
  | expire key ttl =>
    obtain ⟨⟨b, st₁⟩, run, same⟩ := exists_of_bind ran
    obtain ⟨-, rfl⟩ := Prod.mk.inj (Except.ok.inj same)
    exact settled.step (expire_steps I run)
  | get key =>
    obtain ⟨⟨v, st₁⟩, run, same⟩ := exists_of_bind ran
    obtain ⟨-, rfl⟩ := Prod.mk.inj (Except.ok.inj same)
    obtain ⟨st₂, path₂, run', step, -⟩ := get_ok I plain.1
    obtain ⟨-, rfl⟩ := Prod.mk.inj (Except.ok.inj (run.symm.trans run'))
    exact settled.step step
  | del key =>
    obtain ⟨⟨v, st₁⟩, run, same⟩ := exists_of_bind ran
    obtain ⟨-, rfl⟩ := Prod.mk.inj (Except.ok.inj same)
    obtain ⟨st₂, path₂, run', step, -⟩ := del_ok I plain.1
    obtain ⟨-, rfl⟩ := Prod.mk.inj (Except.ok.inj (run.symm.trans run'))
    exact settled.step step
  | deln pfx =>
    obtain ⟨⟨n, st₁⟩, run, same⟩ := exists_of_bind ran
    obtain ⟨-, rfl⟩ := Prod.mk.inj (Except.ok.inj same)
    obtain ⟨count, st₂, path₂, run', cut⟩ := deln_ok I plain
    obtain ⟨-, rfl⟩ := Prod.mk.inj (Except.ok.inj (run.symm.trans run'))
    exact settled.step cut.step
  | setNow now =>
    obtain ⟨-, rfl⟩ := Prod.mk.inj (Except.ok.inj ran)
    exact settled.setNow now
  | persist | getTtl | getn | evict => exact plain.elim

section Typed

variable {S : Type} [Score S] {st st' : OxidArt P (Value S)} {order : HashOrder}

theorem Settled.exec (settled : Settled st) {c : Command S} (plain : c.OverPlain) {reply : Reply S}
    (ran : exec order st c = .ok (reply, st')) : Settled st' := by
  cases c with
  | tree op =>
    cases run : st.execTree op with
    | error => simp only [OxidArt.exec, wrapReply, run] at ran; cases ran
    | ok p =>
      simp only [OxidArt.exec, wrapReply, run] at ran
      obtain ⟨-, rfl⟩ := Prod.mk.inj (Except.ok.inj ran)
      exact settled.execTree plain run
  | incrby key delta =>
    obtain ⟨path, I⟩ := settled.sound
    obtain ⟨st₁, path₁, run, step, -⟩ := incrby_ok I (fun _ => True) plain.2 delta
    simp only [OxidArt.exec, wrapReply, run] at ran
    obtain ⟨-, rfl⟩ := Prod.mk.inj (Except.ok.inj ran)
    exact settled.step step
  | _ => exact plain.elim

/-- A state that a run over plain keys leads to. -/
def PlainReachable (order : HashOrder) : OxidArt P (Value S) → Prop := Reaches (OxidArt.exec order) (fun _ c => c.OverPlain) new

theorem PlainReachable.settled (reached : PlainReachable order st) : Settled st :=
  reached.invariant settled_new fun _ _ _ _ settled plain ran => settled.exec plain ran

theorem PlainReachable.of_run {commands : List (Command S)} {replies : List (Reply S)} (plain : ∀ c ∈ commands, c.OverPlain)
    (ran : run (OxidArt.exec order) commands (new : OxidArt P (Value S)) = .ok (replies, st)) : PlainReachable order st :=
  Reaches.run .refl (.of_forall (fun c member _ => plain c member) _) ran

/-! ## The three scans -/

/-- `getn` lists the live keys with the prefix, each once, with the value that `get` gives. -/
theorem getn_lists_live (reached : PlainReachable order st) (pfx : Bytes) :
    ∃ pairs, st.getn pfx = .ok pairs ∧ (pairs.map Prod.fst).Nodup ∧
      ∀ k v, (k, v) ∈ pairs ↔ pfx <+: k ∧ replyOf (st.get k) = .ok (some v) := by
  obtain ⟨⟨path, I⟩, top⟩ := reached.settled
  obtain ⟨root, found, bare⟩ := graph_label_iff.1 top
  obtain ⟨pairs, run, lists⟩ := getn_ok I pfx found
  have shown : (if pfx = [] then root.compression else []) = [] := by
    split
    · exact bare
    · rfl
  rw [shown] at lists
  refine ⟨pairs, run, lists.nodup, fun k v => ?_⟩
  rw [lists.mem, get_reply I, Except.ok.injEq]
  simp only [List.nil_append, exists_eq_left']

/-- Without interleaving, `getn_async` ends and finds the keys of `getn`, in some order. -/
theorem getnAsync_perm_getn (reached : PlainReachable order st) (pfx : Bytes) {budget : Nat} (positive : 0 < budget) :
    ∃ keys pairs, st.getnAsync budget pfx = .ok keys ∧ st.getn pfx = .ok pairs ∧ keys.Perm (pairs.map Prod.fst) := by
  obtain ⟨pairs, run, nodup, lists⟩ := getn_lists_live reached pfx
  obtain ⟨⟨path, I⟩, -⟩ := reached.settled
  obtain ⟨keys, ran, nodup', listed⟩ := getnAsync_ok I positive pfx
  refine ⟨keys, pairs, ran, run, (List.perm_ext_iff_of_nodup nodup' nodup).2 fun k => ?_⟩
  have shown : ∀ k v, (k, v) ∈ pairs ↔ (st.live k).map Prod.fst = some v ∧ pfx <+: k := by
    intro k v
    rw [lists, get_reply I, Except.ok.injEq, and_comm]
  rw [listed, mem_keys_of_lists shown, and_comm]

variable {σ : Type} {dfa : Dfa σ} {start : σ}

/-- Pruning loses nothing: the scan lists the live keys that the automaton accepts, each once, with the value that `get` gives. -/
theorem getnRegex_lists_accepted (reached : PlainReachable order st) {new : Bytes → Option (Dfa σ)} {pattern : Bytes}
    (built : new pattern = some dfa) (starts : dfa.startStateForward = some start) (prunes : dfa.Prunes) :
    ∃ pairs, st.getnRegex new pattern = .ok (.ok pairs) ∧ (pairs.map Prod.fst).Nodup ∧
      ∀ k v, (k, v) ∈ pairs ↔ replyOf (st.get k) = .ok (some v) ∧ dfa.accepts start k = true := by
  obtain ⟨⟨path, I⟩, top⟩ := reached.settled
  obtain ⟨pairs, run, nodup, listed⟩ := getnRegex_ok I top built starts prunes
  refine ⟨pairs, run, nodup, fun k v => ?_⟩
  rw [listed, get_reply I, Except.ok.injEq]

end Typed

/-! ## On one run -/

/-- Two keys that share an edge, and a third that has expired at its end. -/
def sharedEdge : List (Command Int) :=
  [.tree (.set [97, 98, 99] (.int 1)), .tree (.set [97, 98, 100] (.int 2)), .tree (.setTtl [97, 98] 5 (.int 3)),
    .tree (.setNow 6)]

theorem plainReachable_sharedEdge : ∃ replies st, run (exec .stored) sharedEdge (new : OxidArt .lowest (Value Int)) =
    .ok (replies, st) ∧ PlainReachable .stored st := by
  obtain ⟨⟨replies, st⟩, ran⟩ := exists_of_isOk (run (exec .stored) sharedEdge (new : OxidArt .lowest (Value Int)))
    (by decide +kernel)
  exact ⟨replies, st, ran, .of_run (by decide +kernel) ran⟩

theorem getn_lists_live_sharedEdge : ∃ replies st,
    run (exec .stored) sharedEdge (new : OxidArt .lowest (Value Int)) = .ok (replies, st) ∧
    ∃ pairs, st.getn [97] = .ok pairs ∧ (pairs.map Prod.fst).Nodup ∧
      ∀ k v, (k, v) ∈ pairs ↔ [97] <+: k ∧ replyOf (st.get k) = .ok (some v) := by
  obtain ⟨replies, st, ran, reached⟩ := plainReachable_sharedEdge
  exact ⟨replies, st, ran, getn_lists_live reached [97]⟩

theorem getnAsync_perm_getn_sharedEdge : ∃ replies st,
    run (exec .stored) sharedEdge (new : OxidArt .lowest (Value Int)) = .ok (replies, st) ∧
    ∃ keys pairs, st.getnAsync 1 [] = .ok keys ∧ st.getn [] = .ok pairs ∧ keys.Perm (pairs.map Prod.fst) := by
  obtain ⟨replies, st, ran, reached⟩ := plainReachable_sharedEdge
  exact ⟨replies, st, ran, getnAsync_perm_getn reached [] (by decide)⟩

/-- The automaton of `^a.*$`. -/
theorem getnRegex_lists_accepted_sharedEdge : ∃ replies st,
    run (exec .stored) sharedEdge (new : OxidArt .lowest (Value Int)) = .ok (replies, st) ∧
    ∃ pairs, st.getnRegex (fun _ => some (letterDfa true)) [] = .ok (.ok pairs) ∧ (pairs.map Prod.fst).Nodup ∧
      ∀ k v, (k, v) ∈ pairs ↔ replyOf (st.get k) = .ok (some v) ∧ (letterDfa true).accepts 0 k = true := by
  obtain ⟨replies, st, ran, reached⟩ := plainReachable_sharedEdge
  exact ⟨replies, st, ran, getnRegex_lists_accepted reached rfl rfl (letterDfa_prunes true)⟩

end OxidArt

end Radixox.Oxidart
