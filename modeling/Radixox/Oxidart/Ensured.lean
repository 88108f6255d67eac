import Radixox.Oxidart.Deadlines
import Radixox.Oxidart.Enumerations

/-!
# `ensure_key` is transparent

`ensure_key` appends an empty leaf or splits a node, and nobody can tell from the entries: they are those from before, and the node it
makes is where a traversal to the key now ends. A second call finds that node and returns at once.
-/

namespace Radixox.Oxidart
set_option autoImplicit false
open Radixox.Runs Radixox.Outcomes

namespace OxidArt

variable {P : Policy} {V : Type} {st st' : OxidArt P V} {cut : List Nat} {path : Nat → Option Bytes} {key : Bytes} {i : Nat}

/-- Where a traversal ends, `ensure_key` ends too. -/
theorem ensureKey_of_traverse (target : st.traverseToKey key = some i) : st.ensureKey key = .ok (i, st) := by
  unfold traverseToKey at target
  unfold ensureKey
  cases empty : key.isEmpty with
  | true =>
    rw [empty, if_pos rfl] at target
    rw [if_pos rfl, Option.some.inj target]
  | false =>
    rw [empty, if_neg Bool.false_ne_true] at target
    rw [if_neg Bool.false_ne_true]
    cases outcome : st.walk key with
    | found idx parent radix keyPath =>
      rw [outcome] at target
      rw [← Option.some.inj target]
    | partialAt | noChild | gone =>
      rw [outcome] at target
      cases target

/-- The status of a live key depends on its expiry and the clock alone. -/
theorem IsSound.getTtl_live (sound : IsSound st) {v : V} {exp : Option Nat} (held : st.live key = some (v, exp)) :
    st.getTtl key = .ok ((exp.map fun e => .keyWithTtl (e - st.now)).getD .keyWithoutTtl) := by
  cases target : st.traverseToKey key with
  | none => simp [live, entry_of_traverse_none target, liveAt] at held
  | some i =>
    obtain ⟨n, here⟩ := sound.rooted.occupied target
    rw [here.live] at held
    rw [here.getTtl]
    split at held
    next => cases held
    next current =>
      obtain ⟨_, -, same⟩ := Option.map_eq_some_iff.1 held
      obtain ⟨-, rfl⟩ := Prod.mk.inj same
      rw [if_neg current]
      cases n.expAndRadix.exp <;> rfl

section Typed

variable {S : Type} [Score S] {st : OxidArt P (Value S)} {order : HashOrder}

/-- `ensure_key` keeps every entry and every answer about a live key, its node is the one that a traversal finds, and a second
call changes nothing. -/
theorem ensureKey_transparent (reached : PlainReachable order st) (plain : PlainKey key) :
    ∃ i st', st.ensureKey key = .ok (i, st') ∧ st'.now = st.now ∧ st'.entry = st.entry ∧
      (∀ k, st.live k ≠ none → replyOf (st'.get k) = replyOf (st.get k) ∧ st'.getTtl k = st.getTtl k) ∧
      (∃ n, st'.tryGetNode i = some n) ∧ st'.traverseToKey key = some i ∧ st'.ensureKey key = .ok (i, st') := by
  obtain ⟨path, I⟩ := reached.settled.sound
  obtain ⟨i, st', path', run, step, here, entries, -⟩ := ensureKey_ok I (fun _ => True) plain.2
  have now : st'.now = st.now := step.stays.now
  have lives : st'.live = st.live := by
    funext k
    rw [live, live, now, entries]
  have target : st'.traverseToKey key = some i := (traverseToKey_iff step.inv.forest).2 here
  refine ⟨i, st', run, now, entries, fun k held => ⟨?_, ?_⟩, ?_, target, ensureKey_of_traverse target⟩
  · rw [get_reply step.inv, get_reply I, lives]
  · obtain ⟨⟨v, exp⟩, held⟩ := Option.ne_none_iff_exists'.1 held
    rw [IsSound.getTtl_live ⟨path', step.inv⟩ (lives ▸ held), IsSound.getTtl_live ⟨path, I⟩ held, now]
  · obtain ⟨n, at'⟩ := (IsSound.rooted ⟨path', step.inv⟩).occupied target
    exact ⟨n, at'.found⟩

/-- A key that parts from two others inside their edge. -/
theorem ensureKey_transparent_sharedEdge : ∃ replies st,
    run (exec .stored) sharedEdge (new : OxidArt .lowest (Value Int)) = .ok (replies, st) ∧
    ∃ i st', st.ensureKey [97, 120] = .ok (i, st') ∧ st'.now = st.now ∧ st'.entry = st.entry ∧
      (∀ k, st.live k ≠ none → replyOf (st'.get k) = replyOf (st.get k) ∧ st'.getTtl k = st.getTtl k) ∧
      (∃ n, st'.tryGetNode i = some n) ∧ st'.traverseToKey [97, 120] = some i ∧ st'.ensureKey [97, 120] = .ok (i, st') := by
  obtain ⟨replies, st, ran, reached⟩ := plainReachable_sharedEdge
  exact ⟨replies, st, ran, ensureKey_transparent reached (by decide +kernel)⟩

end Typed

end OxidArt

end Radixox.Oxidart
