import Radixox.Oxidart.Frames

/-!
# Entries that have expired

An expired entry stays in its node until something collects it. No operation on other keys, no lookup and no `expire` makes
it visible again; `persist`, which does not look at the clock, does.
-/

namespace Radixox.Oxidart
set_option autoImplicit false
open Radixox.Runs OxidArt

section Typed

variable {P : Policy} {S : Type} [Score S]

/-- The operations that look at one key or change its lifetime. -/
def Command.Watches (key : Bytes) : Command S → Prop
  | .tree (.get k) | .tree (.getTtl k) | .tree (.expire k _) | .tree (.persist k) => k = key
  | _ => False

/-- A command that does not write the key, in a time that does not go back: `persist` does not meet an expired entry, and no
command on the empty key makes the root absorb a child. -/
structure Command.Harmless (key : Bytes) (st : OxidArt P (Value S)) (c : Command S) : Prop where
  sound : c.Sound st
  calm : c.Clears st → ¬ st.Absorbs
  forward : st.now ≤ c.clock st
  about : c.Names key → c.Watches key
  unlapsed : c = .tree (.persist key) → ¬ st.Lapsed key

end Typed

namespace OxidArt

variable {P : Policy} {V : Type} {S : Type} [Score S] {order : HashOrder} {key : Bytes}

theorem expired_mono {now later : Nat} {e : Option Nat} (forward : now ≤ later) (past : expired now e = true) :
    expired later e = true := by
  cases e with
  | none => cases past
  | some exp =>
    simp only [expired, Option.any_some, decide_eq_true_eq] at past ⊢
    omega

/-- A key that is not live has no entry, or an expired one. -/
theorem live_eq_none_iff {st : OxidArt P V} :
    st.live key = none ↔ ∀ v e, st.entry key = some (v, e) → expired st.now e = true := by
  rw [live, liveAt]
  cases st.entry key with
  | none => simp
  | some held =>
    obtain ⟨v, e⟩ := held
    cases past : expired st.now e <;> simp [past]

/-- Time alone revives nothing. -/
theorem live_none_of_entry {st st' : OxidArt P V} (dead : st.live key = none) (forward : st.now ≤ st'.now)
    (entries : st'.entry key = st.entry key ∨ st'.entry key = none) : st'.live key = none := by
  rw [live_eq_none_iff] at dead ⊢
  intro v e held
  rcases entries with same | gone
  · exact expired_mono forward (dead v e (same ▸ held))
  · exact absurd (gone.symm.trans held) (by simp)

/-- A key that is not live is not live after a harmless command. -/
theorem exec_stays_dead {st st' : OxidArt P (Value S)} (sound : IsSound st) (dead : st.live key = none) {c : Command S}
    (harmless : c.Harmless key st) {reply : Reply S} (ran : exec order st c = .ok (reply, st')) :
    IsSound st' ∧ st'.live key = none := by
  obtain ⟨sound', now, others⟩ := exec_frame sound harmless.sound harmless.calm ran
  refine ⟨sound', live_none_of_entry dead (now ▸ harmless.forward) ?_⟩
  by_cases named : c.Names key
  · have sound₀ := sound
    obtain ⟨path, I⟩ := sound
    have watched := harmless.about named
    have done : ∀ (op : TreeOp (Value S)) (r : TreeReply (Value S)) {st₁ : OxidArt P (Value S)}, c = .tree op →
        st.execTree op = .ok (r, st₁) → st₁ = st' := by
      intro op r st₁ same run
      rw [same, exec, wrapReply, run] at ran
      exact (Prod.mk.inj (Except.ok.inj ran)).2
    cases c with
    | tree op =>
      cases op with
      | get k =>
        obtain rfl : k = key := watched
        obtain ⟨v, st₁, run, -, collects⟩ := get_keeps I k
        have sheds := collects.sheds I fun empty past => harmless.calm ⟨empty, past⟩
        obtain rfl := done (.get k) (.value v) rfl (by simp only [execTree, run, bind, Except.bind]; rfl)
        exact (sheds k).imp id And.left
      | getTtl k =>
        cases run : st.getTtl k with
        | error e =>
          simp only [exec, wrapReply, execTree, run, bind, Except.bind] at ran
          cases ran
        | ok t =>
          obtain rfl := done (.getTtl k) (.ttl t) rfl (by simp only [execTree, run, bind, Except.bind]; rfl)
          exact .inl rfl
      | expire k ttl =>
        obtain rfl : k = key := watched
        obtain ⟨b, st₁, run, -, entries⟩ := expire_ok k I (fun _ => True) harmless.sound
        obtain rfl := done (.expire k ttl) (.flag b) rfl (by simp only [execTree, run, bind, Except.bind]; rfl)
        rw [live_eq_none_iff] at dead
        left
        rw [entries]
        cases held : st.entry k with
        | none => exact held
        | some c =>
          dsimp only
          rw [if_pos (dead c.1 c.2 held), held]
      | persist k =>
        obtain rfl : k = key := watched
        obtain ⟨b, st₁, run, -, entries⟩ := persist_ok I (fun _ => True) k
        obtain rfl := done (.persist k) (.flag b) rfl (by simp only [execTree, run, bind, Except.bind]; rfl)
        left
        rw [entries]
        cases held : st.entry k with
        | none => exact held
        | some c => exact absurd ⟨c.1, c.2, held, live_eq_none_iff.1 dead c.1 c.2 held⟩ (harmless.unlapsed rfl)
      | set | setTtl | getn | del | deln | setNow | evict => exact absurd watched (fun h => h)
    | _ => exact absurd watched (fun h => h)
  · exact (others key named).imp id And.left

/-- `persist` is honest about exactly the keys that store no expired entry. Where it does not meet one, an expired entry
stays invisible in every run that does not write its key. -/
theorem expired_stays_gone {st : OxidArt P (Value S)} (reached : Reachable order st) (key : Bytes) :
    ((∃ b st', st.persist key = .ok (b, st') ∧ PersistHonest st key b st') ↔ ¬ st.Lapsed key) ∧
    (st.Lapsed key → ∀ st', Reaches (exec order) (fun s c => c.Harmless key s) st st' → replyOf (st'.get key) = .ok none) := by
  refine ⟨persist_honest_iff reached.isSound.rooted key, ?_⟩
  rintro ⟨v, e, held, past⟩ st' later
  have dead : st.live key = none := by rw [live, held, liveAt, Option.filter_some_neg (by simp [past])]
  obtain ⟨⟨path, I⟩, dead'⟩ : IsSound st' ∧ st'.live key = none :=
    later.invariant ⟨reached.isSound, dead⟩ fun _ _ _ _ before harmless ran => exec_stays_dead before.1 before.2 harmless ran
  rw [get_reply I, dead']
  rfl

/-- A lifetime runs out, `expire` tries to prolong it, and another key is written below. -/
theorem expired_stays_gone_prolonged : ∃ replies st replies' st',
    run (exec .stored) [.tree (.setTtl [97] 5 (.int 1)), .tree (.setNow 9)] (new : OxidArt .lowest (Value Int)) = .ok (replies, st) ∧
    run (exec .stored) [.tree (.expire [97] 60), .tree (.set [97, 98] (.int 2))] st = .ok (replies', st') ∧
    replyOf (st'.get [97]) = .ok none := by
  have sound : Meets (exec .stored) (fun st c => c.Sound st) [.tree (.setTtl [97] 5 (.int 1)), .tree (.setNow 9)]
    (new : OxidArt .lowest (Value Int)) := by decide +kernel
  refine ⟨_, _, _, _, rfl, rfl, (expired_stays_gone (.run .refl sound rfl) [97]).2 ⟨.int 1, some 5, rfl, rfl⟩ _ ?_⟩
  refine .run .refl (show Meets (exec .stored) (fun s c => Command.Harmless [97] s c)
    [.tree (.expire [97] 60), .tree (.set [97, 98] (.int 2))] _ from .cons ?_ fun _ _ _ => .cons ?_ fun _ _ _ => trivial) rfl
  · exact ⟨by decide +kernel, fun h => absurd h (fun h => h), Nat.le_refl _, fun _ => rfl, fun h => by cases h⟩
  · exact ⟨show KeyOk [97, 98] by decide +kernel, fun h => absurd h (fun h => h), Nat.le_refl _,
      fun h => by simp [Command.Names] at h, fun h => by cases h⟩

/-- `persist` brings an expired value back. -/
theorem persist_revives : ∃ replies st,
    run (exec .stored) [.tree (.setTtl [97] 5 (.int 1)), .tree (.setNow 9)] (new : OxidArt .lowest (Value Int)) = .ok (replies, st) ∧
    Reachable .stored st ∧ replyOf (st.get [97]) = .ok none ∧ st.getTtl [97] = .ok .keyNotExist ∧
    ∃ st', st.persist [97] = .ok (true, st') ∧ ¬ PersistHonest st [97] true st' ∧ replyOf (st'.get [97]) = .ok (some (.int 1)) := by
  have sound : Meets (exec .stored) (fun st c => c.Sound st) [.tree (.setTtl [97] 5 (.int 1)), .tree (.setNow 9)]
    (new : OxidArt .lowest (Value Int)) := by decide +kernel
  refine ⟨_, _, rfl, .run .refl sound rfl, rfl, rfl, _, rfl, fun honest => ?_, rfl⟩
  obtain ⟨v, e, held⟩ := honest.finite.1 rfl
  cases held

end OxidArt

end Radixox.Oxidart
