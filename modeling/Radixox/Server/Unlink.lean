import Radixox.Oxidart.Deletions
import Radixox.Server.DataCommands

/-!
# `DEL` and `UNLINK`

`UNLINK` goes through `deln_async` for each of its arguments, `DEL` through `del`. Both are
runs of deletions of the store whose replies are added up.
-/

namespace Radixox.Server.Resp
set_option autoImplicit false

open Radixox.Oxidart Radixox.Oxidart.OxidArt Radixox.Runs

variable {P : Policy} {S : Type} [Score S] {st : OxidArt P (Value S)} {order : HashOrder}

/-- The prefix an argument of `UNLINK` stands for: a star at the end is dropped. -/
def unlinkPrefix (arg : SharedByte) : SharedByte := if arg.getLast? = some 42 then arg.dropLast else arg

/-- The loop of `handle_unlink`, with no other task interleaved. -/
def unlinkFrom (count : Nat) : List SharedByte → OxidArt P (Value S) → Exec (Nat × OxidArt P (Value S))
  | [], st => .ok (count, st)
  | arg :: rest, st => do
    let (n, st) ← st.delnAsync YIELD_BUDGET (unlinkPrefix arg)
    unlinkFrom (count + n) rest st

def handleUnlink (args : List SharedByte) (st : OxidArt P (Value S)) : Answer P S := answer integer (unlinkFrom 0 args st)

/-! ## As runs of deletions -/

theorem unlinkFrom_eq_run (args : List SharedByte) : ∀ (count : Nat) (st : OxidArt P (Value S)),
    unlinkFrom count args st = (run execDeletion (args.map fun arg => .delnAsync (unlinkPrefix arg)) st).map fun p =>
      (count + totalHits p.1, p.2) := by
  induction args with
  | nil => exact fun _ _ => rfl
  | cons arg rest ih =>
    intro count st
    simp only [unlinkFrom, List.map_cons, run, execDeletion, bind, Except.bind]
    cases st.delnAsync YIELD_BUDGET (unlinkPrefix arg) with
    | error e => rfl
    | ok p =>
      simp only [Except.map, ih]
      cases run execDeletion (rest.map fun arg => .delnAsync (unlinkPrefix arg)) p.2 with
      | error e => rfl
      | ok q => simp only [pure, Except.pure, totalHits, List.map_cons, List.sum_cons, DeletionReply.hits, Nat.add_assoc]

theorem forEach_del_eq_run (args : List SharedByte) : ∀ st : OxidArt P (Value S),
    (forEach OxidArt.del args st).map (fun p => (p.1.countP Option.isSome, p.2)) =
      (run execDeletion (args.map .del) st).map fun p => (totalHits p.1, p.2) := by
  induction args with
  | nil => exact fun _ => rfl
  | cons key rest ih =>
    intro st
    simp only [forEach, List.map_cons, run, execDeletion, bind, Except.bind]
    cases st.del key with
    | error e => rfl
    | ok p =>
      have later := congrArg (Except.map fun q => (q.1 + (if p.1.isSome then 1 else 0), q.2)) (ih p.2)
      simp only [Except.map] at later ⊢
      cases first : forEach OxidArt.del rest p.2 with
      | error e =>
        rw [first] at later
        cases second : run execDeletion (rest.map .del) p.2 with
        | error e' => rw [second] at later; exact congrArg Except.error (Except.error.inj later)
        | ok q => rw [second] at later; cases later
      | ok vals =>
        rw [first] at later
        cases second : run execDeletion (rest.map .del) p.2 with
        | error e => rw [second] at later; cases later
        | ok q =>
          rw [second] at later
          simp only [pure, Except.pure, totalHits, List.map_cons, List.sum_cons, DeletionReply.hits, List.countP_cons]
          rw [Nat.add_comm (if p.1.isSome then 1 else 0)]
          exact later

theorem handleUnlink_eq_run (args : List SharedByte) (st : OxidArt P (Value S)) :
    handleUnlink args st = (run execDeletion (args.map fun arg => .delnAsync (unlinkPrefix arg)) st).map fun p =>
      (integer (totalHits p.1), p.2) := by
  rw [handleUnlink, answer, unlinkFrom_eq_run]
  cases run execDeletion (args.map fun arg => .delnAsync (unlinkPrefix arg)) st with
  | error e => rfl
  | ok p => simp only [Except.map, Nat.zero_add]

theorem cmdDel_eq_run {args : List SharedByte} (given : args ≠ []) (st : OxidArt P (Value S)) :
    cmdDel args st = (run execDeletion (args.map .del) st).map fun p => (integer (totalHits p.1), p.2) := by
  have some' : args.isEmpty = false := by simpa using given
  have counted := congrArg (Except.map fun p => (integer p.1, p.2)) (forEach_del_eq_run args st)
  rw [cmdDel, countHits, some', if_neg Bool.false_ne_true]
  calc answer (fun vals => integer (vals.countP Option.isSome)) (forEach OxidArt.del args st)
      = ((forEach OxidArt.del args st).map fun p => (p.1.countP Option.isSome, p.2)).map fun p => (integer p.1, p.2) := by
        cases forEach OxidArt.del args st <;> rfl
    _ = ((run execDeletion (args.map .del) st).map fun p => (totalHits p.1, p.2)).map fun p => (integer p.1, p.2) := counted
    _ = _ := by cases run execDeletion (args.map .del) st <;> rfl

/-! ## Expired entries -/

/-- `DEL` and `UNLINK` add up the replies of a run of deletions, and in every such run each deletion counts what a reader
sees exactly when none of them meets an entry that has expired and is not yet collected. -/
theorem deletions_count_live_iff (reached : Reachable order st) :
    (∀ args : List SharedByte, args ≠ [] →
      cmdDel args st = (run execDeletion (args.map .del) st).map fun p => (integer (totalHits p.1), p.2)) ∧
    (∀ args : List SharedByte, handleUnlink args st =
      (run execDeletion (args.map fun arg => .delnAsync (unlinkPrefix arg)) st).map fun p => (integer (totalHits p.1), p.2)) ∧
    ∀ ds : List Deletion, Meets execDeletion CountsLive ds st ↔ Meets execDeletion (fun st d => ¬ st.MeetsExpired d) ds st :=
  ⟨fun _ given => cmdDel_eq_run given st, fun args => handleUnlink_eq_run args st,
    fun ds => meets_countsLive_iff ds (.inl reached.isSound)⟩

/-- A live key next to an expired one: deleting the live key counts it. -/
theorem deletions_count_live_iff_twoKeys : ∃ replies st,
    run (exec .stored) [.tree (.set [97] (.int 1)), .tree (.setTtl [107] 5 (.int 2)), .tree (.setNow 10)]
      (new : OxidArt .lowest (Value Int)) = .ok (replies, st) ∧
    Meets execDeletion CountsLive [.del [97]] st := by
  have sound : Meets (exec .stored) (fun st c => c.Sound st) [.tree (.set [97] (.int 1)), .tree (.setTtl [107] 5 (.int 2)),
    .tree (.setNow 10)] (new : OxidArt .lowest (Value Int)) := by decide +kernel
  refine ⟨_, _, rfl, ((deletions_count_live_iff (.run .refl sound rfl)).2.2 [.del [97]]).2 ⟨?_, trivial⟩⟩
  rintro ⟨k, rfl, -, dead⟩
  cases dead

/-- An expired key that nothing has collected: `DEL` and `UNLINK` count it, and so does `deln`. -/
theorem expired_key_counted : ∃ replies st,
    run (exec .stored) [.tree (.setTtl [107] 5 (.int 2)), .tree (.setNow 10)] (new : OxidArt .lowest (Value Int)) =
      .ok (replies, st) ∧ Reachable .stored st ∧ st.live [107] = none ∧
    (cmdDel [[107]] st).map Prod.fst = .ok (.integer 1) ∧ (handleUnlink [[107]] st).map Prod.fst = .ok (.integer 1) ∧
    (st.deln [107]).map Prod.fst = .ok 1 ∧ ¬ st.CountsLive (.del [107]) := by
  have sound : Meets (exec .stored) (fun st c => c.Sound st) [.tree (.setTtl [107] 5 (.int 2)), .tree (.setNow 10)]
    (new : OxidArt .lowest (Value Int)) := by decide +kernel
  refine ⟨_, _, rfl, .run .refl sound rfl, rfl, rfl, rfl, rfl, ?_⟩
  rintro ⟨reply, st', ran, rfl⟩
  cases ran

/-! ## Plain keys -/

/-- The loops of `DEL` and `UNLINK` on the same keys count the same and leave the same live keys. -/
def Agree (keys : List SharedByte) (st : OxidArt P (Value S)) : Prop :=
  ∃ vals st₁ st₂, forEach OxidArt.del keys st = .ok (vals, st₁) ∧ unlinkFrom 0 keys st = .ok (vals.countP Option.isSome, st₂) ∧
    st₁.live = st₂.live

/-- Where the loops agree, so do the commands: one reply, and the same live keys. -/
theorem Agree.replies {keys : List SharedByte} (agree : Agree keys st) (given : keys ≠ []) :
    ∃ frame st₁ st₂, cmdDel keys st = .ok (frame, st₁) ∧ handleUnlink keys st = .ok (frame, st₂) ∧ st₁.live = st₂.live := by
  obtain ⟨vals, st₁, st₂, dels, unlinks, same⟩ := agree
  have some' : keys.isEmpty = false := by simpa using given
  refine ⟨integer (vals.countP Option.isSome), st₁, st₂, ?_, ?_, same⟩
  · rw [cmdDel, countHits, some', if_neg Bool.false_ne_true, dels]
    rfl
  · rw [handleUnlink, unlinks]
    rfl

/-- Every key with an entry that has a listed key as a prefix is itself listed. If the empty key is listed, it has no entry,
and deleting it moves no other key. -/
def NamesAll (keys : List SharedByte) (st : OxidArt P (Value S)) : Prop :=
  (∀ k, (st.entry k).isSome = true → (∃ p ∈ keys, p <+: k) → k ∈ keys) ∧
    ([] ∈ keys → st.entry [] = none ∧ Meets execDeletion (fun st d => d = .del [] → ¬ st.Absorbs) (keys.map .del) st)

theorem map_unlinkPrefix {keys : List SharedByte} (plain : ∀ k ∈ keys, k.getLast? ≠ some 42) :
    (keys.map fun k => Deletion.delnAsync (unlinkPrefix k)) = keys.map .delnAsync := by
  refine List.map_congr_left fun k member => ?_
  rw [unlinkPrefix, if_neg (plain k member)]

/-- Without the empty key, no deletion can move a key. -/
theorem meets_calm {keys : List SharedByte} (inner : [] ∉ keys) : ∀ st : OxidArt P (Value S),
    Meets execDeletion (fun st d => d = .del [] → ¬ st.Absorbs) (keys.map .del) st := by
  refine Meets.of_forall fun d member st same => ?_
  obtain ⟨k, listed, rfl⟩ := List.mem_map.1 member
  exact absurd (Deletion.del.inj same ▸ listed) inner

/-- What both loops do when no deletion moves a key. -/
theorem both_loops (sound : IsSound st) {keys : List SharedByte} (plain : ∀ k ∈ keys, k.getLast? ≠ some 42)
    (calm : Meets execDeletion (fun st d => d = .del [] → ¬ st.Absorbs) (keys.map .del) st) {E : Finset SharedByte}
    (mem : ∀ k, k ∈ E ↔ (st.entry k).isSome = true) :
    ∃ vals st₁ st₂ n, forEach OxidArt.del keys st = .ok (vals, st₁) ∧ unlinkFrom 0 keys st = .ok (n, st₂) ∧
      st₁.now = st.now ∧ st₂.now = st.now ∧ (st₁.entry = fun k => if k ∈ keys then none else st.entry k) ∧
      (st₂.entry = fun k => if k ≠ [] ∧ ∃ p ∈ keys, p <+: k then none else st.entry k) ∧
      vals.countP Option.isSome = (E.filter (· ∈ keys)).card ∧
      n = (E.filter fun k => k ≠ [] ∧ ∃ p ∈ keys, p <+: k).card + if (st.live []).isSome then keys.count [] else 0 := by
  obtain ⟨replies₁, st₁, run₁, now₁, entries₁, count₁⟩ := run_del keys sound calm
  obtain ⟨replies₂, st₂, run₂, now₂, entries₂, count₂⟩ := run_delnAsync keys (.inl sound)
  have dels := forEach_del_eq_run keys st
  rw [run₁] at dels
  cases loop : forEach OxidArt.del keys st with
  | error e =>
    rw [loop] at dels
    cases dels
  | ok p =>
    obtain ⟨vals, st'⟩ := p
    rw [loop] at dels
    obtain ⟨hits, rfl⟩ := Prod.mk.inj (Except.ok.inj dels)
    refine ⟨vals, st', st₂, totalHits replies₂, rfl, ?_, now₁, now₂, entries₁, entries₂, hits.trans (count₁ E mem), count₂ E mem⟩
    rw [unlinkFrom_eq_run, map_unlinkPrefix plain, run₂]
    simp only [Except.map, Nat.zero_add]

/-- `UNLINK` agrees with `DEL` when every key it takes with a prefix is listed, and, on lists without the empty
key, only then. -/
theorem unlink_agrees_iff (reached : Reachable order st) (keys : List SharedByte) (plain : ∀ k ∈ keys, k.getLast? ≠ some 42) :
    (NamesAll keys st → Agree keys st) ∧ ([] ∉ keys → Agree keys st → NamesAll keys st) := by
  obtain ⟨path, I⟩ := reached.isSound
  obtain ⟨E, mem⟩ := I.exists_keys
  constructor
  · rintro ⟨all, top⟩
    have calm : Meets execDeletion (fun st d => d = .del [] → ¬ st.Absorbs) (keys.map .del) st := by
      by_cases listed : [] ∈ keys
      · exact (top listed).2
      · exact meets_calm listed st
    obtain ⟨vals, st₁, st₂, n, dels, unlinks, now₁, now₂, entries₁, entries₂, count₁, count₂⟩ :=
      both_loops ⟨path, I⟩ plain calm mem
    -- On keys with an entry, being listed and having a listed prefix is the same.
    have same : ∀ k, (st.entry k).isSome = true → (k ∈ keys ↔ k ≠ [] ∧ ∃ p ∈ keys, p <+: k) := by
      intro k held
      refine ⟨fun listed => ⟨?_, k, listed, List.prefix_refl k⟩, fun both => all k held both.2⟩
      rintro rfl
      rw [(top listed).1] at held
      cases held
    have extra : (if (st.live []).isSome then keys.count [] else 0) = 0 := by
      by_cases listed : [] ∈ keys
      · rw [live, (top listed).1]
        rfl
      · rw [List.count_eq_zero.2 listed, ite_self]
    have counts : vals.countP Option.isSome = n := by
      rw [count₁, count₂, extra, Nat.add_zero]
      congr 1
      exact Finset.filter_congr fun k member => same k ((mem k).1 member)
    refine ⟨vals, st₁, st₂, dels, counts ▸ unlinks, ?_⟩
    funext k
    rw [live, live, now₁, now₂, entries₁, entries₂]
    cases held : st.entry k with
    | none => simp only [held, ite_self]
    | some c =>
      have iff := same k (by rw [held]; rfl)
      simp only [iff]
  · rintro inner ⟨vals, st₁, st₂, dels, unlinks, -⟩
    obtain ⟨vals', st₁', st₂', n, dels', unlinks', -, -, -, -, count₁, count₂⟩ :=
      both_loops ⟨path, I⟩ plain (meets_calm inner st) mem
    obtain ⟨rfl, rfl⟩ := Prod.mk.inj (Except.ok.inj (dels.symm.trans dels'))
    obtain ⟨rfl, rfl⟩ := Prod.mk.inj (Except.ok.inj (unlinks.symm.trans unlinks'))
    rw [count₁, List.count_eq_zero.2 inner, ite_self, Nat.add_zero] at count₂
    have sub : E.filter (· ∈ keys) ⊆ E.filter fun k => k ≠ [] ∧ ∃ p ∈ keys, p <+: k := by
      intro k member
      obtain ⟨held, listed⟩ := Finset.mem_filter.1 member
      exact Finset.mem_filter.2 ⟨held, fun empty => inner (empty ▸ listed), k, listed, List.prefix_refl k⟩
    have equal := Finset.eq_of_subset_of_card_le sub (Nat.le_of_eq count₂.symm)
    refine ⟨fun k held below => ?_, fun listed => absurd listed inner⟩
    have nonempty : k ≠ [] := by
      rintro rfl
      obtain ⟨p, listed, short⟩ := below
      exact inner (List.prefix_nil.1 short ▸ listed)
    have member : k ∈ E.filter (· ∈ keys) := equal ▸ Finset.mem_filter.2 ⟨(mem k).2 held, nonempty, below⟩
    exact (Finset.mem_filter.1 member).2

/-- Two keys of which neither extends the other. -/
theorem unlink_agrees_iff_twoKeys : ∃ replies st,
    run (exec .stored) [.tree (.set [97] (.int 1)), .tree (.set [98] (.int 2))] (new : OxidArt .lowest (Value Int)) =
      .ok (replies, st) ∧ Agree [[97]] st ∧ NamesAll [[97]] st := by
  have sound : Meets (exec .stored) (fun st c => c.Sound st) [.tree (.set [97] (.int 1)), .tree (.set [98] (.int 2))]
    (new : OxidArt .lowest (Value Int)) := by decide +kernel
  refine ⟨_, _, rfl, ⟨_, _, _, rfl, rfl, rfl⟩, ?_⟩
  exact (unlink_agrees_iff (.run .refl sound rfl) [[97]] (by decide)).2 (by decide) ⟨_, _, _, rfl, rfl, rfl⟩

/-- A key and a longer one: `UNLINK` of the first takes both. -/
theorem unlink_takes_longer_key : ∃ replies st,
    run (exec .stored) [.tree (.set [97] (.int 1)), .tree (.set [97, 98] (.int 2))] (new : OxidArt .lowest (Value Int)) =
      .ok (replies, st) ∧ Reachable .stored st ∧ (cmdDel [[97]] st).map Prod.fst = .ok (.integer 1) ∧
    (handleUnlink [[97]] st).map Prod.fst = .ok (.integer 2) ∧ ¬ Agree [[97]] st := by
  have sound : Meets (exec .stored) (fun st c => c.Sound st) [.tree (.set [97] (.int 1)), .tree (.set [97, 98] (.int 2))]
    (new : OxidArt .lowest (Value Int)) := by decide +kernel
  refine ⟨_, _, rfl, .run .refl sound rfl, rfl, rfl, ?_⟩
  rintro ⟨vals, st₁, st₂, dels, unlinks, -⟩
  cases dels
  cases unlinks

end Radixox.Server.Resp
