import Radixox.Oxidart.Meaning
import Radixox.Oxidart.Reference

/-!
# Creating containers

A writing command that finds nothing live makes the container in the node of its key, and
the node may be an old one: its expiry stays behind when a value is cleared. This
module says when the five creating commands act as on a key that never existed.
-/

namespace Radixox.Oxidart
set_option autoImplicit false
open Radixox.Runs OxidArt

section Given

variable {S : Type} [Score S]

/-- For the writing commands without a ttl: the key, the reply and the elements when the key is new. -/
def Command.given : Command S → Option (Bytes × Reply S × RefValue S)
  | .hset key fieldValues none => some (key, .added (.ok (countNew (fun _ => (none : Option Bytes)) (fieldValues.map Prod.fst))),
      .hash (overwrite (fun _ => none) fieldValues))
  | .hincrby key field increment => some (key, .integer (.ok increment),
      .hash (Function.update (fun _ => none) field (some (i64Text increment))))
  | .sadd key members none => some (key, .added (.ok (countNew (fun _ => (none : Option Unit)) members)),
      .set (overwrite (fun _ => none) (members.map fun m => (m, ()))))
  | .zadd key scoreMembers none => some (key, .added (.ok (countNew (fun _ => (none : Option S)) (scoreMembers.map Prod.snd))),
      .zset (overwrite (fun _ => none) (scoreMembers.map Prod.swap)))
  | .zincrby key increment member => some (key, .newScore (.ok increment),
      .zset (Function.update (fun _ => none) member (some increment)))
  | _ => none

end Given

namespace OxidArt

variable {P : Policy} {S : Type} [Score S] {st st' : OxidArt P (Value S)} {order : HashOrder}

/-- The key holds exactly the elements, without a TTL, and the other keys show what they showed. -/
def Created (st : OxidArt P (Value S)) (key : Bytes) (held : RefValue S) (st' : OxidArt P (Value S)) : Prop :=
  (∃ v, st'.live key = some (v, none) ∧ v.meaning = held) ∧ ∀ other, other ≠ key → st'.live other = st.live other

variable {C β α : Type} {cut : List Nat} {path : Nat → Option Bytes} {key : Bytes}

/-- A container is created as if the key were new exactly when its node carries no expiry. -/
theorem Changes.created_iff {k : Kind S C β} {change : C → Except TypeError (α × C)}
    {refChange : (Bytes → Option β) → Except TypeError (α × (Bytes → Option β))} (follows : Follows k change refChange)
    {run : Exec (Except TypeError α × OxidArt P (Value S))}
    (H : Changes st cut path key none k.view k.wrap k.new change run) (dead : st.live key = none) {a : α} {m : Bytes → Option β}
    (made : refChange (fun _ => none) = .ok (a, m)) :
    (∃ st', run = .ok (.ok a, st') ∧ Created st key (k.refWrap m) st') ↔ st.keyExp key = none := by
  have exp : st.madeExp none key = st.keyExp key := rfl
  cases past : expired st.now (st.keyExp key) with
  | true =>
    refine ⟨?_, fun none' => ?_⟩
    · rintro ⟨st', ran, -⟩
      rw [H.panics dead past] at ran
      cases ran
    · rw [none'] at past
      cases past
  | false =>
    obtain ⟨st₁, path₁, ran, step, entries⟩ := H.made (fun _ => True) dead past
    obtain ⟨agree, -⟩ := follows k.new k.ok_new
    rw [k.get_new, made] at agree
    cases outcome : change k.new with
    | error => rw [outcome] at agree; cases agree
    | ok p =>
      obtain ⟨b, c⟩ := p
      rw [outcome] at agree ran entries
      obtain ⟨rfl, rfl⟩ := Prod.mk.inj (Except.ok.inj agree)
      have shown := live_of_update step.stays.now entries
      have current : liveAt st.now (some (k.wrap c, st.keyExp key)) = some (k.wrap c, st.keyExp key) := by
        simp [liveAt, past]
      rw [exp, current] at shown
      constructor
      · rintro ⟨st', ran', ⟨v, live, -⟩, -⟩
        obtain ⟨-, rfl⟩ := Prod.mk.inj (Except.ok.inj (ran.symm.trans ran'))
        rw [shown, Function.update_self] at live
        exact (Prod.mk.inj (Option.some.inj live)).2
      · intro none'
        refine ⟨st₁, ran, ⟨k.wrap c, ?_, k.meaning_wrap c⟩, ?_⟩
        · rw [shown, Function.update_self, none']
        · intro other differ
          rw [shown, Function.update_of_ne differ]

/-- A reply of a wrapped call. -/
theorem wrapReply_iff (wrap : Except TypeError α → Reply S) (inj : Function.Injective wrap)
    {run : Exec (Except TypeError α × OxidArt P (Value S))} {a : Except TypeError α} :
    wrapReply wrap run = .ok (wrap a, st') ↔ run = .ok (a, st') := by
  cases run with
  | error => simp [wrapReply, Except.map]
  | ok p =>
    simp only [wrapReply, Except.map, Except.ok.injEq, inj.eq_iff, Prod.ext_iff]

/-- On a key that is not live, the writing commands without a ttl reply and act as on a new key exactly when the node of
the key, if the tree still has one, carries no expiry. -/
theorem creates_iff (reached : Reachable order st) {c : Command S} {reply : Reply S} {held : RefValue S}
    (given : c.given = some (key, reply, held)) (bytes : KeyOk key) (dead : st.live key = none) :
    (∃ st', exec order st c = .ok (reply, st') ∧ Created st key held st') ↔ st.keyExp key = none := by
  obtain ⟨path, I⟩ := reached.isSound
  have absent : ∀ t, (none : Option Nat) = some t → t < 2 ^ 56 := by simp
  have split : ∀ {key' : Bytes} {reply' : Reply S} {held' : RefValue S}, some (key', reply', held') = some (key, reply, held) →
      key' = key ∧ reply' = reply ∧ held' = held := by
    intro key' reply' held' same
    obtain ⟨rfl, rest⟩ := Prod.mk.inj (Option.some.inj same)
    exact ⟨rfl, Prod.mk.inj rest⟩
  cases c with
  | hset key' fieldValues ttl =>
    cases ttl with
    | some => cases given
    | none =>
      obtain ⟨rfl, rfl, rfl⟩ := split given
      simp only [exec, wrapReply_iff Reply.added fun _ _ => Reply.added.inj]
      exact (changeIn_ok I (getHashMut_gets I bytes absent) _).created_iff (k := Kind.hash S) (follows_hset fieldValues) dead rfl
  | sadd key' members ttl =>
    cases ttl with
    | some => cases given
    | none =>
      obtain ⟨rfl, rfl, rfl⟩ := split given
      simp only [exec, wrapReply_iff Reply.added fun _ _ => Reply.added.inj]
      refine (changeIn_ok I (getBtreeSetMut_gets I bytes absent) _).created_iff (k := Kind.set S) (follows_sadd members) dead ?_
      simp only [refPuts, List.map_map, Function.comp_def, List.map_id']
  | zadd key' scoreMembers ttl =>
    cases ttl with
    | some => cases given
    | none =>
      obtain ⟨rfl, rfl, rfl⟩ := split given
      simp only [exec, wrapReply_iff Reply.added fun _ _ => Reply.added.inj]
      refine (changeIn_ok I (getZsetMut_gets I bytes absent) _).created_iff (k := Kind.zset S) (follows_zadd scoreMembers) dead ?_
      simp only [refPuts, List.map_map, Function.comp_def, Prod.fst_swap]
  | hincrby key' field increment =>
    obtain ⟨rfl, rfl, rfl⟩ := split given
    simp only [exec, wrapReply_iff Reply.integer fun _ _ => Reply.integer.inj]
    refine (changeIn_ok I (getHashMut_gets I bytes absent) _).created_iff (k := Kind.hash S) (follows_hincrby field increment)
      dead ?_
    simp only [refHincr, Option.elim_none, Option.bind_some, checkedAdd_zero]
  | zincrby key' increment member =>
    obtain ⟨rfl, rfl, rfl⟩ := split given
    simp only [exec, wrapReply_iff Reply.newScore fun _ _ => Reply.newScore.inj]
    exact (changeIn_ok I (getZsetMut_gets I bytes absent) _).created_iff (k := Kind.zset S) (follows_zincrby increment member)
      dead rfl
  | tree | incrby | hget | hgetall | hdel | hexists | hlen | hkeys | hvals | hmget | spop | srem | smembers | sismember | scard
  | zcard | zrange | zscore | zrem => cases given

/-- A deleted key whose node survives above two others takes a new hash. -/
theorem creates_iff_deletedKey : ∃ replies st,
    run (exec .stored) [.tree (.set [107] (.int 1)), .tree (.set [107, 97] (.int 2)), .tree (.set [107, 98] (.int 3)),
      .tree (.del [107])] (new : OxidArt .lowest (Value Int)) = .ok (replies, st) ∧ st.live [107] = none ∧
    ∃ st', exec .stored st (.hset [107] [([102], [118])] none) = .ok (.added (.ok 1), st') ∧
      Created st [107] (.hash (overwrite (fun _ => none) [([102], [118])])) st' := by
  have sound : Meets (exec .stored) (fun st c => c.Sound st) [.tree (.set [107] (.int 1)), .tree (.set [107, 97] (.int 2)),
    .tree (.set [107, 98] (.int 3)), .tree (.del [107])] (new : OxidArt .lowest (Value Int)) := by decide +kernel
  exact ⟨_, _, rfl, rfl, (creates_iff (c := .hset [107] [([102], [118])] none) (.run .refl sound rfl) rfl (by decide +kernel) rfl).2 rfl⟩

/-- A key that has expired but is not yet collected: the command panics. -/
theorem hset_expired_panics : ∃ replies st,
    run (exec .stored) [.tree (.setTtl [107] 5 (.int 1)), .tree (.setNow 10)] (new : OxidArt .lowest (Value Int)) =
      .ok (replies, st) ∧ Reachable .stored st ∧ st.live [107] = none ∧
    exec .stored st (.hset [107] [([102], [118])] none) = .error .unwrapNone := by
  have sound : Meets (exec .stored) (fun st c => c.Sound st) [.tree (.setTtl [107] 5 (.int 1)), .tree (.setNow 10)]
    (new : OxidArt .lowest (Value Int)) := by decide +kernel
  exact ⟨_, _, rfl, .run .refl sound rfl, rfl, rfl⟩

end OxidArt

end Radixox.Oxidart
