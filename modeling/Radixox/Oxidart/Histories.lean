import Radixox.Lib.Runs
import Radixox.Oxidart.Containers

/-!
# Containers over whole histories

A hash and a sorted set start as a vector and change their representation in the middle of an insertion. Through any
sequence of insertions and removals both stay the finite map that the sequence makes.
-/

namespace Radixox.Oxidart
set_option autoImplicit false
open Radixox.Runs

/-! ## Finite maps -/

section Maps

variable {β : Type}

inductive Edit (β : Type) where
  | insert (key : Bytes) (value : β)
  | remove (key : Bytes)

/-- What an edit makes of a map. -/
def Edit.next (m : Bytes → Option β) : Edit β → Bytes → Option β
  | .insert key value => Function.update m key (some value)
  | .remove key => Function.update m key none

/-- The map has that many keys. -/
def HasLen (m : Bytes → Option β) (n : Nat) : Prop := ∃ keys : Finset Bytes, (∀ k, k ∈ keys ↔ (m k).isSome = true) ∧ keys.card = n

theorem hasLen_of_nodup {m : Bytes → Option β} {l : List Bytes} (nodup : l.Nodup) (mem : ∀ k, k ∈ l ↔ (m k).isSome = true) :
    HasLen m l.length :=
  ⟨l.toFinset, fun k => by rw [List.mem_toFinset, mem], List.toFinset_card_of_nodup nodup⟩

theorem Enumerates.hasLen {l : List (Bytes × β)} {m : Bytes → Option β} (E : Enumerates l m) : HasLen m l.length := by
  rw [← List.length_map (f := Prod.fst)]
  refine hasLen_of_nodup E.1 fun k => ?_
  rw [List.mem_map, Option.isSome_iff_exists]
  constructor
  · rintro ⟨p, inside, rfl⟩
    exact ⟨p.2, (E.2 p.1 p.2).1 inside⟩
  · rintro ⟨v, held⟩
    exact ⟨(k, v), (E.2 k v).2 held, rfl⟩

end Maps

/-! ## Hashes -/

inductive HReply where
  | inserted (new : Bool)
  | deleted (old : Option Bytes)

namespace InnerHCommand

/-- An edit never fails. -/
def edit (h : InnerHCommand) : Edit Bytes → Except Empty (HReply × InnerHCommand)
  | .insert field value => .ok (.inserted (h.insert field value).1, (h.insert field value).2)
  | .remove field => .ok (.deleted (h.del field).1, (h.del field).2)

/-- An insertion says whether the field is new, a removal gives the value that goes. -/
def Replies (m : Bytes → Option Bytes) : Edit Bytes → HReply → Prop
  | .insert field _, reply => reply = .inserted (m field).isNone
  | .remove field, reply => reply = .deleted (m field)

/-- The hash is the map, for every reader: single fields, the length, and listings in one and the same order. -/
structure Refines (h : InnerHCommand) (m : Bytes → Option Bytes) : Prop where
  get : ∀ field, h.get field = m field
  containsKey : ∀ field, h.containsKey field = true ↔ m field ≠ none
  len : HasLen m h.len
  listings : ∀ order, ∃ l, Enumerates l m ∧ h.all order = (l.flatMap fun p => [p.1, p.2]) ∧ h.keys order = l.map Prod.fst ∧
    h.values order = l.map Prod.snd

theorem refines_of_ok {h : InnerHCommand} (ok : h.Ok) : Refines h h.get := by
  refine ⟨fun _ => rfl, fun field => ?_, ?_, fun order => ⟨h.iter order, (enumerates_iter ok order).1, rfl, rfl, rfl⟩⟩
  · rw [InnerHCommand.containsKey, Option.isSome_iff_ne_none]
  · obtain ⟨E, length⟩ := enumerates_iter ok .stored
    exact length ▸ E.hasLen

/-- Every history of insertions and removals gives the replies of the map and ends in a hash that is that map. -/
theorem hash_history (edits : List (Edit Bytes)) : ∃ replies h, run edit edits new = .ok (replies, h) ∧
    Answers Edit.next Replies (fun _ => none) edits replies ∧ Refines h (edits.foldl Edit.next fun _ => none) := by
  have simulates : ∀ (h : InnerHCommand) (m : Bytes → Option Bytes) (e : Edit Bytes), (h.Ok ∧ h.get = m) → True → True →
      ∃ reply h', h.edit e = .ok (reply, h') ∧ Replies m e reply ∧ (h'.Ok ∧ h'.get = e.next m) := by
    rintro h m e ⟨ok, rfl⟩ - -
    cases e with
    | insert field value =>
      obtain ⟨ok', map, new⟩ := insert_ok ok field value
      exact ⟨_, _, rfl, congrArg HReply.inserted new, ok', map⟩
    | remove field =>
      obtain ⟨ok', map, old⟩ := del_ok ok field
      exact ⟨_, _, rfl, congrArg HReply.deleted old, ok', map⟩
  obtain ⟨replies, h, ran, answers, ok, map⟩ := run_simulates simulates edits new (fun _ => none) ⟨ok_new, rfl⟩
    (Admits.of_forall (fun _ _ _ => trivial) _) (Meets.of_forall (fun _ _ _ => trivial) _)
  exact ⟨replies, h, ran, answers, map ▸ refines_of_ok ok⟩

end InnerHCommand

/-! ## Sorted sets -/

section Zset

variable {S : Type} [Score S]

theorem Ranks.hasLen {l : List (ZItem S)} {m : Bytes → Option S} (R : Ranks l m) : HasLen m l.length := by
  rw [← List.length_map (f := ZItem.member)]
  refine hasLen_of_nodup R.nodup_members fun k => ?_
  rw [List.mem_map, Option.isSome_iff_exists]
  constructor
  · rintro ⟨x, inside, rfl⟩
    exact ⟨x.score, (R.2 x).1 inside⟩
  · rintro ⟨s, held⟩
    exact ⟨.mk s k, (R.2 (.mk s k)).2 held, rfl⟩

namespace InnerZCommand

def edit (z : InnerZCommand S) : Edit S → Except Empty (Bool × InnerZCommand S)
  | .insert member score => .ok (z.insert score member)
  | .remove member => .ok (z.remove member)

/-- An insertion is true for a new member, a removal for a present one. -/
def Replies (m : Bytes → Option S) : Edit S → Bool → Prop
  | .insert member _, reply => reply = true ↔ m member = none
  | .remove member, reply => reply = true ↔ m member ≠ none

/-- The sorted set is the map, for every reader, and the two indexes of the large form hold the same pairs. -/
structure Refines (z : InnerZCommand S) (m : Bytes → Option S) : Prop where
  score : ∀ member, z.score member = m member
  len : HasLen m z.len
  ascending : z.iter.Pairwise (· < ·)
  once : (z.iter.map ZItem.member).Nodup
  items : ∀ x, x ∈ z.iter ↔ m x.member = some x.score
  indexes : ∀ zset, z = .large zset → ∀ x, x ∈ zset.sorted.items ↔ zset.scores.lookup x.member = some x.score

theorem refines_of_ok {z : InnerZCommand S} (ok : z.Ok) : Refines z z.score := by
  have R := ranks_iter ok
  refine ⟨fun _ => rfl, len_eq ok ▸ R.hasLen, R.1, R.nodup_members, R.2, ?_⟩
  rintro zset rfl
  exact ok

/-- Every history of insertions and removals gives the replies of the map and ends in a sorted set that is that map. -/
theorem zset_history (edits : List (Edit S)) : ∃ replies z, run edit edits new = .ok (replies, z) ∧
    Answers Edit.next Replies (fun _ => none) edits replies ∧ Refines z (edits.foldl Edit.next fun _ => none) := by
  have simulates : ∀ (z : InnerZCommand S) (m : Bytes → Option S) (e : Edit S), (z.Ok ∧ z.score = m) → True → True →
      ∃ reply z', z.edit e = .ok (reply, z') ∧ Replies m e reply ∧ (z'.Ok ∧ z'.score = e.next m) := by
    rintro z m e ⟨ok, rfl⟩ - -
    cases e with
    | insert member score =>
      obtain ⟨ok', map, new⟩ := insert_ok ok score member
      refine ⟨(z.insert score member).1, (z.insert score member).2, rfl, ?_, ok', map⟩
      change (z.insert score member).1 = true ↔ z.score member = none
      rw [new, Option.isNone_iff_eq_none]
    | remove member =>
      obtain ⟨ok', map, found⟩ := remove_ok ok member
      refine ⟨(z.remove member).1, (z.remove member).2, rfl, ?_, ok', map⟩
      change (z.remove member).1 = true ↔ z.score member ≠ none
      rw [found, Option.isSome_iff_ne_none]
  obtain ⟨replies, z, ran, answers, ok, map⟩ := run_simulates simulates edits new (fun _ => none) ⟨ok_new, rfl⟩
    (Admits.of_forall (fun _ _ _ => trivial) _) (Meets.of_forall (fun _ _ _ => trivial) _)
  exact ⟨replies, z, ran, answers, map ▸ refines_of_ok ok⟩

end InnerZCommand

end Zset

end Radixox.Oxidart
