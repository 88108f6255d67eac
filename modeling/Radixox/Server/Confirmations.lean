import Mathlib.Data.Finset.Card
import Radixox.Server.Subscriptions

/-!
# The counts in the confirmations of UNSUBSCRIBE

`unsubscribe` first leaves all channels and then builds the frames, each from the number of channels that are left in
the end. Only one frame can carry the right number so.
-/

namespace Radixox.Server
set_option autoImplicit false

open Radixox.Runs Radixox.Topics

namespace SubRegistry

/-- The connection is once in the list of every channel of `S` and in no other, and counts them. -/
structure SubscribedTo (reg : SubRegistry) (id : SubId) (S : Finset SharedByte) : Prop where
  listed : ∀ channel, (members reg.connMap channel).count id = if channel ∈ S then 1 else 0
  counted : (reg.get id).map Conn.channelCount = some S.card

/-- The number in a confirmation. -/
def confirmed : SharedFrame → Option Int64
  | .array [_, _, .integer n] => some n
  | _ => none

/-- The channels of the connection, as the registry knows them after a step. -/
def channelCount (reg : SubRegistry) (id : SubId) : Nat := ((reg.get id).map Conn.channelCount).getD 0

/-- From `total` on, each frame has one less than the one before, and the last has what is left. -/
structure CountsDown (total left : Nat) (frames : List SharedFrame) : Prop where
  each : ∀ i frame, frames[i]? = some frame → confirmed frame = some (Int64.ofNat (total - (i + 1)))
  decreasing : (frames.filterMap confirmed).Pairwise (· > ·)
  last : ∀ frame, frames.getLast? = some frame → confirmed frame = some (Int64.ofNat left)

variable {reg : SubRegistry} {id : SubId} {S : Finset SharedByte}

/-- A consistent registry has each subscriber subscribed once to each of its channels. -/
theorem Consistent.subscribedTo (consistent : reg.Consistent) (held : (reg.get id).isSome) :
    reg.SubscribedTo id (topicsOf reg.connMap id).toFinset := by
  obtain ⟨conn, here⟩ := Option.isSome_iff_exists.1 held
  refine ⟨fun channel => ?_, ?_⟩
  · rw [List.Nodup.count (consistent.kept.once channel)]
    simp only [List.mem_toFinset, mem_topicsOf]
  · rw [here, Option.map_some, consistent.counted id conn here, List.toFinset_card_of_nodup nodup_topicsOf]

theorem SubscribedTo.topicsOf_eq (subscribed : reg.SubscribedTo id S) : (topicsOf reg.connMap id).toFinset = S := by
  ext channel
  rw [List.mem_toFinset, mem_topicsOf, ← List.count_pos_iff, subscribed.listed]
  split <;> simp_all

theorem get_removeChannels (channels : List SharedByte) : ∀ {reg : SubRegistry} {conn : Conn}, reg.get id = some conn →
    (channels.foldl (removeChannel id) reg).get id =
      some { conn with channelCount := conn.channelCount - channels.length } := by
  induction channels with
  | nil => exact fun held => held
  | cons channel rest ih =>
    intro reg conn held
    have first : (removeChannel id reg channel).get id = some { conn with channelCount := conn.channelCount - 1 } := by
      rw [removeChannel, get_modify _ held, if_pos rfl]
    rw [List.foldl_cons, ih first, List.length_cons, Nat.sub_sub, Nat.add_comm 1]

/-! ## One call -/

/-- The frame for the channel at place `i` of `n`, when `remaining` are left. -/
def confirmation (remaining n i : Nat) (channel : SharedByte) : SharedFrame :=
  .array [.bulkString (ascii "unsubscribe"), .bulkString channel, .integer (Int64.ofNat (remaining - (n - 1 - i)))]

theorem unsubscribe_frames (order : ChannelOrder) (reg : SubRegistry) (id : SubId) (channels : List SharedByte) :
    (reg.unsubscribe order (.pubSub id) channels).1 = (leaves order reg id channels).zipIdx.map fun (channel, i) =>
      confirmation (((leaves order reg id channels).foldl (removeChannel id) reg).channelCount id)
        (leaves order reg id channels).length i channel := by
  have same : (if channels.isEmpty then
      order.enum (reg.connMap.keys.filter fun ch => ((reg.connMap.lookup ch).getD []).contains id) else channels) =
      leaves order reg id channels := rfl
  simp only [unsubscribe, same]
  generalize leaves order reg id channels = left
  split
  · split
    · split <;> rfl
    · rfl
  · rfl

/-- A connection that leaves the arena had no channels any more. -/
theorem unsubscribe_channelCount (order : ChannelOrder) (reg : SubRegistry) (id : SubId) (channels : List SharedByte) :
    (reg.unsubscribe order (.pubSub id) channels).2.1.channelCount id =
      ((leaves order reg id channels).foldl (removeChannel id) reg).channelCount id := by
  obtain ⟨frames, reg', state, outcome, ⟨-, rfl⟩ | ⟨reg₁, conn, write, rfl, here, none', -, -, rfl⟩⟩ :=
    unsubscribe_eq order reg id channels
  · rw [outcome]
  · have gone : get { (leaves order reg id channels).foldl (removeChannel id) reg with
        connArena := (((leaves order reg id channels).foldl (removeChannel id) reg).connArena.remove id).2 } id = none :=
      (GenArena.get_remove here id).trans (if_pos rfl)
    rw [outcome, channelCount, channelCount, gone, here, Option.map_some, Option.getD_some, none']
    rfl

theorem SubscribedTo.channelCount_removeChannels (subscribed : reg.SubscribedTo id S) (channels : List SharedByte) :
    (channels.foldl (removeChannel id) reg).channelCount id = S.card - channels.length := by
  obtain ⟨conn, held, count⟩ := Option.map_eq_some_iff.1 subscribed.counted
  rw [channelCount, get_removeChannels channels held, Option.map_some, Option.getD_some, count]

/-- An UNSUBSCRIBE leaves the listed channels, or all of them. -/
theorem SubscribedTo.length_leaves (subscribed : reg.SubscribedTo id S) (order : ChannelOrder) (channels : List SharedByte) :
    (leaves order reg id channels).length = if channels = [] then S.card else channels.length := by
  unfold leaves
  simp only [List.isEmpty_iff]
  split
  · rw [(order.enum_perm _).length_eq, ← subscribed.topicsOf_eq, List.toFinset_card_of_nodup nodup_topicsOf]
  · rfl

theorem length_le_card {channels : List SharedByte} (distinct : channels.Nodup) (within : ∀ channel ∈ channels, channel ∈ S) :
    channels.length ≤ S.card := by
  rw [← List.toFinset_card_of_nodup distinct]
  exact Finset.card_le_card fun channel member => within channel (List.mem_toFinset.1 member)

theorem ofNat_ne {a b : Nat} (below : a < b) (near : b ≤ a + 2) : Int64.ofNat a ≠ Int64.ofNat b := by
  intro same
  have bits := congrArg (fun n : Int64 => n.toBitVec.toNat) same
  simp only [Int64.toBitVec_ofNat', BitVec.toNat_ofNat] at bits
  omega

/-- The frames count down if and only if no more than one channel is left: with two, the frame before the last one has
a number that is too small by one or two. -/
theorem countsDown_confirmations_iff {total : Nat} {left : List SharedByte} (within : left.length ≤ total) :
    CountsDown total (total - left.length)
      (left.zipIdx.map fun (channel, i) => confirmation (total - left.length) left.length i channel) ↔ left.length ≤ 1 := by
  constructor
  · intro down
    by_contra two
    have read : left[left.length - 2]? = some left[left.length - 2] := List.getElem?_eq_getElem (by omega)
    have number := down.each (left.length - 2) _ (by
      rw [List.getElem?_map, List.getElem?_zipIdx, read]
      rfl)
    exact ofNat_ne (by omega) (by omega) (Option.some.inj number)
  · intro one
    match left with
    | [] => exact ⟨nofun, .nil, nofun⟩
    | [channel] =>
      have only : ∀ frame, some (confirmation (total - 1) 1 0 channel) = some frame →
          confirmed frame = some (Int64.ofNat (total - 1)) := by
        rintro _ ⟨⟩
        rfl
      refine ⟨fun i frame read => ?_, .cons nofun .nil, only⟩
      match i with
      | 0 => exact only frame read

/-- The counts of the confirmations are right if and only if exactly one channel is left, or none at all. -/
theorem unsubscribe_countsDown_iff (subscribed : reg.SubscribedTo id S) (order : ChannelOrder) {channels : List SharedByte}
    (distinct : channels.Nodup) (within : ∀ channel ∈ channels, channel ∈ S) :
    CountsDown S.card ((reg.unsubscribe order (.pubSub id) channels).2.1.channelCount id)
        (reg.unsubscribe order (.pubSub id) channels).1 ↔
      channels.length = 1 ∨ channels = [] ∧ S.card ≤ 1 := by
  have length := subscribed.length_leaves order channels
  have fits : (leaves order reg id channels).length ≤ S.card := by
    rw [length]
    split
    · exact le_rfl
    · exact length_le_card distinct within
  rw [unsubscribe_frames, unsubscribe_channelCount, subscribed.channelCount_removeChannels, countsDown_confirmations_iff fits,
    length]
  cases channels with
  | nil => simp
  | cons channel rest => simp

/-- A connection that has subscribed to two channels. -/
theorem exists_subscribedTo_two : ∃ reg : SubRegistry, reg.SubscribedTo ⟨0, 0⟩ {ascii "b", ascii "a"} := by
  have ends : (run (Callers.step .stored) [.subscribe 0 (ascii "a"), .subscribe 0 (ascii "b")] Callers.new).toOption.map
      (fun p => (topicsOf p.2.registry.connMap ⟨0, 0⟩, (p.2.registry.get ⟨0, 0⟩).isSome)) =
        some ([ascii "b", ascii "a"], true) := by decide +kernel
  cases ran : run (Callers.step .stored) [.subscribe 0 (ascii "a"), .subscribe 0 (ascii "b")] Callers.new with
  | error => rw [ran] at ends; cases ends
  | ok p =>
    rw [ran] at ends
    obtain ⟨topics, held⟩ := Prod.mk.inj (Option.some.inj ends)
    have consistent := (Callers.run_consistent .stored _ p.1 p.2 (by decide +kernel) ran).1
    have subscribed := consistent.subscribedTo held
    rw [topics] at subscribed
    exact ⟨p.2.registry, subscribed⟩

theorem unsubscribe_countsDown_two : ∃ reg : SubRegistry, reg.SubscribedTo ⟨0, 0⟩ {ascii "b", ascii "a"} ∧
    CountsDown 2 ((reg.unsubscribe .stored (.pubSub ⟨0, 0⟩) [ascii "a"]).2.1.channelCount ⟨0, 0⟩)
      (reg.unsubscribe .stored (.pubSub ⟨0, 0⟩) [ascii "a"]).1 := by
  obtain ⟨reg, subscribed⟩ := exists_subscribedTo_two
  exact ⟨reg, subscribed, (unsubscribe_countsDown_iff subscribed .stored (by decide) (by decide)).2 (.inl rfl)⟩

/-- Both frames of `UNSUBSCRIBE a b` say that no channel is left. -/
theorem unsubscribe_not_countsDown : ¬ ∀ (reg : SubRegistry) (id : SubId) (S : Finset SharedByte) (order : ChannelOrder)
    (channels : List SharedByte), reg.SubscribedTo id S → channels.Nodup → (∀ channel ∈ channels, channel ∈ S) →
      CountsDown S.card ((reg.unsubscribe order (.pubSub id) channels).2.1.channelCount id)
        (reg.unsubscribe order (.pubSub id) channels).1 := by
  intro countsDown
  obtain ⟨reg, subscribed⟩ := exists_subscribedTo_two
  have down := countsDown reg _ _ .stored [ascii "a", ascii "b"] subscribed (by decide) (by decide)
  rw [unsubscribe_frames, unsubscribe_channelCount, subscribed.channelCount_removeChannels] at down
  have both : leaves .stored reg ⟨0, 0⟩ [ascii "a", ascii "b"] = [ascii "a", ascii "b"] := rfl
  rw [both] at down
  exact absurd ((countsDown_confirmations_iff (by decide)).1 down) (by decide)

end SubRegistry

end Radixox.Server
