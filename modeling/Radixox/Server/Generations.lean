import Radixox.Server.ArenaRuns
import Radixox.Server.Subscriptions

/-!
# Ids that are over

The generation of a slot goes up when its connection is removed. An id with an earlier generation is
`Outdated`: it is that of no connection, and no new connection gets it, as long as no generation
has wrapped around.
-/

namespace Radixox.Server
set_option autoImplicit false

namespace GenArena

variable {T : Type} {a a' : GenArena T} {k key : Key} {v w : T}

def generations (a : GenArena T) : List Nat := a.slots.map Slot.generation

/-- A later generation has the slot of the key. -/
def Outdated (a : GenArena T) (k : Key) : Prop := ∃ g, a.generations[k.idx]? = some g ∧ k.generation < g

/-- No slot has had more than so many generations. -/
def Within (n : Nat) (a : GenArena T) : Prop := ∀ g ∈ a.generations, g ≤ n

theorem Outdated.congr (same : a'.generations = a.generations) (outdated : a.Outdated k) : a'.Outdated k := by
  rwa [Outdated, same]

theorem Within.congr {n : Nat} (same : a'.generations = a.generations) (within : a.Within n) : a'.Within n := by
  rwa [Within, same]

theorem within_withCapacity (cap : Nat) : (withCapacity cap : GenArena T).Within 0 := by
  intro g member
  obtain ⟨s, inside, rfl⟩ := List.mem_map.1 member
  obtain ⟨i, read⟩ := List.mem_iff_getElem?.1 inside
  rw [withCapacity, slots_growTo, if_neg (show ¬ i < (new : GenArena T).slots.length from Nat.not_lt_zero i)] at read
  split at read
  · rw [← Option.some.inj read]
  · cases read

theorem generation_of_get (held : a.get key = some v) : a.generations[key.idx]? = some key.generation := by
  obtain ⟨s, read, generation, -⟩ := get_eq_some.1 held
  rw [generations, List.getElem?_map, read, Option.map_some, generation]

theorem get_of_outdated (outdated : a.Outdated k) : a.get k = none := by
  obtain ⟨g, read, later⟩ := outdated
  cases held : a.get k with
  | none => rfl
  | some u =>
    rw [generation_of_get held] at read
    obtain rfl := Option.some.inj read
    exact absurd later (Nat.lt_irrefl _)

/-- New contents leave a slot its generation. -/
theorem generations_fill {l : List (Slot T)} {s : Slot T} {idx : Nat} (read : l[idx]? = some s) (data : Option T) :
    (l.set idx { s with data := data }).map Slot.generation = l.map Slot.generation := by
  obtain ⟨bound, -⟩ := List.getElem?_eq_some_iff.1 read
  apply List.ext_getElem?
  intro i
  rw [List.getElem?_map, List.getElem?_map]
  by_cases same : i = idx
  · rw [same, List.getElem?_set_self bound, read]
    rfl
  · rw [List.getElem?_set_ne (Ne.symm same)]

theorem generations_set (a : GenArena T) (key : Key) (w : T) : (a.set key w).generations = a.generations := by
  unfold set
  split
  · rfl
  next s here => exact generations_fill (Option.filter_eq_some_iff.1 here).1 _

/-- A removal ends the generation of its slot. -/
theorem generations_remove (held : a.get key = some v) :
    (a.remove key).2.generations = a.generations.set key.idx ((key.generation + 1) % 2 ^ 32) := by
  obtain ⟨s, here, -, generation, -⟩ := slot_of_get held
  simp only [remove, here, generations, List.map_set, generation]

theorem outdated_remove (held : a.get key = some v) (few : key.generation + 1 < 2 ^ 32) :
    (a.remove key).2.Outdated key ∧ ∀ k, a.Outdated k → (a.remove key).2.Outdated k := by
  have read := generation_of_get held
  have bound : key.idx < a.generations.length := (List.getElem?_eq_some_iff.1 read).1
  have next : (key.generation + 1) % 2 ^ 32 = key.generation + 1 := Nat.mod_eq_of_lt few
  have mine : (a.remove key).2.generations[key.idx]? = some (key.generation + 1) := by
    rw [generations_remove held, next, List.getElem?_set_self bound]
  refine ⟨⟨_, mine, Nat.lt_succ_self _⟩, fun k ⟨g, read', later⟩ => ?_⟩
  by_cases same : k.idx = key.idx
  · rw [same, read] at read'
    obtain rfl := Option.some.inj read'
    exact ⟨_, same ▸ mine, Nat.lt_succ_of_lt later⟩
  · refine ⟨g, ?_, later⟩
    rw [generations_remove held, List.getElem?_set_ne (Ne.symm same)]
    exact read'

theorem within_remove {n : Nat} (held : a.get key = some v) (within : a.Within n) : (a.remove key).2.Within (n + 1) := by
  intro g member
  rw [generations_remove held] at member
  have old := within key.generation (List.mem_of_getElem? (generation_of_get held))
  rcases List.mem_or_eq_of_mem_set member with before | rfl
  · exact Nat.le_succ_of_le (within g before)
  · exact (Nat.mod_le ..).trans (Nat.succ_le_succ old)

/-- A new key has the generation that its slot is at. -/
theorem outdated_insert (free : a.FreeList) {n : Nat} (within : a.Within n) (inserted : a.insert v = some (key, a')) :
    a'.Within n ∧ ¬ a.Outdated key ∧ ∀ k, a.Outdated k → a'.Outdated k := by
  obtain ⟨l, chain⟩ := free
  obtain ⟨idx, s, rest, read, -, -, -, -, run⟩ := insert_takes chain v
  obtain ⟨rfl, rfl⟩ := Prod.mk.inj (Option.some.inj (run.symm.trans inserted))
  obtain ⟨kept, origin⟩ := slots_ready a
  have same : (⟨a.ready.slots.set idx { s with data := some v }, s.nextFree, a.ready.len + 1⟩ : GenArena T).generations =
      a.ready.generations := generations_fill read _
  have grows : ∀ k, a.Outdated k → a.ready.Outdated k := by
    rintro k ⟨g, old, later⟩
    rw [generations, List.getElem?_map] at old
    obtain ⟨s', there, rfl⟩ := Option.map_eq_some_iff.1 old
    refine ⟨s'.generation, ?_, later⟩
    rw [generations, List.getElem?_map, kept _ _ there, Option.map_some]
  have here : a.ready.generations[idx]? = some s.generation := by
    rw [generations, List.getElem?_map, read, Option.map_some]
  refine ⟨.congr same fun g member => ?_, fun old => ?_, fun k old => .congr same (grows k old)⟩
  · obtain ⟨s', inside, rfl⟩ := List.mem_map.1 member
    obtain ⟨i, there⟩ := List.mem_iff_getElem?.1 inside
    rcases origin i s' there with before | ⟨-, zero⟩
    · exact within _ (List.mem_map_of_mem (List.mem_of_getElem? before))
    · rw [zero]
      exact Nat.zero_le n
  · obtain ⟨g, old', later⟩ := grows _ old
    obtain rfl := Option.some.inj (here.symm.trans old')
    exact Nat.lt_irrefl _ later

end GenArena

namespace SubRegistry

open Radixox.Topics

/-- Every id that was outdated still is. -/
def Ages (reg reg' : SubRegistry) : Prop := ∀ k, reg.connArena.Outdated k → reg'.connArena.Outdated k

/-- The same lists, the same ids in the arena and the same generations. -/
structure Alike (reg reg' : SubRegistry) : Prop where
  map : reg'.connMap = reg.connMap
  present : ∀ k, (reg'.get k).isSome = (reg.get k).isSome
  generations : reg'.connArena.generations = reg.connArena.generations

variable {reg reg' reg'' : SubRegistry} {id : SubId} {n : Nat}

theorem Alike.refl : reg.Alike reg := ⟨rfl, fun _ => rfl, rfl⟩

theorem Alike.trans (first : reg.Alike reg') (second : reg'.Alike reg'') : reg.Alike reg'' :=
  ⟨second.map.trans first.map, fun k => (second.present k).trans (first.present k), second.generations.trans first.generations⟩

theorem Alike.ages (alike : reg.Alike reg') : reg.Ages reg' := fun _ => .congr alike.generations

theorem alike_set {conn : Conn} (held : reg.get id = some conn) (conn' : Conn) : reg.Alike (reg.set id conn') := by
  refine ⟨rfl, fun k => ?_, GenArena.generations_set ..⟩
  rw [get_set held]
  split
  next same => rw [same, held]; rfl
  next => rfl

theorem alike_modify (id : SubId) (f : Conn → Conn) : reg.Alike (reg.modify id f) := by
  unfold modify
  split
  next conn held => exact alike_set held (f conn)
  next => exact .refl

theorem alike_appendAll (encoded : SharedByte) (ids : List SubId) : ∀ {reg : SubRegistry}, reg.Alike (reg.appendAll encoded ids).2 := by
  induction ids with
  | nil => exact .refl
  | cons id rest ih =>
    intro reg
    unfold appendAll
    split
    next conn held => exact (alike_set held _).trans ih
    next => exact ih

theorem generations_removeChannels (id : SubId) (channels : List SharedByte) : ∀ reg : SubRegistry,
    (channels.foldl (removeChannel id) reg).connArena.generations = reg.connArena.generations := by
  induction channels with
  | nil => exact fun _ => rfl
  | cons channel rest ih =>
    intro reg
    rw [List.foldl_cons, ih, removeChannel]
    exact (alike_modify id _).generations

theorem ages_subscribe {state state' : ConnState} {channel : SharedByte} {count : Nat} (free : reg.connArena.FreeList)
    (within : reg.connArena.Within n) (joined : reg.subscribe state channel = .ok (reg', state', count)) :
    reg.Ages reg' ∧ reg'.connArena.Within n := by
  cases state with
  | blocking | none => cases joined
  | pubSub id =>
    obtain ⟨rfl, -⟩ := Prod.mk.inj (Except.ok.inj joined)
    have alike : reg.Alike (reg.modify id fun conn => { conn with channelCount := conn.channelCount + 1 }) := alike_modify ..
    exact ⟨alike.ages, .congr alike.generations within⟩
  | normal write buf =>
    simp only [subscribe] at joined
    cases inserted : reg.connArena.insert { Conn.new write buf with channelCount := 1 } with
    | none => rw [inserted] at joined; cases joined
    | some p =>
      obtain ⟨key, arena⟩ := p
      rw [inserted] at joined
      obtain ⟨rfl, -⟩ := Prod.mk.inj (Except.ok.inj joined)
      obtain ⟨within', -, ages⟩ := GenArena.outdated_insert free within inserted
      exact ⟨ages, within'⟩

/-- The generation of a connection that goes is over. -/
theorem ages_remove {conn : Conn} (held : reg.get id = some conn) (within : reg.connArena.Within n) (few : n + 1 < 2 ^ 32)
    (map : TopicMap SharedByte SubId) :
    reg.Ages ⟨(reg.connArena.remove id).2, map⟩ ∧ (reg.connArena.remove id).2.Within (n + 1) ∧
      (reg.connArena.remove id).2.Outdated id := by
  have young := within _ (List.mem_of_getElem? (GenArena.generation_of_get held))
  obtain ⟨gone, ages⟩ := GenArena.outdated_remove held (Nat.lt_of_le_of_lt (Nat.succ_le_succ young) few)
  exact ⟨ages, GenArena.within_remove held within, gone⟩

theorem ages_unsubscribe {channels : List SharedByte} {frames : List SharedFrame} {state : ConnState} (order : ChannelOrder)
    (within : reg.connArena.Within n) (few : n + 1 < 2 ^ 32)
    (left : reg.unsubscribe order (.pubSub id) channels = (frames, reg', state)) :
    reg.Ages reg' ∧ reg'.connArena.Within (n + 1) := by
  obtain ⟨reg₁, eq₁⟩ : ∃ reg₁, reg₁ = (leaves order reg id channels).foldl (removeChannel id) reg := ⟨_, rfl⟩
  have same : reg₁.connArena.generations = reg.connArena.generations := eq₁ ▸ generations_removeChannels id _ reg
  have within₁ : reg₁.connArena.Within n := .congr same within
  obtain ⟨frames', registry, state', outcome, cases⟩ := unsubscribe_eq order reg id channels
  obtain ⟨-, rfl, -⟩ : frames' = frames ∧ registry = reg' ∧ state' = state := by
    simpa using outcome.symm.trans left
  rcases cases with ⟨-, rfl⟩ | ⟨reg₂, conn, write, eq₂, held, -, -, -, rfl⟩
  · rw [← eq₁]
    exact ⟨fun _ => .congr same, fun g member => Nat.le_succ_of_le (within₁ g member)⟩
  · obtain rfl := eq₂.trans eq₁.symm
    obtain ⟨ages, within', -⟩ := ages_remove held within₁ few reg₂.connMap
    exact ⟨fun k old => ages k (.congr same old), within'⟩

end SubRegistry

end Radixox.Server
