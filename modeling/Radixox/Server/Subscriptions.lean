import Radixox.Lib.Runs
import Radixox.Lib.Topics
import Radixox.Server.Registry

/-!
# The subscriptions agree

A subscription is stored three times: in the list of its channel, in the channel count of its
connection and in the state of the connection's task. The three agree after any
calls in which a connection subscribes only to channels it is not in yet, and
names, when it unsubscribes, channels it is in, each once.
-/

namespace Radixox.Server
set_option autoImplicit false

open Radixox.Runs Radixox.Topics

namespace SubRegistry

/-- What the registry says about itself. -/
structure Consistent (reg : SubRegistry) : Prop where
  /-- An id is at most once in the list of a channel, and no list is empty. -/
  kept : WellKept reg.connMap
  /-- A listed id is that of a connection in the arena. -/
  known : ∀ channel id, id ∈ members reg.connMap channel → (reg.get id).isSome
  counted : ∀ id conn, reg.get id = some conn → conn.channelCount = (topicsOf reg.connMap id).length

/-- A message reaches the listed connections once each, and no other. -/
def Reaches (reg : SubRegistry) (encoded : SharedByte) (toFlush : List SubId) (reg' : SubRegistry) : Prop :=
  toFlush.Nodup ∧ (∀ id ∈ toFlush, (reg.get id).isSome) ∧ ∀ id, reg'.get id = (reg.get id).map fun conn =>
    if id ∈ toFlush then { conn with ioBuffer := conn.ioBuffer ++ encoded } else conn

variable {reg : SubRegistry}

theorem appendAll_fst (encoded : SharedByte) (ids : List SubId) : ∀ {reg : SubRegistry}, (∀ id ∈ ids, (reg.get id).isSome) →
    (reg.appendAll encoded ids).1 = ids := by
  induction ids with
  | nil => exact fun _ => rfl
  | cons id rest ih =>
    intro reg known
    obtain ⟨conn, held⟩ := Option.isSome_iff_exists.1 (known id List.mem_cons_self)
    have later : ∀ id' ∈ rest, ((reg.set id { conn with ioBuffer := conn.ioBuffer ++ encoded }).get id').isSome := by
      intro id' member
      rw [get_set held]
      split
      · rfl
      · exact known id' (List.mem_cons_of_mem id member)
    simp only [appendAll, held]
    exact congrArg (id :: ·) (ih later)

theorem connMap_appendAll (encoded : SharedByte) (ids : List SubId) :
    ∀ {reg : SubRegistry}, (reg.appendAll encoded ids).2.connMap = reg.connMap := by
  induction ids with
  | nil => exact rfl
  | cons id rest ih =>
    intro reg
    unfold appendAll
    split
    · exact ih
    · exact ih

/-- `publish_encode` counts the connections that get the message. -/
theorem Consistent.publishEncode (free : reg.connArena.FreeList) (consistent : reg.Consistent) {channel message encoded : SharedByte}
    (encoding : encodePubsubMessage channel message = some encoded) (rest : List SharedByte) :
    ∃ toFlush reg', reg.publishEncode (channel :: message :: rest) = .ok ((.integer (Int64.ofNat toFlush.length), toFlush), reg') ∧
      reg.Reaches encoded toFlush reg' := by
  cases found : reg.connMap.lookup channel with
  | none =>
    refine ⟨[], reg, ?_, List.nodup_nil, nofun, fun id => ?_⟩
    · simp only [SubRegistry.publishEncode, encoding, found]
      rfl
    · cases reg.get id <;> simp
  | some subs =>
    have listed : members reg.connMap channel = subs := by rw [members, found]; rfl
    have known : ∀ id ∈ subs, (reg.get id).isSome := fun id member => consistent.known channel id (listed ▸ member)
    have once : subs.Nodup := listed ▸ consistent.kept.once channel
    obtain ⟨-, get⟩ := appendAll_ok encoded subs free
    refine ⟨subs, (reg.appendAll encoded subs).2, ?_, once, known, fun id => ?_⟩
    · simp only [SubRegistry.publishEncode, encoding, found, appendAll_fst encoded subs known]
    · rw [get id]
      congr 1
      funext conn
      by_cases member : id ∈ subs
      · rw [if_pos member, List.count_eq_one_of_mem once member]
        simp
      · rw [if_neg member, List.count_eq_zero_of_not_mem member]
        simp

/-! ## What the operations do to the subscriptions -/

theorem connMap_modify (reg : SubRegistry) (id : SubId) (f : Conn → Conn) : (reg.modify id f).connMap = reg.connMap := by
  unfold modify
  split <;> rfl

theorem connMap_removeChannel (reg : SubRegistry) (id : SubId) (channel : SharedByte) :
    (removeChannel id reg channel).connMap = withdraw reg.connMap channel id := by
  rw [removeChannel, connMap_modify]
  dsimp only
  unfold withdraw members
  cases found : reg.connMap.lookup channel with
  | none => exact (erase_of_lookup_none found).symm
  | some subs => rfl

theorem connMap_cleanup (reg : SubRegistry) (id : SubId) :
    (reg.cleanup id).connMap = reg.connMap.keys.foldl (fun m channel => withdraw m channel id) reg.connMap := rfl

theorem get_modify {id : SubId} {conn : Conn} (map : TopicMap SharedByte SubId) (held : reg.get id = some conn)
    (f : Conn → Conn) (k : SubId) :
    (modify { reg with connMap := map } id f).get k = if k = id then some (f conn) else reg.get k := by
  have here : get { reg with connMap := map } id = some conn := held
  unfold modify
  rw [here]
  exact get_set here (f conn) k

/-- The same lists, and connections with the same counts. -/
theorem Consistent.congr {reg' : SubRegistry} (consistent : reg.Consistent) (map : reg'.connMap = reg.connMap)
    (counts : ∀ k, (reg'.get k).map Conn.channelCount = (reg.get k).map Conn.channelCount) : reg'.Consistent := by
  refine ⟨map ▸ consistent.kept, fun channel id listed => ?_, fun id conn held => ?_⟩
  · have before := consistent.known channel id (map ▸ listed)
    have same := congrArg Option.isSome (counts id)
    rw [Option.isSome_map, Option.isSome_map] at same
    rw [same, before]
  · have same := counts id
    rw [held, Option.map_some] at same
    obtain ⟨old, before, count⟩ := Option.map_eq_some_iff.1 same.symm
    rw [map, ← consistent.counted id old before, count]

/-- One more subscription of a connection that is counted accordingly. -/
theorem Consistent.enrol {reg' : SubRegistry} {id : SubId} {conn : Conn} {channel : SharedByte} (consistent : reg.Consistent)
    (new : id ∉ members reg.connMap channel) (map : reg'.connMap = enrol reg.connMap channel id)
    (get : ∀ k, reg'.get k = if k = id then some conn else reg.get k)
    (count : conn.channelCount = (topicsOf reg.connMap id).length + 1) : reg'.Consistent := by
  refine ⟨map ▸ consistent.kept.enrol new, fun channel' k listed => ?_, fun k conn' held => ?_⟩
  · rw [get k]
    split
    · rfl
    next other =>
      apply consistent.known channel' k
      rw [map, members_enrol] at listed
      split at listed
      · simpa [other] using listed
      · exact listed
  · rw [get k] at held
    rw [map, length_topicsOf_enrol new]
    split at held
    next same => rw [if_pos same, ← Option.some.inj held, count, same]
    next other => rw [if_neg other, consistent.counted k conn' held]

theorem Consistent.removeChannel {id : SubId} {conn : Conn} {channel : SharedByte} (consistent : reg.Consistent)
    (held : reg.get id = some conn) (listed : id ∈ members reg.connMap channel) :
    (removeChannel id reg channel).Consistent := by
  have get : ∀ k, (SubRegistry.removeChannel id reg channel).get k =
      if k = id then some { conn with channelCount := conn.channelCount - 1 } else reg.get k :=
    fun k => get_modify _ held _ k
  have map := connMap_removeChannel reg id channel
  refine ⟨map ▸ consistent.kept.withdraw channel id, fun channel' k listed' => ?_, fun k conn' held' => ?_⟩
  · rw [get k]
    split
    · rfl
    · apply consistent.known channel' k
      rw [map, members_withdraw] at listed'
      split at listed'
      · exact (List.mem_filter.1 listed').1
      · exact listed'
  · rw [get k] at held'
    have counts := length_topicsOf_withdraw listed k
    rw [map]
    split at held'
    next same =>
      rw [if_pos same, same] at counts
      rw [← Option.some.inj held', same, consistent.counted id conn held]
      exact Nat.sub_eq_of_eq_add counts
    next other =>
      rw [if_neg other] at counts
      rw [consistent.counted k conn' held', counts]

theorem subscribe_first (free : reg.connArena.FreeList) (write : WriteHalf) (buf channel : SharedByte) :
    ∃ reg' id n, reg.subscribe (.normal write buf) channel = .ok (reg', .pubSub id, n) ∧ reg'.connArena.FreeList ∧
      reg'.connMap = Topics.enrol reg.connMap channel id ∧ reg.get id = none ∧
      ∀ k, reg'.get k = if k = id then some { Conn.new write buf with channelCount := 1 } else reg.get k := by
  obtain ⟨id, arena, inserted, fresh, free', get'⟩ :=
    GenArena.insert_ok free { Conn.new write buf with channelCount := 1 }
  simp only [subscribe, inserted]
  exact ⟨_, id, _, rfl, free', rfl, fresh, get'⟩

theorem subscribe_again {id : SubId} {conn : Conn} (free : reg.connArena.FreeList) (held : reg.get id = some conn)
    (channel : SharedByte) :
    ∃ reg' n, reg.subscribe (.pubSub id) channel = .ok (reg', .pubSub id, n) ∧ reg'.connArena.FreeList ∧
      reg'.connMap = Topics.enrol reg.connMap channel id ∧
      ∀ k, reg'.get k = if k = id then some { conn with channelCount := conn.channelCount + 1 } else reg.get k := by
  obtain ⟨free', -⟩ := recounts_modify free reg.connMap id fun conn => conn.channelCount + 1
  refine ⟨_, _, rfl, free', ?_, get_modify reg.connMap held _⟩
  show AList.insert channel (members _ channel ++ [id]) _ = _
  rw [connMap_modify]
  rfl

/-- Leaving channels that list the connection, each once. -/
theorem Consistent.removeChannels {id : SubId} (channels : List SharedByte) : ∀ {reg : SubRegistry}, reg.connArena.FreeList →
    reg.Consistent → (reg.get id).isSome → channels.Nodup → (∀ channel ∈ channels, id ∈ members reg.connMap channel) →
    (channels.foldl (SubRegistry.removeChannel id) reg).Consistent := by
  induction channels with
  | nil => exact fun _ consistent _ _ _ => consistent
  | cons channel rest ih =>
    intro reg free consistent held distinct listed
    obtain ⟨conn, here⟩ := Option.isSome_iff_exists.1 held
    obtain ⟨fresh, distinct'⟩ := List.nodup_cons.1 distinct
    obtain ⟨free', cores⟩ := recounts_removeChannel free id channel
    apply ih free' (consistent.removeChannel here (listed channel List.mem_cons_self)) ?_ distinct' ?_
    · have same := congrArg Option.isSome (cores id)
      rw [Option.isSome_map, Option.isSome_map] at same
      rw [same, held]
    · intro channel' member
      have other : channel' ≠ channel := fun equal => fresh (equal ▸ member)
      rw [connMap_removeChannel, members_withdraw, if_neg other]
      exact listed channel' (List.mem_cons_of_mem channel member)

/-- The connection leaves the arena when no list has it. -/
theorem Consistent.remove {reg' : SubRegistry} {id : SubId} (consistent : reg.Consistent) (map : reg'.connMap = reg.connMap)
    (unlisted : ∀ channel, id ∉ members reg.connMap channel)
    (get : ∀ k, reg'.get k = if k = id then none else reg.get k) : reg'.Consistent := by
  refine ⟨map ▸ consistent.kept, fun channel k listed => ?_, fun k conn held => ?_⟩
  · rw [map] at listed
    have other : k ≠ id := fun equal => unlisted channel (equal ▸ listed)
    rw [get k, if_neg other]
    exact consistent.known channel k listed
  · rw [get k] at held
    split at held
    · cases held
    · rw [map, consistent.counted k conn held]

/-- The channels that `unsubscribe` leaves. -/
def leaves (order : ChannelOrder) (reg : SubRegistry) (id : SubId) (channels : List SharedByte) : List SharedByte :=
  if channels.isEmpty then order.enum (topicsOf reg.connMap id) else channels

/-- `unsubscribe` leaves the channels one by one, and a connection without channels whose write half is free goes back. -/
theorem unsubscribe_eq (order : ChannelOrder) (reg : SubRegistry) (id : SubId) (channels : List SharedByte) :
    ∃ frames reg' state, reg.unsubscribe order (.pubSub id) channels = (frames, reg', state) ∧
      (state = .pubSub id ∧ reg' = (leaves order reg id channels).foldl (SubRegistry.removeChannel id) reg ∨
        ∃ reg₁ conn write, reg₁ = (leaves order reg id channels).foldl (SubRegistry.removeChannel id) reg ∧
          reg₁.get id = some conn ∧ conn.channelCount = 0 ∧ conn.write = some write ∧
          state = .normal write conn.ioBuffer ∧ reg' = { reg₁ with connArena := (reg₁.connArena.remove id).2 }) := by
  have same : (if channels.isEmpty then
      order.enum (reg.connMap.keys.filter fun ch => ((reg.connMap.lookup ch).getD []).contains id) else channels) =
      leaves order reg id channels := rfl
  simp only [unsubscribe, same]
  obtain ⟨reg₁, eq⟩ : ∃ reg₁, reg₁ = (leaves order reg id channels).foldl (SubRegistry.removeChannel id) reg := ⟨_, rfl⟩
  rw [← eq]
  split
  next none' =>
    split
    next conn held =>
      rw [held, Option.map_some, Option.getD_some] at none'
      split
      next write out => exact ⟨_, _, _, rfl, .inr ⟨reg₁, conn, write, rfl, held, none', out, rfl, rfl⟩⟩
      next => exact ⟨_, _, _, rfl, .inl ⟨rfl, rfl⟩⟩
    next => exact ⟨_, _, _, rfl, .inl ⟨rfl, rfl⟩⟩
  next => exact ⟨_, _, _, rfl, .inl ⟨rfl, rfl⟩⟩

theorem Consistent.unsubscribe {id : SubId} (order : ChannelOrder) (free : reg.connArena.FreeList) (consistent : reg.Consistent)
    (held : (reg.get id).isSome) {channels : List SharedByte} (distinct : channels.Nodup)
    (listed : ∀ channel ∈ channels, id ∈ members reg.connMap channel) :
    (reg.unsubscribe order (.pubSub id) channels).2.1.Consistent := by
  have left : (leaves order reg id channels).Nodup ∧ ∀ channel ∈ leaves order reg id channels, id ∈ members reg.connMap channel := by
    unfold leaves
    split
    · have perm := order.enum_perm (topicsOf reg.connMap id)
      exact ⟨perm.nodup_iff.2 nodup_topicsOf, fun channel member => mem_topicsOf.1 (perm.mem_iff.1 member)⟩
    · exact ⟨distinct, listed⟩
  have after := Consistent.removeChannels _ free consistent held left.1 left.2
  obtain ⟨frames, reg', state, outcome, ⟨-, rfl⟩ | ⟨reg₁, conn, write, rfl, here, none', -, -, rfl⟩⟩ :=
    unsubscribe_eq order reg id channels
  · rw [outcome]
    exact after
  · rw [outcome]
    obtain ⟨free₁, -⟩ := recounts_removeChannels id (leaves order reg id channels) free
    obtain ⟨-, -, get⟩ := GenArena.remove_ok free₁ here
    refine after.remove rfl ?_ get
    apply topicsOf_eq_nil
    rw [← after.counted id conn here, none']

theorem Consistent.cleanup {id : SubId} {conn : Conn} (free : reg.connArena.FreeList) (consistent : reg.Consistent)
    (held : reg.get id = some conn) :
    (reg.cleanup id).Consistent := by
  have map := connMap_cleanup reg id
  have listed : ∀ channel, members (reg.cleanup id).connMap channel = (members reg.connMap channel).filter (· ≠ id) := by
    intro channel
    rw [map, members_withdraws]
    split
    · rfl
    next absent =>
      have none' : reg.connMap.lookup channel = none := AList.lookup_eq_none.2 (fun there => absent (AList.mem_keys.1 there))
      simp [members, none']
  obtain ⟨-, -, get⟩ := GenArena.remove_ok free held
  refine ⟨map ▸ consistent.kept.withdraws id _, fun channel k member => ?_, fun k conn' held' => ?_⟩
  · rw [listed, List.mem_filter] at member
    have other : k ≠ id := by simpa using member.2
    have there : (reg.cleanup id).get k = if k = id then none else reg.get k := get k
    rw [there, if_neg other]
    exact consistent.known channel k member.1
  · have there : (reg.cleanup id).get k = if k = id then none else reg.get k := get k
    rw [there] at held'
    split at held'
    · cases held'
    next other =>
      rw [consistent.counted k conn' held']
      apply length_topicsOf_congr
      intro channel
      rw [listed, List.mem_filter]
      simp [other]

end SubRegistry

/-! ## Runs of calls -/

/-- The registry and the states of the connections' tasks. -/
structure Callers where
  registry : SubRegistry
  states : Nat → ConnState

/-- A call into the registry. The last two are those of the tasks that write. -/
inductive Call where
  | subscribe (c : Nat) (channel : SharedByte)
  | unsubscribe (c : Nat) (channels : List SharedByte)
  | publishEncode (args : List SharedByte)
  | cleanup (c : Nat)
  | getConnWriter (id : SubId)
  | restituteConnWriter (id : SubId) (cw : ConnWriter)

namespace Callers

def new : Callers := ⟨.new, fun c => .normal c []⟩

def setState (s : Callers) (c : Nat) (state : ConnState) : Callers := { s with states := Function.update s.states c state }

/-- A closing connection calls `cleanup` if it is a subscriber. -/
def step (order : ChannelOrder) (s : Callers) : Call → Except Fault (Unit × Callers)
  | .subscribe c channel => do
    let (registry, state, _) ← s.registry.subscribe (s.states c) channel
    return ((), { s with registry := registry }.setState c state)
  | .unsubscribe c channels =>
    let (_, registry, state) := s.registry.unsubscribe order (s.states c) channels
    .ok ((), { s with registry := registry }.setState c state)
  | .publishEncode args => do
    let (_, registry) ← s.registry.publishEncode args
    return ((), { s with registry := registry })
  | .cleanup c => match s.states c with
    | .pubSub id => .ok ((), { s with registry := s.registry.cleanup id }.setState c .none)
    | _ => .ok ((), s.setState c .none)
  | .getConnWriter id =>
    .ok ((), { s with registry := s.registry.modify id fun conn => (conn.getConnWriter.map Prod.snd).getD conn })
  | .restituteConnWriter id cw => .ok ((), { s with registry := s.registry.modify id (·.restituteConnWriter cw) })

/-- A connection subscribes to channels it is not in yet, and leaves channels it is in, each named once. -/
def Fits (s : Callers) : Call → Prop
  | .subscribe c channel => ∀ id, s.states c = .pubSub id → id ∉ members s.registry.connMap channel
  | .unsubscribe c channels => ∀ id, s.states c = .pubSub id →
      channels.Nodup ∧ ∀ channel ∈ channels, id ∈ members s.registry.connMap channel
  | _ => True

instance decidableAsSubscriber (state : ConnState) (p : SubId → Prop) [∀ id, Decidable (p id)] : Decidable (∀ id, state = .pubSub id → p id) :=
  match state with
  | .pubSub id => decidable_of_iff (p id) ⟨fun holds _ same => ConnState.pubSub.inj same ▸ holds, fun all => all id rfl⟩
  | .normal _ _ | .blocking | .none => isTrue nofun

instance (s : Callers) : (call : Call) → Decidable (s.Fits call)
  | .subscribe .. => inferInstanceAs (Decidable (∀ id, _ = ConnState.pubSub id → _))
  | .unsubscribe .. => inferInstanceAs (Decidable (∀ id, _ = ConnState.pubSub id → _))
  | .publishEncode _ | .cleanup _ | .getConnWriter _ | .restituteConnWriter .. => inferInstanceAs (Decidable True)

/-- The registry is consistent, and each subscriber is in its arena under an id of its own. -/
structure Agree (s : Callers) : Prop where
  free : s.registry.connArena.FreeList
  consistent : s.registry.Consistent
  held : ∀ c id, s.states c = .pubSub id → (s.registry.get id).isSome
  keys : ∀ c c' id, s.states c = .pubSub id → s.states c' = .pubSub id → c = c'

theorem agree_new : Agree new where
  free := SubRegistry.freeList_new
  consistent := by
    refine ⟨⟨fun _ => List.nodup_nil, fun _ _ found => ?_⟩, fun _ _ listed => ?_, fun id conn held => ?_⟩
    · cases found
    · cases listed
    · rw [new, SubRegistry.get_new] at held
      cases held
  held c id state := by cases state
  keys c c' id state := by cases state

variable {s s' : Callers} {c : Nat}

theorem states_setState (s : Callers) (c : Nat) (state : ConnState) (d : Nat) :
    (s.setState c state).states d = if d = c then state else s.states d :=
  Function.update_apply ..

/-- The same connections, with the counts they had. -/
theorem Agree.congr (agree : s.Agree) {registry : SubRegistry} (free : registry.connArena.FreeList)
    (map : registry.connMap = s.registry.connMap)
    (counts : ∀ k, (registry.get k).map Conn.channelCount = (s.registry.get k).map Conn.channelCount) :
    Agree { s with registry := registry } := by
  refine ⟨free, agree.consistent.congr map counts, fun d id state => ?_, agree.keys⟩
  have same := congrArg Option.isSome (counts id)
  rw [Option.isSome_map, Option.isSome_map] at same
  exact same.trans (agree.held d id state)

/-- A step of the connection `c`, which ends as no subscriber, or under its old or a new id. -/
theorem Agree.setState (agree : s.Agree) {registry : SubRegistry} {state : ConnState} (free : registry.connArena.FreeList)
    (consistent : registry.Consistent)
    (kept : ∀ d id, d ≠ c → s.states d = .pubSub id → (registry.get id).isSome)
    (mine : ∀ id, state = .pubSub id → (registry.get id).isSome ∧ (s.states c = .pubSub id ∨ s.registry.get id = none)) :
    Agree ({ s with registry := registry }.setState c state) := by
  have apart : ∀ d id, d ≠ c → s.states d = .pubSub id → state ≠ .pubSub id := by
    intro d id other before after
    rcases (mine id after).2 with old | absent
    · exact other (agree.keys d c id before old)
    · have held := agree.held d id before
      rw [absent] at held
      cases held
  refine ⟨free, consistent, fun d id now => ?_, fun d d' id now now' => ?_⟩
  · rw [states_setState] at now
    split at now
    · exact (mine id now).1
    next other => exact kept d id other now
  · rw [states_setState] at now now'
    split at now
    next here =>
      split at now'
      next here' => rw [here, here']
      next other' => exact absurd now (apart d' id other' now')
    next other =>
      split at now'
      next => exact absurd now' (apart d id other now)
      next => exact agree.keys d d' id now now'

theorem agree_subscribe (agree : s.Agree) (order : ChannelOrder) {channel : SharedByte} (fits : s.Fits (.subscribe c channel))
    (taken : s.step order (.subscribe c channel) = .ok ((), s')) : s'.Agree := by
  simp only [step, bind, Except.bind] at taken
  cases before : s.states c with
  | blocking | none => rw [before] at taken; cases taken
  | normal write buf =>
    obtain ⟨registry, id, n, outcome, free, map, absent, get⟩ := SubRegistry.subscribe_first agree.free write buf channel
    rw [before, outcome] at taken
    obtain rfl := (Prod.mk.inj (Except.ok.inj taken)).2
    have unlisted : ∀ channel, id ∉ members s.registry.connMap channel := by
      intro channel' listed
      have known := agree.consistent.known channel' id listed
      rw [absent] at known
      cases known
    have none' : (topicsOf s.registry.connMap id).length = 0 := by
      rw [List.length_eq_zero_iff, List.eq_nil_iff_forall_not_mem]
      exact fun channel' member => unlisted channel' (mem_topicsOf.1 member)
    apply agree.setState free (agree.consistent.enrol (unlisted channel) map get (by rw [none']))
    · intro d k _ state
      rw [get k]
      split
      · rfl
      · exact agree.held d k state
    · intro k same
      obtain rfl := ConnState.pubSub.inj same
      exact ⟨by rw [get, if_pos rfl]; rfl, .inr absent⟩
  | pubSub id =>
    obtain ⟨conn, held⟩ := Option.isSome_iff_exists.1 (agree.held c id before)
    obtain ⟨registry, n, outcome, free, map, get⟩ := SubRegistry.subscribe_again agree.free held channel
    rw [before, outcome] at taken
    obtain rfl := (Prod.mk.inj (Except.ok.inj taken)).2
    have count := congrArg (· + 1) (agree.consistent.counted id conn held)
    apply agree.setState free (agree.consistent.enrol (fits id before) map get count)
    · intro d k _ state
      rw [get k]
      split
      · rfl
      · exact agree.held d k state
    · intro k same
      obtain rfl := ConnState.pubSub.inj same
      exact ⟨by rw [get, if_pos rfl]; rfl, .inl before⟩

theorem agree_unsubscribe (agree : s.Agree) (order : ChannelOrder) {channels : List SharedByte}
    (fits : s.Fits (.unsubscribe c channels)) (taken : s.step order (.unsubscribe c channels) = .ok ((), s')) : s'.Agree := by
  simp only [step] at taken
  obtain rfl := (Prod.mk.inj (Except.ok.inj taken)).2
  cases before : s.states c with
  | blocking | none | normal =>
    apply agree.setState agree.free agree.consistent
    · exact fun d id _ state => agree.held d id state
    · exact fun id same => by cases same
  | pubSub id =>
    obtain ⟨distinct, listed⟩ := fits id before
    have held := agree.held c id before
    have consistent := agree.consistent.unsubscribe order agree.free held distinct listed
    obtain ⟨frames, registry, state, outcome, cases⟩ := SubRegistry.unsubscribe_pubSub agree.free order id channels
    rw [outcome] at consistent ⊢
    dsimp only at consistent ⊢
    have present : ∀ {k : SubId} {o : Option Conn}, (registry.get k).map Conn.core = o.map Conn.core →
        o.isSome → (registry.get k).isSome := by
      intro k o same some'
      have kept := congrArg Option.isSome same
      rw [Option.isSome_map, Option.isSome_map] at kept
      rw [kept, some']
    rcases cases with ⟨rfl, free, cores⟩ | ⟨conn, write, -, -, rfl, free, cores⟩
    · apply agree.setState free consistent
      · exact fun d k _ state => present (cores k) (agree.held d k state)
      · intro k same
        obtain rfl := ConnState.pubSub.inj same
        exact ⟨present (cores id) held, .inl before⟩
    · apply agree.setState free consistent
      · intro d k other state
        have differ : k ≠ id := fun equal => other (agree.keys d c k state (equal ▸ before))
        have core := cores k
        rw [if_neg differ] at core
        exact present core (agree.held d k state)
      · exact fun k same => by cases same

theorem agree_modify (agree : s.Agree) (id : SubId) {f : Conn → Conn} (count : ∀ conn, (f conn).channelCount = conn.channelCount) :
    Agree { s with registry := s.registry.modify id f } := by
  cases held : s.registry.get id with
  | none =>
    have same : s.registry.modify id f = s.registry := by rw [SubRegistry.modify, held]
    rw [same]
    exact agree
  | some conn =>
    apply agree.congr
    · rw [SubRegistry.modify, held]
      exact SubRegistry.freeList_set agree.free held (f conn)
    · exact SubRegistry.connMap_modify ..
    · intro k
      have get : (s.registry.modify id f).get k = if k = id then some (f conn) else s.registry.get k :=
        SubRegistry.get_modify s.registry.connMap held f k
      rw [get]
      split
      next same => rw [same, held, Option.map_some, Option.map_some, count]
      next => rfl

theorem agree_publishEncode (agree : s.Agree) (order : ChannelOrder) {args : List SharedByte}
    (taken : s.step order (.publishEncode args) = .ok ((), s')) : s'.Agree := by
  obtain ⟨⟨⟨response, toFlush⟩, registry⟩, published, done⟩ := Outcomes.exists_of_bind taken
  obtain rfl := (Prod.mk.inj (Except.ok.inj done)).2
  obtain ⟨-, rfl, -⟩ | ⟨-, -, -, encoded, subs, -, -, -, appended⟩ := SubRegistry.publishEncode_cases published
  · exact agree
  · obtain rfl := (Prod.mk.inj appended).2
    obtain ⟨free, get⟩ := SubRegistry.appendAll_ok encoded subs agree.free
    apply agree.congr free (SubRegistry.connMap_appendAll encoded subs)
    intro k
    rw [get k, Option.map_map]
    rfl

theorem agree_cleanup (agree : s.Agree) (order : ChannelOrder) (taken : s.step order (.cleanup c) = .ok ((), s')) : s'.Agree := by
  simp only [step] at taken
  split at taken
  next id before =>
    obtain rfl := (Prod.mk.inj (Except.ok.inj taken)).2
    obtain ⟨conn, held⟩ := Option.isSome_iff_exists.1 (agree.held c id before)
    obtain ⟨-, free, get⟩ := GenArena.remove_ok agree.free held
    apply agree.setState free (agree.consistent.cleanup agree.free held)
    · intro d k other state
      have differ : k ≠ id := fun equal => other (agree.keys d c k state (equal ▸ before))
      have there : (s.registry.cleanup id).get k = if k = id then none else s.registry.get k := get k
      rw [there, if_neg differ]
      exact agree.held d k state
    · exact fun k same => by cases same
  next =>
    obtain rfl := (Prod.mk.inj (Except.ok.inj taken)).2
    apply agree.setState agree.free agree.consistent
    · exact fun d id _ state => agree.held d id state
    · exact fun id same => by cases same

theorem agree_step (agree : s.Agree) (order : ChannelOrder) {call : Call} (fits : s.Fits call)
    (taken : s.step order call = .ok ((), s')) : s'.Agree := by
  cases call with
  | subscribe c channel => exact agree_subscribe agree order fits taken
  | unsubscribe c channels => exact agree_unsubscribe agree order fits taken
  | publishEncode args => exact agree_publishEncode agree order taken
  | cleanup c => exact agree_cleanup agree order taken
  | getConnWriter id =>
    obtain rfl := (Prod.mk.inj (Except.ok.inj taken)).2
    apply agree_modify agree
    intro conn
    unfold Conn.getConnWriter
    split <;> rfl
  | restituteConnWriter id cw =>
    obtain rfl := (Prod.mk.inj (Except.ok.inj taken)).2
    exact agree_modify agree id fun _ => rfl

/-- After every run of fitting calls the registry is consistent, and a message counts and reaches each subscriber of its
channel once. -/
theorem run_consistent (order : ChannelOrder) (calls : List Call) (replies : List Unit) (s : Callers)
    (fits : Meets (step order) Fits calls new) (ran : run (step order) calls new = .ok (replies, s)) :
    s.registry.Consistent ∧ ∀ channel message encoded rest, SubRegistry.encodePubsubMessage channel message = some encoded →
      ∃ toFlush reg', s.registry.publishEncode (channel :: message :: rest) =
          .ok ((.integer (Int64.ofNat toFlush.length), toFlush), reg') ∧ s.registry.Reaches encoded toFlush reg' := by
  have agree : s.Agree := (Reaches.run .refl fits ran).invariant agree_new fun _ _ _ _ agree fits taken =>
    agree_step agree order fits taken
  exact ⟨agree.consistent, fun channel message encoded rest encoding =>
    agree.consistent.publishEncode agree.free encoding rest⟩

/-- Two subscribers of one channel. One joins a second channel, leaves the first and closes. -/
def joining : List Call :=
  [.subscribe 0 (ascii "a"), .subscribe 1 (ascii "a"), .subscribe 0 (ascii "b"), .unsubscribe 0 [ascii "a"],
    .publishEncode [ascii "a", ascii "hi"], .unsubscribe 1 [], .cleanup 0]

theorem run_consistent_joining : ∃ replies s, run (step .stored) joining new = .ok (replies, s) ∧ s.registry.Consistent := by
  have ends : (run (step .stored) joining new).isOk = true := by decide +kernel
  cases ran : run (step .stored) joining new with
  | error => rw [ran] at ends; cases ends
  | ok p => exact ⟨p.1, p.2, rfl, (run_consistent .stored joining p.1 p.2 (by decide +kernel) ran).1⟩

/-- The second time is one entry more in the list, and a message is counted and sent twice. -/
theorem subscribe_twice_not_consistent : ¬ ∀ order calls replies s, run (step order) calls new = .ok (replies, s) →
    s.registry.Consistent := by
  intro consistent
  have twice : (run (step .stored) [.subscribe 0 (ascii "a"), .subscribe 0 (ascii "a")] new).toOption.map
      (fun p => members p.2.registry.connMap (ascii "a")) = some [⟨0, 0⟩, ⟨0, 0⟩] := by decide +kernel
  cases ran : run (step .stored) [.subscribe 0 (ascii "a"), .subscribe 0 (ascii "a")] new with
  | error => rw [ran] at twice; cases twice
  | ok p =>
    have once := (consistent .stored _ p.1 p.2 ran).kept.once (ascii "a")
    rw [ran] at twice
    rw [show members p.2.registry.connMap (ascii "a") = [⟨0, 0⟩, ⟨0, 0⟩] from Option.some.inj twice] at once
    exact absurd once (by decide)

end Callers

end Radixox.Server
