import Mathlib.Data.List.AList
import Radixox.Lib.Outcomes
import Radixox.Server.GenArena
import Radixox.Server.SharedFrame

/-!
# Subscriber connections and their registry

`bin/utils/mod.rs`: the connection of a subscriber with its two buffers, the registry of
all of them and the state a connection's own task keeps. What is awaited is not
here: `Tasks` puts these functions together with the futures that hold a writer.
-/

namespace Radixox.Server
set_option autoImplicit false

/-- The bytes of an ASCII text. -/
def ascii (s : String) : SharedByte := s.toList.map fun c => UInt8.ofNat c.toNat

/-- The write half of a socket, by the number of its connection. -/
abbrev WriteHalf := Nat

/-! ## `Conn` -/

/-- The wakers are left out: they only say whom to poll. -/
inductive CancelationState where
  | submit
  | running
  | canceled (reason : SharedByte)
deriving DecidableEq

def CancelationState.isCanceled : CancelationState → Bool
  | .canceled _ => true
  | _ => false

structure Conn where
  write : Option WriteHalf
  cancelation : CancelationState
  ioBuffer : SharedByte
  swapBuffer : Option SharedByte
  channelCount : Nat
deriving DecidableEq

structure ConnWriter where
  write : WriteHalf
  buffer : SharedByte
deriving DecidableEq

namespace Conn

def new (write : WriteHalf) (ioBuffer : SharedByte) : Conn := ⟨some write, .submit, ioBuffer, some [], 0⟩

/-- Swap the buffers and take the write half. `none` if a writer is already out. -/
def getConnWriter (conn : Conn) : Option (ConnWriter × Conn) :=
  match conn.write, conn.swapBuffer with
  | some write, some swapBuffer =>
    some (⟨write, conn.ioBuffer⟩, { conn with write := none, ioBuffer := swapBuffer, swapBuffer := none })
  | _, _ => none

def restituteConnWriter (conn : Conn) (cw : ConnWriter) : Conn :=
  { conn with write := some cw.write, swapBuffer := some cw.buffer }

/-- Without the number of channels. -/
def core (conn : Conn) : Conn := { conn with channelCount := 0 }

def cancel (conn : Conn) (reason : SharedByte) : Conn := { conn with cancelation := .canceled reason }

end Conn

/-! ## `SubRegistry` -/

abbrev SubId := Key

structure SubRegistry where
  connArena : GenArena Conn
  connMap : AList (fun _ : SharedByte => List SubId)

/-- The state of a connection's own task. -/
inductive ConnState where
  | normal (write : WriteHalf) (ioBuffer : SharedByte)
  | pubSub (id : SubId)
  | blocking
  | none
deriving DecidableEq

/-- The order in which the channels of a `HashMap` are iterated. -/
structure ChannelOrder where
  enum : List SharedByte → List SharedByte
  enum_perm : ∀ l, (enum l).Perm l

/-- The channels as the list holds them. -/
def ChannelOrder.stored : ChannelOrder := ⟨id, fun l => .refl l⟩

/-- What ends a step: a panic of the source, or that the step is not possible in the state. -/
inductive Fault where
  /-- "subscribe called on invalid ConnState". -/
  | subscribeInvalid
  /-- "send called on None ConnState". -/
  | sendInvalid
  /-- "No read should occurs while conn state is None". -/
  | readInvalid
  /-- "can't get cancelation". -/
  | cancelation
  /-- "state-sensitive handler reached run_handler". -/
  | stateSensitive
  /-- A `todo!` of the blocking mode. -/
  | todo
  /-- A slice or array index out of range. -/
  | index
  /-- No task is there to make this step. -/
  | disabled
deriving DecidableEq

namespace SubRegistry

def DEFAULT_CAPACITY : Nat := 64

def new : SubRegistry := ⟨.withCapacity DEFAULT_CAPACITY, ∅⟩

def get (reg : SubRegistry) (id : SubId) : Option Conn := reg.connArena.get id

/-- Writing through `get_mut`. -/
def set (reg : SubRegistry) (id : SubId) (conn : Conn) : SubRegistry := { reg with connArena := reg.connArena.set id conn }

/-- Changing a connection through `get_mut`; nothing happens for a stale id. -/
def modify (reg : SubRegistry) (id : SubId) (f : Conn → Conn) : SubRegistry :=
  match reg.get id with
  | some conn => reg.set id (f conn)
  | none => reg

/-- Normal to PubSub on the first channel, or one more channel. The result has the total channel count. -/
def subscribe (reg : SubRegistry) (state : ConnState) (channel : SharedByte) :
    Except Fault (SubRegistry × ConnState × Nat) := do
  let (reg, id) ← match state with
    | .normal write ioBuffer =>
      match reg.connArena.insert { Conn.new write ioBuffer with channelCount := 1 } with
      | some (key, arena) => pure ({ reg with connArena := arena }, key)
      | none => .error .index
    | .pubSub id => pure (reg.modify id fun conn => { conn with channelCount := conn.channelCount + 1 }, id)
    | _ => .error .subscribeInvalid
  let subs := (reg.connMap.lookup channel).getD []
  let reg := { reg with connMap := reg.connMap.insert channel (subs ++ [id]) }
  return (reg, .pubSub id, ((reg.get id).map Conn.channelCount).getD 0)

/-- One turn of the loop of `unsubscribe`. -/
def removeChannel (id : SubId) (reg : SubRegistry) (channel : SharedByte) : SubRegistry :=
  let connMap := match reg.connMap.lookup channel with
    | none => reg.connMap
    | some subs =>
      let subs := subs.filter (· ≠ id)
      if subs.isEmpty then reg.connMap.erase channel else reg.connMap.insert channel subs
  { reg with connMap := connMap }.modify id fun conn => { conn with channelCount := conn.channelCount - 1 }

/-- Remove channels. Goes back to Normal if none is left and the write half is free. -/
def unsubscribe (order : ChannelOrder) (reg : SubRegistry) (state : ConnState) (channels : List SharedByte) :
    List SharedFrame × SubRegistry × ConnState :=
  match state with
  | .pubSub id =>
    let toRemove := if channels.isEmpty then
        order.enum (reg.connMap.keys.filter fun ch => ((reg.connMap.lookup ch).getD []).contains id)
      else channels
    let reg := toRemove.foldl (removeChannel id) reg
    let remaining := ((reg.get id).map Conn.channelCount).getD 0
    let frames := toRemove.zipIdx.map fun (ch, i) =>
      .array [.bulkString (ascii "unsubscribe"), .bulkString ch,
        .integer (Int64.ofNat (remaining - (toRemove.length - 1 - i)))]
    if remaining = 0 then match reg.get id with
      | some conn => match conn.write with
        | some write => (frames, { reg with connArena := (reg.connArena.remove id).2 }, .normal write conn.ioBuffer)
        -- A writer is out: stay PubSub with 0 channels.
        | none => (frames, reg, state)
      | none => (frames, reg, state)
    else (frames, reg, state)
  | _ => ([], reg, state)

def encodePubsubMessage (channel message : SharedByte) : Option SharedByte :=
  extendEncode [] (.array [.bulkString (ascii "message"), .bulkString channel, .bulkString message])

/-- Append to the buffer of every subscriber that is there, and list these. -/
def appendAll (encoded : SharedByte) (reg : SubRegistry) : List SubId → List SubId × SubRegistry
  | [] => ([], reg)
  | id :: rest => match reg.get id with
    | some conn =>
      let (toFlush, reg) := appendAll encoded (reg.set id { conn with ioBuffer := conn.ioBuffer ++ encoded }) rest
      (id :: toFlush, reg)
    | none => appendAll encoded reg rest

/-- Write a message into the buffers of all subscribers. The result has the ids to flush. -/
def publishEncode (reg : SubRegistry) (args : List SharedByte) : Except Fault ((SharedFrame × List SubId) × SubRegistry) :=
  match args with
  | channel :: message :: _ => match encodePubsubMessage channel message with
    | none => .error .index
    | some encoded => match reg.connMap.lookup channel with
      | none => .ok ((.integer 0, []), reg)
      | some subs =>
        let (toFlush, reg) := reg.appendAll encoded subs
        .ok ((.integer (Int64.ofNat subs.length), toFlush), reg)
  | _ => .ok ((.error (ascii "ERR wrong number of arguments for 'PUBLISH' command"), []), reg)

/-- Full cleanup on connection close. -/
def cleanup (reg : SubRegistry) (id : SubId) : SubRegistry :=
  let connMap := reg.connMap.keys.foldl (fun (m : AList fun _ : SharedByte => List SubId) ch =>
    let subs := ((m.lookup ch).getD []).filter (· ≠ id)
    if subs.isEmpty then m.erase ch else m.insert ch subs) reg.connMap
  ⟨(reg.connArena.remove id).2, connMap⟩

/-! ## What the operations do to the connections -/

variable {reg : SubRegistry}

/-- A message is written for the subscribers of its channel, or there are none and nothing changes. -/
theorem publishEncode_cases {args : List SharedByte} {response : SharedFrame} {toFlush : List SubId} {reg' : SubRegistry}
    (published : reg.publishEncode args = .ok ((response, toFlush), reg')) :
    (toFlush = [] ∧ reg' = reg ∧ ∀ channel message rest, args = channel :: message :: rest → reg.connMap.lookup channel = none) ∨
      ∃ channel message rest encoded subs, args = channel :: message :: rest ∧
        encodePubsubMessage channel message = some encoded ∧ reg.connMap.lookup channel = some subs ∧
        (reg.appendAll encoded subs) = (toFlush, reg') := by
  unfold publishEncode at published
  split at published
  next channel message rest =>
    split at published
    · cases published
    next encoded encoding =>
      split at published
      next absent =>
        cases published
        refine .inl ⟨rfl, rfl, fun channel' message' rest' same => ?_⟩
        cases same
        exact absent
      next subs found =>
        cases published
        exact .inr ⟨channel, message, rest, encoded, subs, rfl, encoding, found, rfl⟩
  next none' =>
    cases published
    exact .inl ⟨rfl, rfl, fun channel message rest same => absurd same (none' channel message rest)⟩

theorem get_set {id : SubId} {conn : Conn} (held : reg.get id = some conn) (conn' : Conn) (k : SubId) :
    (reg.set id conn').get k = if k = id then some conn' else reg.get k :=
  GenArena.get_set held conn' k

theorem freeList_set {id : SubId} {conn : Conn} (free : reg.connArena.FreeList) (held : reg.get id = some conn)
    (conn' : Conn) : (reg.set id conn').connArena.FreeList :=
  GenArena.freeList_set free held conn'

theorem get_new (k : SubId) : new.get k = none := GenArena.get_withCapacity _ k

theorem freeList_new : new.connArena.FreeList := GenArena.freeList_withCapacity _

/-- The arena is sound and the connections are the same up to their channel counts. -/
def Recounts (reg reg' : SubRegistry) : Prop :=
  reg'.connArena.FreeList ∧ ∀ k, (reg'.get k).map Conn.core = (reg.get k).map Conn.core

theorem recounts_modify (free : reg.connArena.FreeList) (map : AList fun _ : SharedByte => List SubId) (id : SubId)
    (count : Conn → Nat) :
    reg.Recounts (modify { reg with connMap := map } id fun conn => { conn with channelCount := count conn }) := by
  have held : ∀ k, get { reg with connMap := map } k = reg.get k := fun _ => rfl
  unfold modify
  rw [held]
  cases here : reg.get id with
  | none => exact ⟨free, fun _ => rfl⟩
  | some conn =>
    rw [← held] at here
    refine ⟨freeList_set free here _, fun k => ?_⟩
    rw [get_set here]
    split
    next equal => rw [equal, ← held, here]; rfl
    next => rfl

theorem recounts_removeChannel (free : reg.connArena.FreeList) (id : SubId) (channel : SharedByte) :
    reg.Recounts (removeChannel id reg channel) :=
  recounts_modify free _ id fun conn => conn.channelCount - 1

theorem recounts_removeChannels (id : SubId) (channels : List SharedByte) :
    ∀ {reg : SubRegistry}, reg.connArena.FreeList → reg.Recounts (channels.foldl (removeChannel id) reg) := by
  induction channels with
  | nil => exact fun free => ⟨free, fun _ => rfl⟩
  | cons channel rest ih =>
    intro reg free
    obtain ⟨free', first⟩ := recounts_removeChannel free id channel
    obtain ⟨free'', others⟩ := ih free'
    exact ⟨free'', fun k => (others k).trans (first k)⟩

/-- The first channel makes the connection a subscriber under a new id. -/
theorem subscribe_normal (free : reg.connArena.FreeList) (write : WriteHalf) (buf channel : SharedByte) :
    ∃ reg' id n, reg.subscribe (.normal write buf) channel = .ok (reg', .pubSub id, n) ∧ reg'.connArena.FreeList ∧
      reg.get id = none ∧ ∀ k, reg'.get k = if k = id then some { Conn.new write buf with channelCount := 1 } else reg.get k := by
  obtain ⟨id, arena, inserted, fresh, free', get'⟩ :=
    GenArena.insert_ok free { Conn.new write buf with channelCount := 1 }
  simp only [subscribe, inserted]
  exact ⟨_, id, _, rfl, free', fresh, get'⟩

theorem subscribe_pubSub (free : reg.connArena.FreeList) (id : SubId) (channel : SharedByte) :
    ∃ reg' n, reg.subscribe (.pubSub id) channel = .ok (reg', .pubSub id, n) ∧ reg.Recounts reg' :=
  ⟨_, _, rfl, recounts_modify free reg.connMap id fun conn => conn.channelCount + 1⟩

/-- The connection stays a subscriber, or it is free and takes its buffer along. -/
theorem unsubscribe_pubSub (free : reg.connArena.FreeList) (order : ChannelOrder) (id : SubId) (channels : List SharedByte) :
    ∃ frames reg' state, reg.unsubscribe order (.pubSub id) channels = (frames, reg', state) ∧
      (state = .pubSub id ∧ reg.Recounts reg' ∨
        ∃ conn write, reg.get id = some conn ∧ conn.write = some write ∧ state = .normal write conn.ioBuffer ∧
          reg'.connArena.FreeList ∧ ∀ k, (reg'.get k).map Conn.core = if k = id then none else (reg.get k).map Conn.core) := by
  simp only [unsubscribe]
  obtain ⟨toRemove, eq⟩ : ∃ l, l = if channels.isEmpty then
    order.enum (reg.connMap.keys.filter fun ch => ((reg.connMap.lookup ch).getD []).contains id) else channels := ⟨_, rfl⟩
  rw [← eq]
  obtain ⟨free', same⟩ := recounts_removeChannels id toRemove free
  obtain ⟨reg', eq'⟩ : ∃ reg', reg' = toRemove.foldl (removeChannel id) reg := ⟨_, rfl⟩
  rw [← eq'] at free' same ⊢
  split
  · split
    next conn held =>
      split
      next write out =>
        obtain ⟨-, free'', get''⟩ := GenArena.remove_ok free' held
        have before := same id
        rw [held] at before
        obtain ⟨old, held₀, core⟩ := Option.map_eq_some_iff.1 before.symm
        obtain ⟨writes, buffers⟩ : old.write = conn.write ∧ old.ioBuffer = conn.ioBuffer := by
          simp only [Conn.core, Conn.mk.injEq] at core
          exact ⟨core.1, core.2.2.1⟩
        refine ⟨_, _, _, rfl, .inr ⟨old, write, held₀, by rw [writes, out], by rw [buffers], free'', fun k => ?_⟩⟩
        have removed : get { reg' with connArena := (reg'.connArena.remove id).2 } k = if k = id then none else reg'.get k :=
          get'' k
        rw [removed]
        split
        · rfl
        · exact same k
      next => exact ⟨_, _, _, rfl, .inl ⟨rfl, free', same⟩⟩
    next => exact ⟨_, _, _, rfl, .inl ⟨rfl, free', same⟩⟩
  · exact ⟨_, _, _, rfl, .inl ⟨rfl, free', same⟩⟩

theorem unsubscribe_normal (order : ChannelOrder) (write : WriteHalf) (buf : SharedByte) (channels : List SharedByte) :
    reg.unsubscribe order (.normal write buf) channels = ([], reg, .normal write buf) := rfl

/-- Every subscriber that is there gets a copy for each time it is listed. -/
theorem appendAll_ok (encoded : SharedByte) (ids : List SubId) : ∀ {reg : SubRegistry}, reg.connArena.FreeList →
    (reg.appendAll encoded ids).2.connArena.FreeList ∧ ∀ k, (reg.appendAll encoded ids).2.get k =
      (reg.get k).map fun conn => { conn with ioBuffer := conn.ioBuffer ++ (List.replicate (ids.count k) encoded).flatten } := by
  induction ids with
  | nil =>
    intro reg free
    refine ⟨free, fun k => ?_⟩
    cases held : reg.get k <;> simp [appendAll, held]
  | cons id rest ih =>
    intro reg free
    unfold appendAll
    cases held : reg.get id with
    | none =>
      obtain ⟨free', get'⟩ := ih free
      refine ⟨free', fun k => ?_⟩
      rw [get' k]
      by_cases equal : k = id
      · rw [equal, held]
        rfl
      · rw [List.count_cons_of_ne (Ne.symm equal)]
    | some conn =>
      obtain ⟨free', get'⟩ := ih (freeList_set free held { conn with ioBuffer := conn.ioBuffer ++ encoded })
      refine ⟨free', fun k => ?_⟩
      rw [get' k, get_set held]
      by_cases equal : k = id
      · simp [equal, held, List.replicate_succ]
      · rw [if_neg equal, List.count_cons_of_ne (Ne.symm equal)]

end SubRegistry

end Radixox.Server
