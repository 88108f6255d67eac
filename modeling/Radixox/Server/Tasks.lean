import Mathlib.Logic.Function.Basic
import Radixox.Lib.DoubleBuffer
import Radixox.Server.Registry

/-!
# The tasks around the registry

Each connection has its own task, which waits in `send` while a write of its
own is under way, and `write_task`s are spawned for the subscribers. A step of
the server is what one task does between two awaits. A write ends in one step, with
the number of bytes that still went out if it fails.
-/

namespace Radixox.Server
set_option autoImplicit false

/-- Where the task of a connection is. -/
inductive Handler where
  /-- Between two commands. -/
  | idle (state : ConnState)
  /-- In `send`, with the buffer of a normal connection. -/
  | replying (cw : ConnWriter)
  /-- In `handle_pubsub_write`. -/
  | sending (id : SubId) (cw : ConnWriter)

/-- The id of the connection, while it is a subscriber. -/
def Handler.key : Handler → Option SubId
  | .idle (.pubSub id) => some id
  | .sending id _ => some id
  | _ => none

/-- Where a `write_task` is: before its first poll, or in `write_all`. -/
inductive Phase where
  | spawned
  | writing
deriving DecidableEq

structure WriteTask where
  id : SubId
  cw : ConnWriter
  phase : Phase

structure Runtime where
  registry : SubRegistry
  conns : Nat → Handler
  tasks : List WriteTask
  /-- The bytes each socket has received. -/
  sockets : Nat → SharedByte

/-- One step of one task. `failed` is a write error after so many bytes. -/
inductive Input where
  | subscribe (c : Nat) (channel : SharedByte)
  | unsubscribe (c : Nat) (channels : List SharedByte)
  | publishEncode (args : List SharedByte)
  | triggerWrite (id : SubId)
  | send (c : Nat) (frame : SharedFrame)
  | sent (c : Nat) (failed : Option Nat)
  | poll (t : Nat)
  | wrote (t : Nat) (failed : Option Nat)

inductive Reply where
  | nothing
  | count (n : Nat)
  | frames (l : List SharedFrame)
  | published (response : SharedFrame) (toFlush : List SubId)
  /-- "subscriber connection not found". -/
  | connectionReset
  | writeError

/-- A new connection is `Normal` with an empty buffer. -/
def Runtime.new : Runtime := ⟨.new, fun c => .idle (.normal c []), [], fun _ => []⟩

namespace Runtime

def setConn (s : Runtime) (c : Nat) (h : Handler) : Runtime := { s with conns := Function.update s.conns c h }

theorem conns_setConn (s : Runtime) (c : Nat) (h : Handler) (d : Nat) :
    (s.setConn c h).conns d = if d = c then h else s.conns d :=
  Function.update_apply ..

theorem getConnWriter_eq_some {conn conn' : Conn} {cw : ConnWriter} (taken : conn.getConnWriter = some (cw, conn')) :
    conn.write = some cw.write ∧ cw.buffer = conn.ioBuffer ∧ conn'.write = none ∧ conn'.swapBuffer = none ∧
      conn.swapBuffer = some conn'.ioBuffer := by
  unfold Conn.getConnWriter at taken
  split at taken
  next write spare out kept =>
    obtain ⟨rfl, rfl⟩ := Prod.mk.inj (Option.some.inj taken)
    exact ⟨out, rfl, rfl, rfl, kept⟩
  next => cases taken

theorem getConnWriter_eq_none {conn : Conn} (out : conn.write = none) : conn.getConnWriter = none := by
  simp [Conn.getConnWriter, out]

/-- What a write leaves on the socket. -/
def writeAll (s : Runtime) (cw : ConnWriter) (failed : Option Nat) : Runtime × ConnWriter :=
  let bytes := match failed with
    | none => cw.buffer
    | some n => cw.buffer.take n
  ({ s with sockets := Function.update s.sockets cw.write (s.sockets cw.write ++ bytes) }, { cw with buffer := [] })

def spawn (s : Runtime) (id : SubId) (cw : ConnWriter) : Runtime := { s with tasks := s.tasks ++ [⟨id, cw, .spawned⟩] }

/-- Trigger a `write_task` if none is running. -/
def triggerWrite (s : Runtime) (id : SubId) : Runtime :=
  match s.registry.get id with
  | none => s
  | some conn => match conn.getConnWriter with
    | none => s
    | some (cw, conn) => { s with registry := s.registry.set id conn }.spawn id cw

/-- After a write: start again if more has been appended, else give the writer back. -/
def release (s : Runtime) (id : SubId) (cw : ConnWriter) : Runtime :=
  match s.registry.get id with
  | none => s
  | some conn =>
    if conn.ioBuffer.isEmpty then { s with registry := s.registry.set id (conn.restituteConnWriter cw) }
    else s.spawn id cw

/-- `handle_pubsub_write` up to its await. -/
def handlePubsubWrite (s : Runtime) (c : Nat) (id : SubId) (frame : SharedFrame) : Except Fault (Reply × Runtime) :=
  match s.registry.get id with
  | none => .ok (.connectionReset, s.setConn c (.idle .none))
  | some conn => match extendEncode conn.ioBuffer frame with
    | none => .error .index
    | some ioBuffer =>
      let conn := { conn with ioBuffer := ioBuffer }
      match conn.getConnWriter with
      -- A write_task is running: the data is queued, it will pick it up.
      | none => .ok (.nothing, { s with registry := s.registry.set id conn })
      | some (cw, conn) => .ok (.nothing, { s with registry := s.registry.set id conn }.setConn c (.sending id cw))

/-- `send` up to its await. -/
def send (s : Runtime) (c : Nat) (frame : SharedFrame) : Except Fault (Reply × Runtime) :=
  match s.conns c with
  | .idle (.normal write buf) => match extendEncode buf frame with
    | none => .error .index
    | some buf => .ok (.nothing, s.setConn c (.replying ⟨write, buf⟩))
  | .idle (.pubSub id) => s.handlePubsubWrite c id frame
  | .idle .blocking => .ok (.nothing, s)
  | .idle .none => .error .sendInvalid
  | _ => .error .disabled

/-- `send` after its await. -/
def sent (s : Runtime) (c : Nat) (failed : Option Nat) : Except Fault (Reply × Runtime) :=
  match s.conns c with
  | .replying cw =>
    let (s, cw) := s.writeAll cw failed
    if failed.isSome then .ok (.writeError, s.setConn c (.idle .none))
    else .ok (.nothing, s.setConn c (.idle (.normal cw.write cw.buffer)))
  | .sending id cw =>
    let (s, cw) := s.writeAll cw failed
    if failed.isSome then
      .ok (.writeError, { s with registry := s.registry.modify id (·.cancel (ascii "write error")) }.setConn c (.idle .none))
    else .ok (.nothing, (s.release id cw).setConn c (.idle (.pubSub id)))
  | _ => .error .disabled

/-- The first poll of a `write_task`, up to its await. -/
def poll (s : Runtime) (t : Nat) : Except Fault (Reply × Runtime) :=
  match s.tasks[t]? with
  | some ⟨id, cw, .spawned⟩ => match s.registry.get id with
    | none => .ok (.nothing, { s with tasks := s.tasks.eraseIdx t })
    | some conn => .ok (.nothing, { s with
        registry := s.registry.set id { conn with ioBuffer := cw.buffer }
        tasks := s.tasks.set t ⟨id, { cw with buffer := conn.ioBuffer }, .writing⟩ })
  | _ => .error .disabled

/-- A `write_task` after its await. -/
def wrote (s : Runtime) (t : Nat) (failed : Option Nat) : Except Fault (Reply × Runtime) :=
  match s.tasks[t]? with
  | some ⟨id, cw, .writing⟩ =>
    let (s, cw) := { s with tasks := s.tasks.eraseIdx t }.writeAll cw failed
    if failed.isSome then .ok (.nothing, { s with registry := s.registry.modify id (·.cancel (ascii "write error")) })
    else .ok (.nothing, s.release id cw)
  | _ => .error .disabled

def step (order : ChannelOrder) (s : Runtime) : Input → Except Fault (Reply × Runtime)
  | .subscribe c channel => match s.conns c with
    | .idle state => do
      let (registry, state, count) ← s.registry.subscribe state channel
      return (.count count, { s with registry := registry }.setConn c (.idle state))
    | _ => .error .disabled
  | .unsubscribe c channels => match s.conns c with
    | .idle state =>
      let (frames, registry, state) := s.registry.unsubscribe order state channels
      .ok (.frames frames, { s with registry := registry }.setConn c (.idle state))
    | _ => .error .disabled
  | .publishEncode args => do
    let ((response, toFlush), registry) ← s.registry.publishEncode args
    return (.published response toFlush, { s with registry := registry })
  | .triggerWrite id => .ok (.nothing, s.triggerWrite id)
  | .send c frame => s.send c frame
  | .sent c failed => s.sent c failed
  | .poll t => s.poll t
  | .wrote t failed => s.wrote t failed

end Runtime

end Radixox.Server
