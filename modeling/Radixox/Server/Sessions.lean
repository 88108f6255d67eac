import Radixox.Server.Resp
import Radixox.Server.Tasks

/-!
# Connections from accept to return

`handle_connection` with everything it awaits: the loop of reads, the frames of a buffer, the
commands with what they still have to do after a write, and the cleanup at the end. What the
bytes decode to, what the data commands answer and how reads and writes
end are inputs. A task may also pause between two replies that need not wait; that only
adds schedules.
-/

namespace Radixox.Server
set_option autoImplicit false

open Resp

/-- What a command still has to do after the write under way. -/
inductive Rest where
  | answered
  /-- The loop of `cmd_subscribe`. -/
  | subscribing (channels : List SharedByte)
  /-- The loop of `cmd_unsubscribe`. -/
  | confirming (frames : List SharedFrame)
  /-- `cmd_publish` after its reply. -/
  | flushing (toFlush : List SubId)
  | quitting
  /-- The reply to bytes that are no frame. Its error is ignored. -/
  | parseError

/-- Where `handle_connection` is. -/
inductive Session where
  | reading
  /-- In `handle_buffer`, before a frame. -/
  | buffered
  /-- In `run_handler`. -/
  | running
  | command (rest : Rest)
  | returned

inductive Decoded where
  | frame (f : BytesFrame)
  | incomplete
  /-- A parse error, by its debug text. -/
  | error (e : SharedByte)

structure System where
  runtime : Runtime
  sessions : Nat → Session

/-- One step of one task. -/
inductive Event where
  | arrived (c : Nat)
  /-- A read of 0 bytes, or an error. -/
  | closed (c : Nat)
  | canceled (c : Nat)
  | decoded (c : Nat) (outcome : Decoded)
  | handled (c : Nat) (response : SharedFrame)
  | proceed (c : Nat)
  | sent (c : Nat) (failed : Option Nat)
  | poll (t : Nat)
  | wrote (t : Nat) (failed : Option Nat)

namespace System

/-- Every connection waits for its first bytes. -/
def new : System := ⟨.new, fun _ => .reading⟩

def setSession (s : System) (c : Nat) (session : Session) : System :=
  { s with sessions := Function.update s.sessions c session }

/-- The end of `handle_connection`: only the state says what is to be cleaned. -/
def close (s : System) (c : Nat) : Except Fault System :=
  let returned := (s.setSession c .returned)
  match s.runtime.conns c with
  | .idle (.pubSub id) =>
    .ok { returned with runtime := { s.runtime with registry := s.runtime.registry.cleanup id }.setConn c (.idle .none) }
  | .idle .blocking => .error .todo
  | .idle (.normal _ _) => .ok { returned with runtime := s.runtime.setConn c (.idle .none) }
  | .idle .none => .ok returned
  | _ => .error .disabled

/-- `read_with_conn_state` up to its await. -/
def startRead (s : System) (c : Nat) : Except Fault System :=
  match s.runtime.conns c with
  | .idle (.normal _ _) => .ok (s.setSession c .reading)
  | .idle (.pubSub id) => match s.runtime.registry.get id with
    | none => .error .cancelation
    | some _ => .ok (s.setSession c .reading)
  | .idle .blocking => .error .todo
  | .idle .none => .error .readInvalid
  | _ => .error .disabled

/-- A `send` gave an error: all callers but one return it. -/
def sendFailed (s : System) (c : Nat) (rest : Rest) : Except Fault System :=
  match rest with
  | .parseError => .ok (s.setSession c (.command .parseError))
  | _ => s.close c

/-- `send` up to its await, with what comes after it. -/
def sendThen (s : System) (c : Nat) (frame : SharedFrame) (rest : Rest) : Except Fault System := do
  let (reply, runtime) ← s.runtime.send c frame
  match reply with
  | .connectionReset => sendFailed { s with runtime := runtime } c rest
  | _ => return setSession { s with runtime := runtime } c (.command rest)

/-- One turn of the loop of `cmd_subscribe`. -/
def subscribeNext (s : System) (c : Nat) (state : ConnState) (channel : SharedByte) (rest : List SharedByte) :
    Except Fault System := do
  let (registry, state, count) ← s.runtime.registry.subscribe state channel
  let frame := SharedFrame.array
    [.bulkString (ascii "subscribe"), .bulkString channel, .integer (Int64.ofNat count)]
  sendThen { s with runtime := { s.runtime with registry := registry }.setConn c (.idle state) } c frame (.subscribing rest)

/-- The text for commands that a subscriber may not use. -/
def onlySubscriber : SharedByte := ascii "ERR only (P)SUBSCRIBE / (P)UNSUBSCRIBE / PING / QUIT allow"

def unknownCommand (cmd : SharedByte) : SharedByte := ascii "ERR unknown command '" ++ fromUtf8Lossy cmd ++ ascii "'"

def dispatch (order : ChannelOrder) (s : System) (c : Nat) (cmd : SharedByte) (args : List SharedByte) :
    Except Fault System :=
  match s.runtime.conns c with
  | .idle (.pubSub id) => match getHandler cmd with
    | some .subscribe => .ok (s.setSession c (.command (.subscribing args)))
    | some .unsubscribe =>
      let (frames, registry, state) := s.runtime.registry.unsubscribe order (.pubSub id) args
      .ok ({ s with runtime := { s.runtime with registry := registry }.setConn c (.idle state) }.setSession c
        (.command (.confirming frames)))
    | some .ping => s.sendThen c respPong .answered
    | some .quit => s.sendThen c respOk .quitting
    | _ => s.sendThen c (.error onlySubscriber) .answered
  | .idle (.normal _ _) => match getHandler cmd with
    | some .subscribe => .ok (s.setSession c (.command (.subscribing args)))
    | some .publish => do
      let ((response, toFlush), registry) ← s.runtime.registry.publishEncode args
      sendThen { s with runtime := { s.runtime with registry := registry } } c response (.flushing toFlush)
    | some .ping => s.sendThen c respPong .answered
    | some .quit => s.sendThen c respOk .quitting
    | some .unsubscribe => .error .stateSensitive
    | some _ => .ok (s.setSession c .running)
    | none => s.sendThen c (.error (unknownCommand cmd)) .answered
  | .idle _ => .ok (s.setSession c .buffered)
  | _ => .error .disabled

/-- One turn of the loop of `handle_buffer`. -/
def handleBuffer (order : ChannelOrder) (s : System) (c : Nat) : Decoded → Except Fault System
  | .incomplete => s.startRead c
  | .error e => s.sendThen c (.error (ascii "ERR parse error: " ++ e)) .parseError
  | .frame f => match frameToArgs f with
    | none => s.sendThen c (.error ERR_EMPTY_CMD) .answered
    | some (cmd, args) => s.dispatch order c (toUppercase cmd) args

/-- A command goes on after its write. -/
def proceed (s : System) (c : Nat) : Except Fault System :=
  match s.sessions c, s.runtime.conns c with
  | .command rest, .idle state => match rest with
    | .answered | .subscribing [] | .confirming [] => .ok (s.setSession c .buffered)
    | .subscribing (channel :: channels) => s.subscribeNext c state channel channels
    | .confirming (frame :: frames) => s.sendThen c frame (.confirming frames)
    | .flushing toFlush => .ok ({ s with runtime := toFlush.foldl Runtime.triggerWrite s.runtime }.setSession c .buffered)
    | .quitting => s.close c
    | .parseError => s.startRead c
  | _, _ => .error .disabled

/-- The write of a command's task ends. -/
def sent (s : System) (c : Nat) (failed : Option Nat) : Except Fault System :=
  match s.sessions c with
  | .command rest => do
    let (reply, runtime) ← s.runtime.sent c failed
    match reply with
    | .writeError => sendFailed { s with runtime := runtime } c rest
    | _ => return { s with runtime := runtime }
  | _ => .error .disabled

/-- The future that `read_with_conn_state` selects on is ready. -/
def isCanceled (s : System) (c : Nat) : Bool :=
  match s.runtime.conns c with
  | .idle (.pubSub id) => ((s.runtime.registry.get id).map fun conn => conn.cancelation.isCanceled).getD false
  | _ => false

def next (order : ChannelOrder) (s : System) : Event → Except Fault System
  | .arrived c => match s.sessions c with
    | .reading => .ok (s.setSession c .buffered)
    | _ => .error .disabled
  | .closed c => match s.sessions c with
    | .reading => s.close c
    | _ => .error .disabled
  | .canceled c => match s.sessions c, s.isCanceled c with
    | .reading, true => s.close c
    | _, _ => .error .disabled
  | .decoded c outcome => match s.sessions c with
    | .buffered => s.handleBuffer order c outcome
    | _ => .error .disabled
  | .handled c response => match s.sessions c with
    | .running => s.sendThen c response .answered
    | _ => .error .disabled
  | .proceed c => s.proceed c
  | .sent c failed => s.sent c failed
  | .poll t => do return { s with runtime := (← s.runtime.poll t).2 }
  | .wrote t failed => do return { s with runtime := (← s.runtime.wrote t failed).2 }

def step (order : ChannelOrder) (s : System) (e : Event) : Except Fault (Unit × System) :=
  (s.next order e).map fun s => ((), s)

end System

end Radixox.Server
