import Radixox.Lib.Runs
import Radixox.Server.Tasks

/-!
# Every frame appended to a connection reaches its socket once

At every point of a run the write half of a connection is in one place, and the
bytes written, in flight and pending are the frames appended so far, each once. They are
in the order of the appends as long as no `write_task` is first polled
with both its own buffer and the connection's nonempty.
-/

namespace Radixox.Server
set_option autoImplicit false

open DoubleBuffer

/-- The writer that the task of the connection holds across its await. -/
def Handler.writer : Handler → Option ConnWriter
  | .replying cw => some cw
  | .sending _ cw => some cw
  | .idle _ => none

namespace Runtime

def tasksOf (s : Runtime) (c : Nat) : List WriteTask := s.tasks.filter fun t => t.cw.write = c

/-- The writers in flight with the write half of the connection. -/
def writers (s : Runtime) (c : Nat) : List ConnWriter := (s.conns c).writer.toList ++ (s.tasksOf c).map WriteTask.cw

/-- The buffer that frames are appended to. -/
def pending (s : Runtime) (c : Nat) : SharedByte :=
  match s.conns c with
  | .idle (.normal _ ioBuffer) => ioBuffer
  | h => ((h.key.bind s.registry.get).map Conn.ioBuffer).getD []

def buffers (s : Runtime) (c : Nat) : Buffers UInt8 :=
  ⟨s.sockets c, ((s.writers c).map ConnWriter.buffer).flatten, s.pending c⟩

/-- The frames that a step appends to the buffer of the connection. -/
def appends (s : Runtime) (i : Input) (c : Nat) : List SharedByte :=
  match i with
  | .publishEncode (channel :: message :: _) =>
    match (s.conns c).key, s.registry.connMap.lookup channel with
    | some id, some subs => List.replicate (subs.count id) ((SubRegistry.encodePubsubMessage channel message).getD [])
    | _, _ => []
  | .send c' frame => match s.conns c' with
    | .idle .blocking => []
    | _ => if c = c' then [(extendEncode [] frame).getD []] else []
  | _ => []

/-- The frames that a run appends to the buffer of the connection. -/
def history (order : ChannelOrder) : List Input → Runtime → Nat → List SharedByte
  | [], _, _ => []
  | i :: rest, s, c => s.appends i c ++ match s.step order i with
    | .ok (_, s') => history order rest s' c
    | .error _ => []

/-- The write half and the spare buffer are in the registry, or with the one writer in flight. -/
def OneWriter (s : Runtime) (c : Nat) : Prop :=
  (∀ d cw, (s.conns d).writer = some cw → cw.write = c → d = c) ∧
  match s.conns c with
  | .idle (.normal write _) => write = c ∧ s.writers c = []
  | .replying cw => cw.write = c ∧ s.writers c = [cw]
  | h => ∃ id conn, h.key = some id ∧ s.registry.get id = some conn ∧
      (conn.write = some c ∧ conn.swapBuffer = some [] ∧ s.writers c = [] ∨
        conn.write = none ∧ conn.swapBuffer = none ∧ ∃ cw, cw.write = c ∧ s.writers c = [cw])

end Runtime

/-- A step that is no write error. -/
def Input.Succeeds : Input → Prop
  | .sent _ failed => failed = none
  | .wrote _ failed => failed = none
  | _ => True

instance (i : Input) : Decidable i.Succeeds := by
  unfold Input.Succeeds
  split <;> infer_instance

/-! ## The invariant -/

namespace Runtime

/-- Where the write half of the connection is. -/
inductive Owned (s : Runtime) (c : Nat) : Prop
  | normal {buf : SharedByte} (state : s.conns c = .idle (.normal c buf)) (tasks : s.tasksOf c = [])
  | replying {cw : ConnWriter} (state : s.conns c = .replying cw) (write : cw.write = c) (tasks : s.tasksOf c = [])
  | parked {id : SubId} {conn : Conn} (state : s.conns c = .idle (.pubSub id)) (held : s.registry.get id = some conn)
      (write : conn.write = some c) (spare : conn.swapBuffer = some []) (tasks : s.tasksOf c = [])
  | busy {id : SubId} {conn : Conn} {cw : ConnWriter} {phase : Phase} (state : s.conns c = .idle (.pubSub id))
      (held : s.registry.get id = some conn) (write : conn.write = none) (spare : conn.swapBuffer = none)
      (tasks : s.tasksOf c = [⟨id, cw, phase⟩])
  | sending {id : SubId} {conn : Conn} {cw : ConnWriter} (state : s.conns c = .sending id cw) (half : cw.write = c)
      (held : s.registry.get id = some conn) (write : conn.write = none) (spare : conn.swapBuffer = none)
      (tasks : s.tasksOf c = [])

structure Sound (s : Runtime) : Prop where
  free : s.registry.connArena.FreeList
  keys : ∀ c c' id, (s.conns c).key = some id → (s.conns c').key = some id → c = c'
  keyed : ∀ id, (s.registry.get id).isSome → ∃ c, (s.conns c).key = some id
  owned : ∀ c, s.Owned c

theorem sound_new : Sound new where
  free := SubRegistry.freeList_new
  keys c c' id held := by cases held
  keyed id held := by
    rw [new, SubRegistry.get_new] at held
    cases held
  owned c := .normal rfl rfl

/-- For the connection nothing but its number of channels has changed. -/
structure Same (s s' : Runtime) (c : Nat) : Prop where
  conns : s'.conns c = s.conns c
  held : ∀ id, (s.conns c).key = some id → (s'.registry.get id).map Conn.core = (s.registry.get id).map Conn.core
  tasks : s'.tasksOf c = s.tasksOf c
  sockets : s'.sockets c = s.sockets c

variable {s s' : Runtime} {c : Nat}

theorem Owned.held (owned : s.Owned c) {id : SubId} (key : (s.conns c).key = some id) : (s.registry.get id).isSome := by
  cases owned with
  | normal state => rw [state] at key; cases key
  | replying state => rw [state] at key; cases key
  | parked state here | busy state here | sending state half here =>
    rw [state, Handler.key, Option.some.injEq] at key
    rw [← key, here]
    rfl

theorem Same.owned (same : Same s s' c) (owned : s.Owned c) : s'.Owned c := by
  have held : ∀ {id conn}, (s.conns c).key = some id → s.registry.get id = some conn →
      ∃ conn', s'.registry.get id = some conn' ∧ conn'.write = conn.write ∧ conn'.swapBuffer = conn.swapBuffer := by
    intro id conn key here
    have cores := same.held id key
    rw [here] at cores
    obtain ⟨conn', here', core⟩ := Option.map_eq_some_iff.1 cores
    simp only [Conn.core, Conn.mk.injEq] at core
    exact ⟨conn', here', core.1, core.2.2.2.1⟩
  cases owned with
  | normal state tasks => exact .normal (same.conns.trans state) (same.tasks.trans tasks)
  | replying state write tasks => exact .replying (same.conns.trans state) write (same.tasks.trans tasks)
  | parked state here write spare tasks =>
    obtain ⟨conn', here', write', spare'⟩ := held (by rw [state]; rfl) here
    exact .parked (same.conns.trans state) here' (write'.trans write) (spare'.trans spare) (same.tasks.trans tasks)
  | busy state here write spare tasks =>
    obtain ⟨conn', here', write', spare'⟩ := held (by rw [state]; rfl) here
    exact .busy (same.conns.trans state) here' (write'.trans write) (spare'.trans spare) (same.tasks.trans tasks)
  | sending state half here write spare tasks =>
    obtain ⟨conn', here', write', spare'⟩ := held (by rw [state]; rfl) here
    exact .sending (same.conns.trans state) half here' (write'.trans write) (spare'.trans spare) (same.tasks.trans tasks)

theorem Same.buffers (same : Same s s' c) : s'.buffers c = s.buffers c := by
  have key : ((s.conns c).key.bind s'.registry.get).map Conn.ioBuffer =
      ((s.conns c).key.bind s.registry.get).map Conn.ioBuffer := by
    cases here : (s.conns c).key with
    | none => rfl
    | some id =>
      have cores := congrArg (Option.map Conn.ioBuffer) (same.held id here)
      rwa [Option.map_map, Option.map_map] at cores
  simp only [Runtime.buffers, writers, pending, same.conns, same.tasks, same.sockets]
  split
  · rfl
  · rw [key]

theorem buffers_normal {w : WriteHalf} {buf : SharedByte} (state : s.conns c = .idle (.normal w buf)) (tasks : s.tasksOf c = []) :
    s.buffers c = ⟨s.sockets c, [], buf⟩ := by
  simp [buffers, writers, pending, state, tasks, Handler.writer]

theorem buffers_replying {cw : ConnWriter} (state : s.conns c = .replying cw) (tasks : s.tasksOf c = []) :
    s.buffers c = ⟨s.sockets c, cw.buffer, []⟩ := by
  simp [buffers, writers, pending, state, tasks, Handler.writer, Handler.key]

theorem buffers_parked {id : SubId} {conn : Conn} (held : s.registry.get id = some conn)
    (state : s.conns c = .idle (.pubSub id)) (tasks : s.tasksOf c = []) : s.buffers c = ⟨s.sockets c, [], conn.ioBuffer⟩ := by
  simp [buffers, writers, pending, state, tasks, held, Handler.writer, Handler.key]

theorem buffers_busy {id : SubId} {conn : Conn} {task : WriteTask} (held : s.registry.get id = some conn)
    (state : s.conns c = .idle (.pubSub id)) (tasks : s.tasksOf c = [task]) :
    s.buffers c = ⟨s.sockets c, task.cw.buffer, conn.ioBuffer⟩ := by
  simp [buffers, writers, pending, state, tasks, held, Handler.writer, Handler.key]

theorem buffers_sending {id : SubId} {conn : Conn} {cw : ConnWriter} (held : s.registry.get id = some conn)
    (state : s.conns c = .sending id cw) (tasks : s.tasksOf c = []) :
    s.buffers c = ⟨s.sockets c, cw.buffer, conn.ioBuffer⟩ := by
  simp [buffers, writers, pending, state, tasks, held, Handler.writer, Handler.key]

theorem Sound.oneWriter (sound : s.Sound) (c : Nat) : s.OneWriter c := by
  constructor
  · intro d cw writes half
    cases sound.owned d with
    | normal state => rw [state] at writes; cases writes
    | replying state write =>
      rw [state, Handler.writer, Option.some.injEq] at writes
      rw [← half, ← writes, write]
    | parked state => rw [state] at writes; cases writes
    | busy state => rw [state] at writes; cases writes
    | sending state write =>
      rw [state, Handler.writer, Option.some.injEq] at writes
      rw [← half, ← writes, write]
  · cases sound.owned c with
    | normal state tasks => simp [state, writers, tasks, Handler.writer]
    | replying state write tasks => simp [state, writers, tasks, Handler.writer, write]
    | parked state held write spare tasks =>
      rw [state]
      exact ⟨_, _, rfl, held, .inl ⟨write, spare, by simp [writers, state, tasks, Handler.writer]⟩⟩
    | @busy id conn cw phase state held write spare tasks =>
      have member : (⟨id, cw, phase⟩ : WriteTask) ∈ s.tasksOf c := by rw [tasks]; exact List.mem_singleton.2 rfl
      have half : cw.write = c := by simpa using (List.mem_filter.1 member).2
      rw [state]
      exact ⟨_, _, rfl, held, .inr ⟨write, spare, cw, half, by simp [writers, state, tasks, Handler.writer]⟩⟩
    | @sending id conn cw state half held write spare tasks =>
      rw [state]
      exact ⟨_, _, rfl, held, .inr ⟨write, spare, cw, half, by simp [writers, state, tasks, Handler.writer]⟩⟩

/-! ## What a step does -/

/-- The step keeps the invariant and appends, then moves the buffers of each connection. -/
def Steps (allowed : Buffers UInt8 → Prop) (added : Nat → List SharedByte) (s s' : Runtime) : Prop :=
  s'.Sound ∧ ∀ c, Moves allowed ((s.buffers c).append (added c)) (s'.buffers c)

variable {allowed : Buffers UInt8 → Prop} {added : Nat → List SharedByte}

theorem steps_same (sound : s.Sound) (free : s'.registry.connArena.FreeList) (same : ∀ c, Same s s' c)
    (known : ∀ id, (s'.registry.get id).isSome → (s.registry.get id).isSome) (quiet : ∀ c, added c = []) :
    Steps allowed added s s' := by
  refine ⟨⟨free, fun d d' id => ?_, fun id held => ?_, fun d => (same d).owned (sound.owned d)⟩, fun c => ?_⟩
  · rw [(same d).conns, (same d').conns]
    exact sound.keys d d' id
  · obtain ⟨d, key⟩ := sound.keyed id (known id held)
    exact ⟨d, by rwa [(same d).conns]⟩
  · rw [quiet c, Buffers.append_nil, (same c).buffers]
    exact .stay

/-- A step of one connection `c`. -/
theorem steps_of_acts (sound : s.Sound) (free : s'.registry.connArena.FreeList) (others : ∀ d, d ≠ c → Same s s' d)
    (fresh : ∀ id, (s'.conns c).key = some id → (s.conns c).key = some id ∨ s.registry.get id = none)
    (known : ∀ id, (s'.registry.get id).isSome →
      (s'.conns c).key = some id ∨ (s.registry.get id).isSome ∧ (s.conns c).key ≠ some id)
    (mine : s'.Owned c) (quiet : ∀ d, d ≠ c → added d = [])
    (moves : Moves allowed ((s.buffers c).append (added c)) (s'.buffers c)) : Steps allowed added s s' := by
  have apart : ∀ d id, d ≠ c → (s'.conns c).key = some id → (s.conns d).key = some id → False := by
    intro d id other key key'
    rcases fresh id key with old | absent
    · exact other (sound.keys d c id key' old)
    · have held := (sound.owned d).held key'
      rw [absent] at held
      cases held
  refine ⟨⟨free, fun d d' id key key' => ?_, fun id held => ?_, fun d => ?_⟩, fun d => ?_⟩
  · by_cases here : d = c
    · by_cases here' : d' = c
      · rw [here, here']
      · rw [(others d' here').conns] at key'
        exact (apart d' id here' (here ▸ key) key').elim
    · rw [(others d here).conns] at key
      by_cases here' : d' = c
      · exact (apart d id here (here' ▸ key') key).elim
      · rw [(others d' here').conns] at key'
        exact sound.keys d d' id key key'
  · rcases known id held with key | ⟨old, other⟩
    · exact ⟨c, key⟩
    · obtain ⟨d, key⟩ := sound.keyed id old
      have here : d ≠ c := fun equal => other (equal ▸ key)
      exact ⟨d, by rwa [(others d here).conns]⟩
  · by_cases here : d = c
    · exact here ▸ mine
    · exact (others d here).owned (sound.owned d)
  · by_cases here : d = c
    · exact here ▸ moves
    · rw [quiet d here, Buffers.append_nil, (others d here).buffers]
      exact .stay

/-- A step of a connection that is and stays a subscriber. -/
theorem steps_of_key {id : SubId} (sound : s.Sound) (key : (s.conns c).key = some id) (key' : (s'.conns c).key = some id)
    (free : s'.registry.connArena.FreeList) (get : ∀ k, k ≠ id → s'.registry.get k = s.registry.get k)
    (others : ∀ d, d ≠ c → s'.conns d = s.conns d ∧ s'.tasksOf d = s.tasksOf d ∧ s'.sockets d = s.sockets d)
    (mine : s'.Owned c) (quiet : ∀ d, d ≠ c → added d = [])
    (moves : Moves allowed ((s.buffers c).append (added c)) (s'.buffers c)) : Steps allowed added s s' := by
  refine steps_of_acts sound free (fun d other => ?_) (fun k held => ?_) (fun k held => ?_) mine quiet moves
  · obtain ⟨conns, tasks, sockets⟩ := others d other
    refine ⟨conns, fun k held => ?_, tasks, sockets⟩
    have differ : k ≠ id := fun equal => other (sound.keys d c k held (equal ▸ key))
    rw [get k differ]
  · rw [key', Option.some.injEq] at held
    exact .inl (held ▸ key)
  · by_cases equal : k = id
    · exact .inl (equal ▸ key')
    · refine .inr ⟨get k equal ▸ held, fun key₀ => equal ?_⟩
      rw [key, Option.some.injEq] at key₀
      exact key₀.symm

/-- The same with a change of the connection in the registry. -/
theorem steps_of_set {id : SubId} {conn conn' : Conn} (sound : s.Sound) (key : (s.conns c).key = some id)
    (held : s.registry.get id = some conn) (registry : s'.registry = s.registry.set id conn')
    (key' : (s'.conns c).key = some id)
    (others : ∀ d, d ≠ c → s'.conns d = s.conns d ∧ s'.tasksOf d = s.tasksOf d ∧ s'.sockets d = s.sockets d)
    (mine : s'.registry.get id = some conn' → s'.Owned c) (quiet : ∀ d, d ≠ c → added d = [])
    (moves : s'.registry.get id = some conn' → Moves allowed ((s.buffers c).append (added c)) (s'.buffers c)) :
    Steps allowed added s s' := by
  have get : ∀ k, s'.registry.get k = if k = id then some conn' else s.registry.get k := by
    intro k
    rw [registry, SubRegistry.get_set held]
  have here := get id
  rw [if_pos rfl] at here
  refine steps_of_key sound key key' ?_ (fun k differ => by rw [get, if_neg differ]) others (mine here) quiet (moves here)
  rw [registry]
  exact SubRegistry.freeList_set sound.free held conn'

/-- A step of a connection that is and stays no subscriber. -/
theorem steps_of_normal (sound : s.Sound) (key : (s.conns c).key = none) (key' : (s'.conns c).key = none)
    (same : s'.registry = s.registry)
    (others : ∀ d, d ≠ c → s'.conns d = s.conns d ∧ s'.tasksOf d = s.tasksOf d ∧ s'.sockets d = s.sockets d)
    (mine : s'.Owned c) (quiet : ∀ d, d ≠ c → added d = [])
    (moves : Moves allowed ((s.buffers c).append (added c)) (s'.buffers c)) : Steps allowed added s s' := by
  refine steps_of_acts sound (same ▸ sound.free) (fun d other => ?_) (fun k held => ?_) (fun k held => ?_) mine quiet moves
  · obtain ⟨conns, tasks, sockets⟩ := others d other
    exact ⟨conns, fun k _ => by rw [same], tasks, sockets⟩
  · rw [key'] at held
    cases held
  · exact .inr ⟨same ▸ held, fun held' => by rw [key] at held'; cases held'⟩

theorem tasksOf_spawn (s : Runtime) (id : SubId) (cw : ConnWriter) (d : Nat) :
    (s.spawn id cw).tasksOf d = s.tasksOf d ++ if cw.write = d then [⟨id, cw, .spawned⟩] else [] := by
  by_cases here : cw.write = d <;> simp [tasksOf, spawn, here]

/-- Only a connection whose write half is in the registry has it there. -/
theorem Sound.parked (sound : s.Sound) {id : SubId} {conn : Conn} {w : WriteHalf} (held : s.registry.get id = some conn)
    (free : conn.write = some w) : s.conns w = .idle (.pubSub id) ∧ conn.swapBuffer = some [] ∧ s.tasksOf w = [] := by
  obtain ⟨d, key⟩ := sound.keyed id (by rw [held]; rfl)
  cases sound.owned d with
  | normal state => rw [state] at key; cases key
  | replying state => rw [state] at key; cases key
  | parked state here write spare tasks =>
    rw [state, Handler.key, Option.some.injEq] at key
    rw [← key, here, Option.some.injEq] at held
    rw [← held, write, Option.some.injEq] at free
    rw [← free, ← key, ← held]
    exact ⟨state, spare, tasks⟩
  | busy state here write spare | sending state half here write spare =>
    rw [state, Handler.key, Option.some.injEq] at key
    rw [← key, here, Option.some.injEq] at held
    rw [← held, write] at free
    cases free

theorem steps_triggerWrite (sound : s.Sound) (id : SubId) (quiet : ∀ d, added d = []) :
    Steps allowed added s (s.triggerWrite id) := by
  unfold triggerWrite
  split
  · exact steps_same sound sound.free (fun _ => ⟨rfl, fun _ _ => rfl, rfl, rfl⟩) (fun _ held => held) quiet
  next conn held =>
    split
    · exact steps_same sound sound.free (fun _ => ⟨rfl, fun _ _ => rfl, rfl, rfl⟩) (fun _ held => held) quiet
    next cw conn' taken =>
      obtain ⟨write, buffer, write', spare', kept⟩ := getConnWriter_eq_some taken
      obtain ⟨state, spare, tasks⟩ := sound.parked held write
      have empty : conn'.ioBuffer = [] := by rwa [kept, Option.some.injEq] at spare
      have key : (s.conns cw.write).key = some id := by rw [state]; rfl
      have spawned := tasksOf_spawn { s with registry := s.registry.set id conn' } id cw
      have mine : ({ s with registry := s.registry.set id conn' }.spawn id cw).tasksOf cw.write = [⟨id, cw, .spawned⟩] := by
        rw [spawned, if_pos rfl]
        exact congrArg (· ++ _) tasks
      refine steps_of_set sound key held rfl key (fun d other => ⟨rfl, ?_, rfl⟩) (fun here => .busy state here write' spare' mine)
        (fun d _ => quiet d) (fun here => ?_)
      · rw [spawned, if_neg (Ne.symm other), List.append_nil]
        rfl
      · rw [quiet, Buffers.append_nil, buffers_parked held state tasks, buffers_busy here state mine, buffer, empty]
        exact .take rfl

theorem steps_recounts {id : SubId} {registry : SubRegistry} (sound : s.Sound) (recounts : s.registry.Recounts registry)
    (state : (s.conns c) = .idle (.pubSub id)) (quiet : ∀ d, added d = []) :
    Steps allowed added s ({ s with registry := registry }.setConn c (.idle (.pubSub id))) := by
  obtain ⟨free, cores⟩ := recounts
  refine steps_same sound free (fun d => ⟨?_, fun k _ => cores k, rfl, rfl⟩) (fun k held => ?_) quiet
  · simp [setConn, ← state]
  · have present := congrArg Option.isSome (cores k)
    rw [Option.isSome_map, Option.isSome_map] at present
    exact present ▸ held

theorem steps_subscribe (sound : s.Sound) (order : ChannelOrder) (c : Nat) (channel : SharedByte) (quiet : ∀ d, added d = [])
    {reply : Reply} (taken : s.step order (.subscribe c channel) = .ok (reply, s')) : Steps allowed added s s' := by
  simp only [step] at taken
  cases sound.owned c with
  | @normal buf state tasks =>
    obtain ⟨registry, id, n, outcome, free, absent, get⟩ := SubRegistry.subscribe_normal sound.free c buf channel
    simp only [state, outcome, bind, Except.bind] at taken
    obtain ⟨-, rfl⟩ := Prod.mk.inj (Except.ok.inj taken)
    obtain ⟨s', eq⟩ : ∃ s' : Runtime, s' = { s with registry := registry }.setConn c (.idle (.pubSub id)) := ⟨_, rfl⟩
    rw [← eq]
    have conns : ∀ d, s'.conns d = if d = c then .idle (.pubSub id) else s.conns d := by
      intro d
      rw [eq, conns_setConn]
    have get' : ∀ k, s'.registry.get k = if k = id then some { Conn.new c buf with channelCount := 1 } else s.registry.get k := by
      intro k
      rw [eq]
      exact get k
    have tasks' : ∀ d, s'.tasksOf d = s.tasksOf d := fun d => by rw [eq]; rfl
    have sockets : s'.sockets = s.sockets := by rw [eq]; rfl
    have mine := conns c
    rw [if_pos rfl] at mine
    have here := get' id
    rw [if_pos rfl] at here
    refine steps_of_acts sound (by rw [eq]; exact free) (c := c) (fun d other => ?_) (fun k held => ?_) (fun k held => ?_) ?_
      (fun d _ => quiet d) ?_
    · refine ⟨by rw [conns, if_neg other], fun k held => ?_, tasks' d, by rw [sockets]⟩
      have differ : k ≠ id := by
        rintro rfl
        have old := (sound.owned d).held held
        rw [absent] at old
        cases old
      rw [get', if_neg differ]
    · rw [mine, Handler.key, Option.some.injEq] at held
      exact .inr (held ▸ absent)
    · by_cases equal : k = id
      · exact .inl (by rw [mine, equal]; rfl)
      · rw [get', if_neg equal] at held
        exact .inr ⟨held, by rw [state]; exact nofun⟩
    · exact .parked mine here rfl rfl ((tasks' c).trans tasks)
    · rw [quiet, Buffers.append_nil, buffers_normal state tasks, buffers_parked here mine ((tasks' c).trans tasks), sockets]
      exact .stay
  | replying state => rw [state] at taken; cases taken
  | sending state => rw [state] at taken; cases taken
  | @parked id _ state | @busy id _ _ _ state =>
    obtain ⟨registry, n, outcome, recounts⟩ := SubRegistry.subscribe_pubSub sound.free id channel
    simp only [state, outcome, bind, Except.bind] at taken
    obtain ⟨-, rfl⟩ := Prod.mk.inj (Except.ok.inj taken)
    exact steps_recounts sound recounts state quiet

theorem steps_unsubscribe (sound : s.Sound) (order : ChannelOrder) (c : Nat) (channels : List SharedByte)
    (quiet : ∀ d, added d = []) {reply : Reply} (taken : s.step order (.unsubscribe c channels) = .ok (reply, s')) :
    Steps allowed added s s' := by
  simp only [step] at taken
  cases sound.owned c with
  | normal state =>
    simp only [state, SubRegistry.unsubscribe_normal] at taken
    obtain ⟨-, rfl⟩ := Prod.mk.inj (Except.ok.inj taken)
    refine steps_same sound sound.free (fun d => ⟨?_, fun _ _ => rfl, rfl, rfl⟩) (fun _ held => held) quiet
    simp [setConn, ← state]
  | replying state => rw [state] at taken; cases taken
  | sending state => rw [state] at taken; cases taken
  | @busy id conn _ _ state held write =>
    obtain ⟨frames, registry, state', outcome, ⟨rfl, recounts⟩ | ⟨conn', w, held', write', -⟩⟩ :=
      SubRegistry.unsubscribe_pubSub sound.free order id channels
    · simp only [state, outcome] at taken
      obtain ⟨-, rfl⟩ := Prod.mk.inj (Except.ok.inj taken)
      exact steps_recounts sound recounts state quiet
    · rw [held, Option.some.injEq] at held'
      rw [← held', write] at write'
      cases write'
  | @parked id conn state held write spare tasks =>
    obtain ⟨frames, registry, state', outcome, ⟨rfl, recounts⟩ | ⟨conn', w, held', write', rfl, free, cores⟩⟩ :=
      SubRegistry.unsubscribe_pubSub sound.free order id channels
    · simp only [state, outcome] at taken
      obtain ⟨-, rfl⟩ := Prod.mk.inj (Except.ok.inj taken)
      exact steps_recounts sound recounts state quiet
    · rw [held, Option.some.injEq] at held'
      subst held'
      rw [write, Option.some.injEq] at write'
      subst write'
      simp only [state, outcome] at taken
      obtain ⟨-, rfl⟩ := Prod.mk.inj (Except.ok.inj taken)
      obtain ⟨s', eq⟩ : ∃ s' : Runtime, s' = { s with registry := registry }.setConn c (.idle (.normal c conn.ioBuffer)) :=
        ⟨_, rfl⟩
      rw [← eq]
      have conns : ∀ d, s'.conns d = if d = c then .idle (.normal c conn.ioBuffer) else s.conns d := by
        intro d
        rw [eq, conns_setConn]
      have get : ∀ k, (s'.registry.get k).map Conn.core = if k = id then none else (s.registry.get k).map Conn.core := by
        intro k
        rw [eq]
        exact cores k
      have tasks' : ∀ d, s'.tasksOf d = s.tasksOf d := fun d => by rw [eq]; rfl
      have sockets : s'.sockets = s.sockets := by rw [eq]; rfl
      have mine := conns c
      rw [if_pos rfl] at mine
      have key : (s.conns c).key = some id := by rw [state]; rfl
      refine steps_of_acts sound (by rw [eq]; exact free) (c := c) (fun d other => ?_) (fun k held => ?_) (fun k held => ?_) ?_
        (fun d _ => quiet d) ?_
      · refine ⟨by rw [conns, if_neg other], fun k held => ?_, tasks' d, by rw [sockets]⟩
        have differ : k ≠ id := fun equal => other (sound.keys d c k held (equal ▸ key))
        rw [get, if_neg differ]
      · rw [mine] at held
        cases held
      · have present := congrArg Option.isSome (get k)
        rw [Option.isSome_map, held] at present
        by_cases equal : k = id
        · rw [if_pos equal] at present
          cases present
        · rw [if_neg equal, Option.isSome_map] at present
          refine .inr ⟨present.symm, fun held' => equal ?_⟩
          rw [key, Option.some.injEq] at held'
          exact held'.symm
      · exact .normal mine ((tasks' c).trans tasks)
      · rw [quiet, Buffers.append_nil, buffers_parked held state tasks, buffers_normal mine ((tasks' c).trans tasks), sockets]
        exact .stay

/-- Appending to the registry's buffers, `more id` to that of each subscriber. -/
theorem steps_appended (sound : s.Sound) {registry : SubRegistry} (more : SubId → List SharedByte)
    (free : registry.connArena.FreeList)
    (get : ∀ k, registry.get k = (s.registry.get k).map fun conn => { conn with ioBuffer := conn.ioBuffer ++ (more k).flatten })
    (added' : ∀ d, added d = ((s.conns d).key.map more).getD []) : Steps allowed added s { s with registry := registry } := by
  obtain ⟨s', eq⟩ : ∃ s' : Runtime, s' = { s with registry := registry } := ⟨_, rfl⟩
  rw [← eq]
  have conns : s'.conns = s.conns := by rw [eq]
  have tasks' : ∀ d, s'.tasksOf d = s.tasksOf d := fun d => by rw [eq]; rfl
  have sockets : s'.sockets = s.sockets := by rw [eq]
  have held' : ∀ {k conn}, s.registry.get k = some conn →
      s'.registry.get k = some { conn with ioBuffer := conn.ioBuffer ++ (more k).flatten } := by
    intro k conn held
    have here := get k
    rw [held] at here
    rw [eq]
    exact here
  refine ⟨⟨by rw [eq]; exact free, by rw [conns]; exact sound.keys, fun k held => ?_, fun d => ?_⟩, fun d => ?_⟩
  · rw [conns]
    have here : (registry.get k).isSome := by rwa [eq] at held
    rw [get k, Option.isSome_map] at here
    exact sound.keyed k here
  · cases sound.owned d with
    | normal state tasks => exact .normal (conns ▸ state) ((tasks' d).trans tasks)
    | replying state write tasks => exact .replying (conns ▸ state) write ((tasks' d).trans tasks)
    | parked state held write spare tasks => exact .parked (conns ▸ state) (held' held) write spare ((tasks' d).trans tasks)
    | busy state held write spare tasks => exact .busy (conns ▸ state) (held' held) write spare ((tasks' d).trans tasks)
    | sending state half held write spare tasks =>
      exact .sending (conns ▸ state) half (held' held) write spare ((tasks' d).trans tasks)
  · have appended : s'.buffers d = (s.buffers d).append (added d) := by
      cases sound.owned d with
      | normal state tasks =>
        rw [added', state, buffers_normal state tasks, buffers_normal (conns ▸ state) ((tasks' d).trans tasks), sockets]
        simp [Buffers.append, Handler.key]
      | replying state write tasks =>
        rw [added', state, buffers_replying state tasks, buffers_replying (conns ▸ state) ((tasks' d).trans tasks), sockets]
        simp [Buffers.append, Handler.key]
      | parked state held write spare tasks =>
        rw [added', state, buffers_parked held state tasks,
          buffers_parked (held' held) (conns ▸ state) ((tasks' d).trans tasks), sockets]
        rfl
      | busy state held write spare tasks =>
        rw [added', state, buffers_busy held state tasks,
          buffers_busy (held' held) (conns ▸ state) ((tasks' d).trans tasks), sockets]
        rfl
      | sending state half held write spare tasks =>
        rw [added', state, buffers_sending held state tasks,
          buffers_sending (held' held) (conns ▸ state) ((tasks' d).trans tasks), sockets]
        rfl
    rw [appended]
    exact .stay

theorem steps_publishEncode (sound : s.Sound) (order : ChannelOrder) (args : List SharedByte) {reply : Reply}
    (taken : s.step order (.publishEncode args) = .ok (reply, s')) : Steps allowed (s.appends (.publishEncode args)) s s' := by
  have nothing : ∀ {l : Nat → List SharedByte}, (∀ d, l d = []) → Steps allowed l s s := fun quiet =>
    steps_same sound sound.free (fun _ => ⟨rfl, fun _ _ => rfl, rfl, rfl⟩) (fun _ held => held) quiet
  obtain ⟨⟨⟨response, toFlush⟩, registry⟩, published, done⟩ := Outcomes.exists_of_bind taken
  obtain rfl := (Prod.mk.inj (Except.ok.inj done)).2
  obtain ⟨-, rfl, absent⟩ | ⟨channel, message, rest, encoded, subs, rfl, encoding, found, appended⟩ :=
    SubRegistry.publishEncode_cases published
  · refine nothing fun d => ?_
    match args with
    | [] | [_] => rfl
    | channel :: message :: rest =>
      simp only [appends, absent channel message rest rfl]
      cases (s.conns d).key <;> rfl
  · obtain rfl := (Prod.mk.inj appended).2
    obtain ⟨free, get⟩ := SubRegistry.appendAll_ok encoded subs sound.free
    refine steps_appended sound (fun id => List.replicate (subs.count id) encoded) free get fun d => ?_
    simp only [appends, found, encoding]
    cases (s.conns d).key <;> rfl

theorem appends_send {d : Nat} {frame : SharedFrame} {bytes : SharedByte} (encoding : extendEncode [] frame = some bytes)
    (owned : s.Owned c) : s.appends (.send c frame) d = if d = c then [bytes] else [] := by
  simp only [appends, encoding, Option.getD_some]
  cases owned <;> simp_all

theorem steps_send (sound : s.Sound) (c : Nat) (frame : SharedFrame) {reply : Reply}
    (taken : s.send c frame = .ok (reply, s')) : Steps allowed (s.appends (.send c frame)) s s' := by
  cases encoding : extendEncode [] frame with
  | none =>
    have stuck : ∀ buf, extendEncode buf frame = none := fun buf => by rw [extendEncode_eq, encoding]; rfl
    cases sound.owned c with
    | normal state | replying state => simp [send, state, stuck] at taken
    | parked state held | busy state held | sending state half held =>
      simp [send, state, handlePubsubWrite, held, stuck] at taken
  | some bytes =>
    have encode : ∀ buf, extendEncode buf frame = some (buf ++ bytes) := fun buf => by rw [extendEncode_eq, encoding]; rfl
    have added := fun d => appends_send (d := d) encoding (sound.owned c)
    have mine := added c
    rw [if_pos rfl] at mine
    have quiet : ∀ d, d ≠ c → s.appends (.send c frame) d = [] := fun d other => by rw [added, if_neg other]
    cases sound.owned c with
    | @normal buf state tasks =>
      simp only [send, state, encode] at taken
      obtain ⟨-, rfl⟩ := Prod.mk.inj (Except.ok.inj taken)
      have state' := conns_setConn s c (.replying ⟨c, buf ++ bytes⟩) c
      rw [if_pos rfl] at state'
      refine steps_of_normal sound (by rw [state]; rfl) (by rw [state']; rfl) rfl
        (fun d other => ⟨by rw [conns_setConn, if_neg other], rfl, rfl⟩) (.replying state' rfl tasks) quiet ?_
      rw [mine, buffers_normal state tasks, buffers_replying state' tasks, Buffers.append_singleton]
      exact .take rfl
    | replying state | sending state => simp [send, state] at taken
    | @parked id conn state held write spare tasks =>
      simp only [send, state, handlePubsubWrite, held, encode, Conn.getConnWriter, write, spare] at taken
      obtain ⟨-, rfl⟩ := Prod.mk.inj (Except.ok.inj taken)
      have state' := conns_setConn { s with registry := s.registry.set id ⟨none, conn.cancelation, [], none, conn.channelCount⟩ }
        c (.sending id ⟨c, conn.ioBuffer ++ bytes⟩) c
      rw [if_pos rfl] at state'
      refine steps_of_set sound (by rw [state]; rfl) held rfl (by rw [state']; rfl)
        (fun d other => ⟨by rw [conns_setConn, if_neg other], rfl, rfl⟩) (fun here => .sending state' rfl here rfl rfl tasks)
        quiet (fun here => ?_)
      rw [mine, buffers_parked held state tasks, buffers_sending here state' tasks, Buffers.append_singleton]
      exact .take rfl
    | @busy id conn cw phase state held write spare tasks =>
      simp only [send, state, handlePubsubWrite, held, encode, Conn.getConnWriter, write] at taken
      obtain ⟨-, rfl⟩ := Prod.mk.inj (Except.ok.inj taken)
      have key : (s.conns c).key = some id := by rw [state]; rfl
      refine steps_of_set sound key held rfl key (fun d other => ⟨rfl, rfl, rfl⟩)
        (fun here => .busy state here rfl spare tasks) quiet (fun here => ?_)
      rw [mine, buffers_busy held state tasks, buffers_busy here state tasks, Buffers.append_singleton]
      exact .stay

/-- The end of a write: `s₁` is the state just before the writer is given back or started again. -/
theorem steps_release {s₁ : Runtime} {id : SubId} {conn : Conn} {cw : ConnWriter} (sound : s.Sound) (half : cw.write = c)
    (key : (s.conns c).key = some id) (held : s.registry.get id = some conn) (write : conn.write = none)
    (spare : conn.swapBuffer = none) (before : s.buffers c = ⟨s.sockets c, cw.buffer, conn.ioBuffer⟩)
    (registry : s₁.registry = s.registry) (state : s₁.conns c = .idle (.pubSub id)) (tasks : s₁.tasksOf c = [])
    (sockets : s₁.sockets c = s.sockets c ++ cw.buffer)
    (others : ∀ d, d ≠ c → s₁.conns d = s.conns d ∧ s₁.tasksOf d = s.tasksOf d ∧ s₁.sockets d = s.sockets d)
    (quiet : ∀ d, added d = []) : Steps allowed added s (s₁.release id { cw with buffer := [] }) := by
  have completed : (⟨s.sockets c, cw.buffer, conn.ioBuffer⟩ : Buffers UInt8).complete = ⟨s₁.sockets c, [], conn.ioBuffer⟩ := by
    rw [sockets]
    rfl
  rw [release, registry, held]
  dsimp only
  split
  · refine steps_of_set sound key held rfl (by rw [state]; rfl) others
      (fun here => .parked state here (congrArg some half) rfl tasks) (fun d _ => quiet d) (fun here => ?_)
    have kept : (conn.restituteConnWriter { cw with buffer := [] }).ioBuffer = conn.ioBuffer := rfl
    rw [quiet, Buffers.append_nil, before, buffers_parked here state tasks, kept]
    exact completed ▸ .complete
  · have spawned := tasksOf_spawn s₁ id { cw with buffer := [] }
    have mine : (s₁.spawn id { cw with buffer := [] }).tasksOf c = [⟨id, { cw with buffer := [] }, .spawned⟩] := by
      rw [spawned, if_pos half, tasks]
      rfl
    have here : (s₁.spawn id { cw with buffer := [] }).registry.get id = some conn := (congrArg (·.get id) registry).trans held
    refine steps_of_key sound key (by rw [spawn, state]; rfl) ?_ (fun k _ => congrArg (·.get k) registry) (fun d other => ?_)
      (.busy state here write spare mine) (fun d _ => quiet d) ?_
    · rw [spawn, registry]
      exact sound.free
    · obtain ⟨conns, tasks, sockets⟩ := others d other
      refine ⟨conns, ?_, sockets⟩
      rw [spawned, if_neg (fun equal => other (equal.symm.trans half)), List.append_nil, tasks]
    · rw [quiet, Buffers.append_nil, before, buffers_busy here state mine]
      exact completed ▸ .complete

theorem release_setConn (s : Runtime) (id : SubId) (cw : ConnWriter) (c : Nat) (h : Handler) :
    (s.release id cw).setConn c h = (s.setConn c h).release id cw := by
  have same : (s.setConn c h).registry = s.registry := rfl
  simp only [release, same]
  cases s.registry.get id with
  | none => rfl
  | some conn =>
    dsimp only
    split <;> rfl

theorem steps_sent (sound : s.Sound) (c : Nat) (quiet : ∀ d, added d = []) {reply : Reply}
    (taken : s.sent c none = .ok (reply, s')) : Steps allowed added s s' := by
  cases sound.owned c with
  | normal state | parked state | busy state => simp [sent, state] at taken
  | @replying cw state write tasks =>
    simp only [sent, state, Option.isSome_none, Bool.false_eq_true, if_false, writeAll] at taken
    obtain ⟨-, rfl⟩ := Prod.mk.inj (Except.ok.inj taken)
    subst write
    obtain ⟨out, eqOut⟩ : ∃ out, out = Function.update s.sockets cw.write (s.sockets cw.write ++ cw.buffer) := ⟨_, rfl⟩
    rw [← eqOut]
    obtain ⟨s', eq⟩ : ∃ s' : Runtime, s' = { s with sockets := out }.setConn cw.write (.idle (.normal cw.write [])) := ⟨_, rfl⟩
    rw [← eq]
    have state' : s'.conns cw.write = .idle (.normal cw.write []) := by rw [eq, conns_setConn, if_pos rfl]
    have tasks' : ∀ d, s'.tasksOf d = s.tasksOf d := fun d => by rw [eq]; rfl
    have sockets : s'.sockets = Function.update s.sockets cw.write (s.sockets cw.write ++ cw.buffer) := by rw [eq, ← eqOut]; rfl
    have mine : s'.tasksOf cw.write = [] := (tasks' _).trans tasks
    refine steps_of_normal sound (by rw [state]; rfl) (by rw [state']; rfl) (by rw [eq]; rfl)
      (fun d other => ⟨?_, tasks' d, ?_⟩) (.normal state' mine) (fun d _ => quiet d) ?_
    · rw [eq, conns_setConn, if_neg other]
    · rw [sockets, Function.update_of_ne other]
    · rw [quiet, Buffers.append_nil, buffers_replying state tasks, buffers_normal state' mine, sockets, Function.update_self]
      exact .complete
  | @sending id conn cw state half held write spare tasks =>
    simp only [sent, state, Option.isSome_none, Bool.false_eq_true, if_false, writeAll, release_setConn] at taken
    obtain ⟨-, rfl⟩ := Prod.mk.inj (Except.ok.inj taken)
    refine steps_release sound half (by rw [state]; rfl) held write spare (buffers_sending held state tasks) rfl ?_ tasks ?_
      (fun d other => ⟨?_, rfl, ?_⟩) quiet
    · rw [conns_setConn, if_pos rfl]
    · subst half
      exact Function.update_self ..
    · rw [conns_setConn, if_neg other]
    · subst half
      exact Function.update_of_ne other ..

/-! ### `write_task` -/

/-- A `write_task` is the one writer of its connection. -/
theorem Sound.task (sound : s.Sound) {t : Nat} {task : WriteTask} (found : s.tasks[t]? = some task) :
    ∃ conn, s.conns task.cw.write = .idle (.pubSub task.id) ∧ s.registry.get task.id = some conn ∧ conn.write = none ∧
      conn.swapBuffer = none ∧ s.tasksOf task.cw.write = [task] := by
  have member : task ∈ s.tasksOf task.cw.write := List.mem_filter.2 ⟨List.mem_of_getElem? found, by simp⟩
  cases sound.owned task.cw.write with
  | normal state tasks | replying state write tasks => rw [tasks] at member; cases member
  | parked state held write spare tasks => rw [tasks] at member; cases member
  | sending state half held write spare tasks => rw [tasks] at member; cases member
  | @busy id conn cw phase state held write spare tasks =>
    rw [tasks, List.mem_singleton] at member
    rw [← member] at tasks
    have same : task.id = id := by rw [member]
    rw [← same] at state held
    exact ⟨conn, state, held, write, spare, tasks⟩

theorem tasks_split {t : Nat} {task : WriteTask} (found : s.tasks[t]? = some task) :
    ∃ l₁ l₂, s.tasks = l₁ ++ task :: l₂ ∧ s.tasks.eraseIdx t = l₁ ++ l₂ ∧ ∀ task', s.tasks.set t task' = l₁ ++ task' :: l₂ := by
  obtain ⟨bound, here⟩ := List.getElem?_eq_some_iff.1 found
  refine ⟨s.tasks.take t, s.tasks.drop (t + 1), ?_, List.eraseIdx_eq_take_drop_succ .., fun task' => ?_⟩
  · rw [← here, List.getElem_cons_drop, List.take_append_drop]
  · rw [List.set_eq_take_append_cons_drop, if_pos bound]

/-- Other tasks with the same write half in place of a task. -/
theorem tasksOf_replace {u : Runtime} {task : WriteTask} {l₁ l l₂ : List WriteTask} (half : ∀ task' ∈ l, task'.cw.write = task.cw.write)
    (before : s.tasks = l₁ ++ task :: l₂) (after : u.tasks = l₁ ++ l ++ l₂) :
    (∀ d, d ≠ task.cw.write → u.tasksOf d = s.tasksOf d) ∧
      (s.tasksOf task.cw.write = [task] → u.tasksOf task.cw.write = l) := by
  constructor
  · intro d other
    have none' : l.filter (fun task' => task'.cw.write = d) = [] := by
      rw [List.filter_eq_nil_iff]
      intro task' member same
      exact other ((by simpa using same : task'.cw.write = d).symm.trans (half task' member))
    rw [tasksOf, tasksOf, before, after, List.filter_append, List.filter_append, none', List.append_nil, List.filter_append,
      List.filter_cons_of_neg (by simpa using Ne.symm other)]
  · intro only
    have all : l.filter (fun task' => task'.cw.write = task.cw.write) = l := by
      rw [List.filter_eq_self]
      exact fun task' member => by simpa using half task' member
    rw [tasksOf, before, List.filter_append, List.filter_cons_of_pos (by simp), List.append_eq_singleton_iff] at only
    rw [tasksOf, after, List.filter_append, List.filter_append, all]
    rcases only with ⟨left, right⟩ | ⟨-, absurd'⟩
    · rw [left, (List.cons.inj right).2, List.nil_append, List.append_nil]
    · cases absurd'

theorem steps_poll (sound : s.Sound) (t : Nat) (quiet : ∀ d, added d = []) {reply : Reply}
    (fit : ∀ task conn, s.tasks[t]? = some task → s.registry.get task.id = some conn →
      ∀ written, allowed ⟨written, task.cw.buffer, conn.ioBuffer⟩)
    (taken : s.poll t = .ok (reply, s')) : Steps allowed added s s' := by
  unfold poll at taken
  split at taken
  next id cw found =>
    obtain ⟨conn, state, held, write, spare, tasks⟩ := sound.task found
    simp only [held] at taken
    obtain ⟨-, rfl⟩ := Prod.mk.inj (Except.ok.inj taken)
    obtain ⟨l₁, l₂, before, -, replaced⟩ := tasks_split found
    obtain ⟨others, mine⟩ := tasksOf_replace (u := { s with
        registry := s.registry.set id { conn with ioBuffer := cw.buffer }
        tasks := s.tasks.set t ⟨id, { cw with buffer := conn.ioBuffer }, .writing⟩ })
      (l := [⟨id, { cw with buffer := conn.ioBuffer }, .writing⟩]) (by simp) before (by simp [replaced])
    have key : (s.conns cw.write).key = some id := by rw [state]; rfl
    refine steps_of_set sound key held rfl key (fun d other => ⟨rfl, others d other, rfl⟩)
      (fun here => .busy state here write spare (mine tasks)) (fun d _ => quiet d) (fun here => ?_)
    rw [quiet, Buffers.append_nil, buffers_busy held state tasks, buffers_busy here state (mine tasks)]
    exact .swap (fit _ conn found held _)
  next => cases taken

theorem steps_wrote (sound : s.Sound) (t : Nat) (quiet : ∀ d, added d = []) {reply : Reply}
    (taken : s.wrote t none = .ok (reply, s')) : Steps allowed added s s' := by
  unfold wrote at taken
  split at taken
  next id cw found =>
    obtain ⟨conn, state, held, write, spare, tasks⟩ := sound.task found
    simp only [Option.isSome_none, Bool.false_eq_true, if_false, writeAll] at taken
    obtain ⟨-, rfl⟩ := Prod.mk.inj (Except.ok.inj taken)
    obtain ⟨l₁, l₂, before, erased, -⟩ := tasks_split found
    obtain ⟨others, mine⟩ := tasksOf_replace (u := { s with tasks := s.tasks.eraseIdx t }) (l := []) (by simp) before
      (by simp [erased])
    refine steps_release sound rfl (by rw [state]; rfl) held write spare (buffers_busy held state tasks) rfl state (mine tasks) ?_
      (fun d other => ⟨rfl, others d other, ?_⟩) quiet
    · exact Function.update_self ..
    · exact Function.update_of_ne other ..
  next => cases taken

/-- No first poll swaps two buffers that both hold something. -/
def InTurn (s : Runtime) : Input → Prop
  | .poll t => ∀ task ∈ s.tasks[t]?, ∀ conn ∈ s.registry.get task.id, task.cw.buffer = [] ∨ conn.ioBuffer = []
  | _ => True

instance (s : Runtime) (i : Input) : Decidable (s.InTurn i) := by
  unfold InTurn
  split <;> infer_instance

theorem steps_step (sound : s.Sound) (order : ChannelOrder) (i : Input) (succeeds : i.Succeeds)
    (fit : ∀ b : Buffers UInt8, (s.InTurn i → b.inflight = [] ∨ b.pending = []) → allowed b) {reply : Reply}
    (taken : s.step order i = .ok (reply, s')) : Steps allowed (s.appends i) s s' := by
  cases i with
  | subscribe c channel => exact steps_subscribe sound order c channel (fun _ => rfl) taken
  | unsubscribe c channels => exact steps_unsubscribe sound order c channels (fun _ => rfl) taken
  | publishEncode args => exact steps_publishEncode sound order args taken
  | triggerWrite id =>
    obtain ⟨-, rfl⟩ := Prod.mk.inj (Except.ok.inj taken)
    exact steps_triggerWrite sound id fun _ => rfl
  | send c frame => exact steps_send sound c frame taken
  | sent c failed =>
    obtain rfl : failed = none := succeeds
    exact steps_sent sound c (fun _ => rfl) taken
  | poll t =>
    refine steps_poll sound t (fun _ => rfl) (fun task conn found held written => fit _ fun inTurn => ?_) taken
    exact inTurn task found conn held
  | wrote t failed =>
    obtain rfl : failed = none := succeeds
    exact steps_wrote sound t (fun _ => rfl) taken

/-! ## Runs -/

variable {R : List SharedByte → List SharedByte → Prop}

/-- What the moves of each step keep is kept by a run; `past` are the frames appended before it. -/
theorem run_holds (allowed : Buffers UInt8 → Prop) (order : ChannelOrder) (grows : ∀ l h more, R l h → R (l ++ more) (h ++ more))
    (swaps : ∀ b h, allowed b → Holds R h b → Holds R h b.swap) (inputs : List Input) :
    ∀ (past : Nat → List SharedByte) {s s' : Runtime} {replies : List Reply}, s.Sound → (∀ c, Holds R (past c) (s.buffers c)) →
      (∀ i ∈ inputs, i.Succeeds) →
      Runs.Meets (step order) (fun s i => ∀ b : Buffers UInt8, (s.InTurn i → b.inflight = [] ∨ b.pending = []) → allowed b)
        inputs s →
      Runs.run (step order) inputs s = .ok (replies, s') →
      s'.Sound ∧ ∀ c, Holds R (past c ++ history order inputs s c) (s'.buffers c) := by
  induction inputs with
  | nil =>
    intro past s s' replies sound holds _ _ ran
    obtain ⟨-, rfl⟩ := Prod.mk.inj (Except.ok.inj ran)
    simpa [history] using ⟨sound, holds⟩
  | cons i rest ih =>
    intro past s s' replies sound holds succeeds meets ran
    simp only [Runs.run, bind, Except.bind] at ran
    cases taken : s.step order i with
    | error => rw [taken] at ran; cases ran
    | ok p =>
      obtain ⟨reply, s₁⟩ := p
      simp only [taken] at ran
      cases others : Runs.run (step order) rest s₁ with
      | error => rw [others] at ran; cases ran
      | ok q =>
        simp only [others] at ran
        obtain ⟨-, rfl⟩ := Prod.mk.inj (Except.ok.inj ran)
        obtain ⟨sound₁, moves⟩ := steps_step sound order i (succeeds i List.mem_cons_self) meets.1 taken
        have holds₁ : ∀ c, Holds R (past c ++ s.appends i c) (s₁.buffers c) := fun c =>
          ((holds c).append grows _).moves (moves c) fun ok => swaps _ _ ok ((holds c).append grows _)
        obtain ⟨sound', holds'⟩ := ih (fun c => past c ++ s.appends i c) sound₁ holds₁
          (fun j member => succeeds j (List.mem_cons_of_mem i member)) (meets.next taken) others
        refine ⟨sound', fun c => ?_⟩
        rw [history, taken, ← List.append_assoc]
        exact holds' c

theorem holds_new (equal : R [] []) (c : Nat) : Holds R [] (new.buffers c) := ⟨[], [], [], rfl, rfl, rfl, equal⟩

/-- No loss, no duplication, one writer: in every run without a write error. -/
theorem run_delivers (order : ChannelOrder) (inputs : List Input) (replies : List Reply) (s : Runtime)
    (succeeds : ∀ i ∈ inputs, i.Succeeds) (ran : Runs.run (step order) inputs new = .ok (replies, s)) (c : Nat) :
    s.OneWriter c ∧ Holds List.Perm (history order inputs new c) (s.buffers c) := by
  obtain ⟨sound, holds⟩ := run_holds (fun _ => True) order (fun _ _ more perm => perm.append_right more)
    (fun _ _ _ holds => holds.swap_perm) inputs (fun _ => []) sound_new (holds_new (.refl [])) succeeds
    (.of_forall (fun _ _ _ _ _ => trivial) _) ran
  exact ⟨sound.oneWriter c, holds c⟩

/-- A subscriber whose second message comes while the first is written, and who then leaves its only channel. -/
def leaving : List Input :=
  [.subscribe 0 (ascii "ch"), .publishEncode [ascii "ch", ascii "A"], .triggerWrite ⟨0, 0⟩, .poll 0, .wrote 0 none, .poll 0,
    .publishEncode [ascii "ch", ascii "B"], .wrote 0 none, .poll 0, .wrote 0 none, .unsubscribe 0 [ascii "ch"],
    .send 0 (.simpleString (ascii "OK")), .sent 0 none]

theorem run_leaving : ∃ replies s, Runs.run (step .stored) leaving new = .ok (replies, s) := by
  have ends : (Runs.run (step .stored) leaving new).isOk = true := by decide +kernel
  cases ran : Runs.run (step .stored) leaving new with
  | error => rw [ran] at ends; cases ends
  | ok p => exact ⟨p.1, p.2, rfl⟩

theorem run_delivers_leaving : ∃ replies s, Runs.run (step .stored) leaving new = .ok (replies, s) ∧
    ∀ c, s.OneWriter c ∧ Holds List.Perm (history .stored leaving new c) (s.buffers c) := by
  obtain ⟨replies, s, ran⟩ := run_leaving
  exact ⟨replies, s, ran, run_delivers .stored leaving replies s (by decide) ran⟩

/-- In a run whose first polls are all in turn, frames are written in the order they were appended in. -/
theorem run_inOrder (order : ChannelOrder) (inputs : List Input) (replies : List Reply) (s : Runtime)
    (succeeds : ∀ i ∈ inputs, i.Succeeds) (inTurn : Runs.Meets (step order) InTurn inputs new)
    (ran : Runs.run (step order) inputs new = .ok (replies, s)) (c : Nat) :
    Holds (· = ·) (history order inputs new c) (s.buffers c) :=
  (run_holds (fun b => b.inflight = [] ∨ b.pending = []) order (fun _ _ _ equal => congrArg (· ++ _) equal)
    (fun _ _ one holds => holds.swap one) inputs (fun _ => []) sound_new (holds_new rfl) succeeds
    (inTurn.mono fun _ _ ok _ one => one ok) ran).2 c

theorem run_inOrder_leaving : ∃ replies s, Runs.run (step .stored) leaving new = .ok (replies, s) ∧
    ∀ c, Holds (· = ·) (history .stored leaving new c) (s.buffers c) := by
  obtain ⟨replies, s, ran⟩ := run_leaving
  exact ⟨replies, s, ran, run_inOrder .stored leaving replies s (by decide) (by decide +kernel) ran⟩

/-- A subscriber, and two messages around `trigger_write`. The second is there before the task is first polled. -/
def overtaking : List Input :=
  [.subscribe 0 (ascii "ch"), .publishEncode [ascii "ch", ascii "A"], .triggerWrite ⟨0, 0⟩,
    .publishEncode [ascii "ch", ascii "B"], .poll 0, .wrote 0 none]

theorem overtaking_not_inOrder : ¬ ∀ order inputs replies s, (∀ i ∈ inputs, i.Succeeds) →
    Runs.run (step order) inputs new = .ok (replies, s) → ∀ c, Holds (· = ·) (history order inputs new c) (s.buffers c) := by
  intro inOrder
  have written : (Runs.run (step .stored) overtaking new).toOption.map (fun p => p.2.sockets 0) =
      some (ascii "*3\r\n$7\r\nmessage\r\n$2\r\nch\r\n$1\r\nB\r\n") := by decide +kernel
  have appended : history .stored overtaking new 0 = [ascii "*3\r\n$7\r\nmessage\r\n$2\r\nch\r\n$1\r\nA\r\n",
      ascii "*3\r\n$7\r\nmessage\r\n$2\r\nch\r\n$1\r\nB\r\n"] := by decide +kernel
  cases ran : Runs.run (step .stored) overtaking new with
  | error => rw [ran] at written; cases written
  | ok p =>
    rw [ran] at written
    have starts : p.2.sockets 0 <+: (history .stored overtaking new 0).flatten :=
      (inOrder .stored overtaking p.1 p.2 (by decide) ran 0).starts
    have out : p.2.sockets 0 = _ := Option.some.inj written
    rw [appended, out] at starts
    exact absurd starts (by decide +kernel)

end Runtime

end Radixox.Server
