import Radixox.Lib.Bus
import Radixox.Server.Delivery
import Radixox.Server.Generations
import Radixox.Server.Ownership

/-!
# The server as a message bus

What the registry, the write tasks and the connections do together: a message published on a channel goes to
the mail of the connections that are in the channel, whatever their ids are, whose buffers
are being written and which connections have gone. A task that is left over from a
connection that has closed does no harm, because its id is over.
-/

namespace Radixox.Server
set_option autoImplicit false

open Radixox.Runs Radixox.Topics Radixox.DoubleBuffer

/-- A step of a task, or the end of a connection. -/
inductive Act where
  | input (i : Input)
  | cleanup (c : Nat)

namespace Act

/-- What the act is to the bus. -/
def post : Act → Option (Post SharedByte Nat SharedByte)
  | .input (.subscribe c channel) => some (.join c channel)
  | .input (.unsubscribe c channels) => some (if channels.isEmpty then .leaveAll c else .leave c channels)
  | .input (.publishEncode (channel :: message :: _)) =>
    some (.publish channel ((SubRegistry.encodePubsubMessage channel message).getD []))
  | .input (.send c frame) => some (.send c ((extendEncode [] frame).getD []))
  | .cleanup c => some (.leaveAll c)
  | _ => none

def hear (b : Bus SharedByte Nat SharedByte) (a : Act) : Bus SharedByte Nat SharedByte := a.post.elim b b.next

/-- `PUBLISH` replies with the number of members. -/
def Tells (b : Bus SharedByte Nat SharedByte) : Act → Reply → Prop
  | .input (.publishEncode (channel :: _ :: _)), reply =>
    ∃ toFlush, reply = .published (.integer (Int64.ofNat (members b.topics channel).length)) toFlush
  | _, _ => True

/-- A step that is no write error. -/
def Succeeds : Act → Prop
  | .input i => i.Succeeds
  | .cleanup _ => True

/-- The acts that may take an id out of the arena. -/
def leaves : Act → Bool
  | .input (.unsubscribe _ _) | .cleanup _ => true
  | _ => false

instance (a : Act) : Decidable a.Succeeds := by
  unfold Succeeds
  split <;> infer_instance

end Act

namespace Runtime

/-- The end of `handle_connection`. -/
def cleanup (s : Runtime) (c : Nat) : Except Fault (Reply × Runtime) :=
  match s.conns c with
  | .idle (.pubSub id) => .ok (.nothing, { s with registry := s.registry.cleanup id }.setConn c (.idle .none))
  | .idle .blocking => .error .todo
  | .idle _ => .ok (.nothing, s.setConn c (.idle .none))
  | _ => .error .disabled

def perform (order : ChannelOrder) (s : Runtime) : Act → Except Fault (Reply × Runtime)
  | .input i => s.step order i
  | .cleanup c => s.cleanup c

/-- Nobody leaves the last of its counted channels but not all it is in. -/
def Suits (s : Runtime) : Act → Prop
  | .input (.unsubscribe c channels) => ∀ id ∈ (s.conns c).key, s.registry.Suits id channels
  | _ => True

def Turns (s : Runtime) : Act → Prop
  | .input i => s.InTurn i
  | .cleanup _ => True

/-- The act suits the server, and its swap of buffers is one of the allowed ones. -/
structure Fits (allowed : Buffers UInt8 → Prop) (s : Runtime) (a : Act) : Prop where
  suits : s.Suits a
  may : ∀ b : Buffers UInt8, (s.Turns a → b.inflight = [] ∨ b.pending = []) → allowed b

/-! ## Connections that have closed -/

/-- The same server, in which a connection that has closed goes on as one that never asks for anything again. -/
structure Revives (s u : Runtime) : Prop where
  registry : u.registry = s.registry
  tasks : u.tasks = s.tasks.filter fun t => (s.registry.get t.id).isSome
  live : ∀ c, s.conns c ≠ .idle .none → u.conns c = s.conns c ∧ u.sockets c = s.sockets c
  closed : ∀ c, s.conns c = .idle .none → ∃ buf, u.conns c = .idle (.normal c buf)

/-- A task whose connection has gone has an id that is over. -/
structure Settled (n : Nat) (s u : Runtime) : Prop where
  revives : s.Revives u
  sound : u.Sound
  within : s.registry.connArena.Within n
  stale : ∀ t ∈ s.tasks, s.registry.get t.id = none → s.registry.connArena.Outdated t.id ∧ s.conns t.cw.write = .idle .none

/-- A step of both that changes no subscription. -/
structure Echoes (s s' u u' : Runtime) : Prop where
  revives : s'.Revives u'
  alike : s.registry.Alike s'.registry
  closed : ∀ c, s.conns c = .idle .none → s'.conns c = .idle .none
  tasks : ∀ t ∈ s'.tasks, t ∈ s.tasks ∨ (s.registry.get t.id).isSome

variable {s s' s'' u u' u'' : Runtime} {c n : Nat} {id : SubId}

theorem Echoes.trans (first : Echoes s s' u u') (second : Echoes s' s'' u' u'') : Echoes s s'' u u'' := by
  refine ⟨second.revives, first.alike.trans second.alike, fun c gone => second.closed c (first.closed c gone),
    fun t member => ?_⟩
  rcases second.tasks t member with before | present
  · exact first.tasks t before
  · exact .inr (first.alike.present t.id ▸ present)

theorem Settled.echo (settled : s.Settled n u) (echoes : Echoes s s' u u') (sound : u'.Sound) : s'.Settled n u' := by
  refine ⟨echoes.revives, sound, .congr echoes.alike.generations settled.within, fun t member gone => ?_⟩
  have absent : (s.registry.get t.id).isSome = false := by
    rw [← echoes.alike.present, gone]
    rfl
  rcases echoes.tasks t member with before | present
  · obtain ⟨outdated, closed⟩ := settled.stale t before (Option.isSome_eq_false_iff.1 absent |> Option.isNone_iff_eq_none.1)
    exact ⟨.congr echoes.alike.generations outdated, echoes.closed _ closed⟩
  · rw [absent] at present
    cases present

theorem Revives.refl_echo (revives : s.Revives u) : Echoes s s u u := ⟨revives, .refl, fun _ gone => gone, fun _ => .inl⟩

theorem Revives.echo_registry (revives : s.Revives u) {registry : SubRegistry} (alike : s.registry.Alike registry) :
    Echoes s { s with registry := registry } u { u with registry := registry } := by
  refine ⟨⟨rfl, ?_, revives.live, revives.closed⟩, alike, fun _ gone => gone, fun _ => .inl⟩
  show u.tasks = s.tasks.filter fun t => (registry.get t.id).isSome
  simp only [revives.tasks, alike.present]

/-- A connection that is open moves on. -/
theorem Revives.setConn {h : Handler} (revives : s.Revives u) (isOpen : s.conns c ≠ .idle .none) (stays : h ≠ .idle .none) :
    (s.setConn c h).Revives (u.setConn c h) := by
  refine ⟨revives.registry, revives.tasks, fun d live => ?_, fun d gone => ?_⟩
  · rw [conns_setConn] at live
    rw [conns_setConn, conns_setConn]
    split
    next here => exact ⟨rfl, here ▸ (revives.live c isOpen).2⟩
    next other =>
      rw [if_neg other] at live
      exact revives.live d live
  · rw [conns_setConn] at gone
    split at gone
    next => exact absurd gone stays
    next other =>
      rw [conns_setConn, if_neg other]
      exact revives.closed d gone

theorem Revives.echo_setConn {h : Handler} (revives : s.Revives u) (isOpen : s.conns c ≠ .idle .none)
    (stays : h ≠ .idle .none) : Echoes s (s.setConn c h) u (u.setConn c h) := by
  refine ⟨revives.setConn isOpen stays, .refl, fun d gone => ?_, fun _ => .inl⟩
  rw [conns_setConn, if_neg ?_]
  · exact gone
  · rintro rfl
    exact isOpen gone

theorem Revives.echo_spawn (revives : s.Revives u) (cw : ConnWriter) (held : (s.registry.get id).isSome) :
    Echoes s (s.spawn id cw) u (u.spawn id cw) := by
  refine ⟨⟨revives.registry, ?_, revives.live, revives.closed⟩, .refl, fun _ gone => gone, fun t member => ?_⟩
  · show u.tasks ++ _ = (s.tasks ++ _).filter fun t => (s.registry.get t.id).isSome
    rw [List.filter_append, ← revives.tasks]
    simp [held]
  · rcases List.mem_append.1 member with before | new
    · exact .inl before
    · rw [List.mem_singleton.1 new]
      exact .inr held

theorem Revives.echo_writeAll (revives : s.Revives u) (cw : ConnWriter) (failed : Option Nat) :
    Echoes s (s.writeAll cw failed).1 u (u.writeAll cw failed).1 := by
  refine ⟨⟨revives.registry, revives.tasks, fun d live => ?_, revives.closed⟩, .refl, fun _ gone => gone, fun _ => .inl⟩
  obtain ⟨conns, sockets⟩ := revives.live d live
  refine ⟨conns, ?_⟩
  simp only [writeAll, Function.update_apply]
  split
  next here => rw [← here, sockets]
  next => exact sockets

theorem Revives.echo_release (revives : s.Revives u) (id : SubId) (cw : ConnWriter) :
    Echoes s (s.release id cw) u (u.release id cw) := by
  simp only [release, revives.registry]
  cases held : s.registry.get id with
  | none => exact revives.refl_echo
  | some conn =>
    dsimp only
    split
    · exact revives.echo_registry (SubRegistry.alike_set held _)
    · exact revives.echo_spawn cw (by rw [held]; rfl)

theorem Revives.echo_triggerWrite (revives : s.Revives u) (id : SubId) :
    Echoes s (s.triggerWrite id) u (u.triggerWrite id) := by
  simp only [triggerWrite, revives.registry]
  cases held : s.registry.get id with
  | none => exact revives.refl_echo
  | some conn =>
    dsimp only
    split
    · exact revives.refl_echo
    next cw conn' _ =>
      have kept := revives.echo_registry (SubRegistry.alike_set held conn')
      refine kept.trans (kept.revives.echo_spawn cw ?_)
      rw [kept.alike.present, held]
      rfl

theorem Revives.echo_send {frame : SharedFrame} (revives : s.Revives u) (taken : s.send c frame = .ok (.nothing, s')) :
    ∃ u', u.send c frame = .ok (.nothing, u') ∧ Echoes s s' u u' := by
  by_cases isOpen : s.conns c = .idle .none
  · simp [send, isOpen] at taken
  have same := (revives.live c isOpen).1
  simp only [send, handlePubsubWrite, same, revives.registry] at taken ⊢
  split at taken
  next write buf before =>
    split at taken
    · cases taken
    next buf' _ =>
      obtain rfl := (Prod.mk.inj (Except.ok.inj taken)).2
      exact ⟨_, rfl, revives.echo_setConn isOpen (by rintro ⟨⟩)⟩
  next id before =>
    split at taken
    · cases taken
    next conn held =>
      split at taken
      · cases taken
      next buf _ =>
        split at taken
        next =>
          obtain rfl := (Prod.mk.inj (Except.ok.inj taken)).2
          exact ⟨_, rfl, revives.echo_registry (SubRegistry.alike_set held _)⟩
        next cw conn' _ =>
          obtain rfl := (Prod.mk.inj (Except.ok.inj taken)).2
          have kept := revives.echo_registry (SubRegistry.alike_set held conn')
          exact ⟨_, rfl, kept.trans (kept.revives.echo_setConn isOpen (by rintro ⟨⟩))⟩
  next before =>
    obtain rfl := (Prod.mk.inj (Except.ok.inj taken)).2
    exact ⟨_, rfl, revives.refl_echo⟩
  · cases taken
  · cases taken

theorem Revives.echo_sent {reply : Reply} (revives : s.Revives u) (taken : s.sent c none = .ok (reply, s')) :
    ∃ u', u.sent c none = .ok (reply, u') ∧ Echoes s s' u u' := by
  by_cases isOpen : s.conns c = .idle .none
  · simp [sent, isOpen] at taken
  have same := (revives.live c isOpen).1
  simp only [sent, same, Option.isSome_none, Bool.false_eq_true, if_false] at taken ⊢
  split at taken
  next cw before =>
    obtain ⟨rfl, rfl⟩ := Prod.mk.inj (Except.ok.inj taken)
    have written := revives.echo_writeAll cw none
    exact ⟨_, rfl, written.trans (written.revives.echo_setConn isOpen (by rintro ⟨⟩))⟩
  next id cw before =>
    obtain ⟨rfl, rfl⟩ := Prod.mk.inj (Except.ok.inj taken)
    have written := revives.echo_writeAll cw none
    have released := written.trans (written.revives.echo_release id (s.writeAll cw none).2)
    refine ⟨_, rfl, released.trans (released.revives.echo_setConn ?_ (by rintro ⟨⟩))⟩
    rw [conns_release]
    exact isOpen
  · cases taken

/-- A task of a connection that is there, among those of such connections. -/
theorem Revives.task {t : Nat} {task : WriteTask} (revives : s.Revives u) (found : s.tasks[t]? = some task)
    (present : (s.registry.get task.id).isSome) : ∃ t', u.tasks[t']? = some task ∧
      u.tasks.eraseIdx t' = (s.tasks.eraseIdx t).filter (fun t => (s.registry.get t.id).isSome) ∧
      ∀ task', (s.registry.get task'.id).isSome →
        u.tasks.set t' task' = (s.tasks.set t task').filter fun t => (s.registry.get t.id).isSome := by
  obtain ⟨l₁, l₂, before, erased, replaced⟩ := tasks_split found
  have split : u.tasks = l₁.filter (fun t => (s.registry.get t.id).isSome) ++
      task :: l₂.filter fun t => (s.registry.get t.id).isSome := by
    rw [revives.tasks, before, List.filter_append, List.filter_cons_of_pos (by simpa using present)]
  refine ⟨(l₁.filter fun t => (s.registry.get t.id).isSome).length, ?_, ?_, fun task' there => ?_⟩
  · rw [split, List.getElem?_append_right (Nat.le_refl _), Nat.sub_self]
    rfl
  · rw [split, erased, List.eraseIdx_append_of_length_le (Nat.le_refl _), Nat.sub_self, List.filter_append]
    rfl
  · rw [split, replaced, List.set_append_right _ _ (Nat.le_refl _), Nat.sub_self, List.filter_append,
      List.filter_cons_of_pos (by simpa using there)]
    rfl

theorem Revives.echo_poll {t : Nat} {reply : Reply} (revives : s.Revives u) (taken : s.poll t = .ok (reply, s')) :
    ∃ u', (u' = u ∨ ∃ t', u.tasks[t']? = s.tasks[t]? ∧ u.poll t' = .ok (reply, u')) ∧ Echoes s s' u u' := by
  unfold poll at taken
  split at taken
  next id cw found =>
    obtain ⟨l₁, l₂, before, erased, -⟩ := tasks_split found
    cases held : s.registry.get id with
    | none =>
      rw [held] at taken
      obtain rfl := (Prod.mk.inj (Except.ok.inj taken)).2
      refine ⟨u, .inl rfl, ⟨revives.registry, ?_, revives.live, revives.closed⟩, .refl, fun _ gone => gone,
        fun t member => ?_⟩
      · show u.tasks = (s.tasks.eraseIdx t).filter _
        rw [revives.tasks, erased, before, List.filter_append, List.filter_cons_of_neg (by simp [held]), ← List.filter_append]
      · exact .inl (List.mem_of_mem_eraseIdx member)
    | some conn =>
      rw [held] at taken
      obtain ⟨rfl, rfl⟩ := Prod.mk.inj (Except.ok.inj taken)
      have present : (s.registry.get id).isSome := by rw [held]; rfl
      obtain ⟨t', found', -, replaced⟩ := revives.task found present
      have alike := SubRegistry.alike_set held { conn with ioBuffer := cw.buffer }
      refine ⟨{ u with
          registry := s.registry.set id { conn with ioBuffer := cw.buffer }
          tasks := u.tasks.set t' ⟨id, { cw with buffer := conn.ioBuffer }, .writing⟩ },
        .inr ⟨t', found'.trans found.symm, ?_⟩, ⟨rfl, ?_, revives.live, revives.closed⟩, alike, fun _ gone => gone,
        fun t member => ?_⟩
      · simp only [poll, found', revives.registry, held]
      · simp only [alike.present]
        exact replaced ⟨id, { cw with buffer := conn.ioBuffer }, .writing⟩ present
      · rcases List.mem_or_eq_of_mem_set member with old | rfl
        · exact .inl old
        · exact .inr present
  next => cases taken

theorem Settled.echo_wrote {t : Nat} {reply : Reply} (settled : s.Settled n u) (taken : s.wrote t none = .ok (reply, s')) :
    ∃ u', (u' = u ∨ ∃ t', u.wrote t' none = .ok (reply, u')) ∧ Echoes s s' u u' := by
  have revives := settled.revives
  unfold wrote at taken
  split at taken
  next id cw found =>
    obtain ⟨l₁, l₂, before, erased, -⟩ := tasks_split found
    simp only [Option.isSome_none, Bool.false_eq_true, if_false] at taken
    obtain ⟨rfl, rfl⟩ := Prod.mk.inj (Except.ok.inj taken)
    cases held : s.registry.get id with
    | none =>
      have closed := (settled.stale _ (List.mem_of_getElem? found) held).2
      have unchanged : ({ s with tasks := s.tasks.eraseIdx t }.writeAll cw none).1.release id
          ({ s with tasks := s.tasks.eraseIdx t }.writeAll cw none).2 =
            ({ s with tasks := s.tasks.eraseIdx t }.writeAll cw none).1 := by
        have same : ({ s with tasks := s.tasks.eraseIdx t }.writeAll cw none).1.registry.get id = none := held
        rw [release, same]
      rw [unchanged]
      refine ⟨u, .inl rfl, ⟨revives.registry, ?_, fun d live => ?_, revives.closed⟩, .refl, fun _ gone => gone,
        fun t member => ?_⟩
      · show u.tasks = (s.tasks.eraseIdx t).filter fun t => (s.registry.get t.id).isSome
        rw [revives.tasks, erased, before, List.filter_append, List.filter_cons_of_neg (by simp [held]), ← List.filter_append]
      · obtain ⟨conns, sockets⟩ := revives.live d live
        refine ⟨conns, sockets.trans (Function.update_of_ne ?_ _ _).symm⟩
        exact fun here => live (here ▸ closed)
      · exact .inl (List.mem_of_mem_eraseIdx member)
    | some conn =>
      have present : (s.registry.get id).isSome := by rw [held]; rfl
      obtain ⟨t', found', rest, -⟩ := revives.task found present
      have first : Echoes s { s with tasks := s.tasks.eraseIdx t } u { u with tasks := u.tasks.eraseIdx t' } :=
        ⟨⟨revives.registry, rest, revives.live, revives.closed⟩, .refl, fun _ gone => gone,
          fun _ member => .inl (List.mem_of_mem_eraseIdx member)⟩
      have written := first.trans (first.revives.echo_writeAll cw none)
      have released := written.trans (written.revives.echo_release id ({ s with tasks := s.tasks.eraseIdx t }.writeAll cw none).2)
      refine ⟨_, .inr ⟨t', ?_⟩, released⟩
      simp only [wrote, found', Option.isSome_none, Bool.false_eq_true, if_false]
      rfl
  next => cases taken

/-! ## Mail -/

variable {b : Bus SharedByte Nat SharedByte} {R : List SharedByte → List SharedByte → Prop} {allowed : Buffers UInt8 → Prop}

/-- A relation between frames that appends and the allowed swaps keep. -/
structure Kept (R : List SharedByte → List SharedByte → Prop) (allowed : Buffers UInt8 → Prop) : Prop where
  grows : ∀ l h more, R l h → R (l ++ more) (h ++ more)
  swaps : ∀ b h, allowed b → Holds R h b → Holds R h b.swap

/-- The members and the mail of the bus are the lists and the buffers of the server. -/
structure Serves (R : List SharedByte → List SharedByte → Prop) (n : Nat) (s u : Runtime) (b : Bus SharedByte Nat SharedByte) :
    Prop where
  settled : s.Settled n u
  named : Named (fun c => (s.conns c).key) s.registry.connMap b.topics
  mail : ∀ c, Holds R (b.mail c) (u.buffers c)

theorem Settled.apart (settled : s.Settled n u) : Apart fun c => (s.conns c).key := by
  intro c c' id mine mine'
  have live : ∀ d, (s.conns d).key = some id → (u.conns d).key = some id := by
    intro d his
    rw [(settled.revives.live d fun gone => ?_).1]
    · exact his
    · rw [gone] at his
      cases his
  exact settled.sound.keys c c' id (live c mine) (live c' mine')

theorem Settled.leased (settled : s.Settled n u) : s.Leased := by
  have same : u.registry = s.registry := settled.revives.registry
  refine ⟨same ▸ settled.sound.free, fun c id mine => ?_, settled.apart⟩
  have live : u.conns c = s.conns c := by
    refine (settled.revives.live c fun gone => ?_).1
    have his : (s.conns c).key = some id := mine
    rw [gone] at his
    cases his
  have key : (u.conns c).key = some id := by rw [live]; exact mine
  have held := (settled.sound.owned c).held key
  rwa [same] at held

/-- The bus goes on as the buffers do. -/
theorem Serves.next {m : Nat} {a : Act} (serves : Serves R n s u b) (kept : Kept R allowed) (settled : s'.Settled m u')
    (moves : ∀ c, Moves allowed ((u.buffers c).append (a.post.elim [] (Post.adds b.topics c))) (u'.buffers c))
    (named : Named (fun c => (s'.conns c).key) s'.registry.connMap (a.hear b).topics) : Serves R m s' u' (a.hear b) := by
  refine ⟨settled, named, fun c => ?_⟩
  have added : (a.hear b).mail c = b.mail c ++ a.post.elim [] (Post.adds b.topics c) := by
    unfold Act.hear
    cases a.post with
    | none => exact (List.append_nil _).symm
    | some post => rfl
  rw [added]
  have appended := (serves.mail c).append kept.grows (a.post.elim [] (Post.adds b.topics c))
  exact appended.moves (moves c) fun ok => kept.swaps _ _ ok appended

/-- A step that changes no subscription and that the bus does not hear of. -/
theorem Serves.quiet {a : Act} (serves : Serves R n s u b) (kept : Kept R allowed) (silent : a.post = none)
    (echoes : Echoes s s' u u') (keeps : s.Keeps s') (steps : Steps allowed (fun _ => []) u u') :
    Serves R n s' u' (a.hear b) := by
  have same : a.hear b = b := by rw [Act.hear, silent]; rfl
  apply serves.next kept (serves.settled.echo echoes steps.1)
  · rw [silent]
    exact steps.2
  · have keys : (fun c => (s'.conns c).key) = fun c => (s.conns c).key := congrArg Leases.Ledger.holder keeps.same
    rw [same, keys, echoes.alike.map]
    exact serves.named

theorem steps_refl (sound : u.Sound) : Steps allowed (fun _ => []) u u :=
  steps_same sound sound.free (fun _ => ⟨rfl, fun _ _ => rfl, rfl, rfl⟩) (fun _ held => held) fun _ => rfl

/-! ## Every act -/

variable {reply : Reply}

theorem serves_send {frame : SharedFrame} (serves : Serves R n s u b) (kept : Kept R allowed)
    (taken : s.send c frame = .ok (reply, s')) : ∃ u', Serves R n s' u' (Act.hear b (.input (.send c frame))) := by
  have settled := serves.settled
  obtain ⟨rfl, keeps⟩ := keeps_send settled.leased taken
  obtain ⟨u', taken', echoes⟩ := settled.revives.echo_send taken
  obtain ⟨sound, moves⟩ : Steps allowed (u.appends (.send c frame)) u u' := steps_send settled.sound c frame taken'
  have added : ∀ d, u.appends (.send c frame) d = Post.adds b.topics d (.send c ((extendEncode [] frame).getD [])) := by
    intro d
    simp only [appends, Post.adds]
    cases settled.sound.owned c <;> simp_all
  refine ⟨u', serves.next kept (settled.echo echoes sound) (fun d => ?_) ?_⟩
  · rw [show (Act.input (.send c frame)).post.elim [] (Post.adds b.topics d) = _ from (added d).symm]
    exact moves d
  · have keys : (fun c => (s'.conns c).key) = fun c => (s.conns c).key := congrArg Leases.Ledger.holder keeps.same
    rw [keys, echoes.alike.map]
    exact serves.named

/-- A message goes to the buffers of the connections that the bus sends it to. -/
theorem Serves.appends_publishEncode (serves : Serves R n s u b) (args : List SharedByte) (d : Nat) :
    u.appends (.publishEncode args) d = (Act.input (.publishEncode args)).post.elim [] (Post.adds b.topics d) := by
  have settled := serves.settled
  rcases args with _ | ⟨channel, _ | ⟨message, _⟩⟩
  · rfl
  · rfl
  · show _ = List.replicate ((members b.topics channel).count d) _
    simp only [appends, settled.revives.registry]
    have listed : (s.registry.connMap.lookup channel).getD [] = members s.registry.connMap channel := rfl
    cases mine : (s.conns d).key with
    | none =>
      have key : (u.conns d).key = none := by
        by_cases gone : s.conns d = .idle .none
        · obtain ⟨buf, normal⟩ := settled.revives.closed d gone
          rw [normal]
          rfl
        · rw [(settled.revives.live d gone).1, mine]
      rw [key, List.count_eq_zero_of_not_mem (serves.named.notMem mine channel)]
      rfl
    | some id =>
      have live : u.conns d = s.conns d := by
        refine (settled.revives.live d fun gone => ?_).1
        rw [gone] at mine
        cases mine
      rw [live, mine, ← serves.named.count_eq settled.apart mine channel, ← listed]
      cases s.registry.connMap.lookup channel <;> rfl

/-- The length of the id list is the number of members. -/
theorem Serves.tells_publishEncode {args : List SharedByte} {response : SharedFrame} {toFlush : List SubId}
    {registry : SubRegistry} (serves : Serves R n s u b)
    (published : s.registry.publishEncode args = .ok ((response, toFlush), registry)) :
    Act.Tells b (.input (.publishEncode args)) (.published response toFlush) := by
  rcases args with _ | ⟨channel, _ | ⟨message, _⟩⟩
  · trivial
  · trivial
  · refine ⟨toFlush, ?_⟩
    rw [← serves.named.length_eq channel, members]
    simp only [SubRegistry.publishEncode] at published
    split at published
    · cases published
    · split at published
      next absent =>
        rw [absent]
        obtain ⟨rfl, -⟩ := Prod.mk.inj (Prod.mk.inj (Except.ok.inj published)).1
        rfl
      next subs found =>
        rw [found]
        obtain ⟨rfl, -⟩ := Prod.mk.inj (Prod.mk.inj (Except.ok.inj published)).1
        rfl

theorem serves_publishEncode {args : List SharedByte} (serves : Serves R n s u b) (kept : Kept R allowed) (order : ChannelOrder)
    (taken : s.step order (.publishEncode args) = .ok (reply, s')) :
    ∃ u', Serves R n s' u' (Act.hear b (.input (.publishEncode args))) ∧ Act.Tells b (.input (.publishEncode args)) reply := by
  have settled := serves.settled
  obtain ⟨⟨⟨response, toFlush⟩, registry⟩, published, done⟩ := Outcomes.exists_of_bind taken
  obtain ⟨rfl, rfl⟩ := Prod.mk.inj (Except.ok.inj done)
  have alike : s.registry.Alike registry := by
    obtain ⟨-, rfl, -⟩ | ⟨-, -, -, encoded, subs, -, -, -, appended⟩ := SubRegistry.publishEncode_cases published
    · exact .refl
    · obtain rfl := (Prod.mk.inj appended).2
      exact SubRegistry.alike_appendAll encoded subs
  have taken' : u.step order (.publishEncode args) = .ok (.published response toFlush, { u with registry := registry }) := by
    simp only [step, settled.revives.registry, published]
    rfl
  obtain ⟨sound, moves⟩ : Steps allowed (u.appends (.publishEncode args)) u { u with registry := registry } :=
    steps_publishEncode settled.sound order args taken'
  have echoes := settled.revives.echo_registry alike
  have topics : (Act.hear b (.input (.publishEncode args))).topics = b.topics := by
    rcases args with _ | ⟨_, _ | _⟩ <;> rfl
  refine ⟨_, serves.next kept (settled.echo echoes sound) (fun d => ?_) ?_, serves.tells_publishEncode published⟩
  · rw [← serves.appends_publishEncode args d]
    exact moves d
  · rw [topics]
    exact serves.named.of_members fun channel => by rw [echoes.alike.map]

/-- An open connection joins or leaves channels. -/
theorem Settled.update {m : Nat} {registry : SubRegistry} {state : ConnState} (settled : s.Settled n u)
    (isOpen : s.conns c ≠ .idle .none) (stays : state ≠ .none) (ages : s.registry.Ages registry)
    (within : registry.connArena.Within m) (sound : (setConn { u with registry := registry } c (.idle state)).Sound) :
    (setConn { s with registry := registry } c (.idle state)).Settled m
      (setConn { u with registry := registry } c (.idle state)) := by
  have revives := settled.revives
  have present : ∀ t ∈ s.tasks, (registry.get t.id).isSome = (s.registry.get t.id).isSome := by
    intro t member
    cases held : s.registry.get t.id with
    | none =>
      have gone : registry.get t.id = none := GenArena.get_of_outdated (ages _ (settled.stale t member held).1)
      rw [gone]
    | some conn =>
      have inside : t ∈ u.tasks := by
        rw [revives.tasks]
        exact List.mem_filter.2 ⟨member, by rw [held]; rfl⟩
      obtain ⟨i, found⟩ := List.mem_iff_getElem?.1 inside
      obtain ⟨conn', -, held', -⟩ := sound.task found
      have there : registry.get t.id = some conn' := held'
      rw [there]
      rfl
  have base : Revives { s with registry := registry } { u with registry := registry } := by
    refine ⟨rfl, ?_, revives.live, revives.closed⟩
    show u.tasks = s.tasks.filter fun t => (registry.get t.id).isSome
    rw [revives.tasks]
    exact List.filter_congr fun t member => (present t member).symm
  have moves : Handler.idle state ≠ .idle .none := fun same => stays (Handler.idle.inj same)
  refine ⟨base.setConn isOpen moves, sound, within, fun t member gone => ?_⟩
  have absent : s.registry.get t.id = none := by
    have same := present t member
    have gone' : registry.get t.id = none := gone
    rw [gone'] at same
    exact Option.isNone_iff_eq_none.1 (by simpa using same.symm)
  obtain ⟨outdated, closed⟩ := settled.stale t member absent
  refine ⟨ages _ outdated, ?_⟩
  rw [conns_setConn, if_neg ?_]
  · exact closed
  · intro here
    exact isOpen (here ▸ closed)

/-- Who joins is listed under its id, a new one if it had none. -/
theorem subscribe_joins {state state' : ConnState} {channel : SharedByte} {registry : SubRegistry} {count : Nat}
    (leased : s.Leased) (before : s.conns c = .idle state)
    (joined : s.registry.subscribe state channel = .ok (registry, state', count)) :
    ∃ id, state' = .pubSub id ∧ registry.connMap = enrol s.registry.connMap channel id ∧
      ∀ k, (s.conns c).key = some k → k = id := by
  cases state with
  | blocking | none => cases joined
  | normal write buf =>
    obtain ⟨registry', id, n, outcome, -, map, -⟩ := SubRegistry.subscribe_first leased.free write buf channel
    obtain ⟨rfl, same⟩ := Prod.mk.inj (Except.ok.inj (outcome.symm.trans joined))
    refine ⟨id, (Prod.mk.inj same).1.symm, map, fun k mine => ?_⟩
    rw [before] at mine
    cases mine
  | pubSub id =>
    have mine : (s.conns c).key = some id := by rw [before]; rfl
    obtain ⟨conn, held⟩ := Option.isSome_iff_exists.1 (leased.held mine)
    obtain ⟨registry', n, outcome, -, map, -⟩ := SubRegistry.subscribe_again leased.free held channel
    obtain ⟨rfl, same⟩ := Prod.mk.inj (Except.ok.inj (outcome.symm.trans joined))
    refine ⟨id, (Prod.mk.inj same).1.symm, map, fun k mine => ?_⟩
    rw [before] at mine
    exact (Option.some.inj mine).symm

theorem serves_subscribe {channel : SharedByte} (serves : Serves R n s u b) (kept : Kept R allowed) (order : ChannelOrder)
    (taken : s.step order (.subscribe c channel) = .ok (reply, s')) :
    ∃ u', Serves R n s' u' (Act.hear b (.input (.subscribe c channel))) := by
  have settled := serves.settled
  have whole := taken
  simp only [step] at taken
  split at taken
  next state before =>
    obtain ⟨⟨registry, state', count⟩, joined, done⟩ := Outcomes.exists_of_bind taken
    obtain ⟨rfl, rfl⟩ := Prod.mk.inj (Except.ok.inj done)
    obtain ⟨id, rfl, map, mine⟩ := subscribe_joins settled.leased before joined
    have isOpen : s.conns c ≠ .idle .none := by
      rw [before]
      rintro ⟨⟩
      cases joined
    have taken' : u.step order (.subscribe c channel) =
        .ok (.count count, setConn { u with registry := registry } c (.idle (.pubSub id))) := by
      simp only [step, (settled.revives.live c isOpen).1, before, settled.revives.registry, joined]
      rfl
    obtain ⟨sound, moves⟩ : Steps allowed (fun _ => []) u (setConn { u with registry := registry } c (.idle (.pubSub id))) :=
      steps_subscribe settled.sound order c channel (fun _ => rfl) taken'
    obtain ⟨ages, within⟩ := SubRegistry.ages_subscribe settled.leased.free settled.within joined
    refine ⟨_, serves.next kept (settled.update isOpen (by rintro ⟨⟩) ages within sound) moves ?_⟩
    have renamed : Named (fun d => ((setConn { s with registry := registry } c (.idle (.pubSub id))).conns d).key)
        s.registry.connMap b.topics := by
      apply serves.named.rename
      intro topic d listed
      rw [conns_setConn]
      split
      next here =>
        obtain ⟨k, his, -⟩ := serves.named.name_of_mem listed
        have his' : (s.conns d).key = some k := his
        rw [his', mine k (here ▸ his')]
        rfl
      next => rfl
    show Named _ registry.connMap (enrol b.topics channel c)
    rw [map]
    apply renamed.enrol
    rw [conns_setConn, if_pos rfl]
    rfl
  next => cases taken

/-- Nobody hears of a connection that leaves channels without being in any. -/
theorem named_leave {a : Act} {l : List SharedByte} (named : Named (fun c => (s.conns c).key) s.registry.connMap b.topics)
    (nameless : (s.conns c).key = none) (left : (a.hear b).topics = withdraws b.topics l c) :
    Named (fun c => (s.conns c).key) s.registry.connMap (a.hear b).topics := by
  intro topic
  rw [left, members_withdraws_of_notMem (named.notMem nameless)]
  exact named topic

theorem adds_unsubscribe (m : TopicMap SharedByte Nat) (c d : Nat) (channels : List SharedByte) :
    (Act.input (.unsubscribe c channels)).post.elim [] (Post.adds m d) = [] := by
  cases channels <;> rfl

theorem topics_unsubscribe (b : Bus SharedByte Nat SharedByte) (c : Nat) (channels : List SharedByte) :
    (Act.hear b (.input (.unsubscribe c channels))).topics =
      withdraws b.topics (if channels.isEmpty then topicsOf b.topics c else channels) c := by
  cases channels <;> rfl

/-- A connection that is no subscriber has nothing to leave. -/
theorem Serves.unsubscribe_nameless (serves : Serves R n s u b) (kept : Kept R allowed) (nameless : (s.conns c).key = none)
    (channels : List SharedByte) : Serves R (n + 1) s u (Act.hear b (.input (.unsubscribe c channels))) := by
  have settled := serves.settled
  refine serves.next kept ⟨settled.revives, settled.sound, ?_, settled.stale⟩ (fun d => ?_)
    (named_leave serves.named nameless (topics_unsubscribe b c channels))
  · exact fun g member => Nat.le_succ_of_le (settled.within g member)
  · rw [adds_unsubscribe]
    exact (steps_refl settled.sound).2 d

/-- The lists without the connection, under the names as they were. -/
theorem Serves.named_unsubscribe (serves : Serves R n s u b) (order : ChannelOrder) (mine : (s.conns c).key = some id)
    (channels : List SharedByte) :
    Named (fun d => (s.conns d).key) (withdraws s.registry.connMap (s.registry.leaves order id channels) id)
      (withdraws b.topics (if channels.isEmpty then topicsOf b.topics c else channels) c) := by
  have apart := serves.settled.apart
  apply serves.named.withdraws apart mine
  intro topic listed
  unfold SubRegistry.leaves
  split
  · rw [(order.enum_perm _).mem_iff, mem_topicsOf, mem_topicsOf]
    exact serves.named.mem_iff apart mine topic
  · rfl

/-- A subscriber that stops being one is in no list. -/
theorem lists_unsubscribe {channels : List SharedByte} {frames : List SharedFrame} {registry : SubRegistry} {state : ConnState}
    (leased : s.Leased) (order : ChannelOrder) (mine : (s.conns c).key = some id) (suits : s.registry.Suits id channels)
    (outcome : s.registry.unsubscribe order (.pubSub id) channels = (frames, registry, state)) :
    registry.connMap = withdraws s.registry.connMap (s.registry.leaves order id channels) id ∧
      state ≠ .none ∧ (state = .pubSub id ∨ ∀ topic, id ∉ members registry.connMap topic) := by
  obtain ⟨frames', registry', state', outcome', cases⟩ := SubRegistry.unsubscribe_eq order s.registry id channels
  obtain ⟨-, rfl, rfl⟩ : frames' = frames ∧ registry' = registry ∧ state' = state := by
    simpa using outcome'.symm.trans outcome
  have same : ((s.registry.leaves order id channels).foldl (SubRegistry.removeChannel id) s.registry).connMap =
      withdraws s.registry.connMap (s.registry.leaves order id channels) id := SubRegistry.connMap_removeChannels ..
  rcases cases with ⟨rfl, rfl⟩ | ⟨reg₁, conn, write, rfl, held, none', parked, rfl, rfl⟩
  · exact ⟨same, by rintro ⟨⟩, .inl rfl⟩
  · obtain ⟨conn₀, held₀⟩ := Option.isSome_iff_exists.1 (leased.held mine)
    refine ⟨same, by rintro ⟨⟩, .inr ?_⟩
    exact SubRegistry.unlisted_of_suits order leased.free held₀ held none' (by rw [parked]; rfl) suits

theorem serves_unsubscribe {channels : List SharedByte} (serves : Serves R n s u b) (kept : Kept R allowed) (order : ChannelOrder)
    (few : n + 1 < 2 ^ 32) (suits : s.Suits (.input (.unsubscribe c channels)))
    (taken : s.step order (.unsubscribe c channels) = .ok (reply, s')) :
    ∃ u', Serves R (n + 1) s' u' (Act.hear b (.input (.unsubscribe c channels))) := by
  have settled := serves.settled
  simp only [step] at taken
  split at taken
  next state before =>
    cases state with
    | normal | blocking | none =>
      have idle : s' = s := by
        rw [← (Prod.mk.inj (Except.ok.inj taken)).2]
        simp [SubRegistry.unsubscribe, setConn, ← before]
      exact ⟨u, idle ▸ serves.unsubscribe_nameless kept (by rw [before]; rfl) channels⟩
    | pubSub id =>
      obtain ⟨⟨frames, registry, state⟩, outcome⟩ : ∃ p, s.registry.unsubscribe order (.pubSub id) channels = p :=
        ⟨_, rfl⟩
      rw [outcome] at taken
      obtain ⟨rfl, rfl⟩ := Prod.mk.inj (Except.ok.inj taken)
      have mine : (s.conns c).key = some id := by rw [before]; rfl
      have isOpen : s.conns c ≠ .idle .none := by
        rw [before]
        rintro ⟨⟩
      have taken' : u.step order (.unsubscribe c channels) =
          .ok (.frames frames, setConn { u with registry := registry } c (.idle state)) := by
        simp only [step, (settled.revives.live c isOpen).1, before, settled.revives.registry, outcome]
      obtain ⟨sound, moves⟩ : Steps allowed (fun _ => []) u (setConn { u with registry := registry } c (.idle state)) :=
        steps_unsubscribe settled.sound order c channels (fun _ => rfl) taken'
      obtain ⟨ages, within⟩ := SubRegistry.ages_unsubscribe order settled.within few outcome
      obtain ⟨map, stays, unlisted⟩ := lists_unsubscribe settled.leased order mine (suits id mine) outcome
      have after := serves.named_unsubscribe order mine channels
      refine ⟨_, serves.next kept (settled.update isOpen stays ages within sound) (fun d => ?_) ?_⟩
      · rw [adds_unsubscribe]
        exact moves d
      · rw [topics_unsubscribe]
        show Named _ registry.connMap _
        rw [map]
        apply after.rename
        intro topic d listed
        dsimp only
        rw [conns_setConn]
        split
        next here =>
          rw [here, mine]
          rcases unlisted with rfl | unlisted
          · rfl
          · refine absurd ?_ (unlisted topic)
            rw [map]
            exact (after.mem_iff settled.apart mine topic).2 (here ▸ listed)
        next => rfl
  next => cases taken

/-- A connection that is no subscriber closes. -/
theorem Serves.shut (serves : Serves R n s u b) (kept : Kept R allowed) (nameless : (s.conns c).key = none)
    (normal : ∃ buf, u.conns c = .idle (.normal c buf)) :
    Serves R (n + 1) (s.setConn c (.idle .none)) u (Act.hear b (.cleanup c)) := by
  have settled := serves.settled
  have revives : (s.setConn c (.idle .none)).Revives u := by
    refine ⟨settled.revives.registry, settled.revives.tasks, fun d live => ?_, fun d gone => ?_⟩
    · rw [conns_setConn] at live ⊢
      split at live
      next => exact absurd rfl live
      next other =>
        rw [if_neg other]
        exact settled.revives.live d live
    · rw [conns_setConn] at gone
      split at gone
      next here => exact here ▸ normal
      next => exact settled.revives.closed d gone
  have keys : (fun d => ((s.setConn c (.idle .none)).conns d).key) = fun d => (s.conns d).key := by
    funext d
    rw [conns_setConn]
    split
    next here => rw [here, nameless]; rfl
    next => rfl
  refine serves.next kept ⟨revives, settled.sound, ?_, fun t member gone => ?_⟩ (steps_refl settled.sound).2 ?_
  · exact fun g member => Nat.le_succ_of_le (settled.within g member)
  · obtain ⟨outdated, closed⟩ := settled.stale t member gone
    refine ⟨outdated, ?_⟩
    rw [conns_setConn]
    split
    · rfl
    · exact closed
  · rw [keys]
    exact named_leave serves.named nameless rfl

/-- What goes on of a subscriber that closes: a connection that has written all that was in flight. -/
def retire (u : Runtime) (registry : SubRegistry) (c : Nat) : Runtime where
  registry := registry
  conns := Function.update u.conns c (.idle (.normal c (u.buffers c).pending))
  tasks := u.tasks.filter fun t => t.cw.write ≠ c
  sockets := Function.update u.sockets c (u.sockets c ++ (u.buffers c).inflight)

theorem conns_retire (u : Runtime) (registry : SubRegistry) (c d : Nat) :
    (u.retire registry c).conns d = if d = c then .idle (.normal c (u.buffers c).pending) else u.conns d :=
  Function.update_apply ..

theorem steps_retire {registry : SubRegistry} (sound : u.Sound) (key : (u.conns c).key = some id)
    (free : registry.connArena.FreeList) (get : ∀ k, registry.get k = if k = id then none else u.registry.get k) :
    Steps allowed (fun _ => []) u (u.retire registry c) := by
  have now : (u.retire registry c).conns c = .idle (.normal c (u.buffers c).pending) := (conns_retire ..).trans (if_pos rfl)
  have noTasks : (u.retire registry c).tasksOf c = [] := by
    rw [tasksOf, retire, List.filter_filter]
    simp
  refine steps_of_acts sound free (c := c) (fun d other => ?_) (fun k his => ?_) (fun k there => ?_) (.normal now noTasks)
    (fun _ _ => rfl) ?_
  · refine ⟨(conns_retire ..).trans (if_neg other), fun k his => ?_, ?_, Function.update_of_ne other ..⟩
    · have differ : k ≠ id := fun same => other (sound.keys d c k his (same ▸ key))
      exact congrArg (Option.map Conn.core) ((get k).trans (if_neg differ))
    · rw [tasksOf, tasksOf, retire, List.filter_filter]
      apply List.filter_congr
      intro t _
      by_cases his : t.cw.write = d <;> simp [his, other]
  · rw [now] at his
    cases his
  · have there' : (registry.get k).isSome := there
    rw [get] at there'
    split at there'
    · cases there'
    next differ =>
      refine .inr ⟨there', fun same => differ ?_⟩
      rw [key, Option.some.injEq] at same
      exact same.symm
  · have done : (u.retire registry c).buffers c = (u.buffers c).complete := by
      rw [buffers_normal now noTasks, retire]
      simp only [Buffers.complete, Function.update_self]
      rfl
    rw [Buffers.append_nil, done]
    exact .complete

/-- The task of an id that is there is that of the connection that has the id. -/
theorem Settled.owner {t : WriteTask} (settled : s.Settled n u) (before : s.conns c = .idle (.pubSub id)) (member : t ∈ s.tasks)
    (present : (s.registry.get t.id).isSome) : t.cw.write = c ↔ t.id = id := by
  have state : u.conns c = .idle (.pubSub id) := by
    rw [(settled.revives.live c fun gone => by rw [before] at gone; cases gone).1, before]
  have inside : t ∈ u.tasks := by
    rw [settled.revives.tasks]
    exact List.mem_filter.2 ⟨member, present⟩
  obtain ⟨i, found⟩ := List.mem_iff_getElem?.1 inside
  obtain ⟨-, its, -⟩ := settled.sound.task found
  constructor
  · intro here
    rw [here, state] at its
    exact (ConnState.pubSub.inj (Handler.idle.inj its)).symm
  · intro same
    exact settled.sound.keys _ _ id (by rw [its, same]; rfl) (by rw [state]; rfl)

theorem Settled.revives_depart {registry : SubRegistry} (settled : s.Settled n u) (before : s.conns c = .idle (.pubSub id))
    (get : ∀ k, registry.get k = if k = id then none else s.registry.get k) :
    (setConn { s with registry := registry } c (.idle .none)).Revives (u.retire registry c) := by
  have revives := settled.revives
  refine ⟨rfl, ?_, fun d live => ?_, fun d gone => ?_⟩
  · show u.tasks.filter (fun t => t.cw.write ≠ c) = s.tasks.filter fun t => (registry.get t.id).isSome
    rw [revives.tasks, List.filter_filter]
    apply List.filter_congr
    intro t member
    rw [get]
    cases there : s.registry.get t.id with
    | none => simp
    | some conn =>
      have his := settled.owner before member (by rw [there]; rfl)
      by_cases same : t.id = id
      · simp [same, his.2 same]
      · have other : t.cw.write ≠ c := fun here => same (his.1 here)
        simp [same, other]
  · rw [conns_setConn] at live ⊢
    split at live
    next => exact absurd rfl live
    next other =>
      rw [if_neg other, conns_retire, if_neg other]
      obtain ⟨conns, sockets⟩ := revives.live d live
      exact ⟨conns, (Function.update_of_ne other ..).trans sockets⟩
  · rw [conns_setConn] at gone
    rw [conns_retire]
    split at gone
    next here => exact ⟨_, by rw [if_pos here, here]⟩
    next other =>
      rw [if_neg other]
      exact revives.closed d gone

/-- The id is over, and so is that of the write task that is left over. -/
theorem Settled.stale_depart {registry : SubRegistry} {t : WriteTask} (settled : s.Settled n u)
    (before : s.conns c = .idle (.pubSub id)) (get : ∀ k, registry.get k = if k = id then none else s.registry.get k)
    (ages : s.registry.Ages registry) (outdated : registry.connArena.Outdated id) (member : t ∈ s.tasks)
    (gone : registry.get t.id = none) : registry.connArena.Outdated t.id ∧
      (setConn { s with registry := registry } c (.idle .none)).conns t.cw.write = .idle .none := by
  rw [conns_setConn]
  cases there : s.registry.get t.id with
  | none =>
    obtain ⟨old, closed⟩ := settled.stale t member there
    refine ⟨ages _ old, ?_⟩
    split
    · rfl
    · exact closed
  | some conn =>
    have same : t.id = id := by
      by_contra other
      rw [get, if_neg other, there] at gone
      cases gone
    rw [if_pos ((settled.owner before member (by rw [there]; rfl)).2 same), same]
    exact ⟨outdated, rfl⟩

/-- The subscriber leaves all its lists, under both names. -/
theorem Serves.named_depart (serves : Serves R n s u b) (mine : (s.conns c).key = some id) :
    Named (fun d => ((setConn { s with registry := s.registry.cleanup id } c (.idle .none)).conns d).key)
      (s.registry.cleanup id).connMap (Act.hear b (.cleanup c)).topics := by
  have apart := serves.settled.apart
  have after : Named (fun d => (s.conns d).key) (withdraws s.registry.connMap s.registry.connMap.keys id)
      (withdraws b.topics (topicsOf b.topics c) c) := by
    apply serves.named.withdraws apart mine
    intro topic listed
    have inside := (List.mem_filter.1 (mem_topicsOf.2 listed)).1
    have member := mem_topicsOf.2 ((serves.named.mem_iff apart mine topic).1 listed)
    exact ⟨fun _ => member, fun _ => inside⟩
  show Named _ (withdraws s.registry.connMap s.registry.connMap.keys id) (withdraws b.topics (topicsOf b.topics c) c)
  apply after.rename
  intro topic d listed
  rw [conns_setConn, if_neg ?_]
  rintro rfl
  exact notMem_leaveAll b.topics d topic listed

/-- A subscriber closes. -/
theorem Serves.depart (serves : Serves R n s u b) (kept : Kept R allowed) (few : n + 1 < 2 ^ 32)
    (before : s.conns c = .idle (.pubSub id)) :
    ∃ u', Serves R (n + 1) (setConn { s with registry := s.registry.cleanup id } c (.idle .none)) u'
      (Act.hear b (.cleanup c)) := by
  have settled := serves.settled
  have mine : (s.conns c).key = some id := by rw [before]; rfl
  have key : (u.conns c).key = some id := by
    rw [(settled.revives.live c fun gone => by rw [before] at gone; cases gone).1, mine]
  obtain ⟨conn, held⟩ := Option.isSome_iff_exists.1 (settled.leased.held mine)
  obtain ⟨-, free, get⟩ := GenArena.remove_ok settled.leased.free held
  obtain ⟨ages, within, outdated⟩ := SubRegistry.ages_remove held settled.within few (s.registry.cleanup id).connMap
  have steps : Steps allowed (fun _ => []) u (u.retire (s.registry.cleanup id) c) :=
    steps_retire settled.sound key free fun k => settled.revives.registry ▸ get k
  exact ⟨_, serves.next kept ⟨settled.revives_depart before get, steps.1, within,
    fun _ member gone => settled.stale_depart before get ages outdated member gone⟩ steps.2 (serves.named_depart mine)⟩

theorem serves_cleanup (serves : Serves R n s u b) (kept : Kept R allowed) (few : n + 1 < 2 ^ 32)
    (taken : s.cleanup c = .ok (reply, s')) : ∃ u', Serves R (n + 1) s' u' (Act.hear b (.cleanup c)) := by
  have settled := serves.settled
  unfold cleanup at taken
  split at taken
  next id before =>
    obtain rfl := (Prod.mk.inj (Except.ok.inj taken)).2
    exact serves.depart kept few before
  · cases taken
  next state notSubscriber notBlocking before =>
    obtain rfl := (Prod.mk.inj (Except.ok.inj taken)).2
    refine ⟨u, serves.shut kept ?_ ?_⟩
    · rw [before]
      cases state with
      | pubSub id => exact absurd rfl (notSubscriber id)
      | normal | blocking | none => rfl
    · cases state with
      | pubSub id => exact absurd rfl (notSubscriber id)
      | blocking => exact absurd rfl notBlocking
      | none => exact settled.revives.closed c before
      | normal write buf =>
        have same : u.conns c = .idle (.normal write buf) := by
          rw [(settled.revives.live c fun gone => by rw [before] at gone; cases gone).1, before]
        cases settled.sound.owned c with
        | normal state => exact ⟨_, state⟩
        | replying state | parked state | busy state | sending state => rw [same] at state; cases state
  · cases taken

/-- Each act keeps the server and the bus in step. -/
theorem serves_perform {a : Act} (serves : Serves R n s u b) (kept : Kept R allowed) (order : ChannelOrder)
    (succeeds : a.Succeeds) (fits : s.Fits allowed a) (few : n + [a].countP Act.leaves < 2 ^ 32)
    (taken : s.perform order a = .ok (reply, s')) :
    ∃ u', Serves R (n + [a].countP Act.leaves) s' u' (a.hear b) ∧ a.Tells b reply := by
  have settled := serves.settled
  have free := settled.leased.free
  cases a with
  | cleanup c =>
    obtain ⟨u', after⟩ := serves_cleanup serves kept few taken
    exact ⟨u', after, trivial⟩
  | input i =>
    cases i with
    | subscribe c channel =>
      obtain ⟨u', after⟩ := serves_subscribe serves kept order taken
      exact ⟨u', after, trivial⟩
    | unsubscribe c channels =>
      obtain ⟨u', after⟩ := serves_unsubscribe serves kept order few fits.suits taken
      exact ⟨u', after, trivial⟩
    | publishEncode args => exact serves_publishEncode serves kept order taken
    | send c frame =>
      obtain ⟨u', after⟩ := serves_send serves kept taken
      exact ⟨u', after, trivial⟩
    | triggerWrite id =>
      obtain rfl := (Prod.mk.inj (Except.ok.inj taken)).2
      exact ⟨_, serves.quiet kept rfl (settled.revives.echo_triggerWrite id) (keeps_triggerWrite free id)
        (steps_triggerWrite settled.sound id fun _ => rfl), trivial⟩
    | sent c failed =>
      obtain rfl : failed = none := succeeds
      obtain ⟨u', taken', echoes⟩ := settled.revives.echo_sent taken
      obtain ⟨-, -, keeps⟩ | ⟨fails, -⟩ := sent_cases free taken
      · exact ⟨u', serves.quiet kept rfl echoes keeps (steps_sent settled.sound c (fun _ => rfl) taken'), trivial⟩
      · cases fails
    | poll t =>
      obtain ⟨u', polled, echoes⟩ := settled.revives.echo_poll taken
      have steps : Steps allowed (fun _ => []) u u' := by
        rcases polled with rfl | ⟨t', same, taken'⟩
        · exact steps_refl settled.sound
        · refine steps_poll settled.sound t' (fun _ => rfl) (fun task conn found held written => fits.may _ fun turns => ?_) taken'
          exact turns task (same.symm.trans found) conn (settled.revives.registry ▸ held)
      exact ⟨u', serves.quiet kept rfl echoes (keeps_poll free taken) steps, trivial⟩
    | wrote t failed =>
      obtain rfl : failed = none := succeeds
      obtain ⟨u', wrote, echoes⟩ := settled.echo_wrote taken
      have steps : Steps allowed (fun _ => []) u u' := by
        rcases wrote with rfl | ⟨t', taken'⟩
        · exact steps_refl settled.sound
        · exact steps_wrote settled.sound t' (fun _ => rfl) taken'
      exact ⟨u', serves.quiet kept rfl echoes (keeps_wrote free taken) steps, trivial⟩

/-! ## Runs -/

theorem run_serves (kept : Kept R allowed) (order : ChannelOrder) (acts : List Act) :
    ∀ {n : Nat} {s s' u : Runtime} {b : Bus SharedByte Nat SharedByte} {replies : List Reply}, Serves R n s u b →
      (∀ a ∈ acts, a.Succeeds) →
      Meets (perform order) (Fits allowed) acts s →
      n + acts.countP Act.leaves < 2 ^ 32 → run (perform order) acts s = .ok (replies, s') →
      Answers Act.hear Act.Tells b acts replies ∧
        ∃ u', Serves R (n + acts.countP Act.leaves) s' u' (acts.foldl Act.hear b) := by
  induction acts with
  | nil =>
    intro n s s' u b replies serves _ _ _ ran
    obtain ⟨rfl, rfl⟩ := Prod.mk.inj (Except.ok.inj ran)
    exact ⟨trivial, u, serves⟩
  | cons a rest ih =>
    intro n s s' u b replies serves succeeds meets few ran
    obtain ⟨⟨reply, s₁⟩, taken, later⟩ := Outcomes.exists_of_bind ran
    obtain ⟨⟨others, s₂⟩, ran', done⟩ := Outcomes.exists_of_bind later
    obtain ⟨rfl, rfl⟩ := Prod.mk.inj (Except.ok.inj done)
    have split : (a :: rest).countP Act.leaves = [a].countP Act.leaves + rest.countP Act.leaves :=
      @List.countP_append _ Act.leaves [a] rest
    rw [split, ← Nat.add_assoc] at few ⊢
    obtain ⟨u₁, serves₁, tells⟩ := serves_perform serves kept order (succeeds a List.mem_cons_self) meets.1 (by omega)
      taken
    obtain ⟨answers, u', serves'⟩ := ih serves₁ (fun d member => succeeds d (List.mem_cons_of_mem a member))
      (meets.next taken) few ran'
    exact ⟨⟨tells, answers⟩, u', serves'⟩

theorem serves_new (equal : R [] []) : Serves R 0 new new .empty where
  settled := by
    refine ⟨⟨rfl, rfl, fun _ _ => ⟨rfl, rfl⟩, fun c gone => ?_⟩, sound_new, GenArena.within_withCapacity _,
      fun t member => ?_⟩
    · cases gone
    · cases member
  named := named_empty
  mail := holds_new equal

/-- The bytes of an open connection, and the tasks that write them. -/
theorem Settled.buffers (settled : s.Settled n u) (isOpen : s.conns c ≠ .idle .none) : u.buffers c = s.buffers c := by
  obtain ⟨conns, sockets⟩ := settled.revives.live c isOpen
  have tasks : u.tasksOf c = s.tasksOf c := by
    rw [tasksOf, tasksOf, settled.revives.tasks, List.filter_filter]
    apply List.filter_congr
    intro t member
    cases held : s.registry.get t.id with
    | some conn => simp
    | none =>
      have closed := (settled.stale t member held).2
      have other : t.cw.write ≠ c := fun here => isOpen (here ▸ closed)
      simp [other]
  simp only [Runtime.buffers, writers, pending, conns, sockets, tasks, settled.revives.registry]

theorem kept_perm : Kept List.Perm fun _ => True :=
  ⟨fun _ _ more perm => perm.append_right more, fun _ _ _ holds => holds.swap_perm⟩

theorem kept_eq : Kept (· = ·) fun b => b.inflight = [] ∨ b.pending = [] :=
  ⟨fun _ _ _ equal => congrArg (· ++ _) equal, fun _ _ one holds => holds.swap one⟩

/-- In every run without a write error the server is a bus: the channels list the members of the bus, under their ids, `PUBLISH`
counts them, and the bytes of an open connection are its mail. They are in order if the first polls are in turn. -/
theorem run_bus (order : ChannelOrder) (acts : List Act) (replies : List Reply) (s : Runtime)
    (succeeds : ∀ a ∈ acts, a.Succeeds) (suits : Meets (perform order) Suits acts new)
    (few : acts.countP Act.leaves < 2 ^ 32) (ran : run (perform order) acts new = .ok (replies, s)) :
    Answers Act.hear Act.Tells .empty acts replies ∧
      Named (fun c => (s.conns c).key) s.registry.connMap (acts.foldl Act.hear .empty).topics ∧
      ∀ c, s.conns c ≠ .idle .none → Holds List.Perm ((acts.foldl Act.hear .empty).mail c) (s.buffers c) ∧
        (Meets (perform order) Turns acts new → Holds (· = ·) ((acts.foldl Act.hear .empty).mail c) (s.buffers c)) := by
  have bound : 0 + acts.countP Act.leaves < 2 ^ 32 := by omega
  obtain ⟨answers, u, serves⟩ := run_serves kept_perm order acts (serves_new (.refl [])) succeeds
    (suits.mono fun _ _ suits => ⟨suits, fun _ _ => trivial⟩) bound ran
  refine ⟨answers, serves.named, fun c isOpen => ⟨serves.settled.buffers isOpen ▸ serves.mail c, fun turns => ?_⟩⟩
  obtain ⟨-, u', serves'⟩ := run_serves kept_eq order acts (serves_new rfl) succeeds
    ((suits.and turns).mono fun _ _ both => ⟨both.1, fun _ one => one both.2⟩) bound ran
  exact serves'.settled.buffers isOpen ▸ serves'.mail c

instance (s : Runtime) (a : Act) : Decidable (s.Suits a) := by
  unfold Suits
  split <;> infer_instance

instance (s : Runtime) (a : Act) : Decidable (s.Turns a) := by
  unfold Turns
  split <;> infer_instance

/-- Two members of a channel: one closes while a message to it is being written, the other leaves and joins another. -/
def departures : List Act :=
  [.input (.subscribe 0 (ascii "a")), .input (.subscribe 1 (ascii "a")), .input (.publishEncode [ascii "a", ascii "hi"]),
    .input (.triggerWrite ⟨0, 0⟩), .input (.triggerWrite ⟨1, 0⟩), .input (.poll 0), .cleanup 0, .input (.wrote 0 none),
    .input (.poll 0), .input (.wrote 0 none), .input (.poll 0), .input (.publishEncode [ascii "a", ascii "ho"]),
    .input (.wrote 0 none), .input (.poll 0), .input (.wrote 0 none), .input (.unsubscribe 1 [ascii "a"]),
    .input (.publishEncode [ascii "a", ascii "hm"]), .input (.subscribe 1 (ascii "b"))]

theorem run_bus_departures : ∃ replies s, run (perform .stored) departures new = .ok (replies, s) ∧
    Answers Act.hear Act.Tells .empty departures replies ∧
    Named (fun c => (s.conns c).key) s.registry.connMap (departures.foldl Act.hear .empty).topics ∧
    Holds (· = ·) ((departures.foldl Act.hear .empty).mail 1) (s.buffers 1) := by
  have ends : ((run (perform .stored) departures new).toOption.any fun p => (p.2.conns 1).key.isSome) = true := by decide +kernel
  cases ran : run (perform .stored) departures new with
  | error => rw [ran] at ends; cases ends
  | ok p =>
    rw [ran] at ends
    have isOpen : p.2.conns 1 ≠ .idle .none := fun gone => by
      change (p.2.conns 1).key.isSome = true at ends
      rw [gone] at ends
      cases ends
    obtain ⟨answers, named, mail⟩ := run_bus .stored departures p.1 p.2 (by decide) (by decide +kernel) (by decide) ran
    exact ⟨p.1, p.2, rfl, answers, named, (mail 1 isOpen).2 (by decide +kernel)⟩

end Runtime

end Radixox.Server
