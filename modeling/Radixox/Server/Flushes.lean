import Radixox.Server.Ownership

/-!
# No message is stranded

What is in the buffer of a subscriber is on its way: a `ConnWriter` of the connection is in
flight, and whoever holds it looks at the buffer again, or a publisher still has the
connection among those to flush. A publisher that cannot write its own reply
forgets them, so that is where a message can be left behind.
-/

namespace Radixox.Server
set_option autoImplicit false

open Radixox.Runs Radixox.Leases Resp

/-- Every listed subscriber that is there is to be flushed. -/
theorem SubRegistry.mem_appendAll (encoded : SharedByte) {k : SubId} {ids : List SubId} : ∀ {reg : SubRegistry}, k ∈ ids →
    (reg.get k).isSome → k ∈ (reg.appendAll encoded ids).1 := by
  induction ids with
  | nil => exact fun member => absurd member List.not_mem_nil
  | cons id rest ih =>
    intro reg member held
    unfold appendAll
    split
    next conn here =>
      rcases List.mem_cons.1 member with same | later
      · exact same ▸ List.mem_cons_self
      · apply List.mem_cons_of_mem
        apply ih later
        rw [get_set here]
        split
        · rfl
        · exact held
    next absent =>
      rcases List.mem_cons.1 member with same | later
      · rw [same, absent] at held
        cases held
      · exact ih later held

namespace Runtime

/-- A task, or the connection's own handler, has the writer of the subscriber. -/
def InFlight (s : Runtime) (id : SubId) : Prop := (∃ task ∈ s.tasks, task.id = id) ∨ ∃ c cw, s.conns c = .sending id cw

/-- A subscriber without its writer, or with something in its buffer, is attended to. `flushers` are those that some
publisher still has to flush. -/
def Attends (flushers : SubId → Prop) (s : Runtime) (id : SubId) : Prop :=
  ∀ conn, s.registry.get id = some conn → conn.cancelation.isCanceled = false →
    (conn.getConnWriter = none → s.InFlight id) ∧ (conn.ioBuffer ≠ [] → s.InFlight id ∨ flushers id)

def Attended (flushers : SubId → Prop) (s : Runtime) : Prop := ∀ id, s.Attends flushers id

variable {s s' : Runtime} {c : Nat} {flushers : SubId → Prop} {id : SubId}

/-- A subscriber that nothing happened to. -/
theorem Attends.congr {flushers' : SubId → Prop} (attends : s.Attends flushers id)
    (get : s'.registry.get id = s.registry.get id) (stays : s.InFlight id → s'.InFlight id)
    (named : flushers id → flushers' id) : s'.Attends flushers' id := by
  intro conn held alive
  obtain ⟨out, pending⟩ := attends conn (get ▸ held) alive
  exact ⟨fun none' => stays (out none'), fun nonempty => (pending nonempty).imp stays named⟩

theorem Attended.mono {flushers' : SubId → Prop} (attended : s.Attended flushers) (named : ∀ id, flushers id → flushers' id) :
    s.Attended flushers' :=
  fun id => (attended id).congr rfl (fun flies => flies) (named id)

theorem attends_of_inFlight (flies : s.InFlight id) : s.Attends flushers id := fun _ _ _ => ⟨fun _ => flies, fun _ => .inl flies⟩

theorem attends_of_absent (absent : s.registry.get id = none) : s.Attends flushers id := by
  intro conn held
  rw [absent] at held
  cases held

/-- With its writer back and an empty buffer, a subscriber needs nobody. -/
theorem attends_of_parked {conn : Conn} (held : s.registry.get id = some conn) (parked : conn.getConnWriter ≠ none)
    (empty : conn.ioBuffer = []) : s.Attends flushers id := by
  intro conn' held'
  obtain rfl := Option.some.inj (held.symm.trans held')
  exact fun _ => ⟨fun none' => absurd none' parked, fun nonempty => absurd empty nonempty⟩

theorem attends_of_canceled {conn : Conn} (held : s.registry.get id = some conn) (canceled : conn.cancelation.isCanceled = true) :
    s.Attends flushers id := by
  intro conn' held' alive
  obtain rfl := Option.some.inj (held.symm.trans held')
  rw [canceled] at alive
  cases alive

/-- The writer of `id` only depends on the two fields. -/
theorem getConnWriter_none_congr (conn conn' : Conn) (write : conn'.write = conn.write)
    (spare : conn'.swapBuffer = conn.swapBuffer) : conn'.getConnWriter = none ↔ conn.getConnWriter = none := by
  unfold Conn.getConnWriter
  rw [write, spare]
  cases conn.write with
  | none => simp
  | some _ => cases conn.swapBuffer <;> simp

theorem inFlight_setConn {h : Handler} (idle : ∀ id cw, s.conns c ≠ .sending id cw) (flies : s.InFlight id) :
    (s.setConn c h).InFlight id := by
  refine flies.imp_right fun ⟨d, cw, sending⟩ => ⟨d, cw, ?_⟩
  rw [conns_setConn, if_neg ?_]
  · exact sending
  · intro same
    exact idle id cw (same ▸ sending)

/-! ## The steps of the runtime -/

theorem attended_send {frame : SharedFrame} {reply : Reply} (leased : s.Leased)
    (attended : s.Attended fun id => flushers id ∨ (s.conns c).key = some id) (taken : s.send c frame = .ok (reply, s')) :
    s'.Attended flushers := by
  unfold send at taken
  split at taken
  next write buf before =>
    split at taken
    · cases taken
    · obtain rfl := (Prod.mk.inj (Except.ok.inj taken)).2
      intro id
      refine (attended id).congr rfl (inFlight_setConn fun id cw sending => ?_) fun named => named.resolve_right ?_
      · rw [before] at sending
        cases sending
      · rw [before]
        nofun
  next id before =>
    have idle : ∀ id cw, s.conns c ≠ .sending id cw := fun id cw sending => by rw [before] at sending; cases sending
    have other : ∀ k, k ≠ id → ¬ (s.conns c).key = some k := by
      intro k differ key
      rw [before] at key
      exact differ (Option.some.inj key).symm
    have held : (s.registry.get id).isSome := leased.held (c := c) (by rw [before]; rfl)
    unfold handlePubsubWrite at taken
    split at taken
    next absent => rw [absent] at held; cases held
    next conn here =>
      split at taken
      · cases taken
      next buf _ =>
        dsimp only at taken
        split at taken
        next out =>
          obtain rfl := (Prod.mk.inj (Except.ok.inj taken)).2
          intro k
          by_cases same : k = id
          · intro conn' held' alive
            have get := SubRegistry.get_set here { conn with ioBuffer := buf } k
            rw [same, if_pos rfl] at get
            obtain rfl := Option.some.inj (get.symm.trans (same ▸ held'))
            have before' := getConnWriter_none_congr conn { conn with ioBuffer := buf } rfl rfl
            have flies := (attended k conn (same ▸ here) alive).1 (before'.1 out)
            exact ⟨fun _ => flies, fun _ => .inl flies⟩
          · refine (attended k).congr ?_ (fun flies => flies) fun named => named.resolve_right (other k same)
            exact (SubRegistry.get_set here _ k).trans (if_neg same)
        next cw conn' _ =>
          obtain rfl := (Prod.mk.inj (Except.ok.inj taken)).2
          intro k
          by_cases same : k = id
          · apply attends_of_inFlight
            exact .inr ⟨c, cw, by rw [conns_setConn, if_pos rfl, same]⟩
          · refine (attended k).congr ?_ (inFlight_setConn (s := { s with registry := _ }) idle) fun named =>
              named.resolve_right (other k same)
            exact (SubRegistry.get_set here _ k).trans (if_neg same)
  next before =>
    obtain rfl := (Prod.mk.inj (Except.ok.inj taken)).2
    intro id
    refine (attended id).congr rfl (fun flies => flies) fun named => named.resolve_right ?_
    rw [before]
    nofun
  · cases taken
  · cases taken

/-- A writer that was in flight comes back, or goes out again. -/
theorem attends_release {u : Runtime} (cw : ConnWriter) (registry : u.registry = (s.release id cw).registry)
    (tasks : u.tasks = (s.release id cw).tasks) : u.Attends flushers id := by
  cases held : s.registry.get id with
  | none =>
    rw [release, held] at registry
    exact attends_of_absent (by rw [registry, held])
  | some conn =>
    rw [release, held] at registry tasks
    dsimp only at registry tasks
    split at registry
    next empty =>
      have get := SubRegistry.get_set held (conn.restituteConnWriter cw) id
      rw [if_pos rfl] at get
      have back : u.registry.get id = some (conn.restituteConnWriter cw) := by rw [registry, get]
      apply attends_of_parked back
      · simp [Conn.getConnWriter, Conn.restituteConnWriter]
      · exact List.isEmpty_iff.1 empty
    next nonempty =>
      rw [if_neg nonempty] at tasks
      apply attends_of_inFlight
      refine .inl ⟨⟨id, cw, .spawned⟩, ?_, rfl⟩
      rw [tasks]
      exact List.mem_append_right _ List.mem_cons_self

theorem get_release (cw : ConnWriter) {k : SubId} (other : k ≠ id) : (s.release id cw).registry.get k = s.registry.get k := by
  unfold release
  split
  · rfl
  next conn held =>
    split
    · exact (SubRegistry.get_set held _ k).trans (if_neg other)
    · rfl

theorem tasks_release (cw : ConnWriter) : ∀ task ∈ s.tasks, task ∈ (s.release id cw).tasks := by
  intro task member
  unfold release
  split
  · exact member
  · split
    · exact member
    · exact List.mem_append_left _ member

/-- A write error cancels the connection. -/
theorem attends_cancel (reason : SharedByte) (registry : SubRegistry) (eq : registry = s.registry.modify id (·.cancel reason))
    (same : s'.registry = registry) : s'.Attends flushers id := by
  unfold SubRegistry.modify at eq
  split at eq
  next conn held =>
    have get := SubRegistry.get_set held (conn.cancel reason) id
    rw [if_pos rfl, ← eq, ← same] at get
    exact attends_of_canceled get rfl
  next absent =>
    apply attends_of_absent
    rw [same, eq, absent]

theorem get_modify_other {f : Conn → Conn} {k : SubId} (other : k ≠ id) : (s.registry.modify id f).get k = s.registry.get k := by
  unfold SubRegistry.modify
  split
  next conn held => exact (SubRegistry.get_set held _ k).trans (if_neg other)
  next => rfl

theorem attended_sent {failed : Option Nat} {reply : Reply} (attended : s.Attended flushers)
    (taken : s.sent c failed = .ok (reply, s')) : s'.Attended flushers := by
  unfold sent at taken
  split at taken
  next cw before =>
    have idle : ∀ id cw, s.conns c ≠ .sending id cw := fun id cw sending => by rw [before] at sending; cases sending
    dsimp only at taken
    have unchanged : ∀ h, ((s.writeAll cw failed).1.setConn c h).Attended flushers := fun h k =>
      (attended k).congr rfl (inFlight_setConn (s := (s.writeAll cw failed).1) idle) id
    split at taken
    · obtain rfl := (Prod.mk.inj (Except.ok.inj taken)).2
      exact unchanged _
    · obtain rfl := (Prod.mk.inj (Except.ok.inj taken)).2
      exact unchanged _
  next id cw before =>
    have stays : ∀ (u : Runtime) (h : Handler) (k : SubId), u.conns = s.conns → (∀ task ∈ s.tasks, task ∈ u.tasks) → k ≠ id →
        s.InFlight k → (u.setConn c h).InFlight k := by
      intro u h k same tasks other flies
      rcases flies with ⟨task, member, mine⟩ | ⟨d, cw', sending⟩
      · exact .inl ⟨task, tasks task member, mine⟩
      · refine .inr ⟨d, cw', ?_⟩
        rw [conns_setConn, if_neg ?_, same]
        · exact sending
        · intro here
          rw [here, before] at sending
          exact other (Handler.sending.inj sending).1.symm
    dsimp only at taken
    split at taken
    · obtain rfl := (Prod.mk.inj (Except.ok.inj taken)).2
      intro k
      by_cases same : k = id
      · exact same ▸ attends_cancel (s := s) (ascii "write error") _ rfl rfl
      · exact (attended k).congr (get_modify_other same) (stays _ _ k rfl (fun _ member => member) same) fun named => named
    · obtain rfl := (Prod.mk.inj (Except.ok.inj taken)).2
      intro k
      by_cases same : k = id
      · exact same ▸ attends_release (s := (s.writeAll cw failed).1) (s.writeAll cw failed).2 rfl rfl
      · refine (attended k).congr (get_release (s := (s.writeAll cw failed).1) _ same) ?_ fun named => named
        exact stays _ _ k (conns_release ..) (tasks_release (s := (s.writeAll cw failed).1) _) same
  · cases taken

/-- Another task than the one that makes its step. -/
theorem other_task {l : List WriteTask} {t : Nat} {task task' : WriteTask} (found : l[t]? = some task) (member : task' ∈ l)
    (other : task'.id ≠ task.id) : task' ∈ l.eraseIdx t ∧ ∀ moved, task' ∈ l.set t moved := by
  obtain ⟨i, here⟩ := List.mem_iff_getElem?.1 member
  have differ : i ≠ t := by
    intro same
    rw [same, found] at here
    exact other (congrArg WriteTask.id (Option.some.inj here)).symm
  constructor
  · exact List.mem_eraseIdx_iff_getElem?.2 ⟨i, differ, here⟩
  · intro moved
    rw [← List.getElem?_set_ne differ.symm] at here
    exact List.mem_iff_getElem?.2 ⟨i, here⟩

theorem attended_poll {t : Nat} {reply : Reply} (attended : s.Attended flushers) (taken : s.poll t = .ok (reply, s')) :
    s'.Attended flushers := by
  unfold poll at taken
  split at taken
  next id cw found =>
    split at taken
    next absent =>
      obtain rfl := (Prod.mk.inj (Except.ok.inj taken)).2
      intro k
      by_cases same : k = id
      · exact attends_of_absent (same ▸ absent)
      · refine (attended k).congr rfl (Or.imp_left fun ⟨task, member, mine⟩ => ⟨task, ?_, mine⟩) fun named => named
        exact (other_task found member (mine ▸ same)).1
    next conn held =>
      obtain rfl := (Prod.mk.inj (Except.ok.inj taken)).2
      intro k
      by_cases same : k = id
      · apply attends_of_inFlight
        obtain ⟨bound, -⟩ := List.getElem?_eq_some_iff.1 found
        exact .inl ⟨_, List.mem_set bound _, same.symm⟩
      · refine (attended k).congr ((SubRegistry.get_set held _ k).trans (if_neg same))
          (Or.imp_left fun ⟨task, member, mine⟩ => ⟨task, ?_, mine⟩) fun named => named
        exact (other_task found member (mine ▸ same)).2 _
  · cases taken

theorem attended_wrote {t : Nat} {failed : Option Nat} {reply : Reply} (attended : s.Attended flushers)
    (taken : s.wrote t failed = .ok (reply, s')) : s'.Attended flushers := by
  unfold wrote at taken
  split at taken
  next id cw found =>
    have others : ∀ k, k ≠ id → s.InFlight k → (∃ task ∈ s.tasks.eraseIdx t, task.id = k) ∨ ∃ c cw, s.conns c = .sending k cw := by
      intro k differ
      exact Or.imp_left fun ⟨task, member, mine⟩ => ⟨task, (other_task found member (mine ▸ differ)).1, mine⟩
    dsimp only at taken
    split at taken
    · obtain rfl := (Prod.mk.inj (Except.ok.inj taken)).2
      intro k
      by_cases same : k = id
      · exact same ▸ attends_cancel (s := s) (ascii "write error") _ rfl rfl
      · exact (attended k).congr (get_modify_other same) (others k same) fun named => named
    · obtain rfl := (Prod.mk.inj (Except.ok.inj taken)).2
      intro k
      by_cases same : k = id
      · exact same ▸ attends_release _ rfl rfl
      · refine (attended k).congr (get_release _ same) (fun flies => ?_) fun named => named
        rcases others k same flies with ⟨task, member, mine⟩ | ⟨c, cw', sending⟩
        · exact .inl ⟨task, tasks_release _ task member, mine⟩
        · exact .inr ⟨c, cw', by rw [conns_release]; exact sending⟩
  · cases taken

/-- `trigger_write` attends to the subscriber, whoever else was to flush it. -/
theorem attended_triggerWrite (attended : s.Attended fun k => flushers k ∨ k = id) : (s.triggerWrite id).Attended flushers := by
  unfold triggerWrite
  have settles : ∀ {s' : Runtime}, (∀ k, k ≠ id → s'.registry.get k = s.registry.get k) → (∀ k, s.InFlight k → s'.InFlight k) →
      s'.Attends flushers id → s'.Attended flushers := by
    intro s' get stays mine k
    by_cases same : k = id
    · exact same ▸ mine
    · exact (attended k).congr (get k same) (stays k) fun named => named.resolve_right same
  split
  next absent => exact settles (fun _ _ => rfl) (fun _ flies => flies) (attends_of_absent absent)
  next conn held =>
    split
    next out =>
      apply settles (fun _ _ => rfl) (fun _ flies => flies)
      intro conn' held' alive
      obtain rfl := Option.some.inj (held.symm.trans held')
      have flies := (attended id conn held alive).1 out
      exact ⟨fun _ => flies, fun _ => .inl flies⟩
    next cw conn' _ =>
      apply settles
      · exact fun k other => (SubRegistry.get_set held _ k).trans (if_neg other)
      · exact fun k => Or.imp_left fun ⟨task, member, mine⟩ => ⟨task, List.mem_append_left _ member, mine⟩
      · exact attends_of_inFlight (.inl ⟨_, List.mem_append_right _ List.mem_cons_self, rfl⟩)

theorem attended_triggerWrites (ids : List SubId) : ∀ {s : Runtime}, (s.Attended fun k => flushers k ∨ k ∈ ids) →
    (ids.foldl triggerWrite s).Attended flushers := by
  induction ids with
  | nil =>
    intro s attended k
    exact (attended k).congr rfl (fun flies => flies) fun named => named.resolve_right List.not_mem_nil
  | cons id rest ih =>
    intro s attended
    apply ih
    apply attended_triggerWrite
    intro k
    refine (attended k).congr rfl (fun flies => flies) fun named => ?_
    rcases named with named | member
    · exact .inl (.inl named)
    · rcases List.mem_cons.1 member with here | later
      · exact .inr here
      · exact .inl (.inr later)

/-- Only the number of channels has changed. -/
theorem Attends.core (attends : s.Attends flushers id)
    (core : (s'.registry.get id).map Conn.core = (s.registry.get id).map Conn.core) (stays : s.InFlight id → s'.InFlight id) :
    s'.Attends flushers id := by
  intro conn held alive
  rw [held] at core
  obtain ⟨old, before, same⟩ := Option.map_eq_some_iff.1 core.symm
  simp only [Conn.core, Conn.mk.injEq] at same
  obtain ⟨write, cancelation, buffer, spare, -⟩ := same
  obtain ⟨out, pending⟩ := attends old before (by rw [cancelation]; exact alive)
  refine ⟨fun none' => stays (out ?_), fun nonempty => (pending ?_).imp_left stays⟩
  · exact (getConnWriter_none_congr conn old write spare).2 none'
  · rw [buffer]
    exact nonempty

theorem attended_subscribe {state state' : ConnState} {channel : SharedByte} {registry : SubRegistry} {n : Nat} (leased : s.Leased)
    (before : s.conns c = .idle state) (attended : s.Attended flushers)
    (taken : s.registry.subscribe state channel = .ok (registry, state', n)) :
    (setConn { s with registry := registry } c (.idle state')).Attended fun id =>
      flushers id ∨ ((setConn { s with registry := registry } c (.idle state')).conns c).key = some id := by
  have idle : ∀ id cw, s.conns c ≠ .sending id cw := fun id cw sending => by rw [before] at sending; cases sending
  have stays : ∀ k, s.InFlight k → (setConn { s with registry := registry } c (.idle state')).InFlight k := fun k =>
    inFlight_setConn (s := { s with registry := registry }) idle
  cases state with
  | blocking | none => cases taken
  | normal write buf =>
    obtain ⟨registry', id, n', outcome, -, -, -, get⟩ := SubRegistry.subscribe_first leased.free write buf channel
    rw [outcome] at taken
    obtain ⟨rfl, rfl, -⟩ : registry' = registry ∧ ConnState.pubSub id = state' ∧ n' = n := by
      simpa using Except.ok.inj taken
    intro k
    by_cases same : k = id
    · intro conn held _
      have new := get k
      rw [if_pos same] at new
      obtain rfl := Option.some.inj (new.symm.trans held)
      refine ⟨fun none' => ?_, fun _ => .inr (.inr ?_)⟩
      · cases none'
      · rw [conns_setConn, if_pos rfl, same]
        rfl
    · exact (attended k).congr ((get k).trans (if_neg same)) (stays k) .inl
  | pubSub id =>
    obtain ⟨registry', n', outcome, -, cores⟩ := SubRegistry.subscribe_pubSub leased.free id channel
    rw [outcome] at taken
    obtain ⟨rfl, rfl, -⟩ : registry' = registry ∧ ConnState.pubSub id = state' ∧ n' = n := by
      simpa using Except.ok.inj taken
    intro k
    exact ((attended k).congr rfl (fun flies => flies) .inl).core (cores k) (stays k)

theorem attended_unsubscribe {channels : List SharedByte} {frames : List SharedFrame} {registry : SubRegistry}
    {state : ConnState} (leased : s.Leased) (order : ChannelOrder) (before : s.conns c = .idle (.pubSub id))
    (attended : s.Attended flushers) (outcome : s.registry.unsubscribe order (.pubSub id) channels = (frames, registry, state)) :
    (setConn { s with registry := registry } c (.idle state)).Attended flushers := by
  have idle : ∀ id cw, s.conns c ≠ .sending id cw := fun id cw sending => by rw [before] at sending; cases sending
  have stays : ∀ k, s.InFlight k → (setConn { s with registry := registry } c (.idle state)).InFlight k := fun k =>
    inFlight_setConn (s := { s with registry := registry }) idle
  obtain ⟨frames', registry', state', outcome', cases⟩ := SubRegistry.unsubscribe_pubSub leased.free order id channels
  obtain ⟨-, rfl, rfl⟩ : frames' = frames ∧ registry' = registry ∧ state' = state := by
    simpa using outcome'.symm.trans outcome
  intro k
  rcases cases with ⟨-, -, cores⟩ | ⟨conn, write, -, -, -, -, cores⟩
  · exact (attended k).core (cores k) (stays k)
  · have core := cores k
    split at core
    · exact attends_of_absent (Option.map_eq_none_iff.1 core)
    · exact (attended k).core core (stays k)

theorem attended_publishEncode {args : List SharedByte} {registry : SubRegistry} {response : SharedFrame} {toFlush : List SubId}
    (leased : s.Leased) (attended : s.Attended flushers)
    (taken : s.registry.publishEncode args = .ok ((response, toFlush), registry)) :
    Attended (fun id => flushers id ∨ id ∈ toFlush) { s with registry := registry } := by
  have unchanged : ∀ ids : List SubId, s.Attended fun id => flushers id ∨ id ∈ ids := fun ids k =>
    (attended k).congr rfl (fun flies => flies) .inl
  obtain ⟨rfl, rfl, -⟩ | ⟨-, -, -, encoded, subs, -, -, -, appended⟩ := SubRegistry.publishEncode_cases taken
  · exact unchanged []
  · obtain ⟨rfl, rfl⟩ := Prod.mk.inj appended
    obtain ⟨-, get⟩ := SubRegistry.appendAll_ok encoded subs leased.free
    intro k conn held alive
    have after := (get k).symm.trans held
    obtain ⟨old, before, same⟩ := Option.map_eq_some_iff.1 after
    obtain ⟨out, pending⟩ := attended k old before (by rw [← same] at alive; exact alive)
    have writer := getConnWriter_none_congr old conn (by rw [← same]) (by rw [← same])
    refine ⟨fun none' => out (writer.1 none'), fun nonempty => ?_⟩
    by_cases member : k ∈ subs
    · exact .inr (.inr (SubRegistry.mem_appendAll encoded member (Option.isSome_iff_exists.2 ⟨old, before⟩)))
    · rw [← same, List.count_eq_zero_of_not_mem member] at nonempty
      exact (pending (by simpa using nonempty)).imp_right .inl

end Runtime

/-! ## The steps of the connections -/

/-- The subscribers that the command under way has to flush after its reply. -/
def Session.toFlush : Session → List SubId
  | .command (.flushing ids) => ids
  | _ => []

/-- In the middle of a command. -/
def Session.Busy : Session → Prop
  | .running | .command _ => True
  | _ => False

namespace System

def Flushes (s : System) (id : SubId) : Prop := ∃ c, id ∈ (s.sessions c).toFlush

def Tended (s : System) : Prop := s.runtime.Attended s.Flushes

variable {s s' : System} {c : Nat}

/-- Whom the others have to flush, when the connection itself has nobody. -/
theorem flushes_setSession {runtime : Runtime} {session : Session} (idle : (s.sessions c).toFlush = []) {id : SubId}
    (flushes : s.Flushes id ∨ id ∈ session.toFlush) : (setSession { s with runtime := runtime } c session).Flushes id := by
  rcases flushes with ⟨d, member⟩ | mine
  · have other : d ≠ c := by
      intro same
      rw [same, idle] at member
      cases member
    exact ⟨d, by rw [(acts_setSession _ c session d other).1]; exact member⟩
  · exact ⟨c, by rw [sessions_setSession]; exact mine⟩

theorem tended_setSession {runtime : Runtime} {session : Session} (idle : (s.sessions c).toFlush = [])
    (attended : runtime.Attended s.Flushes) : (setSession { s with runtime := runtime } c session).Tended :=
  attended.mono fun _ flushes => flushes_setSession idle (.inl flushes)

theorem tended_sendThen {runtime : Runtime} {frame : SharedFrame} {rest : Rest} (leased : runtime.Leased)
    (idle : (s.sessions c).toFlush = []) (attended : runtime.Attended fun id =>
      (s.Flushes id ∨ id ∈ (Session.command rest).toFlush) ∨ (runtime.conns c).key = some id)
    (taken : sendThen { s with runtime := runtime } c frame rest = .ok s') : s'.Tended := by
  simp only [sendThen, bind, Except.bind] at taken
  cases sending : runtime.send c frame with
  | error => rw [sending] at taken; cases taken
  | ok p =>
    obtain ⟨reply, runtime'⟩ := p
    obtain ⟨rfl, -⟩ := Runtime.keeps_send leased sending
    rw [sending] at taken
    obtain rfl := Except.ok.inj taken
    have after := Runtime.attended_send leased attended sending
    exact after.mono fun _ flushes => flushes_setSession idle flushes

/-- A plain reply. -/
theorem tended_reply {frame : SharedFrame} {rest : Rest} (leased : s.runtime.Leased) (idle : (s.sessions c).toFlush = [])
    (tended : s.Tended) (taken : s.sendThen c frame rest = .ok s') : s'.Tended :=
  tended_sendThen leased idle (tended.mono fun _ flushes => .inl (.inl flushes)) taken

theorem tended_close (leased : s.runtime.Leased) (idle : (s.sessions c).toFlush = []) (tended : s.Tended)
    (taken : s.close c = .ok s') : s'.Tended := by
  unfold close at taken
  dsimp only at taken
  split at taken
  next id before =>
    obtain rfl := Except.ok.inj taken
    have quiet : ∀ id cw, s.runtime.conns c ≠ .sending id cw := fun id cw sending => by rw [before] at sending; cases sending
    have mine : (s.runtime.conns c).key = some id := by rw [before]; rfl
    obtain ⟨conn, held⟩ := Option.isSome_iff_exists.1 (leased.held mine)
    obtain ⟨-, -, get⟩ := GenArena.remove_ok leased.free held
    apply tended_setSession idle
    intro k
    by_cases same : k = id
    · exact Runtime.attends_of_absent ((get k).trans (if_pos same))
    · exact (tended k).congr ((get k).trans (if_neg same))
        (Runtime.inFlight_setConn (s := { s.runtime with registry := _ }) quiet) fun named => named
  · cases taken
  next write buf before =>
    obtain rfl := Except.ok.inj taken
    apply tended_setSession idle
    intro k
    refine (tended k).congr rfl (Runtime.inFlight_setConn fun id cw sending => ?_) fun named => named
    rw [before] at sending
    cases sending
  · obtain rfl := Except.ok.inj taken
    exact tended_setSession idle tended
  · cases taken

theorem tended_startRead (idle : (s.sessions c).toFlush = []) (tended : s.Tended) (taken : s.startRead c = .ok s') :
    s'.Tended := by
  unfold startRead at taken
  split at taken
  · obtain rfl := Except.ok.inj taken
    exact tended_setSession idle tended
  · split at taken
    · cases taken
    · obtain rfl := Except.ok.inj taken
      exact tended_setSession idle tended
  · cases taken
  · cases taken
  · cases taken

theorem tended_dispatch {cmd : SharedByte} {args : List SharedByte} (leased : s.runtime.Leased) (order : ChannelOrder)
    (idle : (s.sessions c).toFlush = []) (tended : s.Tended) (taken : s.dispatch order c cmd args = .ok s') : s'.Tended := by
  unfold dispatch at taken
  split at taken
  next id before =>
    split at taken
    · obtain rfl := Except.ok.inj taken
      exact tended_setSession idle tended
    · obtain ⟨⟨frames, registry, state⟩, outcome⟩ : ∃ p, s.runtime.registry.unsubscribe order (.pubSub id) args = p := ⟨_, rfl⟩
      rw [outcome] at taken
      obtain rfl := Except.ok.inj taken
      exact tended_setSession idle (Runtime.attended_unsubscribe leased order before tended outcome)
    · exact tended_reply leased idle tended taken
    · exact tended_reply leased idle tended taken
    · exact tended_reply leased idle tended taken
  next write buf before =>
    split at taken
    · obtain rfl := Except.ok.inj taken
      exact tended_setSession idle tended
    · obtain ⟨⟨⟨response, toFlush⟩, registry⟩, published, sent⟩ := Outcomes.exists_of_bind taken
      have keeps := Runtime.keeps_publishEncode leased.free published
      have attended := Runtime.attended_publishEncode leased tended published
      exact tended_sendThen (keeps.leased leased) idle (attended.mono fun _ => .inl) sent
    · exact tended_reply leased idle tended taken
    · exact tended_reply leased idle tended taken
    · cases taken
    · obtain rfl := Except.ok.inj taken
      exact tended_setSession idle tended
    · exact tended_reply leased idle tended taken
  · obtain rfl := Except.ok.inj taken
    exact tended_setSession idle tended
  · cases taken

theorem tended_handleBuffer {outcome : Decoded} (leased : s.runtime.Leased) (order : ChannelOrder)
    (idle : (s.sessions c).toFlush = []) (tended : s.Tended) (taken : s.handleBuffer order c outcome = .ok s') : s'.Tended := by
  cases outcome with
  | incomplete => exact tended_startRead idle tended taken
  | error e => exact tended_reply leased idle tended taken
  | frame f =>
    simp only [handleBuffer] at taken
    split at taken
    · exact tended_reply leased idle tended taken
    · exact tended_dispatch leased order idle tended taken

theorem tended_subscribeNext {state : ConnState} {channel : SharedByte} {rest : List SharedByte} (leased : s.runtime.Leased)
    (idle : (s.sessions c).toFlush = []) (before : s.runtime.conns c = .idle state) (tended : s.Tended)
    (taken : s.subscribeNext c state channel rest = .ok s') : s'.Tended := by
  obtain ⟨⟨registry, state', n⟩, joined, sent⟩ := Outcomes.exists_of_bind taken
  obtain ⟨free, -, move⟩ := Runtime.subscribe_move leased before joined
  have attended := Runtime.attended_subscribe leased before tended joined
  exact tended_sendThen ⟨free, leased.sound.move move⟩ idle (attended.mono fun _ => Or.imp_left .inl) sent

theorem tended_proceed (leased : s.runtime.Leased) (tended : s.Tended) (taken : s.proceed c = .ok s') : s'.Tended := by
  unfold proceed at taken
  split at taken
  next rest state here before =>
    split at taken
    · obtain rfl := Except.ok.inj taken
      exact tended_setSession (by rw [here]; rfl) tended
    · obtain rfl := Except.ok.inj taken
      exact tended_setSession (by rw [here]; rfl) tended
    · obtain rfl := Except.ok.inj taken
      exact tended_setSession (by rw [here]; rfl) tended
    · exact tended_subscribeNext leased (by rw [here]; rfl) before tended taken
    · exact tended_reply leased (by rw [here]; rfl) tended taken
    next toFlush =>
      obtain rfl := Except.ok.inj taken
      apply Runtime.attended_triggerWrites toFlush
      refine tended.mono fun id ⟨d, member⟩ => ?_
      by_cases same : d = c
      · rw [same, here] at member
        exact .inr member
      · exact .inl ⟨d, by rw [(acts_setSession _ c _ d same).1]; exact member⟩
    · exact tended_close leased (by rw [here]; rfl) tended taken
    · exact tended_startRead (by rw [here]; rfl) tended taken
  · cases taken

/-- A publisher that cannot write its reply leaves only subscribers behind that have nothing to be flushed, or whose writer is
in flight. -/
def Relays (s : System) : Event → Prop
  | .sent c failed => failed.isSome → ∀ id ∈ (s.sessions c).toFlush, ∀ conn ∈ s.runtime.registry.get id,
      conn.write = none ∨ conn.ioBuffer = []
  | _ => True

instance (s : System) : (e : Event) → Decidable (s.Relays e)
  | .sent _ _ => inferInstanceAs (Decidable (_ → _))
  | .decoded _ _ | .arrived _ | .closed _ | .canceled _ | .handled _ _ | .proceed _ | .poll _ | .wrote _ _ =>
    inferInstanceAs (Decidable True)

theorem tended_sent {failed : Option Nat} (leased : s.runtime.Leased) (relays : s.Relays (.sent c failed)) (tended : s.Tended)
    (taken : s.sent c failed = .ok s') : s'.Tended := by
  obtain ⟨rest, reply, runtime, -, ended, outcome⟩ := sent_cases leased taken
  obtain ⟨rfl, -⟩ | ⟨rfl, fails, -⟩ := outcome
  · exact Runtime.attended_sent tended ended
  · -- Nobody needs the connection that gives up to flush it.
    have others : s.runtime.Attended fun id => ∃ d, d ≠ c ∧ id ∈ (s.sessions d).toFlush := by
      intro id conn held alive
      obtain ⟨out, pending⟩ := tended id conn held alive
      refine ⟨out, fun nonempty => ?_⟩
      rcases pending nonempty with flies | ⟨d, member⟩
      · exact .inl flies
      · by_cases same : d = c
        · rcases relays fails id (same ▸ member) conn held with none' | empty
          · exact .inl (out (Runtime.getConnWriter_eq_none none'))
          · exact absurd empty nonempty
        · exact .inr ⟨d, same, member⟩
    have after := Runtime.attended_sent others ended
    exact after.mono fun id ⟨d, other, member⟩ => ⟨d, by rw [(acts_setSession _ c _ d other).1]; exact member⟩

theorem tended_next {e : Event} (leased : s.runtime.Leased) (order : ChannelOrder) (relays : s.Relays e) (tended : s.Tended)
    (taken : s.next order e = .ok s') : s'.Tended := by
  cases e with
  | arrived c =>
    simp only [next] at taken
    split at taken
    next here =>
      obtain rfl := Except.ok.inj taken
      exact tended_setSession (by rw [here]; rfl) tended
    next => cases taken
  | closed c =>
    simp only [next] at taken
    split at taken
    next here => exact tended_close leased (by rw [here]; rfl) tended taken
    next => cases taken
  | canceled c =>
    simp only [next] at taken
    split at taken
    next here _ => exact tended_close leased (by rw [here]; rfl) tended taken
    next => cases taken
  | decoded c outcome =>
    simp only [next] at taken
    split at taken
    next here => exact tended_handleBuffer leased order (by rw [here]; rfl) tended taken
    next => cases taken
  | handled c response =>
    simp only [next] at taken
    split at taken
    next here => exact tended_reply leased (by rw [here]; rfl) tended taken
    next => cases taken
  | proceed c => exact tended_proceed leased tended taken
  | sent c failed => exact tended_sent leased relays tended taken
  | poll t =>
    obtain ⟨p, polled, done⟩ := Outcomes.exists_of_bind taken
    obtain rfl := Except.ok.inj done
    exact Runtime.attended_poll tended polled
  | wrote t failed =>
    obtain ⟨p, wrote, done⟩ := Outcomes.exists_of_bind taken
    obtain rfl := Except.ok.inj done
    exact Runtime.attended_wrote tended wrote

/-- A live subscriber that no writer is in flight for, in a server where nobody is in the middle of a command, has nothing
in its buffer. -/
def StrandsNothing (s : System) : Prop :=
  (∀ d, ¬ (s.sessions d).Busy) → ∀ c id conn, s.Holds c id → s.runtime.registry.get id = some conn →
    conn.cancelation.isCanceled = false → ¬ s.runtime.InFlight id → conn.ioBuffer = []

theorem run_strands_nothing (order : ChannelOrder) (events : List Event) (replies : List Unit) (s : System)
    (relays : Meets (step order) Relays events new) (ran : run (step order) events new = .ok (replies, s)) :
    s.StrandsNothing := by
  obtain ⟨-, -, tended⟩ : s.runtime.Leased ∧ s.Modes True ∧ s.Tended := by
    apply (Reaches.run .refl relays ran).invariant
    · exact ⟨leased_new, modes_new, fun id => Runtime.attends_of_absent (SubRegistry.get_new id)⟩
    · intro s s' e reply ⟨leased, modes, tended⟩ relays taken
      have advances := advances_next leased modes order (.inl trivial) (next_of_step taken)
      refine ⟨⟨advances.free, ?_⟩, advances.modes, tended_next leased order relays tended (next_of_step taken)⟩
      rcases advances.ledger with move | ⟨-, c, forgets⟩
      · exact leased.sound.move move
      · exact leased.sound.forgets forgets
  intro quiet c id conn _ held alive grounded
  by_contra nonempty
  rcases (tended id conn held alive).2 nonempty with flies | ⟨d, member⟩
  · exact grounded flies
  · apply quiet d
    unfold Session.toFlush at member
    split at member
    next ids busy =>
      rw [busy]
      trivial
    next => cases member

/-- A subscriber gets two messages, and the second publisher fails while the first message is being written. -/
def relayed : List Event :=
  [.arrived 0, .decoded 0 (request ["SUBSCRIBE", "a"]), .proceed 0, .sent 0 none, .proceed 0, .decoded 0 .incomplete,
    .arrived 1, .decoded 1 (request ["PUBLISH", "a", "hi"]), .sent 1 none, .proceed 1, .decoded 1 .incomplete, .poll 0,
    .arrived 2, .decoded 2 (request ["PUBLISH", "a", "ho"]), .sent 2 (some 0), .wrote 0 none, .poll 0, .wrote 0 none]

theorem run_strands_nothing_relayed : ∃ replies s, run (step .stored) relayed new = .ok (replies, s) ∧ s.StrandsNothing := by
  have ends : (run (step .stored) relayed new).isOk = true := by decide +kernel
  cases ran : run (step .stored) relayed new with
  | error => rw [ran] at ends; cases ends
  | ok p => exact ⟨p.1, p.2, rfl, run_strands_nothing .stored relayed p.1 p.2 (by decide +kernel) ran⟩

/-- A subscriber, and a publisher whose reply cannot be written. -/
def stranded : List Event :=
  [.arrived 0, .decoded 0 (request ["SUBSCRIBE", "a"]), .proceed 0, .sent 0 none, .proceed 0, .decoded 0 .incomplete,
    .arrived 1, .decoded 1 (request ["PUBLISH", "a", "hi"]), .sent 1 (some 0)]

theorem stranded_message : ¬ ∀ order events replies s, run (step order) events new = .ok (replies, s) → s.StrandsNothing := by
  intro strandsNothing
  have facts : (run (step .stored) stranded new).toOption.map (fun p => (p.2.runtime.tasks.length,
      (p.2.runtime.registry.get ⟨0, 0⟩).map fun conn => (conn.ioBuffer.isEmpty, conn.cancelation.isCanceled))) =
      some (0, some (false, false)) := by decide +kernel
  have places : ∀ d, (run (step .stored) stranded new).toOption.map (fun p => (p.2.sessions d, p.2.runtime.conns d)) =
      some (match d with
        | 0 => (.reading, .idle (.pubSub ⟨0, 0⟩))
        | 1 => (.returned, .idle .none)
        | d + 2 => (.reading, .idle (.normal (d + 2) []))) := by
    intro d
    match d with
    | 0 | 1 | d + 2 => rfl
  cases ran : run (step .stored) stranded new with
  | error => rw [ran] at facts; cases facts
  | ok p =>
    rw [ran] at facts
    obtain ⟨idle, there⟩ := Prod.mk.inj (Option.some.inj facts)
    obtain ⟨conn, held, contents⟩ := Option.map_eq_some_iff.1 there
    obtain ⟨nonempty, alive⟩ := Prod.mk.inj contents
    have place : ∀ d, (p.2.sessions d, p.2.runtime.conns d) = _ := fun d => Option.some.inj (ran ▸ places d)
    have empty := strandsNothing .stored stranded p.1 p.2 ran ?_ 0 ⟨0, 0⟩ conn ⟨?_, ?_⟩ held alive ?_
    · rw [empty] at nonempty
      cases nonempty
    · intro d busy
      have session := (Prod.mk.inj (place d)).1
      rw [session] at busy
      match d with
      | 0 | 1 | d + 2 => exact busy
    · rw [(Prod.mk.inj (place 0)).1]
      nofun
    · rw [(Prod.mk.inj (place 0)).2]
      rfl
    · rintro (⟨task, member, -⟩ | ⟨d, cw, sending⟩)
      · rw [List.length_eq_zero_iff.1 idle] at member
        cases member
      · rw [(Prod.mk.inj (place d)).2] at sending
        match d with
        | 0 | 1 | d + 2 => cases sending

end System

end Radixox.Server
