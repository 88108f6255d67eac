import Radixox.Lib.Leases
import Radixox.Server.Sessions
import Radixox.Server.Subscriptions

/-!
# Who owns a subscriber id

A connection holds the id of its `Conn` in the arena, in its state or in the
write under way. A closing connection gives it back by its state, so a state that
was lost, by a failed write of a subscriber, or left too early, by an `UNSUBSCRIBE` that
names other channels than its own, leaves a trace in the registry.
-/

namespace Radixox.Server
set_option autoImplicit false

open Radixox.Leases Radixox.Runs Radixox.Topics Resp

namespace Runtime

/-- The ids that connections hold, those in the arena and those in the lists. -/
def ledger (s : Runtime) : Ledger Nat SubId where
  holder c := (s.conns c).key
  present := { id | (s.registry.get id).isSome }
  listed := { id | ∃ channel, id ∈ members s.registry.connMap channel }

structure Leased (s : Runtime) : Prop where
  free : s.registry.connArena.FreeList
  sound : Leases.Sound s.ledger

theorem Leased.held {s : Runtime} {c : Nat} {id : SubId} (leased : s.Leased) (mine : (s.conns c).key = some id) :
    (s.registry.get id).isSome :=
  leased.sound.held c id mine

/-- Nothing that the ledger shows has changed. -/
structure Keeps (s s' : Runtime) : Prop where
  free : s'.registry.connArena.FreeList
  same : s'.ledger = s.ledger

variable {s s' s'' : Runtime} {c : Nat}

theorem Keeps.refl (free : s.registry.connArena.FreeList) : s.Keeps s := ⟨free, rfl⟩

theorem Keeps.trans (first : s.Keeps s') (second : s'.Keeps s'') : s.Keeps s'' := ⟨second.free, second.same.trans first.same⟩

theorem Keeps.leased (keeps : s.Keeps s') (leased : s.Leased) : s'.Leased := ⟨keeps.free, keeps.same ▸ leased.sound⟩

/-- The same lists and the same ids in the arena. -/
theorem keeps_registry {registry : SubRegistry} (free : registry.connArena.FreeList)
    (map : registry.connMap = s.registry.connMap) (present : ∀ k, (registry.get k).isSome = (s.registry.get k).isSome) :
    s.Keeps { s with registry := registry } := by
  refine ⟨free, ?_⟩
  simp only [ledger, map, present]

theorem keeps_set {id : SubId} {conn : Conn} (free : s.registry.connArena.FreeList) (held : s.registry.get id = some conn)
    (conn' : Conn) : s.Keeps { s with registry := s.registry.set id conn' } := by
  apply keeps_registry (SubRegistry.freeList_set free held conn') rfl
  intro k
  rw [SubRegistry.get_set held]
  split
  next same => rw [same, held]; rfl
  next => rfl

theorem keeps_modify (free : s.registry.connArena.FreeList) (id : SubId) (f : Conn → Conn) :
    s.Keeps { s with registry := s.registry.modify id f } := by
  unfold SubRegistry.modify
  split
  next conn held => exact keeps_set free held (f conn)
  next => exact .refl free

/-- The handler moves on with the id it has. -/
theorem keeps_setConn (free : s.registry.connArena.FreeList) {h : Handler} (same : h.key = (s.conns c).key) :
    s.Keeps (s.setConn c h) := by
  refine ⟨free, ?_⟩
  have holders : (fun d => ((s.setConn c h).conns d).key) = fun d => (s.conns d).key := by
    funext d
    rw [conns_setConn]
    split
    next here => rw [here, same]
    next => rfl
  show Ledger.mk (fun d => ((s.setConn c h).conns d).key) _ _ = _
  rw [holders]
  rfl

/-- Sockets and tasks are not in the ledger. -/
theorem keeps_rest (free : s.registry.connArena.FreeList) (tasks : List WriteTask) (sockets : Nat → SharedByte) :
    s.Keeps { s with tasks := tasks, sockets := sockets } :=
  ⟨free, rfl⟩

theorem keeps_triggerWrite (free : s.registry.connArena.FreeList) (id : SubId) : s.Keeps (s.triggerWrite id) := by
  unfold triggerWrite
  split
  · exact .refl free
  next conn held =>
    split
    · exact .refl free
    next cw conn' _ =>
      have kept := keeps_set free held conn'
      exact kept.trans (keeps_rest kept.free _ _)

theorem keeps_triggerWrites (ids : List SubId) : ∀ {s : Runtime}, s.registry.connArena.FreeList →
    s.Keeps (ids.foldl triggerWrite s) := by
  induction ids with
  | nil => exact fun free => .refl free
  | cons id rest ih =>
    intro s free
    have first := keeps_triggerWrite free id
    exact first.trans (ih first.free)

theorem keeps_release (free : s.registry.connArena.FreeList) (id : SubId) (cw : ConnWriter) : s.Keeps (s.release id cw) := by
  unfold release
  split
  · exact .refl free
  next conn held =>
    split
    · exact keeps_set free held _
    · exact keeps_rest free _ _

theorem conns_release (s : Runtime) (id : SubId) (cw : ConnWriter) : (s.release id cw).conns = s.conns := by
  unfold release
  split
  · rfl
  · split <;> rfl

theorem keeps_writeAll (free : s.registry.connArena.FreeList) (cw : ConnWriter) (failed : Option Nat) :
    s.Keeps (s.writeAll cw failed).1 :=
  ⟨free, rfl⟩

theorem keeps_poll {t : Nat} {reply : Reply} (free : s.registry.connArena.FreeList) (taken : s.poll t = .ok (reply, s')) :
    s.Keeps s' := by
  unfold poll at taken
  split at taken
  · split at taken
    · obtain rfl := (Prod.mk.inj (Except.ok.inj taken)).2
      exact keeps_rest free _ _
    next conn held =>
      obtain rfl := (Prod.mk.inj (Except.ok.inj taken)).2
      exact ⟨SubRegistry.freeList_set free held _, (keeps_set free held _).same⟩
  · cases taken

theorem keeps_wrote {t : Nat} {failed : Option Nat} {reply : Reply} (free : s.registry.connArena.FreeList)
    (taken : s.wrote t failed = .ok (reply, s')) : s.Keeps s' := by
  unfold wrote at taken
  split at taken
  next id cw found =>
    have erased := keeps_rest free (s.tasks.eraseIdx t) s.sockets
    have written := erased.trans (keeps_writeAll erased.free cw failed)
    dsimp only at taken
    split at taken
    · obtain rfl := (Prod.mk.inj (Except.ok.inj taken)).2
      exact written.trans (keeps_modify written.free id _)
    · obtain rfl := (Prod.mk.inj (Except.ok.inj taken)).2
      exact written.trans (keeps_release written.free id _)
  · cases taken

/-- A connection that holds an id, if any, in the arena always gets its frame on the way. -/
theorem keeps_send {frame : SharedFrame} {reply : Reply} (leased : s.Leased) (taken : s.send c frame = .ok (reply, s')) :
    reply = .nothing ∧ s.Keeps s' := by
  have free := leased.free
  unfold send at taken
  split at taken
  next write buf before =>
    split at taken
    · cases taken
    · obtain ⟨rfl, rfl⟩ := Prod.mk.inj (Except.ok.inj taken)
      exact ⟨rfl, keeps_setConn free (by rw [before]; rfl)⟩
  next id before =>
    have held : (s.registry.get id).isSome := leased.held (c := c) (by rw [before]; rfl)
    unfold handlePubsubWrite at taken
    split at taken
    next absent =>
      rw [absent] at held
      cases held
    next conn here =>
      split at taken
      · cases taken
      next buf _ =>
        dsimp only at taken
        split at taken
        · obtain ⟨rfl, rfl⟩ := Prod.mk.inj (Except.ok.inj taken)
          exact ⟨rfl, keeps_set free here _⟩
        next cw conn' _ =>
          obtain ⟨rfl, rfl⟩ := Prod.mk.inj (Except.ok.inj taken)
          have kept := keeps_set free here conn'
          have handler : ({ s with registry := s.registry.set id conn' } : Runtime).conns c = .idle (.pubSub id) := before
          exact ⟨rfl, kept.trans (keeps_setConn kept.free (by rw [handler]; rfl))⟩
  · obtain ⟨rfl, rfl⟩ := Prod.mk.inj (Except.ok.inj taken)
    exact ⟨rfl, .refl free⟩
  · cases taken
  · cases taken

theorem keeps_publishEncode {args : List SharedByte} {registry : SubRegistry} {answer : SharedFrame × List SubId}
    (free : s.registry.connArena.FreeList) (taken : s.registry.publishEncode args = .ok (answer, registry)) :
    s.Keeps { s with registry := registry } := by
  obtain ⟨-, rfl, -⟩ | ⟨-, -, -, encoded, subs, -, -, -, appended⟩ := SubRegistry.publishEncode_cases taken
  · exact .refl free
  · obtain rfl := (Prod.mk.inj appended).2
    obtain ⟨free', get'⟩ := SubRegistry.appendAll_ok encoded subs free
    apply keeps_registry free' (SubRegistry.connMap_appendAll encoded subs)
    intro k
    rw [get' k, Option.isSome_map]

/-! ## Steps that change who holds what -/

/-- The handler of one connection, and the holders that follow. -/
theorem holder_setConn (registry : SubRegistry) (h : Handler) :
    (setConn { s with registry := registry } c h).ledger.holder = Function.update s.ledger.holder c h.key := by
  funext d
  show ((setConn { s with registry := registry } c h).conns d).key = _
  rw [conns_setConn, Function.update_apply]
  split <;> rfl

/-- A failed write of a subscriber, or of another connection, ends without a state. -/
theorem sent_cases {failed : Option Nat} {reply : Reply} (free : s.registry.connArena.FreeList)
    (taken : s.sent c failed = .ok (reply, s')) :
    failed = none ∧ reply = .nothing ∧ s.Keeps s' ∨
      failed.isSome ∧ reply = .writeError ∧ s'.conns c = .idle .none ∧
        (s.Keeps s' ∨ (∃ id cw, s.conns c = .sending id cw) ∧ s'.registry.connArena.FreeList ∧ Forgets c s.ledger s'.ledger) := by
  have self : ∀ (r : Runtime) (h : Handler), (r.setConn c h).conns c = h := fun r h => Function.update_self ..
  unfold sent at taken
  split at taken
  next cw before =>
    have written := keeps_writeAll free cw failed
    dsimp only at taken
    split at taken
    next fails =>
      obtain ⟨rfl, rfl⟩ := Prod.mk.inj (Except.ok.inj taken)
      refine .inr ⟨fails, rfl, self _ _, .inl (written.trans (keeps_setConn written.free ?_))⟩
      show none = (s.conns c).key
      rw [before]
      rfl
    next succeeds =>
      obtain ⟨rfl, rfl⟩ := Prod.mk.inj (Except.ok.inj taken)
      refine .inl ⟨by simpa using succeeds, rfl, written.trans (keeps_setConn written.free ?_)⟩
      show none = (s.conns c).key
      rw [before]
      rfl
  next id cw before =>
    have written := keeps_writeAll free cw failed
    dsimp only at taken
    split at taken
    next fails =>
      obtain ⟨rfl, rfl⟩ := Prod.mk.inj (Except.ok.inj taken)
      have marked := written.trans (keeps_modify written.free id (·.cancel (ascii "write error")))
      refine .inr ⟨fails, rfl, self _ _, .inr ⟨⟨id, cw, before⟩, marked.free, holder_setConn .., fun k present _ => ?_⟩⟩
      exact (congrArg (k ∈ ·.present) marked.same).mpr present
    next succeeds =>
      obtain ⟨rfl, rfl⟩ := Prod.mk.inj (Except.ok.inj taken)
      have released := written.trans (keeps_release written.free id (s.writeAll cw failed).2)
      refine .inl ⟨by simpa using succeeds, rfl, released.trans (keeps_setConn released.free ?_)⟩
      have holders := congrFun (congrArg Ledger.holder released.same) c
      show some id = _
      refine .trans ?_ holders.symm
      show some id = (s.conns c).key
      rw [before]
      rfl
  · cases taken

/-- A channel more makes a connection a holder, or leaves it one. -/
theorem subscribe_move {state state' : ConnState} {channel : SharedByte} {registry : SubRegistry} {n : Nat} (leased : s.Leased)
    (before : s.conns c = .idle state) (taken : s.registry.subscribe state channel = .ok (registry, state', n)) :
    registry.connArena.FreeList ∧ (∃ id, state' = .pubSub id) ∧
      Move s.ledger (setConn { s with registry := registry } c (.idle state')).ledger := by
  have holders := holder_setConn (s := s) (c := c) registry (.idle state')
  have lists : ∀ id, registry.connMap = enrol s.registry.connMap channel id →
      ∀ k ∈ (setConn { s with registry := registry } c (.idle state')).ledger.listed, k ∈ s.ledger.listed ∨ k = id := by
    intro id map k ⟨channel', listed⟩
    have listed' : k ∈ members registry.connMap channel' := listed
    rw [map, members_enrol] at listed'
    split at listed'
    · rcases List.mem_append.1 listed' with old | new
      · exact .inl ⟨channel', old⟩
      · exact .inr (List.mem_singleton.1 new)
    · exact .inl ⟨channel', listed'⟩
  cases state with
  | blocking | none => cases taken
  | normal write buf =>
    obtain ⟨registry', id, n', outcome, free, map, absent, get⟩ := SubRegistry.subscribe_first leased.free write buf channel
    rw [outcome] at taken
    obtain ⟨rfl, rfl, -⟩ : registry' = registry ∧ ConnState.pubSub id = state' ∧ n' = n := by
      simpa using Except.ok.inj taken
    refine ⟨free, ⟨id, rfl⟩, .take c id ?_ ?_ holders ?_ (lists id map)⟩
    · show (s.conns c).key = none
      rw [before]
      rfl
    · show ¬ (s.registry.get id).isSome
      simp [absent]
    · ext k
      show (registry'.get k).isSome ↔ k = id ∨ (s.registry.get k).isSome
      rw [get k]
      split <;> simp [*]
  | pubSub id =>
    have mine : (s.conns c).key = some id := by rw [before]; rfl
    obtain ⟨conn, held⟩ := Option.isSome_iff_exists.1 (leased.held mine)
    obtain ⟨registry', n', outcome, free, map, get⟩ := SubRegistry.subscribe_again leased.free held channel
    rw [outcome] at taken
    obtain ⟨rfl, rfl, -⟩ : registry' = registry ∧ ConnState.pubSub id = state' ∧ n' = n := by
      simpa using Except.ok.inj taken
    refine ⟨free, ⟨id, rfl⟩, .keep ?_ ?_ fun k listed => ?_⟩
    · rw [holders]
      exact Function.update_eq_self_iff.2 mine.symm
    · ext k
      show (registry'.get k).isSome ↔ (s.registry.get k).isSome
      rw [get k]
      split
      next same => simp [same, held]
      next => rfl
    · rcases lists id map k listed with old | rfl
      · exact .inl old
      · exact .inr ⟨c, mine⟩

end Runtime

/-! ## Leaving channels -/

namespace SubRegistry

variable {reg : SubRegistry}

theorem connMap_removeChannels (id : SubId) (channels : List SharedByte) : ∀ reg : SubRegistry,
    (channels.foldl (removeChannel id) reg).connMap = channels.foldl (fun m channel => withdraw m channel id) reg.connMap := by
  induction channels with
  | nil => exact fun _ => rfl
  | cons channel rest ih =>
    intro reg
    rw [List.foldl_cons, List.foldl_cons, ih, connMap_removeChannel]

/-- Each channel named is one channel less, listed or not. -/
theorem channelCount_removeChannels (id : SubId) (channels : List SharedByte) : ∀ {reg : SubRegistry} {conn : Conn},
    reg.get id = some conn → ((channels.foldl (removeChannel id) reg).get id).map Conn.channelCount =
      some (conn.channelCount - channels.length) := by
  induction channels with
  | nil =>
    intro reg conn held
    rw [List.foldl_nil, held]
    rfl
  | cons channel rest ih =>
    intro reg conn held
    have here : (removeChannel id reg channel).get id = some { conn with channelCount := conn.channelCount - 1 } := by
      rw [removeChannel, get_modify _ held, if_pos rfl]
    rw [List.foldl_cons, ih here]
    congr 1
    show conn.channelCount - 1 - rest.length = conn.channelCount - (rest.length + 1)
    omega

/-- If the channels use up the count of a connection whose write half is free, they are all of its channels. -/
def Suits (reg : SubRegistry) (id : SubId) (channels : List SharedByte) : Prop :=
  channels ≠ [] → ∀ conn ∈ reg.get id, conn.channelCount ≤ channels.length → conn.write.isSome →
    ∀ channel ∈ topicsOf reg.connMap id, channel ∈ channels

instance (reg : SubRegistry) (id : SubId) (channels : List SharedByte) : Decidable (reg.Suits id channels) :=
  inferInstanceAs (Decidable (_ → _))

theorem members_removeChannels (id : SubId) (channels : List SharedByte) (reg : SubRegistry) (channel : SharedByte) (k : SubId) :
    k ∈ members (channels.foldl (removeChannel id) reg).connMap channel ↔
      k ∈ members reg.connMap channel ∧ (channel ∈ channels → k ≠ id) := by
  rw [connMap_removeChannels, members_withdraws]
  split
  next named => simp [named]
  next other => simp [other]

/-- Channels that suit a connection are all it is in when it goes back to the normal state. -/
theorem unlisted_of_suits {id : SubId} {conn conn' : Conn} {channels : List SharedByte} (order : ChannelOrder)
    (free : reg.connArena.FreeList) (held : reg.get id = some conn)
    (after : ((leaves order reg id channels).foldl (removeChannel id) reg).get id = some conn') (none' : conn'.channelCount = 0)
    (parked : conn'.write.isSome) (suits : reg.Suits id channels) (channel : SharedByte) :
    id ∉ members ((leaves order reg id channels).foldl (removeChannel id) reg).connMap channel := by
  rw [members_removeChannels]
  rintro ⟨listed, apart⟩
  apply apart ?_ rfl
  unfold leaves
  split
  next => exact (order.enum_perm _).mem_iff.2 (mem_topicsOf.2 listed)
  next some' =>
    have nonempty : channels ≠ [] := by simpa using some'
    have same : leaves order reg id channels = channels := if_neg some'
    rw [same] at after
    have count := channelCount_removeChannels id channels held
    rw [after, Option.map_some, none'] at count
    have core := (recounts_removeChannels id channels free).2 id
    rw [after, held] at core
    simp only [Option.map_some, Option.some.injEq, Conn.core, Conn.mk.injEq] at core
    apply suits nonempty conn held ?_ (core.1 ▸ parked) channel (mem_topicsOf.2 listed)
    have zero := Option.some.inj count
    omega

end SubRegistry

namespace Runtime

variable {s : Runtime} {c : Nat}

/-- Leaving channels gives the id back only with all its channels, or else forgets it. -/
theorem unsubscribe_move {id : SubId} {channels : List SharedByte} {frames : List SharedFrame} {registry : SubRegistry}
    {state : ConnState} (leased : s.Leased) (order : ChannelOrder) (before : s.conns c = .idle (.pubSub id))
    (outcome : s.registry.unsubscribe order (.pubSub id) channels = (frames, registry, state)) :
    registry.connArena.FreeList ∧ (state = .pubSub id ∨ ∃ write buf, state = .normal write buf) ∧
      (Move s.ledger (setConn { s with registry := registry } c (.idle state)).ledger ∨
        ¬ s.registry.Suits id channels ∧ Forgets c s.ledger (setConn { s with registry := registry } c (.idle state)).ledger) := by
  have mine : (s.conns c).key = some id := by rw [before]; rfl
  obtain ⟨conn, held⟩ := Option.isSome_iff_exists.1 (leased.held mine)
  have holders := holder_setConn (s := s) (c := c) registry (.idle state)
  obtain ⟨reg₁, eq₁⟩ : ∃ reg₁, reg₁ = (s.registry.leaves order id channels).foldl (SubRegistry.removeChannel id) s.registry :=
    ⟨_, rfl⟩
  obtain ⟨free₁, cores⟩ := SubRegistry.recounts_removeChannels id (s.registry.leaves order id channels) leased.free
  have lists := SubRegistry.members_removeChannels id (s.registry.leaves order id channels) s.registry
  rw [← eq₁] at free₁ cores lists
  have present : ∀ k, (reg₁.get k).isSome = (s.registry.get k).isSome := by
    intro k
    have same := congrArg Option.isSome (cores k)
    rwa [Option.isSome_map, Option.isSome_map] at same
  obtain ⟨frames', registry', state', outcome', cases⟩ := SubRegistry.unsubscribe_eq order s.registry id channels
  obtain ⟨-, rfl, rfl⟩ : frames' = frames ∧ registry' = registry ∧ state' = state := by
    simpa using outcome'.symm.trans outcome
  rcases cases with ⟨rfl, rfl⟩ | ⟨reg₂, conn', write, rfl, after, none', parked, rfl, rfl⟩
  · rw [← eq₁]
    refine ⟨free₁, .inl rfl, .inl (.keep ?_ ?_ fun k ⟨channel, listed⟩ => .inl ⟨channel, ((lists channel k).1 listed).1⟩)⟩
    · rw [holder_setConn]
      exact Function.update_eq_self_iff.2 mine.symm
    · ext k
      show (reg₁.get k).isSome ↔ (s.registry.get k).isSome
      rw [present k]
  · rw [← eq₁] at after holders ⊢
    obtain ⟨-, free₂, get₂⟩ := GenArena.remove_ok free₁ after
    refine ⟨free₂, .inr ⟨write, conn'.ioBuffer, rfl⟩, ?_⟩
    have table : ∀ k, ((reg₁.connArena.remove id).2.get k).isSome ↔ (s.registry.get k).isSome ∧ k ≠ id := by
      intro k
      rw [get₂ k]
      split
      next same => simp [same]
      next other =>
        show (reg₁.get k).isSome ↔ _
        rw [present k]
        simp [other]
    by_cases suits : s.registry.Suits id channels
    · have unlisted := SubRegistry.unlisted_of_suits order leased.free held (eq₁ ▸ after) none' (by rw [parked]; rfl) suits
      rw [← eq₁] at unlisted
      refine .inl (.drop c id mine holders ?_ ?_)
      · ext k
        exact table k
      · rintro k ⟨channel, listed⟩
        have listed' : k ∈ members reg₁.connMap channel := listed
        exact ⟨⟨channel, ((lists channel k).1 listed').1⟩, fun same => unlisted channel (same ▸ listed')⟩
    · refine .inr ⟨suits, holders, fun k there other => (table k).2 ⟨there, fun same => other ?_⟩⟩
      rw [same]
      exact mine

end Runtime

/-! ## The steps of a connection -/

/-- A state with which a connection can go on. -/
def Handler.Live : Handler → Prop
  | .idle .blocking | .idle .none => False
  | _ => True

/-- The states that fit the place of a connection. `lost` allows the one whose error was ignored. -/
def Session.Allows (lost : Prop) : Session → Handler → Prop
  | .returned, h => h = .idle .none
  | .command .parseError, h => h.Live ∨ lost ∧ h = .idle .none
  | _, h => h.Live

def Session.isReturned : Session → Bool
  | .returned => true
  | _ => false

theorem Session.isReturned_iff {session : Session} : session.isReturned = true ↔ session = .returned := by
  cases session <;> simp [isReturned]

/-- The reply under way is the one whose error is ignored. -/
def Session.ignores : Session → Bool
  | .command .parseError => true
  | _ => false

namespace System

/-- A step of the connection `c` and of nobody else. -/
def Acts (s s' : System) (c : Nat) : Prop :=
  ∀ d, d ≠ c → s'.sessions d = s.sessions d ∧ s'.runtime.conns d = s.runtime.conns d

def Modes (lost : Prop) (s : System) : Prop := ∀ c, (s.sessions c).Allows lost (s.runtime.conns c)

variable {s s' : System} {c : Nat} {lost : Prop}

theorem conns_triggerWrites (ids : List SubId) : ∀ r : Runtime, (ids.foldl Runtime.triggerWrite r).conns = r.conns := by
  induction ids with
  | nil => exact fun _ => rfl
  | cons id rest ih =>
    intro r
    rw [List.foldl_cons, ih]
    unfold Runtime.triggerWrite
    split
    · rfl
    · split <;> rfl

theorem Modes.acts (modes : s.Modes lost) (acts : s.Acts s' c) (mine : (s'.sessions c).Allows lost (s'.runtime.conns c)) :
    s'.Modes lost := by
  intro d
  by_cases same : d = c
  · exact same ▸ mine
  · obtain ⟨session, handler⟩ := acts d same
    rw [session, handler]
    exact modes d

theorem acts_setSession (s : System) (c : Nat) (session : Session) : s.Acts (s.setSession c session) c :=
  fun _ other => ⟨Function.update_of_ne other _ _, rfl⟩

theorem sessions_setSession (s : System) (c : Nat) (session : Session) : (s.setSession c session).sessions c = session :=
  Function.update_self ..

theorem conns_send {r r' : Runtime} {frame : SharedFrame} {reply : Reply} (live : (r.conns c).Live)
    (taken : r.send c frame = .ok (reply, r')) (arrives : reply = .nothing) :
    (r'.conns c).Live ∧ ∀ d, d ≠ c → r'.conns d = r.conns d := by
  have after : ∀ (u : Runtime) (h : Handler), u.conns = r.conns → h.Live →
      ((u.setConn c h).conns c).Live ∧ ∀ d, d ≠ c → (u.setConn c h).conns d = r.conns d := by
    intro u h same live
    refine ⟨?_, fun d other => ?_⟩
    · rw [Runtime.conns_setConn, if_pos rfl]
      exact live
    · rw [Runtime.conns_setConn, if_neg other, same]
  unfold Runtime.send at taken
  split at taken
  · split at taken
    · cases taken
    · obtain ⟨-, rfl⟩ := Prod.mk.inj (Except.ok.inj taken)
      exact after r _ rfl trivial
  next id before =>
    unfold Runtime.handlePubsubWrite at taken
    split at taken
    · obtain ⟨rfl, -⟩ := Prod.mk.inj (Except.ok.inj taken)
      cases arrives
    next conn held =>
      split at taken
      · cases taken
      · dsimp only at taken
        split at taken
        · obtain ⟨-, rfl⟩ := Prod.mk.inj (Except.ok.inj taken)
          exact ⟨live, fun _ _ => rfl⟩
        · obtain ⟨-, rfl⟩ := Prod.mk.inj (Except.ok.inj taken)
          exact after _ _ rfl trivial
  next before =>
    rw [before] at live
    exact live.elim
  · cases taken
  · cases taken

/-- A frame on its way: the connection waits, or is done with it, and nobody holds anything else than before. -/
structure Sends (s s' : System) (c : Nat) (rest : Rest) : Prop where
  keeps : s.runtime.Keeps s'.runtime
  acts : s.Acts s' c
  session : s'.sessions c = .command rest
  live : (s'.runtime.conns c).Live

theorem sends_of_sendThen {frame : SharedFrame} {rest : Rest} (leased : s.runtime.Leased) (live : (s.runtime.conns c).Live)
    (taken : s.sendThen c frame rest = .ok s') : s.Sends s' c rest := by
  simp only [sendThen, bind, Except.bind] at taken
  cases sending : s.runtime.send c frame with
  | error => rw [sending] at taken; cases taken
  | ok p =>
    obtain ⟨reply, runtime⟩ := p
    obtain ⟨rfl, keeps⟩ := Runtime.keeps_send leased sending
    obtain ⟨live', others⟩ := conns_send live sending rfl
    rw [sending] at taken
    obtain rfl := Except.ok.inj taken
    refine ⟨keeps, fun d other => ⟨?_, others d other⟩, sessions_setSession _ c _, live'⟩
    exact (acts_setSession _ c _ d other).1

/-- A connection that returns gives back the id it holds. -/
structure Closes (s s' : System) (c : Nat) : Prop where
  free : s'.runtime.registry.connArena.FreeList
  move : Move s.runtime.ledger s'.runtime.ledger
  acts : s.Acts s' c
  session : s'.sessions c = .returned
  state : s'.runtime.conns c = .idle .none

theorem closes_of_close (leased : s.runtime.Leased) (taken : s.close c = .ok s') : s.Closes s' c := by
  have acts : ∀ r : Runtime, r.conns = s.runtime.conns →
      s.Acts { s.setSession c .returned with runtime := r.setConn c (.idle .none) } c := by
    intro r same d other
    refine ⟨(acts_setSession s c .returned d other).1, ?_⟩
    show (r.setConn c (.idle .none)).conns d = _
    rw [Runtime.conns_setConn, if_neg other, same]
  have self : ∀ r : Runtime, (r.setConn c (.idle .none)).conns c = .idle .none := fun r => Function.update_self ..
  unfold close at taken
  dsimp only at taken
  split at taken
  next id before =>
    obtain rfl := Except.ok.inj taken
    have mine : (s.runtime.conns c).key = some id := by rw [before]; rfl
    obtain ⟨conn, held⟩ := Option.isSome_iff_exists.1 (leased.held mine)
    obtain ⟨-, free, get⟩ := GenArena.remove_ok leased.free held
    refine ⟨free, .drop c id mine (Runtime.holder_setConn ..) ?_ ?_, acts _ rfl, sessions_setSession s c _, self _⟩
    · ext k
      show ((s.runtime.registry.connArena.remove id).2.get k).isSome ↔ (s.runtime.registry.get k).isSome ∧ k ≠ id
      rw [get k]
      split
      next same => simp [same]
      next other => simp only [other, ne_eq, not_false_eq_true, and_true]; rfl
    · rintro k ⟨channel, listed⟩
      have listed' : k ∈ members (s.runtime.registry.cleanup id).connMap channel := listed
      rw [SubRegistry.connMap_cleanup, members_withdraws] at listed'
      split at listed'
      · obtain ⟨before, other⟩ := List.mem_filter.1 listed'
        exact ⟨⟨channel, before⟩, by simpa using other⟩
      next absent =>
        have none' : s.runtime.registry.connMap.lookup channel = none :=
          AList.lookup_eq_none.2 fun there => absent (AList.mem_keys.1 there)
        rw [members, none'] at listed'
        cases listed'
  · cases taken
  next write buf before =>
    obtain rfl := Except.ok.inj taken
    have keeps : s.runtime.Keeps (s.runtime.setConn c (.idle .none)) :=
      Runtime.keeps_setConn leased.free (by rw [before]; rfl)
    refine ⟨keeps.free, ?_, acts _ rfl, sessions_setSession s c _, self _⟩
    show Move _ (s.runtime.setConn c (.idle .none)).ledger
    rw [keeps.same]
    exact .keep rfl rfl fun _ => .inl
  next before =>
    obtain rfl := Except.ok.inj taken
    exact ⟨leased.free, .keep rfl rfl fun _ => .inl, acts_setSession s c .returned, sessions_setSession s c _, before⟩
  · cases taken

/-! ## Every step -/

/-- The id and the channels of an `UNSUBSCRIBE` that a subscriber sends. -/
def leaving (s : System) (c : Nat) (f : BytesFrame) : Option (SubId × List SharedByte) :=
  match s.runtime.conns c, (frameToArgs f).map fun p => (getHandler (toUppercase p.1), p.2) with
  | .idle (.pubSub id), some (some .unsubscribe, args) => some (id, args)
  | _, _ => none

/-- No write of a subscriber's own task fails, and nobody leaves the last of its counted channels but not all it is in. -/
def Tidy (s : System) : Event → Prop
  | .sent c failed => failed.isSome → (s.runtime.conns c).key = none
  | .decoded c (.frame f) => ∀ p ∈ s.leaving c f, s.runtime.registry.Suits p.1 p.2
  | _ => True

instance (s : System) : (e : Event) → Decidable (s.Tidy e)
  | .sent _ _ => inferInstanceAs (Decidable (_ → _))
  | .decoded _ (.frame _) => inferInstanceAs (Decidable (∀ p ∈ _, _))
  | .decoded _ .incomplete | .decoded _ (.error _) | .arrived _ | .closed _ | .canceled _ | .handled _ _ | .proceed _
  | .poll _ | .wrote _ _ => inferInstanceAs (Decidable True)

/-- The write of the reply whose error is ignored succeeds. -/
def Heeds (s : System) : Event → Prop
  | .sent c failed => failed.isSome → (s.sessions c).ignores = false
  | _ => True

/-- What a step does to the ids and to the places of the connections. -/
structure Advances (tidy lost : Prop) (s s' : System) : Prop where
  free : s'.runtime.registry.connArena.FreeList
  ledger : Move s.runtime.ledger s'.runtime.ledger ∨ ¬ tidy ∧ ∃ c, Forgets c s.runtime.ledger s'.runtime.ledger
  modes : s'.Modes lost

variable {tidy : Prop}

theorem allows_command {h : Handler} (rest : Rest) (live : h.Live) : (Session.command rest).Allows lost h := by
  cases rest with
  | parseError => exact .inl live
  | _ => exact live

theorem Sends.advances {rest : Rest} (sends : s.Sends s' c rest) (modes : s.Modes lost) : s.Advances tidy lost s' := by
  refine ⟨sends.keeps.free, .inl ?_, modes.acts sends.acts ?_⟩
  · rw [sends.keeps.same]
    exact .keep rfl rfl fun _ => .inl
  · rw [sends.session]
    exact allows_command rest sends.live

theorem Closes.advances (closes : s.Closes s' c) (modes : s.Modes lost) : s.Advances tidy lost s' := by
  refine ⟨closes.free, .inl closes.move, modes.acts closes.acts ?_⟩
  rw [closes.session]
  exact closes.state

/-- Only the place of the connection changes. -/
theorem advances_setSession {session : Session} (leased : s.runtime.Leased) (modes : s.Modes lost)
    (mine : session.Allows lost (s.runtime.conns c)) : s.Advances tidy lost (s.setSession c session) := by
  refine ⟨leased.free, .inl (.keep rfl rfl fun _ => .inl), modes.acts (acts_setSession s c session) ?_⟩
  rw [sessions_setSession]
  exact mine

/-- A change of the connection's state and what the ids say to it, before a frame is sent. -/
theorem Sends.advances_after {registry : SubRegistry} {h : Handler} {rest : Rest} (modes : s.Modes lost)
    (move : Move s.runtime.ledger (Runtime.setConn { s.runtime with registry := registry } c h).ledger)
    (sends : Sends { s with runtime := Runtime.setConn { s.runtime with registry := registry } c h } s' c rest) :
    s.Advances tidy lost s' := by
  have acts : s.Acts s' c := by
    intro d other
    obtain ⟨session, handler⟩ := sends.acts d other
    refine ⟨session, handler.trans ?_⟩
    show (Runtime.setConn _ c h).conns d = _
    rw [Runtime.conns_setConn, if_neg other]
  refine ⟨sends.keeps.free, .inl (sends.keeps.same ▸ move), modes.acts acts ?_⟩
  rw [sends.session]
  exact allows_command rest sends.live

theorem advances_startRead (leased : s.runtime.Leased) (modes : s.Modes lost) (taken : s.startRead c = .ok s') :
    s.Advances tidy lost s' := by
  unfold startRead at taken
  split at taken
  next before =>
    obtain rfl := Except.ok.inj taken
    exact advances_setSession leased modes (by rw [before]; trivial)
  next id before =>
    split at taken
    · cases taken
    · obtain rfl := Except.ok.inj taken
      exact advances_setSession leased modes (by rw [before]; trivial)
  · cases taken
  · cases taken
  · cases taken

theorem advances_subscribeNext {state : ConnState} {channel : SharedByte} {rest : List SharedByte} (leased : s.runtime.Leased)
    (modes : s.Modes lost) (before : s.runtime.conns c = .idle state)
    (taken : s.subscribeNext c state channel rest = .ok s') : s.Advances tidy lost s' := by
  obtain ⟨⟨registry, state', n⟩, joined, sent⟩ := Outcomes.exists_of_bind taken
  obtain ⟨free, ⟨id, rfl⟩, move⟩ := Runtime.subscribe_move leased before joined
  apply Sends.advances_after modes move
  apply sends_of_sendThen ⟨free, leased.sound.move move⟩ ?_ sent
  show ((Runtime.setConn { s.runtime with registry := registry } c (.idle (.pubSub id))).conns c).Live
  rw [Runtime.conns_setConn, if_pos rfl]
  trivial

theorem advances_dispatch {cmd : SharedByte} {args : List SharedByte} (leased : s.runtime.Leased) (modes : s.Modes lost)
    (order : ChannelOrder) (tidies : tidy → ∀ id, s.runtime.conns c = .idle (.pubSub id) → getHandler cmd = some .unsubscribe →
      s.runtime.registry.Suits id args) (live : (s.runtime.conns c).Live)
    (taken : s.dispatch order c cmd args = .ok s') : s.Advances tidy lost s' := by
  have replies : ∀ {frame : SharedFrame} {rest : Rest}, s.sendThen c frame rest = .ok s' → s.Advances tidy lost s' :=
    fun sent => (sends_of_sendThen leased live sent).advances modes
  unfold dispatch at taken
  split at taken
  next id before =>
    split at taken
    next =>
      obtain rfl := Except.ok.inj taken
      exact advances_setSession leased modes live
    next unsubscribes =>
      obtain ⟨⟨frames, registry, state⟩, outcome⟩ : ∃ p, s.runtime.registry.unsubscribe order (.pubSub id) args = p := ⟨_, rfl⟩
      rw [outcome] at taken
      obtain rfl := Except.ok.inj taken
      obtain ⟨free, states, ledger⟩ := Runtime.unsubscribe_move leased order before outcome
      refine ⟨free, ledger.imp_right fun ⟨ill, forgets⟩ => ⟨fun holds => ill (tidies holds id before unsubscribes), c, forgets⟩, ?_⟩
      apply modes.acts (c := c)
      · intro d other
        refine ⟨(acts_setSession _ c _ d other).1, ?_⟩
        show (Runtime.setConn _ c _).conns d = _
        rw [Runtime.conns_setConn, if_neg other]
      · rw [sessions_setSession]
        show ((Runtime.setConn _ c _).conns c).Live
        rw [Runtime.conns_setConn, if_pos rfl]
        rcases states with rfl | ⟨write, buf, rfl⟩ <;> trivial
    · exact replies taken
    · exact replies taken
    · exact replies taken
  next write buf before =>
    split at taken
    next =>
      obtain rfl := Except.ok.inj taken
      exact advances_setSession leased modes live
    next =>
      obtain ⟨⟨⟨response, toFlush⟩, registry⟩, published, sent⟩ := Outcomes.exists_of_bind taken
      have keeps := Runtime.keeps_publishEncode leased.free published
      have sends := sends_of_sendThen (s := { s with runtime := { s.runtime with registry := registry } })
        (keeps.leased leased) live sent
      exact Sends.advances ⟨keeps.trans sends.keeps, sends.acts, sends.session, sends.live⟩ modes
    · exact replies taken
    · exact replies taken
    · cases taken
    next =>
      obtain rfl := Except.ok.inj taken
      exact advances_setSession leased modes live
    · exact replies taken
  next =>
    obtain rfl := Except.ok.inj taken
    exact advances_setSession leased modes live
  · cases taken

theorem advances_handleBuffer {outcome : Decoded} (leased : s.runtime.Leased) (modes : s.Modes lost) (order : ChannelOrder)
    (tidies : tidy → s.Tidy (.decoded c outcome)) (live : (s.runtime.conns c).Live)
    (taken : s.handleBuffer order c outcome = .ok s') : s.Advances tidy lost s' := by
  cases outcome with
  | incomplete => exact advances_startRead leased modes taken
  | error e => exact (sends_of_sendThen leased live taken).advances modes
  | frame f =>
    simp only [handleBuffer] at taken
    split at taken
    · exact (sends_of_sendThen leased live taken).advances modes
    next cmd args words =>
      apply advances_dispatch leased modes order ?_ live taken
      intro holds id before unsubscribes
      apply tidies holds (id, args)
      simp [leaving, before, words, unsubscribes]

/-- Where a reply is under way or done, the state is one to go on with, unless its error was ignored. -/
theorem Modes.live (modes : s.Modes lost) {session : Session} (here : s.sessions c = session) (ends : session ≠ .returned)
    (ignored : session ≠ .command .parseError) : (s.runtime.conns c).Live := by
  have allowed := modes c
  rw [here] at allowed
  unfold Session.Allows at allowed
  split at allowed
  · exact absurd rfl ends
  · exact absurd rfl ignored
  · exact allowed

theorem advances_proceed (leased : s.runtime.Leased) (modes : s.Modes lost) (taken : s.proceed c = .ok s') :
    s.Advances tidy lost s' := by
  unfold proceed at taken
  split at taken
  next rest state here before =>
    split at taken
    · obtain rfl := Except.ok.inj taken
      exact advances_setSession leased modes (modes.live here (by simp) (by simp))
    · obtain rfl := Except.ok.inj taken
      exact advances_setSession leased modes (modes.live here (by simp) (by simp))
    · obtain rfl := Except.ok.inj taken
      exact advances_setSession leased modes (modes.live here (by simp) (by simp))
    · exact advances_subscribeNext leased modes before taken
    · exact (sends_of_sendThen leased (modes.live here (by simp) (by simp)) taken).advances modes
    next toFlush =>
      obtain rfl := Except.ok.inj taken
      have live := modes.live here (by simp) (by simp)
      have keeps := Runtime.keeps_triggerWrites toFlush leased.free
      have conns : (toFlush.foldl Runtime.triggerWrite s.runtime).conns = s.runtime.conns := conns_triggerWrites toFlush s.runtime
      refine ⟨keeps.free, .inl ?_, modes.acts (c := c) (fun d other => ⟨?_, ?_⟩) ?_⟩
      · show Move _ (toFlush.foldl Runtime.triggerWrite s.runtime).ledger
        rw [keeps.same]
        exact .keep rfl rfl fun _ => .inl
      · exact (acts_setSession _ c _ d other).1
      · exact congrFun conns d
      · rw [sessions_setSession]
        show ((toFlush.foldl Runtime.triggerWrite s.runtime).conns c).Live
        rw [conns]
        exact live
    · exact (closes_of_close leased taken).advances modes
    · exact advances_startRead leased modes taken
  · cases taken

theorem conns_sent {r r' : Runtime} {failed : Option Nat} {reply : Reply} (taken : r.sent c failed = .ok (reply, r')) :
    (failed = none → (r'.conns c).Live) ∧ ∀ d, d ≠ c → r'.conns d = r.conns d := by
  have after : ∀ (u : Runtime) (h : Handler), u.conns = r.conns → (failed = none → h.Live) →
      (failed = none → ((u.setConn c h).conns c).Live) ∧ ∀ d, d ≠ c → (u.setConn c h).conns d = r.conns d := by
    intro u h same live
    refine ⟨fun succeeds => ?_, fun d other => ?_⟩
    · rw [Runtime.conns_setConn, if_pos rfl]
      exact live succeeds
    · rw [Runtime.conns_setConn, if_neg other, same]
  unfold Runtime.sent at taken
  split at taken
  · dsimp only at taken
    split at taken
    next fails =>
      obtain rfl := (Prod.mk.inj (Except.ok.inj taken)).2
      exact after _ _ rfl fun succeeds => by rw [succeeds] at fails; cases fails
    next =>
      obtain rfl := (Prod.mk.inj (Except.ok.inj taken)).2
      exact after _ _ rfl fun _ => trivial
  · dsimp only at taken
    split at taken
    next fails =>
      obtain rfl := (Prod.mk.inj (Except.ok.inj taken)).2
      exact after _ _ rfl fun succeeds => by rw [succeeds] at fails; cases fails
    next =>
      obtain rfl := (Prod.mk.inj (Except.ok.inj taken)).2
      exact after _ _ (Runtime.conns_release ..) fun _ => trivial
  · cases taken

/-- Without a state there is nothing to clean up. -/
theorem sendFailed_none (rest : Rest) (without : s.runtime.conns c = .idle .none) :
    s.sendFailed c rest = .ok (s.setSession c (if (Session.command rest).ignores then .command rest else .returned)) := by
  cases rest with
  | parseError => rfl
  | _ =>
    simp only [sendFailed, close, without]
    rfl

/-- A command whose reply is written goes on; one whose reply is lost gives up, without a state. -/
theorem sent_cases {failed : Option Nat} (leased : s.runtime.Leased) (taken : s.sent c failed = .ok s') :
    ∃ rest reply runtime, s.sessions c = .command rest ∧ s.runtime.sent c failed = .ok (reply, runtime) ∧
      (s' = { s with runtime := runtime } ∧ failed = none ∧ s.runtime.Keeps runtime ∨
        s' = ({ s with runtime := runtime } : System).setSession c (if (Session.command rest).ignores then .command rest else .returned) ∧
          failed.isSome ∧ runtime.conns c = .idle .none ∧
          (s.runtime.Keeps runtime ∨ (∃ id cw, s.runtime.conns c = .sending id cw) ∧ runtime.registry.connArena.FreeList ∧
            Forgets c s.runtime.ledger runtime.ledger)) := by
  unfold sent at taken
  split at taken
  next rest here =>
    obtain ⟨⟨reply, runtime⟩, ended, ends⟩ := Outcomes.exists_of_bind taken
    refine ⟨rest, reply, runtime, here, ended, ?_⟩
    obtain ⟨succeeds, rfl, keeps⟩ | ⟨fails, rfl, without, ledger⟩ := Runtime.sent_cases leased.free ended
    · exact .inl ⟨(Except.ok.inj ends).symm, succeeds, keeps⟩
    · have gaveUp := sendFailed_none (s := { s with runtime := runtime }) rest without
      exact .inr ⟨(Except.ok.inj (gaveUp.symm.trans ends)).symm, fails, without, ledger⟩
  · cases taken

theorem advances_sent {failed : Option Nat} (leased : s.runtime.Leased) (modes : s.Modes lost)
    (tidies : tidy → s.Tidy (.sent c failed)) (heeds : lost ∨ s.Heeds (.sent c failed)) (taken : s.sent c failed = .ok s') :
    s.Advances tidy lost s' := by
  obtain ⟨rest, reply, runtime, here, ended, outcome⟩ := sent_cases leased taken
  obtain ⟨live, others⟩ := conns_sent ended
  obtain ⟨rfl, succeeds, keeps⟩ | ⟨rfl, fails, without, ledger⟩ := outcome
  · refine ⟨keeps.free, .inl ?_, modes.acts (c := c) (fun d other => ⟨rfl, others d other⟩) ?_⟩
    · show Move _ runtime.ledger
      rw [keeps.same]
      exact .keep rfl rfl fun _ => .inl
    · show (s.sessions c).Allows lost (runtime.conns c)
      rw [here]
      exact allows_command rest (live succeeds)
  · refine ⟨?_, ?_, modes.acts (c := c) (fun d other => ⟨(acts_setSession _ c _ d other).1, others d other⟩) ?_⟩
    · exact ledger.elim (·.free) (·.2.1)
    · rcases ledger with keeps | ⟨⟨id, cw, before⟩, -, forgets⟩
      · left
        show Move _ runtime.ledger
        rw [keeps.same]
        exact .keep rfl rfl fun _ => .inl
      · refine .inr ⟨fun holds => ?_, c, forgets⟩
        have key := tidies holds fails
        rw [before] at key
        cases key
    · rw [sessions_setSession]
      show Session.Allows lost _ (runtime.conns c)
      rw [without]
      split
      next ignores =>
        rcases heeds with lost | heeds
        · cases rest with
          | parseError => exact .inr ⟨lost, rfl⟩
          | _ => cases ignores
        · have not := heeds fails
          rw [here, ignores] at not
          cases not
      next => rfl

theorem conns_poll {r r' : Runtime} {t : Nat} {reply : Reply} (taken : r.poll t = .ok (reply, r')) : r'.conns = r.conns := by
  unfold Runtime.poll at taken
  split at taken
  · split at taken
    · obtain rfl := (Prod.mk.inj (Except.ok.inj taken)).2
      rfl
    · obtain rfl := (Prod.mk.inj (Except.ok.inj taken)).2
      rfl
  · cases taken

theorem conns_wrote {r r' : Runtime} {t : Nat} {failed : Option Nat} {reply : Reply} (taken : r.wrote t failed = .ok (reply, r')) :
    r'.conns = r.conns := by
  unfold Runtime.wrote at taken
  split at taken
  · dsimp only at taken
    split at taken
    · obtain rfl := (Prod.mk.inj (Except.ok.inj taken)).2
      rfl
    · obtain rfl := (Prod.mk.inj (Except.ok.inj taken)).2
      exact Runtime.conns_release ..
  · cases taken

/-- A step of a task that writes. -/
theorem advances_task {runtime : Runtime} (modes : s.Modes lost) (keeps : s.runtime.Keeps runtime)
    (conns : runtime.conns = s.runtime.conns) : s.Advances tidy lost { s with runtime := runtime } := by
  refine ⟨keeps.free, .inl ?_, fun c => ?_⟩
  · show Move _ runtime.ledger
    rw [keeps.same]
    exact .keep rfl rfl fun _ => .inl
  · show (s.sessions c).Allows lost (runtime.conns c)
    rw [conns]
    exact modes c

theorem advances_next {e : Event} (leased : s.runtime.Leased) (modes : s.Modes lost) (order : ChannelOrder)
    (heeds : lost ∨ s.Heeds e) (taken : s.next order e = .ok s') : s.Advances (s.Tidy e) lost s' := by
  cases e with
  | arrived c =>
    simp only [next] at taken
    split at taken
    next here =>
      obtain rfl := Except.ok.inj taken
      exact advances_setSession leased modes (modes.live here (by simp) (by simp))
    next => cases taken
  | closed c =>
    simp only [next] at taken
    split at taken
    · exact (closes_of_close leased taken).advances modes
    · cases taken
  | canceled c =>
    simp only [next] at taken
    split at taken
    · exact (closes_of_close leased taken).advances modes
    · cases taken
  | decoded c outcome =>
    simp only [next] at taken
    split at taken
    next here => exact advances_handleBuffer leased modes order id (modes.live here (by simp) (by simp)) taken
    next => cases taken
  | handled c response =>
    simp only [next] at taken
    split at taken
    next here => exact (sends_of_sendThen leased (modes.live here (by simp) (by simp)) taken).advances modes
    next => cases taken
  | proceed c => exact advances_proceed leased modes taken
  | sent c failed => exact advances_sent leased modes id heeds taken
  | poll t =>
    obtain ⟨p, polled, done⟩ := Outcomes.exists_of_bind taken
    obtain rfl := Except.ok.inj done
    exact advances_task modes (Runtime.keeps_poll leased.free polled) (conns_poll polled)
  | wrote t failed =>
    obtain ⟨p, wrote, done⟩ := Outcomes.exists_of_bind taken
    obtain rfl := Except.ok.inj done
    exact advances_task modes (Runtime.keeps_wrote leased.free wrote) (conns_wrote wrote)

/-! ## Runs -/

theorem leased_new : Runtime.Leased new.runtime where
  free := SubRegistry.freeList_new
  sound := ⟨fun _ _ mine => (by cases mine), fun _ _ _ mine => by cases mine⟩

theorem modes_new : new.Modes lost := fun _ => trivial

theorem next_of_step {order : ChannelOrder} {e : Event} {reply : Unit} (taken : s.step order e = .ok (reply, s')) :
    s.next order e = .ok s' := by
  unfold step at taken
  cases outcome : s.next order e with
  | error => rw [outcome] at taken; cases taken
  | ok s₁ =>
    rw [outcome] at taken
    rw [(Prod.mk.inj (Except.ok.inj taken)).2]

/-- The registry has the id in its arena or in the list of a channel. -/
def Knows (s : System) (id : SubId) : Prop :=
  (s.runtime.registry.get id).isSome ∨ ∃ channel, id ∈ members s.runtime.registry.connMap channel

/-- The connection has not returned and holds the id. -/
def Holds (s : System) (c : Nat) (id : SubId) : Prop := ¬ s.sessions c = .returned ∧ (s.runtime.conns c).key = some id

/-- The ids that a connection has held in the course of a run. -/
def idsOf (order : ChannelOrder) : List Event → System → Nat → List SubId
  | [], s, c => (s.runtime.conns c).key.toList
  | e :: rest, s, c => (s.runtime.conns c).key.toList ++ match s.next order e with
    | .ok s' => idsOf order rest s' c
    | .error _ => []

/-- After a tidy run the registry knows an id of a connection that has returned only if another connection has got it anew. -/
theorem run_leaves_no_trace (order : ChannelOrder) (events : List Event) (replies : List Unit) (s : System)
    (tidy : Meets (step order) Tidy events new) (ran : run (step order) events new = .ok (replies, s)) (c : Nat)
    (returned : s.sessions c = .returned) :
    ∀ id ∈ idsOf order events new c, ¬ s.Knows id ∨ ∃ d, d ≠ c ∧ s.Holds d id := by
  obtain ⟨leased, modes, traceless⟩ : s.runtime.Leased ∧ s.Modes True ∧ Traceless s.runtime.ledger := by
    apply (Reaches.run .refl tidy ran).invariant
    · refine ⟨leased_new, modes_new, fun id known => ?_⟩
      rcases known with present | ⟨channel, listed⟩
      · have absent := SubRegistry.get_new id
        have there : (SubRegistry.new.get id).isSome := present
        rw [absent] at there
        cases there
      · cases listed
    · intro s s' e reply ⟨leased, modes, traceless⟩ tidy taken
      have advances := advances_next leased modes order (.inl trivial) (next_of_step taken)
      have move := advances.ledger.resolve_right fun ⟨ill, _⟩ => ill tidy
      exact ⟨⟨advances.free, leased.sound.move move⟩, advances.modes, traceless.move move⟩
  have open' : ∀ d, (s.runtime.conns d).key.isSome → ¬ s.sessions d = .returned := by
    intro d holds gone
    have allowed := modes d
    rw [gone] at allowed
    rw [show s.runtime.conns d = .idle .none from allowed] at holds
    cases holds
  intro id _
  rw [or_iff_not_imp_left, not_not]
  intro known
  obtain ⟨d, mine⟩ := traceless id known
  have mine' : (s.runtime.conns d).key = some id := mine
  have stays := open' d (by rw [mine']; rfl)
  exact ⟨d, fun same => stays (same ▸ returned), stays, mine'⟩

/-- The frame of a command, as clients send it. -/
def request (words : List String) : Decoded := .frame (.array (words.map fun word => .bulkString (ascii word)))

/-- Two subscribers: one joins and leaves channels, and both close. -/
def visits : List Event :=
  [.arrived 0, .decoded 0 (request ["subscribe", "a", "b"]), .proceed 0, .sent 0 none, .proceed 0, .sent 0 none, .proceed 0,
    .arrived 1, .decoded 1 (request ["SUBSCRIBE", "a"]), .proceed 1, .sent 1 none, .proceed 1, .decoded 1 .incomplete,
    .decoded 0 (request ["UNSUBSCRIBE", "a"]), .proceed 0, .sent 0 none, .proceed 0, .decoded 0 .incomplete,
    .closed 0, .closed 1]

theorem run_leaves_no_trace_visits : ∃ replies s, run (step .stored) visits new = .ok (replies, s) ∧
    ¬ idsOf .stored visits new 0 = [] ∧ ∀ id ∈ idsOf .stored visits new 0, ¬ s.Knows id ∨ ∃ d, d ≠ 0 ∧ s.Holds d id := by
  have ends : (run (step .stored) visits new).toOption.map (fun p => (p.2.sessions 0).isReturned) = some true := by
    decide +kernel
  cases ran : run (step .stored) visits new with
  | error => rw [ran] at ends; cases ends
  | ok p =>
    rw [ran] at ends
    have returned := Session.isReturned_iff.1 (Option.some.inj ends)
    exact ⟨p.1, p.2, rfl, by decide +kernel,
      run_leaves_no_trace .stored visits p.1 p.2 (by decide +kernel) ran 0 returned⟩

/-- The confirmation of a first channel cannot be written. -/
def dropped : List Event := [.arrived 0, .decoded 0 (request ["SUBSCRIBE", "a"]), .proceed 0, .sent 0 (some 0)]

theorem dropped_leaves_trace : ¬ ∀ order events replies s, run (step order) events new = .ok (replies, s) →
    ∀ c, s.sessions c = .returned → ∀ id ∈ idsOf order events new c, ¬ s.Knows id ∨ ∃ d, d ≠ c ∧ s.Holds d id := by
  intro leavesNoTrace
  have ends : (run (step .stored) dropped new).toOption.map (fun p => ((p.2.sessions 0).isReturned,
      (p.2.runtime.registry.get ⟨0, 0⟩).isSome)) = some (true, true) := by decide +kernel
  have others : ∀ d, (run (step .stored) dropped new).toOption.map (fun p => (p.2.runtime.conns (d + 1)).key) = some none := by
    intro d
    rfl
  cases ran : run (step .stored) dropped new with
  | error => rw [ran] at ends; cases ends
  | ok p =>
    rw [ran] at ends
    obtain ⟨returned, there⟩ := Prod.mk.inj (Option.some.inj ends)
    have outcome := leavesNoTrace .stored dropped p.1 p.2 ran 0 (Session.isReturned_iff.1 returned) ⟨0, 0⟩ (by decide +kernel)
    rcases outcome with unknown | ⟨d, other, -, mine⟩
    · exact unknown (.inl there)
    · obtain ⟨n, rfl⟩ := Nat.exists_eq_succ_of_ne_zero other
      have without := others n
      rw [ran] at without
      rw [show (p.2.runtime.conns (n + 1)).key = none from Option.some.inj without] at mine
      cases mine

end System

end Radixox.Server
