import Radixox.Server.Mailboxes

/-!
# The mail of the sessions

A step of `handle_connection`, of a write task or of a socket is a few acts of the server. So every
run of the sessions is a run of the bus: what a client is sent is what the commands of its own connection
reply and what others publish on the channels it is in.
-/

namespace Radixox.Server
set_option autoImplicit false

open Resp Radixox.Runs Radixox.Topics Radixox.DoubleBuffer

/-- A step that is no write error. -/
def Event.Succeeds : Event → Prop
  | .sent _ failed | .wrote _ failed => failed = none
  | _ => True

instance (e : Event) : Decidable e.Succeeds := by
  unfold Event.Succeeds
  split <;> infer_instance

/-- An act that is no write error, and that suits any server. -/
def Act.Plain (a : Act) : Prop := a.Succeeds ∧ ∀ r : Runtime, r.Suits a ∧ r.Turns a

namespace System

def sends (c : Nat) (frame : SharedFrame) : List Act := [.input (.send c frame)]

/-- One turn of the loop of `cmd_subscribe`. -/
def subscribeActs (s : System) (c : Nat) (state : ConnState) (channel : SharedByte) : List Act :=
  (s.runtime.registry.subscribe state channel).toOption.elim [] fun p =>
    .input (.subscribe c channel) ::
      sends c (.array [.bulkString (ascii "subscribe"), .bulkString channel, .integer (Int64.ofNat p.2.2)])

def publishActs (s : System) (c : Nat) (args : List SharedByte) : List Act :=
  (s.runtime.registry.publishEncode args).toOption.elim [] fun p => .input (.publishEncode args) :: sends c p.1.1

def dispatchActs (s : System) (c : Nat) (cmd : SharedByte) (args : List SharedByte) : List Act :=
  match s.runtime.conns c with
  | .idle (.pubSub _) => match getHandler cmd with
    | some .subscribe => []
    | some .unsubscribe => [.input (.unsubscribe c args)]
    | some .ping => sends c respPong
    | some .quit => sends c respOk
    | _ => sends c (.error onlySubscriber)
  | .idle (.normal _ _) => match getHandler cmd with
    | some .publish => s.publishActs c args
    | some .ping => sends c respPong
    | some .quit => sends c respOk
    | some _ => []
    | none => sends c (.error (unknownCommand cmd))
  | _ => []

/-- What a step is to the registry, the buffers and the write tasks. -/
def acts (s : System) : Event → List Act
  | .arrived _ | .decoded _ .incomplete => []
  | .closed c | .canceled c => [.cleanup c]
  | .decoded c (.error e) => sends c (.error (ascii "ERR parse error: " ++ e))
  | .decoded c (.frame f) => (frameToArgs f).elim (sends c (.error ERR_EMPTY_CMD)) fun p =>
    s.dispatchActs c (toUppercase p.1) p.2
  | .handled c response => sends c response
  | .proceed c => match s.sessions c, s.runtime.conns c with
    | .command (.subscribing (channel :: _)), .idle state => s.subscribeActs c state channel
    | .command (.confirming (frame :: _)), _ => sends c frame
    | .command (.flushing toFlush), _ => toFlush.map fun id => .input (.triggerWrite id)
    | .command .quitting, _ => [.cleanup c]
    | _, _ => []
  | .sent c failed => [.input (.sent c failed)]
  | .poll t => [.input (.poll t)]
  | .wrote t failed => [.input (.wrote t failed)]

/-- What a run is to them. -/
def performed (order : ChannelOrder) : List Event → System → List Act
  | [], _ => []
  | e :: rest, s => s.acts e ++ match s.next order e with
    | .ok s' => performed order rest s'
    | .error _ => []

def InTurn (s : System) : Event → Prop
  | .poll t => s.runtime.InTurn (.poll t)
  | _ => True

instance (s : System) (e : Event) : Decidable (s.InTurn e) := by
  unfold InTurn
  split <;> infer_instance

/-- The step is tidy, and its swap of buffers is one of the allowed ones. -/
structure Fits (allowed : Buffers UInt8 → Prop) (s : System) (e : Event) : Prop where
  tidy : s.Tidy e
  may : ∀ b : Buffers UInt8, (s.InTurn e → b.inflight = [] ∨ b.pending = []) → allowed b

variable {s s' : System} {c : Nat} {allowed : Buffers UInt8 → Prop}

/-! ## One step -/

theorem run_sends {frame : SharedFrame} {rest : Rest} (leased : s.runtime.Leased) (order : ChannelOrder)
    (taken : s.sendThen c frame rest = .ok s') :
    ∃ replies, run (Runtime.perform order) (sends c frame) s.runtime = .ok (replies, s'.runtime) := by
  obtain ⟨⟨reply, runtime⟩, sent, done⟩ := Outcomes.exists_of_bind taken
  obtain ⟨rfl, -⟩ := Runtime.keeps_send leased sent
  obtain rfl := Except.ok.inj done
  exact ⟨_, run_cons sent rfl⟩

theorem run_cleanup (order : ChannelOrder) (taken : s.close c = .ok s') :
    ∃ replies, run (Runtime.perform order) [.cleanup c] s.runtime = .ok (replies, s'.runtime) := by
  have performs : s.runtime.cleanup c = .ok (.nothing, s'.runtime) := by
    unfold close at taken
    dsimp only at taken
    unfold Runtime.cleanup
    split at taken
    next id before =>
      obtain rfl := Except.ok.inj taken
      rw [before]
    · cases taken
    next write buf before =>
      obtain rfl := Except.ok.inj taken
      rw [before]
    next before =>
      obtain rfl := Except.ok.inj taken
      have same : s.runtime.setConn c (.idle .none) = s.runtime := by
        rw [← before, Runtime.setConn, Function.update_eq_self]
      rw [before]
      exact congrArg (fun r => Except.ok (Reply.nothing, r)) same
    · cases taken
  exact ⟨_, run_cons performs rfl⟩

theorem run_startRead {acts : List Act} (nothing : acts = []) (order : ChannelOrder) (taken : s.startRead c = .ok s') :
    ∃ replies, run (Runtime.perform order) acts s.runtime = .ok (replies, s'.runtime) := by
  subst nothing
  refine ⟨[], ?_⟩
  unfold startRead at taken
  split at taken
  · obtain rfl := Except.ok.inj taken
    rfl
  · split at taken
    · cases taken
    · obtain rfl := Except.ok.inj taken
      rfl
  · cases taken
  · cases taken
  · cases taken

theorem run_triggerWrites (order : ChannelOrder) (ids : List SubId) : ∀ r : Runtime, ∃ replies,
    run (Runtime.perform order) (ids.map fun id => .input (.triggerWrite id)) r =
      .ok (replies, ids.foldl Runtime.triggerWrite r) := by
  induction ids with
  | nil => exact fun r => ⟨[], rfl⟩
  | cons id rest ih =>
    intro r
    obtain ⟨replies, ran⟩ := ih (r.triggerWrite id)
    exact ⟨_, run_cons rfl ran⟩

theorem run_subscribeActs {state : ConnState} {channel : SharedByte} {rest : List SharedByte} (leased : s.runtime.Leased)
    (order : ChannelOrder) (before : s.runtime.conns c = .idle state) (taken : s.subscribeNext c state channel rest = .ok s') :
    ∃ replies, run (Runtime.perform order) (s.subscribeActs c state channel) s.runtime = .ok (replies, s'.runtime) := by
  obtain ⟨⟨registry, state', n⟩, joined, sent⟩ := Outcomes.exists_of_bind taken
  obtain ⟨free, -, move⟩ := Runtime.subscribe_move leased before joined
  obtain ⟨replies, ran⟩ := run_sends ⟨free, leased.sound.move move⟩ order sent
  have first : s.runtime.step order (.subscribe c channel) =
      .ok (.count n, Runtime.setConn { s.runtime with registry := registry } c (.idle state')) := by
    simp only [Runtime.step, before, joined]
    rfl
  rw [subscribeActs, joined]
  exact ⟨_, run_cons first ran⟩

theorem run_publishActs {args : List SharedByte} (leased : s.runtime.Leased) (order : ChannelOrder)
    (taken : (do
      let ((response, toFlush), registry) ← s.runtime.registry.publishEncode args
      sendThen { s with runtime := { s.runtime with registry := registry } } c response (.flushing toFlush)) = .ok s') :
    ∃ replies, run (Runtime.perform order) (s.publishActs c args) s.runtime = .ok (replies, s'.runtime) := by
  obtain ⟨⟨⟨response, toFlush⟩, registry⟩, published, sent⟩ := Outcomes.exists_of_bind taken
  obtain ⟨replies, ran⟩ := run_sends (s := { s with runtime := { s.runtime with registry := registry } })
    ((Runtime.keeps_publishEncode leased.free published).leased leased) order sent
  have first : s.runtime.step order (.publishEncode args) =
      .ok (.published response toFlush, { s.runtime with registry := registry }) := by
    simp only [Runtime.step, published]
    rfl
  rw [publishActs, published]
  exact ⟨_, run_cons first ran⟩

theorem run_dispatchActs {cmd : SharedByte} {args : List SharedByte} (leased : s.runtime.Leased) (order : ChannelOrder)
    (taken : s.dispatch order c cmd args = .ok s') :
    ∃ replies, run (Runtime.perform order) (s.dispatchActs c cmd args) s.runtime = .ok (replies, s'.runtime) := by
  unfold dispatch at taken
  unfold dispatchActs
  split at taken
  next id before =>
    rw [before]
    cases handler : getHandler cmd with
    | none =>
      rw [handler] at taken
      exact run_sends leased order taken
    | some h =>
      rw [handler] at taken
      cases h with
      | subscribe =>
        obtain rfl := Except.ok.inj taken
        exact ⟨[], rfl⟩
      | unsubscribe =>
        obtain rfl := Except.ok.inj taken
        have first : s.runtime.step order (.unsubscribe c args) =
            .ok (.frames (s.runtime.registry.unsubscribe order (.pubSub id) args).1,
              Runtime.setConn { s.runtime with registry := (s.runtime.registry.unsubscribe order (.pubSub id) args).2.1 } c
                (.idle (s.runtime.registry.unsubscribe order (.pubSub id) args).2.2)) := by
          simp only [Runtime.step, before]
        exact ⟨_, run_cons first rfl⟩
      | _ => exact run_sends leased order taken
  next write buf before =>
    rw [before]
    cases handler : getHandler cmd with
    | none =>
      rw [handler] at taken
      exact run_sends leased order taken
    | some h =>
      rw [handler] at taken
      cases h with
      | publish => exact run_publishActs leased order taken
      | ping | quit => exact run_sends leased order taken
      | unsubscribe => cases taken
      | _ =>
        obtain rfl := Except.ok.inj taken
        exact ⟨[], rfl⟩
  next state notSubscriber notNormal before =>
    obtain rfl := Except.ok.inj taken
    rw [before]
    cases state with
    | pubSub id => exact absurd rfl (notSubscriber id)
    | normal write buf => exact absurd rfl (notNormal write buf)
    | blocking | none => exact ⟨[], rfl⟩
  · cases taken

theorem run_proceedActs (leased : s.runtime.Leased) (order : ChannelOrder) (taken : s.proceed c = .ok s') :
    ∃ replies, run (Runtime.perform order) (s.acts (.proceed c)) s.runtime = .ok (replies, s'.runtime) := by
  unfold proceed at taken
  split at taken
  next rest state here before =>
    simp only [acts, here, before]
    cases rest with
    | answered =>
      obtain rfl := Except.ok.inj taken
      exact ⟨[], rfl⟩
    | subscribing channels =>
      cases channels with
      | nil =>
        obtain rfl := Except.ok.inj taken
        exact ⟨[], rfl⟩
      | cons channel channels => exact run_subscribeActs leased order before taken
    | confirming frames =>
      cases frames with
      | nil =>
        obtain rfl := Except.ok.inj taken
        exact ⟨[], rfl⟩
      | cons frame frames => exact run_sends leased order taken
    | flushing toFlush =>
      obtain rfl := Except.ok.inj taken
      exact run_triggerWrites order toFlush s.runtime
    | quitting => exact run_cleanup order taken
    | parseError => exact run_startRead rfl order taken
  · cases taken

/-- A step of the sessions does the acts that it is. -/
theorem run_acts {e : Event} (leased : s.runtime.Leased) (order : ChannelOrder) (succeeds : e.Succeeds)
    (taken : s.next order e = .ok s') :
    ∃ replies, run (Runtime.perform order) (s.acts e) s.runtime = .ok (replies, s'.runtime) := by
  unfold next at taken
  cases e with
  | arrived c =>
    dsimp only at taken
    split at taken
    · obtain rfl := Except.ok.inj taken
      exact ⟨[], rfl⟩
    · cases taken
  | closed c =>
    dsimp only at taken
    split at taken
    · exact run_cleanup order taken
    · cases taken
  | canceled c =>
    dsimp only at taken
    split at taken
    · exact run_cleanup order taken
    · cases taken
  | decoded c outcome =>
    dsimp only at taken
    split at taken
    · cases outcome with
      | incomplete => exact run_startRead rfl order taken
      | error e => exact run_sends leased order taken
      | frame f =>
        simp only [handleBuffer] at taken
        simp only [acts]
        cases words : frameToArgs f with
        | none =>
          rw [words] at taken
          exact run_sends leased order taken
        | some p =>
          rw [words] at taken
          exact run_dispatchActs leased order taken
    · cases taken
  | handled c response =>
    dsimp only at taken
    split at taken
    · exact run_sends leased order taken
    · cases taken
  | proceed c => exact run_proceedActs leased order taken
  | sent c failed =>
    obtain ⟨rest, reply, runtime, -, ended, outcome⟩ := sent_cases leased taken
    obtain ⟨rfl, -⟩ | ⟨-, fails, -⟩ := outcome
    · exact ⟨_, run_cons ended rfl⟩
    · rw [show failed = none from succeeds] at fails
      cases fails
  | poll t =>
    obtain ⟨⟨reply, runtime⟩, polled, done⟩ := Outcomes.exists_of_bind taken
    obtain rfl := Except.ok.inj done
    exact ⟨_, run_cons polled rfl⟩
  | wrote t failed =>
    obtain ⟨⟨reply, runtime⟩, written, done⟩ := Outcomes.exists_of_bind taken
    obtain rfl := Except.ok.inj done
    exact ⟨_, run_cons written rfl⟩

/-! ## What the acts ask for -/

theorem plain_sends (c : Nat) (frame : SharedFrame) : ∀ a ∈ sends c frame, a.Plain := by
  intro a member
  obtain rfl := List.mem_singleton.1 member
  exact ⟨trivial, fun _ => ⟨trivial, trivial⟩⟩

theorem plain_subscribeActs (s : System) (c : Nat) (state : ConnState) (channel : SharedByte) :
    ∀ a ∈ s.subscribeActs c state channel, a.Plain := by
  intro a member
  unfold subscribeActs at member
  cases joined : s.runtime.registry.subscribe state channel with
  | error => rw [joined] at member; cases member
  | ok p =>
    rw [joined] at member
    rcases List.mem_cons.1 member with rfl | member
    · exact ⟨trivial, fun _ => ⟨trivial, trivial⟩⟩
    · exact plain_sends c _ a member

theorem plain_publishActs (s : System) (c : Nat) (args : List SharedByte) : ∀ a ∈ s.publishActs c args, a.Plain := by
  intro a member
  unfold publishActs at member
  cases published : s.runtime.registry.publishEncode args with
  | error => rw [published] at member; cases member
  | ok p =>
    rw [published] at member
    rcases List.mem_cons.1 member with rfl | member
    · exact ⟨trivial, fun _ => ⟨trivial, trivial⟩⟩
    · exact plain_sends c _ a member

/-- Only an `UNSUBSCRIBE` of a subscriber asks for anything. -/
theorem dispatchActs_cases (s : System) (c : Nat) (cmd : SharedByte) (args : List SharedByte) :
    (∃ id, s.runtime.conns c = .idle (.pubSub id) ∧ getHandler cmd = some .unsubscribe ∧
      s.dispatchActs c cmd args = [.input (.unsubscribe c args)]) ∨
    ∀ a ∈ s.dispatchActs c cmd args, a.Plain := by
  have nothing : ∀ a ∈ ([] : List Act), a.Plain := fun a member => by cases member
  unfold dispatchActs
  split
  next id before =>
    split
    · exact .inr nothing
    next unsubscribes => exact .inl ⟨id, before, unsubscribes, rfl⟩
    · exact .inr (plain_sends c _)
    · exact .inr (plain_sends c _)
    · exact .inr (plain_sends c _)
  next =>
    right
    split
    · exact plain_publishActs s c args
    · exact plain_sends c _
    · exact plain_sends c _
    · exact nothing
    · exact plain_sends c _
  next => exact .inr nothing

theorem plain_proceed (s : System) (c : Nat) : ∀ a ∈ s.acts (.proceed c), a.Plain := by
  intro a member
  simp only [acts] at member
  split at member
  · exact plain_subscribeActs s c _ _ a member
  · exact plain_sends c _ a member
  · obtain ⟨id, -, rfl⟩ := List.mem_map.1 member
    exact ⟨trivial, fun _ => ⟨trivial, trivial⟩⟩
  · obtain rfl := List.mem_singleton.1 member
    exact ⟨trivial, fun _ => ⟨trivial, trivial⟩⟩
  · cases member

/-- Acts that ask for nothing suit every server, and leave the buffers in turn. -/
theorem meets_plain (order : ChannelOrder) (any : ∀ b, b.inflight = [] ∨ b.pending = [] → allowed b) {acts : List Act}
    (plain : ∀ a ∈ acts, a.Plain) (r : Runtime) :
    (∀ a ∈ acts, a.Succeeds) ∧ Meets (Runtime.perform order) (Runtime.Fits allowed) acts r := by
  refine ⟨fun a member => (plain a member).1, .of_forall (fun a member r => ?_) r⟩
  obtain ⟨suits, turns⟩ := (plain a member).2 r
  exact ⟨suits, fun b one => any b (one turns)⟩

/-- A tidy step is made of acts that suit the server. -/
theorem meets_acts {e : Event} (order : ChannelOrder) (succeeds : e.Succeeds) (fits : s.Fits allowed e) :
    (∀ a ∈ s.acts e, a.Succeeds) ∧ Meets (Runtime.perform order) (Runtime.Fits allowed) (s.acts e) s.runtime := by
  have any : ∀ b, b.inflight = [] ∨ b.pending = [] → allowed b := fun b one => fits.may b fun _ => one
  have single : ∀ {a : Act}, a.Succeeds → s.runtime.Fits allowed a →
      (∀ d ∈ [a], d.Succeeds) ∧ Meets (Runtime.perform order) (Runtime.Fits allowed) [a] s.runtime := by
    intro a succeeds fits
    refine ⟨fun d member => ?_, .cons fits fun _ _ _ => trivial⟩
    obtain rfl := List.mem_singleton.1 member
    exact succeeds
  cases e with
  | arrived c => exact meets_plain order any (fun a member => by cases member) _
  | closed c => exact single trivial ⟨trivial, fun b one => any b (one trivial)⟩
  | canceled c => exact single trivial ⟨trivial, fun b one => any b (one trivial)⟩
  | handled c response => exact meets_plain order any (plain_sends c response) _
  | proceed c => exact meets_plain order any (plain_proceed s c) _
  | sent c failed => exact single succeeds ⟨trivial, fun b one => any b (one trivial)⟩
  | poll t => exact single trivial ⟨trivial, fits.may⟩
  | wrote t failed => exact single succeeds ⟨trivial, fun b one => any b (one trivial)⟩
  | decoded c outcome =>
    cases outcome with
    | incomplete => exact meets_plain order any (fun a member => by cases member) _
    | error e => exact meets_plain order any (plain_sends c _) _
    | frame f =>
      simp only [acts]
      cases words : frameToArgs f with
      | none => exact meets_plain order any (plain_sends c _) _
      | some p =>
        obtain ⟨id, before, unsubscribes, leaves⟩ | plain := dispatchActs_cases s c (toUppercase p.1) p.2
        · rw [Option.elim_some, leaves]
          refine single trivial ⟨fun k mine => ?_, fun b one => any b (one trivial)⟩
          rw [before] at mine
          obtain rfl : id = k := Option.some.inj mine
          exact fits.tidy (id, p.2) (by simp [leaving, before, words, unsubscribes])
        · exact meets_plain order any plain _

/-! ## Runs -/

variable {R : List SharedByte → List SharedByte → Prop}

theorem run_performed (kept : Runtime.Kept R allowed) (order : ChannelOrder) (events : List Event) :
    ∀ {n : Nat} {s s' : System} {u : Runtime} {b : Bus SharedByte Nat SharedByte} {units : List Unit},
      Runtime.Serves R n s.runtime u b → (∀ e ∈ events, e.Succeeds) →
      Meets (step order) (Fits allowed) events s →
      n + (performed order events s).countP Act.leaves < 2 ^ 32 → run (step order) events s = .ok (units, s') →
      ∃ replies, run (Runtime.perform order) (performed order events s) s.runtime = .ok (replies, s'.runtime) ∧
        Answers Act.hear Act.Tells b (performed order events s) replies ∧
        ∃ u', Runtime.Serves R (n + (performed order events s).countP Act.leaves) s'.runtime u'
          ((performed order events s).foldl Act.hear b) := by
  induction events with
  | nil =>
    intro n s s' u b units serves _ _ _ ran
    obtain ⟨-, rfl⟩ := Prod.mk.inj (Except.ok.inj ran)
    exact ⟨[], rfl, trivial, u, serves⟩
  | cons e rest ih =>
    intro n s s' u b units serves succeeds meets few ran
    obtain ⟨⟨⟨⟩, s₁⟩, taken, later⟩ := Outcomes.exists_of_bind ran
    obtain ⟨⟨others, s₂⟩, ran', done⟩ := Outcomes.exists_of_bind later
    obtain ⟨-, rfl⟩ := Prod.mk.inj (Except.ok.inj done)
    have moves : s.next order e = .ok s₁ := by
      unfold step at taken
      cases moves : s.next order e with
      | error => rw [moves] at taken; cases taken
      | ok s₂ =>
        rw [moves] at taken
        rw [(Prod.mk.inj (Except.ok.inj taken)).2]
    have split : performed order (e :: rest) s = s.acts e ++ performed order rest s₁ := by simp only [performed, moves]
    rw [split, List.countP_append, ← Nat.add_assoc] at few ⊢
    rw [List.foldl_append]
    have first := succeeds e List.mem_cons_self
    obtain ⟨replies, performs⟩ := run_acts serves.settled.leased order first moves
    obtain ⟨ok, suits⟩ := meets_acts order first meets.1
    obtain ⟨answers, u₁, serves₁⟩ := Runtime.run_serves kept order (s.acts e) serves ok suits (by omega) performs
    obtain ⟨replies', performs', answers', served⟩ := ih serves₁ (fun d member => succeeds d (List.mem_cons_of_mem e member))
      (meets.next taken) few ran'
    exact ⟨replies ++ replies', run_append performs performs', answers.append answers', served⟩

/-- In every run of the sessions without a write error the server is a bus: a run of the sessions is one of the acts that
its steps are, `PUBLISH` counts the members, and a client is sent its mail. -/
theorem run_mail (order : ChannelOrder) (events : List Event) (units : List Unit) (s : System)
    (succeeds : ∀ e ∈ events, e.Succeeds) (tidy : Meets (step order) Tidy events new)
    (few : (performed order events new).countP Act.leaves < 2 ^ 32) (ran : run (step order) events new = .ok (units, s)) :
    (∃ replies, run (Runtime.perform order) (performed order events new) .new = .ok (replies, s.runtime) ∧
      Answers Act.hear Act.Tells .empty (performed order events new) replies) ∧
    Named (fun c => (s.runtime.conns c).key) s.runtime.registry.connMap
      ((performed order events new).foldl Act.hear .empty).topics ∧
    ∀ c, s.runtime.conns c ≠ .idle .none →
      DoubleBuffer.Holds List.Perm (((performed order events new).foldl Act.hear .empty).mail c) (s.runtime.buffers c) ∧
      (Meets (step order) InTurn events new →
        DoubleBuffer.Holds (· = ·) (((performed order events new).foldl Act.hear .empty).mail c) (s.runtime.buffers c)) := by
  have bound : 0 + (performed order events new).countP Act.leaves < 2 ^ 32 := by omega
  obtain ⟨replies, performs, answers, u, serves⟩ := run_performed Runtime.kept_perm order events (Runtime.serves_new (.refl []))
    succeeds (tidy.mono fun _ _ tidy => ⟨tidy, fun _ _ => trivial⟩) bound ran
  refine ⟨⟨replies, performs, answers⟩, serves.named, fun c isOpen => ⟨serves.settled.buffers isOpen ▸ serves.mail c,
    fun turns => ?_⟩⟩
  obtain ⟨-, -, -, u', serves'⟩ := run_performed Runtime.kept_eq order events (Runtime.serves_new rfl) succeeds
    ((tidy.and turns).mono fun _ _ both => ⟨both.1, fun _ one => one both.2⟩) bound ran
  exact serves'.settled.buffers isOpen ▸ serves'.mail c

/-- A subscriber that closes while its message is on the way, and a publisher that then takes its place. -/
def successor : List Event :=
  [.arrived 0, .decoded 0 (request ["SUBSCRIBE", "a"]), .proceed 0, .sent 0 none, .proceed 0, .decoded 0 .incomplete,
    .arrived 1, .decoded 1 (request ["PUBLISH", "a", "hi"]), .sent 1 none, .proceed 1, .decoded 1 .incomplete, .poll 0,
    .closed 0, .wrote 0 none, .arrived 1, .decoded 1 (request ["SUBSCRIBE", "a"]), .proceed 1, .sent 1 none, .proceed 1]

theorem run_mail_successor : ∃ units s, run (step .stored) successor new = .ok (units, s) ∧
    DoubleBuffer.Holds (· = ·) (((performed .stored successor new).foldl Act.hear .empty).mail 1) (s.runtime.buffers 1) := by
  have ends : ((run (step .stored) successor new).toOption.any fun p => (p.2.runtime.conns 1).key.isSome) = true := by
    decide +kernel
  cases ran : run (step .stored) successor new with
  | error => rw [ran] at ends; cases ends
  | ok p =>
    rw [ran] at ends
    have isOpen : p.2.runtime.conns 1 ≠ .idle .none := fun gone => by
      change (p.2.runtime.conns 1).key.isSome = true at ends
      rw [gone] at ends
      cases ends
    obtain ⟨-, -, mail⟩ := run_mail .stored successor p.1 p.2 (by decide) (by decide +kernel) (by decide +kernel) ran
    exact ⟨p.1, p.2, rfl, (mail 1 isOpen).2 (by decide +kernel)⟩

end System

end Radixox.Server
