import Radixox.Server.Ownership

/-!
# No connection panics

A task goes on only with a state to go on with: after an ignored write error there is
none, and a command that only subscribers have a handler for must not come from
another connection. Where neither happens, no step of a connection ends in one
of its panics.
-/

namespace Radixox.Server
set_option autoImplicit false

open Radixox.Runs Resp

/-- The panics of the connections. The digits of a length and a step of a task that is not there are not among them. -/
def Fault.Panics : Fault → Prop
  | .index | .disabled => False
  | _ => True

/-- Between two commands, and not a subscriber. -/
def Handler.isNormal : Handler → Bool
  | .idle (.normal _ _) => true
  | _ => false

namespace System

/-- A connection in the normal state sends `UNSUBSCRIBE`. -/
def Misplaced (s : System) (c : Nat) (f : BytesFrame) : Prop :=
  (s.runtime.conns c).isNormal ∧ (frameToArgs f).bind (fun p => getHandler (toUppercase p.1)) = some .unsubscribe

/-- No error of a write is ignored, and only subscribers send `UNSUBSCRIBE`. -/
def Sane (s : System) : Event → Prop
  | .sent c failed => s.Heeds (.sent c failed)
  | .decoded c (.frame f) => ¬ s.Misplaced c f
  | _ => True

instance (s : System) : (e : Event) → Decidable (s.Sane e)
  | .sent _ _ => inferInstanceAs (Decidable (_ → _))
  | .decoded _ (.frame _) => inferInstanceAs (Decidable (¬ (_ ∧ _)))
  | .decoded _ .incomplete | .decoded _ (.error _) | .arrived _ | .closed _ | .canceled _ | .handled _ _ | .proceed _
  | .poll _ | .wrote _ _ => inferInstanceAs (Decidable True)

theorem heeds_of_sane {s : System} {e : Event} (sane : s.Sane e) : s.Heeds e := by
  cases e with
  | sent c failed => exact sane
  | _ => trivial

/-! ## What can go wrong in a step -/

variable {s s' : System} {c : Nat} {fault : Fault}

theorem send_fault {r : Runtime} {frame : SharedFrame} (live : (r.conns c).Live) (fails : r.send c frame = .error fault) :
    ¬ fault.Panics := by
  unfold Runtime.send at fails
  split at fails
  · split at fails
    · exact Except.error.inj fails ▸ id
    · cases fails
  · unfold Runtime.handlePubsubWrite at fails
    split at fails
    · cases fails
    · split at fails
      · exact Except.error.inj fails ▸ id
      · dsimp only at fails
        split at fails <;> cases fails
  · cases fails
  next before =>
    rw [before] at live
    exact live.elim
  · exact Except.error.inj fails ▸ id

theorem sendThen_fault {frame : SharedFrame} {rest : Rest} (leased : s.runtime.Leased) (live : (s.runtime.conns c).Live)
    (fails : s.sendThen c frame rest = .error fault) : ¬ fault.Panics := by
  simp only [sendThen, bind, Except.bind] at fails
  cases sending : s.runtime.send c frame with
  | error e =>
    rw [sending] at fails
    exact Except.error.inj fails ▸ send_fault live sending
  | ok p =>
    obtain ⟨reply, runtime⟩ := p
    obtain ⟨rfl, -⟩ := Runtime.keeps_send leased sending
    rw [sending] at fails
    cases fails

theorem close_fault (live : (s.runtime.conns c).Live) (fails : s.close c = .error fault) : ¬ fault.Panics := by
  unfold close at fails
  dsimp only at fails
  split at fails
  · cases fails
  next before =>
    rw [before] at live
    exact live.elim
  · cases fails
  · cases fails
  · exact Except.error.inj fails ▸ id

theorem startRead_fault (leased : s.runtime.Leased) (live : (s.runtime.conns c).Live)
    (fails : s.startRead c = .error fault) : ¬ fault.Panics := by
  unfold startRead at fails
  split at fails
  · cases fails
  next id before =>
    have held : (s.runtime.registry.get id).isSome := leased.held (c := c) (by rw [before]; rfl)
    split at fails
    next absent =>
      rw [absent] at held
      cases held
    next => cases fails
  next before =>
    rw [before] at live
    exact live.elim
  next before =>
    rw [before] at live
    exact live.elim
  · exact Except.error.inj fails ▸ id

theorem subscribeNext_fault {state : ConnState} {channel : SharedByte} {rest : List SharedByte} (leased : s.runtime.Leased)
    (before : s.runtime.conns c = .idle state) (live : (s.runtime.conns c).Live)
    (fails : s.subscribeNext c state channel rest = .error fault) : ¬ fault.Panics := by
  simp only [subscribeNext, bind, Except.bind] at fails
  cases joined : s.runtime.registry.subscribe state channel with
  | error e =>
    rw [joined] at fails
    obtain rfl := Except.error.inj fails
    cases state with
    | normal write buf =>
      obtain ⟨_, _, _, outcome, -⟩ := SubRegistry.subscribe_first leased.free write buf channel
      rw [outcome] at joined
      cases joined
    | pubSub id => cases joined
    | blocking | none =>
      rw [before] at live
      exact live.elim
  | ok p =>
    obtain ⟨registry, state', n⟩ := p
    rw [joined] at fails
    obtain ⟨free, ⟨id, rfl⟩, move⟩ := Runtime.subscribe_move leased before joined
    apply sendThen_fault ⟨free, leased.sound.move move⟩ ?_ fails
    show ((Runtime.setConn { s.runtime with registry := registry } c (.idle (.pubSub id))).conns c).Live
    rw [Runtime.conns_setConn, if_pos rfl]
    trivial

theorem publishEncode_fault {reg : SubRegistry} {args : List SharedByte} (fails : reg.publishEncode args = .error fault) :
    ¬ fault.Panics := by
  unfold SubRegistry.publishEncode at fails
  split at fails
  · split at fails
    · exact Except.error.inj fails ▸ id
    · split at fails <;> cases fails
  · cases fails

theorem dispatch_fault {cmd : SharedByte} {args : List SharedByte} (leased : s.runtime.Leased) (order : ChannelOrder)
    (placed : (s.runtime.conns c).isNormal → getHandler cmd ≠ some .unsubscribe) (live : (s.runtime.conns c).Live)
    (fails : s.dispatch order c cmd args = .error fault) : ¬ fault.Panics := by
  unfold dispatch at fails
  split at fails
  · split at fails
    · cases fails
    · cases fails
    · exact sendThen_fault leased live fails
    · exact sendThen_fault leased live fails
    · exact sendThen_fault leased live fails
  next write buf before =>
    split at fails
    · cases fails
    · simp only [bind, Except.bind] at fails
      cases published : s.runtime.registry.publishEncode args with
      | error e =>
        rw [published] at fails
        exact Except.error.inj fails ▸ publishEncode_fault published
      | ok p =>
        obtain ⟨⟨response, toFlush⟩, registry⟩ := p
        rw [published] at fails
        have keeps := Runtime.keeps_publishEncode leased.free published
        exact sendThen_fault (s := { s with runtime := { s.runtime with registry := registry } }) (keeps.leased leased) live fails
    · exact sendThen_fault leased live fails
    · exact sendThen_fault leased live fails
    next unsubscribes => exact absurd unsubscribes (placed (by rw [before]; rfl))
    · cases fails
    · exact sendThen_fault leased live fails
  · cases fails
  · exact Except.error.inj fails ▸ id

theorem handleBuffer_fault {outcome : Decoded} (leased : s.runtime.Leased) (order : ChannelOrder)
    (sane : s.Sane (.decoded c outcome)) (live : (s.runtime.conns c).Live)
    (fails : s.handleBuffer order c outcome = .error fault) : ¬ fault.Panics := by
  cases outcome with
  | incomplete => exact startRead_fault leased live fails
  | error e => exact sendThen_fault leased live fails
  | frame f =>
    simp only [handleBuffer] at fails
    split at fails
    · exact sendThen_fault leased live fails
    next cmd args words =>
      apply dispatch_fault leased order ?_ live fails
      intro normal unsubscribes
      exact sane ⟨normal, by rw [words]; exact unsubscribes⟩

theorem proceed_fault (leased : s.runtime.Leased) (modes : s.Modes False) (fails : s.proceed c = .error fault) :
    ¬ fault.Panics := by
  have live : ∀ {rest : Rest}, s.sessions c = .command rest → (s.runtime.conns c).Live := by
    intro rest here
    have allowed := modes c
    rw [here] at allowed
    cases rest with
    | parseError => exact allowed.resolve_right And.left
    | _ => exact allowed
  unfold proceed at fails
  split at fails
  next rest state here before =>
    split at fails
    · cases fails
    · cases fails
    · cases fails
    · exact subscribeNext_fault leased before (live here) fails
    · exact sendThen_fault leased (live here) fails
    · cases fails
    · exact close_fault (live here) fails
    · exact startRead_fault leased (live here) fails
  · exact Except.error.inj fails ▸ id

theorem sent_fault {failed : Option Nat} (leased : s.runtime.Leased) (fails : s.sent c failed = .error fault) :
    ¬ fault.Panics := by
  unfold sent at fails
  split at fails
  next rest here =>
    simp only [bind, Except.bind] at fails
    cases ended : s.runtime.sent c failed with
    | error e =>
      rw [ended] at fails
      obtain rfl := Except.error.inj fails
      unfold Runtime.sent at ended
      split at ended
      · dsimp only at ended
        split at ended <;> cases ended
      · dsimp only at ended
        split at ended <;> cases ended
      · exact Except.error.inj ended ▸ id
    | ok p =>
      obtain ⟨reply, runtime⟩ := p
      rw [ended] at fails
      obtain ⟨-, rfl, -⟩ | ⟨-, rfl, without, -⟩ := Runtime.sent_cases leased.free ended
      · cases fails
      · have ended' := sendFailed_none (s := { s with runtime := runtime }) rest without
        cases ended'.symm.trans fails
  · exact Except.error.inj fails ▸ id

theorem next_fault {e : Event} (leased : s.runtime.Leased) (modes : s.Modes False) (order : ChannelOrder) (sane : s.Sane e)
    (fails : s.next order e = .error fault) : ¬ fault.Panics := by
  cases e with
  | arrived c =>
    simp only [next] at fails
    split at fails
    · cases fails
    · exact Except.error.inj fails ▸ id
  | closed c =>
    simp only [next] at fails
    split at fails
    next here => exact close_fault (modes.live here (by simp) (by simp)) fails
    next => exact Except.error.inj fails ▸ id
  | canceled c =>
    simp only [next] at fails
    split at fails
    next here _ => exact close_fault (modes.live here (by simp) (by simp)) fails
    next => exact Except.error.inj fails ▸ id
  | decoded c outcome =>
    simp only [next] at fails
    split at fails
    next here => exact handleBuffer_fault leased order sane (modes.live here (by simp) (by simp)) fails
    next => exact Except.error.inj fails ▸ id
  | handled c response =>
    simp only [next] at fails
    split at fails
    next here => exact sendThen_fault leased (modes.live here (by simp) (by simp)) fails
    next => exact Except.error.inj fails ▸ id
  | proceed c => exact proceed_fault leased modes fails
  | sent c failed => exact sent_fault leased fails
  | poll t =>
    simp only [next, bind, Except.bind] at fails
    cases polled : s.runtime.poll t with
    | error e =>
      rw [polled] at fails
      obtain rfl := Except.error.inj fails
      unfold Runtime.poll at polled
      split at polled
      · split at polled <;> cases polled
      · exact Except.error.inj polled ▸ id
    | ok p => rw [polled] at fails; cases fails
  | wrote t failed =>
    simp only [next, bind, Except.bind] at fails
    cases wrote : s.runtime.wrote t failed with
    | error e =>
      rw [wrote] at fails
      obtain rfl := Except.error.inj fails
      unfold Runtime.wrote at wrote
      split at wrote
      · dsimp only at wrote
        split at wrote <;> cases wrote
      · exact Except.error.inj wrote ▸ id
    | ok p => rw [wrote] at fails; cases fails

/-- No run in which write errors are heeded and only subscribers unsubscribe ends in a panic of a connection. -/
theorem run_does_not_panic (order : ChannelOrder) (events : List Event) (sane : Meets (step order) Sane events new)
    (fault : Fault) (fails : run (step order) events new = .error fault) : ¬ fault.Panics := by
  obtain ⟨s, e, reached, sane', failed⟩ := Reaches.run_error .refl sane fails
  obtain ⟨leased, modes⟩ : s.runtime.Leased ∧ s.Modes False := by
    apply reached.invariant ⟨leased_new, modes_new⟩
    intro s s' e reply ⟨leased, modes⟩ sane taken
    have advances := advances_next leased modes order (.inr (heeds_of_sane sane)) (next_of_step taken)
    refine ⟨⟨advances.free, ?_⟩, advances.modes⟩
    rcases advances.ledger with move | ⟨-, c, forgets⟩
    · exact leased.sound.move move
    · exact leased.sound.forgets forgets
  apply next_fault leased modes order sane'
  unfold step at failed
  cases outcome : s.next order e with
  | error e' =>
    rw [outcome] at failed
    rw [Except.error.inj failed]
  | ok s' => rw [outcome] at failed; cases failed

/-- A malformed frame, a subscription, a command of the normal state in it, and a failed write. -/
def clumsy : List Event :=
  [.arrived 0, .decoded 0 (.error (ascii "DecodeError")), .sent 0 none, .proceed 0, .arrived 0,
    .decoded 0 (request ["subscribe", "a"]), .proceed 0, .sent 0 none, .proceed 0, .decoded 0 (request ["get", "k"]), .sent 0 none,
    .proceed 0, .decoded 0 (request ["unsubscribe", "b"]), .proceed 0, .sent 0 (some 0), .proceed 0]

theorem run_does_not_panic_clumsy : ∃ fault, run (step .stored) clumsy new = .error fault ∧ ¬ fault.Panics := by
  have fails : (run (step .stored) clumsy new).isOk = false := by decide +kernel
  cases ran : run (step .stored) clumsy new with
  | error fault => exact ⟨fault, rfl, run_does_not_panic .stored clumsy (by decide +kernel) fault ran⟩
  | ok p => rw [ran] at fails; cases fails

/-- `UNSUBSCRIBE` as the first command of a connection. -/
theorem unsubscribe_panics : ¬ ∀ order events fault, run (step order) events new = .error fault → ¬ fault.Panics := by
  intro never
  have fails : run (step .stored) [.arrived 0, .decoded 0 (request ["UNSUBSCRIBE"])] new = .error .stateSensitive := by rfl
  exact never .stored _ _ fails trivial

end System

end Radixox.Server
