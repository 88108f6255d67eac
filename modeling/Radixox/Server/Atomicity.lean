import Radixox.Lib.Outcomes
import Radixox.Oxidart.Permanent
import Radixox.Server.DataCommands

/-!
# Errors change nothing

A data command that answers with an error leaves the store as it was. Arguments are
checked before the store is touched. A lookup that finds a value has
deleted nothing on the way. The commands that make the key first (`ensure_key`) make a
node without a value, and a container in a node without a value is always accepted.
-/

namespace Radixox.Oxidart
set_option autoImplicit false
open Radixox.Outcomes

namespace OxidArt

variable {P : Policy} {V : Type} {st : OxidArt P V} {ε α : Type}

/-- A refusal comes with the state before. -/
def Intact (st : OxidArt P V) (p : Except ε α × OxidArt P V) : Prop := ∀ e, p.1 = .error e → p.2 = st

/-- A value comes with the state before. -/
def Unmoved (st : OxidArt P V) (p : Option α × OxidArt P V) : Prop := ∀ a, p.1 = some a → p.2 = st

theorem Intact.same {res : Except ε α} : Intact st (res, st) := fun _ _ => rfl

theorem Intact.accepted {st' : OxidArt P V} {a : α} : Intact (ε := ε) st (.ok a, st') := by
  intro e refused
  cases refused

theorem Unmoved.same {res : Option α} : Unmoved st (res, st) := fun _ _ => rfl

theorem Unmoved.absent {st' : OxidArt P V} : Unmoved (α := α) st (none, st') := by
  intro a found
  cases found

/-! ## Lookups -/

/-- Behind a lookup there is nothing, or the state is the one before. -/
theorem returns_behind {β : Type} {good : β → Prop} {run : Exec (Option α × OxidArt P V)} {rest : Option α × OxidArt P V → Exec β}
    (lookup : Returns (Unmoved st) run) (absent : ∀ st', Returns good (rest (none, st')))
    (found : ∀ a, Returns good (rest (some a, st))) : Returns good (run.bind rest) := by
  refine lookup.bind fun p unmoved => ?_
  obtain ⟨val, st₁⟩ := p
  cases val with
  | none => exact absent st₁
  | some a =>
    obtain rfl : st₁ = st := unmoved a rfl
    exact found a

theorem getIdx_unmoved (st : OxidArt P V) (key : Bytes) : Returns (Unmoved st) (st.getIdx key) := by
  unfold getIdx
  split
  · refine (returns_self _).bind fun root _ => ?_
    split
    · exact (returns_self _).bind fun st₁ _ => .ok .absent
    · exact .ok .same
  · split
    · refine (returns_self _).bind fun node _ => ?_
      split
      · exact (returns_self _).bind fun st₁ _ => .ok .absent
      · exact .ok .same
    · exact .ok .same

theorem get_unmoved (st : OxidArt P V) (key : Bytes) : Returns (Unmoved st) (st.get key) :=
  returns_behind (getIdx_unmoved st key) (fun _ => .ok .absent) fun _ => (returns_self _).bind fun _ _ => .ok .same

theorem getMut_unmoved (st : OxidArt P V) (key : Bytes) : Returns (Unmoved st) (st.getMut key) :=
  returns_behind (getIdx_unmoved st key) (fun _ => .ok .absent) fun _ => (returns_self _).bind fun _ _ => .ok .same

/-! ## Making a key -/

/-- The node at `i` holds no value. -/
def Empty (st : OxidArt P V) (i : Nat) : Prop := (st.tryGetNode i).map Node.val = some none

/-- The values stay where they are. -/
def SameVals (st st' : OxidArt P V) : Prop := ∀ i, (st'.tryGetNode i).map Node.val = (st.tryGetNode i).map Node.val

theorem SameVals.setNode {i : Nat} {n m : Node V} (found : st.getNode i = .ok n) (val : m.val = n.val) :
    SameVals st (st.setNode i m) := by
  intro j
  rw [tryGetNode_setNode]
  split
  next same =>
    subst same
    unfold getNode at found
    split at found
    next n' held =>
      obtain rfl := Except.ok.inj found
      simp only [held, Option.map_some, val]
    next => cases found
  next => rfl

theorem pushChildIdx_sameVals (st : OxidArt P V) (p i : Nat) (r : UInt8) : Returns (SameVals st) (st.pushChildIdx p i r) := by
  refine (returns_self _).bind fun node found => ?_
  split
  · exact (returns_self _).bind fun childs _ => .ok (.setNode found rfl)
  · split
    · refine (returns_self _).bind fun s ran => ?_
      refine (returns_self _).bind fun node' found' => ?_
      intro j
      have nodes : st.tryGetNode = s.2.tryGetNode := by
        unfold tryGetNode
        rw [Rewires.map_allocOverflowWithFirst ran]
      rw [nodes]
      exact SameVals.setNode (m := { node' with overflowIdx := some s.1 }) found' rfl j
    · split
      · trivial
      · exact (returns_self _).bind fun o _ => .ok fun j => rfl

theorem empty_insert (st : OxidArt P V) {n : Node V} (val : n.val = none) : Empty (st.insert n).2 (st.insert n).1 := by
  show ((st.insert n).2.tryGetNode st.nextIdx).map Node.val = some none
  rw [tryGetNode_insert, if_pos rfl, Option.map_some, val]

theorem Empty.insert {i : Nat} (empty : Empty st i) (n : Node V) : Empty (st.insert n).2 i := by
  unfold Empty at empty ⊢
  rw [tryGetNode_insert, if_neg]
  · exact empty
  · intro same
    subst same
    have free : st.tryGetNode st.nextIdx = none := TaggedHiSlab.get_nextIdx _
    rw [free] at empty
    cases empty

theorem Empty.insertTagged {i : Nat} (empty : Empty st i) (n : Node V) : Empty (st.insertTagged n).2 i := by
  have same : Empty (st.insertTagged n).2 i = Empty (st.insert n).2 i := by
    unfold Empty
    rw [tryGetNode_insert, tryGetNode_insertTagged]
  rw [same]
  exact empty.insert n

theorem Empty.sameVals {st' : OxidArt P V} {i : Nat} (empty : Empty st i) (same : SameVals st st') : Empty st' i :=
  (same i).trans empty

/-- A new leaf without a value, linked under `p`. -/
theorem linkEmpty_empty (st : OxidArt P V) (c : Bytes) (p : Nat) (r : UInt8) :
    Returns (fun q : Nat × OxidArt P V => Empty q.2 q.1)
      (do
        let (idx, st) := st.insert (.newEmptyLeaf c p r)
        let st ← st.pushChildIdx p idx r
        return (idx, st)) :=
  (pushChildIdx_sameVals _ p _ r).bind fun _ same => .ok ((empty_insert st rfl).sameVals same)

theorem splitLeaf_empty (st : OxidArt P V) (common : Nat) (rest : Bytes) (i : Nat) :
    Returns (fun q : Nat × OxidArt P V => Empty q.2 q.1) (st.splitLeaf common rest i none none) := by
  unfold splitLeaf
  split
  · trivial
  · contradiction
  · exact linkEmpty_empty _ _ _ _

theorem splitNode_empty (st : OxidArt P V) (common : Nat) (rest : Bytes) (i : Nat) :
    Returns (fun q : Nat × OxidArt P V => Empty q.2 q.1) (st.splitNode common rest i none none) := by
  refine (returns_self _).bind fun old found => ?_
  refine (returns_self _).bind fun node made => ?_
  have val : node.val = none := by
    unfold splitIntermediate at made
    split at made
    · contradiction
    · contradiction
    · obtain rfl := Except.ok.inj made
      rfl
  have held : Empty (st.setNode i node) i := by
    unfold Empty
    rw [tryGetNode_setNode, if_pos rfl]
    unfold getNode at found
    split at found
    next n' at' => rw [at', Option.map_some, Option.map_some, val]
    next => cases found
  split
  · trivial
  next oldRadix _ =>
    have finish : ∀ p : Nat × OxidArt P V, Empty p.2 i → Returns (fun q : Nat × OxidArt P V => Empty q.2 q.1)
        ((p.2.pushChildIdx i p.1 oldRadix).bind fun st₂ =>
          if common == rest.length then .ok (i, st₂) else st₂.splitLeaf common rest i none none) := by
      intro p still
      refine (pushChildIdx_sameVals p.2 i p.1 oldRadix).bind fun st₂ same => ?_
      split
      · exact .ok (still.sameVals same)
      · exact splitLeaf_empty st₂ common rest i
    split
    · exact finish (_, _) (held.insertTagged _)
    · exact finish (_, _) (held.insert _)

theorem ensureKey_empty (st : OxidArt P V) (key : Bytes) :
    Returns (fun q : Nat × OxidArt P V => q.2 = st ∨ Empty q.2 q.1) (st.ensureKey key) := by
  unfold ensureKey
  split
  · exact .ok (.inl rfl)
  · split
    · unfold ensure
      split
      · exact (linkEmpty_empty _ _ _ _).imp fun _ => .inr
      · trivial
    · trivial
    · exact .ok (.inl rfl)
    · exact (splitNode_empty _ _ _ _).imp fun _ => .inr

/-- The outcome of get-or-create: a container that was made, or the state before. -/
def FindsOrMakes (st : OxidArt P V) (new : α) (p : Except TypeError (Nat × α × Bool) × OxidArt P V) : Prop :=
  (p.2 = st ∧ ∀ i c, p.1 ≠ .ok (i, c, true)) ∨ ∃ i, p.1 = .ok (i, new, true)

theorem getOrCreate_opens (st : OxidArt P V) (isContainer : V → Bool) (empty : V) (ttl : Option Nat) (key : Bytes) :
    Returns (FindsOrMakes st empty) (st.getOrCreate isContainer empty ttl key) := by
  refine (ensureKey_empty st key).bind fun q outcome => ?_
  obtain ⟨i, st₁⟩ := q
  refine (returns_self _).bind fun node found => ?_
  split
  next v shown =>
    have same : st₁ = st := by
      rcases outcome with same | empty'
      · exact same
      · -- A node that was just made has no value.
        exfalso
        unfold Empty at empty'
        unfold getNode at found
        split at found
        next n held =>
          obtain rfl := Except.ok.inj found
          rw [held, Option.map_some] at empty'
          simp only [Node.getValue, Option.some.inj empty', ite_self] at shown
          cases shown
        next => cases found
    split
    all_goals
      refine .ok (.inl ⟨same, ?_⟩)
      intro i c made
      cases made
  next =>
    cases ttl
    all_goals
      refine (returns_self _).bind fun e _ => ?_
      dsimp only
      split
      next v shown =>
        refine .ok (.inr ⟨i, ?_⟩)
        unfold Node.getValue at shown
        split at shown
        · cases shown
        · cases shown
          rfl
      next => trivial

/-! ## The shapes of the commands -/

section Typed

variable {S : Type} [Score S] {C : Type} {st : OxidArt P (Value S)}

theorem getContainer_opens (st : OxidArt P (Value S)) (view : Value S → Except RedisType C) (empty : Value S) {new : C}
    (same : view empty = .ok new) (ttl : Option Nat) (key : Bytes) :
    Returns (FindsOrMakes st new) (st.getContainer view empty ttl key) := by
  refine (getOrCreate_opens st (fun v => (view v).isOk) empty ttl key).bind fun p opens => ?_
  obtain ⟨res, st₁⟩ := p
  rcases opens with ⟨same', found⟩ | ⟨i, made⟩
  · cases res with
    | error e =>
      refine .ok (.inl ⟨same', ?_⟩)
      intro i c made
      cases made
    | ok got =>
      obtain ⟨i, v, created⟩ := got
      dsimp only
      split
      · refine .ok (.inl ⟨same', ?_⟩)
        intro j c made
        cases made
      · refine .ok (.inl ⟨same', ?_⟩)
        intro j c made
        cases made
        exact found i v rfl
  · obtain rfl : res = _ := made
    simp only [same]
    exact .ok (.inr ⟨i, rfl⟩)

/-- The same for the helpers that drop the flag. -/
def Opens (st : OxidArt P (Value S)) (new : C) (p : Except TypeError (Nat × C) × OxidArt P (Value S)) : Prop :=
  p.2 = st ∨ ∃ i, p.1 = .ok (i, new)

theorem getHashMut_opens (st : OxidArt P (Value S)) (ttl : Option Nat) (key : Bytes) :
    Returns (Opens st InnerHCommand.new) (st.getHashMut ttl key) := by
  refine (getContainer_opens st Value.asHash (.hash .new) rfl ttl key).bind fun p opens => ?_
  rcases opens with ⟨same, -⟩ | ⟨i, made⟩
  · exact .ok (.inl same)
  · exact .ok (.inr ⟨i, by rw [made]; rfl⟩)

theorem getBtreeSetMut_opens (st : OxidArt P (Value S)) (ttl : Option Nat) (key : Bytes) :
    Returns (Opens st SortedSet.empty) (st.getBtreeSetMut ttl key) := by
  refine (getContainer_opens st Value.asSet (.set .empty) rfl ttl key).bind fun p opens => ?_
  rcases opens with ⟨same, -⟩ | ⟨i, made⟩
  · exact .ok (.inl same)
  · exact .ok (.inr ⟨i, by rw [made]; rfl⟩)

theorem getZsetMut_opens (st : OxidArt P (Value S)) (ttl : Option Nat) (key : Bytes) :
    Returns (Opens st InnerZCommand.new) (st.getZsetMut ttl key) := by
  refine (getContainer_opens st Value.asZset (.zset .new) rfl ttl key).bind fun p opens => ?_
  obtain ⟨res, st₁⟩ := p
  rcases opens with ⟨same, found⟩ | ⟨i, made⟩
  · cases res with
    | error e => exact .ok (.inl same)
    | ok got =>
      obtain ⟨i, zset, created⟩ := got
      cases created with
      | false => exact .ok (.inl same)
      | true => exact absurd rfl (found i zset)
  · obtain rfl : res = _ := made
    exact .ok (.inr ⟨i, rfl⟩)

theorem changeIn_intact {got : Exec (Except TypeError (Nat × C) × OxidArt P (Value S))} {new : C}
    (opens : Returns (Opens st new) got) (wrap : C → Value S) {change : C → Except TypeError (α × C)}
    (accepted : (change new).isOk = true) : Returns (Intact st) (changeIn got wrap change) := by
  refine opens.bind fun p opens => ?_
  obtain ⟨res, st₁⟩ := p
  rcases opens with rfl | ⟨i, made⟩
  · cases res with
    | error e => exact .ok .same
    | ok got =>
      dsimp only
      split
      · exact .ok .same
      · exact (returns_self _).bind fun _ _ => .ok .accepted
  · obtain rfl : res = _ := made
    dsimp only
    split
    next e refused =>
      rw [refused] at accepted
      cases accepted
    next => exact (returns_self _).bind fun _ _ => .ok .accepted

theorem readAs_intact (st : OxidArt P (Value S)) (key : Bytes) (view : Value S → Except RedisType C) (absent : α) (read : C → α) :
    Returns (Intact st) (st.readAs key view absent read) :=
  returns_behind (getMut_unmoved st key) (fun _ => .ok .accepted) fun _ => .ok .same

theorem removeFrom_intact (st : OxidArt P (Value S)) (key : Bytes) (view : Value S → Except RedisType C) (wrap : C → Value S)
    (remove : C → Bytes → Bool × C) (isEmpty : C → Bool) (items : List Bytes) :
    Returns (Intact st) (st.removeFrom key view wrap remove isEmpty items) := by
  refine returns_behind (getMut_unmoved st key) (fun _ => .ok .accepted) fun v => ?_
  dsimp only
  split
  · exact .ok .same
  · refine (returns_self _).bind fun st₂ _ => ?_
    split
    · exact (returns_self _).bind fun _ _ => .ok .accepted
    · exact .ok .accepted

theorem readSet_intact (st : OxidArt P (Value S)) (key : Bytes) (absent : α) (read : SortedSet Bytes → α) :
    Returns (Intact st) (st.readSet key absent read) := by
  refine returns_behind (getMut_unmoved st key) (fun _ => .ok .accepted) fun v => ?_
  dsimp only
  split
  · exact .ok .same
  · split
    · exact (returns_self _).bind fun _ _ => .ok .accepted
    · exact .ok .accepted

theorem incrby_intact (st : OxidArt P (Value S)) (key : Bytes) (delta : Int64) : Returns (Intact st) (st.incrby key delta) := by
  unfold incrby
  split
  · show Returns (Intact st) ((st.set key (.int delta)).bind fun st' => .ok (.ok delta, st'))
    exact (returns_self _).bind fun _ _ => .ok Intact.accepted
  · refine (returns_self _).bind fun node _ => ?_
    refine (returns_self _).bind fun live _ => ?_
    dsimp only
    split
    · split
      · exact (returns_self _).bind fun _ _ => .ok .accepted
      · exact .ok .same
    · exact (returns_self _).bind fun _ _ => .ok .accepted

end Typed

end OxidArt

end Radixox.Oxidart

namespace Radixox.Server.Resp
open Radixox.Oxidart Radixox.Oxidart.OxidArt Radixox.Outcomes

variable {P : Policy} {S : Type} [Score S] {st : OxidArt P (Value S)} {α ε : Type}

/-- An error frame comes with the store before. -/
def Atomic (st : OxidArt P (Value S)) : Answer P S → Prop := Returns fun p => ∀ text, p.1 = .error text → p.2 = st

/-- Frames that report success. -/
def Plain (frame : α → SharedFrame) : Prop := ∀ a text, frame a ≠ .error text

theorem Atomic.refused {frame : SharedFrame} : Atomic st (.ok (frame, st)) := fun _ _ => rfl

theorem Atomic.plain {frame : SharedFrame} {st' : OxidArt P (Value S)} (succeeds : ∀ text, frame ≠ .error text) :
    Atomic st (.ok (frame, st')) := fun text failed => absurd failed (succeeds text)

theorem plain_bulkOrNull : Plain bulkOrNull := by
  intro b text
  cases b with
  | none => exact SharedFrame.noConfusion
  | some b => exact SharedFrame.noConfusion

/-- A handler that answers with a plain frame whatever the store says. -/
theorem answer_plain {frame : α → SharedFrame} (plain : Plain frame) (run : Exec (α × OxidArt P (Value S))) :
    Atomic st (answer frame run) :=
  (returns_self run).map fun p _ text failed => absurd failed (plain p.1 text)

/-- A handler that turns refusals of the store into errors, and only these. -/
theorem answer_refusals {frame : Except ε α → SharedFrame} (plain : Plain fun a => frame (.ok a))
    {run : Exec (Except ε α × OxidArt P (Value S))} (intact : Returns (Intact st) run) : Atomic st (answer frame run) := by
  refine intact.map fun p intact text failed => ?_
  obtain ⟨res, st'⟩ := p
  cases res with
  | ok a => exact absurd failed (plain a text)
  | error e => exact intact e rfl

/-! ## Strings -/

theorem cmdGet_atomic (args : List SharedByte) (st : OxidArt P (Value S)) : Atomic st (cmdGet args st) := by
  cases args with
  | nil => exact .refused
  | cons key _ =>
    refine (get_unmoved st key).map fun p unmoved text failed => ?_
    obtain ⟨val, st'⟩ := p
    cases val with
    | none => cases failed
    | some v => exact unmoved v rfl

theorem setWith_atomic (opts : SetOptions) (key val : SharedByte) (st' : OxidArt P (Value S)) :
    Atomic st (setWith opts key val st') := by
  unfold setWith
  split
  · exact (returns_self _).bind fun _ _ => Atomic.plain fun _ => SharedFrame.noConfusion
  · exact (returns_self _).bind fun _ _ => Atomic.plain fun _ => SharedFrame.noConfusion

theorem cmdSet_atomic (args : List SharedByte) (st : OxidArt P (Value S)) : Atomic st (cmdSet args st) := by
  unfold cmdSet
  split
  · split
    · exact .refused
    · split
      · exact setWith_atomic _ _ _ _
      · refine (returns_self _).bind fun p _ => ?_
        dsimp only
        split
        · exact Atomic.plain fun _ => SharedFrame.noConfusion
        · exact Atomic.plain fun _ => SharedFrame.noConfusion
        · exact setWith_atomic _ _ _ _
  · exact .refused

theorem cmdSetnx_atomic (args : List SharedByte) (st : OxidArt P (Value S)) : Atomic st (cmdSetnx args st) := by
  unfold cmdSetnx
  split
  · refine (returns_self _).bind fun p _ => ?_
    dsimp only
    split
    · exact Atomic.plain fun _ => SharedFrame.noConfusion
    · exact (returns_self _).bind fun _ _ => Atomic.plain fun _ => SharedFrame.noConfusion
  · exact .refused

theorem cmdSetex_atomic (args : List SharedByte) (st : OxidArt P (Value S)) : Atomic st (cmdSetex args st) := by
  unfold cmdSetex
  split
  · split
    · exact .refused
    · exact (returns_self _).bind fun _ _ => Atomic.plain fun _ => SharedFrame.noConfusion
  · exact .refused

theorem cmdMget_atomic (args : List SharedByte) (st : OxidArt P (Value S)) : Atomic st (cmdMget args st) := by
  unfold cmdMget
  split
  · exact .refused
  · exact answer_plain (fun _ _ => SharedFrame.noConfusion) _

theorem cmdMset_atomic (args : List SharedByte) (st : OxidArt P (Value S)) : Atomic st (cmdMset args st) := by
  unfold cmdMset
  split
  · exact .refused
  · exact (returns_self _).bind fun _ _ => Atomic.plain fun _ => SharedFrame.noConfusion

theorem countHits_atomic (name : String) (act : OxidArt P (Value S) → SharedByte → Exec (Option (Value S) × OxidArt P (Value S)))
    (args : List SharedByte) (st : OxidArt P (Value S)) : Atomic st (countHits name act args st) := by
  unfold countHits
  split
  · exact .refused
  · exact answer_plain (fun _ _ => SharedFrame.noConfusion) _

theorem cmdType_atomic (args : List SharedByte) (st : OxidArt P (Value S)) : Atomic st (cmdType args st) := by
  cases args with
  | nil => exact .refused
  | cons key _ => exact (returns_self _).map fun p _ text failed => SharedFrame.noConfusion failed

/-! ## Counters and expiry -/

theorem count_atomic (st : OxidArt P (Value S)) (key : SharedByte) (delta : Int64) : Atomic st (count st key delta) := by
  refine answer_refusals ?_ (incrby_intact st key delta)
  intro n text
  exact SharedFrame.noConfusion

theorem cmdIncrby_atomic (args : List SharedByte) (st : OxidArt P (Value S)) : Atomic st (cmdIncrby args st) := by
  unfold cmdIncrby
  split
  · split
    · exact .refused
    · exact count_atomic st _ _
  · exact .refused

theorem cmdDecrby_atomic (args : List SharedByte) (st : OxidArt P (Value S)) : Atomic st (cmdDecrby args st) := by
  unfold cmdDecrby
  split
  · split
    · exact .refused
    · exact count_atomic st _ _
  · exact .refused

theorem timeToLive_atomic (name : String) (unit : Nat) (args : List SharedByte) (st : OxidArt P (Value S)) :
    Atomic st (timeToLive name unit args st) := by
  unfold timeToLive
  split
  · exact .refused
  · refine (returns_self _).bind fun ttl _ => ?_
    split
    · exact Atomic.refused
    · exact Atomic.refused
    · exact Atomic.refused

theorem expireIn_atomic (name : String) (refused : SharedFrame) (duration : Nat → Duration) (args : List SharedByte)
    (st : OxidArt P (Value S)) : Atomic st (expireIn name refused duration args st) := by
  unfold expireIn
  split
  · split
    · exact .refused
    · exact answer_plain (fun _ _ => SharedFrame.noConfusion) _
  · exact .refused

/-! ## Containers -/

theorem withKey_atomic (name : String) (args : List SharedByte) {run : SharedByte → Answer P S}
    (atomic : ∀ key, Atomic st (run key)) : Atomic st (withKey name args st run) := by
  unfold withKey
  split
  · exact .refused
  · exact atomic _

theorem withField_atomic (name : String) (args : List SharedByte) {run : SharedByte → SharedByte → Answer P S}
    (atomic : ∀ key field, Atomic st (run key field)) : Atomic st (withField name args st run) := by
  unfold withField
  split
  · exact atomic _ _
  · exact .refused

theorem withItems_atomic (name : String) (args : List SharedByte) {run : SharedByte → List SharedByte → Answer P S}
    (atomic : ∀ key items, Atomic st (run key items)) : Atomic st (withItems name args st run) := by
  unfold withItems
  split
  · exact atomic _ _
  · exact .refused

theorem withPairs_atomic (name : String) (args : List SharedByte) {run : SharedByte → List (SharedByte × SharedByte) → Answer P S}
    (atomic : ∀ key pairs, Atomic st (run key pairs)) : Atomic st (withPairs name args st run) := by
  unfold withPairs
  split
  · split
    · exact .refused
    · exact atomic _ _
  · exact .refused

theorem orInternal_atomic {frame : α → SharedFrame} (plain : Plain frame)
    {run : Exec (Except TypeError α × OxidArt P (Value S))} (intact : Returns (Intact st) run) :
    Atomic st (answer (orInternal frame) run) := answer_refusals plain intact

theorem orWrongType_atomic {frame : α → SharedFrame} (plain : Plain frame)
    {run : Exec (Except ε α × OxidArt P (Value S))} (intact : Returns (Intact st) run) :
    Atomic st (answer (orWrongType frame) run) := answer_refusals plain intact

theorem orExpected_atomic (expected : String) {frame : α → SharedFrame} (plain : Plain frame)
    {run : Exec (Except RedisType α × OxidArt P (Value S))} (intact : Returns (Intact st) run) :
    Atomic st (answer (orExpected expected frame) run) := answer_refusals plain intact

theorem plain_count32 : Plain count32 := fun _ _ => SharedFrame.noConfusion

theorem plain_boolean : Plain boolean := fun _ _ => SharedFrame.noConfusion

theorem plain_bulks : Plain bulks := fun _ _ => SharedFrame.noConfusion

theorem cmdHset_intact (st : OxidArt P (Value S)) (key : SharedByte) (fieldValues : List (SharedByte × SharedByte)) :
    Returns (Intact st) (st.cmdHset key fieldValues none) :=
  changeIn_intact (getHashMut_opens st none key) .hash rfl

theorem cmdHset_atomic (args : List SharedByte) (st : OxidArt P (Value S)) : Atomic st (cmdHset args st) :=
  withPairs_atomic "HSET" args fun key pairs => orInternal_atomic plain_count32 (cmdHset_intact st key pairs)

theorem cmdHmset_atomic (args : List SharedByte) (st : OxidArt P (Value S)) : Atomic st (cmdHmset args st) :=
  withPairs_atomic "HMSET" args fun key pairs =>
    orInternal_atomic (fun _ _ => SharedFrame.noConfusion) (cmdHset_intact st key pairs)

theorem cmdHget_atomic (args : List SharedByte) (st : OxidArt P (Value S)) : Atomic st (cmdHget args st) :=
  withField_atomic "HGET" args fun _ _ => orWrongType_atomic plain_bulkOrNull (readAs_intact st _ _ _ _)

theorem cmdHgetall_atomic (order : HashOrder) (args : List SharedByte) (st : OxidArt P (Value S)) : Atomic st (cmdHgetall order args st) :=
  withKey_atomic "HGETALL" args fun _ => orWrongType_atomic plain_bulks (readAs_intact st _ _ _ _)

theorem cmdHdel_atomic (args : List SharedByte) (st : OxidArt P (Value S)) : Atomic st (cmdHdel args st) :=
  withItems_atomic "HDEL" args fun _ _ => orWrongType_atomic plain_count32 (removeFrom_intact st _ _ _ _ _ _)

theorem cmdHexists_atomic (args : List SharedByte) (st : OxidArt P (Value S)) : Atomic st (cmdHexists args st) :=
  withField_atomic "HEXISTS" args fun _ _ => orWrongType_atomic plain_boolean (readAs_intact st _ _ _ _)

theorem cmdHlen_atomic (args : List SharedByte) (st : OxidArt P (Value S)) : Atomic st (cmdHlen args st) :=
  withKey_atomic "HLEN" args fun _ => orWrongType_atomic plain_count32 (readAs_intact st _ _ _ _)

theorem cmdHkeys_atomic (order : HashOrder) (args : List SharedByte) (st : OxidArt P (Value S)) : Atomic st (cmdHkeys order args st) :=
  withKey_atomic "HKEYS" args fun _ => orWrongType_atomic plain_bulks (readAs_intact st _ _ _ _)

theorem cmdHvals_atomic (order : HashOrder) (args : List SharedByte) (st : OxidArt P (Value S)) : Atomic st (cmdHvals order args st) :=
  withKey_atomic "HVALS" args fun _ => orWrongType_atomic plain_bulks (readAs_intact st _ _ _ _)

theorem cmdHmget_atomic (args : List SharedByte) (st : OxidArt P (Value S)) : Atomic st (cmdHmget args st) :=
  withItems_atomic "HMGET" args fun _ _ =>
    orWrongType_atomic (fun _ _ => SharedFrame.noConfusion) (readAs_intact st _ _ _ _)

/-- A field that is missing counts as 0, so a new hash accepts every increment. -/
theorem cmdHincrby_intact (st : OxidArt P (Value S)) (key field : SharedByte) (increment : Int64) :
    Returns (Intact st) (st.cmdHincrby key field increment) := by
  refine changeIn_intact (getHashMut_opens st none key) .hash ?_
  have fits : checkedAdd 0 increment = some increment := by
    have low := increment.le_toInt
    have high := increment.toInt_lt
    unfold checkedAdd
    simp only [Int64.toInt_zero, Int.zero_add]
    rw [if_pos ⟨low, high⟩, Int64.ofInt_toInt]
  simp only [InnerHCommand.new, InnerHCommand.get, List.lookup_nil, Option.bind_some, fits]
  rfl

theorem cmdHincrby_atomic (args : List SharedByte) (st : OxidArt P (Value S)) : Atomic st (cmdHincrby args st) := by
  unfold cmdHincrby
  split
  · split
    · exact .refused
    · exact orWrongType_atomic (fun _ _ failed => SharedFrame.noConfusion failed) (cmdHincrby_intact st _ _ _)
  · exact .refused

theorem cmdSadd_atomic (args : List SharedByte) (st : OxidArt P (Value S)) : Atomic st (cmdSadd args st) :=
  withItems_atomic "SADD" args fun key _ =>
    orInternal_atomic plain_count32 (changeIn_intact (getBtreeSetMut_opens st none key) .set rfl)

theorem cmdSrem_atomic (args : List SharedByte) (st : OxidArt P (Value S)) : Atomic st (cmdSrem args st) :=
  withItems_atomic "SREM" args fun _ _ =>
    orExpected_atomic "set" plain_count32 (removeFrom_intact st _ _ _ _ _ _)

theorem cmdSismember_atomic (args : List SharedByte) (st : OxidArt P (Value S)) : Atomic st (cmdSismember args st) :=
  withField_atomic "SISMEMBER" args fun _ _ =>
    orExpected_atomic "set" plain_boolean (readAs_intact st _ _ _ _)

theorem cmdScard_atomic (args : List SharedByte) (st : OxidArt P (Value S)) : Atomic st (cmdScard args st) :=
  withKey_atomic "SCARD" args fun _ => orExpected_atomic "set" plain_count32 (readSet_intact st _ _ _)

theorem cmdSmembers_atomic (args : List SharedByte) (st : OxidArt P (Value S)) : Atomic st (cmdSmembers args st) :=
  withKey_atomic "SMEMBERS" args fun _ => orExpected_atomic "set" plain_bulks (readSet_intact st _ _ _)

theorem cmdSpop_intact (st : OxidArt P (Value S)) (key : SharedByte) (count : Option SharedByte) :
    Returns (Intact st) (st.cmdSpop key count) := by
  unfold OxidArt.cmdSpop
  split
  · exact .ok .same
  · refine changeIn_intact (getBtreeSetMut_opens st none key) .set ?_
    dsimp only
    split
    · rfl
    · rfl

theorem cmdSpop_atomic (args : List SharedByte) (st : OxidArt P (Value S)) : Atomic st (cmdSpop args st) := by
  refine withKey_atomic "SPOP" args fun key => answer_refusals ?_ (cmdSpop_intact st key args[1]?)
  intro res text
  cases res with
  | single member => exact plain_bulkOrNull member text
  | multiple members => exact plain_bulks members text

theorem cmdZadd_atomic (parseF64 : SharedByte → Option S) (args : List SharedByte) (st : OxidArt P (Value S)) :
    Atomic st (cmdZadd parseF64 args st) := by
  refine withPairs_atomic "ZADD" args fun key pairs => ?_
  split
  · exact .refused
  · refine orInternal_atomic plain_count32 ?_
    exact changeIn_intact (getZsetMut_opens st none key) .zset rfl

theorem cmdZcard_atomic (args : List SharedByte) (st : OxidArt P (Value S)) : Atomic st (cmdZcard args st) := by
  unfold cmdZcard
  split
  · exact orExpected_atomic "zset" plain_count32 (readAs_intact st _ _ _ _)
  · exact .refused

theorem cmdZrange_atomic (args : List SharedByte) (st : OxidArt P (Value S)) : Atomic st (cmdZrange args st) := by
  unfold cmdZrange
  split
  · split
    · exact orExpected_atomic "zset" plain_bulks (readAs_intact st _ _ _ _)
    · exact .refused
  · exact .refused

theorem cmdZscore_atomic (args : List SharedByte) (st : OxidArt P (Value S)) : Atomic st (cmdZscore args st) := by
  unfold cmdZscore
  split
  · exact orExpected_atomic "zset" (fun _ => plain_bulkOrNull _) (readAs_intact st _ _ _ _)
  · exact .refused

theorem cmdZrem_atomic (args : List SharedByte) (st : OxidArt P (Value S)) : Atomic st (cmdZrem args st) :=
  withItems_atomic "ZREM" args fun _ _ =>
    orExpected_atomic "zset" plain_count32 (removeFrom_intact st _ _ _ _ _ _)

theorem cmdZincrby_atomic (parseF64 : SharedByte → Option S) (args : List SharedByte) (st : OxidArt P (Value S)) :
    Atomic st (cmdZincrby parseF64 args st) := by
  unfold cmdZincrby
  split
  · split
    · exact .refused
    · refine orInternal_atomic (fun _ _ => SharedFrame.noConfusion) ?_
      exact changeIn_intact (getZsetMut_opens st none _) .zset rfl
  · exact .refused

/-! ## All data commands -/

theorem DataFn.run_atomic (lib : Library S) (f : DataFn) (args : List SharedByte) (st : OxidArt P (Value S)) :
    Atomic st (f.run lib args st) := by
  cases f with
  | cmdGet => exact cmdGet_atomic args st
  | cmdSet => exact cmdSet_atomic args st
  | cmdSetnx => exact cmdSetnx_atomic args st
  | cmdSetex => exact cmdSetex_atomic args st
  | cmdMget => exact cmdMget_atomic args st
  | cmdMset => exact cmdMset_atomic args st
  | cmdDel => exact countHits_atomic "DEL" OxidArt.del args st
  | cmdExists => exact countHits_atomic "EXISTS" OxidArt.get args st
  | cmdType => exact cmdType_atomic args st
  | cmdIncr =>
    cases args with
    | nil => exact .refused
    | cons key _ => exact count_atomic st key 1
  | cmdDecr =>
    cases args with
    | nil => exact .refused
    | cons key _ => exact count_atomic st key (-1)
  | cmdIncrby => exact cmdIncrby_atomic args st
  | cmdDecrby => exact cmdDecrby_atomic args st
  | cmdTtl => exact timeToLive_atomic "TTL" 1 args st
  | cmdPttl => exact timeToLive_atomic "PTTL" 1000 args st
  | cmdExpire => exact expireIn_atomic _ _ _ args st
  | cmdPexpire => exact expireIn_atomic _ _ _ args st
  | cmdPersist =>
    cases args with
    | nil => exact .refused
    | cons key _ => exact answer_plain plain_boolean _
  | cmdHset => exact cmdHset_atomic args st
  | cmdHmset => exact cmdHmset_atomic args st
  | cmdHget => exact cmdHget_atomic args st
  | cmdHgetall => exact cmdHgetall_atomic lib.order args st
  | cmdHdel => exact cmdHdel_atomic args st
  | cmdHexists => exact cmdHexists_atomic args st
  | cmdHlen => exact cmdHlen_atomic args st
  | cmdHkeys => exact cmdHkeys_atomic lib.order args st
  | cmdHvals => exact cmdHvals_atomic lib.order args st
  | cmdHmget => exact cmdHmget_atomic args st
  | cmdHincrby => exact cmdHincrby_atomic args st
  | cmdSadd => exact cmdSadd_atomic args st
  | cmdSrem => exact cmdSrem_atomic args st
  | cmdSismember => exact cmdSismember_atomic args st
  | cmdScard => exact cmdScard_atomic args st
  | cmdSmembers => exact cmdSmembers_atomic args st
  | cmdSpop => exact cmdSpop_atomic args st
  | cmdZadd => exact cmdZadd_atomic lib.parseF64 args st
  | cmdZcard => exact cmdZcard_atomic args st
  | cmdZrange => exact cmdZrange_atomic args st
  | cmdZscore => exact cmdZscore_atomic args st
  | cmdZrem => exact cmdZrem_atomic args st
  | cmdZincrby => exact cmdZincrby_atomic lib.parseF64 args st

/-- When a data command answers with an error, every key has the live value and the expiry it had before. -/
theorem live_of_error_reply (lib : Library S) (f : DataFn) (args : List SharedByte) (st st' : OxidArt P (Value S))
    (text : SharedByte) (ran : f.run lib args st = .ok (.error text, st')) (key : SharedByte) : st'.live key = st.live key := by
  have same : st' = st := (f.run_atomic lib args st).of_ok ran text rfl
  rw [same]

/-- A store with a set under `a`. -/
def setHolder : OxidArt Policy.lowest (Value Int) :=
  match DataFn.cmdSadd.run ⟨.stored, fun _ => none⟩ [ascii "a", ascii "x"] .new with
  | .ok (_, st) => st
  | .error _ => .new

/-- `HSET` on a set is refused, and the set is still there. -/
theorem live_of_error_reply_setHolder : ∃ st',
    DataFn.cmdHset.run ⟨.stored, fun _ => none⟩ [ascii "a", ascii "f", ascii "v"] setHolder = .ok (wrongType, st') ∧
    (setHolder.live (ascii "a")).isSome = true ∧ ∀ key, st'.live key = setHolder.live key := by
  have refused : (DataFn.cmdHset.run ⟨.stored, fun _ => none⟩ [ascii "a", ascii "f", ascii "v"] setHolder).map Prod.fst =
      .ok wrongType := by rfl
  cases ran : DataFn.cmdHset.run ⟨.stored, fun _ => none⟩ [ascii "a", ascii "f", ascii "v"] setHolder with
  | error e =>
    rw [ran] at refused
    cases refused
  | ok p =>
    obtain ⟨frame, st'⟩ := p
    rw [ran] at refused
    obtain rfl : frame = wrongType := Except.ok.inj refused
    exact ⟨st', rfl, by decide +kernel, live_of_error_reply _ _ _ _ st' _ ran⟩

end Radixox.Server.Resp
