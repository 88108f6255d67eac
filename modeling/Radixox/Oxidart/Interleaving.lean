import Radixox.Oxidart.Deletions
import Radixox.Oxidart.Reference

/-!
# Other tasks between two polls

A cooperative command gives way between two of its chunks, and what other tasks do to the store
happens there. `Interleaved` is such a run from the first poll on. The reference map takes the same
operations. While the clock does not go back, it shows a reader what the store shows, no matter
which expired entries a lookup or an eviction has dropped.
-/

namespace Radixox.Oxidart
set_option autoImplicit false
open Radixox.Runs OxidArt

/-- A turn of the event loop: an operation of another task, or a poll of the future. -/
inductive Turn (V : Type) where
  | op (o : TreeOp V)
  | poll

def Turn.operation? {V : Type} : Turn V → Option (TreeOp V)
  | .op o => some o
  | .poll => none

/-- What the other tasks do in a run. -/
def Turn.operations {V : Type} (turns : List (Turn V)) : List (TreeOp V) := turns.filterMap Turn.operation?

/-- The store, and the future as its last poll left it. -/
structure Interleaved (P : Policy) (V τ α : Type) where
  store : OxidArt P V
  future : Poll τ α

/-- One turn; a future that is ready is not polled again. -/
def Interleaved.turn {P : Policy} {V τ α : Type} (poll : OxidArt P V → τ → Exec (Poll τ α × OxidArt P V))
    (s : Interleaved P V τ α) : Turn V → Exec (Option (TreeReply V) × Interleaved P V τ α)
  | .op o => do
    let (reply, st) ← s.store.execTree o
    return (some reply, { s with store := st })
  | .poll => match s.future with
    | .pending task => do
      let (future, st) ← poll s.store task
      return (none, ⟨st, future⟩)
    | .ready _ => .ok (none, s)

section Operations

variable {P : Policy} {V : Type}

/-- The key that an operation writes. -/
def TreeOp.writes : TreeOp V → Option Bytes
  | .set key _ | .setTtl key .. => some key
  | _ => none

def TreeOp.written (ops : List (TreeOp V)) : List Bytes := ops.filterMap TreeOp.writes

/-- The root has an expiry that the clock has passed. -/
def OxidArt.RootExpired (st : OxidArt P V) : Prop :=
  ∃ root, st.tryGetNode st.rootIdx = some root ∧ root.isExpired st.now = true

/-- The operations of other tasks over ASCII keys and expiries that fit the field, with a clock that does not go back and exact
evictions, and where clearing the empty key does not make the root absorb a child. -/
def TreeOp.Orderly (st : OxidArt P V) : TreeOp V → Prop
  | .set key _ => KeyOk key
  | .setTtl key ttl _ => KeyOk key ∧ st.now + ttl < 2 ^ 56 - 1
  | .del key => key = [] → ¬ st.Absorbs
  | .get key => key = [] → st.RootExpired → ¬ st.Absorbs
  | .setNow later => st.now ≤ later
  | .evict draws => ExactEviction st draws
  | _ => False

end Operations

/-! ## The reference -/

namespace Ref

variable {V : Type} {ref ref' ref'' : Ref V} {K : Bytes → Prop}

/-- The same clock, and the same live entries under the keys of `K`. -/
structure AgreesOn (K : Bytes → Prop) (ref ref' : Ref V) : Prop where
  now : ref.now = ref'.now
  live : ∀ k, K k → ref.live k = ref'.live k

theorem AgreesOn.of_table (now : ref.now = ref'.now) (table : ∀ k, K k → ref.table k = ref'.table k) : AgreesOn K ref ref' :=
  ⟨now, fun k inside => by rw [Ref.live, Ref.live, now, table k inside]⟩

theorem AgreesOn.trans (first : AgreesOn K ref ref') (second : AgreesOn K ref' ref'') : AgreesOn K ref ref'' :=
  ⟨first.now.trans second.now, fun k inside => (first.live k inside).trans (second.live k inside)⟩

theorem AgreesOn.mono {L : Bytes → Prop} (agrees : AgreesOn K ref ref') (fewer : ∀ k, L k → K k) : AgreesOn L ref ref' :=
  ⟨agrees.now, fun k inside => agrees.live k (fewer k inside)⟩

theorem AgreesOn.get (agrees : AgreesOn K ref ref') {k : Bytes} (inside : K k) : ref.get k = ref'.get k := by
  rw [Ref.get, Ref.get, agrees.live k inside]

/-- A write puts its key among those that agree. -/
theorem AgreesOn.put (agrees : AgreesOn K ref ref') (key : Bytes) (e : Option (V × Option Nat)) :
    AgreesOn (fun k => K k ∨ key = k) (ref.put key e) (ref'.put key e) := by
  refine ⟨agrees.now, fun k inside => ?_⟩
  rw [live_put, live_put, agrees.now]
  by_cases here : k = key
  · rw [here, Function.update_self, Function.update_self]
  · rw [Function.update_of_ne here, Function.update_of_ne here]
    exact agrees.live k (inside.resolve_right (Ne.symm here))

/-- What agrees goes on to agree as time passes. -/
theorem AgreesOn.setNow {later : Nat} (agrees : AgreesOn K ref ref') (forward : ref.now ≤ later) :
    AgreesOn K (ref.next (.setNow later)) (ref'.next (.setNow later)) := by
  refine ⟨rfl, fun k inside => ?_⟩
  have same : liveAt ref.now (ref.table k) = liveAt ref'.now (ref'.table k) := agrees.live k inside
  have forward' : ref'.now ≤ later := agrees.now ▸ forward
  calc (ref.next (.setNow later)).live k = liveAt later (liveAt ref.now (ref.table k)) := (liveAt_liveAt forward _).symm
    _ = liveAt later (liveAt ref'.now (ref'.table k)) := by rw [same]
    _ = (ref'.next (.setNow later)).live k := liveAt_liveAt forward' _

end Ref

namespace OxidArt

variable {P : Policy} {V : Type} {st st' : OxidArt P V} {cut : List Nat} {path : Nat → Option Bytes}

/-- The entries of a store as a reference map. -/
def asRef (st : OxidArt P V) : Ref V := ⟨st.entry, st.now⟩

theorem asRef_put {key : Bytes} {e : Option (V × Option Nat)} (stays : Stays st st')
    (entries : st'.entry = Function.update st.entry key e) : st'.asRef = st.asRef.put key e := by
  rw [asRef, entries, stays.now]
  rfl

/-- Expired entries that go change nothing for a reader. -/
theorem asRef_sheds (stays : Stays st st') (sheds : Sheds st st') : st'.asRef.AgreesOn (fun _ => True) st.asRef :=
  ⟨stays.now, fun k _ => congrFun (sheds.live stays.now) k⟩

/-- A lookup drops at most an expired entry, unless the root absorbs a child. -/
theorem Collects.sheds {key : Bytes} (collects : Collects st key st') (I : Inv st cut path)
    (calm : key = [] → st.RootExpired → ¬ st.Absorbs) : Sheds st st' := by
  rcases collects with sheds | ⟨rfl, root, found, past, run⟩
  · exact sheds
  · obtain ⟨st₁, -, run', -, -, entries⟩ := clearRoot_calm I found (calm rfl ⟨root, found, past⟩)
    obtain rfl := Except.ok.inj (run'.symm.trans run)
    intro k
    by_cases top : k = []
    · rw [entries, top, Function.update_self]
      exact .inr ⟨rfl, I.live_of_expired found past I.forest.rootPath⟩
    · rw [entries, Function.update_of_ne top]
      exact .inl rfl

/-- Detached trees stay detached under the operations of other tasks, and the tree shows what the map does. -/
theorem execTree_orderly (I : Inv st cut path) {op : TreeOp V} (orderly : op.Orderly st) :
    ∃ reply st' path', st.execTree op = .ok (reply, st') ∧ Inv st' cut path' ∧
      st'.asRef.AgreesOn (fun _ => True) (st.asRef.next op) := by
  have same : ∀ {ref ref' : Ref V}, ref = ref' → ref.AgreesOn (fun _ => True) ref' := by
    rintro ref _ rfl
    exact .of_table rfl fun _ _ => rfl
  cases op with
  | set key v =>
    obtain ⟨st', path', run, step, entries⟩ := setInternal_ok I (fun _ => True) orderly
      (show ExpAndRadix.noExp < 2 ^ 56 by decide) v
    refine ⟨.done, st', path', ?_, step.inv, same (asRef_put step.stays entries)⟩
    simp only [execTree, OxidArt.set, run, bind, Except.bind]
    rfl
  | setTtl key ttl v =>
    obtain ⟨bytes, small⟩ := orderly
    have sum := saturatingAdd_eq small
    obtain ⟨st', path', run, step, entries⟩ := setInternal_ok I (fun _ => True) bytes
      (show saturatingAdd st.now ttl < 2 ^ 56 by omega) v
    rw [sum, expOf_eq small] at entries
    refine ⟨.done, st', path', ?_, step.inv, same (asRef_put step.stays entries)⟩
    simp only [execTree, OxidArt.setTtl, run, bind, Except.bind]
    rfl
  | del key =>
    obtain ⟨st', path', run, I', stays, entries⟩ := del_calm I orderly
    exact ⟨_, st', path', by simp only [execTree, run, bind, Except.bind]; rfl, I', same (asRef_put stays entries)⟩
  | get key =>
    obtain ⟨v, st', run, ⟨stays, path', I'⟩, collects⟩ := get_keeps I key
    exact ⟨_, st', path', by simp only [execTree, run, bind, Except.bind]; rfl, I', asRef_sheds stays (collects.sheds I orderly)⟩
  | setNow now =>
    refine ⟨.done, st.setNow now, path, rfl, I.setNow now, same ?_⟩
    show (st.setNow now).asRef = { st.asRef with now := now }
    rw [asRef, entry_setNow I]
    rfl
  | evict draws =>
    obtain ⟨n, st', path', run, E⟩ := evictExpired_ok I orderly
    exact ⟨_, st', path', by simp only [execTree, run, bind, Except.bind]; rfl, E.step.inv, asRef_sheds E.step.stays E.sheds⟩
  | expire | persist | getTtl | getn | deln => exact absurd orderly (fun h => h)

/-- A map that agrees with the tree goes on to, and then also on the key written. -/
theorem agreesOn_next {K : Bytes → Prop} {ref : Ref V} {op : TreeOp V} (orderly : op.Orderly st) (agrees : st.asRef.AgreesOn K ref) :
    (st.asRef.next op).AgreesOn (fun k => K k ∨ op.writes = some k) (ref.next op) := by
  have unwritten : ∀ {a b : Ref V}, op.writes = none → a.AgreesOn K b → a.AgreesOn (fun k => K k ∨ op.writes = some k) b := by
    intro a b writes same
    refine same.mono fun k inside => inside.resolve_right ?_
    rw [writes]
    exact (Option.some_ne_none k).symm
  cases op with
  | set key v =>
    simp only [TreeOp.writes, Option.some.injEq]
    exact agrees.put key _
  | setTtl key ttl v =>
    simp only [TreeOp.writes, Option.some.injEq, Ref.next, agrees.now]
    exact agrees.put key _
  | del key => exact unwritten rfl ((agrees.put key none).mono fun k inside => .inl inside)
  | setNow later => exact unwritten rfl (agrees.setNow orderly)
  | get | evict => exact unwritten rfl agrees
  | expire | persist | getTtl | getn | deln => exact absurd orderly (fun h => h)

end OxidArt

end Radixox.Oxidart
