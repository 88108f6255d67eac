import Radixox.Lib.Outcomes
import Radixox.Oxidart.Async
import Radixox.Oxidart.Operations

/-!
# Invariants of the links

What an invariant has to survive when it speaks of the links of nodes only: a write of other fields, an unlinking, a recompression,
a freed node, and the two functions that link a new node. `Upkeep` collects these; everything else that the store offers is put
together from them, so an invariant with an `Upkeep` holds after every command.
-/

namespace Radixox.Oxidart
set_option autoImplicit false
open Radixox.Outcomes

/-- The panics of the functions that link a child. -/
def Panic.Linking : Panic → Prop
  | .childsPush | .overflowIdx | .bigOverflowIdx | .hugeFull | .freeHead => True
  | .getNode | .ensureKey | .expTooLarge | .index | .unwrapNone | .stackOverflow => False

/-- The key that a command may have to link. -/
def Command.links {S : Type} [Score S] : Command S → Option Bytes
  | .tree (.set key _) | .tree (.setTtl key ..) | .incrby key _ | .hset key .. | .hincrby key .. | .spop key _ | .sadd key ..
  | .zadd key .. | .zincrby key .. => some key
  | _ => none

namespace OxidArt

variable {P : Policy} {V : Type}

/-- The invariant `Φ` survives every step at which the panics `bad` are allowed; a key can be linked when it `fits`. -/
structure Upkeep (bad : Panic → Prop) (fits : OxidArt P V → Bytes → Prop) (Φ : OxidArt P V → Prop) : Prop where
  panics : ∀ {e}, ¬ e.Linking → bad e
  setNode : ∀ {st i n n'}, Φ st → st.tryGetNode i = some n → n'.childs = n.childs → n'.overflowIdx = n.overflowIdx →
    n'.compression = n.compression → Φ (st.setNode i n')
  clearInline : ∀ {st i n n'}, Φ st → st.tryGetNode i = some n → n'.childs = .default → n'.overflowIdx = n.overflowIdx →
    n'.compression = n.compression → Φ (st.setNode i n')
  same : ∀ {st st'}, Φ st → SameTree st st' → Φ st'
  setNow : ∀ {st now}, Φ st → Φ (st.setNow now)
  removeLeaf : ∀ {st i n}, Φ st → st.tryGetNode i = some n → n.hasChildren = false → Φ (st.removeNode i)
  removeChild : ∀ {st}, Φ st → ∀ p r, Φ (st.removeChild p r)
  freeNode : ∀ {st i children hasVal st'}, Φ st → st.freeNode i = some (children, hasVal, st') → Φ st'
  tryRecompress : ∀ {st}, Φ st → ∀ i, Yields bad Φ (st.tryRecompress i)
  setInternal : ∀ {st key}, Φ st → fits st key → ∀ ttl v, Yields bad Φ (st.setInternal key ttl v)
  ensureKey : ∀ {st key}, Φ st → fits st key → Yields bad (fun q => Φ q.2) (st.ensureKey key)

/-- A node is collected without a panic of its own. -/
theorem yields_collectNode (st : OxidArt P V) {collect : Nat → Bytes → Exec (List (Bytes × V))}
    {bad : Panic → Prop} (each : ∀ i path, Yields bad (fun _ => True) (collect i path)) (i : Nat) (n : Node V) (path : Bytes) :
    Yields bad (fun _ => True) (st.collectNode collect i n path) :=
  (Yields.mapM (fun q : UInt8 × Nat => each q.2 _) _).bind fun _ _ => .ok trivial

namespace Upkeep

variable {bad : Panic → Prop} {fits : OxidArt P V → Bytes → Prop} {Φ : OxidArt P V → Prop} (U : Upkeep bad fits Φ)

include U

theorem getNode (st : OxidArt P V) (i : Nat) : Yields bad (fun n => st.tryGetNode i = some n) (st.getNode i) := by
  unfold OxidArt.getNode
  cases found : st.tryGetNode i with
  | none => exact .error (U.panics id)
  | some n => exact .ok rfl

theorem setExp (e : ExpAndRadix) (exp : Nat) : Yields bad (fun _ => True) (e.setExp exp) := by
  unfold ExpAndRadix.setExp
  split
  · exact .ok trivial
  · exact .error (U.panics id)

/-- The freeing loop frees what it pops. -/
theorem freeLoop (fuel : Nat) : ∀ {st : OxidArt P V}, Φ st → ∀ budget stack count, Φ (OxidArt.freeLoop fuel budget st stack count).2.2 := by
  induction fuel with
  | zero => exact fun holds _ _ _ => holds
  | succ fuel ih =>
    intro st holds budget stack count
    unfold OxidArt.freeLoop
    split
    · exact holds
    · cases stack.getLast? with
      | none => exact holds
      | some i =>
        cases freed : st.freeNode i with
        | none =>
          simp only [freed]
          exact ih holds _ _ _
        | some q =>
          obtain ⟨children, hasVal, st'⟩ := q
          simp only [freed]
          exact ih (U.freeNode holds freed) _ _ _

section State

variable {st : OxidArt P V} (holds : Φ st)

include holds

theorem clear {i : Nat} {n : Node V} (found : st.tryGetNode i = some n) :
    Yields bad Φ ((st.setNode i n.clearVal).tryRecompress i) := by
  have holds' : Φ (st.setNode i n.clearVal) := U.setNode holds found rfl rfl rfl
  exact U.tryRecompress holds' i

/-- A leaf leaves the slab and its parent. -/
theorem unlink {i : Nat} {n : Node V} (found : st.tryGetNode i = some n) (leaf : ¬ n.hasChildren = true) (p : Nat) (r : UInt8) :
    Φ ((st.removeNode i).removeChild p r) :=
  U.removeChild (U.removeLeaf holds found (by simpa using leaf)) p r

/-! ## Lookups -/

theorem deleteNodeInline (i p : Nat) (r : UInt8) : Yields bad Φ (st.deleteNodeInline i p r) := by
  refine (U.getNode st i).bind fun n found => ?_
  split
  · exact U.clear holds found
  next leaf =>
    have holds' := U.unlink holds found leaf p r
    dsimp only
    split
    · exact U.tryRecompress holds' p
    · exact .ok holds'

theorem getIdx (key : Bytes) : Yields bad (fun q => Φ q.2) (st.getIdx key) := by
  unfold OxidArt.getIdx
  split
  · refine (U.getNode st _).bind fun root found => ?_
    split
    · exact (U.clear holds found).bind fun _ holds' => .ok holds'
    · exact .ok holds
  · split
    next i p r _ _ =>
      refine (U.getNode st i).bind fun n _ => ?_
      split
      · exact (U.deleteNodeInline holds i p r).bind fun _ holds' => .ok holds'
      · exact .ok holds
    · exact .ok holds

theorem get (key : Bytes) : Yields bad (fun q => Φ q.2) (st.get key) := by
  refine (U.getIdx holds key).bind fun q holds' => ?_
  obtain ⟨i, st'⟩ := q
  cases i with
  | none => exact .ok holds'
  | some i => exact (U.getNode st' i).bind fun _ _ => .ok holds'

theorem getMut (key : Bytes) : Yields bad (fun q => Φ q.2) (st.getMut key) := by
  refine (U.getIdx holds key).bind fun q holds' => ?_
  obtain ⟨i, st'⟩ := q
  cases i with
  | none => exact .ok holds'
  | some i => exact (U.getNode st' i).bind fun _ _ => .ok holds'

/-! ## Expiries -/

theorem expire (key : Bytes) (ttl : Nat) : Yields bad (fun q => Φ q.2) (st.expire key ttl) := by
  unfold OxidArt.expire
  split
  · exact .ok holds
  next i _ =>
    refine (U.getNode st i).bind fun n found => ?_
    split
    · exact .ok holds
    · refine (U.setExp n.expAndRadix _).bind fun e _ => .ok ?_
      have holds' : Φ (st.setNode i { n with expAndRadix := e }) := U.setNode holds found rfl rfl rfl
      dsimp only
      split
      · exact U.same holds' (sameTree_tag _ i)
      · exact holds'

theorem persist (key : Bytes) : Yields bad (fun q => Φ q.2) (st.persist key) := by
  unfold OxidArt.persist
  split
  · exact .ok holds
  next i _ =>
    refine (U.getNode st i).bind fun n found => ?_
    split
    · have holds' : Φ (st.setNode i { n with expAndRadix := n.expAndRadix.setNoExpiracy }) := U.setNode holds found rfl rfl rfl
      dsimp only
      split
      · exact .ok (U.same holds' (sameTree_untag _ i))
      · exact .ok holds'
    · exact .ok holds

/-! ## Deletions -/

theorem del (key : Bytes) : Yields bad (fun q => Φ q.2) (st.del key) := by
  unfold OxidArt.del
  split
  · exact (U.getNode st _).bind fun root found => (U.clear holds found).bind fun _ holds' => .ok holds'
  · split
    next i p r _ _ =>
      refine (U.getNode st i).bind fun n found => ?_
      split
      · split
        · exact .ok holds
        · exact (U.clear holds found).bind fun _ holds' => .ok holds'
      next leaf =>
        have holds' := U.unlink holds found leaf p r
        dsimp only
        split
        · exact (U.tryRecompress holds' p).bind fun _ holds'' => .ok holds''
        · exact .ok holds'
    · exact .ok holds

theorem freeSubtreeIterative (nodes : List Nat) : Φ (st.freeSubtreeIterative nodes).2 := U.freeLoop _ holds _ _ _

theorem delnSubtree (target parent : Nat) (radix : UInt8) : Yields bad (fun q => Φ q.2) (st.delnSubtree target parent radix) := by
  have holds' := U.freeSubtreeIterative (U.removeChild holds parent radix) [target]
  unfold OxidArt.delnSubtree
  dsimp only
  split
  · exact (U.tryRecompress holds' parent).bind fun _ holds'' => .ok holds''
  · exact .ok holds'

theorem deln (pfx : Bytes) : Yields bad (fun q => Φ q.2) (st.deln pfx) := by
  unfold OxidArt.deln
  split
  · refine (U.getNode st _).bind fun root found => .ok ?_
    have holds' : Φ (st.setNode st.rootIdx { root.clearVal with childs := .default }) := U.clearInline holds found rfl rfl rfl
    exact U.freeSubtreeIterative holds' _
  · split
    · exact U.delnSubtree holds _ _ _
    · split
      · exact U.delnSubtree holds _ _ _
      · exact .ok holds
    · exact .ok holds

/-! ## Cooperative deletion -/

theorem findAndCutPrefix (pfx : Bytes) : Yields bad (fun q => Φ q.2) (st.findAndCutPrefix pfx) := by
  unfold OxidArt.findAndCutPrefix
  split
  · refine (U.getNode st _).bind fun root found => .ok ?_
    have holds' : Φ (st.setNode st.rootIdx { root with childs := .default }) := U.clearInline holds found rfl rfl rfl
    exact holds'
  · split
    · exact .ok (U.removeChild holds _ _)
    · split
      · exact .ok (U.removeChild holds _ _)
      · exact .ok holds
    · exact .ok holds

theorem pollDeln (budget : Nat) (task : DelnTask) : Yields bad (fun q => Φ q.2) (st.pollDeln budget task) := by
  have holds' : Φ (st.freeChunk task.stack budget).2.2 := U.freeLoop _ holds _ _ _
  unfold OxidArt.pollDeln
  dsimp only
  split
  · split
    · exact (U.tryRecompress holds' _).bind fun _ holds'' => .ok holds''
    · exact .ok holds'
  · exact .ok holds'

theorem startDeln (budget : Nat) (pfx : Bytes) : Yields bad (fun q => Φ q.2) (st.startDeln budget pfx) := by
  refine (U.findAndCutPrefix holds pfx).bind fun q holds' => ?_
  obtain ⟨⟨stack, parent, initial⟩, st'⟩ := q
  dsimp only
  split
  · exact .ok holds'
  · exact U.pollDeln holds' budget _

/-! ## Active expiry -/

theorem deleteNodeForEviction (i p : Nat) (r : UInt8) : Yields bad Φ (st.deleteNodeForEviction i p r) := by
  unfold OxidArt.deleteNodeForEviction
  cases found : st.tryGetNode i with
  | none => exact .ok holds
  | some n =>
    dsimp only
    split
    · have holds' : Φ (st.setNode i n.clearVal) := U.setNode holds found rfl rfl rfl
      exact U.tryRecompress (U.same holds' (sameTree_untag _ i)) i
    next leaf =>
      have holds' := U.unlink holds found leaf p r
      split
      · exact U.tryRecompress holds' p
      · exact .ok holds'

theorem evictSampled (i : Nat) (n : Node V) : Yields bad (fun q => Φ q.2) (st.evictSampled i n) := by
  unfold OxidArt.evictSampled
  split
  · split
    · exact .ok holds
    · exact (U.deleteNodeForEviction holds i _ _).bind fun _ holds' => .ok holds'
  · exact .ok holds

end State

/-! ### The sampling loops -/

theorem evictCycle (draws : Nat → Nat) (turns : Nat) : ∀ {st : OxidArt P V}, Φ st →
    Yields bad (fun q => Φ q.2.2) (OxidArt.evictCycle draws turns st) := by
  induction turns with
  | zero => exact fun holds => .ok holds
  | succ turns ih =>
    intro st holds
    unfold OxidArt.evictCycle
    split
    · exact .ok holds
    next i n _ =>
      exact (U.evictSampled holds i n).bind fun q holds' => (ih holds').bind fun _ holds'' => .ok holds''

theorem evictRounds (draws : Nat → Nat → Nat) (rounds : Nat) : ∀ {st : OxidArt P V}, Φ st →
    Yields bad (fun q => Φ q.2) (OxidArt.evictRounds draws rounds st) := by
  induction rounds with
  | zero => exact fun holds => .ok holds
  | succ rounds ih =>
    intro st holds
    unfold OxidArt.evictRounds
    refine (U.evictCycle (draws rounds) SAMPLE_SIZE holds).bind fun q holds' => ?_
    obtain ⟨evicted, sampled, st'⟩ := q
    dsimp only
    split
    · exact .ok holds'
    · exact (ih holds').bind fun _ holds'' => .ok holds''

/-! ### Readers that change nothing -/

theorem collectAll (st : OxidArt P V) (fuel : Nat) : ∀ i path, Yields bad (fun _ => True) (st.collectAll fuel i path) := by
  induction fuel with
  | zero => exact fun _ _ => .error (U.panics id)
  | succ fuel ih =>
    intro i path
    unfold OxidArt.collectAll
    split
    · exact .ok trivial
    · exact yields_collectNode st ih _ _ _

theorem getn (st : OxidArt P V) (pfx : Bytes) : Yields bad (fun _ => True) (st.getn pfx) := by
  unfold OxidArt.getn
  dsimp only
  split
  · exact U.collectAll st _ _ _
  · split
    · exact .ok trivial
    · unfold collectAllFrom
      split
      · exact .ok trivial
      · exact yields_collectNode st (U.collectAll st _) _ _ _

theorem getTtl (st : OxidArt P V) (key : Bytes) : Yields bad (fun _ => True) (st.getTtl key) := by
  unfold OxidArt.getTtl
  split
  · exact .ok trivial
  next i _ =>
    refine (U.getNode st i).bind fun n _ => ?_
    split
    · exact .ok trivial
    · split
      · exact .ok trivial
      · exact .ok trivial

/-! ## All operations -/

theorem execTree {st : OxidArt P V} (holds : Φ st) {op : TreeOp V} (links : match op with
    | .set key _ | .setTtl key .. => fits st key
    | _ => True) : Yields bad (fun q => Φ q.2) (st.execTree op) := by
  cases op with
  | set key v => exact (U.setInternal holds links _ v).bind fun _ holds' => .ok holds'
  | setTtl key ttl v => exact (U.setInternal holds links _ v).bind fun _ holds' => .ok holds'
  | expire key ttl => exact (U.expire holds key ttl).bind fun _ holds' => .ok holds'
  | persist key => exact (U.persist holds key).bind fun _ holds' => .ok holds'
  | get key => exact (U.get holds key).bind fun _ holds' => .ok holds'
  | getTtl key => exact (U.getTtl st key).bind fun _ _ => .ok holds
  | getn pfx => exact (U.getn st pfx).bind fun _ _ => .ok holds
  | del key => exact (U.del holds key).bind fun _ holds' => .ok holds'
  | deln pfx => exact (U.deln holds pfx).bind fun _ holds' => .ok holds'
  | setNow now => exact .ok (U.setNow holds)
  | evict draws => exact (U.evictRounds draws _ holds).bind fun _ holds' => .ok holds'

section Create

variable {st : OxidArt P V} (holds : Φ st)

include holds

theorem putVal (i : Nat) (v : V) : Yields bad Φ (st.putVal i v) :=
  (U.getNode st i).bind fun _ found => .ok (U.setNode holds found rfl rfl rfl)

theorem getOrCreate {key : Bytes} (links : fits st key) (isContainer : V → Bool) (empty : V) (ttl : Option Nat) :
    Yields bad (fun q => Φ q.2) (st.getOrCreate isContainer empty ttl key) := by
  unfold OxidArt.getOrCreate
  refine (U.ensureKey holds links).bind fun q holds' => ?_
  refine (U.getNode q.2 q.1).bind fun n found => ?_
  have wrote : ∀ e, Φ (q.2.setNode q.1 { n with val := some empty, expAndRadix := e }) := fun e => U.setNode holds' found rfl rfl rfl
  split
  · split
    · exact .ok holds'
    · exact .ok holds'
  · cases ttl with
    | none =>
      simp only [pure, Except.pure, bind, Except.bind]
      split
      · exact .ok (wrote _)
      · exact .error (U.panics id)
    | some t =>
      refine (U.setExp n.expAndRadix t).bind fun e _ => ?_
      dsimp only
      split
      · exact .ok (wrote e)
      · exact .error (U.panics id)

end Create

end Upkeep

/-! ## Typed commands -/

section Typed

variable {S : Type} [Score S] {C α : Type} {bad : Panic → Prop} {fits : OxidArt P (Value S) → Bytes → Prop}
variable {Φ : OxidArt P (Value S) → Prop} (U : Upkeep bad fits Φ) {st : OxidArt P (Value S)} (holds : Φ st) {key : Bytes}

include U

theorem Upkeep.changeIn {got : Exec (Except TypeError (Nat × C) × OxidArt P (Value S))} (kept : Yields bad (fun q => Φ q.2) got)
    (wrap : C → Value S) (change : C → Except TypeError (α × C)) : Yields bad (fun q => Φ q.2) (changeIn got wrap change) := by
  refine kept.bind fun q holds' => ?_
  obtain ⟨res, st'⟩ := q
  cases res with
  | error e => exact .ok holds'
  | ok found =>
    dsimp only
    split
    · exact .ok holds'
    · exact (U.putVal holds' _ _).bind fun _ holds'' => .ok holds''

include holds

theorem Upkeep.getContainer (links : fits st key) (view : Value S → Except RedisType C) (empty : Value S) (ttl : Option Nat) :
    Yields bad (fun q => Φ q.2) (st.getContainer view empty ttl key) := by
  refine (U.getOrCreate holds links _ empty ttl).bind fun q holds' => ?_
  obtain ⟨res, st'⟩ := q
  cases res with
  | error e => exact .ok holds'
  | ok made =>
    dsimp only
    split
    · exact .ok holds'
    · exact .ok holds'

theorem Upkeep.getHashMut (links : fits st key) (ttl : Option Nat) : Yields bad (fun q => Φ q.2) (st.getHashMut ttl key) :=
  (U.getContainer holds links _ _ ttl).bind fun _ holds' => .ok holds'

theorem Upkeep.getBtreeSetMut (links : fits st key) (ttl : Option Nat) : Yields bad (fun q => Φ q.2) (st.getBtreeSetMut ttl key) :=
  (U.getContainer holds links _ _ ttl).bind fun _ holds' => .ok holds'

theorem Upkeep.getZsetMut (links : fits st key) (ttl : Option Nat) : Yields bad (fun q => Φ q.2) (st.getZsetMut ttl key) := by
  refine (U.getContainer holds links _ _ ttl).bind fun q holds' => ?_
  obtain ⟨res, st'⟩ := q
  cases res with
  | error e => exact .ok holds'
  | ok made =>
    refine .ok ?_
    dsimp only
    split
    · exact U.same holds' (sameTree_tag st' _)
    · exact holds'

theorem Upkeep.readAs (view : Value S → Except RedisType C) (absent : α) (read : C → α) :
    Yields bad (fun q => Φ q.2) (st.readAs key view absent read) := by
  refine (U.getMut holds key).bind fun q holds' => ?_
  obtain ⟨val, st'⟩ := q
  cases val with
  | none => exact .ok holds'
  | some found => exact .ok holds'

theorem Upkeep.readSet (absent : α) (read : SortedSet Bytes → α) : Yields bad (fun q => Φ q.2) (st.readSet key absent read) := by
  refine (U.getMut holds key).bind fun q holds' => ?_
  obtain ⟨val, st'⟩ := q
  cases val with
  | none => exact .ok holds'
  | some found =>
    dsimp only
    split
    · exact .ok holds'
    · split
      · exact (U.del holds' key).bind fun _ holds'' => .ok holds''
      · exact .ok holds'

theorem Upkeep.removeFrom (view : Value S → Except RedisType C) (wrap : C → Value S) (remove : C → Bytes → Bool × C)
    (isEmpty : C → Bool) (items : List Bytes) :
    Yields bad (fun q => Φ q.2) (st.removeFrom key view wrap remove isEmpty items) := by
  refine (U.getMut holds key).bind fun q holds' => ?_
  obtain ⟨val, st'⟩ := q
  cases val with
  | none => exact .ok holds'
  | some found =>
    dsimp only
    split
    · exact .ok holds'
    · refine (U.putVal holds' _ _).bind fun st₂ holds₂ => ?_
      split
      · exact (U.del holds₂ key).bind fun _ holds₃ => .ok holds₃
      · exact .ok holds₂

theorem Upkeep.incrby (links : fits st key) (delta : Int64) : Yields bad (fun q => Φ q.2) (st.incrby key delta) := by
  have made := (U.setInternal holds links ExpAndRadix.noExp (.int delta)).bind fun st' holds' =>
    (Yields.ok holds' : Yields bad (fun q => Φ q.2) (.ok ((.ok delta : Except IntError Int64), st')))
  unfold OxidArt.incrby
  dsimp only
  split
  · exact made
  next i _ =>
    refine (U.getNode st i).bind fun n _ => ?_
    cases n.getValue st.now with
    | none => exact made
    | some v =>
      simp only [Option.map_some, pure, Except.pure, bind, Except.bind]
      split
      · exact (U.putVal holds _ _).bind fun _ holds' => .ok holds'
      · exact .ok holds

/-- An invariant with an upkeep survives every command. -/
theorem Upkeep.exec {order : HashOrder} {c : Command S} (links : ∀ key, c.links = some key → fits st key) :
    Yields bad (fun q => Φ q.2) (exec order st c) := by
  cases c with
  | tree op =>
    refine (U.execTree holds ?_).map fun _ holds' => holds'
    cases op with
    | set key | setTtl key => exact links key rfl
    | _ => trivial
  | incrby key delta => exact (U.incrby holds (links key rfl) delta).map fun _ holds' => holds'
  | hset key fieldValues ttl | hincrby key => exact (U.changeIn (U.getHashMut holds (links key rfl) _) _ _).map fun _ holds' => holds'
  | sadd key members ttl => exact (U.changeIn (U.getBtreeSetMut holds (links key rfl) _) _ _).map fun _ holds' => holds'
  | spop key count =>
    refine Yields.map (?_ : Yields bad (fun q => Φ q.2) (st.cmdSpop key count)) fun _ holds' => holds'
    unfold cmdSpop
    split
    · exact .ok holds
    · exact U.changeIn (U.getBtreeSetMut holds (links key rfl) _) _ _
  | zadd key scoreMembers ttl | zincrby key => exact (U.changeIn (U.getZsetMut holds (links key rfl) _) _ _).map fun _ holds' => holds'
  | hdel | srem | zrem => exact (U.removeFrom holds _ _ _ _ _).map fun _ holds' => holds'
  | smembers | scard => exact (U.readSet holds _ _).map fun _ holds' => holds'
  | hget | hgetall | hexists | hlen | hkeys | hvals | hmget | sismember | zcard | zrange | zscore =>
    exact (U.readAs holds _ _ _).map fun _ holds' => holds'

end Typed

end OxidArt

end Radixox.Oxidart
