import Radixox.Lib.Runs
import Radixox.Oxidart.Deadlines
import Radixox.Oxidart.Permanent
import Radixox.Oxidart.Recompressions
import Radixox.Oxidart.Tenancy

/-!
# Which nodes the sampler can draw

Active expiry draws tagged nodes only. A new leaf is tagged when its value expires, a split carries the tag over, `expire` and `zadd` tag
the node they write; `set_ttl` of a key that has a node, `hset` and `sadd` with a TTL and `try_recompress` do not. `Command.KeepsMarks` says
when the node has its tag already.
-/

namespace Radixox.Oxidart
set_option autoImplicit false
open Radixox.Runs Radixox.Outcomes

/-- The node holds a value that expires. -/
def Node.Volatile {V : Type} (n : Node V) : Prop := n.val.isSome = true ∧ n.expAndRadix.exp.isSome = true

/-- An expiry argument as the field has it, below the top value that means none. -/
def finite (ttl : Nat) : Bool := ttl != ExpAndRadix.noExp

namespace OxidArt

variable {P : Policy} {V : Type} {st st' : OxidArt P V} {key : Bytes}

/-- Every node with a value that expires is tagged. -/
def Marked (st : OxidArt P V) : Prop := EverySlot (fun n tagged => n.Volatile → tagged = true) st

/-- The node of the tree that a write of the key puts its value on; `none` for a new leaf. -/
def landing (st : OxidArt P V) (key : Bytes) : Option Nat :=
  match st.walk key with
  | .found i _ _ _ => some i
  | .partialAt i _ _ common rest _ => if common = rest.length then some i else none
  | _ => none

/-- The node that a write of the key lands on is tagged. -/
def LandsTagged (st : OxidArt P V) (key : Bytes) : Prop := ∀ i, st.landing key = some i → st.map.isTagged i = true

/-- A container that is made under the key gets no expiry, or lands on a tagged node. -/
def StampsTagged (st : OxidArt P V) (key : Bytes) (ttl : Option Nat) : Prop :=
  (st.live key).isSome = true ∨ match ttl with
  | some ttl => finite ttl = false ∨ st.landing key ≠ none ∧ st.LandsTagged key
  | none => ((st.traverseToKey key).bind st.tryGetNode).all (fun n => !n.expAndRadix.doesExpire) = true ∨ st.LandsTagged key

/-- The only link leads to a node with a value that expires. -/
def absorbsVolatile (st : OxidArt P V) (s : Shelf) : Bool :=
  s.single.any fun q => (st.view q.2).any fun c => c.val.isSome && c.exp.isSome

/-- The node that is recompressed is tagged if it takes over a value that expires. -/
def AbsorbsTagged (st : OxidArt P V) (op : TreeOp V) : Prop :=
  ∀ q, st.recompressed op = some q → st.absorbsVolatile q.2 = true → st.map.isTagged q.1 = true

instance : Decidable (st.LandsTagged key) := inferInstanceAs (Decidable (∀ i ∈ st.landing key, _))

instance (op : TreeOp V) : Decidable (st.AbsorbsTagged op) := inferInstanceAs (Decidable (∀ q ∈ st.recompressed op, _ → _))

instance : (ttl : Option Nat) → Decidable (st.StampsTagged key ttl)
  | some _ => inferInstanceAs (Decidable (_ ∨ _ ∨ st.landing key ≠ none ∧ st.LandsTagged key))
  | none => inferInstanceAs (Decidable (_ ∨ _ ∨ st.LandsTagged key))

/-! ## One function at a time -/

theorem marked_ignoresLinks : IgnoresLinks fun (n : Node V) tagged => n.Volatile → tagged = true := by
  rintro n n' tagged val exp marked ⟨held, expires⟩
  exact marked ⟨val ▸ held, exp ▸ expires⟩

theorem Marked.rewires (H : Marked st) (R : Rewires st st') : Marked st' := EverySlot.rewires H marked_ignoresLinks R

theorem not_volatile_of_exp {n : Node V} (permanent : n.expAndRadix.exp = none) : ¬ n.Volatile := by
  rintro ⟨-, expires⟩
  rw [permanent] at expires
  cases expires

theorem not_volatile_of_val {n : Node V} (empty : n.val = none) : ¬ n.Volatile := by
  rintro ⟨held, -⟩
  rw [empty] at held
  cases held

theorem of_not_finite {ttl : Nat} (top : finite ttl = false) : ttl = ExpAndRadix.noExp := by simpa [finite] using top

theorem Marked.setVal (H : Marked st) {i ttl : Nat} {n n' : Node V} {v : V} (set : n.setVal v ttl = .ok n')
    (tagged : finite ttl = true → st.map.isTagged i = true) : Marked (st.setNode i n') := by
  refine EverySlot.setNode H fun volatile => ?_
  cases lasts : finite ttl with
  | true => exact tagged lasts
  | false =>
    rw [of_not_finite lasts] at set
    exact absurd volatile (not_volatile_of_exp (exp_of_setVal set))

theorem Marked.createNodeWithVal (H : Marked st) (p : Nat) (r : UInt8) (v : V) (c : Bytes) (ttl : Nat) :
    Returns (fun q => Marked q.2) (st.createNodeWithVal p r v c ttl) := by
  cases ran : st.createNodeWithVal p r v c ttl with
  | error => trivial
  | ok q =>
    obtain ⟨father, found, rest⟩ := exists_of_bind ran
    obtain ⟨leaf, made, -⟩ := exists_of_bind rest
    obtain ⟨idx, st₁, eq, ins⟩ := inserted_either st leaf (ttl ≠ ExpAndRadix.noExp)
    rw [createNodeWithVal_inserts (tryGetNode_of_getNode found) made eq ins] at ran
    obtain ⟨st₂, pushed, rfl⟩ := exists_of_map ran
    refine Marked.rewires ?_ (.pushChildIdx pushed)
    refine EverySlot.insertEither H (fun _ _ => rfl) (fun top volatile => absurd volatile (not_volatile_of_exp ?_)) eq
    obtain ⟨e, ok, exp, -⟩ := ExpAndRadix.new_ok (n := ExpAndRadix.noExp) (by decide) r
    simp only [Node.newLeaf, not_not.1 top, ok] at made
    obtain rfl := Except.ok.inj made
    exact exp.trans (if_pos rfl)

/-- A new node without value, under its parent. -/
theorem Marked.linkEmpty (H : Marked st) (c : Bytes) (p : Nat) (r : UInt8) {idx : Nat}
    (ran : (do
        let (idx, st) := st.insert (.newEmptyLeaf c p r)
        let st ← st.pushChildIdx p idx r
        return (idx, st)) = (Except.ok (idx, st') : Exec _)) : Marked st' := by
  obtain ⟨st₁, pushed, same⟩ := exists_of_bind ran
  obtain ⟨rfl, rfl⟩ := Prod.mk.inj (Except.ok.inj same)
  refine Marked.rewires (EverySlot.insert H fun volatile => absurd volatile ?_) (.pushChildIdx pushed)
  exact not_volatile_of_val (blank_newEmptyLeaf c p r).1

theorem Marked.splitLeaf (H : Marked st) (common : Nat) (rest : Bytes) (x : Nat) (ttl : Option Nat) (v : Option V) :
    Returns (fun q => Marked q.2) (st.splitLeaf common rest x ttl v) := by
  unfold OxidArt.splitLeaf
  split
  · trivial
  · exact H.createNodeWithVal _ _ _ _ _
  · exact (returns_self _).imp fun _ ran => H.linkEmpty _ _ _ ran

/-- A split keeps the old expiry on a tagged node; the value that may come to the split point needs the tag that is there. -/
theorem Marked.splitNode (H : Marked st) {common : Nat} {rest : Bytes} {x : Nat} {ttl : Option Nat} {v : Option V}
    (lands : common = rest.length → v ≠ none → finite (ttl.getD ExpAndRadix.noExp) = true → st.map.isTagged x = true) :
    Returns (fun q => Marked q.2 ∧
        (common = rest.length → ∀ n, q.2.tryGetNode q.1 = some n → q.1 = x ∧ q.2.map.isTagged x = st.map.isTagged x))
      (st.splitNode common rest x ttl v) := by
  refine (returns_self _).bind fun old found => (returns_self _).bind fun node made => ?_
  have held := tryGetNode_of_getNode found
  have H₁ : Marked (st.setNode x node) := by
    unfold splitIntermediate at made
    split at made
    next w t onNode => exact H.setVal made (lands (beq_iff_eq.1 onNode) nofun)
    · obtain rfl := Except.ok.inj made
      exact EverySlot.setNode H fun volatile => absurd volatile (not_volatile_of_exp (ExpAndRadix.exp_setNoExpiracy old.expAndRadix))
    · obtain rfl := Except.ok.inj made
      exact EverySlot.setNode H fun volatile => absurd volatile (not_volatile_of_val rfl)
  dsimp only
  split
  · trivial
  next r here =>
    obtain ⟨oldChild, eqc⟩ : ∃ oldChild : Node V, oldChild = { old with
      compression := old.compression.drop (common + 1)
      parentIdx := some x } := ⟨_, rfl⟩
    obtain ⟨y, st₁, inserted, ins⟩ := inserted_either (st.setNode x node) oldChild old.expAndRadix.doesExpire
    simp only [← eqc, inserted]
    have exp : oldChild.expAndRadix.exp.isSome = old.expAndRadix.doesExpire := by rw [eqc, ExpAndRadix.doesExpire_eq]
    have H₂ : Marked st₁ := by
      refine EverySlot.insertEither H₁ (fun _ _ => rfl) (fun permanent volatile => absurd ?_ permanent) inserted
      rw [← exp]
      exact volatile.2
    refine (returns_self _).bind fun st₂ pushed => ?_
    have R := Rewires.pushChildIdx pushed
    have H₃ : Marked st₂ := H₂.rewires R
    split
    next onNode =>
      have ne : x ≠ y := by
        rintro rfl
        have free := ins.free
        rw [tryGetNode_setNode, if_pos rfl, held] at free
        cases free
      refine .ok ⟨H₃, fun _ n read => ⟨rfl, (R.tag read).trans ?_⟩⟩
      exact (isTagged_insertEither inserted ne).trans (TaggedHiSlab.isTagged_set _ _ _ _)
    next inner =>
      refine (H₃.splitLeaf common rest x ttl v).imp fun q H' => ⟨H', fun last => absurd (beq_iff_eq.2 last) inner⟩

/-- A write of a key, tagged where it lands on a node of the tree with an expiry. -/
theorem Marked.setInternal (H : Marked st) (nonempty : key ≠ []) {ttl : Nat} (v : V)
    (lands : finite ttl = true → st.LandsTagged key) : Returns Marked (st.setInternal key ttl v) := by
  have notEmpty : key.isEmpty = false := by simpa using nonempty
  unfold LandsTagged landing at lands
  unfold OxidArt.setInternal
  rw [notEmpty, if_neg Bool.false_ne_true]
  cases outcome : st.walk key with
  | found i p r path =>
    rw [outcome] at lands
    exact (returns_self _).bind fun n _ => (returns_self _).bind fun n' set => .ok (H.setVal set fun lasts => lands lasts i rfl)
  | partialAt i p r common rest path =>
    rw [outcome] at lands
    refine (H.splitNode fun last _ lasts => ?_).bind fun q both => .ok both.1
    exact lands lasts i (if_pos last)
  | noChild i rest =>
    cases rest with
    | nil => trivial
    | cons r rest => exact (H.createNodeWithVal i r v rest ttl).bind fun q H' => .ok H'
  | gone i => trivial

/-- The node that `ensure_key` gives: the one that is there, or an empty permanent one. -/
def Ensures (st : OxidArt P V) (key : Bytes) (i : Nat) (n : Node V) (st' : OxidArt P V) : Prop :=
  st' = st ∧ st.traverseToKey key = some i ∨
    st.traverseToKey key = none ∧ n.val = none ∧ n.expAndRadix.exp = none ∧
      ∀ j, st.landing key = some j → i = j ∧ st'.map.isTagged j = st.map.isTagged j

theorem Marked.ensureKey (H : Marked st) (nonempty : key ≠ []) :
    Returns (fun q => Marked q.2 ∧ ∀ n, q.2.tryGetNode q.1 = some n → Ensures st key q.1 n q.2) (st.ensureKey key) := by
  have notEmpty : key.isEmpty = false := by simpa using nonempty
  unfold Ensures landing OxidArt.ensureKey traverseToKey
  rw [notEmpty, if_neg Bool.false_ne_true, if_neg Bool.false_ne_true]
  cases outcome : st.walk key with
  | found i p r path => exact .ok ⟨H, fun _ _ => .inl ⟨rfl, rfl⟩⟩
  | partialAt i p r common rest path =>
    refine (returns_self _).imp fun q ran => ?_
    obtain ⟨H', stays⟩ := (H.splitNode fun _ absurd' _ => absurd rfl absurd').of_ok ran
    refine ⟨H', fun n found => .inr ?_⟩
    obtain ⟨val, exp⟩ := splitNode_blank ran n found
    refine ⟨rfl, val, exp, fun j lands => ?_⟩
    dsimp only at lands
    split at lands
    next last =>
      obtain rfl := Option.some.inj lands
      exact stays last n found
    next => cases lands
  | noChild i rest =>
    cases rest with
    | nil => trivial
    | cons r rest =>
      refine (returns_self _).imp fun q ran => ⟨H.linkEmpty _ _ _ ran, fun n found => .inr ?_⟩
      obtain ⟨val, exp⟩ := linkEmpty_blank ran n found
      exact ⟨rfl, val, exp, nofun⟩
  | gone i => trivial

/-! ## Containers -/

/-- A node with a value is handed out. The marks are in order, after a tag of the node at the latest if its container is new. -/
structure Lent (empty : V) (stamps : Prop) (i : Nat) (v : V) (created : Bool) (st : OxidArt P V) : Prop where
  held : ∀ n, st.tryGetNode i = some n → n.val.isSome = true
  marked : created = false ∨ stamps → Marked st
  tagged : created = true → Marked { st with map := st.map.tag i }
  new : created = true → v = empty

theorem landing_of_traverse (nonempty : key ≠ []) {i : Nat} (target : st.traverseToKey key = some i) : st.landing key = some i := by
  have notEmpty : key.isEmpty = false := by simpa using nonempty
  unfold traverseToKey at target
  unfold landing
  rw [notEmpty, if_neg Bool.false_ne_true] at target
  cases outcome : st.walk key with
  | found j p r path =>
    rw [outcome] at target
    exact target
  | partialAt | noChild | gone =>
    rw [outcome] at target
    cases target

/-- The node that gets a new container has its tag if the container expires. -/
theorem StampsTagged.tagged {ttl : Option Nat} (stamps : StampsTagged st key ttl) (nonempty : key ≠ []) {i : Nat} {n : Node V} {e : ExpAndRadix}
    (node : Ensures st key i n st') (held : st'.tryGetNode i = some n) (dead : n.getValue st'.now = none)
    (stamped : (match ttl with
      | some ttl => n.expAndRadix.setExp ttl
      | none => .ok n.expAndRadix) = .ok e) (expires : e.exp.isSome = true) : st'.map.isTagged i = true := by
  have lands : st.landing key ≠ none → st.LandsTagged key → st'.map.isTagged i = true := by
    intro some' tagged
    obtain ⟨j, here⟩ := Option.ne_none_iff_exists'.1 some'
    rcases node with ⟨rfl, target⟩ | ⟨-, -, -, kept⟩
    · exact tagged i (landing_of_traverse nonempty target)
    · obtain ⟨rfl, same⟩ := kept j here
      rw [same]
      exact tagged i here
  rcases stamps with live | stamps
  · -- A key that shows a value has a node, and that node shows it.
    exfalso
    rcases node with ⟨rfl, target⟩ | ⟨none', -⟩
    · rw [At.live ⟨target, held⟩] at live
      unfold Node.getValue at dead
      split at live
      · cases live
      next current =>
        rw [if_neg current] at dead
        rw [Node.content, dead] at live
        cases live
    · rw [OxidArt.live, entry_of_traverse_none none'] at live
      cases live
  · cases ttl with
    | some t =>
      rcases stamps with forever | ⟨some', tagged⟩
      · rw [of_not_finite forever] at stamped
        rw [exp_of_setExp_noExp stamped] at expires
        cases expires
      · exact lands some' tagged
    | none =>
      obtain rfl := Except.ok.inj stamped
      rcases node with ⟨rfl, target⟩ | ⟨-, -, permanent, -⟩
      · rcases stamps with permanent | tagged
        · rw [target, Option.bind_some, held, Option.all_some, ExpAndRadix.doesExpire_eq, expires] at permanent
          cases permanent
        · exact lands (landing_of_traverse nonempty target ▸ Option.some_ne_none i) tagged
      · rw [permanent] at expires
        cases expires

/-- The container of the key, with the marks in order if the expiry that a new one gets is `StampsTagged`. -/
theorem Marked.getOrCreate (H : Marked st) (nonempty : key ≠ []) (isContainer : V → Bool) (empty : V) (ttl : Option Nat) :
    Returns (fun q => match q.1 with
      | .error _ => Marked q.2
      | .ok (i, v, created) => Lent empty (StampsTagged st key ttl) i v created q.2) (st.getOrCreate isContainer empty ttl key) := by
  unfold OxidArt.getOrCreate
  refine (H.ensureKey nonempty).bind fun q kept => ?_
  obtain ⟨i, st₁⟩ := q
  obtain ⟨H₁, node⟩ := kept
  refine (returns_self (st₁.getNode i)).bind fun n found => ?_
  have held := tryGetNode_of_getNode found
  dsimp only
  cases seen : n.getValue st₁.now with
  | some v =>
    dsimp only
    split
    · refine .ok ⟨fun m read => ?_, fun _ => H₁, nofun, nofun⟩
      obtain rfl := Option.some.inj (read.symm.trans held)
      unfold Node.getValue at seen
      split at seen
      · cases seen
      · rw [seen]
        rfl
    · exact .ok H₁
  | none =>
    have writes : ∀ e, (match ttl with
        | some ttl => n.expAndRadix.setExp ttl
        | none => .ok n.expAndRadix) = .ok e → ∀ v, Node.getValue { n with val := some empty, expAndRadix := e } st₁.now = some v →
        Lent empty (StampsTagged st key ttl) i v true (st₁.setNode i { n with val := some empty, expAndRadix := e }) := by
      intro e stamped v shown
      refine ⟨fun m read => ?_, fun stamps => ?_, fun _ => EverySlot.setNode_tag H₁ fun _ => rfl, fun _ => ?_⟩
      · rw [tryGetNode_setNode, if_pos rfl, held, Option.map_some] at read
        rw [← Option.some.inj read]
        rfl
      · refine EverySlot.setNode H₁ fun volatile => ?_
        exact (stamps.resolve_left nofun).tagged nonempty (node n held) held seen stamped volatile.2
      · unfold Node.getValue at shown
        split at shown
        · cases shown
        · exact (Option.some.inj shown).symm
    dsimp only
    cases ttl with
    | none =>
      simp only [pure, Except.pure, bind, Except.bind]
      split
      next v shown => exact .ok (writes _ rfl v shown)
      · trivial
    | some t =>
      refine (returns_self (n.expAndRadix.setExp t)).bind fun e stamped => ?_
      split
      next v shown => exact .ok (writes e stamped v shown)
      · trivial

theorem Marked.putVal (H : Marked st) {i : Nat} (held : ∀ n, st.tryGetNode i = some n → n.val.isSome = true) (v : V) :
    Returns Marked (st.putVal i v) := by
  refine (returns_self _).bind fun n found => .ok (EverySlot.setNode H fun volatile => ?_)
  have here := tryGetNode_of_getNode found
  exact H i n here ⟨held n here, volatile.2⟩

section Typed

variable {S : Type} [Score S] {st : OxidArt P (Value S)} {C α : Type}

/-- The node and its container, ready for a change. -/
def Ready (st : OxidArt P (Value S)) (res : Except TypeError (Nat × C)) : Prop :=
  Marked st ∧ ∀ i c, res = .ok (i, c) → ∀ n, st.tryGetNode i = some n → n.val.isSome = true

theorem changeIn_marks {got : Exec (Except TypeError (Nat × C) × OxidArt P (Value S))} (ready : Returns (fun q => Ready q.2 q.1) got)
    (wrap : C → Value S) (change : C → Except TypeError (α × C)) : Returns (fun q => Marked q.2) (changeIn got wrap change) := by
  refine ready.bind fun q kept => ?_
  obtain ⟨res, st₁⟩ := q
  obtain ⟨H₁, held⟩ := kept
  cases res with
  | error e => exact .ok H₁
  | ok found =>
    obtain ⟨i, c⟩ := found
    dsimp only
    split
    · exact .ok H₁
    · exact (H₁.putVal (held i c rfl) _).bind fun _ H₂ => .ok H₂

/-- The typed container of the key; the one that is made has the type. -/
theorem Marked.getContainer (H : Marked st) (nonempty : key ≠ []) (view : Value S → Except RedisType C) {empty : Value S} {c : C}
    (typed : view empty = .ok c) (ttl : Option Nat) :
    Returns (fun q => match q.1 with
      | .error _ => Marked q.2
      | .ok (i, _, created) => ∃ v, Lent empty (StampsTagged st key ttl) i v created q.2) (st.getContainer view empty ttl key) := by
  refine (H.getOrCreate nonempty _ empty ttl).bind fun q lent => ?_
  obtain ⟨res, st₁⟩ := q
  cases res with
  | error e => exact .ok lent
  | ok found =>
    obtain ⟨i, v, created⟩ := found
    dsimp only at lent ⊢
    cases seen : view v with
    | error e =>
      refine .ok (lent.marked (.inl ?_))
      cases made : created with
      | false => rfl
      | true =>
        rw [lent.new made, typed] at seen
        cases seen
    | ok c => exact .ok ⟨v, lent⟩

/-- `get_hash_mut` and `get_btree_set_mut` do not tag. -/
theorem Marked.getContainer_ready (H : Marked st) (nonempty : key ≠ []) (view : Value S → Except RedisType C) {empty : Value S} {c : C}
    (typed : view empty = .ok c) {ttl : Option Nat} (stamps : StampsTagged st key ttl) :
    Returns (fun q => Ready q.2 (q.1.map fun (i, c, _) => (i, c))) (st.getContainer view empty ttl key) := by
  refine (H.getContainer nonempty view typed ttl).imp fun q lent => ?_
  obtain ⟨res, st₁⟩ := q
  cases res with
  | error e => exact ⟨lent, nofun⟩
  | ok found =>
    obtain ⟨i, c, created⟩ := found
    obtain ⟨v, lent⟩ := lent
    refine ⟨lent.marked (.inr stamps), ?_⟩
    rintro _ _ ⟨⟩
    exact lent.held

/-- `get_zset_mut` tags the node of a new container with a TTL. -/
theorem Marked.getZsetMut (H : Marked st) (nonempty : key ≠ []) {ttl : Option Nat} (stamps : ttl = none → StampsTagged st key none) :
    Returns (fun q => Ready q.2 q.1) (st.getZsetMut ttl key) := by
  refine (H.getContainer nonempty Value.asZset (rfl : Value.asZset (.zset .new : Value S) = .ok .new) ttl).bind fun q lent => ?_
  obtain ⟨res, st₁⟩ := q
  cases res with
  | error e => exact .ok ⟨lent, nofun⟩
  | ok found =>
    obtain ⟨i, zset, created⟩ := found
    obtain ⟨v, lent⟩ := lent
    dsimp only
    refine .ok ⟨?_, ?_⟩
    · dsimp only
      split
      next new => exact lent.tagged (Bool.and_eq_true_iff.1 new).1
      next plain =>
        refine lent.marked ?_
        cases ttl with
        | none => exact .inr (stamps rfl)
        | some t => exact .inl (by simpa using plain)
    · rintro _ _ ⟨⟩ n found
      dsimp only at found
      split at found
      · rw [tryGetNode, TaggedHiSlab.get_tag] at found
        exact lent.held n found
      · exact lent.held n found

end Typed

/-! ## Expiries and removals -/

theorem Marked.expire (H : Marked st) (key : Bytes) (ttl : Nat) : Returns (fun q => Marked q.2) (st.expire key ttl) := by
  unfold OxidArt.expire
  split
  · exact .ok H
  next i _ =>
    refine (returns_self _).bind fun n found => ?_
    split
    · exact .ok H
    · refine (returns_self _).bind fun e _ => .ok ?_
      dsimp only
      split
      next => exact EverySlot.setNode_tag H fun _ => rfl
      next expires =>
        refine EverySlot.setNode H fun volatile => H i n (tryGetNode_of_getNode found) ⟨volatile.1, ?_⟩
        rw [← ExpAndRadix.doesExpire_eq]
        simpa using expires

theorem Marked.persist (H : Marked st) (key : Bytes) : Returns (fun q => Marked q.2) (st.persist key) := by
  unfold OxidArt.persist
  split
  · exact .ok H
  next i _ =>
    refine (returns_self _).bind fun n found => ?_
    have permanent : ∀ n' : Node V, n' = { n with expAndRadix := n.expAndRadix.setNoExpiracy } → ¬ n'.Volatile := by
      rintro _ rfl
      exact not_volatile_of_exp (ExpAndRadix.exp_setNoExpiracy n.expAndRadix)
    have H₁ : Marked (st.setNode i { n with expAndRadix := n.expAndRadix.setNoExpiracy }) :=
      EverySlot.setNode H fun volatile => absurd volatile (permanent _ rfl)
    split
    · dsimp only
      split
      · refine .ok (EverySlot.untag H₁ fun m read volatile => absurd volatile (permanent m ?_))
        rw [tryGetNode_setNode, if_pos rfl] at read
        obtain ⟨-, -, same⟩ := Option.map_eq_some_iff.1 read
        exact same.symm
      · exact .ok H₁
    · exact .ok H

/-- The removal of a node, where a recompression finds the tag that it needs. -/
theorem Marked.deleteNodeInline (H : Marked st) {B : UInt8 → Prop} (K : KidsInvOf B st) {i p : Nat} {r : UInt8}
    (absorbs : ∀ q, st.leftBy i p r = some q → st.absorbsVolatile q.2 = true → st.map.isTagged q.1 = true)
    (ran : st.deleteNodeInline i p r = .ok st') : Marked st' := by
  rcases deleteNodeInline_cases ran with ⟨n, -, -, -, rfl⟩ | ⟨x, st₁, T, ran⟩
  · exact H.rewires ((Rewires.removeNode st i).trans (.removeChild _ p r))
  · have tags : Marked st₁ ∧ ∀ n, st₁.tryGetNode x = some n → st₁.map.isTagged x = st.map.isTagged x := by
      cases T with
      | cleared found inner =>
        exact ⟨EverySlot.setNode H fun volatile => absurd volatile (not_volatile_of_val rfl),
          fun _ _ => TaggedHiSlab.isTagged_set _ _ _ _⟩
      | unlinked found leaf below =>
        have R : Rewires st ((st.removeNode i).removeChild p r) := (Rewires.removeNode st i).trans (.removeChild _ p r)
        exact ⟨H.rewires R, fun _ => R.tag⟩
    obtain ⟨H₁, tag⟩ := tags
    refine EverySlot.tryRecompress H₁ marked_ignoresLinks ran fun n r' y child found empty single occupied volatile => ?_
    obtain ⟨left, others⟩ := T.left K (view_eq found) empty
    have apart : y ≠ x := by
      rintro rfl
      obtain rfl := Option.some.inj (found.symm.trans occupied)
      exact not_volatile_of_val empty volatile
    rw [tag n found]
    refine absorbs _ left ?_
    rw [single_viewOf (TierInv.slotOk (T.kids K) (tier_eq found))] at single
    have seen := others y _ apart (view_eq occupied)
    have val : (st₁.viewOf child).val = child.val := rfl
    have exp : (st₁.viewOf child).exp = child.expAndRadix.exp := rfl
    rw [absorbsVolatile, single, Option.any_some, seen, Option.any_some, val, exp, volatile.1, volatile.2]
    rfl

theorem Marked.get (H : Marked st) (nonempty : key ≠ []) {B : UInt8 → Prop} (K : KidsInvOf B st) (absorbs : st.AbsorbsTagged (.get key)) :
    Returns (fun q => Marked q.2) (st.get key) := by
  refine (returns_self _).imp fun q ran => ?_
  rcases get_removes nonempty ran with same | ⟨i, p, r, path, -, left, removed⟩
  · exact same ▸ H
  · exact H.deleteNodeInline K (fun q here => absorbs q (left.trans here)) removed

theorem Marked.del (H : Marked st) (nonempty : key ≠ []) {B : UInt8 → Prop} (K : KidsInvOf B st) (absorbs : st.AbsorbsTagged (.del key)) :
    Returns (fun q => Marked q.2) (st.del key) := by
  refine (returns_self _).imp fun q ran => ?_
  rcases del_removes_node K nonempty ran with same | ⟨i, p, r, path, -, left, removed⟩
  · exact same ▸ H
  · exact H.deleteNodeInline K (fun q here => absorbs q (left.trans here)) removed

end OxidArt

/-! ## Runs -/

section Typed

variable {S : Type} [Score S]

/-- The commands that set and drop values and expiries, on keys that are not empty. -/
def Command.Timed : Command S → Prop
  | .tree (.set key _) | .tree (.setTtl key _ _) | .tree (.expire key _) | .tree (.persist key) | .tree (.get key) | .tree (.del key)
  | .hset key _ _ | .sadd key _ _ | .zadd key _ _ => key ≠ []
  | .tree (.setNow _) => True
  | _ => False

def decidableNonempty : (key : Bytes) → Decidable (key ≠ [])
  | [] => isFalse fun nonempty => nonempty rfl
  | _ :: _ => isTrue (List.cons_ne_nil _ _)

instance : (c : Command S) → Decidable c.Timed
  | .tree op => match op with
    | .set key _ | .setTtl key _ _ | .expire key _ | .persist key | .get key | .del key => decidableNonempty key
    | .setNow _ => isTrue trivial
    | .getTtl _ | .getn _ | .deln _ | .evict _ => isFalse id
  | .hset key _ _ | .sadd key _ _ | .zadd key _ _ => decidableNonempty key
  | .incrby .. | .hget .. | .hgetall .. | .hdel .. | .hexists .. | .hlen .. | .hkeys .. | .hvals .. | .hmget .. | .hincrby .. | .spop ..
  | .srem .. | .smembers .. | .sismember .. | .scard .. | .zcard .. | .zrange .. | .zscore .. | .zrem .. | .zincrby .. => isFalse id

/-- No expiry comes to a node without tag. -/
def Command.KeepsMarks {P : Policy} (st : OxidArt P (Value S)) : Command S → Prop
  | .tree (.setTtl key ttl _) => finite (saturatingAdd st.now ttl) = true → st.LandsTagged key
  | .tree op => st.AbsorbsTagged op
  | .hset key _ ttl | .sadd key _ ttl => st.StampsTagged key ttl
  | .zadd key _ ttl => ttl = none → st.StampsTagged key none
  | _ => True

instance {P : Policy} (st : OxidArt P (Value S)) : (c : Command S) → Decidable (c.KeepsMarks st)
  | .tree op => match op with
    | .setTtl key ttl _ => inferInstanceAs (Decidable (finite (saturatingAdd st.now ttl) = true → st.LandsTagged key))
    | .set .. | .expire .. | .persist _ | .get _ | .getTtl _ | .getn _ | .del _ | .deln _ | .setNow _ | .evict _ =>
      inferInstanceAs (Decidable (st.AbsorbsTagged _))
  | .hset key _ ttl | .sadd key _ ttl => inferInstanceAs (Decidable (st.StampsTagged key ttl))
  | .zadd key _ ttl => match ttl with
    | none => decidable_of_iff (st.StampsTagged key none) ⟨fun stamps _ => stamps, fun stamps => stamps rfl⟩
    | some _ => isTrue nofun
  | .incrby .. | .hget .. | .hgetall .. | .hdel .. | .hexists .. | .hlen .. | .hkeys .. | .hvals .. | .hmget .. | .hincrby .. | .spop ..
  | .srem .. | .smembers .. | .sismember .. | .scard .. | .zcard .. | .zrange .. | .zscore .. | .zrem .. | .zincrby .. => isTrue trivial

namespace OxidArt

variable {P : Policy} {st st' : OxidArt P (Value S)} {order : HashOrder}

theorem Marked.exec (H : Marked st) {B : UInt8 → Prop} (K : KidsInvOf B st) {c : Command S} (timed : c.Timed) (keeps : c.KeepsMarks st) :
    Returns (fun q => Marked q.2) (exec order st c) := by
  have wrap : ∀ {α : Type} {f : α → Reply S} {run : Exec (α × OxidArt P (Value S))}, Returns (fun q => Marked q.2) run →
      Returns (fun q => Marked q.2) (wrapReply f run) := fun kept => kept.map fun _ H' => H'
  cases c with
  | tree op =>
    refine wrap ?_
    cases op with
    | set key v =>
      exact (H.setInternal timed v fun lasts => absurd lasts (by decide)).bind fun _ H' => .ok H'
    | setTtl key ttl v => exact (H.setInternal timed v keeps).bind fun _ H' => .ok H'
    | expire key ttl => exact (H.expire key ttl).bind fun _ H' => .ok H'
    | persist key => exact (H.persist key).bind fun _ H' => .ok H'
    | get key => exact (H.get timed K keeps).bind fun _ H' => .ok H'
    | del key => exact (H.del timed K keeps).bind fun _ H' => .ok H'
    | setNow now => exact .ok H
    | getTtl | getn | deln | evict => exact timed.elim
  | hset key fieldValues ttl =>
    refine wrap (changeIn_marks ((H.getContainer_ready timed Value.asHash (c := .new) rfl keeps).bind fun q ready => .ok ?_) _ _)
    exact ready
  | sadd key members ttl =>
    refine wrap (changeIn_marks ((H.getContainer_ready timed Value.asSet (c := .empty) rfl keeps).bind fun q ready => .ok ?_) _ _)
    exact ready
  | zadd key scoreMembers ttl => exact wrap (changeIn_marks (H.getZsetMut timed keeps) _ _)
  | _ => exact timed.elim

theorem marked_new : Marked (new : OxidArt P (Value S)) := by
  intro i n found
  have nodes : (new : OxidArt P (Value S)).tryGetNode i = if i = (new : OxidArt P (Value S)).rootIdx then some .default else none :=
    TaggedHiSlab.get_insertSlot _ _ i
  rw [nodes] at found
  split at found
  · exact fun volatile => absurd volatile (not_volatile_of_val (Option.some.inj found ▸ rfl))
  · cases found

theorem tenanted_and_marked (reached : Reaches (OxidArt.exec order) (fun st c => c.Timed ∧ c.KeepsMarks st) new st) :
    Tenanted st ∧ Marked st := by
  induction reached with
  | refl => exact ⟨tenanted_new, marked_new⟩
  | step _ ok taken ih =>
    obtain ⟨T, H⟩ := ih
    exact ⟨(upkeep_tenanted.exec T fun _ _ => trivial).of_ok taken, (H.exec T.kids ok.1 ok.2).of_ok taken⟩

/-- Where no expiry comes to a node without tag, every node with a value that expires has one, and the sampler can draw it. -/
theorem run_marked {commands : List (Command S)} {replies : List (Reply S)}
    (meets : Meets (OxidArt.exec order) (fun st c => c.Timed ∧ c.KeepsMarks st) commands (new : OxidArt P (Value S)))
    (ran : run (OxidArt.exec order) commands (new : OxidArt P (Value S)) = .ok (replies, st)) {i : Nat} {n : Node (Value S)}
    (found : st.tryGetNode i = some n) (held : n.val.isSome = true) (expires : n.expAndRadix.doesExpire = true) :
    st.map.isTagged i = true ∧ ∃ draw, st.map.randomTagged draw = some (i, n) := by
  obtain ⟨-, H⟩ := tenanted_and_marked (Reaches.run .refl meets ran)
  have tagged := H i n found ⟨held, by rwa [← ExpAndRadix.doesExpire_eq]⟩
  exact ⟨tagged, TaggedHiSlab.exists_randomTagged found tagged⟩

/-- A new leaf with a TTL, a TTL on a key that `expire` has tagged, and a sorted set with a TTL. -/
def taggedWrites : List (Command Int) :=
  [.tree (.set [97] (.int 1)), .tree (.expire [97] 5), .tree (.setTtl [97] 10 (.int 2)), .tree (.setTtl [97, 98] 7 (.int 3)),
    .zadd [99] [(1, [1])] (some 20), .tree (.setNow 8), .tree (.get [97, 98])]

theorem run_marked_taggedWrites : ∃ replies st i n,
    run (OxidArt.exec .stored) taggedWrites (new : OxidArt .lowest (Value Int)) = .ok (replies, st) ∧ st.tryGetNode i = some n ∧
      st.map.isTagged i = true ∧ ∃ draw, st.map.randomTagged draw = some (i, n) := by
  have seen : (run (OxidArt.exec .stored) taggedWrites (new : OxidArt .lowest (Value Int))).toOption.map
      (fun q => (q.2.tryGetNode 1).map fun n => (n.val.isSome, n.expAndRadix.doesExpire)) = some (some (true, true)) := by decide +kernel
  have meets : Meets (OxidArt.exec .stored) (fun st c => c.Timed ∧ c.KeepsMarks st) taggedWrites
      (new : OxidArt .lowest (Value Int)) := by decide +kernel
  cases ran : run (OxidArt.exec .stored) taggedWrites (new : OxidArt .lowest (Value Int)) with
  | error e =>
    rw [ran] at seen
    cases seen
  | ok q =>
    obtain ⟨replies, st⟩ := q
    rw [ran] at seen
    obtain ⟨n, found, flags⟩ := Option.map_eq_some_iff.1 (Option.some.inj seen)
    obtain ⟨held, expires⟩ := Prod.mk.inj flags
    exact ⟨replies, st, 1, n, rfl, found, run_marked meets ran found held expires⟩

/-- `set_ttl` of a key that is stored already gives its node an expiry and no tag. -/
theorem setTtl_leaves_untagged : ¬ ∀ (S : Type) [Score S] (P : Policy) (order : HashOrder) (commands : List (Command S))
    (replies : List (Reply S)) (st : OxidArt P (Value S)), (∀ c ∈ commands, c.Timed) →
    run (OxidArt.exec order) commands (new : OxidArt P (Value S)) = .ok (replies, st) →
    ∀ i n, st.tryGetNode i = some n → n.val.isSome = true → n.expAndRadix.doesExpire = true → st.map.isTagged i = true := by
  intro all
  have seen : (run (OxidArt.exec .stored) [.tree (.set [97] (.int 1)), .tree (.setTtl [97] 10 (.int 2))]
      (new : OxidArt .lowest (Value Int))).toOption.map (fun q => (q.2.map.isTagged 1,
        (q.2.tryGetNode 1).map fun n => (n.val.isSome, n.expAndRadix.doesExpire))) = some (false, some (true, true)) := by decide +kernel
  cases ran : run (OxidArt.exec .stored) [.tree (.set [97] (.int 1)), .tree (.setTtl [97] 10 (.int 2))]
      (new : OxidArt .lowest (Value Int)) with
  | error e =>
    rw [ran] at seen
    cases seen
  | ok q =>
    obtain ⟨replies, st⟩ := q
    rw [ran] at seen
    obtain ⟨untagged, node⟩ := Prod.mk.inj (Option.some.inj seen)
    obtain ⟨n, found, flags⟩ := Option.map_eq_some_iff.1 node
    obtain ⟨held, expires⟩ := Prod.mk.inj flags
    have tagged := all Int .lowest .stored _ replies st (by decide) ran 1 n found held expires
    exact Bool.false_ne_true (untagged.symm.trans tagged)

end OxidArt

end Typed

end Radixox.Oxidart
