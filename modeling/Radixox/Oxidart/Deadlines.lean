import Radixox.Oxidart.Horizon
import Radixox.Oxidart.Reference

/-!
# `expire` and `persist`

Both go to the node of the key and change its expiry. Neither asks whether the node stores a value first, `expire` answers
whether there was no expiry before, and `persist` does not look at the clock. What they change is
one word of one node, so the statements here hold in every state that has a root.
-/

namespace Radixox.Oxidart
set_option autoImplicit false
open Radixox.Runs Radixox.PathForest

/-! ## Writing a node that stays where it is -/

/-- The nodes differ in their values and expiries only. -/
def Node.SamePlace {V : Type} (n m : Node V) : Prop :=
  m.compression = n.compression ∧ m.childs = n.childs ∧ m.overflowIdx = n.overflowIdx

theorem Node.compareCompressionKey_congr {V : Type} {n m : Node V} (same : m.compression = n.compression) (k : Bytes) :
    m.compareCompressionKey k = n.compareCompressionKey k := by
  unfold Node.compareCompressionKey Node.getCommonLen
  rw [same]

namespace OxidArt

variable {P : Policy} {V : Type} {st st' : OxidArt P V} {key : Bytes} {i : Nat} {n m : Node V}

theorem find_setNode (found : st.tryGetNode i = some n) (same : Node.SamePlace n m) : (st.setNode i m).find = st.find := by
  funext j r
  obtain ⟨-, childs, overflow⟩ := same
  unfold find
  rw [tryGetNode_setNode]
  by_cases here : j = i
  · rw [if_pos here, here, found]
    simp only [Option.map_some, Option.bind_eq_bind, Option.bind_some, childs, overflow]
    rfl
  · rw [if_neg here]
    rfl

/-- The traversal reads links and compressions only. -/
theorem walkFrom_congr (links : st'.find = st.find) (labels : st'.graph.label = st.graph.label) (fuel : Nat) :
    ∀ (x : Nat) (k pre : Bytes), st'.walkFrom fuel x k pre = st.walkFrom fuel x k pre := by
  induction fuel with
  | zero => exact fun _ _ _ => rfl
  | succ fuel ih =>
    intro x k pre
    cases k with
    | nil => rfl
    | cons radix rest =>
      simp only [walkFrom, links, ih]
      cases st.find x radix with
      | none => rfl
      | some child =>
        have label := congrFun labels child
        simp only [graph] at label
        cases found : st.tryGetNode child with
        | none =>
          rw [found, Option.map_none, Option.map_eq_none_iff] at label
          simp only [label, found]
        | some n =>
          rw [found, Option.map_some] at label
          obtain ⟨m, found', same⟩ := Option.map_eq_some_iff.1 label
          simp only [found', found, Node.compareCompressionKey_congr same, same]

theorem traverseToKey_congr (root : st'.rootIdx = st.rootIdx) (links : st'.find = st.find)
    (labels : st'.graph.label = st.graph.label) : st'.traverseToKey = st.traverseToKey := by
  funext k
  unfold traverseToKey walk
  rw [walkFrom_congr links labels, root]

/-! ## What the node of a key says -/

/-- The expiry stored at a node. -/
def nodeExp (st : OxidArt P V) (i : Nat) : Option Nat := (st.tryGetNode i).bind fun n => n.expAndRadix.exp

/-- The node of the key. -/
structure At (st : OxidArt P V) (key : Bytes) (i : Nat) (n : Node V) : Prop where
  target : st.traverseToKey key = some i
  found : st.tryGetNode i = some n

/-- The root has a node, as it has in every state that operations reach. -/
def Rooted (st : OxidArt P V) : Prop := ∃ root, st.tryGetNode st.rootIdx = some root

theorem IsSound.rooted (sound : IsSound st) : st.Rooted := by
  obtain ⟨path, I⟩ := sound
  exact I.root_node

theorem Rooted.occupied (rooted : st.Rooted) (target : st.traverseToKey key = some i) : ∃ n, At st key i n := by
  suffices some' : ∃ n, st.tryGetNode i = some n from some'.imp fun n found => ⟨target, found⟩
  by_cases empty : key = []
  · subst empty
    obtain rfl : st.rootIdx = i := Option.some.inj target
    exact rooted
  · have spec := walk_spec st empty
    have inner : key.isEmpty = false := by simpa using empty
    rw [traverseToKey, inner, if_neg Bool.false_ne_true] at target
    cases outcome : st.walk key with
    | found idx parent radix keyPath =>
      rw [outcome] at target spec
      obtain ⟨-, n, -, -, found, -⟩ := spec
      obtain rfl := Option.some.inj target
      exact ⟨n, found⟩
    | partialAt | noChild | gone =>
      rw [outcome] at target
      cases target

theorem At.unique {j : Nat} (there : At st key j m) (here : At st key i n) : m = n := by
  obtain rfl := Option.some.inj (there.target.symm.trans here.target)
  exact Option.some.inj (there.found.symm.trans here.found)

section At

variable (here : At st key i n)

include here

theorem At.entry : st.entry key = n.content := by
  rw [OxidArt.entry, here.target, Option.bind_some, content_eq here.found]

theorem At.live : st.live key = if n.isExpired st.now then none else n.content := by
  rw [OxidArt.live, here.entry, liveAt, Node.content, Node.isExpired_eq]
  cases n.val with
  | none => simp
  | some v => cases past : expired st.now n.expAndRadix.exp <;> simp [past]

theorem At.getTtl : st.getTtl key = .ok (if n.isExpired st.now then .keyNotExist else match n.expAndRadix.exp with
    | some exp => .keyWithTtl (exp - st.now)
    | none => .keyWithoutTtl) := by
  simp only [OxidArt.getTtl, here.target, getNode_ok here.found, bind, Except.bind]
  cases n.isExpired st.now with
  | true => rfl
  | false => cases n.expAndRadix.exp <;> rfl

theorem At.getIdx (current : n.isExpired st.now = false) : st.getIdx key = .ok (some i, st) := by
  have target := here.target
  unfold traverseToKey at target
  unfold OxidArt.getIdx
  by_cases empty : key.isEmpty = true
  · rw [if_pos empty] at target ⊢
    obtain rfl := Option.some.inj target
    simp only [getNode_ok here.found, bind, Except.bind, current, Bool.false_eq_true, if_false]
    rfl
  · rw [if_neg empty] at target ⊢
    cases outcome : st.walk key with
    | found idx parent radix keyPath =>
      rw [outcome] at target
      obtain rfl := Option.some.inj target
      simp only [getNode_ok here.found, bind, Except.bind, current, Bool.false_eq_true, if_false]
      rfl
    | partialAt | noChild | gone =>
      rw [outcome] at target
      cases target

omit here in
theorem getValue_of_current {now : Nat} (current : n.isExpired now = false) : n.getValue now = n.val := by
  rw [Node.getValue, current, if_neg Bool.false_ne_true]

theorem At.get (current : n.isExpired st.now = false) : replyOf (st.get key) = .ok n.val := by
  simp only [OxidArt.get, here.getIdx current, getNode_ok here.found, getValue_of_current current, bind, Except.bind]
  rfl

theorem At.getMut (current : n.isExpired st.now = false) : st.getMut key = .ok (n.val.map fun v => (i, v), st) := by
  simp only [OxidArt.getMut, here.getIdx current, getNode_ok here.found, getValue_of_current current, bind, Except.bind]
  rfl

/-- The key keeps its node when the node keeps its place, whatever becomes of tags. -/
theorem At.write (same : Node.SamePlace n m) (T : SameTree (st.setNode i m) st') :
    At st' key i m ∧ st'.now = st.now ∧ ∀ j, j ≠ i → st'.nodeExp j = st.nodeExp j := by
  have nodes : ∀ j, st'.tryGetNode j = if j = i then some m else st.tryGetNode j := by
    intro j
    rw [T.nodes, tryGetNode_setNode, here.found, Option.map_some]
  refine ⟨⟨?_, by rw [nodes, if_pos rfl]⟩, T.stores.stays.now, fun j other => ?_⟩
  · have links : st'.find = st.find := (congrArg Graph.kid T.graph).trans (find_setNode here.found same)
    have labels : st'.graph.label = st.graph.label := (congrArg Graph.label T.graph).trans (label_setNode here.found same.1)
    have root : st'.rootIdx = st.rootIdx := T.stores.stays.rootIdx
    rw [traverseToKey_congr root links labels, here.target]
  · rw [nodeExp, nodes, if_neg other, nodeExp]

/-- What `expire` does to an unexpired node: the expiry is stored, and the reply says whether there was none before. -/
theorem At.expire (current : n.isExpired st.now = false) {ttl : Nat} (fits : st.now + ttl < 2 ^ 56) :
    ∃ m st', st.expire key ttl = .ok (n.expAndRadix.exp.isNone, st') ∧ At st' key i m ∧ st'.now = st.now ∧ m.val = n.val ∧
      m.expAndRadix.exp = expOf (st.now + ttl) ∧ ∀ j, j ≠ i → st'.nodeExp j = st.nodeExp j := by
  have sum : saturatingAdd st.now ttl = st.now + ttl := by
    unfold saturatingAdd
    omega
  obtain ⟨e, ok, exp, -⟩ := n.expAndRadix.setExp_ok fits
  have wrote : ∀ st₁ : OxidArt P V, SameTree (st.setNode i { n with expAndRadix := e }) st₁ →
      At st₁ key i { n with expAndRadix := e } ∧ st₁.now = st.now ∧ ∀ j, j ≠ i → st₁.nodeExp j = st.nodeExp j :=
    fun _ T => here.write (m := { n with expAndRadix := e }) ⟨rfl, rfl, rfl⟩ T
  have run : ∀ b, (!n.expAndRadix.doesExpire) = b → st.expire key ttl = .ok (b, if b = true
      then { st.setNode i { n with expAndRadix := e } with map := (st.setNode i { n with expAndRadix := e }).map.tag i }
      else st.setNode i { n with expAndRadix := e }) := by
    rintro b rfl
    simp only [OxidArt.expire, here.target, getNode_ok here.found, bind, Except.bind, current, Bool.false_eq_true, if_false, sum, ok]
    rfl
  have flag : (!n.expAndRadix.doesExpire) = n.expAndRadix.exp.isNone := by
    rw [ExpAndRadix.doesExpire_eq, Option.not_isSome]
  refine ⟨{ n with expAndRadix := e }, _, run _ flag, ?_⟩
  split
  · obtain ⟨there, now, others⟩ := wrote _ (sameTree_tag _ i)
    exact ⟨there, now, rfl, exp, others⟩
  · obtain ⟨there, now, others⟩ := wrote _ (.refl _)
    exact ⟨there, now, rfl, exp, others⟩

theorem At.persist_permanent (permanent : n.expAndRadix.exp = none) : st.persist key = .ok (false, st) := by
  have stays : n.expAndRadix.doesExpire = false := by rw [ExpAndRadix.doesExpire_eq, permanent]; rfl
  simp only [OxidArt.persist, here.target, getNode_ok here.found, bind, Except.bind, stays, Bool.false_eq_true, if_false]
  rfl

/-- What `persist` does to a node with an expiry, past or not: the expiry goes, and the reply says whether there is a value. -/
theorem At.persist {e : Nat} (finite : n.expAndRadix.exp = some e) :
    ∃ m st', st.persist key = .ok (n.val.isSome, st') ∧ At st' key i m ∧ st'.now = st.now ∧ m.val = n.val ∧
      m.expAndRadix.exp = none := by
  have expires : n.expAndRadix.doesExpire = true := by rw [ExpAndRadix.doesExpire_eq, finite]; rfl
  have wrote : ∀ st₁ : OxidArt P V, SameTree (st.setNode i { n with expAndRadix := n.expAndRadix.setNoExpiracy }) st₁ →
      At st₁ key i { n with expAndRadix := n.expAndRadix.setNoExpiracy } ∧ st₁.now = st.now := by
    intro st₁ T
    obtain ⟨there, now, -⟩ := here.write (m := { n with expAndRadix := n.expAndRadix.setNoExpiracy }) ⟨rfl, rfl, rfl⟩ T
    exact ⟨there, now⟩
  cases val : n.val with
  | some v =>
    obtain ⟨there, now⟩ := wrote _ (sameTree_untag _ i)
    refine ⟨_, _, ?_, there, now, val, ExpAndRadix.exp_setNoExpiracy _⟩
    simp only [OxidArt.persist, here.target, getNode_ok here.found, bind, Except.bind, expires, if_true, val, Option.isSome_some]
    rfl
  | none =>
    obtain ⟨there, now⟩ := wrote _ (.refl _)
    refine ⟨_, _, ?_, there, now, val, ExpAndRadix.exp_setNoExpiracy _⟩
    simp only [OxidArt.persist, here.target, getNode_ok here.found, bind, Except.bind, expires, if_true, val, Option.isSome_none,
      Bool.false_eq_true, if_false]
    rfl

end At

/-- A live key has a node with the value, which has not expired. -/
theorem Rooted.at_of_live (rooted : st.Rooted) {v : V} {e : Option Nat} (live : st.live key = some (v, e)) :
    ∃ i n, At st key i n ∧ n.isExpired st.now = false ∧ n.val = some v := by
  cases target : st.traverseToKey key with
  | none =>
    rw [OxidArt.live, entry_of_traverse_none target] at live
    cases live
  | some i =>
    obtain ⟨n, here⟩ := rooted.occupied target
    rw [here.live] at live
    split at live
    · cases live
    next current =>
      obtain ⟨w, held, same⟩ := Option.map_eq_some_iff.1 live
      obtain ⟨rfl, -⟩ := Prod.mk.inj same
      exact ⟨i, n, here, Bool.not_eq_true _ ▸ current, held⟩

/-! ## `expire` -/

/-- `expire` answers whether the key is live. It then gives it that many seconds and leaves its value; otherwise no expiry
changes. -/
structure ExpireHonest (st : OxidArt P V) (key : Bytes) (ttl : Nat) (b : Bool) (st' : OxidArt P V) : Prop where
  live : b = true ↔ (st.live key).isSome = true
  ttl : b = true → st'.getTtl key = .ok (.keyWithTtl ttl)
  value : b = true → replyOf (st'.get key) = replyOf (st.get key)
  idle : b = false → ∀ i, st'.nodeExp i = st.nodeExp i

/-- The node of the key is missing or expired. Or the new expiry is not the largest of the field, which stands for none, and
the node holds a value and no expiry, or it holds no value and has that expiry already. -/
def Extendable (st : OxidArt P V) (key : Bytes) (ttl : Nat) : Prop :=
  ∀ i n, At st key i n → n.isExpired st.now = false →
    st.now + ttl ≠ ExpAndRadix.noExp ∧ n.expAndRadix.exp = if n.val.isSome then none else some (st.now + ttl)

/-- The largest expiry of the field removes the expiry, and no answer tells. -/
theorem At.expire_top_dishonest (here : At st key i n) (current : n.isExpired st.now = false) {ttl : Nat}
    (top : st.now + ttl = ExpAndRadix.noExp) :
    ¬ ∃ b st', st.expire key ttl = .ok (b, st') ∧ ExpireHonest st key ttl b st' := by
  obtain ⟨m, st', run, there, -, -, exp, -⟩ := here.expire current (by rw [top, ExpAndRadix.noExp_eq]; omega)
  rw [Outcomes.exists_ok_iff run]
  intro honest
  rw [expOf, if_pos top] at exp
  cases before : n.expAndRadix.exp with
  | none =>
    have status := honest.ttl (by rw [before]; rfl)
    have forever : m.isExpired st'.now = false := by rw [Node.isExpired_eq, exp]; rfl
    rw [there.getTtl, forever, if_neg Bool.false_ne_true, exp] at status
    cases status
  | some e =>
    have same := honest.idle (by rw [before]; rfl) i
    rw [nodeExp, there.found, Option.bind_some, exp, nodeExp, here.found, Option.bind_some, before] at same
    cases same

/-- The case of an unexpired node. -/
theorem At.honest_expire_iff (here : At st key i n) (current : n.isExpired st.now = false) {ttl : Nat}
    (fits : st.now + ttl < 2 ^ 56 - 1) :
    (∃ b st', st.expire key ttl = .ok (b, st') ∧ ExpireHonest st key ttl b st') ↔
      n.expAndRadix.exp = if n.val.isSome then none else some (st.now + ttl) := by
  obtain ⟨m, st', run, there, now, value, exp, others⟩ := here.expire current (show st.now + ttl < 2 ^ 56 by omega)
  rw [expOf_eq fits] at exp
  have fresh : m.isExpired st'.now = false := by
    rw [Node.isExpired_eq, exp, now, expired, Option.any_some, decide_eq_false_iff_not]
    omega
  have shown : (st.live key).isSome = n.val.isSome := by
    rw [here.live, current, if_neg Bool.false_ne_true, Node.content, Option.isSome_map]
  rw [Outcomes.exists_ok_iff run]
  cases val : n.val with
  | some v =>
    rw [val] at shown
    rw [Option.isSome_some, if_pos rfl]
    constructor
    · intro honest
      exact Option.isNone_iff_eq_none.1 (honest.live.2 shown)
    · intro permanent
      rw [permanent, Option.isNone_none]
      refine ⟨⟨fun _ => shown, fun _ => rfl⟩, fun _ => ?_, fun _ => ?_, fun h => absurd h.symm Bool.false_ne_true⟩
      · rw [there.getTtl, fresh, if_neg Bool.false_ne_true, exp, now]
        simp
      · rw [there.get fresh, here.get current, value]
  | none =>
    rw [val] at shown
    rw [Option.isSome_none, if_neg Bool.false_ne_true]
    constructor
    · intro honest
      have denied : n.expAndRadix.exp.isNone = false := by
        rw [Bool.eq_false_iff]
        intro promised
        exact absurd (shown.symm.trans (honest.live.1 promised)) Bool.false_ne_true
      have same := honest.idle denied i
      rw [nodeExp, there.found, Option.bind_some, exp, nodeExp, here.found, Option.bind_some] at same
      exact same.symm
    · intro already
      rw [already, Option.isNone_some]
      refine ⟨⟨fun h => absurd h Bool.false_ne_true, fun h => ?_⟩, fun h => absurd h Bool.false_ne_true,
        fun h => absurd h Bool.false_ne_true, fun _ j => ?_⟩
      · exact absurd (shown.symm.trans h) Bool.false_ne_true
      · by_cases same : j = i
        · rw [same, nodeExp, there.found, Option.bind_some, exp, nodeExp, here.found, Option.bind_some, already]
        · exact others j same

/-- A refusal that changes nothing is honest about a dead key. -/
theorem expire_honest_idle {ttl : Nat} (run : st.expire key ttl = .ok (false, st)) (dead : st.live key = none) :
    ∃ b st', st.expire key ttl = .ok (b, st') ∧ ExpireHonest st key ttl b st' := by
  refine ⟨false, st, run, ?_, fun h => absurd h Bool.false_ne_true, fun h => absurd h Bool.false_ne_true, fun _ _ => rfl⟩
  rw [dead]
  exact Iff.rfl

/-- An expiry that fits the field: `expire` is honest about exactly these keys. -/
theorem expire_honest_iff (rooted : st.Rooted) (key : Bytes) {ttl : Nat} (fits : st.now + ttl < 2 ^ 56) :
    (∃ b st', st.expire key ttl = .ok (b, st') ∧ ExpireHonest st key ttl b st') ↔ st.Extendable key ttl := by
  cases target : st.traverseToKey key with
  | none =>
    have run : st.expire key ttl = .ok (false, st) := by rw [expire, target]
    have dead : st.live key = none := by rw [live, entry_of_traverse_none target]; rfl
    refine ⟨fun _ i n here => ?_, fun _ => expire_honest_idle run dead⟩
    exact absurd (target.symm.trans here.target) (by simp)
  | some i =>
    obtain ⟨n, here⟩ := rooted.occupied target
    cases past : n.isExpired st.now with
    | true =>
      have run : st.expire key ttl = .ok (false, st) := by
        simp only [expire, target, getNode_ok here.found, bind, Except.bind, past, if_true]
        rfl
      have dead : st.live key = none := by rw [here.live, past, if_pos rfl]
      refine ⟨fun _ j m there current => ?_, fun _ => expire_honest_idle run dead⟩
      rw [there.unique here, past] at current
      cases current
    | false =>
      have extendable : st.Extendable key ttl ↔
          st.now + ttl ≠ ExpAndRadix.noExp ∧ n.expAndRadix.exp = if n.val.isSome then none else some (st.now + ttl) :=
        ⟨fun all => all i n here past, fun this j m there _ => there.unique here ▸ this⟩
      rw [extendable]
      by_cases top : st.now + ttl = ExpAndRadix.noExp
      · exact ⟨fun honest => absurd honest (here.expire_top_dishonest past top), fun both => absurd top both.1⟩
      · rw [here.honest_expire_iff past (by rw [ExpAndRadix.noExp_eq] at top; omega)]
        exact (and_iff_right top).symm

/-- A permanent key gets its first lifetime. -/
theorem expire_honest_iff_first : ∃ replies st,
    run (exec .stored) [.tree (.set [97] (.int 1)), .tree (.setNow 7)] (new : OxidArt .lowest (Value Int)) = .ok (replies, st) ∧
    ∃ b st', st.expire [97] 60 = .ok (b, st') ∧ ExpireHonest st [97] 60 b st' := by
  refine ⟨_, _, rfl, (expire_honest_iff ⟨_, rfl⟩ [97] (by decide +kernel)).2 ?_⟩
  intro i n here current
  obtain rfl := Option.some.inj (here.target.symm.trans rfl)
  obtain rfl := Option.some.inj (here.found.symm.trans rfl)
  exact ⟨by decide, rfl⟩

/-- A live key that has a lifetime gets another one, and the answer denies it. -/
theorem expire_denies_live : ∃ replies st,
    run (exec .stored) [.tree (.setTtl [97] 60 (.int 1))] (new : OxidArt .lowest (Value Int)) = .ok (replies, st) ∧
    Reachable .stored st ∧ replyOf (st.get [97]) = .ok (some (.int 1)) ∧ st.getTtl [97] = .ok (.keyWithTtl 60) ∧
    ∃ st', st.expire [97] 120 = .ok (false, st') ∧ st'.getTtl [97] = .ok (.keyWithTtl 120) ∧
      ¬ ExpireHonest st [97] 120 false st' := by
  have sound : Meets (exec .stored) (fun st c => c.Sound st) [.tree (.setTtl [97] 60 (.int 1))]
    (new : OxidArt .lowest (Value Int)) := by decide +kernel
  refine ⟨_, _, rfl, .run .refl sound rfl, rfl, rfl, _, rfl, rfl, fun honest => ?_⟩
  exact absurd (honest.live.2 rfl) Bool.false_ne_true

/-! ## `persist` -/

/-- `persist` answers whether the key is live and has a lifetime. It then takes the lifetime away and leaves the value. -/
structure PersistHonest (st : OxidArt P V) (key : Bytes) (b : Bool) (st' : OxidArt P V) : Prop where
  finite : b = true ↔ ∃ v e, st.live key = some (v, some e)
  ttl : b = true → st'.getTtl key = .ok .keyWithoutTtl
  value : b = true → replyOf (st'.get key) = replyOf (st.get key)

/-- The key still stores an entry that has expired. -/
def Lapsed (st : OxidArt P V) (key : Bytes) : Prop := ∃ v e, st.entry key = some (v, e) ∧ expired st.now e = true

/-- The case of a node with an expiry. -/
theorem At.persist_honest_iff (here : At st key i n) {e : Nat} (finite : n.expAndRadix.exp = some e) :
    (∃ b st', st.persist key = .ok (b, st') ∧ PersistHonest st key b st') ↔ ¬ (n.val.isSome = true ∧ n.isExpired st.now = true) := by
  obtain ⟨m, st', run, there, now, value, exp⟩ := here.persist finite
  have forever : m.isExpired st'.now = false := by rw [Node.isExpired_eq, exp]; rfl
  rw [Outcomes.exists_ok_iff run]
  cases val : n.val with
  | none =>
    have dead : st.live key = none := by rw [here.live, Node.content, val]; simp
    refine ⟨fun _ both => absurd both.1 Bool.false_ne_true, fun _ => ⟨?_, fun h => absurd h Bool.false_ne_true,
      fun h => absurd h Bool.false_ne_true⟩⟩
    simp [dead]
  | some v =>
    cases past : n.isExpired st.now with
    | true =>
      have dead : st.live key = none := by rw [here.live, past, if_pos rfl]
      refine ⟨fun honest => ?_, fun absurd' => absurd ⟨rfl, rfl⟩ absurd'⟩
      obtain ⟨w, e', held⟩ := honest.finite.1 rfl
      exact absurd (dead.symm.trans held) (by simp)
    | false =>
      have held : st.live key = some (v, some e) := by
        rw [here.live, past, if_neg Bool.false_ne_true, Node.content, val, finite]
        rfl
      refine ⟨fun _ both => absurd both.2 Bool.false_ne_true, fun _ => ⟨⟨fun _ => ⟨v, e, held⟩, fun _ => rfl⟩, fun _ => ?_, fun _ => ?_⟩⟩
      · rw [there.getTtl, forever, if_neg Bool.false_ne_true, exp]
      · rw [there.get forever, here.get past, value]

/-- `persist` is honest about exactly the keys that store no expired entry. -/
theorem persist_honest_iff (rooted : st.Rooted) (key : Bytes) :
    (∃ b st', st.persist key = .ok (b, st') ∧ PersistHonest st key b st') ↔ ¬ st.Lapsed key := by
  have idle : st.persist key = .ok (false, st) → (∀ v e, st.live key ≠ some (v, some e)) →
      ∃ b st', st.persist key = .ok (b, st') ∧ PersistHonest st key b st' := by
    intro run none'
    refine ⟨false, st, run, ?_, fun h => absurd h Bool.false_ne_true, fun h => absurd h Bool.false_ne_true⟩
    exact ⟨fun h => absurd h Bool.false_ne_true, fun ⟨v, e, held⟩ => absurd held (none' v e)⟩
  cases target : st.traverseToKey key with
  | none =>
    have entry : st.entry key = none := entry_of_traverse_none target
    refine ⟨fun _ ⟨v, e, held, _⟩ => absurd (entry.symm.trans held) (by simp), fun _ => idle (by rw [persist, target]) ?_⟩
    intro v e held
    rw [live, entry] at held
    cases held
  | some i =>
    obtain ⟨n, here⟩ := rooted.occupied target
    have lapsed : st.Lapsed key ↔ n.val.isSome = true ∧ n.isExpired st.now = true := by
      unfold Lapsed
      rw [here.entry, Node.content, Node.isExpired_eq]
      cases n.val <;> simp
    cases exp : n.expAndRadix.exp with
    | none =>
      rw [lapsed, Node.isExpired_eq, exp]
      refine ⟨fun _ both => absurd both.2 Bool.false_ne_true, fun _ => idle (here.persist_permanent exp) fun v e held => ?_⟩
      rw [live, here.entry, Node.content, exp] at held
      obtain ⟨w, -, same⟩ := Option.map_eq_some_iff.1 (Option.filter_eq_some_iff.1 held).1
      cases same
    | some e => rw [lapsed, here.persist_honest_iff exp]

end OxidArt

end Radixox.Oxidart
