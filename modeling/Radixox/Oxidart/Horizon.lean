import Radixox.Lib.Outcomes
import Radixox.Oxidart.EmptyKey

/-!
# The horizon

An expiry is stored in 56 bits of a word. A write beyond the field panics, whatever the way it takes. `expire` and
`get_ttl` look at the node of a key only: that it is there and unexpired, not whether it stores a value.
-/

namespace Radixox.Oxidart
set_option autoImplicit false
open Radixox.Outcomes Radixox.Runs

namespace OxidArt

variable {P : Policy} {V : Type} {st : OxidArt P V} {path : Nat → Option Bytes}

/-! ## Expiries beyond the field -/

theorem setExp_large (e : ExpAndRadix) {exp : Nat} (word : exp < 2 ^ 64) (large : 2 ^ 56 ≤ exp) :
    e.setExp exp = .error .expTooLarge := by
  unfold ExpAndRadix.setExp
  rw [if_neg]
  intro fits
  have := (ExpAndRadix.and_mask_eq_zero word).1 fits
  omega

theorem new_large (r : UInt8) {exp : Nat} (word : exp < 2 ^ 64) (large : 2 ^ 56 ≤ exp) :
    ExpAndRadix.new exp r = .error .expTooLarge := by
  unfold ExpAndRadix.new
  rw [if_neg]
  intro fits
  have := (ExpAndRadix.and_mask_eq_zero word).1 fits
  omega

/-- The call does not return. -/
abbrev Fails {α : Type} (run : Exec α) : Prop := Returns (fun _ => False) run

section Large

variable {exp : Nat} (word : exp < 2 ^ 64) (large : 2 ^ 56 ≤ exp)

include word large

theorem setVal_large (n : Node V) (v : V) : Fails (n.setVal v exp) := by
  unfold Node.setVal
  rw [setExp_large n.expAndRadix word large]
  trivial

theorem createNodeWithVal_large (st : OxidArt P V) (p : Nat) (r : UInt8) (v : V) (c : Bytes) :
    Fails (st.createNodeWithVal p r v c exp) := by
  refine (returns_self _).bind fun father _ => ?_
  have failed : Fails (Node.newLeaf c v exp p r) := by
    unfold Node.newLeaf
    rw [new_large r word large]
    trivial
  exact failed.bind fun _ absurd => absurd.elim

theorem splitNode_large (st : OxidArt P V) (common : Nat) (rest : Bytes) (i : Nat) (v : V) :
    Fails (st.splitNode common rest i (some exp) (some v)) := by
  refine (returns_self _).bind fun old _ => ?_
  cases ends : common == rest.length with
  | true =>
    have failed : Fails (splitIntermediate old common true (some exp) (some v)) := setVal_large word large _ v
    exact failed.bind fun _ absurd => absurd.elim
  | false =>
    refine (returns_self _).bind fun node _ => ?_
    have leaf : ∀ st' : OxidArt P V, Fails (st'.splitLeaf common rest i (some exp) (some v)) := by
      intro st'
      unfold splitLeaf
      split
      · trivial
      next some' => exact createNodeWithVal_large word large st' i _ _ _
      next none' => cases none'
    split
    · trivial
    · split
      · exact (returns_self _).bind fun st' _ => leaf st'
      · exact (returns_self _).bind fun st' _ => leaf st'

/-- Every way to write a value stores the expiry, so none returns. -/
theorem setInternal_large (st : OxidArt P V) (key : Bytes) (v : V) : Fails (st.setInternal key exp v) := by
  unfold setInternal
  split
  · exact (returns_self _).bind fun root _ => (setVal_large word large root v).bind fun _ absurd => absurd.elim
  · split
    · exact (createNodeWithVal_large word large st _ _ v _).bind fun _ absurd => absurd.elim
    · trivial
    · trivial
    · exact (returns_self _).bind fun node _ => (setVal_large word large node v).bind fun _ absurd => absurd.elim
    · exact (splitNode_large word large st _ _ _ v).bind fun _ absurd => absurd.elim

end Large

/-! ## The expiry of a key -/

theorem keyExp_of_entry {key : Bytes} {v : V} {e : Option Nat} (held : st.entry key = some (v, e)) : st.keyExp key = e := by
  obtain ⟨i, target, content⟩ := Option.bind_eq_some_iff.1 held
  obtain ⟨n, found, some'⟩ := Option.bind_eq_some_iff.1 content
  obtain ⟨w, -, same⟩ := Option.map_eq_some_iff.1 some'
  rw [keyExp, target, Option.bind_some, found, Option.bind_some]
  exact (Prod.mk.inj same).2

/-- The node of the key exists and has not expired, so `expire` changes it. -/
def Expirable (st : OxidArt P V) (key : Bytes) : Prop :=
  ∃ i n, st.traverseToKey key = some i ∧ st.tryGetNode i = some n ∧ n.isExpired st.now = false

theorem expire_idle (I : Inv st [] path) {key : Bytes} (idle : ¬ st.Expirable key) (ttl : Nat) :
    st.expire key ttl = .ok (false, st) := by
  unfold expire
  cases target : st.traverseToKey key with
  | none => rfl
  | some i =>
    obtain ⟨l, read⟩ := I.forest.pathOcc ((traverseToKey_iff I.forest).1 target)
    obtain ⟨n, found, -⟩ := graph_label_iff.1 read
    have past : n.isExpired st.now = true := by
      by_contra current
      exact idle ⟨i, n, target, found, by simpa using current⟩
    simp only [getNode_ok found, bind, Except.bind, past, if_true]
    rfl

/-- The effect of `expire` on a node: the expiry is stored, and the reply says whether there was none before. -/
theorem expire_sets (I : Inv st [] path) {key : Bytes} (active : st.Expirable key) {ttl : Nat}
    (small : saturatingAdd st.now ttl < 2 ^ 56) :
    ∃ st', st.expire key ttl = .ok ((st.keyExp key).isNone, st') ∧ st'.keyExp key = expOf (saturatingAdd st.now ttl) ∧
      Step (fun _ => True) st [] path st' path := by
  obtain ⟨i, n, target, found, current⟩ := active
  have live := (traverseToKey_iff I.forest).1 target
  obtain ⟨e, ok, exp, -⟩ := n.expAndRadix.setExp_ok small
  have before : st.keyExp key = n.expAndRadix.exp := by
    rw [keyExp, target, Option.bind_some, found, Option.bind_some]
  obtain ⟨m, eq⟩ : ∃ m : Node V, m = { n with expAndRadix := e } := ⟨_, rfl⟩
  have S : Step (fun _ => True) st [] path (st.setNode i m) path :=
    Step.setNode I _ found (by rw [eq]) (by rw [eq]) (by rw [eq]) (by rw [eq])
  have after : ∀ st' : OxidArt P V, SameTree (st.setNode i m) st' →
      st'.keyExp key = expOf (saturatingAdd st.now ttl) ∧ Step (fun _ => True) st [] path st' path := by
    intro st' T
    refine ⟨?_, S.same T⟩
    have I' := (S.same T).inv
    rw [keyExp, (traverseToKey_iff I'.forest).2 live, Option.bind_some, T.nodes, tryGetNode_setNode, if_pos rfl, found,
      Option.map_some, Option.bind_some, eq, exp]
    rfl
  have reply : (!n.expAndRadix.doesExpire) = (st.keyExp key).isNone := by
    rw [before, ExpAndRadix.doesExpire_eq]
    cases n.expAndRadix.exp <;> rfl
  refine ⟨if (!n.expAndRadix.doesExpire) = true then { st.setNode i m with map := (st.setNode i m).map.tag i } else st.setNode i m,
    ?_, ?_⟩
  · simp only [expire, target, getNode_ok found, bind, Except.bind, current, Bool.false_eq_true, if_false, ok, eq, reply]
    rfl
  · split
    · exact after _ (sameTree_tag _ _)
    · exact after _ (.refl _)

theorem expire_large {key : Bytes} (active : st.Expirable key) {ttl : Nat} (large : 2 ^ 56 ≤ saturatingAdd st.now ttl) :
    Fails (st.expire key ttl) := by
  obtain ⟨i, n, target, found, current⟩ := active
  have word : saturatingAdd st.now ttl < 2 ^ 64 := by
    unfold saturatingAdd
    omega
  simp only [expire, target, getNode_ok found, bind, Except.bind, current, Bool.false_eq_true, if_false,
    setExp_large n.expAndRadix word large]
  trivial

/-- A call of `expire` that returns changed at most the expiry of one node. -/
theorem expire_steps (I : Inv st [] path) {key : Bytes} {ttl : Nat} {b : Bool} {st' : OxidArt P V}
    (ran : st.expire key ttl = .ok (b, st')) : Step (fun _ => True) st [] path st' path := by
  by_cases active : st.Expirable key
  · rcases Nat.lt_or_ge (saturatingAdd st.now ttl) (2 ^ 56) with small | large
    · obtain ⟨st₁, run, -, step⟩ := expire_sets I active small
      obtain ⟨-, rfl⟩ := Prod.mk.inj (Except.ok.inj (run.symm.trans ran))
      exact step
    · exact (Yields.of_ok (expire_large active large) ran).elim
  · obtain ⟨-, rfl⟩ := Prod.mk.inj (Except.ok.inj ((expire_idle I active ttl).symm.trans ran))
    exact .refl I _

/-! ## The status of a key -/

/-- `get_ttl` says that the key does not exist exactly when it has no unexpired node. -/
theorem getTtl_notExist_iff {key : Bytes} (occupied : ∀ i, st.traverseToKey key = some i → ∃ n, st.tryGetNode i = some n) :
    st.getTtl key = .ok .keyNotExist ↔ ¬ st.Expirable key := by
  unfold getTtl
  cases target : st.traverseToKey key with
  | none =>
    refine ⟨fun _ ⟨i, n, at', _⟩ => ?_, fun _ => rfl⟩
    rw [target] at at'
    cases at'
  | some i =>
    obtain ⟨n, found⟩ := occupied i target
    have only : st.Expirable key ↔ n.isExpired st.now = false := by
      constructor
      · rintro ⟨j, m, at', found', current⟩
        obtain rfl := Option.some.inj (target.symm.trans at')
        obtain rfl := Option.some.inj (found.symm.trans found')
        exact current
      · exact fun current => ⟨i, n, target, found, current⟩
    rw [only]
    simp only [getNode_ok found, bind, Except.bind]
    cases n.isExpired st.now with
    | true => simp [pure, Except.pure]
    | false => cases n.expAndRadix.exp <;> simp [pure, Except.pure]

/-- Where `get_idx` ends if it returns: at no node, at an expired one, or at one that it leaves alone. -/
theorem getIdx_sees {key : Bytes} {found : Option Nat} {st' : OxidArt P V} (ran : st.getIdx key = .ok (found, st')) :
    (st.traverseToKey key = none ∧ found = none) ∨ ∃ i n, st.traverseToKey key = some i ∧ st.tryGetNode i = some n ∧
      if n.isExpired st.now then found = none else found = some i ∧ st' = st := by
  have ends : ∀ {i : Nat} {n : Node V} {delete : Exec (OxidArt P V)}, (if n.isExpired st.now = true then
        delete >>= fun st => pure (none, st) else pure (some i, st) : Exec (Option Nat × OxidArt P V)) = .ok (found, st') →
      if n.isExpired st.now then found = none else found = some i ∧ st' = st := by
    intro i n delete ran
    cases past : n.isExpired st.now with
    | true =>
      rw [past, if_pos rfl] at ran
      obtain ⟨st₁, -, same⟩ := exists_of_bind ran
      exact (Prod.mk.inj (Except.ok.inj same)).1.symm
    | false =>
      rw [past, if_neg Bool.false_ne_true] at ran
      obtain ⟨rfl, rfl⟩ := Prod.mk.inj (Except.ok.inj ran)
      exact ⟨rfl, rfl⟩
  unfold getIdx at ran
  unfold traverseToKey
  split at ran
  next empty =>
    obtain ⟨n, node, ran⟩ := exists_of_bind ran
    exact .inr ⟨st.rootIdx, n, if_pos empty, tryGetNode_of_getNode node, ends ran⟩
  next inner =>
    rw [if_neg inner]
    split at ran
    next i parent radix keyPath walked =>
      obtain ⟨n, node, ran⟩ := exists_of_bind ran
      exact .inr ⟨i, n, rfl, tryGetNode_of_getNode node, ends ran⟩
    next =>
      obtain ⟨rfl, -⟩ := Prod.mk.inj (Except.ok.inj ran)
      exact .inl ⟨rfl, rfl⟩

/-- What a call of `get` that returns has seen: no node for the key, or the value of its node. -/
theorem get_sees {key : Bytes} {v : Option V} (returns : replyOf (st.get key) = .ok v) :
    (st.traverseToKey key = none ∧ v = none) ∨
      ∃ i n, st.traverseToKey key = some i ∧ st.tryGetNode i = some n ∧ v = n.getValue st.now := by
  cases called : st.get key with
  | error e =>
    rw [called] at returns
    cases returns
  | ok p =>
    rw [called] at returns
    obtain rfl := Except.ok.inj returns
    obtain ⟨⟨found, st₁⟩, walked, ran⟩ := exists_of_bind called
    rcases getIdx_sees walked with ⟨target, rfl⟩ | ⟨i, n, target, node, outcome⟩
    · exact .inl ⟨target, congrArg Prod.fst (Except.ok.inj ran).symm⟩
    · refine .inr ⟨i, n, target, node, ?_⟩
      cases past : n.isExpired st.now with
      | true =>
        rw [past, if_pos rfl] at outcome
        subst outcome
        rw [Node.getValue, past, if_pos rfl]
        exact congrArg Prod.fst (Except.ok.inj ran).symm
      | false =>
        rw [past, if_neg Bool.false_ne_true] at outcome
        obtain ⟨rfl, rfl⟩ := outcome
        obtain ⟨m, again, ran⟩ := exists_of_bind ran
        obtain rfl := Option.some.inj (node.symm.trans (tryGetNode_of_getNode again))
        exact congrArg Prod.fst (Except.ok.inj ran).symm

/-- An unexpired node stands for the key and stores no value. -/
def Hollow (st : OxidArt P V) (key : Bytes) : Prop :=
  ∃ i n, st.traverseToKey key = some i ∧ st.tryGetNode i = some n ∧ n.isExpired st.now = false ∧ n.val = none

instance (st : OxidArt P V) (key : Bytes) : Decidable (st.Hollow key) :=
  decidable_of_iff (∃ i ∈ st.traverseToKey key, ∃ n ∈ st.tryGetNode i, n.isExpired st.now = false ∧ n.val.isNone = true)
    (by simp only [Hollow, Option.mem_def, Option.isNone_iff_eq_none]; grind)

/-- In any state in which `get` returns: `get_ttl` denies a key exactly when `get` does, or its node is hollow. -/
theorem getTtl_agrees_iff {key : Bytes} {v : Option V} (returns : replyOf (st.get key) = .ok v) :
    (st.getTtl key = .ok .keyNotExist ↔ replyOf (st.get key) = .ok none) ↔ ¬ st.Hollow key := by
  rw [returns, Except.ok.injEq]
  rcases get_sees returns with ⟨target, rfl⟩ | ⟨i, n, target, found, rfl⟩
  · have absent : ∀ i, st.traverseToKey key ≠ some i := by simp [target]
    rw [getTtl_notExist_iff fun i at' => absurd at' (absent i)]
    have idle : ¬ st.Expirable key := fun ⟨i, _, at', _⟩ => absent i at'
    have full : ¬ st.Hollow key := fun ⟨i, _, at', _⟩ => absent i at'
    simp only [idle, full, not_false_eq_true]
  · have only : ∀ {j m}, st.traverseToKey key = some j → st.tryGetNode j = some m → m = n := by
      intro j m at' found'
      obtain rfl := Option.some.inj (target.symm.trans at')
      exact Option.some.inj (found'.symm.trans found)
    have active : st.Expirable key ↔ n.isExpired st.now = false :=
      ⟨fun ⟨_, _, at', found', current⟩ => only at' found' ▸ current, fun current => ⟨i, n, target, found, current⟩⟩
    have hollow : st.Hollow key ↔ n.isExpired st.now = false ∧ n.val = none :=
      ⟨fun ⟨_, _, at', found', both⟩ => only at' found' ▸ both, fun both => ⟨i, n, target, found, both⟩⟩
    rw [getTtl_notExist_iff fun j at' => ⟨n, Option.some.inj (target.symm.trans at') ▸ found⟩, active, hollow, Node.getValue]
    cases n.isExpired st.now with
    | true => simp
    | false => cases n.val <;> simp

/-- A stored key beside keys of other first bytes has a status. -/
theorem getTtl_agrees_iff_stored : ∃ replies st,
    run (exec .stored) [.tree (.set [97, 98] (.int 1)), .tree (.setTtl [97, 99] 5 (.int 2)), .tree (.set [98] (.int 3)),
      .tree (.set [99] (.int 4))] (new : OxidArt .lowest (Value Int)) = .ok (replies, st) ∧
    (st.getTtl [97, 99] = .ok .keyNotExist ↔ replyOf (st.get [97, 99]) = .ok none) := by
  refine ⟨_, _, rfl, (getTtl_agrees_iff (v := some (.int 2)) rfl).2 (by decide +kernel)⟩

end OxidArt

end Radixox.Oxidart
