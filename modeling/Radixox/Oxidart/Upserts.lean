import Radixox.Oxidart.Removals
import Radixox.Oxidart.Commands

/-!
# Values in place

The typed commands read and write the value of a node without a new insertion.
They come in three shapes: look a container up and read it (`readAs`), look it up and
remove items (`removeFrom`), and get or create it, then change it (`upsert`). Each
shape has one specification; the commands are instances.
-/

namespace Radixox.Oxidart
set_option autoImplicit false
open Radixox.PathForest

namespace OxidArt

variable {P : Policy} {V : Type} {st st₁ st' : OxidArt P V} {cut : List Nat} {path : Nat → Option Bytes} {key : Bytes}

/-! ## Operations on any key, the empty one included -/

/-- The invariant, the clock and the root survive. -/
def Keeps (st : OxidArt P V) (cut : List Nat) (st' : OxidArt P V) : Prop :=
  Stays st st' ∧ ∃ path', Inv st' cut path'

theorem Step.keeps {K : Bytes → Prop} {path' : Nat → Option Bytes} (S : Step K st cut path st' path') : Keeps st cut st' :=
  ⟨S.stays, path', S.inv⟩

theorem Keeps.trans (first : Keeps st cut st₁) (second : Keeps st₁ cut st') : Keeps st cut st' :=
  ⟨first.1.trans second.1, second.2⟩

/-- A lookup drops dead entries, or clears the root, which is expired and may absorb a child. -/
def Collects (st : OxidArt P V) (key : Bytes) (st' : OxidArt P V) : Prop :=
  Sheds st st' ∨ key = [] ∧ ∃ root, st.tryGetNode st.rootIdx = some root ∧ root.isExpired st.now = true ∧
    (st.setNode st.rootIdx root.clearVal).tryRecompress st.rootIdx = .ok st'

theorem getIdx_keeps (I : Inv st cut path) (key : Bytes) :
    ∃ i st', st.getIdx key = .ok (i, st') ∧ Keeps st cut st' ∧ Collects st key st' ∧
      (i = none ∨ ∃ j n, i = some j ∧ st' = st ∧ path j = some key ∧ st.tryGetNode j = some n ∧
        n.isExpired st.now = false) := by
  by_cases empty : key = []
  · subst empty
    obtain ⟨root, found⟩ := I.root_node
    simp only [getIdx, List.isEmpty_nil, if_true, getNode_ok found, bind, Except.bind]
    cases past : root.isExpired st.now with
    | true =>
      obtain ⟨st', path', run, I', stays, -⟩ := clearRoot_ok I found
      simp only [if_true, run]
      exact ⟨none, st', rfl, ⟨stays, path', I'⟩, .inr ⟨rfl, root, found, past, run⟩, .inl rfl⟩
    | false =>
      exact ⟨some st.rootIdx, st, rfl, ⟨.refl st, path, I⟩, .inl (.refl st),
        .inr ⟨st.rootIdx, root, rfl, rfl, I.forest.rootPath, found, past⟩⟩
  · obtain ⟨i, st', path', run, S, sheds, -, outcome⟩ := getIdx_ok I empty
    exact ⟨i, st', run, S.keeps, .inl sheds, outcome.imp And.left id⟩

theorem del_keeps (I : Inv st cut path) (key : Bytes) : ∃ v st', st.del key = .ok (v, st') ∧ Keeps st cut st' := by
  by_cases empty : key = []
  · subst empty
    obtain ⟨root, found⟩ := I.root_node
    obtain ⟨st', path', run, I', stays, -⟩ := clearRoot_ok I found
    refine ⟨root.val, st', ?_, stays, path', I'⟩
    simp only [del, List.isEmpty_nil, if_true, getNode_ok found, run, bind, Except.bind]
    rfl
  · obtain ⟨st', path', run, S, -⟩ := del_ok I empty
    exact ⟨_, st', run, S.keeps⟩

theorem get_keeps (I : Inv st cut path) (key : Bytes) :
    ∃ v st', st.get key = .ok (v, st') ∧ Keeps st cut st' ∧ Collects st key st' := by
  obtain ⟨i, st', run, keeps, collects, outcome⟩ := getIdx_keeps I key
  simp only [get, run, bind, Except.bind]
  rcases outcome with rfl | ⟨j, n, rfl, rfl, -, found, -⟩
  · exact ⟨none, st', rfl, keeps, collects⟩
  · simp only [getNode_ok found]
    exact ⟨_, st', rfl, keeps, collects⟩

/-! ## Reading and writing a value in place -/

theorem putVal_ok (I : Inv st cut path) (K : Bytes → Prop) {i : Nat} {n : Node V} (found : st.tryGetNode i = some n)
    (at' : path i = some key) (v : V) :
    ∃ st', st.putVal i v = .ok st' ∧ Step K st cut path st' path ∧ Shrinks st st' ∧
      st'.entry = Function.update st.entry key (some (v, n.expAndRadix.exp)) := by
  refine ⟨st.setNode i { n with val := some v }, ?_, Step.setNode I K found rfl rfl rfl rfl, ?_,
    entry_setNode I found at' rfl rfl rfl rfl⟩
  · simp only [putVal, getNode_ok found, bind, Except.bind]
    rfl
  · intro j free
    rw [label_setNode (m := { n with val := some v }) found rfl]
    exact free

/-- The node `i` is the node of `key` and holds a current value. -/
structure Holds (st : OxidArt P V) (path : Nat → Option Bytes) (key : Bytes) (i : Nat) (v : V) (e : Option Nat) : Prop where
  at' : path i = some key
  node : ∃ n, st.tryGetNode i = some n ∧ n.val = some v ∧ n.expAndRadix.exp = e
  current : expired st.now e = false

theorem Holds.live (I : Inv st cut path) {i : Nat} {v : V} {e : Option Nat} (H : Holds st path key i v e) :
    st.live key = some (v, e) := by
  obtain ⟨n, found, val, rfl⟩ := H.node
  rw [OxidArt.live, I.entry_of_path H.at', content_eq found, Node.content, val, Option.map_some, liveAt,
    Option.filter_some_pos]
  simp [H.current]

theorem putVal_holds (I : Inv st cut path) (K : Bytes → Prop) {i : Nat} {v : V} {e : Option Nat}
    (H : Holds st path key i v e) (w : V) :
    ∃ st', st.putVal i w = .ok st' ∧ Step K st cut path st' path ∧ Shrinks st st' ∧
      st'.entry = Function.update st.entry key (some (w, e)) := by
  obtain ⟨n, found, -, rfl⟩ := H.node
  exact putVal_ok I K found H.at' w

/-- What a current node shows is what a reader of its key sees. -/
theorem Inv.holds_or_dead (I : Inv st cut path) {i : Nat} {n : Node V} (found : st.tryGetNode i = some n)
    (at' : path i = some key) :
    (∃ v, n.getValue st.now = some v ∧ Holds st path key i v n.expAndRadix.exp) ∨
      n.getValue st.now = none ∧ st.live key = none := by
  cases past : n.isExpired st.now with
  | true => exact .inr ⟨by simp [Node.getValue, past], I.live_of_expired found past at'⟩
  | false =>
    obtain ⟨held, value⟩ := I.live_of_current found past at'
    cases val : n.val with
    | none => exact .inr ⟨by rw [value, val], by rw [held, Node.content, val]; rfl⟩
    | some v =>
      exact .inl ⟨v, by rw [value, val], at', ⟨n, found, val, rfl⟩, by rw [← Node.isExpired_eq, past]⟩

theorem getMut_ok (I : Inv st cut path) (nonempty : key ≠ []) :
    ∃ res st' path', st.getMut key = .ok (res, st') ∧ Step (Present st') st cut path st' path' ∧ Sheds st st' ∧
      Shrinks st st' ∧
      (res = none ∧ st.live key = none ∨
        ∃ i v e, res = some (i, v) ∧ st' = st ∧ path' = path ∧ Holds st path key i v e) := by
  obtain ⟨idx, st', path', run, S, sheds, shrinks, outcome⟩ := getIdx_ok I nonempty
  simp only [getMut, run, bind, Except.bind]
  rcases outcome with ⟨rfl, dead⟩ | ⟨j, n, rfl, rfl, at', found, -⟩
  · exact ⟨none, st', path', rfl, S, sheds, shrinks, .inl ⟨rfl, dead⟩⟩
  · simp only [getNode_ok found]
    refine ⟨_, st', path, rfl, .refl I _, sheds, shrinks, ?_⟩
    rcases I.holds_or_dead found at' with ⟨v, value, H⟩ | ⟨value, dead⟩
    · exact .inr ⟨j, v, _, by rw [value]; rfl, rfl, rfl, H⟩
    · exact .inl ⟨by rw [value]; rfl, dead⟩

theorem getMut_keeps (I : Inv st cut path) (key : Bytes) :
    ∃ res st', st.getMut key = .ok (res, st') ∧ Keeps st cut st' ∧ Collects st key st' ∧
      ∀ i v, res = some (i, v) → st' = st ∧ ∃ e, Holds st path key i v e := by
  obtain ⟨idx, st', run, keeps, collects, outcome⟩ := getIdx_keeps I key
  simp only [getMut, run, bind, Except.bind]
  rcases outcome with rfl | ⟨j, n, rfl, rfl, at', found, -⟩
  · exact ⟨none, st', rfl, keeps, collects, by simp⟩
  · simp only [getNode_ok found]
    refine ⟨_, st', rfl, keeps, collects, ?_⟩
    intro i v eq
    obtain ⟨w, value, same⟩ := Option.map_eq_some_iff.1 eq
    obtain ⟨rfl, rfl⟩ := Prod.mk.inj same
    rcases I.holds_or_dead found at' with ⟨v, value', H⟩ | ⟨value', -⟩
    · obtain rfl := Option.some.inj (value.symm.trans value')
      exact ⟨rfl, _, H⟩
    · exact absurd (value.symm.trans value') (by simp)

/-! ## Get or create -/

/-- The expiry that the node of a key carries, with or without a value. -/
def keyExp (st : OxidArt P V) (key : Bytes) : Option Nat :=
  ((st.traverseToKey key).bind st.tryGetNode).bind fun n => n.expAndRadix.exp

/-- The expiry of a container that is made under `key`. -/
def madeExp (st : OxidArt P V) (ttl : Option Nat) (key : Bytes) : Option Nat :=
  match ttl with
  | some ttl => expOf ttl
  | none => st.keyExp key

variable {ttl : Option Nat}

theorem getOrCreate_live (isContainer : V → Bool) (empty : V) (ttl : Option Nat) (I : Inv st cut path) (bytes : KeyOk key) {v : V} {e : Option Nat} (live : st.live key = some (v, e)) :
    ∃ i, Holds st path key i v e ∧ st.getOrCreate isContainer empty ttl key =
      .ok (if isContainer v then .ok (i, v, false) else .error .valueNotSet, st) := by
  have entry : st.entry key = some (v, e) := (Option.filter_eq_some_iff.1 live).1
  obtain ⟨i, st', path', run, -, -, -, outcome⟩ := ensureKey_ok I (fun _ => True) bytes
  rcases outcome with ⟨target, rfl⟩ | ⟨target, -⟩
  · have at' := (traverseToKey_iff I.forest).1 target
    obtain ⟨l, read⟩ := I.forest.pathOcc at'
    obtain ⟨n, found, -⟩ := graph_label_iff.1 read
    rcases I.holds_or_dead found at' with ⟨w, value, H⟩ | ⟨-, dead⟩
    · obtain ⟨rfl, rfl⟩ := Prod.mk.inj (Option.some.inj ((H.live I).symm.trans live))
      refine ⟨i, H, ?_⟩
      simp only [getOrCreate, run, getNode_ok found, value, bind, Except.bind]
      split <;> rfl
    · rw [dead] at live
      cases live
  · rw [entry_of_traverse_none target] at entry
    cases entry

/-- `get_or_create` of a key that is not live: the new container inherits the expiry of the node, and if that
is past, the second read of the value fails. -/
theorem getOrCreate_dead (isContainer : V → Bool) (empty : V) (I : Inv st cut path) (K : Bytes → Prop) (bytes : KeyOk key) (small : ∀ t, ttl = some t → t < 2 ^ 56)
    (dead : st.live key = none) :
    (expired st.now (st.madeExp ttl key) = true ∧ st.getOrCreate isContainer empty ttl key = .error .unwrapNone) ∨
      expired st.now (st.madeExp ttl key) = false ∧ ∃ i st' path',
        st.getOrCreate isContainer empty ttl key = .ok (.ok (i, empty, true), st') ∧ Step K st cut path st' path' ∧
        Holds st' path' key i empty (st.madeExp ttl key) ∧
        st'.entry = Function.update st.entry key (some (empty, st.madeExp ttl key)) := by
  obtain ⟨i, st₁, path₁, run, S, at', entries, outcome⟩ := ensureKey_ok I K bytes
  obtain ⟨l, read⟩ := S.inv.forest.pathOcc at'
  obtain ⟨n, found, -⟩ := graph_label_iff.1 read
  have dead₁ : st₁.live key = none := by rw [live, entries, S.stays.now]; exact dead
  have value : n.getValue st₁.now = none := by
    rcases S.inv.holds_or_dead found at' with ⟨w, -, H⟩ | ⟨value, -⟩
    · exact absurd (dead₁.symm.trans (H.live S.inv)) (by simp)
    · exact value
  have nodeExp : n.expAndRadix.exp = st.keyExp key := by
    rcases outcome with ⟨target, rfl⟩ | ⟨target, m, found', none'⟩
    · simp only [keyExp, target, found, Option.bind_some]
    · obtain rfl := Option.some.inj (found.symm.trans found')
      simp only [keyExp, target, none', Option.bind_none]
  obtain ⟨e, made, exp⟩ : ∃ e, ttl.elim (pure n.expAndRadix) n.expAndRadix.setExp = .ok e ∧ e.exp = st.madeExp ttl key := by
    cases ttl with
    | none => exact ⟨_, rfl, nodeExp⟩
    | some t =>
      obtain ⟨e, ok, exp, -⟩ := n.expAndRadix.setExp_ok (small t rfl)
      exact ⟨e, ok, exp⟩
  obtain ⟨node, eq⟩ : ∃ node : Node V, node = { n with val := some empty, expAndRadix := e } := ⟨_, rfl⟩
  have result : st.getOrCreate isContainer empty ttl key = (node.getValue st₁.now).elim (.error .unwrapNone)
      fun v => .ok (.ok (i, v, true), st₁.setNode i node) := by
    have clock : ∀ m : Node V, (st₁.setNode i m).now = st₁.now := fun _ => rfl
    simp only [getOrCreate, run, getNode_ok found, value, bind, Except.bind, pure, Except.pure, clock]
    cases ttl with
    | none =>
      obtain rfl := Except.ok.inj made
      simp only [← eq]
      cases node.getValue st₁.now <;> rfl
    | some t =>
      rw [Option.elim_some] at made
      simp only [made, ← eq]
      cases node.getValue st₁.now <;> rfl
  have shown : node.getValue st₁.now = if expired st.now (st.madeExp ttl key) then none else some empty := by
    rw [Node.getValue, Node.isExpired_eq, eq, exp, S.stays.now]
  rw [result, shown]
  cases past : expired st.now (st.madeExp ttl key) with
  | true => exact .inl ⟨rfl, rfl⟩
  | false =>
    have T : Step K st₁ cut path₁ (st₁.setNode i node) path₁ :=
      Step.setNode S.inv K found (by rw [eq]) (by rw [eq]) (by rw [eq]) (by rw [eq])
    have kept : ∀ j l l', st.graph.label j = some l → (st₁.setNode i node).graph.label j = some l' →
        ∃ l₁, st₁.graph.label j = some l₁ := by
      intro j l l' _ read'
      rw [label_setNode found (by rw [eq])] at read'
      exact ⟨l', read'⟩
    refine .inr ⟨rfl, i, st₁.setNode i node, path₁, rfl, S.trans T kept, ⟨at', ⟨node, ?_, by rw [eq], by rw [eq, exp]⟩, ?_⟩, ?_⟩
    · rw [tryGetNode_setNode, if_pos rfl, found]
      rfl
    · rw [T.stays.now, S.stays.now, past]
    · rw [entry_setNode S.inv found at' (by rw [eq]) (by rw [eq]) (by rw [eq]) (by rw [eq]), entries, eq, Node.content, exp]
      rfl

/-! ## The shapes of the typed commands -/

section Typed

variable {S : Type} [Score S] {C α : Type} {st st' : OxidArt P (Value S)}
variable {view : Value S → Except RedisType C} {wrap : C → Value S} {new : C}

/-- What a get-or-create helper does with the container of type `C` under `key`. -/
structure GetsOrMakes (st : OxidArt P (Value S)) (cut : List Nat) (path : Nat → Option Bytes) (key : Bytes) (ttl : Option Nat)
    (view : Value S → Except RedisType C) (wrap : C → Value S) (new : C)
    (got : Exec (Except TypeError (Nat × C) × OxidArt P (Value S))) : Prop where
  live : ∀ v e c, st.live key = some (v, e) → view v = .ok c →
    ∃ i, Holds st path key i v e ∧ got = .ok (.ok (i, c), st)
  wrongType : ∀ v e t, st.live key = some (v, e) → view v = .error t → got = .ok (.error .valueNotSet, st)
  panics : st.live key = none → expired st.now (st.madeExp ttl key) = true → got = .error .unwrapNone
  made : ∀ K, st.live key = none → expired st.now (st.madeExp ttl key) = false → ∃ i st' path',
    got = .ok (.ok (i, new), st') ∧ Step K st cut path st' path' ∧ Holds st' path' key i (wrap new) (st.madeExp ttl key) ∧
    st'.entry = Function.update st.entry key (some (wrap new, st.madeExp ttl key))

theorem getContainer_gets (view : Value S → Except RedisType C) (wrap : C → Value S) (new : C)
    (finish : Except TypeError (Nat × C × Bool) → OxidArt P (Value S) → Except TypeError (Nat × C) × OxidArt P (Value S))
    (I : Inv st cut path) (bytes : KeyOk key) (small : ∀ t, ttl = some t → t < 2 ^ 56) (same : view (wrap new) = .ok new)
    (failed : ∀ e st, finish (.error e) st = (.error e, st)) (old : ∀ i c st, finish (.ok (i, c, false)) st = (.ok (i, c), st))
    (tagged : ∀ i c st, ∃ st', finish (.ok (i, c, true)) st = (.ok (i, c), st') ∧ SameTree st st') :
    GetsOrMakes st cut path key ttl view wrap new
      ((st.getContainer view (wrap new) ttl key).map fun p => finish p.1 p.2) := by
  refine ⟨?_, ?_, ?_, ?_⟩
  · intro v e c live ok
    obtain ⟨i, H, run⟩ := getOrCreate_live (fun v => (view v).isOk) (wrap new) ttl I bytes live
    have container : (view v).isOk = true := by rw [ok]; rfl
    simp only [container, if_true] at run
    refine ⟨i, H, ?_⟩
    simp only [getContainer, run, ok, bind, Except.bind, Except.map, pure, Except.pure, old]
  · intro v e t live other
    obtain ⟨i, H, run⟩ := getOrCreate_live (fun v => (view v).isOk) (wrap new) ttl I bytes live
    have container : (view v).isOk = false := by rw [other]; rfl
    simp only [container, Bool.false_eq_true, if_false] at run
    simp only [getContainer, run, bind, Except.bind, Except.map, pure, Except.pure, failed]
  · intro dead past
    rcases getOrCreate_dead (fun v => (view v).isOk) (wrap new) I (fun _ => True) bytes small dead
      with ⟨-, run⟩ | ⟨current, -⟩
    · simp only [getContainer, run, bind, Except.bind, Except.map]
    · rw [past] at current
      cases current
  · intro K dead current
    rcases getOrCreate_dead (fun v => (view v).isOk) (wrap new) I K bytes small dead
      with ⟨past, -⟩ | ⟨-, i, st₁, path₁, run, step, H, entries⟩
    · rw [past] at current
      cases current
    · obtain ⟨st₂, done, T⟩ := tagged i new st₁
      refine ⟨i, st₂, path₁, ?_, step.same T, ⟨H.at', ?_, ?_⟩, ?_⟩
      · simp only [getContainer, run, same, bind, Except.bind, Except.map, pure, Except.pure, done]
      · rw [T.nodes]
        exact H.node
      · rw [T.stores.stays.now]
        exact H.current
      · rw [T.entry step.inv, entries]

theorem getHashMut_gets (I : Inv st cut path) (bytes : KeyOk key) (small : ∀ t, ttl = some t → t < 2 ^ 56) :
    GetsOrMakes st cut path key ttl Value.asHash .hash .new (st.getHashMut ttl key) := by
  have eq : st.getHashMut ttl key = (st.getContainer Value.asHash (.hash .new) ttl key).map fun p =>
      (p.1.map fun r => (r.1, r.2.1), p.2) := by
    unfold getHashMut
    cases st.getContainer Value.asHash (.hash .new) ttl key <;> rfl
  rw [eq]
  exact getContainer_gets Value.asHash .hash .new (fun res st => (res.map fun r => (r.1, r.2.1), st))
    I bytes small rfl (fun _ _ => rfl) (fun _ _ _ => rfl) (fun _ _ st => ⟨st, rfl, .refl st⟩)

theorem getBtreeSetMut_gets (I : Inv st cut path) (bytes : KeyOk key) (small : ∀ t, ttl = some t → t < 2 ^ 56) :
    GetsOrMakes st cut path key ttl Value.asSet .set .empty (st.getBtreeSetMut ttl key) := by
  have eq : st.getBtreeSetMut ttl key = (st.getContainer Value.asSet (.set .empty) ttl key).map fun p =>
      (p.1.map fun r => (r.1, r.2.1), p.2) := by
    unfold getBtreeSetMut
    cases st.getContainer Value.asSet (.set .empty) ttl key <;> rfl
  rw [eq]
  exact getContainer_gets Value.asSet .set .empty
    (fun res st => (res.map fun r => (r.1, r.2.1), st)) I bytes small rfl
    (fun _ _ => rfl) (fun _ _ _ => rfl) (fun _ _ st => ⟨st, rfl, .refl st⟩)

theorem getZsetMut_gets (I : Inv st cut path) (bytes : KeyOk key) (small : ∀ t, ttl = some t → t < 2 ^ 56) :
    GetsOrMakes st cut path key ttl Value.asZset .zset .new (st.getZsetMut ttl key) := by
  -- A node made with a ttl is tagged.
  obtain ⟨finish, failed, made⟩ : ∃ finish : Except TypeError (Nat × InnerZCommand S × Bool) → OxidArt P (Value S) →
      Except TypeError (Nat × InnerZCommand S) × OxidArt P (Value S), (∀ e st, finish (.error e) st = (.error e, st)) ∧
      ∀ r st, finish (.ok r) st =
        (.ok (r.1, r.2.1), if r.2.2 && ttl.isSome then { st with map := st.map.tag r.1 } else st) :=
    ⟨fun res st => res.casesOn (fun e => (.error e, st)) fun r =>
      (.ok (r.1, r.2.1), if r.2.2 && ttl.isSome then { st with map := st.map.tag r.1 } else st), fun _ _ => rfl, fun _ _ => rfl⟩
  have eq : st.getZsetMut ttl key = (st.getContainer Value.asZset (.zset .new) ttl key).map fun p => finish p.1 p.2 := by
    unfold getZsetMut
    cases st.getContainer Value.asZset (.zset .new) ttl key with
    | error => rfl
    | ok p =>
      obtain ⟨res, st'⟩ := p
      cases res with
      | error e => exact congrArg Except.ok (failed e st').symm
      | ok r => exact congrArg Except.ok (made r st').symm
  rw [eq]
  refine getContainer_gets Value.asZset .zset .new finish I bytes small rfl failed (fun i c st => made (i, c, false) st) ?_
  intro i c st'
  refine ⟨_, made (i, c, true) st', ?_⟩
  simp only [Bool.true_and]
  split
  · exact sameTree_tag st' i
  · exact .refl st'

/-- What a writing command does: `change` tells the reply and the new container, or refuses. -/
structure Changes (st : OxidArt P (Value S)) (cut : List Nat) (path : Nat → Option Bytes) (key : Bytes) (ttl : Option Nat)
    (view : Value S → Except RedisType C) (wrap : C → Value S) (new : C) (change : C → Except TypeError (α × C))
    (run : Exec (Except TypeError α × OxidArt P (Value S))) : Prop where
  wrongType : ∀ v e t, st.live key = some (v, e) → view v = .error t → run = .ok (.error .valueNotSet, st)
  refused : ∀ v e c t, st.live key = some (v, e) → view v = .ok c → change c = .error t → run = .ok (.error t, st)
  changed : ∀ K v e c a c', st.live key = some (v, e) → view v = .ok c → change c = .ok (a, c') →
    ∃ st', run = .ok (.ok a, st') ∧ Step K st cut path st' path ∧
      st'.entry = Function.update st.entry key (some (wrap c', e))
  panics : st.live key = none → expired st.now (st.madeExp ttl key) = true → run = .error .unwrapNone
  made : ∀ K, st.live key = none → expired st.now (st.madeExp ttl key) = false → ∃ st' path',
    run = .ok ((change new).map Prod.fst, st') ∧ Step K st cut path st' path' ∧
      st'.entry = Function.update st.entry key
        (some (wrap (match change new with | .ok (_, c) => c | .error _ => new), st.madeExp ttl key))

theorem changeIn_ok (I : Inv st cut path) {got : Exec (Except TypeError (Nat × C) × OxidArt P (Value S))}
    (gets : GetsOrMakes st cut path key ttl view wrap new got) (change : C → Except TypeError (α × C)) :
    Changes st cut path key ttl view wrap new change (changeIn got wrap change) := by
  refine ⟨?_, ?_, ?_, ?_, ?_⟩
  · intro v e t live other
    simp only [changeIn, gets.wrongType v e t live other, bind, Except.bind]
    rfl
  · intro v e c t live ok refuse
    obtain ⟨i, -, run⟩ := gets.live v e c live ok
    simp only [changeIn, run, refuse, bind, Except.bind]
    rfl
  · intro K v e c a c' live ok accept
    obtain ⟨i, H, run⟩ := gets.live v e c live ok
    obtain ⟨st', put, step, -, entries⟩ := putVal_holds I K H (wrap c')
    refine ⟨st', ?_, step, entries⟩
    simp only [changeIn, run, accept, put, bind, Except.bind]
    rfl
  · intro dead past
    simp only [changeIn, gets.panics dead past, bind, Except.bind]
  · intro K dead current
    obtain ⟨i, st₁, path₁, run, step, H, entries⟩ := gets.made K dead current
    cases outcome : change new with
    | error t =>
      refine ⟨st₁, path₁, ?_, step, entries⟩
      simp only [changeIn, run, outcome, bind, Except.bind]
      rfl
    | ok p =>
      obtain ⟨a, c'⟩ := p
      obtain ⟨st₂, put, step', shrinks, entries'⟩ := putVal_holds step.inv K H (wrap c')
      refine ⟨st₂, path₁, ?_, step.then step' shrinks, ?_⟩
      · simp only [changeIn, run, outcome, put, bind, Except.bind]
        rfl
      · rw [entries', entries, Function.update_idem]

/-- If the command returns, it has written one entry at most. -/
theorem Changes.writes {change : C → Except TypeError (α × C)} {run : Exec (Except TypeError α × OxidArt P (Value S))}
    (I : Inv st cut path) (H : Changes st cut path key ttl view wrap new change run) {reply : Except TypeError α}
    (ran : run = .ok (reply, st')) :
    Keeps st cut st' ∧ (st'.entry = st.entry ∨ ∃ e, st'.entry = Function.update st.entry key e) := by
  have nothing : ∀ {r : Except TypeError α}, run = .ok (r, st) →
      Keeps st cut st' ∧ (st'.entry = st.entry ∨ ∃ e, st'.entry = Function.update st.entry key e) := by
    intro r ran'
    obtain ⟨-, rfl⟩ := Prod.mk.inj (Except.ok.inj (ran'.symm.trans ran))
    exact ⟨⟨.refl st, path, I⟩, .inl rfl⟩
  cases live : st.live key with
  | none =>
    cases past : expired st.now (st.madeExp ttl key) with
    | true =>
      rw [H.panics live past] at ran
      cases ran
    | false =>
      obtain ⟨st₁, path₁, run₁, step, entries⟩ := H.made (fun _ => True) live past
      obtain ⟨-, rfl⟩ := Prod.mk.inj (Except.ok.inj (run₁.symm.trans ran))
      exact ⟨step.keeps, .inr ⟨_, entries⟩⟩
  | some held =>
    obtain ⟨v, e⟩ := held
    cases container : view v with
    | error t => exact nothing (H.wrongType v e t live container)
    | ok c =>
      cases outcome : change c with
      | error t => exact nothing (H.refused v e c t live container outcome)
      | ok p =>
        obtain ⟨a, c'⟩ := p
        obtain ⟨st₁, run₁, step, entries⟩ := H.changed (fun _ => True) v e c a c' live container outcome
        obtain ⟨-, rfl⟩ := Prod.mk.inj (Except.ok.inj (run₁.symm.trans ran))
        exact ⟨step.keeps, .inr ⟨_, entries⟩⟩

theorem Changes.keeps {change : C → Except TypeError (α × C)} {run : Exec (Except TypeError α × OxidArt P (Value S))}
    (I : Inv st cut path) (H : Changes st cut path key ttl view wrap new change run) {reply : Except TypeError α}
    (ran : run = .ok (reply, st')) : Keeps st cut st' := (H.writes I ran).1

/-! ### Reading -/

theorem readAs_ok (view : Value S → Except RedisType C) (I : Inv st cut path) (nonempty : key ≠ []) (absent : α) (read : C → α) :
    ∃ st' path', st.readAs key view absent read = .ok (match st.live key with
        | none => .ok absent
        | some (v, _) => (view v).map read, st') ∧
      Step (Present st') st cut path st' path' ∧ Sheds st st' := by
  obtain ⟨res, st', path', run, step, sheds, -, outcome⟩ := getMut_ok I nonempty
  refine ⟨st', path', ?_, step, sheds⟩
  simp only [readAs, run, bind, Except.bind]
  rcases outcome with ⟨rfl, dead⟩ | ⟨i, v, e, rfl, rfl, rfl, H⟩
  · rw [dead]
    rfl
  · rw [H.live I]
    rfl

theorem readAs_keeps (I : Inv st cut path) (key : Bytes) (view : Value S → Except RedisType C) (absent : α) (read : C → α) :
    ∃ reply st', st.readAs key view absent read = .ok (reply, st') ∧ Keeps st cut st' ∧ Collects st key st' := by
  obtain ⟨res, st', run, keeps, collects, -⟩ := getMut_keeps I key
  simp only [readAs, run, bind, Except.bind]
  cases res with
  | none => exact ⟨_, st', rfl, keeps, collects⟩
  | some p => exact ⟨_, st', rfl, keeps, collects⟩

theorem readSet_keeps (I : Inv st cut path) (key : Bytes) (absent : α) (read : SortedSet Bytes → α) :
    ∃ reply st', st.readSet key absent read = .ok (reply, st') ∧ Keeps st cut st' := by
  obtain ⟨res, st₁, run, keeps, -⟩ := getMut_keeps I key
  simp only [readSet, run, bind, Except.bind]
  cases res with
  | none => exact ⟨_, st₁, rfl, keeps⟩
  | some p =>
    obtain ⟨i, v⟩ := p
    cases view : v.asSet with
    | error t => exact ⟨_, st₁, by simp only [view]; rfl, keeps⟩
    | ok set =>
      obtain ⟨path₁, I₁⟩ := keeps.2
      obtain ⟨old, st', del, keeps'⟩ := del_keeps I₁ key
      simp only [view]
      split
      · simp only [del]
        exact ⟨_, st', rfl, keeps.trans keeps'⟩
      · exact ⟨_, st₁, rfl, keeps⟩

/-- `SMEMBERS` and `SCARD` of a key that holds no empty set. -/
theorem readSet_ok (I : Inv st cut path) (nonempty : key ≠ [])
    (full : ∀ v e set, st.live key = some (v, e) → v.asSet = .ok set → set.isEmpty = false) (absent : α)
    (read : SortedSet Bytes → α) :
    ∃ st' path', st.readSet key absent read = .ok (match st.live key with
        | none => .ok absent
        | some (v, _) => v.asSet.map read, st') ∧
      Step (Present st') st cut path st' path' ∧ Sheds st st' := by
  obtain ⟨res, st', path', run, step, sheds, -, outcome⟩ := getMut_ok I nonempty
  refine ⟨st', path', ?_, step, sheds⟩
  simp only [readSet, run, bind, Except.bind]
  rcases outcome with ⟨rfl, dead⟩ | ⟨i, v, e, rfl, rfl, rfl, H⟩
  · rw [dead]
    rfl
  · rw [H.live I]
    cases view : v.asSet with
    | error t => simp only [view]; rfl
    | ok set =>
      have := full v e set (H.live I) view
      simp only [view, this]
      rfl

/-! ### Removing items -/

section Remove

/-- What a removing command does, as a function of what the key shows. -/
theorem removeFrom_ok (view : Value S → Except RedisType C) (wrap : C → Value S) (remove : C → Bytes → Bool × C)
    (isEmpty : C → Bool) (I : Inv st cut path) (nonempty : key ≠ []) (items : List Bytes) :
    (st.live key = none → ∃ st' path', st.removeFrom key view wrap remove isEmpty items = .ok (.ok 0, st') ∧
        Step (Present st') st cut path st' path' ∧ Sheds st st') ∧
      (∀ v e t, st.live key = some (v, e) → view v = .error t →
        st.removeFrom key view wrap remove isEmpty items = .ok (.error t, st)) ∧
      ∀ v e c, st.live key = some (v, e) → view v = .ok c → ∃ st' path',
        st.removeFrom key view wrap remove isEmpty items = .ok (.ok (countLoop remove c items).1, st') ∧
        Step (Present st') st cut path st' path' ∧
        st'.entry = Function.update st.entry key
          (if isEmpty (countLoop remove c items).2 then none else some (wrap (countLoop remove c items).2, e)) := by
  obtain ⟨res, st₁, path₁, run, step, sheds, -, outcome⟩ := getMut_ok I nonempty
  have shown : ∀ {i v e}, Holds st path key i v e → ∀ {v' e'}, st.live key = some (v', e') → v' = v ∧ e' = e := by
    intro i v e H v' e' live
    obtain ⟨rfl, rfl⟩ := Prod.mk.inj (Option.some.inj ((H.live I).symm.trans live))
    exact ⟨rfl, rfl⟩
  simp only [removeFrom, run, bind, Except.bind]
  rcases outcome with ⟨rfl, dead⟩ | ⟨i, v, e, rfl, rfl, rfl, H⟩
  · refine ⟨fun _ => ⟨st₁, path₁, rfl, step, sheds⟩, ?_, ?_⟩
    · intro v e t live
      rw [dead] at live
      cases live
    · intro v e c live
      rw [dead] at live
      cases live
  · refine ⟨fun dead => absurd (dead.symm.trans (H.live I)) (by simp), ?_, ?_⟩
    · intro v' e' t live other
      obtain ⟨rfl, rfl⟩ := shown H live
      simp only [other]
      rfl
    · intro v' e' c live ok
      obtain ⟨rfl, rfl⟩ := shown H live
      obtain ⟨rest, eq⟩ : ∃ rest, rest = (countLoop remove c items).2 := ⟨_, rfl⟩
      obtain ⟨st₂, put, step₂, shrinks₂, entries₂⟩ := putVal_holds I (fun _ => True) H (wrap rest)
      simp only [ok, ← eq, put]
      cases none' : isEmpty rest with
      | false =>
        simp only [Bool.false_eq_true, if_false]
        exact ⟨st₂, _, rfl, step₂.mono fun _ _ => trivial, entries₂⟩
      | true =>
        obtain ⟨st₃, path₃, del, step₃, entries₃, shrinks₃⟩ := del_ok step₂.inv nonempty
        simp only [if_true, del]
        refine ⟨st₃, path₃, rfl, (step₂.mono fun _ _ => trivial).then step₃ shrinks₃, ?_⟩
        rw [entries₃, entries₂, Function.update_idem]

theorem removeFrom_keeps (I : Inv st cut path) (key : Bytes) (view : Value S → Except RedisType C) (wrap : C → Value S)
    (remove : C → Bytes → Bool × C) (isEmpty : C → Bool) (items : List Bytes) :
    ∃ reply st', st.removeFrom key view wrap remove isEmpty items = .ok (reply, st') ∧ Keeps st cut st' := by
  obtain ⟨res, st₁, run, keeps, -, holds⟩ := getMut_keeps I key
  simp only [removeFrom, run, bind, Except.bind]
  cases res with
  | none => exact ⟨_, st₁, rfl, keeps⟩
  | some p =>
    obtain ⟨i, v⟩ := p
    obtain ⟨rfl, e, H⟩ := holds i v rfl
    cases ok : view v with
    | error t => exact ⟨_, st₁, by simp only [ok]; rfl, keeps⟩
    | ok c =>
      obtain ⟨st₂, put, step₂, -⟩ := putVal_holds I (fun _ => True) H (wrap (countLoop remove c items).2)
      obtain ⟨old, st₃, del, keeps'⟩ := del_keeps step₂.inv key
      simp only [ok, put]
      split
      · simp only [del]
        exact ⟨_, st₃, rfl, step₂.keeps.trans keeps'⟩
      · exact ⟨_, st₂, rfl, step₂.keeps⟩

end Remove

/-! ### Counters -/

/-- `incrby` writes the delta under a dead key; a live one is changed in place, or refused. -/
theorem incrby_cases (I : Inv st cut path) (key : Bytes) (delta : Int64) :
    st.live key = none ∧ st.incrby key delta = (st.set key (.int delta)).map (fun st' => (.ok delta, st')) ∨
      ∃ i v e, Holds st path key i v e ∧ st.incrby key delta = match v.incr delta with
        | .ok n => (st.putVal i (.int n)).map fun st' => (.ok n, st')
        | .error t => .ok (.error t, st) := by
  have written : ∀ run : Exec (OxidArt P (Value S)),
      (run >>= fun st' => pure (.ok delta, st')) = run.map fun st' => ((.ok delta : Except IntError Int64), st') := by
    intro run
    cases run <;> rfl
  cases target : st.traverseToKey key with
  | none =>
    refine .inl ⟨by rw [live, entry_of_traverse_none target]; rfl, ?_⟩
    simp only [incrby, target]
    exact written _
  | some i =>
    have at' := (traverseToKey_iff I.forest).1 target
    obtain ⟨l, read⟩ := I.forest.pathOcc at'
    obtain ⟨n, found, -⟩ := graph_label_iff.1 read
    simp only [incrby, target, getNode_ok found, pure, Except.pure, bind, Except.bind]
    rcases I.holds_or_dead found at' with ⟨v, value, H⟩ | ⟨value, dead⟩
    · refine .inr ⟨i, v, _, H, ?_⟩
      rw [value]
      simp only [Option.map_some]
      cases v.incr delta with
      | ok m => cases st.putVal i (.int m) <;> rfl
      | error t => rfl
    · rw [value]
      exact .inl ⟨dead, written _⟩

/-- `incrby` adds to a live integer in place, with its expiry; otherwise it writes the delta. -/
theorem incrby_ok (I : Inv st cut path) (K : Bytes → Prop) (bytes : KeyOk key) (delta : Int64) :
    ∃ st' path', st.incrby key delta = .ok (match st.live key with
        | none => .ok delta
        | some (v, _) => v.incr delta, st') ∧
      Step K st cut path st' path' ∧
      st'.entry = (match st.live key with
        | none => Function.update st.entry key (some (.int delta, none))
        | some (v, e) => match v.incr delta with
          | .ok n => Function.update st.entry key (some (.int n, e))
          | .error _ => st.entry) := by
  rcases incrby_cases I key delta with ⟨dead, run⟩ | ⟨i, v, e, H, run⟩
  · obtain ⟨st', path', wrote, step, entries⟩ :=
      setInternal_ok I K bytes (show ExpAndRadix.noExp < 2 ^ 56 by decide) (.int delta)
    have wrote' : st.set key (.int delta) = .ok st' := wrote
    rw [run, wrote', dead]
    exact ⟨st', path', rfl, step, entries⟩
  · rw [run, H.live I]
    cases outcome : v.incr delta with
    | error t => exact ⟨st, path, by simp only [outcome], .refl I K, by simp only [outcome]⟩
    | ok n =>
      obtain ⟨st', put, step, -, entries⟩ := putVal_holds I K H (.int n)
      exact ⟨st', path, by simp only [outcome, put]; rfl, step, by simp only [outcome, entries]⟩

end Typed

end OxidArt

end Radixox.Oxidart
