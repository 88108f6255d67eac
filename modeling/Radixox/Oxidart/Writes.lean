import Radixox.Oxidart.Steps

/-!
# The writing operations

`set`, `set_ttl`, `ensure_key` and `expire`: each succeeds on a sound state,
writes its own key and nothing else.
-/

namespace Radixox.Oxidart
set_option autoImplicit false
open Radixox.PathForest

/-- A key made of key bytes; it may be empty. -/
def KeyOk (key : Bytes) : Prop := ∀ b ∈ key, KeyByte b

instance (key : Bytes) : Decidable (KeyOk key) := inferInstanceAs (Decidable (∀ b ∈ key, KeyByte b))

namespace OxidArt

variable {P : Policy} {V : Type} {st : OxidArt P V} {cut : List Nat} {path : Nat → Option Bytes} {key : Bytes}

/-! ## Where a traversal ends in a sound state -/

theorem Inv.walk_found (I : Inv st cut path) (nonempty : key ≠ []) {idx parent : Nat} {radix : UInt8} {keyPath : Bytes}
    (outcome : st.walk key = .found idx parent radix keyPath) :
    ∃ q n, path parent = some q ∧ st.find parent radix = some idx ∧ st.tryGetNode idx = some n ∧
      key = q ++ radix :: n.compression ∧ path idx = some key ∧ keyPath = q ++ [radix] := by
  have spec := st.walk_spec nonempty
  rw [outcome] at spec
  obtain ⟨q, n, before, edge, found, rfl, rfl⟩ := spec
  refine ⟨q, n, ?_, edge, found, rfl, ?_, rfl⟩
  · exact I.forest.path_of_reach I.forest.rootPath before
  · exact I.forest.path_iff_reach.2 (before.trans (Reach.link (g := st.graph) edge (graph_label found)))

theorem Inv.walk_partialAt (I : Inv st cut path) (nonempty : key ≠ []) {idx parent common : Nat} {radix : UInt8}
    {keyRest keyPath : Bytes} (outcome : st.walk key = .partialAt idx parent radix common keyRest keyPath) :
    ∃ q n, path parent = some q ∧ st.find parent radix = some idx ∧ st.tryGetNode idx = some n ∧
      key = q ++ radix :: keyRest ∧ Node.PartsAt n.compression keyRest common ∧
      path idx = some (q ++ radix :: n.compression) ∧ keyPath = q ++ [radix] := by
  have spec := st.walk_spec nonempty
  rw [outcome] at spec
  obtain ⟨q, n, before, edge, found, rfl, parts, rfl⟩ := spec
  refine ⟨q, n, ?_, edge, found, rfl, parts, ?_, rfl⟩
  · exact I.forest.path_of_reach I.forest.rootPath before
  · exact I.forest.path_iff_reach.2 (before.trans (Reach.link (g := st.graph) edge (graph_label found)))

theorem Inv.walk_noChild (I : Inv st cut path) (nonempty : key ≠ []) {idx : Nat} {keyRest : Bytes}
    (outcome : st.walk key = .noChild idx keyRest) :
    ∃ q radix rest n, keyRest = radix :: rest ∧ path idx = some q ∧ st.tryGetNode idx = some n ∧
      key = q ++ radix :: rest ∧ st.find idx radix = none := by
  have spec := st.walk_spec nonempty
  rw [outcome] at spec
  obtain ⟨q, before, rfl, radix, rest, rfl, absent⟩ := spec
  have live : path idx = some q := I.forest.path_of_reach I.forest.rootPath before
  obtain ⟨l, read⟩ := I.forest.pathOcc live
  obtain ⟨n, found, -⟩ := graph_label_iff.1 read
  exact ⟨q, radix, rest, n, rfl, live, found, rfl, absent⟩

/-- A key without a node is absent. -/
theorem entry_of_traverse_none (none' : st.traverseToKey key = none) : st.entry key = none := by
  simp [entry, none']

theorem Inv.root_node (I : Inv st cut path) : ∃ n, st.tryGetNode st.rootIdx = some n := by
  obtain ⟨l, read⟩ := I.forest.rootLabel
  obtain ⟨n, found, -⟩ := graph_label_iff.1 read
  exact ⟨n, found⟩

theorem Inv.kid_ne_root (I : Inv st cut path) {p i : Nat} {r : UInt8} (edge : st.find p r = some i) : i ≠ st.rootIdx :=
  fun same => I.forest.kidRoot (edge.trans (congrArg some same))

/-! ## `set` -/

theorem setInternal_ok (I : Inv st cut path) (K : Bytes → Prop) (bytes : KeyOk key) {ttl : Nat} (small : ttl < 2 ^ 56)
    (v : V) : ∃ st' path', st.setInternal key ttl v = .ok st' ∧ Step K st cut path st' path' ∧
      st'.entry = Function.update st.entry key (some (v, expOf ttl)) := by
  by_cases empty : key = []
  · subst empty
    obtain ⟨n, found⟩ := I.root_node
    obtain ⟨n', ok, content, compression, childs, overflow, parent⟩ := Node.setVal_ok n v small
    refine ⟨_, path, ?_, Step.setNode I K found compression childs overflow parent, ?_⟩
    · simp only [setInternal, List.isEmpty_nil, if_true, getNode_ok found, ok, bind, Except.bind]
      rfl
    · rw [entry_setNode I found I.forest.rootPath compression childs overflow parent, content]
  · have notEmpty : key.isEmpty = false := by simpa using empty
    cases outcome : st.walk key with
    | gone idx => exact absurd outcome (walk_ne_gone I.forest empty idx)
    | noChild idx keyRest =>
      obtain ⟨q, radix, rest, n, rfl, live, found, rfl, absent⟩ := I.walk_noChild empty outcome
      obtain ⟨i, st', path', made, S, entries, -⟩ := createNodeWithVal_ok (v := v) (c := rest) I K small
        (fun b member => bytes b (by simp [member])) found live absent (bytes radix (by simp))
      refine ⟨st', path', ?_, S, entries⟩
      simp only [setInternal, notEmpty, Bool.false_eq_true, if_false, outcome, made, bind, Except.bind]
      rfl
    | found idx parent radix keyPath =>
      obtain ⟨q, n, -, -, found, -, live, -⟩ := I.walk_found empty outcome
      obtain ⟨n', ok, content, compression, childs, overflow, above⟩ := Node.setVal_ok n v small
      refine ⟨st.setNode idx n', path, ?_, Step.setNode I K found compression childs overflow above, ?_⟩
      · simp only [setInternal, notEmpty, Bool.false_eq_true, if_false, outcome, getNode_ok found, ok, bind, Except.bind]
        rfl
      · rw [entry_setNode I found live compression childs overflow above, content]
    | partialAt idx parent radix common keyRest keyPath =>
      obtain ⟨q, n, -, edge, found, rfl, parts, live, -⟩ := I.walk_partialAt empty outcome
      have live' : path idx = some ((q ++ [radix]) ++ n.compression) := by rw [live]; simp
      obtain ⟨i, st', path', split, S, -, entries, -⟩ := splitNode_ok (some (v, ttl)) I K
        (by rintro _ _ ⟨⟩; exact small) found (I.kid_ne_root edge) live' parts
        (fun b member => bytes b (by simp [member]))
      rw [List.append_assoc] at entries
      simp only [Option.map_some] at split
      refine ⟨st', path', ?_, S, entries⟩
      simp only [setInternal, notEmpty, Bool.false_eq_true, if_false, outcome, split, bind, Except.bind]
      rfl

/-! ## `ensure_key` -/

/-- `ensure_key` gives the node of the key; a new node is empty and permanent. -/
theorem ensureKey_ok (I : Inv st cut path) (K : Bytes → Prop) (bytes : KeyOk key) :
    ∃ i st' path', st.ensureKey key = .ok (i, st') ∧ Step K st cut path st' path' ∧ path' i = some key ∧
      st'.entry = st.entry ∧ (st.traverseToKey key = some i ∧ st' = st ∨ st.traverseToKey key = none ∧ Permanent st' i) := by
  by_cases empty : key = []
  · subst empty
    exact ⟨st.rootIdx, st, path, rfl, .refl I K, I.forest.rootPath, rfl, .inl ⟨rfl, rfl⟩⟩
  · have notEmpty : key.isEmpty = false := by simpa using empty
    simp only [ensureKey, traverseToKey, notEmpty, Bool.false_eq_true, if_false]
    have traverse : st.entry key = none ∨ ∃ i p r k, st.walk key = .found i p r k := by
      cases outcome : st.walk key with
      | found i p r k => exact .inr ⟨i, p, r, k, rfl⟩
      | _ => exact .inl (by simp only [entry, traverseToKey, notEmpty, Bool.false_eq_true, if_false, outcome]; rfl)
    cases outcome : st.walk key with
    | gone idx => exact absurd outcome (walk_ne_gone I.forest empty idx)
    | noChild idx keyRest =>
      have none' : st.entry key = none := traverse.resolve_right (by simp [outcome])
      obtain ⟨q, radix, rest, n, rfl, live, found, rfl, absent⟩ := I.walk_noChild empty outcome
      have ins := inserted_insert st (.newEmptyLeaf rest idx radix : Node V)
      obtain ⟨st', path', pushed, S, entries, new, node, -⟩ := Step.pushLeaf I K ins rfl rfl
        (fun b member => bytes b (List.mem_append_right _ (List.mem_cons_of_mem _ member))) found live absent
        (bytes radix (by simp))
      refine ⟨_, st', path', ?_, S, new, ?_, .inr ⟨rfl, permanent_of_core node (ExpAndRadix.exp_noExpiracy radix)⟩⟩
      · simp only [ensure, pushed, bind, Except.bind]
        rfl
      · rw [entries]
        conv_rhs => rw [← Function.update_eq_self (q ++ radix :: rest) st.entry, none']
        rfl
    | found idx parent radix keyPath =>
      obtain ⟨q, n, -, -, found, -, live, -⟩ := I.walk_found empty outcome
      exact ⟨idx, st, path, rfl, .refl I K, live, rfl, .inl ⟨rfl, rfl⟩⟩
    | partialAt idx parent radix common keyRest keyPath =>
      have none' : st.entry key = none := traverse.resolve_right (by simp [outcome])
      obtain ⟨q, n, -, edge, found, rfl, parts, live, -⟩ := I.walk_partialAt empty outcome
      have live' : path idx = some ((q ++ [radix]) ++ n.compression) := by rw [live]; simp
      obtain ⟨i, st', path', split, S, new, entries, permanent⟩ := splitNode_ok none I K
        (by rintro _ _ ⟨⟩) found (I.kid_ne_root edge) live' parts (fun b member => bytes b (by simp [member]))
      rw [List.append_assoc] at entries new
      refine ⟨i, st', path', split, S, new, ?_, .inr ⟨rfl, permanent rfl⟩⟩
      rw [entries]
      conv_rhs => rw [← Function.update_eq_self (q ++ radix :: keyRest) st.entry, none']
      rfl

/-! ## `expire` -/

/-- Is an expiry in the past? -/
def expired (now : Nat) (exp : Option Nat) : Bool := exp.any (· < now)

theorem Node.isExpired_eq (n : Node V) (now : Nat) : n.isExpired now = expired now n.expAndRadix.exp := by
  unfold Node.isExpired expired
  cases n.expAndRadix.exp <;> rfl

/-- `expire` writes the expiry of an unexpired node, also where the node stores no value. -/
theorem expire_ok (key : Bytes) (I : Inv st cut path) (K : Bytes → Prop) {ttl : Nat} (small : saturatingAdd st.now ttl < 2 ^ 56 - 1) :
    ∃ b st', st.expire key ttl = .ok (b, st') ∧ Step K st cut path st' path ∧
      st'.entry = (match st.entry key with
        | some (v, e) =>
          if expired st.now e then st.entry else Function.update st.entry key (some (v, some (saturatingAdd st.now ttl)))
        | none => st.entry) := by
  unfold expire
  cases target : st.traverseToKey key with
  | none => exact ⟨false, st, rfl, .refl I K, by rw [entry_of_traverse_none target]⟩
  | some i =>
    have live := (traverseToKey_iff I.forest).1 target
    obtain ⟨l, read⟩ := I.forest.pathOcc live
    obtain ⟨n, found, -⟩ := graph_label_iff.1 read
    have held : st.entry key = n.content := (I.entry_of_path live).trans (content_eq found)
    simp only [getNode_ok found, bind, Except.bind]
    by_cases past : n.isExpired st.now = true
    · refine ⟨false, st, by rw [if_pos past]; rfl, .refl I K, ?_⟩
      rw [held, Node.content]
      cases n.val with
      | none => rfl
      | some v => simp only [Option.map_some, ← Node.isExpired_eq, if_pos past]
    · obtain ⟨e, ok, exp, -⟩ := n.expAndRadix.setExp_ok (n := saturatingAdd st.now ttl) (by omega)
      have notTop : saturatingAdd st.now ttl ≠ ExpAndRadix.noExp := by
        rw [ExpAndRadix.noExp_eq]
        omega
      rw [if_neg notTop] at exp
      have S : Step K st cut path (st.setNode i { n with expAndRadix := e }) path :=
        Step.setNode I K found rfl rfl rfl rfl
      have entries := entry_setNode (m := { n with expAndRadix := e }) I found live rfl rfl rfl rfl
      have effect : (st.setNode i { n with expAndRadix := e }).entry = (match st.entry key with
          | some (v, e) =>
            if expired st.now e then st.entry
            else Function.update st.entry key (some (v, some (saturatingAdd st.now ttl)))
          | none => st.entry) := by
        rw [entries, held]
        simp only [Node.content, exp]
        cases val : n.val with
        | none =>
          have : st.entry key = none := by rw [held, Node.content, val]; rfl
          simp only [Option.map_none]
          rw [← this, Function.update_eq_self]
        | some v => simp only [Option.map_some, ← Node.isExpired_eq, if_neg past]
      rw [if_neg past]
      simp only [ok, pure, Except.pure]
      refine ⟨_, _, rfl, ?_⟩
      split
      · exact ⟨S.same (sameTree_tag _ i), ((sameTree_tag _ i).entry S.inv).trans effect⟩
      · exact ⟨S, effect⟩

/-- `persist` removes the expiry of a node, past or not. -/
theorem persist_ok (I : Inv st cut path) (K : Bytes → Prop) (key : Bytes) :
    ∃ b st', st.persist key = .ok (b, st') ∧ Step K st cut path st' path ∧
      st'.entry = (match st.entry key with
        | some (v, _) => Function.update st.entry key (some (v, none))
        | none => st.entry) := by
  have idle : ∀ {c : Option (V × Option Nat)}, st.entry key = c → (∀ v e, c = some (v, e) → e = none) →
      st.entry = (match c with
        | some (v, _) => Function.update st.entry key (some (v, none))
        | none => st.entry) := by
    intro c held permanent
    cases c with
    | none => rfl
    | some p =>
      obtain ⟨v, e⟩ := p
      obtain rfl := permanent v e rfl
      simp only
      rw [← held, Function.update_eq_self]
  unfold persist
  cases target : st.traverseToKey key with
  | none => exact ⟨false, st, rfl, .refl I K, idle rfl (by rw [entry_of_traverse_none target]; nofun)⟩
  | some i =>
    have at' := (traverseToKey_iff I.forest).1 target
    obtain ⟨l, read⟩ := I.forest.pathOcc at'
    obtain ⟨n, found, -⟩ := graph_label_iff.1 read
    have held : st.entry key = n.content := (I.entry_of_path at').trans (content_eq found)
    simp only [getNode_ok found, bind, Except.bind]
    cases finite : n.expAndRadix.doesExpire with
    | false =>
      refine ⟨false, st, rfl, .refl I K, idle rfl ?_⟩
      rw [ExpAndRadix.doesExpire_eq, Option.isSome_eq_false_iff, Option.isNone_iff_eq_none] at finite
      intro v e eq
      rw [held, Node.content, finite] at eq
      obtain ⟨w, -, same⟩ := Option.map_eq_some_iff.1 eq
      exact (Prod.mk.inj same).2.symm
    | true =>
      obtain ⟨n', eq⟩ : ∃ n' : Node V, n' = { n with expAndRadix := n.expAndRadix.setNoExpiracy } := ⟨_, rfl⟩
      have step : Step K st cut path (st.setNode i n') path :=
        Step.setNode I K found (by rw [eq]) (by rw [eq]) (by rw [eq]) (by rw [eq])
      have entries : (st.setNode i n').entry = (match st.entry key with
          | some (v, _) => Function.update st.entry key (some (v, none))
          | none => st.entry) := by
        rw [entry_setNode I found at' (by rw [eq]) (by rw [eq]) (by rw [eq]) (by rw [eq]), held, eq]
        simp only [Node.content, ExpAndRadix.exp_setNoExpiracy]
        cases val : n.val with
        | some v => rfl
        | none =>
          have none' : st.entry key = none := by rw [held, Node.content, val]; rfl
          simp only [Option.map_none]
          rw [← none', Function.update_eq_self]
      simp only [if_true, ← eq]
      split
      · exact ⟨true, _, rfl, step.same (sameTree_untag _ i), ((sameTree_untag _ i).entry step.inv).trans entries⟩
      · exact ⟨false, _, rfl, step, entries⟩

end OxidArt

end Radixox.Oxidart
