import Radixox.Lib.Outcomes
import Radixox.Lib.Runs
import Radixox.Oxidart.Operations

/-!
# The links of one node as a finite map

`ChildOp` are the calls that change the links of a node: `push_child_idx`, `create_node_with_val` and `remove_child`. However
they follow each other, the three tiers together hold the map from bytes to the indices linked last, each link once, and the
overflow slot is there exactly as long as it holds a link.
-/

namespace Radixox.Oxidart
set_option autoImplicit false
open Radixox.Outcomes Radixox.Runs

inductive ChildOp (V : Type) where
  | pushChildIdx (idx : Nat) (radix : UInt8)
  | createNodeWithVal (radix : UInt8) (val : V) (compression : Bytes) (ttl : Nat)
  | removeChild (radix : UInt8)

namespace OxidArt

variable {P : Policy} {V : Type} {p : Nat} {st : OxidArt P V}

/-- One call on the node `parentIdx`; the reply is the byte with the index that it now leads to. -/
def execChild (parentIdx : Nat) (st : OxidArt P V) : ChildOp V → Exec ((UInt8 × Option Nat) × OxidArt P V)
  | .pushChildIdx idx radix => (st.pushChildIdx parentIdx idx radix).map fun st => ((radix, some idx), st)
  | .createNodeWithVal radix val compression ttl =>
    (st.createNodeWithVal parentIdx radix val compression ttl).map fun (idx, st) => ((radix, some idx), st)
  | .removeChild radix => .ok ((radix, none), st.removeChild parentIdx radix)

/-- A new link goes under a byte in `1..=127` that leads nowhere so far. -/
def FreshByte (parentIdx : Nat) (st : OxidArt P V) : ChildOp V → Prop
  | .pushChildIdx _ radix | .createNodeWithVal radix .. => (1 ≤ radix ∧ radix ≤ 127) ∧ st.find parentIdx radix = none
  | .removeChild _ => True

instance (parentIdx : Nat) (st : OxidArt P V) : (op : ChildOp V) → Decidable (FreshByte parentIdx st op)
  | .pushChildIdx .. | .createNodeWithVal .. => inferInstanceAs (Decidable (_ ∧ _))
  | .removeChild _ => inferInstanceAs (Decidable True)

/-- Where each byte leads after a sequence of replies. -/
def lastLinked (before : UInt8 → Option Nat) (replies : List (UInt8 × Option Nat)) : UInt8 → Option Nat :=
  replies.foldl (fun links reply => Function.update links reply.1 reply.2) before

/-- The node `p` stores the map `links`. -/
structure StoresLinks (st : OxidArt P V) (p : Nat) (links : UInt8 → Option Nat) (n : Node V) : Prop where
  node : st.tryGetNode p = some n
  find : ∀ r, st.find p r = links r
  listed : ∀ r i, (r, i) ∈ st.iterAllChildren p ↔ links r = some i
  once : (st.iterAllChildren p).Nodup
  indices : st.collectChildIndices p = (st.iterAllChildren p).map Prod.snd
  inline : n.childs.items.length ≤ CHILDS_SIZE
  light : ∀ s o, n.overflowIdx = some s → st.overflowArena.get s = some o → o.items.length ≤ LIGHT_OVERFLOW_SIZE
  huge : ∀ s o h e, n.overflowIdx = some s → st.overflowArena.get s = some o → o.bigOverflowIdx = some h →
    st.hugeOvf.get h = some e → e.entries.length ≤ HUGE_OVERFLOW_CAPACITY
  overflow : n.overflowIdx ≠ none ↔ ∃ o, n.overflowIdx.bind st.overflowArena.get = some o ∧ o.iter st.hugeOvf ≠ []

theorem storesLinks (K : KidsInv st) {n : Node V} (found : st.tryGetNode p = some n) : StoresLinks st p (st.find p) n where
  node := found
  find _ := rfl
  listed _ _ := K.find_iff.symm
  once := (K.nodup p).of_map
  indices := rfl
  inline := n.childs.bound
  light _ o _ _ := o.bound
  huge _ _ _ e _ _ _ _ := e.bound
  overflow := by
    constructor
    · intro held
      obtain ⟨s, slot⟩ := Option.ne_none_iff_exists'.1 held
      obtain ⟨o, read, busy, sound⟩ := TierInv.slotOk K (tier_eq found) s slot
      refine ⟨o, by rw [slot, Option.bind_some, read], fun bare => ?_⟩
      obtain ⟨light, huge⟩ := List.append_eq_nil_iff.1 bare
      cases big : o.bigOverflowIdx with
      | none =>
        rw [Overflow.isEmpty, light, big] at busy
        cases busy
      | some h =>
        obtain ⟨e, entry, full⟩ := sound h big
        rw [big, Option.bind_some, entry] at huge
        exact full huge
    · rintro ⟨o, read, -⟩ none'
      rw [none'] at read
      cases read

/-! ## One call -/

theorem keyByte_of_range {r : UInt8} (range : 1 ≤ r ∧ r ≤ 127) : KeyByte r := by
  obtain ⟨low, high⟩ := range
  rw [UInt8.le_iff_toNat_le] at low high
  refine ⟨fun zero => ?_, UInt8.lt_iff_toNat_lt.2 ?_⟩
  · rw [zero] at low
    cases low
  · exact Nat.lt_succ_of_le high

/-- A push sets the link of its byte. -/
theorem pushChildIdx_update (K : KidsInv st) {n : Node V} (found : st.tryGetNode p = some n) {r : UInt8} (new : st.find p r = none)
    (byte : KeyByte r) (idx : Nat) :
    ∃ st' n', st.pushChildIdx p idx r = .ok st' ∧ KidsInv st' ∧ st'.tryGetNode p = some n' ∧
      st'.find p = Function.update (st.find p) r (some idx) := by
  obtain ⟨st', run, K', R, perm⟩ := pushChildIdx_ok K found new byte idx
  obtain ⟨n', found', -⟩ := R.node_of found
  refine ⟨st', n', run, K', found', funext fun s => ?_⟩
  rw [R.find_of_push K' perm, Function.update_apply]
  simp only [true_and]

/-- A removal clears the link of its byte. -/
theorem removeChild_update (K : KidsInv st) {n : Node V} (found : st.tryGetNode p = some n) (r : UInt8) :
    ∃ n', KidsInv (st.removeChild p r) ∧ (st.removeChild p r).tryGetNode p = some n' ∧
      (st.removeChild p r).find p = Function.update (st.find p) r none := by
  cases edge : st.find p r with
  | none =>
    rw [removeChild_absent K edge]
    exact ⟨n, K, found, (Function.update_eq_self_iff.2 edge.symm).symm⟩
  | some y =>
    obtain ⟨K', R, perm⟩ := removeChild_ok K found edge
    obtain ⟨n', found', -⟩ := R.node_of found
    refine ⟨n', K', found', funext fun s => ?_⟩
    rw [R.find_of_remove K perm, Function.update_apply]
    simp only [true_and]

/-- One call makes the change that its reply tells. -/
theorem execChild_update (K : KidsInv st) {n : Node V} (found : st.tryGetNode p = some n) {op : ChildOp V}
    (fresh : FreshByte p st op) :
    Yields (· = .expTooLarge) (fun q => KidsInv q.2 ∧ (∃ n', q.2.tryGetNode p = some n') ∧
      q.2.find p = Function.update (st.find p) q.1.1 q.1.2) (execChild p st op) := by
  cases op with
  | pushChildIdx idx r =>
    obtain ⟨st', n', run, K', found', links⟩ := pushChildIdx_update K found fresh.2 (keyByte_of_range fresh.1) idx
    rw [execChild, run]
    exact .ok ⟨K', ⟨n', found'⟩, links⟩
  | createNodeWithVal r v c ttl =>
    cases made : Node.newLeaf c v ttl p r with
    | error e =>
      have late : e = .expTooLarge := by
        unfold Node.newLeaf ExpAndRadix.new at made
        split at made
        · cases made
        · exact (Except.error.inj made).symm
      have run : st.createNodeWithVal p r v c ttl = .error e := by
        unfold OxidArt.createNodeWithVal
        rw [getNode_ok found, made]
        rfl
      rw [execChild, run]
      exact .error late
    | ok leaf =>
      obtain ⟨idx, st₁, ins, eq⟩ := createNodeWithVal_eq found made
      have bare : leaf.childs = .default ∧ leaf.overflowIdx = none := by
        unfold Node.newLeaf at made
        obtain ⟨e, -, made⟩ := exists_of_bind made
        obtain rfl := Except.ok.inj made
        exact ⟨rfl, rfl⟩
      obtain ⟨K₁, finds⟩ := ins.leaf_links K bare.1 bare.2
      have found₁ : st₁.tryGetNode p = some n := by rw [ins.nodes, if_neg (ins.ne found), found]
      obtain ⟨st', n', run, K', found', links⟩ :=
        pushChildIdx_update K₁ found₁ (by rw [finds]; exact fresh.2) (keyByte_of_range fresh.1) idx
      rw [execChild, eq, run]
      rw [finds] at links
      exact .ok ⟨K', ⟨n', found'⟩, links⟩
  | removeChild r =>
    obtain ⟨n', K', found', links⟩ := removeChild_update K found r
    exact .ok ⟨K', ⟨n', found'⟩, links⟩

/-! ## Sequences of calls -/

/-- After any sequence of calls the node stores, for each byte, the index linked last. No call panics, unless an expiry does not
fit its field. -/
theorem run_storesLinks (K : KidsInv st) {n : Node V} (found : st.tryGetNode p = some n) (ops : List (ChildOp V))
    (meets : Meets (execChild p) (FreshByte p) ops st) :
    Yields (· = .expTooLarge) (fun q => ∃ n', StoresLinks q.2 p (lastLinked (st.find p) q.1) n') (run (execChild p) ops st) := by
  have step : ∀ (st : OxidArt P V) op, (KidsInv st ∧ ∃ n, st.tryGetNode p = some n) → FreshByte p st op →
      Yields (· = .expTooLarge) (fun q => (KidsInv q.2 ∧ ∃ n', q.2.tryGetNode p = some n') ∧
        q.2.find p = Function.update (st.find p) q.1.1 q.1.2) (execChild p st op) :=
    fun st op ⟨K, n, found⟩ fresh => (execChild_update K found fresh).imp fun _ ⟨K', held, links⟩ => ⟨⟨K', held⟩, links⟩
  have runs := run_observes _ (fun st => st.find p) (fun links reply => Function.update links reply.1 reply.2) step ops st
    ⟨K, n, found⟩ meets
  refine runs.imp fun q ⟨⟨K', n', found'⟩, links⟩ => ⟨n', ?_⟩
  rw [lastLinked, ← links]
  exact storesLinks K' found'

/-- Calls that start a huge entry and leave holes below it. -/
def holes : List (ChildOp Nat) :=
  (List.range 17).map (fun i => .pushChildIdx (i + 40) (UInt8.ofNat (i + 1))) ++
    [.removeChild 1, .removeChild 7, .createNodeWithVal 1 5 [65] 9, .removeChild 99, .pushChildIdx 40 127]

theorem run_storesLinks_holes :
    Yields (· = .expTooLarge) (fun q => ∃ n', StoresLinks q.2 0 (lastLinked ((new : OxidArt .lowest Nat).find 0) q.1) n')
      (run (execChild 0) holes (new : OxidArt .lowest Nat)) := by
  have found : (new : OxidArt .lowest Nat).tryGetNode 0 = some .default := rfl
  have meets : Meets (execChild 0) (FreshByte 0) holes (new : OxidArt .lowest Nat) := by decide +kernel
  exact run_storesLinks inv_new.kids found holes meets

end OxidArt

end Radixox.Oxidart
