import Radixox.Oxidart.Forks
import Radixox.Oxidart.Horizon

/-!
# Back links

Every node keeps the index of its parent and, in the word of its expiry, the byte of the link that leads to it. The sampler of
expired nodes unlinks what it frees through these two. A new leaf gets them right. The lower half of a split gets the byte of the
upper one, its children keep their old parent, and a recompression takes the byte of the child: after both the links back are
right only where the bytes happen to agree.
-/

namespace Radixox.Oxidart
set_option autoImplicit false
open Radixox.Assoc Radixox.Outcomes Radixox.PathForest Radixox.Runs

/-! ## The byte in the word of the expiry -/

namespace ExpAndRadix

variable {e e' : ExpAndRadix} {exp : Nat} {r : UInt8}

theorem parentRadix_setNoExpiracy (e : ExpAndRadix) : e.setNoExpiracy.parentRadix = e.parentRadix := by
  have high : e.setNoExpiracy.inner &&& RADIX_MASK = e.inner &&& RADIX_MASK := by
    rw [setNoExpiracy, BitVec.and_or_distrib_right, noExpiracy_and_mask, BitVec.or_zero]
  rw [parentRadix, parentRadix, high]

theorem parentRadix_setExp (ran : e.setExp exp = .ok e') : e'.parentRadix = e.parentRadix := by
  unfold setExp at ran
  split at ran
  next fits =>
    obtain rfl := Except.ok.inj ran
    rw [parentRadix, parentRadix, and_high fits]
  next => cases ran

theorem parentRadix_new (ran : new exp r = .ok e) : e.parentRadix = r := by
  unfold new at ran
  split at ran
  next fits =>
    obtain rfl := Except.ok.inj ran
    rw [parentRadix, EXP_LENGTH, ← radix_mask, and_high fits, radix_high]
  next => cases ran

end ExpAndRadix

namespace Node

variable {V : Type} {n n' : Node V} {exp : Nat} {v : V}

/-- What `evict_cycle` reads of the way to a node. -/
def backLink (n : Node V) : Option Nat × UInt8 := (n.parentIdx, n.expAndRadix.parentRadix)

theorem backLink_of_core (same : n'.core = n.core) : n'.backLink = n.backLink := by
  obtain ⟨-, -, parent, exp⟩ := core_eq same
  rw [backLink, backLink, parent, exp]

theorem backLink_setVal (ran : n.setVal v exp = .ok n') : n'.backLink = n.backLink := by
  obtain ⟨e, stored, same⟩ := exists_of_bind ran
  obtain rfl := Except.ok.inj same
  exact congrArg (n.parentIdx, ·) (ExpAndRadix.parentRadix_setExp stored)

theorem backLink_newLeaf {c : Bytes} {p : Nat} {r : UInt8} (ran : newLeaf c v exp p r = .ok n) : n.backLink = (some p, r) := by
  obtain ⟨e, stored, same⟩ := exists_of_bind ran
  obtain rfl := Except.ok.inj same
  exact congrArg (some p, ·) (ExpAndRadix.parentRadix_new stored)

theorem backLink_newEmptyLeaf (c : Bytes) (p : Nat) (r : UInt8) : (newEmptyLeaf c p r : Node V).backLink = (some p, r) :=
  congrArg (some p, ·) (ExpAndRadix.parentRadix_noExpiracy r)

end Node

namespace OxidArt

variable {P : Policy} {V : Type} {st st₁ st' : OxidArt P V} {cut : List Nat} {path : Nat → Option Bytes} {B : UInt8 → Prop}
variable {i j p x y common : Nat} {r : UInt8} {n n' leaf : Node V} {key : Bytes}

/-- The upper half of a split node keeps both. -/
theorem backLink_splitIntermediate {onNode : Bool} {ttl : Option Nat} {val : Option V}
    (made : splitIntermediate n common onNode ttl val = .ok n') : n'.backLink = n.backLink := by
  have whole : ∀ {m : Node V}, m.parentIdx = n.parentIdx → m.expAndRadix = n.expAndRadix.setNoExpiracy →
      m.backLink = n.backLink := by
    intro m parent exp
    rw [Node.backLink, Node.backLink, parent, exp, ExpAndRadix.parentRadix_setNoExpiracy]
  unfold splitIntermediate at made
  dsimp only at made
  split at made
  · exact (Node.backLink_setVal made).trans (whole rfl rfl)
  · exact Except.ok.inj made ▸ whole rfl rfl
  · exact Except.ok.inj made ▸ whole rfl rfl

/-! ## Links and back links -/

def back (st : OxidArt P V) (i : Nat) : Option (Option Nat × UInt8) := (st.tryGetNode i).map Node.backLink

/-- Every link leads to a node with the link back. -/
def BackLinked (st : OxidArt P V) : Prop := ∀ p r i, st.find p r = some i → st.back i = some (some p, r)

theorem back_eq (found : st.tryGetNode i = some n) : st.back i = some n.backLink := by rw [back, found, Option.map_some]

theorem back_of_core (same : ∀ i, st'.core i = st.core i) : st'.back = st.back := by
  funext i
  have here := same i
  rw [core, core] at here
  rw [back, back]
  cases found : st.tryGetNode i with
  | none =>
    rw [found, Option.map_none, Option.map_eq_none_iff] at here
    rw [here]
  | some n =>
    rw [found, Option.map_some] at here
    obtain ⟨n', found', same'⟩ := Option.map_eq_some_iff.1 here
    rw [found', Option.map_some, Option.map_some, Node.backLink_of_core same']

theorem back_setNode (found : st.tryGetNode i = some n) (n' : Node V) :
    (st.setNode i n').back = Function.update st.back i (some n'.backLink) := by
  funext j
  rw [back, tryGetNode_setNode, found, Function.update_apply]
  split <;> rfl

theorem back_inserted (ins : Inserted st i leaf st') : st'.back = Function.update st.back i (some leaf.backLink) := by
  funext j
  rw [back, ins.nodes, Function.update_apply]
  split <;> rfl

theorem back_removeNode (st : OxidArt P V) (i : Nat) : (st.removeNode i).back = Function.update st.back i none := by
  funext j
  rw [back, tryGetNode_removeNode, Function.update_apply]
  split <;> rfl

theorem back_removeChild (K : KidsInvOf B st) (p : Nat) (r : UInt8) : (st.removeChild p r).back = st.back := by
  cases edge : st.find p r with
  | none => rw [removeChild_absent K edge]
  | some y =>
    cases found : st.tryGetNode p with
    | none =>
      rw [find_of_free found] at edge
      cases edge
    | some n => exact back_of_core (removeChild_ok K found edge).2.1.core

namespace BackLinked

variable (H : BackLinked st)

include H

/-- Links may go. -/
theorem sub (kept : ∀ {p r i}, st'.find p r = some i → st.find p r = some i ∧ st'.back i = st.back i) : BackLinked st' := by
  intro p r i edge
  obtain ⟨before, same⟩ := kept edge
  rw [same]
  exact H p r i before

theorem ne_free (edge : st.find p r = some i) (free : st.tryGetNode j = none) : i ≠ j := by
  rintro rfl
  have held := H p r i edge
  rw [back, free] at held
  cases held

/-- A node keeps its links and its link back. -/
theorem setNode (found : st.tryGetNode i = some n) (childs : n'.childs = n.childs) (overflow : n'.overflowIdx = n.overflowIdx)
    (same : n'.backLink = n.backLink) : BackLinked (st.setNode i n') := by
  refine H.sub fun {p r j} edge => ⟨?_, ?_⟩
  · have tiers : (st.setNode i n').tier p = st.tier p := by
      rw [tier_setNode found, childs, overflow]
      split
      next here => rw [here, tier_eq found]
      next => rfl
    rwa [(SameStores.setNode st i n').find tiers] at edge
  · rw [back_setNode found, same, ← back_eq found, Function.update_eq_self]

/-! ### New nodes -/

/-- A new leaf with its link back. -/
theorem pushLeaf (K : KidsInv st) (ins : Inserted st j leaf st₁) (childs : leaf.childs = .default)
    (overflow : leaf.overflowIdx = none) (link : leaf.backLink = (some p, r)) (found : st.tryGetNode p = some n)
    (unused : st.find p r = none) (byte : KeyByte r) (pushed : st₁.pushChildIdx p j r = .ok st') : BackLinked st' := by
  obtain ⟨K₁, finds⟩ := ins.leaf_links K childs overflow
  have found₁ : st₁.tryGetNode p = some n := by rw [ins.nodes, if_neg (ins.ne found), found]
  obtain ⟨st₂, pushed₂, K', R, perm⟩ := pushChildIdx_ok K₁ found₁ (by rw [finds]; exact unused) byte j
  obtain rfl := Except.ok.inj (pushed₂.symm.trans pushed)
  intro z s i edge
  rw [back_of_core R.core, back_inserted ins]
  rw [R.find_of_push K' perm, finds] at edge
  split at edge
  next here =>
    obtain ⟨rfl, rfl⟩ := here
    obtain rfl := Option.some.inj edge
    rw [Function.update_self, link]
  next =>
    rw [Function.update_of_ne (H.ne_free edge ins.free)]
    exact H z s i edge

theorem createNodeWithVal (K : KidsInv st) (found : st.tryGetNode p = some n) (unused : st.find p r = none) (byte : KeyByte r)
    {v : V} {c : Bytes} {ttl : Nat} (ran : st.createNodeWithVal p r v c ttl = .ok (j, st')) : BackLinked st' := by
  cases made : Node.newLeaf c v ttl p r with
  | error e =>
    unfold OxidArt.createNodeWithVal at ran
    simp only [getNode_ok found, made, bind, Except.bind] at ran
    cases ran
  | ok leaf =>
    obtain ⟨e, -, same⟩ := exists_of_bind made
    obtain rfl := Except.ok.inj same
    obtain ⟨idx, st₁, ins, eq⟩ := createNodeWithVal_eq found made
    rw [eq] at ran
    obtain ⟨st₂, pushed, same⟩ := exists_of_map ran
    obtain ⟨-, rfl⟩ := Prod.mk.inj same
    exact H.pushLeaf K ins rfl rfl (Node.backLink_newLeaf made) found unused byte pushed

theorem linkEmpty (K : KidsInv st) (found : st.tryGetNode p = some n) (unused : st.find p r = none) (byte : KeyByte r) {c : Bytes}
    (ran : (do
      let (idx, st) := st.insert (.newEmptyLeaf c p r)
      let st ← st.pushChildIdx p idx r
      return (idx, st)) = (Except.ok (j, st') : Exec _)) : BackLinked st' := by
  obtain ⟨st₁, pushed, same⟩ := exists_of_bind ran
  obtain ⟨-, rfl⟩ := Prod.mk.inj (Except.ok.inj same)
  exact H.pushLeaf K (inserted_insert st (.newEmptyLeaf c p r)) rfl rfl (Node.backLink_newEmptyLeaf c p r) found unused byte pushed

/-- The leaf of a split. -/
theorem splitLeaf (K : KidsInv st) {keyRest : Bytes} (found : st.tryGetNode x = some n)
    (unused : ∀ s, keyRest[common]? = some s → st.find x s = none) (bytes : ∀ b ∈ keyRest, KeyByte b) {ttl : Option Nat}
    {val : Option V} (ran : st.splitLeaf common keyRest x ttl val = .ok (j, st')) : BackLinked st' := by
  unfold OxidArt.splitLeaf at ran
  split at ran
  · cases ran
  next s v here => exact H.createNodeWithVal K found (unused s here) (bytes s (List.mem_of_getElem? here)) ran
  next s here => exact H.linkEmpty K found (unused s here) (bytes s (List.mem_of_getElem? here)) ran

/-- A node without children that is split at its own byte: the lower half has the right link back, and no child has a wrong one. -/
theorem splitNode (I : Inv st cut path) {keyRest : Bytes} (request : Request V) (small : Request.Small request)
    (found : st.tryGetNode x = some n) (inner : x ≠ st.rootIdx) (parts : Node.PartsAt n.compression keyRest common)
    (bytes : ∀ b ∈ keyRest, KeyByte b) (leaf : st.iterAllChildren x = [])
    (own : n.compression[common]? = some n.expAndRadix.parentRadix)
    (ran : st.splitNode common keyRest x (request.map Prod.snd) (request.map Prod.fst) = .ok (j, st')) : BackLinked st' := by
  obtain ⟨node, r, y, st₁, made, next, whole, ins, run⟩ := splitNode_eq keyRest request small found parts.inside
  obtain ⟨_, made', compression, childs, overflow, -⟩ := splitIntermediate_ok n common (common == keyRest.length) small
  obtain rfl := Except.ok.inj (made.symm.trans made')
  obtain rfl : r = n.expAndRadix.parentRadix := Option.some.inj (next.symm.trans own)
  obtain ⟨st₂, pushed, I₂, graphs, ⟨m, found₂, -⟩, -⟩ := I.split found inner whole compression childs overflow ins rfl rfl rfl
  obtain ⟨K₁, finds⟩ := I.kids.moveDown found ins childs overflow rfl rfl
  have atX : (st.setNode x node).tryGetNode x = some node := by
    rw [tryGetNode_setNode, if_pos rfl, found]
    rfl
  have ne : x ≠ y := ins.ne atX
  have free : st.tryGetNode y = none := by
    have := ins.free
    rwa [tryGetNode_setNode, if_neg ne.symm] at this
  have found₁ : st₁.tryGetNode x = some node := by rw [ins.nodes, if_neg ne, atX]
  have byte : KeyByte n.expAndRadix.parentRadix := I.labels found _ (List.mem_of_getElem? own)
  have childless : ∀ s, st.find x s = none := fun s => by
    rw [find_eq_lookup, leaf]
    rfl
  have H₂ : BackLinked st₂ := by
    obtain ⟨st₂', pushed', K', R, perm⟩ := pushChildIdx_ok K₁ found₁ (by rw [finds, if_pos rfl]) byte y
    obtain rfl := Except.ok.inj (pushed'.symm.trans pushed)
    have backs : st₂'.back = Function.update st.back y (some (some x, n.expAndRadix.parentRadix)) := by
      rw [back_of_core R.core, back_inserted ins, back_setNode found, backLink_splitIntermediate made, ← back_eq found,
        Function.update_eq_self]
      rfl
    intro z s i edge
    rw [R.find_of_push K' perm, finds] at edge
    rw [backs]
    split at edge
    next here =>
      obtain ⟨rfl, rfl⟩ := here
      obtain rfl := Option.some.inj edge
      exact Function.update_self ..
    next =>
      split at edge
      · cases edge
      · split at edge
        · rw [childless] at edge
          cases edge
        · rw [Function.update_of_ne (H.ne_free edge free)]
          exact H z s i edge
  rw [run st₂ pushed] at ran
  split at ran
  · obtain ⟨-, rfl⟩ := Prod.mk.inj (Except.ok.inj ran)
    exact H₂
  next below =>
    refine H₂.splitLeaf I₂.kids found₂ (fun s here => ?_) bytes ran
    have other : s ≠ n.expAndRadix.parentRadix := by
      rintro rfl
      exact (parts.leave.resolve_left fun ends => below (beq_iff_eq.2 ends)) (next.trans here.symm)
    change st₂.graph.kid x s = none
    rw [graphs]
    simp [Graph.split, other]

/-! ### Nodes that go -/

theorem removeLeaf (I : Inv st cut path) (edge : st.find p r = some y) (found : st.tryGetNode y = some n)
    (leaf : n.hasChildren = false) : BackLinked ((st.removeNode y).removeChild p r) := by
  obtain ⟨-, graphs, -⟩ := I.dropLeaf edge found leaf
  refine H.sub fun {z s i} link => ?_
  change ((st.removeNode y).removeChild p r).graph.kid z s = some i at link
  rw [graphs] at link
  simp only [Graph.dropLeaf] at link
  split at link
  · cases link
  next other =>
    refine ⟨link, ?_⟩
    have kept : i ≠ y := by
      rintro rfl
      exact other (I.forest.kidInj link edge)
    rw [back_removeChild (I.kids.removeNode y), back_removeNode, Function.update_of_ne kept]

/-- The node takes the byte of the only link below it, which was its own. -/
theorem tryRecompress (I : Inv st cut path)
    (own : ∀ n r y, st.tryGetNode x = some n → n.val = none → n.getSingleChild = some (r, y) → n.expAndRadix.parentRadix = r)
    (ran : st.tryRecompress x = .ok st') : BackLinked st' := by
  rcases tryRecompress_cases st x with idle | ⟨n, r, y, child, found, empty, single, occupied, ⟨-, fails⟩ | ⟨other, merges⟩⟩
  · exact Except.ok.inj (idle.symm.trans ran) ▸ H
  · rw [fails] at ran
    cases ran
  obtain ⟨st₁, child', run, occupied', below, only, graphs, -⟩ := I.absorb found empty single
  obtain rfl := Option.some.inj (occupied.symm.trans occupied')
  obtain rfl := Except.ok.inj (run.symm.trans ran)
  obtain rfl := Except.ok.inj (merges.symm.trans run)
  have nodes := tryGetNode_absorbed (r := r) found other child
  have childBack : child.expAndRadix.parentRadix = r := by
    have held := (back_eq occupied).symm.trans (H x r y below)
    exact congrArg Prod.snd (Option.some.inj held)
  -- Only the children of `y` are adopted.
  have adopts : ∀ {z s i}, z ≠ y → st.find z s = some i → i ∉ (st.iterAllChildren y).map Prod.snd := by
    intro z s i differs link member
    obtain ⟨t, link'⟩ := (mem_collectChildIndices I.kids).1 member
    exact differs (I.forest.kidInj link link').1
  intro z s i link
  change (st.absorbed x y r n child).graph.kid z s = some i at link
  rw [graphs] at link
  simp only [Graph.merge] at link
  rw [back, nodes]
  split at link
  next here =>
    subst here
    obtain ⟨rank, lower⟩ := I.forest.acyclic
    have order := (lower below).trans (lower link)
    have notX : i ≠ z := fun same => Nat.lt_irrefl _ (same ▸ order)
    have notY : i ≠ y := fun same => Nat.lt_irrefl _ (same ▸ lower link)
    obtain ⟨m, held, backs⟩ := Option.map_eq_some_iff.1 (H y s i link)
    have member : i ∈ (st.iterAllChildren y).map Prod.snd := (mem_collectChildIndices I.kids).2 ⟨s, link⟩
    rw [if_neg notX, if_neg notY, held, Option.map_some, Option.map_some, adopt, if_pos member]
    exact congrArg (fun q => some (some z, q)) (congrArg Prod.snd backs)
  next notX =>
    split at link
    · cases link
    next notY =>
      have stays := adopts notY link
      split
      next here =>
        subst here
        have backs := Option.some.inj ((back_eq found).symm.trans (H z s i link))
        have parent : n.parentIdx = some z := congrArg Prod.fst backs
        have byte : n.expAndRadix.parentRadix = s := congrArg Prod.snd backs
        rw [Option.map_some, adopt, if_neg stays, ← byte, own n r y found empty single, ← childBack, ← parent]
        rfl
      next =>
        have kept : i ≠ y := by
          rintro rfl
          exact notX (I.forest.kidInj link below).1
        have same : (st.tryGetNode i).map (adopt x (st.iterAllChildren y) i) = st.tryGetNode i := by
          cases st.tryGetNode i with
          | none => rfl
          | some m => rw [Option.map_some, adopt, if_neg stays]
        rw [if_neg kept, same]
        exact H z s i link

end BackLinked

/-! ## Writes -/

/-- A walk that ends inside a node ends in one without children, at the byte under which its parent links it. -/
def OwnByte (st : OxidArt P V) : Walk → Prop
  | .partialAt idx _ radix commonLen _ _ =>
    ∀ n ∈ st.tryGetNode idx, n.hasChildren = false ∧ n.compression[commonLen]? = some radix
  | _ => True

instance (st : OxidArt P V) : (w : Walk) → Decidable (st.OwnByte w)
  | .partialAt idx _ radix commonLen _ _ =>
    inferInstanceAs (Decidable (∀ n ∈ st.tryGetNode idx, n.hasChildren = false ∧ n.compression[commonLen]? = some radix))
  | .found .. | .noChild .. | .gone _ => inferInstanceAs (Decidable True)

theorem iterAllChildren_of_leaf (K : KidsInvOf B st) (found : st.tryGetNode i = some n) (leaf : n.hasChildren = false) :
    st.iterAllChildren i = [] := by
  rw [hasChildren_viewOf (TierInv.slotOk K (tier_eq found)), Bool.not_eq_false', List.isEmpty_iff] at leaf
  rw [iterAllChildren_view found, leaf]

namespace BackLinked

variable (H : BackLinked st)

include H

theorem writeVal {ttl : Nat} {v : V} (ran : (do
    let node ← st.getNode i
    let node ← node.setVal v ttl
    return st.setNode i node) = Except.ok st') : BackLinked st' := by
  obtain ⟨n, read, ran⟩ := exists_of_bind ran
  obtain ⟨n', written, ran⟩ := exists_of_bind ran
  obtain rfl := Except.ok.inj ran
  have link := Node.backLink_setVal written
  obtain ⟨e, -, same⟩ := exists_of_bind written
  obtain rfl := Except.ok.inj same
  exact H.setNode (tryGetNode_of_getNode read) rfl rfl link

theorem splitAtOwnByte (I : Inv st cut path) (nonempty : key ≠ []) {q rest : Bytes}
    (outcome : st.walk key = .partialAt i p r common rest q) (own : st.OwnByte (st.walk key)) (bytes : KeyOk key)
    (request : Request V) (small : Request.Small request)
    (ran : st.splitNode common rest i (request.map Prod.snd) (request.map Prod.fst) = .ok (j, st')) : BackLinked st' := by
  obtain ⟨q', n, -, edge, found, rfl, parts, -, -⟩ := I.walk_partialAt nonempty outcome
  rw [outcome] at own
  obtain ⟨leaf, here⟩ := own n found
  have link := Option.some.inj ((back_eq found).symm.trans (H p r i edge))
  have byte : n.expAndRadix.parentRadix = r := congrArg Prod.snd link
  exact H.splitNode I request small found (I.kid_ne_root edge) parts (fun b member => bytes b (by simp [member]))
    (iterAllChildren_of_leaf I.kids found leaf) (byte ▸ here) ran

theorem setInternal (I : Inv st cut path) (plain : PlainKey key) (own : st.OwnByte (st.walk key)) {ttl : Nat} (small : ttl < 2 ^ 56)
    {v : V} (ran : st.setInternal key ttl v = .ok st') : BackLinked st' := by
  obtain ⟨nonempty, bytes⟩ := plain
  have notEmpty : key.isEmpty = false := by simpa using nonempty
  simp only [OxidArt.setInternal, notEmpty, Bool.false_eq_true, if_false] at ran
  cases outcome : st.walk key with
  | gone i => exact absurd outcome (walk_ne_gone I.forest nonempty i)
  | found i p r keyPath =>
    rw [outcome] at ran
    exact H.writeVal ran
  | noChild i rest =>
    obtain ⟨q, r, rest, n, rfl, -, found, rfl, absent⟩ := I.walk_noChild nonempty outcome
    rw [outcome] at ran
    obtain ⟨⟨j, st₁⟩, made, same⟩ := exists_of_bind ran
    obtain rfl := Except.ok.inj same
    exact H.createNodeWithVal I.kids found absent (bytes r (by simp)) made
  | partialAt i p r common rest keyPath =>
    rw [outcome] at ran
    obtain ⟨⟨j, st₁⟩, made, same⟩ := exists_of_bind ran
    obtain rfl := Except.ok.inj same
    refine H.splitAtOwnByte I nonempty outcome own bytes (some (v, ttl)) ?_ made
    rintro _ _ ⟨⟩
    exact small

theorem ensureKey (I : Inv st cut path) (plain : PlainKey key) (own : st.OwnByte (st.walk key))
    (ran : st.ensureKey key = .ok (j, st')) : BackLinked st' := by
  obtain ⟨nonempty, bytes⟩ := plain
  have notEmpty : key.isEmpty = false := by simpa using nonempty
  simp only [OxidArt.ensureKey, notEmpty, Bool.false_eq_true, if_false] at ran
  cases outcome : st.walk key with
  | gone i => exact absurd outcome (walk_ne_gone I.forest nonempty i)
  | found i p r keyPath =>
    rw [outcome] at ran
    obtain ⟨-, rfl⟩ := Prod.mk.inj (Except.ok.inj ran)
    exact H
  | noChild i rest =>
    obtain ⟨q, r, rest, n, rfl, -, found, rfl, absent⟩ := I.walk_noChild nonempty outcome
    rw [outcome] at ran
    exact H.linkEmpty I.kids found absent (bytes r (by simp)) ran
  | partialAt i p r common rest keyPath =>
    rw [outcome] at ran
    refine H.splitAtOwnByte I nonempty outcome own bytes none ?_ ran
    intro _ _ same
    cases same

theorem putVal {v : V} (ran : st.putVal i v = .ok st') : BackLinked st' := by
  obtain ⟨n, read, same⟩ := exists_of_bind ran
  obtain rfl := Except.ok.inj same
  exact H.setNode (tryGetNode_of_getNode read) rfl rfl rfl

theorem getOrCreate (I : Inv st cut path) (plain : PlainKey key) (own : st.OwnByte (st.walk key)) {isContainer : V → Bool}
    {empty : V} {ttl : Option Nat} {res : Except TypeError (Nat × V × Bool)}
    (ran : st.getOrCreate isContainer empty ttl key = .ok (res, st')) : BackLinked st' := by
  obtain ⟨⟨i, st₁⟩, ensured, ran⟩ := exists_of_bind ran
  obtain ⟨n, read, ran⟩ := exists_of_bind ran
  have H₁ := H.ensureKey I plain own ensured
  have put (e : ExpAndRadix) (same : e.parentRadix = n.expAndRadix.parentRadix) :
      BackLinked (st₁.setNode i { n with val := some empty, expAndRadix := e }) :=
    H₁.setNode (tryGetNode_of_getNode read) rfl rfl (congrArg (n.parentIdx, ·) same)
  dsimp only at ran
  split at ran
  · split at ran <;>
    · obtain ⟨-, rfl⟩ := Prod.mk.inj (Except.ok.inj ran)
      exact H₁
  · cases ttl with
    | none =>
      obtain ⟨e, same, ran⟩ := exists_of_bind ran
      obtain rfl := Except.ok.inj same
      split at ran
      · obtain ⟨-, rfl⟩ := Prod.mk.inj (Except.ok.inj ran)
        exact put _ rfl
      · cases ran
    | some t =>
      obtain ⟨e, stored, ran⟩ := exists_of_bind ran
      split at ran
      · obtain ⟨-, rfl⟩ := Prod.mk.inj (Except.ok.inj ran)
        exact put e (ExpAndRadix.parentRadix_setExp stored)
      · cases ran

end BackLinked

/-! ## Removals -/

/-- The node that the operation recompresses takes the byte of its last link for its own; they are the same. -/
def AbsorbsOwnByte (st : OxidArt P V) (op : TreeOp V) : Prop :=
  ∀ q ∈ st.recompressed op, ∀ l ∈ q.2.single, ∀ n ∈ st.tryGetNode q.1, n.expAndRadix.parentRadix = l.1

instance (st : OxidArt P V) (op : TreeOp V) : Decidable (st.AbsorbsOwnByte op) :=
  inferInstanceAs (Decidable (∀ q ∈ st.recompressed op, ∀ l ∈ q.2.single, ∀ n ∈ st.tryGetNode q.1, n.expAndRadix.parentRadix = l.1))

/-- The node to recompress has kept its link back. -/
theorem Thinned.back (K : KidsInvOf B st) (T : Thinned st i p r x st₁) (found : st₁.tryGetNode x = some n) :
    ∃ m, st.tryGetNode x = some m ∧ n.backLink = m.backLink := by
  have here := back_eq found
  cases T with
  | @cleared m found' inner =>
    rw [back_setNode found', Function.update_self] at here
    exact ⟨m, found', (Option.some.inj here).symm⟩
  | unlinked found' leaf below =>
    rw [back_removeChild (K.removeNode i), back_removeNode, Function.update_apply] at here
    split at here
    · cases here
    · obtain ⟨m, before, same⟩ := Option.map_eq_some_iff.1 here
      exact ⟨m, before, same.symm⟩

namespace BackLinked

variable (H : BackLinked st)

include H

theorem thinned (I : Inv st [] path) (edge : st.find p r = some i) (T : Thinned st i p r x st₁) : BackLinked st₁ := by
  cases T with
  | cleared found inner => exact H.setNode found rfl rfl rfl
  | unlinked found leaf below => exact H.removeLeaf I edge found leaf

theorem deleteNodeInline (I : Inv st [] path) (edge : st.find p r = some i)
    (own : ∀ q ∈ st.leftBy i p r, ∀ l ∈ q.2.single, ∀ n ∈ st.tryGetNode q.1, n.expAndRadix.parentRadix = l.1)
    (ran : st.deleteNodeInline i p r = .ok st') : BackLinked st' := by
  rcases deleteNodeInline_cases ran with ⟨n, found, leaf, top, rfl⟩ | ⟨x, st₁, T, ran'⟩
  · exact H.removeLeaf I edge found leaf
  · obtain ⟨⟨path₁, I₁⟩, -⟩ := T.inv I edge
    refine (H.thinned I edge T).tryRecompress I₁ (fun n s y found empty single => ?_) ran'
    obtain ⟨m, before, same⟩ := T.back I.kids found
    have left := (T.left I.kids (view_eq found) empty).1
    rw [single_viewOf (TierInv.slotOk I₁.kids (tier_eq found))] at single
    exact (congrArg Prod.snd same).trans (own _ left _ single m before)

theorem cutLink (I : Inv st [] path) {q : Bytes} (edge : st.find p r = some y) (at' : path p = some q)
    (found : st.tryGetNode y = some n) : BackLinked (st.removeChild p r) := by
  obtain ⟨-, graphs, -⟩ := I.cutLink edge at' found
  refine H.sub fun {z s i} link => ⟨?_, by rw [back_removeChild I.kids]⟩
  change (st.removeChild p r).graph.kid z s = some i at link
  rw [graphs] at link
  simp only [Graph.unlink] at link
  split at link
  · cases link
  · exact link

/-- What the freeing leaves are nodes of the tree, and these stay as they are. -/
theorem frees (I' : Inv st' [] path) (F : Frees st path st') : BackLinked st' := by
  refine H.sub fun {z s i} link => ⟨F.links z s i link, ?_⟩
  obtain ⟨l, label⟩ := I'.forest.kidOcc link
  obtain ⟨k, live⟩ := I'.path_of_label label
  rw [back, back, F.nodes i k live]

theorem deln (I : Inv st [] path) {pfx : Bytes} (nonempty : pfx ≠ []) (own : st.AbsorbsOwnByte (.deln pfx)) {count : Nat}
    (ran : st.deln pfx = .ok (count, st')) : BackLinked st' := by
  rw [st.deln_of_cutPoint nonempty] at ran
  cases target : st.cutPoint pfx with
  | none =>
    rw [target] at ran
    obtain ⟨-, rfl⟩ := Prod.mk.inj (Except.ok.inj ran)
    exact H
  | some link =>
    obtain ⟨y, p, r⟩ := link
    obtain ⟨q, child, at', edge, found, -⟩ := I.cutPoint_some nonempty target
    obtain ⟨I₁, -, -, stays⟩ := I.cutLink edge at' found
    obtain ⟨count₂, st₂, freed, I₂, frees, -⟩ := freeSubtreeIterative_ok I₁
    have root : st₂.rootIdx = st.rootIdx := (stays.trans frees.stays).rootIdx
    have H₂ : BackLinked st₂ := (H.cutLink I edge at' found).frees I₂ frees
    simp only [target, Option.elim_some, delnSubtree, freed] at ran
    split at ran
    next inner =>
      obtain ⟨st₃, run, same⟩ := exists_of_bind ran
      obtain ⟨-, rfl⟩ := Prod.mk.inj (Except.ok.inj same)
      rw [root] at inner
      refine H₂.tryRecompress I₂ (fun n₂ s z found₂ empty single => ?_) run
      obtain ⟨k, live⟩ := I₂.path_of_label (graph_label found₂)
      have found₁ : (st.removeChild p r).tryGetNode p = some n₂ := (frees.nodes p k live).symm.trans found₂
      rw [single_viewOf (TierInv.slotOk I₁.kids (tier_eq found₁))] at single
      obtain ⟨a, above, -, -, chosen⟩ := recompressed_of_cut I.kids target inner (view_eq found₁) empty
      obtain ⟨n, before, -⟩ := node_of_view above
      have same := back_eq found₁
      rw [back_removeChild I.kids, back_eq before] at same
      exact (congrArg Prod.snd (Option.some.inj same)).symm.trans (own _ chosen _ single n before)
    next top =>
      obtain ⟨-, rfl⟩ := Prod.mk.inj (Except.ok.inj ran)
      exact H₂

end BackLinked

end OxidArt

/-! ## Runs -/

section Typed

variable {S : Type} [Score S] {P : Policy}

/-- Writes, lookups and removals over plain keys. The expiry of `cmd_hset` is a `u64`. -/
def Command.Regular : Command S → Prop
  | .tree (.set key _) | .tree (.setTtl key _ _) | .tree (.get key) | .tree (.del key) => PlainKey key
  | .tree (.deln pfx) => pfx ≠ []
  | .tree (.setNow _) => True
  | .hset key _ ttl => PlainKey key ∧ ∀ t, ttl = some t → t < 2 ^ 64
  | _ => False

instance : (c : Command S) → Decidable c.Regular
  | .tree op => match op with
    | .set key _ | .setTtl key .. | .get key | .del key => inferInstanceAs (Decidable (PlainKey key))
    | .deln pfx => inferInstanceAs (Decidable (pfx ≠ []))
    | .setNow _ => inferInstanceAs (Decidable True)
    | .expire .. | .persist _ | .getTtl _ | .getn _ | .evict _ => inferInstanceAs (Decidable False)
  | .hset key _ _ => inferInstanceAs (Decidable (PlainKey key ∧ _))
  | .incrby .. | .hget .. | .hgetall .. | .hdel .. | .hexists .. | .hlen .. | .hkeys .. | .hvals .. | .hmget .. | .hincrby ..
  | .spop .. | .sadd .. | .srem .. | .smembers .. | .sismember .. | .scard .. | .zadd .. | .zcard .. | .zrange .. | .zscore ..
  | .zrem .. | .zincrby .. => inferInstanceAs (Decidable False)

def Command.asTree : Command S → Option (TreeOp (Value S))
  | .tree op => some op
  | _ => none

/-- A write splits at the node's own byte, and a removal absorbs under it. -/
def Command.KeepsLinks (st : OxidArt P (Value S)) (c : Command S) : Prop :=
  (∀ key ∈ c.links, st.OwnByte (st.walk key)) ∧ ∀ op ∈ c.asTree, st.AbsorbsOwnByte op

instance (st : OxidArt P (Value S)) (c : Command S) : Decidable (c.KeepsLinks st) :=
  inferInstanceAs (Decidable ((∀ key ∈ c.links, st.OwnByte (st.walk key)) ∧ ∀ op ∈ c.asTree, st.AbsorbsOwnByte op))

namespace OxidArt

variable {st st' : OxidArt P (Value S)} {path : Nat → Option Bytes} {key : Bytes} {order : HashOrder}

/-- An expiry beyond the field is not stored: a call that returns has found the container, as it does without expiry. -/
theorem getOrCreate_large {t : Nat} (word : t < 2 ^ 64) (large : 2 ^ 56 ≤ t) (isContainer : Value S → Bool) (empty : Value S) :
    Outcomes.Refines (st.getOrCreate isContainer empty (some t) key) (st.getOrCreate isContainer empty none key) := by
  refine Refines.bind (fun _ same => same) fun q => Refines.bind (fun _ same => same) fun n => ?_
  cases n.getValue q.2.now with
  | some v => exact fun _ same => same
  | none =>
    simp only [setExp_large n.expAndRadix word large, bind, Except.bind]
    exact .error _

theorem exec_hset_large {t : Nat} (word : t < 2 ^ 64) (large : 2 ^ 56 ≤ t) (fieldValues : List (Bytes × Bytes)) :
    Outcomes.Refines (OxidArt.exec order st (.hset key fieldValues (some t)))
      (OxidArt.exec order st (.hset key fieldValues none)) := by
  have created : Outcomes.Refines (st.getOrCreate (fun v => (Value.asHash v).isOk) (.hash .new) (some t) key)
      (st.getOrCreate (fun v => (Value.asHash v).isOk) (.hash .new) none key) := getOrCreate_large word large _ _
  have contained : Outcomes.Refines (st.getHashMut (some t) key) (st.getHashMut none key) :=
    (created.bind fun _ _ same => same).bind fun _ _ same => same
  exact (contained.bind fun _ _ same => same).map _

theorem small_of_setInternal {ttl : Nat} (word : ttl < 2 ^ 64) {v : Value S} (ran : st.setInternal key ttl v = .ok st') :
    ttl < 2 ^ 56 := by
  by_contra large
  have fails := setInternal_large word (Nat.le_of_not_lt large) st key v
  rwa [ran] at fails

theorem saturatingAdd_lt (a b : Nat) : saturatingAdd a b < 2 ^ 64 := by
  unfold saturatingAdd
  omega

/-- A command over plain keys that returns has stored an expiry that fits, if any. -/
theorem isSound_regular (sound : IsSound st) {c : Command S} (regular : c.Regular) {reply : Reply S}
    (ran : OxidArt.exec order st c = .ok (reply, st')) : IsSound st' := by
  cases c with
  | tree op =>
    refine isSound_exec sound ?_ ran
    cases op with
    | set key v => exact regular.2
    | setTtl key ttl v =>
      obtain ⟨q, called, -⟩ := exists_of_map ran
      obtain ⟨st₁, written, -⟩ := exists_of_bind called
      exact ⟨regular.2, small_of_setInternal (saturatingAdd_lt _ _) written⟩
    | deln pfx => exact fun empty => absurd empty regular
    | get | del | setNow => trivial
    | expire | persist | getTtl | getn | evict => exact regular.elim
  | hset key fieldValues ttl =>
    obtain ⟨⟨-, bytes⟩, word⟩ := regular
    cases ttl with
    | none => exact isSound_exec sound (show Command.Sound st (.hset key fieldValues none) from ⟨bytes, by rintro _ ⟨⟩⟩) ran
    | some t =>
      by_cases small : t < 2 ^ 56
      · refine isSound_exec sound (show Command.Sound st (.hset key fieldValues (some t)) from ⟨bytes, ?_⟩) ran
        rintro _ ⟨⟩
        exact small
      · have plain := exec_hset_large (word t rfl) (Nat.le_of_not_lt small) fieldValues _ ran
        exact isSound_exec sound (show Command.Sound st (.hset key fieldValues none) from ⟨bytes, by rintro _ ⟨⟩⟩) plain
  | _ => exact regular.elim

theorem BackLinked.hset (H : BackLinked st) (I : Inv st [] path) (plain : PlainKey key) (own : st.OwnByte (st.walk key))
    {fieldValues : List (Bytes × Bytes)} {ttl : Option Nat} {res : Except TypeError UInt32}
    (ran : st.cmdHset key fieldValues ttl = .ok (res, st')) : BackLinked st' := by
  obtain ⟨⟨got, st₁⟩, gets, ran⟩ := exists_of_bind ran
  obtain ⟨⟨found, st₂⟩, contained, same⟩ := exists_of_bind gets
  obtain ⟨rfl, rfl⟩ := Prod.mk.inj (Except.ok.inj same)
  obtain ⟨⟨made, st₃⟩, created, same⟩ := exists_of_bind contained
  have H₃ := H.getOrCreate I plain own created
  have kept : st₂ = st₃ := by
    dsimp only at same
    split at same
    · exact (Prod.mk.inj (Except.ok.inj same)).2.symm
    · split at same <;> exact (Prod.mk.inj (Except.ok.inj same)).2.symm
  subst kept
  cases found with
  | error e =>
    obtain ⟨-, rfl⟩ := Prod.mk.inj (Except.ok.inj ran)
    exact H₃
  | ok q =>
    obtain ⟨st₄, put, same⟩ := exists_of_bind ran
    obtain ⟨-, rfl⟩ := Prod.mk.inj (Except.ok.inj same)
    exact H₃.putVal put

theorem BackLinked.exec (H : BackLinked st) (I : Inv st [] path) {c : Command S} (regular : c.Regular) (keeps : c.KeepsLinks st)
    {reply : Reply S} (ran : OxidArt.exec order st c = .ok (reply, st')) : BackLinked st' := by
  cases c with
  | tree op =>
    obtain ⟨⟨reply', st₁⟩, called, same⟩ := exists_of_map ran
    obtain ⟨-, rfl⟩ := Prod.mk.inj same
    have own := keeps.2 op rfl
    cases op with
    | set key v =>
      obtain ⟨st₁, written, same⟩ := exists_of_bind called
      obtain ⟨-, rfl⟩ := Prod.mk.inj (Except.ok.inj same)
      exact H.setInternal I regular (keeps.1 key rfl) (by decide : ExpAndRadix.noExp < 2 ^ 56) written
    | setTtl key ttl v =>
      obtain ⟨st₁, written, same⟩ := exists_of_bind called
      obtain ⟨-, rfl⟩ := Prod.mk.inj (Except.ok.inj same)
      exact H.setInternal I regular (keeps.1 key rfl) (small_of_setInternal (saturatingAdd_lt _ _) written) written
    | get key =>
      obtain ⟨q, read, same⟩ := exists_of_bind called
      obtain ⟨-, rfl⟩ := Prod.mk.inj (Except.ok.inj same)
      rcases get_removes regular.1 read with same | ⟨i, p, r, keyPath, outcome, chosen, removed⟩
      · exact same ▸ H
      · obtain ⟨-, n, -, edge, -⟩ := I.walk_found regular.1 outcome
        exact H.deleteNodeInline I edge (chosen ▸ own) removed
    | del key =>
      obtain ⟨q, read, same⟩ := exists_of_bind called
      obtain ⟨-, rfl⟩ := Prod.mk.inj (Except.ok.inj same)
      rcases del_removes_node I.kids regular.1 read with same | ⟨i, p, r, keyPath, outcome, chosen, removed⟩
      · exact same ▸ H
      · obtain ⟨-, n, -, edge, -⟩ := I.walk_found regular.1 outcome
        exact H.deleteNodeInline I edge (chosen ▸ own) removed
    | deln pfx =>
      obtain ⟨q, deleted, same⟩ := exists_of_bind called
      obtain ⟨-, rfl⟩ := Prod.mk.inj (Except.ok.inj same)
      exact H.deln I regular own deleted
    | setNow now =>
      obtain ⟨-, rfl⟩ := Prod.mk.inj (Except.ok.inj called)
      exact H
    | expire | persist | getTtl | getn | evict => exact regular.elim
  | hset key fieldValues ttl =>
    obtain ⟨⟨res, st₁⟩, called, same⟩ := exists_of_map ran
    obtain ⟨-, rfl⟩ := Prod.mk.inj same
    exact H.hset I regular.1 (keeps.1 key rfl) called
  | _ => exact regular.elim

theorem backLinked_new : BackLinked (new : OxidArt P (Value S)) := by
  intro p r i edge
  have nodes : (new : OxidArt P (Value S)).tryGetNode p = if p = (new : OxidArt P (Value S)).rootIdx then some .default else none :=
    TaggedHiSlab.get_insertSlot _ _ p
  split at nodes
  · rw [find_of_default (tier_eq nodes)] at edge
    cases edge
  · rw [find_of_free nodes] at edge
    cases edge

theorem sound_and_backLinked (reached : Reaches (OxidArt.exec order) (fun st c => c.Regular ∧ c.KeepsLinks st) new st) :
    IsSound st ∧ BackLinked st := by
  induction reached with
  | refl => exact ⟨⟨_, inv_new⟩, backLinked_new⟩
  | step _ ok taken ih =>
    obtain ⟨⟨path, I⟩, H⟩ := ih
    exact ⟨isSound_regular ⟨path, I⟩ ok.1 taken, H.exec I ok.1 ok.2 taken⟩

/-- Where nodes are split and absorbed at their own byte only, the links back are exact: a node is found under its byte below its
parent. -/
theorem run_backLinked {commands : List (Command S)} {replies : List (Reply S)}
    (meets : Meets (OxidArt.exec order) (fun st c => c.Regular ∧ c.KeepsLinks st) commands (new : OxidArt P (Value S)))
    (ran : run (OxidArt.exec order) commands (new : OxidArt P (Value S)) = .ok (replies, st)) {i : Nat} {n : Node (Value S)}
    (found : st.tryGetNode i = some n) (inner : i ≠ st.rootIdx) :
    ∃ p, n.parentIdx = some p ∧ st.find p n.expAndRadix.parentRadix = some i := by
  obtain ⟨⟨path, I⟩, H⟩ := sound_and_backLinked (Reaches.run .refl meets ran)
  rcases I.forest.parent (graph_label found) inner with member | ⟨p, r, edge⟩
  · cases member
  · have link := Option.some.inj ((back_eq found).symm.trans (H p r i edge))
    have byte : n.expAndRadix.parentRadix = r := congrArg Prod.snd link
    exact ⟨p, congrArg Prod.fst link, byte ▸ edge⟩

/-- The first node splits at its own byte, a lookup makes a node absorb its own byte, and so does the last deletion. -/
def ownByteRun : List (Command Int) :=
  [.tree (.set [97, 97] (.int 1)), .tree (.setTtl [97, 98] 5 (.int 2)), .hset [98, 97] [([1], [2])] none,
    .tree (.set [97, 98, 98] (.int 3)), .tree (.setNow 6), .tree (.get [97, 98]), .tree (.deln [97, 98])]

theorem run_backLinked_ownByteRun : ∃ replies st n p,
    run (OxidArt.exec .stored) ownByteRun (new : OxidArt .lowest (Value Int)) = .ok (replies, st) ∧ st.tryGetNode 1 = some n ∧
      n.parentIdx = some p ∧ st.find p n.expAndRadix.parentRadix = some 1 := by
  have seen : (run (OxidArt.exec .stored) ownByteRun (new : OxidArt .lowest (Value Int))).toOption.map
      (fun q => (q.2.rootIdx, (q.2.tryGetNode 1).isSome)) = some (0, true) := by decide +kernel
  have meets : Meets (OxidArt.exec .stored) (fun st c => c.Regular ∧ c.KeepsLinks st) ownByteRun
      (new : OxidArt .lowest (Value Int)) := by decide +kernel
  cases ran : run (OxidArt.exec .stored) ownByteRun (new : OxidArt .lowest (Value Int)) with
  | error e =>
    rw [ran] at seen
    cases seen
  | ok q =>
    obtain ⟨replies, st⟩ := q
    rw [ran] at seen
    obtain ⟨root, held⟩ := Prod.mk.inj (Option.some.inj seen)
    obtain ⟨n, found⟩ := Option.isSome_iff_exists.1 held
    have inner : 1 ≠ st.rootIdx := fun same => absurd (same.trans root) (by decide)
    obtain ⟨p, parent, link⟩ := run_backLinked meets ran found inner
    exact ⟨replies, st, n, p, rfl, found, parent, link⟩

/-- The lower half of "ab" keeps the byte under which "ab" was linked, but its new parent links it under another one. -/
theorem split_leaves_stale_link : ¬ ∀ (S : Type) [Score S] (P : Policy) (order : HashOrder) (commands : List (Command S))
    (replies : List (Reply S)) (st : OxidArt P (Value S)), (∀ c ∈ commands, c.Regular) →
    run (OxidArt.exec order) commands (new : OxidArt P (Value S)) = .ok (replies, st) →
    ∀ i n, st.tryGetNode i = some n → i ≠ st.rootIdx → ∃ p, n.parentIdx = some p ∧ st.find p n.expAndRadix.parentRadix = some i := by
  intro all
  have seen : (run (OxidArt.exec .stored) [.tree (.set [97, 98] (.int 1)), .tree (.set [97, 99] (.int 2))]
      (new : OxidArt .lowest (Value Int))).toOption.map (fun q => (q.2.rootIdx, (q.2.tryGetNode 2).map fun n =>
        (n.parentIdx, q.2.find 1 n.expAndRadix.parentRadix))) = some (0, some (some 1, none)) := by decide +kernel
  cases ran : run (OxidArt.exec .stored) [.tree (.set [97, 98] (.int 1)), .tree (.set [97, 99] (.int 2))]
      (new : OxidArt .lowest (Value Int)) with
  | error e =>
    rw [ran] at seen
    cases seen
  | ok q =>
    obtain ⟨replies, st⟩ := q
    rw [ran] at seen
    obtain ⟨root, node⟩ := Prod.mk.inj (Option.some.inj seen)
    obtain ⟨n, found, flags⟩ := Option.map_eq_some_iff.1 node
    obtain ⟨parent, stale⟩ := Prod.mk.inj flags
    have inner : 2 ≠ st.rootIdx := fun same => absurd (same.trans root) (by decide)
    obtain ⟨p, above, link⟩ := all Int .lowest .stored _ replies st (by decide +kernel) ran 2 n found inner
    obtain rfl := Option.some.inj (above.symm.trans parent)
    exact absurd (stale.symm.trans link) (by simp)

end OxidArt

end Typed

end Radixox.Oxidart
