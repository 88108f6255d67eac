import Radixox.Oxidart.Chunks
import Radixox.Oxidart.EmptyKey

/-!
# Deletions and expired entries

`del`, `deln` and `deln_async` look at the entries of the tree, not at what a reader sees:
an entry that has expired but is not yet collected is found and counted like any other. The
only one that asks for the clock is `deln_async` of the empty prefix, at the
root.
-/

namespace Radixox.Oxidart
set_option autoImplicit false
open Radixox.PathForest Radixox.Runs

/-- The three ways to delete. -/
inductive Deletion where
  | del (key : Bytes)
  | deln (pfx : Bytes)
  | delnAsync (pfx : Bytes)

inductive DeletionReply (V : Type) where
  | value (v : Option V)
  | count (n : Nat)

/-- How much a deletion adds to the reply of a command. -/
def DeletionReply.hits {V : Type} : DeletionReply V → Nat
  | .value v => if v.isSome then 1 else 0
  | .count n => n

def totalHits {V : Type} (replies : List (DeletionReply V)) : Nat := (replies.map DeletionReply.hits).sum

namespace Deletion

variable {V : Type}

/-- The reply of a deletion from a table of entries: the value under the key, or how many keys have the prefix. -/
def Replies (table : Bytes → Option (V × Option Nat)) : Deletion → DeletionReply V → Prop
  | .del key, reply => reply = .value ((table key).map Prod.fst)
  | .deln pfx, reply | .delnAsync pfx, reply =>
    ∃ keys : Finset Bytes, (∀ k, k ∈ keys ↔ pfx <+: k ∧ (table k).isSome = true) ∧ reply = .count keys.card

/-- The keys whose entries the deletion counts without a look at the clock. -/
def Covers : Deletion → Bytes → Prop
  | .del key, k => k = key
  | .deln pfx, k => pfx <+: k
  | .delnAsync pfx, k => pfx <+: k ∧ k ≠ []

end Deletion

namespace OxidArt

variable {P : Policy} {V : Type} {st st' : OxidArt P V} {path : Nat → Option Bytes}

def execDeletion (st : OxidArt P V) : Deletion → Exec (DeletionReply V × OxidArt P V)
  | .del key => (st.del key).map fun p => (.value p.1, p.2)
  | .deln pfx => (st.deln pfx).map fun p => (.count p.1, p.2)
  | .delnAsync pfx => (st.delnAsync YIELD_BUDGET pfx).map fun p => (.count p.1, p.2)

/-! ## When only the root is left -/

theorem mem_children_of_find {i j : Nat} {r : UInt8} (edge : st.find i r = some j) : j ∈ st.collectChildIndices i := by
  rw [find_eq_lookup] at edge
  obtain ⟨before, after, split, -⟩ := List.lookup_eq_some_iff.1 edge
  rw [collectChildIndices, split]
  exact List.mem_map.2 ⟨(r, j), List.mem_append_right _ List.mem_cons_self, rfl⟩

namespace Husk

/-- The links left in the overflow slot lead to free indices. -/
theorem children_free (H : Husk st) {i : Nat} (member : i ∈ st.collectChildIndices st.rootIdx) : st.tryGetNode i = none :=
  H.alone i fun same => H.unlooped (same ▸ member)

theorem walk (H : Husk st) {key : Bytes} (nonempty : key ≠ []) :
    (∃ idx, st.walk key = .gone idx) ∨ ∃ idx rest, st.walk key = .noChild idx rest := by
  cases key with
  | nil => exact absurd rfl nonempty
  | cons r rest =>
    unfold OxidArt.walk
    rw [List.length_cons, walkFrom]
    cases edge : st.find st.rootIdx r with
    | none => exact .inr ⟨_, _, rfl⟩
    | some child =>
      have free : st.tryGetNode child = none := H.children_free (mem_children_of_find edge)
      simp only [free]
      exact .inl ⟨child, rfl⟩

theorem entry (H : Husk st) {key : Bytes} (nonempty : key ≠ []) : st.entry key = none := by
  apply entry_of_traverse_none
  have notEmpty : key.isEmpty = false := by simpa using nonempty
  simp only [traverseToKey, notEmpty, Bool.false_eq_true, if_false]
  rcases H.walk nonempty with ⟨idx, walk⟩ | ⟨idx, rest, walk⟩
  · rw [walk]
  · rw [walk]

/-- Another root node over the same overflow slot. -/
theorem setNode (H : Husk st) {n : Node V} (n' : Node V) (found : st.tryGetNode st.rootIdx = some n) (childs : n'.childs = .default)
    (overflow : n'.overflowIdx = n.overflowIdx) : Husk (st.setNode st.rootIdx n') := by
  have atRoot : (st.setNode st.rootIdx n').tryGetNode st.rootIdx = some n' := by
    rw [tryGetNode_setNode, if_pos rfl, found]
    rfl
  obtain ⟨m, held, inline⟩ := H.root
  obtain rfl := Option.some.inj (found.symm.trans held)
  refine ⟨⟨n', atRoot, childs⟩, ?_, ?_⟩
  · intro i other
    have other' : i ≠ st.rootIdx := other
    rw [tryGetNode_setNode, if_neg other']
    exact H.alone i other'
  · have tier : st.tier st.rootIdx = some (.default, n.overflowIdx) := by rw [OxidArt.tier, found, Option.map_some, inline]
    have tier' : (st.setNode st.rootIdx n').tier st.rootIdx = some (.default, n.overflowIdx) := by
      rw [OxidArt.tier, atRoot, Option.map_some, childs, overflow]
    have same : (st.setNode st.rootIdx n').collectChildIndices st.rootIdx = st.collectChildIndices st.rootIdx := by
      rw [collectChildIndices, collectChildIndices, iterAllChildren_of_tier tier, iterAllChildren_of_tier tier']
      rfl
    show st.rootIdx ∉ (st.setNode st.rootIdx n').collectChildIndices st.rootIdx
    rw [same]
    exact H.unlooped

/-- The root has no inline link to recompress. -/
theorem tryRecompress_root (H : Husk st) : st.tryRecompress st.rootIdx = .ok st := by
  obtain ⟨n, found, childs⟩ := H.root
  have single : n.getSingleChild = none := by
    unfold Node.getSingleChild
    rw [childs]
    rfl
  simp only [tryRecompress, found, single]
  exact ite_self _

/-- Popping free indices changes nothing. -/
theorem freeLoop_free (fuel : Nat) : ∀ (budget : Option Nat) (stack : List Nat) (count : Nat),
    (∀ i ∈ stack, st.tryGetNode i = none) → budget ≠ some 0 → stack.length ≤ fuel →
    freeLoop fuel budget st stack count = (count, [], st) := by
  induction fuel with
  | zero =>
    intro budget stack count _ _ enough
    rw [List.length_eq_zero_iff.1 (Nat.le_zero.1 enough)]
    rfl
  | succ fuel ih =>
    intro budget stack count free unspent enough
    rw [freeLoop, if_neg unspent]
    rcases List.eq_nil_or_concat stack with rfl | ⟨rest, y, rfl⟩
    · rfl
    · rw [List.concat_eq_append] at free enough ⊢
      have skipped : st.freeNode y = none := by
        unfold freeNode
        rw [free y (List.mem_append_right _ (List.mem_singleton.2 rfl))]
      simp only [List.getLast?_concat, skipped, List.dropLast_concat]
      refine ih budget rest count (fun i member => free i (List.mem_append_left _ member)) unspent ?_
      simp only [List.length_append, List.length_singleton] at enough
      omega

theorem deln_nil (H : Husk st) {n : Node V} (found : st.tryGetNode st.rootIdx = some n) :
    st.deln [] = .ok (if n.val.isSome then 1 else 0, st.setNode st.rootIdx { n.clearVal with childs := .default }) := by
  have free : ∀ i ∈ st.collectChildIndices st.rootIdx,
      (st.setNode st.rootIdx { n.clearVal with childs := .default }).tryGetNode i = none := by
    intro i member
    have other : i ≠ st.rootIdx := fun same => H.unlooped (same ▸ member)
    rw [tryGetNode_setNode, if_neg other]
    exact H.children_free member
  have loop := freeLoop_free (st.freeFuel (st.collectChildIndices st.rootIdx)) none (st.collectChildIndices st.rootIdx) 0 free
    (Option.some_ne_none 0).symm (Nat.le_add_right _ _)
  simp only [deln, List.isEmpty_nil, if_true, getNode_ok found, bind, Except.bind, freeSubtreeIterative, freeFuel_setNode, loop,
    Nat.zero_add]
  rfl

theorem delnAsync_nil (H : Husk st) {n : Node V} {budget : Nat} (positive : 0 < budget)
    (found : st.tryGetNode st.rootIdx = some n) :
    st.delnAsync budget [] =
      .ok (if (n.getValue st.now).isSome then 1 else 0, st.setNode st.rootIdx { n with childs := .default }) := by
  have free : ∀ i ∈ st.collectChildIndices st.rootIdx,
      (st.setNode st.rootIdx { n with childs := .default }).tryGetNode i = none := by
    intro i member
    have other : i ≠ st.rootIdx := fun same => H.unlooped (same ▸ member)
    rw [tryGetNode_setNode, if_neg other]
    exact H.children_free member
  have started : st.findAndCutPrefix [] = .ok ((st.collectChildIndices st.rootIdx, st.rootIdx,
      if (n.getValue st.now).isSome then 1 else 0), st.setNode st.rootIdx { n with childs := .default }) := by
    simp only [findAndCutPrefix, List.isEmpty_nil, if_true, getNode_ok found, bind, Except.bind]
    rfl
  have unspent : some budget ≠ some 0 := fun same => absurd (Option.some.inj same) (by omega)
  cases children : st.collectChildIndices st.rootIdx with
  | nil =>
    rw [children] at started
    simp only [delnAsync, started, bind, Except.bind, List.isEmpty_nil, if_true]
    rfl
  | cons child rest =>
    rw [children] at started free
    have loop := freeLoop_free (st.freeFuel (child :: rest)) (some budget) (child :: rest) 0 free unspent (Nat.le_add_right _ _)
    obtain ⟨fuel, enough⟩ : ∃ fuel, st.freeFuel (child :: rest) = fuel + 1 := by
      refine ⟨st.freeFuel (child :: rest) - 1, ?_⟩
      simp only [freeFuel, List.length_cons]
      omega
    have top : (st.setNode st.rootIdx { n with childs := .default }).rootIdx = st.rootIdx := rfl
    simp only [delnAsync, started, bind, Except.bind, List.isEmpty_cons, Bool.false_eq_true, if_false, freeFuel_setNode]
    rw [enough]
    rw [enough] at loop
    simp only [finishDeln, pollDeln, freeChunk, freeFuel_setNode, enough, loop, List.isEmpty_nil, if_true, top, ne_eq,
      not_true_eq_false, if_false]
    rfl

end Husk

/-! ## What a deletion counts -/

/-- The states a run of deletions passes: a sound tree, or a root that a flush left alone. -/
def Deletable (st : OxidArt P V) : Prop := IsSound st ∨ Husk st

/-- The entries a deletion sees: all of them, except that the flush of `deln_async` asks whether the root has expired. -/
def seenBy (st : OxidArt P V) : Deletion → Bytes → Option (V × Option Nat)
  | .delnAsync _, k => if k = [] then st.live k else st.entry k
  | _, k => st.entry k

/-- The deletion counts what a reader sees. -/
def CountsLive (st : OxidArt P V) (d : Deletion) : Prop :=
  ∃ reply st', st.execDeletion d = .ok (reply, st') ∧ d.Replies st.live reply

/-- The deletion meets an entry that has expired and is not yet collected. -/
def MeetsExpired (st : OxidArt P V) (d : Deletion) : Prop :=
  ∃ k, d.Covers k ∧ (st.entry k).isSome = true ∧ st.live k = none

theorem entry_nil {n : Node V} (found : st.tryGetNode st.rootIdx = some n) : st.entry [] = n.content := by
  simp only [OxidArt.entry, traverseToKey, List.isEmpty_nil, if_true, Option.bind_some, content_eq found]

theorem live_nil {n : Node V} (found : st.tryGetNode st.rootIdx = some n) :
    (st.live []).isSome = (n.getValue st.now).isSome := by
  rw [live, entry_nil found, liveAt, Node.content, Node.getValue, Node.isExpired_eq]
  cases n.val with
  | none => simp
  | some v => cases past : expired st.now n.expAndRadix.exp <;> simp [past, Option.filter]

theorem execDeletion_del (good : Deletable st) (key : Bytes) :
    ∃ st', st.del key = .ok ((st.entry key).map Prod.fst, st') ∧ Deletable st' := by
  rcases good with ⟨path, I⟩ | H
  · by_cases empty : key = []
    · subst empty
      obtain ⟨root, found⟩ := I.root_node
      obtain ⟨st', path', run, I', stays, -⟩ := clearRoot_ok I found
      refine ⟨st', ?_, .inl ⟨path', I'⟩⟩
      rw [entry_nil found, Node.content, Option.map_map]
      simp only [del, List.isEmpty_nil, if_true, getNode_ok found, run, bind, Except.bind]
      cases root.val <;> rfl
    · obtain ⟨st', path', run, S, -⟩ := del_ok I empty
      exact ⟨st', run, .inl ⟨path', S.inv⟩⟩
  · obtain ⟨n, found, childs⟩ := H.root
    by_cases empty : key = []
    · subst empty
      have stops := (H.setNode n.clearVal found childs rfl).tryRecompress_root
      refine ⟨_, ?_, .inr (H.setNode n.clearVal found childs rfl)⟩
      rw [entry_nil found, Node.content, Option.map_map]
      change (st.setNode st.rootIdx n.clearVal).tryRecompress st.rootIdx = _ at stops
      simp only [del, List.isEmpty_nil, if_true, getNode_ok found, stops, bind, Except.bind]
      cases n.val <;> rfl
    · have notEmpty : key.isEmpty = false := by simpa using empty
      refine ⟨st, ?_, .inr H⟩
      rw [H.entry empty]
      rcases H.walk empty with ⟨idx, walk⟩ | ⟨idx, rest, walk⟩
      · simp only [del, notEmpty, Bool.false_eq_true, if_false, walk]
        rfl
      · simp only [del, notEmpty, Bool.false_eq_true, if_false, walk]
        rfl

/-- The keys of a root that is alone. -/
theorem Husk.keys (H : Husk st) (pfx : Bytes) {table : Bytes → Option (V × Option Nat)} {b : Bool}
    (others : ∀ k, k ≠ [] → table k = st.entry k) (top : (table []).isSome = b) :
    ∃ keys : Finset Bytes, (∀ k, k ∈ keys ↔ pfx <+: k ∧ (table k).isSome = true) ∧
      (if pfx = [] ∧ b = true then 1 else 0) = keys.card := by
  have absent : ∀ k, k ≠ [] → table k = none := fun k other => (others k other).trans (H.entry other)
  split
  next counted =>
    refine ⟨{[]}, fun k => ?_, rfl⟩
    rw [Finset.mem_singleton]
    constructor
    · rintro rfl
      exact ⟨counted.1 ▸ List.prefix_refl _, top.trans counted.2⟩
    · rintro ⟨-, held⟩
      by_contra other
      rw [absent k other] at held
      cases held
  next none' =>
    refine ⟨∅, fun k => ?_, rfl⟩
    simp only [Finset.notMem_empty, false_iff, not_and]
    intro inside held
    by_cases other : k = []
    · subst other
      exact none' ⟨List.prefix_nil.1 inside, top.symm.trans held⟩
    · rw [absent k other] at held
      cases held

theorem execDeletion_deln (good : Deletable st) (pfx : Bytes) :
    ∃ count st', st.deln pfx = .ok (count, st') ∧ Deletable st' ∧ st'.now = st.now ∧
      (st'.entry = fun k => if pfx <+: k then none else st.entry k) ∧
      ∃ keys : Finset Bytes, (∀ k, k ∈ keys ↔ pfx <+: k ∧ (st.entry k).isSome = true) ∧ count = keys.card := by
  -- A root that is alone and holds nothing.
  have bare : ∀ {st' : OxidArt P V} {n : Node V}, Husk st' → st'.tryGetNode st'.rootIdx = some n → n.val = none →
      st'.entry = fun k => if [] <+: k then none else st.entry k := by
    intro st' n husk atRoot cleared
    funext k
    rw [if_pos List.nil_prefix]
    by_cases other : k = []
    · rw [other, entry_nil atRoot, Node.content, cleared]
      rfl
    · exact husk.entry other
  rcases good with ⟨path, I⟩ | H
  · by_cases empty : pfx = []
    · subst empty
      obtain ⟨root, found⟩ := I.root_node
      obtain ⟨count, st', run, husk, stays, atRoot, keys, mem, counted⟩ := deln_nil_ok I found
      refine ⟨count, st', run, .inr husk, stays.now, bare husk (stays.rootIdx.symm ▸ atRoot) rfl, keys, fun k => ?_, counted⟩
      rw [mem, and_iff_right (List.nil_prefix)]
    · obtain ⟨count, st', path', run, D⟩ := deln_ok I empty
      exact ⟨count, st', run, .inl ⟨path', D.step.inv⟩, D.step.stays.now, D.entries, D.counts⟩
  · obtain ⟨n, found, childs⟩ := H.root
    by_cases empty : pfx = []
    · subst empty
      obtain ⟨keys, mem, counted⟩ := H.keys [] (b := n.val.isSome) (fun k _ => rfl (a := st.entry k))
        (by rw [entry_nil found, Node.content, Option.isSome_map])
      simp only [true_and] at counted
      have H' := H.setNode { n.clearVal with childs := .default } found rfl rfl
      have atRoot : (st.setNode st.rootIdx { n.clearVal with childs := .default }).tryGetNode st.rootIdx =
          some { n.clearVal with childs := .default } := by
        rw [tryGetNode_setNode, if_pos rfl, found]
        rfl
      exact ⟨_, _, H.deln_nil found, .inr H', rfl, bare H' atRoot rfl, keys, mem, counted⟩
    · have notEmpty : pfx.isEmpty = false := by simpa using empty
      obtain ⟨keys, mem, counted⟩ := H.keys pfx (fun k _ => rfl (a := st.entry k)) rfl
      simp only [empty, false_and, if_false] at counted
      have same : st.entry = fun k => if pfx <+: k then none else st.entry k := by
        funext k
        split
        next inside => exact H.entry fun top => empty (List.prefix_nil.1 (top ▸ inside))
        next => rfl
      refine ⟨0, st, ?_, .inr H, rfl, same, keys, mem, counted⟩
      rcases H.walk empty with ⟨idx, walk⟩ | ⟨idx, rest, walk⟩
      · simp only [deln, notEmpty, Bool.false_eq_true, if_false, walk]
      · simp only [deln, notEmpty, Bool.false_eq_true, if_false, walk]

theorem execDeletion_delnAsync (good : Deletable st) {budget : Nat} (positive : 0 < budget) (pfx : Bytes) :
    ∃ count st', st.delnAsync budget pfx = .ok (count, st') ∧ Deletable st' ∧ st'.now = st.now ∧
      (st'.entry = fun k => if k ≠ [] ∧ pfx <+: k then none else st.entry k) ∧
      ∃ keys : Finset Bytes, (∀ k, k ∈ keys ↔ pfx <+: k ∧ (st.seenBy (.delnAsync pfx) k).isSome = true) ∧ count = keys.card := by
  have others : ∀ k, k ≠ [] → st.seenBy (.delnAsync pfx) k = st.entry k := fun k other => if_neg other
  rcases good with ⟨path, I⟩ | H
  · by_cases empty : pfx = []
    · subst empty
      obtain ⟨root, found⟩ := I.root_node
      obtain ⟨count, st', run, husk, stays, atRoot, keys, mem, rfl⟩ := delnAsync_nil_ok I positive found
      have left : st'.entry = fun k => if k ≠ [] ∧ [] <+: k then none else st.entry k := by
        funext k
        by_cases other : k = []
        · subst other
          rw [if_neg fun both => both.1 rfl, entry_nil (stays.rootIdx.symm ▸ atRoot), entry_nil found]
          rfl
        · rw [if_pos ⟨other, List.nil_prefix⟩, husk.entry other]
      have top : (st.seenBy (.delnAsync []) []).isSome = (root.getValue st.now).isSome := live_nil found
      refine ⟨_, st', run, .inr husk, stays.now, left,
        if (root.getValue st.now).isSome then Insert.insert [] keys else keys, fun k => ?_, ?_⟩
      · rw [and_iff_right (List.nil_prefix)]
        by_cases other : k = []
        · subst other
          rw [top]
          split
          next has => simp [has]
          next lacks => simp [mem, lacks]
        · rw [others k other]
          split
          · rw [Finset.mem_insert, mem]
            simp [other]
          · rw [mem]
            simp [other]
      · split
        · rw [Finset.card_insert_of_notMem fun member => ((mem []).1 member).1 rfl, Nat.add_comm]
        · exact Nat.zero_add _
    · obtain ⟨count, st', path', run, D⟩ := delnAsync_ok I positive empty
      obtain ⟨keys, mem, counted⟩ := D.counts
      have inner : ∀ k, pfx <+: k → k ≠ [] := fun k inside same => empty (List.prefix_nil.1 (same ▸ inside))
      refine ⟨count, st', run, .inl ⟨path', D.step.inv⟩, D.step.stays.now, ?_, keys, fun k => ?_, counted⟩
      · rw [D.entries]
        funext k
        by_cases inside : pfx <+: k
        · rw [if_pos inside, if_pos ⟨inner k inside, inside⟩]
        · rw [if_neg inside, if_neg fun both => inside both.2]
      · rw [mem]
        refine and_congr_right fun inside => ?_
        rw [others k (inner k inside)]
  · obtain ⟨n, found, childs⟩ := H.root
    have left : ∀ k, k ≠ [] → st.entry k = none := fun k => H.entry
    by_cases empty : pfx = []
    · subst empty
      obtain ⟨keys, mem, counted⟩ := H.keys [] others (live_nil found)
      simp only [true_and] at counted
      have H' := H.setNode { n with childs := .default } found rfl rfl
      refine ⟨_, _, H.delnAsync_nil positive found, .inr H', rfl, ?_, keys, mem, counted⟩
      funext k
      by_cases other : k = []
      · subst other
        have atRoot : (st.setNode st.rootIdx { n with childs := .default }).tryGetNode st.rootIdx =
            some { n with childs := .default } := by
          rw [tryGetNode_setNode, if_pos rfl, found]
          rfl
        rw [if_neg fun both => both.1 rfl, entry_nil found]
        exact entry_nil (n := { n with childs := .default }) atRoot
      · rw [if_pos ⟨other, List.nil_prefix⟩, H'.entry other]
    · have notEmpty : pfx.isEmpty = false := by simpa using empty
      obtain ⟨keys, mem, counted⟩ := H.keys pfx others rfl
      simp only [empty, false_and, if_false] at counted
      have same : st.entry = fun k => if k ≠ [] ∧ pfx <+: k then none else st.entry k := by
        funext k
        split
        next both => exact left k both.1
        next => rfl
      refine ⟨0, st, ?_, .inr H, rfl, same, keys, mem, counted⟩
      rcases H.walk empty with ⟨idx, walk⟩ | ⟨idx, rest, walk⟩
      · simp only [delnAsync, findAndCutPrefix, notEmpty, Bool.false_eq_true, if_false, walk, bind, Except.bind]
        rfl
      · simp only [delnAsync, findAndCutPrefix, notEmpty, Bool.false_eq_true, if_false, walk, bind, Except.bind]
        rfl

/-- Every deletion returns, and replies from the entries it sees. -/
theorem execDeletion_ok (good : Deletable st) (d : Deletion) :
    ∃ reply st', st.execDeletion d = .ok (reply, st') ∧ Deletable st' ∧ d.Replies (st.seenBy d) reply := by
  cases d with
  | del key =>
    obtain ⟨st', run, good'⟩ := execDeletion_del good key
    exact ⟨_, st', by rw [execDeletion, run]; rfl, good', rfl⟩
  | deln pfx =>
    obtain ⟨count, st', run, good', -, -, keys, mem, counted⟩ := execDeletion_deln good pfx
    exact ⟨_, st', by rw [execDeletion, run]; rfl, good', keys, mem, congrArg DeletionReply.count counted⟩
  | delnAsync pfx =>
    obtain ⟨count, st', run, good', -, -, keys, mem, counted⟩ := execDeletion_delnAsync good (by decide : 0 < YIELD_BUDGET) pfx
    exact ⟨_, st', by rw [execDeletion, run]; rfl, good', keys, mem, congrArg DeletionReply.count counted⟩

theorem isSome_seenBy_of_live {d : Deletion} {k : Bytes} (held : (st.live k).isSome = true) : (st.seenBy d k).isSome = true := by
  obtain ⟨c, live⟩ := Option.isSome_iff_exists.1 held
  have entry : (st.entry k).isSome = true := by
    rw [(Option.filter_eq_some_iff.1 live).1]
    rfl
  cases d with
  | del | deln => exact entry
  | delnAsync pfx =>
    show (if k = [] then st.live k else st.entry k).isSome = true
    split
    · exact held
    · exact entry

/-- The keys a deletion by prefix counts are the live ones exactly when none of the entries it covers has expired. -/
theorem card_eq_live_iff {d : Deletion} {pfx : Bytes} {seen : Finset Bytes}
    (mem : ∀ k, k ∈ seen ↔ pfx <+: k ∧ (st.seenBy d k).isSome = true)
    (covers : ∀ k, pfx <+: k ∧ (st.seenBy d k).isSome = true ∧ st.live k = none ↔
      d.Covers k ∧ (st.entry k).isSome = true ∧ st.live k = none) :
    (∃ keys : Finset Bytes, (∀ k, k ∈ keys ↔ pfx <+: k ∧ (st.live k).isSome = true) ∧ seen.card = keys.card) ↔
      ¬ st.MeetsExpired d := by
  constructor
  · rintro ⟨keys, memLive, same⟩ ⟨k, covered⟩
    obtain ⟨inside, held, dead⟩ := (covers k).2 covered
    have sub : keys ⊆ seen := by
      intro k' member
      obtain ⟨inside', live⟩ := (memLive k').1 member
      exact (mem k').2 ⟨inside', isSome_seenBy_of_live live⟩
    have equal := Finset.eq_of_subset_of_card_le sub (Nat.le_of_eq same)
    have member : k ∈ keys := equal ▸ (mem k).2 ⟨inside, held⟩
    have live := ((memLive k).1 member).2
    rw [dead] at live
    cases live
  · intro fresh
    refine ⟨seen, fun k => ?_, rfl⟩
    rw [mem]
    refine and_congr_right fun inside => ⟨fun held => ?_, isSome_seenBy_of_live⟩
    by_contra dead
    exact fresh ⟨k, (covers k).1 ⟨inside, held, by simpa using dead⟩⟩

theorem countsLive_iff (good : Deletable st) (d : Deletion) : st.CountsLive d ↔ ¬ st.MeetsExpired d := by
  obtain ⟨reply, st', run, -, replies⟩ := execDeletion_ok good d
  have counts : st.CountsLive d ↔ d.Replies st.live reply := by
    constructor
    · rintro ⟨reply', st'', run', replies'⟩
      obtain ⟨rfl, -⟩ := Prod.mk.inj (Except.ok.inj (run.symm.trans run'))
      exact replies'
    · exact fun replies' => ⟨reply, st', run, replies'⟩
  rw [counts]
  cases d with
  | del key =>
    obtain rfl : reply = .value ((st.entry key).map Prod.fst) := replies
    show DeletionReply.value _ = DeletionReply.value _ ↔ _
    rw [DeletionReply.value.injEq]
    constructor
    · rintro same ⟨k, rfl, held, dead⟩
      rw [dead] at same
      obtain ⟨c, entry⟩ := Option.isSome_iff_exists.1 held
      rw [entry] at same
      cases same
    · intro fresh
      cases live : st.live key with
      | some c => rw [(Option.filter_eq_some_iff.1 live).1]
      | none =>
        cases entry : st.entry key with
        | none => rfl
        | some c => exact absurd ⟨key, rfl, by rw [entry]; rfl, live⟩ fresh
  | deln pfx =>
    obtain ⟨seen, mem, rfl⟩ := replies
    rw [← card_eq_live_iff mem fun _ => Iff.rfl]
    simp only [Deletion.Replies, DeletionReply.count.injEq]
  | delnAsync pfx =>
    obtain ⟨seen, mem, rfl⟩ := replies
    rw [← card_eq_live_iff mem ?_]
    · simp only [Deletion.Replies, DeletionReply.count.injEq]
    · intro k
      by_cases top : k = []
      · -- An expired root is not counted.
        subst top
        simp only [seenBy, if_true, Deletion.Covers, ne_eq, not_true_eq_false, and_false, false_and, iff_false]
        rintro ⟨-, held, dead⟩
        rw [dead] at held
        cases held
      · simp only [seenBy, Deletion.Covers, ne_eq, top, not_false_eq_true, and_true, if_false]

/-! ## Runs of one kind -/

/-- Deleting the empty key would move another one: the root has a single child, and some other key has an entry. -/
def Absorbs (st : OxidArt P V) : Prop :=
  (∃ root, st.tryGetNode st.rootIdx = some root ∧ root.getSingleChild ≠ none) ∧ ∃ key, key ≠ [] ∧ (st.entry key).isSome = true

/-- Clearing the root removes the entry of the empty key and no other, unless the root absorbs a child. -/
theorem clearRoot_calm {cut : List Nat} (I : Inv st cut path) {root : Node V} (found : st.tryGetNode st.rootIdx = some root)
    (calm : ¬ st.Absorbs) :
    ∃ st' path', (st.setNode st.rootIdx root.clearVal).tryRecompress st.rootIdx = .ok st' ∧ Inv st' cut path' ∧ Stays st st' ∧
      st'.entry = Function.update st.entry [] none := by
  obtain ⟨st', path', run, I', stays, none', single'⟩ := clearRoot_ok I found
  refine ⟨st', path', run, I', stays, ?_⟩
  cases single : root.getSingleChild with
  | none => exact (none' single).2.2
  | some link =>
    obtain ⟨r, y⟩ := link
    obtain ⟨p, nonempty, -, -, entries⟩ := single' r y single
    have absent : ∀ k, k ≠ [] → st.entry k = none := by
      intro k other
      by_contra held
      refine calm ⟨⟨root, found, by rw [single]; exact Option.some_ne_none _⟩, k, other, ?_⟩
      exact Option.isSome_iff_ne_none.2 held
    rw [entries]
    funext k
    by_cases top : k = []
    · rw [top, Function.update_self, absent (p ++ []) (by simpa using nonempty)]
    · rw [Function.update_of_ne top, absent k top, absent (p ++ k) (by simp [nonempty])]

/-- So a deletion removes one entry, also while other trees are detached. -/
theorem del_calm {cut : List Nat} (I : Inv st cut path) {key : Bytes} (calm : key = [] → ¬ st.Absorbs) :
    ∃ st' path', st.del key = .ok ((st.entry key).map Prod.fst, st') ∧ Inv st' cut path' ∧ Stays st st' ∧
      st'.entry = Function.update st.entry key none := by
  by_cases empty : key = []
  · subst empty
    obtain ⟨root, found⟩ := I.root_node
    obtain ⟨st', path', run, I', stays, entries⟩ := clearRoot_calm I found (calm rfl)
    have reply : root.val = (st.entry []).map Prod.fst := by
      rw [I.entry_of_path I.forest.rootPath, content_eq found, Node.content, Option.map_map]
      cases root.val <;> rfl
    refine ⟨st', path', ?_, I', stays, entries⟩
    rw [← reply]
    simp only [del, List.isEmpty_nil, if_true, getNode_ok found, run, bind, Except.bind]
    rfl
  · obtain ⟨st', path', run, S, entries, -⟩ := del_ok I empty
    exact ⟨st', path', run, S.inv, S.stays, entries⟩

/-- Deleting a key removes its entry and no other, unless it is the empty one and the root absorbs a child. -/
theorem del_removes (sound : IsSound st) {key : Bytes} (calm : key = [] → ¬ st.Absorbs) :
    ∃ st', st.del key = .ok ((st.entry key).map Prod.fst, st') ∧ IsSound st' ∧ st'.now = st.now ∧
      st'.entry = Function.update st.entry key none := by
  obtain ⟨path, I⟩ := sound
  obtain ⟨st', path', run, I', stays, entries⟩ := del_calm I calm
  exact ⟨st', run, ⟨path', I'⟩, stays.now, entries⟩

/-- A run of `del` removes the listed keys and counts those that had an entry. -/
theorem run_del (keys : List Bytes) : ∀ {st : OxidArt P V}, IsSound st →
    Meets execDeletion (fun st d => d = .del [] → ¬ st.Absorbs) (keys.map .del) st →
    ∃ replies st', run execDeletion (keys.map .del) st = .ok (replies, st') ∧ st'.now = st.now ∧
      (st'.entry = fun k => if k ∈ keys then none else st.entry k) ∧
      ∀ E : Finset Bytes, (∀ k, k ∈ E ↔ (st.entry k).isSome = true) → totalHits replies = (E.filter (· ∈ keys)).card := by
  induction keys with
  | nil =>
    intro st _ _
    refine ⟨[], st, rfl, rfl, ?_, fun E _ => ?_⟩
    · simp
    · simp [totalHits]
  | cons key rest ih =>
    intro st sound meets
    obtain ⟨st₁, run₁, sound₁, now₁, entries₁⟩ := del_removes sound fun same : key = [] => meets.1 (congrArg Deletion.del same)
    have step : st.execDeletion (.del key) = .ok (.value ((st.entry key).map Prod.fst), st₁) := by
      rw [execDeletion, run₁]
      rfl
    obtain ⟨replies, st₂, run₂, now₂, entries₂, counts⟩ := ih sound₁ (meets.next step)
    refine ⟨_, st₂, run_cons step run₂, now₂.trans now₁, ?_, fun E mem => ?_⟩
    · rw [entries₂, entries₁]
      funext k
      by_cases same : k = key
      · subst same
        simp
      · simp [same]
    · have mem₁ : ∀ k, k ∈ E.erase key ↔ (st₁.entry k).isSome = true := by
        intro k
        rw [Finset.mem_erase, mem, entries₁]
        by_cases same : k = key <;> simp [same]
      have later := counts _ mem₁
      have listed : E.filter (· ∈ key :: rest) = (if key ∈ E then {key} else ∅) ∪ (E.erase key).filter (· ∈ rest) := by
        ext k
        by_cases same : k = key
        · subst same
          by_cases held : k ∈ E <;> simp [held]
        · by_cases held : key ∈ E <;> simp [same, held]
      have apart : Disjoint (if key ∈ E then {key} else ∅ : Finset Bytes) ((E.erase key).filter (· ∈ rest)) := by
        rw [Finset.disjoint_left]
        intro k first second
        split at first
        · rw [Finset.mem_singleton] at first
          subst first
          simp at second
        · cases first
      rw [totalHits, List.map_cons, List.sum_cons, listed, Finset.card_union_of_disjoint apart, ← later]
      congr 1
      simp only [DeletionReply.hits, Option.isSome_map, mem]
      split <;> simp

/-- What `deln_async` counts: the other keys with the prefix, and the empty key if it is live. -/
theorem card_seen_delnAsync {pfx : Bytes} {seen E : Finset Bytes}
    (memSeen : ∀ k, k ∈ seen ↔ pfx <+: k ∧ (st.seenBy (.delnAsync pfx) k).isSome = true)
    (mem : ∀ k, k ∈ E ↔ (st.entry k).isSome = true) :
    seen.card = (E.filter fun k => k ≠ [] ∧ pfx <+: k).card + if (st.live []).isSome = true ∧ pfx = [] then 1 else 0 := by
  have others : seen.erase [] = E.filter fun k => k ≠ [] ∧ pfx <+: k := by
    ext k
    rw [Finset.mem_erase, memSeen, Finset.mem_filter, mem]
    by_cases top : k = []
    · simp [top]
    · simp [seenBy, top, and_comm]
  have root : [] ∈ seen ↔ (st.live []).isSome = true ∧ pfx = [] := by
    rw [memSeen, List.prefix_nil, and_comm]
    rfl
  rw [← others]
  split
  next counted => rw [Finset.card_erase_add_one (root.2 counted)]
  next uncounted => rw [Finset.erase_eq_of_notMem fun member => uncounted (root.1 member), Nat.add_zero]

/-- A run of `deln_async` removes the other keys with a listed prefix and counts them; it counts the empty key
once for every empty prefix. -/
theorem run_delnAsync (prefixes : List Bytes) : ∀ {st : OxidArt P V}, Deletable st →
    ∃ replies st', run execDeletion (prefixes.map .delnAsync) st = .ok (replies, st') ∧ st'.now = st.now ∧
      (st'.entry = fun k => if k ≠ [] ∧ ∃ p ∈ prefixes, p <+: k then none else st.entry k) ∧
      ∀ E : Finset Bytes, (∀ k, k ∈ E ↔ (st.entry k).isSome = true) →
        totalHits replies = (E.filter fun k => k ≠ [] ∧ ∃ p ∈ prefixes, p <+: k).card +
          if (st.live []).isSome then prefixes.count [] else 0 := by
  induction prefixes with
  | nil =>
    intro st _
    refine ⟨[], st, rfl, rfl, ?_, fun E _ => ?_⟩
    · simp
    · simp [totalHits]
  | cons pfx rest ih =>
    intro st good
    obtain ⟨count, st₁, run₁, good₁, now₁, entries₁, seen, memSeen, counted⟩ :=
      execDeletion_delnAsync good (by decide : 0 < YIELD_BUDGET) pfx
    have step : st.execDeletion (.delnAsync pfx) = .ok (.count count, st₁) := by
      rw [execDeletion, run₁]
      rfl
    obtain ⟨replies, st₂, run₂, now₂, entries₂, counts⟩ := ih good₁
    refine ⟨_, st₂, run_cons step run₂, now₂.trans now₁, ?_, fun E mem => ?_⟩
    · rw [entries₂, entries₁]
      funext k
      by_cases other : k = []
      · simp [other]
      · by_cases inside : pfx <+: k <;> simp [other, inside]
    · have root : st₁.live [] = st.live [] := by
        rw [live, live, now₁, entries₁]
        simp
      have mem₁ : ∀ k, k ∈ E.filter (fun k => ¬ (k ≠ [] ∧ pfx <+: k)) ↔ (st₁.entry k).isSome = true := by
        intro k
        rw [Finset.mem_filter, mem, entries₁]
        dsimp only
        by_cases gone : k ≠ [] ∧ pfx <+: k
        · rw [if_pos gone]
          exact ⟨fun both => absurd gone both.2, fun held => absurd held (by simp)⟩
        · rw [if_neg gone]
          exact ⟨fun both => both.1, fun held => ⟨held, gone⟩⟩
      have later := counts _ mem₁
      rw [root] at later
      have split₁ : seen.card = (E.filter fun k => k ≠ [] ∧ pfx <+: k).card +
          if (st.live []).isSome = true ∧ pfx = [] then 1 else 0 :=
        card_seen_delnAsync memSeen mem
      have split₂ : (E.filter fun k => k ≠ [] ∧ ∃ p ∈ pfx :: rest, p <+: k).card = (E.filter fun k => k ≠ [] ∧ pfx <+: k).card +
          ((E.filter fun k => ¬ (k ≠ [] ∧ pfx <+: k)).filter fun k => k ≠ [] ∧ ∃ p ∈ rest, p <+: k).card := by
        rw [← Finset.card_filter_add_card_filter_not (s := E.filter fun k => k ≠ [] ∧ ∃ p ∈ pfx :: rest, p <+: k)
          (fun k => k ≠ [] ∧ pfx <+: k), Finset.filter_filter, Finset.filter_filter, Finset.filter_filter]
        congr 2
        · ext k
          simp only [Finset.mem_filter, List.mem_cons, exists_eq_or_imp]
          tauto
        · ext k
          simp only [Finset.mem_filter, List.mem_cons, exists_eq_or_imp]
          tauto
      rw [totalHits, List.map_cons, List.sum_cons, split₂]
      change count + totalHits replies = _
      rw [later, counted, split₁, List.count_cons]
      by_cases top : pfx = []
      · cases (st.live []).isSome with
        | false => simp [top]
        | true => simp [top]; omega
      · cases (st.live []).isSome with
        | false => simp [top]
        | true => simp [top]; omega

/-- In every run of deletions, each one counts what a reader sees exactly when none meets an expired entry. -/
theorem meets_countsLive_iff (ds : List Deletion) : ∀ {st : OxidArt P V}, Deletable st →
    (Meets execDeletion CountsLive ds st ↔ Meets execDeletion (fun st d => ¬ st.MeetsExpired d) ds st) := by
  induction ds with
  | nil => exact fun _ => Iff.rfl
  | cons d rest ih =>
    intro st good
    obtain ⟨reply, st', run, good', -⟩ := execDeletion_ok good d
    simp only [Meets, run, countsLive_iff good d, ih good']

end OxidArt

end Radixox.Oxidart
