import Radixox.Oxidart.Async
import Radixox.Oxidart.Subtrees

/-!
# Freeing in chunks

`deln_async` without another task in between. A chunk is a turn of the freeing loop with a
budget, and each one pops something, so the chunks come to an end; what they have done then
is what `deln` does at once. The empty prefix is cut by another path: the value of the root
stays, and an overflow slot of the root keeps its links.
-/

namespace Radixox.Oxidart
set_option autoImplicit false
open Radixox.PathForest

namespace OxidArt

variable {P : Policy} {V : Type} {st st' : OxidArt P V} {cut base stack : List Nat} {path : Nat → Option Bytes}
variable {budget : Nat}

/-! ## Chunks -/

/-- A turn lowers the bound on the turns that are left. -/
theorem freeFuel_turn {y : Nat} {rest : List Nat} (shorter : st'.map.len + 1 = st.map.len) :
    st'.freeFuel (rest ++ st.collectChildIndices y) < st.freeFuel (rest ++ [y]) := by
  have links := length_collectChildIndices_le st y
  simp only [freeFuel, List.length_append, List.length_singleton]
  rw [← shorter, Nat.mul_add, Nat.mul_one]
  omega

theorem freeLoop_fuel (fuel : Nat) : ∀ (budget : Option Nat) (st : OxidArt P V) (stack : List Nat) (count : Nat),
    Inv st (base ++ stack) path →
    (freeLoop fuel budget st stack count).2.2.freeFuel (freeLoop fuel budget st stack count).2.1 ≤ st.freeFuel stack := by
  induction fuel with
  | zero => exact fun _ _ _ _ _ => Nat.le_refl _
  | succ fuel ih =>
    intro budget st stack count I
    rw [freeLoop]
    by_cases spent : budget = some 0
    · rw [if_pos spent]
    · rw [if_neg spent]
      rcases List.eq_nil_or_concat stack with rfl | ⟨rest, y, rfl⟩
      · exact Nat.le_refl _
      · rw [List.concat_eq_append] at I ⊢
        obtain ⟨hasVal, st', run, I', -, shorter, -⟩ := freeTurn I
        simp only [List.getLast?_concat, run, List.dropLast_concat]
        exact (ih _ st' _ _ I').trans (Nat.le_of_lt (freeFuel_turn shorter))

theorem freeChunk_ok (I : Inv st (base ++ stack) path) (positive : 0 < budget) (filled : stack ≠ []) :
    ∃ count stack' st', st.freeChunk stack budget = (count, stack', st') ∧ Inv st' (base ++ stack') path ∧ Frees st path st' ∧
      count + st'.valued.card = st.valued.card ∧ st'.freeFuel stack' < st.freeFuel stack := by
  obtain ⟨I', F, values⟩ := freeLoop_inv (st.freeFuel stack) (some budget) st stack 0 I
  refine ⟨_, _, _, rfl, I', F, values.trans (Nat.zero_add _), ?_⟩
  rcases List.eq_nil_or_concat stack with rfl | ⟨rest, y, rfl⟩
  · exact absurd rfl filled
  rw [List.concat_eq_append] at I ⊢
  obtain ⟨hasVal, st₁, run, I₁, -, shorter, -⟩ := freeTurn I
  obtain ⟨fuel, enough⟩ : ∃ fuel, st.freeFuel (rest ++ [y]) = fuel + 1 := by
    refine ⟨st.freeFuel (rest ++ [y]) - 1, ?_⟩
    simp only [freeFuel, List.length_append, List.length_singleton]
    omega
  have unspent : some budget ≠ some 0 := fun same => absurd (Option.some.inj same) (by omega)
  rw [enough, freeLoop, if_neg unspent]
  simp only [List.getLast?_concat, run, List.dropLast_concat]
  refine Nat.lt_of_le_of_lt (freeLoop_fuel fuel _ st₁ _ _ I₁) ?_
  rw [← enough]
  exact freeFuel_turn shorter

/-- The polls of a task that nothing interrupts: the stack is freed, then the parent is recompressed. -/
theorem finishDeln_ok (positive : 0 < budget) (fuel : Nat) : ∀ (st : OxidArt P V) (task : DelnTask),
    Inv st (base ++ task.stack) path → task.stack ≠ [] → st.freeFuel task.stack ≤ fuel →
    ∃ count st₂, Inv st₂ base path ∧ Frees st path st₂ ∧ count + st₂.valued.card = st.valued.card ∧
      finishDeln budget fuel st task = (st₂.recompressParent task.parentIdx).map fun st' => (task.total + count, st') := by
  induction fuel with
  | zero =>
    intro st task I filled enough
    simp only [freeFuel, Nat.le_zero, Nat.add_eq_zero_iff, List.length_eq_zero_iff] at enough
    exact absurd enough.1 filled
  | succ fuel ih =>
    intro st task I filled enough
    obtain ⟨count, stack', st₁, run, I₁, F, values, less⟩ := freeChunk_ok I positive filled
    by_cases empty : stack' = []
    · subst empty
      rw [List.append_nil] at I₁
      refine ⟨count, st₁, I₁, F, values, ?_⟩
      simp only [finishDeln, pollDeln, run, List.isEmpty_nil, if_true, recompressParent]
      split
      · cases st₁.tryRecompress task.parentIdx <;> rfl
      · rfl
    · have notEmpty : stack'.isEmpty = false := by simpa using empty
      obtain ⟨count', st₂, I₂, F', values', finish⟩ :=
        ih st₁ { task with stack := stack', total := task.total + count } I₁ empty (by simp only; omega)
      refine ⟨count + count', st₂, I₂, F.trans F', by omega, ?_⟩
      simp only [finishDeln, pollDeln, run, notEmpty, Bool.false_eq_true, if_false, bind, Except.bind, pure, Except.pure]
      rw [finish, Nat.add_assoc]

/-- The cut, then polls that nothing interrupts. -/
theorem delnAsync_cut {st₁ : OxidArt P V} {pfx : Bytes} {parentIdx initial : Nat} (positive : 0 < budget)
    (started : st.findAndCutPrefix pfx = .ok ((stack, parentIdx, initial), st₁)) (filled : stack ≠ [])
    (I : Inv st₁ (base ++ stack) path) :
    ∃ count st₂, Inv st₂ base path ∧ Frees st₁ path st₂ ∧ count + st₂.valued.card = st₁.valued.card ∧
      st.delnAsync budget pfx = (st₂.recompressParent parentIdx).map fun st' => (initial + count, st') := by
  obtain ⟨count, st₂, I₂, F, values, finish⟩ :=
    finishDeln_ok positive (st₁.freeFuel stack) st₁ ⟨stack, parentIdx, initial⟩ I filled (Nat.le_refl _)
  refine ⟨count, st₂, I₂, F, values, ?_⟩
  have notEmpty : stack.isEmpty = false := by simpa using filled
  simp only [← finish, delnAsync, started, notEmpty, Bool.false_eq_true, if_false, bind, Except.bind]

/-- The chunked deletion cuts where `deln` does. -/
theorem findAndCutPrefix_of_cutPoint (st : OxidArt P V) {pfx : Bytes} (nonempty : pfx ≠ []) :
    st.findAndCutPrefix pfx = (st.cutPoint pfx).elim (.ok (([], st.rootIdx, 0), st)) fun c =>
      .ok (([c.1], c.2.1, 0), st.removeChild c.2.1 c.2.2) := by
  have notEmpty : pfx.isEmpty = false := by simpa using nonempty
  simp only [findAndCutPrefix, notEmpty, Bool.false_eq_true, if_false, cutPoint]
  cases st.walk pfx with
  | partialAt => dsimp only; split <;> rfl
  | gone | found | noChild => rfl

/-- `deln_async` of a non-empty prefix does what `deln` does. -/
theorem delnAsync_ok (I : Inv st [] path) (positive : 0 < budget) {pfx : Bytes} (nonempty : pfx ≠ []) :
    ∃ count st' path', st.delnAsync budget pfx = .ok (count, st') ∧ DeletesPrefix st path pfx count st' path' := by
  have shape := st.findAndCutPrefix_of_cutPoint nonempty
  cases target : st.cutPoint pfx with
  | none =>
    rw [target, Option.elim_none] at shape
    refine ⟨0, st, path, ?_, deletesPrefix_nothing I fun _ _ => I.cutPoint_none nonempty target⟩
    simp only [delnAsync, shape, bind, Except.bind, List.isEmpty_nil, if_true]
    rfl
  | some link =>
    obtain ⟨y, p, r⟩ := link
    rw [target, Option.elim_some] at shape
    obtain ⟨q, child, at', edge, found, below⟩ := I.cutPoint_some nonempty target
    obtain ⟨I₁, -⟩ := I.cutLink edge at' found
    obtain ⟨count, st₂, I₂, F, values, run⟩ := delnAsync_cut positive shape (List.cons_ne_nil _ _) I₁
    obtain ⟨st', path', recompress, D⟩ := deletesPrefix_cut I edge at' found below I₂ F values
    refine ⟨count, st', path', ?_, D⟩
    rw [run, recompress, Nat.zero_add]
    rfl

/-! ## The loop does not see the root -/

theorem setNode_setNode (st : OxidArt P V) (i : Nat) (n m : Node V) : (st.setNode i n).setNode i m = st.setNode i m := by
  unfold setNode
  simp only [TaggedHiSlab.set_set]

theorem freeNode_setNode {i j : Nat} (other : i ≠ j) (st : OxidArt P V) (n : Node V) :
    (st.setNode j n).freeNode i = (st.freeNode i).map fun r => (r.1, r.2.1, r.2.2.setNode j n) := by
  have node : (st.setNode j n).tryGetNode i = st.tryGetNode i := by rw [tryGetNode_setNode, if_neg other]
  have children : (st.setNode j n).collectChildIndices i = st.collectChildIndices i := by
    unfold collectChildIndices iterAllChildren
    rw [node]
    rfl
  unfold freeNode
  rw [node, children]
  cases st.tryGetNode i with
  | none => rfl
  | some m =>
    simp only [Option.map_some, Option.some.injEq, Prod.mk.injEq, true_and]
    unfold removeNode setNode
    cases m.overflowIdx with
    | none => simp only [TaggedHiSlab.remove_set other]
    | some oi => simp only [TaggedHiSlab.remove_set other]

theorem freeFuel_setNode (st : OxidArt P V) (i : Nat) (n : Node V) (stack : List Nat) :
    (st.setNode i n).freeFuel stack = st.freeFuel stack := by
  unfold freeFuel setNode
  simp only [TaggedHiSlab.len_set]

/-- The root is not detached, so another root node changes nothing for the loop. -/
theorem freeLoop_setNode (n : Node V) (fuel : Nat) : ∀ (budget : Option Nat) (st : OxidArt P V) (stack : List Nat) (count : Nat),
    Inv st (base ++ stack) path →
    freeLoop fuel budget (st.setNode st.rootIdx n) stack count =
      ((freeLoop fuel budget st stack count).1, (freeLoop fuel budget st stack count).2.1,
        (freeLoop fuel budget st stack count).2.2.setNode st.rootIdx n) := by
  induction fuel with
  | zero => exact fun _ _ _ _ _ => rfl
  | succ fuel ih =>
    intro budget st stack count I
    rw [freeLoop, freeLoop]
    by_cases spent : budget = some 0
    · simp only [if_pos spent]
    · simp only [if_neg spent]
      rcases List.eq_nil_or_concat stack with rfl | ⟨rest, y, rfl⟩
      · rfl
      · rw [List.concat_eq_append] at I ⊢
        have other : y ≠ st.rootIdx := by
          rintro rfl
          have cut := I.forest.cutPath (List.mem_append_right base (List.mem_append_right rest (List.mem_singleton.2 rfl)))
          rw [I.forest.rootPath] at cut
          cases cut
        obtain ⟨hasVal, st', run, I', F, -, -⟩ := freeTurn I
        simp only [List.getLast?_concat, freeNode_setNode other, run, Option.map_some, List.dropLast_concat]
        rw [← F.stays.rootIdx]
        exact ih _ st' _ _ I'

/-- So it is for the polls of a task that recompresses nothing. -/
theorem finishDeln_setNode (positive : 0 < budget) (n : Node V) (fuel : Nat) : ∀ (st : OxidArt P V) (task : DelnTask),
    Inv st (base ++ task.stack) path → task.stack ≠ [] → task.parentIdx = st.rootIdx → st.freeFuel task.stack ≤ fuel →
    ∀ total st', finishDeln budget fuel st task = .ok (total, st') →
      finishDeln budget fuel (st.setNode st.rootIdx n) task = .ok (total, st'.setNode st.rootIdx n) := by
  induction fuel with
  | zero =>
    intro st task I filled top enough total st' ran
    cases ran
  | succ fuel ih =>
    intro st task I filled top enough total st' ran
    obtain ⟨count, stack', st₁, run, I₁, F, -, less⟩ := freeChunk_ok I positive filled
    have run' : (st.setNode st.rootIdx n).freeChunk task.stack budget = (count, stack', st₁.setNode st.rootIdx n) := by
      unfold freeChunk at run ⊢
      rw [freeFuel_setNode, freeLoop_setNode n _ _ st _ _ I, run]
    have root₁ : st₁.rootIdx = st.rootIdx := F.stays.rootIdx
    have root₂ : (st₁.setNode st.rootIdx n).rootIdx = st.rootIdx := root₁
    by_cases empty : stack' = []
    · subst empty
      simp only [finishDeln, pollDeln, run, List.isEmpty_nil, if_true, top, root₁, ne_eq, not_true_eq_false, if_false] at ran
      cases ran
      simp only [finishDeln, pollDeln, run', List.isEmpty_nil, if_true, top, root₂, ne_eq, not_true_eq_false, if_false]
      rfl
    · have notEmpty : stack'.isEmpty = false := by simpa using empty
      simp only [finishDeln, pollDeln, run, notEmpty, Bool.false_eq_true, if_false, bind, Except.bind, pure, Except.pure] at ran
      simp only [finishDeln, pollDeln, run', notEmpty, Bool.false_eq_true, if_false, bind, Except.bind, pure, Except.pure]
      rw [← root₁]
      exact ih st₁ { task with stack := stack', total := task.total + count } I₁ empty (top.trans root₁.symm)
        (by simp only; omega) total st' ran

/-! ## The empty prefix -/

/-- Only the root is left. An overflow slot of the root may still link indices that are free. -/
structure Husk (st : OxidArt P V) : Prop where
  root : ∃ n, st.tryGetNode st.rootIdx = some n ∧ n.childs = .default
  alone : ∀ i, i ≠ st.rootIdx → st.tryGetNode i = none
  unlooped : st.rootIdx ∉ st.collectChildIndices st.rootIdx

/-- The paths of a tree that is only a root. -/
def rootOnly (st : OxidArt P V) (i : Nat) : Option Bytes := if i = st.rootIdx then some [] else none

section Flush

variable {root : Node V} {n' : Node V}

theorem Inv.alone_of_rootOnly {A : OxidArt P V} (I : Inv A [] st.rootOnly) (i : Nat) (other : i ≠ st.rootIdx) :
    A.tryGetNode i = none := by
  cases found : A.tryGetNode i with
  | none => rfl
  | some n =>
    obtain ⟨k, live⟩ := I.path_of_label (graph_label found)
    rw [rootOnly, if_neg other] at live
    cases live

/-- What is left when everything below the root is freed, with the root node `n'` put in. -/
theorem husk_of_freed (n' : Node V) (I : Inv st [] path) (found : st.tryGetNode st.rootIdx = some root) (childs : n'.childs = .default)
    (overflow : n'.overflowIdx = root.overflowIdx) {A : OxidArt P V} (I' : Inv A [] st.rootOnly) (root' : A.rootIdx = st.rootIdx)
    (tiers : ∀ t, linksOf A.overflowArena A.hugeOvf t ⊆ linksOf st.overflowArena st.hugeOvf t) :
    Husk (A.setNode st.rootIdx n') ∧ (A.setNode st.rootIdx n').tryGetNode st.rootIdx = some n' := by
  have atRoot : (A.setNode st.rootIdx n').tryGetNode st.rootIdx = some n' := by
    obtain ⟨m, held⟩ := I'.root_node
    rw [root'] at held
    rw [tryGetNode_setNode, if_pos rfl, held]
    rfl
  have top : (A.setNode st.rootIdx n').rootIdx = st.rootIdx := root'
  refine ⟨⟨⟨n', by rw [top, atRoot], childs⟩, ?_, ?_⟩, atRoot⟩
  · intro i other
    rw [top] at other
    rw [tryGetNode_setNode, if_neg other, I'.alone_of_rootOnly i other]
  · -- A link left in the overflow slot was a link of the old root.
    intro looped
    rw [top] at looped
    obtain ⟨⟨r, _⟩, member, rfl⟩ := List.mem_map.1 looped
    have tier : (A.setNode st.rootIdx n').tier st.rootIdx = some (.default, root.overflowIdx) := by
      rw [OxidArt.tier, atRoot, Option.map_some, childs, overflow]
    rw [iterAllChildren_of_tier tier] at member
    have old : (r, st.rootIdx) ∈ st.iterAllChildren st.rootIdx := by
      have tier' : st.tier st.rootIdx = some (root.childs, root.overflowIdx) := by rw [OxidArt.tier, found]; rfl
      rw [iterAllChildren_of_tier tier']
      exact List.mem_append_right _ ((List.mem_append.1 (tiers _ member)).resolve_left List.not_mem_nil)
    exact I.forest.kidRoot (I.kids.find_iff.2 old)

theorem card_valued_rootOnly {A : OxidArt P V} (I : Inv A [] st.rootOnly) (held : A.tryGetNode st.rootIdx = some n') :
    A.valued.card = if n'.val.isSome then 1 else 0 := by
  have only : ∀ i, i ∈ A.valued → i = st.rootIdx := by
    intro i member
    by_contra other
    rw [mem_valued, content_eq_none_of_free (I.alone_of_rootOnly i other)] at member
    cases member
  have atRoot : st.rootIdx ∈ A.valued ↔ n'.val.isSome = true := by
    rw [mem_valued, content_eq held, Node.content, Option.isSome_map]
  split
  next has => exact Finset.card_eq_one.2 ⟨st.rootIdx, Finset.eq_singleton_iff_unique_mem.2 ⟨atRoot.2 has, only⟩⟩
  next lacks =>
    rw [Finset.card_eq_zero, Finset.eq_empty_iff_forall_notMem]
    intro i member
    exact lacks (atRoot.1 (only i member ▸ member))

/-- The root without its links, and everything below it detached. -/
theorem Inv.detachRoot (I : Inv st [] path) (n' : Node V) (found : st.tryGetNode st.rootIdx = some root) (compression : n'.compression = root.compression)
    (childs : n'.childs = .default) (parent : n'.parentIdx = root.parentIdx) :
    Inv (st.setNode st.rootIdx { n' with overflowIdx := none }) ([] ++ st.collectChildIndices st.rootIdx) st.rootOnly :=
  I.stripRoot found { n' with overflowIdx := none } compression childs rfl parent

theorem card_valued_setNode (found : st.tryGetNode st.rootIdx = some root) (n : Node V) :
    (st.setNode st.rootIdx n).valued.card + (if root.val.isSome then 1 else 0) =
      st.valued.card + (if n.val.isSome then 1 else 0) := by
  have others : (st.setNode st.rootIdx n).valued.erase st.rootIdx = st.valued.erase st.rootIdx := by
    ext i
    rw [Finset.mem_erase, Finset.mem_erase, mem_valued, mem_valued, content_setNode found]
    by_cases same : i = st.rootIdx <;> simp [same]
  have before : st.rootIdx ∈ st.valued ↔ root.val.isSome = true := by
    rw [mem_valued, content_eq found, Node.content, Option.isSome_map]
  have after : st.rootIdx ∈ (st.setNode st.rootIdx n).valued ↔ n.val.isSome = true := by
    rw [mem_valued, content_setNode found, if_pos rfl, Node.content, Option.isSome_map]
  have count : ∀ {s : Finset Nat} {b : Bool}, (st.rootIdx ∈ s ↔ b = true) →
      s.card = (s.erase st.rootIdx).card + if b then 1 else 0 := by
    intro s b member
    split
    next has => rw [Finset.card_erase_add_one (member.2 has)]
    next lacks => rw [Finset.erase_eq_of_notMem fun inside => lacks (member.1 inside), Nat.add_zero]
  rw [count before, count after, others]
  omega

/-- `deln` of the empty prefix counts every key. -/
theorem deln_nil_ok (I : Inv st [] path) (found : st.tryGetNode st.rootIdx = some root) :
    ∃ count st', st.deln [] = .ok (count, st') ∧ Husk st' ∧ Stays st st' ∧
      st'.tryGetNode st.rootIdx = some { root.clearVal with childs := .default } ∧
      ∃ keys : Finset Bytes, (∀ k, k ∈ keys ↔ (st.entry k).isSome = true) ∧ count = keys.card := by
  obtain ⟨n', eq⟩ : ∃ n' : Node V, n' = { root.clearVal with childs := .default } := ⟨_, rfl⟩
  have I₁ := I.detachRoot n' found (by rw [eq]; rfl) (by rw [eq]) (by rw [eq]; rfl)
  obtain ⟨freed, A, run, I₂, F, values⟩ := freeSubtreeIterative_ok I₁
  have real : (st.setNode st.rootIdx n').freeSubtreeIterative (st.collectChildIndices st.rootIdx) =
      (freed, A.setNode st.rootIdx n') := by
    have same : st.setNode st.rootIdx n' =
        (st.setNode st.rootIdx { n' with overflowIdx := none }).setNode st.rootIdx n' := (setNode_setNode st _ _ n').symm
    unfold freeSubtreeIterative at run ⊢
    rw [same, freeFuel_setNode]
    have loop := freeLoop_setNode n' ((st.setNode st.rootIdx { n' with overflowIdx := none }).freeFuel
      (st.collectChildIndices st.rootIdx)) none _ _ 0 I₁
    obtain ⟨rfl, rfl⟩ := Prod.mk.inj run
    have top : (st.setNode st.rootIdx { n' with overflowIdx := none }).rootIdx = st.rootIdx := rfl
    rw [top] at loop
    rw [loop]
  obtain ⟨husk, atRoot⟩ := husk_of_freed n' I found (by rw [eq]) (by rw [eq]; rfl) I₂ F.stays.rootIdx F.tiers
  refine ⟨freed + (if root.val.isSome then 1 else 0), A.setNode st.rootIdx n', ?_, husk, ⟨F.stays.now, F.stays.rootIdx⟩,
    by rw [atRoot, eq], ?_⟩
  · simp only [deln, List.isEmpty_nil, if_true, getNode_ok found, bind, Except.bind, ← eq, real]
    rfl
  · obtain ⟨keys, mem⟩ := I.exists_keys
    refine ⟨keys, mem, ?_⟩
    have atA : A.tryGetNode st.rootIdx = some { n' with overflowIdx := none } := by
      rw [F.nodes st.rootIdx [] (if_pos rfl), tryGetNode_setNode, if_pos rfl, found]
      rfl
    have left := card_valued_rootOnly I₂ atA
    have moved := card_valued_setNode found { n' with overflowIdx := none }
    have cleared : n'.val.isSome = false := by rw [eq]; rfl
    simp only [cleared, Bool.false_eq_true, if_false] at left moved
    rw [← I.card_valued mem]
    omega

/-- The polls that free everything below the root. -/
theorem finishDeln_detached (positive : 0 < budget) (initial : Nat) (I : Inv (st.setNode st.rootIdx { n' with overflowIdx := none })
    ([] ++ stack) st.rootOnly) (filled : stack ≠ []) :
    ∃ count A, Inv A [] st.rootOnly ∧ Frees (st.setNode st.rootIdx { n' with overflowIdx := none }) st.rootOnly A ∧
      count + A.valued.card = (st.setNode st.rootIdx { n' with overflowIdx := none }).valued.card ∧
      finishDeln budget ((st.setNode st.rootIdx n').freeFuel stack) (st.setNode st.rootIdx n') ⟨stack, st.rootIdx, initial⟩ =
        .ok (initial + count, A.setNode st.rootIdx n') := by
  obtain ⟨A₀, eq⟩ : ∃ A₀, A₀ = st.setNode st.rootIdx { n' with overflowIdx := none } := ⟨_, rfl⟩
  have same : A₀.setNode st.rootIdx n' = st.setNode st.rootIdx n' := by rw [eq, setNode_setNode]
  have top : A₀.rootIdx = st.rootIdx := by rw [eq]; rfl
  rw [← eq] at I ⊢
  rw [← same, freeFuel_setNode]
  obtain ⟨count, A, I₂, F, values, finish⟩ :=
    finishDeln_ok positive (A₀.freeFuel stack) A₀ ⟨stack, st.rootIdx, initial⟩ I filled (Nat.le_refl _)
  have stops : A.recompressParent st.rootIdx = .ok A := by
    unfold recompressParent
    rw [if_neg]
    · rfl
    · rw [F.stays.rootIdx, top]
      exact fun other => other rfl
  rw [stops] at finish
  refine ⟨count, A, I₂, F, values, ?_⟩
  have real := finishDeln_setNode positive n' (A₀.freeFuel stack) A₀ ⟨stack, st.rootIdx, initial⟩ I filled top.symm
    (Nat.le_refl _) _ _ finish
  rw [top] at real
  exact real

/-- `deln_async` of the empty prefix counts every other key, and the empty one if it is live; that one stays. -/
theorem delnAsync_nil_ok (I : Inv st [] path) (positive : 0 < budget) (found : st.tryGetNode st.rootIdx = some root) :
    ∃ count st', st.delnAsync budget [] = .ok ((if (root.getValue st.now).isSome then 1 else 0) + count, st') ∧ Husk st' ∧
      Stays st st' ∧ st'.tryGetNode st.rootIdx = some { root with childs := .default } ∧
      ∃ keys : Finset Bytes, (∀ k, k ∈ keys ↔ k ≠ [] ∧ (st.entry k).isSome = true) ∧ count = keys.card := by
  obtain ⟨n', eq⟩ : ∃ n' : Node V, n' = { root with childs := .default } := ⟨_, rfl⟩
  have I₁ := I.detachRoot n' found (by rw [eq]) (by rw [eq]) (by rw [eq])
  obtain ⟨count, A, I₂, F, values, run⟩ : ∃ count A, Inv A [] st.rootOnly ∧
      Frees (st.setNode st.rootIdx { n' with overflowIdx := none }) st.rootOnly A ∧
      count + A.valued.card = (st.setNode st.rootIdx { n' with overflowIdx := none }).valued.card ∧
      st.delnAsync budget [] = .ok ((if (root.getValue st.now).isSome then 1 else 0) + count, A.setNode st.rootIdx n') := by
    have started : st.findAndCutPrefix [] = .ok ((st.collectChildIndices st.rootIdx, st.rootIdx,
        if (root.getValue st.now).isSome then 1 else 0), st.setNode st.rootIdx n') := by
      simp only [findAndCutPrefix, List.isEmpty_nil, if_true, getNode_ok found, bind, Except.bind, ← eq]
      rfl
    cases children : st.collectChildIndices st.rootIdx with
    | nil =>
      rw [children] at I₁ started
      refine ⟨0, _, I₁, .refl _ _, Nat.zero_add _, ?_⟩
      simp only [delnAsync, started, bind, Except.bind, List.isEmpty_nil, if_true, setNode_setNode]
      rfl
    | cons child rest =>
      rw [children] at I₁ started
      obtain ⟨count, A, I₂, F, values, finish⟩ := finishDeln_detached positive _ I₁ (List.cons_ne_nil _ _)
      refine ⟨count, A, I₂, F, values, ?_⟩
      simp only [delnAsync, started, bind, Except.bind, List.isEmpty_cons, Bool.false_eq_true, if_false]
      exact finish
  obtain ⟨husk, atRoot⟩ := husk_of_freed n' I found (by rw [eq]) (by rw [eq]) I₂ F.stays.rootIdx F.tiers
  refine ⟨count, A.setNode st.rootIdx n', run, husk, ⟨F.stays.now, F.stays.rootIdx⟩, by rw [atRoot, eq], ?_⟩
  obtain ⟨keys, mem⟩ := I.exists_keys
  refine ⟨keys.erase [], fun k => by rw [Finset.mem_erase, mem], ?_⟩
  have atA : A.tryGetNode st.rootIdx = some { n' with overflowIdx := none } := by
    rw [F.nodes st.rootIdx [] (if_pos rfl), tryGetNode_setNode, if_pos rfl, found]
    rfl
  have left := card_valued_rootOnly I₂ atA
  have moved := card_valued_setNode found { n' with overflowIdx := none }
  have kept : root.val = n'.val := by rw [eq]
  have top : [] ∈ keys ↔ root.val.isSome = true := by
    rw [mem, I.entry_of_path I.forest.rootPath, content_eq found, Node.content, Option.isSome_map]
  rw [kept] at moved top
  have total := I.card_valued mem
  split at left
  next has =>
    have := Finset.card_erase_add_one (top.2 has)
    simp only [has, if_true] at moved
    omega
  next lacks =>
    rw [Finset.erase_eq_of_notMem fun member => lacks (top.1 member)]
    rw [if_neg lacks] at moved
    omega

end Flush

end OxidArt

end Radixox.Oxidart
