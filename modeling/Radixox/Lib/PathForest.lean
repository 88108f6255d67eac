import Mathlib.Data.List.Basic
import Mathlib.Data.List.Nodup
import Mathlib.Logic.Function.Basic
import Mathlib.Tactic.Common

/-!
# Forests of labelled nodes addressed by paths

A heap of nodes in which every node stores a label (a byte string) and links to
other nodes by single bytes. The path of a node is what is read on the way to
it from the root: the byte of each link followed by the label of the node it
leads to. `Forest` says that the nodes form one tree below the root together with a
list of detached trees (`cut`), with a ghost map `path` that gives every node of
the main tree its path and no detached node one.

The operations are the local surgeries of a compressed radix tree: hanging a
new leaf, splitting a label, merging a node with its only child, dropping a
leaf, cutting a subtree off and freeing the root of a detached tree. Each keeps
`Forest` and moves the paths of at most two nodes, except cutting, which
takes the path from the whole subtree, and merging at the root, which shortens
every path: the label of the root is not part of any path.
-/

namespace Radixox.PathForest
set_option autoImplicit false

variable {ι β : Type}

/-- A heap of labelled nodes; a node is occupied when it has a label. -/
structure Graph (ι β : Type) where
  label : ι → Option (List β)
  kid : ι → β → Option ι

theorem Graph.eq_of_only (g : Graph ι β) {x j : ι} {r s : β} (only : ∀ s, s ≠ r → g.kid x s = none) (edge : g.kid x s = some j) :
    s = r := by
  by_contra differ
  rw [only s differ] at edge
  cases edge

/-- `Reach g x k z`: following links from `x` and reading `k` leads to `z`. -/
inductive Reach (g : Graph ι β) : ι → List β → ι → Prop where
  | here (x : ι) : Reach g x [] x
  | step {x y z : ι} {r : β} {l k : List β} :
      g.kid x r = some y → g.label y = some l → Reach g y k z → Reach g x (r :: (l ++ k)) z

namespace Reach

variable {g : Graph ι β} {x y z : ι}

theorem trans {a b : List β} (first : Reach g x a y) (second : Reach g y b z) : Reach g x (a ++ b) z := by
  induction first with
  | here => exact second
  | step link read _ ih =>
    rw [List.cons_append, List.append_assoc]
    exact .step link read (ih second)

theorem link {r : β} {l : List β} (edge : g.kid x r = some y) (read : g.label y = some l) : Reach g x (r :: l) y := by
  have := Reach.step edge read (.here y)
  rwa [List.append_nil] at this

theorem nil_inv (h : Reach g x [] z) : z = x := by cases h; rfl

theorem cons_inv {r : β} {k : List β} (h : Reach g x (r :: k) z) :
    ∃ y l k', g.kid x r = some y ∧ g.label y = some l ∧ k = l ++ k' ∧ Reach g y k' z := by
  cases h with
  | step edge read rest => exact ⟨_, _, _, edge, read, rfl, rest⟩

/-- What remains after the way to `y` is read from `y` on. -/
theorem cancel {a b : List β} (first : Reach g x a y) (whole : Reach g x (a ++ b) z) : Reach g y b z := by
  induction first with
  | here => exact whole
  | step edge read _ ih =>
    rw [List.cons_append, List.append_assoc] at whole
    obtain ⟨y', l', k', edge', read', same, rest⟩ := whole.cons_inv
    obtain rfl := Option.some.inj (edge.symm.trans edge')
    obtain rfl := Option.some.inj (read.symm.trans read')
    rw [List.append_cancel_left_eq] at same
    exact ih (same ▸ rest)

theorem unique {k : List β} (first : Reach g x k y) (second : Reach g x k z) : y = z :=
  (first.cancel (by rwa [List.append_nil])).nil_inv.symm

end Reach

/-- The nodes are one tree below `root` and the detached trees rooted at `cut`. -/
structure Forest (g : Graph ι β) (root : ι) (cut : List ι) (path : ι → Option (List β)) : Prop where
  rootLabel : ∃ l, g.label root = some l
  rootPath : path root = some []
  pathOcc : ∀ {i p}, path i = some p → ∃ l, g.label i = some l
  kidDom : ∀ {i r j}, g.kid i r = some j → ∃ l, g.label i = some l
  kidOcc : ∀ {i r j}, g.kid i r = some j → ∃ l, g.label j = some l
  kidPath : ∀ {i r j l}, g.kid i r = some j → g.label j = some l → path j = (path i).map (· ++ r :: l)
  kidInj : ∀ {i i' r r' j}, g.kid i r = some j → g.kid i' r' = some j → i = i' ∧ r = r'
  kidRoot : ∀ {i r}, g.kid i r ≠ some root
  parent : ∀ {j l}, g.label j = some l → j ≠ root → j ∈ cut ∨ ∃ i r, g.kid i r = some j
  cutOcc : ∀ {j}, j ∈ cut → ∃ l, g.label j = some l
  cutPath : ∀ {j}, j ∈ cut → path j = none
  cutFree : ∀ {j i r}, j ∈ cut → g.kid i r ≠ some j
  cutNodup : cut.Nodup
  acyclic : ∃ rank : ι → Nat, ∀ {i r j}, g.kid i r = some j → rank i < rank j

namespace Forest

variable {g : Graph ι β} {root : ι} {cut : List ι} {path : ι → Option (List β)}

theorem root_notMem_cut (F : Forest g root cut path) : root ∉ cut := by
  intro member
  have := F.cutPath member
  rw [F.rootPath] at this
  cases this

/-- A node of the main tree other than the root hangs below another one. -/
theorem parent_live (F : Forest g root cut path) {j : ι} {q : List β} (live : path j = some q) (other : j ≠ root) :
    ∃ i r p l, g.kid i r = some j ∧ path i = some p ∧ g.label j = some l ∧ q = p ++ r :: l := by
  obtain ⟨l, read⟩ := F.pathOcc live
  rcases F.parent read other with member | ⟨i, r, edge⟩
  · rw [F.cutPath member] at live
    cases live
  · have above := F.kidPath edge read
    rw [live, eq_comm, Option.map_eq_some_iff] at above
    obtain ⟨p, livei, rfl⟩ := above
    exact ⟨i, r, p, l, edge, livei, read, rfl⟩

theorem path_of_reach (F : Forest g root cut path) {x z : ι} {p k : List β} (live : path x = some p)
    (way : Reach g x k z) : path z = some (p ++ k) := by
  induction way generalizing p with
  | here => rwa [List.append_nil]
  | step edge read _ ih =>
    have next := F.kidPath edge read
    rw [live] at next
    rw [ih next, List.append_assoc, List.cons_append]

/-- The ghost path of a node is a way to it. -/
theorem reach_of_path (F : Forest g root cut path) {i : ι} {k : List β} (live : path i = some k) :
    Reach g root k i := by
  generalize hn : k.length = n
  induction n using Nat.strongRecOn generalizing i k with
  | ind n ih =>
    by_cases top : i = root
    · subst top
      rw [F.rootPath] at live
      obtain rfl := Option.some.inj live
      exact .here _
    · obtain ⟨j, r, p, l, edge, livej, read, rfl⟩ := F.parent_live live top
      have shorter : p.length < n := by
        rw [← hn, List.length_append, List.length_cons]
        omega
      exact (ih p.length shorter livej rfl).trans (Reach.link edge read)

theorem path_iff_reach (F : Forest g root cut path) {i : ι} {k : List β} :
    path i = some k ↔ Reach g root k i :=
  ⟨F.reach_of_path, fun way => F.path_of_reach F.rootPath way⟩

theorem path_inj (F : Forest g root cut path) {i j : ι} {k : List β} (first : path i = some k)
    (second : path j = some k) : i = j :=
  (F.reach_of_path first).unique (F.reach_of_path second)

/-- Below a node lies exactly what has its path as a prefix. -/
theorem reach_below (F : Forest g root cut path) {i j : ι} {p k : List β} (above : path i = some p)
    (below : path j = some (p ++ k)) : Reach g i k j :=
  (F.reach_of_path above).cancel (F.reach_of_path below)

theorem path_ne_nil (F : Forest g root cut path) {i : ι} (live : path i = some []) : i = root :=
  F.path_inj live F.rootPath

/-- A free index has no path, no links and no link to it. -/
theorem fresh (F : Forest g root cut path) {j : ι} (free : g.label j = none) :
    path j = none ∧ (∀ r, g.kid j r = none) ∧ (∀ i r, g.kid i r ≠ some j) ∧ j ≠ root ∧ j ∉ cut := by
  refine ⟨?_, ?_, ?_, ?_, ?_⟩
  · cases h : path j with
    | none => rfl
    | some p => obtain ⟨l, read⟩ := F.pathOcc h; simp [free] at read
  · intro r
    cases h : g.kid j r with
    | none => rfl
    | some z => obtain ⟨l, read⟩ := F.kidDom h; simp [free] at read
  · intro i r edge
    obtain ⟨l, read⟩ := F.kidOcc edge
    simp [free] at read
  · rintro rfl
    obtain ⟨l, read⟩ := F.rootLabel
    simp [free] at read
  · intro member
    obtain ⟨l, read⟩ := F.cutOcc member
    simp [free] at read

end Forest

/-! ## Surgeries -/

section Surgery

variable [DecidableEq ι] [DecidableEq β]

namespace Graph

/-- Hang the new node `j`, labelled `l`, below `i` under the byte `r`. -/
def addLeaf (g : Graph ι β) (i : ι) (r : β) (j : ι) (l : List β) : Graph ι β where
  label := Function.update g.label j (some l)
  kid x s := if x = i ∧ s = r then some j else g.kid x s

/-- Split the label of `x` into `a`, the byte `r` and `b`: the new node `y` takes `b` and the links of `x`. -/
def split (g : Graph ι β) (x : ι) (a : List β) (r : β) (y : ι) (b : List β) : Graph ι β where
  label := Function.update (Function.update g.label x (some a)) y (some b)
  kid z s := if z = x then (if s = r then some y else none) else if z = y then g.kid x s else g.kid z s

/-- Merge `x` with its only child `y`: `x` gets the label `l` and the links of `y`. -/
def merge (g : Graph ι β) (x y : ι) (l : List β) : Graph ι β where
  label := Function.update (Function.update g.label y none) x (some l)
  kid z s := if z = x then g.kid y s else if z = y then none else g.kid z s

/-- Drop the node `y` together with the link `r` of `x`. -/
def dropLeaf (g : Graph ι β) (x : ι) (r : β) (y : ι) : Graph ι β where
  label := Function.update g.label y none
  kid z s := if z = x ∧ s = r then none else g.kid z s

/-- Remove the link `r` of `x`. -/
def unlink (g : Graph ι β) (x : ι) (r : β) : Graph ι β where
  label := g.label
  kid z s := if z = x ∧ s = r then none else g.kid z s

/-- Remove all links of `x`. -/
def strip (g : Graph ι β) (x : ι) : Graph ι β where
  label := g.label
  kid z s := if z = x then none else g.kid z s

/-- Remove the node `y` with all its links. -/
def free (g : Graph ι β) (y : ι) : Graph ι β where
  label := Function.update g.label y none
  kid z s := if z = y then none else g.kid z s

end Graph

namespace Forest

variable {g : Graph ι β} {root : ι} {cut : List ι} {path : ι → Option (List β)}

theorem addLeaf (F : Forest g root cut path) {i j : ι} {r : β} {l l' : List β} (occ : g.label i = some l')
    (free : g.label j = none) (unused : g.kid i r = none) :
    Forest (g.addLeaf i r j l) root cut (Function.update path j ((path i).map (· ++ r :: l))) := by
  obtain ⟨noPath, noKid, noLink, notRoot, notCut⟩ := F.fresh free
  have ne : i ≠ j := by rintro rfl; simp [occ] at free
  refine ⟨?_, ?_, ?_, ?_, ?_, ?_, ?_, ?_, ?_, ?_, ?_, ?_, F.cutNodup, ?_⟩
  · simpa [Graph.addLeaf, Function.update_of_ne notRoot.symm] using F.rootLabel
  · simp [Function.update_of_ne notRoot.symm, F.rootPath]
  all_goals simp only [Graph.addLeaf, Function.update_apply]
  · intro x p live
    split at live
    next same => exact ⟨l, if_pos same⟩
    next other => rw [if_neg other]; exact F.pathOcc live
  · intro x s z edge
    split at edge
    next here => rw [here.1, if_neg ne]; exact ⟨l', occ⟩
    next =>
      split
      next => exact ⟨l, rfl⟩
      next => exact F.kidDom edge
  · intro x s z edge
    split at edge
    next => obtain rfl := Option.some.inj edge; exact ⟨l, if_pos rfl⟩
    next =>
      split
      next => exact ⟨l, rfl⟩
      next => exact F.kidOcc edge
  · intro x s z m edge read
    split at edge
    next here =>
      obtain rfl := Option.some.inj edge
      obtain ⟨rfl, rfl⟩ := here
      simp only [if_true, Option.some.injEq] at read ⊢
      rw [if_neg ne, read]
    next =>
      have zj : z ≠ j := fun h => noLink x s (h ▸ edge)
      have xj : x ≠ j := by rintro rfl; simp [noKid] at edge
      rw [if_neg zj] at read
      rw [if_neg zj, if_neg xj]
      exact F.kidPath edge read
  · intro x x' s s' z edge edge'
    split at edge
    next here =>
      obtain rfl := Option.some.inj edge
      split at edge'
      next here' => exact ⟨here.1.trans here'.1.symm, here.2.trans here'.2.symm⟩
      next => exact absurd edge' (noLink _ _)
    next =>
      split at edge'
      next => obtain rfl := Option.some.inj edge'; exact absurd edge (noLink _ _)
      next => exact F.kidInj edge edge'
  · intro x s edge
    split at edge
    next => exact notRoot (Option.some.inj edge)
    next => exact F.kidRoot edge
  · intro z m read other
    split at read
    next same => exact .inr ⟨i, r, by simp [same]⟩
    next =>
      rcases F.parent read other with member | ⟨x, s, edge⟩
      · exact .inl member
      · refine .inr ⟨x, s, ?_⟩
        rw [if_neg]
        · exact edge
        · rintro ⟨rfl, rfl⟩
          simp [unused] at edge
  · intro z member
    rw [if_neg (fun h : z = j => notCut (h ▸ member))]
    exact F.cutOcc member
  · intro z member
    rw [if_neg (fun h : z = j => notCut (h ▸ member))]
    exact F.cutPath member
  · intro z x s member edge
    split at edge
    next => exact notCut (Option.some.inj edge ▸ member)
    next => exact F.cutFree member edge
  · obtain ⟨rank, lower⟩ := F.acyclic
    refine ⟨Function.update rank j (rank i + 1), ?_⟩
    intro x s z edge
    simp only [Function.update_apply]
    split at edge
    next here => grind
    next =>
      have zj : z ≠ j := fun h => noLink x s (h ▸ edge)
      have xj : x ≠ j := by rintro rfl; simp [noKid] at edge
      rw [if_neg zj, if_neg xj]
      exact lower edge

omit [DecidableEq β] in
theorem take_tail (u : List β) (r : β) (b : List β) :
    (u ++ r :: b).take ((u ++ r :: b).length - (b.length + 1)) = u := by
  simp

theorem split (F : Forest g root cut path) {x y : ι} {r : β} {a b : List β} (occ : g.label x = some (a ++ r :: b))
    (free : g.label y = none) (inner : x ≠ root) :
    Forest (g.split x a r y b) root cut
      (Function.update (Function.update path x ((path x).map (fun p => p.take (p.length - (b.length + 1))))) y
        (path x)) := by
  obtain ⟨noPath, noKid, noLink, notRoot, notCut⟩ := F.fresh free
  have ne : x ≠ y := by rintro rfl; simp [occ] at free
  have ends : ∀ k, path x = some k → k.take (k.length - (b.length + 1)) ++ r :: b = k := by
    intro k live
    obtain ⟨i, s, p, l, -, -, read, rfl⟩ := F.parent_live live inner
    obtain rfl := Option.some.inj (occ.symm.trans read)
    have whole : p ++ s :: (a ++ r :: b) = (p ++ s :: a) ++ r :: b := by simp
    rw [whole, take_tail]
  obtain ⟨rank, lower⟩ := F.acyclic
  have noLoop : ∀ s, g.kid x s ≠ some x := fun s edge => Nat.lt_irrefl _ (lower edge)
  have kidPath := @F.kidPath
  obtain ⟨rootLabel, rootPath, pathOcc, kidDom, kidOcc, -, kidInj, kidRoot, parent, cutOcc, cutPath, cutFree,
    cutNodup, -⟩ := F
  refine ⟨?_, ?_, ?_, ?_, ?_, ?_, ?_, ?_, ?_, ?_, ?_, ?_, cutNodup,
    fun z => if z = y then 2 * rank x + 1 else 2 * rank z, ?_⟩
  case refine_6 =>
    intro i s j l edge read
    simp only [Graph.split, Function.update_apply] at edge read ⊢
    by_cases ix : i = x
    · subst ix
      simp only [if_true] at edge
      split at edge
      next same =>
        obtain rfl := Option.some.inj edge
        simp only [if_true, Option.some.injEq, if_neg ne] at read ⊢
        subst same read
        cases live : path i with
        | none => rfl
        | some k => simp only [Option.map_some, ends k live]
      next => cases edge
    · rw [if_neg ix] at edge
      by_cases iy : i = y
      · subst iy
        simp only [if_true] at edge
        have jy : j ≠ i := fun h => noLink _ _ (h ▸ edge)
        have jx : j ≠ x := fun h => noLoop s (h ▸ edge)
        simp only [if_neg jy, if_neg jx, if_true] at read ⊢
        exact kidPath edge read
      · rw [if_neg iy] at edge
        have jy : j ≠ y := fun h => noLink _ _ (h ▸ edge)
        simp only [if_neg jy, if_neg iy, if_neg ix] at read ⊢
        by_cases jx : j = x
        · subst jx
          simp only [if_true, Option.some.injEq] at read ⊢
          subst read
          rw [kidPath edge occ]
          cases path i with
          | none => rfl
          | some p =>
            have whole : p ++ s :: (a ++ r :: b) = (p ++ s :: a) ++ r :: b := by simp
            simp only [Option.map_some, whole, take_tail]
        · rw [if_neg jx] at read
          rw [if_neg jx]
          exact kidPath edge read
  case refine_9 =>
    intro j l read other
    simp only [Graph.split, Function.update_apply] at read ⊢
    by_cases jy : j = y
    · exact .inr ⟨x, r, by simp [jy]⟩
    · have occupied : ∃ l, g.label j = some l := by
        by_cases jx : j = x
        · exact ⟨_, jx ▸ occ⟩
        · exact ⟨l, by simpa [jx, jy] using read⟩
      obtain ⟨m, readj⟩ := occupied
      rcases parent readj other with member | ⟨i, s, edge⟩
      · exact .inl member
      · by_cases ix : i = x
        · subst ix
          exact .inr ⟨y, s, by simp [ne.symm, edge]⟩
        · have iy : i ≠ y := by rintro rfl; simp [noKid] at edge
          exact .inr ⟨i, s, by simp [ix, iy, edge]⟩
  all_goals simp only [Graph.split, Function.update_apply]
  all_goals clear kidPath ends
  all_goals grind

omit [DecidableEq β] in
theorem merge (F : Forest g root cut path) {x y : ι} {r : β} {a b : List β} (inner : x ≠ root)
    (occ : g.label x = some a) (edge : g.kid x r = some y) (only : ∀ s, s ≠ r → g.kid x s = none)
    (read : g.label y = some b) :
    Forest (g.merge x y (a ++ r :: b)) root cut (Function.update (Function.update path y none) x (path y)) := by
  obtain ⟨rank, lower⟩ := F.acyclic
  have ne : x ≠ y := by
    rintro rfl
    exact Nat.lt_irrefl _ (lower edge)
  have notCut : y ∉ cut := fun member => F.cutFree member edge
  have notRoot : y ≠ root := fun h => F.kidRoot (h ▸ edge)
  have above : path y = (path x).map (· ++ r :: b) := F.kidPath edge read
  have kidPath := @F.kidPath
  obtain ⟨rootLabel, rootPath, pathOcc, kidDom, kidOcc, -, kidInj, kidRoot, parent, cutOcc, cutPath, cutFree,
    cutNodup, -⟩ := F
  refine ⟨?_, ?_, ?_, ?_, ?_, ?_, ?_, ?_, ?_, ?_, ?_, ?_, cutNodup, rank, ?_⟩
  case refine_6 =>
    intro i s j l edge' read'
    simp only [Graph.merge, Function.update_apply] at edge' read' ⊢
    by_cases ix : i = x
    · subst ix
      simp only [if_true] at edge' ⊢
      have far := lower edge'
      have near := lower edge
      have ji : j ≠ i := by rintro rfl; omega
      have jy : j ≠ y := by rintro rfl; omega
      rw [if_neg ji, if_neg jy] at read'
      rw [if_neg ji, if_neg jy]
      exact kidPath edge' read'
    · by_cases iy : i = y
      · rw [if_neg ix, if_pos iy] at edge'
        cases edge'
      · rw [if_neg ix, if_neg iy] at edge'
        have jy : j ≠ y := by rintro rfl; exact ix (kidInj edge' edge).1
        simp only [if_neg jy, if_neg ix, if_neg iy] at read' ⊢
        by_cases jx : j = x
        · subst jx
          simp only [if_true, Option.some.injEq] at read' ⊢
          subst read'
          rw [above, kidPath edge' occ, Option.map_map]
          congr 1
          funext p
          simp
        · rw [if_neg jx] at read'
          rw [if_neg jx]
          exact kidPath edge' read'
  case refine_9 =>
    intro j l readj other
    simp only [Graph.merge, Function.update_apply] at readj ⊢
    have jy : j ≠ y := by rintro rfl; simp [ne.symm] at readj
    have occupied : ∃ l, g.label j = some l := by
      by_cases jx : j = x
      · exact ⟨_, jx ▸ occ⟩
      · exact ⟨l, by simpa [jx, jy] using readj⟩
    obtain ⟨m, labelj⟩ := occupied
    rcases parent labelj other with member | ⟨i, s, edge'⟩
    · exact .inl member
    · by_cases ix : i = x
      · -- The only link of `x` led to `y`.
        subst ix
        obtain rfl := g.eq_of_only only edge'
        exact absurd (Option.some.inj (edge'.symm.trans edge)) jy
      · by_cases iy : i = y
        · exact .inr ⟨x, s, by simp [← iy, edge']⟩
        · exact .inr ⟨i, s, by simp [ix, iy, edge']⟩
  all_goals simp only [Graph.merge, Function.update_apply]
  all_goals clear kidPath
  all_goals grind

omit [DecidableEq ι] [DecidableEq β] in
/-- Below a root with one child, every path starts with the way to that child. -/
theorem prefix_of_only (F : Forest g root cut path) {y i : ι} {r : β} {b k : List β} (edge : g.kid root r = some y)
    (only : ∀ s, s ≠ r → g.kid root s = none) (read : g.label y = some b) (live : path i = some k) (inner : i ≠ root) :
    ∃ k', k = r :: b ++ k' ∧ Reach g y k' i := by
  have way := F.reach_of_path live
  cases k with
  | nil => exact absurd way.nil_inv inner
  | cons s k =>
    obtain ⟨z, l, k', edge', read', rfl, rest⟩ := way.cons_inv
    obtain rfl := g.eq_of_only only edge'
    obtain rfl := Option.some.inj (edge.symm.trans edge')
    obtain rfl := Option.some.inj (read.symm.trans read')
    exact ⟨k', rfl, rest⟩

omit [DecidableEq β] in
/-- The root absorbs its only child: the way to the child disappears from every path. -/
theorem rebase (F : Forest g root cut path) {y : ι} {r : β} {b l : List β} (edge : g.kid root r = some y)
    (only : ∀ s, s ≠ r → g.kid root s = none) (read : g.label y = some b) :
    Forest (g.merge root y l) root cut
      (fun i => if i = root then some [] else if i = y then none else (path i).map (·.drop (r :: b).length)) := by
  obtain ⟨rank, lower⟩ := F.acyclic
  have ne : root ≠ y := by
    rintro rfl
    exact F.kidRoot edge
  have notCut : y ∉ cut := fun member => F.cutFree member edge
  have rootFree := F.root_notMem_cut
  have pathy : path y = some (r :: b) := by
    rw [F.kidPath edge read, F.rootPath]
    rfl
  have begins : ∀ {i k}, path i = some k → i ≠ root → ∃ k', k = r :: b ++ k' := by
    intro i k live inner
    obtain ⟨k', same, -⟩ := F.prefix_of_only edge only read live inner
    exact ⟨k', same⟩
  have kidPath := @F.kidPath
  obtain ⟨rootLabel, rootPath, pathOcc, kidDom, kidOcc, -, kidInj, kidRoot, parent, cutOcc, cutPath, cutFree,
    cutNodup, -⟩ := F
  refine ⟨?_, by simp, ?_, ?_, ?_, ?_, ?_, ?_, ?_, ?_, ?_, ?_, cutNodup, rank, ?_⟩
  case refine_2 =>
    intro i k live
    simp only [Graph.merge, Function.update_apply]
    split at live
    next top => exact ⟨l, if_pos top⟩
    next inner =>
      split at live
      next => cases live
      next other =>
        obtain ⟨k', live', -⟩ := Option.map_eq_some_iff.1 live
        rw [if_neg inner, if_neg other]
        exact pathOcc live'
  case refine_5 =>
    intro i s j m edge' readj
    simp only [Graph.merge, Function.update_apply] at edge' readj ⊢
    have jroot : j ≠ root := by
      intro same
      rw [same] at edge'
      split at edge'
      · exact kidRoot edge'
      · split at edge'
        · cases edge'
        · exact kidRoot edge'
    by_cases ir : i = root
    · rw [if_pos ir] at edge'
      have far := lower edge'
      have jy : j ≠ y := by rintro rfl; omega
      rw [if_neg jroot, if_neg jy] at readj
      rw [if_neg jroot, if_neg jy, if_pos ir, kidPath edge' readj, pathy]
      simp
    · by_cases iy : i = y
      · rw [if_neg ir, if_pos iy] at edge'
        cases edge'
      · rw [if_neg ir, if_neg iy] at edge'
        have jy : j ≠ y := by rintro rfl; exact ir (kidInj edge' edge).1
        rw [if_neg jroot, if_neg jy] at readj
        rw [if_neg jroot, if_neg jy, if_neg ir, if_neg iy, kidPath edge' readj]
        cases livei : path i with
        | none => rfl
        | some k =>
          obtain ⟨k', rfl⟩ := begins livei ir
          simp
  case refine_8 =>
    intro j m readj other
    simp only [Graph.merge, Function.update_apply] at readj ⊢
    have jy : j ≠ y := by rintro rfl; simp [ne.symm] at readj
    rw [if_neg other, if_neg jy] at readj
    rcases parent readj other with member | ⟨i, s, edge'⟩
    · exact .inl member
    · by_cases ir : i = root
      · -- The only link of the root led to `y`.
        subst ir
        obtain rfl := g.eq_of_only only edge'
        exact absurd (Option.some.inj (edge'.symm.trans edge)) jy
      · by_cases iy : i = y
        · exact .inr ⟨root, s, by simp [← iy, edge']⟩
        · exact .inr ⟨i, s, by simp [ir, iy, edge']⟩
  all_goals try simp only [Graph.merge, Function.update_apply]
  all_goals clear kidPath begins
  all_goals grind

theorem dropLeaf (F : Forest g root cut path) {x y : ι} {r : β} (edge : g.kid x r = some y)
    (leaf : ∀ s, g.kid y s = none) : Forest (g.dropLeaf x r y) root cut (Function.update path y none) := by
  have ne : x ≠ y := by rintro rfl; simp [leaf] at edge
  have notCut : y ∉ cut := fun member => F.cutFree member edge
  have notRoot : y ≠ root := fun h => F.kidRoot (h ▸ edge)
  obtain ⟨rootLabel, rootPath, pathOcc, kidDom, kidOcc, kidPath, kidInj, kidRoot, parent, cutOcc, cutPath, cutFree,
    cutNodup, rank, lower⟩ := F
  refine ⟨?_, ?_, ?_, ?_, ?_, ?_, ?_, ?_, ?_, ?_, ?_, ?_, cutNodup, rank, ?_⟩
  all_goals simp only [Graph.dropLeaf, Function.update_apply]
  all_goals grind

omit [DecidableEq β] in
/-- Freeing the root of a detached tree detaches the trees below it. -/
theorem free (F : Forest g root cut path) {rest kids : List ι} {y : ι} (top : cut = rest ++ [y])
    (nodup : kids.Nodup) (all : ∀ j, j ∈ kids ↔ ∃ r, g.kid y r = some j) :
    Forest (g.free y) root (rest ++ kids) path := by
  subst top
  have member : y ∈ rest ++ [y] := by simp
  have notRoot : y ≠ root := fun h => F.root_notMem_cut (h ▸ member)
  have noPath := F.cutPath member
  have outside : ∀ j ∈ kids, j ∉ rest ++ [y] := by
    intro j inside cutj
    obtain ⟨r, edge⟩ := (all j).1 inside
    exact F.cutFree cutj edge
  have distinct : (rest ++ kids).Nodup := by
    have := F.cutNodup
    grind
  obtain ⟨rootLabel, rootPath, pathOcc, kidDom, kidOcc, kidPath, kidInj, kidRoot, parent, cutOcc, cutPath, cutFree,
    cutNodup, rank, lower⟩ := F
  refine ⟨?_, rootPath, ?_, ?_, ?_, ?_, ?_, ?_, ?_, ?_, ?_, ?_, distinct, rank, ?_⟩
  all_goals try simp only [Graph.free, Function.update_apply]
  all_goals grind

/-- The paths left when everything at or below `q` is taken out. -/
def without (path : ι → Option (List β)) (q : List β) (i : ι) : Option (List β) :=
  (path i).filter fun k => ¬ q <+: k

omit [DecidableEq ι] in
theorem without_eq_some {q k : List β} {i : ι} : without path q i = some k ↔ path i = some k ∧ ¬ q <+: k := by
  simp [without, Option.filter_eq_some_iff]

/-- Cutting the link to `y` detaches the whole subtree of `y`. -/
theorem cutLink (F : Forest g root cut path) {x y : ι} {r : β} {p l : List β} (edge : g.kid x r = some y)
    (live : path x = some p) (read : g.label y = some l) :
    Forest (g.unlink x r) root (cut ++ [y]) (without path (p ++ r :: l)) := by
  have pathy : path y = some (p ++ r :: l) := by
    rw [F.kidPath edge read, live]
    rfl
  have notCut : y ∉ cut := fun member => F.cutFree member edge
  -- A node below `y` other than `y` hangs below a node at or below `y`.
  have closed : ∀ {i s j m k}, g.kid i s = some j → g.label j = some m → path i = some k → j ≠ y →
      p ++ r :: l <+: k ++ s :: m → p ++ r :: l <+: k := by
    intro i s j m k edge' readj livei other below
    by_contra above
    have pathj : path j = some (k ++ s :: m) := by rw [F.kidPath edge' readj, livei]; rfl
    rcases List.prefix_or_prefix_of_prefix below (List.prefix_append k (s :: m)) with inside | ⟨t, same⟩
    · exact above inside
    · rw [← same] at pathy below
      have beyond := (List.prefix_append_right_inj k).1 below
      have way := F.reach_below livei pathy
      cases t with
      | nil =>
        rw [List.append_nil] at same
        exact above (same ▸ List.prefix_refl k)
      | cons c t =>
        rw [List.cons_prefix_cons] at beyond
        obtain ⟨rfl, short⟩ := beyond
        obtain ⟨z, n, t', edgez, readz, rfl, -⟩ := way.cons_inv
        obtain rfl := Option.some.inj (edge'.symm.trans edgez)
        obtain rfl := Option.some.inj (readj.symm.trans readz)
        obtain rfl : t' = [] := by
          have := short.length_le
          simp only [List.length_append] at this
          exact List.length_eq_zero_iff.1 (by omega)
        rw [List.append_nil] at pathy
        exact other (F.path_inj pathj pathy)
  refine ⟨F.rootLabel, ?_, ?_, ?_, ?_, ?_, ?_, ?_, ?_, ?_, ?_, ?_, ?_, ?_⟩
  · rw [without_eq_some]
    exact ⟨F.rootPath, by simp⟩
  · intro i k livei
    exact F.pathOcc (without_eq_some.1 livei).1
  · intro i s j edge'
    simp only [Graph.unlink] at edge' ⊢
    split at edge'
    · cases edge'
    · exact F.kidDom edge'
  · intro i s j edge'
    simp only [Graph.unlink] at edge' ⊢
    split at edge'
    · cases edge'
    · exact F.kidOcc edge'
  · intro i s j m edge' readj
    simp only [Graph.unlink] at edge' readj
    split at edge'
    next => cases edge'
    next differ =>
      have other : j ≠ y := by
        rintro rfl
        exact differ (F.kidInj edge' edge)
      have pathj := F.kidPath edge' readj
      simp only [without, pathj]
      cases livei : path i with
      | none => rfl
      | some k =>
        by_cases inside : p ++ r :: l <+: k
        · have inside' := inside.trans (List.prefix_append k (s :: m))
          simp [Option.filter, inside, inside']
        · have outside : ¬ p ++ r :: l <+: k ++ s :: m := fun h => inside (closed edge' readj livei other h)
          simp [Option.filter, inside, outside]
  · intro i i' s s' j edge' edge''
    simp only [Graph.unlink] at edge' edge''
    split at edge'
    · cases edge'
    · split at edge''
      · cases edge''
      · exact F.kidInj edge' edge''
  · intro i s edge'
    simp only [Graph.unlink] at edge'
    split at edge'
    · cases edge'
    · exact F.kidRoot edge'
  · intro j m readj other
    simp only [Graph.unlink] at readj ⊢
    rcases F.parent readj other with member | ⟨i, s, edge'⟩
    · exact .inl (List.mem_append_left _ member)
    · by_cases same : i = x ∧ s = r
      · obtain ⟨rfl, rfl⟩ := same
        obtain rfl := Option.some.inj (edge'.symm.trans edge)
        exact .inl (by simp)
      · exact .inr ⟨i, s, by rw [if_neg same, edge']⟩
  · intro j member
    rcases List.mem_append.1 member with old | new
    · exact F.cutOcc old
    · exact ⟨l, by rw [List.mem_singleton.1 new]; exact read⟩
  · intro j member
    rcases List.mem_append.1 member with old | new
    · simp [without, F.cutPath old]
    · simp [without, List.mem_singleton.1 new, pathy, Option.filter]
  · intro j i s member edge'
    simp only [Graph.unlink] at edge'
    split at edge'
    next => cases edge'
    next differ =>
      rcases List.mem_append.1 member with old | new
      · exact F.cutFree old edge'
      · rw [List.mem_singleton.1 new] at edge'
        exact differ (F.kidInj edge' edge)
  · rw [List.nodup_append]
    refine ⟨F.cutNodup, List.nodup_singleton _, ?_⟩
    rintro j inside _ here rfl
    exact notCut (List.mem_singleton.1 here ▸ inside)
  · obtain ⟨rank, lower⟩ := F.acyclic
    refine ⟨rank, ?_⟩
    intro i s j edge'
    simp only [Graph.unlink] at edge'
    split at edge'
    · cases edge'
    · exact lower edge'

omit [DecidableEq β] in
/-- Cutting all links of the root detaches every tree below it. -/
theorem strip (F : Forest g root cut path) {kids : List ι} (nodup : kids.Nodup)
    (all : ∀ j, j ∈ kids ↔ ∃ r, g.kid root r = some j) :
    Forest (g.strip root) root (cut ++ kids) (fun i => if i = root then some [] else none) := by
  have outside : ∀ j ∈ kids, j ∉ cut ∧ j ≠ root := by
    intro j inside
    obtain ⟨r, edge⟩ := (all j).1 inside
    exact ⟨fun member => F.cutFree member edge, fun h => F.kidRoot (h ▸ edge)⟩
  have distinct : (cut ++ kids).Nodup := by
    have := F.cutNodup
    grind
  have rootFree := F.root_notMem_cut
  obtain ⟨rootLabel, rootPath, pathOcc, kidDom, kidOcc, kidPath, kidInj, kidRoot, parent, cutOcc, cutPath, cutFree,
    cutNodup, rank, lower⟩ := F
  refine ⟨rootLabel, by simp, ?_, ?_, ?_, ?_, ?_, ?_, ?_, ?_, ?_, ?_, distinct, rank, ?_⟩
  all_goals try simp only [Graph.strip]
  all_goals grind

end Forest

end Surgery

end Radixox.PathForest
