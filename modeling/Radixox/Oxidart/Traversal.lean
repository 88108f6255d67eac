import Radixox.Oxidart.Linking

/-!
# What a traversal finds

`compare_compression_key` decides how a compression and the rest of a key
relate, and the traversal loop reads a way through the graph: `WalkSpec` says for
each place where the loop can end what it has read so far. From it follow the two
facts every operation uses: the loop ends at `found` exactly when some node is reached
by the key, and otherwise it names the place where the key leaves the tree.
-/

namespace Radixox.Oxidart
set_option autoImplicit false
open Radixox.PathForest

namespace Node

variable {V : Type}

/-- The common length of two byte strings: equal up to it, and different or at an end there. -/
theorem getCommonLen_spec (n : Node V) (k : Bytes) :
    n.getCommonLen k ≤ n.compression.length ∧ n.getCommonLen k ≤ k.length ∧
      n.compression.take (n.getCommonLen k) = k.take (n.getCommonLen k) ∧
      (n.getCommonLen k = n.compression.length ∨ n.getCommonLen k = k.length ∨
        n.compression[n.getCommonLen k]? ≠ k[n.getCommonLen k]?) := by
  unfold getCommonLen
  generalize n.compression = l
  cases found : (l.zip k).findIdx? (fun p => p.1 ≠ p.2) with
  | none =>
    rw [List.findIdx?_eq_none_iff] at found
    simp only [Option.getD_none]
    refine ⟨Nat.min_le_left _ _, Nat.min_le_right _ _, ?_, by omega⟩
    apply List.ext_getElem?
    intro i
    simp only [List.getElem?_take]
    split
    next inside =>
      have left : i < l.length := by omega
      have right : i < k.length := by omega
      have zipped : (l[i], k[i]) ∈ l.zip k := by
        rw [List.mem_iff_getElem]
        exact ⟨i, by simpa using inside, by simp⟩
      have same := found _ zipped
      simp only [ne_eq, decide_not, Bool.not_eq_false', decide_eq_true_eq] at same
      rw [List.getElem?_eq_getElem left, List.getElem?_eq_getElem right, same]
    next => rfl
  | some i =>
    obtain ⟨bound, differ, before⟩ := List.findIdx?_eq_some_iff_getElem.1 found
    simp only [List.length_zip] at bound
    simp only [Option.getD_some]
    refine ⟨by omega, by omega, ?_, .inr (.inr ?_)⟩
    · apply List.ext_getElem?
      intro j
      simp only [List.getElem?_take]
      split
      next inside =>
        have same := before j inside
        simp only [List.getElem_zip, ne_eq, decide_not, Bool.not_eq_true', decide_eq_false_iff_not,
          Classical.not_not] at same
        rw [List.getElem?_eq_getElem (by omega), List.getElem?_eq_getElem (by omega), same]
      next => rfl
    · simp only [List.getElem_zip, ne_eq, decide_not, Bool.not_eq_true', decide_eq_false_iff_not] at differ
      rw [List.getElem?_eq_getElem (by omega), List.getElem?_eq_getElem (by omega)]
      exact fun same => differ (Option.some.inj same)

/-- Where the compression `l` and the rest `k` of a key part, short of the end of `l`. -/
structure PartsAt (l k : Bytes) (common : Nat) : Prop where
  inside : common < l.length
  bound : common ≤ k.length
  agree : l.take common = k.take common
  leave : common = k.length ∨ l[common]? ≠ k[common]?

theorem PartsAt.not_prefix {l k : Bytes} {common : Nat} (parts : PartsAt l k common) : ¬ l <+: k := by
  rintro ⟨t, rfl⟩
  have inside := parts.inside
  rcases parts.leave with last | differ
  · rw [List.length_append] at last
    omega
  · exact differ (List.getElem?_append_left inside).symm

/-- The outcome of the comparison in terms of prefixes. -/
theorem compareCompressionKey_spec (n : Node V) (k : Bytes) : match n.compareCompressionKey k with
    | .final => n.compression = k
    | .path => ∃ rest, rest ≠ [] ∧ k = n.compression ++ rest
    | .partialAt common => PartsAt n.compression k common := by
  obtain ⟨left, right, agree, leave⟩ := n.getCommonLen_spec k
  unfold compareCompressionKey
  generalize n.getCommonLen k = common at *
  generalize n.compression = l at *
  simp only
  cases order : compare l.length k.length with
  | eq =>
    rw [Nat.compare_eq_eq] at order
    by_cases whole : common = k.length
    · simp only [if_pos whole]
      rwa [whole, List.take_length, ← order, List.take_length] at agree
    · simp only [if_neg whole]
      exact ⟨by omega, right, agree, leave.resolve_left (by omega)⟩
  | gt =>
    rw [Nat.compare_eq_gt] at order
    exact ⟨by omega, right, agree, leave.resolve_left (by omega)⟩
  | lt =>
    rw [Nat.compare_eq_lt] at order
    by_cases whole : common = l.length
    · simp only [if_pos whole]
      rw [whole, List.take_length] at agree
      refine ⟨k.drop l.length, ?_, ?_⟩
      · intro empty
        have := congrArg List.length empty
        simp only [List.length_drop, List.length_nil] at this
        omega
      · conv_lhs => rw [← List.take_append_drop l.length k, ← agree]
    · simp only [if_neg whole]
      exact ⟨by omega, right, agree, leave.resolve_left (by omega)⟩

end Node

namespace OxidArt

variable {P : Policy} {V : Type} {st : OxidArt P V}

theorem graph_label {i : Nat} {n : Node V} (found : st.tryGetNode i = some n) :
    st.graph.label i = some n.compression := by
  simp [graph, found]

theorem graph_label_iff {i : Nat} {l : Bytes} :
    st.graph.label i = some l ↔ ∃ n, st.tryGetNode i = some n ∧ n.compression = l := by
  simp [graph]

/-- What the loop has read when it ends at `w`: `key` from `x` on, after the bytes `pre`. -/
def WalkSpec (st : OxidArt P V) (x : Nat) (key pre : Bytes) : Walk → Prop
  | .found idx parent radix keyPath => ∃ way n, Reach st.graph x way parent ∧ st.find parent radix = some idx ∧
      st.tryGetNode idx = some n ∧ key = way ++ radix :: n.compression ∧ keyPath = pre ++ way ++ [radix]
  | .partialAt idx parent radix common keyRest keyPath => ∃ way n, Reach st.graph x way parent ∧
      st.find parent radix = some idx ∧ st.tryGetNode idx = some n ∧ key = way ++ radix :: keyRest ∧
      Node.PartsAt n.compression keyRest common ∧ keyPath = pre ++ way ++ [radix]
  | .noChild idx keyRest => ∃ way, Reach st.graph x way idx ∧ key = way ++ keyRest ∧
      ∃ radix rest, keyRest = radix :: rest ∧ st.find idx radix = none
  | .gone idx => ∃ way parent radix rest, Reach st.graph x way parent ∧ key = way ++ radix :: rest ∧
      st.find parent radix = some idx ∧ st.tryGetNode idx = none

theorem walkFrom_spec (st : OxidArt P V) (fuel x : Nat) (key pre : Bytes) (nonempty : key ≠ [])
    (enough : key.length ≤ fuel) : WalkSpec st x key pre (st.walkFrom fuel x key pre) := by
  induction fuel generalizing x key pre with
  | zero => exact absurd (List.length_eq_zero_iff.1 (Nat.le_zero.1 enough)) nonempty
  | succ fuel ih =>
    cases key with
    | nil => exact absurd rfl nonempty
    | cons radix keyRest =>
      simp only [List.length_cons] at enough
      cases edge : st.find x radix with
      | none =>
        simp only [walkFrom, edge]
        exact ⟨[], .here x, rfl, radix, keyRest, rfl, edge⟩
      | some child =>
        cases found : st.tryGetNode child with
        | none =>
          simp only [walkFrom, edge, found]
          exact ⟨[], x, radix, keyRest, .here x, rfl, edge, found⟩
        | some n =>
          have spec := n.compareCompressionKey_spec keyRest
          cases outcome : n.compareCompressionKey keyRest with
          | final =>
            rw [outcome] at spec
            subst spec
            simp only [walkFrom, edge, found, outcome]
            exact ⟨[], n, .here x, edge, found, rfl, by simp⟩
          | partialAt common =>
            rw [outcome] at spec
            simp only [walkFrom, edge, found, outcome]
            exact ⟨[], n, .here x, edge, found, rfl, spec, by simp⟩
          | path =>
            rw [outcome] at spec
            obtain ⟨rest, more, rfl⟩ := spec
            simp only [walkFrom, edge, found, outcome, List.drop_left]
            rw [List.length_append] at enough
            have deeper := ih child rest (pre ++ radix :: n.compression) more (by omega)
            have link := Reach.link (g := st.graph) edge (graph_label found)
            generalize st.walkFrom fuel child rest (pre ++ radix :: n.compression) = w at deeper
            cases w with
            | found =>
              obtain ⟨way, m, reach, edge', found', rfl, rfl⟩ := deeper
              exact ⟨_, m, link.trans reach, edge', found', by simp, by simp⟩
            | partialAt =>
              obtain ⟨way, m, reach, edge', found', rfl, parts, rfl⟩ := deeper
              exact ⟨_, m, link.trans reach, edge', found', by simp, parts, by simp⟩
            | noChild =>
              obtain ⟨way, reach, rfl, leave⟩ := deeper
              exact ⟨_, link.trans reach, by simp, leave⟩
            | gone =>
              obtain ⟨way, parent, radix', rest', reach, rfl, leave⟩ := deeper
              exact ⟨_, parent, radix', rest', link.trans reach, by simp, leave⟩

theorem walk_spec (st : OxidArt P V) {key : Bytes} (nonempty : key ≠ []) :
    WalkSpec st st.rootIdx key [] (st.walk key) :=
  walkFrom_spec st _ _ _ _ nonempty (Nat.le_refl _)

/-- A key that reaches a node is found there, whatever else the graph looks like. -/
theorem walkFrom_of_reach {x z : Nat} {key : Bytes} {fuel : Nat} (pre : Bytes) (nonempty : key ≠ []) (enough : key.length ≤ fuel)
    (reach : Reach st.graph x key z) : ∃ parent radix keyPath, st.walkFrom fuel x key pre = .found z parent radix keyPath := by
  have spec := walkFrom_spec st fuel x key pre nonempty enough
  cases outcome : st.walkFrom fuel x key pre with
  | found idx parent radix keyPath =>
    rw [outcome] at spec
    obtain ⟨way, n, before, edge, found, rfl, -⟩ := spec
    have here := before.trans (Reach.link (g := st.graph) edge (graph_label found))
    rw [reach.unique here]
    exact ⟨parent, radix, keyPath, rfl⟩
  | partialAt idx parent radix common keyRest keyPath =>
    rw [outcome] at spec
    obtain ⟨way, n, before, edge, found, rfl, parts, -⟩ := spec
    obtain ⟨y, l, rest, edge', read, rfl, -⟩ := (before.cancel reach).cons_inv
    obtain rfl := Option.some.inj (edge.symm.trans edge')
    obtain rfl := Option.some.inj ((graph_label found).symm.trans read)
    exact absurd (List.prefix_append _ rest) parts.not_prefix
  | noChild idx keyRest =>
    rw [outcome] at spec
    obtain ⟨way, before, rfl, radix, rest, rfl, absent⟩ := spec
    obtain ⟨y, l, rest, edge', -⟩ := (before.cancel reach).cons_inv
    exact absurd (absent.symm.trans edge') (by simp)
  | gone idx =>
    rw [outcome] at spec
    obtain ⟨way, parent, radix, rest, before, rfl, edge, free⟩ := spec
    obtain ⟨y, l, rest, edge', read, -⟩ := (before.cancel reach).cons_inv
    obtain rfl := Option.some.inj (edge.symm.trans edge')
    obtain ⟨n, found, -⟩ := graph_label_iff.1 read
    exact absurd (free.symm.trans found) (by simp)

/-- In a forest the loop never leads to a free slot. -/
theorem walk_ne_gone {cut : List Nat} {path : Nat → Option Bytes} (F : Forest st.graph st.rootIdx cut path) {key : Bytes}
    (nonempty : key ≠ []) (idx : Nat) : st.walk key ≠ .gone idx := by
  intro outcome
  have spec := st.walk_spec nonempty
  rw [outcome] at spec
  obtain ⟨way, parent, radix, rest, -, -, edge, free⟩ := spec
  obtain ⟨l, read⟩ := F.kidOcc edge
  obtain ⟨n, found, -⟩ := graph_label_iff.1 read
  exact absurd (free.symm.trans found) (by simp)

/-- `traverse_to_key` inverts the paths of the forest. -/
theorem traverseToKey_iff {cut : List Nat} {path : Nat → Option Bytes} (F : Forest st.graph st.rootIdx cut path)
    {key : Bytes} {i : Nat} : st.traverseToKey key = some i ↔ path i = some key := by
  unfold traverseToKey
  cases key with
  | nil =>
    simp only [List.isEmpty_nil, if_true, Option.some.injEq]
    exact ⟨fun same => same ▸ F.rootPath, fun live => (F.path_ne_nil live).symm⟩
  | cons b bs =>
    have spec := st.walk_spec (List.cons_ne_nil b bs)
    simp only [List.isEmpty_cons, Bool.false_eq_true, if_false, F.path_iff_reach]
    constructor
    · intro found
      split at found
      next idx parent radix keyPath outcome =>
        obtain rfl := Option.some.inj found
        rw [outcome] at spec
        obtain ⟨way, n, before, edge, occupied, whole, -⟩ := spec
        rw [whole]
        exact before.trans (Reach.link (g := st.graph) edge (graph_label occupied))
      next => cases found
    · intro reach
      obtain ⟨parent, radix, keyPath, outcome⟩ :=
        walkFrom_of_reach [] (List.cons_ne_nil b bs) (Nat.le_refl _) reach
      rw [walk, outcome]

end OxidArt

end Radixox.Oxidart
