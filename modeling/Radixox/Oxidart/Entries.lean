import Radixox.Oxidart.Surgery

/-!
# The key-value table of a state

`entry st k` is what the tree stores under the key `k`, expired or not. Each
surgery changes the table in one place, or not at all: this is where the tree
meets the map it implements.
-/

namespace Radixox.Oxidart
set_option autoImplicit false
open Radixox.PathForest

namespace OxidArt

variable {P : Policy} {V : Type} {st st' : OxidArt P V}

def entry (st : OxidArt P V) (key : Bytes) : Option (V × Option Nat) := (st.traverseToKey key).bind st.content

variable {cut cut' : List Nat} {path path' : Nat → Option Bytes}

theorem Inv.entry_iff (I : Inv st cut path) {k : Bytes} {c : V × Option Nat} :
    st.entry k = some c ↔ ∃ i, path i = some k ∧ st.content i = some c := by
  simp only [entry, Option.bind_eq_some_iff, traverseToKey_iff I.forest]

theorem Inv.entry_of_path (I : Inv st cut path) {i : Nat} {k : Bytes} (live : path i = some k) :
    st.entry k = st.content i := by
  rw [entry, (traverseToKey_iff I.forest).2 live, Option.bind_some]

/-- A key that no node has is absent. -/
theorem Inv.entry_eq_none (I : Inv st cut path) {k : Bytes} (absent : ∀ i, path i ≠ some k) : st.entry k = none := by
  cases found : st.entry k with
  | none => rfl
  | some c =>
    obtain ⟨i, live, -⟩ := I.entry_iff.1 found
    exact absurd live (absent i)

theorem content_eq_none_of_free {i : Nat} (free : st.tryGetNode i = none) : st.content i = none := by
  simp [content, free]

section Effect

variable (I : Inv st cut path) (I' : Inv st' cut' path')
include I I'

/-- The table changes at most at the key `k` when every other key keeps its content. -/
theorem entry_eq_update {k : Bytes} {e : Option (V × Option Nat)} (here : st'.entry k = e)
    (others : ∀ q c, q ≠ k → ((∃ i, path' i = some q ∧ st'.content i = some c) ↔
      ∃ i, path i = some q ∧ st.content i = some c)) : st'.entry = Function.update st.entry k e := by
  funext q
  by_cases same : q = k
  · rw [same, Function.update_self, here]
  · rw [Function.update_of_ne same]
    apply Option.ext
    intro c
    rw [I'.entry_iff, I.entry_iff]
    exact others q c same

theorem entry_eq_same (all : ∀ q c, (∃ i, path' i = some q ∧ st'.content i = some c) ↔
    ∃ i, path i = some q ∧ st.content i = some c) : st'.entry = st.entry := by
  funext q
  apply Option.ext
  intro c
  rw [I'.entry_iff, I.entry_iff]
  exact all q c

theorem entry_of_write {i : Nat} {k : Bytes} {e : Option (V × Option Nat)} (paths : path' = path)
    (contents : ∀ j, st'.content j = if j = i then e else st.content j) (live : path i = some k) :
    st'.entry = Function.update st.entry k e := by
  apply entry_eq_update I I'
  · rw [I'.entry_of_path (paths ▸ live), contents, if_pos rfl]
  · intro q c other
    have moved : ∀ j, path j = some q → st'.content j = st.content j := by
      intro j livej
      rw [contents, if_neg]
      rintro rfl
      exact other (Option.some.inj (livej.symm.trans live))
    constructor
    · rintro ⟨j, livej, held⟩
      rw [paths] at livej
      exact ⟨j, livej, moved j livej ▸ held⟩
    · rintro ⟨j, livej, held⟩
      exact ⟨j, paths ▸ livej, (moved j livej).trans held⟩

/-- Nothing visible changes when only detached nodes do. -/
theorem entry_of_detached (paths : path' = path) (contents : ∀ j k, path j = some k → st'.content j = st.content j) :
    st'.entry = st.entry := by
  apply entry_eq_same I I'
  intro q c
  rw [paths]
  constructor
  · rintro ⟨j, live, held⟩
    exact ⟨j, live, (contents j q live).symm.trans held⟩
  · rintro ⟨j, live, held⟩
    exact ⟨j, live, (contents j q live).trans held⟩

theorem entry_of_pushLeaf {idx : Nat} {k : Bytes} {e : Option (V × Option Nat)} (free : st.tryGetNode idx = none)
    (paths : path' = Function.update path idx (some k))
    (contents : ∀ j, st'.content j = if j = idx then e else st.content j) :
    st'.entry = Function.update st.entry k e := by
  have noPath : path idx = none := (I.forest.fresh (by simp [graph, free])).1
  have live : path' idx = some k := by rw [paths, Function.update_self]
  have before : ∀ j, j ≠ idx → path' j = path j := fun j other => by rw [paths, Function.update_of_ne other]
  apply entry_eq_update I I'
  · rw [I'.entry_of_path live, contents, if_pos rfl]
  · intro q c other
    constructor
    · rintro ⟨j, livej, held⟩
      have new : j ≠ idx := by
        rintro rfl
        exact other (Option.some.inj (livej.symm.trans live))
      rw [contents, if_neg new] at held
      exact ⟨j, (before j new) ▸ livej, held⟩
    · rintro ⟨j, livej, held⟩
      have new : j ≠ idx := by
        rintro rfl
        rw [noPath] at livej
        cases livej
      exact ⟨j, (before j new).trans livej, by rw [contents, if_neg new]; exact held⟩

theorem entry_of_split {x y : Nat} {k : Bytes} {e : Option (V × Option Nat)} (free : st.tryGetNode y = none)
    (occupied : ∃ n, st.tryGetNode x = some n)
    (paths : path' = Function.update (Function.update path x (some k)) y (path x))
    (contents : ∀ j, st'.content j = if j = y then st.content x else if j = x then e else st.content j) :
    st'.entry = Function.update st.entry k e := by
  have noPath : path y = none := (I.forest.fresh (by simp [graph, free])).1
  have ne : x ≠ y := by
    rintro rfl
    obtain ⟨n, found⟩ := occupied
    exact absurd (free.symm.trans found) (by simp)
  have live : path' x = some k := by rw [paths, Function.update_of_ne ne, Function.update_self]
  have moved : path' y = path x := by rw [paths, Function.update_self]
  have before : ∀ j, j ≠ x → j ≠ y → path' j = path j := fun j notx noty => by
    rw [paths, Function.update_of_ne noty, Function.update_of_ne notx]
  apply entry_eq_update I I'
  · rw [I'.entry_of_path live, contents, if_neg ne, if_pos rfl]
  · intro q c other
    constructor
    · rintro ⟨j, livej, held⟩
      by_cases old : j = y
      · rw [old, moved] at livej
        rw [contents, if_pos old] at held
        exact ⟨x, livej, held⟩
      · have new : j ≠ x := by
          rintro rfl
          exact other (Option.some.inj (livej.symm.trans live))
        rw [contents, if_neg old, if_neg new] at held
        exact ⟨j, (before j new old) ▸ livej, held⟩
    · rintro ⟨j, livej, held⟩
      by_cases here : j = x
      · rw [here] at livej held
        exact ⟨y, moved.trans livej, by rw [contents, if_pos rfl]; exact held⟩
      · have old : j ≠ y := by
          rintro rfl
          rw [noPath] at livej
          cases livej
        exact ⟨j, (before j here old).trans livej, by rw [contents, if_neg old, if_neg here]; exact held⟩

theorem entry_of_merge {x y : Nat} (ne : x ≠ y) (paths : path' = Function.update (Function.update path y none) x (path y))
    (empty : st.content x = none)
    (contents : ∀ j, st'.content j = if j = x then st.content y else if j = y then none else st.content j) :
    st'.entry = st.entry := by
  have atx : path' x = path y := by rw [paths, Function.update_self]
  have aty : path' y = none := by rw [paths, Function.update_of_ne ne.symm, Function.update_self]
  have before : ∀ j, j ≠ x → j ≠ y → path' j = path j := fun j notx noty => by
    rw [paths, Function.update_of_ne notx, Function.update_of_ne noty]
  apply entry_eq_same I I'
  intro q c
  constructor
  · rintro ⟨j, live, held⟩
    by_cases herex : j = x
    · rw [herex, atx] at live
      rw [contents, if_pos herex] at held
      exact ⟨y, live, held⟩
    · by_cases herey : j = y
      · rw [herey, aty] at live
        cases live
      · rw [contents, if_neg herex, if_neg herey] at held
        exact ⟨j, (before j herex herey) ▸ live, held⟩
  · rintro ⟨j, live, held⟩
    by_cases herex : j = x
    · rw [herex, empty] at held
      cases held
    · by_cases herey : j = y
      · rw [herey] at live held
        exact ⟨x, atx.trans live, by rw [contents, if_pos rfl]; exact held⟩
      · exact ⟨j, (before j herex herey).trans live, by rw [contents, if_neg herex, if_neg herey]; exact held⟩

/-- Dropping the node `y` erases its key, if it has one. -/
theorem entry_of_drop {y : Nat} (paths : path' = Function.update path y none)
    (contents : ∀ j, st'.content j = if j = y then none else st.content j) :
    st'.entry = fun q => if path y = some q then none else st.entry q := by
  have gone : path' y = none := by rw [paths, Function.update_self]
  have before : ∀ j, j ≠ y → path' j = path j := fun j other => by rw [paths, Function.update_of_ne other]
  funext q
  split
  next live =>
    apply I'.entry_eq_none
    intro j livej
    by_cases here : j = y
    · rw [here, gone] at livej
      cases livej
    · rw [before j here] at livej
      exact here (I.forest.path_inj livej live)
  next other =>
    apply Option.ext
    intro c
    rw [I'.entry_iff, I.entry_iff]
    constructor
    · rintro ⟨j, live, held⟩
      have apart : j ≠ y := by
        rintro rfl
        rw [gone] at live
        cases live
      rw [contents, if_neg apart] at held
      exact ⟨j, (before j apart) ▸ live, held⟩
    · rintro ⟨j, live, held⟩
      have apart : j ≠ y := by
        rintro rfl
        exact other live
      exact ⟨j, (before j apart).trans live, by rw [contents, if_neg apart]; exact held⟩

theorem entry_of_cut {q : Bytes} (paths : path' = Forest.without path q)
    (contents : ∀ j k, path' j = some k → st'.content j = st.content j) :
    st'.entry = fun k => if q <+: k then none else st.entry k := by
  funext k
  split
  next inside =>
    apply I'.entry_eq_none
    intro j live
    rw [paths, Forest.without_eq_some] at live
    exact live.2 inside
  next outside =>
    apply Option.ext
    intro c
    rw [I'.entry_iff, I.entry_iff]
    constructor
    · rintro ⟨j, live, held⟩
      rw [contents j k live] at held
      rw [paths, Forest.without_eq_some] at live
      exact ⟨j, live.1, held⟩
    · rintro ⟨j, live, held⟩
      have live' : path' j = some k := by
        rw [paths, Forest.without_eq_some]
        exact ⟨live, outside⟩
      exact ⟨j, live', (contents j k live').trans held⟩

theorem entry_of_rebase {y : Nat} {p : Bytes} (pathy : path y = some p)
    (below : ∀ i k, path i = some k → i ≠ st.rootIdx → p <+: k)
    (paths : path' = fun i => if i = st.rootIdx then some [] else if i = y then none else (path i).map (·.drop p.length))
    (contents : ∀ j, st'.content j = if j = st.rootIdx then st.content y else if j = y then none else st.content j)
    (nonempty : p ≠ []) : st'.entry = fun k => st.entry (p ++ k) := by
  funext k
  apply Option.ext
  intro c
  rw [I'.entry_iff, I.entry_iff]
  constructor
  · rintro ⟨j, live, held⟩
    rw [contents] at held
    simp only [paths] at live
    split at live
    next top =>
      rw [if_pos top] at held
      obtain rfl := Option.some.inj live
      exact ⟨y, by rw [List.append_nil]; exact pathy, held⟩
    next inner =>
      split at live
      next => cases live
      next other =>
        rw [if_neg inner, if_neg other] at held
        obtain ⟨k', live', rfl⟩ := Option.map_eq_some_iff.1 live
        obtain ⟨t, rfl⟩ := below j k' live' inner
        exact ⟨j, by simpa using live', held⟩
  · rintro ⟨j, live, held⟩
    have inner : j ≠ st.rootIdx := by
      rintro rfl
      rw [I.forest.rootPath] at live
      have := congrArg List.length (Option.some.inj live)
      have := List.length_pos_of_ne_nil nonempty
      simp only [List.length_nil, List.length_append] at *
      omega
    by_cases here : j = y
    · rw [here, pathy] at live
      obtain rfl : k = [] := by
        have := Option.some.inj live
        simpa using this
      exact ⟨st.rootIdx, by simp [paths], by rw [contents, if_pos rfl, ← here]; exact held⟩
    · refine ⟨j, ?_, by rw [contents, if_neg inner, if_neg here]; exact held⟩
      simp only [paths, if_neg inner, if_neg here, live, Option.map_some, List.drop_left]

end Effect

end OxidArt

end Radixox.Oxidart
