import Radixox.Oxidart.Deletions

/-!
# `deln_async` and `deln`

Two implementations of one deletion: `deln` frees the subtree at once, `deln_async` cuts it off first and frees it in
chunks. Both count the same keys and leave the same entries, but for the empty prefix: there `deln` clears the root, and
`deln_async` only asks whether the root shows a value.
-/

namespace Radixox.Oxidart
set_option autoImplicit false
open Radixox.Runs

namespace OxidArt

variable {P : Policy} {V : Type} {st st' : OxidArt P V}

/-! ## Reading a flushed store -/

theorem Husk.get_reply (H : Husk st) (key : Bytes) : replyOf (st.get key) = .ok ((st.live key).map Prod.fst) := by
  by_cases empty : key = []
  · subst empty
    obtain ⟨root, found, childs⟩ := H.root
    have value : (st.live []).map Prod.fst = root.getValue st.now := by
      rw [live, entry_nil found, liveAt, Node.content, Node.getValue, Node.isExpired_eq]
      cases root.val with
      | none => simp
      | some v => cases past : expired st.now root.expAndRadix.exp <;> simp [past, Option.filter]
    rw [value, Node.getValue]
    simp only [get, getIdx, List.isEmpty_nil, if_true, getNode_ok found, bind, Except.bind]
    cases past : root.isExpired st.now with
    | true =>
      have stops : (st.setNode st.rootIdx root.clearVal).tryRecompress st.rootIdx = _ :=
        (H.setNode root.clearVal found childs rfl).tryRecompress_root
      simp only [if_true, stops]
      rfl
    | false =>
      simp only [Bool.false_eq_true, if_false, pure, Except.pure, getNode_ok found, Node.getValue, past]
      rfl
  · have notEmpty : key.isEmpty = false := by simpa using empty
    have dead : st.live key = none := by rw [live, H.entry empty]; rfl
    rw [dead]
    rcases H.walk empty with ⟨idx, walk⟩ | ⟨idx, rest, walk⟩
    · simp only [get, getIdx, notEmpty, Bool.false_eq_true, if_false, walk]
      rfl
    · simp only [get, getIdx, notEmpty, Bool.false_eq_true, if_false, walk]
      rfl

theorem Deletable.get_reply (good : Deletable st) (key : Bytes) :
    replyOf (st.get key) = .ok ((st.live key).map Prod.fst) := by
  rcases good with ⟨path, I⟩ | H
  · exact OxidArt.get_reply I key
  · exact H.get_reply key

/-! ## Both deletions -/

/-- `deln_async` returns the count of `deln`, and afterwards `get` shows the same. -/
def Agree (st : OxidArt P V) (budget : Nat) (pfx : Bytes) : Prop :=
  ∃ count st₁ st₂, st.deln pfx = .ok (count, st₁) ∧ st.delnAsync budget pfx = .ok (count, st₂) ∧
    ∀ key, replyOf (st₂.get key) = replyOf (st₁.get key)

/-- The two deletions agree exactly when the prefix is not empty or nothing is stored under the empty key. -/
theorem Deletable.agree_iff (good : Deletable st) {budget : Nat} (positive : 0 < budget) (pfx : Bytes) :
    st.Agree budget pfx ↔ (pfx = [] → st.entry [] = none) := by
  obtain ⟨m, st₁, run₁, good₁, now₁, entries₁, keys₁, mem₁, rfl⟩ := execDeletion_deln good pfx
  obtain ⟨n, st₂, run₂, good₂, now₂, entries₂, keys₂, mem₂, rfl⟩ := execDeletion_delnAsync good positive pfx
  have agree : st.Agree budget pfx ↔ keys₂.card = keys₁.card ∧
      ∀ k, (st₂.live k).map Prod.fst = (st₁.live k).map Prod.fst := by
    constructor
    · rintro ⟨count, st₁', st₂', run₁', run₂', same⟩
      obtain ⟨rfl, rfl⟩ := Prod.mk.inj (Except.ok.inj (run₁.symm.trans run₁'))
      obtain ⟨counted, rfl⟩ := Prod.mk.inj (Except.ok.inj (run₂.symm.trans run₂'))
      refine ⟨counted, fun k => Except.ok.inj (ε := Panic) ?_⟩
      rw [← good₂.get_reply, ← good₁.get_reply]
      exact same k
    · rintro ⟨counted, same⟩
      refine ⟨keys₁.card, st₁, st₂, run₁, counted ▸ run₂, fun key => ?_⟩
      rw [good₂.get_reply, good₁.get_reply, same]
  have live₁ : ∀ k, st₁.live k = liveAt st.now (if pfx <+: k then none else st.entry k) := fun k => by
    rw [live, now₁, entries₁]
  have live₂ : ∀ k, st₂.live k = liveAt st.now (if k ≠ [] ∧ pfx <+: k then none else st.entry k) := fun k => by
    rw [live, now₂, entries₂]
  rw [agree]
  constructor
  · rintro ⟨counted, same⟩ rfl
    -- The root shows nothing afterwards, so it was expired if it stored anything; then only `deln` counted it.
    have dark : st.live [] = none := by
      have := same []
      rw [live₁, live₂, if_pos List.nil_prefix, if_neg fun both => both.1 rfl] at this
      exact Option.map_eq_none_iff.1 this
    have unseen : [] ∉ keys₂ := by
      rw [mem₂]
      rintro ⟨-, seen⟩
      rw [seenBy, if_pos rfl, dark] at seen
      cases seen
    have fewer : keys₂ ⊆ keys₁ := by
      intro k member
      obtain ⟨inside, seen⟩ := (mem₂ k).1 member
      have other : k ≠ [] := fun same => unseen (same ▸ member)
      rw [seenBy, if_neg other] at seen
      exact (mem₁ k).2 ⟨inside, seen⟩
    have absent : [] ∉ keys₁ := Finset.eq_of_subset_of_card_le fewer counted.ge ▸ unseen
    by_contra stored
    exact absent ((mem₁ []).2 ⟨List.nil_prefix, Option.isSome_iff_ne_none.2 stored⟩)
  · intro bare
    have top : pfx <+: [] → st.entry [] = none := fun inside => bare (List.prefix_nil.1 inside)
    constructor
    · congr 1
      ext k
      rw [mem₁, mem₂]
      refine and_congr_right fun inside => ?_
      by_cases other : k = []
      · subst other
        rw [seenBy, if_pos rfl, live, top inside]
        rfl
      · rw [seenBy, if_neg other]
    · intro k
      rw [live₁, live₂]
      by_cases other : k = []
      · subst other
        rw [if_neg fun both => both.1 rfl]
        split
        next inside => rw [top inside]
        next => rfl
      · simp only [ne_eq, other, not_false_eq_true, true_and]

section Typed

variable {S : Type} [Score S] {order : HashOrder} {st : OxidArt P (Value S)}

/-- In every state that is reached, and in one that a flush left, `deln_async` does what `deln` does, but for the empty
prefix while something is stored under the empty key. -/
theorem delnAsync_agrees_iff (reached : Reachable order st ∨ Husk st) {budget : Nat} (positive : 0 < budget) (pfx : Bytes) :
    st.Agree budget pfx ↔ (pfx = [] → st.entry [] = none) :=
  Deletable.agree_iff (reached.imp Reachable.isSound id) positive pfx

end Typed

/-- One of two keys, in chunks of a single node. -/
theorem delnAsync_agrees_iff_twoKeys : ∃ replies st,
    run (exec .stored) [.tree (.set [97, 98] (.int 1)), .tree (.set [97, 99] (.int 2))]
      (new : OxidArt .lowest (Value Int)) = .ok (replies, st) ∧ st.Agree 1 [97] := by
  have sound : Meets (exec .stored) (fun st c => c.Sound st) [.tree (.set [97, 98] (.int 1)), .tree (.set [97, 99] (.int 2))]
    (new : OxidArt .lowest (Value Int)) := by decide +kernel
  exact ⟨_, _, rfl, (delnAsync_agrees_iff (.inl (.run .refl sound rfl)) (by decide) [97]).2 (by simp)⟩

/-- Both count the value at the empty key, and only `deln` removes it. -/
theorem delnAsync_keeps_root_value : ∃ replies st,
    run (exec .stored) [.tree (.set [] (.int 1))] (new : OxidArt .lowest (Value Int)) = .ok (replies, st) ∧
    Reachable .stored st ∧
    (∃ st₁, st.deln [] = .ok (1, st₁) ∧ replyOf (st₁.get []) = .ok none) ∧
    ∃ st₂, st.delnAsync YIELD_BUDGET [] = .ok (1, st₂) ∧ replyOf (st₂.get []) = .ok (some (.int 1)) := by
  have sound : Meets (exec .stored) (fun st c => c.Sound st) [.tree (.set [] (.int 1))]
    (new : OxidArt .lowest (Value Int)) := by decide +kernel
  exact ⟨_, _, rfl, .run .refl sound rfl, ⟨_, rfl, rfl⟩, _, rfl, rfl⟩

end OxidArt

end Radixox.Oxidart
