import Radixox.Oxidart.Removals

/-!
# Active expiry

`evict_expired` deletes a sampled node through its stored parent index and
radix, without a traversal. This is sound where the stored link is exact: then a turn
removes a dead entry and nothing else, in the tree or in a detached part of it.
-/

namespace Radixox.Oxidart
set_option autoImplicit false
open Radixox.PathForest

namespace OxidArt

variable {P : Policy} {V : Type} {st st' : OxidArt P V} {cut : List Nat} {path : Nat → Option Bytes}

/-- If the sampled node is to be unlinked (expired, childless, not the root), its stored parent link leads to it. -/
def ExactPick (st : OxidArt P V) (idx : Nat) (node : Node V) : Prop :=
  node.isExpired st.now = true → node.hasChildren = false → ∀ p, node.parentIdx = some p →
    st.find p node.expAndRadix.parentRadix = some idx

instance (st : OxidArt P V) (idx : Nat) (node : Node V) : Decidable (ExactPick st idx node) :=
  match h : node.parentIdx with
  | none => isTrue fun _ _ p parent => absurd (h.symm.trans parent) nofun
  | some p => decidable_of_iff
      (node.isExpired st.now = true → node.hasChildren = false → st.find p node.expAndRadix.parentRadix = some idx)
      ⟨fun link past leaf q parent => by rw [← Option.some.inj (h.symm.trans parent)]; exact link past leaf,
        fun exact past leaf => exact past leaf p h⟩

/-- Every node that the cycle samples is an exact pick when its turn comes. -/
def ExactCycle (draws : Nat → Nat) : Nat → OxidArt P V → Prop
  | 0, _ => True
  | turns + 1, st => match st.map.randomTagged (draws turns) with
    | none => True
    | some (idx, node) => ExactPick st idx node ∧ match st.evictSampled idx node with
      | .ok (_, st') => ExactCycle draws turns st'
      | .error _ => True

/-- So is every node of the rounds, as long as they go on. -/
def ExactRounds (draws : Nat → Nat → Nat) : Nat → OxidArt P V → Prop
  | 0, _ => True
  | rounds + 1, st => ExactCycle (draws rounds) SAMPLE_SIZE st ∧ match evictCycle (draws rounds) SAMPLE_SIZE st with
    | .ok (evicted, sampled, st') => ¬ (sampled < SAMPLE_SIZE ∨ evicted < THRESHOLD) → ExactRounds draws rounds st'
    | .error _ => True

/-- Every node that this call of `evict_expired` samples is an exact pick. -/
def ExactEviction (st : OxidArt P V) (draws : Nat → Nat → Nat) : Prop := ExactRounds draws MAX_SAMPLE st

instance decidableExactCycle (draws : Nat → Nat) : (turns : Nat) → (st : OxidArt P V) → Decidable (ExactCycle draws turns st)
  | 0, _ => inferInstanceAs (Decidable True)
  | turns + 1, st =>
    have : Decidable (match st.map.randomTagged (draws turns) with
        | none => True
        | some (idx, node) => ExactPick st idx node ∧ match st.evictSampled idx node with
          | .ok (_, st') => ExactCycle draws turns st'
          | .error _ => True) :=
      match st.map.randomTagged (draws turns) with
      | none => inferInstanceAs (Decidable True)
      | some (idx, node) =>
        have : Decidable (match st.evictSampled idx node with
            | .ok (_, st') => ExactCycle draws turns st'
            | .error _ => True) :=
          match st.evictSampled idx node with
          | .ok (_, st') => decidableExactCycle draws turns st'
          | .error _ => inferInstanceAs (Decidable True)
        inferInstanceAs (Decidable (ExactPick st idx node ∧ _))
    this

instance decidableExactRounds (draws : Nat → Nat → Nat) :
    (rounds : Nat) → (st : OxidArt P V) → Decidable (ExactRounds draws rounds st)
  | 0, _ => inferInstanceAs (Decidable True)
  | rounds + 1, st =>
    have : Decidable (match evictCycle (draws rounds) SAMPLE_SIZE st with
        | .ok (evicted, sampled, st') => ¬ (sampled < SAMPLE_SIZE ∨ evicted < THRESHOLD) → ExactRounds draws rounds st'
        | .error _ => True) :=
      match evictCycle (draws rounds) SAMPLE_SIZE st with
      | .ok (_, _, st') =>
        have := decidableExactRounds draws rounds st'
        inferInstanceAs (Decidable (¬ (_ ∨ _) → _))
      | .error _ => inferInstanceAs (Decidable True)
    inferInstanceAs (Decidable (ExactCycle (draws rounds) SAMPLE_SIZE st ∧ _))

instance (st : OxidArt P V) (draws : Nat → Nat → Nat) : Decidable (ExactEviction st draws) :=
  decidableExactRounds draws MAX_SAMPLE st

/-- What an eviction guarantees. -/
structure Evicts (st : OxidArt P V) (cut : List Nat) (path : Nat → Option Bytes) (st' : OxidArt P V)
    (path' : Nat → Option Bytes) : Prop where
  step : Step (Present st') st cut path st' path'
  sheds : Sheds st st'
  shrinks : Shrinks st st'

theorem Evicts.refl (I : Inv st cut path) : Evicts st cut path st path := ⟨.refl I _, .refl st, fun _ free => free⟩

theorem Sheds.trans {st₁ : OxidArt P V} (first : Sheds st st₁) (second : Sheds st₁ st') (now : st₁.now = st.now) :
    Sheds st st' := by
  have seen := first.live now
  intro k
  rcases second k with same | ⟨gone, dead⟩
  · rw [same]
    exact first k
  · exact .inr ⟨gone, seen ▸ dead⟩

/-- Present keys were present before. -/
theorem Sheds.present (sheds : Sheds st st') {k : Bytes} (present : Present st' k) : Present st k := by
  obtain ⟨c, held⟩ := present
  rcases sheds k with same | ⟨gone, -⟩
  · exact ⟨c, same ▸ held⟩
  · exact absurd (gone.symm.trans held) (by simp)

theorem Evicts.trans {st₁ : OxidArt P V} {path₁ path' : Nat → Option Bytes} (first : Evicts st cut path st₁ path₁)
    (second : Evicts st₁ cut path₁ st' path') : Evicts st cut path st' path' := by
  refine ⟨?_, first.sheds.trans second.sheds first.step.stays.now, first.shrinks.trans second.shrinks⟩
  exact (first.step.mono fun k present => second.sheds.present present).then second.step second.shrinks

/-- One turn of the cycle. -/
theorem evictSampled_ok (I : Inv st cut path) {idx : Nat} {node : Node V} (found : st.tryGetNode idx = some node)
    (exact : ExactPick st idx node) :
    ∃ hit st' path', st.evictSampled idx node = .ok (hit, st') ∧ Evicts st cut path st' path' := by
  unfold evictSampled
  cases past : node.isExpired st.now with
  | false => exact ⟨false, st, path, rfl, .refl I⟩
  | true =>
    cases parent : node.parentIdx with
    | none => exact ⟨false, st, path, rfl, .refl I⟩
    | some p =>
      have inner : idx ≠ st.rootIdx := by
        rintro rfl
        rw [I.rootTop found] at parent
        cases parent
      have dead : ∀ k, path idx = some k → st.live k = none := fun k at' => I.live_of_expired found past at'
      simp only [if_true, deleteNodeForEviction, found]
      cases kids : node.hasChildren with
      | true =>
        obtain ⟨st', path', run, S, entries, shrinks⟩ := clearNode_ok I found inner (sameTree_untag _ idx)
        simp only [if_true, run]
        exact ⟨true, st', path', rfl, S, sheds_of_erase dead entries, shrinks⟩
      | false =>
        obtain ⟨st', path', run, S, entries, shrinks⟩ := removeLeaf_ok I (exact past kids p parent) found kids
        simp only [Bool.false_eq_true, if_false, run]
        exact ⟨true, st', path', rfl, S, sheds_of_erase dead entries, shrinks⟩

theorem evictCycle_ok (draws : Nat → Nat) (turns : Nat) : ∀ (st : OxidArt P V) (path : Nat → Option Bytes),
    Inv st cut path → ExactCycle draws turns st →
      ∃ evicted sampled st' path', evictCycle draws turns st = .ok (evicted, sampled, st') ∧ Evicts st cut path st' path' := by
  induction turns with
  | zero => exact fun st path I _ => ⟨0, 0, st, path, rfl, .refl I⟩
  | succ turns ih =>
    intro st path I exact
    unfold evictCycle
    cases drawn : st.map.randomTagged (draws turns) with
    | none => exact ⟨0, 0, st, path, rfl, .refl I⟩
    | some pick =>
      obtain ⟨idx, node⟩ := pick
      simp only [ExactCycle, drawn] at exact
      obtain ⟨pick, later⟩ := exact
      obtain ⟨hit, st₁, path₁, run, E⟩ := evictSampled_ok I (TaggedHiSlab.randomTagged_spec drawn).1 pick
      simp only [run] at later
      obtain ⟨evicted, sampled, st', path', rest, E'⟩ := ih st₁ path₁ E.step.inv later
      simp only [run, rest, bind, Except.bind]
      exact ⟨_, _, st', path', rfl, E.trans E'⟩

theorem evictRounds_ok (draws : Nat → Nat → Nat) (rounds : Nat) : ∀ (st : OxidArt P V) (path : Nat → Option Bytes),
    Inv st cut path → ExactRounds draws rounds st →
      ∃ evicted st' path', evictRounds draws rounds st = .ok (evicted, st') ∧ Evicts st cut path st' path' := by
  induction rounds with
  | zero => exact fun st path I _ => ⟨0, st, path, rfl, .refl I⟩
  | succ rounds ih =>
    intro st path I exact
    obtain ⟨first, later⟩ := exact
    obtain ⟨evicted, sampled, st₁, path₁, run, E⟩ := evictCycle_ok (draws rounds) SAMPLE_SIZE st path I first
    simp only [run] at later
    simp only [evictRounds, run, bind, Except.bind]
    split
    · exact ⟨_, st₁, path₁, rfl, E⟩
    next goesOn =>
      obtain ⟨total, st', path', rest, E'⟩ := ih st₁ path₁ E.step.inv (later goesOn)
      simp only [rest]
      exact ⟨_, st', path', rfl, E.trans E'⟩

/-- An eviction whose picks are exact removes dead entries only. -/
theorem evictExpired_ok (I : Inv st cut path) {draws : Nat → Nat → Nat} (exact : ExactEviction st draws) :
    ∃ evicted st' path', st.evictExpired draws = .ok (evicted, st') ∧ Evicts st cut path st' path' :=
  evictRounds_ok draws MAX_SAMPLE st path I exact

end OxidArt

end Radixox.Oxidart
