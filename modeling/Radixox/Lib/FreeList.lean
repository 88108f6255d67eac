/-!
# Free lists threaded through slots

A store of slots keeps its free slots in a list: `next i` is the successor of the free
slot `i`, and `none` for a slot that is in use.
-/

namespace Radixox
set_option autoImplicit false

/-- The free slots from `head` on, in the order of the list. -/
inductive FreeChain (next : Nat → Option (Option Nat)) : Option Nat → List Nat → Prop
  | nil : FreeChain next none []
  | cons {i : Nat} {succ : Option Nat} {l : List Nat} : next i = some succ → FreeChain next succ l → i ∉ l →
      FreeChain next (some i) (i :: l)

namespace FreeChain

variable {next next' : Nat → Option (Option Nat)} {head : Option Nat} {l : List Nat}

/-- Only the slots on the list matter. -/
theorem congr (chain : FreeChain next head l) (same : ∀ i ∈ l, next' i = next i) : FreeChain next' head l := by
  induction chain with
  | nil => exact .nil
  | cons free _ fresh ih =>
    refine .cons ?_ (ih fun i member => same i (List.mem_cons_of_mem _ member)) fresh
    rw [same _ List.mem_cons_self]
    exact free

theorem isSome_of_mem (chain : FreeChain next head l) {i : Nat} (member : i ∈ l) : (next i).isSome = true := by
  induction chain with
  | nil => cases member
  | cons free _ _ ih =>
    rcases List.mem_cons.1 member with rfl | later
    · rw [free]
      rfl
    · exact ih later

/-- The head determines the list. -/
theorem unique (chain : FreeChain next head l) : ∀ {l' : List Nat}, FreeChain next head l' → l = l' := by
  induction chain with
  | nil =>
    intro l' other
    cases other
    rfl
  | cons free _ _ ih =>
    intro l' other
    cases other with
    | cons free' later' _ =>
      obtain rfl := Option.some.inj (free.symm.trans free')
      rw [ih later']

theorem nodup (chain : FreeChain next head l) : l.Nodup := by
  induction chain with
  | nil => exact .nil
  | cons _ _ fresh ih => exact List.nodup_cons.2 ⟨fresh, ih⟩

theorem notMem_of_used (chain : FreeChain next head l) {i : Nat} (used : next i = none) : i ∉ l := by
  intro member
  have := chain.isSome_of_mem member
  rw [used] at this
  cases this

/-- A slot that becomes free goes in front. -/
theorem push (chain : FreeChain next head l) {i : Nat} (used : next i = none) (free : next' i = some head)
    (others : ∀ j, j ≠ i → next' j = next j) : FreeChain next' (some i) (i :: l) := by
  have fresh := chain.notMem_of_used used
  refine .cons free (chain.congr ?_) fresh
  intro j member
  exact others j fun same => fresh (same ▸ member)

end FreeChain

end Radixox
