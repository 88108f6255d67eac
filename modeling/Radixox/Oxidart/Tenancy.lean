import Radixox.Oxidart.Capacity

/-!
# Who holds the overflow slots

A slot of the overflow arena passes from node to node at a split and at a recompression, and goes back to the arena with its last
link or with its node, over an arena that checks nothing. `Tenanted` is the invariant: every slot in use is the slot of a node,
every huge entry belongs to such a slot, and the free list holds all other slots. It assumes nothing of the keys or of the
tree, so it survives every operation, also on a tree with stale links.
-/

namespace Radixox.Oxidart
set_option autoImplicit false
open Radixox.Assoc Radixox.Outcomes Radixox.Runs

/-! ## The free list of the arena -/

namespace OverflowArena

variable {P : Policy} {a : OverflowArena} {l : List Nat} {i : Nat} {o : Overflow}

/-- The free list holds `l`, and these are all the free slots; `count` counts the others. -/
structure FreeExactly (a : OverflowArena) (l : List Nat) : Prop where
  chain : FreeChain a.nextOf a.freeHead l
  all : ∀ i, i < a.slots.length → a.get i = none → i ∈ l
  count : a.count + l.length = a.slots.length

theorem nextOf_isSome : (a.nextOf i).isSome = true ↔ i < a.slots.length ∧ a.get i = none := by
  unfold nextOf get
  cases here : a.slots[i]? with
  | none =>
    have outside := List.getElem?_eq_none_iff.1 here
    simp only [Option.isSome_none, Bool.false_eq_true, false_iff]
    omega
  | some slot =>
    have inside := (List.getElem?_eq_some_iff.1 here).1
    cases slot <;> simp [inside]

theorem FreeExactly.mem_iff (exact : a.FreeExactly l) : i ∈ l ↔ i < a.slots.length ∧ a.get i = none :=
  ⟨fun member => nextOf_isSome.1 (exact.chain.isSome_of_mem member), fun ⟨inside, free⟩ => exact.all i inside free⟩

theorem freeExactly_new : FreeExactly .new [] := ⟨.nil, fun _ inside _ => absurd inside (Nat.not_lt_zero _), rfl⟩

/-- A slot in use is in range and not on the list. -/
theorem FreeExactly.used (exact : a.FreeExactly l) (read : a.get i = some o) : i < a.slots.length ∧ i ∉ l := by
  refine ⟨(List.getElem?_eq_some_iff.1 (get_eq_some.1 read)).1, fun member => ?_⟩
  rw [(exact.mem_iff.1 member).2] at read
  cases read

theorem FreeExactly.set (exact : a.FreeExactly l) (read : a.get i = some o) (o' : Overflow) : (a.set i o').FreeExactly l := by
  have length : (a.set i o').slots.length = a.slots.length := List.length_set
  refine ⟨exact.chain.congr fun j member => ?_, fun j inside free => ?_, by rw [length]; exact exact.count⟩
  · have other : i ≠ j := fun same => (exact.used read).2 (same ▸ member)
    simp only [nextOf, OverflowArena.set, List.getElem?_set_ne other]
  · rw [get_set read] at free
    split at free
    · cases free
    · exact exact.all j (length ▸ inside) free

/-- A slot that is given back becomes the head of the list. -/
theorem FreeExactly.free (exact : a.FreeExactly l) (read : a.get i = some o) (s : HugeOvf P) : (a.free s i).1.FreeExactly (i :: l) := by
  obtain ⟨inside, fresh⟩ := exact.used read
  have length : (a.free s i).1.slots.length = a.slots.length := List.length_set
  refine ⟨exact.chain.push (nextOf_eq_none (get_eq_some.1 read)) ?_ fun j other => ?_, fun j inside' free => ?_, ?_⟩
  · simp [nextOf, OverflowArena.free, inside]
  · simp only [nextOf, OverflowArena.free, List.getElem?_set_ne other.symm]
  · rw [get_free read] at free
    split at free
    next same => exact same ▸ List.mem_cons_self
    next => exact List.mem_cons_of_mem i (exact.all j (length ▸ inside') free)
  · -- The list with the new slot still fits into the arena, so the slot was counted.
    have sub : (i :: l) ⊆ List.range a.slots.length := by
      intro j member
      rcases List.mem_cons.1 member with rfl | later
      · exact List.mem_range.2 inside
      · exact List.mem_range.2 (exact.mem_iff.1 later).1
    have bound := (List.subperm_of_subset (List.nodup_cons.2 ⟨fresh, exact.chain.nodup⟩) sub).length_le
    have count := exact.count
    show a.count - 1 + (i :: l).length = (a.free s i).1.slots.length
    rw [length]
    rw [List.length_range] at bound
    simp only [List.length_cons] at bound ⊢
    omega

/-- A slot comes from the head of the list, or from the end of the arena when the list is empty. -/
theorem FreeExactly.alloc (exact : a.FreeExactly l) : ∃ i a' l', a.alloc = .ok (i, a') ∧ a'.FreeExactly l' := by
  obtain ⟨i, a', run, -, read, others, -⟩ := alloc_ok ⟨l, exact.chain⟩
  refine ⟨i, a', l.tail, run, ?_⟩
  have chain := exact.chain
  unfold OverflowArena.alloc at run
  generalize a.freeHead = h at chain run
  cases chain with
  | nil =>
    obtain ⟨rfl, rfl⟩ := Prod.mk.inj (Except.ok.inj run)
    refine ⟨?_, fun j inside free => ?_, ?_⟩
    · show FreeChain _ none []
      exact .nil
    · by_cases new : j = a.slots.length
      · rw [new, read] at free
        cases free
      · rw [List.length_append, List.length_singleton] at inside
        rw [others j new] at free
        cases exact.all j (by omega) free
    · have count := exact.count
      simp only [List.length_nil, List.length_append, List.length_singleton, List.tail_nil] at count ⊢
      omega
  | @cons j next l free rest fresh =>
    have slot : a.slots[j]? = some (.nextFree next) := by
      unfold nextOf at free
      split at free
      next here => rw [here, Option.some.inj free]
      next => cases free
    simp only [slot] at run
    obtain ⟨rfl, rfl⟩ := Prod.mk.inj (Except.ok.inj run)
    have length : (a.slots.set j (.item .default)).length = a.slots.length := List.length_set
    refine ⟨rest.congr fun k member => ?_, fun k inside free => ?_, ?_⟩
    · have other : j ≠ k := fun same => fresh (same ▸ member)
      simp only [nextOf, List.getElem?_set_ne other]
    · by_cases here : k = j
      · rw [here, read] at free
        cases free
      · rw [others k here] at free
        exact (List.mem_cons.1 (exact.all k (length ▸ inside) free)).resolve_left here
    · have count := exact.count
      show a.count + 1 + l.length = (a.slots.set j (.item .default)).length
      rw [length]
      rw [List.length_cons] at count
      omega

end OverflowArena

/-! ## Huge entries of a slot -/

namespace Overflow

variable {P : Policy} {o o' : Overflow} {s s' : HugeOvf P} {r : UInt8}

/-- After a push every huge entry in use is the slot's own or another one that was in use before. -/
theorem push_entries {idx : Nat} (ran : o.push s r idx = .ok (o', s')) {h : Nat} (used : s'.get h ≠ none) :
    o'.bigOverflowIdx = some h ∨ s.get h ≠ none ∧ o.bigOverflowIdx ≠ some h := by
  unfold push at ran
  split at ran
  · obtain ⟨rfl, rfl⟩ := Prod.mk.inj (Except.ok.inj ran)
    exact (em (o.bigOverflowIdx = some h)).imp_right fun other => ⟨used, other⟩
  · cases big : o.bigOverflowIdx with
    | none =>
      simp only [big] at ran
      obtain ⟨rfl, rfl⟩ := Prod.mk.inj (Except.ok.inj ran)
      simp only [TaggedHiSlab.insert, TaggedHiSlab.get_insertSlot] at used
      split at used
      next here => exact .inl (congrArg some here.symm)
      next => exact .inr ⟨used, (Option.some_ne_none _).symm⟩
    | some k =>
      cases entry : s.get k with
      | none =>
        simp only [big, entry] at ran
        cases ran
      | some e =>
        simp only [big, entry] at ran
        obtain ⟨e', -, ran⟩ := exists_of_bind ran
        obtain ⟨rfl, rfl⟩ := Prod.mk.inj (Except.ok.inj ran)
        rw [TaggedHiSlab.get_set] at used
        split at used
        next here => exact .inl (here ▸ big)
        next other => exact .inr ⟨used, fun same => other (Option.some.inj same).symm⟩

/-- A slot whose two tiers are full refuses another link. -/
theorem push_full {idx : Nat} (sound : o.HugeOk s) (full : ¬ (o.iter s).length < LIGHT_OVERFLOW_SIZE + HUGE_OVERFLOW_CAPACITY) :
    o.push s r idx = .error .hugeFull := by
  have bound := o.bound
  have sizes : 0 < HUGE_OVERFLOW_CAPACITY := by decide
  cases big : o.bigOverflowIdx with
  | none =>
    rw [iter, big, Option.bind_none, Option.map_none, Option.getD_none, List.append_nil] at full
    omega
  | some h =>
    obtain ⟨e, entry, -⟩ := sound h big
    have bound' := e.bound
    rw [iter_eq big entry, List.length_append] at full
    have light : ¬ o.items.length < LIGHT_OVERFLOW_SIZE := by omega
    have heavy : ¬ e.entries.length < HUGE_OVERFLOW_CAPACITY := by omega
    unfold push
    simp only [light, dite_false, big, entry, HugeOverflow.push, heavy]
    rfl

theorem remove_entries {h : Nat} (used : (o.remove s r).2.2.get h ≠ none) :
    (o.remove s r).2.1.bigOverflowIdx = some h ∨ s.get h ≠ none ∧ o.bigOverflowIdx ≠ some h := by
  unfold remove at used ⊢
  split at used
  · exact (em (o.bigOverflowIdx = some h)).imp_right fun other => ⟨used, other⟩
  · cases big : o.bigOverflowIdx with
    | none =>
      simp only [big] at used ⊢
      exact .inr ⟨used, (Option.some_ne_none _).symm⟩
    | some k =>
      simp only [big] at used ⊢
      cases removed : (s.get k).bind (·.remove r) with
      | none =>
        simp only [removed] at used ⊢
        rw [big]
        exact (em (some k = some h)).imp_right fun other => ⟨used, other⟩
      | some q =>
        obtain ⟨v, e⟩ := q
        simp only [removed] at used ⊢
        split at used
        next empty =>
          rw [TaggedHiSlab.get_remove, TaggedHiSlab.get_set] at used
          split at used
          · exact absurd rfl used
          next other => exact .inr ⟨used, fun same => other (Option.some.inj same).symm⟩
        next full =>
          rw [if_neg full]
          rw [TaggedHiSlab.get_set] at used
          split at used
          next here => exact .inl (here ▸ big)
          next other => exact .inr ⟨used, fun same => other (Option.some.inj same).symm⟩

theorem dropHuge_entries {h : Nat} (used : (o.dropHuge s).get h ≠ none) : s.get h ≠ none ∧ o.bigOverflowIdx ≠ some h := by
  unfold dropHuge at used
  cases big : o.bigOverflowIdx with
  | none =>
    rw [big] at used
    exact ⟨used, (Option.some_ne_none _).symm⟩
  | some k =>
    rw [big] at used
    simp only [TaggedHiSlab.get_remove] at used
    split at used
    · exact absurd rfl used
    next other => exact ⟨used, fun same => other (Option.some.inj same).symm⟩

end Overflow

/-- The panics that a broken arena would cause. -/
def Panic.Arena : Panic → Prop
  | .overflowIdx | .bigOverflowIdx | .freeHead => True
  | .getNode | .ensureKey | .childsPush | .hugeFull | .expTooLarge | .index | .unwrapNone | .stackOverflow => False

namespace OxidArt

variable {P : Policy} {V : Type} {st st' : OxidArt P V}

/-- The call does not panic over the arena, and what it returns is `good`. -/
abbrev InOrder {α : Type} (good : α → Prop) (run : Exec α) : Prop := Yields (fun e => ¬ e.Arena) good run

structure Tenanted (st : OxidArt P V) : Prop where
  kids : KidsInvOf (fun _ => True) st
  slots : ∀ {s o}, st.overflowArena.get s = some o → ∃ i t, st.tier i = some t ∧ t.2 = some s
  entries : ∀ {h e}, st.hugeOvf.get h = some e → ∃ i t, st.tier i = some t ∧ bigOf st.overflowArena t = some h
  free : ∃ l, st.overflowArena.FreeExactly l

theorem bigOf_eq_some {arena : OverflowArena} {t : Tier} {h : Nat} :
    bigOf arena t = some h ↔ ∃ s o, t.2 = some s ∧ arena.get s = some o ∧ o.bigOverflowIdx = some h := by
  simp only [bigOf, Option.bind_eq_some_iff]
  constructor
  · rintro ⟨o, ⟨s, slot, read⟩, big⟩
    exact ⟨s, o, slot, read, big⟩
  · rintro ⟨s, o, slot, read, big⟩
    exact ⟨o, ⟨s, slot, read⟩, big⟩

/-- The stores stay, and every slot of a node is still the slot of some node. -/
theorem Tenanted.of_stores (T : Tenanted st) (S : SameStores st st') (K' : KidsInvOf (fun _ => True) st')
    (kept : ∀ {i t s}, st.tier i = some t → t.2 = some s → ∃ j t', st'.tier j = some t' ∧ t'.2 = some s) : Tenanted st' where
  kids := K'
  slots := by
    intro s o read
    rw [S.arena] at read
    obtain ⟨i, t, here, slot⟩ := T.slots read
    exact kept here slot
  entries := by
    intro h e entry
    rw [S.huge] at entry
    obtain ⟨i, t, here, owned⟩ := T.entries entry
    obtain ⟨s, o, slot, read, big⟩ := bigOf_eq_some.1 owned
    obtain ⟨j, t', here', slot'⟩ := kept here slot
    exact ⟨j, t', here', bigOf_eq_some.2 ⟨s, o, slot', S.arena ▸ read, big⟩⟩
  free := S.arena ▸ T.free

/-! ## One node trades its slot -/

/-- What a node leaves behind when it trades its tier `t` for `t'`: slots of others as they were, and none without an owner. -/
structure Settles (arena : OverflowArena) (huge : HugeOvf P) (t : Tier) (arena' : OverflowArena) (huge' : HugeOvf P) (t' : Tier) :
    Prop where
  kept : ∀ {s o}, arena.get s = some o → t.2 ≠ some s → arena'.get s = some o
  slots : ∀ {s}, arena'.get s ≠ none → t'.2 = some s ∨ arena.get s ≠ none ∧ t.2 ≠ some s
  entries : ∀ {h}, huge'.get h ≠ none → bigOf arena' t' = some h ∨ huge.get h ≠ none ∧ bigOf arena t ≠ some h
  free : ∃ l, arena'.FreeExactly l

/-- Only the inline links of the node change. -/
theorem Settles.inline {arena : OverflowArena} (huge : HugeOvf P) (free : ∃ l, arena.FreeExactly l) (slot : Option Nat) (c c' : Childs) :
    Settles arena huge (c, slot) arena huge (c', slot) where
  kept read _ := read
  slots {s} used := (em (slot = some s)).imp_right fun other => ⟨used, other⟩
  entries {h} used := (em (bigOf arena (c', slot) = some h)).imp_right fun other => ⟨used, other⟩
  free := free

/-- The node writes to its own slot. -/
theorem Settles.write {arena : OverflowArena} {huge huge' : HugeOvf P} {l : List Nat} (exact : arena.FreeExactly l) (c : Childs) {s : Nat}
    {o o' : Overflow} (read : arena.get s = some o)
    (entries : ∀ {h}, huge'.get h ≠ none → o'.bigOverflowIdx = some h ∨ huge.get h ≠ none ∧ o.bigOverflowIdx ≠ some h) :
    Settles arena huge (c, some s) (arena.set s o') huge' (c, some s) := by
  have getArena : ∀ j, (arena.set s o').get j = if j = s then some o' else arena.get j := OverflowArena.get_set read o'
  refine ⟨fun {j o''} here other => ?_, fun {j} used => ?_, fun {h} used => ?_, l, exact.set read o'⟩
  · have apart : j ≠ s := fun same => other (congrArg some same.symm)
    exact (getArena j).trans (by rw [if_neg apart, here])
  · refine (em (some s = some j)).imp_right fun other => ⟨?_, other⟩
    have apart : j ≠ s := fun same => other (congrArg some same.symm)
    exact fun none' => used ((getArena j).trans (by rw [if_neg apart, none']))
  · rcases entries used with own | ⟨used', other⟩
    · exact .inl (bigOf_eq_some.2 ⟨s, o', rfl, (getArena s).trans (if_pos rfl), own⟩)
    · refine .inr ⟨used', fun same => ?_⟩
      obtain ⟨s', o'', here, read', big⟩ := bigOf_eq_some.1 same
      obtain rfl := Option.some.inj here
      obtain rfl := Option.some.inj (read.symm.trans read')
      exact other big

/-- The node gives its slot back. -/
theorem Settles.release {arena : OverflowArena} (huge : HugeOvf P) {l : List Nat} (exact : arena.FreeExactly l) (c c' : Childs) {s : Nat}
    {o : Overflow} (read : arena.get s = some o) :
    Settles arena huge (c, some s) (arena.free huge s).1 (arena.free huge s).2 (c', none) := by
  have getArena : ∀ j, (arena.free huge s).1.get j = if j = s then none else arena.get j := OverflowArena.get_free read huge
  have drop : (arena.free huge s).2 = o.dropHuge huge := by simp only [OverflowArena.free, read]
  refine ⟨fun {j o'} here other => ?_, fun {j} used => .inr ?_, fun {h} used => .inr ?_, s :: l, exact.free read huge⟩
  · exact (getArena j).trans (by rw [if_neg fun same => other (congrArg some same.symm), here])
  · rw [getArena] at used
    split at used
    · exact absurd rfl used
    next other => exact ⟨used, fun same => other (Option.some.inj same).symm⟩
  · rw [drop] at used
    obtain ⟨used', other⟩ := Overflow.dropHuge_entries used
    refine ⟨used', fun same => other ?_⟩
    obtain ⟨s', o', here, read', big⟩ := bigOf_eq_some.1 same
    obtain rfl := Option.some.inj here
    obtain rfl := Option.some.inj (read.symm.trans read')
    exact big

/-- Two changes one after the other, with the slot unchanged in between. -/
theorem Settles.trans {arena arena₁ arena₂ : OverflowArena} {huge huge₁ huge₂ : HugeOvf P} {t t₁ t₂ : Tier}
    (first : Settles arena huge t arena₁ huge₁ t₁) (second : Settles arena₁ huge₁ t₁ arena₂ huge₂ t₂) (same : t₁.2 = t.2) :
    Settles arena huge t arena₂ huge₂ t₂ where
  kept read other := second.kept (first.kept read other) (by rw [same]; exact other)
  slots used := (second.slots used).imp_right fun ⟨used₁, other₁⟩ => (first.slots used₁).resolve_left other₁
  entries used := (second.entries used).imp_right fun ⟨used₁, other₁⟩ => (first.entries used₁).resolve_left other₁
  free := second.free

theorem Tenanted.settle (T : Tenanted st) (K' : KidsInvOf (fun _ => True) st') {p : Nat} {t t' : Tier} (old : st.tier p = some t)
    (new : ∀ {s}, t'.2 = some s → st'.tier p = some t') (others : ∀ i, i ≠ p → st'.tier i = st.tier i)
    (S : Settles st.overflowArena st.hugeOvf t st'.overflowArena st'.hugeOvf t') : Tenanted st' where
  kids := K'
  slots := by
    intro s o read
    rcases S.slots (Option.ne_none_iff_exists'.2 ⟨o, read⟩) with own | ⟨used, other⟩
    · exact ⟨p, t', new own, own⟩
    · obtain ⟨o', read'⟩ := Option.ne_none_iff_exists'.1 used
      obtain ⟨i, u, here, slot⟩ := T.slots read'
      have apart : i ≠ p := by
        rintro rfl
        exact other (Option.some.inj (old.symm.trans here) ▸ slot)
      exact ⟨i, u, (others i apart).trans here, slot⟩
  entries := by
    intro h e entry
    rcases S.entries (Option.ne_none_iff_exists'.2 ⟨e, entry⟩) with own | ⟨used, other⟩
    · obtain ⟨s, o, slot, -⟩ := bigOf_eq_some.1 own
      exact ⟨p, t', new slot, own⟩
    · obtain ⟨e', entry'⟩ := Option.ne_none_iff_exists'.1 used
      obtain ⟨i, u, here, owned⟩ := T.entries entry'
      have apart : i ≠ p := by
        rintro rfl
        exact other (Option.some.inj (old.symm.trans here) ▸ owned)
      obtain ⟨s, o, slot, read, big⟩ := bigOf_eq_some.1 owned
      have foreign : t.2 ≠ some s := fun same => apart (T.kids.owner here old slot same)
      exact ⟨i, u, (others i apart).trans here, bigOf_eq_some.2 ⟨s, o, slot, S.kept read foreign, big⟩⟩
  free := S.free

section Links

variable {p idx : Nat} {r : UInt8} {n : Node V}

theorem settles_pushChildIdx (T : Tenanted st) (found : st.tryGetNode p = some n) (ran : st.pushChildIdx p idx r = .ok st') :
    ∃ n', (∀ j, st'.tryGetNode j = if j = p then some n' else st.tryGetNode j) ∧
      Settles st.overflowArena st.hugeOvf (n.childs, n.overflowIdx) st'.overflowArena st'.hugeOvf (n'.childs, n'.overflowIdx) := by
  obtain ⟨l, exact⟩ := T.free
  unfold OxidArt.pushChildIdx at ran
  simp only [getNode_ok found, bind, Except.bind] at ran
  split at ran
  · cases pushed : n.childs.push r idx with
    | error e =>
      rw [pushed] at ran
      cases ran
    | ok c =>
      rw [pushed] at ran
      obtain rfl := Except.ok.inj ran
      exact ⟨_, tryGetNode_setNode_stores found _ _ _, .inline _ ⟨l, exact⟩ _ _ _⟩
  · cases slot : n.overflowIdx with
    | none =>
      obtain ⟨s, arena, l', allocated, exact'⟩ := exact.alloc
      obtain ⟨s', arena', allocated', free, read, others, -⟩ := OverflowArena.alloc_ok ⟨l, exact.chain⟩
      obtain ⟨rfl, rfl⟩ := Prod.mk.inj (Except.ok.inj (allocated.symm.trans allocated'))
      cases pushed : Overflow.push .default st.hugeOvf r idx with
      | error e =>
        simp only [slot, allocOverflowWithFirst, allocated, read, pushed, bind, Except.bind] at ran
        cases ran
      | ok q =>
        obtain ⟨o, huge⟩ := q
        have getNode' : ({ st with overflowArena := arena.set s o, hugeOvf := huge } : OxidArt P V).getNode p = .ok n :=
          getNode_ok found
        simp only [slot, allocOverflowWithFirst, allocated, read, pushed, bind, Except.bind, pure, Except.pure, getNode'] at ran
        obtain rfl := Except.ok.inj ran
        have getArena : ∀ j, (arena.set s o).get j = if j = s then some o else arena.get j := OverflowArena.get_set read o
        refine ⟨_, tryGetNode_setNode_stores found _ _ _, fun {j o'} here _ => ?_, fun {j} used => ?_, fun {h} used => ?_,
          l', exact'.set read o⟩
        · have apart : j ≠ s := by
            rintro rfl
            rw [free] at here
            cases here
          exact (getArena j).trans (by rw [if_neg apart, others j apart, here])
        · by_cases same : j = s
          · exact .inl (congrArg some same.symm)
          · refine .inr ⟨?_, (Option.some_ne_none _).symm⟩
            rw [← others j same]
            exact fun none' => used ((getArena j).trans (by rw [if_neg same, none']))
        · rcases Overflow.push_entries pushed used with own | ⟨used', -⟩
          · exact .inl (bigOf_eq_some.2 ⟨s, o, rfl, (getArena s).trans (if_pos rfl), own⟩)
          · exact .inr ⟨used', (Option.some_ne_none _).symm⟩
    | some s =>
      cases read : st.overflowArena.get s with
      | none =>
        simp only [slot, read] at ran
        cases ran
      | some o =>
        cases pushed : o.push st.hugeOvf r idx with
        | error e =>
          simp only [slot, read, pushed] at ran
          cases ran
        | ok q =>
          obtain ⟨o', huge⟩ := q
          simp only [slot, read, pushed, pure, Except.pure] at ran
          obtain rfl := Except.ok.inj ran
          refine ⟨n, fun j => ?_, ?_⟩
          · split
            next same => exact same ▸ found
            next => rfl
          · rw [slot]
            exact .write exact n.childs read (Overflow.push_entries pushed)

theorem settles_removeChild (T : Tenanted st) (found : st.tryGetNode p = some n) (r : UInt8) :
    ∃ n', (∀ j, (st.removeChild p r).tryGetNode j = if j = p then some n' else st.tryGetNode j) ∧
      Settles st.overflowArena st.hugeOvf (n.childs, n.overflowIdx) (st.removeChild p r).overflowArena (st.removeChild p r).hugeOvf
        (n'.childs, n'.overflowIdx) := by
  obtain ⟨l, exact⟩ := T.free
  have same : ∀ j, st.tryGetNode j = if j = p then some n else st.tryGetNode j := by
    intro j
    split
    next here => exact here ▸ found
    next => rfl
  unfold OxidArt.removeChild
  simp only [found]
  cases inline : n.childs.remove r with
  | some q => exact ⟨_, tryGetNode_setNode_stores found _ _ _, .inline _ ⟨l, exact⟩ _ _ _⟩
  | none =>
    cases slot : n.overflowIdx with
    | none =>
      refine ⟨n, same, ?_⟩
      rw [slot]
      exact .inline _ ⟨l, exact⟩ _ _ _
    | some s =>
      obtain ⟨o, read, -⟩ := T.kids.slotOk (tier_eq found) s slot
      simp only [read]
      have entries : ∀ {h}, (o.remove st.hugeOvf r).2.2.get h ≠ none → (o.remove st.hugeOvf r).2.1.bigOverflowIdx = some h ∨
          st.hugeOvf.get h ≠ none ∧ o.bigOverflowIdx ≠ some h := Overflow.remove_entries
      generalize o.remove st.hugeOvf r = removed at entries
      obtain ⟨v, o', huge⟩ := removed
      simp only at entries ⊢
      have settled : Settles st.overflowArena st.hugeOvf (n.childs, some s) (st.overflowArena.set s o') huge (n.childs, some s) :=
        .write exact n.childs read entries
      split
      next empty =>
        -- The last link of the slot is gone.
        obtain ⟨l', exact'⟩ := settled.free
        have read' : (st.overflowArena.set s o').get s = some o' := by rw [OverflowArena.get_set read, if_pos rfl]
        exact ⟨_, tryGetNode_setNode_stores found _ _ _, settled.trans (.release huge exact' n.childs n.childs read') rfl⟩
      next full =>
        refine ⟨n, same, ?_⟩
        rw [slot]
        exact settled

/-- A push panics at most where the inline tier refuses the byte 0 or the overflow slot is full. -/
theorem Tenanted.pushChildIdx (T : Tenanted st) (new : st.find p r = none) (idx : Nat) :
    InOrder (fun st' => Tenanted st' ∧ (∀ s, s ≠ r → st'.find p s = st.find p s)) (st.pushChildIdx p idx r) := by
  cases found : st.tryGetNode p with
  | none =>
    have run : st.pushChildIdx p idx r = .error .getNode := by
      unfold OxidArt.pushChildIdx getNode
      rw [found]
      rfl
    rw [run]
    exact .error id
  | some n =>
    by_cases allowed : r ≠ 0 ∨ n.childs.isFull = true
    · by_cases roomy : n.childs.isFull = true → Roomy st n
      · obtain ⟨st', run, K', R, perm⟩ := pushChildIdx_roomy T.kids roomy found new trivial allowed idx
        obtain ⟨n', nodes, settles⟩ := settles_pushChildIdx T found run
        rw [run]
        refine .ok ⟨T.settle K' (tier_eq found) (fun _ => ?_) (fun i other => ?_) settles, fun s other => ?_⟩
        · rw [tier, nodes, if_pos rfl]
          rfl
        · rw [tier, tier, nodes, if_neg other]
        · rw [R.find_of_push K' perm, if_neg fun both => other both.2]
      · obtain ⟨full, s, o, slot, read, overfull⟩ : n.childs.isFull = true ∧ ∃ s o, n.overflowIdx = some s ∧
            st.overflowArena.get s = some o ∧ ¬ (o.iter st.hugeOvf).length < LIGHT_OVERFLOW_SIZE + HUGE_OVERFLOW_CAPACITY := by
          simpa only [Roomy, Classical.not_imp, not_forall, exists_prop] using roomy
        obtain ⟨o', read', -, sound⟩ := T.kids.slotOk (tier_eq found) s slot
        obtain rfl := Option.some.inj (read.symm.trans read')
        have run : st.pushChildIdx p idx r = .error .hugeFull := by
          unfold OxidArt.pushChildIdx
          simp only [getNode_ok found, bind, Except.bind, full, Bool.true_eq_false, if_false, slot, read,
            Overflow.push_full sound overfull]
        rw [run]
        exact .error id
    · obtain ⟨rfl, free⟩ : r = 0 ∧ n.childs.isFull = false := by simpa using allowed
      have run : st.pushChildIdx p idx 0 = .error .childsPush := by
        unfold OxidArt.pushChildIdx Childs.push
        simp [getNode_ok found, bind, Except.bind, free]
      rw [run]
      exact .error id

theorem Tenanted.removeChild (T : Tenanted st) (p : Nat) (r : UInt8) : Tenanted (st.removeChild p r) := by
  cases edge : st.find p r with
  | none =>
    rw [removeChild_absent T.kids edge]
    exact T
  | some y =>
    obtain ⟨n, found⟩ : ∃ n, st.tryGetNode p = some n := by
      cases found : st.tryGetNode p with
      | none => rw [find_of_free found] at edge; cases edge
      | some n => exact ⟨n, rfl⟩
    obtain ⟨K', -⟩ := removeChild_ok T.kids found edge
    obtain ⟨n', nodes, settles⟩ := settles_removeChild T found r
    refine T.settle K' (tier_eq found) (fun _ => ?_) (fun i other => ?_) settles
    · rw [tier, nodes, if_pos rfl]
      rfl
    · rw [tier, tier, nodes, if_neg other]

/-- Freeing a node gives its slot back. -/
theorem Tenanted.freeNode (T : Tenanted st) {children : List Nat} {hasVal : Bool} (ran : st.freeNode p = some (children, hasVal, st')) :
    Tenanted st' := by
  cases found : st.tryGetNode p with
  | none =>
    unfold OxidArt.freeNode at ran
    rw [found] at ran
    cases ran
  | some n =>
    obtain ⟨st₁, run, K', nodes, -⟩ := freeNode_links T.kids found
    obtain ⟨-, -, rfl⟩ : _ ∧ _ ∧ st₁ = st' := by simpa using run.symm.trans ran
    have others : ∀ i, i ≠ p → st₁.tier i = st.tier i := fun i other => by rw [tier, tier, nodes, if_neg other]
    obtain ⟨l, exact⟩ := T.free
    have settles : Settles st.overflowArena st.hugeOvf (n.childs, n.overflowIdx) st₁.overflowArena st₁.hugeOvf (.default, none) := by
      unfold OxidArt.freeNode at run
      simp only [found, Option.some.injEq, Prod.mk.injEq, true_and] at run
      rw [← run]
      cases slot : n.overflowIdx with
      | none => exact .inline _ ⟨l, exact⟩ _ _ _
      | some s =>
        obtain ⟨o, read, -⟩ := T.kids.slotOk (tier_eq found) s slot
        exact .release _ exact _ _ read
    refine T.settle K' (tier_eq found) ?_ others settles
    exact fun same => absurd same.symm (Option.some_ne_none _)

end Links

/-! ## Nodes come, go and change hands -/

section Nodes

variable {i x y idx : Nat} {r : UInt8} {n n' leaf old node oldChild : Node V}

/-- Nodes may leave if they have no slot; those that stay keep their links. -/
theorem Tenanted.of_tiers (T : Tenanted st) (S : SameStores st st')
    (tiers : ∀ i t, st'.tier i = some t → st.tier i = some t)
    (kept : ∀ i t, st.tier i = some t → t.2 ≠ none → st'.tier i = some t) : Tenanted st' := by
  refine T.of_stores S (T.kids.same S tiers) fun {i t s} here slot => ⟨i, t, kept i t here ?_, slot⟩
  rw [slot]
  exact Option.some_ne_none s

theorem Tenanted.setNode (T : Tenanted st) (found : st.tryGetNode i = some n) (childs : n'.childs = n.childs)
    (overflow : n'.overflowIdx = n.overflowIdx) : Tenanted (st.setNode i n') := by
  have tiers : (st.setNode i n').tier = st.tier := by
    funext j
    rw [tier_setNode found, childs, overflow]
    split
    next here => rw [here, tier_eq found]
    next => rfl
  exact T.of_tiers (.setNode st i n') (fun j t here => tiers ▸ here) fun j t here _ => tiers ▸ here

theorem Tenanted.clearInline (T : Tenanted st) (found : st.tryGetNode i = some n) (childs : n'.childs = .default)
    (overflow : n'.overflowIdx = n.overflowIdx) : Tenanted (st.setNode i n') := by
  refine T.of_stores (.setNode st i n') (T.kids.clearInline found childs overflow) fun {j t s} here slot => ?_
  by_cases same : j = i
  · rw [same, tier_eq found] at here
    obtain rfl := Option.some.inj here
    exact ⟨i, _, by rw [tier_setNode found, if_pos rfl], overflow.trans slot⟩
  · exact ⟨j, t, by rw [tier_setNode found, if_neg same, here], slot⟩

theorem Tenanted.same (T : Tenanted st) (S : SameTree st st') : Tenanted st' := by
  have tiers : st'.tier = st.tier := by
    funext j
    rw [tier, tier, S.nodes]
  exact T.of_tiers S.stores (fun j t here => tiers ▸ here) fun j t here _ => tiers ▸ here

theorem Tenanted.setNow (T : Tenanted st) (now : Nat) : Tenanted (st.setNow now) := ⟨T.kids, T.slots, T.entries, T.free⟩

theorem Tenanted.removeLeaf (T : Tenanted st) (found : st.tryGetNode i = some n) (leaf : n.hasChildren = false) :
    Tenanted (st.removeNode i) := by
  have bare : n.overflowIdx = none := by
    simp only [Node.hasChildren, Bool.or_eq_false_iff, Option.isSome_eq_false_iff, Option.isNone_iff_eq_none] at leaf
    exact leaf.2
  have tiers : ∀ j, (st.removeNode i).tier j = if j = i then none else st.tier j := by
    intro j
    rw [tier, tryGetNode_removeNode]
    split <;> rfl
  refine T.of_tiers (.removeNode st i) (fun j t here => ?_) fun j t here slot => ?_
  · rw [tiers] at here
    split at here
    · cases here
    · exact here
  · rw [tiers, if_neg, here]
    rintro rfl
    obtain rfl := Option.some.inj ((tier_eq found).symm.trans here)
    exact slot bare

/-- The node takes over the slot of its child. -/
theorem Tenanted.tryRecompress (T : Tenanted st) (x : Nat) : InOrder Tenanted (st.tryRecompress x) := by
  rcases tryRecompress_cases st x with run | ⟨n, r, y, child, found, empty, single, occupied, ⟨-, run⟩ | ⟨other, run⟩⟩
  · rw [run]
    exact .ok T
  · rw [run]
    exact .error id
  · obtain ⟨-, bare, -⟩ := links_of_single found single
    have S := sameStores_absorbed st x y r n child
    have tiers := tier_absorbed (r := r) found other occupied
    rw [run]
    refine .ok (T.of_stores S (T.kids.moveUp S tiers) fun {j t s} here slot => ?_)
    by_cases own : j = x
    · rw [own, tier_eq found] at here
      obtain rfl := Option.some.inj here
      rw [bare] at slot
      cases slot
    · by_cases child' : j = y
      · exact ⟨x, t, by rw [tiers, if_pos rfl, ← child', here], slot⟩
      · exact ⟨j, t, by rw [tiers, if_neg own, if_neg child', here], slot⟩

theorem Tenanted.inserted (T : Tenanted st) (ins : Inserted st idx leaf st') (childs : leaf.childs = .default)
    (overflow : leaf.overflowIdx = none) : Tenanted st' ∧ st'.find = st.find := by
  obtain ⟨K', finds⟩ := ins.leaf_links T.kids childs overflow
  refine ⟨T.of_stores ins.stores K' fun {j t s} here slot => ⟨j, t, ?_, slot⟩, finds⟩
  rw [ins.tier, if_neg, here]
  rintro rfl
  rw [tier, ins.free] at here
  cases here

/-- The old content of `x` moves to `y`; its slot goes with it. -/
theorem Tenanted.moveDown (T : Tenanted st) (found : st.tryGetNode x = some old) (ins : Inserted (st.setNode x node) y oldChild st')
    (childs : node.childs = .default) (overflow : node.overflowIdx = none) (childs' : oldChild.childs = old.childs)
    (overflow' : oldChild.overflowIdx = old.overflowIdx) : Tenanted st' ∧ ∀ r, st'.find x r = none := by
  obtain ⟨K', finds⟩ := T.kids.moveDown found ins childs overflow childs' overflow'
  have tiers := tier_moveDown found ins childs overflow childs' overflow'
  refine ⟨T.of_stores ((SameStores.setNode st x node).trans ins.stores) K' fun {j t s} here slot => ?_,
    fun r => by rw [finds, if_pos rfl]⟩
  by_cases own : j = x
  · exact ⟨y, t, by rw [tiers, if_pos rfl, ← own, here], slot⟩
  · refine ⟨j, t, ?_, slot⟩
    rw [tiers, if_neg, if_neg own, here]
    rintro rfl
    have free := ins.free
    rw [tryGetNode_setNode, if_neg own] at free
    rw [tier, free] at here
    cases here

end Nodes

/-! ## Insertions -/

theorem linking_of_arena : ∀ {e : Panic}, e.Arena → e.Linking
  | .overflowIdx, _ | .bigOverflowIdx, _ | .freeHead, _ => trivial

theorem intact_of_safe {α : Type} {good : α → Prop} {run : Exec α} (safe : Safe good run) : InOrder good run :=
  safe.mono fun _ outside arena => outside (linking_of_arena arena)

section Insert

variable {p common : Nat} {r : UInt8} {key keyRest : Bytes}

theorem Tenanted.createNodeWithVal (T : Tenanted st) (new : st.find p r = none) (v : V) (c : Bytes) (ttl : Nat) :
    InOrder (fun q => Tenanted q.2) (st.createNodeWithVal p r v c ttl) := by
  cases found : st.tryGetNode p with
  | none =>
    have run : st.createNodeWithVal p r v c ttl = .error .getNode := by
      unfold OxidArt.createNodeWithVal getNode
      rw [found]
      rfl
    rw [run]
    exact .error id
  | some n =>
    have shape := intact_of_safe (safe_newLeaf c v ttl p r)
    cases made : Node.newLeaf c v ttl p r with
    | error e =>
      have run : st.createNodeWithVal p r v c ttl = .error e := by
        unfold OxidArt.createNodeWithVal
        rw [getNode_ok found, made]
        rfl
      rw [run]
      exact .error (shape.of_error made)
    | ok leaf =>
      obtain ⟨-, childs, overflow, -⟩ := shape.of_ok made
      obtain ⟨idx, st₁, ins, eq⟩ := createNodeWithVal_eq found made
      obtain ⟨T₁, finds⟩ := T.inserted ins childs overflow
      rw [eq]
      exact (T₁.pushChildIdx (by rw [finds]; exact new) idx).map fun _ both => both.1

theorem Tenanted.splitLeaf (T : Tenanted st) {x : Nat} (new : ∀ r, keyRest[common]? = some r → st.find x r = none) (ttl : Option Nat)
    (val : Option V) : InOrder (fun q => Tenanted q.2) (st.splitLeaf common keyRest x ttl val) := by
  unfold OxidArt.splitLeaf
  split
  · exact .error id
  next r v here => exact T.createNodeWithVal (new r here) v _ _
  next r here =>
    obtain ⟨T₁, finds⟩ := T.inserted (inserted_insert st (.newEmptyLeaf (keyRest.drop (common + 1)) x r)) rfl rfl
    exact (T₁.pushChildIdx (by rw [finds]; exact new r here) _).bind fun _ both => .ok both.1

theorem Tenanted.splitNode (T : Tenanted st) {x : Nat} {old : Node V} (found : st.tryGetNode x = some old)
    (parts : Node.PartsAt old.compression keyRest common) (ttl : Option Nat) (val : Option V) :
    InOrder (fun q => Tenanted q.2) (st.splitNode common keyRest x ttl val) := by
  unfold OxidArt.splitNode
  simp only [getNode_ok found, bind, Except.bind]
  refine (intact_of_safe (safe_splitIntermediate old common _ ttl val)).bind fun node shape => ?_
  obtain ⟨-, childs, overflow⟩ := shape
  cases here : old.compression[common]? with
  | none => exact .error id
  | some r =>
    obtain ⟨oldChild, eqc⟩ : ∃ oldChild : Node V, oldChild = { old with
      compression := old.compression.drop (common + 1)
      parentIdx := some x } := ⟨_, rfl⟩
    obtain ⟨y, st₁, inserted, ins⟩ := inserted_either (st.setNode x node) oldChild old.expAndRadix.doesExpire
    obtain ⟨T₁, alone⟩ := T.moveDown found ins childs overflow (by rw [eqc]) (by rw [eqc])
    simp only [← eqc, inserted]
    refine (T₁.pushChildIdx (alone r) y).bind fun st₂ both => ?_
    obtain ⟨T₂, finds⟩ := both
    split
    · exact .ok T₂
    next inner =>
      refine T₂.splitLeaf (fun s next => ?_) ttl val
      have differ : s ≠ r := by
        rintro rfl
        rcases parts.leave with last | differ
        · exact inner (beq_iff_eq.2 last)
        · exact differ (here.trans next.symm)
      rw [finds s differ]
      exact alone s

theorem Tenanted.walk_partialAt (T : Tenanted st) (nonempty : key ≠ []) {idx parent : Nat} {radix : UInt8} {keyPath : Bytes}
    (outcome : st.walk key = .partialAt idx parent radix common keyRest keyPath) (ttl : Option Nat) (val : Option V) :
    InOrder (fun q => Tenanted q.2) (st.splitNode common keyRest idx ttl val) := by
  have spec := walk_spec st nonempty
  rw [outcome] at spec
  obtain ⟨way, n, -, -, found, -, parts, -⟩ := spec
  exact T.splitNode found parts ttl val

theorem Tenanted.setInternal (T : Tenanted st) (key : Bytes) (ttl : Nat) (v : V) : InOrder Tenanted (st.setInternal key ttl v) := by
  have write : ∀ i, InOrder Tenanted ((st.getNode i).bind fun n => (n.setVal v ttl).bind fun n' => .ok (st.setNode i n')) := by
    intro i
    refine (intact_of_safe (safe_getNode st i)).bind fun n found => (intact_of_safe (safe_setVal n v ttl)).bind fun n' same => .ok ?_
    exact T.setNode found same.1 same.2.1
  unfold OxidArt.setInternal
  split
  · exact write st.rootIdx
  next inner =>
    have nonempty : key ≠ [] := by simpa using inner
    have spec := walk_spec st nonempty
    split
    next idx r rest outcome =>
      rw [outcome] at spec
      obtain ⟨way, -, whole, r', rest', same, new⟩ := spec
      obtain ⟨rfl, rfl⟩ := List.cons.inj same
      exact (T.createNodeWithVal new v rest ttl).bind fun _ T' => .ok T'
    · exact .error id
    · exact .error id
    next idx _ _ _ _ => exact write idx
    next outcome => exact (T.walk_partialAt nonempty outcome _ _).bind fun _ T' => .ok T'

theorem Tenanted.ensureKey (T : Tenanted st) (key : Bytes) : InOrder (fun q => Tenanted q.2) (st.ensureKey key) := by
  unfold OxidArt.ensureKey
  split
  · exact .ok T
  next inner =>
    have nonempty : key ≠ [] := by simpa using inner
    have spec := walk_spec st nonempty
    split
    next idx keyRest outcome =>
      rw [outcome] at spec
      obtain ⟨way, -, whole, r, rest, rfl, new⟩ := spec
      obtain ⟨T₁, finds⟩ := T.inserted (inserted_insert st (.newEmptyLeaf rest idx r)) rfl rfl
      exact (T₁.pushChildIdx (by rw [finds]; exact new) _).bind fun _ both => .ok both.1
    · exact .error id
    · exact .ok T
    next outcome => exact T.walk_partialAt nonempty outcome _ _

end Insert

/-- `Tenanted` survives everything, under any key, and nothing panics over the arena. -/
theorem upkeep_tenanted : Upkeep (fun e => ¬ e.Arena) (fun (_ : OxidArt P V) _ => True) Tenanted where
  panics outside arena := outside (linking_of_arena arena)
  setNode T found childs overflow _ := T.setNode found childs overflow
  clearInline T found childs overflow _ := T.clearInline found childs overflow
  same T := T.same
  setNow T := T.setNow _
  removeLeaf T := T.removeLeaf
  removeChild T := T.removeChild
  freeNode T := T.freeNode
  tryRecompress T := T.tryRecompress
  setInternal T _ := T.setInternal _
  ensureKey T _ := T.ensureKey _

theorem tenanted_new : Tenanted (new : OxidArt P V) where
  kids := by
    have I : Inv (new : OxidArt P V) [] _ := inv_new
    exact ⟨TierInv.nodup I.kids, fun _ _ _ => trivial, TierInv.slotOk I.kids, TierInv.owner I.kids, TierInv.hugeOwner I.kids,
      TierInv.freeList I.kids⟩
  slots read := by cases read
  entries entry := by cases entry
  free := ⟨[], OverflowArena.freeExactly_new⟩

/-! ## What the invariant says -/

/-- `overflow_count`. -/
def overflowCount (st : OxidArt P V) : Nat := st.overflowArena.count

/-- The number of nodes with an overflow slot. -/
def slotted (st : OxidArt P V) : Nat := st.map.cells.keys.countP fun i => ((st.tryGetNode i).bind Node.overflowIdx).isSome

/-- Every slot in use and every huge entry has exactly one owner, and the free list holds the other slots, each once. -/
structure ExclusiveSlots (st : OxidArt P V) : Prop where
  owner : ∀ s o, st.overflowArena.get s = some o → ∃! i, ∃ n, st.tryGetNode i = some n ∧ n.overflowIdx = some s
  occupied : ∀ i n s, st.tryGetNode i = some n → n.overflowIdx = some s → ∃ o, st.overflowArena.get s = some o
  hugeOwner : ∀ h e, st.hugeOvf.get h = some e → ∃! s, ∃ o, st.overflowArena.get s = some o ∧ o.bigOverflowIdx = some h
  hugeOccupied : ∀ s o h, st.overflowArena.get s = some o → o.bigOverflowIdx = some h → ∃ e, st.hugeOvf.get h = some e
  freeList : ∃ l, FreeChain st.overflowArena.nextOf st.overflowArena.freeHead l ∧ l.Nodup ∧
    ∀ s, s ∈ l ↔ s < st.overflowArena.slots.length ∧ st.overflowArena.get s = none
  count : st.overflowCount = st.slotted

theorem Tenanted.count (T : Tenanted st) : st.overflowCount = st.slotted := by
  obtain ⟨l, exact⟩ := T.free
  obtain ⟨owned, eq⟩ : ∃ owned, owned = st.map.cells.keys.filterMap fun i => (st.tryGetNode i).bind Node.overflowIdx := ⟨_, rfl⟩
  have mem_owned : ∀ {s}, s ∈ owned ↔ ∃ o, st.overflowArena.get s = some o := by
    intro s
    rw [eq, List.mem_filterMap]
    constructor
    · rintro ⟨i, -, here⟩
      obtain ⟨n, found, slot⟩ := Option.bind_eq_some_iff.1 here
      obtain ⟨o, read, -⟩ := T.kids.slotOk (tier_eq found) s slot
      exact ⟨o, read⟩
    · rintro ⟨o, read⟩
      obtain ⟨i, t, here, slot⟩ := T.slots read
      obtain ⟨n, found, rfl⟩ := Option.map_eq_some_iff.1 here
      exact ⟨i, TaggedHiSlab.mem_keys_of_get found, by rw [found]; exact slot⟩
  have nodup : owned.Nodup := by
    rw [eq]
    refine List.Nodup.filterMap (fun i j s here there => ?_) (AList.keys_nodup st.map.cells)
    obtain ⟨n, found, slot⟩ := Option.bind_eq_some_iff.1 here
    obtain ⟨m, found', slot'⟩ := Option.bind_eq_some_iff.1 there
    exact T.kids.owner (tier_eq found) (tier_eq found') slot slot'
  -- Every slot of the arena is either on the free list or owned.
  have perm : (l ++ owned).Perm (List.range st.overflowArena.slots.length) := by
    refine (List.perm_ext_iff_of_nodup ?_ List.nodup_range).2 fun s => ?_
    · refine List.nodup_append.2 ⟨exact.chain.nodup, nodup, ?_⟩
      rintro s free _ used rfl
      obtain ⟨o, read⟩ := mem_owned.1 used
      exact (exact.used read).2 free
    · rw [List.mem_append, mem_owned, List.mem_range, exact.mem_iff]
      constructor
      · rintro (⟨inside, -⟩ | ⟨o, read⟩)
        · exact inside
        · exact (exact.used read).1
      · intro inside
        cases read : st.overflowArena.get s with
        | none => exact .inl ⟨inside, rfl⟩
        | some o => exact .inr ⟨o, rfl⟩
  have total := perm.length_eq
  have count := exact.count
  have counted : owned.length = st.slotted := by rw [eq, List.length_filterMap_eq_countP]; rfl
  rw [List.length_append, List.length_range] at total
  show st.overflowArena.count = st.slotted
  omega

theorem Tenanted.exclusive (T : Tenanted st) : ExclusiveSlots st where
  owner := by
    intro s o read
    obtain ⟨i, t, here, slot⟩ := T.slots read
    obtain ⟨n, found, rfl⟩ := Option.map_eq_some_iff.1 here
    refine ⟨i, ⟨n, found, slot⟩, ?_⟩
    rintro j ⟨m, found', slot'⟩
    exact T.kids.owner (tier_eq found') (tier_eq found) slot' slot
  occupied := by
    intro i n s found slot
    obtain ⟨o, read, -⟩ := T.kids.slotOk (tier_eq found) s slot
    exact ⟨o, read⟩
  hugeOwner := by
    intro h e entry
    obtain ⟨i, t, here, owned⟩ := T.entries entry
    obtain ⟨s, o, slot, read, big⟩ := bigOf_eq_some.1 owned
    refine ⟨s, ⟨o, read, big⟩, ?_⟩
    rintro s' ⟨o', read', big'⟩
    obtain ⟨j, u, there, slot'⟩ := T.slots read'
    obtain rfl := T.kids.hugeOwner there here (bigOf_eq_some.2 ⟨s', o', slot', read', big'⟩) owned
    obtain rfl := Option.some.inj (there.symm.trans here)
    exact Option.some.inj (slot'.symm.trans slot)
  hugeOccupied := by
    intro s o h read big
    obtain ⟨i, t, here, slot⟩ := T.slots read
    obtain ⟨o', read', -, sound⟩ := T.kids.slotOk here s slot
    obtain rfl := Option.some.inj (read.symm.trans read')
    obtain ⟨e, entry, -⟩ := sound h big
    exact ⟨e, entry⟩
  freeList := by
    obtain ⟨l, exact⟩ := T.free
    exact ⟨l, exact.chain, exact.chain.nodup, fun s => exact.mem_iff⟩
  count := T.count

end OxidArt

/-! ## Runs -/

open OxidArt

/-- A turn of the event loop: a command, the start of a `deln_async`, or a poll of one that is pending. -/
inductive LoopTurn (S : Type) [Score S] where
  | command (c : Command S)
  | delnAsync (pfx : Bytes)
  | poll (i : Nat)

/-- The store, and the pending futures of `deln_async`. -/
structure EventLoop (P : Policy) (S : Type) [Score S] where
  store : OxidArt P (Value S)
  tasks : List DelnTask

namespace EventLoop

variable {P : Policy} {S : Type} [Score S]

def init : EventLoop P S := ⟨new, []⟩

def turn (order : HashOrder) (s : EventLoop P S) : LoopTurn S → Exec (Unit × EventLoop P S)
  | .command c => do
    let (_, st) ← exec order s.store c
    return ((), { s with store := st })
  | .delnAsync pfx => do
    match ← s.store.startDeln YIELD_BUDGET pfx with
    | (.ready _, st) => return ((), { s with store := st })
    | (.pending task, st) => return ((), ⟨st, s.tasks ++ [task]⟩)
  | .poll i => match s.tasks[i]? with
    | none => .ok ((), s)
    | some task => do
      match ← s.store.pollDeln YIELD_BUDGET task with
      | (.ready _, st) => return ((), ⟨st, s.tasks.eraseIdx i⟩)
      | (.pending task, st) => return ((), ⟨st, s.tasks.set i task⟩)

/-- Whatever the turn, the arena stays in order. -/
theorem turn_tenanted (order : HashOrder) {s : EventLoop P S} (T : Tenanted s.store) (t : LoopTurn S) :
    InOrder (fun q => Tenanted q.2.store) (s.turn order t) := by
  cases t with
  | command c => exact (upkeep_tenanted.exec T fun _ _ => trivial).bind fun _ T' => .ok T'
  | delnAsync pfx =>
    refine (upkeep_tenanted.startDeln T YIELD_BUDGET pfx).bind fun q T' => ?_
    obtain ⟨future, st⟩ := q
    cases future <;> exact .ok T'
  | poll i =>
    simp only [turn]
    cases s.tasks[i]? with
    | none => exact .ok T
    | some task =>
      refine (upkeep_tenanted.pollDeln T YIELD_BUDGET task).bind fun q T' => ?_
      obtain ⟨future, st⟩ := q
      cases future <;> exact .ok T'

theorem run_tenanted (order : HashOrder) (turns : List (LoopTurn S)) : ∀ s : EventLoop P S, Tenanted s.store →
    InOrder (fun q => Tenanted q.2.store) (run (turn order) turns s) := by
  induction turns with
  | nil => exact fun s T => .ok T
  | cons t rest ih => exact fun s T => (turn_tenanted order T t).bind fun q T' => (ih q.2 T').bind fun _ T'' => .ok T''

/-- Every overflow slot has one owner, after any sequence of commands and polls over any keys. No turn panics over the arena: `alloc` meets
no slot in use. A slot freed twice would be on the free list twice. -/
theorem run_exclusive (order : HashOrder) (turns : List (LoopTurn S)) :
    InOrder (fun q => ExclusiveSlots q.2.store) (run (turn order) turns (init : EventLoop P S)) :=
  (run_tenanted order turns init tenanted_new).imp fun _ T => T.exclusive

end EventLoop

end Radixox.Oxidart
