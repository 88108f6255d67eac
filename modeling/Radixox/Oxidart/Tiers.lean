import Radixox.Lib.FreeList
import Radixox.Oxidart.Store

/-!
# The three tiers act as one set of links

`TierInv` is what keeps the tiers of different nodes apart: every overflow slot
and every huge entry belongs to one node, none of them is empty, and the free list
of the arena is a chain of free slots. Under it a push adds one link to one node and
a removal takes one away (`TierInv.update`), whatever tier the link is in, and
the links of all other nodes stay.
-/

namespace Radixox.Oxidart
set_option autoImplicit false
open Radixox.Assoc

/-- The bytes a key may contain: ASCII without 0. -/
def KeyByte (b : UInt8) : Prop := b ≠ 0 ∧ b < 128

instance (b : UInt8) : Decidable (KeyByte b) := inferInstanceAs (Decidable (_ ∧ _))

/-- The bytes of a key in general. -/
def Ascii (b : UInt8) : Prop := b < 128

instance (b : UInt8) : Decidable (Ascii b) := inferInstanceAs (Decidable (_ < _))

theorem length_le_of_ascii {l : List UInt8} (nodup : l.Nodup) (bytes : ∀ b ∈ l, Ascii b) : l.length ≤ 128 := by
  have nodup' : (l.map UInt8.toNat).Nodup := nodup.map fun _ _ same => UInt8.toNat_inj.1 same
  have sub : l.map UInt8.toNat ⊆ List.range 128 := by
    intro n member
    obtain ⟨b, inside, rfl⟩ := List.mem_map.1 member
    exact List.mem_range.2 (UInt8.lt_iff_toNat_lt.1 (bytes b inside))
  have := (List.subperm_of_subset nodup' sub).length_le
  simpa using this

variable {P : Policy}

/-! ## The overflow arena -/

namespace OverflowArena

/-- The free list through a slot; `none` for a slot in use. -/
def nextOf (a : OverflowArena) (i : Nat) : Option (Option Nat) :=
  match a.slots[i]? with
  | some (.nextFree next) => some next
  | _ => none

/-- The free list of the arena is a chain of free slots. -/
def FreeList (a : OverflowArena) : Prop := ∃ l, FreeChain a.nextOf a.freeHead l

theorem freeList_new : FreeList .new := ⟨[], .nil⟩

theorem nextOf_eq_none {a : OverflowArena} {i : Nat} {o : Overflow} (item : a.slots[i]? = some (.item o)) : a.nextOf i = none := by
  simp [nextOf, item]

theorem get_eq_some {a : OverflowArena} {i : Nat} {o : Overflow} :
    a.get i = some o ↔ a.slots[i]? = some (.item o) := by
  unfold get
  split
  next found => simp [found]
  next other => simpa using fun h => other o h

theorem alloc_ok {a : OverflowArena} (free : a.FreeList) :
    ∃ i a', a.alloc = .ok (i, a') ∧ a.get i = none ∧ a'.get i = some .default ∧
      (∀ j, j ≠ i → a'.get j = a.get j) ∧ a'.FreeList := by
  obtain ⟨l, chain⟩ := free
  unfold alloc
  generalize head : a.freeHead = h at chain
  cases chain with
  | nil =>
    refine ⟨a.slots.length, _, rfl, ?_, ?_, ?_, [], ?_⟩
    · simp [get]
    · simp [get]
    · intro j other
      have same : (a.slots ++ [.item .default])[j]? = a.slots[j]? := by
        rw [List.getElem?_append]
        split
        next => rfl
        next outside =>
          rw [List.getElem?_eq_none (Nat.le_of_not_lt outside), List.getElem?_eq_none]
          simp only [List.length_singleton]
          omega
      simp only [get, same]
    · exact .nil
  | @cons i next l free rest fresh =>
    have read : a.slots[i]? = some (.nextFree next) := by
      unfold nextOf at free
      split at free
      next read => rw [read, Option.some.inj free]
      next => cases free
    simp only [read]
    obtain ⟨bound, -⟩ := List.getElem?_eq_some_iff.1 read
    refine ⟨i, _, rfl, ?_, ?_, ?_, l, rest.congr fun j member => ?_⟩
    · simp [get, read]
    · simp [get, bound]
    · intro j other
      simp only [get, List.getElem?_set_ne other.symm]
    · have other : i ≠ j := fun same => fresh (same ▸ member)
      simp only [nextOf, List.getElem?_set_ne other]

theorem get_set {a : OverflowArena} {i : Nat} {o : Overflow} (old : a.get i = some o) (o' : Overflow) (j : Nat) :
    (a.set i o').get j = if j = i then some o' else a.get j := by
  obtain ⟨bound, -⟩ := List.getElem?_eq_some_iff.1 (get_eq_some.1 old)
  split
  next same => subst same; simp [set, get, bound]
  next other => simp only [set, get, List.getElem?_set_ne (Ne.symm other)]

theorem freeList_set {a : OverflowArena} {i : Nat} {o : Overflow} (free : a.FreeList) (old : a.get i = some o)
    (o' : Overflow) : (a.set i o').FreeList := by
  obtain ⟨l, chain⟩ := free
  refine ⟨l, chain.congr fun j member => ?_⟩
  have other : i ≠ j := fun same => chain.notMem_of_used (nextOf_eq_none (get_eq_some.1 old)) (same ▸ member)
  simp only [nextOf, set, List.getElem?_set_ne other]

theorem get_free {a : OverflowArena} {i : Nat} {o : Overflow} (old : a.get i = some o) (s : HugeOvf P) (j : Nat) :
    (a.free s i).1.get j = if j = i then none else a.get j := by
  obtain ⟨bound, -⟩ := List.getElem?_eq_some_iff.1 (get_eq_some.1 old)
  split
  next same => subst same; simp [free, get, bound]
  next other => simp only [free, get, List.getElem?_set_ne (Ne.symm other)]

theorem freeList_free {a : OverflowArena} {i : Nat} {o : Overflow} (free : a.FreeList) (old : a.get i = some o)
    (s : HugeOvf P) : (a.free s i).1.FreeList := by
  obtain ⟨l, chain⟩ := free
  obtain ⟨bound, -⟩ := List.getElem?_eq_some_iff.1 (get_eq_some.1 old)
  refine ⟨i :: l, chain.push (nextOf_eq_none (get_eq_some.1 old)) ?_ fun j other => ?_⟩
  · simp [nextOf, OverflowArena.free, bound]
  · simp only [nextOf, OverflowArena.free, List.getElem?_set_ne other.symm]

end OverflowArena

/-! ## One overflow slot with its huge entry -/

namespace Overflow

/-- The huge entry of the slot, if any, is there and not empty. -/
def HugeOk (o : Overflow) (s : HugeOvf P) : Prop :=
  ∀ h, o.bigOverflowIdx = some h → ∃ e, s.get h = some e ∧ e.entries ≠ []

theorem hugeOk_default (s : HugeOvf P) : (default : Overflow).HugeOk s := by
  intro h big
  cases big

theorem iter_eq {o : Overflow} {s : HugeOvf P} {h : Nat} {e : HugeOverflow} (big : o.bigOverflowIdx = some h)
    (found : s.get h = some e) : o.iter s = o.items ++ e.entries := by
  simp [iter, big, found]

theorem find_eq_lookup (o : Overflow) (s : HugeOvf P) (r : UInt8) : o.find s r = (o.iter s).lookup r := by
  simp only [find, iter, List.lookup_append]
  cases o.items.lookup r with
  | some i => rfl
  | none =>
    cases o.bigOverflowIdx with
    | none => rfl
    | some h =>
      cases found : s.get h with
      | none => simp [found]
      | some e => simp [found, HugeOverflow.find]

/-- A push into a slot with room adds the link; at most the slot's own huge entry changes. -/
theorem push_ok {o : Overflow} {s : HugeOvf P} (huge : o.HugeOk s)
    (room : (o.iter s).length < LIGHT_OVERFLOW_SIZE + HUGE_OVERFLOW_CAPACITY) (r : UInt8) (idx : Nat) :
    ∃ o' s', o.push s r idx = .ok (o', s') ∧ (o'.iter s').Perm ((r, idx) :: o.iter s) ∧
      o'.HugeOk s' ∧ (∀ h, o'.bigOverflowIdx = some h → o.bigOverflowIdx = some h ∨ s.get h = none) ∧
      (∀ h, o'.bigOverflowIdx ≠ some h → s'.get h = s.get h) := by
  unfold push
  split
  next small =>
    refine ⟨_, _, rfl, ?_, huge, fun h big => .inl big, fun _ _ => rfl⟩
    simp only [iter, List.append_assoc, List.singleton_append]
    exact List.perm_middle
  next full =>
    cases big : o.bigOverflowIdx with
    | some h =>
      obtain ⟨e, found, -⟩ := huge h big
      have bound : e.entries.length < HUGE_OVERFLOW_CAPACITY := by
        rw [iter_eq big found, List.length_append] at room
        omega
      simp only [found, HugeOverflow.push, dif_pos bound]
      have found' : (s.set h ⟨e.entries ++ [(r, idx)], by rw [List.length_append]; exact bound⟩).get h =
          some ⟨e.entries ++ [(r, idx)], by rw [List.length_append]; exact bound⟩ := by
        simp [TaggedHiSlab.get_set, found]
      refine ⟨o, _, rfl, ?_, ?_, fun _ same => .inl (big.symm.trans same), ?_⟩
      · rw [iter_eq big found', iter_eq big found, ← List.append_assoc]
        exact List.perm_append_singleton _ _
      · intro h' big'
        obtain rfl := Option.some.inj (big.symm.trans big')
        exact ⟨_, found', by simp⟩
      · intro h' other
        rw [TaggedHiSlab.get_set, if_neg]
        rintro rfl
        exact other big
    | none =>
      have found' : (s.insertSlot ⟨HugeOverflow.new r idx, false⟩).get s.nextIdx = some (HugeOverflow.new r idx) := by
        simp [TaggedHiSlab.get_insertSlot]
      refine ⟨_, _, rfl, ?_, ?_, ?_, ?_⟩
      · have links : o.iter s = o.items := by simp [iter, big]
        rw [iter_eq (o := { o with bigOverflowIdx := some s.nextIdx }) rfl found', links]
        exact List.perm_append_singleton _ _
      · rintro h' ⟨⟩
        exact ⟨_, found', by simp [HugeOverflow.new]⟩
      · rintro h' ⟨⟩
        exact .inr (TaggedHiSlab.get_nextIdx s)
      · intro h' other
        rw [TaggedHiSlab.get_insertSlot, if_neg]
        rintro rfl
        exact other rfl

theorem isEmpty_eq_false_of_perm {o : Overflow} {s : HugeOvf P} {p : UInt8 × Nat} {l : Links}
    (perm : (o.iter s).Perm (p :: l)) : o.isEmpty = false := by
  cases o with
  | mk items bound big =>
    cases items with
    | cons => rfl
    | nil =>
      cases big with
      | some => rfl
      | none => simp [iter] at perm

/-- Removing a link of a slot; at most the slot's own huge entry changes. -/
theorem remove_ok {o : Overflow} {s : HugeOvf P} {r : UInt8} {idx : Nat} (huge : o.HugeOk s)
    (nodup : ((o.iter s).map Prod.fst).Nodup) (member : (r, idx) ∈ o.iter s) :
    ∃ o' s', o.remove s r = (some idx, o', s') ∧ (o.iter s).Perm ((r, idx) :: o'.iter s') ∧
      o'.HugeOk s' ∧ (∀ h, o'.bigOverflowIdx = some h → o.bigOverflowIdx = some h) ∧
      (∀ h, o.bigOverflowIdx ≠ some h → s'.get h = s.get h) := by
  have same : ∀ {v l}, (o.iter s).Perm ((r, v) :: l) → v = idx := by
    intro v l perm
    have here : (r, v) ∈ o.iter s := perm.mem_iff.2 List.mem_cons_self
    rw [← lookup_eq_some_iff_mem nodup] at member here
    exact Option.some.inj (here.symm.trans member)
  unfold remove
  split
  next v rest light =>
    have perm : (o.iter s).Perm ((r, v) :: (rest ++ ((o.bigOverflowIdx.bind s.get).map HugeOverflow.entries).getD [])) :=
      (removeKey_perm light).append_right _
    obtain rfl := same perm
    exact ⟨_, _, rfl, perm, huge, fun _ big => big, fun _ _ => rfl⟩
  next light =>
    have absent := removeKey_eq_none.1 light
    rcases List.mem_append.1 member with inside | inside
    · exact absurd (List.mem_map_of_mem (f := Prod.fst) inside) absent
    cases big : o.bigOverflowIdx with
    | none => simp [big] at inside
    | some h =>
      obtain ⟨e, found, -⟩ := huge h big
      simp only [big, found, Option.bind_some, Option.map_some, Option.getD_some] at inside
      have removed : ∃ v rest, removeKey e.entries r = some (v, rest) := by
        cases eq : removeKey e.entries r with
        | some p => exact ⟨p.1, p.2, rfl⟩
        | none => exact absurd (List.mem_map_of_mem (f := Prod.fst) inside) (removeKey_eq_none.1 eq)
      obtain ⟨v, rest, eq⟩ := removed
      have perm : (o.iter s).Perm ((r, v) :: (o.items ++ rest)) := by
        rw [iter_eq big found]
        exact ((removeKey_perm eq).append_left _).trans List.perm_middle
      obtain rfl := same perm
      have eq' : e.remove r = some (v, ⟨rest, length_removeKey_le eq e.bound⟩) := by
        unfold HugeOverflow.remove
        split
        next none' => simp [eq] at none'
        next _ _ some' => simp only [eq, Option.some.injEq, Prod.mk.injEq] at some'; simp [some']
      simp only [found, Option.bind_some, eq']
      split
      next empty =>
        obtain rfl : rest = [] := by simpa [HugeOverflow.isEmpty] using empty
        refine ⟨_, _, rfl, by simpa [iter] using perm, ?_, ?_, ?_⟩
        · rintro h' ⟨⟩
        · rintro h' ⟨⟩
        · intro h' other
          have apart : h' ≠ h := fun eq => other (congrArg some eq.symm)
          rw [TaggedHiSlab.get_remove, if_neg apart, TaggedHiSlab.get_set, if_neg apart]
      next full =>
        have found' : (s.set h ⟨rest, length_removeKey_le eq e.bound⟩).get h =
            some ⟨rest, length_removeKey_le eq e.bound⟩ := by
          simp [TaggedHiSlab.get_set, found]
        refine ⟨_, _, rfl, ?_, ?_, ?_, ?_⟩
        · rw [iter_eq big found']
          exact perm
        · intro h' big'
          obtain rfl := Option.some.inj (big.symm.trans big')
          exact ⟨_, found', by simpa [HugeOverflow.isEmpty] using full⟩
        · exact fun h' same => big.symm.trans same
        · intro h' other
          rw [TaggedHiSlab.get_set, if_neg (fun eq => other (congrArg some eq.symm))]

theorem get_dropHuge {o : Overflow} {h : Nat} (s : HugeOvf P) (other : o.bigOverflowIdx ≠ some h) :
    (o.dropHuge s).get h = s.get h := by
  unfold dropHuge
  split
  next => rfl
  next h' big =>
    rw [TaggedHiSlab.get_remove, if_neg]
    rintro rfl
    exact other big

end Overflow

/-! ## All nodes together -/

/-- What a node holds of its links: the inline ones and the index of its overflow slot. -/
abbrev Tier := Childs × Option Nat

/-- The links of a node in the order inline, light, huge. -/
def linksOf (arena : OverflowArena) (huge : HugeOvf P) (t : Tier) : Links :=
  t.1.items ++ ((t.2.bind arena.get).map (·.iter huge)).getD []

/-- The huge entry a node owns through its overflow slot. -/
def bigOf (arena : OverflowArena) (t : Tier) : Option Nat := (t.2.bind arena.get).bind Overflow.bigOverflowIdx

/-- The links of a node by tier. -/
structure Shelf where
  inline : Links
  light : Links
  huge : Links

def Shelf.links (s : Shelf) : Links := s.inline ++ (s.light ++ s.huge)

def shelfOf (arena : OverflowArena) (huge : HugeOvf P) (t : Tier) : Shelf :=
  ⟨t.1.items, ((t.2.bind arena.get).map Overflow.items).getD [],
    (((bigOf arena t).bind huge.get).map HugeOverflow.entries).getD []⟩

theorem linksOf_eq (arena : OverflowArena) (huge : HugeOvf P) (t : Tier) : linksOf arena huge t = (shelfOf arena huge t).links := by
  unfold linksOf shelfOf bigOf
  cases t.2.bind arena.get <;> rfl

/-- A node's overflow slot, if any, is there, not empty and with a sound huge entry. -/
def SlotOk (arena : OverflowArena) (huge : HugeOvf P) (t : Tier) : Prop :=
  ∀ s, t.2 = some s → ∃ o, arena.get s = some o ∧ o.isEmpty = false ∧ o.HugeOk huge

/-- `B` are the bytes links may have. -/
structure TierInv (B : UInt8 → Prop) (tier : Nat → Option Tier) (arena : OverflowArena) (huge : HugeOvf P) : Prop where
  nodup : ∀ {i t}, tier i = some t → ((linksOf arena huge t).map Prod.fst).Nodup
  keyByte : ∀ {i t}, tier i = some t → ∀ p ∈ linksOf arena huge t, B p.1
  slotOk : ∀ {i t}, tier i = some t → SlotOk arena huge t
  owner : ∀ {i j t t' s}, tier i = some t → tier j = some t' → t.2 = some s → t'.2 = some s → i = j
  hugeOwner : ∀ {i j t t' h}, tier i = some t → tier j = some t' → bigOf arena t = some h →
    bigOf arena t' = some h → i = j
  freeList : arena.FreeList

/-- A node trades its tier `t` for `t'`; only its own slot and huge entry and fresh ones change. -/
structure TierStep (arena : OverflowArena) (huge : HugeOvf P) (t : Tier) (arena' : OverflowArena)
    (huge' : HugeOvf P) (t' : Tier) : Prop where
  slots : ∀ s, t.2 ≠ some s → t'.2 ≠ some s → arena'.get s = arena.get s
  entries : ∀ h, bigOf arena t ≠ some h → bigOf arena' t' ≠ some h → huge'.get h = huge.get h
  freshSlot : ∀ s, t'.2 = some s → t.2 = some s ∨ arena.get s = none
  freshHuge : ∀ h, bigOf arena' t' = some h → bigOf arena t = some h ∨ huge.get h = none
  slotOk : SlotOk arena' huge' t'
  freeList : arena'.FreeList

section Frame

variable {arena arena' : OverflowArena} {huge huge' : HugeOvf P} {t : Tier}

/-- A node keeps its links as long as nobody touches its slot and its huge entry. -/
theorem slotOk_frame (ok : SlotOk arena huge t) (slots : ∀ s, t.2 = some s → arena'.get s = arena.get s)
    (entries : ∀ h, bigOf arena t = some h → huge'.get h = huge.get h) :
    SlotOk arena' huge' t ∧ shelfOf arena' huge' t = shelfOf arena huge t ∧ bigOf arena' t = bigOf arena t := by
  obtain ⟨c, oi⟩ := t
  cases oi with
  | none => exact ⟨by rintro s ⟨⟩, rfl, rfl⟩
  | some s =>
    obtain ⟨o, found, full, entry⟩ := ok s rfl
    have found' : arena'.get s = some o := (slots s rfl).trans found
    have big : bigOf arena (c, some s) = o.bigOverflowIdx := by simp [bigOf, found]
    have big' : bigOf arena' (c, some s) = o.bigOverflowIdx := by simp [bigOf, found']
    have same : ∀ h, o.bigOverflowIdx = some h → huge'.get h = huge.get h := fun h eq => entries h (big.trans eq)
    refine ⟨?_, ?_, big'.trans big.symm⟩
    · rintro s' ⟨⟩
      refine ⟨o, found', full, ?_⟩
      intro h eq
      rw [same h eq]
      exact entry h eq
    · rw [shelfOf, shelfOf, big, big']
      cases eq : o.bigOverflowIdx with
      | none => simp [found, found']
      | some h => simp [found, found', same h eq]

end Frame

namespace TierInv

variable {B : UInt8 → Prop} {tier tier' : Nat → Option Tier} {arena arena' : OverflowArena} {huge huge' : HugeOvf P}

/-- When one node makes a step, the others keep their shelves. -/
theorem update (T : TierInv B tier arena huge) {p : Nat} {t t' : Tier} (old : tier p = some t)
    (new : tier' p = some t') (others : ∀ i, i ≠ p → tier' i = tier i) (S : TierStep arena huge t arena' huge' t')
    (nodup : ((linksOf arena' huge' t').map Prod.fst).Nodup) (bytes : ∀ q ∈ linksOf arena' huge' t', B q.1) :
    TierInv B tier' arena' huge' ∧
      ∀ i, i ≠ p → ∀ u, tier i = some u → shelfOf arena' huge' u = shelfOf arena huge u := by
  have apart : ∀ i, i ≠ p → ∀ u, tier i = some u → (∀ s, u.2 = some s → t'.2 ≠ some s) ∧
      (∀ h, bigOf arena u = some h → bigOf arena' t' ≠ some h) ∧
      SlotOk arena' huge' u ∧ shelfOf arena' huge' u = shelfOf arena huge u ∧
      bigOf arena' u = bigOf arena u := by
    intro i other u found
    have slot : ∀ s, u.2 = some s → t.2 ≠ some s ∧ t'.2 ≠ some s := by
      intro s here
      refine ⟨fun same => other (T.owner found old here same), fun same => ?_⟩
      rcases S.freshSlot s same with own | absent
      · exact other (T.owner found old here own)
      · obtain ⟨o, present, -⟩ := T.slotOk found s here
        simp [absent] at present
    have entry : ∀ h, bigOf arena u = some h → bigOf arena t ≠ some h ∧ bigOf arena' t' ≠ some h := by
      intro h here
      refine ⟨fun same => other (T.hugeOwner found old here same), fun same => ?_⟩
      rcases S.freshHuge h same with own | absent
      · exact other (T.hugeOwner found old here own)
      · obtain ⟨o, slotted, big⟩ := Option.bind_eq_some_iff.1 here
        obtain ⟨s, index, read⟩ := Option.bind_eq_some_iff.1 slotted
        obtain ⟨o', read', -, sound⟩ := T.slotOk found s index
        obtain rfl := Option.some.inj (read.symm.trans read')
        obtain ⟨e, present, -⟩ := sound h big
        simp [absent] at present
    exact ⟨fun s here => (slot s here).2, fun h here => (entry h here).2,
      slotOk_frame (T.slotOk found) (fun s here => S.slots s (slot s here).1 (slot s here).2)
        (fun h here => S.entries h (entry h here).1 (entry h here).2)⟩
  refine ⟨⟨?_, ?_, ?_, ?_, ?_, S.freeList⟩, fun i other u found => (apart i other u found).2.2.2.1⟩
  · intro i u found
    by_cases here : i = p
    · rw [here, new] at found
      obtain rfl := Option.some.inj found
      exact nodup
    · rw [others i here] at found
      rw [linksOf_eq, (apart i here u found).2.2.2.1, ← linksOf_eq]
      exact T.nodup found
  · intro i u found
    by_cases here : i = p
    · rw [here, new] at found
      obtain rfl := Option.some.inj found
      exact bytes
    · rw [others i here] at found
      rw [linksOf_eq, (apart i here u found).2.2.2.1, ← linksOf_eq]
      exact T.keyByte found
  · intro i u found
    by_cases here : i = p
    · rw [here, new] at found
      obtain rfl := Option.some.inj found
      exact S.slotOk
    · rw [others i here] at found
      exact (apart i here u found).2.2.1
  · intro i j u u' s foundi foundj slot slot'
    by_cases herei : i = p <;> by_cases herej : j = p
    · rw [herei, herej]
    · rw [herei, new] at foundi
      obtain rfl := Option.some.inj foundi
      rw [others j herej] at foundj
      exact absurd slot ((apart j herej u' foundj).1 s slot')
    · rw [herej, new] at foundj
      obtain rfl := Option.some.inj foundj
      rw [others i herei] at foundi
      exact absurd slot' ((apart i herei u foundi).1 s slot)
    · rw [others i herei] at foundi
      rw [others j herej] at foundj
      exact T.owner foundi foundj slot slot'
  · intro i j u u' h foundi foundj big big'
    by_cases herei : i = p <;> by_cases herej : j = p
    · rw [herei, herej]
    · rw [herei, new] at foundi
      obtain rfl := Option.some.inj foundi
      rw [others j herej] at foundj
      rw [(apart j herej u' foundj).2.2.2.2] at big'
      exact absurd big ((apart j herej u' foundj).2.1 h big')
    · rw [herej, new] at foundj
      obtain rfl := Option.some.inj foundj
      rw [others i herei] at foundi
      rw [(apart i herei u foundi).2.2.2.2] at big
      exact absurd big' ((apart i herei u foundi).2.1 h big)
    · rw [others i herei] at foundi
      rw [others j herej] at foundj
      rw [(apart i herei u foundi).2.2.2.2] at big
      rw [(apart j herej u' foundj).2.2.2.2] at big'
      exact T.hugeOwner foundi foundj big big'

/-- Nodes hand their tiers over to other indices, drop them, or start with none. -/
theorem rename (T : TierInv B tier arena huge) (src : Nat → Nat)
    (origin : ∀ i t, tier' i = some t → t = (.default, none) ∨ tier (src i) = some t)
    (inj : ∀ i j t t', tier' i = some t → tier' j = some t' → t ≠ (.default, none) → t' ≠ (.default, none) →
      src i = src j → i = j) : TierInv B tier' arena huge := by
  have nonempty : ∀ {t : Tier} {s}, t.2 = some s → t ≠ (.default, none) := by
    rintro t s slot rfl
    cases slot
  have nonempty' : ∀ {t : Tier} {h}, bigOf arena t = some h → t ≠ (.default, none) := by
    rintro t s slot rfl
    cases slot
  refine ⟨?_, ?_, ?_, ?_, ?_, T.freeList⟩
  · intro i t found
    rcases origin i t found with rfl | old
    · exact List.nodup_nil
    · exact T.nodup old
  · intro i t found
    rcases origin i t found with rfl | old
    · intro p member
      cases member
    · exact T.keyByte old
  · intro i t found
    rcases origin i t found with rfl | old
    · rintro s ⟨⟩
    · exact T.slotOk old
  · intro i j t t' s foundi foundj slot slot'
    have oldi := (origin i t foundi).resolve_left (nonempty slot)
    have oldj := (origin j t' foundj).resolve_left (nonempty slot')
    exact inj i j t t' foundi foundj (nonempty slot) (nonempty slot') (T.owner oldi oldj slot slot')
  · intro i j t t' h foundi foundj big big'
    have oldi := (origin i t foundi).resolve_left (nonempty' big)
    have oldj := (origin j t' foundj).resolve_left (nonempty' big')
    exact inj i j t t' foundi foundj (nonempty' big) (nonempty' big') (T.hugeOwner oldi oldj big big')

theorem empty : TierInv (P := P) B (fun _ => none) .new .empty := by
  refine ⟨?_, ?_, ?_, ?_, ?_, OverflowArena.freeList_new⟩
  all_goals
    intro i
    intros
    simp_all

end TierInv

end Radixox.Oxidart
