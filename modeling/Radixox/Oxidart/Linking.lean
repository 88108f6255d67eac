import Radixox.Oxidart.Tiers
import Radixox.Lib.PathForest

/-!
# Linking and unlinking children

The state seen as a graph of labelled nodes, and the effect of the functions that
write links: `push_child_idx` adds one link, `remove_child` takes one away, and
neither touches anything else a reader of the tree can see (`Relinks`).
-/

namespace Radixox.Oxidart
set_option autoImplicit false
open Radixox.Assoc Radixox.PathForest

/-- The node without its links. -/
def Node.core {V : Type} (n : Node V) : Node V := { n with childs := .default, overflowIdx := none }

namespace OxidArt

variable {P : Policy} {V : Type} {st st' : OxidArt P V}

def tier (st : OxidArt P V) (i : Nat) : Option Tier := (st.tryGetNode i).map fun n => (n.childs, n.overflowIdx)

/-- The links of a node by tier. -/
def shelf (st : OxidArt P V) (i : Nat) : Option Shelf := (st.tier i).map (shelfOf st.overflowArena st.hugeOvf)

def core (st : OxidArt P V) (i : Nat) : Option (Node V) := (st.tryGetNode i).map Node.core

/-- The tree as a graph: compressions are the labels, `find` the links. -/
def graph (st : OxidArt P V) : PathForest.Graph Nat UInt8 := ⟨fun i => (st.tryGetNode i).map Node.compression, st.find⟩

/-- The tiers of the store are sound, with links under bytes of `B` only. -/
def KidsInvOf (B : UInt8 → Prop) (st : OxidArt P V) : Prop := TierInv B st.tier st.overflowArena st.hugeOvf

abbrev KidsInv (st : OxidArt P V) : Prop := KidsInvOf KeyByte st

theorem iterAllChildren_eq (st : OxidArt P V) (i : Nat) :
    st.iterAllChildren i = ((st.tier i).map (linksOf st.overflowArena st.hugeOvf)).getD [] := by
  unfold iterAllChildren tier
  cases st.tryGetNode i <;> rfl

theorem iterAllChildren_of_tier {i : Nat} {t : Tier} (found : st.tier i = some t) :
    st.iterAllChildren i = linksOf st.overflowArena st.hugeOvf t := by
  rw [iterAllChildren_eq, found]
  rfl

theorem iterAllChildren_of_shelf (st : OxidArt P V) (i : Nat) : st.iterAllChildren i = ((st.shelf i).map Shelf.links).getD [] := by
  rw [iterAllChildren_eq, shelf, Option.map_map]
  congr 2
  funext t
  exact linksOf_eq _ _ t

/-- `find` searches the links of all three tiers. -/
theorem find_eq_lookup (st : OxidArt P V) (i : Nat) (r : UInt8) : st.find i r = (st.iterAllChildren i).lookup r := by
  unfold find iterAllChildren
  cases st.tryGetNode i with
  | none => rfl
  | some n =>
    simp only [Option.bind_eq_bind, Option.bind_some, Childs.find, List.lookup_append]
    cases n.childs.items.lookup r with
    | some j => rfl
    | none =>
      cases n.overflowIdx with
      | none => rfl
      | some s =>
        cases found : st.overflowArena.get s with
        | none => simp [found]
        | some o => simp [found, Overflow.find_eq_lookup]

section KidsInv

variable {B : UInt8 → Prop} {i j : Nat} {r : UInt8}

theorem KidsInvOf.nodup (K : KidsInvOf B st) (i : Nat) : ((st.iterAllChildren i).map Prod.fst).Nodup := by
  rw [iterAllChildren_eq]
  cases found : st.tier i with
  | none => exact List.nodup_nil
  | some t => exact TierInv.nodup K found

theorem KidsInvOf.find_iff (K : KidsInvOf B st) : st.find i r = some j ↔ (r, j) ∈ st.iterAllChildren i := by
  rw [find_eq_lookup, lookup_eq_some_iff_mem (K.nodup i)]

theorem KidsInvOf.keyByte (K : KidsInvOf B st) {p : UInt8 × Nat} (member : p ∈ st.iterAllChildren i) : B p.1 := by
  rw [iterAllChildren_eq] at member
  cases found : st.tier i with
  | none => simp [found] at member
  | some t => exact TierInv.keyByte K found p (by simpa [found] using member)

theorem find_eq_none_iff : st.find i r = none ↔ r ∉ (st.iterAllChildren i).map Prod.fst := by
  rw [find_eq_lookup, lookup_eq_none_iff_notMem]

theorem find_of_free (free : st.tryGetNode i = none) (r : UInt8) : st.find i r = none := by
  simp [find, free]

end KidsInv

/-! ## Writing nodes -/

theorem tryGetNode_setNode (st : OxidArt P V) (i : Nat) (n : Node V) (j : Nat) :
    (st.setNode i n).tryGetNode j = if j = i then (st.tryGetNode i).map (fun _ => n) else st.tryGetNode j :=
  TaggedHiSlab.get_set _ _ _ _

theorem tryGetNode_removeNode (st : OxidArt P V) (i j : Nat) :
    (st.removeNode i).tryGetNode j = if j = i then none else st.tryGetNode j :=
  TaggedHiSlab.get_remove _ _ _

/-- The index the next insertion of a node gets. -/
def nextIdx (st : OxidArt P V) : Nat := st.map.nextIdx

@[simp] theorem tryGetNode_nextIdx (st : OxidArt P V) : st.tryGetNode st.nextIdx = none :=
  TaggedHiSlab.get_nextIdx _

theorem tryGetNode_insert (st : OxidArt P V) (n : Node V) (j : Nat) :
    (st.insert n).2.tryGetNode j = if j = st.nextIdx then some n else st.tryGetNode j :=
  TaggedHiSlab.get_insertSlot _ _ _

theorem tryGetNode_insertTagged (st : OxidArt P V) (n : Node V) (j : Nat) :
    (st.insertTagged n).2.tryGetNode j = if j = st.nextIdx then some n else st.tryGetNode j :=
  TaggedHiSlab.get_insertSlot _ _ _

theorem getNode_ok {i : Nat} {n : Node V} (found : st.tryGetNode i = some n) : st.getNode i = .ok n := by
  simp only [getNode, found]

theorem tryGetNode_of_getNode {i : Nat} {n : Node V} (ran : st.getNode i = .ok n) : st.tryGetNode i = some n := by
  unfold getNode at ran
  split at ran
  next found => rw [found, Except.ok.inj ran]
  next => cases ran

/-- Only the links of `p` may differ. -/
structure Relinks (st st' : OxidArt P V) (p : Nat) : Prop where
  core : ∀ i, st'.core i = st.core i
  now : st'.now = st.now
  rootIdx : st'.rootIdx = st.rootIdx
  shelves : ∀ i, i ≠ p → st'.shelf i = st.shelf i

theorem Relinks.others {p : Nat} (R : Relinks st st' p) (i : Nat) (other : i ≠ p) : st'.iterAllChildren i = st.iterAllChildren i := by
  rw [iterAllChildren_of_shelf, iterAllChildren_of_shelf, R.shelves i other]

theorem tier_eq {i : Nat} {n : Node V} (found : st.tryGetNode i = some n) : st.tier i = some (n.childs, n.overflowIdx) := by
  simp [tier, found]

theorem tier_setNode {i : Nat} {n : Node V} (found : st.tryGetNode i = some n) (n' : Node V) (j : Nat) :
    (st.setNode i n').tier j = if j = i then some (n'.childs, n'.overflowIdx) else st.tier j := by
  simp only [tier, tryGetNode_setNode, found]
  split <;> rfl

/-- Other stores do not change the nodes. -/
theorem tryGetNode_setNode_stores {p : Nat} {n : Node V} (found : st.tryGetNode p = some n) (arena : OverflowArena)
    (huge : HugeOvf P) (n' : Node V) (j : Nat) :
    (({ st with overflowArena := arena, hugeOvf := huge } : OxidArt P V).setNode p n').tryGetNode j =
      if j = p then some n' else st.tryGetNode j := by
  have found' : ({ st with overflowArena := arena, hugeOvf := huge } : OxidArt P V).tryGetNode p = some n := found
  rw [tryGetNode_setNode, found']
  rfl

/-- When the node `p` makes a tier step, the state is relinked at `p`. -/
theorem relink {B : UInt8 → Prop} (K : KidsInvOf B st) {p : Nat} {n n' : Node V} (found : st.tryGetNode p = some n)
    (nodes : ∀ j, st'.tryGetNode j = if j = p then some n' else st.tryGetNode j) (same : n'.core = n.core)
    (now : st'.now = st.now) (root : st'.rootIdx = st.rootIdx)
    (S : TierStep st.overflowArena st.hugeOvf (n.childs, n.overflowIdx) st'.overflowArena st'.hugeOvf
      (n'.childs, n'.overflowIdx))
    (nodup : ((linksOf st'.overflowArena st'.hugeOvf (n'.childs, n'.overflowIdx)).map Prod.fst).Nodup)
    (bytes : ∀ q ∈ linksOf st'.overflowArena st'.hugeOvf (n'.childs, n'.overflowIdx), B q.1) :
    KidsInvOf B st' ∧ Relinks st st' p := by
  have new : st'.tier p = some (n'.childs, n'.overflowIdx) := by simp [tier, nodes]
  have others : ∀ i, i ≠ p → st'.tier i = st.tier i := fun i other => by simp [tier, nodes, other]
  obtain ⟨K', frame⟩ := TierInv.update K (tier_eq found) new others S nodup bytes
  refine ⟨K', ?_, now, root, ?_⟩
  · intro i
    simp only [core, nodes]
    split
    next here => rw [here, found]; simp [same]
    next => rfl
  · intro i other
    rw [shelf, shelf, others i other]
    cases read : st.tier i with
    | none => rfl
    | some u => simp only [Option.map_some, frame i other u read]

/-! ## `push_child_idx` -/

/-- The inline tier has room. -/
theorem Childs.push_ok {c : Childs} {r : UInt8} (room : c.isFull = false) (nonzero : r ≠ 0) (idx : Nat) :
    ∃ c', c.push r idx = .ok c' ∧ c'.items = c.items ++ [(r, idx)] := by
  have small : c.items.length < CHILDS_SIZE := by
    have := c.bound
    simp only [Childs.isFull, beq_eq_false_iff_ne] at room
    omega
  exact ⟨_, dif_pos ⟨small, nonzero⟩, rfl⟩

section Push

variable {B : UInt8 → Prop} {p idx : Nat} {r : UInt8} {n n' : Node V}

/-- A tier step that adds one link under a new byte. -/
theorem relink_push (n' : Node V) (K : KidsInvOf B st) (found : st.tryGetNode p = some n) (new : st.find p r = none) (byte : B r)
    (nodes : ∀ j, st'.tryGetNode j = if j = p then some n' else st.tryGetNode j) (same : n'.core = n.core)
    (now : st'.now = st.now) (root : st'.rootIdx = st.rootIdx)
    (S : TierStep st.overflowArena st.hugeOvf (n.childs, n.overflowIdx) st'.overflowArena st'.hugeOvf
      (n'.childs, n'.overflowIdx))
    (perm : (linksOf st'.overflowArena st'.hugeOvf (n'.childs, n'.overflowIdx)).Perm
      ((r, idx) :: linksOf st.overflowArena st.hugeOvf (n.childs, n.overflowIdx))) :
    KidsInvOf B st' ∧ Relinks st st' p ∧ (st'.iterAllChildren p).Perm ((r, idx) :: st.iterAllChildren p) := by
  have links := iterAllChildren_of_tier (tier_eq found)
  have links' : st'.iterAllChildren p = linksOf st'.overflowArena st'.hugeOvf (n'.childs, n'.overflowIdx) :=
    iterAllChildren_of_tier (by simp [tier, nodes])
  rw [← links', ← links] at perm
  have nodup : ((st'.iterAllChildren p).map Prod.fst).Nodup := by
    rw [(perm.map Prod.fst).nodup_iff, List.map_cons, List.nodup_cons]
    exact ⟨find_eq_none_iff.1 new, K.nodup p⟩
  have bytes : ∀ q ∈ st'.iterAllChildren p, B q.1 := by
    intro q member
    rcases List.mem_cons.1 (perm.mem_iff.1 member) with rfl | old
    · exact byte
    · exact K.keyByte old
  rw [links'] at nodup bytes
  obtain ⟨K', relinks⟩ := relink K found nodes same now root S nodup bytes
  exact ⟨K', relinks, perm⟩

/-- An overflow slot always has room for a link under a new byte. -/
theorem overflow_room (K : KidsInvOf B st) (ascii : ∀ b, B b → Ascii b) (found : st.tryGetNode p = some n) {s : Nat} (slot : n.overflowIdx = some s)
    {o : Overflow} (read : st.overflowArena.get s = some o) :
    (o.iter st.hugeOvf).length < LIGHT_OVERFLOW_SIZE + HUGE_OVERFLOW_CAPACITY := by
  have bound := length_le_of_ascii (K.nodup p) (by
    intro b member
    obtain ⟨q, inside, rfl⟩ := List.mem_map.1 member
    exact ascii q.1 (K.keyByte inside))
  have sizes : LIGHT_OVERFLOW_SIZE + HUGE_OVERFLOW_CAPACITY = 131 := by decide
  rw [iterAllChildren_of_tier (tier_eq found), List.length_map] at bound
  simp only [linksOf, slot, Option.bind_some, read, Option.map_some, Option.getD_some, List.length_append] at bound
  omega

/-- The overflow slot of the node, if any, has room. -/
def Roomy (st : OxidArt P V) (n : Node V) : Prop :=
  ∀ s o, n.overflowIdx = some s → st.overflowArena.get s = some o →
    (o.iter st.hugeOvf).length < LIGHT_OVERFLOW_SIZE + HUGE_OVERFLOW_CAPACITY

/-- The inline tier refuses the byte 0; the others take it. -/
theorem pushChildIdx_roomy (K : KidsInvOf B st) (roomy : n.childs.isFull = true → Roomy st n) (found : st.tryGetNode p = some n)
    (new : st.find p r = none) (byte : B r) (allowed : r ≠ 0 ∨ n.childs.isFull = true) (idx : Nat) :
    ∃ st', st.pushChildIdx p idx r = .ok st' ∧ KidsInvOf B st' ∧ Relinks st st' p ∧
      (st'.iterAllChildren p).Perm ((r, idx) :: st.iterAllChildren p) := by
  have ok := TierInv.slotOk K (tier_eq found)
  have nodesSet := tryGetNode_setNode_stores found
  unfold pushChildIdx
  simp only [getNode_ok found, bind, Except.bind, pure, Except.pure]
  split
  next room =>
    have nonzero : r ≠ 0 := allowed.resolve_right (by rw [room]; exact Bool.false_ne_true)
    obtain ⟨c', pushed, items⟩ := Childs.push_ok room nonzero idx
    simp only [pushed]
    refine ⟨_, rfl, relink_push _ K found new byte (nodesSet _ _ _) rfl rfl rfl ?_ ?_⟩
    · exact ⟨fun _ _ _ => rfl, fun _ _ _ => rfl, fun _ same => .inl same, fun _ same => .inl same,
        fun s slot => ok s slot, K.freeList⟩
    · simp only [linksOf, items, List.append_assoc, List.singleton_append]
      exact List.perm_middle
  next full =>
    cases slot : n.overflowIdx with
    | none =>
      obtain ⟨s, arena, allocated, free, read, others, freeList⟩ := OverflowArena.alloc_ok K.freeList
      obtain ⟨o, huge, pushed, perm, sound, fresh, frame⟩ := Overflow.push_ok (Overflow.hugeOk_default st.hugeOvf)
        (by simp [Overflow.iter, Overflow.default]; decide) r idx
      have getArena : ∀ j, (arena.set s o).get j = if j = s then some o else arena.get j :=
        OverflowArena.get_set read o
      have big : bigOf (arena.set s o) (n.childs, some s) = o.bigOverflowIdx := by simp [bigOf, getArena]
      have getNode' : ({ st with overflowArena := arena.set s o, hugeOvf := huge } : OxidArt P V).getNode p = .ok n :=
        getNode_ok found
      simp only [allocOverflowWithFirst, allocated, read, pushed, bind, Except.bind, pure, Except.pure, getNode']
      refine ⟨_, rfl, relink_push _ K found new byte (nodesSet _ _ _) rfl rfl rfl ⟨?_, ?_, ?_, ?_, ?_, ?_⟩ ?_⟩
      · intro j _ other
        have apart : j ≠ s := fun same => other (congrArg some same.symm)
        exact (getArena j).trans (by rw [if_neg apart, others j apart])
      · exact fun h _ other => frame h (big ▸ other)
      · rintro j ⟨⟩
        exact .inr free
      · intro h here
        rcases fresh h (big ▸ here) with none' | absent
        · cases none'
        · exact .inr absent
      · rintro j ⟨⟩
        exact ⟨o, (getArena s).trans (if_pos rfl), Overflow.isEmpty_eq_false_of_perm perm, sound⟩
      · exact OverflowArena.freeList_set freeList read o
      · have iter : linksOf (arena.set s o) huge (n.childs, some s) = n.childs.items ++ o.iter huge := by
          simp [linksOf, getArena]
        have iter' : linksOf st.overflowArena st.hugeOvf (n.childs, n.overflowIdx) =
            n.childs.items ++ Overflow.default.iter st.hugeOvf := by
          simp [linksOf, slot, Overflow.default, Overflow.iter]
        rw [iter']
        exact (iter ▸ perm.append_left _).trans List.perm_middle
    | some s =>
      obtain ⟨o, read, -, sound⟩ := ok s slot
      obtain ⟨o', huge, pushed, perm, sound', fresh, frame⟩ :=
        Overflow.push_ok sound (roomy (Bool.not_eq_false _ ▸ full) s o slot read) r idx
      have getArena : ∀ j, (st.overflowArena.set s o').get j = if j = s then some o' else st.overflowArena.get j :=
        OverflowArena.get_set read o'
      have big : bigOf st.overflowArena (n.childs, n.overflowIdx) = o.bigOverflowIdx := by simp [bigOf, slot, read]
      have big' : bigOf (st.overflowArena.set s o') (n.childs, n.overflowIdx) = o'.bigOverflowIdx := by
        simp [bigOf, slot, getArena]
      simp only [read, pushed]
      refine ⟨_, rfl, relink_push n K found new byte ?_ rfl rfl rfl ⟨?_, ?_, ?_, ?_, ?_, ?_⟩ ?_⟩
      · intro j
        split
        next here => exact here ▸ found
        next => rfl
      · intro j other _
        have apart : j ≠ s := by
          rintro rfl
          exact other slot
        exact (getArena j).trans (if_neg apart)
      · exact fun h _ other => frame h (big' ▸ other)
      · exact fun j same => .inl same
      · exact fun h here => big ▸ fresh h (big' ▸ here)
      · exact fun j here => ⟨o', (getArena j).trans (if_pos (Option.some.inj (here.symm.trans slot))),
          Overflow.isEmpty_eq_false_of_perm perm, sound'⟩
      · exact OverflowArena.freeList_set K.freeList read o'
      · have iter : linksOf (st.overflowArena.set s o') huge (n.childs, n.overflowIdx) =
            n.childs.items ++ o'.iter huge := by simp [linksOf, slot, getArena]
        have iter' : linksOf st.overflowArena st.hugeOvf (n.childs, n.overflowIdx) =
            n.childs.items ++ o.iter st.hugeOvf := by simp [linksOf, slot, read]
        rw [iter']
        exact (iter ▸ perm.append_left _).trans List.perm_middle

theorem pushChildIdx_links (K : KidsInvOf B st) (ascii : ∀ b, B b → Ascii b) (found : st.tryGetNode p = some n)
    (new : st.find p r = none) (byte : B r) (allowed : r ≠ 0 ∨ n.childs.isFull = true) (idx : Nat) :
    ∃ st', st.pushChildIdx p idx r = .ok st' ∧ KidsInvOf B st' ∧ Relinks st st' p ∧
      (st'.iterAllChildren p).Perm ((r, idx) :: st.iterAllChildren p) :=
  pushChildIdx_roomy K (fun _ _ _ slot read => overflow_room K ascii found slot read) found new byte allowed idx

theorem pushChildIdx_ok (K : KidsInv st) (found : st.tryGetNode p = some n) (new : st.find p r = none)
    (byte : KeyByte r) (idx : Nat) :
    ∃ st', st.pushChildIdx p idx r = .ok st' ∧ KidsInv st' ∧ Relinks st st' p ∧
      (st'.iterAllChildren p).Perm ((r, idx) :: st.iterAllChildren p) :=
  pushChildIdx_links K (fun _ byte => byte.2) found new byte (.inl byte.1) idx

end Push

/-! ## `remove_child` -/

section Remove

variable {B : UInt8 → Prop} {p y : Nat} {r : UInt8} {n n' : Node V}

/-- A tier step that takes one link away. -/
theorem relink_remove (n' : Node V) (K : KidsInvOf B st) (found : st.tryGetNode p = some n)
    (nodes : ∀ j, st'.tryGetNode j = if j = p then some n' else st.tryGetNode j) (same : n'.core = n.core)
    (now : st'.now = st.now) (root : st'.rootIdx = st.rootIdx)
    (S : TierStep st.overflowArena st.hugeOvf (n.childs, n.overflowIdx) st'.overflowArena st'.hugeOvf
      (n'.childs, n'.overflowIdx))
    (perm : (linksOf st.overflowArena st.hugeOvf (n.childs, n.overflowIdx)).Perm
      ((r, y) :: linksOf st'.overflowArena st'.hugeOvf (n'.childs, n'.overflowIdx))) :
    KidsInvOf B st' ∧ Relinks st st' p ∧ (st.iterAllChildren p).Perm ((r, y) :: st'.iterAllChildren p) := by
  have links := iterAllChildren_of_tier (tier_eq found)
  have links' : st'.iterAllChildren p = linksOf st'.overflowArena st'.hugeOvf (n'.childs, n'.overflowIdx) :=
    iterAllChildren_of_tier (by simp [tier, nodes])
  rw [← links', ← links] at perm
  have nodup : ((st'.iterAllChildren p).map Prod.fst).Nodup := by
    have whole := K.nodup p
    rw [(perm.map Prod.fst).nodup_iff, List.map_cons, List.nodup_cons] at whole
    exact whole.2
  have bytes : ∀ q ∈ st'.iterAllChildren p, B q.1 :=
    fun q member => K.keyByte (perm.mem_iff.2 (List.mem_cons_of_mem _ member))
  rw [links'] at nodup bytes
  obtain ⟨K', relinks⟩ := relink K found nodes same now root S nodup bytes
  exact ⟨K', relinks, perm⟩

theorem Childs.remove_eq {c : Childs} {r : UInt8} {i : Nat} {l : Links} (removed : removeKey c.items r = some (i, l)) :
    ∃ c', c.remove r = some (i, c') ∧ c'.items = l := by
  unfold Childs.remove
  split
  next none' => simp [removed] at none'
  next j l' some' =>
    obtain ⟨rfl, rfl⟩ : j = i ∧ l' = l := by simpa [removed, eq_comm] using some'
    exact ⟨_, rfl, rfl⟩

theorem Childs.remove_eq_none {c : Childs} {r : UInt8} (removed : removeKey c.items r = none) : c.remove r = none := by
  unfold Childs.remove
  split
  next => rfl
  next some' => simp [removed] at some'

theorem removeChild_ok (K : KidsInvOf B st) (found : st.tryGetNode p = some n) (edge : st.find p r = some y) :
    KidsInvOf B (st.removeChild p r) ∧ Relinks st (st.removeChild p r) p ∧
      (st.iterAllChildren p).Perm ((r, y) :: (st.removeChild p r).iterAllChildren p) := by
  have ok := TierInv.slotOk K (tier_eq found)
  have nodup := TierInv.nodup K (tier_eq found)
  have member := K.find_iff.1 edge
  rw [iterAllChildren_of_tier (tier_eq found)] at member
  -- The removed link is the one of `r`.
  have unique : ∀ {v l}, (linksOf st.overflowArena st.hugeOvf (n.childs, n.overflowIdx)).Perm ((r, v) :: l) → v = y := by
    intro v l perm
    have here := perm.mem_iff.2 (List.mem_cons_self (a := (r, v)))
    rw [← lookup_eq_some_iff_mem nodup] at member here
    exact Option.some.inj (here.symm.trans member)
  have nodesSet := tryGetNode_setNode_stores found
  unfold removeChild
  simp only [found]
  cases inline : removeKey n.childs.items r with
  | some q =>
    obtain ⟨v, rest⟩ := q
    obtain ⟨c', removed, items⟩ := Childs.remove_eq inline
    have perm : (linksOf st.overflowArena st.hugeOvf (n.childs, n.overflowIdx)).Perm
        ((r, v) :: linksOf st.overflowArena st.hugeOvf (c', n.overflowIdx)) := by
      simp only [linksOf, items]
      exact (removeKey_perm inline).append_right _
    obtain rfl := unique perm
    simp only [removed]
    exact relink_remove _ K found (nodesSet _ _ _) rfl rfl rfl ⟨fun _ _ _ => rfl, fun _ _ _ => rfl,
      fun _ same => .inl same, fun _ same => .inl same, fun s slot => ok s slot, K.freeList⟩ perm
  | none =>
    simp only [Childs.remove_eq_none inline]
    rcases List.mem_append.1 member with inside | inside
    · exact absurd (List.mem_map_of_mem (f := Prod.fst) inside) (removeKey_eq_none.1 inline)
    cases slot : n.overflowIdx with
    | none => simp [slot] at inside
    | some s =>
      obtain ⟨o, read, -, sound⟩ := ok s slot
      simp only [slot, Option.bind_some, read, Option.map_some, Option.getD_some] at inside
      have iter : linksOf st.overflowArena st.hugeOvf (n.childs, n.overflowIdx) =
          n.childs.items ++ o.iter st.hugeOvf := by simp [linksOf, slot, read]
      have nodup' : ((o.iter st.hugeOvf).map Prod.fst).Nodup := by
        rw [iter, List.map_append] at nodup
        exact (List.nodup_append.1 nodup).2.1
      obtain ⟨o', huge, removed, perm, sound', kept, frame⟩ := Overflow.remove_ok sound nodup' inside
      have big : bigOf st.overflowArena (n.childs, n.overflowIdx) = o.bigOverflowIdx := by simp [bigOf, slot, read]
      have getArena : ∀ j, (st.overflowArena.set s o').get j = if j = s then some o' else st.overflowArena.get j :=
        OverflowArena.get_set read o'
      have read' : (st.overflowArena.set s o').get s = some o' := (getArena s).trans (if_pos rfl)
      have perm' : (linksOf st.overflowArena st.hugeOvf (n.childs, n.overflowIdx)).Perm
          ((r, y) :: (n.childs.items ++ o'.iter huge)) := by
        rw [iter]
        exact (perm.append_left _).trans List.perm_middle
      simp only [read, removed]
      split
      next empty =>
        -- The last link of the slot: the slot goes back to the arena.
        obtain ⟨items, none'⟩ : o'.items = [] ∧ o'.bigOverflowIdx = none := by
          simpa [Overflow.isEmpty] using empty
        have drop : ((st.overflowArena.set s o').free huge s).2 = huge := by
          simp [OverflowArena.free, read', Overflow.dropHuge, none']
        have getFree : ∀ j, ((st.overflowArena.set s o').free huge s).1.get j =
            if j = s then none else (st.overflowArena.set s o').get j := OverflowArena.get_free read' huge
        refine relink_remove _ K found (nodesSet _ _ _) rfl rfl rfl ⟨?_, ?_, ?_, ?_, ?_, ?_⟩ ?_
        · intro j other _
          have apart : j ≠ s := by
            rintro rfl
            exact other slot
          exact (getFree j).trans (by rw [if_neg apart, getArena, if_neg apart])
        · intro h other _
          rw [big] at other
          exact (congrArg (TaggedHiSlab.get · h) drop).trans (frame h other)
        · rintro j ⟨⟩
        · rintro h ⟨⟩
        · rintro j ⟨⟩
        · exact OverflowArena.freeList_free (OverflowArena.freeList_set K.freeList read o') read' huge
        · simpa [linksOf, Overflow.iter, items, none'] using perm'
      next full =>
        have big' : bigOf (st.overflowArena.set s o') (n.childs, n.overflowIdx) = o'.bigOverflowIdx := by
          simp [bigOf, slot, read']
        refine relink_remove n K found ?_ rfl rfl rfl ⟨?_, ?_, ?_, ?_, ?_, ?_⟩ ?_
        · intro j
          split
          next here => exact here ▸ found
          next => rfl
        · intro j other _
          have apart : j ≠ s := by
            rintro rfl
            exact other slot
          exact (getArena j).trans (if_neg apart)
        · exact fun h other _ => frame h (big ▸ other)
        · exact fun j same => .inl same
        · exact fun h here => .inl (big ▸ kept h (big' ▸ here))
        · intro j here
          refine ⟨o', (getArena j).trans (if_pos (Option.some.inj (here.symm.trans slot))), ?_, sound'⟩
          simpa using full
        · exact OverflowArena.freeList_set K.freeList read o'
        · have iter' : linksOf (st.overflowArena.set s o') huge (n.childs, n.overflowIdx) =
              n.childs.items ++ o'.iter huge := by simp [linksOf, slot, read']
          rw [← iter'] at perm'
          exact perm'

/-- Taking away a link that is not there writes the slot back as it was. -/
theorem removeChild_absent (K : KidsInvOf B st) (absent : st.find p r = none) : st.removeChild p r = st := by
  unfold removeChild
  cases found : st.tryGetNode p with
  | none => rfl
  | some n =>
    rw [find_eq_none_iff, iterAllChildren_of_tier (tier_eq found), linksOf, List.map_append, List.mem_append, not_or] at absent
    have inline : n.childs.remove r = none := Childs.remove_eq_none (removeKey_eq_none.2 absent.1)
    simp only [inline]
    cases slot : n.overflowIdx with
    | none => rfl
    | some s =>
      obtain ⟨o, read, busy, sound⟩ := TierInv.slotOk K (tier_eq found) s slot
      have outer := absent.2
      simp only [slot, Option.bind_some, read, Option.map_some, Option.getD_some] at outer
      have kept : o.remove st.hugeOvf r = (none, o, st.hugeOvf) := by
        rw [Overflow.iter, List.map_append, List.mem_append, not_or] at outer
        unfold Overflow.remove
        split
        next light => rw [removeKey_eq_none.2 outer.1] at light; cases light
        next light =>
          cases big : o.bigOverflowIdx with
          | none => rfl
          | some h =>
            obtain ⟨e, entry, -⟩ := sound h big
            have far := outer.2
            simp only [big, Option.bind_some, entry, Option.map_some, Option.getD_some] at far
            have refused : e.remove r = none := by
              unfold HugeOverflow.remove
              split
              next => rfl
              next some' => rw [removeKey_eq_none.2 far] at some'; cases some'
            simp only [entry, Option.bind_some, refused]
      have same : st.overflowArena.set s o = st.overflowArena := by
        obtain ⟨bound, item⟩ := List.getElem?_eq_some_iff.1 (OverflowArena.get_eq_some.1 read)
        unfold OverflowArena.set
        rw [← item, List.set_getElem_self bound]
      simp only [read, kept, busy, same, Bool.false_eq_true, if_false]

end Remove

end OxidArt

end Radixox.Oxidart
