import Radixox.Lib.Outcomes
import Radixox.Lib.Renaming
import Radixox.Oxidart.Removals

/-!
# What the operations read

A `View` is what `set`, `get`, `del` and `getn` read of a node: its compression, value and expiry, and its links by tier,
whatever slots these lie in. Each surgery on the store is a few writes to the views.
-/

namespace Radixox.Oxidart
set_option autoImplicit false
open Radixox.Assoc Radixox.Outcomes Radixox.Renaming Radixox.PathForest

/-! ## Shelves -/

namespace Shelf

def empty : Shelf := ⟨[], [], []⟩

/-- A new link goes to the first tier with room. -/
def push (s : Shelf) (r : UInt8) (idx : Nat) : Shelf :=
  if s.inline.length < CHILDS_SIZE then { s with inline := s.inline ++ [(r, idx)] }
  else if s.light.length < LIGHT_OVERFLOW_SIZE then { s with light := s.light ++ [(r, idx)] }
  else { s with huge := s.huge ++ [(r, idx)] }

/-- The link of a byte leaves the first tier that has one. -/
def remove (s : Shelf) (r : UInt8) : Shelf :=
  match removeKey s.inline r, removeKey s.light r, removeKey s.huge r with
  | some (_, rest), _, _ => { s with inline := rest }
  | none, some (_, rest), _ => { s with light := rest }
  | none, none, some (_, rest) => { s with huge := rest }
  | none, none, none => s

/-- The only link, if it is inline. -/
def single (s : Shelf) : Option (UInt8 × Nat) :=
  match s with
  | ⟨[p], [], []⟩ => some p
  | _ => none

def rename (g : Nat → Nat) (s : Shelf) : Shelf := ⟨mapValues g s.inline, mapValues g s.light, mapValues g s.huge⟩

theorem links_rename (g : Nat → Nat) (s : Shelf) : (s.rename g).links = mapValues g s.links := by
  simp [links, rename, mapValues]

theorem push_rename (g : Nat → Nat) (s : Shelf) (r : UInt8) (idx : Nat) :
    (s.push r idx).rename g = (s.rename g).push r (g idx) := by
  simp only [push, rename, mapValues, List.length_map]
  split
  · simp
  · split <;> simp

theorem mem_push {s : Shelf} {r : UInt8} {idx : Nat} {q : UInt8 × Nat} : q ∈ (s.push r idx).links ↔ q ∈ s.links ∨ q = (r, idx) := by
  unfold push
  split
  · simp only [links, List.mem_append, List.mem_singleton]
    tauto
  · split
    · simp only [links, List.mem_append, List.mem_singleton]
      tauto
    · simp only [links, List.mem_append, List.mem_singleton]
      tauto

theorem remove_rename (g : Nat → Nat) (s : Shelf) (r : UInt8) : (s.remove r).rename g = (s.rename g).remove r := by
  simp only [remove, rename, removeKey_mapValues]
  cases removeKey s.inline r <;> cases removeKey s.light r <;> cases removeKey s.huge r <;> rfl

theorem single_rename (g : Nat → Nat) (s : Shelf) : (s.rename g).single = s.single.map fun p => (p.1, g p.2) := by
  obtain ⟨inline, light, huge⟩ := s
  cases inline with
  | nil => rfl
  | cons p rest => cases rest <;> cases light <;> cases huge <;> rfl

theorem eq_empty {s : Shelf} (bare : s.links = []) : s = .empty := by
  obtain ⟨inline, light, huge⟩ := s
  rw [links, List.append_eq_nil_iff, List.append_eq_nil_iff] at bare
  obtain ⟨rfl, rfl, rfl⟩ := bare
  rfl

theorem single_mem {s : Shelf} {p : UInt8 × Nat} (single : s.single = some p) : p ∈ s.links := by
  obtain ⟨inline, light, huge⟩ := s
  unfold Shelf.single at single
  split at single
  next q same =>
    cases same
    obtain rfl := Option.some.inj single
    exact List.mem_singleton.2 rfl
  next => cases single

theorem rename_congr {f h : Nat → Nat} {s : Shelf} (same : ∀ p ∈ s.links, f p.2 = h p.2) : s.rename f = s.rename h := by
  have tier : ∀ l : Links, (∀ p ∈ l, p ∈ s.links) → mapValues f l = mapValues h l := fun l sub =>
    List.map_congr_left fun p member => by rw [same p (sub p member)]
  simp only [rename, Shelf.mk.injEq]
  refine ⟨tier _ fun p member => ?_, tier _ fun p member => ?_, tier _ fun p member => ?_⟩ <;> simp [links, member]

end Shelf

/-! ## One overflow slot -/

section Tier

variable {P : Policy} {arena : OverflowArena} {huge huge' : HugeOvf P} {c : Childs} {slot : Option Nat} {o o' : Overflow} {r : UInt8}

/-- The links in the huge entry of a slot. -/
def Overflow.entries (o : Overflow) (s : HugeOvf P) : Links := ((o.bigOverflowIdx.bind s.get).map HugeOverflow.entries).getD []

theorem Overflow.entries_eq {h : Nat} {e : HugeOverflow} (big : o.bigOverflowIdx = some h) (found : huge.get h = some e) :
    o.entries huge = e.entries := by
  simp [Overflow.entries, big, found]

theorem Overflow.entries_of_none (big : o.bigOverflowIdx = none) : o.entries huge = [] := by
  rw [Overflow.entries, big]
  rfl

theorem shelfOf_none : shelfOf arena huge (c, none) = ⟨c.items, [], []⟩ := rfl

theorem shelfOf_some {s : Nat} (read : arena.get s = some o) :
    shelfOf arena huge (c, some s) = ⟨c.items, o.items, o.entries huge⟩ := by
  simp [shelfOf, bigOf, read, Overflow.entries]

/-- A slot in use has a link. -/
theorem slot_none_iff (ok : SlotOk arena huge (c, slot)) :
    slot = none ↔ (shelfOf arena huge (c, slot)).light = [] ∧ (shelfOf arena huge (c, slot)).huge = [] := by
  constructor
  · rintro rfl
    exact ⟨rfl, rfl⟩
  · rintro ⟨light, big⟩
    cases slot with
    | none => rfl
    | some s =>
      obtain ⟨o, read, full, sound⟩ := ok s rfl
      rw [shelfOf_some read] at light big
      dsimp only at light big
      cases huge' : o.bigOverflowIdx with
      | none =>
        rw [Overflow.isEmpty, light, huge'] at full
        cases full
      | some h =>
        obtain ⟨e, found, filled⟩ := sound h huge'
        rw [Overflow.entries_eq huge' found] at big
        exact absurd big filled

/-- A push into an overflow slot, seen from its two tiers. -/
theorem Overflow.push_tiers {idx : Nat} (sound : o.HugeOk huge) (pushed : o.push huge r idx = .ok (o', huge')) :
    if o.items.length < LIGHT_OVERFLOW_SIZE then o'.items = o.items ++ [(r, idx)] ∧ o'.entries huge' = o.entries huge
    else o'.items = o.items ∧ o'.entries huge' = o.entries huge ++ [(r, idx)] := by
  unfold Overflow.push at pushed
  split at pushed
  next room =>
    obtain ⟨rfl, rfl⟩ := Prod.mk.inj (Except.ok.inj pushed)
    rw [if_pos room]
    exact ⟨rfl, rfl⟩
  next full =>
    rw [if_neg full]
    split at pushed
    next h big =>
      obtain ⟨e, found, -⟩ := sound h big
      rw [found] at pushed
      dsimp only at pushed
      obtain ⟨e', grown, same⟩ := exists_of_bind pushed
      obtain ⟨rfl, rfl⟩ := Prod.mk.inj (Except.ok.inj same)
      unfold HugeOverflow.push at grown
      split at grown
      next room =>
        obtain rfl := Except.ok.inj grown
        refine ⟨rfl, ?_⟩
        have found' : (huge.set h ⟨e.entries ++ [(r, idx)], by rw [List.length_append]; exact room⟩).get h =
            some ⟨e.entries ++ [(r, idx)], by rw [List.length_append]; exact room⟩ := by simp [TaggedHiSlab.get_set, found]
        rw [Overflow.entries_eq big found, Overflow.entries_eq big found']
      next => cases grown
    next big =>
      obtain ⟨rfl, rfl⟩ := Prod.mk.inj (Except.ok.inj pushed)
      refine ⟨rfl, ?_⟩
      rw [Overflow.entries_of_none big]
      exact Overflow.entries_eq (h := huge.nextIdx) rfl (TaggedHiSlab.get_insertSlot _ _ _ |>.trans (if_pos rfl))

theorem HugeOverflow.remove_eq {e : HugeOverflow} {v : Nat} {rest : Links} (removed : removeKey e.entries r = some (v, rest)) :
    ∃ e', e.remove r = some (v, e') ∧ e'.entries = rest := by
  unfold HugeOverflow.remove
  split
  next none' => simp [removed] at none'
  next w rest' some' =>
    obtain ⟨rfl, rfl⟩ : v = w ∧ rest = rest' := by simpa [removed] using some'
    exact ⟨_, rfl, rfl⟩

theorem HugeOverflow.remove_eq_none {e : HugeOverflow} (absent : removeKey e.entries r = none) : e.remove r = none := by
  unfold HugeOverflow.remove
  split
  next => rfl
  next some' => simp [absent] at some'

/-- A removal from an overflow slot, seen from its two tiers. -/
theorem Overflow.remove_tiers (sound : o.HugeOk huge) (r : UInt8) :
    let after := (o.remove huge r).2
    match removeKey o.items r, removeKey (o.entries huge) r with
    | some (_, rest), _ => after.1.items = rest ∧ after.1.entries after.2 = o.entries huge
    | none, some (_, rest) => after.1.items = o.items ∧ after.1.entries after.2 = rest
    | none, none => after.1.items = o.items ∧ after.1.entries after.2 = o.entries huge := by
  unfold Overflow.remove
  split
  next v rest light =>
    simp only [light]
    exact ⟨trivial, rfl⟩
  next light =>
    simp only [light]
    cases big : o.bigOverflowIdx with
    | none =>
      simp only [Overflow.entries_of_none big]
      exact ⟨trivial, trivial⟩
    | some h =>
      obtain ⟨e, found, -⟩ := sound h big
      simp only [found, Option.bind_some, Overflow.entries_eq big found]
      cases removed : removeKey e.entries r with
      | none =>
        rw [HugeOverflow.remove_eq_none removed]
        exact ⟨rfl, Overflow.entries_eq big found⟩
      | some q =>
        obtain ⟨v, rest⟩ := q
        obtain ⟨e', run, same⟩ := HugeOverflow.remove_eq removed
        rw [run]
        dsimp only
        split
        next empty =>
          refine ⟨rfl, ?_⟩
          rw [Overflow.entries_of_none rfl, ← same]
          exact (List.isEmpty_iff.1 empty).symm
        next =>
          refine ⟨rfl, ?_⟩
          rw [← same]
          exact Overflow.entries_eq big (by simp [TaggedHiSlab.get_set, found])

end Tier

/-! ## Views -/

/-- What the operations read of a node. -/
structure View (V : Type) where
  compression : Bytes
  val : Option V
  exp : Option Nat
  shelf : Shelf

namespace View

variable {V : Type}

def push (r : UInt8) (idx : Nat) (b : View V) : View V := { b with shelf := b.shelf.push r idx }

def remove (r : UInt8) (b : View V) : View V := { b with shelf := b.shelf.remove r }

def put (val : Option V) (exp : Option Nat) (b : View V) : View V := { b with val := val, exp := exp }

def clear (b : View V) : View V := { b with val := none }

def leaf (compression : Bytes) (val : Option V) (exp : Option Nat) : View V := ⟨compression, val, exp, .empty⟩

def cells (V : Type) : Cells Nat (View V) where
  names b a := ∃ p ∈ b.shelf.links, p.2 = a
  rename g b := { b with shelf := b.shelf.rename g }
  congr := fun {f h b} same => by rw [Shelf.rename_congr fun p member => same p.2 ⟨p, member, rfl⟩]

end View

/-! ## Heaps of views -/

abbrev Heap (V : Type) := Nat → Option (View V)

namespace Heap

variable {V : Type} {g : Nat → Nat} {w w' : Heap V} {p j : Nat} {r : UInt8} {b leaf : View V}

/-- A new cell with a link to it. -/
def hang (w : Heap V) (p : Nat) (r : UInt8) (j : Nat) (leaf : View V) : Heap V :=
  modify (Function.update w j (some leaf)) p (View.push r j)

/-- The cell at `p` keeps the first part of its compression and gets other contents; the rest moves to a new cell. -/
def splitAt (w : Heap V) (p common : Nat) (r : UInt8) (j : Nat) (val : Option V) (exp : Option Nat) : Heap V :=
  match w p with
  | none => w
  | some b => hang (Function.update w p (some (.leaf (b.compression.take common) val exp))) p r j
      { b with compression := b.compression.drop (common + 1) }

/-- A cell without value and with one link takes over the cell that it leads to. -/
def recompress (w : Heap V) (p : Nat) : Heap V :=
  match w p with
  | none => w
  | some b =>
    if b.val.isSome then w
    else match b.shelf.single with
      | none => w
      | some (r, j) => match w j with
        | none => w
        | some c => Function.update (Function.update w j none) p (some { c with compression := b.compression ++ r :: c.compression })

theorem splitAt_ne_none {common k : Nat} {val : Option V} {exp : Option Nat} (held : w k ≠ none) :
    splitAt w p common r j val exp k ≠ none := by
  unfold splitAt
  cases w p with
  | none => exact held
  | some b => exact modify_ne_none (update_ne_none (update_ne_none held)) _

/-! ### The same change on both sides -/

section Renames

variable (R : Renames (View.cells V) g w w') (closed : Closed (View.cells V) w)

include R closed

theorem renames_hang {j' : Nat} (used : w p ≠ none) (unused : w j = none) (unused' : w' j' = none) :
    Renames (View.cells V) (Function.update g j j') (hang w p r j leaf)
      (hang w' (g p) r j' ((View.cells V).rename (Function.update g j j') leaf)) := by
  have other : p ≠ j := by
    rintro rfl
    exact used unused
  have pushed : ∀ b, (View.cells V).rename (Function.update g j j') (View.push r j b) =
      View.push r j' ((View.cells V).rename (Function.update g j j') b) := fun b => by
    simp only [View.cells, View.push, Shelf.push_rename, Function.update_self]
  have grown := (R.alloc closed unused unused' leaf).modify (i := p) (by rwa [Function.update_of_ne other]) fun b _ => pushed b
  rwa [Function.update_of_ne other] at grown

theorem renames_splitAt {common j' : Nat} {val : Option V} {exp : Option Nat} (used : w p ≠ none) (unused : w j = none)
    (unused' : w' j' = none) :
    Renames (View.cells V) (Function.update g j j') (splitAt w p common r j val exp) (splitAt w' (g p) common r j' val exp) := by
  obtain ⟨b, found⟩ := Option.ne_none_iff_exists'.1 used
  have apart : j ≠ p := by
    rintro rfl
    exact used unused
  have apart' : j' ≠ g p := by
    rintro rfl
    rw [R.cell found] at unused'
    cases unused'
  simp only [splitAt, found, R.cell found]
  have cut := R.write used (View.leaf (b.compression.take common) val exp)
  have closed' : Closed (View.cells V) (Function.update w p (some (View.leaf (b.compression.take common) val exp))) :=
    closed.write p (by rintro a ⟨q, member, -⟩; cases member)
  obtain ⟨rest, eq⟩ : ∃ rest : View V, rest = { b with compression := b.compression.drop (common + 1) } := ⟨_, rfl⟩
  have grown : Renames (View.cells V) (Function.update g j j') (hang _ p r j rest) (hang _ (g p) r j' _) := renames_hang cut closed'
    (by rw [Function.update_self]; exact Option.some_ne_none _) ((Function.update_of_ne apart _ _).trans unused)
    ((Function.update_of_ne apart' _ _).trans unused')
  have links : b.shelf.rename (Function.update g j j') = b.shelf.rename g :=
    congrArg View.shelf (closed.rename_update found unused g j')
  simp only [eq, View.cells, links] at grown
  exact grown

end Renames

/-- A split keeps the old links and adds one to the new cell. -/
theorem closed_splitAt {common : Nat} {val : Option V} {exp : Option Nat} (closed : Closed (View.cells V) w) (used : w p ≠ none)
    (unused : w j = none) : Closed (View.cells V) (splitAt w p common r j val exp) := by
  obtain ⟨b, found⟩ := Option.ne_none_iff_exists'.1 used
  have apart : p ≠ j := by
    rintro rfl
    exact used unused
  have first : Closed (View.cells V) (Function.update w p (some (View.leaf (b.compression.take common) val exp))) :=
    closed.write p (by rintro a ⟨q, member, -⟩; cases member)
  obtain ⟨old, eq⟩ : ∃ old : View V, old = { b with compression := b.compression.drop (common + 1) } := ⟨_, rfl⟩
  have second : Closed (View.cells V) (Function.update (Function.update w p (some (View.leaf (b.compression.take common) val exp)))
      j (some old)) := by
    refine first.write j fun a named => .inr ?_
    rw [eq] at named
    exact update_ne_none (closed _ _ _ found named)
  simp only [splitAt, found, hang, ← eq]
  rw [modify_eq (by rw [Function.update_of_ne apart, Function.update_self])]
  refine second.write p ?_
  rintro a ⟨q, member, rfl⟩
  rcases Shelf.mem_push.1 member with old' | rfl
  · cases old'
  exact .inr (by rw [Function.update_self]; exact Option.some_ne_none _)

/-- Both sides recompress where the only link leads to a cell. -/
theorem renames_recompress (R : Renames (View.cells V) g w w') (used : w p ≠ none)
    (live : ∀ b r j, w p = some b → b.shelf.single = some (r, j) → w j ≠ none ∧ j ≠ p) :
    Renames (View.cells V) g (recompress w p) (recompress w' (g p)) := by
  obtain ⟨b, found⟩ := Option.ne_none_iff_exists'.1 used
  have val : ((View.cells V).rename g b).val = b.val := rfl
  have compression : ((View.cells V).rename g b).compression = b.compression := rfl
  have single' : ((View.cells V).rename g b).shelf.single = b.shelf.single.map fun q => (q.1, g q.2) := Shelf.single_rename g b.shelf
  simp only [recompress, found, R.cell found, val, single', compression]
  split
  next => exact R
  next =>
    cases single : b.shelf.single with
    | none => exact R
    | some q =>
      obtain ⟨r, j⟩ := q
      obtain ⟨held, other⟩ := live b r j found single
      obtain ⟨c, below⟩ := Option.ne_none_iff_exists'.1 held
      simp only [Option.map_some, below, R.cell below]
      exact (R.free held).write (by rwa [Function.update_of_ne other.symm]) { c with compression := b.compression ++ r :: c.compression }

end Heap

namespace OxidArt

variable {P : Policy} {V : Type} {st st' : OxidArt P V} {p i : Nat} {r : UInt8} {n : Node V}

def viewOf (st : OxidArt P V) (n : Node V) : View V :=
  ⟨n.compression, n.val, n.expAndRadix.exp, shelfOf st.overflowArena st.hugeOvf (n.childs, n.overflowIdx)⟩

def view (st : OxidArt P V) (i : Nat) : Option (View V) := (st.tryGetNode i).map st.viewOf

theorem view_eq (found : st.tryGetNode i = some n) : st.view i = some (st.viewOf n) := by rw [view, found, Option.map_some]

theorem view_eq_none : st.view i = none ↔ st.tryGetNode i = none := Option.map_eq_none_iff

theorem node_of_view {b : View V} (read : st.view i = some b) : ∃ n, st.tryGetNode i = some n ∧ b = st.viewOf n := by
  obtain ⟨n, found, rfl⟩ := Option.map_eq_some_iff.1 read
  exact ⟨n, found, rfl⟩

/-- The nodes of `st'`, seen over the link stores of `st`. -/
theorem view_of_nodes (S : SameStores st st') (nodes : ∀ j, st'.tryGetNode j = if j = i then some n else st.tryGetNode j) :
    st'.view = Function.update st.view i (some (st.viewOf n)) := by
  have same : st'.viewOf = st.viewOf := by
    funext m
    rw [viewOf, viewOf, S.arena, S.huge]
  funext j
  rw [view, nodes, Function.update_apply, same]
  split
  · rfl
  · rfl

theorem view_setNode (found : st.tryGetNode i = some n) (n' : Node V) :
    (st.setNode i n').view = Function.update st.view i (some (st.viewOf n')) := by
  refine view_of_nodes (.setNode st i n') fun j => ?_
  rw [tryGetNode_setNode, found]
  rfl

theorem view_inserted {leaf : Node V} (ins : Inserted st i leaf st') :
    st'.view = Function.update st.view i (some (st.viewOf leaf)) := view_of_nodes ins.stores ins.nodes

theorem view_removeNode (st : OxidArt P V) (i : Nat) : (st.removeNode i).view = Function.update st.view i none := by
  funext j
  rw [view, tryGetNode_removeNode, Function.update_apply]
  split <;> rfl

theorem view_reparent (st : OxidArt P V) (p : Nat) (l : Links) : (st.reparent p l).view = st.view := by
  have S := sameStores_reparent st p l
  funext j
  rw [view, tryGetNode_reparent, view, Option.map_map]
  congr 1
  funext m
  simp only [Function.comp_apply, viewOf, S.arena, S.huge]
  split <;> rfl

theorem shelf_eq (found : st.tryGetNode p = some n) :
    st.shelf p = some (shelfOf st.overflowArena st.hugeOvf (n.childs, n.overflowIdx)) := by
  rw [shelf, tier_eq found, Option.map_some]

/-- One node gets another shelf. -/
theorem view_relinked (R : Relinks st st' p) (found : st.tryGetNode p = some n) {s : Shelf} (shelf : st'.shelf p = some s) :
    st'.view = Function.update st.view p (some { st.viewOf n with shelf := s }) := by
  funext j
  rw [Function.update_apply]
  have shelves : st'.shelf j = if j = p then some s else st.shelf j := by
    split
    next here => rw [here, shelf]
    next other => exact R.shelves j other
  cases read : st'.tryGetNode j with
  | none =>
    have free := R.free_iff.1 read
    have other : j ≠ p := by
      rintro rfl
      rw [found] at free
      cases free
    rw [view, read, if_neg other, view, free]
    rfl
  | some m' =>
    obtain ⟨m, before, same⟩ := R.node read
    rw [shelf_eq read, shelf_eq before] at shelves
    have val : m'.val = m.val := show m'.core.val = m.core.val from congrArg Node.val same
    rw [view, read, Option.map_some, viewOf, (Node.core_eq same).1, val, (Node.core_eq same).2.2.2]
    split
    next here =>
      subst here
      obtain rfl := Option.some.inj (found.symm.trans before)
      rw [if_pos rfl] at shelves
      rw [Option.some.inj shelves]
      rfl
    next other =>
      rw [if_neg other] at shelves
      rw [view_eq before, Option.some.inj shelves]
      rfl

/-! ## Linking and unlinking -/

theorem shelf_written (found : st.tryGetNode p = some n) (arena : OverflowArena) (huge : HugeOvf P) (n' : Node V) :
    (({ st with overflowArena := arena, hugeOvf := huge } : OxidArt P V).setNode p n').shelf p =
      some (shelfOf arena huge (n'.childs, n'.overflowIdx)) := by
  have found' : ({ st with overflowArena := arena, hugeOvf := huge } : OxidArt P V).tryGetNode p = some n := found
  rw [shelf, tier_setNode found', if_pos rfl]
  rfl

/-- A push puts the link on the shelf. -/
theorem shelf_pushChildIdx {B : UInt8 → Prop} (K : KidsInvOf B st) (found : st.tryGetNode p = some n) {idx : Nat}
    (pushed : st.pushChildIdx p idx r = .ok st') : st'.shelf p = some ((st.viewOf n).shelf.push r idx) := by
  have ok := TierInv.slotOk K (tier_eq found)
  have written := shelf_written found
  unfold pushChildIdx at pushed
  simp only [getNode_ok found, bind, Except.bind, pure, Except.pure] at pushed
  split at pushed
  next room =>
    have small : n.childs.items.length < CHILDS_SIZE := by
      have := n.childs.bound
      rw [Childs.isFull, beq_eq_false_iff_ne] at room
      omega
    by_cases nonzero : r = 0
    · simp [Childs.push, nonzero] at pushed
    obtain ⟨c', added, items⟩ := Childs.push_ok room nonzero idx
    rw [added] at pushed
    obtain rfl := Except.ok.inj pushed
    refine (written _ _ _).trans (congrArg some ?_)
    rw [Shelf.push, viewOf, if_pos (show (shelfOf st.overflowArena st.hugeOvf _).inline.length < _ from small)]
    simp only [shelfOf, items]
    rfl
  next full =>
    have large : ¬ n.childs.items.length < CHILDS_SIZE := by
      rw [Bool.not_eq_false, Childs.isFull, beq_iff_eq] at full
      omega
    rw [Shelf.push, viewOf, if_neg (show ¬ (shelfOf st.overflowArena st.hugeOvf _).inline.length < _ from large)]
    cases slot : n.overflowIdx with
    | none =>
      obtain ⟨s, arena, allocated, -, read, -⟩ := OverflowArena.alloc_ok K.freeList
      simp only [slot, allocOverflowWithFirst, allocated, read, bind, Except.bind, pure, Except.pure] at pushed
      cases put : Overflow.default.push st.hugeOvf r idx with
      | error e =>
        rw [put] at pushed
        cases pushed
      | ok q =>
        obtain ⟨o, huge⟩ := q
        have found' : ({ st with overflowArena := arena.set s o, hugeOvf := huge } : OxidArt P V).tryGetNode p = some n := found
        simp only [put, getNode_ok found'] at pushed
        obtain rfl := Except.ok.inj pushed
        have read' : (arena.set s o).get s = some o := (OverflowArena.get_set read o s).trans (if_pos rfl)
        obtain ⟨items, entries⟩ := Overflow.push_tiers (Overflow.hugeOk_default st.hugeOvf) put
        refine (written _ _ _).trans (congrArg some ?_)
        rw [shelfOf_some read', items, entries]
        rfl
    | some s =>
      obtain ⟨o, read, -, sound⟩ := ok s slot
      simp only [slot, read] at pushed
      cases put : o.push st.hugeOvf r idx with
      | error e =>
        rw [put] at pushed
        cases pushed
      | ok q =>
        obtain ⟨o', huge⟩ := q
        rw [put] at pushed
        obtain rfl := Except.ok.inj pushed
        have read' : (st.overflowArena.set s o').get s = some o' := (OverflowArena.get_set read o' s).trans (if_pos rfl)
        have found' : ({ st with overflowArena := st.overflowArena.set s o', hugeOvf := huge } : OxidArt P V).tryGetNode p = some n := found
        have tiers := Overflow.push_tiers sound put
        rw [shelf_eq found', slot, shelfOf_some read', shelfOf_some read]
        split at tiers
        next small => rw [if_pos small, tiers.1, tiers.2]
        next large' => rw [if_neg large', tiers.1, tiers.2]

theorem view_pushChildIdx (K : KidsInv st) (found : st.tryGetNode p = some n) (new : st.find p r = none) (byte : KeyByte r) {idx : Nat}
    (pushed : st.pushChildIdx p idx r = .ok st') :
    st'.view = Function.update st.view p (some { st.viewOf n with shelf := (st.viewOf n).shelf.push r idx }) := by
  obtain ⟨st₁, pushed₁, -, R, -⟩ := pushChildIdx_ok K found new byte idx
  obtain rfl := Except.ok.inj (pushed₁.symm.trans pushed)
  exact view_relinked R found (shelf_pushChildIdx K found pushed)

/-- A removal takes the link from the shelf. -/
theorem shelf_removeChild {B : UInt8 → Prop} (K : KidsInvOf B st) (found : st.tryGetNode p = some n) (r : UInt8) :
    (st.removeChild p r).shelf p = some ((st.viewOf n).shelf.remove r) := by
  have ok := TierInv.slotOk K (tier_eq found)
  have written := shelf_written found
  unfold removeChild
  simp only [found]
  cases inline : removeKey n.childs.items r with
  | some q =>
    obtain ⟨v, rest⟩ := q
    obtain ⟨c', removed, items⟩ := Childs.remove_eq inline
    simp only [removed]
    refine (written _ _ _).trans (congrArg some ?_)
    simp only [viewOf, Shelf.remove, shelfOf, inline, items]
    rfl
  | none =>
    simp only [Childs.remove_eq_none inline]
    cases slot : n.overflowIdx with
    | none =>
      simp only [shelf_eq found, slot, viewOf, shelfOf_none, Shelf.remove, inline]
      rfl
    | some s =>
      obtain ⟨o, read, -, sound⟩ := ok s slot
      have tiers := Overflow.remove_tiers sound r
      obtain ⟨v, o', huge', removed⟩ : ∃ v o' huge', o.remove st.hugeOvf r = (v, o', huge') := ⟨_, _, _, rfl⟩
      have read' : (st.overflowArena.set s o').get s = some o' := (OverflowArena.get_set read o' s).trans (if_pos rfl)
      have shelf' : (⟨n.childs.items, o'.items, o'.entries huge'⟩ : Shelf) = (st.viewOf n).shelf.remove r := by
        rw [removed] at tiers
        simp only [viewOf, slot, shelfOf_some read, Shelf.remove, inline]
        cases light : removeKey o.items r with
        | some q =>
          simp only [light] at tiers
          rw [tiers.1, tiers.2]
        | none =>
          cases big : removeKey (o.entries st.hugeOvf) r with
          | some q =>
            simp only [light, big] at tiers
            simp only [tiers.1, tiers.2]
          | none =>
            simp only [light, big] at tiers
            simp only [tiers.1, tiers.2]
      simp only [read, removed]
      split
      next empty =>
        refine (written _ _ _).trans (congrArg some ?_)
        rw [← shelf', shelfOf_none]
        rw [Overflow.isEmpty, Bool.and_eq_true, List.isEmpty_iff, Option.isNone_iff_eq_none] at empty
        rw [empty.1, Overflow.entries_of_none empty.2]
      next =>
        have found' : ({ st with overflowArena := st.overflowArena.set s o', hugeOvf := huge' } : OxidArt P V).tryGetNode p = some n :=
          found
        rw [shelf_eq found', slot, shelfOf_some read', shelf']

/-- So it does seen from the heap, also where there is no such link or no such node. -/
theorem view_removeChild {B : UInt8 → Prop} (K : KidsInvOf B st) (p : Nat) (r : UInt8) :
    (st.removeChild p r).view = modify st.view p (View.remove r) := by
  cases found : st.tryGetNode p with
  | none =>
    have idle : st.removeChild p r = st := by simp only [removeChild, found]
    rw [idle, Renaming.modify, view_eq_none.2 found, Option.map_none, ← view_eq_none.2 found, Function.update_eq_self]
  | some n =>
    have shelf := shelf_removeChild K found r
    rw [modify_eq (view_eq found)]
    cases edge : st.find p r with
    | some y => exact view_relinked (removeChild_ok K found edge).2.1 found shelf
    | none =>
      rw [removeChild_absent K edge, shelf_eq found] at shelf
      rw [removeChild_absent K edge, View.remove, ← Option.some.inj shelf]
      exact (Function.update_eq_self_iff.2 (view_eq found).symm).symm

/-- A node leaves the slab and another one loses a link. -/
theorem view_removeLeaf {B : UInt8 → Prop} (K : KidsInvOf B st) (y p : Nat) (r : UInt8) :
    ((st.removeNode y).removeChild p r).view = modify (Function.update st.view y none) p (View.remove r) := by
  rw [view_removeChild (K.removeNode y), view_removeNode]

/-! ## Recompression -/

section Reading

variable (ok : SlotOk st.overflowArena st.hugeOvf (n.childs, n.overflowIdx))

include ok

theorem single_viewOf : n.getSingleChild = (st.viewOf n).shelf.single := by
  have used := slot_none_iff ok
  unfold Node.getSingleChild Childs.oldGetSingleChild
  cases slot : n.overflowIdx with
  | none =>
    rw [viewOf, slot, shelfOf_none]
    unfold Shelf.single
    cases n.childs.items with
    | nil => rfl
    | cons p rest => cases rest <;> rfl
  | some s =>
    rw [slot] at used
    have none' : (st.viewOf n).shelf.single = none := by
      unfold Shelf.single
      split
      next q same =>
        rw [viewOf, slot] at same
        exact absurd (used.2 ⟨congrArg Shelf.light same, congrArg Shelf.huge same⟩) (Option.some_ne_none s)
      next => rfl
    rw [none']
    split
    next none'' => cases none''
    next => rfl

theorem hasChildren_viewOf : n.hasChildren = !(st.viewOf n).shelf.links.isEmpty := by
  have used := slot_none_iff ok
  unfold Node.hasChildren
  cases slot : n.overflowIdx with
  | none => simp [viewOf, slot, shelfOf_none, Shelf.links, Childs.isEmpty]
  | some s =>
    rw [slot] at used
    have tiers : (st.viewOf n).shelf.links ≠ [] := by
      intro empty
      rw [Shelf.links, List.append_eq_nil_iff, List.append_eq_nil_iff, viewOf, slot] at empty
      exact absurd (used.2 empty.2) (Option.some_ne_none s)
    simp [tiers]

end Reading

theorem view_absorbed {x y : Nat} {child : Node V} (found : st.tryGetNode x = some n) (other : y ≠ x) :
    (st.absorbed x y r n child).view = Function.update (Function.update st.view y none) x
      (some { st.viewOf child with compression := n.compression ++ r :: child.compression }) := by
  obtain ⟨parent, adopted⟩ := adopt_eq x (st.iterAllChildren y) x n
  have stores : SameStores st ((st.removeNode y).reparent x (st.iterAllChildren y)) :=
    (SameStores.removeNode st y).trans (sameStores_reparent _ _ _)
  rw [absorbed, view_setNode (tryGetNode_orphaned found other _), view_reparent, view_removeNode, viewOf, stores.arena, stores.huge,
    adopted]
  rfl

theorem view_tryRecompress {B : UInt8 → Prop} {x : Nat} (K : KidsInvOf B st) (ran : st.tryRecompress x = .ok st') :
    st'.view = Heap.recompress st.view x := by
  unfold Heap.recompress
  cases found : st.tryGetNode x with
  | none =>
    simp only [tryRecompress, found] at ran
    obtain rfl := Except.ok.inj ran
    rw [view_eq_none.2 found]
  | some n =>
    have val : (st.viewOf n).val = n.val := rfl
    have single' := single_viewOf (TierInv.slotOk K (tier_eq found))
    simp only [view_eq found, val]
    cases empty : n.val with
    | some v =>
      simp only [tryRecompress, found, empty, Option.isSome_some, if_true] at ran
      obtain rfl := Except.ok.inj ran
      rw [Option.isSome_some, if_pos rfl]
    | none =>
      rw [Option.isSome_none, if_neg Bool.false_ne_true, ← single']
      cases single : n.getSingleChild with
      | none =>
        simp only [tryRecompress, found, empty, Option.isSome_none, Bool.false_eq_true, if_false, single] at ran
        exact congrArg view (Except.ok.inj ran).symm
      | some link =>
        obtain ⟨r, y⟩ := link
        cases occupied : st.tryGetNode y with
        | none =>
          simp only [tryRecompress, found, empty, Option.isSome_none, Bool.false_eq_true, if_false, single, occupied] at ran
          obtain rfl := Except.ok.inj ran
          simp only [view_eq_none.2 occupied]
        | some child =>
          simp only [view_eq occupied]
          by_cases same : y = x
          · obtain rfl := same
            rw [tryRecompress_self found empty single] at ran
            cases ran
          · rw [tryRecompress_absorbs found empty single occupied same] at ran
            obtain rfl := Except.ok.inj ran
            exact view_absorbed found same

/-! ## Reading and writing one node -/

theorem iterAllChildren_view (found : st.tryGetNode i = some n) : st.iterAllChildren i = (st.viewOf n).shelf.links := by
  rw [iterAllChildren_of_shelf, shelf_eq found]
  rfl

theorem view_ne_none (found : st.tryGetNode i = some n) : st.view i ≠ none := by
  rw [view_eq found]
  exact Option.some_ne_none _

/-- Links lead to nodes. -/
theorem Inv.closed {cut : List Nat} {path : Nat → Option Bytes} (I : Inv st cut path) : Closed (View.cells V) st.view := by
  rintro i b a read ⟨⟨r, j⟩, member, rfl⟩
  obtain ⟨n, found, rfl⟩ := node_of_view read
  rw [← iterAllChildren_view found] at member
  obtain ⟨l, label⟩ := I.forest.kidOcc (I.kids.find_iff.2 member)
  obtain ⟨m, occupied, -⟩ := graph_label_iff.1 label
  exact view_ne_none occupied

theorem view_write (found : st.tryGetNode i = some n) {n' : Node V} {f : View V → View V} (written : st.viewOf n' = f (st.viewOf n)) :
    (st.setNode i n').view = modify st.view i f := by
  rw [view_setNode found, modify_eq (view_eq found), written]

theorem viewOf_clearVal (st : OxidArt P V) (n : Node V) : st.viewOf n.clearVal = (st.viewOf n).clear := rfl

theorem viewOf_setVal {n' : Node V} {v : V} {ttl : Nat} (small : ttl < 2 ^ 56) (ran : n.setVal v ttl = .ok n') :
    st.viewOf n' = (st.viewOf n).put (some v) (expOf ttl) := by
  obtain ⟨e, ok, exp, -⟩ := n.expAndRadix.setExp_ok small
  simp only [Node.setVal, ok] at ran
  obtain rfl := Except.ok.inj ran
  simp only [viewOf, View.put, exp, expOf]

/-! ## Insertions -/

theorem Node.content_eq_some {v : V} {e : Option Nat} : n.content = some (v, e) ↔ n.val = some v ∧ n.expAndRadix.exp = e := by
  rw [Node.content, Option.map_eq_some_iff]
  constructor
  · rintro ⟨w, held, same⟩
    obtain ⟨rfl, exp⟩ := Prod.mk.inj same
    exact ⟨held, exp⟩
  · rintro ⟨held, rfl⟩
    exact ⟨v, held, rfl⟩

theorem view_pushed (K : KidsInv st) (found : st.tryGetNode p = some n) (new : st.find p r = none) (byte : KeyByte r) {idx : Nat}
    (pushed : st.pushChildIdx p idx r = .ok st') : st'.view = modify st.view p (View.push r idx) := by
  rw [view_pushChildIdx K found new byte pushed, modify_eq (view_eq found)]
  rfl

/-- The new leaf of a value. -/
theorem view_createNodeWithVal (K : KidsInv st) (found : st.tryGetNode p = some n) (new : st.find p r = none) (byte : KeyByte r)
    {v : V} {c : Bytes} {ttl j : Nat} (small : ttl < 2 ^ 56) (ran : st.createNodeWithVal p r v c ttl = .ok (j, st')) :
    st.view j = none ∧ st'.view = Heap.hang st.view p r j (.leaf c (some v) (expOf ttl)) := by
  obtain ⟨leaf, made, content, compression, childs, overflow⟩ := Node.newLeaf_ok c v small p r
  obtain ⟨idx, st₁, ins, eq⟩ := createNodeWithVal_eq found made
  obtain ⟨K₁, finds⟩ := ins.leaf_links K childs overflow
  have found₁ : st₁.tryGetNode p = some n := by rw [ins.nodes, if_neg (ins.ne found), found]
  rw [eq] at ran
  obtain ⟨st'', pushed, same⟩ := exists_of_map ran
  obtain ⟨rfl, rfl⟩ := Prod.mk.inj same
  refine ⟨view_eq_none.2 ins.free, ?_⟩
  have seen : st.viewOf leaf = .leaf c (some v) (expOf ttl) := by
    obtain ⟨val, exp⟩ := Node.content_eq_some.1 content
    rw [viewOf, compression, val, exp, childs, overflow]
    rfl
  rw [view_pushed K₁ found₁ (by rw [finds]; exact new) byte pushed, view_inserted ins, seen]
  rfl

theorem viewOf_splitIntermediate {common ttl : Nat} {onNode : Bool} {v : V} {node : Node V} (small : ttl < 2 ^ 56)
    (made : splitIntermediate n common onNode (some ttl) (some v) = .ok node) :
    st.viewOf node = .leaf (n.compression.take common) (if onNode then some v else none) (if onNode then expOf ttl else none) := by
  cases onNode with
  | false =>
    obtain rfl := Except.ok.inj made
    simp only [viewOf, ExpAndRadix.exp_setNoExpiracy]
    rfl
  | true =>
    rw [viewOf_setVal small made]
    rfl

/-- A split, with a leaf below it unless the key ends at the split point. -/
theorem view_splitNode {cut : List Nat} {path : Nat → Option Bytes} (I : Inv st cut path) {x common ttl j : Nat} {keyRest : Bytes}
    {v : V} (small : ttl < 2 ^ 56) (found : st.tryGetNode x = some n) (inner : x ≠ st.rootIdx)
    (parts : Node.PartsAt n.compression keyRest common) (bytes : ∀ b ∈ keyRest, KeyByte b)
    (ran : st.splitNode common keyRest x (some ttl) (some v) = .ok (j, st')) :
    ∃ r y, n.compression[common]? = some r ∧ st.view y = none ∧
      if common = keyRest.length then st'.view = Heap.splitAt st.view x common r y (some v) (expOf ttl)
      else ∃ r' z, keyRest[common]? = some r' ∧ Heap.splitAt st.view x common r y none none z = none ∧
        st'.view = Heap.hang (Heap.splitAt st.view x common r y none none) x r' z
          (.leaf (keyRest.drop (common + 1)) (some v) (expOf ttl)) := by
  have small' : Request.Small (some (v, ttl)) := by
    rintro _ _ ⟨⟩
    exact small
  obtain ⟨node, r, y, st₁, made, next, whole, ins, run⟩ := splitNode_eq keyRest (some (v, ttl)) small' found parts.inside
  obtain ⟨_, made', compression, childs, overflow, -⟩ := splitIntermediate_ok n common (common == keyRest.length) small'
  obtain rfl := Except.ok.inj (made.symm.trans made')
  obtain ⟨st₂, pushed, I₂, graphs, ⟨m, found₂, -⟩, -⟩ := I.split found inner whole compression childs overflow ins rfl rfl rfl
  obtain ⟨K₁, finds⟩ := I.kids.moveDown found ins childs overflow rfl rfl
  have atX : (st.setNode x node).tryGetNode x = some node := by
    rw [tryGetNode_setNode, if_pos rfl, found]
    rfl
  have ne : x ≠ y := ins.ne atX
  have free : st.tryGetNode y = none := by
    have := ins.free
    rwa [tryGetNode_setNode, if_neg ne.symm] at this
  have found₁ : st₁.tryGetNode x = some node := by rw [ins.nodes, if_neg ne, atX]
  have byte : KeyByte r := I.labels found r (by rw [whole]; simp)
  have halves : st₂.view = Heap.splitAt st.view x common r y (if (common == keyRest.length) = true then some v else none)
      (if (common == keyRest.length) = true then expOf ttl else none) := by
    rw [view_pushed K₁ found₁ (by rw [finds, if_pos rfl]) byte pushed, view_inserted ins, view_setNode found,
      viewOf_splitIntermediate small made, Heap.splitAt, view_eq found]
    rfl
  rw [show st.splitNode common keyRest x (some ttl) (some v) = _ from run st₂ pushed] at ran
  refine ⟨r, y, next, view_eq_none.2 free, ?_⟩
  split
  next ends =>
    have onNode : (common == keyRest.length) = true := by simp [ends]
    rw [if_pos onNode] at ran
    obtain ⟨rfl, rfl⟩ := Prod.mk.inj (Except.ok.inj ran)
    rw [halves, onNode]
    rfl
  next ends =>
    have below : (common == keyRest.length) = false := by simp [ends]
    rw [below] at ran halves
    simp only [Bool.false_eq_true, if_false] at ran halves
    obtain ⟨r', next'⟩ : ∃ r', keyRest[common]? = some r' := ⟨_, List.getElem?_eq_getElem (Nat.lt_of_le_of_ne parts.bound ends)⟩
    have other : r' ≠ r := by
      rintro rfl
      exact (parts.leave.resolve_left ends) (next.trans next'.symm)
    have unused : st₂.find x r' = none := by
      change st₂.graph.kid x r' = none
      rw [graphs]
      simp [Graph.split, other]
    simp only [splitLeaf, Option.map_some, next', Option.getD_some] at ran
    obtain ⟨free', view'⟩ := view_createNodeWithVal I₂.kids found₂ unused (bytes r' (List.mem_of_getElem? next')) small ran
    rw [halves] at free' view'
    exact ⟨r', j, next', free', view'⟩

/-! ## Removals -/

section Remove

variable {cut : List Nat} {path : Nat → Option Bytes}

/-- The only link of a node leads to another one. -/
theorem Inv.single_live (I : Inv st cut path) {b : View V} {j : Nat} (read : st.view p = some b) (single : b.shelf.single = some (r, j)) :
    st.view j ≠ none ∧ j ≠ p := by
  have member := Shelf.single_mem single
  refine ⟨I.closed p b j read ⟨_, member, rfl⟩, ?_⟩
  obtain ⟨n, found, rfl⟩ := node_of_view read
  rw [← iterAllChildren_view found] at member
  obtain ⟨rank, lower⟩ := I.forest.acyclic
  rintro rfl
  exact Nat.lt_irrefl _ (lower (I.kids.find_iff.2 member))

theorem view_clearNode (I : Inv st cut path) (found : st.tryGetNode i = some n) (ran : (st.setNode i n.clearVal).tryRecompress i = .ok st') :
    st'.view = Heap.recompress (modify st.view i View.clear) i := by
  have I₁ : Inv (st.setNode i n.clearVal) cut path := I.setNode found rfl rfl rfl rfl
  rw [view_tryRecompress I₁.kids ran, view_write found (viewOf_clearVal st n)]

end Remove

end OxidArt

end Radixox.Oxidart
