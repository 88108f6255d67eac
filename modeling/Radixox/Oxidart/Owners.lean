import Radixox.Oxidart.RawValues

/-!
# Who owns the value slots

A slot of a value slab is owned by the node whose raw value names it. Every operation moves ownership along with the value, except the
three that make a container: over a value that has expired they overwrite tag and union without dropping them, and the slot is lost.
`Accounts` keeps the books: the occupied slots are those that nodes hold and those that were lost before.
-/

namespace Radixox.Oxidart
set_option autoImplicit false
open Radixox.Outcomes Radixox.Runs

/-- What is taken in and given out on both sides of a balance leaves the difference as it was, up to what one side forgets. -/
theorem balance {M : Type} [AddCommMonoid M] [IsLeftCancelAdd M] {all held lost all' held' new freed forgotten : M}
    (books : all = held + lost) (stock : freed + all' = new + all) (shelf : freed + forgotten + held' = new + held) :
    all' = held' + (forgotten + lost) := by
  refine add_left_cancel (a := freed) ?_
  calc freed + all' = new + all := stock
    _ = new + held + lost := by rw [books, add_assoc]
    _ = freed + forgotten + held' + lost := by rw [shelf]
    _ = freed + (held' + (forgotten + lost)) := by rw [add_assoc freed, add_comm forgotten, add_assoc, add_assoc]

theorem balance_kept {M : Type} [AddCommMonoid M] [IsLeftCancelAdd M] {all held lost all' held' new freed : M}
    (books : all = held + lost) (stock : freed + all' = new + all) (shelf : freed + held' = new + held) : all' = held' + lost := by
  have shelf' : freed + 0 + held' = new + held := by rw [add_zero, shelf]
  rw [balance books stock shelf', zero_add]

theorem balance_released {M : Type} [AddCommMonoid M] [IsLeftCancelAdd M] {all held lost all' held' freed : M}
    (books : all = held + lost) (stock : all = freed + all') (shelf : held = freed + held') : all' = held' + lost :=
  add_left_cancel (a := freed) (by rw [← stock, books, shelf, add_assoc])

/-! ## The slabs -/

namespace Slabs

variable {P : Policy} {S : Type} [Score S] {slabs slabs' : Slabs P S} {kind kind' : SlabKind} {idx : Nat}

/-- The occupied slots of a slab. -/
def occupied (slabs : Slabs P S) (kind : SlabKind) : Multiset Nat := (slabs kind).occupied

theorem slotOf_slot : (RawVal.slot kind' idx).slotOf kind = if kind' = kind then some idx else none := rfl

theorem occupied_alloc (slabs : Slabs P S) (kind kind' : SlabKind) (content : kind'.Content S) :
    (slabs.alloc kind' content).2.occupied kind =
      occurrence ((RawVal.slot kind' (slabs.alloc kind' content).1).slotOf kind) + slabs.occupied kind := by
  by_cases same : kind = kind'
  · subst same
    rw [slotOf_slot, if_pos rfl, occurrence_some, Multiset.singleton_add]
    show (Function.update slabs kind _ kind).occupied = _
    rw [Function.update_self]
    exact TaggedHiSlab.occupied_insertSlot (slabs kind) _
  · rw [slotOf_slot, if_neg (Ne.symm same), occurrence_none, zero_add]
    show (Function.update slabs kind' _ kind).occupied = _
    rw [Function.update_of_ne same]
    rfl

theorem occupied_free (slabs : Slabs P S) {kind kind' : SlabKind}
    (owns : ∀ j, (RawVal.slot kind' idx).slotOf kind = some j → j ∈ slabs.occupied kind) :
    slabs.occupied kind = occurrence ((RawVal.slot kind' idx).slotOf kind) + (slabs.free kind' idx).occupied kind := by
  by_cases same : kind = kind'
  · subst same
    have inside := owns idx (if_pos rfl)
    obtain ⟨content, found⟩ := Option.ne_none_iff_exists'.1 (TaggedHiSlab.mem_occupied.1 inside)
    rw [slotOf_slot, if_pos rfl, occurrence_some, Multiset.singleton_add]
    show _ = idx ::ₘ (Function.update slabs kind _ kind).occupied
    rw [Function.update_self]
    exact TaggedHiSlab.occupied_remove found
  · rw [slotOf_slot, if_neg (Ne.symm same), occurrence_none, zero_add]
    show _ = (Function.update slabs kind' _ kind).occupied
    rw [Function.update_of_ne same]
    rfl

theorem occupied_write (slabs : Slabs P S) (kind kind' : SlabKind) (idx : Nat) (content : kind'.Content S) :
    (slabs.write kind' idx content).occupied kind = slabs.occupied kind := by
  by_cases same : kind = kind'
  · subst same
    show (Function.update slabs kind _ kind).occupied = _
    rw [Function.update_self]
    exact TaggedHiSlab.occupied_set (slabs kind) idx content
  · show (Function.update slabs kind' _ kind).occupied = _
    rw [Function.update_of_ne same]
    rfl

/-- A value that goes into a node takes the slot that it owns there. -/
theorem occupied_valueIntoRaw (slabs : Slabs P S) (val : Value S) (kind : SlabKind) :
    (slabs.valueIntoRaw val).2.occupied kind = occurrence ((slabs.valueIntoRaw val).1.slotOf kind) + slabs.occupied kind := by
  cases val with
  | int | string => exact (zero_add _).symm
  | hash | set | zset | list => exact occupied_alloc slabs kind _ _

theorem occupied_valueTakeRaw {raw : RawVal} {val : Value S} (ran : slabs.valueTakeRaw raw = .ok (val, slabs')) (kind : SlabKind) :
    slabs.occupied kind = occurrence (raw.slotOf kind) + slabs'.occupied kind := by
  cases raw with
  | int | bytes =>
    obtain ⟨-, rfl⟩ := Prod.mk.inj (Except.ok.inj ran)
    exact (zero_add _).symm
  | slot kind' idx =>
    cases found : (slabs kind').get idx with
    | none =>
      simp only [valueTakeRaw, found] at ran
      cases ran
    | some content =>
      simp only [valueTakeRaw, found] at ran
      obtain ⟨-, rfl⟩ := Prod.mk.inj (Except.ok.inj ran)
      refine occupied_free slabs fun j here => ?_
      rw [slotOf_slot] at here
      split at here
      next same =>
        obtain rfl := Option.some.inj here
        subst same
        exact TaggedHiSlab.mem_occupied.2 (found ▸ Option.some_ne_none content)
      next => cases here

theorem occupied_dropRaw {raw : RawVal} (owns : ∀ j, raw.slotOf kind = some j → j ∈ slabs.occupied kind) :
    slabs.occupied kind = occurrence (raw.slotOf kind) + (slabs.dropRaw raw).occupied kind := by
  cases raw with
  | int | bytes => exact (zero_add _).symm
  | slot kind' idx => exact occupied_free slabs owns

/-- Values that own different slots give all of them back. -/
theorem occupied_dropAll {vals : List RawVal} : ∀ {slabs : Slabs P S}, ↑(vals.filterMap (RawVal.slotOf kind)) ≤ slabs.occupied kind →
    slabs.occupied kind = ↑(vals.filterMap (RawVal.slotOf kind)) + (slabs.dropAll vals).occupied kind := by
  induction vals with
  | nil => exact fun _ => (zero_add _).symm
  | cons raw rest ih =>
    intro slabs owns
    have split : (↑((raw :: rest).filterMap (RawVal.slotOf kind)) : Multiset Nat) =
        occurrence (raw.slotOf kind) + ↑(rest.filterMap (RawVal.slotOf kind)) :=
      filterMap_cons_occurrence (RawVal.slotOf kind) raw ↑rest
    rw [split] at owns ⊢
    have dropped : slabs.occupied kind = occurrence (raw.slotOf kind) + (slabs.dropRaw raw).occupied kind := by
      refine occupied_dropRaw fun j here => Multiset.mem_of_le owns (Multiset.mem_add.2 (.inl ?_))
      rw [here]
      exact Multiset.mem_singleton_self j
    rw [dropped] at owns
    rw [dropped, ih (le_of_add_le_add_left owns), add_assoc]
    rfl

end Slabs

/-! ## The books -/

namespace RawStore

variable {P : Policy} {S : Type} [Score S] {s s' : RawStore P S} {kind : SlabKind} {lost : Multiset Nat} {key : Bytes}

/-- The slots that the nodes of a tree own in a slab. -/
def slots (tree : OxidArt P RawVal) (kind : SlabKind) : Multiset Nat := tree.holdings.filterMap (RawVal.slotOf kind)

/-- The slots of the slab are those that the nodes own, and `lost`. -/
def Accounts (s : RawStore P S) (kind : SlabKind) (lost : Multiset Nat) : Prop := s.slabs.occupied kind = slots s.tree kind + lost

theorem slots_released {tree tree' : OxidArt P RawVal} {out : Multiset RawVal} (moved : tree.holdings = out + tree'.holdings)
    (kind : SlabKind) : slots tree kind = out.filterMap (RawVal.slotOf kind) + slots tree' kind := by
  rw [slots, slots, ← Multiset.filterMap_add, moved]

theorem slots_congr {tree tree' : OxidArt P RawVal} {out new : Multiset RawVal} (moved : out + tree'.holdings = new + tree.holdings)
    (kind : SlabKind) : out.filterMap (RawVal.slotOf kind) + slots tree' kind = new.filterMap (RawVal.slotOf kind) + slots tree kind := by
  rw [slots, slots, ← Multiset.filterMap_add, ← Multiset.filterMap_add, moved]

/-- What the nodes hold is occupied. -/
theorem Accounts.le (A : s.Accounts kind lost) {held rest : Multiset RawVal} (part : s.tree.holdings = held + rest) :
    held.filterMap (RawVal.slotOf kind) ≤ s.slabs.occupied kind := by
  rw [A, slots, part, Multiset.filterMap_add, add_assoc]
  exact Multiset.le_add_right _ _

theorem accounts_new : (new : RawStore P S).Accounts kind 0 := rfl

theorem occupied_takeVal {slabs slabs' : Slabs P S} {raw : Option RawVal} {val : Option (Value S)}
    (ran : takeVal slabs raw = .ok (val, slabs')) (kind : SlabKind) :
    slabs.occupied kind = (occurrence raw).filterMap (RawVal.slotOf kind) + slabs'.occupied kind := by
  cases raw with
  | none =>
    obtain ⟨-, rfl⟩ := Prod.mk.inj (Except.ok.inj ran)
    exact (zero_add _).symm
  | some raw =>
    obtain ⟨q, taken, same⟩ := exists_of_bind ran
    obtain ⟨-, rfl⟩ := Prod.mk.inj (Except.ok.inj same)
    rw [Slabs.occupied_valueTakeRaw taken kind, filterMap_occurrence, Option.bind_some]

/-- Only integers and byte strings can be incremented. -/
theorem slotOf_of_incr {v : RawVal} {delta m : Int64} (added : v.incr delta = .ok m) : v.slotOf kind = none := by
  cases v with
  | int | bytes => rfl
  | slot => cases added

theorem val_of_getValue {V : Type} {n : Node V} {now : Nat} {v : V} (seen : n.getValue now = some v) : n.val = some v := by
  unfold Node.getValue at seen
  split at seen
  · cases seen
  · exact seen

namespace Accounts

/-- The contents of a slot change. -/
theorem changeIn {α : Type} {kind' : SlabKind} {got : Exec (Except TypeError Nat × RawStore P S)}
    {change : kind'.Content S → α × kind'.Content S} {reply : Except TypeError α} {lost' : Multiset Nat}
    (kept : ∀ res s₁, got = .ok (res, s₁) → s₁.Accounts kind lost') (ran : RawStore.changeIn got kind' change = .ok (reply, s')) :
    s'.Accounts kind lost' := by
  obtain ⟨⟨res, s₁⟩, ran', rest⟩ := exists_of_bind ran
  have A' := kept res s₁ ran'
  cases res with
  | error e =>
    obtain ⟨-, rfl⟩ := Prod.mk.inj (Except.ok.inj rest)
    exact A'
  | ok idx =>
    cases read : (s₁.slabs kind').get idx with
    | none =>
      simp only [read] at rest
      cases rest
    | some content =>
      simp only [read] at rest
      obtain ⟨-, rfl⟩ := Prod.mk.inj (Except.ok.inj rest)
      exact (Slabs.occupied_write s₁.slabs kind kind' idx _).trans A'

section Step

variable (A : s.Accounts kind lost)

include A

/-- A write gives back the slot of the value that it replaces. -/
theorem setInternal {ttl : Nat} {val : Value S} (ran : s.setInternal key ttl val = .ok s') : s'.Accounts kind lost := by
  obtain ⟨rest, part⟩ := OxidArt.holdings_occupant s.tree key
  have given : s.slabs.occupied kind = ↑((s.tree.occupant key).toList.filterMap (RawVal.slotOf kind)) +
      (s.slabs.dropAll (s.tree.occupant key).toList).occupied kind := Slabs.occupied_dropAll (A.le part)
  have taken := Slabs.occupied_valueIntoRaw (s.slabs.dropAll (s.tree.occupant key).toList) val kind
  obtain ⟨raw, slabs, into⟩ : ∃ raw slabs, (s.slabs.dropAll (s.tree.occupant key).toList).valueIntoRaw val = (raw, slabs) := ⟨_, _, rfl⟩
  rw [into] at taken
  simp only [RawStore.setInternal, into] at ran
  obtain ⟨tree, written, same⟩ := exists_of_bind ran
  obtain rfl := Except.ok.inj same
  refine balance_kept A ?_ (slots_congr (OxidArt.holdings_setInternal written) kind)
  rw [← occurrence_some, filterMap_occurrence (RawVal.slotOf kind) (some raw), Option.bind_some, given]
  exact (congrArg (_ + ·) taken).trans (add_left_comm _ _ _)

/-- A lookup gives back the slot of the value that it finds expired. -/
theorem get {val : Option (Value S)} (ran : s.get key = .ok (val, s')) : s'.Accounts kind lost := by
  obtain ⟨⟨raw, tree⟩, looked, ran⟩ := exists_of_bind ran
  have left := OxidArt.holdings_get looked
  have same : s' = ⟨tree, s.slabs.dropAll (s.tree.lapsed key).toList⟩ := by
    cases raw with
    | none => exact (Prod.mk.inj (Except.ok.inj ran)).2.symm
    | some raw =>
      obtain ⟨val', -, same⟩ := exists_of_bind ran
      exact (Prod.mk.inj (Except.ok.inj same)).2.symm
  subst same
  exact balance_released A (Slabs.occupied_dropAll (A.le left)) (slots_released left kind)

theorem del {val : Option (Value S)} (ran : s.del key = .ok (val, s')) : s'.Accounts kind lost := by
  obtain ⟨⟨raw, tree⟩, deleted, ran⟩ := exists_of_bind ran
  obtain ⟨⟨val', slabs⟩, taken, same⟩ := exists_of_bind ran
  obtain ⟨-, rfl⟩ := Prod.mk.inj (Except.ok.inj same)
  exact balance_released A (occupied_takeVal taken kind) (slots_released (OxidArt.holdings_del deleted) kind)

/-- First the value of the root, then the values of the freed nodes. -/
theorem deln {pfx : Bytes} {count : Nat} (ran : s.deln pfx = .ok (count, s')) : s'.Accounts kind lost := by
  obtain ⟨⟨root, slabs⟩, taken, ran⟩ := exists_of_bind ran
  obtain ⟨⟨count', tree⟩, deleted, same⟩ := exists_of_bind ran
  obtain ⟨-, rfl⟩ := Prod.mk.inj (Except.ok.inj same)
  have left : slots s.tree kind = (occurrence (if pfx.isEmpty then s.tree.occupant pfx else none)).filterMap (RawVal.slotOf kind) +
      (Multiset.filterMap (RawVal.slotOf kind) ↑(s.tree.delnValues pfx) + slots tree kind) := by
    rw [slots, slots, OxidArt.holdings_deln deleted, Multiset.filterMap_add, Multiset.filterMap_add]
  have stock := occupied_takeVal taken kind
  have books : slabs.occupied kind = (Multiset.filterMap (RawVal.slotOf kind) ↑(s.tree.delnValues pfx) + slots tree kind) + lost := by
    exact balance_released A stock left
  refine balance_released books (Slabs.occupied_dropAll ?_) rfl
  rw [books, add_assoc]
  exact Multiset.le_add_right _ _

/-- An integer replaces an integer or a byte string. -/
theorem incrby {delta : Int64} {reply : Except IntError Int64} (ran : s.incrby key delta = .ok (reply, s')) : s'.Accounts kind lost := by
  have made : (do return (.ok delta, ← s.set key (.int delta))) = (.ok (reply, s') : Exec _) → s'.Accounts kind lost := by
    intro ran
    obtain ⟨s₁, written, same⟩ := exists_of_bind ran
    obtain ⟨-, rfl⟩ := Prod.mk.inj (Except.ok.inj same)
    exact A.setInternal written
  unfold RawStore.incrby at ran
  cases target : s.tree.traverseToKey key with
  | none =>
    simp only [target] at ran
    exact made ran
  | some i =>
    simp only [target] at ran
    obtain ⟨n, read, ran⟩ := exists_of_bind ran
    cases seen : n.getValue s.tree.now with
    | none =>
      simp only [seen, Option.map_none, pure, Except.pure, bind, Except.bind] at ran
      exact made ran
    | some v =>
      simp only [seen, Option.map_some, pure, Except.pure, bind, Except.bind] at ran
      cases added : v.incr delta with
      | error e =>
        simp only [added] at ran
        obtain ⟨-, rfl⟩ := Prod.mk.inj (Except.ok.inj ran)
        exact A
      | ok m =>
        simp only [added] at ran
        obtain ⟨tree, put, same⟩ := exists_of_bind ran
        obtain ⟨-, rfl⟩ := Prod.mk.inj (Except.ok.inj same)
        have moved := slots_congr (OxidArt.holdings_putVal (OxidArt.tryGetNode_of_getNode read) put) kind
        rw [val_of_getValue seen, filterMap_occurrence, Option.bind_some, slotOf_of_incr added] at moved
        exact balance_kept A rfl moved

/-- A new container takes a slot, and its node forgets the one that it owned. -/
theorem getContainer {kind' : SlabKind} {empty : kind'.Content S} {ttl : Option Nat} {res : Except TypeError (Nat × Nat × Bool)}
    (ran : s.getContainer kind' empty ttl key = .ok (res, s')) :
    s'.Accounts kind (occurrence ((s.tree.lapsed key).bind (RawVal.slotOf kind)) + lost) := by
  have taken := Slabs.occupied_alloc s.slabs kind kind' empty
  obtain ⟨fresh, grown, alloc⟩ : ∃ fresh grown, s.slabs.alloc kind' empty = (fresh, grown) := ⟨_, _, rfl⟩
  rw [alloc] at taken
  simp only [RawStore.getContainer, alloc] at ran
  obtain ⟨⟨res', tree⟩, got, ran⟩ := exists_of_bind ran
  have moved := slots_congr (OxidArt.holdings_getOrCreate got) kind
  rw [filterMap_occurrence, filterMap_occurrence] at moved
  -- The slabs grow exactly when a container is made.
  have settle : ∀ {slabs : Slabs P S}, s' = ⟨tree, slabs⟩ →
      slabs.occupied kind = occurrence ((OxidArt.madeBy (.slot kind' fresh) res').bind (RawVal.slotOf kind)) + s.slabs.occupied kind →
      s'.Accounts kind (occurrence ((s.tree.lapsed key).bind (RawVal.slotOf kind)) + lost) := by
    rintro slabs rfl stock
    refine balance A ((zero_add _).trans stock) ?_
    rw [zero_add]
    exact moved
  cases res' with
  | error e =>
    obtain ⟨-, rfl⟩ := Prod.mk.inj (Except.ok.inj ran)
    exact settle rfl (zero_add _).symm
  | ok q =>
    obtain ⟨node, v, created⟩ := q
    have same : s' = ⟨tree, if created then grown else s.slabs⟩ := by
      dsimp only at ran
      split at ran
      · exact (Prod.mk.inj (Except.ok.inj ran)).2.symm
      · exact (Prod.mk.inj (Except.ok.inj ran)).2.symm
    refine settle same ?_
    cases created with
    | false => exact (zero_add _).symm
    | true => exact taken

theorem getHashMut {ttl : Option Nat} {res : Except TypeError Nat} (ran : s.getHashMut ttl key = .ok (res, s')) :
    s'.Accounts kind (occurrence ((s.tree.lapsed key).bind (RawVal.slotOf kind)) + lost) := by
  obtain ⟨⟨res', s₁⟩, got, same⟩ := exists_of_bind ran
  obtain ⟨-, rfl⟩ := Prod.mk.inj (Except.ok.inj same)
  exact A.getContainer got

theorem getBtreeSetMut {ttl : Option Nat} {res : Except TypeError Nat} (ran : s.getBtreeSetMut ttl key = .ok (res, s')) :
    s'.Accounts kind (occurrence ((s.tree.lapsed key).bind (RawVal.slotOf kind)) + lost) := by
  obtain ⟨⟨res', s₁⟩, got, same⟩ := exists_of_bind ran
  obtain ⟨-, rfl⟩ := Prod.mk.inj (Except.ok.inj same)
  exact A.getContainer got

theorem getZsetMut {ttl : Option Nat} {res : Except TypeError Nat} (ran : s.getZsetMut ttl key = .ok (res, s')) :
    s'.Accounts kind (occurrence ((s.tree.lapsed key).bind (RawVal.slotOf kind)) + lost) := by
  obtain ⟨⟨res', s₁⟩, got, rest⟩ := exists_of_bind ran
  have A' := A.getContainer got
  cases res' with
  | error e =>
    obtain ⟨-, rfl⟩ := Prod.mk.inj (Except.ok.inj rest)
    exact A'
  | ok q =>
    obtain ⟨-, rfl⟩ := Prod.mk.inj (Except.ok.inj rest)
    dsimp only
    split
    · exact A'.trans (by rw [slots, slots, OxidArt.holdings_tag])
    · exact A'

end Step

end Accounts

/-- The slot that the operation makes its node forget: a container is created over a value that has expired. -/
def forgets (s : RawStore P S) (kind : SlabKind) : SlotOp S → Option Nat
  | .hset key .. | .sadd key .. | .zadd key .. => (s.tree.lapsed key).bind (RawVal.slotOf kind)
  | _ => none

/-- The operation creates no container over an expired value that owns a slot of the slab. -/
def Retains (kind : SlabKind) (s : RawStore P S) (op : SlotOp S) : Prop := s.forgets kind op = none

instance (s : RawStore P S) (op : SlotOp S) : Decidable (Retains kind s op) := inferInstanceAs (Decidable (_ = none))

/-- One operation: the books are kept, and what a node forgets is lost. -/
theorem Accounts.exec (A : s.Accounts kind lost) {op : SlotOp S} {reply : Reply S} (ran : s.exec op = .ok (reply, s')) :
    s'.Accounts kind (occurrence (s.forgets kind op) + lost) := by
  have nothing : s'.Accounts kind lost → s'.Accounts kind (occurrence none + lost) := fun A' => by rwa [occurrence_none, zero_add]
  cases op with
  | set key val | setTtl key ttl val =>
    obtain ⟨s₁, written, same⟩ := exists_of_bind ran
    obtain ⟨-, rfl⟩ := Prod.mk.inj (Except.ok.inj same)
    exact nothing (A.setInternal written)
  | incrby key delta =>
    obtain ⟨⟨r, s₁⟩, inner, same⟩ := exists_of_map ran
    obtain ⟨-, rfl⟩ := Prod.mk.inj same
    exact nothing (A.incrby inner)
  | get key =>
    obtain ⟨⟨r, s₁⟩, inner, same⟩ := exists_of_map ran
    obtain ⟨-, rfl⟩ := Prod.mk.inj same
    exact nothing (A.get inner)
  | del key =>
    obtain ⟨⟨r, s₁⟩, inner, same⟩ := exists_of_map ran
    obtain ⟨-, rfl⟩ := Prod.mk.inj same
    exact nothing (A.del inner)
  | deln pfx =>
    obtain ⟨⟨r, s₁⟩, inner, same⟩ := exists_of_map ran
    obtain ⟨-, rfl⟩ := Prod.mk.inj same
    exact nothing (A.deln inner)
  | hset key fieldValues ttl =>
    obtain ⟨⟨r, s₁⟩, inner, same⟩ := exists_of_map ran
    obtain ⟨-, rfl⟩ := Prod.mk.inj same
    exact .changeIn (fun _ _ got => A.getHashMut got) inner
  | sadd key members ttl =>
    obtain ⟨⟨r, s₁⟩, inner, same⟩ := exists_of_map ran
    obtain ⟨-, rfl⟩ := Prod.mk.inj same
    exact .changeIn (fun _ _ got => A.getBtreeSetMut got) inner
  | zadd key scoreMembers ttl =>
    obtain ⟨⟨r, s₁⟩, inner, same⟩ := exists_of_map ran
    obtain ⟨-, rfl⟩ := Prod.mk.inj same
    exact .changeIn (fun _ _ got => A.getZsetMut got) inner
  | setNow now =>
    obtain ⟨-, rfl⟩ := Prod.mk.inj (Except.ok.inj ran)
    exact nothing A

/-! ## One owner for each slot -/

/-- The node's tag and union name the slot. -/
def Refers (s : RawStore P S) (i : Nat) (kind : SlabKind) (idx : Nat) : Prop :=
  ∃ n, s.tree.tryGetNode i = some n ∧ n.val = some (.slot kind idx)

/-- Every occupied slot of the slab has exactly one node, and every node that names a slot names an occupied one. -/
structure Exact (s : RawStore P S) (kind : SlabKind) : Prop where
  owned : ∀ idx, (s.slabs kind).get idx ≠ none → ∃! i, s.Refers i kind idx
  occupied : ∀ i idx, s.Refers i kind idx → (s.slabs kind).get idx ≠ none

theorem slotOf_eq_some {raw : RawVal} {idx : Nat} : raw.slotOf kind = some idx ↔ raw = .slot kind idx := by
  cases raw with
  | int | bytes => simp [RawVal.slotOf]
  | slot kind' j =>
    rw [Slabs.slotOf_slot, RawVal.slot.injEq]
    split
    next same => simp [same]
    next other => simp [other]

theorem mem_slots {idx : Nat} : idx ∈ slots s.tree kind ↔ ∃ i, s.Refers i kind idx := by
  simp only [slots, OxidArt.holdings, Multiset.mem_filterMap, TaggedHiSlab.mem_items, slotOf_eq_some]
  constructor
  · rintro ⟨_, ⟨n, ⟨i, found⟩, held⟩, rfl⟩
    exact ⟨i, n, found, held⟩
  · rintro ⟨i, n, found, held⟩
    exact ⟨_, ⟨n, ⟨i, found⟩, held⟩, rfl⟩

/-- A slot that is owned once has one node. -/
theorem refers_unique (once : (slots s.tree kind).Nodup) {i j idx : Nat} (left : s.Refers i kind idx) (right : s.Refers j kind idx) :
    i = j := by
  obtain ⟨n, found, held⟩ := left
  obtain ⟨m, found', held'⟩ := right
  by_contra other
  have apart : (s.tree.removeNode i).tryGetNode j = some m := by rw [OxidArt.tryGetNode_removeNode, if_neg (Ne.symm other), found']
  have own : occurrence ((RawVal.slot kind idx).slotOf kind) = {idx} := by rw [slotOf_eq_some.2 rfl, occurrence_some]
  rw [slots, OxidArt.holdings_removeNode found, OxidArt.holdings_removeNode apart, held, held', Multiset.filterMap_add,
    Multiset.filterMap_add, filterMap_occurrence, Option.bind_some, own, Multiset.singleton_add, Multiset.singleton_add,
    Multiset.nodup_cons] at once
  exact once.1 (Multiset.mem_cons_self idx _)

/-- No slot is shared, and no node names a free one, whatever has been lost. -/
theorem Accounts.unshared (A : s.Accounts kind lost) : (∀ i j idx, s.Refers i kind idx → s.Refers j kind idx → i = j) ∧
    ∀ i idx, s.Refers i kind idx → (s.slabs kind).get idx ≠ none := by
  have distinct := TaggedHiSlab.nodup_occupied (s.slabs kind)
  have books : (s.slabs kind).occupied = slots s.tree kind + lost := A
  rw [books, Multiset.nodup_add] at distinct
  refine ⟨fun i j idx => refers_unique distinct.1, fun i idx names => ?_⟩
  rw [← TaggedHiSlab.mem_occupied, books]
  exact Multiset.mem_add.2 (.inl (mem_slots.2 ⟨i, names⟩))

/-- Ownership is exact when nothing is lost. -/
theorem Accounts.exact_iff (A : s.Accounts kind lost) : s.Exact kind ↔ lost = 0 := by
  obtain ⟨alone, live⟩ := A.unshared
  have books : (s.slabs kind).occupied = slots s.tree kind + lost := A
  constructor
  · intro exact
    refine Multiset.eq_zero_of_forall_notMem fun idx missing => ?_
    have inside : idx ∈ (s.slabs kind).occupied := by
      rw [books]
      exact Multiset.mem_add.2 (.inr missing)
    obtain ⟨i, names, -⟩ := exact.owned idx (TaggedHiSlab.mem_occupied.1 inside)
    have distinct := TaggedHiSlab.nodup_occupied (s.slabs kind)
    rw [books, Multiset.nodup_add] at distinct
    exact Multiset.disjoint_left.1 distinct.2.2 (mem_slots.2 ⟨i, names⟩) missing
  · rintro rfl
    refine ⟨fun idx occupied => ?_, live⟩
    have inside := TaggedHiSlab.mem_occupied.2 occupied
    rw [books, add_zero, mem_slots] at inside
    obtain ⟨i, names⟩ := inside
    exact ⟨i, names, fun j names' => alone j i idx names' names⟩

/-- The books of a run: whatever its nodes forget is lost, and stays lost. -/
theorem Accounts.run {ops : List (SlotOp S)} : ∀ {s : RawStore P S} {lost : Multiset Nat}, s.Accounts kind lost →
    ∀ {replies s'}, Runs.run RawStore.exec ops s = .ok (replies, s') →
    ∃ lost', s'.Accounts kind lost' ∧ (lost' = 0 ↔ lost = 0 ∧ Meets RawStore.exec (Retains kind) ops s) := by
  induction ops with
  | nil =>
    intro s lost A replies s' ran
    obtain ⟨-, rfl⟩ := Prod.mk.inj (Except.ok.inj ran)
    exact ⟨lost, A, by simp [Meets]⟩
  | cons op rest ih =>
    intro s lost A replies s' ran
    obtain ⟨⟨reply, s₁⟩, taken, ran⟩ := exists_of_bind ran
    obtain ⟨⟨replies', s₂⟩, others, same⟩ := exists_of_bind ran
    obtain ⟨-, rfl⟩ := Prod.mk.inj (Except.ok.inj same)
    obtain ⟨lost', A', clean⟩ := ih (A.exec taken) others
    refine ⟨lost', A', clean.trans ?_⟩
    have nothing : occurrence (s.forgets kind op) + lost = 0 ↔ Retains kind s op ∧ lost = 0 := by
      unfold Retains
      cases s.forgets kind op <;> simp
    simp only [Meets, taken, nothing]
    tauto

/-- What is lost is never handed to a second node: in every run, two nodes own different slots, and all of them are occupied. -/
theorem run_unshared (ops : List (SlotOp S)) {replies : List (Reply S)} (ran : run exec ops (new : RawStore P S) = .ok (replies, s))
    (kind : SlabKind) : (∀ i j idx, s.Refers i kind idx → s.Refers j kind idx → i = j) ∧
      ∀ i idx, s.Refers i kind idx → (s.slabs kind).get idx ≠ none := by
  obtain ⟨lost, A, -⟩ := Accounts.run (accounts_new : (new : RawStore P S).Accounts kind 0) ran
  exact A.unshared

/-- Every slot of a value slab has one owner after a run exactly when no step of the run created a container over an expired
value that owned a slot of that slab. -/
theorem run_owners_iff (ops : List (SlotOp S)) {replies : List (Reply S)} (ran : run exec ops (new : RawStore P S) = .ok (replies, s))
    (kind : SlabKind) : s.Exact kind ↔ Meets exec (Retains kind) ops (new : RawStore P S) := by
  obtain ⟨lost, A, clean⟩ := accounts_new.run ran
  rw [A.exact_iff, clean]
  exact and_iff_right rfl

/-- Hashes that are split, overwritten, collected as expired, made again, deleted and freed with a subtree. -/
def mixedHashes : List (SlotOp Int) :=
  [.hset [97, 98] [([102], [118])] (some 5), .hset [97, 99] [([102], [118])] none, .set [97, 99] (.hash .new), .setNow 6, .get [97, 98],
    .hset [97, 98] [([103], [119])] (some 20), .del [97, 99], .deln [97],
    .hset [98] [([102], [118])] none, .hset [98, 97] [([102], [118])] (some 30)]

theorem run_owners_iff_mixedHashes : ∃ replies s, run exec mixedHashes (new : RawStore .lowest Int) = .ok (replies, s) ∧ s.Exact .hash := by
  have retains : Meets exec (Retains .hash) mixedHashes (new : RawStore .lowest Int) := by decide +kernel
  exact ⟨_, _, rfl, (run_owners_iff mixedHashes rfl .hash).2 retains⟩

/-- A hash made over an expired one leaves the old slot behind. -/
theorem hset_overExpired_leaks : ∃ replies s, run exec [.hset [107] [([102], [118])] (some 5), .setNow 6,
      .hset [107] [([102], [119])] (some 20)] (new : RawStore .lowest Int) = .ok (replies, s) ∧ ¬ s.Exact .hash := by
  refine ⟨_, _, rfl, fun exact => ?_⟩
  obtain ⟨i, names, -⟩ := exact.owned 0 (by decide +kernel)
  have inside := mem_slots.2 ⟨i, names⟩
  revert inside
  decide +kernel

end RawStore

end Radixox.Oxidart
