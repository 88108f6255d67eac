import Radixox.Lib.Sampling
import Radixox.Oxidart.Backing
import Radixox.Oxidart.Images
import Radixox.Oxidart.Owners

/-!
# The slabs behind the typed store

The code keeps a tag with an index in its nodes; the typed commands speak of whole values. Both are images of one tree over backed
values, and every command keeps them so: the store over the slabs replies what the typed store replies, in every run, whatever slots
it has lost on the way.
-/

namespace Radixox.Oxidart
set_option autoImplicit false
open Radixox.Lockstep Radixox.Outcomes Radixox.Runs Radixox.Sampling

/-! ## Values that stay -/

namespace OxidArt

variable {P : Policy} {V : Type} {st st' : OxidArt P V} {key : Bytes} {i : Nat} {n : Node V}

theorem mem_holdings (found : st.tryGetNode i = some n) {v : V} (val : n.val = some v) : v ∈ st.holdings := by
  obtain ⟨rest, part⟩ := holdings_part found
  rw [part, val, occurrence_some, Multiset.singleton_add]
  exact Multiset.mem_cons_self v rest

theorem mem_holdings_getValue (found : st.tryGetNode i = some n) {now : Nat} {v : V} (seen : n.getValue now = some v) :
    v ∈ st.holdings := mem_holdings found (RawStore.val_of_getValue seen)

theorem mem_holdings_get {v : V} (ran : st.get key = .ok (some v, st')) : v ∈ st'.holdings := by
  obtain ⟨⟨at', st₁⟩, -, ran⟩ := exists_of_bind ran
  cases at' with
  | none => cases ran
  | some i =>
    obtain ⟨n, read, same⟩ := exists_of_bind ran
    obtain ⟨seen, rfl⟩ := Prod.mk.inj (Except.ok.inj same)
    exact mem_holdings_getValue (tryGetNode_of_getNode read) seen

theorem holdings_getMut {q : Option (Nat × V)} (ran : st.getMut key = .ok (q, st')) :
    st.holdings = occurrence (st.lapsed key) + st'.holdings := by
  obtain ⟨⟨at', st₁⟩, looked, ran⟩ := exists_of_bind ran
  refine (holdings_getIdx looked).trans ?_
  cases at' with
  | none => rw [(Prod.mk.inj (Except.ok.inj ran)).2]
  | some i =>
    obtain ⟨n, -, same⟩ := exists_of_bind ran
    rw [(Prod.mk.inj (Except.ok.inj same)).2]

theorem val_getMut {v : V} (ran : st.getMut key = .ok (some (i, v), st')) : ∃ n, st'.tryGetNode i = some n ∧ n.val = some v := by
  obtain ⟨⟨at', st₁⟩, -, ran⟩ := exists_of_bind ran
  cases at' with
  | none => cases ran
  | some j =>
    obtain ⟨n, read, same⟩ := exists_of_bind ran
    obtain ⟨seen, rfl⟩ := Prod.mk.inj (Except.ok.inj same)
    obtain ⟨w, live, eq⟩ := Option.map_eq_some_iff.1 seen
    obtain ⟨rfl, rfl⟩ := Prod.mk.inj eq
    exact ⟨n, tryGetNode_of_getNode read, RawStore.val_of_getValue live⟩

theorem val_getOrCreate {isContainer : V → Bool} {empty v : V} {ttl : Option Nat} {created : Bool}
    (ran : st.getOrCreate isContainer empty ttl key = .ok (.ok (i, v, created), st')) :
    (∃ n, st'.tryGetNode i = some n ∧ n.val = some v) ∧ (created = true → v = empty) ∧ (created = false → isContainer v = true) := by
  obtain ⟨⟨j, st₁⟩, ensured, ran⟩ := exists_of_bind ran
  obtain ⟨n, read, ran⟩ := exists_of_bind ran
  have found := tryGetNode_of_getNode read
  dsimp only at ran
  cases seen : n.getValue st₁.now with
  | some w =>
    simp only [seen] at ran
    split at ran
    next holds =>
      obtain ⟨same, rfl⟩ := Prod.mk.inj (Except.ok.inj ran)
      obtain ⟨rfl, rfl, rfl⟩ : j = i ∧ w = v ∧ false = created := by simpa using same
      exact ⟨⟨n, found, RawStore.val_of_getValue seen⟩, by simp, fun _ => holds⟩
    next => cases (Prod.mk.inj (Except.ok.inj ran)).1
  | none =>
    simp only [seen] at ran
    cases ttl <;>
    · obtain ⟨e, -, ran⟩ := exists_of_bind ran
      split at ran
      next w live =>
        obtain ⟨same, rfl⟩ := Prod.mk.inj (Except.ok.inj ran)
        obtain ⟨rfl, rfl, rfl⟩ : j = i ∧ w = v ∧ true = created := by simpa using same
        have val := RawStore.val_of_getValue live
        refine ⟨⟨_, by rw [tryGetNode_setNode, if_pos rfl, found]; rfl, val⟩, fun _ => (Option.some.inj val).symm, by simp⟩
      · cases ran

theorem holdings_expire {ttl : Nat} {b : Bool} (ran : st.expire key ttl = .ok (b, st')) : st'.holdings = st.holdings := by
  unfold expire at ran
  split at ran
  · rw [(Prod.mk.inj (Except.ok.inj ran)).2]
  next i target =>
    obtain ⟨n, read, ran⟩ := exists_of_bind ran
    split at ran
    · rw [(Prod.mk.inj (Except.ok.inj ran)).2]
    · obtain ⟨e, -, ran⟩ := exists_of_bind ran
      obtain ⟨-, rfl⟩ := Prod.mk.inj (Except.ok.inj ran)
      have kept : (st.setNode i { n with expAndRadix := e }).holdings = st.holdings :=
        holdings_setNode_same (tryGetNode_of_getNode read) rfl
      split
      · exact (holdings_tag _ i).trans kept
      · exact kept

theorem holdings_persist {b : Bool} (ran : st.persist key = .ok (b, st')) : st'.holdings = st.holdings := by
  unfold persist at ran
  split at ran
  · rw [(Prod.mk.inj (Except.ok.inj ran)).2]
  next i target =>
    obtain ⟨n, read, ran⟩ := exists_of_bind ran
    have kept : (st.setNode i { n with expAndRadix := n.expAndRadix.setNoExpiracy }).holdings = st.holdings :=
      holdings_setNode_same (tryGetNode_of_getNode read) rfl
    split at ran
    · split at ran
      · rw [← (Prod.mk.inj (Except.ok.inj ran)).2, ← kept]
        simp only [holdings, TaggedHiSlab.items_untag]
      · rw [← (Prod.mk.inj (Except.ok.inj ran)).2, kept]
    · rw [(Prod.mk.inj (Except.ok.inj ran)).2]

/-- An eviction drops the value of its node. -/
theorem holdings_deleteNodeForEviction {p : Nat} {r : UInt8} (found : st.tryGetNode i = some n)
    (ran : st.deleteNodeForEviction i p r = .ok st') : st.holdings = occurrence n.val + st'.holdings := by
  simp only [deleteNodeForEviction, found] at ran
  split at ran
  · rw [holdings_tryRecompress ran, holdings_clear found]
    simp only [holdings, TaggedHiSlab.items_untag]
  · exact holdings_removeLeaf found ran

section Listing

variable {collect : Nat → Bytes → Exec (List (Bytes × V))}

theorem mem_holdings_collectNode (below : ∀ i path l, collect i path = .ok l → ∀ q ∈ l, q.2 ∈ st.holdings)
    (found : st.tryGetNode i = some n) {path : Bytes} {l : List (Bytes × V)} (ran : st.collectNode collect i n path = .ok l) :
    ∀ q ∈ l, q.2 ∈ st.holdings := by
  obtain ⟨lists, each, same⟩ := exists_of_bind ran
  obtain rfl := Except.ok.inj same
  intro q member
  rcases List.mem_append.1 member with own | others
  · obtain ⟨v, live, rfl⟩ := List.mem_map.1 own
    exact mem_holdings_getValue found (Option.mem_toList.1 live)
  · obtain ⟨l, there, inside⟩ := List.mem_flatten.1 others
    obtain ⟨link, -, collected⟩ := exists_of_mapM each l there
    exact below link.2 _ l collected q inside

theorem mem_holdings_collectAll (fuel : Nat) : ∀ (i : Nat) (path : Bytes) (l : List (Bytes × V)), st.collectAll fuel i path = .ok l →
    ∀ q ∈ l, q.2 ∈ st.holdings := by
  induction fuel with
  | zero => exact fun _ _ _ ran => by cases ran
  | succ fuel ih =>
    intro i path l ran
    cases found : st.tryGetNode i with
    | none =>
      simp only [collectAll, found] at ran
      obtain rfl := Except.ok.inj ran
      simp
    | some n =>
      simp only [collectAll, found] at ran
      exact mem_holdings_collectNode ih found ran

theorem mem_holdings_getn {pfx : Bytes} {l : List (Bytes × V)} (ran : st.getn pfx = .ok l) : ∀ q ∈ l, q.2 ∈ st.holdings := by
  simp only [getn] at ran
  split at ran
  · exact mem_holdings_collectAll _ _ _ l ran
  · split at ran
    · obtain rfl := Except.ok.inj ran
      simp
    next i path target =>
      cases found : st.tryGetNode i with
      | none =>
        simp only [collectAllFrom, found] at ran
        obtain rfl := Except.ok.inj ran
        simp
      | some n =>
        simp only [collectAllFrom, found] at ran
        exact mem_holdings_collectNode (mem_holdings_collectAll _) found ran

end Listing

end OxidArt

/-! ## The relation -/

section Refinement

variable {P : Policy} {S : Type} [Score S]

/-- A store over slabs and a typed one are images of one tree, whose values are backed. -/
structure Stands (T : OxidArt P (Stored S)) (s : RawStore P S) (t : OxidArt P (Value S)) : Prop where
  raw : OxidArt.Images Stored.raw T s.tree
  typed : OxidArt.Images Stored.value T t
  backed : Backed s.slabs T.holdings

/-- The store over slabs holds what the typed one holds. -/
def Represents (s : RawStore P S) (t : OxidArt P (Value S)) : Prop := ∃ T, Stands T s t

/-- Two calls on such stores that reply the same and leave such stores. -/
abbrev Matches {α : Type} : Exec (α × RawStore P S) → Exec (α × OxidArt P (Value S)) → Prop := Agree (Alike Represents)

theorem represents_new (U : P.Unordered) : Represents (RawStore.new : RawStore P S) OxidArt.new :=
  ⟨.new, OxidArt.images_new _ U, OxidArt.images_new _ U, by
    have none' : (OxidArt.new : OxidArt P (Stored S)).holdings = 0 := rfl
    rw [none']
    exact Backed.empty⟩

theorem takeVal_backed {slabs : Slabs P S} {x : Option (Stored S)} {rest : Multiset (Stored S)} (B : Backed slabs (occurrence x + rest)) :
    RawStore.takeVal slabs (x.map Stored.raw) = .ok (x.map Stored.value, slabs.dropAll (x.toList.map Stored.raw)) := by
  cases x with
  | none => rfl
  | some x =>
    simp only [Option.map_some, RawStore.takeVal, B.valueTakeRaw (Multiset.mem_add.2 (.inl (Multiset.mem_singleton_self x)))]
    rfl

theorem incr_raw (x : Stored S) (delta : Int64) : x.raw.incr delta = x.value.incr delta := by
  cases x with
  | slot kind idx content => cases kind <;> rfl
  | _ => rfl

namespace Stands

variable {T : OxidArt P (Stored S)} {s : RawStore P S} {t : OxidArt P (Value S)} (rep : Stands T s t)

include rep

theorem represents : Represents s t := ⟨T, rep⟩

/-- Only the tree changes, and holds the same values. -/
theorem step {T' : OxidArt P (Stored S)} {tree : OxidArt P RawVal} {t' : OxidArt P (Value S)} (M : OxidArt.Images Stored.raw T' tree)
    (N : OxidArt.Images Stored.value T' t') (same : T'.holdings = T.holdings) : Represents { s with tree := tree } t' :=
  ⟨T', M, N, same ▸ rep.backed⟩

theorem setNow (now : Nat) : Represents (s.setNow now) (t.setNow now) := rep.step (rep.raw.setNow now) (rep.typed.setNow now) rfl

theorem setInternal (U : P.Unordered) (key : Bytes) (ttl : Nat) (v : Value S) :
    Agree Represents (s.setInternal key ttl v) (t.setInternal key ttl v) := by
  simp only [RawStore.setInternal, rep.raw.occupant key, Option.toList_map]
  obtain ⟨rest, part⟩ := OxidArt.holdings_occupant T key
  have B : Backed (s.slabs.dropAll ((T.occupant key).toList.map Stored.raw)) rest := Backed.dropAll _ (part ▸ rep.backed)
  generalize s.slabs.dropAll ((T.occupant key).toList.map Stored.raw) = slabs at B ⊢
  have left := rep.raw.setInternal U key ttl (slabs.stored v)
  have right := rep.typed.setInternal U key ttl (slabs.stored v)
  rw [raw_stored] at left
  rw [value_stored] at right
  refine Agree.bind_left (left.span right) ?_
  rintro tree t' ⟨T', ran, M, N⟩
  have moved := OxidArt.holdings_setInternal ran
  rw [part, add_left_comm, add_right_inj, Multiset.singleton_add] at moved
  exact .ok ⟨T', M, N, moved ▸ B.into v⟩

theorem setTtl (U : P.Unordered) (key : Bytes) (ttl : Nat) (v : Value S) :
    Agree Represents (s.setTtl key ttl v) (t.setTtl key ttl v) := by
  rw [RawStore.setTtl, OxidArt.setTtl, rep.raw.now, rep.typed.now]
  exact rep.setInternal U key _ v

theorem get (key : Bytes) : Matches (s.get key) (t.get key) := by
  simp only [RawStore.get, rep.raw.lapsed key, Option.toList_map]
  refine Agree.bind_left ((rep.raw.get key).span (rep.typed.get key)) ?_
  rintro ⟨_, tree⟩ ⟨_, t'⟩ ⟨⟨x, T'⟩, ran, ⟨rfl, M⟩, rfl, N⟩
  have B : Backed (s.slabs.dropAll ((T.lapsed key).toList.map Stored.raw)) T'.holdings :=
    Backed.dropAll _ (OxidArt.holdings_get ran ▸ rep.backed)
  cases x with
  | none => exact .ok ⟨rfl, T', M, N, B⟩
  | some x =>
    simp only [Option.map_some, B.valueFromRawRef (OxidArt.mem_holdings_get ran)]
    exact .ok ⟨rfl, T', M, N, B⟩

theorem del (key : Bytes) : Matches (s.del key) (t.del key) := by
  simp only [RawStore.del]
  refine Agree.bind_left ((rep.raw.del key).span (rep.typed.del key)) ?_
  rintro ⟨_, tree⟩ ⟨_, t'⟩ ⟨⟨x, T'⟩, ran, ⟨rfl, M⟩, rfl, N⟩
  have B := OxidArt.holdings_del ran ▸ rep.backed
  simp only [takeVal_backed B]
  exact .ok ⟨rfl, T', M, N, Backed.dropAll _ B⟩

theorem deln (pfx : Bytes) : Matches (s.deln pfx) (t.deln pfx) := by
  have root : (if pfx.isEmpty then s.tree.occupant pfx else none) = (if pfx.isEmpty then T.occupant pfx else none).map Stored.raw := by
    split
    · exact rep.raw.occupant pfx
    · rfl
  simp only [RawStore.deln, root, rep.raw.delnValues pfx]
  have held : ∃ rest, T.holdings = occurrence (if pfx.isEmpty then T.occupant pfx else none) + rest := by
    split
    · exact OxidArt.holdings_occupant T pfx
    · exact ⟨T.holdings, (zero_add _).symm⟩
  obtain ⟨rest, part⟩ := held
  simp only [takeVal_backed (part ▸ rep.backed)]
  change Agree _ (s.tree.deln pfx >>= _) _
  refine Agree.bind_left ((rep.raw.deln pfx).span (rep.typed.deln pfx)) ?_
  rintro ⟨_, tree⟩ ⟨_, t'⟩ ⟨⟨count, T'⟩, ran, ⟨rfl, M⟩, rfl, N⟩
  have B := Backed.dropAll _ (OxidArt.holdings_deln ran ▸ rep.backed)
  exact .ok ⟨rfl, T', M, N, Backed.dropAll _ B⟩

theorem expire (key : Bytes) (ttl : Nat) : Matches (s.expire key ttl) (t.expire key ttl) := by
  refine Agree.bind_left ((rep.raw.expire key ttl).span (rep.typed.expire key ttl)) ?_
  rintro ⟨_, tree⟩ ⟨_, t'⟩ ⟨⟨b, T'⟩, ran, ⟨rfl, M⟩, rfl, N⟩
  exact .ok ⟨rfl, rep.step M N (OxidArt.holdings_expire ran)⟩

theorem persist (key : Bytes) : Matches (s.persist key) (t.persist key) := by
  refine Agree.bind_left ((rep.raw.persist key).span (rep.typed.persist key)) ?_
  rintro ⟨_, tree⟩ ⟨_, t'⟩ ⟨⟨b, T'⟩, ran, ⟨rfl, M⟩, rfl, N⟩
  exact .ok ⟨rfl, rep.step M N (OxidArt.holdings_persist ran)⟩

theorem getTtl (key : Bytes) : Agree Eq (s.tree.getTtl key) (t.getTtl key) :=
  ((rep.raw.getTtl key).span (rep.typed.getTtl key)).mono fun _ _ both => by
    obtain ⟨a, -, rfl, rfl⟩ := both
    rfl

theorem getn (pfx : Bytes) : Agree Eq (s.getn pfx) (t.getn pfx) := by
  refine Agree.bind_left ((rep.raw.getn pfx).span (rep.typed.getn pfx)) ?_
  rintro _ _ ⟨pairs, ran, rfl, rfl⟩
  have held := OxidArt.mem_holdings_getn ran
  have cloned : (pairs.map (Prod.map id Stored.raw)).mapM (fun p => do return (p.1, ← s.slabs.valueFromRawRef p.2)) =
      .ok (pairs.map (Prod.map id Stored.value)) := by
    rw [List.mapM_map]
    refine mapM_ok fun p member => ?_
    simp only [Function.comp, Prod.map, rep.backed.valueFromRawRef (held p member)]
    rfl
  rw [cloned]
  exact .ok rfl

theorem set (U : P.Unordered) (key : Bytes) (v : Value S) : Agree Represents (s.set key v) (t.set key v) := rep.setInternal U key _ v

/-- An integer is written over a value, whose slot would be lost if it had one. -/
theorem putInt {i : Nat} {n : Node (Stored S)} {x : Stored S} (found : T.tryGetNode i = some n) (val : n.val = some x) (m : Int64) :
    Agree (fun tree t' => Represents { s with tree := tree } t') (s.tree.putVal i (.int m)) (t.putVal i (.int m)) := by
  refine ((rep.raw.putVal i (.int m)).span (rep.typed.putVal i (.int m))).mono ?_
  rintro tree t' ⟨T', ran, M, N⟩
  have moved := OxidArt.holdings_putVal found ran
  obtain ⟨rest, part⟩ := OxidArt.holdings_part found
  rw [part, val, add_left_comm, add_right_inj, Multiset.singleton_add] at moved
  refine ⟨T', M, N, moved ▸ ⟨fun kind idx content member => ?_, fun kind => ?_⟩⟩
  · rcases Multiset.mem_cons.1 member with same | member
    · cases same
    · exact rep.backed.reads kind idx content (part ▸ Multiset.mem_add.2 (.inr member))
  · have once := rep.backed.once kind
    rw [part, val, Multiset.filterMap_add, filterMap_occurrence, Option.bind_some] at once
    rw [filterMap_cons_occurrence]
    have plain : (Stored.int m : Stored S).slotOf kind = none := rfl
    rw [plain, occurrence_none, zero_add]
    exact Multiset.nodup_of_le (Multiset.le_add_left _ _) once

theorem incrby (U : P.Unordered) (key : Bytes) (delta : Int64) : Matches (s.incrby key delta) (t.incrby key delta) := by
  have made : Matches (do return ((.ok delta : Except IntError Int64), ← s.set key (.int delta)))
      (do return ((.ok delta : Except IntError Int64), ← t.set key (.int delta))) :=
    Agree.bind (rep.set U key (.int delta)) fun _ _ rep' => .ok ⟨rfl, rep'⟩
  simp only [RawStore.incrby, OxidArt.incrby, rep.raw.traverseToKey, rep.typed.traverseToKey]
  cases T.traverseToKey key with
  | none => exact made
  | some i =>
    simp only
    refine Agree.bind ((rep.raw.getNode i).span (rep.typed.getNode i)) ?_
    rintro _ _ ⟨n, read, rfl, rfl⟩
    simp only [rep.raw.now, rep.typed.now, Node.getValue_mapVal]
    cases seen : n.getValue T.now with
    | none => exact made
    | some x =>
      simp only [Option.map_some, pure_bind, incr_raw]
      cases added : x.value.incr delta with
      | error e => exact .ok ⟨rfl, rep.represents⟩
      | ok m =>
        refine Agree.bind (rep.putInt (OxidArt.tryGetNode_of_getNode read) (RawStore.val_of_getValue seen) m) ?_
        exact fun _ _ rep' => .ok ⟨rfl, rep'⟩

/-! ### Containers -/

/-- The value of a live key, on each side. -/
theorem getMut (key : Bytes) : Agree (fun p q => ∃ T' found, Stands T' p.2 q.2 ∧ p.1 = found.map (Stored.raw ∘ Prod.snd) ∧
      q.1 = found.map (Prod.map id Stored.value) ∧ ∀ i x, found = some (i, x) → ∃ n, T'.tryGetNode i = some n ∧ n.val = some x)
    (s.getMut key) (t.getMut key) := by
  simp only [RawStore.getMut, rep.raw.lapsed key, Option.toList_map]
  refine Agree.bind_left ((rep.raw.getMut key).span (rep.typed.getMut key)) ?_
  rintro ⟨_, tree⟩ ⟨_, t'⟩ ⟨⟨found, T'⟩, ran, ⟨rfl, M⟩, rfl, N⟩
  have B := Backed.dropAll _ (OxidArt.holdings_getMut ran ▸ rep.backed)
  refine .ok ⟨T', found, ⟨M, N, B⟩, ?_, rfl, ?_⟩
  · rw [Option.map_map]
    rfl
  · rintro i x rfl
    exact OxidArt.val_getMut ran

/-- A container changes in its slot, where the typed store writes a new one. -/
theorem write {i idx : Nat} {n : Node (Stored S)} {kind : SlabKind} {content : kind.Content S} (found : T.tryGetNode i = some n)
    (val : n.val = some (.slot kind idx content)) (content' : kind.Content S) :
    ∃ t', t.putVal i (Slabs.valueOf kind content') = .ok t' ∧ Represents { s with slabs := s.slabs.write kind idx content' } t' := by
  obtain ⟨rest, part⟩ := OxidArt.holdings_part found
  have put : T.putVal i (.slot kind idx content') = .ok (T.setNode i { n with val := some (.slot kind idx content') }) := by
    rw [OxidArt.putVal, OxidArt.getNode_ok found]
    rfl
  have moved := OxidArt.holdings_putVal found put
  rw [part, val, add_left_comm, add_right_inj, Multiset.singleton_add] at moved
  obtain ⟨t', put', N⟩ := (rep.typed.putVal i (.slot kind idx content')).of_ok put
  have same : Node.mapVal Stored.raw { n with val := some (.slot kind idx content') } = n.mapVal Stored.raw := by
    simp only [Node.mapVal, val]
    rfl
  have B : Backed s.slabs (.slot kind idx content ::ₘ rest) := by
    have B := rep.backed
    rwa [part, val, occurrence_some, Multiset.singleton_add] at B
  exact ⟨t', put', _, rep.raw.setNode_same found same, N, moved ▸ B.write content'⟩

theorem readAs {α : Type} (key : Bytes) (kind : SlabKind) (absent : α) (read : kind.Content S → α) :
    Matches (s.readAs key kind absent read) (t.readAs key kind.view absent read) := by
  refine Agree.bind (rep.getMut key) ?_
  rintro ⟨_, s₁⟩ ⟨_, t₁⟩ ⟨T', found, rep', rfl, rfl, spot⟩
  cases found with
  | none => exact .ok ⟨rfl, rep'.represents⟩
  | some q =>
    obtain ⟨n, there, val⟩ := spot q.1 q.2 rfl
    simp only [Option.map_some, Function.comp, Prod.map, rep'.backed.view (OxidArt.mem_holdings there val) kind]
    refine .ok ⟨?_, rep'.represents⟩
    cases kind.view q.2.value <;> rfl

end Stands

/-- What is found there is a container, with the same slot and content on both sides. -/
theorem slotOf_of_view {kind : SlabKind} {x : Stored S} {content : kind.Content S} (viewed : kind.view x.value = .ok content) :
    ∃ idx, x = .slot kind idx content := by
  cases owns : x.slotOf kind with
  | none => cases (Stored.view_other owns).symm.trans viewed
  | some idx =>
    obtain ⟨content', rfl⟩ := Stored.eq_slot owns
    obtain rfl := Except.ok.inj ((Stored.view_slot kind idx content').symm.trans viewed)
    exact ⟨idx, rfl⟩

namespace Stands

variable {T : OxidArt P (Stored S)} {s : RawStore P S} {t : OxidArt P (Value S)} (rep : Stands T s t)

include rep

theorem removeFrom (key : Bytes) (kind : SlabKind) (remove : kind.Content S → Bytes → Bool × kind.Content S)
    (isEmpty : kind.Content S → Bool) (items : List Bytes) : Matches (s.removeFrom key kind remove isEmpty items)
      (t.removeFrom key kind.view (Slabs.valueOf kind) remove isEmpty items) := by
  refine Agree.bind (rep.getMut key) ?_
  rintro ⟨_, s₁⟩ ⟨_, t₁⟩ ⟨T', found, rep', rfl, rfl, spot⟩
  cases found with
  | none => exact .ok ⟨rfl, rep'.represents⟩
  | some q =>
    obtain ⟨n, there, val⟩ := spot q.1 q.2 rfl
    simp only [Option.map_some, Function.comp, Prod.map, rep'.backed.view (OxidArt.mem_holdings there val) kind]
    cases viewed : kind.view q.2.value with
    | error e => exact .ok ⟨rfl, rep'.represents⟩
    | ok content =>
      obtain ⟨idx, same⟩ := slotOf_of_view viewed
      obtain ⟨t₂, put, T₂, rep₂⟩ := rep'.write there (val.trans (congrArg some same)) (OxidArt.countLoop remove content items).2
      simp only [same, Stored.slotOf_slot, Except.map, id, put]
      refine .ite (fun _ => ?_) fun _ => .ok ⟨rfl, T₂, rep₂⟩
      refine Agree.bind (rep₂.del key) ?_
      rintro ⟨_, s₃⟩ ⟨_, t₃⟩ ⟨-, rep₃⟩
      exact .ok ⟨rfl, rep₃⟩

theorem readSet {α : Type} (key : Bytes) (absent : α) (read : SortedSet Bytes → α) :
    Matches (s.readSet key absent read) (t.readSet key absent read) := by
  refine Agree.bind (rep.getMut key) ?_
  rintro ⟨_, s₁⟩ ⟨_, t₁⟩ ⟨T', found, rep', rfl, rfl, spot⟩
  cases found with
  | none => exact .ok ⟨rfl, rep'.represents⟩
  | some q =>
    obtain ⟨n, there, val⟩ := spot q.1 q.2 rfl
    simp only [Option.map_some, Function.comp, Prod.map, rep'.backed.view (OxidArt.mem_holdings there val) .set, SlabKind.view]
    cases q.2.value.asSet with
    | error e => exact .ok ⟨rfl, rep'.represents⟩
    | ok set =>
      simp only [Except.map]
      refine .ite (fun _ => ?_) fun _ => .ok ⟨rfl, rep'.represents⟩
      refine Agree.bind (rep'.del key) ?_
      rintro ⟨_, s₃⟩ ⟨_, t₃⟩ ⟨-, rep₃⟩
      exact .ok ⟨rfl, rep₃⟩

/-! ### Containers to change -/

/-- A container that both sides found, at one node of the tree between them. -/
def Located (kind : SlabKind) (T : OxidArt P (Stored S)) (i idx : Nat) (content : kind.Content S) : Prop :=
  ∃ n, T.tryGetNode i = some n ∧ n.val = some (.slot kind idx content)

theorem getContainer (U : P.Unordered) (kind : SlabKind) (empty : kind.Content S) (ttl : Option Nat) (key : Bytes) :
    Agree (fun p q => ∃ T', Stands T' p.2 q.2 ∧ Agree (fun a b => a.1 = b.1 ∧ a.2.2 = b.2.2 ∧ Located kind T' a.1 a.2.1 b.2.1) p.1 q.1)
      (s.getContainer kind empty ttl key) (t.getContainer kind.view (Slabs.valueOf kind empty) ttl key) := by
  have left := rep.raw.getOrCreate U (fun x => (x.slotOf kind).isSome) (fun v => (v.slotOf kind).isSome) (fun _ => rfl)
    (.slot kind (s.slabs.alloc kind empty).1 empty) ttl key
  have right := rep.typed.getOrCreate U _ (fun v => (kind.view v).isOk) (Stored.isOk_view kind)
    (.slot kind (s.slabs.alloc kind empty).1 empty) ttl key
  simp only [RawStore.getContainer, OxidArt.getContainer]
  refine Agree.bind (left.span right) ?_
  rintro ⟨_, tree⟩ ⟨_, t'⟩ ⟨⟨res, T'⟩, ran, ⟨rfl, M⟩, rfl, N⟩
  have moved := OxidArt.holdings_getOrCreate ran
  cases res with
  | error e =>
    have kept : T'.holdings ≤ T.holdings := (Multiset.le_add_left _ _).trans (moved.trans (zero_add _)).le
    exact .ok ⟨T', ⟨M, N, rep.backed.mono kept⟩, .error e⟩
  | ok q =>
    obtain ⟨i, v, created⟩ := q
    obtain ⟨⟨n, found, val⟩, new, old⟩ := OxidArt.val_getOrCreate ran
    have B : Backed (if created then (s.slabs.alloc kind empty).2 else s.slabs) T'.holdings := by
      cases created with
      | false =>
        have kept : T'.holdings ≤ T.holdings := (Multiset.le_add_left _ _).trans (moved.trans (zero_add _)).le
        exact rep.backed.mono kept
      | true => exact (rep.backed.alloc kind empty).mono ((Multiset.le_add_left _ _).trans moved.le)
    have owns : ∃ idx, v.slotOf kind = some idx := by
      cases created with
      | false => exact Option.isSome_iff_exists.1 (old rfl)
      | true => exact ⟨_, new rfl ▸ Stored.slotOf_slot ..⟩
    obtain ⟨idx, owns⟩ := owns
    obtain ⟨content, rfl⟩ := Stored.eq_slot owns
    have owns : (Stored.slot kind idx content).raw.slotOf kind = some idx := owns
    simp only [Except.map, owns, Stored.view_slot]
    exact .ok ⟨T', ⟨M, N, B⟩, .ok ⟨rfl, rfl, n, found, val⟩⟩

end Stands

/-- What the writing commands got before they change it. -/
def Holds (kind : SlabKind) (p : Except TypeError Nat × RawStore P S) (q : Except TypeError (Nat × kind.Content S) × OxidArt P (Value S)) :
    Prop :=
  ∃ T, Stands T p.2 q.2 ∧ Agree (fun idx b => Stands.Located kind T b.1 idx b.2) p.1 q.1

theorem tryChangeIn_matches {α : Type} {kind : SlabKind} {got : Exec (Except TypeError Nat × RawStore P S)}
    {got' : Exec (Except TypeError (Nat × kind.Content S) × OxidArt P (Value S))} (held : Agree (Holds kind) got got')
    (change : kind.Content S → Except TypeError (α × kind.Content S)) :
    Matches (RawStore.tryChangeIn got kind change) (OxidArt.changeIn got' (Slabs.valueOf kind) change) := by
  refine Agree.bind held ?_
  rintro ⟨res, s⟩ ⟨res', t⟩ ⟨T, rep, both⟩
  cases both with
  | error e => exact .ok ⟨rfl, rep.represents⟩
  | @ok idx b spot =>
    obtain ⟨i, content⟩ := b
    obtain ⟨n, found, val⟩ := spot
    simp only [rep.backed.reads kind idx content (OxidArt.mem_holdings found val)]
    cases change content with
    | error e => exact .ok ⟨rfl, rep.represents⟩
    | ok r =>
      obtain ⟨t', put, rep'⟩ := rep.write found val r.2
      simp only [put]
      exact .ok ⟨rfl, rep'⟩

theorem changeIn_eq {α : Type} (got : Exec (Except TypeError Nat × RawStore P S)) (kind : SlabKind)
    (change : kind.Content S → α × kind.Content S) :
    RawStore.changeIn got kind change = RawStore.tryChangeIn got kind fun content => .ok (change content) := rfl

theorem changeIn_matches {α : Type} {kind : SlabKind} {got : Exec (Except TypeError Nat × RawStore P S)}
    {got' : Exec (Except TypeError (Nat × kind.Content S) × OxidArt P (Value S))} (held : Agree (Holds kind) got got')
    (change : kind.Content S → α × kind.Content S) :
    Matches (RawStore.changeIn got kind change) (OxidArt.changeIn got' (Slabs.valueOf kind) fun content => .ok (change content)) := by
  rw [changeIn_eq]
  exact tryChangeIn_matches held _

namespace Stands

variable {T : OxidArt P (Stored S)} {s : RawStore P S} {t : OxidArt P (Value S)} (rep : Stands T s t) (U : P.Unordered)

include rep U

theorem getHashMut (ttl : Option Nat) (key : Bytes) : Agree (Holds .hash) (s.getHashMut ttl key) (t.getHashMut ttl key) := by
  refine Agree.bind (rep.getContainer U .hash InnerHCommand.new ttl key) ?_
  rintro ⟨res, s'⟩ ⟨res', t'⟩ ⟨T', rep', both⟩
  refine .ok ⟨T', rep', both.map fun a b same => ?_⟩
  exact same.1 ▸ same.2.2

theorem getBtreeSetMut (ttl : Option Nat) (key : Bytes) : Agree (Holds .set) (s.getBtreeSetMut ttl key) (t.getBtreeSetMut ttl key) := by
  refine Agree.bind (rep.getContainer U .set (SortedSet.empty : SortedSet Bytes) ttl key) ?_
  rintro ⟨res, s'⟩ ⟨res', t'⟩ ⟨T', rep', both⟩
  refine .ok ⟨T', rep', both.map fun a b same => ?_⟩
  exact same.1 ▸ same.2.2

theorem getZsetMut (ttl : Option Nat) (key : Bytes) : Agree (Holds .zset) (s.getZsetMut ttl key) (t.getZsetMut ttl key) := by
  refine Agree.bind (rep.getContainer U .zset (InnerZCommand.new : InnerZCommand S) ttl key) ?_
  rintro ⟨res, s'⟩ ⟨res', t'⟩ ⟨T', rep', both⟩
  cases both with
  | error e => exact .ok ⟨T', rep', .error e⟩
  | @ok a b same =>
    obtain ⟨i, idx, created⟩ := a
    obtain ⟨i', zset, created'⟩ := b
    obtain ⟨rfl, rfl, n, found, val⟩ := same
    by_cases tags : (created && ttl.isSome) = true
    · simp only [if_pos tags]
      refine .ok ⟨_, ⟨rep'.raw.tag i, rep'.typed.tag i, (OxidArt.holdings_tag T' i).symm ▸ rep'.backed⟩, .ok ⟨n, ?_, val⟩⟩
      exact (TaggedHiSlab.get_tag _ _ _).trans found
    · simp only [if_neg tags]
      exact .ok ⟨T', rep', .ok ⟨n, found, val⟩⟩

end Stands

/-! ### Evictions -/

theorem evictSampled_matches {T : OxidArt P (Stored S)} {s : RawStore P S} {t : OxidArt P (Value S)} (rep : Stands T s t) {i : Nat}
    {n : Node (Stored S)} (found : T.tryGetNode i = some n) :
    Matches (s.evictSampled i (n.mapVal Stored.raw)) (t.evictSampled i (n.mapVal Stored.value)) := by
  simp only [RawStore.evictSampled, OxidArt.evictSampled, rep.raw.now, rep.typed.now]
  refine .ite (fun _ => ?_) fun _ => .ok ⟨rfl, rep.represents⟩
  simp only [Node.mapVal]
  cases n.parentIdx with
  | none => exact .ok ⟨rfl, rep.represents⟩
  | some p =>
    refine Agree.bind ((rep.raw.deleteNodeForEviction i p _).span (rep.typed.deleteNodeForEviction i p _)) ?_
    rintro tree t' ⟨T', ran, M, N⟩
    refine .ok ⟨rfl, T', M, N, ?_⟩
    rw [Option.toList_map]
    exact Backed.dropAll _ (OxidArt.holdings_deleteNodeForEviction found ran ▸ rep.backed)

/-- A draw from the one slab is matched by a draw from the other. -/
theorem draw_matches (s : RawStore P S) (t : OxidArt P (Value S)) (d : Nat) (rep : Represents s t) : ∃ d',
    Matched Represents (fun (s : RawStore P S) d => s.tree.map.randomTagged d) (fun s q => s.evictSampled q.1 q.2)
      (fun (t : OxidArt P (Value S)) d => t.map.randomTagged d) (fun t q => t.evictSampled q.1 q.2) s t d d' := by
  obtain ⟨T, rep⟩ := rep
  cases drawn : s.tree.map.randomTagged d with
  | none =>
    have nothing : t.map.taggedIdxs = [] := by
      have same := rep.typed.map.taggedIdxs.trans rep.raw.map.taggedIdxs.symm
      rw [TaggedHiSlab.taggedIdxs_eq_nil drawn] at same
      exact same.eq_nil
    exact ⟨0, .inl ⟨drawn, TaggedHiSlab.randomTagged_of_nil nothing 0⟩⟩
  | some q =>
    obtain ⟨i, m⟩ := q
    obtain ⟨read, tagged⟩ := TaggedHiSlab.randomTagged_spec drawn
    obtain ⟨n, found, rfl⟩ := Option.map_eq_some_iff.1 ((rep.raw.tryGetNode i).symm.trans read)
    obtain ⟨d', drawn'⟩ := TaggedHiSlab.exists_randomTagged ((rep.typed.tryGetNode i).trans (congrArg _ found))
      ((rep.typed.map.isTagged i).trans ((rep.raw.map.isTagged i).symm.trans tagged))
    exact ⟨d', .inr ⟨_, _, drawn, drawn', evictSampled_matches rep found⟩⟩

theorem evictCycle_eq (draws : Nat → Nat) (turns : Nat) : ∀ s : RawStore P S, RawStore.evictCycle draws turns s =
    cycle (fun (s : RawStore P S) d => s.tree.map.randomTagged d) (fun s q => s.evictSampled q.1 q.2) draws turns s := by
  induction turns with
  | zero => exact fun _ => rfl
  | succ turns ih =>
    intro s
    simp only [RawStore.evictCycle, cycle, ih]
    cases s.tree.map.randomTagged (draws turns) <;> rfl

theorem evictCycle_typed_eq (draws : Nat → Nat) (turns : Nat) : ∀ t : OxidArt P (Value S), OxidArt.evictCycle draws turns t =
    cycle (fun (t : OxidArt P (Value S)) d => t.map.randomTagged d) (fun t q => t.evictSampled q.1 q.2) draws turns t := by
  induction turns with
  | zero => exact fun _ => rfl
  | succ turns ih =>
    intro t
    simp only [OxidArt.evictCycle, cycle, ih]
    cases t.map.randomTagged (draws turns) <;> rfl

/-- A round that was not worth it. -/
def spent (evicted sampled : Nat) : Bool := decide (sampled < OxidArt.SAMPLE_SIZE ∨ evicted < OxidArt.THRESHOLD)

theorem evictRounds_eq (draws : Nat → Nat → Nat) (n : Nat) : ∀ s : RawStore P S, RawStore.evictRounds draws n s =
    rounds (fun draws s => RawStore.evictCycle draws OxidArt.SAMPLE_SIZE s) spent draws n s := by
  induction n with
  | zero => exact fun _ => rfl
  | succ n ih =>
    intro s
    simp only [RawStore.evictRounds, rounds, ih, spent, decide_eq_true_eq]

theorem evictRounds_typed_eq (draws : Nat → Nat → Nat) (n : Nat) : ∀ t : OxidArt P (Value S), OxidArt.evictRounds draws n t =
    rounds (fun draws t => OxidArt.evictCycle draws OxidArt.SAMPLE_SIZE t) spent draws n t := by
  induction n with
  | zero => exact fun _ => rfl
  | succ n ih =>
    intro t
    simp only [OxidArt.evictRounds, rounds, ih, spent, decide_eq_true_eq]

theorem evictExpired_matches {s : RawStore P S} {t : OxidArt P (Value S)} (rep : Represents s t) (draws : Nat → Nat → Nat) :
    ∃ draws', Matches (s.evictExpired draws) (t.evictExpired draws') := by
  have each (draws : Nat → Nat) (s : RawStore P S) (t : OxidArt P (Value S)) (rep : Represents s t) : ∃ draws',
      Agree (Counted Represents) (RawStore.evictCycle draws OxidArt.SAMPLE_SIZE s) (OxidArt.evictCycle draws' OxidArt.SAMPLE_SIZE t) := by
    simp only [evictCycle_eq, evictCycle_typed_eq]
    exact cycle_agree draw_matches draws OxidArt.SAMPLE_SIZE s t rep
  simp only [RawStore.evictExpired, OxidArt.evictExpired, evictRounds_eq, evictRounds_typed_eq]
  exact rounds_agree each draws OxidArt.MAX_SAMPLE s t rep

/-! ## Commands -/

/-- The same command, but for the draws of an eviction. -/
inductive Redrawn : Command S → Command S → Prop
  | same (c : Command S) : Redrawn c c
  | evict (draws draws' : Nat → Nat → Nat) : Redrawn (.tree (.evict draws)) (.tree (.evict draws'))

/-- A reply, wrapped on both sides. -/
theorem Matches.wrap {α : Type} {run : Exec (α × RawStore P S)} {run' : Exec (α × OxidArt P (Value S))} (same : Matches run run')
    (wrap : α → Reply S) : Matches (run.map fun p => (wrap p.1, p.2)) (OxidArt.wrapReply wrap run') :=
  Agree.map same fun _ _ both => ⟨congrArg wrap both.1, both.2⟩

theorem execTree_matches (U : P.Unordered) {s : RawStore P S} {t : OxidArt P (Value S)} (rep : Represents s t) (op : TreeOp (Value S)) :
    ∃ op', Redrawn (.tree op) (.tree op') ∧ Matches (s.execTree op) (t.execTree op') := by
  have done {α : Type} {run : Exec (α × RawStore P S)} {run' : Exec (α × OxidArt P (Value S))} (same : Matches run run')
      (wrap : α → TreeReply (Value S)) : Matches (run >>= fun p => .ok (wrap p.1, p.2)) (run' >>= fun p => .ok (wrap p.1, p.2)) :=
    Agree.bind same fun _ _ both => .ok ⟨congrArg wrap both.1, both.2⟩
  obtain ⟨T, stands⟩ := id rep
  cases op with
  | set key v => exact ⟨_, .same _, Agree.bind (stands.set U key v) fun _ _ rep' => .ok ⟨rfl, rep'⟩⟩
  | setTtl key ttl v => exact ⟨_, .same _, Agree.bind (stands.setTtl U key ttl v) fun _ _ rep' => .ok ⟨rfl, rep'⟩⟩
  | expire key ttl => exact ⟨_, .same _, done (stands.expire key ttl) .flag⟩
  | persist key => exact ⟨_, .same _, done (stands.persist key) .flag⟩
  | get key => exact ⟨_, .same _, done (stands.get key) .value⟩
  | getTtl key => exact ⟨_, .same _, Agree.bind (stands.getTtl key) fun _ _ same => .ok ⟨congrArg _ same, rep⟩⟩
  | getn pfx => exact ⟨_, .same _, Agree.bind (stands.getn pfx) fun _ _ same => .ok ⟨congrArg _ same, rep⟩⟩
  | del key => exact ⟨_, .same _, done (stands.del key) .value⟩
  | deln pfx => exact ⟨_, .same _, done (stands.deln pfx) .count⟩
  | setNow now => exact ⟨_, .same _, .ok ⟨rfl, stands.setNow now⟩⟩
  | evict draws =>
    obtain ⟨draws', same⟩ := evictExpired_matches rep draws
    exact ⟨.evict draws', .evict draws draws', done same .count⟩

/-- One command: the same reply, and a store that holds what the typed one holds. -/
theorem command_matches (U : P.Unordered) (order : HashOrder) {s : RawStore P S} {t : OxidArt P (Value S)} (rep : Represents s t)
    (c : Command S) : ∃ c', Redrawn c c' ∧ Matches (s.command order c) (OxidArt.exec order t c') := by
  obtain ⟨T, stands⟩ := id rep
  cases c with
  | tree op =>
    obtain ⟨op', redrawn, same⟩ := execTree_matches U rep op
    exact ⟨.tree op', redrawn, same.wrap .tree⟩
  | incrby key delta => exact ⟨_, .same _, (stands.incrby U key delta).wrap .counter⟩
  | hset key fieldValues ttl => exact ⟨_, .same _, (changeIn_matches (stands.getHashMut U ttl key) _).wrap .added⟩
  | hincrby key field increment => exact ⟨_, .same _, (tryChangeIn_matches (stands.getHashMut U none key) _).wrap .integer⟩
  | spop key count =>
    have taken (n : Nat) := changeIn_matches (stands.getBtreeSetMut U none key) fun set : SortedSet Bytes =>
      if n = 1 then (OxidArt.SPOPResult.single (SortedSet.popLast set).1, (SortedSet.popLast set).2)
      else (.multiple (SortedSet.popMany n set).1, (SortedSet.popMany n set).2)
    simp only [apply_ite] at taken
    have same : Matches (s.cmdSpop key count) (t.cmdSpop key count) := by
      simp only [RawStore.cmdSpop, OxidArt.cmdSpop]
      cases count with
      | none => exact taken 1
      | some bytes =>
        simp only
        cases (OxidArt.parseU32 bytes).filter (0 < ·) with
        | none => exact .ok ⟨rfl, rep⟩
        | some n => exact taken n
    exact ⟨_, .same _, same.wrap .popped⟩
  | sadd key members ttl => exact ⟨_, .same _, (changeIn_matches (stands.getBtreeSetMut U ttl key) _).wrap .added⟩
  | zadd key scoreMembers ttl => exact ⟨_, .same _, (changeIn_matches (stands.getZsetMut U ttl key) _).wrap .added⟩
  | zincrby key increment member => exact ⟨_, .same _, (changeIn_matches (stands.getZsetMut U none key) _).wrap .newScore⟩
  | hdel key fields => exact ⟨_, .same _, (stands.removeFrom key .hash _ _ fields).wrap .count⟩
  | srem key members => exact ⟨_, .same _, (stands.removeFrom key .set _ _ members).wrap .count⟩
  | zrem key members => exact ⟨_, .same _, (stands.removeFrom key .zset _ _ members).wrap .count⟩
  | smembers key => exact ⟨_, .same _, (stands.readSet key _ _).wrap .list⟩
  | scard key => exact ⟨_, .same _, (stands.readSet key _ _).wrap .count⟩
  | hget key field => exact ⟨_, .same _, (stands.readAs key .hash _ _).wrap .bytes⟩
  | hgetall key | hkeys key | hvals key => exact ⟨_, .same _, (stands.readAs key .hash _ _).wrap .list⟩
  | hexists key field => exact ⟨_, .same _, (stands.readAs key .hash _ _).wrap .flag⟩
  | hlen key => exact ⟨_, .same _, (stands.readAs key .hash _ _).wrap .count⟩
  | hmget key fields => exact ⟨_, .same _, (stands.readAs key .hash _ _).wrap .options⟩
  | sismember key member => exact ⟨_, .same _, (stands.readAs key .set _ _).wrap .flag⟩
  | zcard key => exact ⟨_, .same _, (stands.readAs key .zset _ _).wrap .count⟩
  | zrange key start stop withScores => exact ⟨_, .same _, (stands.readAs key .zset _ _).wrap .list⟩
  | zscore key member => exact ⟨_, .same _, (stands.readAs key .zset _ _).wrap .score⟩

/-- Every run of the store over the slabs is a run of the typed store: the same replies or the same panic, and then the same values,
under draws of its own. The policy does not see in which order the occupied slots are listed; strings are values on both sides,
without their counters. -/
theorem run_command (U : P.Unordered) (order : HashOrder) (cs : List (Command S)) : ∃ cs', List.Forall₂ Redrawn cs cs' ∧
    Agree (Alike Represents) (run (RawStore.command order) cs (RawStore.new : RawStore P S)) (run (OxidArt.exec order) cs' OxidArt.new) :=
  run_agree_choosing .same (fun _ _ c rep => command_matches U order rep c) cs _ _ (represents_new U)

end Refinement

/-- Containers of each kind, made, changed, emptied and written over, with an eviction in between. -/
def mixedCommands : List (Command Int) :=
  [.hset [104] [([102], [118])] (some 5), .sadd [115] [[97], [98]] none, .zadd [122] [(1, [109])] none, .tree (.set [104, 105] (.string [50])),
    .incrby [104, 105] 3, .tree (.setNow 7), .tree (.evict fun i j => i + j), .hset [103] [([103], [119])] none, .srem [115] [[97], [98]],
    .tree (.set [122] (.int 4)), .tree (.getn []), .spop [115] none, .tree (.deln [])]

theorem run_command_mixedCommands : ∃ cs', List.Forall₂ Redrawn mixedCommands cs' ∧ Agree (Alike Represents)
    (run (RawStore.command .stored) mixedCommands (RawStore.new : RawStore .lowest Int)) (run (OxidArt.exec .stored) cs' OxidArt.new) :=
  run_command Policy.lowest_unordered .stored mixedCommands

end Radixox.Oxidart
