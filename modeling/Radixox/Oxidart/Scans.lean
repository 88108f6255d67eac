import Radixox.Oxidart.Removals

/-!
# Prefix scans

`collect_all` walks a subtree and lists its live keys, each once. Keys are read off the
links and compressions on the way down, so a scan from the root shows the root's own
compression in front of every key (`shown`); it is empty unless the root has absorbed a child.
-/

namespace Radixox.Oxidart
set_option autoImplicit false
open Radixox.PathForest

theorem mapM_ok {α β : Type} {f : α → Exec β} {g : α → β} {l : List α} (all : ∀ x ∈ l, f x = .ok (g x)) :
    l.mapM f = .ok (l.map g) := by
  induction l with
  | nil => rfl
  | cons x l ih =>
    rw [List.mapM_cons, all x List.mem_cons_self, ih fun y member => all y (List.mem_cons_of_mem _ member)]
    rfl

namespace OxidArt

variable {P : Policy} {V : Type} {st : OxidArt P V} {cut : List Nat} {path : Nat → Option Bytes}

/-- What a scan of the subtree at the key `p` lists: the live keys from `p` on, shown behind `shown`, each once. -/
structure Lists (st : OxidArt P V) (shown p : Bytes) (l : List (Bytes × V)) : Prop where
  nodup : (l.map Prod.fst).Nodup
  mem : ∀ k v, (k, v) ∈ l ↔ ∃ q, k = shown ++ q ∧ p <+: q ∧ (st.live q).map Prod.fst = some v

theorem Lists.key {shown p k : Bytes} {l : List (Bytes × V)} (L : Lists st shown p l) (member : k ∈ l.map Prod.fst) :
    shown ++ p <+: k := by
  obtain ⟨⟨k', v⟩, inside, rfl⟩ := List.mem_map.1 member
  obtain ⟨q, rfl, below, -⟩ := (L.mem k' v).1 inside
  exact (List.prefix_append_right_inj shown).2 below

/-- A node holds a live value exactly when its key is live. -/
theorem Inv.getValue_eq (I : Inv st cut path) {i : Nat} {n : Node V} {k : Bytes} (found : st.tryGetNode i = some n)
    (at' : path i = some k) : n.getValue st.now = (st.live k).map Prod.fst := by
  cases past : n.isExpired st.now with
  | true => rw [I.live_of_expired found past at', Node.getValue, if_pos past]; rfl
  | false =>
    obtain ⟨held, value⟩ := I.live_of_current found past at'
    rw [held, value, Node.content, Option.map_map]
    cases n.val <;> rfl

/-- Collecting a node from its children. -/
theorem collectNode_ok (shown : Bytes) (collect : Nat → Bytes → Exec (List (Bytes × V))) (I : Inv st cut path) {i : Nat}
    {n : Node V} {p : Bytes} (found : st.tryGetNode i = some n) (at' : path i = some p)
    (below : ∀ r j m, st.find i r = some j → st.tryGetNode j = some m →
      ∃ l, collect j (shown ++ p ++ [r]) = .ok l ∧ Lists st shown (p ++ r :: m.compression) l) :
    ∃ l, st.collectNode collect i n (shown ++ p) = .ok l ∧ Lists st shown p l := by
  -- The list of each child.
  obtain ⟨g, all⟩ : ∃ g : UInt8 × Nat → List (Bytes × V), ∀ x ∈ st.iterAllChildren i,
      collect x.2 (shown ++ p ++ [x.1]) = .ok (g x) ∧ ∀ m, st.tryGetNode x.2 = some m →
        Lists st shown (p ++ x.1 :: m.compression) (g x) := by
    refine ⟨fun x => (collect x.2 (shown ++ p ++ [x.1])).toOption.getD [], ?_⟩
    rintro ⟨r, j⟩ member
    have edge := I.kids.find_iff.2 member
    obtain ⟨l', read⟩ := I.forest.kidOcc edge
    obtain ⟨m, occupied, -⟩ := graph_label_iff.1 read
    obtain ⟨l, run, lists⟩ := below r j m edge occupied
    simp only [run, Except.toOption, Option.getD_some]
    refine ⟨trivial, fun m' occupied' => ?_⟩
    rw [← Option.some.inj (occupied.symm.trans occupied')]
    exact lists
  have child : ∀ x ∈ st.iterAllChildren i, ∃ m, st.tryGetNode x.2 = some m ∧
      Lists st shown (p ++ x.1 :: m.compression) (g x) := by
    intro x member
    obtain ⟨l', read⟩ := I.forest.kidOcc (I.kids.find_iff.2 member : st.find i x.1 = some x.2)
    obtain ⟨m, occupied, -⟩ := graph_label_iff.1 read
    exact ⟨m, occupied, (all x member).2 m occupied⟩
  have run : st.collectNode collect i n (shown ++ p) =
      .ok ((n.getValue st.now).toList.map (fun v => (shown ++ p, v)) ++ ((st.iterAllChildren i).map g).flatten) := by
    unfold collectNode
    rw [mapM_ok fun x member => (all x member).1]
    rfl
  refine ⟨_, run, ?_, ?_⟩
  · have keys : (((st.iterAllChildren i).map g).flatten.map Prod.fst) =
        ((st.iterAllChildren i).map fun x => (g x).map Prod.fst).flatten := by
      rw [List.map_flatten, List.map_map]
      rfl
    rw [List.map_append, keys, List.nodup_append]
    refine ⟨?_, ?_, ?_⟩
    · cases n.getValue st.now <;> simp
    · rw [List.nodup_flatten]
      constructor
      · intro l member
        obtain ⟨x, inside, rfl⟩ := List.mem_map.1 member
        obtain ⟨m, -, lists⟩ := child x inside
        exact lists.nodup
      · -- Keys below different links differ in the byte of the link.
        rw [List.pairwise_map]
        have radices := I.kids.nodup i
        rw [List.nodup_iff_pairwise_ne, List.pairwise_map] at radices
        refine radices.imp_of_mem ?_
        intro x y insidex insidey differ k first second
        obtain ⟨mx, -, listsx⟩ := child x insidex
        obtain ⟨my, -, listsy⟩ := child y insidey
        have keyx := listsx.key first
        have keyy := listsy.key second
        obtain ⟨t, rfl⟩ := keyx
        rw [List.append_assoc, List.append_assoc, List.prefix_append_right_inj, List.prefix_append_right_inj,
          List.cons_append, List.cons_prefix_cons] at keyy
        exact differ keyy.1.symm
    · rintro k own l' member rfl
      obtain ⟨l, inside, kin⟩ := List.mem_flatten.1 member
      obtain ⟨x, link, rfl⟩ := List.mem_map.1 inside
      obtain ⟨m, -, lists⟩ := child x link
      have longer := (lists.key kin).length_le
      have same : k = shown ++ p := by
        cases value : n.getValue st.now with
        | none => simp [value] at own
        | some v => simpa [value] using own
      rw [same] at longer
      simp only [List.length_append, List.length_cons] at longer
      omega
  · intro k v
    rw [List.mem_append, List.mem_flatten]
    constructor
    · rintro (own | ⟨l, inside, member⟩)
      · refine ⟨p, ?_, List.prefix_refl p, ?_⟩
        · cases value : n.getValue st.now with
          | none => simp [value] at own
          | some w => simp [value] at own; exact own.1
        · rw [← I.getValue_eq found at']
          cases value : n.getValue st.now with
          | none => simp [value] at own
          | some w => simp [value] at own; rw [own.2]
      · obtain ⟨x, link, rfl⟩ := List.mem_map.1 inside
        obtain ⟨m, -, lists⟩ := child x link
        obtain ⟨q, rfl, deeper, held⟩ := (lists.mem k v).1 member
        exact ⟨q, rfl, (List.prefix_append p _).trans deeper, held⟩
    · rintro ⟨q, rfl, ⟨t, rfl⟩, held⟩
      obtain ⟨c, live', rfl⟩ := Option.map_eq_some_iff.1 held
      have entry : st.entry (p ++ t) = some c := (Option.filter_eq_some_iff.1 live').1
      obtain ⟨j, atj, -⟩ := I.entry_iff.1 entry
      have reach := I.forest.reach_below at' atj
      cases t with
      | nil =>
        left
        rw [List.append_nil] at held ⊢
        rw [I.getValue_eq found at', held]
        simp
      | cons r t =>
        right
        obtain ⟨z, l', t', edge, read, rfl, -⟩ := reach.cons_inv
        have link := I.kids.find_iff.1 edge
        obtain ⟨m, occupied, lists⟩ := child (r, z) link
        obtain rfl := Option.some.inj ((graph_label occupied).symm.trans read)
        exact ⟨g (r, z), List.mem_map_of_mem link, (lists.mem _ _).2 ⟨_, rfl, ⟨t', by simp⟩, held⟩⟩

/-- The recursion is as deep as the tree below the node, which has no more nodes than the slab. -/
theorem collectAll_ok (I : Inv st cut path) {rank : Nat → Nat} (lower : ∀ {i r j}, st.graph.kid i r = some j → rank i < rank j)
    (shown : Bytes) (fuel : Nat) : ∀ (i : Nat) (n : Node V) (p pre : Bytes) (above : List Nat),
      st.tryGetNode i = some n → path i = some p → shown ++ p = pre ++ n.compression →
      above.Nodup → (∀ a ∈ above, a ∈ st.map.cells.keys ∧ rank a < rank i) → st.map.len + 1 ≤ fuel + above.length →
      ∃ l, st.collectAll fuel i pre = .ok l ∧ Lists st shown p l := by
  induction fuel with
  | zero =>
    intro i n p pre above _ _ _ nodup occupied enough
    have sub : above ⊆ st.map.cells.keys := fun a member => (occupied a member).1
    have bound := (List.subperm_of_subset nodup sub).length_le
    simp only [TaggedHiSlab.len] at enough
    omega
  | succ fuel ih =>
    intro i n p pre above found at' key nodup occupied enough
    simp only [collectAll, found, ← key]
    apply collectNode_ok _ _ I found at'
    intro r j m edge foundj
    have atj : path j = some (p ++ r :: m.compression) := by
      rw [I.forest.kidPath edge (graph_label foundj), at']
      rfl
    apply ih j m _ _ (i :: above) foundj atj (by simp)
    · rw [List.nodup_cons]
      exact ⟨fun member => Nat.lt_irrefl _ (occupied i member).2, nodup⟩
    · intro a member
      have down := lower edge
      rcases List.mem_cons.1 member with rfl | old
      · exact ⟨TaggedHiSlab.mem_keys_of_get found, down⟩
      · exact ⟨(occupied a old).1, (occupied a old).2.trans down⟩
    · simp only [List.length_cons]
      omega

/-- The node that covers a prefix, with its key. -/
theorem Inv.findPrefixNode_ok (I : Inv st cut path) (pfx : Bytes) :
    (∃ i n p, st.findPrefixNode pfx = some (i, p) ∧ st.tryGetNode i = some n ∧ path i = some p ∧ pfx <+: p ∧
        ∀ j q, path j = some q → pfx <+: q → p <+: q) ∨
      st.findPrefixNode pfx = none ∧ ∀ j q, path j = some q → ¬ pfx <+: q := by
  by_cases empty : pfx = []
  · subst empty
    obtain ⟨n, found⟩ := I.root_node
    exact .inl ⟨st.rootIdx, n, [], rfl, found, I.forest.rootPath, List.prefix_refl _, fun _ _ _ h => h⟩
  have notEmpty : pfx.isEmpty = false := by simpa using empty
  simp only [findPrefixNode, notEmpty, Bool.false_eq_true, if_false]
  cases outcome : st.walk pfx with
  | gone idx => exact absurd outcome (walk_ne_gone I.forest empty idx)
  | found idx parent radix keyPath =>
    obtain ⟨q, n, -, -, found, rfl, at', rfl⟩ := I.walk_found empty outcome
    refine .inl ⟨idx, n, q ++ radix :: n.compression, ?_, found, at', List.prefix_refl _, fun _ _ _ h => h⟩
    simp [found]
  | noChild idx keyRest =>
    obtain ⟨q, radix, rest, n, rfl, at', found, rfl, absent⟩ := I.walk_noChild empty outcome
    refine .inr ⟨rfl, ?_⟩
    rintro j _ atj ⟨t, rfl⟩
    rw [List.append_assoc] at atj
    obtain ⟨y, l, t', edge, -⟩ := (I.forest.reach_below at' atj).cons_inv
    exact absurd (absent.symm.trans edge) (by simp)
  | partialAt idx parent radix common keyRest keyPath =>
    obtain ⟨q, n, at', edge, found, rfl, parts, live, rfl⟩ := I.walk_partialAt empty outcome
    -- A node with the prefix goes through the node where the traversal stopped.
    have through : ∀ j k, path j = some k → q ++ radix :: keyRest <+: k → ∃ t t',
        k = q ++ radix :: (keyRest ++ t) ∧ keyRest ++ t = n.compression ++ t' := by
      rintro j _ atj ⟨t, rfl⟩
      rw [List.append_assoc] at atj
      obtain ⟨y, l, t', edge', read', same, -⟩ := (I.forest.reach_below at' atj).cons_inv
      obtain rfl := Option.some.inj (edge.symm.trans edge')
      obtain rfl := Option.some.inj ((graph_label found).symm.trans read')
      exact ⟨t, t', by simp, same⟩
    by_cases ends : common = keyRest.length
    · left
      refine ⟨idx, n, q ++ radix :: n.compression, by simp [found, ends], found, live, ?_, ?_⟩
      · have agree := parts.agree
        rw [ends, List.take_length] at agree
        exact (List.prefix_append_right_inj q).2 ((List.prefix_cons_inj radix).2 (agree ▸ List.take_prefix _ _))
      · intro j k atj inside
        obtain ⟨t, t', rfl, same⟩ := through j k atj inside
        exact ⟨t', by rw [same]; simp⟩
    · right
      refine ⟨by simp [found, ends], ?_⟩
      intro j k atj inside
      obtain ⟨t, t', -, same⟩ := through j k atj inside
      have bound : common < keyRest.length := Nat.lt_of_le_of_ne parts.bound ends
      refine (parts.leave.resolve_left ends) ?_
      rw [show keyRest[common]? = (keyRest ++ t)[common]? from (List.getElem?_append_left bound).symm, same, List.getElem?_append_left parts.inside]

/-- `getn` lists the live keys with the prefix; a scan from the root shows the root's compression. -/
theorem getn_ok (I : Inv st cut path) (pfx : Bytes) {root : Node V} (found : st.tryGetNode st.rootIdx = some root) :
    ∃ l, st.getn pfx = .ok l ∧ Lists st (if pfx = [] then root.compression else []) pfx l := by
  obtain ⟨rank, lower⟩ := I.forest.acyclic
  by_cases empty : pfx = []
  · subst empty
    simp only [getn, List.isEmpty_nil, if_true]
    exact collectAll_ok I lower root.compression _ st.rootIdx root [] [] [] found I.forest.rootPath (by simp)
      List.nodup_nil (fun a member => by cases member) (by simp)
  · have notEmpty : pfx.isEmpty = false := by simpa using empty
    simp only [getn, notEmpty, Bool.false_eq_true, if_false, if_neg empty]
    rcases I.findPrefixNode_ok pfx with ⟨i, n, p, target, foundi, at', covers, all⟩ | ⟨target, none'⟩
    · simp only [target, collectAllFrom, foundi]
      have collected := collectNode_ok [] (st.collectAll (st.map.len + 1)) I foundi at' (by
        intro r j m edge foundj
        have atj : path j = some (p ++ r :: m.compression) := by
          rw [I.forest.kidPath edge (graph_label foundj), at']
          rfl
        exact collectAll_ok I lower [] _ j m _ _ [] foundj atj (by simp) List.nodup_nil
          (fun a member => by cases member) (by simp))
      obtain ⟨l, run, lists⟩ := collected
      refine ⟨l, run, lists.nodup, fun k v => ?_⟩
      rw [lists.mem]
      -- Keys with the prefix are exactly the keys below the covering node.
      constructor
      · rintro ⟨q, same, below, held⟩
        exact ⟨q, same, covers.trans below, held⟩
      · rintro ⟨q, same, below, held⟩
        obtain ⟨c, live', -⟩ := Option.map_eq_some_iff.1 held
        obtain ⟨j, atj, -⟩ := I.entry_iff.1 (Option.filter_eq_some_iff.1 live').1
        exact ⟨q, same, all j q atj below, held⟩
    · simp only [target]
      refine ⟨[], rfl, List.nodup_nil, fun k v => ?_⟩
      constructor
      · intro member
        cases member
      · rintro ⟨q, -, below, held⟩
        obtain ⟨c, live', -⟩ := Option.map_eq_some_iff.1 held
        obtain ⟨j, atj, -⟩ := I.entry_iff.1 (Option.filter_eq_some_iff.1 live').1
        exact absurd below (none' j q atj)

end OxidArt

end Radixox.Oxidart
