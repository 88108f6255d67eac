import Radixox.Oxidart.Value

/-!
# Containers as finite maps

A hash is a map from fields to values and a sorted set a map from members to scores, in
both representations of each. Every operation is stated through the map it
has (`get`, `score`); what is iterated enumerates that map.
-/

namespace Radixox.Oxidart
set_option autoImplicit false
open Radixox.Assoc

/-- The list holds the pairs of the map, each key once. -/
def Enumerates {β : Type} (l : List (Bytes × β)) (m : Bytes → Option β) : Prop :=
  (l.map Prod.fst).Nodup ∧ ∀ k v, (k, v) ∈ l ↔ m k = some v

theorem enumerates_lookup {β : Type} {l : List (Bytes × β)} (nodup : (l.map Prod.fst).Nodup) :
    Enumerates l fun k => l.lookup k :=
  ⟨nodup, fun _ _ => (lookup_eq_some_iff_mem nodup).symm⟩

theorem Enumerates.perm {β : Type} {l l' : List (Bytes × β)} {m : Bytes → Option β} (E : Enumerates l m) (perm : l'.Perm l) :
    Enumerates l' m :=
  ⟨(perm.map Prod.fst).nodup_iff.2 E.1, fun k v => by rw [perm.mem_iff, E.2]⟩

theorem Enumerates.eq_nil_iff {β : Type} {l : List (Bytes × β)} {m : Bytes → Option β} (E : Enumerates l m) :
    l = [] ↔ m = fun _ => none := by
  constructor
  · rintro rfl
    funext k
    cases held : m k with
    | none => rfl
    | some v => exact absurd ((E.2 k v).2 held) (by simp)
  · intro none'
    rw [List.eq_nil_iff_forall_not_mem]
    rintro ⟨k, v⟩ member
    rw [E.2, none'] at member
    cases member

namespace HashMap

variable {β : Type}

theorem enumerates_pairs (m : HashMap β) : Enumerates (pairs m) fun k => m.lookup k := by
  refine ⟨?_, fun k v => ?_⟩
  · have keys : (pairs m).map Prod.fst = m.keys := by
      simp only [pairs, AList.keys, List.keys, List.map_map]
      rfl
    rw [keys]
    exact m.keys_nodup
  · have entry : m.lookup k = some v ↔ (⟨k, v⟩ : Sigma fun _ : Bytes => β) ∈ m.entries := AList.mem_lookup_iff
    rw [entry, pairs, List.mem_map]
    constructor
    · rintro ⟨e, member, same⟩
      obtain ⟨rfl, rfl⟩ := Prod.mk.inj same
      exact member
    · exact fun member => ⟨_, member, rfl⟩

theorem length_pairs (m : HashMap β) : (pairs m).length = m.keys.length := by
  simp [pairs, AList.keys, List.keys]

theorem lookup_insert_eq (m : HashMap β) (k : Bytes) (v : β) :
    (fun q => (m.insert k v).lookup q) = Function.update (fun q => m.lookup q) k (some v) := by
  funext q
  rw [Function.update_apply]
  by_cases same : q = k
  · rw [if_pos same, same, AList.lookup_insert]
  · rw [if_neg same, AList.lookup_insert_ne same]

theorem lookup_erase_eq (m : HashMap β) (k : Bytes) :
    (fun q => (m.erase k).lookup q) = Function.update (fun q => m.lookup q) k none := by
  funext q
  rw [Function.update_apply]
  by_cases same : q = k
  · rw [if_pos same, same, AList.lookup_erase]
  · rw [if_neg same, AList.lookup_erase_ne same]

/-- Moving a list of distinct keys into a hash map. -/
theorem lookup_foldl_insert {l : List (Bytes × β)} (nodup : (l.map Prod.fst).Nodup) : ∀ (m : HashMap β) (q : Bytes),
    (l.foldl (fun m p => m.insert p.1 p.2) m).lookup q = (l.lookup q).or (m.lookup q) := by
  induction l with
  | nil => exact fun m q => rfl
  | cons p rest ih =>
    intro m q
    rw [List.map_cons, List.nodup_cons] at nodup
    rw [List.foldl_cons, ih nodup.2, List.lookup_cons]
    by_cases same : q = p.1
    · rw [same, lookup_eq_none_iff_notMem.2 nodup.1, AList.lookup_insert]
      simp
    · rw [AList.lookup_insert_ne same, beq_eq_false_iff_ne.2 same]

end HashMap

/-! ## Hashes -/

namespace InnerHCommand

/-- The fields of the small form are distinct. -/
def Ok : InnerHCommand → Prop
  | small vec => (vec.map Prod.fst).Nodup
  | large _ => True

theorem ok_new : new.Ok := List.nodup_nil

theorem insert_ok {h : InnerHCommand} (ok : h.Ok) (field value : Bytes) :
    (h.insert field value).2.Ok ∧ (h.insert field value).2.get = Function.update h.get field (some value) ∧
      (h.insert field value).1 = (h.get field).isNone := by
  cases h with
  | large map => exact ⟨trivial, HashMap.lookup_insert_eq map field value, rfl⟩
  | small vec =>
    have get : (small vec).get = fun q => vec.lookup q := rfl
    simp only [insert]
    cases found : vec.findIdx? (fun p => p.1 = field) with
    | some i =>
      obtain ⟨bound, key, -⟩ := List.findIdx?_eq_some_iff_getElem.1 found
      have present : (vec.lookup field).isNone = false := by
        rw [← Bool.not_eq_true, Option.isNone_iff_eq_none, lookup_eq_none_iff_notMem, not_not]
        exact List.mem_map.2 ⟨vec[i], List.getElem_mem bound, of_decide_eq_true key⟩
      refine ⟨?_, lookup_set_findIdx found value, present.symm⟩
      simpa only [Ok, keys_set_findIdx found] using ok
    | none =>
      have fresh : field ∉ vec.map Prod.fst := by
        rintro member
        obtain ⟨p, inside, same⟩ := List.mem_map.1 member
        simpa [same] using List.findIdx?_eq_none_iff.1 found p inside
      have absent : vec.lookup field = none := lookup_eq_none_iff_notMem.2 fresh
      have new : true = ((small vec).get field).isNone := by
        change true = (vec.lookup field).isNone
        rw [absent]
        rfl
      simp only
      split
      · refine ⟨trivial, ?_, new⟩
        refine (HashMap.lookup_insert_eq _ field value).trans ?_
        congr 1
        funext q
        rw [HashMap.lookup_foldl_insert ok, AList.lookup_empty, Option.or_none]
        rfl
      · refine ⟨?_, ?_, new⟩
        · simp only [Ok, List.map_append, List.map_cons, List.map_nil]
          exact List.nodup_append.2 ⟨ok, List.nodup_singleton _, by
            rintro a inside b new rfl
            rw [List.mem_singleton] at new
            exact fresh (new ▸ inside)⟩
        · funext q
          rw [get, Function.update_apply]
          change (vec ++ [(field, value)]).lookup q = _
          rw [List.lookup_append]
          by_cases same : q = field
          · rw [same, absent]
            simp
          · simp [same, List.lookup_cons, beq_eq_false_iff_ne.2 same]

theorem del_ok {h : InnerHCommand} (ok : h.Ok) (field : Bytes) :
    (h.del field).2.Ok ∧ (h.del field).2.get = Function.update h.get field none ∧ (h.del field).1 = h.get field := by
  cases h with
  | large map => exact ⟨trivial, HashMap.lookup_erase_eq map field, rfl⟩
  | small vec =>
    simp only [del]
    cases removed : removeKey vec field with
    | none =>
      have absent : (small vec).get field = none := lookup_eq_none_iff_notMem.2 (removeKey_eq_none.1 removed)
      refine ⟨ok, ?_, absent.symm⟩
      rw [← absent, Function.update_eq_self]
    | some p =>
      obtain ⟨value, rest⟩ := p
      obtain ⟨nodup, held, lookup⟩ := lookup_removeKey ok removed
      exact ⟨nodup, lookup, held.symm⟩

theorem discard_ok {h : InnerHCommand} (ok : h.Ok) (field : Bytes) :
    (h.discard field).2.Ok ∧ (h.discard field).2.get = Function.update h.get field none ∧
      (h.discard field).1 = (h.get field).isSome := by
  obtain ⟨ok', map, old⟩ := del_ok ok field
  exact ⟨ok', map, congrArg Option.isSome old⟩

theorem enumerates_iter {h : InnerHCommand} (ok : h.Ok) (order : HashOrder) :
    Enumerates (h.iter order) h.get ∧ (h.iter order).length = h.len := by
  cases h with
  | small vec => exact ⟨enumerates_lookup ok, rfl⟩
  | large map =>
    refine ⟨(HashMap.enumerates_pairs map).perm (order.enum_perm _), ?_⟩
    exact (order.enum_perm _).length_eq.trans (HashMap.length_pairs map)

theorem isEmpty_iff {h : InnerHCommand} (ok : h.Ok) : h.isEmpty = true ↔ h.get = fun _ => none := by
  obtain ⟨E, length⟩ := enumerates_iter ok .stored
  rw [← E.eq_nil_iff, ← List.length_eq_zero_iff, length]
  simp [isEmpty]

end InnerHCommand

/-! ## Sorted sets -/

section Zset

variable {S : Type} [Score S]

/-- The list holds the members of the map in ascending order of score, then of member. -/
def Ranks (l : List (ZItem S)) (m : Bytes → Option S) : Prop :=
  l.Pairwise (· < ·) ∧ ∀ x, x ∈ l ↔ m x.member = some x.score

omit [Score S] in
theorem ZItem.eq_mk_iff (x : ZItem S) (s : S) (m : Bytes) : x = .mk s m ↔ x.score = s ∧ x.member = m := by
  constructor
  · rintro rfl
    exact ⟨rfl, rfl⟩
  · rintro ⟨rfl, rfl⟩
    rfl

theorem Ranks.eq_nil_iff {l : List (ZItem S)} {m : Bytes → Option S} (R : Ranks l m) : l = [] ↔ m = fun _ => none := by
  constructor
  · rintro rfl
    funext k
    cases held : m k with
    | none => rfl
    | some s => exact absurd ((R.2 (.mk s k)).2 held) (by simp)
  · intro none'
    rw [List.eq_nil_iff_forall_not_mem]
    intro x member
    rw [R.2, none'] at member
    cases member

/-- A ranking lists every member once. -/
theorem Ranks.nodup_members {l : List (ZItem S)} {m : Bytes → Option S} (R : Ranks l m) : (l.map ZItem.member).Nodup := by
  refine (List.nodup_map_iff_inj_on (nodup_of_sorted R.1)).2 ?_
  intro x inside y inside' same
  have left := (R.2 x).1 inside
  have right := (R.2 y).1 inside'
  rw [same, right] at left
  exact (ZItem.eq_mk_iff x _ _).2 ⟨(Option.some.inj left).symm, same⟩

/-- Setting the score of a member: its old item, if any, is gone from `l`. -/
theorem Ranks.update {l : List (ZItem S)} {m : Bytes → Option S} {member : Bytes} (R : Ranks l (Function.update m member none))
    (score : S) : Ranks (insertSorted l (.mk score member)) (Function.update m member (some score)) := by
  have absent : ZItem.mk score member ∉ l := by
    intro inside
    have := (R.2 _).1 inside
    change Function.update m member none member = some score at this
    rw [Function.update_self] at this
    cases this
  refine ⟨insertSorted_sorted R.1 absent, fun x => ?_⟩
  rw [(insertSorted_perm l _).mem_iff, List.mem_cons, R.2, Function.update_apply, Function.update_apply, ZItem.eq_mk_iff]
  by_cases same : x.member = member
  · simp [same, eq_comm]
  · simp [same]

/-- Dropping the item of a member. -/
theorem Ranks.drop {l l' : List (ZItem S)} {m : Bytes → Option S} {x : ZItem S} (R : Ranks l m) (perm : l.Perm (x :: l'))
    (sub : l'.Sublist l) : Ranks l' (Function.update m x.member none) := by
  refine ⟨R.1.sublist sub, fun y => ?_⟩
  have nodup := perm.nodup_iff.1 (nodup_of_sorted R.1)
  rw [List.nodup_cons] at nodup
  have held : m x.member = some x.score := (R.2 x).1 (perm.mem_iff.2 List.mem_cons_self)
  rw [Function.update_apply]
  constructor
  · intro inside
    have other : y.member ≠ x.member := by
      intro same
      have heldy := (R.2 y).1 (sub.subset inside)
      rw [same, held] at heldy
      have : y = x := (ZItem.eq_mk_iff y _ _).2 ⟨(Option.some.inj heldy).symm, same⟩
      exact nodup.1 (this ▸ inside)
    rw [if_neg other]
    exact (R.2 y).1 (sub.subset inside)
  · intro heldy
    split at heldy
    · cases heldy
    next other =>
      rcases List.mem_cons.1 (perm.mem_iff.1 ((R.2 y).2 heldy)) with rfl | inside
      · exact absurd rfl other
      · exact inside

namespace InnerZCommand

/-- The small form ranks its members; the two indexes of the large form agree. -/
def Ok : InnerZCommand S → Prop
  | small vec => vec.Pairwise (· < ·) ∧ (vec.map ZItem.member).Nodup
  | large zset => ∀ x, x ∈ zset.sorted.items ↔ zset.scores.lookup x.member = some x.score

theorem ok_new : (new : InnerZCommand S).Ok := ⟨List.Pairwise.nil, List.nodup_nil⟩

theorem ranks_small {vec : List (ZItem S)} (ok : (small vec).Ok) : Ranks vec (small vec).score := by
  refine ⟨ok.1, fun x => ?_⟩
  change x ∈ vec ↔ (vec.find? (fun y => y.member = x.member)).map ZItem.score = some x.score
  rw [Option.map_eq_some_iff]
  constructor
  · intro inside
    cases found : vec.find? (fun y => y.member = x.member) with
    | none => simpa using List.find?_eq_none.1 found x inside
    | some y =>
      have same : y.member = x.member := by simpa using List.find?_some found
      have : y = x := List.inj_on_of_nodup_map ok.2 (List.mem_of_find?_eq_some found) inside same
      exact ⟨y, rfl, this ▸ rfl⟩
  · rintro ⟨y, found, same⟩
    have member : y.member = x.member := by simpa using List.find?_some found
    have : y = x := (ZItem.eq_mk_iff y _ _).2 ⟨same, member⟩
    exact this ▸ List.mem_of_find?_eq_some found

theorem ranks_iter {z : InnerZCommand S} (ok : z.Ok) : Ranks z.iter z.score := by
  cases z with
  | small vec => exact ranks_small ok
  | large zset => exact ⟨zset.sorted.sorted, ok⟩

/-- A list that ranks a map is a small form of it. -/
theorem small_of_ranks {vec : List (ZItem S)} {m : Bytes → Option S} (R : Ranks vec m) :
    (small vec).Ok ∧ (small vec).score = m := by
  have ok : (small vec).Ok := ⟨R.1, R.nodup_members⟩
  refine ⟨ok, ?_⟩
  funext k
  apply Option.ext
  intro s
  exact ((ranks_small ok).2 (.mk s k)).symm.trans (R.2 (.mk s k))

theorem len_eq {z : InnerZCommand S} (ok : z.Ok) : z.iter.length = z.len := by
  cases z with
  | small vec => rfl
  | large zset =>
    have R := ranks_iter ok
    have perm : (zset.sorted.items.map ZItem.member).Perm zset.scores.keys := by
      refine (List.perm_ext_iff_of_nodup R.nodup_members zset.scores.keys_nodup).2 fun k => ?_
      rw [← AList.mem_keys, ← AList.lookup_isSome, Option.isSome_iff_exists, List.mem_map]
      constructor
      · rintro ⟨x, inside, rfl⟩
        exact ⟨x.score, (ok x).1 inside⟩
      · rintro ⟨s, held⟩
        exact ⟨.mk s k, (ok (.mk s k)).2 held, rfl⟩
    simpa [iter, len, ZSetInner.len] using perm.length_eq

theorem isEmpty_iff {z : InnerZCommand S} (ok : z.Ok) : z.isEmpty = true ↔ z.score = fun _ => none := by
  rw [← (ranks_iter ok).eq_nil_iff, ← List.length_eq_zero_iff, len_eq ok]
  simp [isEmpty]

/-- The item that `findIdx?` finds, taken out. -/
theorem ranks_eraseIdx {vec : List (ZItem S)} (ok : (small vec).Ok) {member : Bytes} {pos : Nat}
    (found : vec.findIdx? (fun x => x.member = member) = some pos) :
    ∃ score, vec[pos]? = some (.mk score member) ∧ (small vec).score member = some score ∧
      Ranks (vec.eraseIdx pos) (Function.update (small vec).score member none) := by
  obtain ⟨bound, key, -⟩ := List.findIdx?_eq_some_iff_getElem.1 found
  have same : vec[pos].member = member := of_decide_eq_true key
  have R := ranks_small ok
  have perm : vec.Perm (vec[pos] :: vec.eraseIdx pos) := (List.getElem_cons_eraseIdx_perm bound).symm
  refine ⟨vec[pos].score, ?_, ?_, same ▸ R.drop perm (List.eraseIdx_sublist vec pos)⟩
  · rw [List.getElem?_eq_getElem bound, Option.some.injEq, ZItem.eq_mk_iff]
    exact ⟨rfl, same⟩
  · rw [← same]
    exact (R.2 _).1 (List.getElem_mem bound)

theorem score_eq_none {vec : List (ZItem S)} {member : Bytes} (found : vec.findIdx? (fun x => x.member = member) = none) :
    (small vec).score member = none := by
  change (vec.find? (fun x => x.member = member)).map ZItem.score = none
  rw [Option.map_eq_none_iff, List.find?_eq_none]
  intro x inside
  simpa using List.findIdx?_eq_none_iff.1 found x inside

/-- The promotion of a ranked vector to the double index. -/
theorem promote_ok {vec : List (ZItem S)} (ok : (small vec).Ok) :
    (fun q => (vec.foldl (fun (m : HashMap S) x => m.insert x.member x.score) ∅).lookup q) = (small vec).score ∧
      ∀ x, x ∈ (vec.foldl (fun (s : SortedSet (ZItem S)) x => (s.insert x).2) .empty).items ↔ x ∈ vec := by
  constructor
  · have pairs : vec.foldl (fun (m : HashMap S) x => m.insert x.member x.score) ∅ =
        (vec.map fun x => (x.member, x.score)).foldl (fun m p => m.insert p.1 p.2) ∅ := by rw [List.foldl_map]
    have nodup : ((vec.map fun x => (x.member, x.score)).map Prod.fst).Nodup := by
      rw [List.map_map]
      exact ok.2
    funext q
    rw [pairs, HashMap.lookup_foldl_insert nodup, AList.lookup_empty, Option.or_none]
    apply Option.ext
    intro s
    rw [lookup_eq_some_iff_mem nodup, List.mem_map]
    refine Iff.trans ?_ ((ranks_small ok).2 (.mk s q))
    constructor
    · rintro ⟨x, inside, same⟩
      obtain ⟨rfl, rfl⟩ := Prod.mk.inj same
      exact inside
    · exact fun inside => ⟨_, inside, rfl⟩
  · have mem : ∀ (l : List (ZItem S)) (s : SortedSet (ZItem S)) (x : ZItem S),
        x ∈ (l.foldl (fun s x => (s.insert x).2) s).items ↔ x ∈ s.items ∨ x ∈ l := by
      intro l
      induction l with
      | nil => simp
      | cons y l ih =>
        intro s x
        rw [List.foldl_cons, ih, SortedSet.mem_insert, List.mem_cons]
        tauto
    intro x
    rw [mem]
    simp [SortedSet.empty]

section Large

variable {zset : ZSetInner S}

/-- The set of items without the one of a member is the score map without that member. -/
theorem large_without (ok : (large zset).Ok) {member : Bytes} {sorted : SortedSet (ZItem S)}
    (gone : ∀ x, x ∈ sorted.items ↔ x.member ≠ member ∧ x ∈ zset.sorted.items) (x : ZItem S) :
    x ∈ sorted.items ↔ Function.update (large zset).score member none x.member = some x.score := by
  rw [gone, ok x, Function.update_apply]
  by_cases same : x.member = member
  · simp [same]
  · simp only [ne_eq, same, not_false_eq_true, true_and, if_false]
    rfl

theorem mem_removed (ok : (large zset).Ok) {member : Bytes} {old : S} (held : zset.scores.lookup member = some old)
    (x : ZItem S) : x ∈ (zset.sorted.remove (.mk old member)).2.items ↔ x.member ≠ member ∧ x ∈ zset.sorted.items := by
  rw [SortedSet.mem_remove]
  constructor
  · rintro ⟨differ, inside⟩
    refine ⟨fun same => differ ?_, inside⟩
    have := (ok x).1 inside
    rw [same, held] at this
    exact (ZItem.eq_mk_iff x _ _).2 ⟨(Option.some.inj this).symm, same⟩
  · rintro ⟨differ, inside⟩
    exact ⟨fun same => differ ((ZItem.eq_mk_iff x _ _).1 same).2, inside⟩

/-- Setting a score in both indexes. -/
theorem large_put {m : Bytes → Option S} {member : Bytes} {sorted : SortedSet (ZItem S)} {scores : HashMap S}
    (agree : ∀ x : ZItem S, x ∈ sorted.items ↔ Function.update m member none x.member = some x.score)
    (lookup : (fun q => scores.lookup q) = m) (score : S) :
    (large ⟨(sorted.insert (.mk score member)).2, scores.insert member score⟩ : InnerZCommand S).Ok ∧
      (large ⟨(sorted.insert (.mk score member)).2, scores.insert member score⟩ : InnerZCommand S).score =
        Function.update m member (some score) := by
  have scores' : (fun q => (scores.insert member score).lookup q) = Function.update m member (some score) := by
    rw [HashMap.lookup_insert_eq, lookup]
  refine ⟨fun x => ?_, scores'⟩
  have read : (scores.insert member score).lookup x.member = Function.update m member (some score) x.member :=
    congrFun scores' x.member
  change x ∈ (sorted.insert (.mk score member)).2.items ↔ (scores.insert member score).lookup x.member = some x.score
  rw [SortedSet.mem_insert, read, agree, Function.update_apply, Function.update_apply, ZItem.eq_mk_iff]
  by_cases same : x.member = member
  · simp [same, eq_comm]
  · simp [same]

end Large

theorem insert_ok {z : InnerZCommand S} (ok : z.Ok) (score : S) (member : Bytes) :
    (z.insert score member).2.Ok ∧ (z.insert score member).2.score = Function.update z.score member (some score) ∧
      (z.insert score member).1 = (z.score member).isNone := by
  cases z with
  | small vec =>
    simp only [insert]
    cases found : vec.findIdx? (fun x => x.member = member) with
    | some pos =>
      obtain ⟨old, here, held, R⟩ := ranks_eraseIdx ok found
      simp only [here, Option.map_some, Option.some.injEq]
      split
      next same =>
        have same : old = score := same
        refine ⟨ok, ?_, by rw [held]; rfl⟩
        rw [← same, ← held, Function.update_eq_self]
      next =>
        obtain ⟨ok', scores⟩ := small_of_ranks (R.update score)
        exact ⟨ok', scores, by rw [held]; rfl⟩
    | none =>
      have absent := score_eq_none found
      have R : Ranks vec (Function.update (small vec).score member none) := by
        rw [← absent, Function.update_eq_self]
        exact ranks_small ok
      simp only
      split
      · obtain ⟨lookup, items⟩ := promote_ok ok
        obtain ⟨ok', scores⟩ := large_put (fun x => (items x).trans (R.2 x)) lookup score
        exact ⟨ok', scores, by rw [absent]; rfl⟩
      · obtain ⟨ok', scores⟩ := small_of_ranks (R.update score)
        exact ⟨ok', scores, by rw [absent]; rfl⟩
  | large zset =>
    have lookup : (fun q => zset.scores.lookup q) = (large zset).score := rfl
    simp only [insert, ZSetInner.insert]
    cases held : zset.scores.lookup member with
    | some old =>
      have held' : (large zset).score member = some old := held
      simp only
      split
      · obtain ⟨ok', scores⟩ := large_put (large_without ok (mem_removed ok held)) lookup score
        exact ⟨ok', scores, by rw [held']⟩
      next same =>
        rw [ne_eq, not_not] at same
        refine ⟨ok, ?_, by rw [held']; rfl⟩
        rw [← same, ← held', Function.update_eq_self]
    | none =>
      have absent : (large zset).score member = none := held
      have agree : ∀ x : ZItem S, x ∈ zset.sorted.items ↔
          Function.update (large zset).score member none x.member = some x.score := by
        rw [← absent, Function.update_eq_self]
        exact ok
      obtain ⟨ok', scores⟩ := large_put agree lookup score
      exact ⟨ok', scores, by rw [absent]⟩

theorem remove_ok {z : InnerZCommand S} (ok : z.Ok) (member : Bytes) :
    (z.remove member).2.Ok ∧ (z.remove member).2.score = Function.update z.score member none ∧
      (z.remove member).1 = (z.score member).isSome := by
  cases z with
  | small vec =>
    simp only [remove]
    cases found : vec.findIdx? (fun x => x.member = member) with
    | none =>
      have absent := score_eq_none found
      refine ⟨ok, ?_, by rw [absent]; rfl⟩
      rw [← absent, Function.update_eq_self]
    | some pos =>
      obtain ⟨score, -, held, R⟩ := ranks_eraseIdx ok found
      obtain ⟨ok', scores⟩ := small_of_ranks R
      exact ⟨ok', scores, by rw [held]; rfl⟩
  | large zset =>
    simp only [remove, ZSetInner.remove]
    cases held : zset.scores.lookup member with
    | none =>
      have absent : (large zset).score member = none := held
      have same : Function.update (large zset).score member none = (large zset).score := by
        rw [← absent, Function.update_eq_self]
      exact ⟨ok, same.symm, by rw [absent]; rfl⟩
    | some old =>
      have held' : (large zset).score member = some old := held
      have lookup := HashMap.lookup_erase_eq zset.scores member
      refine ⟨fun x => ?_, lookup, by rw [held']; rfl⟩
      have read : (zset.scores.erase member).lookup x.member = Function.update (large zset).score member none x.member :=
        congrFun lookup x.member
      exact (large_without ok (mem_removed ok held) x).trans (by rw [← read])

end InnerZCommand

end Zset

end Radixox.Oxidart
