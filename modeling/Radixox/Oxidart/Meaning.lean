import Mathlib.Data.Finset.Card
import Mathlib.Data.Finset.Dedup
import Radixox.Oxidart.Commands
import Radixox.Oxidart.Containers

/-!
# What a typed value means

`RefValue` forgets how a container is stored: a hash is a map from fields to values, a
set a set of members, a sorted set a map from members to scores. The loops of the
writing and removing commands are computed on these maps, with their counts: what is added
are the distinct new keys, what is removed the distinct keys that were there.
-/

namespace Radixox.Oxidart
set_option autoImplicit false

/-! ## Finite maps under a list of writes -/

section Maps

variable {β : Type}

/-- The map after writing the pairs in order. -/
def overwrite (m : Bytes → Option β) (pairs : List (Bytes × β)) : Bytes → Option β :=
  pairs.foldl (fun m p => Function.update m p.1 (some p.2)) m

/-- The map without the keys. -/
def without (m : Bytes → Option β) (keys : List Bytes) : Bytes → Option β := fun k => if k ∈ keys then none else m k

/-- How many distinct keys are new to the map, as a `u32`. -/
def countNew (m : Bytes → Option β) (keys : List Bytes) : UInt32 :=
  UInt32.ofNat (keys.toFinset.filter fun k => (m k).isNone).card

/-- How many distinct keys the map holds, as a `u32`. -/
def countHeld (m : Bytes → Option β) (keys : List Bytes) : UInt32 :=
  UInt32.ofNat (keys.toFinset.filter fun k => (m k).isSome).card

/-- The last write of a key wins. -/
theorem overwrite_apply (m : Bytes → Option β) (pairs : List (Bytes × β)) (k : Bytes) :
    overwrite m pairs k = (pairs.reverse.lookup k).or (m k) := by
  induction pairs generalizing m with
  | nil => rfl
  | cons p rest ih =>
    obtain ⟨q, v⟩ := p
    rw [overwrite, List.foldl_cons]
    refine (ih _).trans ?_
    rw [List.reverse_cons, List.lookup_append, Option.or_assoc, Function.update_apply]
    by_cases same : k = q
    · simp [same]
    · simp [same, List.lookup_cons, beq_eq_false_iff_ne.2 same]

/-- One more element, counted apart from the others. -/
theorem card_filter_insert (s : Finset Bytes) (k : Bytes) (p : Bytes → Bool) :
    ((insert k s).filter fun q => p q).card = (if p k then 1 else 0) + ((s.filter fun q => p q).erase k).card := by
  rw [Finset.filter_insert]
  split
  · rw [← Finset.insert_erase (Finset.mem_insert_self k _), Finset.erase_insert_eq_erase,
      Finset.card_insert_of_notMem (Finset.notMem_erase _ _), Nat.add_comm]
  next absent =>
    rw [Finset.erase_eq_of_notMem, Nat.zero_add]
    intro member
    exact absent (Finset.mem_filter.1 member).2

/-- The first key, and the others after its write. -/
theorem countNew_cons (m : Bytes → Option β) (k : Bytes) (v : β) (keys : List Bytes) :
    countNew m (k :: keys) = (if (m k).isNone then 1 else 0) + countNew (Function.update m k (some v)) keys := by
  have rest : (keys.toFinset.filter fun q => (Function.update m k (some v) q).isNone) =
      (keys.toFinset.filter fun q => (m q).isNone).erase k := by
    ext q
    simp only [Finset.mem_filter, Finset.mem_erase, Function.update_apply]
    by_cases same : q = k <;> simp [same]
  rw [countNew, countNew, rest, List.toFinset_cons, card_filter_insert _ k fun q => (m q).isNone, UInt32.ofNat_add]
  split <;> rfl

/-- The first key, and the others after its removal. -/
theorem countHeld_cons (m : Bytes → Option β) (k : Bytes) (keys : List Bytes) :
    countHeld m (k :: keys) = (if (m k).isSome then 1 else 0) + countHeld (Function.update m k none) keys := by
  have rest : (keys.toFinset.filter fun q => (Function.update m k none q).isSome) =
      (keys.toFinset.filter fun q => (m q).isSome).erase k := by
    ext q
    simp only [Finset.mem_filter, Finset.mem_erase, Function.update_apply]
    by_cases same : q = k <;> simp [same]
  rw [countHeld, countHeld, rest, List.toFinset_cons, card_filter_insert _ k fun q => (m q).isSome, UInt32.ofNat_add]
  split <;> rfl

theorem without_nil (m : Bytes → Option β) : without m [] = m := by
  funext k
  simp [without]

theorem without_cons (m : Bytes → Option β) (k : Bytes) (keys : List Bytes) :
    without m (k :: keys) = without (Function.update m k none) keys := by
  funext q
  simp only [without, List.mem_cons, Function.update_apply]
  by_cases same : q = k <;> simp [same]

end Maps

/-! ## The loops of the commands -/

section Loops

variable {C ι β : Type} {act : C → ι → Bool × C}

theorem countLoop_cons (act : C → ι → Bool × C) (c : C) (item : ι) (items : List ι) :
    OxidArt.countLoop act c (item :: items) =
      ((if (act c item).1 then 1 else 0) + (OxidArt.countLoop act (act c item).2 items).1,
        (OxidArt.countLoop act (act c item).2 items).2) := by
  have shift : ∀ (items : List ι) (n : UInt32) (c : C), items.foldl (fun (p : UInt32 × C) item =>
      (if (act p.2 item).1 then p.1 + 1 else p.1, (act p.2 item).2)) (n, c) =
        (n + (OxidArt.countLoop act c items).1, (OxidArt.countLoop act c items).2) := by
    intro items
    induction items with
    | nil => intro n c; simp [OxidArt.countLoop]
    | cons item items ih =>
      intro n c
      have first := ih (if (act c item).1 then 0 + 1 else 0) (act c item).2
      simp only [OxidArt.countLoop, List.foldl_cons] at ih first ⊢
      rw [ih, first]
      split <;> simp [UInt32.add_assoc]
  simp only [OxidArt.countLoop, List.foldl_cons]
  refine (shift items _ _).trans ?_
  split <;> simp [OxidArt.countLoop]

variable {Ok : C → Prop} {get : C → Bytes → Option β}

/-- A loop of writes. -/
theorem countLoop_puts {pair : ι → Bytes × β} (puts : ∀ c item, Ok c → Ok (act c item).2 ∧
      get (act c item).2 = Function.update (get c) (pair item).1 (some (pair item).2) ∧
      (act c item).1 = (get c (pair item).1).isNone) (items : List ι) :
    ∀ c, Ok c → Ok (OxidArt.countLoop act c items).2 ∧
      get (OxidArt.countLoop act c items).2 = overwrite (get c) (items.map pair) ∧
      (OxidArt.countLoop act c items).1 = countNew (get c) (items.map fun item => (pair item).1) := by
  induction items with
  | nil => exact fun c ok => ⟨ok, rfl, rfl⟩
  | cons item items ih =>
    intro c ok
    obtain ⟨ok₁, map, hit⟩ := puts c item ok
    obtain ⟨ok', map', count⟩ := ih (act c item).2 ok₁
    rw [countLoop_cons]
    refine ⟨ok', ?_, ?_⟩
    · rw [map', map]
      rfl
    · simp only [List.map_cons]
      rw [count, map, hit, countNew_cons _ _ (pair item).2]

/-- A loop of removals. -/
theorem countLoop_drops {act : C → Bytes → Bool × C} (drops : ∀ c k, Ok c → Ok (act c k).2 ∧
      get (act c k).2 = Function.update (get c) k none ∧ (act c k).1 = (get c k).isSome) (keys : List Bytes) :
    ∀ c, Ok c → Ok (OxidArt.countLoop act c keys).2 ∧ get (OxidArt.countLoop act c keys).2 = without (get c) keys ∧
      (OxidArt.countLoop act c keys).1 = countHeld (get c) keys := by
  induction keys with
  | nil => exact fun c ok => ⟨ok, (without_nil _).symm, rfl⟩
  | cons k keys ih =>
    intro c ok
    obtain ⟨ok₁, map, hit⟩ := drops c k ok
    obtain ⟨ok', map', count⟩ := ih (act c k).2 ok₁
    rw [countLoop_cons]
    refine ⟨ok', ?_, ?_⟩
    · rw [map', map, without_cons]
    · rw [count, map, hit, countHeld_cons]

end Loops

/-! ## Values -/

/-- The members of a set, as a map to the unit. -/
def memberMap (s : SortedSet Bytes) (k : Bytes) : Option Unit := if s.contains k then some () else none

theorem memberMap_insert (s : SortedSet Bytes) (k : Bytes) :
    memberMap (s.insert k).2 = Function.update (memberMap s) k (some ()) ∧ (s.insert k).1 = (memberMap s k).isNone := by
  constructor
  · funext q
    simp only [memberMap, SortedSet.contains, SortedSet.mem_insert, Function.update_apply]
    by_cases same : q = k <;> simp [same]
  · rw [SortedSet.insert_fst, memberMap]
    cases s.contains k <;> rfl

theorem memberMap_remove (s : SortedSet Bytes) (k : Bytes) :
    memberMap (s.remove k).2 = Function.update (memberMap s) k none ∧ (s.remove k).1 = (memberMap s k).isSome := by
  constructor
  · funext q
    simp only [memberMap, SortedSet.contains, SortedSet.mem_remove, Function.update_apply]
    by_cases same : q = k <;> simp [same]
  · change s.contains k = _
    rw [memberMap]
    cases s.contains k <;> rfl

theorem isEmpty_iff_memberMap (s : SortedSet Bytes) : s.isEmpty = true ↔ memberMap s = fun _ => none := by
  rw [SortedSet.isEmpty, List.isEmpty_iff, List.eq_nil_iff_forall_not_mem]
  constructor
  · intro none'
    funext k
    simp [memberMap, SortedSet.contains, none' k]
  · intro none' k member
    have := congrFun none' k
    simp [memberMap, SortedSet.contains, member] at this

inductive RefValue (S : Type) where
  | string (bytes : Bytes)
  | int (n : Int64)
  | hash (fields : Bytes → Option Bytes)
  | list (items : List Bytes)
  | set (members : Bytes → Option Unit)
  | zset (scores : Bytes → Option S)

namespace Value

variable {S : Type} [Score S]

def meaning : Value S → RefValue S
  | string bytes => .string bytes
  | int n => .int n
  | hash inner => .hash inner.get
  | list items => .list items
  | set members => .set (memberMap members)
  | zset inner => .zset inner.score

/-- The container keeps its own invariant. -/
def Ok : Value S → Prop
  | hash inner => inner.Ok
  | zset inner => inner.Ok
  | string _ | int _ | list _ | set _ => True

end Value

namespace RefValue

variable {S : Type}

def redisType : RefValue S → RedisType
  | string _ => .string
  | int _ => .string
  | hash _ => .hash
  | list _ => .list
  | set _ => .set
  | zset _ => .zset

def asHash : RefValue S → Except RedisType (Bytes → Option Bytes)
  | hash fields => .ok fields
  | v => .error v.redisType

def asSet : RefValue S → Except RedisType (Bytes → Option Unit)
  | set members => .ok members
  | v => .error v.redisType

def asZset : RefValue S → Except RedisType (Bytes → Option S)
  | zset scores => .ok scores
  | v => .error v.redisType

/-- A container with at least one element; everything else counts as full. -/
def Full : RefValue S → Prop
  | hash fields => fields ≠ fun _ => none
  | set members => members ≠ fun _ => none
  | zset scores => scores ≠ fun _ => none
  | string _ | int _ | list _ => True

end RefValue

/-! ## The kinds of containers -/

/-- A container type of the source with the map it stands for. -/
structure Kind (S : Type) [Score S] (C β : Type) where
  view : Value S → Except RedisType C
  wrap : C → Value S
  new : C
  isEmpty : C → Bool
  Ok : C → Prop
  get : C → Bytes → Option β
  refView : RefValue S → Except RedisType (Bytes → Option β)
  refWrap : (Bytes → Option β) → RefValue S
  view_wrap : ∀ c, view (wrap c) = .ok c
  eq_wrap : ∀ v c, view v = .ok c → v = wrap c
  refView_meaning : ∀ v : Value S, refView v.meaning = (view v).map get
  meaning_wrap : ∀ c, (wrap c).meaning = refWrap (get c)
  ok_wrap : ∀ c, (wrap c).Ok ↔ Ok c
  ok_new : Ok new
  get_new : get new = fun _ => none
  isEmpty_iff : ∀ c, Ok c → (isEmpty c = true ↔ get c = fun _ => none)
  full_iff : ∀ m, (refWrap m).Full ↔ m ≠ fun _ => none

namespace Kind

variable (S : Type) [Score S]

def hash : Kind S InnerHCommand Bytes where
  view := Value.asHash
  wrap := .hash
  new := .new
  isEmpty := InnerHCommand.isEmpty
  Ok := InnerHCommand.Ok
  get := InnerHCommand.get
  refView := RefValue.asHash
  refWrap := .hash
  view_wrap _ := rfl
  eq_wrap v c same := by cases v <;> simp_all [Value.asHash]
  refView_meaning v := by cases v <;> rfl
  meaning_wrap _ := rfl
  ok_wrap _ := Iff.rfl
  ok_new := InnerHCommand.ok_new
  get_new := rfl
  isEmpty_iff _ ok := InnerHCommand.isEmpty_iff ok
  full_iff _ := Iff.rfl

def set : Kind S (SortedSet Bytes) Unit where
  view := Value.asSet
  wrap := .set
  new := .empty
  isEmpty := SortedSet.isEmpty
  Ok _ := True
  get := memberMap
  refView := RefValue.asSet
  refWrap := .set
  view_wrap _ := rfl
  eq_wrap v c same := by cases v <;> simp_all [Value.asSet]
  refView_meaning v := by cases v <;> rfl
  meaning_wrap _ := rfl
  ok_wrap _ := Iff.rfl
  ok_new := trivial
  get_new := rfl
  isEmpty_iff c _ := isEmpty_iff_memberMap c
  full_iff _ := Iff.rfl

def zset : Kind S (InnerZCommand S) S where
  view := Value.asZset
  wrap := .zset
  new := .new
  isEmpty := InnerZCommand.isEmpty
  Ok := InnerZCommand.Ok
  get := InnerZCommand.score
  refView := RefValue.asZset
  refWrap := .zset
  view_wrap _ := rfl
  eq_wrap v c same := by cases v <;> simp_all [Value.asZset]
  refView_meaning v := by cases v <;> rfl
  meaning_wrap _ := rfl
  ok_wrap _ := Iff.rfl
  ok_new := InnerZCommand.ok_new
  get_new := rfl
  isEmpty_iff _ ok := InnerZCommand.isEmpty_iff ok
  full_iff _ := Iff.rfl

end Kind

/-! ## What the writing commands do to their container -/

section Changes

variable {S : Type} [Score S]

/-- A change of a container follows a change of its map: the same refusals, the same replies. -/
def Follows {C β α : Type} (k : Kind S C β) (change : C → Except TypeError (α × C))
    (refChange : (Bytes → Option β) → Except TypeError (α × (Bytes → Option β))) : Prop :=
  ∀ c, k.Ok c → refChange (k.get c) = (change c).map (fun p => (p.1, k.get p.2)) ∧ ∀ p, change c = .ok p → k.Ok p.2

/-- Writing pairs and counting the new keys. -/
def refPuts {β : Type} (pairs : List (Bytes × β)) (m : Bytes → Option β) : Except TypeError (UInt32 × (Bytes → Option β)) :=
  .ok (countNew m (pairs.map Prod.fst), overwrite m pairs)

theorem follows_puts {C β ι : Type} (k : Kind S C β) (act : C → ι → Bool × C) (pair : ι → Bytes × β)
    (puts : ∀ c item, k.Ok c → k.Ok (act c item).2 ∧
      k.get (act c item).2 = Function.update (k.get c) (pair item).1 (some (pair item).2) ∧
      (act c item).1 = (k.get c (pair item).1).isNone) (items : List ι) :
    Follows k (fun c => .ok (OxidArt.countLoop act c items)) (refPuts (items.map pair)) := by
  intro c ok
  obtain ⟨ok', map, count⟩ := countLoop_puts puts items c ok
  refine ⟨?_, ?_⟩
  · simp only [refPuts, Except.map, map, count, List.map_map]
    rfl
  · rintro p same
    obtain rfl := Except.ok.inj same
    exact ok'

/-- Adding to the number in a field; a missing field counts as 0. -/
def refHincr (field : Bytes) (increment : Int64) (m : Bytes → Option Bytes) : Except TypeError (Int64 × (Bytes → Option Bytes)) :=
  match ((m field).elim (some 0) parseI64).bind (checkedAdd · increment) with
  | none => .error .notAInt
  | some n => .ok (n, Function.update m field (some (i64Text n)))

/-- Adding to the score of a member; a missing member starts from the increment. -/
def refZincr (increment : S) (member : Bytes) (m : Bytes → Option S) : Except TypeError (S × (Bytes → Option S)) :=
  let score := (m member).elim increment (Score.add · increment)
  .ok (score, Function.update m member (some score))

theorem follows_hset (fieldValues : List (Bytes × Bytes)) :
    Follows (Kind.hash S) (fun inner => .ok (OxidArt.countLoop (fun inner (field, value) => inner.insert field value) inner
      fieldValues)) (refPuts fieldValues) := by
  have follows := follows_puts (Kind.hash S) (fun inner (p : Bytes × Bytes) => inner.insert p.1 p.2) id
    (fun _ item ok => InnerHCommand.insert_ok ok item.1 item.2) fieldValues
  rwa [List.map_id] at follows

theorem follows_sadd (members : List Bytes) :
    Follows (Kind.set S) (fun set => .ok (OxidArt.countLoop SortedSet.insert set members))
      (refPuts (members.map fun m => (m, ()))) :=
  follows_puts (Kind.set S) _ (fun m => (m, ())) (fun c m _ => ⟨trivial, memberMap_insert c m⟩) members

theorem follows_zadd (scoreMembers : List (S × Bytes)) :
    Follows (Kind.zset S) (fun zset => .ok (OxidArt.countLoop (fun zset (score, member) => zset.insert score member) zset
      scoreMembers)) (refPuts (scoreMembers.map Prod.swap)) :=
  follows_puts (Kind.zset S) (fun zset (p : S × Bytes) => zset.insert p.1 p.2) Prod.swap
    (fun _ item ok => InnerZCommand.insert_ok ok item.1 item.2) scoreMembers

theorem follows_hincrby (field : Bytes) (increment : Int64) :
    Follows (Kind.hash S) (fun inner =>
      let current := match inner.get field with
        | some bytes => parseI64 bytes
        | none => some 0
      match current.bind (checkedAdd · increment) with
      | none => .error .notAInt
      | some newVal => .ok (newVal, (inner.insert field (i64Text newVal)).2)) (refHincr field increment) := by
  intro inner ok
  have current : (match inner.get field with
      | some bytes => parseI64 bytes
      | none => some 0) = ((Kind.hash S).get inner field).elim (some 0) parseI64 := by
    change _ = (inner.get field).elim _ _
    cases inner.get field <;> rfl
  simp only [refHincr, current]
  cases (((Kind.hash S).get inner field).elim (some 0) parseI64).bind (checkedAdd · increment) with
  | none => exact ⟨rfl, nofun⟩
  | some n =>
    obtain ⟨ok', map, -⟩ := InnerHCommand.insert_ok ok field (i64Text n)
    refine ⟨?_, ?_⟩
    · have same : (Kind.hash S).get (inner.insert field (i64Text n)).2 =
          Function.update ((Kind.hash S).get inner) field (some (i64Text n)) := map
      simp only [Except.map, same]
    · rintro p same
      obtain rfl := Except.ok.inj same
      exact ok'

theorem follows_zincrby (increment : S) (member : Bytes) :
    Follows (Kind.zset S) (fun zset =>
      let newScore := match zset.score member with
        | some current => Score.add current increment
        | none => increment
      .ok (newScore, (zset.insert newScore member).2)) (refZincr increment member) := by
  intro zset ok
  have score : (match zset.score member with
      | some current => Score.add current increment
      | none => increment) = ((Kind.zset S).get zset member).elim increment (Score.add · increment) := by
    change _ = (zset.score member).elim _ _
    cases zset.score member <;> rfl
  simp only [refZincr, score]
  obtain ⟨ok', map, -⟩ := InnerZCommand.insert_ok ok
    (((Kind.zset S).get zset member).elim increment (Score.add · increment)) member
  refine ⟨?_, ?_⟩
  · have same : (Kind.zset S).get (zset.insert (((Kind.zset S).get zset member).elim increment (Score.add · increment)) member).2 =
        Function.update ((Kind.zset S).get zset) member
          (some (((Kind.zset S).get zset member).elim increment (Score.add · increment))) := map
    simp only [Except.map, same]
  · rintro p same
    obtain rfl := Except.ok.inj same
    exact ok'

/-- The sum of 0 and a number fits. -/
theorem checkedAdd_zero (n : Int64) : checkedAdd 0 n = some n := by
  have low := n.le_toInt
  have high := n.toInt_lt
  have zero : (0 : Int64).toInt = 0 := by decide
  unfold checkedAdd
  simp only [zero, Int.zero_add]
  rw [if_pos ⟨low, high⟩, Int64.ofInt_toInt]

end Changes

end Radixox.Oxidart
