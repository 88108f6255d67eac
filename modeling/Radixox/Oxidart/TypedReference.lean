import Radixox.Oxidart.Creations
import Radixox.Oxidart.Permanent

/-!
# The typed reference map

`RefStore` is the store as its clients see it when no TTL is used: a map from keys to
typed values. A container lives as long as it has an element: the write of the first
creates it and the removal of the last deletes the key. The commands are defined on it,
their replies as a relation, since a hash may be listed in any order.
-/

namespace Radixox.Oxidart
set_option autoImplicit false
open Radixox.Runs OxidArt

/-! ## Ranges of ranks -/

section Window

variable {α : Type}

/-- The elements at the positions from `lo` to `hi`. -/
def window (l : List α) (lo hi : Int) : List α := (l.zipIdx.filter fun p => lo ≤ (p.2 : Int) ∧ (p.2 : Int) ≤ hi).map Prod.fst

/-- Only the positions inside the list matter. -/
theorem window_congr {l : List α} {lo hi lo' hi' : Int}
    (same : ∀ i : Nat, i < l.length → ((lo ≤ i ∧ (i : Int) ≤ hi) ↔ (lo' ≤ i ∧ (i : Int) ≤ hi'))) :
    window l lo hi = window l lo' hi' := by
  unfold window
  congr 1
  apply List.filter_congr
  intro p member
  obtain ⟨-, bound⟩ := List.mem_zipIdx member
  rw [decide_eq_decide]
  exact same p.2 (by omega)

theorem window_eq_nil {l : List α} {lo hi : Int} (none' : hi < lo) : window l lo hi = [] := by
  unfold window
  rw [List.map_eq_nil_iff, List.filter_eq_nil_iff]
  intro p _
  simp only [decide_eq_true_eq]
  omega

theorem window_eq_take (l : List α) (lo hi : Nat) (some' : lo ≤ hi) : window l lo hi = (l.drop lo).take (hi - lo + 1) := by
  obtain ⟨n, count⟩ : ∃ n, n = hi - lo + 1 := ⟨_, rfl⟩
  have parts : l = l.take lo ++ ((l.drop lo).take n ++ (l.drop lo).drop n) := by
    rw [List.take_append_drop, List.take_append_drop]
  -- Before the range, the range, and after it.
  have before : ((l.take lo).zipIdx.filter fun p => (lo : Int) ≤ (p.2 : Int) ∧ (p.2 : Int) ≤ hi) = [] := by
    rw [List.filter_eq_nil_iff]
    rintro ⟨x, i⟩ member
    obtain ⟨-, bound, -⟩ := List.mem_zipIdx member
    simp only [List.length_take, decide_eq_true_eq] at bound ⊢
    omega
  have inside : (((l.drop lo).take n).zipIdx (0 + (l.take lo).length)).filter
      (fun p => (lo : Int) ≤ (p.2 : Int) ∧ (p.2 : Int) ≤ hi) = ((l.drop lo).take n).zipIdx (0 + (l.take lo).length) := by
    rw [List.filter_eq_self]
    rintro ⟨x, i⟩ member
    obtain ⟨low, bound, -⟩ := List.mem_zipIdx member
    simp only [List.length_take, List.length_drop, decide_eq_true_eq] at low bound ⊢
    omega
  have after : (((l.drop lo).drop n).zipIdx (0 + (l.take lo).length + ((l.drop lo).take n).length)).filter
      (fun p => (lo : Int) ≤ (p.2 : Int) ∧ (p.2 : Int) ≤ hi) = [] := by
    rw [List.filter_eq_nil_iff]
    rintro ⟨x, i⟩ member
    obtain ⟨low, bound, -⟩ := List.mem_zipIdx member
    simp only [List.length_take, List.length_drop, decide_eq_true_eq] at low bound ⊢
    omega
  rw [← count]
  conv_lhs => rw [window, parts]
  rw [List.zipIdx_append, List.zipIdx_append, List.filter_append, List.filter_append, before, inside, after, List.nil_append,
    List.append_nil, List.zipIdx_map_fst]

end Window

section Ranges

variable {S : Type}

/-- The position an index stands for among `n` members: a negative index counts from the end. -/
def position (n : Nat) (i : Int64) : Int := if i.toInt < 0 then n + i.toInt else i.toInt

/-- The items at the positions from `start` to `stop`. -/
def between (ranked : List (ZItem S)) (start stop : Int64) : List (ZItem S) :=
  window ranked (position ranked.length start) (position ranked.length stop)

/-- How the items of a range are answered. -/
def listed [Score S] (items : List (ZItem S)) (withScores : Bool) : List Bytes :=
  items.flatMap fun x => if withScores then [x.member, Score.text x.score] else [x.member]

/-- The range does not end before the first member, or it starts behind that member. -/
def RangeOk (n : Nat) (start stop : Int64) : Prop := n = 0 ∨ 0 ≤ position n stop ∨ 0 < position n start

instance (n : Nat) (start stop : Int64) : Decidable (RangeOk n start stop) := inferInstanceAs (Decidable (_ ∨ _))

/-- The items that the code takes: both indexes are brought into the list before they are compared. -/
def clamped (ranked : List (ZItem S)) (start stop : Int64) : List (ZItem S) :=
  window ranked (max 0 (position ranked.length start)) (max 0 (position ranked.length stop))

variable {ranked : List (ZItem S)} {start stop : Int64}

/-- The range that the code takes is the one asked for, unless that is empty for ending too early. -/
theorem clamped_eq (ok : RangeOk ranked.length start stop) : clamped ranked start stop = between ranked start stop := by
  apply window_congr
  intro i inside
  rcases ok with none' | before | after <;> omega

theorem between_eq_nil (early : position ranked.length stop < 0) : between ranked start stop = [] := by
  have nothing : between ranked start stop = window ranked 1 0 := by
    apply window_congr
    intro i inside
    omega
  rw [nothing, window_eq_nil (by omega)]

/-- A range that ends before the list, and starts no later than its first item, is taken to be that item. -/
theorem clamped_eq_head (low : position ranked.length start ≤ 0) (early : position ranked.length stop < 0) :
    clamped ranked start stop = ranked.take 1 := by
  rw [clamped, max_eq_left low, max_eq_left (by omega)]
  exact window_eq_take ranked 0 0 (Nat.le_refl 0)

/-- The code lists the items asked for exactly when the range does not end too early. -/
theorem listed_clamped_iff [Score S] (withScores : Bool) :
    listed (clamped ranked start stop) withScores = listed (between ranked start stop) withScores ↔
      RangeOk ranked.length start stop := by
  constructor
  · intro same
    by_contra early
    simp only [RangeOk, not_or, Int.not_le, Int.not_lt] at early
    obtain ⟨some', before, low⟩ := early
    rw [clamped_eq_head low before, between_eq_nil before] at same
    obtain ⟨x, rest, items⟩ := List.exists_cons_of_length_pos (Nat.pos_of_ne_zero some')
    rw [items] at same
    cases withScores <;> cases same
  · intro enough
    rw [clamped_eq enough]

end Ranges

/-! ## The reference -/

abbrev RefStore (S : Type) := Bytes → Option (RefValue S)

namespace RefValue

variable {S : Type}

def incr (v : RefValue S) (delta : Int64) : Except IntError Int64 :=
  match (match v with
    | int n => some n
    | string bytes => parseI64 bytes
    | _ => none) with
  | none => .error .notAnInteger
  | some current => match checkedAdd current delta with
    | some n => .ok n
    | none => .error .overflow

end RefValue

namespace RefStore

variable {S : Type} [Score S] {α β : Type}

section Shapes

variable (ref : RefStore S) (key : Bytes) (view : RefValue S → Except RedisType (Bytes → Option β))
variable (wrap : (Bytes → Option β) → RefValue S)

/-- A write into the container under the key, which is created if need be. -/
def changed (change : (Bytes → Option β) → Except TypeError (α × (Bytes → Option β))) : Except TypeError α × RefStore S :=
  match (ref key).elim (.ok fun _ => none) view with
  | .error _ => (.error .valueNotSet, ref)
  | .ok m => match change m with
    | .error e => (.error e, ref)
    | .ok (a, m) => (.ok a, Function.update ref key (some (wrap m)))

open Classical in
/-- The removal of elements; the container goes with its last one. -/
noncomputable def removed (keys : List Bytes) : Except RedisType UInt32 × RefStore S :=
  match ref key with
  | none => (.ok 0, ref)
  | some v => match view v with
    | .error t => (.error t, ref)
    | .ok m => (.ok (countHeld m keys),
        Function.update ref key (if without m keys = fun _ => none then none else some (wrap (without m keys))))

/-- A read of the container under the key. -/
def Reads (absent : α) (shows : (Bytes → Option β) → α → Prop) (reply : Except RedisType α) : Prop :=
  match ref key with
  | none => reply = .ok absent
  | some v => match view v with
    | .error t => reply = .error t
    | .ok m => ∃ a, reply = .ok a ∧ shows m a

end Shapes

/-- The effect of a command. -/
noncomputable def next (ref : RefStore S) : Command S → RefStore S
  | .tree (.set key v) => Function.update ref key (some v.meaning)
  | .tree (.del key) => Function.update ref key none
  | .tree (.deln pfx) => fun k => if pfx <+: k then none else ref k
  | .incrby key delta => match ref key with
    | none => Function.update ref key (some (.int delta))
    | some v => match v.incr delta with
      | .ok n => Function.update ref key (some (.int n))
      | .error _ => ref
  | .hset key fieldValues _ => (ref.changed key RefValue.asHash .hash (refPuts fieldValues)).2
  | .hincrby key field increment => (ref.changed key RefValue.asHash .hash (refHincr field increment)).2
  | .sadd key members _ => (ref.changed key RefValue.asSet .set (refPuts (members.map fun m => (m, ())))).2
  | .zadd key scoreMembers _ => (ref.changed key RefValue.asZset .zset (refPuts (scoreMembers.map Prod.swap))).2
  | .zincrby key increment member => (ref.changed key RefValue.asZset .zset (refZincr increment member)).2
  | .hdel key fields => (ref.removed key RefValue.asHash .hash fields).2
  | .srem key members => (ref.removed key RefValue.asSet .set members).2
  | .zrem key members => (ref.removed key RefValue.asZset .zset members).2
  | _ => ref

/-- The reply of a command. -/
def Replies (ref : RefStore S) : Command S → Reply S → Prop
  | .tree (.set _ _), reply => reply = .tree .done
  | .tree (.get key), reply | .tree (.del key), reply =>
    ∃ v, reply = .tree (.value v) ∧ v.map Value.meaning = ref key
  | .tree (.deln pfx), reply =>
    ∃ keys : Finset Bytes, (∀ k, k ∈ keys ↔ pfx <+: k ∧ (ref k).isSome = true) ∧ reply = .tree (.count keys.card)
  | .incrby key delta, reply => reply = .counter ((ref key).elim (.ok delta) (·.incr delta))
  | .hset key fieldValues _, reply => reply = .added (ref.changed key RefValue.asHash .hash (refPuts fieldValues)).1
  | .hincrby key field increment, reply =>
    reply = .integer (ref.changed key RefValue.asHash .hash (refHincr field increment)).1
  | .sadd key members _, reply =>
    reply = .added (ref.changed key RefValue.asSet .set (refPuts (members.map fun m => (m, ())))).1
  | .zadd key scoreMembers _, reply =>
    reply = .added (ref.changed key RefValue.asZset .zset (refPuts (scoreMembers.map Prod.swap))).1
  | .zincrby key increment member, reply =>
    reply = .newScore (ref.changed key RefValue.asZset .zset (refZincr increment member)).1
  | .hdel key fields, reply => reply = .count (ref.removed key RefValue.asHash .hash fields).1
  | .srem key members, reply => reply = .count (ref.removed key RefValue.asSet .set members).1
  | .zrem key members, reply => reply = .count (ref.removed key RefValue.asZset .zset members).1
  | .hget key field, reply => ∃ r, reply = .bytes r ∧ ref.Reads key RefValue.asHash none (fun m a => a = m field) r
  | .hexists key field, reply =>
    ∃ r, reply = .flag r ∧ ref.Reads key RefValue.asHash false (fun m a => a = (m field).isSome) r
  | .hmget key fields, reply =>
    ∃ r, reply = .options r ∧ ref.Reads key RefValue.asHash (fields.map fun _ => none) (fun m a => a = fields.map m) r
  | .hgetall key, reply =>
    ∃ r, reply = .list r ∧ ref.Reads key RefValue.asHash []
      (fun m a => ∃ l, Enumerates l m ∧ a = l.flatMap fun p => [p.1, p.2]) r
  | .hkeys key, reply =>
    ∃ r, reply = .list r ∧ ref.Reads key RefValue.asHash [] (fun m a => ∃ l, Enumerates l m ∧ a = l.map Prod.fst) r
  | .hvals key, reply =>
    ∃ r, reply = .list r ∧ ref.Reads key RefValue.asHash [] (fun m a => ∃ l, Enumerates l m ∧ a = l.map Prod.snd) r
  | .hlen key, reply =>
    ∃ r, reply = .count r ∧ ref.Reads key RefValue.asHash 0 (fun m a => ∃ l, Enumerates l m ∧ a = UInt32.ofNat l.length) r
  | .smembers key, reply =>
    ∃ r, reply = .list r ∧ ref.Reads key RefValue.asSet []
      (fun m a => a.Pairwise (· < ·) ∧ ∀ k, k ∈ a ↔ m k = some ()) r
  | .sismember key member, reply =>
    ∃ r, reply = .flag r ∧ ref.Reads key RefValue.asSet false (fun m a => a = (m member).isSome) r
  | .scard key, reply =>
    ∃ r, reply = .count r ∧ ref.Reads key RefValue.asSet 0 (fun m a => ∃ l, Enumerates l m ∧ a = UInt32.ofNat l.length) r
  | .zcard key, reply =>
    ∃ r, reply = .count r ∧ ref.Reads key RefValue.asZset 0 (fun m a => ∃ l, Ranks l m ∧ a = UInt32.ofNat l.length) r
  | .zrange key start stop withScores, reply =>
    ∃ r, reply = .list r ∧ ref.Reads key RefValue.asZset []
      (fun m a => ∃ l, Ranks l m ∧ a = listed (between l start stop) withScores) r
  | .zscore key member, reply => ∃ r, reply = .score r ∧ ref.Reads key RefValue.asZset none (fun m a => a = m member) r
  | _, _ => True

end RefStore

section Typed

variable {S : Type} [Score S]

/-- The commands in question: plain keys, no TTL, something to write, and only full containers stored as a whole. -/
def Command.Typed : Command S → Prop
  | .tree (.set key v) => PlainKey key ∧ v.Ok ∧ v.meaning.Full
  | .tree (.get key) | .tree (.del key) => PlainKey key
  | .tree (.deln pfx) => PlainKey pfx
  | .hset key fieldValues ttl => PlainKey key ∧ fieldValues ≠ [] ∧ ttl = none
  | .sadd key members ttl => PlainKey key ∧ members ≠ [] ∧ ttl = none
  | .zadd key scoreMembers ttl => PlainKey key ∧ scoreMembers ≠ [] ∧ ttl = none
  | .incrby key _ | .hget key _ | .hgetall key | .hdel key _ | .hexists key _ | .hlen key | .hkeys key | .hvals key
  | .hmget key _ | .hincrby key _ _ | .srem key _ | .smembers key | .sismember key _ | .scard key | .zcard key
  | .zrange key _ _ _ | .zscore key _ | .zrem key _ | .zincrby key _ _ => PlainKey key
  | .tree (.setTtl ..) | .tree (.expire ..) | .tree (.persist _) | .tree (.getTtl _) | .tree (.getn _) | .tree (.setNow _)
  | .tree (.evict _) | .spop .. => False

/-- A range of the sorted set that is held does not end before its first member, or it starts behind that member. -/
def Value.RangeIn (start stop : Int64) : Value S → Prop
  | .zset z => RangeOk z.len start stop
  | .string _ | .int _ | .hash _ | .list _ | .set _ => True

instance (start stop : Int64) : (v : Value S) → Decidable (v.RangeIn start stop)
  | .zset z => inferInstanceAs (Decidable (RangeOk z.len start stop))
  | .string _ | .int _ | .hash _ | .list _ | .set _ => isTrue trivial

/-- So it is with the set that is live under the key. -/
def OxidArt.RangeIn {P : Policy} (st : OxidArt P (Value S)) (key : Bytes) (start stop : Int64) : Prop :=
  ∀ c ∈ st.live key, c.1.RangeIn start stop

instance {P : Policy} (st : OxidArt P (Value S)) (key : Bytes) (start stop : Int64) : Decidable (st.RangeIn key start stop) :=
  inferInstanceAs (Decidable (∀ c ∈ st.live key, c.1.RangeIn start stop))

/-- A range of ranks does not end too early. -/
def Command.InRange {P : Policy} (st : OxidArt P (Value S)) : Command S → Prop
  | .zrange key start stop _ => st.RangeIn key start stop
  | _ => True

instance {P : Policy} (st : OxidArt P (Value S)) : (c : Command S) → Decidable (c.InRange st)
  | .zrange key start stop _ => inferInstanceAs (Decidable (st.RangeIn key start stop))
  | .tree _ | .incrby .. | .hset .. | .hget .. | .hgetall _ | .hdel .. | .hexists .. | .hlen _ | .hkeys _ | .hvals _ | .hmget ..
  | .hincrby .. | .spop .. | .sadd .. | .srem .. | .smembers _ | .sismember .. | .scard _ | .zadd .. | .zcard _ | .zscore ..
  | .zrem .. | .zincrby .. => isTrue trivial

/-- The keys a command may change. -/
def Command.Touches (key : Bytes) : Command S → Prop
  | .tree (.set k _) | .tree (.del k) | .incrby k _ | .hset k _ _ | .hdel k _ | .hincrby k _ _ | .sadd k _ _ | .srem k _
  | .zadd k _ _ | .zrem k _ | .zincrby k _ _ => key = k
  | .tree (.deln pfx) => pfx <+: key
  | _ => False

end Typed

namespace OxidArt

variable {P : Policy} {S : Type} [Score S] {st st' : OxidArt P (Value S)} {ref : RefStore S} {key : Bytes}

/-- The store shows what the reference holds; its containers are in order and none is empty. -/
structure Shows (st : OxidArt P (Value S)) (ref : RefStore S) : Prop where
  sound : IsSound st
  permanent : AllPermanent st
  values : ∀ key, (st.entry key).map (fun c => c.1.meaning) = ref key
  ok : ∀ key v e, st.entry key = some (v, e) → v.Ok
  full : ∀ key v, ref key = some v → v.Full

section Permanent

variable {V : Type} {st st' : OxidArt P V}

theorem AllPermanent.entry (H : AllPermanent st) {v : V} {e : Option Nat} (held : st.entry key = some (v, e)) : e = none := by
  obtain ⟨i, -, content⟩ := Option.bind_eq_some_iff.1 held
  obtain ⟨n, found, here⟩ := Option.bind_eq_some_iff.1 content
  obtain ⟨w, -, same⟩ := Option.map_eq_some_iff.1 here
  rw [← (Prod.mk.inj same).2]
  exact H i n found

theorem AllPermanent.live (H : AllPermanent st) : st.live = st.entry := by
  funext key
  rw [OxidArt.live]
  cases held : st.entry key with
  | none => rfl
  | some c =>
    obtain ⟨v, e⟩ := c
    rw [H.entry held]
    rfl

theorem AllPermanent.keyExp (H : AllPermanent st) (key : Bytes) : st.keyExp key = none := by
  unfold OxidArt.keyExp
  cases found : (st.traverseToKey key).bind st.tryGetNode with
  | none => rfl
  | some n =>
    obtain ⟨i, -, node⟩ := Option.bind_eq_some_iff.1 found
    exact H i n node

end Permanent

/-! ### One key changes -/

theorem Shows.put (R : Shows st ref) (sound : IsSound st') (permanent : AllPermanent st') {v : Value S} {e : Option Nat}
    (entries : st'.entry = Function.update st.entry key (some (v, e))) (ok : v.Ok) (full : v.meaning.Full) :
    Shows st' (Function.update ref key (some v.meaning)) := by
  refine ⟨sound, permanent, ?_, ?_, ?_⟩
  · intro k
    rw [entries, Function.update_apply, Function.update_apply]
    split
    · rfl
    · exact R.values k
  · intro k w e' held
    rw [entries, Function.update_apply] at held
    split at held
    · obtain ⟨rfl, -⟩ := Prod.mk.inj (Option.some.inj held)
      exact ok
    · exact R.ok k w e' held
  · intro k w held
    rw [Function.update_apply] at held
    split at held
    · exact Option.some.inj held ▸ full
    · exact R.full k w held

/-- Keys that go away leave the others as they are. -/
theorem Shows.erase (R : Shows st ref) (sound : IsSound st') (permanent : AllPermanent st') {gone : Bytes → Prop}
    [DecidablePred gone] (entries : st'.entry = fun k => if gone k then none else st.entry k) :
    Shows st' fun k => if gone k then none else ref k := by
  refine ⟨sound, permanent, ?_, ?_, ?_⟩
  · intro k
    simp only [entries]
    split
    · rfl
    · exact R.values k
  · intro k w e held
    simp only [entries] at held
    split at held
    · cases held
    · exact R.ok k w e held
  · intro k w held
    split at held
    · cases held
    · exact R.full k w held

theorem Shows.drop (R : Shows st ref) (sound : IsSound st') (permanent : AllPermanent st')
    (entries : st'.entry = Function.update st.entry key none) : Shows st' (Function.update ref key none) := by
  have update : ∀ {α : Type} (f : Bytes → Option α), Function.update f key none = fun k => if k = key then none else f k := by
    intro α f
    funext k
    rw [Function.update_apply]
  rw [update] at entries ⊢
  exact R.erase sound permanent entries

theorem Shows.same (R : Shows st ref) (sound : IsSound st') (permanent : AllPermanent st') (entries : st'.entry = st.entry) :
    Shows st' ref :=
  ⟨sound, permanent, by rw [entries]; exact R.values, by rw [entries]; exact R.ok, R.full⟩

/-- A step that sheds nothing but expired entries sheds nothing. -/
theorem Shows.sheds (R : Shows st ref) (keeps : Keeps st [] st') (permanent : AllPermanent st') (sheds : Sheds st st') :
    Shows st' ref := by
  refine R.same keeps.isSound permanent ?_
  rw [← permanent.live, ← R.permanent.live]
  exact sheds.live keeps.1.now

/-! ### The shapes of the commands -/

section Shapes

variable {C β α : Type} (k : Kind S C β) {path : Nat → Option Bytes}

/-- The container of a live key, on both sides. -/
theorem Shows.container (R : Shows st ref) {v : Value S} {e : Option Nat} (live : st.live key = some (v, e)) :
    ref key = some v.meaning ∧ v.Ok ∧ ∀ c, k.view v = .ok c → k.Ok c ∧ k.get c ≠ fun _ => none := by
  rw [R.permanent.live] at live
  have held : ref key = some v.meaning := by rw [← R.values, live]; rfl
  have ok := R.ok key v e live
  refine ⟨held, ok, ?_⟩
  intro c view
  obtain rfl := k.eq_wrap v c view
  refine ⟨(k.ok_wrap c).1 ok, ?_⟩
  have full := R.full key _ held
  rw [k.meaning_wrap, k.full_iff] at full
  exact full

theorem Shows.absent (R : Shows st ref) (dead : st.live key = none) : ref key = none := by
  rw [R.permanent.live] at dead
  rw [← R.values, dead]
  rfl

/-- A writing command. -/
theorem Shows.changes (R : Shows st ref) {change : C → Except TypeError (α × C)}
    {refChange : (Bytes → Option β) → Except TypeError (α × (Bytes → Option β))} (follows : Follows k change refChange)
    (fills : ∀ m a m', refChange m = .ok (a, m') → m' ≠ fun _ => none) (starts : ∃ p, refChange (fun _ => none) = .ok p)
    {run : Exec (Except TypeError α × OxidArt P (Value S))} (H : Changes st [] path key none k.view k.wrap k.new change run)
    (lasts : Lasts run Prod.snd) :
    ∃ st', run = .ok ((ref.changed key k.refView k.refWrap refChange).1, st') ∧
      Shows st' (ref.changed key k.refView k.refWrap refChange).2 := by
  -- The new container `c`, written over what was there.
  have write : ∀ {st'} {path' : Nat → Option Bytes} {a : α} {c : C} {e : Option Nat}, run = .ok (.ok a, st') →
      Step (fun _ => True) st [] path st' path' → st'.entry = Function.update st.entry key (some (k.wrap c, e)) → k.Ok c →
      k.get c ≠ (fun _ => none) → Shows st' (Function.update ref key (some (k.refWrap (k.get c)))) := by
    intro st' path' a c e ran step entries ok full
    have R' := R.put step.keeps.isSound (lasts _ ran) entries ((k.ok_wrap c).2 ok)
      (by rw [k.meaning_wrap, k.full_iff]; exact full)
    rwa [k.meaning_wrap] at R'
  unfold RefStore.changed
  cases live : st.live key with
  | none =>
    have current : expired st.now (st.madeExp none key) = false := by
      change expired st.now (st.keyExp key) = false
      rw [R.permanent.keyExp]
      rfl
    obtain ⟨st', path', ran, step, entries⟩ := H.made (fun _ => True) live current
    obtain ⟨agree, keeps⟩ := follows k.new k.ok_new
    obtain ⟨⟨a, m⟩, made⟩ := starts
    rw [k.get_new, made] at agree
    simp only [R.absent live, Option.elim_none, made]
    cases outcome : change k.new with
    | error => rw [outcome] at agree; cases agree
    | ok p =>
      obtain ⟨b, c⟩ := p
      rw [outcome] at agree ran entries
      obtain ⟨rfl, rfl⟩ := Prod.mk.inj (Except.ok.inj agree)
      exact ⟨st', ran, write ran step entries (keeps _ outcome) (fills _ _ _ made)⟩
  | some held =>
    obtain ⟨v, e⟩ := held
    obtain ⟨here, -, container⟩ := R.container k live
    simp only [here, Option.elim_some, k.refView_meaning]
    cases view : k.view v with
    | error t => exact ⟨st, H.wrongType v e t live view, R⟩
    | ok c =>
      obtain ⟨ok, -⟩ := container c view
      obtain ⟨agree, keeps⟩ := follows c ok
      simp only [Except.map, agree]
      cases outcome : change c with
      | error t => exact ⟨st, H.refused v e c t live view outcome, R⟩
      | ok p =>
        obtain ⟨a, c'⟩ := p
        rw [outcome] at agree
        obtain ⟨st', ran, step, entries⟩ := H.changed (fun _ => True) v e c a c' live view outcome
        exact ⟨st', ran, write ran step entries (keeps _ outcome) (fills _ _ _ agree)⟩

/-- A removing command. -/
theorem Shows.removes (R : Shows st ref) (nonempty : key ≠ []) {remove : C → Bytes → Bool × C}
    (drops : ∀ c x, k.Ok c → k.Ok (remove c x).2 ∧ k.get (remove c x).2 = Function.update (k.get c) x none ∧
      (remove c x).1 = (k.get c x).isSome) (items : List Bytes) :
    ∃ st', st.removeFrom key k.view k.wrap remove k.isEmpty items = .ok ((ref.removed key k.refView k.refWrap items).1, st') ∧
      Shows st' (ref.removed key k.refView k.refWrap items).2 := by
  obtain ⟨path, I⟩ := R.sound
  have lasts := R.permanent.removeFrom key k.view k.wrap remove k.isEmpty items
  obtain ⟨missing, wrongType, removed⟩ := removeFrom_ok k.view k.wrap remove k.isEmpty I nonempty items
  unfold RefStore.removed
  cases live : st.live key with
  | none =>
    obtain ⟨st', path', ran, step, sheds⟩ := missing live
    simp only [R.absent live]
    exact ⟨st', ran, R.sheds step.keeps (lasts _ ran) sheds⟩
  | some held =>
    obtain ⟨v, e⟩ := held
    obtain ⟨here, -, container⟩ := R.container k live
    simp only [here, k.refView_meaning]
    cases view : k.view v with
    | error t => exact ⟨st, wrongType v e t live view, R⟩
    | ok c =>
      obtain ⟨ok, -⟩ := container c view
      obtain ⟨st', path', ran, step, entries⟩ := removed v e c live view
      obtain ⟨ok', map, count⟩ := countLoop_drops drops items c ok
      simp only [Except.map]
      refine ⟨st', by rw [ran, count], ?_⟩
      by_cases emptied : without (k.get c) items = fun _ => none
      · rw [if_pos ((k.isEmpty_iff _ ok').2 (map.trans emptied))] at entries
        rw [if_pos emptied]
        exact R.drop step.keeps.isSound (lasts _ ran) entries
      · have left : k.get (countLoop remove c items).2 ≠ fun _ => none := by rw [map]; exact emptied
        rw [if_neg (fun none' => left ((k.isEmpty_iff _ ok').1 none'))] at entries
        have R' := R.put step.keeps.isSound (lasts _ ran) entries ((k.ok_wrap _).2 ok')
          (by rw [k.meaning_wrap, k.full_iff]; exact left)
        rw [k.meaning_wrap, map] at R'
        rw [if_neg emptied]
        exact R'

/-- A read gives a reply of the reference exactly when it reads the live container right. -/
theorem reads_iff (held : ref key = (st.live key).map fun c => c.1.meaning) (absent : α) (read : C → α)
    (shows : (Bytes → Option β) → α → Prop) :
    ref.Reads key k.refView absent shows (match st.live key with
      | none => .ok absent
      | some (v, _) => (k.view v).map read) ↔
      ∀ v e c, st.live key = some (v, e) → k.view v = .ok c → shows (k.get c) (read c) := by
  unfold RefStore.Reads
  rw [held]
  cases live : st.live key with
  | none => exact iff_of_true rfl nofun
  | some found =>
    obtain ⟨v, e⟩ := found
    simp only [Option.map_some, k.refView_meaning]
    cases view : k.view v with
    | error t =>
      refine iff_of_true rfl fun w e' c same ok => ?_
      obtain ⟨rfl, -⟩ := Prod.mk.inj (Option.some.inj same)
      rw [view] at ok
      cases ok
    | ok c =>
      constructor
      · rintro ⟨a, same, right⟩ w e' c' live' ok
        obtain ⟨rfl, -⟩ := Prod.mk.inj (Option.some.inj live')
        obtain rfl := Except.ok.inj (view.symm.trans ok)
        obtain rfl := Except.ok.inj same
        exact right
      · exact fun right => ⟨read c, rfl, right v e c rfl view⟩

theorem Shows.held (R : Shows st ref) (key : Bytes) : ref key = (st.live key).map fun c => c.1.meaning := by
  rw [R.permanent.live, R.values]

/-- A reading command. -/
theorem Shows.reads_iff (R : Shows st ref) (nonempty : key ≠ []) (absent : α) (read : C → α)
    (shows : (Bytes → Option β) → α → Prop) :
    ∃ reply st', st.readAs key k.view absent read = .ok (reply, st') ∧
      (ref.Reads key k.refView absent shows reply ↔
        ∀ v e c, st.live key = some (v, e) → k.view v = .ok c → shows (k.get c) (read c)) ∧ Shows st' ref := by
  obtain ⟨path, I⟩ := R.sound
  obtain ⟨st', path', ran, step, sheds⟩ := readAs_ok k.view I nonempty absent read
  exact ⟨_, st', ran, OxidArt.reads_iff k (R.held key) absent read shows,
    R.sheds step.keeps (R.permanent.readAs key k.view absent read _ ran) sheds⟩

/-- One that reads every container right. -/
theorem Shows.reads (R : Shows st ref) (nonempty : key ≠ []) (absent : α) {read : C → α}
    {shows : (Bytes → Option β) → α → Prop} (right : ∀ c, k.Ok c → shows (k.get c) (read c)) :
    ∃ reply st', st.readAs key k.view absent read = .ok (reply, st') ∧ ref.Reads key k.refView absent shows reply ∧
      Shows st' ref := by
  obtain ⟨reply, st', ran, reads, R'⟩ := R.reads_iff k nonempty absent read shows
  exact ⟨reply, st', ran, reads.2 fun v e c live view => right c ((R.container k live).2.2 c view).1, R'⟩

/-- `SMEMBERS` and `SCARD`. -/
theorem Shows.readsSet (R : Shows st ref) (nonempty : key ≠ []) (absent : α) {read : SortedSet Bytes → α}
    {shows : (Bytes → Option Unit) → α → Prop} (right : ∀ s, shows (memberMap s) (read s)) :
    ∃ reply st', st.readSet key absent read = .ok (reply, st') ∧ ref.Reads key RefValue.asSet absent shows reply ∧
      Shows st' ref := by
  obtain ⟨path, I⟩ := R.sound
  have full : ∀ v e set, st.live key = some (v, e) → v.asSet = .ok set → set.isEmpty = false := by
    intro v e set live view
    obtain ⟨-, -, container⟩ := R.container (Kind.set S) live
    rw [← Bool.not_eq_true, isEmpty_iff_memberMap]
    exact (container set view).2
  obtain ⟨st', path', ran, step, sheds⟩ := readSet_ok I nonempty full absent read
  exact ⟨_, st', ran, (OxidArt.reads_iff (Kind.set S) (R.held key) absent read shows).2 fun _ _ s _ _ => right s,
    R.sheds step.keeps (R.permanent.readSet key absent read _ ran) sheds⟩

end Shapes

/-! ### The replies -/

section Replies

variable {β : Type}

theorem overwrite_ne_empty (m : Bytes → Option β) {pairs : List (Bytes × β)} (some' : pairs ≠ []) :
    overwrite m pairs ≠ fun _ => none := by
  obtain ⟨rest, last, rfl⟩ := (List.eq_nil_or_concat pairs).resolve_left some'
  intro none'
  have here := congrFun none' last.1
  rw [List.concat_eq_append, overwrite, List.foldl_append, List.foldl_cons, List.foldl_nil, Function.update_self] at here
  cases here

theorem refPuts_fills {pairs : List (Bytes × β)} (some' : pairs ≠ []) (m : Bytes → Option β) (a : UInt32) (m' : Bytes → Option β)
    (put : refPuts pairs m = .ok (a, m')) : m' ≠ fun _ => none := by
  obtain ⟨-, rfl⟩ := Prod.mk.inj (Except.ok.inj put)
  exact overwrite_ne_empty m some'

theorem update_ne_empty (m : Bytes → Option β) (q : Bytes) (b : β) : Function.update m q (some b) ≠ fun _ => none := by
  intro none'
  have here := congrFun none' q
  rw [Function.update_self] at here
  cases here

theorem refHincr_fills (field : Bytes) (increment : Int64) (m : Bytes → Option Bytes) (a : Int64) (m' : Bytes → Option Bytes)
    (put : refHincr field increment m = .ok (a, m')) : m' ≠ fun _ => none := by
  unfold refHincr at put
  split at put
  · cases put
  · obtain ⟨-, rfl⟩ := Prod.mk.inj (Except.ok.inj put)
    exact update_ne_empty _ _ _

/-- The bounds of `ZRANGE` pick the same ranks. -/
theorem zrangeItems_eq {z : InnerZCommand S} (ok : z.Ok) (start stop : Int64) (withScores : Bool) :
    zrangeItems z start stop withScores = listed (clamped z.iter start stop) withScores := by
  have len := InnerZCommand.len_eq ok
  unfold zrangeItems zrangeBounds clamped position
  simp only [← len]
  by_cases none' : z.iter.length = 0
  · rw [if_pos none', List.length_eq_zero_iff.1 none']
    rfl
  · rw [if_neg none']
    obtain ⟨lo, low⟩ : ∃ lo : Nat, lo = (if start.toInt < 0 then (max (z.iter.length + start.toInt) 0).toNat
      else (min start.toInt z.iter.length).toNat) := ⟨_, rfl⟩
    obtain ⟨hi, high⟩ : ∃ hi : Nat, hi = (if stop.toInt < 0 then (max (z.iter.length + stop.toInt) 0).toNat
      else (min stop.toInt (z.iter.length - 1)).toNat) := ⟨_, rfl⟩
    have same : window z.iter (max 0 (if start.toInt < 0 then z.iter.length + start.toInt else start.toInt))
        (max 0 (if stop.toInt < 0 then z.iter.length + stop.toInt else stop.toInt)) = window z.iter lo hi := by
      apply window_congr
      intro i inside
      rw [low, high]
      split <;> split <;> omega
    simp only [same, ← low, ← high]
    by_cases empty : lo > hi
    · rw [if_pos empty, window_eq_nil (by omega)]
      rfl
    · rw [if_neg empty, window_eq_take _ _ _ (by omega)]
      rfl

/-- The items of a sorted set are exactly those of the range, unless it ends before the first. -/
theorem zrangeItems_iff {z : InnerZCommand S} (ok : z.Ok) (start stop : Int64) (withScores : Bool) :
    zrangeItems z start stop withScores = listed (between z.iter start stop) withScores ↔ RangeOk z.iter.length start stop := by
  rw [zrangeItems_eq ok]
  exact listed_clamped_iff withScores

theorem ranks_unique {l l' : List (ZItem S)} {m : Bytes → Option S} (ranks : Ranks l m) (ranks' : Ranks l' m) : l = l' :=
  sorted_ext ranks.1 ranks'.1 fun x => (ranks.2 x).trans (ranks'.2 x).symm

/-- `ZRANGE` reads the live set right exactly when the range does not end too early. -/
theorem readsRange_iff (ok : ∀ z e, st.live key = some (.zset z, e) → z.Ok) (start stop : Int64) (withScores : Bool) :
    (∀ v e z, st.live key = some (v, e) → v.asZset = .ok z →
      ∃ l, Ranks l z.score ∧ zrangeItems z start stop withScores = listed (between l start stop) withScores) ↔
      st.RangeIn key start stop := by
  constructor
  · rintro right ⟨v, e⟩ live
    cases v with
    | zset z =>
      obtain ⟨l, ranks, same⟩ := right _ e z live rfl
      obtain rfl := ranks_unique ranks (InnerZCommand.ranks_iter (ok z e live))
      have enough := (zrangeItems_iff (ok z e live) start stop withScores).1 same
      rwa [InnerZCommand.len_eq (ok z e live)] at enough
    | _ => trivial
  · intro inside v e z live view
    obtain rfl := (Kind.zset S).eq_wrap v z view
    have enough : RangeOk z.len start stop := inside _ live
    refine ⟨z.iter, InnerZCommand.ranks_iter (ok z e live), (zrangeItems_iff (ok z e live) start stop withScores).2 ?_⟩
    rwa [InnerZCommand.len_eq (ok z e live)]

theorem incr_meaning (v : Value S) (delta : Int64) : v.meaning.incr delta = v.incr delta := by
  unfold RefValue.incr Value.incr
  cases v with
  | string bytes =>
    simp only [Value.meaning, bind, Except.bind]
    cases parseI64 bytes <;> rfl
  | _ => rfl

theorem enumerates_members (s : SortedSet Bytes) : Enumerates (s.items.map fun m => (m, ())) (memberMap s) := by
  constructor
  · rw [List.map_map]
    simpa [Function.comp_def] using nodup_of_sorted s.sorted
  · rintro k ⟨⟩
    simp [memberMap, SortedSet.contains]

end Replies

/-- A command that does not ask for a range of ranks, on both sides. -/
theorem exec_replies (order : HashOrder) (R : Shows st ref) {c : Command S} (typed : c.Typed)
    (other : ∀ key start stop withScores, c ≠ .zrange key start stop withScores) :
    ∃ reply st', exec order st c = .ok (reply, st') ∧ ref.Replies c reply ∧ Shows st' (ref.next c) := by
  obtain ⟨path, I⟩ := R.sound
  have absent : ∀ t, (none : Option Nat) = some t → t < 2 ^ 56 := by simp
  have H := R.permanent
  have wrapped : ∀ {α : Type} {wrap : α → Reply S} {run : Exec (α × OxidArt P (Value S))} {a : α} {st' : OxidArt P (Value S)},
      run = .ok (a, st') → wrapReply wrap run = .ok (wrap a, st') := by
    rintro α wrap run a st' rfl
    rfl
  -- A read through `readAs` or `readSet`, wrapped.
  have read : ∀ {α : Type} {wrap : Except RedisType α → Reply S} {run : Exec (Except RedisType α × OxidArt P (Value S))}
      {good : Except RedisType α → Prop}, (∃ reply st', run = .ok (reply, st') ∧ good reply ∧ Shows st' ref) →
      ∃ reply st', wrapReply wrap run = .ok (reply, st') ∧ (∃ r, reply = wrap r ∧ good r) ∧ Shows st' ref := by
    rintro α wrap run good ⟨reply, st', ran, right, R'⟩
    exact ⟨wrap reply, st', wrapped ran, ⟨reply, rfl, right⟩, R'⟩
  cases c with
  | tree op =>
    cases op with
    | set key v =>
      obtain ⟨⟨-, bytes⟩, ok, full⟩ := typed
      obtain ⟨st', path', ran, step, entries⟩ := setInternal_ok I (fun _ => True) bytes (show ExpAndRadix.noExp < 2 ^ 56 by decide) v
      refine ⟨.tree .done, st', ?_, rfl, R.put step.keeps.isSound (H.set key v st' ran) entries ok full⟩
      simp only [exec, execTree, OxidArt.set, ran, bind, Except.bind]
      rfl
    | get key =>
      obtain ⟨st', path', ran, step, sheds, -⟩ := get_ok I typed.1
      refine ⟨.tree (.value ((st.live key).map Prod.fst)), st', ?_, ⟨_, rfl, ?_⟩, R.sheds step.keeps (H.get key _ ran) sheds⟩
      · simp only [exec, execTree, ran, bind, Except.bind]
        rfl
      · rw [H.live, Option.map_map, ← R.values]
        rfl
    | del key =>
      obtain ⟨st', path', ran, step, entries, -⟩ := del_ok I typed.1
      refine ⟨.tree (.value ((st.entry key).map Prod.fst)), st', ?_, ⟨_, rfl, ?_⟩, R.drop step.keeps.isSound (H.del key _ ran) entries⟩
      · simp only [exec, execTree, ran, bind, Except.bind]
        rfl
      · rw [Option.map_map, ← R.values]
        rfl
    | deln pfx =>
      obtain ⟨count, st', path', ran, step, entries, -, keys, mem, rfl⟩ := deln_ok I typed.1
      refine ⟨.tree (.count _), st', ?_, ⟨keys, fun k => ?_, rfl⟩, R.erase step.keeps.isSound (H.deln pfx _ ran) entries⟩
      · simp only [exec, execTree, ran, bind, Except.bind]
        rfl
      · rw [mem, ← R.values, Option.isSome_map]
    | setTtl | expire | persist | getTtl | getn | setNow | evict => exact absurd typed (fun h => h)
  | incrby key delta =>
    obtain ⟨st', path', ran, step, entries⟩ := incrby_ok I (fun _ => True) typed.2 delta
    have H' := H.incrby key delta _ ran
    refine ⟨.counter _, st', wrapped ran, ?_, ?_⟩
    · change Reply.counter _ = .counter _
      rw [← R.values, H.live]
      cases st.entry key with
      | none => rfl
      | some held => rw [Option.map_some, Option.elim_some, incr_meaning]
    · simp only [RefStore.next, ← R.values]
      rw [H.live] at entries
      cases held : st.entry key with
      | none =>
        rw [held] at entries
        exact R.put step.keeps.isSound H' entries trivial trivial
      | some c =>
        obtain ⟨v, e⟩ := c
        rw [held] at entries
        simp only [Option.map_some, incr_meaning] at entries ⊢
        cases outcome : v.incr delta with
        | ok n =>
          rw [outcome] at entries
          exact R.put step.keeps.isSound H' entries trivial trivial
        | error t =>
          rw [outcome] at entries
          exact R.same step.keeps.isSound H' entries
  | hset key fieldValues ttl =>
    obtain ⟨⟨-, bytes⟩, some', rfl⟩ := typed
    obtain ⟨st', ran, R'⟩ := R.changes (Kind.hash S) (follows_hset fieldValues) (refPuts_fills some') ⟨_, rfl⟩
      (changeIn_ok I (getHashMut_gets I bytes absent) _) (AllPermanent.changeIn (H.getHashMut key) _ _)
    exact ⟨_, st', wrapped ran, rfl, R'⟩
  | sadd key members ttl =>
    obtain ⟨⟨-, bytes⟩, some', rfl⟩ := typed
    obtain ⟨st', ran, R'⟩ := R.changes (Kind.set S) (follows_sadd members) (refPuts_fills (by simpa using some')) ⟨_, rfl⟩
      (changeIn_ok I (getBtreeSetMut_gets I bytes absent) _) (AllPermanent.changeIn (H.getBtreeSetMut key) _ _)
    exact ⟨_, st', wrapped ran, rfl, R'⟩
  | zadd key scoreMembers ttl =>
    obtain ⟨⟨-, bytes⟩, some', rfl⟩ := typed
    obtain ⟨st', ran, R'⟩ := R.changes (Kind.zset S) (follows_zadd scoreMembers) (refPuts_fills (by simpa using some')) ⟨_, rfl⟩
      (changeIn_ok I (getZsetMut_gets I bytes absent) _) (AllPermanent.changeIn (H.getZsetMut key) _ _)
    exact ⟨_, st', wrapped ran, rfl, R'⟩
  | hincrby key field increment =>
    have starts : refHincr field increment (fun _ => none) =
        .ok (increment, Function.update (fun _ => none) field (some (i64Text increment))) := by
      simp only [refHincr, Option.elim_none, Option.bind_some, checkedAdd_zero]
    obtain ⟨st', ran, R'⟩ := R.changes (Kind.hash S) (follows_hincrby field increment) (refHincr_fills field increment)
      ⟨_, starts⟩ (changeIn_ok I (getHashMut_gets I typed.2 absent) _) (AllPermanent.changeIn (H.getHashMut key) _ _)
    exact ⟨_, st', wrapped ran, rfl, R'⟩
  | zincrby key increment member =>
    have fills : ∀ m a m', refZincr increment member m = .ok (a, m') → m' ≠ fun _ => none := by
      intro m a m' put
      obtain ⟨-, rfl⟩ := Prod.mk.inj (Except.ok.inj put)
      exact update_ne_empty _ _ _
    obtain ⟨st', ran, R'⟩ := R.changes (Kind.zset S) (follows_zincrby increment member) fills ⟨_, rfl⟩
      (changeIn_ok I (getZsetMut_gets I typed.2 absent) _) (AllPermanent.changeIn (H.getZsetMut key) _ _)
    exact ⟨_, st', wrapped ran, rfl, R'⟩
  | hdel key fields =>
    obtain ⟨st', ran, R'⟩ := R.removes (Kind.hash S) typed.1 (fun _ x ok => InnerHCommand.discard_ok ok x) fields
    exact ⟨_, st', wrapped ran, rfl, R'⟩
  | srem key members =>
    obtain ⟨st', ran, R'⟩ := R.removes (Kind.set S) typed.1 (fun s x _ => ⟨trivial, memberMap_remove s x⟩) members
    exact ⟨_, st', wrapped ran, rfl, R'⟩
  | zrem key members =>
    obtain ⟨st', ran, R'⟩ := R.removes (Kind.zset S) typed.1 (fun _ x ok => InnerZCommand.remove_ok ok x) members
    exact ⟨_, st', wrapped ran, rfl, R'⟩
  | hget key field => exact read (R.reads (Kind.hash S) typed.1 none fun _ _ => rfl)
  | hexists key field => exact read (R.reads (Kind.hash S) typed.1 false fun _ _ => rfl)
  | hmget key fields => exact read (R.reads (Kind.hash S) typed.1 (fields.map fun _ => none) fun _ _ => rfl)
  | hgetall key =>
    exact read (R.reads (Kind.hash S) typed.1 [] fun h ok => ⟨h.iter order, (InnerHCommand.enumerates_iter ok order).1, rfl⟩)
  | hkeys key =>
    exact read (R.reads (Kind.hash S) typed.1 [] fun h ok => ⟨h.iter order, (InnerHCommand.enumerates_iter ok order).1, rfl⟩)
  | hvals key =>
    exact read (R.reads (Kind.hash S) typed.1 [] fun h ok => ⟨h.iter order, (InnerHCommand.enumerates_iter ok order).1, rfl⟩)
  | hlen key =>
    refine read (R.reads (Kind.hash S) typed.1 0 fun h ok => ⟨h.iter order, (InnerHCommand.enumerates_iter ok order).1, ?_⟩)
    rw [(InnerHCommand.enumerates_iter ok order).2]
  | smembers key =>
    refine read (R.readsSet typed.1 [] fun s => ⟨s.sorted, fun x => ?_⟩)
    simp [memberMap, SortedSet.contains]
  | sismember key member =>
    refine read (R.reads (Kind.set S) typed.1 false fun s _ => ?_)
    change s.contains member = (memberMap s member).isSome
    rw [memberMap]
    cases s.contains member <;> rfl
  | scard key =>
    exact read (R.readsSet typed.1 0 fun s => ⟨_, enumerates_members s, by rw [List.length_map]; rfl⟩)
  | zcard key =>
    refine read (R.reads (Kind.zset S) typed.1 0 fun z ok => ⟨z.iter, InnerZCommand.ranks_iter ok, ?_⟩)
    rw [InnerZCommand.len_eq ok]
  | zscore key member => exact read (R.reads (Kind.zset S) typed.1 none fun _ _ => rfl)
  | zrange key start stop withScores => exact (other key start stop withScores rfl).elim
  | spop => exact absurd typed (fun h => h)

/-- `ZRANGE`, on both sides. -/
theorem zrange_shows (order : HashOrder) (R : Shows st ref) (nonempty : key ≠ []) (start stop : Int64) (withScores : Bool) :
    ∃ reply st', exec order st (.zrange key start stop withScores) = .ok (reply, st') ∧
      (ref.Replies (.zrange key start stop withScores) reply ↔ st.RangeIn key start stop) ∧ Shows st' ref := by
  obtain ⟨reply, st', ran, reads, R'⟩ := R.reads_iff (Kind.zset S) nonempty [] (zrangeItems · start stop withScores)
    fun m a => ∃ l, Ranks l m ∧ a = listed (between l start stop) withScores
  change st.cmdZrange key start stop withScores = _ at ran
  refine ⟨.list reply, st', by rw [exec, ran]; rfl, ?_, R'⟩
  have right := reads.trans (readsRange_iff (fun z e live => ((R.container (Kind.zset S) live).2.2 z rfl).1) start stop withScores)
  rw [← right]
  constructor
  · rintro ⟨r, same, here⟩
    obtain rfl := Reply.list.inj same
    exact here
  · exact fun here => ⟨reply, rfl, here⟩

/-- One command, on both sides. -/
theorem exec_shows (order : HashOrder) (R : Shows st ref) {c : Command S} (typed : c.Typed) :
    ∃ reply st', exec order st c = .ok (reply, st') ∧ (ref.Replies c reply ↔ c.InRange st) ∧ Shows st' (ref.next c) := by
  cases c with
  | zrange key start stop withScores => exact zrange_shows order R typed.1 start stop withScores
  | _ =>
    obtain ⟨reply, st', ran, right, R'⟩ := exec_replies order R typed (by rintro key start stop withScores ⟨⟩)
    exact ⟨reply, st', ran, iff_of_true right trivial, R'⟩

theorem allPermanent_new {V : Type} : AllPermanent (new : OxidArt P V) := by
  intro i n found
  have slot : (new : OxidArt P V).tryGetNode i = if i = (new : OxidArt P V).rootIdx then some .default else none :=
    TaggedHiSlab.get_insertSlot _ _ i
  rw [slot] at found
  split at found
  · obtain rfl := Option.some.inj found
    exact ExpAndRadix.exp_noExpiracy 0
  · cases found

theorem shows_new : Shows (new : OxidArt P (Value S)) fun _ => none := by
  have R : Refines (new : OxidArt P (Value S)) Ref.new := refines_new
  have absent : ∀ key, (new : OxidArt P (Value S)).entry key = none := by
    intro key
    rw [← allPermanent_new.live, R.live]
    rfl
  refine ⟨R.sound, allPermanent_new, fun key => by rw [absent]; rfl, ?_, nofun⟩
  intro key v e held
  rw [absent] at held
  cases held

/-- A command changes no key but its own. -/
theorem next_frame (ref : RefStore S) (c : Command S) {key : Bytes} (other : ¬ c.Touches key) : ref.next c key = ref key := by
  have changed : ∀ {β α : Type} {view : RefValue S → Except RedisType (Bytes → Option β)} {wrap : (Bytes → Option β) → RefValue S}
      {change : (Bytes → Option β) → Except TypeError (α × (Bytes → Option β))} {k : Bytes}, key ≠ k →
      (ref.changed k view wrap change).2 key = ref key := by
    intro β α view wrap change k differ
    unfold RefStore.changed
    split
    · rfl
    · split
      · rfl
      · exact Function.update_of_ne differ _ _
  have removed : ∀ {β : Type} {view : RefValue S → Except RedisType (Bytes → Option β)} {wrap : (Bytes → Option β) → RefValue S}
      {keys : List Bytes} {k : Bytes}, key ≠ k → (ref.removed k view wrap keys).2 key = ref key := by
    intro β view wrap keys k differ
    unfold RefStore.removed
    split
    · rfl
    · split
      · rfl
      · exact Function.update_of_ne differ _ _
  cases c with
  | tree op =>
    cases op with
    | set k v => exact Function.update_of_ne other _ _
    | del k => exact Function.update_of_ne other _ _
    | deln pfx => exact if_neg other
    | _ => rfl
  | incrby k delta =>
    simp only [RefStore.next]
    cases ref k with
    | none => exact Function.update_of_ne other _ _
    | some v =>
      dsimp only
      cases v.incr delta with
      | ok n => exact Function.update_of_ne other _ _
      | error => rfl
  | hset | hincrby | sadd | zadd | zincrby => exact changed other
  | hdel | srem | zrem => exact removed other
  | _ => rfl

/-- A run of typed commands from a new store ends in a store that shows the reference. Its replies are those of the reference exactly
when no range of ranks ends too early. -/
theorem run_answers_iff (order : HashOrder) (commands : List (Command S)) (typed : ∀ c ∈ commands, c.Typed) :
    ∃ replies st, run (exec order) commands (new : OxidArt P (Value S)) = .ok (replies, st) ∧
      (Answers RefStore.next RefStore.Replies (fun _ => none) commands replies ↔
        Meets (exec order) (fun st c => c.InRange st) commands (new : OxidArt P (Value S))) ∧
      Shows st (commands.foldl RefStore.next fun _ => none) := by
  have simulates : ∀ (st : OxidArt P (Value S)) (ref : RefStore S) (c : Command S), Shows st ref → c.Typed →
      ∃ reply st', exec order st c = .ok (reply, st') ∧ (ref.Replies c reply ↔ c.InRange st) ∧ Shows st' (ref.next c) :=
    fun st ref c R typed => exec_shows order R typed
  exact run_simulates_iff simulates commands new (fun _ => none) shows_new (Admits.of_forall (fun c member _ => typed c member) _)

/-- Every run of typed commands from a new store ends in a store that shows the reference; no container is ever empty, and a
command changes no key but its own. The replies are those of the reference exactly when no range of ranks ends too early. -/
theorem run_shows (order : HashOrder) (commands : List (Command S)) (typed : ∀ c ∈ commands, c.Typed) :
    ∃ replies st, run (exec order) commands (new : OxidArt P (Value S)) = .ok (replies, st) ∧
      (Answers RefStore.next RefStore.Replies (fun _ => none) commands replies ↔
        Meets (exec order) (fun st c => c.InRange st) commands (new : OxidArt P (Value S))) ∧
      (∀ key, (st.live key).map (fun c => c.1.meaning) = commands.foldl RefStore.next (fun _ => none) key) ∧
      (∀ key v, commands.foldl RefStore.next (fun _ => none) key = some v → v.Full) ∧
      ∀ (ref : RefStore S) (c : Command S) (key : Bytes), ¬ c.Touches key → ref.next c key = ref key := by
  obtain ⟨replies, st, ran, answers, R⟩ := run_answers_iff (P := P) order commands typed
  exact ⟨replies, st, ran, answers, fun key => (R.held key).symm, R.full, fun ref c key other => next_frame ref c other⟩

/-- Three containers below one another, a refused write, and the removal of a last field. -/
def typedRun : List (Command Int) :=
  [.hset [107] [([102], [49]), ([103], [50])] none, .sadd [107, 97] [[120], [121], [120]] none, .zadd [107, 98] [(3, [120])] none,
    .zincrby [107, 98] 2 [120], .sadd [107] [[120]] none, .hincrby [107] [102] 41, .hdel [107] [[102], [103]], .hlen [107],
    .smembers [107, 97], .zrange [107, 98] 0 (-1) true, .tree (.set [107] (.int 5)), .incrby [107] 1, .tree (.deln [107, 97])]

theorem run_shows_typedRun : (∀ c ∈ typedRun, c.Typed) ∧ ∃ replies st,
    run (exec .stored) typedRun (new : OxidArt .lowest (Value Int)) = .ok (replies, st) ∧
      Answers RefStore.next RefStore.Replies (fun _ => none) typedRun replies := by
  have typed : ∀ c ∈ typedRun, c.Typed := by
    have plain : PlainKey [107] ∧ PlainKey [107, 97] ∧ PlainKey [107, 98] := by decide +kernel
    simp [typedRun, Command.Typed, Value.Ok, Value.meaning, RefValue.Full, plain]
  obtain ⟨replies, st, ran, answers, -⟩ := run_shows (P := .lowest) .stored typedRun typed
  exact ⟨typed, replies, st, ran, answers.2 (by decide +kernel)⟩

/-- Three members, and a range that ends before the first of them. -/
def earlyStop : List (Command Int) := [.zadd [122] [(3, [99]), (1, [97]), (2, [98])] none, .zrange [122] 0 (-10) false]

/-- The code answers the first member. -/
theorem earlyStop_misanswers : (∀ c ∈ earlyStop, c.Typed) ∧ ∃ replies st,
    run (exec .stored) earlyStop (new : OxidArt .lowest (Value Int)) = .ok (replies, st) ∧
      replies = [.added (.ok 3), .list (.ok [[97]])] ∧ ¬ Answers RefStore.next RefStore.Replies (fun _ => none) earlyStop replies := by
  have typed : ∀ c ∈ earlyStop, c.Typed := by
    have plain : PlainKey [122] := by decide +kernel
    simp [earlyStop, Command.Typed, plain]
  obtain ⟨replies, st, ran, answers, -⟩ := run_answers_iff (P := .lowest) .stored earlyStop typed
  refine ⟨typed, replies, st, ran, ?_, fun right => absurd (answers.1 right) (by decide +kernel)⟩
  obtain ⟨rfl, -⟩ := Prod.mk.inj (Except.ok.inj ran)
  rfl

end OxidArt

end Radixox.Oxidart
