import Radixox.Oxidart.TypedReference
import Radixox.Oxidart.Interleaving
import Radixox.Oxidart.Ensured

/-!
# Typed values with deadlines

The reference map of typed values with a clock and deadlines. What a counter or a container does to a live value is what it does in
the typed map without deadlines; the value that it leaves keeps the deadline of the one before. The map may forget expired entries
whenever it is asked, and an eviction is nothing else.
-/

namespace Radixox.Oxidart
set_option autoImplicit false
open Radixox.Runs OxidArt

/-! ## The reference -/

namespace Ref

variable {S : Type} {ref ref' : Ref (RefValue S)} {key : Bytes}

/-- Some expired entries are gone. -/
def Sheds {V : Type} (ref ref' : Ref V) : Prop :=
  ref'.now = ref.now ∧ ∀ k, ref'.table k = ref.table k ∨ ref'.table k = none ∧ ref.live k = none

/-- The live values go over into another map. Each keeps the deadline of the one before, and an expired entry may stay. -/
def Shifts (ref : Ref (RefValue S)) (values : RefStore S) (ref' : Ref (RefValue S)) : Prop :=
  ref'.now = ref.now ∧ ∀ k, ref'.table k = (values k).map (fun v => (v, (ref.live k).bind Prod.snd)) ∨
    ref.live k = none ∧ values k = none ∧ ref'.table k = ref.table k

/-- A step of the reference: a command, one of its replies, and the map after it. -/
def Takes [Score S] (ref : Ref (RefValue S)) : Command S → Reply S → Ref (RefValue S) → Prop
  | .tree (.set key v), reply, ref' => reply = .tree .done ∧ ref' = ref.put key (some (v.meaning, none))
  | .tree (.setTtl key ttl v), reply, ref' => reply = .tree .done ∧ ref' = ref.put key (some (v.meaning, some (ref.now + ttl)))
  | .tree (.del key), reply, ref' =>
    (∃ v, reply = .tree (.value v) ∧ v.map Value.meaning = (ref.table key).map Prod.fst) ∧ ref' = ref.put key none
  | .tree (.deln pfx), reply, ref' => (∃ keys : Finset Bytes, (∀ k, k ∈ keys ↔ pfx <+: k ∧ (ref.table k).isSome = true) ∧
      reply = .tree (.count keys.card)) ∧ ref' = ref.next (.deln pfx)
  | .tree (.getn pfx), reply, ref' =>
    (∃ l, reply = .tree (.pairs l) ∧ ref.Lists pfx (l.map fun p => (p.1, p.2.meaning))) ∧ ref' = ref
  | .tree (.expire key ttl), reply, ref' =>
    (∃ b, reply = .tree (.flag b) ∧ ∀ v e, ref.live key = some (v, e) → b = e.isNone) ∧ ref' = ref.next (.expire key ttl)
  | .tree (.persist key), reply, ref' =>
    (∃ b, reply = .tree (.flag b) ∧ (b = true ↔ ∃ v e, ref.table key = some (v, some e))) ∧
      ref' = (ref.table key).elim ref fun c => ref.put key (some (c.1, none))
  | .tree (.getTtl key), reply, ref' => (∃ t, reply = .tree (.ttl t) ∧ ∀ v e, ref.live key = some (v, e) →
      t = (e.map fun e => .keyWithTtl (e - ref.now)).getD .keyWithoutTtl) ∧ ref' = ref
  | .tree (.setNow now), reply, ref' => reply = .tree .done ∧ ref' = { ref with now := now }
  | .tree (.evict _), reply, ref' => (∃ n, reply = .tree (.count n)) ∧ ref.Sheds ref'
  | c, reply, ref' => RefStore.Replies ref.get c reply ∧ ref.Shifts (RefStore.next ref.get c) ref'

theorem live_of_get {v : RefValue S} (here : ref.get key = some v) : ref.live key = some (v, (ref.live key).bind Prod.snd) := by
  obtain ⟨⟨w, e⟩, live, rfl⟩ := Option.map_eq_some_iff.1 here
  rw [live]
  rfl

theorem table_of_live {c : RefValue S × Option Nat} (live : ref.live key = some c) : ref.table key = some c :=
  (Option.filter_eq_some_iff.1 live).1

/-- Only the key that is written changes. -/
theorem shifts_put {v : Option (RefValue S)} : ref.Shifts (Function.update ref.get key v)
    (ref.put key (v.map fun v => (v, (ref.live key).bind Prod.snd))) := by
  refine ⟨rfl, fun k => ?_⟩
  simp only [put, Function.update_apply]
  by_cases here : k = key
  · rw [if_pos here, if_pos here, here]
    exact .inl rfl
  · rw [if_neg here, if_neg here]
    cases got : ref.get k with
    | none => exact .inr ⟨Option.map_eq_none_iff.1 got, rfl, rfl⟩
    | some v => exact .inl (table_of_live (live_of_get got))

/-- A lookup that changes nothing but expired entries. -/
theorem Sheds.shifts (sheds : ref.Sheds ref') : ref.Shifts ref.get ref' := by
  refine ⟨sheds.1, fun k => ?_⟩
  cases got : ref.get k with
  | some v =>
    have live := live_of_get got
    rcases sheds.2 k with same | ⟨-, dead⟩
    · exact .inl (same.trans (table_of_live live))
    · rw [dead] at live
      cases live
  | none =>
    have dead : ref.live k = none := Option.map_eq_none_iff.1 got
    rcases sheds.2 k with same | ⟨gone, -⟩
    · exact .inr ⟨dead, rfl, same⟩
    · exact .inl gone

theorem shifts_refl : ref.Shifts ref.get ref := Sheds.shifts ⟨rfl, fun _ => .inl rfl⟩

/-- The clock only moves when it is set. -/
theorem Takes.now [Score S] {c : Command S} {reply : Reply S} (takes : ref.Takes c reply ref')
    (other : ∀ now, c ≠ .tree (.setNow now)) : ref'.now = ref.now := by
  cases c with
  | tree op => cases op with
    | set | setTtl | del | deln => rw [takes.2]; rfl
    | getn | getTtl => rw [takes.2]
    | expire key ttl =>
      rw [takes.2, next]
      split <;> rfl
    | persist key =>
      rw [takes.2]
      cases ref.table key <;> rfl
    | get | evict => exact takes.2.1
    | setNow now => exact (other now rfl).elim
  | _ => exact takes.2.1

end Ref

section Timely

variable {S : Type} [Score S]

/-- A key that is live, or whose node, if there is one, has no expiry. -/
def OxidArt.FreshAt {P : Policy} {V : Type} (st : OxidArt P V) (key : Bytes) : Prop := st.live key = none → st.keyExp key = none

instance {P : Policy} {V : Type} (st : OxidArt P V) (key : Bytes) : Decidable (st.FreshAt key) := inferInstanceAs (Decidable (_ → _))

/-- The commands in question: plain keys, deadlines that fit the field, exact evictions, something to write, only full containers
stored as a whole, no container made at a node that an expiry was left behind at, and no range of ranks that ends too early. -/
def Command.Timely {P : Policy} (st : OxidArt P (Value S)) : Command S → Prop
  | .tree (.set key v) => PlainKey key ∧ v.Ok ∧ v.meaning.Full
  | .tree (.setTtl key ttl v) => PlainKey key ∧ st.now + ttl < 2 ^ 56 - 1 ∧ v.Ok ∧ v.meaning.Full
  | .tree (.expire key ttl) => PlainKey key ∧ st.now + ttl < 2 ^ 56 - 1
  | .tree (.get key) | .tree (.del key) | .tree (.persist key) | .tree (.getTtl key) | .tree (.deln key) => PlainKey key
  | .tree (.getn pfx) => KeyOk pfx
  | .tree (.setNow _) => True
  | .tree (.evict draws) => ExactEviction st draws
  | .hset key items ttl => PlainKey key ∧ items ≠ [] ∧ ttl = none ∧ st.FreshAt key
  | .sadd key items ttl => PlainKey key ∧ items ≠ [] ∧ ttl = none ∧ st.FreshAt key
  | .zadd key items ttl => PlainKey key ∧ items ≠ [] ∧ ttl = none ∧ st.FreshAt key
  | .hincrby key _ _ | .zincrby key _ _ => PlainKey key ∧ st.FreshAt key
  | .incrby key _ | .hget key _ | .hgetall key | .hdel key _ | .hexists key _ | .hlen key | .hkeys key | .hvals key
  | .hmget key _ | .srem key _ | .smembers key | .sismember key _ | .scard key | .zcard key | .zscore key _ | .zrem key _ =>
    PlainKey key
  | .zrange key start stop _ => PlainKey key ∧ st.RangeIn key start stop
  | .spop .. => False

end Timely

namespace OxidArt

variable {P : Policy} {S : Type} [Score S] {st st' : OxidArt P (Value S)} {key : Bytes} {path path' : Nat → Option Bytes}
variable {K : Bytes → Prop}

/-- The entries of the store, as what they mean. -/
def asTimed (st : OxidArt P (Value S)) : Ref (RefValue S) := ⟨fun key => (st.entry key).map fun c => (c.1.meaning, c.2), st.now⟩

/-- The containers are in order and none is empty; the empty key is not in use. -/
structure Timed (st : OxidArt P (Value S)) : Prop where
  sound : IsSound st
  top : st.graph.label st.rootIdx = some []
  ok : ∀ key v e, st.entry key = some (v, e) → v.Ok
  full : ∀ key v e, st.entry key = some (v, e) → v.meaning.Full

theorem liveAt_map (now : Nat) (e : Option (Value S × Option Nat)) :
    liveAt now (e.map fun c => (c.1.meaning, c.2)) = (liveAt now e).map fun c => (c.1.meaning, c.2) := by
  cases e with
  | none => rfl
  | some c =>
    simp only [Option.map_some, liveAt, Option.filter_some]
    split <;> rfl

theorem asTimed_live (key : Bytes) : st.asTimed.live key = (st.live key).map fun c => (c.1.meaning, c.2) := liveAt_map _ _

theorem asTimed_get (key : Bytes) : st.asTimed.get key = (st.live key).map fun c => c.1.meaning := by
  rw [Ref.get, asTimed_live, Option.map_map]
  rfl

theorem asTimed_sheds (stays : Stays st st') (sheds : Sheds st st') : st.asTimed.Sheds st'.asTimed := by
  refine ⟨stays.now, fun k => ?_⟩
  rw [asTimed_live]
  rcases sheds k with same | ⟨gone, dead⟩
  · exact .inl (by simp only [asTimed, same])
  · exact .inr ⟨by simp only [asTimed, gone, Option.map_none], by rw [dead]; rfl⟩

theorem asTimed_put {e : Option (Value S × Option Nat)} (stays : Stays st st') (entries : st'.entry = Function.update st.entry key e) :
    st'.asTimed = st.asTimed.put key (e.map fun c => (c.1.meaning, c.2)) := by
  have table : st'.asTimed.table = (st.asTimed.put key (e.map fun c => (c.1.meaning, c.2))).table := by
    funext k
    simp only [asTimed, Ref.put, entries, Function.update_apply]
    split <;> rfl
  rw [asTimed, stays.now] at table ⊢
  exact congrArg (Ref.mk · st.now) table

/-! ### Steps that keep the store in order -/

theorem Timed.step (T : Timed st) (step : Step K st [] path st' path') (held : ∀ key v e, st'.entry key = some (v, e) →
    (∃ e', st.entry key = some (v, e')) ∨ v.Ok ∧ v.meaning.Full) : Timed st' := by
  refine ⟨step.keeps.isSound, ?_, fun key v e here => ?_, fun key v e here => ?_⟩
  · rw [step.stays.rootIdx, step.top]
    exact T.top
  · exact (held key v e here).elim (fun ⟨e', before⟩ => T.ok key v e' before) And.left
  · exact (held key v e here).elim (fun ⟨e', before⟩ => T.full key v e' before) And.right

theorem Timed.put (T : Timed st) (step : Step K st [] path st' path') {v : Value S} {e : Option Nat}
    (entries : st'.entry = Function.update st.entry key (some (v, e))) (ok : v.Ok) (full : v.meaning.Full) : Timed st' := by
  refine T.step step fun k w e' here => ?_
  rw [entries, Function.update_apply] at here
  split at here
  · obtain ⟨rfl, -⟩ := Prod.mk.inj (Option.some.inj here)
    exact .inr ⟨ok, full⟩
  · exact .inl ⟨e', here⟩

theorem Timed.drop (T : Timed st) (step : Step K st [] path st' path') (entries : st'.entry = Function.update st.entry key none) :
    Timed st' := by
  refine T.step step fun k w e' here => ?_
  rw [entries, Function.update_apply] at here
  split at here
  · cases here
  · exact .inl ⟨e', here⟩

theorem Timed.sheds (T : Timed st) (step : Step K st [] path st' path') (sheds : Sheds st st') : Timed st' := by
  refine T.step step fun k w e' here => ?_
  rcases sheds k with same | ⟨gone, -⟩
  · exact .inl ⟨e', same ▸ here⟩
  · rw [gone] at here
    cases here

/-- A value that is written over another keeps its deadline. -/
theorem Timed.wrote (T : Timed st) (step : Step K st [] path st' path') {v : Value S}
    (entries : st'.entry = Function.update st.entry key (some (v, (st.live key).bind Prod.snd))) (ok : v.Ok) (full : v.meaning.Full) :
    st.asTimed.Shifts (Function.update st.asTimed.get key (some v.meaning)) st'.asTimed ∧ Timed st' := by
  refine ⟨?_, T.put step entries ok full⟩
  have shifts : st.asTimed.Shifts (Function.update st.asTimed.get key (some v.meaning)) (st.asTimed.put key
      ((some v.meaning).map fun v => (v, (st.asTimed.live key).bind Prod.snd))) := Ref.shifts_put
  have deadline : (st.asTimed.live key).bind Prod.snd = (st.live key).bind Prod.snd := by
    rw [asTimed_live]
    cases st.live key <;> rfl
  rw [asTimed_put step.stays entries, Option.map_some]
  rwa [deadline, Option.map_some] at shifts

/-! ### The shapes of the commands -/

section Shapes

variable {C β α : Type} (k : Kind S C β)

theorem Timed.container (T : Timed st) {v : Value S} {e : Option Nat} (live : st.live key = some (v, e)) {c : C}
    (view : k.view v = .ok c) : k.Ok c ∧ k.get c ≠ fun _ => none := by
  have entry : st.entry key = some (v, e) := (Option.filter_eq_some_iff.1 live).1
  have ok := T.ok key v e entry
  have full := T.full key v e entry
  obtain rfl := k.eq_wrap v c view
  rw [k.meaning_wrap, k.full_iff] at full
  exact ⟨(k.ok_wrap c).1 ok, full⟩

/-- A container that is written under a key keeps the deadline of the value before it. -/
theorem Timed.wraps (T : Timed st) (step : Step K st [] path st' path') {c : C}
    (entries : st'.entry = Function.update st.entry key (some (k.wrap c, (st.live key).bind Prod.snd))) (ok : k.Ok c)
    (full : k.get c ≠ fun _ => none) :
    st.asTimed.Shifts (Function.update st.asTimed.get key (some (k.refWrap (k.get c)))) st'.asTimed ∧ Timed st' := by
  rw [← k.meaning_wrap]
  exact T.wrote step entries ((k.ok_wrap c).2 ok) (by rw [k.meaning_wrap, k.full_iff]; exact full)

/-- A writing command. -/
theorem Timed.changes (T : Timed st) (fresh : st.FreshAt key) {change : C → Except TypeError (α × C)}
    {refChange : (Bytes → Option β) → Except TypeError (α × (Bytes → Option β))} (follows : Follows k change refChange)
    (fills : ∀ m a m', refChange m = .ok (a, m') → m' ≠ fun _ => none) (starts : ∃ p, refChange (fun _ => none) = .ok p)
    {run : Exec (Except TypeError α × OxidArt P (Value S))} (H : Changes st [] path key none k.view k.wrap k.new change run) :
    ∃ st', run = .ok ((RefStore.changed st.asTimed.get key k.refView k.refWrap refChange).1, st') ∧
      st.asTimed.Shifts (RefStore.changed st.asTimed.get key k.refView k.refWrap refChange).2 st'.asTimed ∧ Timed st' := by
  unfold RefStore.changed
  rw [asTimed_get]
  cases live : st.live key with
  | none =>
    have permanent : st.madeExp none key = none := fresh live
    obtain ⟨st', path', ran, step, entries⟩ := H.made (fun _ => True) live (by rw [permanent]; rfl)
    obtain ⟨agree, keeps⟩ := follows k.new k.ok_new
    obtain ⟨⟨a, m⟩, made⟩ := starts
    rw [k.get_new, made] at agree
    simp only [Option.map_none, Option.elim_none, made]
    cases outcome : change k.new with
    | error => rw [outcome] at agree; cases agree
    | ok p =>
      obtain ⟨b, c⟩ := p
      rw [outcome] at agree ran entries
      obtain ⟨rfl, rfl⟩ := Prod.mk.inj (Except.ok.inj agree)
      exact ⟨st', ran, T.wraps k step (by rw [entries, permanent, live]; rfl) (keeps _ outcome) (fills _ _ _ made)⟩
  | some held =>
    obtain ⟨v, e⟩ := held
    simp only [Option.map_some, Option.elim_some, k.refView_meaning]
    cases view : k.view v with
    | error t => exact ⟨st, H.wrongType v e t live view, Ref.shifts_refl, T⟩
    | ok c =>
      obtain ⟨ok, -⟩ := T.container k live view
      obtain ⟨agree, keeps⟩ := follows c ok
      simp only [Except.map, agree]
      cases outcome : change c with
      | error t => exact ⟨st, H.refused v e c t live view outcome, Ref.shifts_refl, T⟩
      | ok p =>
        obtain ⟨a, c'⟩ := p
        rw [outcome] at agree
        obtain ⟨st', ran, step, entries⟩ := H.changed (fun _ => True) v e c a c' live view outcome
        exact ⟨st', ran, T.wraps k step (by rw [entries, live]; rfl) (keeps _ outcome) (fills _ _ _ agree)⟩

/-- A removing command. -/
theorem Timed.removes (T : Timed st) (nonempty : key ≠ []) {remove : C → Bytes → Bool × C}
    (drops : ∀ c x, k.Ok c → k.Ok (remove c x).2 ∧ k.get (remove c x).2 = Function.update (k.get c) x none ∧
      (remove c x).1 = (k.get c x).isSome) (items : List Bytes) :
    ∃ st', st.removeFrom key k.view k.wrap remove k.isEmpty items =
        .ok ((RefStore.removed st.asTimed.get key k.refView k.refWrap items).1, st') ∧
      st.asTimed.Shifts (RefStore.removed st.asTimed.get key k.refView k.refWrap items).2 st'.asTimed ∧ Timed st' := by
  obtain ⟨path, I⟩ := T.sound
  obtain ⟨missing, wrongType, removed⟩ := removeFrom_ok k.view k.wrap remove k.isEmpty I nonempty items
  unfold RefStore.removed
  rw [asTimed_get]
  cases live : st.live key with
  | none =>
    obtain ⟨st', path', ran, step, sheds⟩ := missing live
    exact ⟨st', ran, (asTimed_sheds step.stays sheds).shifts, T.sheds step sheds⟩
  | some held =>
    obtain ⟨v, e⟩ := held
    simp only [Option.map_some, k.refView_meaning]
    cases view : k.view v with
    | error t => exact ⟨st, wrongType v e t live view, Ref.shifts_refl, T⟩
    | ok c =>
      obtain ⟨ok, -⟩ := T.container k live view
      obtain ⟨st', path', ran, step, entries⟩ := removed v e c live view
      obtain ⟨ok', map, count⟩ := countLoop_drops drops items c ok
      simp only [Except.map]
      refine ⟨st', by rw [ran, count], ?_⟩
      by_cases emptied : without (k.get c) items = fun _ => none
      · rw [if_pos ((k.isEmpty_iff _ ok').2 (map.trans emptied))] at entries
        rw [if_pos emptied, asTimed_put step.stays entries]
        exact ⟨Ref.shifts_put, T.drop step entries⟩
      · have left : k.get (countLoop remove c items).2 ≠ fun _ => none := by rw [map]; exact emptied
        rw [if_neg (fun none' => left ((k.isEmpty_iff _ ok').1 none'))] at entries
        rw [if_neg emptied, ← map]
        exact T.wraps k step (by rw [entries, live]; rfl) ok' left

theorem Timed.reads_iff (T : Timed st) (nonempty : key ≠ []) (absent : α) (read : C → α) (shows : (Bytes → Option β) → α → Prop) :
    ∃ reply st', st.readAs key k.view absent read = .ok (reply, st') ∧
      (RefStore.Reads st.asTimed.get key k.refView absent shows reply ↔
        ∀ v e c, st.live key = some (v, e) → k.view v = .ok c → shows (k.get c) (read c)) ∧
      st.asTimed.Shifts st.asTimed.get st'.asTimed ∧ Timed st' := by
  obtain ⟨path, I⟩ := T.sound
  obtain ⟨st', path', ran, step, sheds⟩ := readAs_ok k.view I nonempty absent read
  exact ⟨_, st', ran, OxidArt.reads_iff k (asTimed_get key) absent read shows, (asTimed_sheds step.stays sheds).shifts,
    T.sheds step sheds⟩

/-- A reading command. -/
theorem Timed.reads (T : Timed st) (nonempty : key ≠ []) (absent : α) {read : C → α} {shows : (Bytes → Option β) → α → Prop}
    (right : ∀ c, k.Ok c → shows (k.get c) (read c)) :
    ∃ reply st', st.readAs key k.view absent read = .ok (reply, st') ∧
      RefStore.Reads st.asTimed.get key k.refView absent shows reply ∧ st.asTimed.Shifts st.asTimed.get st'.asTimed ∧ Timed st' := by
  obtain ⟨reply, st', ran, reads, shifts, T'⟩ := T.reads_iff k nonempty absent read shows
  exact ⟨reply, st', ran, reads.2 fun v e c live view => right c (T.container k live view).1, shifts, T'⟩

/-- `SMEMBERS` and `SCARD`. -/
theorem Timed.readsSet (T : Timed st) (nonempty : key ≠ []) (absent : α) {read : SortedSet Bytes → α}
    {shows : (Bytes → Option Unit) → α → Prop} (right : ∀ s, shows (memberMap s) (read s)) :
    ∃ reply st', st.readSet key absent read = .ok (reply, st') ∧
      RefStore.Reads st.asTimed.get key RefValue.asSet absent shows reply ∧ st.asTimed.Shifts st.asTimed.get st'.asTimed ∧
      Timed st' := by
  obtain ⟨path, I⟩ := T.sound
  have full : ∀ v e set, st.live key = some (v, e) → v.asSet = .ok set → set.isEmpty = false := by
    intro v e set live view
    rw [← Bool.not_eq_true, isEmpty_iff_memberMap]
    exact (T.container (Kind.set S) live view).2
  obtain ⟨st', path', ran, step, sheds⟩ := readSet_ok I nonempty full absent read
  exact ⟨_, st', ran, (OxidArt.reads_iff (Kind.set S) (asTimed_get key) absent read shows).2 fun _ _ s _ _ => right s,
    (asTimed_sheds step.stays sheds).shifts, T.sheds step sheds⟩

end Shapes

/-! ### One command -/

theorem Timed.refines (T : Timed st) : Refines st st.asRef := ⟨T.sound, rfl, rfl, T.top⟩

theorem Timed.lists (T : Timed st) (pfx : Bytes) :
    ∃ l, st.getn pfx = .ok l ∧ st.asTimed.Lists pfx (l.map fun p => (p.1, p.2.meaning)) := by
  obtain ⟨l, ran, nodup, mem⟩ := T.refines.getn pfx
  refine ⟨l, ran, ?_, fun k m => ?_⟩
  · rw [List.map_map]
    exact nodup
  · have got : st.asTimed.get k = (st.asRef.get k).map Value.meaning := by
      rw [asTimed_get, Ref.get, Option.map_map]
      rfl
    rw [got, List.mem_map, Option.map_eq_some_iff]
    constructor
    · rintro ⟨⟨k', v⟩, member, same⟩
      obtain ⟨rfl, rfl⟩ := Prod.mk.inj same
      obtain ⟨below, held⟩ := (mem k' v).1 member
      exact ⟨below, v, held, rfl⟩
    · rintro ⟨below, v, held, rfl⟩
      exact ⟨(k, v), (mem k v).2 ⟨below, held⟩, rfl⟩

theorem Timed.expire (T : Timed st) {ttl : Nat} (small : st.now + ttl < 2 ^ 56 - 1) :
    ∃ b st', st.expire key ttl = .ok (b, st') ∧ (∀ v e, st.live key = some (v, e) → b = e.isNone) ∧
      st'.asTimed = st.asTimed.next (.expire key ttl) ∧ Timed st' := by
  obtain ⟨path, I⟩ := T.sound
  have sum := saturatingAdd_eq small
  obtain ⟨b, st', ran, step, entries⟩ := expire_ok key I (fun _ => True) (by rw [sum]; exact small)
  refine ⟨b, st', ran, fun v e live => ?_, ?_⟩
  · -- The node of a live key is current, and its expiry is that of the entry.
    obtain ⟨i, target, -⟩ := Option.bind_eq_some_iff.1 (Option.filter_eq_some_iff.1 live).1
    obtain ⟨n, here⟩ := T.sound.rooted.occupied target
    rw [here.live] at live
    split at live
    · cases live
    next current =>
      obtain ⟨w, -, same⟩ := Option.map_eq_some_iff.1 live
      obtain ⟨-, rfl⟩ := Prod.mk.inj same
      obtain ⟨m, st'', ran', -⟩ := here.expire (by simpa using current) (show st.now + ttl < 2 ^ 56 by omega)
      exact (Prod.mk.inj (Except.ok.inj (ran.symm.trans ran'))).1
  · rw [sum] at entries
    have idle : st'.entry = st.entry → st'.asTimed = st.asTimed ∧ Timed st' := fun same =>
      ⟨by rw [asTimed, same, step.stays.now]; rfl, T.sheds step fun k => .inl (congrFun same k)⟩
    simp only [Ref.next, asTimed_live]
    cases held : st.entry key with
    | none =>
      rw [held] at entries
      rw [live, held]
      exact idle entries
    | some c =>
      obtain ⟨v, e⟩ := c
      rw [held] at entries
      rw [live, held, liveAt, Option.filter_some]
      cases past : expired st.now e with
      | true =>
        simp only [past, if_true] at entries
        exact idle entries
      | false =>
        simp only [past, Bool.false_eq_true, if_false] at entries
        exact ⟨asTimed_put step.stays entries, T.put step entries (T.ok key v e held) (T.full key v e held)⟩

theorem Timed.persist (T : Timed st) (key : Bytes) :
    ∃ b st', st.persist key = .ok (b, st') ∧ (b = true ↔ ∃ v e, st.entry key = some (v, some e)) ∧
      st'.asTimed = (st.asTimed.table key).elim st.asTimed (fun c => st.asTimed.put key (some (c.1, none))) ∧ Timed st' := by
  obtain ⟨path, I⟩ := T.sound
  obtain ⟨b, st', ran, step, entries⟩ := persist_ok I (fun _ => True) key
  refine ⟨b, st', ran, ?_, ?_⟩
  · cases target : st.traverseToKey key with
    | none =>
      rw [OxidArt.persist, target] at ran
      obtain ⟨rfl, -⟩ := Prod.mk.inj (Except.ok.inj ran)
      simp [entry_of_traverse_none target]
    | some i =>
      obtain ⟨n, here⟩ := T.sound.rooted.occupied target
      rw [here.entry, Node.content]
      cases finite : n.expAndRadix.exp with
      | none =>
        obtain ⟨rfl, -⟩ := Prod.mk.inj (Except.ok.inj (ran.symm.trans (here.persist_permanent finite)))
        simp
      | some e =>
        obtain ⟨m, st'', ran', -⟩ := here.persist finite
        obtain ⟨rfl, -⟩ := Prod.mk.inj (Except.ok.inj (ran.symm.trans ran'))
        cases n.val <;> simp
  · simp only [asTimed, Option.elim_map]
    cases held : st.entry key with
    | none =>
      rw [held] at entries
      exact ⟨by rw [entries, step.stays.now]; rfl, T.sheds step fun k => .inl (congrFun entries k)⟩
    | some c =>
      obtain ⟨v, e⟩ := c
      rw [held] at entries
      exact ⟨asTimed_put step.stays entries, T.put step entries (T.ok key v e held) (T.full key v e held)⟩

theorem Timed.incrby (T : Timed st) (bytes : KeyOk key) (delta : Int64) :
    ∃ st', st.incrby key delta = .ok ((st.asTimed.get key).elim (.ok delta) (·.incr delta), st') ∧
      st.asTimed.Shifts (RefStore.next st.asTimed.get (.incrby key delta)) st'.asTimed ∧ Timed st' := by
  obtain ⟨path, I⟩ := T.sound
  obtain ⟨st', path', ran, step, entries⟩ := incrby_ok I (fun _ => True) bytes delta
  have wrote : ∀ n, st'.entry = Function.update st.entry key (some (.int n, (st.live key).bind Prod.snd)) →
      st.asTimed.Shifts (Function.update st.asTimed.get key (some (.int n))) st'.asTimed ∧ Timed st' :=
    fun n entries => T.wrote step entries trivial trivial
  refine ⟨st', ?_, ?_⟩
  · rw [ran, asTimed_get]
    cases st.live key with
    | none => rfl
    | some c => rw [Option.map_some, Option.elim_some, incr_meaning]
  · simp only [RefStore.next, asTimed_get]
    cases live : st.live key with
    | none =>
      rw [live] at entries
      exact wrote delta (by rw [entries, live]; rfl)
    | some c =>
      obtain ⟨v, e⟩ := c
      rw [live] at entries
      simp only [Option.map_some, incr_meaning] at entries ⊢
      cases outcome : v.incr delta with
      | ok n =>
        rw [outcome] at entries
        exact wrote n (by rw [entries, live]; rfl)
      | error t =>
        rw [outcome] at entries
        have sheds : Sheds st st' := fun k => .inl (congrFun entries k)
        exact ⟨(asTimed_sheds step.stays sheds).shifts, T.sheds step sheds⟩

end OxidArt

end Radixox.Oxidart
