import Radixox.Oxidart.Deadlines
import Radixox.Oxidart.Interleaving

/-!
# Operations on other keys

What an operation leaves alone: the entries of the keys that it does not name stay, unless they have expired and are
collected on the way. The exception is an operation that clears the root when the root has a
single child, which renames every key.
-/

namespace Radixox.Oxidart
set_option autoImplicit false
open Radixox.Runs OxidArt

namespace OxidArt

variable {P : Policy} {V : Type} {st st₁ st' : OxidArt P V} {path : Nat → Option Bytes} {K : Bytes → Prop} {key : Bytes}

/-! ## Changes confined to some keys -/

/-- Entries change under the keys of `K` only; elsewhere expired ones may go. -/
structure ChangesOnly (K : Bytes → Prop) (st st' : OxidArt P V) : Prop where
  sound : IsSound st'
  now : st'.now = st.now
  entries : ∀ k, ¬ K k → st'.entry k = st.entry k ∨ st'.entry k = none ∧ st.live k = none

theorem ChangesOnly.refl (sound : IsSound st) : ChangesOnly K st st := ⟨sound, rfl, fun _ _ => .inl rfl⟩

theorem ChangesOnly.trans (first : ChangesOnly K st st₁) (second : ChangesOnly K st₁ st') : ChangesOnly K st st' := by
  refine ⟨second.sound, second.now.trans first.now, fun k outside => ?_⟩
  rcases second.entries k outside with same | ⟨gone, dead⟩
  · rw [same]
    exact first.entries k outside
  · refine .inr ⟨gone, ?_⟩
    rcases first.entries k outside with same | ⟨-, dead'⟩
    · rwa [live, same, first.now] at dead
    · exact dead'

theorem Sheds.changesOnly (sheds : Sheds st st') (keeps : Keeps st [] st') : ChangesOnly K st st' :=
  ⟨keeps.isSound, keeps.1.now, fun k _ => sheds k⟩

theorem changesOnly_of_update {e : Option (V × Option Nat)} (keeps : Keeps st [] st')
    (entries : st'.entry = Function.update st.entry key e) : ChangesOnly (key = ·) st st' := by
  refine ⟨keeps.isSound, keeps.1.now, fun k other => .inl ?_⟩
  rw [entries, Function.update_of_ne (Ne.symm other)]

/-! ## Lookups, the empty key included -/

theorem del_changesOnly (sound : IsSound st) (calm : key = [] → ¬ st.Absorbs) :
    ∃ v st', st.del key = .ok (v, st') ∧ ChangesOnly (key = ·) st st' := by
  obtain ⟨path, I⟩ := sound
  obtain ⟨st', path', run, I', stays, entries⟩ := del_calm I calm
  exact ⟨_, st', run, changesOnly_of_update ⟨stays, path', I'⟩ entries⟩

/-- Writing a value at a node does not change what clearing the root would do. -/
theorem Absorbs.of_putVal {i : Nat} {v : V} (put : st.putVal i v = .ok st')
    (others : ∀ k, k ≠ [] → (st'.entry k).isSome = (st.entry k).isSome) (absorbs : st'.Absorbs) : st.Absorbs := by
  obtain ⟨⟨root, found, single⟩, k, inner, held⟩ := absorbs
  refine ⟨?_, k, inner, others k inner ▸ held⟩
  obtain ⟨n, node, wrote⟩ := Outcomes.exists_of_bind put
  obtain rfl := Except.ok.inj wrote
  have found' := tryGetNode_of_getNode node
  change (st.setNode i { n with val := some v }).tryGetNode st.rootIdx = some root at found
  rw [tryGetNode_setNode, found'] at found
  split at found
  next top =>
    obtain rfl := Option.some.inj found
    exact ⟨n, top ▸ found', single⟩
  next => exact ⟨root, found, single⟩

/-! ## The shapes of the typed commands -/

section Typed

variable {S : Type} [Score S] {C α : Type} {st st' : OxidArt P (Value S)} {view : Value S → Except RedisType C}

/-- The empty key shows a container that the command drains. -/
def Drains (st : OxidArt P (Value S)) (view : Value S → Except RedisType C) (drained : C → Bool) : Prop :=
  ∃ v e c, st.live [] = some (v, e) ∧ view v = .ok c ∧ drained c = true

theorem readAs_changesOnly (sound : IsSound st) (calm : key = [] → st.RootExpired → ¬ st.Absorbs)
    (view : Value S → Except RedisType C) (absent : α) (read : C → α) : ∃ reply st', st.readAs key view absent read = .ok (reply, st') ∧ ChangesOnly K st st' := by
  obtain ⟨path, I⟩ := sound
  obtain ⟨reply, st', run, keeps, collects⟩ := readAs_keeps I key view absent read
  exact ⟨reply, st', run, (collects.sheds I calm).changesOnly keeps⟩

theorem removeFrom_changesOnly (sound : IsSound st) (wrap : C → Value S) (remove : C → Bytes → Bool × C) (isEmpty : C → Bool)
    (items : List Bytes) (calm : key = [] → st.RootExpired ∨ st.Drains view (fun c => isEmpty (countLoop remove c items).2) →
      ¬ st.Absorbs) :
    ∃ reply st', st.removeFrom key view wrap remove isEmpty items = .ok (reply, st') ∧ ChangesOnly (key = ·) st st' := by
  have sound' := sound
  obtain ⟨path, I⟩ := sound
  obtain ⟨res, st₁, run, keeps, collects, holds⟩ := getMut_keeps I key
  have sheds := collects.sheds I fun empty past => calm empty (.inl past)
  simp only [removeFrom, run, bind, Except.bind]
  cases res with
  | none => exact ⟨_, st₁, rfl, sheds.changesOnly keeps⟩
  | some p =>
    obtain ⟨i, v⟩ := p
    obtain ⟨rfl, e, H⟩ := holds i v rfl
    cases ok : view v with
    | error t => exact ⟨_, st₁, by simp only [ok]; rfl, .refl sound'⟩
    | ok c =>
      obtain ⟨rest, eq⟩ : ∃ rest, rest = (countLoop remove c items).2 := ⟨_, rfl⟩
      obtain ⟨st₂, put, step, -, entries⟩ := putVal_holds I (fun _ => True) H (wrap rest)
      have wrote := changesOnly_of_update step.keeps entries
      simp only [ok, ← eq, put]
      cases drained : isEmpty rest with
      | false =>
        simp only [Bool.false_eq_true, if_false]
        exact ⟨_, st₂, rfl, wrote⟩
      | true =>
        have drained' : isEmpty (countLoop remove c items).2 = true := by rw [← eq, drained]
        have calm₂ : key = [] → ¬ st₂.Absorbs := by
          rintro rfl absorbs
          refine calm rfl (.inr ⟨v, e, c, H.live I, ok, drained'⟩) (absorbs.of_putVal put fun k inner => ?_)
          rw [entries, Function.update_of_ne inner]
        obtain ⟨old, st₃, del, erased⟩ := del_changesOnly wrote.sound calm₂
        simp only [if_true, del]
        exact ⟨_, st₃, rfl, wrote.trans erased⟩

theorem readSet_changesOnly (sound : IsSound st) (calm : key = [] → st.RootExpired ∨ st.Drains Value.asSet SortedSet.isEmpty →
    ¬ st.Absorbs) (absent : α) (read : SortedSet Bytes → α) :
    ∃ reply st', st.readSet key absent read = .ok (reply, st') ∧ ChangesOnly (key = ·) st st' := by
  obtain ⟨path, I⟩ := sound
  obtain ⟨res, st₁, run, keeps, collects, holds⟩ := getMut_keeps I key
  have sheds := collects.sheds I fun empty past => calm empty (.inl past)
  simp only [readSet, run, bind, Except.bind]
  cases res with
  | none => exact ⟨_, st₁, rfl, sheds.changesOnly keeps⟩
  | some p =>
    obtain ⟨i, v⟩ := p
    obtain ⟨rfl, e, H⟩ := holds i v rfl
    cases ok : v.asSet with
    | error t => exact ⟨_, st₁, by simp only [ok]; rfl, .refl keeps.isSound⟩
    | ok set =>
      simp only [ok]
      cases drained : set.isEmpty with
      | false =>
        simp only [Bool.false_eq_true, if_false]
        exact ⟨_, st₁, rfl, .refl keeps.isSound⟩
      | true =>
        obtain ⟨old, st', del, erased⟩ := del_changesOnly keeps.isSound fun empty =>
          calm empty (.inr ⟨v, e, set, empty ▸ H.live I, ok, drained⟩)
        simp only [if_true, del]
        exact ⟨_, st', rfl, erased⟩

/-- A writing command changes its own key if it returns. -/
theorem Changes.changesOnly {wrap : C → Value S} {new : C} {ttl : Option Nat} {change : C → Except TypeError (α × C)}
    {run : Exec (Except TypeError α × OxidArt P (Value S))} (I : Inv st [] path)
    (H : Changes st [] path key ttl view wrap new change run) {reply : Except TypeError α} (ran : run = .ok (reply, st')) :
    ChangesOnly (key = ·) st st' := by
  obtain ⟨keeps, same | ⟨e, entries⟩⟩ := H.writes I ran
  · exact ⟨keeps.isSound, keeps.1.now, fun k _ => .inl (by rw [same])⟩
  · exact changesOnly_of_update keeps entries

end Typed

end OxidArt

/-! ## Commands -/

section Typed

variable {P : Policy} {S : Type} [Score S]

/-- The keys a command is about. -/
def Command.Names (key : Bytes) : Command S → Prop
  | .tree (.getn _) | .tree (.setNow _) | .tree (.evict _) => False
  | .tree (.deln pfx) => pfx <+: key
  | .tree (.set k _) | .tree (.setTtl k _ _) | .tree (.expire k _) | .tree (.persist k) | .tree (.get k) | .tree (.getTtl k)
  | .tree (.del k) | .incrby k _ | .hset k _ _ | .hget k _ | .hgetall k | .hdel k _ | .hexists k _ | .hlen k | .hkeys k | .hvals k
  | .hmget k _ | .hincrby k _ _ | .spop k _ | .sadd k _ _ | .srem k _ | .smembers k | .sismember k _ | .scard k | .zadd k _ _
  | .zcard k | .zrange k _ _ _ | .zscore k _ | .zrem k _ | .zincrby k _ _ => k = key

/-- The command clears the root: it deletes the empty key, finds its entry expired, or drains its container. -/
def Command.Clears (st : OxidArt P (Value S)) : Command S → Prop
  | .tree (.del k) => k = []
  | .tree (.get k) | .hget k _ | .hgetall k | .hexists k _ | .hlen k | .hkeys k | .hvals k | .hmget k _ | .sismember k _ | .zcard k
  | .zrange k _ _ _ | .zscore k _ => k = [] ∧ st.RootExpired
  | .hdel k fields => k = [] ∧ (st.RootExpired ∨
      st.Drains Value.asHash fun c => (countLoop InnerHCommand.discard c fields).2.isEmpty)
  | .srem k members => k = [] ∧ (st.RootExpired ∨ st.Drains Value.asSet fun c => (countLoop SortedSet.remove c members).2.isEmpty)
  | .zrem k members => k = [] ∧ (st.RootExpired ∨
      st.Drains Value.asZset fun c => (countLoop InnerZCommand.remove c members).2.isEmpty)
  | .smembers k | .scard k => k = [] ∧ (st.RootExpired ∨ st.Drains Value.asSet SortedSet.isEmpty)
  | _ => False

/-- The clock after a command. -/
def Command.clock (st : OxidArt P (Value S)) : Command S → Nat
  | .tree (.setNow now) => now
  | _ => st.now

/-- A command on other keys that leaves the clock at `last` at most, and does not make the root absorb a child. -/
structure Command.Elsewhere (key : Bytes) (last : Nat) (st : OxidArt P (Value S)) (c : Command S) : Prop where
  sound : c.Sound st
  calm : c.Clears st → ¬ st.Absorbs
  other : ¬ c.Names key
  clock : c.clock st ≤ last

end Typed

namespace OxidArt

section Typed

variable {P : Policy} {S : Type} [Score S] {st st' : OxidArt P (Value S)} {order : HashOrder}

theorem exec_changesOnly (sound : IsSound st) {c : Command S} (ok : c.Sound st) (calm : c.Clears st → ¬ st.Absorbs)
    (timeless : ∀ now, c ≠ .tree (.setNow now)) {reply : Reply S} (ran : exec order st c = .ok (reply, st')) :
    ChangesOnly (fun k => c.Names k) st st' := by
  have sound' := sound
  obtain ⟨path, I⟩ := sound
  -- Each command either runs and only the others, or only them if it runs at all.
  have done : ∀ {α : Type} {wrap : α → Reply S} {run : Exec (α × OxidArt P (Value S))} {K : Bytes → Prop},
      wrapReply wrap run = .ok (reply, st') → (∀ a st₁, run = .ok (a, st₁) → ChangesOnly K st st₁) → ChangesOnly K st st' := by
    intro α wrap run K ran frame
    cases outcome : run with
    | error => rw [outcome] at ran; cases ran
    | ok p =>
      rw [outcome] at ran
      obtain ⟨-, rfl⟩ := Prod.mk.inj (Except.ok.inj ran)
      exact frame p.1 p.2 outcome
  have total : ∀ {α : Type} {run : Exec (α × OxidArt P (Value S))} {K : Bytes → Prop},
      (∃ a st₁, run = .ok (a, st₁) ∧ ChangesOnly K st st₁) → ∀ a st₁, run = .ok (a, st₁) → ChangesOnly K st st₁ := by
    rintro α run K ⟨a, st₁, outcome, frame⟩ a' st₁' outcome'
    obtain ⟨-, rfl⟩ := Prod.mk.inj (Except.ok.inj (outcome.symm.trans outcome'))
    exact frame
  have absent : ∀ t : Nat, (none : Option Nat) = some t → t < 2 ^ 56 := by simp
  cases c with
  | tree op =>
    refine done ran (total ?_)
    cases op with
    | set key v =>
      obtain ⟨st₁, path₁, run, step, entries⟩ := setInternal_ok I (fun _ => True) ok (show ExpAndRadix.noExp < 2 ^ 56 by decide) v
      exact ⟨.done, st₁, by simp only [execTree, OxidArt.set, run, bind, Except.bind]; rfl, changesOnly_of_update step.keeps entries⟩
    | setTtl key ttl v =>
      obtain ⟨st₁, path₁, run, step, entries⟩ := setInternal_ok I (fun _ => True) ok.1 ok.2 v
      exact ⟨.done, st₁, by simp only [execTree, OxidArt.setTtl, run, bind, Except.bind]; rfl, changesOnly_of_update step.keeps entries⟩
    | expire key ttl =>
      obtain ⟨b, st₁, run, step, entries⟩ := expire_ok key I (fun _ => True) ok
      refine ⟨.flag b, st₁, by simp only [execTree, run, bind, Except.bind]; rfl, step.keeps.isSound, step.stays.now, ?_⟩
      intro k other
      rw [entries]
      cases st.entry key with
      | none => exact .inl rfl
      | some held =>
        dsimp only
        split
        · exact .inl rfl
        · exact .inl (Function.update_of_ne (Ne.symm other) _ _)
    | persist key =>
      obtain ⟨b, st₁, run, step, entries⟩ := persist_ok I (fun _ => True) key
      refine ⟨.flag b, st₁, by simp only [execTree, run, bind, Except.bind]; rfl, step.keeps.isSound, step.stays.now, ?_⟩
      intro k other
      rw [entries]
      cases st.entry key with
      | none => exact .inl rfl
      | some held => exact .inl (Function.update_of_ne (Ne.symm other) _ _)
    | get key =>
      obtain ⟨v, st₁, run, keeps, collects⟩ := get_keeps I key
      have sheds := collects.sheds I fun empty past => calm ⟨empty, past⟩
      exact ⟨.value v, st₁, by simp only [execTree, run, bind, Except.bind]; rfl, sheds.changesOnly keeps⟩
    | getTtl key =>
      have kept : ∀ t, st.getTtl key = .ok t → ∃ reply st₁, st.execTree (.getTtl key) = .ok (reply, st₁) ∧
          ChangesOnly (fun k => Command.Names k (.tree (.getTtl key) : Command S)) st st₁ := by
        intro t run
        exact ⟨.ttl t, st, by simp only [execTree, run, bind, Except.bind]; rfl, .refl sound'⟩
      obtain ⟨root, rooted⟩ := I.root_node
      cases target : st.traverseToKey key with
      | none => exact kept .keyNotExist (by rw [getTtl, target])
      | some i =>
        obtain ⟨n, here⟩ := Rooted.occupied ⟨root, rooted⟩ target
        exact kept _ here.getTtl
    | getn pfx =>
      obtain ⟨root, found⟩ := I.root_node
      obtain ⟨l, run, -⟩ := getn_ok I pfx found
      exact ⟨.pairs l, st, by simp only [execTree, run, bind, Except.bind]; rfl, .refl sound'⟩
    | del key =>
      obtain ⟨v, st₁, run, frame⟩ := del_changesOnly sound' fun empty : key = [] => calm empty
      exact ⟨.value v, st₁, by simp only [execTree, run, bind, Except.bind]; rfl, frame⟩
    | deln pfx =>
      by_cases empty : pfx = []
      · subst empty
        obtain ⟨root, found⟩ := I.root_node
        obtain ⟨count, st₁, run, stays, I₁, -⟩ := flush_ok I found (ok rfl root found)
        refine ⟨.count count, st₁, by simp only [execTree, run, bind, Except.bind]; rfl, ⟨_, I₁⟩, stays.now, ?_⟩
        exact fun k outside => absurd List.nil_prefix outside
      · obtain ⟨count, st₁, path₁, run, step, entries, -⟩ := deln_ok I empty
        refine ⟨.count count, st₁, by simp only [execTree, run, bind, Except.bind]; rfl, step.keeps.isSound, step.stays.now, ?_⟩
        intro k outside
        rw [entries]
        exact .inl (if_neg outside)
    | setNow now => exact absurd rfl (timeless now)
    | evict draws =>
      obtain ⟨n, st₁, path₁, run, E⟩ := evictExpired_ok I ok
      exact ⟨.count n, st₁, by simp only [execTree, run, bind, Except.bind]; rfl, E.sheds.changesOnly E.step.keeps⟩
  | incrby key delta =>
    obtain ⟨st₁, path₁, run, step, entries⟩ := incrby_ok I (fun _ => True) ok delta
    refine done ran (total ⟨_, st₁, run, step.keeps.isSound, step.stays.now, fun k other => .inl ?_⟩)
    rw [entries]
    cases st.live key with
    | none => exact Function.update_of_ne (Ne.symm other) _ _
    | some held =>
      dsimp only
      cases held.1.incr delta with
      | ok n => exact Function.update_of_ne (Ne.symm other) _ _
      | error => rfl
  | hset key fieldValues ttl =>
    exact done ran fun a st₁ => (changeIn_ok I (getHashMut_gets I ok.1 ok.2) _).changesOnly I
  | hincrby key field increment =>
    exact done ran fun a st₁ => (changeIn_ok I (getHashMut_gets I ok absent) _).changesOnly I
  | spop key count =>
    refine done ran fun a st₁ run => ?_
    simp only [cmdSpop] at run
    split at run
    · obtain ⟨-, rfl⟩ := Prod.mk.inj (Except.ok.inj run)
      exact .refl sound'
    · exact (changeIn_ok I (getBtreeSetMut_gets I ok absent) _).changesOnly I run
  | sadd key members ttl =>
    exact done ran fun a st₁ => (changeIn_ok I (getBtreeSetMut_gets I ok.1 ok.2) _).changesOnly I
  | zadd key scoreMembers ttl =>
    exact done ran fun a st₁ => (changeIn_ok I (getZsetMut_gets I ok.1 ok.2) _).changesOnly I
  | zincrby key increment member =>
    exact done ran fun a st₁ => (changeIn_ok I (getZsetMut_gets I ok absent) _).changesOnly I
  | hdel | srem | zrem =>
    exact done ran (total (removeFrom_changesOnly sound' _ _ _ _ fun empty drains => calm ⟨empty, drains⟩))
  | smembers | scard => exact done ran (total (readSet_changesOnly sound' (fun empty drains => calm ⟨empty, drains⟩) _ _))
  | hget | hgetall | hexists | hlen | hkeys | hvals | hmget | sismember | zcard | zrange | zscore =>
    exact done ran (total (readAs_changesOnly sound' (fun empty past => calm ⟨empty, past⟩) _ _ _))

/-- What any command leaves alone; the clock moves when it is set. -/
theorem exec_frame (sound : IsSound st) {c : Command S} (ok : c.Sound st) (calm : c.Clears st → ¬ st.Absorbs) {reply : Reply S}
    (ran : exec order st c = .ok (reply, st')) :
    IsSound st' ∧ st'.now = c.clock st ∧
      ∀ k, ¬ c.Names k → st'.entry k = st.entry k ∨ st'.entry k = none ∧ st.live k = none := by
  by_cases clock : ∃ now, c = .tree (.setNow now)
  · obtain ⟨now, rfl⟩ := clock
    obtain ⟨path, I⟩ := sound
    obtain ⟨-, rfl⟩ := Prod.mk.inj (Except.ok.inj ran)
    exact ⟨⟨path, I.setNow now⟩, rfl, fun k _ => .inl (by rw [entry_setNow I])⟩
  · have timeless : ∀ now, c ≠ .tree (.setNow now) := fun now same => clock ⟨now, same⟩
    have frame := exec_changesOnly sound ok calm timeless ran
    refine ⟨frame.sound, frame.now.trans ?_, frame.entries⟩
    cases c with
    | tree op =>
      cases op with
      | setNow now => exact absurd rfl (timeless now)
      | _ => rfl
    | _ => rfl

/-- A command on other keys leaves an entry alone whose last second has not passed. -/
theorem exec_outlasts {v : Value S} {key : Bytes} {last : Nat} (sound : IsSound st) (held : st.entry key = some (v, some last))
    (current : st.now ≤ last) {c : Command S} (elsewhere : c.Elsewhere key last st) {reply : Reply S}
    (ran : exec order st c = .ok (reply, st')) : IsSound st' ∧ st'.entry key = some (v, some last) ∧ st'.now ≤ last := by
  obtain ⟨sound', now, others⟩ := exec_frame sound elsewhere.sound elsewhere.calm ran
  refine ⟨sound', ?_, now ▸ elsewhere.clock⟩
  have live : st.live key = some (v, some last) := by
    rw [OxidArt.live, held, liveAt, Option.filter_some_pos]
    simp only [expired, Option.any_some, Bool.not_eq_true', decide_eq_false_iff_not]
    omega
  rcases others key elsewhere.other with same | ⟨-, dead⟩
  · rw [same, held]
  · exact absurd (dead.symm.trans live) (by simp)

theorem run_outlasts {v : Value S} {key : Bytes} {last : Nat} (sound : IsSound st) (held : st.entry key = some (v, some last))
    (current : st.now ≤ last) (later : Reaches (exec order) (fun s c => c.Elsewhere key last s) st st') :
    IsSound st' ∧ st'.entry key = some (v, some last) ∧ st'.now ≤ last := by
  induction later with
  | refl => exact ⟨sound, held, current⟩
  | step _ elsewhere ran ih => exact exec_outlasts ih.1 ih.2.1 ih.2.2 elsewhere ran

end Typed

end OxidArt

end Radixox.Oxidart
