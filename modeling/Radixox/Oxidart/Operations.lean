import Radixox.Lib.Runs
import Radixox.Oxidart.Evictions
import Radixox.Oxidart.Scans
import Radixox.Oxidart.Subtrees
import Radixox.Oxidart.Upserts

/-!
# Runs of the store

The public operations as inputs of one machine: `TreeOp` for those that do not look
into values, `Command` for all of them over typed values. A state is `Reachable`
when a run from `new` leads to it, in which no step is one of the two that can
break the tree: an eviction through an inexact parent link, and a flush of a root
that has an overflow slot.
-/

namespace Radixox.Oxidart
set_option autoImplicit false
open Radixox.Runs

/-- The operations of `lib.rs`. The draws of an eviction are the choices of `random_tagged`. -/
inductive TreeOp (V : Type) where
  | set (key : Bytes) (v : V)
  | setTtl (key : Bytes) (ttl : Nat) (v : V)
  | expire (key : Bytes) (ttl : Nat)
  | persist (key : Bytes)
  | get (key : Bytes)
  | getTtl (key : Bytes)
  | getn (pfx : Bytes)
  | del (key : Bytes)
  | deln (pfx : Bytes)
  | setNow (now : Nat)
  | evict (draws : Nat → Nat → Nat)

inductive TreeReply (V : Type) where
  | done
  | flag (b : Bool)
  | value (v : Option V)
  | pairs (l : List (Bytes × V))
  | count (n : Nat)
  | ttl (t : OxidArt.TtlResult)
deriving DecidableEq

/-- All operations, over typed values. -/
inductive Command (S : Type) [Score S] where
  | tree (op : TreeOp (Value S))
  | incrby (key : Bytes) (delta : Int64)
  | hset (key : Bytes) (fieldValues : List (Bytes × Bytes)) (ttl : Option Nat)
  | hget (key field : Bytes)
  | hgetall (key : Bytes)
  | hdel (key : Bytes) (fields : List Bytes)
  | hexists (key field : Bytes)
  | hlen (key : Bytes)
  | hkeys (key : Bytes)
  | hvals (key : Bytes)
  | hmget (key : Bytes) (fields : List Bytes)
  | hincrby (key field : Bytes) (increment : Int64)
  | spop (key : Bytes) (count : Option Bytes)
  | sadd (key : Bytes) (members : List Bytes) (ttl : Option Nat)
  | srem (key : Bytes) (members : List Bytes)
  | smembers (key : Bytes)
  | sismember (key member : Bytes)
  | scard (key : Bytes)
  | zadd (key : Bytes) (scoreMembers : List (S × Bytes)) (ttl : Option Nat)
  | zcard (key : Bytes)
  | zrange (key : Bytes) (start stop : Int64) (withScores : Bool)
  | zscore (key member : Bytes)
  | zrem (key : Bytes) (members : List Bytes)
  | zincrby (key : Bytes) (increment : S) (member : Bytes)

inductive Reply (S : Type) [Score S] where
  | tree (r : TreeReply (Value S))
  | counter (r : Except IntError Int64)
  | added (r : Except TypeError UInt32)
  | integer (r : Except TypeError Int64)
  | newScore (r : Except TypeError S)
  | popped (r : Except TypeError OxidArt.SPOPResult)
  | count (r : Except RedisType UInt32)
  | bytes (r : Except RedisType (Option Bytes))
  | list (r : Except RedisType (List Bytes))
  | flag (r : Except RedisType Bool)
  | options (r : Except RedisType (List (Option Bytes)))
  | score (r : Except RedisType (Option S))

namespace OxidArt

variable {P : Policy} {V : Type}

def execTree (st : OxidArt P V) : TreeOp V → Exec (TreeReply V × OxidArt P V)
  | .set key v => do return (.done, ← st.set key v)
  | .setTtl key ttl v => do return (.done, ← st.setTtl key ttl v)
  | .expire key ttl => do
    let (b, st) ← st.expire key ttl
    return (.flag b, st)
  | .persist key => do
    let (b, st) ← st.persist key
    return (.flag b, st)
  | .get key => do
    let (v, st) ← st.get key
    return (.value v, st)
  | .getTtl key => do return (.ttl (← st.getTtl key), st)
  | .getn pfx => do return (.pairs (← st.getn pfx), st)
  | .del key => do
    let (v, st) ← st.del key
    return (.value v, st)
  | .deln pfx => do
    let (n, st) ← st.deln pfx
    return (.count n, st)
  | .setNow now => .ok (.done, st.setNow now)
  | .evict draws => do
    let (n, st) ← st.evictExpired draws
    return (.count n, st)

variable {S : Type} [Score S]

/-- A reply with the state, wrapped. -/
def wrapReply {α : Type} (wrap : α → Reply S) (run : Exec (α × OxidArt P (Value S))) :
    Exec (Reply S × OxidArt P (Value S)) :=
  run.map fun p => (wrap p.1, p.2)

def exec (order : HashOrder) (st : OxidArt P (Value S)) : Command S → Exec (Reply S × OxidArt P (Value S))
  | .tree op => wrapReply .tree (st.execTree op)
  | .incrby key delta => wrapReply .counter (st.incrby key delta)
  | .hset key fieldValues ttl => wrapReply .added (st.cmdHset key fieldValues ttl)
  | .hget key field => wrapReply .bytes (st.cmdHget key field)
  | .hgetall key => wrapReply .list (cmdHgetall order st key)
  | .hdel key fields => wrapReply .count (st.cmdHdel key fields)
  | .hexists key field => wrapReply .flag (st.cmdHexists key field)
  | .hlen key => wrapReply .count (st.cmdHlen key)
  | .hkeys key => wrapReply .list (cmdHkeys order st key)
  | .hvals key => wrapReply .list (cmdHvals order st key)
  | .hmget key fields => wrapReply .options (st.cmdHmget key fields)
  | .hincrby key field increment => wrapReply .integer (st.cmdHincrby key field increment)
  | .spop key count => wrapReply .popped (st.cmdSpop key count)
  | .sadd key members ttl => wrapReply .added (st.cmdSadd key members ttl)
  | .srem key members => wrapReply .count (st.cmdSrem key members)
  | .smembers key => wrapReply .list (st.cmdSmembers key)
  | .sismember key member => wrapReply .flag (st.cmdSismember key member)
  | .scard key => wrapReply .count (st.cmdScard key)
  | .zadd key scoreMembers ttl => wrapReply .added (st.cmdZadd key scoreMembers ttl)
  | .zcard key => wrapReply .count (st.cmdZcard key)
  | .zrange key start stop withScores => wrapReply .list (st.cmdZrange key start stop withScores)
  | .zscore key member => wrapReply .score (st.cmdZscore key member)
  | .zrem key members => wrapReply .count (st.cmdZrem key members)
  | .zincrby key increment member => wrapReply .newScore (st.cmdZincrby key increment member)

/-! ## Steps that keep the tree sound -/

/-- The root links nothing through an overflow slot. -/
def RootInline (st : OxidArt P V) : Prop := ∀ root, st.tryGetNode st.rootIdx = some root → root.overflowIdx = none

/-- The invariant, with nothing detached. -/
def IsSound (st : OxidArt P V) : Prop := ∃ path, Inv st [] path

end OxidArt

open OxidArt

section Sound

variable {P : Policy} {V : Type} {S : Type} [Score S]

/-- Keys of ASCII bytes other than 0, expiries that fit the field, evictions through exact links, and no flush
of a root with an overflow slot. -/
def TreeOp.Sound (st : OxidArt P V) : TreeOp V → Prop
  | .set key _ => KeyOk key
  | .setTtl key ttl _ => KeyOk key ∧ saturatingAdd st.now ttl < 2 ^ 56
  | .expire _ ttl => saturatingAdd st.now ttl < 2 ^ 56 - 1
  | .deln pfx => pfx = [] → RootInline st
  | .evict draws => ExactEviction st draws
  | _ => True

instance (st : OxidArt P V) : Decidable (RootInline st) :=
  match h : st.tryGetNode st.rootIdx with
  | none => isTrue fun _ found => absurd (h.symm.trans found) nofun
  | some root => decidable_of_iff (root.overflowIdx = none)
      ⟨fun inline _ found => Option.some.inj (h.symm.trans found) ▸ inline, fun inline => inline root h⟩

instance (st : OxidArt P V) : (op : TreeOp V) → Decidable (op.Sound st)
  | .set key _ => inferInstanceAs (Decidable (KeyOk key))
  | .setTtl key .. => inferInstanceAs (Decidable (KeyOk key ∧ _))
  | .expire .. => inferInstanceAs (Decidable (_ < _))
  | .deln pfx => inferInstanceAs (Decidable (pfx = [] → RootInline st))
  | .evict draws => inferInstanceAs (Decidable (ExactEviction st draws))
  | .persist _ | .get _ | .getTtl _ | .getn _ | .del _ | .setNow _ => inferInstanceAs (Decidable True)

/-- The writing commands create nodes; their `ttl` argument is an absolute second. -/
def Command.Sound (st : OxidArt P (Value S)) : Command S → Prop
  | .tree op => op.Sound st
  | .incrby key _ | .hincrby key _ _ | .spop key _ | .zincrby key _ _ => KeyOk key
  | .hset key _ ttl | .sadd key _ ttl | .zadd key _ ttl => KeyOk key ∧ ∀ t, ttl = some t → t < 2 ^ 56
  | _ => True

instance decidableBelow (ttl : Option Nat) (bound : Nat) : Decidable (∀ t, ttl = some t → t < bound) :=
  match ttl with
  | none => isTrue nofun
  | some t => decidable_of_iff (t < bound) ⟨fun less _ same => Option.some.inj same ▸ less, fun all => all t rfl⟩

instance (st : OxidArt P (Value S)) : (c : Command S) → Decidable (c.Sound st)
  | .tree op => inferInstanceAs (Decidable (op.Sound st))
  | .incrby key _ | .hincrby key .. | .spop key _ | .zincrby key .. => inferInstanceAs (Decidable (KeyOk key))
  | .hset key .. | .sadd key .. | .zadd key .. => inferInstanceAs (Decidable (KeyOk key ∧ _))
  | .hget .. | .hgetall .. | .hdel .. | .hexists .. | .hlen .. | .hkeys .. | .hvals .. | .hmget .. | .srem .. | .smembers ..
  | .sismember .. | .scard .. | .zcard .. | .zrange .. | .zscore .. | .zrem .. => inferInstanceAs (Decidable True)

end Sound

namespace OxidArt

section Sound

variable {P : Policy} {V : Type} {st st' : OxidArt P V}

theorem Keeps.isSound {st st' : OxidArt P V} (keeps : Keeps st [] st') : IsSound st' := keeps.2

/-- A new store is sound. -/
theorem inv_new : Inv (new : OxidArt P V) [] (fun i => if i = (new : OxidArt P V).rootIdx then some [] else none) := by
  have nodes : ∀ j, (new : OxidArt P V).tryGetNode j = if j = (new : OxidArt P V).rootIdx then some .default else none :=
    fun j => TaggedHiSlab.get_insertSlot _ _ j
  have tiers : ∀ {j t}, (new : OxidArt P V).tier j = some t → t = (.default, none) := by
    intro j t found
    simp only [tier, nodes] at found
    split at found
    · exact (Option.some.inj found).symm
    · cases found
  have label : ∀ j, (new : OxidArt P V).graph.label j = if j = (new : OxidArt P V).rootIdx then some [] else none := by
    intro j
    simp only [graph, nodes]
    split <;> rfl
  have kid : ∀ i r, (new : OxidArt P V).graph.kid i r = none := by
    intro i r
    by_cases top : i = (new : OxidArt P V).rootIdx
    · exact find_of_default (by simp only [tier, nodes, if_pos top]; rfl) r
    · exact find_of_free (by rw [nodes, if_neg top]) r
  have kids : KidsInv (new : OxidArt P V) :=
    TierInv.rename TierInv.empty id (fun _ _ found => .inl (tiers found)) (fun _ _ _ _ _ _ _ _ same => same)
  refine ⟨kids, ?_, ?_, ?_⟩
  · refine ⟨⟨[], by rw [label, if_pos rfl]⟩, if_pos rfl, ?_, ?_, ?_, ?_, ?_, ?_, ?_, by simp, by simp, by simp, List.nodup_nil,
      ⟨fun _ => 0, ?_⟩⟩
    · intro i p live
      split at live
      next top => exact ⟨[], by rw [label, if_pos top]⟩
      next => cases live
    · intro i r j edge
      exact absurd ((kid i r).symm.trans edge) (by simp)
    · intro i r j edge
      exact absurd ((kid i r).symm.trans edge) (by simp)
    · intro i r j l edge
      exact absurd ((kid i r).symm.trans edge) (by simp)
    · intro i i' r r' j edge
      exact absurd ((kid i r).symm.trans edge) (by simp)
    · intro i r
      rw [kid]
      simp
    · intro j l read inner
      rw [label, if_neg inner] at read
      cases read
    · intro i r j edge
      exact absurd ((kid i r).symm.trans edge) (by simp)
  · intro i n found b member
    rw [nodes] at found
    split at found
    · obtain rfl := Option.some.inj found
      cases member
    · cases found
  · intro n found
    rw [nodes, if_pos rfl] at found
    obtain rfl := Option.some.inj found
    rfl

section Clock

variable {cut : List Nat} {path : Nat → Option Bytes}

theorem Inv.setNow (I : Inv st cut path) (now : Nat) : Inv (st.setNow now) cut path :=
  ⟨I.kids, I.forest, I.labels, I.rootTop⟩

theorem entry_setNow (I : Inv st cut path) (now : Nat) : (st.setNow now).entry = st.entry :=
  entry_of_detached I (I.setNow now) rfl fun _ _ _ => rfl

end Clock

theorem isSound_execTree (sound : IsSound st) {op : TreeOp V} (ok : op.Sound st) {reply : TreeReply V}
    (ran : st.execTree op = .ok (reply, st')) : IsSound st' := by
  obtain ⟨path, I⟩ := sound
  have done : ∀ {run : Exec (TreeReply V × OxidArt P V)} {reply₁ : TreeReply V} {st₁ : OxidArt P V}, run = .ok (reply, st') →
      run = .ok (reply₁, st₁) → IsSound st₁ → IsSound st' := by
    intro run reply₁ st₁ first second sound₁
    obtain ⟨-, rfl⟩ := Prod.mk.inj (Except.ok.inj (second.symm.trans first))
    exact sound₁
  cases op with
  | set key v =>
    obtain ⟨st₁, path₁, run, step, -⟩ := setInternal_ok I (fun _ => True) ok (show ExpAndRadix.noExp < 2 ^ 56 by decide) v
    exact done ran (by simp only [execTree, set, run, bind, Except.bind]; rfl) step.keeps.isSound
  | setTtl key ttl v =>
    obtain ⟨st₁, path₁, run, step, -⟩ := setInternal_ok I (fun _ => True) ok.1 ok.2 v
    exact done ran (by simp only [execTree, setTtl, run, bind, Except.bind]; rfl) step.keeps.isSound
  | expire key ttl =>
    obtain ⟨b, st₁, run, step, -⟩ := expire_ok key I (fun _ => True) ok
    exact done ran (by simp only [execTree, run, bind, Except.bind]; rfl) step.keeps.isSound
  | persist key =>
    obtain ⟨b, st₁, run, step, -⟩ := persist_ok I (fun _ => True) key
    exact done ran (by simp only [execTree, run, bind, Except.bind]; rfl) step.keeps.isSound
  | get key =>
    obtain ⟨v, st₁, run, keeps, -⟩ := get_keeps I key
    exact done ran (by simp only [execTree, run, bind, Except.bind]; rfl) keeps.isSound
  | getTtl key =>
    cases run : st.getTtl key with
    | error => simp only [execTree, run, bind, Except.bind] at ran; cases ran
    | ok t => exact done ran (by simp only [execTree, run, bind, Except.bind]; rfl) ⟨path, I⟩
  | getn pfx =>
    obtain ⟨root, found⟩ := I.root_node
    obtain ⟨l, run, -⟩ := getn_ok I pfx found
    exact done ran (by simp only [execTree, run, bind, Except.bind]; rfl) ⟨path, I⟩
  | del key =>
    obtain ⟨v, st₁, run, keeps⟩ := del_keeps I key
    exact done ran (by simp only [execTree, run, bind, Except.bind]; rfl) keeps.isSound
  | deln pfx =>
    by_cases empty : pfx = []
    · obtain ⟨root, found⟩ := I.root_node
      obtain ⟨count, st₁, run, -, I', -⟩ := flush_ok I found (ok empty root found)
      subst empty
      exact done ran (by simp only [execTree, run, bind, Except.bind]; rfl) ⟨_, I'⟩
    · obtain ⟨count, st₁, path₁, run, step, -⟩ := deln_ok I empty
      exact done ran (by simp only [execTree, run, bind, Except.bind]; rfl) step.keeps.isSound
  | setNow now => exact done ran rfl (⟨path, I.setNow now⟩)
  | evict draws =>
    obtain ⟨n, st₁, path₁, run, E⟩ := evictExpired_ok I ok
    exact done ran (by simp only [execTree, run, bind, Except.bind]; rfl) E.step.keeps.isSound

variable {S : Type} [Score S]

theorem isSound_exec {st st' : OxidArt P (Value S)} {order : HashOrder} (sound : IsSound st) {c : Command S} (ok : c.Sound st)
    {reply : Reply S} (ran : exec order st c = .ok (reply, st')) : IsSound st' := by
  have sound' := sound
  obtain ⟨path, I⟩ := sound
  -- Each command either runs and keeps the invariant, or keeps it if it runs at all.
  have done : ∀ {α : Type} {wrap : α → Reply S} {run : Exec (α × OxidArt P (Value S))}, wrapReply wrap run = .ok (reply, st') →
      (∀ a st₁, run = .ok (a, st₁) → Keeps st [] st₁) → IsSound st' := by
    intro α wrap run ran keeps
    cases outcome : run with
    | error => rw [outcome] at ran; cases ran
    | ok p =>
      rw [outcome] at ran
      obtain ⟨-, rfl⟩ := Prod.mk.inj (Except.ok.inj ran)
      exact (keeps p.1 p.2 outcome).isSound
  have total : ∀ {α : Type} {run : Exec (α × OxidArt P (Value S))}, (∃ a st₁, run = .ok (a, st₁) ∧ Keeps st [] st₁) →
      ∀ a st₁, run = .ok (a, st₁) → Keeps st [] st₁ := by
    rintro α run ⟨a, st₁, outcome, keeps⟩ a' st₁' outcome'
    obtain ⟨-, rfl⟩ := Prod.mk.inj (Except.ok.inj (outcome.symm.trans outcome'))
    exact keeps
  have absent : ∀ t : Nat, (none : Option Nat) = some t → t < 2 ^ 56 := by simp
  cases c with
  | tree op =>
    cases run : st.execTree op with
    | error => simp only [exec, wrapReply, run] at ran; cases ran
    | ok p =>
      simp only [exec, wrapReply, run] at ran
      obtain ⟨-, rfl⟩ := Prod.mk.inj (Except.ok.inj ran)
      exact isSound_execTree sound' ok run
  | incrby key delta =>
    obtain ⟨st₁, path₁, run, step, -⟩ := incrby_ok I (fun _ => True) ok delta
    exact done ran (total ⟨_, st₁, run, step.keeps⟩)
  | hset key fieldValues ttl =>
    exact done ran fun a st₁ => (changeIn_ok I (getHashMut_gets I ok.1 ok.2) _).keeps I
  | hincrby key field increment =>
    exact done ran fun a st₁ => (changeIn_ok I (getHashMut_gets I ok absent) _).keeps I
  | spop key count =>
    refine done ran fun a st₁ run => ?_
    simp only [cmdSpop] at run
    split at run
    · obtain ⟨-, rfl⟩ := Prod.mk.inj (Except.ok.inj run)
      exact ⟨.refl st, path, I⟩
    · exact (changeIn_ok I (getBtreeSetMut_gets I ok absent) _).keeps I run
  | sadd key members ttl =>
    exact done ran fun a st₁ => (changeIn_ok I (getBtreeSetMut_gets I ok.1 ok.2) _).keeps I
  | zadd key scoreMembers ttl =>
    exact done ran fun a st₁ => (changeIn_ok I (getZsetMut_gets I ok.1 ok.2) _).keeps I
  | zincrby key increment member =>
    exact done ran fun a st₁ => (changeIn_ok I (getZsetMut_gets I ok absent) _).keeps I
  | hdel | srem | zrem => exact done ran (total (removeFrom_keeps I _ _ _ _ _ _))
  | smembers | scard => exact done ran (total (readSet_keeps I _ _ _))
  | hget | hgetall | hexists | hlen | hkeys | hvals | hmget | sismember | zcard | zrange | zscore =>
    exact done ran (total ((readAs_keeps I _ _ _ _).imp fun _ => Exists.imp fun _ => And.imp_right And.left))

/-- A state that a run of sound steps from a new store leads to. -/
def Reachable (order : HashOrder) : OxidArt P (Value S) → Prop := Reaches (exec order) (fun st c => c.Sound st) new

theorem Reachable.isSound {order : HashOrder} {st : OxidArt P (Value S)} (reached : Reachable order st) : IsSound st :=
  reached.invariant ⟨_, inv_new⟩ fun _ _ _ _ sound ok ran => isSound_exec sound ok ran

end Sound

end OxidArt

end Radixox.Oxidart
