import Radixox.Oxidart.Operations

/-!
# The reference map

`Ref` is what the store is for: a map from keys to values with an optional expiry, and
a clock. `Refines` relates a store to it: a reader sees the same live entries. Every
operation on non-empty keys preserves the relation, and so does an eviction
through exact parent links, which the reference does not notice at all.
-/

namespace Radixox.Oxidart
set_option autoImplicit false
open Radixox.Runs OxidArt

structure Ref (V : Type) where
  table : Bytes → Option (V × Option Nat)
  now : Nat

namespace Ref

variable {V : Type}

def new : Ref V := ⟨fun _ => none, 0⟩

/-- What a reader sees: an entry counts until the clock has passed its expiry. -/
def live (ref : Ref V) (key : Bytes) : Option (V × Option Nat) := liveAt ref.now (ref.table key)

def get (ref : Ref V) (key : Bytes) : Option V := (ref.live key).map Prod.fst

def put (ref : Ref V) (key : Bytes) (e : Option (V × Option Nat)) : Ref V :=
  { ref with table := Function.update ref.table key e }

/-- The effect of an operation. -/
def next (ref : Ref V) : TreeOp V → Ref V
  | .set key v => ref.put key (some (v, none))
  | .setTtl key ttl v => ref.put key (some (v, some (ref.now + ttl)))
  | .expire key ttl => match ref.live key with
    | some (v, _) => ref.put key (some (v, some (ref.now + ttl)))
    | none => ref
  | .persist key => match ref.live key with
    | some (v, _) => ref.put key (some (v, none))
    | none => ref
  | .del key => ref.put key none
  | .deln pfx => { ref with table := fun k => if pfx <+: k then none else ref.table k }
  | .setNow now => { ref with now := now }
  | .get _ | .getTtl _ | .getn _ | .evict _ => ref

/-- The list holds the live keys with the prefix, once each, with their values. -/
def Lists (ref : Ref V) (pfx : Bytes) (l : List (Bytes × V)) : Prop :=
  (l.map Prod.fst).Nodup ∧ ∀ k v, (k, v) ∈ l ↔ pfx <+: k ∧ ref.get k = some v

/-- The replies of the reading operations. -/
def Allows (ref : Ref V) : TreeOp V → TreeReply V → Prop
  | .get key, reply => reply = .value (ref.get key)
  | .getn pfx, reply => ∃ l, reply = .pairs l ∧ ref.Lists pfx l
  | _, _ => True

variable {S : Type} [Score S]

/-- `incrby` adds to a live entry and keeps its expiry; where nothing is live it writes the delta. -/
def nextCommand (ref : Ref (Value S)) : Command S → Ref (Value S)
  | .tree op => ref.next op
  | .incrby key delta => match ref.live key with
    | none => ref.put key (some (.int delta, none))
    | some (v, e) => match v.incr delta with
      | .ok n => ref.put key (some (.int n, e))
      | .error _ => ref
  | _ => ref

def AllowsCommand (ref : Ref (Value S)) : Command S → Reply S → Prop
  | .tree op, reply => ∃ r, reply = .tree r ∧ ref.Allows op r
  | _, _ => True

end Ref

/-! ## The runs in question -/

section Plain

variable {V : Type} {S : Type} [Score S]

/-- A non-empty key of ASCII bytes other than 0. -/
def PlainKey (key : Bytes) : Prop := key ≠ [] ∧ KeyOk key

instance (key : Bytes) : Decidable (PlainKey key) := inferInstanceAs (Decidable (_ ∧ _))

/-- The operations over plain keys, with a clock that does not go back and expiries that fit the field. -/
def TreeOp.Plain (now : Nat) : TreeOp V → Prop
  | .set key _ | .get key | .del key => PlainKey key
  | .setTtl key ttl _ | .expire key ttl => PlainKey key ∧ now + ttl < 2 ^ 56 - 1
  | .getn pfx => KeyOk pfx
  | .deln pfx => PlainKey pfx
  | .setNow later => now ≤ later
  | .persist _ | .getTtl _ | .evict _ => False

instance (now : Nat) : (op : TreeOp V) → Decidable (op.Plain now)
  | .set .. | .get _ | .del _ | .deln _ => inferInstanceAs (Decidable (PlainKey _))
  | .setTtl .. | .expire .. => inferInstanceAs (Decidable (PlainKey _ ∧ _))
  | .getn _ => inferInstanceAs (Decidable (KeyOk _))
  | .setNow _ => inferInstanceAs (Decidable (_ ≤ _))
  | .persist _ | .getTtl _ | .evict _ => inferInstanceAs (Decidable False)

def Command.Plain (now : Nat) : Command S → Prop
  | .tree op => op.Plain now
  | .incrby key _ => PlainKey key
  | _ => False

instance (now : Nat) : (c : Command S) → Decidable (c.Plain now)
  | .tree op => inferInstanceAs (Decidable (op.Plain now))
  | .incrby key _ => inferInstanceAs (Decidable (PlainKey key))
  | .hset .. | .hget .. | .hgetall .. | .hdel .. | .hexists .. | .hlen .. | .hkeys .. | .hvals .. | .hmget ..
  | .hincrby .. | .spop .. | .sadd .. | .srem .. | .smembers .. | .sismember .. | .scard .. | .zadd .. | .zcard ..
  | .zrange .. | .zscore .. | .zrem .. | .zincrby .. => inferInstanceAs (Decidable False)

end Plain

/-! ## Refinement -/

namespace OxidArt

variable {P : Policy} {V : Type} {st st' : OxidArt P V} {ref : Ref V}

/-- Reader and reference agree; the empty key is not in use. -/
structure Refines (st : OxidArt P V) (ref : Ref V) : Prop where
  sound : IsSound st
  now : st.now = ref.now
  live : st.live = ref.live
  top : st.graph.label st.rootIdx = some []

theorem liveAt_liveAt {now later : Nat} (forward : now ≤ later) (e : Option (V × Option Nat)) :
    liveAt later (liveAt now e) = liveAt later e := by
  have fades : ∀ exp : Option Nat, expired now exp = true → expired later exp = true := by
    intro exp
    cases exp with
    | none => nofun
    | some t => simp only [expired, Option.any_some, decide_eq_true_eq]; omega
  cases e with
  | none => rfl
  | some c =>
    simp only [liveAt, Option.filter_some]
    cases past : expired now c.2 with
    | false => simp [Option.filter_some]
    | true => simp [fades c.2 past]

theorem live_of_update {key : Bytes} {e : Option (V × Option Nat)} (now : st'.now = st.now)
    (entries : st'.entry = Function.update st.entry key e) : st'.live = Function.update st.live key (liveAt st.now e) := by
  funext k
  rw [live, entries, now, Function.apply_update (fun _ => liveAt st.now)]
  rfl

end OxidArt

namespace Ref

variable {V : Type} (ref : Ref V)

theorem live_put (key : Bytes) (e : Option (V × Option Nat)) :
    (ref.put key e).live = Function.update ref.live key (liveAt ref.now e) := by
  funext k
  rw [live, put, Function.apply_update (fun _ => liveAt ref.now)]
  rfl

end Ref

namespace OxidArt

variable {P : Policy} {V : Type} {st st' : OxidArt P V} {ref : Ref V}

/-- A write of one key, on both sides. -/
theorem Refines.put (R : Refines st ref) {path path' : Nat → Option Bytes} {K : Bytes → Prop} {key : Bytes}
    {e : Option (V × Option Nat)} (step : Step K st [] path st' path')
    (entries : st'.entry = Function.update st.entry key e) : Refines st' (ref.put key e) := by
  refine ⟨step.keeps.isSound, step.stays.now.trans R.now, ?_, ?_⟩
  · rw [live_of_update step.stays.now entries, Ref.live_put, R.live, R.now]
  · rw [step.stays.rootIdx, step.top]
    exact R.top

/-- A step that readers do not notice. -/
theorem Refines.same (R : Refines st ref) {path path' : Nat → Option Bytes} {K : Bytes → Prop}
    (step : Step K st [] path st' path') (unseen : st'.live = st.live) : Refines st' ref := by
  refine ⟨step.keeps.isSound, step.stays.now.trans R.now, unseen.trans R.live, ?_⟩
  rw [step.stays.rootIdx, step.top]
  exact R.top

theorem Refines.root_compression (R : Refines st ref) {root : Node V} (found : st.tryGetNode st.rootIdx = some root) :
    root.compression = [] :=
  Option.some.inj ((graph_label found).symm.trans R.top)

theorem Refines.getn (R : Refines st ref) (pfx : Bytes) : ∃ l, st.getn pfx = .ok l ∧ ref.Lists pfx l := by
  obtain ⟨path, I⟩ := R.sound
  obtain ⟨root, found⟩ := I.root_node
  obtain ⟨l, run, lists⟩ := getn_ok I pfx found
  have shown : (if pfx = [] then root.compression else []) = [] := by
    split
    · exact R.root_compression found
    · rfl
  rw [shown] at lists
  refine ⟨l, run, lists.nodup, fun k v => ?_⟩
  rw [lists.mem]
  simp only [List.nil_append, exists_eq_left', Ref.get, ← R.live]

theorem saturatingAdd_eq {a b : Nat} (small : a + b < 2 ^ 56 - 1) : saturatingAdd a b = a + b := by
  unfold saturatingAdd
  omega

theorem expOf_eq {a : Nat} (small : a < 2 ^ 56 - 1) : expOf a = some a := by
  have differ : a ≠ ExpAndRadix.noExp := by
    rw [ExpAndRadix.noExp_eq]
    omega
  rw [expOf, if_neg differ]

theorem refines_new : Refines (new : OxidArt P V) Ref.new := by
  refine ⟨⟨_, inv_new⟩, rfl, ?_, ?_⟩
  · funext k
    have absent : (new : OxidArt P V).entry k = none := by
      cases held : (new : OxidArt P V).entry k with
      | none => rfl
      | some c =>
        obtain ⟨i, at', content⟩ := inv_new.entry_iff.1 held
        split at at'
        next top =>
          have node : (new : OxidArt P V).tryGetNode i = some .default :=
            (TaggedHiSlab.get_insertSlot _ _ i).trans (if_pos top)
          rw [content_eq node] at content
          cases content
        next => cases at'
    rw [live, absent]
    rfl
  · have node : (new : OxidArt P V).tryGetNode (new : OxidArt P V).rootIdx = some .default :=
      (TaggedHiSlab.get_insertSlot _ _ _).trans (if_pos rfl)
    exact graph_label node

/-- One operation, on both sides. -/
theorem execTree_refines (R : Refines st ref) {op : TreeOp V}
    (allowed : op.Plain st.now ∨ ∃ draws, op = .evict draws ∧ ExactEviction st draws) :
    ∃ reply st', st.execTree op = .ok (reply, st') ∧ ref.Allows op reply ∧ Refines st' (ref.next op) := by
  obtain ⟨path, I⟩ := R.sound
  rcases allowed with plain | ⟨draws, rfl, exact'⟩
  · cases op with
    | set key v =>
      obtain ⟨st', path', run, step, entries⟩ := setInternal_ok I (fun _ => True) plain.2
        (show ExpAndRadix.noExp < 2 ^ 56 by decide) v
      refine ⟨.done, st', ?_, trivial, R.put step entries⟩
      simp only [execTree, OxidArt.set, run, bind, Except.bind]
      rfl
    | setTtl key ttl v =>
      obtain ⟨⟨-, bytes⟩, small⟩ := plain
      have sum := saturatingAdd_eq small
      obtain ⟨st', path', run, step, entries⟩ := setInternal_ok I (fun _ => True) bytes
        (show saturatingAdd st.now ttl < 2 ^ 56 by omega) v
      rw [sum, expOf_eq small, R.now] at entries
      refine ⟨.done, st', ?_, trivial, R.put step entries⟩
      simp only [execTree, OxidArt.setTtl, run, bind, Except.bind]
      rfl
    | expire key ttl =>
      obtain ⟨-, small⟩ := plain
      have sum := saturatingAdd_eq small
      obtain ⟨b, st', run, step, entries⟩ := expire_ok key I (fun _ => True) (by rw [sum]; exact small)
      refine ⟨.flag b, st', by simp only [execTree, run, bind, Except.bind]; rfl, trivial, ?_⟩
      rw [sum] at entries
      have seen : st.live key = ref.live key := congrFun R.live key
      rw [live] at seen
      simp only [Ref.next, ← seen]
      cases held : st.entry key with
      | none =>
        rw [held] at entries
        refine R.same step ?_
        funext k
        rw [live, entries, step.stays.now]
        rfl
      | some c =>
        obtain ⟨v, e⟩ := c
        rw [held] at entries
        cases past : expired st.now e with
        | true =>
          simp only [past, if_true] at entries
          simp only [liveAt, Option.filter_some, past, Bool.not_true, Bool.false_eq_true, if_false]
          refine R.same step ?_
          funext k
          rw [live, entries, step.stays.now]
          rfl
        | false =>
          simp only [past, Bool.false_eq_true, if_false] at entries
          simp only [liveAt, Option.filter_some, past, Bool.not_false, if_true]
          rw [R.now] at entries
          exact R.put step entries
    | get key =>
      obtain ⟨st', path', run, step, sheds, -⟩ := get_ok I plain.1
      refine ⟨_, st', by simp only [execTree, run, bind, Except.bind]; rfl, ?_, R.same step (sheds.live step.stays.now)⟩
      simp only [Ref.Allows, Ref.get, R.live]
    | getn pfx =>
      obtain ⟨l, run, lists⟩ := R.getn pfx
      exact ⟨.pairs l, st, by simp only [execTree, run, bind, Except.bind]; rfl, ⟨l, rfl, lists⟩, R⟩
    | del key =>
      obtain ⟨st', path', run, step, entries, -⟩ := del_ok I plain.1
      exact ⟨_, st', by simp only [execTree, run, bind, Except.bind]; rfl, trivial, R.put step entries⟩
    | deln pfx =>
      obtain ⟨count, st', path', run, step, entries, -⟩ := deln_ok I plain.1
      refine ⟨.count count, st', by simp only [execTree, run, bind, Except.bind]; rfl, trivial, ?_⟩
      refine ⟨step.keeps.isSound, step.stays.now.trans R.now, ?_, ?_⟩
      · funext k
        have seen : st.live k = ref.live k := congrFun R.live k
        simp only [live, Ref.live, Ref.next, entries, step.stays.now] at seen ⊢
        split
        · rfl
        · exact seen
      · rw [step.stays.rootIdx, step.top]
        exact R.top
    | setNow later =>
      refine ⟨.done, st.setNow later, rfl, trivial, ⟨path, I.setNow later⟩, rfl, ?_, R.top⟩
      funext k
      have seen : liveAt st.now (st.entry k) = liveAt ref.now (ref.table k) := congrFun R.live k
      have forward : ref.now ≤ later := R.now ▸ plain
      have plain : st.now ≤ later := plain
      calc (st.setNow later).live k = liveAt later (st.entry k) := by rw [live, entry_setNow I]; rfl
        _ = liveAt later (liveAt st.now (st.entry k)) := (liveAt_liveAt plain _).symm
        _ = liveAt later (liveAt ref.now (ref.table k)) := by rw [seen]
        _ = (ref.next (.setNow later)).live k := liveAt_liveAt forward _
    | persist | getTtl | evict => exact absurd plain (fun h => h)
  · obtain ⟨n, st', path', run, E⟩ := evictExpired_ok I exact'
    exact ⟨.count n, st', by simp only [execTree, run, bind, Except.bind]; rfl, trivial,
      R.same E.step (E.sheds.live E.step.stays.now)⟩

/-! ## Runs of plain operations -/

section Typed

variable {S : Type} [Score S]

theorem exec_refines (order : HashOrder) {st : OxidArt P (Value S)} {ref : Ref (Value S)} (R : Refines st ref)
    {c : Command S} (plain : c.Plain st.now) :
    ∃ reply st', exec order st c = .ok (reply, st') ∧ ref.AllowsCommand c reply ∧ Refines st' (ref.nextCommand c) := by
  cases c with
  | tree op =>
    obtain ⟨reply, st', run, allowed, R'⟩ := execTree_refines R (.inl plain)
    exact ⟨.tree reply, st', by simp only [exec, wrapReply, run]; rfl, ⟨reply, rfl, allowed⟩, R'⟩
  | incrby key delta =>
    obtain ⟨path, I⟩ := R.sound
    obtain ⟨st', path', run, step, entries⟩ := incrby_ok I (fun _ => True) plain.2 delta
    refine ⟨_, st', by simp only [exec, wrapReply, run]; rfl, trivial, ?_⟩
    simp only [Ref.nextCommand, ← R.live]
    cases held : st.live key with
    | none =>
      rw [held] at entries
      exact R.put step entries
    | some c =>
      obtain ⟨v, e⟩ := c
      rw [held] at entries
      simp only at entries ⊢
      cases outcome : v.incr delta with
      | ok n =>
        rw [outcome] at entries
        exact R.put step entries
      | error t =>
        rw [outcome] at entries
        refine R.same step ?_
        funext k
        rw [live, live, entries, step.stays.now]
  | _ => exact absurd plain (fun h => h)

/-- After every run of plain commands from a new store, `get` gives what the reference map gives. -/
theorem get_eq_reference (order : HashOrder) (commands : List (Command S))
    (plain : Admits Ref.nextCommand (fun ref c => c.Plain ref.now) Ref.new commands) :
    ∃ replies st, run (exec order) commands (new : OxidArt P (Value S)) = .ok (replies, st) ∧
      Answers Ref.nextCommand Ref.AllowsCommand Ref.new commands replies ∧
      ∀ key, PlainKey key → ∃ st', st.get key = .ok ((commands.foldl Ref.nextCommand Ref.new).get key, st') := by
  have simulates : ∀ (st : OxidArt P (Value S)) (ref : Ref (Value S)) (c : Command S), Refines st ref → c.Plain ref.now →
      True → ∃ reply st', exec order st c = .ok (reply, st') ∧ ref.AllowsCommand c reply ∧
        Refines st' (ref.nextCommand c) := by
    intro st ref c R plain _
    exact exec_refines order R (by rw [R.now]; exact plain)
  obtain ⟨replies, st, ran, answers, R⟩ := run_simulates simulates commands new Ref.new refines_new plain
    (Meets.of_forall (fun _ _ _ => trivial) _)
  refine ⟨replies, st, ran, answers, fun key nonempty => ?_⟩
  obtain ⟨path, I⟩ := R.sound
  obtain ⟨st', path', got, -⟩ := get_ok I nonempty.1
  exact ⟨st', by rw [got, R.live]; rfl⟩

end Typed

/-- A run with a split, an expiry that passes, a counter and deletions. -/
def mixedRun : List (Command Int) :=
  [.tree (.set [97, 98] (.int 1)), .tree (.setTtl [97, 99] 5 (.int 2)), .incrby [97, 98] 4, .tree (.expire [97, 98] 30),
    .tree (.setNow 10), .tree (.get [97, 99]), .tree (.getn []), .incrby [97, 99] 7, .tree (.deln [97, 99]),
    .tree (.set [98] (.string [120])), .tree (.del [98])]

theorem get_eq_reference_mixedRun :
    Admits Ref.nextCommand (fun ref c => c.Plain ref.now) Ref.new mixedRun ∧
      ∃ replies st, run (exec .stored) mixedRun (new : OxidArt .lowest (Value Int)) = .ok (replies, st) ∧
        ∃ st', st.get [97, 98] = .ok (some (.int 5), st') := by
  have plain : Admits Ref.nextCommand (fun ref c => c.Plain ref.now) Ref.new mixedRun := by decide +kernel
  obtain ⟨replies, st, ran, -, got⟩ := get_eq_reference (P := .lowest) .stored mixedRun plain
  exact ⟨plain, replies, st, ran, got [97, 98] (by decide +kernel)⟩

/-! ## Evictions -/


end OxidArt

section Evictions

variable {P : Policy} {V : Type}

def TreeOp.isEvict : TreeOp V → Bool
  | .evict _ => true
  | _ => false

/-- An eviction samples exact picks only. -/
def TreeOp.ExactIn (st : OxidArt P V) : TreeOp V → Prop
  | .evict draws => ExactEviction st draws
  | _ => True

instance (st : OxidArt P V) : (op : TreeOp V) → Decidable (op.ExactIn st)
  | .evict draws => inferInstanceAs (Decidable (ExactEviction st draws))
  | .set .. | .setTtl .. | .expire .. | .persist _ | .get _ | .getTtl _ | .getn _ | .del _ | .deln _ | .setNow _ =>
    inferInstanceAs (Decidable True)

/-- Two replies to a reading operation agree: equal values, or the same pairs in some order. -/
def TreeOp.Agree : TreeOp V → TreeReply V → TreeReply V → Prop
  | .get _, reply, reply₀ => reply = reply₀
  | .getn _, reply, reply₀ => ∃ l l₀, reply = .pairs l ∧ reply₀ = .pairs l₀ ∧ l.Perm l₀
  | _, _, _ => True

def TreeOp.withoutEvictions (ops : List (TreeOp V)) : List (TreeOp V) := ops.filter fun op => !op.isEvict

/-- The operations of a run with their replies, less the evictions. -/
def TreeOp.results (ops : List (TreeOp V)) (replies : List (TreeReply V)) : List (TreeOp V × TreeReply V) :=
  (ops.zip replies).filter fun p => !p.1.isEvict

section Evict

variable {op : TreeOp V} {reply : TreeReply V} {ops : List (TreeOp V)} {replies : List (TreeReply V)}

theorem Ref.next_of_isEvict (ref : Ref V) (evict : op.isEvict = true) : ref.next op = ref := by
  cases op <;> first | rfl | cases evict

theorem TreeOp.withoutEvictions_drop (evict : op.isEvict = true) : withoutEvictions (op :: ops) = withoutEvictions ops := by
  simp [withoutEvictions, evict]

theorem TreeOp.withoutEvictions_keep (other : op.isEvict = false) :
    withoutEvictions (op :: ops) = op :: withoutEvictions ops := by
  simp [withoutEvictions, other]

theorem TreeOp.results_drop (evict : op.isEvict = true) : results (op :: ops) (reply :: replies) = results ops replies := by
  simp [results, evict]

theorem TreeOp.results_keep (other : op.isEvict = false) :
    results (op :: ops) (reply :: replies) = (op, reply) :: results ops replies := by
  simp [results, other]

end Evict

/-- Two lists of the same live keys are equal up to order. -/
theorem Ref.Lists.perm {ref : Ref V} {pfx : Bytes} {l l₀ : List (Bytes × V)} (L : ref.Lists pfx l) (L₀ : ref.Lists pfx l₀) :
    l.Perm l₀ := by
  refine (List.perm_ext_iff_of_nodup (List.Nodup.of_map _ L.1) (List.Nodup.of_map _ L₀.1)).2 ?_
  rintro ⟨k, v⟩
  rw [L.2, L₀.2]

/-- The reference does not notice evictions, so its answers with and without them agree. -/
theorem answers_agree (ops : List (TreeOp V)) : ∀ (ref : Ref V) (replies replies₀ : List (TreeReply V)),
    Answers Ref.next Ref.Allows ref ops replies → Answers Ref.next Ref.Allows ref (TreeOp.withoutEvictions ops) replies₀ →
      List.Forall₂ (fun p p₀ => p.1 = p₀.1 ∧ p.1.Agree p.2 p₀.2) (TreeOp.results ops replies)
        (TreeOp.results (TreeOp.withoutEvictions ops) replies₀) := by
  induction ops with
  | nil =>
    intro ref replies replies₀ _ _
    exact .nil
  | cons op rest ih =>
    intro ref replies replies₀ first second
    cases replies with
    | nil => exact absurd first (fun h => h)
    | cons reply replies =>
      cases evict : op.isEvict with
      | true =>
        rw [TreeOp.withoutEvictions_drop evict] at second ⊢
        rw [TreeOp.results_drop evict]
        exact ih ref replies replies₀ (Ref.next_of_isEvict ref evict ▸ first.2) second
      | false =>
        rw [TreeOp.withoutEvictions_keep evict] at second ⊢
        cases replies₀ with
        | nil => exact absurd second (fun h => h)
        | cons reply₀ replies₀ =>
          rw [TreeOp.results_keep evict, TreeOp.results_keep evict]
          refine .cons ⟨rfl, ?_⟩ (ih _ replies replies₀ first.2 second.2)
          have left := first.1
          have right := second.1
          cases op with
          | get key => exact Eq.trans left (Eq.symm right)
          | getn pfx =>
            obtain ⟨l, rfl, L⟩ := left
            obtain ⟨l₀, rfl, L₀⟩ := right
            exact ⟨l, l₀, rfl, rfl, L.perm L₀⟩
          | _ => trivial

theorem admits_withoutEvictions (ops : List (TreeOp V)) : ∀ ref : Ref V,
    Admits Ref.next (fun ref op => op.Plain ref.now ∨ op.isEvict = true) ref ops →
      Admits Ref.next (fun ref op => op.Plain ref.now ∨ op.isEvict = true) ref (TreeOp.withoutEvictions ops) := by
  induction ops with
  | nil => exact fun _ _ => trivial
  | cons op rest ih =>
    intro ref admits
    cases evict : op.isEvict with
    | true =>
      rw [TreeOp.withoutEvictions_drop evict]
      exact ih ref (Ref.next_of_isEvict ref evict ▸ admits.2)
    | false =>
      rw [TreeOp.withoutEvictions_keep evict]
      exact ⟨admits.1, ih _ admits.2⟩

end Evictions

namespace OxidArt

variable {P : Policy} {V : Type}

/-- Every child link leads to an occupied slot, which no other link leads to. -/
def LinksExact (st : OxidArt P V) : Prop :=
  ∀ i r j, st.find i r = some j → (∃ n, st.tryGetNode j = some n) ∧ ∀ i' r', st.find i' r' = some j → i' = i ∧ r' = r

theorem IsSound.linksExact {st : OxidArt P V} (sound : IsSound st) : LinksExact st := by
  obtain ⟨path, I⟩ := sound
  intro i r j edge
  obtain ⟨l, read⟩ := I.forest.kidOcc edge
  obtain ⟨n, found, -⟩ := graph_label_iff.1 read
  exact ⟨⟨n, found⟩, fun i' r' edge' => I.forest.kidInj edge' edge⟩

/-- A run of plain operations and evictions through exact links, from a state that refines `ref`. -/
theorem run_refines {st : OxidArt P V} {ref : Ref V} (R : Refines st ref) (ops : List (TreeOp V))
    (plain : Admits Ref.next (fun ref op => op.Plain ref.now ∨ op.isEvict = true) ref ops)
    (exact' : Meets execTree (fun st op => op.ExactIn st) ops st) :
    ∃ replies st', run execTree ops st = .ok (replies, st') ∧ Answers Ref.next Ref.Allows ref ops replies ∧
      Refines st' (ops.foldl Ref.next ref) := by
  refine run_simulates ?_ ops st ref R plain exact'
  intro st ref op R permitted exact'
  apply execTree_refines R
  rcases permitted with plain | evict
  · exact .inl (by rw [R.now]; exact plain)
  · cases op with
    | evict draws => exact .inr ⟨draws, rfl, exact'⟩
    | _ => cases evict

/-- Evictions through exact links change no reply of `get` and `getn`, no operation panics and every link stays exact. -/
theorem evictions_invisible (ops : List (TreeOp V))
    (plain : Admits Ref.next (fun ref op => op.Plain ref.now ∨ op.isEvict = true) Ref.new ops)
    (exact' : Meets execTree (fun st op => op.ExactIn st) ops (new : OxidArt P V)) :
    ∃ replies st replies₀ st₀, run execTree ops (new : OxidArt P V) = .ok (replies, st) ∧
      run execTree (TreeOp.withoutEvictions ops) (new : OxidArt P V) = .ok (replies₀, st₀) ∧
      List.Forall₂ (fun p p₀ => p.1 = p₀.1 ∧ p.1.Agree p.2 p₀.2) (TreeOp.results ops replies)
        (TreeOp.results (TreeOp.withoutEvictions ops) replies₀) ∧
      LinksExact st := by
  obtain ⟨replies, st, ran, answers, R⟩ := run_refines refines_new ops plain exact'
  have none' : Meets execTree (fun st op => op.ExactIn st)
      (TreeOp.withoutEvictions ops) (new : OxidArt P V) := by
    refine Meets.of_forall ?_ _
    intro op member st
    cases op with
    | evict draws => simp [TreeOp.withoutEvictions, TreeOp.isEvict] at member
    | _ => trivial
  obtain ⟨replies₀, st₀, ran₀, answers₀, -⟩ := run_refines refines_new _ (admits_withoutEvictions ops _ plain) none'
  exact ⟨replies, st, replies₀, st₀, ran, ran₀, answers_agree ops _ replies replies₀ answers answers₀, R.sound.linksExact⟩

/-- Two expired keys, one of them behind a stale parent link. The samples are a key that has not expired, and last the other expired
key; one round is all there is then. -/
def evictingRun : List (TreeOp Nat) :=
  [.set [97, 98] 1, .setTtl [97, 99] 5 2, .expire [97, 98] 1000, .set [122, 98] 3, .set [122, 99] 4, .expire [122, 98] 5, .setNow 10,
    .evict fun _ sample => if sample = 0 then 2 else 1, .get [97, 98], .get [97, 99], .getn [], .set [97, 99] 6]

theorem evictions_invisible_evictingRun :
    Admits Ref.next (fun ref op => op.Plain ref.now ∨ op.isEvict = true) Ref.new evictingRun ∧
      Meets execTree (fun st op => op.ExactIn st) evictingRun (new : OxidArt .lowest Nat) ∧
      ∃ replies st, run execTree evictingRun (new : OxidArt .lowest Nat) = .ok (replies, st) ∧ LinksExact st := by
  have plain : Admits Ref.next (fun ref op => op.Plain ref.now ∨ op.isEvict = true) Ref.new evictingRun := by decide +kernel
  have exact' : Meets execTree (fun st op => op.ExactIn st) evictingRun (new : OxidArt .lowest Nat) := by decide +kernel
  obtain ⟨replies, st, -, -, ran, -, -, links⟩ := evictions_invisible evictingRun plain exact'
  exact ⟨plain, exact', replies, st, ran, links⟩

/-- The panic that ended a call. -/
def panicOf {α : Type} : Exec α → Option Panic
  | .error p => some p
  | .ok _ => none

/-- `split_node` gives the old node a new place but not a new radix, and the evictor follows the old one: the
parent keeps its link to the freed slot, and the next write of the key runs into it. -/
def danglingRun : List (TreeOp Nat) :=
  [.setTtl [97, 98] 10 1, .set [97, 99] 2, .setNow 20, .evict fun _ _ => 1, .set [97, 98] 3]

theorem danglingRun_panics :
    Admits Ref.next (fun ref op => op.Plain ref.now ∨ op.isEvict = true) Ref.new danglingRun ∧
      panicOf (run execTree danglingRun (new : OxidArt .lowest Nat)) = some .getNode ∧
      panicOf (run execTree (TreeOp.withoutEvictions danglingRun) (new : OxidArt .lowest Nat)) = none := by
  decide +kernel

end OxidArt

end Radixox.Oxidart
