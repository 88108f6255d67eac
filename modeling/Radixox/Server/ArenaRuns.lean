import Mathlib.Data.Finset.Card
import Mathlib.Logic.Function.Basic
import Radixox.Lib.Runs
import Radixox.Server.GenArena

/-!
# Runs of the arena

The arena in machine words, where an index is a `u32` and `u32::MAX` stands for no slot, and what it is for: a
map that hands out a fresh key with every insertion. As long as neither the slots nor the generations run
out of words, every run of the one is a run of the other.
-/

namespace Radixox.Server
set_option autoImplicit false
open Radixox.Runs

/-- The operations; `getMut` writes through the reference. -/
inductive ArenaOp (T : Type) where
  | insert (value : T)
  | remove (key : Key)
  | get (key : Key)
  | getMut (key : Key) (value : T)
  | contains (key : Key)

inductive ArenaReply (T : Type) where
  | key (k : Key)
  | value (v : Option T)
  | flag (b : Bool)
deriving DecidableEq

/-! ## The arena in words -/

/-- `u32::MAX`. -/
def SENTINEL : Nat := 2 ^ 32 - 1

structure WordSlot (T : Type) where
  data : Option T
  generation : Nat
  nextFree : Nat

structure WordArena (T : Type) where
  slots : List (WordSlot T)
  freeHead : Nat
  len : Nat

inductive ArenaPanic where
  /-- `self.slots[idx]` out of range. -/
  | index

namespace WordArena

variable {T : Type}

def new : WordArena T := ⟨[], SENTINEL, 0⟩

def growTo (a : WordArena T) (cap : Nat) : WordArena T :=
  let start := a.slots.length
  if cap ≤ start then a
  else
    let additional := (cap - start) % 2 ^ 32
    let slot (i : Nat) : WordSlot T := ⟨none, 0, if i + 1 < additional then (start % 2 ^ 32 + i + 1) % 2 ^ 32 else a.freeHead⟩
    { a with slots := a.slots ++ (List.range additional).map slot, freeHead := start % 2 ^ 32 }

def withCapacity (cap : Nat) : WordArena T := new.growTo cap

/-- The growth in front of an insertion. -/
def ready (a : WordArena T) : WordArena T := if a.freeHead = SENTINEL then a.growTo (a.slots.length + 1) else a

def insert (a : WordArena T) (value : T) : Except ArenaPanic (Key × WordArena T) :=
  match a.ready.slots[a.ready.freeHead]? with
  | none => .error .index
  | some slot => .ok (⟨a.ready.freeHead, slot.generation⟩,
      ⟨a.ready.slots.set a.ready.freeHead { slot with data := some value }, slot.nextFree, (a.ready.len + 1) % 2 ^ 32⟩)

def slot (a : WordArena T) (key : Key) : Option (WordSlot T) :=
  (a.slots[key.idx]?).filter fun s => s.generation == key.generation && s.data.isSome

def get (a : WordArena T) (key : Key) : Option T := (a.slot key).bind WordSlot.data

def set (a : WordArena T) (key : Key) (value : T) : WordArena T :=
  match a.slot key with
  | none => a
  | some s => { a with slots := a.slots.set key.idx { s with data := some value } }

def contains (a : WordArena T) (key : Key) : Bool := (a.slot key).isSome

def remove (a : WordArena T) (key : Key) : Option T × WordArena T :=
  match a.slot key with
  | none => (none, a)
  | some s => (s.data,
      ⟨a.slots.set key.idx ⟨none, (s.generation + 1) % 2 ^ 32, a.freeHead⟩, key.idx, (a.len + (2 ^ 32 - 1)) % 2 ^ 32⟩)

def exec (a : WordArena T) : ArenaOp T → Except ArenaPanic (ArenaReply T × WordArena T)
  | .insert value => do
    let (key, a) ← a.insert value
    return (.key key, a)
  | .remove key => .ok (.value (a.remove key).1, (a.remove key).2)
  | .get key => .ok (.value (a.get key), a)
  | .getMut key value => .ok (.value (a.get key), a.set key value)
  | .contains key => .ok (.flag (a.contains key), a)

/-! ## Without the sentinel -/

/-- The index that a word stands for. -/
def link (i : Nat) : Option Nat := if i = SENTINEL then none else some i

def absSlot (s : WordSlot T) : Slot T := ⟨s.data, s.generation, link s.nextFree⟩

def abs (a : WordArena T) : GenArena T := ⟨a.slots.map absSlot, link a.freeHead, a.len⟩

variable (a : WordArena T)

theorem link_of_lt {i : Nat} (below : i < SENTINEL) : link i = some i := if_neg (Nat.ne_of_lt below)

theorem getElem?_abs (i : Nat) : a.abs.slots[i]? = (a.slots[i]?).map absSlot := List.getElem?_map

theorem abs_slot (key : Key) : a.abs.slot key = (a.slot key).map absSlot := by
  rw [GenArena.slot, getElem?_abs, slot]
  cases a.slots[key.idx]? with
  | none => rfl
  | some s => simp only [Option.map_some, Option.filter, absSlot]; split <;> rfl

theorem abs_get (key : Key) : a.abs.get key = a.get key := by
  rw [GenArena.get, abs_slot, get]
  cases a.slot key <;> rfl

theorem contains_eq (key : Key) : a.contains key = (a.get key).isSome := by
  unfold contains get slot
  cases a.slots[key.idx]? with
  | none => rfl
  | some s =>
    rw [Option.filter_some]
    split
    next fits =>
      rw [Bool.and_eq_true] at fits
      exact fits.2.symm
    next => rfl

theorem abs_set (key : Key) (v : T) : (a.set key v).abs = a.abs.set key v := by
  rw [GenArena.set, abs_slot, set]
  cases a.slot key with
  | none => rfl
  | some s => simp only [Option.map_some, abs, List.map_set]; rfl

/-- A growth to fewer slots than there are words is one of the arena without words. -/
theorem abs_growTo {cap : Nat} (bound : cap ≤ SENTINEL) : (a.growTo cap).abs = a.abs.growTo cap := by
  have length : a.abs.slots.length = a.slots.length := List.length_map _
  unfold growTo GenArena.growTo
  dsimp only
  rw [length]
  split
  · rfl
  next more =>
    have words : cap < 2 ^ 32 := Nat.lt_of_le_of_lt bound (by decide)
    have additional : (cap - a.slots.length) % 2 ^ 32 = cap - a.slots.length := Nat.mod_eq_of_lt (by omega)
    have start : a.slots.length % 2 ^ 32 = a.slots.length := Nat.mod_eq_of_lt (by omega)
    rw [additional, start]
    simp only [abs, List.map_append, List.map_map, link_of_lt (show a.slots.length < SENTINEL by omega)]
    congr 2
    apply List.map_congr_left
    intro i member
    rw [List.mem_range] at member
    simp only [Function.comp_apply, absSlot]
    split
    · rw [Nat.mod_eq_of_lt (by omega), link_of_lt (by omega)]
    · rfl

theorem abs_ready (bound : a.slots.length < SENTINEL) : a.ready.abs = a.abs.ready := by
  have length : a.abs.slots.length = a.slots.length := List.length_map _
  unfold ready GenArena.ready
  by_cases full : a.freeHead = SENTINEL
  · have none' : a.abs.freeHead.isNone = true := by simp [abs, link, full]
    rw [if_pos full, if_pos none', abs_growTo a (by omega), length]
  · have some' : ¬ a.abs.freeHead.isNone = true := by simp [abs, link, full]
    rw [if_neg full, if_neg some']

/-- An insertion while a slot and a count are left. -/
theorem abs_insert (bound : a.slots.length < SENTINEL) (few : a.len + 1 < 2 ^ 32) {v : T} {key : Key} {b : GenArena T}
    (run : a.abs.insert v = some (key, b)) : ∃ a', a.insert v = .ok (key, a') ∧ a'.abs = b := by
  have shape : a.abs.insert v = (do
      let idx ← a.ready.abs.freeHead
      let slot ← a.ready.abs.slots[idx]?
      return (⟨idx, slot.generation⟩,
        ⟨a.ready.abs.slots.set idx { slot with data := some v }, slot.nextFree, a.ready.abs.len + 1⟩)) := by
    rw [abs_ready a bound]
    rfl
  rw [shape] at run
  obtain ⟨idx, head, run⟩ := Option.bind_eq_some_iff.1 run
  obtain ⟨slot, read, run⟩ := Option.bind_eq_some_iff.1 run
  have first : a.ready.freeHead = idx := by
    simp only [abs, link] at head
    split at head
    · cases head
    · exact Option.some.inj head
  rw [getElem?_abs] at read
  obtain ⟨s, found, rfl⟩ := Option.map_eq_some_iff.1 read
  obtain ⟨rfl, rfl⟩ := Prod.mk.inj (Option.some.inj run)
  have count : a.ready.len = a.len := by
    unfold ready growTo
    dsimp only
    split
    · split <;> rfl
    · rfl
  refine ⟨⟨a.ready.slots.set idx { s with data := some v }, s.nextFree, (a.ready.len + 1) % 2 ^ 32⟩, ?_, ?_⟩
  · unfold insert
    rw [first]
    simp only [found]
    rfl
  · simp only [abs, List.map_set, absSlot, count, Nat.mod_eq_of_lt few]

theorem abs_remove {key : Key} (inside : (a.slot key).isSome → key.idx < SENTINEL ∧ 0 < a.len) (few : a.len < 2 ^ 32) :
    (a.remove key).1 = (a.abs.remove key).1 ∧ (a.remove key).2.abs = (a.abs.remove key).2 := by
  rw [GenArena.remove, abs_slot, remove]
  cases held : a.slot key with
  | none => exact ⟨rfl, rfl⟩
  | some s =>
    obtain ⟨inside, filled⟩ := inside (by rw [held]; rfl)
    have less : (a.len + (2 ^ 32 - 1)) % 2 ^ 32 = a.len - 1 := by omega
    simp only [Option.map_some, abs, List.map_set, absSlot, less, link_of_lt inside]
    trivial

end WordArena

/-! ## A map with fresh keys -/

/-- What the arena is for: the values under the keys, and all keys that were ever handed out. -/
structure Dict (T : Type) where
  live : Key → Option T
  issued : List Key

namespace Dict

variable {T : Type}

def empty : Dict T := ⟨fun _ => none, []⟩

def put (d : Dict T) (k : Key) (v : Option T) : Dict T := { d with live := Function.update d.live k v }

theorem live_put (d : Dict T) (j : Key) (v : Option T) (k : Key) : (d.put j v).live k = if k = j then v else d.live k :=
  Function.update_apply ..

/-- An insertion chooses a key that was never handed out; everything else is determined. -/
inductive Chooses : Dict T → ArenaOp T → ArenaReply T → Dict T → Prop
  | insert {d : Dict T} {k : Key} (v : T) (fresh : k ∉ d.issued) :
      Chooses d (.insert v) (.key k) ⟨Function.update d.live k (some v), k :: d.issued⟩
  | remove {d : Dict T} (k : Key) : Chooses d (.remove k) (.value (d.live k)) (d.put k none)
  | get {d : Dict T} (k : Key) : Chooses d (.get k) (.value (d.live k)) d
  | getMut {d : Dict T} (k : Key) (v : T) :
      Chooses d (.getMut k v) (.value (d.live k)) (if (d.live k).isSome then d.put k (some v) else d)
  | contains {d : Dict T} (k : Key) : Chooses d (.contains k) (.flag (d.live k).isSome) d

/-- A key that was handed out and is not live. -/
def Stale (d : Dict T) (k : Key) : Prop := k ∈ d.issued ∧ d.live k = none

theorem Stale.step {d d' : Dict T} {k : Key} {op : ArenaOp T} {reply : ArenaReply T} (stale : d.Stale k)
    (chosen : Chooses d op reply d') : d'.Stale k := by
  obtain ⟨known, gone⟩ := stale
  cases chosen with
  | insert v fresh =>
    refine ⟨List.mem_cons_of_mem _ known, (Function.update_of_ne ?_ ..).trans gone⟩
    rintro rfl
    exact fresh known
  | remove j =>
    refine ⟨known, ?_⟩
    by_cases same : k = j
    · rw [same]
      exact Function.update_self ..
    · exact (Function.update_of_ne same ..).trans gone
  | get | contains => exact ⟨known, gone⟩
  | getMut j v =>
    split
    next held =>
      have other : k ≠ j := by
        rintro rfl
        rw [gone] at held
        cases held
      exact ⟨known, (Function.update_of_ne other ..).trans gone⟩
    next => exact ⟨known, gone⟩

/-- The reply does not know the key. -/
def Misses (k : Key) : ArenaOp T → ArenaReply T → Prop
  | .insert _, .key k' => k' ≠ k
  | .remove k', .value v | .get k', .value v | .getMut k' _, .value v => k' = k → v = none
  | .contains k', .flag b => k' = k → b = false
  | _, _ => False

theorem Stale.misses {d d' : Dict T} {k : Key} {op : ArenaOp T} {reply : ArenaReply T} (stale : d.Stale k)
    (chosen : Chooses d op reply d') : Misses k op reply := by
  obtain ⟨known, gone⟩ := stale
  cases chosen with
  | insert v fresh =>
    rintro rfl
    exact fresh known
  | remove j | get j | getMut j =>
    rintro rfl
    exact gone
  | contains j =>
    rintro rfl
    rw [gone]
    rfl

/-- A removed key never comes back, whatever happens to its slot. -/
theorem Stale.forever {d d' : Dict T} {k : Key} {ops : List (ArenaOp T)} {replies : List (ArenaReply T)} (stale : d.Stale k)
    (follows : Follows Chooses d ops replies d') : d'.Stale k :=
  follows.invariant (fun d => d.Stale k) (fun _ _ _ _ stale chosen => stale.step chosen) stale

/-- Only keys that were handed out are live, and none was handed out twice. -/
structure Sound (d : Dict T) : Prop where
  known : ∀ k, (d.live k).isSome = true → k ∈ d.issued
  once : d.issued.Nodup

theorem Sound.step {d d' : Dict T} {op : ArenaOp T} {reply : ArenaReply T} (sound : d.Sound) (chosen : Chooses d op reply d') :
    d'.Sound := by
  have put : ∀ j v, (d.live j).isSome = true ∨ v = none → (d.put j v).Sound := by
    intro j v fine
    refine ⟨fun k held => ?_, sound.once⟩
    rw [live_put] at held
    split at held
    next same =>
      subst same
      rcases fine with lit | rfl
      · exact sound.known k lit
      · cases held
    next => exact sound.known k held
  cases chosen with
  | @insert j v fresh =>
    refine ⟨fun k held => ?_, List.nodup_cons.2 ⟨fresh, sound.once⟩⟩
    by_cases same : k = j
    · exact same ▸ List.mem_cons_self
    · refine List.mem_cons_of_mem _ (sound.known k ?_)
      exact (congrArg _ (Function.update_of_ne same ..)).symm.trans held
  | remove j => exact put j none (.inr rfl)
  | get | contains => exact sound
  | getMut j v =>
    split
    next lit => exact put j (some v) (.inl lit)
    next => exact sound

theorem sound_empty : (empty : Dict T).Sound := by
  refine ⟨fun k held => ?_, List.nodup_nil⟩
  cases held

theorem Sound.run {d : Dict T} {ops : List (ArenaOp T)} {replies : List (ArenaReply T)}
    (follows : Follows Chooses .empty ops replies d) : d.Sound :=
  follows.invariant (fun d => d.Sound) (fun _ _ _ _ sound chosen => sound.step chosen) sound_empty

/-- The keys of a run, in the order they were handed out. -/
def keysOf (replies : List (ArenaReply T)) : List Key := replies.filterMap fun
  | .key k => some k
  | _ => none

theorem issued_eq {d d' : Dict T} {ops : List (ArenaOp T)} {replies : List (ArenaReply T)}
    (follows : Follows Chooses d ops replies d') : d'.issued = (keysOf replies).reverse ++ d.issued := by
  induction follows with
  | nil => rfl
  | @cons d₀ d₁ _ _ _ reply replies first later ih =>
    rw [ih]
    cases first with
    | insert v fresh => simp [keysOf]
    | remove | get | contains => rfl
    | getMut j v =>
      have same : (if (d₀.live j).isSome then d₀.put j (some v) else d₀).issued = d₀.issued := by
        split <;> rfl
      rw [same]
      rfl

/-- No key is handed out twice. -/
theorem keysOf_nodup {d : Dict T} {ops : List (ArenaOp T)} {replies : List (ArenaReply T)}
    (follows : Follows Chooses .empty ops replies d) : (keysOf replies).Nodup := by
  have once := (Sound.run follows).once
  rw [issued_eq follows, show (empty : Dict T).issued = [] from rfl, List.append_nil, List.nodup_reverse] at once
  exact once

/-- After a removal that succeeded, no reply knows the key. -/
theorem misses_of_removed {d : Dict T} {ops : List (ArenaOp T)} {replies : List (ArenaReply T)}
    (follows : Follows Chooses .empty ops replies d) {i j : Nat} {k : Key} {v : T} (later : i < j)
    (asked : ops[i]? = some (.remove k)) (removed : replies[i]? = some (.value (some v))) {op : ArenaOp T}
    {reply : ArenaReply T} (input : ops[j]? = some op) (answer : replies[j]? = some reply) : Misses k op reply := by
  obtain ⟨b, b', before, chosen, after⟩ := follows.split asked removed
  have sound := Sound.run before
  have stale : b'.Stale k := by
    generalize reached : (ArenaReply.value (some v) : ArenaReply T) = given at chosen
    cases chosen with
    | remove =>
      have lit : b.live k = some v := (ArenaReply.value.inj reached).symm
      exact ⟨sound.known k (by rw [lit]; rfl), Function.update_self ..⟩
  obtain ⟨n, rfl⟩ := Nat.exists_eq_add_of_lt later
  have place : i + n + 1 = i + 1 + n := by omega
  rw [place, ← List.getElem?_drop] at input answer
  obtain ⟨c, c', middle, chosen', -⟩ := after.split input answer
  exact (stale.forever middle).misses chosen'

end Dict

namespace GenArena

variable {T : Type}

/-- The arena holds what the map holds, with room for `left` more operations. -/
structure Stands (left : Nat) (a : GenArena T) (d : Dict T) : Prop where
  live : ∀ k, a.get k = d.live k
  /-- A key that was handed out belongs to the value in its slot or to an earlier one. -/
  past : ∀ k ∈ d.issued, ∃ s : Slot T, a.slots[k.idx]? = some s ∧
    (k.generation < s.generation ∨ k.generation = s.generation ∧ s.data.isSome = true)
  /-- The free list holds every empty slot. -/
  free : ∃ l, FreeChain a.nextOf a.freeHead l ∧ ∀ (i : Nat) (s : Slot T), a.slots[i]? = some s → s.data = none → i ∈ l
  counted : ∃ keys : Finset Key, (∀ k, k ∈ keys ↔ (d.live k).isSome = true) ∧ a.len = keys.card
  room : a.slots.length + left < 2 ^ 32 - 1
  few : a.len + left < 2 ^ 32 - 1
  young : ∀ (i : Nat) (s : Slot T), a.slots[i]? = some s → s.generation + left < 2 ^ 32 - 1

variable {left : Nat} {a : GenArena T} {d : Dict T}

theorem stands_withCapacity {cap : Nat} (bound : cap + left < 2 ^ 32 - 1) : Stands left (withCapacity cap : GenArena T) .empty := by
  have length : (withCapacity cap : GenArena T).slots.length = cap := by
    rw [withCapacity, length_growTo]
    exact Nat.zero_max cap
  have slots : ∀ i s, (withCapacity cap : GenArena T).slots[i]? = some s → s.generation = 0 ∧ i < cap := by
    intro i s read
    rw [withCapacity, slots_growTo, if_neg (show ¬ i < (new : GenArena T).slots.length from Nat.not_lt_zero i)] at read
    split at read
    next inside =>
      rw [← Option.some.inj read]
      exact ⟨rfl, inside⟩
    next => cases read
  have count : (withCapacity cap : GenArena T).len = 0 := len_growTo _ cap
  refine ⟨get_withCapacity cap, fun k member => absurd member List.not_mem_nil, ?_, ⟨∅, by simp [Dict.empty], count⟩, ?_, ?_, ?_⟩
  · refine ⟨_, growTo_chain .nil cap, fun i s read _ => ?_⟩
    obtain ⟨-, inside⟩ := slots i s read
    rw [List.append_nil, List.mem_range'_1]
    exact ⟨Nat.zero_le _, by simpa [new] using inside⟩
  · rw [length]
    exact bound
  · rw [count]
    omega
  · intro i s read
    obtain ⟨zero, inside⟩ := slots i s read
    omega

/-- An operation that only reads costs room. -/
theorem Stands.less (stands : Stands (left + 1) a d) : Stands left a d := by
  refine ⟨stands.live, stands.past, stands.free, stands.counted, ?_, ?_, fun i s read => ?_⟩
  · have := stands.room
    omega
  · have := stands.few
    omega
  · have := stands.young i s read
    omega

/-- What an insertion prepares: the slots there are, and at most one more that is empty and new. -/
theorem slots_ready (a : GenArena T) :
    (∀ (i : Nat) (s : Slot T), a.slots[i]? = some s → a.ready.slots[i]? = some s) ∧
      ∀ (i : Nat) (s : Slot T), a.ready.slots[i]? = some s → a.slots[i]? = some s ∨ s.data = none ∧ s.generation = 0 := by
  unfold ready
  split
  · refine ⟨fun i s read => ?_, fun i s read => ?_⟩
    · rw [slots_growTo, if_pos (List.getElem?_eq_some_iff.1 read).1]
      exact read
    · rw [slots_growTo] at read
      split at read
      · exact .inl read
      · split at read
        · rw [← Option.some.inj read]
          exact .inr ⟨rfl, rfl⟩
        · cases read
  · exact ⟨fun _ _ read => read, fun _ _ read => .inl read⟩

theorem length_ready_le (a : GenArena T) : a.ready.slots.length ≤ a.slots.length + 1 := by
  unfold ready
  split
  · rw [length_growTo]
    omega
  · exact Nat.le_succ _

/-- The free list of the prepared arena holds every empty slot, too. -/
theorem free_ready {l : List Nat} (chain : FreeChain a.nextOf a.freeHead l)
    (complete : ∀ (i : Nat) (s : Slot T), a.slots[i]? = some s → s.data = none → i ∈ l) :
    ∃ l', FreeChain a.ready.nextOf a.ready.freeHead l' ∧
      ∀ (i : Nat) (s : Slot T), a.ready.slots[i]? = some s → s.data = none → i ∈ l' := by
  unfold ready
  split
  · refine ⟨_, growTo_chain chain _, fun i s read empty => ?_⟩
    rw [List.mem_append, List.mem_range'_1]
    rw [slots_growTo] at read
    split at read
    · exact .inr (complete i s read empty)
    · split at read
      · left
        omega
      · cases read
  · exact ⟨l, chain, complete⟩

theorem Stands.insert (stands : Stands (left + 1) a d) (v : T) :
    ∃ key a', a.insert v = some (key, a') ∧ key ∉ d.issued ∧
      Stands left a' ⟨Function.update d.live key (some v), key :: d.issued⟩ := by
  obtain ⟨l, chain, complete⟩ := stands.free
  obtain ⟨l', chain', complete'⟩ := free_ready chain complete
  obtain ⟨idx, s, rest, read, data, whole, later, fresh, run⟩ := insert_takes chain v
  obtain rfl := chain'.unique whole
  obtain ⟨kept, origin⟩ := slots_ready a
  obtain ⟨bound, -⟩ := List.getElem?_eq_some_iff.1 read
  have filled : (a.ready.slots.set idx { s with data := some v })[idx]? = some { s with data := some v } :=
    List.getElem?_set_self bound
  have others : ∀ i, i ≠ idx → (a.ready.slots.set idx { s with data := some v })[i]? = a.ready.slots[i]? :=
    fun i other => List.getElem?_set_ne (Ne.symm other)
  have unissued : (⟨idx, s.generation⟩ : Key) ∉ d.issued := by
    intro member
    obtain ⟨s', read', old⟩ := stands.past _ member
    obtain rfl := Option.some.inj (read.symm.trans (kept idx s' read'))
    rcases old with less | ⟨-, some'⟩
    · exact Nat.lt_irrefl _ less
    · rw [data] at some'
      cases some'
  have dark : d.live ⟨idx, s.generation⟩ = none := by
    rw [← stands.live, ← get_ready]
    cases held : a.ready.get ⟨idx, s.generation⟩ with
    | none => rfl
    | some u =>
      obtain ⟨s', read', -, data'⟩ := get_eq_some.1 held
      obtain rfl := Option.some.inj (read.symm.trans read')
      rw [data] at data'
      cases data'
  refine ⟨_, _, run, unissued, ?_, ?_, ⟨rest, ?_, ?_⟩, ?_, ?_, ?_, ?_⟩
  · intro k
    rw [get_fill read data, get_ready, stands.live]
    exact (Function.update_apply ..).symm
  · intro k member
    rcases List.mem_cons.1 member with rfl | earlier
    · exact ⟨_, filled, .inr ⟨rfl, rfl⟩⟩
    · obtain ⟨s', read', old⟩ := stands.past k earlier
      by_cases here : k.idx = idx
      · obtain rfl := Option.some.inj (read.symm.trans (here ▸ kept _ _ read'))
        refine ⟨_, (congrArg _ here).trans filled, .inl ?_⟩
        rcases old with less | ⟨-, some'⟩
        · exact less
        · rw [data] at some'
          cases some'
      · exact ⟨s', (others _ here).trans (kept _ _ read'), old⟩
  · refine later.congr fun j member => ?_
    have other : j ≠ idx := fun same => fresh (same ▸ member)
    simp only [nextOf, others j other]
  · intro i s' read' empty
    by_cases here : i = idx
    · rw [here, filled] at read'
      rw [← Option.some.inj read'] at empty
      cases empty
    · rw [others i here] at read'
      exact (List.mem_cons.1 (complete' i s' read' empty)).resolve_left here
  · obtain ⟨keys, mem, count⟩ := stands.counted
    have absent : (⟨idx, s.generation⟩ : Key) ∉ keys := by
      rw [mem, dark]
      simp
    refine ⟨keys.cons _ absent, fun k => ?_, ?_⟩
    · show _ ↔ (Function.update d.live _ (some v) k).isSome = true
      rw [Finset.mem_cons, mem, Function.update_apply]
      by_cases same : k = ⟨idx, s.generation⟩ <;> simp [same]
    · rw [Finset.card_cons, ← count, len_ready]
  · have := stands.room
    have := length_ready_le a
    rw [List.length_set]
    omega
  · have := stands.few
    dsimp only
    rw [len_ready]
    omega
  · intro i s' read'
    by_cases here : i = idx
    · rw [here, filled] at read'
      rw [← Option.some.inj read']
      rcases origin idx s read with old | ⟨-, zero⟩
      · have := stands.young idx s old
        dsimp only
        omega
      · have := stands.room
        dsimp only
        omega
    · rw [others i here] at read'
      rcases origin i s' read' with old | ⟨-, zero⟩
      · have := stands.young i s' old
        omega
      · have := stands.room
        omega

/-- Removing what is not there changes nothing. -/
theorem remove_absent {k : Key} (absent : a.get k = none) : a.remove k = (none, a) := by
  have gone : a.slot k = none := by
    cases held : a.slot k with
    | none => rfl
    | some s =>
      have filled := (Option.filter_eq_some_iff.1 held).2
      rw [Bool.and_eq_true] at filled
      rw [get, held, Option.bind_some] at absent
      rw [absent] at filled
      cases filled.2
  rw [remove, gone]

theorem Stands.remove (stands : Stands (left + 1) a d) (k : Key) :
    (a.remove k).1 = d.live k ∧ Stands left (a.remove k).2 (d.put k none) := by
  cases held : a.get k with
  | none =>
    have dark : d.live k = none := (stands.live k).symm.trans held
    have same : d.put k none = d := by
      rw [Dict.put, ← dark, Function.update_eq_self]
    rw [remove_absent held, same, dark]
    exact ⟨rfl, stands.less⟩
  | some v =>
    have lit : d.live k = some v := (stands.live k).symm.trans held
    obtain ⟨l, chain, complete⟩ := stands.free
    obtain ⟨s, here, found, generation, data⟩ := slot_of_get held
    obtain ⟨bound, -⟩ := List.getElem?_eq_some_iff.1 found
    obtain ⟨value, -, gets⟩ := remove_ok ⟨l, chain⟩ held
    have used : a.nextOf k.idx = none := by simp [nextOf, found, data]
    have after : (a.remove k).2 =
        ⟨a.slots.set k.idx ⟨none, (s.generation + 1) % 2 ^ 32, a.freeHead⟩, some k.idx, a.len - 1⟩ := by
      rw [GenArena.remove, here]
    have emptied : (a.remove k).2.slots[k.idx]? = some ⟨none, (s.generation + 1) % 2 ^ 32, a.freeHead⟩ := by
      rw [after]
      exact List.getElem?_set_self bound
    have others : ∀ i, i ≠ k.idx → (a.remove k).2.slots[i]? = a.slots[i]? := by
      intro i other
      rw [after]
      exact List.getElem?_set_ne (Ne.symm other)
    have next : (s.generation + 1) % 2 ^ 32 = s.generation + 1 := by
      have := stands.young k.idx s found
      omega
    refine ⟨value.trans lit.symm, ?_, ?_, ⟨k.idx :: l, ?_, ?_⟩, ?_, ?_, ?_, ?_⟩
    · intro j
      rw [gets, stands.live]
      exact (Function.update_apply ..).symm
    · intro j member
      obtain ⟨s', read, old⟩ := stands.past j member
      by_cases same : j.idx = k.idx
      · obtain rfl := Option.some.inj (found.symm.trans ((congrArg _ same).symm.trans read))
        refine ⟨_, (congrArg _ same).trans emptied, .inl ?_⟩
        dsimp only
        omega
      · exact ⟨s', (others _ same).trans read, old⟩
    · rw [show (a.remove k).2.freeHead = some k.idx by rw [after]]
      refine chain.push used ?_ fun i other => ?_
      · simp [nextOf, emptied]
      · simp only [nextOf, others i other]
    · intro i s' read empty
      by_cases same : i = k.idx
      · exact same ▸ List.mem_cons_self
      · rw [others i same] at read
        exact List.mem_cons_of_mem _ (complete i s' read empty)
    · obtain ⟨keys, mem, count⟩ := stands.counted
      have member : k ∈ keys := (mem k).2 (by rw [lit]; rfl)
      refine ⟨keys.erase k, fun j => ?_, ?_⟩
      · show _ ↔ (Function.update d.live k none j).isSome = true
        rw [Finset.mem_erase, mem, Function.update_apply]
        by_cases same : j = k <;> simp [same]
      · rw [Finset.card_erase_of_mem member, after, count]
    · have := stands.room
      rw [after, List.length_set]
      omega
    · have := stands.few
      rw [after]
      dsimp only
      omega
    · intro i s' read
      by_cases same : i = k.idx
      · rw [same, emptied] at read
        rw [← Option.some.inj read]
        have := stands.young k.idx s found
        dsimp only
        omega
      · rw [others i same] at read
        have := stands.young i s' read
        omega

theorem Stands.set (stands : Stands (left + 1) a d) (k : Key) (w : T) :
    Stands left (a.set k w) (if (d.live k).isSome then d.put k (some w) else d) := by
  cases held : a.slot k with
  | none =>
    have dark : d.live k = none := by rw [← stands.live, get, held]; rfl
    have same : a.set k w = a := by rw [GenArena.set, held]
    rw [same, dark]
    exact stands.less
  | some s =>
    obtain ⟨found, filled⟩ := Option.filter_eq_some_iff.1 held
    rw [Bool.and_eq_true] at filled
    obtain ⟨v, data⟩ := Option.isSome_iff_exists.1 filled.2
    have reads : a.get k = some v := by rw [get, held]; exact data
    have lit : d.live k = some v := (stands.live k).symm.trans reads
    obtain ⟨bound, -⟩ := List.getElem?_eq_some_iff.1 found
    have after : a.set k w = { a with slots := a.slots.set k.idx { s with data := some w } } := by
      rw [GenArena.set, held]
    have written : (a.set k w).slots[k.idx]? = some { s with data := some w } := by
      rw [after]
      exact List.getElem?_set_self bound
    have others : ∀ i, i ≠ k.idx → (a.set k w).slots[i]? = a.slots[i]? := by
      intro i other
      rw [after]
      exact List.getElem?_set_ne (Ne.symm other)
    have room : (a.set k w).slots.length = a.slots.length := by rw [after, List.length_set]
    have count : (a.set k w).len = a.len := by rw [after]
    rw [if_pos (show (d.live k).isSome = true by rw [lit]; rfl)]
    refine ⟨?_, ?_, ?_, ?_, ?_, ?_, ?_⟩
    · intro j
      rw [get_set reads, stands.live]
      exact (Function.update_apply ..).symm
    · intro j member
      obtain ⟨s', read, old⟩ := stands.past j member
      by_cases same : j.idx = k.idx
      · obtain rfl := Option.some.inj (found.symm.trans ((congrArg _ same).symm.trans read))
        exact ⟨_, (congrArg _ same).trans written, old.imp_right fun now => ⟨now.1, rfl⟩⟩
      · exact ⟨s', (others _ same).trans read, old⟩
    · obtain ⟨l, chain, complete⟩ := stands.free
      have used : a.nextOf k.idx = none := by simp [nextOf, found, data]
      refine ⟨l, ?_, fun i s' read empty => ?_⟩
      · rw [show (a.set k w).freeHead = a.freeHead by rw [after]]
        refine chain.congr fun i member => ?_
        have other : i ≠ k.idx := fun same => chain.notMem_of_used used (same ▸ member)
        simp only [nextOf, others i other]
      · by_cases same : i = k.idx
        · rw [same, written] at read
          rw [← Option.some.inj read] at empty
          cases empty
        · exact complete i s' ((others i same).symm.trans read) empty
    · obtain ⟨keys, mem, counted⟩ := stands.counted
      refine ⟨keys, fun j => ?_, count.trans counted⟩
      show _ ↔ (Function.update d.live k (some w) j).isSome = true
      rw [mem, Function.update_apply]
      by_cases same : j = k
      · simp [same, lit]
      · simp [same]
    · have := stands.less.room
      rwa [room]
    · have := stands.less.few
      rwa [count]
    · intro i s' read
      by_cases same : i = k.idx
      · rw [same, written] at read
        rw [← Option.some.inj read]
        exact stands.less.young k.idx s found
      · exact stands.less.young i s' ((others i same).symm.trans read)

end GenArena

namespace WordArena

variable {T : Type}

/-- One operation in words is one of the map, as long as there is room for one. -/
theorem exec_chooses (left : Nat) (a : WordArena T) (d : Dict T) (op : ArenaOp T) (stands : a.abs.Stands (left + 1) d) :
    ∃ reply a' d', a.exec op = .ok (reply, a') ∧ Dict.Chooses d op reply d' ∧ a'.abs.Stands left d' := by
  have slots : a.slots.length + (left + 1) < SENTINEL := by
    rw [← List.length_map absSlot]
    exact stands.room
  have few : a.len + (left + 1) < SENTINEL := stands.few
  have live : ∀ k, a.get k = d.live k := fun k => (abs_get a k).symm.trans (stands.live k)
  cases op with
  | insert v =>
    obtain ⟨key, b, run, fresh, stands'⟩ := stands.insert v
    obtain ⟨a', run', rfl⟩ := abs_insert a (by omega) (by unfold SENTINEL at few; omega) run
    refine ⟨.key key, a', _, ?_, .insert v fresh, stands'⟩
    simp only [exec, run', bind, Except.bind]
    rfl
  | remove k =>
    have inside : (a.slot k).isSome → k.idx < SENTINEL ∧ 0 < a.len := by
      intro held
      obtain ⟨s, held⟩ := Option.isSome_iff_exists.1 held
      obtain ⟨found, filled⟩ := Option.filter_eq_some_iff.1 held
      obtain ⟨bound, -⟩ := List.getElem?_eq_some_iff.1 found
      obtain ⟨keys, mem, count⟩ := stands.counted
      have member : k ∈ keys := by
        rw [mem, ← live, ← contains_eq, contains, held]
        rfl
      refine ⟨by omega, ?_⟩
      rw [show a.len = keys.card from count]
      exact Finset.card_pos.2 ⟨k, member⟩
    obtain ⟨value, after⟩ := abs_remove a inside (by unfold SENTINEL at few; omega)
    obtain ⟨removed, stands'⟩ := stands.remove k
    refine ⟨.value (d.live k), _, _, ?_, .remove k, after ▸ stands'⟩
    simp only [exec, value, removed]
  | get k => exact ⟨_, a, d, by rw [exec, live], .get k, stands.less⟩
  | getMut k v =>
    have stands' := stands.set k v
    rw [← abs_set] at stands'
    exact ⟨_, a.set k v, _, by rw [exec, live], .getMut k v, stands'⟩
  | contains k => exact ⟨_, a, d, by rw [exec, contains_eq, live], .contains k, stands.less⟩

/-- The slots that the free list visits. -/
def Visits (a : WordArena T) (l : List Nat) : Prop := FreeChain a.abs.nextOf a.abs.freeHead l

theorem visits_of_stands {left : Nat} {a : WordArena T} {d : Dict T} (stands : a.abs.Stands left d) :
    ∃ l, a.Visits l ∧ l.Nodup ∧ ∀ i, i ∈ l ↔ ∃ s, a.slots[i]? = some s ∧ s.data = none := by
  obtain ⟨l, chain, complete⟩ := stands.free
  refine ⟨l, chain, chain.nodup, fun i => ⟨fun member => ?_, ?_⟩⟩
  · obtain ⟨next, free⟩ := Option.isSome_iff_exists.1 (chain.isSome_of_mem member)
    obtain ⟨s, read, -⟩ := Option.map_eq_some_iff.1 free
    obtain ⟨read, empty⟩ := Option.filter_eq_some_iff.1 read
    rw [getElem?_abs] at read
    obtain ⟨w, found, rfl⟩ := Option.map_eq_some_iff.1 read
    exact ⟨w, found, by simpa [absSlot] using empty⟩
  · rintro ⟨s, found, empty⟩
    refine complete i (absSlot s) ?_ empty
    rw [getElem?_abs, found]
    rfl

theorem abs_withCapacity {cap : Nat} (bound : cap ≤ SENTINEL) : (withCapacity cap : WordArena T).abs = GenArena.withCapacity cap :=
  abs_growTo new bound

/-- A run from an arena of `cap` slots is one of a map that hands out a fresh key with every insertion. No key comes
twice, none is known after it was removed, `len` counts the live keys, and the free list is the empty slots. -/
theorem run_is_map (start : WordArena T) (cap : Nat) (ops : List (ArenaOp T))
    (first : start = withCapacity cap ∨ start = new ∧ cap = 0) (bound : cap + ops.length < 2 ^ 32 - 1) :
    ∃ replies a d, run exec ops start = .ok (replies, a) ∧ Follows Dict.Chooses .empty ops replies d ∧
      (∀ k, a.get k = d.live k) ∧ (Dict.keysOf replies).Nodup ∧
      (∀ (i j : Nat) (k : Key) (v : T), i < j → ops[i]? = some (.remove k) → replies[i]? = some (.value (some v)) →
        ∀ op reply, ops[j]? = some op → replies[j]? = some reply → Dict.Misses k op reply) ∧
      (∃ keys : Finset Key, (∀ k, k ∈ keys ↔ (a.get k).isSome = true) ∧ a.len = keys.card) ∧
      ∃ l, a.Visits l ∧ l.Nodup ∧ ∀ i, i ∈ l ↔ ∃ s, a.slots[i]? = some s ∧ s.data = none := by
  have capacity : start = withCapacity cap := by
    rcases first with same | ⟨same, rfl⟩
    · exact same
    · rw [same]
      rfl
  have begins : start.abs.Stands ops.length .empty := by
    rw [capacity, abs_withCapacity (by unfold SENTINEL; omega)]
    exact GenArena.stands_withCapacity bound
  obtain ⟨replies, a, d, ran, follows, stands⟩ :=
    run_follows (fun n (a : WordArena T) d => a.abs.Stands n d) exec_chooses ops start .empty begins
  have live : ∀ k, a.get k = d.live k := fun k => (abs_get a k).symm.trans (stands.live k)
  refine ⟨replies, a, d, ran, follows, live, Dict.keysOf_nodup follows, ?_, ?_, visits_of_stands stands⟩
  · intro i j k v later asked removed op reply input answer
    exact Dict.misses_of_removed follows later asked removed input answer
  · obtain ⟨keys, mem, count⟩ := stands.counted
    exact ⟨keys, fun k => by rw [live, mem], count⟩

/-- A slot that is used again under the next generation. -/
theorem run_is_map_reuse : ∃ replies a d,
    run exec [.insert 'a', .remove ⟨0, 0⟩, .insert 'b', .get ⟨0, 0⟩, .get ⟨0, 1⟩] (withCapacity 2) = .ok (replies, a) ∧
      Follows Dict.Chooses .empty [.insert 'a', .remove ⟨0, 0⟩, .insert 'b', .get ⟨0, 0⟩, .get ⟨0, 1⟩] replies d ∧
      (∀ k, a.get k = d.live k) ∧ (Dict.keysOf replies).Nodup := by
  obtain ⟨replies, a, d, ran, follows, live, once, -⟩ := run_is_map (withCapacity 2) 2
    [.insert 'a', .remove ⟨0, 0⟩, .insert 'b', .get ⟨0, 0⟩, .get ⟨0, 1⟩] (.inl rfl) (by decide)
  exact ⟨replies, a, d, ran, follows, live, once⟩

end WordArena

end Radixox.Server
