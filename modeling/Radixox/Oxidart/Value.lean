import Mathlib.Data.List.AList
import Mathlib.Data.Prod.Lex
import Mathlib.Data.List.Lex
import Mathlib.Order.Basic
import Radixox.Lib.Assoc
import Radixox.Lib.SortedSet
import Radixox.Oxidart.Store

/-!
# Values

The typed values of `value.rs` with the two container representations of
`hcommand.rs` and `zcommand.rs`. A `HashMap` is an association list with distinct
keys; the order in which it is iterated is a parameter (`HashOrder`). A `BTreeSet` is a
sorted list. A score is a value of the total order of `OrderedFloat` with an
opaque addition and an opaque text.
-/

namespace Radixox.Oxidart
set_option autoImplicit false
open Radixox.Assoc

instance linearOrderUInt8 : LinearOrder UInt8 where
  le_refl := UInt8.le_refl
  le_trans _ _ _ := UInt8.le_trans
  lt_iff_le_not_ge a b := by
    rw [UInt8.lt_iff_toNat_lt, UInt8.le_iff_toNat_le, UInt8.le_iff_toNat_le]
    omega
  le_antisymm _ _ := UInt8.le_antisymm
  le_total := UInt8.le_total
  toDecidableLE := inferInstance
  toDecidableEq := inferInstance
  toDecidableLT := inferInstance

/-! ## Errors and types -/

inductive RedisType where
  | none | string | hash | list | set | zset
deriving DecidableEq, Repr

inductive TypeError where
  | valueNotSet | notAInt
deriving DecidableEq, Repr

inductive IntError where
  | notAnInteger | overflow
deriving DecidableEq, Repr

/-! ## Integers and their text -/

/-- `i64::checked_add`. -/
def checkedAdd (a b : Int64) : Option Int64 :=
  let sum := a.toInt + b.toInt
  if -2 ^ 63 ≤ sum ∧ sum < 2 ^ 63 then some (Int64.ofInt sum) else none

/-- The digits of a number, most significant first; `none` at a byte that is no digit. -/
def parseDigits : Bytes → Nat → Option Nat
  | [], acc => some acc
  | b :: rest, acc => if 48 ≤ b ∧ b ≤ 57 then parseDigits rest (acc * 10 + (b.toNat - 48)) else none

/-- `str::parse::<i64>` after `from_utf8`: an optional sign, at least one digit, no overflow. A byte string
that is not UTF-8 has a byte that is no digit. -/
def parseI64 (bytes : Bytes) : Option Int64 :=
  let (negative, digits) := match bytes with
    | 43 :: rest => (false, rest)
    | 45 :: rest => (true, rest)
    | _ => (false, bytes)
  if digits.isEmpty then none
  else do
    let n ← parseDigits digits 0
    let value : Int := if negative then -n else n
    if -2 ^ 63 ≤ value ∧ value < 2 ^ 63 then some (Int64.ofInt value) else none

/-- `i64::to_string`. -/
def i64Text (n : Int64) : Bytes :=
  let digits := (Nat.toDigits 10 n.toInt.natAbs).map fun c => UInt8.ofNat c.toNat
  if n.toInt < 0 then 45 :: digits else digits

/-! ## Hashes -/

abbrev HashMap (β : Type) := AList (fun _ : Bytes => β)

/-- The order in which a `HashMap` is iterated: some order of its entries. -/
structure HashOrder where
  enum : List (Bytes × Bytes) → List (Bytes × Bytes)
  enum_perm : ∀ l, (enum l).Perm l

/-- The entries as the list holds them. -/
def HashOrder.stored : HashOrder := ⟨id, fun l => .refl l⟩

def HashMap.pairs {β : Type} (m : HashMap β) : List (Bytes × β) := m.entries.map fun e => (e.1, e.2)

def THRESHOLD : Nat := 16

inductive InnerHCommand where
  | small (vec : List (Bytes × Bytes))
  | large (map : HashMap Bytes)

namespace InnerHCommand

def new : InnerHCommand := .small []

/-- Insert or update a field. True if newly inserted, false if updated. -/
def insert (h : InnerHCommand) (field value : Bytes) : Bool × InnerHCommand :=
  match h with
  | small vec => match vec.findIdx? (fun p => p.1 = field) with
    | some i => (false, small (vec.set i (field, value)))
    | none =>
      if vec.length ≥ THRESHOLD then
        let map : HashMap Bytes := vec.foldl (fun m p => m.insert p.1 p.2) ∅
        (true, large (map.insert field value))
      else (true, small (vec ++ [(field, value)]))
  | large map => ((map.lookup field).isNone, large (map.insert field value))

def len : InnerHCommand → Nat
  | small vec => vec.length
  | large map => map.keys.length

def isEmpty (h : InnerHCommand) : Bool := h.len == 0

def get (h : InnerHCommand) (field : Bytes) : Option Bytes :=
  match h with
  | small vec => vec.lookup field
  | large map => map.lookup field

/-- Remove a field and return its value. -/
def del (h : InnerHCommand) (field : Bytes) : Option Bytes × InnerHCommand :=
  match h with
  | small vec => match removeKey vec field with
    | some (value, rest) => (some value, small rest)
    | none => (none, small vec)
  | large map => (map.lookup field, large (map.erase field))

/-- Remove a field; true if it was there. -/
def discard (h : InnerHCommand) (field : Bytes) : Bool × InnerHCommand :=
  let (old, h) := h.del field
  (old.isSome, h)

def containsKey (h : InnerHCommand) (field : Bytes) : Bool := (h.get field).isSome

/-- The field-value pairs in iteration order. -/
def iter (order : HashOrder) : InnerHCommand → List (Bytes × Bytes)
  | small vec => vec
  | large map => order.enum (HashMap.pairs map)

def all (order : HashOrder) (h : InnerHCommand) : List Bytes := (h.iter order).flatMap fun p => [p.1, p.2]

def keys (order : HashOrder) (h : InnerHCommand) : List Bytes := (h.iter order).map Prod.fst

def values (order : HashOrder) (h : InnerHCommand) : List Bytes := (h.iter order).map Prod.snd

end InnerHCommand

/-! ## Sorted sets -/

/-- `f64` under the total order of `OrderedFloat`; its addition and its text are opaque. -/
class Score (S : Type) extends LinearOrder S where
  add : S → S → S
  text : S → Bytes

/-- Whole scores, written without a fraction as `f64` writes them. -/
instance : Score Int where
  add := (· + ·)
  text n := (toString n).toUTF8.toList

/-- `(score, member)`, ordered by score, then by member. -/
abbrev ZItem (S : Type) := S ×ₗ Bytes

namespace ZItem

variable {S : Type}

def mk (score : S) (member : Bytes) : ZItem S := toLex (score, member)

def score (x : ZItem S) : S := (ofLex x).1

def member (x : ZItem S) : Bytes := (ofLex x).2

end ZItem

/-- ZSet with double indexing: the sorted pairs and the score of each member. -/
structure ZSetInner (S : Type) [Score S] where
  sorted : SortedSet (ZItem S)
  scores : HashMap S

namespace ZSetInner

variable {S : Type} [Score S]

/-- Insert or update a member. True if the member is new. -/
def insert (z : ZSetInner S) (score : S) (member : Bytes) : Bool × ZSetInner S :=
  let put (sorted : SortedSet (ZItem S)) : Bool × ZSetInner S :=
    ((z.scores.lookup member).isNone, ⟨(sorted.insert (.mk score member)).2, z.scores.insert member score⟩)
  match z.scores.lookup member with
  | some oldScore => if oldScore ≠ score then put (z.sorted.remove (.mk oldScore member)).2 else (false, z)
  | none => put z.sorted

def remove (z : ZSetInner S) (member : Bytes) : Bool × ZSetInner S :=
  match z.scores.lookup member with
  | some score => (true, ⟨(z.sorted.remove (.mk score member)).2, z.scores.erase member⟩)
  | none => (false, z)

def score (z : ZSetInner S) (member : Bytes) : Option S := z.scores.lookup member

def len (z : ZSetInner S) : Nat := z.scores.keys.length

end ZSetInner

inductive InnerZCommand (S : Type) [Score S] where
  | small (vec : List (ZItem S))
  | large (zset : ZSetInner S)

namespace InnerZCommand

variable {S : Type} [Score S]

def new : InnerZCommand S := .small []

/-- Insert or update a member with a score. True if this is a new member. -/
def insert (z : InnerZCommand S) (score : S) (member : Bytes) : Bool × InnerZCommand S :=
  match z with
  | small vec => match vec.findIdx? (fun x => x.member = member) with
    | some pos =>
      if (vec[pos]?).map ZItem.score = some score then (false, small vec)
      else (false, small (insertSorted (vec.eraseIdx pos) (.mk score member)))
    | none =>
      if vec.length ≥ THRESHOLD then
        let scores : HashMap S := vec.foldl (fun m x => m.insert x.member x.score) ∅
        let sorted : SortedSet (ZItem S) := vec.foldl (fun s x => (s.insert x).2) .empty
        (true, large ⟨(sorted.insert (.mk score member)).2, scores.insert member score⟩)
      else (true, small (insertSorted vec (.mk score member)))
  | large zset =>
    let (new, zset) := zset.insert score member
    (new, large zset)

/-- Remove a member. True if the member existed. -/
def remove (z : InnerZCommand S) (member : Bytes) : Bool × InnerZCommand S :=
  match z with
  | small vec => match vec.findIdx? (fun x => x.member = member) with
    | some pos => (true, small (vec.eraseIdx pos))
    | none => (false, small vec)
  | large zset =>
    let (found, zset) := zset.remove member
    (found, large zset)

def score (z : InnerZCommand S) (member : Bytes) : Option S :=
  match z with
  | small vec => (vec.find? (fun x => x.member = member)).map ZItem.score
  | large zset => zset.score member

def len : InnerZCommand S → Nat
  | small vec => vec.length
  | large zset => zset.len

def isEmpty (z : InnerZCommand S) : Bool := z.len == 0

/-- The members in ascending score order. -/
def iter : InnerZCommand S → List (ZItem S)
  | small vec => vec
  | large zset => zset.sorted.items

end InnerZCommand

/-! ## `Value` -/

inductive Value (S : Type) [Score S] where
  | string (bytes : Bytes)
  | int (n : Int64)
  | hash (inner : InnerHCommand)
  | list (items : List Bytes)
  | set (members : SortedSet Bytes)
  | zset (inner : InnerZCommand S)

namespace Value

variable {S : Type} [Score S]

def redisType : Value S → RedisType
  | string _ => .string
  | int _ => .string
  | hash _ => .hash
  | list _ => .list
  | set _ => .set
  | zset _ => .zset

def asHash : Value S → Except RedisType InnerHCommand
  | hash inner => .ok inner
  | v => .error v.redisType

def asSet : Value S → Except RedisType (SortedSet Bytes)
  | set members => .ok members
  | v => .error v.redisType

def asZset : Value S → Except RedisType (InnerZCommand S)
  | zset inner => .ok inner
  | v => .error v.redisType

/-- `NodeValMut::incr`: the new integer, which also becomes the value. -/
def incr (v : Value S) (delta : Int64) : Except IntError Int64 := do
  let current ← match v with
    | int n => .ok n
    | string bytes => match parseI64 bytes with
      | some n => .ok n
      | none => .error .notAnInteger
    | _ => .error .notAnInteger
  match checkedAdd current delta with
  | some n => .ok n
  | none => .error .overflow

end Value

end Radixox.Oxidart
