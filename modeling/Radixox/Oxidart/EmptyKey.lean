import Radixox.Oxidart.Operations

/-!
# The empty key

The empty key lives in the root. Clearing it recompresses the root, and a root with a single
child absorbs that child: the bytes up to the child then vanish from every
key. This module says exactly when an operation on the empty key leaves the others alone.
-/

namespace Radixox.Oxidart
set_option autoImplicit false
open Radixox.Runs Radixox.PathForest

namespace OxidArt

variable {P : Policy} {V : Type} {st st₁ st' : OxidArt P V} {cut : List Nat} {path : Nat → Option Bytes}

/-- The reply of a call, without the state. -/
def replyOf {α : Type} (run : Exec (α × OxidArt P V)) : Exec α := run.map Prod.fst

/-- `get` shows the live value of every key, the empty one included. -/
theorem get_reply (I : Inv st cut path) (key : Bytes) : replyOf (st.get key) = .ok ((st.live key).map Prod.fst) := by
  by_cases empty : key = []
  · subst empty
    obtain ⟨root, found⟩ := I.root_node
    simp only [get, getIdx, List.isEmpty_nil, if_true, getNode_ok found, bind, Except.bind]
    cases past : root.isExpired st.now with
    | true =>
      obtain ⟨st', path', run, -⟩ := clearRoot_ok I found
      simp only [if_true, run]
      rw [I.live_of_expired found past I.forest.rootPath]
      rfl
    | false =>
      simp only [Bool.false_eq_true, if_false, pure, Except.pure, getNode_ok found]
      rw [I.getValue_eq found I.forest.rootPath]
      rfl
  · obtain ⟨st', path', run, -⟩ := get_ok I empty
    rw [run]
    rfl

/-! ## What clearing the root does -/

/-- The root lost its value; with a single child, every key also lost the way to it. -/
structure ClearedRoot (st : OxidArt P V) (path : Nat → Option Bytes) (root : Node V) (st' : OxidArt P V) : Prop where
  stays : Stays st st'
  sound : IsSound st'
  none : root.getSingleChild = none → st'.entry = Function.update st.entry [] none
  single : ∀ r y, root.getSingleChild = some (r, y) → ∃ p, p ≠ [] ∧
    (∀ i k, path i = some k → i ≠ st.rootIdx → p <+: k) ∧ st'.entry = fun k => st.entry (p ++ k)

theorem clearedRoot (I : Inv st [] path) {root : Node V} (found : st.tryGetNode st.rootIdx = some root) :
    ∃ st', (st.setNode st.rootIdx root.clearVal).tryRecompress st.rootIdx = .ok st' ∧ ClearedRoot st path root st' := by
  obtain ⟨st', path', run, I', stays, none', single⟩ := clearRoot_ok I found
  refine ⟨st', run, stays, ⟨path', I'⟩, fun h => (none' h).2.2, ?_⟩
  intro r y h
  obtain ⟨p, nonempty, -, below, entries⟩ := single r y h
  exact ⟨p, nonempty, below, entries⟩

/-- Writing the root first makes no difference to the other keys. -/
theorem ClearedRoot.of_write {root root₁ : Node V} {e : Option (V × Option Nat)}
    (stays : Stays st st₁) (entries : st₁.entry = Function.update st.entry [] e) (links : root₁.getSingleChild = root.getSingleChild)
    (C : ClearedRoot st₁ path root₁ st') : ClearedRoot st path root st' := by
  refine ⟨stays.trans C.stays, C.sound, ?_, ?_⟩
  · intro none'
    rw [C.none (links.trans none'), entries, Function.update_idem]
  · intro r y single
    obtain ⟨p, nonempty, below, entries'⟩ := C.single r y (links.trans single)
    refine ⟨p, nonempty, fun i k at' inner => below i k at' (stays.rootIdx ▸ inner), ?_⟩
    rw [entries', entries]
    funext k
    exact Function.update_of_ne (by simp [nonempty]) _ _

/-- The other keys show what they showed, and the empty key shows nothing. -/
def Untouched (st st' : OxidArt P V) : Prop :=
  (∀ key, key ≠ [] → replyOf (st'.get key) = replyOf (st.get key)) ∧ replyOf (st'.get []) = .ok none

/-- Clearing the root leaves the others alone exactly when it has no single child or no other key is live. -/
theorem ClearedRoot.untouched_iff (I : Inv st [] path) {root : Node V} (C : ClearedRoot st path root st') :
    Untouched st st' ↔ root.getSingleChild = Option.none ∨ ∀ key, key ≠ [] → st.live key = Option.none := by
  obtain ⟨path', I'⟩ := C.sound
  have seen : ∀ key, st'.live key = liveAt st.now (st'.entry key) := fun key => by rw [live, C.stays.now]
  have reply : Untouched st st' ↔ (∀ key, key ≠ [] → (st'.live key).map Prod.fst = (st.live key).map Prod.fst) ∧
      st'.live [] = Option.none := by
    unfold Untouched
    simp only [get_reply I, get_reply I', Except.ok.injEq, Option.map_eq_none_iff]
  rw [reply]
  cases single : root.getSingleChild with
  | none =>
    refine ⟨fun _ => .inl rfl, fun _ => ?_⟩
    have entries := C.none single
    constructor
    · intro key nonempty
      rw [seen, entries, Function.update_of_ne nonempty]
      rfl
    · rw [seen, entries, Function.update_self]
      rfl
  | some link =>
    obtain ⟨r, y⟩ := link
    obtain ⟨p, nonempty, below, entries⟩ := C.single r y single
    have moved : ∀ key, st'.live key = st.live (p ++ key) := fun key => by rw [seen, entries]; rfl
    constructor
    · rintro ⟨same, gone⟩
      -- A live key is behind `p`; without `p` it is live again, and shorter.
      have dead : ∀ n key, key ≠ [] → key.length = n → st.live key = Option.none := by
        intro n
        induction n using Nat.strongRecOn with
        | ind n ih =>
          intro key inner length
          cases held : st.live key with
          | none => rfl
          | some c =>
            obtain ⟨i, at', -⟩ := I.entry_iff.1 (Option.filter_eq_some_iff.1 held).1
            have notRoot : i ≠ st.rootIdx := by
              rintro rfl
              exact inner (Option.some.inj (at'.symm.trans I.forest.rootPath))
            obtain ⟨t, rfl⟩ := below i key at' notRoot
            rw [← moved] at held
            by_cases short : t = []
            · rw [short, gone] at held
              cases held
            · have shorter : t.length < n := by
                have := List.length_pos_of_ne_nil nonempty
                simp only [List.length_append] at length
                omega
              have := same t short
              rw [ih t.length shorter t short rfl, held] at this
              cases this
      exact .inr fun key inner => dead _ key inner rfl
    · rintro (none' | dead)
      · cases none'
      · refine ⟨fun key inner => ?_, ?_⟩
        · rw [moved, dead key inner, dead (p ++ key) (by simp [nonempty])]
        · rw [moved, dead (p ++ []) (by simpa using nonempty)]

/-! ## The operations that clear the root -/

theorem del_empty (I : Inv st [] path) {root : Node V} (found : st.tryGetNode st.rootIdx = some root) :
    ∃ st', st.del [] = .ok (root.val, st') ∧ ClearedRoot st path root st' := by
  obtain ⟨st', run, C⟩ := clearedRoot I found
  refine ⟨st', ?_, C⟩
  simp only [del, List.isEmpty_nil, if_true, getNode_ok found, run, bind, Except.bind]
  rfl

theorem get_empty_expired (I : Inv st [] path) {root : Node V} (found : st.tryGetNode st.rootIdx = some root)
    (past : root.isExpired st.now = true) : ∃ st', st.get [] = .ok (none, st') ∧ ClearedRoot st path root st' := by
  obtain ⟨st', run, C⟩ := clearedRoot I found
  refine ⟨st', ?_, C⟩
  simp only [get, getIdx, List.isEmpty_nil, if_true, getNode_ok found, past, run, bind, Except.bind]
  rfl

section Typed

variable {S : Type} [Score S] {C : Type} {st st' : OxidArt P (Value S)} {order : HashOrder}

/-- A removing command that empties the collection at the empty key. -/
theorem removeFrom_empty (view : Value S → Except RedisType C) (I : Inv st [] path) {root : Node (Value S)}
    (found : st.tryGetNode st.rootIdx = some root) {v : Value S} {e : Option Nat} {c : C} (held : st.live [] = some (v, e))
    (ok : view v = .ok c) (wrap : C → Value S) (remove : C → Bytes → Bool × C) {isEmpty : C → Bool} {items : List Bytes}
    (emptied : isEmpty (countLoop remove c items).2 = true) :
    ∃ reply st', st.removeFrom [] view wrap remove isEmpty items = .ok (reply, st') ∧ ClearedRoot st path root st' := by
  have getMut : st.getMut [] = .ok (some (st.rootIdx, v), st) ∧ Holds st path [] st.rootIdx v e := by
    rcases I.holds_or_dead found I.forest.rootPath with ⟨w, value, H⟩ | ⟨-, dead⟩
    · obtain ⟨rfl, same⟩ := Prod.mk.inj (Option.some.inj ((H.live I).symm.trans held))
      refine ⟨?_, same ▸ H⟩
      have current : root.isExpired st.now = false := by rw [Node.isExpired_eq]; exact H.current
      simp only [OxidArt.getMut, getIdx, List.isEmpty_nil, if_true, getNode_ok found, current, Bool.false_eq_true, if_false,
        bind, Except.bind, pure, Except.pure, value, Option.map_some]
    · rw [dead] at held
      cases held
  obtain ⟨fetched, H⟩ := getMut
  obtain ⟨rest, eq⟩ : ∃ rest, rest = (countLoop remove c items).2 := ⟨_, rfl⟩
  obtain ⟨st₁, put, step, -, entries⟩ := putVal_holds I (fun _ => True) H (wrap rest)
  obtain ⟨root₁, found₁⟩ := step.inv.root_node
  have links : root₁.getSingleChild = root.getSingleChild := by
    obtain rfl : st₁ = st.setNode st.rootIdx { root with val := some (wrap rest) } := by
      simp only [putVal, getNode_ok found, bind, Except.bind] at put
      exact (Except.ok.inj put).symm
    change (st.setNode st.rootIdx { root with val := some (wrap rest) }).tryGetNode st.rootIdx = some root₁ at found₁
    rw [tryGetNode_setNode, if_pos rfl, found] at found₁
    obtain rfl := Option.some.inj found₁
    rfl
  obtain ⟨st', del, C⟩ := del_empty step.inv found₁
  refine ⟨.ok (countLoop remove c items).1, st', ?_, C.of_write step.stays entries links⟩
  rw [← eq] at emptied
  simp only [removeFrom, fetched, ok, ← eq, put, emptied, if_true, del, bind, Except.bind]
  rfl

end Typed

end OxidArt

open OxidArt

section Typed

variable {P : Policy} {S : Type} [Score S]

/-- The operations on the empty key that clear the root: its deletion, a look at an expired entry, and the removal of the
last item of a collection. -/
inductive Command.ClearsRoot (st : OxidArt P (Value S)) : Command S → Prop
  | del : ClearsRoot st (.tree (.del []))
  | get {root : Node (Value S)} (found : st.tryGetNode st.rootIdx = some root) (past : root.isExpired st.now = true) :
      ClearsRoot st (.tree (.get []))
  | hdel {inner : InnerHCommand} {e : Option Nat} {fields : List Bytes} (held : st.live [] = some (.hash inner, e))
      (emptied : (countLoop InnerHCommand.discard inner fields).2.isEmpty = true) : ClearsRoot st (.hdel [] fields)
  | srem {set : SortedSet Bytes} {e : Option Nat} {members : List Bytes} (held : st.live [] = some (.set set, e))
      (emptied : (countLoop SortedSet.remove set members).2.isEmpty = true) : ClearsRoot st (.srem [] members)
  | zrem {zset : InnerZCommand S} {e : Option Nat} {members : List Bytes} (held : st.live [] = some (.zset zset, e))
      (emptied : (countLoop InnerZCommand.remove zset members).2.isEmpty = true) : ClearsRoot st (.zrem [] members)

end Typed

namespace OxidArt

section Typed

variable {P : Policy} {S : Type} [Score S] {st : OxidArt P (Value S)} {order : HashOrder}

/-- An operation that clears the root leaves the other keys alone, and the empty key empty, exactly when the root has no
single child or no other key is live. -/
theorem clearsRoot_untouched_iff (reached : Reachable order st) {root : Node (Value S)}
    (found : st.tryGetNode st.rootIdx = some root) {c : Command S} (clears : c.ClearsRoot st) :
    (∃ reply st', exec order st c = .ok (reply, st') ∧ Untouched st st') ↔
      root.getSingleChild = none ∨ ∀ key, key ≠ [] → st.live key = none := by
  obtain ⟨path, I⟩ := reached.isSound
  obtain ⟨reply, st', ran, C⟩ : ∃ reply st', exec order st c = .ok (reply, st') ∧ ClearedRoot st path root st' := by
    cases clears with
    | del =>
      obtain ⟨st', run, C⟩ := del_empty I found
      exact ⟨_, st', by simp only [exec, execTree, wrapReply, run]; rfl, C⟩
    | get found' past =>
      obtain rfl := Option.some.inj (found'.symm.trans found)
      obtain ⟨st', run, C⟩ := get_empty_expired I found past
      exact ⟨_, st', by simp only [exec, execTree, wrapReply, run]; rfl, C⟩
    | hdel held emptied =>
      obtain ⟨r, st', run, C⟩ := removeFrom_empty Value.asHash I found held rfl .hash _ emptied
      exact ⟨_, st', by simp only [exec, cmdHdel, wrapReply, run]; rfl, C⟩
    | srem held emptied =>
      obtain ⟨r, st', run, C⟩ := removeFrom_empty Value.asSet I found held rfl .set _ emptied
      exact ⟨_, st', by simp only [exec, cmdSrem, wrapReply, run]; rfl, C⟩
    | zrem held emptied =>
      obtain ⟨r, st', run, C⟩ := removeFrom_empty Value.asZset I found held rfl .zset _ emptied
      exact ⟨_, st', by simp only [exec, cmdZrem, wrapReply, run]; rfl, C⟩
  rw [← C.untouched_iff I]
  constructor
  · rintro ⟨reply', st'', ran', untouched⟩
    obtain ⟨-, rfl⟩ := Prod.mk.inj (Except.ok.inj (ran.symm.trans ran'))
    exact untouched
  · exact fun untouched => ⟨reply, st', ran, untouched⟩

end Typed

/-- With two children, the deletion of the empty key is harmless. -/
theorem clearsRoot_untouched_iff_twoKeys : ∃ replies st,
    run (exec .stored) [.tree (.set [97] (.int 1)), .tree (.set [98] (.int 2))] (new : OxidArt .lowest (Value Int)) =
      .ok (replies, st) ∧
    ∃ reply st', exec .stored st (.tree (.del [])) = .ok (reply, st') ∧ Untouched st st' := by
  have sound : Meets (exec .stored) (fun st c => c.Sound st) [.tree (.set [97] (.int 1)), .tree (.set [98] (.int 2))]
    (new : OxidArt .lowest (Value Int)) := by decide +kernel
  exact ⟨_, _, rfl, (clearsRoot_untouched_iff (.run .refl sound rfl) rfl .del).2 (.inl rfl)⟩

/-- With one, the deletion of the empty key moves the only other value to it. -/
theorem del_empty_moves_key : ∃ replies st,
    run (exec .stored) [.tree (.set [97, 98] (.int 1))] (new : OxidArt .lowest (Value Int)) = .ok (replies, st) ∧
    Reachable .stored st ∧ replyOf (st.get [97, 98]) = .ok (some (.int 1)) ∧
    ∃ reply st', exec .stored st (.tree (.del [])) = .ok (reply, st') ∧ replyOf (st'.get [97, 98]) = .ok none ∧
      replyOf (st'.get []) = .ok (some (.int 1)) := by
  have sound : Meets (exec .stored) (fun st c => c.Sound st) [.tree (.set [97, 98] (.int 1))]
    (new : OxidArt .lowest (Value Int)) := by decide +kernel
  exact ⟨_, _, rfl, .run .refl sound rfl, rfl, _, _, rfl, rfl, rfl⟩

end OxidArt

end Radixox.Oxidart
