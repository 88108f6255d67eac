import Radixox.Lib.Outcomes
import Radixox.Oxidart.Interleaving

/-!
# Chunked deletion among other tasks

`deln_async` cuts a subtree and frees it in chunks; its stack holds the indices of the
detached trees. While the links into them are all gone, other tasks cannot
reach them, and the tree they see is the one a deletion at once would have left. Three
things break this: the root keeps its overflow slot when the empty prefix is cut, the
evictor follows the parent link of a node that is already detached, and it spends its
samples on such nodes, which shows when the clock is set back.
-/

namespace Radixox.Oxidart
set_option autoImplicit false
open Radixox.Runs Radixox.PathForest Radixox.Outcomes OxidArt

/-- What a future of `deln_async` has still to free. -/
def Poll.detached {α : Type} : Poll DelnTask α → List Nat
  | .pending task => task.stack
  | .ready _ => []

/-- An operation of another task is orderly; a poll always is. -/
def Turn.Orderly {P : Policy} {V τ α : Type} (s : Interleaved P V τ α) : Turn V → Prop
  | .op o => o.Orderly s.store
  | .poll => True

namespace OxidArt

variable {P : Policy} {V : Type} {st : OxidArt P V} {budget : Nat} {path : Nat → Option Bytes}

/-- Readers of `st` see under every key without the prefix, and under every key written since, what the map
shows that deletes the keys with the prefix at once and then takes the same operations. -/
def KeepsOthers (before : OxidArt P V) (pfx : Bytes) (ops : List (TreeOp V)) (st : OxidArt P V) : Prop :=
  ∀ k, ¬ pfx <+: k ∨ k ∈ TreeOp.written ops →
    replyOf (st.get k) = .ok ((ops.foldl Ref.next (before.asRef.next (.deln pfx))).get k)

/-- A poll frees detached nodes and shows readers nothing. -/
theorem pollDeln_ok (budget : Nat) (task : DelnTask) (I : Inv st task.stack path) :
    ∃ future st' path', st.pollDeln budget task = .ok (future, st') ∧ Inv st' future.detached path' ∧ st'.asRef = st.asRef := by
  obtain ⟨count, stack, st₁, chunk⟩ : ∃ count stack st₁, st.freeChunk task.stack budget = (count, stack, st₁) := ⟨_, _, _, rfl⟩
  have I₀ : Inv st ([] ++ task.stack) path := I
  obtain ⟨I₁, F, -⟩ := freeLoop_inv (st.freeFuel task.stack) (some budget) st task.stack 0 I₀
  unfold freeChunk at chunk
  rw [chunk] at I₁ F
  have entries : st₁.entry = st.entry := entry_of_detached I I₁ rfl fun _ _ live => F.contents live
  have unseen : st₁.asRef = st.asRef := by rw [asRef, asRef, entries, F.stays.now]
  simp only [pollDeln, freeChunk, chunk, bind, Except.bind, pure, Except.pure]
  by_cases empty : stack = []
  · subst empty
    simp only [List.isEmpty_nil, if_true]
    by_cases top : task.parentIdx = st₁.rootIdx
    · simp only [ne_eq, top, not_true_eq_false, if_false]
      exact ⟨_, st₁, path, rfl, I₁, unseen⟩
    · obtain ⟨st₂, path₂, run, S, same, -⟩ := tryRecompress_ok I₁ top
      simp only [ne_eq, top, not_false_eq_true, if_true, run]
      exact ⟨_, st₂, path₂, rfl, S.inv, by rw [← unseen, asRef, asRef, same, S.stays.now]⟩
  · have filled : stack.isEmpty = false := by simpa using empty
    simp only [filled, Bool.false_eq_true, if_false]
    exact ⟨_, st₁, path, rfl, I₁, unseen⟩

/-- The first poll: the cut deletes the keys with the prefix at once, for every other reader. -/
theorem startDeln_ok (budget : Nat) (I : Inv st [] path) {pfx : Bytes} (inline : pfx = [] → RootInline st) :
    ∃ future st' path', st.startDeln budget pfx = .ok (future, st') ∧ Inv st' future.detached path' ∧
      st'.asRef.AgreesOn (fun k => ¬ pfx <+: k) (st.asRef.next (.deln pfx)) := by
  -- After the cut, a poll follows unless there is nothing to free.
  have polls : ∀ {stack : List Nat} {parentIdx initial : Nat} {st₁ : OxidArt P V} {path₁ : Nat → Option Bytes},
      st.findAndCutPrefix pfx = .ok ((stack, parentIdx, initial), st₁) → Inv st₁ stack path₁ →
      st₁.asRef.AgreesOn (fun k => ¬ pfx <+: k) (st.asRef.next (.deln pfx)) →
      ∃ future st' path', st.startDeln budget pfx = .ok (future, st') ∧ Inv st' future.detached path' ∧
        st'.asRef.AgreesOn (fun k => ¬ pfx <+: k) (st.asRef.next (.deln pfx)) := by
    intro stack parentIdx initial st₁ path₁ severed I₁ agrees
    by_cases empty : stack = []
    · subst empty
      exact ⟨.ready initial, st₁, path₁, by simp only [startDeln, severed, bind, Except.bind]; rfl, I₁, agrees⟩
    · have filled : stack.isEmpty = false := by simpa using empty
      obtain ⟨future, st', path', run, I', unseen⟩ := pollDeln_ok budget ⟨stack, parentIdx, initial⟩ I₁
      refine ⟨future, st', path', ?_, I', by rw [unseen]; exact agrees⟩
      simp only [startDeln, severed, bind, Except.bind, filled, Bool.false_eq_true, if_false, run]
  by_cases top : pfx = []
  · subst top
    obtain ⟨root, found⟩ := I.root_node
    have severed : st.findAndCutPrefix [] = .ok ((st.collectChildIndices st.rootIdx, st.rootIdx,
        if (root.getValue st.now).isSome then 1 else 0), st.setNode st.rootIdx { root with childs := .default }) := by
      simp only [findAndCutPrefix, List.isEmpty_nil, if_true, getNode_ok found, bind, Except.bind]
      rfl
    refine polls severed (I.stripRoot found { root with childs := .default } rfl rfl (inline rfl root found) rfl) (.of_table rfl ?_)
    exact fun k outside => absurd List.nil_prefix outside
  · have severed := st.findAndCutPrefix_of_cutPoint top
    cases target : st.cutPoint pfx with
    | none =>
      rw [target] at severed
      refine polls severed I (.of_table rfl fun k outside => ?_)
      show st.entry k = if pfx <+: k then none else st.entry k
      rw [if_neg outside]
    | some link =>
      obtain ⟨y, p, r⟩ := link
      rw [target] at severed
      obtain ⟨q, child, at', edge, found, below⟩ := I.cutPoint_some top target
      obtain ⟨I₁, -, contents, stays⟩ := I.cutLink edge at' found
      refine polls severed I₁ (.of_table stays.now fun k outside => ?_)
      show (st.removeChild p r).entry k = if pfx <+: k then none else st.entry k
      rw [if_neg outside, entry_of_cut I I₁ rfl fun j k _ => contents j]
      show (if q ++ r :: child.compression <+: k then none else st.entry k) = st.entry k
      cases held : st.entry k with
      | none => exact ite_self _
      | some c =>
        obtain ⟨i, live, -⟩ := I.entry_iff.1 held
        exact if_neg fun inside => outside ((below i k live).2 inside)

/-- One turn keeps the detached trees detached, and the map agreeing. -/
theorem turn_agrees (budget : Nat) {K : Bytes → Prop} {s : Interleaved P V DelnTask Nat} {ref : Ref V} {t : Turn V}
    (inv : ∃ path, Inv s.store s.future.detached path) (agrees : s.store.asRef.AgreesOn K ref) (orderly : t.Orderly s) :
    ∃ reply s', s.turn (pollDeln budget) t = .ok (reply, s') ∧ (∃ path, Inv s'.store s'.future.detached path) ∧
      s'.store.asRef.AgreesOn (fun k => K k ∨ k ∈ TreeOp.written (Turn.operations [t]))
        ((Turn.operations [t]).foldl Ref.next ref) := by
  obtain ⟨path, I⟩ := inv
  cases t with
  | op o =>
    obtain ⟨reply, st', path', run, I', shows⟩ := execTree_orderly I orderly
    have agrees' := (shows.mono fun _ _ => trivial).trans (agreesOn_next orderly agrees)
    refine ⟨some reply, { s with store := st' }, ?_, ⟨path', I'⟩, agrees'.mono fun k inside => ?_⟩
    · simp only [Interleaved.turn, run, bind, Except.bind]
      rfl
    · refine inside.imp id fun member => ?_
      obtain ⟨o', listed, writes⟩ := List.mem_filterMap.1 member
      obtain rfl : o' = o := List.mem_singleton.1 listed
      exact writes
  | poll =>
    have agrees' : ∀ {st : OxidArt P V}, st.asRef = s.store.asRef →
        st.asRef.AgreesOn (fun k => K k ∨ k ∈ TreeOp.written (Turn.operations ([.poll] : List (Turn V)))) ref := by
      intro st unseen
      rw [unseen]
      exact agrees.mono fun k inside => inside.resolve_right List.not_mem_nil
    cases future : s.future with
    | pending task =>
      rw [future] at I
      obtain ⟨next, st', path', run, I', unseen⟩ := pollDeln_ok budget task I
      refine ⟨none, ⟨st', next⟩, ?_, ⟨path', I'⟩, agrees' unseen⟩
      simp only [Interleaved.turn, future, run, bind, Except.bind]
      rfl
    | ready count =>
      refine ⟨none, s, ?_, ⟨path, I⟩, agrees' rfl⟩
      simp only [Interleaved.turn, future]

/-- So does a run. -/
theorem run_agrees (turns : List (Turn V)) : ∀ {K : Bytes → Prop} {s : Interleaved P V DelnTask Nat} {ref : Ref V},
    (∃ path, Inv s.store s.future.detached path) → s.store.asRef.AgreesOn K ref →
    Meets (Interleaved.turn (pollDeln budget)) (fun s t => t.Orderly s) turns s →
    ∃ replies s', run (Interleaved.turn (pollDeln budget)) turns s = .ok (replies, s') ∧
      (∃ path, Inv s'.store s'.future.detached path) ∧
      s'.store.asRef.AgreesOn (fun k => K k ∨ k ∈ TreeOp.written (Turn.operations turns))
        ((Turn.operations turns).foldl Ref.next ref) := by
  induction turns with
  | nil =>
    intro K s ref inv agrees _
    exact ⟨[], s, rfl, inv, agrees.mono fun k inside => inside.resolve_right List.not_mem_nil⟩
  | cons t rest ih =>
    intro K s ref inv agrees meets
    obtain ⟨reply, s₁, first, inv₁, agrees₁⟩ := turn_agrees budget inv agrees meets.1
    obtain ⟨replies, s', others, inv', agrees'⟩ := ih inv₁ agrees₁ (meets.next first)
    have split : Turn.operations (t :: rest) = Turn.operations [t] ++ Turn.operations rest := by
      rw [Turn.operations, Turn.operations, Turn.operations, ← List.filterMap_append, List.singleton_append]
    refine ⟨reply :: replies, s', run_cons first others, inv', ?_⟩
    rw [split, List.foldl_append]
    refine agrees'.mono fun k inside => ?_
    rw [TreeOp.written, List.filterMap_append, List.mem_append, ← or_assoc] at inside
    exact inside

section Typed

variable {S : Type} [Score S] {st : OxidArt P (Value S)} {order : HashOrder}

/-- A chunked deletion loses no other key and no key written since the cut, in every run of orderly turns, where the empty
prefix is cut at a root without an overflow slot. -/
theorem run_keepsOthers (reached : Reachable order st) (pfx : Bytes) (inline : pfx = [] → RootInline st) (budget : Nat) :
    ∃ future st₀, st.startDeln budget pfx = .ok (future, st₀) ∧ ∀ turns : List (Turn (Value S)),
      Meets (Interleaved.turn (pollDeln budget)) (fun s t => t.Orderly s) turns ⟨st₀, future⟩ →
      ∃ replies s, run (Interleaved.turn (pollDeln budget)) turns ⟨st₀, future⟩ = .ok (replies, s) ∧
        KeepsOthers st pfx (Turn.operations turns) s.store := by
  obtain ⟨path, I⟩ := reached.isSound
  obtain ⟨future, st₀, path₀, started, I₀, agrees⟩ := startDeln_ok budget I inline
  refine ⟨future, st₀, started, fun turns meets => ?_⟩
  obtain ⟨replies, s, ran, ⟨path', I'⟩, agrees'⟩ := run_agrees turns ⟨path₀, I₀⟩ agrees meets
  refine ⟨replies, s, ran, fun k inside => ?_⟩
  rw [get_reply I', ← agrees'.get inside]
  rfl

/-- The same turns keep the same keys after a deletion at once, so a reader cannot tell the two runs apart. -/
theorem deln_keepsOthers (reached : Reachable order st) {pfx : Bytes} (nonempty : pfx ≠ []) (budget : Nat) :
    ∃ count st₀, st.deln pfx = .ok (count, st₀) ∧ ∀ turns : List (Turn (Value S)),
      Meets (Interleaved.turn (pollDeln budget)) (fun s t => t.Orderly s) turns ⟨st₀, .ready count⟩ →
      ∃ replies s, run (Interleaved.turn (pollDeln budget)) turns ⟨st₀, .ready count⟩ = .ok (replies, s) ∧
        KeepsOthers st pfx (Turn.operations turns) s.store := by
  obtain ⟨path, I⟩ := reached.isSound
  obtain ⟨count, st₀, path₀, deleted, D⟩ := deln_ok I nonempty
  have agrees : st₀.asRef.AgreesOn (fun k => ¬ pfx <+: k) (st.asRef.next (.deln pfx)) :=
    .of_table D.step.stays.now fun k _ => congrFun D.entries k
  refine ⟨count, st₀, deleted, fun turns meets => ?_⟩
  obtain ⟨replies, s, ran, ⟨path', I'⟩, agrees'⟩ := run_agrees turns ⟨path₀, D.step.inv⟩ agrees meets
  refine ⟨replies, s, ran, fun k inside => ?_⟩
  rw [get_reply I', ← agrees'.get inside]
  rfl

end Typed

/-- A chunked deletion after some commands, among other tasks: whether it has finished, and whether a key is live then. -/
def livesAfter (commands : List (Command Int)) (pfx : Bytes) (budget : Nat) (turns : List (Turn (Value Int))) (key : Bytes) :
    Exec (Bool × Bool) := do
  let started ← run (exec .stored) commands (new : OxidArt .lowest (Value Int))
  let cut ← started.2.startDeln budget pfx
  let ended ← run (Interleaved.turn (pollDeln budget)) turns ⟨cut.2, cut.1⟩
  let seen ← ended.2.store.get key
  return (ended.2.future.detached.isEmpty, seen.1.isSome)

theorem livesAfter_ok {commands : List (Command Int)} {pfx key : Bytes} {budget : Nat} {turns : List (Turn (Value Int))}
    {lives : Bool} (after : livesAfter commands pfx budget turns key = .ok (true, lives)) :
    ∃ replies st future st₀ replies' s v st', run (exec .stored) commands (new : OxidArt .lowest (Value Int)) = .ok (replies, st) ∧
      st.startDeln budget pfx = .ok (future, st₀) ∧
      run (Interleaved.turn (pollDeln budget)) turns ⟨st₀, future⟩ = .ok (replies', s) ∧ s.future.detached = [] ∧
      s.store.get key = .ok (v, st') ∧ v.isSome = lives := by
  obtain ⟨⟨replies, st⟩, ran, after⟩ := exists_of_bind after
  obtain ⟨⟨future, st₀⟩, started, after⟩ := exists_of_bind after
  obtain ⟨⟨replies', s⟩, ran', after⟩ := exists_of_bind after
  obtain ⟨⟨v, st'⟩, got, after⟩ := exists_of_bind after
  obtain ⟨done, seen⟩ := Prod.mk.inj (Except.ok.inj after)
  exact ⟨replies, st, future, st₀, replies', s, v, st', ran, started, ran', List.isEmpty_iff.1 done, got, seen⟩

/-- The same with the keys deleted at once: whether the key is live then. -/
def livesAtOnce (commands : List (Command Int)) (pfx : Bytes) (turns : List (Turn (Value Int))) (key : Bytes) : Exec Bool := do
  let started ← run (exec .stored) commands (new : OxidArt .lowest (Value Int))
  let cut ← started.2.deln pfx
  let ended ← run (Interleaved.turn (pollDeln 1)) turns ⟨cut.2, .ready cut.1⟩
  let seen ← ended.2.store.get key
  return seen.1.isSome

/-- Two keys below the cut, one of them written again while the subtree is being freed. -/
def rewrittenKey : List (Command Int) :=
  [.tree (.set [97, 97] (.int 1)), .tree (.set [97, 98] (.int 2)), .tree (.set [98] (.int 3))]

def rewritingTurns : List (Turn (Value Int)) := [.op (.set [97, 98] (.int 4)), .poll, .op (.set [97, 99] (.int 5)), .poll]

theorem run_keepsOthers_rewrittenKey : ∃ replies st future st₀ replies' s,
    run (exec .stored) rewrittenKey (new : OxidArt .lowest (Value Int)) = .ok (replies, st) ∧
    st.startDeln 1 [97] = .ok (future, st₀) ∧
    run (Interleaved.turn (pollDeln 1)) rewritingTurns ⟨st₀, future⟩ = .ok (replies', s) ∧ s.future.detached = [] ∧
    KeepsOthers st [97] (Turn.operations rewritingTurns) s.store := by
  have sound : Meets (exec .stored) (fun st c => c.Sound st) rewrittenKey (new : OxidArt .lowest (Value Int)) := by
    decide +kernel
  have lives : livesAfter rewrittenKey [97] 1 rewritingTurns [97, 98] = .ok (true, true) := by decide +kernel
  obtain ⟨replies, st, future, st₀, replies', s, -, -, ran, started, ran', done, -⟩ := livesAfter_ok lives
  obtain ⟨future', st₀', started', keeps⟩ := run_keepsOthers (.run .refl sound ran) [97] (fun same => by cases same) 1
  obtain ⟨rfl, rfl⟩ := Prod.mk.inj (Except.ok.inj (started.symm.trans started'))
  have orderly : Meets (Interleaved.turn (pollDeln 1)) (fun s t => t.Orderly s) rewritingTurns ⟨st₀, future⟩ := by
    apply Meets.of_forall
    intro t member s
    simp only [rewritingTurns, List.mem_cons, List.not_mem_nil, or_false] at member
    rcases member with rfl | rfl | rfl | rfl
    · exact (by decide +kernel : KeyOk [97, 98])
    · trivial
    · exact (by decide +kernel : KeyOk [97, 99])
    · trivial
  obtain ⟨replies₁, s₁, ran₁, others⟩ := keeps rewritingTurns orderly
  obtain ⟨rfl, rfl⟩ := Prod.mk.inj (Except.ok.inj (ran'.symm.trans ran₁))
  exact ⟨replies, st, future, st₀, replies', s, ran, started, ran', done, others⟩

/-- Eight first bytes: the root has an overflow slot. -/
def eightKeys : List (Command Int) := (List.range 8).map fun i => .tree (.set [UInt8.ofNat (97 + i)] (.int (Int64.ofNat i)))

/-- The empty prefix is cut there, a key is written between two chunks, and then freed with the rest. -/
def flushTurns : List (Turn (Value Int)) := .op (.set [103] (.int 9)) :: List.replicate 7 .poll

theorem flush_loses_key : ∃ replies st future st₀ replies' s, run (exec .stored) eightKeys (new : OxidArt .lowest (Value Int)) =
      .ok (replies, st) ∧ Reachable .stored st ∧ st.startDeln 1 [] = .ok (future, st₀) ∧
    run (Interleaved.turn (pollDeln 1)) flushTurns ⟨st₀, future⟩ = .ok (replies', s) ∧ s.future.detached = [] ∧
    ¬ KeepsOthers st [] (Turn.operations flushTurns) s.store := by
  have sound : Meets (exec .stored) (fun st c => c.Sound st) eightKeys (new : OxidArt .lowest (Value Int)) := by decide +kernel
  have lost : livesAfter eightKeys [] 1 flushTurns [103] = .ok (true, false) := by decide +kernel
  obtain ⟨replies, st, future, st₀, replies', s, v, st', ran, started, ran', done, got, none'⟩ := livesAfter_ok lost
  refine ⟨replies, st, future, st₀, replies', s, ran, .run .refl sound ran, started, ran', done, ?_⟩
  intro keeps
  have shown := keeps [103] (.inr (by decide +kernel))
  rw [got] at shown
  cases v with
  | none => cases shown
  | some v => cases none'

/-- Two expired keys below the cut. -/
def expiringKeys : List (Command Int) :=
  [.tree (.setTtl [97, 97, 97] 5 (.int 1)), .tree (.setTtl [97, 97, 98] 5 (.int 2)), .tree (.set [97, 98] (.int 3)),
    .tree (.set [98] (.int 4)), .tree (.setNow 10)]

/-- The evictor frees nodes that the stack still lists, and a write takes one of the slots. -/
def evictingTurns : List (Turn (Value Int)) := [.op (.evict fun _ sample => sample), .op (.set [97, 97] (.int 9)), .poll, .poll]

/-- The same without the empty prefix: the parent link of a detached node is not exact. -/
theorem evicted_detached_loses_key : ∃ replies st future st₀ replies' s,
    run (exec .stored) expiringKeys (new : OxidArt .lowest (Value Int)) = .ok (replies, st) ∧ Reachable .stored st ∧
    st.startDeln 1 [97, 97] = .ok (future, st₀) ∧
    run (Interleaved.turn (pollDeln 1)) evictingTurns ⟨st₀, future⟩ = .ok (replies', s) ∧ s.future.detached = [] ∧
    ¬ KeepsOthers st [97, 97] (Turn.operations evictingTurns) s.store := by
  have sound : Meets (exec .stored) (fun st c => c.Sound st) expiringKeys (new : OxidArt .lowest (Value Int)) := by decide +kernel
  have lost : livesAfter expiringKeys [97, 97] 1 evictingTurns [97, 97] = .ok (true, false) := by decide +kernel
  obtain ⟨replies, st, future, st₀, replies', s, v, st', ran, started, ran', done, got, none'⟩ := livesAfter_ok lost
  refine ⟨replies, st, future, st₀, replies', s, ran, .run .refl sound ran, started, ran', done, ?_⟩
  intro keeps
  have shown := keeps [97, 97] (.inr (by decide +kernel))
  rw [got] at shown
  cases v with
  | none => cases shown
  | some v => cases none'

/-- Two keys below the cut whose deadlines are far away, and one beside it that expires soon. -/
def deadlineKeys : List (Command Int) :=
  [.tree (.setTtl [97, 97] 1000 (.int 1)), .tree (.setTtl [97, 98] 1000 (.int 2)), .tree (.setTtl [98] 10 (.int 3))]

/-- The evictor draws a detached node only, and then the clock is set back. -/
def settingBackTurns : List (Turn (Value Int)) :=
  [.op (.setNow 20), .op (.evict fun _ _ => 1), .op (.setNow 5), .poll, .poll]

/-- The key that the evictor leaves is live again. After a deletion at once, the same turns evict it. -/
theorem setting_back_revives : livesAfter deadlineKeys [97] 1 settingBackTurns [98] = .ok (true, true) ∧
    livesAtOnce deadlineKeys [97] settingBackTurns [98] = .ok false := by decide +kernel

end OxidArt

end Radixox.Oxidart
