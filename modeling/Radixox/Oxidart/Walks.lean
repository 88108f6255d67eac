import Radixox.Lib.Outcomes
import Radixox.Oxidart.Interleaving
import Radixox.Oxidart.Listings

/-!
# Chunked scans among other tasks

The stack of `getn_async` holds indices and the bytes that lead to them. A node that stays keeps
these bytes through splits and merges, so the scan goes on as if nothing had happened, unless an index on
the stack changes hands: a merge frees the child that its visited parent absorbs, and a
write may then take the slot.
-/

namespace Radixox.Oxidart
set_option autoImplicit false
open Radixox.Runs Radixox.Outcomes OxidArt

section Operations

variable {P : Policy} {V : Type}

/-- The keys that an operation writes or removes. -/
def TreeOp.Touches : TreeOp V → Bytes → Prop
  | .set key _, k | .setTtl key .., k | .expire key _, k | .persist key, k | .del key, k => k = key
  | .deln pfx, k => pfx <+: k
  | _, _ => False

/-- The operations `set`, `del` and `deln` where they touch no other keys: ASCII keys, no overflow slot at a root that is flushed,
no single child at a root that is cleared. -/
def TreeOp.Confined (st : OxidArt P V) : TreeOp V → Prop
  | .set key _ => KeyOk key
  | .del key => key = [] → ∀ root, st.tryGetNode st.rootIdx = some root → root.getSingleChild = none
  | .deln pfx => pfx = [] → RootInline st
  | _ => False

/-- No index on the stack changes hands: a free one stays free, and one that is freed had no live key below it. -/
structure Spares (stack : List (Nat × Bytes)) (st st' : OxidArt P V) : Prop where
  reused : ∀ e ∈ stack, st.tryGetNode e.1 = none → st'.tryGetNode e.1 = none
  freed : ∀ e ∈ stack, st'.tryGetNode e.1 = none → ∀ k, st.Leads e k → st'.live k = none

end Operations

/-- No operation of another task touches the key. -/
def Turn.Untouched {V : Type} (turns : List (Turn V)) (k : Bytes) : Prop := ∀ o ∈ Turn.operations turns, ¬ o.Touches k

/-- What a future of `getn_async` has still to visit and has found. -/
def Poll.scanned : Poll GetnTask (List Bytes) → GetnTask
  | .pending task => task
  | .ready keys => ⟨[], keys⟩

def Poll.isReady {τ α : Type} : Poll τ α → Bool
  | .pending _ => false
  | .ready _ => true

/-- An operation of another task is confined and spares the stack of the scan; a poll is always fine. -/
def Turn.Spares {P : Policy} {V : Type} (s : Interleaved P V GetnTask (List Bytes)) : Turn V → Prop
  | .op o => o.Confined s.store ∧
    ∀ reply st', s.store.execTree o = .ok (reply, st') → Oxidart.Spares s.future.scanned.stack s.store st'
  | .poll => True

namespace OxidArt

variable {P : Policy} {V : Type} {st st' : OxidArt P V} {path path' : Nat → Option Bytes} {budget : Nat}
variable {pfx : Bytes} {W Was : Bytes → Prop} {stack : List (Nat × Bytes)} {out : List Bytes}

/-- A poll of `getn_async` does not change the store. -/
def pollScan (budget : Nat) (st : OxidArt P V) (task : GetnTask) : Exec (Poll GetnTask (List Bytes) × OxidArt P V) :=
  .ok (st.pollGetn budget task, st)

/-! ## Steps of other tasks -/

/-- A confined operation is a step of the tree, and leaves the entries it does not touch. -/
theorem execTree_confined (I : Inv st [] path) {op : TreeOp V} (confined : op.Confined st) :
    ∃ reply st' path', st.execTree op = .ok (reply, st') ∧ Step (Present st') st [] path st' path' ∧
      ∀ k, ¬ op.Touches k → st'.entry k = st.entry k := by
  have others : ∀ {st' : OxidArt P V} {key : Bytes} {e : Option (V × Option Nat)}, st'.entry = Function.update st.entry key e →
      ∀ k, ¬ k = key → st'.entry k = st.entry k := by
    intro st' key e entries k other
    rw [entries, Function.update_of_ne other]
  cases op with
  | set key v =>
    obtain ⟨st', path', run, step, entries⟩ := setInternal_ok I (fun _ => True) confined
      (show ExpAndRadix.noExp < 2 ^ 56 by decide) v
    refine ⟨.done, st', path', ?_, step.mono fun _ _ => trivial, others entries⟩
    simp only [execTree, OxidArt.set, run, bind, Except.bind]
    rfl
  | del key =>
    by_cases empty : key = []
    · subst empty
      obtain ⟨root, found⟩ := I.root_node
      obtain ⟨st', path', run, -, -, kept, -⟩ := clearRoot_ok I found
      obtain ⟨-, same, entries⟩ := kept (confined rfl root found)
      refine ⟨.value root.val, st', path, ?_, ?_, others entries⟩
      · simp only [execTree, del, List.isEmpty_nil, if_true, getNode_ok found, run, bind, Except.bind]
        rfl
      · rw [same]
        exact Step.setNode I _ found rfl rfl rfl rfl
    · obtain ⟨st', path', run, step, entries, -⟩ := del_ok I empty
      exact ⟨_, st', path', by simp only [execTree, run, bind, Except.bind]; rfl, step, others entries⟩
  | deln pfx =>
    by_cases top : pfx = []
    · subst top
      obtain ⟨root, found⟩ := I.root_node
      obtain ⟨count, st', run, stays, I', atRoot⟩ := flush_ok I found (confined rfl root found)
      refine ⟨.count count, st', _, by simp only [execTree, run, bind, Except.bind]; rfl, ⟨I', stays, ?_, ?_⟩,
        fun k untouched => absurd List.nil_prefix untouched⟩
      · -- Only the root is left.
        intro i p l l' inner _ _ read'
        obtain ⟨q, live⟩ := I'.path_of_label read'
        rw [if_neg inner] at live
        cases live
      · rw [graph_label found, graph_label atRoot]
        rfl
    · obtain ⟨count, st', path', run, D⟩ := deln_ok I top
      refine ⟨.count count, st', path', by simp only [execTree, run, bind, Except.bind]; rfl, D.step, fun k untouched => ?_⟩
      rw [D.entries]
      exact if_neg untouched
  | setTtl | expire | persist | get | getTtl | getn | setNow | evict => exact absurd confined (fun h => h)

/-- A node that stays in the tree keeps the bytes that lead to it, and the keys that are left below it. -/
theorem Step.carries {K : Bytes → Prop} (I : Inv st [] path) (step : Step K st [] path st' path') {i : Nat} {pre : Bytes} {n n' : Node V}
    (found : st.tryGetNode i = some n) (found' : st'.tryGetNode i = some n') (at' : path i = some (pre ++ n.compression)) :
    path' i = some (pre ++ n'.compression) ∧ ∀ k, K k → pre ++ n.compression <+: k → pre ++ n'.compression <+: k := by
  by_cases top : i = st.rootIdx
  · -- The root keeps its compression, so it must be empty here.
    subst top
    obtain ⟨rfl, short⟩ := List.append_eq_nil_iff.1 (Option.some.inj (at'.symm.trans I.forest.rootPath))
    have kept : n'.compression = n.compression :=
      Option.some.inj ((graph_label found').symm.trans (step.top.trans (graph_label found)))
    have root' := step.inv.forest.rootPath
    rw [step.stays.rootIdx] at root'
    rw [kept, short]
    exact ⟨root', fun _ _ below => below⟩
  · obtain ⟨way, p', live', eq, eq', below⟩ := step.moves i _ _ _ top at' (graph_label found) (graph_label found')
    obtain rfl := List.append_cancel_right eq
    subst eq'
    exact ⟨live', below⟩

/-- A step that spares the stack leaves the scan sound and complete. -/
theorem Scanning.step {Was' : Bytes → Prop} (I : Inv st [] path) (step : Step (Present st') st [] path st' path')
    (spares : Spares stack st st') (alive : ∀ k, W k → (st'.live k).isSome = true) (grows : ∀ k, Was k → Was' k)
    (S : Scanning st path pfx W Was stack out) : Scanning st' path' pfx W Was' stack out := by
  refine ⟨fun e member n' found' => ?_, S.under, S.apart, S.nodup, fun k member => ?_, fun k wanted => ?_⟩
  · cases found : st.tryGetNode e.1 with
    | none =>
      have free := spares.reused e member found
      rw [found'] at free
      cases free
    | some n => exact (step.carries I found found' (S.node e member n found)).1
  · obtain ⟨begins, was, outside⟩ := S.sound k member
    exact ⟨begins, grows k was, outside⟩
  · rcases S.all k wanted with old | ⟨e, member, leads⟩
    · exact .inl old
    · have held := alive k wanted
      refine .inr ⟨e, member, ?_⟩
      obtain ⟨n, found, below⟩ := leads
      cases found' : st'.tryGetNode e.1 with
      | none =>
        rw [spares.freed e member found' k ⟨n, found, below⟩] at held
        cases held
      | some n' =>
        obtain ⟨c, live⟩ := Option.isSome_iff_exists.1 held
        have present : Present st' k := ⟨c, (Option.filter_eq_some_iff.1 live).1⟩
        exact ⟨n', found', (step.carries I found found' (S.node e member n found)).2 k present below⟩

theorem Scanning.widen {Was' : Bytes → Prop} (S : Scanning st path pfx W Was stack out) (grows : ∀ k, Was k → Was' k) :
    Scanning st path pfx W Was' stack out :=
  ⟨S.node, S.under, S.apart, S.nodup, fun k member => ⟨(S.sound k member).1, grows k (S.sound k member).2.1, (S.sound k member).2.2⟩,
    S.all⟩

/-! ## Polls -/

theorem pollGetn_scans (I : Inv st [] path) (wanted : ∀ k, W k → (st.live k).isSome = true)
    (was : ∀ k, (st.live k).isSome = true → Was k) {task : GetnTask} (S : Scanning st path pfx W Was task.stack task.keys) :
    Scanning st path pfx W Was (st.pollGetn budget task).scanned.stack (st.pollGetn budget task).scanned.keys := by
  have S' := S.collectKeysLoop I wanted was (task.stack.length + MAX_LINKS * budget) budget task
  unfold pollGetn collectKeysChunk
  by_cases empty : (st.collectKeysLoop (task.stack.length + MAX_LINKS * budget) budget task).stack = []
  · rw [empty] at S'
    simp only [empty, List.isEmpty_nil, if_true]
    exact S'
  · have busy : (st.collectKeysLoop (task.stack.length + MAX_LINKS * budget) budget task).stack.isEmpty = false := by
      simpa using empty
    simp only [busy, Bool.false_eq_true, if_false]
    exact S'

/-- The first poll: every live key with the prefix is found or still to be found. -/
theorem startGetn_scans (I : Inv st [] path) (wanted : ∀ k, W k → pfx <+: k ∧ (st.live k).isSome = true)
    (was : ∀ k, (st.live k).isSome = true → Was k) :
    Scanning st path pfx W Was (st.startGetn budget pfx).scanned.stack (st.startGetn budget pfx).scanned.keys := by
  unfold startGetn
  rcases I.findPrefixNode_ok pfx with ⟨i, n, p, target, found, at', covers, all⟩ | ⟨target, none'⟩
  · have S := I.startScan found at' covers all wanted was
    simp only [target, initKeysStack, found]
    by_cases empty : (st.visit i n p).stack = []
    · rw [empty] at S
      simp only [empty, List.isEmpty_nil, if_true]
      exact S
    · have busy : (st.visit i n p).stack.isEmpty = false := by simpa using empty
      simp only [busy, Bool.false_eq_true, if_false]
      exact pollGetn_scans I (fun k want => (wanted k want).2) was S
  · simp only [target]
    refine ⟨?_, ?_, .nil, .nil, ?_, fun k want => ?_⟩
    · exact fun e member => absurd member List.not_mem_nil
    · exact fun e member => absurd member List.not_mem_nil
    · exact fun k member => absurd member List.not_mem_nil
    · obtain ⟨begins, held⟩ := wanted k want
      obtain ⟨c, live⟩ := Option.isSome_iff_exists.1 held
      obtain ⟨j, atj, -⟩ := I.entry_iff.1 (Option.filter_eq_some_iff.1 live).1
      exact absurd begins (none' j k atj)

/-! ## Runs -/

/-- The key is live at some moment of the run. -/
def LivesIn (budget : Nat) (turns : List (Turn V)) (s : Interleaved P V GetnTask (List Bytes)) (k : Bytes) : Prop :=
  ∃ earlier later replies s', turns = earlier ++ later ∧ run (Interleaved.turn (pollScan budget)) earlier s = .ok (replies, s') ∧
    (s'.store.live k).isSome = true

/-- The scan is under way in a sound tree. -/
def Walking (pfx : Bytes) (W Was : Bytes → Prop) (s : Interleaved P V GetnTask (List Bytes)) : Prop :=
  ∃ path, Inv s.store [] path ∧ Scanning s.store path pfx W Was s.future.scanned.stack s.future.scanned.keys

/-- One turn. -/
theorem turn_walks (budget : Nat) {s : Interleaved P V GetnTask (List Bytes)} {t : Turn V} (walking : Walking pfx W Was s)
    (wanted : ∀ k, W k → (s.store.live k).isSome = true ∧ Turn.Untouched [t] k)
    (was : ∀ k, (s.store.live k).isSome = true → Was k) (spares : t.Spares s) :
    ∃ reply s', s.turn (pollScan budget) t = .ok (reply, s') ∧
      Walking pfx W (fun k => Was k ∨ (s'.store.live k).isSome = true) s' ∧
      ∀ k, W k → (s'.store.live k).isSome = true := by
  obtain ⟨path, I, S⟩ := walking
  cases t with
  | op o =>
    obtain ⟨confined, spares⟩ := spares
    obtain ⟨reply, st', path', run, step, kept⟩ := execTree_confined I confined
    have alive : ∀ k, W k → (st'.live k).isSome = true := by
      intro k want
      obtain ⟨held, untouched⟩ := wanted k want
      rw [live, step.stays.now, kept k (untouched o (List.mem_singleton.2 rfl))]
      exact held
    refine ⟨some reply, { s with store := st' }, ?_, ⟨path', step.inv, ?_⟩, alive⟩
    · simp only [Interleaved.turn, run, bind, Except.bind]
      rfl
    · exact S.step I step (spares reply st' run) alive fun _ was => .inl was
  | poll =>
    have alive : ∀ k, W k → (s.store.live k).isSome = true := fun k want => (wanted k want).1
    cases future : s.future with
    | pending task =>
      rw [future] at S
      refine ⟨none, ⟨s.store, s.store.pollGetn budget task⟩, ?_, ⟨path, I, ?_⟩, alive⟩
      · simp only [Interleaved.turn, future, pollScan, bind, Except.bind]
        rfl
      · exact (pollGetn_scans I alive was S).widen fun _ was => .inl was
    | ready keys =>
      refine ⟨none, s, by simp only [Interleaved.turn, future], ⟨path, I, S.widen fun _ was => .inl was⟩, alive⟩

theorem run_walks (turns : List (Turn V)) : ∀ {Was : Bytes → Prop} {s : Interleaved P V GetnTask (List Bytes)}, Walking pfx W Was s →
    (∀ k, W k → (s.store.live k).isSome = true ∧ Turn.Untouched turns k) → (∀ k, (s.store.live k).isSome = true → Was k) →
    Meets (Interleaved.turn (pollScan budget)) (fun s t => t.Spares s) turns s →
    ∃ replies s', run (Interleaved.turn (pollScan budget)) turns s = .ok (replies, s') ∧
      Walking pfx W (fun k => Was k ∨ LivesIn budget turns s k) s' := by
  induction turns with
  | nil =>
    intro Was s walking _ _ _
    obtain ⟨path, I, S⟩ := walking
    exact ⟨[], s, rfl, path, I, S.widen fun _ was => .inl was⟩
  | cons t rest ih =>
    intro Was s walking wanted was meets
    have here : ∀ k, Turn.Untouched (t :: rest) k → Turn.Untouched [t] k ∧ Turn.Untouched rest k := by
      intro k untouched
      have split : Turn.operations (t :: rest) = Turn.operations [t] ++ Turn.operations rest := by
        rw [Turn.operations, Turn.operations, Turn.operations, ← List.filterMap_append, List.singleton_append]
      rw [Turn.Untouched, split] at untouched
      exact ⟨fun o member => untouched o (List.mem_append_left _ member), fun o member => untouched o (List.mem_append_right _ member)⟩
    obtain ⟨reply, s₁, first, walking₁, alive⟩ := turn_walks budget walking
      (fun k want => ⟨(wanted k want).1, (here k (wanted k want).2).1⟩) was meets.1
    obtain ⟨replies, s', others, path', I', S'⟩ := ih walking₁ (fun k want => ⟨alive k want, (here k (wanted k want).2).2⟩)
      (fun k held => .inr held) (meets.next first)
    refine ⟨reply :: replies, s', run_cons first others, path', I', S'.widen ?_⟩
    have lifts : ∀ k, LivesIn budget rest s₁ k → LivesIn budget (t :: rest) s k := by
      rintro k ⟨earlier, later, replies', s₂, rfl, ran, held⟩
      exact ⟨t :: earlier, later, reply :: replies', s₂, rfl, run_cons first ran, held⟩
    rintro k ((was | held) | lives)
    · exact .inl was
    · exact .inr (lifts k ⟨[], rest, [], s₁, rfl, rfl, held⟩)
    · exact .inr (lifts k lives)

section Typed

variable {S : Type} [Score S] {st : OxidArt P (Value S)} {order : HashOrder}

/-- In every run of turns that spare its stack, a chunked scan returns only keys with the prefix that were live at some
moment of it, each once, and all that were live from the start and that nobody touched. -/
theorem run_scans (reached : Reachable order st) (pfx : Bytes) (budget : Nat) (turns : List (Turn (Value S)))
    (spares : Meets (Interleaved.turn (pollScan budget)) (fun s t => t.Spares s) turns ⟨st, st.startGetn budget pfx⟩) :
    ∃ replies s, run (Interleaved.turn (pollScan budget)) turns ⟨st, st.startGetn budget pfx⟩ = .ok (replies, s) ∧
      ∀ keys, s.future = .ready keys → keys.Nodup ∧
        (∀ k ∈ keys, pfx <+: k ∧ LivesIn budget turns ⟨st, st.startGetn budget pfx⟩ k) ∧
        ∀ k, pfx <+: k → (st.live k).isSome = true → Turn.Untouched turns k → k ∈ keys := by
  obtain ⟨path, I⟩ := reached.isSound
  obtain ⟨W, eqW⟩ : ∃ W : Bytes → Prop, W = fun k => pfx <+: k ∧ (st.live k).isSome = true ∧ Turn.Untouched turns k := ⟨_, rfl⟩
  have wanted : ∀ k, W k → pfx <+: k ∧ (st.live k).isSome = true ∧ Turn.Untouched turns k := by
    rw [eqW]
    exact fun k want => want
  have walking : Walking pfx W (fun k => (st.live k).isSome = true)
      (⟨st, st.startGetn budget pfx⟩ : Interleaved P (Value S) GetnTask (List Bytes)) :=
    ⟨path, I, startGetn_scans I (fun k want => ⟨(wanted k want).1, (wanted k want).2.1⟩) fun _ held => held⟩
  obtain ⟨replies, s, ran, path', I', S'⟩ := run_walks turns walking (fun k want => (wanted k want).2) (fun _ held => held) spares
  refine ⟨replies, s, ran, fun keys future => ?_⟩
  rw [future] at S'
  refine ⟨S'.nodup, fun k member => ⟨(S'.sound k member).1, ?_⟩, fun k begins held untouched => ?_⟩
  · rcases (S'.sound k member).2.1 with held | lives
    · exact ⟨[], turns, [], _, rfl, rfl, held⟩
    · exact lives
  · rcases S'.all k (by rw [eqW]; exact ⟨begins, held, untouched⟩) with member | ⟨e, member, -⟩
    · exact member
    · exact absurd member List.not_mem_nil

end Typed

end OxidArt

/-- A turn that shows by computation that it spares the stack: a write after which every stacked index is still occupied, or a
poll. -/
def Turn.steady {P : Policy} {V : Type} (s : Interleaved P V GetnTask (List Bytes)) : Turn V → Bool
  | .op (.set key v) => decide (KeyOk key) && match s.store.set key v with
    | .ok st' => s.future.scanned.stack.all fun e => (s.store.tryGetNode e.1).isSome && (st'.tryGetNode e.1).isSome
    | .error _ => false
  | .op _ => false
  | .poll => true

theorem Turn.spares_of_steady {P : Policy} {V : Type} {s : Interleaved P V GetnTask (List Bytes)} {t : Turn V}
    (steady : t.steady s = true) : t.Spares s := by
  cases t with
  | poll => trivial
  | op o =>
    cases o with
    | set key v =>
      simp only [Turn.steady, Bool.and_eq_true, decide_eq_true_eq] at steady
      obtain ⟨bytes, occupied⟩ := steady
      refine ⟨bytes, fun reply st' ran => ?_⟩
      simp only [execTree] at ran
      obtain ⟨st₁, written, ran⟩ := exists_of_bind ran
      obtain ⟨-, rfl⟩ := Prod.mk.inj (Except.ok.inj ran)
      rw [written] at occupied
      have kept : ∀ e ∈ s.future.scanned.stack, s.store.tryGetNode e.1 ≠ none ∧ st₁.tryGetNode e.1 ≠ none := by
        intro e member
        simpa [Option.isSome_iff_ne_none] using List.all_eq_true.1 occupied e member
      exact ⟨fun e member free => absurd free (kept e member).1, fun e member free => absurd free (kept e member).2⟩
    | _ => cases steady

namespace OxidArt

/-- A chunked scan after some commands, among other tasks: whether all turns were steady, whether `key` was live at the
start, and the keys if it has finished. -/
def scanAfter (commands : List (Command Int)) (pfx : Bytes) (budget : Nat) (turns : List (Turn (Value Int))) (key : Bytes) :
    Exec (Bool × Bool × Bool × List Bytes) := do
  let started ← run (exec .stored) commands (new : OxidArt .lowest (Value Int))
  let ended ← run (Interleaved.turn (pollScan budget)) turns ⟨started.2, started.2.startGetn budget pfx⟩
  return (decide (Meets (Interleaved.turn (pollScan budget)) (fun s t => t.steady s = true) turns
      ⟨started.2, started.2.startGetn budget pfx⟩), (started.2.live key).isSome, ended.2.future.isReady,
    ended.2.future.scanned.keys)

theorem scanAfter_ok {commands : List (Command Int)} {pfx key : Bytes} {budget : Nat} {turns : List (Turn (Value Int))}
    {steady held : Bool} {keys : List Bytes} (after : scanAfter commands pfx budget turns key = .ok (steady, held, true, keys)) :
    ∃ replies st replies' s, run (exec .stored) commands (new : OxidArt .lowest (Value Int)) = .ok (replies, st) ∧
      run (Interleaved.turn (pollScan budget)) turns ⟨st, st.startGetn budget pfx⟩ = .ok (replies', s) ∧
      s.future = .ready keys ∧ (st.live key).isSome = held ∧ (steady = true →
        Meets (Interleaved.turn (pollScan budget)) (fun s t => t.Spares s) turns ⟨st, st.startGetn budget pfx⟩) := by
  obtain ⟨⟨replies, st⟩, ran, after⟩ := exists_of_bind after
  obtain ⟨⟨replies', s⟩, ran', after⟩ := exists_of_bind after
  obtain ⟨calm, after⟩ := Prod.mk.inj (Except.ok.inj after)
  obtain ⟨seen, after⟩ := Prod.mk.inj after
  obtain ⟨ready, found⟩ := Prod.mk.inj after
  refine ⟨replies, st, replies', s, ran, ran', ?_, seen, fun all => ?_⟩
  · cases future : s.future with
    | pending task =>
      simp only [future, Poll.isReady] at ready
      cases ready
    | ready keys' =>
      simp only [future, Poll.scanned] at found
      rw [found]
  · subst all
    exact Meets.mono (fun s t steady => Turn.spares_of_steady steady) (of_decide_eq_true calm)

/-- Two keys below the prefix, and one more that is written while the scan is under way. -/
def scannedKeys : List (Command Int) :=
  [.tree (.set [97, 98] (.int 1)), .tree (.set [97, 99] (.int 2)), .tree (.set [98] (.int 3))]

def writingTurns : List (Turn (Value Int)) := [.op (.set [97, 98, 99] (.int 4)), .poll, .poll]

theorem run_scans_writingTurns : ∃ replies st replies' s,
    run (exec .stored) scannedKeys (new : OxidArt .lowest (Value Int)) = .ok (replies, st) ∧
    run (Interleaved.turn (pollScan 1)) writingTurns ⟨st, st.startGetn 1 [97]⟩ = .ok (replies', s) ∧
    ∃ keys, s.future = .ready keys ∧ keys.Nodup ∧ (∀ k ∈ keys, LivesIn 1 writingTurns ⟨st, st.startGetn 1 [97]⟩ k) ∧
      [97, 98] ∈ keys := by
  have sound : Meets (exec .stored) (fun st c => c.Sound st) scannedKeys (new : OxidArt .lowest (Value Int)) := by
    decide +kernel
  have after : scanAfter scannedKeys [97] 1 writingTurns [97, 98] =
      .ok (true, true, true, [[97, 99], [97, 98], [97, 98, 99]]) := by decide +kernel
  obtain ⟨replies, st, replies', s, ran, ran', ready, held, spares⟩ := scanAfter_ok after
  obtain ⟨replies₁, s₁, ran₁, keys⟩ := run_scans (.run .refl sound ran) [97] 1 writingTurns (spares rfl)
  obtain ⟨rfl, rfl⟩ := Prod.mk.inj (Except.ok.inj (ran'.symm.trans ran₁))
  obtain ⟨nodup, lives, all⟩ := keys _ ready
  refine ⟨replies, st, replies', s, ran, ran', _, ready, nodup, fun k member => (lives k member).2, ?_⟩
  refine all [97, 98] (by decide) held fun o member => ?_
  obtain rfl := List.mem_singleton.1 member
  exact (by decide : ¬ ([97, 98] : Bytes) = [97, 98, 99])

/-- One of the two keys goes, and the visited parent absorbs the other one's node. -/
def mergingTurns : List (Turn (Value Int)) := [.op (.del [97, 99]), .poll]

theorem merge_hides_key : ∃ replies st replies' s keys,
    run (exec .stored) scannedKeys (new : OxidArt .lowest (Value Int)) = .ok (replies, st) ∧ Reachable .stored st ∧
    run (Interleaved.turn (pollScan 1)) mergingTurns ⟨st, st.startGetn 1 [97]⟩ = .ok (replies', s) ∧ s.future = .ready keys ∧
    (st.live [97, 98]).isSome = true ∧ Turn.Untouched mergingTurns [97, 98] ∧ [97, 98] ∉ keys := by
  have sound : Meets (exec .stored) (fun st c => c.Sound st) scannedKeys (new : OxidArt .lowest (Value Int)) := by
    decide +kernel
  have after : scanAfter scannedKeys [97] 1 mergingTurns [97, 98] = .ok (false, true, true, [[97, 99]]) := by decide +kernel
  obtain ⟨replies, st, replies', s, ran, ran', ready, held, -⟩ := scanAfter_ok after
  refine ⟨replies, st, replies', s, _, ran, .run .refl sound ran, ran', ready, held, fun o member => ?_, by decide⟩
  obtain rfl := List.mem_singleton.1 member
  exact (by decide : ¬ ([97, 98] : Bytes) = [97, 99])

/-- Then a write takes the freed slot. -/
def reusingTurns : List (Turn (Value Int)) := [.op (.del [97, 99]), .op (.set [122, 122] (.int 4)), .poll]

/-- The scan returns the bytes before the old node with those of the new one: a key that nobody wrote. -/
theorem reused_slot_forges_key : ∃ replies st replies' s keys,
    run (exec .stored) scannedKeys (new : OxidArt .lowest (Value Int)) = .ok (replies, st) ∧ Reachable .stored st ∧
    run (Interleaved.turn (pollScan 1)) reusingTurns ⟨st, st.startGetn 1 [97]⟩ = .ok (replies', s) ∧ s.future = .ready keys ∧
    (st.live [97, 98, 122]).isSome = false ∧ [97, 98, 122] ∉ TreeOp.written (Turn.operations reusingTurns) ∧
    [97, 98, 122] ∈ keys := by
  have sound : Meets (exec .stored) (fun st c => c.Sound st) scannedKeys (new : OxidArt .lowest (Value Int)) := by
    decide +kernel
  have after : scanAfter scannedKeys [97] 1 reusingTurns [97, 98, 122] = .ok (false, false, true, [[97, 99], [97, 98, 122]]) := by
    decide +kernel
  obtain ⟨replies, st, replies', s, ran, ran', ready, held, -⟩ := scanAfter_ok after
  exact ⟨replies, st, replies', s, _, ran, .run .refl sound ran, ran', ready, held, by decide +kernel, by decide⟩

end OxidArt

end Radixox.Oxidart
