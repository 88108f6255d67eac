import Radixox.Oxidart.Chunks
import Radixox.Oxidart.EmptyKey
import Radixox.Oxidart.Twins

/-!
# The flushed store and a new one

`deln` of the empty prefix frees everything below the root and empties the root's inline links. It leaves the root's overflow
slot, its compression and its expiry as they are, and each of them shows later. Without them the flushed store is
a twin of a new one.
-/

namespace Radixox.Oxidart
set_option autoImplicit false
open Radixox.Assoc Radixox.Outcomes Radixox.Renaming Radixox.Runs Radixox.PathForest

namespace OxidArt

variable {P : Policy} {V : Type} {st st' : OxidArt P V} {path : Nat → Option Bytes} {root : Node V}

/-! ## What the flush leaves at the root -/

/-- A node that the freeing loop leaves there keeps its links, also one that links freed nodes. -/
theorem freeLoop_links (fuel : Nat) : ∀ (budget : Option Nat) (st : OxidArt P V) (stack : List Nat) (count : Nat), KidsInv st →
    let after := (freeLoop fuel budget st stack count).2.2
    KidsInv after ∧ ∀ j, (st.tryGetNode j = none → after.tryGetNode j = none) ∧
      (after.tryGetNode j = none ∨ after.iterAllChildren j = st.iterAllChildren j) := by
  induction fuel with
  | zero => exact fun _ _ _ _ K => ⟨K, fun j => ⟨id, .inr rfl⟩⟩
  | succ fuel ih =>
    intro budget st stack count K
    have idle : KidsInv st ∧ ∀ j, (st.tryGetNode j = none → st.tryGetNode j = none) ∧
        (st.tryGetNode j = none ∨ st.iterAllChildren j = st.iterAllChildren j) := ⟨K, fun j => ⟨id, .inr rfl⟩⟩
    rw [freeLoop]
    split
    · exact idle
    · cases stack.getLast? with
      | none => exact idle
      | some y =>
        cases found : st.tryGetNode y with
        | none =>
          have skipped : st.freeNode y = none := by simp only [freeNode, found]
          simp only [skipped]
          exact ih _ _ _ _ K
        | some n =>
          obtain ⟨st₁, freed, K₁, nodes, links, -⟩ := freeNode_links K found
          simp only [freed]
          obtain ⟨K', rest⟩ := ih _ _ _ _ K₁
          refine ⟨K', fun j => ?_⟩
          obtain ⟨gone, kept⟩ := rest j
          rw [nodes] at gone
          rw [links] at kept
          by_cases here : j = y
          · rw [if_pos here] at gone
            exact ⟨fun _ => gone rfl, .inl (gone rfl)⟩
          · rw [if_neg here] at gone kept
            exact ⟨gone, kept⟩

/-- The flush leaves the links in the root's overflow slot. -/
theorem flush_links (I : Inv st [] path) (found : st.tryGetNode st.rootIdx = some root) {count : Nat}
    (ran : st.deln [] = .ok (count, st')) : st'.iterAllChildren st.rootIdx = [] ↔ root.overflowIdx = none := by
  obtain ⟨n', eq⟩ : ∃ n' : Node V, n' = { root.clearVal with childs := .default } := ⟨_, rfl⟩
  obtain ⟨count', st'', ran', -, -, atRoot, -⟩ := deln_nil_ok I found
  obtain rfl : st'' = st' := (Prod.mk.inj (Except.ok.inj (ran'.symm.trans ran))).2
  have found₁ : (st.setNode st.rootIdx n').tryGetNode st.rootIdx = some n' := by
    rw [tryGetNode_setNode, if_pos rfl, found]
    rfl
  have slotOk : SlotOk st.overflowArena st.hugeOvf (.default, root.overflowIdx) :=
    fun s slot => TierInv.slotOk I.kids (tier_eq found) s slot
  have sub : (linksOf st.overflowArena st.hugeOvf (.default, root.overflowIdx)).Sublist
      (linksOf st.overflowArena st.hugeOvf (root.childs, root.overflowIdx)) :=
    (List.nil_sublist _).append (List.Sublist.refl _)
  have K₁ : KidsInv (st.setNode st.rootIdx n') := by
    have new : (st.setNode st.rootIdx n').tier st.rootIdx = some (.default, root.overflowIdx) := by
      rw [tier_eq found₁, eq]
      rfl
    have others : ∀ i, i ≠ st.rootIdx → (st.setNode st.rootIdx n').tier i = st.tier i := fun i other => by
      rw [tier_setNode found, if_neg other]
    refine (TierInv.update I.kids (tier_eq found) new others ?_ ?_ ?_).1
    · exact ⟨fun _ _ _ => rfl, fun _ _ _ => rfl, fun _ same => .inl same, fun _ same => .inl same, slotOk, I.kids.freeList⟩
    · exact (TierInv.nodup I.kids (tier_eq found)).sublist (sub.map Prod.fst)
    · exact fun q member => TierInv.keyByte I.kids (tier_eq found) q (sub.subset member)
  obtain ⟨-, kept⟩ := freeLoop_links ((st.setNode st.rootIdx n').freeFuel (st.collectChildIndices st.rootIdx)) none
    (st.setNode st.rootIdx n') (st.collectChildIndices st.rootIdx) 0 K₁
  have after : st'' = (freeLoop ((st.setNode st.rootIdx n').freeFuel (st.collectChildIndices st.rootIdx)) none
      (st.setNode st.rootIdx n') (st.collectChildIndices st.rootIdx) 0).2.2 := by
    simp only [deln, List.isEmpty_nil, if_true, getNode_ok found, bind, Except.bind, ← eq, freeSubtreeIterative] at ran
    exact (Prod.mk.inj (Except.ok.inj ran)).2.symm
  have links : st''.iterAllChildren st.rootIdx = (shelfOf st.overflowArena st.hugeOvf (.default, root.overflowIdx)).links := by
    rw [← after] at kept
    rw [(kept st.rootIdx).2.resolve_left (by rw [atRoot]; exact Option.some_ne_none _), iterAllChildren_view found₁, eq]
    rfl
  rw [links, Shelf.links, List.append_eq_nil_iff, List.append_eq_nil_iff, slot_none_iff slotOk]
  exact and_iff_right rfl

/-! ## The first key of a bare root -/

/-- The first link of a root without links leads to a leaf. -/
theorem set_first (I : Inv st [] path) (found : st.tryGetNode st.rootIdx = some root) (bare : st.iterAllChildren st.rootIdx = [])
    {r : UInt8} (byte : KeyByte r) (v : V) :
    ∃ st₁ path₁ root₁ j, st.set [r] v = .ok st₁ ∧ Inv st₁ [] path₁ ∧ Stays st st₁ ∧
      st₁.entry = Function.update st.entry [r] (some (v, none)) ∧ st₁.tryGetNode st.rootIdx = some root₁ ∧
      st₁.viewOf root₁ = (st.viewOf root).push r j := by
  have bytes : KeyOk [r] := by
    intro b member
    rwa [List.mem_singleton.1 member]
  obtain ⟨st₁, path₁, ran, S, entries⟩ := setInternal_ok I (fun _ => True) bytes (by decide : ExpAndRadix.noExp < 2 ^ 56) v
  have absent : st.find st.rootIdx r = none := by
    rw [find_eq_lookup, bare]
    rfl
  have walk : st.walk [r] = .noChild st.rootIdx [r] := by
    simp only [OxidArt.walk, List.length_singleton, walkFrom, absent]
  have made := ran
  simp only [setInternal, walk] at made
  obtain ⟨⟨j, st₂⟩, created, same⟩ := exists_of_bind made
  obtain rfl : st₂ = st₁ := Except.ok.inj same
  obtain ⟨free, view⟩ := view_createNodeWithVal I.kids found absent byte (by decide : ExpAndRadix.noExp < 2 ^ 56) created
  have other : st.rootIdx ≠ j := by
    intro same
    rw [← same, view_eq found] at free
    cases free
  have read : st₂.view st.rootIdx = some ((st.viewOf root).push r j) := by
    rw [view, Heap.hang, modify_eq (by rw [Function.update_of_ne other, view_eq found]), Function.update_self]
  obtain ⟨root₁, found₁, same⟩ := node_of_view read
  exact ⟨st₂, path₁, root₁, j, ran, S.inv, S.stays, entries, found₁, same.symm⟩

/-! ## Like a new store -/

/-- The store is empty, its root links nothing, and every run gives the replies that it gives on a new store with the same clock. -/
def ActsNew (st : OxidArt P V) : Prop :=
  (∀ key, replyOf (st.get key) = .ok none) ∧ st.getn [] = .ok [] ∧ st.iterAllChildren st.rootIdx = [] ∧
    ∀ ops, Meets execTree (fun s op => op.Everyday s) ops ((new : OxidArt P V).setNow st.now) →
      ∃ replies s s₀, run execTree ops st = .ok (replies, s) ∧
        run execTree ops ((new : OxidArt P V).setNow st.now) = .ok (replies, s₀)

/-- A store that is only a root without a value has no entries. -/
theorem entry_of_rootOnly (I : Inv st [] fun i => if i = st.rootIdx then some [] else none)
    (found : st.tryGetNode st.rootIdx = some root) (clear : root.val = none) (key : Bytes) : st.entry key = none := by
  by_cases empty : key = []
  · subst empty
    rw [I.entry_of_path (if_pos rfl), content_eq found, Node.content, clear]
    rfl
  · refine I.entry_eq_none fun i at' => ?_
    split at at'
    · exact empty (Option.some.inj at').symm
    · cases at'

theorem new_nodes (now : Nat) (i : Nat) : ((new : OxidArt P V).setNow now).tryGetNode i =
    if i = ((new : OxidArt P V).setNow now).rootIdx then some .default else none := TaggedHiSlab.get_insertSlot _ _ i

theorem inv_new_setNow (now : Nat) : Inv ((new : OxidArt P V).setNow now) []
    (fun i => if i = ((new : OxidArt P V).setNow now).rootIdx then some [] else none) := inv_new.setNow now

theorem new_root (now : Nat) : ((new : OxidArt P V).setNow now).tryGetNode ((new : OxidArt P V).setNow now).rootIdx = some .default :=
  (new_nodes now _).trans (if_pos rfl)

theorem new_bare (now : Nat) : ((new : OxidArt P V).setNow now).iterAllChildren ((new : OxidArt P V).setNow now).rootIdx = [] := by
  rw [iterAllChildren_view (new_root now)]
  rfl

theorem new_entry (now : Nat) (key : Bytes) : ((new : OxidArt P V).setNow now).entry key = none :=
  entry_of_rootOnly (inv_new_setNow now) (new_root now) rfl key

theorem live_of_first {st₁ : OxidArt P V} {r : UInt8} {v : V} (empty : ∀ key, st.entry key = none)
    (entries : st₁.entry = Function.update st.entry [r] (some (v, none))) (key : Bytes) :
    (st₁.live key).map Prod.fst = if key = [r] then some v else none := by
  rw [live, entries, Function.update_apply, empty]
  split <;> rfl

/-- The replies of two runs that return. -/
theorem replies_eq {ops : List (TreeOp V)} {st₀ s s₀ : OxidArt P V} {replies replies₀ : List (TreeReply V)}
    (replay : ∃ replies s s₀, run execTree ops st = .ok (replies, s) ∧ run execTree ops st₀ = .ok (replies, s₀))
    (ran : run execTree ops st = .ok (replies, s)) (ran₀ : run execTree ops st₀ = .ok (replies₀, s₀)) : replies = replies₀ := by
  obtain ⟨both, _, _, ran', ran₀'⟩ := replay
  exact (Prod.mk.inj (Except.ok.inj (ran.symm.trans ran'))).1.trans (Prod.mk.inj (Except.ok.inj (ran₀'.symm.trans ran₀))).1

section Flushed

variable (I : Inv st [] fun i => if i = st.rootIdx then some [] else none) (found : st.tryGetNode st.rootIdx = some root)
  (clear : root.val = none) (bare : st.iterAllChildren st.rootIdx = [])

include I found clear bare

/-- The root's compression shows in a scan. -/
theorem not_actsNew_of_compression (v : V) (compressed : root.compression ≠ []) : ¬ ActsNew st := by
  rintro ⟨-, -, -, replay⟩
  have byte : KeyByte 97 := by decide
  obtain ⟨st₁, path₁, root₁, j, ran, I₁, stays, entries, found₁, view⟩ := set_first I found bare byte v
  obtain ⟨st₁₀, path₁₀, root₁₀, j₀, ran₀, I₁₀, stays₀, entries₀, found₁₀, view₀⟩ :=
    set_first (inv_new_setNow st.now) (new_root st.now) (new_bare st.now) byte v
  have compression : root₁.compression = root.compression := congrArg View.compression view
  have compression₀ : root₁₀.compression = [] := congrArg View.compression view₀
  rw [← stays.rootIdx] at found₁
  rw [← stays₀.rootIdx] at found₁₀
  obtain ⟨l, scan, lists⟩ := getn_ok I₁ [] found₁
  obtain ⟨l₀, scan₀, lists₀⟩ := getn_ok I₁₀ [] found₁₀
  have runs : ∀ {s s₁ : OxidArt P V} {l : List (Bytes × V)}, s.set [97] v = .ok s₁ → s₁.getn [] = .ok l →
      run execTree [.set [97] v, .getn []] s = .ok ([.done, .pairs l], s₁) := by
    intro s s₁ l set scan
    exact run_cons (execTree_set set) (run_cons (execTree_getn scan) rfl)
  have same := replies_eq (replay [.set [97] v, .getn []] (.of_forall (by simp [TreeOp.Everyday, KeyOk, byte]) _)) (runs ran scan)
    (runs ran₀ scan₀)
  obtain rfl : l = l₀ := by simpa using same
  have empty := entry_of_rootOnly I found clear
  rw [if_pos rfl, compression] at lists
  rw [if_pos rfl, compression₀] at lists₀
  have shown : (root.compression ++ [97], v) ∈ l :=
    (lists.mem _ v).2 ⟨[97], rfl, List.nil_prefix, by rw [live_of_first empty entries, if_pos rfl]⟩
  obtain ⟨q, whole, -, held⟩ := (lists₀.mem _ v).1 shown
  rw [live_of_first (new_entry st.now) entries₀] at held
  split at held
  next here => exact compressed (by simpa [here] using whole)
  next => cases held

/-- The root's expiry, once it is past, makes the root absorb its only child, whose key is lost. -/
theorem not_actsNew_of_expiry (v : V) {e : Nat} (expires : root.expAndRadix.exp = some e) : ¬ ActsNew st := by
  rintro ⟨-, -, -, replay⟩
  have byte : KeyByte 97 := by decide
  -- One second later, with one key below the root.
  have I' := I.setNow (e + 1)
  obtain ⟨st₁, path₁, root₁, j, ran, I₁, stays, entries, found₁, view⟩ := set_first I' found bare byte v
  obtain ⟨st₁₀, path₁₀, root₁₀, j₀, ran₀, I₁₀, stays₀, entries₀, found₁₀, view₀⟩ :=
    set_first (inv_new_setNow (P := P) (e + 1)) (new_root (e + 1)) (new_bare (e + 1)) byte v
  rw [← stays.rootIdx] at found₁
  rw [← stays₀.rootIdx] at found₁₀
  have exp : root₁.expAndRadix.exp = some e := (congrArg View.exp view).trans expires
  have exp₀ : root₁₀.expAndRadix.exp = none := by
    refine (congrArg View.exp view₀).trans ?_
    simp [View.push, viewOf, Node.default]
  have past : root₁.isExpired st₁.now = true := by
    rw [Node.isExpired_eq, exp, stays.now]
    simp [expired, OxidArt.setNow]
  have current : root₁₀.isExpired st₁₀.now = false := by
    rw [Node.isExpired_eq, exp₀]
    rfl
  have single : root₁.getSingleChild = some (97, j) := by
    have links : (st.viewOf root).shelf = .empty := Shelf.eq_empty ((iterAllChildren_view found).symm.trans bare)
    rw [single_viewOf (TierInv.slotOk I₁.kids (tier_eq found₁)), view]
    change ((st.viewOf root).shelf.push 97 j).single = _
    rw [links]
    rfl
  obtain ⟨st₂, cleared, C⟩ := get_empty_expired I₁ found₁ past
  obtain ⟨p, nonempty, -, shifted⟩ := C.single 97 j single
  obtain ⟨path₂, I₂⟩ := C.sound
  obtain ⟨w, st₃, last, -⟩ := get_keeps I₂ [97]
  obtain ⟨w₀, st₃₀, last₀, -⟩ := get_keeps I₁₀ [97]
  have kept : st₁₀.get [] = .ok (none, st₁₀) := by
    have val : root₁₀.val = none := congrArg View.val view₀
    simp only [get, getIdx, List.isEmpty_nil, if_true, getNode_ok found₁₀, current, bind, Except.bind, Bool.false_eq_true, if_false,
      pure, Except.pure, Node.getValue, val]
  have lost : w = none := by
    have reply := get_reply I₂ [97]
    have gone : st₂.entry [97] = none := by
      rw [shifted, entries]
      refine (Function.update_of_ne (by simpa using nonempty) _ _).trans ?_
      rw [entry_setNow I, entry_of_rootOnly I found clear]
    rw [last, live, gone] at reply
    exact Except.ok.inj reply
  have found' : w₀ = some v := by
    have reply := get_reply I₁₀ [97]
    rw [last₀, live_of_first (new_entry (e + 1)) entries₀, if_pos rfl] at reply
    exact Except.ok.inj reply
  have runs : ∀ {s s₁ s₂ s₃ : OxidArt P V} {x y : Option V}, (s.setNow (e + 1)).set [97] v = .ok s₁ → s₁.get [] = .ok (x, s₂) →
      s₂.get [97] = .ok (y, s₃) →
      run execTree [.setNow (e + 1), .set [97] v, .get [], .get [97]] s = .ok ([.done, .done, .value x, .value y], s₃) := by
    intro s s₁ s₂ s₃ x y set first second
    exact run_cons rfl (run_cons (execTree_set set) (run_cons (execTree_get first) (run_cons (execTree_get second) rfl)))
  have same := replies_eq (replay [.setNow (e + 1), .set [97] v, .get [], .get [97]]
    (.of_forall (by simp [TreeOp.Everyday, KeyOk, byte]) _)) (runs ran cleared last) (runs ran₀ kept last₀)
  rw [lost, found'] at same
  simp at same

end Flushed

/-- A bare root without compression and expiry is the twin of a new store. -/
theorem twins_new (I : Inv st [] fun i => if i = st.rootIdx then some [] else none) (found : st.tryGetNode st.rootIdx = some root)
    (clear : root.val = none) (bare : st.iterAllChildren st.rootIdx = []) (short : root.compression = [])
    (permanent : root.expAndRadix.exp = none) :
    Twins (fun _ => ((new : OxidArt P V).setNow st.now).rootIdx) st ((new : OxidArt P V).setNow st.now) := by
  have view : ∀ {i b}, st.view i = some b → i = st.rootIdx ∧ b = .leaf [] none none := by
    intro i b read
    obtain ⟨n, occupied, rfl⟩ := node_of_view read
    have same : i = st.rootIdx := by
      obtain ⟨k, at'⟩ := I.path_of_label (graph_label occupied)
      by_contra other
      rw [if_neg other] at at'
      cases at'
    obtain rfl := Option.some.inj (found.symm.trans (same ▸ occupied))
    have links : (st.viewOf root).shelf = .empty := Shelf.eq_empty ((iterAllChildren_view found).symm.trans bare)
    refine ⟨same, ?_⟩
    rw [← short, ← clear, ← permanent, View.leaf, ← links]
    rfl
  have view₀ : ((new : OxidArt P V).setNow st.now).view ((new : OxidArt P V).setNow st.now).rootIdx = some (.leaf [] none none) := by
    rw [view_eq (new_root st.now), viewOf]
    simp only [Node.default, ExpAndRadix.exp_noExpiracy]
    rfl
  refine ⟨⟨_, I⟩, ⟨_, inv_new_setNow st.now⟩, ⟨?_, ?_⟩, rfl, rfl⟩
  · intro i b read
    rw [view₀, (view read).2]
    rfl
  · intro i j held held' _
    obtain ⟨b, read⟩ := Option.ne_none_iff_exists'.1 held
    obtain ⟨c, read'⟩ := Option.ne_none_iff_exists'.1 held'
    rw [(view read).1, (view read').1]

theorem actsNew_of_bare (I : Inv st [] fun i => if i = st.rootIdx then some [] else none) (found : st.tryGetNode st.rootIdx = some root)
    (clear : root.val = none) (bare : st.iterAllChildren st.rootIdx = []) (short : root.compression = [])
    (permanent : root.expAndRadix.exp = none) : ActsNew st := by
  have empty := entry_of_rootOnly I found clear
  have dead : ∀ key, st.live key = none := fun key => by
    rw [live, empty]
    rfl
  refine ⟨fun key => ?_, ?_, bare, fun ops meets => (twins_new I found clear bare short permanent).run meets⟩
  · rw [get_reply I, dead]
    rfl
  · obtain ⟨l, scan, lists⟩ := getn_ok I [] found
    obtain rfl : l = [] := by
      refine List.eq_nil_iff_forall_not_mem.2 fun p member => ?_
      obtain ⟨q, -, -, held⟩ := (lists.mem p.1 p.2).1 member
      rw [dead] at held
      cases held
    exact scan

variable {S : Type} [Score S]

/-- The flush leaves a store that acts like a new one exactly when the root has no overflow slot, no compression and no expiry. -/
theorem flush_actsNew_iff {order : HashOrder} {st : OxidArt P (Value S)} {root : Node (Value S)} (reached : Reachable order st)
    (found : st.tryGetNode st.rootIdx = some root) : (∃ count st', st.deln [] = .ok (count, st') ∧ ActsNew st') ↔
      root.overflowIdx = none ∧ root.compression = [] ∧ root.expAndRadix.exp = none := by
  obtain ⟨path, I⟩ := reached.isSound
  have flushed : root.overflowIdx = none → ∃ count st', st.deln [] = .ok (count, st') ∧ st'.iterAllChildren st'.rootIdx = [] ∧
      Inv st' [] (fun i => if i = st'.rootIdx then some [] else none) ∧
      st'.tryGetNode st'.rootIdx = some { root.clearVal with childs := .default } := by
    intro inline
    obtain ⟨count, st', ran, stays, I', atRoot⟩ := flush_ok I found inline
    have bare := (flush_links I found ran).2 inline
    rw [← stays.rootIdx] at bare I' atRoot
    exact ⟨count, st', ran, bare, I', atRoot⟩
  constructor
  · rintro ⟨count, st', ran, acts⟩
    obtain ⟨_, st'', ran', -, stays, -⟩ := deln_nil_ok I found
    obtain rfl : st'' = st' := (Prod.mk.inj (Except.ok.inj (ran'.symm.trans ran))).2
    have inline : root.overflowIdx = none := (flush_links I found ran).1 (by rw [← stays.rootIdx]; exact acts.2.2.1)
    obtain ⟨_, st₁, ran₁, bare, I', atRoot⟩ := flushed inline
    obtain rfl : st₁ = st'' := (Prod.mk.inj (Except.ok.inj (ran₁.symm.trans ran))).2
    refine ⟨inline, ?_, ?_⟩
    · by_contra compressed
      exact not_actsNew_of_compression I' atRoot rfl bare (.int 0) compressed acts
    · cases expires : root.expAndRadix.exp with
      | none => rfl
      | some e => exact absurd acts (not_actsNew_of_expiry I' atRoot rfl bare (.int 0) expires)
  · rintro ⟨inline, short, permanent⟩
    obtain ⟨count, st', ran, bare, I', atRoot⟩ := flushed inline
    exact ⟨count, st', ran, actsNew_of_bare I' atRoot rfl bare short permanent⟩

/-- Three first bytes, one of them of two keys: the root has none of the three. -/
theorem flush_actsNew_iff_fourKeys : ∃ replies st,
    run (exec .stored) [.tree (.set [97] (.int 1)), .tree (.set [98, 120] (.int 2)), .tree (.set [98, 121] (.int 3)),
      .tree (.setTtl [99] 5 (.int 4))] (new : OxidArt .lowest (Value Int)) = .ok (replies, st) ∧
    ∃ count st', st.deln [] = .ok (count, st') ∧ ActsNew st' := by
  have sound : Meets (exec .stored) (fun st c => c.Sound st) [.tree (.set [97] (.int 1)), .tree (.set [98, 120] (.int 2)),
    .tree (.set [98, 121] (.int 3)), .tree (.setTtl [99] 5 (.int 4))] (new : OxidArt .lowest (Value Int)) := by decide +kernel
  exact ⟨_, _, rfl, (flush_actsNew_iff (.run .refl sound rfl) rfl).2 ⟨rfl, rfl, rfl⟩⟩

/-- Keys of seven first bytes: the last one is linked through the overflow slot. -/
def sevenKeys : List (Command Int) := [97, 98, 99, 100, 101, 102, 103].map fun b => .tree (.set [b] (.int 1))

/-- The root keeps the link to a freed node, and writing the key again panics. -/
theorem flush_keeps_link : ∃ replies st count st', run (exec .stored) sevenKeys (new : OxidArt .lowest (Value Int)) = .ok (replies, st) ∧
    Reachable .stored st ∧ st.deln [] = .ok (count, st') ∧
    (∃ freed, st'.find st'.rootIdx 103 = some freed ∧ st'.tryGetNode freed = none) ∧
    (st'.set [103] (.int 1)).isOk = false ∧ ¬ ActsNew st' := by
  have sound : Meets (exec .stored) (fun st c => c.Sound st) sevenKeys (new : OxidArt .lowest (Value Int)) := by decide +kernel
  obtain ⟨⟨⟩, whole⟩ := exists_of_isOk (do
      let (_, st) ← run (exec .stored) sevenKeys (new : OxidArt .lowest (Value Int))
      let (_, st') ← st.deln []
      let freed ← (st'.find st'.rootIdx 103).elim (.error .index) .ok
      if (st'.tryGetNode freed).isNone && !(st'.set [103] (.int 1)).isOk then pure () else .error .index) (by decide +kernel)
  obtain ⟨⟨replies, st⟩, ran, whole⟩ := exists_of_bind whole
  obtain ⟨⟨count, st'⟩, flushed, whole⟩ := exists_of_bind whole
  obtain ⟨freed, linked, whole⟩ := exists_of_bind whole
  have link : st'.find st'.rootIdx 103 = some freed := by
    cases read : st'.find st'.rootIdx 103 with
    | none =>
      rw [read] at linked
      cases linked
    | some i =>
      rw [read] at linked
      exact congrArg some (Except.ok.inj linked)
  split at whole
  next holds =>
    rw [Bool.and_eq_true, Option.isNone_iff_eq_none, Bool.not_eq_true'] at holds
    refine ⟨replies, st, count, st', ran, .run .refl sound ran, flushed, ⟨freed, link, holds.1⟩, holds.2, fun acts => ?_⟩
    rw [find_eq_lookup, acts.2.2.1] at link
    cases link
  next => cases whole

end OxidArt

end Radixox.Oxidart
