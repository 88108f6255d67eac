import Radixox.Oxidart.Commands
import Radixox.Oxidart.Slots

/-!
# Runs without a TTL

When no operation sets a TTL, no node carries an expiry, with or without a value. Every
function of the store keeps this, whatever the tree looks like.
-/

namespace Radixox.Oxidart
set_option autoImplicit false

namespace OxidArt

variable {P : Policy} {V : Type} {st st' : OxidArt P V} {α β : Type}

/-- No node carries an expiry. -/
def AllPermanent (st : OxidArt P V) : Prop := ∀ i n, st.tryGetNode i = some n → n.expAndRadix.exp = none

/-- The call, if it returns, leaves a state without expiries. -/
def Lasts (run : Exec α) (state : α → OxidArt P V) : Prop := ∀ a, run = .ok a → AllPermanent (state a)

theorem Lasts.pure {state : α → OxidArt P V} {a : α} (kept : AllPermanent (state a)) : Lasts (.ok a) state := by
  intro b same
  exact Except.ok.inj same ▸ kept

theorem Lasts.error {state : α → OxidArt P V} (e : Panic) : Lasts (.error e) state := nofun

theorem Lasts.bind {run : Exec β} {rest : β → Exec α} {state : α → OxidArt P V}
    (later : ∀ b, run = .ok b → Lasts (rest b) state) : Lasts (run.bind rest) state := by
  intro a same
  cases ran : run with
  | error => rw [ran] at same; cases same
  | ok b =>
    rw [ran] at same
    exact later b ran a same

/-! ## Nodes -/

theorem AllPermanent.getNode (H : AllPermanent st) {i : Nat} {n : Node V} (found : st.getNode i = .ok n) :
    n.expAndRadix.exp = none := by
  unfold OxidArt.getNode at found
  cases held : st.tryGetNode i with
  | none => rw [held] at found; cases found
  | some m =>
    rw [held] at found
    exact Except.ok.inj found ▸ H i m held

theorem permanent_ignoresLinks : IgnoresLinks fun (n : Node V) _ => n.expAndRadix.exp = none := by
  intro n n' _ _ exp permanent
  rw [exp, permanent]

theorem AllPermanent.everySlot (H : AllPermanent st) : EverySlot (fun n _ => n.expAndRadix.exp = none) st := H

theorem AllPermanent.rewires (H : AllPermanent st) (R : Rewires st st') : AllPermanent st' :=
  H.everySlot.rewires permanent_ignoresLinks R

theorem AllPermanent.setNode (H : AllPermanent st) {i : Nat} {n : Node V} (exp : n.expAndRadix.exp = none) :
    AllPermanent (st.setNode i n) := H.everySlot.setNode exp

theorem AllPermanent.clear (H : AllPermanent st) {i : Nat} {n : Node V} (found : st.getNode i = .ok n) :
    AllPermanent (st.setNode i n.clearVal) :=
  H.setNode (H.getNode (n := n) found)

theorem AllPermanent.insert (H : AllPermanent st) {n : Node V} (exp : n.expAndRadix.exp = none) : AllPermanent (st.insert n).2 :=
  H.everySlot.insert exp

theorem exp_of_setExp_noExp {e e' : ExpAndRadix} (set : e.setExp ExpAndRadix.noExp = .ok e') : e'.exp = none := by
  obtain ⟨made, ok, exp, -⟩ := e.setExp_ok (n := ExpAndRadix.noExp) (by decide)
  obtain rfl := Except.ok.inj (set.symm.trans ok)
  rw [exp, if_pos rfl]

theorem exp_of_setVal {n n' : Node V} {v : V} (set : n.setVal v ExpAndRadix.noExp = .ok n') : n'.expAndRadix.exp = none := by
  unfold Node.setVal at set
  cases made : n.expAndRadix.setExp ExpAndRadix.noExp with
  | error => rw [made] at set; cases set
  | ok e =>
    rw [made] at set
    obtain rfl := Except.ok.inj set
    exact exp_of_setExp_noExp made

/-! ## Links -/

theorem AllPermanent.alloc (H : AllPermanent st) {r : UInt8} {i : Nat} {p : Nat × OxidArt P V}
    (ran : st.allocOverflowWithFirst r i = .ok p) : AllPermanent p.2 :=
  H.rewires (.of_map (Rewires.map_allocOverflowWithFirst ran))

theorem AllPermanent.pushChildIdx (H : AllPermanent st) (p i : Nat) (r : UInt8) : Lasts (st.pushChildIdx p i r) id :=
  fun _ ran => H.rewires (.pushChildIdx ran)

theorem AllPermanent.removeNode (H : AllPermanent st) (i : Nat) : AllPermanent (st.removeNode i) := H.rewires (.removeNode st i)

theorem AllPermanent.removeChild (H : AllPermanent st) (p : Nat) (r : UInt8) : AllPermanent (st.removeChild p r) :=
  H.rewires (.removeChild st p r)

theorem AllPermanent.tryRecompress (H : AllPermanent st) (i : Nat) : Lasts (st.tryRecompress i) id :=
  fun _ ran => H.everySlot.tryRecompress permanent_ignoresLinks ran fun _ _ y child _ _ _ occupied => H y child occupied

/-! ## Insertions -/

theorem AllPermanent.createNodeWithVal (H : AllPermanent st) (p : Nat) (r : UInt8) (v : V) (c : Bytes) :
    Lasts (st.createNodeWithVal p r v c ExpAndRadix.noExp) Prod.snd := by
  refine .bind fun father _ => .bind fun leaf made => ?_
  have exp : leaf.expAndRadix.exp = none := by
    obtain ⟨e, ok, exp, -⟩ := ExpAndRadix.new_ok (n := ExpAndRadix.noExp) (by decide) r
    simp only [Node.newLeaf, ok] at made
    obtain rfl := Except.ok.inj made
    exact exp.trans (if_pos rfl)
  have H₁ := H.insert exp
  simp only [ne_eq, not_true_eq_false, if_false]
  split
  · exact .bind fun father found => .bind fun childs _ => .pure (H₁.setNode (H₁.getNode (n := father) found))
  · refine .bind fun s ran => .bind fun m found' => .pure ?_
    have H₂ := H₁.alloc ran
    exact H₂.setNode (H₂.getNode (n := m) found')
  · split
    · exact .error _
    · exact .bind fun o _ => .pure H₁

theorem AllPermanent.splitLeaf (H : AllPermanent st) (common : Nat) (rest : Bytes) (i : Nat) {ttl : Option Nat}
    (forever : ttl.getD ExpAndRadix.noExp = ExpAndRadix.noExp) (v : Option V) :
    Lasts (st.splitLeaf common rest i ttl v) Prod.snd := by
  unfold OxidArt.splitLeaf
  split
  · exact .error _
  · rw [forever]
    exact H.createNodeWithVal _ _ _ _
  · refine .bind fun st₁ ran => .pure ?_
    exact (H.insert (ExpAndRadix.exp_noExpiracy _)).pushChildIdx _ _ _ st₁ ran

theorem AllPermanent.splitNode (H : AllPermanent st) (common : Nat) (rest : Bytes) (i : Nat) {ttl : Option Nat}
    (forever : ttl.getD ExpAndRadix.noExp = ExpAndRadix.noExp) (v : Option V) :
    Lasts (st.splitNode common rest i ttl v) Prod.snd := by
  refine .bind fun old found => .bind fun node made => ?_
  have exp : node.expAndRadix.exp = none := by
    unfold splitIntermediate at made
    split at made
    · simp only [Option.getD_some] at forever
      exact exp_of_setVal (forever ▸ made)
    · obtain rfl := Except.ok.inj made
      exact ExpAndRadix.exp_setNoExpiracy _
    · obtain rfl := Except.ok.inj made
      exact ExpAndRadix.exp_setNoExpiracy _
  have H₁ := H.setNode (i := i) exp
  split
  · exact .error _
  · have forever' : old.expAndRadix.doesExpire = false := by
      rw [ExpAndRadix.doesExpire_eq, H.getNode found]
      rfl
    simp only [forever', Bool.false_eq_true, if_false]
    refine .bind fun st₂ ran => ?_
    have H₂ : AllPermanent st₂ := by
      refine (H₁.insert ?_).pushChildIdx _ _ _ st₂ ran
      exact H.getNode (n := old) found
    split
    · exact .pure H₂
    · exact H₂.splitLeaf _ _ _ forever _

theorem AllPermanent.set (H : AllPermanent st) (key : Bytes) (v : V) : Lasts (st.set key v) id := by
  unfold OxidArt.set setInternal
  split
  · exact .bind fun root found => .bind fun root' made => .pure (H.setNode (exp_of_setVal made))
  · split
    · exact .bind fun p ran => .pure (H.createNodeWithVal _ _ _ _ p ran)
    · exact .error _
    · exact .error _
    · exact .bind fun n found => .bind fun n' made => .pure (H.setNode (exp_of_setVal made))
    · exact .bind fun p ran => .pure (H.splitNode _ _ _ rfl _ p ran)

theorem AllPermanent.ensureKey (H : AllPermanent st) (key : Bytes) : Lasts (st.ensureKey key) Prod.snd := by
  unfold OxidArt.ensureKey
  split
  · exact .pure H
  · split
    · unfold ensure
      split
      · refine .bind fun st₁ ran => .pure ?_
        exact (H.insert (ExpAndRadix.exp_noExpiracy _)).pushChildIdx _ _ _ st₁ ran
      · exact .error _
    · exact .error _
    · exact .pure H
    · exact H.splitNode _ _ _ rfl _

/-! ## Removals -/

theorem AllPermanent.deleteNodeInline (H : AllPermanent st) (i p : Nat) (r : UInt8) : Lasts (st.deleteNodeInline i p r) id := by
  refine .bind fun n found => ?_
  split
  · exact (H.clear found).tryRecompress i
  · have H₁ := (H.removeNode i).removeChild p r
    dsimp only
    split
    · exact H₁.tryRecompress p
    · exact .pure H₁

theorem AllPermanent.getIdx (H : AllPermanent st) (key : Bytes) : Lasts (st.getIdx key) Prod.snd := by
  unfold OxidArt.getIdx
  split
  · refine .bind fun root found => ?_
    split
    · exact .bind fun st₁ ran => .pure ((H.clear found).tryRecompress _ st₁ ran)
    · exact .pure H
  · split
    · refine .bind fun n found => ?_
      split
      · exact .bind fun st₁ ran => .pure (H.deleteNodeInline _ _ _ st₁ ran)
      · exact .pure H
    · exact .pure H

theorem AllPermanent.get (H : AllPermanent st) (key : Bytes) : Lasts (st.get key) Prod.snd := by
  refine .bind ?_
  rintro ⟨res, st₁⟩ ran
  dsimp only
  have H₁ := H.getIdx key _ ran
  split
  · exact .pure H₁
  · exact .bind fun n _ => .pure H₁

theorem AllPermanent.del (H : AllPermanent st) (key : Bytes) : Lasts (st.del key) Prod.snd := by
  unfold OxidArt.del
  split
  · refine .bind fun root found => .bind fun st₁ ran => .pure ?_
    exact (H.clear found).tryRecompress _ st₁ ran
  · split
    next targetIdx parentIdx parentRadix _ _ =>
      refine .bind fun n found => ?_
      split
      · split
        · exact .pure H
        · exact .bind fun st₁ ran => .pure ((H.clear found).tryRecompress _ st₁ ran)
      · have H₁ := (H.removeNode targetIdx).removeChild parentIdx parentRadix
        dsimp only
        split
        · exact .bind fun st₁ ran => .pure (H₁.tryRecompress _ st₁ ran)
        · exact .pure H₁
    next => exact .pure H

theorem AllPermanent.freeNode (H : AllPermanent st) {i : Nat} {children : List Nat} {hasVal : Bool}
    (ran : st.freeNode i = some (children, hasVal, st')) : AllPermanent st' := by
  unfold OxidArt.freeNode at ran
  split at ran
  · cases ran
  · obtain ⟨-, rest⟩ := Prod.mk.inj (Option.some.inj ran)
    obtain ⟨-, rfl⟩ := Prod.mk.inj rest
    apply AllPermanent.removeNode
    split
    · exact H
    · exact H

theorem AllPermanent.freeLoop (fuel : Nat) : ∀ (budget : Option Nat) (st : OxidArt P V) (stack : List Nat) (count : Nat),
    AllPermanent st → AllPermanent (OxidArt.freeLoop fuel budget st stack count).2.2 := by
  induction fuel with
  | zero => exact fun _ _ _ _ H => H
  | succ fuel ih =>
    intro budget st stack count H
    rw [OxidArt.freeLoop]
    split
    · exact H
    · split
      · exact H
      · split
        · exact ih _ _ _ _ H
        next ran => exact ih _ _ _ _ (H.freeNode ran)

theorem AllPermanent.deln (H : AllPermanent st) (pfx : Bytes) : Lasts (st.deln pfx) Prod.snd := by
  have subtree : ∀ i p r, Lasts (st.delnSubtree i p r) Prod.snd := by
    intro i p r
    have H₁ : AllPermanent ((st.removeChild p r).freeSubtreeIterative [i]).2 :=
      AllPermanent.freeLoop _ _ _ _ _ (H.removeChild p r)
    unfold delnSubtree
    dsimp only
    split
    · exact .bind fun st₁ ran => .pure (H₁.tryRecompress _ st₁ ran)
    · exact .pure H₁
  unfold OxidArt.deln
  split
  · refine .bind fun root found => .pure ?_
    exact AllPermanent.freeLoop _ _ _ _ _ (H.setNode (H.getNode (n := root) found))
  · split
    · exact subtree _ _ _
    · split
      · exact subtree _ _ _
      · exact .pure H
    · exact .pure H

/-! ## Typed commands -/

theorem AllPermanent.putVal (H : AllPermanent st) (i : Nat) (v : V) : Lasts (st.putVal i v) id :=
  .bind fun n found => .pure (H.setNode (H.getNode (n := n) found))

theorem AllPermanent.getMut (H : AllPermanent st) (key : Bytes) : Lasts (st.getMut key) Prod.snd := by
  refine .bind ?_
  rintro ⟨res, st₁⟩ ran
  dsimp only
  have H₁ := H.getIdx key _ ran
  split
  · exact .pure H₁
  · exact .bind fun n _ => .pure H₁

theorem AllPermanent.getOrCreate (H : AllPermanent st) (isContainer : V → Bool) (empty : V) (key : Bytes) :
    Lasts (st.getOrCreate isContainer empty none key) Prod.snd := by
  refine .bind ?_
  rintro ⟨i, st₁⟩ ran
  refine .bind fun n found => ?_
  have H₁ := H.ensureKey key _ ran
  split
  · split
    · exact .pure H₁
    · exact .pure H₁
  · refine .bind fun e same => ?_
    obtain rfl := Except.ok.inj same
    dsimp only
    split
    · exact .pure (H₁.setNode (H₁.getNode (n := n) found))
    · exact .error _

section Typed

variable {S : Type} [Score S] {st st' : OxidArt P (Value S)} {C : Type}

theorem AllPermanent.incrby (H : AllPermanent st) (key : Bytes) (delta : Int64) : Lasts (st.incrby key delta) Prod.snd := by
  unfold OxidArt.incrby
  dsimp only
  split
  on_goal 2 => refine .bind fun n _ => ?_
  all_goals
    refine .bind fun live _ => ?_
    split
    · split
      · exact .bind fun st₁ ran => .pure (H.putVal _ _ st₁ ran)
      · exact .pure H
    · exact .bind fun st₁ ran => .pure (H.set _ _ st₁ ran)

theorem AllPermanent.getContainer (H : AllPermanent st) (view : Value S → Except RedisType C) (empty : Value S) (key : Bytes) :
    Lasts (st.getContainer view empty none key) Prod.snd := by
  refine .bind ?_
  rintro ⟨res, st₁⟩ ran
  dsimp only
  have H₁ := H.getOrCreate _ _ _ _ ran
  split
  · exact .pure H₁
  · split
    · exact .pure H₁
    · exact .pure H₁

theorem AllPermanent.getHashMut (H : AllPermanent st) (key : Bytes) : Lasts (st.getHashMut none key) Prod.snd :=
  .bind fun p ran => .pure (H.getContainer _ _ _ p ran)

theorem AllPermanent.getBtreeSetMut (H : AllPermanent st) (key : Bytes) : Lasts (st.getBtreeSetMut none key) Prod.snd :=
  .bind fun p ran => .pure (H.getContainer _ _ _ p ran)

theorem AllPermanent.getZsetMut (H : AllPermanent st) (key : Bytes) : Lasts (st.getZsetMut none key) Prod.snd := by
  refine .bind ?_
  rintro ⟨res, st₁⟩ ran
  dsimp only
  have H₁ := H.getContainer _ _ _ _ ran
  split
  · exact .pure H₁
  · simp only [Option.isSome_none, Bool.and_false, Bool.false_eq_true, if_false]
    exact .pure H₁

theorem AllPermanent.changeIn {got : Exec (Except TypeError (Nat × C) × OxidArt P (Value S))} (gets : Lasts got Prod.snd)
    (wrap : C → Value S) (change : C → Except TypeError (α × C)) : Lasts (OxidArt.changeIn got wrap change) Prod.snd := by
  refine .bind ?_
  rintro ⟨res, st₁⟩ ran
  dsimp only
  have H₁ := gets _ ran
  split
  · exact .pure H₁
  · split
    · exact .pure H₁
    · exact .bind fun st₁ put => .pure (H₁.putVal _ _ st₁ put)

theorem AllPermanent.removeFrom (H : AllPermanent st) (key : Bytes) (view : Value S → Except RedisType C) (wrap : C → Value S)
    (remove : C → Bytes → Bool × C) (isEmpty : C → Bool) (items : List Bytes) :
    Lasts (st.removeFrom key view wrap remove isEmpty items) Prod.snd := by
  refine .bind ?_
  rintro ⟨res, st₁⟩ ran
  dsimp only
  have H₁ := H.getMut key _ ran
  split
  · exact .pure H₁
  · split
    · exact .pure H₁
    · refine .bind fun st₁ put => ?_
      have H₂ := H₁.putVal _ _ st₁ put
      split
      · exact .bind fun q del => .pure (AllPermanent.del H₂ key q del)
      · exact .pure H₂

theorem AllPermanent.readAs (H : AllPermanent st) (key : Bytes) (view : Value S → Except RedisType C) (absent : α) (read : C → α) :
    Lasts (st.readAs key view absent read) Prod.snd := by
  refine .bind ?_
  rintro ⟨res, st₁⟩ ran
  dsimp only
  have H₁ := H.getMut key _ ran
  split
  · exact .pure H₁
  · exact .pure H₁

theorem AllPermanent.readSet (H : AllPermanent st) (key : Bytes) (absent : α) (read : SortedSet Bytes → α) :
    Lasts (st.readSet key absent read) Prod.snd := by
  refine .bind ?_
  rintro ⟨res, st₁⟩ ran
  dsimp only
  have H₁ := H.getMut key _ ran
  split
  · exact .pure H₁
  · split
    · exact .pure H₁
    · split
      · exact .bind fun q del => .pure (AllPermanent.del H₁ key q del)
      · exact .pure H₁

end Typed

end OxidArt

end Radixox.Oxidart
