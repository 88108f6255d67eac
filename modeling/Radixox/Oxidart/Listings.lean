import Radixox.Oxidart.Async
import Radixox.Oxidart.Subtrees
import Radixox.Oxidart.Scans

/-!
# Scans with a stack

`getn_async` and `getn_regex` keep their own stack of indices, each with the bytes that lead to its node. `Scanning` is the
invariant of both: the parts of the tree that the entries stand for lie apart, no key found is in one of them, and every
wanted key is found or in one of them.
-/

namespace Radixox.Oxidart
set_option autoImplicit false
open Radixox.PathForest

namespace OxidArt

variable {P : Policy} {V : Type} {st : OxidArt P V} {cut : List Nat} {path : Nat → Option Bytes}

/-- Two prefixes without a common extension. -/
def Apart (a b : Bytes) : Prop := ¬ a <+: b ∧ ¬ b <+: a

theorem Apart.extend {a b c : Bytes} (apart : Apart a b) (longer : b <+: c) : Apart a c :=
  ⟨fun inside => (List.prefix_or_prefix_of_prefix inside longer).elim apart.1 apart.2, fun inside => apart.2 (longer.trans inside)⟩

/-- The entry stands for a node above the key. -/
def Leads (st : OxidArt P V) (e : Nat × Bytes) (k : Bytes) : Prop :=
  ∃ n, st.tryGetNode e.1 = some n ∧ e.2 ++ n.compression <+: k

/-- A scan below `pfx`: `W` are the keys it has to find, `Was` holds of the keys it may find. -/
structure Scanning (st : OxidArt P V) (path : Nat → Option Bytes) (pfx : Bytes) (W Was : Bytes → Prop)
    (stack : List (Nat × Bytes)) (out : List Bytes) : Prop where
  node : ∀ e ∈ stack, ∀ n, st.tryGetNode e.1 = some n → path e.1 = some (e.2 ++ n.compression)
  under : ∀ e ∈ stack, pfx <+: e.2
  apart : stack.Pairwise fun e f => Apart e.2 f.2
  nodup : out.Nodup
  sound : ∀ k ∈ out, pfx <+: k ∧ Was k ∧ ∀ e ∈ stack, ¬ e.2 <+: k
  all : ∀ k, W k → k ∈ out ∨ ∃ e ∈ stack, st.Leads e k

/-- The entries for the children of a node. -/
def kidsOf (st : OxidArt P V) (i : Nat) (full : Bytes) : List (Nat × Bytes) :=
  (st.iterAllChildren i).map fun p => (p.2, full ++ [p.1])

section Scanning

variable {pfx : Bytes} {W Was : Bytes → Prop} {stack : List (Nat × Bytes)} {out : List Bytes}

theorem mem_kidsOf (I : Inv st cut path) {i : Nat} {full : Bytes} {e : Nat × Bytes} (member : e ∈ st.kidsOf i full) :
    ∃ r, st.find i r = some e.1 ∧ e.2 = full ++ [r] := by
  obtain ⟨⟨r, j⟩, inside, rfl⟩ := List.mem_map.1 member
  exact ⟨r, I.kids.find_iff.2 inside, rfl⟩

theorem kidsOf_apart (I : Inv st cut path) (i : Nat) (full : Bytes) :
    (st.kidsOf i full).Pairwise fun e f => Apart e.2 f.2 := by
  have radices := I.kids.nodup i
  rw [List.nodup_iff_pairwise_ne, List.pairwise_map] at radices
  unfold kidsOf
  rw [List.pairwise_map]
  refine radices.imp fun differ => ?_
  constructor
  · intro inside
    rw [List.prefix_append_right_inj, List.cons_prefix_cons] at inside
    exact differ inside.1
  · intro inside
    rw [List.prefix_append_right_inj, List.cons_prefix_cons] at inside
    exact differ inside.1.symm

/-- A live key below a node is its own or below one of the entries for its children. -/
theorem kidsOf_reach (I : Inv st cut path) {i : Nat} {full : Bytes} (at' : path i = some full) {k : Bytes}
    (held : (st.live k).isSome = true) (below : full <+: k) : k = full ∨ ∃ e ∈ st.kidsOf i full, st.Leads e k := by
  obtain ⟨c, live⟩ := Option.isSome_iff_exists.1 held
  obtain ⟨z, atz, -⟩ := I.entry_iff.1 (Option.filter_eq_some_iff.1 live).1
  obtain ⟨t, rfl⟩ := below
  cases t with
  | nil => exact .inl (List.append_nil _)
  | cons r t =>
    obtain ⟨y, l, t', edge, read, rfl, -⟩ := (I.forest.reach_below at' atz).cons_inv
    obtain ⟨m, found, rfl⟩ := graph_label_iff.1 read
    have inside : (y, full ++ [r]) ∈ st.kidsOf i full := List.mem_map.2 ⟨(r, y), I.kids.find_iff.1 edge, rfl⟩
    exact .inr ⟨_, inside, m, found, t', by simp⟩

/-- A node joins the scan: its key and its children, as far as they are wanted. -/
theorem Scanning.add (I : Inv st cut path) {i : Nat} {full : Bytes} (at' : path i = some full)
    (S : Scanning st path pfx (fun k => W k ∧ ¬ full <+: k) Was stack out) (under : pfx <+: full)
    (apart : ∀ e ∈ stack, Apart e.2 full) (fresh : ∀ k ∈ out, ¬ full <+: k) {kids : List (Nat × Bytes)} {own : List Bytes}
    (sub : kids.Sublist (st.kidsOf i full)) (mine : own = [] ∨ own = [full] ∧ Was full)
    (kept : ∀ k, W k → full <+: k → k ∈ own ∨ ∃ e ∈ kids, st.Leads e k) :
    Scanning st path pfx W Was (stack ++ kids) (out ++ own) := by
  have kid : ∀ e ∈ kids, ∃ r, st.find i r = some e.1 ∧ e.2 = full ++ [r] := fun e member => mem_kidsOf I (sub.subset member)
  have deeper : ∀ e ∈ kids, full <+: e.2 ∧ ¬ e.2 <+: full := by
    intro e member
    obtain ⟨r, -, same⟩ := kid e member
    rw [same]
    refine ⟨List.prefix_append _ _, fun inside => ?_⟩
    have := inside.length_le
    simp at this
  have only : ∀ k ∈ own, k = full := by
    intro k member
    rcases mine with rfl | ⟨rfl, -⟩
    · cases member
    · exact List.mem_singleton.1 member
  refine ⟨?_, ?_, ?_, ?_, ?_, ?_⟩
  · intro e member n found
    rcases List.mem_append.1 member with old | new
    · exact S.node e old n found
    · obtain ⟨r, edge, same⟩ := kid e new
      rw [I.forest.kidPath edge (graph_label found), at', same]
      simp
  · intro e member
    rcases List.mem_append.1 member with old | new
    · exact S.under e old
    · exact under.trans (deeper e new).1
  · rw [List.pairwise_append]
    exact ⟨S.apart, (kidsOf_apart I i full).sublist sub, fun e old f new => (apart e old).extend (deeper f new).1⟩
  · rw [List.nodup_append]
    refine ⟨S.nodup, ?_, ?_⟩
    · rcases mine with rfl | ⟨rfl, -⟩
      · exact List.nodup_nil
      · exact List.nodup_singleton _
    · intro k old k' new same
      rw [same, only k' new] at old
      exact fresh full old (List.prefix_refl full)
  · intro k member
    rcases List.mem_append.1 member with old | new
    · obtain ⟨begins, was, outside⟩ := S.sound k old
      refine ⟨begins, was, fun e inside => ?_⟩
      rcases List.mem_append.1 inside with old' | new'
      · exact outside e old'
      · exact fun below => fresh k old ((deeper e new').1.trans below)
    · have own' := only k new
      subst own'
      refine ⟨under, ?_, fun e inside => ?_⟩
      · rcases mine with rfl | ⟨-, was⟩
        · cases new
        · exact was
      · rcases List.mem_append.1 inside with old' | new'
        · exact (apart e old').1
        · exact (deeper e new').2
  · intro k wanted
    by_cases below : full <+: k
    · rcases kept k wanted below with mine' | ⟨e, member, leads⟩
      · exact .inl (List.mem_append_right _ mine')
      · exact .inr ⟨e, List.mem_append_right _ member, leads⟩
    · rcases S.all k ⟨wanted, below⟩ with old | ⟨e, member, leads⟩
      · exact .inl (List.mem_append_left _ old)
      · exact .inr ⟨e, List.mem_append_left _ member, leads⟩

/-- Popping an entry; the rest of the scan is apart from it. -/
theorem Scanning.visit (I : Inv st cut path) {i : Nat} {pre : Bytes} {n : Node V} (found : st.tryGetNode i = some n)
    (S : Scanning st path pfx W Was (stack ++ [(i, pre)]) out) {kids : List (Nat × Bytes)} {own : List Bytes}
    (sub : kids.Sublist (st.kidsOf i (pre ++ n.compression)))
    (mine : own = [] ∨ own = [pre ++ n.compression] ∧ Was (pre ++ n.compression))
    (kept : ∀ k, W k → pre ++ n.compression <+: k → k ∈ own ∨ ∃ e ∈ kids, st.Leads e k) :
    Scanning st path pfx W Was (stack ++ kids) (out ++ own) := by
  have last : (i, pre) ∈ stack ++ [(i, pre)] := List.mem_append_right _ (List.mem_singleton.2 rfl)
  have longer : pre <+: pre ++ n.compression := List.prefix_append _ _
  obtain ⟨others, -, apart⟩ := List.pairwise_append.1 S.apart
  refine Scanning.add I (S.node _ last n found) ?_ ((S.under _ last).trans longer)
    (fun e member => (apart e member _ (List.mem_singleton.2 rfl)).extend longer)
    (fun k member below => (S.sound k member).2.2 _ last (longer.trans below)) sub mine kept
  refine ⟨fun e member => S.node e (List.mem_append_left _ member), fun e member => S.under e (List.mem_append_left _ member),
    others, S.nodup, fun k member => ?_, fun k wanted => ?_⟩
  · obtain ⟨begins, was, outside⟩ := S.sound k member
    exact ⟨begins, was, fun e inside => outside e (List.mem_append_left _ inside)⟩
  · rcases S.all k wanted.1 with old | ⟨e, member, leads⟩
    · exact .inl old
    · rcases List.mem_append.1 member with old | new
      · exact .inr ⟨e, old, leads⟩
      · obtain rfl := List.mem_singleton.1 new
        obtain ⟨n', found', below⟩ := leads
        obtain rfl := Option.some.inj (found.symm.trans found')
        exact absurd below wanted.2

/-- An entry whose index is free stands for nothing. -/
theorem Scanning.skip {i : Nat} {pre : Bytes} (free : st.tryGetNode i = none)
    (S : Scanning st path pfx W Was (stack ++ [(i, pre)]) out) : Scanning st path pfx W Was stack out := by
  refine ⟨fun e member => S.node e (List.mem_append_left _ member), fun e member => S.under e (List.mem_append_left _ member),
    (List.pairwise_append.1 S.apart).1, S.nodup, fun k member => ?_, fun k wanted => ?_⟩
  · obtain ⟨begins, was, outside⟩ := S.sound k member
    exact ⟨begins, was, fun e inside => outside e (List.mem_append_left _ inside)⟩
  · rcases S.all k wanted with old | ⟨e, member, n, found, below⟩
    · exact .inl old
    · rcases List.mem_append.1 member with old | new
      · exact .inr ⟨e, old, n, found, below⟩
      · obtain rfl := List.mem_singleton.1 new
        rw [free] at found
        cases found

end Scanning

/-! ## The loop of `collect_keys_chunk` -/

section Loop

variable {pfx : Bytes} {W Was : Bytes → Prop}

/-- The keys a visited node adds. -/
theorem Inv.visit_keys (I : Inv st cut path) {i : Nat} {n : Node V} {full : Bytes} (found : st.tryGetNode i = some n)
    (at' : path i = some full) :
    (st.visit i n full).keys = if (st.live full).isSome then [full] else [] := by
  simp only [visit, I.getValue_eq found at', Option.isSome_map]

/-- What a visited node adds is all that is wanted below it. -/
theorem Inv.visit_kept (I : Inv st cut path) (wanted : ∀ k, W k → (st.live k).isSome = true) {i : Nat} {n : Node V}
    {full : Bytes} (found : st.tryGetNode i = some n) (at' : path i = some full) (k : Bytes) (want : W k) (below : full <+: k) :
    k ∈ (st.visit i n full).keys ∨ ∃ e ∈ (st.visit i n full).stack, st.Leads e k := by
  have held := wanted k want
  rcases kidsOf_reach I at' held below with rfl | deeper
  · left
    rw [I.visit_keys found at', if_pos held]
    exact List.mem_singleton.2 rfl
  · exact .inr deeper

theorem Inv.visit_mine (I : Inv st cut path) (was : ∀ k, (st.live k).isSome = true → Was k) {i : Nat} {n : Node V}
    {full : Bytes} (found : st.tryGetNode i = some n) (at' : path i = some full) :
    (st.visit i n full).keys = [] ∨ (st.visit i n full).keys = [full] ∧ Was full := by
  rw [I.visit_keys found at']
  split
  next held => exact .inr ⟨rfl, was full held⟩
  next => exact .inl rfl

theorem Scanning.collectKeysLoop (I : Inv st cut path) (wanted : ∀ k, W k → (st.live k).isSome = true)
    (was : ∀ k, (st.live k).isSome = true → Was k) (fuel : Nat) : ∀ (budget : Nat) (task : GetnTask),
    Scanning st path pfx W Was task.stack task.keys →
    Scanning st path pfx W Was (st.collectKeysLoop fuel budget task).stack (st.collectKeysLoop fuel budget task).keys := by
  induction fuel with
  | zero => exact fun _ _ S => S
  | succ fuel ih =>
    intro budget task S
    cases budget with
    | zero => exact S
    | succ budget =>
      unfold OxidArt.collectKeysLoop
      cases top : task.stack.getLast? with
      | none => exact S
      | some e =>
        obtain ⟨i, pre⟩ := e
        have split := List.dropLast_append_getLast? _ top
        rw [← split] at S
        cases found : st.tryGetNode i with
        | none =>
          simp only [found]
          exact ih _ _ (S.skip found)
        | some n =>
          simp only [found]
          have at' := S.node _ (List.mem_append_right _ (List.mem_singleton.2 rfl)) n found
          exact ih _ _ (S.visit I found (List.Sublist.refl _) (I.visit_mine was found at')
            (I.visit_kept wanted found at'))

/-- The nodes already visited are in no part that is still to be scanned. -/
structure Visited (st : OxidArt P V) (path : Nat → Option Bytes) (seen : List Nat) (stack : List (Nat × Bytes)) : Prop where
  nodup : seen.Nodup
  node : ∀ i ∈ seen, i ∈ st.map.cells.keys ∧ ∃ p, path i = some p ∧ ∀ e ∈ stack, ¬ e.2 <+: p

theorem Visited.length_le {seen : List Nat} {stack : List (Nat × Bytes)} (visited : Visited st path seen stack) :
    seen.length ≤ st.map.len := by
  have sub : seen ⊆ st.map.cells.keys := fun i member => (visited.node i member).1
  exact (List.subperm_of_subset visited.nodup sub).length_le

theorem Visited.skip {seen : List Nat} {stack : List (Nat × Bytes)} {e : Nat × Bytes}
    (visited : Visited st path seen (stack ++ [e])) : Visited st path seen stack := by
  refine ⟨visited.nodup, fun i member => ?_⟩
  obtain ⟨occupied, p, at', outside⟩ := visited.node i member
  exact ⟨occupied, p, at', fun e inside => outside e (List.mem_append_left _ inside)⟩

/-- A visited node is new, and its children are below none of the nodes before it. -/
theorem Visited.visit (I : Inv st cut path) {seen : List Nat} {stack kids : List (Nat × Bytes)} {out : List Bytes} {i : Nat} {pre : Bytes}
    {n : Node V} (found : st.tryGetNode i = some n) (S : Scanning st path pfx W Was (stack ++ [(i, pre)]) out)
    (visited : Visited st path seen (stack ++ [(i, pre)])) (sub : kids.Sublist (st.kidsOf i (pre ++ n.compression))) :
    Visited st path (i :: seen) (stack ++ kids) := by
  have last : (i, pre) ∈ stack ++ [(i, pre)] := List.mem_append_right _ (List.mem_singleton.2 rfl)
  have at' := S.node _ last n found
  have longer : pre <+: pre ++ n.compression := List.prefix_append _ _
  obtain ⟨-, -, apart⟩ := List.pairwise_append.1 S.apart
  constructor
  · rw [List.nodup_cons]
    refine ⟨fun member => ?_, visited.nodup⟩
    obtain ⟨-, p, at'', outside⟩ := visited.node i member
    obtain rfl := Option.some.inj (at'.symm.trans at'')
    exact outside _ last longer
  · intro j member
    rcases List.mem_cons.1 member with rfl | old
    · refine ⟨TaggedHiSlab.mem_keys_of_get found, _, at', fun e inside => ?_⟩
      rcases List.mem_append.1 inside with old' | new
      · exact ((apart e old' _ (List.mem_singleton.2 rfl)).extend longer).1
      · obtain ⟨r, -, same⟩ := mem_kidsOf I (sub.subset new)
        intro below
        have := below.length_le
        rw [same] at this
        simp at this
    · obtain ⟨occupied, p, atj, outside⟩ := visited.node j old
      refine ⟨occupied, p, atj, fun e inside => ?_⟩
      rcases List.mem_append.1 inside with old' | new
      · exact outside e (List.mem_append_left _ old')
      · obtain ⟨r, -, same⟩ := mem_kidsOf I (sub.subset new)
        rw [same]
        intro below
        exact outside _ last (longer.trans ((List.prefix_append _ _).trans below))

/-- A chunk ends with an empty stack or after as many new nodes as its budget. -/
theorem Visited.collectKeysLoop (I : Inv st cut path) (wanted : ∀ k, W k → (st.live k).isSome = true)
    (was : ∀ k, (st.live k).isSome = true → Was k) (fuel : Nat) : ∀ (budget : Nat) (task : GetnTask) (seen : List Nat),
    Scanning st path pfx W Was task.stack task.keys → Visited st path seen task.stack →
    task.stack.length + MAX_LINKS * budget ≤ fuel →
    ∃ seen', Visited st path seen' (st.collectKeysLoop fuel budget task).stack ∧
      ((st.collectKeysLoop fuel budget task).stack = [] ∨ seen.length + budget ≤ seen'.length) := by
  induction fuel with
  | zero =>
    intro budget task seen _ visited enough
    have empty : task.stack.length = 0 := by omega
    exact ⟨seen, visited, .inl (List.length_eq_zero_iff.1 empty)⟩
  | succ fuel ih =>
    intro budget task seen S visited enough
    cases budget with
    | zero => exact ⟨seen, visited, .inr (Nat.le_refl _)⟩
    | succ budget =>
      unfold OxidArt.collectKeysLoop
      cases top : task.stack.getLast? with
      | none => exact ⟨seen, visited, .inl (List.getLast?_eq_none_iff.1 top)⟩
      | some e =>
        obtain ⟨i, pre⟩ := e
        have split := List.dropLast_append_getLast? _ top
        have length := congrArg List.length split
        rw [List.length_append, List.length_singleton] at length
        rw [← split] at S visited
        cases found : st.tryGetNode i with
        | none =>
          simp only [found]
          exact ih _ _ seen (S.skip found) visited.skip (by dsimp only; omega)
        | some n =>
          simp only [found]
          have at' := S.node _ (List.mem_append_right _ (List.mem_singleton.2 rfl)) n found
          have links : (st.kidsOf i (pre ++ n.compression)).length ≤ MAX_LINKS := by
            have := length_collectChildIndices_le st i
            simpa [kidsOf, collectChildIndices] using this
          obtain ⟨seen', visited', progress⟩ := ih budget ⟨_, _⟩ (i :: seen)
            (S.visit I found (List.Sublist.refl _) (I.visit_mine was found at') (I.visit_kept wanted found at'))
            (Visited.visit I found S visited (List.Sublist.refl _)) (by
              rw [List.length_append]
              rw [Nat.mul_succ] at enough
              omega)
          refine ⟨seen', visited', progress.imp id fun more => ?_⟩
          rw [List.length_cons] at more
          omega

theorem finishGetn_ok (I : Inv st cut path) (wanted : ∀ k, W k → (st.live k).isSome = true)
    (was : ∀ k, (st.live k).isSome = true → Was k) {budget : Nat} (positive : 0 < budget) (fuel : Nat) :
    ∀ (task : GetnTask) (seen : List Nat), Scanning st path pfx W Was task.stack task.keys → Visited st path seen task.stack →
      st.map.len + 1 ≤ fuel + seen.length →
      ∃ keys, st.finishGetn budget fuel task = .ok keys ∧ Scanning st path pfx W Was [] keys := by
  induction fuel with
  | zero =>
    intro task seen _ visited enough
    have := visited.length_le
    omega
  | succ fuel ih =>
    intro task seen S visited enough
    have S' := S.collectKeysLoop I wanted was (task.stack.length + MAX_LINKS * budget) budget task
    obtain ⟨seen', visited', progress⟩ := visited.collectKeysLoop I wanted was _ budget task seen S (Nat.le_refl _)
    simp only [finishGetn, pollGetn, collectKeysChunk]
    by_cases empty : (st.collectKeysLoop (task.stack.length + MAX_LINKS * budget) budget task).stack = []
    · rw [empty] at S'
      simp only [empty, List.isEmpty_nil, if_true]
      exact ⟨_, rfl, S'⟩
    · have busy : (st.collectKeysLoop (task.stack.length + MAX_LINKS * budget) budget task).stack.isEmpty = false := by
        simpa using empty
      have more := progress.resolve_left empty
      simp only [busy, Bool.false_eq_true, if_false]
      exact ih _ seen' S' visited' (by omega)

/-- The start node of a scan is visited at once. -/
theorem Inv.startScan (I : Inv st cut path) {i : Nat} {n : Node V} {p : Bytes} (found : st.tryGetNode i = some n)
    (at' : path i = some p) (covers : pfx <+: p) (all : ∀ j q, path j = some q → pfx <+: q → p <+: q)
    (wanted : ∀ k, W k → pfx <+: k ∧ (st.live k).isSome = true) (was : ∀ k, (st.live k).isSome = true → Was k) :
    Scanning st path pfx W Was (st.visit i n p).stack (st.visit i n p).keys := by
  have below : ∀ k, W k → p <+: k := by
    intro k want
    obtain ⟨begins, held⟩ := wanted k want
    obtain ⟨c, live⟩ := Option.isSome_iff_exists.1 held
    obtain ⟨j, atj, -⟩ := I.entry_iff.1 (Option.filter_eq_some_iff.1 live).1
    exact all j k atj begins
  have nothing : Scanning st path pfx (fun k => W k ∧ ¬ p <+: k) Was [] [] := by
    refine ⟨?_, ?_, .nil, .nil, ?_, fun k both => absurd (below k both.1) both.2⟩
    all_goals
      intro e member
      cases member
  exact nothing.add I at' covers (fun e member => by cases member) (fun e member => by cases member)
    (List.Sublist.refl _) (I.visit_mine was found at') (I.visit_kept (fun k want => (wanted k want).2) found at')

/-- `getn_async` on its own lists the live keys with the prefix, each once. -/
theorem getnAsync_ok (I : Inv st cut path) {budget : Nat} (positive : 0 < budget) (pfx : Bytes) :
    ∃ keys, st.getnAsync budget pfx = .ok keys ∧ keys.Nodup ∧ ∀ k, k ∈ keys ↔ pfx <+: k ∧ (st.live k).isSome = true := by
  unfold getnAsync
  rcases I.findPrefixNode_ok pfx with ⟨i, n, p, target, found, at', covers, all⟩ | ⟨target, none'⟩
  · obtain ⟨W, eqW⟩ : ∃ W : Bytes → Prop, W = fun k => pfx <+: k ∧ (st.live k).isSome = true := ⟨_, rfl⟩
    have wanted : ∀ k, W k → (st.live k).isSome = true := by
      rw [eqW]
      exact fun k both => both.2
    have S : Scanning st path pfx W (fun k => (st.live k).isSome = true) (st.visit i n p).stack (st.visit i n p).keys :=
      I.startScan found at' covers all (by rw [eqW]; exact fun k both => both) (fun _ held => held)
    have visited : Visited st path [i] (st.visit i n p).stack := by
      refine ⟨List.nodup_singleton i, fun j member => ?_⟩
      obtain rfl := List.mem_singleton.1 member
      refine ⟨TaggedHiSlab.mem_keys_of_get found, p, at', fun e inside below => ?_⟩
      obtain ⟨r, -, same⟩ := mem_kidsOf I inside
      have := below.length_le
      rw [same] at this
      simp at this
    -- Both ways to end, at once or after the chunks, leave an empty stack.
    have ended : ∃ keys, (if (st.initKeysStack i p).stack.isEmpty = true then Except.ok (st.initKeysStack i p).keys
          else st.finishGetn budget (st.map.len + 1) (st.initKeysStack i p)) = .ok keys ∧
        Scanning st path pfx W (fun k => (st.live k).isSome = true) [] keys := by
      simp only [initKeysStack, found]
      split
      next empty =>
        refine ⟨_, rfl, ?_⟩
        rw [← List.isEmpty_iff.1 empty]
        exact S
      next => exact finishGetn_ok I wanted (fun _ held => held) positive _ _ [i] S visited (by simp)
    obtain ⟨keys, run, S'⟩ := ended
    simp only [target]
    refine ⟨keys, run, S'.nodup, fun k => ⟨fun member => ?_, fun both => ?_⟩⟩
    · exact ⟨(S'.sound k member).1, (S'.sound k member).2.1⟩
    · rcases S'.all k (by rw [eqW]; exact both) with member | ⟨e, member, -⟩
      · exact member
      · cases member
  · simp only [target]
    refine ⟨[], rfl, .nil, fun k => ⟨fun member => absurd member List.not_mem_nil, ?_⟩⟩
    rintro ⟨begins, held⟩
    obtain ⟨c, live⟩ := Option.isSome_iff_exists.1 held
    obtain ⟨j, atj, -⟩ := I.entry_iff.1 (Option.filter_eq_some_iff.1 live).1
    exact absurd begins (none' j k atj)

end Loop

end OxidArt

end Radixox.Oxidart
