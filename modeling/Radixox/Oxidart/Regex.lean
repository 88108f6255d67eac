import Radixox.Oxidart.Listings

/-!
# `getn_regex`

A scan guided by an automaton: it feeds the bytes on the way to it, collects the live keys it accepts and leaves out
every branch where it dies. The automaton comes from `regex_automata`; here it is a parameter, and what the scan relies on
is that a dead state stays dead and never matches.
-/

namespace Radixox.Oxidart
set_option autoImplicit false
open Radixox.PathForest

/-- The part of `dense::DFA` that the scan uses. -/
structure Dfa (σ : Type) where
  /-- The anchored start state; `none` is a `MatchError`. -/
  startStateForward : Option σ
  nextState : σ → UInt8 → σ
  nextEoiState : σ → σ
  isDeadState : σ → Bool
  isMatchState : σ → Bool

inductive RegexError where
  /-- The pattern failed to compile. -/
  | build
  /-- The automaton has no start state. -/
  | start
deriving DecidableEq

namespace Dfa

variable {σ : Type}

/-- Feeds bytes until a dead state. -/
def feed (dfa : Dfa σ) : σ → Bytes → Option σ
  | state, [] => some state
  | state, b :: rest =>
    let state := dfa.nextState state b
    if dfa.isDeadState state then none else dfa.feed state rest

def run (dfa : Dfa σ) (state : σ) (bytes : Bytes) : σ := bytes.foldl dfa.nextState state

/-- The end of the input after these bytes is a match. -/
def accepts (dfa : Dfa σ) (state : σ) (bytes : Bytes) : Bool := dfa.isMatchState (dfa.nextEoiState (dfa.run state bytes))

/-- A dead state leads nowhere else and does not match. -/
structure Prunes (dfa : Dfa σ) : Prop where
  next : ∀ s b, dfa.isDeadState s = true → dfa.isDeadState (dfa.nextState s b) = true
  eoi : ∀ s, dfa.isDeadState s = true → dfa.isMatchState (dfa.nextEoiState s) = false

theorem run_append (dfa : Dfa σ) (s : σ) (a b : Bytes) : dfa.run s (a ++ b) = dfa.run (dfa.run s a) b := List.foldl_append

theorem Prunes.rejects {dfa : Dfa σ} (prunes : dfa.Prunes) (bytes : Bytes) : ∀ s, dfa.isDeadState s = true →
    dfa.accepts s bytes = false := by
  induction bytes with
  | nil => exact prunes.eoi
  | cons b rest ih => exact fun s dead => ih _ (prunes.next s b dead)

/-- Feeding runs the automaton, or ends where nothing is accepted any more. -/
theorem Prunes.feed {dfa : Dfa σ} (prunes : dfa.Prunes) (bytes : Bytes) : ∀ s,
    dfa.feed s bytes = some (dfa.run s bytes) ∨ dfa.feed s bytes = none ∧ ∀ t, dfa.accepts s (bytes ++ t) = false := by
  induction bytes with
  | nil => exact fun s => .inl rfl
  | cons b rest ih =>
    intro s
    unfold Dfa.feed
    dsimp only
    split
    next dead => exact .inr ⟨rfl, fun t => prunes.rejects (rest ++ t) _ dead⟩
    next => exact ih (dfa.nextState s b)

end Dfa

namespace OxidArt

variable {P : Policy} {V : Type} {σ : Type} {st : OxidArt P V} {cut : List Nat} {path : Nat → Option Bytes}

/-- The children that the automaton survives. -/
def liveBranches (st : OxidArt P V) (dfa : Dfa σ) (nodeIdx : Nat) (keyPath : Bytes) (state : σ) : List (Nat × Bytes × σ) :=
  ((st.iterAllChildren nodeIdx).filter fun p => !dfa.isDeadState (dfa.nextState state p.1)).map
    fun p => (p.2, keyPath ++ [p.1], dfa.nextState state p.1)

/-- The loop of `collect_regex`, the end of the list on top. A tree is scanned after as many turns as it has nodes, so
`fuel` runs out on a cyclic graph only. -/
def collectRegex (st : OxidArt P V) (dfa : Dfa σ) : Nat → List (Nat × Bytes × σ) → List (Bytes × V) → Exec (List (Bytes × V))
  | 0, _, _ => .error .stackOverflow
  | fuel + 1, stack, results => match stack.getLast? with
    | none => .ok results
    | some (nodeIdx, keyPath, state) => match st.tryGetNode nodeIdx with
      | none => collectRegex st dfa fuel stack.dropLast results
      | some node => match dfa.feed state node.compression with
        | none => collectRegex st dfa fuel stack.dropLast results
        | some state =>
          let keyPath := keyPath ++ node.compression
          let own := if dfa.isMatchState (dfa.nextEoiState state) then
              (node.getValue st.now).toList.map fun val => (keyPath, val)
            else []
          collectRegex st dfa fuel (stack.dropLast ++ st.liveBranches dfa nodeIdx keyPath state) (results ++ own)

/-- `new` is `DFA::new`. -/
def getnRegex (st : OxidArt P V) (new : Bytes → Option (Dfa σ)) (pattern : Bytes) : Exec (Except RegexError (List (Bytes × V))) :=
  match new pattern with
  | none => .ok (.error .build)
  | some dfa => match dfa.startStateForward with
    | none => .ok (.error .start)
    | some start => do return .ok (← st.collectRegex dfa (st.map.len + 1) [(st.rootIdx, [], start)] [])

/-! ## What it finds -/

section Scan

variable {dfa : Dfa σ} {start : σ} {W : Bytes → Prop}

/-- The stack without the states. -/
def places (stack : List (Nat × Bytes × σ)) : List (Nat × Bytes) := stack.map fun e => (e.1, e.2.1)

theorem places_append (a b : List (Nat × Bytes × σ)) : places (a ++ b) = places a ++ places b := List.map_append

theorem liveBranches_sub (i : Nat) (full : Bytes) (s : σ) :
    (places (st.liveBranches dfa i full s)).Sublist (st.kidsOf i full) := by
  unfold places liveBranches kidsOf
  rw [List.map_map]
  exact List.Sublist.map _ List.filter_sublist

/-- One node: the accepted live keys below it are its own or below the branches that survive. -/
theorem liveBranches_kept (I : Inv st cut path) (prunes : dfa.Prunes) {i : Nat} {full : Bytes} (at' : path i = some full)
    {k : Bytes} (held : (st.live k).isSome = true) (accepted : dfa.accepts start k = true) (below : full <+: k) :
    k = full ∨ ∃ e ∈ places (st.liveBranches dfa i full (dfa.run start full)), st.Leads e k := by
  rcases kidsOf_reach I at' held below with same | ⟨e, member, leads⟩
  · exact .inl same
  · right
    obtain ⟨⟨r, j⟩, inside, rfl⟩ := List.mem_map.1 member
    refine ⟨(j, full ++ [r]), ?_, leads⟩
    have survives : dfa.isDeadState (dfa.nextState (dfa.run start full) r) = false := by
      by_contra dead
      obtain ⟨n, -, t, rfl⟩ := leads
      have rejected := prunes.rejects (n.compression ++ t) _ (by simpa using dead)
      rw [Dfa.accepts, Dfa.run] at rejected
      rw [Dfa.accepts, Dfa.run] at accepted
      simp only [List.append_assoc, List.foldl_append, List.foldl_cons, List.singleton_append] at accepted
      simp only [Dfa.run, List.foldl_append] at rejected
      rw [rejected] at accepted
      cases accepted
    refine List.mem_map.2 ⟨(j, full ++ [r], dfa.nextState (dfa.run start full) r), ?_, rfl⟩
    exact List.mem_map.2 ⟨(r, j), List.mem_filter.2 ⟨inside, by rw [survives]; rfl⟩, rfl⟩

/-- Every entry stands for a node, with the state that its bytes lead to. -/
def Tracks (st : OxidArt P V) (dfa : Dfa σ) (start : σ) (stack : List (Nat × Bytes × σ)) : Prop :=
  ∀ e ∈ stack, (∃ n, st.tryGetNode e.1 = some n) ∧ e.2.2 = dfa.run start e.2.1

theorem Tracks.branches (I : Inv st cut path) {stack : List (Nat × Bytes × σ)} (tracks : Tracks st dfa start stack) (i : Nat)
    (full : Bytes) : Tracks st dfa start (stack ++ st.liveBranches dfa i full (dfa.run start full)) := by
  intro e member
  rcases List.mem_append.1 member with old | new
  · exact tracks e old
  · obtain ⟨⟨r, j⟩, inside, rfl⟩ := List.mem_map.1 new
    obtain ⟨l, read⟩ := I.forest.kidOcc (I.kids.find_iff.2 (List.mem_filter.1 inside).1 : st.find i r = some j)
    obtain ⟨n, found, -⟩ := graph_label_iff.1 read
    refine ⟨⟨n, found⟩, ?_⟩
    rw [Dfa.run_append]
    rfl

/-- The own key of a node is collected exactly when it is accepted and live. -/
theorem Inv.own_keys (I : Inv st cut path) {i : Nat} {n : Node V} {full : Bytes} (found : st.tryGetNode i = some n)
    (at' : path i = some full) (accepted : Bool) :
    (if accepted = true then (n.getValue st.now).toList.map fun val => (full, val) else []).map Prod.fst =
      if accepted = true ∧ (st.live full).isSome = true then [full] else [] := by
  rw [I.getValue_eq found at']
  cases accepted with
  | false => rfl
  | true => cases st.live full <;> rfl

/-- Every pair shows the live value of its key. -/
def Shown (st : OxidArt P V) (pairs : List (Bytes × V)) : Prop := ∀ e ∈ pairs, (st.live e.1).map Prod.fst = some e.2

theorem Inv.shown_own (I : Inv st cut path) {i : Nat} {n : Node V} {full : Bytes} (found : st.tryGetNode i = some n)
    (at' : path i = some full) {results : List (Bytes × V)} (shown : st.Shown results) (accepted : Bool) :
    st.Shown (results ++ if accepted = true then (n.getValue st.now).toList.map fun val => (full, val) else []) := by
  intro e member
  rcases List.mem_append.1 member with old | own
  · exact shown e old
  · split at own
    · obtain ⟨val, value, rfl⟩ := List.mem_map.1 own
      rw [← I.getValue_eq found at']
      exact Option.mem_toList.1 value
    · cases own

theorem collectRegex_ok (I : Inv st cut path) (prunes : dfa.Prunes)
    (wanted : ∀ k, W k ↔ (st.live k).isSome = true ∧ dfa.accepts start k = true) (fuel : Nat) :
    ∀ (stack : List (Nat × Bytes × σ)) (results : List (Bytes × V)) (seen : List Nat),
      Scanning st path [] W W (places stack) (results.map Prod.fst) → Visited st path seen (places stack) →
      Tracks st dfa start stack → st.Shown results → st.map.len + 1 ≤ fuel + seen.length →
      ∃ pairs, st.collectRegex dfa fuel stack results = .ok pairs ∧ Scanning st path [] W W [] (pairs.map Prod.fst) ∧
        st.Shown pairs := by
  induction fuel with
  | zero =>
    intro stack results seen _ visited _ _ enough
    have := visited.length_le
    omega
  | succ fuel ih =>
    intro stack results seen S visited tracks shown enough
    unfold collectRegex
    cases top : stack.getLast? with
    | none =>
      rw [List.getLast?_eq_none_iff] at top
      subst top
      exact ⟨results, rfl, S, shown⟩
    | some e =>
      obtain ⟨i, pre, s⟩ := e
      have split := List.dropLast_append_getLast? _ top
      rw [← split, places_append] at S visited
      rw [← split] at tracks
      obtain ⟨⟨n, found⟩, state⟩ := tracks (i, pre, s) (List.mem_append_right _ (List.mem_singleton.2 rfl))
      have tracks' : Tracks st dfa start stack.dropLast := fun e member => tracks e (List.mem_append_left _ member)
      have at' := S.node (i, pre) (List.mem_append_right _ (List.mem_singleton.2 rfl)) n found
      dsimp only at state
      subst state
      simp only [found]
      have whole : dfa.run (dfa.run start pre) n.compression = dfa.run start (pre ++ n.compression) :=
        (Dfa.run_append dfa start pre n.compression).symm
      rcases prunes.feed n.compression (dfa.run start pre) with fed | ⟨dead, rejects⟩
      · simp only [fed, whole]
        refine ih _ _ (i :: seen) ?_ ?_ (tracks'.branches I i _) (I.shown_own found at' shown _) (by rw [List.length_cons]; omega)
        · rw [places_append, List.map_append]
          rw [I.own_keys found at']
          refine S.visit I found (liveBranches_sub i _ _) ?_ ?_
          · split
            next both => exact .inr ⟨rfl, (wanted _).2 ⟨both.2, both.1⟩⟩
            next => exact .inl rfl
          · intro k want below
            obtain ⟨held, accepted⟩ := (wanted k).1 want
            refine (liveBranches_kept I prunes at' held accepted below).imp ?_ id
            rintro rfl
            rw [if_pos ⟨accepted, held⟩]
            exact List.mem_singleton.2 rfl
        · rw [places_append]
          exact Visited.visit I found S visited (liveBranches_sub i _ _)
      · simp only [dead]
        refine ih _ _ (i :: seen) ?_ ?_ tracks' shown (by rw [List.length_cons]; omega)
        · have S' := S.visit I found (List.nil_sublist _) (.inl rfl) (fun k want below => by
            obtain ⟨t, rfl⟩ := below
            obtain ⟨-, accepted⟩ := (wanted _).1 want
            have refused := rejects t
            rw [Dfa.accepts, List.append_assoc, Dfa.run_append] at accepted
            rw [Dfa.accepts, accepted] at refused
            cases refused)
          rwa [List.append_nil, List.append_nil] at S'
        · have visited' := Visited.visit I found S visited (List.nil_sublist _)
          rwa [List.append_nil] at visited'

/-- `getn_regex` lists the live keys that the automaton accepts, each once, with their values; the root has no compression. -/
theorem getnRegex_ok (I : Inv st cut path) (top : st.graph.label st.rootIdx = some []) {new : Bytes → Option (Dfa σ)}
    {pattern : Bytes} (built : new pattern = some dfa) (starts : dfa.startStateForward = some start) (prunes : dfa.Prunes) :
    ∃ pairs, st.getnRegex new pattern = .ok (.ok pairs) ∧ (pairs.map Prod.fst).Nodup ∧
      ∀ k v, (k, v) ∈ pairs ↔ (st.live k).map Prod.fst = some v ∧ dfa.accepts start k = true := by
  obtain ⟨W, wanted⟩ : ∃ W : Bytes → Prop, ∀ k, W k ↔ (st.live k).isSome = true ∧ dfa.accepts start k = true := ⟨_, fun _ => .rfl⟩
  obtain ⟨root, found, bare⟩ := graph_label_iff.1 top
  have S : Scanning st path [] W W [(st.rootIdx, [])] [] := by
    refine ⟨?_, fun _ _ => List.nil_prefix, List.pairwise_singleton _ _, .nil, ?_, fun k _ => .inr ?_⟩
    · intro e member n found'
      obtain rfl := List.mem_singleton.1 member
      obtain rfl := Option.some.inj (found.symm.trans found')
      rw [bare]
      exact I.forest.rootPath
    · intro k member
      cases member
    · exact ⟨_, List.mem_singleton.2 rfl, root, found, by rw [bare]; exact List.nil_prefix⟩
  have visited : Visited st path [] [(st.rootIdx, ([] : Bytes))] := by
    refine ⟨.nil, fun i member => ?_⟩
    cases member
  have tracks : Tracks st dfa start [(st.rootIdx, [], start)] := by
    intro e member
    obtain rfl := List.mem_singleton.1 member
    exact ⟨⟨root, found⟩, rfl⟩
  obtain ⟨pairs, run, S', shown⟩ := collectRegex_ok I prunes wanted (st.map.len + 1) [(st.rootIdx, [], start)] [] [] S visited
    tracks (fun e member => absurd member List.not_mem_nil) (Nat.le_refl _)
  refine ⟨pairs, ?_, S'.nodup, fun k v => ?_⟩
  · simp only [getnRegex, built, starts, run, bind, Except.bind, pure, Except.pure]
  constructor
  · intro member
    exact ⟨shown _ member, ((wanted k).1 (S'.sound k (List.mem_map.2 ⟨_, member, rfl⟩)).2.1).2⟩
  · rintro ⟨value, accepted⟩
    have held : (st.live k).isSome = true := by
      rw [← Option.isSome_map (f := Prod.fst), value]
      rfl
    rcases S'.all k ((wanted k).2 ⟨held, accepted⟩) with member | ⟨e, member, -⟩
    · obtain ⟨⟨k', w⟩, inside, rfl⟩ := List.mem_map.1 member
      obtain rfl := Option.some.inj (value.symm.trans (shown _ inside))
      exact inside
    · cases member

/-- The keys of such a list. -/
theorem mem_keys_of_lists {pairs : List (Bytes × V)} {accepted : Bytes → Prop}
    (listed : ∀ k v, (k, v) ∈ pairs ↔ (st.live k).map Prod.fst = some v ∧ accepted k) (k : Bytes) :
    k ∈ pairs.map Prod.fst ↔ (st.live k).isSome = true ∧ accepted k := by
  rw [List.mem_map, ← Option.isSome_map (f := Prod.fst), Option.isSome_iff_exists]
  constructor
  · rintro ⟨⟨k', v⟩, member, rfl⟩
    obtain ⟨value, fine⟩ := (listed _ v).1 member
    exact ⟨⟨v, value⟩, fine⟩
  · rintro ⟨⟨v, value⟩, fine⟩
    exact ⟨(k, v), (listed k v).2 ⟨value, fine⟩, rfl⟩

end Scan

end OxidArt

/-! ## A small automaton -/

/-- The automaton of `^a$` and, going on, of `^a.*$`: before the letter 0, after it 1, dead 2, matched 3. -/
def letterDfa (goesOn : Bool) : Dfa Nat where
  startStateForward := some 0
  nextState s b := if s = 0 ∧ b = 97 ∨ s = 1 ∧ goesOn = true ∧ b ≠ 10 then 1 else 2
  nextEoiState s := if s = 1 then 3 else 2
  isDeadState s := s == 2
  isMatchState s := s == 3

theorem letterDfa_prunes (goesOn : Bool) : (letterDfa goesOn).Prunes := by
  constructor
  · intro s b dead
    have two : s = 2 := by simpa [letterDfa] using dead
    subst two
    rfl
  · intro s dead
    have two : s = 2 := by simpa [letterDfa] using dead
    subst two
    rfl

end Radixox.Oxidart
