import Radixox.Oxidart.Regex
import Radixox.Oxidart.Operations
import Radixox.Server.DataCommands

/-!
# `KEYS`

`handle_keys` answers a pattern that looks like a prefix by a prefix scan, and every other one by the regular expression
that `glob_to_regex` makes of it. This module says when the two ways agree on a pattern of the first kind.
-/

namespace Radixox.Server.Resp
set_option autoImplicit false

open Radixox.Oxidart Radixox.Oxidart.OxidArt Radixox.PathForest Radixox.Runs

/-! ## Patterns -/

def endsWithStar (pattern : SharedByte) : Bool := pattern.getLast? == some 42

/-- No glob character except a star at the end. -/
def isSimplePrefix (pattern : SharedByte) : Bool :=
  let stop := if endsWithStar pattern then pattern.length - 1 else pattern.length
  !(pattern.take stop).any fun b => b == 42 || b == 63 || b == 91 || b == 93

/-- The characters that `glob_to_regex` escapes. -/
def isEscaped (b : UInt8) : Bool := ascii ".+^${}()|#&~" |>.contains b

/-- The loop of `glob_to_regex`; the flag says that it is between `[` and `]`. -/
def globFrom : Bool → SharedByte → SharedByte
  | _, [] => []
  | true, b :: rest => b :: globFrom (b != 93) rest
  | false, 92 :: c :: rest => 92 :: c :: globFrom false rest
  | false, b :: rest =>
    if b = 42 then 46 :: 42 :: globFrom false rest
    else if b = 63 then 46 :: globFrom false rest
    else if b = 91 then 91 :: globFrom true rest
    else if isEscaped b then 92 :: b :: globFrom false rest
    else b :: globFrom false rest

/-- The text of the regular expression, by its characters. -/
def globToRegex (pattern : SharedByte) : SharedByte := 94 :: globFrom false pattern ++ [36]

section Handler

variable {P : Policy} {S : Type} [Score S] {σ : Type}

/-- The prefix that the fast path scans. -/
def keysPrefix (pattern : SharedByte) : SharedByte := if endsWithStar pattern then pattern.dropLast else pattern

/-- `KEYS`, with no other task interleaved; `new` is `DFA::new`. -/
def handleKeys (new : SharedByte → Option (Dfa σ)) (args : List SharedByte) (st : OxidArt P (Value S)) : Exec SharedFrame :=
  match args with
  | [] => do return bulks (← st.getnAsync YIELD_BUDGET [])
  | pattern :: _ =>
    if isSimplePrefix pattern then do return bulks (← st.getnAsync YIELD_BUDGET (keysPrefix pattern))
    else do
      match ← st.getnRegex new (globToRegex pattern) with
      | .ok pairs => return bulks (pairs.map Prod.fst)
      | .error _ => return .error (ascii "ERR invalid pattern")

/-- Both branches of `handle_keys` answer the pattern with the same keys. -/
def PathsAgree (new : SharedByte → Option (Dfa σ)) (pattern : SharedByte) (st : OxidArt P (Value S)) : Prop :=
  ∃ keys pairs, st.getnAsync YIELD_BUDGET (keysPrefix pattern) = .ok keys ∧
    st.getnRegex new (globToRegex pattern) = .ok (.ok pairs) ∧ ∀ k, k ∈ keys ↔ k ∈ pairs.map Prod.fst

end Handler

/-! ## The regular expressions in question -/

/-- A literal character, or `.*`. -/
inductive Piece where
  | literal (b : UInt8)
  | anything
deriving DecidableEq

namespace Piece

def text : Piece → SharedByte
  | .literal b => if isEscaped b then [92, b] else [b]
  | .anything => [46, 42]

/-- What an anchored sequence of pieces matches; a dot matches no newline. -/
inductive Matches : List Piece → Bytes → Prop
  | nil : Matches [] []
  | literal {b : UInt8} {pieces : List Piece} {k : Bytes} (rest : Matches pieces k) : Matches (.literal b :: pieces) (b :: k)
  | stop {pieces : List Piece} {k : Bytes} (rest : Matches pieces k) : Matches (.anything :: pieces) k
  | more {b : UInt8} {pieces : List Piece} {k : Bytes} (inline : b ≠ 10) (rest : Matches (.anything :: pieces) k) :
      Matches (.anything :: pieces) (b :: k)

theorem matches_literals (stem : Bytes) : ∀ (pieces : List Piece) (k : Bytes),
    Matches (stem.map .literal ++ pieces) k ↔ ∃ t, k = stem ++ t ∧ Matches pieces t := by
  induction stem with
  | nil =>
    intro pieces k
    constructor
    · exact fun whole => ⟨k, rfl, whole⟩
    · rintro ⟨t, rfl, matched⟩
      exact matched
  | cons b stem ih =>
    intro pieces k
    constructor
    · intro whole
      cases whole with
      | literal rest =>
        obtain ⟨t, rfl, matched⟩ := (ih pieces _).1 rest
        exact ⟨t, rfl, matched⟩
    · rintro ⟨t, rfl, matched⟩
      exact .literal ((ih pieces _).2 ⟨t, rfl, matched⟩)

theorem matches_nil (t : Bytes) : Matches [] t ↔ t = [] := by
  constructor
  · intro whole
    cases whole
    rfl
  · rintro rfl
    exact .nil

theorem matches_anything (t : Bytes) : Matches [.anything] t ↔ 10 ∉ t := by
  induction t with
  | nil => exact ⟨fun _ => List.not_mem_nil, fun _ => .stop .nil⟩
  | cons b t ih =>
    rw [List.mem_cons, not_or]
    constructor
    · intro whole
      cases whole with
      | stop rest => cases rest
      | more inline rest => exact ⟨inline.symm, ih.1 rest⟩
    · rintro ⟨inline, rest⟩
      exact .more (Ne.symm inline) (ih.2 rest)

end Piece

/-- What `regex_automata` promises for `^`, these pieces and `$`: an automaton that prunes and accepts, of the ASCII
strings, those that the pieces match. -/
def Implements {σ : Type} (new : SharedByte → Option (Dfa σ)) (pieces : List Piece) : Prop :=
  ∃ dfa start, new (94 :: pieces.flatMap Piece.text ++ [36]) = some dfa ∧ dfa.startStateForward = some start ∧ dfa.Prunes ∧
    ∀ k, (∀ b ∈ k, Ascii b) → (dfa.accepts start k = true ↔ Piece.Matches pieces k)

/-- The pieces of a simple pattern. -/
def piecesOf (pattern : SharedByte) : List Piece :=
  (keysPrefix pattern).map .literal ++ if endsWithStar pattern then [.anything] else []

theorem matches_piecesOf (pattern : SharedByte) (k : Bytes) : Piece.Matches (piecesOf pattern) k ↔
    ∃ t, k = keysPrefix pattern ++ t ∧ if endsWithStar pattern then 10 ∉ t else t = [] := by
  unfold piecesOf
  rw [Piece.matches_literals]
  split
  · simp only [Piece.matches_anything]
  · simp only [Piece.matches_nil]

/-- A character that stands for itself. -/
def Literal (b : UInt8) : Prop := b ≠ 42 ∧ b ≠ 63 ∧ b ≠ 91 ∧ b ≠ 92

theorem globFrom_literals {stem : Bytes} (plain : ∀ b ∈ stem, Literal b) (rest : Bytes) :
    globFrom false (stem ++ rest) = (stem.map Piece.literal).flatMap Piece.text ++ globFrom false rest := by
  induction stem with
  | nil => rfl
  | cons b stem ih =>
    obtain ⟨star, mark, bracket, backslash⟩ := plain b List.mem_cons_self
    have later := ih fun c member => plain c (List.mem_cons_of_mem _ member)
    have step : globFrom false (b :: (stem ++ rest)) =
        if isEscaped b then 92 :: b :: globFrom false (stem ++ rest) else b :: globFrom false (stem ++ rest) := by
      rw [globFrom, if_neg star, if_neg mark, if_neg bracket]
      exact fun _ _ same _ => backslash same
    rw [List.cons_append, step, later, List.map_cons, List.flatMap_cons, Piece.text]
    split <;> rfl

theorem keysPrefix_append (pattern : SharedByte) :
    keysPrefix pattern ++ (if endsWithStar pattern then [42] else []) = pattern := by
  unfold keysPrefix
  split
  next star => exact List.dropLast_append_getLast? _ (by simpa [endsWithStar] using star)
  next => exact List.append_nil _

theorem literal_of_simple {pattern : SharedByte} (simple : isSimplePrefix pattern = true) (noEscape : 92 ∉ pattern) :
    ∀ b ∈ keysPrefix pattern, Literal b := by
  have stem : keysPrefix pattern = pattern.take (if endsWithStar pattern then pattern.length - 1 else pattern.length) := by
    unfold keysPrefix
    split
    · exact List.dropLast_eq_take
    · exact (List.take_length).symm
  intro b member
  rw [stem] at member
  simp only [isSimplePrefix, Bool.not_eq_true', List.any_eq_false, Bool.or_eq_true, beq_iff_eq, not_or] at simple
  obtain ⟨⟨⟨star, mark⟩, bracket⟩, -⟩ := simple b member
  exact ⟨star, mark, bracket, fun same => noEscape (same ▸ List.mem_of_mem_take member)⟩

/-- The expression that the slow path would use. -/
theorem globToRegex_simple {pattern : SharedByte} (simple : isSimplePrefix pattern = true) (noEscape : 92 ∉ pattern) :
    globToRegex pattern = 94 :: (piecesOf pattern).flatMap Piece.text ++ [36] := by
  have whole := globFrom_literals (literal_of_simple simple noEscape) (if endsWithStar pattern then [42] else [])
  rw [keysPrefix_append] at whole
  unfold globToRegex piecesOf
  rw [whole, List.flatMap_append]
  split <;> rfl

/-! ## The two paths -/

section Agree

variable {P : Policy} {S : Type} [Score S] {σ : Type} {st : OxidArt P (Value S)} {order : HashOrder} {path : Nat → Option Bytes}

/-- Keys of the tree are ASCII. -/
theorem ascii_of_live (I : Inv st [] path) {k : Bytes} (held : (st.live k).isSome = true) : ∀ b ∈ k, Ascii b := by
  have bytes : ∀ {x z : Nat} {way : Bytes}, Reach st.graph x way z → ∀ b ∈ way, Ascii b := by
    intro x z way reach
    induction reach with
    | here => exact fun b member => absurd member List.not_mem_nil
    | step edge read _ ih =>
      obtain ⟨n, found, rfl⟩ := graph_label_iff.1 read
      intro b member
      rcases List.mem_cons.1 member with rfl | member
      · exact (I.kids.keyByte (I.kids.find_iff.1 edge)).2
      · rcases List.mem_append.1 member with label | later
        · exact (I.labels found b label).2
        · exact ih b later
  obtain ⟨c, live⟩ := Option.isSome_iff_exists.1 held
  obtain ⟨i, at', -⟩ := I.entry_iff.1 (Option.filter_eq_some_iff.1 live).1
  exact bytes (I.forest.reach_of_path at')

/-- For a prefix pattern without backslashes the fast and the slow path give the same keys exactly when no live key goes on
after the prefix in a way the expression does not match: at all without a star, over a newline with one. -/
theorem pathsAgree_iff (reached : Reachable order st) (top : st.graph.label st.rootIdx = some []) {pattern : SharedByte}
    (simple : isSimplePrefix pattern = true) (noEscape : 92 ∉ pattern) {new : SharedByte → Option (Dfa σ)}
    (regex : Implements new (piecesOf pattern)) :
    PathsAgree new pattern st ↔ ∀ t, (st.live (keysPrefix pattern ++ t)).isSome = true →
      if endsWithStar pattern then 10 ∉ t else t = [] := by
  obtain ⟨path, I⟩ := reached.isSound
  obtain ⟨dfa, start, built, starts, prunes, language⟩ := regex
  rw [← globToRegex_simple simple noEscape] at built
  obtain ⟨keys, fast, -, listed⟩ := getnAsync_ok I (by decide : 0 < YIELD_BUDGET) (keysPrefix pattern)
  obtain ⟨pairs, slow, -, listed'⟩ := getnRegex_ok I top built starts prunes
  have accepted := mem_keys_of_lists listed'
  have agree : PathsAgree new pattern st ↔ ∀ k, k ∈ keys ↔ k ∈ pairs.map Prod.fst := by
    unfold PathsAgree
    rw [fast, slow]
    constructor
    · rintro ⟨keys', pairs', same, same', agree⟩
      obtain rfl := Except.ok.inj same
      obtain rfl := Except.ok.inj (Except.ok.inj same')
      exact agree
    · exact fun agree => ⟨keys, pairs, rfl, rfl, agree⟩
  have matched : ∀ k, k ∈ pairs.map Prod.fst ↔ (st.live k).isSome = true ∧
      ∃ t, k = keysPrefix pattern ++ t ∧ if endsWithStar pattern then 10 ∉ t else t = [] := by
    intro k
    rw [accepted]
    refine and_congr_right fun held => ?_
    rw [language k (ascii_of_live I held), matches_piecesOf]
  rw [agree]
  constructor
  · intro same t held
    obtain ⟨-, t', eq, fits⟩ := (matched _).1 ((same _).1 ((listed _).2 ⟨List.prefix_append _ t, held⟩))
    rw [List.append_cancel_left eq]
    exact fits
  · intro fits k
    rw [listed, matched]
    constructor
    · rintro ⟨⟨t, rfl⟩, held⟩
      exact ⟨held, t, rfl, fits t held⟩
    · rintro ⟨held, t, rfl, -⟩
      exact ⟨List.prefix_append _ t, held⟩

end Agree

/-! ## Two small expressions -/

def letterNew (text : SharedByte) : Option (Dfa Nat) :=
  if text = ascii "^a$" then some (letterDfa false) else if text = ascii "^a.*$" then some (letterDfa true) else none

theorem letterDfa_after (goesOn : Bool) (t : Bytes) :
    (letterDfa goesOn).accepts 1 t = true ↔ if goesOn then 10 ∉ t else t = [] := by
  induction t with
  | nil => cases goesOn <;> decide
  | cons b t ih =>
    by_cases survives : goesOn = true ∧ b ≠ 10
    · have next : (letterDfa goesOn).nextState 1 b = 1 := if_pos (.inr ⟨rfl, survives⟩)
      have same : (letterDfa goesOn).accepts 1 (b :: t) = (letterDfa goesOn).accepts 1 t := by
        simp only [Dfa.accepts, Dfa.run, List.foldl_cons, next]
      rw [same, ih]
      simp [survives.1, Ne.symm survives.2]
    · have next : (letterDfa goesOn).nextState 1 b = 2 := by
        refine if_neg ?_
        rintro (⟨zero, -⟩ | ⟨-, both⟩)
        · cases zero
        · exact survives both
      have refused : (letterDfa goesOn).accepts 1 (b :: t) = false :=
        (letterDfa_prunes goesOn).rejects t _ (by rw [next]; rfl)
      rw [refused]
      cases goesOn with
      | false => simp
      | true =>
        have newline : b = 10 := by simpa using survives
        simp [newline]

theorem letterDfa_language (goesOn : Bool) (k : Bytes) :
    (letterDfa goesOn).accepts 0 k = true ↔ ∃ t, k = [97] ++ t ∧ if goesOn then 10 ∉ t else t = [] := by
  cases k with
  | nil => cases goesOn <;> simp [Dfa.accepts, Dfa.run, letterDfa]
  | cons b t =>
    by_cases letter : b = 97
    · subst letter
      have first : (letterDfa goesOn).accepts 0 (97 :: t) = (letterDfa goesOn).accepts 1 t := rfl
      rw [first, letterDfa_after]
      simp
    · have next : (letterDfa goesOn).nextState 0 b = 2 := by
        refine if_neg ?_
        rintro (⟨-, same⟩ | ⟨one, -⟩)
        · exact letter same
        · cases one
      have refused : (letterDfa goesOn).accepts 0 (b :: t) = false :=
        (letterDfa_prunes goesOn).rejects t _ (by rw [next]; rfl)
      rw [refused]
      simp [letter]

theorem letterNew_implements (goesOn : Bool) :
    Implements letterNew (piecesOf (if goesOn then ascii "a*" else ascii "a")) := by
  cases goesOn with
  | false =>
    refine ⟨letterDfa false, 0, rfl, rfl, letterDfa_prunes _, fun k _ => ?_⟩
    rw [matches_piecesOf, letterDfa_language]
    rfl
  | true =>
    refine ⟨letterDfa true, 0, rfl, rfl, letterDfa_prunes _, fun k _ => ?_⟩
    rw [matches_piecesOf, letterDfa_language]
    rfl

/-- The commands that store one key and a longer one. -/
def twoKeys : List (Command Int) := [.tree (.set (ascii "a") (.int 1)), .tree (.set (ascii "ab") (.int 2))]

/-- With the star both keys come either way. -/
theorem pathsAgree_iff_star : ∃ replies st, run (exec .stored) twoKeys (new : OxidArt .lowest (Value Int)) = .ok (replies, st) ∧
    PathsAgree letterNew (ascii "a*") st := by
  have sound : Meets (exec .stored) (fun st c => c.Sound st) twoKeys (new : OxidArt .lowest (Value Int)) := by decide +kernel
  refine ⟨_, _, rfl, (pathsAgree_iff (.run .refl sound rfl) rfl (by decide +kernel) (by decide +kernel)
    (letterNew_implements true)).2 fun t held => ?_⟩
  obtain ⟨path, I⟩ := Reachable.isSound (.run .refl sound rfl)
  obtain ⟨keys, fast, -, listed⟩ := getnAsync_ok I (by decide : 0 < YIELD_BUDGET) (keysPrefix (ascii "a*"))
  have both : keys = [ascii "a" ++ [], ascii "a" ++ [98]] := Except.ok.inj (fast.symm.trans rfl)
  have member : ascii "a" ++ t ∈ keys := (listed _).2 ⟨List.prefix_append _ t, held⟩
  rw [both, List.mem_cons, List.mem_singleton] at member
  have tail : t = [] ∨ t = [98] := member.imp List.append_cancel_left List.append_cancel_left
  rcases tail with rfl | rfl <;> decide

/-- Without it the fast path also gives the longer key. -/
theorem keys_without_star : ∃ replies st, run (exec .stored) twoKeys (new : OxidArt .lowest (Value Int)) = .ok (replies, st) ∧
    Reachable .stored st ∧ isSimplePrefix (ascii "a") = true ∧ Implements letterNew (piecesOf (ascii "a")) ∧
    ¬ PathsAgree letterNew (ascii "a") st := by
  have sound : Meets (exec .stored) (fun st c => c.Sound st) twoKeys (new : OxidArt .lowest (Value Int)) := by decide +kernel
  refine ⟨_, _, rfl, .run .refl sound rfl, by decide +kernel, letterNew_implements false, ?_⟩
  rintro ⟨keys, pairs, fast, slow, same⟩
  cases fast
  cases slow
  exact absurd ((same (ascii "ab")).1 (by decide +kernel)) (by decide +kernel)

end Radixox.Server.Resp
