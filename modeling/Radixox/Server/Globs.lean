import Radixox.Server.Keys
import Radixox.Server.RegexSyntax

/-!
# Globs and regular expressions

What a pattern of `KEYS` means as a Redis glob, and where the expression that `glob_to_regex` makes of it means the same.
-/

namespace Radixox.Server.Resp
set_option autoImplicit false

open Radixox.Oxidart Radixox.Oxidart.OxidArt Radixox.Sequences

/-! ## Redis globs -/

inductive Token where
  | star
  | any
  | plain (b : UInt8)
  | escaped (b : UInt8)
  | bracket (c : BracketClass)
  /-- A class that the end of the pattern ends. -/
  | unclosed (c : BracketClass)
  /-- A backslash at the end. -/
  | backslash

/-- The tokens of a pattern. Each takes a byte at least, so its length is enough fuel. -/
def globTokensFrom : Nat → SharedByte → List Token
  | _, [] | 0, _ => []
  | fuel + 1, b :: p =>
    if b = 42 then .star :: globTokensFrom fuel p
    else if b = 63 then .any :: globTokensFrom fuel p
    else if b = 91 then match classOf p with
      | (c, some rest) => .bracket c :: globTokensFrom fuel rest
      | (c, none) => [.unclosed c]
    else if b = 92 then match p with
      | c :: rest => .escaped c :: globTokensFrom fuel rest
      | [] => [.backslash]
    else .plain b :: globTokensFrom fuel p

def globTokens (p : SharedByte) : List Token := globTokensFrom p.length p

def Token.atom : Token → Atom UInt8
  | .star => .many fun _ => True
  | .any => .one fun _ => True
  | .plain b | .escaped b => .one (· = b)
  | .bracket c | .unclosed c => .one c.Holds
  | .backslash => .one (· = 92)

/-- The key matches the pattern as a Redis glob. -/
def Glob (p : SharedByte) (k : Bytes) : Prop := Matches ((globTokens p).map Token.atom) k

/-! ## Patterns that survive the translation -/

namespace Token

def source : Token → SharedByte
  | .star => [42]
  | .any => [63]
  | .plain b => [b]
  | .escaped b => [92, b]
  | .bracket c => 91 :: c.text ++ [93]
  | .unclosed c => 91 :: c.text
  | .backslash => [92]

/-- The classes are fair, and closed. -/
def legible : Token → Bool
  | .bracket c => c.fair
  | .unclosed _ => false
  | _ => true

/-- No backslash before a letter, a digit, `<` or `>` or at the end. -/
def faithful : Token → Bool
  | .escaped b => (escapeReading b).isItself
  | .bracket c => c.fair
  | .unclosed _ | .backslash => false
  | .star | .any | .plain _ => true

def wildcard : Token → Bool
  | .star | .any => true
  | _ => false

def isBackslash : Token → Bool
  | .backslash => true
  | _ => false

/-- What becomes of a token. A backslash at the end goes before the `$`. -/
def item : Token → Item
  | .star => .dotStar
  | .any => .dot
  | .plain b => if isEscaped b then .escape b else .literal b
  | .escaped b => .escape b
  | .bracket c | .unclosed c => .bracket c
  | .backslash => .escape 36

end Token

/-- The tokens of a pattern make it up. -/
theorem globTokensFrom_source (fuel : Nat) : ∀ p : SharedByte, p.length ≤ fuel →
    (globTokensFrom fuel p).flatMap Token.source = p := by
  induction fuel with
  | zero =>
    intro p enough
    rw [List.eq_nil_of_length_eq_zero (Nat.le_zero.1 enough)]
    rfl
  | succ fuel ih =>
    intro p enough
    cases p with
    | nil => rfl
    | cons b p =>
      rw [List.length_cons] at enough
      rw [globTokensFrom.eq_def]
      dsimp only
      split
      next same => exact congrArg₂ List.cons same.symm (ih p (by omega))
      split
      next same => exact congrArg₂ List.cons same.symm (ih p (by omega))
      split
      next same =>
        have whole := classOf_source p
        split
        next c rest read =>
          rw [read] at whole
          have shorter : rest.length < p.length := by
            rw [← whole]
            simp [closing]
            omega
          rw [List.flatMap_cons, ih rest (by omega), same, ← whole]
          simp [Token.source, closing]
        next c read =>
          rw [read] at whole
          rw [same, ← whole]
          simp [Token.source, closing]
      split
      next same =>
        cases p with
        | nil => rw [same]; rfl
        | cons c rest =>
          rw [List.length_cons] at enough
          rw [List.flatMap_cons, ih rest (by omega), same]
          rfl
      next => exact congrArg (b :: ·) (ih p (by omega))

theorem globTokens_source (p : SharedByte) : (globTokens p).flatMap Token.source = p :=
  globTokensFrom_source p.length p (Nat.le_refl _)

/-! ## The translation -/

theorem globFrom_class {text : SharedByte} (inside : 93 ∉ text) (rest : SharedByte) :
    globFrom true (text ++ 93 :: rest) = text ++ 93 :: globFrom false rest := by
  induction text with
  | nil => rfl
  | cons b text ih =>
    rw [List.mem_cons, not_or] at inside
    have stays : (b != 93) = true := bne_iff_ne.2 (Ne.symm inside.1)
    rw [List.cons_append, globFrom, stays, ih inside.2]
    rfl

/-- The end of the expression: a backslash at the end of the pattern takes the `$`. -/
def anchored (tokens : List Token) : Bool := !tokens.any Token.isBackslash

/-- The loop translates token by token. -/
theorem globFrom_tokens (fuel : Nat) : ∀ p : SharedByte, p.length ≤ fuel → (∀ t ∈ globTokensFrom fuel p, t.legible = true) →
    globFrom false p ++ [36] = ((globTokensFrom fuel p).map Token.item).flatMap Item.text ++
      if anchored (globTokensFrom fuel p) then [36] else [] := by
  induction fuel with
  | zero =>
    intro p enough _
    rw [List.eq_nil_of_length_eq_zero (Nat.le_zero.1 enough)]
    rfl
  | succ fuel ih =>
    intro p enough
    cases p with
    | nil =>
      intro _
      rfl
    | cons b p =>
      rw [List.length_cons] at enough
      rw [globTokensFrom.eq_def]
      dsimp only
      split
      next same =>
        intro legible
        subst same
        have later := ih p (by omega) fun t member => legible t (List.mem_cons_of_mem _ member)
        exact congrArg (46 :: 42 :: ·) later
      next star =>
        split
        next same =>
          intro legible
          subst same
          have later := ih p (by omega) fun t member => legible t (List.mem_cons_of_mem _ member)
          exact congrArg (46 :: ·) later
        next mark =>
          split
          next same =>
            subst same
            have whole := classOf_source p
            split
            next c rest read =>
              intro legible
              obtain ⟨fair, others⟩ := List.forall_mem_cons.1 legible
              rw [read] at whole
              have shorter : rest.length < p.length := by
                rw [← whole]
                simp [closing]
                omega
              have later := ih rest (by omega) others
              have step : globFrom false (91 :: p) = 91 :: (c.text ++ 93 :: globFrom false rest) := by
                rw [← whole]
                exact congrArg (91 :: ·) (globFrom_class (c.notMem_text fair) rest)
              rw [step]
              simp only [List.cons_append, List.append_assoc, later]
              simp [Token.item, Item.text, anchored, Token.isBackslash]
            next c read =>
              intro legible
              exact absurd (legible _ List.mem_cons_self) Bool.false_ne_true
          next bracket =>
            split
            next same =>
              subst same
              cases p with
              | nil =>
                intro _
                rfl
              | cons c rest =>
                intro legible
                rw [List.length_cons] at enough
                have later := ih rest (by omega) fun t member => legible t (List.mem_cons_of_mem _ member)
                exact congrArg (92 :: c :: ·) later
            next backslash =>
              intro legible
              have later := ih p (by omega) fun t member => legible t (List.mem_cons_of_mem _ member)
              have step : globFrom false (b :: p) = (Token.plain b).item.text ++ globFrom false p := by
                rw [globFrom, if_neg star, if_neg mark, if_neg bracket, Token.item]
                · split <;> rfl
                · exact fun _ _ same _ => backslash same
              rw [step, List.append_assoc, later]
              simp [anchored, Token.isBackslash]

theorem globToRegex_eq {p : SharedByte} (legible : ∀ t ∈ globTokens p, t.legible = true) :
    globToRegex p = regexText ((globTokens p).map Token.item) (anchored (globTokens p)) :=
  congrArg (94 :: ·) (globFrom_tokens p.length p (Nat.le_refl _) legible)

/-! ## The items of a pattern -/

theorem plain_of_mem (fuel : Nat) : ∀ (p : SharedByte) {b : UInt8}, .plain b ∈ globTokensFrom fuel p → b ∉ ([42, 63, 91, 92] : SharedByte) := by
  induction fuel with
  | zero =>
    intro p b member
    cases p <;> cases member
  | succ fuel ih =>
    intro p b member
    cases p with
    | nil => cases member
    | cons first p =>
      rw [globTokensFrom.eq_def] at member
      dsimp only at member
      split at member
      · exact ih p (by simpa using member)
      split at member
      · exact ih p (by simpa using member)
      split at member
      · split at member
        next c rest _ => exact ih rest (by simpa using member)
        next => simp at member
      split at member
      · split at member
        next rest => exact ih rest (by simpa using member)
        next => simp at member
      next star mark bracket backslash =>
        rcases List.mem_cons.1 member with same | later
        · obtain rfl := Token.plain.inj same
          simp [star, mark, bracket, backslash]
        · exact ih p later

theorem escapeReading_of_isEscaped {b : UInt8} (escaped : isEscaped b = true) : escapeReading b = .itself := by
  have all : ∀ b ∈ ascii ".+^$\x7b\x7d()|#&~", (escapeReading b).isItself = true := by decide +kernel
  exact eq_itself (all b (List.contains_iff_mem.1 escaped))

/-- What is special is escaped, or a token of its own. -/
theorem isEscaped_of_isSpecial {b : UInt8} (special : isSpecial b = true) (plain : b ∉ ([42, 63, 91, 92] : SharedByte)) :
    isEscaped b = true := by
  have all : ∀ b ∈ ([92, 46, 43, 42, 63, 40, 41, 124, 91, 123, 94, 36] : SharedByte),
      b ∈ ([42, 63, 91, 92] : SharedByte) ∨ isEscaped b = true := by decide +kernel
  exact (all b (List.contains_iff_mem.1 special)).resolve_left plain

variable {p : SharedByte}

/-- The tokens of an ASCII pattern are ASCII. -/
theorem ascii_source (asciiP : ∀ b ∈ p, Ascii b) {t : Token} (member : t ∈ globTokens p) : ∀ b ∈ t.source, Ascii b := by
  intro b inside
  apply asciiP
  rw [← globTokens_source p]
  exact List.mem_flatMap.2 ⟨t, member, inside⟩

theorem wellFormed_item (asciiP : ∀ b ∈ p, Ascii b) {t : Token} (member : t ∈ globTokens p) (legible : t.legible = true) :
    t.item.WellFormed := by
  have source := ascii_source asciiP member
  cases t with
  | star | any | backslash => exact ⟨rfl, by decide +kernel⟩
  | escaped b => exact ⟨rfl, source⟩
  | bracket c => exact ⟨legible, source⟩
  | unclosed c => cases legible
  | plain b =>
    have here : Ascii b := source b List.mem_cons_self
    rw [Token.item]
    split
    next escaped =>
      refine ⟨rfl, List.forall_mem_cons.2 ⟨by decide, source⟩⟩
    next unescaped =>
      refine ⟨?_, source⟩
      cases special : isSpecial b with
      | false => rw [Item.plain, special]; rfl
      | true => exact absurd (isEscaped_of_isSpecial special (plain_of_mem _ p member)) unescaped

/-- A faithful token and its item take the same bytes, but for the line feed under a wildcard. -/
theorem atom_of_faithful {t : Token} (faithful : t.faithful = true) {D : UInt8 → Prop} (line : t.wildcard = true → ¬ D 10) :
    ∃ a, t.item.atom? = some a ∧ t.atom.Agree D a := by
  have noLine : t.wildcard = true → ∀ x, D x → (True ↔ x ≠ 10) := by
    intro wild x inside
    refine ⟨fun _ => ?_, fun _ => trivial⟩
    rintro rfl
    exact line wild inside
  cases t with
  | star => exact ⟨_, rfl, .many (noLine rfl)⟩
  | any => exact ⟨_, rfl, .one (noLine rfl)⟩
  | plain b =>
    refine ⟨.one (· = b), ?_, .one fun _ _ => Iff.rfl⟩
    rw [Token.item]
    split
    next escaped => rw [Item.atom?, escapeReading_of_isEscaped escaped]
    next => rfl
  | escaped b =>
    refine ⟨.one (· = b), ?_, .one fun _ _ => Iff.rfl⟩
    rw [Token.item, Item.atom?, eq_itself faithful]
  | bracket c => exact ⟨_, rfl, .one fun _ _ => Iff.rfl⟩
  | unclosed | backslash => cases faithful

/-! ## Where the translation is right -/

/-- The pattern is made of faithful tokens. -/
def Faithful (p : SharedByte) : Prop := ∀ t ∈ globTokens p, t.faithful = true

def Legible (p : SharedByte) : Prop := ∀ t ∈ globTokens p, t.legible = true

/-- A `*` or `?` outside the classes. -/
def HasWildcard (p : SharedByte) : Prop := ∃ t ∈ globTokens p, t.wildcard = true

instance : Decidable (Faithful p) := inferInstanceAs (Decidable (∀ t ∈ globTokens p, _))

instance : Decidable (Legible p) := inferInstanceAs (Decidable (∀ t ∈ globTokens p, _))

instance : Decidable (HasWildcard p) := inferInstanceAs (Decidable (∃ t ∈ globTokens p, _))

theorem wellFormed_items (asciiP : ∀ b ∈ p, Ascii b) (legible : Legible p) :
    ∀ i ∈ (globTokens p).map Token.item, i.WellFormed := by
  rw [List.forall_mem_map]
  exact fun t member => wellFormed_item asciiP member (legible t member)

theorem legible_of_faithful {t : Token} (faithful : t.faithful = true) : t.legible = true := by
  cases t with
  | bracket c => exact faithful
  | unclosed c => exact faithful
  | _ => rfl

/-- Items that take bytes of their own, one for each token. -/
theorem exists_atoms {tokens : List Token} {D : UInt8 → Prop} (faithful : ∀ t ∈ tokens, t.faithful = true)
    (line : ∀ t ∈ tokens, t.wildcard = true → ¬ D 10) : ∃ as,
      List.Forall₂ (fun i a => Item.atom? i = some a) (tokens.map Token.item) as ∧
      List.Forall₂ (Atom.Agree D) (tokens.map Token.atom) as := by
  induction tokens with
  | nil => exact ⟨[], .nil, .nil⟩
  | cons t tokens ih =>
    obtain ⟨as, known, agree⟩ := ih (fun u member => faithful u (List.mem_cons_of_mem _ member))
      fun u member => line u (List.mem_cons_of_mem _ member)
    obtain ⟨a, first, same⟩ := atom_of_faithful (faithful t List.mem_cons_self) (line t List.mem_cons_self)
    exact ⟨a :: as, .cons first known, .cons same agree⟩

variable {lang : SharedByte → Bytes → Prop}

theorem lang_iff_glob (documented : Documented lang) (asciiP : ∀ b ∈ p, Ascii b) (faithful : Faithful p) {k : Bytes}
    (asciiK : ∀ b ∈ k, Ascii b) (line : 10 ∉ k ∨ ¬ HasWildcard p) : lang (globToRegex p) k ↔ Glob p k := by
  have legible : Legible p := fun t member => legible_of_faithful (faithful t member)
  have wellFormed := wellFormed_items asciiP legible
  obtain ⟨as, known, agree⟩ := exists_atoms (D := (· ∈ k)) faithful fun t member wild inside =>
    line.elim (fun absent => absent inside) fun none' => none' ⟨t, member, wild⟩
  rw [globToRegex_eq legible, documented.sequence _ as _ wellFormed known k asciiK]
  exact (matches_congr agree fun _ inside => inside).symm

/-! ## Where it is wrong -/

section Handler

variable {P : Policy} {S : Type} [Score S] {σ : Type} {st : OxidArt P (Value S)} {order : HashOrder}

/-- The keys that the automata of `new` accept. -/
def languageOf (new : SharedByte → Option (Dfa σ)) (text : SharedByte) (k : Bytes) : Prop :=
  ∃ dfa start, new text = some dfa ∧ dfa.startStateForward = some start ∧ dfa.accepts start k = true

/-- A pattern of faithful tokens that is no prefix is answered with the live keys that match it as a glob. -/
theorem handleKeys_glob (reached : Reachable order st) (top : st.graph.label st.rootIdx = some []) {new : SharedByte → Option (Dfa σ)}
    (documented : Documented (languageOf new)) (asciiP : ∀ b ∈ p, Ascii b) (faithful : Faithful p) (slow : isSimplePrefix p = false)
    {dfa : Dfa σ} {start : σ} (built : new (globToRegex p) = some dfa) (starts : dfa.startStateForward = some start)
    (prunes : dfa.Prunes) (line : ∀ k, (st.live k).isSome = true → 10 ∉ k ∨ ¬ HasWildcard p) :
    ∃ keys, handleKeys new [p] st = .ok (bulks keys) ∧ ∀ k, k ∈ keys ↔ (st.live k).isSome = true ∧ Glob p k := by
  obtain ⟨path, I⟩ := reached.isSound
  obtain ⟨pairs, scanned, -, listed⟩ := getnRegex_ok I top built starts prunes
  have language : ∀ k, languageOf new (globToRegex p) k ↔ dfa.accepts start k = true := by
    intro k
    constructor
    · rintro ⟨dfa', start', built', starts', accepted⟩
      obtain rfl := Option.some.inj (built.symm.trans built')
      obtain rfl := Option.some.inj (starts.symm.trans starts')
      exact accepted
    · exact fun accepted => ⟨dfa, start, built, starts, accepted⟩
  refine ⟨pairs.map Prod.fst, ?_, fun k => ?_⟩
  · rw [handleKeys.eq_2]
    rw [if_neg (by rw [slow]; exact Bool.false_ne_true), scanned]
    rfl
  · rw [mem_keys_of_lists listed]
    apply and_congr_right
    intro held
    rw [← language, lang_iff_glob documented asciiP faithful (ascii_of_live I held) (line k held)]

end Handler

end Radixox.Server.Resp
