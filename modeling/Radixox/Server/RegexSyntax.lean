import Mathlib.Algebra.Group.Nat.Defs
import Radixox.Lib.Sequences
import Radixox.Oxidart.Tiers
import Radixox.Server.SharedFrame

/-!
# Regular expressions

The part of the syntax of the `regex` crates that `glob_to_regex` writes. The parser itself is a parameter: `Documented` is
what its documentation promises for these expressions.
-/

namespace Radixox.Server.Resp
set_option autoImplicit false

open Radixox.Oxidart Radixox.Sequences

/-! ## Bracket classes -/

/-- A member of a class between `[` and `]`. -/
inductive Member where
  | single (b : UInt8)
  | escaped (b : UInt8)
  | range (first last : UInt8)
deriving DecidableEq

def Member.text : Member → SharedByte
  | .single b => [b]
  | .escaped b => [92, b]
  | .range first last => [first, 45, last]

/-- The ends of a range may come in either order. -/
def Member.Holds : Member → UInt8 → Prop
  | .single b, c | .escaped b, c => c = b
  | .range first last, c => first ≤ c ∧ c ≤ last ∨ last ≤ c ∧ c ≤ first

structure BracketClass where
  negated : Bool
  members : List Member

def BracketClass.text (c : BracketClass) : SharedByte := (if c.negated then [94] else []) ++ c.members.flatMap Member.text

def BracketClass.Holds (c : BracketClass) (b : UInt8) : Prop := (∃ m ∈ c.members, m.Holds b) ↔ c.negated = false

/-- The members up to `]`, and what follows it; `none` if the pattern ends before. -/
def classMembers : SharedByte → List Member × Option SharedByte
  | [] => ([], none)
  | 93 :: rest => ([], some rest)
  | 92 :: b :: rest => (.escaped b :: (classMembers rest).1, (classMembers rest).2)
  | first :: 45 :: last :: rest => (.range first last :: (classMembers rest).1, (classMembers rest).2)
  | b :: rest => (.single b :: (classMembers rest).1, (classMembers rest).2)

/-- The class behind `[`. -/
def classOf : SharedByte → BracketClass × Option SharedByte
  | 94 :: p => (⟨true, (classMembers p).1⟩, (classMembers p).2)
  | p => (⟨false, (classMembers p).1⟩, (classMembers p).2)

/-- What a class leaves of the pattern, with its end. -/
def closing : Option SharedByte → SharedByte
  | some rest => 93 :: rest
  | none => []

theorem classMembers_source (p : SharedByte) :
    (classMembers p).1.flatMap Member.text ++ closing (classMembers p).2 = p := by
  fun_induction classMembers p with
  | case1 => rfl
  | case2 rest => rfl
  | case3 b rest ih => exact congrArg (fun t => 92 :: b :: t) ih
  | case4 first last rest _ _ ih => exact congrArg (fun t => first :: 45 :: last :: t) ih
  | case5 b rest _ _ _ ih => exact congrArg (b :: ·) ih

theorem classOf_source (p : SharedByte) : (classOf p).1.text ++ closing (classOf p).2 = p := by
  fun_cases classOf p with
  | case1 p => exact congrArg (94 :: ·) (classMembers_source p)
  | case2 p => exact classMembers_source p

/-! ## Escapes and items -/

/-- What a backslash makes of the byte that follows it. -/
inductive Reading where
  | itself
  | oneOf (set : UInt8 → Bool)
  /-- An assertion, which takes no byte. -/
  | look
  /-- A class by its name, or a character by its number: what follows belongs to it. -/
  | swallow
  | invalid

def isAlnum (b : UInt8) : Bool := 48 ≤ b && b ≤ 57 || 65 ≤ b && b ≤ 90 || 97 ≤ b && b ≤ 122

def isDigit (b : UInt8) : Bool := 48 ≤ b && b ≤ 57

def isSpace (b : UInt8) : Bool := 9 ≤ b && b ≤ 13 || b == 32

def isWord (b : UInt8) : Bool := isAlnum b || b == 95

/-- `\a`, `\f`, `\n`, `\r`, `\t` and `\v`; `\d`, `\s`, `\w` and their complements; `\A`, `\z`, `\b`, `\B`, `\<` and `\>`; `\p`, `\P`,
`\x`, `\u` and `\U`. No other letter or digit is allowed. -/
def escapeReading (b : UInt8) : Reading :=
  if !(isAlnum b || b == 60 || b == 62) then .itself
  else match [(97, 7), (102, 12), (110, 10), (114, 13), (116, 9), (118, 11)].lookup b with
    | some control => .oneOf (· == control)
    | none =>
      if b = 100 then .oneOf isDigit
      else if b = 68 then .oneOf fun c => !isDigit c
      else if b = 115 then .oneOf isSpace
      else if b = 83 then .oneOf fun c => !isSpace c
      else if b = 119 then .oneOf isWord
      else if b = 87 then .oneOf fun c => !isWord c
      else if [65, 122, 98, 66, 60, 62].contains b then .look
      else if [112, 80, 120, 117, 85].contains b then .swallow
      else .invalid

/-- Characters with a meaning of their own. -/
def isSpecial (b : UInt8) : Bool := [92, 46, 43, 42, 63, 40, 41, 124, 91, 123, 94, 36].contains b

def Reading.isItself : Reading → Bool
  | .itself => true
  | _ => false

/-- A member that both syntaxes read alike: no character with a role in one of them, and no range that is turned round. -/
def Member.fair : Member → Bool
  | .single b => !([45, 91, 92, 93].contains b)
  | .escaped b => (escapeReading b).isItself && b != 93
  | .range first last => first ≤ last && [first, last].all fun b => !([45, 91, 92, 93].contains b)

/-- No `&&` and no `~~`. -/
def noOperator : List Member → Bool
  | .single b :: m :: rest => !((b == 38 || b == 126) && m.text.head? == some b) && noOperator (m :: rest)
  | _ :: rest => noOperator rest
  | [] => true

/-- A class that both syntaxes read alike. A hyphen may stand in front. -/
def BracketClass.fair (c : BracketClass) : Bool :=
  (match c.members with
    | [] => false
    | .single 45 :: rest => rest.all Member.fair
    | members => members.all Member.fair) &&
  noOperator c.members && (c.negated || c.text.head? != some 94)

inductive Item where
  | literal (b : UInt8)
  | escape (b : UInt8)
  | dot
  | dotStar
  | bracket (c : BracketClass)

namespace Item

def text : Item → SharedByte
  | .literal b => [b]
  | .escape b => [92, b]
  | .dot => [46]
  | .dotStar => [46, 42]
  | .bracket c => 91 :: c.text ++ [93]

def plain : Item → Bool
  | .literal b => !isSpecial b
  | .bracket c => c.fair
  | .escape _ | .dot | .dotStar => true

/-- An item in ASCII, whose characters stand for themselves or for a class. -/
def WellFormed (i : Item) : Prop := i.plain = true ∧ ∀ b ∈ i.text, Ascii b

/-- The bytes that an item takes, if these are its own. A dot is any character but the line feed. -/
def atom? : Item → Option (Atom UInt8)
  | .literal b => some (.one (· = b))
  | .escape b => match escapeReading b with
    | .itself => some (.one (· = b))
    | .oneOf set => some (.one fun c => set c = true)
    | .look | .swallow | .invalid => none
  | .dot => some (.one (· ≠ 10))
  | .dotStar => some (.many (· ≠ 10))
  | .bracket c => some (.one c.Holds)

/-- What a sequence of items takes at most: an assertion no byte, an escape that swallows what follows one character, or less. -/
inductive Reads : List Item → List (Atom UInt8) → Prop
  | nil : Reads [] []
  | cons {i : Item} {items : List Item} {a : Atom UInt8} {as : List (Atom UInt8)} (known : i.atom? = some a)
      (rest : Reads items as) : Reads (i :: items) (a :: as)
  | look {b : UInt8} {items : List Item} {as : List (Atom UInt8)} (reading : escapeReading b = .look) (rest : Reads items as) :
      Reads (.escape b :: items) as
  | swallow {b : UInt8} {items : List Item} {as : List (Atom UInt8)} (S : UInt8 → Prop) (n : Nat) (reading : escapeReading b = .swallow)
      (some' : 0 < n) (within : n ≤ items.length) (rest : Reads (items.drop n) as) : Reads (.escape b :: items) (.one S :: as)

end Item

/-- The text of an expression that is anchored at the start, and at the end or not. -/
def regexText (items : List Item) (anchored : Bool) : SharedByte :=
  94 :: items.flatMap Item.text ++ if anchored then [36] else []

/-- What the documentation of the crates promises for the whole of an ASCII key. -/
structure Documented (lang : SharedByte → Bytes → Prop) : Prop where
  /-- Items that take bytes of their own match one after the other. -/
  sequence : ∀ (items : List Item) (as : List (Atom UInt8)) (anchored : Bool), (∀ i ∈ items, i.WellFormed) →
    List.Forall₂ (fun i a => Item.atom? i = some a) items as →
    ∀ k : Bytes, (∀ b ∈ k, Ascii b) → (lang (regexText items anchored) k ↔ Matches as k)
  /-- In any case no more is taken. -/
  bound : ∀ (items : List Item) (anchored : Bool), (∀ i ∈ items, i.WellFormed) → ∀ k : Bytes, (∀ b ∈ k, Ascii b) →
    lang (regexText items anchored) k → ∃ as, Item.Reads items as ∧ Matches as k

/-! ## What fair classes and items are -/

theorem eq_itself {r : Reading} (same : r.isItself = true) : r = .itself := by
  cases r with
  | itself => rfl
  | _ => cases same

theorem notMem_text_of_fair {m : Member} (fair : m.fair = true) : 93 ∉ m.text := by
  cases m with
  | single b =>
    simp [Member.fair] at fair
    simp [Member.text, fair, eq_comm]
  | escaped b =>
    simp [Member.fair] at fair
    simp [Member.text, fair, eq_comm]
  | range first last =>
    simp [Member.fair] at fair
    simp [Member.text, fair, eq_comm]

namespace BracketClass

variable {c : BracketClass}

theorem fair_members (fair : c.fair = true) : ∀ m ∈ c.members, m = .single 45 ∨ m.fair = true := by
  rw [BracketClass.fair, Bool.and_eq_true, Bool.and_eq_true] at fair
  obtain ⟨⟨members, -⟩, -⟩ := fair
  intro m member
  split at members
  · cases members
  next rest shape =>
    rw [shape] at member
    rcases List.mem_cons.1 member with first | later
    · exact .inl first
    · exact .inr (List.all_eq_true.1 members m later)
  next => exact .inr (List.all_eq_true.1 members m member)

/-- The first `]` ends a fair class. -/
theorem notMem_text (fair : c.fair = true) : 93 ∉ c.text := by
  rw [BracketClass.text, List.mem_append, not_or]
  constructor
  · split <;> decide
  · rw [List.mem_flatMap]
    rintro ⟨m, member, inside⟩
    rcases c.fair_members fair m member with rfl | fairM
    · exact absurd inside (by decide)
    · exact notMem_text_of_fair fairM inside

end BracketClass

theorem eq_dotStar {i : Item} {S : UInt8 → Prop} (many : i.atom? = some (.many S)) : i = .dotStar ∧ S = (· ≠ 10) := by
  cases i with
  | dotStar =>
    cases many
    exact ⟨rfl, rfl⟩
  | escape b =>
    rw [Item.atom?] at many
    split at many <;> cases many
  | _ => cases many

namespace Item.Reads

variable {items : List Item} {as : List (Atom UInt8)}

theorem length_le (reads : Reads items as) : (sets as).length ≤ items.length := by
  induction reads with
  | nil => exact Nat.le_refl _
  | @cons _ _ a _ _ _ ih =>
    cases a with
    | one S => exact Nat.succ_le_succ ih
    | many S => exact Nat.le_succ_of_le ih
  | look _ _ ih => exact Nat.le_succ_of_le ih
  | swallow _ n _ _ _ _ ih =>
    rw [List.length_drop] at ih
    rw [sets, List.length_cons, List.length_cons]
    omega

/-- A place for any number of bytes comes from `.*`. -/
theorem many (reads : Reads items as) {S : UInt8 → Prop} (place : .many S ∈ as) : .dotStar ∈ items ∧ ¬ S 10 := by
  induction reads with
  | nil => cases place
  | cons known _ ih =>
    rcases List.mem_cons.1 place with rfl | later
    · obtain ⟨rfl, rfl⟩ := eq_dotStar known
      exact ⟨List.mem_cons_self, fun other => other rfl⟩
    · exact (ih later).imp_left (List.mem_cons_of_mem _)
  | look _ _ ih => exact (ih place).imp_left (List.mem_cons_of_mem _)
  | swallow _ n _ _ _ _ ih =>
    rcases List.mem_cons.1 place with same | later
    · cases same
    · exact (ih later).imp_left fun member => List.mem_cons_of_mem _ (List.mem_of_mem_drop member)

/-- If as many bytes are taken as there are items, each item takes its own. -/
theorem known (reads : Reads items as) : (sets as).length = items.length →
    List.Forall₂ (fun i a => Item.atom? i = some a) items as := by
  induction reads with
  | nil => exact fun _ => .nil
  | @cons _ _ a _ known rest ih =>
    intro full
    cases a with
    | one S => exact .cons known (ih (Nat.succ.inj full))
    | many S =>
      have := rest.length_le
      rw [sets, List.length_cons] at full
      omega
  | look _ rest _ =>
    intro full
    have := rest.length_le
    rw [List.length_cons] at full
    omega
  | swallow _ n _ some' within rest _ =>
    intro full
    have := rest.length_le
    rw [List.length_drop] at this
    rw [sets, List.length_cons, List.length_cons] at full
    omega

end Item.Reads

/-! ## Reading an expression -/

namespace BracketClass

variable {c : BracketClass}

end BracketClass

/-- The items of an expression, up to an anchor at its end. -/
def readItems : Nat → SharedByte → Option (List Item)
  | _, [] => some []
  | 0, _ :: _ => none
  | fuel + 1, b :: rest =>
    if b = 92 then match rest with
      | c :: rest => (readItems fuel rest).map (.escape c :: ·)
      | [] => none
    else if b = 46 then
      if rest.head? = some 42 then (readItems fuel rest.tail).map (.dotStar :: ·) else (readItems fuel rest).map (.dot :: ·)
    else if b = 91 then match classOf rest with
      | (c, some rest) => (readItems fuel rest).map (.bracket c :: ·)
      | (_, none) => none
    else if b = 36 then if rest = [] then some [] else none
    else if isSpecial b then none
    else (readItems fuel rest).map (.literal b :: ·)

/-- Expressions of items that take bytes of their own, and no others. -/
def readsAs (text : SharedByte) (k : Bytes) : Prop := ∃ items as, text.head? = some 94 ∧
  readItems text.length text.tail = some items ∧ List.Forall₂ (fun i a => Item.atom? i = some a) items as ∧ Matches as k

end Radixox.Server.Resp
