import Radixox.Lib.Decimal
import Radixox.Server.DataCommands

/-!
# Options of SET, twice

`cmd.rs` has its own readers for the options of `SET`, `parse_set_opts`, and for numbers. It knows
an option by its length and first letter, where `parse_set_options` of the server compares the
whole word and skips a word it does not know. What `parse_set_opts` accepts is a sequence of
options; the two readers are compared on it.
-/

namespace Radixox.Server.Cmd
set_option autoImplicit false
open Radixox.Oxidart Radixox.Decimal Resp

/-! ## The readers of `cmd.rs` -/

/-- `s[i] | 0x20`, the letter at a place whatever its case. -/
def lower (s : SharedByte) (i : Nat) : Char := Char.ofUInt8 (s.getD i 0 ||| 0x20)

/-- The digit loop of `arg_u64` and `arg_i64`, whose sums must stay below `bound`. -/
def argDigits (bound : Nat) : SharedByte → Nat → Option Nat
  | [], n => some n
  | b :: rest, n =>
    if IsDigit b then do
      let tens ← if n * 10 < bound then some (n * 10) else none
      let sum ← if tens + (b.toNat - 48) < bound then some (tens + (b.toNat - 48)) else none
      argDigits bound rest sum
    else none

def argU64 (s : SharedByte) : Option Nat := if s.isEmpty then none else argDigits (2 ^ 64) s 0

def argI64 (s : SharedByte) : Option Int64 :=
  let (neg, digits) := match s with
    | 45 :: rest => (true, rest)
    | _ => (false, s)
  if digits.isEmpty then none
  else (argDigits (2 ^ 63) digits 0).map fun n => Int64.ofInt (if neg then -n else n)

@[ext]
structure SetOpts where
  ttl : Option Duration
  condition : SetCondition

def SetOpts.default : SetOpts := ⟨none, .always⟩

/-- The loop of `parse_set_opts`. -/
def parseSetOptsFrom (opts : SetOpts) : List SharedByte → Option SetOpts
  | [] => some opts
  | s :: rest =>
    if s.length ≠ 2 then none
    else match lower s 0 with
      | 'e' => match rest with
        | [] => none
        | arg :: rest => match argU64 arg with
          | none => none
          | some secs => parseSetOptsFrom { opts with ttl := some (.fromSecs secs) } rest
      | 'p' => match rest with
        | [] => none
        | arg :: rest => match argU64 arg with
          | none => none
          | some ms => parseSetOptsFrom { opts with ttl := some (.fromMillis ms) } rest
      | 'n' => parseSetOptsFrom { opts with condition := .ifNotExists } rest
      | 'x' => parseSetOptsFrom { opts with condition := .ifExists } rest
      | _ => none

def parseSetOpts (args : List SharedByte) : Option SetOpts := parseSetOptsFrom .default args

/-! ## Letters and numbers -/

theorem forall_byte {p : UInt8 → Prop} (all : ∀ n : Fin 256, p (UInt8.ofFin n)) (b : UInt8) : p b := by
  have this := all b.toFin
  rwa [UInt8.ofFin_toFin] at this

theorem toAsciiUppercase_or (b : UInt8) : toAsciiUppercase b ||| 0x20 = b ||| 0x20 := by
  apply forall_byte (p := fun b => toAsciiUppercase b ||| 0x20 = b ||| 0x20)
  decide +kernel

/-- The trie does not see the case of a word. -/
theorem lower_toUppercase (s : SharedByte) (i : Nat) : lower (toUppercase s) i = lower s i := by
  unfold lower toUppercase
  rw [List.getD_eq_getElem?_getD, List.getD_eq_getElem?_getD, List.getElem?_map]
  cases s[i]? with
  | none => rfl
  | some b => exact congrArg Char.ofUInt8 (toAsciiUppercase_or b)

theorem le_parseDigits : ∀ (s : SharedByte) {n m : Nat}, parseDigits s n = some m → n ≤ m := by
  intro s
  induction s with
  | nil =>
    rintro n m ⟨⟩
    exact le_rfl
  | cons b rest ih =>
    intro n m read
    simp only [parseDigits] at read
    split at read
    · have later := ih read
      omega
    · cases read

theorem filter_eq_none_of_le {read : Option Nat} {bound n : Nat} (large : bound ≤ n) (above : ∀ m, read = some m → n ≤ m) :
    read.filter (· < bound) = none := by
  cases read with
  | none => rfl
  | some m =>
    have := above m rfl
    rw [Option.filter_eq_none_iff]
    rintro m ⟨⟩
    rw [decide_eq_true_eq]
    omega

/-- Checking each sum or only the last one is the same. -/
theorem argDigits_eq (bound : Nat) : ∀ (s : SharedByte) {n : Nat}, n < bound →
    argDigits bound s n = (parseDigits s n).filter (· < bound) := by
  intro s
  induction s with
  | nil =>
    intro n small
    simp [argDigits, parseDigits, Option.filter, small]
  | cons b rest ih =>
    intro n small
    simp only [argDigits, parseDigits]
    by_cases digit : IsDigit b
    · rw [if_pos digit, if_pos (show 48 ≤ b ∧ b ≤ 57 from digit)]
      by_cases fits : n * 10 + (b.toNat - 48) < bound
      · rw [if_pos (by omega)]
        show (do let sum ← if n * 10 + (b.toNat - 48) < bound then some (n * 10 + (b.toNat - 48)) else none
                 argDigits bound rest sum) = _
        rw [if_pos fits]
        exact ih fits
      · rw [filter_eq_none_of_le (Nat.le_of_not_lt fits) fun m => le_parseDigits rest]
        split
        · show (do let sum ← if n * 10 + (b.toNat - 48) < bound then some (n * 10 + (b.toNat - 48)) else none
                   argDigits bound rest sum) = _
          rw [if_neg fits]
          rfl
        · rfl
    · rw [if_neg digit, if_neg (show ¬ (48 ≤ b ∧ b ≤ 57) from digit)]
      rfl

theorem argU64_eq (s : SharedByte) : argU64 s = if s.isEmpty then none else (parseDigits s 0).filter (· < 2 ^ 64) := by
  rw [argU64, argDigits_eq (2 ^ 64) s (by omega)]

/-- What `arg_u64` reads, `parse_int` reads too. -/
theorem parseU64_of_argU64 {s : SharedByte} {n : Nat} (read : argU64 s = some n) : parseU64 s = some n := by
  rw [argU64_eq] at read
  cases s with
  | nil => cases read
  | cons b rest =>
    have notPlus : b ≠ 43 := by
      rintro rfl
      simp [parseDigits] at read
    unfold parseU64
    split
    · next plus => exact absurd (List.cons.inj plus).1 notPlus
    · exact read

/-! ## Options as a grammar -/

/-- What `parse_set_opts` takes for one option. -/
inductive Opt where
  | time (word number : SharedByte)
  | flag (word : SharedByte)

namespace Opt

def spell : Opt → List SharedByte
  | time word number => [word, number]
  | flag word => [word]

/-- Two bytes that begin as an option does; a time is followed by digits of a `u64`. -/
def Readable : Opt → Prop
  | time word number => word.length = 2 ∧ (lower word 0 = 'e' ∨ lower word 0 = 'p') ∧ (argU64 number).isSome
  | flag word => word.length = 2 ∧ (lower word 0 = 'n' ∨ lower word 0 = 'x')

/-- The word is the whole option, in any case. -/
def exact : Opt → Bool
  | time word _ => eqIgnoreAsciiCase word "EX" || eqIgnoreAsciiCase word "PX"
  | flag word => eqIgnoreAsciiCase word "NX" || eqIgnoreAsciiCase word "XX"

/-- What it changes, going by the first letter. -/
def apply (opts : SetOpts) : Opt → SetOpts
  | time word number =>
    let n := (argU64 number).getD 0
    { opts with ttl := some (if lower word 0 = 'e' then .fromSecs n else .fromMillis n) }
  | flag word => { opts with condition := if lower word 0 = 'n' then .ifNotExists else .ifExists }

end Opt

/-- A sequence of options in order; a later one replaces an earlier one. -/
def SetOpts.of (os : List Opt) : SetOpts := os.foldl Opt.apply .default

theorem parseSetOptsFrom_spell (os : List Opt) (readable : ∀ o ∈ os, o.Readable) : ∀ opts : SetOpts,
    parseSetOptsFrom opts (os.flatMap Opt.spell) = some (os.foldl Opt.apply opts) := by
  induction os with
  | nil => exact fun _ => rfl
  | cons o os ih =>
    intro opts
    have later := ih fun o' member => readable o' (List.mem_cons_of_mem o member)
    rw [List.flatMap_cons, List.foldl_cons, ← later]
    cases o with
    | time word number =>
      obtain ⟨two, letter, number'⟩ := readable _ List.mem_cons_self
      obtain ⟨n, read⟩ := Option.isSome_iff_exists.1 number'
      rcases letter with letter | letter <;>
        simp [Opt.spell, parseSetOptsFrom, two, letter, read, Opt.apply]
    | flag word =>
      obtain ⟨two, letter⟩ := readable _ List.mem_cons_self
      show parseSetOptsFrom opts (word :: os.flatMap Opt.spell) = _
      rw [parseSetOptsFrom.eq_def]
      rcases letter with letter | letter <;> simp [two, letter, Opt.apply]

theorem exists_spell_cons {o : Opt} {args : List SharedByte} (readable : o.Readable)
    (rest : ∃ os : List Opt, (∀ o ∈ os, o.Readable) ∧ args = os.flatMap Opt.spell) :
    ∃ os : List Opt, (∀ o ∈ os, o.Readable) ∧ o.spell ++ args = os.flatMap Opt.spell := by
  obtain ⟨os, all, rfl⟩ := rest
  exact ⟨o :: os, List.forall_mem_cons.2 ⟨readable, all⟩, rfl⟩

theorem exists_spell {opts opts' : SetOpts} {args : List SharedByte} (accepted : parseSetOptsFrom opts args = some opts') :
    ∃ os : List Opt, (∀ o ∈ os, o.Readable) ∧ args = os.flatMap Opt.spell := by
  revert accepted
  fun_induction parseSetOptsFrom opts args with
  | case1 opts => exact fun _ => ⟨[], nofun, rfl⟩
  | case5 opts word two letter number rest secs read ih =>
    intro accepted
    exact exists_spell_cons (o := .time word number) ⟨not_not.1 two, .inl letter, by rw [read]; rfl⟩ (ih accepted)
  | case8 opts word two letter number rest ms read ih =>
    intro accepted
    exact exists_spell_cons (o := .time word number) ⟨not_not.1 two, .inr letter, by rw [read]; rfl⟩ (ih accepted)
  | case9 opts word rest two letter ih =>
    intro accepted
    exact exists_spell_cons (o := .flag word) ⟨not_not.1 two, .inl letter⟩ (ih accepted)
  | case10 opts word rest two letter ih =>
    intro accepted
    exact exists_spell_cons (o := .flag word) ⟨not_not.1 two, .inr letter⟩ (ih accepted)
  | case2 | case3 | case4 | case6 | case7 | case11 => exact nofun

/-- `parse_set_opts` accepts the sequences of options and no other list. -/
theorem parseSetOpts_eq_some_iff {args : List SharedByte} {opts : SetOpts} : parseSetOpts args = some opts ↔
    ∃ os : List Opt, (∀ o ∈ os, o.Readable) ∧ args = os.flatMap Opt.spell ∧ opts = SetOpts.of os := by
  constructor
  · intro accepted
    obtain ⟨os, readable, rfl⟩ := exists_spell accepted
    rw [parseSetOpts, parseSetOptsFrom_spell os readable] at accepted
    exact ⟨os, readable, rfl, (Option.some.inj accepted).symm⟩
  · rintro ⟨os, readable, rfl, rfl⟩
    exact parseSetOptsFrom_spell os readable .default

/-! ## The server on a sequence of options -/

theorem toUppercase_eq {word : SharedByte} {name : String} (same : eqIgnoreAsciiCase word name = true) :
    word.length = (ascii name).length ∧ ∀ i, lower word i = lower (ascii name) i := by
  have upper : toUppercase word = toUppercase (ascii name) := by simpa [eqIgnoreAsciiCase] using same
  constructor
  · have length := congrArg List.length upper
    rwa [toUppercase, toUppercase, List.length_map, List.length_map] at length
  · intro i
    rw [← lower_toUppercase word, upper, lower_toUppercase]

/-- A word that begins otherwise is not the option. -/
theorem eqIgnoreAsciiCase_false {word : SharedByte} {name : String} (other : lower word 0 ≠ lower (ascii name) 0) :
    eqIgnoreAsciiCase word name = false := by
  rw [Bool.eq_false_iff]
  exact fun same => other ((toUppercase_eq same).2 0)

theorem isDigit_of_argU64 {s : SharedByte} (number : (argU64 s).isSome) : (lower s 0).isDigit := by
  cases s with
  | nil => cases number
  | cons b rest =>
    have digit : IsDigit b := by
      by_contra other
      simp [argU64, argDigits, other] at number
    revert digit
    apply forall_byte (p := fun b => IsDigit b → (lower (b :: rest) 0).isDigit)
    show ∀ n : Fin 256, IsDigit (UInt8.ofFin n) → (Char.ofUInt8 (UInt8.ofFin n ||| 0x20)).isDigit
    decide +kernel

/-- What follows an option that the server does not know is read as if it were not there. -/
theorem parseSetOptionsFrom_skip {opts : SetOptions} {word : SharedByte} {rest : List SharedByte}
    (ex : eqIgnoreAsciiCase word "EX" = false) (px : eqIgnoreAsciiCase word "PX" = false)
    (nx : eqIgnoreAsciiCase word "NX" = false) (xx : eqIgnoreAsciiCase word "XX" = false) :
    parseSetOptionsFrom opts (word :: rest) = parseSetOptionsFrom opts rest := by
  rw [parseSetOptionsFrom.eq_def]
  simp [ex, px, nx, xx]

theorem parseSetOptionsFrom_number {opts : SetOptions} {number : SharedByte} {rest : List SharedByte}
    (digits : (argU64 number).isSome) : parseSetOptionsFrom opts (number :: rest) = parseSetOptionsFrom opts rest := by
  have digit := isDigit_of_argU64 digits
  have other : ∀ {name : String}, (lower (ascii name) 0).isDigit = false → eqIgnoreAsciiCase number name = false :=
    fun letter => eqIgnoreAsciiCase_false fun same => by
      rw [same, letter] at digit
      cases digit
  exact parseSetOptionsFrom_skip (other (by decide)) (other (by decide)) (other (by decide)) (other (by decide))

/-- The options of the server with the fields of `o`. -/
def SetOpts.options (o : SetOpts) : SetOptions := ⟨o.ttl, o.condition⟩

/-- Of a sequence of options the server sees those that are spelled out. -/
theorem parseSetOptionsFrom_spell (os : List Opt) (readable : ∀ o ∈ os, o.Readable) : ∀ opts : SetOpts,
    parseSetOptionsFrom opts.options (os.flatMap Opt.spell) = .ok ((os.filter Opt.exact).foldl Opt.apply opts).options := by
  induction os with
  | nil => exact fun _ => rfl
  | cons o os ih =>
    intro opts
    have later := ih fun o' member => readable o' (List.mem_cons_of_mem o member)
    rw [List.flatMap_cons]
    cases o with
    | time word number =>
      obtain ⟨-, letter, digits⟩ := readable _ List.mem_cons_self
      obtain ⟨n, read⟩ := Option.isSome_iff_exists.1 digits
      show parseSetOptionsFrom opts.options (word :: number :: os.flatMap Opt.spell) = _
      by_cases ex : eqIgnoreAsciiCase word "EX" = true
      · have e : lower word 0 = 'e' := (toUppercase_eq ex).2 0
        rw [List.filter_cons_of_pos (by simp [Opt.exact, ex]), List.foldl_cons, ← later, parseSetOptionsFrom.eq_def]
        simp [ex, parseU64_of_argU64 read, Opt.apply, e, read, SetOpts.options]
      by_cases px : eqIgnoreAsciiCase word "PX" = true
      · have p : lower word 0 = 'p' := (toUppercase_eq px).2 0
        rw [List.filter_cons_of_pos (by simp [Opt.exact, px]), List.foldl_cons, ← later, parseSetOptionsFrom.eq_def]
        simp [ex, px, parseU64_of_argU64 read, Opt.apply, p, read, SetOpts.options]
      rw [Bool.not_eq_true] at ex px
      have nx : eqIgnoreAsciiCase word "NX" = false := eqIgnoreAsciiCase_false (by
        rcases letter with letter | letter <;> rw [letter] <;> decide)
      have xx : eqIgnoreAsciiCase word "XX" = false := eqIgnoreAsciiCase_false (by
        rcases letter with letter | letter <;> rw [letter] <;> decide)
      rw [List.filter_cons_of_neg (by simp [Opt.exact, ex, px]), ← later, parseSetOptionsFrom_skip ex px nx xx,
        parseSetOptionsFrom_number digits]
    | flag word =>
      obtain ⟨-, letter⟩ := readable _ List.mem_cons_self
      have ex : eqIgnoreAsciiCase word "EX" = false := eqIgnoreAsciiCase_false (by
        rcases letter with letter | letter <;> rw [letter] <;> decide)
      have px : eqIgnoreAsciiCase word "PX" = false := eqIgnoreAsciiCase_false (by
        rcases letter with letter | letter <;> rw [letter] <;> decide)
      show parseSetOptionsFrom opts.options (word :: os.flatMap Opt.spell) = _
      by_cases nx : eqIgnoreAsciiCase word "NX" = true
      · have n : lower word 0 = 'n' := (toUppercase_eq nx).2 0
        rw [List.filter_cons_of_pos (by simp [Opt.exact, nx]), List.foldl_cons, ← later, parseSetOptionsFrom.eq_def]
        simp [ex, px, nx, Opt.apply, n, SetOpts.options]
      by_cases xx : eqIgnoreAsciiCase word "XX" = true
      · have x : lower word 0 = 'x' := (toUppercase_eq xx).2 0
        rw [List.filter_cons_of_pos (by simp [Opt.exact, xx]), List.foldl_cons, ← later, parseSetOptionsFrom.eq_def]
        simp [ex, px, nx, xx, Opt.apply, x, SetOpts.options]
      rw [Bool.not_eq_true] at nx xx
      rw [List.filter_cons_of_neg (by simp [Opt.exact, nx, xx]), ← later, parseSetOptionsFrom_skip ex px nx xx]

/-! ## Where the server refuses -/

/-- EX or PX, in any case. -/
def IsTime (word : SharedByte) : Prop := eqIgnoreAsciiCase word "EX" ∨ eqIgnoreAsciiCase word "PX"

/-- Read in order, an EX or PX has no number after it. -/
inductive Broken : List SharedByte → Prop
  | missing {word : SharedByte} (time : IsTime word) : Broken [word]
  | noNumber {word arg : SharedByte} {rest : List SharedByte} (time : IsTime word) (noNumber : parseU64 arg = none) :
      Broken (word :: arg :: rest)
  | afterTime {word arg : SharedByte} {rest : List SharedByte} (time : IsTime word) (number : (parseU64 arg).isSome)
      (later : Broken rest) : Broken (word :: arg :: rest)
  | afterOther {word : SharedByte} {rest : List SharedByte} (other : ¬ IsTime word) (later : Broken rest) :
      Broken (word :: rest)

theorem broken_afterOther {word : SharedByte} {rest : List SharedByte} (other : ¬ IsTime word) :
    Broken (word :: rest) ↔ Broken rest := by
  constructor
  · intro broken
    cases broken with
    | missing time | noNumber time | afterTime time => exact absurd time other
    | afterOther _ later => exact later
  · exact .afterOther other

theorem broken_afterTime {word arg : SharedByte} {rest : List SharedByte} {n : Nat} (time : IsTime word)
    (number : parseU64 arg = some n) : Broken (word :: arg :: rest) ↔ Broken rest := by
  constructor
  · intro broken
    cases broken with
    | noNumber _ noNumber =>
      rw [number] at noNumber
      cases noNumber
    | afterTime _ _ later => exact later
    | afterOther other => exact absurd time other
  · exact .afterTime time (by rw [number]; rfl)

theorem parseSetOptionsFrom_error_iff {args : List SharedByte} {opts : SetOptions} :
    (∃ e, parseSetOptionsFrom opts args = .error e) ↔ Broken args := by
  fun_induction parseSetOptionsFrom opts args with
  | case1 => exact ⟨nofun, nofun⟩
  | case2 opts word ex => exact ⟨fun _ => .missing (.inl ex), fun _ => ⟨_, rfl⟩⟩
  | case3 opts word ex arg rest noNumber => exact ⟨fun _ => .noNumber (.inl ex) noNumber, fun _ => ⟨_, rfl⟩⟩
  | case4 opts word ex arg rest secs number ih => rw [ih, broken_afterTime (.inl ex) number]
  | case5 opts word ex px => exact ⟨fun _ => .missing (.inr px), fun _ => ⟨_, rfl⟩⟩
  | case6 opts word ex px arg rest noNumber => exact ⟨fun _ => .noNumber (.inr px) noNumber, fun _ => ⟨_, rfl⟩⟩
  | case7 opts word ex px arg rest ms number ih => rw [ih, broken_afterTime (.inr px) number]
  | case8 opts word rest ex px _ ih | case9 opts word rest ex px _ _ ih | case10 opts word rest ex px _ _ ih =>
    rw [ih, broken_afterOther fun time => time.elim ex px]

/-! ## The two together -/

/-- Both refuse, or both accept with the same options. -/
def Agree : Except SharedFrame SetOptions → Option SetOpts → Prop
  | .ok server, some o => server.ttl = o.ttl ∧ server.condition = o.condition
  | .error _, none => True
  | _, _ => False

/-- The readers agree where EX or PX lacks its number, and on sequences of options on which those that are not
spelled out make no difference. -/
theorem parseSetOptions_agree_iff (args : List SharedByte) : Agree (parseSetOptions args) (parseSetOpts args) ↔
    Broken args ∨ ∃ os : List Opt, (∀ o ∈ os, o.Readable) ∧ args = os.flatMap Opt.spell ∧
      SetOpts.of (os.filter Opt.exact) = SetOpts.of os := by
  cases lib : parseSetOpts args with
  | some opts =>
    obtain ⟨os, readable, rfl, rfl⟩ := parseSetOpts_eq_some_iff.1 lib
    have server : parseSetOptions (os.flatMap Opt.spell) = .ok (SetOpts.of (os.filter Opt.exact)).options :=
      parseSetOptionsFrom_spell os readable .default
    have notBroken : ¬ Broken (os.flatMap Opt.spell) := by
      intro broken
      obtain ⟨e, refused⟩ : ∃ e, parseSetOptionsFrom .default (os.flatMap Opt.spell) = .error e :=
        parseSetOptionsFrom_error_iff.2 broken
      rw [parseSetOptions, refused] at server
      cases server
    rw [server, or_iff_right notBroken]
    constructor
    · rintro ⟨ttl, condition⟩
      exact ⟨os, readable, rfl, SetOpts.ext ttl condition⟩
    · rintro ⟨os', readable', spelled, same⟩
      have server' := parseSetOptionsFrom_spell os' readable' .default
      have lib' := parseSetOptsFrom_spell os' readable' .default
      rw [← spelled] at server' lib'
      have opts := Except.ok.inj (server.symm.trans server')
      have opts' : SetOpts.of os = SetOpts.of os' := Option.some.inj (lib.symm.trans lib')
      rw [opts, opts', ← same]
      exact ⟨rfl, rfl⟩
  | none =>
    have refused : ¬ ∃ os : List Opt, (∀ o ∈ os, o.Readable) ∧ args = os.flatMap Opt.spell ∧
        SetOpts.of (os.filter Opt.exact) = SetOpts.of os := by
      rintro ⟨os, readable, spelled, -⟩
      rw [parseSetOpts_eq_some_iff.2 ⟨os, readable, spelled, rfl⟩] at lib
      cases lib
    rw [or_iff_left refused, ← parseSetOptionsFrom_error_iff]
    show Agree (parseSetOptionsFrom .default args) none ↔ _
    cases parseSetOptionsFrom .default args with
    | error e => exact ⟨fun _ => ⟨e, rfl⟩, fun _ => trivial⟩
    | ok opts => exact ⟨nofun, nofun⟩

/-- An unknown word: the server skips it, the other reader refuses it. -/
theorem parseSetOptions_disagree : ¬ ∀ args : List SharedByte, Agree (parseSetOptions args) (parseSetOpts args) :=
  fun all => all [ascii "FOO"]

end Radixox.Server.Cmd
