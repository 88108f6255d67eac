import Radixox.Server.Registry
import Radixox.Server.Tokeniser

/-!
# What the tokeniser accepts

The grammar of requests, on its bytes alone. A release build keeps to it for requests that write every length with a digit
and no number above the range; it takes missing digits for 0 and reads numbers modulo the word size.
-/

namespace Radixox.Server.Cmd
set_option autoImplicit false
open Radixox.Decimal

/-! ## Requests -/

def AllDigits (ds : SharedByte) : Prop := ∀ b ∈ ds, IsDigit b

/-- A bulk string: the digits of its length, and its bytes. -/
structure Chunk where
  digits : SharedByte
  part : SharedByte

def Chunk.wire (c : Chunk) : SharedByte := 36 :: c.digits ++ crlf ++ c.part ++ crlf

def chunksWire (chunks : List Chunk) : SharedByte := chunks.flatMap Chunk.wire

/-- The first line of a request. -/
def headLine (ds : SharedByte) : SharedByte := 42 :: ds ++ crlf

@[simp] theorem chunksWire_nil : chunksWire [] = [] := rfl

@[simp] theorem chunksWire_cons (c : Chunk) (chunks : List Chunk) : chunksWire (c :: chunks) = c.wire ++ chunksWire chunks :=
  List.flatMap_cons

theorem chunksWire_append (chunks more : List Chunk) : chunksWire (chunks ++ more) = chunksWire chunks ++ chunksWire more :=
  List.flatMap_append

theorem cr_notMem {ds : SharedByte} (all : AllDigits ds) : (13 : UInt8) ∉ ds := fun member => absurd (all 13 member) (by decide)

/-- The cursor behind the line that declares a length. -/
def lineEnd (pre ds : SharedByte) : SharedByte := pre ++ 36 :: ds ++ crlf

theorem wire_eq (pre : SharedByte) (c : Chunk) : pre ++ c.wire = lineEnd pre c.digits ++ c.part ++ crlf := by
  simp [Chunk.wire, lineEnd]

/-- At least one digit, and the number that they stand for. -/
def Declares (ds : SharedByte) (n : Nat) : Prop := ds ≠ [] ∧ AllDigits ds ∧ value ds = n

/-- The request declares the parts, and they follow. -/
def InGrammar (d : SharedByte) (p : List SharedByte) : Prop := ∃ ds chunks rest, d = headLine ds ++ chunksWire chunks ++ rest ∧
  Declares ds p.length ∧ chunks.map Chunk.part = p ∧ ∀ c ∈ chunks, Declares c.digits c.part.length

/-- The number that a release build reads, where digits may be missing and words wrap. -/
def Wraps (ds : SharedByte) (n : Nat) : Prop := AllDigits ds ∧ value ds % 2 ^ 64 = n

/-- The request as a release build reads it. -/
structure ReadsAs (d ds : SharedByte) (chunks : List Chunk) (rest : SharedByte) : Prop where
  whole : d = headLine ds ++ chunksWire chunks ++ rest
  count : Wraps ds chunks.length
  parts : ∀ c ∈ chunks, Wraps c.digits c.part.length

/-- Every number in the request is a word, and every length is written with a digit. -/
def Explicit (d : SharedByte) : Prop := ∀ ds chunks rest, ReadsAs d ds chunks rest →
  value ds < 2 ^ 64 ∧ ∀ c ∈ chunks, c.digits ≠ [] ∧ value c.digits < 2 ^ 64

/-! ## Reading at a cursor -/

section Cursor

variable {pre rest : SharedByte}

theorem foldl_shift_mod (ds : SharedByte) : ∀ n, ds.foldl shift (n % 2 ^ 64) % 2 ^ 64 = ds.foldl shift n % 2 ^ 64 := by
  induction ds with
  | nil => exact fun n => Nat.mod_mod n _
  | cons b ds ih =>
    intro n
    rw [List.foldl_cons, List.foldl_cons, ← ih, shift_mod, ih]

/-- What the digit loop of a release build reads. -/
theorem parseUintFrom_reads : ∀ {fuel : Nat} {pre rest : SharedByte} {n m q : Nat}, n < 2 ^ 64 →
    parseUintFrom (pre ++ rest) fuel pre.length n = some (m, q) → ∃ ds after, rest = ds ++ 13 :: after ∧ AllDigits ds ∧
      m = ds.foldl shift n % 2 ^ 64 ∧ q = (pre ++ ds).length := by
  intro fuel
  induction fuel with
  | zero =>
    intro pre rest n m q _ ran
    cases ran
  | succ fuel ih =>
    intro pre rest n m q small ran
    cases rest with
    | nil => simp [parseUintFrom] at ran
    | cons b rest =>
      simp only [parseUintFrom, getElem?_at] at ran
      split at ran
      next cr =>
        obtain ⟨rfl, rfl⟩ := Prod.mk.inj (Option.some.inj ran)
        refine ⟨[], rest, congrArg (· :: rest) cr, ?_, (Nat.mod_eq_of_lt small).symm, by rw [List.append_nil]⟩
        exact fun b member => absurd member List.not_mem_nil
      next =>
        split at ran
        next digit =>
          have whole : pre ++ b :: rest = (pre ++ [b]) ++ rest := by simp
          have next' : pre.length + 1 = (pre ++ [b]).length := by simp
          rw [whole, next'] at ran
          obtain ⟨ds, after, rfl, all, rfl, rfl⟩ := ih (Nat.mod_lt _ (by decide)) ran
          refine ⟨b :: ds, after, rfl, List.forall_mem_cons.2 ⟨digit, all⟩, ?_, by simp⟩
          rw [List.foldl_cons, foldl_shift_mod]
        next => cases ran

theorem parseUint_reads {m q : Nat} (ran : parseUint (pre ++ rest) pre.length = some (m, q)) :
    ∃ ds after, rest = ds ++ 13 :: after ∧ AllDigits ds ∧ m = value ds % 2 ^ 64 ∧ q = (pre ++ ds).length :=
  parseUintFrom_reads (by decide) ran

/-- The line end at a cursor. -/
theorem expectCrlf_eq_some_iff {q : Nat} : expectCrlf (pre ++ rest) pre.length = some q ↔
    ∃ after, rest = crlf ++ after ∧ q = (pre ++ crlf).length := by
  constructor
  · intro found
    unfold expectCrlf at found
    split at found
    next both =>
      obtain ⟨cr, lf⟩ := both
      rw [List.getElem?_append_right (Nat.le_refl _), Nat.sub_self] at cr
      rw [List.getElem?_append_right (Nat.le_add_right _ _), Nat.add_sub_cancel_left] at lf
      rcases rest with _ | ⟨a, _ | ⟨b, after⟩⟩
      · cases cr
      · cases lf
      · obtain rfl := Option.some.inj cr
        obtain rfl := Option.some.inj lf
        refine ⟨after, rfl, ?_⟩
        rw [← Option.some.inj found, List.length_append]
        rfl
    next => cases found
  · rintro ⟨after, rfl, rfl⟩
    rw [← List.append_assoc, expectCrlf_at, List.length_append]
    rfl

theorem exists_of_tag (tag : (pre ++ rest)[pre.length]? = some 36) : ∃ after, rest = 36 :: after := by
  rw [List.getElem?_append_right (Nat.le_refl _), Nat.sub_self] at tag
  cases rest with
  | nil => cases tag
  | cons b after => exact ⟨after, congrArg (· :: after) (Option.some.inj tag)⟩

end Cursor

/-! ## What a release build has read -/

section Grammar

variable {d pre rest : SharedByte} {raw raw' : SmallVec 8 SharedByte} {p : List SharedByte}

/-- The parts that a release build has read. -/
theorem tokeniseParts_reads (n : Nat) : ∀ {pre rest : SharedByte} {raw : SmallVec 8 SharedByte}, d = pre ++ rest →
    tokeniseParts d n pre.length raw = .ok (some raw') → ∃ chunks tail, rest = chunksWire chunks ++ tail ∧ chunks.length = n ∧
      (∀ c ∈ chunks, Wraps c.digits c.part.length) ∧ raw'.items = raw.items ++ chunks.map Chunk.part := by
  induction n with
  | zero =>
    intro pre rest raw _ ran
    obtain rfl := Option.some.inj (Except.ok.inj ran)
    exact ⟨[], rest, rfl, rfl, fun c member => absurd member List.not_mem_nil, (List.append_nil _).symm⟩
  | succ n ih =>
    intro pre rest raw whole ran
    rw [tokeniseParts] at ran
    split at ran
    next => cases ran
    next tag =>
      rw [not_not, whole] at tag
      obtain ⟨after, rfl⟩ := exists_of_tag tag
      have shape : d = (pre ++ [36]) ++ after := by rw [whole]; simp
      have behind : pre.length + 1 = (pre ++ [36]).length := by simp
      rw [behind] at ran
      split at ran
      next => cases ran
      next len q read =>
        rw [shape] at read
        obtain ⟨ds, more, rfl, all, rfl, rfl⟩ := parseUint_reads read
        have split' : d = (pre ++ [36] ++ ds) ++ 13 :: more := by rw [shape]; simp
        split at ran
        next => cases ran
        next q line =>
          rw [split'] at line
          obtain ⟨body, crlf', rfl⟩ := expectCrlf_eq_some_iff.1 line
          have declared : d = lineEnd pre ds ++ body := by rw [split', crlf', lineEnd]; simp
          have cursor : (pre ++ [36] ++ ds ++ crlf).length = (lineEnd pre ds).length := by simp [lineEnd]
          simp only [cursor] at ran
          split at ran
          next => cases ran
          next enough =>
            split at ran
            next => cases ran
            next ordered =>
              -- The sum has not wrapped.
              have word := Nat.mod_lt (value ds) (show 0 < 2 ^ 64 by decide)
              have stop : ((lineEnd pre ds).length + value ds % 2 ^ 64) % 2 ^ 64 = (lineEnd pre ds).length + value ds % 2 ^ 64 := by
                omega
              rw [stop] at ran enough
              rw [Nat.add_sub_cancel_left] at ran
              have room : value ds % 2 ^ 64 ≤ body.length := by
                rw [declared, List.length_append] at enough
                omega
              obtain ⟨part, tail, rfl, size⟩ : ∃ part tail, body = part ++ tail ∧ part.length = value ds % 2 ^ 64 :=
                ⟨body.take (value ds % 2 ^ 64), body.drop (value ds % 2 ^ 64), (List.take_append_drop _ _).symm,
                  by rw [List.length_take, Nat.min_eq_left room]⟩
              have cut : (d.drop (lineEnd pre ds).length).take (value ds % 2 ^ 64) = part := by
                rw [declared, List.drop_left, ← size, List.take_left]
              rw [cut] at ran
              split at ran
              next => cases ran
              next raw₁ pushed =>
                have parted : d = (lineEnd pre ds ++ part) ++ tail := by rw [declared, List.append_assoc]
                have behind' : (lineEnd pre ds).length + value ds % 2 ^ 64 = (lineEnd pre ds ++ part).length := by
                  rw [List.length_append, size]
                rw [behind'] at ran
                split at ran
                next => cases ran
                next q ended =>
                  rw [parted] at ended
                  obtain ⟨others, rfl, rfl⟩ := expectCrlf_eq_some_iff.1 ended
                  obtain ⟨chunks, tail, rfl, count, sized, items⟩ := ih (parted.trans (List.append_assoc _ _ _).symm) ran
                  refine ⟨⟨ds, part⟩ :: chunks, tail, ?_, by rw [List.length_cons, count], ?_, ?_⟩
                  · have line' : 13 :: more = crlf ++ (part ++ (crlf ++ (chunksWire chunks ++ tail))) := crlf'
                    rw [line', chunksWire_cons, Chunk.wire]
                    simp
                  · exact List.forall_mem_cons.2 ⟨⟨all, size.symm⟩, sized⟩
                  · rw [items, SmallVec.items_of_push pushed, List.append_assoc]
                    rfl

theorem tokenise_reads (handed : tokenise d = .ok (some p)) :
    ∃ ds chunks rest, ReadsAs d ds chunks rest ∧ chunks ≠ [] ∧ chunks.map Chunk.part = p := by
  rw [tokenise] at handed
  split at handed
  next => cases handed
  next tag =>
    have start : ([] ++ d)[([] : SharedByte).length]? = some 42 := not_not.1 tag
    cases d with
    | nil => cases start
    | cons b after =>
      obtain rfl := Option.some.inj start
      split at handed
      next => cases handed
      next n q read =>
        have read : parseUint ([42] ++ after) [(42 : UInt8)].length = some (n, q) := read
        obtain ⟨ds, more, rfl, all, rfl, rfl⟩ := parseUint_reads read
        split at handed
        next => cases handed
        next q line =>
          have line : expectCrlf (([42] ++ ds) ++ 13 :: more) ([42] ++ ds).length = some q := line
          obtain ⟨body, crlf', rfl⟩ := expectCrlf_eq_some_iff.1 line
          have whole : 42 :: (ds ++ 13 :: more) = headLine ds ++ body := by rw [crlf', headLine]; simp
          split at handed
          next => cases handed
          next some' =>
            cases parts : tokeniseParts (42 :: (ds ++ 13 :: more)) (value ds % 2 ^ 64) ([42] ++ ds ++ crlf).length .new with
            | error e =>
              rw [parts] at handed
              cases handed
            | ok r =>
              rw [parts] at handed
              cases r with
              | none => cases handed
              | some raw =>
                obtain rfl := Option.some.inj (Except.ok.inj handed)
                obtain ⟨chunks, tail, rfl, count, sized, items⟩ := tokeniseParts_reads _ whole parts
                refine ⟨ds, chunks, tail, ⟨by rw [whole, List.append_assoc], ⟨all, count.symm⟩, sized⟩, ?_, items.symm⟩
                rintro rfl
                exact some' count.symm

/-- What stands before a line end can be told from what is behind it. -/
theorem line_inj {ds ds' after after' : SharedByte} (all : AllDigits ds) (all' : AllDigits ds')
    (same : ds ++ (crlf ++ after) = ds' ++ (crlf ++ after')) : ds = ds' ∧ after = after' := by
  have inside : ∀ {l l' c x y : SharedByte}, AllDigits l → l = l' ++ c → crlf ++ x = c ++ (crlf ++ y) → c = [] := by
    rintro l l' c x y digits rfl tail
    cases c with
    | nil => rfl
    | cons b c =>
      obtain ⟨rfl, -⟩ := List.cons.inj tail
      exact absurd (List.mem_append_right l' List.mem_cons_self) (cr_notMem digits)
  rcases List.append_eq_append_iff.1 same with ⟨c, more, tail⟩ | ⟨c, more, tail⟩
  · obtain rfl := inside all' more tail
    exact ⟨by rw [more, List.append_nil], List.append_cancel_left tail⟩
  · obtain rfl := inside all more tail
    exact ⟨by rw [more, List.append_nil], (List.append_cancel_left tail).symm⟩

theorem chunks_inj (chunks : List Chunk) : ∀ {chunks' : List Chunk} {rest rest' : SharedByte},
    (∀ c ∈ chunks, Wraps c.digits c.part.length) → (∀ c ∈ chunks', Wraps c.digits c.part.length) →
    chunks.length = chunks'.length → chunksWire chunks ++ rest = chunksWire chunks' ++ rest' → chunks = chunks' := by
  induction chunks with
  | nil =>
    intro chunks' rest rest' _ _ count _
    exact (List.length_eq_zero_iff.1 count.symm).symm
  | cons c chunks ih =>
    intro chunks' rest rest' sized sized' count same
    cases chunks' with
    | nil => cases count
    | cons c' chunks' =>
      obtain ⟨ds, part⟩ := c
      obtain ⟨ds', part'⟩ := c'
      obtain ⟨all, size⟩ := sized _ List.mem_cons_self
      obtain ⟨all', size'⟩ := sized' _ List.mem_cons_self
      simp only [chunksWire_cons, Chunk.wire, List.cons_append, List.append_assoc, List.cons.injEq, true_and] at same
      obtain ⟨rfl, later⟩ := line_inj all all' same
      obtain ⟨rfl, others⟩ := List.append_inj later (size.symm.trans size')
      have more := List.append_cancel_left others
      rw [ih (fun c member => sized c (List.mem_cons_of_mem _ member)) (fun c member => sized' c (List.mem_cons_of_mem _ member))
        (Nat.succ.inj count) more]

/-- A request reads in one way only. -/
theorem ReadsAs.unique {ds ds' rest' : SharedByte} {chunks chunks' : List Chunk} (reads : ReadsAs d ds chunks rest)
    (reads' : ReadsAs d ds' chunks' rest') : ds = ds' ∧ chunks = chunks' := by
  have same := reads.whole.symm.trans reads'.whole
  simp only [headLine, List.cons_append, List.append_assoc, List.cons.injEq, true_and] at same
  obtain ⟨rfl, later⟩ := line_inj reads.count.1 reads'.count.1 same
  exact ⟨rfl, chunks_inj chunks reads.parts reads'.parts (reads.count.2.symm.trans reads'.count.2) later⟩

/-- A request of the grammar is one that a release build reads so, if its numbers are words. -/
theorem InGrammar.readsAs (grammar : InGrammar d p) (short : p.length < 2 ^ 64) (small : ∀ part ∈ p, part.length < 2 ^ 64) :
    ∃ ds chunks rest, ReadsAs d ds chunks rest ∧ Declares ds p.length ∧ ∀ c ∈ chunks, c.part ∈ p ∧ Declares c.digits c.part.length := by
  obtain ⟨ds, chunks, rest, whole, declares, parts, sized⟩ := grammar
  have inside : ∀ c ∈ chunks, c.part ∈ p := fun c member => parts ▸ List.mem_map_of_mem member
  have all := declares.2.1
  have count := declares.2.2
  have count' : value ds = chunks.length := by rw [count, ← parts, List.length_map]
  refine ⟨ds, chunks, rest, ⟨whole, ⟨all, by rw [Nat.mod_eq_of_lt (count ▸ short), count']⟩, fun c member => ?_⟩, declares,
    fun c member => ⟨inside c member, sized c member⟩⟩
  obtain ⟨-, all', size⟩ := sized c member
  exact ⟨all', by rw [size, Nat.mod_eq_of_lt (small _ (inside c member))]⟩

/-- What the tokeniser hands over is what the request declares, exactly if the request is explicit about it. -/
theorem tokenise_grammar_iff (handed : tokenise d = .ok (some p)) : InGrammar d p ↔ Explicit d := by
  obtain ⟨ds₀, chunks₀, rest₀, reads₀, some', parts₀⟩ := tokenise_reads handed
  have words : ∀ {ds : SharedByte} {n : Nat}, Wraps ds n → n < 2 ^ 64 := fun wraps => wraps.2 ▸ Nat.mod_lt _ (by decide)
  constructor
  · intro grammar ds' chunks' rest' reads'
    have short : p.length < 2 ^ 64 := by
      rw [← parts₀, List.length_map]
      exact words reads₀.count
    have small : ∀ part ∈ p, part.length < 2 ^ 64 := by
      intro part inside
      rw [← parts₀] at inside
      obtain ⟨c, member, rfl⟩ := List.mem_map.1 inside
      exact words (reads₀.parts c member)
    obtain ⟨ds, chunks, rest, reads, ⟨-, -, count⟩, sized⟩ := grammar.readsAs short small
    obtain ⟨rfl, rfl⟩ := reads.unique reads'
    refine ⟨count ▸ short, fun c member => ?_⟩
    obtain ⟨inside, digits, -, size⟩ := sized c member
    exact ⟨digits, size ▸ small _ inside⟩
  · intro explicit
    obtain ⟨word, each⟩ := explicit ds₀ chunks₀ rest₀ reads₀
    obtain ⟨all, count⟩ := reads₀.count
    rw [Nat.mod_eq_of_lt word] at count
    refine ⟨ds₀, chunks₀, rest₀, reads₀.whole, ⟨?_, all, by rw [count, ← parts₀, List.length_map]⟩, parts₀, fun c member => ?_⟩
    · rintro rfl
      exact some' (List.length_eq_zero_iff.1 count.symm)
    · obtain ⟨digits, word'⟩ := each c member
      obtain ⟨all', size⟩ := reads₀.parts c member
      exact ⟨digits, all', by rw [← size, Nat.mod_eq_of_lt word']⟩

end Grammar

/-- A command with an empty argument, and bytes behind it. -/
theorem tokenise_grammar_iff_empty : InGrammar (ascii "*2\r\n$3\r\nGET\r\n$0\r\n\r\n+") [ascii "GET", []] := by
  have reads : ReadsAs (ascii "*2\r\n$3\r\nGET\r\n$0\r\n\r\n+") (ascii "2")
      [⟨ascii "3", ascii "GET"⟩, ⟨ascii "0", []⟩] (ascii "+") := by
    refine ⟨by decide +kernel, ⟨by unfold AllDigits; decide +kernel, by decide +kernel⟩, ?_⟩
    simp only [List.forall_mem_cons, Wraps, AllDigits]
    decide +kernel
  refine (tokenise_grammar_iff (show tokenise _ = _ by decide +kernel)).2 fun ds chunks rest reads' => ?_
  obtain ⟨rfl, rfl⟩ := reads.unique reads'
  decide +kernel

/-- A length without digits is taken for 0. -/
theorem tokenise_bare_length : tokenise (ascii "*2\r\n$3\r\nGET\r\n$\r\n\r\n") = .ok (some [ascii "GET", []]) ∧
    ¬ InGrammar (ascii "*2\r\n$3\r\nGET\r\n$\r\n\r\n") [ascii "GET", []] := by
  refine ⟨by decide +kernel, fun grammar => ?_⟩
  obtain ⟨ds, chunks, rest, reads, -, sized⟩ := grammar.readsAs (by decide) (by decide)
  have reads' : ReadsAs (ascii "*2\r\n$3\r\nGET\r\n$\r\n\r\n") (ascii "2") [⟨ascii "3", ascii "GET"⟩, ⟨[], []⟩] [] := by
    refine ⟨by decide +kernel, ⟨by unfold AllDigits; decide +kernel, by decide +kernel⟩, ?_⟩
    simp only [List.forall_mem_cons, Wraps, AllDigits]
    decide +kernel
  obtain ⟨rfl, rfl⟩ := reads.unique reads'
  obtain ⟨-, digits, -⟩ := sized ⟨[], []⟩ (by simp)
  exact digits rfl

end Radixox.Server.Cmd

