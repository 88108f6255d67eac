import Radixox.Lib.Outcomes
import Radixox.Server.Requests

/-!
# Numbers that do not fit

The numbers of a request come from the network and go into a digit loop, a sum with the cursor and a slice. A build with
overflow checks panics when one of them leaves the range of `usize`, or when there are more parts than the vector can take,
and only then; a release build wraps, and may slice out of range.
-/

namespace Radixox.Server.Cmd
set_option autoImplicit false
open Radixox.Decimal
open Outcomes (Refines)

/-! ## The build with overflow checks -/

/-- Where a build with overflow checks panics. -/
inductive CheckedPanic where
  | overflow
  | token (panic : TokenPanic)
deriving DecidableEq

/-- The loop of `parse_uint`, every step checked. -/
def parseUintCheckedFrom (d : SharedByte) : Nat → Nat → Nat → Except CheckedPanic (Option (Nat × Nat))
  | 0, _, _ => .ok none
  | fuel + 1, pos, n => match d[pos]? with
    | none => .ok none
    | some b =>
      if b = 13 then .ok (some (n, pos))
      else if IsDigit b then
        if shift n b < 2 ^ 64 then parseUintCheckedFrom d fuel (pos + 1) (shift n b) else .error .overflow
      else .ok none

def parseUintChecked (d : SharedByte) (pos : Nat) : Except CheckedPanic (Option (Nat × Nat)) :=
  parseUintCheckedFrom d (d.length - pos + 1) pos 0

/-- `d[start..stop]`. -/
def slice (d : SharedByte) (start stop : Nat) : Except CheckedPanic SharedByte :=
  if start ≤ stop ∧ stop ≤ d.length then .ok ((d.drop start).take (stop - start)) else .error (.token .slice)

def pushChecked (raw : SmallVec 8 SharedByte) (part : SharedByte) : Except CheckedPanic (SmallVec 8 SharedByte) :=
  (raw.push part).mapError fun overflow => .token (.push overflow)

/-- The loop over the parts. The cursor never passes the end of the slice, so that only the sum with a length can overflow. -/
def tokenisePartsChecked (d : SharedByte) :
    Nat → Nat → SmallVec 8 SharedByte → Except CheckedPanic (Option (SmallVec 8 SharedByte))
  | 0, _, raw => .ok (some raw)
  | n + 1, pos, raw =>
    if d[pos]? ≠ some 36 then .ok none
    else do match ← parseUintChecked d (pos + 1) with
      | none => return none
      | some (len, pos) => match expectCrlf d pos with
        | none => return none
        | some pos =>
          if 2 ^ 64 ≤ pos + len then throw .overflow
          if d.length < pos + len then return none
          let raw ← pushChecked raw (← slice d pos (pos + len))
          match expectCrlf d (pos + len) with
          | none => return none
          | some pos => tokenisePartsChecked d n pos raw

def tokeniseChecked (d : SharedByte) : Except CheckedPanic (Option (List SharedByte)) :=
  if d[0]? ≠ some 42 then .ok none
  else do match ← parseUintChecked d 1 with
    | none => return none
    | some (n, pos) => match expectCrlf d pos with
      | none => return none
      | some pos => if n = 0 then return none else return (← tokenisePartsChecked d n pos .new).map SmallVec.items

/-! ## Reading a number -/

/-- Reading digits only makes a number larger. -/
theorem le_foldl_shift (ds : SharedByte) : ∀ n, n ≤ ds.foldl shift n := by
  induction ds with
  | nil => exact fun n => Nat.le_refl n
  | cons b ds ih =>
    intro n
    have more : n ≤ shift n b := by
      unfold shift
      omega
    exact Nat.le_trans more (ih (shift n b))

section Numbers

variable {d pre rest ds : SharedByte}

/-- A number that a checked build has read is the one that a release build reads. -/
theorem parseUintFrom_of_checked : ∀ {fuel pos n : Nat} {r : Option (Nat × Nat)}, parseUintCheckedFrom d fuel pos n = .ok r →
    parseUintFrom d fuel pos n = r := by
  intro fuel
  induction fuel with
  | zero =>
    intro pos n r ran
    exact Except.ok.inj ran
  | succ fuel ih =>
    intro pos n r ran
    cases here : d[pos]? with
    | none =>
      simp only [parseUintCheckedFrom, here] at ran
      simp only [parseUintFrom, here]
      exact Except.ok.inj ran
    | some b =>
      simp only [parseUintCheckedFrom, here] at ran
      simp only [parseUintFrom, here]
      by_cases cr : b = 13
      · rw [if_pos cr] at ran ⊢
        exact Except.ok.inj ran
      · rw [if_neg cr] at ran ⊢
        by_cases digit : IsDigit b
        · rw [if_pos digit] at ran ⊢
          split at ran
          next small => rw [Nat.mod_eq_of_lt small]; exact ih ran
          next => cases ran
        · rw [if_neg digit] at ran ⊢
          exact Except.ok.inj ran

/-- The checks hold if the digits that are there do not go too far. -/
theorem parseUintCheckedFrom_ok : ∀ {fuel : Nat} {pre rest : SharedByte} {n : Nat},
    (∀ ds after, rest = ds ++ after → AllDigits ds → ds.foldl shift n < 2 ^ 64) →
    ∃ r, parseUintCheckedFrom (pre ++ rest) fuel pre.length n = .ok r := by
  intro fuel
  induction fuel with
  | zero => exact fun _ => ⟨none, rfl⟩
  | succ fuel ih =>
    intro pre rest n small
    cases rest with
    | nil => exact ⟨none, by simp [parseUintCheckedFrom]⟩
    | cons b rest =>
      simp only [parseUintCheckedFrom, getElem?_at]
      split
      · exact ⟨_, rfl⟩
      · split
        next digit =>
          have more : shift n b < 2 ^ 64 := small [b] rest rfl (List.forall_mem_singleton.2 digit)
          rw [if_pos more]
          have whole : pre ++ b :: rest = (pre ++ [b]) ++ rest := by simp
          have next' : pre.length + 1 = (pre ++ [b]).length := by simp
          rw [whole, next']
          refine ih fun ds after same all => ?_
          exact small (b :: ds) after (by rw [same]; rfl) (List.forall_mem_cons.2 ⟨digit, all⟩)
        next => exact ⟨none, rfl⟩

/-- Digits that go too far are an overflow, whatever is behind them. -/
theorem parseUintCheckedFrom_overflow (ds : SharedByte) : ∀ {fuel : Nat} {pre rest : SharedByte} {n : Nat}, AllDigits ds →
    n < 2 ^ 64 → 2 ^ 64 ≤ ds.foldl shift n → ds.length < fuel →
    parseUintCheckedFrom (pre ++ ds ++ rest) fuel pre.length n = .error .overflow := by
  induction ds with
  | nil =>
    intro fuel pre rest n _ small large _
    exact absurd small (Nat.not_lt.2 large)
  | cons b ds ih =>
    intro fuel pre rest n all small large enough
    obtain ⟨fuel, rfl⟩ : ∃ f, fuel = f + 1 := ⟨fuel - 1, by omega⟩
    have digit := all b List.mem_cons_self
    have notCr : b ≠ 13 := fun cr => absurd (cr ▸ digit) (by decide)
    have at' : (pre ++ b :: ds ++ rest)[pre.length]? = some b := by
      rw [List.append_assoc, List.cons_append]
      exact getElem?_at pre b _
    simp only [parseUintCheckedFrom, at', if_neg notCr, if_pos digit]
    split
    next small' =>
      have whole : pre ++ b :: ds ++ rest = (pre ++ [b]) ++ ds ++ rest := by simp
      have next' : pre.length + 1 = (pre ++ [b]).length := by simp
      rw [whole, next']
      exact ih (fun c member => all c (List.mem_cons_of_mem b member)) small' large (by rw [List.length_cons] at enough; omega)
    next => rfl

theorem parseUintChecked_ok (pre : SharedByte) (small : ∀ ds after, rest = ds ++ after → AllDigits ds → value ds < 2 ^ 64) :
    ∃ r, parseUintChecked (pre ++ rest) pre.length = .ok r ∧ parseUint (pre ++ rest) pre.length = r := by
  obtain ⟨r, ran⟩ := parseUintCheckedFrom_ok small
  exact ⟨r, ran, parseUintFrom_of_checked ran⟩

theorem parseUintChecked_overflow (pre rest : SharedByte) (all : AllDigits ds) (large : 2 ^ 64 ≤ value ds) :
    parseUintChecked (pre ++ ds ++ rest) pre.length = .error .overflow := by
  refine parseUintCheckedFrom_overflow ds all (by decide) large ?_
  simp only [List.length_append]
  omega

/-- A number with the line end behind it. -/
theorem parseUintChecked_digits (pre rest : SharedByte) (all : AllDigits ds) (small : value ds < 2 ^ 64) :
    parseUintChecked (pre ++ ds ++ 13 :: rest) pre.length = .ok (some (value ds, (pre ++ ds).length)) := by
  have shorter : ∀ ds' after, ds ++ 13 :: rest = ds' ++ after → AllDigits ds' → value ds' < 2 ^ 64 := by
    intro ds' after same all'
    rcases List.append_eq_append_iff.1 same with ⟨c, rfl, tail⟩ | ⟨c, rfl, -⟩
    · cases c with
      | nil => rwa [List.append_nil]
      | cons b c =>
        obtain ⟨rfl, -⟩ := List.cons.inj tail
        exact absurd (List.mem_append_right ds List.mem_cons_self) (cr_notMem all')
    · rw [value, List.foldl_append] at small
      exact Nat.lt_of_le_of_lt (le_foldl_shift c _) small
  obtain ⟨r, ran, read⟩ := parseUintChecked_ok pre shorter
  have digits := parseUintFrom_digits ds all rest pre ((pre ++ ds ++ 13 :: rest).length - pre.length + 1) 0 (by
    simp only [List.length_append]
    omega)
  rw [← List.append_assoc] at ran read
  rw [ran, ← read]
  refine congrArg Except.ok (digits.trans ?_)
  rw [List.length_append]
  exact congrArg (fun n => some (n, _)) (Nat.mod_eq_of_lt small)

end Numbers

/-! ## One part -/

section Parts

variable {d pre rest after more ds part : SharedByte} {n : Nat} {raw raw' : SmallVec 8 SharedByte}

/-- The digits of the length may be none, or have leading zeros. -/
def Chunk.Sized (c : Chunk) : Prop := AllDigits c.digits ∧ value c.digits = c.part.length

theorem tag_at (pre rest : SharedByte) : ¬ (pre ++ 36 :: rest)[pre.length]? ≠ some 36 := not_not.2 (getElem?_at pre 36 rest)

/-- Digits that go too far, whatever is behind them. -/
theorem tokenisePartsChecked_overflow (all : AllDigits ds) (large : 2 ^ 64 ≤ value ds) :
    tokenisePartsChecked (pre ++ 36 :: ds ++ rest) (n + 1) pre.length raw = .error .overflow := by
  have shape : pre ++ 36 :: ds ++ rest = (pre ++ [36]) ++ ds ++ rest := by simp
  have tag := tag_at pre (ds ++ rest)
  have number := parseUintChecked_overflow (pre ++ [36]) rest all large
  rw [← shape, List.length_append, List.length_singleton] at number
  rw [← List.cons_append, ← List.append_assoc] at tag
  rw [tokenisePartsChecked, if_neg tag, number]
  rfl

/-- A declared length. -/
theorem tokenisePartsChecked_line (all : AllDigits ds) (small : value ds < 2 ^ 64) (whole : d = lineEnd pre ds ++ after) :
    tokenisePartsChecked d (n + 1) pre.length raw =
      if 2 ^ 64 ≤ (lineEnd pre ds).length + value ds then .error .overflow
      else if d.length < (lineEnd pre ds).length + value ds then .ok none
      else (slice d (lineEnd pre ds).length ((lineEnd pre ds).length + value ds)).bind fun part =>
        (pushChecked raw part).bind fun raw => match expectCrlf d ((lineEnd pre ds).length + value ds) with
          | none => .ok none
          | some pos => tokenisePartsChecked d n pos raw := by
  have shape : d = (pre ++ [36]) ++ ds ++ 13 :: (10 :: after) := by rw [whole, lineEnd]; simp [crlf]
  have tag : ¬ d[pre.length]? ≠ some 36 := by
    rw [shape, List.append_assoc, List.append_assoc]
    exact tag_at pre _
  have number : parseUintChecked d (pre.length + 1) = .ok (some (value ds, (pre ++ [36] ++ ds).length)) := by
    have read := parseUintChecked_digits (pre ++ [36]) (10 :: after) all small
    rwa [← shape, List.length_append, List.length_singleton] at read
  have line : expectCrlf d (pre ++ [36] ++ ds).length = some (lineEnd pre ds).length := by
    have split : d = (pre ++ [36] ++ ds) ++ (crlf ++ after) := by rw [shape]; simp [crlf]
    rw [split]
    exact expectCrlf_eq_some_iff.2 ⟨after, rfl, by simp [lineEnd]⟩
  rw [tokenisePartsChecked, if_neg tag, number]
  simp only [bind, Except.bind, line]
  split
  · rfl
  · split <;> rfl

/-- A declared length with as many bytes behind it. -/
theorem tokenisePartsChecked_part (all : AllDigits ds) (sum : (lineEnd pre ds).length + value ds < 2 ^ 64)
    (exact' : value ds = part.length) (whole : d = lineEnd pre ds ++ part ++ more) :
    tokenisePartsChecked d (n + 1) pre.length raw = (pushChecked raw part).bind fun raw =>
      match expectCrlf d (lineEnd pre ds ++ part).length with
      | none => .ok none
      | some pos => tokenisePartsChecked d n pos raw := by
  have room : (lineEnd pre ds).length + value ds ≤ d.length := by
    rw [whole, exact']
    simp only [List.length_append]
    omega
  have cut : slice d (lineEnd pre ds).length ((lineEnd pre ds).length + value ds) = .ok part := by
    rw [slice, if_pos ⟨Nat.le_add_right _ _, room⟩, Nat.add_sub_cancel_left, exact', whole, List.append_assoc, List.drop_left,
      List.take_left]
  have stop : (lineEnd pre ds ++ part).length = (lineEnd pre ds).length + value ds := by rw [List.length_append, exact']
  rw [tokenisePartsChecked_line all (by omega) (by rw [whole, List.append_assoc]), if_neg (by omega), if_neg (by omega), cut, stop]
  rfl

/-- A whole part. -/
theorem tokenisePartsChecked_chunk {c : Chunk} (sized : c.Sized) (sum : (lineEnd pre c.digits).length + value c.digits < 2 ^ 64)
    (whole : d = pre ++ c.wire ++ rest) : tokenisePartsChecked d (n + 1) pre.length raw =
      (pushChecked raw c.part).bind fun raw => tokenisePartsChecked d n (pre ++ c.wire).length raw := by
  have shape : d = lineEnd pre c.digits ++ c.part ++ (crlf ++ rest) := by rw [whole, wire_eq, List.append_assoc]
  have line : expectCrlf d (lineEnd pre c.digits ++ c.part).length = some (pre ++ c.wire).length := by
    rw [shape]
    exact expectCrlf_eq_some_iff.2 ⟨rest, rfl, by rw [wire_eq]⟩
  rw [tokenisePartsChecked_part sized.1 sum sized.2 shape, line]

/-! ## What a run without a panic has passed -/

theorem value_of_ok {r : Option (SmallVec 8 SharedByte)} (all : AllDigits ds) (whole : d = pre ++ 36 :: ds ++ rest)
    (ran : tokenisePartsChecked d (n + 1) pre.length raw = .ok r) : value ds < 2 ^ 64 := by
  by_contra large
  rw [whole, tokenisePartsChecked_overflow all (Nat.not_lt.1 large)] at ran
  cases ran

theorem sum_of_ok {r : Option (SmallVec 8 SharedByte)} (all : AllDigits ds) (whole : d = lineEnd pre ds ++ after)
    (ran : tokenisePartsChecked d (n + 1) pre.length raw = .ok r) : (lineEnd pre ds).length + value ds < 2 ^ 64 := by
  have shape : d = pre ++ 36 :: ds ++ (crlf ++ after) := by rw [whole, lineEnd, List.append_assoc]
  have small := value_of_ok all shape ran
  by_contra large
  rw [tokenisePartsChecked_line all small whole, if_pos (Nat.not_lt.1 large)] at ran
  cases ran

theorem push_of_ok {β : Type} {next : SmallVec 8 SharedByte → Except CheckedPanic β} {r : β} (sized : SmallVec.Sized raw)
    (ran : (pushChecked raw part).bind next = .ok r) : raw.len < 2 ^ 31 ∧
      ∃ raw', SmallVec.Sized raw' ∧ raw'.len = raw.len + 1 ∧ next raw' = .ok r := by
  cases pushed : raw.push part with
  | error overflow =>
    rw [pushChecked, pushed] at ran
    cases ran
  | ok raw' =>
    rw [pushChecked, pushed] at ran
    obtain ⟨room, appended, sized'⟩ := @SmallVec.Sized.of_push _ 3 raw raw' sized (by decide) (by decide) part pushed
    refine ⟨room, raw', sized', ?_, ran⟩
    rw [SmallVec.len, appended, List.length_append]
    rfl

/-- The cursor gets behind the parts that are whole. -/
theorem tokenisePartsChecked_reaches {m : Nat} {r : Option (SmallVec 8 SharedByte)} (chunks : List Chunk) :
    ∀ {pre : SharedByte} {raw : SmallVec 8 SharedByte}, SmallVec.Sized raw → (∀ c ∈ chunks, c.Sized) →
      d = pre ++ chunksWire chunks ++ rest → tokenisePartsChecked d (chunks.length + m) pre.length raw = .ok r →
      ∃ raw', SmallVec.Sized raw' ∧ raw'.len = raw.len + chunks.length ∧
        tokenisePartsChecked d m (pre ++ chunksWire chunks).length raw' = .ok r := by
  induction chunks with
  | nil =>
    intro pre raw sized _ _ ran
    refine ⟨raw, sized, rfl, ?_⟩
    rw [List.length_nil, Nat.zero_add] at ran
    rwa [chunksWire_nil, List.append_nil]
  | cons c chunks ih =>
    intro pre raw sized all whole ran
    have first := all c List.mem_cons_self
    have shape : d = pre ++ c.wire ++ (chunksWire chunks ++ rest) := by rw [whole, chunksWire_cons]; simp
    have line : d = lineEnd pre c.digits ++ (c.part ++ crlf ++ (chunksWire chunks ++ rest)) := by rw [shape, wire_eq]; simp
    rw [List.length_cons, Nat.add_right_comm] at ran
    have sum := sum_of_ok first.1 line ran
    rw [tokenisePartsChecked_chunk first sum shape] at ran
    obtain ⟨-, raw', sized', len, later⟩ := push_of_ok sized ran
    obtain ⟨raw'', sized'', len', reached⟩ := ih sized' (fun c' member => all c' (List.mem_cons_of_mem c member))
      (shape.trans (List.append_assoc _ _ _).symm) later
    refine ⟨raw'', sized'', by rw [len', len, List.length_cons]; omega, ?_⟩
    rwa [List.append_assoc, ← chunksWire_cons] at reached

/-! ## Requests whose numbers fit -/

/-- A request with `k` whole parts, and more to come. -/
def Reads (k : Nat) (pre : SharedByte) : Prop := ∃ ds chunks, pre = headLine ds ++ chunksWire chunks ∧ AllDigits ds ∧
  (∀ c ∈ chunks, c.Sized) ∧ chunks.length = k ∧ k < value ds

/-- The numbers that the tokeniser comes to are words, and so is the end of each part; at most `2 ^ 31` parts are there to be
kept. -/
structure Fits (d : SharedByte) : Prop where
  count : ∀ ds rest, d = 42 :: ds ++ rest → AllDigits ds → value ds < 2 ^ 64
  length : ∀ k pre ds rest, Reads k pre → d = pre ++ 36 :: ds ++ rest → AllDigits ds → value ds < 2 ^ 64
  sum : ∀ k pre ds rest, Reads k pre → d = lineEnd pre ds ++ rest → AllDigits ds → (lineEnd pre ds).length + value ds < 2 ^ 64
  room : ∀ k pre ds part rest, Reads k pre → d = lineEnd pre ds ++ part ++ rest → AllDigits ds → value ds = part.length →
    k < 2 ^ 31

theorem count_of_ok {r : Option (List SharedByte)} (ran : tokeniseChecked d = .ok r) (whole : d = 42 :: ds ++ rest)
    (all : AllDigits ds) : value ds < 2 ^ 64 := by
  by_contra large
  have failed := parseUintChecked_overflow [42] rest all (Nat.not_lt.1 large)
  have shape : d = [42] ++ ds ++ rest := whole
  have tag : ¬ d[0]? ≠ some 42 := by rw [shape]; simp
  rw [← shape] at failed
  rw [tokeniseChecked, if_neg tag, show (1 : Nat) = [(42 : UInt8)].length from rfl, failed] at ran
  cases ran

/-- The head of a request, in a run without a panic. -/
theorem tokeniseChecked_head {r : Option (List SharedByte)} (ran : tokeniseChecked d = .ok r) (whole : d = headLine ds ++ rest)
    (all : AllDigits ds) (some' : 0 < value ds) :
    ∃ parts, tokenisePartsChecked d (value ds) (headLine ds).length .new = .ok parts := by
  have shape : d = [42] ++ ds ++ 13 :: (10 :: rest) := by rw [whole, headLine]; simp [crlf]
  have tag : ¬ d[0]? ≠ some 42 := by rw [shape]; simp
  have first : d = 42 :: ds ++ (crlf ++ rest) := by rw [whole, headLine, List.append_assoc]
  have small := count_of_ok ran first all
  have number := parseUintChecked_digits [42] (10 :: rest) all small
  have line : expectCrlf d ([42] ++ ds).length = some (headLine ds).length := by
    have split : d = ([42] ++ ds) ++ (crlf ++ rest) := by rw [shape]; simp [crlf]
    rw [split]
    exact expectCrlf_eq_some_iff.2 ⟨rest, rfl, by simp [headLine]⟩
  rw [← shape] at number
  rw [tokeniseChecked, if_neg tag, show (1 : Nat) = [(42 : UInt8)].length from rfl, number] at ran
  simp only [bind, Except.bind, line, if_neg (Nat.ne_of_gt some')] at ran
  cases outcome : tokenisePartsChecked d (value ds) (headLine ds).length .new with
  | error e =>
    rw [outcome] at ran
    cases ran
  | ok parts => exact ⟨parts, rfl⟩

/-- A run without a panic gets to every cursor, and has parts to go there. -/
theorem Reads.reached {k : Nat} {r : Option (List SharedByte)} (reads : Reads k pre) (ran : tokeniseChecked d = .ok r)
    (whole : d = pre ++ rest) : ∃ n raw parts, SmallVec.Sized raw ∧ raw.len = k ∧
      tokenisePartsChecked d (n + 1) pre.length raw = .ok parts := by
  obtain ⟨ds, chunks, rfl, all, sized, rfl, fewer⟩ := reads
  obtain ⟨parts, started⟩ := tokeniseChecked_head ran (whole.trans (List.append_assoc _ _ _)) all (by omega)
  obtain ⟨n, left⟩ : ∃ n, value ds = chunks.length + (n + 1) := ⟨value ds - chunks.length - 1, by omega⟩
  rw [left] at started
  obtain ⟨raw, sizedRaw, len, reached⟩ := tokenisePartsChecked_reaches chunks
    (SmallVec.sized_new (α := SharedByte) (by decide : 8 < 2 ^ 32)) sized whole started
  exact ⟨n, raw, parts, sizedRaw, by rw [len]; exact Nat.zero_add _, reached⟩

theorem fits_of_ok {r : Option (List SharedByte)} (ran : tokeniseChecked d = .ok r) : Fits d := by
  refine ⟨?_, ?_, ?_, ?_⟩
  · intro ds rest whole all
    exact count_of_ok ran whole all
  · intro k pre ds rest reads whole all
    obtain ⟨n, raw, parts, -, -, reached⟩ := reads.reached ran (whole.trans (List.append_assoc _ _ _))
    exact value_of_ok all whole reached
  · intro k pre ds rest reads whole all
    have shape : d = pre ++ (36 :: ds ++ crlf ++ rest) := by rw [whole, lineEnd]; simp
    obtain ⟨n, raw, parts, -, -, reached⟩ := reads.reached ran shape
    exact sum_of_ok all whole reached
  · intro k pre ds part rest reads whole all exact'
    have shape : d = pre ++ (36 :: ds ++ crlf ++ part ++ rest) := by rw [whole, lineEnd]; simp
    obtain ⟨n, raw, parts, sized, rfl, reached⟩ := reads.reached ran shape
    have sum := sum_of_ok all (whole.trans (List.append_assoc _ _ _)) reached
    rw [tokenisePartsChecked_part all sum exact' whole] at reached
    exact (push_of_ok sized reached).1

/-- One turn of the loop, where the numbers at the cursor fit: it ends the loop without a panic, or it keeps a whole part. -/
theorem tokenisePartsChecked_turn (whole : d = pre ++ rest) (sized : SmallVec.Sized raw)
    (words : ∀ ds more, d = pre ++ 36 :: ds ++ more → AllDigits ds → value ds < 2 ^ 64)
    (sums : ∀ ds more, d = lineEnd pre ds ++ more → AllDigits ds → (lineEnd pre ds).length + value ds < 2 ^ 64)
    (room : ∀ ds part more, d = lineEnd pre ds ++ part ++ more → AllDigits ds → value ds = part.length → raw.len < 2 ^ 31) :
    tokenisePartsChecked d (n + 1) pre.length raw = .ok none ∨ ∃ (c : Chunk) (tail : SharedByte) (raw' : SmallVec 8 SharedByte),
      c.Sized ∧ d = pre ++ c.wire ++ tail ∧
      SmallVec.Sized raw' ∧ raw'.len = raw.len + 1 ∧
      tokenisePartsChecked d (n + 1) pre.length raw = tokenisePartsChecked d n (pre ++ c.wire).length raw' := by
  by_cases tag : d[pre.length]? = some 36
  · have start := not_not.2 tag
    rw [whole] at tag
    obtain ⟨after, rfl⟩ := exists_of_tag tag
    have shape : d = (pre ++ [36]) ++ after := by rw [whole]; simp
    have behind : pre.length + 1 = (pre ++ [36]).length := by simp
    have words' : ∀ ds more, after = ds ++ more → AllDigits ds → value ds < 2 ^ 64 := fun ds more same all =>
      words ds more (by rw [shape, same]; simp) all
    obtain ⟨r, ran, read⟩ := parseUintChecked_ok (pre ++ [36]) words'
    rw [← shape] at ran
    cases r with
    | none =>
      left
      rw [tokenisePartsChecked, if_neg start, behind, ran]
      rfl
    | some p =>
      obtain ⟨size, q⟩ := p
      obtain ⟨ds, more, rfl, all, rfl, rfl⟩ := parseUint_reads read
      have split : d = (pre ++ [36] ++ ds) ++ 13 :: more := by rw [shape]; simp
      cases line : expectCrlf d (pre ++ [36] ++ ds).length with
      | none =>
        left
        rw [tokenisePartsChecked, if_neg start, behind, ran]
        simp only [bind, Except.bind, line]
        rfl
      | some q =>
        rw [split] at line
        obtain ⟨body, crlf', -⟩ := expectCrlf_eq_some_iff.1 line
        have declared : d = lineEnd pre ds ++ body := by rw [split, crlf', lineEnd]; simp
        have sum := sums ds body declared all
        by_cases short : d.length < (lineEnd pre ds).length + value ds
        · left
          rw [tokenisePartsChecked_line all (words' ds _ rfl all) declared, if_neg (by omega), if_pos short]
        · -- The bytes are there, and there is room for them.
          have enough : value ds ≤ body.length := by
            rw [declared, List.length_append] at short
            omega
          have exact' : value ds = (body.take (value ds)).length := by rw [List.length_take, Nat.min_eq_left enough]
          have parted : d = lineEnd pre ds ++ body.take (value ds) ++ body.drop (value ds) := by
            rw [declared, List.append_assoc, List.take_append_drop]
          obtain ⟨raw', pushed, appended, sized'⟩ := sized.push_ok (by decide) (room ds _ _ parted all exact') (body.take (value ds))
          have kept : pushChecked raw (body.take (value ds)) = .ok raw' := by rw [pushChecked, pushed]; rfl
          rw [tokenisePartsChecked_part all sum exact' parted, kept]
          simp only [Except.bind]
          cases line' : expectCrlf d (lineEnd pre ds ++ body.take (value ds)).length with
          | none => exact .inl rfl
          | some q' =>
            rw [parted] at line'
            obtain ⟨tail, ended, rfl⟩ := expectCrlf_eq_some_iff.1 line'
            refine .inr ⟨⟨ds, body.take (value ds)⟩, tail, raw', ⟨all, exact'⟩, ?_, sized', ?_, by rw [wire_eq]⟩
            · rw [wire_eq, List.append_assoc _ crlf, ← ended]
              exact parted
            · rw [SmallVec.len, appended, List.length_append]
              rfl
  · left
    rw [tokenisePartsChecked, if_pos tag]

/-- From a cursor behind whole parts, a request whose numbers fit is read without a panic. -/
theorem tokenisePartsChecked_ok (fits : Fits d) (all : AllDigits ds) (n : Nat) :
    ∀ {chunks : List Chunk} {rest : SharedByte} {raw : SmallVec 8 SharedByte}, d = headLine ds ++ chunksWire chunks ++ rest →
      (∀ c ∈ chunks, c.Sized) → chunks.length + n = value ds → SmallVec.Sized raw → raw.len = chunks.length →
      ∃ r, tokenisePartsChecked d n (headLine ds ++ chunksWire chunks).length raw = .ok r := by
  induction n with
  | zero => exact fun {chunks rest raw} _ _ _ _ _ => ⟨some raw, rfl⟩
  | succ n ih =>
    intro chunks rest raw whole sized left sizedRaw len
    have reads : Reads chunks.length (headLine ds ++ chunksWire chunks) := ⟨ds, chunks, rfl, all, sized, rfl, by omega⟩
    rcases tokenisePartsChecked_turn whole sizedRaw (fun ds' more => fits.length _ _ ds' more reads)
      (fun ds' more => fits.sum _ _ ds' more reads) (fun ds' part more => len ▸ fits.room _ _ ds' part more reads)
      with ended | ⟨c, tail, raw', sizedC, shape, sized', len', turn⟩
    · exact ⟨none, ended⟩
    · have cursor : headLine ds ++ chunksWire chunks ++ c.wire = headLine ds ++ chunksWire (chunks ++ [c]) := by
        rw [chunksWire_append, chunksWire_cons, chunksWire_nil, List.append_nil, List.append_assoc]
      rw [cursor] at shape turn
      rw [turn]
      refine ih shape ?_ ?_ sized' ?_
      · exact List.forall_mem_append.2 ⟨sized, List.forall_mem_singleton.2 sizedC⟩
      · rw [List.length_append, List.length_singleton]
        omega
      · rw [len', len, List.length_append, List.length_singleton]

/-- What a checked build makes of a request is what a release build makes of it. -/
theorem tokenisePartsChecked_refines (n : Nat) : ∀ {pos : Nat} {raw : SmallVec 8 SharedByte},
    Refines (tokenisePartsChecked d n pos raw) (tokeniseParts d n pos raw) := by
  induction n with
  | zero => exact fun {_ raw} => .ok (some raw)
  | succ n ih =>
    intro pos raw
    rw [tokenisePartsChecked, tokeniseParts]
    refine .ite (fun _ => .ok none) fun _ => .step (b := parseUint d (pos + 1)) (fun r read => ?_) ?_
    · exact (parseUintFrom_of_checked read).symm
    cases parseUint d (pos + 1) with
    | none => exact .ok none
    | some p =>
      obtain ⟨len, pos⟩ := p
      simp only
      cases expectCrlf d pos with
      | none => exact .ok none
      | some pos =>
        refine .guard fun word => ?_
        simp only [Nat.mod_eq_of_lt (Nat.not_le.1 word)]
        refine .ite (fun _ => .ok none) fun enough => ?_
        have cut : slice d pos (pos + len) = .ok ((d.drop pos).take (pos + len - pos)) :=
          if_pos ⟨Nat.le_add_right _ _, Nat.not_lt.1 enough⟩
        rw [cut, if_neg (Nat.not_lt.2 (Nat.le_add_right _ _))]
        simp only [pushChecked, bind, Except.bind]
        cases raw.push ((d.drop pos).take (pos + len - pos)) with
        | error overflow => exact .error _
        | ok raw =>
          simp only [Except.mapError]
          cases expectCrlf d (pos + len) with
          | none => exact .ok none
          | some pos => exact ih

theorem tokeniseChecked_refines (d : SharedByte) : Refines (tokeniseChecked d) (tokenise d) := by
  rw [tokeniseChecked, tokenise]
  refine .ite (fun _ => .ok none) fun _ => .step (b := parseUint d 1) (fun r read => ?_) ?_
  · exact (parseUintFrom_of_checked read).symm
  cases parseUint d 1 with
  | none => exact .ok none
  | some p =>
    obtain ⟨n, pos⟩ := p
    simp only
    cases expectCrlf d pos with
    | none => exact .ok none
    | some pos => exact .ite (fun _ => .ok none) fun _ => (tokenisePartsChecked_refines n).map _

theorem tokeniseChecked_ok (fits : Fits d) : ∃ r, tokeniseChecked d = .ok r := by
  by_cases tag : d[0]? = some 42
  · have start := not_not.2 tag
    cases d with
    | nil => cases tag
    | cons b after =>
      obtain rfl := Option.some.inj tag
      obtain ⟨r, ran, read⟩ := parseUintChecked_ok [42] fun ds more same all => fits.count ds more (congrArg (42 :: ·) same) all
      cases r with
      | none =>
        rw [tokeniseChecked, if_neg start, show (1 : Nat) = [(42 : UInt8)].length from rfl]
        exact ⟨none, by rw [show 42 :: after = [42] ++ after from rfl, ran]; rfl⟩
      | some p =>
        obtain ⟨n, q⟩ := p
        obtain ⟨ds, more, rfl, all, rfl, rfl⟩ := parseUint_reads read
        have small := fits.count ds (13 :: more) rfl all
        have counted : parseUintChecked (42 :: (ds ++ 13 :: more)) 1 = .ok (some (value ds, ([42] ++ ds).length)) := by
          rw [← Nat.mod_eq_of_lt small]
          exact ran
        rw [tokeniseChecked, if_neg start, counted]
        simp only [bind, Except.bind]
        cases line : expectCrlf (42 :: (ds ++ 13 :: more)) ([42] ++ ds).length with
        | none => exact ⟨none, rfl⟩
        | some q =>
          rw [show 42 :: (ds ++ 13 :: more) = ([42] ++ ds) ++ 13 :: more from rfl] at line
          obtain ⟨body, crlf', rfl⟩ := expectCrlf_eq_some_iff.1 line
          simp only
          split
          · exact ⟨none, rfl⟩
          next some' =>
            have whole : 42 :: (ds ++ 13 :: more) = headLine ds ++ chunksWire [] ++ body := by rw [crlf', headLine]; simp
            obtain ⟨r, parts⟩ := tokenisePartsChecked_ok fits all (value ds) whole (fun c member => absurd member List.not_mem_nil)
              (Nat.zero_add _) (SmallVec.sized_new (α := SharedByte) (by decide : 8 < 2 ^ 32)) rfl
            rw [chunksWire_nil, List.append_nil] at parts
            have head : ([42] ++ ds ++ crlf).length = (headLine ds).length := rfl
            rw [head, parts]
            exact ⟨r.map SmallVec.items, rfl⟩
  · rw [tokeniseChecked, if_pos tag]
    exact ⟨none, rfl⟩

end Parts

/-- With overflow checks on, the tokeniser returns exactly for the requests whose numbers fit; and what it returns is what it
returns without the checks. -/
theorem tokeniseChecked_ok_iff (d : SharedByte) : ((∃ r, tokeniseChecked d = .ok r) ↔ Fits d) ∧
    ∀ r, tokeniseChecked d = .ok r → tokenise d = .ok r :=
  ⟨⟨fun ⟨_, ran⟩ => fits_of_ok ran, tokeniseChecked_ok⟩, tokeniseChecked_refines d⟩

/-- A length at the top of the range: a release build slices out of range, a checked build panics before. Likewise a length
that is no word. -/
theorem declared_length_panics : tokenise (ascii "*1\r\n$18446744073709551615\r\n") = .error .slice ∧
    tokeniseChecked (ascii "*1\r\n$18446744073709551615\r\n") = .error .overflow ∧
    tokeniseChecked (ascii "*1\r\n$18446744073709551616\r\n") = .error .overflow := by
  refine ⟨?_, ?_, ?_⟩ <;> decide +kernel

end Radixox.Server.Cmd
