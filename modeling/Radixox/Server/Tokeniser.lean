import Radixox.Server.SmallVec
import Radixox.Server.Wire

/-!
# The tokeniser

`Cmd::from_slice` of `cmd.rs` reads an array of bulk strings off a byte slice, with its own digit loop and its own
cursor, and hands the parts to `dispatch`. Numbers are `usize`; a release build wraps them.
-/

namespace Radixox.Server.Cmd
set_option autoImplicit false
open Radixox.Decimal

/-- Where the tokeniser fails instead of answering. -/
inductive TokenPanic where
  /-- `d[pos..pos + len]` with a sum that wrapped. -/
  | slice
  | push (overflow : SizeOverflow)
deriving DecidableEq

/-- The loop of `parse_uint`; every turn moves on by one byte, so `fuel` is the bytes left and one more. -/
def parseUintFrom (d : SharedByte) : Nat → Nat → Nat → Option (Nat × Nat)
  | 0, _, _ => none
  | fuel + 1, pos, n => match d[pos]? with
    | none => none
    | some b =>
      if b = 13 then some (n, pos)
      else if IsDigit b then parseUintFrom d fuel (pos + 1) (shift n b % 2 ^ 64)
      else none

/-- The number at a position, and the position of the CR behind it. -/
def parseUint (d : SharedByte) (pos : Nat) : Option (Nat × Nat) := parseUintFrom d (d.length - pos + 1) pos 0

def expectCrlf (d : SharedByte) (pos : Nat) : Option Nat :=
  if d[pos]? = some 13 ∧ d[pos + 1]? = some 10 then some (pos + 2) else none

/-- The loop over the parts. -/
def tokeniseParts (d : SharedByte) : Nat → Nat → SmallVec 8 SharedByte → Except TokenPanic (Option (SmallVec 8 SharedByte))
  | 0, _, raw => .ok (some raw)
  | n + 1, pos, raw =>
    if d[pos]? ≠ some 36 then .ok none
    else match parseUint d (pos + 1) with
      | none => .ok none
      | some (len, pos) => match expectCrlf d pos with
        | none => .ok none
        | some pos =>
          let stop := (pos + len) % 2 ^ 64
          if d.length < stop then .ok none
          else if stop < pos then .error .slice
          else match raw.push ((d.drop pos).take (stop - pos)) with
            | .error overflow => .error (.push overflow)
            | .ok raw => match expectCrlf d stop with
              | none => .ok none
              | some pos => tokeniseParts d n pos raw

/-- What `from_slice` hands to `dispatch`. -/
def tokenise (d : SharedByte) : Except TokenPanic (Option (List SharedByte)) :=
  if d[0]? ≠ some 42 then .ok none
  else match parseUint d 1 with
    | none => .ok none
    | some (n, pos) => match expectCrlf d pos with
      | none => .ok none
      | some pos => if n = 0 then .ok none else (tokeniseParts d n pos .new).map (Option.map SmallVec.items)

def fromSlice {α : Type} (dispatch : List SharedByte → Option α) (d : SharedByte) : Except TokenPanic (Option α) :=
  (tokenise d).map fun raw => raw.bind dispatch

/-! ## Reading at a position -/

theorem getElem?_at (pre : SharedByte) (b : UInt8) (rest : SharedByte) : (pre ++ b :: rest)[pre.length]? = some b := by
  simp

theorem shift_mod (n : Nat) (b : UInt8) : shift (n % 2 ^ 64) b % 2 ^ 64 = shift n b % 2 ^ 64 := by
  unfold shift
  omega

/-- The digit loop reads a run of digits up to a CR. -/
theorem parseUintFrom_digits (ds : SharedByte) (all : ∀ b ∈ ds, IsDigit b) (rest : SharedByte) :
    ∀ (pre : SharedByte) (fuel n : Nat), ds.length < fuel →
      parseUintFrom (pre ++ ds ++ 13 :: rest) fuel pre.length (n % 2 ^ 64) =
        some (ds.foldl shift n % 2 ^ 64, pre.length + ds.length) := by
  induction ds with
  | nil =>
    intro pre fuel n enough
    obtain ⟨fuel, rfl⟩ : ∃ f, fuel = f + 1 := ⟨fuel - 1, by rw [List.length_nil] at enough; omega⟩
    simp only [parseUintFrom, List.append_nil, getElem?_at, if_true]
    rfl
  | cons b ds ih =>
    intro pre fuel n enough
    rw [List.length_cons] at enough
    obtain ⟨fuel, rfl⟩ : ∃ f, fuel = f + 1 := ⟨fuel - 1, by omega⟩
    have digit := all b List.mem_cons_self
    have notCr : b ≠ 13 := by
      rintro rfl
      exact absurd digit (by decide)
    have whole : pre ++ b :: ds ++ 13 :: rest = (pre ++ [b]) ++ ds ++ 13 :: rest := by simp
    have at' : (pre ++ b :: ds ++ 13 :: rest)[pre.length]? = some b := by
      rw [List.append_assoc, List.cons_append]
      exact getElem?_at pre b _
    have later := ih (fun c member => all c (List.mem_cons_of_mem b member)) (pre ++ [b]) fuel (shift n b) (by omega)
    simp only [parseUintFrom, at', if_neg notCr, if_pos digit, shift_mod]
    rw [whole]
    rw [List.length_append, List.length_singleton] at later
    rw [later, List.foldl_cons, List.length_cons]
    congr 2
    omega

theorem parseUint_text (n : Nat) (small : n < 2 ^ 64) (pre rest : SharedByte) :
    parseUint (pre ++ text n ++ 13 :: rest) pre.length = some (n, pre.length + (text n).length) := by
  have read := parseUintFrom_digits (text n) (fun _ => isDigit_of_mem_text) rest pre
    ((pre ++ text n ++ 13 :: rest).length - pre.length + 1) 0 (by simp only [List.length_append]; omega)
  have number : (text n).foldl shift 0 = n := value_text n
  rw [number, Nat.mod_eq_of_lt small] at read
  exact read

theorem expectCrlf_at (pre rest : SharedByte) : expectCrlf (pre ++ crlf ++ rest) pre.length = some (pre.length + 2) := by
  have cr : (pre ++ crlf ++ rest)[pre.length]? = some 13 := by
    rw [List.append_assoc]
    exact getElem?_at pre 13 _
  have lf : (pre ++ crlf ++ rest)[pre.length + 1]? = some 10 := by
    have split : pre ++ crlf ++ rest = (pre ++ [13]) ++ 10 :: rest := by simp [crlf]
    have := getElem?_at (pre ++ [13]) 10 rest
    rw [split]
    rwa [List.length_append, List.length_singleton] at this
  rw [expectCrlf, if_pos ⟨cr, lf⟩]

/-! ## Tokenising what was encoded -/

/-- The parts as the encoder takes them. -/
def bulks (parts : List SharedByte) : List SharedFrame := parts.map .bulkString

/-- One part in front: the loop takes it over and goes on behind it. -/
theorem tokeniseParts_cons (pre part rest : SharedByte) (fits : (pre ++ (SharedFrame.bulkString part).wire ++ rest).length < 2 ^ 63)
    (n : Nat) (raw : SmallVec 8 SharedByte) :
    tokeniseParts (pre ++ (SharedFrame.bulkString part).wire ++ rest) (n + 1) pre.length raw =
      match raw.push part with
      | .error overflow => .error (.push overflow)
      | .ok raw => tokeniseParts (pre ++ (SharedFrame.bulkString part).wire ++ rest) n
          (pre ++ (SharedFrame.bulkString part).wire).length raw := by
  obtain ⟨d, eq⟩ : ∃ d, d = pre ++ (SharedFrame.bulkString part).wire ++ rest := ⟨_, rfl⟩
  have tag : d[pre.length]? = some 36 := by
    rw [eq, List.append_assoc]
    exact getElem?_at pre 36 _
  have small : part.length < 2 ^ 63 := by
    simp only [SharedFrame.wire, List.length_append] at fits
    omega
  rw [← eq] at fits ⊢
  -- The three cursors: behind the tag, behind the length, behind its line end.
  obtain ⟨p₁, eq₁⟩ : ∃ p₁, p₁ = pre ++ [36] := ⟨_, rfl⟩
  obtain ⟨p₂, eq₂⟩ : ∃ p₂, p₂ = p₁ ++ text part.length := ⟨_, rfl⟩
  obtain ⟨p₃, eq₃⟩ : ∃ p₃, p₃ = p₂ ++ crlf := ⟨_, rfl⟩
  have l₁ : p₁.length = pre.length + 1 := by rw [eq₁, List.length_append]; rfl
  have l₃ : p₃.length = p₂.length + 2 := by rw [eq₃, List.length_append]; rfl
  have d₂ : d = p₁ ++ text part.length ++ 13 :: (10 :: part ++ crlf ++ rest) := by
    rw [eq, eq₁]
    simp [SharedFrame.wire, crlf]
  have d₃ : d = p₂ ++ crlf ++ (part ++ crlf ++ rest) := by
    rw [eq, eq₂, eq₁]
    simp [SharedFrame.wire]
  have d₄ : d = (p₃ ++ part) ++ crlf ++ rest := by
    rw [d₃, eq₃]
    simp
  have number : parseUint d (pre.length + 1) = some (part.length, p₂.length) := by
    rw [d₂, ← l₁, parseUint_text _ (by omega), eq₂, List.length_append]
  have line : expectCrlf d p₂.length = some p₃.length := by rw [d₃, expectCrlf_at, l₃]
  have total : p₃.length + part.length ≤ d.length := by
    rw [d₄]
    simp only [List.length_append]
    omega
  have stop : (p₃.length + part.length) % 2 ^ 64 = p₃.length + part.length := Nat.mod_eq_of_lt (by omega)
  have slice : (d.drop p₃.length).take part.length = part := by
    rw [d₄, List.append_assoc, List.append_assoc, List.drop_left, List.take_left]
  have after : expectCrlf d (p₃.length + part.length) = some (pre ++ (SharedFrame.bulkString part).wire).length := by
    have whole : (p₃ ++ part).length = p₃.length + part.length := List.length_append
    rw [← whole, d₄, expectCrlf_at]
    congr 1
    rw [eq₃, eq₂, eq₁]
    simp only [SharedFrame.wire, List.length_append, List.length_cons, List.length_nil, crlf]
    omega
  have inside : ¬ d.length < p₃.length + part.length := by omega
  have ordered : ¬ p₃.length + part.length < p₃.length := by omega
  have width : p₃.length + part.length - p₃.length = part.length := by omega
  simp only [tokeniseParts, tag, ne_eq, not_true_eq_false, if_false, number, line, stop, inside, ordered, width, slice]
  cases raw.push part with
  | error overflow => rfl
  | ok raw => simp only [after]

/-- The loop over encoded parts is one push for each. -/
theorem tokeniseParts_wire (parts : List SharedByte) : ∀ (pre rest : SharedByte) (raw : SmallVec 8 SharedByte),
    (pre ++ wireAll (bulks parts) ++ rest).length < 2 ^ 63 →
    tokeniseParts (pre ++ wireAll (bulks parts) ++ rest) parts.length pre.length raw =
      match raw.pushAll parts with
      | .error overflow => .error (.push overflow)
      | .ok raw => .ok (some raw) := by
  induction parts with
  | nil => exact fun _ _ _ _ => rfl
  | cons part parts ih =>
    intro pre rest raw fits
    have shape : pre ++ wireAll (bulks (part :: parts)) ++ rest =
        pre ++ (SharedFrame.bulkString part).wire ++ (wireAll (bulks parts) ++ rest) := by
      simp [bulks, wireAll]
    have shape' : pre ++ (SharedFrame.bulkString part).wire ++ (wireAll (bulks parts) ++ rest) =
        (pre ++ (SharedFrame.bulkString part).wire) ++ wireAll (bulks parts) ++ rest := (List.append_assoc _ _ _).symm
    rw [shape] at fits ⊢
    rw [List.length_cons, tokeniseParts_cons _ _ _ fits]
    simp only [SmallVec.pushAll, bind, Except.bind]
    cases raw.push part with
    | error overflow => rfl
    | ok raw =>
      rw [shape'] at fits ⊢
      exact ih _ rest raw fits

theorem tokenise_wire {parts : List SharedByte} (nonempty : parts ≠ []) (rest : SharedByte)
    (fits : ((SharedFrame.array (bulks parts)).wire ++ rest).length < 2 ^ 63) :
    tokenise ((SharedFrame.array (bulks parts)).wire ++ rest) = match (SmallVec.new : SmallVec 8 SharedByte).pushAll parts with
      | .error overflow => .error (.push overflow)
      | .ok raw => .ok (some raw.items) := by
  obtain ⟨d, eq⟩ : ∃ d, d = (SharedFrame.array (bulks parts)).wire ++ rest := ⟨_, rfl⟩
  have count : (bulks parts).length = parts.length := List.length_map _
  have small : parts.length < 2 ^ 64 := by
    have := length_le_wireAll (bulks parts)
    simp only [SharedFrame.wire, List.length_append] at fits
    omega
  rw [← eq] at fits ⊢
  obtain ⟨p₁, eq₁⟩ : ∃ p₁, p₁ = 42 :: text parts.length := ⟨_, rfl⟩
  obtain ⟨p₂, eq₂⟩ : ∃ p₂, p₂ = p₁ ++ crlf := ⟨_, rfl⟩
  have l₁ : p₁.length = 1 + (text parts.length).length := by rw [eq₁, List.length_cons, Nat.add_comm]
  have l₂ : p₂.length = p₁.length + 2 := by rw [eq₂, List.length_append]; rfl
  have d₁ : d = [42] ++ text parts.length ++ 13 :: (10 :: wireAll (bulks parts) ++ rest) := by
    rw [eq]
    simp [SharedFrame.wire, crlf, count]
  have d₂ : d = p₁ ++ crlf ++ (wireAll (bulks parts) ++ rest) := by
    rw [eq, eq₁]
    simp [SharedFrame.wire, count]
  have d₃ : d = p₂ ++ wireAll (bulks parts) ++ rest := by
    rw [d₂, eq₂, List.append_assoc, List.append_assoc, List.append_assoc]
  have tag : d[0]? = some 42 := by rw [d₁]; rfl
  have number : parseUint d 1 = some (parts.length, p₁.length) := by
    rw [d₁, l₁]
    exact parseUint_text _ small [42] _
  have line : expectCrlf d p₁.length = some p₂.length := by rw [d₂, expectCrlf_at, l₂]
  have filled : parts.length ≠ 0 := fun none' => nonempty (List.length_eq_zero_iff.1 none')
  have loop := tokeniseParts_wire parts p₂ rest .new (d₃ ▸ fits)
  rw [← d₃] at loop
  simp only [tokenise, tag, ne_eq, not_true_eq_false, if_false, number, line, filled, loop]
  cases (SmallVec.new : SmallVec 8 SharedByte).pushAll parts <;> rfl

/-- Tokenising what was encoded gives the parts back, whatever follows, exactly when the vector of the parts can hold them. -/
theorem tokenise_extendEncode_iff {parts : List SharedByte} (nonempty : parts ≠ []) (rest : SharedByte)
    (fits : ((SharedFrame.array (parts.map .bulkString)).wire ++ rest).length < 2 ^ 63) :
    (∃ bytes, extendEncode [] (.array (parts.map .bulkString)) = some bytes ∧ tokenise (bytes ++ rest) = .ok (some parts)) ↔
      parts.length ≤ 2 ^ 31 := by
  have short : (SharedFrame.array (bulks parts)).wire.length < 10 ^ 20 := by
    rw [List.length_append] at fits
    exact Nat.lt_of_le_of_lt (Nat.le_of_lt (Nat.lt_of_le_of_lt (Nat.le_add_right _ _) fits)) (by decide)
  have encoded : extendEncode [] (.array (bulks parts)) = some (SharedFrame.array (bulks parts)).wire :=
    encodeFrame_of_short [] _ short
  have handed := tokenise_wire nonempty rest fits
  have empty : (SmallVec.new : SmallVec 8 SharedByte).len = 0 := rfl
  constructor
  · rintro ⟨bytes, encoded', tokens⟩
    obtain rfl := Option.some.inj (encoded.symm.trans encoded')
    by_contra many
    obtain ⟨e, failed⟩ := (SmallVec.sized_new (α := SharedByte) (by decide : 2 ^ 3 < 2 ^ 32)).pushAll_full (by decide) (by decide)
      parts (Nat.zero_le _) (by rw [show (SmallVec.new : SmallVec (2 ^ 3) SharedByte).len = 0 from rfl]; omega)
    rw [handed] at tokens
    have failed : (SmallVec.new : SmallVec 8 SharedByte).pushAll parts = .error e := failed
    rw [failed] at tokens
    cases tokens
  · intro few
    obtain ⟨raw, pushed, items, -⟩ := (SmallVec.sized_new (α := SharedByte) (by decide : 8 < 2 ^ 32)).pushAll_ok (by decide)
      parts (by rw [empty]; omega)
    refine ⟨_, encoded, ?_⟩
    rw [handed, pushed]
    exact congrArg (fun l => Except.ok (some l)) items

/-- A part that looks like more of the request, and bytes behind it. -/
theorem tokenise_extendEncode_iff_nested : ∃ bytes,
    extendEncode [] (.array ([[71, 69, 84], [36, 49, 13, 10, 42]].map .bulkString)) = some bytes ∧
    tokenise (bytes ++ [43]) = .ok (some [[71, 69, 84], [36, 49, 13, 10, 42]]) :=
  (tokenise_extendEncode_iff (by simp) [43] (by decide)).2 (by decide)

/-- As many empty parts as overflow the size of the vector. -/
theorem tokenise_replicate {n : Nat} (many : 2 ^ 31 < n) (bounded : n < 2 ^ 32) : ∃ bytes,
    extendEncode [] (.array ((List.replicate n []).map .bulkString)) = some bytes ∧ bytes.length < 2 ^ 36 ∧
      tokenise bytes ≠ .ok (some (List.replicate n [])) := by
  obtain ⟨parts, eq⟩ : ∃ parts : List SharedByte, parts = List.replicate n [] := ⟨_, rfl⟩
  have count : parts.length = n := by rw [eq, List.length_replicate]
  have each : ∀ l : List SharedByte, (∀ part ∈ l, part = []) → (wireAll (bulks l)).length = 6 * l.length := by
    intro l all
    induction l with
    | nil => rfl
    | cons part l ih =>
      have later := ih fun other member => all other (List.mem_cons_of_mem part member)
      have first : (SharedFrame.bulkString part).wire.length = 6 := by rw [all part List.mem_cons_self]; rfl
      rw [show bulks (part :: l) = .bulkString part :: bulks l from rfl, wireAll, List.length_append, first, later,
        List.length_cons]
      omega
  have length : (SharedFrame.array (bulks parts)).wire.length < 2 ^ 36 := by
    have body := each parts fun part member => List.eq_of_mem_replicate (eq ▸ member)
    have head := length_text_le (bulks parts).length
    have same : (bulks parts).length = parts.length := List.length_map _
    simp only [SharedFrame.wire, List.length_append, List.length_cons, body, crlf, List.length_nil]
    omega
  have nonempty : parts ≠ [] := by
    rintro rfl
    rw [List.length_nil] at count
    omega
  have encoded : extendEncode [] (.array (bulks parts)) = some (SharedFrame.array (bulks parts)).wire :=
    encodeFrame_of_short [] _ (Nat.lt_trans length (by decide))
  rw [← eq]
  refine ⟨_, encoded, length, fun tokens => ?_⟩
  have fits : ((SharedFrame.array (parts.map .bulkString)).wire ++ []).length < 2 ^ 63 := by
    rw [List.append_nil]
    exact Nat.lt_trans length (by decide)
  have few := (tokenise_extendEncode_iff nonempty [] fits).1 ⟨_, encoded, by rwa [List.append_nil]⟩
  omega

/-- An array with one part more than the heap form can grow to. -/
theorem tokenise_beyond_growth : ∃ bytes,
    extendEncode [] (.array ((List.replicate (2 ^ 31 + 1) []).map .bulkString)) = some bytes ∧ bytes.length < 2 ^ 36 ∧
      tokenise bytes ≠ .ok (some (List.replicate (2 ^ 31 + 1) [])) :=
  tokenise_replicate (by omega) (by omega)

end Radixox.Server.Cmd
